import MaskLayout.Loading
import MaskLayout.Proofs.KeyMap

/-!
# Where loading fails

Loaders that check one entry of the rules after the other. A loader passes a list of checkpoints when it succeeds exactly
if all of them are sound, with the stack of places as it was, and fails with the place of the first one that is not.
Parts of a loader that follow each other pass their checkpoints one after the other.
-/

namespace MaskLayout

variable {α β γ κ : Type}

/-- Whether every failure of a check is a fault at one place. -/
def FailsAt (trail : List Place) (x : Except LayoutError α) : Prop := ∀ e, x = .error e → ∃ fault, e = .load fault trail

section FailsAt

variable {trail : List Place} {x : Except LayoutError α}

theorem failsAt_ok (a : α) : FailsAt trail (.ok a) := by
  rintro e ⟨⟩

theorem failsAt_fail (fault : RuleFault) : FailsAt trail ((Place.reporter trail).fail fault : Except LayoutError α) := by
  rintro e ⟨⟩
  exact ⟨fault, rfl⟩

theorem FailsAt.bind {f : α → Except LayoutError β} (hx : FailsAt trail x) (hf : ∀ a, FailsAt trail (f a)) :
    FailsAt trail (x >>= f) := by
  cases x with
  | error e =>
      intro e' he'
      obtain rfl : e = e' := Except.error.inj he'
      exact hx e rfl
  | ok a => exact hf a

theorem failsAt_ensure (condition : Bool) (fault : RuleFault) :
    FailsAt trail ((Place.reporter trail).ensure condition fault) := by
  rw [Reporter.ensure]
  split
  · exact failsAt_ok ()
  · exact failsAt_fail fault

theorem failsAt_require (value : Option α) (fault : RuleFault) :
    FailsAt trail ((Place.reporter trail).require value fault) := by
  cases value with
  | none => exact failsAt_fail fault
  | some a => exact failsAt_ok a

theorem failsAt_instead {δ : Type} (result : Except δ α) (fault : RuleFault) :
    FailsAt trail ((Place.reporter trail).instead result fault) := by
  cases result with
  | error _ => exact failsAt_fail fault
  | ok a => exact failsAt_ok a

theorem failsAt_mapM {f : α → Except LayoutError β} (hf : ∀ a, FailsAt trail (f a)) (l : List α) :
    FailsAt trail (l.mapM f) := by
  induction l with
  | nil => exact failsAt_ok []
  | cons a rest ih =>
      rw [List.mapM_cons]
      exact (hf a).bind fun b => ih.bind fun bs => failsAt_ok (b :: bs)

theorem failsAt_forM {f : α → Except LayoutError Unit} (hf : ∀ a, FailsAt trail (f a)) (l : List α) :
    FailsAt trail (l.forM f) := by
  induction l with
  | nil => exact failsAt_ok ()
  | cons a rest ih => exact (hf a).bind fun _ => ih

end FailsAt

namespace Loading

variable {s : List Place}

theorem run_of_run' {x : Loading α} {a : α} (h : x.run' s = .ok a) : ∃ s', x.run s = .ok (a, s') := by
  obtain ⟨⟨a, s'⟩, hrun, rfl⟩ := Success.map_iff.1 h
  exact ⟨s', hrun⟩

@[simp] theorem run_push (place : Place) (s : List Place) : (push place).run s = .ok ((), s ++ [place]) := rfl

theorem run_here (x : Reporter RuleFault LayoutError → Except LayoutError α) (s : List Place) :
    (here x).run s = (x (Place.reporter s) >>= fun a => .ok (a, s)) := rfl

/-- The place of an entry is on the stack while the entry is loaded, and not later. -/
theorem run_within (place : Place) (x : Reporter RuleFault LayoutError → Except LayoutError α) (s : List Place) :
    (within place x).run s = (x (Place.reporter (s ++ [place])) >>= fun a => .ok (a, s)) := by
  change (x (Place.reporter (s ++ [place])) >>= fun a => .ok (a, s ++ [place])) >>=
    (fun r => Except.ok (r.1, r.2.dropLast)) = _
  cases x (Place.reporter (s ++ [place])) with
  | error e => rfl
  | ok a =>
      change Except.ok (a, (s ++ [place]).dropLast) = .ok (a, s)
      rw [List.dropLast_concat]

theorem run_within_iff {place : Place} {x : Reporter RuleFault LayoutError → Except LayoutError α} {a : α}
    {s' : List Place} :
    (within place x).run s = .ok (a, s') ↔ x (Place.reporter (s ++ [place])) = .ok a ∧ s = s' := by
  rw [run_within, Success.bind_iff]
  simp only [Except.ok.injEq, Prod.mk.injEq]
  constructor
  · rintro ⟨_, hx, rfl, rfl⟩
    exact ⟨hx, rfl⟩
  · rintro ⟨hx, rfl⟩
    exact ⟨a, hx, rfl, rfl⟩

open Std in
/-- Entries that are loaded each at its place are loaded as by a traversal that reports each fault at that place. -/
theorem traverse_of_run [Ord κ] [TransOrd κ] [LawfulEqOrd κ] {place : κ → Place}
    {f : κ → α → Reporter RuleFault LayoutError → Except LayoutError β} {m : KeyMap κ α} {m' : KeyMap κ β}
    {s' : List Place} (h : (traverse place f m).run s = .ok (m', s')) :
    m.traverse (fun k v => f k v (Place.reporter (s ++ [place k]))) = .ok m' ∧ s = s' := by
  have hentries (l : List (κ × α)) {es : List (κ × β)} {s' : List Place}
      (hes : (l.mapM fun e => do return (e.1, ← within (place e.1) (f e.1 e.2)) : Loading _).run s = .ok (es, s')) :
      (l.mapM fun e => do return (e.1, ← f e.1 e.2 (Place.reporter (s ++ [place e.1])))) = .ok es ∧ s = s' := by
    induction l generalizing es s' with
    | nil =>
        cases hes
        exact ⟨rfl, rfl⟩
    | cons e rest ih =>
        simp only [List.mapM_cons, bind_assoc, pure_bind, StateT.run_bind, Success.bind_iff] at hes
        obtain ⟨⟨b, s₁⟩, hwithin, ⟨bs, s₂⟩, hrest, hout⟩ := hes
        cases hout
        obtain ⟨hb, rfl⟩ := run_within_iff.1 hwithin
        obtain ⟨hbs, rfl⟩ := ih hrest
        refine ⟨?_, rfl⟩
        rw [List.mapM_cons, hb, hbs]
        rfl
  simp only [traverse, StateT.run_bind, Success.bind_iff] at h
  obtain ⟨⟨es, s₁⟩, hes, hout⟩ := h
  cases hout
  obtain ⟨hall, rfl⟩ := hentries m.entries hes
  refine ⟨?_, rfl⟩
  rw [KeyMap.traverse, hall]
  rfl

end Loading

/-- Something that is checked, and its place below the places on the stack. -/
structure Checkpoint where
  trail : List Place
  sound : Prop

/-- Whether a loader succeeds exactly if all checkpoints are sound, and then leaves the stack as it was, and fails at the
first checkpoint that is not sound. -/
def Passes (x : Loading α) (s : List Place) (points : List Checkpoint) : Prop :=
  match x.run s with
  | .ok (_, s') => s' = s ∧ ∀ p ∈ points, p.sound
  | .error e => ∃ before p after, points = before ++ p :: after ∧ (∀ b ∈ before, b.sound) ∧ ¬ p.sound ∧
      ∃ fault, e = .load fault (s ++ p.trail)

section Passes

variable {x : Loading α} {s : List Place} {points points' : List Checkpoint}

theorem passes_pure (a : α) : Passes (pure a) s [] := ⟨rfl, fun _ hp => (List.not_mem_nil hp).elim⟩

theorem passes_one {y : Except LayoutError α} {trail : List Place} {sound : Prop}
    (hx : x.run s = (y >>= fun a => .ok (a, s))) (hok : (∃ a, y = .ok a) ↔ sound) (hfails : FailsAt (s ++ trail) y) :
    Passes x s [⟨trail, sound⟩] := by
  rw [Passes, hx]
  cases y with
  | ok a => exact ⟨rfl, List.forall_mem_singleton.2 (hok.1 ⟨a, rfl⟩)⟩
  | error e =>
      refine ⟨[], _, [], rfl, fun b hb => (List.not_mem_nil hb).elim, fun hsound => ?_, hfails e rfl⟩
      obtain ⟨a, ha⟩ := hok.2 hsound
      cases ha

theorem passes_here {y : Reporter RuleFault LayoutError → Except LayoutError α} {sound : Prop}
    (hok : (∃ a, y (Place.reporter s) = .ok a) ↔ sound) (hfails : FailsAt s (y (Place.reporter s))) :
    Passes (Loading.here y) s [⟨[], sound⟩] :=
  passes_one (Loading.run_here y s) hok (by rwa [List.append_nil])

theorem passes_within {place : Place} {y : Reporter RuleFault LayoutError → Except LayoutError α} {sound : Prop}
    (hok : (∃ a, y (Place.reporter (s ++ [place])) = .ok a) ↔ sound)
    (hfails : FailsAt (s ++ [place]) (y (Place.reporter (s ++ [place])))) :
    Passes (Loading.within place y) s [⟨[place], sound⟩] :=
  passes_one (Loading.run_within place y s) hok hfails

/-- What follows is checked once all that comes before it is sound, with the stack that was there before. -/
theorem Passes.bind {f : α → Loading β} (hx : Passes x s points)
    (hf : ∀ a, x.run s = .ok (a, s) → Passes (f a) s points') :
    Passes (x >>= f) s (points ++ points') := by
  rw [Passes] at hx
  rw [Passes, StateT.run_bind]
  cases hrun : x.run s with
  | error e =>
      rw [hrun] at hx
      obtain ⟨before, p, after, hpoints, hbefore, hp, hfault⟩ := hx
      exact ⟨before, p, after ++ points', by rw [hpoints, List.append_assoc, List.cons_append], hbefore, hp, hfault⟩
  | ok r =>
      rw [hrun] at hx
      obtain ⟨hstack, hsound⟩ := hx
      have hrest := hf r.1 (by rw [hrun, ← hstack])
      rw [Passes, ← hstack] at hrest
      change match (f r.1).run r.2 with
        | .ok (_, s') => s' = s ∧ ∀ p ∈ points ++ points', p.sound
        | .error e => _
      cases hnext : (f r.1).run r.2 with
      | ok b =>
          rw [hnext] at hrest
          exact ⟨hrest.1.trans hstack, List.forall_mem_append.2 ⟨hsound, hrest.2⟩⟩
      | error e =>
          rw [hnext] at hrest
          obtain ⟨before, p, after, hpoints, hbefore, hp, hfault⟩ := hrest
          exact ⟨points ++ before, p, after, by rw [hpoints, List.append_assoc],
            List.forall_mem_append.2 ⟨hsound, hbefore⟩, hp, hstack ▸ hfault⟩

/-- A last step that cannot fail checks nothing. -/
theorem Passes.map (hx : Passes x s points) (g : α → β) : Passes (x >>= fun a => pure (g a)) s points := by
  have hbind := hx.bind fun a _ => passes_pure (g a)
  rwa [List.append_nil] at hbind

theorem passes_mapM {f : α → Loading β} {point : α → Checkpoint} {l : List α}
    (hf : ∀ a ∈ l, Passes (f a) s [point a]) : Passes (l.mapM f) s (l.map point) := by
  induction l with
  | nil => exact passes_pure []
  | cons a rest ih =>
      rw [List.mapM_cons, List.map_cons, ← List.singleton_append]
      refine (hf a List.mem_cons_self).bind fun b _ => ?_
      exact (ih fun a' ha' => hf a' (List.mem_cons_of_mem a ha')).map fun bs => b :: bs

theorem passes_foldlM {f : γ → α → Loading γ} {point : α → Checkpoint} {l : List α}
    (hf : ∀ c, ∀ a ∈ l, Passes (f c a) s [point a]) (c : γ) : Passes (l.foldlM f c) s (l.map point) := by
  induction l generalizing c with
  | nil => exact passes_pure c
  | cons a rest ih =>
      rw [List.foldlM_cons, List.map_cons, ← List.singleton_append]
      exact (hf c a List.mem_cons_self).bind fun c' _ => ih (fun c a ha => hf c a (List.mem_cons_of_mem _ ha)) c'

open Std in
/-- The entries of a map are checked in the order of their keys, each at its place. -/
theorem passes_traverse [Ord κ] [TransOrd κ] [LawfulEqOrd κ] {place : κ → Place}
    {f : κ → α → Reporter RuleFault LayoutError → Except LayoutError β} {m : KeyMap κ α} {sound : κ × α → Prop}
    (hok : ∀ k v r, (∃ w, f k v r = .ok w) ↔ sound (k, v))
    (hfails : ∀ k v trail, FailsAt trail (f k v (Place.reporter trail))) :
    Passes (Loading.traverse place f m) s (m.entries.map fun e => ⟨[place e.1], sound e⟩) := by
  refine Passes.map (passes_mapM fun e _ => ?_) _
  exact (passes_within (hok e.1 e.2 _) (hfails e.1 e.2 _)).map fun w => (e.1, w)

theorem Passes.exists_ok_iff (hx : Passes x s points) : (∃ a, x.run' s = .ok a) ↔ ∀ p ∈ points, p.sound := by
  rw [Passes] at hx
  rw [StateT.run']
  cases hrun : x s with
  | ok r =>
      rw [StateT.run, hrun] at hx
      exact iff_of_true ⟨r.1, rfl⟩ hx.2
  | error e =>
      rw [StateT.run, hrun] at hx
      obtain ⟨before, p, after, rfl, -, hp, -⟩ := hx
      refine iff_of_false ?_ fun hall => hp (hall p (List.mem_append_right _ List.mem_cons_self))
      rintro ⟨a, ⟨⟩⟩

theorem Passes.of_error (hx : Passes x s points) {e : LayoutError} (he : x.run' s = .error e) :
    ∃ before p after, points = before ++ p :: after ∧ (∀ b ∈ before, b.sound) ∧ ¬ p.sound ∧
      ∃ fault, e = .load fault (s ++ p.trail) := by
  rw [Passes] at hx
  rw [StateT.run'] at he
  cases hrun : x s with
  | ok r =>
      rw [hrun] at he
      cases he
  | error e' =>
      rw [hrun] at he
      cases he
      rwa [StateT.run, hrun] at hx

end Passes

end MaskLayout
