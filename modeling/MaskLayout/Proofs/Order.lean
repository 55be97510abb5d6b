import MaskLayout.Order
import Mathlib.Data.List.Nodup
import Mathlib.Data.Set.Function
import Mathlib.Logic.Relation

/-!
# Dependency order on finite graphs

Dependency order on finite graphs. The pending items are those on the way to the item that is visited, so an item that is
pending already closes a cycle. The items in order always come after all that they depend on, so none of them lies on a
cycle.
-/

namespace MaskLayout

namespace DepGraph

variable {α κ : Type} {deps : α → List α}

/-- Whether an item leads to another one through dependencies, in any number of steps. -/
def LeadsTo (deps : α → List α) : α → α → Prop := Relation.ReflTransGen fun a b => b ∈ deps a

/-- Whether the dependencies of an item lead back to it. -/
def OnCycle (deps : α → List α) (a : α) : Prop := Relation.TransGen (fun a b => b ∈ deps a) a a

/-- Whether every item of a list comes after all that it depends on. -/
def Sorted (deps : α → List α) (l : List α) : Prop :=
  ∀ before a after, l = before ++ a :: after → ∀ b ∈ deps a, b ∈ before

/-- What a dependency order of some roots is: the items that they lead to, each one once and after all that it depends
on. -/
structure IsOrder (deps : α → List α) (roots order : List α) : Prop where
  mem_iff : ∀ a, a ∈ order ↔ Needed deps roots a
  nodup : order.Nodup
  sorted : Sorted deps order

section Sorted

variable {l : List α} {a b : α}

theorem Sorted.snoc (h : Sorted deps l) (ha : ∀ b ∈ deps a, b ∈ l) : Sorted deps (l ++ [a]) := by
  intro before c after hsplit
  rcases List.eq_nil_or_concat' after with rfl | ⟨after, d, rfl⟩
  · obtain ⟨rfl, hca⟩ := List.append_inj' hsplit rfl
    rw [List.singleton_inj] at hca
    exact hca ▸ ha
  · rw [← List.cons_append, ← List.append_assoc] at hsplit
    exact h before c after (List.append_inj' hsplit rfl).1

/-- What an item in order leads to in at least one step stands before it. -/
theorem Sorted.mem_before (h : Sorted deps l) {before after : List α} (hl : l = before ++ a :: after)
    (hab : Relation.TransGen (fun a b => b ∈ deps a) a b) : b ∈ before := by
  induction hab with
  | single hb => exact h before a after hl _ hb
  | @tail b c _ hc ih =>
      obtain ⟨first, rest, hbefore⟩ := List.append_of_mem ih
      have hsplit : l = first ++ b :: (rest ++ a :: after) := by
        rw [hl, hbefore, List.append_assoc, List.cons_append]
      rw [hbefore]
      exact List.mem_append_left _ (h first b _ hsplit c hc)

theorem Sorted.mem_of_leadsTo (h : Sorted deps l) (ha : a ∈ l) (hab : LeadsTo deps a b) : b ∈ l := by
  rcases Relation.reflTransGen_iff_eq_or_transGen.1 hab with rfl | hab
  · exact ha
  · obtain ⟨before, after, hl⟩ := List.append_of_mem ha
    rw [hl]
    exact List.mem_append_left _ (h.mem_before hl hab)

theorem Sorted.not_onCycle (h : Sorted deps l) (hnodup : l.Nodup) (ha : a ∈ l) : ¬ OnCycle deps a := by
  intro hcycle
  obtain ⟨before, after, hl⟩ := List.append_of_mem ha
  rw [hl, List.nodup_append] at hnodup
  exact hnodup.2.2 a (h.mem_before hl hcycle) a List.mem_cons_self rfl

end Sorted

/-- The items that are needed are those that a root leads to. -/
theorem needed_iff {roots : List α} {a : α} : Needed deps roots a ↔ ∃ r ∈ roots, LeadsTo deps r a := by
  constructor
  · intro h
    induction h with
    | @root a h => exact ⟨a, h, .refl⟩
    | dep _ hb ih =>
        obtain ⟨r, hr, hra⟩ := ih
        exact ⟨r, hr, hra.tail hb⟩
  · rintro ⟨r, hr, hra⟩
    induction hra with
    | refl => exact .root hr
    | tail _ hb ih => exact ih.dep hb

theorem needed_singleton {a b : α} : Needed deps [a] b ↔ LeadsTo deps a b := by
  simp [needed_iff]

theorem needed_cons {a b : α} {items : List α} :
    Needed deps (a :: items) b ↔ Needed deps [a] b ∨ Needed deps items b := by
  simp [needed_iff]

/-- What holds of the items in order and of the pending ones while a graph is searched. -/
structure Sound (g : DepGraph α κ) (s : OrderState α) : Prop where
  done_needed : ∀ a ∈ s.done, Needed g.deps g.roots a
  pending_needed : ∀ a ∈ s.pending, Needed g.deps g.roots a
  nodup : s.done.Nodup
  sorted : Sorted g.deps s.done
  apart : ∀ a ∈ s.pending, a ∉ s.done

/-- How the search for some items ends: with these and what they lead to in order besides what was so before, or with an
item on a cycle to which they lead. -/
inductive Answers (g : DepGraph α κ) (s : OrderState α) (items : List α) {pending : List α} :
    Except α {s' : OrderState α // s'.pending = pending} → Prop
  | order {s' : {s' : OrderState α // s'.pending = pending}} (sound : Sound g s'.1)
      (kept : ∀ a ∈ s.done, a ∈ s'.1.done) (all : ∀ a ∈ items, a ∈ s'.1.done)
      (only : ∀ a ∈ s'.1.done, a ∈ s.done ∨ Needed g.deps items a) : Answers g s items (.ok s')
  | cycle {x : α} (leads : Needed g.deps items x) (closes : OnCycle g.deps x) : Answers g s items (.error x)

section Search

variable {g : DepGraph α κ} {s : OrderState α} {pending : List α}

/-- An item becomes pending before its dependencies are visited. -/
theorem Sound.open (hs : Sound g s) (a : g.Item) (hdone : a.1 ∉ s.done) :
    Sound g { s with pending := a.1 :: s.pending } where
  done_needed := hs.done_needed
  pending_needed := List.forall_mem_cons.2 ⟨a.2, hs.pending_needed⟩
  nodup := hs.nodup
  sorted := hs.sorted
  apart := List.forall_mem_cons.2 ⟨hdone, hs.apart⟩

/-- An item whose dependencies are all in order comes next, and is pending no more. -/
theorem Sound.close {s' : OrderState α} {a : α} (hs : Sound g s') (hpending : s'.pending = a :: s.pending)
    (ha : a ∉ s.pending) (hdeps : ∀ b ∈ g.deps a, b ∈ s'.done) : Sound g ⟨s'.done ++ [a], s.pending⟩ where
  done_needed := by
    refine List.forall_mem_append.2 ⟨hs.done_needed, List.forall_mem_singleton.2 ?_⟩
    exact hs.pending_needed a (hpending ▸ List.mem_cons_self)
  pending_needed b hb := hs.pending_needed b (hpending ▸ List.mem_cons_of_mem a hb)
  nodup := by
    have hnew : a ∉ s'.done := hs.apart a (hpending ▸ List.mem_cons_self)
    exact List.nodup_append.2 ⟨hs.nodup, List.nodup_singleton a, by
      intro b hb c hc
      rw [List.mem_singleton.1 hc]
      exact fun h => hnew (h ▸ hb)⟩
  sorted := hs.sorted.snoc hdeps
  apart b hb := by
    rw [List.mem_append, List.mem_singleton]
    rintro (hdone | rfl)
    · exact hs.apart b (hpending ▸ List.mem_cons_of_mem a hb) hdone
    · exact ha hb

theorem map_next (a : g.Item) : (g.next a).map Subtype.val = g.deps a.1 := by
  rw [next, List.map_pmap]
  exact List.pmap_eq_self.2 fun _ _ => rfl

variable [DecidableEq κ]

/-- The items that a search has to do with: those that are in order, pending, or still to be visited. -/
theorem among_iff (hkey : Set.InjOn g.key {a | Needed g.deps g.roots a}) {l : List α}
    (hl : ∀ b ∈ l, Needed g.deps g.roots b) (a : g.Item) : g.among l a.1 = true ↔ a.1 ∈ l := by
  simp only [among, List.any_eq_true, decide_eq_true_eq]
  constructor
  · rintro ⟨b, hb, heq⟩
    exact hkey (hl b hb) a.2 heq ▸ hb
  · intro hmem
    exact ⟨a.1, hmem, rfl⟩

/-- Items that are searched for in turn are searched for as a whole. -/
theorem answers_foldlM (items : List g.Item) {t : {t : OrderState α // t.pending = pending}} (ht : Sound g t.1)
    (hstep : ∀ a ∈ items, ∀ t' : {t : OrderState α // t.pending = pending}, Sound g t'.1 →
      Answers g t'.1 [a.1] (g.visit t'.1 a)) :
    Answers g t.1 (items.map Subtype.val) (items.foldlM (g.visitWith pending) t) := by
  induction items generalizing t with
  | nil =>
      refine .order ht (fun _ h => h) (fun _ h => ?_) fun _ h => .inl h
      exact (List.not_mem_nil h).elim
  | cons a items ih =>
      have hans := hstep a List.mem_cons_self t ht
      rw [List.foldlM_cons, visitWith]
      generalize g.visit t.1 a = r at hans
      cases hans with
      | cycle leads closes => exact .cycle (needed_cons.2 (.inl leads)) closes
      | @order u sound kept all only =>
          have hrest := ih (t := ⟨u.1, u.2.trans t.2⟩) sound fun b hb => hstep b (List.mem_cons_of_mem _ hb)
          change Answers g t.1 _ (items.foldlM (g.visitWith pending) ⟨u.1, u.2.trans t.2⟩)
          generalize items.foldlM (g.visitWith pending) ⟨u.1, u.2.trans t.2⟩ = r at hrest
          cases hrest with
          | cycle leads closes => exact .cycle (needed_cons.2 (.inr leads)) closes
          | @order v sound' kept' all' only' =>
              refine .order sound' (fun b hb => kept' b (kept b hb)) ?_ ?_
              · exact List.forall_mem_cons.2 ⟨kept' a.1 (all a.1 List.mem_cons_self), all'⟩
              · intro b hb
                rcases only' b hb with hb | hb
                · exact (only b hb).imp_right fun h => needed_cons.2 (.inl h)
                · exact .inr (needed_cons.2 (.inr hb))

/-- A visit ends as it should, if every pending item leads to the item that is visited. -/
theorem answers_visit (hkey : Set.InjOn g.key {a | Needed g.deps g.roots a}) (s : OrderState α) (a : g.Item)
    (hs : Sound g s) (hchain : ∀ p ∈ s.pending, Relation.TransGen (fun a b => b ∈ g.deps a) p a.1) :
    Answers g s [a.1] (g.visit s a) := by
  induction s, a using visit.induct g with
  | case1 s a hdone =>
      have hmem := (among_iff hkey hs.done_needed a).1 hdone
      rw [visit, if_pos hdone]
      exact .order hs (fun _ h => h) (List.forall_mem_singleton.2 hmem) fun _ h => .inl h
  | case2 s a hdone hpending =>
      have hmem := (among_iff hkey hs.pending_needed a).1 hpending
      rw [visit, if_neg hdone, dif_pos hpending]
      exact .cycle (needed_singleton.2 .refl) (hchain a.1 hmem)
  | case3 s a hdone hpending ih =>
      have hnotdone := mt (among_iff hkey hs.done_needed a).2 hdone
      have hfree := mt (among_iff hkey hs.pending_needed a).2 hpending
      have hdeps : Answers g ⟨s.done, a.1 :: s.pending⟩ (g.deps a.1)
          ((g.next a).foldlM (g.visitWith (a.1 :: s.pending)) ⟨⟨s.done, a.1 :: s.pending⟩, rfl⟩) := by
        rw [← map_next a]
        refine answers_foldlM (t := ⟨⟨s.done, a.1 :: s.pending⟩, rfl⟩) (g.next a) (hs.open a hnotdone)
          fun b hb t ht => ih t b ht ?_
        have hb : b.1 ∈ g.deps a.1 := map_next a ▸ List.mem_map_of_mem hb
        rw [t.2]
        exact List.forall_mem_cons.2 ⟨.single hb, fun p hp => (hchain p hp).tail hb⟩
      have hbelow {x : α} (hx : Needed g.deps (g.deps a.1) x) : Needed g.deps [a.1] x := by
        obtain ⟨b, hb, hbx⟩ := needed_iff.1 hx
        exact needed_singleton.2 (.head hb hbx)
      rw [visit, if_neg hdone, dif_neg hpending]
      change Answers g s [a.1] ((g.next a).foldlM (g.visitWith (a.1 :: s.pending)) ⟨⟨s.done, a.1 :: s.pending⟩, rfl⟩ >>= _)
      generalize (g.next a).foldlM (g.visitWith (a.1 :: s.pending)) ⟨⟨s.done, a.1 :: s.pending⟩, rfl⟩ = r at hdeps
      cases hdeps with
      | cycle leads closes => exact .cycle (hbelow leads) closes
      | @order t sound kept all only =>
          have hrest : (t.1.pending.filter fun b => decide (g.key b ≠ g.key a.1)) = s.pending := by
            rw [t.2, g.filter_pending hpending]
          refine .order ?_ ?_ ?_ ?_
          · change Sound g ⟨t.1.done ++ [a.1], _⟩
            rw [hrest]
            exact sound.close t.2 hfree all
          · exact fun b hb => List.mem_append_left _ (kept b hb)
          · exact List.forall_mem_singleton.2 (List.mem_append_right _ List.mem_cons_self)
          · refine List.forall_mem_append.2 ⟨fun b hb => (only b hb).imp_right hbelow, ?_⟩
            exact List.forall_mem_singleton.2 (.inr (needed_singleton.2 .refl))

/-- The search ends with the dependency order of the roots, or with an item on a cycle. -/
theorem order_cases (hkey : Set.InjOn g.key {a | Needed g.deps g.roots a}) :
    (∃ l, g.order = .ok l ∧ IsOrder g.deps g.roots l) ∨
      ∃ x, g.order = .error x ∧ Needed g.deps g.roots x ∧ OnCycle g.deps x := by
  have hstart : Sound g ⟨[], []⟩ :=
    ⟨by simp, by simp, List.nodup_nil, fun before a after h => by simp at h, by simp⟩
  have hroots : (g.roots.pmap Subtype.mk fun _ h => .root h : List g.Item).map Subtype.val = g.roots := by
    rw [List.map_pmap]
    exact List.pmap_eq_self.2 fun _ _ => rfl
  have hans := answers_foldlM (t := (⟨⟨[], []⟩, rfl⟩ : {t : OrderState α // t.pending = []}))
    (g.roots.pmap Subtype.mk fun _ h => .root h : List g.Item) hstart fun a _ t ht => by
      refine answers_visit hkey t.1 a ht fun p hp => ?_
      rw [t.2] at hp
      exact (List.not_mem_nil hp).elim
  rw [hroots] at hans
  rw [order]
  generalize List.foldlM (g.visitWith []) _ _ = r at hans
  cases hans with
  | cycle leads closes => exact .inr ⟨_, rfl, leads, closes⟩
  | @order t sound kept all only =>
      refine .inl ⟨_, rfl, fun a => ⟨fun ha => ?_, fun ha => ?_⟩, sound.nodup, sound.sorted⟩
      · exact (only a ha).resolve_left List.not_mem_nil
      · obtain ⟨r, hr, hra⟩ := needed_iff.1 ha
        exact sound.sorted.mem_of_leadsTo (all r hr) hra

/-- No item of a dependency order lies on a cycle. -/
theorem IsOrder.not_onCycle {roots l : List α} (h : IsOrder deps roots l) {a : α} (ha : Needed deps roots a) :
    ¬ OnCycle deps a := h.sorted.not_onCycle h.nodup ((h.mem_iff a).2 ha)

end Search

end DepGraph

end MaskLayout
