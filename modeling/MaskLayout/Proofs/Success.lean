import MaskLayout.Reporter
import Mathlib.Data.List.Forall2

/-!
# Computations that succeed

Computations that can fail, taken apart when they succeed: each of their parts has succeeded too.
-/

namespace MaskLayout

namespace Success

variable {α β ε : Type}

theorem ok_bind (a : α) (f : α → Except ε β) : ((.ok a : Except ε α) >>= f) = f a := rfl

theorem error_bind (e : ε) (f : α → Except ε β) : ((.error e : Except ε α) >>= f) = .error e := rfl

theorem bind_iff {x : Except ε α} {f : α → Except ε β} {b : β} :
    (x >>= f) = .ok b ↔ ∃ a, x = .ok a ∧ f a = .ok b := by
  cases x with
  | error e => simp [bind, Except.bind]
  | ok a => simp [bind, Except.bind]

theorem bind_error_iff {x : Except ε α} {f : α → Except ε β} {e : ε} :
    (x >>= f) = .error e ↔ x = .error e ∨ ∃ a, x = .ok a ∧ f a = .error e := by
  cases x with
  | error e' => simp [bind, Except.bind]
  | ok a => simp [bind, Except.bind]

theorem map_iff {x : Except ε α} {f : α → β} {b : β} : f <$> x = .ok b ↔ ∃ a, x = .ok a ∧ f a = b := by
  cases x with
  | error e => simp [Functor.map, Except.map]
  | ok a => simp [Functor.map, Except.map]

@[simp] theorem pure_iff {a b : α} : (pure a : Except ε α) = .ok b ↔ a = b := by
  simp [pure, Except.pure]

theorem mapM_iff {f : α → Except ε β} {l : List α} {bs : List β} :
    l.mapM f = .ok bs ↔ List.Forall₂ (fun a b => f a = .ok b) l bs := by
  induction l generalizing bs with
  | nil =>
      rw [List.mapM_nil, pure_iff, List.forall₂_nil_left_iff]
      exact eq_comm
  | cons a rest ih =>
      rw [List.mapM_cons, List.forall₂_cons_left_iff]
      simp only [bind_iff, pure_iff, ih]
      constructor
      · rintro ⟨b, hb, bs', hbs', rfl⟩
        exact ⟨b, bs', hb, hbs', rfl⟩
      · rintro ⟨b, bs', hb, hbs', rfl⟩
        exact ⟨b, hb, bs', hbs', rfl⟩

theorem exists_mapM_iff {f : α → Except ε β} {l : List α} : (∃ bs, l.mapM f = .ok bs) ↔ ∀ a ∈ l, ∃ b, f a = .ok b := by
  simp only [mapM_iff]
  induction l with
  | nil => exact iff_of_true ⟨[], .nil⟩ fun _ h => (List.not_mem_nil h).elim
  | cons a rest ih =>
      rw [List.forall_mem_cons, ← ih]
      constructor
      · rintro ⟨_, h⟩
        obtain ⟨b, bs, hb, hbs, rfl⟩ := List.forall₂_cons_left_iff.1 h
        exact ⟨⟨b, hb⟩, bs, hbs⟩
      · rintro ⟨⟨b, hb⟩, bs, hbs⟩
        exact ⟨b :: bs, .cons hb hbs⟩

/-- Every result of a traversal that succeeds comes from some member of the list. -/
theorem exists_of_mem_mapM {f : α → Except ε β} {l : List α} {bs : List β} {b : β} (h : l.mapM f = .ok bs)
    (hb : b ∈ bs) : ∃ a ∈ l, f a = .ok b := by
  have hall := mapM_iff.1 h
  induction hall with
  | nil => exact (List.not_mem_nil hb).elim
  | @cons a b' rest bs' hab hrest ih =>
      rcases List.mem_cons.1 hb with rfl | hb
      · exact ⟨a, List.mem_cons_self, hab⟩
      · obtain ⟨a', ha', hfa'⟩ := ih (mapM_iff.2 hrest) hb
        exact ⟨a', List.mem_cons_of_mem _ ha', hfa'⟩

theorem forM_iff {f : α → Except ε Unit} {l : List α} {u : Unit} :
    l.forM f = .ok u ↔ ∀ a ∈ l, f a = .ok () := by
  induction l with
  | nil => exact ⟨fun _ _ h => (List.not_mem_nil h).elim, fun _ => rfl⟩
  | cons a rest ih =>
      change (f a >>= fun _ => rest.forM f) = .ok u ↔ _
      rw [bind_iff, List.forall_mem_cons, ih]
      constructor
      · rintro ⟨_, hhead, hrest⟩
        exact ⟨hhead, hrest⟩
      · rintro ⟨hhead, hrest⟩
        exact ⟨(), hhead, hrest⟩

end Success

namespace Reporter

variable {φ ε δ α : Type} {r : Reporter φ ε} {message : φ}

@[simp] theorem ensure_iff {condition : Bool} {u : Unit} :
    r.ensure condition message = .ok u ↔ condition = true := by
  cases condition <;> simp [ensure, fail]

@[simp] theorem require_iff {value : Option α} {a : α} : r.require value message = .ok a ↔ value = some a := by
  cases value <;> simp [require, fail]

@[simp] theorem instead_iff {result : Except δ α} {a : α} : r.instead result message = .ok a ↔ result = .ok a := by
  cases result <;> simp [instead, fail]

end Reporter

end MaskLayout
