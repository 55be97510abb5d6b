import MaskLayout.KeyMap
import MaskLayout.Proofs.Success

/-!
# What maps hold

What maps hold after each operation. Every key has at most one entry, a change of one key leaves the others alone,
and a traversal that succeeds has succeeded at every key.
-/

namespace MaskLayout

namespace KeyMap

open Std

variable {κ α β ε : Type} [Ord κ]

@[simp] theorem get?_empty (k : κ) : (empty : KeyMap κ α).get? k = none := rfl

private theorem mem_insertEntry_self (k : κ) (v : α) (l : List (κ × α)) : (k, v) ∈ insertEntry k v l := by
  induction l with
  | nil => simp [insertEntry]
  | cons e rest ih =>
      unfold insertEntry
      split
      · exact List.mem_cons_self
      · exact List.mem_cons_self
      · exact List.mem_cons_of_mem _ ih

private theorem insertEntry_last [TransOrd κ] {k : κ} {v : α} {l : List (κ × α)} (h : ∀ e ∈ l, compare e.1 k = .lt) :
    insertEntry k v l = l ++ [(k, v)] := by
  induction l with
  | nil => rfl
  | cons e rest ih =>
      have hgt : compare k e.1 = .gt := OrientedCmp.gt_iff_lt.2 (h e List.mem_cons_self)
      simp only [insertEntry, hgt, List.cons_append, List.cons.injEq, true_and]
      exact ih fun d hd => h d (List.mem_cons_of_mem _ hd)

variable [LawfulEqOrd κ]

theorem get?_eq_some_iff {m : KeyMap κ α} {k : κ} {v : α} :
    m.get? k = some v ↔ (k, v) ∈ m.entries := by
  obtain ⟨l, hl⟩ := m
  simp only [get?]
  induction l with
  | nil => simp
  | cons e rest ih =>
      obtain ⟨hhead, htail⟩ := List.pairwise_cons.1 hl
      rw [List.find?_cons]
      by_cases heq : compare e.1 k = .eq
      · have hk : e.1 = k := LawfulEqCmp.eq_of_compare heq
        have hnot : (k, v) ∉ rest := by
          intro hmem
          have hlt : compare e.1 k = .lt := hhead _ hmem
          rw [heq] at hlt
          cases hlt
        simp only [heq, beq_self_eq_true, Option.map_some, Option.some.injEq, List.mem_cons, hnot, or_false]
        rw [Prod.ext_iff]
        simp only [hk, true_and]
        exact eq_comm
      · have hne : (k, v) ≠ e := by
          rintro rfl
          exact heq ReflCmp.compare_self
        rw [beq_eq_false_iff_ne.2 heq, List.mem_cons]
        simpa [hne] using ih htail

theorem mem_keys_iff {m : KeyMap κ α} {k : κ} : k ∈ m.keys ↔ ∃ v, m.get? k = some v := by
  simp only [keys, List.mem_map, get?_eq_some_iff]
  constructor
  · rintro ⟨e, he, rfl⟩
    exact ⟨e.2, he⟩
  · rintro ⟨v, hv⟩
    exact ⟨(k, v), hv, rfl⟩

theorem forall_mem_values_iff {m : KeyMap κ α} {p : α → Prop} :
    (∀ v ∈ m.values, p v) ↔ ∀ k v, m.get? k = some v → p v := by
  simp only [values, List.forall_mem_map, get?_eq_some_iff, Prod.forall]

theorem nodup_keys (m : KeyMap κ α) : m.keys.Nodup := by
  rw [keys, List.nodup_iff_pairwise_ne, List.pairwise_map]
  refine m.ascending.imp fun {a b} hlt heq => ?_
  have hself : compare b.1 b.1 = .eq := ReflCmp.compare_self
  rw [heq, hself] at hlt
  cases hlt

theorem pairwise_keys (m : KeyMap Int α) : m.keys.Pairwise (· < ·) := by
  rw [keys, List.pairwise_map]
  exact m.ascending.imp fun h => Int.compare_eq_lt.1 h

private theorem mem_insertEntry_of_ne {k : κ} {v : α} {l : List (κ × α)} {e : κ × α} (hne : e.1 ≠ k) :
    e ∈ insertEntry k v l ↔ e ∈ l := by
  have hkv : e ≠ (k, v) := fun h => hne (by rw [h])
  constructor
  · intro h
    exact (mem_insertEntry h).resolve_left hkv
  · intro h
    induction l with
    | nil => cases h
    | cons d rest ih =>
        unfold insertEntry
        split
        · exact List.mem_cons_of_mem _ h
        · rename_i heq
          have hd : e ≠ d := by
            rintro rfl
            exact hne (LawfulEqCmp.eq_of_compare heq).symm
          exact List.mem_cons_of_mem _ ((List.mem_cons.1 h).resolve_left hd)
        · rcases List.mem_cons.1 h with rfl | h
          · exact List.mem_cons_self
          · exact List.mem_cons_of_mem _ (ih h)

variable [TransOrd κ]

/-- An ascending list with an entry for a key holds this entry, and those of all other keys. -/
theorem mem_insertEntry_iff {k j : κ} {v w : α} {l : List (κ × α)} (h : l.Pairwise fun a b => compare a.1 b.1 = .lt) :
    (j, w) ∈ insertEntry k v l ↔ j = k ∧ w = v ∨ j ≠ k ∧ (j, w) ∈ l := by
  by_cases hj : j = k
  · subst hj
    have hsome := get?_eq_some_iff (m := insert ⟨l, h⟩ j v) (k := j) (v := w)
    rw [get?_eq_some_iff.2 (mem_insertEntry_self j v l), Option.some.injEq] at hsome
    change (j, w) ∈ (insert ⟨l, h⟩ j v).entries ↔ _
    rw [← hsome]
    simp [eq_comm]
  · rw [mem_insertEntry_of_ne hj]
    simp [hj]

@[simp] theorem get?_insert_self (m : KeyMap κ α) (k : κ) (v : α) : (m.insert k v).get? k = some v :=
  get?_eq_some_iff.2 (mem_insertEntry_self k v m.entries)

theorem get?_insert_of_ne {m : KeyMap κ α} {k j : κ} {v : α} (h : j ≠ k) :
    (m.insert k v).get? j = m.get? j := by
  ext w
  rw [get?_eq_some_iff, get?_eq_some_iff]
  exact mem_insertEntry_of_ne h

/-- Lists that get one more member at one key hold it there, and hold what they held before. -/
theorem mem_getD_insert_append {m : KeyMap κ (List α)} {k j : κ} {a b : α} :
    b ∈ ((m.insert k ((m.get? k).getD [] ++ [a])).get? j).getD [] ↔ b ∈ (m.get? j).getD [] ∨ j = k ∧ b = a := by
  by_cases hj : j = k
  · subst hj
    simp
  · rw [get?_insert_of_ne hj]
    simp [hj]

/-- Entries that ascend already are all kept, in their order. -/
theorem entries_ofList {l : List (κ × α)} (h : l.Pairwise fun a b => compare a.1 b.1 = .lt) :
    (ofList l).entries = l := by
  suffices haux : ∀ (m : KeyMap κ α), (∀ a ∈ m.entries, ∀ b ∈ l, compare a.1 b.1 = .lt) →
      (l.foldl (fun m e => m.insert e.1 e.2) m).entries = m.entries ++ l by
    exact haux empty (by simp [empty])
  induction l with
  | nil => simp
  | cons e rest ih =>
      intro m hm
      obtain ⟨hhead, htail⟩ := List.pairwise_cons.1 h
      have hstep : (m.insert e.1 e.2).entries = m.entries ++ [e] :=
        insertEntry_last fun a ha => hm a ha e List.mem_cons_self
      rw [List.foldl_cons, ih htail, hstep, List.append_assoc, List.singleton_append]
      intro a ha b hb
      rw [hstep, List.mem_append, List.mem_singleton] at ha
      rcases ha with ha | rfl
      · exact hm a ha b (List.mem_cons_of_mem _ hb)
      · exact hhead b hb

/-- A traversal that succeeds keeps the entries in order, each with its key and with the function's value. -/
theorem entries_traverse {f : κ → α → Except ε β} {m : KeyMap κ α} {m' : KeyMap κ β} (h : m.traverse f = .ok m') :
    List.Forall₂ (fun a b => b.1 = a.1 ∧ f a.1 a.2 = .ok b.2) m.entries m'.entries := by
  obtain ⟨es, hes, hm'⟩ := Success.bind_iff.1 h
  rw [Success.pure_iff] at hm'
  have hall : List.Forall₂ (fun a b => b.1 = a.1 ∧ f a.1 a.2 = .ok b.2) m.entries es := by
    refine (Success.mapM_iff.1 hes).imp fun a b hab => ?_
    obtain ⟨w, hw, hb⟩ := Success.bind_iff.1 hab
    rw [Success.pure_iff] at hb
    subst hb
    exact ⟨rfl, hw⟩
  have hkeys : m.entries.map Prod.fst = es.map Prod.fst := by
    rw [← List.forall₂_eq_eq_eq, List.forall₂_map_left_iff, List.forall₂_map_right_iff]
    exact hall.imp fun a b hab => hab.1.symm
  have hasc : es.Pairwise fun a b => compare a.1 b.1 = .lt := by
    rw [← List.pairwise_map (f := Prod.fst) (R := fun i j => compare i j = .lt), ← hkeys, List.pairwise_map]
    exact m.ascending
  rw [← hm', entries_ofList hasc]
  exact hall

/-- The value of a traversal at each key is the function's. -/
theorem rel_get?_traverse {f : κ → α → Except ε β} {m : KeyMap κ α} {m' : KeyMap κ β}
    (h : m.traverse f = .ok m') (k : κ) :
    Option.Rel (fun v w => f k v = .ok w) (m.get? k) (m'.get? k) := by
  have hall := entries_traverse h
  rw [get?, get?]
  generalize m.entries = l at hall ⊢
  generalize m'.entries = l' at hall ⊢
  induction hall with
  | nil => exact .none
  | @cons a b _ _ hab _ ih =>
      rw [List.find?_cons, List.find?_cons, hab.1]
      split
      · rename_i heq
        have hk : a.1 = k := LawfulEqCmp.eq_of_compare (beq_iff_eq.1 heq)
        subst hk
        exact .some hab.2
      · exact ih

theorem get?_of_traverse {f : κ → α → Except ε β} {m : KeyMap κ α} {m' : KeyMap κ β}
    (h : m.traverse f = .ok m') {k : κ} {w : β} (hw : m'.get? k = some w) :
    ∃ v, m.get? k = some v ∧ f k v = .ok w := by
  have hk := rel_get?_traverse h k
  rw [hw] at hk
  cases hv : m.get? k with
  | none =>
      rw [hv] at hk
      cases hk
  | some v =>
      rw [hv] at hk
      cases hk with
      | some hf => exact ⟨v, rfl, hf⟩

theorem contains_traverse {f : κ → α → Except ε β} {m : KeyMap κ α} {m' : KeyMap κ β}
    (h : m.traverse f = .ok m') (k : κ) : m'.contains k = m.contains k := by
  have hk := rel_get?_traverse h k
  unfold contains
  generalize m.get? k = v at hk ⊢
  generalize m'.get? k = w at hk ⊢
  cases hk <;> rfl

end KeyMap

end MaskLayout
