import MaskLayout.Cell.Edit
import MaskLayout.Proofs.KeyMap
import MaskLayout.Proofs.Tech.Names
import Mathlib.Data.List.Nodup
import Mathlib.Data.List.Perm.Subperm

/-!
# Instance names

Every instance of a cell stands under its own name, the names ascend, and an automatic name is one that no instance has.
-/

namespace MaskLayout

open Std

section Library

variable [PolygonLibrary]

namespace CellOf

variable {M : Type}

/-- Whether instances stand under their own names, in the order of these, no name twice. -/
structure Named (entries : List (String × InstanceOf M)) : Prop where
  ascending : entries.Pairwise fun d e => compare d.1 e.1 = .lt
  own : ∀ e ∈ entries, e.1 = e.2.name

omit [PolygonLibrary] in
theorem named_nil : Named ([] : List (String × InstanceOf M)) := ⟨.nil, List.forall_mem_nil _⟩

variable {c : CellOf M} {i j : InstanceOf M} {name : String}

theorem mem_instances_of_mem {e : String × InstanceOf M} (he : e ∈ c.instanceMap) : e.2 ∈ c.instances :=
  List.mem_map_of_mem he

theorem Named.mem_instances_iff (h : Named c.instanceMap) : i ∈ c.instances ↔ (i.name, i) ∈ c.instanceMap := by
  constructor
  · intro hi
    obtain ⟨e, he, rfl⟩ := List.mem_map.1 hi
    exact h.own e he ▸ he
  · exact mem_instances_of_mem

theorem Named.keys_eq (h : Named c.instanceMap) : c.instanceMap.map (·.1) = c.instances.map (·.name) := by
  rw [instances, List.map_map]
  exact List.map_congr_left h.own

theorem Named.eq_of_name (h : Named c.instanceMap) (hi : i ∈ c.instances) (hj : j ∈ c.instances)
    (hname : i.name = j.name) : i = j := by
  have hmap : KeyMap.get? ⟨c.instanceMap, h.ascending⟩ i.name = some i :=
    KeyMap.get?_eq_some_iff.2 (h.mem_instances_iff.1 hi)
  have hmap' : KeyMap.get? ⟨c.instanceMap, h.ascending⟩ j.name = some j :=
    KeyMap.get?_eq_some_iff.2 (h.mem_instances_iff.1 hj)
  rw [hname, hmap', Option.some.injEq] at hmap
  exact hmap.symm

theorem Named.withInstance (h : Named c.instanceMap) (hname : i.name = name) :
    Named (c.withInstance name i).instanceMap where
  ascending := KeyMap.ascending_insertEntry h.ascending
  own e he := by
    rcases KeyMap.mem_insertEntry he with rfl | he
    · exact hname.symm
    · exact h.own e he

theorem Named.mem_withInstance (h : Named c.instanceMap) (hname : i.name = name) :
    j ∈ (c.withInstance name i).instances ↔ j = i ∨ j ∈ c.instances ∧ j.name ≠ name := by
  subst hname
  rw [(h.withInstance rfl).mem_instances_iff, h.mem_instances_iff, and_comm (b := j.name ≠ i.name)]
  refine (KeyMap.mem_insertEntry_iff h.ascending).trans (or_congr_left (and_iff_right_of_imp ?_))
  rintro rfl
  rfl

theorem Named.withoutInstance (h : Named c.instanceMap) (name : String) : Named (c.withoutInstance name).instanceMap :=
  ⟨h.ascending.filter _, fun e he => h.own e (List.mem_of_mem_filter he)⟩

theorem Named.mem_withoutInstance (h : Named c.instanceMap) :
    j ∈ (c.withoutInstance name).instances ↔ j ∈ c.instances ∧ j.name ≠ name := by
  rw [(h.withoutInstance name).mem_instances_iff, h.mem_instances_iff]
  simp [CellOf.withoutInstance]

theorem instance?_eq_none_iff : c.instance? name = none ↔ ∀ e ∈ c.instanceMap, e.1 ≠ name := by
  simp [instance?]

theorem Named.instance?_eq_some_iff (h : Named c.instanceMap) :
    c.instance? name = some i ↔ i ∈ c.instances ∧ i.name = name := by
  constructor
  · intro hi
    obtain ⟨e, he, rfl⟩ := Option.map_eq_some_iff.1 hi
    have hmem := List.mem_of_find?_eq_some he
    exact ⟨mem_instances_of_mem hmem, (h.own e hmem).symm.trans (by simpa using List.find?_some he)⟩
  · rintro ⟨hi, rfl⟩
    cases hfind : c.instance? i.name with
    | none => exact absurd rfl (instance?_eq_none_iff.1 hfind _ (h.mem_instances_iff.1 hi))
    | some j =>
        obtain ⟨e, he, rfl⟩ := Option.map_eq_some_iff.1 hfind
        have hmem := List.mem_of_find?_eq_some he
        have hname : e.2.name = i.name := (h.own e hmem).symm.trans (by simpa using List.find?_some he)
        rw [h.eq_of_name (mem_instances_of_mem hmem) hi hname]

theorem Named.name_ne_of_instance? (h : Named c.instanceMap) (hnone : c.instance? name = none) :
    ∀ i ∈ c.instances, i.name ≠ name := by
  intro i hi hname
  rw [h.instance?_eq_some_iff.2 ⟨hi, hname⟩] at hnone
  cases hnone

theorem Named.mem_of_theInstance (h : Named c.instanceMap) (hi : c.theInstance name = .ok i) :
    i ∈ c.instances ∧ i.name = name :=
  h.instance?_eq_some_iff.1 (Tech.found_iff.1 hi)

end CellOf

end Library

namespace Edit

theorem autoName_injective {m n : Nat} (h : s!"X{m}" = s!"X{n}") : m = n := by
  have hrepr : m.repr = n.repr := (String.append_right_inj "X").1 h
  rw [← Nat.ofDigitChars_ten_toDigits (n := m), ← Nat.ofDigitChars_ten_toDigits (n := n), ← Nat.toList_repr,
    ← Nat.toList_repr, hrepr]

theorem freshIndex_spec (names : List String) (fuel k : Nat) :
    ∃ n ≤ fuel, freshIndex names fuel k = k + n ∧ (∀ m < n, s!"X{k + m}" ∈ names) ∧
      (n < fuel → s!"X{k + n}" ∉ names) := by
  induction fuel generalizing k with
  | zero => exact ⟨0, Nat.le_refl 0, rfl, by simp, by simp⟩
  | succ fuel ih =>
      unfold freshIndex
      split
      · rename_i hmem
        obtain ⟨n, hn, heq, hbefore, hafter⟩ := ih (k + 1)
        refine ⟨n + 1, by omega, by omega, fun m hm => ?_, fun hlt => ?_⟩
        · cases m with
          | zero => simpa using hmem
          | succ m => simpa only [Nat.add_assoc, Nat.add_comm 1] using hbefore m (by omega)
        · simpa only [Nat.add_assoc, Nat.add_comm 1] using hafter (by omega)
      · rename_i hnot
        exact ⟨0, by omega, rfl, by simp, fun _ => by simpa using hnot⟩

/-- As many tries as there are names are enough to find a free one. -/
theorem freshIndex_not_mem (names : List String) (k : Nat) :
    s!"X{freshIndex names names.length k}" ∉ names := by
  obtain ⟨n, hn, heq, hbefore, hafter⟩ := freshIndex_spec names names.length k
  rw [heq]
  by_cases hlt : n < names.length
  · exact hafter hlt
  · intro hmem
    have hnodup : ((List.range (n + 1)).map fun m => s!"X{k + m}").Nodup :=
      List.Nodup.map (fun a b hab => Nat.add_left_cancel (autoName_injective hab)) List.nodup_range
    have hsubset : ((List.range (n + 1)).map fun m => s!"X{k + m}") ⊆ names := by
      intro x hx
      obtain ⟨m, hm, rfl⟩ := List.mem_map.1 hx
      rw [List.mem_range, Nat.lt_succ_iff_lt_or_eq] at hm
      rcases hm with hm | rfl
      · exact hbefore m hm
      · exact hmem
    have hlength := (List.subperm_of_subset hnodup hsubset).length_le
    rw [List.length_map, List.length_range] at hlength
    omega

end Edit

end MaskLayout
