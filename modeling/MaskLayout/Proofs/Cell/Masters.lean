import MaskLayout.Proofs.Cell.Flatten
import MaskLayout.Proofs.Order

/-!
# Masters in dependency order

The masters of a cell in dependency order. Masters are frozen one after another, and a cell binds only masters that were
frozen before it is frozen itself; so no hierarchy leads back to itself, and its masters always have an order.
-/

namespace MaskLayout

section Library

variable [PolygonLibrary]

/-- Masters in the order in which they were frozen. Each has the next serial number, and the cell that was frozen binds
only masters that were there. -/
inductive Frozen : List Master → Prop
  | nil : Frozen []
  | freeze {ms : List Master} {c : Cell} (h : Frozen ms) (hc : ∀ m ∈ c.boundMasters, m ∈ ms) :
      Frozen (ms ++ [.mk ms.length c])

namespace Frozen

variable {ms : List Master} {m n : Master}

theorem serial_lt (h : Frozen ms) (hm : m ∈ ms) : m.serial < ms.length := by
  induction h with
  | nil => cases hm
  | @freeze ms c h hc ih =>
      rw [List.length_append, List.length_singleton]
      rcases List.mem_append.1 hm with hm | hm
      · exact Nat.lt_succ_of_lt (ih hm)
      · rw [List.mem_singleton.1 hm]
        exact Nat.lt_succ_self _

/-- The serial number of a master tells it from all others. -/
theorem eq_of_serial (h : Frozen ms) (hm : m ∈ ms) (hn : n ∈ ms) (heq : m.serial = n.serial) : m = n := by
  induction h with
  | nil => cases hm
  | @freeze ms c h hc ih =>
      rcases List.mem_append.1 hm with hm | hm <;> rcases List.mem_append.1 hn with hn | hn
      · exact ih hm hn
      · rw [List.mem_singleton.1 hn] at heq
        exact absurd (h.serial_lt hm) (by rw [heq]; exact Nat.lt_irrefl _)
      · rw [List.mem_singleton.1 hm] at heq
        exact absurd (h.serial_lt hn) (by rw [← heq]; exact Nat.lt_irrefl _)
      · rw [List.mem_singleton.1 hm, List.mem_singleton.1 hn]

/-- A master binds only masters that were frozen before. -/
theorem mem_of_bound (h : Frozen ms) (hm : m ∈ ms) (hn : n ∈ m.cell.boundMasters) : n ∈ ms ∧ n.serial < m.serial := by
  induction h with
  | nil => cases hm
  | @freeze ms c h hc ih =>
      rcases List.mem_append.1 hm with hm | hm
      · exact ⟨List.mem_append_left _ (ih hm).1, (ih hm).2⟩
      · obtain rfl := List.mem_singleton.1 hm
        exact ⟨List.mem_append_left _ (hc n hn), h.serial_lt (hc n hn)⟩

theorem mem_of_leadsTo (h : Frozen ms) (hm : m ∈ ms) (hmn : DepGraph.LeadsTo (fun m => m.cell.boundMasters) m n) :
    n ∈ ms := by
  induction hmn with
  | refl => exact hm
  | tail _ hn ih => exact (h.mem_of_bound ih hn).1

theorem serial_lt_of_transGen (h : Frozen ms) (hm : m ∈ ms)
    (hmn : Relation.TransGen (fun m n => n ∈ m.cell.boundMasters) m n) : n.serial < m.serial := by
  induction hmn with
  | single hn => exact (h.mem_of_bound hm hn).2
  | @tail n k hmn hk ih => exact (h.mem_of_bound (h.mem_of_leadsTo hm hmn.to_reflTransGen) hk).2.trans ih

end Frozen

namespace CellOf

variable {ms : List Master} {c : Cell}

/-- A cell of frozen masters has all of them in dependency order. -/
theorem exists_masters (h : Frozen ms) (hc : ∀ m ∈ c.boundMasters, m ∈ ms) :
    ∃ order, c.masters = .ok order ∧ DepGraph.IsOrder (fun m => m.cell.boundMasters) c.boundMasters order ∧
      (order.map Master.serial).Nodup := by
  have hmem : ∀ m, Needed (fun m => m.cell.boundMasters) c.boundMasters m → m ∈ ms := by
    intro m hm
    obtain ⟨r, hr, hrm⟩ := DepGraph.needed_iff.1 hm
    exact h.mem_of_leadsTo (hc r hr) hrm
  have hkey : Set.InjOn c.hierarchy.key {m | Needed c.hierarchy.deps c.hierarchy.roots m} :=
    fun m hm n hn heq => h.eq_of_serial (hmem m hm) (hmem n hn) heq
  rcases DepGraph.order_cases hkey with ⟨order, hok, horder⟩ | ⟨x, -, hx, hcycle⟩
  · refine ⟨order, ?_, horder, ?_⟩
    · rw [masters, hok]
    · exact horder.nodup.map_on fun m hm n hn heq => hkey ((horder.mem_iff m).1 hm) ((horder.mem_iff n).1 hn) heq
  · exact absurd (h.serial_lt_of_transGen (hmem x hx) hcycle) (Nat.lt_irrefl _)

/-- The search for a dependency order of a finite graph succeeds exactly if the roots lead to no cycle, with the items
that they lead to, each once and after all that it depends on, and fails with an item on a cycle to which they lead. So
the masters of a cell always have an order, in which each of them stands once and after those that it binds. -/
theorem dependency_order :
    (∀ {α κ : Type} [DecidableEq κ] (g : DepGraph α κ), Set.InjOn g.key {a | Needed g.deps g.roots a} →
      ((∃ order, g.order = .ok order) ↔ ∀ a, Needed g.deps g.roots a → ¬ DepGraph.OnCycle g.deps a) ∧
      (∀ order, g.order = .ok order → DepGraph.IsOrder g.deps g.roots order) ∧
      ∀ x, g.order = .error x → Needed g.deps g.roots x ∧ DepGraph.OnCycle g.deps x) ∧
    ∀ (ms : List Master) (c : Cell), Frozen ms → (∀ m ∈ c.boundMasters, m ∈ ms) →
      ∃ order, c.masters = .ok order ∧ DepGraph.IsOrder (fun m => m.cell.boundMasters) c.boundMasters order ∧
        (order.map Master.serial).Nodup := by
  refine ⟨fun g hkey => ?_, fun ms c h hc => exists_masters h hc⟩
  rcases DepGraph.order_cases hkey with ⟨order, hok, horder⟩ | ⟨x, herror, hx, hcycle⟩
  · rw [hok]
    refine ⟨iff_of_true ⟨order, rfl⟩ fun a ha => horder.not_onCycle ha, ?_, ?_⟩
    · rintro _ ⟨⟩
      exact horder
    · rintro x ⟨⟩
  · rw [herror]
    refine ⟨iff_of_false ?_ fun hnone => hnone x hx hcycle, ?_, ?_⟩
    · rintro ⟨order, ⟨⟩⟩
    · rintro order ⟨⟩
    · rintro _ ⟨⟩
      exact ⟨hx, hcycle⟩

end CellOf

end Library

open scoped ExactPolygons

namespace CellOf

/-- Three items in a ring, each of which depends on the next one. -/
def ring : DepGraph (Fin 3) (Fin 3) where
  key i := i
  deps i := [i + 1]
  roots := [0]
  finite := ⟨List.finRange 3, fun i _ => List.mem_finRange i⟩

theorem onCycle_ring : DepGraph.OnCycle ring.deps 0 :=
  (Relation.TransGen.single (by decide : (1 : Fin 3) ∈ ring.deps 0)).tail (by decide : (2 : Fin 3) ∈ ring.deps 1)
    |>.tail (by decide : (0 : Fin 3) ∈ ring.deps 2)

/-- A cell that binds some masters. -/
def tower (name : String) (ms : List Master) : Cell :=
  { (CellOf.empty planeTech name .poly90 : Cell) with
    instanceMap := ms.map fun m => (m.cell.name, ⟨m.cell.name, .bound m, .identity, .single⟩) }

theorem boundMasters_tower (name : String) (ms : List Master) : (tower name ms).boundMasters = ms := by
  rw [boundMasters, instances, tower, List.map_map, List.filterMap_map]
  exact List.filterMap_some

/-- A master that binds nothing. -/
def block : Master := .mk 0 (tower "block" [])

/-- A master that binds the block. -/
def beam : Master := .mk 1 (tower "beam" [block])

theorem frozen_beam : Frozen [block, beam] := by
  have hblock : Frozen [block] := Frozen.nil.freeze (by simp [boundMasters_tower])
  exact hblock.freeze (by simp [boundMasters_tower])

theorem dependency_order_tower :
    (∃ x, ring.order = .error x ∧ DepGraph.OnCycle ring.deps x) ∧
    Frozen [block, beam] ∧ (∀ m ∈ (tower "top" [beam, block]).boundMasters, m ∈ [block, beam]) ∧
    ∃ order, (tower "top" [beam, block]).masters = .ok order ∧ block ∈ order ∧
      ∀ before after, order = before ++ beam :: after → block ∈ before := by
  obtain ⟨hgraph, hmasters⟩ := dependency_order
  have hbound : ∀ m ∈ (tower "top" [beam, block]).boundMasters, m ∈ [block, beam] := by simp [boundMasters_tower]
  obtain ⟨order, hok, horder, -⟩ := hmasters _ _ frozen_beam hbound
  refine ⟨?_, frozen_beam, hbound, order, hok, ?_, fun before after hsplit => ?_⟩
  · obtain ⟨hacyclic, -, hcycle⟩ := hgraph ring Function.injective_id.injOn
    cases hring : ring.order with
    | ok order => exact absurd onCycle_ring (hacyclic.1 ⟨order, hring⟩ 0 (.root (by decide)))
    | error x => exact ⟨x, rfl, (hcycle x hring).2⟩
  · exact (horder.mem_iff block).2 (.root (by simp [boundMasters_tower]))
  · refine horder.sorted before beam after hsplit block ?_
    change block ∈ (tower "beam" [block]).boundMasters
    simp [boundMasters_tower]

end CellOf

end MaskLayout
