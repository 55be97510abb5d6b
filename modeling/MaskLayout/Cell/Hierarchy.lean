import MaskLayout.Cell.Basic
import MaskLayout.Order

/-!
# Hierarchies of cells

What a cell holds through its bound masters: its box on a layer, and its masters in dependency order.
-/

namespace MaskLayout

variable [PolygonLibrary]

theorem Master.sizeOf_lt {n : Nat} {c : Cell} {i : Instance} {m : Master} (hi : i ∈ c.instances)
    (hm : i.master = .bound m) : sizeOf m < sizeOf (Master.mk n c) := by
  obtain ⟨⟨key, j⟩, he, rfl⟩ := List.mem_map.1 hi
  have h1 : sizeOf (key, j) < sizeOf c.instanceMap := List.sizeOf_lt_of_mem he
  cases j with
  | mk name master xform tiling =>
    cases c
    simp only at hm h1
    subst hm
    simp only [Master.mk.sizeOf_spec, CellOf.mk.sizeOf_spec, Prod.mk.sizeOf_spec, InstanceOf.mk.sizeOf_spec,
      MasterOf.bound.sizeOf_spec] at h1 ⊢
    omega

namespace Master

/-- The box of a master on a layer, with all its instances. -/
def box (key : LayerKey) : Master → Box
  | mk _ c =>
    c.instanceMap.foldl (fun acc e =>
      match _hm : e.2.master with
      | .ref _ => Box.empty.union acc
      | .bound m => (e.2.arrayBox (box key m)).union acc) (c.layerBox key)
termination_by m => m
decreasing_by exact sizeOf_lt (List.mem_map_of_mem (by assumption)) _hm

end Master

namespace InstanceOf

/-- The box of an instance on a layer. What is defined elsewhere has none. -/
def box (i : Instance) (key : LayerKey) : Box :=
  match i.master with
  | .ref _ => .empty
  | .bound m => i.arrayBox (m.box key)

end InstanceOf

namespace CellOf

/-- The box of a cell on a layer, with all its instances. -/
def box (c : Cell) (key : LayerKey) : Box :=
  c.instances.foldl (fun acc i => (i.box key).union acc) (c.layerBox key)

/-- The masters bound by the instances, in the order of instance names. -/
def boundMasters (c : Cell) : List Master := c.instances.filterMap (·.bound?)

theorem sizeOf_lt_of_mem_boundMasters {m n : Master} (h : n ∈ m.cell.boundMasters) : sizeOf n < sizeOf m := by
  obtain ⟨serial, c⟩ := m
  obtain ⟨i, hi, hbound⟩ := List.mem_filterMap.1 h
  refine Master.sizeOf_lt hi ?_
  revert hbound
  unfold InstanceOf.bound?
  split
  · rintro ⟨⟩
  · rintro ⟨⟩
    assumption

/-- The hierarchy below a cell. -/
def hierarchy (c : Cell) : DepGraph Master Nat where
  key := Master.serial
  deps m := m.cell.boundMasters
  roots := c.boundMasters
  finite := Needed.finite_of_size sizeOf (fun _ _ hn => sizeOf_lt_of_mem_boundMasters hn) c.boundMasters

/-- All masters that a cell binds, directly or through others, each one once and after those that it binds. -/
def masters (c : Cell) : Except LayoutError (List Master) :=
  match c.hierarchy.order with
  | .ok ms => .ok ms
  | .error m => .error (.composition (.cyclicHierarchy m.cell.name))

end CellOf

end MaskLayout
