import MaskLayout.Cell.Hierarchy
import MaskLayout.Proofs.Cell.Flatten

/-!
# Boxes of cells

The two ways to the box of a cell on a layer. One follows the bound masters and looks at the first and the last element
of every array, the other is kept with the layer. Both are the box around the shapes of the flattened cell.
-/

namespace MaskLayout

section Library

variable [PolygonLibrary]

namespace LayerGeometry

/-- The box of a composed layer is around its drawn shapes and around the placed layers, and it is the least one. -/
theorem Composed.box_le_iff {key : LayerKey} {g : LayerGeometry} {merged : Set Element} {u : Box}
    (h : Composed key g merged) :
    g.box ≤ u ↔ Box.empty ≤ u ∧ (∀ d ∈ g.drawn, d.shape.box ≤ u) ∧
      ∀ e ∈ merged, (e.master.cell.layerBox key).transform e.xform ≤ u := by
  induction h with
  | empty m => simp [LayerGeometry.empty]
  | add h hs hg ih =>
      obtain ⟨data, -, rfl⟩ := add_ok hg
      rw [Box.union_le_iff, ih, List.forall_mem_append, List.forall_mem_singleton]
      tauto
  | record h hmaster hg ih =>
      obtain ⟨-, data, -, rfl⟩ := record_ok hg
      rw [Box.union_le_iff, ih, Set.forall_mem_insert, CellOf.layerBox, hmaster, Option.map_some, Option.getD_some]
      tauto
  | withMode h hg ih =>
      obtain ⟨data, rfl, -⟩ := withMode_ok hg
      exact ih

end LayerGeometry

namespace InstanceOf

theorem first_mem_elements {i : Instance} (h : 1 ≤ i.tiling.nx ∧ 1 ≤ i.tiling.ny) : i.xform ∈ i.elements := by
  have hstay : i.xform.loc + ⟨0, 0⟩ = i.xform.loc := by apply Point.ext <;> simp
  refine List.mem_map.2 ⟨⟨0, 0⟩, ?_, by rw [Transform.moveBy, hstay]⟩
  simp only [Tiling.offsets, List.mem_flatMap, List.mem_map, List.mem_range]
  exact ⟨0, by omega, 0, by omega, by simp⟩

theorem last_mem_elements {i : Instance} (h : 1 ≤ i.tiling.nx ∧ 1 ≤ i.tiling.ny) :
    i.xform.moveBy i.tiling.span ∈ i.elements := by
  refine List.mem_map.2 ⟨i.tiling.span, ?_, rfl⟩
  simp only [Tiling.offsets, List.mem_flatMap, List.mem_map, List.mem_range]
  refine ⟨(i.tiling.nx - 1).toNat, by omega, (i.tiling.ny - 1).toNat, by omega, ?_⟩
  rw [Int.toNat_of_nonneg (by omega), Int.toNat_of_nonneg (by omega)]
  rfl

/-- A box around all elements of an array is around the box of the array. -/
theorem arrayBox_le {i : Instance} {b u : Box} (h : 1 ≤ i.tiling.nx ∧ 1 ≤ i.tiling.ny)
    (hempty : b.isEmpty = true → b ≤ u) (hu : ∀ t ∈ i.elements, b.transform t ≤ u) : i.arrayBox b ≤ u := by
  rw [arrayBox]
  split
  · rename_i hb
    exact hempty hb
  · rw [Box.union_le_iff, Box.transform_translate]
    exact ⟨hu _ (first_mem_elements h), hu _ (last_mem_elements h)⟩

end InstanceOf

/-- Whether a box is the least one around some shapes. -/
def Box.Around (b : Box) (shapes : Set Shape) : Prop := ∀ u, b ≤ u ↔ Box.empty ≤ u ∧ ∀ s ∈ shapes, s.box ≤ u

omit [PolygonLibrary] in
/-- The least box around shapes is, when it is placed, the least one around the placed shapes. -/
theorem Box.Around.transform_le_iff {b u : Box} {shapes : Set Shape} (h : b.Around shapes)
    (hproper : ∀ s ∈ shapes, s.Proper) (hrange : ∀ s ∈ shapes, s.InRange) (t : Transform) (hu : Box.empty ≤ u) :
    b.transform t ≤ u ↔ ∀ s ∈ shapes, (s.transform t).box ≤ u := by
  rcases shapes.eq_empty_or_nonempty with rfl | ⟨s, hs⟩
  · have hb : b ≤ Box.empty := (h _).2 ⟨le_refl _, fun _ hs => hs.elim⟩
    have hempty : b.isEmpty = true := by
      by_contra hne
      simpa using Box.isEmpty_of_le hb (Bool.eq_false_iff.2 hne)
    rw [Box.transform_of_isEmpty hempty]
    exact iff_of_true hu fun _ hs => hs.elim
  · have hsb : s.box ≤ b := ((h b).1 (le_refl b)).2 s hs
    have hb : b.isEmpty = false := Box.isEmpty_of_le hsb (hproper s hs).isEmpty_box
    rw [Box.transform_le_iff hb, h]
    constructor
    · rintro ⟨-, hall⟩ s hs
      exact (Shape.box_transform_le_iff (hproper s hs) (hrange s hs) t hu).2 (hall s hs)
    · intro hall
      have hback : ∀ s ∈ shapes, s.box ≤ u.transform t.invert := fun s hs =>
        (Shape.box_transform_le_iff (hproper s hs) (hrange s hs) t hu).1 (hall s hs)
      obtain ⟨p, hp⟩ := List.exists_mem_of_ne_nil _ (hproper s hs).points
      have hps : Box.ofPoint p ≤ s.box := Shape.ofPoint_le_box hp
      exact ⟨Box.empty_le_of_ofPoint_le (hps.trans (hrange s hs)) (hps.trans (hback s hs)), hback⟩

namespace CellOf

variable {c c' : Cell} {key : LayerKey} {u : Box}

theorem layerBox_eq (c : Cell) (key : LayerKey) : c.layerBox key = (c.layerAt key).box := by
  rw [layerBox, layerAt]
  cases c.layers.get? key <;> rfl

theorem box_master (m : Master) (key : LayerKey) : m.box key = m.cell.box key := by
  obtain ⟨n, c⟩ := m
  rw [Master.box, CellOf.box, instances, List.foldl_map]
  congr 1
  funext acc e
  rw [InstanceOf.box]
  split <;> simp [*]

theorem box_le_iff : c.box key ≤ u ↔ c.layerBox key ≤ u ∧ ∀ i ∈ c.instances, i.box key ≤ u := Box.foldl_union_le_iff

/-- The box of a layer is around what is drawn on it and around the layers of all elements. -/
theorem Built.layerBox_le_iff (h : Built c) :
    c.layerBox key ≤ u ↔ Box.empty ≤ u ∧ (∀ d ∈ (c.layerAt key).drawn, d.shape.box ≤ u) ∧
      ∀ i ∈ c.instances, ∀ e ∈ i.placed, (e.master.cell.layerBox key).transform e.xform ≤ u := by
  rw [layerBox_eq, (h.sound.composed key).box_le_iff]
  refine and_congr_right fun hu => and_congr_right fun _ => ?_
  constructor
  · intro hmerged i hi e he
    cases hg : e.master.cell.layers.get? key with
    | some g =>
        refine hmerged e ⟨?_, g, hg⟩
        simp only [Set.mem_iUnion, exists_prop]
        exact ⟨i, hi, he⟩
    | none =>
        rw [layerBox, hg, Option.map_none, Option.getD_none, Box.transform_of_isEmpty Box.isEmpty_empty]
        exact hu
  · rintro hplaced e ⟨he, -⟩
    simp only [Set.mem_iUnion, exists_prop] at he
    obtain ⟨i, hi, he⟩ := he
    exact hplaced i hi e he

/-- The box of a layer with no shapes is the empty one. -/
theorem Built.layerBox_eq_empty (h : Built c) (hbox : (c.layerBox key).isEmpty = true) :
    c.layerBox key = .empty := by
  rw [layerBox_eq] at *
  rcases (h.holds key).box with ⟨hne, -⟩ | ⟨hempty, -⟩
  · simp [hbox] at hne
  · exact hempty

/-- The box that is found through the masters is the one that is kept with the layer. -/
theorem Built.box_eq_layerBox (h : Built c) (key : LayerKey) : c.box key = c.layerBox key := by
  induction c using masters_induction with
  | hstep c ih =>
      obtain ⟨hempty, -, hplaced⟩ := h.layerBox_le_iff.1 (le_refl (c.layerBox key))
      refine le_antisymm (box_le_iff.2 ⟨le_refl _, fun i hi => ?_⟩) (box_le_iff.1 (le_refl _)).1
      rw [InstanceOf.box]
      split
      · exact hempty
      · rename_i m hm
        have hbound : i.bound? = some m := by rw [InstanceOf.bound?, hm]
        have hbuilt : Built m.cell := h.sound.masters i hi m hbound
        have htiling := h.sound.tiling i hi
        -- The array has a first element, and through it the induction reaches the master.
        rw [box_master, ih i hi ⟨m, i.xform⟩ ⟨hbound, InstanceOf.first_mem_elements htiling⟩ hbuilt]
        refine InstanceOf.arrayBox_le htiling (fun hbox => ?_) fun t ht => hplaced i hi ⟨m, t⟩ ⟨hbound, ht⟩
        rw [hbuilt.layerBox_eq_empty hbox]
        exact hempty

/-- `c.Reaches d` says that `d` is `c`, or one of its masters, or one of theirs, and so on. -/
inductive Reaches : Cell → Cell → Prop
  | refl (c : Cell) : Reaches c c
  | step {c d : Cell} {m : Master} (hm : m ∈ c.boundMasters) (h : Reaches m.cell d) : Reaches c d

/-- Whether all shapes on a layer, in the coordinates of the cell and of each master, have coordinates of a layout. -/
def InRange (c : Cell) (key : LayerKey) : Prop := ∀ d, c.Reaches d → ∀ s ∈ d.shapes key, s.InRange

theorem inRange_iff : c.InRange key ↔
    (∀ b ∈ (c.flatten key).map (fun p => p.image.box), b ≤ .everything) ∧ ∀ m ∈ c.boundMasters, m.cell.InRange key := by
  rw [List.forall_mem_map]
  constructor
  · intro h
    refine ⟨fun p hp => ?_, fun m hm d hd => ?_⟩
    · exact h c (.refl c) _ ⟨p, hp, rfl⟩
    · exact h d (.step hm hd)
  · rintro ⟨hhere, hmasters⟩ d hd
    cases hd with
    | refl =>
        rintro s ⟨p, hp, rfl⟩
        exact hhere p hp
    | step hm hd => exact hmasters _ hm d hd

theorem Built.layerBox_around (h : Built c) (hrange : c.InRange key) : (c.layerBox key).Around (c.shapes key) := by
  induction c using masters_induction with
  | hstep c ih =>
      intro u
      rw [h.layerBox_le_iff, shapes_eq]
      refine and_congr_right fun hu => ?_
      simp only [Set.mem_union, or_imp, forall_and, Set.mem_iUnion, exists_prop, forall_exists_index, and_imp]
      refine and_congr ?_ ?_
      · constructor
        · rintro hown s ⟨d, hd, rfl⟩
          exact hown d hd
        · exact fun hown d hd => hown d.shape ⟨d, hd, rfl⟩
      · have helement : ∀ i ∈ c.instances, ∀ e ∈ i.placed,
            ((e.master.cell.layerBox key).transform e.xform ≤ u ↔
              ∀ s ∈ e.master.cell.shapes key, (s.transform e.xform).box ≤ u) := by
          intro i hi e he
          have hbuilt : Built e.master.cell := h.sound.masters i hi e.master he.1
          have hinner : e.master.cell.InRange key :=
            (inRange_iff.1 hrange).2 e.master (List.mem_filterMap.2 ⟨i, hi, he.1⟩)
          exact (ih i hi e he hbuilt hinner).transform_le_iff (hbuilt.holds key).proper (hinner _ (.refl _)) e.xform hu
        constructor
        · rintro hplaced _ i hi e he ⟨s, hs, rfl⟩
          exact (helement i hi e he).1 (hplaced i hi e he) s hs
        · exact fun hshapes i hi e he =>
            (helement i hi e he).2 fun s hs => hshapes _ i hi e he ⟨s, hs, rfl⟩

/-- The box that is kept with a layer is the box around the shapes of the flattened cell. -/
theorem Built.layerBox_eq_flatten (h : Built c) (hrange : c.InRange key) :
    c.layerBox key = Box.unionAll ((c.flatten key).map fun p => p.image.box) := by
  refine eq_of_forall_ge_iff fun u => ?_
  rw [h.layerBox_around hrange u, Box.unionAll_le_iff, List.forall_mem_map]
  refine and_congr_right fun _ => ?_
  constructor
  · exact fun hall p hp => hall _ ⟨p, hp, rfl⟩
  · rintro hall s ⟨p, hp, rfl⟩
    exact hall p hp

/-- The cell without its instances of cells defined elsewhere. -/
def withoutRefs (c : Cell) : Cell := { c with instanceMap := c.instanceMap.filter fun e => e.2.bound?.isSome }

theorem instances_withoutRefs (c : Cell) : c.withoutRefs.instances = c.instances.filter (·.bound?.isSome) := by
  rw [instances, instances, List.filter_map]
  rfl

theorem Built.box_withoutRefs (h : Built c) (key : LayerKey) : c.withoutRefs.box key = c.box key := by
  refine eq_of_forall_ge_iff fun u => ?_
  rw [box_le_iff, box_le_iff]
  refine and_congr_right fun hlayer => ?_
  simp only [instances_withoutRefs, List.mem_filter, and_imp]
  refine forall₂_congr fun i hi => ?_
  cases hm : i.master with
  | ref r =>
      rw [InstanceOf.box, hm]
      simp only [InstanceOf.bound?, hm, Option.isSome_none, Bool.false_eq_true, false_imp_iff, true_iff]
      exact (h.layerBox_le_iff.1 hlayer).1
  | bound m => simp [InstanceOf.bound?, hm]

/-- After any run of operations on a built cell, the box that is found through the masters is the one that is kept with
the layer, and cells defined elsewhere do not count. As long as all shapes have coordinates of a layout, both boxes are
the box around the shapes of the flattened cell. -/
theorem Built.run_box_eq_flatten (h : Built c) {ops : List CellOp}
    (hops : ∀ op ∈ ops, op.Admissible ∧ ∀ m ∈ op.masters, Built m.cell)
    (hrun : ops.forM CellOp.edit c = .ok () c') (key : LayerKey) :
    c'.box key = c'.layerBox key ∧
    (c'.InRange key → c'.layerBox key = Box.unionAll ((c'.flatten key).map fun p => p.image.box)) ∧
    c'.withoutRefs.box key = c'.box key := by
  obtain ⟨hbuilt, -⟩ := h.run hops hrun
  exact ⟨hbuilt.box_eq_layerBox key, hbuilt.layerBox_eq_flatten, hbuilt.box_withoutRefs key⟩

end CellOf

end Library

open scoped ExactPolygons

namespace CellOf

/-- A small square, an array of turned bars at a pitch to the left, and a cell defined elsewhere. -/
def rowOps : List CellOp :=
  [.shape ⟨⟨1, 0⟩, .rect (.ofCoords 0 0 1 1), true⟩,
    .inst ⟨"I0", .bound (.mk 1 (bar 4 2)), ⟨⟨10, 0⟩, .r90⟩, ⟨3, 1, -5, 0⟩⟩,
    .inst ⟨"I1", .ref ⟨"lib", "cell", "layout", .empty⟩, .identity, .single⟩]

/-- The cell of these operations. -/
def row : Cell := after rowOps (.empty planeTech "row" .poly45)

theorem run_box_eq_flatten_row :
    rowOps.forM CellOp.edit (.empty planeTech "row" .poly45) = .ok () row ∧ row.InRange ⟨1, 0⟩ ∧
      row.box ⟨1, 0⟩ = ⟨⟨-2, 0⟩, ⟨10, 4⟩⟩ ∧ row.withoutRefs.box ⟨1, 0⟩ = ⟨⟨-2, 0⟩, ⟨10, 4⟩⟩ := by
  have hops : ∀ op ∈ rowOps, op.Admissible ∧ ∀ m ∈ op.masters, Built m.cell := by
    simp [rowOps, CellOp.Admissible, CellOp.masters, Shape.proper_rect, InstanceOf.bound?, Master.cell, Tiling.single]
    exact built_bar 4 2 (by decide +kernel)
  have hrun : rowOps.forM CellOp.edit (.empty planeTech "row" .poly45) = .ok () row :=
    forM_of_succeeds (by decide +kernel)
  have hbar : (bar 4 2).flatten ⟨1, 0⟩ = [⟨.identity, .rect (.ofCoords 0 0 4 2)⟩] := by
    rw [flatten_eq]
    rfl
  have hdrawn : (row.layerAt ⟨1, 0⟩).drawn = [⟨.rect (.ofCoords 0 0 1 1), true⟩] := by decide +kernel
  have hinstances : row.instances =
      [⟨"I0", .bound (.mk 1 (bar 4 2)), ⟨⟨10, 0⟩, .r90⟩, ⟨3, 1, -5, 0⟩⟩,
        ⟨"I1", .ref ⟨"lib", "cell", "layout", .empty⟩, .identity, .single⟩] := rfl
  have hboxes : (row.flatten ⟨1, 0⟩).map (fun p => p.image.box) =
      [⟨⟨0, 0⟩, ⟨1, 1⟩⟩, ⟨⟨8, 0⟩, ⟨10, 4⟩⟩, ⟨⟨3, 0⟩, ⟨5, 4⟩⟩, ⟨⟨-2, 0⟩, ⟨0, 4⟩⟩] := by
    rw [flatten_eq, hdrawn, hinstances]
    simp only [List.flatMap_cons, InstanceOf.bound?, Master.cell, hbar]
    decide +kernel
  have hrange : row.InRange ⟨1, 0⟩ := by
    have hmasters : row.boundMasters = [.mk 1 (bar 4 2)] := by rw [boundMasters, hinstances]; rfl
    have hnone : (bar 4 2).boundMasters = [] := rfl
    rw [inRange_iff, hboxes, hmasters, List.forall_mem_singleton, Master.cell, inRange_iff, hbar, hnone]
    exact ⟨by decide, by decide, fun m hm => (List.not_mem_nil hm).elim⟩
  obtain ⟨hlayer, hflatten, hrefs⟩ := Built.run_box_eq_flatten (.empty planeTech "row" .poly45) hops hrun ⟨1, 0⟩
  have hbox : row.box ⟨1, 0⟩ = ⟨⟨-2, 0⟩, ⟨10, 4⟩⟩ := by
    rw [hlayer, hflatten hrange, hboxes]
    rfl
  exact ⟨hrun, hrange, hbox, hrefs.trans hbox⟩

end CellOf

end MaskLayout
