import MaskLayout.Proofs.Cell.Built

/-!
# Flattened cells

The drawn shapes of a cell and of all masters that it binds, directly or through others, each placed as the copies on
the way to it, of which an array has one in every column and row. The merged layers of a rectilinear cell cover exactly
what these shapes cover.
-/

namespace MaskLayout

/-- A drawn shape, and where it is placed. -/
structure PlacedShape where
  xform : Transform
  shape : Shape

namespace PlacedShape

/-- The shape as it is placed. -/
def image (p : PlacedShape) : Shape := p.shape.transform p.xform

/-- The same shape with an outer placement. -/
def place (t : Transform) (p : PlacedShape) : PlacedShape := ⟨t.cascade p.xform, p.shape⟩

theorem image_place (t : Transform) (p : PlacedShape) : (p.place t).image = p.image.transform t :=
  p.shape.transform_cascade t p.xform

end PlacedShape

namespace InstanceOf

variable {M : Type}

/-- Where the copy in a column and a row of an array stands, the first ones being zero. -/
def copyAt (i : InstanceOf M) (column row : Nat) : Transform where
  loc := ⟨i.xform.loc.x + column * i.tiling.dx, i.xform.loc.y + row * i.tiling.dy⟩
  orient := i.xform.orient

/-- The elements of an array are its copies, column by column. -/
theorem elements_eq_copies (i : InstanceOf M) : i.elements =
    (List.range i.tiling.nx.toNat).flatMap fun column => (List.range i.tiling.ny.toNat).map (i.copyAt column) := by
  rw [elements, Tiling.offsets, List.map_flatMap]
  refine List.flatMap_congr fun column _ => ?_
  rw [List.map_map]
  rfl

end InstanceOf

section Library

variable [PolygonLibrary]

namespace Master

/-- The shapes of a master for a key, with those of all masters that it binds. -/
def flatten (key : LayerKey) : Master → List PlacedShape
  | mk _ c =>
    (c.layerAt key).drawn.map (fun d => ⟨.identity, d.shape⟩) ++ c.instanceMap.flatMap fun e =>
      match _hm : e.2.master with
      | .ref _ => []
      | .bound m => (List.range e.2.tiling.nx.toNat).flatMap fun column =>
          (List.range e.2.tiling.ny.toNat).flatMap fun row => (flatten key m).map (·.place (e.2.copyAt column row))
termination_by m => m
decreasing_by exact sizeOf_lt (List.mem_map_of_mem (by assumption)) _hm

end Master

namespace CellOf

/-- The shapes of a cell for a key, with those of all masters that it binds. -/
def flatten (c : Cell) (key : LayerKey) : List PlacedShape := (Master.mk 0 c).flatten key

theorem flatten_master (m : Master) (key : LayerKey) : m.flatten key = m.cell.flatten key := by
  obtain ⟨n, c⟩ := m
  rw [flatten, Master.flatten, Master.flatten]
  rfl

variable {c c' : Cell} {key : LayerKey}

theorem flatten_eq (c : Cell) (key : LayerKey) :
    c.flatten key = (c.layerAt key).drawn.map (fun d => ⟨.identity, d.shape⟩) ++ c.instances.flatMap fun i =>
      match i.bound? with
      | none => []
      | some m => i.elements.flatMap fun t => (m.cell.flatten key).map (·.place t) := by
  rw [flatten, Master.flatten, instances, List.flatMap_map]
  congr 1
  refine List.flatMap_congr fun e _ => ?_
  cases hm : e.2.master with
  | ref r => rw [InstanceOf.bound?, hm]
  | bound m =>
      rw [InstanceOf.bound?, hm]
      simp only [flatten_master, InstanceOf.elements_eq_copies, List.flatMap_assoc, List.flatMap_map]

theorem mem_flatten {p : PlacedShape} :
    p ∈ c.flatten key ↔ (∃ d ∈ (c.layerAt key).drawn, ⟨.identity, d.shape⟩ = p) ∨
      ∃ i ∈ c.instances, ∃ e ∈ i.placed, ∃ q ∈ e.master.cell.flatten key, q.place e.xform = p := by
  rw [flatten_eq, List.mem_append, List.mem_map, List.mem_flatMap]
  refine or_congr_right (exists_congr fun i => and_congr_right fun _ => ?_)
  simp only [InstanceOf.placed, Set.mem_ofPred_eq]
  cases i.bound? with
  | none => simp
  | some m =>
      simp only [List.mem_flatMap, List.mem_map, Option.some.injEq]
      constructor
      · rintro ⟨t, ht, q, hq, rfl⟩
        exact ⟨⟨m, t⟩, ⟨rfl, ht⟩, q, hq, rfl⟩
      · rintro ⟨⟨_, t⟩, ⟨rfl, ht⟩, q, hq, rfl⟩
        exact ⟨t, ht, q, hq, rfl⟩

/-- What holds of a cell whenever it holds of the masters of its instances holds of every cell. -/
theorem bound_induction {P : Cell → Prop}
    (hstep : ∀ c : Cell, (∀ i ∈ c.instances, ∀ m, i.bound? = some m → P m.cell) → P c) (c : Cell) : P c := by
  suffices haux : ∀ m : Master, P m.cell from haux (.mk 0 c)
  intro m
  induction hsize : sizeOf m using Nat.strong_induction_on generalizing m with
  | _ size ih =>
      obtain ⟨n, c⟩ := m
      refine hstep c fun i hi inner hbound => ih _ ?_ inner rfl
      have hmaster : i.master = .bound inner := by
        simp only [InstanceOf.bound?] at hbound
        split at hbound
        · cases hbound
        · rename_i m hm
          rw [hm, Option.some.inj hbound]
      exact hsize ▸ Master.sizeOf_lt hi hmaster

/-- What holds of a cell whenever it holds of the masters of its elements holds of every cell. -/
theorem masters_induction {P : Cell → Prop}
    (hstep : ∀ c : Cell, (∀ i ∈ c.instances, ∀ e ∈ i.placed, P e.master.cell) → P c) (c : Cell) : P c :=
  bound_induction (fun c ih => hstep c fun i hi e he => ih i hi e.master he.1) c

/-- The shapes of a flattened cell, each as it is placed. -/
def shapes (c : Cell) (key : LayerKey) : Set Shape := {s | ∃ p ∈ c.flatten key, p.image = s}

theorem shapes_eq : c.shapes key = (c.layerAt key).own ∪
    ⋃ i ∈ c.instances, ⋃ e ∈ i.placed, Shape.transform e.xform '' e.master.cell.shapes key := by
  ext s
  simp only [Set.mem_union, Set.mem_iUnion, Set.mem_image, exists_prop]
  constructor
  · rintro ⟨p, hp, rfl⟩
    rcases mem_flatten.1 hp with ⟨d, hd, rfl⟩ | ⟨i, hi, e, he, q, hq, rfl⟩
    · exact .inl ⟨d, hd, d.shape.transform_identity.symm⟩
    · exact .inr ⟨i, hi, e, he, _, ⟨q, hq, rfl⟩, (q.image_place _).symm⟩
  · rintro (⟨d, hd, rfl⟩ | ⟨i, hi, e, he, _, ⟨q, hq, rfl⟩, rfl⟩)
    · exact ⟨_, mem_flatten.2 (.inl ⟨d, hd, rfl⟩), d.shape.transform_identity⟩
    · exact ⟨_, mem_flatten.2 (.inr ⟨i, hi, e, he, q, hq, rfl⟩), q.image_place _⟩

/-- Only where a cell has a layer are there shapes. -/
theorem exists_layer (h : (c.layerAt key).Holds (c.shapes key)) {s : Shape} (hs : s ∈ c.shapes key) :
    ∃ g, c.layers.get? key = some g := by
  cases hg : c.layers.get? key with
  | some g => exact ⟨g, rfl⟩
  | none =>
      have hat : c.layerAt key = .empty c.mode := by rw [layerAt, hg]; rfl
      rw [hat] at h
      rw [h.eq_empty rfl] at hs
      exact hs.elim

/-- Every layer of a built cell holds the shapes of the flattened cell. -/
theorem Built.holds (h : Built c) (key : LayerKey) : (c.layerAt key).Holds (c.shapes key) := by
  induction c using masters_induction with
  | hstep c ih =>
      have hsound := h.sound
      have hinner : ∀ i ∈ c.instances, ∀ e ∈ i.placed, (e.master.cell.layerAt key).Holds (e.master.cell.shapes key) :=
        fun i hi e he => ih i hi e he (hsound.masters i hi e.master he.1)
      have hshapes : c.shapes key = (c.layerAt key).own ∪
          ⋃ e ∈ c.merged key, Shape.transform e.xform '' e.master.cell.shapes key := by
        rw [shapes_eq]
        congr 1
        ext s
        simp only [merged, Set.mem_iUnion, Set.mem_inter_iff, exists_prop]
        constructor
        · rintro ⟨i, hi, e, he, s, hs, rfl⟩
          exact ⟨e, ⟨⟨i, hi, he⟩, exists_layer (hinner i hi e he) hs⟩, s, hs, rfl⟩
        · rintro ⟨e, ⟨⟨i, hi, he⟩, -⟩, hs⟩
          exact ⟨i, hi, e, he, hs⟩
      rw [hshapes]
      refine (hsound.composed key).holds (fun m => m.cell.shapes key) ?_
      rintro e ⟨he, -⟩ g hg
      simp only [Set.mem_iUnion, exists_prop] at he
      obtain ⟨i, hi, he⟩ := he
      have hat : e.master.cell.layerAt key = g := by rw [layerAt, hg]; rfl
      exact hat ▸ hinner i hi e he

/-- Whether the merged rectangles for a key cover a unit square. -/
def Covers (c : Cell) (key : LayerKey) (sq : Point) : Prop :=
  match c.layers.get? key with
  | some ⟨.poly90 rects, _, _⟩ => rects.Covers sq
  | _ => False

instance (c : Cell) (key : LayerKey) (sq : Point) : Decidable (c.Covers key sq) :=
  match h : c.layers.get? key with
  | some ⟨.poly90 rects, _, _⟩ => decidable_of_iff (rects.Covers sq) (by rw [Covers, h])
  | some ⟨.poly45 _, _, _⟩ => .isFalse (by rw [Covers, h]; exact id)
  | some ⟨.poly _, _, _⟩ => .isFalse (by rw [Covers, h]; exact id)
  | none => .isFalse (by rw [Covers, h]; exact id)

theorem Built.covers_iff (h : Built c) (hmode : c.mode = .poly90) (key : LayerKey) (sq : Point) :
    c.Covers key sq ↔ ∃ p ∈ c.flatten key, p.image.Covers sq := by
  have hholds := h.holds key
  have hshapes : (∃ p ∈ c.flatten key, p.image.Covers sq) ↔ ∃ s ∈ c.shapes key, s.Covers sq := by
    constructor
    · rintro ⟨p, hp, hsq⟩
      exact ⟨p.image, ⟨p, hp, rfl⟩, hsq⟩
    · rintro ⟨_, ⟨p, hp, rfl⟩, hsq⟩
      exact ⟨p, hp, hsq⟩
  rw [hshapes, Covers]
  cases hg : c.layers.get? key with
  | none =>
      refine iff_of_false id ?_
      rintro ⟨s, hs, -⟩
      obtain ⟨g, hlayer⟩ := exists_layer hholds hs
      rw [hg] at hlayer
      cases hlayer
  | some g =>
      have hat : c.layerAt key = g := by rw [layerAt, hg]; rfl
      rw [hat] at hholds
      have hlayer : g.data.mode = .poly90 := hat ▸ (h.sound.mode key).trans hmode
      obtain ⟨data, drawn, box⟩ := g
      cases data with
      | poly90 rects => exact hholds.covers rects rfl sq
      | poly45 ls => cases hlayer
      | poly ls => cases hlayer

/-- What a run of operations that succeed makes of a built cell is built, and keeps all that was drawn. -/
theorem Built.run (h : Built c) {ops : List CellOp}
    (hops : ∀ op ∈ ops, op.Admissible ∧ ∀ m ∈ op.masters, Built m.cell)
    (hrun : ops.forM CellOp.edit c = .ok () c') : Built c' ∧ c.KeepsDrawn c' := by
  refine Edit.forM_induction (fun _ d => Built d ∧ c.KeepsDrawn d) ⟨h, .of_eq fun _ => rfl⟩ ?_ hrun
  rintro done op rest d d' hall ⟨hd, hkept⟩ hstep
  obtain ⟨hop, hmasters⟩ := hops op (hall ▸ List.mem_append_right _ List.mem_cons_self)
  exact ⟨hd.edit hop hmasters hstep, fun key => (hkept key).trans ((hd.sound.edit hop hmasters hstep).2 key)⟩

theorem Built.drawn_of_setMasters (h : Built c) {ops : List CellOp}
    (hops : ∀ op ∈ ops, op.Admissible ∧ ∀ m ∈ op.masters, Built m.cell)
    (hrun : ops.forM CellOp.edit c = .ok () c') (hbinds : ∀ op ∈ ops, ∃ name m, op = .setMaster name m)
    (key : LayerKey) : (c'.layerAt key).drawn = (c.layerAt key).drawn := by
  have hkeeps : Built c' ∧ (c'.layerAt key).drawn = (c.layerAt key).drawn := by
    refine Edit.forM_induction (fun _ d => Built d ∧ (d.layerAt key).drawn = (c.layerAt key).drawn) ⟨h, rfl⟩ ?_ hrun
    rintro done op rest d d' hall ⟨hd, hdrawn⟩ hstep
    have hop : op ∈ ops := hall ▸ List.mem_append_right _ List.mem_cons_self
    obtain ⟨hadmissible, hmasters⟩ := hops op hop
    obtain ⟨name, m, rfl⟩ := hbinds op hop
    exact ⟨hd.edit hadmissible hmasters hstep,
      ((hd.sound.setMaster (hmasters m List.mem_cons_self) hstep).2 key).trans hdrawn⟩
  exact hkeeps.2

/-- After any run of operations on a built cell, each merged layer of the rectilinear result covers what the shapes of
the flattened result cover, and all shapes that were drawn before are still drawn. Where the run did nothing but
replace masters, no other shapes are. -/
theorem Built.run_covers_iff_flatten (h : Built c) {ops : List CellOp}
    (hops : ∀ op ∈ ops, op.Admissible ∧ ∀ m ∈ op.masters, Built m.cell)
    (hrun : ops.forM CellOp.edit c = .ok () c') (hmode : c'.mode = .poly90) :
    (∀ key sq, c'.Covers key sq ↔ ∃ p ∈ c'.flatten key, p.image.Covers sq) ∧
    c.KeepsDrawn c' ∧
    ((∀ op ∈ ops, ∃ name m, op = .setMaster name m) →
      ∀ key, (c'.layerAt key).drawn = (c.layerAt key).drawn) := by
  obtain ⟨hbuilt, hkept⟩ := h.run hops hrun
  exact ⟨hbuilt.covers_iff hmode, hkept, h.drawn_of_setMasters hops hrun⟩

end CellOf

end Library

open scoped ExactPolygons

namespace CellOf

/-- A technology of one layer. -/
def planeTech : Shared Tech where
  serial := 0
  value := {
    layers := .ofList [("M1", 1)]
    purposes := .ofList [("drawing", 0)]
    viaLayers := .empty
    layerTypes := .empty
    minSpace := .empty
    lineEnd := .empty
    sameColor := none
    defaultPurpose := 0
    pinPurpose := 0
    drawPins := false
    viaRules := .empty }

/-- Whether all operations of a run succeed. -/
def succeeds (ops : List CellOp) (c : Cell) : Bool :=
  match ops.forM CellOp.edit c with
  | .ok _ _ => true
  | .error _ _ => false

/-- The cell that a run of operations leaves. -/
def after (ops : List CellOp) (c : Cell) : Cell :=
  match ops.forM CellOp.edit c with
  | .ok _ c' => c'
  | .error _ c' => c'

theorem forM_of_succeeds {ops : List CellOp} (h : succeeds ops c = true) :
    ops.forM CellOp.edit c = .ok () (after ops c) := by
  rw [after]
  rw [succeeds] at h
  cases hrun : ops.forM CellOp.edit c with
  | ok u c' => rfl
  | error e c' =>
      rw [hrun] at h
      cases h

/-- A rectangle at the origin. -/
def barOps (width height : Int) : List CellOp := [.shape ⟨⟨1, 0⟩, .rect (.ofCoords 0 0 width height), true⟩]

/-- A cell of one rectangle. -/
def bar (width height : Int) : Cell := after (barOps width height) (.empty planeTech "bar" .poly90)

theorem built_bar (width height : Int)
    (h : succeeds (barOps width height) (.empty planeTech "bar" .poly90) = true) : Built (bar width height) := by
  have hops : ∀ op ∈ barOps width height, op.Admissible ∧ ∀ m ∈ op.masters, Built m.cell := by
    simp [barOps, CellOp.Admissible, Shape.proper_rect, CellOp.masters]
  exact (Built.run (.empty planeTech "bar" .poly90) hops (forM_of_succeeds h)).1

/-- A small square, and two columns of two turned bars that are replaced by lower and wider ones. -/
def pairOps : List CellOp :=
  [.shape ⟨⟨1, 0⟩, .rect (.ofCoords 0 0 1 1), true⟩,
    .inst ⟨"I0", .bound (.mk 1 (bar 4 2)), ⟨⟨10, 0⟩, .r90⟩, ⟨2, 2, 5, 7⟩⟩,
    .setMaster "I0" (.mk 2 (bar 2 4))]

/-- The cell of these operations. -/
def pair : Cell := after pairOps (.empty planeTech "pair" .poly90)

/-- What is covered is one square of the first bar, one of the bar to its right and one of the bar above that. -/
theorem run_covers_iff_flatten_pair :
    pairOps.forM CellOp.edit (.empty planeTech "pair" .poly90) = .ok () pair ∧ pair.mode = .poly90 ∧
      (∀ sq ∈ [(⟨6, 1⟩ : Point), ⟨14, 1⟩, ⟨14, 8⟩], pair.Covers ⟨1, 0⟩ sq ∧ ∃ p ∈ pair.flatten ⟨1, 0⟩, p.image.Covers sq) ∧
      ¬ ∃ p ∈ pair.flatten ⟨1, 0⟩, p.image.Covers ⟨9, 3⟩ := by
  have hops : ∀ op ∈ pairOps, op.Admissible ∧ ∀ m ∈ op.masters, Built m.cell := by
    simp [pairOps, CellOp.Admissible, CellOp.masters, Shape.proper_rect, InstanceOf.bound?, Master.cell]
    exact ⟨built_bar 4 2 (by decide +kernel), built_bar 2 4 (by decide +kernel)⟩
  have hrun : pairOps.forM CellOp.edit (.empty planeTech "pair" .poly90) = .ok () pair :=
    forM_of_succeeds (by decide +kernel)
  have hmode : pair.mode = .poly90 := by decide +kernel
  have hcovers := (Built.run_covers_iff_flatten (.empty planeTech "pair" .poly90) hops hrun hmode).1
  refine ⟨hrun, hmode, ?_, ?_⟩
  · simp only [← hcovers, and_self]
    decide +kernel
  · rw [← hcovers]
    decide +kernel

end CellOf

end MaskLayout
