import MaskLayout.Proofs.Cell.Alterations
import MaskLayout.Proofs.Cell.Boxes
import MaskLayout.Proofs.Path

/-!
# Reachable cells

Reachable cells: those that any calls lead to, whether these succeed or fail. Every such cell is regular, so all its
parts stand where they belong.

## Implementation notes

What documents deliver has passed none of the checks that the makers of shapes and blockages make. So these checks are
no part of the types, and a call asks for no more of them than it needs.
-/

namespace MaskLayout

section Library

variable [PolygonLibrary]

/-- A call on a cell: an operation, or a wire or a bus that is added at once. -/
inductive CellCall where
  | op (o : CellOp)
  | path (key : LayerKey) (horiz : Bool) (points : List Point) (halfWidth : Int) (styles : PathStyles)
  | bus (key : LayerKey) (horiz : Bool) (points : List Point) (widths spaces : List Int) (styles : PathStyles)

namespace CellCall

/-- What a call does to a cell. -/
def edit : CellCall → Edit Unit
  | op o => o.edit
  | path key horiz points halfWidth styles => do
    let _ ← Edit.proposePath key horiz points halfWidth styles true
  | bus key horiz points widths spaces styles => do
    let _ ← Edit.proposeBus key horiz points widths spaces styles true

/-- The masters that a call offers to the cell. -/
def masters : CellCall → List Master
  | op o => o.masters
  | _ => []

/-- Whether the shape of a call has points and is rectilinear if its kind says so, and its blockage is a placement
blockage if it has no layer. All that clients make is like that, but polygons without points. -/
def Checked : CellCall → Prop
  | op (.shape o) => o.shape.Proper
  | op (.blockage o) => o.layer = none → o.type = .placement
  | _ => True

/-- Whether a call neither binds an instance that is there to another master nor changes the mode. -/
def Plain : CellCall → Prop
  | op (.setMaster _ _) => False
  | op (.setMode _) => False
  | _ => True

end CellCall

omit [PolygonLibrary] in
/-- A blockage that is made without a layer is a placement blockage. -/
theorem Blockage.placement_of_create {type : BlockageType} {layer : Option Int} {loop : Loop} {b : Blockage}
    (h : create type layer loop = .ok b) (hlayer : b.layer = none) : b.type = .placement := by
  simp only [create] at h
  split at h
  · cases h
  · cases h
    rfl
  · cases h
    cases hlayer
  · cases h

namespace Edit

open CellOf

variable {B : Master → Prop} {c : Cell} {key : LayerKey} {horiz : Bool} {points : List Point} {styles : PathStyles}

/-- A proposal that is committed later leaves the cell that adding the object at once would leave. -/
theorem leaves_commit {α : Type} [CellObject α] (o : α) :
    (Proposal.commit ⟨o, false⟩ : Edit α).leaves c = (add o).leaves c := by
  simp only [leaves, Proposal.commit, add, Proposal.make, if_true, Bool.false_eq_true, if_false, bind, EStateM.bind]
  cases CellObject.addTo o c <;> rfl

/-- Proposing an object for later leaves the cell alone, and proposing it at once is deciding about it now. -/
theorem decides_make {α : Type} [CellObject α] {o : α} {p : Prop} {done : α → Cell → Prop}
    (h : Decides (CellObject.addTo o) c p done) (commit : Bool) :
    Decides (Proposal.make o commit) c (commit = true → p)
      fun a c' => a.committed = commit ∧ if commit then done a.object c' else a.object = o ∧ c' = c := by
  cases commit with
  | false => simp [Decides, Proposal.make]
  | true =>
      simp only [Decides, Proposal.make, if_true, ends_bind, ends_pure, true_and, true_imp_iff]
      exact h

theorem decides_proposePath (h : c.Regular B) (halfWidth : Int) (commit : Bool) :
    Decides (proposePath key horiz points halfWidth styles commit) c
      (∃ s, Shape.ofPath points halfWidth styles = .ok s ∧
        (commit = true → c.tech.value.checkKey key = .ok () ∧ s.mode ≤ c.mode)) fun _ c' => c.Keeps B c' := by
  refine decides_check_bind fun s hs => (decides_make (decides_shape h ⟨key, s, horiz⟩) commit).mono ?_
  rintro _ c' ⟨-, hdone⟩
  split at hdone
  · exact hdone.2 (Shape.valid_of_ofPath hs).proper
  · rw [hdone.2]
    exact h.keeps

theorem decides_proposeBus (h : c.Regular B) (widths spaces : List Int) (commit : Bool) :
    Decides (proposeBus key horiz points widths spaces styles commit) c
      (∃ s, Shape.ofBus points widths spaces styles = .ok s ∧
        (commit = true → c.tech.value.checkKey key = .ok () ∧ s.mode ≤ c.mode)) fun _ c' => c.Keeps B c' := by
  refine decides_check_bind fun s hs => (decides_make (decides_shape h ⟨key, s, horiz⟩) commit).mono ?_
  rintro _ c' ⟨-, hdone⟩
  split at hdone
  · exact hdone.2 (Shape.valid_of_ofBus hs).proper
  · rw [hdone.2]
    exact h.keeps

/-- A plain call that fails leaves the cell as it is, and one that succeeds leaves a regular cell. -/
theorem ends_plain (h : c.Regular B) {call : CellCall} (hplain : call.Plain) (hoffers : ∀ m ∈ call.masters, c.Offers B m) :
    Ends call.edit c (fun _ c' => call.Checked → c.Keeps B c') fun _ c' => c' = c := by
  cases call with
  | path key horiz points halfWidth styles =>
      simp only [CellCall.edit, ends_bind, ends_pure]
      exact (decides_proposePath h halfWidth true).ends fun _ _ hkeeps _ => hkeeps
  | bus key horiz points widths spaces styles =>
      simp only [CellCall.edit, ends_bind, ends_pure]
      exact (decides_proposeBus h widths spaces true).ends fun _ _ hkeeps _ => hkeeps
  | op o =>
      cases o with
      | shape o => exact ((decides_shape h o).add fun _ _ hdone => hdone.2).ends fun _ _ hkeeps => hkeeps
      | rects key horiz r tiling =>
          exact (decides_addRects h key horiz r tiling).ends fun _ _ hkeeps _ => hkeeps
      | pin o => exact ((decides_pin h o).add fun _ _ hdone => hdone.2).ends fun _ _ hkeeps _ => hkeeps
      | pins net text level halfTrack lower upper width count pitch =>
          exact (decides_addPins h net text level halfTrack lower upper width count pitch).ends
            fun _ _ hkeeps _ => hkeeps
      | via o => exact ((decides_via h o).add fun _ _ hdone => hdone.2).ends fun _ _ hkeeps _ => hkeeps
      | vias v dirs tiling =>
          exact (decides_addVias h v dirs tiling).ends fun _ _ hkeeps _ => hkeeps
      | wires ws => exact (decides_addWires h ws).ends fun _ _ hkeeps _ => hkeeps
      | label o => exact ((decides_label h o).add fun _ _ hdone => hdone.2).ends fun _ _ hkeeps _ => hkeeps
      | blockage o =>
          exact ((decides_blockage h o).add fun _ _ hdone => hdone.2).ends fun _ _ hkeeps hchecked => hkeeps hchecked
      | boundary o => exact ((decides_boundary h o).add fun _ _ hdone => hdone.2).ends fun _ _ hkeeps _ => hkeeps
      | inst o =>
          refine ((decides_inst h o fun m hm => ?_).add fun _ _ hkeeps => hkeeps).ends fun _ _ hkeeps _ => hkeeps
          exact hoffers m (Option.mem_toList.2 hm)
      | renameInstance old new =>
          exact (decides_renameInstance h old new).ends fun _ _ hkeeps _ => hkeeps
      | setMaster name m => exact hplain.elim
      | setParam name param value =>
          exact (decides_setParam h name param value).ends fun _ _ hkeeps _ => hkeeps
      | setMode m => exact hplain.elim
      | setName name => exact (decides_setName h name).ends fun _ _ hkeeps _ => hkeeps

end Edit

namespace CellOf

variable {B : Master → Prop} {c c' : Cell}

/-- Every call leaves a regular cell of the same technology, whether it succeeds or fails. -/
theorem Regular.call (h : c.Regular B) {call : CellCall} (hcall : call.Checked)
    (hoffers : ∀ m ∈ call.masters, c.Offers B m) :
    (call.edit.leaves c).Regular B ∧ (call.edit.leaves c).tech = c.tech := by
  suffices hends : Edit.Ends call.edit c (fun _ c' => c'.Regular B ∧ c'.tech = c.tech) fun _ c' =>
      c'.Regular B ∧ c'.tech = c.tech from hends.leaves (P := fun c' => c'.Regular B ∧ c'.tech = c.tech)
  by_cases hplain : call.Plain
  · refine (Edit.ends_plain h hplain hoffers).mono (fun _ c' hc' => ?_) fun _ c' hc' => ?_
    · exact ⟨(hc' hcall).regular, (hc' hcall).tech⟩
    · subst c'
      exact ⟨h, rfl⟩
  obtain ⟨name, m, rfl⟩ | ⟨m, rfl⟩ : (∃ name m, call = .op (.setMaster name m)) ∨ ∃ m, call = .op (.setMode m) := by
    unfold CellCall.Plain at hplain
    split at hplain
    · exact .inl ⟨_, _, rfl⟩
    · exact .inr ⟨_, rfl⟩
    · exact absurd trivial hplain
  · refine (Edit.ends_setMaster h (hoffers m List.mem_cons_self)).mono ?_ ?_
    · rintro _ c' ⟨⟨hkeeps, -⟩, -⟩
      exact ⟨hkeeps.regular, hkeeps.tech⟩
    · rintro _ c' (⟨rfl, -⟩ | ⟨⟨hkeeps, -⟩, -⟩)
      · exact ⟨h, rfl⟩
      · exact ⟨hkeeps.regular, hkeeps.tech⟩
  · refine ((Edit.decides_setMode h m).ends fun _ _ hdone => hdone).mono ?_ ?_
    · rintro _ c' ⟨hregular, htech, -⟩
      exact ⟨hregular, htech⟩
    · rintro _ c' rfl
      exact ⟨h, rfl⟩

/-- Cells that come about from an empty one by any calls with checked arguments, in whatever way each of them ends. Their
technologies and grids are loaded ones, and their masters come about alike. -/
inductive Reachable : Cell → Prop
  | empty {tech : Shared Tech} (h : tech.value.Loaded) (name : String) (mode : Mode) :
      Reachable (CellOf.empty tech name mode)
  | withGrid {c c' : Cell} {g : RoutingGrid} (h : Reachable c) (hloaded : g.Loaded) (hg : c.withGrid g = .ok c') :
      Reachable c'
  | call {c : Cell} {call : CellCall} (h : Reachable c) (hcall : call.Checked)
      (hmasters : ∀ m ∈ call.masters, Reachable m.cell) : Reachable (call.edit.leaves c)

theorem Reachable.regular (h : Reachable c) : c.Regular fun m => Reachable m.cell := by
  induction h with
  | empty h name mode => exact regular_empty h name mode
  | withGrid h hloaded hg ih => exact ih.withGrid hloaded hg
  | call h hcall hmasters ih ihmasters =>
      exact (ih.call hcall fun m hm => ⟨(ihmasters m hm).toLayersFit, fun _ => hmasters m hm⟩).1

theorem Reachable.offers {m : Master} (h : Reachable m.cell) : c.Offers (fun m => Reachable m.cell) m :=
  ⟨h.regular.toLayersFit, fun _ => h⟩

/-- The box of a key that the technology does not name is empty, in the cell and in all masters that it binds. -/
theorem Reachable.box_eq_empty (h : Reachable c) {key : LayerKey} (hkey : c.tech.value.checkKey key ≠ .ok ()) :
    c.box key = .empty := by
  induction c using bound_induction with
  | hstep c ih =>
      have hregular := h.regular
      have hlayer : c.layerBox key = .empty := by
        rw [layerBox]
        cases hg : c.layers.get? key with
        | none => rfl
        | some g => exact absurd (hregular.named key g hg) hkey
      have hinstance : ∀ i ∈ c.instances, i.box key = .empty := by
        intro i hi
        cases hmaster : i.master with
        | ref r => rw [InstanceOf.box, hmaster]
        | bound m =>
            have hbound : i.bound? = some m := by rw [InstanceOf.bound?, hmaster]
            obtain ⟨hm, htech, -⟩ := hregular.masters i hi m hbound
            have hbox := ih i hi m hbound hm (htech ▸ hkey)
            simp only [InstanceOf.box, hmaster, box_master, hbox]
            rfl
      refine le_antisymm (box_le_iff.2 ⟨le_of_eq hlayer, fun i hi => le_of_eq (hinstance i hi)⟩) ?_
      exact hlayer ▸ (box_le_iff.1 (le_refl (c.box key))).1

/-- All parts of a reachable cell stand where they belong, its instances are found under their own names, and a key that
the technology does not name has an empty box. -/
theorem Reachable.structured (h : Reachable c) :
    c.Structured ∧ (∀ i ∈ c.instances, c.instance? i.name = some i) ∧
      ∀ key, c.tech.value.checkKey key ≠ .ok () → c.box key = .empty :=
  ⟨h.regular.toStructured, fun _ hi => h.regular.instances.instance?_eq_some_iff.2 ⟨hi, rfl⟩, fun _ hkey => h.box_eq_empty hkey⟩

/-- The cell that calls leave one after the other, in whatever way each of them ends. -/
def run (calls : List CellCall) (c : Cell) : Cell := calls.foldl (fun c call => call.edit.leaves c) c

theorem Reachable.run (h : Reachable c) {calls : List CellCall}
    (hcalls : ∀ call ∈ calls, call.Checked ∧ ∀ m ∈ call.masters, Reachable m.cell) : Reachable (run calls c) := by
  induction calls generalizing c with
  | nil => exact h
  | cons call rest ih =>
      obtain ⟨⟨hcall, hmasters⟩, hrest⟩ := List.forall_mem_cons.1 hcalls
      exact ih (h.call hcall hmasters) hrest

end CellOf

end Library

open scoped ExactPolygons

namespace CellOf

/-- The rules of a technology of two layers and a via that draws its pins. -/
def stackRules : TechRules where
  layers := .ofList [("M1", 1), ("M2", 2)]
  purposes := .ofList [("drawing", 0), ("pin", 5)]
  viaLayers := .ofList [("V1", ("M1", "M2"))]
  defaultPurpose := "drawing"
  pinPurpose := "pin"
  drawPins := true
  layerTypes := .empty
  minSpace := .empty
  lineEnd := .empty
  sameColor := none
  vias := .empty

/-- The technology of these rules. -/
def stackTech : Shared Tech where
  serial := 1
  value := {
    layers := stackRules.layers
    purposes := stackRules.purposes
    viaLayers := .ofList [("V1", (1, 2))]
    layerTypes := .empty
    minSpace := .empty
    lineEnd := .empty
    sameColor := none
    defaultPurpose := 0
    pinPurpose := 5
    drawPins := true
    viaRules := .empty }

theorem loaded_stackTech : stackTech.value.Loaded := ⟨stackRules, by decide +kernel⟩

/-- A cell of one rectangle on the lower layer. -/
def plate (width height : Int) : Cell :=
  run [.op (.shape ⟨⟨1, 0⟩, .rect (.ofCoords 0 0 width height), true⟩)] (.empty stackTech "plate" .poly90)

theorem reachable_plate (width height : Int) : Reachable (plate width height) := by
  refine (Reachable.empty loaded_stackTech "plate" .poly90).run ?_
  simp [CellCall.Checked, CellCall.masters, CellOp.masters, Shape.proper_rect]

/-- The pin of a cell. -/
def stackPin : Pin := ⟨1, "a", "a", ⟨⟨0, 0⟩, ⟨2, 2⟩⟩⟩

/-- A pin, a via that is drawn, a blockage, a plate that is replaced by another one, and a more general mode; and a
rectangle on a layer without a name, which is refused. -/
def stackCalls : List CellCall :=
  [.op (.pin stackPin),
    .op (.via ⟨⟨⟨⟨3, 3⟩, .r0⟩, "V1", ⟨1, 1, ⟨2, 2⟩, ⟨0, 0⟩, ⟨⟨1, 1⟩, ⟨0, 0⟩⟩, ⟨⟨1, 1⟩, ⟨0, 0⟩⟩⟩⟩, some ⟨true, false⟩⟩),
    .op (.blockage ⟨.routing, some 2, [⟨0, 0⟩, ⟨4, 0⟩, ⟨4, 4⟩]⟩),
    .op (.inst ⟨"I0", .bound (.mk 1 (plate 4 2)), ⟨⟨10, 0⟩, .r90⟩, ⟨2, 1, 5, 0⟩⟩),
    .op (.shape ⟨⟨9, 0⟩, .rect (.ofCoords 0 0 1 1), true⟩),
    .op (.setMaster "I0" (.mk 2 (plate 2 4))),
    .op (.setMode .poly)]

/-- The cell that these calls leave. -/
def stack : Cell := run stackCalls (.empty stackTech "stack" .poly90)

theorem reachable_stack : Reachable stack := by
  refine (Reachable.empty loaded_stackTech "stack" .poly90).run ?_
  simp only [stackCalls, List.forall_mem_cons, CellCall.Checked, CellCall.masters, CellOp.masters,
    InstanceOf.bound?, Option.toList_some, List.not_mem_nil, false_imp_iff, implies_true, and_true, true_and,
    reduceCtorEq, Shape.proper_rect, Master.cell]
  exact ⟨reachable_plate 4 2, reachable_plate 2 4⟩

theorem structured_stack :
    Reachable stack ∧ stack.mode = .poly ∧ stack.Shows stackPin ∧ (∃ i, stack.instance? "I0" = some i) ∧ stack.box ⟨9, 0⟩ = .empty := by
  obtain ⟨hstructured, -, hbox⟩ := reachable_stack.structured
  have hpin : stackPin ∈ stack.pinsOn 1 := by decide +kernel
  refine ⟨reachable_stack, by decide +kernel, hstructured.drawnPins (by decide +kernel) 1 stackPin hpin, ?_,
    hbox ⟨9, 0⟩ (by decide +kernel)⟩
  exact Option.isSome_iff_exists.1 (by decide +kernel)

end CellOf

end MaskLayout
