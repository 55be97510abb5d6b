import MaskLayout.Proofs.Cell.Admission
import MaskLayout.Proofs.Cell.Built
import MaskLayout.Proofs.Cell.Ends
import MaskLayout.Proofs.Grid.Colors

/-!
# Regular cells

Regular cells. All parts of such a cell stand where they belong: a layer has the mode of the cell, and every key, layer
and via id that is used has a name in the technology. Each kind of change of a cell keeps it regular, and it is stated
here what the change has to provide for that.
-/

namespace MaskLayout

variable [PolygonLibrary]

namespace CellOf

open InstanceOf

/-- Whether the layers of a cell fit it: each has the mode of the cell, and its key passes the check of keys. -/
structure LayersFit (c : Cell) : Prop where
  mode : ∀ key, (c.layerAt key).mode = c.mode
  named : ∀ key g, c.layers.get? key = some g → c.tech.value.checkKey key = .ok ()

/-- Whether the box of a pin is among the shapes that were drawn on the pin purpose of its layer. -/
def Shows (c : Cell) (p : Pin) : Prop :=
  ∃ d ∈ (c.layerAt ⟨p.layer, c.tech.value.pinPurpose⟩).drawn, ∃ r : Rect, d.shape = .rect r ∧ r.toBox = p.box

/-- Whether every part of a cell stands where it belongs. Instances stand under their own names. -/
structure Structured (c : Cell) : Prop extends LayersFit c where
  labels : ∀ l ∈ c.labels, c.tech.value.checkKey l.key = .ok ()
  instances : Named c.instanceMap
  pins : ∀ layer, ∀ p ∈ c.pinsOn layer, p.layer = layer ∧ ∃ name, c.tech.value.layerName layer = .ok name
  layerBlockages : ∀ layer, ∀ b ∈ c.blockagesOn layer,
    b.layer = some layer ∧ ∃ name, c.tech.value.layerName layer = .ok name
  areaBlockages : ∀ b ∈ c.areaBlockages, b.layer = none ∧ b.type = .placement
  vias : ∀ v ∈ c.vias, ∃ layers, c.tech.value.viaLayersOf v.id = .ok layers
  drawnPins : c.tech.value.drawPins = true → ∀ layer, ∀ p ∈ c.pinsOn layer, c.Shows p

/-- Whether the master of an instance, if it is bound to one, has the property `B`, the technology of the cell, and
layers that fit it. -/
def Binds (B : Master → Prop) (c : Cell) (i : Instance) : Prop :=
  ∀ m, i.bound? = some m → B m ∧ m.cell.tech = c.tech ∧ m.cell.LayersFit

/-- `c.Regular B` says that every part of `c` stands where it belongs, that its technology and its grid were loaded,
that its layers are composed of shapes and masters, and that the bound masters have the property `B`. -/
structure Regular (B : Master → Prop) (c : Cell) : Prop extends Structured c where
  tech : c.tech.value.Loaded
  grid : ∀ g, c.grid = some g → g.Loaded ∧ g.tech = c.tech
  composed : ∀ key, ∃ merged, LayerGeometry.Composed key (c.layerAt key) merged
  masters : ∀ i ∈ c.instances, c.Binds B i

/-- `c.Keeps B c'` says that `c'` is regular and has the technology and the mode of `c`. -/
structure Keeps (B : Master → Prop) (c c' : Cell) : Prop where
  regular : c'.Regular B
  tech : c'.tech = c.tech
  mode : c'.mode = c.mode

variable {B : Master → Prop} {c c' d : Cell} {key : LayerKey}

theorem Regular.keeps (h : c.Regular B) : c.Keeps B c := ⟨h, rfl, rfl⟩

theorem Keeps.trans (h : c.Keeps B c') (h' : c'.Keeps B d) : c.Keeps B d :=
  ⟨h'.regular, h'.tech.trans h.tech, h'.mode.trans h.mode⟩

theorem forall_layerAt_iff {p : LayerGeometry → Prop} (hempty : p (.empty c.mode)) :
    (∀ key, p (c.layerAt key)) ↔ ∀ key g, c.layers.get? key = some g → p g := by
  refine forall_congr' fun key => ?_
  cases hg : c.layers.get? key <;> simp [layerAt, hg, hempty]

theorem regular_empty {tech : Shared Tech} (h : tech.value.Loaded) (name : String) (mode : Mode) :
    (CellOf.empty tech name mode).Regular B where
  mode key := Coverage.mode_empty mode
  named key g hg := by cases hg
  labels l hl := (List.not_mem_nil hl).elim
  instances := named_nil
  pins layer p hp := (List.not_mem_nil hp).elim
  layerBlockages layer b hb := (List.not_mem_nil hb).elim
  areaBlockages b hb := (List.not_mem_nil hb).elim
  vias v hv := (List.not_mem_nil hv).elim
  drawnPins _ layer p hp := (List.not_mem_nil hp).elim
  tech := h
  grid g hg := by cases hg
  composed key := ⟨∅, .empty mode⟩
  masters i hi := (List.not_mem_nil hi).elim

theorem Regular.withGrid (h : c.Regular B) {g : RoutingGrid} (hloaded : g.Loaded) (hg : c.withGrid g = .ok c') :
    c'.Regular B := by
  simp only [CellOf.withGrid] at hg
  split at hg
  · rename_i htech
    cases hg
    refine { h with grid := ?_ }
    rintro _ ⟨⟩
    exact ⟨hloaded, htech⟩
  · cases hg

/-- New layers have to fit the cell, and to keep what was drawn. -/
theorem Regular.withLayers (h : c.Regular B) {layers : KeyMap LayerKey LayerGeometry} {mode : Mode}
    (hfit : LayersFit { c with layers, mode })
    (hdrawn : ∀ key, (c.layerAt key).drawn ⊆ (layerAt { c with layers, mode } key).drawn)
    (hcomposed : ∀ key, ∃ merged, LayerGeometry.Composed key (layerAt { c with layers, mode } key) merged) :
    Regular B { c with layers, mode } :=
  { h with
    toLayersFit := hfit
    composed := hcomposed
    drawnPins := fun hdraw layer p hp => by
      obtain ⟨d, hd, hbox⟩ := h.drawnPins hdraw layer p hp
      exact ⟨d, hdrawn _ hd, hbox⟩ }

theorem Regular.insertLayer (h : c.Regular B) {g : LayerGeometry} (hkey : c.tech.value.checkKey key = .ok ())
    (hmode : g.mode = c.mode) (hdrawn : (c.layerAt key).drawn ⊆ g.drawn)
    (hcomposed : ∃ merged, LayerGeometry.Composed key g merged) :
    c.Keeps B { c with layers := c.layers.insert key g } := by
  suffices hregular : Regular B { c with layers := c.layers.insert key g, mode := c.mode } from ⟨hregular, rfl, rfl⟩
  refine h.withLayers ⟨fun k => ?_, fun k g' hg' => ?_⟩ (fun k => ?_) fun k => ?_
  · by_cases hk : k = key
    · subst hk
      rwa [layerAt_insert_self]
    · rw [layerAt_insert_of_ne hk]
      exact h.mode k
  · by_cases hk : k = key
    · exact hk ▸ hkey
    · rw [KeyMap.get?_insert_of_ne hk] at hg'
      exact h.named k g' hg'
  · by_cases hk : k = key
    · subst hk
      rwa [layerAt_insert_self]
    · rw [layerAt_insert_of_ne hk]
      exact List.Subset.refl _
  · by_cases hk : k = key
    · subst hk
      rwa [layerAt_insert_self]
    · rw [layerAt_insert_of_ne hk]
      exact h.composed k

/-- What grows on a layer fits the cell if the key does. -/
theorem Regular.grow (h : c.Regular B) {drawn : List Drawn} {merged : Set Element} {g : LayerGeometry}
    (hkey : c.tech.value.checkKey key = .ok ()) (hg : (c.layerAt key).Grows key drawn merged g) :
    c.Keeps B { c with layers := c.layers.insert key g } := by
  obtain ⟨before, hbefore⟩ := h.composed key
  refine h.insertLayer hkey (hg.mode.trans (h.mode key)) ?_ ⟨_, hg.composed before hbefore⟩
  rw [hg.drawn]
  exact List.subset_append_left _ _

theorem Regular.withPin (h : c.Regular B) {p : Pin} {name : String} (hlayer : c.tech.value.layerName p.layer = .ok name)
    (hshows : c.tech.value.drawPins = true → c.Shows p) :
    c.Keeps B { c with pins := c.pins.insert p.layer (c.pinsOn p.layer ++ [p]) } := by
  have hpins {layer : Int} {q : Pin}
      (hq : q ∈ pinsOn { c with pins := c.pins.insert p.layer (c.pinsOn p.layer ++ [p]) } layer) :
      q ∈ c.pinsOn layer ∨ layer = p.layer ∧ q = p := KeyMap.mem_getD_insert_append.1 hq
  refine ⟨{ h with pins := fun layer q hq => ?_, drawnPins := fun hdraw layer q hq => ?_ }, rfl, rfl⟩
  · rcases hpins hq with hq | ⟨rfl, rfl⟩
    · exact h.pins layer q hq
    · exact ⟨rfl, name, hlayer⟩
  · rcases hpins hq with hq | ⟨rfl, rfl⟩
    · exact h.drawnPins hdraw layer q hq
    · exact hshows hdraw

theorem Regular.withLabel (h : c.Regular B) {l : Label} (hkey : c.tech.value.checkKey l.key = .ok ()) :
    c.Keeps B { c with labels := c.labels ++ [l] } :=
  ⟨{ h with labels := List.forall_mem_append.2 ⟨h.labels, List.forall_mem_singleton.2 hkey⟩ }, rfl, rfl⟩

theorem Regular.withLayerBlockage (h : c.Regular B) {b : Blockage} {layer : Int} {name : String}
    (hb : b.layer = some layer) (hlayer : c.tech.value.layerName layer = .ok name) :
    c.Keeps B { c with layerBlockages := c.layerBlockages.insert layer (c.blockagesOn layer ++ [b]) } := by
  refine ⟨{ h with layerBlockages := fun l b' hb' => ?_ }, rfl, rfl⟩
  rcases KeyMap.mem_getD_insert_append.1 hb' with hb' | ⟨rfl, rfl⟩
  · exact h.layerBlockages l b' hb'
  · exact ⟨hb, name, hlayer⟩

theorem Regular.withAreaBlockage (h : c.Regular B) {b : Blockage} (hb : b.layer = none ∧ b.type = .placement) :
    c.Keeps B { c with areaBlockages := c.areaBlockages ++ [b] } :=
  ⟨{ h with areaBlockages := List.forall_mem_append.2 ⟨h.areaBlockages, List.forall_mem_singleton.2 hb⟩ }, rfl, rfl⟩

theorem Regular.withVia (h : c.Regular B) {v : Via} {layers : Int × Int}
    (hv : c.tech.value.viaLayersOf v.id = .ok layers) : c.Keeps B { c with vias := c.vias ++ [v] } :=
  ⟨{ h with vias := List.forall_mem_append.2 ⟨h.vias, List.forall_mem_singleton.2 ⟨layers, hv⟩⟩ }, rfl, rfl⟩

theorem Regular.withBoundary (h : c.Regular B) (b : Boundary) : c.Keeps B { c with boundaries := c.boundaries ++ [b] } :=
  ⟨{ h with }, rfl, rfl⟩

theorem Regular.withNameCount (h : c.Regular B) (n : Nat) : c.Keeps B { c with nameCount := n } :=
  ⟨{ h with }, rfl, rfl⟩

theorem Regular.withName (h : c.Regular B) (name : String) : c.Keeps B { c with name } :=
  ⟨{ h with }, rfl, rfl⟩

/-- An instance takes its place under its name, if the cell may bind its master. -/
theorem Regular.withInstance (h : c.Regular B) {i : Instance} {name : String} (hname : i.name = name)
    (hi : c.Binds B i) : c.Keeps B (c.withInstance name i) := by
  refine ⟨{ h with instances := h.instances.withInstance hname, masters := fun j hj => ?_ }, rfl, rfl⟩
  rcases (h.instances.mem_withInstance hname).1 hj with rfl | ⟨hj, -⟩
  · exact hi
  · exact h.masters j hj

theorem Regular.withoutInstance (h : c.Regular B) (name : String) : c.Keeps B (c.withoutInstance name) := by
  refine ⟨{ h with instances := h.instances.withoutInstance name, masters := fun j hj => ?_ }, rfl, rfl⟩
  exact h.masters j (h.instances.mem_withoutInstance.1 hj).1

end CellOf

end MaskLayout
