import MaskLayout.Cell.Builder
import MaskLayout.Proofs.Cell.Layer
import MaskLayout.Proofs.KeyMap

/-!
# Changes of a cell

Changes of a cell that succeed. Every change either adds to layers, which keeps what was drawn and merged there, or
makes all layers anew from what was drawn on them.
-/

namespace MaskLayout

variable [PolygonLibrary]

namespace Edit

variable {α β : Type} {c c' d : Cell}

theorem bind_iff {x : Edit α} {f : α → Edit β} {b : β} :
    (x >>= f) c = .ok b c' ↔ ∃ a d, x c = .ok a d ∧ f a d = .ok b c' := by
  change EStateM.bind x f c = .ok b c' ↔ _
  simp only [EStateM.bind]
  cases hx : x c with
  | error e d => simp
  | ok a d => simp

@[simp] theorem pure_iff {a b : α} : (pure a : Edit α) c = .ok b c' ↔ a = b ∧ c = c' := by
  change EStateM.Result.ok a c = .ok b c' ↔ _
  simp

@[simp] theorem get_iff : (get : Edit Cell) c = .ok d c' ↔ c = d ∧ c = c' := by
  change EStateM.Result.ok c c = .ok d c' ↔ _
  simp

@[simp] theorem set_iff {u : PUnit} : (set d : Edit PUnit) c = .ok u c' ↔ d = c' := by
  change EStateM.Result.ok PUnit.unit d = .ok u c' ↔ _
  simp

@[simp] theorem modify_iff {f : Cell → Cell} {u : PUnit} : (modify f : Edit PUnit) c = .ok u c' ↔ f c = c' := by
  change EStateM.Result.ok PUnit.unit (f c) = .ok u c' ↔ _
  simp

@[simp] theorem throw_iff {e : LayoutError} {a : α} : (throw e : Edit α) c = .ok a c' ↔ False := by
  change EStateM.Result.error e c = .ok a c' ↔ _
  simp

@[simp] theorem check_iff {x : Except LayoutError α} {a : α} : check x c = .ok a c' ↔ x = .ok a ∧ c = c' := by
  cases x <;> simp [check]

/-- What each step keeps as the list is worked through holds at the end. -/
theorem forM_induction {f : α → Edit Unit} {l : List α} (P : List α → Cell → Prop) (hstart : P [] c)
    (hstep : ∀ done a rest d d', done ++ a :: rest = l → P done d → f a d = .ok () d' → P (done ++ [a]) d')
    (h : l.forM f c = .ok () c') : P l c' := by
  suffices haux : ∀ rest done d, done ++ rest = l → P done d → rest.forM f d = .ok () c' → P l c' from
    haux l [] c rfl hstart h
  intro rest
  induction rest with
  | nil =>
      intro done d hl hd hrun
      obtain ⟨-, rfl⟩ := pure_iff.1 hrun
      rw [List.append_nil] at hl
      exact hl ▸ hd
  | cons a rest ih =>
      intro done d hl hd hrun
      obtain ⟨_, e, hfirst, hrest⟩ := bind_iff.1 (show (f a >>= fun _ => rest.forM f) d = .ok () c' from hrun)
      exact ih (done ++ [a]) e (by rw [List.append_assoc, List.singleton_append, hl])
        (hstep done a rest d e hl hd hfirst) hrest

end Edit

namespace CellOf

/-- The layer for a key, which is empty in the mode of the cell as long as nothing was put there. -/
def layerAt (c : Cell) (key : LayerKey) : LayerGeometry := (c.layers.get? key).getD (.empty c.mode)

variable {c : Cell} {key : LayerKey} {g : LayerGeometry}

theorem layerAt_insert_self : layerAt { c with layers := c.layers.insert key g } key = g := by
  simp [layerAt]

theorem layerAt_insert_of_ne {k : LayerKey} (h : k ≠ key) :
    layerAt { c with layers := c.layers.insert key g } k = c.layerAt k := by
  simp [layerAt, KeyMap.get?_insert_of_ne h]

end CellOf

namespace LayerGeometry

/-- `Grows key g drawn merged g'` says that `g'` comes from `g` by drawing the shapes `drawn` and by merging the
elements `merged`. -/
structure Grows (key : LayerKey) (g : LayerGeometry) (drawn : List Drawn) (merged : Set Element)
    (g' : LayerGeometry) : Prop where
  mode : g'.mode = g.mode
  drawn : g'.drawn = g.drawn ++ drawn
  composed : ∀ before, Composed key g before → Composed key g' (merged ∪ before)

variable {key : LayerKey} {g g' g'' : LayerGeometry} {drawn drawn' : List Drawn} {merged merged' : Set Element}

theorem Grows.refl (key : LayerKey) (g : LayerGeometry) : Grows key g [] ∅ g where
  mode := rfl
  drawn := (List.append_nil _).symm
  composed before h := by rwa [Set.empty_union]

theorem Grows.trans (h : Grows key g drawn merged g') (h' : Grows key g' drawn' merged' g'') :
    Grows key g (drawn ++ drawn') (merged' ∪ merged) g'' where
  mode := h'.mode.trans h.mode
  drawn := by rw [h'.drawn, h.drawn, List.append_assoc]
  composed before hg := by
    rw [Set.union_assoc]
    exact h'.composed _ (h.composed before hg)

theorem Grows.of_add {s : Shape} {horiz : Bool} (hs : s.Proper) (h : g.add s horiz = .ok g') :
    Grows key g [⟨s, horiz⟩] ∅ g' := by
  obtain ⟨data, hdata, hg⟩ := add_ok h
  refine ⟨?_, ?_, fun before hcomposed => ?_⟩
  · rw [hg]
    exact (Coverage.insert_ok hdata).1
  · rw [hg]
  · rw [Set.empty_union]
    exact hcomposed.add hs h

theorem Grows.of_record {master : LayerGeometry} {e : Element}
    (hmaster : e.master.cell.layers.get? key = some master) (h : g.record master e.xform = .ok g') :
    Grows key g [] {e} g' := by
  obtain ⟨-, data, hdata, hg⟩ := record_ok h
  refine ⟨?_, ?_, fun before hcomposed => ?_⟩
  · rw [hg]
    exact (Coverage.merge_ok hdata).1
  · rw [hg, List.append_nil]
  · rw [Set.singleton_union]
    exact hcomposed.record hmaster h

end LayerGeometry

namespace CellOf

/-- `c.Adds drawn merged c'` says that `c'` comes from `c` by drawing shapes and merging elements, those given for
each key, and by nothing that changes the mode or the instances. -/
structure Adds (c : Cell) (drawn : LayerKey → List Drawn) (merged : LayerKey → Set Element) (c' : Cell) : Prop where
  mode : c'.mode = c.mode
  instanceMap : c'.instanceMap = c.instanceMap
  layers : ∀ key, (c.layerAt key).Grows key (drawn key) (merged key) (c'.layerAt key)

variable {c c' c'' : Cell} {drawn drawn' : LayerKey → List Drawn} {merged merged' : LayerKey → Set Element}

theorem Adds.instances (h : c.Adds drawn merged c') : c'.instances = c.instances := by
  rw [CellOf.instances, CellOf.instances, h.instanceMap]

theorem Adds.of_eq (hmode : c'.mode = c.mode) (hmap : c'.instanceMap = c.instanceMap)
    (hlayers : c'.layers = c.layers) : c.Adds (fun _ => []) (fun _ => ∅) c' where
  mode := hmode
  instanceMap := hmap
  layers key := by
    have hat : c'.layerAt key = c.layerAt key := by rw [layerAt, layerAt, hlayers, hmode]
    rw [hat]
    exact .refl key _

theorem Adds.trans (h : c.Adds drawn merged c') (h' : c'.Adds drawn' merged' c'') :
    c.Adds (fun key => drawn key ++ drawn' key) (fun key => merged' key ∪ merged key) c'' where
  mode := h'.mode.trans h.mode
  instanceMap := h'.instanceMap.trans h.instanceMap
  layers key := (h.layers key).trans (h'.layers key)

theorem Adds.of_layer {key : LayerKey} {g : LayerGeometry} {new : List Drawn} {elements : Set Element}
    (h : (c.layerAt key).Grows key new elements g) :
    c.Adds (fun k => if k = key then new else []) (fun k => {e ∈ elements | k = key})
      { c with layers := c.layers.insert key g } where
  mode := rfl
  instanceMap := rfl
  layers k := by
    by_cases hk : k = key
    · subst hk
      rw [layerAt_insert_self]
      simpa using h
    · rw [layerAt_insert_of_ne hk]
      simpa [hk] using LayerGeometry.Grows.refl k (c.layerAt k)

end CellOf

namespace Edit

open CellOf

variable {α β : Type} {c c' : Cell} {key : LayerKey}

theorem onLayer_iff {f : LayerGeometry → Except LayoutError LayerGeometry} {u : Unit} :
    onLayer key f c = .ok u c' ↔
      ∃ g, f (c.layerAt key) = .ok g ∧ c' = { c with layers := c.layers.insert key g } := by
  simp only [onLayer, bind_iff, get_iff, set_iff, check_iff]
  constructor
  · rintro ⟨_, _, ⟨rfl, rfl⟩, _, _, rfl, g, _, ⟨hg, rfl⟩, rfl⟩
    exact ⟨g, hg, rfl⟩
  · rintro ⟨g, hg, rfl⟩
    exact ⟨c, c, ⟨rfl, rfl⟩, (), _, rfl, g, _, ⟨hg, rfl⟩, rfl⟩

/-- A change that draws shapes at most. -/
def Draws (e : Edit α) : Prop :=
  ∀ c a c', e c = .ok a c' → ∃ drawn, c.Adds drawn (fun _ => ∅) c'

theorem draws_pure (a : α) : Draws (pure a) := by
  intro c b c' h
  obtain ⟨-, rfl⟩ := pure_iff.1 h
  exact ⟨_, .of_eq rfl rfl rfl⟩

theorem draws_get : Draws get := by
  intro c d c' h
  obtain ⟨-, rfl⟩ := get_iff.1 h
  exact ⟨_, .of_eq rfl rfl rfl⟩

theorem draws_throw (e : LayoutError) : Draws (throw e : Edit α) :=
  fun _ _ _ h => (throw_iff.1 h).elim

theorem draws_check (x : Except LayoutError α) : Draws (check x) := by
  intro c a c' h
  obtain ⟨-, rfl⟩ := check_iff.1 h
  exact ⟨_, .of_eq rfl rfl rfl⟩

theorem draws_modify {f : Cell → Cell}
    (hf : ∀ c, (f c).mode = c.mode ∧ (f c).instanceMap = c.instanceMap ∧ (f c).layers = c.layers) :
    Draws (modify f) := by
  intro c a c' h
  obtain rfl := modify_iff.1 h
  obtain ⟨hmode, hmap, hlayers⟩ := hf c
  exact ⟨_, .of_eq hmode hmap hlayers⟩

theorem Draws.bind {x : Edit α} {f : α → Edit β} (hx : Draws x) (hf : ∀ a, Draws (f a)) : Draws (x >>= f) := by
  intro c b c' h
  obtain ⟨a, d, hfirst, hrest⟩ := bind_iff.1 h
  obtain ⟨drawn, hdrawn⟩ := hx c a d hfirst
  obtain ⟨drawn', hdrawn'⟩ := hf a d b c' hrest
  exact ⟨_, by simpa using hdrawn.trans hdrawn'⟩

theorem Draws.forM {f : α → Edit Unit} {l : List α} (hf : ∀ a, Draws (f a)) : Draws (l.forM f) := by
  intro c _ c' h
  refine forM_induction (fun _ d => ∃ drawn, c.Adds drawn (fun _ => ∅) d) ⟨_, .of_eq rfl rfl rfl⟩ ?_ h
  rintro done a rest d d' - ⟨drawn, hdrawn⟩ hrun
  obtain ⟨drawn', hdrawn'⟩ := hf a d () d' hrun
  exact ⟨_, by simpa using hdrawn.trans hdrawn'⟩

theorem draws_draw {s : Shape} (hs : s.Proper) (key : LayerKey) (horiz : Bool) : Draws (draw key s horiz) := by
  intro c _ c' h
  obtain ⟨g, hg, rfl⟩ := onLayer_iff.1 h
  exact ⟨_, by simpa using Adds.of_layer (.of_add hs hg)⟩

theorem draws_shape {o : ShapeOn} (ho : o.shape.Proper) : Draws (CellObject.addTo o) := by
  refine draws_get.bind fun c => (draws_check _).bind fun _ => ?_
  have hdraw : Draws (do draw o.key o.shape o.horiz; pure o) := (draws_draw ho _ _).bind fun _ => draws_pure o
  dsimp only
  split
  · exact (draws_throw _).bind fun _ => hdraw
  · exact hdraw

theorem draws_pin (o : Pin) : Draws (CellObject.addTo o) := by
  refine draws_get.bind fun c => (draws_check _).bind fun _ => ?_
  split
  · exact draws_throw _
  · rename_i r hr
    have hpins : Draws (do
        modify fun c => { c with pins := c.pins.insert o.layer (c.pinsOn o.layer ++ [o]) }
        pure o) :=
      Draws.bind (draws_modify fun _ => ⟨rfl, rfl, rfl⟩) fun _ => draws_pure o
    dsimp only
    split
    · exact (draws_draw (Shape.proper_rect r) _ _).bind fun _ => hpins
    · exact hpins

theorem draws_label (o : Label) : Draws (CellObject.addTo o) := by
  intro c a c' h
  simp only [CellObject.addTo, bind_iff, get_iff, check_iff, set_iff, pure_iff] at h
  obtain ⟨_, _, ⟨rfl, rfl⟩, _, _, ⟨-, rfl⟩, _, _, rfl, -, rfl⟩ := h
  exact ⟨_, .of_eq rfl rfl rfl⟩

theorem draws_blockage (o : Blockage) : Draws (CellObject.addTo o) := by
  intro c a c' h
  simp only [CellObject.addTo, bind_iff, get_iff] at h
  obtain ⟨_, _, ⟨rfl, rfl⟩, h⟩ := h
  cases hlayer : o.layer with
  | none =>
      simp only [hlayer, bind_iff, set_iff, pure_iff] at h
      obtain ⟨_, _, rfl, -, rfl⟩ := h
      exact ⟨_, .of_eq rfl rfl rfl⟩
  | some layer =>
      simp only [hlayer, bind_iff, check_iff, set_iff, pure_iff] at h
      obtain ⟨_, _, ⟨-, rfl⟩, _, _, rfl, -, rfl⟩ := h
      exact ⟨_, .of_eq rfl rfl rfl⟩

theorem draws_boundary (o : Boundary) : Draws (CellObject.addTo o) :=
  Draws.bind (draws_modify fun _ => ⟨rfl, rfl, rfl⟩) fun _ => draws_pure o

theorem draws_via (o : ViaDrawing) : Draws (CellObject.addTo o) := by
  refine draws_get.bind fun c => (draws_check _).bind fun layers => ?_
  have hvias : Draws (do modify fun c => { c with vias := c.vias ++ [o.via] }; pure o) :=
    Draws.bind (draws_modify fun _ => ⟨rfl, rfl, rfl⟩) fun _ => draws_pure o
  dsimp only
  split
  · refine (draws_draw (Shape.proper_rect _) _ _).bind fun _ => ?_
    exact (draws_draw (Shape.proper_rect _) _ _).bind fun _ => hvias
  · exact hvias

theorem Draws.add [CellObject α] {o : α} (h : Draws (CellObject.addTo o)) : Draws (add o) :=
  (h.bind fun _ => draws_pure _).bind fun _ => draws_pure _

theorem draws_addRects (key : LayerKey) (horiz : Bool) (r : Rect) (tiling : Tiling) :
    Draws (addRects key horiz r tiling) :=
  Draws.forM fun _ => Draws.add (draws_shape (Shape.proper_rect _))

theorem draws_addVias (v : Via) (dirs : Option ViaDirs) (tiling : Tiling) : Draws (addVias v dirs tiling) :=
  draws_get.bind fun _ => (draws_check _).bind fun _ => Draws.forM fun _ => (draws_via _).add

theorem draws_addPins (net label : String) (level halfTrack lower upper width count pitch : Int) :
    Draws (addPins net label level halfTrack lower upper width count pitch) :=
  draws_get.bind fun _ => (draws_check _).bind fun _ => (draws_check _).bind fun _ => (draws_check _).bind fun _ =>
    Draws.forM fun _ => (draws_check _).bind fun _ => (draws_pin _).add

theorem draws_addWires (wires : WireArray) : Draws (addWires wires) :=
  draws_get.bind fun _ => (draws_check _).bind fun _ => (draws_check _).bind fun _ => (draws_check _).bind fun _ =>
    Draws.forM fun _ => (draws_check _).bind fun _ => Draws.add (draws_shape (Shape.proper_rect _))

end Edit

end MaskLayout
