import MaskLayout.Cell.Edit
import MaskLayout.Path

/-!
# Adding objects

Adding objects to a cell. An object is proposed first, and is added at once or when the proposal is committed; until
then it can be changed, and a proposal that is dropped leaves nothing behind.
-/

namespace MaskLayout

variable [PolygonLibrary]

/-- What can be added to a cell. Adding may complete the object, as it names an instance. -/
class CellObject (α : Type) where
  addTo : α → Edit α

/-- An object that is being added to a cell. -/
structure Proposal (α : Type) where
  object : α
  committed : Bool

namespace Proposal

variable {α : Type}

/-- Propose an object, and add it at once if `commit` is set. -/
def make [CellObject α] (object : α) (commit : Bool) : Edit (Proposal α) :=
  if commit then do
    let added ← CellObject.addTo object
    return ⟨added, true⟩
  else return ⟨object, false⟩

/-- The object, to be changed while it is not added yet. -/
def editable (p : Proposal α) : Except LayoutError α :=
  if p.committed then .error (.composition .changeCommitted) else .ok p.object

/-- Add the object, which must not be added yet, and answer what was added. -/
def commit [CellObject α] (p : Proposal α) : Edit α :=
  if p.committed then throw (.composition .alreadyCommitted) else CellObject.addTo p.object

end Proposal

instance : CellObject ShapeOn where
  addTo o := do
    let c ← get
    Edit.check (c.tech.value.checkKey o.key)
    if c.mode < o.shape.mode then throw (.representation (.shapeMode o.shape.mode c.mode c.name))
    Edit.draw o.key o.shape o.horiz
    return o

instance : CellObject Pin where
  addTo o := do
    let c ← get
    let _ ← Edit.check (c.tech.value.layerName o.layer)
    match o.box.toRect? with
    | none => throw (.representation (.emptyPin o.net))
    | some r =>
      if c.tech.value.drawPins then
        Edit.draw ⟨o.layer, c.tech.value.pinPurpose⟩ (.rect r) (decide (r.height ≤ r.width))
      modify fun c => { c with pins := c.pins.insert o.layer (c.pinsOn o.layer ++ [o]) }
      return o

instance : CellObject Label where
  addTo o := do
    let c ← get
    Edit.check (c.tech.value.checkKey o.key)
    set { c with labels := c.labels ++ [o] }
    return o

instance : CellObject Blockage where
  addTo o := do
    let c ← get
    match o.layer with
    | some layer =>
      let _ ← Edit.check (c.tech.value.layerName layer)
      set { c with layerBlockages := c.layerBlockages.insert layer (c.blockagesOn layer ++ [o]) }
    | none => set { c with areaBlockages := c.areaBlockages ++ [o] }
    return o

instance : CellObject Boundary where
  addTo o := do
    modify fun c => { c with boundaries := c.boundaries ++ [o] }
    return o

instance : CellObject ViaDrawing where
  addTo o := do
    let c ← get
    let (bot, top) ← Edit.check (c.tech.value.viaLayersOf o.via.id)
    match o.dirs with
    | some dirs =>
      let purpose := c.tech.value.defaultPurpose
      Edit.draw ⟨bot, purpose⟩ (.rect o.via.bottomRect) dirs.bottomHoriz
      Edit.draw ⟨top, purpose⟩ (.rect o.via.topRect) dirs.topHoriz
    | none => pure ()
    modify fun c => { c with vias := c.vias ++ [o.via] }
    return o

instance : CellObject Instance where
  addTo o := do
    let c ← get
    if o.name ≠ "" ∧ (c.instance? o.name).isSome then
      throw (.composition (.duplicateInstance o.name c.name))
    match o.bound? with
    | some m => Edit.checkMaster o.name m
    | none => pure ()
    let name ← if o.name = "" then Edit.nextName else pure o.name
    let o := { o with name }
    Edit.recordInstance o
    modify fun c => c.withInstance o.name o
    return o

/-- The rectangle of a wire across a track: from `lower` to `upper` along it, and `width` wide around its center. -/
def TrackLevel.wireRect (t : TrackLevel) (lower upper center width : Int) : Rect :=
  let lo := center - width.tdiv 2
  Rect.ofDir t.dir lower upper lo (lo + width)

namespace Edit

/-- Add an object at once. -/
def add {α : Type} [CellObject α] (object : α) : Edit Unit := do
  let _ ← Proposal.make object true

/-- Propose a wire along a center line. A line that no wire follows is refused before anything is proposed. -/
def proposePath (key : LayerKey) (horiz : Bool) (points : List Point) (halfWidth : Int) (styles : PathStyles)
    (commit : Bool) : Edit (Proposal ShapeOn) := do
  let s ← check (Shape.ofPath points halfWidth styles)
  Proposal.make ⟨key, s, horiz⟩ commit

/-- Propose a bus of parallel wires along a center line. -/
def proposeBus (key : LayerKey) (horiz : Bool) (points : List Point) (widths spaces : List Int) (styles : PathStyles)
    (commit : Bool) : Edit (Proposal ShapeOn) := do
  let s ← check (Shape.ofBus points widths spaces styles)
  Proposal.make ⟨key, s, horiz⟩ commit

/-- Add copies of a rectangle. -/
def addRects (key : LayerKey) (horiz : Bool) (r : Rect) (tiling : Tiling) : Edit Unit :=
  tiling.offsets.forM fun d => add (ShapeOn.mk key (.rect (r.transform (.translate d))) horiz)

/-- Add copies of a via, whose id is checked before any of them. -/
def addVias (v : Via) (dirs : Option ViaDirs) (tiling : Tiling) : Edit Unit := do
  let c ← get
  let _ ← check (c.tech.value.viaLayersOf v.id)
  tiling.offsets.forM fun d => add (ViaDrawing.mk { v with xform := v.xform.moveBy d } dirs)

/-- Add pins over `count` bundles of tracks, each over `width` tracks and `pitch` half-tracks from the next. A pin is
on the layer of its track's color. -/
def addPins (net label : String) (level halfTrack lower upper width count pitch : Int) : Edit Unit := do
  let c ← get
  let g ← check c.theGrid
  let t ← check (g.trackLevel level)
  let w ← check (t.wireWidth width)
  (List.range count.toNat).forM fun (i : Nat) => do
    let h := halfTrack + i * pitch
    let key ← check (g.layerKey level h)
    add (Pin.mk key.layer net label (t.wireRect lower upper (t.center h) w).toBox)

/-- Add the wires of an array, each on the layer of its track's color. -/
def addWires (wires : WireArray) : Edit Unit := do
  let c ← get
  let g ← check c.theGrid
  let t ← check (g.trackLevel wires.tracks.level)
  let w ← check (t.wireWidth wires.tracks.width)
  wires.tracks.halfTracks.forM fun h => do
    let key ← check (g.layerKey wires.tracks.level h)
    let r := t.wireRect wires.lower wires.upper (t.center h) w
    add (ShapeOn.mk key (.rect r) (t.dir == .horiz))

end Edit

end MaskLayout
