import MaskLayout.Region.Coverage

/-!
# The shapes on a layer

All shapes on one layer of a cell, seen twice: merged as a `Coverage`, and one by one for queries. Shapes that
come from masters are merged and not listed.
-/

namespace MaskLayout

/-- A shape as it was drawn, and whether it prefers to run horizontally. -/
structure Drawn where
  shape : Shape
  horiz : Bool
deriving DecidableEq

/-- The box under which a shape is found, with its corners in order. -/
def Drawn.envelope (d : Drawn) : Box := .ofCorners d.shape.box.lo d.shape.box.hi

/-- A spatial index, seen from the shapes that were entered one after another: in which order it lists them, and which
ones it offers for a search box. -/
structure ShapeIndex where
  listed : List Drawn → List Drawn
  offered : List Drawn → Box → List Drawn

/-- The index that keeps the shapes in the order of their entry. -/
def ShapeIndex.inOrder : ShapeIndex where
  listed drawn := drawn
  offered drawn b := drawn.filter (·.envelope.intersects b)

variable [PolygonLibrary]

/-- The shapes on one layer. -/
structure LayerGeometry where
  data : Coverage
  drawn : List Drawn
  box : Box
deriving DecidableEq

namespace LayerGeometry

/-- A layer without shapes. -/
def empty (m : Mode) : LayerGeometry := ⟨.empty m, [], .empty⟩

instance : Inhabited LayerGeometry := ⟨empty default⟩

/-- The mode of the merged data. -/
def mode (g : LayerGeometry) : Mode := g.data.mode

/-- Whether nothing was added. -/
def isEmpty (g : LayerGeometry) : Bool := g.box.isEmpty && g.data.isEmpty

/-- Draw a shape that is not more general than the layer. -/
def add (g : LayerGeometry) (s : Shape) (horiz : Bool) : Except LayoutError LayerGeometry := do
  let data ← g.data.insert s
  return ⟨data, g.drawn ++ [⟨s, horiz⟩], s.box.union g.box⟩

/-- Merge the shapes of a master that is placed by `t`. -/
def record (g master : LayerGeometry) (t : Transform) : Except LayoutError LayerGeometry :=
  if g.mode < master.mode then .error (.representation (.recordMode master.mode g.mode))
  else do
    let data ← g.data.merge (master.data.transform t)
    return ⟨data, g.drawn, (master.box.transform t).union g.box⟩

/-- The layer of drawn shapes, added in order. -/
def ofDrawn (m : Mode) (drawn : List Drawn) : Except LayoutError LayerGeometry :=
  drawn.foldlM (fun acc d => acc.add d.shape d.horiz) (empty m)

/-- The same layer with its drawn shapes alone, in the order in which an index lists them. -/
def redraw (index : ShapeIndex) (g : LayerGeometry) : Except LayoutError LayerGeometry :=
  ofDrawn g.mode (index.listed g.drawn)

/-- The same layer with its drawn shapes alone. -/
def withoutMasters (g : LayerGeometry) : Except LayoutError LayerGeometry := g.redraw .inOrder

/-- The shapes which an index offers for a box grown by `dx` and `dy`, if they touch the grown box. -/
def search (index : ShapeIndex) (g : LayerGeometry) (b : Box) (dx dy : Int) : List Drawn :=
  let grown := b.expandXY dx dy
  if grown.isEmpty then [] else (index.offered g.drawn grown).filter fun d => d.shape.touches grown

/-- The drawn shapes that touch a box grown by `dx` and `dy`. -/
def near (g : LayerGeometry) (b : Box) (dx dy : Int) : List Drawn := g.search .inOrder b dx dy

/-- Change the mode. A less general one is possible only while nothing was added. -/
def withMode (g : LayerGeometry) (m : Mode) : Except LayoutError LayerGeometry :=
  if m = g.mode then .ok g
  else if m < g.mode then
    if g.isEmpty then .ok { g with data := .empty m }
    else .error (.representation (.resetMode g.mode m))
  else do
    let data ← g.data.convert m
    return { g with data }

end LayerGeometry

end MaskLayout
