import MaskLayout.Region.PolygonLibrary

/-!
# Shapes

Shapes that a layer can hold: rectangles, single loops of three kinds, and sets of 45-degree loops.
-/

namespace MaskLayout

/-- A shape, from the least to the most general form. -/
inductive Shape where
  | rect (r : Rect)
  | poly90 (loop : Loop)
  | poly45 (loop : Loop)
  | poly45Set (loops : List Loop)
  | poly (loop : Loop)
deriving DecidableEq

namespace Shape

/-- A rectilinear loop as a shape. -/
def ofLoop90 (l : Loop) : Except LayoutError Shape := return .poly90 (← LoopKind.rectilinear.check l)

/-- A 45-degree loop as a shape. -/
def ofLoop45 (l : Loop) : Except LayoutError Shape := return .poly45 (← LoopKind.diagonal.check l)

/-- Any loop as a shape. -/
def ofLoop (l : Loop) : Except LayoutError Shape := return .poly (← LoopKind.any.check l)

/-- A set of checked 45-degree loops as a shape; it must not be empty. -/
def ofSet (ls : List Loop) : Except LayoutError Shape :=
  if ls.isEmpty then .error (.representation .emptySet) else .ok (.poly45Set ls)

/-- A set of 45-degree loops as a shape, each loop checked in turn. -/
def ofLoops45 (ls : List Loop) : Except LayoutError Shape := do
  ofSet (← ls.mapM LoopKind.diagonal.check)

/-- The least general mode that holds the shape. -/
def mode : Shape → Mode
  | rect _ => .poly90
  | poly90 _ => .poly90
  | poly45 _ => .poly45
  | poly45Set _ => .poly45
  | poly _ => .poly

/-- The image of a shape. -/
def transform (t : Transform) : Shape → Shape
  | rect r => .rect (r.transform t)
  | poly90 l => .poly90 (l.transform t)
  | poly45 l => .poly45 (l.transform t)
  | poly45Set ls => .poly45Set (ls.map (·.transform t))
  | poly l => .poly (l.transform t)

/-- The box around a shape. -/
def box : Shape → Box
  | rect r => r.toBox
  | poly90 l => l.box
  | poly45 l => l.box
  | poly45Set ls => Box.unionAll (ls.map Loop.box)
  | poly l => l.box

/-- The loops whose union is the shape, each filled by the even-odd rule. -/
def loops : Shape → List Loop
  | rect r => [r.loop]
  | poly90 l => [l]
  | poly45 l => [l]
  | poly45Set ls => ls
  | poly l => [l]

/-- The written form of a shape in messages. -/
def describe (s : Shape) : String :=
  let points (l : Loop) := " \x7b points: " ++ Point.describeAll l ++ " \x7d"
  match s with
  | rect r => "Rect(" ++ r.describe ++ ")"
  | poly90 l => "Poly90(Polygon90" ++ points l ++ ")"
  | poly45 l => "Poly45(Polygon45" ++ points l ++ ")"
  | poly45Set ls =>
    "Poly45Set(Polygon45Set \x7b polys: [" ++ ", ".intercalate (ls.map fun l => "Polygon45" ++ points l) ++ "] \x7d)"
  | poly l => "Poly(Polygon" ++ points l ++ ")"

section Polygons

variable [PolygonLibrary]

/-- A shape as polygons. The loops of a set may overlap, so they are united. -/
def toPolygons : Shape → Polygons
  | rect r => r.toPolygons
  | poly90 l => l.toPolygons
  | poly45 l => l.toPolygons
  | poly45Set ls => Loop.uniteAll ls
  | poly l => l.toPolygons

/-- Whether a shape overlaps or touches a box. For rectangles it is enough that the boxes do. -/
def touches (s : Shape) (b : Box) : Bool :=
  if b.isEmpty || !s.box.intersects b then false
  else match s with
    | rect _ => true
    | s => PolygonLibrary.intersects s.toPolygons b.toFloat

end Polygons

end Shape

end MaskLayout
