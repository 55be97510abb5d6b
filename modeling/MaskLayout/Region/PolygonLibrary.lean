import MaskLayout.Number.Binary64
import MaskLayout.Plane.Loop
import MaskLayout.Plane.Rect
import MaskLayout.Plane.Transform

/-!
# Polygons with floating-point coordinates

Merged data of the more general modes is kept by a library of polygons, which also tests shapes against boxes. Here are
the operations that are used of it, and what is handed over to it: grid points, with each coordinate rounded to the
nearest floating-point number.

## Implementation notes

The library is a class, so that the text of a layer does not depend on how polygons are kept. Only that the empty set of
polygons is empty is part of the class; everything else that a theorem relies on is a named law.
-/

namespace MaskLayout

/-- A point with floating-point coordinates. -/
structure FloatPoint where
  x : Binary64
  y : Binary64
deriving DecidableEq

/-- The corners of a rectangle with floating-point coordinates. -/
structure FloatRect where
  lo : FloatPoint
  hi : FloatPoint
deriving DecidableEq

/-- A grid point with its coordinates as floating-point numbers. -/
def Point.toFloat (p : Point) : FloatPoint := ⟨.ofInt p.x, .ofInt p.y⟩

/-- A box with its coordinates as floating-point numbers. -/
def Box.toFloat (b : Box) : FloatRect := ⟨b.lo.toFloat, b.hi.toFloat⟩

/-- The image of a point. -/
def Transform.applyFloat (t : Transform) (p : FloatPoint) : FloatPoint :=
  let m := t.orient.matrix
  let image (a b d : Int) : Binary64 := (((Binary64.ofInt a).mul p.x).add ((Binary64.ofInt b).mul p.y)).add (.ofInt d)
  ⟨image m.a m.b t.loc.x, image m.c m.d t.loc.y⟩

/-- A library of sets of polygons. -/
class PolygonLibrary where
  Polygons : Type
  [decidableEq : DecidableEq Polygons]
  none : Polygons
  /-- The polygon inside a closed ring, without holes. -/
  ofRing : List FloatPoint → Polygons
  ofRect : FloatRect → Polygons
  union : Polygons → Polygons → Polygons
  /-- The polygons with every corner moved. -/
  mapPoints : (FloatPoint → FloatPoint) → Polygons → Polygons
  isEmpty : Polygons → Bool
  unsignedArea : Polygons → Binary64
  /-- Whether polygons overlap or touch a rectangle. -/
  intersects : Polygons → FloatRect → Bool
  isEmpty_none : isEmpty none = true

export PolygonLibrary (Polygons)

variable [PolygonLibrary]

instance : DecidableEq Polygons := PolygonLibrary.decidableEq

/-- A loop as a polygon without holes. -/
def Loop.toPolygons (l : Loop) : Polygons := PolygonLibrary.ofRing (l.map Point.toFloat)

/-- The union of several loops. -/
def Loop.uniteAll (ls : List Loop) : Polygons :=
  ls.foldl (fun united l => PolygonLibrary.union united l.toPolygons) PolygonLibrary.none

/-- A rectangle as a polygon. -/
def Rect.toPolygons (r : Rect) : Polygons := PolygonLibrary.ofRect r.toBox.toFloat

/-- The union of several rectangles. -/
def Rect.uniteAll (rs : List Rect) : Polygons :=
  rs.foldl (fun united r => PolygonLibrary.union united r.toPolygons) PolygonLibrary.none

end MaskLayout
