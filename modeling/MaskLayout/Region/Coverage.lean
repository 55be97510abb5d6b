import MaskLayout.Region.RectSet
import MaskLayout.Shape

/-!
# Merged data

The merged data of a layer in one of three modes: disjoint rectangles for rectilinear data, and polygons of the library
for the more general ones.
-/

namespace MaskLayout

variable [PolygonLibrary]

/-- The merged data of a layer. -/
inductive Coverage where
  | poly90 (rects : RectSet)
  | poly45 (polygons : Polygons)
  | poly (polygons : Polygons)
deriving DecidableEq

namespace Coverage

/-- The mode of the data. -/
def mode : Coverage → Mode
  | poly90 _ => .poly90
  | poly45 _ => .poly45
  | poly _ => .poly

/-- No data in a mode. -/
def empty : Mode → Coverage
  | .poly90 => .poly90 .empty
  | .poly45 => .poly45 PolygonLibrary.none
  | .poly => .poly PolygonLibrary.none

/-- The data as merged polygons. -/
def toPolygons : Coverage → Polygons
  | poly90 rects => Rect.uniteAll rects.rects
  | poly45 ps => ps
  | poly ps => ps

/-- Whether there is no data. -/
def isEmpty : Coverage → Bool
  | poly90 rects => rects.isEmpty
  | poly45 ps => PolygonLibrary.isEmpty ps
  | poly ps => PolygonLibrary.isEmpty ps

/-- The covered area. -/
def area : Coverage → Binary64
  | poly90 rects => .ofInt rects.area
  | poly45 ps => PolygonLibrary.unsignedArea ps
  | poly ps => PolygonLibrary.unsignedArea ps

/-- The image of the data. -/
def transform (t : Transform) : Coverage → Coverage
  | poly90 rects => .poly90 (rects.transform t)
  | poly45 ps => .poly45 (PolygonLibrary.mapPoints t.applyFloat ps)
  | poly ps => .poly (PolygonLibrary.mapPoints t.applyFloat ps)

/-- Add a shape that is not more general than the data. -/
def insert (c : Coverage) (s : Shape) : Except LayoutError Coverage :=
  if c.mode < s.mode then .error (.representation (.addMode s.mode c.mode))
  else match c, s with
    | poly90 rects, .rect r => .ok (.poly90 (rects.insert r))
    | poly90 rects, .poly90 l => .ok (.poly90 (rects.insertLoop l))
    | poly90 _, _ => .error (.representation (.notRectilinear s.describe))
    | poly45 ps, _ => .ok (.poly45 (PolygonLibrary.union ps s.toPolygons))
    | poly ps, _ => .ok (.poly (PolygonLibrary.union ps s.toPolygons))

/-- Add other data that is not more general. -/
def merge (c d : Coverage) : Except LayoutError Coverage :=
  if c.mode < d.mode then .error (.representation (.addMode d.mode c.mode))
  else match c, d with
    | poly90 rects, poly90 more => .ok (.poly90 (rects.insertAll more.rects))
    | poly90 rects, _ => .ok (.poly90 rects)
    | poly45 ps, _ => .ok (.poly45 (PolygonLibrary.union ps d.toPolygons))
    | poly ps, _ => .ok (.poly (PolygonLibrary.union ps d.toPolygons))

/-- The same data in a mode that is at least as general. -/
def convert (c : Coverage) (m : Mode) : Except LayoutError Coverage :=
  if m < c.mode then .error (.representation (.convertMode c.mode m))
  else match m with
    | .poly90 => .ok c
    | .poly45 => .ok (.poly45 c.toPolygons)
    | .poly => .ok (.poly c.toPolygons)

end Coverage

end MaskLayout
