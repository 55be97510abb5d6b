import MaskLayout.Region.Outline
import MaskLayout.Region.PolygonLibrary

/-!
# Exact polygons

A library of polygons that keeps the rings it is given and does all arithmetic exactly. Every coordinate is read as the
whole number nearest to it. A ring that was never united with anything is tested against boxes by its edges and by its
winding number; united rings are tested, measured and found empty by their outline, in which each ring is filled by the
even-odd rule.
-/

namespace MaskLayout

namespace Loop

/-- How often a loop winds counterclockwise around a point off the loop: upward edges to the right of the point
less downward ones. An edge owns its lower end and not its upper one. -/
def winding (l : Loop) (p : Point) : Int :=
  (l.edges.map fun (a, b) =>
    if a.y ≤ p.y ∧ p.y < b.y ∧ 0 < (b - a).cross (p - a) then (1 : Int)
    else if b.y ≤ p.y ∧ p.y < a.y ∧ (b - a).cross (p - a) < 0 then -1
    else 0).foldr (· + ·) 0

/-- Whether a segment meets a box that is not empty: their extents do, and the corners of the box are not all
strictly on one side of the segment. -/
def edgeTouches (b : Box) (p q : Point) : Bool :=
  (Box.ofCorners p q).intersects b &&
    !(b.corners.all fun c => 0 < (q - p).cross (c - p)) &&
    !(b.corners.all fun c => (q - p).cross (c - p) < 0)

/-- Whether a loop meets a box: an edge does, or the loop winds around the box. -/
def touches (l : Loop) (b : Box) : Bool :=
  (l.edges.any fun e => edgeTouches b e.1 e.2) || l.winding b.lo != 0

end Loop

/-- Polygons as rings: one ring as it was given, or rings that were united. -/
inductive ExactPolygons where
  | ring (l : Loop)
  | united (ls : List Loop)
deriving DecidableEq

namespace ExactPolygons

/-- The rings. -/
def loops : ExactPolygons → List Loop
  | ring l => [l]
  | united ls => ls

/-- The grid point nearest to a point. -/
def nearest (p : FloatPoint) : Point := ⟨p.x.nearest, p.y.nearest⟩

/-- The box between the nearest corners. -/
def nearestBox (r : FloatRect) : Box := .ofCorners (nearest r.lo) (nearest r.hi)

/-- The polygons with every corner moved. -/
def mapPoints (f : FloatPoint → FloatPoint) : ExactPolygons → ExactPolygons
  | ring l => ring (l.map fun p => nearest (f p.toFloat))
  | united ls => united (ls.map fun l => l.map fun p => nearest (f p.toFloat))

/-- Whether there are no polygons. United rings leave none where they cover no area. -/
def isEmpty : ExactPolygons → Bool
  | ring _ => false
  | united ls => (outline ls).isEmpty

/-- The area. A ring that was never united counts every part as often as it winds around it, up to the sign of the
whole. -/
def area : ExactPolygons → Rat
  | ring l =>
    let swept : Int := (l.edges.map fun (a, b) => a.cross b).foldr (· + ·) 0
    mkRat swept.natAbs 2
  | united ls => outlineArea (outline ls)

/-- Whether polygons overlap or touch a box that is not empty. -/
def touches (b : Box) : ExactPolygons → Bool
  | ring l => l.touches b
  | united ls => (outline ls).any (·.touches b) || coversAt ls b.lo

scoped instance library : PolygonLibrary where
  Polygons := ExactPolygons
  none := united []
  ofRing ring := .ring (ring.map nearest)
  ofRect r := .ring (nearestBox r).corners
  union a b := united (a.loops ++ b.loops)
  mapPoints := mapPoints
  isEmpty := isEmpty
  unsignedArea ps := .ofRat ps.area
  intersects ps r := ps.touches (nearestBox r)
  isEmpty_none := rfl

end ExactPolygons

end MaskLayout
