import MaskLayout.Plane.Box

/-!
# Rectangles

Axis-aligned rectangles with ordered corners. Degenerate rectangles, of zero width or height, are allowed.
-/

namespace MaskLayout

/-- A rectangle from its lower left to its upper right corner. -/
structure Rect where
  lo : Point
  hi : Point
  x_le : lo.x ≤ hi.x
  y_le : lo.y ≤ hi.y
deriving DecidableEq

namespace Rect

/-- The rectangle between any two opposite corners. -/
def ofCorners (p q : Point) : Rect where
  lo := ⟨min p.x q.x, min p.y q.y⟩
  hi := ⟨max p.x q.x, max p.y q.y⟩
  x_le := by simp only; omega
  y_le := by simp only; omega

/-- The rectangle between the corners `(x0, y0)` and `(x1, y1)`. -/
def ofCoords (x0 y0 x1 y1 : Int) : Rect := ofCorners ⟨x0, y0⟩ ⟨x1, y1⟩

/-- The rectangle that spans `lower` to `upper` along a direction and `lo` to `hi` across it. -/
def ofDir (dir : Dir) (lower upper lo hi : Int) : Rect :=
  match dir with
  | .horiz => ofCoords lower lo upper hi
  | .vert => ofCoords lo lower hi upper

/-- The extent in x. -/
def width (r : Rect) : Int := r.hi.x - r.lo.x

/-- The extent in y. -/
def height (r : Rect) : Int := r.hi.y - r.lo.y

/-- Width times height. -/
def area (r : Rect) : Int := r.width * r.height

/-- The midpoint, with halves rounded toward zero. -/
def center (r : Rect) : Point := ⟨(r.lo.x + r.hi.x).tdiv 2, (r.lo.y + r.hi.y).tdiv 2⟩

/-- The rectangle as a box. -/
def toBox (r : Rect) : Box := ⟨r.lo, r.hi⟩

/-- The image of a rectangle. -/
def transform (r : Rect) (t : Transform) : Rect := ofCorners (t.apply r.lo) (t.apply r.hi)

/-- The written form of a rectangle in messages. -/
def describe (r : Rect) : String :=
  "Rect \x7b p0: " ++ r.lo.describe ++ ", p1: " ++ r.hi.describe ++ " \x7d"

/-- The corners as a closed loop, counterclockwise. -/
def loop (r : Rect) : List Point := r.toBox.corners

end Rect

/-- The rectangle of a box, unless the box is empty. -/
def Box.toRect? (b : Box) : Option Rect :=
  if b.isEmpty then none else some (Rect.ofCorners b.lo b.hi)

end MaskLayout
