import MaskLayout.Plane.Loop
import MaskLayout.Plane.Rect

/-!
# Unions of rectangles

Unions of rectilinear shapes as lists of disjoint rectangles of positive area. A rectangle that is inserted loses
the parts that are already covered; a rectilinear loop is cut into horizontal slabs first.
-/

namespace MaskLayout

namespace Rect

/-- The parts of `a` outside of `b`: strips of full width below and above the overlap, and then what is left and
right of it. -/
def subtract (a b : Rect) : List Rect :=
  let x0 := max a.lo.x b.lo.x
  let x1 := min a.hi.x b.hi.x
  let y0 := max a.lo.y b.lo.y
  let y1 := min a.hi.y b.hi.y
  if x0 ≥ x1 ∨ y0 ≥ y1 then [a]
  else
    [ofCoords a.lo.x a.lo.y a.hi.x y0, ofCoords a.lo.x y1 a.hi.x a.hi.y,
      ofCoords a.lo.x y0 x0 y1, ofCoords x1 y0 a.hi.x y1].filter fun r => decide (0 < r.area)

end Rect

namespace Loop

/-- Consecutive values two by two; a last single one is left out. -/
def inPairs : List Int → List (Int × Int)
  | a :: b :: rest => (a, b) :: inPairs rest
  | _ => []

/-- The different ordinates of a loop, ascending. -/
def ordinates (l : Loop) : List Int :=
  ((l.map (·.y)).mergeSort fun a b => decide (a ≤ b)).eraseReps

/-- The abscissas of the vertical edges that span the slab from `lo` to `hi`, ascending. -/
def spanning (l : Loop) (lo hi : Int) : List Int :=
  ((l.edges.filter fun (a, b) =>
    a.x == b.x && a.y != b.y && decide (min a.y b.y ≤ lo) && decide (hi ≤ max a.y b.y)).map
      (·.1.x)).mergeSort fun a b => decide (a ≤ b)

/-- The rectangles that fill a rectilinear loop by the even-odd rule, slab by slab from below. -/
def slabs (l : Loop) : List Rect :=
  let ys := l.ordinates
  (ys.zip (ys.drop 1)).flatMap fun (lo, hi) =>
    ((inPairs (l.spanning lo hi)).filter fun (a, b) => decide (a < b)).map fun (a, b) =>
      Rect.ofCoords a lo b hi

end Loop

/-- A union of rectangles, as disjoint rectangles in the order of their insertion. -/
structure RectSet where
  rects : List Rect
deriving DecidableEq

namespace RectSet

/-- The empty union. -/
def empty : RectSet := ⟨[]⟩

instance : Inhabited RectSet := ⟨empty⟩

/-- Whether nothing is covered. -/
def isEmpty (s : RectSet) : Bool := s.rects.isEmpty

/-- What is left of a rectangle once the covered parts are taken away. -/
def uncovered (s : RectSet) (r : Rect) : List Rect :=
  s.rects.foldl (fun pieces held => pieces.flatMap (·.subtract held)) [r]

/-- Add a rectangle. -/
def insert (s : RectSet) (r : Rect) : RectSet :=
  ⟨s.rects ++ (s.uncovered r).filter fun p => decide (0 < p.area)⟩

/-- Add several rectangles in turn. -/
def insertAll (s : RectSet) (rs : List Rect) : RectSet := rs.foldl insert s

/-- Add a rectilinear loop. -/
def insertLoop (s : RectSet) (l : Loop) : RectSet := s.insertAll l.slabs

/-- The covered area. -/
def area (s : RectSet) : Int := (s.rects.map Rect.area).foldr (· + ·) 0

/-- The image of a union. -/
def transform (s : RectSet) (t : Transform) : RectSet := ⟨s.rects.map (·.transform t)⟩

end RectSet

end MaskLayout
