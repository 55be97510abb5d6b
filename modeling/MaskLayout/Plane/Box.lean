import MaskLayout.Plane.Transform

/-!
# Bounding boxes

Bounding boxes. A box is two corners, and it is empty when they are inverted in either axis; the empty box
`Box.empty` is so far inverted that its union with any box is that box.
-/

namespace MaskLayout

/-- A box from its lower left to its upper right corner. -/
structure Box where
  lo : Point
  hi : Point
deriving DecidableEq, Inhabited

namespace Box

/-- The largest coordinate of a layout. -/
def farHigh : Int := 9223372036854775807

/-- The smallest coordinate of a layout. -/
def farLow : Int := -9223372036854775808

/-- The box of no points. -/
def empty : Box := ⟨⟨farHigh, farHigh⟩, ⟨farLow, farLow⟩⟩

/-- Whether the corners are inverted in some axis. -/
def isEmpty (b : Box) : Bool := decide (b.lo.x > b.hi.x) || decide (b.lo.y > b.hi.y)

/-- The box of one point. -/
def ofPoint (p : Point) : Box := ⟨p, p⟩

/-- The box between any two opposite corners. -/
def ofCorners (p q : Point) : Box :=
  ⟨⟨min p.x q.x, min p.y q.y⟩, ⟨max p.x q.x, max p.y q.y⟩⟩

/-- Whether a point lies in the box or on its edge. -/
def contains (b : Box) (p : Point) : Bool :=
  decide (b.lo.x ≤ p.x) && decide (p.x ≤ b.hi.x) && decide (b.lo.y ≤ p.y) && decide (p.y ≤ b.hi.y)

/-- Whether two boxes overlap or touch. -/
def intersects (b c : Box) : Bool :=
  !b.isEmpty && !c.isEmpty && decide (b.lo.x ≤ c.hi.x) && decide (c.lo.x ≤ b.hi.x) &&
    decide (b.lo.y ≤ c.hi.y) && decide (c.lo.y ≤ b.hi.y)

/-- Grow by `dx` and `dy` on either side. An empty box stays as it is. -/
def expandXY (b : Box) (dx dy : Int) : Box :=
  if b.isEmpty then b else ⟨b.lo - ⟨dx, dy⟩, b.hi + ⟨dx, dy⟩⟩

/-- Grow by the same amount on all sides. -/
def expand (b : Box) (d : Int) : Box := b.expandXY d d

/-- Width and height. -/
def size (b : Box) : Point := b.hi - b.lo

/-- The common part of two boxes. -/
def intersection (b c : Box) : Box :=
  let lo : Point := ⟨max b.lo.x c.lo.x, max b.lo.y c.lo.y⟩
  let hi : Point := ⟨min b.hi.x c.hi.x, min b.hi.y c.hi.y⟩
  if lo.x > hi.x ∨ lo.y > hi.y then empty else ⟨lo, hi⟩

/-- The box around two boxes. -/
def union (b c : Box) : Box :=
  ⟨⟨min b.lo.x c.lo.x, min b.lo.y c.lo.y⟩, ⟨max b.hi.x c.hi.x, max b.hi.y c.hi.y⟩⟩

/-- The box around a list of boxes. -/
def unionAll (bs : List Box) : Box := bs.foldl (fun acc b => b.union acc) empty

/-- The box around a list of points. -/
def ofPoints (ps : List Point) : Box := unionAll (ps.map ofPoint)

/-- The image of a box. The image of an empty box is the empty box. -/
def transform (b : Box) (t : Transform) : Box :=
  if b.isEmpty then empty else ofCorners (t.apply b.lo) (t.apply b.hi)

/-- The four corners, counterclockwise from the lower left. -/
def corners (b : Box) : List Point :=
  [b.lo, ⟨b.hi.x, b.lo.y⟩, b.hi, ⟨b.lo.x, b.hi.y⟩]

end Box

end MaskLayout
