import MaskLayout.Plane.Point

/-!
# Placements

Placements: one of eight quarter turns and mirrors about the origin, then a move. The turns are given by
their signed permutation matrices, so a product or transpose of two of them is again one of the eight.
-/

namespace MaskLayout

/-- The eight placements about the origin. Mirrored ones mirror first, then turn. -/
inductive Orientation where
  | r0 | r90 | r180 | r270 | mx | my | mxr90 | myr90
deriving DecidableEq, Inhabited

/-- A two by two matrix, row by row. -/
structure Matrix2 where
  a : Int
  b : Int
  c : Int
  d : Int
deriving DecidableEq

namespace Matrix2

/-- The matrix product. -/
def mul (m n : Matrix2) : Matrix2 :=
  ⟨m.a * n.a + m.b * n.c, m.a * n.b + m.b * n.d, m.c * n.a + m.d * n.c, m.c * n.b + m.d * n.d⟩

/-- The transpose, which for a placement matrix is the inverse. -/
def transpose (m : Matrix2) : Matrix2 := ⟨m.a, m.c, m.b, m.d⟩

/-- The image of a vector. -/
def act (m : Matrix2) (p : Point) : Point := ⟨m.a * p.x + m.b * p.y, m.c * p.x + m.d * p.y⟩

end Matrix2

namespace Orientation

instance : Named Orientation where
  typeName := "Orientation"
  all := [.r0, .r90, .r180, .r270, .mx, .my, .mxr90, .myr90]
  text
    | .r0 => "R0" | .r90 => "R90" | .r180 => "R180" | .r270 => "R270"
    | .mx => "MX" | .my => "MY" | .mxr90 => "MXR90" | .myr90 => "MYR90"
  label
    | .r0 => "R0" | .r90 => "R90" | .r180 => "R180" | .r270 => "R270"
    | .mx => "MX" | .my => "MY" | .mxr90 => "MXR90" | .myr90 => "MYR90"

/-- The matrix of a placement. -/
def matrix : Orientation → Matrix2
  | r0 => ⟨1, 0, 0, 1⟩
  | r90 => ⟨0, -1, 1, 0⟩
  | r180 => ⟨-1, 0, 0, -1⟩
  | r270 => ⟨0, 1, -1, 0⟩
  | mx => ⟨1, 0, 0, -1⟩
  | my => ⟨-1, 0, 0, 1⟩
  | mxr90 => ⟨0, 1, 1, 0⟩
  | myr90 => ⟨0, -1, -1, 0⟩

/-- The placement with a given matrix, if it is one of the eight. -/
def ofMatrix? : Matrix2 → Option Orientation
  | ⟨1, 0, 0, 1⟩ => some r0
  | ⟨0, -1, 1, 0⟩ => some r90
  | ⟨-1, 0, 0, -1⟩ => some r180
  | ⟨0, 1, -1, 0⟩ => some r270
  | ⟨1, 0, 0, -1⟩ => some mx
  | ⟨-1, 0, 0, 1⟩ => some my
  | ⟨0, 1, 1, 0⟩ => some mxr90
  | ⟨0, -1, -1, 0⟩ => some myr90
  | _ => none

/-- The placement that does `q` first and then `p`. -/
def mul (p q : Orientation) : Orientation :=
  (ofMatrix? (p.matrix.mul q.matrix)).getD .r0

/-- The placement that undoes this one. -/
def inv (p : Orientation) : Orientation :=
  (ofMatrix? p.matrix.transpose).getD .r0

/-- Whether the x and y axes change places. -/
def swapsAxes (o : Orientation) : Bool := o.matrix.a == 0

end Orientation

/-- A placement about the origin followed by a move to `loc`. -/
structure Transform where
  loc : Point
  orient : Orientation
deriving DecidableEq, Inhabited

namespace Transform

/-- The placement that leaves everything where it is. -/
def identity : Transform := ⟨0, .r0⟩

/-- A plain move. -/
def translate (d : Point) : Transform := ⟨d, .r0⟩

/-- This placement, moved further by `d` in the outer plane. -/
def moveBy (t : Transform) (d : Point) : Transform := ⟨t.loc + d, t.orient⟩

/-- The image of a point. -/
def apply (t : Transform) (p : Point) : Point := t.orient.matrix.act p + t.loc

/-- The placement that does `child` first and then `parent`. -/
def cascade (parent child : Transform) : Transform :=
  ⟨parent.apply child.loc, parent.orient.mul child.orient⟩

/-- The placement that undoes this one. -/
def invert (t : Transform) : Transform :=
  ⟨-(t.orient.matrix.transpose.act t.loc), t.orient.inv⟩

end Transform

end MaskLayout
