import MaskLayout.Naming

/-!
# Points

Points of the integer plane and the two track directions.
-/

namespace MaskLayout

/-- A point, also used as a vector of sizes and offsets. -/
structure Point where
  x : Int
  y : Int
deriving DecidableEq, Inhabited

/-- The direction of tracks and wires. -/
inductive Dir where
  | horiz
  | vert
deriving DecidableEq, Inhabited

instance : Named Dir where
  typeName := "Dir"
  all := [.horiz, .vert]
  text
    | .horiz => "x"
    | .vert => "y"
  label
    | .horiz => "Horiz"
    | .vert => "Vert"

namespace Dir

/-- The direction across this one. -/
def other : Dir → Dir
  | horiz => vert
  | vert => horiz

/-- The place of a direction in a per-direction pair, horizontal first. -/
def index : Dir → Nat
  | horiz => 0
  | vert => 1

/-- The direction of a wire that is horizontal or not. -/
def ofHoriz (isHoriz : Bool) : Dir :=
  if isHoriz then horiz else vert

end Dir

namespace Point

instance : Add Point := ⟨fun p q => ⟨p.x + q.x, p.y + q.y⟩⟩
instance : Sub Point := ⟨fun p q => ⟨p.x - q.x, p.y - q.y⟩⟩
instance : Neg Point := ⟨fun p => ⟨-p.x, -p.y⟩⟩
instance : Zero Point := ⟨⟨0, 0⟩⟩

@[simp] theorem add_x (p q : Point) : (p + q).x = p.x + q.x := rfl
@[simp] theorem add_y (p q : Point) : (p + q).y = p.y + q.y := rfl
@[simp] theorem sub_x (p q : Point) : (p - q).x = p.x - q.x := rfl
@[simp] theorem sub_y (p q : Point) : (p - q).y = p.y - q.y := rfl
@[simp] theorem neg_x (p : Point) : (-p).x = -p.x := rfl
@[simp] theorem neg_y (p : Point) : (-p).y = -p.y := rfl
@[simp] theorem zero_x : (0 : Point).x = 0 := rfl
@[simp] theorem zero_y : (0 : Point).y = 0 := rfl

@[ext] theorem ext {p q : Point} (hx : p.x = q.x) (hy : p.y = q.y) : p = q := by
  cases p; cases q; simp_all

/-- The vector of length `v` along a direction. -/
def along (v : Int) : Dir → Point
  | .horiz => ⟨v, 0⟩
  | .vert => ⟨0, v⟩

/-- The coordinate along a direction. -/
def coord (p : Point) : Dir → Int
  | .horiz => p.x
  | .vert => p.y

/-- The vector repeated `k` times. -/
def scale (p : Point) (k : Int) : Point := ⟨p.x * k, p.y * k⟩

/-- The vector turned a quarter to the left. -/
def left (p : Point) : Point := ⟨-p.y, p.x⟩

/-- The signed area spanned by two vectors. -/
def cross (p q : Point) : Int := p.x * q.y - p.y * q.x

/-- The scalar product of two vectors. -/
def dot (p q : Point) : Int := p.x * q.x + p.y * q.y

/-- Points are ordered by x, then by y. -/
def order (p q : Point) : Ordering := (compare p.x q.x).then (compare p.y q.y)

/-- The written form of a point in messages. -/
def describe (p : Point) : String :=
  "Point \x7b x: " ++ toString p.x ++ ", y: " ++ toString p.y ++ " \x7d"

/-- The written form of a list of points in messages. -/
def describeAll (ps : List Point) : String :=
  "[" ++ ", ".intercalate (ps.map describe) ++ "]"

end Point

end MaskLayout
