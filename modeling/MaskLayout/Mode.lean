import MaskLayout.Naming

/-!
# Modes

The three modes of merged layer data, from the least to the most general.
-/

namespace MaskLayout

/-- Which polygons a layer may hold: rectilinear, with diagonals at 45 degrees, or any. -/
inductive Mode where
  | poly90
  | poly45
  | poly
deriving DecidableEq, Inhabited

namespace Mode

instance : Named Mode where
  typeName := "GeometryMode"
  all := [.poly90, .poly45, .poly]
  text
    | .poly90 => "poly90"
    | .poly45 => "poly45"
    | .poly => "poly"
  label
    | .poly90 => "Poly90"
    | .poly45 => "Poly45"
    | .poly => "Poly"

/-- The place of a mode in the order of generality. -/
def rank : Mode → Nat
  | poly90 => 0
  | poly45 => 1
  | poly => 2

/-- A mode holds the shapes of every mode below it. -/
instance : LE Mode := ⟨fun m n => m.rank ≤ n.rank⟩
instance : LT Mode := ⟨fun m n => m.rank < n.rank⟩
instance (m n : Mode) : Decidable (m ≤ n) := inferInstanceAs (Decidable (m.rank ≤ n.rank))
instance (m n : Mode) : Decidable (m < n) := inferInstanceAs (Decidable (m.rank < n.rank))

end Mode

end MaskLayout
