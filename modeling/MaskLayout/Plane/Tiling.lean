import MaskLayout.Error

/-!
# Arrays of copies

Two-dimensional arrays of copies at regular pitches.
-/

namespace MaskLayout

/-- An array of `nx` by `ny` copies, `dx` and `dy` apart. -/
structure Tiling where
  nx : Int
  ny : Int
  dx : Int
  dy : Int
deriving DecidableEq

namespace Tiling

/-- The array of one copy. -/
def single : Tiling := ⟨1, 1, 0, 0⟩

instance : Inhabited Tiling := ⟨single⟩

/-- An array with counts of at least one. -/
def ofCounts (nx ny dx dy : Int) : Except LayoutError Tiling :=
  if nx < 1 ∨ ny < 1 then .error (.outOfRange (.arrayCounts nx ny)) else .ok ⟨nx, ny, dx, dy⟩

/-- The offset of every copy, column by column. -/
def offsets (a : Tiling) : List Point :=
  (List.range a.nx.toNat).flatMap fun (ix : Nat) =>
    (List.range a.ny.toNat).map fun (iy : Nat) => ⟨ix * a.dx, iy * a.dy⟩

/-- The offset of the last copy. -/
def span (a : Tiling) : Point := ⟨(a.nx - 1) * a.dx, (a.ny - 1) * a.dy⟩

end Tiling

end MaskLayout
