/-!
# Blank characters

Blank characters: spaces of every width, and the characters that end lines.
-/

namespace MaskLayout.Text

/-- The numbers of the blank characters, from first to last in each range. -/
def blankRanges : List (Nat × Nat) :=
  [(0x09, 0x0d), (0x20, 0x20), (0x85, 0x85), (0xa0, 0xa0), (0x1680, 0x1680), (0x2000, 0x200a), (0x2028, 0x2029),
    (0x202f, 0x202f), (0x205f, 0x205f), (0x3000, 0x3000)]

/-- Whether a character is blank. -/
def isBlank (c : Char) : Bool := blankRanges.any fun (first, last) => decide (first ≤ c.toNat ∧ c.toNat ≤ last)

end MaskLayout.Text
