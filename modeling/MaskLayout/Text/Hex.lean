/-!
# Hexadecimal digits

Numbers in hexadecimal digits.
-/

namespace MaskLayout.Text

/-- The hexadecimal digits of a number, in lower case. -/
def hex (n : Nat) : String := String.ofList (Nat.toDigits 16 n)

/-- The hexadecimal digits of a number with zeros in front, at least four in all. -/
def hexFour (n : Nat) : String :=
  let ds := Nat.toDigits 16 n
  String.ofList (List.replicate (4 - ds.length) '0' ++ ds)

end MaskLayout.Text
