import MaskLayout.Number.Binary64

/-!
# Decimal texts of numbers

Decimal texts of 64-bit numbers. The digits are the fewest that read back to the same number, the nearest of
those; a `RealFormat` decides where the point stands and when an exponent is written.
-/

namespace MaskLayout

/-- The number `digits * 10 ^ exponent`. -/
structure Decimal where
  digits : Nat
  exponent : Int
deriving DecidableEq

namespace Decimal

/-- The same number without trailing zeros among at most `fuel` last digits. -/
def trim : Nat → Decimal → Decimal
  | 0, d => d
  | fuel + 1, d =>
    if d.digits ≠ 0 ∧ d.digits % 10 = 0 then trim fuel ⟨d.digits / 10, d.exponent + 1⟩ else d

/-- The power of ten of the leading digit, plus one. -/
def magnitude (num den : Nat) : Int :=
  ((Nat.toDigits 10 (num * Nat.pow 10 340 / den)).length : Int) - 340

/-- The nearest decimal of `count` digits that rounds to `m * 2 ^ q`, if one does. The reals that round to the
number run from half a unit below to half a unit above, a quarter below at a power of two. -/
def withDigits? (m : Nat) (q : Int) (count : Nat) : Option Decimal :=
  let (s, t) := if q - 2 ≥ 0 then (Nat.pow 2 (q - 2).toNat, 1) else (1, Nat.pow 2 (2 - q).toNat)
  let below := if m = Binary64.leastFull ∧ q > Binary64.leastExponent then 1 else 2
  let k := magnitude (4 * m * s) t - count
  let (u, w) := if k ≥ 0 then (Nat.pow 10 k.toNat, 1) else (1, Nat.pow 10 (-k).toNat)
  let value := 4 * m * s * w
  let least := (4 * m - below) * s * w
  let most := (4 * m + 2) * s * w
  let unit := u * t
  let inside (c : Nat) : Bool :=
    if m % 2 = 0 then decide (least ≤ c * unit ∧ c * unit ≤ most)
    else decide (least < c * unit ∧ c * unit < most)
  let c := value / unit
  match inside c, inside (c + 1) with
  | true, true => some ⟨if 2 * value ≤ (2 * c + 1) * unit then c else c + 1, k⟩
  | true, false => some ⟨c, k⟩
  | false, true => some ⟨c + 1, k⟩
  | false, false => none

/-- The shortest decimal that rounds to `m * 2 ^ q`. -/
def shortest (m : Nat) (q : Int) : Decimal :=
  if m = 0 then ⟨0, 0⟩
  else match (List.range 17).findSome? fun i => withDigits? m q (i + 1) with
    | some d => d.trim 20
    | none => ⟨m, 0⟩

/-- The text with the point in place and no exponent. -/
def positional (d : Decimal) (pointZero : Bool) : String :=
  let ds := (toString d.digits).toList
  if d.exponent ≥ 0 then
    String.ofList (ds ++ List.replicate (if d.digits = 0 then 0 else d.exponent.toNat) '0') ++
      (if pointZero then ".0" else "")
  else
    let places := (-d.exponent).toNat
    let ds := List.replicate (places + 1 - ds.length) '0' ++ ds
    String.ofList (ds.take (ds.length - places) ++ '.' :: ds.drop (ds.length - places))

/-- The text with one digit before the point and a power of ten. -/
def scientific (d : Decimal) : String :=
  match (toString d.digits).toList with
  | [] => ""
  | [c] => String.ofList [c] ++ "e" ++ toString d.exponent
  | c :: rest => String.ofList (c :: '.' :: rest) ++ "e" ++ toString (d.exponent + rest.length)

/-- The power of ten of the first digit. -/
def leading (d : Decimal) : Int := d.exponent + (toString d.digits).length - 1

end Decimal

/-- How a number is written. -/
structure RealFormat where
  /-- The powers of ten of the first digit that are written without an exponent, if others are not. -/
  positional : Option (Int × Int)
  /-- Whether a whole number ends in `.0`. -/
  pointZero : Bool
  /-- The text of infinity. -/
  infinite : String
  /-- The text of a number that is none. -/
  nan : String
  /-- Whether the sign of a number that is none is written. -/
  nanSign : Bool

namespace RealFormat

/-- Messages write numbers in full. -/
def message : RealFormat := ⟨none, false, "inf", "NaN", false⟩

/-- Listings write a point always, and an exponent from `1e16` on and below `1e-4`. -/
def listing : RealFormat := ⟨some (-4, 15), true, "inf", "NaN", false⟩

/-- Rule files in the first two formats write an exponent from `1e16` on and below `1e-5`. -/
def document : RealFormat := ⟨some (-5, 15), true, ".inf", ".nan", false⟩

/-- Rule files in the third format write numbers in full, with a point always. -/
def table : RealFormat := ⟨none, true, "inf", "nan", true⟩

/-- The text of a number. -/
def render (f : RealFormat) : Binary64 → String
  | .nan negative => (if f.nanSign && negative then "-" else "") ++ f.nan
  | .infinite negative => (if negative then "-" else "") ++ f.infinite
  | .finite negative m q =>
    let d := Decimal.shortest m q
    let body := match f.positional with
      | some (least, most) =>
        if d.digits = 0 ∨ (least ≤ d.leading ∧ d.leading ≤ most) then d.positional f.pointZero
        else d.scientific
      | none => d.positional f.pointZero
    (if negative then "-" else "") ++ body

end RealFormat

/-- The text of a finite number rounded to `places` decimals, a tie going to the even digit. -/
def Binary64.fixed (places : Nat) : Binary64 → String
  | .finite negative m q =>
    let (n, d) := Binary64.inUnits (m * Nat.pow 10 places) 1 (-q)
    let scaled := Binary64.roundRatio n d
    (if negative then "-" else "") ++ (Decimal.mk scaled (-places)).positional false
  | x => RealFormat.message.render x

end MaskLayout
