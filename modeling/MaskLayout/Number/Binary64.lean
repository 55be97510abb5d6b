/-!
# Floating-point numbers

Binary floating-point numbers of 64 bits, held exactly as a sign, a mantissa and a power of two. Ratios and
decimals are rounded to the nearest number, a tie going to the even mantissa.
-/

namespace MaskLayout

/-- A number of 64 bits. A finite one is `mantissa * 2 ^ exponent` up to its sign, with a mantissa below `2 ^ 53`
that is at least `2 ^ 52` unless the exponent is the least one. -/
inductive Binary64 where
  | nan (negative : Bool)
  | infinite (negative : Bool)
  | finite (negative : Bool) (mantissa : Nat) (exponent : Int)
deriving DecidableEq, Inhabited

namespace Binary64

/-- The exponent of the smallest numbers. -/
def leastExponent : Int := -1074

/-- The exponent of the largest numbers. -/
def greatestExponent : Int := 971

/-- The least mantissa of full length, `2 ^ 52`. -/
def leastFull : Nat := 4503599627370496

/-- The ratio `num / den` in units of `2 ^ e`, again as a ratio. -/
def inUnits (num den : Nat) (e : Int) : Nat × Nat :=
  if e ≥ 0 then (num, den * Nat.pow 2 e.toNat) else (num * Nat.pow 2 (-e).toNat, den)

/-- The whole number nearest to `num / den`, a tie going to the even one. -/
def roundRatio (num den : Nat) : Nat :=
  let q := num / den
  let r := num % den
  if 2 * r > den ∨ (2 * r = den ∧ q % 2 = 1) then q + 1 else q

/-- The number nearest to `num / den`. -/
def ofRatio (negative : Bool) (num den : Nat) : Binary64 :=
  if num = 0 then finite negative 0 leastExponent
  else
    let guess := max ((num.log2 : Int) - den.log2 - 52) leastExponent
    let (n, d) := inUnits num den guess
    let e := if guess > leastExponent ∧ n / d < leastFull then guess - 1 else guess
    let (n, d) := inUnits num den e
    let m := roundRatio n d
    let (m, e) := if m = 2 * leastFull then (leastFull, e + 1) else (m, e)
    if e > greatestExponent then infinite negative else finite negative m e

/-- The number nearest to an integer. -/
def ofInt (i : Int) : Binary64 := ofRatio (decide (i < 0)) i.natAbs 1

/-- The number nearest to a rational. -/
def ofRat (r : Rat) : Binary64 := ofRatio (decide (r.num < 0)) r.num.natAbs r.den

/-- The number nearest to `digits * 10 ^ exponent`. Exponents too far out to matter are cut off first. -/
def ofDecimal (negative : Bool) (digits : Nat) (exponent : Int) : Binary64 :=
  if digits = 0 then finite negative 0 leastExponent
  else
    let magnitude := exponent + digits.log2
    if exponent > 400 then infinite negative
    else if magnitude < -1200 ∧ exponent < -400 - digits.log2 then finite negative 0 leastExponent
    else if exponent ≥ 0 then ofRatio negative (digits * Nat.pow 10 exponent.toNat) 1
    else ofRatio negative digits (Nat.pow 10 (-exponent).toNat)

/-- Zero. -/
def zero : Binary64 := finite false 0 leastExponent

/-- The value of a finite number, and zero for the others. -/
def value : Binary64 → Rat
  | finite negative m e =>
    let size : Rat := if e ≥ 0 then ((m * Nat.pow 2 e.toNat : Nat) : Rat) else mkRat m (Nat.pow 2 (-e).toNat)
    if negative then -size else size
  | _ => 0

/-- The sum of two numbers. A sum of zero is negative only if both numbers are. -/
def add : Binary64 → Binary64 → Binary64
  | nan s, _ => nan s
  | _, nan s => nan s
  | infinite s, infinite s' => if s = s' then infinite s else nan false
  | infinite s, finite _ _ _ => infinite s
  | finite _ _ _, infinite s => infinite s
  | finite s m e, finite s' m' e' =>
    let sum := (finite s m e).value + (finite s' m' e').value
    if sum = 0 then finite (s && s') 0 leastExponent else ofRat sum

/-- The product of two numbers. -/
def mul : Binary64 → Binary64 → Binary64
  | nan s, _ => nan s
  | _, nan s => nan s
  | infinite s, infinite s' => infinite (s != s')
  | infinite s, finite s' m _ => if m = 0 then nan false else infinite (s != s')
  | finite s m _, infinite s' => if m = 0 then nan false else infinite (s != s')
  | finite s m e, finite s' m' e' =>
    let product := (finite s m e).value * (finite s' m' e').value
    ofRatio (s != s') product.num.natAbs product.den

/-- The whole number nearest to a finite number, a half going away from zero. -/
def nearest (x : Binary64) : Int :=
  let v := x.value
  let size : Int := (2 * v.num.natAbs + v.den) / (2 * v.den)
  if v.num < 0 then -size else size

/-- Whether two numbers compare equal: no `nan` does, and the two zeros do. -/
def equals : Binary64 → Binary64 → Bool
  | nan _, _ => false
  | _, nan _ => false
  | finite s m e, finite s' m' e' => (m == 0 && m' == 0) || (s == s' && m == m' && e == e')
  | infinite s, infinite s' => s == s'
  | _, _ => false

end Binary64

end MaskLayout
