import MaskLayout.Number.Bits
import MaskLayout.Number.Decimal

/-!
# Documents

Documents: the tree of values that rule files hold, whichever format they are written in.
-/

namespace MaskLayout

/-- The key of an entry. Bare keys are texts that stood without quotes where quotes make a difference. -/
inductive DocKey where
  | text (s : String)
  | bare (s : String)
  | int (i : Int)
deriving DecidableEq, Inhabited

/-- A value of a document. -/
inductive Doc where
  | null
  | bool (b : Bool)
  | int (i : Int)
  | real (x : Binary64)
  | text (s : String)
  /-- A text without quotes that is a number, a truth value, nothing, or itself, as its place wants it. -/
  | bare (s : String)
  | list (items : List Doc)
  | map (entries : List (DocKey × Doc))
  /-- One case of several, by its name. -/
  | variant (name : String) (body : Doc)
deriving Inhabited

/-- The text of a key. -/
def DocKey.name : DocKey → String
  | text s => s
  | bare s => s
  | int i => toString i

namespace Doc

/-- Whether two documents agree. Real numbers are compared as numbers, so one that is none agrees with nothing. -/
def agrees : Doc → Doc → Bool
  | null, null => true
  | bool a, bool b => a == b
  | int a, int b => a == b
  | real a, real b => a.equals b
  | text a, text b => a == b
  | bare a, bare b => a == b
  | list [], list [] => true
  | list (a :: as), list (b :: bs) => agrees a b && agrees (list as) (list bs)
  | map [], map [] => true
  | map ((k, a) :: as), map ((l, b) :: bs) => k == l && agrees a b && agrees (map as) (map bs)
  | variant n a, variant m b => n == m && agrees a b
  | _, _ => false

end Doc

/-- The value of a digit in a base of at most 16. -/
def digitIn? (base : Nat) (c : Char) : Option Nat :=
  let value? :=
    if '0' ≤ c ∧ c ≤ '9' then some (c.toNat - '0'.toNat)
    else if 'a' ≤ c ∧ c ≤ 'f' then some (c.toNat - 'a'.toNat + 10)
    else if 'A' ≤ c ∧ c ≤ 'F' then some (c.toNat - 'A'.toNat + 10)
    else none
  value?.filter (· < base)

/-- The value of digits in a base, of which there must be some. -/
def digitsIn? (base : Nat) (cs : List Char) : Option Nat :=
  if cs.isEmpty then none else cs.foldlM (fun n c => do return base * n + (← digitIn? base c)) 0

/-- The parts of a number that is written in decimals. -/
structure NumberText where
  negative : Bool
  /-- The digits before the point. -/
  whole : List Char
  /-- The digits after the point, if there is a point. -/
  fraction : Option (List Char)
  /-- The power of ten, if there is one. -/
  power : Option Int

namespace NumberText

/-- The value of decimal digits. -/
def ofDigits (ds : List Char) : Nat := ds.foldl (fun n d => 10 * n + (d.toNat - '0'.toNat)) 0

/-- The leading digits of a text, and the rest. -/
def takeDigits (cs : List Char) : List Char × List Char := (cs.takeWhile (·.isDigit), cs.dropWhile (·.isDigit))

/-- Read a power of ten, if there is one; a mark without digits is none. -/
def readPower (cs : List Char) : Option (Option Int × List Char) :=
  match cs with
  | e :: rest =>
    if e = 'e' ∨ e = 'E' then
      let (negative, rest) := match rest with
        | '-' :: r => (true, r)
        | '+' :: r => (false, r)
        | r => (false, r)
      match takeDigits rest with
      | ([], _) => none
      | (ds, rest) => some (some (if negative then -(ofDigits ds : Int) else ofDigits ds), rest)
    else some (none, cs)
  | [] => some (none, [])

/-- Read digits, a point with digits after it, and a power of ten. Digits may be missing on either side of the point,
and the caller decides whether it takes that. -/
def readUnsigned (negative : Bool) (cs : List Char) : Option (NumberText × List Char) :=
  let (whole, rest) := takeDigits cs
  let (fraction, rest) := match rest with
    | '.' :: r => (some (takeDigits r).1, (takeDigits r).2)
    | r => (none, r)
  match readPower rest with
  | some (power, rest) => some (⟨negative, whole, fraction, power⟩, rest)
  | none => none

/-- Whether the number is written as an integer. -/
def isWhole (n : NumberText) : Bool := n.fraction.isNone && n.power.isNone

/-- The integer before the point. -/
def toInt (n : NumberText) : Int := if n.negative then -(ofDigits n.whole : Int) else ofDigits n.whole

/-- The nearest 64-bit number. -/
def toReal (n : NumberText) : Binary64 :=
  let fraction := n.fraction.getD []
  Binary64.ofDecimal n.negative (ofDigits (n.whole ++ fraction)) (n.power.getD 0 - fraction.length)

end NumberText

end MaskLayout
