import MaskLayout.Document.Basic

/-!
# Bare scalars

Bare scalars: texts that stand without quotes and mean nothing, a truth value, a number, or themselves. Digits after
a leading zero are no number. An integer that 64 bits cannot hold is none either, unless even 128 bits cannot: then
it is a real number.
-/

namespace MaskLayout

namespace Scalar

/-- The integer of an optional sign, a mark for the base, and digits. -/
def markedInt? (cs : List Char) : Option Int :=
  let (negative, rest) := match cs with
    | '-' :: r => (true, r)
    | '+' :: r => (false, r)
    | r => (false, r)
  let magnitude? := match rest with
    | '0' :: 'x' :: ds => digitsIn? 16 ds
    | '0' :: 'o' :: ds => digitsIn? 8 ds
    | '0' :: 'b' :: ds => digitsIn? 2 ds
    | ds => if 1 < ds.length ∧ ds.head? = some '0' then none else digitsIn? 10 ds
  magnitude?.map fun n => if negative then -(n : Int) else n

/-- Whether a text is digits after a leading zero, possibly signed. -/
def isZeroLed (cs : List Char) : Bool :=
  let ds := match cs with
    | '-' :: r => r
    | '+' :: r => r
    | r => r
  decide (1 < ds.length) && ds.head? == some '0' && ds.all (·.isDigit)

/-- The number of an optional sign and a decimal, with digits on at least one side of its point. -/
def decimal? (cs : List Char) : Option Binary64 :=
  let (negative, rest) := match cs with
    | '-' :: r => (true, r)
    | '+' :: r => (false, r)
    | r => (false, r)
  match NumberText.readUnsigned negative rest with
  | some (n, []) =>
    if n.whole.isEmpty ∧ (n.fraction.getD []).isEmpty then none
    else match n.toReal with
      | .finite s m e => some (.finite s m e)
      | _ => none
  | _ => none

/-- The number that a text spells with a point in front, as infinity, or as none. -/
def spelled? (s : String) : Option Binary64 :=
  if [".inf", ".Inf", ".INF", "+.inf", "+.Inf", "+.INF"].contains s then some (.infinite false)
  else if ["-.inf", "-.Inf", "-.INF"].contains s then some (.infinite true)
  else if [".nan", ".NaN", ".NAN"].contains s then some (.nan false)
  else none

/-- The real number that a text spells, or else the text. -/
def readReal (s : String) : Doc :=
  match (spelled? s).or (decimal? s.toList) with
  | some x => .real x
  | none => .text s

/-- The meaning of a bare scalar. -/
def read (s : String) : Doc :=
  if s = "~" ∨ s = "null" then .null
  else if s = "true" then .bool true
  else if s = "false" then .bool false
  else match markedInt? s.toList with
    | some i => if Bits.holdsEither 64 i then .int i else if Bits.holdsEither 128 i then .text s else readReal s
    | none => if isZeroLed s.toList then .text s else readReal s

end Scalar

/-- The meaning of a document that may be a bare scalar. -/
def Doc.meaning : Doc → Doc
  | .bare s => Scalar.read s
  | d => d

end MaskLayout
