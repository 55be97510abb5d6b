import MaskLayout.Document.Schema

/-!
# Reading JSON

Reading JSON. Every reader takes the characters that are left and answers a value with the rest.
-/

namespace MaskLayout.Json

/-- Drop blanks. -/
def skipBlank (cs : List Char) : List Char :=
  cs.dropWhile fun c => c == ' ' || c == '\t' || c == '\n' || c == '\r'

/-- The character of an escape of one letter. -/
def simpleEscape? : Char → Option Char
  | '"' => some '"'
  | '\\' => some '\\'
  | '/' => some '/'
  | 'b' => some '\x08'
  | 'f' => some '\x0c'
  | 'n' => some '\n'
  | 'r' => some '\r'
  | 't' => some '\t'
  | _ => none

/-- A code unit, when it is a character of its own. -/
def unitChar? (n : Nat) : Option Char :=
  if n < 0xD800 ∨ (0xDFFF < n ∧ n < 0x110000) then some (Char.ofNat n) else none

/-- Read a text up to its closing quote. A pair of surrogate escapes is one character. -/
def readText : List Char → List Char → Option (String × List Char)
  | acc, '"' :: rest => some (String.ofList acc.reverse, rest)
  | acc, '\\' :: 'u' :: a :: b :: c :: d :: '\\' :: 'u' :: a' :: b' :: c' :: d' :: rest =>
    match digitsIn? 16 [a, b, c, d], digitsIn? 16 [a', b', c', d'] with
    | some hi, some lo =>
      if 0xD800 ≤ hi ∧ hi < 0xDC00 then
        if 0xDC00 ≤ lo ∧ lo < 0xE000 then
          readText (Char.ofNat (0x10000 + (hi - 0xD800) * 0x400 + (lo - 0xDC00)) :: acc) rest
        else none
      else match unitChar? hi with
        | some x => readText (x :: acc) ('\\' :: 'u' :: a' :: b' :: c' :: d' :: rest)
        | none => none
    | _, _ => none
  | acc, '\\' :: 'u' :: a :: b :: c :: d :: rest =>
    match (digitsIn? 16 [a, b, c, d]).bind unitChar? with
    | some x => readText (x :: acc) rest
    | none => none
  | acc, '\\' :: e :: rest =>
    match simpleEscape? e with
    | some x => readText (x :: acc) rest
    | none => none
  | acc, c :: rest => if c.toNat < 0x20 then none else readText (c :: acc) rest
  | _, [] => none
termination_by _ cs => cs.length

/-- Append digits to a number as long as it stays below `2 ^ 64`, and count them. -/
def appendDigits : Nat → List Char → Nat × Nat
  | n, [] => (n, 0)
  | n, d :: ds =>
    let next := 10 * n + NumberText.ofDigits [d]
    if next < Bits.values 64 then
      let (m, count) := appendDigits next ds
      (m, count + 1)
    else (n, 0)

/-- Scale a positive number by a power of ten, which is rounded itself. Powers beyond the largest are divided out in
at most `fuel` turns; a result that is too large is none. -/
def scaleByTen : Nat → Binary64 → Int → Option Binary64
  | 0, _, _ => some .zero
  | fuel + 1, x, k =>
    let power (k : Nat) : Rat := (Binary64.ofDecimal false 1 k).value
    if k.natAbs ≤ 308 then
      let y := Binary64.ofRat (if k ≥ 0 then x.value * power k.natAbs else x.value / power k.natAbs)
      if y = .infinite false then none else some y
    else if x = .zero then some x
    else if k > 0 then none
    else scaleByTen fuel (Binary64.ofRat (x.value / power 308)) (k + 308)

/-- The 64-bit number of a decimal: the digits that fit 64 bits and the power of ten are rounded each, and so is what
they make together. -/
def realOf (n : NumberText) : Option Binary64 :=
  let (m, used) := appendDigits 0 n.whole
  let (m, usedFraction) := appendDigits m (n.fraction.getD [])
  let power := n.power.getD 0 + (n.whole.length - used : Nat) - usedFraction
  match scaleByTen 4 (.ofInt m) power with
  | some (.finite _ m e) => some (.finite n.negative m e)
  | _ => none

/-- Read a number. One without point and power is an integer if it fits 64 bits. -/
def readNumber (cs : List Char) : Option (Doc × List Char) :=
  let (negative, cs) := match cs with
    | '-' :: r => (true, r)
    | r => (false, r)
  match NumberText.readUnsigned negative cs with
  | none => none
  | some (n, rest) =>
    if n.whole.isEmpty ∨ n.fraction = some [] ∨ (1 < n.whole.length ∧ n.whole.head? = some '0') then none
    else if n.isWhole ∧ ¬ (negative ∧ n.toInt = 0) ∧ Bits.holdsEither 64 n.toInt then
      some (.int n.toInt, rest)
    else match realOf n with
      | some x => some (.real x, rest)
      | none => none

mutual

/-- Read a value. -/
def readValue : Nat → List Char → Option (Doc × List Char)
  | 0, _ => none
  | fuel + 1, cs =>
    match skipBlank cs with
    | 'n' :: 'u' :: 'l' :: 'l' :: rest => some (.null, rest)
    | 't' :: 'r' :: 'u' :: 'e' :: rest => some (.bool true, rest)
    | 'f' :: 'a' :: 'l' :: 's' :: 'e' :: rest => some (.bool false, rest)
    | '"' :: rest => do
      let (s, rest) ← readText [] rest
      return (.text s, rest)
    | '[' :: rest =>
      match skipBlank rest with
      | ']' :: rest => some (.list [], rest)
      | _ => do
        let (items, rest) ← readItems fuel rest
        return (.list items, rest)
    | '\x7b' :: rest =>
      match skipBlank rest with
      | '\x7d' :: rest => some (.map [], rest)
      | _ => do
        let (entries, rest) ← readEntries fuel rest
        return (.map entries, rest)
    | rest => readNumber rest

/-- Read the items of a list up to its closing bracket. -/
def readItems : Nat → List Char → Option (List Doc × List Char)
  | 0, _ => none
  | fuel + 1, cs => do
    let (item, rest) ← readValue fuel cs
    match skipBlank rest with
    | ',' :: rest =>
      let (items, rest) ← readItems fuel rest
      return (item :: items, rest)
    | ']' :: rest => return ([item], rest)
    | _ => none

/-- Read the entries of a map up to its closing brace. -/
def readEntries : Nat → List Char → Option (List (DocKey × Doc) × List Char)
  | 0, _ => none
  | fuel + 1, cs => do
    match skipBlank cs with
    | '"' :: rest =>
      let (key, rest) ← readText [] rest
      match skipBlank rest with
      | ':' :: rest =>
        let (value, rest) ← readValue fuel rest
        match skipBlank rest with
        | ',' :: rest =>
          let (entries, rest) ← readEntries fuel rest
          return ((.text key, value) :: entries, rest)
        | '\x7d' :: rest => return ([(.text key, value)], rest)
        | _ => none
      | _ => none
    | _ => none

end

/-- Read a whole text as one value. -/
def read (s : String) : Option Doc :=
  let cs := s.toList
  match readValue (cs.length + 1) cs with
  | some (d, rest) => if (skipBlank rest).isEmpty then some d else none
  | none => none

/-- A key that stands for an integer is a text that is an integer number. A case without content holds null. -/
def convention : Convention where
  intKey?
    | .text s => match readNumber s.toList with
      | some (.int i, []) => some i
      | _ => none
    | _ => none
  isNothing
    | .null => true
    | _ => false

end MaskLayout.Json
