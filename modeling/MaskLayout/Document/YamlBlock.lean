import MaskLayout.Document.YamlText

/-!
# Block texts of YAML

Block texts of YAML: the lines after a bar, which keep their breaks, or after an angle, which are folded. The lines
are indented alike, and the header says which breaks at the end stay.
-/

namespace MaskLayout.Yaml

/-- Which line breaks at the end of a block text stay. -/
inductive Chomp where
  | none
  | one
  | all

/-- The header of a block text. -/
structure BlockHeader where
  chomp : Chomp
  /-- How much deeper than its surroundings the text is indented, if that is said. -/
  deeper : Option Nat

/-- The sign of a header. -/
def chomp? : Char → Option Chomp
  | '+' => some .all
  | '-' => some .none
  | _ => none

/-- Read a header: a sign and a digit that is not zero, in either order. -/
def readHeader : List Char → Option (BlockHeader × List Char)
  | [] => some (⟨.one, none⟩, [])
  | c :: cs =>
    let depth (d : Char) : Option Nat := if d.isDigit then some (d.toNat - '0'.toNat) else none
    let (header, rest) : BlockHeader × List Char := match chomp? c, cs with
      | some chomp, d :: more => if d.isDigit then (⟨chomp, depth d⟩, more) else (⟨chomp, none⟩, cs)
      | some chomp, [] => (⟨chomp, none⟩, [])
      | none, s :: more =>
        if c.isDigit then match chomp? s with
          | some chomp => (⟨chomp, depth c⟩, more)
          | none => (⟨.one, depth c⟩, cs)
        else (⟨.one, none⟩, c :: cs)
      | none, [] => if c.isDigit then (⟨.one, depth c⟩, []) else (⟨.one, none⟩, [c])
    if header.deeper = some 0 then none else some (header, rest)

/-- The lines of a text. -/
def splitLines : List Char → List (List Char)
  | [] => [[]]
  | '\n' :: cs => [] :: splitLines cs
  | c :: cs => match splitLines cs with
    | [] => [[c]]
    | line :: rest => (c :: line) :: rest

/-- A line without its indentation, of which at most `indent` blanks are taken, and how many were. -/
def cutIndent (indent : Option Nat) (line : List Char) : Nat × List Char :=
  let blanks := (line.takeWhile (· == ' ')).length
  let column := match indent with
    | some n => min n blanks
    | none => blanks
  (column, line.drop column)

/-- Pass empty lines: how many there were, the deepest indentation seen, and the other lines. A tab does not
indent. -/
def passEmpty (indent : Option Nat) : Nat → Nat → List (List Char) → Option (Nat × Nat × List (List Char))
  | count, deepest, [] => some (count, deepest, [])
  | count, deepest, line :: more =>
    let (column, rest) := cutIndent indent line
    let deepest := max deepest column
    if rest.head? = some '\t' ∧ indent.all (column < ·) then none
    else if rest.isEmpty ∧ ¬ more.isEmpty then passEmpty indent (count + 1) deepest more
    else some (count, deepest, line :: more)

/-- The text of the lines at an indentation, whether a break ends the last of them, the number of empty lines after
it, and the lines that follow. `indented` tells whether the line before starts with a blank of its own, `broken` whether
there is one, and `empty` how many empty lines lie between. Folding leaves the breaks around such lines. -/
def blockLines (folded : Bool) (indent : Nat) :
    Nat → Bool → Bool → Nat → List (List Char) → Option (List Char × Bool × Nat × List (List Char))
  | 0, _, _, _, _ => none
  | _, _, broken, empty, [] => some ([], broken, empty, [])
  | fuel + 1, indented, broken, empty, line :: more =>
    let (column, rest) := cutIndent (some indent) line
    if column ≠ indent ∨ (rest.isEmpty ∧ more.isEmpty) then some ([], broken, empty, line :: more)
    else
      let indents := (rest.head?.map isBlank).getD false
      let joint : List Char :=
        if !broken then []
        else if folded && !indented && !indents then (if empty = 0 then [' '] else [])
        else ['\n']
      let here := joint ++ List.replicate empty '\n' ++ rest
      if more.isEmpty then some (here, false, 0, [])
      else do
        let (empty, _, more) ← passEmpty (some indent) 0 0 more
        let (text, broken, empty, left) ← blockLines folded indent fuel indents true empty more
        return (here ++ text, broken, empty, left)

/-- Read a block text after its mark, within a block at column `parent`. -/
def readBlockText (folded : Bool) (parent : Int) (cs : List Char) : Option (List Char × List Char) := do
  let (header, rest) ← readHeader cs
  let rest := rest.dropWhile isBlank
  let rest := if rest.head? = some '#' then rest.dropWhile (· != '\n') else rest
  match rest with
  | [] => return ([], [])
  | '\n' :: rest =>
    let given := header.deeper.map fun n => n + parent.toNat
    let (empty, deepest, lines) ← passEmpty given 0 0 (splitLines rest)
    let indent := given.getD (max deepest (max (parent + 1).toNat 1))
    let (text, broken, empty, left) ← blockLines folded indent (lines.length + 1) false false empty lines
    let last : List Char := if broken then ['\n'] else []
    let tail := match header.chomp with
      | .none => []
      | .one => last
      | .all => last ++ List.replicate empty '\n'
    return (text ++ tail, left.flatMap ('\n' :: ·))
  | _ => none

end MaskLayout.Yaml
