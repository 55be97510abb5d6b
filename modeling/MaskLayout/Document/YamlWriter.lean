import MaskLayout.Document.Scalar
import MaskLayout.Text.Hex

/-!
# Writing YAML

Writing YAML in blocks: maps and lists on lines of their own, indented by two blanks a level, except that a block
that is an item of a list starts on the line of its dash. A text is quoted when it could be taken for something
else.
-/

namespace MaskLayout.Yaml

/-- Words that some readers take for truth values or for nothing. -/
def reservedWords : List String :=
  ["yes", "Yes", "YES", "no", "No", "NO", "True", "TRUE", "true", "False", "FALSE", "false", "on", "On", "ON", "off",
    "Off", "OFF", "null", "Null", "NULL", "~"]

/-- Whether a character makes a text quoted wherever it stands. -/
def isSpecial (c : Char) : Bool :=
  ":\x7b\x7d[],#\x60\"'\\".toList.contains c ||
    (c.toNat < 0x20 && ([0x07, 0x08, 0x0b, 0x0c, 0x1b].all (· != c.toNat)))

/-- The lower-case letters of a word. -/
def lowered (cs : List Char) : List Char := cs.map Char.toLower

/-- Whether a text spells a number: an integer, a decimal, or a word for one that is none or infinite. -/
def spellsNumber (s : String) : Bool :=
  let rest := match s.toList with
    | '-' :: r => r
    | '+' :: r => r
    | r => r
  ["inf", "infinity", "nan"].any (fun w => lowered rest == w.toList) ||
    match NumberText.readUnsigned false rest with
    | some (n, []) => !n.whole.isEmpty || !(n.fraction.getD []).isEmpty
    | _ => false

/-- Whether a text must be quoted. -/
def needsQuotes (s : String) : Bool :=
  let cs := s.toList
  cs.isEmpty || cs.head? == some ' ' || cs.getLast? == some ' ' ||
    cs.head?.any "&*?|-<>=!%@.".toList.contains || cs.take 2 == ['0', 'x'] ||
    cs.any isSpecial || reservedWords.contains s || spellsNumber s

/-- The form of a character between quotes. -/
def escape (c : Char) : String :=
  match c with
  | '"' => "\\\""
  | '\\' => "\\\\"
  | '\x08' => "\\b"
  | '\t' => "\\t"
  | '\n' => "\\n"
  | '\x0c' => "\\f"
  | '\r' => "\\r"
  | c =>
    if c.toNat < 0x20 ∨ c.toNat = 0x7f then "\\u" ++ Text.hexFour c.toNat else c.toString

/-- A text, in quotes if it needs them. -/
def writeText (s : String) : String :=
  if needsQuotes s then "\"" ++ s.foldl (fun acc c => acc ++ escape c) "" ++ "\"" else s

/-- A key. -/
def writeKey : DocKey → String
  | .int i => toString i
  | k => writeText k.name

/-- The start of a line at a depth. -/
def newLine (depth : Nat) : String := "\n" ++ String.ofList (List.replicate (2 * depth) ' ')

/-- What stands between a colon and its value: a block starts a line. -/
def gapBefore (depth : Nat) : Doc → String
  | .list (_ :: _) => newLine depth
  | .map (_ :: _) => newLine depth
  | .variant _ _ => newLine depth
  | _ => " "

mutual

/-- Write a value; the lines of a block start at `depth`. -/
def writeAt : Nat → Doc → String
  | _, .null => "~"
  | _, .bool b => if b then "true" else "false"
  | _, .int i => toString i
  | _, .real x => RealFormat.document.render x
  | _, .text s => writeText s
  | _, .bare s => writeText s
  | _, .list [] => "[]"
  | depth, .list (d :: ds) => "- " ++ writeAt (depth + 1) d ++ writeItems depth ds
  | _, .map [] => "\x7b\x7d"
  | depth, .map ((k, d) :: es) => writeKey k ++ ":" ++ gapBefore (depth + 1) d ++ writeAt (depth + 1) d ++
      writeEntries depth es
  | depth, .variant name d => writeText name ++ ":" ++ gapBefore (depth + 1) d ++ writeAt (depth + 1) d

/-- Write the further items of a list. -/
def writeItems : Nat → List Doc → String
  | _, [] => ""
  | depth, d :: ds => newLine depth ++ "- " ++ writeAt (depth + 1) d ++ writeItems depth ds

/-- Write the further entries of a map. -/
def writeEntries : Nat → List (DocKey × Doc) → String
  | _, [] => ""
  | depth, (k, d) :: es => newLine depth ++ writeKey k ++ ":" ++ gapBefore (depth + 1) d ++ writeAt (depth + 1) d ++
      writeEntries depth es

end

/-- Write a document. -/
def write (d : Doc) : String := "---\n" ++ writeAt 0 d ++ "\n"

end MaskLayout.Yaml
