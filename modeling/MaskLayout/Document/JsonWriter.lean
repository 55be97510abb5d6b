import MaskLayout.Document.Basic
import MaskLayout.Text.Hex

/-!
# Writing JSON

Writing JSON: every item on a line of its own, indented by two blanks. Numbers that JSON lacks are written as null.
-/

namespace MaskLayout.Json

/-- The form of a character inside quotes. -/
def escape (c : Char) : String :=
  match c with
  | '"' => "\\\""
  | '\\' => "\\\\"
  | '\x08' => "\\b"
  | '\x0c' => "\\f"
  | '\n' => "\\n"
  | '\r' => "\\r"
  | '\t' => "\\t"
  | c =>
    if c.toNat < 0x20 then "\\u" ++ Text.hexFour c.toNat else c.toString

/-- A text in quotes. -/
def quote (s : String) : String := "\"" ++ s.foldl (fun acc c => acc ++ escape c) "" ++ "\""

/-- The start of a line at a depth. -/
def newline (depth : Nat) : String := "\n" ++ String.ofList (List.replicate (2 * depth) ' ')

mutual

/-- Write a value that stands at a depth. -/
def writeAt : Nat → Doc → String
  | _, .null => "null"
  | _, .bool b => if b then "true" else "false"
  | _, .int i => toString i
  | _, .real x => match x with
    | .finite .. => RealFormat.document.render x
    | _ => "null"
  | _, .text s => quote s
  | _, .bare s => quote s
  | _, .list [] => "[]"
  | depth, .list (d :: ds) =>
    "[" ++ newline (depth + 1) ++ writeAt (depth + 1) d ++ writeItems (depth + 1) ds ++ newline depth ++ "]"
  | _, .map [] => "\x7b\x7d"
  | depth, .map ((k, d) :: es) =>
    "\x7b" ++ newline (depth + 1) ++ quote k.name ++ ": " ++ writeAt (depth + 1) d ++
      writeEntries (depth + 1) es ++ newline depth ++ "\x7d"
  | depth, .variant name d =>
    "\x7b" ++ newline (depth + 1) ++ quote name ++ ": " ++ writeAt (depth + 1) d ++ newline depth ++ "\x7d"

/-- Write the further items of a list. -/
def writeItems : Nat → List Doc → String
  | _, [] => ""
  | depth, d :: ds => "," ++ newline depth ++ writeAt depth d ++ writeItems depth ds

/-- Write the further entries of a map. -/
def writeEntries : Nat → List (DocKey × Doc) → String
  | _, [] => ""
  | depth, (k, d) :: es =>
    "," ++ newline depth ++ quote k.name ++ ": " ++ writeAt depth d ++ writeEntries depth es

end

/-- Write a document. -/
def write (d : Doc) : String := writeAt 0 d

end MaskLayout.Json
