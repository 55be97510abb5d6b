import MaskLayout.Document.Basic
import MaskLayout.Text.Hex

/-!
# Writing TOML

Writing TOML: one line for every value, under the header of its table. A header is not written before it is needed,
that is before the first value of its table, so a table that only holds tables has none. Once a header of an inner
table is written, its outer tables are closed: a value that belongs to one of them can no longer be written.
-/

namespace MaskLayout.Toml

/-- What a list turns out to be by its first item. -/
inductive RowKind where
  | values
  | tables
deriving DecidableEq

/-- A table or list that is being written. -/
inductive Frame where
  /-- A table at a key, whether that key is its first one, and whether the table is closed. -/
  | table (key : String) (first closed : Bool)
  /-- A list, whether it is at its first item, and its kind as soon as that is known. -/
  | row (first : Bool) (kind : Option RowKind)

/-- The tables and lists around a value, the innermost first. -/
abbrev Around := List Frame

/-- The form of a character between quotes. -/
def escape (c : Char) : String :=
  match c with
  | '"' => "\\\""
  | '\\' => "\\\\"
  | '\x08' => "\\b"
  | '\t' => "\\t"
  | '\n' => "\\n"
  | '\x0c' => "\\f"
  | '\r' => "\\r"
  | c =>
    if c.toNat < 0x20 ∨ c.toNat = 0x7f then
      "\\u" ++ String.ofList ((Text.hexFour c.toNat).toList.map Char.toUpper)
    else c.toString

/-- A text in quotes. -/
def quote (s : String) : String := "\"" ++ s.foldl (fun acc c => acc ++ escape c) "" ++ "\""

/-- Whether a character may stand in a key without quotes. -/
def isKeyChar (c : Char) : Bool := c.isAlphanum || c == '-' || c == '_'

/-- A key, in quotes if it needs them. -/
def writeKey (k : String) : String :=
  if !k.isEmpty && k.toList.all isKeyChar then k else quote k

/-- The keys that lead to a value, the outermost first. -/
def path (around : Around) : List String :=
  around.reverse.filterMap fun
    | .table key _ _ => some key
    | .row _ _ => none

/-- The same frames with every table closed. -/
def close (around : Around) : Around :=
  around.map fun
    | .table key first _ => .table key first true
    | frame => frame

/-- Whether a header here starts with an empty line: it does unless it is the first one of its table. -/
def spaced : Around → Bool
  | .table _ first _ :: _ => !first
  | .row false _ :: _ => true
  | .row true _ :: .table _ first _ :: _ => !first
  | _ => false

/-- The header of a table, or of a row of tables, after the headers that must come first. -/
def headerLine (before : String) (around : Around) : String × Around :=
  let name := ".".intercalate ((path around).map writeKey)
  let line := match around with
    | .row _ _ :: _ => "[[" ++ name ++ "]]\n"
    | _ => "[" ++ name ++ "]\n"
  (before ++ (if spaced around then "\n" else "") ++ line, close around)

/-- The headers of the rows of tables further out that are still missing. -/
def outerHeaders : Around → String × Around
  | .table key true closed :: .row first kind :: .table k f c :: rest =>
    let (before, rest) := if first then outerHeaders (.table k f c :: rest) else ("", .table k f c :: rest)
    let (text, around) := headerLine before (.row first kind :: rest)
    (text, .table key true closed :: around)
  | .table key true closed :: rest =>
    let (text, rest) := outerHeaders rest
    (text, .table key true closed :: rest)
  | around => ("", around)

/-- The header of the innermost table or row, with all headers that must come first. -/
def header (around : Around) : String × Around :=
  match around with
  | [] => ("", [])
  | .row true kind :: rest =>
    let (before, rest) := outerHeaders rest
    headerLine before (.row true kind :: rest)
  | .row false kind :: rest => headerLine "" (.row false kind :: rest)
  | around =>
    let (before, around) := outerHeaders around
    headerLine before around

/-- What comes before a value: its key, after the header of its table if that is missing, or the bracket or comma of a
list. -/
def lead : Around → Option (String × Around)
  | [] => some ("", [])
  | .row true kind :: rest => do
    let (text, rest) ← lead rest
    return (text ++ "[", .row true kind :: rest)
  | .row false kind :: rest => some (", ", .row false kind :: rest)
  | .table key first closed :: rest =>
    if closed then none
    else
      let (text, rest) := if first then header rest else ("", rest)
      some (text ++ writeKey key ++ " = ", .table key false false :: rest)

/-- The same frames, where the innermost list knows its kind. -/
def known (kind : RowKind) : Around → Around
  | .row first none :: rest => .row first (some kind) :: rest
  | around => around

/-- What comes after a value. -/
def trail : Around → String
  | .table _ _ _ :: _ => "\n"
  | _ => ""

/-- Write a value of one word. -/
def writeWord (word : String) (around : Around) : Option (String × Around) := do
  let (text, around) ← lead (known .values around)
  return (text ++ word ++ trail around, around)

/-- The frames after an item or entry of the innermost frame. -/
def advance : Around → Around
  | .table key _ closed :: rest => .table key false closed :: rest
  | .row _ kind :: rest => .row false kind :: rest
  | [] => []

/-- The same frames at another key of the innermost table. -/
def atKey (key : String) : Around → Around
  | .table _ first closed :: rest => .table key first closed :: rest
  | around => around

mutual

/-- Write a value. Cases with content, and nothing at all, cannot be written. -/
def writeAt : Doc → Around → Option (String × Around)
  | .null, _ => none
  | .bool b, around => writeWord (if b then "true" else "false") around
  | .int i, around => writeWord (toString i) around
  | .real x, around => writeWord (RealFormat.table.render x) around
  | .text s, around => writeWord (quote s) around
  | .bare s, around => writeWord (quote s) around
  | .variant _ _, _ => none
  | .list ds, around => do
    let (text, around) ← writeItems ds (.row true none :: known .values around)
    match around with
    | .row _ (some .tables) :: around => return (text, around)
    | .row _ (some .values) :: around => return (text ++ "]" ++ trail around, around)
    | around =>
      let (start, around) ← lead around.tail
      return (text ++ start ++ "[]" ++ trail around, around)
  | .map es, around => do
    let (text, around) ← writeEntries es (.table "" true false :: known .tables around)
    match around with
    | .table _ true _ :: around =>
      let (line, around) := header around
      return (text ++ line, around)
    | around => return (text, around.tail)

/-- Write the items of the innermost list. -/
def writeItems : List Doc → Around → Option (String × Around)
  | [], around => some ("", around)
  | d :: ds, around => do
    let (text, around) ← writeAt d around
    let (more, around) ← writeItems ds (advance around)
    return (text ++ more, around)

/-- Write the entries of the innermost table. Entries that hold nothing are left out, and keys must be texts. -/
def writeEntries : List (DocKey × Doc) → Around → Option (String × Around)
  | [], around => some ("", around)
  | (.int _, _) :: _, _ => none
  | (_, .null) :: es, around => writeEntries es around
  | (k, d) :: es, around => do
    let (text, around) ← writeAt d (atKey k.name around)
    let (more, around) ← writeEntries es (advance around)
    return (text ++ more, around)

end

/-- Write a document, if it can be written. -/
def write (d : Doc) : Option String := (writeAt d []).map (·.1)

end MaskLayout.Toml
