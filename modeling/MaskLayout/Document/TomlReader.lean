import MaskLayout.Document.Schema

/-!
# Reading TOML

Reading TOML: sections of entries, each under the header of its table or of a row of tables. A table is defined at most
once, though tables may be inside it before and after; names lead to the last table of a row.
-/

namespace MaskLayout.Toml

/-- Pass blanks. -/
def passBlanks (cs : List Char) : List Char := cs.dropWhile fun c => c == ' ' || c == '\t'

/-- Pass a comment, if one starts here. -/
def passComment : List Char → List Char
  | '#' :: cs => cs.dropWhile fun c => c == '\t' || 0x20 ≤ c.toNat
  | cs => cs

/-- Pass blanks, comments and line breaks. -/
def passLines : Nat → List Char → List Char
  | 0, cs => cs
  | fuel + 1, cs =>
    match passComment (passBlanks cs) with
    | '\n' :: rest => passLines fuel rest
    | rest => rest

/-- Pass the rest of a line, on which nothing but a comment may stand. -/
def endLine (cs : List Char) : Option (List Char) :=
  match passComment (passBlanks cs) with
  | '\n' :: rest => some rest
  | [] => some []
  | _ => none

/-- Line breaks of two characters as one. -/
def unifyBreaks : List Char → List Char
  | '\r' :: '\n' :: cs => '\n' :: unifyBreaks cs
  | c :: cs => c :: unifyBreaks cs
  | [] => []

/-- Whether a character may stand in a word without quotes. -/
def isWordChar (c : Char) : Bool := c.isAlphanum || c == '-' || c == '_'

/-- The word that stands here, and the rest. -/
def takeWord (cs : List Char) : List Char × List Char := (cs.takeWhile isWordChar, cs.dropWhile isWordChar)

/-- Read an escape after its backslash. -/
def readEscape : List Char → Option (Char × List Char)
  | '"' :: cs => some ('"', cs)
  | '\\' :: cs => some ('\\', cs)
  | 'b' :: cs => some ('\x08', cs)
  | 'f' :: cs => some ('\x0c', cs)
  | 'n' :: cs => some ('\n', cs)
  | 'r' :: cs => some ('\r', cs)
  | 't' :: cs => some ('\t', cs)
  | 'u' :: cs => numbered 4 cs
  | 'U' :: cs => numbered 8 cs
  | _ => none
where
  /-- The character whose number is written in `count` digits. -/
  numbered (count : Nat) (cs : List Char) : Option (Char × List Char) := do
    let n ← if count ≤ cs.length then digitsIn? 16 (cs.take count) else none
    if n < 0xD800 ∨ (0xDFFF < n ∧ n < 0x110000) then some (Char.ofNat n, cs.drop count) else none

/-- Read the rest of a text. One of many lines ends at three quotes, and up to two more before them belong to it. -/
def readText (quote : Char) (many : Bool) : Nat → List Char → Option (List Char × List Char)
  | 0, _ => none
  | fuel + 1, cs =>
    let go (start rest : List Char) : Option (List Char × List Char) := do
      let (text, rest) ← readText quote many fuel rest
      return (start ++ text, rest)
    match cs with
    | [] => none
    | c :: rest =>
      if c = quote then
        if !many then some ([], rest)
        else
          let quotes := (cs.takeWhile (· == quote)).length
          if quotes < 3 then go [c] rest
          else
            let more := min (quotes - 3) 2
            some (List.replicate more quote, cs.drop (more + 3))
      else if c = '\n' then
        if many then go [c] rest else none
      else if c = '\\' ∧ quote = '"' then
        match passBlanks rest, many with
        | '\n' :: after, true => go [] (after.dropWhile fun c => c == ' ' || c == '\t' || c == '\n')
        | _, _ => do
          let (c, rest) ← readEscape rest
          go [c] rest
      else if c = '\t' ∨ (0x20 ≤ c.toNat ∧ c.toNat ≠ 0x7f) then go [c] rest
      else none

/-- Read a text from its opening quote on, and tell whether it is one of many lines. -/
def readQuoted (quote : Char) (cs : List Char) : Option ((String × Bool) × List Char) := do
  if cs.take 2 = [quote, quote] then
    let rest := match cs.drop 2 with
      | '\n' :: rest => rest
      | rest => rest
    let (text, rest) ← readText quote true (rest.length + 1) rest
    return ((String.ofList text, true), rest)
  else
    let (text, rest) ← readText quote false (cs.length + 1) cs
    return ((String.ofList text, false), rest)

/-- Read a name of a key: a word, or a text of one line. -/
def readName (cs : List Char) : Option (String × List Char) :=
  let quoted (quote : Char) (cs : List Char) : Option (String × List Char) := do
    let ((name, many), rest) ← readQuoted quote cs
    if many then none else some (name, rest)
  match cs with
  | '"' :: rest => quoted '"' rest
  | '\'' :: rest => quoted '\'' rest
  | cs => match takeWord cs with
    | ([], _) => none
    | (word, rest) => some (String.ofList word, rest)

/-- Read a key, which is one or more names with points between them. -/
def readKey : Nat → List Char → Option (List String × List Char)
  | 0, _ => none
  | fuel + 1, cs => do
    let (name, rest) ← readName (passBlanks cs)
    match passBlanks rest with
    | '.' :: rest =>
      let (names, rest) ← readKey fuel rest
      return (name :: names, rest)
    | rest => return ([name], rest)

/-- Digits of a base without the single low lines that may stand between them. -/
def plainDigits? (base : Nat) : List Char → Option (List Char)
  | [] => none
  | [d] => (digitIn? base d).map fun _ => [d]
  | d :: '_' :: ds => do
    let _ ← digitIn? base d
    return d :: (← plainDigits? base ds)
  | d :: ds => do
    let _ ← digitIn? base d
    return d :: (← plainDigits? base ds)

/-- Read digits of base ten. -/
def readDigits (cs : List Char) : Option (List Char × List Char) := do
  let isDigit (c : Char) : Bool := c.isDigit || c == '_'
  return (← plainDigits? 10 (cs.takeWhile isDigit), cs.dropWhile isDigit)

/-- Read a fraction after its point, if there is a point. -/
def readFraction : List Char → Option (Option (List Char) × List Char)
  | '.' :: cs => do
    let (ds, rest) ← readDigits cs
    return (some ds, rest)
  | cs => some (none, cs)

/-- Read a power of ten after its mark, if there is a mark. -/
def readPower : List Char → Option (Option Int × List Char)
  | e :: cs =>
    if e = 'e' ∨ e = 'E' then do
      let (negative, cs) := match cs with
        | '-' :: r => (true, r)
        | '+' :: r => (false, r)
        | r => (false, r)
      let (ds, rest) ← readDigits cs
      let n : Int := NumberText.ofDigits ds
      return (some (if negative then -n else n), rest)
    else some (none, e :: cs)
  | [] => some (none, [])

/-- The integer of a magnitude, if it fits 64 bits with its sign. -/
def integer? (negative : Bool) (n : Nat) : Option Doc :=
  let i : Int := if negative then -n else n
  if Bits.holds 64 i then some (.int i) else none

/-- Read a decimal number. A number of several digits does not start with zero. -/
def readDecimal (negative : Bool) (cs : List Char) : Option (Doc × List Char) := do
  let (whole, rest) ← readDigits cs
  if 1 < whole.length ∧ whole.head? = some '0' then none
  else
    let (fraction, rest) ← readFraction rest
    let (power, rest) ← readPower rest
    let n : NumberText := ⟨negative, whole, fraction, power⟩
    if n.isWhole then return (← integer? negative (NumberText.ofDigits whole), rest)
    else match n.toReal with
      | .finite s m e => some (.real (.finite s m e), rest)
      | _ => none

/-- Read a number. -/
def readNumber (cs : List Char) : Option (Doc × List Char) :=
  let cs := match cs with
    | '+' :: r => r
    | r => r
  let marked (base : Nat) (cs : List Char) : Option (Doc × List Char) := do
    let (word, rest) := takeWord cs
    return (← integer? false (← digitsIn? base (← plainDigits? base word)), rest)
  match cs with
  | '0' :: 'x' :: rest => marked 16 rest
  | '0' :: 'o' :: rest => marked 8 rest
  | '0' :: 'b' :: rest => marked 2 rest
  | cs =>
    let (word, rest) := takeWord cs
    match String.ofList word with
    | "inf" => some (.real (.infinite false), rest)
    | "-inf" => some (.real (.infinite true), rest)
    | "nan" => some (.real (.nan false), rest)
    | "-nan" => some (.real (.nan true), rest)
    | _ => match cs with
      | '-' :: rest => readDecimal true rest
      | cs => readDecimal false cs

/-- The entries of a table: values, and tables that only the names of keys have brought about. -/
inductive Entry where
  | value (d : Doc)
  | table (entries : List (String × Entry))

mutual

/-- The document of an entry. -/
def Entry.toDoc : Entry → Doc
  | .value d => d
  | .table es => .map (entriesToDocs es)

/-- The documents of entries. -/
def entriesToDocs : List (String × Entry) → List (DocKey × Doc)
  | [] => []
  | (k, e) :: es => (.text k, e.toDoc) :: entriesToDocs es

end

/-- Add a value at a key. All names of a key but the last lead through tables that keys have brought about. -/
def addValue (d : Doc) : List String → List (String × Entry) → Option (List (String × Entry))
  | [], _ => none
  | [name], es => some (es ++ [(name, .value d)])
  | name :: names, es =>
    match es.span fun e => e.1 != name with
    | (before, (_, .table inner) :: after) => do
      return before ++ (name, .table (← addValue d names inner)) :: after
    | (_, (_, .value _) :: _) => none
    | (before, []) => do return before ++ [(name, .table (← addValue d names []))]

mutual

/-- Read a value. -/
def readValue : Nat → List Char → Option (Doc × List Char)
  | 0, _ => none
  | fuel + 1, cs =>
    match cs with
    | '"' :: rest => do
      let ((s, _), rest) ← readQuoted '"' rest
      return (.text s, rest)
    | '\'' :: rest => do
      let ((s, _), rest) ← readQuoted '\'' rest
      return (.text s, rest)
    | '[' :: rest => do
      let (items, rest) ← readItems fuel rest
      return (.list items, rest)
    | '\x7b' :: rest =>
      match passBlanks rest with
      | '\x7d' :: rest => some (.map [], rest)
      | _ => do
        let (es, rest) ← readInline fuel [] rest
        return (.map (entriesToDocs es), rest)
    | cs =>
      let (word, rest) := takeWord cs
      match String.ofList word with
      | "true" => some (.bool true, rest)
      | "false" => some (.bool false, rest)
      | _ => readNumber cs

/-- Read the items of a list up to its closing bracket. -/
def readItems : Nat → List Char → Option (List Doc × List Char)
  | 0, _ => none
  | fuel + 1, cs =>
    match passLines cs.length cs with
    | ']' :: rest => some ([], rest)
    | cs => do
      let (item, rest) ← readValue fuel cs
      match passLines rest.length rest with
      | ',' :: rest =>
        let (items, rest) ← readItems fuel rest
        return (item :: items, rest)
      | ']' :: rest => return ([item], rest)
      | _ => none

/-- Read the entries of a table on one line up to its closing brace. -/
def readInline : Nat → List (String × Entry) → List Char → Option (List (String × Entry) × List Char)
  | 0, _, _ => none
  | fuel + 1, es, cs => do
    let (key, rest) ← readKey (cs.length + 1) cs
    match rest with
    | '=' :: rest =>
      let (d, rest) ← readValue fuel (passBlanks rest)
      let es ← addValue d key es
      match passBlanks rest with
      | ',' :: rest => readInline fuel es rest
      | '\x7d' :: rest => return (es, rest)
      | _ => none
    | _ => none

end

/-- A section: the path of its header, whether it is another table of a row, and its entries. -/
structure Section where
  path : List String
  inRow : Bool
  entries : List (String × Entry)

/-- Read a header after its first bracket. -/
def readHeader (cs : List Char) : Option (Section × List Char) := do
  let (inRow, cs) := match cs with
    | '[' :: r => (true, r)
    | r => (false, r)
  let (path, rest) ← readKey (cs.length + 1) cs
  match inRow, rest with
  | true, ']' :: ']' :: rest => return (⟨path, true, []⟩, ← endLine rest)
  | false, ']' :: rest => return (⟨path, false, []⟩, ← endLine rest)
  | _, _ => none

/-- Read the sections of a text, the first of which has begun. -/
def readSections : Nat → Section → List Char → Option (List Section)
  | 0, _, _ => none
  | fuel + 1, s, cs =>
    match passLines cs.length cs with
    | [] => some [s]
    | '[' :: rest => do
      let (next, rest) ← readHeader rest
      return s :: (← readSections fuel next rest)
    | cs => do
      let (key, rest) ← readKey (cs.length + 1) cs
      match rest with
      | '=' :: rest =>
        let (d, rest) ← readValue (2 * cs.length + 2) (passBlanks rest)
        let rest ← endLine rest
        let entries ← addValue d key s.entries
        readSections fuel { s with entries } rest
      | _ => none

/-- A table as its sections make it up, or a row of such tables. -/
inductive Node where
  | table (defined : Bool) (entries : List (String × Entry)) (inner : List (String × Node))
  | row (tables : List Node)

namespace Node

/-- A table that headers have led through, but that none has defined. -/
def passed : Node := .table false [] []

/-- Define a table by a section. It must not be defined yet. -/
def define (entries : List (String × Entry)) : Node → Option Node
  | .table false _ inner => some (.table true entries inner)
  | _ => none

/-- Put a section below a node: it defines the table at its path, or adds one to the row there. -/
def place (s : Section) : List String → Node → Option Node
  | [], .table defined es inner => define s.entries (.table defined es inner)
  | [], .row _ => none
  | name :: names, .table defined es inner =>
    let (before, found) := inner.span fun e => e.1 != name
    let put (n : Node) : Node := .table defined es (before ++ (name, n) :: found.tail)
    match found.head?, names, s.inRow with
    | none, [], true => some (put (.row [.table true s.entries []]))
    | some (_, .row ts), [], true => some (put (.row (ts ++ [.table true s.entries []])))
    | some (_, .table _ _ _), [], true => none
    | some (_, .row ts), names, _ => do
      return put (.row (ts.dropLast ++ [← place s names (ts.getLast?.getD passed)]))
    | some (_, n), names, _ => do return put (← place s names n)
    | none, names, _ => do return put (← place s names passed)
  | _ :: _, .row _ => none

mutual

/-- The document of a node: the entries of a table come before its inner tables. -/
def toDoc : Node → Doc
  | .table _ es inner => .map (entriesToDocs es ++ innerToDocs inner)
  | .row ts => .list (rowToDocs ts)

/-- The documents of inner tables. -/
def innerToDocs : List (String × Node) → List (DocKey × Doc)
  | [] => []
  | (k, n) :: ns => (.text k, n.toDoc) :: innerToDocs ns

/-- The documents of the tables of a row. -/
def rowToDocs : List Node → List Doc
  | [] => []
  | n :: ns => n.toDoc :: rowToDocs ns

end

end Node

/-- Read a text as one table. -/
def read (s : String) : Option Doc := do
  let cs := unifyBreaks s.toList
  let sections ← readSections (cs.length + 1) ⟨[], false, []⟩ cs
  let root ← sections.foldlM (fun n s => Node.place s s.path n) .passed
  return root.toDoc

/-- Read a text as one of several cases: a single value at its start, or a single table under the name of its case. -/
def readCase (s : String) : Option Doc :=
  let cs := unifyBreaks s.toList
  match cs with
  | '[' :: _ => do
    match ← readSections (cs.length + 1) ⟨[], false, []⟩ cs with
    | [_, s] => return .map [(.text (s.path.getLast?.getD ""), .map (entriesToDocs s.entries))]
    | _ => none
  | cs => (readValue (2 * cs.length + 2) cs).map (·.1)

/-- Keys are texts and never stand for integers. A case without content holds an empty table. -/
def convention : Convention where
  intKey? _ := none
  isNothing
    | .map [] => true
    | _ => false

end MaskLayout.Toml
