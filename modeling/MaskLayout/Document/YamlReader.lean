import MaskLayout.Document.Schema
import MaskLayout.Document.YamlBlock

/-!
# Reading YAML

Reading YAML: one document of maps, lists and texts, in blocks by indentation or in flows between brackets. A value can
be given a name, by which it stands again further on. Keys are texts.
-/

namespace MaskLayout.Yaml

/-- The values that have been given names, the latest first. -/
abbrev Anchors := List (String × Doc)

/-- A reader of a part of a text. -/
abbrev Reading := StateT Anchors Option

/-- What stands for a value that is not written. -/
def nothing : Doc := .bare "~"

/-- What stands before a value: a name for it, and its tag. -/
structure Properties where
  anchor : Option String
  tag : Option String

/-- Whether a character can be in a name. -/
def isNameChar (c : Char) : Bool := c.isAlphanum || c == '_' || c == '-'

/-- Read a name, which must not be empty. -/
def readName (cs : List Char) : Option (String × List Char) :=
  let name := cs.takeWhile isNameChar
  let rest := cs.dropWhile isNameChar
  let ends := atGap rest || (rest.head?.map "?:,]\x7d%@\x60".toList.contains).getD false
  if name.isEmpty || !ends then none else some (String.ofList name, rest)

/-- Read a tag after its first mark. In a flow it ends at a mark of the flow. -/
def readTag (flow : Bool) (cs : List Char) : String × List Char :=
  let inside (c : Char) : Bool := !atGap [c] && !(flow && atFlowMark [c])
  (String.ofList (cs.takeWhile inside), cs.dropWhile inside)

/-- The properties before a value, if there are any. -/
def properties? (flow : Bool) (cs : List Char) : Option (Properties × List Char) :=
  match cs with
  | '&' :: rest => do
    let (name, rest) ← readName rest
    match rest.dropWhile isBlank with
    | '!' :: rest =>
      let (tag, rest) := readTag flow rest
      return (⟨some name, some tag⟩, rest)
    | _ => return (⟨some name, none⟩, rest)
  | '!' :: rest =>
    let (tag, rest) := readTag flow rest
    match rest.dropWhile isBlank with
    | '&' :: rest => do
      let (name, rest) ← readName rest
      return (⟨some name, some tag⟩, rest)
    | _ => some (⟨none, some tag⟩, rest)
  | _ => none

/-- Whether properties stand here. -/
def atProperties : List Char → Bool
  | c :: _ => c == '&' || c == '!'
  | [] => false

/-- The value with a tag. Tags of numbers, truth values and nothing make a scalar a bare one, and others a text. -/
def Properties.apply (p : Properties) (d : Doc) : Doc :=
  let scalar (s : String) : Doc := match p.tag with
    | none => d
    | some tag => if ["!int", "!float", "!bool", "!null"].contains tag then .bare s else .text s
  match d with
  | .bare s => scalar s
  | .text s => scalar s
  | d => d

/-- Give a value its properties, and keep it under its name. -/
def Properties.give (p : Properties) (d : Doc) : Reading Doc := do
  let d := p.apply d
  match p.anchor with
  | some name => modify ((name, d) :: ·)
  | none => pure ()
  return d

/-- A scalar, whether it is quoted, and whether it has more than one line. -/
structure Word where
  value : Doc
  quoted : Bool
  many : Bool

/-- The key that a value makes, which must be a text. -/
def key? : Doc → Option DocKey
  | .text s => some (.text s)
  | .bare s => some (.bare s)
  | _ => none

/-- Read a quoted or plain text. -/
def readText (flow : Bool) (indent : Int) (cs : List Char) : Option (Word × List Char) :=
  match cs with
  | [] => none
  | '"' :: rest => do
    let (text, rest) ← readQuoted true (rest.length + 1) rest
    return (⟨.text (String.ofList text), true, false⟩, rest)
  | '\'' :: rest => do
    let (text, rest) ← readQuoted false (rest.length + 1) rest
    return (⟨.text (String.ofList text), true, false⟩, rest)
  | c :: cs =>
    let reserved := "#&*!%@\x60,[]\x7b\x7d".toList.contains c || (!flow && (c == '|' || c == '>'))
    if reserved || ("-?:".toList.contains c && atGap cs) then none
    else
      let (text, rest, many) := readPlain flow indent (cs.length + 1) (c :: cs)
      if text.isEmpty then none else some (⟨.bare (String.ofList text), false, many⟩, rest)

/-- Read a word: a text with its properties on the same line, or the name of an earlier value. -/
def readWord (flow : Bool) (indent : Int) (cs : List Char) : Reading (Word × List Char) := do
  match cs with
  | '*' :: rest =>
    let (name, rest) ← readName rest
    let value ← (← get).lookup name
    return (⟨value, false, false⟩, rest)
  | cs =>
    match properties? flow cs with
    | some (p, rest) =>
      let rest := rest.dropWhile isBlank
      if atGap rest || atColon flow rest || (flow && atFlowMark rest) then
        return (⟨← p.give (.bare ""), false, false⟩, rest)
      else
        let (w, rest) ← readText flow indent rest
        return ({ w with value := ← p.give w.value }, rest)
    | none =>
      if atProperties cs then failure
      else readText flow indent cs

/-- Whether a list or a map of a flow starts here, after its properties. -/
def atBracket (cs : List Char) : Bool :=
  let rest := match properties? true cs with
    | some (_, rest) => nextInFlow rest
    | none => cs
  match rest with
  | '[' :: _ => true
  | '\x7b' :: _ => true
  | _ => false

mutual

/-- Read a value of a flow. -/
def readFlow : Nat → List Char → Reading (Doc × List Char)
  | 0, _ => failure
  | fuel + 1, cs =>
    match cs with
    | '[' :: rest => do
      let (items, rest) ← readFlowItems fuel rest
      return (.list items, rest)
    | '\x7b' :: rest => do
      let (entries, rest) ← readFlowEntries fuel rest
      return (.map entries, rest)
    | cs => do
      if atBracket cs then
        let (p, rest) ← properties? true cs
        let (d, rest) ← readFlow fuel (nextInFlow rest)
        return (← p.give d, rest)
      else
        let (w, rest) ← readWord true 0 cs
        return (w.value, rest)

/-- Read the items of a list up to its closing bracket. An item with a colon is a map of one entry. -/
def readFlowItems : Nat → List Char → Reading (List Doc × List Char)
  | 0, _ => failure
  | fuel + 1, cs =>
    match nextInFlow cs with
    | ']' :: rest => return ([], rest)
    | cs => do
      let (item, rest) ← if atBracket cs then readFlow fuel cs else do
        let ((key, value?), rest) ← readFlowEntry fuel cs
        match value? with
        | some value => pure (.map [(← key? key, value)], rest)
        | none => pure (key, rest)
      match nextInFlow rest with
      | ',' :: rest =>
        let (items, rest) ← readFlowItems fuel rest
        return (item :: items, rest)
      | ']' :: rest => return ([item], rest)
      | _ => failure

/-- Read the entries of a map up to its closing brace. -/
def readFlowEntries : Nat → List Char → Reading (List (DocKey × Doc) × List Char)
  | 0, _ => failure
  | fuel + 1, cs =>
    match nextInFlow cs with
    | '\x7d' :: rest => return ([], rest)
    | cs => do
      let ((key, value?), rest) ← readFlowEntry fuel cs
      let entry := (← key? key, value?.getD nothing)
      match nextInFlow rest with
      | ',' :: rest =>
        let (entries, rest) ← readFlowEntries fuel rest
        return (entry :: entries, rest)
      | '\x7d' :: rest => return ([entry], rest)
      | _ => failure

/-- Read a word, and the value after its colon if there is a colon. -/
def readFlowEntry : Nat → List Char → Reading ((Doc × Option Doc) × List Char)
  | 0, _ => failure
  | fuel + 1, cs => do
    let (key, rest) ← readWord true 0 cs
    match nextInFlow rest with
    | ':' :: after =>
      if atColon true (':' :: after) || key.quoted then
        match nextInFlow after with
        | ',' :: _ => return ((key.value, some nothing), after)
        | ']' :: _ => return ((key.value, some nothing), after)
        | '\x7d' :: _ => return ((key.value, some nothing), after)
        | cs =>
          let (value, rest) ← readFlow fuel cs
          return ((key.value, some value), rest)
      else failure
    | _ => return ((key.value, none), rest)

end

/-- Whether a dash stands here that starts an item. -/
def atDash : List Char → Bool
  | '-' :: cs => atGap cs
  | _ => false

/-- Whether a bracket, a brace or the mark of a block text stands here. -/
def atMark : List Char → Bool
  | c :: _ => c == '[' || c == '\x7b' || c == '|' || c == '>'
  | [] => false

/-- Whether the document ends here. -/
def atEnd (c : Cursor) : Bool := c.rest.isEmpty || atDocumentMark c

/-- What comes after a value of a block at a column. -/
inductive Onward where
  | stop
  | more (c : Cursor)
  | broken

/-- Look for more of a block at a column after one of its values. -/
def onward (column : Nat) (rest : List Char) : Onward :=
  let (next, crossed) := Cursor.next ⟨rest, 1⟩
  if atEnd next then .stop
  else if !crossed then .broken
  else if next.column = column then .more next
  else if next.column < column then .stop
  else .broken

mutual

/-- Read a value whose first token is at the cursor. It belongs to a block at column `indent`; blocks of its own cannot
start on the line of a key. -/
def readNode : Nat → Int → Bool → Cursor → Reading (Doc × List Char)
  | 0, _, _, _ => failure
  | fuel + 1, indent, afterKey, c =>
    if atDash c.rest then
      if afterKey then failure
      else do
        let (items, rest) ← readItems fuel c
        return (.list items, rest)
    else match c.rest with
      | '[' :: _ => readFlow fuel c.rest
      | '\x7b' :: _ => readFlow fuel c.rest
      | '|' :: rest => do
        let (text, rest) ← readBlockText false indent rest
        return (.text (String.ofList text), rest)
      | '>' :: rest => do
        let (text, rest) ← readBlockText true indent rest
        return (.text (String.ofList text), rest)
      | cs => match properties? false cs with
        | none => readLine fuel indent afterKey c
        | some (p, rest) => do
          let after : Cursor := ⟨rest, c.column + 1⟩
          let (next, crossed) := after.next
          if crossed || atEnd next then
            let (d, rest) ← readValue fuel indent afterKey after
            return (← p.give d, rest)
          else if atMark next.rest then
            let (d, rest) ← readNode fuel indent afterKey next
            return (← p.give d, rest)
          else readLine fuel indent afterKey c

/-- Read a value that starts with a word: the word itself, or a map whose first key it is. -/
def readLine : Nat → Int → Bool → Cursor → Reading (Doc × List Char)
  | 0, _, _, _ => failure
  | fuel + 1, indent, afterKey, c => do
    let (w, rest) ← readWord false indent c.rest
    if atColon false (rest.dropWhile isBlank) then
      if afterKey || w.many then failure
      else
        let (entries, rest) ← readEntries fuel c
        return (.map entries, rest)
    else return (w.value, rest)

/-- Read the value after a dash or a colon of a block at `column`. -/
def readValue : Nat → Int → Bool → Cursor → Reading (Doc × List Char)
  | 0, _, _, _ => failure
  | fuel + 1, column, afterKey, c =>
    let (next, crossed) := c.next
    if atEnd next then return (nothing, c.rest)
    else if !crossed then readNode fuel column afterKey next
    else if (next.column : Int) > column then readNode fuel column false next
    else if afterKey ∧ (next.column : Int) = column ∧ atDash next.rest then readNode fuel column false next
    else return (nothing, c.rest)

/-- Read the items of a list from its first dash on. -/
def readItems : Nat → Cursor → Reading (List Doc × List Char)
  | 0, _ => failure
  | fuel + 1, c => do
    let (item, rest) ← readValue fuel c.column false ⟨c.rest.drop 1, c.column + 1⟩
    match onward c.column rest with
    | .stop => return ([item], rest)
    | .broken => failure
    | .more next =>
      if atDash next.rest then
        let (items, rest) ← readItems fuel next
        return (item :: items, rest)
      else return ([item], rest)

/-- Read the entries of a map from its first key on. -/
def readEntries : Nat → Cursor → Reading (List (DocKey × Doc) × List Char)
  | 0, _ => failure
  | fuel + 1, c => do
    let (word, rest) ← readWord false c.column c.rest
    let colon := rest.dropWhile isBlank
    if word.many || !atColon false colon then failure
    else
      let key ← key? word.value
      let (value, rest) ← readValue fuel c.column true ⟨colon.drop 1, c.column + 1⟩
      match onward c.column rest with
      | .stop => return ([(key, value)], rest)
      | .broken => failure
      | .more next =>
        let (entries, rest) ← readEntries fuel next
        return ((key, value) :: entries, rest)

end

/-- Pass the lines that start with a percent sign before a document, and tell whether there were any. -/
def passDirectives : Nat → Bool → Cursor → Bool × Cursor
  | 0, found, c => (found, c)
  | fuel + 1, found, c =>
    match c with
    | ⟨'%' :: cs, 0⟩ => passDirectives fuel true (Cursor.next ⟨cs.dropWhile (· != '\n'), 1⟩).1
    | c => (found, c)

/-- Read the document after its mark, if it has one; after directives it must. -/
def readDocument (fuel : Nat) (c : Cursor) : Reading (Doc × List Char) :=
  let (found, c) := passDirectives fuel false c
  if c.rest.take 3 = ['-', '-', '-'] ∧ atDocumentMark c then
    let after : Cursor := ⟨c.rest.drop 3, 3⟩
    let (next, crossed) := after.next
    if atEnd next then return (nothing, after.rest) else readNode fuel (-1) (!crossed) next
  else if found || atEnd c then failure
  else readNode fuel (-1) false c

/-- Whether nothing comes after a document: its mark of the end at most. -/
def isLast : Nat → List Char → Bool
  | 0, _ => true
  | fuel + 1, rest =>
    let (next, crossed) := Cursor.next ⟨rest, 1⟩
    match next.rest with
    | [] => true
    | '.' :: _ => crossed && atDocumentMark next && isLast fuel (next.rest.drop 3)
    | _ => false

/-- Read a text that holds just one document. -/
def read (s : String) : Option Doc :=
  let cs := unifyBreaks s.toList
  let fuel := 4 * cs.length + 4
  match (readDocument fuel (Cursor.next ⟨cs, 0⟩).1).run [] with
  | some ((d, rest), _) => if isLast fuel rest then some d else none
  | none => none

/-- Keys of maps from integers are bare. A case without content holds nothing at all. -/
def convention : Convention where
  intKey?
    | .bare s => match Scalar.read s with
      | .int i => some i
      | _ => none
    | _ => none
  isNothing d := match d.meaning with
    | .null => true
    | _ => false

end MaskLayout.Yaml
