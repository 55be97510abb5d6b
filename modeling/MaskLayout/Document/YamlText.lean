import MaskLayout.Document.Basic

/-!
# Texts of YAML

The pieces of a YAML text: the gaps between tokens, quoted texts, and plain texts, which may go on in further lines.
Where a text goes on in another line, one line break stands for a blank, and each further one for a line break.
-/

namespace MaskLayout.Yaml

/-- What is left of a text, and the column where it goes on. The column counts from the start of a line as long as only
blanks and dashes have been passed on it. -/
structure Cursor where
  rest : List Char
  column : Nat

/-- Whether a character is a blank. -/
def isBlank (c : Char) : Bool := c == ' ' || c == '\t'

/-- Whether a token ends here: at a blank, a line break or the end. -/
def atGap : List Char → Bool
  | [] => true
  | c :: _ => isBlank c || c == '\n'

/-- Whether a bracket or a comma of a flow stands here. -/
def atFlowMark : List Char → Bool
  | [] => false
  | c :: _ => c == ',' || c == '[' || c == ']' || c == '\x7b' || c == '\x7d'

/-- Whether a colon stands here that ends a key. -/
def atColon (flow : Bool) : List Char → Bool
  | ':' :: cs => atGap cs || (flow && atFlowMark cs)
  | _ => false

/-- Whether the mark of the start or the end of a document stands here. -/
def atDocumentMark : Cursor → Bool
  | ⟨'-' :: '-' :: '-' :: cs, 0⟩ => atGap cs
  | ⟨'.' :: '.' :: '.' :: cs, 0⟩ => atGap cs
  | _ => false

/-- Line breaks of every kind as one. -/
def unifyBreaks : List Char → List Char
  | '\r' :: '\n' :: cs => '\n' :: unifyBreaks cs
  | '\r' :: cs => '\n' :: unifyBreaks cs
  | c :: cs => c :: unifyBreaks cs
  | [] => []

/-- Pass blanks, comments and line breaks, and tell whether a line break was among them. Outside of flows, a tab does
not indent. -/
def passGap (flow : Bool) : Bool → Bool → Nat → List Char → Cursor × Bool
  | _, crossed, column, [] => (⟨[], column⟩, crossed)
  | comment, crossed, column, c :: cs =>
    if c == '\n' then passGap flow false true 0 cs
    else if comment then passGap flow true crossed (column + 1) cs
    else if c == ' ' || (c == '\t' && (flow || !crossed)) then passGap flow false crossed (column + 1) cs
    else if c == '#' then passGap flow true crossed (column + 1) cs
    else (⟨c :: cs, column⟩, crossed)

/-- The next token outside of flows, and whether it is on another line. -/
def Cursor.next (c : Cursor) : Cursor × Bool := passGap false false false c.column c.rest

/-- The next token inside of a flow. -/
def nextInFlow (cs : List Char) : List Char := (passGap true false false 0 cs).1.rest

/-- Pass blanks and line breaks inside of a text: the number of breaks, and where it goes on. -/
def passBreaks : Nat → Nat → List Char → Nat × Cursor
  | breaks, column, [] => (breaks, ⟨[], column⟩)
  | breaks, column, c :: cs =>
    if c == '\n' then passBreaks (breaks + 1) 0 cs
    else if isBlank c then passBreaks breaks (column + 1) cs
    else (breaks, ⟨c :: cs, column⟩)

/-- What line breaks inside of a text stand for. -/
def joint (breaks : Nat) : List Char :=
  if breaks = 1 then [' '] else List.replicate (breaks - 1) '\n'

/-- The characters up to a gap, the colon of a key, or a mark of the flow. -/
def plainRun (flow : Bool) : List Char → List Char × List Char
  | [] => ([], [])
  | c :: cs =>
    if atGap (c :: cs) || atColon flow (c :: cs) || (flow && atFlowMark (c :: cs)) then ([], c :: cs)
    else
      let (run, rest) := plainRun flow cs
      (c :: run, rest)

/-- A plain text, what follows it, and whether it has more than one line. Outside of flows, further lines are indented
more than `indent`. -/
def readPlain (flow : Bool) (indent : Int) : Nat → List Char → List Char × List Char × Bool
  | 0, cs => ([], cs, false)
  | fuel + 1, cs =>
    let (run, rest) := plainRun flow cs
    if run.isEmpty then ([], cs, false)
    else
      let blanks := rest.takeWhile isBlank
      match rest.dropWhile isBlank with
      | [] => (run, rest, false)
      | '#' :: _ => (run, rest, false)
      | c :: after =>
        if c == '\n' then
          let (breaks, cursor) := passBreaks 0 0 (c :: after)
          if cursor.rest.head? = some '#' ∨ atDocumentMark cursor ∨ (¬ flow ∧ cursor.column ≤ indent) then
            (run, rest, false)
          else
            let (text, rest', _) := readPlain flow indent fuel cursor.rest
            if text.isEmpty then (run, rest, false) else (run ++ joint breaks ++ text, rest', true)
        else
          let (text, rest', many) := readPlain flow indent fuel (c :: after)
          if text.isEmpty then (run, rest, false) else (run ++ blanks ++ text, rest', many)

/-- The character of an escape of one letter. -/
def simpleEscape? : Char → Option Char
  | '0' => some '\x00' | 'a' => some '\x07' | 'b' => some '\x08' | 't' => some '\t' | '\t' => some '\t'
  | 'n' => some '\n' | 'v' => some '\x0b' | 'f' => some '\x0c' | 'r' => some '\r' | 'e' => some '\x1b'
  | ' ' => some ' ' | '"' => some '"' | '\'' => some '\'' | '/' => some '/' | '\\' => some '\\'
  | 'N' => some '\u0085' | '_' => some '\u00a0' | 'L' => some '\u2028' | 'P' => some '\u2029'
  | _ => none

/-- The number of digits of an escape by number. -/
def escapeDigits? : Char → Option Nat
  | 'x' => some 2
  | 'u' => some 4
  | 'U' => some 8
  | _ => none

/-- Read an escape after its backslash. -/
def readEscape : List Char → Option (Char × List Char)
  | [] => none
  | e :: cs =>
    match escapeDigits? e with
    | some count => do
      let n ← if count ≤ cs.length then digitsIn? 16 (cs.take count) else none
      if n < 0xD800 ∨ (0xDFFF < n ∧ n < 0x110000) then some (Char.ofNat n, cs.drop count) else none
    | none => do return (← simpleEscape? e, cs)

/-- Read a quoted text up to its closing quote. Only double quotes know escapes. -/
def readQuoted (double : Bool) : Nat → List Char → Option (List Char × List Char)
  | 0, _ => none
  | fuel + 1, cs =>
    let go (start rest : List Char) : Option (List Char × List Char) := do
      let (text, rest) ← readQuoted double fuel rest
      return (start ++ text, rest)
    match double, cs with
    | _, [] => none
    | true, '"' :: rest => some ([], rest)
    | true, '\\' :: '\n' :: rest =>
      let (breaks, cursor) := passBreaks 0 0 rest
      go (List.replicate breaks '\n') cursor.rest
    | true, '\\' :: rest => do
      let (c, rest) ← readEscape rest
      go [c] rest
    | false, '\'' :: '\'' :: rest => go ['\''] rest
    | false, '\'' :: rest => some ([], rest)
    | _, c :: rest =>
      if isBlank c || c == '\n' then
        let (breaks, cursor) := passBreaks 0 0 (c :: rest)
        if atDocumentMark cursor ∧ 0 < breaks then none
        else go (if breaks = 0 then (c :: rest).takeWhile isBlank else joint breaks) cursor.rest
      else go [c] rest

end MaskLayout.Yaml
