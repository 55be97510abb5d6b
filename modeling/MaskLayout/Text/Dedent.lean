import MaskLayout.Text.Blank

/-!
# Common indentation

Taking the common indentation off the lines of a text. Lines that are blank throughout become empty.
-/

namespace MaskLayout.Text

/-- The lines of a text, without their ends. A line end after the last line starts no further one. -/
def lines : List Char → List (List Char)
  | [] => []
  | '\n' :: cs => [] :: lines cs
  | '\r' :: '\n' :: cs => [] :: lines cs
  | c :: cs => match lines cs with
    | [] => [[c]]
    | line :: rest => (c :: line) :: rest

/-- The first characters that two texts share. -/
def shared : List Char → List Char → List Char
  | a :: as, b :: bs => if a = b then a :: shared as bs else []
  | _, _ => []

/-- Whether all characters of a line are blank. -/
def isBlankLine (line : List Char) : Bool := line.all isBlank

/-- The indentation that the lines have in common. The first line that is not blank starts it, and each further line
shortens it, unless the line ends before it does. -/
def indentation (ls : List (List Char)) : List Char :=
  match ls.dropWhile isBlankLine with
  | [] => []
  | first :: rest =>
    rest.foldl (fun indent line => if line.length ≤ (shared indent line).length then indent else shared indent line)
      (first.takeWhile isBlank)

/-- The text with the common indentation taken off. -/
def dedent (s : String) : String :=
  let ls := lines s.toList
  let indent := indentation ls
  let cut (line : List Char) : List Char :=
    if isBlankLine line then [] else if shared indent line = indent then line.drop indent.length else []
  let text := "\n".intercalate (ls.map fun line => String.ofList (cut line))
  if s.toList.getLast? = some '\n' then text ++ "\n" else text

end MaskLayout.Text
