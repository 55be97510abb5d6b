import MaskLayout.Text.Hex
import MaskLayout.Text.Printable

/-!
# Quoted text

Quoted text of messages: double quotes around it, with escapes for quotes, backslashes, line ends and every
character that does not stand for itself.
-/

namespace MaskLayout.Text

/-- The form of a character inside quotes. -/
def escape (c : Char) : String :=
  match c with
  | '"' => "\\\""
  | '\\' => "\\\\"
  | '\n' => "\\n"
  | '\t' => "\\t"
  | '\r' => "\\r"
  | '\x00' => "\\0"
  | c => if isPrintable c then c.toString else "\\u\x7b" ++ hex c.toNat ++ "\x7d"

/-- The text between double quotes. -/
def quoted (s : String) : String :=
  "\"" ++ s.foldl (fun acc c => acc ++ escape c) "" ++ "\""

end MaskLayout.Text
