/-!
# Named values

Enumerations whose values have fixed names in rule files. A name is read exactly, in its own case.
-/

namespace MaskLayout

/-- An enumeration with a name of its own, and a text and a label for each value. -/
class Named (α : Type) where
  /-- The name of the enumeration, used in messages. -/
  typeName : String
  /-- Every value, in declaration order. -/
  all : List α
  /-- The text of a value in rule files. -/
  text : α → String
  /-- The label of a value in listings. -/
  label : α → String

namespace Named

/-- The value written as `t`. -/
def parse? {α : Type} [Named α] (t : String) : Option α :=
  (all : List α).find? fun a => text a == t

/-- A text that names no value of an enumeration. -/
structure Unknown where
  typeName : String
  text : String
deriving DecidableEq

/-- The message for a text that names nothing. -/
def Unknown.message (u : Unknown) : String :=
  s!"Invalid {u.typeName}: {u.text}"

/-- Read a value, or say which text names nothing. -/
def parse (α : Type) [Named α] (t : String) : Except Unknown α :=
  match parse? t with
  | some a => .ok a
  | none => .error ⟨typeName α, t⟩

end Named

end MaskLayout
