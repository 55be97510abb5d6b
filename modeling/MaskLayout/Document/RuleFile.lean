import MaskLayout.Document.Format
import MaskLayout.Document.Records
import MaskLayout.Grid.Load
import MaskLayout.Tech.Load

/-!
# Rule files

Rule files, which are read in the format that their names tell. What cannot be read at all is a failure outside of
the layout.
-/

namespace MaskLayout

/-- A rule file: its name, and its text unless there is no such file. -/
structure RuleFile where
  name : String
  text : Option String

namespace RuleFile

/-- The canonical document of a rule file. -/
def document (file : RuleFile) (form : Schema) : Except LayoutError Doc := do
  match Format.ofPath? file.name with
  | none => throw (.external (.unknownFormat file.name))
  | some format =>
    match file.text.bind (format.read form) with
    | some d => return d
    | none => throw (.external .unreadable)

/-- The rules in a rule file. -/
def rules (α : Type) [Recorded α] (file : RuleFile) (form : Schema) : Except LayoutError α := do
  match Recorded.ofDoc? (← file.document form) with
  | some a => return a
  | none => throw (.external .unreadable)

end RuleFile

/-- Load a technology from a rule file. -/
def Tech.ofFile (file : RuleFile) : Except LayoutError Tech := do
  Tech.load (← file.rules TechRules .techRules)

/-- Load a routing grid over a technology from a rule file. -/
def RoutingGrid.ofFile (tech : Shared Tech) (file : RuleFile) : Except LayoutError RoutingGrid := do
  RoutingGrid.load tech (← file.rules GridRules .gridRules)

end MaskLayout
