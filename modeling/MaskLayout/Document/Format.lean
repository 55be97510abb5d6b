import MaskLayout.Document.JsonReader
import MaskLayout.Document.JsonWriter
import MaskLayout.Document.TomlReader
import MaskLayout.Document.TomlWriter
import MaskLayout.Document.YamlReader
import MaskLayout.Document.YamlWriter
import MaskLayout.Naming

/-!
# Formats of rule files

The formats of rule files, and how a file name tells its format.
-/

namespace MaskLayout

/-- The formats of rule files. -/
inductive Format where
  | json
  | yaml
  | toml
deriving DecidableEq

instance : Named Format where
  typeName := "Format"
  all := [.json, .yaml, .toml]
  text
    | .json => "json"
    | .yaml => "yaml"
    | .toml => "toml"
  label
    | .json => "Json"
    | .yaml => "Yaml"
    | .toml => "Toml"

namespace Format

/-- The last name of a path. Slashes at the end and names of a single point after a slash do not count. -/
def fileName? (path : String) : Option String :=
  let names := path.splitOn "/"
  let kept := (names.take 1).filter (· != "") ++ (names.drop 1).filter fun n => n != "" && n != "."
  kept.getLast?.filter fun n => n != ".." && n != "."

/-- The part of a file name after its last point, unless that point is the first character. -/
def extension? (name : String) : Option String :=
  match (name.splitOn ".").reverse with
  | ext :: stem :: outer => if outer.isEmpty && stem.isEmpty then none else some ext
  | _ => none

/-- The format of a file by its extension, in letters of either case. -/
def ofPath? (path : String) : Option Format := do
  let name ← fileName? path
  let ext ← extension? name
  match ext.toLower with
  | "json" => some .json
  | "yaml" => some .yaml
  | "yml" => some .yaml
  | "toml" => some .toml
  | _ => none

/-- The canonical document of a text, if it is one of the format and conforms to the schema. -/
def read (f : Format) (form : Schema) (text : String) : Option Doc :=
  match f with
  | .json => do form.conform Json.convention (← Json.read text)
  | .yaml => do form.conform Yaml.convention (← Yaml.read text)
  | .toml => do form.conform Toml.convention (← if form.isCase then Toml.readCase text else Toml.read text)

/-- The text of a canonical document, if the format can express it. -/
def write (f : Format) (d : Doc) : Option String :=
  match f with
  | .json => some (Json.write d)
  | .yaml => some (Yaml.write d)
  | .toml => Toml.write d

end Format

end MaskLayout
