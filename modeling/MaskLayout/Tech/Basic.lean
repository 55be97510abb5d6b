import MaskLayout.Layer
import MaskLayout.Via.Rule

/-!
# Technologies

Technologies: names and ids of layers and purposes, spacing tables and via rules. Where several names share an id,
the id is called by the first of them.
-/

namespace MaskLayout

/-- The classes of minimum spacing. -/
inductive SpaceType where
  | diffColor
  | lineEnd
  | sameColor
deriving DecidableEq, Inhabited

instance : Named SpaceType where
  typeName := "SpaceType"
  all := [.diffColor, .lineEnd, .sameColor]
  text
    | .diffColor => "sp_min"
    | .lineEnd => "sp_le_min"
    | .sameColor => "sp_sc_min"
  label
    | .diffColor => "DiffColor"
    | .lineEnd => "LineEnd"
    | .sameColor => "SameColor"

/-- Width thresholds in ascending order, each with the spacing of wires up to it. -/
structure SpaceTable where
  rows : List (Int × Int)
deriving DecidableEq, Inhabited

/-- The spacing of the first threshold that a width does not exceed, or else the last spacing. -/
def SpaceTable.lookup (t : SpaceTable) (width : Int) : Int :=
  match t.rows.find? fun row => width ≤ row.1 with
  | some row => row.2
  | none => (t.rows.getLast?.map (·.2)).getD 0

/-- A technology with every name resolved. -/
structure Tech where
  layers : KeyMap String Int
  purposes : KeyMap String Int
  viaLayers : KeyMap String (Int × Int)
  layerTypes : KeyMap Int String
  minSpace : KeyMap String SpaceTable
  lineEnd : KeyMap String SpaceTable
  sameColor : Option (KeyMap String SpaceTable)
  defaultPurpose : Int
  pinPurpose : Int
  drawPins : Bool
  viaRules : KeyMap String ViaRule
deriving DecidableEq

/-- The first name of an id. -/
def KeyMap.nameOf? (m : KeyMap String Int) (id : Int) : Option String :=
  (m.entries.find? fun e => e.2 == id).map (·.1)

namespace Tech

/-- The value that was looked up, or the failure to find it. -/
def found {α : Type} (wanted : Wanted) (key : String) : Option α → Except LayoutError α
  | some a => .ok a
  | none => .error (.notFound wanted key)

/-- The id of a layer. -/
def layerId (t : Tech) (name : String) : Except LayoutError Int :=
  found .layer name (t.layers.get? name)

/-- The id of a purpose, or the default one. -/
def purposeId (t : Tech) : Option String → Except LayoutError Int
  | none => .ok t.defaultPurpose
  | some name => found .purpose name (t.purposes.get? name)

/-- The key of a layer name and a purpose name. -/
def layerKey (t : Tech) (layer : String) (purpose : Option String) : Except LayoutError LayerKey := do
  let l ← t.layerId layer
  let p ← t.purposeId purpose
  return ⟨l, p⟩

/-- The name of a layer. -/
def layerName (t : Tech) (id : Int) : Except LayoutError String :=
  found .layer (toString id) (t.layers.nameOf? id)

/-- The name of a purpose. -/
def purposeName (t : Tech) (id : Int) : Except LayoutError String :=
  found .purpose (toString id) (t.purposes.nameOf? id)

/-- Check that the layer and the purpose of a key have names. -/
def checkKey (t : Tech) (key : LayerKey) : Except LayoutError Unit := do
  let _ ← t.layerName key.layer
  let _ ← t.purposeName key.purpose

/-- The layers below and above a via. -/
def viaLayersOf (t : Tech) (id : String) : Except LayoutError (Int × Int) :=
  found .via id (t.viaLayers.get? id)

/-- The spacing type of a layer. -/
def layerType? (t : Tech) (id : Int) : Option String := t.layerTypes.get? id

/-- The spacing tables of a class. -/
def spaceTables (t : Tech) : SpaceType → KeyMap String SpaceTable
  | .diffColor => t.minSpace
  | .lineEnd => t.lineEnd
  | .sameColor => t.sameColor.getD t.minSpace

/-- The minimum spacing of a wire of a layer type. -/
def minSpaceOf (t : Tech) (layerType : String) (width : Int) (c : SpaceType) :
    Except LayoutError Int := do
  let table ← found .spaceTable (layerType ++ " (" ++ Named.text c ++ ")")
    ((t.spaceTables c).get? layerType)
  return table.lookup width

/-- The rule of a via. -/
def viaRule (t : Tech) (id : String) : Except LayoutError ViaRule :=
  found .viaRule id (t.viaRules.get? id)

/-- The layer types without a minimum-spacing table, one message for each layer. -/
def warnings (t : Tech) : List String :=
  (t.layerTypes.entries.filter fun e => !t.minSpace.contains e.2).map fun e =>
    let name := (t.layers.nameOf? e.1).getD "?"
    s!"Layer {name} has type {e.2} with no minimum-spacing table"

end Tech

end MaskLayout
