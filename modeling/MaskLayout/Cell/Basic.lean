import MaskLayout.Cell.Instance
import MaskLayout.Cell.Parts
import MaskLayout.Grid.Basic
import MaskLayout.LayerGeometry

/-!
# Cells

Cells, and the masters they are frozen into. A cell holds one geometry for each layer key, with the shapes of bound
masters merged in, and its instances under their names.

## Implementation notes

Instances are kept as the entries of a map, in ascending order of the keys. It is not a `KeyMap`, because masters hold
cells again and the order of the keys cannot be part of such a type. The key of an entry and the name of its instance
are two things, which agree in every cell that comes about by the changes of this library.
-/

namespace MaskLayout

variable [PolygonLibrary]

/-- A cell whose instances may be bound to masters of type `M`. -/
structure CellOf (M : Type) where
  tech : Shared Tech
  grid : Option RoutingGrid
  name : String
  mode : Mode
  layers : KeyMap LayerKey LayerGeometry
  /-- The instances, each under a key. -/
  instanceMap : List (String × InstanceOf M)
  pins : KeyMap Int (List Pin)
  vias : List Via
  layerBlockages : KeyMap Int (List Blockage)
  areaBlockages : List Blockage
  boundaries : List Boundary
  labels : List Label
  /-- The number of the next automatic instance name to try. -/
  nameCount : Nat

/-- A frozen cell. Its serial number tells it from all others. -/
inductive Master where
  | mk (serial : Nat) (cell : CellOf Master)

/-- A cell under construction. -/
abbrev Cell := CellOf Master

/-- A placement of a frozen cell or of a cell defined elsewhere. -/
abbrev Instance := InstanceOf Master

namespace Master

/-- The serial number of a master. -/
def serial : Master → Nat
  | mk n _ => n

/-- The cell that was frozen. -/
def cell : Master → Cell
  | mk _ c => c

end Master

namespace CellOf

variable {M : Type}

/-- An empty cell. -/
def empty (tech : Shared Tech) (name : String) (mode : Mode) : CellOf M where
  tech
  grid := none
  name
  mode
  layers := .empty
  instanceMap := []
  pins := .empty
  vias := []
  layerBlockages := .empty
  areaBlockages := []
  boundaries := []
  labels := []
  nameCount := 0

/-- The same cell with a routing grid, which must share its technology. -/
def withGrid (c : CellOf M) (g : RoutingGrid) : Except LayoutError (CellOf M) :=
  if g.tech = c.tech then .ok { c with grid := some g }
  else .error (.composition (.foreignGrid c.name))

/-- The routing grid. -/
def theGrid (c : CellOf M) : Except LayoutError RoutingGrid :=
  Tech.found .routingGrid c.name c.grid

/-- The box of the geometry for a key. -/
def layerBox (c : CellOf M) (key : LayerKey) : Box :=
  ((c.layers.get? key).map (·.box)).getD .empty

/-- The drawn shapes on a layer that touch a box grown by `dx` and `dy`. -/
def near (c : CellOf M) (key : LayerKey) (b : Box) (dx dy : Int) : List Drawn :=
  match c.layers.get? key with
  | some g => g.near b dx dy
  | none => []

/-- Whether nothing was added. -/
def isEmpty (c : CellOf M) : Bool :=
  c.layers.values.all (·.isEmpty) && c.instanceMap.isEmpty && c.pins.isEmpty && c.vias.isEmpty &&
    c.layerBlockages.isEmpty && c.areaBlockages.isEmpty && c.boundaries.isEmpty && c.labels.isEmpty

/-- The instances, in the order of their keys. -/
def instances (c : CellOf M) : List (InstanceOf M) := c.instanceMap.map (·.2)

/-- The instance under a name, if there is one. -/
def instance? (c : CellOf M) (name : String) : Option (InstanceOf M) :=
  (c.instanceMap.find? fun e => e.1 == name).map (·.2)

/-- The instance under a name. -/
def theInstance (c : CellOf M) (name : String) : Except LayoutError (InstanceOf M) :=
  Tech.found .inst name (c.instance? name)

/-- The same cell with an instance under a name, in place of one that is there. -/
def withInstance (c : CellOf M) (name : String) (i : InstanceOf M) : CellOf M :=
  { c with instanceMap := KeyMap.insertEntry name i c.instanceMap }

/-- The same cell without the instance under a name. -/
def withoutInstance (c : CellOf M) (name : String) : CellOf M :=
  { c with instanceMap := c.instanceMap.filter fun e => e.1 != name }

/-- The pins on a layer. -/
def pinsOn (c : CellOf M) (layer : Int) : List Pin := (c.pins.get? layer).getD []

/-- The blockages on a layer. -/
def blockagesOn (c : CellOf M) (layer : Int) : List Blockage := (c.layerBlockages.get? layer).getD []

end CellOf

namespace InstanceOf

variable (i : Instance)

/-- The library name; bound masters are written to `output`. -/
def libName (output : String) : String :=
  match i.master with
  | .ref r => r.lib
  | .bound _ => output

/-- The cell name; those of bound masters can be replaced. -/
def cellName (rename : KeyMap String String) : String :=
  match i.master with
  | .ref r => r.cell
  | .bound m => (rename.get? m.cell.name).getD m.cell.name

/-- The view name; bound masters are written as `default`. -/
def viewName (default : String) : String :=
  match i.master with
  | .ref r => r.view
  | .bound _ => default

end InstanceOf

end MaskLayout
