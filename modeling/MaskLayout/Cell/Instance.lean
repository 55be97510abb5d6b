import MaskLayout.KeyMap
import MaskLayout.Number.Binary64
import MaskLayout.Plane.Box
import MaskLayout.Plane.Tiling

/-!
# Instances

Instances: placements of a master, which is a cell defined elsewhere or a bound cell of some type `M`.
-/

namespace MaskLayout

/-- The value of an instance parameter. -/
inductive ParamValue where
  | int (i : Int)
  | double (x : Binary64)
  | bool (b : Bool)
  | str (s : String)
deriving DecidableEq

/-- A cell defined elsewhere, with the parameters of one use. -/
structure CellRef where
  lib : String
  cell : String
  view : String
  params : KeyMap String ParamValue
deriving DecidableEq

/-- What an instance places. -/
inductive MasterOf (M : Type) where
  | ref (r : CellRef)
  | bound (m : M)

/-- A placement of a master, repeated as an array in outer coordinates. -/
structure InstanceOf (M : Type) where
  name : String
  master : MasterOf M
  xform : Transform
  tiling : Tiling

namespace InstanceOf

variable {M : Type}

/-- The bound master, if there is one. -/
def bound? (i : InstanceOf M) : Option M :=
  match i.master with
  | .ref _ => none
  | .bound m => some m

/-- The cell defined elsewhere, if that is what is placed. -/
def ref? (i : InstanceOf M) : Option CellRef :=
  match i.master with
  | .ref r => some r
  | .bound _ => none

/-- The placement of every element of the array. -/
def elements (i : InstanceOf M) : List Transform := i.tiling.offsets.map i.xform.moveBy

/-- Bind the instance to a master. -/
def bind (i : InstanceOf M) (m : M) : InstanceOf M := { i with master := .bound m }

/-- Set a parameter, which only a cell defined elsewhere has. -/
def setParam (i : InstanceOf M) (name : String) (value : ParamValue) :
    Except LayoutError (InstanceOf M) :=
  match i.master with
  | .ref r => .ok { i with master := .ref { r with params := r.params.insert name value } }
  | .bound _ => .error (.composition (.boundParams i.name))

/-- The box around an array whose master has a given box: around its first and its last element. -/
def arrayBox (i : InstanceOf M) (masterBox : Box) : Box :=
  if masterBox.isEmpty then masterBox
  else
    let first := masterBox.transform i.xform
    first.union (first.transform (.translate i.tiling.span))

end InstanceOf

end MaskLayout
