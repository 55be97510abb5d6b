import MaskLayout.Layer
import MaskLayout.Shape
import MaskLayout.Via.Basic

/-!
# Parts of cells

The parts of a cell besides instances: drawn shapes, pins, labels, blockages, boundaries and vias.
-/

namespace MaskLayout

/-- A shape on a layer. -/
structure ShapeOn where
  key : LayerKey
  shape : Shape
  horiz : Bool
deriving DecidableEq

/-- A place where a net is connected. -/
structure Pin where
  layer : Int
  net : String
  label : String
  box : Box
deriving DecidableEq

/-- A text on a layer. -/
structure Label where
  key : LayerKey
  xform : Transform
  text : String
deriving DecidableEq

/-- What a blockage keeps out. -/
inductive BlockageType where
  | routing | via | placement | wiring | fill | slot | pin | feedthru | screen
deriving DecidableEq, Inhabited

instance : Named BlockageType where
  typeName := "BlockageType"
  all := [.routing, .via, .placement, .wiring, .fill, .slot, .pin, .feedthru, .screen]
  text
    | .routing => "routing" | .via => "via" | .placement => "placement" | .wiring => "wiring"
    | .fill => "fill" | .slot => "slot" | .pin => "pin" | .feedthru => "feedthru" | .screen => "screen"
  label
    | .routing => "Routing" | .via => "Via" | .placement => "Placement" | .wiring => "Wiring"
    | .fill => "Fill" | .slot => "Slot" | .pin => "Pin" | .feedthru => "Feedthru" | .screen => "Screen"

/-- A region that something is kept out of. Placement blockages cover all layers, others just one. -/
structure Blockage where
  type : BlockageType
  layer : Option Int
  loop : Loop
deriving DecidableEq

/-- A blockage with a layer exactly if its type needs one. -/
def Blockage.create (type : BlockageType) (layer : Option Int) (loop : Loop) :
    Except LayoutError Blockage :=
  match type, layer with
  | .placement, some _ => .error (.representation .placementLayer)
  | .placement, none => .ok ⟨.placement, none, loop⟩
  | type, some l => .ok ⟨type, some l, loop⟩
  | type, none => .error (.representation (.layerNeeded (Named.text type)))

/-- What a boundary bounds. -/
inductive BoundaryType where
  | pr | snap | area
deriving DecidableEq, Inhabited

instance : Named BoundaryType where
  typeName := "BoundaryType"
  all := [.pr, .snap, .area]
  text
    | .pr => "PR" | .snap => "snap" | .area => "area"
  label
    | .pr => "PR" | .snap => "Snap" | .area => "Area"

/-- A boundary of a cell. -/
structure Boundary where
  type : BoundaryType
  loop : Loop
deriving DecidableEq

/-- Whether the wires below and above a via run horizontally. -/
structure ViaDirs where
  bottomHoriz : Bool
  topHoriz : Bool
deriving DecidableEq

/-- A via, and whether its enclosures are drawn on its layers. -/
structure ViaDrawing where
  via : Via
  dirs : Option ViaDirs
deriving DecidableEq

end MaskLayout
