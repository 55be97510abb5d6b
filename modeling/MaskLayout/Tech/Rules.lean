import MaskLayout.KeyMap
import MaskLayout.Number.Binary64
import MaskLayout.Plane.Box

/-!
# Technology rules

Technology rules as they stand in rule files, before any name is resolved or any number is checked.
-/

namespace MaskLayout

/-- Width thresholds, and the spacing up to each of them. -/
structure SpaceTableRules where
  widths : List Binary64
  spaces : List Binary64
deriving DecidableEq, Inhabited

/-- The enclosures allowed on wires up to a width: pairs along and across the track. -/
structure EnclosureRules where
  width : Binary64
  options : List (Int × Int)
deriving DecidableEq, Inhabited

/-- The cuts and enclosures of a via. -/
structure ViaRules where
  cut : Point
  spacing : Point
  /-- The spacing of arrays with more than one cut both ways, if it is another one. -/
  spacing2 : Option Point
  bottom : List EnclosureRules
  top : List EnclosureRules
deriving DecidableEq, Inhabited

/-- The rules of a technology. -/
structure TechRules where
  layers : KeyMap String Int
  purposes : KeyMap String Int
  viaLayers : KeyMap String (String × String)
  defaultPurpose : String
  pinPurpose : String
  /-- Whether pins are also drawn, on the pin purpose. -/
  drawPins : Bool
  layerTypes : KeyMap String String
  minSpace : KeyMap String SpaceTableRules
  lineEnd : KeyMap String SpaceTableRules
  /-- The spacing between wires of one color; without it they keep the usual distance. -/
  sameColor : Option (KeyMap String SpaceTableRules)
  vias : KeyMap String ViaRules
deriving DecidableEq

/-- A dimension as a coordinate: infinity is the largest one, and any other number must be whole. Whole numbers
beyond the coordinates stop at the nearest of them. -/
def Binary64.dimension? : Binary64 → Option Int
  | .infinite false => some Box.farHigh
  | .finite s m e =>
    let v := (Binary64.finite s m e).value
    if v.den = 1 then some (max Box.farLow (min Box.farHigh v.num)) else none
  | _ => none

end MaskLayout
