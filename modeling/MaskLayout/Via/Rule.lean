import MaskLayout.Error
import MaskLayout.Reporter
import MaskLayout.Tech.Rules

/-!
# Via rules

Checked via rules. Every number of a loaded rule is in its domain, and enclosure widths ascend.
-/

namespace MaskLayout

/-- The enclosures allowed on wires up to a width. -/
structure EnclosureBucket where
  maxWidth : Int
  options : List (Int × Int)
deriving DecidableEq

/-- The cuts of a via and their enclosures on either layer. -/
structure ViaRule where
  cut : Point
  spacing : Point
  spacing2 : Option Point
  bottom : List EnclosureBucket
  top : List EnclosureBucket
deriving DecidableEq

namespace ViaRule

/-- Check the enclosures of a layer in turn; `before` is the width of the previous ones. -/
def loadBuckets (r : Reporter RuleFault LayoutError) :
    Option Int → List EnclosureRules → Except LayoutError (List EnclosureBucket)
  | _, [] => .ok []
  | before, e :: rest => do
    let width ← r.require e.width.dimension? (.enclosureWidth e.width)
    r.ensure (before.all (· < width)) .enclosureOrder
    r.ensure (!e.options.isEmpty && e.options.all fun o => 0 ≤ o.1 && 0 ≤ o.2) .enclosureOptions
    let more ← loadBuckets r (some width) rest
    return ⟨width, e.options⟩ :: more

/-- Check the enclosures of a layer, of which there must be some. -/
def loadLayer (r : Reporter RuleFault LayoutError) (es : List EnclosureRules) :
    Except LayoutError (List EnclosureBucket) := do
  r.ensure (!es.isEmpty) .noEnclosures
  loadBuckets r none es

/-- Check the rules of a via. -/
def load (r : Reporter RuleFault LayoutError) (rules : ViaRules) : Except LayoutError ViaRule := do
  r.ensure (0 < rules.cut.x && 0 < rules.cut.y) .cutDim
  (rules.spacing :: rules.spacing2.toList).forM fun sp =>
    r.ensure (0 ≤ sp.x && 0 ≤ sp.y) .cutSpacing
  let bottom ← loadLayer r rules.bottom
  let top ← loadLayer r rules.top
  return ⟨rules.cut, rules.spacing, rules.spacing2, bottom, top⟩

end ViaRule

end MaskLayout
