import MaskLayout.Error
import MaskLayout.Plane.Rect

/-!
# Vias

Vias: an array of cuts centered on a placement, and its enclosures on the layers below and above.
-/

namespace MaskLayout

/-- The enclosure of a cut array on one layer: `low` on the lower and left sides, and `low + extra` on the upper and
right ones. -/
structure Enclosure where
  low : Point
  extra : Point
deriving DecidableEq, Inhabited

/-- An array of `nx` by `ny` cuts with its enclosures. -/
structure ViaParams where
  nx : Int
  ny : Int
  cut : Point
  spacing : Point
  bottom : Enclosure
  top : Enclosure
deriving DecidableEq, Inhabited

namespace ViaParams

/-- Accept parameters with counts of at least one and cuts of positive size. -/
def check (p : ViaParams) : Except LayoutError ViaParams :=
  if p.nx < 1 ∨ p.ny < 1 then .error (.outOfRange (.viaCuts p.nx p.ny))
  else if p.cut.x ≤ 0 ∨ p.cut.y ≤ 0 then .error (.representation (.cutDim p.cut))
  else .ok p

/-- The size of the cut array. -/
def arraySize (p : ViaParams) : Point :=
  ⟨p.nx * p.cut.x + (p.nx - 1) * p.spacing.x, p.ny * p.cut.y + (p.ny - 1) * p.spacing.y⟩

/-- The lower left corner of the cut array when it is centered on the origin, halves rounded toward zero. -/
def arrayLow (p : ViaParams) : Point := ⟨(-p.arraySize.x).tdiv 2, (-p.arraySize.y).tdiv 2⟩

/-- The cut array, centered on the origin. -/
def arrayRect (p : ViaParams) : Rect := Rect.ofCorners p.arrayLow (p.arrayLow + p.arraySize)

/-- The cut array with an enclosure around it. -/
def enclosedRect (p : ViaParams) (e : Enclosure) : Rect :=
  Rect.ofCorners (p.arrayRect.lo - e.low) (p.arrayRect.hi + e.low + e.extra)

end ViaParams

/-- A placed via. -/
structure Via where
  xform : Transform
  id : String
  params : ViaParams
deriving DecidableEq, Inhabited

namespace Via

/-- The cut array. -/
def cutRect (v : Via) : Rect := v.params.arrayRect.transform v.xform

/-- The enclosure on the layer below. -/
def bottomRect (v : Via) : Rect := (v.params.enclosedRect v.params.bottom).transform v.xform

/-- The enclosure on the layer above. -/
def topRect (v : Via) : Rect := (v.params.enclosedRect v.params.top).transform v.xform

end Via

end MaskLayout
