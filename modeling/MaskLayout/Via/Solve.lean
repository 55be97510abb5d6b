import MaskLayout.Tech.Basic
import MaskLayout.Via.Basic

/-!
# Vias that fit a box

The via with the most cuts that fits a box. Arrays of a single row or column keep one spacing and all others
another; within either regime, an array that fits stays fitting when it loses rows, so the number of rows is found
by halving. Of equal numbers of cuts the widest array wins, and of equal vias the first.
-/

namespace MaskLayout

/-- The box to fill, and how: the track directions below and above, and whether enclosures may reach beyond the box
along the tracks. -/
structure ViaRequest where
  dim : Point
  bottomDir : Dir
  topDir : Dir
  extend : Bool
deriving DecidableEq

/-- The enclosure of a cut array in a box, on a layer whose tracks run in a direction. Across the tracks it fills the
box; along them it fills the box too, unless the rules ask for more and it may reach beyond. -/
def EnclosureBucket.enclose? (buckets : List EnclosureBucket) (dim arr : Point) (dir : Dir)
    (extend : Bool) : Option Enclosure := do
  let spareAlong := dim.coord dir - arr.coord dir
  let spareAcross := dim.coord dir.other - arr.coord dir.other
  let bucket ← (buckets.find? fun b => dim.coord dir.other ≤ b.maxWidth).or buckets.getLast?
  let fitting := bucket.options.filter fun (along, across) =>
    decide (2 * across ≤ spareAcross) && (extend || decide (2 * along ≤ spareAlong))
  let along ← (fitting.map (·.1)).min?
  let (lowAlong, extraAlong) :=
    if extend ∧ along > spareAlong / 2 then (along, 0) else (spareAlong / 2, spareAlong % 2)
  return ⟨Point.along lowAlong dir + Point.along (spareAcross / 2) dir.other,
    Point.along extraAlong dir + Point.along (spareAcross % 2) dir.other⟩

namespace ViaRule

/-- The spacing of an array of `nx` by `ny` cuts. -/
def spacingOf (rule : ViaRule) (nx ny : Int) : Point :=
  match rule.spacing2 with
  | some sp => if nx > 1 ∧ ny > 1 then sp else rule.spacing
  | none => rule.spacing

/-- The via of `nx` by `ny` cuts in a box, if it fits. -/
def fit? (rule : ViaRule) (req : ViaRequest) (nx ny : Int) : Option ViaParams :=
  let sp := rule.spacingOf nx ny
  let arr : Point := ⟨nx * rule.cut.x + (nx - 1) * sp.x, ny * rule.cut.y + (ny - 1) * sp.y⟩
  if arr.x > req.dim.x ∨ arr.y > req.dim.y then none
  else do
    let bottom ← EnclosureBucket.enclose? rule.bottom req.dim arr req.bottomDir req.extend
    let top ← EnclosureBucket.enclose? rule.top req.dim arr req.topDir req.extend
    return {
      nx, ny, cut := rule.cut
      spacing := ⟨if nx > 1 then sp.x else 0, if ny > 1 then sp.y else 0⟩
      bottom, top }

/-- The most cuts of a size that fit a length at a spacing. -/
def maxCuts (dim cut spacing : Int) : Int :=
  if dim < cut then 0 else (dim + spacing) / (cut + spacing)

/-- The last value that a test finds from `lo` to `hi`, by halving; `best` if it finds none. -/
def bisect {α : Type} (test : Int → Option α) (best : α) (lo hi : Int) : α :=
  if lo ≤ hi then
    let mid := lo + (hi - lo) / 2
    match test mid with
    | some a => bisect test a (mid + 1) hi
    | none => bisect test best lo (mid - 1)
  else best
termination_by (hi + 1 - lo).toNat
decreasing_by all_goals omega

/-- The fit with the most rows from `lo` to `hi`, for `nx` columns. -/
def largestFit? (rule : ViaRule) (req : ViaRequest) (nx lo hi : Int) : Option ViaParams :=
  if lo > hi then none
  else (rule.fit? req nx lo).map fun first => bisect (rule.fit? req nx) first (lo + 1) hi

/-- The best fit with at most `nx` columns and `nyMax` rows, or `best` if none has more cuts. -/
def search (rule : ViaRule) (req : ViaRequest) (nyMax : Int) :
    Nat → Option ViaParams → Option ViaParams
  | 0, best => best
  | nx + 1, best =>
    let cuts := match best with
      | some p => p.nx * p.ny
      | none => 0
    if ((nx + 1 : Nat) : Int) * nyMax ≤ cuts then best
    else
      let here := (rule.largestFit? req (nx + 1 : Nat) 2 nyMax).or (rule.fit? req (nx + 1 : Nat) 1)
      let better := match here with
        | some p => if p.nx * p.ny > cuts then some p else best
        | none => best
      search rule req nyMax nx better

/-- The via with the most cuts in a box. -/
def solve? (rule : ViaRule) (req : ViaRequest) : Option ViaParams :=
  let least : Point := match rule.spacing2 with
    | some sp => ⟨min rule.spacing.x sp.x, min rule.spacing.y sp.y⟩
    | none => rule.spacing
  let nxMax := maxCuts req.dim.x rule.cut.x least.x
  let nyMax := maxCuts req.dim.y rule.cut.y least.y
  search rule req nyMax nxMax.toNat none

end ViaRule

namespace Tech

/-- The better of two candidates: the later one must have more cuts. -/
def betterVia (best : Option (String × ViaParams)) (id : String) :
    Option ViaParams → Option (String × ViaParams)
  | none => best
  | some p => match best with
    | none => some (id, p)
    | some (_, q) => if p.nx * p.ny > q.nx * q.ny then some (id, p) else best

/-- The via with the most cuts between two layers in a box. -/
def viaParams (t : Tech) (bot top : Int) (req : ViaRequest) :
    Except LayoutError (String × ViaParams) := do
  let best ← t.viaRules.entries.foldlM (fun best (id, rule) => do
    let layers ← t.viaLayersOf id
    return if layers = (bot, top) then betterVia best id (rule.solve? req) else best) none
  match best with
  | some via => return via
  | none => throw (.representation (.noVia bot top req.dim))

end Tech

end MaskLayout
