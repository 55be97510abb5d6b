import MaskLayout.Grid.Rules
import MaskLayout.Grid.Track
import MaskLayout.Number.Bits
import MaskLayout.Shared
import MaskLayout.Tech.Basic

/-!
# Routing grids

Routing grids: levels of tracks from the bottom up, in three ranges. Ignored levels have no alignment; private and
public ones are aligned to the levels of their direction at or below them in the same range.
-/

namespace MaskLayout

/-- A routing grid over a technology. -/
structure RoutingGrid where
  tech : Shared Tech
  bot : Int
  topIgnored : Int
  topPrivate : Int
  levels : List TrackLevel
deriving DecidableEq

/-- Alignment in either direction, as far as it is known. -/
structure Alignment where
  horiz : BlockPitch
  vert : BlockPitch

namespace Alignment

/-- No alignment yet. -/
def none : Alignment := ⟨⟨1, 1⟩, ⟨1, 1⟩⟩

/-- The alignment in a direction. -/
def of (a : Alignment) : Dir → BlockPitch
  | .horiz => a.horiz
  | .vert => a.vert

/-- The alignment that also respects a level. -/
def refine (a : Alignment) (t : TrackLevel) : Alignment :=
  let p : BlockPitch :=
    ⟨Int.lcm (a.of t.dir).full t.pitch, Int.lcm (a.of t.dir).half (t.pitch / 2)⟩
  match t.dir with
  | .horiz => { a with horiz := p }
  | .vert => { a with vert := p }

end Alignment

/-- The levels of one range, each aligned to those of its direction up to itself. -/
def TrackLevel.alignRange : Alignment → List TrackLevel → List TrackLevel
  | _, [] => []
  | a, t :: rest =>
    let a := a.refine t
    { t with blockPitch := some (a.of t.dir) } :: alignRange a rest

namespace RoutingGrid

/-- The number of the highest level. -/
def top (g : RoutingGrid) : Int := g.bot + g.levels.length - 1

/-- The same grid with its levels divided anew. -/
def withPartition (g : RoutingGrid) (topIgnored topPrivate : Int) : Except LayoutError RoutingGrid :=
  if g.bot - 1 ≤ topIgnored ∧ topIgnored ≤ topPrivate ∧ topPrivate ≤ g.top then
    let ignored := (topIgnored + 1 - g.bot).toNat
    let priv := (topPrivate + 1 - g.bot).toNat
    .ok { g with
      topIgnored, topPrivate
      levels := ((g.levels.take ignored).map fun t => { t with blockPitch := none }) ++
        TrackLevel.alignRange .none ((g.levels.take priv).drop ignored) ++
        TrackLevel.alignRange .none (g.levels.drop priv) }
  else .error (.outOfRange (.partition topIgnored topPrivate g.bot g.top))

/-- The tracks of a level. -/
def trackLevel (g : RoutingGrid) (level : Int) : Except LayoutError TrackLevel :=
  match if level < g.bot then none else g.levels[(level - g.bot).toNat]? with
  | some t => .ok t
  | none => .error (.outOfRange (.level level))

/-- The layer of the track at a half-track of a level. -/
def layerKey (g : RoutingGrid) (level halfTrack : Int) : Except LayoutError LayerKey := do
  let t ← g.trackLevel level
  match t.colorAt? halfTrack with
  | some key => return key
  | none => throw (.outOfRange (.level level))

/-- The half-tracks that must stay empty between two wires over `count` tracks each. With `even`, their centers are
a whole number of tracks apart. Spacing and width are added in 64 bits. The sum overflows for a spacing of infinity, which
tables hold as the largest coordinate. -/
def minSpaceHalfTracks (g : RoutingGrid) (level count : Int) (sameColor even : Bool) :
    Except LayoutError Int := do
  let t ← g.trackLevel level
  let width ← t.wireWidth count
  let space ← g.tech.value.minSpaceOf t.layerType width (if sameColor then .sameColor else .diffColor)
  let half := t.pitch / 2
  let apart := (Bits.wrap 64 (space + width) + half - 1) / half
  let apart := if even ∧ apart % 2 ≠ 0 then apart + 1 else apart
  return max 0 (apart - 2 * count)

end RoutingGrid

end MaskLayout
