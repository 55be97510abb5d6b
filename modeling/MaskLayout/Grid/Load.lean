import MaskLayout.Grid.Basic
import MaskLayout.Loading

/-!
# Loading a routing grid

Loading a routing grid from its rules over a technology. The fault of the lowest faulty level is reported, and the
division into ranges is checked last.
-/

namespace MaskLayout

/-- Check the tracks of a level. -/
def TrackLevel.load (tech : Tech) (r : Reporter RuleFault LayoutError) (rules : TrackRules) :
    Except LayoutError TrackLevel := do
  r.ensure (0 < rules.width && 0 < rules.space) .trackSizes
  let pitch := rules.width + rules.space
  r.ensure (pitch % 2 == 0) (.oddPitch pitch)
  r.ensure (rules.overrides.entries.all fun (count, w) => 1 ≤ count && 0 < w) .overrides
  r.ensure (!rules.layers.isEmpty) .noTrackLayers
  let layers ← rules.layers.mapM fun (layer, purpose) =>
    r.instead (tech.layerKey layer (some purpose)) (.trackLayer layer purpose)
  let layerType ← r.require (layers.head?.bind fun key => tech.layerType? key.layer) .noLayerType
  return {
    dir := rules.dir, width := rules.width, space := rules.space
    offset := rules.offset.getD (pitch / 2), blockPitch := none
    overrides := rules.overrides, layers, layerType }

namespace RoutingGrid

/-- Check levels in turn, the next of which must have a given number. -/
def loadLevels (tech : Tech) (bot : Int) : Int → List (Int × TrackRules) → Loading (List TrackLevel)
  | _, [] => return []
  | next, (level, rules) :: rest => do
    let t ← Loading.within (.level level) fun r => do
      r.ensure (level == next) (.levelGap bot)
      TrackLevel.load tech r rules
    let more ← loadLevels tech bot (next + 1) rest
    return t :: more

/-- Check the levels of a grid, of which there must be some, from the lowest one on. -/
def loadAll (tech : Tech) (rules : GridRules) : Loading (Int × List TrackLevel) := do
  let bot ← Loading.here fun r => r.require rules.levels.keys.head? .noLevels
  let levels ← loadLevels tech bot bot rules.levels.entries
  return (bot, levels)

/-- Load a routing grid. -/
def load (tech : Shared Tech) (rules : GridRules) : Except LayoutError RoutingGrid := do
  let (bot, levels) ← (do Loading.push .grid; loadAll tech.value rules : Loading _).run' []
  let grid : RoutingGrid := ⟨tech, bot, bot - 1, bot - 1, levels⟩
  grid.withPartition (rules.topIgnored.getD (bot - 1)) (rules.topPrivate.getD (bot - 1))

end RoutingGrid

end MaskLayout
