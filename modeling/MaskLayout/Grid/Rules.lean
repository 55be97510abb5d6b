import MaskLayout.KeyMap
import MaskLayout.Plane.Point

/-!
# Routing-grid rules

Routing-grid rules as they stand in rule files.
-/

namespace MaskLayout

/-- The tracks of a level. -/
structure TrackRules where
  dir : Dir
  width : Int
  space : Int
  /-- The coordinate of half-track zero; without it, half the pitch. -/
  offset : Option Int
  /-- The layer and purpose names of each color. -/
  layers : List (String × String)
  /-- The widths of wires over several tracks, where they are special. -/
  overrides : KeyMap Int Int
deriving DecidableEq

/-- The rules of a routing grid. -/
structure GridRules where
  levels : KeyMap Int TrackRules
  topIgnored : Option Int
  topPrivate : Option Int
deriving DecidableEq

end MaskLayout
