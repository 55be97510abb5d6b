import MaskLayout.Error
import MaskLayout.Layer

/-!
# Tracks

The tracks of one routing level, counted in half-tracks, and wires on them. Half-track `h` is centered on
`offset + h * (pitch / 2)`.
-/

namespace MaskLayout

/-- The units to which objects over a level are aligned: whole tracks, or half-tracks. -/
structure BlockPitch where
  full : Int
  half : Int
deriving DecidableEq, Inhabited

/-- The tracks of a level. -/
structure TrackLevel where
  dir : Dir
  width : Int
  space : Int
  offset : Int
  /-- The alignment of objects over the level; ignored levels have none. -/
  blockPitch : Option BlockPitch
  overrides : KeyMap Int Int
  /-- The layers of the colors in turn. -/
  layers : List LayerKey
  layerType : String
deriving DecidableEq

namespace TrackLevel

/-- The distance from track to track. -/
def pitch (t : TrackLevel) : Int := t.width + t.space

/-- The width of a wire over `count` tracks. -/
def wireWidth (t : TrackLevel) (count : Int) : Except LayoutError Int :=
  if count < 1 then .error (.outOfRange (.trackCount count))
  else .ok ((t.overrides.get? count).getD (count * t.pitch - t.space))

/-- The center of a half-track. -/
def center (t : TrackLevel) (halfTrack : Int) : Int := t.offset + halfTrack * (t.pitch / 2)

/-- The half-track that is centered on a coordinate. -/
def halfTrackAt (t : TrackLevel) (coord : Int) : Except LayoutError Int :=
  let delta := 2 * (coord - t.offset)
  if delta.tmod t.pitch ≠ 0 then .error (.outOfRange (.offTrack coord)) else .ok (delta.tdiv t.pitch)

/-- The layer of the track at a half-track. Tracks take the colors in turn, two half-tracks to a track. -/
def colorAt? (t : TrackLevel) (halfTrack : Int) : Option LayerKey :=
  t.layers[((halfTrack / 2) % t.layers.length).toNat]?

end TrackLevel

/-- A number of bundles of parallel tracks: the first is centered on `halfTrack` and spans `width` tracks, and the
next ones are `pitch` half-tracks apart. -/
structure TrackId where
  level : Int
  halfTrack : Int
  width : Int
  count : Int
  pitch : Int
deriving DecidableEq

namespace TrackId

/-- Track bundles with positive width and count. A single one keeps no pitch. -/
def create (level halfTrack width count pitch : Int) : Except LayoutError TrackId :=
  if width < 1 ∨ count < 1 then .error (.outOfRange (.trackId width count))
  else .ok ⟨level, halfTrack, width, count, if count = 1 then 0 else pitch⟩

/-- The half-track of each bundle. -/
def halfTracks (t : TrackId) : List Int :=
  (List.range t.count.toNat).map fun (i : Nat) => t.halfTrack + i * t.pitch

/-- The written form of track bundles. -/
def describe (t : TrackId) : String :=
  s!"TrackID(layer={t.level}, htr={t.halfTrack}, ntr={t.width}, num={t.count}, pitch={t.pitch})"

end TrackId

/-- Wires on track bundles from `lower` to `upper` along the tracks. -/
structure WireArray where
  tracks : TrackId
  lower : Int
  upper : Int
deriving DecidableEq

namespace WireArray

/-- Wires whose ends are in order. -/
def create (tracks : TrackId) (lower upper : Int) : Except LayoutError WireArray :=
  if lower > upper then .error (.outOfRange (.wireExtent lower upper)) else .ok ⟨tracks, lower, upper⟩

/-- The middle of the wires, rounded down. -/
def middle (w : WireArray) : Int := (w.lower + w.upper) / 2

/-- The written form of wires. -/
def describe (w : WireArray) : String := s!"WireArray({w.tracks.describe}, {w.lower}, {w.upper})"

end WireArray

end MaskLayout
