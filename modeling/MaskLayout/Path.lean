import MaskLayout.Shape

/-!
# Wires along center lines

Wires along center lines, as sets of 45-degree loops: one loop for every segment, and caps where segments end.
Distances across a diagonal are counted in diagonal steps, rounded to the nearest whole number.
-/

namespace MaskLayout

/-- How a wire ends, at either end and at every vertex between. -/
inductive PathStyle where
  | truncate
  | extend
  | round
  | triangle
deriving DecidableEq, Inhabited

instance : Named PathStyle where
  typeName := "PathStyle"
  all := [.truncate, .extend, .round, .triangle]
  text
    | .truncate => "truncate"
    | .extend => "extend"
    | .round => "round"
    | .triangle => "triangle"
  label
    | .truncate => "Truncate"
    | .extend => "Extend"
    | .round => "Round"
    | .triangle => "Triangle"

/-- The styles of a path: of its first end, its last end, and the vertices between. -/
structure PathStyles where
  first : PathStyle
  last : PathStyle
  middle : PathStyle
deriving DecidableEq

namespace Path

/-- The square root of two as a 64-bit number. -/
def sqrtTwo : Rat := mkRat 6369051672525773 4503599627370496

/-- A distance as a number of diagonal steps. -/
def diagonalSteps (dist : Int) : Int :=
  (Binary64.ofRat ((Binary64.ofInt dist).value / sqrtTwo)).nearest

/-- How far the slanted corners of an octagon lie from its axes, for a radius. -/
def octagonCorner (radius : Int) : Int :=
  (Binary64.ofRat ((Binary64.ofInt radius).value * (sqrtTwo - 1))).nearest

/-- The points of a center line without repetitions; two different ones must remain. -/
def centerLine (points : List Point) : Except LayoutError (List Point) :=
  let line := points.eraseReps
  if line.length < 2 then .error (.representation (.fewPoints points)) else .ok line

/-- The unit step from one point toward another, straight or at 45 degrees. -/
def unitStep (p q : Point) : Except LayoutError Point :=
  let d := q - p
  if LoopKind.diagonal.allows d then .ok ⟨d.x.sign, d.y.sign⟩
  else .error (.representation (.angle p q))

/-- How lengths that no grid points have are rounded. -/
structure Rounding where
  /-- A distance as a number of diagonal steps. -/
  diagonal : Int → Int
  /-- How far the slanted corners of an octagon lie from its axes, for a radius. -/
  corner : Int → Int

/-- Rounding to the nearest number, computed with numbers of 64 bits. -/
def Rounding.nearest : Rounding := ⟨diagonalSteps, octagonCorner⟩

/-- The segments of a line, from each point to the next. -/
def legs (line : List Point) : List (Point × Point) := line.zip (line.drop 1)

section Loops

variable (r : Rounding)

/-- How many unit steps along `d` make up a distance. -/
def steps (d : Point) (dist : Int) : Int :=
  if d.x ≠ 0 ∧ d.y ≠ 0 then r.diagonal dist else dist

/-- The octagon around a point whose straight edges are `radius` away. -/
def octagon (center : Point) (radius : Int) : Loop :=
  let c := r.corner radius
  let corners : List Point :=
    [⟨radius, -c⟩, ⟨radius, c⟩, ⟨c, radius⟩, ⟨-c, radius⟩, ⟨-radius, c⟩, ⟨-radius, -c⟩, ⟨-c, -radius⟩, ⟨c, -radius⟩]
  (corners.map (center + ·)).eraseReps

/-- The cap at an end of a segment: `out` points away from the segment, and `n` reaches its left edge. -/
def cap (style : PathStyle) (p out n : Point) (reach halfWidth : Int) : List Loop :=
  match style with
  | .round => [octagon r p halfWidth]
  | .triangle => [[p - n, p + out.scale reach, p + n]]
  | .truncate | .extend => []

/-- The loops of a segment along `d`: the segment itself, then the caps of its first and its last end. -/
def segmentLoops (d p q : Point) (halfWidth : Int) (first last : PathStyle) : List Loop :=
  let reach := steps r d halfWidth
  let n := d.left.scale reach
  let extension (s : PathStyle) : Int := if s = .extend then reach else 0
  let a := p - d.scale (extension first)
  let b := q + d.scale (extension last)
  [a - n, b - n, b + n, a + n] :: (cap r first p (d.scale (-1)) n reach halfWidth ++ cap r last q d n reach halfWidth)

/-- The loops of one segment, each of them checked. -/
def segment (p q : Point) (halfWidth : Int) (first last : PathStyle) : Except LayoutError (List Loop) := do
  let d ← unitStep p q
  (segmentLoops r d p q halfWidth first last).mapM LoopKind.diagonal.check

/-- The loops of a line of segments that starts in a style. -/
def segments (halfWidth : Int) (styles : PathStyles) :
    PathStyle → List Point → Except LayoutError (List Loop)
  | style, p :: q :: rest => do
    let last := if rest.isEmpty then styles.last else styles.middle
    let here ← segment r p q halfWidth style last
    let more ← segments halfWidth styles styles.middle (q :: rest)
    return here ++ more
  | _, _ => .ok []

/-- The loops of a wire along a center line, `2 * halfWidth` wide. -/
def loops (points : List Point) (halfWidth : Int) (styles : PathStyles) :
    Except LayoutError (List Loop) := do
  if halfWidth ≤ 0 then throw (.representation (.halfWidth halfWidth))
  let line ← centerLine points
  let ls ← segments r halfWidth styles styles.first line
  if ls.isEmpty then throw (.representation .emptySet)
  return ls

end Loops

/-- Where the line through `p` along `d` meets the line through `q` along `e`. -/
def miter (p d q e : Point) : Except LayoutError Point :=
  let m := d.left
  let n := e.left
  let det := m.cross n
  if det = 0 then
    if d = e then .ok p else .error (.representation (.reversal p))
  else
    let c := m.dot p
    let f := n.dot q
    let x := c * n.y - f * m.y
    let y := m.x * f - n.x * c
    if x % det ≠ 0 ∨ y % det ≠ 0 then .error (.representation (.offGrid p))
    else .ok ⟨x / det, y / det⟩

/-- The corners of an offset line: `dirs` are the steps of the segments, and `corners` the vertices between. -/
def miters (shift : Point → Point) : List Point → List Point → Except LayoutError (List Point)
  | d :: e :: dirs, p :: corners => do
    let corner ← miter (p + shift d) d (p + shift e) e
    let rest ← miters shift (e :: dirs) corners
    return corner :: rest
  | _, _ => .ok []

section Buses

variable (r : Rounding)

/-- A line moved to its left by a distance, its segments meeting in mitered corners. -/
def offsetLine (points : List Point) (dist : Int) : Except LayoutError (List Point) := do
  let dirs ← (legs points).mapM fun leg => unitStep leg.1 leg.2
  let shift (d : Point) : Point := d.left.scale (steps r d dist)
  match points.head?, points.getLast?, dirs.head?, dirs.getLast? with
  | some p, some q, some d, some e =>
    let corners ← miters shift dirs (points.drop 1).dropLast
    return (p + shift d) :: corners ++ [q + shift e]
  | _, _, _, _ => .error (.representation (.fewPoints points))

/-- The loops of the wires of a bus: `before` is the width of the wires and spaces to the right of the next. -/
def busWires (line : List Point) (styles : PathStyles) (total : Int) :
    Int → List Int → List Int → Except LayoutError (List Loop)
  | _, [], _ => .ok []
  | before, width :: widths, spaces => do
    let wire ← offsetLine r line ((2 * before + width - total).tdiv 2)
    let here ← loops r wire (width.tdiv 2) styles
    let more ← busWires line styles total (before + width + spaces.headD 0) widths (spaces.drop 1)
    return here ++ more

/-- The loops of a bus of parallel wires centered on a line, the first wire furthest to the right. -/
def busLoops (points : List Point) (widths spaces : List Int) (styles : PathStyles) :
    Except LayoutError (List Loop) := do
  if widths.isEmpty ∨ spaces.length + 1 ≠ widths.length then
    throw (.representation (.busSpaces widths.length spaces.length))
  if spaces.any (· < 0) then throw (.representation .negativeSpace)
  let line ← centerLine points
  busWires r line styles (widths.foldr (· + ·) 0 + spaces.foldr (· + ·) 0) 0 widths spaces

end Buses

end Path

/-- A wire as a shape. -/
def Shape.ofPath (points : List Point) (halfWidth : Int) (styles : PathStyles) :
    Except LayoutError Shape := return .poly45Set (← Path.loops .nearest points halfWidth styles)

/-- A bus as a shape. -/
def Shape.ofBus (points : List Point) (widths spaces : List Int) (styles : PathStyles) :
    Except LayoutError Shape := do Shape.ofSet (← Path.busLoops .nearest points widths spaces styles)

end MaskLayout
