import MaskLayout.Plane.Loop

/-!
# Outlines

The outline of a union of loops, each filled by the even-odd rule. All arithmetic is exact: a line is an integer
direction and an integer offset, and a point on it is a rational position.

On each line that carries an edge, the positions where other edges meet it cut the line into pieces. A piece
belongs to the outline when just one of its sides is covered; it runs with the covered side on its left.
-/

namespace MaskLayout

/-- A straight part of an outline, covered on its left. -/
structure OutlineEdge where
  /-- The primitive direction. -/
  dir : Point
  /-- The cross product of the direction with every point of the line. -/
  offset : Int
  /-- The scalar product of the direction with the first point. -/
  start : Rat
  /-- The scalar product of the direction with the last point. -/
  stop : Rat
deriving DecidableEq

namespace OutlineEdge

/-- The x coordinate at a position. -/
def xAt (e : OutlineEdge) (s : Rat) : Rat :=
  (s * e.dir.x - e.offset * e.dir.y) / (e.dir.dot e.dir)

/-- The y coordinate at a position. -/
def yAt (e : OutlineEdge) (s : Rat) : Rat :=
  (s * e.dir.y + e.offset * e.dir.x) / (e.dir.dot e.dir)

/-- The same part in the other direction. -/
def reverse (e : OutlineEdge) : OutlineEdge := ⟨-e.dir, -e.offset, -e.stop, -e.start⟩

/-- The area to the left of the y axis that the part sweeps on its way. -/
def swept (e : OutlineEdge) : Rat :=
  (e.xAt e.start + e.xAt e.stop) / 2 * (e.yAt e.stop - e.yAt e.start)

/-- Whether a part meets a box that is not empty. -/
def touches (e : OutlineEdge) (b : Box) : Bool :=
  let x0 := e.xAt e.start
  let x1 := e.xAt e.stop
  let y0 := e.yAt e.start
  let y1 := e.yAt e.stop
  decide (x0 ≤ b.hi.x ∨ x1 ≤ b.hi.x) && decide (b.lo.x ≤ x0 ∨ b.lo.x ≤ x1) &&
    decide (y0 ≤ b.hi.y ∨ y1 ≤ b.hi.y) && decide (b.lo.y ≤ y0 ∨ b.lo.y ≤ y1) &&
    !(b.corners.all fun c => e.offset < e.dir.cross c) &&
    !(b.corners.all fun c => e.dir.cross c < e.offset)

/-- Twice a coordinate, if that is whole. -/
def doubled? (r : Rat) : Option Int :=
  if (2 * r).den = 1 then some (2 * r).num else none

/-- Both ends in doubled coordinates, if those are whole. -/
def doubledEnds? (e : OutlineEdge) : Option (List Int) :=
  [e.xAt e.start, e.yAt e.start, e.xAt e.stop, e.yAt e.stop].mapM doubled?

end OutlineEdge

namespace Outline

/-- A line through integer points: a primitive direction to the right or straight up, and its offset. -/
structure Line where
  dir : Point
  offset : Int
deriving DecidableEq

/-- The line of an edge that is not a single point. -/
def lineOf? (e : Point × Point) : Option Line :=
  let d := e.2 - e.1
  if d.x = 0 ∧ d.y = 0 then none
  else
    let g : Int := Int.gcd d.x d.y
    let p : Point := ⟨d.x / g, d.y / g⟩
    let p := if p.x < 0 ∨ (p.x = 0 ∧ p.y < 0) then -p else p
    some ⟨p, p.cross e.1⟩

/-- How an edge lies to a line: the positions of its ends along the line, and their distances to its left. -/
structure Relative where
  s0 : Int
  s1 : Int
  c0 : Int
  c1 : Int

/-- An edge as seen from a line. -/
def relative (line : Line) (e : Point × Point) : Relative :=
  ⟨line.dir.dot e.1, line.dir.dot e.2, line.dir.cross e.1 - line.offset, line.dir.cross e.2 - line.offset⟩

namespace Relative

/-- Whether the edge lies on the line. -/
def onLine (r : Relative) : Bool := r.c0 == 0 && r.c1 == 0

/-- The positions at which the edge cuts the line. -/
def cuts (r : Relative) : List Rat :=
  if r.onLine then [(r.s0 : Rat), (r.s1 : Rat)]
  else if (r.c0 ≤ 0 ∧ 0 ≤ r.c1) ∨ (r.c1 ≤ 0 ∧ 0 ≤ r.c0) then
    [(r.s0 : Rat) + mkRat ((r.s1 - r.s0) * r.c0 * (r.c0 - r.c1).sign) (r.c0 - r.c1).natAbs]
  else []

/-- Whether the edge stands over a position of the line. An edge owns its first position and not its last. -/
def spans (r : Relative) (s : Rat) : Bool := decide ((r.s0 : Rat) ≤ s) != decide ((r.s1 : Rat) ≤ s)

/-- Whether the edge passes strictly to the left of the line over a position that it spans. -/
def passesLeft (r : Relative) (s : Rat) : Bool :=
  let height : Rat := r.c0 * (r.s1 - r.s0) + (s - r.s0) * (r.c1 - r.c0)
  if r.s0 < r.s1 then decide (0 < height) else decide (height < 0)

end Relative

/-- Whether a loop covers the points just left and just right of a line at a position that is no cut: it does when
the edges from there outward to the left are odd in number. -/
def sides (rs : List Relative) (s : Rat) : Bool × Bool :=
  let spanning := rs.filter (·.spans s)
  let beyond := spanning.countP fun r => !r.onLine && r.passesLeft s
  let along := spanning.countP (·.onLine)
  (beyond % 2 == 1, (beyond + along) % 2 == 1)

/-- Join each part with the next one where they meet and run the same way. -/
def join : List OutlineEdge → List OutlineEdge
  | [] => []
  | e :: rest =>
    match join rest with
    | [] => [e]
    | f :: more =>
      if e.dir = f.dir ∧ e.stop = f.start then { e with stop := f.stop } :: more
      else if e.dir = f.dir ∧ f.stop = e.start then { e with start := f.start } :: more
      else e :: f :: more

/-- The edges of all loops as seen from a line. -/
def relatives (line : Line) (loops : List (List (Point × Point))) : List (List Relative) :=
  loops.map fun es => es.map (relative line)

/-- All positions at which edges cut a line, ascending. -/
def allCuts (loops : List (List Relative)) : List Rat :=
  ((loops.flatMap fun rs => rs.flatMap Relative.cuts).mergeSort fun a b => decide (a ≤ b)).eraseReps

/-- The piece of a line between two cuts, if it belongs to the outline. -/
def piece? (line : Line) (loops : List (List Relative)) : Rat × Rat → Option OutlineEdge := fun (s0, s1) =>
  let s := (s0 + s1) / 2
  if loops.any fun rs => rs.any fun r => r.onLine && r.spans s then
    let around := loops.map fun rs => sides rs s
    let leftCovered := around.any (·.1)
    let rightCovered := around.any (·.2)
    if leftCovered == rightCovered then none
    else
      let e : OutlineEdge := ⟨line.dir, line.offset, s0, s1⟩
      some (if leftCovered then e else e.reverse)
  else none

/-- The outline of the loops on one line, in order of position. -/
def onLine (loops : List (List (Point × Point))) (line : Line) : List OutlineEdge :=
  let rels := relatives line loops
  let cuts := allCuts rels
  join ((cuts.zip (cuts.drop 1)).filterMap (piece? line rels))

end Outline

/-- The outline of a union of loops, each filled by the even-odd rule: every part is as long as it can be. -/
def outline (loops : List Loop) : List OutlineEdge :=
  let edges := loops.map Loop.edges
  let lines := (edges.flatMap fun es => es.filterMap Outline.lineOf?).eraseDups
  lines.flatMap (Outline.onLine edges)

/-- The area inside an outline. -/
def outlineArea (es : List OutlineEdge) : Rat := (es.map OutlineEdge.swept).foldr (· + ·) 0

/-- Whether a union of even-odd loops covers the points just above and to the right of a point. -/
def coversAt (loops : List Loop) (p : Point) : Bool :=
  loops.any fun l => l.edges.countP (fun (a, b) =>
    decide ((a.y ≤ p.y ∧ p.y < b.y ∧ 0 < (b - a).cross (p - a)) ∨
      (b.y ≤ p.y ∧ p.y < a.y ∧ (b - a).cross (p - a) < 0))) % 2 == 1

end MaskLayout
