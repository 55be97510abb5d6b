import MaskLayout.Error
import MaskLayout.Plane.Box

/-!
# Loops

Closed loops of points. The last point joins the first one, and loops may repeat points and cross themselves.
-/

namespace MaskLayout

/-- The points of a closed loop in order. -/
abbrev Loop := List Point

namespace Loop

/-- The edges in order, the closing edge last. -/
def edges (l : Loop) : List (Point × Point) := l.zip (l.drop 1 ++ l.take 1)

/-- The image of a loop. -/
def transform (l : Loop) (t : Transform) : Loop := l.map t.apply

/-- The box around a loop. -/
def box (l : Loop) : Box := Box.ofPoints l

end Loop

namespace LoopKind

/-- The least number of points of a loop. -/
def leastPoints : LoopKind → Nat
  | rectilinear => 4
  | diagonal => 3
  | any => 3

/-- Whether an edge may run along `d`. -/
def allows : LoopKind → Point → Bool
  | rectilinear, d => d.x == 0 || d.y == 0
  | diagonal, d => d.x == 0 || d.y == 0 || d.x.natAbs == d.y.natAbs
  | any, _ => true

/-- Accept a loop with enough points whose edges are all allowed; else report the first fault. -/
def check (kind : LoopKind) (l : Loop) : Except LayoutError Loop :=
  if l.length < kind.leastPoints then .error (.representation (.loopSize kind l.length))
  else match l.edges.find? fun e => !kind.allows (e.2 - e.1) with
    | some e => .error (.representation (.loopEdge kind e.1 e.2))
    | none => .ok l

end LoopKind

end MaskLayout
