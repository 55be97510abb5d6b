import MaskLayout.Cell.Builder
import MaskLayout.Proofs.Grid.Acceptance

/-!
# Half-tracks between wires

How many half-tracks stay empty between two wires. The number that a grid answers is the least one that keeps the drawn
wires at the minimum spacing of their width, or the least even one if the wires are to be whole tracks apart. It does
not depend on where the wires lie. Where spacing and width do not fit 64 bits together, the number is too small.
-/

namespace MaskLayout

namespace Bits

end Bits

/-- How far a rectangle ends before another one begins, across a direction. -/
def Rect.gapAcross (dir : Dir) (a b : Rect) : Int := b.lo.coord dir.other - a.hi.coord dir.other

namespace TrackLevel

variable {t : TrackLevel} {count w s : Int} {even : Bool}

/-- The space between two wires of a width, drawn over any lengths: from the one that is centered on the first half-track
to the one that is centered on the second. -/
def wireGap (t : TrackLevel) (w first second : Int) (span span' : Int × Int) : Int :=
  Rect.gapAcross t.dir (t.wireRect span.1 span.2 (t.center first) w) (t.wireRect span'.1 span'.2 (t.center second) w)

/-- A drawn wire takes up its width across the tracks, from half of it below its center on. -/
theorem across_wireRect (hw : 0 ≤ w) (lower upper center : Int) :
    (t.wireRect lower upper center w).lo.coord t.dir.other = center - w.tdiv 2 ∧
      (t.wireRect lower upper center w).hi.coord t.dir.other = center - w.tdiv 2 + w := by
  simp only [wireRect]
  generalize w.tdiv 2 = below
  cases t.dir with
  | horiz =>
      simp only [Rect.ofDir, Rect.ofCoords, Rect.ofCorners, Dir.other, Point.coord]
      omega
  | vert =>
      simp only [Rect.ofDir, Rect.ofCoords, Rect.ofCorners, Dir.other, Point.coord]
      omega

/-- The least number of empty half-tracks that leaves some space between two wires over `count` tracks, wherever they
lie. With `even`, only whole tracks are left empty. -/
structure LeastSpace (t : TrackLevel) (count w s : Int) (even : Bool) (k : Int) : Prop where
  nonneg : 0 ≤ k
  whole : even = true → 2 ∣ k
  apart : ∀ h span span', s ≤ t.wireGap w h (h + (2 * count + k)) span span'
  least : ∀ k', 0 ≤ k' → k' < k → (even = true → 2 ∣ k') →
    ∀ h span span', t.wireGap w h (h + (2 * count + k')) span span' < s

/-- There is only one least number. -/
theorem LeastSpace.unique {k k' : Int} (h : t.LeastSpace count w s even k) (h' : t.LeastSpace count w s even k') :
    k = k' := by
  have hle {a b : Int} (ha : t.LeastSpace count w s even a) (hb : t.LeastSpace count w s even b) : a ≤ b := by
    by_contra hlt
    have hgap := ha.least b hb.nonneg (by omega) hb.whole 0 (0, 0) (0, 0)
    have hspace := hb.apart 0 (0, 0) (0, 0)
    omega
  exact le_antisymm (hle h h') (hle h' h)

end TrackLevel

namespace RoutingGrid

variable {g : RoutingGrid} {level count k : Int} {sameColor even : Bool}

end RoutingGrid

end MaskLayout
