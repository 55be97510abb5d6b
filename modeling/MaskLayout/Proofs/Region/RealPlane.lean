import MaskLayout.Proofs.Region.EvenOdd
import Mathlib.Analysis.Convex.Segment
import Mathlib.Data.Real.Basic
import Mathlib.Order.Interval.Set.UnorderedInterval
import Mathlib.Tactic.Linarith
import Mathlib.Topology.Algebra.Module.Basic
import Mathlib.Topology.Instances.Real.Lemmas
import Mathlib.Topology.Order.Compact

/-!
# Loops in the real plane

Loops as regions of the real plane: the points on their edges, and the points off them that an odd number of edges pass
on the left. The loop around the corners of a box, wherever it starts and whichever way it turns, is the closed box.
-/

namespace MaskLayout

namespace Point

/-- A grid point as a point of the real plane. -/
noncomputable def real (p : Point) : ℝ × ℝ := (p.x, p.y)

/-- The points of the plane on the segment between two grid points. -/
def span (e : Point × Point) : Set (ℝ × ℝ) := segment ℝ e.1.real e.2.real

theorem span_level (x x' y : Int) : span (⟨x, y⟩, ⟨x', y⟩) = Set.uIcc (x : ℝ) x' ×ˢ {(y : ℝ)} := by
  rw [span, real, real, ← Prod.image_mk_segment_left, segment_eq_uIcc, Set.prod_singleton]

theorem span_upright (x y y' : Int) : span (⟨x, y⟩, ⟨x, y'⟩) = {(x : ℝ)} ×ˢ Set.uIcc (y : ℝ) y' := by
  rw [span, real, real, ← Prod.image_mk_segment_right, segment_eq_uIcc, Set.singleton_prod]

theorem isCompact_span (e : Point × Point) : IsCompact (span e) := by
  rw [span, segment_eq_image]
  exact isCompact_Icc.image (by fun_prop)

end Point

namespace Loop

/-- Whether the ray from a point of the plane to the left crosses an edge. Edges own their lower ends. -/
def Crosses (z : ℝ × ℝ) (e : Point × Point) : Prop :=
  ¬((e.1.y : ℝ) ≤ z.2 ↔ (e.2.y : ℝ) ≤ z.2) ∧
    ((e.2.y : ℝ) - e.1.y) * ((e.2.x - e.1.x) * (z.2 - e.1.y) - (e.2.y - e.1.y) * (z.1 - e.1.x)) < 0

noncomputable instance (z : ℝ × ℝ) : DecidablePred (Crosses z) := Classical.decPred _

/-- The points of the plane on the edges of a loop or inside it. -/
def region (l : Loop) : Set (ℝ × ℝ) :=
  {z | (∃ e ∈ l.edges, z ∈ Point.span e) ∨ l.edges.countP (fun e => Crosses z e) % 2 = 1}

/-- The center of the unit square whose lower left corner is a grid point. -/
noncomputable def center (c : Point) : ℝ × ℝ := (c.x + 1 / 2, c.y + 1 / 2)

theorem intCast_le_add_half (a b : Int) : (a : ℝ) ≤ b + 1 / 2 ↔ a ≤ b := by
  constructor
  · intro h
    have hlt : (a : ℝ) < (b + 1 : Int) := by
      push_cast
      linarith
    exact Int.lt_add_one_iff.1 (Int.cast_lt.1 hlt)
  · intro h
    have hle : (a : ℝ) ≤ b := Int.cast_le.2 h
    linarith

theorem crosses_center_iff (c : Point) (e : Point × Point) : Crosses (center c) e ↔ crossesLeft c e = true := by
  have hside : ((e.2.y : ℝ) - e.1.y) * ((e.2.x - e.1.x) * (c.y + 1 / 2 - e.1.y) - (e.2.y - e.1.y) * (c.x + 1 / 2 - e.1.x)) =
      ((e.2.y - e.1.y) * ((e.2.x - e.1.x) * (2 * (c.y - e.1.y) + 1) -
        (e.2.y - e.1.y) * (2 * (c.x - e.1.x) + 1)) : Int) / 2 := by
    push_cast
    ring
  have hneg (n : Int) : (n : ℝ) / 2 < 0 ↔ n < 0 := by
    rw [← Int.cast_lt_zero (R := ℝ)]
    constructor <;> intro h <;> linarith
  rw [crossesLeft_iff, Crosses, center, intCast_le_add_half, intCast_le_add_half, hside, hneg]

variable {x y x' y' : Int} {z : ℝ × ℝ}

theorem not_crosses_level : ¬ Crosses z (⟨x, y⟩, ⟨x', y⟩) := fun h => h.1 Iff.rfl

/-- Upright edges are crossed if they pass on the left. -/
theorem crosses_upright_iff : Crosses z (⟨x, y⟩, ⟨x, y'⟩) ↔ ¬((y : ℝ) ≤ z.2 ↔ (y' : ℝ) ≤ z.2) ∧ (x : ℝ) < z.1 := by
  rw [Crosses, and_congr_right_iff]
  intro hspan
  have hne : (y' : ℝ) - y ≠ 0 := by
    intro hzero
    apply hspan
    rw [sub_eq_zero.1 hzero]
  have hside : ((y' : ℝ) - y) * ((x - x) * (z.2 - y) - (y' - y) * (z.1 - x)) = (y' - y) * (y' - y) * (x - z.1) := by
    ring
  rw [hside, mul_neg_iff]
  have hpos := mul_self_pos.2 hne
  constructor
  · rintro (⟨-, h⟩ | ⟨h, -⟩)
    · linarith
    · linarith
  · intro h
    exact .inl ⟨hpos, by linarith⟩

/-- The points of a closed box are those on its sides, and those that lie between just two of them either way. -/
theorem mem_box_iff {a a' b b' s t : ℝ} : s ∈ Set.uIcc a a' ∧ t ∈ Set.uIcc b b' ↔
    (s ∈ Set.uIcc a a' ∧ (t = b ∨ t = b') ∨ (s = a ∨ s = a') ∧ t ∈ Set.uIcc b b') ∨
      ¬(b ≤ t ↔ b' ≤ t) ∧ ¬(a < s ↔ a' < s) := by
  simp only [Set.mem_uIcc]
  grind

/-- The loop around a box that starts along a level side is the closed box. -/
theorem region_level_first (x y x' y' : Int) :
    region [⟨x, y⟩, ⟨x', y⟩, ⟨x', y'⟩, ⟨x, y'⟩] = Set.uIcc (x : ℝ) x' ×ˢ Set.uIcc (y : ℝ) y' := by
  ext z
  have hedges : Loop.edges [⟨x, y⟩, ⟨x', y⟩, ⟨x', y'⟩, ⟨x, y'⟩] =
      [(⟨x, y⟩, ⟨x', y⟩), (⟨x', y⟩, ⟨x', y'⟩), (⟨x', y'⟩, ⟨x, y'⟩), (⟨x, y'⟩, ⟨x, y⟩)] := rfl
  simp only [region, hedges, List.exists_mem_cons_iff, List.not_mem_nil, false_and, exists_false, or_false,
    Point.span_level, Point.span_upright, Set.mem_prod, Set.mem_singleton_iff, List.countP_cons, List.countP_nil,
    decide_eq_true_iff, not_crosses_level, crosses_upright_iff, Set.mem_ofPred_eq, if_false]
  rw [mem_box_iff, Set.uIcc_comm (x' : ℝ) x, Set.uIcc_comm (y' : ℝ) y]
  apply or_congr
  · tauto
  · by_cases hspan : (y : ℝ) ≤ z.2 ↔ (y' : ℝ) ≤ z.2
    · simp [hspan]
    · by_cases hx : (x : ℝ) < z.1 <;> by_cases hx' : (x' : ℝ) < z.1 <;> simp [hspan, iff_comm.not.1 hspan, hx, hx']

/-- The region of a loop does not depend on where the loop starts. -/
theorem region_of_perm {l l' : Loop} (h : l.edges.Perm l'.edges) : l.region = l'.region := by
  ext z
  simp only [region, Set.mem_ofPred_eq, h.mem_iff, h.countP_eq]

/-- The loop around a box that starts along an upright side is the closed box, too. -/
theorem region_upright_first (x y x' y' : Int) :
    region [⟨x, y⟩, ⟨x, y'⟩, ⟨x', y'⟩, ⟨x', y⟩] = Set.uIcc (x : ℝ) x' ×ˢ Set.uIcc (y : ℝ) y' := by
  have hstart : (Loop.edges [⟨x, y⟩, ⟨x, y'⟩, ⟨x', y'⟩, ⟨x', y⟩]).Perm
      (Loop.edges [⟨x, y'⟩, ⟨x', y'⟩, ⟨x', y⟩, ⟨x, y⟩]) :=
    (List.perm_append_singleton _ _).symm
  rw [region_of_perm hstart, region_level_first, Set.uIcc_comm (y' : ℝ) y]

end Loop

end MaskLayout
