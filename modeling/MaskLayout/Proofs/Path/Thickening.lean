import MaskLayout.Proofs.Path.Drawing
import MaskLayout.Proofs.Region.RealPlane
import Mathlib.Topology.MetricSpace.HausdorffDistance

/-!
# Thickened lines

Wires with extended ends along straight segments. The box of each segment has the points whose larger distance along
the axes from the segment is no more than half the width. So the wire has just the points that are no further from its
line: all its corners are filled, and nothing stands out.
-/

namespace MaskLayout

namespace Path

/-- Whether a point of the plane is no further from a set than `h`, by the larger one of the distances along the
axes. -/
def Near (h : ℝ) (s : Set (ℝ × ℝ)) (z : ℝ × ℝ) : Prop := ∃ w ∈ s, dist z w ≤ h

/-- The points of the plane on the segments of a line. -/
def trace (line : List Point) : Set (ℝ × ℝ) := ⋃ leg ∈ legs line, Point.span leg

/-- The box of a segment along `d` that is extended at both ends. -/
def body (d p q : Point) (halfWidth : Int) : Loop :=
  let n := d.left.scale halfWidth
  let a := p - d.scale halfWidth
  let b := q + d.scale halfWidth
  [a - n, b - n, b + n, a + n]

variable {r : Rounding} {halfWidth : Int} {line points : List Point} {leg : Point × Point} {h : ℝ}
  {z : ℝ × ℝ}

theorem isCompact_trace (line : List Point) : IsCompact (trace line) :=
  (legs line).finite_toSet.isCompact_biUnion fun leg _ => Point.isCompact_span leg

theorem trace_nonempty (htwo : 2 ≤ line.length) : (trace line).Nonempty := by
  obtain ⟨leg, hleg⟩ := List.exists_mem_of_ne_nil _ (legs_ne_nil_iff.2 htwo)
  exact ⟨leg.1.real, Set.mem_iUnion₂.2 ⟨leg, hleg, left_mem_segment ℝ _ _⟩⟩

/-- A line reaches as far as its segments do. -/
theorem infDist_trace_le_iff (htwo : 2 ≤ line.length) :
    Metric.infDist z (trace line) ≤ h ↔ ∃ leg ∈ legs line, Near h (Point.span leg) z := by
  constructor
  · intro hz
    obtain ⟨w, hw, hdist⟩ := (isCompact_trace line).exists_infDist_eq_dist (trace_nonempty htwo) z
    obtain ⟨leg, hleg, hw⟩ := Set.mem_iUnion₂.1 hw
    exact ⟨leg, hleg, w, hw, hdist ▸ hz⟩
  · rintro ⟨leg, hleg, w, hw, hdist⟩
    exact (Metric.infDist_le_dist_of_mem (Set.mem_iUnion₂.2 ⟨leg, hleg, hw⟩)).trans hdist

/-- Repetitions leave no trace. -/
theorem trace_eraseReps (htwo : 2 ≤ points.eraseReps.length) : trace points.eraseReps = trace points := by
  apply Set.Subset.antisymm
  · intro z hz
    obtain ⟨leg, hleg, hz⟩ := Set.mem_iUnion₂.1 hz
    exact Set.mem_iUnion₂.2 ⟨leg, (mem_legs_eraseReps_iff.1 hleg).1, hz⟩
  · intro z hz
    obtain ⟨leg, hleg, hz⟩ := Set.mem_iUnion₂.1 hz
    by_cases hne : leg.1 = leg.2
    · have hpoint : z = leg.1.real := by simpa [Point.span, ← hne] using hz
      have hmem : leg.1 ∈ points.eraseReps := (mem_eraseReps points leg.1).2 (List.of_mem_zip hleg).1
      obtain ⟨near, hnear, hends⟩ := exists_leg_of_mem htwo hmem
      refine Set.mem_iUnion₂.2 ⟨near, hnear, ?_⟩
      rcases hends with hend | hend
      · rw [hpoint, hend]
        exact left_mem_segment ℝ _ _
      · rw [hpoint, hend]
        exact right_mem_segment ℝ _ _
    · exact Set.mem_iUnion₂.2 ⟨leg, mem_legs_eraseReps_iff.2 ⟨hleg, hne⟩, hz⟩

/-- Within `h` of an interval lie the numbers between its ends moved outward by `h`. -/
theorem exists_mem_uIcc_iff (hh : 0 ≤ h) (a b s : ℝ) :
    (∃ t ∈ Set.uIcc a b, |s - t| ≤ h) ↔ min a b - h ≤ s ∧ s ≤ max a b + h := by
  rw [Set.uIcc]
  have hle : min a b ≤ max a b := min_le_max
  change (∃ t ∈ Set.Icc (min a b) (max a b), _) ↔ _
  generalize min a b = lo, max a b = hi at hle
  constructor
  · rintro ⟨t, ht, hdist⟩
    obtain ⟨hlo, hhi⟩ := Set.mem_Icc.1 ht
    obtain ⟨hbelow, habove⟩ := abs_le.1 hdist
    exact ⟨by linarith, by linarith⟩
  · rintro ⟨hlo, hhi⟩
    have hupper : max lo (min s hi) ≤ s + h := max_le (by linarith) ((min_le_left s hi).trans (by linarith))
    have hlower : s - h ≤ min s hi := le_min (by linarith) (by linarith)
    have hclamp := hlower.trans (le_max_right lo (min s hi))
    refine ⟨max lo (min s hi), Set.mem_Icc.2 ⟨le_max_left _ _, max_le hle (min_le_right _ _)⟩, abs_le.2 ⟨?_, ?_⟩⟩
    · linarith
    · linarith

/-- Moved outward at both ends an interval of the grid has the numbers that are no further from it. -/
theorem mem_uIcc_spread {a b : Int} (hwidth : 0 < halfWidth) (hne : a ≠ b) (s : ℝ) :
    s ∈ Set.uIcc ((a - (b - a).sign * halfWidth : Int) : ℝ) ((b + (b - a).sign * halfWidth : Int) : ℝ) ↔
      ∃ t ∈ Set.uIcc (a : ℝ) b, |s - t| ≤ halfWidth := by
  have hpos : (0 : ℝ) < halfWidth := Int.cast_pos.2 hwidth
  rw [exists_mem_uIcc_iff hpos.le]
  rcases Int.lt_or_gt_of_ne hne with hlt | hlt
  · have hle : (a : ℝ) ≤ b := Int.cast_le.2 hlt.le
    rw [Int.sign_eq_one_of_pos (by omega), min_eq_left hle, max_eq_right hle]
    push_cast
    rw [Set.uIcc_of_le (by linarith), Set.mem_Icc, one_mul]
  · have hle : (b : ℝ) ≤ a := Int.cast_le.2 (le_of_lt hlt)
    rw [Int.sign_eq_neg_one_of_neg (by omega), min_eq_right hle, max_eq_left hle]
    push_cast
    rw [Set.uIcc_of_ge (by linarith), Set.mem_Icc, neg_one_mul, sub_neg_eq_add, ← sub_eq_add_neg]

/-- The numbers no further from a grid line than `halfWidth`, whichever of its sides is named first. -/
theorem mem_uIcc_across {a b : Int} (hwidth : 0 < halfWidth) (hne : a ≠ b) (c : Int) (s : ℝ) :
    s ∈ Set.uIcc ((c - (b - a).sign * halfWidth : Int) : ℝ) ((c + (b - a).sign * halfWidth : Int) : ℝ) ↔
      |s - c| ≤ halfWidth := by
  have hpos : (0 : ℝ) < halfWidth := Int.cast_pos.2 hwidth
  rw [abs_le]
  rcases Int.lt_or_gt_of_ne hne with hlt | hlt
  · rw [Int.sign_eq_one_of_pos (by omega)]
    push_cast
    rw [Set.uIcc_of_le (by linarith), Set.mem_Icc]
    constructor <;> rintro ⟨hlo, hhi⟩ <;> constructor <;> linarith
  · rw [Int.sign_eq_neg_one_of_neg (by omega)]
    push_cast
    rw [Set.uIcc_of_ge (by linarith), Set.mem_Icc]
    constructor <;> rintro ⟨hlo, hhi⟩ <;> constructor <;> linarith

theorem near_prod_iff {a b : Set ℝ} :
    Near h (a ×ˢ b) z ↔ (∃ t ∈ a, |z.1 - t| ≤ h) ∧ ∃ t ∈ b, |z.2 - t| ≤ h := by
  have hdist (w : ℝ × ℝ) : dist z w ≤ h ↔ |z.1 - w.1| ≤ h ∧ |z.2 - w.2| ≤ h := by
    rw [Prod.dist_eq, max_le_iff, Real.dist_eq, Real.dist_eq]
  constructor
  · rintro ⟨w, ⟨hwa, hwb⟩, hw⟩
    obtain ⟨hx, hy⟩ := (hdist w).1 hw
    exact ⟨⟨w.1, hwa, hx⟩, w.2, hwb, hy⟩
  · rintro ⟨⟨t, ht, hx⟩, u, hu, hy⟩
    exact ⟨(t, u), ⟨ht, hu⟩, (hdist (t, u)).2 ⟨hx, hy⟩⟩

/-- The box of a level segment is the set of the points no further from it. -/
theorem region_body_level (hwidth : 0 < halfWidth) {x x' : Int} (hne : x ≠ x') (y : Int) :
    (body (Point.heading (⟨x', y⟩ - ⟨x, y⟩)) ⟨x, y⟩ ⟨x', y⟩ halfWidth).region =
      {z | Near halfWidth (Point.span (⟨x, y⟩, ⟨x', y⟩)) z} := by
  have hbody : body (Point.heading (⟨x', y⟩ - ⟨x, y⟩)) ⟨x, y⟩ ⟨x', y⟩ halfWidth =
      let k := (x' - x).sign * halfWidth
      [⟨x - k, y - k⟩, ⟨x' + k, y - k⟩, ⟨x' + k, y + k⟩, ⟨x - k, y + k⟩] := by
    simp [body, Point.heading, Point.scale, Point.left, Point.ext_iff]
  ext z
  rw [hbody, Loop.region_level_first, Set.mem_prod, mem_uIcc_spread hwidth hne, mem_uIcc_across hwidth hne,
    Set.mem_ofPred_eq, Point.span_level, near_prod_iff]
  simp only [Set.mem_singleton_iff, exists_eq_left]

/-- The box of an upright segment is the set of the points no further from it. -/
theorem region_body_upright (hwidth : 0 < halfWidth) {y y' : Int} (hne : y ≠ y') (x : Int) :
    (body (Point.heading (⟨x, y'⟩ - ⟨x, y⟩)) ⟨x, y⟩ ⟨x, y'⟩ halfWidth).region =
      {z | Near halfWidth (Point.span (⟨x, y⟩, ⟨x, y'⟩)) z} := by
  have hbody : body (Point.heading (⟨x, y'⟩ - ⟨x, y⟩)) ⟨x, y⟩ ⟨x, y'⟩ halfWidth =
      let k := (y' - y).sign * halfWidth
      [⟨x + k, y - k⟩, ⟨x + k, y' + k⟩, ⟨x - k, y' + k⟩, ⟨x - k, y - k⟩] := by
    simp [body, Point.heading, Point.scale, Point.left, Point.ext_iff, Int.sub_eq_add_neg]
  ext z
  rw [hbody, Loop.region_upright_first, Set.mem_prod, Set.uIcc_comm, mem_uIcc_across hwidth hne, mem_uIcc_spread hwidth hne,
    Set.mem_ofPred_eq, Point.span_upright, near_prod_iff]
  simp only [Set.mem_singleton_iff, exists_eq_left]

/-- The box of a straight segment is the set of the points no further from it. -/
theorem region_body (hwidth : 0 < halfWidth) (hne : leg.1 ≠ leg.2) (hstraight : leg.1.x = leg.2.x ∨ leg.1.y = leg.2.y) :
    (body (leg.2 - leg.1).heading leg.1 leg.2 halfWidth).region = {z | Near halfWidth (Point.span leg) z} := by
  obtain ⟨⟨x, y⟩, ⟨x', y'⟩⟩ := leg
  rcases hstraight with hx | hy
  · change x = x' at hx
    subst hx
    have hy : y ≠ y' := fun hy => hne (by rw [hy])
    exact region_body_upright hwidth hy x
  · change y = y' at hy
    subst hy
    have hx : x ≠ x' := fun hx => hne (by rw [hx])
    exact region_body_level hwidth hx y

/-- Along straight segments a wire with extended ends is the boxes of its segments. -/
theorem drawn_extended {segs : List (Point × Point)} (h : ∀ leg ∈ segs, leg.1.x = leg.2.x ∨ leg.1.y = leg.2.y) :
    drawn r halfWidth (uniform .extend) (uniform .extend).first segs =
      segs.map fun leg => body (leg.2 - leg.1).heading leg.1 leg.2 halfWidth := by
  rw [drawn_uniform, List.map_eq_flatMap]
  apply List.flatMap_congr
  intro leg hleg
  have haxis : (leg.2 - leg.1).heading.x = 0 ∨ (leg.2 - leg.1).heading.y = 0 := by
    have hleg := h leg hleg
    rw [Point.heading_x_eq_zero_iff, Point.heading_y_eq_zero_iff, Point.sub_x, Point.sub_y]
    omega
  simp only [segmentLoops, steps_straight r haxis, if_true, cap, List.append_nil, body]

/-- A wire with extended ends along horizontal and vertical segments, which may turn, run back and cross, is drawn. Its
loops fill just the points of the plane no further from the segments than half the width, by the larger one of the
distances along the axes. -/
theorem loops_fill_thickening (r : Rounding) (points : List Point) (halfWidth : Int) (hwidth : 0 < halfWidth)
    (htwo : ∃ p ∈ points, ∃ q ∈ points, p ≠ q) (hstraight : ∀ leg ∈ legs points, leg.1.x = leg.2.x ∨ leg.1.y = leg.2.y) :
    ∃ ls, loops r points halfWidth (uniform .extend) = .ok ls ∧
      ⋃ l ∈ ls, l.region = {z : ℝ × ℝ | Metric.infDist z (trace points) ≤ halfWidth} := by
  have hlegs : ∀ leg ∈ legs points.eraseReps, leg.1 ≠ leg.2 ∧ (leg.1.x = leg.2.x ∨ leg.1.y = leg.2.y) :=
    fun leg hleg => ⟨(mem_legs_eraseReps_iff.1 hleg).2, hstraight leg (mem_legs_eraseReps_iff.1 hleg).1⟩
  have hdrawable : Drawable points := by
    refine ⟨htwo, fun leg hleg _ => ?_⟩
    have hleg := hstraight leg hleg
    rw [Point.Octilinear, Point.sub_x, Point.sub_y]
    omega
  have hlength := two_le_length_eraseReps_iff.2 htwo
  refine ⟨_, loops_iff.2 ⟨⟨hwidth, hdrawable⟩, rfl⟩, ?_⟩
  rw [drawn_extended fun leg hleg => (hlegs leg hleg).2]
  ext z
  rw [Set.mem_ofPred_eq, ← trace_eraseReps hlength, infDist_trace_le_iff hlength]
  simp only [Set.mem_iUnion, List.mem_map, exists_prop, exists_exists_and_eq_and]
  refine exists_congr fun leg => and_congr_right fun hleg => ?_
  rw [region_body hwidth (hlegs leg hleg).1 (hlegs leg hleg).2]
  rfl

/-- A line that pauses, turns a right angle to the left and runs back. -/
def hookedLine : List Point := [⟨0, 0⟩, ⟨10, 0⟩, ⟨10, 0⟩, ⟨10, 8⟩, ⟨10, 3⟩]

/-- The wire along that line is drawn, and the outer corner of its turn is filled. -/
theorem loops_fill_thickening_hooked : ∃ ls, loops .nearest hookedLine 2 (uniform .extend) = .ok ls ∧
    ⋃ l ∈ ls, l.region = {z : ℝ × ℝ | Metric.infDist z (trace hookedLine) ≤ (2 : Int)} ∧
    ((12, -2) : ℝ × ℝ) ∈ ⋃ l ∈ ls, l.region := by
  obtain ⟨ls, hls, hfill⟩ :=
    loops_fill_thickening .nearest hookedLine 2 (by decide) (by decide) (by decide)
  have hturn : Point.real ⟨10, 0⟩ ∈ trace hookedLine :=
    Set.mem_iUnion₂.2 ⟨(⟨0, 0⟩, ⟨10, 0⟩), by decide, right_mem_segment ℝ _ _⟩
  have hdist : dist ((12, -2) : ℝ × ℝ) (Point.real ⟨10, 0⟩) ≤ (2 : Int) := by
    norm_num [Prod.dist_eq, Real.dist_eq, Point.real]
  refine ⟨ls, hls, hfill, ?_⟩
  rw [hfill]
  exact (Metric.infDist_le_dist_of_mem hturn).trans hdist

end Path

end MaskLayout
