import MaskLayout.Proofs.Plane.Hull
import MaskLayout.Proofs.Region.Winding

/-!
# Segments that meet boxes

Segments of the real plane that meet closed boxes. A segment meets a box exactly if their extents overlap and the
corners of the box are not all strictly to one side of the line of the segment: the positions on the line within either
extent of the box and those on the segment are three intervals that meet in pairs.
-/

namespace MaskLayout

namespace Plane

variable {d p w : ℝ × ℝ}

/-- Three sets of positions without gaps have a common position if any two of them have one. -/
theorem exists_common {A B C : Set ℝ} (hA : A.OrdConnected) (hB : B.OrdConnected) (hC : C.OrdConnected)
    (hAB : (A ∩ B).Nonempty) (hBC : (B ∩ C).Nonempty) (hCA : (C ∩ A).Nonempty) : ∃ s ∈ A, s ∈ B ∧ s ∈ C := by
  obtain ⟨x, hxA, hxB⟩ := hAB
  obtain ⟨y, hyB, hyC⟩ := hBC
  obtain ⟨u, huC, huA⟩ := hCA
  have hmiddle : x ∈ Set.uIcc y u ∨ y ∈ Set.uIcc u x ∨ u ∈ Set.uIcc x y := by
    simp only [Set.mem_uIcc]
    grind
  rcases hmiddle with h | h | h
  · exact ⟨x, hxA, hxB, hC.uIcc_subset hyC huC h⟩
  · exact ⟨y, hA.uIcc_subset huA hxA h, hyB, hyC⟩
  · exact ⟨u, huA, hB.uIcc_subset hxB hyB h, huC⟩

theorem ordConnected_positions (u v lo hi : ℝ) : {s : ℝ | lo ≤ u + s * v ∧ u + s * v ≤ hi}.OrdConnected := by
  constructor
  rintro s ⟨hlo, hhi⟩ s' ⟨hlo', hhi'⟩ r ⟨hr, hr'⟩
  rcases le_total 0 v with hv | hv
  · have h1 := mul_le_mul_of_nonneg_right hr hv
    have h2 := mul_le_mul_of_nonneg_right hr' hv
    exact ⟨by linarith, by linarith⟩
  · have h1 := mul_le_mul_of_nonpos_right hr hv
    have h2 := mul_le_mul_of_nonpos_right hr' hv
    exact ⟨by linarith, by linarith⟩

theorem cross_neg_left (d p : ℝ × ℝ) : cross (-d) p = -cross d p := by
  simp only [cross, Prod.fst_neg, Prod.snd_neg]
  ring

theorem exists_smul_of_cross_eq_zero (hd : d ≠ 0) (h : cross d (w - p) = 0) : ∃ s : ℝ, w = p + s • d := by
  have hsq := (sq_add_sq_pos hd).ne'
  refine ⟨((w - p).1 * d.1 + (w - p).2 * d.2) / (d.1 ^ 2 + d.2 ^ 2), ?_⟩
  simp only [cross, Prod.fst_sub, Prod.snd_sub] at h
  ext
  · simp only [Prod.fst_add, Prod.smul_fst, Prod.fst_sub, Prod.snd_sub, smul_eq_mul]
    field_simp
    linear_combination -d.2 * h
  · simp only [Prod.snd_add, Prod.smul_snd, Prod.fst_sub, Prod.snd_sub, smul_eq_mul]
    field_simp
    linear_combination d.1 * h

end Plane

namespace Box

open Plane

variable {b : Box} {d p q w : ℝ × ℝ}

/-- The points of the plane in a box. -/
def region (b : Box) : Set (ℝ × ℝ) := Set.Icc b.lo.real b.hi.real

theorem mem_region_iff : w ∈ b.region ↔
    ((b.lo.x : ℝ) ≤ w.1 ∧ w.1 ≤ b.hi.x) ∧ (b.lo.y : ℝ) ≤ w.2 ∧ w.2 ≤ b.hi.y := by
  rw [region, Set.mem_Icc, Prod.le_def, Prod.le_def]
  simp only [Point.real]
  tauto

theorem convex_region (b : Box) : Convex ℝ b.region := by
  rw [region, Set.Icc_prod_eq]
  exact (convex_Icc _ _).prod (convex_Icc _ _)

theorem isCompact_region (b : Box) : IsCompact b.region := isCompact_Icc

theorem corner_mem_region (hb : b.isEmpty = false) {c : Point} (hc : c ∈ b.corners) : c.real ∈ b.region := by
  obtain ⟨hx, hy⟩ := isEmpty_eq_false_iff.1 hb
  have hx : (b.lo.x : ℝ) ≤ b.hi.x := Int.cast_le.2 hx
  have hy : (b.lo.y : ℝ) ≤ b.hi.y := Int.cast_le.2 hy
  simp only [corners, List.mem_cons, List.not_mem_nil, or_false] at hc
  rcases hc with rfl | rfl | rfl | rfl <;> simp [mem_region_iff, Point.real, hx, hy]

/-- No point of a box lies farther to the right of a line than all corners. -/
theorem exists_corner_le (d p : ℝ × ℝ) (hw : w ∈ b.region) :
    ∃ c ∈ b.corners, cross d (c.real - p) ≤ cross d (w - p) := by
  obtain ⟨⟨hx, hx'⟩, hy, hy'⟩ := mem_region_iff.1 hw
  simp only [corners, List.exists_mem_cons_iff, List.not_mem_nil, false_and, exists_false, or_false, cross, Point.real,
    Prod.fst_sub, Prod.snd_sub]
  rcases le_total 0 d.1 with h1 | h1 <;> rcases le_total 0 d.2 with h2 | h2
  · right; left
    nlinarith
  · left
    nlinarith
  · right; right; left
    nlinarith
  · right; right; right
    nlinarith

/-- A line through a point of a box has corners of the box on both sides, or on it. -/
theorem exists_corners_of_mem (hw : w ∈ b.region) (hline : cross d (w - p) = 0) :
    (∃ c ∈ b.corners, cross d (c.real - p) ≤ 0) ∧ ∃ c ∈ b.corners, 0 ≤ cross d (c.real - p) := by
  obtain ⟨c, hc, hle⟩ := exists_corner_le d p hw
  obtain ⟨c', hc', hge⟩ := exists_corner_le (-d) p hw
  rw [cross_neg_left, cross_neg_left, hline, neg_zero, neg_nonpos] at hge
  exact ⟨⟨c, hc, hline ▸ hle⟩, c', hc', hge⟩

/-- A line meets a box if not all corners lie strictly to one side of it. -/
theorem exists_line_mem (hb : b.isEmpty = false) (hd : d ≠ 0) (hleft : ∃ c ∈ b.corners, cross d (c.real - p) ≤ 0)
    (hright : ∃ c ∈ b.corners, 0 ≤ cross d (c.real - p)) : ∃ s : ℝ, p + s • d ∈ b.region := by
  obtain ⟨c, hc, hle⟩ := hleft
  obtain ⟨c', hc', hge⟩ := hright
  have hcont : Continuous fun w => cross d (w - p) := by
    unfold cross
    fun_prop
  obtain ⟨w, hw, hzero⟩ := b.convex_region.isPreconnected.intermediate_value (corner_mem_region hb hc)
    (corner_mem_region hb hc') hcont.continuousOn ⟨hle, hge⟩
  obtain ⟨s, rfl⟩ := exists_smul_of_cross_eq_zero hd hzero
  exact ⟨s, hw⟩

/-- A point off a box has all of the box to the left of some line through it. -/
theorem exists_left_of_notMem {z : ℝ × ℝ} (hz : z ∉ b.region) : ∃ n ≠ 0, ∀ w ∈ b.region, Left n z w := by
  simp only [mem_region_iff, not_and_or, not_le] at hz ⊢
  rcases hz with (h | h) | h | h
  · refine ⟨(0, -1), by simp, ?_⟩
    rintro w ⟨⟨hlo, -⟩, -⟩
    simp only [Left, cross, Prod.fst_sub]
    linarith
  · refine ⟨(0, 1), by simp, ?_⟩
    rintro w ⟨⟨-, hhi⟩, -⟩
    simp only [Left, cross, Prod.fst_sub]
    linarith
  · refine ⟨(1, 0), by simp, ?_⟩
    rintro w ⟨-, hlo, -⟩
    simp only [Left, cross, Prod.snd_sub]
    linarith
  · refine ⟨(-1, 0), by simp, ?_⟩
    rintro w ⟨-, -, hhi⟩
    simp only [Left, cross, Prod.snd_sub]
    linarith

/-- A segment of numbers meets an interval exactly if their extents overlap. -/
theorem exists_position_iff {u v lo hi : ℝ} (h : lo ≤ hi) :
    (∃ s ∈ Set.Icc (0 : ℝ) 1, lo ≤ u + s * (v - u) ∧ u + s * (v - u) ≤ hi) ↔
      (u ≤ hi ∨ v ≤ hi) ∧ (lo ≤ u ∨ lo ≤ v) := by
  calc
    _ ↔ (segment ℝ u v ∩ Set.Icc lo hi).Nonempty := by
      rw [segment_eq_image', Set.image_inter_nonempty_iff]
      rfl
    _ ↔ (u ≤ hi ∨ v ≤ hi) ∧ (lo ≤ u ∨ lo ≤ v) := by
      rw [segment_eq_uIcc, Set.uIcc, Set.Icc_inter_Icc, Set.nonempty_Icc]
      simp only [sup_le_iff, le_inf_iff, inf_le_iff, le_sup_iff, h, and_true]
      grind

/-- A segment meets a box exactly if their extents overlap and the corners of the box are not all strictly to one side
of the line of the segment. -/
theorem segment_meets_iff {t : ℝ} (hb : b.isEmpty = false) (hq : q = p + t • d) :
    (segment ℝ p q ∩ b.region).Nonempty ↔
      ((p.1 ≤ b.hi.x ∨ q.1 ≤ b.hi.x) ∧ ((b.lo.x : ℝ) ≤ p.1 ∨ (b.lo.x : ℝ) ≤ q.1)) ∧
      ((p.2 ≤ b.hi.y ∨ q.2 ≤ b.hi.y) ∧ ((b.lo.y : ℝ) ≤ p.2 ∨ (b.lo.y : ℝ) ≤ q.2)) ∧
      (∃ c ∈ b.corners, cross d (c.real - p) ≤ 0) ∧ ∃ c ∈ b.corners, 0 ≤ cross d (c.real - p) := by
  obtain ⟨hx, hy⟩ := isEmpty_eq_false_iff.1 hb
  rw [← exists_position_iff (Int.cast_le.2 hx), ← exists_position_iff (Int.cast_le.2 hy)]
  have hpoint (s : ℝ) : p + s • (q - p) ∈ b.region ↔
      ((b.lo.x : ℝ) ≤ p.1 + s * (q.1 - p.1) ∧ p.1 + s * (q.1 - p.1) ≤ b.hi.x) ∧
        (b.lo.y : ℝ) ≤ p.2 + s * (q.2 - p.2) ∧ p.2 + s * (q.2 - p.2) ≤ b.hi.y := mem_region_iff
  constructor
  · rintro ⟨w, hw, hmem⟩
    rw [segment_eq_image'] at hw
    obtain ⟨s, hs, rfl⟩ := hw
    obtain ⟨hwx, hwy⟩ := (hpoint s).1 hmem
    have hline : cross d (p + s • (q - p) - p) = 0 := by
      rw [hq, add_sub_cancel_left, add_sub_cancel_left]
      simp only [cross, Prod.smul_fst, Prod.smul_snd, smul_eq_mul]
      ring
    exact ⟨⟨s, hs, hwx⟩, ⟨s, hs, hwy⟩, exists_corners_of_mem hmem hline⟩
  · rintro ⟨⟨s, hs, hsx⟩, ⟨u, hu, huy⟩, hle, hge⟩
    suffices h : ∃ s ∈ Set.Icc (0 : ℝ) 1, p + s • (q - p) ∈ b.region by
      obtain ⟨s, hs, hmem⟩ := h
      rw [segment_eq_image']
      exact ⟨_, ⟨s, hs, rfl⟩, hmem⟩
    by_cases hpq : t • d = 0
    · -- The segment is one point.
      refine ⟨s, hs, (hpoint s).2 ⟨hsx, ?_⟩⟩
      rw [hq, hpq, add_zero, sub_self, mul_zero] at huy ⊢
      exact huy
    · obtain ⟨ht, hd⟩ := smul_ne_zero_iff.1 hpq
      obtain ⟨v, hv⟩ := exists_line_mem hb hd hle hge
      have hv : p + (v / t) • (q - p) ∈ b.region := by
        rwa [hq, add_sub_cancel_left, smul_smul, div_mul_cancel₀ _ ht]
      obtain ⟨hvx, hvy⟩ := (hpoint _).1 hv
      obtain ⟨r, hr, hrx, hry⟩ := exists_common Set.ordConnected_Icc (ordConnected_positions p.1 (q.1 - p.1) _ _)
        (ordConnected_positions p.2 (q.2 - p.2) _ _) ⟨s, hs, hsx⟩ ⟨v / t, hvx, hvy⟩ ⟨u, huy, hu⟩
      exact ⟨r, hr, (hpoint r).2 ⟨hrx, hry⟩⟩

end Box

namespace Loop

open Plane

variable {b : Box}

/-- The test of an edge against a box is exact. -/
theorem edgeTouches_iff (hb : b.isEmpty = false) (e : Point × Point) :
    edgeTouches b e.1 e.2 = true ↔ (Point.span e ∩ b.region).Nonempty := by
  have hline : e.2.real = e.1.real + (1 : ℝ) • (e.2.real - e.1.real) := by module
  have hextent : (Box.ofCorners e.1 e.2).intersects b = true ↔
      ((e.1.x ≤ b.hi.x ∨ e.2.x ≤ b.hi.x) ∧ (b.lo.x ≤ e.1.x ∨ b.lo.x ≤ e.2.x)) ∧
      (e.1.y ≤ b.hi.y ∨ e.2.y ≤ b.hi.y) ∧ (b.lo.y ≤ e.1.y ∨ b.lo.y ≤ e.2.y) := by
    have hcorners : (Box.ofCorners e.1 e.2).isEmpty = false := by
      rw [Box.isEmpty_eq_false_iff]
      simp only [Box.ofCorners]
      omega
    simp only [Box.intersects, hb, hcorners, Bool.not_false, Bool.true_and, Bool.and_eq_true, decide_eq_true_eq]
    simp only [Box.ofCorners, min_le_iff, le_max_iff, and_assoc]
  rw [Point.span, Box.segment_meets_iff hb hline]
  simp only [← real_sub, cross_real, Int.cast_nonneg_iff, Int.cast_nonpos]
  simp only [Point.real, Int.cast_le, edgeTouches, Bool.and_eq_true, hextent, Bool.not_eq_true', List.all_eq_false,
    decide_eq_true_eq, not_lt, and_assoc]

end Loop

end MaskLayout
