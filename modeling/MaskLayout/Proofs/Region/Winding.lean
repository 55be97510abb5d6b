import MaskLayout.Proofs.Region.RealPlane
import MaskLayout.Proofs.Region.Slabs
import MaskLayout.Region.ExactPolygons
import Mathlib.Algebra.BigOperators.Group.List.Basic
import Mathlib.Algebra.Ring.Parity
import Mathlib.Analysis.Convex.Topology
import Mathlib.Analysis.Normed.Module.Convex
import Mathlib.Order.CompletePartialOrder
import Mathlib.Tactic.LinearCombination
import Mathlib.Tactic.Module

/-!
# Winding numbers

Winding numbers of loops around points of the real plane, counted along any ray. Two rays from one point bound a wedge,
and what an edge counts on one ray more than on the other is whether it enters the wedge or leaves it; around a closed
loop that cancels out. So off the edges all rays count alike, and points that a segment joins without meeting an edge
have the same winding number.
-/

namespace MaskLayout

namespace Plane

variable {a b d d' p z z' : ℝ × ℝ}

/-- The signed area spanned by two vectors of the plane. -/
def cross (u v : ℝ × ℝ) : ℝ := u.1 * v.2 - u.2 * v.1

/-- Whether a point lies strictly to the left of the line through `z` along `d`. -/
def Left (d z p : ℝ × ℝ) : Prop := 0 < cross d (p - z)

noncomputable instance (d z : ℝ × ℝ) : DecidablePred (Left d z) := Classical.decPred _

/-- How a segment passes the ray from `z` along `d`: counterclockwise, clockwise or not at all. -/
noncomputable def pass (d z a b : ℝ × ℝ) : ℤ :=
  if ¬Left d z a ∧ Left d z b ∧ 0 < cross (a - z) (b - z) then 1
  else if Left d z a ∧ ¬Left d z b ∧ cross (a - z) (b - z) < 0 then -1
  else 0

/-- One for the points of the wedge from the ray along `d` counterclockwise to the ray along `d'`. -/
noncomputable def wedge (d d' z p : ℝ × ℝ) : ℤ := if Left d z p ∧ ¬Left d' z p then 1 else 0

theorem cross_swap (u v : ℝ × ℝ) : cross u v = -cross v u := by
  simp only [cross]
  ring

theorem real_sub (p q : Point) : (p - q).real = p.real - q.real :=
  Prod.ext (Int.cast_sub _ _) (Int.cast_sub _ _)

theorem cross_real (d p : Point) : cross d.real p.real = (d.cross p : Int) := by
  simp [cross, Point.real, Point.cross]

theorem sq_add_sq_pos (hd : d ≠ 0) : 0 < d.1 ^ 2 + d.2 ^ 2 := by
  by_contra hle
  refine hd (Prod.ext ?_ ?_) <;> simp only [Prod.fst_zero, Prod.snd_zero] <;> nlinarith

theorem pass_swap (d z a b : ℝ × ℝ) : pass d z a b = -pass d z b a := by
  simp only [pass, cross_swap (a - z) (b - z)]
  by_cases ha : Left d z a <;> by_cases hb : Left d z b <;> simp [ha, hb]
  all_goals split <;> rfl

/-- The line of a segment that passes from one side of a line to the other one meets that line on the segment. -/
theorem mem_segment_of_cross_eq_zero (hcross : cross (a - z) (b - z) = 0) (hside : ¬(Left d z a ↔ Left d z b)) :
    z ∈ segment ℝ a b := by
  wlog hb : Left d z b generalizing a b
  · rw [segment_symm]
    apply this
    · rw [cross_swap, hcross, neg_zero]
    · exact fun h => hside h.symm
    · tauto
  have ha : cross d (a - z) ≤ 0 := not_lt.1 (by tauto)
  have hpos : 0 < cross d (b - z) - cross d (a - z) := sub_pos.2 (ha.trans_lt hb)
  refine ⟨cross d (b - z) / (cross d (b - z) - cross d (a - z)), -cross d (a - z) / (cross d (b - z) - cross d (a - z)),
    div_nonneg (le_of_lt hb) hpos.le, div_nonneg (neg_nonneg.2 ha) hpos.le, ?_, ?_⟩
  · rw [← add_div, ← sub_eq_add_neg, div_self hpos.ne']
  · simp only [cross, Prod.fst_sub, Prod.snd_sub] at hcross hpos ⊢
    ext
    · simp only [Prod.fst_add, Prod.smul_fst, smul_eq_mul]
      field_simp
      linear_combination d.1 * hcross
    · simp only [Prod.snd_add, Prod.smul_snd, smul_eq_mul]
      field_simp
      linear_combination d.2 * hcross

theorem cross_mul_cross (d d' u v : ℝ × ℝ) :
    cross d u * cross d' v - cross d' u * cross d v = cross d d' * cross u v := by
  simp only [cross]
  ring

/-- A turn from one point to another one that is counterclockwise, and so less than half a turn, does not reach the
far side of one ray without passing the other one. -/
theorem left_of_turn (hd : 0 < cross d d') (hturn : 0 < cross (a - z) (b - z)) :
    (Left d z a ↔ Left d' z b) ∨ ¬(Left d' z a ↔ Left d z b) := by
  have hprod := mul_pos hd hturn
  rw [← cross_mul_cross d d'] at hprod
  by_contra hfar
  obtain ⟨hother, hsame⟩ := not_or.1 hfar
  have hle : cross d (a - z) * cross d' (b - z) ≤ 0 := by
    rw [mul_nonpos_iff]
    unfold Left at hother
    grind
  have hge : 0 ≤ cross d' (a - z) * cross d (b - z) := by
    rw [mul_nonneg_iff]
    unfold Left at hsame
    grind
  linarith

/-- A segment passes one ray more often than another one if it enters the wedge between them, and less often if it
leaves the wedge. -/
theorem pass_sub_pass (hd : 0 < cross d d') (hz : z ∉ segment ℝ a b) :
    pass d z a b - pass d' z a b = wedge d d' z b - wedge d d' z a := by
  wlog hcross : 0 ≤ cross (a - z) (b - z) generalizing a b
  · have hback := this (segment_symm ℝ a b ▸ hz) (by rw [cross_swap]; linarith)
    rw [pass_swap d, pass_swap d']
    omega
  rcases hcross.lt_or_eq with hpos | hzero
  · have hturn := left_of_turn hd hpos
    simp only [pass, wedge, hpos, hpos.not_gt, and_true, and_false, if_false]
    by_cases ha : Left d z a <;> by_cases ha' : Left d' z a <;> by_cases hb : Left d z b <;>
      by_cases hb' : Left d' z b <;> simp [ha, ha', hb, hb'] at hturn ⊢
  · have hsame (d : ℝ × ℝ) : Left d z a ↔ Left d z b := by
      by_contra hside
      exact hz (mem_segment_of_cross_eq_zero hzero.symm hside)
    simp [pass, wedge, hsame, ← hzero]

theorem left_add_smul_iff (t : ℝ) : Left d (z + t • d) p ↔ Left d z p := by
  have hmove : cross d (p - (z + t • d)) = cross d (p - z) := by
    simp only [cross, Prod.fst_sub, Prod.snd_sub, Prod.fst_add, Prod.snd_add, Prod.smul_fst, Prod.smul_snd, smul_eq_mul]
    ring
  rw [Left, Left, hmove]

/-- On the way along a ray, a segment that passes the ray and is not met stays on the same side. -/
theorem cross_pos_of_disjoint {t : ℝ} (hside : ¬(Left d z a ↔ Left d z b))
    (hfree : Disjoint (segment ℝ z (z + t • d)) (segment ℝ a b)) (hpos : 0 < cross (a - z) (b - z)) :
    0 < cross (a - (z + t • d)) (b - (z + t • d)) := by
  by_contra hle
  have hcont : Continuous fun w => cross (a - w) (b - w) := by
    unfold cross
    fun_prop
  obtain ⟨w, hw, hzero⟩ := (convex_segment z (z + t • d)).isPreconnected.intermediate_value
    (right_mem_segment ℝ _ _) (left_mem_segment ℝ _ _) hcont.continuousOn ⟨not_lt.1 hle, hpos.le⟩
  have hside' : ¬(Left d w a ↔ Left d w b) := by
    rw [segment_eq_image', add_sub_cancel_left] at hw
    obtain ⟨θ, -, rfl⟩ := hw
    simp only [smul_smul, left_add_smul_iff]
    exact hside
  exact Set.disjoint_left.1 hfree hw (mem_segment_of_cross_eq_zero hzero hside')

theorem cross_pos_iff_of_disjoint {t : ℝ} (hside : ¬(Left d z a ↔ Left d z b))
    (hfree : Disjoint (segment ℝ z (z + t • d)) (segment ℝ a b)) :
    0 < cross (a - (z + t • d)) (b - (z + t • d)) ↔ 0 < cross (a - z) (b - z) := by
  have hback : z + t • d + -t • d = z := by module
  constructor
  · intro h
    rw [← hback]
    apply cross_pos_of_disjoint _ _ h
    · rwa [left_add_smul_iff, left_add_smul_iff]
    · rwa [hback, segment_symm]
  · exact cross_pos_of_disjoint hside hfree

theorem pass_eq_zero (hside : Left d z a ↔ Left d z b) : pass d z a b = 0 := by
  rw [pass, if_neg (by tauto), if_neg (by tauto)]

theorem pass_add_smul {t : ℝ} (hfree : Disjoint (segment ℝ z (z + t • d)) (segment ℝ a b)) :
    pass d (z + t • d) a b = pass d z a b := by
  by_cases hside : Left d z a ↔ Left d z b
  · rw [pass_eq_zero hside, pass_eq_zero (by rwa [left_add_smul_iff, left_add_smul_iff])]
  · have hpos := cross_pos_iff_of_disjoint hside hfree
    have hneg := cross_pos_iff_of_disjoint (mt Iff.symm hside) (segment_symm ℝ a b ▸ hfree)
    rw [cross_swap (b - _), cross_swap (b - _), neg_pos, neg_pos] at hneg
    simp only [pass, left_add_smul_iff, hpos, hneg]

theorem pass_sub_eq (hfree : Disjoint (segment ℝ z z') (segment ℝ a b)) :
    pass (z' - z) z' a b = pass (z' - z) z a b := by
  have hmove : z + (1 : ℝ) • (z' - z) = z' := by module
  have hpass := pass_add_smul (t := 1) (d := z' - z) (z := z) (a := a) (b := b)
  rw [hmove] at hpass
  exact hpass hfree

/-- Whether a segment passes the line through `z` along `d` behind `z`. -/
def Behind (d z a b : ℝ × ℝ) : Prop :=
  ¬(Left d z a ↔ Left d z b) ∧ cross d (b - a) * cross (a - z) (b - z) < 0

noncomputable instance (d z : ℝ × ℝ) : DecidablePred fun e : Point × Point => Behind d z e.1.real e.2.real :=
  Classical.decPred _

theorem behind_add_smul_iff {t : ℝ} (hfree : Disjoint (segment ℝ z (z + t • d)) (segment ℝ a b)) :
    Behind d (z + t • d) a b ↔ Behind d z a b := by
  rw [Behind, Behind, left_add_smul_iff, left_add_smul_iff, and_congr_right_iff]
  intro hside
  have hpos := cross_pos_iff_of_disjoint hside hfree
  have hneg := cross_pos_iff_of_disjoint (mt Iff.symm hside) (segment_symm ℝ a b ▸ hfree)
  rw [cross_swap (b - _), cross_swap (b - _), neg_pos, neg_pos] at hneg
  rw [mul_neg_iff, mul_neg_iff, hpos, hneg]

/-- A segment that passes a line either passes a ray of it or passes it behind the ray. -/
theorem odd_pass_sub_iff (hz : z ∉ segment ℝ a b) :
    Odd (pass d z a b - ((if Left d z b then 1 else 0) - if Left d z a then 1 else 0)) ↔ Behind d z a b := by
  have hdist : cross d (b - a) = cross d (b - z) - cross d (a - z) := by
    simp only [cross, Prod.fst_sub, Prod.snd_sub]
    ring
  by_cases hside : Left d z a ↔ Left d z b
  · rw [pass_eq_zero hside]
    simp [Behind, hside]
  · have hne : cross (a - z) (b - z) ≠ 0 := fun hzero => hz (mem_segment_of_cross_eq_zero hzero hside)
    rw [Behind, and_iff_right hside, hdist]
    rcases lt_or_gt_of_ne hne with hneg | hpos
    · have hmul : (cross d (b - z) - cross d (a - z)) * cross (a - z) (b - z) < 0 ↔ Left d z b := by
        rw [mul_neg_iff]
        unfold Left at hside ⊢
        grind
      rw [hmul, pass]
      by_cases hb : Left d z b <;> simp [show Left d z a ↔ ¬Left d z b by tauto, hb, hneg, hneg.not_gt]
    · have hmul : (cross d (b - z) - cross d (a - z)) * cross (a - z) (b - z) < 0 ↔ ¬Left d z b := by
        rw [mul_neg_iff]
        unfold Left at hside ⊢
        grind
      rw [hmul, pass]
      by_cases hb : Left d z b <;> simp [show Left d z a ↔ ¬Left d z b by tauto, hb, hpos, hpos.not_gt]

end Plane

namespace Loop

open Plane Filter Topology

variable {l : Loop} {d d' z z' : ℝ × ℝ}

/-- The points of the plane on the edges of a loop. -/
def trace (l : Loop) : Set (ℝ × ℝ) := ⋃ e ∈ l.edges, Point.span e

/-- How often a loop winds counterclockwise around a point of the plane, counted along the ray from there in direction
`d`. -/
noncomputable def windingAt (l : Loop) (d z : ℝ × ℝ) : ℤ := (l.edges.map fun e => pass d z e.1.real e.2.real).sum

theorem mem_trace_iff : z ∈ l.trace ↔ ∃ e ∈ l.edges, z ∈ Point.span e := by
  simp only [trace, Set.mem_iUnion, exists_prop]

theorem notMem_trace_iff : z ∉ l.trace ↔ ∀ e ∈ l.edges, z ∉ Point.span e := by
  simp only [mem_trace_iff, not_exists, not_and]

theorem span_subset_trace {e : Point × Point} (he : e ∈ l.edges) : Point.span e ⊆ l.trace :=
  fun _ hz => mem_trace_iff.2 ⟨e, he, hz⟩

theorem isClosed_trace (l : Loop) : IsClosed l.trace :=
  (List.finite_toSet l.edges).isClosed_biUnion fun e _ => (Point.isCompact_span e).isClosed

private theorem sum_path (f : Point → ℤ) (a b : Point) (l : List Point) :
    (((a :: l).zip (l ++ [b])).map fun e => f e.2 - f e.1).sum = f b - f a := by
  induction l generalizing a with
  | nil => simp
  | cons x l ih =>
      rw [List.cons_append, List.zip_cons_cons, List.map_cons, List.sum_cons, ih]
      ring

/-- What changes along the edges of a closed loop does not add to a sum over the edges. -/
theorem sum_edges_eq {f g : Point × Point → ℤ} (q : Point → ℤ) (h : ∀ e ∈ l.edges, f e = g e + (q e.2 - q e.1)) :
    (l.edges.map f).sum = (l.edges.map g).sum := by
  have hround : (l.edges.map fun e => q e.2 - q e.1).sum = 0 := by
    cases l with
    | nil => rfl
    | cons a l => exact (sum_path q a a l).trans (sub_self _)
  rw [List.map_congr_left h, List.sum_map_add, hround, add_zero]

private theorem windingAt_eq_of_cross_pos (hz : z ∉ l.trace) (hd : 0 < cross d d') :
    l.windingAt d z = l.windingAt d' z := by
  apply sum_edges_eq fun p => wedge d d' z p.real
  intro e he
  have hpass := pass_sub_pass hd (notMem_trace_iff.1 hz e he)
  omega

private theorem windingAt_eq_of_cross_ne_zero (hz : z ∉ l.trace) (hd : cross d d' ≠ 0) :
    l.windingAt d z = l.windingAt d' z := by
  rcases lt_or_gt_of_ne hd with hneg | hpos
  · rw [cross_swap, neg_lt_zero] at hneg
    exact (windingAt_eq_of_cross_pos hz hneg).symm
  · exact windingAt_eq_of_cross_pos hz hpos

/-- Off the edges all rays count alike. -/
theorem windingAt_eq (hz : z ∉ l.trace) (hd : d ≠ 0) (hd' : d' ≠ 0) : l.windingAt d z = l.windingAt d' z := by
  by_cases hline : cross d d' = 0
  · -- Rays along one line are both compared with a ray across it.
    have hacross : cross d (-d.2, d.1) ≠ 0 := by
      have := sq_add_sq_pos hd
      simp only [cross]
      linarith
    have hacross' : cross d' (-d.2, d.1) ≠ 0 := by
      have := mul_pos (sq_add_sq_pos hd) (sq_add_sq_pos hd')
      simp only [cross] at hline ⊢
      intro hzero
      nlinarith
    rw [windingAt_eq_of_cross_ne_zero hz hacross, windingAt_eq_of_cross_ne_zero hz hacross']
  · exact windingAt_eq_of_cross_ne_zero hz hline

/-- Points that a segment joins without meeting an edge have the same winding number. -/
theorem windingAt_eq_of_disjoint (hfree : Disjoint (segment ℝ z z') l.trace) (hd : d ≠ 0) :
    l.windingAt d z' = l.windingAt d z := by
  have hz : z ∉ l.trace := Set.disjoint_left.1 hfree (left_mem_segment ℝ z z')
  have hz' : z' ∉ l.trace := Set.disjoint_left.1 hfree (right_mem_segment ℝ z z')
  by_cases hne : z' - z = 0
  · rw [sub_eq_zero.1 hne]
  · rw [windingAt_eq hz' hd hne, windingAt_eq hz hd hne, windingAt, windingAt]
    congr 1
    exact List.map_congr_left fun e he => pass_sub_eq (hfree.mono_right (span_subset_trace he))

/-- Near a point off the edges a loop winds equally often around all points. -/
theorem eventually_windingAt_eq (hz : z ∉ l.trace) (hd : d ≠ 0) :
    ∀ᶠ w in 𝓝 z, w ∉ l.trace ∧ l.windingAt d w = l.windingAt d z := by
  obtain ⟨r, hr, hball⟩ := Metric.isOpen_iff.1 l.isClosed_trace.isOpen_compl z hz
  filter_upwards [Metric.ball_mem_nhds z hr] with w hw
  refine ⟨hball hw, windingAt_eq_of_disjoint ?_ hd⟩
  rw [Set.disjoint_left]
  exact fun v hv => hball ((convex_ball z r).segment_subset (Metric.mem_ball_self hr) hw hv)

/-- A loop does not wind around a point from which all its points lie to one side of a line. -/
theorem windingAt_eq_zero {n : ℝ × ℝ} (hn : n ≠ 0) (hd : d ≠ 0) (hz : z ∉ l.trace) (h : ∀ p ∈ l, Left n z p.real) :
    l.windingAt d z = 0 := by
  rw [windingAt_eq hz hd hn, windingAt, List.sum_eq_zero]
  intro t ht
  obtain ⟨e, he, rfl⟩ := List.mem_map.1 ht
  obtain ⟨h1, h2⟩ := mem_of_mem_edges he
  exact pass_eq_zero (iff_of_true (h _ h1) (h _ h2))

/-- The parity of a sum is that of the number of its odd parts. -/
theorem odd_sum_iff {α : Type} {es : List α} {f : α → ℤ} {p : α → Bool} (h : ∀ e ∈ es, Odd (f e) ↔ p e = true) :
    Odd (es.map f).sum ↔ es.countP p % 2 = 1 := by
  induction es with
  | nil => simp
  | cons e es ih =>
      obtain ⟨he, hes⟩ := List.forall_mem_cons.1 h
      rw [List.map_cons, List.sum_cons, Int.odd_add, ← Int.not_odd_iff_even, ih hes, he, List.countP_cons]
      cases p e <;> simp
      omega

/-- The parity of the winding number is that of the edges that pass behind a ray, too. -/
theorem odd_windingAt_iff (hz : z ∉ l.trace) :
    Odd (l.windingAt d z) ↔ l.edges.countP (fun e => Behind d z e.1.real e.2.real) % 2 = 1 := by
  rw [windingAt, sum_edges_eq (fun p => if Left d z p.real then 1 else 0) fun e _ => (sub_add_cancel _ _).symm]
  refine odd_sum_iff fun e he => ?_
  rw [decide_eq_true_iff]
  exact odd_pass_sub_iff (notMem_trace_iff.1 hz e he)

theorem crosses_iff_behind {e : Point × Point} : Crosses z e ↔ Behind (1, 0) z e.1.real e.2.real := by
  have hleft (p : Point) : Left (1, 0) z p.real ↔ ¬(p.y : ℝ) ≤ z.2 := by
    simp [Left, cross, Point.real]
  rw [Crosses, Behind, hleft, hleft, not_iff_not]
  simp only [cross, Point.real, Prod.fst_sub, Prod.snd_sub]
  ring_nf

/-- Off its edges, the region of a loop is where the loop has odd winding numbers. -/
theorem mem_region_iff (hz : z ∉ l.trace) (hd : d ≠ 0) : z ∈ l.region ↔ Odd (l.windingAt d z) := by
  have hne : ((1, 0) : ℝ × ℝ) ≠ 0 := by simp
  rw [windingAt_eq hz hd hne, odd_windingAt_iff hz, region, Set.mem_ofPred_eq, ← mem_trace_iff, or_iff_right hz]
  simp only [crosses_iff_behind]

theorem left_real_iff {p q : Point} : Left (1, 0) p.real q.real ↔ p.y < q.y := by
  simp [Left, cross, Point.real]

theorem cross_real_sub (p a b : Point) :
    cross (a.real - p.real) (b.real - p.real) = ((b - a).cross (p - a) : Int) := by
  rw [← real_sub, ← real_sub, cross_real, Int.cast_inj]
  simp only [Point.cross, Point.sub_x, Point.sub_y]
  ring

/-- At grid points the winding number is the one that a query counts. -/
theorem winding_eq (l : Loop) (p : Point) : l.winding p = l.windingAt (1, 0) p.real := by
  rw [winding, windingAt, List.sum_eq_foldr]
  congr 1
  refine List.map_congr_left fun e _ => ?_
  simp only [Plane.pass, left_real_iff, cross_real_sub, not_lt, Int.cast_pos, Int.cast_lt_zero]
  grind

section Corner

variable {c u v : Int} {δ : ℝ}

/-- Near a grid point, to its right and less far above it, the signed area that a line spans with a point is known from
that at the grid point and from the direction of the line. -/
private theorem corner_pos (hpos : 0 < δ) (hsmall : δ * (|(u : ℝ)| + |(v : ℝ)| + 1) < 1)
    (h : 0 < c ∨ c = 0 ∧ (v < 0 ∨ v = 0 ∧ 0 < u)) : (0 : ℝ) < c + δ * (u * δ - v) := by
  have hu0 := mul_nonneg hpos.le (abs_nonneg (u : ℝ))
  have hv0 := mul_nonneg hpos.le (abs_nonneg (v : ℝ))
  have hu : -(δ * |(u : ℝ)|) ≤ u * δ := by
    rw [mul_comm (u : ℝ), ← mul_neg]
    exact mul_le_mul_of_nonneg_left (neg_abs_le _) hpos.le
  rcases h with hc | ⟨rfl, hv | ⟨rfl, hu⟩⟩
  · have hc : (1 : ℝ) ≤ c := Int.cast_one_le_of_pos hc
    have hv := le_abs_self (v : ℝ)
    have hle : -(1 + |(v : ℝ)|) ≤ u * δ - v := by linarith
    have := mul_le_mul_of_nonneg_left hle hpos.le
    linarith
  · have hv : (v : ℝ) ≤ -1 := Int.cast_le_neg_one_of_neg hv
    have := mul_pos hpos (show 0 < u * δ - v by linarith)
    rwa [Int.cast_zero, zero_add]
  · have := mul_pos hpos (mul_pos (Int.cast_pos.2 hu) hpos)
    rwa [Int.cast_zero, zero_add, sub_zero]

private theorem corner_neg (hpos : 0 < δ) (hsmall : δ * (|(u : ℝ)| + |(v : ℝ)| + 1) < 1)
    (h : c < 0 ∨ c = 0 ∧ (0 < v ∨ v = 0 ∧ u < 0)) : (c : ℝ) + δ * (u * δ - v) < 0 := by
  have := corner_pos (c := -c) (u := -u) (v := -v) hpos (by simpa using hsmall) (by omega)
  push_cast at this
  linarith

/-- A point near a grid point, to its right and less far above it. -/
def corner (p : Point) (δ : ℝ) : ℝ × ℝ := (p.x + δ, p.y + δ * δ)

variable {a b p q : Point}

theorem cross_corner (p a b : Point) (δ : ℝ) :
    cross (a.real - corner p δ) (b.real - corner p δ) =
      ((b - a).cross (p - a) : Int) + δ * ((b.x - a.x : Int) * δ - (b.y - a.y : Int)) := by
  simp only [cross, corner, Point.real, Point.cross, Prod.fst_sub, Prod.snd_sub, Point.sub_x, Point.sub_y]
  push_cast
  ring

theorem left_corner_iff (hpos : 0 < δ) (hlt : δ < 1) : Left (1, 0) (corner p δ) q.real ↔ p.y < q.y := by
  have hleft : Left (1, 0) (corner p δ) q.real ↔ (p.y : ℝ) + δ * δ < q.y := by
    simp [Left, cross, corner, Point.real]
  rw [hleft]
  constructor
  · intro h
    have := mul_pos hpos hpos
    exact Int.cast_lt.1 (show (p.y : ℝ) < q.y by linarith)
  · intro h
    have hle : ((p.y + 1 : Int) : ℝ) ≤ q.y := Int.cast_le.2 h
    push_cast at hle
    nlinarith

theorem cross_corner_pos_iff (hpos : 0 < δ) (hsmall : δ * (|(u : ℝ)| + |(v : ℝ)| + 1) < 1) (hv : 0 < v) :
    (0 : ℝ) < c + δ * (u * δ - v) ↔ 0 < c := by
  constructor
  · intro h
    by_contra hc
    exact h.not_gt (corner_neg hpos hsmall (by omega))
  · exact fun h => corner_pos hpos hsmall (.inl h)

theorem cross_corner_neg_iff (hpos : 0 < δ) (hsmall : δ * (|(u : ℝ)| + |(v : ℝ)| + 1) < 1) (hv : v < 0) :
    (c : ℝ) + δ * (u * δ - v) < 0 ↔ c < 0 := by
  constructor
  · intro h
    by_contra hc
    exact h.not_gt (corner_pos hpos hsmall (by omega))
  · exact fun h => corner_neg hpos hsmall (.inl h)

/-- Whether `δ` is small against the extent of an edge. -/
def Small (δ : ℝ) (a b : Point) : Prop := δ * (|((b.x - a.x : Int) : ℝ)| + |((b.y - a.y : Int) : ℝ)| + 1) < 1

theorem Small.lt_one (hpos : 0 < δ) (hsmall : Small δ a b) : δ < 1 := by
  unfold Small at hsmall
  have hx := mul_nonneg hpos.le (abs_nonneg ((b.x - a.x : Int) : ℝ))
  have hy := mul_nonneg hpos.le (abs_nonneg ((b.y - a.y : Int) : ℝ))
  linarith

/-- Near a grid point, an edge passes the ray to the right as it does at the grid point. -/
theorem pass_corner (hpos : 0 < δ) (hsmall : Small δ a b) :
    pass (1, 0) (corner p δ) a.real b.real = pass (1, 0) p.real a.real b.real := by
  simp only [Plane.pass, left_corner_iff hpos (hsmall.lt_one hpos), cross_corner, left_real_iff, cross_real_sub,
    Int.cast_pos, Int.cast_lt_zero]
  by_cases hup : ¬p.y < a.y ∧ p.y < b.y
  · simp only [hup, cross_corner_pos_iff hpos hsmall (show 0 < b.y - a.y by omega), not_true_eq_false, false_and,
      and_false, if_false]
  · by_cases hdown : p.y < a.y ∧ ¬p.y < b.y
    · simp only [hdown, cross_corner_neg_iff hpos hsmall (show b.y - a.y < 0 by omega), not_true_eq_false, false_and,
        if_false]
    · rw [if_neg (by tauto), if_neg (by tauto), if_neg (by tauto), if_neg (by tauto)]

theorem cross_eq_zero_of_mem_segment {a b z : ℝ × ℝ} (hz : z ∈ segment ℝ a b) : cross (a - z) (b - z) = 0 := by
  obtain ⟨s, t, -, -, hsum, rfl⟩ := hz
  obtain rfl : s = 1 - t := by linarith
  simp only [cross, Prod.fst_sub, Prod.snd_sub, Prod.fst_add, Prod.snd_add, Prod.smul_fst, Prod.smul_snd, smul_eq_mul]
  ring

theorem corner_notMem_span (hpos : 0 < δ) (hsmall : Small δ a b) : corner p δ ∉ Point.span (a, b) := by
  intro hmem
  have hzero : cross (a.real - corner p δ) (b.real - corner p δ) = 0 := cross_eq_zero_of_mem_segment hmem
  rw [cross_corner] at hzero
  have hab : a = b := by
    by_contra hne
    rw [Point.ext_iff] at hne
    by_cases hside : 0 < (b - a).cross (p - a) ∨
      (b - a).cross (p - a) = 0 ∧ (b.y - a.y < 0 ∨ b.y - a.y = 0 ∧ 0 < b.x - a.x)
    · exact (corner_pos hpos hsmall hside).ne' hzero
    · exact (corner_neg hpos hsmall (by omega)).ne hzero
  rw [hab, Point.span, segment_same, Set.mem_singleton_iff] at hmem
  have hx : (p.x : ℝ) + δ = b.x := congrArg Prod.fst hmem
  have hlt := hsmall.lt_one hpos
  have h1 : p.x < b.x := Int.cast_lt.1 (show (p.x : ℝ) < b.x by linarith)
  have h2 : b.x < p.x + 1 := Int.cast_lt.1 (show (b.x : ℝ) < (p.x + 1 : Int) by push_cast; linarith)
  omega

theorem eventually_small (a b : Point) : ∀ᶠ δ in 𝓝[>] 0, Small δ a b := by
  have hcont : Continuous fun δ : ℝ => δ * (|((b.x - a.x : Int) : ℝ)| + |((b.y - a.y : Int) : ℝ)| + 1) := by fun_prop
  exact (hcont.tendsto' 0 0 (zero_mul _)).eventually_lt_const one_pos |>.filter_mono nhdsWithin_le_nhds

/-- The winding number that a query counts at a grid point is that of the points near it, to its right and less far
above it; they lie off the edges. -/
theorem eventually_corner (l : Loop) (p : Point) :
    ∀ᶠ δ in 𝓝[>] 0, corner p δ ∉ l.trace ∧ l.windingAt (1, 0) (corner p δ) = l.winding p := by
  have hsmall : ∀ᶠ δ in 𝓝[>] (0 : ℝ), ∀ e ∈ l.edges, Small δ e.1 e.2 :=
    (eventually_all_finite (List.finite_toSet l.edges)).2 fun e _ => eventually_small e.1 e.2
  filter_upwards [hsmall, self_mem_nhdsWithin] with δ hsmall hpos
  constructor
  · exact notMem_trace_iff.2 fun e he => corner_notMem_span hpos (hsmall e he)
  · rw [winding_eq, windingAt, windingAt]
    congr 1
    exact List.map_congr_left fun e he => pass_corner hpos (hsmall e he)

theorem tendsto_corner (p : Point) : Tendsto (corner p) (𝓝[>] 0) (𝓝 p.real) := by
  have hcont : Continuous (corner p) := by
    unfold corner
    fun_prop
  exact (hcont.tendsto' 0 p.real (by simp [corner, Point.real])).mono_left nhdsWithin_le_nhds

end Corner

end Loop

end MaskLayout
