import MaskLayout.Proofs.Region.Area
import MaskLayout.Proofs.Region.Boundary
import Mathlib.Topology.Baire.CompleteMetrizable
import Mathlib.Topology.Baire.Lemmas

/-!
# What loops fill

What a loop fills by the even-odd rule, as a closed set: the limits of the points off its edges that it covers, so that
parts without area count for nothing. A union of loops is the union of these sets, since the edges of all loops leave out
no more than a dense set. A rectilinear loop fills the unit squares that it covers.
-/

namespace MaskLayout

open Plane Filter Topology

namespace Point

/-- Across the line of a segment one leaves it at once. -/
theorem exists_off_span {e : Point × Point} {z : ℝ × ℝ} (hz : z ∈ span e) :
    ∃ n : ℝ × ℝ, ∀ t : ℝ, t ≠ 0 → z + t • n ∉ span e := by
  by_cases hd : e.2.real - e.1.real = 0
  · have hpoint : span e = {e.1.real} := by rw [span, sub_eq_zero.1 hd, segment_same]
    rw [hpoint, Set.mem_singleton_iff] at hz
    refine ⟨(1, 0), fun t ht hmem => ht ?_⟩
    rw [hpoint, Set.mem_singleton_iff, hz, add_eq_left] at hmem
    simpa using congrArg Prod.fst hmem
  · generalize hdir : e.2.real - e.1.real = d at hd
    have hcross (w : ℝ × ℝ) (hw : w ∈ span e) : Plane.cross d (w - e.1.real) = 0 := by
      rw [span, segment_eq_image'] at hw
      obtain ⟨s, -, rfl⟩ := hw
      rw [hdir, add_sub_cancel_left]
      simp only [Plane.cross, Prod.smul_fst, Prod.smul_snd, smul_eq_mul]
      ring
    refine ⟨(-d.2, d.1), fun t ht hmem => ht ?_⟩
    have hsame : Plane.cross d (z - e.1.real) = 0 := hcross z hz
    have hmoved : t * (d.1 ^ 2 + d.2 ^ 2) = 0 := by
      have hzero := hcross _ hmem
      simp only [Plane.cross, Prod.fst_sub, Prod.snd_sub, Prod.fst_add, Prod.snd_add, Prod.smul_fst, Prod.smul_snd,
        smul_eq_mul] at hzero hsame
      linarith
    exact (mul_eq_zero.1 hmoved).resolve_right (sq_add_sq_pos hd).ne'

theorem dense_compl_span (e : Point × Point) : Dense (span e)ᶜ := by
  intro z
  by_cases hz : z ∈ span e
  · obtain ⟨n, hn⟩ := exists_off_span hz
    have hcont : Continuous fun t : ℝ => z + t • n := by fun_prop
    have hlimit : Tendsto (fun t : ℝ => z + t • n) (𝓝[≠] 0) (𝓝 z) := by
      have := hcont.tendsto 0
      rw [zero_smul, add_zero] at this
      exact this.mono_left nhdsWithin_le_nhds
    exact mem_closure_of_tendsto hlimit (eventually_mem_nhdsWithin.mono hn)
  · exact subset_closure hz

end Point

namespace Loop

variable {l : Loop} {z : ℝ × ℝ} {c : Point}

/-- What a loop fills by the even-odd rule, without parts that have no area. -/
def filled (l : Loop) : Set (ℝ × ℝ) := closure (l.region \ l.trace)

theorem dense_compl_trace (l : Loop) : Dense l.traceᶜ := by
  rw [trace, Set.compl_iUnion₂]
  exact dense_biInter_of_isOpen (fun e _ => (Point.isCompact_span e).isClosed.isOpen_compl)
    (List.finite_toSet l.edges).countable fun e _ => Point.dense_compl_span e

end Loop

namespace Outline

variable {ls : List Loop}

theorem inside_singleton (l : Loop) : inside [l] = l.region \ l.trace := by
  ext z
  simp [inside, and_comm]

/-- A union of loops fills what the loops fill. -/
theorem closure_inside (ls : List Loop) : closure (inside ls) = ⋃ l ∈ ls, l.filled := by
  have hdense : Dense (⋂ l ∈ ls, l.traceᶜ) :=
    dense_biInter_of_isOpen (fun l _ => l.isClosed_trace.isOpen_compl) (List.finite_toSet ls).countable
      fun l _ => l.dense_compl_trace
  refine Set.Subset.antisymm ?_ (Set.iUnion₂_subset fun l hl => ?_)
  · rw [show (⋃ l ∈ ls, l.filled) = closure (⋃ l ∈ {l | l ∈ ls}, l.region \ l.trace) from
      ((List.finite_toSet ls).closure_biUnion _).symm]
    refine closure_mono ?_
    rintro z ⟨htrace, l, hl, hz⟩
    exact Set.mem_biUnion hl ⟨hz, htrace l hl⟩
  · have hopen : IsOpen (l.region \ l.trace) := inside_singleton l ▸ isOpen_inside [l]
    refine closure_minimal ((hdense.open_subset_closure_inter hopen).trans (closure_mono ?_)) isClosed_closure
    rintro z ⟨hz, htrace⟩
    exact ⟨fun l' hl' => Set.mem_iInter₂.1 htrace l' hl', l, hl, hz.1⟩

end Outline

namespace Plane

/-- The closed unit square whose lower left corner is a grid point. -/
def unitSquare (c : Point) : Set (ℝ × ℝ) := Set.Icc (c.x : ℝ) (c.x + 1) ×ˢ Set.Icc (c.y : ℝ) (c.y + 1)

/-- The points of the plane in some unit squares of the grid. -/
def squares (S : Set Point) : Set (ℝ × ℝ) := ⋃ c ∈ S, unitSquare c

theorem isClosed_squares {S : Set Point} (h : S.Finite) : IsClosed (squares S) :=
  h.isClosed_biUnion fun _ _ => isClosed_Icc.prod isClosed_Icc

theorem squares_union (S T : Set Point) : squares (S ∪ T) = squares S ∪ squares T := Set.biUnion_union S T unitSquare

/-- The center of a unit square tells it from all others. -/
theorem center_mem_squares_iff {S : Set Point} {c : Point} : Loop.center c ∈ squares S ↔ c ∈ S := by
  simp only [squares, Set.mem_iUnion, exists_prop]
  constructor
  · rintro ⟨c', hc', ⟨hx, hx'⟩, hy, hy'⟩
    simp only [Loop.center] at hx hx' hy hy'
    have hsame {a b : Int} (h : (a : ℝ) ≤ b + 1 / 2) (h' : (b + 1 / 2 : ℝ) ≤ a + 1) : a = b := by
      have h1 : (a : ℝ) < (b + 1 : Int) := by
        push_cast
        linarith
      have h2 : (b : ℝ) < (a + 1 : Int) := by
        push_cast
        linarith
      have := Int.cast_lt.1 h1
      have := Int.cast_lt.1 h2
      omega
    exact Point.ext (hsame hx hx') (hsame hy hy') ▸ hc'
  · intro hc
    refine ⟨c, hc, ⟨?_, ?_⟩, ?_, ?_⟩ <;> simp only [Loop.center] <;> linarith

theorem squares_injective : Function.Injective squares := by
  intro S T h
  ext c
  rw [← center_mem_squares_iff, h, center_mem_squares_iff]

end Plane

namespace Loop

variable {l : Loop} {z : ℝ × ℝ} {c : Point}

/-- Off its edges a rectilinear loop covers a point if it covers the unit square around the point. -/
theorem Rectilinear.mem_region_iff_covers (h : l.Rectilinear) (hz : z ∉ l.trace) :
    z ∈ l.region ↔ l.Covers ⟨⌊z.1⌋, ⌊z.2⌋⟩ := by
  rw [region, Set.mem_ofPred_eq, ← mem_trace_iff, or_iff_right hz, Covers]
  have hcount : l.edges.countP (fun e => decide (Crosses z e)) = l.edges.countP (crossesLeft ⟨⌊z.1⌋, ⌊z.2⌋⟩) := by
    refine List.countP_congr fun e he => ?_
    rw [decide_eq_true_iff, ← crosses_center_iff]
    have hoff := notMem_trace_iff.1 hz e he
    obtain ⟨⟨x, y⟩, ⟨x', y'⟩⟩ := e
    obtain rfl | rfl : x = x' ∨ y = y' := h _ he
    · rw [crosses_upright_iff, crosses_upright_iff]
      simp only [center, intCast_le_add_half, Int.le_floor]
      refine and_congr_right fun hspan => ?_
      -- The point does not lie on the edge, so it is clear on which side of the edge it lies.
      have hne : (x : ℝ) ≠ z.1 := by
        intro heq
        refine hoff ?_
        rw [Point.span_upright, Set.mem_prod, Set.mem_singleton_iff, Set.mem_uIcc]
        refine ⟨heq.symm, ?_⟩
        by_contra hout
        grind
      have hle : (x : ℝ) < ⌊z.1⌋ + 1 / 2 ↔ x ≤ ⌊z.1⌋ := by
        refine ⟨fun hlt => (intCast_le_add_half _ _).1 hlt.le, fun hle => ?_⟩
        have hcast : (x : ℝ) ≤ ⌊z.1⌋ := Int.cast_le.2 hle
        linarith
      rw [hle, Int.le_floor, hne.le_iff_lt]
    · exact iff_of_false not_crosses_level not_crosses_level
  rw [hcount]

/-- The open unit square whose lower left corner is a grid point does not meet the edges of a rectilinear loop. -/
theorem Rectilinear.notMem_trace (h : l.Rectilinear)
    (hz : z ∈ Set.Ioo (c.x : ℝ) (c.x + 1) ×ˢ Set.Ioo (c.y : ℝ) (c.y + 1)) : z ∉ l.trace := by
  have hoff {k : Int} {s : ℝ} {a : Int} (hs : s ∈ Set.Ioo (k : ℝ) (k + 1)) : s ≠ a := by
    rintro rfl
    have h1 := Int.cast_lt.1 hs.1
    have h2 : a < k + 1 := by exact_mod_cast hs.2
    omega
  rw [notMem_trace_iff]
  intro e he hmem
  obtain ⟨⟨x, y⟩, ⟨x', y'⟩⟩ := e
  obtain rfl | rfl : x = x' ∨ y = y' := h _ he
  · rw [Point.span_upright] at hmem
    exact hoff hz.1 hmem.1
  · rw [Point.span_level] at hmem
    exact hoff hz.2 hmem.2

theorem Rectilinear.finite_covers (h : l.Rectilinear) : {c | l.Covers c}.Finite := by
  obtain ⟨squares, hmem, -⟩ := Outline.exists_squares (List.forall_mem_singleton.2 h)
  refine squares.finite_toSet.subset fun c hc => ?_
  exact Finset.mem_coe.2 ((hmem c).2 ⟨l, List.mem_singleton_self l, hc⟩)

/-- A rectilinear loop fills the unit squares that it covers. -/
theorem Rectilinear.filled_eq_squares (h : l.Rectilinear) : l.filled = squares {c | l.Covers c} := by
  refine Set.Subset.antisymm (closure_minimal ?_ (isClosed_squares h.finite_covers)) (Set.iUnion₂_subset fun c hc => ?_)
  · rintro z ⟨hz, htrace⟩
    refine Set.mem_biUnion ((h.mem_region_iff_covers htrace).1 hz) ⟨⟨Int.floor_le _, ?_⟩, Int.floor_le _, ?_⟩
    · exact (Int.lt_floor_add_one z.1).le
    · exact (Int.lt_floor_add_one z.2).le
  · have hopen : Set.Ioo (c.x : ℝ) (c.x + 1) ×ˢ Set.Ioo (c.y : ℝ) (c.y + 1) ⊆ l.region \ l.trace := by
      intro z hz
      have htrace := h.notMem_trace hz
      have hx : ⌊z.1⌋ = c.x := Int.floor_eq_iff.2 ⟨hz.1.1.le, hz.1.2⟩
      have hy : ⌊z.2⌋ = c.y := Int.floor_eq_iff.2 ⟨hz.2.1.le, hz.2.2⟩
      refine ⟨(h.mem_region_iff_covers htrace).2 ?_, htrace⟩
      rw [hx, hy]
      exact hc
    refine subset_trans ?_ (closure_mono hopen)
    rw [closure_prod_eq, closure_Ioo (by simp), closure_Ioo (by simp)]
    exact subset_rfl

end Loop

theorem Box.rectilinear_corners (b : Box) : Loop.Rectilinear b.corners := by
  simp [Loop.Rectilinear, Box.corners, Loop.edges]

namespace Rect

theorem rectilinear_loop (r : Rect) : Loop.Rectilinear r.loop := r.toBox.rectilinear_corners

/-- The loop of the corners of a rectangle covers what the rectangle covers. -/
theorem covers_loop (r : Rect) (c : Point) : Loop.Covers r.loop c ↔ r.Covers c := by
  obtain ⟨⟨x0, y0⟩, ⟨x1, y1⟩, hx, hy⟩ := r
  rw [(rectilinear_loop _).covers_iff]
  simp only at hx hy
  -- The loop passes the row of the square along its two upright edges, upward on the right and downward on the left.
  have hup : (decide (y0 ≤ c.y) != decide (y1 ≤ c.y)) = decide (y0 ≤ c.y ∧ c.y < y1) := by
    rw [Bool.eq_iff_iff, bne_iff_ne, ne_eq, decide_eq_decide, decide_eq_true_iff]
    omega
  have hdown : (decide (y1 ≤ c.y) != decide (y0 ≤ c.y)) = decide (y0 ≤ c.y ∧ c.y < y1) := bne_comm.trans hup
  have hturns : Loop.turns (Loop.leftOf c) (Loop.below c) (loop ⟨⟨x0, y0⟩, ⟨x1, y1⟩, hx, hy⟩) =
      (if x0 ≤ c.x ∧ y0 ≤ c.y ∧ c.y < y1 then 1 else 0) + (if x1 ≤ c.x ∧ y0 ≤ c.y ∧ c.y < y1 then 1 else 0) := by
    simp [Loop.turns, loop, toBox, Box.corners, Loop.edges, List.countP_cons, Loop.leftOf, Loop.below, hup, hdown]
  rw [hturns]
  change _ ↔ x0 ≤ c.x ∧ c.x < x1 ∧ y0 ≤ c.y ∧ c.y < y1
  split <;> split <;> omega

/-- A rectangle fills the unit squares that it covers. -/
theorem filled_loop (r : Rect) : Loop.filled r.loop = Plane.squares {c | r.Covers c} := by
  rw [r.rectilinear_loop.filled_eq_squares]
  simp only [covers_loop]

end Rect

end MaskLayout
