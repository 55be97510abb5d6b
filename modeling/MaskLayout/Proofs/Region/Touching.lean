import MaskLayout.Proofs.Region.Boundary
import MaskLayout.Proofs.Region.Solid

/-!
# Loops and outlines against boxes

The tests of exact polygons against a box are exact. A loop that was never united meets a box where it runs along or
winds around points; an outline meets a box where it covers points by the even-odd rule, up to the limit and without
parts that have no area.
-/

namespace MaskLayout

open Plane Filter Topology

namespace OutlineEdge

variable {e : OutlineEdge} {b : Box}

/-- The test of a part of an outline against a box is exact. -/
theorem touches_iff (hb : b.isEmpty = false) (hd : e.dir ≠ 0) (hle : e.start ≤ e.stop) :
    e.touches b = true ↔ (e.span ∩ b.region).Nonempty := by
  have hx (s : Rat) : (place e.dir.real e.offset s).1 = ((e.xAt s : Rat) : ℝ) := by
    simp only [place, xAt, Outline.dot_real]
    push_cast
    rfl
  have hy (s : Rat) : (place e.dir.real e.offset s).2 = ((e.yAt s : Rat) : ℝ) := by
    simp only [place, yAt, Outline.dot_real]
    push_cast
    rfl
  have hline : place e.dir.real e.offset e.stop =
      place e.dir.real e.offset e.start + (((e.stop : ℝ) - e.start) / dot e.dir.real e.dir.real) • e.dir.real := by
    simp only [place]
    ext
    · simp only [Prod.fst_add, Prod.smul_fst, smul_eq_mul]
      ring
    · simp only [Prod.snd_add, Prod.smul_snd, smul_eq_mul]
      ring
  have hcross (c : Point) : cross e.dir.real (c.real - place e.dir.real e.offset e.start) =
      (e.dir.cross c - e.offset : Int) := by
    rw [(isLinearMap_cross _).map_sub, cross_place (Outline.dir_real_ne_zero hd), cross_real, Int.cast_sub]
  have hcast (r : Rat) (k : Int) : ((r : ℝ) ≤ k ↔ r ≤ k) ∧ ((k : ℝ) ≤ r ↔ k ≤ r) := by
    rw [← Rat.cast_intCast (α := ℝ), Rat.cast_le, Rat.cast_le]
    exact ⟨Iff.rfl, Iff.rfl⟩
  rw [span, ← Set.uIcc_of_le (Rat.cast_le.2 hle), ← segment_place, Box.segment_meets_iff hb hline]
  simp only [hcross, hx, hy, (hcast _ _).1, (hcast _ _).2, Int.cast_nonneg_iff, Int.cast_nonpos, sub_nonneg, sub_nonpos]
  simp only [touches, Bool.and_eq_true, decide_eq_true_eq, Bool.not_eq_true', List.all_eq_false, not_lt, and_assoc]

end OutlineEdge

namespace Loop

variable {b : Box}

/-- The test of a single loop against a box is exact for what the loop winds around. -/
theorem touches_iff (hb : b.isEmpty = false) (l : Loop) : l.touches b = true ↔ (b.region ∩ l.solid).Nonempty := by
  have hlo := Box.lo_mem_region hb
  rw [touches, Bool.or_eq_true, List.any_eq_true, bne_iff_ne, winding_eq]
  constructor
  · rintro (⟨e, he, hmeet⟩ | hwinds)
    · obtain ⟨z, hz, hmem⟩ := (edgeTouches_iff hb e).1 hmeet
      exact ⟨z, hmem, .inl (span_subset_trace he hz)⟩
    · exact ⟨b.lo.real, hlo, .inr (by exact_mod_cast hwinds)⟩
  · rintro ⟨z, hz, hsolid⟩
    by_cases hmeet : ∃ e ∈ l.edges, edgeTouches b e.1 e.2 = true
    · exact .inl hmeet
    · have hfree : Disjoint b.region l.trace := by
        rw [Set.disjoint_left]
        intro w hw htrace
        obtain ⟨e, he, hmem⟩ := mem_trace_iff.1 htrace
        exact hmeet ⟨e, he, (edgeTouches_iff hb e).2 ⟨w, hmem, hw⟩⟩
      right
      rw [windingAt_eq_of_disjoint (hfree.mono_left (b.convex_region.segment_subset hz hlo)) (by simp)]
      exact hsolid.resolve_left (Set.disjoint_left.1 hfree hz)

end Loop

namespace Outline

variable {ls : List Loop} {f : OutlineEdge} {b : Box} {p : Point}

theorem isClosed_span (f : OutlineEdge) : IsClosed f.span :=
  (isCompact_Icc.image (continuous_place f.dir.real f.offset)).isClosed

theorem dir_ne_zero_and_start_le (hf : f ∈ outline ls) : f.dir ≠ 0 ∧ f.start ≤ f.stop := by
  obtain ⟨line, ⟨l, -, e, -, hline⟩, hf⟩ := mem_outline_iff.1 hf
  exact (onLine_spec (lineOf?_spec hline).1 ls).1 f hf

/-- A query asks whether some winding number at a grid point is odd. -/
theorem coversAt_iff : coversAt ls p = true ↔ ∃ l ∈ ls, Odd (l.winding p) := by
  rw [coversAt, List.any_eq_true]
  refine exists_congr fun l => and_congr_right fun _ => ?_
  rw [beq_iff_eq, Loop.winding, ← List.sum_eq_foldr]
  refine (Loop.odd_sum_iff ?_).symm
  rintro ⟨a, c⟩ -
  simp only [decide_eq_true_eq]
  split
  · rename_i hup
    exact iff_of_true odd_one (.inl hup)
  · rename_i hup
    split
    · rename_i hdown
      exact iff_of_true (by decide) (.inr hdown)
    · rename_i hdown
      exact iff_of_false (by decide) (not_or.2 ⟨hup, hdown⟩)

/-- Near a grid point, to its right and less far above it, loops cover what a query finds at the grid point. -/
theorem eventually_corner_mem (ls : List Loop) (p : Point) :
    ∀ᶠ δ in 𝓝[>] 0, (∀ l ∈ ls, Loop.corner p δ ∉ l.trace) ∧
      (Loop.corner p δ ∈ inside ls ↔ coversAt ls p = true) := by
  have hall : ∀ᶠ δ in 𝓝[>] (0 : ℝ), ∀ l ∈ ls, Loop.corner p δ ∉ l.trace ∧
      l.windingAt (1, 0) (Loop.corner p δ) = l.winding p :=
    (eventually_all_finite (List.finite_toSet ls)).2 fun l _ => Loop.eventually_corner l p
  filter_upwards [hall] with δ hδ
  have htrace (l : Loop) (hl : l ∈ ls) := (hδ l hl).1
  refine ⟨htrace, ?_⟩
  rw [inside, Set.mem_ofPred_eq, and_iff_right htrace, coversAt_iff]
  refine exists_congr fun l => and_congr_right fun hl => ?_
  rw [Loop.mem_region_iff (d := (1, 0)) (htrace l hl) (by simp), (hδ l hl).2]

/-- The test of a merged outline against a box is exact for the limit of what the loops cover. -/
theorem touches_iff (hb : b.isEmpty = false) (ls : List Loop) :
    ((outline ls).any (·.touches b) || coversAt ls b.lo) = true ↔ (b.region ∩ closure (inside ls)).Nonempty := by
  rw [Bool.or_eq_true, List.any_eq_true]
  constructor
  · rintro (⟨f, hf, hmeet⟩ | hcovers)
    · obtain ⟨hd, hle⟩ := dir_ne_zero_and_start_le hf
      obtain ⟨z, hz, hmem⟩ := (OutlineEdge.touches_iff hb hd hle).1 hmeet
      exact ⟨z, hmem, span_subset_closure hf hz⟩
    · refine ⟨b.lo.real, Box.lo_mem_region hb, mem_closure_of_tendsto (Loop.tendsto_corner b.lo) ?_⟩
      filter_upwards [eventually_corner_mem ls b.lo] with δ hδ
      exact hδ.2.2 hcovers
  · rintro ⟨z, hz, hlimit⟩
    by_cases hmeet : ∃ f ∈ outline ls, f.touches b = true
    · exact .inl hmeet
    · right
      have hfree : Disjoint b.region (⋃ f ∈ outline ls, f.span) := by
        rw [Set.disjoint_left]
        intro w hw hmem
        obtain ⟨f, hf, hmem⟩ := Set.mem_iUnion₂.1 hmem
        obtain ⟨hd, hle⟩ := dir_ne_zero_and_start_le hf
        exact hmeet ⟨f, hf, (OutlineEdge.touches_iff hb hd hle).2 ⟨w, hmem, hw⟩⟩
      have hclosed : IsClosed (⋃ f ∈ outline ls, f.span) :=
        (List.finite_toSet (outline ls)).isClosed_biUnion fun f _ => isClosed_span f
      obtain ⟨r, hr, hfree⟩ := hfree.exists_thickenings b.isCompact_region hclosed
      have hsub := Metric.self_subset_thickening hr b.region
      have hopen : IsOpen (Metric.thickening r b.region) := Metric.isOpen_thickening
      obtain ⟨w, hw, hin⟩ := mem_closure_iff.1 hlimit _ hopen (hsub hz)
      have hnear := (Loop.tendsto_corner b.lo).eventually (hopen.mem_nhds (hsub (Box.lo_mem_region hb)))
      obtain ⟨δ, hδ, hoff, hcovers⟩ := (hnear.and (eventually_corner_mem ls b.lo)).exists
      refine hcovers.1 (mem_inside_of_convex (Convex.thickening b.convex_region r) hopen ?_ hw hin hδ hoff)
      intro f hf
      refine hfree.mono_right ?_
      exact (Set.subset_biUnion_of_mem (u := OutlineEdge.span) hf).trans (Metric.self_subset_thickening hr _)

end Outline

end MaskLayout
