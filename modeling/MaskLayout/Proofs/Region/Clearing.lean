import MaskLayout.Proofs.Region.Sides

/-!
# Next to an edge

Loops around a gap of a line. Between two cuts, a part of the line has a convex neighbourhood that no edge meets unless
it runs along the line; each half of the neighbourhood is covered as the sides of the gap say. So the points inside
loops and the points outside them are known next to every point of an edge that is neither a cut nor a vertex.
-/

namespace MaskLayout

namespace Outline

open Plane Filter Topology

variable {line : Line} {ls : List Loop} {l : Loop} {m : Rat} {s : ℝ} {z z' : ℝ × ℝ} {U : Set (ℝ × ℝ)}

/-- An edge along a line has all its points on the line. -/
theorem cross_of_mem_span {e : Point × Point} (hon : (relative line e).onLine = true) (hz : z ∈ Point.span e) :
    cross line.dir.real z = line.offset := by
  obtain ⟨h1, h2⟩ := onLine_iff.1 hon
  obtain ⟨u, v, -, -, huv, rfl⟩ := hz
  rw [(isLinearMap_cross _).map_add, (isLinearMap_cross _).map_smul, (isLinearMap_cross _).map_smul, h1, h2, smul_eq_mul,
    smul_eq_mul, ← add_mul, huv, one_mul]

/-- A convex set of points that is met by no edges but those along a line. -/
structure Clear (line : Line) (ls : List Loop) (U : Set (ℝ × ℝ)) : Prop where
  convex : Convex ℝ U
  disjoint : ∀ l ∈ ls, ∀ e ∈ l.edges, (relative line e).onLine = false → Disjoint U (Point.span e)

/-- In a gap of a line, no edges are met but those along the line. -/
theorem disjoint_gap (hd : line.dir ≠ 0) {gap : Rat × Rat} (hgap : gap ∈ (cuts line ls).zip ((cuts line ls).drop 1))
    {e : Point × Point} (hl : l ∈ ls) (he : e ∈ l.edges) (hoff : (relative line e).onLine = false) :
    Disjoint (place line.dir.real line.offset '' Set.Ioo (gap.1 : ℝ) gap.2) (Point.span e) := by
  rw [Set.disjoint_left]
  rintro _ ⟨u, hu, rfl⟩ hmem
  obtain ⟨q, hq, rfl⟩ := exists_cut hd hl he hoff hmem
  rcases (Loop.of_mem_gaps (cuts_ascending line ls) hgap).2 q hq with hle | hge
  · exact hu.1.not_ge (Rat.cast_le.2 hle)
  · exact hu.2.not_ge (Rat.cast_le.2 hge)

/-- Two points of a line in one gap have a clear neighbourhood in common. -/
theorem exists_clear (hd : line.dir ≠ 0) {gap : Rat × Rat}
    (hgap : gap ∈ (cuts line ls).zip ((cuts line ls).drop 1)) {t : ℝ} (hs : s ∈ Set.Ioo (gap.1 : ℝ) gap.2)
    (ht : t ∈ Set.Ioo (gap.1 : ℝ) gap.2) :
    ∃ U, IsOpen U ∧ Clear line ls U ∧ place line.dir.real line.offset s ∈ U ∧
      place line.dir.real line.offset t ∈ U := by
  let part := segment ℝ (place line.dir.real line.offset s) (place line.dir.real line.offset t)
  let across := {e | (∃ l ∈ ls, e ∈ l.edges) ∧ (relative line e).onLine = false}
  have hfinite : across.Finite := by
    refine (List.finite_toSet (ls.flatMap Loop.edges)).subset fun e he => ?_
    exact List.mem_flatMap.2 he.1
  have hclosed : IsClosed (⋃ e ∈ across, Point.span e) :=
    hfinite.isClosed_biUnion fun e _ => (Point.isCompact_span e).isClosed
  have hcompact : IsCompact part := by
    rw [show part = _ from segment_eq_image' ℝ _ _]
    exact isCompact_Icc.image (by fun_prop)
  have hdisjoint : Disjoint part (⋃ e ∈ across, Point.span e) := by
    simp only [Set.disjoint_iUnion_right]
    rintro e ⟨⟨l, hl, he⟩, hoff⟩
    rw [show part = _ from segment_place _ _ _ _]
    exact (disjoint_gap hd hgap hl he hoff).mono_left (Set.image_mono (Set.ordConnected_Ioo.uIcc_subset hs ht))
  obtain ⟨r, hr, hfree⟩ := hdisjoint.exists_thickenings hcompact hclosed
  have hsub := Metric.self_subset_thickening hr part
  refine ⟨Metric.thickening r part, Metric.isOpen_thickening, ⟨Convex.thickening (convex_segment _ _) r, ?_⟩,
    hsub (left_mem_segment ℝ _ _), hsub (right_mem_segment ℝ _ _)⟩
  intro l hl e he hoff
  have hmem : e ∈ across := ⟨⟨l, hl, he⟩, hoff⟩
  exact hfree.mono_right ((Set.subset_biUnion_of_mem hmem).trans (Metric.self_subset_thickening hr _))

/-- Near a point of a line, the points across the line from it are near it, too. -/
theorem eventually_place (hopen : IsOpen U) (hs : place line.dir.real line.offset s ∈ U) :
    ∀ᶠ h in 𝓝 (line.offset : ℝ), place line.dir.real h s ∈ U :=
  (continuous_place_across _ _).continuousAt.eventually (hopen.mem_nhds hs)

namespace Clear

variable (hU : Clear line ls U) (hl : l ∈ ls)

include hU hl

theorem notMem_trace (hz : z ∈ U) (hoff : cross line.dir.real z ≠ line.offset) : z ∉ l.trace := by
  rw [Loop.notMem_trace_iff]
  intro e he hmem
  by_cases hon : (relative line e).onLine = true
  · exact hoff (cross_of_mem_span hon hmem)
  · exact Set.disjoint_left.1 (hU.disjoint l hl e he (Bool.eq_false_iff.2 hon)) hz hmem

theorem windingAt_eq {H : Set (ℝ × ℝ)} (hH : Convex ℝ H) (hoff : ∀ w ∈ H, cross line.dir.real w ≠ line.offset)
    (hz : z ∈ U ∩ H) (hz' : z' ∈ U ∩ H) : l.windingAt (1, 0) z' = l.windingAt (1, 0) z := by
  apply Loop.windingAt_eq_of_disjoint _ (by simp)
  rw [Set.disjoint_left]
  intro w hw
  have hmem := (hU.convex.inter hH).segment_subset hz hz' hw
  exact hU.notMem_trace hl hmem.1 (hoff w hmem.2)

variable (hopen : IsOpen U) (hd : line.dir ≠ 0) (hm : place line.dir.real line.offset m ∈ U)

include hopen hd hm

/-- The left half of a clear neighbourhood is covered as the left side of the line. -/
theorem odd_iff_left (hz : z ∈ U) (hleft : line.offset < cross line.dir.real z) :
    Odd (l.windingAt (1, 0) z) ↔ (sides (l.edges.map (relative line)) m).1 = true := by
  obtain ⟨h, hmem, hpos⟩ := ((eventually_place hopen hm).filter_mono nhdsWithin_le_nhds |>.and
    (self_mem_nhdsWithin : ∀ᶠ h in 𝓝[>] (line.offset : ℝ), _)).exists
  have hd' := dir_real_ne_zero hd
  have hplace : (line.offset : ℝ) < cross line.dir.real (place line.dir.real h m) := by rwa [cross_place hd']
  rw [hU.windingAt_eq hl (convex_halfSpace_gt (isLinearMap_cross line.dir.real) line.offset) (fun w hw => ne_of_gt hw)
    ⟨hmem, hplace⟩ ⟨hz, hleft⟩]
  refine odd_iff_sides_left hd (dot_place hd' h m) (hU.notMem_trace hl hmem hplace.ne') ?_ hplace
  exact fun e he hoff => (hU.disjoint l hl e he hoff).mono_left (hU.convex.segment_subset hm hmem)

/-- The right half of a clear neighbourhood is covered as the right side of the line. -/
theorem odd_iff_right (hz : z ∈ U) (hright : cross line.dir.real z < line.offset) :
    Odd (l.windingAt (1, 0) z) ↔ (sides (l.edges.map (relative line)) m).2 = true := by
  obtain ⟨h, hmem, hneg⟩ := ((eventually_place hopen hm).filter_mono nhdsWithin_le_nhds |>.and
    (self_mem_nhdsWithin : ∀ᶠ h in 𝓝[<] (line.offset : ℝ), _)).exists
  have hd' := dir_real_ne_zero hd
  have hplace : cross line.dir.real (place line.dir.real h m) < line.offset := by rwa [cross_place hd']
  rw [hU.windingAt_eq hl (convex_halfSpace_lt (isLinearMap_cross line.dir.real) line.offset) (fun w hw => ne_of_lt hw)
    ⟨hmem, hplace⟩ ⟨hz, hright⟩]
  refine odd_iff_sides_right hd (dot_place hd' h m) (hU.notMem_trace hl hmem hplace.ne) ?_ hplace
  exact fun e he hoff => (hU.disjoint l hl e he hoff).mono_left (hU.convex.segment_subset hm hmem)

end Clear

end Outline

end MaskLayout
