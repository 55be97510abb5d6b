import MaskLayout.Proofs.Region.Clearing
import Mathlib.Topology.Algebra.Module.Cardinality

/-!
# Outlines as boundaries

The outline of even-odd loops as the boundary of what they cover. Off all edges a point lies inside some loop or
outside of all of them. Every part of the outline is the limit of points inside; and a convex open set that the outline
does not enter is inside or outside as a whole, since a path that avoids the cuts changes sides only across the outline.
-/

namespace MaskLayout

/-- The points of the plane on a part of an outline. -/
def OutlineEdge.span (e : OutlineEdge) : Set (ℝ × ℝ) :=
  Plane.place e.dir.real e.offset '' Set.Icc (e.start : ℝ) e.stop

namespace Outline

open Plane Filter Topology

variable {line : Line} {ls : List Loop} {l : Loop} {m : Rat} {s : ℝ} {z w : ℝ × ℝ} {U : Set (ℝ × ℝ)}

section Inside

/-- The points off all edges that some loop covers. -/
def inside (ls : List Loop) : Set (ℝ × ℝ) := {z | (∀ l ∈ ls, z ∉ l.trace) ∧ ∃ l ∈ ls, z ∈ l.region}

/-- The points off all edges that no loop covers. -/
def outside (ls : List Loop) : Set (ℝ × ℝ) := {z | (∀ l ∈ ls, z ∉ l.trace) ∧ ∀ l ∈ ls, z ∉ l.region}

theorem disjoint_inside_outside (ls : List Loop) : Disjoint (inside ls) (outside ls) := by
  rw [Set.disjoint_left]
  rintro z ⟨-, l, hl, hz⟩ ⟨-, hnone⟩
  exact hnone l hl hz

theorem mem_inside_or_outside (hz : ∀ l ∈ ls, z ∉ l.trace) : z ∈ inside ls ∨ z ∈ outside ls := by
  by_cases h : ∃ l ∈ ls, z ∈ l.region
  · exact .inl ⟨hz, h⟩
  · exact .inr ⟨hz, fun l hl hmem => h ⟨l, hl, hmem⟩⟩

/-- Near a point off the edges a loop covers all points or none of them. -/
theorem eventually_mem_region_iff (hz : z ∉ l.trace) :
    ∀ᶠ w in 𝓝 z, w ∉ l.trace ∧ (w ∈ l.region ↔ z ∈ l.region) := by
  have hdir : ((1, 0) : ℝ × ℝ) ≠ 0 := by simp
  filter_upwards [Loop.eventually_windingAt_eq hz hdir] with w hw
  exact ⟨hw.1, by rw [Loop.mem_region_iff hw.1 hdir, Loop.mem_region_iff hz hdir, hw.2]⟩

theorem eventually_mem_regions_iff (hz : ∀ l ∈ ls, z ∉ l.trace) :
    ∀ᶠ w in 𝓝 z, ∀ l ∈ ls, w ∉ l.trace ∧ (w ∈ l.region ↔ z ∈ l.region) :=
  (eventually_all_finite (List.finite_toSet ls)).2 fun l hl => eventually_mem_region_iff (hz l hl)

theorem isOpen_inside (ls : List Loop) : IsOpen (inside ls) := by
  rw [isOpen_iff_mem_nhds]
  rintro z ⟨hz, l, hl, hmem⟩
  filter_upwards [eventually_mem_regions_iff hz] with w hw
  exact ⟨fun l hl => (hw l hl).1, l, hl, (hw l hl).2.2 hmem⟩

theorem isOpen_outside (ls : List Loop) : IsOpen (outside ls) := by
  rw [isOpen_iff_mem_nhds]
  rintro z ⟨hz, hnone⟩
  filter_upwards [eventually_mem_regions_iff hz] with w hw
  exact ⟨fun l hl => (hw l hl).1, fun l hl hmem => hnone l hl ((hw l hl).2.1 hmem)⟩

theorem disjoint_inside_closure_outside (ls : List Loop) : Disjoint (inside ls) (closure (outside ls)) :=
  (disjoint_inside_outside ls).closure_right (isOpen_inside ls)

theorem disjoint_closure_inside_outside (ls : List Loop) : Disjoint (closure (inside ls)) (outside ls) :=
  (disjoint_inside_outside ls).closure_left (isOpen_outside ls)

end Inside

section Sides

/-- Whether the left side and the right side of a position of a line are covered by some loop. -/
def covered (line : Line) (ls : List Loop) (m : Rat) : Bool × Bool :=
  let around := (relatives line (ls.map Loop.edges)).map fun rs => sides rs m
  (around.any (·.1), around.any (·.2))

theorem any_sides_iff (line : Line) (ls : List Loop) (m : Rat) (side : Bool × Bool → Bool) :
    ((relatives line (ls.map Loop.edges)).map fun rs => sides rs m).any side = true ↔
      ∃ l ∈ ls, side (sides (l.edges.map (relative line)) m) = true := by
  simp only [relatives, List.map_map, List.any_map, List.any_eq_true, Function.comp_apply]

theorem inside_or_outside {c : Bool} (htrace : ∀ l ∈ ls, z ∉ l.trace) (hc : c = true ↔ ∃ l ∈ ls, z ∈ l.region) :
    if c then z ∈ inside ls else z ∈ outside ls := by
  split
  · rename_i h
    exact ⟨htrace, hc.1 h⟩
  · rename_i h
    exact ⟨htrace, fun l hl hmem => h (hc.2 ⟨l, hl, hmem⟩)⟩

variable (hU : Clear line ls U) (hopen : IsOpen U) (hd : line.dir ≠ 0)
  (hm : place line.dir.real line.offset m ∈ U)

include hU hopen hd hm

/-- The left half of a clear neighbourhood lies inside the loops or outside of them, as the left side of the line. -/
theorem mem_of_left (hz : z ∈ U) (hleft : line.offset < cross line.dir.real z) :
    if (covered line ls m).1 then z ∈ inside ls else z ∈ outside ls := by
  have htrace (l : Loop) (hl : l ∈ ls) : z ∉ l.trace := hU.notMem_trace hl hz hleft.ne'
  refine inside_or_outside htrace ((any_sides_iff line ls m _).trans ?_)
  refine exists_congr fun l => and_congr_right fun hl => ?_
  rw [Loop.mem_region_iff (d := (1, 0)) (htrace l hl) (by simp), hU.odd_iff_left hl hopen hd hm hz hleft]

/-- So does the right half, as the right side of the line. -/
theorem mem_of_right (hz : z ∈ U) (hright : cross line.dir.real z < line.offset) :
    if (covered line ls m).2 then z ∈ inside ls else z ∈ outside ls := by
  have htrace (l : Loop) (hl : l ∈ ls) : z ∉ l.trace := hU.notMem_trace hl hz hright.ne
  refine inside_or_outside htrace ((any_sides_iff line ls m _).trans ?_)
  refine exists_congr fun l => and_congr_right fun hl => ?_
  rw [Loop.mem_region_iff (d := (1, 0)) (htrace l hl) (by simp), hU.odd_iff_right hl hopen hd hm hz hright]

end Sides

section Pieces

variable {gap : Rat × Rat} {e : OutlineEdge} {es : List OutlineEdge}

theorem span_reverse (e : OutlineEdge) : e.reverse.span = e.span := by
  have hplace (s : ℝ) : place e.dir.real e.offset (-s) = place (-e.dir).real (-e.offset : Int) s := by
    simp only [place, dot, Point.real, Point.neg_x, Point.neg_y, Int.cast_neg]
    ext <;> ring
  have hneg : Set.Icc (e.start : ℝ) e.stop = (fun s => -s) '' Set.Icc (-e.stop : ℝ) (-e.start) := by
    rw [Set.image_neg_Icc, neg_neg, neg_neg]
  rw [OutlineEdge.span, OutlineEdge.span, hneg, Set.image_image]
  simp only [OutlineEdge.reverse, Rat.cast_neg, hplace]

/-- A gap of a line carries a part of the outline if its sides are covered differently and an edge runs along it. -/
theorem piece?_of_covered (hspan : ∃ l ∈ ls, ∃ e ∈ l.edges, (relative line e).onLine = true ∧
      (relative line e).spans ((gap.1 + gap.2) / 2) = true)
    (hne : (covered line ls ((gap.1 + gap.2) / 2)).1 ≠ (covered line ls ((gap.1 + gap.2) / 2)).2) :
    ∃ e, piece? line (relatives line (ls.map Loop.edges)) gap = some e := by
  have halong : ((relatives line (ls.map Loop.edges)).any fun rs =>
      rs.any fun r => r.onLine && r.spans ((gap.1 + gap.2) / 2)) = true := by
    obtain ⟨l, hl, e, he, hon, hspan⟩ := hspan
    simp only [relatives, List.map_map, List.any_map, List.any_eq_true, Function.comp_apply, Bool.and_eq_true]
    exact ⟨l, hl, e, he, hon, hspan⟩
  simp only [piece?, halong, if_true]
  rw [if_neg (by simpa [covered] using hne)]
  exact ⟨_, rfl⟩

/-- A part of the outline on a gap of a line is all of the gap, and the sides of the gap are covered differently. -/
theorem of_piece? (h : piece? line (relatives line (ls.map Loop.edges)) gap = some e) :
    (covered line ls ((gap.1 + gap.2) / 2)).1 ≠ (covered line ls ((gap.1 + gap.2) / 2)).2 ∧
      (e = ⟨line.dir, line.offset, gap.1, gap.2⟩ ∨ e = OutlineEdge.reverse ⟨line.dir, line.offset, gap.1, gap.2⟩) := by
  simp only [piece?] at h
  split at h
  · split at h
    · cases h
    · rename_i hne
      refine ⟨by simpa [covered] using hne, ?_⟩
      rw [← Option.some.inj h]
      split
      · exact .inl rfl
      · exact .inr rfl
  · cases h

/-- A part of the outline on a gap of a line has the points of the gap. -/
theorem span_of_piece? (h : piece? line (relatives line (ls.map Loop.edges)) gap = some e) :
    e.span = place line.dir.real line.offset '' Set.Icc (gap.1 : ℝ) gap.2 := by
  obtain ⟨-, rfl | rfl⟩ := of_piece? h
  · rfl
  · rw [span_reverse]
    rfl

/-- Whether a part runs forward on the line that its direction determines. -/
def Runs (offset : Point → Int) (e : OutlineEdge) : Prop := e.offset = offset e.dir ∧ e.start ≤ e.stop

theorem span_union {f : OutlineEdge} {offset : Point → Int} (he : Runs offset e) (hf : Runs offset f)
    (hdir : e.dir = f.dir) (hmeet : e.stop = f.start) :
    OutlineEdge.span { e with stop := f.stop } = e.span ∪ f.span := by
  have hoffset : e.offset = f.offset := by rw [he.1, hf.1, hdir]
  simp only [OutlineEdge.span, ← hdir, ← hoffset, ← Set.image_union]
  rw [hmeet, Set.Icc_union_Icc_eq_Icc]
  · exact Rat.cast_le.2 (hmeet ▸ he.2)
  · exact Rat.cast_le.2 hf.2

/-- Joined parts run as the parts they were joined from, and have the same points. -/
theorem join_spec {offset : Point → Int} (h : ∀ e ∈ es, Runs offset e) :
    (∀ e ∈ join es, Runs offset e) ∧ ⋃ e ∈ join es, e.span = ⋃ e ∈ es, e.span := by
  have hcons (e : OutlineEdge) (es : List OutlineEdge) : ⋃ f ∈ e :: es, f.span = e.span ∪ ⋃ f ∈ es, f.span := by
    simp only [List.mem_cons, Set.iUnion_or, Set.iUnion_union_distrib, Set.iUnion_iUnion_eq_left]
  fun_induction join es with
  | case1 => exact ⟨h, rfl⟩
  | case2 e rest hrest ih =>
      obtain ⟨he, hrest'⟩ := List.forall_mem_cons.1 h
      obtain ⟨-, hunion⟩ := ih hrest'
      rw [hcons, hcons, ← hunion, hrest]
      exact ⟨List.forall_mem_singleton.2 he, rfl⟩
  | case3 e rest f more hrest hmeet ih =>
      obtain ⟨he, hrest'⟩ := List.forall_mem_cons.1 h
      obtain ⟨hruns, hunion⟩ := ih hrest'
      obtain ⟨hf, hmore⟩ := List.forall_mem_cons.1 (hrest ▸ hruns)
      have hle : e.start ≤ f.stop := he.2.trans (hmeet.2 ▸ hf.2)
      rw [hcons, hcons, ← hunion, hrest, hcons, span_union he hf hmeet.1 hmeet.2, Set.union_assoc]
      exact ⟨List.forall_mem_cons.2 ⟨⟨he.1, hle⟩, hmore⟩, rfl⟩
  | case4 e rest f more hrest hnot hmeet ih =>
      obtain ⟨he, hrest'⟩ := List.forall_mem_cons.1 h
      obtain ⟨hruns, hunion⟩ := ih hrest'
      obtain ⟨hf, hmore⟩ := List.forall_mem_cons.1 (hrest ▸ hruns)
      have hle : f.start ≤ e.stop := hf.2.trans (hmeet.2 ▸ he.2)
      have hjoin : ({ e with start := f.start } : OutlineEdge) = { f with stop := e.stop } := by
        rw [OutlineEdge.mk.injEq]
        exact ⟨hmeet.1, by rw [he.1, hf.1, hmeet.1], rfl, rfl⟩
      rw [hcons, hcons, ← hunion, hrest, hcons, hjoin, span_union hf he hmeet.1.symm hmeet.2, ← Set.union_assoc,
        Set.union_comm f.span]
      exact ⟨List.forall_mem_cons.2 ⟨⟨hf.1, hle⟩, hmore⟩, rfl⟩
  | case5 e rest f more hrest hnot hnot' ih =>
      obtain ⟨he, hrest'⟩ := List.forall_mem_cons.1 h
      obtain ⟨hruns, hunion⟩ := ih hrest'
      rw [hcons, hcons e rest, ← hunion, hrest]
      exact ⟨List.forall_mem_cons.2 ⟨he, hrest ▸ hruns⟩, rfl⟩

end Pieces

section Lines

variable {e : Point × Point}

theorem exists_multiple (h : lineOf? e = some line) : e.1 ≠ e.2 ∧ line.offset = line.dir.cross e.1 ∧
    ∃ k : Int, line.dir.x * k = e.2.x - e.1.x ∧ line.dir.y * k = e.2.y - e.1.y := by
  rw [lineOf?] at h
  split at h
  · cases h
  · rename_i hne
    have hx := Int.ediv_mul_cancel (Int.gcd_dvd_left (e.2.x - e.1.x) (e.2.y - e.1.y))
    have hy := Int.ediv_mul_cancel (Int.gcd_dvd_right (e.2.x - e.1.x) (e.2.y - e.1.y))
    obtain rfl := Option.some.inj h
    refine ⟨fun heq => hne (by simp [heq]), rfl, ?_⟩
    simp only [Point.sub_x, Point.sub_y]
    split
    · exact ⟨-Int.gcd (e.2.x - e.1.x) (e.2.y - e.1.y), by simpa using hx, by simpa using hy⟩
    · exact ⟨Int.gcd (e.2.x - e.1.x) (e.2.y - e.1.y), hx, hy⟩

/-- The line of an edge has a direction, and the edge runs along it. -/
theorem lineOf?_spec (h : lineOf? e = some line) : line.dir ≠ 0 ∧ (relative line e).onLine = true := by
  obtain ⟨hne, hoffset, k, hx, hy⟩ := exists_multiple h
  constructor
  · intro hzero
    simp only [hzero, Point.zero_x, Point.zero_y, zero_mul] at hx hy
    exact hne (Point.ext (by omega) (by omega))
  · have hcross : line.dir.cross e.2 = line.dir.cross e.1 := by
      simp only [Point.cross]
      linear_combination line.dir.y * hx - line.dir.x * hy
    simp [Relative.onLine, relative, hoffset, hcross]

theorem exists_lineOf? (h : e.1 ≠ e.2) : ∃ line, lineOf? e = some line := by
  rw [lineOf?, if_neg]
  · exact ⟨_, rfl⟩
  · intro hzero
    simp only [Point.sub_x, Point.sub_y] at hzero
    exact h (Point.ext (by omega) (by omega))

/-- Where a direction along a line has the line. -/
def offsetAlong (line : Line) (d : Point) : Int := if d = line.dir then line.offset else -line.offset

theorem runs_of_piece? {gap : Rat × Rat} {f : OutlineEdge} (hd : line.dir ≠ 0) (hgap : gap.1 ≤ gap.2)
    (h : piece? line (relatives line (ls.map Loop.edges)) gap = some f) :
    Runs (offsetAlong line) f ∧ f.dir ≠ 0 := by
  have hneg : -line.dir ≠ line.dir ∧ -line.dir ≠ 0 := by
    refine ⟨fun heq => ?_, fun heq => ?_⟩ <;>
    · have hx := congrArg Point.x heq
      have hy := congrArg Point.y heq
      simp only [Point.neg_x, Point.neg_y, Point.zero_x, Point.zero_y] at hx hy
      exact hd (Point.ext (show line.dir.x = 0 by omega) (show line.dir.y = 0 by omega))
  obtain ⟨-, rfl | rfl⟩ := of_piece? h
  · exact ⟨⟨by simp [offsetAlong], hgap⟩, hd⟩
  · exact ⟨⟨by simp [offsetAlong, OutlineEdge.reverse, hneg.1], neg_le_neg hgap⟩, hneg.2⟩

/-- The parts of the outline on a line, joined or not. -/
theorem onLine_spec (hd : line.dir ≠ 0) (ls : List Loop) :
    (∀ f ∈ onLine (ls.map Loop.edges) line, f.dir ≠ 0 ∧ f.start ≤ f.stop) ∧
      ⋃ f ∈ onLine (ls.map Loop.edges) line, f.span =
        ⋃ gap ∈ (cuts line ls).zip ((cuts line ls).drop 1),
          ⋃ f ∈ piece? line (relatives line (ls.map Loop.edges)) gap, f.span := by
  let pieces := ((cuts line ls).zip ((cuts line ls).drop 1)).filterMap
    (piece? line (relatives line (ls.map Loop.edges)))
  have hpieces : ∀ f ∈ pieces, Runs (offsetAlong line) f ∧ f.dir ≠ 0 := by
    intro f hf
    obtain ⟨gap, hgap, hf⟩ := List.mem_filterMap.1 hf
    exact runs_of_piece? hd (Loop.of_mem_gaps (cuts_ascending line ls) hgap).1.le hf
  obtain ⟨hruns, hunion⟩ := join_spec fun f hf => (hpieces f hf).1
  constructor
  · intro f hf
    exact ⟨forall_mem_join (p := fun d _ => d ≠ 0) (fun f hf => (hpieces f hf).2) f hf, (hruns f hf).2⟩
  · refine hunion.trans ?_
    ext z
    simp only [pieces, Set.mem_iUnion, List.mem_filterMap, Option.mem_def, exists_prop]
    constructor
    · rintro ⟨f, ⟨gap, hgap, hf⟩, hz⟩
      exact ⟨gap, hgap, f, hf, hz⟩
    · rintro ⟨gap, hgap, f, hf, hz⟩
      exact ⟨f, ⟨gap, hgap, hf⟩, hz⟩

theorem mem_outline_iff {f : OutlineEdge} : f ∈ outline ls ↔
    ∃ line, (∃ l ∈ ls, ∃ e ∈ l.edges, lineOf? e = some line) ∧ f ∈ onLine (ls.map Loop.edges) line := by
  simp [outline, List.mem_eraseDups]

end Lines

section Limits

theorem mem_closure_of_left {X : Set (ℝ × ℝ)} (hopen : IsOpen U) (hd : line.dir ≠ 0)
    (hs : place line.dir.real line.offset s ∈ U) (h : ∀ w ∈ U, line.offset < cross line.dir.real w → w ∈ X) :
    place line.dir.real line.offset s ∈ closure X := by
  have hlim : Tendsto (fun h => place line.dir.real h s) (𝓝[>] (line.offset : ℝ)) (𝓝 _) :=
    (continuous_place_across _ _).continuousAt.tendsto.mono_left nhdsWithin_le_nhds
  refine mem_closure_of_tendsto hlim ?_
  filter_upwards [(eventually_place hopen hs).filter_mono nhdsWithin_le_nhds, self_mem_nhdsWithin] with k hk hpos
  exact h _ hk (by rwa [cross_place (dir_real_ne_zero hd)])

theorem mem_closure_of_right {X : Set (ℝ × ℝ)} (hopen : IsOpen U) (hd : line.dir ≠ 0)
    (hs : place line.dir.real line.offset s ∈ U) (h : ∀ w ∈ U, cross line.dir.real w < line.offset → w ∈ X) :
    place line.dir.real line.offset s ∈ closure X := by
  have hlim : Tendsto (fun h => place line.dir.real h s) (𝓝[<] (line.offset : ℝ)) (𝓝 _) :=
    (continuous_place_across _ _).continuousAt.tendsto.mono_left nhdsWithin_le_nhds
  refine mem_closure_of_tendsto hlim ?_
  filter_upwards [(eventually_place hopen hs).filter_mono nhdsWithin_le_nhds, self_mem_nhdsWithin] with k hk hneg
  exact h _ hk (by rwa [cross_place (dir_real_ne_zero hd)])

variable {gap : Rat × Rat} {f : OutlineEdge}

theorem mid_mem_gap (hgap : gap ∈ (cuts line ls).zip ((cuts line ls).drop 1)) :
    (((gap.1 + gap.2) / 2 : Rat) : ℝ) ∈ Set.Ioo (gap.1 : ℝ) gap.2 := by
  have hlt := (Loop.of_mem_gaps (cuts_ascending line ls) hgap).1
  exact ⟨Rat.cast_lt.2 (by linarith), Rat.cast_lt.2 (by linarith)⟩

/-- A part of the outline on a gap is the limit of points inside. -/
theorem piece_subset_closure (hd : line.dir ≠ 0) (hgap : gap ∈ (cuts line ls).zip ((cuts line ls).drop 1))
    (h : piece? line (relatives line (ls.map Loop.edges)) gap = some f) : f.span ⊆ closure (inside ls) := by
  have hlt : (gap.1 : ℝ) < gap.2 := Rat.cast_lt.2 (Loop.of_mem_gaps (cuts_ascending line ls) hgap).1
  rw [span_of_piece? h, ← closure_Ioo hlt.ne]
  refine (image_closure_subset_closure_image (continuous_place _ _)).trans (closure_minimal ?_ isClosed_closure)
  rintro _ ⟨t, ht, rfl⟩
  obtain ⟨U, hopen, hU, ht, hm⟩ := exists_clear hd hgap ht (mid_mem_gap hgap)
  have hne := (of_piece? h).1
  cases hleft : (covered line ls ((gap.1 + gap.2) / 2)).1 with
  | true =>
      apply mem_closure_of_left hopen hd ht
      intro w hw hcross
      simpa [hleft] using mem_of_left hU hopen hd hm hw hcross
  | false =>
      have hright : (covered line ls ((gap.1 + gap.2) / 2)).2 = true := by simpa [hleft] using hne.symm
      apply mem_closure_of_right hopen hd ht
      intro w hw hcross
      simpa [hright] using mem_of_right hU hopen hd hm hw hcross

/-- The outline is the limit of points inside. -/
theorem span_subset_closure (hf : f ∈ outline ls) : f.span ⊆ closure (inside ls) := by
  obtain ⟨line, ⟨l, hl, e, he, hline⟩, hf⟩ := mem_outline_iff.1 hf
  have hd := (lineOf?_spec hline).1
  refine (Set.subset_biUnion_of_mem (u := OutlineEdge.span) hf).trans ((onLine_spec hd ls).2.trans_subset ?_)
  exact Set.iUnion₂_subset fun gap hgap => Set.iUnion₂_subset fun f hf => piece_subset_closure hd hgap hf

end Limits

section Separation

variable {e : Point × Point}

/-- The vertices of loops and the points at which their edges cut the lines of edges. -/
noncomputable def corners (ls : List Loop) : List (ℝ × ℝ) :=
  ls.flatten.map Point.real ++ ((ls.flatMap Loop.edges).filterMap lineOf?).flatMap fun line =>
    (cuts line ls).map fun q : Rat => place line.dir.real line.offset (q : ℝ)

theorem vertex_mem_corners {p : Point} (hl : l ∈ ls) (hp : p ∈ l) : p.real ∈ corners ls :=
  List.mem_append_left _ (List.mem_map_of_mem (List.mem_flatten_of_mem hl hp))

theorem cut_mem_corners (hl : l ∈ ls) (he : e ∈ l.edges) (hline : lineOf? e = some line) (hm : m ∈ cuts line ls) :
    place line.dir.real line.offset m ∈ corners ls := by
  refine List.mem_append_right _ (List.mem_flatMap.2 ⟨line, ?_, List.mem_map_of_mem hm⟩)
  exact List.mem_filterMap.2 ⟨e, List.mem_flatMap.2 ⟨l, hl, he⟩, hline⟩

/-- The points of an edge along a line are those with the positions between its ends. -/
theorem span_eq_place (hd : line.dir ≠ 0) (hon : (relative line e).onLine = true) :
    Point.span e = place line.dir.real line.offset '' Set.uIcc ((relative line e).s0 : ℝ) (relative line e).s1 := by
  have hd := dir_real_ne_zero hd
  obtain ⟨h1, h2⟩ := onLine_iff.1 hon
  rw [← segment_place]
  simp only [relative, ← dot_real]
  rw [← h1, place_cross_dot hd, h1, ← h2, place_cross_dot hd]
  rfl

/-- The ends of an edge along a line are cuts, and it stands over the positions between them. -/
theorem exists_ends (hl : l ∈ ls) (he : e ∈ l.edges) (hon : (relative line e).onLine = true) :
    ∃ lo ∈ cuts line ls, ∃ hi ∈ cuts line ls,
      Set.uIcc ((relative line e).s0 : ℝ) (relative line e).s1 = Set.Icc (lo : ℝ) hi ∧
        ∀ m, lo < m → m < hi → (relative line e).spans m = true := by
  have h0 : ((relative line e).s0 : Rat) ∈ cuts line ls := mem_cuts hl he (by simp [Relative.cuts, hon])
  have h1 : ((relative line e).s1 : Rat) ∈ cuts line ls := mem_cuts hl he (by simp [Relative.cuts, hon])
  simp only [Relative.spans, bne_iff_ne, ne_eq, decide_eq_decide]
  rcases le_total (relative line e).s0 (relative line e).s1 with hle | hle
  · refine ⟨_, h0, _, h1, ?_, fun m hlo hhi => ?_⟩
    · rw [Set.uIcc_of_le (Int.cast_le.2 hle), Rat.cast_intCast, Rat.cast_intCast]
    · simp [hlo.le, hhi.not_ge]
  · refine ⟨_, h1, _, h0, ?_, fun m hlo hhi => ?_⟩
    · rw [Set.uIcc_of_ge (Int.cast_le.2 hle), Rat.cast_intCast, Rat.cast_intCast]
    · simp [hlo.le, hhi.not_ge]

/-- A position between two cuts that is no cut lies in a gap. -/
theorem exists_gap_of_mem_Icc {lo hi : Rat} (hlo : lo ∈ cuts line ls) (hhi : hi ∈ cuts line ls)
    (hs : s ∈ Set.Icc (lo : ℝ) hi) (hcut : ∀ q ∈ cuts line ls, (q : ℝ) ≠ s) :
    ∃ gap ∈ (cuts line ls).zip ((cuts line ls).drop 1), s ∈ Set.Ioo (gap.1 : ℝ) gap.2 ∧ lo ≤ gap.1 ∧ gap.2 ≤ hi := by
  have hasc : ((cuts line ls).map fun q : Rat => (q : ℝ)).Pairwise (· < ·) :=
    List.pairwise_map.2 ((cuts_ascending line ls).imp Rat.cast_lt.2)
  obtain ⟨p, hp, hle, hlt⟩ := Loop.exists_gap hasc (List.mem_map_of_mem hlo) (List.mem_map_of_mem hhi) hs.1
    (lt_of_le_of_ne hs.2 (hcut hi hhi).symm)
  rw [← List.map_drop, List.zip_map] at hp
  obtain ⟨gap, hgap, rfl⟩ := List.mem_map.1 hp
  have hbetween := (Loop.of_mem_gaps (cuts_ascending line ls) hgap).2
  have hs' : s ∈ Set.Ioo (gap.1 : ℝ) gap.2 := ⟨lt_of_le_of_ne hle (hcut _ (List.of_mem_zip hgap).1), hlt⟩
  refine ⟨gap, hgap, hs', ?_, ?_⟩
  · refine (hbetween lo hlo).resolve_right fun hge => ?_
    exact (hs'.2.trans_le (Rat.cast_le.2 hge)).not_ge hs.1
  · refine (hbetween hi hhi).resolve_left fun hge => ?_
    exact ((Rat.cast_le.2 hge).trans_lt hs'.1).not_ge hs.2

/-- A point of an edge that is no corner lies in a gap of the line of the edge, and the edge stands over the gap. -/
theorem exists_gap_of_mem_span (hl : l ∈ ls) (he : e ∈ l.edges) (hz : z ∈ Point.span e) (hcorner : z ∉ corners ls) :
    ∃ line, lineOf? e = some line ∧ ∃ gap ∈ (cuts line ls).zip ((cuts line ls).drop 1),
      ∃ s ∈ Set.Ioo (gap.1 : ℝ) gap.2, z = place line.dir.real line.offset s ∧
        Set.Icc (gap.1 : ℝ) gap.2 ⊆ Set.uIcc ((relative line e).s0 : ℝ) (relative line e).s1 ∧
        (relative line e).spans ((gap.1 + gap.2) / 2) = true := by
  have hne : e.1 ≠ e.2 := by
    intro heq
    rw [Point.span, heq, segment_same, Set.mem_singleton_iff] at hz
    exact hcorner (hz ▸ vertex_mem_corners hl (Loop.mem_of_mem_edges he).2)
  obtain ⟨line, hline⟩ := exists_lineOf? hne
  obtain ⟨hd, hon⟩ := lineOf?_spec hline
  rw [span_eq_place hd hon] at hz
  obtain ⟨s, hs, rfl⟩ := hz
  have hcut (q : Rat) (hq : q ∈ cuts line ls) : (q : ℝ) ≠ s := by
    rintro rfl
    exact hcorner (cut_mem_corners hl he hline hq)
  obtain ⟨lo, hlo, hi, hhi, heq, hspans⟩ := exists_ends hl he hon
  rw [heq] at hs
  obtain ⟨gap, hgap, hs, hlow, hhigh⟩ := exists_gap_of_mem_Icc hlo hhi hs hcut
  have hlt := (Loop.of_mem_gaps (cuts_ascending line ls) hgap).1
  refine ⟨line, hline, gap, hgap, s, hs, rfl, ?_, hspans _ (by linarith) (by linarith)⟩
  rw [heq]
  exact Set.Icc_subset_Icc (Rat.cast_le.2 hlow) (Rat.cast_le.2 hhigh)

/-- The sides of a gap under an edge are covered alike if some point of the gap is no point of the outline. -/
theorem covered_eq {gap : Rat × Rat} (hl : l ∈ ls) (he : e ∈ l.edges) (hline : lineOf? e = some line)
    (hgap : gap ∈ (cuts line ls).zip ((cuts line ls).drop 1))
    (hspans : (relative line e).spans ((gap.1 + gap.2) / 2) = true) (hs : s ∈ Set.Ioo (gap.1 : ℝ) gap.2)
    (hfree : ∀ f ∈ outline ls, place line.dir.real line.offset s ∉ f.span) :
    (covered line ls ((gap.1 + gap.2) / 2)).1 = (covered line ls ((gap.1 + gap.2) / 2)).2 := by
  obtain ⟨hd, hon⟩ := lineOf?_spec hline
  by_contra hne
  obtain ⟨f, hf⟩ := piece?_of_covered ⟨l, hl, e, he, hon, hspans⟩ hne
  have hmem : place line.dir.real line.offset s ∈ ⋃ f ∈ onLine (ls.map Loop.edges) line, f.span := by
    rw [(onLine_spec hd ls).2]
    refine Set.mem_biUnion hgap (Set.mem_biUnion hf ?_)
    rw [span_of_piece? hf]
    exact ⟨s, Set.Ioo_subset_Icc_self hs, rfl⟩
  obtain ⟨f, hf, hmem⟩ := Set.mem_iUnion₂.1 hmem
  exact hfree f (mem_outline_iff.2 ⟨line, ⟨l, hl, e, he, hline⟩, hf⟩) hmem

/-- Points off all edges do not come near an edge inside a gap if there are none to either side of it. -/
theorem notMem_closure {X : Set (ℝ × ℝ)} {gap : Rat × Rat} (hl : l ∈ ls) (he : e ∈ l.edges)
    (hline : lineOf? e = some line) (hs : s ∈ Set.Ioo (gap.1 : ℝ) gap.2)
    (hgap : Set.Icc (gap.1 : ℝ) gap.2 ⊆ Set.uIcc ((relative line e).s0 : ℝ) (relative line e).s1) (hopen : IsOpen U)
    (hU : place line.dir.real line.offset s ∈ U) (htrace : ∀ w ∈ X, ∀ l ∈ ls, w ∉ l.trace)
    (hsides : ∀ w ∈ U, cross line.dir.real w ≠ line.offset → w ∉ X) :
    place line.dir.real line.offset s ∉ closure X := by
  obtain ⟨hd, hon⟩ := lineOf?_spec hline
  have hd' := dir_real_ne_zero hd
  have hcont : Continuous (dot line.dir.real) := by
    unfold dot
    fun_prop
  intro hlimit
  obtain ⟨w, ⟨hwU, hwgap⟩, hwX⟩ := mem_closure_iff.1 hlimit
    (U ∩ Set.preimage (dot line.dir.real) (Set.Ioo (gap.1 : ℝ) gap.2)) (hopen.inter (isOpen_Ioo.preimage hcont))
    ⟨hU, by rwa [Set.mem_preimage, dot_place hd']⟩
  by_cases hcross : cross line.dir.real w = line.offset
  · refine htrace w hwX l hl (Loop.span_subset_trace he ?_)
    rw [span_eq_place hd hon]
    exact ⟨_, hgap (Set.Ioo_subset_Icc_self hwgap), by rw [← hcross, place_cross_dot hd']⟩
  · exact hsides w hwU hcross hwX

/-- A point that is no corner and no point of the outline is the limit of points inside or of points outside, but not
of both. -/
theorem mem_closure_or (hcorner : z ∉ corners ls) (hfree : ∀ f ∈ outline ls, z ∉ f.span) :
    z ∈ closure (inside ls) ∧ z ∉ closure (outside ls) ∨ z ∈ closure (outside ls) ∧ z ∉ closure (inside ls) := by
  by_cases htrace : ∀ l ∈ ls, z ∉ l.trace
  · rcases mem_inside_or_outside htrace with hin | hout
    · exact .inl ⟨subset_closure hin, Set.disjoint_left.1 (disjoint_inside_closure_outside ls) hin⟩
    · exact .inr ⟨subset_closure hout, Set.disjoint_right.1 (disjoint_closure_inside_outside ls) hout⟩
  · simp only [not_forall, not_not] at htrace
    obtain ⟨l, hl, hz⟩ := htrace
    obtain ⟨e, he, hz⟩ := Loop.mem_trace_iff.1 hz
    obtain ⟨line, hline, gap, hgap, s, hs, rfl, hsub, hspans⟩ := exists_gap_of_mem_span hl he hz hcorner
    have hd := (lineOf?_spec hline).1
    have hsame := covered_eq hl he hline hgap hspans hs hfree
    obtain ⟨U, hopen, hU, hsU, hm⟩ := exists_clear hd hgap hs (mid_mem_gap hgap)
    have hside (w : ℝ × ℝ) (hw : w ∈ U) (hcross : cross line.dir.real w ≠ line.offset) :
        if (covered line ls ((gap.1 + gap.2) / 2)).1 then w ∈ inside ls else w ∈ outside ls := by
      rcases lt_or_gt_of_ne hcross with hright | hleft
      · exact hsame ▸ mem_of_right hU hopen hd hm hw hright
      · exact mem_of_left hU hopen hd hm hw hleft
    have hfar (X : Set (ℝ × ℝ)) := notMem_closure (X := X) hl he hline hs hsub hopen hsU
    cases hc : (covered line ls ((gap.1 + gap.2) / 2)).1 with
    | true =>
        simp only [hc, if_true] at hside
        refine .inl ⟨mem_closure_of_left hopen hd hsU fun w hw hleft => hside w hw hleft.ne', ?_⟩
        exact hfar _ (fun w hw => hw.1) fun w hw hcross =>
          Set.disjoint_left.1 (disjoint_inside_outside ls) (hside w hw hcross)
    | false =>
        simp only [hc, Bool.false_eq_true, if_false] at hside
        refine .inr ⟨mem_closure_of_left hopen hd hsU fun w hw hleft => hside w hw hleft.ne', ?_⟩
        exact hfar _ (fun w hw => hw.1) fun w hw hcross =>
          Set.disjoint_right.1 (disjoint_inside_outside ls) (hside w hw hcross)

/-- From a point off a finite set, points as near as one likes to another point are seen past the set. -/
theorem exists_segment_disjoint {F : List (ℝ × ℝ)} (hz : z ∉ F) (hwz : w ≠ z) (hopen : IsOpen U) (hw : w ∈ U) :
    ∃ v ∈ U, ∀ f ∈ F, f ∉ segment ℝ z v := by
  let turn : ℝ × ℝ → ℝ := fun f => -cross (w - z) (f - z) / dot (w - z) (f - z)
  have hd : w - z ≠ 0 := sub_ne_zero.2 hwz
  have hblocked {t : ℝ} {f : ℝ × ℝ} (hf : f ∈ F) (hmem : f ∈ segment ℝ z (w + t • right (w - z))) :
      t = turn f := by
    rw [segment_eq_image'] at hmem
    obtain ⟨θ, -, rfl⟩ := hmem
    have hθ : θ ≠ 0 := by
      rintro rfl
      exact hz (by simpa using hf)
    have hsum : z + θ • (w + t • right (w - z) - z) - z = θ • (w - z) + (θ * t) • right (w - z) := by module
    have hdot : dot (w - z) (θ • (w - z) + (θ * t) • right (w - z)) = θ * dot (w - z) (w - z) := by
      simp only [dot, right, Prod.fst_add, Prod.snd_add, Prod.smul_fst, Prod.smul_snd, smul_eq_mul]
      ring
    have hcross : cross (w - z) (θ • (w - z) + (θ * t) • right (w - z)) = -(θ * dot (w - z) (w - z) * t) := by
      simp only [cross, dot, right, Prod.fst_add, Prod.snd_add, Prod.smul_fst, Prod.smul_snd, smul_eq_mul]
      ring
    have hne := mul_ne_zero hθ (dot_self_pos hd).ne'
    simp only [turn, hsum, hdot, hcross, neg_neg]
    rw [mul_div_cancel_left₀ _ hne]
  have hcont : Continuous fun t : ℝ => w + t • right (w - z) := by fun_prop
  have hdense : Dense {t | t ∈ F.map turn}ᶜ := (List.finite_toSet (F.map turn)).countable.dense_compl ℝ
  obtain ⟨t, ht, hfree⟩ := hdense.inter_open_nonempty _ (hopen.preimage hcont) ⟨0, by simpa using hw⟩
  exact ⟨_, ht, fun f hf hmem => hfree (hblocked hf hmem ▸ List.mem_map_of_mem hf)⟩

/-- A convex open set that the outline does not enter is inside or outside as a whole. -/
theorem mem_inside_of_convex (hU : Convex ℝ U) (hopen : IsOpen U) (hfree : ∀ f ∈ outline ls, Disjoint U f.span)
    (hz : z ∈ U) (hin : z ∈ inside ls) (hw : w ∈ U) (hoff : ∀ l ∈ ls, w ∉ l.trace) : w ∈ inside ls := by
  by_contra hnot
  have hout : w ∈ outside ls := (mem_inside_or_outside hoff).resolve_left hnot
  -- A path within the set from `w` to a point inside that meets no corner, except perhaps `w` itself.
  have hne : z ≠ w := by
    rintro rfl
    exact hnot hin
  obtain ⟨v, ⟨hv, hvin⟩, hpath⟩ := exists_segment_disjoint (F := (corners ls).filter fun f => f ≠ w) (by simp) hne
    (hopen.inter (isOpen_inside ls)) ⟨hz, hin⟩
  have hone (f : ℝ × ℝ) (hf : f ∈ segment ℝ w v) : f ∈ closure (inside ls) ∧ f ∉ closure (outside ls) ∨
      f ∈ closure (outside ls) ∧ f ∉ closure (inside ls) := by
    by_cases hfw : f = w
    · rw [hfw]
      exact .inr ⟨subset_closure hout, Set.disjoint_right.1 (disjoint_closure_inside_outside ls) hout⟩
    · refine mem_closure_or (fun hcorner => hpath f (by simpa [hfw] using hcorner) hf) fun e he hmem => ?_
      exact Set.disjoint_left.1 (hfree e he) (hU.segment_subset hw hv hf) hmem
  obtain ⟨f, hf, hfin, hfout⟩ := isPreconnected_closed_iff.1 (convex_segment w v).isPreconnected _ _ isClosed_closure
    isClosed_closure (fun f hf => (hone f hf).imp And.left And.left)
    ⟨v, right_mem_segment ℝ w v, subset_closure hvin⟩ ⟨w, left_mem_segment ℝ w v, subset_closure hout⟩
  rcases hone f hf with ⟨-, hno⟩ | ⟨-, hno⟩
  · exact hno hfout
  · exact hno hfin

end Separation

end Outline

end MaskLayout
