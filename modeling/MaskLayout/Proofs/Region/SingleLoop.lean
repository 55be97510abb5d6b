import MaskLayout.Proofs.Region.ExactPolygons

/-!
# A loop and the set of that loop

A loop alone meets a box where it runs or winds around points. The set that has only that loop is united first, so it
meets the box where the loop covers points by the even-odd rule, up to the limit and without parts that have no area.
Both have the same box, and merged data takes both for the same points; but queries tell them apart where a loop runs or
winds while the even-odd rule covers nothing.
-/

namespace MaskLayout

namespace Shape

open PolygonLibrary

section Library

variable [PolygonLibrary] {fill : Polygons → Set (ℝ × ℝ)} {l : Loop} {b : Box}

omit [PolygonLibrary] in
theorem box_singleton (l : Loop) : (poly45Set [l]).box = (poly45 l).box := by
  have hle : l.box ≤ Box.unionAll [l.box] := (Box.unionAll_le_iff.1 (le_refl _)).2 _ List.mem_cons_self
  refine le_antisymm (Box.unionAll_le_iff.2 ⟨(Loop.box_le_iff.1 (le_refl l.box)).1, ?_⟩) hle
  exact List.forall_mem_singleton.2 (le_refl l.box)

theorem fill_singleton (laws : Lawful fill) (l : Loop) :
    fill (poly45Set [l]).toPolygons = fill (poly45 l).toPolygons := by
  change fill (union none (poly45 l).toPolygons) = _
  rw [laws.fill_union, laws.fill_none, Set.empty_union]

/-- A loop alone meets a box where it runs or winds around points. -/
theorem touches_poly45_iff (laws : Lawful fill) (hl : LoopKind.diagonal.check l = .ok l) (hrange : (poly45 l).InRange)
    (hb : b ≤ .everything) : (poly45 l).touches b = true ↔
      (poly45 l).box.intersects b = true ∧ (b.rounded.region ∩ l.rounded.solid).Nonempty := by
  by_cases hmeet : (poly45 l).box.intersects b = true
  · obtain ⟨hne, hlo, hhi⟩ := Box.toFloat_is_of_intersects hmeet hb
    have hlength : 3 ≤ l.rounded.length := by
      rw [Loop.length_rounded]
      exact (LoopKind.check_self_iff.1 hl).1
    have htouches : (poly45 l).touches b = intersects (poly45 l).toPolygons b.toFloat := if_neg (by simp [hne, hmeet])
    rw [htouches, and_iff_right hmeet]
    exact laws.intersects_ofRing (Loop.traces_rounded hrange) hlength hlo hhi
  · simp [touches, hmeet]

/-- The set of a loop meets a box where the loop covers points by the even-odd rule. -/
theorem touches_set_iff (laws : Lawful fill) (hl : LoopKind.diagonal.check l = .ok l) (hrange : (poly45 l).InRange)
    (hb : b ≤ .everything) : (poly45Set [l]).touches b = true ↔
      (poly45 l).box.intersects b = true ∧ (b.rounded.region ∩ l.rounded.filled).Nonempty := by
  by_cases hmeet : (poly45 l).box.intersects b = true
  · obtain ⟨hne, hlo, hhi⟩ := Box.toFloat_is_of_intersects hmeet hb
    have hlength : 3 ≤ l.rounded.length := by
      rw [Loop.length_rounded]
      exact (LoopKind.check_self_iff.1 hl).1
    have hfill : fill (union none (poly45 l).toPolygons) = l.rounded.filled := by
      rw [laws.fill_union, laws.fill_none, Set.empty_union]
      exact laws.fill_ofRing (Loop.traces_rounded hrange) hlength
    have htouches : (poly45Set [l]).touches b = intersects (union none (poly45 l).toPolygons) b.toFloat :=
      if_neg (by simp [box_singleton, hne, hmeet])
    rw [htouches, and_iff_right hmeet, laws.intersects_union hlo hhi, hfill]
    rfl
  · simp [touches, box_singleton, hmeet]

/-- Over every lawful library of polygons, a set with one loop has the box of the loop, merged data takes both for the
same points, and a query finds the set only where it finds the loop. On a box the two are found alike unless the loop
runs or winds somewhere in the box while the even-odd rule covers nothing there, up to the limit. So a loop that runs and
winds only where it covers points is found as the set everywhere. -/
theorem touches_singleton (laws : Lawful fill) (hl : LoopKind.diagonal.check l = .ok l)
    (hrange : (poly45 l).InRange) :
    (poly45Set [l]).box = (poly45 l).box ∧
    fill (poly45Set [l]).toPolygons = fill (poly45 l).toPolygons ∧
    (∀ b ≤ Box.everything, (poly45Set [l]).touches b = true → (poly45 l).touches b = true) ∧
    (∀ b ≤ Box.everything, (poly45 l).touches b = (poly45Set [l]).touches b ↔
      ((poly45 l).box.intersects b = true → (b.rounded.region ∩ l.rounded.solid).Nonempty →
        (b.rounded.region ∩ l.rounded.filled).Nonempty)) ∧
    (l.rounded.solid ⊆ l.rounded.filled →
      ∀ b ≤ Box.everything, (poly45 l).touches b = (poly45Set [l]).touches b) := by
  have hsub (b : Box) (hb : b ≤ .everything) (h : (poly45Set [l]).touches b = true) : (poly45 l).touches b = true := by
    rw [touches_set_iff laws hl hrange hb] at h
    rw [touches_poly45_iff laws hl hrange hb]
    exact ⟨h.1, h.2.mono (Set.inter_subset_inter_right _ l.rounded.filled_subset_solid)⟩
  have hiff (b : Box) (hb : b ≤ .everything) : (poly45 l).touches b = (poly45Set [l]).touches b ↔
      ((poly45 l).box.intersects b = true → (b.rounded.region ∩ l.rounded.solid).Nonempty →
        (b.rounded.region ∩ l.rounded.filled).Nonempty) := by
    have honly : (poly45 l).touches b = (poly45Set [l]).touches b ↔
        ((poly45 l).touches b = true → (poly45Set [l]).touches b = true) := by
      rw [Bool.eq_iff_iff]
      exact ⟨Iff.mp, fun h => ⟨h, hsub b hb⟩⟩
    rw [honly, touches_set_iff laws hl hrange hb, touches_poly45_iff laws hl hrange hb]
    tauto
  exact ⟨box_singleton l, fill_singleton laws l, hsub, hiff, fun h b hb => (hiff b hb).2 fun _ hmeet =>
    hmeet.mono (Set.inter_subset_inter_right _ h)⟩

end Library

open scoped ExactPolygons

/-- The loop once around a square. -/
def woundOnce : Loop := [⟨0, 0⟩, ⟨4, 0⟩, ⟨4, 4⟩, ⟨0, 4⟩]

theorem solid_woundOnce : woundOnce.solid ⊆ woundOnce.filled := by
  have hbox : woundOnce.box.region = Set.Icc (0 : ℝ) 4 ×ˢ Set.Icc (0 : ℝ) 4 := by
    have h : woundOnce.box = ⟨⟨0, 0⟩, ⟨4, 4⟩⟩ := by decide
    rw [h, Box.region, Set.Icc_prod_eq]
    simp [Point.real]
  have hregion : woundOnce.region = Set.Icc (0 : ℝ) 4 ×ˢ Set.Icc (0 : ℝ) 4 := by
    rw [woundOnce, Loop.region_level_first]
    simp
  have hinterior : Set.Ioo (0 : ℝ) 4 ×ˢ Set.Ioo (0 : ℝ) 4 ⊆ woundOnce.region \ woundOnce.trace := by
    rintro z ⟨hx, hy⟩
    refine ⟨hregion ▸ ⟨Set.Ioo_subset_Icc_self hx, Set.Ioo_subset_Icc_self hy⟩, fun htrace => ?_⟩
    have hedges : woundOnce.edges = [(⟨0, 0⟩, ⟨4, 0⟩), (⟨4, 0⟩, ⟨4, 4⟩), (⟨4, 4⟩, ⟨0, 4⟩), (⟨0, 4⟩, ⟨0, 0⟩)] := rfl
    simp [Loop.mem_trace_iff, hedges, Point.span_level, Point.span_upright, hx.1.ne', hx.2.ne, hy.1.ne', hy.2.ne]
      at htrace
  refine (woundOnce.solid_subset_box.trans hbox.subset).trans (subset_trans ?_ (closure_mono hinterior))
  rw [closure_prod_eq, closure_Ioo (by norm_num)]

/-- The loop once around a square and the set with that loop are found alike. -/
theorem touches_woundOnce : PolygonLibrary.Lawful ExactPolygons.fill ∧
    LoopKind.diagonal.check woundOnce = .ok woundOnce ∧ (poly45 woundOnce).InRange ∧
    woundOnce.rounded.solid ⊆ woundOnce.rounded.filled ∧
    (poly45 woundOnce).touches ⟨⟨1, 1⟩, ⟨2, 2⟩⟩ = (poly45Set [woundOnce]).touches ⟨⟨1, 1⟩, ⟨2, 2⟩⟩ := by
  have hl : LoopKind.diagonal.check woundOnce = .ok woundOnce := by decide
  have hrange : (poly45 woundOnce).InRange := by decide
  have hrounded : woundOnce.rounded = woundOnce := Loop.rounded_of_held (by decide +kernel)
  have hsolid : woundOnce.rounded.solid ⊆ woundOnce.rounded.filled := by
    rw [hrounded]
    exact solid_woundOnce
  have h := touches_singleton ExactPolygons.lawful hl hrange
  exact ⟨ExactPolygons.lawful, hl, hrange, hsolid, h.2.2.2.2 hsolid _ (by decide)⟩

/-- A loop that runs twice around a square. -/
def woundTwice : Loop := [⟨0, 0⟩, ⟨4, 0⟩, ⟨4, 4⟩, ⟨0, 4⟩, ⟨0, 0⟩, ⟨4, 0⟩, ⟨4, 4⟩, ⟨0, 4⟩]

/-- The loop is accepted and found in the middle of the square, where the set with that loop is not found. -/
theorem touches_woundTwice : PolygonLibrary.Lawful ExactPolygons.fill ∧
    LoopKind.diagonal.check woundTwice = .ok woundTwice ∧
    (poly45 woundTwice).touches ⟨⟨1, 1⟩, ⟨2, 2⟩⟩ = true ∧
    (poly45Set [woundTwice]).touches ⟨⟨1, 1⟩, ⟨2, 2⟩⟩ = false := by
  have hbox : ExactPolygons.nearestBox (Box.toFloat ⟨⟨1, 1⟩, ⟨2, 2⟩⟩) = ⟨⟨1, 1⟩, ⟨2, 2⟩⟩ := by decide +kernel
  have hloop : (woundTwice.map Point.toFloat).map ExactPolygons.nearest = woundTwice := by decide +kernel
  refine ⟨ExactPolygons.lawful, by decide, by decide +kernel, ?_⟩
  change (if _ then false else ExactPolygons.touches (ExactPolygons.nearestBox (Box.toFloat ⟨⟨1, 1⟩, ⟨2, 2⟩⟩))
    (.united [(woundTwice.map Point.toFloat).map ExactPolygons.nearest])) = false
  rw [hbox, hloop]
  cbv

end Shape

end MaskLayout
