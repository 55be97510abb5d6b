import MaskLayout.Proofs.Shape

/-!
# Boxes of placed shapes

The box of a shape and placements. The box is the least one around the vertices, so a placed shape has the placed box,
as long as all coordinates are coordinates of a layout.
-/

namespace MaskLayout

namespace Shape

/-- The vertices of the loops of a shape. -/
def vertices (s : Shape) : Set Point := {p | ∃ l ∈ s.loops, p ∈ l}

variable {s : Shape} {u : Box} {t : Transform}

/-- The boxes around the vertices of a shape are those around its corners. -/
theorem vertices_subset_iff : s.vertices ⊆ u.points ↔ ∀ p ∈ s.points, Box.ofPoint p ≤ u := by
  have hone (l : Loop) : {p | ∃ l' ∈ [l], p ∈ l'} ⊆ u.points ↔ ∀ p ∈ l, Box.ofPoint p ≤ u := by
    simp only [List.mem_singleton, exists_eq_left, Set.subset_def, Set.mem_ofPred_eq, Box.mem_points_iff]
  cases s with
  | rect r =>
      refine (hone r.loop).trans ?_
      simp only [Rect.loop, Rect.toBox, Box.corners, points, List.forall_mem_cons, List.not_mem_nil, false_imp_iff,
        implies_true, and_true, Box.ofPoint_le_iff]
      omega
  | poly90 l => exact hone l
  | poly45 l => exact hone l
  | poly45Set ls =>
      simp only [vertices, loops, points, Set.subset_def, Set.mem_ofPred_eq, Box.mem_points_iff, List.mem_flatten]
  | poly l => exact hone l

/-- A shape without corners has the empty box. -/
theorem box_eq_empty (h : s.points = []) : s.box = Box.empty := by
  apply le_antisymm
  · rw [box_le_iff (le_refl _), h]
    exact List.forall_mem_nil _
  · cases s with
    | rect r => cases h
    | poly90 l => exact (Loop.box_le_iff.1 (le_refl l.box)).1
    | poly45 l => exact (Loop.box_le_iff.1 (le_refl l.box)).1
    | poly45Set ls => exact (Box.unionAll_le_iff.1 (le_refl (Box.unionAll (ls.map Loop.box)))).1
    | poly l => exact (Loop.box_le_iff.1 (le_refl l.box)).1

theorem normal_box (s : Shape) : s.box.Normal := by
  intro hempty
  cases hpoints : s.points with
  | nil => exact box_eq_empty hpoints
  | cons p rest =>
      have hp : Box.ofPoint p ≤ s.box := ofPoint_le_box (hpoints ▸ List.mem_cons_self)
      exact absurd hp (Box.not_ofPoint_le_of_isEmpty hempty p)

theorem isHull_box (hs : s.InRange) : s.box.IsHull s.vertices where
  around := vertices_subset_iff.2 fun _ hp => ofPoint_le_box hp
  least u hu := by
    rw [vertices_subset_iff] at hu
    cases hpoints : s.points with
    | nil =>
        rw [box_eq_empty hpoints, Box.points_eq_empty_iff.2 Box.isEmpty_empty]
        exact Set.empty_subset _
    | cons p rest =>
        have hp : p ∈ s.points := hpoints ▸ List.mem_cons_self
        have hlayout : Box.empty ≤ u := Box.empty_le_of_ofPoint_le ((ofPoint_le_box hp).trans hs) (hu p hp)
        exact Box.points_subset_of_le ((box_le_iff hlayout).2 hu)

/-- The boxes around a placed shape are those around its placed vertices. -/
theorem vertices_transform_subset_iff : (s.transform t).vertices ⊆ u.points ↔ t.apply '' s.vertices ⊆ u.points := by
  rw [Box.image_subset_points_iff, vertices_subset_iff, vertices_subset_iff, points_transform_le_iff]
  simp only [Box.ofPoint_apply_le_iff]

/-- A placed shape has the placed box. -/
theorem box_transform (hs : s.InRange) (ht : (s.transform t).InRange) : (s.transform t).box = s.box.transform t := by
  apply (normal_box _).eq_of_points (Box.normal_transform _ t)
  exact (isHull_box ht).points_eq ((isHull_box hs).transform t) fun _ => vertices_transform_subset_iff

/-- Boxes commute with placements. The box of a shape is the least one around its vertices, and it is placed as the
shape is. Shapes and boxes are placed by a product of placements as by one after the other, boxes without points become
the empty box, other ones keep their points, and unions of boxes that have points or are the empty box are kept. -/
theorem bounds_commute (t u : Transform) (hs : s.InRange) (ht : (s.transform t).InRange) :
    s.box.IsHull s.vertices ∧
    (s.transform t).box = s.box.transform t ∧
    s.transform (t.cascade u) = (s.transform u).transform t ∧
    (∀ b : Box, b.transform (t.cascade u) = (b.transform u).transform t) ∧
    (∀ b : Box, b.isEmpty = true → b.transform t = Box.empty) ∧
    (∀ (b : Box) (p : Point), b.isEmpty = false → ((b.transform t).contains (t.apply p) = true ↔ b.contains p = true)) ∧
    ∀ b c : Box, b.Normal → c.Normal → b.InLayout → c.InLayout → (b.transform t).InLayout → (c.transform t).InLayout →
      (b.union c).transform t = (b.transform t).union (c.transform t) := by
  refine ⟨isHull_box hs, box_transform hs ht, transform_cascade s t u, Box.transform_cascade t u, ?_, ?_, ?_⟩
  · intro b hb
    exact Box.transform_of_isEmpty hb t
  · intro b p _
    exact Box.apply_mem_points_iff t
  · intro b c hb hc hlb hlc hlbt hlct
    exact Box.transform_union hb hc hlb hlc hlbt hlct

/-- A triangle and a square that stands on a corner. -/
def kites : Shape := .poly45Set [[⟨0, 0⟩, ⟨4, 4⟩, ⟨0, 8⟩], [⟨10, -2⟩, ⟨12, 0⟩, ⟨10, 2⟩, ⟨8, 0⟩]]

theorem bounds_commute_kites :
    kites.InRange ∧ (kites.transform ⟨⟨3, -7⟩, .mxr90⟩).InRange ∧ kites.box.IsHull kites.vertices ∧
      (kites.transform ⟨⟨3, -7⟩, .mxr90⟩).box = ⟨⟨1, -7⟩, ⟨11, 5⟩⟩ ∧
      kites.transform (Transform.cascade ⟨⟨3, -7⟩, .mxr90⟩ ⟨⟨-2, 5⟩, .my⟩) =
        (kites.transform ⟨⟨-2, 5⟩, .my⟩).transform ⟨⟨3, -7⟩, .mxr90⟩ := by
  have hs : kites.InRange := by decide
  have ht : (kites.transform ⟨⟨3, -7⟩, .mxr90⟩).InRange := by decide
  obtain ⟨hhull, hbox, hcascade, -⟩ := bounds_commute ⟨⟨3, -7⟩, .mxr90⟩ ⟨⟨-2, 5⟩, .my⟩ hs ht
  exact ⟨hs, ht, hhull, hbox.trans rfl, hcascade⟩

end Shape

end MaskLayout
