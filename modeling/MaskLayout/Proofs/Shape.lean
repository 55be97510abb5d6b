import MaskLayout.Proofs.Plane.Points
import MaskLayout.Proofs.Region.Union
import MaskLayout.Proofs.Success

/-!
# Proper shapes

Shapes as cells hold them. A shape that has passed the checks of its kind has points, so its box is not empty, and a
placed shape has the box of its placed points.
-/

namespace MaskLayout

namespace Rect

theorem transform_identity (r : Rect) : r.transform .identity = r := by
  obtain ⟨⟨_, _⟩, ⟨_, _⟩, hx, hy⟩ := r
  simp only [transform, Transform.apply_identity, ofCorners, mk.injEq, Point.mk.injEq]
  simp only at hx hy
  omega

theorem eq_of_toBox {r r' : Rect} (h : r.toBox = r'.toBox) : r = r' := by
  obtain ⟨lo, hi, hx, hy⟩ := r
  obtain ⟨lo', hi', hx', hy'⟩ := r'
  simp only [toBox, Box.mk.injEq] at h
  simp only [mk.injEq]
  exact h

/-- A rectangle is placed as its box is. -/
theorem toBox_transform (r : Rect) (t : Transform) : (r.transform t).toBox = r.toBox.transform t := by
  have hr : r.toBox.isEmpty = false := Box.isEmpty_eq_false_iff.2 ⟨r.x_le, r.y_le⟩
  rw [Box.transform, if_neg (by simp [hr])]
  rfl

theorem transform_cascade (r : Rect) (t u : Transform) :
    r.transform (t.cascade u) = (r.transform u).transform t := by
  apply eq_of_toBox
  rw [toBox_transform, toBox_transform, toBox_transform, Box.transform_cascade]

end Rect

namespace Loop

theorem transform_identity (l : Loop) : l.transform .identity = l := by
  rw [transform, List.map_congr_left fun p _ => Transform.apply_identity p, List.map_id']

theorem transform_cascade (l : Loop) (t u : Transform) :
    l.transform (t.cascade u) = (l.transform u).transform t := by
  simp only [transform, List.map_map]
  exact List.map_congr_left fun p _ => Transform.apply_cascade t u p

theorem box_le_iff {l : Loop} {u : Box} : l.box ≤ u ↔ Box.empty ≤ u ∧ ∀ p ∈ l, Box.ofPoint p ≤ u := by
  rw [box, Box.ofPoints, Box.unionAll_le_iff, List.forall_mem_map]

end Loop

namespace LoopKind

/-- A loop that a check accepts is answered as it is. -/
theorem check_of_check {kind : LoopKind} {l l' : Loop} (h : kind.check l = .ok l') : kind.check l' = .ok l' := by
  obtain ⟨rfl, -⟩ := check_iff.1 h
  exact h

theorem ne_nil_of_check {kind : LoopKind} {l : Loop} (h : kind.check l = .ok l) : l ≠ [] := by
  rintro rfl
  cases kind <;> cases h

end LoopKind

namespace Shape

/-- Whether a shape has passed the checks of its kind. -/
def Valid : Shape → Prop
  | rect _ => True
  | poly90 l => LoopKind.rectilinear.check l = .ok l
  | poly45 l => LoopKind.diagonal.check l = .ok l
  | poly45Set ls => ls ≠ [] ∧ ∀ l ∈ ls, LoopKind.diagonal.check l = .ok l
  | poly l => LoopKind.any.check l = .ok l

/-- The corners of a shape. -/
def points : Shape → List Point
  | rect r => [r.lo, r.hi]
  | poly90 l => l
  | poly45 l => l
  | poly45Set ls => ls.flatten
  | poly l => l

/-- What placements keep of a valid shape: it has points, and it is rectilinear if its mode says so. -/
structure Proper (s : Shape) : Prop where
  points : s.points ≠ []
  rectilinear : s.mode = .poly90 → s.Rectilinear

theorem proper_rect (r : Rect) : (rect r).Proper := ⟨List.cons_ne_nil _ _, fun _ => trivial⟩

theorem Valid.proper {s : Shape} (h : s.Valid) : s.Proper := by
  cases s with
  | rect r => exact proper_rect r
  | poly90 l => exact ⟨LoopKind.ne_nil_of_check h, fun _ => rectilinear_poly90 h⟩
  | poly45 l => exact ⟨LoopKind.ne_nil_of_check h, fun h => by cases h⟩
  | poly45Set ls =>
      obtain ⟨hne, hls⟩ := h
      obtain ⟨l, hl⟩ := List.exists_mem_of_ne_nil ls hne
      refine ⟨fun hnil => LoopKind.ne_nil_of_check (hls l hl) ?_, fun h => by cases h⟩
      exact List.flatten_eq_nil_iff.1 hnil l hl
  | poly l => exact ⟨LoopKind.ne_nil_of_check h, fun h => by cases h⟩

variable {s : Shape} {u : Box}

theorem mode_transform (s : Shape) (t : Transform) : (s.transform t).mode = s.mode := by
  cases s <;> rfl

theorem transform_identity (s : Shape) : s.transform .identity = s := by
  cases s <;> simp [transform, Rect.transform_identity, Loop.transform_identity]

theorem transform_cascade (s : Shape) (t u : Transform) :
    s.transform (t.cascade u) = (s.transform u).transform t := by
  cases s <;> simp [transform, Rect.transform_cascade, Loop.transform_cascade]

theorem points_transform_le_iff (s : Shape) (t : Transform) :
    (∀ p ∈ (s.transform t).points, Box.ofPoint p ≤ u) ↔ ∀ p ∈ s.points, Box.ofPoint (t.apply p) ≤ u := by
  cases s with
  | rect r =>
      simp only [transform, points, List.forall_mem_cons, Box.ofPoint_le_iff, Rect.transform, Rect.ofCorners,
        List.not_mem_nil, false_imp_iff, implies_true, and_true]
      omega
  | poly90 l => exact List.forall_mem_map
  | poly45 l => exact List.forall_mem_map
  | poly45Set ls =>
      simp only [transform, points, List.mem_flatten, List.mem_map, forall_exists_index, and_imp,
        forall_apply_eq_imp_iff₂, Loop.transform]
      constructor
      · intro h p l hl hp
        exact h _ l hl p hp rfl
      · rintro h _ l hl p hp rfl
        exact h p l hl hp
  | poly l => exact List.forall_mem_map

theorem Proper.transform (h : s.Proper) (t : Transform) : (s.transform t).Proper where
  points := by
    have hs := h.points
    cases s with
    | rect r => exact List.cons_ne_nil _ _
    | poly90 l => exact mt List.map_eq_nil_iff.1 hs
    | poly45 l => exact mt List.map_eq_nil_iff.1 hs
    | poly45Set ls =>
        simpa [Shape.transform, Shape.points, Loop.transform, List.flatten_eq_nil_iff] using hs
    | poly l => exact mt List.map_eq_nil_iff.1 hs
  rectilinear hmode := (h.rectilinear (mode_transform s t ▸ hmode)).transform t

theorem box_le_iff (hu : Box.empty ≤ u) : s.box ≤ u ↔ ∀ p ∈ s.points, Box.ofPoint p ≤ u := by
  cases s with
  | rect r =>
      have hr : r.toBox.isEmpty = false := Box.isEmpty_eq_false_iff.2 ⟨r.x_le, r.y_le⟩
      simp only [box, points, List.forall_mem_cons, List.not_mem_nil, false_imp_iff, implies_true, and_true]
      exact Box.le_iff_corners hr
  | poly90 l => exact Loop.box_le_iff.trans (and_iff_right hu)
  | poly45 l => exact Loop.box_le_iff.trans (and_iff_right hu)
  | poly45Set ls =>
      simp only [box, points, Box.unionAll_le_iff, List.forall_mem_map, Loop.box_le_iff, hu, true_and,
        List.mem_flatten]
      constructor
      · rintro h p ⟨l, hl, hp⟩
        exact h l hl p hp
      · exact fun h l hl p hp => h p ⟨l, hl, hp⟩
  | poly l => exact Loop.box_le_iff.trans (and_iff_right hu)

theorem ofPoint_le_box {p : Point} (hp : p ∈ s.points) : Box.ofPoint p ≤ s.box := by
  cases s with
  | rect r =>
      have hr : r.toBox.isEmpty = false := Box.isEmpty_eq_false_iff.2 ⟨r.x_le, r.y_le⟩
      have hcorners := (Box.le_iff_corners hr).1 (le_refl r.toBox)
      simp only [points, List.mem_cons, List.not_mem_nil, or_false] at hp
      rcases hp with rfl | rfl
      · exact hcorners.1
      · exact hcorners.2
  | poly90 l => exact (Loop.box_le_iff.1 (le_refl l.box)).2 p hp
  | poly45 l => exact (Loop.box_le_iff.1 (le_refl l.box)).2 p hp
  | poly45Set ls =>
      obtain ⟨l, hl, hpl⟩ := List.mem_flatten.1 hp
      have hset := (Box.unionAll_le_iff.1 (le_refl (Box.unionAll (ls.map Loop.box)))).2
      exact ((Loop.box_le_iff.1 (le_refl (Loop.box l))).2 p hpl).trans (hset _ (List.mem_map_of_mem hl))
  | poly l => exact (Loop.box_le_iff.1 (le_refl l.box)).2 p hp

theorem isEmpty_box_of_points (h : s.points ≠ []) : s.box.isEmpty = false := by
  obtain ⟨p, hp⟩ := List.exists_mem_of_ne_nil _ h
  exact Box.isEmpty_of_le (ofPoint_le_box hp) (Box.isEmpty_ofPoint p)

theorem Proper.isEmpty_box (h : s.Proper) : s.box.isEmpty = false := isEmpty_box_of_points h.points

/-- Whether all coordinates of a shape are coordinates of a layout. -/
def InRange (s : Shape) : Prop := s.box ≤ Box.everything

instance (s : Shape) : Decidable s.InRange := inferInstanceAs (Decidable (s.box ≤ Box.everything))

/-- The box of a placed shape lies in a box exactly if the box of the shape lies in the one that is moved back. -/
theorem box_transform_le_iff (h : s.Proper) (hrange : s.InRange) (t : Transform) (hu : Box.empty ≤ u) :
    (s.transform t).box ≤ u ↔ s.box ≤ u.transform t.invert := by
  rw [box_le_iff hu, points_transform_le_iff]
  simp only [Box.ofPoint_apply_le_iff]
  constructor
  · intro hpoints
    obtain ⟨p, hp⟩ := List.exists_mem_of_ne_nil _ h.points
    refine (box_le_iff ?_).2 hpoints
    exact Box.empty_le_of_ofPoint_le ((ofPoint_le_box hp).trans hrange) (hpoints p hp)
  · exact fun hbox p hp => (ofPoint_le_box hp).trans hbox

end Shape

end MaskLayout
