import MaskLayout.Proofs.Plane.Hull
import MaskLayout.Proofs.Plane.Placement
import Mathlib.Data.Set.Insert

/-!
# Boxes as sets of points

Boxes as sets of points. Intersections, expansions and placements of boxes act on their points. Unions do so as long as
a box without points is the empty box; a box that is shrunk until it turns inside out has no points and is not the empty
box, and unions take its corners for points.
-/

namespace MaskLayout

namespace Box

/-- The points of a box. -/
def points (b : Box) : Set Point := {p | b.contains p = true}

/-- `b.IsHull s` says that `b` is a box around the points of `s` and that every other one has all points of `b`. -/
structure IsHull (b : Box) (s : Set Point) : Prop where
  around : s ⊆ b.points
  least : ∀ u : Box, s ⊆ u.points → b.points ⊆ u.points

/-- Whether a box has points or is the empty box. -/
def Normal (b : Box) : Prop := b.isEmpty = true → b = empty

/-- Whether all coordinates of a box, with or without points, are coordinates of a layout. -/
def InLayout (b : Box) : Prop := empty ≤ b ∧ b ≤ everything

instance : DecidablePred InLayout := fun b => inferInstanceAs (Decidable (empty ≤ b ∧ b ≤ everything))

variable {b c u : Box} {p : Point} {dx dy : Int}

theorem mem_points_iff : p ∈ b.points ↔ ofPoint p ≤ b := by
  simp only [points, contains, Set.mem_ofPred_eq, Bool.and_eq_true, decide_eq_true_eq, ofPoint_le_iff]
  tauto

theorem lo_mem_points (hb : b.isEmpty = false) : b.lo ∈ b.points :=
  mem_points_iff.2 ((le_iff_corners hb).1 (le_refl b)).1

theorem points_eq_empty_iff : b.points = ∅ ↔ b.isEmpty = true := by
  constructor
  · intro h
    by_contra hne
    have hlo := lo_mem_points (Bool.eq_false_iff.2 hne)
    rw [h] at hlo
    exact hlo
  · intro h
    exact Set.eq_empty_of_forall_notMem fun p hp => not_ofPoint_le_of_isEmpty h p (mem_points_iff.1 hp)

theorem points_subset_of_le (h : b ≤ c) : b.points ⊆ c.points :=
  fun _ hp => mem_points_iff.2 ((mem_points_iff.1 hp).trans h)

/-- A box with points is known from its points. -/
theorem points_subset_iff (hb : b.isEmpty = false) : b.points ⊆ c.points ↔ b ≤ c := by
  constructor
  · intro h
    obtain ⟨hlo, hhi⟩ := (le_iff_corners hb).1 (le_refl b)
    refine (le_iff_corners hb).2 ⟨?_, ?_⟩
    · exact mem_points_iff.1 (h (mem_points_iff.2 hlo))
    · exact mem_points_iff.1 (h (mem_points_iff.2 hhi))
  · exact points_subset_of_le

/-- Among the boxes with points, an intersection is the largest box within both. -/
theorem le_intersection_iff (hu : u.isEmpty = false) : u ≤ b.intersection c ↔ u ≤ b ∧ u ≤ c := by
  rw [isEmpty_eq_false_iff] at hu
  rw [intersection]
  split <;> rename_i h
  · simp only [le_def, empty, farHigh, farLow] at h ⊢
    omega
  · simp only [le_def] at h ⊢
    omega

theorem points_intersection (b c : Box) : (b.intersection c).points = b.points ∩ c.points := by
  ext p
  rw [Set.mem_inter_iff, mem_points_iff, mem_points_iff, mem_points_iff, le_intersection_iff (isEmpty_ofPoint p)]

theorem intersects_iff : b.intersects c = true ↔ (b.intersection c).isEmpty = false := by
  simp only [intersects, Bool.and_eq_true, Bool.not_eq_true', isEmpty_eq_false_iff, decide_eq_true_eq]
  rw [intersection]
  split <;> rename_i h
  · simp only [empty, farHigh, farLow] at h ⊢
    omega
  · simp only at h ⊢
    omega

theorem expandXY_of_isEmpty (h : b.isEmpty = true) (dx dy : Int) : b.expandXY dx dy = b := if_pos h

theorem union_comm (b c : Box) : b.union c = c.union b := by
  apply le_antisymm
  · exact union_le_iff.2 ⟨le_union_right c b, le_union_left c b⟩
  · exact union_le_iff.2 ⟨le_union_right b c, le_union_left b c⟩

theorem union_eq_right (h : b ≤ c) : b.union c = c :=
  le_antisymm (union_le_iff.2 ⟨h, le_refl c⟩) (le_union_right b c)

theorem normal_intersection (b c : Box) : (b.intersection c).Normal := by
  intro h
  rw [intersection] at h ⊢
  split
  · rfl
  · rename_i hnot
    rw [if_neg hnot] at h
    simp only [isEmpty, Bool.or_eq_true, decide_eq_true_eq] at h
    exact absurd h hnot

theorem normal_transform (b : Box) (t : Transform) : (b.transform t).Normal := by
  intro h
  rw [isEmpty_transform] at h
  exact transform_of_isEmpty h t

/-- Boxes in normal form are known from their points. -/
theorem Normal.eq_of_points (hb : b.Normal) (hc : c.Normal) (h : b.points = c.points) : b = c := by
  cases hbe : b.isEmpty with
  | true =>
      have hce : c.isEmpty = true := by rw [← points_eq_empty_iff, ← h, points_eq_empty_iff, hbe]
      rw [hb hbe, hc hce]
  | false =>
      have hce : c.isEmpty = false := isEmpty_of_le ((points_subset_iff hbe).1 h.subset) hbe
      exact le_antisymm ((points_subset_iff hbe).1 h.subset) ((points_subset_iff hce).1 h.superset)

section Transform

variable {s : Set Point} (t u : Transform)

/-- A placed point lies in a placed box exactly if the point lies in the box. -/
theorem apply_mem_points_iff : t.apply p ∈ (b.transform t).points ↔ p ∈ b.points := by
  have hback := ofPoint_apply_le_iff (u := b) t.invert (t.apply p)
  have hpoint : t.invert.apply (t.apply p) = p := inv_smul_smul t p
  have hbox : t.invert.invert = t := inv_inv t
  rw [hpoint, hbox] at hback
  rw [mem_points_iff, mem_points_iff, hback]

/-- The points of a placed box are the placed points. -/
theorem points_transform (b : Box) : (b.transform t).points = t.apply '' b.points := by
  ext p
  have hp : t.apply (t.invert.apply p) = p := smul_inv_smul t p
  constructor
  · intro h
    refine ⟨t.invert.apply p, ?_, hp⟩
    rwa [← apply_mem_points_iff t, hp]
  · rintro ⟨q, hq, rfl⟩
    exact (apply_mem_points_iff t).2 hq

theorem transform_cascade (b : Box) : b.transform (t.cascade u) = (b.transform u).transform t := by
  apply (normal_transform _ _).eq_of_points (normal_transform _ _)
  rw [points_transform, points_transform, points_transform, Set.image_image]
  exact Set.image_congr' fun p => Transform.apply_cascade t u p

/-- A placed box that is moved further is the box whose placement is moved. -/
theorem transform_translate (b : Box) (t : Transform) (d : Point) :
    (b.transform t).transform (.translate d) = b.transform (t.moveBy d) := by
  rw [← transform_cascade, Transform.translate_cascade]

/-- A box around placed points is, moved back, a box around the points. -/
theorem image_subset_points_iff : t.apply '' s ⊆ c.points ↔ s ⊆ (c.transform t.invert).points := by
  rw [Set.image_subset_iff]
  refine forall₂_congr fun p _ => ?_
  rw [Set.mem_preimage, mem_points_iff, mem_points_iff, ofPoint_apply_le_iff]

theorem IsHull.transform (h : b.IsHull s) : (b.transform t).IsHull (t.apply '' s) where
  around := by
    rw [points_transform]
    exact Set.image_mono h.around
  least u hu := by
    rw [points_transform]
    rw [image_subset_points_iff] at hu ⊢
    exact h.least _ hu

end Transform

/-- Least boxes around points depend on the points only by the boxes around them. -/
theorem IsHull.points_eq {s s' : Set Point} (h : b.IsHull s) (h' : c.IsHull s')
    (hs : ∀ u : Box, s ⊆ u.points ↔ s' ⊆ u.points) : b.points = c.points := by
  apply Set.Subset.antisymm
  · exact h.least c ((hs c).2 h'.around)
  · exact h'.least b ((hs b).1 h.around)

section Union

theorem InLayout.union (hb : b.InLayout) (hc : c.InLayout) : (b.union c).InLayout :=
  ⟨hb.1.trans (le_union_left b c), union_le_iff.2 ⟨hb.2, hc.2⟩⟩

theorem InLayout.intersection (hb : b.InLayout) (hc : c.InLayout) : (b.intersection c).InLayout := by
  rw [Box.intersection]
  split
  · decide
  · simp only [InLayout, le_def, empty, everything, farHigh, farLow] at hb hc ⊢
    omega

/-- The empty box is neutral for unions with boxes of a layout. -/
theorem empty_union (hc : c.InLayout) : empty.union c = c := union_eq_right hc.1

/-- The union of boxes that have points or are the empty box is the least box around the points of both. -/
theorem isHull_union (hb : b.Normal) (hc : c.Normal) (hlb : b.InLayout) (hlc : c.InLayout) :
    (b.union c).IsHull (b.points ∪ c.points) where
  around := Set.union_subset (points_subset_of_le (le_union_left b c)) (points_subset_of_le (le_union_right b c))
  least u hu := by
    -- The empty box drops out of the union, and boxes with points are known from them.
    obtain ⟨hbu, hcu⟩ := Set.union_subset_iff.1 hu
    cases hbe : b.isEmpty with
    | true => rwa [hb hbe, empty_union hlc]
    | false =>
        cases hce : c.isEmpty with
        | true => rwa [hc hce, union_comm, empty_union hlb]
        | false =>
            apply points_subset_of_le
            exact union_le_iff.2 ⟨(points_subset_iff hbe).1 hbu, (points_subset_iff hce).1 hcu⟩

/-- Placements keep unions of boxes of a layout that have points or are the empty box. -/
theorem transform_union {t : Transform} (hb : b.Normal) (hc : c.Normal) (hlb : b.InLayout) (hlc : c.InLayout)
    (hlbt : (b.transform t).InLayout) (hlct : (c.transform t).InLayout) :
    (b.union c).transform t = (b.transform t).union (c.transform t) := by
  cases hbe : b.isEmpty with
  | true => rw [transform_of_isEmpty hbe, empty_union hlct, hb hbe, empty_union hlc]
  | false =>
      cases hce : c.isEmpty with
      | true =>
          rw [transform_of_isEmpty hce, union_comm (b.transform t), empty_union hlbt, hc hce, union_comm b,
            empty_union hlb]
      | false =>
          refine eq_of_forall_ge_iff fun u => ?_
          have hne : (b.union c).isEmpty = false := isEmpty_of_le (le_union_left b c) hbe
          rw [transform_le_iff hne, union_le_iff, union_le_iff, transform_le_iff hbe, transform_le_iff hce]

/-- A box that is neutral for unions with the points at two opposite corners of the layout is the empty box. -/
theorem eq_empty_of_neutral (hlayout : b.InLayout)
    (hhigh : (b.union (ofPoint ⟨farHigh, farHigh⟩)).points = (ofPoint ⟨farHigh, farHigh⟩).points)
    (hlow : (b.union (ofPoint ⟨farLow, farLow⟩)).points = (ofPoint ⟨farLow, farLow⟩).points) : b = empty := by
  have hle {d : Point} (h : (b.union (ofPoint d)).points = (ofPoint d).points) : b ≤ ofPoint d := by
    have hne := isEmpty_of_le (le_union_right b (ofPoint d)) (isEmpty_ofPoint d)
    exact (le_union_left b (ofPoint d)).trans ((points_subset_iff hne).1 h.subset)
  have h1 := hle hhigh
  have h2 := hle hlow
  have h3 := hlayout.1
  apply le_antisymm
  · simp only [le_def, ofPoint, empty] at h1 h2 ⊢
    omega
  · exact h3

end Union

section Obtained

/-- Whether growing a box leaves it with points if it has some. -/
def Survives (b : Box) (dx dy : Int) : Prop := b.isEmpty = false → (b.expandXY dx dy).isEmpty = false

/-- `Obtained allowed b` says that `b` is made from points and from the empty box by growing and placing boxes and by
their unions and intersections. All coordinates on the way are coordinates of a layout, and `allowed` says which boxes
are grown by which amounts. -/
inductive Obtained (allowed : Box → Int → Int → Prop) : Box → Prop
  | empty : Obtained allowed .empty
  | ofPoint (p : Point) (h : (ofPoint p).InLayout) : Obtained allowed (.ofPoint p)
  | ofCorners (p q : Point) (h : (ofCorners p q).InLayout) : Obtained allowed (.ofCorners p q)
  | expandXY {b : Box} {dx dy : Int} (hb : Obtained allowed b) (ha : allowed b dx dy) (h : (b.expandXY dx dy).InLayout) :
      Obtained allowed (b.expandXY dx dy)
  | union {b c : Box} (hb : Obtained allowed b) (hc : Obtained allowed c) : Obtained allowed (b.union c)
  | intersection {b c : Box} (hb : Obtained allowed b) (hc : Obtained allowed c) : Obtained allowed (b.intersection c)
  | transform {b : Box} (hb : Obtained allowed b) (t : Transform) (h : (b.transform t).InLayout) :
      Obtained allowed (b.transform t)

variable {allowed : Box → Int → Int → Prop}

theorem Normal.union (hb : b.Normal) (hc : c.Normal) : (b.union c).Normal := by
  intro h
  have hempty {d : Box} (hd : d ≤ b.union c) : d.isEmpty = true := by
    by_contra hne
    have := isEmpty_of_le hd (Bool.eq_false_iff.2 hne)
    simp [h] at this
  rw [hb (hempty (le_union_left b c)), hc (hempty (le_union_right b c))]
  rfl

theorem Normal.expandXY (hb : b.Normal) (h : b.Survives dx dy) : (b.expandXY dx dy).Normal := by
  cases hbe : b.isEmpty with
  | true => rwa [expandXY_of_isEmpty hbe]
  | false =>
      intro hempty
      rw [h hbe] at hempty
      cases hempty

theorem Obtained.inLayout (h : Obtained allowed b) : b.InLayout := by
  induction h with
  | empty => decide
  | ofPoint p h => exact h
  | ofCorners p q h => exact h
  | expandXY hb ha h ih => exact h
  | union hb hc ihb ihc => exact ihb.union ihc
  | intersection hb hc ihb ihc => exact ihb.intersection ihc
  | transform hb t h ih => exact h

/-- As long as no box is turned inside out, every box without points is the empty box. -/
theorem Obtained.normal (h : Obtained allowed b) (hall : ∀ d dx dy, allowed d dx dy → d.Survives dx dy) : b.Normal := by
  induction h with
  | empty => exact fun _ => rfl
  | ofPoint p h => simp [Normal, isEmpty_ofPoint]
  | ofCorners p q h => simp [Normal, isEmpty_ofCorners]
  | expandXY hb ha h ih => exact ih.expandXY (hall _ _ _ ha)
  | union hb hc ihb ihc => exact ihb.union ihc
  | intersection hb hc ihb ihc => exact normal_intersection _ _
  | transform hb t h ih => exact normal_transform _ t

/-- Obtained boxes act as their points. A box is empty exactly if it has no points; then its intersections and
placements are empty, and it stays empty when it is grown. An intersection has the common points, and boxes meet exactly
if it is not empty. The union of two boxes is the least box around the points of both, unless one of them has no points
and is not the empty box; such a box is never neutral for unions, and it takes growing a box until it turns inside out
to get one. -/
theorem Obtained.acts_on_points (hb : Obtained allowed b) (hc : Obtained allowed c) :
    (b.isEmpty = true ↔ b.points = ∅) ∧
    (b.Normal → c.Normal → (b.union c).IsHull (b.points ∪ c.points)) ∧
    (b.isEmpty = true → b.Normal → (b.union c).points = c.points ∧ (c.union b).points = c.points) ∧
    (b.isEmpty = true → ¬ b.Normal → ∃ d, Obtained allowed d ∧ (b.union d).points ≠ d.points) ∧
    ((∀ d dx dy, allowed d dx dy → d.Survives dx dy) → b.Normal ∧ c.Normal) ∧
    (b.isEmpty = true → (b.intersection c).isEmpty = true ∧ (c.intersection b).isEmpty = true ∧
      (∀ t, (b.transform t).isEmpty = true) ∧ ∀ dx dy, (b.expandXY dx dy).isEmpty = true) ∧
    (b.intersection c).points = b.points ∩ c.points ∧
    (b.intersects c = true ↔ (b.intersection c).isEmpty = false) := by
  refine ⟨points_eq_empty_iff.symm, ?_, ?_, ?_, fun hall => ⟨hb.normal hall, hc.normal hall⟩, ?_,
    points_intersection b c, intersects_iff⟩
  · intro hnb hnc
    exact isHull_union hnb hnc hb.inLayout hc.inLayout
  · intro hbe hnb
    rw [hnb hbe, union_comm c, empty_union hc.inLayout]
    exact ⟨rfl, rfl⟩
  · intro hbe hnb
    -- Two points at opposite corners of the layout tell all other boxes from the empty one.
    by_contra hall
    push Not at hall
    refine hnb fun _ => eq_empty_of_neutral hb.inLayout ?_ ?_
    · exact hall _ (.ofPoint ⟨farHigh, farHigh⟩ (by decide))
    · exact hall _ (.ofPoint ⟨farLow, farLow⟩ (by decide))
  · intro hbe
    have hnone : b.points = ∅ := points_eq_empty_iff.2 hbe
    refine ⟨?_, ?_, fun t => ?_, fun dx dy => ?_⟩
    · rw [← points_eq_empty_iff, points_intersection, hnone, Set.empty_inter]
    · rw [← points_eq_empty_iff, points_intersection, hnone, Set.inter_empty]
    · rw [isEmpty_transform, hbe]
    · rw [expandXY_of_isEmpty hbe, hbe]

/-- A square of side ten, shrunk by six on all sides. -/
def insideOut : Box := (ofCorners ⟨0, 0⟩ ⟨10, 10⟩).expand (-6)

/-- The box that is turned inside out has no points, and with it the union with a square has points outside of that. -/
theorem union_insideOut :
    Obtained (fun _ _ _ => True) insideOut ∧ insideOut.isEmpty = true ∧
      Obtained (fun _ _ _ => True) (ofCorners ⟨20, 20⟩ ⟨30, 30⟩) ∧
      (insideOut.union (ofCorners ⟨20, 20⟩ ⟨30, 30⟩)).points ≠ (ofCorners ⟨20, 20⟩ ⟨30, 30⟩).points := by
  refine ⟨.expandXY (.ofCorners ⟨0, 0⟩ ⟨10, 10⟩ (by decide)) trivial (by decide), by decide,
    .ofCorners ⟨20, 20⟩ ⟨30, 30⟩ (by decide), fun h => ?_⟩
  have hmem : (⟨6, 6⟩ : Point) ∈ (insideOut.union (ofCorners ⟨20, 20⟩ ⟨30, 30⟩)).points := by
    rw [mem_points_iff]
    decide
  rw [h, mem_points_iff] at hmem
  revert hmem
  decide

/-- The same square, shrunk to a line across and grown along it. -/
def slit : Box := (ofCorners ⟨0, 0⟩ ⟨10, 10⟩).expandXY (-5) 2

/-- The union of a point with the empty box, turned by a quarter. -/
def turnedPoint : Box := (empty.union (ofPoint ⟨7, -3⟩)).transform ⟨⟨1, 0⟩, .r90⟩

theorem acts_on_points_slit :
    Obtained Survives slit ∧ Obtained Survives turnedPoint ∧ slit.union turnedPoint = ⟨⟨4, -2⟩, ⟨5, 12⟩⟩ ∧
      (slit.union turnedPoint).IsHull (slit.points ∪ turnedPoint.points) := by
  have hslit : Obtained Survives slit :=
    .expandXY (.ofCorners ⟨0, 0⟩ ⟨10, 10⟩ (by decide)) (fun _ => by decide) (by decide)
  have hpoint : Obtained Survives turnedPoint :=
    .transform (.union .empty (.ofPoint ⟨7, -3⟩ (by decide))) ⟨⟨1, 0⟩, .r90⟩ (by decide)
  obtain ⟨-, hunion, -, -, hnormal, -⟩ := hslit.acts_on_points hpoint
  obtain ⟨hns, hnp⟩ := hnormal fun _ _ _ h => h
  exact ⟨hslit, hpoint, rfl, hunion hns hnp⟩

end Obtained

end Box

end MaskLayout
