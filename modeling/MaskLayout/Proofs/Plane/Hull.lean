import MaskLayout.Proofs.Plane.Square
import Mathlib.Order.Basic

/-!
# Boxes in order

Boxes ordered by inclusion of their corners, empty ones included. The union of boxes is the least box around them,
and a placement keeps the order, so the union of placed boxes is found from the unplaced ones.
-/

namespace MaskLayout

namespace Box

/-- One box lies within another. -/
instance : LE Box :=
  ⟨fun b c => c.lo.x ≤ b.lo.x ∧ c.lo.y ≤ b.lo.y ∧ b.hi.x ≤ c.hi.x ∧ b.hi.y ≤ c.hi.y⟩

theorem le_def {b c : Box} :
    b ≤ c ↔ c.lo.x ≤ b.lo.x ∧ c.lo.y ≤ b.lo.y ∧ b.hi.x ≤ c.hi.x ∧ b.hi.y ≤ c.hi.y := Iff.rfl

instance (b c : Box) : Decidable (b ≤ c) := decidable_of_iff _ le_def.symm

instance : PartialOrder Box where
  le_refl b := ⟨Int.le_refl _, Int.le_refl _, Int.le_refl _, Int.le_refl _⟩
  le_trans b c d hbc hcd := by
    simp only [le_def] at *
    omega
  le_antisymm b c hbc hcb := by
    obtain ⟨⟨_, _⟩, ⟨_, _⟩⟩ := b
    obtain ⟨⟨_, _⟩, ⟨_, _⟩⟩ := c
    simp only [le_def] at hbc hcb
    simp only [mk.injEq, Point.mk.injEq]
    omega

variable {b c u : Box}

theorem union_le_iff : b.union c ≤ u ↔ b ≤ u ∧ c ≤ u := by
  simp only [le_def, union]
  omega

theorem foldl_union_le_iff {α : Type} {f : α → Box} {l : List α} {acc : Box} :
    l.foldl (fun acc a => (f a).union acc) acc ≤ u ↔ acc ≤ u ∧ ∀ a ∈ l, f a ≤ u := by
  induction l generalizing acc with
  | nil => simp
  | cons a l ih => rw [List.foldl_cons, ih, union_le_iff, List.forall_mem_cons, and_comm (a := f a ≤ u), and_assoc]

theorem unionAll_le_iff {bs : List Box} : unionAll bs ≤ u ↔ empty ≤ u ∧ ∀ b ∈ bs, b ≤ u := foldl_union_le_iff

theorem isEmpty_eq_false_iff : b.isEmpty = false ↔ b.lo.x ≤ b.hi.x ∧ b.lo.y ≤ b.hi.y := by
  simp [isEmpty]

theorem isEmpty_ofCorners (p q : Point) : (ofCorners p q).isEmpty = false := by
  rw [isEmpty_eq_false_iff]
  simp only [ofCorners]
  omega

@[simp] theorem isEmpty_empty : empty.isEmpty = true := rfl

/-- A box that is not empty is the box of one rectangle. -/
theorem toRect?_eq_some_iff {r : Rect} : b.toRect? = some r ↔ r.toBox = b := by
  obtain ⟨⟨_, _⟩, ⟨_, _⟩⟩ := b
  obtain ⟨⟨_, _⟩, ⟨_, _⟩, hx, hy⟩ := r
  simp only at hx hy
  simp only [toRect?, Option.ite_none_left_eq_some, Bool.not_eq_true, isEmpty_eq_false_iff, Option.some.injEq,
    Rect.ofCorners, Rect.toBox, Rect.mk.injEq, Point.mk.injEq, mk.injEq]
  omega

/-- A box around one that is not empty is not empty either. -/
theorem isEmpty_of_le (h : b ≤ c) (hb : b.isEmpty = false) : c.isEmpty = false := by
  rw [isEmpty_eq_false_iff] at *
  rw [le_def] at h
  omega

theorem le_union_left (b c : Box) : b ≤ b.union c := (union_le_iff.1 (le_refl _)).1

theorem le_union_right (b c : Box) : c ≤ b.union c := (union_le_iff.1 (le_refl _)).2

theorem transform_of_isEmpty (h : b.isEmpty = true) (t : Transform) : b.transform t = empty := if_pos h

theorem isEmpty_transform (b : Box) (t : Transform) : (b.transform t).isEmpty = b.isEmpty := by
  cases h : b.isEmpty with
  | true => rw [transform_of_isEmpty h, isEmpty_empty]
  | false => rw [transform, if_neg (by simp [h]), isEmpty_ofCorners]

theorem ofPoint_le_iff {p : Point} :
    ofPoint p ≤ u ↔ u.lo.x ≤ p.x ∧ u.lo.y ≤ p.y ∧ p.x ≤ u.hi.x ∧ p.y ≤ u.hi.y := Iff.rfl

theorem isEmpty_ofPoint (p : Point) : (ofPoint p).isEmpty = false :=
  isEmpty_eq_false_iff.2 ⟨Int.le_refl _, Int.le_refl _⟩

/-- The box of all coordinates of a layout. -/
def everything : Box := ⟨⟨farLow, farLow⟩, ⟨farHigh, farHigh⟩⟩

/-- A box with a point of the layout in it is a box around the empty one. -/
theorem empty_le_of_ofPoint_le {p : Point} (hp : ofPoint p ≤ everything) (h : ofPoint p ≤ u) : empty ≤ u := by
  simp only [ofPoint_le_iff, everything] at hp h
  simp only [le_def, empty]
  omega

theorem le_iff_corners (hb : b.isEmpty = false) : b ≤ u ↔ ofPoint b.lo ≤ u ∧ ofPoint b.hi ≤ u := by
  rw [isEmpty_eq_false_iff] at hb
  simp only [le_def, ofPoint]
  omega

theorem not_ofPoint_le_of_isEmpty (hu : u.isEmpty = true) (p : Point) : ¬ ofPoint p ≤ u :=
  fun h => by simp [isEmpty_of_le h (isEmpty_ofPoint p)] at hu

/-- A placed point lies in a box exactly if the point lies in the box that is moved back. -/
theorem ofPoint_apply_le_iff (t : Transform) (p : Point) :
    ofPoint (t.apply p) ≤ u ↔ ofPoint p ≤ u.transform t.invert := by
  cases hu : u.isEmpty with
  | true =>
      rw [transform_of_isEmpty hu]
      exact iff_of_false (not_ofPoint_le_of_isEmpty hu _) (not_ofPoint_le_of_isEmpty isEmpty_empty _)
  | false =>
      rw [transform, if_neg (by simp [hu])]
      rw [isEmpty_eq_false_iff] at hu
      obtain ⟨⟨x, y⟩, o⟩ := t
      simp only [ofPoint_le_iff, ofCorners, Transform.apply, Transform.invert, Orientation.matrix_inv]
      cases o <;>
        (simp only [Orientation.matrix, Matrix2.act, Matrix2.transpose, Point.add_x, Point.add_y, Point.neg_x,
          Point.neg_y]
         omega)

/-- A placed box lies in a box exactly if the box lies in the one that is moved back. -/
theorem transform_le_iff (hb : b.isEmpty = false) (t : Transform) :
    b.transform t ≤ u ↔ b ≤ u.transform t.invert := by
  have hplaced : (b.transform t).isEmpty = false := by rw [isEmpty_transform, hb]
  have hcorners : b.transform t ≤ u ↔ ofPoint (t.apply b.lo) ≤ u ∧ ofPoint (t.apply b.hi) ≤ u := by
    rw [transform, if_neg (by simp [hb])]
    simp only [le_def, ofPoint, ofCorners]
    omega
  rw [hcorners, ofPoint_apply_le_iff, ofPoint_apply_le_iff, ← le_iff_corners hb]

end Box

end MaskLayout
