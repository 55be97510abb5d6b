import MaskLayout.Plane.Rect

/-!
# Unit squares

Unit squares of the grid, named by their lower left corners, and how placements move them. A rectangle is as good
as the set of squares that it covers, and placements commute with that view.
-/

namespace MaskLayout

namespace Orientation

/-- The product of placements has the product of their matrices. -/
theorem matrix_mul (p q : Orientation) : (p.mul q).matrix = p.matrix.mul q.matrix := by
  cases p <;> cases q <;> rfl

theorem matrix_inv (p : Orientation) : p.inv.matrix = p.matrix.transpose := by
  cases p <;> rfl

theorem mul_inv (p : Orientation) : p.mul p.inv = r0 := by
  cases p <;> rfl

end Orientation

namespace Matrix2

theorem act_mul (m n : Matrix2) (p : Point) : (m.mul n).act p = m.act (n.act p) := by
  apply Point.ext
  · simp only [mul, act]
    grind
  · simp only [mul, act]
    grind

theorem act_add (m : Matrix2) (p q : Point) : m.act (p + q) = m.act p + m.act q := by
  apply Point.ext
  · simp only [act, Point.add_x, Point.add_y]
    grind
  · simp only [act, Point.add_x, Point.add_y]
    grind

theorem act_sub (m : Matrix2) (p q : Point) : m.act (p - q) = m.act p - m.act q := by
  apply Point.ext
  · simp only [act, Point.sub_x, Point.sub_y]
    grind
  · simp only [act, Point.sub_x, Point.sub_y]
    grind

end Matrix2

namespace Transform

@[simp] theorem apply_identity (p : Point) : identity.apply p = p := by
  apply Point.ext <;> simp [apply, identity, Orientation.matrix, Matrix2.act]

theorem apply_cascade (t u : Transform) (p : Point) :
    (t.cascade u).apply p = t.apply (u.apply p) := by
  simp only [apply, cascade, Orientation.matrix_mul, Matrix2.act_mul, Matrix2.act_add]
  apply Point.ext
  · simp only [Point.add_x]
    omega
  · simp only [Point.add_y]
    omega

theorem apply_translate (d p : Point) : (translate d).apply p = p + d := by
  cases p
  cases d
  simp [apply, translate, Orientation.matrix, Matrix2.act]

theorem apply_moveBy (t : Transform) (d p : Point) : (t.moveBy d).apply p = t.apply p + d := by
  apply Point.ext
  · simp only [apply, moveBy, Point.add_x]
    omega
  · simp only [apply, moveBy, Point.add_y]
    omega

/-- The move does not matter for what lies between two points. -/
theorem apply_sub_apply (t : Transform) (p q : Point) : t.apply q - t.apply p = t.orient.matrix.act (q - p) := by
  rw [Matrix2.act_sub]
  apply Point.ext
  · simp only [apply, Point.add_x, Point.sub_x]
    omega
  · simp only [apply, Point.add_y, Point.sub_y]
    omega

theorem cascade_invert (t : Transform) : t.cascade t.invert = identity := by
  obtain ⟨⟨x, y⟩, o⟩ := t
  simp only [cascade, invert, Orientation.mul_inv, identity, mk.injEq, and_true]
  apply Point.ext
  · cases o <;>
      (simp only [apply, Orientation.matrix, Matrix2.act, Matrix2.transpose, Point.add_x, Point.neg_x, Point.neg_y,
        Point.zero_x]
       omega)
  · cases o <;>
      (simp only [apply, Orientation.matrix, Matrix2.act, Matrix2.transpose, Point.add_y, Point.neg_x, Point.neg_y,
        Point.zero_y]
       omega)

/-- The lower left corner of the image of the unit square with lower left corner `c`. -/
def square (t : Transform) (c : Point) : Point :=
  (Rect.ofCorners (t.apply c) (t.apply (c + ⟨1, 1⟩))).lo

@[simp] theorem square_identity (c : Point) : identity.square c = c := by
  apply Point.ext
  · simp only [square, Rect.ofCorners, apply_identity, Point.add_x]
    omega
  · simp only [square, Rect.ofCorners, apply_identity, Point.add_y]
    omega

/-- Placed opposite corners of a unit square are opposite corners of one. -/
theorem apply_diagonal (t : Transform) (c : Point) :
    ((t.apply (c + ⟨1, 1⟩)).x = (t.apply c).x + 1 ∨ (t.apply (c + ⟨1, 1⟩)).x = (t.apply c).x - 1) ∧
    ((t.apply (c + ⟨1, 1⟩)).y = (t.apply c).y + 1 ∨ (t.apply (c + ⟨1, 1⟩)).y = (t.apply c).y - 1) := by
  obtain ⟨d, o⟩ := t
  cases o <;>
    (simp only [apply, Orientation.matrix, Matrix2.act, Point.add_x, Point.add_y]
     omega)

theorem square_of_diagonal (t : Transform) {p q : Point} (hx : q.x = p.x + 1 ∨ q.x = p.x - 1)
    (hy : q.y = p.y + 1 ∨ q.y = p.y - 1) :
    t.square (Rect.ofCorners p q).lo = (Rect.ofCorners (t.apply p) (t.apply q)).lo := by
  obtain ⟨d, o⟩ := t
  cases o <;>
    (simp only [square, Rect.ofCorners, apply, Orientation.matrix, Matrix2.act, Point.add_x, Point.add_y,
      Point.mk.injEq]
     omega)

theorem square_cascade (t u : Transform) (c : Point) :
    (t.cascade u).square c = t.square (u.square c) := by
  obtain ⟨hx, hy⟩ := u.apply_diagonal c
  calc
    (t.cascade u).square c = (Rect.ofCorners (t.apply (u.apply c)) (t.apply (u.apply (c + ⟨1, 1⟩)))).lo := by
      rw [square, apply_cascade, apply_cascade]
    _ = t.square (u.square c) := (t.square_of_diagonal hx hy).symm

theorem square_invert (t : Transform) (c : Point) : t.square (t.invert.square c) = c := by
  rw [← square_cascade, cascade_invert, square_identity]

end Transform

namespace Rect

/-- Whether a rectangle covers the unit square with lower left corner `c`. -/
def Covers (r : Rect) (c : Point) : Prop :=
  r.lo.x ≤ c.x ∧ c.x < r.hi.x ∧ r.lo.y ≤ c.y ∧ c.y < r.hi.y

instance (r : Rect) (c : Point) : Decidable (r.Covers c) :=
  inferInstanceAs (Decidable (_ ∧ _ ∧ _ ∧ _))

theorem covers_ofCoords (x0 y0 x1 y1 : Int) (c : Point) :
    (ofCoords x0 y0 x1 y1).Covers c ↔
      min x0 x1 ≤ c.x ∧ c.x < max x0 x1 ∧ min y0 y1 ≤ c.y ∧ c.y < max y0 y1 := Iff.rfl

/-- A placed rectangle covers the placed squares. -/
theorem covers_transform (r : Rect) (t : Transform) (c : Point) :
    (r.transform t).Covers (t.square c) ↔ r.Covers c := by
  obtain ⟨lo, hi, hx, hy⟩ := r
  obtain ⟨d, o⟩ := t
  simp only [Covers, transform, ofCorners, Transform.square]
  cases o <;> simp [Transform.apply, Orientation.matrix, Matrix2.act] <;> omega

/-- A rectangle has positive sizes exactly if it covers some square. -/
theorem exists_covers (r : Rect) : (∃ c, r.Covers c) ↔ 0 < r.width ∧ 0 < r.height := by
  simp only [Covers, width, height]
  constructor
  · rintro ⟨c, h1, h2, h3, h4⟩
    omega
  · intro h
    exact ⟨r.lo, by omega⟩

theorem sizes_transform (r : Rect) (t : Transform) (h : 0 < r.width ∧ 0 < r.height) :
    0 < (r.transform t).width ∧ 0 < (r.transform t).height := by
  obtain ⟨c, hc⟩ := (exists_covers r).2 h
  exact (exists_covers _).1 ⟨t.square c, (covers_transform r t c).2 hc⟩

end Rect

end MaskLayout
