import MaskLayout.Proofs.Plane.Compass
import MaskLayout.Proofs.Plane.Square
import Mathlib.Algebra.Group.Action.Faithful
import Mathlib.Algebra.Group.MinimalAxioms

/-!
# The group of placements

Placements as a group of motions of the plane. A placement is known from where it takes three points, so each law of
the group is a law about the images of points.
-/

namespace MaskLayout

namespace Matrix2

/-- A matrix is known from its images of the unit vectors. -/
theorem eq_of_act {m n : Matrix2} (h : ∀ p, m.act p = n.act p) : m = n := by
  obtain ⟨a, b, c, d⟩ := m
  obtain ⟨a', b', c', d'⟩ := n
  have hfirst := h ⟨1, 0⟩
  have hsecond := h ⟨0, 1⟩
  simp only [act, Point.mk.injEq] at hfirst hsecond
  simp only [mk.injEq]
  omega

end Matrix2

namespace Orientation

/-- A matrix is looked up exactly as the orientation that has it. -/
theorem ofMatrix?_eq_some_iff {m : Matrix2} {p : Orientation} : ofMatrix? m = some p ↔ p.matrix = m := by
  constructor
  · intro h
    unfold ofMatrix? at h
    split at h <;> cases h <;> rfl
  · rintro rfl
    cases p <;> rfl

/-- Orientations with equal matrices are equal, since both are what the matrix is looked up as. -/
theorem eq_of_matrix {p q : Orientation} (h : p.matrix = q.matrix) : p = q := by
  have hp : ofMatrix? q.matrix = some p := ofMatrix?_eq_some_iff.2 h
  have hq : ofMatrix? q.matrix = some q := ofMatrix?_eq_some_iff.2 rfl
  exact Option.some.inj (hp.symm.trans hq)

/-- The product of two orientation matrices is found among the eight. -/
theorem ofMatrix?_mul (p q : Orientation) : ofMatrix? (p.matrix.mul q.matrix) = some (p.mul q) :=
  ofMatrix?_eq_some_iff.2 (matrix_mul p q)

/-- The transpose of an orientation matrix is found among the eight. -/
theorem ofMatrix?_transpose (p : Orientation) : ofMatrix? p.matrix.transpose = some p.inv :=
  ofMatrix?_eq_some_iff.2 (matrix_inv p)

end Orientation

namespace Transform

theorem apply_zero (t : Transform) : t.apply 0 = t.loc := by
  apply Point.ext <;> simp [apply, Matrix2.act]

/-- Two placements that agree on all points are equal. -/
theorem eq_of_apply {t u : Transform} (h : ∀ p, t.apply p = u.apply p) : t = u := by
  obtain ⟨d, o⟩ := t
  obtain ⟨e, q⟩ := u
  have hloc : d = e := by simpa only [apply_zero] using h 0
  subst hloc
  have hact (p : Point) : o.matrix.act p = q.matrix.act p := Point.add_left_inj.1 (h p)
  rw [Orientation.eq_of_matrix (Matrix2.eq_of_act hact)]

theorem cascade_assoc (a b c : Transform) : (a.cascade b).cascade c = a.cascade (b.cascade c) := by
  apply eq_of_apply
  intro p
  simp only [apply_cascade]

theorem cascade_identity (a : Transform) : a.cascade identity = a := by
  apply eq_of_apply
  intro p
  rw [apply_cascade, apply_identity]

/-- To move a placement further is to do a plain move after it. -/
theorem translate_cascade (d : Point) (t : Transform) : (translate d).cascade t = t.moveBy d := by
  apply eq_of_apply
  intro p
  rw [apply_cascade, apply_translate, apply_moveBy]

instance : Mul Transform := ⟨cascade⟩
instance : One Transform := ⟨identity⟩
instance : Inv Transform := ⟨invert⟩

/-- Placements are a group; in a product the second factor is done first. -/
instance : Group Transform := Group.ofRightAxioms cascade_assoc cascade_identity cascade_invert

/-- The group acts on the points of the plane. -/
instance : MulAction Transform Point where
  smul := apply
  one_smul := apply_identity
  mul_smul := apply_cascade

instance : FaithfulSMul Transform Point := ⟨eq_of_apply⟩

/-- Placements form a group that acts faithfully on the points of the plane, and no product or inverse of orientations
leads out of the eight. -/
theorem placements_form_group (a b c : Transform) (p : Point) :
    (a.cascade b).apply p = a.apply (b.apply p) ∧
    (a.cascade b).cascade c = a.cascade (b.cascade c) ∧
    (a.cascade identity = a ∧ identity.cascade a = a) ∧
    (a.cascade a.invert = identity ∧ a.invert.cascade a = identity) ∧
    (a.invert.apply (a.apply p) = p ∧ a.apply (a.invert.apply p) = p) ∧
    (a.cascade b).invert = b.invert.cascade a.invert ∧
    ((∀ q, a.apply q = b.apply q) ↔ a = b) ∧
    Orientation.ofMatrix? (a.orient.matrix.mul b.orient.matrix) = some (a.cascade b).orient ∧
    Orientation.ofMatrix? a.orient.matrix.transpose = some a.invert.orient := by
  refine ⟨mul_smul a b p, mul_assoc a b c, ⟨mul_one a, one_mul a⟩, ⟨mul_inv_cancel a, inv_mul_cancel a⟩,
    ⟨inv_smul_smul a p, smul_inv_smul a p⟩, mul_inv_rev a b, ?_, ?_, ?_⟩
  · constructor
    · exact eq_of_apply
    · rintro rfl q
      rfl
  · exact Orientation.ofMatrix?_mul a.orient b.orient
  · exact Orientation.ofMatrix?_transpose a.orient

end Transform

end MaskLayout
