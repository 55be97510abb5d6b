import MaskLayout.Plane.Loop
import Mathlib.Algebra.Order.Ring.Int
import Mathlib.Tactic.Ring

/-!
# Unit steps

Vectors that are horizontal, vertical or at 45 degrees. Each of them is a whole number of unit steps in one of eight
directions.
-/

namespace MaskLayout

namespace Point

/-- Whether a vector is horizontal, vertical or at 45 degrees. -/
def Octilinear (v : Point) : Prop := v.x = 0 ∨ v.y = 0 ∨ v.x = v.y ∨ v.x = -v.y

instance : DecidablePred Octilinear := fun v => inferInstanceAs (Decidable (v.x = 0 ∨ v.y = 0 ∨ v.x = v.y ∨ v.x = -v.y))

/-- Whether two vectors have opposite directions. -/
def Opposite (u v : Point) : Prop := u.cross v = 0 ∧ u.dot v < 0

instance (u v : Point) : Decidable (u.Opposite v) := inferInstanceAs (Decidable (_ ∧ _))

/-- The unit step in the direction of a vector that is straight or at 45 degrees. -/
def heading (v : Point) : Point := ⟨v.x.sign, v.y.sign⟩

/-- The unit steps in all directions. -/
def compass : List Point := [⟨1, 0⟩, ⟨1, 1⟩, ⟨0, 1⟩, ⟨-1, 1⟩, ⟨-1, 0⟩, ⟨-1, -1⟩, ⟨0, -1⟩, ⟨1, -1⟩]

variable {p q u v w d e : Point}

theorem sub_ne_zero (h : p ≠ q) : q - p ≠ 0 := by
  intro h0
  apply h
  have hx := congrArg Point.x h0
  have hy := congrArg Point.y h0
  simp only [sub_x, sub_y, zero_x, zero_y] at hx hy
  exact Point.ext (by omega) (by omega)

theorem add_right_inj : p + q = p + v ↔ q = v := by
  constructor
  · intro h
    have hx := congrArg Point.x h
    have hy := congrArg Point.y h
    simp only [add_x, add_y] at hx hy
    exact Point.ext (by omega) (by omega)
  · rintro rfl
    rfl

theorem add_sub_add_right (p q v : Point) : q + v - (p + v) = q - p := by
  apply Point.ext
  · exact Int.add_sub_add_right q.x v.x p.x
  · exact Int.add_sub_add_right q.y v.y p.y

theorem add_left_inj : p + v = q + v ↔ p = q := by
  constructor
  · intro h
    have hx := congrArg Point.x h
    have hy := congrArg Point.y h
    simp only [add_x, add_y] at hx hy
    exact Point.ext (by omega) (by omega)
  · rintro rfl
    rfl

theorem add_scale (p q : Point) (k : Int) : (p + q).scale k = p.scale k + q.scale k :=
  Point.ext (Int.add_mul p.x q.x k) (Int.add_mul p.y q.y k)

theorem sub_scale (p q : Point) (k : Int) : (p - q).scale k = p.scale k - q.scale k :=
  Point.ext (Int.sub_mul p.x q.x k) (Int.sub_mul p.y q.y k)

theorem add_scale_zero (p v : Point) : p + v.scale 0 = p := by
  apply Point.ext
  · simp [scale]
  · simp [scale]

theorem sub_scale_zero (p v : Point) : p - v.scale 0 = p := by
  apply Point.ext
  · simp [scale]
  · simp [scale]

theorem add_scale_add_scale (p v : Point) (k l : Int) : p + v.scale k + v.scale l = p + v.scale (k + l) := by
  apply Point.ext
  · simp only [add_x, scale]
    ring
  · simp only [add_y, scale]
    ring

theorem add_scale_sub_scale (p v : Point) (k l : Int) : p + v.scale k - v.scale l = p + v.scale (k - l) := by
  apply Point.ext
  · simp only [add_x, sub_x, scale]
    ring
  · simp only [add_y, sub_y, scale]
    ring

theorem allows_diagonal_iff : LoopKind.diagonal.allows v = true ↔ v.Octilinear := by
  simp only [LoopKind.allows, Octilinear, Bool.or_eq_true, beq_iff_eq]
  omega

theorem Octilinear.scale (h : v.Octilinear) (k : Int) : (v.scale k).Octilinear := by
  rcases h with h | h | h | h
  · exact .inl (by rw [Point.scale, h, Int.zero_mul])
  · exact .inr (.inl (by rw [Point.scale, h, Int.zero_mul]))
  · exact .inr (.inr (.inl (by rw [Point.scale, h])))
  · exact .inr (.inr (.inr (by rw [Point.scale, h, Int.neg_mul])))

theorem Octilinear.left (h : v.Octilinear) : v.left.Octilinear := by
  simp only [Octilinear, Point.left] at h ⊢
  omega

theorem octilinear_of_mem_compass : ∀ d ∈ compass, d.Octilinear := by decide

/-- Forward or back, and to either side, a unit step and its normal make up an octilinear vector. -/
theorem octilinear_of_turn :
    ∀ d ∈ compass, ∀ out ∈ [d, d.scale (-1)], (out + d.left).Octilinear ∧ (out - d.left).Octilinear := by decide

theorem heading_mem_compass (h : v ≠ 0) : v.heading ∈ compass := by
  have hne : ¬(v.x = 0 ∧ v.y = 0) := fun h0 => h (Point.ext h0.1 h0.2)
  simp only [heading]
  rcases Int.lt_trichotomy v.x 0 with hx | hx | hx <;> rcases Int.lt_trichotomy v.y 0 with hy | hy | hy <;>
    simp_all [Int.sign_eq_neg_one_of_neg, Int.sign_eq_one_of_pos, compass]

/-- A vector that is straight or at 45 degrees is a whole number of unit steps. -/
theorem Octilinear.exists_scale (h : v.Octilinear) (hv : v ≠ 0) : ∃ k : Int, 0 < k ∧ v = v.heading.scale k := by
  have hne : ¬(v.x = 0 ∧ v.y = 0) := fun h0 => hv (Point.ext h0.1 h0.2)
  have hcoord {a k : Int} (ha : a = 0 ∨ k = a.natAbs) : a = a.sign * k := by
    rcases ha with rfl | rfl
    · rw [Int.sign_zero, Int.zero_mul]
    · exact (Int.sign_mul_natAbs a).symm
  simp only [Octilinear] at h
  refine ⟨max v.x.natAbs v.y.natAbs, by omega, Point.ext (hcoord ?_) (hcoord ?_)⟩
  · omega
  · omega

/-- Vectors across the normal of a unit step are whole numbers of it. -/
theorem exists_scale_of_dot_left (hd : d ∈ compass) (h : d.left.dot w = 0) : ∃ k : Int, w = d.scale k := by
  refine ⟨if d.x = 0 then d.y * w.y else d.x * w.x, ?_⟩
  simp only [compass, List.mem_cons, List.not_mem_nil, or_false] at hd
  rcases hd with rfl | rfl | rfl | rfl | rfl | rfl | rfl | rfl <;>
    (simp only [dot, left] at h
     apply Point.ext <;> (dsimp only [scale]; split <;> omega))

theorem heading_x_eq_zero_iff : v.heading.x = 0 ↔ v.x = 0 := Int.sign_eq_zero_iff_zero

theorem heading_y_eq_zero_iff : v.heading.y = 0 ↔ v.y = 0 := Int.sign_eq_zero_iff_zero

theorem dot_left_self : ∀ d ∈ compass, d.x = 0 ∨ d.y = 0 → d.left.dot d.left = 1 := by decide

theorem dot_add (u v w : Point) : u.dot (v + w) = u.dot v + u.dot w := by
  simp only [dot, add_x, add_y]
  ring

theorem dot_sub (u v w : Point) : u.dot (v - w) = u.dot v - u.dot w := by
  simp only [dot, sub_x, sub_y]
  ring

theorem dot_scale_right (u v : Point) (k : Int) : u.dot (v.scale k) = u.dot v * k := by
  simp only [dot, scale]
  ring

theorem dot_left_scale (d : Point) (k : Int) : d.left.dot (d.scale k) = 0 := by
  simp only [dot, left, scale]
  ring

/-- A vector does not lead to either side of itself. -/
theorem Octilinear.dot_left_heading (h : v.Octilinear) (hv : v ≠ 0) : v.heading.left.dot v = 0 := by
  obtain ⟨k, -, hk⟩ := h.exists_scale hv
  calc
    v.heading.left.dot v = v.heading.left.dot (v.heading.scale k) := by rw [← hk]
    _ = 0 := dot_left_scale v.heading k

theorem cross_scale (d e : Point) (k l : Int) : (d.scale k).cross (e.scale l) = k * l * d.cross e := by
  simp only [cross, scale]
  ring

theorem dot_scale (d e : Point) (k l : Int) : (d.scale k).dot (e.scale l) = k * l * d.dot e := by
  simp only [dot, scale]
  ring

theorem opposite_heading_iff (hu : u.Octilinear) (hu0 : u ≠ 0) (hv : v.Octilinear) (hv0 : v ≠ 0) :
    u.heading.Opposite v.heading ↔ u.Opposite v := by
  obtain ⟨k, hk, huk⟩ := hu.exists_scale hu0
  obtain ⟨l, hl, hvl⟩ := hv.exists_scale hv0
  have hkl : 0 < k * l := Int.mul_pos hk hl
  have hcross : u.cross v = k * l * u.heading.cross v.heading := by
    rw [← cross_scale, ← huk, ← hvl]
  have hdot : u.dot v = k * l * u.heading.dot v.heading := by
    rw [← dot_scale, ← huk, ← hvl]
  rw [Opposite, Opposite, hcross, hdot, mul_eq_zero, or_iff_right hkl.ne', mul_neg_iff, and_iff_right hkl]
  have hnot : ¬(k * l < 0 ∧ 0 < u.heading.dot v.heading) := fun h => by omega
  rw [or_iff_left hnot]

end Point

end MaskLayout
