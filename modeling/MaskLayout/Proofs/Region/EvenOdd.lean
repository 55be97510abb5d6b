import MaskLayout.Proofs.Plane.Kinds
import Mathlib.Algebra.Order.Ring.Int

/-!
# The even-odd rule

The even-odd rule on the unit squares of the grid. A property of points changes an even number of times around a
closed loop. For a rectilinear loop this makes the rays to the left, to the right, up and down from a square cross
the loop equally often modulo two, so the rule commutes with every placement.
-/

namespace MaskLayout

namespace Loop

open Transform

/-- Whether an edge crosses the ray that runs to the left from the center of the unit square at `c`. -/
def crossesLeft (c : Point) (e : Point × Point) : Bool :=
  let d := e.2 - e.1
  (decide (e.1.y ≤ c.y) != decide (e.2.y ≤ c.y)) &&
    decide (d.y * d.cross ⟨2 * (c.x - e.1.x) + 1, 2 * (c.y - e.1.y) + 1⟩ < 0)

theorem crossesLeft_iff (c : Point) (e : Point × Point) :
    crossesLeft c e = true ↔ ¬(e.1.y ≤ c.y ↔ e.2.y ≤ c.y) ∧
      (e.2.y - e.1.y) * ((e.2.x - e.1.x) * (2 * (c.y - e.1.y) + 1) -
        (e.2.y - e.1.y) * (2 * (c.x - e.1.x) + 1)) < 0 := by
  simp only [crossesLeft, Bool.and_eq_true, bne_iff_ne, ne_eq, decide_eq_decide, decide_eq_true_eq]
  rfl

/-- Whether a loop covers the unit square at `c` by the even-odd rule. -/
def Covers (l : Loop) (c : Point) : Prop := l.edges.countP (crossesLeft c) % 2 = 1

instance (l : Loop) (c : Point) : Decidable (l.Covers c) := inferInstanceAs (Decidable (_ = _))

/-- Whether every edge of a loop is horizontal or vertical. -/
def Rectilinear (l : Loop) : Prop := ∀ e ∈ l.edges, e.1.x = e.2.x ∨ e.1.y = e.2.y

theorem rectilinear_iff_admits {l : Loop} :
    l.Rectilinear ↔ ∀ e ∈ l.edges, LoopKind.rectilinear.Admits (e.2 - e.1) := by
  refine forall₂_congr fun e _ => ?_
  simp only [LoopKind.Admits, Point.sub_x, Point.sub_y]
  omega

theorem rectilinear_of_check {l : Loop} (h : LoopKind.rectilinear.check l = .ok l) :
    l.Rectilinear :=
  rectilinear_iff_admits.2 (LoopKind.fits_iff_edges.1 (LoopKind.check_self_iff.1 h)).2

section Parity

/-- How often a property `g` changes along the edges that start where `f` holds. -/
def turns (f g : Point → Bool) (l : Loop) : Nat := l.edges.countP fun e => f e.1 && (g e.1 != g e.2)

variable {f g : Point → Bool} {l : Loop}

private theorem countP_path (g : Point → Bool) (a b : Point) (l : List Point) :
    ((a :: l).zip (l ++ [b])).countP (fun e => g e.1 != g e.2) % 2 = if g a = g b then 0 else 1 := by
  induction l generalizing a with
  | nil => cases ha : g a <;> cases hb : g b <;> simp [ha, hb]
  | cons x l ih =>
      have hx := ih x
      simp only [List.cons_append, List.zip_cons_cons, List.countP_cons] at hx ⊢
      cases ha : g a <;> cases hb : g b <;> cases hgx : g x <;>
        simp [hb, hgx] at hx ⊢ <;> omega

/-- Around a closed loop a property changes an even number of times. -/
theorem changes_even (g : Point → Bool) (l : Loop) :
    (l.edges.countP fun e => g e.1 != g e.2) % 2 = 0 := by
  cases l with
  | nil => rfl
  | cons a l => simpa [edges] using countP_path g a a l

theorem countP_add {α : Type} {p q r : α → Bool} {es : List α}
    (h : ∀ e ∈ es, (p e).toNat + (q e).toNat = (r e).toNat) :
    es.countP p + es.countP q = es.countP r := by
  induction es with
  | nil => rfl
  | cons e es ih =>
      have he := h e (by simp)
      have hes := ih fun e he => h e (by simp [he])
      simp only [List.countP_cons]
      cases hp : p e <;> cases hq : q e <;> cases hr : r e <;> simp [hp, hq, hr] at he ⊢ <;> omega

/-- Where the first property fails instead, the second one changes equally often modulo two. -/
theorem turns_not (f g : Point → Bool) (l : Loop) :
    turns (fun p => !f p) g l % 2 = turns f g l % 2 := by
  have hsum : turns (fun p => !f p) g l + turns f g l =
      l.edges.countP fun e => g e.1 != g e.2 := by
    refine countP_add fun e _ => ?_
    change ((!f e.1) && (g e.1 != g e.2)).toNat + (f e.1 && (g e.1 != g e.2)).toNat = _
    cases f e.1 <;> cases g e.1 <;> cases g e.2 <;> rfl
  have heven := changes_even g l
  omega

theorem turns_not_right (f g : Point → Bool) (l : Loop) :
    turns f (fun p => !g p) l = turns f g l := by
  simp [turns]

/-- Properties that never change together may change places: their conjunction changes an even number of times,
each time because one of them changes while the other one holds. -/
theorem turns_comm (h : ∀ e ∈ l.edges, f e.1 = f e.2 ∨ g e.1 = g e.2) :
    turns f g l % 2 = turns g f l % 2 := by
  have hsum : turns f g l + turns g f l =
      l.edges.countP fun e => (f e.1 && g e.1) != (f e.2 && g e.2) := by
    refine countP_add fun e he => ?_
    rcases h e he with hf | hg
    · rw [← hf]
      cases f e.1 <;> cases g e.1 <;> cases g e.2 <;> rfl
    · rw [← hg]
      cases g e.1 <;> cases f e.1 <;> cases f e.2 <;> rfl
  have heven := changes_even (fun p => f p && g p) l
  omega

theorem turns_transform (f g : Point → Bool) (l : Loop) (t : Transform) :
    turns f g (l.transform t) = turns (fun p => f (t.apply p)) (fun p => g (t.apply p)) l := by
  rw [turns, edges_transform, List.countP_map]
  rfl

end Parity

/-- Whether a point lies to the left of the center of the unit square at `c`. -/
def leftOf (c p : Point) : Bool := decide (p.x ≤ c.x)

/-- Whether a point lies below the center of the unit square at `c`. -/
def below (c p : Point) : Bool := decide (p.y ≤ c.y)

theorem leftOf_iff {c p : Point} : leftOf c p = true ↔ p.x ≤ c.x := decide_eq_true_iff

theorem below_iff {c p : Point} : below c p = true ↔ p.y ≤ c.y := decide_eq_true_iff

/-- An edge along which a rectilinear loop passes a row is upright. -/
theorem Rectilinear.upright_of_passes {l : Loop} (hl : l.Rectilinear) {e : Point × Point} (he : e ∈ l.edges) {c : Point}
    (h : (below c e.1 != below c e.2) = true) : e.1.x = e.2.x := by
  rcases hl e he with hx | hy
  · exact hx
  · simp [below, hy] at h

theorem Rectilinear.crossesLeft_eq {l : Loop} (hl : l.Rectilinear) (c : Point) {e : Point × Point}
    (he : e ∈ l.edges) : crossesLeft c e = (leftOf c e.1 && (below c e.1 != below c e.2)) := by
  by_cases hspan : below c e.1 = below c e.2
  · simp only [below] at hspan
    simp [crossesLeft, below, hspan]
  · have hy : e.1.y ≠ e.2.y := fun hy => hspan (by simp [below, hy])
    have hx : e.2.x - e.1.x = 0 := by
      have := hl.upright_of_passes he (bne_iff_ne.2 hspan)
      omega
    have hsq : 0 < (e.2.y - e.1.y) * (e.2.y - e.1.y) := mul_self_pos.2 (by omega)
    have hprod : (e.2.y - e.1.y) * -((e.2.y - e.1.y) * (2 * (c.x - e.1.x) + 1)) =
        -((e.2.y - e.1.y) * (e.2.y - e.1.y) * (2 * (c.x - e.1.x) + 1)) := by
      rw [Int.mul_neg, Int.mul_assoc]
    have hside : (e.2.y - e.1.y) * -((e.2.y - e.1.y) * (2 * (c.x - e.1.x) + 1)) < 0 ↔
        e.1.x ≤ c.x := by
      rw [hprod, Int.neg_lt_zero_iff, mul_pos_iff_of_pos_left hsq]
      omega
    rw [Bool.eq_iff_iff, crossesLeft_iff, hx, Int.zero_mul, Int.zero_sub, hside]
    simp [leftOf, below, and_comm]

theorem Rectilinear.covers_iff {l : Loop} (hl : l.Rectilinear) (c : Point) :
    l.Covers c ↔ turns (leftOf c) (below c) l % 2 = 1 := by
  rw [Covers, turns, List.countP_congr fun e he => by rw [hl.crossesLeft_eq c he]]

theorem Rectilinear.transform {l : Loop} (hl : l.Rectilinear) (t : Transform) :
    Rectilinear (l.transform t) := by
  rw [rectilinear_iff_admits] at hl ⊢
  simp only [edges_transform, List.forall_mem_map, apply_sub_apply, LoopKind.admits_act_iff]
  exact hl

theorem Rectilinear.turns_comm {l : Loop} (hl : l.Rectilinear) (c : Point) :
    turns (below c) (leftOf c) l % 2 = turns (leftOf c) (below c) l % 2 := by
  refine Loop.turns_comm fun e he => ?_
  rcases hl e he with hx | hy
  · exact .inr (by simp [leftOf, hx])
  · exact .inl (by simp [below, hy])

/-- What a point must be for its image to lie left of the center of a placed square. -/
def leftBefore (o : Orientation) (c : Point) : Point → Bool :=
  match o with
  | .r0 | .mx => leftOf c
  | .r180 | .my => fun p => !leftOf c p
  | .r270 | .mxr90 => below c
  | .r90 | .myr90 => fun p => !below c p

/-- What a point must be for its image to lie below the center of a placed square. -/
def belowBefore (o : Orientation) (c : Point) : Point → Bool :=
  match o with
  | .r0 | .my => below c
  | .r180 | .mx => fun p => !below c p
  | .r90 | .mxr90 => leftOf c
  | .r270 | .myr90 => fun p => !leftOf c p

theorem leftOf_apply (t : Transform) (c p : Point) :
    leftOf (t.square c) (t.apply p) = leftBefore t.orient c p := by
  obtain ⟨d, o⟩ := t
  rw [Bool.eq_iff_iff]
  cases o <;>
    (simp only [leftBefore, Bool.not_eq_true', Bool.eq_false_iff, ne_eq, leftOf_iff, below_iff, square, Rect.ofCorners,
      apply, Orientation.matrix, Matrix2.act, Point.add_x, Point.add_y]
     omega)

theorem below_apply (t : Transform) (c p : Point) :
    below (t.square c) (t.apply p) = belowBefore t.orient c p := by
  obtain ⟨d, o⟩ := t
  rw [Bool.eq_iff_iff]
  cases o <;>
    (simp only [belowBefore, Bool.not_eq_true', Bool.eq_false_iff, ne_eq, leftOf_iff, below_iff, square, Rect.ofCorners,
      apply, Orientation.matrix, Matrix2.act, Point.add_x, Point.add_y]
     omega)

/-- A placed rectilinear loop covers the placed squares. -/
theorem Rectilinear.covers_transform {l : Loop} (hl : l.Rectilinear) (t : Transform) (c : Point) :
    Loop.Covers (l.transform t) (t.square c) ↔ l.Covers c := by
  have hcomm := hl.turns_comm c
  have hnot := turns_not (leftOf c) (below c) l
  have hnot' := turns_not (below c) (leftOf c) l
  have hleft : (fun p => leftOf (t.square c) (t.apply p)) = leftBefore t.orient c := funext (leftOf_apply t c)
  have hbelow : (fun p => below (t.square c) (t.apply p)) = belowBefore t.orient c := funext (below_apply t c)
  rw [(hl.transform t).covers_iff, hl.covers_iff, turns_transform, hleft, hbelow]
  cases t.orient <;> simp only [leftBefore, belowBefore, turns_not, turns_not_right] <;> omega

end Loop

end MaskLayout
