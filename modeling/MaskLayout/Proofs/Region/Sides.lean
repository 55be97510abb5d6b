import MaskLayout.Proofs.Region.Meeting
import MaskLayout.Proofs.Region.Outline
import Mathlib.Topology.MetricSpace.Thickening

/-!
# The sides of a line

What loops cover next to a line. Off its cuts a line meets only edges that run along it, so around a gap between two
cuts the winding numbers are the same on the whole left side of the line, and on the whole right side; the sides of the
gap say whether they are odd.
-/

namespace MaskLayout

namespace Plane

variable {d p u v z z' : ℝ × ℝ}

/-- The scalar product of two vectors of the plane. -/
def dot (u v : ℝ × ℝ) : ℝ := u.1 * v.1 + u.2 * v.2

theorem isLinearMap_cross (d : ℝ × ℝ) : IsLinearMap ℝ (cross d) where
  map_add u v := by
    simp only [cross, Prod.fst_add, Prod.snd_add]
    ring
  map_smul s u := by
    simp only [cross, Prod.smul_fst, Prod.smul_snd, smul_eq_mul]
    ring

theorem isLinearMap_dot (d : ℝ × ℝ) : IsLinearMap ℝ (dot d) where
  map_add u v := by
    simp only [dot, Prod.fst_add, Prod.snd_add]
    ring
  map_smul s u := by
    simp only [dot, Prod.smul_fst, Prod.smul_snd, smul_eq_mul]
    ring

/-- Positions along a direction and distances to its left span the same areas, up to the length of the direction. -/
theorem dot_mul_cross (d u v : ℝ × ℝ) : dot d u * cross d v - cross d u * dot d v = dot d d * cross u v := by
  simp only [dot, cross]
  ring

theorem dot_self_pos (hd : d ≠ 0) : 0 < dot d d := by
  have := sq_add_sq_pos hd
  simp only [dot]
  linarith

/-- The direction to the right of a direction. -/
def right (d : ℝ × ℝ) : ℝ × ℝ := (d.2, -d.1)

theorem cross_right (d v : ℝ × ℝ) : cross (right d) v = dot d v := by
  simp only [cross, right, dot]
  ring

/-- The point with a position along a direction and a distance to its left. -/
noncomputable def place (d : ℝ × ℝ) (h s : ℝ) : ℝ × ℝ := ((s * d.1 - h * d.2) / dot d d, (s * d.2 + h * d.1) / dot d d)

theorem dot_place (hd : d ≠ 0) (h s : ℝ) : dot d (place d h s) = s := by
  have hne := (dot_self_pos hd).ne'
  calc
    dot d (place d h s) = s * dot d d / dot d d := by
      simp only [place, dot]
      ring
    _ = s := mul_div_cancel_right₀ s hne

theorem cross_place (hd : d ≠ 0) (h s : ℝ) : cross d (place d h s) = h := by
  have hne := (dot_self_pos hd).ne'
  calc
    cross d (place d h s) = h * dot d d / dot d d := by
      simp only [place, cross, dot]
      ring
    _ = h := mul_div_cancel_right₀ h hne

/-- A direction tells all points apart by their positions and distances. -/
theorem eq_of_dot_cross (hd : d ≠ 0) (hdot : dot d u = dot d v) (hcross : cross d u = cross d v) : u = v := by
  have hne := (dot_self_pos hd).ne'
  simp only [dot, cross] at hdot hcross hne
  ext
  · apply mul_left_cancel₀ hne
    linear_combination d.1 * hdot - d.2 * hcross
  · apply mul_left_cancel₀ hne
    linear_combination d.2 * hdot + d.1 * hcross

theorem place_cross_dot (hd : d ≠ 0) (z : ℝ × ℝ) : place d (cross d z) (dot d z) = z :=
  eq_of_dot_cross hd (dot_place hd _ _) (cross_place hd _ _)

/-- Across a direction, points move to the right. -/
theorem place_eq_add_smul (d : ℝ × ℝ) (h h' s : ℝ) : place d h' s = place d h s + ((h - h') / dot d d) • right d := by
  simp only [place, right]
  ext
  · simp only [Prod.fst_add, Prod.smul_fst, smul_eq_mul]
    ring
  · simp only [Prod.snd_add, Prod.smul_snd, smul_eq_mul]
    ring

theorem continuous_place (d : ℝ × ℝ) (h : ℝ) : Continuous (place d h) := by
  unfold place
  fun_prop

theorem continuous_place_across (d : ℝ × ℝ) (s : ℝ) : Continuous fun h => place d h s := by
  unfold place
  fun_prop

/-- The positions between two ones on a line are the points of a segment. -/
theorem segment_place (d : ℝ × ℝ) (h s t : ℝ) :
    segment ℝ (place d h s) (place d h t) = place d h '' Set.uIcc s t := by
  rw [← segment_eq_uIcc, segment_eq_image', segment_eq_image', Set.image_image]
  refine Set.image_congr fun r _ => ?_
  simp only [place, smul_eq_mul]
  ext
  · simp only [Prod.fst_add, Prod.smul_fst, Prod.fst_sub, smul_eq_mul]
    ring
  · simp only [Prod.snd_add, Prod.smul_snd, Prod.snd_sub, smul_eq_mul]
    ring

end Plane

namespace Outline

open Plane

variable {line : Line} {e : Point × Point} {m : Rat} {z : ℝ × ℝ}

theorem dir_real_ne_zero {d : Point} (hd : d ≠ 0) : d.real ≠ 0 := by
  intro hzero
  rw [Point.real, Prod.mk_eq_zero, Int.cast_eq_zero, Int.cast_eq_zero] at hzero
  exact hd (Point.ext hzero.1 hzero.2)

theorem dot_real (d p : Point) : dot d.real p.real = (d.dot p : Int) := by
  simp [dot, Point.real, Point.dot]

theorem onLine_iff : (relative line e).onLine = true ↔
    cross line.dir.real e.1.real = line.offset ∧ cross line.dir.real e.2.real = line.offset := by
  simp only [Relative.onLine, relative, Bool.and_eq_true, beq_iff_eq, cross_real, Int.cast_inj, sub_eq_zero]

theorem left_right_iff {p : Point} (hz : dot line.dir.real z = m) :
    Left (right line.dir.real) z p.real ↔ ¬((line.dir.dot p : Int) : Rat) ≤ m := by
  have hdot : cross (right line.dir.real) (p.real - z) = (line.dir.dot p : Int) - m := by
    rw [cross_right, (isLinearMap_dot _).map_sub, dot_real, hz]
  rw [Left, hdot, sub_pos, not_le]
  exact_mod_cast Iff.rfl

/-- An edge stands over a position if it passes the line across there. -/
theorem spans_iff (hz : dot line.dir.real z = m) : (relative line e).spans m = true ↔
    ¬(Left (right line.dir.real) z e.1.real ↔ Left (right line.dir.real) z e.2.real) := by
  rw [left_right_iff hz, left_right_iff hz, not_iff_not]
  rw [Relative.spans, bne_iff_ne, Ne, decide_eq_decide]
  rfl

/-- How far to the left an edge stands over a position of the line, times the run of the edge. -/
def height (r : Relative) (m : Rat) : Rat := r.c0 * (r.s1 - r.s0) + (m - r.s0) * (r.c1 - r.c0)

theorem dot_self_mul_cross (hd : line.dir ≠ 0) (e : Point × Point) (m : Rat) :
    dot line.dir.real line.dir.real * cross (e.1.real - place line.dir.real line.offset m)
      (e.2.real - place line.dir.real line.offset m) = -(height (relative line e) m : ℝ) := by
  have hd := dir_real_ne_zero hd
  rw [← dot_mul_cross]
  simp only [(isLinearMap_dot _).map_sub, (isLinearMap_cross _).map_sub, dot_place hd, cross_place hd, dot_real,
    cross_real, relative, height]
  push_cast
  ring

theorem passesLeft_iff_mul_pos {r : Relative} (hspan : r.spans m = true) :
    r.passesLeft m = true ↔ 0 < ((r.s1 - r.s0 : Int) : Rat) * height r m := by
  have hne : r.s0 ≠ r.s1 := by
    intro h
    simp [Relative.spans, h] at hspan
  rw [Relative.passesLeft]
  split
  · rename_i hlt
    rw [mul_pos_iff_of_pos_left (Int.cast_pos.2 (sub_pos.2 hlt)), decide_eq_true_iff]
    rfl
  · rename_i hge
    have hneg : ((r.s1 - r.s0 : Int) : Rat) < 0 := Int.cast_lt_zero.2 (by omega)
    rw [mul_pos_iff, decide_eq_true_iff]
    simp only [hneg, hneg.not_gt, true_and, false_and, false_or]
    rfl

theorem cross_right_sub (line : Line) (e : Point × Point) :
    cross (right line.dir.real) (e.2.real - e.1.real) = ((relative line e).s1 - (relative line e).s0 : Int) := by
  rw [cross_right, (isLinearMap_dot _).map_sub, dot_real, dot_real]
  simp [relative]

/-- What an edge passes on the left at a position of the line it passes behind the ray to the right. -/
theorem passesLeft_iff (hd : line.dir ≠ 0) (hspan : (relative line e).spans m = true) :
    (relative line e).passesLeft m = true ↔
      Behind (right line.dir.real) (place line.dir.real line.offset m) e.1.real e.2.real := by
  have hpos := dot_self_pos (dir_real_ne_zero hd)
  rw [Behind, and_iff_right ((spans_iff (dot_place (dir_real_ne_zero hd) _ _)).1 hspan), cross_right_sub, ← neg_pos,
    ← mul_pos_iff_of_pos_left hpos, ← mul_neg, mul_left_comm, mul_neg, dot_self_mul_cross hd, neg_neg,
    passesLeft_iff_mul_pos hspan]
  exact_mod_cast Iff.rfl

/-- An edge along the line is passed behind the ray to the right from all points to the right of the line. -/
theorem behind_iff_of_onLine (hd : line.dir ≠ 0) (hon : (relative line e).onLine = true)
    (hspan : (relative line e).spans m = true) (hz : dot line.dir.real z = m) :
    Behind (right line.dir.real) z e.1.real e.2.real ↔ cross line.dir.real z < line.offset := by
  have hpos := dot_self_pos (dir_real_ne_zero hd)
  obtain ⟨h1, h2⟩ := onLine_iff.1 hon
  have hside := (spans_iff hz).1 hspan
  have hne : dot line.dir.real (e.2.real - e.1.real) ≠ 0 := by
    intro hzero
    rw [(isLinearMap_dot _).map_sub, sub_eq_zero] at hzero
    simp [Left, cross_right, (isLinearMap_dot _).map_sub, hzero] at hside
  have harea : dot line.dir.real line.dir.real * -(dot line.dir.real (e.2.real - e.1.real) *
      cross (e.1.real - z) (e.2.real - z)) =
      (line.offset - cross line.dir.real z) * dot line.dir.real (e.2.real - e.1.real) ^ 2 := by
    rw [mul_neg, mul_left_comm, ← dot_mul_cross]
    simp only [(isLinearMap_dot _).map_sub, (isLinearMap_cross _).map_sub, h1, h2]
    ring
  rw [Behind, and_iff_right hside, cross_right, ← neg_pos, ← mul_pos_iff_of_pos_left hpos, harea,
    mul_pos_iff_of_pos_right (sq_pos_of_ne_zero hne), sub_pos]

theorem behind_iff (hd : line.dir ≠ 0) (hz : dot line.dir.real z = m)
    (hfree : (relative line e).onLine = false →
      Disjoint (segment ℝ (place line.dir.real line.offset m) z) (Point.span e)) :
    Behind (right line.dir.real) z e.1.real e.2.real ↔ (relative line e).spans m = true ∧
      if (relative line e).onLine then cross line.dir.real z < line.offset
      else (relative line e).passesLeft m = true := by
  by_cases hspan : (relative line e).spans m = true
  · rw [and_iff_right hspan]
    split
    · rename_i hon
      exact behind_iff_of_onLine hd hon hspan hz
    · rename_i hoff
      have hmove := place_eq_add_smul line.dir.real line.offset (cross line.dir.real z) m
      rw [← hz, place_cross_dot (dir_real_ne_zero hd), hz] at hmove
      have hfree := hfree (Bool.eq_false_iff.2 hoff)
      rw [hmove] at hfree ⊢
      rw [passesLeft_iff hd hspan, behind_add_smul_iff hfree]
  · exact iff_of_false (fun h => hspan ((spans_iff hz).2 h.1)) fun h => hspan h.1

section Sides

variable {l : Loop} (hd : line.dir ≠ 0) (hz : dot line.dir.real z = m) (htrace : z ∉ l.trace)
  (hfree : ∀ e ∈ l.edges, (relative line e).onLine = false →
    Disjoint (segment ℝ (place line.dir.real line.offset m) z) (Point.span e))

include hd hz htrace hfree

theorem odd_windingAt_iff_countP {p : Relative → Bool}
    (hp : ∀ r : Relative, p r = true ↔
      r.spans m = true ∧ if r.onLine then cross line.dir.real z < line.offset else r.passesLeft m = true) :
    Odd (l.windingAt (1, 0) z) ↔ (l.edges.map (relative line)).countP p % 2 = 1 := by
  have hright : right line.dir.real ≠ 0 := by
    intro hzero
    rw [right, Prod.mk_eq_zero, neg_eq_zero] at hzero
    exact dir_real_ne_zero hd (Prod.ext hzero.2 hzero.1)
  rw [Loop.windingAt_eq htrace (by simp) hright, Loop.odd_windingAt_iff htrace, List.countP_map]
  apply Eq.congr _ rfl
  congr 1
  refine List.countP_congr fun e he => ?_
  rw [Function.comp_apply, hp, decide_eq_true_iff, behind_iff hd hz (hfree e he)]

/-- Left of the line and close to it, a loop covers a point off its edges if the left side of the position is
covered. -/
theorem odd_iff_sides_left (hleft : line.offset < cross line.dir.real z) :
    Odd (l.windingAt (1, 0) z) ↔ (sides (l.edges.map (relative line)) m).1 = true := by
  rw [odd_windingAt_iff_countP hd hz htrace hfree (p := fun r => (!r.onLine && r.passesLeft m) && r.spans m) ?_]
  · simp only [sides, List.countP_filter, beq_iff_eq]
  · intro r
    simp only [Bool.and_eq_true, Bool.not_eq_true', hleft.not_gt]
    grind

/-- Right of the line and close to it, a loop covers a point off its edges if the right side of the position is
covered. -/
theorem odd_iff_sides_right (hright : cross line.dir.real z < line.offset) :
    Odd (l.windingAt (1, 0) z) ↔ (sides (l.edges.map (relative line)) m).2 = true := by
  rw [odd_windingAt_iff_countP hd hz htrace hfree (p := fun r => (r.onLine || r.passesLeft m) && r.spans m) ?_]
  · have hsum : (l.edges.map (relative line)).countP (fun r => (!r.onLine && r.passesLeft m) && r.spans m) +
        (l.edges.map (relative line)).countP (fun r => r.onLine && r.spans m) =
        (l.edges.map (relative line)).countP fun r => (r.onLine || r.passesLeft m) && r.spans m := by
      refine Loop.countP_add fun r _ => ?_
      cases r.onLine <;> cases r.passesLeft m <;> cases r.spans m <;> rfl
    simp only [sides, List.countP_filter, beq_iff_eq, hsum]
  · intro r
    simp only [Bool.and_eq_true, Bool.or_eq_true, hright]
    grind

end Sides

section Cuts

variable {ls : List Loop} {l : Loop} {s : ℝ}

/-- The positions at which edges of loops cut a line, ascending. -/
def cuts (line : Line) (ls : List Loop) : List Rat := allCuts (relatives line (ls.map Loop.edges))

theorem cuts_ascending (line : Line) (ls : List Loop) : (cuts line ls).Pairwise (· < ·) := (allCuts_spec _).1

theorem mem_cuts (hl : l ∈ ls) (he : e ∈ l.edges) (h : m ∈ (relative line e).cuts) : m ∈ cuts line ls := by
  refine ((allCuts_spec _).2 m).2 ⟨l.edges.map (relative line), ?_, relative line e, List.mem_map_of_mem he, h⟩
  rw [relatives, List.map_map]
  exact List.mem_map_of_mem hl

theorem mkRat_mul_sign (x k : Int) : mkRat (x * k.sign) k.natAbs = x / k := by
  rw [Rat.mkRat_eq_div]
  rcases lt_trichotomy k 0 with hneg | rfl | hpos
  · have habs : ((k.natAbs : Nat) : Rat) = -k := by
      rw [← Int.cast_natCast, Int.ofNat_natAbs_of_nonpos hneg.le, Int.cast_neg]
    rw [Int.sign_eq_neg_one_of_neg hneg, habs, mul_neg_one, Int.cast_neg, neg_div_neg_eq]
  · simp
  · have habs : ((k.natAbs : Nat) : Rat) = k := by
      rw [← Int.cast_natCast, Int.natAbs_of_nonneg hpos.le]
    rw [Int.sign_eq_one_of_pos hpos, habs, mul_one]

/-- An edge that crosses the line cuts it between its ends. -/
theorem mem_relative_cuts {r : Relative} (hoff : r.onLine = false) {u v : ℝ} (hu : 0 ≤ u) (hv : 0 ≤ v) (huv : u + v = 1)
    (hcross : u * r.c0 + v * r.c1 = 0) : ∃ q ∈ r.cuts, (q : ℝ) = u * r.s0 + v * r.s1 := by
  obtain rfl : u = 1 - v := by linarith
  have hopposite : (r.c0 ≤ 0 ∧ 0 ≤ r.c1) ∨ (r.c1 ≤ 0 ∧ 0 ≤ r.c0) := by
    by_contra hsame
    have hsame : (1 ≤ r.c0 ∧ 1 ≤ r.c1) ∨ (r.c0 ≤ -1 ∧ r.c1 ≤ -1) := by omega
    rcases hsame with ⟨h0, h1⟩ | ⟨h0, h1⟩
    · have h0 : (1 : ℝ) ≤ r.c0 := by exact_mod_cast h0
      have h1 : (1 : ℝ) ≤ r.c1 := by exact_mod_cast h1
      nlinarith
    · have h0 : (r.c0 : ℝ) ≤ -1 := by exact_mod_cast h0
      have h1 : (r.c1 : ℝ) ≤ -1 := by exact_mod_cast h1
      nlinarith
  have hne : (r.c0 : ℝ) - r.c1 ≠ 0 := by
    intro h
    have h := Int.cast_inj.1 (sub_eq_zero.1 h)
    have hzero : r.c0 = 0 ∧ r.c1 = 0 := by omega
    simp [Relative.onLine, hzero] at hoff
  rw [Relative.cuts, if_neg (by simp [hoff]), if_pos hopposite]
  refine ⟨_, List.mem_singleton_self _, ?_⟩
  rw [mkRat_mul_sign]
  push_cast
  field_simp
  linear_combination ((r.s1 : ℝ) - r.s0) * hcross

/-- An edge that meets the line, but not along it, meets it at a cut. -/
theorem exists_cut (hd : line.dir ≠ 0) (hl : l ∈ ls) (he : e ∈ l.edges) (hoff : (relative line e).onLine = false)
    (hmeet : place line.dir.real line.offset s ∈ Point.span e) : ∃ q ∈ cuts line ls, (q : ℝ) = s := by
  have hd' := dir_real_ne_zero hd
  obtain ⟨u, v, hu, hv, huv, hmeet⟩ := hmeet
  have hdot := congrArg (dot line.dir.real) hmeet
  have hcross := congrArg (cross line.dir.real) hmeet
  rw [(isLinearMap_dot _).map_add, (isLinearMap_dot _).map_smul, (isLinearMap_dot _).map_smul, dot_real, dot_real,
    dot_place hd', smul_eq_mul, smul_eq_mul] at hdot
  rw [(isLinearMap_cross _).map_add, (isLinearMap_cross _).map_smul, (isLinearMap_cross _).map_smul, cross_real,
    cross_real, cross_place hd', smul_eq_mul, smul_eq_mul] at hcross
  have hcross' : u * (relative line e).c0 + v * (relative line e).c1 = 0 := by
    simp only [relative, Int.cast_sub]
    linear_combination hcross - line.offset * huv
  obtain ⟨q, hq, heq⟩ := mem_relative_cuts hoff hu hv huv hcross'
  exact ⟨q, mem_cuts hl he hq, heq.trans hdot⟩

end Cuts

end Outline

end MaskLayout
