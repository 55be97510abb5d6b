import MaskLayout.Proofs.Region.Outline
import MaskLayout.Proofs.Region.Union
import Mathlib.Algebra.BigOperators.Finprod
import Mathlib.Algebra.BigOperators.Ring.Finset
import Mathlib.Data.Int.ConditionallyCompleteOrder
import Mathlib.Data.Int.Interval
import Mathlib.Tactic.Linarith

/-!
# Areas of outlines

The area inside the outline of rectilinear loops is the number of squares that they cover. On one upright line the
outline sweeps the abscissa for every square that ends there, and takes it back for every square that begins there; so
each square counts its right abscissa less its left one. Level lines sweep nothing.
-/

namespace MaskLayout

namespace Outline

open Loop

variable {l : Loop} {ls : List Loop} {x : Int} {s : Rat}

section Gaps

variable {rows : List Int}

/-- Within a gap between the rows where edges meet an upright line, a loop covers all squares next to the line on one
side or none of them. -/
theorem covers_gap (hl : l.Rectilinear) (hasc : rows.Pairwise (· < ·))
    (hrows : ∀ e ∈ l.edges, Meets x e → e.1.y ∈ rows ∧ e.2.y ∈ rows) {p : Int × Int}
    (hp : p ∈ rows.zip (rows.drop 1)) {k j : Int} (hk : k = x - 1 ∨ k = x) (hlo : p.1 ≤ j) (hhi : j < p.2) :
    l.Covers ⟨k, j⟩ ↔ l.Covers ⟨k, p.1⟩ := by
  have hturns : turns (below ⟨k, j⟩) (leftOf ⟨k, j⟩) l = turns (below ⟨k, p.1⟩) (leftOf ⟨k, p.1⟩) l := by
    refine List.countP_congr fun e he => ?_
    rw [Bool.and_eq_true, Bool.and_eq_true]
    refine and_congr_left fun hpass => ?_
    have hmeets : Meets x e := by
      simp only [leftOf, bne_iff_ne, ne_eq, decide_eq_decide] at hpass
      unfold Meets
      omega
    have hgap := (of_mem_gaps hasc hp).2 _ (hrows e he hmeets).1
    rw [below_iff, below_iff]
    simp only
    omega
  rw [hl.covers_iff, hl.covers_iff, ← hl.turns_comm, ← hl.turns_comm, hturns]

/-- Off all gaps, a loop covers the squares on both sides of the line or none of them. -/
theorem covers_off_gaps (hl : l.Rectilinear) (hasc : rows.Pairwise (· < ·))
    (hrows : ∀ e ∈ l.edges, Meets x e → e.1.y ∈ rows ∧ e.2.y ∈ rows) {j : Int}
    (hoff : ¬∃ p ∈ rows.zip (rows.drop 1), p.1 ≤ j ∧ j < p.2) : l.Covers ⟨x - 1, j⟩ ↔ l.Covers ⟨x, j⟩ := by
  have hturns : turns (leftOf ⟨x - 1, j⟩) (below ⟨x - 1, j⟩) l = turns (leftOf ⟨x, j⟩) (below ⟨x, j⟩) l := by
    refine List.countP_congr fun e he => ?_
    rw [Bool.and_eq_true, Bool.and_eq_true]
    refine and_congr_left fun hpass => ?_
    have hx := hl.upright_of_passes he hpass
    have hne : e.1.x ≠ x := by
      intro hon
      obtain ⟨hy1, hy2⟩ := hrows e he (.inl ⟨hon.le, by omega⟩)
      simp only [below, bne_iff_ne, ne_eq, decide_eq_decide] at hpass
      by_cases hle : e.1.y ≤ j
      · exact hoff (exists_gap hasc hy1 hy2 hle (by omega))
      · exact hoff (exists_gap hasc hy2 hy1 (by omega) (by omega))
    rw [leftOf_iff, leftOf_iff]
    simp only
    omega
  rw [hl.covers_iff, hl.covers_iff, hturns]

private theorem exists_sum_gaps (f : Int → Rat) {a : Int} (hasc : (a :: rows).Pairwise (· < ·)) :
    ∃ b, (∀ z ∈ a :: rows, z ≤ b) ∧
      (((a :: rows).zip rows).map fun p => ∑ j ∈ Finset.Ico p.1 p.2, f j).sum = ∑ j ∈ Finset.Ico a b, f j := by
  induction rows generalizing a with
  | nil => exact ⟨a, by simp, by simp⟩
  | cons c rows ih =>
      obtain ⟨ha, hrows⟩ := List.pairwise_cons.1 hasc
      obtain ⟨b, hb, hsum⟩ := ih hrows
      have hac : a ≤ c := (ha c List.mem_cons_self).le
      have hcb : c ≤ b := hb c List.mem_cons_self
      refine ⟨b, List.forall_mem_cons.2 ⟨hac.trans hcb, hb⟩, ?_⟩
      rw [List.zip_cons_cons, List.map_cons, List.sum_cons, hsum, ← Finset.Ico_union_Ico_eq_Ico hac hcb,
        Finset.sum_union (Finset.Ico_disjoint_Ico_consecutive a c b)]

/-- A sum over the gaps of an ascending list is a sum over any set that has all rows with a value, if these are in
gaps. -/
theorem sum_gaps {f : Int → Rat} (hasc : rows.Pairwise (· < ·)) {js : Finset Int} (hjs : ∀ j, f j ≠ 0 → j ∈ js)
    (hgaps : ∀ j, f j ≠ 0 → ∃ p ∈ rows.zip (rows.drop 1), p.1 ≤ j ∧ j < p.2) :
    ((rows.zip (rows.drop 1)).map fun p => ∑ j ∈ Finset.Ico p.1 p.2, f j).sum = ∑ j ∈ js, f j := by
  rw [← finsum_eq_sum_of_support_subset f hjs]
  cases rows with
  | nil =>
      have hzero : f = 0 := by
        ext j
        by_contra hj
        obtain ⟨p, hp, -⟩ := hgaps j hj
        exact List.not_mem_nil hp
      simp [hzero]
  | cons a rows =>
      obtain ⟨b, hb, hsum⟩ := exists_sum_gaps f hasc
      refine hsum.trans (finsum_eq_sum_of_support_subset f fun j hj => ?_).symm
      obtain ⟨p, hp, hlo, hhi⟩ := hgaps j hj
      obtain ⟨h1, h2⟩ := List.of_mem_zip hp
      have hb2 := hb p.2 (List.mem_of_mem_drop h2)
      rw [Finset.mem_coe, Finset.mem_Ico]
      rcases List.mem_cons.1 h1 with h1 | h1
      · omega
      · have := (List.pairwise_cons.1 hasc).1 p.1 h1
        omega

end Gaps

section Squares

variable {squares : Finset Point}

/-- How many of some squares stand in a column. -/
def columnCount (squares : Finset Point) (k : Int) : Nat := (squares.filter fun c => c.x = k).card

/-- What a row counts on an upright line: one for a square that ends there, less one for a square that begins there. -/
def rowChange (squares : Finset Point) (x j : Int) : Rat :=
  (if ⟨x - 1, j⟩ ∈ squares then 1 else 0) - if ⟨x, j⟩ ∈ squares then 1 else 0

/-- A column has one square for each row in which it has one. -/
theorem columnCount_eq_sum (squares : Finset Point) (k : Int) :
    (columnCount squares k : Rat) = ∑ j ∈ squares.image (·.y), if ⟨k, j⟩ ∈ squares then 1 else 0 := by
  have hcolumn : (squares.filter fun c => c.x = k) =
      ((squares.image (·.y)).filter fun j => ⟨k, j⟩ ∈ squares).image fun j => ⟨k, j⟩ := by
    ext ⟨x, y⟩
    simp only [Finset.mem_filter, Finset.mem_image, Point.mk.injEq]
    constructor
    · rintro ⟨hc, rfl⟩
      exact ⟨y, ⟨⟨_, hc, rfl⟩, hc⟩, rfl, rfl⟩
    · rintro ⟨j, ⟨-, hc⟩, rfl, rfl⟩
      exact ⟨hc, rfl⟩
  have hinj : Function.Injective fun j : Int => (⟨k, j⟩ : Point) := fun _ _ h => congrArg Point.y h
  rw [columnCount, hcolumn, Finset.card_image_of_injective _ hinj, Finset.card_filter, Nat.cast_sum]
  simp only [Nat.cast_ite, Nat.cast_one, Nat.cast_zero]

theorem columnCount_eq_zero {k : Int} (h : ∀ c ∈ squares, c.x ≠ k) : columnCount squares k = 0 := by
  rw [columnCount, Finset.card_eq_zero, Finset.filter_eq_empty_iff]
  exact h

theorem sum_rowChange (squares : Finset Point) (x : Int) :
    ∑ j ∈ squares.image (·.y), rowChange squares x j = (columnCount squares (x - 1) : Rat) - columnCount squares x := by
  simp only [rowChange, Finset.sum_sub_distrib, columnCount_eq_sum]

theorem rowChange_eq_zero {j : Int} (h : ⟨x - 1, j⟩ ∈ squares ↔ ⟨x, j⟩ ∈ squares) : rowChange squares x j = 0 := by
  simp only [rowChange, h, sub_self]

theorem mem_rows_of_rowChange {j : Int} (h : rowChange squares x j ≠ 0) : j ∈ squares.image (·.y) := by
  by_contra hnone
  have hno (k : Int) : ⟨k, j⟩ ∉ squares := fun hc => hnone (Finset.mem_image_of_mem _ hc)
  exact h (rowChange_eq_zero (iff_of_false (hno _) (hno _)))

/-- Counting column by column visits every square once. -/
theorem sum_mul_columnCount {xs : Finset Int} (d : Int) (hxs : ∀ c ∈ squares, c.x + d ∈ xs) :
    ∑ x ∈ xs, (x : Rat) * columnCount squares (x - d) = ∑ c ∈ squares, ((c.x + d : Int) : Rat) := by
  rw [← Finset.sum_fiberwise_of_maps_to hxs]
  refine Finset.sum_congr rfl fun x _ => ?_
  have hcolumn : (squares.filter fun c => c.x + d = x) = squares.filter fun c => c.x = x - d :=
    Finset.filter_congr fun c _ => eq_sub_iff_add_eq.symm
  rw [Finset.sum_congr rfl fun c hc => by rw [(Finset.mem_filter.1 hc).2], Finset.sum_const, hcolumn, nsmul_eq_mul,
    mul_comm]
  rfl

/-- Each square counts its right abscissa less its left one. -/
theorem sum_columnCount {xs : Finset Int} (hleft : ∀ c ∈ squares, c.x ∈ xs) (hright : ∀ c ∈ squares, c.x + 1 ∈ xs) :
    ∑ x ∈ xs, (x : Rat) * ((columnCount squares (x - 1) : Rat) - columnCount squares x) = squares.card := by
  have hleft := sum_mul_columnCount 0 (by simpa using hleft)
  have hright := sum_mul_columnCount 1 hright
  simp only [sub_zero, add_zero] at hleft
  simp only [mul_sub, Finset.sum_sub_distrib, hright, hleft]
  rw [← Finset.sum_sub_distrib]
  simp

end Squares

/-- Some loop covers one side of an upright line exactly if the square there is covered. -/
theorem any_sides {squares : Finset Point} (hsq : ∀ c, c ∈ squares ↔ ∃ l ∈ ls, l.Covers c)
    {side : Bool × Bool → Bool} {c : Point}
    (hside : ∀ l ∈ ls, side (sides (l.edges.map (relative (upright x))) s) = decide (l.Covers c)) :
    ((relatives (upright x) (ls.map edges)).map fun rs => sides rs s).any side = decide (c ∈ squares) := by
  rw [Bool.eq_iff_iff, decide_eq_true_iff, hsq, List.any_eq_true]
  simp only [relatives, List.map_map, List.mem_map, Function.comp_apply, exists_exists_and_eq_and]
  exact exists_congr fun l => and_congr_right fun hl => by rw [hside l hl, decide_eq_true_iff]

section Covered

variable {squares : Finset Point} (hls : ∀ l ∈ ls, l.Rectilinear) (hsq : ∀ c, c ∈ squares ↔ ∃ l ∈ ls, l.Covers c)

include hls hsq

/-- The piece of an upright line between two cuts sweeps its abscissa as often as the row there counts. -/
theorem outlineArea_piece? (x : Int) (a b : Rat) :
    outlineArea (piece? (upright x) (relatives (upright x) (ls.map edges)) (a, b)).toList =
      x * ((b - a) * rowChange squares x ⌊(a + b) / 2⌋) := by
  simp only [piece?]
  generalize (a + b) / 2 = s
  have hsides {l : Loop} (hl : l ∈ ls) := sides_upright (hls l hl) x s
  rw [any_sides hsq fun l hl => congrArg Prod.fst (hsides hl),
    any_sides hsq fun l hl => congrArg Prod.snd (hsides hl)]
  split
  · by_cases hl : ⟨x - 1, ⌊s⌋⟩ ∈ squares <;> by_cases hr : ⟨x, ⌊s⌋⟩ ∈ squares <;>
      simp [rowChange, hl, hr, swept_upright, swept_reverse_upright]
  · rename_i hoff
    simp only [relatives, List.any_eq_true, List.map_map, List.mem_map, not_exists, not_and] at hoff
    have hsame : ⟨x - 1, ⌊s⌋⟩ ∈ squares ↔ ⟨x, ⌊s⌋⟩ ∈ squares := by
      rw [hsq, hsq]
      refine exists_congr fun l => and_congr_right fun hl => ?_
      have hrs := sides_of_off_line (s := s) fun r hr =>
        Bool.eq_false_iff.2 (hoff (l.edges.map (relative (upright x))) ⟨l, hl, rfl⟩ r hr)
      rwa [hsides hl, decide_eq_decide] at hrs
    rw [rowChange_eq_zero hsame, mul_zero, mul_zero]
    rfl

section Rows

variable {rows : List Int} (hasc : rows.Pairwise (· < ·))
  (hrows : ∀ l ∈ ls, ∀ e ∈ l.edges, Meets x e → e.1.y ∈ rows ∧ e.2.y ∈ rows)

include hasc hrows

theorem rowChange_of_gap {p : Int × Int} (hp : p ∈ rows.zip (rows.drop 1)) {j : Int} (hlo : p.1 ≤ j) (hhi : j < p.2) :
    rowChange squares x j = rowChange squares x p.1 := by
  have hcovers {k : Int} (hk : k = x - 1 ∨ k = x) : ⟨k, j⟩ ∈ squares ↔ ⟨k, p.1⟩ ∈ squares := by
    rw [hsq, hsq]
    exact exists_congr fun l => and_congr_right fun hl => covers_gap (hls l hl) hasc (hrows l hl) hp hk hlo hhi
  simp only [rowChange, hcovers (.inl rfl), hcovers (.inr rfl)]

theorem exists_gap_of_rowChange {j : Int} (hj : rowChange squares x j ≠ 0) :
    ∃ p ∈ rows.zip (rows.drop 1), p.1 ≤ j ∧ j < p.2 := by
  by_contra hnone
  refine hj (rowChange_eq_zero ?_)
  rw [hsq, hsq]
  exact exists_congr fun l => and_congr_right fun hl => covers_off_gaps (hls l hl) hasc (hrows l hl) hnone

/-- The piece of an upright line in a gap between rows sweeps its abscissa as often as all the rows of the gap count. -/
theorem outlineArea_gap {p : Int × Int} (hp : p ∈ rows.zip (rows.drop 1)) :
    outlineArea (piece? (upright x) (relatives (upright x) (ls.map edges)) ((p.1 : Rat), (p.2 : Rat))).toList =
      x * ∑ j ∈ Finset.Ico p.1 p.2, rowChange squares x j := by
  have hgap {j : Int} (hlo : p.1 ≤ j) (hhi : j < p.2) : rowChange squares x j = rowChange squares x p.1 :=
    rowChange_of_gap hls hsq hasc hrows hp hlo hhi
  have hlt : (p.1 : Rat) < p.2 := Int.cast_lt.2 (of_mem_gaps hasc hp).1
  have hmiddle := hgap (Int.le_floor.2 (show (p.1 : Rat) ≤ (p.1 + p.2) / 2 by linarith))
    (Int.floor_lt.2 (show ((p.1 : Rat) + p.2) / 2 < p.2 by linarith))
  have hlength : (((p.2 - p.1).toNat : Int) : Rat) = p.2 - p.1 := by
    rw [Int.toNat_of_nonneg (sub_nonneg.2 (Int.cast_lt.1 hlt).le), Int.cast_sub]
  rw [outlineArea_piece? hls hsq, hmiddle,
    Finset.sum_congr rfl fun j hj => hgap (Finset.mem_Ico.1 hj).1 (Finset.mem_Ico.1 hj).2, Finset.sum_const,
    Int.card_Ico, nsmul_eq_mul, ← Int.cast_natCast, hlength]

end Rows

/-- On an upright line the outline sweeps the abscissa for every square that ends there, less what it sweeps back for
every square that begins there. -/
theorem outlineArea_upright (x : Int) :
    outlineArea (onLine (ls.map edges) (upright x)) =
      x * ((columnCount squares (x - 1) : Rat) - columnCount squares x) := by
  obtain ⟨rows, hasc, hcuts, hrows⟩ := exists_allCuts hls x
  calc
    outlineArea (onLine (ls.map edges) (upright x)) = ((rows.zip (rows.drop 1)).map fun p =>
        outlineArea (piece? (upright x) (relatives (upright x) (ls.map edges))
          ((p.1 : Rat), (p.2 : Rat))).toList).sum := by
      rw [outlineArea_onLine _ (by decide : -(⟨0, 1⟩ : Point) ≠ ⟨0, 1⟩), hcuts, ← List.map_drop, List.zip_map,
        List.map_map]
      rfl
    _ = ((rows.zip (rows.drop 1)).map fun p => x * ∑ j ∈ Finset.Ico p.1 p.2, rowChange squares x j).sum := by
      rw [List.map_congr_left fun p hp => outlineArea_gap hls hsq hasc hrows hp]
    _ = x * ∑ j ∈ squares.image (·.y), rowChange squares x j := by
      rw [List.sum_map_mul_left, sum_gaps hasc (fun _ => mem_rows_of_rowChange) fun _ =>
        exists_gap_of_rowChange hls hsq hasc hrows]
    _ = x * ((columnCount squares (x - 1) : Rat) - columnCount squares x) := by rw [sum_rowChange]

/-- The area inside the outline of rectilinear loops is the number of squares that they cover. -/
theorem outlineArea_outline : outlineArea (outline ls) = squares.card := by
  let lines := ((ls.map edges).flatMap fun es => es.filterMap lineOf?).eraseDups
  let xs := squares.image (·.x) ∪ squares.image (·.x + 1)
  have hmem (line : Line) : line ∈ lines.toFinset ↔ ∃ l ∈ ls, ∃ e ∈ l.edges, lineOf? e = some line := by
    simp [lines, List.mem_eraseDups]
  have hleft (c : Point) (hc : c ∈ squares) : c.x ∈ xs :=
    Finset.mem_union_left _ (Finset.mem_image_of_mem (fun c : Point => c.x) hc)
  have hright (c : Point) (hc : c ∈ squares) : c.x + 1 ∈ xs :=
    Finset.mem_union_right _ (Finset.mem_image_of_mem (fun c : Point => c.x + 1) hc)
  -- A line with an edge that is no side of a square is level, or it is upright and no square ends or begins there.
  have hline {line : Line} (hline : line ∈ lines.toFinset) (hnot : line ∉ xs.image upright) :
      outlineArea (onLine (ls.map edges) line) = 0 := by
    obtain ⟨l, hl, e, he, hsome⟩ := (hmem line).1 hline
    by_cases hy : e.1.y = e.2.y
    · rw [lineOf?_of_level hy hsome]
      exact outlineArea_of_level_line _ rfl
    · have hx : e.1.x = e.2.x := (hls l hl e he).resolve_right hy
      obtain rfl := Option.some.inj ((lineOf?_of_upright hx hy).symm.trans hsome)
      have hout : e.1.x ∉ xs := fun h => hnot (Finset.mem_image_of_mem _ h)
      have hzero : columnCount squares e.1.x = 0 := columnCount_eq_zero fun c hc h => hout (h ▸ hleft c hc)
      have hzero' : columnCount squares (e.1.x - 1) = 0 :=
        columnCount_eq_zero fun c hc h => hout (eq_sub_iff_add_eq.1 h ▸ hright c hc)
      rw [outlineArea_upright hls hsq, hzero, hzero', sub_self, mul_zero]
  have hside {line : Line} (hline : line ∈ xs.image upright) (hnot : line ∉ lines.toFinset) :
      outlineArea (onLine (ls.map edges) line) = 0 := by
    obtain ⟨x, -, rfl⟩ := Finset.mem_image.1 hline
    rw [onLine_upright_eq_nil fun l hl e he h => hnot ((hmem _).2 ⟨l, hl, e, he, h⟩), outlineArea_nil]
  calc
    outlineArea (outline ls) = ∑ line ∈ lines.toFinset, outlineArea (onLine (ls.map edges) line) := by
      rw [List.sum_toFinset _ (nodup_eraseDups _)]
      exact outlineArea_flatMap _ _
    _ = ∑ line ∈ xs.image upright, outlineArea (onLine (ls.map edges) line) :=
      Finset.sum_congr_of_eq_on_inter (fun _ => hline) (fun _ => hside) fun _ _ _ => rfl
    _ = ∑ x ∈ xs, (x : Rat) * ((columnCount squares (x - 1) : Rat) - columnCount squares x) := by
      rw [Finset.sum_image upright_injective.injOn, Finset.sum_congr rfl fun x _ => outlineArea_upright hls hsq x]
    _ = squares.card := sum_columnCount hleft hright

end Covered

/-- Rectilinear loops cover finitely many squares, and the area inside their outline is the number of these squares. -/
theorem exists_squares (hls : ∀ l ∈ ls, l.Rectilinear) :
    ∃ squares : Finset Point, (∀ c, c ∈ squares ↔ ∃ l ∈ ls, l.Covers c) ∧ outlineArea (outline ls) = squares.card := by
  obtain ⟨squares, hmem, -⟩ := Rect.exists_squares (RectSet.exact_empty.insertAll (ls.flatMap Loop.slabs)).once
  have hsq (c : Point) : c ∈ squares ↔ ∃ l ∈ ls, l.Covers c := by
    rw [hmem]
    refine RectSet.covers_insertAll.trans ((or_iff_right (RectSet.not_covers_empty c)).trans ?_)
    simp only [List.mem_flatMap]
    constructor
    · rintro ⟨r, ⟨l, hl, hr⟩, hc⟩
      exact ⟨l, hl, ((hls l hl).exists_slabs_covers c).1 ⟨r, hr, hc⟩⟩
    · rintro ⟨l, hl, hc⟩
      obtain ⟨r, hr, hc⟩ := ((hls l hl).exists_slabs_covers c).2 hc
      exact ⟨r, ⟨l, hl, hr⟩, hc⟩
  exact ⟨squares, hsq, outlineArea_outline hls hsq⟩

end Outline

end MaskLayout
