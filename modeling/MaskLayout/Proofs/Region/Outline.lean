import MaskLayout.Proofs.Region.Slabs
import MaskLayout.Region.Outline
import Mathlib.Algebra.BigOperators.Group.List.Basic
import Mathlib.Data.Rat.Floor
import Mathlib.Tactic.Ring

/-!
# Outlines of rectilinear loops

The outline of rectilinear loops, line by line. A line carries the outline between cuts whose sides are covered
differently. The cuts of an upright line with rectilinear loops are integers, and its sides are covered as the unit
squares to the left and to the right of it.
-/

namespace MaskLayout

namespace OutlineEdge

variable {e f : OutlineEdge}

/-- Two parts of one line sweep together what they sweep as one part. -/
theorem swept_add_swept (hdir : e.dir = f.dir) (hoffset : e.offset = f.offset) (hmeet : e.stop = f.start) :
    e.swept + f.swept = swept { e with stop := f.stop } := by
  simp only [swept, xAt, yAt, hdir, hoffset, hmeet]
  ring

theorem swept_of_flat (h : e.dir.y = 0) : e.swept = 0 := by
  simp [swept, yAt, h]

end OutlineEdge

section Sums

@[simp] theorem outlineArea_nil : outlineArea [] = 0 := rfl

@[simp] theorem outlineArea_singleton (e : OutlineEdge) : outlineArea [e] = e.swept := add_zero _

theorem outlineArea_cons (e : OutlineEdge) (es : List OutlineEdge) :
    outlineArea (e :: es) = e.swept + outlineArea es := rfl

theorem outlineArea_append (es fs : List OutlineEdge) :
    outlineArea (es ++ fs) = outlineArea es + outlineArea fs := by
  induction es with
  | nil => exact (zero_add _).symm
  | cons e es ih => rw [List.cons_append, outlineArea_cons, outlineArea_cons, ih, add_assoc]

theorem outlineArea_flatMap {α : Type} (xs : List α) (f : α → List OutlineEdge) :
    outlineArea (xs.flatMap f) = (xs.map fun x => outlineArea (f x)).sum := by
  induction xs with
  | nil => rfl
  | cons x xs ih => rw [List.flatMap_cons, outlineArea_append, ih, List.map_cons, List.sum_cons]

theorem outlineArea_of_flat {es : List OutlineEdge} (h : ∀ e ∈ es, e.dir.y = 0) : outlineArea es = 0 := by
  induction es with
  | nil => rfl
  | cons e es ih =>
      obtain ⟨he, hes⟩ := List.forall_mem_cons.1 h
      rw [outlineArea_cons, OutlineEdge.swept_of_flat he, ih hes, add_zero]

end Sums

namespace Outline

section Join

variable {es : List OutlineEdge}

/-- Joined parts run along the lines of the parts that they were joined from. -/
theorem forall_mem_join {p : Point → Int → Prop} (h : ∀ e ∈ es, p e.dir e.offset) :
    ∀ e ∈ join es, p e.dir e.offset := by
  fun_induction join es with
  | case1 => exact h
  | case2 f rest hrest ih => exact List.forall_mem_singleton.2 (h f List.mem_cons_self)
  | case3 f rest g more hrest hmeet ih =>
      obtain ⟨hf, h⟩ := List.forall_mem_cons.1 h
      exact List.forall_mem_cons.2 ⟨hf, (List.forall_mem_cons.1 (hrest ▸ ih h)).2⟩
  | case4 f rest g more hrest hnot hmeet ih =>
      obtain ⟨hf, h⟩ := List.forall_mem_cons.1 h
      exact List.forall_mem_cons.2 ⟨hf, (List.forall_mem_cons.1 (hrest ▸ ih h)).2⟩
  | case5 f rest g more hrest hnot hnot' ih =>
      obtain ⟨hf, h⟩ := List.forall_mem_cons.1 h
      exact List.forall_mem_cons.2 ⟨hf, hrest ▸ ih h⟩

/-- Joining keeps the area of parts whose directions determine their lines. -/
theorem outlineArea_join {offset : Point → Int} (h : ∀ e ∈ es, e.offset = offset e.dir) :
    outlineArea (join es) = outlineArea es := by
  have hjoin {f g : OutlineEdge} {rest more : List OutlineEdge} (hrest : join rest = g :: more)
      (h : ∀ e ∈ f :: rest, e.offset = offset e.dir) (hdir : f.dir = g.dir) : f.offset = g.offset := by
    obtain ⟨hf, h⟩ := List.forall_mem_cons.1 h
    have hg := (List.forall_mem_cons.1 (hrest ▸ forall_mem_join (p := fun d o => o = offset d) h)).1
    rw [hf, hg, hdir]
  fun_induction join es with
  | case1 => rfl
  | case2 f rest hrest ih =>
      rw [outlineArea_cons, outlineArea_cons, ← ih (List.forall_mem_cons.1 h).2, hrest]
  | case3 f rest g more hrest hmeet ih =>
      have hsum := OutlineEdge.swept_add_swept hmeet.1 (hjoin hrest h hmeet.1) hmeet.2
      rw [outlineArea_cons, outlineArea_cons, ← ih (List.forall_mem_cons.1 h).2, hrest, outlineArea_cons, ← hsum,
        add_assoc]
  | case4 f rest g more hrest hnot hmeet ih =>
      have hoffset := hjoin hrest h hmeet.1
      have hsum := OutlineEdge.swept_add_swept hmeet.1.symm hoffset.symm hmeet.2
      rw [outlineArea_cons, outlineArea_cons, ← ih (List.forall_mem_cons.1 h).2, hrest, outlineArea_cons, hmeet.1,
        hoffset, ← hsum, add_comm g.swept, add_assoc]
  | case5 f rest g more hrest hnot hnot' ih =>
      rw [outlineArea_cons, outlineArea_cons f rest, ← ih (List.forall_mem_cons.1 h).2, hrest]

end Join

theorem nodup_eraseDups (lines : List Line) : lines.eraseDups.Nodup := by
  match lines with
  | [] => exact List.nodup_nil
  | line :: rest =>
      rw [List.eraseDups_cons, List.nodup_cons]
      exact ⟨by simp, nodup_eraseDups (rest.filter fun other => !other == line)⟩
termination_by lines.length
decreasing_by exact Nat.lt_succ_of_le (List.length_filter_le _ _)

theorem allCuts_spec (loops : List (List Relative)) :
    (allCuts loops).Pairwise (· < ·) ∧ ∀ s, s ∈ allCuts loops ↔ ∃ rs ∈ loops, ∃ r ∈ rs, s ∈ r.cuts := by
  obtain ⟨hlt, hmem⟩ := Loop.eraseReps_of_ascending
    (Loop.ascending_mergeSort (loops.flatMap fun rs => rs.flatMap Relative.cuts))
  refine ⟨hlt, fun s => (hmem s).trans ?_⟩
  rw [List.mem_mergeSort]
  simp only [List.mem_flatMap]

/-- Where no edge runs along a line, a loop covers the points on both sides of it or none of them. -/
theorem sides_of_off_line {rs : List Relative} {s : Rat} (h : ∀ r ∈ rs, (r.onLine && r.spans s) = false) :
    (sides rs s).1 = (sides rs s).2 := by
  have halong : (rs.filter (·.spans s)).countP (·.onLine) = 0 := by
    rw [List.countP_filter, List.countP_eq_zero]
    exact fun r hr => Bool.eq_false_iff.1 (h r hr)
  simp only [sides, halong, add_zero]

/-- An outline part on a line runs along the line, either way. -/
theorem dir_of_mem_piece? {line : Line} {loops : List (List Relative)} {gap : Rat × Rat} {e : OutlineEdge}
    (he : piece? line loops gap = some e) :
    e.dir = line.dir ∧ e.offset = line.offset ∨ e.dir = -line.dir ∧ e.offset = -line.offset := by
  simp only [piece?] at he
  split at he
  · split at he
    · cases he
    · rw [← Option.some.inj he]
      split
      · exact .inl ⟨rfl, rfl⟩
      · exact .inr ⟨rfl, rfl⟩
  · cases he

/-- The outline on a line has the area of all pieces between cuts. -/
theorem outlineArea_onLine (loops : List (List (Point × Point))) {line : Line} (hdir : -line.dir ≠ line.dir) :
    outlineArea (onLine loops line) =
      (((allCuts (relatives line loops)).zip
        ((allCuts (relatives line loops)).drop 1)).map fun gap =>
          outlineArea (piece? line (relatives line loops) gap).toList).sum := by
  let offset : Point → Int := fun d => if d = line.dir then line.offset else -line.offset
  rw [onLine, outlineArea_join fun e he => (?_ : e.offset = offset e.dir), List.filterMap_eq_flatMap_toList,
    outlineArea_flatMap]
  obtain ⟨gap, -, hgap⟩ := List.mem_filterMap.1 he
  rcases dir_of_mem_piece? hgap with ⟨hd, ho⟩ | ⟨hd, ho⟩
  · simp [offset, hd, ho]
  · simp [offset, hd, ho, hdir]

theorem outlineArea_of_level_line (loops : List (List (Point × Point))) {line : Line} (h : line.dir.y = 0) :
    outlineArea (onLine loops line) = 0 := by
  refine outlineArea_of_flat (forall_mem_join (p := fun d _ => d.y = 0) fun e he => ?_)
  obtain ⟨gap, -, hgap⟩ := List.mem_filterMap.1 he
  rcases dir_of_mem_piece? hgap with ⟨hd, -⟩ | ⟨hd, -⟩
  · rw [hd, h]
  · rw [hd, Point.neg_y, h, neg_zero]

/-- A line along which no edge runs carries no part of the outline. -/
theorem onLine_eq_nil {loops : List (List (Point × Point))} {line : Line}
    (h : ∀ es ∈ loops, ∀ e ∈ es, ∀ s, ((relative line e).onLine && (relative line e).spans s) = false) :
    onLine loops line = [] := by
  have hpiece (gap : Rat × Rat) : piece? line (relatives line loops) gap = none := by
    refine if_neg fun hedge => ?_
    simp only [relatives, List.any_eq_true, List.mem_map] at hedge
    obtain ⟨_, ⟨es, hes, rfl⟩, hedge⟩ := hedge
    obtain ⟨r, hr, hon⟩ := hedge
    obtain ⟨e, he, rfl⟩ := List.mem_map.1 hr
    rw [h es hes e he] at hon
    cases hon
  rw [onLine, List.filterMap_eq_nil_iff.2 fun gap _ => hpiece gap]
  rfl

/-- The upright line at an abscissa. -/
def upright (x : Int) : Line := ⟨⟨0, 1⟩, -x⟩

/-- The level line at an ordinate. -/
def level (y : Int) : Line := ⟨⟨1, 0⟩, y⟩

theorem upright_injective : Function.Injective upright := fun _ _ h => neg_injective (congrArg Line.offset h)

theorem lineOf?_of_upright {e : Point × Point} (hx : e.1.x = e.2.x) (hy : e.1.y ≠ e.2.y) :
    lineOf? e = some (upright e.1.x) := by
  obtain ⟨⟨x, y⟩, ⟨x', y'⟩⟩ := e
  obtain rfl : x = x' := hx
  obtain ⟨d, rfl⟩ : ∃ d, y' = y + d := ⟨y' - y, by omega⟩
  have hd : d ≠ 0 := by
    rintro rfl
    exact hy (add_zero y).symm
  rcases lt_or_gt_of_ne hd with hneg | hpos
  · simp [lineOf?, upright, hd, abs_of_neg hneg, Point.cross, show (-⟨0, -1⟩ : Point) = ⟨0, 1⟩ from rfl]
  · simp [lineOf?, upright, hd, abs_of_pos hpos, Point.cross]

theorem lineOf?_of_level {e : Point × Point} (hy : e.1.y = e.2.y) {line : Line} (h : lineOf? e = some line) :
    line = level e.1.y := by
  obtain ⟨⟨x, y⟩, ⟨x', y'⟩⟩ := e
  obtain rfl : y = y' := hy
  obtain ⟨d, rfl⟩ : ∃ d, x' = x + d := ⟨x' - x, by omega⟩
  have hd : d ≠ 0 := by
    rintro rfl
    simp [lineOf?] at h
  rcases lt_or_gt_of_ne hd with hneg | hpos
  · simpa [lineOf?, level, hd, abs_of_neg hneg, Point.cross, show (-⟨-1, 0⟩ : Point) = ⟨1, 0⟩ from rfl] using h.symm
  · simpa [lineOf?, level, hd, abs_of_pos hpos, Point.cross] using h.symm

section Upright

open Loop

variable {l : Loop} {e : Point × Point} {x : Int} {s : Rat}

theorem relative_upright (x : Int) (e : Point × Point) :
    relative (upright x) e = ⟨e.1.y, e.2.y, x - e.1.x, x - e.2.x⟩ := by
  simp only [relative, upright, Point.dot, Point.cross, Relative.mk.injEq]
  omega

theorem onLine_relative_iff : (relative (upright x) e).onLine = true ↔ e.1.x = x ∧ e.2.x = x := by
  simp only [relative_upright, Relative.onLine, Bool.and_eq_true, beq_iff_eq]
  omega

theorem spans_relative (x k : Int) (e : Point × Point) (s : Rat) :
    (relative (upright x) e).spans s = (below ⟨k, ⌊s⌋⟩ e.1 != below ⟨k, ⌊s⌋⟩ e.2) := by
  simp only [relative_upright, Relative.spans, below, Int.le_floor]

/-- An upright edge over a position passes on the left if its abscissa is less. -/
theorem passesLeft_relative_iff (hx : e.1.x = e.2.x) (hspan : (relative (upright x) e).spans s = true) :
    (relative (upright x) e).passesLeft s = true ↔ e.1.x < x := by
  have hleft : 0 < ((x - e.1.x : Int) : Rat) ↔ e.1.x < x := by rw [Int.cast_pos, sub_pos]
  simp only [relative_upright, Relative.spans, bne_iff_ne, ne_eq, decide_eq_decide] at hspan
  simp only [relative_upright, Relative.passesLeft, ← hx, sub_self, mul_zero, add_zero]
  split
  · rename_i hup
    have hup : 0 < (e.2.y : Rat) - e.1.y := sub_pos.2 (Int.cast_lt.2 hup)
    rw [decide_eq_true_eq, mul_pos_iff_of_pos_right hup, hleft]
  · rename_i hdown
    have hne : e.1.y ≠ e.2.y := fun h => hspan (by rw [h])
    have hdown : (e.2.y : Rat) - e.1.y < 0 := sub_neg.2 (Int.cast_lt.2 (by omega))
    rw [decide_eq_true_eq, mul_neg_iff, hleft]
    simp [hdown, hdown.not_gt]

/-- Just left and just right of an upright line, a loop covers what it covers of the squares there. -/
theorem sides_upright (hl : l.Rectilinear) (x : Int) (s : Rat) :
    sides (l.edges.map (relative (upright x))) s =
      (decide (l.Covers ⟨x - 1, ⌊s⌋⟩), decide (l.Covers ⟨x, ⌊s⌋⟩)) := by
  have hbeyond : ((l.edges.map (relative (upright x))).filter (·.spans s)).countP
      (fun r => !r.onLine && r.passesLeft s) = turns (leftOf ⟨x - 1, ⌊s⌋⟩) (below ⟨x - 1, ⌊s⌋⟩) l := by
    rw [List.countP_filter, List.countP_map, turns]
    refine List.countP_congr fun e he => ?_
    rw [Function.comp_apply, ← spans_relative x, Bool.and_eq_true, Bool.and_eq_true, Bool.and_eq_true]
    refine and_congr_left fun hspan => ?_
    have hx := hl.upright_of_passes he (spans_relative x x e s ▸ hspan)
    rw [passesLeft_relative_iff hx hspan, leftOf_iff, Bool.not_eq_true', Bool.eq_false_iff, ne_eq,
      onLine_relative_iff]
    simp only
    omega
  have hsum : turns (leftOf ⟨x - 1, ⌊s⌋⟩) (below ⟨x - 1, ⌊s⌋⟩) l +
      ((l.edges.map (relative (upright x))).filter (·.spans s)).countP (·.onLine) =
      turns (leftOf ⟨x, ⌊s⌋⟩) (below ⟨x, ⌊s⌋⟩) l := by
    rw [List.countP_filter, List.countP_map]
    refine countP_add fun e he => ?_
    rw [Function.comp_apply, ← spans_relative x, ← spans_relative x]
    cases hspan : (relative (upright x) e).spans s with
    | false => simp
    | true =>
        have hx := hl.upright_of_passes he (spans_relative x x e s ▸ hspan)
        have hon : (relative (upright x) e).onLine = decide (e.1.x = x) := by
          rw [Bool.eq_iff_iff, onLine_relative_iff, decide_eq_true_iff]
          omega
        simp only [hon, leftOf, Bool.and_true]
        by_cases h : e.1.x = x
        · simp [h]
        · simp [h, show e.1.x ≤ x ↔ e.1.x ≤ x - 1 by omega]
  simp only [sides, hbeyond, hsum, hl.covers_iff]
  rfl

theorem swept_upright (x : Int) (a b : Rat) :
    OutlineEdge.swept ⟨(upright x).dir, (upright x).offset, a, b⟩ = x * (b - a) := by
  simp [OutlineEdge.swept, OutlineEdge.xAt, OutlineEdge.yAt, upright, Point.dot]

theorem swept_reverse_upright (x : Int) (a b : Rat) :
    (OutlineEdge.reverse ⟨(upright x).dir, (upright x).offset, a, b⟩).swept = x * (a - b) := by
  simp [OutlineEdge.swept, OutlineEdge.reverse, OutlineEdge.xAt, OutlineEdge.yAt, upright, Point.dot]

/-- An upright line that is not the line of an edge carries no part of the outline. -/
theorem onLine_upright_eq_nil {ls : List Loop} (h : ∀ l ∈ ls, ∀ e ∈ l.edges, lineOf? e ≠ some (upright x)) :
    onLine (ls.map edges) (upright x) = [] := by
  refine onLine_eq_nil (List.forall_mem_map.2 fun l hl e he s => ?_)
  by_cases hon : e.1.x = x ∧ e.2.x = x
  · obtain ⟨rfl, hx⟩ := hon
    have hy : e.1.y = e.2.y := by
      by_contra hy
      exact h l hl e he (lineOf?_of_upright hx.symm hy)
    simp [relative_upright, Relative.spans, hy]
  · rw [Bool.eq_false_iff.2 (mt onLine_relative_iff.1 hon), Bool.false_and]

/-- Whether an edge meets the upright line at an abscissa. -/
def Meets (x : Int) (e : Point × Point) : Prop := e.1.x ≤ x ∧ x ≤ e.2.x ∨ e.2.x ≤ x ∧ x ≤ e.1.x

/-- A straight edge cuts an upright line that it meets at its ends, and no other upright line. -/
theorem mem_cuts_iff (he : e.1.x = e.2.x ∨ e.1.y = e.2.y) :
    s ∈ (relative (upright x) e).cuts ↔ Meets x e ∧ (s = e.1.y ∨ s = e.2.y) := by
  by_cases hon : e.1.x = x ∧ e.2.x = x
  · have hmeets : Meets x e := .inl ⟨hon.1.le, hon.2.ge⟩
    rw [Relative.cuts, if_pos (onLine_relative_iff.2 hon), relative_upright]
    simp [hmeets]
  · rw [Relative.cuts, if_neg (mt onLine_relative_iff.1 hon), relative_upright]
    by_cases hmeets : Meets x e
    · have hy : e.1.y = e.2.y := by
        unfold Meets at hmeets
        omega
      rw [if_pos (by unfold Meets at hmeets; simp only; omega)]
      simp [hmeets, hy]
    · rw [if_neg (by unfold Meets at hmeets; simp only; omega)]
      simp [hmeets]

variable {ls : List Loop}

/-- The cuts of rectilinear loops with an upright line are integers, among them both ends of every edge that meets the
line. -/
theorem exists_allCuts (hls : ∀ l ∈ ls, l.Rectilinear) (x : Int) :
    ∃ rows : List Int, rows.Pairwise (· < ·) ∧
      allCuts (relatives (upright x) (ls.map edges)) = rows.map (↑) ∧
      ∀ l ∈ ls, ∀ e ∈ l.edges, Meets x e → e.1.y ∈ rows ∧ e.2.y ∈ rows := by
  obtain ⟨hlt, hmem⟩ := allCuts_spec (relatives (upright x) (ls.map edges))
  generalize allCuts (relatives (upright x) (ls.map edges)) = cuts at hlt hmem ⊢
  have hcuts (s : Rat) : s ∈ cuts ↔ ∃ l ∈ ls, ∃ e ∈ l.edges, Meets x e ∧ (s = e.1.y ∨ s = e.2.y) := by
    simp only [hmem, relatives, List.map_map, List.mem_map, Function.comp_apply, exists_exists_and_eq_and]
    refine exists_congr fun l => and_congr_right fun hl => exists_congr fun e => and_congr_right fun he => ?_
    exact mem_cuts_iff (hls l hl e he)
  have hcast : cuts = (cuts.map Rat.num).map (↑) := by
    rw [List.map_map]
    refine (List.map_id cuts).symm.trans (List.map_congr_left fun s hs => ?_)
    obtain ⟨-, -, e, -, -, rfl | rfl⟩ := (hcuts s).1 hs <;> rfl
  refine ⟨cuts.map Rat.num, ?_, hcast, fun l hl e he hmeets => ⟨?_, ?_⟩⟩
  · rw [hcast, List.pairwise_map] at hlt
    exact hlt.imp Int.cast_lt.1
  · exact List.mem_map.2 ⟨e.1.y, (hcuts _).2 ⟨l, hl, e, he, hmeets, .inl rfl⟩, rfl⟩
  · exact List.mem_map.2 ⟨e.2.y, (hcuts _).2 ⟨l, hl, e, he, hmeets, .inr rfl⟩, rfl⟩

end Upright

end Outline

end MaskLayout
