import MaskLayout.Proofs.Path.Offset
import MaskLayout.Proofs.Path.Strips

/-!
# Buses along straight lines

Buses along straight lines. The wires of a bus lie side by side across its line, each of them in a strip between two
distances from the line. What is refused are its spaces, its points, its turns and wires that are too narrow, and never
widths or spaces that do not fit the grid.
-/

namespace MaskLayout

namespace Path

section Refused

variable {r : Rounding} {total before dist : Int} {widths spaces : List Int} {styles : PathStyles} {points : List Point}
  {e : LayoutError}

/-- A bus is refused for a lack of spaces, for a negative one and for a lack of points; else its wires are drawn. -/
theorem busLoops_eq (r : Rounding) (points : List Point) (widths spaces : List Int) (styles : PathStyles) :
    busLoops r points widths spaces styles =
      if spaces.length + 1 = widths.length then
        if ∀ space ∈ spaces, 0 ≤ space then
          if 2 ≤ points.eraseReps.length then
            busWires r points.eraseReps styles (widths.sum + spaces.sum) 0 widths spaces
          else .error (.representation (.fewPoints points))
        else .error (.representation .negativeSpace)
      else .error (.representation (.busSpaces widths.length spaces.length)) := by
  rw [busLoops]
  by_cases hlength : spaces.length + 1 = widths.length
  · have hwidths : ¬ (widths.isEmpty = true ∨ spaces.length + 1 ≠ widths.length) := by
      rw [List.isEmpty_iff_length_eq_zero]
      omega
    rw [if_neg hwidths, if_pos hlength]
    by_cases hspaces : ∀ space ∈ spaces, 0 ≤ space
    · have hany : ¬ (spaces.any (· < 0) = true) := by simpa using hspaces
      rw [if_neg hany, if_pos hspaces, centerLine_eq]
      by_cases htwo : 2 ≤ points.eraseReps.length
      · rw [if_pos htwo, if_pos htwo]
        rfl
      · rw [if_neg htwo, if_neg htwo]
        rfl
    · have hany : spaces.any (· < 0) = true := by simpa using hspaces
      rw [if_pos hany, if_neg hspaces]
      rfl
  · rw [if_pos (.inr hlength), if_neg hlength]
    rfl

theorem representation_of_offsetLine (htwo : 2 ≤ points.eraseReps.length)
    (h : offsetLine r points.eraseReps dist = .error e) : ∃ fault, e = .representation fault := by
  cases hskew : firstSkew? points.eraseReps with
  | some leg =>
      rw [offsetLine_of_firstSkew? hskew] at h
      exact ⟨_, (Except.error.inj h).symm⟩
  | none =>
      have hline := centerLine_of_firstSkew? htwo hskew
      by_cases hback : Reverses points.eraseReps
      · obtain ⟨c, hc⟩ := offsetLine_of_reverses hline hback r dist
        rw [hc] at h
        exact ⟨_, (Except.error.inj h).symm⟩
      · obtain ⟨wire, hwire, -⟩ := exists_offsetLine hline hback r dist
        rw [hwire] at h
        cases h

theorem representation_of_busWires (htwo : 2 ≤ points.eraseReps.length)
    (h : busWires r points.eraseReps styles total before widths spaces = .error e) :
    ∃ fault, e = .representation fault := by
  induction widths generalizing before spaces with
  | nil => cases h
  | cons width widths ih =>
      rw [busWires, Success.bind_error_iff] at h
      rcases h with h | ⟨wire, -, h⟩
      · exact representation_of_offsetLine htwo h
      rw [Success.bind_error_iff] at h
      rcases h with h | ⟨here, -, h⟩
      · obtain ⟨-, rfl⟩ | ⟨-, rfl⟩ | ⟨leg, -, -, rfl⟩ := refused_of_loops h
        · exact ⟨_, rfl⟩
        · exact ⟨_, rfl⟩
        · exact ⟨_, rfl⟩
      rw [Success.bind_error_iff] at h
      rcases h with h | ⟨more, -, h⟩
      · exact ih h
      · cases h

/-- Whatever a bus is refused for is a representation error. -/
theorem representation_of_busLoops (h : busLoops r points widths spaces styles = .error e) :
    ∃ fault, e = .representation fault := by
  rw [busLoops_eq] at h
  split at h
  · split at h
    · split at h
      · rename_i htwo
        exact representation_of_busWires htwo h
      · exact ⟨_, (Except.error.inj h).symm⟩
    · exact ⟨_, (Except.error.inj h).symm⟩
  · exact ⟨_, (Except.error.inj h).symm⟩

end Refused

section Straight

variable {r : Rounding} {dist total before halfWidth : Int} {widths spaces : List Int} {styles : PathStyles}
  {p q d : Point} {line rest points : List Point}

/-- Whether all points lie on one horizontal or one vertical line. -/
def Straight (points : List Point) : Prop :=
  (∀ p ∈ points, ∀ q ∈ points, p.y = q.y) ∨ ∀ p ∈ points, ∀ q ∈ points, p.x = q.x

instance (points : List Point) : Decidable (Straight points) := inferInstanceAs (Decidable (_ ∨ _))

/-- The loops of a strip along the segments of a line in direction `d`. -/
def Strip.loops (s : Strip) (d : Point) (line : List Point) : List Loop :=
  (legs line).map fun leg =>
    [leg.1 + d.left.scale s.right, leg.2 + d.left.scale s.right, leg.2 + d.left.scale s.left, leg.1 + d.left.scale s.left]

theorem Straight.eraseReps (h : Straight points) : Straight points.eraseReps := by
  simpa only [Straight, mem_eraseReps] using h

theorem Straight.upright_or_level (h : Straight line) {leg : Point × Point} (hleg : leg ∈ legs line) :
    (leg.2 - leg.1).x = 0 ∨ (leg.2 - leg.1).y = 0 := by
  obtain ⟨hp, hq⟩ := mem_of_mem_legs hleg
  rcases h with h | h
  · have hy := h _ hp _ hq
    exact .inr (by rw [Point.sub_y]; omega)
  · have hx := h _ hp _ hq
    exact .inl (by rw [Point.sub_x]; omega)

theorem Straight.drawable (h : Straight points) (hne : ∃ p ∈ points, ∃ q ∈ points, p ≠ q) : Drawable points :=
  ⟨hne, fun _ hleg _ => (h.upright_or_level hleg).imp id .inl⟩

/-- Along a straight line all segments are parallel. -/
theorem Straight.cross_heading (h : Straight line) {a b : Point × Point} (ha : a ∈ legs line) (hb : b ∈ legs line) :
    (a.2 - a.1).heading.cross (b.2 - b.1).heading = 0 := by
  rcases h with h | h
  · have hlevel : ∀ leg ∈ legs line, (leg.2 - leg.1).heading.y = 0 := by
      intro leg hleg
      obtain ⟨hp, hq⟩ := mem_of_mem_legs hleg
      exact Point.heading_y_eq_zero_iff.2 (Int.sub_eq_zero.2 (h leg.2 hq leg.1 hp))
    rw [Point.cross, hlevel a ha, hlevel b hb, Int.mul_zero, Int.zero_mul, Int.sub_zero]
  · have hupright : ∀ leg ∈ legs line, (leg.2 - leg.1).heading.x = 0 := by
      intro leg hleg
      obtain ⟨hp, hq⟩ := mem_of_mem_legs hleg
      exact Point.heading_x_eq_zero_iff.2 (Int.sub_eq_zero.2 (h leg.2 hq leg.1 hp))
    rw [Point.cross, hupright a ha, hupright b hb, Int.mul_zero, Int.zero_mul, Int.sub_zero]

/-- Along a straight line that does not run back all segments have one direction. -/
theorem Straight.heading_eq (h : Straight (p :: q :: rest)) (hline : CenterLine (p :: q :: rest))
    (hturn : ¬ Reverses (p :: q :: rest)) :
    ∀ leg ∈ legs (p :: q :: rest), (leg.2 - leg.1).heading = (q - p).heading := by
  induction rest generalizing p q with
  | nil => exact List.forall_mem_singleton.2 rfl
  | cons s rest ih =>
      rw [reverses_cons_iff, not_or, ← hline.opposite_iff] at hturn
      have htail : Straight (q :: s :: rest) :=
        h.imp (fun h p hp q hq => h p (.tail _ hp) q (.tail _ hq)) fun h p hp q hq => h p (.tail _ hp) q (.tail _ hq)
      have hfirst : (p, q) ∈ legs (p :: q :: s :: rest) := List.mem_cons_self
      have hsecond : (q, s) ∈ legs (p :: q :: s :: rest) := List.mem_cons_of_mem _ List.mem_cons_self
      have hcross : (q - p).heading.cross (s - q).heading = 0 := h.cross_heading hfirst hsecond
      have hsame : (s - q).heading = (q - p).heading := by
        rcases Point.turn_cases _ hline.head_mem_compass _ hline.tail.head_mem_compass hturn.1 with hsame | hside | hside
        · exact hsame
        · exact absurd hcross hside.2.1
        · omega
      refine List.forall_mem_cons.2 ⟨rfl, ?_⟩
      rw [← hsame]
      exact ih htail hline.tail hturn.2

/-- A line of one direction is moved as a whole. -/
theorem corners_straight (h : ∀ leg ∈ legs (p :: q :: rest), (leg.2 - leg.1).heading = d) :
    corners r dist (p :: q :: rest) = .ok ((q :: rest).dropLast.map (· + shift r dist d)) := by
  induction rest generalizing p q with
  | nil => rfl
  | cons s rest ih =>
      obtain ⟨hpq, htail⟩ := List.forall_mem_cons.1 h
      obtain ⟨hqs, -⟩ := List.forall_mem_cons.1 htail
      rw [corners_cons, hpq, hqs, miter_straight, Success.ok_bind, ih htail, Success.ok_bind]
      rfl

theorem offsetLine_straight (hline : CenterLine line) (h : ∀ leg ∈ legs line, (leg.2 - leg.1).heading = d) :
    offsetLine r line dist = .ok (line.map (· + shift r dist d)) := by
  obtain ⟨p, q, rest, rfl⟩ := hline.exists_cons
  obtain ⟨last, hlast, hpoint⟩ := exists_last_leg p q rest
  have hend : (q :: rest).dropLast ++ [last.2] = q :: rest := List.dropLast_append_getLast? last.2 hpoint
  have hmoved : ((q :: rest).dropLast.map (· + shift r dist d)) ++ [last.2 + shift r dist d] =
      (q :: rest).map (· + shift r dist d) := by
    calc
      _ = ((q :: rest).dropLast ++ [last.2]).map (· + shift r dist d) := by
        rw [List.map_append]
        rfl
      _ = (q :: rest).map (· + shift r dist d) := by rw [hend]
  rw [offsetLine_eq hline hlast hpoint, corners_straight h, Success.ok_bind, h last (List.mem_of_getLast? hlast),
    h (p, q) List.mem_cons_self, hmoved]
  rfl

theorem segmentLoops_truncated (hd : d.x = 0 ∨ d.y = 0) (p q : Point) (dist halfWidth : Int) :
    segmentLoops r d (p + d.left.scale dist) (q + d.left.scale dist) halfWidth .truncate .truncate =
      [[p + d.left.scale (dist - halfWidth), q + d.left.scale (dist - halfWidth),
        q + d.left.scale (dist + halfWidth), p + d.left.scale (dist + halfWidth)]] := by
  simp only [segmentLoops, cap, reduceCtorEq, if_false, steps_straight r hd, Point.sub_scale_zero, Point.add_scale_zero,
    Point.add_scale_sub_scale, Point.add_scale_add_scale, List.append_nil]

/-- Truncated segments of one direction are drawn between two parallels. -/
theorem drawn_straight (hd : d.x = 0 ∨ d.y = 0) (h : ∀ leg ∈ legs line, (leg.2 - leg.1).heading = d) (dist : Int) :
    drawn r halfWidth (uniform .truncate) (uniform .truncate).first (legs (line.map (· + d.left.scale dist))) =
      Strip.loops ⟨dist - halfWidth, dist + halfWidth⟩ d line := by
  rw [drawn_uniform, legs_map, List.flatMap_map, Strip.loops, List.map_eq_flatMap]
  apply List.flatMap_congr
  intro leg hleg
  rw [Point.add_sub_add_right, h leg hleg, segmentLoops_truncated hd]

theorem loops_straight (hline : CenterLine line) (hd : d.x = 0 ∨ d.y = 0)
    (h : ∀ leg ∈ legs line, (leg.2 - leg.1).heading = d) (hwidth : 0 < halfWidth) (dist : Int) :
    loops r (line.map (· + d.left.scale dist)) halfWidth (uniform .truncate) =
      .ok (Strip.loops ⟨dist - halfWidth, dist + halfWidth⟩ d line) := by
  have hmoved := hline.moved (d.left.scale dist)
  have hsame := eraseReps_of_distinct hmoved.distinct
  rw [loops_iff, ← centerLine_eraseReps_iff, hsame]
  exact ⟨⟨hwidth, hmoved⟩, drawn_straight hd h dist⟩

/-- Along a straight line a bus is drawn as its strips, or the first wire that is too narrow is refused. -/
theorem busWires_straight (hline : CenterLine line) (hd : d.x = 0 ∨ d.y = 0)
    (h : ∀ leg ∈ legs line, (leg.2 - leg.1).heading = d) :
    busWires r line (uniform .truncate) total before widths spaces =
      match widths.find? (· < 2) with
      | some w => .error (.representation (.halfWidth (w.tdiv 2)))
      | none => .ok ((layOut (cutStrip total) before widths spaces).flatMap (Strip.loops · d line)) := by
  induction widths generalizing before spaces with
  | nil => rfl
  | cons width widths ih =>
      have hshift (dist : Int) : shift r dist d = d.left.scale dist := by rw [shift, steps_straight r hd]
      rw [busWires, offsetLine_straight hline h, Success.ok_bind, hshift]
      by_cases hwidth : width < 2
      · have hhalf : width.tdiv 2 ≤ 0 := not_lt.1 (mt tdiv_two_pos_iff.1 (by omega))
        rw [List.find?_cons_of_pos (by simpa using hwidth), loops_of_nonpos hhalf, Success.error_bind]
      · have hhalf : 0 < width.tdiv 2 := tdiv_two_pos_iff.2 (by omega)
        rw [List.find?_cons_of_neg (by simpa using hwidth), loops_straight hline hd h hhalf, Success.ok_bind, ih]
        cases widths.find? (· < 2) with
        | some w => rfl
        | none => rfl

theorem busWires_straight_iff {ls : List Loop} (hline : CenterLine line) (hd : d.x = 0 ∨ d.y = 0)
    (h : ∀ leg ∈ legs line, (leg.2 - leg.1).heading = d) :
    busWires r line (uniform .truncate) total before widths spaces = .ok ls ↔
      (∀ w ∈ widths, 2 ≤ w) ∧ (layOut (cutStrip total) before widths spaces).flatMap (Strip.loops · d line) = ls := by
  rw [busWires_straight hline hd h]
  cases hfind : widths.find? (· < 2) with
  | some w =>
      have hw : w < 2 := by simpa using List.find?_some hfind
      exact iff_of_false nofun fun h => absurd (h.1 w (List.mem_of_find?_eq_some hfind)) (by omega)
  | none =>
      have hwide : ∀ w ∈ widths, 2 ≤ w := by
        intro w hw
        have hnarrow := List.find?_eq_none.1 hfind w hw
        rw [decide_eq_true_iff] at hnarrow
        omega
      rw [Except.ok.injEq, and_iff_right hwide]

theorem busWires_of_reverses (r : Rounding) (styles : PathStyles) (total before : Int) (spaces : List Int)
    (hline : CenterLine line) (hback : Reverses line) (hwidths : widths ≠ []) :
    ∃ e, busWires r line styles total before widths spaces = .error e := by
  obtain ⟨width, widths, rfl⟩ := List.exists_cons_of_ne_nil hwidths
  obtain ⟨c, hc⟩ := offsetLine_of_reverses hline hback r ((2 * before + width - total).tdiv 2)
  rw [busWires, hc, Success.error_bind]
  exact ⟨_, rfl⟩

/-- A straight line that does not run back has a direction. -/
theorem Straight.exists_heading (h : Straight line) (hline : CenterLine line) (hturn : ¬ Reverses line) :
    ∃ d ∈ Point.compass, (d.x = 0 ∨ d.y = 0) ∧ ∀ leg ∈ legs line, (leg.2 - leg.1).heading = d := by
  obtain ⟨p, q, rest, rfl⟩ := hline.exists_cons
  refine ⟨(q - p).heading, hline.head_mem_compass, ?_, h.heading_eq hline hturn⟩
  rw [Point.heading_x_eq_zero_iff, Point.heading_y_eq_zero_iff]
  exact h.upright_or_level (show (p, q) ∈ legs (p :: q :: rest) from List.mem_cons_self)

/-- A bus is drawn along a straight line as its strips, if the line does not run back and no wire is too narrow. -/
theorem busLoops_straight_iff {ls : List Loop} (hstraight : Straight points) :
    busLoops r points widths spaces (uniform .truncate) = .ok ls ↔
      ((spaces.length + 1 = widths.length ∧ ∀ space ∈ spaces, 0 ≤ space) ∧
        ((∃ p ∈ points, ∃ q ∈ points, p ≠ q) ∧ ¬ Reverses points.eraseReps) ∧ ∀ w ∈ widths, 2 ≤ w) ∧
      ∃ d ∈ Point.compass, (d.x = 0 ∨ d.y = 0) ∧ (∀ leg ∈ legs points.eraseReps, (leg.2 - leg.1).heading = d) ∧
        (busStrips widths spaces).flatMap (Strip.loops · d points.eraseReps) = ls := by
  rw [busLoops_eq]
  by_cases hspaced : spaces.length + 1 = widths.length ∧ ∀ space ∈ spaces, 0 ≤ space
  swap
  · refine iff_of_false (fun h => ?_) fun h => hspaced h.1.1
    split at h
    · split at h
      · exact hspaced ⟨‹_›, ‹_›⟩
      · cases h
    · cases h
  rw [if_pos hspaced.1, if_pos hspaced.2, and_iff_right hspaced]
  by_cases hne : ∃ p ∈ points, ∃ q ∈ points, p ≠ q
  swap
  · rw [if_neg (mt two_le_length_eraseReps_iff.1 hne)]
    exact iff_of_false nofun fun h => hne h.1.1.1
  rw [if_pos (two_le_length_eraseReps_iff.2 hne), and_iff_right hne]
  have hline := centerLine_eraseReps_iff.2 (hstraight.drawable hne)
  by_cases hback : Reverses points.eraseReps
  · have hwidths : widths ≠ [] := by
      rintro rfl
      cases hspaced.1
    obtain ⟨e, he⟩ := busWires_of_reverses r (uniform .truncate) (widths.sum + spaces.sum) 0 spaces hline hback hwidths
    rw [he]
    exact iff_of_false nofun fun h => h.1.1 hback
  rw [and_iff_right hback]
  constructor
  · intro h
    obtain ⟨d, hd, haxis, hheading⟩ := hstraight.eraseReps.exists_heading hline hback
    obtain ⟨hwide, rfl⟩ := (busWires_straight_iff hline haxis hheading).1 h
    exact ⟨hwide, d, hd, haxis, hheading, rfl⟩
  · rintro ⟨hwide, d, -, haxis, hheading, rfl⟩
    exact (busWires_straight_iff hline haxis hheading).2 ⟨hwide, rfl⟩

/-- Along a straight line that does not run back, a bus of wires at least two wide is drawn as strips from right to left,
and all that is refused are representation errors. No width and no space is missed by more than one unit, but they are
right just if each width and the total are even, and nothing is refused where they are not. The edges of the bus can lie
on whole numbers just if the total is even. -/
theorem busLoops_straight (r : Rounding) (points : List Point) (hstraight : Straight points) (widths spaces : List Int) :
    ((∃ ls, busLoops r points widths spaces (uniform .truncate) = .ok ls) ↔
      (spaces.length + 1 = widths.length ∧ ∀ space ∈ spaces, 0 ≤ space) ∧
        ((∃ p ∈ points, ∃ q ∈ points, p ≠ q) ∧ ¬ Reverses points.eraseReps) ∧ ∀ w ∈ widths, 2 ≤ w) ∧
    (∀ e, busLoops r points widths spaces (uniform .truncate) = .error e → ∃ fault, e = .representation fault) ∧
    ∀ ls, busLoops r points widths spaces (uniform .truncate) = .ok ls →
      (∃ d ∈ Point.compass, (d.x = 0 ∨ d.y = 0) ∧ (∀ leg ∈ legs points.eraseReps, (leg.2 - leg.1).heading = d) ∧
        (busStrips widths spaces).flatMap (Strip.loops · d points.eraseReps) = ls) ∧
      ((busStrips widths spaces).map Strip.right).Pairwise (· < ·) ∧
      (busStrips widths spaces).map Strip.width = widths.map (fun w => 2 * w.tdiv 2) ∧
      List.Forall₂ (fun gap space => |gap - space| ≤ 1) (gaps (busStrips widths spaces)) spaces ∧
      (Laid widths spaces (busStrips widths spaces) ↔ (∀ w ∈ widths, Even w) ∧ Even (widths.sum + spaces.sum)) ∧
      ((∃ strips, Laid widths spaces strips) ↔ Even (widths.sum + spaces.sum)) := by
  refine ⟨?_, fun e => representation_of_busLoops, fun ls hls => ?_⟩
  · constructor
    · rintro ⟨ls, hls⟩
      exact ((busLoops_straight_iff hstraight).1 hls).1
    · intro h
      have hline := centerLine_eraseReps_iff.2 (hstraight.drawable h.2.1.1)
      obtain ⟨d, hd, haxis, hheading⟩ := hstraight.eraseReps.exists_heading hline h.2.1.2
      exact ⟨_, (busLoops_straight_iff hstraight).2 ⟨h, d, hd, haxis, hheading, rfl⟩⟩
  · obtain ⟨⟨⟨hlength, hspaces⟩, -, hwide⟩, hdrawn⟩ := (busLoops_straight_iff hstraight).1 hls
    exact ⟨hdrawn, pairwise_busStrips hlength hspaces hwide, layOut_map_width (cutStrip_width _),
      gaps_busStrips hlength hspaces hwide, laid_busStrips_iff hlength, exists_laid_iff hlength⟩

/-- A straight line downward with a point between. -/
def plumbLine : List Point := [⟨0, 100⟩, ⟨0, 40⟩, ⟨0, 0⟩]

/-- Even wires and an even total are drawn as asked for. -/
theorem busLoops_straight_plumb : Straight plumbLine ∧
    busLoops .nearest plumbLine [4, 6] [2] (uniform .truncate) =
      .ok ([⟨-6, -2⟩, ⟨0, 6⟩].flatMap (Strip.loops · ⟨0, -1⟩ plumbLine)) ∧
    ¬ Reverses plumbLine.eraseReps ∧ Laid [4, 6] [2] (busStrips [4, 6] [2]) := by
  have hstraight : Straight plumbLine := by decide
  have hbus : busLoops .nearest plumbLine [4, 6] [2] (uniform .truncate) =
      .ok ([⟨-6, -2⟩, ⟨0, 6⟩].flatMap (Strip.loops · ⟨0, -1⟩ plumbLine)) := by decide +kernel
  obtain ⟨hok, -, hdrawn⟩ := busLoops_straight .nearest plumbLine hstraight [4, 6] [2]
  obtain ⟨-, -, -, -, hlaid, -⟩ := hdrawn _ hbus
  exact ⟨hstraight, hbus, (hok.1 ⟨_, hbus⟩).2.1.2, hlaid.2 (by decide)⟩

/-- A straight line to the right. -/
def levelLine : List Point := [⟨0, 0⟩, ⟨100, 0⟩]

/-- Odd wires are drawn one unit too narrow although their edges can lie on whole numbers, and a bus of an odd total,
whose edges cannot, is not refused: its wires touch. -/
theorem busLoops_odd :
    (busLoops .nearest levelLine [3, 3] [2] (uniform .truncate) =
        .ok ([⟨-3, -1⟩, ⟨1, 3⟩].flatMap (Strip.loops · ⟨1, 0⟩ levelLine)) ∧
      ¬ Laid [3, 3] [2] [⟨-3, -1⟩, ⟨1, 3⟩] ∧ Laid [3, 3] [2] [⟨-4, -1⟩, ⟨1, 4⟩]) ∧
    (busLoops .nearest levelLine [2, 2] [1] (uniform .truncate) =
        .ok ([⟨-2, 0⟩, ⟨0, 2⟩].flatMap (Strip.loops · ⟨1, 0⟩ levelLine)) ∧
      ¬ ∃ strips, Laid [2, 2] [1] strips) := by
  refine ⟨⟨by decide +kernel, by decide, by decide⟩, by decide +kernel, ?_⟩
  rintro ⟨strips, hlaid⟩
  exact absurd hlaid.even_total (by decide)

end Straight

end Path

end MaskLayout
