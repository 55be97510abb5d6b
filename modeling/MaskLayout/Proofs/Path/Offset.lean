import MaskLayout.Proofs.Path.Drawing

/-!
# Lines moved to one side

Lines moved to one side. Two lines that meet at a corner of a center line, both moved by the same distance, meet in a
grid point again however diagonal distances are rounded: where one of them is a diagonal their determinant is one,
and where both are they are moved by the same number of steps. So a line can be moved unless it runs back.
-/

namespace MaskLayout

namespace Point

/-- A turn that does not run back leads straight on, to a perpendicular of the same kind, or aside by 45 degrees. -/
theorem turn_cases : ∀ d ∈ compass, ∀ e ∈ compass, ¬ d.Opposite e → e = d ∨
    d.dot e = 0 ∧ d.cross e ≠ 0 ∧ (d.x ≠ 0 ∧ d.y ≠ 0 ↔ e.x ≠ 0 ∧ e.y ≠ 0) ∨ d.cross e = 1 ∨ d.cross e = -1 := by
  decide

theorem not_opposite_self : ∀ d ∈ compass, ¬ d.Opposite d := by decide

theorem cross_left (d e : Point) : d.left.cross e.left = d.cross e := by
  simp only [cross, left]
  ring

end Point

namespace Path

variable {r : Rounding} {dist halfWidth : Int} {styles : PathStyles} {p q s a c z d e : Point}
  {line wire rest points : List Point}

/-- How a line along a unit step is moved to its left. -/
def shift (r : Rounding) (dist : Int) (d : Point) : Point := d.left.scale (steps r d dist)

/-- Whether a point lies on the line of a segment, moved to the left. -/
def OnFlank (r : Rounding) (dist : Int) (leg : Point × Point) (p : Point) : Prop :=
  let d := (leg.2 - leg.1).heading
  d.left.dot p = d.left.dot (leg.1 + shift r dist d)

/-- Whether a segment runs alongside another one, moved to its left: by a distance, or along a diagonal by as many
normal steps as the distance is rounded to. -/
structure Alongside (r : Rounding) (dist : Int) (leg moved : Point × Point) : Prop where
  multiple : ∃ k : Int, moved.2 - moved.1 = (leg.2 - leg.1).heading.scale k
  straight : (leg.2 - leg.1).x = 0 ∨ (leg.2 - leg.1).y = 0 → ∀ p ∈ [moved.1, moved.2],
    (leg.2 - leg.1).heading.left.dot (p - leg.1) = dist
  diagonal : (leg.2 - leg.1).x ≠ 0 → (leg.2 - leg.1).y ≠ 0 → ∀ p ∈ [moved.1, moved.2],
    (leg.2 - leg.1).heading.left.dot (p - (leg.1 + (leg.2 - leg.1).heading.left.scale (r.diagonal dist))) = 0

/-- Lines that are not parallel meet in the grid point that lies on both. -/
theorem miter_of_common (hdet : d.cross e ≠ 0) (hp : d.left.dot c = d.left.dot p) (hq : e.left.dot c = e.left.dot q) :
    miter p d q e = .ok c := by
  have hx : d.left.dot c * e.left.y - e.left.dot c * d.left.y = c.x * d.cross e := by
    simp only [Point.dot, Point.left, Point.cross]
    ring
  have hy : d.left.x * e.left.dot c - e.left.x * d.left.dot c = c.y * d.cross e := by
    simp only [Point.dot, Point.left, Point.cross]
    ring
  simp only [miter, Point.cross_left, ← hp, ← hq, hx, hy, Int.mul_emod_left, Int.mul_ediv_cancel _ hdet, if_neg hdet]
  rfl

/-- Perpendicular lines of one kind are moved by the same number of steps. -/
theorem exists_common_of_perpendicular (hdot : d.dot e = 0) (hkind : d.x ≠ 0 ∧ d.y ≠ 0 ↔ e.x ≠ 0 ∧ e.y ≠ 0)
    (dist : Int) (q : Point) : ∃ c, d.left.dot c = d.left.dot (q + shift r dist d) ∧
      e.left.dot c = e.left.dot (q + shift r dist e) := by
  have hsteps : steps r e dist = steps r d dist := by simp only [steps, hkind]
  have hleft : d.left.dot e.left = 0 := by
    rw [← hdot]
    simp only [Point.dot, Point.left]
    ring
  simp only [shift, hsteps]
  generalize steps r d dist = k
  refine ⟨q + (d.left + e.left).scale k, ?_, ?_⟩
  · calc
      d.left.dot (q + (d.left + e.left).scale k) =
          d.left.dot (q + d.left.scale k) + d.left.dot e.left * k := by
        simp only [Point.dot, Point.scale, Point.add_x, Point.add_y]
        ring
      _ = d.left.dot (q + d.left.scale k) := by rw [hleft, Int.zero_mul, Int.add_zero]
  · calc
      e.left.dot (q + (d.left + e.left).scale k) =
          e.left.dot (q + e.left.scale k) + d.left.dot e.left * k := by
        simp only [Point.dot, Point.scale, Point.add_x, Point.add_y]
        ring
      _ = e.left.dot (q + e.left.scale k) := by rw [hleft, Int.zero_mul, Int.add_zero]

/-- Lines of determinant one meet in a grid point wherever they are moved. -/
theorem exists_common_of_unimodular (hdet : d.cross e = 1 ∨ d.cross e = -1) (p q : Point) :
    ∃ c, d.left.dot c = d.left.dot p ∧ e.left.dot c = e.left.dot q := by
  have hsquare : d.cross e * d.cross e = 1 := by rcases hdet with h | h <;> rw [h] <;> rfl
  refine ⟨⟨d.cross e * (d.left.dot p * e.left.y - e.left.dot q * d.left.y),
    d.cross e * (d.left.x * e.left.dot q - e.left.x * d.left.dot p)⟩, ?_, ?_⟩
  · calc
      _ = d.cross e * d.cross e * d.left.dot p := by
        simp only [Point.dot, Point.cross, Point.left]
        ring
      _ = d.left.dot p := by rw [hsquare, Int.one_mul]
  · calc
      _ = d.cross e * d.cross e * e.left.dot q := by
        simp only [Point.dot, Point.cross, Point.left]
        ring
      _ = e.left.dot q := by rw [hsquare, Int.one_mul]

theorem miter_straight (d p q : Point) : miter p d q d = .ok p := by
  have hself : d.left.cross d.left = 0 := by
    simp only [Point.cross]
    ring
  simp only [miter, hself, if_true]

/-- Where a line turns without running back, its two lines meet in a grid point when they are moved. -/
theorem exists_miter (hd : d ∈ Point.compass) (he : e ∈ Point.compass) (hturn : ¬ d.Opposite e) (dist : Int) (q : Point) :
    ∃ c, miter (q + shift r dist d) d (q + shift r dist e) e = .ok c ∧
      d.left.dot c = d.left.dot (q + shift r dist d) ∧ e.left.dot c = e.left.dot (q + shift r dist e) := by
  rcases Point.turn_cases d hd e he hturn with rfl | ⟨hdot, hcross, hkind⟩ | hcross
  · exact ⟨q + shift r dist e, miter_straight e _ _, rfl, rfl⟩
  · obtain ⟨c, hcd, hce⟩ := exists_common_of_perpendicular hdot hkind dist q
    exact ⟨c, miter_of_common hcross hcd hce, hcd, hce⟩
  · obtain ⟨c, hcd, hce⟩ := exists_common_of_unimodular hcross (q + shift r dist d) (q + shift r dist e)
    exact ⟨c, miter_of_common (by omega) hcd hce, hcd, hce⟩

/-- Lines that are not moved meet where they turn. -/
theorem miter_self (hd : d ∈ Point.compass) (he : e ∈ Point.compass) (hturn : ¬ d.Opposite e) (q : Point) :
    miter q d q e = .ok q := by
  rcases Point.turn_cases d hd e he hturn with rfl | ⟨-, hcross, -⟩ | hcross
  · exact miter_straight e q q
  · exact miter_of_common hcross rfl rfl
  · exact miter_of_common (by omega) rfl rfl

theorem miter_opposite (hd : d ∈ Point.compass) (he : e ∈ Point.compass) (hback : d.Opposite e) (p q : Point) :
    miter p d q e = .error (.representation (.reversal p)) := by
  have hne : d ≠ e := by
    rintro rfl
    exact absurd hback (Point.not_opposite_self d hd)
  simp only [miter, Point.cross_left, hback.1, if_true, if_neg hne]

/-- A segment whose ends lie on the line that is moved runs alongside. -/
theorem Alongside.of_onFlank {leg moved : Point × Point} (hne : leg.1 ≠ leg.2)
    (hstart : OnFlank r dist leg moved.1) (hend : OnFlank r dist leg moved.2) : Alongside r dist leg moved := by
  have hd := Point.heading_mem_compass (Point.sub_ne_zero hne)
  have hx : (leg.2 - leg.1).heading.x = 0 ↔ (leg.2 - leg.1).x = 0 := Point.heading_x_eq_zero_iff
  have hy : (leg.2 - leg.1).heading.y = 0 ↔ (leg.2 - leg.1).y = 0 := Point.heading_y_eq_zero_iff
  have hends : ∀ p ∈ [moved.1, moved.2], OnFlank r dist leg p := by simp [hstart, hend]
  refine ⟨Point.exists_scale_of_dot_left hd ?_, fun hstraight p hp => ?_, fun hdx hdy p hp => ?_⟩
  · rw [OnFlank] at hstart hend
    rw [Point.dot_sub, hstart, hend, Int.sub_self]
  · rw [← hx, ← hy] at hstraight
    have hp := hends p hp
    rw [OnFlank, shift, steps_straight r hstraight, Point.dot_add, Point.dot_scale_right, Point.dot_left_self _ hd hstraight] at hp
    rw [Point.dot_sub, hp]
    omega
  · rw [ne_eq, ← hx] at hdx
    rw [ne_eq, ← hy] at hdy
    have hp := hends p hp
    rw [OnFlank, shift, steps_diagonal r hdx hdy] at hp
    rw [Point.dot_sub, hp, Int.sub_self]

/-- The corners of a line that is moved. -/
def corners (r : Rounding) (dist : Int) (line : List Point) : Except LayoutError (List Point) :=
  miters (shift r dist) ((legs line).map fun leg => (leg.2 - leg.1).heading) (line.drop 1).dropLast

theorem corners_cons (r : Rounding) (dist : Int) (p q s : Point) (rest : List Point) :
    corners r dist (p :: q :: s :: rest) = do
      let c ← miter (q + shift r dist (q - p).heading) (q - p).heading (q + shift r dist (s - q).heading) (s - q).heading
      let more ← corners r dist (q :: s :: rest)
      return c :: more := rfl

/-- A line that does not run back has corners, and its segments between them run alongside. -/
theorem exists_corners (h : CenterLine (p :: q :: rest)) (hturn : ¬ Reverses (p :: q :: rest))
    (ha : OnFlank r dist (p, q) a) (hz : ∀ leg ∈ (legs (p :: q :: rest)).getLast?, OnFlank r dist leg z) :
    ∃ cs, corners r dist (p :: q :: rest) = .ok cs ∧
      List.Forall₂ (Alongside r dist) (legs (p :: q :: rest)) (legs (a :: (cs ++ [z]))) := by
  induction rest generalizing p q a with
  | nil => exact ⟨[], rfl, .cons (.of_onFlank (h.distinct (p, q) List.mem_cons_self) ha (hz (p, q) rfl)) .nil⟩
  | cons s rest ih =>
      rw [reverses_cons_iff, not_or, ← h.opposite_iff] at hturn
      obtain ⟨c, hc, hcd, hce⟩ :=
        exists_miter h.head_mem_compass h.tail.head_mem_compass hturn.1 dist q (r := r)
      have hleft : OnFlank r dist (p, q) c := by
        have hpq : (q - p).heading.left.dot q = (q - p).heading.left.dot p :=
          h.dot_left (show (p, q) ∈ legs (p :: q :: s :: rest) from List.mem_cons_self)
        simp only [OnFlank, Point.dot_add] at hcd ⊢
        omega
      obtain ⟨cs, hcs, hlegs⟩ := ih h.tail hturn.2 hce hz
      refine ⟨c :: cs, ?_, .cons (.of_onFlank (h.distinct (p, q) List.mem_cons_self) ha hleft) hlegs⟩
      rw [corners_cons, hc, Success.ok_bind, hcs, Success.ok_bind]
      rfl

/-- A line that runs back has no corner there. -/
theorem corners_of_reverses (r : Rounding) (dist : Int) (h : CenterLine (p :: q :: rest)) (hback : Reverses (p :: q :: rest)) :
    ∃ c, corners r dist (p :: q :: rest) = .error (.representation (.reversal c)) := by
  induction rest generalizing p q with
  | nil => exact (not_reverses_pair p q hback).elim
  | cons s rest ih =>
      have hopposite := h.opposite_iff
      rw [corners_cons]
      by_cases hturn : (q - p).heading.Opposite (s - q).heading
      · rw [miter_opposite h.head_mem_compass h.tail.head_mem_compass hturn, Success.error_bind]
        exact ⟨_, rfl⟩
      · obtain ⟨c, hc, -, -⟩ := exists_miter h.head_mem_compass h.tail.head_mem_compass hturn dist q (r := r)
        rw [reverses_cons_iff, ← hopposite, or_iff_right hturn] at hback
        obtain ⟨c', hc'⟩ := ih h.tail hback
        rw [hc, Success.ok_bind, hc', Success.error_bind]
        exact ⟨c', rfl⟩

theorem shift_zero (hzero : r.diagonal 0 = 0) (p d : Point) : p + shift r 0 d = p := by
  have hsteps : steps r d 0 = 0 := by
    rw [steps, hzero, ite_self]
  rw [shift, hsteps, Point.add_scale_zero]

/-- The corners of a line that is not moved are its own. -/
theorem corners_zero (hzero : r.diagonal 0 = 0) (h : CenterLine (p :: q :: rest)) (hturn : ¬ Reverses (p :: q :: rest)) :
    corners r 0 (p :: q :: rest) = .ok (q :: rest).dropLast := by
  induction rest generalizing p q with
  | nil => rfl
  | cons s rest ih =>
      rw [reverses_cons_iff, not_or, ← h.opposite_iff] at hturn
      rw [corners_cons, shift_zero hzero, shift_zero hzero,
        miter_self h.head_mem_compass h.tail.head_mem_compass hturn.1, Success.ok_bind, ih h.tail hturn.2]
      rfl

theorem offsetLine_eq (h : CenterLine (p :: q :: rest)) {last : Point × Point}
    (hlast : (legs (p :: q :: rest)).getLast? = some last) (hpoint : (p :: q :: rest).getLast? = some last.2) :
    offsetLine r (p :: q :: rest) dist = do
      let cs ← corners r dist (p :: q :: rest)
      return (p + shift r dist (q - p).heading) :: (cs ++ [last.2 + shift r dist (last.2 - last.1).heading]) := by
  have hdirs : ((legs (p :: q :: rest)).map fun leg => (leg.2 - leg.1).heading).getLast? =
      some (last.2 - last.1).heading := by
    rw [List.getLast?_map, hlast]
    rfl
  rw [offsetLine, mapM_unitStep, firstSkew?_eq_none_iff.2 h.octilinear, Success.ok_bind, hpoint, hdirs]
  rfl

/-- A center line that does not run back can be moved. -/
theorem exists_offsetLine (h : CenterLine line) (hturn : ¬ Reverses line) (r : Rounding) (dist : Int) :
    ∃ wire, offsetLine r line dist = .ok wire ∧ wire.length = line.length ∧
      List.Forall₂ (Alongside r dist) (legs line) (legs wire) := by
  obtain ⟨p, q, rest, rfl⟩ := h.exists_cons
  obtain ⟨last, hlast, hpoint⟩ := exists_last_leg p q rest
  have hend : ∀ leg ∈ (legs (p :: q :: rest)).getLast?,
      OnFlank r dist leg (last.2 + shift r dist (last.2 - last.1).heading) := by
    intro leg hleg
    rw [hlast, Option.mem_some_iff] at hleg
    subst hleg
    rw [OnFlank, Point.dot_add, Point.dot_add, h.dot_left (List.mem_of_getLast? hlast)]
  obtain ⟨cs, hcs, hlegs⟩ := exists_corners h hturn rfl hend
  refine ⟨(p + shift r dist (q - p).heading) :: (cs ++ [last.2 + shift r dist (last.2 - last.1).heading]), ?_, ?_, hlegs⟩
  · rw [offsetLine_eq h hlast hpoint, hcs]
    rfl
  · have hlength := hlegs.length_eq
    rw [length_legs, length_legs] at hlength
    simp only [List.length_cons, List.length_append, List.length_nil] at hlength ⊢
    omega

/-- A center line that runs back cannot be moved. -/
theorem offsetLine_of_reverses (h : CenterLine line) (hback : Reverses line) (r : Rounding) (dist : Int) :
    ∃ c, offsetLine r line dist = .error (.representation (.reversal c)) := by
  obtain ⟨p, q, rest, rfl⟩ := h.exists_cons
  obtain ⟨last, hlast, hpoint⟩ := exists_last_leg p q rest
  obtain ⟨c, hc⟩ := corners_of_reverses r dist h hback
  rw [offsetLine_eq h hlast hpoint, hc, Success.error_bind]
  exact ⟨c, rfl⟩

/-- A line that is not moved stays where it is. -/
theorem offsetLine_zero (hzero : r.diagonal 0 = 0) (h : CenterLine line) (hturn : ¬ Reverses line) :
    offsetLine r line 0 = .ok line := by
  obtain ⟨p, q, rest, rfl⟩ := h.exists_cons
  obtain ⟨last, hlast, hpoint⟩ := exists_last_leg p q rest
  have hline : (q :: rest).dropLast ++ [last.2] = q :: rest := List.dropLast_append_getLast? last.2 hpoint
  rw [offsetLine_eq h hlast hpoint, corners_zero hzero h hturn, Success.ok_bind, shift_zero hzero, shift_zero hzero,
    hline]
  rfl

theorem offsetLine_of_firstSkew? {leg : Point × Point} (h : firstSkew? line = some leg) :
    offsetLine r line dist = .error (.representation (.angle leg.1 leg.2)) := by
  rw [offsetLine, mapM_unitStep, h, Success.error_bind]

theorem bind_pure_nil {x : Except LayoutError (List Loop)} : (x >>= fun here => pure (here ++ [])) = x := by
  cases x with
  | error e => rfl
  | ok here => exact congrArg Except.ok (List.append_nil here)

/-- A bus of one wire of an even width is the wire along its center line. -/
theorem busLoops_single (hzero : r.diagonal 0 = 0) (hwidth : 0 < halfWidth) (hturn : ¬ Reverses points.eraseReps) :
    busLoops r points [2 * halfWidth] [] styles = loops r points halfWidth styles := by
  have hdist : (2 * 0 + 2 * halfWidth - (2 * halfWidth + 0 + 0)).tdiv 2 = 0 := by
    rw [show 2 * 0 + 2 * halfWidth - (2 * halfWidth + 0 + 0) = 0 by ring]
    rfl
  have hhalf : (2 * halfWidth).tdiv 2 = halfWidth := Int.mul_tdiv_cancel_left halfWidth (by decide)
  have hbus : busLoops r points [2 * halfWidth] [] styles =
      (centerLine points >>= fun line => offsetLine r line 0 >>= fun wire => loops r wire halfWidth styles) := by
    change (centerLine points >>= fun line =>
      offsetLine r line ((2 * 0 + 2 * halfWidth - (2 * halfWidth + 0 + 0)).tdiv 2) >>= fun wire =>
        loops r wire ((2 * halfWidth).tdiv 2) styles >>= fun here => pure (here ++ [])) = _
    simp only [hdist, hhalf, bind_pure_nil]
  rw [hbus, centerLine_eq, loops_of_pos hwidth]
  by_cases htwo : 2 ≤ points.eraseReps.length
  · rw [if_pos htwo, if_pos htwo, Success.ok_bind]
    cases hskew : firstSkew? points.eraseReps with
    | some leg => rw [offsetLine_of_firstSkew? hskew, Success.error_bind]
    | none =>
        have hline := centerLine_of_firstSkew? htwo hskew
        rw [offsetLine_zero hzero hline hturn, Success.ok_bind, loops_of_pos hwidth,
          eraseReps_of_distinct hline.distinct, if_pos htwo, hskew]
  · rw [if_neg htwo, if_neg htwo, Success.error_bind]

/-- However distances along diagonals are rounded, a center line can be moved unless it runs back. The line that is
moved has as many points, each of its segments is a whole number of unit steps of the segment that it runs alongside,
and lies on the line of that segment moved to its left. A line that is moved by nothing stays where it is, and so does
the only wire of a bus. -/
theorem offsetLine_on_grid (r : Rounding) :
    (∀ line, CenterLine line → ∀ dist,
      ((∃ e, offsetLine r line dist = .error e) ↔ Reverses line) ∧
      (∀ e, offsetLine r line dist = .error e → ∃ p, e = .representation (.reversal p)) ∧
      ∀ wire, offsetLine r line dist = .ok wire →
        wire.length = line.length ∧ List.Forall₂ (Alongside r dist) (legs line) (legs wire)) ∧
    (r.diagonal 0 = 0 →
      (∀ line wire, CenterLine line → offsetLine r line 0 = .ok wire → wire = line) ∧
      ∀ points halfWidth styles, 0 < halfWidth → ¬ Reverses points.eraseReps →
        busLoops r points [2 * halfWidth] [] styles = loops r points halfWidth styles) := by
  constructor
  · intro line hline dist
    by_cases hback : Reverses line
    · obtain ⟨c, hc⟩ := offsetLine_of_reverses hline hback r dist
      rw [hc]
      refine ⟨iff_of_true ⟨_, rfl⟩ hback, fun e he => ⟨c, (Except.error.inj he).symm⟩, nofun⟩
    · obtain ⟨wire, hwire, hmoved⟩ := exists_offsetLine hline hback r dist
      rw [hwire]
      refine ⟨iff_of_false nofun hback, nofun, fun wire' hwire' => ?_⟩
      exact Except.ok.inj hwire' ▸ hmoved
  · intro hzero
    refine ⟨fun line wire hline hwire => ?_, fun points halfWidth styles hwidth hturn => busLoops_single hzero hwidth hturn⟩
    have hturn : ¬ Reverses line := by
      intro hback
      obtain ⟨c, hc⟩ := offsetLine_of_reverses hline hback r 0
      rw [hc] at hwire
      cases hwire
    rw [offsetLine_zero hzero hline hturn] at hwire
    exact (Except.ok.inj hwire).symm

/-- A line that turns from straight to diagonal, by a right angle between diagonals, and back to straight. -/
def kinkedLine : List Point := [⟨0, 0⟩, ⟨20, 0⟩, ⟨30, 10⟩, ⟨20, 20⟩, ⟨20, 40⟩]

/-- That line moved by ten, which are seven steps along a normal of its diagonals. -/
def kinkedWire : List Point := [⟨0, 10⟩, ⟨16, 10⟩, ⟨16, 10⟩, ⟨10, 16⟩, ⟨10, 40⟩]

/-- That wire runs alongside all segments, the line itself stays where it is, and so does the only wire of a bus. -/
theorem offsetLine_on_grid_kinked : offsetLine .nearest kinkedLine 10 = .ok kinkedWire ∧
    List.Forall₂ (Alongside .nearest 10) (legs kinkedLine) (legs kinkedWire) ∧
    offsetLine .nearest kinkedLine 0 = .ok kinkedLine ∧
    busLoops .nearest kinkedLine [2 * 4] [] ⟨.extend, .round, .triangle⟩ =
      loops .nearest kinkedLine 4 ⟨.extend, .round, .triangle⟩ := by
  have hline : CenterLine kinkedLine := ⟨by decide, by decide, by decide⟩
  have hwire : offsetLine .nearest kinkedLine 10 = .ok kinkedWire := by decide +kernel
  obtain ⟨hmoved, hkept⟩ := offsetLine_on_grid .nearest
  obtain ⟨hself, hbus⟩ := hkept (by decide +kernel)
  obtain ⟨hrefused, -, halong⟩ := hmoved kinkedLine hline 10
  have hturn : ¬ Reverses kinkedLine := by
    intro hback
    obtain ⟨e, he⟩ := hrefused.2 hback
    rw [hwire] at he
    cases he
  refine ⟨hwire, (halong kinkedWire hwire).2, ?_, hbus kinkedLine 4 _ (by decide) hturn⟩
  cases hzero : offsetLine .nearest kinkedLine 0 with
  | error e => exact absurd ((hmoved kinkedLine hline 0).1.1 ⟨e, hzero⟩) hturn
  | ok wire => rw [hself kinkedLine wire hline hzero]

end Path

end MaskLayout
