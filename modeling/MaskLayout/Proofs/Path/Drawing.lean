import MaskLayout.Proofs.Path.Line

/-!
# What is drawn along a center line

What is drawn along a center line. However lengths are rounded, the loops of a segment that is straight or at 45
degrees pass the check of 45-degree loops. So wires are drawn along all lines of such segments, and a wire that is
refused has no width, no two different points, or a segment in another direction.
-/

namespace MaskLayout

namespace LoopKind

theorem check_diagonal_iff {l : Loop} :
    diagonal.check l = .ok l ↔ 3 ≤ l.length ∧ ∀ e ∈ l.edges, (e.2 - e.1).Octilinear :=
  check_self_iff.trans fits_iff_edges

end LoopKind

namespace Path

variable {r : Rounding} {halfWidth reach : Int} {styles : PathStyles} {style first last : PathStyle}
  {p q d out : Point} {line points : List Point} {ls : List Loop}

/-- Whether segments have a cap where they end in a style. -/
def Capped : PathStyle → Prop
  | .round | .triangle => True
  | .truncate | .extend => False

instance : DecidablePred Capped
  | .round | .triangle => .isTrue trivial
  | .truncate | .extend => .isFalse id

theorem length_cap (style : PathStyle) (p out n : Point) (reach halfWidth : Int) :
    (cap r style p out n reach halfWidth).length = if Capped style then 1 else 0 := by
  cases style <;> rfl

/-- Wherever its slanted corners lie, an octagon is a 45-degree loop. -/
theorem check_octagon (center : Point) (h : 0 < halfWidth) :
    LoopKind.diagonal.check (octagon r center halfWidth) = .ok (octagon r center halfWidth) := by
  rw [LoopKind.check_diagonal_iff, octagon]
  generalize r.corner halfWidth = c
  constructor
  · -- Corners may fall together, but never those on the right, at the top and on the left.
    let sides : List Point := [center + ⟨halfWidth, -c⟩, center + ⟨c, halfWidth⟩, center + ⟨-halfWidth, c⟩]
    have hnodup : sides.Nodup := by
      simp only [sides, List.nodup_cons, List.mem_cons, Point.add_right_inj, Point.mk.injEq, List.not_mem_nil, or_false,
        not_false_iff, List.nodup_nil, and_true]
      omega
    refine (hnodup.subperm fun p hp => (mem_eraseReps _ p).2 ?_).length_le
    simp only [sides, List.mem_cons, List.not_mem_nil, or_false] at hp
    rcases hp with rfl | rfl | rfl <;> simp
  · suffices hedges : ∀ e ∈ Loop.edges _, (e.2 - e.1).Octilinear from
      fun e he => hedges e (edges_eraseReps_subset _ he)
    simp only [Loop.edges, List.map_cons, List.map_nil, List.drop_succ_cons, List.drop_zero, List.take_succ_cons,
      List.take_zero, List.cons_append, List.nil_append, List.zip_cons_cons, List.zip_nil_right, List.forall_mem_cons,
      Point.Octilinear, Point.sub_x, Point.sub_y, Point.add_x, Point.add_y, List.not_mem_nil, false_imp_iff,
      implies_true, and_true]
    omega

/-- A band between two octilinear edges is a 45-degree loop. -/
theorem check_band {a b n : Point} (hab : (b - a).Octilinear) (hn : n.Octilinear) :
    LoopKind.diagonal.check [a - n, b - n, b + n, a + n] = .ok [a - n, b - n, b + n, a + n] := by
  rw [LoopKind.check_diagonal_iff]
  refine ⟨by simp, ?_⟩
  change ∀ e ∈ [(a - n, b - n), (b - n, b + n), (b + n, a + n), (a + n, a - n)], (e.2 - e.1).Octilinear
  simp only [List.forall_mem_cons, List.not_mem_nil, false_imp_iff, implies_true, and_true, Point.Octilinear,
    Point.sub_x, Point.sub_y, Point.add_x, Point.add_y] at hab hn ⊢
  omega

/-- A spike over an octilinear edge is a 45-degree loop if it rises at 45 degrees on both sides. -/
theorem check_spike {t n : Point} (p : Point) (hrise : (t + n).Octilinear) (hfall : (t - n).Octilinear)
    (hn : n.Octilinear) : LoopKind.diagonal.check [p - n, p + t, p + n] = .ok [p - n, p + t, p + n] := by
  rw [LoopKind.check_diagonal_iff]
  refine ⟨by simp, ?_⟩
  change ∀ e ∈ [(p - n, p + t), (p + t, p + n), (p + n, p - n)], (e.2 - e.1).Octilinear
  simp only [List.forall_mem_cons, List.not_mem_nil, false_imp_iff, implies_true, and_true, Point.Octilinear,
    Point.sub_x, Point.sub_y, Point.add_x, Point.add_y] at hrise hfall hn ⊢
  omega

theorem checked_cap (hd : d ∈ Point.compass) (hout : out ∈ [d, d.scale (-1)]) (hwidth : 0 < halfWidth) :
    Checked (cap r style p out (d.left.scale reach) reach halfWidth) := by
  obtain ⟨hrise, hfall⟩ := Point.octilinear_of_turn d hd out hout
  cases style with
  | truncate => exact fun l hl => (List.not_mem_nil hl).elim
  | extend => exact fun l hl => (List.not_mem_nil hl).elim
  | round => exact List.forall_mem_singleton.2 (check_octagon p hwidth)
  | triangle =>
      refine List.forall_mem_singleton.2 (check_spike p ?_ ?_ ?_)
      · exact Point.add_scale out d.left reach ▸ hrise.scale reach
      · exact Point.sub_scale out d.left reach ▸ hfall.scale reach
      · exact (Point.octilinear_of_mem_compass d hd).left.scale reach

/-- However lengths are rounded, all loops of an octilinear segment are 45-degree loops. -/
theorem checked_segmentLoops (hpq : (q - p).Octilinear) (hne : q - p ≠ 0) (hwidth : 0 < halfWidth) :
    Checked (segmentLoops r (q - p).heading p q halfWidth first last) := by
  have hd := Point.heading_mem_compass hne
  obtain ⟨k, -, hk⟩ := hpq.exists_scale hne
  generalize (q - p).heading = d at hd hk
  have hoctilinear := Point.octilinear_of_mem_compass d hd
  have hbody (i j : Int) : (q + d.scale j - (p - d.scale i)).Octilinear := by
    have hx := congrArg Point.x hk
    have hy := congrArg Point.y hk
    simp only [Point.sub_x, Point.sub_y, Point.scale] at hx hy
    have hsum : q + d.scale j - (p - d.scale i) = d.scale (k + i + j) := by
      apply Point.ext
      · simp only [Point.sub_x, Point.add_x, Point.scale, Int.mul_add]
        omega
      · simp only [Point.sub_y, Point.add_y, Point.scale, Int.mul_add]
        omega
    rw [hsum]
    exact hoctilinear.scale _
  have hback : d.scale (-1) ∈ [d, d.scale (-1)] := List.mem_cons_of_mem d (List.mem_singleton_self _)
  have hforth : d ∈ [d, d.scale (-1)] := List.mem_cons_self
  refine List.forall_mem_cons.2 ⟨?_, ?_⟩
  · exact check_band (hbody _ _) (hoctilinear.left.scale _)
  · exact (checked_cap hd hback hwidth).append (checked_cap hd hforth hwidth)

/-- The loops of all segments of a line that starts in a style. -/
def drawn (r : Rounding) (halfWidth : Int) (styles : PathStyles) : PathStyle → List (Point × Point) → List Loop
  | _, [] => []
  | style, leg :: rest =>
    segmentLoops r (leg.2 - leg.1).heading leg.1 leg.2 halfWidth style (if rest.isEmpty then styles.last else styles.middle) ++
      drawn r halfWidth styles styles.middle rest

/-- One style at both ends and between segments. -/
def uniform (style : PathStyle) : PathStyles := ⟨style, style, style⟩

/-- In one style all segments are drawn alike. -/
theorem drawn_uniform (r : Rounding) (halfWidth : Int) (style : PathStyle) (segs : List (Point × Point)) :
    drawn r halfWidth (uniform style) (uniform style).first segs =
      segs.flatMap fun leg => segmentLoops r (leg.2 - leg.1).heading leg.1 leg.2 halfWidth style style := by
  change drawn r halfWidth (uniform style) style segs = _
  induction segs with
  | nil => rfl
  | cons leg rest ih =>
      rw [drawn, show (uniform style).middle = style from rfl, show (uniform style).last = style from rfl, ite_self, ih,
        List.flatMap_cons]

/-- A segment has one loop, and another one at each end that has a cap. -/
theorem length_segmentLoops (d p q : Point) (halfWidth : Int) (first last : PathStyle) :
    (segmentLoops r d p q halfWidth first last).length =
      1 + (if Capped first then 1 else 0) + if Capped last then 1 else 0 := by
  simp only [segmentLoops, List.length_cons, List.length_append, length_cap]
  omega

theorem length_drawn {segs : List (Point × Point)} (hne : segs ≠ []) (style : PathStyle) :
    (drawn r halfWidth styles style segs).length =
      segs.length + (if Capped style then 1 else 0) + (if Capped styles.last then 1 else 0) +
        2 * (segs.length - 1) * if Capped styles.middle then 1 else 0 := by
  induction segs generalizing style with
  | nil => exact (hne rfl).elim
  | cons leg rest ih =>
      cases rest with
      | nil => simp [drawn, length_segmentLoops]
      | cons next more =>
          have ih := ih (List.cons_ne_nil next more) styles.middle
          rw [drawn, List.length_append, ih, length_segmentLoops]
          simp only [List.isEmpty_cons, Bool.false_eq_true, if_false, List.length_cons, Nat.add_sub_cancel]
          ring

theorem segment_eq (hne : p ≠ q) (hwidth : 0 < halfWidth) :
    segment r p q halfWidth first last =
      if (q - p).Octilinear then .ok (segmentLoops r (q - p).heading p q halfWidth first last)
      else .error (.representation (.angle p q)) := by
  rw [segment]
  split
  · rename_i hpq
    rw [unitStep_of_octilinear hpq, Success.ok_bind, Success.mapM_iff, List.forall₂_same]
    exact checked_segmentLoops hpq (Point.sub_ne_zero hne) hwidth
  · rename_i hpq
    rw [unitStep_of_not_octilinear hpq, Success.error_bind]

/-- Along a line all loops are drawn, or the first segment in another direction is refused. -/
theorem segments_eq (hline : ∀ leg ∈ legs line, leg.1 ≠ leg.2) (hwidth : 0 < halfWidth) :
    segments r halfWidth styles style line =
      match firstSkew? line with
      | some leg => .error (.representation (.angle leg.1 leg.2))
      | none => .ok (drawn r halfWidth styles style (legs line)) := by
  induction line generalizing style with
  | nil => rfl
  | cons p rest ih =>
      cases rest with
      | nil => rfl
      | cons q rest =>
          rw [legs_cons_cons, List.forall_mem_cons] at hline
          have ih := @ih styles.middle hline.2
          have hempty : (legs (q :: rest)).isEmpty = rest.isEmpty := by cases rest <;> rfl
          rw [segments, segment_eq hline.1 hwidth]
          by_cases hpq : (q - p).Octilinear
          · have hskew : firstSkew? (p :: q :: rest) = firstSkew? (q :: rest) := by
              rw [firstSkew?, legs_cons_cons, List.find?_cons_of_neg (by simpa using hpq), firstSkew?]
            rw [if_pos hpq, Success.ok_bind, ih, hskew]
            cases firstSkew? (q :: rest) with
            | some leg => rfl
            | none =>
                rw [Success.ok_bind, legs_cons_cons, drawn, hempty]
                rfl
          · have hskew : firstSkew? (p :: q :: rest) = some (p, q) := by
              rw [firstSkew?, legs_cons_cons, List.find?_cons_of_pos (by simpa using hpq)]
            rw [if_neg hpq, hskew, Success.error_bind]

theorem loops_of_nonpos (h : halfWidth ≤ 0) :
    loops r points halfWidth styles = .error (.representation (.halfWidth halfWidth)) := by
  rw [loops, if_pos h]
  rfl

/-- A wire is refused for a lack of points or for its first segment in another direction; else the loops of all its
segments are drawn. -/
theorem loops_of_pos (h : 0 < halfWidth) :
    loops r points halfWidth styles =
      if 2 ≤ points.eraseReps.length then
        match firstSkew? points.eraseReps with
        | some leg => .error (.representation (.angle leg.1 leg.2))
        | none => .ok (drawn r halfWidth styles styles.first (legs points.eraseReps))
      else .error (.representation (.fewPoints points)) := by
  rw [loops, if_neg (by omega), centerLine_eq]
  by_cases htwo : 2 ≤ points.eraseReps.length
  · have hdistinct (leg : Point × Point) (hleg : leg ∈ legs points.eraseReps) : leg.1 ≠ leg.2 :=
      (mem_legs_eraseReps_iff.1 hleg).2
    rw [if_pos htwo, if_pos htwo]
    change (segments r halfWidth styles styles.first points.eraseReps >>= fun ls => _) = _
    rw [segments_eq hdistinct h]
    cases firstSkew? points.eraseReps with
    | some leg => rfl
    | none =>
        have hlegs := legs_ne_nil_iff.2 htwo
        have hlength : (drawn r halfWidth styles styles.first (legs points.eraseReps)).length = _ :=
          length_drawn hlegs styles.first
        have hpos := List.length_pos_iff.2 hlegs
        have hne : (drawn r halfWidth styles styles.first (legs points.eraseReps)).isEmpty = false := by
          rw [List.isEmpty_eq_false_iff, ← List.length_pos_iff]
          omega
        rw [Success.ok_bind, if_neg (by simp [hne])]
        rfl
  · rw [if_neg htwo, if_neg htwo]
    rfl

theorem loops_iff : loops r points halfWidth styles = .ok ls ↔
    (0 < halfWidth ∧ Drawable points) ∧ drawn r halfWidth styles styles.first (legs points.eraseReps) = ls := by
  rw [← centerLine_eraseReps_iff]
  by_cases hwidth : halfWidth ≤ 0
  · rw [loops_of_nonpos hwidth]
    exact iff_of_false nofun fun h => by omega
  · rw [loops_of_pos (by omega)]
    by_cases htwo : 2 ≤ points.eraseReps.length
    · rw [if_pos htwo]
      cases hskew : firstSkew? points.eraseReps with
      | some leg =>
          have hnot : ¬ (leg.2 - leg.1).Octilinear := by simpa using List.find?_some hskew
          exact iff_of_false nofun fun h => hnot (h.1.2.octilinear leg (List.mem_of_find?_eq_some hskew))
      | none =>
          rw [Except.ok.injEq, and_iff_right ⟨by omega, centerLine_of_firstSkew? htwo hskew⟩]
    · rw [if_neg htwo]
      exact iff_of_false nofun fun h => htwo h.1.2.two

/-- A wire is refused for its width, for points that are all the same, or for a segment in another direction. -/
theorem refused_of_loops {e : LayoutError} (h : loops r points halfWidth styles = .error e) :
    halfWidth ≤ 0 ∧ e = .representation (.halfWidth halfWidth) ∨
      (∀ p ∈ points, ∀ q ∈ points, p = q) ∧ e = .representation (.fewPoints points) ∨
      ∃ leg ∈ legs points, ¬ (leg.2 - leg.1).Octilinear ∧ e = .representation (.angle leg.1 leg.2) := by
  by_cases hwidth : halfWidth ≤ 0
  · rw [loops_of_nonpos hwidth] at h
    exact .inl ⟨hwidth, (Except.error.inj h).symm⟩
  · rw [loops_of_pos (by omega)] at h
    by_cases htwo : 2 ≤ points.eraseReps.length
    · rw [if_pos htwo] at h
      cases hskew : firstSkew? points.eraseReps with
      | none =>
          rw [hskew] at h
          cases h
      | some leg =>
          rw [hskew] at h
          have hleg : leg ∈ legs points.eraseReps := List.mem_of_find?_eq_some hskew
          have hnot : ¬ (leg.2 - leg.1).Octilinear := by simpa using List.find?_some hskew
          exact .inr (.inr ⟨leg, (mem_legs_eraseReps_iff.1 hleg).1, hnot, (Except.error.inj h).symm⟩)
    · rw [if_neg htwo] at h
      have hequal := mt two_le_length_eraseReps_iff.2 htwo
      push Not at hequal
      exact .inr (.inl ⟨hequal, (Except.error.inj h).symm⟩)

/-- However lengths are rounded, a wire is drawn exactly if it has a width and its points can be drawn along. Then it has
one loop for each segment and another one for each end with a cap, all of them 45-degree loops. Otherwise its width, its
points or one of its segments is refused, and never a loop. -/
theorem loops_drawn_or_refused (r : Rounding) (points : List Point) (halfWidth : Int) (styles : PathStyles) :
    ((∃ ls, loops r points halfWidth styles = .ok ls) ↔ 0 < halfWidth ∧ Drawable points) ∧
    (∀ ls, loops r points halfWidth styles = .ok ls →
      Checked ls ∧ ls = drawn r halfWidth styles styles.first (legs points.eraseReps) ∧
      ls.length = (legs points.eraseReps).length + (if Capped styles.first then 1 else 0) +
        (if Capped styles.last then 1 else 0) +
        2 * ((legs points.eraseReps).length - 1) * if Capped styles.middle then 1 else 0) ∧
    ∀ e, loops r points halfWidth styles = .error e →
      halfWidth ≤ 0 ∧ e = .representation (.halfWidth halfWidth) ∨
      (∀ p ∈ points, ∀ q ∈ points, p = q) ∧ e = .representation (.fewPoints points) ∨
      ∃ leg ∈ legs points, ¬ (leg.2 - leg.1).Octilinear ∧ e = .representation (.angle leg.1 leg.2) := by
  refine ⟨?_, ?_, fun e => refused_of_loops⟩
  · simp only [loops_iff, exists_and_left, exists_eq', and_true]
  · intro ls hls
    obtain ⟨⟨-, hdrawable⟩, rfl⟩ := loops_iff.1 hls
    have htwo := two_le_length_eraseReps_iff.2 hdrawable.1
    exact ⟨(checked_loops hls).2, rfl, length_drawn (legs_ne_nil_iff.2 htwo) styles.first⟩

/-- A line that pauses, turns by 45 degrees and ends by running back. -/
def pausingLine : List Point := [⟨0, 0⟩, ⟨0, 0⟩, ⟨10, 0⟩, ⟨20, 10⟩, ⟨15, 5⟩]

/-- Round at the first end and between segments, and extended at the last end. -/
def roundedStyles : PathStyles := ⟨.round, .extend, .round⟩

/-- A wire of three segments has eight loops with its five caps, whatever its octagons are rounded to. -/
theorem loops_drawn_or_refused_rounded : ∃ ls, loops .nearest pausingLine 4 roundedStyles = .ok ls ∧ Checked ls ∧
    ls.length = 8 := by
  obtain ⟨hdrawn, hloops, -⟩ := loops_drawn_or_refused .nearest pausingLine 4 roundedStyles
  obtain ⟨ls, hls⟩ := hdrawn.2 ⟨by decide, by decide⟩
  obtain ⟨hchecked, -, hlength⟩ := hloops ls hls
  exact ⟨ls, hls, hchecked, hlength⟩

end Path

end MaskLayout
