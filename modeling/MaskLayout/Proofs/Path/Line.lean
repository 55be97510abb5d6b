import MaskLayout.Proofs.Path
import MaskLayout.Proofs.Plane.Compass
import MaskLayout.Proofs.Region.Slabs

/-!
# Center lines

Center lines and their segments. Without its repetitions, a list of points keeps just the segments between different
points. A wire can be drawn along it if two of its points differ and those segments are straight or at 45 degrees.
-/

namespace MaskLayout

namespace Path

/-- A center line: two points or more, and each segment leads to another point, straight or at 45 degrees. -/
structure CenterLine (line : List Point) : Prop where
  two : 2 ≤ line.length
  distinct : ∀ leg ∈ legs line, leg.1 ≠ leg.2
  octilinear : ∀ leg ∈ legs line, (leg.2 - leg.1).Octilinear

/-- Whether two consecutive segments of a line have opposite directions. -/
def Reverses (line : List Point) : Prop :=
  ∃ a b, [a, b] <:+: legs line ∧ (a.2 - a.1).Opposite (b.2 - b.1)

variable {p q s d : Point} {line rest points : List Point}

@[simp] theorem legs_cons_cons (p q : Point) (rest : List Point) : legs (p :: q :: rest) = (p, q) :: legs (q :: rest) :=
  rfl

@[simp] theorem legs_singleton (p : Point) : legs [p] = [] := rfl

theorem length_legs (line : List Point) : (legs line).length = line.length - 1 := by
  rw [legs, List.length_zip, List.length_drop]
  omega

theorem legs_ne_nil_iff : legs line ≠ [] ↔ 2 ≤ line.length := by
  rw [← List.length_pos_iff, length_legs]
  omega

theorem CenterLine.exists_cons (h : CenterLine line) : ∃ p q rest, line = p :: q :: rest := by
  match line, h.two with
  | p :: q :: rest, _ => exact ⟨p, q, rest, rfl⟩

theorem CenterLine.tail (h : CenterLine (p :: q :: s :: rest)) : CenterLine (q :: s :: rest) where
  two := by simp
  distinct leg hleg := h.distinct leg (List.mem_cons_of_mem _ hleg)
  octilinear leg hleg := h.octilinear leg (List.mem_cons_of_mem _ hleg)

theorem CenterLine.head_ne (h : CenterLine (p :: q :: rest)) : q - p ≠ 0 :=
  Point.sub_ne_zero (h.distinct (p, q) List.mem_cons_self)

theorem CenterLine.head_octilinear (h : CenterLine (p :: q :: rest)) : (q - p).Octilinear :=
  h.octilinear (p, q) List.mem_cons_self

theorem CenterLine.head_mem_compass (h : CenterLine (p :: q :: rest)) : (q - p).heading ∈ Point.compass :=
  Point.heading_mem_compass h.head_ne

theorem CenterLine.opposite_iff (h : CenterLine (p :: q :: s :: rest)) :
    (q - p).heading.Opposite (s - q).heading ↔ (q - p).Opposite (s - q) :=
  Point.opposite_heading_iff h.head_octilinear h.head_ne h.tail.head_octilinear h.tail.head_ne

/-- Both ends of a segment are equally far to its left. -/
theorem CenterLine.dot_left (h : CenterLine line) {leg : Point × Point} (hleg : leg ∈ legs line) :
    (leg.2 - leg.1).heading.left.dot leg.2 = (leg.2 - leg.1).heading.left.dot leg.1 := by
  have hzero := (h.octilinear leg hleg).dot_left_heading (Point.sub_ne_zero (h.distinct leg hleg))
  rw [Point.dot_sub] at hzero
  omega

theorem not_reverses_pair (p q : Point) : ¬ Reverses [p, q] := by
  rintro ⟨a, b, hinfix, -⟩
  have hlength := hinfix.length_le
  simp at hlength

theorem reverses_cons_iff : Reverses (p :: q :: s :: rest) ↔ (q - p).Opposite (s - q) ∨ Reverses (q :: s :: rest) := by
  simp only [Reverses, legs_cons_cons p q (s :: rest), legs_cons_cons q s rest]
  constructor
  · rintro ⟨a, b, hinfix, hopposite⟩
    rcases List.infix_cons_iff.1 hinfix with hprefix | hinfix
    · simp only [List.cons_prefix_cons, List.nil_prefix, and_true] at hprefix
      obtain ⟨rfl, rfl⟩ := hprefix
      exact .inl hopposite
    · exact .inr ⟨a, b, hinfix, hopposite⟩
  · rintro (hopposite | ⟨a, b, hinfix, hopposite⟩)
    · refine ⟨(p, q), (q, s), List.infix_cons_iff.2 (.inl ?_), hopposite⟩
      simp
    · exact ⟨a, b, List.infix_cons_iff.2 (.inr hinfix), hopposite⟩

/-- The last segment ends at the last point. -/
theorem exists_last_leg (p q : Point) (rest : List Point) :
    ∃ leg, (legs (p :: q :: rest)).getLast? = some leg ∧ (p :: q :: rest).getLast? = some leg.2 := by
  induction rest generalizing p q with
  | nil => exact ⟨(p, q), rfl, rfl⟩
  | cons s rest ih =>
      obtain ⟨leg, hleg, hpoint⟩ := ih q s
      exact ⟨leg, hleg, hpoint⟩

theorem unitStep_of_octilinear (h : (q - p).Octilinear) : unitStep p q = .ok (q - p).heading := by
  simp only [unitStep, Point.allows_diagonal_iff.2 h, if_true]
  rfl

theorem unitStep_of_not_octilinear (h : ¬ (q - p).Octilinear) :
    unitStep p q = .error (.representation (.angle p q)) := by
  have hallows : LoopKind.diagonal.allows (q - p) = false :=
    Bool.eq_false_iff.2 fun hallows => h (Point.allows_diagonal_iff.1 hallows)
  simp only [unitStep, hallows, Bool.false_eq_true, if_false]

theorem steps_straight (r : Rounding) (h : d.x = 0 ∨ d.y = 0) (dist : Int) : steps r d dist = dist := by
  rw [steps, if_neg (by tauto)]

theorem steps_diagonal (r : Rounding) (hx : d.x ≠ 0) (hy : d.y ≠ 0) (dist : Int) : steps r d dist = r.diagonal dist := by
  rw [steps, if_pos ⟨hx, hy⟩]

theorem legs_map (line : List Point) (v : Point) :
    legs (line.map (· + v)) = (legs line).map fun leg => (leg.1 + v, leg.2 + v) := by
  rw [legs, legs, ← List.map_drop, List.zip_map]
  rfl

theorem CenterLine.moved (h : CenterLine line) (v : Point) : CenterLine (line.map (· + v)) where
  two := by
    rw [List.length_map]
    exact h.two
  distinct leg hleg := by
    rw [legs_map] at hleg
    obtain ⟨old, hold, rfl⟩ := List.mem_map.1 hleg
    exact mt Point.add_left_inj.1 (h.distinct old hold)
  octilinear leg hleg := by
    rw [legs_map] at hleg
    obtain ⟨old, hold, rfl⟩ := List.mem_map.1 hleg
    rw [Point.add_sub_add_right]
    exact h.octilinear old hold

theorem mem_of_mem_legs {leg : Point × Point} (h : leg ∈ legs line) : leg.1 ∈ line ∧ leg.2 ∈ line :=
  ⟨(List.of_mem_zip h).1, List.mem_of_mem_drop (List.of_mem_zip h).2⟩

/-- Without repetitions a list of points still has its first point. -/
theorem exists_eraseReps_cons (p : Point) (rest : List Point) : ∃ more, (p :: rest).eraseReps = p :: more := by
  induction rest with
  | nil => exact ⟨[], rfl⟩
  | cons q rest ih =>
      rw [Loop.eraseReps_cons_cons]
      split
      · exact ih
      · exact ⟨_, rfl⟩

/-- Without repetitions a list of points has just the segments between different points. -/
theorem legs_eraseReps (points : List Point) :
    legs points.eraseReps = (legs points).filter fun leg => leg.1 ≠ leg.2 := by
  cases points with
  | nil => rfl
  | cons p rest =>
      induction rest generalizing p with
      | nil => rfl
      | cons q rest ih =>
          rw [Loop.eraseReps_cons_cons]
          by_cases hpq : p = q
          · rw [if_pos hpq, legs_cons_cons, List.filter_cons_of_neg (by simpa using hpq), hpq, ih q]
          · obtain ⟨more, hmore⟩ := exists_eraseReps_cons q rest
            have ih := ih q
            rw [hmore] at ih
            rw [if_neg hpq, hmore, legs_cons_cons, legs_cons_cons, List.filter_cons_of_pos (by simpa using hpq), ih]

theorem mem_legs_eraseReps_iff {leg : Point × Point} :
    leg ∈ legs points.eraseReps ↔ leg ∈ legs points ∧ leg.1 ≠ leg.2 := by
  rw [legs_eraseReps, List.mem_filter, decide_eq_true_eq]

theorem mem_eraseReps (points : List Point) (p : Point) : p ∈ points.eraseReps ↔ p ∈ points := by
  cases points with
  | nil => rfl
  | cons q rest =>
      induction rest generalizing q with
      | nil => rfl
      | cons s rest ih =>
          rw [Loop.eraseReps_cons_cons]
          by_cases hqs : q = s
          · rw [if_pos hqs, hqs, ih s]
            simp
          · rw [if_neg hqs, List.mem_cons, List.mem_cons (l := s :: rest), ih s]

/-- A line without repetitions stays as it is. -/
theorem eraseReps_of_distinct (h : ∀ leg ∈ legs line, leg.1 ≠ leg.2) : line.eraseReps = line := by
  cases line with
  | nil => rfl
  | cons p rest =>
      induction rest generalizing p with
      | nil => rfl
      | cons q rest ih =>
          rw [legs_cons_cons, List.forall_mem_cons] at h
          rw [Loop.eraseReps_cons_cons, if_neg h.1, ih q h.2]

theorem legs_eraseReps_append_subset (points : List Point) (z : Point) :
    legs (points.eraseReps ++ [z]) ⊆ legs (points ++ [z]) := by
  cases points with
  | nil => exact List.Subset.refl _
  | cons p rest =>
      induction rest generalizing p with
      | nil => exact List.Subset.refl _
      | cons q rest ih =>
          have hmore : legs (q :: rest ++ [z]) ⊆ legs (p :: q :: rest ++ [z]) :=
            List.subset_cons_self (p, q) (legs (q :: rest ++ [z]))
          rw [Loop.eraseReps_cons_cons]
          by_cases hpq : p = q
          · subst hpq
            rw [if_pos rfl]
            exact List.Subset.trans (ih p) hmore
          · obtain ⟨more, hcons⟩ := exists_eraseReps_cons q rest
            have ih := ih q
            rw [hcons] at ih
            rw [if_neg hpq, hcons]
            exact List.cons_subset_cons (p, q) ih

theorem edges_cons (p : Point) (rest : List Point) : Loop.edges (p :: rest) = legs (p :: rest ++ [p]) := by
  have hzip (a b c : List Point) (h : a.length = b.length) : (a ++ c).zip b = a.zip b := by
    rw [← List.append_nil b, List.zip_append h, List.zip_nil_right, List.append_nil, List.append_nil]
  change (p :: rest).zip (rest ++ [p]) = (p :: rest ++ [p]).zip (rest ++ [p])
  exact (hzip (p :: rest) (rest ++ [p]) [p] (by simp)).symm

/-- A loop has all edges that it has without repetitions. -/
theorem edges_eraseReps_subset (l : Loop) : Loop.edges l.eraseReps ⊆ l.edges := by
  cases l with
  | nil => exact List.Subset.refl _
  | cons p rest =>
      have hlegs := legs_eraseReps_append_subset (p :: rest) p
      obtain ⟨more, hmore⟩ := exists_eraseReps_cons p rest
      rw [hmore] at hlegs
      rw [hmore, edges_cons, edges_cons]
      exact hlegs

/-- If every point equals the next one, all of them equal the first one. -/
theorem eq_of_legs (h : ∀ leg ∈ legs (p :: rest), leg.1 = leg.2) : ∀ q ∈ rest, q = p := by
  induction rest generalizing p with
  | nil => exact fun q hq => (List.not_mem_nil hq).elim
  | cons s rest ih =>
      rw [legs_cons_cons, List.forall_mem_cons] at h
      obtain ⟨hps, hrest⟩ := h
      change p = s at hps
      subst hps
      exact List.forall_mem_cons.2 ⟨rfl, ih hrest⟩

theorem exists_leg_ne_iff :
    (∃ leg ∈ legs points, leg.1 ≠ leg.2) ↔ ∃ p ∈ points, ∃ q ∈ points, p ≠ q := by
  constructor
  · rintro ⟨⟨p, q⟩, hleg, hne⟩
    obtain ⟨hp, hq⟩ := mem_of_mem_legs hleg
    exact ⟨p, hp, q, hq, hne⟩
  · rintro ⟨p, hp, q, hq, hne⟩
    by_contra hnone
    push Not at hnone
    cases points with
    | nil => exact List.not_mem_nil hp
    | cons first rest =>
        have hfirst : ∀ s ∈ first :: rest, s = first := List.forall_mem_cons.2 ⟨rfl, eq_of_legs hnone⟩
        exact hne ((hfirst p hp).trans (hfirst q hq).symm)

/-- Every point of a line that has segments is an end of one of them. -/
theorem exists_leg_of_mem (htwo : 2 ≤ line.length) (hp : p ∈ line) : ∃ leg ∈ legs line, p = leg.1 ∨ p = leg.2 := by
  induction line with
  | nil => cases hp
  | cons q rest ih =>
      match rest, htwo with
      | s :: rest, _ =>
        rcases List.mem_cons.1 hp with rfl | hp
        · exact ⟨(p, s), List.mem_cons_self, .inl rfl⟩
        · cases rest with
          | nil => exact ⟨(q, s), List.mem_cons_self, .inr (List.mem_singleton.1 hp)⟩
          | cons t rest =>
              obtain ⟨leg, hleg, hends⟩ := ih (by simp) hp
              exact ⟨leg, List.mem_cons_of_mem _ hleg, hends⟩

/-- Two different points are left exactly if there have been two. -/
theorem two_le_length_eraseReps_iff : 2 ≤ points.eraseReps.length ↔ ∃ p ∈ points, ∃ q ∈ points, p ≠ q := by
  rw [← exists_leg_ne_iff, ← legs_ne_nil_iff, ne_eq, List.eq_nil_iff_forall_not_mem]
  simp only [mem_legs_eraseReps_iff, not_forall, not_not]

/-- Whether a wire can be drawn along a list of points: two of them differ, and each segment between different points
is straight or at 45 degrees. -/
def Drawable (points : List Point) : Prop :=
  (∃ p ∈ points, ∃ q ∈ points, p ≠ q) ∧ ∀ leg ∈ legs points, leg.1 ≠ leg.2 → (leg.2 - leg.1).Octilinear

instance (points : List Point) : Decidable (Drawable points) := inferInstanceAs (Decidable (_ ∧ _))

theorem centerLine_eraseReps_iff : CenterLine points.eraseReps ↔ Drawable points := by
  constructor
  · intro h
    refine ⟨two_le_length_eraseReps_iff.1 h.two, fun leg hleg hne => ?_⟩
    exact h.octilinear leg (mem_legs_eraseReps_iff.2 ⟨hleg, hne⟩)
  · rintro ⟨htwo, hlegs⟩
    refine ⟨two_le_length_eraseReps_iff.2 htwo, fun leg hleg => ?_, fun leg hleg => ?_⟩
    · exact (mem_legs_eraseReps_iff.1 hleg).2
    · exact hlegs leg (mem_legs_eraseReps_iff.1 hleg).1 (mem_legs_eraseReps_iff.1 hleg).2

theorem centerLine_eq (points : List Point) :
    centerLine points =
      if 2 ≤ points.eraseReps.length then .ok points.eraseReps else .error (.representation (.fewPoints points)) := by
  rw [centerLine]
  by_cases h : points.eraseReps.length < 2
  · rw [if_pos h, if_neg (by omega)]
  · rw [if_neg h, if_pos (by omega)]

/-- The first segment of a line that is neither straight nor at 45 degrees. -/
def firstSkew? (line : List Point) : Option (Point × Point) :=
  (legs line).find? fun leg => ¬ (leg.2 - leg.1).Octilinear

theorem firstSkew?_eq_none_iff : firstSkew? line = none ↔ ∀ leg ∈ legs line, (leg.2 - leg.1).Octilinear := by
  simp [firstSkew?, List.find?_eq_none]

theorem centerLine_of_firstSkew? (htwo : 2 ≤ points.eraseReps.length) (h : firstSkew? points.eraseReps = none) :
    CenterLine points.eraseReps :=
  ⟨htwo, fun _ hleg => (mem_legs_eraseReps_iff.1 hleg).2, firstSkew?_eq_none_iff.1 h⟩

/-- The unit steps of a line are found, or its first segment in another direction is refused. -/
theorem mapM_unitStep (line : List Point) :
    ((legs line).mapM fun leg => unitStep leg.1 leg.2) =
      match firstSkew? line with
      | some leg => .error (.representation (.angle leg.1 leg.2))
      | none => .ok ((legs line).map fun leg => (leg.2 - leg.1).heading) := by
  rw [firstSkew?]
  induction legs line with
  | nil => rfl
  | cons leg rest ih =>
      rw [List.mapM_cons, ih]
      by_cases hleg : (leg.2 - leg.1).Octilinear
      · rw [unitStep_of_octilinear hleg, Success.ok_bind, List.find?_cons_of_neg (by simpa using hleg)]
        cases rest.find? fun leg => ¬ (leg.2 - leg.1).Octilinear with
        | some skew => rfl
        | none => rfl
      · rw [unitStep_of_not_octilinear hleg, Success.error_bind, List.find?_cons_of_pos (by simpa using hleg)]

end Path

end MaskLayout
