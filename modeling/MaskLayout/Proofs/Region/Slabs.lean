import MaskLayout.Proofs.Region.EvenOdd
import MaskLayout.Region.RectSet

/-!
# Slabs

Rectilinear loops cut into horizontal slabs. Between consecutive ordinates the same vertical edges span every row,
and there are evenly many of them. Pairing their abscissas in ascending order therefore fills exactly the squares
that the even-odd rule covers.
-/

namespace MaskLayout

namespace Loop

section Ascending

variable {α : Type}

private theorem eraseRepsBy_loop_eq {r : α → α → Bool} (a : α) (as acc : List α) :
    List.eraseRepsBy.loop r a as acc = acc.reverse ++ List.eraseRepsBy.loop r a as [] := by
  induction as generalizing a acc with
  | nil => simp [List.eraseRepsBy.loop]
  | cons b as ih =>
      unfold List.eraseRepsBy.loop
      split
      · exact ih a acc
      · rw [ih b (a :: acc), ih b [a]]
        simp

theorem eraseReps_cons_cons [DecidableEq α] (a b : α) (as : List α) :
    (a :: b :: as).eraseReps =
      if a = b then (a :: as).eraseReps else a :: (b :: as).eraseReps := by
  simp only [List.eraseReps, List.eraseRepsBy, List.eraseRepsBy.loop]
  by_cases h : a = b
  · simp [h]
  · simp only [beq_eq_false_iff_ne.2 h, h, if_false]
    rw [eraseRepsBy_loop_eq]
    rfl

variable [LinearOrder α]

/-- An ascending list without its repetitions is strictly ascending and has the same members. -/
theorem eraseReps_of_ascending {xs : List α} (h : xs.Pairwise (· ≤ ·)) :
    xs.eraseReps.Pairwise (· < ·) ∧ ∀ z, z ∈ xs.eraseReps ↔ z ∈ xs := by
  cases xs with
  | nil => exact ⟨.nil, fun z => Iff.rfl⟩
  | cons a as =>
      induction as generalizing a with
      | nil => exact ⟨List.pairwise_singleton _ a, fun z => Iff.rfl⟩
      | cons b as ih =>
          obtain ⟨ha, hbs⟩ := List.pairwise_cons.1 h
          obtain ⟨hb, has⟩ := List.pairwise_cons.1 hbs
          rw [eraseReps_cons_cons]
          split
          · rename_i hab
            subst hab
            obtain ⟨hlt, hmem⟩ := ih a hbs
            exact ⟨hlt, fun z => by simp [hmem z]⟩
          · rename_i hab
            obtain ⟨hlt, hmem⟩ := ih b hbs
            refine ⟨List.pairwise_cons.2 ⟨fun z hz => ?_, hlt⟩, fun z => by simp [hmem z]⟩
            have hab := lt_of_le_of_ne (ha b List.mem_cons_self) hab
            rcases List.mem_cons.1 ((hmem z).1 hz) with rfl | hz
            · exact hab
            · exact hab.trans_le (hb z hz)

theorem ascending_mergeSort (xs : List α) : (xs.mergeSort fun a b => decide (a ≤ b)).Pairwise (· ≤ ·) := by
  refine (List.pairwise_mergeSort ?_ ?_ xs).imp fun h => by simpa using h
  · intro a b c
    simp only [decide_eq_true_eq]
    exact le_trans
  · intro a b
    simp only [Bool.or_eq_true, decide_eq_true_eq]
    exact le_total a b

/-- Consecutive members of a strictly ascending list have no member between them. -/
theorem of_mem_gaps {ys : List α} (h : ys.Pairwise (· < ·)) {p : α × α}
    (hp : p ∈ ys.zip (ys.drop 1)) : p.1 < p.2 ∧ ∀ z ∈ ys, z ≤ p.1 ∨ p.2 ≤ z := by
  induction ys with
  | nil => simp at hp
  | cons a ys ih =>
      cases ys with
      | nil => simp at hp
      | cons b ys =>
          obtain ⟨ha, hys⟩ := List.pairwise_cons.1 h
          obtain ⟨hb, _⟩ := List.pairwise_cons.1 hys
          have hab := ha b (by simp)
          simp only [List.drop_succ_cons, List.drop_zero, List.zip_cons_cons, List.mem_cons] at hp
          rcases hp with rfl | hp
          · refine ⟨hab, fun z hz => ?_⟩
            rcases List.mem_cons.1 hz with rfl | hz
            · exact .inl (le_refl _)
            · rcases List.mem_cons.1 hz with rfl | hz
              · exact .inr (le_refl _)
              · exact .inr (hb z hz).le
          · obtain ⟨hlt, hgap⟩ := ih hys hp
            refine ⟨hlt, fun z hz => ?_⟩
            rcases List.mem_cons.1 hz with rfl | hz
            · have hb := hgap b (by simp)
              have hp1 : p.1 ∈ b :: ys := (List.of_mem_zip hp).1
              have := ha p.1 hp1
              exact .inl this.le
            · exact hgap z hz

/-- Any value between two members of a strictly ascending list lies in a gap of it. -/
theorem exists_gap {ys : List α} (h : ys.Pairwise (· < ·)) {y a b : α} (ha : a ∈ ys)
    (hb : b ∈ ys) (hay : a ≤ y) (hyb : y < b) : ∃ p ∈ ys.zip (ys.drop 1), p.1 ≤ y ∧ y < p.2 := by
  induction ys generalizing a with
  | nil => simp at ha
  | cons z ys ih =>
      cases ys with
      | nil =>
          simp only [List.mem_singleton] at ha hb
          exact absurd (hay.trans_lt hyb) (by simp [ha, hb])
      | cons w ys =>
          obtain ⟨hz, hys⟩ := List.pairwise_cons.1 h
          have hzw := hz w (by simp)
          by_cases hwy : w ≤ y
          · have hb' : b ∈ w :: ys := by
              rcases List.mem_cons.1 hb with rfl | hb
              · exact absurd (hzw.trans_le hwy) hyb.not_gt
              · exact hb
            obtain ⟨p, hp, hgap⟩ := ih hys List.mem_cons_self hb' hwy
            exact ⟨p, List.mem_cons_of_mem _ hp, hgap⟩
          · have haz : a = z := by
              rcases List.mem_cons.1 ha with rfl | ha
              · rfl
              · rcases List.mem_cons.1 ha with rfl | ha
                · exact absurd hay hwy
                · have hwa := (List.pairwise_cons.1 hys).1 a ha
                  exact absurd (hwa.le.trans hay) hwy
            exact ⟨(z, w), List.mem_cons_self, haz ▸ hay, not_le.1 hwy⟩

end Ascending

/-- The pairs of an ascending list of even length hold a value as often as, modulo two, the list has members up
to it. -/
theorem countP_inPairs {xs : List Int} (h : xs.Pairwise (· ≤ ·)) (heven : xs.length % 2 = 0) (x : Int) :
    ((inPairs xs).countP fun p => decide (p.1 ≤ x ∧ x < p.2)) =
      (xs.countP fun a => decide (a ≤ x)) % 2 := by
  fun_induction inPairs xs with
  | case1 a b rest ih =>
      obtain ⟨ha, hb⟩ := List.pairwise_cons.1 h
      obtain ⟨hrest, hsorted⟩ := List.pairwise_cons.1 hb
      have hab := ha b (by simp)
      have ih := ih hsorted (by simp only [List.length_cons] at heven; omega)
      simp only [List.countP_cons]
      by_cases hbx : b ≤ x
      · have hax : a ≤ x := by omega
        have hx : ¬x < b := by omega
        rw [ih]
        simp only [hax, hbx, hx, and_false, decide_false, decide_true]
        simp only [Bool.false_eq_true, if_false, if_true]
        omega
      · have hzero : rest.countP (fun a => decide (a ≤ x)) = 0 := by
          refine List.countP_eq_zero.2 fun z hz => ?_
          have := hrest z hz
          simp
          omega
        rw [ih, hzero]
        by_cases hax : a ≤ x <;> simp [hax, hbx]
  | case2 xs hshort =>
      match xs with
      | [] => rfl
      | [a] => simp at heven
      | a :: b :: rest => exact absurd rfl (hshort a b rest)

theorem ordinates_spec (l : Loop) :
    l.ordinates.Pairwise (· < ·) ∧ ∀ y, y ∈ l.ordinates ↔ ∃ p ∈ l, p.y = y := by
  obtain ⟨hlt, hmem⟩ := eraseReps_of_ascending (ascending_mergeSort (l.map (·.y)))
  exact ⟨hlt, fun y => by rw [ordinates, hmem, List.mem_mergeSort, List.mem_map]⟩

theorem mem_of_mem_edges {l : Loop} {e : Point × Point} (he : e ∈ l.edges) : e.1 ∈ l ∧ e.2 ∈ l := by
  obtain ⟨h1, h2⟩ := List.of_mem_zip he
  refine ⟨h1, ?_⟩
  rcases List.mem_append.1 h2 with h | h
  · exact List.mem_of_mem_drop h
  · exact List.mem_of_mem_take h

section Gap

variable {l : Loop} {g : Int × Int} {c : Point}

/-- Over a gap between ordinates, the edges that span it are those along which the loop passes a row of it. -/
theorem Rectilinear.spans_gap (hl : l.Rectilinear) (hg : g ∈ l.ordinates.zip (l.ordinates.drop 1))
    (hlo : g.1 ≤ c.y) (hhi : c.y < g.2) {e : Point × Point} (he : e ∈ l.edges) :
    (e.1.x == e.2.x && e.1.y != e.2.y && decide (min e.1.y e.2.y ≤ g.1) &&
      decide (g.2 ≤ max e.1.y e.2.y)) = (below c e.1 != below c e.2) := by
  obtain ⟨hasc, hmem⟩ := ordinates_spec l
  obtain ⟨hlt, hgap⟩ := of_mem_gaps hasc hg
  obtain ⟨h1, h2⟩ := mem_of_mem_edges he
  have hy1 := hgap e.1.y ((hmem _).2 ⟨_, h1, rfl⟩)
  have hy2 := hgap e.2.y ((hmem _).2 ⟨_, h2, rfl⟩)
  rw [Bool.eq_iff_iff]
  simp only [below, Bool.and_eq_true, bne_iff_ne, beq_iff_eq, ne_eq, decide_eq_decide,
    decide_eq_true_eq]
  rcases hl e he with hx | hy <;> omega

theorem Rectilinear.countP_spanning (hl : l.Rectilinear)
    (hg : g ∈ l.ordinates.zip (l.ordinates.drop 1)) (hlo : g.1 ≤ c.y) (hhi : c.y < g.2) (p : Int → Bool) :
    (l.spanning g.1 g.2).countP p =
      l.edges.countP fun e => p e.1.x && (below c e.1 != below c e.2) := by
  rw [spanning, (List.mergeSort_perm _ _).countP_eq, List.countP_map, List.countP_filter]
  refine List.countP_congr fun e he => ?_
  have hspan := hl.spans_gap hg hlo hhi he
  simp only [Function.comp_apply] at hspan ⊢
  rw [hspan]

/-- Evenly many vertical edges span a slab, so that none is left over when they are paired. -/
theorem Rectilinear.spanning_even (hl : l.Rectilinear)
    (hg : g ∈ l.ordinates.zip (l.ordinates.drop 1)) : (l.spanning g.1 g.2).length % 2 = 0 := by
  have hlt := (of_mem_gaps (ordinates_spec l).1 hg).1
  have hcount := hl.countP_spanning (c := ⟨0, g.1⟩) hg (Int.le_refl _) hlt fun _ => true
  have heven := changes_even (below ⟨0, g.1⟩) l
  simp only [List.countP_true, Bool.true_and] at hcount
  omega

theorem spanning_ascending (l : Loop) (lo hi : Int) : (l.spanning lo hi).Pairwise (· ≤ ·) := ascending_mergeSort _

/-- Within a slab, a square lies between the edges of some pair exactly if the loop covers it. -/
theorem Rectilinear.exists_inPairs (hl : l.Rectilinear)
    (hg : g ∈ l.ordinates.zip (l.ordinates.drop 1)) (hlo : g.1 ≤ c.y) (hhi : c.y < g.2) :
    (∃ p ∈ inPairs (l.spanning g.1 g.2), p.1 ≤ c.x ∧ c.x < p.2) ↔ l.Covers c := by
  have hpairs := countP_inPairs (spanning_ascending l g.1 g.2) (hl.spanning_even hg) c.x
  rw [hl.countP_spanning hg hlo hhi fun a => decide (a ≤ c.x)] at hpairs
  have hpos : (∃ p ∈ inPairs (l.spanning g.1 g.2), p.1 ≤ c.x ∧ c.x < p.2) ↔
      0 < (inPairs (l.spanning g.1 g.2)).countP fun p => decide (p.1 ≤ c.x ∧ c.x < p.2) := by
    simp [List.countP_pos_iff]
  rw [hpos, hpairs, hl.covers_iff]
  change 0 < turns (leftOf c) (below c) l % 2 ↔ _
  omega

end Gap

theorem mem_slabs {l : Loop} {r : Rect} : r ∈ l.slabs ↔
    ∃ g ∈ l.ordinates.zip (l.ordinates.drop 1), ∃ p ∈ inPairs (l.spanning g.1 g.2),
      p.1 < p.2 ∧ r = Rect.ofCoords p.1 g.1 p.2 g.2 := by
  simp only [slabs, List.mem_flatMap, List.mem_map, List.mem_filter, decide_eq_true_eq, and_assoc,
    eq_comm (a := r)]

/-- The slabs of a rectilinear loop fill the squares that it covers by the even-odd rule. -/
theorem Rectilinear.exists_slabs_covers {l : Loop} (hl : l.Rectilinear) (c : Point) :
    (∃ r ∈ l.slabs, r.Covers c) ↔ l.Covers c := by
  obtain ⟨hasc, hmem⟩ := ordinates_spec l
  constructor
  · rintro ⟨r, hr, hc⟩
    obtain ⟨g, hg, p, hp, hlt, rfl⟩ := mem_slabs.1 hr
    have hglt := (of_mem_gaps hasc hg).1
    rw [Rect.covers_ofCoords] at hc
    exact (hl.exists_inPairs hg (by omega) (by omega)).1 ⟨p, hp, by omega, by omega⟩
  · intro hc
    -- Some edge passes the row of the square, so the row lies in a gap between ordinates.
    obtain ⟨e, he, hcross⟩ : ∃ e ∈ l.edges, (below c e.1 != below c e.2) = true := by
      rw [hl.covers_iff] at hc
      have hpos : 0 < turns (leftOf c) (below c) l := by omega
      obtain ⟨e, he, h⟩ := List.countP_pos_iff.1 hpos
      exact ⟨e, he, by simp only [Bool.and_eq_true] at h; exact h.2⟩
    obtain ⟨h1, h2⟩ := mem_of_mem_edges he
    have hy1 := (hmem _).2 ⟨_, h1, rfl⟩
    have hy2 := (hmem _).2 ⟨_, h2, rfl⟩
    obtain ⟨g, hg, hlo, hhi⟩ : ∃ g ∈ l.ordinates.zip (l.ordinates.drop 1), g.1 ≤ c.y ∧ c.y < g.2 := by
      simp only [below, bne_iff_ne, ne_eq, decide_eq_decide] at hcross
      by_cases hle : e.1.y ≤ c.y
      · exact exists_gap hasc hy1 hy2 hle (by omega)
      · exact exists_gap hasc hy2 hy1 (by omega) (by omega)
    obtain ⟨p, hp, hx⟩ := (hl.exists_inPairs hg hlo hhi).2 hc
    refine ⟨Rect.ofCoords p.1 g.1 p.2 g.2, mem_slabs.2 ⟨g, hg, p, hp, by omega, rfl⟩, ?_⟩
    rw [Rect.covers_ofCoords]
    omega

end Loop

end MaskLayout
