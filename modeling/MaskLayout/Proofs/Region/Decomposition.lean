import MaskLayout.Proofs.Region.RectSet

/-!
# The cut into slabs as a whole

The cut of a rectilinear loop into slabs as a whole. No upright edge is left over when the edges over a slab are paired,
and the rectangles have an area and do not overlap. They cover a square where an odd number of upright edges stands to
the left of it in its row, and, what is the same, where an odd number of level edges lies below it in its column. So
the cut does not depend on the axis, and a placed loop is cut into rectangles of the placed squares.
-/

namespace MaskLayout

namespace Loop

section Order

/-- The gaps of a strictly ascending list come one after the other. -/
theorem pairwise_gaps {ys : List Int} (h : ys.Pairwise (· < ·)) :
    (ys.zip (ys.drop 1)).Pairwise fun p q => p.2 ≤ q.1 := by
  induction ys with
  | nil => exact .nil
  | cons a ys ih =>
      cases ys with
      | nil => exact .nil
      | cons b ys =>
          obtain ⟨-, hys⟩ := List.pairwise_cons.1 h
          obtain ⟨hb, -⟩ := List.pairwise_cons.1 hys
          refine List.pairwise_cons.2 ⟨fun q hq => ?_, ih hys⟩
          rcases List.mem_cons.1 (List.of_mem_zip hq).1 with heq | hmem
          · exact heq.ge
          · exact (hb q.1 hmem).le

theorem mem_of_mem_inPairs {xs : List Int} {p : Int × Int} (hp : p ∈ inPairs xs) : p.1 ∈ xs ∧ p.2 ∈ xs := by
  fun_induction inPairs xs with
  | case1 a b rest ih =>
      rcases List.mem_cons.1 hp with rfl | hp
      · simp
      · obtain ⟨h1, h2⟩ := ih hp
        exact ⟨by simp [h1], by simp [h2]⟩
  | case2 => cases hp

/-- The pairs of an ascending list come one after the other. -/
theorem pairwise_inPairs {xs : List Int} (h : xs.Pairwise (· ≤ ·)) :
    (inPairs xs).Pairwise fun p q => p.2 ≤ q.1 := by
  fun_induction inPairs xs with
  | case1 a b rest ih =>
      obtain ⟨-, hbrest⟩ := List.pairwise_cons.1 h
      obtain ⟨hb, hrest⟩ := List.pairwise_cons.1 hbrest
      exact List.pairwise_cons.2 ⟨fun q hq => hb q.1 (mem_of_mem_inPairs hq).1, ih hrest⟩
  | case2 => exact .nil

/-- No member of a list of even length is left out of its pairs. -/
theorem flatMap_inPairs {xs : List Int} (h : xs.length % 2 = 0) :
    (inPairs xs).flatMap (fun p => [p.1, p.2]) = xs := by
  fun_induction inPairs xs with
  | case1 a b rest ih =>
      have hrest : rest.length % 2 = 0 := by
        simp only [List.length_cons] at h
        omega
      rw [List.flatMap_cons, ih hrest]
      rfl
  | case2 xs hshort =>
      cases xs with
      | nil => rfl
      | cons a xs =>
          cases xs with
          | nil => simp at h
          | cons b rest => exact absurd rfl (hshort a b rest)

end Order

/-- Two ordinates of vertices of a loop that follow each other: no vertex lies between them. -/
structure Consecutive (l : Loop) (lo hi : Int) : Prop where
  lt : lo < hi
  low : ∃ p ∈ l, p.y = lo
  high : ∃ p ∈ l, p.y = hi
  between : ∀ p ∈ l, p.y ≤ lo ∨ hi ≤ p.y

/-- The slabs of a loop lie between the ordinates that follow each other. -/
theorem mem_gaps_iff {l : Loop} {lo hi : Int} :
    (lo, hi) ∈ l.ordinates.zip (l.ordinates.drop 1) ↔ l.Consecutive lo hi := by
  obtain ⟨hasc, hmem⟩ := ordinates_spec l
  constructor
  · intro hg
    obtain ⟨hlt, hgap⟩ := of_mem_gaps hasc hg
    obtain ⟨hlo, hhi⟩ := List.of_mem_zip hg
    exact ⟨hlt, (hmem lo).1 hlo, (hmem hi).1 (List.mem_of_mem_drop hhi), fun p hp => hgap p.y ((hmem _).2 ⟨p, hp, rfl⟩)⟩
  · intro h
    have hlohi := h.lt
    have hlo := (hmem lo).2 h.low
    have hhi := (hmem hi).2 h.high
    obtain ⟨⟨a, b⟩, hg, hle, hlt⟩ := exists_gap hasc hlo hhi (le_refl lo) hlohi
    obtain ⟨-, hgap⟩ := of_mem_gaps hasc hg
    obtain ⟨p, hp, hpb⟩ := (hmem b).1 (List.mem_of_mem_drop (List.of_mem_zip hg).2)
    have hb := h.between p hp
    have hlo := hgap lo hlo
    have hhi := hgap hi hhi
    simp only at hle hlt hlo hhi
    obtain ⟨rfl, rfl⟩ : a = lo ∧ b = hi := by omega
    exact hg

section Disjoint

variable {l : Loop}

theorem area_pos_of_mem_slabs {r : Rect} (hr : r ∈ l.slabs) : 0 < r.area := by
  obtain ⟨g, hg, p, hp, hlt, rfl⟩ := mem_slabs.1 hr
  have hglt := (mem_gaps_iff.1 hg).lt
  refine Rect.Covers.area_pos (c := ⟨p.1, g.1⟩) ?_
  simp only [Rect.covers_ofCoords]
  omega

/-- No two rectangles of the slabs share a square: those of one slab lie side by side, and the slabs lie one above the
other. -/
theorem pairwise_slabs (l : Loop) : l.slabs.Pairwise fun a b => ∀ c, ¬(a.Covers c ∧ b.Covers c) := by
  have hgaps := pairwise_gaps (ordinates_spec l).1
  rw [slabs, List.pairwise_flatMap]
  constructor
  · -- In one slab, the pairs of abscissas come one after the other.
    intro g hg
    rw [List.pairwise_map, List.pairwise_filter]
    refine (pairwise_inPairs (spanning_ascending l g.1 g.2)).imp ?_
    intro p q hpq hp hq c hc
    simp only [decide_eq_true_eq] at hp hq
    simp only [Rect.covers_ofCoords] at hc
    omega
  · -- Two slabs have no row in common.
    refine hgaps.imp_of_mem ?_
    intro g g' hg hg' hle a ha b hb c hc
    have hlt := (mem_gaps_iff.1 hg).lt
    have hlt' := (mem_gaps_iff.1 hg').lt
    obtain ⟨p, -, rfl⟩ := List.mem_map.1 ha
    obtain ⟨q, -, rfl⟩ := List.mem_map.1 hb
    simp only [Rect.covers_ofCoords] at hc
    omega

end Disjoint

/-- Whether an edge is upright, spans the row of the unit square at `c` and stands to the left of the square. -/
def standsLeft (c : Point) (e : Point × Point) : Bool :=
  decide (e.1.x = e.2.x ∧ min e.1.y e.2.y ≤ c.y ∧ c.y < max e.1.y e.2.y ∧ e.1.x ≤ c.x)

/-- Whether an edge is level, spans the column of the unit square at `c` and lies below the square. -/
def liesBelow (c : Point) (e : Point × Point) : Bool :=
  decide (e.1.y = e.2.y ∧ min e.1.x e.2.x ≤ c.x ∧ c.x < max e.1.x e.2.x ∧ e.1.y ≤ c.y)

namespace Rectilinear

variable {l : Loop}

theorem countP_standsLeft (hl : l.Rectilinear) (c : Point) :
    l.edges.countP (standsLeft c) = turns (leftOf c) (below c) l := by
  refine List.countP_congr fun e he => ?_
  simp only [standsLeft, leftOf, below, Bool.and_eq_true, bne_iff_ne, ne_eq, decide_eq_decide, decide_eq_true_eq]
  rcases hl e he with hx | hy <;> omega

theorem countP_liesBelow (hl : l.Rectilinear) (c : Point) :
    l.edges.countP (liesBelow c) = turns (below c) (leftOf c) l := by
  refine List.countP_congr fun e he => ?_
  simp only [liesBelow, leftOf, below, Bool.and_eq_true, bne_iff_ne, ne_eq, decide_eq_decide, decide_eq_true_eq]
  rcases hl e he with hx | hy <;> omega

/-- The slabs of a placed loop cover the placed squares of its slabs and no others. -/
theorem exists_slabs_transform (hl : l.Rectilinear) (t : Transform) (c : Point) :
    (∃ r ∈ Loop.slabs (l.transform t), r.Covers c) ↔ ∃ d, t.square d = c ∧ ∃ r ∈ l.slabs, r.Covers d := by
  have hplaced (d : Point) : (∃ r ∈ Loop.slabs (l.transform t), r.Covers (t.square d)) ↔ ∃ r ∈ l.slabs, r.Covers d := by
    rw [(hl.transform t).exists_slabs_covers, hl.exists_slabs_covers, hl.covers_transform]
  constructor
  · intro h
    refine ⟨t.invert.square c, t.square_invert c, (hplaced _).1 ?_⟩
    rwa [t.square_invert]
  · rintro ⟨d, rfl, h⟩
    exact (hplaced d).2 h

end Rectilinear

/-- The slabs of a rectilinear loop fill it by the even-odd rule. Evenly many upright edges span a slab, and all of them
are paired. The rectangles have an area and share no squares, and they cover just the squares with an odd number of
upright edges to their left, which are those with an odd number of level edges below them. A placed loop is filled with
the placed squares. -/
theorem slabs_fill_even_odd {l : Loop} (h : LoopKind.rectilinear.check l = .ok l) :
    (∀ lo hi, l.Consecutive lo hi → (l.spanning lo hi).length % 2 = 0 ∧
      (inPairs (l.spanning lo hi)).flatMap (fun p => [p.1, p.2]) = l.spanning lo hi) ∧
    (∀ r ∈ l.slabs, 0 < r.area) ∧
    (l.slabs.Pairwise fun a b => ∀ c, ¬(a.Covers c ∧ b.Covers c)) ∧
    (∀ c, (∃ r ∈ l.slabs, r.Covers c) ↔ l.edges.countP (standsLeft c) % 2 = 1) ∧
    (∀ c, (∃ r ∈ l.slabs, r.Covers c) ↔ l.edges.countP (liesBelow c) % 2 = 1) ∧
    ∀ t c, (∃ r ∈ Loop.slabs (l.transform t), r.Covers c) ↔ ∃ d, t.square d = c ∧ ∃ r ∈ l.slabs, r.Covers d := by
  have hl := rectilinear_of_check h
  have hleft (c : Point) : (∃ r ∈ l.slabs, r.Covers c) ↔ l.edges.countP (standsLeft c) % 2 = 1 := by
    rw [hl.exists_slabs_covers, hl.covers_iff, hl.countP_standsLeft]
  refine ⟨fun lo hi hgap => ?_, fun r hr => area_pos_of_mem_slabs hr, pairwise_slabs l, hleft, fun c => ?_,
    hl.exists_slabs_transform⟩
  · have heven := hl.spanning_even (mem_gaps_iff.2 hgap)
    exact ⟨heven, flatMap_inPairs heven⟩
  · rw [hleft, hl.countP_standsLeft, hl.countP_liesBelow, hl.turns_comm]

/-- A loop that crosses itself three times. -/
def crossed : Loop := [⟨0, 0⟩, ⟨6, 0⟩, ⟨6, 4⟩, ⟨2, 4⟩, ⟨2, -2⟩, ⟨4, -2⟩, ⟨4, 2⟩, ⟨0, 2⟩]

/-- The squares around which the loop runs twice stay free, and those on either side are covered. -/
theorem slabs_fill_even_odd_crossed :
    LoopKind.rectilinear.check crossed = .ok crossed ∧
    (crossed.spanning 0 2).length % 2 = 0 ∧
    (∃ r ∈ crossed.slabs, r.Covers ⟨1, 1⟩) ∧ ¬ (∃ r ∈ crossed.slabs, r.Covers ⟨3, 1⟩) ∧
    ∃ r ∈ Loop.slabs (Loop.transform crossed ⟨⟨10, 0⟩, .mxr90⟩), r.Covers ⟨11, 5⟩ := by
  have hcheck : LoopKind.rectilinear.check crossed = .ok crossed := rfl
  obtain ⟨heven, -, -, hleft, hbelow, hplaced⟩ := slabs_fill_even_odd hcheck
  have hgap : crossed.Consecutive 0 2 := ⟨by decide, by decide, by decide, by decide⟩
  refine ⟨hcheck, (heven 0 2 hgap).1, (hleft _).2 (by decide), fun h => ?_, ?_⟩
  · exact absurd ((hbelow _).1 h) (by decide)
  · exact (hplaced _ _).2 ⟨⟨5, 1⟩, by decide, (hleft _).2 (by decide)⟩

end Loop

end MaskLayout
