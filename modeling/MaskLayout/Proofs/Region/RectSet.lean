import MaskLayout.Proofs.Region.Slabs

/-!
# What unions of rectangles cover

What a union of rectangles covers. Counting how many rectangles of a list cover a square says at once which squares
are covered and that no two rectangles overlap; taking a rectangle away from others keeps just the squares off it,
each as often as before.
-/

namespace MaskLayout

namespace Rect

/-- How many of some rectangles cover the unit square at `c`. -/
def coverCount (rs : List Rect) (c : Point) : Nat := rs.countP fun r => decide (r.Covers c)

@[simp] theorem coverCount_nil (c : Point) : coverCount [] c = 0 := rfl

theorem coverCount_cons (r : Rect) (rs : List Rect) (c : Point) :
    coverCount (r :: rs) c = coverCount rs c + if r.Covers c then 1 else 0 := by
  simp [coverCount, List.countP_cons]

theorem coverCount_append (rs ss : List Rect) (c : Point) :
    coverCount (rs ++ ss) c = coverCount rs c + coverCount ss c := List.countP_append

theorem coverCount_pos_iff {rs : List Rect} {c : Point} :
    0 < coverCount rs c ↔ ∃ r ∈ rs, r.Covers c := by
  simp [coverCount, List.countP_pos_iff]

theorem Covers.area_pos {r : Rect} {c : Point} (h : r.Covers c) : 0 < r.area := by
  obtain ⟨hw, hh⟩ := (exists_covers r).1 ⟨c, h⟩
  exact Int.mul_pos hw hh

theorem sizes_of_area_pos {r : Rect} (h : 0 < r.area) : 0 < r.width ∧ 0 < r.height := by
  have hw : 0 ≤ r.width := Int.sub_nonneg_of_le r.x_le
  have hh : 0 ≤ r.height := Int.sub_nonneg_of_le r.y_le
  have hw0 : r.width ≠ 0 := fun h0 => by simp [area, h0] at h
  have hh0 : r.height ≠ 0 := fun h0 => by simp [area, h0] at h
  omega

/-- Rectangles without area cover nothing. -/
theorem coverCount_filter_area (rs : List Rect) (c : Point) :
    coverCount (rs.filter fun r => decide (0 < r.area)) c = coverCount rs c := by
  rw [coverCount, List.countP_filter]
  refine List.countP_congr fun r _ => ?_
  simp only [Bool.and_eq_true, decide_eq_true_eq, and_iff_left_iff_imp]
  exact Covers.area_pos

/-- What is left of `a` covers the squares of `a` off `b`, each once. -/
theorem coverCount_subtract (a b : Rect) (c : Point) :
    coverCount (a.subtract b) c = if a.Covers c ∧ ¬b.Covers c then 1 else 0 := by
  have ha : a.Covers c ↔ a.lo.x ≤ c.x ∧ c.x < a.hi.x ∧ a.lo.y ≤ c.y ∧ c.y < a.hi.y := Iff.rfl
  have hb : b.Covers c ↔ b.lo.x ≤ c.x ∧ c.x < b.hi.x ∧ b.lo.y ≤ c.y ∧ c.y < b.hi.y := Iff.rfl
  rw [subtract]
  split
  · simp only [coverCount_cons, coverCount_nil]
    grind
  · rw [coverCount_filter_area]
    have hxa := a.x_le
    have hya := a.y_le
    simp only [coverCount_cons, coverCount_nil]
    grind [covers_ofCoords]

theorem coverCount_flatMap_subtract (pieces : List Rect) (held : Rect) (c : Point) :
    coverCount (pieces.flatMap (·.subtract held)) c =
      if held.Covers c then 0 else coverCount pieces c := by
  induction pieces with
  | nil => simp
  | cons p pieces ih =>
      rw [List.flatMap_cons, coverCount_append, ih, coverCount_subtract, coverCount_cons]
      by_cases hh : held.Covers c <;> by_cases hp : p.Covers c <;> simp [hh, hp, Nat.add_comm]

end Rect

namespace RectSet

open Rect

/-- Whether a union covers the unit square at `c`. -/
def Covers (s : RectSet) (c : Point) : Prop := ∃ r ∈ s.rects, r.Covers c

instance (s : RectSet) (c : Point) : Decidable (s.Covers c) :=
  inferInstanceAs (Decidable (∃ r ∈ s.rects, r.Covers c))

/-- Every rectangle has positive sizes, and no square is covered twice. -/
structure Exact (s : RectSet) : Prop where
  sizes : ∀ r ∈ s.rects, 0 < r.width ∧ 0 < r.height
  once : ∀ c, coverCount s.rects c ≤ 1

private theorem coverCount_foldl_subtract (pieces held : List Rect) (c : Point) :
    coverCount (held.foldl (fun ps h => ps.flatMap (·.subtract h)) pieces) c =
      if ∃ r ∈ held, r.Covers c then 0 else coverCount pieces c := by
  induction held generalizing pieces with
  | nil => simp
  | cons h held ih =>
      rw [List.foldl_cons, ih, coverCount_flatMap_subtract]
      by_cases hh : h.Covers c <;> simp [hh]

/-- What is left of a rectangle covers its squares that were free, each once. -/
theorem coverCount_uncovered (s : RectSet) (r : Rect) (c : Point) :
    coverCount (s.uncovered r) c = if r.Covers c ∧ ¬s.Covers c then 1 else 0 := by
  rw [uncovered, coverCount_foldl_subtract]
  change (if s.Covers c then 0 else coverCount [r] c) = _
  by_cases hs : s.Covers c <;> simp [hs, coverCount_cons]

theorem coverCount_insert (s : RectSet) (r : Rect) (c : Point) :
    coverCount (s.insert r).rects c =
      coverCount s.rects c + if r.Covers c ∧ ¬s.Covers c then 1 else 0 := by
  rw [insert, coverCount_append, coverCount_filter_area, coverCount_uncovered]

@[simp] theorem not_covers_empty (c : Point) : ¬empty.Covers c := by
  rintro ⟨r, hr, _⟩
  cases hr

theorem covers_insert {s : RectSet} {r : Rect} {c : Point} :
    (s.insert r).Covers c ↔ s.Covers c ∨ r.Covers c := by
  have hcount := coverCount_insert s r c
  have hs : s.Covers c ↔ 0 < coverCount s.rects c := coverCount_pos_iff.symm
  have hi : (s.insert r).Covers c ↔ 0 < coverCount (s.insert r).rects c := coverCount_pos_iff.symm
  rw [hi, hcount]
  by_cases hc : s.Covers c
  · have := hs.1 hc
    simp [hc]
    omega
  · have := mt hs.2 hc
    by_cases hr : r.Covers c
    · simp [hc, hr]
    · simp [hc, hr]
      omega

theorem covers_insertAll {s : RectSet} {rs : List Rect} {c : Point} :
    (s.insertAll rs).Covers c ↔ s.Covers c ∨ ∃ r ∈ rs, r.Covers c := by
  induction rs generalizing s with
  | nil => simp [insertAll]
  | cons r rs ih =>
      change ((s.insert r).insertAll rs).Covers c ↔ _
      rw [ih, covers_insert]
      simp [or_assoc]

theorem covers_insertLoop {s : RectSet} {l : Loop} (hl : l.Rectilinear) {c : Point} :
    (s.insertLoop l).Covers c ↔ s.Covers c ∨ l.Covers c := by
  rw [insertLoop, covers_insertAll, hl.exists_slabs_covers]

theorem covers_transform {s : RectSet} {t : Transform} {c : Point} :
    (s.transform t).Covers (t.square c) ↔ s.Covers c := by
  simp [Covers, transform, Rect.covers_transform]

theorem exact_empty : empty.Exact := ⟨by simp [empty], by simp [empty]⟩

theorem Exact.insert {s : RectSet} (h : s.Exact) (r : Rect) : (s.insert r).Exact where
  sizes p hp := by
    rcases List.mem_append.1 hp with hp | hp
    · exact h.sizes p hp
    · exact sizes_of_area_pos (by simpa using (List.mem_filter.1 hp).2)
  once c := by
    rw [coverCount_insert]
    have hs : s.Covers c ↔ 0 < coverCount s.rects c := coverCount_pos_iff.symm
    have honce := h.once c
    split
    · rename_i hc
      have := mt hs.2 hc.2
      omega
    · omega

theorem Exact.insertAll {s : RectSet} (h : s.Exact) (rs : List Rect) : (s.insertAll rs).Exact := by
  induction rs generalizing s with
  | nil => exact h
  | cons r rs ih => exact ih (h.insert r)

theorem Exact.transform {s : RectSet} (h : s.Exact) (t : Transform) : (s.transform t).Exact where
  sizes p hp := by
    obtain ⟨r, hr, rfl⟩ := List.mem_map.1 hp
    exact sizes_transform r t (h.sizes r hr)
  once c := by
    have honce := h.once (t.invert.square c)
    rw [← t.square_invert c, coverCount, RectSet.transform, List.countP_map]
    simpa [coverCount, Function.comp_def, Rect.covers_transform] using honce

end RectSet

end MaskLayout
