import MaskLayout.Proofs.Region.RectSet
import MaskLayout.Region.Coverage
import MaskLayout.Region.ExactPolygons
import Mathlib.Algebra.Order.Ring.Int
import Mathlib.Data.Finset.Prod
import Mathlib.Data.Finset.Range

/-!
# Exact unions

Unions of rectilinear shapes are exact: whatever was inserted, merged and moved in whatever order, the stored
rectangles cover each square of the inserted shapes once and no other square, and the area counts these squares.
-/

namespace MaskLayout

namespace Shape

/-- Whether a shape covers the unit square at `c`: a rectangle by its extent, any other shape by the even-odd rule
for some loop of it. -/
def Covers (s : Shape) (c : Point) : Prop :=
  match s with
  | rect r => r.Covers c
  | s => ∃ l ∈ s.loops, l.Covers c

/-- Whether all edges of a shape are horizontal or vertical. -/
def Rectilinear (s : Shape) : Prop :=
  match s with
  | rect _ => True
  | s => ∀ l ∈ s.loops, Loop.Rectilinear l

theorem covers_poly90 {l : Loop} {c : Point} : (poly90 l).Covers c ↔ l.Covers c := by
  simp [Covers, loops]

theorem rectilinear_poly90 {l : Loop} (h : LoopKind.rectilinear.check l = .ok l) :
    (poly90 l).Rectilinear := by
  simpa [Rectilinear, loops] using Loop.rectilinear_of_check h

private theorem exists_covers_transform {ls : List Loop} (h : ∀ l ∈ ls, l.Rectilinear) (t : Transform)
    (c : Point) : (∃ l ∈ ls.map (·.transform t), l.Covers (t.square c)) ↔ ∃ l ∈ ls, l.Covers c := by
  constructor
  · rintro ⟨_, hmap, hc⟩
    obtain ⟨l, hl, rfl⟩ := List.mem_map.1 hmap
    exact ⟨l, hl, ((h l hl).covers_transform t c).1 hc⟩
  · rintro ⟨l, hl, hc⟩
    exact ⟨l.transform t, List.mem_map.2 ⟨l, hl, rfl⟩, ((h l hl).covers_transform t c).2 hc⟩

/-- A placed rectilinear shape covers the placed squares. -/
theorem Rectilinear.covers_transform {s : Shape} (h : s.Rectilinear) (t : Transform) (c : Point) :
    (s.transform t).Covers (t.square c) ↔ s.Covers c := by
  cases s with
  | rect r => exact r.covers_transform t c
  | poly90 l => exact exists_covers_transform h t c
  | poly45 l => exact exists_covers_transform h t c
  | poly45Set ls => exact exists_covers_transform h t c
  | poly l => exact exists_covers_transform h t c

theorem Rectilinear.transform {s : Shape} (h : s.Rectilinear) (t : Transform) :
    (s.transform t).Rectilinear := by
  have hmap {ls : List Loop} (h : ∀ l ∈ ls, l.Rectilinear) : ∀ l ∈ ls.map (·.transform t), l.Rectilinear := by
    intro _ hmap
    obtain ⟨l, hl, rfl⟩ := List.mem_map.1 hmap
    exact (h l hl).transform t
  cases s with
  | rect r => trivial
  | poly90 l => exact hmap h
  | poly45 l => exact hmap h
  | poly45Set ls => exact hmap h
  | poly l => exact hmap h

end Shape

namespace Rect

/-- The unit squares that a rectangle covers. -/
def squares (r : Rect) : Finset Point :=
  (Finset.range r.width.toNat ×ˢ Finset.range r.height.toNat).image fun steps => r.lo + ⟨steps.1, steps.2⟩

theorem mem_squares {r : Rect} {c : Point} : c ∈ r.squares ↔ r.Covers c := by
  simp only [squares, Finset.mem_image, Finset.mem_product, Finset.mem_range, width, height, Prod.exists, Covers]
  constructor
  · rintro ⟨x, y, ⟨hx, hy⟩, rfl⟩
    simp only [Point.add_x, Point.add_y]
    omega
  · intro h
    refine ⟨(c.x - r.lo.x).toNat, (c.y - r.lo.y).toNat, by omega, ?_⟩
    apply Point.ext
    · simp only [Point.add_x]
      omega
    · simp only [Point.add_y]
      omega

theorem card_squares (r : Rect) : (r.squares.card : Int) = r.area := by
  have hinj : Function.Injective fun steps : Nat × Nat => r.lo + ⟨steps.1, steps.2⟩ := by
    intro p q h
    have hx : r.lo.x + p.1 = r.lo.x + q.1 := congrArg Point.x h
    have hy : r.lo.y + p.2 = r.lo.y + q.2 := congrArg Point.y h
    exact Prod.ext (by omega) (by omega)
  have hwidth : 0 ≤ r.width := Int.sub_nonneg_of_le r.x_le
  have hheight : 0 ≤ r.height := Int.sub_nonneg_of_le r.y_le
  rw [squares, Finset.card_image_of_injective _ hinj, Finset.card_product, Finset.card_range, Finset.card_range,
    Nat.cast_mul, Int.toNat_of_nonneg hwidth, Int.toNat_of_nonneg hheight]
  rfl

theorem pairwise_of_once {rs : List Rect} (h : ∀ c, coverCount rs c ≤ 1) :
    rs.Pairwise fun a b => ∀ c, ¬(a.Covers c ∧ b.Covers c) := by
  induction rs with
  | nil => exact .nil
  | cons a rs ih =>
      have hrest (c : Point) : coverCount rs c + (if a.Covers c then 1 else 0) ≤ 1 :=
        coverCount_cons a rs c ▸ h c
      refine List.pairwise_cons.2 ⟨fun b hb c ⟨hac, hbc⟩ => ?_, ih fun c => by have := hrest c; omega⟩
      have hpos := coverCount_pos_iff.2 ⟨b, hb, hbc⟩
      have := hrest c
      simp only [hac, if_true] at this
      omega

/-- Where no square is covered twice, areas add up to the number of covered squares. -/
theorem exists_squares {rs : List Rect} (h : ∀ c, coverCount rs c ≤ 1) :
    ∃ squares : Finset Point, (∀ c, c ∈ squares ↔ ∃ r ∈ rs, r.Covers c) ∧
      (rs.map area).foldr (· + ·) 0 = (squares.card : Int) := by
  induction rs with
  | nil => exact ⟨∅, by simp⟩
  | cons r rs ih =>
      have hrest (c : Point) : coverCount rs c + (if r.Covers c then 1 else 0) ≤ 1 :=
        coverCount_cons r rs c ▸ h c
      obtain ⟨squares, hmem, hcard⟩ := ih fun c => by have := hrest c; omega
      have hdisj : Disjoint r.squares squares := by
        refine Finset.disjoint_left.2 fun c hr hs => ?_
        have hr := mem_squares.1 hr
        have hpos := coverCount_pos_iff.2 ((hmem c).1 hs)
        have := hrest c
        simp only [hr, if_true] at this
        omega
      refine ⟨r.squares ∪ squares, fun c => by simp [mem_squares, hmem], ?_⟩
      rw [Finset.card_union_of_disjoint hdisj, Nat.cast_add, card_squares, ← hcard]
      rfl

end Rect

namespace RectSet

open Rect

section Library

variable [PolygonLibrary]

/-- `Built s shapes` says that a union `s` arises from the empty one by insertions, merges and moves, and that
`shapes` are the inserted shapes, each one moved as the union was moved after the insertion. -/
inductive Built : RectSet → List Shape → Prop
  | empty : Built .empty []
  | insert {s shapes} (h : Built s shapes) (r : Rect) : Built (s.insert r) (shapes ++ [.rect r])
  | insertLoop {s shapes} {l : Loop} (h : Built s shapes)
      (hl : LoopKind.rectilinear.check l = .ok l) :
      Built (s.insertLoop l) (shapes ++ [.poly90 l])
  | merge {s shapes s' shapes' u} (h : Built s shapes) (h' : Built s' shapes')
      (hu : (Coverage.poly90 s).merge (.poly90 s') = .ok (.poly90 u)) : Built u (shapes ++ shapes')
  | transform {s shapes} (h : Built s shapes) (t : Transform) :
      Built (s.transform t) (shapes.map (·.transform t))

variable {s : RectSet} {shapes : List Shape}

theorem merge_poly90 (s s' : RectSet) :
    (Coverage.poly90 s).merge (.poly90 s') = .ok (.poly90 (s.insertAll s'.rects)) := rfl

theorem Built.rectilinear (h : Built s shapes) : ∀ shape ∈ shapes, shape.Rectilinear := by
  induction h with
  | empty => simp
  | insert h r ih => exact List.forall_mem_append.2 ⟨ih, List.forall_mem_singleton.2 trivial⟩
  | insertLoop h hl ih =>
      exact List.forall_mem_append.2 ⟨ih, List.forall_mem_singleton.2 (Shape.rectilinear_poly90 hl)⟩
  | merge h h' hu ih ih' => exact List.forall_mem_append.2 ⟨ih, ih'⟩
  | transform h t ih =>
      intro _ hmap
      obtain ⟨shape, hs, rfl⟩ := List.mem_map.1 hmap
      exact (ih shape hs).transform t

theorem Built.exact (h : Built s shapes) : s.Exact := by
  induction h with
  | empty => exact exact_empty
  | insert h r ih => exact ih.insert r
  | insertLoop h hl ih => exact ih.insertAll _
  | merge h h' hu ih ih' =>
      rw [merge_poly90, Except.ok.injEq, Coverage.poly90.injEq] at hu
      exact hu ▸ ih.insertAll _
  | transform h t ih => exact ih.transform t

/-- A built union covers what the inserted shapes cover. -/
theorem Built.covers_iff (h : Built s shapes) (c : Point) :
    s.Covers c ↔ ∃ shape ∈ shapes, shape.Covers c := by
  induction h generalizing c with
  | empty => simp
  | insert h r ih =>
      rw [covers_insert, ih]
      simp [Shape.Covers, or_and_right, exists_or]
  | insertLoop h hl ih =>
      rw [covers_insertLoop (Loop.rectilinear_of_check hl), ih]
      simp [Shape.covers_poly90, or_and_right, exists_or]
  | merge h h' hu ih ih' =>
      rw [merge_poly90, Except.ok.injEq, Coverage.poly90.injEq] at hu
      subst hu
      rw [covers_insertAll, ih]
      change _ ∨ RectSet.Covers _ c ↔ _
      rw [ih']
      simp [or_and_right, exists_or]
  | transform h t ih =>
      obtain ⟨c, rfl⟩ : ∃ d, t.square d = c := ⟨_, t.square_invert c⟩
      rw [covers_transform, ih]
      constructor
      · rintro ⟨shape, hs, hc⟩
        exact ⟨shape.transform t, List.mem_map.2 ⟨shape, hs, rfl⟩,
          ((h.rectilinear shape hs).covers_transform t c).2 hc⟩
      · rintro ⟨_, hmap, hc⟩
        obtain ⟨shape, hs, rfl⟩ := List.mem_map.1 hmap
        exact ⟨shape, hs, ((h.rectilinear shape hs).covers_transform t c).1 hc⟩

theorem Built.exists_squares (h : Built s shapes) :
    ∃ squares : Finset Point, (∀ c, c ∈ squares ↔ ∃ shape ∈ shapes, shape.Covers c) ∧
      s.area = squares.card := by
  obtain ⟨squares, hmem, hcard⟩ := Rect.exists_squares h.exact.once
  exact ⟨squares, fun c => (hmem c).trans (h.covers_iff c), hcard⟩

/-- The stored rectangles of a union are an exact cover of the squares of the inserted shapes, and the area is the
number of these squares, in whatever order the shapes were inserted. -/
theorem built_union_exact (h : Built s shapes) :
    (∀ r ∈ s.rects, 0 < r.width ∧ 0 < r.height) ∧
    (s.rects.Pairwise fun a b => ∀ c, ¬(a.Covers c ∧ b.Covers c)) ∧
    (∀ c, (∃ shape ∈ shapes, shape.Covers c) → coverCount s.rects c = 1) ∧
    (∀ c, (¬∃ shape ∈ shapes, shape.Covers c) → coverCount s.rects c = 0) ∧
    (∃ squares : Finset Point, (∀ c, c ∈ squares ↔ ∃ shape ∈ shapes, shape.Covers c) ∧
      s.area = squares.card) ∧
    ∀ s' shapes', Built s' shapes' → shapes'.Perm shapes → s'.area = s.area := by
  obtain ⟨squares, hmem, hcard⟩ := h.exists_squares
  have hcovers (c : Point) : 0 < coverCount s.rects c ↔ ∃ shape ∈ shapes, shape.Covers c :=
    coverCount_pos_iff.trans (h.covers_iff c)
  refine ⟨h.exact.sizes, ?_, fun c hc => ?_, fun c hc => ?_, ⟨squares, hmem, hcard⟩, ?_⟩
  · exact pairwise_of_once h.exact.once
  · have := h.exact.once c
    have := (hcovers c).2 hc
    omega
  · have := mt (hcovers c).1 hc
    omega
  · intro s' shapes' h' hperm
    obtain ⟨squares', hmem', hcard'⟩ := h'.exists_squares
    have hsame : squares' = squares := by
      ext c
      rw [hmem', hmem]
      simp only [hperm.mem_iff]
    rw [hcard, hcard', hsame]

end Library

open scoped ExactPolygons

/-- A square in the overlap of a rectangle and a loop is covered once after both were turned. -/
theorem built_union_exact_turned :
    Built (((empty.insert (ofCoords 0 0 4 4)).insertLoop
        [⟨2, 2⟩, ⟨6, 2⟩, ⟨6, 6⟩, ⟨4, 6⟩, ⟨4, 4⟩, ⟨2, 4⟩]).transform ⟨⟨1, 0⟩, .r90⟩)
      [(Shape.rect (ofCoords 0 0 4 4)).transform ⟨⟨1, 0⟩, .r90⟩,
        (Shape.poly90 [⟨2, 2⟩, ⟨6, 2⟩, ⟨6, 6⟩, ⟨4, 6⟩, ⟨4, 4⟩, ⟨2, 4⟩]).transform ⟨⟨1, 0⟩, .r90⟩] ∧
    coverCount (((empty.insert (ofCoords 0 0 4 4)).insertLoop
        [⟨2, 2⟩, ⟨6, 2⟩, ⟨6, 6⟩, ⟨4, 6⟩, ⟨4, 4⟩, ⟨2, 4⟩]).transform ⟨⟨1, 0⟩, .r90⟩).rects ⟨-2, 3⟩ = 1 := by
  have h := ((Built.empty.insert (ofCoords 0 0 4 4)).insertLoop
    (l := [⟨2, 2⟩, ⟨6, 2⟩, ⟨6, 6⟩, ⟨4, 6⟩, ⟨4, 4⟩, ⟨2, 4⟩]) rfl).transform ⟨⟨1, 0⟩, .r90⟩
  refine ⟨h, (built_union_exact h).2.2.1 _ ⟨_, List.mem_cons_self, ?_⟩⟩
  change (Rect.transform (ofCoords 0 0 4 4) ⟨⟨1, 0⟩, .r90⟩).Covers ⟨-2, 3⟩
  decide

end RectSet

end MaskLayout
