import MaskLayout.Proofs.Region.Decomposition
import MaskLayout.Proofs.Region.PolygonLaws

/-!
# Rectilinear data that is held exactly

Rectangles and rectilinear loops whose coordinates floating-point numbers hold exactly. Cutting loops into rectangles and
rectangles into pieces makes no new coordinates, so a union of rectangles is held as far as its parts are, and a lawful
library takes rectangles and loops for just the unit squares that they cover.
-/

namespace MaskLayout

open Plane

namespace Rect

/-- Whether floating-point numbers hold the coordinates of a rectangle exactly. -/
def Held (r : Rect) : Prop := r.lo.Held ∧ r.hi.Held

instance : DecidablePred Held := fun r => inferInstanceAs (Decidable (r.lo.Held ∧ r.hi.Held))

variable {a b r : Rect}

theorem held_ofCoords {x0 y0 x1 y1 : Int} (hx0 : Binary64.Held x0) (hy0 : Binary64.Held y0) (hx1 : Binary64.Held x1)
    (hy1 : Binary64.Held y1) : (ofCoords x0 y0 x1 y1).Held :=
  ⟨⟨hx0.min hx1, hy0.min hy1⟩, hx0.max hx1, hy0.max hy1⟩

/-- Pieces of a rectangle have no other coordinates than it and what is taken away. -/
theorem Held.subtract (ha : a.Held) (hb : b.Held) : ∀ r ∈ a.subtract b, r.Held := by
  obtain ⟨⟨hax0, hay0⟩, hax1, hay1⟩ := ha
  obtain ⟨⟨hbx0, hby0⟩, hbx1, hby1⟩ := hb
  rw [Rect.subtract]
  split
  · exact List.forall_mem_singleton.2 ⟨⟨hax0, hay0⟩, hax1, hay1⟩
  · refine fun r hr => ?_
    have hpieces := List.mem_of_mem_filter hr
    simp only [List.mem_cons, List.not_mem_nil, or_false] at hpieces
    rcases hpieces with rfl | rfl | rfl | rfl
    · exact held_ofCoords hax0 hay0 hax1 (hay0.max hby0)
    · exact held_ofCoords hax0 (hay1.min hby1) hax1 hay1
    · exact held_ofCoords hax0 (hay0.max hby0) (hax0.max hbx0) (hay1.min hby1)
    · exact held_ofCoords (hax1.min hbx1) (hay0.max hby0) hax1 (hay1.min hby1)

end Rect

namespace Loop

variable {l : Loop}

theorem exists_of_mem_spanning {lo hi x : Int} (hx : x ∈ l.spanning lo hi) : ∃ p ∈ l, p.x = x := by
  rw [spanning, List.mem_mergeSort, List.mem_map] at hx
  obtain ⟨e, he, rfl⟩ := hx
  exact ⟨e.1, (mem_of_mem_edges (List.mem_of_mem_filter he)).1, rfl⟩

/-- Slabs have no other coordinates than the loop. -/
theorem held_slabs (hl : ∀ p ∈ l, p.Held) : ∀ r ∈ l.slabs, r.Held := by
  intro r hr
  obtain ⟨g, hg, p, hp, -, rfl⟩ := mem_slabs.1 hr
  have hx {x : Int} (hx : x ∈ l.spanning g.1 g.2) : Binary64.Held x := by
    obtain ⟨q, hq, rfl⟩ := exists_of_mem_spanning hx
    exact (hl q hq).1
  have hy {y : Int} (hy : y ∈ l.ordinates) : Binary64.Held y := by
    obtain ⟨q, hq, rfl⟩ := ((ordinates_spec l).2 y).1 hy
    exact (hl q hq).2
  obtain ⟨h1, h2⟩ := List.of_mem_zip hg
  obtain ⟨h3, h4⟩ := mem_of_mem_inPairs hp
  exact Rect.held_ofCoords (hx h3) (hy h1) (hx h4) (hy (List.mem_of_mem_drop h2))

end Loop

namespace RectSet

variable {s : RectSet} {r : Rect}

/-- Whether floating-point numbers hold the coordinates of a union exactly. -/
def Held (s : RectSet) : Prop := ∀ r ∈ s.rects, r.Held

theorem Held.uncovered (h : s.Held) (hr : r.Held) : ∀ piece ∈ s.uncovered r, piece.Held := by
  refine List.foldlRecOn s.rects _ (motive := fun pieces : List Rect => ∀ piece ∈ pieces, piece.Held)
    (List.forall_mem_singleton.2 hr) fun pieces hpieces held hheld piece hmem => ?_
  obtain ⟨whole, hwhole, hpiece⟩ := List.mem_flatMap.1 hmem
  exact (hpieces whole hwhole).subtract (h held hheld) piece hpiece

theorem Held.insert (h : s.Held) (hr : r.Held) : (s.insert r).Held :=
  List.forall_mem_append.2 ⟨h, fun piece hpiece => h.uncovered hr piece (List.mem_of_mem_filter hpiece)⟩

theorem Held.insertAll (h : s.Held) {rs : List Rect} (hrs : ∀ r ∈ rs, r.Held) : (s.insertAll rs).Held := by
  induction rs generalizing s with
  | nil => exact h
  | cons r rs ih =>
      obtain ⟨hr, hrs⟩ := List.forall_mem_cons.1 hrs
      exact ih (h.insert hr) hrs

end RectSet

namespace PolygonLibrary

variable [PolygonLibrary] {fill : Polygons → Set (ℝ × ℝ)} {ps : Polygons}

/-- Polygons that were united of rectilinear ones, or none. -/
def United (ps : Polygons) : Prop := ps = none ∨ ∃ a b, Rectilinear a ∧ Rectilinear b ∧ ps = union a b

theorem United.rectilinear (h : United ps) : Rectilinear ps := by
  rcases h with rfl | ⟨a, b, ha, hb, rfl⟩
  · exact .none
  · exact .union ha hb

theorem rectilinear_toPolygons_of_held {r : Rect} (h : r.Held) : Rectilinear r.toPolygons :=
  .ofRect h.1.toFloat_is h.2.toFloat_is

/-- A lawful library takes a rectangle for the unit squares that it covers. -/
theorem Lawful.fill_rect (laws : Lawful fill) {r : Rect} (h : r.Held) : fill r.toPolygons = squares {c | r.Covers c} := by
  have hbox : Box.ofCorners r.lo r.hi = r.toBox := by
    have hx := r.x_le
    have hy := r.y_le
    simp [Box.ofCorners, Rect.toBox, hx, hy]
  rw [Rect.toPolygons, laws.fill_ofRect h.1.toFloat_is h.2.toFloat_is]
  exact (congrArg (fun b : Box => Loop.filled b.corners) hbox).trans r.filled_loop

/-- A lawful library takes rectangles for the unit squares that they cover. -/
theorem Lawful.uniteAll (laws : Lawful fill) {rs : List Rect} (h : ∀ r ∈ rs, r.Held) :
    United (Rect.uniteAll rs) ∧ fill (Rect.uniteAll rs) = squares {c | ∃ r ∈ rs, r.Covers c} := by
  induction rs using List.reverseRecOn with
  | nil => exact ⟨.inl rfl, by simp [Rect.uniteAll, laws.fill_none, squares]⟩
  | append_singleton rs r ih =>
      obtain ⟨hrs, hr⟩ := List.forall_mem_append.1 h
      obtain ⟨hunited, hfill⟩ := ih hrs
      have hr : r.Held := hr r List.mem_cons_self
      rw [Rect.uniteAll, List.foldl_append]
      refine ⟨.inr ⟨_, _, hunited.rectilinear, rectilinear_toPolygons_of_held hr, rfl⟩, ?_⟩
      refine (laws.fill_union _ _).trans ?_
      rw [laws.fill_rect hr]
      refine (congrArg (· ∪ _) hfill).trans ?_
      rw [← squares_union]
      simp [Set.ofPred_or, or_and_right, exists_or]

/-- A lawful library takes a rectilinear loop for the unit squares that it covers. -/
theorem Lawful.fill_loop (laws : Lawful fill) {l : Loop} (hl : LoopKind.rectilinear.check l = .ok l)
    (h : ∀ p ∈ l, p.Held) : fill l.toPolygons = squares {c | l.Covers c} := by
  have hlength : 4 ≤ l.length := (LoopKind.check_self_iff.1 hl).1
  rw [Loop.toPolygons, laws.fill_ofRing (Loop.traces_of_held h) (by omega)]
  exact (Loop.rectilinear_of_check hl).filled_eq_squares

end PolygonLibrary

end MaskLayout
