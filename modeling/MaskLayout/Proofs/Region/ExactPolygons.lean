import MaskLayout.Proofs.Region.PolygonLaws
import MaskLayout.Proofs.Region.Touching

/-!
# Exact polygons are lawful

The library that keeps rings as they are and does all arithmetic exactly meets the laws of a library of polygons.
-/

namespace MaskLayout.ExactPolygons

open Plane

variable {ps : ExactPolygons} {qs : List FloatPoint} {l : Loop} {q : FloatPoint} {p : Point}

/-- What polygons fill. -/
def fill : ExactPolygons → Set (ℝ × ℝ)
  | ring l => l.filled
  | united ls => closure (Outline.inside ls)

theorem fill_eq_biUnion (ps : ExactPolygons) : ps.fill = ⋃ l ∈ ps.loops, l.filled := by
  cases ps with
  | ring l => simp [fill, loops]
  | united ls => exact Outline.closure_inside ls

theorem nearest_of_is (h : q.Is p) : nearest q = p := Point.ext h.1.nearest_eq h.2.nearest_eq

theorem map_nearest_of_traces (h : List.Forall₂ FloatPoint.Is qs l) : qs.map nearest = l := by
  induction h with
  | nil => rfl
  | cons hp _ ih => rw [List.map_cons, nearest_of_is hp, ih]

theorem nearestBox_of_is {r : FloatRect} {lo hi : Point} (hlo : r.lo.Is lo) (hhi : r.hi.Is hi) :
    nearestBox r = .ofCorners lo hi := by
  rw [nearestBox, nearest_of_is hlo, nearest_of_is hhi]

open scoped ExactPolygons

/-- The rings of rectilinear polygons are rectilinear. -/
theorem rectilinear_loops (h : PolygonLibrary.Rectilinear ps) : ∀ l ∈ ps.loops, l.Rectilinear := by
  induction h with
  | none => exact List.forall_mem_nil _
  | ofRing htraces hl =>
      rw [← map_nearest_of_traces htraces] at hl
      exact List.forall_mem_singleton.2 hl
  | ofRect hlo hhi => exact List.forall_mem_singleton.2 (Box.rectilinear_corners _)
  | union ha hb iha ihb => exact List.forall_mem_append.2 ⟨iha, ihb⟩

theorem ofRat_natCast (n : Nat) : Binary64.ofRat n = .ofInt n := by
  rw [Binary64.ofRat, Binary64.ofInt, Rat.num_natCast, Rat.den_natCast]

/-- United rectilinear rings are measured by the unit squares that they fill. -/
theorem area_united {ls : List Loop} {filled : Finset Point} (hls : ∀ l ∈ ls, l.Rectilinear)
    (hfill : closure (Outline.inside ls) = squares filled) : outlineArea (outline ls) = filled.card := by
  obtain ⟨covered, hmem, harea⟩ := Outline.exists_squares hls
  have hcovered : closure (Outline.inside ls) = squares covered := by
    rw [Outline.closure_inside, squares, Finset.set_biUnion_coe]
    ext z
    simp only [Set.mem_iUnion, exists_prop, hmem]
    constructor
    · rintro ⟨l, hl, hz⟩
      rw [(hls l hl).filled_eq_squares, squares, Set.mem_iUnion₂] at hz
      obtain ⟨c, hc, hz⟩ := hz
      exact ⟨c, ⟨l, hl, hc⟩, hz⟩
    · rintro ⟨c, ⟨l, hl, hc⟩, hz⟩
      refine ⟨l, hl, ?_⟩
      rw [(hls l hl).filled_eq_squares]
      exact Set.mem_biUnion hc hz
  rw [harea, Finset.coe_injective (squares_injective (hcovered.symm.trans hfill))]

/-- Exact polygons are a lawful library. -/
theorem lawful : PolygonLibrary.Lawful fill where
  fill_none := (fill_eq_biUnion (united [])).trans (by simp [loops])
  fill_ofRing htraces _ := congrArg Loop.filled (map_nearest_of_traces htraces)
  fill_ofRect hlo hhi := congrArg (fun b : Box => Loop.filled b.corners) (nearestBox_of_is hlo hhi)
  fill_union a b := by
    refine (fill_eq_biUnion (united (a.loops ++ b.loops))).trans ?_
    rw [fill_eq_biUnion a, fill_eq_biUnion b]
    ext z
    simp only [loops, List.mem_append, Set.mem_iUnion, Set.mem_union, exists_prop, or_and_right, exists_or]
  area_none := rfl
  area_union ha hb hfill := by
    have hls := List.forall_mem_append.2 ⟨rectilinear_loops ha, rectilinear_loops hb⟩
    exact (congrArg Binary64.ofRat (area_united hls hfill)).trans (ofRat_natCast _)
  intersects_ofRing htraces _ hlo hhi := by
    rw [← nearestBox_of_is hlo hhi, ← map_nearest_of_traces htraces]
    exact Loop.touches_iff (Box.isEmpty_ofCorners _ _) _
  intersects_union hlo hhi := by
    rw [← nearestBox_of_is hlo hhi]
    exact Outline.touches_iff (Box.isEmpty_ofCorners _ _) _

end MaskLayout.ExactPolygons
