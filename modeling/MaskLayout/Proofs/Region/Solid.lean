import MaskLayout.Proofs.Region.Filling
import MaskLayout.Proofs.Shape

/-!
# What loops wind around

The points of the plane that a loop runs along or winds around. They lie in the box of the loop, and all that the loop
fills by the even-odd rule is among them.
-/

namespace MaskLayout

open Plane Filter Topology

namespace Box

variable {b c : Box}

theorem lo_mem_region (hb : b.isEmpty = false) : b.lo.real ∈ b.region := corner_mem_region hb List.mem_cons_self

theorem region_subset (h : b ≤ c) : b.region ⊆ c.region :=
  Set.Icc_subset_Icc ⟨Int.cast_le.2 h.1, Int.cast_le.2 h.2.1⟩ ⟨Int.cast_le.2 h.2.2.1, Int.cast_le.2 h.2.2.2⟩

end Box

namespace Loop

variable {l : Loop} {z : ℝ × ℝ}

/-- The points of the plane on the edges of a loop and those that it winds around. -/
def solid (l : Loop) : Set (ℝ × ℝ) := {z | z ∈ l.trace ∨ l.windingAt (1, 0) z ≠ 0}

theorem real_mem_box {p : Point} (hp : p ∈ l) : p.real ∈ l.box.region :=
  Box.region_subset ((box_le_iff.1 (le_refl l.box)).2 p hp) ⟨le_refl _, le_refl _⟩

/-- What a loop covers by the even-odd rule it runs along or winds around. -/
theorem region_subset_solid (l : Loop) : l.region ⊆ l.solid := by
  intro z hz
  by_cases htrace : z ∈ l.trace
  · exact .inl htrace
  · right
    rw [mem_region_iff (d := (1, 0)) htrace (by simp)] at hz
    intro hzero
    simp [hzero] at hz

/-- A loop stays within its box. -/
theorem solid_subset_box (l : Loop) : l.solid ⊆ l.box.region := by
  have htrace : l.trace ⊆ l.box.region := by
    intro z hz
    obtain ⟨e, he, hmem⟩ := mem_trace_iff.1 hz
    obtain ⟨h1, h2⟩ := mem_of_mem_edges he
    exact l.box.convex_region.segment_subset (real_mem_box h1) (real_mem_box h2) hmem
  rintro z (hz | hwinds)
  · exact htrace hz
  · by_contra hout
    obtain ⟨n, hn, hleft⟩ := Box.exists_left_of_notMem hout
    exact hwinds (windingAt_eq_zero hn (by simp) (fun hz => hout (htrace hz)) fun p hp => hleft _ (real_mem_box hp))

theorem isClosed_solid (l : Loop) : IsClosed l.solid := by
  rw [← isOpen_compl_iff, isOpen_iff_mem_nhds]
  intro z hz
  obtain ⟨htrace, hwinds⟩ := not_or.1 hz
  filter_upwards [eventually_windingAt_eq htrace (d := (1, 0)) (by simp)] with w hw
  exact not_or.2 ⟨hw.1, fun hne => hwinds (hw.2 ▸ hne)⟩

/-- What a loop fills it runs along or winds around. -/
theorem filled_subset_solid (l : Loop) : l.filled ⊆ l.solid :=
  closure_minimal (Set.sdiff_subset.trans l.region_subset_solid) l.isClosed_solid

end Loop

end MaskLayout
