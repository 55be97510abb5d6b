import MaskLayout.Path
import MaskLayout.Proofs.Shape

/-!
# Loops of wires

The loops of wires. Whatever the center line, the widths and the styles are, a path or a bus that is made at all has
loops, and all of them have passed the check of 45-degree loops.
-/

namespace MaskLayout

namespace Path

/-- Whether all loops of a list have passed the check of 45-degree loops. -/
def Checked (ls : List Loop) : Prop := ∀ l ∈ ls, LoopKind.diagonal.check l = .ok l

variable {r : Rounding} {ls : List Loop} {halfWidth : Int} {styles : PathStyles}

theorem Checked.append {ls' : List Loop} (h : Checked ls) (h' : Checked ls') : Checked (ls ++ ls') :=
  List.forall_mem_append.2 ⟨h, h'⟩

theorem checked_segment {p q : Point} {first last : PathStyle} (h : segment r p q halfWidth first last = .ok ls) :
    Checked ls := by
  intro l hl
  obtain ⟨d, -, hchecks⟩ := Success.bind_iff.1 h
  obtain ⟨l', -, hl'⟩ := Success.exists_of_mem_mapM hchecks hl
  exact LoopKind.check_of_check hl'

theorem checked_segments {style : PathStyle} {line : List Point}
    (h : segments r halfWidth styles style line = .ok ls) : Checked ls := by
  induction line generalizing style ls with
  | nil =>
      cases h
      exact fun l hl => (List.not_mem_nil hl).elim
  | cons p rest ih =>
      cases rest with
      | nil =>
          cases h
          exact fun l hl => (List.not_mem_nil hl).elim
      | cons q rest =>
          simp only [segments, Success.bind_iff, Success.pure_iff] at h
          obtain ⟨here, hhere, more, hmore, rfl⟩ := h
          exact (checked_segment hhere).append (ih hmore)

theorem checked_loops {points : List Point} (h : loops r points halfWidth styles = .ok ls) : ls ≠ [] ∧ Checked ls := by
  simp only [loops] at h
  split at h
  · cases h
  · simp only [Success.bind_iff] at h
    obtain ⟨line, -, found, hfound, h⟩ := h
    split at h
    · cases h
    · rename_i hne
      cases h
      exact ⟨by simpa using hne, checked_segments hfound⟩

theorem checked_busWires {line : List Point} {total before : Int} {widths spaces : List Int}
    (h : busWires r line styles total before widths spaces = .ok ls) : Checked ls := by
  induction widths generalizing before spaces ls with
  | nil =>
      cases h
      exact fun l hl => (List.not_mem_nil hl).elim
  | cons width widths ih =>
      simp only [busWires, Success.bind_iff, Success.pure_iff] at h
      obtain ⟨wire, -, here, hhere, more, hmore, rfl⟩ := h
      exact (checked_loops hhere).2.append (ih hmore)

theorem checked_busLoops {points : List Point} {widths spaces : List Int}
    (h : busLoops r points widths spaces styles = .ok ls) : Checked ls := by
  simp only [busLoops] at h
  split at h
  · cases h
  · split at h
    · cases h
    · simp only [Success.bind_iff] at h
      obtain ⟨line, -, h⟩ := h
      exact checked_busWires h

end Path

namespace Shape

variable {s : Shape} {points : List Point} {styles : PathStyles}

theorem valid_of_ofPath {halfWidth : Int} (h : ofPath points halfWidth styles = .ok s) : s.Valid := by
  obtain ⟨ls, hls, hs⟩ := Success.bind_iff.1 h
  cases hs
  exact Path.checked_loops hls

theorem valid_of_ofBus {widths spaces : List Int} (h : ofBus points widths spaces styles = .ok s) : s.Valid := by
  obtain ⟨ls, hls, hs⟩ := Success.bind_iff.1 h
  simp only [ofSet] at hs
  split at hs
  · cases hs
  · rename_i hne
    cases hs
    exact ⟨by simpa using hne, Path.checked_busLoops hls⟩

end Shape

end MaskLayout
