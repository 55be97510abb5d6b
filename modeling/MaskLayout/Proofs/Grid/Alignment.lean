import MaskLayout.Proofs.Grid.Acceptance
import Mathlib.Algebra.GCDMonoid.Nat

/-!
# Alignments as periods

Alignments as periods. The shifts that keep the half-tracks of a level on half-tracks are the multiples of its half
pitch, and those that keep them on half-tracks of the same parity are the multiples of its pitch. The multiples of an
alignment are the common multiples of all levels of a direction that it respects.
-/

namespace MaskLayout

namespace TrackLevel

/-- Whether a shift takes every half-track of a level to a half-track. -/
def KeepsHalfTracks (t : TrackLevel) (shift : Int) : Prop :=
  ∀ coord h, t.halfTrackAt coord = .ok h → ∃ h', t.halfTrackAt (coord + shift) = .ok h'

/-- Whether a shift takes every half-track of a level to a half-track of the same parity. -/
def KeepsTracks (t : TrackLevel) (shift : Int) : Prop :=
  ∀ coord h, t.halfTrackAt coord = .ok h → ∃ h', t.halfTrackAt (coord + shift) = .ok h' ∧ h' % 2 = h % 2

variable {tech : Tech} {t : TrackLevel} {shift : Int}

/-- A half-track is shifted by as many half-tracks as the shift is half-pitches long. -/
theorem Usable.halfTrackAt_add_iff (h : t.Usable tech) {coord k k' : Int} (hk : t.halfTrackAt coord = .ok k) :
    t.halfTrackAt (coord + shift) = .ok k' ↔ shift = t.pitch / 2 * (k' - k) := by
  rw [h.halfTrackAt_iff] at hk ⊢
  subst hk
  rw [center, center, Int.mul_sub, Int.mul_comm _ k', Int.mul_comm _ k]
  omega

theorem Usable.keepsHalfTracks_iff (h : t.Usable tech) : t.KeepsHalfTracks shift ↔ t.pitch / 2 ∣ shift := by
  constructor
  · intro hkeeps
    have hzero := h.halfTrackAt_iff.2 (rfl : t.center 0 = t.center 0)
    obtain ⟨k, hk⟩ := hkeeps _ _ hzero
    exact ⟨_, (h.halfTrackAt_add_iff hzero).1 hk⟩
  · rintro ⟨n, hn⟩ coord k hk
    refine ⟨k + n, (h.halfTrackAt_add_iff hk).2 ?_⟩
    rw [hn]
    congr 1
    omega

theorem Usable.keepsTracks_iff (h : t.Usable tech) : t.KeepsTracks shift ↔ t.pitch ∣ shift := by
  have hpitch (n : Int) : t.pitch * n = t.pitch / 2 * (2 * n) := by
    conv_lhs => rw [h.even, Int.mul_comm 2, Int.mul_assoc]
  constructor
  · intro hkeeps
    have hzero := h.halfTrackAt_iff.2 (rfl : t.center 0 = t.center 0)
    obtain ⟨k, hk, hparity⟩ := hkeeps _ _ hzero
    refine ⟨k / 2, ?_⟩
    rw [(h.halfTrackAt_add_iff hzero).1 hk, hpitch]
    congr 1
    omega
  · rintro ⟨n, hn⟩ coord k hk
    refine ⟨k + 2 * n, (h.halfTrackAt_add_iff hk).2 ?_, by omega⟩
    rw [hn, hpitch]
    congr 1
    omega

end TrackLevel

namespace Alignment

/-- The alignment to all levels of a list. -/
def upTo (levels : List TrackLevel) : Alignment := levels.foldl refine none

theorem of_refine (a : Alignment) (t : TrackLevel) (d : Dir) :
    (a.refine t).of d =
      if t.dir = d then ⟨Int.lcm (a.of d).full t.pitch, Int.lcm (a.of d).half (t.pitch / 2)⟩ else a.of d := by
  cases d <;> cases hdir : t.dir <;> simp [refine, of, hdir]

theorem foldl_refine_dvd_iff (a : Alignment) (levels : List TrackLevel) (d : Dir) (n : Int) :
    (((levels.foldl refine a).of d).half ∣ n ↔
      (a.of d).half ∣ n ∧ ∀ t ∈ levels, t.dir = d → t.pitch / 2 ∣ n) ∧
    (((levels.foldl refine a).of d).full ∣ n ↔ (a.of d).full ∣ n ∧ ∀ t ∈ levels, t.dir = d → t.pitch ∣ n) := by
  induction levels generalizing a with
  | nil => simp
  | cons t rest ih =>
      obtain ⟨hhalf, hfull⟩ := ih (a.refine t)
      simp only [List.foldl_cons, List.forall_mem_cons, hhalf, hfull, of_refine]
      split
      · rename_i hdir
        simp only [hdir, forall_const, Int.coe_lcm_dvd_iff, and_assoc, and_self]
      · rename_i hdir
        simp only [hdir, false_implies, true_and, and_self]

variable {levels : List TrackLevel} {d : Dir} {n : Int}

/-- The multiples of the alignment are the common multiples of the levels of a direction. -/
theorem half_upTo_dvd_iff : ((upTo levels).of d).half ∣ n ↔ ∀ t ∈ levels, t.dir = d → t.pitch / 2 ∣ n := by
  have hone : (none.of d).half = 1 := by cases d <;> rfl
  rw [upTo, (foldl_refine_dvd_iff none levels d n).1, hone]
  exact and_iff_right (Int.one_dvd n)

theorem full_upTo_dvd_iff : ((upTo levels).of d).full ∣ n ↔ ∀ t ∈ levels, t.dir = d → t.pitch ∣ n := by
  have hone : (none.of d).full = 1 := by cases d <;> rfl
  rw [upTo, (foldl_refine_dvd_iff none levels d n).2, hone]
  exact and_iff_right (Int.one_dvd n)

theorem upTo_pos (hpos : ∀ t ∈ levels, 0 < t.pitch / 2) :
    0 < ((upTo levels).of d).half ∧ 0 < ((upTo levels).of d).full := by
  have hfold (a : Alignment) (ha : 0 < (a.of d).half ∧ 0 < (a.of d).full) :
      0 < ((levels.foldl refine a).of d).half ∧ 0 < ((levels.foldl refine a).of d).full := by
    induction levels generalizing a with
    | nil => exact ha
    | cons t rest ih =>
        obtain ⟨ht, hrest⟩ := List.forall_mem_cons.1 hpos
        refine ih hrest (a.refine t) ?_
        rw [of_refine]
        split
        · have hhalf := Int.lcm_pos ha.1.ne' ht.ne'
          have hfull := Int.lcm_pos ha.2.ne' (show t.pitch ≠ 0 by omega)
          simp only
          omega
        · exact ha
  refine hfold none ?_
  cases d <;> decide

/-- Over levels with an even pitch, the full alignment is twice the half alignment. -/
theorem full_upTo_eq {t : TrackLevel} (heven : ∀ t ∈ levels, t.pitch = 2 * (t.pitch / 2))
    (hpos : ∀ t ∈ levels, 0 < t.pitch / 2) (ht : t ∈ levels) :
    ((upTo levels).of t.dir).full = 2 * ((upTo levels).of t.dir).half := by
  obtain ⟨hhalf, hfull⟩ := upTo_pos (d := t.dir) hpos
  refine Int.dvd_antisymm hfull.le (by omega) (full_upTo_dvd_iff.2 fun u hu hdir => ?_) ?_
  · rw [heven u hu]
    exact Int.mul_dvd_mul_left 2 (half_upTo_dvd_iff.1 (Int.dvd_refl _) u hu hdir)
  · -- The full alignment is even, and a half of it is a common multiple of the half pitches.
    have hmultiple := full_upTo_dvd_iff.1 (Int.dvd_refl ((upTo levels).of t.dir).full)
    have htwo : 2 ∣ ((upTo levels).of t.dir).full := by
      refine Int.dvd_trans ?_ (hmultiple t ht rfl)
      rw [heven t ht]
      exact Int.dvd_mul_right 2 _
    obtain ⟨m, hm⟩ := htwo
    rw [hm] at hmultiple ⊢
    refine Int.mul_dvd_mul_left 2 (half_upTo_dvd_iff.2 fun u hu hdir => ?_)
    have hu' := hmultiple u hu hdir
    rw [heven u hu] at hu'
    exact (Int.mul_dvd_mul_iff_left two_ne_zero).1 hu'

end Alignment

end MaskLayout
