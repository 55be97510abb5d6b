import MaskLayout.Number.Binary64
import Mathlib.Algebra.Order.Field.Rat
import Mathlib.Data.Rat.Cast.Order
import Mathlib.Tactic.Ring

/-!
# Whole numbers as floating-point numbers

The floating-point number nearest to a whole number is whole again, and it is the same number up to 53 bits.
-/

namespace MaskLayout.Binary64

/-- Whether a number is finite and has a value. -/
def Holds : Binary64 → Rat → Prop
  | finite s m e, r => (finite s m e).value = r
  | _, _ => False

instance (x : Binary64) (r : Rat) : Decidable (x.Holds r) := by
  unfold Holds
  split <;> infer_instance

theorem Holds.value_eq {x : Binary64} {r : Rat} (h : x.Holds r) : x.value = r := by
  cases x with
  | nan s => exact h.elim
  | infinite s => exact h.elim
  | finite s m e => exact h

/-- The sign of a number. -/
def signOf (negative : Bool) : Rat := if negative then -1 else 1

theorem holds_finite (s : Bool) (m : Nat) (e : Int) : (finite s m e).Holds (signOf s * (m * (2 : Rat) ^ e)) := by
  have hsize : (if e ≥ 0 then ((m * Nat.pow 2 e.toNat : Nat) : Rat) else mkRat m (Nat.pow 2 (-e).toNat)) =
      m * (2 : Rat) ^ e := by
    split
    · rename_i he
      obtain ⟨n, rfl⟩ := Int.eq_ofNat_of_zero_le he
      simp
    · rename_i he
      obtain ⟨n, rfl⟩ : ∃ n : Nat, e = -n := ⟨(-e).toNat, by omega⟩
      rw [Rat.mkRat_eq_div]
      simp [div_eq_mul_inv]
  rw [Holds, value, hsize, signOf]
  cases s <;> simp

/-- A ratio over one is rounded to itself. -/
theorem roundRatio_one (n : Nat) : roundRatio n 1 = n := by
  simp [roundRatio, Nat.mod_one]

theorem inUnits_one_of_nonpos {e : Int} (he : e ≤ 0) (num : Nat) : inUnits num 1 e = (num * 2 ^ (-e).toNat, 1) := by
  rw [inUnits]
  split
  · have hzero : e = 0 := by omega
    subst hzero
    simp
  · rfl

/-- A whole number that is not too large has a unit in which it is counted. The unit is a fraction only if that leaves
nothing to round. -/
theorem exists_holds_ofRatio_one (s : Bool) {num : Nat} (hnum : num ≠ 0) (hlarge : num.log2 < 1022) :
    ∃ e : Int, (num.log2 < 53 → e ≤ 0) ∧
      (ofRatio s num 1).Holds (signOf s * (roundRatio (inUnits num 1 e).1 (inUnits num 1 e).2 * (2 : Rat) ^ e)) := by
  have hone : Nat.log2 1 = 0 := rfl
  simp only [ofRatio, if_neg hnum]
  generalize hguess : max ((num.log2 : Int) - Nat.log2 1 - 52) leastExponent = guess
  generalize hunit : (if guess > leastExponent ∧ (inUnits num 1 guess).1 / (inUnits num 1 guess).2 < leastFull then
    guess - 1 else guess) = e
  have hle : e ≤ guess := by
    rw [← hunit]
    split <;> omega
  simp only [leastExponent] at hguess
  refine ⟨e, fun hlt => by omega, ?_⟩
  generalize roundRatio (inUnits num 1 e).1 (inUnits num 1 e).2 = m
  -- A mantissa that is one too long is halved, which leaves the value as it is.
  have hvalue (m' : Nat) (e' : Int) (hsame : m' * (2 : Rat) ^ e' = m * (2 : Rat) ^ e) (hnear : e' ≤ e + 1) :
      (if e' > greatestExponent then infinite s else finite s m' e').Holds (signOf s * (m * (2 : Rat) ^ e)) := by
    rw [if_neg (by rw [greatestExponent]; omega), ← hsame]
    exact holds_finite s m' e'
  by_cases hlong : m = 2 * leastFull
  · simp only [if_pos hlong]
    refine hvalue leastFull (e + 1) ?_ le_rfl
    rw [hlong, zpow_add_one₀ two_ne_zero]
    push_cast
    ring
  · simp only [if_neg hlong]
    exact hvalue m e rfl (by omega)

/-- The value of a whole number as a floating-point number. -/
def rounded (i : Int) : Int := (ofInt i).nearest

theorem Holds.nearest_eq {x : Binary64} {k : Int} (h : x.Holds k) : x.nearest = k := by
  simp only [nearest, h.value_eq, Rat.num_intCast, Rat.den_intCast]
  split <;> omega

theorem signOf_mul_natAbs (i : Int) : signOf (decide (i < 0)) * (i.natAbs : Rat) = i := by
  rw [Nat.cast_natAbs, signOf]
  by_cases hi : i < 0
  · simp [hi, abs_of_neg]
  · simp [hi, abs_of_nonneg (not_lt.1 hi)]

theorem ofInt_zero_holds : (ofInt 0).Holds 0 := by
  have h := holds_finite false 0 leastExponent
  rwa [Nat.cast_zero, zero_mul, mul_zero] at h

/-- The floating-point number nearest to a whole number is whole, and up to 53 bits it is the number itself. -/
theorem exists_holds_ofInt {i : Int} (hlarge : i.natAbs.log2 < 1022) :
    ∃ k : Int, (ofInt i).Holds k ∧ (i.natAbs.log2 < 53 → k = i) := by
  rw [ofInt]
  by_cases hi : i.natAbs = 0
  · obtain rfl : i = 0 := Int.natAbs_eq_zero.1 hi
    exact ⟨0, ofInt_zero_holds, fun _ => rfl⟩
  · obtain ⟨e, hsmall, hvalue⟩ := exists_holds_ofRatio_one (decide (i < 0)) hi hlarge
    rcases le_or_gt e 0 with he | he
    · refine ⟨i, ?_, fun _ => rfl⟩
      obtain ⟨n, rfl⟩ : ∃ n : Nat, e = -n := ⟨(-e).toNat, by omega⟩
      rwa [inUnits_one_of_nonpos he, roundRatio_one, neg_neg, Int.toNat_natCast, Nat.cast_mul, Nat.cast_pow, mul_assoc,
        zpow_neg, zpow_natCast, Nat.cast_ofNat, mul_inv_cancel₀ (pow_ne_zero n two_ne_zero), mul_one,
        signOf_mul_natAbs] at hvalue
    · obtain ⟨n, rfl⟩ := Int.eq_ofNat_of_zero_le he.le
      generalize roundRatio _ _ = m at hvalue
      refine ⟨if i < 0 then -(m * 2 ^ n) else m * 2 ^ n, ?_, fun hlt => absurd (hsmall hlt) (by omega)⟩
      convert hvalue using 1
      rw [signOf]
      by_cases hneg : i < 0 <;> simp [hneg]

theorem log2_lt_of_le {i : Int} {n : Nat} (h : i.natAbs ≤ 2 ^ n) : i.natAbs.log2 < n + 1 := by
  by_cases hi : i.natAbs = 0
  · simp [hi]
  · exact (Nat.log2_lt hi).2 (h.trans_lt (Nat.pow_lt_pow_right (by omega) n.lt_succ_self))

/-- Integers of 64 bits are rounded to whole numbers. -/
theorem ofInt_holds_rounded {i : Int} (h : i.natAbs ≤ 2 ^ 63) : (ofInt i).Holds (rounded i) := by
  obtain ⟨k, hk, -⟩ := exists_holds_ofInt ((log2_lt_of_le h).trans (by decide))
  rwa [rounded, hk.nearest_eq]

/-- Whether a floating-point number holds an integer exactly. -/
def Held (i : Int) : Prop := (ofInt i).Holds i

instance : DecidablePred Held := fun i => inferInstanceAs (Decidable ((ofInt i).Holds i))

theorem Held.min {i j : Int} (hi : Held i) (hj : Held j) : Held (min i j) := by
  rcases min_choice i j with h | h
  · rwa [h]
  · rwa [h]

theorem Held.max {i j : Int} (hi : Held i) (hj : Held j) : Held (max i j) := by
  rcases max_choice i j with h | h
  · rwa [h]
  · rwa [h]

end MaskLayout.Binary64
