import Mathlib.Algebra.Group.Nat.Defs
import Mathlib.Algebra.Ring.Int.Defs
import Mathlib.Data.Int.Basic

/-! Counters of a fixed width, and the `%` of both languages, `Int.tmod`: the remainder takes
the sign of the dividend. -/
namespace ParSweet

/-- Counting on, a counter stays the remainder of what it has counted. -/
theorem ofNat_succ (w n : ℕ) : BitVec.ofNat w (n + 1) = BitVec.ofNat w n + 1 := BitVec.ofNat_add n 1

/-- An `int` that has counted to less than `2 ^ 31` is not negative. -/
theorem toInt_ofNat_of_lt {n : ℕ} (h : n < 2 ^ 31) : (BitVec.ofNat 32 n).toInt = n := by
  rw [BitVec.toInt_eq_toNat_of_lt] <;> simp <;> omega

/-- What a variable of type `int` holds that should hold `n`. -/
def int32 (n : ℤ) : ℤ := (BitVec.ofInt 32 n).toInt

theorem int32_of_range {n : ℤ} (h : -2 ^ 31 ≤ n) (h' : n < 2 ^ 31) : int32 n = n := by
  rw [int32, BitVec.toInt_ofInt]
  exact Int.bmod_eq_of_le (by omega) (by omega)

/-- The remainder is negative only for a negative number that the divisor does not divide. -/
theorem tmod_nonneg_iff (a n : ℤ) : 0 ≤ a.tmod n ↔ 0 ≤ a ∨ n ∣ a := by
  constructor
  · intro h
    by_contra hc
    obtain ⟨hneg, hdvd⟩ := not_or.mp hc
    have hsign := Int.sign_tmod a n
    rw [if_neg hdvd, Int.sign_eq_neg_one_of_neg (Int.not_le.mp hneg)] at hsign
    exact Int.not_le.mpr (Int.neg_of_sign_eq_neg_one hsign) h
  · rintro (h | h)
    · exact Int.tmod_nonneg _ h
    · exact Int.le_of_eq (Int.tmod_eq_zero_of_dvd h).symm

end ParSweet
