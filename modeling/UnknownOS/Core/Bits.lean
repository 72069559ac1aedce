import Mathlib

/-!
# Masks of sixty-four-bit integers

Rounding to a power of two and taking a remainder are written with masks in
the source.  On natural numbers below `2 ^ 64` they are division and
remainder.
-/

namespace UnknownOS.Bits

/-- `n & ~(2 ^ k - 1)` clears the low `k` bits. -/
theorem and_high_mask {n k : ℕ} (hn : n < 2 ^ 64) (hk : k ≤ 64) :
    n &&& (2 ^ 64 - 2 ^ k) = n / 2 ^ k * 2 ^ k := by
  apply Nat.eq_of_testBit_eq
  intro i
  have hmask : 2 ^ 64 - 2 ^ k = (2 ^ (64 - k) - 1) <<< k := by
    rw [Nat.shiftLeft_eq, Nat.sub_mul, ← pow_add, one_mul]
    congr 2
    omega
  rw [Nat.testBit_and, hmask, ← Nat.shiftLeft_eq, Nat.testBit_shiftLeft,
    Nat.testBit_shiftLeft, Nat.testBit_two_pow_sub_one, Nat.testBit_div_two_pow]
  by_cases hi : k ≤ i
  · rw [Nat.sub_add_cancel hi]
    by_cases hbit : i < 64
    · have hin : i - k < 64 - k := by omega
      simp [hi, hin]
    · have hzero : n.testBit i = false :=
        Nat.testBit_lt_two_pow (lt_of_lt_of_le hn
          (Nat.pow_le_pow_right (by norm_num) (by omega)))
      simp [hzero]
  · simp [hi]

/-- `n & (2 ^ k - 1)` keeps the low `k` bits. -/
theorem and_low_mask (n k : ℕ) : n &&& (2 ^ k - 1) = n % 2 ^ k :=
  Nat.and_two_pow_sub_one_eq_mod n k

end UnknownOS.Bits
