import Mathlib.Data.Nat.Bitwise
import Mathlib.Order.Bounds.Basic

namespace Rsgc

variable {n a k w : Nat}

-- The greatest multiple that is not above a number.
theorem isGreatest_multiple (n : Nat) (ha : 0 < a) :
    IsGreatest {m | a ∣ m ∧ m ≤ n} (n / a * a) := by
  refine ⟨⟨Nat.dvd_mul_left a _, Nat.div_mul_le_self n a⟩, ?_⟩
  rintro m ⟨⟨q, rfl⟩, hle⟩
  have hq : q ≤ n / a := (Nat.le_div_iff_mul_le ha).mpr (by rwa [Nat.mul_comm])
  calc a * q = q * a := Nat.mul_comm a q
    _ ≤ n / a * a := Nat.mul_le_mul_right a hq

-- The least one that is not below it.
theorem isLeast_multiple (n : Nat) (ha : 0 < a) :
    IsLeast {m | a ∣ m ∧ n ≤ m} ((n + a - 1) / a * a) := by
  refine ⟨⟨Nat.dvd_mul_left a _, ?_⟩, ?_⟩
  · have hdiv := Nat.div_add_mod (n + a - 1) a
    have hmod := Nat.mod_lt (n + a - 1) ha
    rw [Nat.mul_comm]
    omega
  · rintro m ⟨⟨q, rfl⟩, hle⟩
    have hq : (n + a - 1) / a < q + 1 := by
      rw [Nat.div_lt_iff_lt_mul ha, Nat.succ_mul, Nat.mul_comm q a]
      omega
    calc (n + a - 1) / a * a ≤ q * a := Nat.mul_le_mul_right a (Nat.le_of_lt_succ hq)
      _ = a * q := Nat.mul_comm q a

-- To clear the lowest bits of a word rounds it down.
theorem and_high_bits (hn : n < 2 ^ w) (hk : k ≤ w) :
    n &&& (2 ^ w - 2 ^ k) = n / 2 ^ k * 2 ^ k := by
  have hpos := Nat.two_pow_pos k
  have hle := Nat.pow_le_pow_right (show 0 < 2 by decide) hk
  have hmask : 2 ^ w - 2 ^ k = 2 ^ w - (2 ^ k - 1 + 1) := by omega
  apply Nat.eq_of_testBit_eq
  intro i
  rw [hmask, Nat.testBit_and, Nat.testBit_two_pow_sub_succ (by omega),
    Nat.testBit_two_pow_sub_one, Nat.testBit_mul_two_pow, Nat.testBit_div_two_pow]
  by_cases hi : i < w
  · by_cases hik : i < k
    · simp [hik]
    · simp [hi, hik, Nat.le_of_not_lt hik, Nat.sub_add_cancel (Nat.le_of_not_lt hik)]
  · have hlarge : n.testBit i = false := by
      refine Nat.testBit_lt_two_pow (Nat.lt_of_lt_of_le hn ?_)
      exact Nat.pow_le_pow_right (by decide) (Nat.le_of_not_lt hi)
    have hki : k ≤ i := by omega
    simp [hlarge, Nat.sub_add_cancel hki]

end Rsgc
