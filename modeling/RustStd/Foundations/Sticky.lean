import Mathlib.Data.Nat.Bitwise
import Mathlib.Tactic.FieldSimp
import Mathlib.Tactic.Linarith
import Mathlib.Tactic.Ring

/-!
# Numbers known up to a sticky bit

Cutting digits off a number and keeping in the last digit left whether any of them was set is
enough to compare the number with the even ones. Two numbers agree on a grid when they compare in
the same way with every multiple of its width; this is kept by adding a number on the grid, and
cutting off more digits makes the grid no finer.
-/

namespace RustStd

open Nat

/-- The numbers compare in the same way with every multiple of `g`. -/
def GridAgrees (g S y : ℚ) : Prop := ∀ k : ℤ, (S < g * k ↔ y < g * k) ∧ (g * k < S ↔ g * k < y)

variable {g S T y : ℚ}

namespace GridAgrees

theorem refl (g y : ℚ) : GridAgrees g y y := fun _ => ⟨Iff.rfl, Iff.rfl⟩

theorem trans (h : GridAgrees g S T) (h' : GridAgrees g T y) : GridAgrees g S y := fun k =>
  ⟨(h k).1.trans (h' k).1, (h k).2.trans (h' k).2⟩

variable (h : GridAgrees g S y)
include h

/-- A coarser grid. -/
theorem coarser (m : ℤ) : GridAgrees (g * m) S y := by
  intro k
  have hk := h (m * k)
  rw [Int.cast_mul, ← mul_assoc] at hk
  exact hk

theorem mul_right {c : ℚ} (hc : 0 < c) : GridAgrees (g * c) (S * c) (y * c) := by
  intro k
  rw [mul_right_comm, mul_lt_mul_iff_left₀ hc, mul_lt_mul_iff_left₀ hc, mul_lt_mul_iff_left₀ hc,
    mul_lt_mul_iff_left₀ hc]
  exact h k

theorem div_right {c : ℚ} (hc : 0 < c) : GridAgrees (g / c) (S / c) (y / c) := by
  rw [div_eq_mul_inv, div_eq_mul_inv, div_eq_mul_inv]
  exact h.mul_right (inv_pos.2 hc)

theorem add_left (m : ℤ) : GridAgrees g (g * m + S) (g * m + y) := by
  intro k
  have hk := h (k - m)
  rw [Int.cast_sub, mul_sub] at hk
  constructor
  · rw [← lt_sub_iff_add_lt', hk.1, lt_sub_iff_add_lt']
  · rw [← sub_lt_iff_lt_add', hk.2, sub_lt_iff_lt_add']

theorem sub_left (m : ℤ) : GridAgrees g (g * m - S) (g * m - y) := by
  intro k
  have hk := h (m - k)
  rw [Int.cast_sub, mul_sub] at hk
  constructor
  · rw [sub_lt_comm, hk.2, sub_lt_comm]
  · rw [lt_sub_comm, hk.1, lt_sub_comm]

theorem lt_iff (k : ℤ) : S < g * k ↔ y < g * k := (h k).1

theorem le_iff (k : ℤ) : g * k ≤ S ↔ g * k ≤ y := by
  rw [← not_lt, (h k).1, not_lt]

theorem cmp_eq (k : ℤ) : cmp S (g * k) = cmp y (g * k) := by
  unfold cmp cmpUsing
  simp only [(h k).1, (h k).2]

end GridAgrees

theorem or_one_eq (q : ℕ) : q ||| 1 = 2 * (q / 2) + 1 := by
  have hdiv : (q ||| 1) / 2 = q / 2 := by rw [or_div_two, or_zero]
  have hmod : (q ||| 1) % 2 = 1 := or_mod_two_eq_one.2 (Or.inr rfl)
  omega

/-- A number between two neighbouring integers, and the odd one of them. -/
theorem agrees_odd {q : ℕ} (hlt : (q : ℚ) < y) (hlt' : y < q + 1) :
    GridAgrees 2 (q ||| 1 : ℕ) y := by
  intro k
  have hbelow : (2 * k ≤ q) ↔ (2 * k : ℚ) < y := by
    constructor
    · intro hle
      exact (show (2 * k : ℚ) ≤ q by exact_mod_cast hle).trans_lt hlt
    · intro hk
      have hk' : (2 * k : ℚ) < q + 1 := hk.trans hlt'
      exact Int.le_of_lt_add_one (by exact_mod_cast hk')
  have habove : ((q : ℤ) < 2 * k) ↔ y < (2 * k : ℚ) := by
    constructor
    · intro hk
      exact hlt'.trans_le (by exact_mod_cast hk)
    · intro hk
      exact_mod_cast hlt.trans hk
  rw [← hbelow, ← habove, or_one_eq]
  generalize hm : q / 2 = m
  have hlt_iff : ((2 * m + 1 : ℕ) : ℚ) < 2 * k ↔ 2 * (m : ℤ) + 1 < 2 * k := by norm_cast
  have hgt_iff : (2 * k : ℚ) < (2 * m + 1 : ℕ) ↔ 2 * k < 2 * (m : ℤ) + 1 := by norm_cast
  rw [hlt_iff, hgt_iff]
  constructor <;> omega

/-- The digits left, the last of them set where one that was cut off is. -/
theorem agrees_sticky (B n : ℕ) :
    GridAgrees 2 (B / 2 ^ n ||| (if B % 2 ^ n ≠ 0 then 1 else 0) : ℕ) (B / 2 ^ n) := by
  have hpow : (0 : ℚ) < 2 ^ n := by positivity
  have hsplit : (B : ℚ) = (B / 2 ^ n : ℕ) * 2 ^ n + (B % 2 ^ n : ℕ) := by
    exact_mod_cast (div_add_mod' B (2 ^ n)).symm
  split_ifs with h
  · refine agrees_odd ?_ ?_
    · rw [lt_div_iff₀ hpow, hsplit]
      exact lt_add_of_pos_right _ (cast_pos.2 (pos_of_ne_zero h))
    · rw [div_lt_iff₀ hpow, hsplit, add_mul, one_mul]
      have hlt : (B % 2 ^ n : ℕ) < (2 ^ n : ℚ) := by
        exact_mod_cast Nat.mod_lt B (Nat.two_pow_pos n)
      linarith
  · rw [not_not] at h
    rw [h, cast_zero, add_zero] at hsplit
    rw [or_zero, hsplit, mul_div_assoc, div_self hpow.ne', mul_one]
    exact GridAgrees.refl _ _

/-- What is between zero and the first even number is known from its being above zero. -/
theorem agrees_one (hpos : 0 < y) (hlt : y < 2) : GridAgrees 2 1 y := by
  intro k
  rcases le_or_gt k 0 with hk | hk
  · have hk' : (k : ℚ) ≤ 0 := Int.cast_nonpos.2 hk
    constructor
    · exact iff_of_false (by linarith) (by linarith)
    · exact iff_of_true (by linarith) (by linarith)
  · have hk' : (1 : ℚ) ≤ k := by exact_mod_cast hk
    constructor
    · exact iff_of_true (by linarith) (by linarith)
    · exact iff_of_false (by linarith) (by linarith)

end RustStd
