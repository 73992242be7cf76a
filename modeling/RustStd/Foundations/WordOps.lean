import Mathlib.Data.Nat.Size
import RustStd.Foundations.Word

/-!
# Arithmetic on words of a given width

A word of `w` bits is a number below `2 ^ w`. The operations of the language that must not
overflow are partial here: `none` is an addition, a multiplication or a subtraction that leaves
the word, or a shift amount that reaches the width. The wrapping operations, the bits cut off by
`<<`, and the reinterpretation of a word as a signed one are what the language makes of them.
-/

namespace RustStd.Word

open Nat

/-- `a + b` -/
def add (w a b : ℕ) : Option ℕ := if a + b < 2 ^ w then some (a + b) else none

/-- `a << s` -/
def shl (w a s : ℕ) : Option ℕ := if s < w then some (a * 2 ^ s % 2 ^ w) else none

/-- `a >> s` -/
def shr (w a s : ℕ) : Option ℕ := if s < w then some (a / 2 ^ s) else none

/-- `a as uW` -/
def truncate (w a : ℕ) : ℕ := a % 2 ^ w

/-- `a.wrapping_add(b)` -/
def wrapping_add (w a b : ℕ) : ℕ := (a + b) % 2 ^ w

/-- `a.wrapping_sub(b)` -/
def wrapping_sub (w a b : ℕ) : ℕ := (a + (2 ^ w - b % 2 ^ w)) % 2 ^ w

/-- `a.wrapping_mul(b)` -/
def wrapping_mul (w a b : ℕ) : ℕ := a * b % 2 ^ w

/-- `a.leading_zeros()` -/
def leading_zeros (w a : ℕ) : ℕ := w - a.size

/-- `(a as iW) < 0` -/
def is_negative (w a : ℕ) : Bool := decide (2 ^ w ≤ 2 * a)

variable {w a b s i : ℕ}

theorem add_eq (h : a + b < 2 ^ w) : add w a b = some (a + b) := if_pos h

/-- A shift to the left that cuts no bit off. -/
theorem shl_eq (hs : s < w) (h : a * 2 ^ s < 2 ^ w) : shl w a s = some (a * 2 ^ s) := by
  rw [shl, if_pos hs, mod_eq_of_lt h]

theorem shr_eq (hs : s < w) : shr w a s = some (a / 2 ^ s) := if_pos hs

theorem truncate_eq (h : a < 2 ^ w) : truncate w a = a := mod_eq_of_lt h

theorem wrapping_add_eq (h : a + b < 2 ^ w) : wrapping_add w a b = a + b := mod_eq_of_lt h

theorem wrapping_mul_eq (h : a * b < 2 ^ w) : wrapping_mul w a b = a * b := mod_eq_of_lt h

theorem wrapping_sub_of_le (ha : a < 2 ^ w) (h : b ≤ a) : wrapping_sub w a b = a - b := by
  rw [wrapping_sub, mod_eq_of_lt (show b < 2 ^ w by omega),
    show a + (2 ^ w - b) = a - b + 2 ^ w by omega, add_mod_right, mod_eq_of_lt (by omega)]

theorem wrapping_sub_of_lt (hb : b < 2 ^ w) (h : a < b) : wrapping_sub w a b = a + 2 ^ w - b := by
  rw [wrapping_sub, mod_eq_of_lt hb, mod_eq_of_lt (by omega)]
  omega

/-- Adding back what was subtracted undoes the wrapping around. -/
theorem wrapping_add_wrapping_sub (ha : a < 2 ^ w) (hb : b < 2 ^ w) :
    wrapping_add w (wrapping_sub w a b) b = a := by
  rcases lt_or_ge a b with h | h
  · rw [wrapping_sub_of_lt hb h, wrapping_add, show a + 2 ^ w - b + b = a + 2 ^ w by omega,
      add_mod_right, mod_eq_of_lt ha]
  · rw [wrapping_sub_of_le ha h, wrapping_add_eq (by omega)]
    omega

/-- Wrapped words have the wrapped difference. -/
theorem wrapping_sub_mod (hle : b ≤ a) (h : a - b < 2 ^ w) :
    wrapping_sub w (a % 2 ^ w) (b % 2 ^ w) = a - b := by
  have hmod := div_add_mod b (2 ^ w)
  rw [wrapping_sub, mod_mod, mod_add_mod,
    show a + (2 ^ w - b % 2 ^ w) = a - b + 2 ^ w * (b / 2 ^ w) + 2 ^ w by omega,
    add_mod_right, add_mul_mod_self_left, mod_eq_of_lt h]

theorem is_negative_iff : is_negative w a = true ↔ 2 ^ w ≤ 2 * a := decide_eq_true_iff

/-- The sign of a wrapped difference tells the order, when the numbers are less than half of the
range apart. -/
theorem is_negative_wrapping_sub (ha : a < 2 ^ w) (hb : b < 2 ^ w) (hle : 2 * b ≤ 2 * a + 2 ^ w)
    (hlt : 2 * a < 2 * b + 2 ^ w) : is_negative w (wrapping_sub w a b) = decide (a < b) := by
  rw [is_negative, decide_eq_decide]
  rcases lt_or_ge a b with h | h
  · rw [wrapping_sub_of_lt hb h]
    omega
  · rw [wrapping_sub_of_le ha h]
    omega

/-- The bits above a low part are put beside it by `|`. -/
theorem or_eq_add (h : b < 2 ^ i) (a : ℕ) : b ||| a * 2 ^ i = b + a * 2 ^ i := by
  rw [Nat.or_comm, Nat.mul_comm, ← two_pow_add_eq_or_of_lt h, Nat.add_comm]

theorem or_eq_add' (h : b < 2 ^ i) (a : ℕ) : a * 2 ^ i ||| b = a * 2 ^ i + b := by
  rw [mul_comm, ← two_pow_add_eq_or_of_lt h]

/-- Testing the only bit that may be the highest. -/
theorem and_two_pow_ne_zero_iff (h : a < 2 ^ (i + 1)) : a &&& 2 ^ i ≠ 0 ↔ 2 ^ i ≤ a := by
  have hdiv : a / 2 ^ i < 2 := by
    rwa [Nat.div_lt_iff_lt_mul (Nat.two_pow_pos _), Nat.mul_comm, ← pow_succ]
  have hone := Nat.le_div_iff_mul_le (x := 1) (y := a) (Nat.two_pow_pos i)
  rw [and_two_pow, testBit_eq_decide_div_mod_eq, ne_eq, Nat.mul_eq_zero,
    or_iff_left (Nat.two_pow_pos _).ne', Bool.toNat_eq_zero, decide_eq_false_iff_not, not_not]
  generalize a / 2 ^ i = q at hdiv hone ⊢
  omega

/-! ### Leading zeros -/

theorem two_pow_size_le (h : a ≠ 0) : 2 ^ a.size ≤ 2 * a := by
  obtain ⟨n, hn⟩ := exists_eq_succ_of_ne_zero (Nat.pos_iff_ne_zero.1 (size_pos.2
    (Nat.pos_of_ne_zero h)))
  have hlt : 2 ^ n ≤ a := lt_size.1 (by omega)
  rw [hn, pow_succ]
  omega

theorem lt_two_pow_size (a : ℕ) : a < 2 ^ a.size := lt_size_self a

theorem size_le_of_lt (h : a < 2 ^ w) : a.size ≤ w := size_le.2 h

theorem leading_zeros_add_size (h : a < 2 ^ w) : leading_zeros w a + a.size = w :=
  Nat.sub_add_cancel (size_le_of_lt h)

/-- A quotient and a remainder below the divisor are the ones. -/
theorem div_mod_of_eq {duo div quo rem : ℕ} (h : duo = quo * div + rem) (hlt : rem < div) :
    duo / div = quo ∧ duo % div = rem := by
  rw [Nat.div_mod_unique (zero_lt_of_lt hlt)]
  refine ⟨?_, hlt⟩
  rw [h, Nat.mul_comm, Nat.add_comm]

end RustStd.Word
