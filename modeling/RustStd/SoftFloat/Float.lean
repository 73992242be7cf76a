import RustStd.Foundations.WordOps
import RustStd.Foundations.BinaryFormat
import Mathlib.Order.CountableDenseLinearOrder

/-!
# The floats of the generic routines

The constants of `float::Float` and the steps that `add` and `mul` share, on bit patterns. A shift
by an amount that is not below the width and a `cast` of a value that does not fit are `none`. The
operations that the code lets wrap or cut off bits can be read in two ways: as the code has them,
or exactly, where they are `none` when the result is not the integer they stand for.
-/

namespace RustStd.SoftFloat

open Nat Bool Word

/-- The types that `float_impl!` is applied to. -/
inductive Float where
  | f16
  | f32
  | f64
  | f128
  deriving DecidableEq, Repr

namespace Float

variable (F : Float)

def BITS : Float → ℕ
  | f16 => 16
  | f32 => 32
  | f64 => 64
  | f128 => 128

def SIG_BITS : Float → ℕ
  | f16 => 10
  | f32 => 23
  | f64 => 52
  | f128 => 112

def EXP_BITS : ℕ := F.BITS - F.SIG_BITS - 1

def EXP_SAT : ℕ := 2 ^ F.EXP_BITS - 1

def EXP_BIAS : ℕ := F.EXP_SAT / 2

def SIGN_MASK : ℕ := 2 ^ (F.BITS - 1)

def SIG_MASK : ℕ := 2 ^ F.SIG_BITS - 1

def IMPLICIT_BIT : ℕ := 2 ^ F.SIG_BITS

/-- `!(SIGN_MASK | SIG_MASK)` -/
def EXP_MASK : ℕ := 2 ^ F.BITS - 1 - (F.SIGN_MASK ||| F.SIG_MASK)

end Float

/-! ### Integers -/

/-- In the exact reading, the value of an operation that may lose something of it. -/
def keep {α : Type*} (exact : Bool) (value : α) (same : Prop) [Decidable same] : Option α :=
  if exact = true ∧ ¬ same then none else some value

/-- `x as i32` -/
def as_i32 (x : ℤ) : ℤ := x.bmod (2 ^ 32)

def is_i32 (x : ℤ) : Prop := -2 ^ 31 ≤ x ∧ x < 2 ^ 31

instance (x : ℤ) : Decidable (is_i32 x) := inferInstanceAs (Decidable (_ ∧ _))

/-- `x.cast()`, into `i32` -/
def cast_i32 (x : ℤ) : Option ℤ := if is_i32 x then some x else none

/-- `x.cast()`, into an unsigned integer of `w` bits -/
def cast (w : ℕ) (x : ℤ) : Option ℕ := if 0 ≤ x ∧ x < 2 ^ w then some x.toNat else none

/-- `x.cast_lossy()`, from `i32` into an unsigned integer of `w` bits -/
def cast_lossy (w : ℕ) (x : ℤ) : ℕ := (x % 2 ^ w).toNat

/-- `a.wrapping_add(b)`, for `i32` -/
def wrapping_add_i32 (exact : Bool) (a b : ℤ) : Option ℤ :=
  keep exact (as_i32 (a + b)) (is_i32 (a + b))

/-- `a.wrapping_sub(b)`, for `i32` -/
def wrapping_sub_i32 (exact : Bool) (a b : ℤ) : Option ℤ :=
  keep exact (as_i32 (a - b)) (is_i32 (a - b))

/-- `a + b`, for `i32` -/
def add_i32 (a b : ℤ) : Option ℤ := cast_i32 (a + b)

/-- `a - b`, for `i32` -/
def sub_i32 (a b : ℤ) : Option ℤ := cast_i32 (a - b)

/-- `a.wrapping_sub(b)` -/
def wrapping_sub (exact : Bool) (w a b : ℕ) : Option ℕ :=
  keep exact (Word.wrapping_sub w a b) (b ≤ a)

/-- `a << s`, where no bit of `a` is meant to be cut off -/
def shl (exact : Bool) (w a s : ℕ) : Option ℕ := do
  let value ← Word.shl w a s
  keep exact value (a * 2 ^ s < 2 ^ w)

section Integers

variable {exact : Bool} {x a b : ℤ} {w : ℕ}

theorem keep_eq {α : Type*} {value : α} {same : Prop} [Decidable same] (h : same) :
    keep exact value same = some value := if_neg fun hand => hand.2 h

theorem as_i32_eq (h : is_i32 x) : as_i32 x = x :=
  Int.bmod_eq_of_le_mul_two (by unfold is_i32 at h; lia) (by unfold is_i32 at h; lia)

theorem cast_i32_eq (h : is_i32 x) : cast_i32 x = some x := if_pos h

theorem cast_eq {n : ℕ} (h : n < 2 ^ w) : cast w n = some n := by
  unfold cast
  rw [if_pos ⟨Int.natCast_nonneg n, by exact_mod_cast h⟩, Int.toNat_natCast]

theorem wrapping_add_i32_eq (h : is_i32 (a + b)) : wrapping_add_i32 exact a b = some (a + b) := by
  rw [wrapping_add_i32, keep_eq h, as_i32_eq h]

theorem wrapping_sub_i32_eq (h : is_i32 (a - b)) : wrapping_sub_i32 exact a b = some (a - b) := by
  rw [wrapping_sub_i32, keep_eq h, as_i32_eq h]

theorem add_i32_eq (h : is_i32 (a + b)) : add_i32 a b = some (a + b) := cast_i32_eq h

theorem sub_i32_eq (h : is_i32 (a - b)) : sub_i32 a b = some (a - b) := cast_i32_eq h

theorem wrapping_sub_eq {a b : ℕ} (ha : a < 2 ^ w) (h : b ≤ a) :
    wrapping_sub exact w a b = some (a - b) := by
  rw [wrapping_sub, keep_eq h, wrapping_sub_of_le ha h]

theorem shl_eq {a s : ℕ} (hs : s < w) (h : a * 2 ^ s < 2 ^ w) :
    shl exact w a s = some (a * 2 ^ s) := by
  rw [shl, Word.shl_eq hs h, some_bind, keep_eq h]

end Integers

namespace Float

variable (F : Float)

/-- `F::normalize(significand)` -/
def normalize (exact : Bool) (significand : ℕ) : Option (ℤ × ℕ) := do
  let shift ← SoftFloat.wrapping_sub exact 32 (Word.leading_zeros F.BITS significand) F.EXP_BITS
  let exponent ← wrapping_sub_i32 exact 1 (as_i32 shift)
  let significand ← shl exact F.BITS significand (Word.truncate F.BITS shift)
  return (exponent, significand)

/-- `from_bool(x << shift != 0)`: whether any of the bits that `>> (bits - shift)` cuts off is
set. -/
def sticky (x shift : ℕ) : Option ℕ := do
  let cut ← Word.shl F.BITS x shift
  return if cut ≠ 0 then 1 else 0

/-! ### The format -/

theorem sig_bits_bounds : 10 ≤ F.SIG_BITS ∧ F.SIG_BITS ≤ 112 := by cases F <;> decide

theorem exp_bits_bounds : 5 ≤ F.EXP_BITS ∧ F.EXP_BITS ≤ 15 := by cases F <;> decide

theorem bits_eq : F.BITS = F.SIG_BITS + F.EXP_BITS + 1 := by cases F <;> rfl

/-- The interchange format of the type. -/
def format : BinaryFormat where
  fraction_bits := F.SIG_BITS
  exponent_bits := F.EXP_BITS
  fraction_pos := by
    have hsig := F.sig_bits_bounds
    lia
  exponent_two := by
    have hexp := F.exp_bits_bounds
    lia

@[simp] theorem format_fraction_bits : F.format.fraction_bits = F.SIG_BITS := rfl

theorem format_width : F.format.width = F.BITS := F.bits_eq.symm

theorem format_saturated : F.format.saturated = F.EXP_SAT := rfl

theorem format_bias : F.format.bias = F.EXP_BIAS := by
  unfold EXP_BIAS
  rw [← format_saturated, BinaryFormat.saturated_eq]
  lia

theorem exp_sat_eq : F.EXP_SAT = 2 * F.EXP_BIAS + 1 := by
  rw [← format_saturated, ← format_bias]
  exact F.format.saturated_eq

/-- The exponents are far from what does not fit. -/
theorem exp_sat_lt : F.EXP_SAT < 2 ^ 15 ∧ F.EXP_BIAS + 2 * F.SIG_BITS + 2 < 2 ^ F.BITS := by
  cases F <;> decide

theorem two_pow_le_bits : 2 ^ 16 ≤ 2 ^ F.BITS := by cases F <;> decide

theorem exp_mask_eq : F.EXP_MASK = F.EXP_SAT * 2 ^ F.SIG_BITS := by cases F <;> rfl

theorem infinity_eq : F.format.infinity = F.EXP_MASK := F.exp_mask_eq.symm

/-! ### The parts of a word -/

variable {F}

theorem and_abs_mask (w : ℕ) : w &&& F.SIGN_MASK - 1 = F.format.magnitude w := by
  rw [BinaryFormat.magnitude, format_width]
  exact and_two_pow_sub_one_eq_mod w _

theorem and_sig_mask (w : ℕ) : w &&& F.SIG_MASK = F.format.fraction w :=
  and_two_pow_sub_one_eq_mod w _

theorem and_sign_mask (w : ℕ) :
    w &&& F.SIGN_MASK = (F.format.negative w).toNat * 2 ^ (F.BITS - 1) := by
  rw [BinaryFormat.negative, format_width]
  exact and_two_pow w _

theorem and_exp_mask (w : ℕ) : w &&& F.EXP_MASK = F.format.exponent w * 2 ^ F.SIG_BITS := by
  have hwidth : F.BITS - 1 = F.SIG_BITS + F.EXP_BITS := by
    rw [bits_eq, Nat.add_sub_cancel]
  have hexp : F.format.exponent w = w / 2 ^ F.SIG_BITS % 2 ^ F.EXP_BITS := by
    unfold BinaryFormat.exponent BinaryFormat.magnitude
    rw [format_width, hwidth, format_fraction_bits, pow_add, mod_mul_right_div_self]
  rw [exp_mask_eq, hexp]
  apply eq_of_testBit_eq
  intro i
  unfold EXP_SAT
  rw [testBit_and, testBit_mul_two_pow, testBit_mul_two_pow,
    testBit_two_pow_sub_one, testBit_mod_two_pow, testBit_div_two_pow]
  by_cases hi : F.SIG_BITS ≤ i
  · rw [Nat.sub_add_cancel hi, decide_eq_true hi, Bool.true_and, Bool.true_and, Bool.and_comm]
  · rw [decide_eq_false hi, Bool.false_and, Bool.false_and, Bool.and_false]

/-- The bits of a word are its sign and its magnitude. -/
theorem word_eq {w : ℕ} (hw : w < 2 ^ F.BITS) :
    w = F.format.magnitude w + (F.format.negative w).toNat * 2 ^ (F.BITS - 1) := by
  have hbits : F.BITS = F.BITS - 1 + 1 := by
    rw [bits_eq, Nat.add_sub_cancel]
  have hlt : w / 2 ^ (F.BITS - 1) < 2 := by
    rw [Nat.div_lt_iff_lt_mul (Nat.two_pow_pos _), Nat.mul_comm, ← pow_succ, ← hbits]
    exact hw
  have hneg : (F.format.negative w).toNat = w / 2 ^ (F.BITS - 1) := by
    rw [BinaryFormat.negative, format_width, testBit_eq_decide_div_mod_eq]
    rcases Nat.lt_succ_iff_lt_or_eq.1 hlt with h | h
    · rw [lt_one_iff.1 h]
      rfl
    · rw [h]
      rfl
  rw [hneg, BinaryFormat.magnitude, format_width, mod_add_div']

theorem magnitude_lt (w : ℕ) : F.format.magnitude w < 2 ^ (F.BITS - 1) := by
  rw [BinaryFormat.magnitude, format_width]
  exact mod_lt _ (Nat.two_pow_pos _)

variable {m : ℕ}

/-- Putting a sign on a magnitude. -/
theorem signed_lt (hm : m < 2 ^ (F.BITS - 1)) (negative : Bool) :
    m + negative.toNat * 2 ^ (F.BITS - 1) < 2 ^ F.BITS := by
  have hbits : F.BITS = F.BITS - 1 + 1 := by
    rw [bits_eq, Nat.add_sub_cancel]
  rw [hbits, pow_succ, Nat.add_sub_cancel]
  cases negative <;> simp only [Bool.toNat_false, Bool.toNat_true] <;> lia

theorem magnitude_signed (hm : m < 2 ^ (F.BITS - 1)) (negative : Bool) :
    F.format.magnitude (m + negative.toNat * 2 ^ (F.BITS - 1)) = m := by
  rw [BinaryFormat.magnitude, format_width, add_mul_mod_self_right, mod_eq_of_lt hm]

theorem negative_signed (hm : m < 2 ^ (F.BITS - 1)) (negative : Bool) :
    F.format.negative (m + negative.toNat * 2 ^ (F.BITS - 1)) = negative := by
  rw [BinaryFormat.negative, format_width, testBit_eq_decide_div_mod_eq,
    add_mul_div_right _ _ (Nat.two_pow_pos _), div_eq_of_lt hm]
  cases negative <;> rfl

theorem infinity_lt : F.format.infinity < 2 ^ (F.BITS - 1) := by
  have hpos := Nat.two_pow_pos F.EXP_BITS
  unfold BinaryFormat.infinity
  rw [format_fraction_bits, format_saturated, bits_eq, Nat.add_sub_cancel, pow_add, Nat.mul_comm]
  refine Nat.mul_lt_mul_of_pos_left ?_ (Nat.two_pow_pos _)
  unfold EXP_SAT
  lia

/-! ### The final rounding -/

open BinaryFormat (rounded)

theorem rounded_le_succ (r : ℕ) (o : Ordering) : rounded r o ≤ r + 1 := by
  cases o <;> simp only [rounded] <;> lia

/-- Under a sign, a magnitude is rounded as without one. -/
theorem rounded_signed (r : ℕ) (negative : Bool) (o : Ordering) :
    rounded (r + negative.toNat * 2 ^ (F.BITS - 1)) o =
      rounded r o + negative.toNat * 2 ^ (F.BITS - 1) := by
  have hbits := F.bits_eq
  have hsig := F.sig_bits_bounds
  have heven : negative.toNat * 2 ^ (F.BITS - 1) % 2 = 0 := by
    rw [show F.BITS - 1 = F.BITS - 2 + 1 by lia, pow_succ, ← mul_assoc, mul_mod_left]
  cases o <;> simp only [rounded] <;> lia

/-- The last steps of both routines: up above the middle, to the even one at it. -/
theorem round_steps_eq (negative : Bool) {base : ℕ} (x middle : ℕ)
    (hbase : base + 1 ≤ F.format.infinity) :
    (do
      let result := base + negative.toNat * 2 ^ (F.BITS - 1)
      let result ← if middle < x then Word.add F.BITS result 1 else some result
      if x = middle then Word.add F.BITS result (result &&& 1) else some result) =
      some (rounded base (cmp x middle) + negative.toNat * 2 ^ (F.BITS - 1)) := by
  have hword : ∀ o, rounded base o + negative.toNat * 2 ^ (F.BITS - 1) < 2 ^ F.BITS := fun o =>
    signed_lt ((rounded_le_succ base o).trans_lt (hbase.trans_lt infinity_lt)) negative
  simp only [← rounded_signed] at hword ⊢
  generalize base + negative.toNat * 2 ^ (F.BITS - 1) = result at hword ⊢
  rcases hcmp : cmp x middle with _ | _ | _
  · have hlt := (cmp_eq_lt_iff _ _).1 hcmp
    rw [if_neg (by omega), some_bind, if_neg (by omega), rounded]
  · have heq := (cmp_eq_eq_iff _ _).1 hcmp
    have hone := and_two_pow_sub_one_eq_mod result 1
    rw [pow_one] at hone
    rw [if_neg (by omega), some_bind, if_pos heq, hone, rounded]
    exact Word.add_eq (hword .eq)
  · have hgt := (cmp_eq_gt_iff _ _).1 hcmp
    rw [if_pos hgt, Word.add_eq (hword .gt), some_bind, if_neg (by omega), rounded]

/-- The bits that a shift to the right cuts off, moved to the top by a shift to the left. -/
theorem shl_complement (x : ℕ) {shift : ℕ} (hlt : shift ≤ F.BITS) :
    x * 2 ^ (F.BITS - shift) % 2 ^ F.BITS = x % 2 ^ shift * 2 ^ (F.BITS - shift) := by
  conv_lhs => rw [← add_sub_of_le hlt, pow_add, Nat.add_sub_cancel_left]
  exact mul_mod_mul_right _ _ _

theorem sticky_eq (x : ℕ) {shift : ℕ} (hpos : shift ≠ 0) (hlt : shift < F.BITS) :
    F.sticky x (F.BITS - shift) = some (if x % 2 ^ shift ≠ 0 then 1 else 0) := by
  have hiff : x * 2 ^ (F.BITS - shift) % 2 ^ F.BITS = 0 ↔ x % 2 ^ shift = 0 := by
    rw [shl_complement x hlt.le, Nat.mul_eq_zero, or_iff_left (Nat.two_pow_pos _).ne']
  rw [sticky, Word.shl, if_pos (by lia)]
  simp [some_bind, hiff]

/-! ### Significands -/

/-- `N` and `E` are the normalised significand and the exponent of the magnitude `m`. -/
structure Decoded (F : Float) (m : ℕ) (E : ℤ) (N : ℕ) : Prop where
  lower : 2 ^ F.SIG_BITS ≤ N
  upper : N < 2 ^ (F.SIG_BITS + 1)
  min_exponent : 1 - F.SIG_BITS ≤ E
  max_exponent : E < F.EXP_SAT
  scaled : (F.format.scaled m : ℚ) = N * 2 ^ (E - 1)

/-- The implicit bit of a normalised significand is set. -/
theorem or_implicit_bit {N : ℕ} (hlow : 2 ^ F.SIG_BITS ≤ N) (hup : N < 2 ^ (F.SIG_BITS + 1)) :
    N ||| F.IMPLICIT_BIT = N := by
  obtain ⟨r, rfl⟩ := Nat.exists_eq_add_of_le hlow
  rw [pow_succ] at hup
  have hor := or_eq_add' (show r < 2 ^ F.SIG_BITS by lia) 1
  rw [Nat.one_mul] at hor
  rw [← hor, IMPLICIT_BIT, Nat.or_assoc, Nat.or_comm r, ← Nat.or_assoc, Nat.or_self]

/-- A subnormal significand is shifted until its leading bit is the implicit one. -/
theorem normalize_spec (exact : Bool) (hm : m ≠ 0) (hlt : m < 2 ^ F.SIG_BITS) :
    ∃ E N, F.normalize exact m = some (E, N) ∧ F.Decoded m E N ∧ E ≤ 0 := by
  have hbits := F.bits_eq
  have hsig := F.sig_bits_bounds
  have hexp := F.exp_bits_bounds
  have hsize : m.size ≤ F.SIG_BITS := size_le.2 hlt
  have hpos : 0 < m.size := size_pos.2 (pos_of_ne_zero hm)
  obtain ⟨k, hk⟩ := Nat.exists_eq_add_of_le hsize
  have hlz : leading_zeros F.BITS m - F.EXP_BITS = k + 1 := by
    unfold leading_zeros
    lia
  have hsub : SoftFloat.wrapping_sub exact 32 (leading_zeros F.BITS m) F.EXP_BITS =
      some (k + 1) := by
    have hword : leading_zeros F.BITS m < 2 ^ 32 := by lia
    rw [← hlz]
    exact wrapping_sub_eq hword (by lia)
  have hlower : 2 ^ F.SIG_BITS ≤ m * 2 ^ (k + 1) := by
    rw [hk, pow_add, pow_succ, mul_comm _ 2, ← mul_assoc, mul_comm m]
    exact mul_le_mul_right _ (two_pow_size_le hm)
  have hupper : m * 2 ^ (k + 1) < 2 ^ (F.SIG_BITS + 1) := by
    calc m * 2 ^ (k + 1) < 2 ^ m.size * 2 ^ (k + 1) :=
        Nat.mul_lt_mul_of_pos_right (lt_two_pow_size m) (Nat.two_pow_pos _)
      _ = 2 ^ (F.SIG_BITS + 1) := by rw [← pow_add, hk, add_assoc]
  have hshl : shl exact F.BITS m (k + 1) = some (m * 2 ^ (k + 1)) :=
    shl_eq (by lia) (hupper.trans_le (Nat.pow_le_pow_right Nat.two_pos (by lia)))
  have htrunc : truncate F.BITS (k + 1) = k + 1 :=
    truncate_eq ((show k + 1 < F.BITS by lia).trans Nat.lt_two_pow_self)
  have hi32 : is_i32 (k + 1 : ℕ) := ⟨by lia, by lia⟩
  refine ⟨1 - (k + 1 : ℕ), m * 2 ^ (k + 1), ?_, ⟨hlower, hupper, by lia, ?_, ?_⟩, by lia⟩
  · rw [normalize, hsub, some_bind, as_i32_eq hi32, wrapping_sub_i32_eq ⟨by lia, by lia⟩]
    simp [some_bind, htrunc, hshl]
  · have hsat := F.format.saturated_pos
    rw [format_saturated] at hsat
    lia
  · have hscaled : F.format.scaled m = m := by
      unfold BinaryFormat.scaled
      rw [format_fraction_bits, if_pos (div_eq_of_lt hlt)]
    rw [hscaled, show (1 - (k + 1 : ℕ) - 1 : ℤ) = -((k + 1 : ℕ) : ℤ) by ring, zpow_neg,
      zpow_natCast, cast_mul, cast_pow, cast_ofNat, mul_assoc,
      mul_inv_cancel₀ (by positivity), mul_one]

theorem exponent_lt {w : ℕ} (hfin : F.format.IsFinite w) : F.format.exponent w < F.EXP_SAT := by
  unfold BinaryFormat.exponent
  rw [Nat.div_lt_iff_lt_mul (Nat.two_pow_pos _)]
  exact hfin

/-- A normal word has the implicit bit above its fraction. -/
theorem decoded_normal {w : ℕ} (hfin : F.format.IsFinite w) (hexp : F.format.exponent w ≠ 0) :
    F.Decoded (F.format.magnitude w) (F.format.exponent w)
      (F.format.fraction w ||| F.IMPLICIT_BIT) := by
  have hfrac : F.format.fraction w < 2 ^ F.SIG_BITS := mod_lt _ (Nat.two_pow_pos _)
  have hor := or_eq_add hfrac 1
  rw [one_mul] at hor
  have hN : F.format.fraction w ||| F.IMPLICIT_BIT = 2 ^ F.SIG_BITS + F.format.fraction w := by
    rw [IMPLICIT_BIT, hor, add_comm]
  rw [hN]
  refine ⟨le_add_right _ _, by rw [pow_succ]; lia, by lia, ?_, ?_⟩
  · exact_mod_cast exponent_lt hfin
  unfold BinaryFormat.scaled
  obtain ⟨e, he⟩ := exists_eq_succ_of_ne_zero hexp
  rw [BinaryFormat.exponent] at he
  rw [BinaryFormat.fraction_magnitude, BinaryFormat.exponent, he, if_neg e.succ_ne_zero,
    succ_sub_one, cast_succ, add_sub_cancel_right,
    zpow_natCast]
  push_cast
  rfl

end Float

end RustStd.SoftFloat
