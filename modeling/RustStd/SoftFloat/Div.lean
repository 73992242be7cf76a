import RustStd.SoftFloat.MulSpec

/-!
# Division of floats

`float::div`: what is zero, infinite or not a number is answered at once. Else the reciprocal of
the divisor's significand is approached by Newton-Raphson iterations in fixed point, the quotient
is estimated from it, and the estimate is corrected by looking at the residual.

The estimate of the reciprocal is the only thing that may wrap around. It has a reading of its
own, in which it may not.
-/

namespace RustStd.SoftFloat

/-- `size_of::<*const ()>()` -/
inductive PointerSize where
  | two
  | four
  | eight
  deriving DecidableEq, Repr

def PointerSize.bytes : PointerSize → ℕ
  | two => 2
  | four => 4
  | eight => 8

/-- `a * b` -/
def mul_word (w a b : ℕ) : Option ℕ := if a * b < 2 ^ w then some (a * b) else none

/-- `a.wrapping_add(b)` -/
def wrapping_add (exact : Bool) (w a b : ℕ) : Option ℕ :=
  keep exact (Word.wrapping_add w a b) (a + b < 2 ^ w)

/-- `next_guess(x_uq0, b_uq1)`, on integers of `w` bits -/
def next_guess (unwrapped : Bool) (w x_uq0 b_uq1 : ℕ) : Option ℕ :=
  let corr_uq1 := Word.wrapping_sub w 0 (x_uq0 * b_uq1 / 2 ^ w)
  let product := x_uq0 * corr_uq1 / 2 ^ (w - 1)
  keep unwrapped (product % 2 ^ w) (product < 2 ^ w)

/-- `for _ in 0..iterations { x_uq0 = next_guess(x_uq0, b_uq1); }` -/
def iterate_guess (unwrapped : Bool) (w b_uq1 : ℕ) : ℕ → ℕ → Option ℕ
  | 0, x_uq0 => some x_uq0
  | iterations + 1, x_uq0 => do
    iterate_guess unwrapped w b_uq1 iterations (← next_guess unwrapped w x_uq0 b_uq1)

namespace Float

variable (F : Float) (exact unwrapped : Bool) (pointer : PointerSize)

/-- `get_iterations::<F>()` -/
def get_iterations : ℕ × ℕ :=
  let total_iterations := Nat.log2 F.BITS - 2
  if 2 * (F.BITS / 8) ≤ pointer.bytes then (0, total_iterations) else (total_iterations - 1, 1)

/-- `reciprocal_precision::<F>()`; `none` is its panic. -/
def reciprocal_precision : Option ℕ :=
  let (half_iterations, full_iterations) := F.get_iterations pointer
  if full_iterations < 1 then none
  else if F.BITS = 32 ∧ half_iterations = 2 ∧ full_iterations = 1 then some 74
  else if F.BITS = 32 ∧ half_iterations = 0 ∧ full_iterations = 3 then some 10
  else if F.BITS = 64 ∧ half_iterations = 3 ∧ full_iterations = 1 then some 220
  else if F.BITS = 128 ∧ half_iterations = 4 ∧ full_iterations = 1 then some 13922
  else none

/-- The iterations of half width that `div` does: one more for `f128`. -/
def half_iterations : ℕ :=
  let (half_iterations, _) := F.get_iterations pointer
  if F.BITS = 128 then half_iterations + 1 else half_iterations

/-- `c_hw::<F>()` -/
def c_hw : ℕ := 0x7504f333f9de6108b2fb1366eaa6a542 / 2 ^ (128 - F.BITS / 2)

/-- The iterations of half width and the decrement after them. -/
def half_reciprocal (b_uq1_hw : ℕ) : Option ℕ := do
  let hw := F.BITS / 2
  -- `debug_assert!`
  if b_uq1_hw &&& 2 ^ (hw - 1) = 0 then none
  -- the integral bit of the constant is left out, so this wraps around to the first guess
  let x_uq0_hw := Word.wrapping_sub hw F.c_hw b_uq1_hw
  let x_uq0_hw ← iterate_guess unwrapped hw b_uq1_hw (F.half_iterations pointer) x_uq0_hw
  SoftFloat.wrapping_sub unwrapped hw x_uq0_hw 1

/-- The one iteration of full width after those of half width. -/
def full_step (x_uq0_hw b_uq1 : ℕ) : Option ℕ := do
  let hw := F.BITS / 2
  let lo_mask := (2 ^ F.BITS - 1) / 2 ^ hw
  let b_uq1_hw := b_uq1 / 2 ^ hw
  let blo := b_uq1 &&& lo_mask
  let lower ← Word.shr F.BITS (← mul_word F.BITS x_uq0_hw blo) hw
  let sum ← Word.add F.BITS (← mul_word F.BITS x_uq0_hw b_uq1_hw) lower
  -- `.wrapping_sub(one).wrapping_neg()`
  let corr_uq1 := Word.wrapping_sub F.BITS 0 (Word.wrapping_sub F.BITS sum 1)
  let lo_corr := corr_uq1 &&& lo_mask
  let hi_corr ← Word.shr F.BITS corr_uq1 hw
  let upper ← shl exact F.BITS (← mul_word F.BITS x_uq0_hw hi_corr) 1
  let lower ← Word.shr F.BITS (← mul_word F.BITS x_uq0_hw lo_corr) (hw - 1)
  let x_uq0 ← wrapping_add unwrapped F.BITS upper lower
  let x_uq0 ← SoftFloat.wrapping_sub unwrapped F.BITS x_uq0 2
  checkedSub x_uq0 1

/-- The estimate of `1 / b`, after the last adjustment. -/
def reciprocal (b_uq1 : ℕ) : Option ℕ := do
  let hw := F.BITS / 2
  let (_, full_iterations) := F.get_iterations pointer
  let x_uq0 ← if 0 < F.half_iterations pointer then do
      let x_uq0_hw ← F.half_reciprocal unwrapped pointer (b_uq1 / 2 ^ hw)
      F.full_step exact unwrapped x_uq0_hw b_uq1
    else do
      let c ← Word.shl F.BITS 0x7504F333 (F.BITS - 32)
      iterate_guess unwrapped F.BITS b_uq1 full_iterations (Word.wrapping_sub F.BITS c b_uq1)
  let x_uq0 ← SoftFloat.wrapping_sub unwrapped F.BITS x_uq0 2
  checkedSub x_uq0 (← F.reciprocal_precision pointer)

/-- The estimate of the quotient, with its residual, the significand of `a` and the exponent that
it is for. -/
def estimate_quotient (x_uq0 a_significand b_significand : ℕ) (res_exponent : ℤ) :
    Option (ℕ × ℕ × ℕ × ℤ) := do
  let quotient_uq1 := x_uq0 * (← shl exact F.BITS a_significand 1) / 2 ^ F.BITS
  if quotient_uq1 < F.IMPLICIT_BIT * 2 then do
    -- cut off bits and the wrapping around leave the residual as it is
    let residual_lo := Word.wrapping_sub F.BITS
      (← Word.shl F.BITS a_significand (F.SIG_BITS + 1))
      (Word.wrapping_mul F.BITS quotient_uq1 b_significand)
    let residual_lo ← keep exact residual_lo
      ((residual_lo : ℤ) = a_significand * 2 ^ (F.SIG_BITS + 1) - quotient_uq1 * b_significand)
    let res_exponent ← sub_i32 res_exponent 1
    let a_significand ← shl exact F.BITS a_significand 1
    return (quotient_uq1, residual_lo, a_significand, res_exponent)
  else do
    let quotient_uq1 ← Word.shr F.BITS quotient_uq1 1
    let residual_lo := Word.wrapping_sub F.BITS (← Word.shl F.BITS a_significand F.SIG_BITS)
      (Word.wrapping_mul F.BITS quotient_uq1 b_significand)
    let residual_lo ← keep exact residual_lo
      ((residual_lo : ℤ) = a_significand * 2 ^ F.SIG_BITS - quotient_uq1 * b_significand)
    return (quotient_uq1, residual_lo, a_significand, res_exponent)

/-- Taking the next float as often as the residual asks for it. -/
def correct_quotient (quotient_sign b_significand abs_result residual_lo : ℕ) : Option ℕ := do
  let residual_lo ← Word.add F.BITS residual_lo (abs_result &&& 1)
  let abs_result ← Word.add F.BITS abs_result (if b_significand < residual_lo then 1 else 0)
  let abs_result ← if F.BITS = 128 ∨ F.BITS = 32 ∧ 0 < F.half_iterations pointer then do
      let bound ← mul_word F.BITS (2 + 1) b_significand
      Word.add F.BITS abs_result
        (if abs_result < F.EXP_MASK ∧ bound < residual_lo then 1 else 0)
    else some abs_result
  let abs_result ← if F.BITS = 128 then do
      let bound ← mul_word F.BITS (4 + 1) b_significand
      Word.add F.BITS abs_result
        (if abs_result < F.EXP_MASK ∧ bound < residual_lo then 1 else 0)
    else some abs_result
  return abs_result ||| quotient_sign

/-- What comes after the quotient was estimated: overflow, the exponent, denormal results,
rounding. -/
def finish_quotient (quotient_sign quotient residual_lo a_significand b_significand : ℕ)
    (res_exponent : ℤ) : Option ℕ := do
  if F.EXP_SAT ≤ res_exponent then return F.EXP_MASK ||| quotient_sign
  else if 0 < res_exponent then do
    let ret := quotient &&& F.SIG_MASK
    let ret := ret ||| (← shl exact F.BITS (cast_lossy 32 res_exponent) F.SIG_BITS)
    let residual_lo ← shl exact F.BITS residual_lo 1
    F.correct_quotient pointer quotient_sign b_significand ret residual_lo
  else if (← add_i32 F.SIG_BITS res_exponent) < 0 then return quotient_sign
  else do
    let negated ← wrapping_sub_i32 exact 0 res_exponent
    let shift ← Word.add 32 (← cast 32 negated) 1
    -- `wrapping_shr` and `wrapping_shl` take the amount modulo the width
    let shift ← keep exact (shift % F.BITS) (shift < F.BITS)
    let ret ← Word.shr F.BITS quotient shift
    let amount := Word.wrapping_add 32 F.SIG_BITS (cast_lossy 32 res_exponent)
    let amount ← keep exact (amount % F.BITS) (amount < F.BITS)
    let residual_lo := Word.wrapping_sub F.BITS (← Word.shl F.BITS a_significand amount)
      (← Word.shl F.BITS (Word.wrapping_mul F.BITS ret b_significand) 1)
    let residual_lo ← keep exact residual_lo
      ((residual_lo : ℤ) = a_significand * 2 ^ amount - ret * b_significand * 2)
    F.correct_quotient pointer quotient_sign b_significand ret residual_lo

/-- The early returns for zeros, infinities and what is not a number. -/
def div_special (a_rep b_rep : ℕ) : Option ℕ :=
  let abs_mask := F.SIGN_MASK - 1
  let inf_rep := F.EXP_MASK
  let quiet_bit := F.IMPLICIT_BIT / 2
  let qnan_rep := F.EXP_MASK ||| quiet_bit
  let quotient_sign := (a_rep ^^^ b_rep) &&& F.SIGN_MASK
  let a_abs := a_rep &&& abs_mask
  let b_abs := b_rep &&& abs_mask
  if inf_rep < a_abs then some (a_rep ||| quiet_bit)
  else if inf_rep < b_abs then some (b_rep ||| quiet_bit)
  else if a_abs = inf_rep then
    if b_abs = inf_rep then some qnan_rep else some (a_abs ||| quotient_sign)
  else if b_abs = inf_rep then some quotient_sign
  else if a_abs = 0 then
    if b_abs = 0 then some qnan_rep else some quotient_sign
  else if b_abs = 0 then some (inf_rep ||| quotient_sign)
  else none

/-- A denormal significand normalised, with the exponent adjustment. -/
def renormalize_significand (abs significand : ℕ) : Option (ℤ × ℕ) :=
  if abs < F.IMPLICIT_BIT then F.normalize exact significand else some (0, significand)

/-- The quotient of significands that are normalised but for the implicit bit. -/
def div_significands (quotient_sign a_significand b_significand : ℕ) (res_exponent : ℤ) :
    Option ℕ := do
  let a_significand := a_significand ||| F.IMPLICIT_BIT
  let b_significand := b_significand ||| F.IMPLICIT_BIT
  let b_uq1 ← shl exact F.BITS b_significand (F.BITS - F.SIG_BITS - 1)
  let x_uq0 ← F.reciprocal exact unwrapped pointer b_uq1
  let (quotient, residual_lo, a_significand, res_exponent) ←
    F.estimate_quotient exact x_uq0 a_significand b_significand res_exponent
  F.finish_quotient exact pointer quotient_sign quotient residual_lo a_significand b_significand
    res_exponent

/-- `div(a, b)`, on the bits of the floats -/
def div (a_rep b_rep : ℕ) : Option ℕ := do
  let exponent_sat ← cast F.BITS F.EXP_SAT
  let a_exponent := a_rep / 2 ^ F.SIG_BITS &&& exponent_sat
  let b_exponent := b_rep / 2 ^ F.SIG_BITS &&& exponent_sat
  let quotient_sign := (a_rep ^^^ b_rep) &&& F.SIGN_MASK
  let a_significand := a_rep &&& F.SIG_MASK
  let b_significand := b_rep &&& F.SIG_MASK
  let res_exponent ← sub_i32 (← cast_i32 a_exponent) (← cast_i32 b_exponent)
  let res_exponent ← add_i32 res_exponent (as_i32 F.EXP_BIAS)
  -- these subtractions are meant to wrap around at zero
  if exponent_sat - 1 ≤ Word.wrapping_sub F.BITS a_exponent 1 ∨
      exponent_sat - 1 ≤ Word.wrapping_sub F.BITS b_exponent 1 then
    match F.div_special a_rep b_rep with
    | some early => return early
    | none =>
      let a_abs := a_rep &&& F.SIGN_MASK - 1
      let b_abs := b_rep &&& F.SIGN_MASK - 1
      let (a_adjustment, a_significand) ← F.renormalize_significand exact a_abs a_significand
      let (b_adjustment, b_significand) ← F.renormalize_significand exact b_abs b_significand
      let res_exponent ← add_i32 res_exponent a_adjustment
      let res_exponent ← sub_i32 res_exponent b_adjustment
      F.div_significands exact unwrapped pointer quotient_sign a_significand b_significand
        res_exponent
  else
    F.div_significands exact unwrapped pointer quotient_sign a_significand b_significand
      res_exponent

end Float

end RustStd.SoftFloat
