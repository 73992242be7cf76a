import RustStd.SoftFloat.AddSpec

/-!
# Multiplication of floats

`float::mul`: what is zero, infinite or not a number is answered at once. Else the significands
are multiplied into two words, the one of `b` moved to the top of its word first, and what is in
the lower word decides the rounding.
-/

namespace RustStd.SoftFloat

open Nat

namespace Float

variable (F : Float) (exact : Bool)

/-- The early returns for zeros, infinities and what is not a number. -/
def mul_special (a_rep b_rep : ℕ) : Option ℕ :=
  let abs_mask := F.SIGN_MASK - 1
  let inf_rep := F.EXP_MASK
  let quiet_bit := F.IMPLICIT_BIT / 2
  let qnan_rep := F.EXP_MASK ||| quiet_bit
  let product_sign := (a_rep ^^^ b_rep) &&& F.SIGN_MASK
  let a_abs := a_rep &&& abs_mask
  let b_abs := b_rep &&& abs_mask
  if inf_rep < a_abs then some (a_rep ||| quiet_bit)
  else if inf_rep < b_abs then some (b_rep ||| quiet_bit)
  else if a_abs = inf_rep then
    if b_abs ≠ 0 then some (a_abs ||| product_sign) else some qnan_rep
  else if b_abs = inf_rep then
    if a_abs ≠ 0 then some (b_abs ||| product_sign) else some qnan_rep
  else if a_abs = 0 then some product_sign
  else if b_abs = 0 then some product_sign
  else none

/-- A denormal significand normalised, and the exponent adjustment added to the scale. -/
def renormalize (scale : ℤ) (abs significand : ℕ) : Option (ℤ × ℕ) := do
  if abs < F.IMPLICIT_BIT then do
    let (exponent, significand) ← F.normalize exact significand
    return (← add_i32 scale exponent, significand)
  else return (scale, significand)

/-- Inserting the sign, and the final rounding by the lower word. -/
def round_product (product_sign product_high product_low : ℕ) : Option ℕ := do
  let product_high := product_high ||| product_sign
  let product_high ← if F.SIGN_MASK < product_low then Word.add F.BITS product_high 1
    else some product_high
  if product_low = F.SIGN_MASK then Word.add F.BITS product_high (product_high &&& 1)
  else some product_high

/-- What comes after the product was normalised: overflow, denormal results, the exponent,
rounding. -/
def finish_product (product_sign : ℕ) (product_exponent : ℤ) (product_high product_low : ℕ) :
    Option ℕ := do
  if F.EXP_SAT ≤ product_exponent then return F.EXP_MASK ||| product_sign
  else if product_exponent ≤ 0 then do
    -- the cast and the subtraction wrap around, together they are the subtraction
    let shift := Word.wrapping_sub F.BITS 1 (cast_lossy F.BITS product_exponent)
    let shift ← keep exact shift ((shift : ℤ) = 1 - product_exponent)
    let shift ← cast 32 shift
    if F.BITS ≤ shift then return product_sign
    else do
      let left ← checkedSub F.BITS shift
      let sticky ← F.sticky product_low left
      let upper ← Word.shl F.BITS product_high left
      let lower ← Word.shr F.BITS product_low shift
      let product_high ← Word.shr F.BITS product_high shift
      F.round_product product_sign product_high ((upper ||| lower) ||| sticky)
  else do
    let exponent ← shl exact F.BITS (← cast F.BITS product_exponent) F.SIG_BITS
    F.round_product product_sign (product_high &&& F.SIG_MASK ||| exponent) product_low

/-- The product of the significands, normalised. -/
def mul_significands (product_sign a_exponent b_exponent : ℕ) (scale : ℤ)
    (a_significand b_significand : ℕ) : Option ℕ := do
  let a_significand := a_significand ||| F.IMPLICIT_BIT
  let b_significand := b_significand ||| F.IMPLICIT_BIT
  let product := a_significand * (← shl exact F.BITS b_significand F.EXP_BITS)
  let product_low := product % 2 ^ F.BITS
  let product_high := product / 2 ^ F.BITS
  let a_exponent_i32 ← cast_i32 a_exponent
  let b_exponent_i32 ← cast_i32 b_exponent
  let product_exponent ← wrapping_add_i32 exact a_exponent_i32 b_exponent_i32
  let product_exponent ← wrapping_add_i32 exact product_exponent scale
  let product_exponent ← wrapping_sub_i32 exact product_exponent (as_i32 F.EXP_BIAS)
  if product_high &&& F.IMPLICIT_BIT ≠ 0 then do
    let product_exponent ← wrapping_add_i32 exact product_exponent 1
    F.finish_product exact product_sign product_exponent product_high product_low
  else do
    let doubled ← shl exact F.BITS product_high 1
    let carry ← Word.shr F.BITS product_low (F.BITS - 1)
    let product_low ← Word.shl F.BITS product_low 1
    F.finish_product exact product_sign product_exponent (doubled ||| carry) product_low

/-- `mul(a, b)`, on the bits of the floats -/
def mul (a_rep b_rep : ℕ) : Option ℕ := do
  let max_exponent ← cast F.BITS F.EXP_SAT
  let a_exponent := a_rep / 2 ^ F.SIG_BITS &&& max_exponent
  let b_exponent := b_rep / 2 ^ F.SIG_BITS &&& max_exponent
  let product_sign := (a_rep ^^^ b_rep) &&& F.SIGN_MASK
  let a_significand := a_rep &&& F.SIG_MASK
  let b_significand := b_rep &&& F.SIG_MASK
  -- the subtractions are meant to wrap around at zero
  if F.EXP_SAT - 1 ≤ Word.wrapping_sub F.BITS a_exponent 1 ∨
      F.EXP_SAT - 1 ≤ Word.wrapping_sub F.BITS b_exponent 1 then
    match F.mul_special a_rep b_rep with
    | some early => return early
    | none =>
      let a_abs := a_rep &&& F.SIGN_MASK - 1
      let b_abs := b_rep &&& F.SIGN_MASK - 1
      let (scale, a_significand) ← F.renormalize exact 0 a_abs a_significand
      let (scale, b_significand) ← F.renormalize exact scale b_abs b_significand
      F.mul_significands exact product_sign a_exponent b_exponent scale a_significand b_significand
  else
    F.mul_significands exact product_sign a_exponent b_exponent 0 a_significand b_significand

/-! ### Rounding -/

variable {F} {exact}

open BinaryFormat (rounded)

theorem round_product_eq (negative : Bool) {high low : ℕ} (h : high + 1 ≤ F.format.infinity) :
    F.round_product (negative.toNat * 2 ^ (F.BITS - 1)) high low =
      some (rounded high (cmp low (2 ^ (F.BITS - 1))) + negative.toNat * 2 ^ (F.BITS - 1)) := by
  have hinf := F.infinity_lt
  unfold round_product
  simp only [Word.or_eq_add (show high < 2 ^ (F.BITS - 1) by lia)]
  exact round_steps_eq negative _ _ h

/-- A lower word below the significand, its last bit sticky, is enough to round. -/
theorem nearest_of_words {X : ℚ} {E high low : ℕ} (hE : 1 ≤ E) (hsat : E < F.EXP_SAT)
    (hhigh : high < 2 ^ (F.SIG_BITS + 1)) (hn : E = 1 ∨ 2 ^ F.SIG_BITS ≤ high)
    (hlow : low < 2 ^ F.BITS)
    (h : GridAgrees 2 (high * 2 ^ F.BITS + low : ℕ) (X / 2 ^ (E - 1) * 2 ^ F.BITS)) :
    F.format.Nearest X (rounded ((E - 1) * 2 ^ F.SIG_BITS + high)
      (cmp low (2 ^ (F.BITS - 1)))) := by
  obtain ⟨c, hc⟩ : ∃ c, F.BITS = c + 2 := by
    have hbits := F.bits_eq
    have hsig := F.sig_bits_bounds
    exact ⟨F.BITS - 2, by lia⟩
  rw [hc] at hlow h ⊢
  have hpow : (0 : ℚ) < 2 ^ (c + 2) := by positivity
  have hcmp : cmp low (2 ^ (c + 2 - 1)) = cmp (X / 2 ^ (E - 1)) (high + 1 / 2) := by
    have hmiddle : (2 * ((2 * high + 1) * 2 ^ c : ℤ) : ℚ) =
        (high * 2 ^ (c + 2) + 2 ^ (c + 2 - 1) : ℕ) := by
      push_cast
      ring
    have hscale : cmp (X / 2 ^ (E - 1)) (high + 1 / 2) = cmp (X / 2 ^ (E - 1) * 2 ^ (c + 2))
        (2 * ((2 * high + 1) * 2 ^ c : ℤ)) := by
      rw [← cmp_mul_pos_right hpow]
      congr 1
      push_cast
      ring
    have hagree := h.cmp_eq ((2 * high + 1) * 2 ^ c)
    rw [hscale, ← hagree, hmiddle,
      (strictMono_cast : StrictMono (Nat.cast : ℕ → ℚ)).cmp_map_eq, cmp_add_left]
  rw [hcmp]
  refine BinaryFormat.nearest_significand hE hsat hhigh hn ?_ ?_
  · have hle := (h.le_iff (high * 2 ^ (c + 1))).1 (by
      push_cast
      rw [show (2 : ℚ) * (high * 2 ^ (c + 1)) = high * 2 ^ (c + 2) by ring]
      exact le_add_of_nonneg_right (cast_nonneg _))
    push_cast at hle
    rw [show (2 : ℚ) * (high * 2 ^ (c + 1)) = high * 2 ^ (c + 2) by ring] at hle
    exact le_of_mul_le_mul_right hle hpow
  · have hlow' : (low : ℚ) < 2 ^ (c + 2) := by exact_mod_cast hlow
    have hlt := (h.lt_iff ((high + 1) * 2 ^ (c + 1))).1 (by
      push_cast
      rw [show (2 : ℚ) * ((high + 1) * 2 ^ (c + 1)) = high * 2 ^ (c + 2) + 2 ^ (c + 2) by ring]
      exact add_lt_add_right hlow' _)
    push_cast at hlt
    rw [show (2 : ℚ) * ((high + 1) * 2 ^ (c + 1)) = (high + 1) * 2 ^ (c + 2) by ring] at hlt
    exact lt_of_mul_lt_mul_right hlt hpow.le

/-- The cast and the subtraction that both wrap around. -/
theorem wrapping_sub_cast_lossy {w n : ℕ} (hn : n + 1 < 2 ^ w) :
    Word.wrapping_sub w 1 (cast_lossy w (-n)) = n + 1 := by
  have hcast : ((2 ^ w : ℕ) : ℤ) = 2 ^ w := by push_cast; rfl
  rcases Nat.eq_zero_or_pos n with rfl | hpos
  · have hzero : cast_lossy w (-(0 : ℕ)) = 0 := by simp [cast_lossy]
    rw [hzero, Word.wrapping_sub_of_le hn (zero_le _)]
  · have hlossy : cast_lossy w (-n) = 2 ^ w - n := by
      unfold cast_lossy
      rw [← Int.add_emod_right, ← hcast, Int.emod_eq_of_lt (by lia) (by lia)]
      lia
    rw [hlossy, Word.wrapping_sub_of_lt (by lia) (by lia)]
    lia

/-- Two words shifted to the right, with what is cut off in the sticky bit. -/
theorem shifted_words (high : ℕ) {low n : ℕ} (hlow : low < 2 ^ F.BITS) (hn : n ≤ F.BITS) :
    (high * 2 ^ F.BITS + low) / 2 ^ n =
        high / 2 ^ n * 2 ^ F.BITS + (high % 2 ^ n * 2 ^ (F.BITS - n) + low / 2 ^ n) ∧
      (high * 2 ^ F.BITS + low) % 2 ^ n = low % 2 ^ n ∧
      high % 2 ^ n * 2 ^ (F.BITS - n) + low / 2 ^ n < 2 ^ F.BITS := by
  obtain ⟨c, hc⟩ := Nat.exists_eq_add_of_le' hn
  rw [hc] at hlow ⊢
  have hpos := Nat.two_pow_pos n
  have hdiv : low / 2 ^ n < 2 ^ c := Nat.div_lt_of_lt_mul (by rwa [← pow_add, Nat.add_comm])
  have hmod := mod_lt high hpos
  have hsplit := div_add_mod' high (2 ^ n)
  have hsum : high * 2 ^ (c + n) + low = low + high * 2 ^ c * 2 ^ n := by ring
  rw [Nat.add_sub_cancel, hsum, add_mul_div_right _ _ hpos, add_mul_mod_self_right]
  refine ⟨?_, rfl, ?_⟩
  · conv_lhs => rw [← hsplit]
    ring
  · calc high % 2 ^ n * 2 ^ c + low / 2 ^ n < (high % 2 ^ n + 1) * 2 ^ c := by
          rw [Nat.add_mul, Nat.one_mul]
          exact Nat.add_lt_add_left hdiv _
      _ ≤ 2 ^ n * 2 ^ c := Nat.mul_le_mul_right _ hmod
      _ = 2 ^ (c + n) := by rw [← pow_add, Nat.add_comm]

/-- From the normalised product to the result: the magnitude that the exact product is rounded to,
under the sign. -/
theorem finish_product_spec (exact negative : Bool) {E : ℤ} {high low : ℕ} {X : ℚ}
    (hlow : 2 ^ F.SIG_BITS ≤ high) (hup : high < 2 ^ (F.SIG_BITS + 1)) (hword : low < 2 ^ F.BITS)
    (hmin : 2 - 2 ^ F.BITS ≤ E) (hmin' : -2 ^ 31 ≤ E)
    (hX : X / 2 ^ (E - 1) * 2 ^ F.BITS = (high * 2 ^ F.BITS + low : ℕ)) :
    ∃ r, F.finish_product exact (negative.toNat * 2 ^ (F.BITS - 1)) E high low =
      some (r + negative.toNat * 2 ^ (F.BITS - 1)) ∧ F.format.Nearest X r := by
  have hbits := F.bits_eq
  have hexp := F.exp_bits_bounds
  have hbits16 := F.two_pow_le_bits
  have hsat := F.format.saturated_pos
  have hsat' := F.exp_sat_lt.1
  rw [format_saturated] at hsat
  have hpow : (0 : ℚ) < 2 ^ F.BITS := by positivity
  have hinf := F.infinity_lt
  have hinf_eq : F.format.infinity = F.EXP_SAT * 2 ^ F.SIG_BITS := rfl
  unfold finish_product
  split_ifs with hover hden
  · refine ⟨F.format.infinity, ?_, BinaryFormat.Nearest.infinity ?_⟩
    · rw [infinity_eq, Option.pure_def, Word.or_eq_add (by rw [← infinity_eq]; exact infinity_lt)]
    have hhigh : (2 : ℚ) ^ F.SIG_BITS ≤ X / 2 ^ (E - 1) := by
      refine le_of_mul_le_mul_right ?_ hpow
      rw [hX]
      exact_mod_cast (Nat.mul_le_mul_right _ hlow).trans (Nat.le_add_right _ _)
    have hexponent : (2 : ℚ) ^ (2 * F.EXP_BIAS) ≤ 2 ^ (E - 1) := by
      rw [← zpow_natCast]
      refine zpow_le_zpow_right₀ one_le_two ?_
      have hsat_eq := F.exp_sat_eq
      lia
    rw [le_div_iff₀ (by positivity)] at hhigh
    rw [BinaryFormat.scaled_infinity, format_fraction_bits, format_bias]
    push_cast
    exact (mul_le_mul_of_nonneg_left hexponent (by positivity)).trans hhigh
  · obtain ⟨n, hn⟩ := Int.eq_ofNat_of_zero_le (show 0 ≤ -E by lia)
    obtain rfl : E = -n := by lia
    have hX' : X / 2 ^ (1 - 1) * 2 ^ F.BITS = (high * 2 ^ F.BITS + low : ℕ) / 2 ^ (n + 1) := by
      rw [← hX, show -(n : ℤ) - 1 = -((n + 1 : ℕ) : ℤ) by push_cast; ring, zpow_neg, zpow_natCast]
      field_simp
      norm_num
    have hshift := wrapping_sub_cast_lossy (w := F.BITS) (n := n) (by lia)
    have hkeep : keep exact (n + 1) (((n + 1 : ℕ) : ℤ) = 1 - -(n : ℤ)) = some (n + 1) :=
      keep_eq (by lia)
    have hamount : cast 32 (n + 1 : ℕ) = some (n + 1) := cast_eq (by lia)
    rw [hshift]
    dsimp only
    rw [hkeep, some_bind, hamount, some_bind]
    split_ifs with hfar
    · refine ⟨0, by rw [Nat.zero_add, Option.pure_def], ?_⟩
      have hZ : ((high * 2 ^ F.BITS + low : ℕ) : ℚ) < 2 ^ (F.SIG_BITS + 1) * 2 ^ F.BITS := by
        have hlt : high * 2 ^ F.BITS + low < (high + 1) * 2 ^ F.BITS := by
          rw [Nat.add_mul, Nat.one_mul]
          exact Nat.add_lt_add_left hword _
        exact_mod_cast hlt.trans_le (Nat.mul_le_mul_right _ hup)
      have hhalf : X / 2 ^ (1 - 1) < 1 / 2 := by
        refine lt_of_mul_lt_mul_right ?_ hpow.le
        rw [hX', div_lt_iff₀ (by positivity)]
        have hle : (2 : ℚ) ^ (F.SIG_BITS + 1) ≤ 1 / 2 * 2 ^ (n + 1) := by
          rw [pow_succ _ n, ← mul_assoc, mul_comm (1 / 2 : ℚ), mul_assoc,
            one_div_mul_cancel two_ne_zero, mul_one]
          exact pow_le_pow_right₀ one_le_two (by lia)
        have hmul := mul_le_mul_of_nonneg_right hle hpow.le
        linarith
      have hnn : 0 ≤ X / 2 ^ (1 - 1) := by
        refine le_of_mul_le_mul_right ?_ hpow
        rw [hX', zero_mul]
        positivity
      have hround := F.format.nearest_significand (X := X) (E := 1) (t := 0) le_rfl
        (by rw [format_saturated]; exact hsat) (Nat.two_pow_pos _) (Or.inl rfl)
        (by rw [cast_zero]; exact hnn) (by rw [cast_zero]; linarith)
      rwa [cast_zero, zero_add, (cmp_eq_lt_iff _ _).2 hhalf, rounded, Nat.add_zero,
        Nat.sub_self, Nat.zero_mul] at hround
    · obtain ⟨hdiv, hmod, hL⟩ := shifted_words high hword (show n + 1 ≤ F.BITS by lia)
      have hsticky := agrees_sticky (high * 2 ^ F.BITS + low) (n + 1)
      rw [hdiv, hmod, ← hX', ← Word.or_eq_add' hL, Nat.or_assoc] at hsticky
      have hbit : (if low % 2 ^ (n + 1) ≠ 0 then 1 else 0) < 2 ^ F.BITS :=
        lt_of_le_of_lt (by split <;> lia) (Nat.one_lt_two_pow (by lia))
      have hupper : Word.shl F.BITS high (F.BITS - (n + 1)) =
          some (high % 2 ^ (n + 1) * 2 ^ (F.BITS - (n + 1))) := by
        rw [Word.shl, if_pos (by lia), shl_complement high (by lia)]
      have hlower : low / 2 ^ (n + 1) < 2 ^ (F.BITS - (n + 1)) := by
        refine Nat.div_lt_of_lt_mul ?_
        rwa [← pow_add, add_sub_of_le (by lia)]
      have hhigh : high / 2 ^ (n + 1) < 2 ^ F.SIG_BITS := by
        refine Nat.div_lt_of_lt_mul (hup.trans_le ?_)
        rw [← pow_add]
        exact Nat.pow_le_pow_right Nat.two_pos (by lia)
      have hbase : high / 2 ^ (n + 1) + 1 ≤ F.format.infinity := by
        have hmul := Nat.mul_le_mul_right (2 ^ F.SIG_BITS) hsat
        lia
      rw [checkedSub_eq (by lia), some_bind, sticky_eq low n.succ_ne_zero (by lia),
        some_bind, hupper, some_bind, Word.shr_eq (by lia), some_bind,
        Word.shr_eq (by lia), some_bind, Word.or_eq_add' hlower]
      have hlow' := or_lt_two_pow hL hbit
      rw [Word.or_eq_add' hlow'] at hsticky
      have hnearest := nearest_of_words le_rfl hsat (hhigh.trans (Nat.pow_lt_pow_right
        (by decide) (lt_succ_self _))) (Or.inl rfl) hlow' hsticky
      rw [Nat.sub_self, Nat.zero_mul, Nat.zero_add] at hnearest
      exact ⟨_, round_product_eq negative hbase, hnearest⟩
  · obtain ⟨e, rfl⟩ := Int.eq_ofNat_of_zero_le (show 0 ≤ E by lia)
    obtain ⟨k, rfl⟩ := exists_eq_succ_of_ne_zero (show e ≠ 0 by lia)
    have hagrees : GridAgrees 2 (high * 2 ^ F.BITS + low : ℕ)
        (X / 2 ^ (k + 1 - 1) * 2 ^ F.BITS) := by
      rw [← hX, succ_eq_add_one, cast_succ, add_sub_cancel_right, zpow_natCast, Nat.add_sub_cancel]
      exact GridAgrees.refl _ _
    have hle : (k + 1 + 1) * 2 ^ F.SIG_BITS ≤ F.EXP_SAT * 2 ^ F.SIG_BITS :=
      Nat.mul_le_mul_right _ (by lia)
    rw [Nat.add_mul, Nat.one_mul, Nat.add_mul, Nat.one_mul] at hle
    rw [pow_succ] at hup
    have hexponent : shl exact F.BITS (k + 1) F.SIG_BITS = some ((k + 1) * 2 ^ F.SIG_BITS) := by
      refine shl_eq (by lia) ?_
      rw [Nat.add_mul, Nat.one_mul]
      exact (show k * 2 ^ F.SIG_BITS + 2 ^ F.SIG_BITS < 2 ^ (F.BITS - 1) by lia).trans
        (Nat.pow_lt_pow_right (by decide) (by lia))
    have hmasked : high &&& F.SIG_MASK ||| (k + 1) * 2 ^ F.SIG_BITS =
        k * 2 ^ F.SIG_BITS + high := by
      obtain ⟨f, rfl⟩ := Nat.exists_eq_add_of_le hlow
      rw [and_sig_mask, BinaryFormat.fraction, format_fraction_bits, add_mod_left,
        mod_eq_of_lt (by lia), Word.or_eq_add (by lia), Nat.add_mul]
      lia
    rw [cast_eq (show k.succ < 2 ^ F.BITS by lia), some_bind,
      succ_eq_add_one, hexponent, some_bind, hmasked]
    refine ⟨_, round_product_eq negative (by lia), ?_⟩
    exact nearest_of_words k.succ_pos (by lia) (by rw [pow_succ]; exact hup) (Or.inr hlow) hword
      hagrees

/-! ### The product of the significands -/

/-- Two words doubled. -/
theorem doubled_words (high : ℕ) {w low : ℕ} (hw : w ≠ 0) (hlow : low < 2 ^ w) :
    (high * 2 ^ 1 ||| low / 2 ^ (w - 1)) * 2 ^ w + low * 2 ^ 1 % 2 ^ w =
      2 * (high * 2 ^ w + low) := by
  obtain ⟨c, rfl⟩ := exists_eq_succ_of_ne_zero hw
  rw [succ_eq_add_one, Nat.add_sub_cancel]
  have hdiv : low / 2 ^ c < 2 ^ 1 := Nat.div_lt_of_lt_mul (by rwa [← pow_add])
  have hmod : low * 2 ^ 1 % 2 ^ (c + 1) = low % 2 ^ c * 2 ^ 1 := by
    rw [pow_add]
    exact mul_mod_mul_right _ _ _
  have hsplit := div_add_mod' low (2 ^ c)
  rw [Word.or_eq_add' hdiv, hmod, pow_succ]
  conv_rhs => rw [← hsplit]
  ring

/-- The product of two normalised significands, rounded to the nearest float. -/
theorem mul_significands_spec (exact negative : Bool) {e_a e_b : ℕ} {scale : ℤ} {S T M N : ℕ}
    {X : ℚ} (hM : S ||| F.IMPLICIT_BIT = M) (hN : T ||| F.IMPLICIT_BIT = N)
    (hlM : 2 ^ F.SIG_BITS ≤ M) (huM : M < 2 ^ (F.SIG_BITS + 1))
    (hlN : 2 ^ F.SIG_BITS ≤ N) (huN : N < 2 ^ (F.SIG_BITS + 1))
    (ha : e_a < F.EXP_SAT) (hb : e_b < F.EXP_SAT)
    (hmin : 2 - 2 * F.SIG_BITS ≤ e_a + e_b + scale) (hmax : e_a + e_b + scale < 2 * F.EXP_SAT)
    (hX : X = M * N * 2 ^ (e_a + e_b + scale - F.EXP_BIAS - 1 - F.SIG_BITS)) :
    ∃ r, F.mul_significands exact (negative.toNat * 2 ^ (F.BITS - 1)) e_a e_b scale S T =
      some (r + negative.toNat * 2 ^ (F.BITS - 1)) ∧ F.format.Nearest X r := by
  have hbits := F.bits_eq
  have hsig := F.sig_bits_bounds
  have hsat := F.exp_sat_lt
  have hsat_eq := F.exp_sat_eq
  have hshl : shl exact F.BITS N F.EXP_BITS = some (N * 2 ^ F.EXP_BITS) := by
    refine shl_eq (by lia) ?_
    rw [hbits, show F.SIG_BITS + F.EXP_BITS + 1 = F.SIG_BITS + 1 + F.EXP_BITS by ring,
      pow_add _ (F.SIG_BITS + 1)]
    exact Nat.mul_lt_mul_of_pos_right huN (Nat.two_pow_pos _)
  have hcast_a : cast_i32 (e_a : ℤ) = some (e_a : ℤ) := cast_i32_eq ⟨by lia, by lia⟩
  have hcast_b : cast_i32 (e_b : ℤ) = some (e_b : ℤ) := cast_i32_eq ⟨by lia, by lia⟩
  have hadd : wrapping_add_i32 exact (e_a : ℤ) e_b = some ((e_a : ℤ) + e_b) :=
    wrapping_add_i32_eq ⟨by lia, by lia⟩
  have hscale : wrapping_add_i32 exact ((e_a : ℤ) + e_b) scale = some ((e_a : ℤ) + e_b + scale) :=
    wrapping_add_i32_eq ⟨by lia, by lia⟩
  have hsub : wrapping_sub_i32 exact ((e_a : ℤ) + e_b + scale) F.EXP_BIAS =
      some ((e_a : ℤ) + e_b + scale - F.EXP_BIAS) :=
    wrapping_sub_i32_eq ⟨by lia, by lia⟩
  have hmin' : 2 - 2 ^ F.BITS ≤ (e_a : ℤ) + e_b + scale - F.EXP_BIAS := by lia
  have hrange : is_i32 ((e_a : ℤ) + e_b + scale - F.EXP_BIAS + 1) := ⟨by lia, by lia⟩
  have hmin31 : -2 ^ 31 ≤ (e_a : ℤ) + e_b + scale - F.EXP_BIAS := by lia
  -- the product as two words
  have hproduct : (X / 2 ^ ((e_a : ℤ) + e_b + scale - F.EXP_BIAS)) * 2 ^ F.BITS =
      (M * (N * 2 ^ F.EXP_BITS) : ℕ) := by
    rw [hX, zpow_sub₀ two_ne_zero, zpow_sub₀ two_ne_zero _ 1, zpow_natCast, zpow_one, hbits,
      pow_succ, pow_add]
    push_cast
    field_simp
  have hlP : 2 ^ (F.SIG_BITS - 1) * 2 ^ F.BITS ≤ M * (N * 2 ^ F.EXP_BITS) := by
    calc 2 ^ (F.SIG_BITS - 1) * 2 ^ F.BITS
        = 2 ^ F.SIG_BITS * (2 ^ F.SIG_BITS * 2 ^ F.EXP_BITS) := by
          rw [← pow_add, ← pow_add, ← pow_add, show F.SIG_BITS - 1 + F.BITS =
            F.SIG_BITS + (F.SIG_BITS + F.EXP_BITS) by lia]
      _ ≤ M * (N * 2 ^ F.EXP_BITS) := Nat.mul_le_mul hlM (Nat.mul_le_mul_right _ hlN)
  have huP : M * (N * 2 ^ F.EXP_BITS) < 2 ^ (F.SIG_BITS + 1) * 2 ^ F.BITS := by
    calc M * (N * 2 ^ F.EXP_BITS)
        < 2 ^ (F.SIG_BITS + 1) * (2 ^ (F.SIG_BITS + 1) * 2 ^ F.EXP_BITS) := by
          refine Nat.mul_lt_mul_of_lt_of_le huM (Nat.mul_le_mul_right _ huN.le) ?_
          exact Nat.mul_pos (Nat.two_pow_pos _) (Nat.two_pow_pos _)
      _ = 2 ^ (F.SIG_BITS + 1) * 2 ^ F.BITS := by
          rw [← pow_add, hbits, show F.SIG_BITS + 1 + F.EXP_BITS = F.SIG_BITS + F.EXP_BITS + 1 by
            lia]
  have hbias : as_i32 F.EXP_BIAS = F.EXP_BIAS := as_i32_eq ⟨by lia, by lia⟩
  unfold mul_significands
  simp only [hM, hN, hshl, hcast_a, hcast_b, hadd, hscale, hbias, hsub, some_bind]
  generalize M * (N * 2 ^ F.EXP_BITS) = P at *
  generalize (e_a : ℤ) + e_b + scale - F.EXP_BIAS = E at *
  have hpos := Nat.two_pow_pos F.BITS
  have hlow : P % 2 ^ F.BITS < 2 ^ F.BITS := mod_lt _ hpos
  have hsplit := div_add_mod' P (2 ^ F.BITS)
  have hhigh : P / 2 ^ F.BITS < 2 ^ (F.SIG_BITS + 1) := (Nat.div_lt_iff_lt_mul hpos).2 huP
  have hhigh' : 2 ^ (F.SIG_BITS - 1) ≤ P / 2 ^ F.BITS := (Nat.le_div_iff_mul_le hpos).2 hlP
  generalize P / 2 ^ F.BITS = high at *
  generalize P % 2 ^ F.BITS = low at *
  have hbit : high &&& F.IMPLICIT_BIT ≠ 0 ↔ 2 ^ F.SIG_BITS ≤ high :=
    Word.and_two_pow_ne_zero_iff hhigh
  by_cases hcarry : high &&& F.IMPLICIT_BIT ≠ 0
  · rw [if_pos hcarry, wrapping_add_i32_eq hrange, some_bind]
    refine finish_product_spec exact negative (hbit.1 hcarry) hhigh hlow (by lia) (by lia) ?_
    rw [add_sub_cancel_right, hproduct, hsplit]
  have hlt : high < 2 ^ F.SIG_BITS := Nat.lt_of_not_le fun hle => hcarry (hbit.2 hle)
  have hsig_pow : 2 ^ F.SIG_BITS = 2 ^ (F.SIG_BITS - 1) * 2 := by
    rw [← pow_succ, Nat.sub_add_cancel (by lia)]
  have hdouble : shl exact F.BITS high 1 = some (high * 2 ^ 1) := by
    refine shl_eq (by lia) ?_
    calc high * 2 ^ 1 < 2 ^ F.SIG_BITS * 2 ^ 1 := Nat.mul_lt_mul_of_pos_right hlt Nat.two_pos
      _ ≤ 2 ^ F.BITS := by
        rw [← pow_add]
        exact Nat.pow_le_pow_right Nat.two_pos (by lia)
  have hcarry_lt : low / 2 ^ (F.BITS - 1) < 2 ^ 1 := by
    refine Nat.div_lt_of_lt_mul ?_
    rwa [← pow_add, Nat.sub_add_cancel (by lia)]
  have hwords := doubled_words high (w := F.BITS) (by lia) hlow
  have hshl1 : Word.shl F.BITS low 1 = some (low * 2 ^ 1 % 2 ^ F.BITS) := if_pos (by lia)
  rw [if_neg hcarry, hdouble, some_bind, Word.shr_eq (by lia), some_bind, hshl1,
    some_bind]
  refine finish_product_spec exact negative ?_ ?_ (mod_lt _ hpos) hmin' hmin31 ?_
  · exact le_trans (by lia) left_le_or
  · rw [Word.or_eq_add' hcarry_lt, pow_succ]
    lia
  · rw [hwords, hsplit, zpow_sub₀ two_ne_zero, zpow_one, cast_mul, ← hproduct]
    push_cast
    field_simp

end Float

end RustStd.SoftFloat
