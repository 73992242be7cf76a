import RustStd.SoftFloat.Float
import RustStd.Foundations.Sticky

/-!
# Addition of floats

`float::add`: what is zero, infinite or not a number is answered at once. Else the significands
are aligned with three bits below them for rounding, the last of them sticky, and added or
subtracted; the result is normalised and rounded.
-/

namespace RustStd.SoftFloat

open Nat Word

namespace Float

variable (F : Float) (exact : Bool)

/-- The early returns for zeros, infinities and what is not a number. -/
def add_special (a_rep b_rep : ℕ) : Option ℕ :=
  let abs_mask := F.SIGN_MASK - 1
  let inf_rep := F.EXP_MASK
  let quiet_bit := F.IMPLICIT_BIT / 2
  let qnan_rep := F.EXP_MASK ||| quiet_bit
  let a_abs := a_rep &&& abs_mask
  let b_abs := b_rep &&& abs_mask
  -- the subtractions are meant to wrap around at zero
  if inf_rep - 1 ≤ Word.wrapping_sub F.BITS a_abs 1 ∨
      inf_rep - 1 ≤ Word.wrapping_sub F.BITS b_abs 1 then
    if inf_rep < a_abs then some (a_abs ||| quiet_bit)
    else if inf_rep < b_abs then some (b_abs ||| quiet_bit)
    else if a_abs = inf_rep then
      if a_rep ^^^ b_rep = F.SIGN_MASK then some qnan_rep else some a_rep
    else if b_abs = inf_rep then some b_rep
    else if a_abs = 0 then
      if b_abs = 0 then some (a_rep &&& b_rep) else some b_rep
    else if b_abs = 0 then some a_rep
    else none
  else none

/-- The exponent and the significand of an operand, a denormal one normalised. -/
def operand (rep : ℕ) : Option (ℤ × ℕ) := do
  let exponent ← cast_i32 ((rep &&& F.EXP_MASK) / 2 ^ F.SIG_BITS : ℕ)
  let significand := rep &&& F.SIG_MASK
  if exponent = 0 then F.normalize exact significand else some (exponent, significand)

/-- The significand of `b` shifted by the difference of the exponents, with a sticky bottom bit. -/
def align_significand (b_significand align : ℕ) : Option ℕ := do
  if align ≠ 0 then
    if align < F.BITS then do
      let shift ← SoftFloat.wrapping_sub exact F.BITS F.BITS align
      let sticky ← F.sticky b_significand (← cast 32 shift)
      let b_significand ← Word.shr F.BITS b_significand (← cast 32 align)
      return b_significand ||| sticky
    else return 1
  else return b_significand

/-- Inserting the exponent and the sign, and the final rounding by the low three bits. -/
def round_significand (result_sign : ℕ) (a_exponent : ℤ) (a_significand : ℕ) : Option ℕ := do
  -- only the low bits are read of what is cast into `i32`
  let round_guard_sticky := Word.truncate 32 a_significand &&& 0x7
  let result ← Word.shr F.BITS a_significand 3
  let exponent ← shl exact F.BITS (← cast F.BITS a_exponent) F.SIG_BITS
  let result := (result &&& F.SIG_MASK ||| exponent) ||| result_sign
  let result ← if 0x4 < round_guard_sticky then Word.add F.BITS result 1 else some result
  if round_guard_sticky = 0x4 then Word.add F.BITS result (result &&& 1) else some result

/-- What comes after the significands were added: overflow, denormal results, rounding. -/
def finish_significand (result_sign : ℕ) (a_exponent : ℤ) (a_significand : ℕ) : Option ℕ := do
  if F.EXP_SAT ≤ a_exponent then return F.EXP_MASK ||| result_sign
  else if a_exponent ≤ 0 then do
    let shift ← cast F.BITS (← sub_i32 1 a_exponent)
    let left ← SoftFloat.wrapping_sub exact F.BITS F.BITS shift
    let sticky ← F.sticky a_significand (← cast 32 left)
    let a_significand ← Word.shr F.BITS a_significand (← cast 32 shift)
    F.round_significand exact result_sign 0 (a_significand ||| sticky)
  else F.round_significand exact result_sign a_exponent a_significand

/-- The significands subtracted. -/
def subtract_significands (result_sign : ℕ) (a_exponent : ℤ) (a_significand b_significand : ℕ) :
    Option ℕ := do
  let a_significand ← SoftFloat.wrapping_sub exact F.BITS a_significand b_significand
  if a_significand = 0 then return 0
  else if a_significand < F.IMPLICIT_BIT * 2 ^ 3 then do
    let shift ← sub_i32 (Word.leading_zeros F.BITS a_significand)
      (Word.leading_zeros F.BITS (F.IMPLICIT_BIT * 2 ^ 3))
    let a_significand ← shl exact F.BITS a_significand (← cast 32 shift)
    F.finish_significand exact result_sign (← sub_i32 a_exponent shift) a_significand
  else F.finish_significand exact result_sign a_exponent a_significand

/-- The significands added. -/
def add_significands (result_sign : ℕ) (a_exponent : ℤ) (a_significand b_significand : ℕ) :
    Option ℕ := do
  let a_significand ← Word.add F.BITS a_significand b_significand
  if a_significand &&& F.IMPLICIT_BIT * 2 ^ 4 ≠ 0 then do
    let sticky := if a_significand &&& 1 ≠ 0 then 1 else 0
    let a_significand ← Word.shr F.BITS a_significand 1
    F.finish_significand exact result_sign (← add_i32 a_exponent 1) (a_significand ||| sticky)
  else F.finish_significand exact result_sign a_exponent a_significand

/-- The sum of operands neither of which is zero, infinite or not a number, that of the larger
magnitude first. -/
def add_ordered (a_rep b_rep : ℕ) : Option ℕ := do
  let (a_exponent, a_significand) ← F.operand exact a_rep
  let (b_exponent, b_significand) ← F.operand exact b_rep
  let result_sign := a_rep &&& F.SIGN_MASK
  let a_significand ← shl exact F.BITS (a_significand ||| F.IMPLICIT_BIT) 3
  let b_significand ← shl exact F.BITS (b_significand ||| F.IMPLICIT_BIT) 3
  let align ← cast F.BITS (← wrapping_sub_i32 exact a_exponent b_exponent)
  let b_significand ← F.align_significand exact b_significand align
  if (a_rep ^^^ b_rep) &&& F.SIGN_MASK ≠ 0 then
    F.subtract_significands exact result_sign a_exponent a_significand b_significand
  else F.add_significands exact result_sign a_exponent a_significand b_significand

/-- `add(a, b)`, on the bits of the floats -/
def add (a b : ℕ) : Option ℕ :=
  match F.add_special a b with
  | some early => some early
  | none =>
    let a_abs := a &&& F.SIGN_MASK - 1
    let b_abs := b &&& F.SIGN_MASK - 1
    if a_abs < b_abs then F.add_ordered exact b a else F.add_ordered exact a b

/-! ### Rounding -/

variable {F} {exact}

open BinaryFormat (rounded)

theorem truncate_and_seven (x : ℕ) : truncate 32 x &&& 0x7 = x % 2 ^ 3 := by
  have hmask := and_two_pow_sub_one_eq_mod (x % 2 ^ 32) 3
  rw [truncate, show (0x7 : ℕ) = 2 ^ 3 - 1 by decide, hmask]
  exact mod_mod_of_dvd x (by decide)

/-- The significand and the exponent put side by side are rounded as one number. -/
theorem round_significand_eq (negative : Bool) {e S base : ℕ} (he : e < F.EXP_SAT)
    (hbase : S / 2 ^ 3 % 2 ^ F.SIG_BITS + e * 2 ^ F.SIG_BITS = base) :
    F.round_significand exact (negative.toNat * 2 ^ (F.BITS - 1)) e S =
      some (rounded base (cmp (S % 2 ^ 3) 4) + negative.toNat * 2 ^ (F.BITS - 1)) := by
  have hbits := F.bits_eq
  have hexp := F.exp_bits_bounds
  have hsat := F.exp_sat_lt.1
  have hword := F.two_pow_le_bits
  have hsucc : base + 1 ≤ F.format.infinity := by
    have hle : (e + 1) * 2 ^ F.SIG_BITS ≤ F.EXP_SAT * 2 ^ F.SIG_BITS := Nat.mul_le_mul_right _ he
    rw [Nat.add_mul, Nat.one_mul] at hle
    unfold BinaryFormat.infinity
    rw [format_fraction_bits, format_saturated]
    omega
  have hinf := F.infinity_lt
  have hexponent : shl exact F.BITS e F.SIG_BITS = some (e * 2 ^ F.SIG_BITS) :=
    shl_eq (by omega) ((show e * 2 ^ F.SIG_BITS < 2 ^ (F.BITS - 1) by omega).trans
      (Nat.pow_lt_pow_right (by decide) (by omega)))
  have hresult : (S / 2 ^ 3 &&& F.SIG_MASK ||| e * 2 ^ F.SIG_BITS) |||
      negative.toNat * 2 ^ (F.BITS - 1) = base + negative.toNat * 2 ^ (F.BITS - 1) := by
    rw [and_sig_mask, BinaryFormat.fraction, format_fraction_bits,
      or_eq_add (mod_lt _ (Nat.two_pow_pos _)), hbase, or_eq_add (by omega)]
  have hround := round_steps_eq negative (S % 2 ^ 3) 4 hsucc
  unfold round_significand
  rw [truncate_and_seven, shr_eq (by omega), cast_eq (by omega)]
  simp only [some_bind, hexponent, hresult] at hround ⊢
  exact hround

variable {X : ℚ}

/-- Three digits below the significand, the last of them sticky, are enough to round. -/
theorem nearest_of_agrees {E S : ℕ} (hE : 1 ≤ E) (hsat : E < F.EXP_SAT)
    (hS : S < 2 ^ (F.SIG_BITS + 4)) (hn : E = 1 ∨ 2 ^ (F.SIG_BITS + 3) ≤ S)
    (h : GridAgrees 4 S (8 * X / 2 ^ (E - 1))) :
    F.format.Nearest X (rounded ((E - 1) * 2 ^ F.SIG_BITS + S / 2 ^ 3) (cmp (S % 2 ^ 3) 4)) := by
  have hdiv := div_add_mod S (2 ^ 3)
  have hg := mod_lt S (show 0 < 2 ^ 3 by decide)
  generalize S / 2 ^ 3 = t at hdiv ⊢
  generalize S % 2 ^ 3 = g at hdiv hg ⊢
  have hcast : (S : ℚ) = 8 * t + g := by
    rw [← hdiv]
    push_cast
    ring
  have hcmp : cmp g 4 = cmp (X / 2 ^ (E - 1)) (t + 1 / 2) := by
    have hscale : cmp (X / 2 ^ (E - 1)) (t + 1 / 2) =
        cmp (8 * X / 2 ^ (E - 1)) (4 * (2 * t + 1 : ℤ)) := by
      rw [← cmp_mul_pos_left (show (0 : ℚ) < 8 by norm_num)]
      congr 1
      · ring
      · push_cast
        ring
    have hfour : (4 * (2 * t + 1 : ℤ) : ℚ) = 8 * t + (4 : ℕ) := by
      push_cast
      ring
    rw [hscale, ← h.cmp_eq, hcast, hfour, cmp_add_left,
      (strictMono_cast : StrictMono (Nat.cast : ℕ → ℚ)).cmp_map_eq]
  rw [hcmp]
  refine BinaryFormat.nearest_significand hE hsat ?_ (hn.imp_right fun hle => ?_) ?_ ?_
  · rw [show F.SIG_BITS + 4 = F.SIG_BITS + 1 + 3 by ring, pow_add _ _ 3] at hS
    rw [format_fraction_bits]
    omega
  · rw [pow_add] at hle
    rw [format_fraction_bits]
    omega
  · have hle := (h.le_iff (2 * t)).1 (by
      push_cast
      linarith [cast_nonneg (α := ℚ) g])
    push_cast at hle
    rw [mul_div_assoc] at hle
    linarith
  · have hg' : (g : ℚ) < 8 := by exact_mod_cast hg
    have hlt := (h.lt_iff (2 * t + 2)).1 (by
      push_cast
      linarith)
    push_cast at hlt
    rw [mul_div_assoc] at hlt
    linarith

variable {E : ℤ}

/-- From sum to result: the result is the magnitude that the exact sum is rounded to, under the
sign. -/
theorem finish_significand_spec (exact negative : Bool) {S : ℕ}
    (hlow : 2 ^ (F.SIG_BITS + 3) ≤ S) (hup : S < 2 ^ (F.SIG_BITS + 4)) (hmin : 1 - F.SIG_BITS ≤ E)
    (h : GridAgrees 4 S (8 * X / 2 ^ (E - 1))) :
    ∃ r, F.finish_significand exact (negative.toNat * 2 ^ (F.BITS - 1)) E S =
      some (r + negative.toNat * 2 ^ (F.BITS - 1)) ∧ F.format.Nearest X r := by
  have hbits := F.bits_eq
  have hexp := F.exp_bits_bounds
  have hsig := F.sig_bits_bounds
  have hsat := F.format.saturated_pos
  rw [format_saturated] at hsat
  unfold finish_significand
  split_ifs with hover hden
  · refine ⟨F.format.infinity, ?_, BinaryFormat.Nearest.infinity ?_⟩
    · rw [infinity_eq, Option.pure_def, or_eq_add (by rw [← infinity_eq]; exact infinity_lt)]
    have hle := (h.le_iff (2 * 2 ^ F.SIG_BITS)).1 (by
      rw [pow_add] at hlow
      have hcast : (2 ^ F.SIG_BITS * 2 ^ 3 : ℚ) ≤ S := by exact_mod_cast hlow
      push_cast
      linarith)
    have hpow : (0 : ℚ) < 2 ^ (E - 1) := by positivity
    have hexponent : (2 : ℚ) ^ (2 * F.EXP_BIAS) ≤ 2 ^ (E - 1) := by
      rw [← zpow_natCast]
      refine zpow_le_zpow_right₀ one_le_two ?_
      have hsat_eq := F.exp_sat_eq
      omega
    rw [le_div_iff₀ hpow] at hle
    push_cast at hle
    rw [BinaryFormat.scaled_infinity, format_fraction_bits, format_bias]
    push_cast
    have hmul := mul_le_mul_of_nonneg_left hexponent
      (show (0 : ℚ) ≤ 2 ^ F.SIG_BITS by positivity)
    linarith
  · obtain ⟨n, hn⟩ := Int.eq_ofNat_of_zero_le (show 0 ≤ -E by omega)
    obtain rfl : E = -n := by omega
    have hsub : sub_i32 1 (-n) = some ((n + 1 : ℕ) : ℤ) := by
      rw [sub_i32_eq ⟨by omega, by omega⟩]
      congr 1
      push_cast
      ring
    have hself : F.BITS < 2 ^ F.BITS := Nat.lt_two_pow_self
    have hsmall : GridAgrees 4 (S / 2 ^ (n + 1) ||| (if S % 2 ^ (n + 1) ≠ 0 then 1 else 0) : ℕ)
        (8 * X / 2 ^ (1 - 1)) := by
      have hdiv := h.div_right (show (0 : ℚ) < 2 ^ (n + 1) by positivity)
      have hgrid := hdiv.coarser (2 ^ n)
      have htwo : (4 / 2 ^ (n + 1) * ((2 ^ n : ℤ) : ℚ)) = 2 := by
        push_cast
        rw [pow_succ]
        field_simp
        norm_num
      have hX : 8 * X / 2 ^ (-(n : ℤ) - 1) / 2 ^ (n + 1) = 8 * X / 2 ^ (1 - 1) := by
        rw [show -(n : ℤ) - 1 = -((n + 1 : ℕ) : ℤ) by push_cast; ring, zpow_neg, zpow_natCast]
        field_simp
        norm_num
      rw [htwo, hX] at hgrid
      have hfour := ((agrees_sticky S (n + 1)).trans hgrid).coarser 2
      rw [show (2 * ((2 : ℤ) : ℚ)) = 4 by norm_num] at hfour
      exact hfour
    have hlt : S / 2 ^ (n + 1) ||| (if S % 2 ^ (n + 1) ≠ 0 then 1 else 0) <
        2 ^ (F.SIG_BITS + 3) := by
      refine or_lt_two_pow (Nat.div_lt_of_lt_mul (hup.trans_le ?_)) ?_
      · rw [← pow_add]
        exact Nat.pow_le_pow_right Nat.two_pos (by omega)
      · exact lt_of_le_of_lt (by split <;> omega) (Nat.one_lt_two_pow (by omega))
    have hnearest := nearest_of_agrees le_rfl hsat (hlt.trans (by
      exact Nat.pow_lt_pow_right (by decide) (by omega))) (Or.inl rfl) hsmall
    refine ⟨_, ?_, hnearest⟩
    have hshift : cast F.BITS (n + 1 : ℕ) = some (n + 1) := cast_eq (by omega)
    have hamount : cast 32 (n + 1 : ℕ) = some (n + 1) := cast_eq (by omega)
    have hleft : cast 32 (F.BITS - (n + 1) : ℕ) = some (F.BITS - (n + 1)) := cast_eq (by omega)
    rw [hsub, some_bind, hshift, some_bind, wrapping_sub_eq hself (by omega), some_bind,
      hleft, some_bind, sticky_eq S n.succ_ne_zero (by omega),
      some_bind, hamount, some_bind,
      shr_eq (by omega), some_bind]
    refine round_significand_eq negative (e := 0) (by omega) ?_
    rw [Nat.sub_self, Nat.zero_mul, Nat.add_zero, Nat.zero_add]
    refine mod_eq_of_lt (Nat.div_lt_of_lt_mul ?_)
    rw [← pow_add, Nat.add_comm 3]
    exact hlt
  · obtain ⟨e, rfl⟩ := Int.eq_ofNat_of_zero_le (show 0 ≤ E by omega)
    obtain ⟨k, rfl⟩ := exists_eq_succ_of_ne_zero (show e ≠ 0 by omega)
    have hX : 8 * X / 2 ^ (((k + 1 : ℕ) : ℤ) - 1) = 8 * X / 2 ^ (k + 1 - 1) := by
      rw [cast_succ, add_sub_cancel_right, zpow_natCast, Nat.add_sub_cancel]
    rw [hX] at h
    refine ⟨_, ?_, nearest_of_agrees k.succ_pos (by omega) hup (Or.inr hlow) h⟩
    refine round_significand_eq negative (by omega) ?_
    obtain ⟨f, hf⟩ : ∃ f, S / 2 ^ 3 = 2 ^ F.SIG_BITS + f := by
      refine Nat.exists_eq_add_of_le ((Nat.le_div_iff_mul_le (by decide)).2 ?_)
      rw [← pow_add]
      exact hlow
    have hlt : S / 2 ^ 3 < 2 ^ (F.SIG_BITS + 1) := by
      refine Nat.div_lt_of_lt_mul ?_
      rw [← pow_add, Nat.add_comm 3]
      exact hup
    rw [hf, pow_succ] at hlt
    rw [hf, add_mod_left, mod_eq_of_lt (by omega), succ_sub_one, succ_mul]
    omega

/-! ### Aligning, adding and subtracting -/

/-- What is kept of a significand `B` shifted to the right by `align`. -/
structure Aligned (F : Float) (B align B' : ℕ) : Prop where
  agrees : GridAgrees 2 B' (B / 2 ^ align)
  same : align ≤ 3 → (B' : ℚ) = B / 2 ^ align
  lt : B' < 2 ^ (F.SIG_BITS + 4)
  half : align ≠ 0 → B' < 2 ^ (F.SIG_BITS + 3)
  quarter : 2 ≤ align → B' < 2 ^ (F.SIG_BITS + 2)

/-- Shifting with a sticky bit loses nothing that rounding asks for. -/
theorem align_significand_spec (exact : Bool) {N align : ℕ} (hN : 2 ^ F.SIG_BITS ≤ N)
    (hlt : N < 2 ^ (F.SIG_BITS + 1)) (halign : align < 2 ^ 32) :
    ∃ B', F.align_significand exact (N * 2 ^ 3) align = some B' ∧
      F.Aligned (N * 2 ^ 3) align B' := by
  have hbits := F.bits_eq
  have hexp := F.exp_bits_bounds
  have hsig := F.sig_bits_bounds
  have hB : N * 2 ^ 3 < 2 ^ (F.SIG_BITS + 4) := by
    have hmul := Nat.mul_lt_mul_of_pos_right hlt (Nat.two_pow_pos 3)
    rwa [← pow_add] at hmul
  have hself : F.BITS < 2 ^ F.BITS := Nat.lt_two_pow_self
  unfold align_significand
  split_ifs with hzero hfar
  · have hleft : cast 32 (F.BITS - align : ℕ) = some (F.BITS - align) := cast_eq (by omega)
    have hamount : cast 32 (align : ℕ) = some align := cast_eq halign
    have hbound : ∀ k, k ≤ align → k ≤ 2 → N * 2 ^ 3 / 2 ^ align |||
        (if N * 2 ^ 3 % 2 ^ align ≠ 0 then 1 else 0) < 2 ^ (F.SIG_BITS + 4 - k) := by
      intro k hk hk'
      refine or_lt_two_pow (Nat.div_lt_of_lt_mul (hB.trans_le ?_)) ?_
      · rw [← pow_add]
        exact Nat.pow_le_pow_right Nat.two_pos (by omega)
      · exact lt_of_le_of_lt (by split <;> omega) (Nat.one_lt_two_pow (by omega))
    refine ⟨_, ?_, agrees_sticky (N * 2 ^ 3) align |>.trans ?_, fun hsmall => ?_,
      hbound 0 (Nat.zero_le _) (by omega), fun _ => hbound 1 (by omega) (by omega),
      fun htwo => hbound 2 htwo le_rfl⟩
    · rw [wrapping_sub_eq hself hfar.le, some_bind, hleft,
        some_bind, sticky_eq _ hzero hfar, some_bind, hamount,
        some_bind, shr_eq hfar, some_bind, Option.pure_def]
    · exact GridAgrees.refl _ _
    · have hdvd : 2 ^ align ∣ N * 2 ^ 3 := (Nat.pow_dvd_pow 2 hsmall).mul_left N
      obtain ⟨c, hc⟩ := hdvd
      rw [hc, mul_mod_right, if_neg (not_not.2 rfl), or_zero,
        Nat.mul_div_cancel_left c (Nat.two_pow_pos _), cast_mul, cast_pow, cast_ofNat,
        mul_div_cancel_left₀ _ (by positivity)]
  · have hpow : N * 2 ^ 3 < 2 ^ align :=
      hB.trans_le (Nat.pow_le_pow_right Nat.two_pos (by omega))
    have hpow' : ((N * 2 ^ 3 : ℕ) : ℚ) < 2 ^ align := by exact_mod_cast hpow
    have hpos : 0 < N * 2 ^ 3 := Nat.mul_pos (Nat.lt_of_lt_of_le (Nat.two_pow_pos _) hN)
      (by decide)
    have hone : ∀ k, 1 < 2 ^ (F.SIG_BITS + (k + 1)) := fun k => Nat.one_lt_two_pow (by omega)
    refine ⟨1, rfl, ?_, fun hsmall => by omega, hone 3, fun _ => hone 2, fun _ => hone 1⟩
    rw [cast_one]
    refine agrees_one (by positivity) ?_
    rw [div_lt_iff₀ (by positivity)]
    linarith
  · obtain rfl : align = 0 := not_not.1 hzero
    have hself : ((N * 2 ^ 3 : ℕ) : ℚ) = (N * 2 ^ 3 : ℕ) / 2 ^ 0 := by simp
    refine ⟨_, rfl, ?_, fun _ => hself, hB, fun h => absurd rfl h, fun h => by omega⟩
    rw [← hself]
    exact GridAgrees.refl _ _

/-- The scale between a significand with its exponent and the number it stands for. -/
theorem scale_eq {y : ℚ} (hX : 8 * X = y * 2 ^ (E - 1)) (k : ℕ) :
    8 * X / 2 ^ (E - k - 1) = y * 2 ^ k := by
  have hpow : (2 : ℚ) ^ (E - k - 1) ≠ 0 := by positivity
  rw [hX, div_eq_iff hpow, mul_assoc, ← zpow_natCast, ← zpow_add₀ two_ne_zero]
  congr 2
  ring

/-- Significands of one sign give the float nearest to their sum. -/
theorem add_significands_spec (exact negative : Bool) {N B align B' : ℕ}
    (hN : 2 ^ F.SIG_BITS ≤ N) (hlt : N < 2 ^ (F.SIG_BITS + 1)) (hmin : 1 - F.SIG_BITS ≤ E)
    (hmax : E < F.EXP_SAT) (hB : F.Aligned B align B')
    (hX : 8 * X = ((N * 2 ^ 3 : ℕ) + B / 2 ^ align : ℚ) * 2 ^ (E - 1)) :
    ∃ r, F.add_significands exact (negative.toNat * 2 ^ (F.BITS - 1)) E (N * 2 ^ 3) B' =
      some (r + negative.toNat * 2 ^ (F.BITS - 1)) ∧ F.format.Nearest X r := by
  have hbits := F.bits_eq
  have hexp := F.exp_bits_bounds
  have hsig := F.sig_bits_bounds
  have hsat := F.exp_sat_lt.1
  have hword : 2 ^ (F.SIG_BITS + 5) ≤ 2 ^ F.BITS := Nat.pow_le_pow_right Nat.two_pos (by omega)
  have hlow : 2 ^ (F.SIG_BITS + 3) ≤ N * 2 ^ 3 + B' := by
    rw [pow_add]
    exact (mul_le_mul_right _ hN).trans (le_add_right _ _)
  have hup : N * 2 ^ 3 + B' < 2 ^ (F.SIG_BITS + 5) := by
    have hB' := hB.lt
    rw [show F.SIG_BITS + 4 = F.SIG_BITS + 1 + 3 by ring, pow_add _ _ 3] at hB'
    rw [show F.SIG_BITS + 5 = F.SIG_BITS + 1 + 4 by ring, pow_add _ _ 4]
    omega
  have hagrees : GridAgrees 2 ((N * 2 ^ 3 + B' : ℕ) : ℚ) ((N * 2 ^ 3 : ℕ) + B / 2 ^ align) := by
    have hadd := hB.agrees.add_left (4 * N)
    have htwo : (2 * ((4 * N : ℤ) : ℚ)) = (N * 2 ^ 3 : ℕ) := by
      push_cast
      ring
    rw [htwo] at hadd
    rw [cast_add]
    exact hadd
  unfold add_significands
  rw [Word.add_eq (hup.trans_le hword), some_bind]
  generalize N * 2 ^ 3 + B' = S at *
  have hcarry : S &&& F.IMPLICIT_BIT * 2 ^ 4 ≠ 0 ↔ 2 ^ (F.SIG_BITS + 4) ≤ S := by
    rw [IMPLICIT_BIT, ← pow_add]
    exact and_two_pow_ne_zero_iff hup
  have hscale := scale_eq hX 0
  rw [cast_zero, sub_zero, pow_zero, mul_one] at hscale
  by_cases hcond : S &&& F.IMPLICIT_BIT * 2 ^ 4 ≠ 0
  · have hge := hcarry.1 hcond
    have hcast : add_i32 E 1 = some (E + 1) := add_i32_eq ⟨by omega, by omega⟩
    have hbit : S &&& 1 = S % 2 ^ 1 := and_two_pow_sub_one_eq_mod S 1
    rw [if_pos hcond, shr_eq (by omega), some_bind, hcast,
      some_bind, hbit]
    refine finish_significand_spec exact negative ?_ ?_ (by omega) ?_
    · refine le_trans ((le_div_iff_mul_le (by decide)).2 ?_) left_le_or
      rw [← pow_add]
      exact hge
    · refine or_lt_two_pow (Nat.div_lt_of_lt_mul ?_) ?_
      · rw [← pow_add, Nat.add_comm 1]
        exact hup
      · exact lt_of_le_of_lt (by split <;> omega) (Nat.one_lt_two_pow (by omega))
    · have hhalf := (hagrees.div_right (show (0 : ℚ) < 2 ^ 1 by norm_num)).coarser 2
      rw [show (2 / 2 ^ 1 * ((2 : ℤ) : ℚ)) = 2 by norm_num] at hhalf
      have hfour := ((agrees_sticky S 1).trans hhalf).coarser 2
      have hX' : 8 * X / 2 ^ (E + 1 - 1) = 8 * X / 2 ^ (E - 1) / 2 ^ 1 := by
        rw [show E + 1 - 1 = E - 1 + 1 by ring, zpow_add₀ two_ne_zero, zpow_one, pow_one, div_div]
      rw [hX', hscale, ← show (2 * ((2 : ℤ) : ℚ)) = 4 by norm_num]
      exact hfour
  · rw [if_neg hcond]
    refine finish_significand_spec exact negative hlow (Nat.lt_of_not_le fun hle =>
      hcond (hcarry.2 hle)) hmin ?_
    rw [hscale, ← show (2 * ((2 : ℤ) : ℚ)) = 4 by norm_num]
    exact hagrees.coarser 2

/-- The shift that brings a difference back to its place. -/
theorem renormalize_eq {d : ℕ} (hd : d ≠ 0) (hlt : d < 2 ^ (F.SIG_BITS + 3)) :
    ∃ k : ℕ, k + d.size = F.SIG_BITS + 4 ∧ sub_i32 (leading_zeros F.BITS d)
      (leading_zeros F.BITS (F.IMPLICIT_BIT * 2 ^ 3)) = some (k : ℤ) ∧
      2 ^ (F.SIG_BITS + 3) ≤ d * 2 ^ k ∧ d * 2 ^ k < 2 ^ (F.SIG_BITS + 4) := by
  have hbits := F.bits_eq
  have hexp := F.exp_bits_bounds
  have hsig := F.sig_bits_bounds
  have hsize : d.size ≤ F.SIG_BITS + 3 := size_le.2 hlt
  obtain ⟨k, hk⟩ := Nat.exists_eq_add_of_le hsize
  refine ⟨k + 1, by omega, ?_, ?_, ?_⟩
  · rw [IMPLICIT_BIT, ← pow_add]
    unfold leading_zeros
    rw [size_pow]
    have hdiff : ((F.BITS - d.size : ℕ) : ℤ) - (F.BITS - (F.SIG_BITS + 3 + 1) : ℕ) =
        (k + 1 : ℕ) := by omega
    rw [← hdiff]
    exact sub_i32_eq ⟨by omega, by omega⟩
  · calc 2 ^ (F.SIG_BITS + 3) = 2 ^ d.size * 2 ^ k := by rw [hk, pow_add]
      _ ≤ 2 * d * 2 ^ k := mul_le_mul_right _ (two_pow_size_le hd)
      _ = d * 2 ^ (k + 1) := by ring
  · calc d * 2 ^ (k + 1) < 2 ^ d.size * 2 ^ (k + 1) :=
        Nat.mul_lt_mul_of_pos_right (lt_two_pow_size d) (Nat.two_pow_pos _)
      _ = 2 ^ (F.SIG_BITS + 4) := by
        rw [← pow_add, show F.SIG_BITS + 4 = F.SIG_BITS + 3 + 1 by ring, hk, add_assoc]

/-- Significands of different sign give the float nearest to their difference. -/
theorem subtract_significands_spec (exact negative : Bool) {N B align B' : ℕ}
    (hN : 2 ^ F.SIG_BITS ≤ N) (hlt : N < 2 ^ (F.SIG_BITS + 1))
    (hmin : 1 - F.SIG_BITS + align ≤ E) (hmax : E < F.EXP_SAT) (hB : F.Aligned B align B')
    (hle : B' ≤ N * 2 ^ 3) (hint : X = 0 ∨ 1 ≤ X)
    (hX : 8 * X = ((N * 2 ^ 3 : ℕ) - B / 2 ^ align : ℚ) * 2 ^ (E - 1)) :
    (X = 0 → F.subtract_significands exact (negative.toNat * 2 ^ (F.BITS - 1)) E (N * 2 ^ 3) B' =
      some 0) ∧
    (X ≠ 0 → ∃ r, F.subtract_significands exact (negative.toNat * 2 ^ (F.BITS - 1)) E (N * 2 ^ 3)
      B' = some (r + negative.toNat * 2 ^ (F.BITS - 1)) ∧ F.format.Nearest X r) := by
  have hbits := F.bits_eq
  have hexp := F.exp_bits_bounds
  have hsig := F.sig_bits_bounds
  have hsat := F.exp_sat_lt.1
  have hA : N * 2 ^ 3 < 2 ^ (F.SIG_BITS + 4) := by
    have hmul := Nat.mul_lt_mul_of_pos_right hlt (Nat.two_pow_pos 3)
    rwa [← pow_add] at hmul
  have hA' : 2 ^ (F.SIG_BITS + 3) ≤ N * 2 ^ 3 := by
    rw [pow_add]
    exact mul_le_mul_right _ hN
  have hword : 2 ^ (F.SIG_BITS + 4) ≤ 2 ^ F.BITS := Nat.pow_le_pow_right Nat.two_pos (by omega)
  have hagrees : GridAgrees 2 ((N * 2 ^ 3 - B' : ℕ) : ℚ) ((N * 2 ^ 3 : ℕ) - B / 2 ^ align) := by
    have hsub := hB.agrees.sub_left (4 * N)
    have htwo : (2 * ((4 * N : ℤ) : ℚ)) = (N * 2 ^ 3 : ℕ) := by
      push_cast
      ring
    rw [htwo] at hsub
    rw [cast_sub hle]
    exact hsub
  have hsame : align ≤ 3 → ((N * 2 ^ 3 - B' : ℕ) : ℚ) = (N * 2 ^ 3 : ℕ) - B / 2 ^ align := by
    intro hsmall
    rw [cast_sub hle, hB.same hsmall]
  have hlarge : 2 ≤ align → 2 ^ (F.SIG_BITS + 2) ≤ N * 2 ^ 3 - B' := by
    intro htwo
    have hquarter := hB.quarter htwo
    rw [pow_succ] at hA'
    omega
  have hpow : (0 : ℚ) < 2 ^ (E - 1) := by positivity
  have hd_lt : N * 2 ^ 3 - B' < 2 ^ (F.SIG_BITS + 4) := (sub_le _ _).trans_lt hA
  unfold subtract_significands
  rw [wrapping_sub_eq (hA.trans_le hword) hle, some_bind]
  generalize N * 2 ^ 3 - B' = d at *
  generalize ((N * 2 ^ 3 : ℕ) - B / 2 ^ align : ℚ) = y at *
  have hpos : 0 < d ↔ 0 < X := by
    have hzero := (hagrees 0).2
    rw [Int.cast_zero, mul_zero, cast_pos] at hzero
    rw [hzero, ← mul_pos_iff_of_pos_right hpow, ← hX]
    constructor <;> intro h <;> linarith
  constructor
  · intro hX0
    rw [hX0, lt_self_iff_false, iff_false] at hpos
    rw [if_pos (Nat.eq_zero_of_not_pos hpos), Option.pure_def]
  intro hX0
  have hone : 1 ≤ X := hint.resolve_left hX0
  have hd : d ≠ 0 := (hpos.2 (by linarith)).ne'
  rw [if_neg hd]
  by_cases hcancel : d < F.IMPLICIT_BIT * 2 ^ 3
  · rw [if_pos hcancel]
    rw [IMPLICIT_BIT, ← pow_add] at hcancel
    obtain ⟨k, hk, hsub, hlow, hup⟩ := renormalize_eq hd hcancel
    have hk_le : align ≤ 3 ∨ 4 ≤ align ∧ k ≤ 1 := by
      refine (lt_or_ge align 4).imp le_of_lt_succ fun hfour => ⟨hfour, ?_⟩
      have hsize := lt_size.2 (hlarge (by omega))
      omega
    have hshl : shl exact F.BITS d k = some (d * 2 ^ k) := by
      exact shl_eq (by omega) (hup.trans_le hword)
    have hkcast : cast 32 (k : ℤ) = some k := cast_eq (by omega)
    have hmin' : 1 - F.SIG_BITS ≤ E - k := by
      rcases hk_le with hsmall | ⟨hfour, hk1⟩
      · have hS : ((d * 2 ^ k : ℕ) : ℚ) < 2 ^ (F.SIG_BITS + 4) := by exact_mod_cast hup
        have hlt2 : (2 : ℚ) ^ (3 : ℤ) < 2 ^ ((F.SIG_BITS : ℤ) + 4 + (E - k - 1)) := calc
          (2 : ℚ) ^ (3 : ℤ) ≤ 8 * X := by norm_num; linarith
          _ = y * 2 ^ k * 2 ^ (E - k - 1) := by
            rw [← scale_eq hX k, div_mul_cancel₀ _ (by positivity)]
          _ = (d * 2 ^ k : ℕ) * 2 ^ (E - k - 1) := by rw [← hsame hsmall]; push_cast; rfl
          _ < 2 ^ (F.SIG_BITS + 4) * 2 ^ (E - k - 1) :=
            mul_lt_mul_of_pos_right hS (by positivity)
          _ = 2 ^ ((F.SIG_BITS : ℤ) + 4 + (E - k - 1)) := by
            rw [zpow_add₀ two_ne_zero, ← zpow_natCast]
            rfl
        rw [zpow_lt_zpow_iff_right₀ one_lt_two] at hlt2
        omega
      · omega
    have hagrees' : GridAgrees 4 (d * 2 ^ k : ℕ) (8 * X / 2 ^ (E - k - 1)) := by
      rw [scale_eq hX k, cast_mul, cast_pow, cast_ofNat]
      rcases hk_le with hsmall | ⟨-, hk1⟩
      · rw [hsame hsmall]
        exact GridAgrees.refl _ _
      · have hmul := hagrees.mul_right (show (0 : ℚ) < 2 ^ k by positivity)
        rcases le_one_iff_eq_zero_or_eq_one.1 hk1 with rfl | rfl
        · have hfour := hmul.coarser 2
          rwa [show (2 * 2 ^ 0 * ((2 : ℤ) : ℚ)) = 4 by norm_num] at hfour
        · rwa [show (2 * 2 ^ 1 : ℚ) = 4 by norm_num] at hmul
    have hexponent : sub_i32 E k = some (E - k) := by
      exact sub_i32_eq ⟨by omega, by omega⟩
    rw [hsub, some_bind, hkcast, some_bind, hshl, some_bind, hexponent, some_bind]
    exact finish_significand_spec exact negative hlow hup hmin' hagrees'
  · rw [if_neg hcancel]
    rw [IMPLICIT_BIT, ← pow_add, not_lt] at hcancel
    have hscale := scale_eq hX 0
    rw [cast_zero, sub_zero, pow_zero, mul_one] at hscale
    refine finish_significand_spec exact negative hcancel hd_lt (by omega) ?_
    rw [hscale, ← show (2 * ((2 : ℤ) : ℚ)) = 4 by norm_num]
    exact hagrees.coarser 2

/-! ### The operands -/

theorem operand_spec (exact : Bool) {w : ℕ} (hfin : F.format.IsFinite w)
    (hne : F.format.magnitude w ≠ 0) : ∃ E N, F.operand exact w = some (E, N) ∧
      F.Decoded (F.format.magnitude w) E (N ||| F.IMPLICIT_BIT) := by
  have hsat := F.exp_sat_lt.1
  have hlt := exponent_lt hfin
  have hcast : cast_i32 (F.format.exponent w) = some (F.format.exponent w : ℤ) :=
    cast_i32_eq ⟨by omega, by omega⟩
  unfold operand
  rw [and_exp_mask, Nat.mul_div_cancel _ (Nat.two_pow_pos _), hcast, and_sig_mask, some_bind]
  by_cases hexp : F.format.exponent w = 0
  · have hmag : F.format.magnitude w < 2 ^ F.SIG_BITS :=
      (Nat.div_eq_zero_iff.1 hexp).resolve_left (Nat.two_pow_pos _).ne'
    have hfrac : F.format.fraction w = F.format.magnitude w := by
      rw [← BinaryFormat.fraction_magnitude, format_fraction_bits, mod_eq_of_lt hmag]
    obtain ⟨E, N, hnorm, hdec, -⟩ := normalize_spec exact hne hmag
    refine ⟨E, N, ?_, ?_⟩
    · rw [hexp, hfrac, cast_zero, if_pos rfl, hnorm]
    · rwa [or_implicit_bit hdec.lower hdec.upper]
  · refine ⟨F.format.exponent w, F.format.fraction w, ?_, decoded_normal hfin hexp⟩
    rw [if_neg (Int.natCast_ne_zero.2 hexp)]

/-- The larger magnitude has the larger exponent, or the larger significand. -/
theorem Decoded.le {m n : ℕ} {D : ℤ} {M N : ℕ} (hm : F.Decoded m E M) (hn : F.Decoded n D N)
    (hle : n ≤ m) : D ≤ E ∧ (E = D → N ≤ M) := by
  have hscaled : (F.format.scaled n : ℚ) ≤ F.format.scaled m :=
    cast_le.2 (BinaryFormat.scaled_strictMono.monotone hle)
  rw [hm.scaled, hn.scaled] at hscaled
  constructor
  · by_contra hlt
    have hM : (M : ℚ) < 2 ^ (F.SIG_BITS + 1) := by exact_mod_cast hm.upper
    have hN : (2 : ℚ) ^ F.SIG_BITS ≤ N := by exact_mod_cast hn.lower
    refine absurd hscaled (not_le.2 ?_)
    calc (M : ℚ) * 2 ^ (E - 1) < 2 ^ (F.SIG_BITS + 1) * 2 ^ (E - 1) :=
        mul_lt_mul_of_pos_right hM (by positivity)
      _ = 2 ^ F.SIG_BITS * 2 ^ E := by
        rw [zpow_sub₀ two_ne_zero, zpow_one, pow_succ]
        field_simp
      _ ≤ 2 ^ F.SIG_BITS * 2 ^ (D - 1) :=
        mul_le_mul_of_nonneg_left (zpow_le_zpow_right₀ one_le_two (by omega)) (by positivity)
      _ ≤ N * 2 ^ (D - 1) := mul_le_mul_of_nonneg_right hN (by positivity)
  · rintro rfl
    exact_mod_cast le_of_mul_le_mul_right hscaled (show (0 : ℚ) < 2 ^ (E - 1) by positivity)

theorem negative_xor (a b : ℕ) :
    F.format.negative (a ^^^ b) = (F.format.negative a ^^ F.format.negative b) := by
  unfold BinaryFormat.negative
  exact testBit_xor ..

/-- **The sum of two finite operands**, that of the larger magnitude first. -/
theorem add_ordered_spec (exact : Bool) {a b : ℕ} (ha : F.format.IsFinite a)
    (hb : F.format.IsFinite b) (ha0 : F.format.magnitude a ≠ 0) (hb0 : F.format.magnitude b ≠ 0)
    (hle : F.format.magnitude b ≤ F.format.magnitude a)
    (hX : X = if F.format.negative a = F.format.negative b then
      (F.format.scaled (F.format.magnitude a) + F.format.scaled (F.format.magnitude b) : ℚ)
      else F.format.scaled (F.format.magnitude a) - F.format.scaled (F.format.magnitude b)) :
    (X = 0 → F.add_ordered exact a b = some 0) ∧
    (X ≠ 0 → ∃ r, F.add_ordered exact a b =
      some (r + (F.format.negative a).toNat * 2 ^ (F.BITS - 1)) ∧ F.format.Nearest X r) := by
  have hbits := F.bits_eq
  have hexp := F.exp_bits_bounds
  have hsig := F.sig_bits_bounds
  have hsat := F.exp_sat_lt.1
  have hword := F.two_pow_le_bits
  obtain ⟨E, M, hopa, hda⟩ := operand_spec exact ha ha0
  obtain ⟨D, N, hopb, hdb⟩ := operand_spec exact hb hb0
  obtain ⟨hDE, heq⟩ := hda.le hdb hle
  have hscale_a := hda.scaled
  have hscale_b := hdb.scaled
  have hmono : (F.format.scaled (F.format.magnitude b) : ℚ) ≤
      F.format.scaled (F.format.magnitude a) :=
    cast_le.2 (BinaryFormat.scaled_strictMono.monotone hle)
  unfold add_ordered
  rw [hopa, hopb]
  simp only [some_bind]
  obtain ⟨hla, hua, hmina, hmaxa, -⟩ := hda
  obtain ⟨hlb, hub, hminb, hmaxb, -⟩ := hdb
  generalize M ||| F.IMPLICIT_BIT = A at *
  generalize N ||| F.IMPLICIT_BIT = B at *
  obtain ⟨align, halign⟩ := Int.eq_ofNat_of_zero_le (show 0 ≤ E - D by omega)
  have hshl : ∀ C, C < 2 ^ (F.SIG_BITS + 1) → shl exact F.BITS C 3 = some (C * 2 ^ 3) := by
    intro C hC
    have hmul := Nat.mul_lt_mul_of_pos_right hC (Nat.two_pow_pos 3)
    rw [← pow_add] at hmul
    exact shl_eq (by omega) (hmul.trans_le (Nat.pow_le_pow_right Nat.two_pos (by omega)))
  have hdiff : wrapping_sub_i32 exact E D = some (align : ℤ) := by
    rw [wrapping_sub_i32_eq ⟨by omega, by omega⟩, halign]
  have hcast : cast F.BITS (align : ℤ) = some align := cast_eq (by omega)
  obtain ⟨B', hrun, hB⟩ := align_significand_spec exact hlb hub (show align < 2 ^ 32 by omega)
  have hscale : 8 * (F.format.scaled (F.format.magnitude b) : ℚ) =
      (B * 2 ^ 3 : ℕ) / 2 ^ align * 2 ^ (E - 1) := by
    rw [hscale_b, show E - 1 = D - 1 + align by omega, zpow_add₀ two_ne_zero, zpow_natCast]
    push_cast
    field_simp
  have hscale' : 8 * (F.format.scaled (F.format.magnitude a) : ℚ) =
      (A * 2 ^ 3 : ℕ) * 2 ^ (E - 1) := by
    rw [hscale_a]
    push_cast
    ring
  rw [hshl A hua, some_bind, hshl B hub, some_bind, hdiff, some_bind, hcast,
    some_bind, hrun, some_bind, and_sign_mask, and_sign_mask, negative_xor]
  by_cases hsign : F.format.negative a = F.format.negative b
  · rw [if_pos hsign] at hX
    have hpos : (0 : ℚ) < F.format.scaled (F.format.magnitude a) := by
      rw [cast_pos, ← BinaryFormat.scaled_zero (F := F.format)]
      exact BinaryFormat.scaled_strictMono (pos_of_ne_zero ha0)
    rw [hsign, Bool.xor_self, Bool.toNat_false, zero_mul, if_neg (not_not.2 rfl)]
    refine ⟨fun h0 => by linarith, fun _ => ?_⟩
    refine add_significands_spec exact _ hla hua hmina hmaxa hB ?_
    rw [hX, mul_add, hscale, hscale', add_mul]
  rw [if_neg hsign] at hX
  have hxor : (F.format.negative a ^^ F.format.negative b) = true := by
    rwa [bne_iff_ne]
  rw [hxor, Bool.toNat_true, Nat.one_mul, if_pos (Nat.two_pow_pos _).ne']
  have hB'_le : B' ≤ A * 2 ^ 3 := by
    rcases Nat.eq_zero_or_pos align with h0 | hpos
    · have hsame := hB.same (by omega)
      rw [h0, pow_zero, div_one] at hsame
      rw [cast_inj.1 hsame]
      exact mul_le_mul_right _ (heq (by omega))
    · have hhalf := hB.half hpos.ne'
      rw [pow_add] at hhalf
      exact hhalf.le.trans (mul_le_mul_right _ hla)
  have hint : X = 0 ∨ 1 ≤ X := by
    rw [hX]
    rcases hmono.eq_or_lt with h | h
    · exact Or.inl (by linarith)
    · refine Or.inr ?_
      have hsucc : ((F.format.scaled (F.format.magnitude b) + 1 : ℕ) : ℚ) ≤
          F.format.scaled (F.format.magnitude a) := cast_le.2 (cast_lt.1 h)
      push_cast at hsucc
      linarith
  refine subtract_significands_spec exact _ hla hua (by omega) hmaxa hB hB'_le hint ?_
  rw [hX, mul_sub, hscale, hscale', sub_mul]

end Float

end RustStd.SoftFloat
