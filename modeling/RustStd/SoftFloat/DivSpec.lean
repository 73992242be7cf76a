import RustStd.SoftFloat.Quotient

/-!
# The generic quotient is the rounded exact quotient

For every type but `f16`, whose plan the code leaves out, and for every size of a pointer. The
estimate of the reciprocal wraps around for some divisors; the result is right for these as well.
-/

namespace RustStd.SoftFloat

open BinaryFormat.IsQuotient

namespace Float

variable {F : Float} {pointer : PointerSize} {unwrapped : Bool} {a b A B : ℕ} {E : ℤ}

/-! ### Significands -/

variable (hF : F ≠ f16)
include hF

theorem recip_error_lt : F.recip_error pointer < 2 ^ (F.EXP_BITS - 1) := by
  cases F with
  | f16 => exact absurd rfl hF
  | _ => cases pointer <;> decide

/-- Where one correction has to do, the estimate is twice as good. -/
theorem recip_error_le (hplan : ¬ (F.BITS = 128 ∨ F.BITS = 32 ∧ 0 < F.half_iterations pointer)) :
    2 * F.recip_error pointer ≤ 2 ^ (F.EXP_BITS - 1) := by
  cases F with
  | f16 => exact absurd rfl hF
  | f32 =>
    cases pointer with
    | eight => decide
    | _ => exact absurd (by decide) hplan
  | f64 => cases pointer <;> decide
  | f128 => exact absurd (Or.inl rfl) hplan

theorem Estimated.two_mul_residual_lt {q R A' : ℕ} {E' : ℤ}
    (h : F.Estimated A B (F.recip_error pointer) E q R A' E')
    (hplan : ¬ (F.BITS = 128 ∨ F.BITS = 32 ∧ 0 < F.half_iterations pointer)) :
    2 * R < 3 * B := by
  refine Nat.lt_of_mul_lt_mul_left (a := 2 ^ (F.EXP_BITS - 1)) ?_
  have hclose := h.close
  have herror := Nat.mul_le_mul_right B (recip_error_le hF hplan)
  rw [Nat.add_mul] at hclose
  rw [Nat.mul_assoc] at herror
  calc 2 ^ (F.EXP_BITS - 1) * (2 * R) = 2 * (2 ^ (F.EXP_BITS - 1) * R) := by ring
    _ < 2 * (2 ^ (F.EXP_BITS - 1) * B) + 2 ^ (F.EXP_BITS - 1) * B := by lia
    _ = 2 ^ (F.EXP_BITS - 1) * (3 * B) := by ring

/-- The divisor's significand as a word with its leading bit set, and its reciprocal. -/
theorem reciprocal_significand (pointer : PointerSize) (exact unwrapped : Bool)
    (hlB : 2 ^ F.SIG_BITS ≤ B)
    (huB : B < 2 ^ (F.SIG_BITS + 1))
    (hb : unwrapped = true → ¬ F.IsOneCut pointer (B * 2 ^ F.EXP_BITS)) :
    ∃ x, F.reciprocal exact unwrapped pointer (B * 2 ^ F.EXP_BITS) = some x ∧
      x * B < 2 ^ (F.BITS + F.SIG_BITS) ∧
      2 ^ (F.BITS + F.SIG_BITS) ≤ (x + F.recip_error pointer) * B := by
  have hbits := F.bits_eq
  have hscale := Nat.two_pow_pos F.EXP_BITS
  have hlow : 2 ^ (F.BITS - 1) ≤ B * 2 ^ F.EXP_BITS := by
    rw [hbits, Nat.add_sub_cancel, pow_add]
    exact Nat.mul_le_mul_right _ hlB
  have hup : B * 2 ^ F.EXP_BITS < 2 ^ F.BITS := by
    rw [hbits, Nat.add_right_comm, pow_add _ (F.SIG_BITS + 1)]
    exact Nat.mul_lt_mul_of_pos_right huB hscale
  have hword : 2 ^ (2 * F.BITS - 1) = 2 ^ (F.BITS + F.SIG_BITS) * 2 ^ F.EXP_BITS := by
    rw [← pow_add]
    congr 1
    lia
  obtain ⟨x, hrun, hx, hx'⟩ := reciprocal_spec hF exact hlow hup hb
  rw [hword, ← Nat.mul_assoc] at hx hx'
  exact ⟨x, hrun, Nat.lt_of_mul_lt_mul_right hx, Nat.le_of_mul_le_mul_right hx' hscale⟩

theorem div_significands_spec (exact negative : Bool) {S T : ℕ} {X : ℚ}
    (hA : S ||| F.IMPLICIT_BIT = A) (hB : T ||| F.IMPLICIT_BIT = B)
    (hlA : 2 ^ F.SIG_BITS ≤ A) (huA : A < 2 ^ (F.SIG_BITS + 1))
    (hlB : 2 ^ F.SIG_BITS ≤ B) (huB : B < 2 ^ (F.SIG_BITS + 1))
    (hE : -2 ^ 29 ≤ E ∧ E < 2 ^ 29)
    (hb : unwrapped = true → ¬ F.IsOneCut pointer (B * 2 ^ F.EXP_BITS))
    (hX : X = A * 2 ^ F.SIG_BITS / B * 2 ^ (E - 1)) :
    ∃ r, F.div_significands exact unwrapped pointer (negative.toNat * 2 ^ (F.BITS - 1)) S T E =
      some (r + negative.toNat * 2 ^ (F.BITS - 1)) ∧ F.format.Nearest X r := by
  have hbits := F.bits_eq
  have hpos : 0 < B := (Nat.two_pow_pos _).trans_le hlB
  obtain ⟨x, hrecip, hx, hx'⟩ := reciprocal_significand hF pointer exact unwrapped hlB huB hb
  obtain ⟨q, R, A', E', hestimate, h⟩ := estimate_quotient_spec exact hlA huA hlB huB
    (recip_error_lt hF) hx hx' (E := E) ⟨by lia, by lia⟩
  have hexponent := h.exponent
  obtain ⟨r, hfinish, hr⟩ := finish_quotient_spec pointer exact negative h
    (recip_error_lt hF) hpos huB (by lia) (h.two_mul_residual_lt hF) hX
  have hshl : shl exact F.BITS B (F.BITS - F.SIG_BITS - 1) = some (B * 2 ^ F.EXP_BITS) := by
    refine shl_eq (by lia) ?_
    have hexp : F.BITS - F.SIG_BITS - 1 = F.EXP_BITS := rfl
    rw [hexp]
    conv_rhs => rw [hbits, Nat.add_right_comm, pow_add]
    exact Nat.mul_lt_mul_of_pos_right huB (Nat.two_pow_pos _)
  refine ⟨r, ?_, hr⟩
  unfold div_significands
  simp only [hA, hB]
  rw [hshl, some_bind, hrecip, some_bind, hestimate, some_bind]
  exact hfinish

omit hF

/-! ### Early returns -/

theorem div_special_eq_none (ha : F.format.IsFinite a) (hb : F.format.IsFinite b)
    (ha0 : F.format.magnitude a ≠ 0) (hb0 : F.format.magnitude b ≠ 0) :
    F.div_special a b = none := by
  unfold BinaryFormat.IsFinite at ha hb
  unfold div_special
  simp only [and_abs_mask, ← infinity_eq]
  rw [if_neg (by lia), if_neg (by lia), if_neg (by lia), if_neg (by lia), if_neg ha0,
    if_neg hb0]

/-- Operands that are zero, infinite or no number are answered at once. -/
theorem div_special_eq_some (ha : a < 2 ^ F.BITS) (hb : b < 2 ^ F.BITS)
    (h : ¬ (F.format.IsFinite a ∧ F.format.magnitude a ≠ 0) ∨
      ¬ (F.format.IsFinite b ∧ F.format.magnitude b ≠ 0)) :
    ∃ w, F.div_special a b = some w ∧ F.format.IsQuotient a b w := by
  have hsigned : ∀ m < 2 ^ (F.BITS - 1), ∀ negative : Bool,
      m + negative.toNat * 2 ^ (F.BITS - 1) < 2 ^ F.format.width := by
    intro m hm negative
    rw [format_width]
    exact signed_lt hm negative
  have hinf_lt := F.infinity_lt
  have hzero_lt := Nat.two_pow_pos (F.BITS - 1)
  have hsign : ∀ a b : ℕ, (a ^^^ b) &&& F.SIGN_MASK =
      0 + (F.format.negative a ^^ F.format.negative b).toNat * 2 ^ (F.BITS - 1) := by
    intro a b
    rw [← or_sign hzero_lt, Nat.zero_or]
  unfold BinaryFormat.IsFinite at h
  unfold div_special
  simp only [and_abs_mask, ← infinity_eq]
  split
  · next hnan =>
    have hquiet := quiet_spec ha hnan
    exact ⟨_, rfl, of_nan (Or.inl hnan) (F.format_width ▸ hquiet.1) hquiet.2⟩
  next hnan_a =>
  split
  · next hnan =>
    have hquiet := quiet_spec hb hnan
    exact ⟨_, rfl, of_nan (Or.inr hnan) (F.format_width ▸ hquiet.1) hquiet.2⟩
  next hnan_b =>
  split
  · next hinf =>
    split
    · next hinf_b =>
      exact ⟨_, rfl, of_invalid (Or.inl ⟨hinf, hinf_b⟩) (F.format_width ▸ qnan_spec.1) qnan_spec.2⟩
    · next hinf_b =>
      rw [hinf, or_sign hinf_lt]
      exact ⟨_, rfl, of_infinite
        (Or.inl ⟨hinf, lt_of_le_of_ne (not_lt.1 hnan_b) hinf_b⟩) (hsigned _ hinf_lt _)
        ⟨magnitude_signed hinf_lt _, negative_signed hinf_lt _⟩⟩
  next hinf_a =>
  have hfin_a : F.format.IsFinite a := lt_of_le_of_ne (not_lt.1 hnan_a) hinf_a
  split
  · next hinf =>
    rw [hsign]
    exact ⟨_, rfl, of_zero (Or.inl ⟨hfin_a, hinf⟩) (hsigned _ hzero_lt _)
      ⟨magnitude_signed hzero_lt _, negative_signed hzero_lt _⟩⟩
  next hinf_b =>
  have hfin_b : F.format.IsFinite b := lt_of_le_of_ne (not_lt.1 hnan_b) hinf_b
  split
  · next ha0 =>
    split
    · next hb0 =>
      exact ⟨_, rfl, of_invalid (Or.inr ⟨ha0, hb0⟩) (F.format_width ▸ qnan_spec.1) qnan_spec.2⟩
    · next hb0 =>
      rw [hsign]
      exact ⟨_, rfl, of_zero (Or.inr ⟨ha0, hfin_b, hb0⟩)
        (hsigned _ hzero_lt _) ⟨magnitude_signed hzero_lt _, negative_signed hzero_lt _⟩⟩
  next ha0 =>
  have hb0 : F.format.magnitude b = 0 := by
    by_contra hb0
    exact h.elim (fun h => h ⟨hfin_a, ha0⟩) fun h => h ⟨hfin_b, hb0⟩
  rw [if_pos hb0, or_sign hinf_lt]
  exact ⟨_, rfl, of_infinite (Or.inr ⟨hfin_a, ha0, hb0⟩)
    (hsigned _ hinf_lt _) ⟨magnitude_signed hinf_lt _, negative_signed hinf_lt _⟩⟩

/-! ### Finite operands -/

/-- The adjustment and the significand together are the decoded operand. -/
theorem renormalize_significand_spec (exact : Bool) {w : ℕ} (hfin : F.format.IsFinite w)
    (hne : F.format.magnitude w ≠ 0) :
    ∃ adjustment S E N, F.renormalize_significand exact (F.format.magnitude w)
        (F.format.fraction w) = some (adjustment, S) ∧
      S ||| F.IMPLICIT_BIT = N ∧ F.Decoded (F.format.magnitude w) E N ∧
      F.format.exponent w + adjustment = E := by
  unfold renormalize_significand
  rw [IMPLICIT_BIT]
  by_cases hlt : F.format.magnitude w < 2 ^ F.SIG_BITS
  · have hexp : F.format.exponent w = 0 := Nat.div_eq_of_lt hlt
    have hfrac : F.format.fraction w = F.format.magnitude w := by
      rw [← BinaryFormat.fraction_magnitude, format_fraction_bits, Nat.mod_eq_of_lt hlt]
    obtain ⟨E, N, hnorm, hdec, -⟩ := normalize_spec exact hne hlt
    refine ⟨E, N, E, N, ?_, or_implicit_bit hdec.lower hdec.upper, hdec, ?_⟩
    · rw [if_pos hlt, hfrac, hnorm]
    · rw [hexp, Nat.cast_zero, zero_add]
  · have hexp : F.format.exponent w ≠ 0 := by
      intro h0
      exact hlt ((Nat.div_eq_zero_iff.1 h0).resolve_left (Nat.two_pow_pos _).ne')
    exact ⟨0, F.format.fraction w, F.format.exponent w, _, if_neg hlt, rfl,
      decoded_normal hfin hexp, add_zero _⟩

/-- The quotient of two decoded operands, in units of the least number. -/
theorem decoded_div {m n : ℕ} {D E : ℤ} {M N : ℕ} (hm : F.Decoded m D M) (hn : F.Decoded n E N) :
    (F.format.scaled m / F.format.scaled n / F.format.unit : ℚ) =
      M * 2 ^ F.SIG_BITS / N * 2 ^ (D - E + F.EXP_BIAS - 1) := by
  rw [hm.scaled, hn.scaled, BinaryFormat.unit, format_bias, format_fraction_bits,
    show D - E + F.EXP_BIAS - 1 = (D - 1) - (E - 1) - (1 - F.EXP_BIAS - F.SIG_BITS) - F.SIG_BITS
      by ring]
  generalize D - 1 = d
  generalize E - 1 = e
  generalize (1 - F.EXP_BIAS - F.SIG_BITS : ℤ) = u
  rw [zpow_sub₀ two_ne_zero (d - e - u), zpow_sub₀ two_ne_zero (d - e), zpow_sub₀ two_ne_zero d,
    zpow_natCast]
  field_simp

/-- The exponent that `div` starts from. -/
theorem exponent_difference (F : Float) {d e : ℕ} (hd : d ≤ F.EXP_SAT) (he : e ≤ F.EXP_SAT) :
    cast F.BITS F.EXP_SAT = some F.EXP_SAT ∧ cast_i32 (d : ℤ) = some (d : ℤ) ∧
      cast_i32 (e : ℤ) = some (e : ℤ) ∧ sub_i32 (d : ℤ) e = some ((d : ℤ) - e) ∧
      add_i32 ((d : ℤ) - e) (as_i32 F.EXP_BIAS) = some ((d : ℤ) - e + F.EXP_BIAS) := by
  have hsat := F.exp_sat_lt.1
  have hsat_eq := F.exp_sat_eq
  have hword := F.two_pow_le_bits
  refine ⟨cast_eq (by lia), cast_i32_eq ⟨by lia, by lia⟩, cast_i32_eq ⟨by lia, by lia⟩,
    sub_i32_eq ⟨by lia, by lia⟩, ?_⟩
  rw [as_i32_eq ⟨by lia, by lia⟩]
  exact add_i32_eq ⟨by lia, by lia⟩

variable (F pointer) in
/-- The divisor's significand is one when it is cut to the width of the iterations. -/
def CutsToOne (b : ℕ) : Prop :=
  ∃ E N, F.Decoded (F.format.magnitude b) E N ∧ F.IsOneCut pointer (N * 2 ^ F.EXP_BITS)

/-- **The quotient of two finite operands.** -/
theorem div_finite (hF : F ≠ f16) (pointer : PointerSize) (exact unwrapped : Bool)
    (ha : F.format.IsFinite a)
    (hb : F.format.IsFinite b) (ha0 : F.format.magnitude a ≠ 0) (hb0 : F.format.magnitude b ≠ 0)
    (hcut : unwrapped = true → ¬ F.CutsToOne pointer b) :
    ∃ r, F.div exact unwrapped pointer a b =
        some (r + (F.format.negative a ^^ F.format.negative b).toNat * 2 ^ (F.BITS - 1)) ∧
      F.format.Nearest (F.format.scaled (F.format.magnitude a) /
        F.format.scaled (F.format.magnitude b) / F.format.unit) r := by
  have hsig := F.sig_bits_bounds
  have hlt_a := exponent_lt ha
  have hlt_b := exponent_lt hb
  have hsat := F.exp_sat_lt.1
  have hsat_eq := F.exp_sat_eq
  obtain ⟨hcast, hcast_a, hcast_b, hsub, hadd⟩ := F.exponent_difference hlt_a.le hlt_b.le
  unfold div
  rw [hcast, some_bind]
  simp only [and_exp_sat, and_sig_mask, and_abs_mask, and_sign_mask, negative_xor,
    saturated_le_wrapping_sub hlt_a.le, saturated_le_wrapping_sub hlt_b.le, hcast_a, hcast_b, hsub,
    hadd, some_bind]
  split_ifs with hspecial
  · rw [div_special_eq_none ha hb ha0 hb0]
    obtain ⟨s, S, D, M, hrun_a, hM, hdec_a, hexp_a⟩ := renormalize_significand_spec exact ha ha0
    obtain ⟨t, T, E, N, hrun_b, hN, hdec_b, hexp_b⟩ := renormalize_significand_spec exact hb hb0
    have hmin_a := hdec_a.min_exponent
    have hmin_b := hdec_b.min_exponent
    have hmax_a := hdec_a.max_exponent
    have hmax_b := hdec_b.max_exponent
    have hadd_a : add_i32 ((F.format.exponent a : ℤ) - F.format.exponent b + F.EXP_BIAS) s =
        some ((F.format.exponent a : ℤ) - F.format.exponent b + F.EXP_BIAS + s) :=
      add_i32_eq ⟨by lia, by lia⟩
    have hsub_b : sub_i32 ((F.format.exponent a : ℤ) - F.format.exponent b + F.EXP_BIAS + s) t =
        some (D - E + F.EXP_BIAS) := by
      have heq : (F.format.exponent a : ℤ) - F.format.exponent b + F.EXP_BIAS + s - t =
          D - E + F.EXP_BIAS := by lia
      rw [← heq]
      exact sub_i32_eq ⟨by lia, by lia⟩
    simp only [hrun_a, hrun_b, hadd_a, hsub_b, some_bind]
    exact div_significands_spec hF exact _ hM hN hdec_a.lower hdec_a.upper hdec_b.lower
      hdec_b.upper ⟨by lia, by lia⟩ (fun hu hone => hcut hu ⟨E, N, hdec_b, hone⟩)
      (decoded_div hdec_a hdec_b)
  · have hdec_a := decoded_normal ha (fun h0 => hspecial (Or.inl (Or.inl h0)))
    have hdec_b := decoded_normal hb (fun h0 => hspecial (Or.inr (Or.inl h0)))
    exact div_significands_spec hF exact _ rfl rfl hdec_a.lower hdec_a.upper hdec_b.lower
      hdec_b.upper ⟨by lia, by lia⟩ (fun hu hone => hcut hu ⟨_, _, hdec_b, hone⟩)
      (decoded_div hdec_a hdec_b)

/-! ### All words -/

theorem div_extreme (exact unwrapped : Bool) {w : ℕ} (hspecial : F.div_special a b = some w)
    (h : ¬ (F.format.IsFinite a ∧ F.format.magnitude a ≠ 0) ∨
      ¬ (F.format.IsFinite b ∧ F.format.magnitude b ≠ 0)) :
    F.div exact unwrapped pointer a b = some w := by
  obtain ⟨hcast, hcast_a, hcast_b, hsub, hadd⟩ :=
    F.exponent_difference (F.exponent_le a) (F.exponent_le b)
  unfold div
  rw [hcast, some_bind]
  simp only [and_exp_sat, saturated_le_wrapping_sub (exponent_le _), hspecial, hcast_a, hcast_b,
    hsub, hadd, some_bind]
  exact if_pos (h.imp extreme_exponent extreme_exponent)

/-- **Division** is correct for every pair of words: the reading in which the estimate of the
reciprocal may wrap around returns the word of the exact quotient, and so does the one in which it
may not, unless the divisor's significand cuts to one. -/
theorem div_isQuotient (hF : F ≠ f16) (pointer : PointerSize) (ha : a < 2 ^ F.BITS)
    (hb : b < 2 ^ F.BITS) :
    ∃ w, F.format.IsQuotient a b w ∧ ∀ exact unwrapped,
      (unwrapped = true → ¬ F.CutsToOne pointer b) →
        F.div exact unwrapped pointer a b = some w := by
  by_cases hextreme : ¬ (F.format.IsFinite a ∧ F.format.magnitude a ≠ 0) ∨
      ¬ (F.format.IsFinite b ∧ F.format.magnitude b ≠ 0)
  · obtain ⟨w, hspecial, hw⟩ := div_special_eq_some ha hb hextreme
    exact ⟨w, hw, fun exact unwrapped _ => div_extreme exact unwrapped hspecial hextreme⟩
  rw [not_or, not_not, not_not] at hextreme
  obtain ⟨⟨hfin_a, ha0⟩, hfin_b, hb0⟩ := hextreme
  have hpos := div_pos (div_pos (F.format.scaled_pos ha0) (F.format.scaled_pos hb0))
    F.format.unit_pos
  have hvalue : F.format.value a / F.format.value b =
      (if (F.format.negative a ^^ F.format.negative b) = true then -1 else 1) *
        (F.format.scaled (F.format.magnitude a) / F.format.scaled (F.format.magnitude b) /
          F.format.unit) * F.format.unit := by
    rw [BinaryFormat.value_eq, BinaryFormat.value_eq]
    cases F.format.negative a <;> cases F.format.negative b <;>
      simp only [Bool.xor_self, Bool.xor_true, Bool.xor_false, Bool.not_false,
        if_true, if_false, Bool.false_eq_true] <;> field_simp
  obtain ⟨r, -, hr⟩ := div_finite hF pointer true false hfin_a hfin_b ha0 hb0 nofun
  have hlt : r < 2 ^ (F.BITS - 1) := hr.le_infinity.trans_lt infinity_lt
  have hword := signed_lt hlt (F.format.negative a ^^ F.format.negative b)
  have hmag := magnitude_signed hlt (F.format.negative a ^^ F.format.negative b)
  have hneg := negative_signed hlt (F.format.negative a ^^ F.format.negative b)
  have hrun : ∀ exact unwrapped, (unwrapped = true → ¬ F.CutsToOne pointer b) →
      F.div exact unwrapped pointer a b =
        some (r + (F.format.negative a ^^ F.format.negative b).toNat * 2 ^ (F.BITS - 1)) := by
    intro exact unwrapped hcut
    obtain ⟨r', hrun', hr'⟩ := div_finite hF pointer exact unwrapped hfin_a hfin_b ha0 hb0 hcut
    rw [hrun', hr.unique hr']
  generalize r + (F.format.negative a ^^ F.format.negative b).toNat * 2 ^ (F.BITS - 1) = w at *
  rw [← F.format_width] at hword
  refine ⟨w, of_finite hfin_a hfin_b ha0 hb0 ?_, hrun⟩
  rw [hvalue, ← hneg]
  exact BinaryFormat.Nearest.roundsTo_signed hpos (hmag ▸ hr) hword

/-! ### On the way -/

variable (F pointer) in
/-- How many times the correction step may take the next float. -/
def corrections : ℕ :=
  if F.BITS = 128 then 3 else if F.BITS = 32 ∧ 0 < F.half_iterations pointer then 2 else 1

/-- The reciprocal is not overestimated, and the quotient is underestimated by less than the
corrections make up for, each of them a unit and the rounding another half. -/
theorem estimates_spec (hF : F ≠ f16) (pointer : PointerSize) (exact : Bool) {m n : ℕ} {D : ℤ}
    (ha : F.Decoded m D A) (hb : F.Decoded n E B) :
    ∃ x q R A' E', F.reciprocal exact false pointer (B * 2 ^ F.EXP_BITS) = some x ∧
      x * B < 2 ^ (F.BITS + F.SIG_BITS) ∧
      F.estimate_quotient exact x A B (D - E + F.EXP_BIAS) = some (q, R, A', E') ∧
      (A' * 2 ^ E' : ℚ) = A * 2 ^ (D - E + F.EXP_BIAS) ∧
      q * B < A' * 2 ^ F.SIG_BITS ∧
      2 * (A' * 2 ^ F.SIG_BITS) < (2 * (q + F.corrections pointer) + 1) * B := by
  have hsig := F.sig_bits_bounds
  have hsat := F.exp_sat_lt.1
  have hsat_eq := F.exp_sat_eq
  have hmin_a := ha.min_exponent
  have hmin_b := hb.min_exponent
  have hmax_a := ha.max_exponent
  have hmax_b := hb.max_exponent
  obtain ⟨x, hrecip, hx, hx'⟩ := reciprocal_significand hF pointer exact false hb.lower hb.upper
    nofun
  obtain ⟨q, R, A', E', hestimate, h⟩ := estimate_quotient_spec exact ha.lower ha.upper hb.lower
    hb.upper (recip_error_lt hF) hx hx' (E := D - E + F.EXP_BIAS) ⟨by lia, by lia⟩
  have hR := h.residual_lt (recip_error_lt hF)
  have hresidual := h.residual
  have hpos := h.pos
  refine ⟨x, q, R, A', E', hrecip, hx, hestimate, h.value, by lia, ?_⟩
  rw [← hresidual]
  unfold corrections
  split_ifs with h128 h32
  · rw [show (2 * (q + 3) + 1) * B = 2 * (q * B) + 7 * B by ring]
    lia
  · rw [show (2 * (q + 2) + 1) * B = 2 * (q * B) + 5 * B by ring]
    lia
  · have hclose := h.two_mul_residual_lt hF (not_or_intro h128 h32)
    rw [show (2 * (q + 1) + 1) * B = 2 * (q * B) + 3 * B by ring]
    lia

/-- **Soft-float division** rounds the exact quotient. The estimate of the reciprocal stays in its
range unless the divisor's significand, cut to the width of the iterations, is one; there it wraps
around to zero and the adjustments bring it back. In the end it does not exceed the reciprocal, the
corrections suffice for the estimate of the quotient, and the reading that keeps every residual,
shift and cast in its type returns the same word. -/
theorem div_rounded (hF : F ≠ f16) (pointer : PointerSize) (ha : a < 2 ^ F.BITS)
    (hb : b < 2 ^ F.BITS) :
    (∃ w, F.format.IsQuotient a b w ∧ (∀ exact, F.div exact false pointer a b = some w) ∧
      (¬ F.CutsToOne pointer b → ∀ exact, F.div exact true pointer a b = some w)) ∧
    (∀ E N, F.Decoded (F.format.magnitude b) E N → F.IsOneCut pointer (N * 2 ^ F.EXP_BITS) →
      F.iterated pointer (N * 2 ^ F.EXP_BITS) = some 0) ∧
    ∀ exact D M E N, F.Decoded (F.format.magnitude a) D M → F.Decoded (F.format.magnitude b) E N →
      ∃ x q R A' E', F.reciprocal exact false pointer (N * 2 ^ F.EXP_BITS) = some x ∧
        x * N < 2 ^ (F.BITS + F.SIG_BITS) ∧
        F.estimate_quotient exact x M N (D - E + F.EXP_BIAS) = some (q, R, A', E') ∧
        (A' * 2 ^ E' : ℚ) = M * 2 ^ (D - E + F.EXP_BIAS) ∧
        q * N < A' * 2 ^ F.SIG_BITS ∧
        2 * (A' * 2 ^ F.SIG_BITS) < (2 * (q + F.corrections pointer) + 1) * N := by
  obtain ⟨w, hw, hrun⟩ := div_isQuotient hF pointer ha hb
  exact ⟨⟨w, hw, fun exact => hrun exact false nofun,
    fun hcut exact => hrun exact true fun _ => hcut⟩,
    fun _ _ _ hone => iterated_of_isOneCut hF hone,
    fun exact _ _ _ _ hdec_a hdec_b => estimates_spec hF pointer exact hdec_a hdec_b⟩

theorem div_rounded_f32 : (∃ w, f32.format.IsQuotient 0x3f800000 0x40400000 w ∧
      (∀ exact, f32.div exact false .four 0x3f800000 0x40400000 = some w) ∧
      (¬ f32.CutsToOne .four 0x40400000 →
        ∀ exact, f32.div exact true .four 0x3f800000 0x40400000 = some w)) ∧
    (∀ E N, f32.Decoded (f32.format.magnitude 0x40400000) E N →
      f32.IsOneCut .four (N * 2 ^ f32.EXP_BITS) →
      f32.iterated .four (N * 2 ^ f32.EXP_BITS) = some 0) ∧
    ∀ exact D M E N, f32.Decoded (f32.format.magnitude 0x3f800000) D M →
      f32.Decoded (f32.format.magnitude 0x40400000) E N →
      ∃ x q R A' E', f32.reciprocal exact false .four (N * 2 ^ f32.EXP_BITS) = some x ∧
        x * N < 2 ^ (f32.BITS + f32.SIG_BITS) ∧
        f32.estimate_quotient exact x M N (D - E + f32.EXP_BIAS) = some (q, R, A', E') ∧
        (A' * 2 ^ E' : ℚ) = M * 2 ^ (D - E + f32.EXP_BIAS) ∧
        q * N < A' * 2 ^ f32.SIG_BITS ∧
        2 * (A' * 2 ^ f32.SIG_BITS) < (2 * (q + f32.corrections .four) + 1) * N :=
  div_rounded (by decide) .four (by decide) (by decide)

/-- Dividing by one, the estimate of the reciprocal reaches one and wraps around. -/
theorem div_wraps : ¬ ∀ a < 2 ^ f32.BITS, ∀ b < 2 ^ f32.BITS, ∃ w, f32.format.IsQuotient a b w ∧
      ∀ exact unwrapped, f32.div exact unwrapped .eight a b = some w := by
  intro h
  obtain ⟨w, -, hw⟩ := h 0x3f800000 (by decide) 0x3f800000 (by decide)
  have hnone : f32.div true true .eight 0x3f800000 0x3f800000 = none := by decide
  rw [hw] at hnone
  exact absurd hnone nofun

end Float

end RustStd.SoftFloat
