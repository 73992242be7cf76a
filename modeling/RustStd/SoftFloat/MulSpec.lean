import RustStd.SoftFloat.Mul

/-!
# The generic product is the rounded exact product

Words with an extreme exponent go through the early returns or are normalised first; the others
are multiplied at once.
-/

namespace RustStd.SoftFloat

open BinaryFormat BinaryFormat.IsProduct

namespace Float

variable {F : Float} {a b : ℕ}

theorem and_exp_sat (w : ℕ) : w / 2 ^ F.SIG_BITS &&& F.EXP_SAT = F.format.exponent w := by
  have hbits : F.BITS - 1 = F.SIG_BITS + F.EXP_BITS := by
    rw [bits_eq, Nat.add_sub_cancel]
  unfold exponent magnitude EXP_SAT
  rw [Nat.and_two_pow_sub_one_eq_mod, format_width, hbits, format_fraction_bits, pow_add,
    Nat.mod_mul_right_div_self]

theorem saturated_le_wrapping_sub {e : ℕ} (he : e ≤ F.EXP_SAT) :
    F.EXP_SAT - 1 ≤ Word.wrapping_sub F.BITS e 1 ↔ e = 0 ∨ e = F.EXP_SAT := by
  have hword := F.two_pow_le_bits
  have hsat := F.exp_sat_lt.1
  have hpos := F.format.saturated_pos
  rw [format_saturated] at hpos
  rcases Nat.eq_zero_or_pos e with rfl | hpos'
  · rw [Word.wrapping_sub_of_lt (by lia) Nat.one_pos]
    lia
  · rw [Word.wrapping_sub_of_le (by lia) hpos']
    lia

/-- A sign put on a magnitude by `|`. -/
theorem or_sign {m : ℕ} (hm : m < 2 ^ (F.BITS - 1)) (a b : ℕ) : m ||| ((a ^^^ b) &&& F.SIGN_MASK) =
      m + (F.format.negative a ^^ F.format.negative b).toNat * 2 ^ (F.BITS - 1) := by
  rw [and_sign_mask, negative_xor, Word.or_eq_add hm]

theorem mul_special_eq_none (ha : F.format.IsFinite a) (hb : F.format.IsFinite b)
    (ha0 : F.format.magnitude a ≠ 0) (hb0 : F.format.magnitude b ≠ 0) :
    F.mul_special a b = none := by
  unfold BinaryFormat.IsFinite at ha hb
  unfold mul_special
  simp only [and_abs_mask, ← infinity_eq]
  rw [if_neg (by lia), if_neg (by lia), if_neg (by lia), if_neg (by lia), if_neg ha0,
    if_neg hb0]

/-- Operands that are zero, infinite or no number are answered at once. -/
theorem mul_special_eq_some (ha : a < 2 ^ F.BITS) (hb : b < 2 ^ F.BITS)
    (h : ¬ (F.format.IsFinite a ∧ F.format.magnitude a ≠ 0) ∨
      ¬ (F.format.IsFinite b ∧ F.format.magnitude b ≠ 0)) :
    ∃ w, F.mul_special a b = some w ∧ F.format.IsProduct a b w := by
  have hsigned : ∀ m < 2 ^ (F.BITS - 1), ∀ negative : Bool,
      m + negative.toNat * 2 ^ (F.BITS - 1) < 2 ^ F.format.width := by
    intro m hm negative
    rw [format_width]
    exact signed_lt hm negative
  have hinf_lt := F.infinity_lt
  have hzero_lt := Nat.two_pow_pos (F.BITS - 1)
  have hzero_or : ∀ a b : ℕ, (a ^^^ b) &&& F.SIGN_MASK =
      0 + (F.format.negative a ^^ F.format.negative b).toNat * 2 ^ (F.BITS - 1) := by
    intro a b
    rw [← or_sign hzero_lt, Nat.zero_or]
  have hnan_iff : ∀ w, F.format.infinity < F.format.magnitude w → F.format.IsNaN w := fun _ h => h
  unfold BinaryFormat.IsFinite at h
  unfold mul_special
  simp only [and_abs_mask, ← infinity_eq]
  split
  · next hnan =>
    have hquiet := quiet_spec ha (hnan_iff a hnan)
    exact ⟨_, rfl, of_nan (Or.inl hnan) (F.format_width ▸ hquiet.1) hquiet.2⟩
  next hnan_a =>
  split
  · next hnan =>
    have hquiet := quiet_spec hb (hnan_iff b hnan)
    exact ⟨_, rfl, of_nan (Or.inr hnan) (F.format_width ▸ hquiet.1) hquiet.2⟩
  next hnan_b =>
  split
  · next hinf =>
    split
    · next hne =>
      rw [hinf, or_sign hinf_lt]
      exact ⟨_, rfl, of_infinite (Or.inl hinf) ⟨hnan_a, hnan_b⟩
        ⟨by lia, hne⟩ (hsigned _ hinf_lt _)
        ⟨magnitude_signed hinf_lt _, negative_signed hinf_lt _⟩⟩
    · next hzero =>
      exact ⟨_, rfl, of_invalid (Or.inl ⟨hinf, not_not.1 hzero⟩)
        (F.format_width ▸ qnan_spec.1) qnan_spec.2⟩
  next hinf_a =>
  have hfin_a : F.format.IsFinite a := by unfold BinaryFormat.IsFinite; lia
  split
  · next hinf =>
    split
    · next hne =>
      rw [hinf, or_sign hinf_lt]
      exact ⟨_, rfl, of_infinite (Or.inr hinf) ⟨hnan_a, hnan_b⟩
        ⟨hne, by lia⟩ (hsigned _ hinf_lt _)
        ⟨magnitude_signed hinf_lt _, negative_signed hinf_lt _⟩⟩
    · next hzero =>
      exact ⟨_, rfl, of_invalid (Or.inr ⟨not_not.1 hzero, hinf⟩)
        (F.format_width ▸ qnan_spec.1) qnan_spec.2⟩
  next hinf_b =>
  have hfin_b : F.format.IsFinite b := by unfold BinaryFormat.IsFinite; lia
  have hproduct_zero : F.format.magnitude a = 0 ∨ F.format.magnitude b = 0 := by lia
  have hvalue : F.format.value a * F.format.value b = 0 :=
    mul_eq_zero.2 (hproduct_zero.imp value_eq_zero_iff.2 value_eq_zero_iff.2)
  refine ⟨(a ^^^ b) &&& F.SIGN_MASK, ?_, ?_⟩
  · rcases hproduct_zero with h0 | h0
    · rw [if_pos h0]
    · rw [if_pos h0]
      exact ite_self _
  · rw [hzero_or]
    exact of_finite hfin_a hfin_b (hsigned _ hzero_lt _)
      (fun _ => ⟨magnitude_signed hzero_lt _, negative_signed hzero_lt _⟩)
      fun hne => absurd hvalue hne

/-! ### Finite operands -/

/-- The exponent, the scale and the significand together are the decoded operand. -/
theorem renormalize_spec (exact : Bool) {w : ℕ} (hfin : F.format.IsFinite w)
    (hne : F.format.magnitude w ≠ 0) (scale : ℤ) (hscale : -2 ^ 30 ≤ scale)
    (hscale' : scale ≤ 0) :
    ∃ scale' S E N, F.renormalize exact scale (F.format.magnitude w) (F.format.fraction w) =
      some (scale', S) ∧ S ||| F.IMPLICIT_BIT = N ∧ F.Decoded (F.format.magnitude w) E N ∧
      F.format.exponent w + scale' = scale + E ∧ scale - F.SIG_BITS ≤ scale' ∧ scale' ≤ 0 := by
  have hsig := F.sig_bits_bounds
  unfold renormalize
  rw [IMPLICIT_BIT]
  by_cases hlt : F.format.magnitude w < 2 ^ F.SIG_BITS
  · have hexp : F.format.exponent w = 0 := Nat.div_eq_of_lt hlt
    have hfrac : F.format.fraction w = F.format.magnitude w := by
      rw [← fraction_magnitude, format_fraction_bits, Nat.mod_eq_of_lt hlt]
    obtain ⟨E, N, hnorm, hdec, hE⟩ := normalize_spec exact hne hlt
    have hmin := hdec.min_exponent
    refine ⟨scale + E, N, E, N, ?_, or_implicit_bit hdec.lower hdec.upper, hdec, ?_, by lia,
      by lia⟩
    · have hadd : add_i32 scale E = some (scale + E) := add_i32_eq ⟨by lia, by lia⟩
      rw [if_pos hlt, hfrac, hnorm]
      simp [some_bind, hadd]
    · rw [hexp, Nat.cast_zero, zero_add]
  · have hexp : F.format.exponent w ≠ 0 := by
      intro h0
      exact hlt ((Nat.div_eq_zero_iff.1 h0).resolve_left (Nat.two_pow_pos _).ne')
    refine ⟨scale, F.format.fraction w, F.format.exponent w, _, if_neg hlt, rfl,
      decoded_normal hfin hexp, add_comm _ _, by lia, hscale'⟩

/-- The product of two decoded operands, in units of the least number. -/
theorem decoded_mul {m n : ℕ} {D E : ℤ} {M N : ℕ} (hm : F.Decoded m D M) (hn : F.Decoded n E N) :
    (F.format.scaled m * F.format.scaled n * F.format.unit : ℚ) =
      M * N * 2 ^ (D + E - F.EXP_BIAS - 1 - F.SIG_BITS) := by
  rw [hm.scaled, hn.scaled, unit, format_bias, format_fraction_bits,
    show D + E - F.EXP_BIAS - 1 - F.SIG_BITS = (D - 1) + (E - 1) + (1 - F.EXP_BIAS - F.SIG_BITS)
      by ring, zpow_add₀ two_ne_zero, zpow_add₀ two_ne_zero]
  ring

/-- **The product of two finite operands.** -/
theorem mul_finite (exact : Bool) (ha : F.format.IsFinite a) (hb : F.format.IsFinite b)
    (ha0 : F.format.magnitude a ≠ 0) (hb0 : F.format.magnitude b ≠ 0) :
    ∃ r, F.mul exact a b = some (r + (F.format.negative a ^^ F.format.negative b).toNat *
        2 ^ (F.BITS - 1)) ∧
      F.format.Nearest (F.format.scaled (F.format.magnitude a) *
        F.format.scaled (F.format.magnitude b) * F.format.unit) r := by
  have hsig := F.sig_bits_bounds
  have hlt_a := exponent_lt ha
  have hlt_b := exponent_lt hb
  have hcast : cast F.BITS F.EXP_SAT = some F.EXP_SAT := by
    refine cast_eq ?_
    have hword := F.two_pow_le_bits
    have hsat := F.exp_sat_lt.1
    lia
  unfold mul
  rw [hcast, some_bind]
  simp only [and_exp_sat, and_sig_mask, and_abs_mask, and_sign_mask, negative_xor,
    saturated_le_wrapping_sub hlt_a.le, saturated_le_wrapping_sub hlt_b.le]
  split_ifs with hspecial
  · rw [mul_special_eq_none ha hb ha0 hb0]
    obtain ⟨s, S, D, M, hrun_a, hM, hdec_a, hexp_a, hs, hs0⟩ :=
      renormalize_spec exact ha ha0 0 (by lia) le_rfl
    obtain ⟨t, T, E, N, hrun_b, hN, hdec_b, hexp_b, ht, ht0⟩ :=
      renormalize_spec exact hb hb0 s (by lia) hs0
    simp only [hrun_a, hrun_b, some_bind]
    have hmin_a := hdec_a.min_exponent
    have hmin_b := hdec_b.min_exponent
    have hsum : (F.format.exponent a : ℤ) + F.format.exponent b + t = D + E := by lia
    refine mul_significands_spec exact _ hM hN hdec_a.lower hdec_a.upper hdec_b.lower hdec_b.upper
      hlt_a hlt_b (by lia) (by lia) ?_
    rw [hsum]
    exact decoded_mul hdec_a hdec_b
  · have hdec_a := decoded_normal ha (fun h0 => hspecial (Or.inl (Or.inl h0)))
    have hdec_b := decoded_normal hb (fun h0 => hspecial (Or.inr (Or.inl h0)))
    refine mul_significands_spec exact _ rfl rfl hdec_a.lower hdec_a.upper hdec_b.lower
      hdec_b.upper hlt_a hlt_b (by lia) (by lia) ?_
    rw [add_zero]
    exact decoded_mul hdec_a hdec_b

theorem exponent_le (w : ℕ) : F.format.exponent w ≤ F.EXP_SAT := by
  rw [← and_exp_sat]
  exact Nat.and_le_right

/-- What is zero, infinite or not a number has an extreme exponent. -/
theorem extreme_exponent {w : ℕ} (h : ¬ (F.format.IsFinite w ∧ F.format.magnitude w ≠ 0)) :
    F.format.exponent w = 0 ∨ F.format.exponent w = F.EXP_SAT := by
  rcases eq_or_ne (F.format.magnitude w) 0 with h0 | h0
  · left
    rw [exponent, h0, Nat.zero_div]
  · right
    refine Nat.le_antisymm (exponent_le w) ((Nat.le_div_iff_mul_le (Nat.two_pow_pos _)).2 ?_)
    exact Nat.le_of_not_lt fun hlt => h ⟨hlt, h0⟩

theorem mul_extreme (exact : Bool) {w : ℕ} (hspecial : F.mul_special a b = some w)
    (h : ¬ (F.format.IsFinite a ∧ F.format.magnitude a ≠ 0) ∨
      ¬ (F.format.IsFinite b ∧ F.format.magnitude b ≠ 0)) : F.mul exact a b = some w := by
  have hcast : cast F.BITS F.EXP_SAT = some F.EXP_SAT := by
    refine cast_eq ?_
    have hword := F.two_pow_le_bits
    have hsat := F.exp_sat_lt.1
    lia
  unfold mul
  rw [hcast, some_bind]
  simp only [and_exp_sat, saturated_le_wrapping_sub (exponent_le _), hspecial]
  exact if_pos (h.imp extreme_exponent extreme_exponent)

/-- **Multiplication** is correct for every pair of words of every type: in either reading it
returns the word of the exact product. -/
theorem mul_isProduct (F : Float) (ha : a < 2 ^ F.BITS) (hb : b < 2 ^ F.BITS) :
    ∃ w, (∀ exact, F.mul exact a b = some w) ∧ F.format.IsProduct a b w := by
  by_cases hextreme : ¬ (F.format.IsFinite a ∧ F.format.magnitude a ≠ 0) ∨
      ¬ (F.format.IsFinite b ∧ F.format.magnitude b ≠ 0)
  · obtain ⟨w, hspecial, hw⟩ := mul_special_eq_some ha hb hextreme
    exact ⟨w, fun exact => mul_extreme exact hspecial hextreme, hw⟩
  rw [not_or, not_not, not_not] at hextreme
  obtain ⟨⟨hfin_a, ha0⟩, hfin_b, hb0⟩ := hextreme
  have hpos := mul_pos (mul_pos (F.format.scaled_pos ha0) (F.format.scaled_pos hb0))
    F.format.unit_pos
  have hvalue : F.format.value a * F.format.value b =
      (if (F.format.negative a ^^ F.format.negative b) = true then -1 else 1) *
        (F.format.scaled (F.format.magnitude a) * F.format.scaled (F.format.magnitude b) *
          F.format.unit) * F.format.unit := by
    rw [value_eq, value_eq]
    cases F.format.negative a <;> cases F.format.negative b <;>
      simp only [Bool.xor_self, Bool.xor_true, Bool.xor_false, Bool.not_false,
        if_true, if_false, Bool.false_eq_true] <;> ring
  obtain ⟨r, -, hr⟩ := mul_finite true hfin_a hfin_b ha0 hb0
  have hlt : r < 2 ^ (F.BITS - 1) := hr.le_infinity.trans_lt infinity_lt
  have hword := signed_lt hlt (F.format.negative a ^^ F.format.negative b)
  have hmag := magnitude_signed hlt (F.format.negative a ^^ F.format.negative b)
  have hneg := negative_signed hlt (F.format.negative a ^^ F.format.negative b)
  have hrun : ∀ exact, F.mul exact a b =
      some (r + (F.format.negative a ^^ F.format.negative b).toNat * 2 ^ (F.BITS - 1)) := by
    intro exact
    obtain ⟨r', hrun', hr'⟩ := mul_finite exact hfin_a hfin_b ha0 hb0
    rw [hrun', hr.unique hr']
  generalize r + (F.format.negative a ^^ F.format.negative b).toNat * 2 ^ (F.BITS - 1) = w at *
  rw [← F.format_width] at hword
  refine ⟨w, hrun, of_finite hfin_a hfin_b hword (fun h => ?_) fun _ => ?_⟩
  · rw [hvalue] at h
    exact absurd h (signed_ne_zero hpos _)
  · rw [hvalue, ← hneg]
    exact BinaryFormat.Nearest.roundsTo_signed hpos (hmag ▸ hr) hword

/-- **Soft-float addition and multiplication** round the exact sum and the exact product, for every
type and every pair of words. In the exact reading no shift amount reaches the width, every cast
fits and nothing is lost by wrapping around, and the result is the same. -/
theorem add_mul_rounded (F : Float) (ha : a < 2 ^ F.BITS) (hb : b < 2 ^ F.BITS) :
    (∃ w, (∀ exact, F.add exact a b = some w) ∧ F.format.IsSum a b w) ∧
      ∃ w, (∀ exact, F.mul exact a b = some w) ∧ F.format.IsProduct a b w :=
  ⟨add_isSum F ha hb, mul_isProduct F ha hb⟩

theorem add_mul_rounded_f32 : (∃ w, (∀ exact, f32.add exact 0x3f800001 0x33800000 = some w) ∧
        f32.format.IsSum 0x3f800001 0x33800000 w) ∧
      ∃ w, (∀ exact, f32.mul exact 0x3f800001 0x33800000 = some w) ∧
        f32.format.IsProduct 0x3f800001 0x33800000 w :=
  add_mul_rounded f32 (by decide) (by decide)

end Float

end RustStd.SoftFloat
