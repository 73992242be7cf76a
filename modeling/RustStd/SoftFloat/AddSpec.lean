import RustStd.SoftFloat.Add

/-!
# The generic sum is the rounded exact sum

The operands that are zero, infinite or not a number are told apart first; what is left goes
through `add_ordered`.
-/

namespace RustStd.SoftFloat

open Nat BinaryFormat BinaryFormat.IsSum

namespace Float

variable {F : Float} {a b : ℕ}

/-! ### Words of special values -/

theorem infinity_le_wrapping_sub {m : ℕ} (hm : m < 2 ^ (F.BITS - 1)) :
    F.format.infinity - 1 ≤ Word.wrapping_sub F.BITS m 1 ↔ m = 0 ∨ F.format.infinity ≤ m := by
  have hinf := F.format.infinity_pos
  have hlt := F.infinity_lt
  have hword : 2 ^ (F.BITS - 1) ≤ 2 ^ F.BITS := Nat.pow_le_pow_right Nat.two_pos (sub_le _ _)
  rcases Nat.eq_zero_or_pos m with rfl | hpos
  · rw [Word.wrapping_sub_of_lt (by lia) one_pos]
    lia
  · rw [Word.wrapping_sub_of_le (by lia) hpos]
    lia

/-- Setting the quiet bit of what is not a number. -/
theorem quiet_spec {w : ℕ} (hw : w < 2 ^ F.BITS) (hnan : F.format.IsNaN w) :
    (w ||| F.IMPLICIT_BIT / 2) < 2 ^ F.BITS ∧ F.format.IsQuietNaN (w ||| F.IMPLICIT_BIT / 2) := by
  have hsig := F.sig_bits_bounds
  have hbits := F.bits_eq
  have hquiet : F.IMPLICIT_BIT / 2 = 2 ^ (F.SIG_BITS - 1) := by
    rw [IMPLICIT_BIT, show F.SIG_BITS = F.SIG_BITS - 1 + 1 by lia, pow_succ,
      Nat.mul_div_cancel _ Nat.two_pos, Nat.add_sub_cancel]
  have hlt : 2 ^ (F.SIG_BITS - 1) < 2 ^ F.BITS := Nat.pow_lt_pow_right (by decide) (by lia)
  rw [hquiet]
  refine ⟨or_lt_two_pow hw hlt, ?_, ?_⟩
  · unfold BinaryFormat.IsNaN magnitude
    rw [or_mod_two_pow]
    exact lt_of_lt_of_le hnan left_le_or
  · rw [format_fraction_bits, testBit_or, testBit_two_pow_self, Bool.or_true]

/-- The quiet word that stands for an invalid operation. -/
theorem qnan_spec : (F.format.infinity ||| F.IMPLICIT_BIT / 2) < 2 ^ F.BITS ∧
    F.format.IsQuietNaN (F.format.infinity ||| F.IMPLICIT_BIT / 2) := by
  rw [infinity_eq]
  have hsig := F.sig_bits_bounds
  have hbits := F.bits_eq
  have hpow : 2 ^ F.SIG_BITS = 2 ^ (F.SIG_BITS - 1) * 2 := by
    rw [← pow_succ, Nat.sub_add_cancel (by lia)]
  have hquiet : F.IMPLICIT_BIT / 2 = 2 ^ (F.SIG_BITS - 1) := by
    rw [IMPLICIT_BIT, hpow, Nat.mul_div_cancel _ Nat.two_pos]
  have hpos := Nat.two_pow_pos (F.SIG_BITS - 1)
  have hor : F.EXP_MASK ||| 2 ^ (F.SIG_BITS - 1) = F.EXP_MASK + 2 ^ (F.SIG_BITS - 1) := by
    rw [exp_mask_eq]
    exact Word.or_eq_add' (by lia) _
  have hlt : F.EXP_MASK + 2 ^ (F.SIG_BITS - 1) < 2 ^ (F.BITS - 1) := by
    have hexp : F.EXP_SAT + 1 = 2 ^ F.EXP_BITS := Nat.sub_add_cancel Nat.one_le_two_pow
    have hsum : (F.EXP_SAT + 1) * 2 ^ F.SIG_BITS = 2 ^ (F.BITS - 1) := by
      rw [hexp, ← pow_add, Nat.add_comm, hbits, Nat.add_sub_cancel]
    rw [exp_mask_eq, ← hsum, add_mul]
    lia
  have hmag := F.magnitude_signed hlt false
  rw [Bool.toNat_false, zero_mul, add_zero] at hmag
  rw [hquiet]
  refine ⟨?_, ?_, ?_⟩
  · rw [hor]
    exact hlt.trans_le (Nat.pow_le_pow_right Nat.two_pos (sub_le _ _))
  · unfold BinaryFormat.IsNaN
    rw [hor, hmag, infinity_eq]
    lia
  · rw [format_fraction_bits, testBit_or, testBit_two_pow_self, Bool.or_true]

/-- Words that differ in nothing but the sign. -/
theorem xor_eq_sign_mask (ha : a < 2 ^ F.BITS) (hb : b < 2 ^ F.BITS) :
    a ^^^ b = F.SIGN_MASK ↔ F.format.magnitude a = F.format.magnitude b ∧
      F.format.negative a ≠ F.format.negative b := by
  have hmag : F.format.magnitude (a ^^^ b) = 0 ↔ F.format.magnitude a = F.format.magnitude b := by
    unfold magnitude
    rw [xor_mod_two_pow, Nat.xor_eq_zero_iff]
  have hneg : F.format.negative (a ^^^ b) = true ↔ F.format.negative a ≠ F.format.negative b := by
    rw [negative_xor, bne_iff_ne]
  rw [← hmag, ← hneg]
  constructor
  · intro h
    have hword := F.magnitude_signed (Nat.two_pow_pos _) true
    have hword' := F.negative_signed (Nat.two_pow_pos _) true
    rw [Bool.toNat_true, Nat.one_mul, Nat.zero_add] at hword hword'
    rw [h]
    exact ⟨hword, hword'⟩
  · rintro ⟨h0, h1⟩
    rw [word_eq (xor_lt_two_pow ha hb), h0, h1, Bool.toNat_true, Nat.one_mul, Nat.zero_add]
    rfl

/-! ### The early returns -/

/-- Neither operand is zero, infinite or not a number. -/
theorem add_special_eq_none (ha : F.format.IsFinite a) (hb : F.format.IsFinite b)
    (ha0 : F.format.magnitude a ≠ 0) (hb0 : F.format.magnitude b ≠ 0) :
    F.add_special a b = none := by
  unfold BinaryFormat.IsFinite at ha hb
  unfold add_special
  simp only [and_abs_mask, ← infinity_eq, infinity_le_wrapping_sub (magnitude_lt _)]
  exact if_neg (by lia)

/-- Operands that are zero, infinite or no number are answered at once. -/
theorem add_special_eq_some (ha : a < 2 ^ F.BITS) (hb : b < 2 ^ F.BITS)
    (h : ¬ (F.format.IsFinite a ∧ F.format.magnitude a ≠ 0) ∨
      ¬ (F.format.IsFinite b ∧ F.format.magnitude b ≠ 0)) :
    ∃ w, F.add_special a b = some w ∧ F.format.IsSum a b w := by
  have hmag : ∀ w, F.format.magnitude (F.format.magnitude w) = F.format.magnitude w := by
    intro w
    unfold magnitude
    exact mod_mod _ _
  have hword : ∀ w, F.format.magnitude w < 2 ^ F.BITS := fun w =>
    (magnitude_lt w).trans_le (Nat.pow_le_pow_right Nat.two_pos (sub_le _ _))
  unfold BinaryFormat.IsFinite at h
  unfold add_special
  simp only [and_abs_mask, infinity_le_wrapping_sub (magnitude_lt _), ← infinity_eq]
  rw [if_pos (by lia)]
  split
  · next hnan =>
    have hquiet := quiet_spec (hword a) (show F.format.IsNaN (F.format.magnitude a) by
      unfold BinaryFormat.IsNaN; rwa [hmag])
    exact ⟨_, rfl, of_nan (Or.inl hnan) (F.format_width ▸ hquiet.1) hquiet.2⟩
  next hnan_a =>
  split
  · next hnan =>
    have hquiet := quiet_spec (hword b) (show F.format.IsNaN (F.format.magnitude b) by
      unfold BinaryFormat.IsNaN; rwa [hmag])
    exact ⟨_, rfl, of_nan (Or.inr hnan) (F.format_width ▸ hquiet.1) hquiet.2⟩
  next hnan_b =>
  split
  · next hinf =>
    split
    · next hxor =>
      rw [xor_eq_sign_mask ha hb] at hxor
      have hinf_b : F.format.IsInfinite b := hxor.1.symm.trans hinf
      refine ⟨_, rfl, F.format_width ▸ qnan_spec.1, fun _ => qnan_spec.2, fun _ _ _ => qnan_spec.2,
        fun _ _ hsign => absurd (hsign hinf_b) hxor.2, fun hfin => ?_, fun hfin => ?_,
        fun hfin => ?_⟩ <;>
      exact absurd hinf hfin.not_infinite
    · next hxor =>
      rw [xor_eq_sign_mask ha hb, hinf, not_and, not_not] at hxor
      refine ⟨_, rfl, F.format_width ▸ ha, fun hnan => ?_, fun _ hb hne => ?_,
        fun _ _ _ => ⟨hinf, rfl⟩, fun hfin => ?_, fun hfin => ?_, fun hfin => ?_⟩
      · exact absurd hnan (not_or_intro hnan_a hnan_b)
      · exact absurd (hxor hb.symm) hne
      all_goals exact absurd hinf hfin.not_infinite
  next hinf_a =>
  have hfin_a : F.format.IsFinite a := by unfold BinaryFormat.IsFinite; lia
  split
  · next hinf =>
    refine ⟨_, rfl, F.format_width ▸ hb, fun hnan => ?_, fun hinf => ?_, fun hinf => ?_,
      fun _ _ => ⟨hinf, rfl⟩, fun _ hfin => ?_, fun _ hfin => ?_⟩
    · exact absurd hnan (not_or_intro hnan_a hnan_b)
    · exact absurd hinf hinf_a
    · exact absurd hinf hinf_a
    all_goals exact absurd hinf hfin.not_infinite
  next hinf_b =>
  have hfin_b : F.format.IsFinite b := by unfold BinaryFormat.IsFinite; lia
  split
  · next hzero =>
    have hvalue : F.format.value a = 0 := value_eq_zero_iff.2 hzero
    split
    · next hzero' =>
      have hvalue' : F.format.value b = 0 := value_eq_zero_iff.2 hzero'
      refine ⟨_, rfl, of_finite hfin_a hfin_b
        (F.format_width ▸ and_lt_two_pow a hb) (fun _ => ⟨?_, ?_⟩) fun hne => ?_⟩
      · unfold magnitude at hzero ⊢
        rw [and_mod_two_pow, hzero, zero_and]
      · exact testBit_and ..
      · rw [hvalue, hvalue', add_zero] at hne
        exact absurd rfl hne
    · next hne =>
      refine ⟨_, rfl, of_finite hfin_a hfin_b (F.format_width ▸ hb) (fun hsum => ?_) fun _ => ?_⟩
      · rw [hvalue, zero_add, value_eq_zero_iff] at hsum
        exact absurd hsum hne
      · rw [hvalue, zero_add]
        exact BinaryFormat.RoundsTo.self (F.format_width ▸ hb) hfin_b hne
  next hne =>
  have hzero : F.format.magnitude b = 0 := by lia
  have hvalue : F.format.value b = 0 := value_eq_zero_iff.2 hzero
  rw [if_pos hzero]
  refine ⟨_, rfl, of_finite hfin_a hfin_b (F.format_width ▸ ha) (fun hsum => ?_) fun _ => ?_⟩
  · rw [hvalue, add_zero, value_eq_zero_iff] at hsum
    exact absurd hsum hne
  · rw [hvalue, add_zero]
    exact BinaryFormat.RoundsTo.self (F.format_width ▸ ha) hfin_a hne

/-! ### The sum -/

/-- The exact sum of two operands, that of the larger magnitude first, in units of the least
number. -/
theorem abs_sum (hle : F.format.magnitude b ≤ F.format.magnitude a) {X : ℚ}
    (hX : X = if F.format.negative a = F.format.negative b then
      (F.format.scaled (F.format.magnitude a) + F.format.scaled (F.format.magnitude b) : ℚ)
      else F.format.scaled (F.format.magnitude a) - F.format.scaled (F.format.magnitude b)) :
    0 ≤ X ∧ F.format.value a + F.format.value b =
      (if F.format.negative a then -1 else 1) * X * F.format.unit := by
  have hmono : (F.format.scaled (F.format.magnitude b) : ℚ) ≤
      F.format.scaled (F.format.magnitude a) :=
    cast_le.2 (scaled_strictMono.monotone hle)
  rw [value_eq, value_eq, hX]
  constructor
  · split
    · positivity
    · linarith
  · cases F.format.negative a <;> cases F.format.negative b <;>
      simp only [if_true, if_false, Bool.false_eq_true, Bool.true_eq_false] <;> ring

/-- The sum of two finite operands that are not zero. -/
theorem add_finite (ha : F.format.IsFinite a) (hb : F.format.IsFinite b)
    (ha0 : F.format.magnitude a ≠ 0) (hb0 : F.format.magnitude b ≠ 0)
    (hle : F.format.magnitude b ≤ F.format.magnitude a) :
    ∃ w, (∀ exact, F.add_ordered exact a b = some w) ∧ F.format.IsSum a b w := by
  obtain ⟨X, hX⟩ : ∃ X, X = if F.format.negative a = F.format.negative b then
      (F.format.scaled (F.format.magnitude a) + F.format.scaled (F.format.magnitude b) : ℚ)
      else F.format.scaled (F.format.magnitude a) - F.format.scaled (F.format.magnitude b) :=
    ⟨_, rfl⟩
  have hspec := fun exact => add_ordered_spec exact ha hb ha0 hb0 hle hX
  obtain ⟨hnn, hsum⟩ := abs_sum hle hX
  rcases hnn.eq_or_lt with hzero | hpos
  · refine ⟨0, fun exact => (hspec exact).1 hzero.symm, of_finite ha hb
      (Nat.two_pow_pos _) (fun _ => ⟨zero_mod _, ?_⟩) fun hne => ?_⟩
    · have hsign : F.format.negative a ≠ F.format.negative b := by
        intro heq
        rw [if_pos heq] at hX
        have hpos := F.format.scaled_pos ha0
        linarith
      rw [negative, zero_testBit]
      cases hneg : F.format.negative a
      · rfl
      · rw [hneg, ne_comm, ne_eq, Bool.not_eq_true] at hsign
        rw [hsign]
        rfl
    · rw [hsum, ← hzero, mul_zero, zero_mul] at hne
      exact absurd rfl hne
  · obtain ⟨r, hrun, hr⟩ := (hspec true).2 hpos.ne'
    have hlt : r < 2 ^ (F.BITS - 1) := hr.le_infinity.trans_lt infinity_lt
    have hword := signed_lt hlt (F.format.negative a)
    have hmag := magnitude_signed hlt (F.format.negative a)
    have hneg := negative_signed hlt (F.format.negative a)
    have hrun_all : ∀ exact, F.add_ordered exact a b =
        some (r + (F.format.negative a).toNat * 2 ^ (F.BITS - 1)) := by
      intro exact
      obtain ⟨r', hrun', hr'⟩ := (hspec exact).2 hpos.ne'
      rw [hrun', hr.unique hr']
    generalize r + (F.format.negative a).toNat * 2 ^ (F.BITS - 1) = w at *
    rw [← F.format_width] at hword
    refine ⟨w, hrun_all, of_finite ha hb hword (fun h => ?_) fun _ => ?_⟩
    · rw [hsum] at h
      exact absurd h (signed_ne_zero hpos _)
    · rw [hsum, ← hneg]
      exact BinaryFormat.Nearest.roundsTo_signed hpos (hmag ▸ hr) hword

/-- **Addition** is correct for every pair of words of every type: in either reading it returns
the word of the exact sum. -/
theorem add_isSum (F : Float) (ha : a < 2 ^ F.BITS) (hb : b < 2 ^ F.BITS) :
    ∃ w, (∀ exact, F.add exact a b = some w) ∧ F.format.IsSum a b w := by
  unfold add
  by_cases hfin_a : F.format.IsFinite a ∧ F.format.magnitude a ≠ 0
  · by_cases hfin_b : F.format.IsFinite b ∧ F.format.magnitude b ≠ 0
    · rw [add_special_eq_none hfin_a.1 hfin_b.1 hfin_a.2 hfin_b.2]
      simp only [and_abs_mask]
      rcases lt_or_ge (F.format.magnitude a) (F.format.magnitude b) with hlt | hge
      · simp only [if_pos hlt]
        obtain ⟨w, hrun, hsum⟩ := add_finite hfin_b.1 hfin_a.1 hfin_b.2 hfin_a.2 hlt.le
        exact ⟨w, hrun, hsum.comm⟩
      · simp only [if_neg (not_lt.2 hge)]
        exact add_finite hfin_a.1 hfin_b.1 hfin_a.2 hfin_b.2 hge
    · obtain ⟨w, hrun, hsum⟩ := add_special_eq_some ha hb (Or.inr hfin_b)
      exact ⟨w, fun _ => by rw [hrun], hsum⟩
  · obtain ⟨w, hrun, hsum⟩ := add_special_eq_some ha hb (Or.inl hfin_a)
    exact ⟨w, fun _ => by rw [hrun], hsum⟩

end Float

end RustStd.SoftFloat
