import RustStd.Foundations.Newton
import RustStd.SoftFloat.Div

/-!
# The estimate of the reciprocal

The estimate never exceeds the reciprocal after its last adjustment, and it is below it by no more
than `recip_error` units in the last place. It wraps around only where the divisor's significand,
cut to the width of the iterations, is exactly one: it is one then, and the adjustments bring it
back into its range.
-/

namespace RustStd.SoftFloat

open Newton Nat Option SoftFloat

variable {k x b : ℕ} {η : ℚ} {unwrapped : Bool}

/-! ### Iterations -/

theorem next_guess_eq (unwrapped : Bool) (hk : 1 ≤ k) (hx : x < 2 ^ (k + 1))
    (hb : b < 2 ^ (k + 1)) (hlt : 2 ^ k < b) (h : shortfall (2 ^ k) x b ≤ 1 / 2) :
    next_guess unwrapped (k + 1) x b = some (refined (2 ^ k) x b) ∧
      refined (2 ^ k) x b < 2 ^ (k + 1) := by
  have hpow : 2 ^ (k + 1) = 2 * 2 ^ k := by ring
  have hpos := Nat.two_pow_pos k
  rw [hpow] at hx hb
  have hsq := sq_le_mul_of_shortfall hpos h
  have hle := mul_div_le (x := x) hb
  have hquotient : 1 ≤ x * b / (2 * 2 ^ k) := by
    refine (Nat.le_div_iff_mul_le (by lia)).2 (le_trans ?_ hsq)
    rw [Nat.one_mul, sq]
    refine Nat.mul_le_mul_right _ ?_
    calc 2 = 2 ^ 1 := rfl
      _ ≤ 2 ^ k := Nat.pow_le_pow_right Nat.two_pos hk
  have hcorr : Word.wrapping_sub (k + 1) 0 (x * b / 2 ^ (k + 1)) = correction (2 ^ k) x b := by
    rw [hpow, Word.wrapping_sub_of_lt (by rw [hpow]; lia) hquotient, correction, hpow,
      Nat.zero_add]
  have hlt' := refined_lt hx hb hlt
  have hproduct : x * correction (2 ^ k) x b / 2 ^ (k + 1 - 1) = refined (2 ^ k) x b := rfl
  refine ⟨?_, hpow ▸ hlt'⟩
  simp only [next_guess, hcorr, hproduct]
  rw [keep_eq (hpow ▸ hlt'), mod_eq_of_lt (hpow ▸ hlt')]

/-- The estimate after so many iterations. -/
theorem iterate_guess_spec (unwrapped : Bool) (n : ℕ) (hk : 6 ≤ k) (hx : x < 2 ^ (k + 1))
    (hb : b < 2 ^ (k + 1))
    (hlt : 2 ^ k < b) (hη : η ≤ 1 / 8) (h : |shortfall (2 ^ k) x b| ≤ η) :
    ∃ y, iterate_guess unwrapped (k + 1) b n x = some y ∧ y < 2 ^ (k + 1) ∧
      |shortfall (2 ^ k) y b| ≤ bound (2 ^ k) n η ∧ bound (2 ^ k) n η ≤ 1 / 8 ∧
      (n ≠ 0 → -(9 / 8) / (2 ^ k : ℕ) ≤ shortfall (2 ^ k) y b) := by
  have hK : 64 ≤ 2 ^ k := by
    calc 64 = 2 ^ 6 := rfl
      _ ≤ 2 ^ k := Nat.pow_le_pow_right Nat.two_pos hk
  induction n generalizing x η with
  | zero => exact ⟨x, rfl, hx, h, hη, fun h0 => absurd rfl h0⟩
  | succ n ih =>
    have hnn : 0 ≤ η := (abs_nonneg _).trans h
    have habs := abs_le.1 h
    obtain ⟨hstep, hstep_lt⟩ := next_guess_eq unwrapped (by lia) hx hb hlt
      (by linarith)
    have hrefined := abs_shortfall_refined_le (by lia) (by lia) (by lia) h
    have hlower := (shortfall_refined_bounds (x := x) (b := b) (K := 2 ^ k) (by lia) (by lia)
      (by lia)).1
    obtain ⟨y, hy, hy_lt, hbound, heighth, hlow⟩ := ih hstep_lt (bound_step_le hK hnn hη) hrefined
    refine ⟨y, ?_, hy_lt, hbound, heighth, fun _ => ?_⟩
    · rw [iterate_guess, hstep]
      exact hy
    · rcases Nat.eq_zero_or_pos n with rfl | hn
      · obtain rfl : refined (2 ^ k) x b = y := some.inj hy
        refine le_trans (div_le_div_of_nonneg_right ?_ (cast_nonneg _)) hlower
        linarith
      · exact hlow hn.ne'

/-! ### The first guess -/

/-- The first guess is off by less than one eleventh, and by less where the divisor is small. -/
theorem first_guess_spec {K c : ℕ} (hK : 0 < K) (hlow : K ≤ b) (hup : b < 2 * K)
    (hc : 45709 * (2 * K) ≤ 100000 * c) (hc' : 100000 * c ≤ 45711 * (2 * K)) :
    |shortfall K (c + 2 * K - b) b| ≤ 859 / 10000 ∧
      (2 * b < 3 * K → |shortfall K (c + 2 * K - b) b| ≤ 617 / 10000) := by
  have hKpos : (0 : ℚ) < K := cast_pos.2 hK
  obtain ⟨β, hβ⟩ : ∃ β : ℚ, β = b / K := ⟨_, rfl⟩
  obtain ⟨κ, hκ⟩ : ∃ κ : ℚ, κ = 1 + c / (2 * K) := ⟨_, rfl⟩
  have heq : shortfall K (c + 2 * K - b) b = 1 - κ * β + β ^ 2 / 2 := by
    unfold shortfall
    rw [cast_sub (by lia), hβ, hκ]
    push_cast
    field_simp
    ring
  have hβ_low : 1 ≤ β := by
    rw [hβ, le_div_iff₀ hKpos, one_mul]
    exact_mod_cast hlow
  have hβ_up : β < 2 := by
    rw [hβ, div_lt_iff₀ hKpos]
    exact_mod_cast hup
  have hκ_low : 145709 / 100000 ≤ κ := by
    have hcast : (45709 * (2 * K) : ℚ) ≤ 100000 * c := by exact_mod_cast hc
    have hdiv : (45709 / 100000 : ℚ) ≤ c / (2 * K) := by
      rw [div_le_div_iff₀ (by norm_num) (by positivity)]
      linarith
    linarith
  have hκ_up : κ ≤ 145711 / 100000 := by
    have hcast : (100000 * c : ℚ) ≤ 45711 * (2 * K) := by exact_mod_cast hc'
    have hdiv : (c / (2 * K) : ℚ) ≤ 45711 / 100000 := by
      rw [div_le_div_iff₀ (by positivity) (by norm_num)]
      linarith
    linarith
  rw [heq]
  constructor
  · exact abs_le.2 ⟨by nlinarith [sq_nonneg (β - κ)], by nlinarith⟩
  · intro hsmall
    have hβ_small : β < 3 / 2 := by
      rw [hβ, div_lt_iff₀ hKpos]
      have hcast : (2 * b : ℚ) < 3 * K := by exact_mod_cast hsmall
      linarith
    exact abs_le.2 ⟨by nlinarith [sq_nonneg (β - κ)], by nlinarith⟩

/-! ### Iterations of half width -/

/-- The iterations of a plan: how many, of which width and from which constant. -/
structure Plan (k n c : ℕ) : Prop where
  wide : 6 ≤ k
  constant_le : 45709 * (2 * 2 ^ k) ≤ 100000 * c
  le_constant : 100000 * c ≤ 45711 * (2 * 2 ^ k)
  /-- A divisor of one is the only one for which the estimate reaches one. -/
  wraps : iterate_guess false (k + 1) (2 ^ k) n (Word.wrapping_sub (k + 1) c (2 ^ k)) = some 0

/-- The estimate after the iterations of a plan; it is one, wrapped around to zero, for a divisor
of one. -/
theorem Plan.iterate {n c : ℕ} (h : Plan k n c) (hlow : 2 ^ k ≤ b) (hup : b < 2 ^ (k + 1))
    (hb : unwrapped = true → b ≠ 2 ^ k) :
    ∃ x, iterate_guess unwrapped (k + 1) b n (Word.wrapping_sub (k + 1) c b) =
        some (x % 2 ^ (k + 1)) ∧
      (b ≠ 2 ^ k ∧ x < 2 ^ (k + 1) ∨ b = 2 ^ k ∧ x = 2 ^ (k + 1)) ∧
      |shortfall (2 ^ k) x b| ≤ bound (2 ^ k) n (859 / 10000) ∧
      (2 * b < 3 * 2 ^ k → |shortfall (2 ^ k) x b| ≤ bound (2 ^ k) n (617 / 10000)) ∧
      (n ≠ 0 → -(9 / 8) / (2 ^ k : ℕ) ≤ shortfall (2 ^ k) x b) := by
  have hpow : 2 ^ (k + 1) = 2 * 2 ^ k := by ring
  have hpos := Nat.two_pow_pos k
  rcases eq_or_ne b (2 ^ k) with rfl | hne
  · obtain rfl : unwrapped = false := Bool.eq_false_iff.2 fun h => hb h rfl
    have hzero : shortfall (2 ^ k) (2 ^ (k + 1)) (2 ^ k) = 0 := by
      unfold shortfall
      rw [pow_succ]
      field_simp
      norm_num
    refine ⟨2 ^ (k + 1), by rw [h.wraps, mod_self], Or.inr ⟨rfl, rfl⟩, ?_⟩
    rw [hzero, abs_zero]
    refine ⟨bound_nonneg _ _ (by norm_num), fun _ => bound_nonneg _ _ (by norm_num), fun _ => ?_⟩
    rw [neg_div]
    exact neg_nonpos.2 (by positivity)
  · obtain ⟨hguess, hguess'⟩ := first_guess_spec hpos hlow (hpow ▸ hup) h.constant_le h.le_constant
    have hsub : Word.wrapping_sub (k + 1) c b = c + 2 * 2 ^ k - b := by
      have hle := h.le_constant
      rw [Word.wrapping_sub_of_lt hup (by lia), hpow]
    have hlt : c + 2 * 2 ^ k - b < 2 ^ (k + 1) := by
      have hle := h.le_constant
      lia
    have hb' : 2 ^ k < b := lt_of_le_of_ne hlow (Ne.symm hne)
    obtain ⟨y, hy, hy_lt, hbound, -, hlower⟩ := iterate_guess_spec unwrapped n h.wide hlt hup hb'
      (by norm_num) hguess
    refine ⟨y, ?_, Or.inl ⟨hne, hy_lt⟩, hbound, fun hsmall => ?_, hlower⟩
    · rw [hsub, hy, mod_eq_of_lt hy_lt]
    · obtain ⟨y', hy', -, hbound', -⟩ := iterate_guess_spec unwrapped n h.wide hlt hup hb'
        (by norm_num) (hguess' hsmall)
      obtain rfl : y = y' := Option.some.inj (hy.symm.trans hy')
      exact hbound'

namespace Float

variable {F : Float} {pointer : PointerSize}

/-! ### The iteration of full width -/

/-- The words of a product with a divisor of two halves. -/
theorem full_product {H : ℕ} (hH : 0 < H) (x b : ℕ) :
    x * (b / H) + x * (b % H) / H = x * b / H := by
  have hsplit : x * b = x * (b % H) + x * (b / H) * H := by
    conv_lhs => rw [← div_add_mod' b H]
    ring
  rw [hsplit, add_mul_div_right _ _ hH, add_comm]

/-- The same for twice a product, shifted by one less. -/
theorem double_product {K : ℕ} (hK : 0 < K) (x c : ℕ) :
    x * (c / (2 * K)) * 2 + x * (c % (2 * K)) / K = x * c / K := by
  have hsplit : x * c = x * (c % (2 * K)) + x * (c / (2 * K)) * 2 * K := by
    conv_lhs => rw [← div_add_mod' c (2 * K)]
    ring
  rw [hsplit, add_mul_div_right _ _ hK, add_comm]

/-- A sum that has reached one is back in its range when it is lowered. -/
theorem lower_wrapped {w u v y : ℕ} (h : u + v = y) (hle : y ≤ 2 ^ w)
    (hlt : unwrapped = true → y < 2 ^ w) (hthree : 3 ≤ y) :
    ((wrapping_add unwrapped w u v).bind fun x =>
      (wrapping_sub unwrapped w x 2).bind fun x => checkedSub x 1) = some (y - 3) := by
  rcases lt_or_ge y (2 ^ w) with hy | hy
  · rw [wrapping_add, h, keep_eq hy, bind_some, Word.wrapping_add, h,
      mod_eq_of_lt hy, wrapping_sub_eq hy (by lia), bind_some,
      checkedSub_eq (by lia)]
    rfl
  obtain rfl : unwrapped = false := Bool.eq_false_iff.2 fun hu => (hlt hu).not_ge hy
  obtain rfl : y = 2 ^ w := le_antisymm hle hy
  have hwrap : wrapping_sub false w 0 2 = some (2 ^ w - 2) := by
    rw [wrapping_sub, Word.wrapping_sub_of_lt (by lia) (by lia), zero_add]
    rfl
  have hsum : wrapping_add false w u v = some 0 := by
    rw [wrapping_add, Word.wrapping_add, h, mod_self]
    rfl
  rw [hsum, bind_some, hwrap, bind_some, checkedSub_eq (by lia)]
  congr 1

/-- The iteration of full width gives the widened estimate, lowered by three. -/
theorem full_step_eq (exact unwrapped : Bool) (hbits : F.BITS = 2 * (k + 1)) (hk : 1 ≤ k)
    (hx : x < 2 ^ (k + 1)) (hb : b < 2 ^ (2 * (k + 1)))
    (hsum : 2 ≤ x * b / 2 ^ (k + 1)) (hhi : x * ((2 ^ (2 * (k + 1)) - x * b / 2 ^ (k + 1) + 1) /
      2 ^ (k + 1)) * 2 < 2 ^ (2 * (k + 1)))
    (hle : widened (2 ^ k) (2 ^ (2 * k + 1)) x b ≤ 2 ^ (2 * (k + 1)))
    (hlt : unwrapped = true → widened (2 ^ k) (2 ^ (2 * k + 1)) x b < 2 ^ (2 * (k + 1)))
    (hthree : 3 ≤ widened (2 ^ k) (2 ^ (2 * k + 1)) x b) :
    F.full_step exact unwrapped x b = some (widened (2 ^ k) (2 ^ (2 * k + 1)) x b - 3) := by
  have hK := Nat.two_pow_pos k
  have hpow : 2 ^ (k + 1) = 2 * 2 ^ k := by ring
  have hword : 2 ^ (2 * (k + 1)) = 2 ^ (k + 1) * 2 ^ (k + 1) := by rw [← pow_add]; congr 1; ring
  have hL : 2 * 2 ^ (2 * k + 1) = 2 ^ (2 * (k + 1)) := by ring
  have hw : widened (2 ^ k) (2 ^ (2 * k + 1)) x b =
      x * (2 ^ (2 * (k + 1)) - x * b / 2 ^ (k + 1) + 1) / 2 ^ k := by
    rw [widened, hL, ← hpow]
  have hhw : F.BITS / 2 = k + 1 := by lia
  have hmask : ∀ y, y &&& (2 ^ F.BITS - 1) / 2 ^ (k + 1) = y % 2 ^ (k + 1) := by
    intro y
    have hdiv : (2 ^ (2 * (k + 1)) - 1) / 2 ^ (k + 1) = 2 ^ (k + 1) - 1 := by
      rw [hword]
      refine Nat.div_eq_of_lt_le ?_ ?_
      · rw [Nat.sub_mul, Nat.one_mul]
        lia
      · rw [Nat.sub_add_cancel Nat.one_le_two_pow]
        lia
    rw [hbits, hdiv, and_two_pow_sub_one_eq_mod]
  have hmul : ∀ y, y < 2 ^ (k + 1) → mul_word F.BITS x y = some (x * y) := by
    intro y hy
    rw [mul_word, hbits, if_pos]
    rw [hword]
    exact Nat.mul_lt_mul'' hx hy
  have hD := Nat.two_pow_pos (k + 1)
  have hb_hi : b / 2 ^ (k + 1) < 2 ^ (k + 1) := Nat.div_lt_of_lt_mul (hword ▸ hb)
  have hb_lo : b % 2 ^ (k + 1) < 2 ^ (k + 1) := mod_lt _ hD
  have hsum_lt : x * b / 2 ^ (k + 1) < 2 ^ (2 * (k + 1)) := by
    refine Nat.div_lt_of_lt_mul ?_
    exact (Nat.mul_le_mul_right b hx.le).trans_lt (Nat.mul_lt_mul_of_pos_left hb hD)
  have hcorr : Word.wrapping_sub F.BITS 0 (Word.wrapping_sub F.BITS (x * b / 2 ^ (k + 1)) 1) =
      2 ^ (2 * (k + 1)) - x * b / 2 ^ (k + 1) + 1 := by
    rw [hbits, Word.wrapping_sub_of_le hsum_lt (by lia), Word.wrapping_sub_of_lt (by lia)
      (by lia)]
    lia
  have hcorr_lt : 2 ^ (2 * (k + 1)) - x * b / 2 ^ (k + 1) + 1 < 2 ^ (2 * (k + 1)) := by
    lia
  generalize 2 ^ (2 * (k + 1)) - x * b / 2 ^ (k + 1) + 1 = corr at *
  have hcorr_hi : corr / 2 ^ (k + 1) < 2 ^ (k + 1) := Nat.div_lt_of_lt_mul (hword ▸ hcorr_lt)
  have hcorr_lo : corr % 2 ^ (k + 1) < 2 ^ (k + 1) := mod_lt _ hD
  have hupper : shl exact F.BITS (x * (corr / 2 ^ (k + 1))) 1 =
      some (x * (corr / 2 ^ (k + 1)) * 2 ^ 1) := by
    refine shl_eq (by lia) ?_
    rw [hbits, pow_one]
    exact hhi
  have hproduct := full_product hD x b
  have hdouble := double_product hK x corr
  rw [← hpow, ← hw] at hdouble
  unfold full_step
  simp only [hhw, hmask]
  rw [hmul _ hb_lo, some_bind, Word.shr_eq (by lia),
    some_bind, hmul _ hb_hi, some_bind, Word.add_eq (by
      rw [hproduct, hbits]; exact hsum_lt), some_bind, hproduct, hcorr,
    Word.shr_eq (by lia), some_bind, hmul _ hcorr_hi, some_bind, hupper,
    some_bind, hmul _ hcorr_lo, some_bind, Word.shr_eq (by lia), some_bind]
  exact lower_wrapped hdouble (hbits ▸ hle) (hbits ▸ hlt) hthree

/-- The estimate of half width, before it is lowered by one. -/
theorem half_reciprocal_spec {n c : ℕ} (h : Plan k n c) (hbits : F.BITS / 2 = k + 1)
    (hn : F.half_iterations pointer = n) (hc : F.c_hw = c) (hlow : 2 ^ k ≤ b)
    (hup : b < 2 ^ (k + 1)) (hb : unwrapped = true → b ≠ 2 ^ k) :
    ∃ x, F.half_reciprocal unwrapped pointer b = some (x - 1) ∧ 1 ≤ x ∧
      (b ≠ 2 ^ k ∧ x < 2 ^ (k + 1) ∨ b = 2 ^ k ∧ x = 2 ^ (k + 1)) ∧
      |shortfall (2 ^ k) x b| ≤ bound (2 ^ k) n (859 / 10000) ∧
      (2 * b < 3 * 2 ^ k → |shortfall (2 ^ k) x b| ≤ bound (2 ^ k) n (617 / 10000)) := by
  have hK : 64 ≤ 2 ^ k := by
    calc 64 = 2 ^ 6 := rfl
      _ ≤ 2 ^ k := Nat.pow_le_pow_right Nat.two_pos h.wide
  obtain ⟨x, hrun, hcases, hbound, hbound', -⟩ := h.iterate hlow hup hb
  have hpos : 1 ≤ x := by
    rcases Nat.eq_zero_or_pos x with rfl | hpos
    · have heighth := hbound.trans (bound_le hK n (by norm_num) (by norm_num))
      unfold shortfall at heighth
      norm_num at heighth
    · exact hpos
  refine ⟨x, ?_, hpos, hcases, hbound, hbound'⟩
  have hset : b &&& 2 ^ k ≠ 0 := (Word.and_two_pow_ne_zero_iff hup).2 hlow
  unfold half_reciprocal
  simp only [hbits, hn, hc, Nat.add_sub_cancel]
  rw [if_neg hset, hrun, some_bind]
  rcases hcases with ⟨-, hx⟩ | ⟨heq, rfl⟩
  · rw [mod_eq_of_lt hx, wrapping_sub_eq hx hpos]
  · obtain rfl : unwrapped = false := Bool.eq_false_iff.2 fun hu => hb hu heq
    rw [mod_self, wrapping_sub, Word.wrapping_sub_of_lt (by lia) Nat.one_pos,
      Nat.zero_add]
    rfl

/-- A plan that ends with an iteration of full width: the last adjustment lowers the estimate by
`P`, which leaves it less than `E` units in the last place below the reciprocal. -/
structure HalfPlan (k n c P E : ℕ) (β β' : ℚ) : Prop extends Plan k n c where
  adjusted : 5 + P ≤ E ∧ 5 + P ≤ 2 ^ (2 * k)
  bound_le : bound (2 ^ k) n (859 / 10000) ≤ β
  bound_le' : bound (2 ^ k) n (617 / 10000) ≤ β'
  small : β + 1 / (2 ^ k : ℕ) ≤ 1 / 8
  small' : β' + 1 / (2 ^ k : ℕ) ≤ 1 / 8
  precise : 4 * ((2 ^ k : ℕ) * β + 1) ^ 2 + 2 ≤ 3 / 2 * ((E - (5 + P) : ℕ) : ℚ)
  precise' : 4 * ((2 ^ k : ℕ) * β' + 1) ^ 2 + 2 ≤ ((E - (5 + P) : ℕ) : ℚ)

/-- The square of the error of single width, in units of double width. -/
theorem widened_error_le {K L e : ℕ} {β m : ℚ} (hK : 0 < K) (hL : L = 2 * K ^ 2)
    (hlow : m * L ≤ b) (hprecise : 4 * (K * β + 1) ^ 2 + 2 ≤ m * e) :
    (β + 1 / K) ^ 2 + 1 / L ≤ e * b / (2 * L ^ 2) := by
  have hLq : (L : ℚ) = 2 * K ^ 2 := by exact_mod_cast hL
  have heq : (β + 1 / K) ^ 2 + 1 / L = (4 * (K * β + 1) ^ 2 + 2) / (2 * L) := by
    rw [hLq]
    field_simp
    ring
  rw [heq, div_le_div_iff₀ (by rw [hLq]; positivity) (by rw [hLq]; positivity)]
  calc (4 * (K * β + 1) ^ 2 + 2) * (2 * L ^ 2) ≤ m * e * (2 * L ^ 2) :=
        mul_le_mul_of_nonneg_right hprecise (by positivity)
    _ = m * L * (e * (2 * L)) := by ring
    _ ≤ b * (e * (2 * L)) := mul_le_mul_of_nonneg_right hlow (by positivity)
    _ = e * b * (2 * L) := by ring

/-- The estimate that a plan with half-width iterations yields, by its bounds. -/
theorem half_plan_spec {n c P E : ℕ} {β β' : ℚ} (exact : Bool) (h : HalfPlan k n c P E β β')
    (hbits : F.BITS = 2 * (k + 1)) (hn : F.half_iterations pointer = n) (hn0 : 0 < n)
    (hc : F.c_hw = c) (hP : F.reciprocal_precision pointer = some P)
    (hlow : 2 ^ (2 * k + 1) ≤ b) (hup : b < 2 ^ (2 * k + 2))
    (hb : unwrapped = true → b / 2 ^ (k + 1) ≠ 2 ^ k) :
    ∃ x, F.reciprocal exact unwrapped pointer b = some x ∧ x * b < 2 * (2 ^ (2 * k + 1)) ^ 2 ∧
      2 * (2 ^ (2 * k + 1)) ^ 2 ≤ (x + E) * b := by
  have hhw : F.BITS / 2 = k + 1 := by lia
  have hK := Nat.two_pow_pos k
  have hpow : 2 ^ (k + 1) = 2 * 2 ^ k := by ring
  have hL : 2 ^ (2 * k + 1) = 2 * (2 ^ k) ^ 2 := by ring
  have hword : 2 ^ (2 * k + 2) = 2 * 2 ^ (2 * k + 1) := by ring
  have hword' : 2 ^ (2 * (k + 1)) = 2 * 2 ^ (2 * k + 1) := by ring
  rw [hword] at hup
  have hhi_low : 2 ^ k ≤ b / 2 ^ (k + 1) := by
    refine (Nat.le_div_iff_mul_le (by lia)).2 (le_trans ?_ hlow)
    rw [hL, hpow]
    exact le_of_eq (by ring)
  have hhi_up : b / 2 ^ (k + 1) < 2 ^ (k + 1) := by
    refine Nat.div_lt_of_lt_mul (hup.trans_eq ?_)
    rw [hL, hpow]
    ring
  obtain ⟨y, hhalf_run, hpos, hcases, hbound, hbound'⟩ :=
    half_reciprocal_spec h.toPlan hhw hn hc hhi_low hhi_up hb
  have hy : y ≤ 2 * 2 ^ k := by
    rcases hcases with ⟨-, hlt⟩ | ⟨-, heq⟩ <;> lia
  have hshort := abs_shortfall'_le hK hL hpos hy hup (hpow ▸ hbound.trans h.bound_le)
  have hshort' : 2 * (b / 2 ^ (k + 1)) < 3 * 2 ^ k → _ := fun hsmall =>
    abs_shortfall'_le hK hL hpos hy hup (hpow ▸ (hbound' hsmall).trans h.bound_le')
  have hx : y - 1 ≤ 2 * 2 ^ k := by lia
  obtain ⟨hlower, hupper⟩ := widened_bounds hK hL hx hup h.small hshort
  have heighth := hshort.trans h.small
  have hK2 : 2 ≤ 2 ^ k := by
    calc 2 = 2 ^ 1 := rfl
      _ ≤ 2 ^ k := Nat.pow_le_pow_right Nat.two_pos ((show 1 ≤ 6 by decide).trans h.wide)
  have hquotient := two_le_mul_div hK2 hL (abs_le.1 heighth).2
  have hlarge := le_two_mul_widened hK2 hL hx hup heighth
  -- the estimate reaches one at most where the leading half of the divisor is one
  have hrange : widened (2 ^ k) (2 ^ (2 * k + 1)) (y - 1) b ≤ 2 ^ (2 * (k + 1)) ∧
      (unwrapped = true → widened (2 ^ k) (2 ^ (2 * k + 1)) (y - 1) b < 2 ^ (2 * (k + 1))) ∧
      (y - 1) * ((2 ^ (2 * (k + 1)) - (y - 1) * b / 2 ^ (k + 1) + 1) / 2 ^ (k + 1)) * 2 <
        2 ^ (2 * (k + 1)) := by
    rw [hword', hpow]
    rcases hcases with ⟨hne, -⟩ | ⟨heq, rfl⟩
    · have habove : 2 ^ (2 * k + 1) + 2 * 2 ^ k ≤ b := by
        have hge : 2 ^ k + 1 ≤ b / 2 ^ (k + 1) := Nat.lt_of_le_of_ne hhi_low (Ne.symm hne)
        rw [Nat.le_div_iff_mul_le (by lia), hpow] at hge
        refine le_trans (le_of_eq ?_) hge
        rw [hL]
        ring
      have hlt := widened_lt hK2 hL hx hup habove heighth
      refine ⟨hlt.le, fun _ => hlt, ?_⟩
      have hdouble := double_product hK (y - 1)
        (2 * 2 ^ (2 * k + 1) - (y - 1) * b / (2 * 2 ^ k) + 1)
      exact (Nat.le_add_right _ _).trans_lt (hdouble.trans_lt hlt)
    · obtain ⟨hle, hhi⟩ := widened_of_one hK2 hL hlow
      rw [hpow]
      exact ⟨hle, fun hu => absurd heq (hb hu), hhi⟩
  obtain ⟨hle, hlt, hhi⟩ := hrange
  have hthree : 5 + P ≤ widened (2 ^ k) (2 ^ (2 * k + 1)) (y - 1) b := by
    have hadjusted := h.adjusted.2
    lia
  have hfull := full_step_eq exact unwrapped hbits ((show 1 ≤ 6 by decide).trans h.wide)
    (show y - 1 < 2 ^ (k + 1) by lia) (hword' ▸ hup) (hpow ▸ hquotient) hhi hle hlt (by lia)
  obtain ⟨v, hv⟩ : ∃ v, widened (2 ^ k) (2 ^ (2 * k + 1)) (y - 1) b = v := ⟨_, rfl⟩
  rw [hv] at hlower hupper hthree hfull hle hlarge
  refine ⟨v - (5 + P), ?_, ?_, ?_⟩
  · unfold reciprocal
    simp only [hhw]
    rw [hn, if_pos hn0, hhalf_run, some_bind, hfull, some_bind,
      hbits, wrapping_sub_eq (by lia) (by lia), some_bind, hP, some_bind,
      checkedSub_eq (by lia)]
    congr 1
    lia
  · refine sub_mul_lt (by lia) hlow hthree ?_ hlower
    have hcast : (5 : ℚ) ≤ (5 + P : ℕ) := by exact_mod_cast Nat.le_add_right 5 P
    linarith
  · obtain ⟨e, rfl⟩ := Nat.exists_eq_add_of_le h.adjusted.1
    have hprecise := h.precise
    have hprecise' := h.precise'
    rw [Nat.add_sub_cancel_left] at hprecise hprecise'
    rw [show v - (5 + P) + (5 + P + e) = v + e by lia]
    by_cases hsmall : 2 * b < 3 * 2 ^ (2 * k + 1)
    · have hsmall' : 2 * (b / 2 ^ (k + 1)) < 3 * 2 ^ k := by
        have hdiv := div_mul_le_self b (2 ^ (k + 1))
        refine Nat.lt_of_mul_lt_mul_right (a := 2 ^ (k + 1)) ?_
        calc 2 * (b / 2 ^ (k + 1)) * 2 ^ (k + 1) ≤ 2 * b := by
              rw [Nat.mul_assoc]
              exact Nat.mul_le_mul_left 2 hdiv
          _ < 3 * 2 ^ (2 * k + 1) := hsmall
          _ = 3 * 2 ^ k * 2 ^ (k + 1) := by ring
      have hupper' := (widened_bounds hK hL hx hup h.small' (hshort' hsmall')).2
      rw [hv] at hupper'
      refine le_add_mul (by lia) hupper' (widened_error_le (m := 1) hK hL ?_ ?_)
      · rw [one_mul]
        exact cast_le.2 hlow
      · rw [one_mul]
        exact hprecise'
    · refine le_add_mul (by lia) hupper (widened_error_le hK hL ?_ hprecise)
      have hcast : ((3 * 2 ^ (2 * k + 1) : ℕ) : ℚ) ≤ (2 * b : ℕ) :=
        cast_le.2 (Nat.le_of_not_lt hsmall)
      push_cast at hcast ⊢
      linarith

/-! ### The plans of the types -/

theorem plan_f32 : HalfPlan 15 2 0x7504 74 127 (859 / 10 ^ 7) (455 / 10 ^ 7) where
  wide := by decide
  constant_le := by decide
  le_constant := by decide
  wraps := by decide
  adjusted := by decide
  bound_le := by
    calc bound (2 ^ 15) 2 (859 / 10000) ≤ bound (2 ^ 15) 1 (742 / 10 ^ 5) := bound_succ_le
      _ ≤ 859 / 10 ^ 7 := bound_succ_le
  bound_le' := by
    calc bound (2 ^ 15) 2 (617 / 10000) ≤ bound (2 ^ 15) 1 (385 / 10 ^ 5) := bound_succ_le
      _ ≤ 455 / 10 ^ 7 := bound_succ_le
  small := by norm_num
  small' := by norm_num
  precise := by norm_num
  precise' := by norm_num

theorem plan_f64 : HalfPlan 31 3 0x7504f333 220 511 (344 / 10 ^ 11) (677 / 10 ^ 12) where
  wide := by decide
  constant_le := by decide
  le_constant := by decide
  wraps := by decide
  adjusted := by decide
  bound_le := by
    calc bound (2 ^ 31) 3 (859 / 10000) ≤ bound (2 ^ 31) 2 (738 / 10 ^ 5) := bound_succ_le
      _ ≤ bound (2 ^ 31) 1 (545 / 10 ^ 7) := bound_succ_le
      _ ≤ 344 / 10 ^ 11 := bound_succ_le
  bound_le' := by
    calc bound (2 ^ 31) 3 (617 / 10000) ≤ bound (2 ^ 31) 2 (381 / 10 ^ 5) := bound_succ_le
      _ ≤ bound (2 ^ 31) 1 (1452 / 10 ^ 8) := bound_succ_le
      _ ≤ 677 / 10 ^ 12 := bound_succ_le
  small := by norm_num
  small' := by norm_num
  precise := by norm_num
  precise' := by norm_num

theorem plan_f128 :
    HalfPlan 63 5 0x7504f333f9de6108 13922 16383 (109 / 10 ^ 21) (109 / 10 ^ 21) where
  wide := by decide
  constant_le := by decide
  le_constant := by decide
  wraps := by decide
  adjusted := by decide
  bound_le := by
    calc bound (2 ^ 63) 5 (859 / 10000) ≤ bound (2 ^ 63) 4 (738 / 10 ^ 5) := bound_succ_le
      _ ≤ bound (2 ^ 63) 3 (545 / 10 ^ 7) := bound_succ_le
      _ ≤ bound (2 ^ 63) 2 (298 / 10 ^ 11) := bound_succ_le
      _ ≤ bound (2 ^ 63) 1 (9 / 10 ^ 18) := bound_succ_le
      _ ≤ 109 / 10 ^ 21 := bound_succ_le
  bound_le' := by
    calc bound (2 ^ 63) 5 (617 / 10000) ≤ bound (2 ^ 63) 4 (738 / 10 ^ 5) := bound_succ_le
      _ ≤ bound (2 ^ 63) 3 (545 / 10 ^ 7) := bound_succ_le
      _ ≤ bound (2 ^ 63) 2 (298 / 10 ^ 11) := bound_succ_le
      _ ≤ bound (2 ^ 63) 1 (9 / 10 ^ 18) := bound_succ_le
      _ ≤ 109 / 10 ^ 21 := bound_succ_le
  small := by norm_num
  small' := by norm_num
  precise := by norm_num
  precise' := by norm_num

/-- The plan of `f32` with iterations of full width only. -/
theorem plan_full : Plan 31 3 0x7504f333 := HalfPlan.toPlan plan_f64

variable (F pointer) in
/-- By how many units in the last place the estimate of the reciprocal may be too small. -/
def recip_error : ℕ :=
  if F.half_iterations pointer = 0 then 63
  else match F with
    | f16 => 0
    | f32 => 127
    | f64 => 511
    | f128 => 16383

variable (F pointer) in
/-- The divisor's significand, cut to the width of the iterations, is one. -/
def IsOneCut (b : ℕ) : Prop :=
  if F.half_iterations pointer = 0 then b = 2 ^ (F.BITS - 1)
  else b / 2 ^ (F.BITS / 2) = 2 ^ (F.BITS / 2 - 1)

variable (F pointer) in
/-- The estimate that the iterations of the width that a plan begins with end with, for a divisor
cut to that width. -/
def iterated (b : ℕ) : Option ℕ :=
  if F.half_iterations pointer = 0 then
    iterate_guess false F.BITS b (F.get_iterations pointer).2
      (Word.wrapping_sub F.BITS (0x7504F333 * 2 ^ (F.BITS - 32)) b)
  else
    iterate_guess false (F.BITS / 2) (b / 2 ^ (F.BITS / 2)) (F.half_iterations pointer)
      (Word.wrapping_sub (F.BITS / 2) F.c_hw (b / 2 ^ (F.BITS / 2)))

/-- For a divisor of one the estimate reaches one, and wraps around. -/
theorem iterated_of_isOneCut (hF : F ≠ f16) (h : F.IsOneCut pointer b) :
    F.iterated pointer b = some 0 := by
  unfold IsOneCut at h
  unfold iterated
  split_ifs at h ⊢ with hhalf
  · rw [h]
    -- only `f32` has a plan without iterations of half width
    cases F with
    | f32 =>
      cases pointer with
      | eight => exact Plan.wraps plan_full
      | two | four => exact absurd hhalf (by decide)
    | f16 => exact absurd rfl hF
    | f64 | f128 => cases pointer <;> exact absurd hhalf (by decide)
  · rw [h]
    cases F with
    | f16 => exact absurd rfl hF
    | f32 =>
      cases pointer with
      | eight => exact absurd (by decide) hhalf
      | two | four => exact Plan.wraps (HalfPlan.toPlan plan_f32)
    | f64 => cases pointer <;> exact Plan.wraps (HalfPlan.toPlan plan_f64)
    | f128 => cases pointer <;> exact Plan.wraps (HalfPlan.toPlan plan_f128)

theorem full_plan_spec (exact : Bool) (hlow : 2 ^ 31 ≤ b) (hup : b < 2 ^ 32)
    (hb : unwrapped = true → b ≠ 2 ^ 31) :
    ∃ x, f32.reciprocal exact unwrapped .eight b = some x ∧ x * b < 2 * (2 ^ 31) ^ 2 ∧
      2 * (2 ^ 31) ^ 2 ≤ (x + 63) * b := by
  obtain ⟨x, hrun, hcases, hbound, -, hlower⟩ := Plan.iterate plan_full hlow hup hb
  have hK : 0 < 2 ^ 31 := Nat.two_pow_pos 31
  have hchain : bound (2 ^ 31) 3 (859 / 10000) ≤ 344 / 10 ^ 11 :=
    HalfPlan.bound_le plan_f64
  have hupper := (le_abs_self _).trans (hbound.trans hchain)
  have hsq := sq_le_mul_of_shortfall hK (hupper.trans (by norm_num))
  have htwelve : 12 ≤ x := by
    have hmul : x * b ≤ x * 2 ^ 32 := mul_le_mul_left x hup.le
    omega
  refine ⟨x - 12, ?_, ?_, ?_⟩
  · have hsub : wrapping_sub unwrapped 32 (x % 2 ^ 32) 2 = some (x - 2) := by
      rcases hcases with ⟨-, hlt⟩ | ⟨heq, rfl⟩
      · rw [mod_eq_of_lt hlt, wrapping_sub_eq hlt (by omega)]
      · obtain rfl : unwrapped = false := Bool.eq_false_iff.2 fun hu => hb hu heq
        rfl
    have heq : f32.reciprocal exact unwrapped .eight b =
        (iterate_guess unwrapped 32 b 3 (Word.wrapping_sub 32 0x7504F333 b)).bind fun x =>
          (wrapping_sub unwrapped 32 x 2).bind fun x => checkedSub x 10 := rfl
    rw [heq, hrun, bind_some, hsub, bind_some, checkedSub_eq (by omega)]
    rfl
  · exact sub_mul_lt hK hlow htwelve (by norm_num) (hlower (by decide))
  · rw [show x - 12 + 63 = x + 51 by omega]
    refine le_add_mul hK hupper ?_
    have hcast : ((2 ^ 31 : ℕ) : ℚ) ≤ b := cast_le.2 hlow
    push_cast at hcast ⊢
    linarith

/-- **The estimate of the reciprocal**: it does not exceed the reciprocal, and is below it by less
than `recip_error` units in the last place. Where the divisor cut to the width of the iterations
is not one, it also never wraps around. -/
theorem reciprocal_spec (hF : F ≠ f16) (exact : Bool) (hlow : 2 ^ (F.BITS - 1) ≤ b)
    (hup : b < 2 ^ F.BITS) (hb : unwrapped = true → ¬ F.IsOneCut pointer b) :
    ∃ x, F.reciprocal exact unwrapped pointer b = some x ∧ x * b < 2 ^ (2 * F.BITS - 1) ∧
      2 ^ (2 * F.BITS - 1) ≤ (x + F.recip_error pointer) * b := by
  cases F with
  | f16 => exact absurd rfl hF
  | f32 =>
    cases pointer with
    | eight => exact full_plan_spec exact hlow hup hb
    | two | four => exact half_plan_spec exact plan_f32 rfl rfl (by decide) rfl rfl hlow hup hb
  | f64 =>
    cases pointer <;>
      exact half_plan_spec exact plan_f64 rfl rfl (by decide) rfl rfl hlow hup hb
  | f128 =>
    cases pointer <;>
      exact half_plan_spec exact plan_f128 rfl rfl (by decide) rfl rfl hlow hup hb

end Float

end RustStd.SoftFloat
