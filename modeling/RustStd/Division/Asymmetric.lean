import RustStd.Division.Restoring
import RustStd.Foundations.Estimate

/-!
# Division from a division of unequal sizes

`impl_asymmetric!` divides words of two halves with an instruction that divides such a word by one
half and traps when the quotient does not fit a half. For a divisor of two halves the instruction
gets its leading digits, which estimates the quotient.
-/

namespace RustStd.Division

open Word

/-- The instruction that divides a word of two halves by a half: a fault when the divisor is zero
or the quotient does not fit a half. -/
def narrowing_division (n duo div : ℕ) : Option (ℕ × ℕ) :=
  if div = 0 ∨ 2 ^ n ≤ duo / div then none else some (duo / div, duo % div)

section Code

variable (n_h : ℕ) (half_division asymmetric_division : ℕ → ℕ → Option (ℕ × ℕ))

/-- The branch of a divisor of one half -/
def asymmetric_low (duo duo_lo duo_hi div_lo : ℕ) : Option (ℕ × ℕ) := do
  let n := n_h * 2
  if div_lo = 0 then none
  if duo_hi < div_lo then asymmetric_division duo div_lo
  else
    let (quo_hi, rem_hi) ← half_division duo_hi div_lo
    let tmp ← asymmetric_division (duo_lo ||| (← shl (n * 2) rem_hi n)) div_lo
    return (tmp.1 ||| (← shl (n * 2) quo_hi n), tmp.2)

/-- The branch of a divisor of two halves -/
def asymmetric_high (duo div div_hi : ℕ) : Option (ℕ × ℕ) := do
  let n := n_h * 2
  let div_lz := leading_zeros n div_hi
  let div_extra ← checkedSub n div_lz
  let div_sig_n := truncate n (← shr (n * 2) div div_extra)
  let tmp ← asymmetric_division (← shr (n * 2) duo 1) div_sig_n
  let quo ← shr n tmp.1 (← checkedSub (← checkedSub n 1) div_lz)
  let quo ← (if quo ≠ 0 then checkedSub quo 1 else some quo)
  let rem ← checkedSub duo (wrapping_mul (n * 2) quo div)
  if div ≤ rem then return (← add n quo 1, ← checkedSub rem div)
  return (quo, rem)

/-- `impl_asymmetric!` -/
def asymmetric (duo div : ℕ) : Option (ℕ × ℕ) := do
  let n := n_h * 2
  let duo_lo := truncate n duo
  let duo_hi := truncate n (← shr (n * 2) duo n)
  let div_lo := truncate n div
  let div_hi := truncate n (← shr (n * 2) div n)
  if div_hi = 0 then asymmetric_low n_h half_division asymmetric_division duo duo_lo duo_hi div_lo
  else asymmetric_high n_h asymmetric_division duo div div_hi

end Code

variable {n n_h duo div : ℕ} {half_division : ℕ → ℕ → Option (ℕ × ℕ)}

theorem narrowing_division_eq (hpos : div ≠ 0) (hlt : duo / div < 2 ^ n) :
    narrowing_division n duo div = some (duo / div, duo % div) :=
  if_neg (not_or_intro hpos (Nat.not_le_of_lt hlt))

theorem asymmetric_low_eq (hhalf : Divides (n_h * 2) half_division) (hh : n_h ≠ 0)
    (hduo : duo < 2 ^ (n_h * 2 * 2)) (hdiv : div < 2 ^ (n_h * 2)) (hpos : div ≠ 0) :
    asymmetric_low n_h half_division (narrowing_division (n_h * 2)) duo (duo % 2 ^ (n_h * 2))
      (duo / 2 ^ (n_h * 2)) div = some (duo / div, duo % div) := by
  have hn : n_h * 2 ≠ 0 := by lia
  have hhigh := high_lt hduo
  rw [asymmetric_low, if_neg hpos]
  generalize n_h * 2 = n at *
  simp only [Option.pure_def, Option.bind_eq_bind]
  obtain ⟨hquo, hrem⟩ : duo / div = duo / 2 ^ n / div * 2 ^ n + after_high n duo div / div ∧
      duo % div = after_high n duo div % div := div_mod_after_high hpos
  split
  · next hlt =>
    refine narrowing_division_eq hpos (Nat.div_lt_of_lt_mul ?_)
    calc duo
      _ < (duo / 2 ^ n + 1) * 2 ^ n :=
        (Nat.div_lt_iff_lt_mul (Nat.two_pow_pos n)).1 (Nat.lt_succ_self _)
      _ ≤ div * 2 ^ n := Nat.mul_le_mul_right _ hlt
  · have hrest := Nat.div_lt_of_lt_mul
      (show after_high n duo div < div * 2 ^ n from after_high_lt hpos)
    have hquo_hi : duo / 2 ^ n / div < 2 ^ n := (Nat.div_le_self _ _).trans_lt hhigh
    have hrem_hi : duo / 2 ^ n % div < 2 ^ n :=
      (Nat.mod_lt _ (Nat.pos_of_ne_zero hpos)).trans hdiv
    simp only [hhalf _ _ hhigh hdiv hpos, shl_half_eq hn hrem_hi, or_after_high,
      narrowing_division_eq hpos hrest, shl_half_eq hn hquo_hi, Option.bind_some]
    rw [or_eq_add hrest, hquo, hrem, Nat.add_comm]

/-- The quotient that the leading digits of a divisor of two halves give. -/
theorem asymmetric_estimates {e : ℕ} (he : e ≠ 0) (hduo : duo < 2 ^ (n * 2)) (hen : e ≤ n)
    (hdiv : 2 ^ n ≤ 2 * (div / 2 ^ e)) :
    Estimates duo div (duo / 2 ^ e / (div / 2 ^ e)) := by
  have hpos : 0 < div / 2 ^ e := by
    have := Nat.two_pow_pos n
    lia
  have hB := Nat.two_pow_pos e
  refine ⟨div_le_estimate hB hpos.ne', pred_estimate_mul_le hB ?_⟩
  have hsmall : duo / 2 ^ e / (div / 2 ^ e) * 2 ^ e < 2 * 2 ^ n := by
    refine Nat.lt_of_mul_lt_mul_right (a := div / 2 ^ e) ?_
    calc duo / 2 ^ e / (div / 2 ^ e) * 2 ^ e * (div / 2 ^ e)
      _ = duo / (2 ^ e * (div / 2 ^ e)) * (2 ^ e * (div / 2 ^ e)) := by
        rw [Nat.div_div_eq_div_mul, Nat.mul_assoc]
      _ ≤ duo := Nat.div_mul_le_self _ _
      _ < 2 ^ n * 2 ^ n := by rwa [← two_pow_mul_two]
      _ ≤ 2 ^ n * (2 * (div / 2 ^ e)) := Nat.mul_le_mul_left _ hdiv
      _ = 2 * 2 ^ n * (div / 2 ^ e) := by ring
  generalize duo / 2 ^ e / (div / 2 ^ e) = quo at *
  generalize div / 2 ^ e = d at *
  obtain rfl | hlarge : e = 1 ∨ 2 ≤ e := by lia
  · rw [pow_one] at *
    lia
  · have hfour : 4 ≤ 2 ^ e := Nat.pow_le_pow_right (by lia) hlarge (n := 2)
    calc (quo - 1) * (2 ^ e - 1)
      _ ≤ quo * 2 ^ e := Nat.mul_le_mul (Nat.sub_le _ _) (Nat.sub_le _ _)
      _ ≤ 4 * d := by lia
      _ ≤ 2 ^ e * d := Nat.mul_le_mul_right _ hfour

/-- A divisor with a high half: the estimate is corrected at most once. -/
theorem asymmetric_high_eq (hduo : duo < 2 ^ (n_h * 2 * 2)) (hdiv : div < 2 ^ (n_h * 2 * 2))
    (hhi : div / 2 ^ (n_h * 2) ≠ 0) :
    asymmetric_high n_h (narrowing_division (n_h * 2)) duo div (div / 2 ^ (n_h * 2)) =
      some (duo / div, duo % div) := by
  have hlz := leading_zeros_add_size (high_lt hdiv)
  have hsize_lower := two_pow_size_le hhi
  have hsize_upper := lt_two_pow_size (div / 2 ^ (n_h * 2))
  have he : (div / 2 ^ (n_h * 2)).size ≠ 0 := fun h => hhi (Nat.size_eq_zero.1 h)
  have hhi_mul := Nat.div_mul_le_self div (2 ^ (n_h * 2))
  have hupper := (Nat.div_lt_iff_lt_mul (Nat.two_pow_pos (n_h * 2))).1
    (Nat.lt_succ_self (div / 2 ^ (n_h * 2)))
  rw [asymmetric_high]
  generalize n_h * 2 = n at *
  generalize leading_zeros n (div / 2 ^ n) = div_lz at *
  generalize (div / 2 ^ n).size = e at *
  have hpow : 2 ^ n = 2 * 2 ^ (n - 1) := by rw [← pow_succ', Nat.sub_add_cancel (by lia)]
  have hpos : div ≠ 0 := by
    rintro rfl
    simp at hhi
  -- the leading digits of the divisor fill a half
  have hsig_lt : div / 2 ^ e < 2 ^ n := by
    refine Nat.div_lt_of_lt_mul (hupper.trans_le ?_)
    exact Nat.mul_le_mul_right _ hsize_upper
  have hsig : 2 ^ n ≤ 2 * (div / 2 ^ e) := by
    rw [hpow]
    refine Nat.mul_le_mul_left 2 ((Nat.le_div_iff_mul_le (Nat.two_pow_pos e)).2 ?_)
    calc 2 ^ (n - 1) * 2 ^ e
      _ ≤ 2 ^ (n - 1) * (2 * (div / 2 ^ n)) := Nat.mul_le_mul_left _ hsize_lower
      _ = div / 2 ^ n * 2 ^ n := by
        rw [hpow]
        ring
      _ ≤ div := hhi_mul
  have hsig_pos : div / 2 ^ e ≠ 0 := by
    lia
  have hfits : duo / 2 ^ 1 / (div / 2 ^ e) < 2 ^ n := by
    refine Nat.div_lt_of_lt_mul (Nat.div_lt_of_lt_mul ?_)
    calc duo
      _ < 2 ^ n * 2 ^ n := by rwa [← two_pow_mul_two]
      _ ≤ 2 * (div / 2 ^ e) * 2 ^ n := Nat.mul_le_mul_right _ hsig
      _ = 2 ^ 1 * (div / 2 ^ e * 2 ^ n) := by ring
  have hquo : duo / 2 ^ 1 / (div / 2 ^ e) / 2 ^ (e - 1) = duo / 2 ^ e / (div / 2 ^ e) := by
    rw [Nat.div_div_eq_div_mul, Nat.div_div_eq_div_mul, Nat.div_div_eq_div_mul]
    congr 1
    rw [Nat.mul_left_comm, ← pow_add, show 1 + (e - 1) = e by lia, Nat.mul_comm]
  have hest := asymmetric_estimates he hduo (by lia) hsig
  generalize duo / 2 ^ e / (div / 2 ^ e) = quo at *
  have hpred : (if quo ≠ 0 then checkedSub quo 1 else some quo) = some (quo - 1) := by
    split
    · next hne => exact checkedSub_eq (Nat.one_le_iff_ne_zero.2 hne)
    · next heq => rw [not_not.1 heq]
  have hmul := hest.pred
  simp only [checkedSub_eq (show div_lz ≤ n by lia), show n - div_lz = e by lia,
    shr_eq (show e < n * 2 by lia), truncate_eq hsig_lt, shr_eq (show 1 < n * 2 by lia),
    narrowing_division_eq hsig_pos hfits, checkedSub_eq (show 1 ≤ n by lia),
    checkedSub_eq (show div_lz ≤ n - 1 by lia), show n - 1 - div_lz = e - 1 by lia,
    shr_eq (show e - 1 < n by lia), hquo, hpred, wrapping_mul_eq (hmul.trans_lt hduo),
    checkedSub_eq hmul, some_bind]
  have hle := hest.le
  split
  · next hge =>
    have heq : duo = (quo - 1 + 1) * div + (duo - (quo - 1) * div - div) := by
      rw [Nat.add_mul, Nat.one_mul]
      lia
    have hlt : duo - (quo - 1) * div - div < div := by
      have hlt := (Nat.div_lt_iff_lt_mul (Nat.pos_of_ne_zero hpos)).1
        (show duo / div < quo - 1 + 1 + 1 by lia)
      rw [Nat.add_mul, Nat.add_mul, Nat.one_mul] at hlt
      lia
    obtain ⟨hquo_eq, hrem_eq⟩ := div_mod_of_eq heq hlt
    have hword : quo - 1 + 1 < 2 ^ n := by
      rw [← hquo_eq]
      refine Nat.div_lt_of_lt_mul ?_
      calc duo
        _ < 2 ^ n * 2 ^ n := by rwa [← two_pow_mul_two]
        _ ≤ div * 2 ^ n := Nat.mul_le_mul_right _ ((Nat.le_mul_of_pos_left _
          (Nat.pos_of_ne_zero hhi)).trans hhi_mul)
    rw [add_eq hword, checkedSub_eq hge, hquo_eq, hrem_eq]
    rfl
  · next hlt =>
    obtain ⟨hquo_eq, hrem_eq⟩ := div_mod_of_eq
      (show duo = (quo - 1) * div + (duo - (quo - 1) * div) by lia) (by lia)
    rw [hquo_eq, hrem_eq]
    rfl

/-- **The asymmetric algorithm** is division. -/
theorem asymmetric_divides (hhalf : Divides (n_h * 2) half_division) (hh : n_h ≠ 0) :
    Divides (n_h * 2 * 2) (asymmetric n_h half_division (narrowing_division (n_h * 2))) := by
  intro duo div hduo hdiv hpos
  have hdiv_high := high_lt hdiv
  rw [asymmetric]
  simp only [shr_eq (show n_h * 2 < n_h * 2 * 2 by lia), truncate_eq (high_lt hduo),
    truncate_eq hdiv_high, some_bind]
  split
  · next hlow =>
    have hlt : div < 2 ^ (n_h * 2) := by
      rcases Nat.div_eq_zero_iff.1 hlow with h | h
      · exact absurd h (Nat.two_pow_pos _).ne'
      · exact h
    rw [truncate_eq hlt]
    exact asymmetric_low_eq hhalf hh hduo hlt hpos
  · next hhi => exact asymmetric_high_eq hduo hdiv hhi

end RustStd.Division
