import RustStd.Division.NormShift
import RustStd.Division.Restoring

/-!
# Division that delegates to a half division

`impl_delegate!` divides words of two halves with the division of one half and the restoring loop.
When the divisor is one word, the loop runs until the high half of the dividend is gone and the
half division does the rest; when it is not, the loop runs to the end.
-/

namespace RustStd.Division

open Word

section Code

variable (n_h : ℕ) (half_normalization_shift : ℕ → ℕ → Bool → Option ℕ)
  (half_division : ℕ → ℕ → Option (ℕ × ℕ))

/-- Leaving the loop when the high half of the dividend is zero, with the quotient so far put
together with that of the half division by `finish`. -/
def delegates (n div_lo : ℕ) (finish : ℕ → ℕ → Option ℕ) (duo quo_lo : ℕ) :
    Option (Option (ℕ × ℕ)) := do
  let duo_hi := truncate n (← shr (n * 2) duo n)
  if duo_hi = 0 then
    let tmp ← half_division (truncate n duo) div_lo
    return some (← finish quo_lo tmp.1, tmp.2)
  return none

/-- The branch of `duo_hi < div_lo` -/
def delegate_below (duo div duo_hi div_lo : ℕ) : Option (ℕ × ℕ) := do
  let n := n_h * 2
  let norm_shift ← half_normalization_shift div_lo duo_hi false
  let shl ← (if norm_shift = 0 then checkedSub n 1 else checkedSub n norm_shift)
  restoring_loop n (delegates half_division n div_lo fun quo_lo tmp => return quo_lo ||| tmp)
    duo div shl

/-- The branch of `div_lo < duo_hi` -/
def delegate_above (duo div duo_hi div_lo : ℕ) : Option (ℕ × ℕ) := do
  let n := n_h * 2
  if (← shr n div_lo n_h) = 0 then
    let div_0 := truncate n_h div_lo
    short_division n_h half_division duo div_0
  else
    let duo_lo := truncate n duo
    let tmp ← half_division duo_hi div_lo
    let quo_hi := tmp.1
    let duo := duo_lo ||| (← shl (n * 2) tmp.2 n)
    if duo < div then return (← shl (n * 2) quo_hi n, duo)
    restoring_loop n (delegates half_division n div_lo fun quo_lo tmp => do
      return tmp ||| quo_lo ||| (← shl (n * 2) quo_hi n)) duo div (← checkedSub n 1)

/-- The branch of a divisor with two halves -/
def delegate_full (duo div duo_hi div_hi : ℕ) : Option (ℕ × ℕ) := do
  let n := n_h * 2
  if duo < div then return (0, duo)
  let div_original := div
  let shl ← half_normalization_shift duo_hi div_hi false
  restoring_loop n (fun duo quo_lo =>
    return if duo < div_original then some (quo_lo, duo) else none) duo div shl

/-- `impl_delegate!` -/
def delegate (duo div : ℕ) : Option (ℕ × ℕ) := do
  let n := n_h * 2
  let duo_lo := truncate n duo
  let duo_hi := truncate n (← shr (n * 2) duo n)
  let div_lo := truncate n div
  let div_hi := truncate n (← shr (n * 2) div n)
  match decide (div_lo = 0), decide (div_hi = 0), decide (duo_hi = 0) with
  | true, true, _ => none
  | _, false, true => return (0, duo)
  | false, true, true => half_division duo_lo div_lo
  | false, true, false =>
    if duo_hi < div_lo then
      delegate_below n_h half_normalization_shift half_division duo div duo_hi div_lo
    else if duo_hi = div_lo then
      let tmp ← half_division (truncate n duo) (truncate n div)
      return ((← shl (n * 2) 1 n) ||| tmp.1, tmp.2)
    else delegate_above n_h half_division duo div duo_hi div_lo
  | _, false, false => delegate_full n_h half_normalization_shift duo div duo_hi div_hi

end Code

variable {n_h n duo div : ℕ} {half_division : ℕ → ℕ → Option (ℕ × ℕ)}

/-- The half division gives the rest of the quotient. -/
theorem delegates_leaves {finish : ℕ → ℕ → Option ℕ} {q : ℕ} (hhalf : Divides n half_division)
    (hdiv : div < 2 ^ n) (hpos : div ≠ 0)
    (hfinish : ∀ quo tmp i, i < n → tmp < 2 ^ i → duo / div = quo * 2 ^ i + tmp →
      finish (quo * 2 ^ i) tmp = some q) :
    Leaves n duo div (delegates half_division n div finish) (q, duo % div) := by
  intro rest quo i hi hrest hduo
  have hrest_lt : rest < 2 ^ (n * 2) := by
    rw [two_pow_mul_two]
    exact hrest.trans (Nat.mul_lt_mul_of_lt_of_lt hdiv (Nat.pow_lt_pow_right (by omega) hi))
  simp only [delegates, shr_eq (show n < n * 2 by omega), truncate_eq (high_lt hrest_lt), some_bind]
  split
  · next hzero =>
    left
    have hlow : rest < 2 ^ n := by
      rcases Nat.div_eq_zero_iff.1 hzero with h | h
      · exact absurd h (Nat.two_pow_pos n).ne'
      · exact h
    have hquo : duo / div = quo * 2 ^ i + rest / div := by
      rw [hduo, Nat.mul_comm, Nat.mul_add_div (Nat.pos_of_ne_zero hpos)]
    have hrem : duo % div = rest % div := by rw [hduo, Nat.mul_add_mod_self_right]
    rw [truncate_eq hlow, hhalf _ _ hlow hdiv hpos, some_bind,
      hfinish _ _ _ hi (Nat.div_lt_of_lt_mul hrest) hquo, some_bind, hrem]
    rfl
  · next hne =>
    right
    refine ⟨rfl, hdiv.le.trans ?_⟩
    by_contra hlt
    exact hne (Nat.div_eq_of_lt (Nat.lt_of_not_le hlt))

theorem succ_mul_two_pow_le {x a b : ℕ} (h : x * 2 ^ a < 2 ^ b) (hx : x ≠ 0) :
    (x + 1) * 2 ^ a ≤ 2 ^ b := by
  have hlt : 2 ^ a < 2 ^ b := (Nat.le_mul_of_pos_left _ (Nat.pos_of_ne_zero hx)).trans_lt h
  have hle : a ≤ b := ((Nat.pow_lt_pow_iff_right (by omega)).1 hlt).le
  rw [← Nat.add_sub_cancel' hle, pow_add, Nat.mul_comm (2 ^ a)] at h ⊢
  exact Nat.mul_le_mul_right _ (Nat.lt_of_mul_lt_mul_right h)

/-- The dividend and its high half. -/
theorem lt_succ_high_mul (duo n : ℕ) : duo < (duo / 2 ^ n + 1) * 2 ^ n :=
  (Nat.div_lt_iff_lt_mul (Nat.two_pow_pos n)).1 (Nat.lt_succ_self _)

variable {half_normalization_shift : ℕ → ℕ → Bool → Option ℕ}

/-- A high half below the divisor: the loop, ended by a half-width division. -/
theorem delegate_below_eq (hshift : Normalizing (n_h * 2) half_normalization_shift)
    (hhalf : Divides (n_h * 2) half_division) (hduo : duo < 2 ^ (n_h * 2 * 2))
    (hhi : duo / 2 ^ (n_h * 2) ≠ 0) (hlt : duo / 2 ^ (n_h * 2) < div) (hdiv : div < 2 ^ (n_h * 2)) :
    delegate_below n_h half_normalization_shift half_division duo div (duo / 2 ^ (n_h * 2)) div =
      some (duo / div, duo % div) := by
  obtain ⟨norm_shift, hrun, hnormal⟩ := hshift div _ false hhi hlt.le hdiv
  have hn := hnormal.lt_width hhi hdiv
  have haligned := hnormal.aligned
  have hupper := lt_succ_high_mul duo (n_h * 2)
  have hpos : div ≠ 0 := Nat.ne_zero_of_lt hlt
  have hge : div ≤ duo := by
    refine hdiv.le.trans ?_
    by_contra h
    exact hhi (Nat.div_eq_of_lt (Nat.lt_of_not_le h))
  simp only [delegate_below, hrun, some_bind]
  generalize n_h * 2 = n at *
  obtain ⟨shl, hshl_eq, hshl, hcovers⟩ : ∃ shl, (if norm_shift = 0 then checkedSub n 1 else
      checkedSub n norm_shift) = some shl ∧ shl < n ∧ duo < div * 2 ^ (shl + 1) := by
    cases norm_shift with
    | zero =>
      refine ⟨n - 1, by rw [if_pos rfl, checkedSub_eq (by omega)], by omega, ?_⟩
      rw [Nat.sub_add_cancel (by omega)]
      exact hupper.trans_le (Nat.mul_le_mul_right _ hlt)
    | succ m =>
      refine ⟨n - (m + 1), by rw [if_neg m.succ_ne_zero, checkedSub_eq hn.le], by omega, ?_⟩
      have hle : (duo / 2 ^ n + 1) * 2 ^ (m + 1) ≤ 2 * div :=
        (succ_mul_two_pow_le haligned hhi).trans (two_pow_size_le hpos)
      rw [pow_succ, ← Nat.mul_assoc] at hle
      calc duo
        _ < (duo / 2 ^ n + 1) * 2 ^ n := hupper
        _ = (duo / 2 ^ n + 1) * 2 ^ m * 2 ^ (n - (m + 1) + 1) := by
          rw [Nat.mul_assoc, ← pow_add, show m + (n - (m + 1) + 1) = n by omega]
        _ ≤ div * 2 ^ (n - (m + 1) + 1) := Nat.mul_le_mul_right _ (by omega)
  rw [hshl_eq, some_bind]
  have hwidth : div * 2 ^ (shl + 1) < 2 ^ (n * 2) := by
    rw [two_pow_mul_two]
    exact Nat.mul_lt_mul_of_lt_of_le hdiv (Nat.pow_le_pow_right (by omega) hshl)
      (Nat.two_pow_pos n)
  rw [pow_succ, ← Nat.mul_assoc] at hwidth
  refine restoring_loop_eq hshl ?_ hduo hge hcovers (by omega) (by omega)
  refine delegates_leaves hhalf hdiv hpos ?_
  intro quo tmp i _ htmp hquo
  rw [or_eq_add' htmp, hquo]
  rfl

/-- A divisor below the high half: a short division, or a digit and the loop. -/
theorem delegate_above_eq (hhalf : Divides (n_h * 2) half_division)
    (hduo : duo < 2 ^ (n_h * 2 * 2)) (hdiv : div < 2 ^ (n_h * 2)) (hpos : div ≠ 0) :
    delegate_above n_h half_division duo div (duo / 2 ^ (n_h * 2)) div =
      some (duo / div, duo % div) := by
  have hh : n_h ≠ 0 := by
    rintro rfl
    rw [Nat.zero_mul, pow_zero] at hdiv
    omega
  rw [delegate_above, shr_eq (by omega), some_bind]
  split
  · next hshort =>
    have hlt : div < 2 ^ n_h := by
      rcases Nat.div_eq_zero_iff.1 hshort with h | h
      · exact absurd h (Nat.two_pow_pos n_h).ne'
      · exact h
    rw [truncate_eq hlt]
    exact short_division_eq hhalf hduo hlt hpos
  have hn : n_h * 2 ≠ 0 := by omega
  have hhigh := high_lt hduo
  generalize n_h * 2 = n at *
  have hquo_hi : duo / 2 ^ n / div < 2 ^ n := (Nat.div_le_self _ _).trans_lt hhigh
  have hrem_hi : duo / 2 ^ n % div < 2 ^ n := (Nat.mod_lt _ (Nat.pos_of_ne_zero hpos)).trans hdiv
  simp only [hhalf _ _ hhigh hdiv hpos, shl_half_eq hn hrem_hi, truncate, or_after_high,
    shl_half_eq hn hquo_hi, checkedSub_eq (Nat.one_le_iff_ne_zero.2 hn), some_bind]
  -- the first digit of the quotient is done
  have hrest : after_high n duo div < div * 2 ^ n := after_high_lt hpos
  obtain ⟨hquo, hrem⟩ : duo / div = duo / 2 ^ n / div * 2 ^ n + after_high n duo div / div ∧
      duo % div = after_high n duo div % div := div_mod_after_high hpos
  rw [hquo, hrem]
  generalize after_high n duo div = rest at *
  generalize duo / 2 ^ n / div = quo_hi at *
  have hword : div * 2 ^ n < 2 ^ (n * 2) := by
    rw [two_pow_mul_two]
    exact Nat.mul_lt_mul_of_pos_right hdiv (Nat.two_pow_pos n)
  split
  · next hlt => rw [Nat.div_eq_of_lt hlt, Nat.mod_eq_of_lt hlt, Nat.add_zero, Option.pure_def]
  next hge =>
  have hhalf_pow : 2 ^ n = 2 * 2 ^ (n - 1) := by
    rw [← pow_succ', Nat.sub_add_cancel (Nat.one_le_iff_ne_zero.2 hn)]
  have hdouble : div * 2 ^ n = 2 * (div * 2 ^ (n - 1)) := by
    rw [hhalf_pow]
    ring
  refine restoring_loop_eq (by omega) ?_ (hrest.trans hword) (Nat.le_of_not_lt hge) ?_ (by omega)
    (by omega)
  · refine delegates_leaves hhalf hdiv hpos ?_
    intro quo tmp i hi htmp hquo
    have hdigit : tmp + quo * 2 ^ i < 2 ^ n := by
      rw [Nat.add_comm, ← hquo]
      exact Nat.div_lt_of_lt_mul hrest
    rw [or_eq_add htmp, or_eq_add hdigit, hquo, Option.pure_def]
    congr 1
    omega
  · rwa [Nat.sub_add_cancel (Nat.one_le_iff_ne_zero.2 hn)]

variable (hshift : Normalizing (n_h * 2) half_normalization_shift)
include hshift

/-- A divisor with a high half: the restoring loop alone. -/
theorem delegate_full_eq
    (hduo : duo < 2 ^ (n_h * 2 * 2)) (hhi : div / 2 ^ (n_h * 2) ≠ 0) :
    delegate_full n_h half_normalization_shift duo div (duo / 2 ^ (n_h * 2))
      (div / 2 ^ (n_h * 2)) = some (duo / div, duo % div) := by
  rw [delegate_full]
  split
  · next hlt => rw [Nat.div_eq_of_lt hlt, Nat.mod_eq_of_lt hlt, Option.pure_def]
  next hge =>
  have hge := Nat.le_of_not_lt hge
  have hhigh := high_lt hduo
  have hle : div / 2 ^ (n_h * 2) ≤ duo / 2 ^ (n_h * 2) := Nat.div_le_div_right hge
  obtain ⟨shl, hrun, hnormal⟩ := hshift _ _ false hhi hle hhigh
  have hshl := hnormal.lt_width hhi hhigh
  have haligned := hnormal.aligned
  have hcovers := hnormal.covers
  simp only [hrun, some_bind]
  generalize n_h * 2 = n at *
  -- the high halves are aligned, and so are the words
  have hwidth : div * 2 ^ shl < 2 ^ (duo / 2 ^ n).size * 2 ^ n := calc
    div * 2 ^ shl < (div / 2 ^ n + 1) * 2 ^ n * 2 ^ shl :=
      Nat.mul_lt_mul_of_pos_right (lt_succ_high_mul div n) (Nat.two_pow_pos _)
    _ = (div / 2 ^ n + 1) * 2 ^ shl * 2 ^ n := by ring
    _ ≤ 2 ^ (duo / 2 ^ n).size * 2 ^ n :=
      Nat.mul_le_mul_right _ (succ_mul_two_pow_le haligned hhi)
  have hword : 2 ^ (duo / 2 ^ n).size * 2 ^ n ≤ 2 ^ (n * 2) := by
    rw [two_pow_mul_two]
    exact Nat.mul_le_mul_right _ (Nat.pow_le_pow_right (by omega) (size_le_of_lt hhigh))
  have hsize : 2 ^ (duo / 2 ^ n).size * 2 ^ n ≤ 2 * duo := calc
    2 ^ (duo / 2 ^ n).size * 2 ^ n ≤ 2 * (duo / 2 ^ n) * 2 ^ n :=
      Nat.mul_le_mul_right _ (two_pow_size_le (Nat.ne_zero_of_lt
        ((Nat.pos_of_ne_zero hhi).trans_le hle)))
    _ ≤ 2 * duo := by
      rw [Nat.mul_assoc]
      exact Nat.mul_le_mul_left _ (Nat.div_mul_le_self _ _)
  have hlt : duo < div * 2 ^ (shl + 1) := calc
    duo < (duo / 2 ^ n + 1) * 2 ^ n := lt_succ_high_mul duo n
    _ ≤ div / 2 ^ n * 2 ^ (shl + 1) * 2 ^ n := Nat.mul_le_mul_right _ hcovers
    _ = div / 2 ^ n * 2 ^ n * 2 ^ (shl + 1) := by ring
    _ ≤ div * 2 ^ (shl + 1) := Nat.mul_le_mul_right _ (Nat.div_mul_le_self _ _)
  refine restoring_loop_eq hshl ?_ hduo hge hlt (by omega) (by omega)
  intro rest quo i _ _ hduo_eq
  dsimp only
  rcases Nat.lt_or_ge rest div with hlt | hge
  · left
    obtain ⟨hdiv, hmod⟩ := div_mod_of_eq hduo_eq hlt
    rw [if_pos hlt, hdiv, hmod]
    rfl
  · right
    rw [if_neg (Nat.not_lt_of_le hge)]
    exact ⟨rfl, hge⟩

/-- **The delegate algorithm** is division. -/
theorem delegate_divides
    (hhalf : Divides (n_h * 2) half_division) (hh : n_h ≠ 0) :
    Divides (n_h * 2 * 2) (delegate n_h half_normalization_shift half_division) := by
  intro duo div hduo hdiv hpos
  have hduo_high := high_lt hduo
  have hdiv_high := high_lt hdiv
  rw [delegate]
  simp only [shr_eq (show n_h * 2 < n_h * 2 * 2 by omega), truncate_eq hduo_high,
    truncate_eq hdiv_high, some_bind]
  have hlt_of_high : ∀ {x}, x / 2 ^ (n_h * 2) = 0 → x < 2 ^ (n_h * 2) := by
    intro x hx
    rcases Nat.div_eq_zero_iff.1 hx with h | h
    · exact absurd h (Nat.two_pow_pos _).ne'
    · exact h
  by_cases hdiv_hi : div / 2 ^ (n_h * 2) = 0
  · have hdiv_lt := hlt_of_high hdiv_hi
    simp only [hdiv_hi, truncate_eq hdiv_lt, hpos, decide_true, decide_false]
    by_cases hduo_hi : duo / 2 ^ (n_h * 2) = 0
    · have hduo_lt := hlt_of_high hduo_hi
      simp only [hduo_hi, truncate_eq hduo_lt, decide_true]
      exact hhalf duo div hduo_lt hdiv_lt hpos
    simp only [hduo_hi, decide_false]
    split
    · next hlt => exact delegate_below_eq hshift hhalf hduo hduo_hi hlt hdiv_lt
    split
    · next heq =>
      -- the high digit of the quotient is one
      have hlow : duo % 2 ^ (n_h * 2) < 2 ^ (n_h * 2) := Nat.mod_lt _ (Nat.two_pow_pos _)
      have hone : 1 * 2 ^ (n_h * 2) < 2 ^ (n_h * 2 * 2) := by
        rw [Nat.one_mul]
        exact Nat.pow_lt_pow_right (by omega) (by omega)
      have hquo : duo % 2 ^ (n_h * 2) / div < 2 ^ (n_h * 2) := (Nat.div_le_self _ _).trans_lt hlow
      have hsplit : duo = div * 2 ^ (n_h * 2) + duo % 2 ^ (n_h * 2) := by
        rw [← heq, Nat.div_add_mod']
      simp only [truncate, hhalf _ _ hlow hdiv_lt hpos, shl_eq (by omega) hone,
        some_bind, Option.pure_def]
      rw [or_eq_add' hquo, Nat.one_mul]
      generalize duo % 2 ^ (n_h * 2) = low at *
      rw [hsplit, Nat.mul_add_div (Nat.pos_of_ne_zero hpos), Nat.mul_add_mod]
    · exact delegate_above_eq hhalf hduo hdiv_lt hpos
  · simp only [hdiv_hi, decide_false]
    by_cases hduo_hi : duo / 2 ^ (n_h * 2) = 0
    · have hlt : duo < div := by
        refine (hlt_of_high hduo_hi).trans_le ?_
        by_contra h
        exact hdiv_hi (Nat.div_eq_of_lt (Nat.lt_of_not_le h))
      simp only [hduo_hi, decide_true]
      rw [Nat.div_eq_of_lt hlt, Nat.mod_eq_of_lt hlt, Option.pure_def]
    · simp only [hduo_hi, decide_false]
      exact delegate_full_eq hshift hduo hdiv_hi

/-- `u128_divide_sparc`, with the remainder that it stores as the second component -/
def u128_divide_sparc (u64_normalization_shift : ℕ → ℕ → Bool → Option ℕ)
    (u64_by_u64_div_rem : ℕ → ℕ → Option (ℕ × ℕ)) (duo div : ℕ) : Option (ℕ × ℕ) :=
  delegate 32 u64_normalization_shift u64_by_u64_div_rem duo div

end RustStd.Division
