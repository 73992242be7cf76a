import Mathlib.Tactic.Ring
import RustStd.Foundations.Loop
import RustStd.Foundations.WordOps

/-!
# Divisions built from divisions of half the width

What the algorithms for words of two halves share: short division by a divisor of a quarter of the
width, and the restoring loop of three variables, which shifts the divisor and a power of two to
the right until what is left of the dividend can be left to something else.
-/

namespace RustStd.Division

open Word Nat

/-- `f` divides words of `w` bits. -/
def Divides (w : ℕ) (f : ℕ → ℕ → Option (ℕ × ℕ)) : Prop :=
  ∀ duo div, duo < 2 ^ w → div < 2 ^ w → div ≠ 0 → f duo div = some (duo / div, duo % div)

/-! ### Short division -/

/-- One digit of a short division, with the remainder of the digits above. -/
def short_digit (n_h : ℕ) (half_division : ℕ → ℕ → Option (ℕ × ℕ)) (digit rem div_0 : ℕ) :
    Option (ℕ × ℕ) := do
  half_division (digit ||| (← shl (n_h * 2) rem n_h)) div_0

/-- The short division of a `$uD` by a `$uH`, by division of a `$uX` by a `$uX`. -/
def short_division (n_h : ℕ) (half_division : ℕ → ℕ → Option (ℕ × ℕ)) (duo div_0 : ℕ) :
    Option (ℕ × ℕ) := do
  let n := n_h * 2
  let duo_hi := truncate n (← shr (n * 2) duo n)
  let (quo_hi, rem_3) ← half_division duo_hi div_0
  let duo_mid := truncate n_h (← shr (n * 2) duo n_h)
  let (quo_1, rem_2) ← short_digit n_h half_division duo_mid rem_3 div_0
  let duo_lo := truncate n_h duo
  let (quo_0, rem_1) ← short_digit n_h half_division duo_lo rem_2 div_0
  return (quo_0 ||| (← shl (n * 2) quo_1 n_h) ||| (← shl (n * 2) quo_hi n), rem_1)

variable {n n_h duo div : ℕ} {half_division : ℕ → ℕ → Option (ℕ × ℕ)}

theorem two_pow_mul_two (n : ℕ) : 2 ^ (n * 2) = 2 ^ n * 2 ^ n := by rw [mul_two, pow_add]

/-- The high half of a word. -/
theorem high_lt (h : duo < 2 ^ (n * 2)) : duo / 2 ^ n < 2 ^ n := by
  rw [two_pow_mul_two] at h
  exact Nat.div_lt_of_lt_mul h

/-- Shifting one half into the high half of a word. -/
theorem shl_half_eq {x : ℕ} (hn : n ≠ 0) (hx : x < 2 ^ n) : shl (n * 2) x n = some (x * 2 ^ n) := by
  refine shl_eq (by omega) ?_
  rw [two_pow_mul_two]
  exact Nat.mul_lt_mul_of_pos_right hx (Nat.two_pow_pos n)

theorem short_digit_eq {digit rem div_0 : ℕ} (hhalf : Divides (n_h * 2) half_division)
    (hdigit : digit < 2 ^ n_h) (hrem : rem < div_0) (hdiv : div_0 < 2 ^ n_h) :
    ∃ quo rem', short_digit n_h half_division digit rem div_0 = some (quo, rem') ∧
      quo < 2 ^ n_h ∧ rem' < div_0 ∧ digit + rem * 2 ^ n_h = quo * div_0 + rem' := by
  have hpos : div_0 ≠ 0 := by omega
  have hh : n_h ≠ 0 := by
    rintro rfl
    omega
  have hlt : digit + rem * 2 ^ n_h < div_0 * 2 ^ n_h := calc
    digit + rem * 2 ^ n_h < (rem + 1) * 2 ^ n_h := by rw [add_mul, one_mul]; omega
    _ ≤ div_0 * 2 ^ n_h := mul_le_mul_right _ hrem
  have hword : div_0 * 2 ^ n_h < 2 ^ (n_h * 2) := by
    rw [two_pow_mul_two]
    exact Nat.mul_lt_mul_of_pos_right hdiv (Nat.two_pow_pos _)
  have hdouble : div_0 < 2 ^ (n_h * 2) :=
    (Nat.le_mul_of_pos_right _ (Nat.two_pow_pos _)).trans_lt hword
  refine ⟨(digit + rem * 2 ^ n_h) / div_0, (digit + rem * 2 ^ n_h) % div_0, ?_, ?_, ?_, ?_⟩
  · rw [short_digit, shl_eq (by omega) (by omega), some_bind,
      or_eq_add hdigit, hhalf _ _ (by omega) hdouble hpos]
  · exact Nat.div_lt_of_lt_mul hlt
  · exact mod_lt _ (pos_of_ne_zero hpos)
  · exact (div_add_mod' _ _).symm

/-- Three digits of a quotient put together. -/
theorem three_digits {hi mid lo B d quo_hi rem_3 quo_1 rem_2 quo_0 rem_1 : ℕ}
    (hduo : duo = lo + (mid + hi * B) * B) (h_hi : quo_hi * d + rem_3 = hi)
    (h_1 : mid + rem_3 * B = quo_1 * d + rem_2) (h_0 : lo + rem_2 * B = quo_0 * d + rem_1) :
    duo = (quo_0 + quo_1 * B + quo_hi * (B * B)) * d + rem_1 := calc
  duo = lo + (mid + rem_3 * B + quo_hi * d * B) * B := by rw [hduo, ← h_hi]; ring
  _ = lo + rem_2 * B + (quo_1 * d + quo_hi * d * B) * B := by rw [h_1]; ring
  _ = (quo_0 + quo_1 * B + quo_hi * (B * B)) * d + rem_1 := by rw [h_0]; ring

theorem short_division_eq {div_0 : ℕ} (hhalf : Divides (n_h * 2) half_division)
    (hduo : duo < 2 ^ (n_h * 2 * 2)) (hdiv : div_0 < 2 ^ n_h) (hpos : div_0 ≠ 0) :
    short_division n_h half_division duo div_0 = some (duo / div_0, duo % div_0) := by
  have hh : n_h ≠ 0 := by
    rintro rfl
    omega
  have hhi : duo / 2 ^ (n_h * 2) < 2 ^ (n_h * 2) := high_lt hduo
  have hmid : duo / 2 ^ n_h % 2 ^ n_h < 2 ^ n_h := mod_lt _ (Nat.two_pow_pos _)
  have hlo : duo % 2 ^ n_h < 2 ^ n_h := mod_lt _ (Nat.two_pow_pos _)
  have hdouble : div_0 < 2 ^ (n_h * 2) :=
    hdiv.trans_le (Nat.pow_le_pow_right (by omega) (by omega))
  have hsplit : duo = duo % 2 ^ n_h + (duo / 2 ^ n_h % 2 ^ n_h +
      duo / 2 ^ (n_h * 2) * 2 ^ n_h) * 2 ^ n_h := by
    rw [two_pow_mul_two, ← Nat.div_div_eq_div_mul, mod_add_div', mod_add_div']
  obtain ⟨quo_1, rem_2, hrun_1, hquo_1, hrem_2, heq_1⟩ :=
    short_digit_eq hhalf hmid (mod_lt (duo / 2 ^ (n_h * 2)) (Nat.pos_of_ne_zero hpos)) hdiv
  obtain ⟨quo_0, rem_1, hrun_0, hquo_0, hrem_1, heq_0⟩ := short_digit_eq hhalf hlo hrem_2 hdiv
  have hquo_hi : duo / 2 ^ (n_h * 2) / div_0 < 2 ^ (n_h * 2) := (Nat.div_le_self _ _).trans_lt hhi
  have hlow : quo_0 + quo_1 * 2 ^ n_h < 2 ^ (n_h * 2) := by
    rw [two_pow_mul_two]
    calc quo_0 + quo_1 * 2 ^ n_h < (quo_1 + 1) * 2 ^ n_h := by rw [Nat.add_mul, Nat.one_mul]; omega
      _ ≤ 2 ^ n_h * 2 ^ n_h := Nat.mul_le_mul_right _ hquo_1
  have hshl_1 : shl (n_h * 2 * 2) quo_1 n_h = some (quo_1 * 2 ^ n_h) :=
    shl_eq (by omega) ((Nat.le_add_left _ _).trans_lt (hlow.trans_le
      (Nat.pow_le_pow_right (by omega) (by omega))))
  have hshl_hi := shl_half_eq (by omega) hquo_hi
  have hdigits := three_digits hsplit (div_add_mod' _ _) heq_1 heq_0
  rw [← two_pow_mul_two] at hdigits
  obtain ⟨hquo, hrem⟩ := div_mod_of_eq hdigits hrem_1
  have htrunc : ∀ a, truncate n_h a = a % 2 ^ n_h := fun _ => rfl
  simp only [short_division, shr_eq (show n_h * 2 < n_h * 2 * 2 by omega),
    shr_eq (show n_h < n_h * 2 * 2 by omega), truncate_eq hhi, hhalf _ _ hhi hdouble hpos,
    htrunc, hrun_1, hrun_0, hshl_1, hshl_hi, some_bind,
    Option.pure_def]
  rw [or_eq_add hquo_0, or_eq_add hlow, hquo, hrem]

/-- The rest of a dividend after the first digit of its quotient. -/
def after_high (n duo div : ℕ) : ℕ := duo % 2 ^ n + duo / 2 ^ n % div * 2 ^ n

theorem after_high_lt (hpos : div ≠ 0) : after_high n duo div < div * 2 ^ n := by
  have hrem : duo / 2 ^ n % div < div := mod_lt _ (pos_of_ne_zero hpos)
  calc after_high n duo div
    _ < (duo / 2 ^ n % div + 1) * 2 ^ n := by
      rw [after_high, add_mul, one_mul]
      omega
    _ ≤ div * 2 ^ n := mul_le_mul_right _ hrem

/-- The quotient by its digits. -/
theorem div_mod_after_high (hpos : div ≠ 0) :
    duo / div = duo / 2 ^ n / div * 2 ^ n + after_high n duo div / div ∧
      duo % div = after_high n duo div % div := by
  have hsplit : duo = div * (duo / 2 ^ n / div * 2 ^ n) + after_high n duo div := calc
    duo = duo % 2 ^ n + (duo / 2 ^ n / div * div + duo / 2 ^ n % div) * 2 ^ n := by
      rw [div_add_mod', mod_add_div']
    _ = div * (duo / 2 ^ n / div * 2 ^ n) + after_high n duo div := by
      rw [after_high]
      ring
  constructor
  · rw [← mul_add_div (pos_of_ne_zero hpos), ← hsplit]
  · calc duo % div
      _ = (div * (duo / 2 ^ n / div * 2 ^ n) + after_high n duo div) % div := by rw [← hsplit]
      _ = after_high n duo div % div := mul_add_mod _ _ _

/-- Putting the remainder of the first digit above the low half. -/
theorem or_after_high (n duo div : ℕ) :
    duo % 2 ^ n ||| duo / 2 ^ n % div * 2 ^ n = after_high n duo div :=
  or_eq_add (mod_lt _ (Nat.two_pow_pos n)) _

/-! ### The restoring loop -/

/-- The variables of a restoring loop. -/
structure LongDivision where
  duo : ℕ
  div : ℕ
  pow_lo : ℕ
  quo_lo : ℕ
  deriving DecidableEq

/-- `div >>= 1; pow_lo >>= 1;` -/
def LongDivision.shift_down (n : ℕ) (s : LongDivision) : Option (Turn LongDivision (ℕ × ℕ)) := do
  return .again { s with div := ← shr (n * 2) s.div 1, pow_lo := ← shr n s.pow_lo 1 }

/-- One turn: subtract the divisor unless that is negative, and ask after a subtraction whether to
leave the loop with a result. -/
def restoring_step (n : ℕ) (leave : ℕ → ℕ → Option (Option (ℕ × ℕ))) (s : LongDivision) :
    Option (Turn LongDivision (ℕ × ℕ)) :=
  let sub := wrapping_sub (n * 2) s.duo s.div
  if is_negative (n * 2) sub then s.shift_down n
  else do
    let s := { s with duo := sub, quo_lo := s.quo_lo ||| s.pow_lo }
    match ← leave s.duo s.quo_lo with
    | some r => return .done r
    | none => s.shift_down n

/-- The loop from a divisor shifted by `shl`. -/
def restoring_loop (n : ℕ) (leave : ℕ → ℕ → Option (Option (ℕ × ℕ))) (duo div shl : ℕ) :
    Option (ℕ × ℕ) := do
  let div ← Word.shl (n * 2) div shl
  let pow_lo ← Word.shl n 1 shl
  runLoop (restoring_step n leave) (n + 1) ⟨duo, div, pow_lo, 0⟩

/-- What the loop keeps for a dividend `duo` and a divisor `div` that stands shifted by `i`: the
quotient so far and the rest of the dividend, which is at least the divisor and less than twice
the shifted one. -/
structure Restoring (n duo div i : ℕ) (s : LongDivision) : Prop where
  div_eq : s.div = div * 2 ^ i
  pow_eq : s.pow_lo = 2 ^ i
  quo_eq : ∃ quo, s.quo_lo = quo * 2 ^ (i + 1) ∧ duo = s.quo_lo * div + s.duo
  lt : s.duo < div * 2 ^ (i + 1)
  ge : div ≤ s.duo
  /-- The sign of the difference is its order. -/
  sign : 2 * s.div ≤ 2 * s.duo + 2 ^ (n * 2)
  width : s.div < 2 ^ (n * 2)
  duo_width : s.duo < 2 ^ (n * 2)

/-- Leaving with what is left of the dividend below the divisor shifted by `i`: the result `r`, or
there is as much left as the divisor. -/
def Leaves (n duo div : ℕ) (leave : ℕ → ℕ → Option (Option (ℕ × ℕ))) (r : ℕ × ℕ) : Prop :=
  ∀ rest quo i, i < n → rest < div * 2 ^ i → duo = quo * 2 ^ i * div + rest →
    leave rest (quo * 2 ^ i) = some (some r) ∨ leave rest (quo * 2 ^ i) = some none ∧ div ≤ rest

variable {r : ℕ × ℕ} {leave : ℕ → ℕ → Option (Option (ℕ × ℕ))} {i : ℕ} {s : LongDivision}

theorem LongDivision.shift_down_spec (hi : i + 1 < n) (hdiv : s.div = div * 2 ^ (i + 1))
    (hpow : s.pow_lo = 2 ^ (i + 1))
    (hquo : ∃ quo, s.quo_lo = quo * 2 ^ (i + 1) ∧ duo = s.quo_lo * div + s.duo)
    (hlt : s.duo < div * 2 ^ (i + 1)) (hge : div ≤ s.duo) (hwidth : s.div < 2 ^ (n * 2)) :
    ∃ s', s.shift_down n = some (.again s') ∧ Restoring n duo div i s' := by
  have hdouble : div * 2 ^ (i + 1) = 2 * (div * 2 ^ i) := by
    rw [pow_succ]
    ring
  refine ⟨⟨s.duo, div * 2 ^ i, 2 ^ i, s.quo_lo⟩, ?_, rfl, rfl, hquo, hlt, hge, ?_, ?_, ?_⟩
  · rw [LongDivision.shift_down, shr_eq (by omega), shr_eq (by omega), hdiv, hpow, hdouble,
      pow_one, pow_succ', Nat.mul_div_cancel_left _ (by omega),
      Nat.mul_div_cancel_left _ (by omega)]
    rfl
  all_goals
    dsimp only
    omega

/-- A turn leaves with the result, or shifts the divisor down by one. -/
theorem restoring_step_spec (hi : i < n) (hleave : Leaves n duo div leave r)
    (h : Restoring n duo div i s) :
    restoring_step n leave s = some (.done r) ∨
      ∃ i' s', i = i' + 1 ∧ restoring_step n leave s = some (.again s') ∧
        Restoring n duo div i' s' := by
  obtain ⟨quo, hquo, hduo⟩ := h.quo_eq
  have hdiv := h.div_eq
  have hlt := h.lt
  have hduo_width := h.duo_width
  have hdouble : div * 2 ^ (i + 1) = 2 * s.div := by
    rw [hdiv, pow_succ]
    ring
  have hsign := is_negative_wrapping_sub h.duo_width h.width h.sign (by omega)
  unfold restoring_step
  simp only [hsign, decide_eq_true_eq]
  split
  · next hneg =>
    cases i with
    | zero =>
      rw [pow_zero, mul_one] at hdiv
      have hge := h.ge
      omega
    | succ i =>
      obtain ⟨s', hdown, hs'⟩ := s.shift_down_spec hi hdiv h.pow_eq
        ⟨quo * 2, by rw [hquo, pow_succ _ (i + 1)]; ring, hduo⟩ (hdiv ▸ hneg) h.ge h.width
      exact .inr ⟨i, s', rfl, hdown, hs'⟩
  next hpos =>
  have hle : s.div ≤ s.duo := Nat.le_of_not_lt hpos
  have hquo' : s.quo_lo ||| s.pow_lo = (2 * quo + 1) * 2 ^ i := by
    rw [hquo, h.pow_eq, or_eq_add' (Nat.pow_lt_pow_succ (by omega)), pow_succ]
    ring
  have hduo' : duo = (2 * quo + 1) * 2 ^ i * div + (s.duo - s.div) := by
    have hsum : (2 * quo + 1) * 2 ^ i * div = s.quo_lo * div + s.div := by
      rw [hquo, hdiv, pow_succ]
      ring
    omega
  rw [wrapping_sub_of_le h.duo_width hle, hquo']
  rcases hleave (s.duo - s.div) (2 * quo + 1) i hi (by rw [← hdiv]; omega) hduo' with
    hret | ⟨hnone, hge⟩
  · left
    rw [hret]
    rfl
  right
  cases i with
  | zero =>
    rw [pow_zero, mul_one] at hdiv
    omega
  | succ i =>
    obtain ⟨s', hdown, hs'⟩ := LongDivision.shift_down_spec
      (s := { s with duo := s.duo - s.div, quo_lo := (2 * quo + 1) * 2 ^ (i + 1) }) hi hdiv
      h.pow_eq ⟨2 * quo + 1, rfl, hduo'⟩ (by dsimp only; rw [← hdiv]; omega) hge h.width
    refine ⟨i, s', rfl, ?_, hs'⟩
    rw [hnone]
    exact hdown

/-- **The restoring loop** comes to the result with which it is left. -/
theorem restoring_loop_eq {shl : ℕ} (hshl : shl < n) (hleave : Leaves n duo div leave r)
    (hduo : duo < 2 ^ (n * 2)) (hge : div ≤ duo) (hlt : duo < div * 2 ^ (shl + 1))
    (hwidth : div * 2 ^ shl < 2 ^ (n * 2)) (hsign : 2 * (div * 2 ^ shl) ≤ 2 * duo + 2 ^ (n * 2)) :
    restoring_loop n leave duo div shl = some r := by
  have hpow : 1 * 2 ^ shl < 2 ^ n := by
    rw [one_mul]
    exact Nat.pow_lt_pow_right (by omega) hshl
  have hstart : Restoring n duo div shl ⟨duo, div * 2 ^ shl, 2 ^ shl, 0⟩ :=
    ⟨rfl, rfl, ⟨0, by simp, by simp⟩, hlt, hge, hsign, hwidth, hduo⟩
  obtain ⟨_, hrun, rfl⟩ := runLoop_spec (restoring_step n leave)
    (fun s => ∃ i < n, Restoring n duo div i s) (fun s => s.pow_lo.size)
    (fun r' => r' = r) (by
      rintro s ⟨i, hi, hs⟩
      rcases restoring_step_spec hi hleave hs with hdone | ⟨i', s', rfl, hagain, hs'⟩
      · rw [hdone]
        exact rfl
      · rw [hagain]
        refine ⟨⟨i', by omega, hs'⟩, ?_⟩
        dsimp only
        rw [hs.pow_eq, hs'.pow_eq, size_pow, size_pow]
        omega)
    (n + 1) _ ⟨shl, hshl, hstart⟩ (by dsimp only; rw [size_pow]; omega)
  rw [restoring_loop, shl_eq (by omega) hwidth, shl_eq hshl hpow, one_mul, some_bind, some_bind,
    hrun]

end RustStd.Division
