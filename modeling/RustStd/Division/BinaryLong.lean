import RustStd.Division.NormShift
import RustStd.Division.Restoring

/-!
# Binary long division

The division of `impl_binary_long!`: one or two ordinary steps, then a loop that keeps the dividend
and the quotient in one word. The word is shifted to the left, so that its high bits are compared
with the divisor and its low bits collect the quotient. Subtracting the divisor less one brings in
a one at the bottom, and the sign of the result says whether to take it back.
-/

namespace RustStd.Division

open Word Nat

/-- One turn of the central loop: the word and the turns left. -/
def central_step (n div : ℕ) (s : ℕ × ℕ) : Option (Turn (ℕ × ℕ) ℕ) :=
  let (duo, i) := s
  if i = 0 then some (.done duo)
  else
    let duo := wrapping_sub n (duo * 2 % 2 ^ n) div
    let mask := if is_negative n duo then 2 ^ n - 1 else 0
    some (.again (wrapping_add n duo (div &&& mask), i - 1))

/-- The central loop and unpacking its result. -/
def central_loop (n duo div quo shl mask : ℕ) : Option (ℕ × ℕ) := do
  let div := wrapping_sub n div 1
  let duo ← runLoop (central_step n div) (shl + 1) (duo, shl)
  return ((duo &&& mask) ||| quo, ← shr n duo shl)

/-- `impl_binary_long!` for words of `n` bits -/
def binary_long (n : ℕ) (normalization_shift : ℕ → ℕ → Bool → Option ℕ) (duo div : ℕ) :
    Option (ℕ × ℕ) := do
  if div = 0 then none
  if duo < div then return (0, duo)
  let div_original := div
  let shl ← normalization_shift duo div true
  let div ← Word.shl n div shl
  let duo := wrapping_sub n duo div
  let quo ← Word.shl n 1 shl
  if duo < div_original then return (quo, duo)
  if is_negative n div then
    let div ← shr n div 1
    let shl ← checkedSub shl 1
    let tmp ← Word.shl n 1 shl
    let mask ← checkedSub tmp 1
    let sub := wrapping_sub n duo div
    let (duo, quo) := if is_negative n sub then (duo, quo) else (sub, quo ||| tmp)
    if duo < div_original then return (quo, duo)
    central_loop n duo div quo shl mask
  else
    let mask ← checkedSub quo 1
    central_loop n duo div quo shl mask

/-- The word of the central loop for a dividend `r` and a divisor `d`, after `t` turns and with `i`
turns left: the rest of the dividend above `t` bits of the quotient. -/
def Packed (r d t i word : ℕ) : Prop :=
  ∃ rest quo, word = rest * 2 ^ t + quo ∧ quo < 2 ^ t ∧ rest < d * 2 ^ i ∧
    r = quo * (d * 2 ^ i) + rest

variable {n r d t i word : ℕ}

theorem packed_start (hr : r < d * 2 ^ i) : Packed r d 0 i r :=
  ⟨r, 0, by simp, by simp, hr, by simp⟩

/-- A packed word is below the shifted divisor. -/
theorem Packed.lt (h : Packed r d t i word) : word < d * 2 ^ (t + i) := by
  obtain ⟨rest, quo, rfl, hquo, hrest, -⟩ := h
  calc rest * 2 ^ t + quo
    _ < (rest + 1) * 2 ^ t := by rw [add_mul, one_mul]; omega
    _ ≤ d * 2 ^ i * 2 ^ t := mul_le_mul_right _ hrest
    _ = d * 2 ^ (t + i) := by rw [mul_assoc, ← pow_add, add_comm i]

/-- One ordinary step of long division on a packed word: the low bits take part in the comparison
with the divisor less one without changing it. -/
theorem Packed.step (h : Packed r d t (i + 1) word) :
    Packed r d (t + 1) i (if word * 2 < d * 2 ^ (t + (i + 1)) - 1 then word * 2
      else word * 2 - (d * 2 ^ (t + (i + 1)) - 1)) := by
  obtain ⟨rest, quo, rfl, hquo, hrest, hr⟩ := h
  have hshifted : d * 2 ^ (t + (i + 1)) = d * 2 ^ i * 2 ^ (t + 1) := by
    rw [mul_assoc, ← pow_add, show i + (t + 1) = t + (i + 1) by omega]
  have hdouble : (rest * 2 ^ t + quo) * 2 = rest * 2 ^ (t + 1) + 2 * quo := by
    rw [pow_succ]
    ring
  rw [pow_succ, ← mul_assoc] at hrest hr
  rw [hshifted, hdouble]
  rcases lt_or_ge rest (d * 2 ^ i) with hlt | hge
  · have hle : (rest + 1) * 2 ^ (t + 1) ≤ d * 2 ^ i * 2 ^ (t + 1) := mul_le_mul_right _ hlt
    rw [add_mul, one_mul] at hle
    rw [if_pos (by omega)]
    exact ⟨rest, 2 * quo, rfl, by omega, hlt, by rw [hr]; ring⟩
  have hle : d * 2 ^ i * 2 ^ (t + 1) ≤ rest * 2 ^ (t + 1) := mul_le_mul_right _ hge
  have hpos : 0 < d * 2 ^ i * 2 ^ (t + 1) := Nat.mul_pos (by omega) (Nat.two_pow_pos _)
  obtain ⟨x, rfl⟩ := Nat.exists_eq_add_of_le hge
  rw [if_neg (by omega)]
  refine ⟨x, 2 * quo + 1, ?_, by omega, by omega, ?_⟩
  · rw [add_mul]
    omega
  · rw [hr]
    ring

/-- Taking back a subtraction by a mask made of its sign. -/
theorem restore_eq {a b : ℕ} (ha : a < 2 ^ n) (hb : 2 * b ≤ 2 ^ n) (hlt : 2 * a < 2 * b + 2 ^ n) :
    wrapping_add n (wrapping_sub n a b)
      (b &&& if is_negative n (wrapping_sub n a b) then 2 ^ n - 1 else 0) =
        if a < b then a else a - b := by
  have hb' : b < 2 ^ n := by
    omega
  rw [is_negative_wrapping_sub ha hb' (by omega) hlt]
  split
  · next h =>
    rw [and_two_pow_sub_one_eq_mod, mod_eq_of_lt hb', wrapping_add_wrapping_sub ha hb',
      if_pos (of_decide_eq_true h)]
  · next h =>
    have hge : b ≤ a := by simpa using h
    rw [and_zero, wrapping_sub_of_le ha hge, wrapping_add_eq (by omega), if_neg (by omega),
      add_zero]

theorem central_step_eq (h : Packed r d t (i + 1) word) (hd : 2 * (d * 2 ^ (t + (i + 1))) ≤ 2 ^ n) :
    ∃ word', central_step n (d * 2 ^ (t + (i + 1)) - 1) (word, i + 1) =
      some (.again (word', i)) ∧ Packed r d (t + 1) i word' := by
  have hlt := h.lt
  refine ⟨_, ?_, h.step⟩
  have hdouble : word * 2 % 2 ^ n = word * 2 := mod_eq_of_lt (by omega)
  rw [central_step, if_neg i.succ_ne_zero, hdouble]
  simp [restore_eq (n := n) (a := word * 2) (b := d * 2 ^ (t + (i + 1)) - 1) (by omega)
    (by
    omega) (by omega)]

/-- The central loop divides. -/
theorem central_loop_eq {quo shl : ℕ} (hr : r < d * 2 ^ shl) (hd : 2 * (d * 2 ^ shl) ≤ 2 ^ n)
    (hshl : shl < n) :
    central_loop n r (d * 2 ^ shl) (quo * 2 ^ shl) shl (2 ^ shl - 1) =
      some (r / d + quo * 2 ^ shl, r % d) := by
  have hpos : 0 < d * 2 ^ shl := by omega
  obtain ⟨word, hrun, rest, q, rfl, hq, hrest, hr'⟩ := runLoop_spec
    (central_step n (d * 2 ^ shl - 1)) (fun s => ∃ t, t + s.2 = shl ∧ Packed r d t s.2 s.1)
    Prod.snd (Packed r d shl 0) (by
      rintro ⟨word, i⟩ ⟨t, ht, hpacked⟩
      cases i with
      | zero =>
        rw [show t = shl from ht] at hpacked
        exact hpacked
      | succ i =>
        subst ht
        obtain ⟨word', hstep, hpacked'⟩ := central_step_eq hpacked hd
        rw [hstep]
        exact ⟨⟨t + 1, by dsimp only; omega, hpacked'⟩, lt_succ_self i⟩)
    (shl + 1) (r, shl) ⟨0, Nat.zero_add shl, packed_start hr⟩ (lt_succ_self shl)
  rw [pow_zero, Nat.mul_one] at hrest hr'
  obtain ⟨hdiv, hmod⟩ := div_mod_of_eq hr' hrest
  have hsub : wrapping_sub n (d * 2 ^ shl) 1 = d * 2 ^ shl - 1 :=
    wrapping_sub_of_le (by omega) hpos
  simp only [central_loop, hsub, hrun, shr_eq hshl, some_bind, Option.pure_def]
  rw [and_two_pow_sub_one_eq_mod, mul_add_mod_self_right, mod_eq_of_lt hq,
    or_eq_add hq, Nat.mul_comm rest, mul_add_div (Nat.two_pow_pos _), div_eq_of_lt hq,
    hdiv, hmod, Nat.add_zero]

/-- **Binary long division** is division. -/
theorem binary_long_divides {normalization_shift : ℕ → ℕ → Bool → Option ℕ}
    (hshift : Normalizing n normalization_shift) :
    Divides n (binary_long n normalization_shift) := by
  intro duo div hduo _ hdiv
  rcases Nat.lt_or_ge duo div with hlt | hge
  · rw [binary_long, if_neg hdiv]
    simp [hlt, div_eq_of_lt hlt, mod_eq_of_lt hlt]
  obtain ⟨shl, hshift, hnormal⟩ := hshift duo div true hdiv hge hduo
  have hshl := hnormal.lt_width hdiv hduo
  have hle := hnormal.full rfl
  have hcovers := hnormal.covers
  have hpow : 2 ^ shl < 2 ^ n := Nat.pow_lt_pow_right (by omega) hshl
  rw [pow_succ, ← Nat.mul_assoc] at hcovers
  have hsub : wrapping_sub n duo (div * 2 ^ shl) = duo - div * 2 ^ shl :=
    wrapping_sub_of_le hduo hle
  rw [binary_long, if_neg hdiv]
  simp only [if_neg (Nat.not_lt_of_le hge), hshift, shl_eq hshl (hle.trans_lt hduo), hsub,
    shl_eq hshl (a := 1) (by omega), some_bind, Option.pure_def,
    Nat.one_mul]
  obtain ⟨r, rfl⟩ := Nat.exists_eq_add_of_le hle
  rw [Nat.add_sub_cancel_left, mul_add_div (Nat.pos_of_ne_zero hdiv), mul_add_mod]
  rcases Nat.lt_or_ge r div with hlt | hge'
  · rw [if_pos hlt, div_eq_of_lt hlt, mod_eq_of_lt hlt, Nat.add_zero]
  rw [if_neg (Nat.not_lt_of_le hge')]
  split
  · next hneg =>
    -- the shifted divisor has the sign bit, so one more step is made with the dividend in place
    cases shl with
    | zero =>
      rw [pow_zero] at hcovers
      omega
    | succ shl =>
      have hdouble : div * 2 ^ (shl + 1) = 2 * (div * 2 ^ shl) := by
        rw [pow_succ]
        ring
      have hpow' : 2 ^ (shl + 1) = 2 * 2 ^ shl := pow_succ' 2 shl
      have hhalf : shr n (div * 2 ^ (shl + 1)) 1 = some (div * 2 ^ shl) := by
        rw [shr_eq (by omega), hdouble, pow_one, Nat.mul_div_cancel_left _ (by omega)]
      have hsign : is_negative n (wrapping_sub n r (div * 2 ^ shl)) = decide (r < div * 2 ^ shl) :=
        is_negative_wrapping_sub (by omega) (by omega) (by omega) (by omega)
      simp only [hhalf, hsign, checkedSub_eq (Nat.le_add_left 1 shl), Nat.add_sub_cancel,
        shl_eq (by omega) (show 1 * 2 ^ shl < 2 ^ n by omega), Nat.one_mul,
        checkedSub_eq (Nat.one_le_two_pow (n := shl)), some_bind]
      by_cases hstep : r < div * 2 ^ shl
      · simp only [hstep, decide_true, if_true, if_neg (Nat.not_lt_of_le hge')]
        rw [hpow', central_loop_eq hstep (by omega) (by omega), Nat.add_comm]
      obtain ⟨r', rfl⟩ := Nat.exists_eq_add_of_le (Nat.le_of_not_lt hstep)
      have hsub' : wrapping_sub n (div * 2 ^ shl + r') (div * 2 ^ shl) = r' := by
        rw [wrapping_sub_of_le (by omega) (by omega), Nat.add_sub_cancel_left]
      have hor : 2 ^ (shl + 1) ||| 2 ^ shl = 3 * 2 ^ shl := by
        have hadd := or_eq_add' (Nat.pow_lt_pow_succ (by omega) (n := shl)) 1
        rw [Nat.one_mul] at hadd
        omega
      simp only [hstep, decide_false, hsub', hor, Bool.false_eq_true, if_false]
      rw [mul_add_div (Nat.pos_of_ne_zero hdiv), mul_add_mod, hpow']
      split
      · next hlt =>
        rw [div_eq_of_lt hlt, mod_eq_of_lt hlt]
        congr 2
        omega
      · rw [central_loop_eq (by omega) (by omega) (by omega)]
        congr 2
        omega
  · next hneg =>
    rw [is_negative_iff] at hneg
    rw [checkedSub_eq Nat.one_le_two_pow, some_bind]
    have hloop : central_loop n r (div * 2 ^ shl) (1 * 2 ^ shl) shl (2 ^ shl - 1) =
        some (r / div + 1 * 2 ^ shl, r % div) := central_loop_eq (by omega) (by omega) hshl
    rw [Nat.one_mul] at hloop
    rw [hloop, Nat.add_comm]

end RustStd.Division
