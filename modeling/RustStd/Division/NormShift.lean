import Mathlib.Tactic.Ring
import RustStd.Foundations.Loop
import RustStd.Foundations.WordOps

/-!
# The normalization shift

Binary long division starts with the divisor shifted left until its most significant bit is where
that of the dividend is. `normalization_shift` finds the shift from the leading zeros of both
words, or without counting them by one bisection over the shift.
-/

namespace RustStd.Division

open Word Nat

/-- The state of the bisection: what is left of the dividend, the shift, and the next step. -/
structure Bisection where
  test : ℕ
  shl : ℕ
  lvl : ℕ
  deriving DecidableEq

/-- One turn of the bisection. -/
def bisect (n div : ℕ) (s : Bisection) : Option (Turn Bisection ℕ) := do
  let tmp ← shr n s.test s.lvl
  let s := if div ≤ tmp then { s with test := tmp, shl := s.shl + s.lvl } else s
  let lvl := s.lvl / 2
  if lvl = 0 then return .done s.shl
  return .again { s with lvl := lvl }

/-- `impl_normalization_shift!` for words of `n` bits -/
def normalization_shift (use_lz : Bool) (n duo div : ℕ) (full_normalization : Bool) : Option ℕ :=
  if use_lz then do
    let shl ← checkedSub (leading_zeros n div) (leading_zeros n duo)
    if full_normalization then
      let shifted ← Word.shl n div shl
      if duo < shifted then checkedSub shl 1 else return shl
    else return shl
  else runLoop (bisect n div) n ⟨duo, 0, n / 2⟩

/-- What the callers rely on: shifted left, the divisor stays below the power of two that ends the
dividend, and one step of long division takes the dividend below the shifted divisor. -/
structure Normalizes (duo div : ℕ) (full_normalization : Bool) (shl : ℕ) : Prop where
  aligned : div * 2 ^ shl < 2 ^ duo.size
  covers : duo < div * 2 ^ (shl + 1)
  full : full_normalization = true → div * 2 ^ shl ≤ duo

/-- `f` finds the normalization shift of words of `n` bits. -/
def Normalizing (n : ℕ) (f : ℕ → ℕ → Bool → Option ℕ) : Prop :=
  ∀ duo div full_normalization, div ≠ 0 → div ≤ duo → duo < 2 ^ n →
    ∃ shl, f duo div full_normalization = some shl ∧ Normalizes duo div full_normalization shl

variable {n duo div : ℕ}

theorem Normalizes.of_full {shl : ℕ} {full_normalization : Bool} (hle : div * 2 ^ shl ≤ duo)
    (hlt : duo < div * 2 ^ (shl + 1)) : Normalizes duo div full_normalization shl :=
  ⟨hle.trans_lt (lt_two_pow_size duo), hlt, fun _ => hle⟩

theorem Normalizes.lt_width {shl : ℕ} {full_normalization : Bool}
    (h : Normalizes duo div full_normalization shl) (hdiv : div ≠ 0) (hduo : duo < 2 ^ n) :
    shl < n := by
  have hlt : 2 ^ shl < 2 ^ n := calc
    2 ^ shl ≤ div * 2 ^ shl := Nat.le_mul_of_pos_left _ (Nat.pos_of_ne_zero hdiv)
    _ < 2 ^ duo.size := h.aligned
    _ ≤ 2 ^ n := Nat.pow_le_pow_right (by lia) (size_le_of_lt hduo)
  exact (Nat.pow_lt_pow_iff_right (by lia)).1 hlt

/-- The difference of the sizes aligns the most significant bits. -/
theorem normalizes_size_sub (hdiv : div ≠ 0) (hle : div ≤ duo) :
    Normalizes duo div false (duo.size - div.size) := by
  have hsize : div.size ≤ duo.size := Nat.size_le_size hle
  refine ⟨?_, ?_, nofun⟩
  · calc div * 2 ^ (duo.size - div.size)
      _ < 2 ^ div.size * 2 ^ (duo.size - div.size) :=
        Nat.mul_lt_mul_of_pos_right (lt_two_pow_size div) (Nat.two_pow_pos _)
      _ = 2 ^ duo.size := by rw [← pow_add, Nat.add_sub_cancel' hsize]
  · calc duo
      _ < 2 ^ duo.size := lt_two_pow_size duo
      _ = 2 ^ div.size * 2 ^ (duo.size - div.size) := by rw [← pow_add, Nat.add_sub_cancel' hsize]
      _ ≤ 2 * div * 2 ^ (duo.size - div.size) := Nat.mul_le_mul_right _ (two_pow_size_le hdiv)
      _ = div * 2 ^ (duo.size - div.size + 1) := by rw [pow_succ]; ring

/-- An aligned divisor that is still too large is shifted one bit less. -/
theorem Normalizes.pred {shl : ℕ} (h : Normalizes duo div false shl) (hle : div ≤ duo)
    (hlt : duo < div * 2 ^ shl) : shl ≠ 0 ∧ Normalizes duo div true (shl - 1) := by
  cases shl with
  | zero =>
    rw [pow_zero, mul_one] at hlt
    lia
  | succ shl =>
    refine ⟨shl.succ_ne_zero, .of_full ?_ hlt⟩
    have haligned := h.aligned
    have hduo : duo ≠ 0 := by
      rintro rfl
      rw [size_zero, pow_zero, lt_one_iff] at haligned
      lia
    have hhalf := two_pow_size_le hduo
    rw [pow_succ, ← mul_assoc] at haligned
    rw [succ_sub_one]
    lia

/-- What the bisection keeps: the shift found so far is not too large, and with all of the steps
still to come it would be. -/
structure Bisection.Inv (n duo div : ℕ) (s : Bisection) : Prop where
  test_eq : s.test = duo / 2 ^ s.shl
  le : div ≤ s.test
  lvl : ∃ j, s.lvl = 2 ^ j ∧ s.lvl < n
  lt : duo / 2 ^ (s.shl + 2 * s.lvl) < div

/-- A turn decides one bit of the shift. -/
theorem bisect_spec {s : Bisection} (h : s.Inv n duo div) :
    TurnSpec (Bisection.Inv n duo div) Bisection.lvl
      (fun shl => div ≤ duo / 2 ^ shl ∧ duo / 2 ^ (shl + 1) < div) s (bisect n div s) := by
  obtain ⟨test, shl, lvl⟩ := s
  obtain ⟨htest, hle, ⟨j, hj, hlt⟩, hall⟩ := h
  dsimp only at htest hle hj hlt hall
  have htmp : test / 2 ^ lvl = duo / 2 ^ (shl + lvl) := by
    rw [htest, Nat.div_div_eq_div_mul, ← pow_add]
  -- whichever way the comparison goes, `shl'` is the shift with this bit decided
  obtain ⟨shl', hs, hle', hlt'⟩ : ∃ shl', (if div ≤ test / 2 ^ lvl then
      (⟨test / 2 ^ lvl, shl + lvl, lvl⟩ : Bisection) else ⟨test, shl, lvl⟩) =
        ⟨duo / 2 ^ shl', shl', lvl⟩ ∧ div ≤ duo / 2 ^ shl' ∧ duo / 2 ^ (shl' + lvl) < div := by
    rw [htmp]
    split
    · next hdiv => exact ⟨shl + lvl, rfl, hdiv, by rwa [add_assoc, ← two_mul]⟩
    · next hdiv => exact ⟨shl, by rw [htest], htest ▸ hle, Nat.lt_of_not_le hdiv⟩
  simp only [bisect, shr_eq hlt, some_bind]
  rw [hs]
  dsimp only
  cases j with
  | zero =>
    rw [pow_zero] at hj
    subst hj
    rw [if_pos (by decide)]
    exact ⟨hle', hlt'⟩
  | succ j =>
    have hhalf : lvl / 2 = 2 ^ j := by rw [hj, pow_succ, Nat.mul_div_cancel _ (by lia)]
    have hpos := Nat.two_pow_pos j
    rw [if_neg (by lia)]
    refine ⟨⟨rfl, hle', ⟨j, hhalf, by dsimp only; lia⟩, ?_⟩, by dsimp only; lia⟩
    rwa [show 2 * (lvl / 2) = lvl by rw [hhalf, hj, pow_succ, mul_comm]]

/-- **The normalization shift** by leading zeros or by bisection: it exists, and the callers can
rely on what it is for. -/
theorem normalization_shift_spec (use_lz : Bool) (k : ℕ) :
    Normalizing (2 ^ (k + 1)) (normalization_shift use_lz (2 ^ (k + 1))) := by
  intro duo div full_normalization hdiv hle hduo
  have hdiv_lt : div < 2 ^ 2 ^ (k + 1) := hle.trans_lt hduo
  cases use_lz with
  | true =>
    have hsub : checkedSub (leading_zeros (2 ^ (k + 1)) div) (leading_zeros (2 ^ (k + 1)) duo) =
        some (duo.size - div.size) := by
      have hduo_lz := leading_zeros_add_size hduo
      have hdiv_lz := leading_zeros_add_size hdiv_lt
      have hsize : div.size ≤ duo.size := size_le_size hle
      rw [checkedSub_eq (by lia)]
      congr 1
      lia
    have hnormal := normalizes_size_sub hdiv hle
    rw [normalization_shift, if_pos rfl, hsub, some_bind]
    cases full_normalization with
    | false => exact ⟨_, rfl, hnormal⟩
    | true =>
      have hshl := shl_eq (hnormal.lt_width hdiv hduo) (hnormal.aligned.trans_le
          (Nat.pow_le_pow_right (by lia) (size_le_of_lt hduo)))
      rw [if_pos rfl, hshl, some_bind]
      split
      · next hlt =>
        obtain ⟨hne, hpred⟩ := hnormal.pred hle hlt
        exact ⟨_, checkedSub_eq (one_le_iff_ne_zero.2 hne), hpred⟩
      · next hge => exact ⟨_, rfl, .of_full (Nat.le_of_not_lt hge) hnormal.covers⟩
  | false =>
    have hhalf : 2 ^ (k + 1) / 2 = 2 ^ k := by
      rw [pow_succ, Nat.mul_div_cancel _ (by lia)]
    have hpos := Nat.two_pow_pos k
    have hinit : Bisection.Inv (2 ^ (k + 1)) duo div ⟨duo, 0, 2 ^ (k + 1) / 2⟩ := by
      refine ⟨?_, hle, ⟨k, hhalf, ?_⟩, ?_⟩
      · simp
      · simp only
        lia
      · simp only [hhalf]
        rw [zero_add, ← pow_succ', div_eq_of_lt hduo]
        exact pos_of_ne_zero hdiv
    obtain ⟨shl, hrun, hle', hlt'⟩ :=
      runLoop_spec _ _ _ _ (fun _ h => bisect_spec h) (2 ^ (k + 1)) _ hinit (by simp only; lia)
    refine ⟨shl, by rw [normalization_shift, if_neg nofun, hrun], .of_full ?_ ?_⟩
    · exact (le_div_iff_mul_le (Nat.two_pow_pos _)).1 hle'
    · exact (div_lt_iff_lt_mul (Nat.two_pow_pos _)).1 hlt'

end RustStd.Division
