import Mathlib.Tactic.FieldSimp
import Mathlib.Tactic.Linarith
import Mathlib.Tactic.LinearCombination
import Mathlib.Tactic.Positivity
import Mathlib.Tactic.Ring

/-!
# Reciprocals by Newton's iteration in fixed point

The divisor `b` counts units of `1 / K` and the estimate `x` of its reciprocal units of
`1 / (2 * K)`. How far the product of the two is from one is squared by an iteration, up to what
is cut off on the way.
-/

namespace RustStd.Newton

open Nat

variable {K x b : ℕ} {η : ℚ} {L : ℕ}

/-- How far the product of the estimate and the divisor is below one. -/
def shortfall (K x b : ℕ) : ℚ := 1 - x * b / (2 * K ^ 2)

/-- Two less the product. -/
def correction (K x b : ℕ) : ℕ := 2 * K - x * b / (2 * K)

/-- The estimate after one iteration. -/
def refined (K x b : ℕ) : ℕ := x * correction K x b / K

theorem mul_div_le (hb : b < 2 * K) : x * b / (2 * K) ≤ x :=
  Nat.div_le_of_le_mul (by rw [Nat.mul_comm]; exact Nat.mul_le_mul_right x hb.le)

/-- One iteration, with what the two divisions cut off. -/
theorem shortfall_refined (hK : 0 < K) (hx : x ≤ 2 * K) (hb : b < 2 * K) :
    ∃ r s : ℕ, r < 2 * K ∧ s < K ∧ shortfall K (refined K x b) b =
      shortfall K x b ^ 2 - (1 - shortfall K x b) * (r / (2 * K ^ 2)) + s * b / (2 * K ^ 3) := by
  refine ⟨x * b % (2 * K), x * correction K x b % K, mod_lt _ (by omega), mod_lt _ hK, ?_⟩
  have hle : x * b / (2 * K) ≤ 2 * K := (mul_div_le hb).trans hx
  have hproduct : (x * b : ℚ) = 2 * K * (x * b / (2 * K) : ℕ) + (x * b % (2 * K) : ℕ) := by
    exact_mod_cast (div_add_mod (x * b) (2 * K)).symm
  have hrefined : (x * (2 * K - (x * b / (2 * K) : ℕ)) : ℚ) =
      K * (refined K x b) + (x * correction K x b % K : ℕ) := by
    have hdiv := (div_add_mod (x * correction K x b) K).symm
    have hcast : (x * correction K x b : ℚ) =
        K * (refined K x b) + (x * correction K x b % K : ℕ) := by
      exact_mod_cast hdiv
    rw [← hcast, correction, cast_sub hle]
    push_cast
    ring
  unfold shortfall
  generalize refined K x b = y at hrefined ⊢
  generalize x * correction K x b % K = s at hrefined ⊢
  generalize x * b % (2 * K) = r at hproduct ⊢
  generalize x * b / (2 * K) = q at hproduct hrefined
  have hq : (q : ℚ) = (x * b - r) / (2 * K) := by
    field_simp
    linarith
  have hy : (y : ℚ) = (x * (2 * K - q) - s) / K := by
    field_simp
    linarith
  rw [hy, hq]
  field_simp
  ring

theorem shortfall_le_one (K x b : ℕ) : shortfall K x b ≤ 1 := by
  unfold shortfall
  have hnn : (0 : ℚ) ≤ x * b / (2 * K ^ 2) := by positivity
  linarith

/-- One iteration squares the shortfall, and may then exceed it or fall below it by little. -/
theorem shortfall_refined_bounds (hK : 0 < K) (hx : x ≤ 2 * K) (hb : b < 2 * K) :
    -(1 - shortfall K x b) / K ≤ shortfall K (refined K x b) b ∧
      shortfall K (refined K x b) b ≤ shortfall K x b ^ 2 + 1 / K := by
  obtain ⟨r, s, hr, hs, heq⟩ := shortfall_refined hK hx hb
  have hKpos : (0 : ℚ) < K := cast_pos.2 hK
  have hle := shortfall_le_one K x b
  have hr' : (r / (2 * K ^ 2) : ℚ) ≤ 1 / K := by
    rw [div_le_div_iff₀ (by positivity) hKpos]
    have hcast : (r : ℚ) ≤ 2 * K := by exact_mod_cast hr.le
    nlinarith
  have hs' : (s * b / (2 * K ^ 3) : ℚ) ≤ 1 / K := by
    rw [div_le_div_iff₀ (by positivity) hKpos]
    have hcast : ((s * b : ℕ) : ℚ) ≤ (K * (2 * K) : ℕ) :=
      cast_le.2 (Nat.mul_le_mul hs.le hb.le)
    push_cast at hcast
    nlinarith
  have hr_nn : (0 : ℚ) ≤ r / (2 * K ^ 2) := by positivity
  have hs_nn : (0 : ℚ) ≤ s * b / (2 * K ^ 3) := by positivity
  have hprod : (1 - shortfall K x b) * (r / (2 * K ^ 2)) ≤ (1 - shortfall K x b) * (1 / K) :=
    mul_le_mul_of_nonneg_left hr' (by linarith)
  have hprod_nn : 0 ≤ (1 - shortfall K x b) * (r / (2 * K ^ 2)) :=
    mul_nonneg (by linarith) hr_nn
  rw [heq]
  constructor
  · rw [neg_div, div_eq_mul_one_div]
    linarith [sq_nonneg (shortfall K x b)]
  · linarith

/-- A bound on the shortfall before an iteration gives one after it. -/
theorem abs_shortfall_refined_le (hK : 0 < K) (hx : x ≤ 2 * K) (hb : b < 2 * K)
    (h : |shortfall K x b| ≤ η) :
    |shortfall K (refined K x b) b| ≤ η ^ 2 + (1 + η) / K := by
  obtain ⟨hlow, hup⟩ := shortfall_refined_bounds hK hx hb
  obtain ⟨hneg, hpos⟩ := abs_le.1 h
  have hKpos : (0 : ℚ) < K := cast_pos.2 hK
  have hsq : shortfall K x b ^ 2 ≤ η ^ 2 := sq_le_sq' hneg hpos
  have hone : (1 : ℚ) / K ≤ (1 + η) / K := div_le_div_of_nonneg_right (by linarith) hKpos.le
  have hdiv : (1 - shortfall K x b) / K ≤ (1 + η) / K :=
    div_le_div_of_nonneg_right (by linarith) hKpos.le
  rw [neg_div] at hlow
  exact abs_le.2 ⟨by linarith [sq_nonneg η], by linarith⟩

/-- The estimate does not reach one when the divisor is above one. -/
theorem refined_lt (hx : x < 2 * K) (hb : b < 2 * K) (hlt : K < b) : refined K x b < 2 * K := by
  have hle : x * b / (2 * K) ≤ 2 * K := (mul_div_le hb).trans hx.le
  refine Nat.div_lt_of_lt_mul ?_
  have hdiv := div_add_mod (x * b) (2 * K)
  have hmod := mod_lt (x * b) (show 0 < 2 * K by omega)
  unfold correction
  generalize x * b / (2 * K) = q at *
  generalize x * b % (2 * K) = r at *
  have hbq : (K + 1 : ℚ) ≤ b := by exact_mod_cast hlt
  have hrq : (r : ℚ) ≤ 2 * K - 1 := by
    have hcast : (r : ℚ) + 1 ≤ 2 * K := by exact_mod_cast hmod
    linarith
  have hdivq : (2 * K * q + r : ℚ) = x * b := by exact_mod_cast hdiv
  -- a parabola in `x`, whose top is not high enough
  have htop : 4 * b * (x * (4 * K ^ 2 + 2 * K - 1 - x * b) : ℚ) ≤ (4 * K ^ 2 + 2 * K - 1) ^ 2 := by
    linarith [sq_nonneg (4 * K ^ 2 + 2 * K - 1 - 2 * b * x : ℚ)]
  have hsq : ((4 * K ^ 2 + 2 * K - 1) ^ 2 : ℚ) < 16 * K ^ 3 * (K + 1) := by
    nlinarith
  have hbound : (x * (4 * K ^ 2 + 2 * K - 1 - x * b) : ℚ) < 4 * K ^ 3 := by
    have hmul : (16 * K ^ 3 * (K + 1) : ℚ) ≤ 16 * K ^ 3 * b :=
      mul_le_mul_of_nonneg_left hbq (by positivity)
    refine lt_of_mul_lt_mul_left ?_ (show (0 : ℚ) ≤ 4 * b by positivity)
    linarith
  have hgoal : (x * (2 * K - q) : ℚ) < K * (2 * K) := by
    have hstep : (2 * K * (x * (2 * K - q)) : ℚ) ≤ x * (4 * K ^ 2 + 2 * K - 1 - x * b) := by
      have hmul := mul_le_mul_of_nonneg_left hrq (show (0 : ℚ) ≤ x by positivity)
      have hx := congrArg (fun y : ℚ => x * y) hdivq
      linarith
    refine lt_of_mul_lt_mul_left ?_ (show (0 : ℚ) ≤ 2 * K by positivity)
    linarith
  have hcast : ((x * (2 * K - q) : ℕ) : ℚ) < (K * (2 * K) : ℕ) := by
    rw [cast_mul, cast_sub hle]
    push_cast
    exact hgoal
  exact_mod_cast hcast

/-- The bounds on the shortfall after so many iterations. -/
def bound (K : ℕ) : ℕ → ℚ → ℚ
  | 0, η => η
  | n + 1, η => bound K n (η ^ 2 + (1 + η) / K)

theorem bound_mono (K n : ℕ) {η η' : ℚ} (hη : 0 ≤ η) (hle : η ≤ η') :
    bound K n η ≤ bound K n η' := by
  induction n generalizing η η' with
  | zero => exact hle
  | succ n ih =>
    refine ih (by positivity) ?_
    have hsq : η ^ 2 ≤ η' ^ 2 := pow_le_pow_left₀ hη hle 2
    have hdiv : (1 + η) / K ≤ (1 + η') / K :=
      div_le_div_of_nonneg_right (by linarith) (cast_nonneg K)
    linarith

theorem bound_succ_le {n : ℕ} {η' : ℚ} (hη : 0 ≤ η := by norm_num)
    (h : η ^ 2 + (1 + η) / K ≤ η' := by norm_num) :
    bound K (n + 1) η ≤ bound K n η' :=
  bound_mono K n (by positivity) h

theorem bound_nonneg (K n : ℕ) (hη : 0 ≤ η) : 0 ≤ bound K n η := by
  induction n generalizing η with
  | zero => exact hη
  | succ n ih => exact ih (by positivity)

/-- A bound of one eighth is kept. -/
theorem bound_step_le (hK : 64 ≤ K) (hη : 0 ≤ η) (hle : η ≤ 1 / 8) :
    η ^ 2 + (1 + η) / K ≤ 1 / 8 := by
  have hKq : (64 : ℚ) ≤ K := by exact_mod_cast hK
  have hsq : η ^ 2 ≤ (1 / 8) ^ 2 := pow_le_pow_left₀ hη hle 2
  have hdiv : (1 + η) / K ≤ (1 + 1 / 8) / 64 :=
    div_le_div₀ (by norm_num) (by linarith) (by norm_num) hKq
  linarith

theorem bound_le (hK : 64 ≤ K) (n : ℕ) (hη : 0 ≤ η) (hle : η ≤ 1 / 8) : bound K n η ≤ 1 / 8 := by
  induction n generalizing η with
  | zero => exact hle
  | succ n ih => exact ih (by positivity) (bound_step_le hK hη hle)

/-- What an estimate loses when it is lowered. -/
theorem shortfall_sub {n : ℕ} (h : n ≤ x) :
    shortfall K (x - n) b = shortfall K x b + n * b / (2 * K ^ 2) := by
  unfold shortfall
  rw [cast_sub h]
  ring

variable (hK : 0 < K)
include hK

/-- An estimate that is not far off is not small. -/
theorem sq_le_mul_of_shortfall (h : shortfall K x b ≤ 1 / 2) : K ^ 2 ≤ x * b := by
  have hle : (1 / 2 : ℚ) ≤ x * b / (2 * K ^ 2) := by
    unfold shortfall at h
    linarith
  rw [le_div_iff₀ (by positivity)] at hle
  have hcast : ((K ^ 2 : ℕ) : ℚ) ≤ (x * b : ℕ) := by
    push_cast
    linarith
  exact_mod_cast hcast

/-- An estimate lowered by enough is below the reciprocal. -/
theorem sub_mul_lt {d : ℕ} (hlow : K ≤ b) (hd : d ≤ x) (hη : 2 * η < d)
    (h : -η / K ≤ shortfall K x b) : (x - d) * b < 2 * K ^ 2 := by
  have hKpos : (0 : ℚ) < K := cast_pos.2 hK
  have hlowq : (K : ℚ) ≤ b := cast_le.2 hlow
  have hloss : (η / K : ℚ) < d * b / (2 * K ^ 2) := by
    rw [div_lt_div_iff₀ hKpos (by positivity)]
    have hmul : (d * K : ℚ) ≤ d * b := mul_le_mul_of_nonneg_left hlowq (cast_nonneg d)
    calc η * (2 * K ^ 2) = 2 * η * K * K := by ring
      _ < d * K * K := by gcongr
      _ ≤ d * b * K := mul_le_mul_of_nonneg_right hmul hKpos.le
  have hpos : 0 < shortfall K (x - d) b := by
    rw [shortfall_sub hd]
    rw [neg_div] at h
    linarith
  unfold shortfall at hpos
  rw [sub_pos, div_lt_one (by positivity)] at hpos
  exact_mod_cast hpos

/-- An estimate raised by enough is not below the reciprocal. -/
theorem le_add_mul {e : ℕ} (h : shortfall K x b ≤ η)
    (hη : η ≤ e * b / (2 * K ^ 2)) : 2 * K ^ 2 ≤ (x + e) * b := by
  have hle : (1 : ℚ) ≤ x * b / (2 * K ^ 2) + e * b / (2 * K ^ 2) := by
    unfold shortfall at h
    linarith
  rw [← add_div, le_div_iff₀ (by positivity), one_mul, ← add_mul] at hle
  exact_mod_cast hle

/-! ### A last iteration of double width -/

/-- The estimate after an iteration on a divisor that counts units of `1 / L`: the estimate before
still counts units of `1 / (2 * K)`, the one after units of `1 / (2 * L)`, and the correction is
one more than two less the product. -/
def widened (K L x b : ℕ) : ℕ := x * (2 * L - x * b / (2 * K) + 1) / K

/-- How far the product of an estimate of single width and a divisor of double width is below
one. -/
def shortfall' (K L x b : ℕ) : ℚ := 1 - x * b / (2 * K * L)

/-- The estimate for the leading half of a divisor, lowered by one, against the whole divisor. -/
theorem abs_shortfall'_le (hL : L = 2 * K ^ 2) (hpos : 1 ≤ x)
    (hx : x ≤ 2 * K) (hb : b < 2 * L) (h : |shortfall K x (b / (2 * K))| ≤ η) :
    |shortfall' K L (x - 1) b| ≤ η + 1 / K := by
  have hKpos : (0 : ℚ) < K := cast_pos.2 hK
  have hLq : (L : ℚ) = 2 * K ^ 2 := by exact_mod_cast hL
  have hhi : b / (2 * K) < 2 * K := by
    refine Nat.div_lt_of_lt_mul (hb.trans_eq ?_)
    rw [hL]
    ring
  have hlo := mod_lt b (show 0 < 2 * K by omega)
  have hsplit : (b : ℚ) = 2 * K * (b / (2 * K) : ℕ) + (b % (2 * K) : ℕ) := by
    exact_mod_cast (div_add_mod b (2 * K)).symm
  generalize b / (2 * K) = hi at *
  generalize b % (2 * K) = lo at *
  obtain ⟨y, rfl⟩ := Nat.exists_eq_add_of_le' hpos
  rw [Nat.add_sub_cancel]
  have hlowered : (hi / (2 * K ^ 2) : ℚ) ≤ 1 / K := by
    rw [div_le_div_iff₀ (by positivity) hKpos]
    have hcast : (hi : ℚ) ≤ 2 * K := by exact_mod_cast hhi.le
    nlinarith
  have hcut : (y * lo / (4 * K ^ 3) : ℚ) ≤ 1 / K := by
    rw [div_le_div_iff₀ (by positivity) hKpos]
    have hcast : ((y * lo : ℕ) : ℚ) ≤ (2 * K * (2 * K) : ℕ) :=
      cast_le.2 (Nat.mul_le_mul (by omega) hlo.le)
    push_cast at hcast
    nlinarith
  have hlowered_nn : (0 : ℚ) ≤ hi / (2 * K ^ 2) := by positivity
  have hcut_nn : (0 : ℚ) ≤ y * lo / (4 * K ^ 3) := by positivity
  have heq : shortfall' K L y b = shortfall K (y + 1) hi + hi / (2 * K ^ 2) -
      y * lo / (4 * K ^ 3) := by
    unfold shortfall shortfall'
    rw [hLq, hsplit]
    push_cast
    field_simp
    ring
  obtain ⟨hneg, hle⟩ := abs_le.1 h
  rw [heq]
  exact abs_le.2 ⟨by linarith, by linarith⟩

theorem shortfall_widened (hL : L = 2 * K ^ 2) (hx : x ≤ 2 * K) (hb : b < 2 * L) :
    shortfall' K L x b ^ 2 - (1 - shortfall' K L x b) * (2 / L) ≤ shortfall L (widened K L x b) b ∧
      shortfall L (widened K L x b) b ≤ shortfall' K L x b ^ 2 + 1 / L := by
  have hLq : (L : ℚ) = 2 * K ^ 2 := by exact_mod_cast hL
  have hLpos : (0 : ℚ) < L := by
    rw [hLq]
    positivity
  have hle : x * b / (2 * K) ≤ 2 * L := by
    refine Nat.div_le_of_le_mul ?_
    calc x * b ≤ 2 * K * b := Nat.mul_le_mul_right b hx
      _ ≤ 2 * K * (2 * L) := mul_le_mul_left _ hb.le
  have hr := mod_lt (x * b) (show 0 < 2 * K by omega)
  have hs := mod_lt (x * (2 * L - x * b / (2 * K) + 1)) hK
  have hproduct : (x * b : ℚ) = 2 * K * (x * b / (2 * K) : ℕ) + (x * b % (2 * K) : ℕ) := by
    exact_mod_cast (div_add_mod (x * b) (2 * K)).symm
  have hwidened : (x * (2 * L - (x * b / (2 * K) : ℕ) + 1) : ℚ) =
      K * (widened K L x b) + (x * (2 * L - x * b / (2 * K) + 1) % K : ℕ) := by
    have hdiv := (div_add_mod (x * (2 * L - x * b / (2 * K) + 1)) K).symm
    have hcast : ((x * (2 * L - x * b / (2 * K) + 1) : ℕ) : ℚ) = K * (widened K L x b) +
        (x * (2 * L - x * b / (2 * K) + 1) % K : ℕ) := by
      exact_mod_cast hdiv
    rw [← hcast]
    push_cast [hle]
    ring
  unfold shortfall shortfall'
  generalize widened K L x b = y at hwidened ⊢
  generalize x * (2 * L - x * b / (2 * K) + 1) % K = s at hwidened hs
  generalize x * b % (2 * K) = r at hproduct hr
  generalize x * b / (2 * K) = q at hproduct hwidened
  have hq : (q : ℚ) = (x * b - r) / (2 * K) := by
    field_simp
    linarith
  have hy : (y : ℚ) = (x * (2 * L - q + 1) - s) / K := by
    field_simp
    linarith
  have heq : (1 - y * b / (2 * L ^ 2) : ℚ) = (1 - x * b / (2 * K * L)) ^ 2 -
      (x * b / (2 * K * L)) * ((1 + r / (2 * K)) / L) + s * b / (2 * K * L ^ 2) := by
    rw [hy, hq]
    field_simp
    ring
  have hnn : (0 : ℚ) ≤ x * b / (2 * K * L) := by positivity
  have hr' : ((1 + r / (2 * K)) / L : ℚ) ≤ 2 / L := by
    have hcast : (r : ℚ) ≤ 2 * K := by exact_mod_cast hr.le
    have hone : (r / (2 * K) : ℚ) ≤ 1 := div_le_one_of_le₀ hcast (by positivity)
    exact div_le_div_of_nonneg_right (by linarith) hLpos.le
  have hs' : (s * b / (2 * K * L ^ 2) : ℚ) ≤ 1 / L := by
    rw [div_le_div_iff₀ (by positivity) hLpos]
    have hcast : ((s * b : ℕ) : ℚ) ≤ (K * (2 * L) : ℕ) :=
      cast_le.2 (Nat.mul_le_mul hs.le hb.le)
    push_cast at hcast
    nlinarith
  have hs_nn : (0 : ℚ) ≤ s * b / (2 * K * L ^ 2) := by positivity
  have hprod : (x * b / (2 * K * L) * ((1 + r / (2 * K)) / L) : ℚ) ≤
      x * b / (2 * K * L) * (2 / L) :=
    mul_le_mul_of_nonneg_left hr' hnn
  have hprod_nn : (0 : ℚ) ≤ x * b / (2 * K * L) * ((1 + r / (2 * K)) / L) := by positivity
  rw [heq]
  constructor
  · rw [sub_sub_cancel]
    linarith
  · linarith

theorem widened_bounds (hL : L = 2 * K ^ 2) (hx : x ≤ 2 * K) (hb : b < 2 * L)
    (hη : η ≤ 1 / 8) (h : |shortfall' K L x b| ≤ η) :
    -(9 / 4) / L ≤ shortfall L (widened K L x b) b ∧
      shortfall L (widened K L x b) b ≤ η ^ 2 + 1 / L := by
  obtain ⟨hlower, hupper⟩ := shortfall_widened hK hL hx hb
  obtain ⟨hneg, hle⟩ := abs_le.1 h
  have hsq : shortfall' K L x b ^ 2 ≤ η ^ 2 := sq_le_sq' hneg hle
  have hstep : (1 - shortfall' K L x b) * (2 / L) ≤ 9 / 8 * (2 / L) :=
    mul_le_mul_of_nonneg_right (by linarith) (by positivity)
  have hscale : (9 / 8 * (2 / L) : ℚ) = 9 / 4 / L := by ring
  rw [hscale] at hstep
  constructor
  · rw [neg_div]
    linarith [sq_nonneg (shortfall' K L x b)]
  · linarith

omit hK

/-- The widened estimate does not reach one when the leading half of the divisor is above one. -/
theorem widened_lt (hK : 2 ≤ K) (hL : L = 2 * K ^ 2) (hx : x ≤ 2 * K) (hb : b < 2 * L)
    (hlow : L + 2 * K ≤ b) (h : |shortfall' K L x b| ≤ 1 / 8) : widened K L x b < 2 * L := by
  have hbound := (widened_bounds (by omega) hL hx hb le_rfl h).1
  have hKq : (2 : ℚ) ≤ K := by exact_mod_cast hK
  have hLq : (L : ℚ) = 2 * K ^ 2 := by exact_mod_cast hL
  have hLpos : (0 : ℚ) < L := by
    rw [hLq]
    positivity
  have hlowq : (L + 2 * K : ℚ) ≤ b := by exact_mod_cast hlow
  have hprod : (widened K L x b * b / (2 * L ^ 2) : ℚ) ≤ 1 + 9 / 4 / L := by
    have heq : shortfall L (widened K L x b) b = 1 - widened K L x b * b / (2 * L ^ 2) := rfl
    rw [heq, neg_div] at hbound
    linarith
  rw [div_le_iff₀ (by positivity)] at hprod
  have hscale : (1 + 9 / 4 / L) * (2 * L ^ 2) = (2 * L ^ 2 + 9 / 2 * L : ℚ) := by
    field_simp
    ring
  rw [hscale] at hprod
  have hlt : (widened K L x b : ℚ) < 2 * L := by
    refine lt_of_mul_lt_mul_right ?_ (show (0 : ℚ) ≤ b by positivity)
    nlinarith
  exact_mod_cast hlt

/-- An estimate that is not far off has a product that leaves something after the cut. -/
theorem two_le_mul_div (hK : 2 ≤ K) (hL : L = 2 * K ^ 2) (h : shortfall' K L x b ≤ 1 / 8) :
    2 ≤ x * b / (2 * K) := by
  have hKq : (2 : ℚ) ≤ K := by exact_mod_cast hK
  have hLq : (L : ℚ) = 2 * K ^ 2 := by exact_mod_cast hL
  have hle : (7 / 8 : ℚ) ≤ x * b / (2 * K * L) := by
    unfold shortfall' at h
    linarith
  rw [hLq, le_div_iff₀ (by positivity)] at hle
  refine (le_div_iff_mul_le (by omega)).2 ?_
  have hsq : (4 : ℚ) ≤ K ^ 2 := by nlinarith
  have hcube : (K * 4 : ℚ) ≤ K * K ^ 2 := mul_le_mul_of_nonneg_left hsq (cast_nonneg K)
  have hcast : (2 * (2 * K) : ℚ) ≤ x * b := by linarith
  exact_mod_cast hcast

/-- The widened estimate is not small either. -/
theorem le_two_mul_widened (hK : 2 ≤ K) (hL : L = 2 * K ^ 2) (hx : x ≤ 2 * K)
    (hb : b < 2 * L) (h : |shortfall' K L x b| ≤ 1 / 8) : L ≤ 2 * widened K L x b := by
  have hLpos : 8 ≤ L := by
    rw [hL]
    nlinarith
  have hLq : (8 : ℚ) ≤ L := by exact_mod_cast hLpos
  have hone : (1 / L : ℚ) ≤ 1 / 8 := one_div_le_one_div_of_le (by norm_num) hLq
  have hupper := (widened_bounds (by omega) hL hx hb le_rfl h).2
  have hsq := sq_le_mul_of_shortfall (by omega) (hupper.trans (by linarith))
  have hmul : widened K L x b * b ≤ widened K L x b * (2 * L) := mul_le_mul_left _ hb.le
  refine le_of_mul_le_mul_right ?_ (show 0 < L by omega)
  calc L * L = L ^ 2 := (sq L).symm
    _ ≤ widened K L x b * (2 * L) := hsq.trans hmul
    _ = 2 * widened K L x b * L := by ring

/-- Next to a divisor of one the estimate may reach one, but does not exceed it. -/
theorem widened_of_one (hK : 2 ≤ K) (hL : L = 2 * K ^ 2) (hlow : L ≤ b) :
    widened K L (2 * K - 1) b ≤ 2 * L ∧
      (2 * K - 1) * ((2 * L - (2 * K - 1) * b / (2 * K) + 1) / (2 * K)) * 2 < 2 * L := by
  obtain ⟨m, rfl⟩ := Nat.exists_eq_add_of_le' hK
  have hquotient : L - (m + 2) ≤ (2 * (m + 2) - 1) * b / (2 * (m + 2)) := by
    refine (Nat.le_div_iff_mul_le (by omega)).2 ?_
    calc (L - (m + 2)) * (2 * (m + 2)) = (2 * (m + 2) - 1) * L := by
          rw [hL, show 2 * (m + 2) - 1 = 2 * m + 3 by omega,
            show 2 * (m + 2) ^ 2 - (m + 2) = (2 * m + 3) * (m + 2) by
              rw [Nat.sub_eq_iff_eq_add (by nlinarith)]; ring]
          ring
      _ ≤ (2 * (m + 2) - 1) * b := Nat.mul_le_mul_left _ hlow
  have hcorr : 2 * L - (2 * (m + 2) - 1) * b / (2 * (m + 2)) + 1 ≤ L + (m + 2) + 1 := by
    omega
  unfold widened
  generalize 2 * L - (2 * (m + 2) - 1) * b / (2 * (m + 2)) + 1 = corr at hcorr ⊢
  rw [show 2 * (m + 2) - 1 = 2 * m + 3 by omega]
  constructor
  · refine le_of_lt_succ (Nat.div_lt_of_lt_mul ?_)
    calc (2 * m + 3) * corr ≤ (2 * m + 3) * (L + (m + 2) + 1) := Nat.mul_le_mul_left _ hcorr
      _ < (m + 2) * (2 * L + 1) := by rw [hL]; nlinarith
  · have hhi : corr / (2 * (m + 2)) ≤ m + 2 := by
      refine le_of_lt_succ (Nat.div_lt_of_lt_mul (hcorr.trans_lt ?_))
      rw [hL]
      nlinarith
    calc (2 * m + 3) * (corr / (2 * (m + 2))) * 2 ≤ (2 * m + 3) * (m + 2) * 2 :=
          Nat.mul_le_mul_right _ (Nat.mul_le_mul_left _ hhi)
      _ < 2 * L := by rw [hL]; nlinarith

end RustStd.Newton
