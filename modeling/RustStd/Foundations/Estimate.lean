import Mathlib.Tactic.Ring

/-!
# Quotients estimated from leading digits

Dividing what stands above the low digits of a dividend by what stands above the low digits of the
divisor overestimates the quotient, by one at the most when the divisor kept enough digits.
Dividing by a divisor rounded up underestimates it.
-/

namespace RustStd

open Nat

variable {duo div B : ℕ}

/-- The estimate is not below the quotient. -/
theorem div_le_estimate (hB : 0 < B) (hd : div / B ≠ 0) : duo / div ≤ duo / B / (div / B) := by
  rw [Nat.div_div_eq_div_mul]
  exact div_le_div_left (mul_div_le div B) (Nat.mul_pos hB (Nat.pos_of_ne_zero hd))

/-- One less than the estimate is not above the quotient. -/
theorem pred_estimate_mul_le (hB : 0 < B)
    (h : (duo / B / (div / B) - 1) * (B - 1) ≤ B * (div / B)) :
    (duo / B / (div / B) - 1) * div ≤ duo := by
  rcases Nat.eq_zero_or_pos (duo / B / (div / B)) with hzero | hpos
  · rw [hzero]
    simp
  obtain ⟨q, hq⟩ := exists_eq_succ_of_ne_zero hpos.ne'
  rw [hq, succ_sub_one] at h ⊢
  have hmul : (q + 1) * (B * (div / B)) ≤ duo := by
    have hle := div_mul_le_self duo (B * (div / B))
    rwa [← Nat.div_div_eq_div_mul, hq] at hle
  have hmod : div % B ≤ B - 1 := le_sub_one_of_lt (mod_lt div hB)
  calc q * div = q * (B * (div / B)) + q * (div % B) := by rw [← mul_add, div_add_mod]
    _ ≤ q * (B * (div / B)) + q * (B - 1) := Nat.add_le_add_left (mul_le_mul_left q hmod) _
    _ ≤ q * (B * (div / B)) + B * (div / B) := Nat.add_le_add_left h _
    _ = (q + 1) * (B * (div / B)) := by ring
    _ ≤ duo := hmul

/-- An estimate of the quotient is it, or one more. -/
structure Estimates (duo div quo : ℕ) : Prop where
  le : duo / div ≤ quo
  pred : (quo - 1) * div ≤ duo

/-- Whether the product with the divisor is larger than the dividend tells which of the two an
estimate is. -/
theorem Estimates.eq {quo : ℕ} (h : Estimates duo div quo) (hdiv : div ≠ 0) :
    (quo * div ≤ duo → duo / div = quo ∧ duo % div = duo - quo * div) ∧
      (duo < quo * div → quo ≠ 0 ∧ duo / div = quo - 1 ∧ duo % div = duo + div - quo * div) := by
  have hpos := pos_of_ne_zero hdiv
  have hmod := div_add_mod' duo div
  constructor
  · intro hle
    have hquo : duo / div = quo := le_antisymm h.le ((le_div_iff_mul_le hpos).2 hle)
    rw [hquo] at hmod
    exact ⟨hquo, by omega⟩
  intro hlt
  cases quo with
  | zero => simp at hlt
  | succ q =>
    have hpred := (le_div_iff_mul_le hpos).2 h.pred
    rw [Nat.add_sub_cancel] at hpred
    have hquo : duo / div = q :=
      le_antisymm (le_of_lt_succ ((div_lt_iff_lt_mul hpos).2 hlt)) hpred
    rw [hquo] at hmod
    refine ⟨q.succ_ne_zero, hquo, ?_⟩
    rw [add_mul, one_mul]
    omega

/-- A divisor rounded up underestimates, and the dividend keeps what it is short of. -/
theorem underestimate_le {D d : ℕ} (hd : div < (d + 1) * B) {C : ℕ} (hD : D * (B * C) ≤ duo) :
    D / (d + 1) * C * div ≤ duo := calc
  D / (d + 1) * C * div ≤ D / (d + 1) * C * ((d + 1) * B) := mul_le_mul_left _ hd.le
  _ = D / (d + 1) * (d + 1) * (B * C) := by ring
  _ ≤ D * (B * C) := mul_le_mul_right _ (div_mul_le_self _ _)
  _ ≤ duo := hD

end RustStd
