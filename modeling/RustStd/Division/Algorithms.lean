import RustStd.Division.Asymmetric
import RustStd.Division.BinaryLong
import RustStd.Division.Delegate
import RustStd.Division.Trifecta

/-!
# The chain of divisions

A target divides its words by one of the algorithms, which divides words of half the width by
another, down to a division of the hardware or binary long division. Every such chain divides.
-/

namespace RustStd.Division

/-- `u64_by_u64_div_rem`, `u32_by_u32_div_rem`: division that the hardware has -/
def checked_div_rem (duo div : ℕ) : Option (ℕ × ℕ) :=
  if div = 0 then none else some (duo / div, duo % div)

/-- The divisions of words of `2 ^ k` bits, each with those it is built from. -/
inductive Algorithm : ℕ → Type
  | checked_div_rem (k : ℕ) : Algorithm k
  | binary_long (k : ℕ) (use_lz : Bool) : Algorithm (k + 1)
  | delegate (k : ℕ) (use_lz : Bool) (half_division : Algorithm (k + 1)) : Algorithm (k + 2)
  | trifecta (k : ℕ) (half_division : Algorithm (k + 1)) : Algorithm (k + 2)
  | asymmetric (k : ℕ) (half_division : Algorithm (k + 1)) : Algorithm (k + 2)
  | u128_divide_sparc (use_lz : Bool) (u64_by_u64_div_rem : Algorithm 6) : Algorithm 7

namespace Algorithm

/-- The quotient and the remainder: `none` where an operation of the chain would be undefined, trap
or not come to an end. -/
def run {k : ℕ} : Algorithm k → ℕ → ℕ → Option (ℕ × ℕ)
  | checked_div_rem _ => Division.checked_div_rem
  | binary_long k use_lz =>
    Division.binary_long (2 ^ (k + 1)) (normalization_shift use_lz (2 ^ (k + 1)))
  | delegate k use_lz half_division =>
    Division.delegate (2 ^ k) (normalization_shift use_lz (2 ^ k * 2)) half_division.run
  | trifecta k half_division => Division.trifecta (2 ^ k) half_division.run
  | asymmetric k half_division =>
    Division.asymmetric (2 ^ k) half_division.run (narrowing_division (2 ^ k * 2))
  | u128_divide_sparc use_lz u64_by_u64_div_rem =>
    Division.u128_divide_sparc (normalization_shift use_lz 64) u64_by_u64_div_rem.run

theorem divides {k : ℕ} (A : Algorithm k) : Divides (2 ^ k) A.run := by
  have hpow : ∀ k, 2 ^ (k + 1) = 2 ^ k * 2 := fun k => pow_succ 2 k
  have hne : ∀ k, 2 ^ k ≠ 0 := fun k => (Nat.two_pow_pos k).ne'
  induction A with
  | checked_div_rem k =>
    intro duo div _ _ hpos
    exact if_neg hpos
  | binary_long k use_lz => exact binary_long_divides (normalization_shift_spec use_lz k)
  | delegate k use_lz half_division ih =>
    rw [hpow, hpow]
    rw [hpow] at ih
    have hshift := normalization_shift_spec use_lz k
    rw [hpow] at hshift
    exact delegate_divides hshift ih (hne k)
  | trifecta k half_division ih =>
    rw [hpow, hpow]
    rw [hpow] at ih
    exact trifecta_divides ih
  | asymmetric k half_division ih =>
    rw [hpow, hpow]
    rw [hpow] at ih
    exact asymmetric_divides ih (hne k)
  | u128_divide_sparc use_lz u64_by_u64_div_rem ih =>
    exact delegate_divides (normalization_shift_spec use_lz 5) ih (show 32 ≠ 0 by decide)

end Algorithm

variable {k duo div : ℕ}

/-- **Every chain of divisions divides**, and so they agree with one another. -/
theorem specialized_div_rem (A : Algorithm k) (hduo : duo < 2 ^ 2 ^ k) (hdiv : div < 2 ^ 2 ^ k)
    (hpos : div ≠ 0) :
    A.run duo div = some (duo / div, duo % div) ∧
      ∀ B : Algorithm k, B.run duo div = A.run duo div := by
  have hrun := A.divides duo div hduo hdiv hpos
  refine ⟨hrun, ?_⟩
  intro B
  rw [hrun]
  exact B.divides duo div hduo hdiv hpos

/-- A division of 128-bit words by the trifecta algorithm over two software divisions. -/
theorem specialized_div_rem_trifecta :
    (Algorithm.trifecta 5 (.delegate 4 true (.binary_long 4 false))).run (2 ^ 127 + 5) 1000000007 =
        some ((2 ^ 127 + 5) / 1000000007, (2 ^ 127 + 5) % 1000000007) ∧
      ∀ B : Algorithm 7, B.run (2 ^ 127 + 5) 1000000007 =
        (Algorithm.trifecta 5 (.delegate 4 true (.binary_long 4 false))).run
          (2 ^ 127 + 5) 1000000007 :=
  specialized_div_rem _ (by decide) (by decide) (by decide)

end RustStd.Division
