import Mathlib.Data.Nat.Prime.Basic
import RustStd.SoftFloat.Reciprocal

/-!
# The estimate of the quotient and its rounding

The estimate is below the quotient by less than two units in the last place, so that its residual
is less than twice the divisor. The residual then tells which of the next floats is the nearest.
-/

namespace RustStd.SoftFloat

open Nat Option BinaryFormat.Nearest

namespace Float

variable {F : Float} {pointer : PointerSize} {A B e : ℕ} {E : ℤ}

open BinaryFormat (rounded)

/-! ### The estimate -/

/-- What a reciprocal that is `e` units too small does to the quotient. Here `D` is the implicit
bit of the significands and `4 * D * G` the range of the words. -/
theorem estimate_bounds {D G x Q : ℕ} (hD : 0 < D) (hlA : D ≤ A) (huA : A < 2 * D) (hlB : D ≤ B)
    (huB : B < 2 * D) (he : e < G) (hx : x * B < 4 * D * G * D)
    (hx' : 4 * D * G * D ≤ (x + e) * B) (hQ : Q * (4 * D * G) ≤ x * (A * 2))
    (hQ' : x * (A * 2) < (Q + 1) * (4 * D * G)) :
    D ≤ Q ∧ Q < 4 * D ∧ Q * B < A * (2 * D) ∧ G * (A * (2 * D) - Q * B) < (G + e) * B := by
  have hG : 0 < G := zero_lt_of_lt he
  have hx_up : x < 4 * D * G := by
    refine Nat.lt_of_mul_lt_mul_right (a := D) (lt_of_le_of_lt ?_ hx)
    exact Nat.mul_le_mul_left x hlB
  have hx_low : 2 * D * G ≤ x := by
    refine Nat.le_of_not_lt fun hlt => absurd hx' (not_le.2 ?_)
    calc (x + e) * B ≤ (2 * D * G - 1 + (G - 1)) * (2 * D - 1) :=
          Nat.mul_le_mul (by lia) (by lia)
      _ < 4 * D * G * D := by
          obtain ⟨d, rfl⟩ := Nat.exists_eq_add_of_le' hD
          obtain ⟨g, rfl⟩ := Nat.exists_eq_add_of_le' hG
          have hleft : 2 * (d + 1) * (g + 1) - 1 = 2 * (d * g) + 2 * d + 2 * g + 1 := by
            rw [show 2 * (d + 1) * (g + 1) = 2 * (d * g) + 2 * d + 2 * g + 1 + 1 by ring,
              Nat.add_sub_cancel]
          rw [hleft, Nat.add_sub_cancel, show 2 * (d + 1) - 1 = 2 * d + 1 by lia]
          nlinarith [Nat.zero_le (d * g)]
  have hbelow : Q * B < A * (2 * D) := by
    refine Nat.lt_of_mul_lt_mul_right (a := 4 * D * G) ?_
    calc Q * B * (4 * D * G) = Q * (4 * D * G) * B := by ring
      _ ≤ x * (A * 2) * B := Nat.mul_le_mul_right B hQ
      _ = x * B * (A * 2) := by ring
      _ < 4 * D * G * D * (A * 2) := Nat.mul_lt_mul_of_pos_right hx (by lia)
      _ = A * (2 * D) * (4 * D * G) := by ring
  refine ⟨?_, ?_, hbelow, ?_⟩
  · refine le_of_lt_succ (Nat.lt_of_mul_lt_mul_right (a := 4 * D * G) (lt_of_le_of_lt ?_ hQ'))
    calc D * (4 * D * G) = 2 * D * G * (D * 2) := by ring
      _ ≤ x * (A * 2) := Nat.mul_le_mul hx_low (Nat.mul_le_mul_right 2 hlA)
  · refine Nat.lt_of_mul_lt_mul_right (a := 4 * D * G) (lt_of_le_of_lt hQ ?_)
    calc x * (A * 2) < 4 * D * G * (4 * D) := Nat.mul_lt_mul'' hx_up (by lia)
      _ = 4 * D * (4 * D * G) := Nat.mul_comm _ _
  · refine Nat.lt_of_mul_lt_mul_left (a := 4 * D) ?_
    have hdividend : A * (2 * D) * (4 * D * G) ≤ x * (A * 2) * B + e * B * (A * 2) := by
      calc A * (2 * D) * (4 * D * G) = 4 * D * G * D * (A * 2) := by ring
        _ ≤ (x + e) * B * (A * 2) := Nat.mul_le_mul_right _ hx'
        _ = x * (A * 2) * B + e * B * (A * 2) := by ring
    have hquotient : x * (A * 2) * B < (Q + 1) * (4 * D * G) * B :=
      Nat.mul_lt_mul_of_pos_right hQ' (by lia)
    have herror : e * B * (A * 2) ≤ e * B * (4 * D) := Nat.mul_le_mul_left _ (by lia)
    rw [← Nat.mul_assoc, Nat.mul_comm (4 * D * G), Nat.sub_mul]
    refine Nat.sub_lt_left_of_lt_add (Nat.mul_le_mul_right _ hbelow.le) ?_
    calc A * (2 * D) * (4 * D * G) < (Q + 1) * (4 * D * G) * B + e * B * (4 * D) := by lia
      _ = Q * B * (4 * D * G) + 4 * D * ((G + e) * B) := by ring

/-- The estimate `q` of the quotient of `A` and `B`, with its residual `R`, for a dividend `A'` that
may have been doubled so that the quotient has an integral bit. -/
structure Estimated (F : Float) (A B e : ℕ) (E : ℤ) (q R A' : ℕ) (E' : ℤ) : Prop where
  lower : 2 ^ F.SIG_BITS ≤ q
  upper : q < 2 ^ (F.SIG_BITS + 1)
  residual : R + q * B = A' * 2 ^ F.SIG_BITS
  pos : 0 < R
  close : 2 ^ (F.EXP_BITS - 1) * R < (2 ^ (F.EXP_BITS - 1) + e) * B
  dividend_le : A' ≤ 2 * B
  value : (A' * 2 ^ E' : ℚ) = A * 2 ^ E
  exponent : E - 1 ≤ E' ∧ E' ≤ E

/-- The residual is less than twice the divisor. -/
theorem Estimated.residual_lt {q R A' : ℕ} {E' : ℤ} (h : F.Estimated A B e E q R A' E')
    (he : e < 2 ^ (F.EXP_BITS - 1)) : R < 2 * B := by
  refine Nat.lt_of_mul_lt_mul_left (a := 2 ^ (F.EXP_BITS - 1)) (h.close.trans_le ?_)
  calc (2 ^ (F.EXP_BITS - 1) + e) * B ≤ (2 * 2 ^ (F.EXP_BITS - 1)) * B :=
        mul_le_mul_right B (by lia)
    _ = 2 ^ (F.EXP_BITS - 1) * (2 * B) := by ring

/-- A residual that fits is found although its operands wrap around. -/
theorem residual_eq {Q s R : ℕ} (h : R + Q * B = A * 2 ^ s) (hR : R < 2 ^ F.BITS) :
    Word.wrapping_sub F.BITS (A * 2 ^ s % 2 ^ F.BITS) (Word.wrapping_mul F.BITS Q B) = R := by
  rw [Word.wrapping_mul, Word.wrapping_sub_mod (by lia) (by lia)]
  lia

/-- The quotient by the reciprocal, with the residual that corrects it. -/
theorem estimate_quotient_spec (exact : Bool) {x : ℕ} (hlA : 2 ^ F.SIG_BITS ≤ A)
    (huA : A < 2 ^ (F.SIG_BITS + 1)) (hlB : 2 ^ F.SIG_BITS ≤ B) (huB : B < 2 ^ (F.SIG_BITS + 1))
    (he : e < 2 ^ (F.EXP_BITS - 1)) (hx : x * B < 2 ^ (F.BITS + F.SIG_BITS))
    (hx' : 2 ^ (F.BITS + F.SIG_BITS) ≤ (x + e) * B) (hE : is_i32 (E - 1)) :
    ∃ q R A' E', F.estimate_quotient exact x A B E = some (q, R, A', E') ∧
      F.Estimated A B e E q R A' E' := by
  have hbits := F.bits_eq
  have hexp := F.exp_bits_bounds
  have hword : 2 ^ F.BITS = 4 * 2 ^ F.SIG_BITS * 2 ^ (F.EXP_BITS - 1) := by
    rw [hbits, show F.SIG_BITS + F.EXP_BITS + 1 = 2 + F.SIG_BITS + (F.EXP_BITS - 1) by lia,
      pow_add, pow_add]
    rfl
  have hD := Nat.two_pow_pos F.SIG_BITS
  have hG : 2 ^ 4 ≤ 2 ^ (F.EXP_BITS - 1) := Nat.pow_le_pow_right Nat.two_pos (by lia)
  have hwide : 64 * 2 ^ F.SIG_BITS ≤ 2 ^ F.BITS := by
    rw [hword]
    calc 64 * 2 ^ F.SIG_BITS = 4 * 2 ^ F.SIG_BITS * 2 ^ 4 := by ring
      _ ≤ _ := Nat.mul_le_mul_left _ hG
  have hshl : shl exact F.BITS A 1 = some (A * 2) := by
    refine shl_eq (by lia) ?_
    rw [pow_one]
    lia
  have hbounds := estimate_bounds (Q := x * (A * 2) / 2 ^ F.BITS) hD hlA (by lia) hlB (by lia)
    he (by rwa [← hword, ← pow_add]) (by rwa [← hword, ← pow_add])
    (by rw [← hword]; exact div_mul_le_self _ _)
    (by rw [← hword, Nat.mul_comm _ (2 ^ F.BITS)]; exact lt_mul_div_succ _ (Nat.two_pow_pos _))
  unfold estimate_quotient
  rw [hshl, some_bind]
  generalize x * (A * 2) / 2 ^ F.BITS = Q at hbounds ⊢
  obtain ⟨hlow, hup, hbelow, hclose⟩ := hbounds
  obtain ⟨R, hR⟩ := Nat.exists_eq_add_of_le hbelow.le
  rw [hR, Nat.add_sub_cancel_left] at hclose
  have hdivisor : R < 2 * B := by
    refine Nat.lt_of_mul_lt_mul_left (a := 2 ^ (F.EXP_BITS - 1)) (hclose.trans_le ?_)
    calc (2 ^ (F.EXP_BITS - 1) + e) * B ≤ (2 * 2 ^ (F.EXP_BITS - 1)) * B :=
          Nat.mul_le_mul_right B (by lia)
      _ = 2 ^ (F.EXP_BITS - 1) * (2 * B) := by ring
  by_cases hlt : Q < F.IMPLICIT_BIT * 2
  · have hresidual : R + Q * B = A * 2 ^ (F.SIG_BITS + 1) := by
      rw [pow_succ, Nat.mul_comm _ 2, hR, Nat.add_comm]
    have hkeep : (R : ℤ) = A * 2 ^ (F.SIG_BITS + 1) - Q * B := by
      rw [eq_sub_iff_add_eq]
      exact_mod_cast hresidual
    have hshl_wide : Word.shl F.BITS A (F.SIG_BITS + 1) =
        some (A * 2 ^ (F.SIG_BITS + 1) % 2 ^ F.BITS) := if_pos (by lia)
    have hle : A ≤ B := by
      refine Nat.le_of_not_lt fun hgt => absurd hdivisor (not_lt.2 ?_)
      have hmul : Q * B ≤ (2 * 2 ^ F.SIG_BITS - 1) * B :=
        Nat.mul_le_mul_right B (by rw [IMPLICIT_BIT] at hlt; lia)
      have hge : (B + 1) * (2 * 2 ^ F.SIG_BITS) ≤ A * (2 * 2 ^ F.SIG_BITS) :=
        Nat.mul_le_mul_right _ hgt
      rw [Nat.sub_mul] at hmul
      rw [Nat.add_mul, Nat.mul_comm B] at hge
      have hB : B ≤ 2 * 2 ^ F.SIG_BITS * B := Nat.le_mul_of_pos_left B (by lia)
      lia
    refine ⟨Q, R, A * 2, E - 1, ?_, ?_⟩
    · rw [if_pos hlt, hshl_wide, some_bind, residual_eq hresidual (by lia)]
      dsimp only
      rw [keep_eq hkeep, some_bind, sub_i32_eq hE]
      rfl
    · refine ⟨hlow, by rw [IMPLICIT_BIT] at hlt; lia, ?_, by lia, hclose, by lia, ?_,
        by lia, by lia⟩
      · rw [hresidual, pow_succ]
        ring
      · rw [zpow_sub₀ two_ne_zero, zpow_one]
        push_cast
        field_simp
  · have hhalf := div_add_mod Q 2
    have hmod := mod_lt Q Nat.two_pos
    have hshr : Word.shr F.BITS Q 1 = some (Q / 2) := Word.shr_eq (by lia)
    generalize Q / 2 = q at hhalf hshr
    generalize Q % 2 = r at hhalf hmod
    have hsplit : Q * B = 2 * (q * B) + r * B := by
      rw [← hhalf]
      ring
    have hdividend : A * (2 * 2 ^ F.SIG_BITS) = 2 * (A * 2 ^ F.SIG_BITS) := by ring
    have hcarry : r * B ≤ 1 * B := Nat.mul_le_mul_right B (by lia)
    obtain ⟨S, hS⟩ := Nat.exists_eq_add_of_le (show q * B ≤ A * 2 ^ F.SIG_BITS by lia)
    have hresidual : S + q * B = A * 2 ^ F.SIG_BITS := by lia
    have hkeep : (S : ℤ) = A * 2 ^ F.SIG_BITS - q * B := by
      rw [eq_sub_iff_add_eq]
      exact_mod_cast hresidual
    have hshl_wide : Word.shl F.BITS A F.SIG_BITS =
        some (A * 2 ^ F.SIG_BITS % 2 ^ F.BITS) := if_pos (by lia)
    refine ⟨q, S, A, E, ?_, ?_⟩
    · rw [if_neg hlt, hshr, some_bind, hshl_wide, some_bind, residual_eq hresidual (by lia)]
      dsimp only
      rw [keep_eq hkeep]
      rfl
    rw [IMPLICIT_BIT] at hlt
    refine ⟨by lia, by lia, hresidual, by lia, ?_, by lia, rfl, by lia, le_rfl⟩
    refine Nat.lt_of_mul_lt_mul_left (a := 2) ?_
    calc 2 * (2 ^ (F.EXP_BITS - 1) * S) = 2 ^ (F.EXP_BITS - 1) * (2 * S) := by ring
      _ ≤ 2 ^ (F.EXP_BITS - 1) * (R + B) := Nat.mul_le_mul_left _ (by lia)
      _ = 2 ^ (F.EXP_BITS - 1) * R + 2 ^ (F.EXP_BITS - 1) * B := Nat.mul_add _ _ _
      _ < (2 ^ (F.EXP_BITS - 1) + e) * B + 2 ^ (F.EXP_BITS - 1) * B :=
          Nat.add_lt_add_right hclose _
      _ ≤ 2 * ((2 ^ (F.EXP_BITS - 1) + e) * B) := by
          rw [Nat.add_mul]
          lia

/-! ### Rounding -/

/-- The quotient is never in the middle between the two floats after the estimated one. -/
theorem residual_ne {s q R A' : ℕ} (hB : 0 < B) (hup : B < 2 ^ (s + 1))
    (h : R + q * B = A' * 2 ^ s) : 2 * R ≠ 3 * B := by
  intro htie
  have hproduct : (3 + 2 * q) * B = A' * 2 ^ (s + 1) := by
    rw [pow_succ]
    linarith
  have hodd : Nat.Coprime (2 ^ (s + 1)) (3 + 2 * q) := by
    refine Nat.Coprime.pow_left _ (coprime_two_left.2 ⟨q + 1, ?_⟩)
    ring
  have hdvd : 2 ^ (s + 1) ∣ B := hodd.dvd_of_dvd_mul_left (Dvd.intro_left A' hproduct.symm)
  exact absurd (le_of_dvd hB hdvd) (not_le.2 hup)

/-- The next float is taken as often as the residual, which is doubled, asks for. -/
theorem correct_quotient_eq (pointer : PointerSize) (negative : Bool) (ret R : ℕ) (hB : 0 < B)
    (huB : B < 2 ^ (F.SIG_BITS + 1)) (hret : ret + 1 ≤ F.format.infinity) (hR : R < 4 * B)
    (hne : R ≠ 3 * B) (htwo : 3 * B < R → ret + 2 ≤ F.format.infinity)
    (hplan : ¬ (F.BITS = 128 ∨ F.BITS = 32 ∧ 0 < F.half_iterations pointer) → R < 3 * B) :
    F.correct_quotient pointer (negative.toNat * 2 ^ (F.BITS - 1)) B ret R =
      some (rounded (ret + R / (2 * B)) (cmp (R % (2 * B)) B) +
        negative.toNat * 2 ^ (F.BITS - 1)) := by
  have hbits := F.bits_eq
  have hexp := F.exp_bits_bounds
  have hinf := F.infinity_lt
  have hword : 2 ^ (F.BITS - 1) < 2 ^ F.BITS := Nat.pow_lt_pow_right (by decide) (by lia)
  have hwide : 2 ^ (F.SIG_BITS + 1) * 2 ^ 4 ≤ 2 ^ F.BITS := by
    rw [← pow_add]
    exact Nat.pow_le_pow_right Nat.two_pos (by lia)
  have hone := and_two_pow_sub_one_eq_mod ret 1
  rw [pow_one] at hone
  have hthird : ¬ (4 + 1) * B < R + ret % 2 := by lia
  have hsecond : (2 + 1) * B < R + ret % 2 ↔ 3 * B < R := by lia
  have hadd : Word.add F.BITS R (ret % 2) = some (R + ret % 2) := Word.add_eq (by lia)
  have hmul : ∀ n ≤ 5, mul_word F.BITS n B = some (n * B) := fun n hn =>
    if_pos (lt_of_le_of_lt (Nat.mul_le_mul_right B hn) (by lia))
  have hsign : ∀ m ≤ F.format.infinity, m ||| negative.toNat * 2 ^ (F.BITS - 1) =
      m + negative.toNat * 2 ^ (F.BITS - 1) := fun m hm => Word.or_eq_add (hm.trans_lt hinf) _
  unfold correct_quotient
  rw [hone, hadd, some_bind]
  simp only [hmul 3 (by decide), hmul 5 (by decide), some_bind, hsecond, hthird, and_false,
    if_false]
  have hzero : ∀ m ≤ F.format.infinity, Word.add F.BITS m 0 = some m := fun m hm =>
    Word.add_eq (by lia)
  rcases Nat.lt_or_ge (3 * B) R with hlarge | hsmall
  · have htwo' := htwo hlarge
    have hquotient : R / (2 * B) = 1 := Nat.div_eq_of_lt_le (by lia) (by lia)
    have hremainder : B < R % (2 * B) := by
      rw [mod_eq_sub, hquotient]
      lia
    have hmany : F.BITS = 128 ∨ F.BITS = 32 ∧ 0 < F.half_iterations pointer := by
      by_contra hone
      exact absurd (hplan hone) (by lia)
    rw [if_pos (by lia), Word.add_eq (by lia), some_bind, if_pos hmany, ← infinity_eq,
      if_pos ⟨by lia, hlarge⟩, Word.add_eq (by lia), some_bind, hquotient,
      (cmp_eq_gt_iff _ _).2 hremainder]
    simp [hzero _ htwo', some_bind, hsign _ htwo', rounded]
  · have hsum : ret + (if B < R + ret % 2 then 1 else 0) =
        rounded (ret + R / (2 * B)) (cmp (R % (2 * B)) B) := by
      rcases Nat.lt_or_ge R (2 * B) with hlt | hge
      · rw [div_eq_of_lt hlt, mod_eq_of_lt hlt, Nat.add_zero]
        rcases hcmp : cmp R B with _ | _ | _
        · have hR := (cmp_eq_lt_iff _ _).1 hcmp
          rw [if_neg (by lia), rounded, Nat.add_zero]
        · have hR := (cmp_eq_eq_iff _ _).1 hcmp
          rcases mod_two_eq_zero_or_one ret with heven | hodd
          · rw [if_neg (by lia), rounded, heven]
          · rw [if_pos (by lia), rounded, hodd]
        · have hR := (cmp_eq_gt_iff _ _).1 hcmp
          rw [if_pos (by lia), rounded]
      · have hquotient : R / (2 * B) = 1 := Nat.div_eq_of_lt_le (by lia) (by lia)
        have hremainder : R % (2 * B) < B := by
          rw [mod_eq_sub, hquotient]
          lia
        rw [if_pos (by lia), hquotient, (cmp_eq_lt_iff _ _).2 hremainder, rounded]
    have hle : ret + (if B < R + ret % 2 then 1 else 0) ≤ F.format.infinity := by
      split <;> lia
    rw [← hsum, Word.add_eq (by lia), some_bind]
    simp [not_lt.2 hsmall, hzero _ hle, some_bind, hsign _ hle]

/-- The residual is what the quotient has above the float that was estimated, in units of twice the
divisor. -/
theorem nearest_of_residual {X : ℚ} {n t R : ℕ} (hn : 1 ≤ n) (hsat : n < F.EXP_SAT) (hB : 0 < B)
    (hX : X / 2 ^ (n - 1) = t + R / (2 * B)) (ht : t + R / (2 * B) < 2 ^ (F.SIG_BITS + 1))
    (hlow : n = 1 ∨ 2 ^ F.SIG_BITS ≤ t) :
    F.format.Nearest X (rounded ((n - 1) * 2 ^ F.SIG_BITS + t + R / (2 * B))
      (cmp (R % (2 * B)) B)) := by
  have hBpos : (0 : ℚ) < 2 * B := by exact_mod_cast mul_pos two_pos hB
  have hsplit : (R : ℚ) = 2 * B * (R / (2 * B) : ℕ) + (R % (2 * B) : ℕ) := by
    exact_mod_cast (div_add_mod R (2 * B)).symm
  have hmod := mod_lt R (show 0 < 2 * B by lia)
  generalize R / (2 * B) = j at *
  generalize R % (2 * B) = s at *
  have hX' : X / 2 ^ (n - 1) = (t + j : ℕ) + s / (2 * B) := by
    rw [hX, hsplit, add_div, mul_div_cancel_left₀ _ hBpos.ne']
    push_cast
    ring
  have hfrac : (s / (2 * B) : ℚ) < 1 := by
    rw [div_lt_one hBpos]
    exact_mod_cast hmod
  have hfrac_nn : (0 : ℚ) ≤ s / (2 * B) := div_nonneg (cast_nonneg s) hBpos.le
  have hcmp : cmp (X / 2 ^ (n - 1)) ((t + j : ℕ) + 1 / 2) = cmp s B := by
    rw [hX', cmp_add_left, ← cmp_mul_pos_right hBpos, div_mul_cancel₀ _ hBpos.ne',
      show (1 / 2 * (2 * B) : ℚ) = B by ring]
    exact strictMono_cast.cmp_map_eq s B
  rw [add_assoc, ← hcmp]
  refine BinaryFormat.nearest_significand hn hsat ht
    (hlow.imp_right fun h => le_add_right_of_le h) ?_ ?_
  · rw [hX']
    linarith
  · rw [hX']
    linarith

theorem wide_bits (F : Float) : 64 * 2 ^ F.SIG_BITS ≤ 2 ^ F.BITS := by
  have hexp := F.exp_bits_bounds
  calc 64 * 2 ^ F.SIG_BITS = 2 ^ (6 + F.SIG_BITS) := by rw [pow_add]; rfl
    _ ≤ 2 ^ F.BITS := Nat.pow_le_pow_right Nat.two_pos (by rw [bits_eq]; lia)

/-- What is a magnitude is rounded to it, be it the infinity. -/
theorem nearest_scaled {r : ℕ} (hr : r ≤ F.format.infinity) :
    F.format.Nearest (F.format.scaled r) r := by
  rcases hr.lt_or_eq with hlt | rfl
  · exact self hlt
  · exact infinity le_rfl

section Finish

variable {q R A' : ℕ} {E' : ℤ} {X : ℚ}

/-- The quotient of the significands, by what was estimated. -/
theorem Estimated.quotient_eq (h : F.Estimated A B e E q R A' E') (hB : 0 < B) :
    (A' * 2 ^ F.SIG_BITS / B : ℚ) = q + 2 * R / (2 * B) := by
  have hresidual : (R + q * B : ℚ) = A' * 2 ^ F.SIG_BITS := by exact_mod_cast h.residual
  rw [← hresidual]
  field_simp
  ring

theorem Estimated.quotient_bounds (h : F.Estimated A B e E q R A' E') (hB : 0 < B) :
    (2 ^ F.SIG_BITS : ℚ) ≤ A' * 2 ^ F.SIG_BITS / B ∧
      (A' * 2 ^ F.SIG_BITS / B : ℚ) ≤ 2 ^ (F.SIG_BITS + 1) := by
  have hBpos : (0 : ℚ) < B := cast_pos.2 hB
  constructor
  · rw [h.quotient_eq hB]
    have hlower : (2 ^ F.SIG_BITS : ℚ) ≤ q := by exact_mod_cast h.lower
    have hnn : (0 : ℚ) ≤ 2 * R / (2 * B) := by positivity
    linarith
  · rw [div_le_iff₀ hBpos, pow_succ]
    have hle : (A' : ℚ) ≤ 2 * B := by exact_mod_cast h.dividend_le
    have hmul := mul_le_mul_of_nonneg_right hle (show (0 : ℚ) ≤ 2 ^ F.SIG_BITS by positivity)
    linarith

/-- A normal quotient. -/
theorem finish_normal (exact negative : Bool) {n : ℕ} (h : F.Estimated A B e E q R A' (n : ℤ))
    (he : e < 2 ^ (F.EXP_BITS - 1)) (hB : 0 < B) (huB : B < 2 ^ (F.SIG_BITS + 1))
    (hn : 1 ≤ n) (hsat : n < F.EXP_SAT)
    (hplan : ¬ (F.BITS = 128 ∨ F.BITS = 32 ∧ 0 < F.half_iterations pointer) → 2 * R < 3 * B)
    (hX : X = A' * 2 ^ F.SIG_BITS / B * 2 ^ (n - 1)) :
    ∃ r, F.finish_quotient exact pointer (negative.toNat * 2 ^ (F.BITS - 1)) q R A' B n =
      some (r + negative.toNat * 2 ^ (F.BITS - 1)) ∧ F.format.Nearest X r := by
  have hbits := F.bits_eq
  have hexp := F.exp_bits_bounds
  have hsat_lt := F.exp_sat_lt
  have hwide := F.wide_bits
  have hR := h.residual_lt he
  have hlower := h.lower
  have hupper := h.upper
  have hdouble : 2 ^ (F.SIG_BITS + 1) = 2 * 2 ^ F.SIG_BITS := by ring
  have hword : 2 ^ (F.BITS - 1) < 2 ^ F.BITS := Nat.pow_lt_pow_right (by decide) (by lia)
  have hinf := F.infinity_lt
  have hinf_eq : F.format.infinity = F.EXP_SAT * 2 ^ F.SIG_BITS := rfl
  have hroom : (n + 1) * 2 ^ F.SIG_BITS ≤ F.EXP_SAT * 2 ^ F.SIG_BITS := Nat.mul_le_mul_right _ hsat
  obtain ⟨m, rfl⟩ := Nat.exists_eq_add_of_le' hn
  rw [Nat.add_sub_cancel] at hX
  rw [Nat.add_mul, Nat.add_mul, Nat.one_mul] at hroom
  have hlossy : cast_lossy 32 ((m + 1 : ℕ) : ℤ) = m + 1 := by
    unfold cast_lossy
    lia
  have hexponent : shl exact F.BITS (m + 1) F.SIG_BITS = some ((m + 1) * 2 ^ F.SIG_BITS) := by
    refine shl_eq (by lia) ?_
    rw [Nat.add_mul, Nat.one_mul]
    lia
  have hresidual : shl exact F.BITS R 1 = some (2 * R) := by
    rw [shl_eq (by lia) (by lia), pow_one, Nat.mul_comm]
  have hmasked : q &&& F.SIG_MASK ||| (m + 1) * 2 ^ F.SIG_BITS = m * 2 ^ F.SIG_BITS + q := by
    obtain ⟨f, rfl⟩ := Nat.exists_eq_add_of_le hlower
    rw [and_sig_mask, BinaryFormat.fraction, format_fraction_bits, add_mod_left,
      mod_eq_of_lt (by lia), Word.or_eq_add (by lia), Nat.add_mul]
    lia
  have hD := Nat.two_pow_pos F.SIG_BITS
  have hdividend : R + q * B ≤ 2 * 2 ^ F.SIG_BITS * B := by
    rw [h.residual, Nat.mul_right_comm]
    exact Nat.mul_le_mul_right _ h.dividend_le
  -- the second of the next floats is still a float
  have htwo : 3 * B < 2 * R → m * 2 ^ F.SIG_BITS + q + 2 ≤ F.format.infinity := by
    intro hlarge
    have hlt : q + 1 < 2 * 2 ^ F.SIG_BITS := by
      refine Nat.lt_of_mul_lt_mul_right (a := B) ?_
      rw [Nat.add_mul, Nat.one_mul]
      lia
    lia
  have hcorrect := correct_quotient_eq pointer negative (m * 2 ^ F.SIG_BITS + q) (2 * R) hB huB
    (by lia) (by lia)
    (residual_ne hB huB h.residual) htwo hplan
  refine ⟨_, Eq.trans ?_ hcorrect, ?_⟩
  · unfold finish_quotient
    rw [if_neg (by lia), if_pos (by lia), hlossy]
    rw [hexponent, some_bind, hmasked, hresidual, some_bind]
  rcases h.dividend_le.lt_or_eq with hlt | heq
  · have hnearest := nearest_of_residual (X := X) (t := q) (R := 2 * R) hn hsat hB ?_ ?_
      (Or.inr hlower)
    · rwa [Nat.add_sub_cancel] at hnearest
    · rw [hX, Nat.add_sub_cancel, mul_div_cancel_right₀ _ (by positivity), h.quotient_eq hB]
      push_cast
      rfl
    · rw [Nat.mul_div_mul_left _ _ Nat.two_pos, hdouble]
      refine Nat.lt_of_mul_lt_mul_right (a := B) ?_
      have hdiv := div_mul_le_self R B
      have hmul : A' * 2 ^ F.SIG_BITS < 2 * B * 2 ^ F.SIG_BITS :=
        Nat.mul_lt_mul_of_pos_right hlt hD
      rw [Nat.mul_right_comm, ← h.residual] at hmul
      rw [Nat.add_mul]
      lia
  -- the quotient is a power of two, and the estimate just below it
  · obtain ⟨c, hc⟩ := Nat.exists_eq_add_of_lt (hdouble ▸ hupper)
    have hR_eq : R = (c + 1) * B := by
      have hresidual := h.residual
      rw [heq, Nat.mul_right_comm, hc, Nat.add_assoc, Nat.add_mul q] at hresidual
      lia
    have hc0 : c = 0 := by
      have hlt : c + 1 < 2 := Nat.lt_of_mul_lt_mul_right (hR_eq ▸ hR)
      lia
    subst hc0
    rw [Nat.zero_add, Nat.one_mul] at hR_eq
    have hvalue : X = F.format.scaled (m * 2 ^ F.SIG_BITS + 2 ^ (F.SIG_BITS + 1)) := by
      have hscaled := F.format.scaled_eq hn (t := 2 ^ (F.SIG_BITS + 1)) le_rfl
        (Or.inr (Nat.pow_le_pow_right Nat.two_pos (le_succ _)))
      rw [Nat.add_sub_cancel, format_fraction_bits] at hscaled
      rw [hscaled, hX, heq, pow_succ]
      push_cast
      field_simp
    have hindex : m * 2 ^ F.SIG_BITS + q + 1 = m * 2 ^ F.SIG_BITS + 2 ^ (F.SIG_BITS + 1) := by
      lia
    rw [hR_eq, Nat.div_self (by lia), mod_self, (cmp_eq_lt_iff _ _).2 hB, rounded, hindex,
      hvalue]
    exact nearest_scaled (by lia)

/-- A quotient that is denormal, or rounded up to the least normal one: its estimate is cut to the
bits that stay, and the residual taken against the cut one. -/
theorem finish_denormal (exact negative : Bool) {n : ℕ}
    (h : F.Estimated A B e E q R A' (1 - n : ℤ)) (he : e < 2 ^ (F.EXP_BITS - 1)) (hB : 0 < B)
    (huB : B < 2 ^ (F.SIG_BITS + 1)) (hn : 1 ≤ n) (hn' : n ≤ F.SIG_BITS + 1)
    (hX : X = A' * 2 ^ F.SIG_BITS / B / 2 ^ n) :
    ∃ r, F.finish_quotient exact pointer (negative.toNat * 2 ^ (F.BITS - 1)) q R A' B (1 - n : ℤ) =
      some (r + negative.toNat * 2 ^ (F.BITS - 1)) ∧ F.format.Nearest X r := by
  have hbits := F.bits_eq
  have hexp := F.exp_bits_bounds
  have hsig := F.sig_bits_bounds
  have hwide := F.wide_bits
  have hR := h.residual_lt he
  have hupper := h.upper
  have hresidual := h.residual
  have hdouble : 2 ^ (F.SIG_BITS + 1) = 2 * 2 ^ F.SIG_BITS := by ring
  have hsat := F.format.saturated_pos
  rw [format_saturated] at hsat
  obtain ⟨a, ha⟩ := Nat.exists_eq_add_of_le hn'
  obtain ⟨m, rfl⟩ := Nat.exists_eq_add_of_le' hn
  -- the bits that stay and those that are cut off
  have hsplit := div_add_mod' q (2 ^ (m + 1))
  have hcut := mod_lt q (Nat.two_pow_pos (m + 1))
  have hstay : q / 2 ^ (m + 1) < 2 ^ F.SIG_BITS := by
    refine Nat.div_lt_of_lt_mul (hupper.trans_le ?_)
    rw [hdouble]
    exact Nat.mul_le_mul_right _ (Nat.le_self_pow m.succ_ne_zero 2)
  have hshr : Word.shr F.BITS q (m + 1) = some (q / 2 ^ (m + 1)) := Word.shr_eq (by lia)
  generalize q / 2 ^ (m + 1) = t at *
  generalize q % 2 ^ (m + 1) = s at *
  have hdividend : A' * 2 ^ F.SIG_BITS = A' * 2 ^ a * 2 ^ m := by
    rw [Nat.mul_assoc, ← pow_add]
    congr 2
    lia
  have hm := Nat.two_pow_pos m
  have hquotient : q * B = t * B * 2 * 2 ^ m + s * B := by
    rw [← hsplit, pow_succ]
    ring
  have hle : t * B * 2 ≤ A' * 2 ^ a := by
    refine Nat.le_of_mul_le_mul_right ?_ hm
    lia
  obtain ⟨S, hS⟩ := Nat.exists_eq_add_of_le' hle
  have hS_eq : S * 2 ^ m = R + s * B := by
    rw [hdividend, hS, Nat.add_mul] at hresidual
    lia
  have hS_lt : S < 3 * B := by
    refine Nat.lt_of_mul_lt_mul_right (a := 2 ^ m) ?_
    have hmul : (s + 1) * B ≤ 2 ^ (m + 1) * B := Nat.mul_le_mul_right B hcut
    have hB_le : 1 * B ≤ 2 ^ m * B := Nat.mul_le_mul_right B hm
    calc S * 2 ^ m < 2 * B + s * B := by lia
      _ ≤ 3 * (2 ^ m * B) := by
          rw [pow_succ, Nat.mul_right_comm] at hmul
          rw [Nat.add_mul] at hmul
          lia
      _ = 3 * B * 2 ^ m := by ring
  have hS_ne : S ≠ 3 * B := hS_lt.ne
  have hfloat : t + 1 ≤ F.format.infinity := by
    have hinf_eq : F.format.infinity = F.EXP_SAT * 2 ^ F.SIG_BITS := rfl
    have hmul : 2 * 2 ^ F.SIG_BITS ≤ F.EXP_SAT * 2 ^ F.SIG_BITS := Nat.mul_le_mul_right _ hsat
    lia
  have hcorrect := correct_quotient_eq pointer negative t S hB huB hfloat (by lia) hS_ne (fun hgt
    => absurd hgt (by lia)) fun _ => hS_lt
  have hsum : add_i32 F.SIG_BITS (1 - (m + 1 : ℕ)) = some (a : ℤ) := by
    rw [add_i32_eq ⟨by lia, by lia⟩]
    congr 1
    lia
  have hnegated : wrapping_sub_i32 exact 0 (1 - (m + 1 : ℕ)) = some (m : ℤ) := by
    rw [wrapping_sub_i32_eq ⟨by lia, by lia⟩]
    congr 1
    lia
  have hamount : Word.wrapping_add 32 F.SIG_BITS (cast_lossy 32 (1 - (m + 1 : ℕ))) = a := by
    unfold Word.wrapping_add cast_lossy
    lia
  have hshl_dividend : Word.shl F.BITS A' a = some (A' * 2 ^ a % 2 ^ F.BITS) := if_pos (by lia)
  have hshl_product : Word.shl F.BITS (Word.wrapping_mul F.BITS t B) 1 =
      some (t * B * 2 % 2 ^ F.BITS) := by
    rw [Word.shl, if_pos (by lia), Word.wrapping_mul, mod_mul_mod, pow_one]
  have hwrapped : Word.wrapping_sub F.BITS (A' * 2 ^ a % 2 ^ F.BITS) (t * B * 2 % 2 ^ F.BITS) =
      S := by
    rw [Word.wrapping_sub_mod hle (by lia)]
    lia
  have hkeep : (S : ℤ) = A' * 2 ^ a - t * B * 2 := by
    rw [eq_sub_iff_add_eq]
    exact_mod_cast hS.symm
  refine ⟨_, Eq.trans ?_ hcorrect, ?_⟩
  · unfold finish_quotient
    rw [if_neg (by lia), if_neg (by lia), hsum, some_bind,
      if_neg (by lia), hnegated, some_bind, cast_eq (by lia), some_bind, Word.add_eq (by lia),
      some_bind, mod_eq_of_lt (show m + 1 < F.BITS by lia), keep_eq (by lia), some_bind, hshr,
      some_bind, hamount]
    dsimp only
    rw [mod_eq_of_lt (show a < F.BITS by lia), keep_eq (by lia), some_bind,
      hshl_dividend, some_bind, hshl_product, some_bind, hwrapped, keep_eq hkeep,
      some_bind]
  · have hnearest := nearest_of_residual (X := X) (n := 1) (t := t) (R := S) le_rfl hsat hB ?_ ?_
      (Or.inl rfl)
    · rwa [Nat.sub_self, Nat.zero_mul, Nat.zero_add] at hnearest
    · have hBpos : (0 : ℚ) < B := cast_pos.2 hB
      have hdividendq : (A' * 2 ^ F.SIG_BITS : ℚ) = (S + t * B * 2) * 2 ^ m := by
        exact_mod_cast hS ▸ hdividend
      rw [hX, Nat.sub_self, pow_zero, div_one, hdividendq, pow_succ]
      field_simp
      ring
    · have hdiv : S / (2 * B) < 2 := Nat.div_lt_of_lt_mul (by lia)
      lia

/-- What is rounded to zero: at most half of the least number. -/
theorem nearest_zero (hX : X ≤ 1 / 2) : F.format.Nearest X 0 := by
  have hone : F.format.scaled 1 = 1 := by
    have hscaled := F.format.scaled_eq (E := 1) (t := 1) le_rfl Nat.one_le_two_pow (Or.inl rfl)
    rwa [Nat.sub_self, Nat.zero_mul, Nat.zero_add, pow_zero, Nat.mul_one] at hscaled
  refine of_neighbours (zero_le _) (fun q hq => absurd hq (by lia))
    fun _ => ⟨?_, fun hodd => absurd hodd (by decide)⟩
  rw [BinaryFormat.scaled_zero, Nat.zero_add, hone]
  norm_num
  linarith

/-- **What comes after the estimate** gives the float nearest to the quotient. -/
theorem finish_quotient_spec (pointer : PointerSize) (exact negative : Bool)
    (h : F.Estimated A B e E q R A' E')
    (he : e < 2 ^ (F.EXP_BITS - 1)) (hB : 0 < B) (huB : B < 2 ^ (F.SIG_BITS + 1))
    (hE : -2 ^ 30 ≤ E')
    (hplan : ¬ (F.BITS = 128 ∨ F.BITS = 32 ∧ 0 < F.half_iterations pointer) → 2 * R < 3 * B)
    (hX : X = A * 2 ^ F.SIG_BITS / B * 2 ^ (E - 1)) :
    ∃ r, F.finish_quotient exact pointer (negative.toNat * 2 ^ (F.BITS - 1)) q R A' B E' =
      some (r + negative.toNat * 2 ^ (F.BITS - 1)) ∧ F.format.Nearest X r := by
  have hsat := F.exp_sat_eq
  obtain ⟨hlow, hup⟩ := h.quotient_bounds hB
  have hX' : X = A' * 2 ^ F.SIG_BITS / B * 2 ^ (E' - 1) := by
    have hvalue := h.value
    rw [hX, zpow_sub₀ two_ne_zero, zpow_sub₀ two_ne_zero E', div_mul_eq_mul_div, div_mul_eq_mul_div]
    congr 1
    linear_combination (-(2 ^ F.SIG_BITS / 2 ^ (1 : ℤ) : ℚ)) * hvalue
  rcases lt_or_ge E' (F.EXP_SAT : ℤ) with hlt | hge
  · rcases lt_or_ge 0 E' with hpos | hneg
    · obtain ⟨n, rfl⟩ := Int.eq_ofNat_of_zero_le hpos.le
      have hn : 1 ≤ n := by lia
      refine finish_normal exact negative h he hB huB hn (by lia) hplan ?_
      rw [hX', ← zpow_natCast _ (n - 1), cast_sub hn, cast_one]
    obtain ⟨n, hn⟩ := Int.eq_ofNat_of_zero_le (show 0 ≤ 1 - E' by lia)
    obtain rfl : E' = 1 - n := by lia
    have hX'' : X = A' * 2 ^ F.SIG_BITS / B / 2 ^ n := by
      rw [hX', show (1 - n - 1 : ℤ) = -(n : ℤ) by ring, zpow_neg, zpow_natCast,
        div_eq_mul_inv _ (2 ^ n)]
    rcases lt_or_ge (F.SIG_BITS + 1) n with hzero | hle
    · refine ⟨0, ?_, nearest_zero ?_⟩
      · have hsum : add_i32 F.SIG_BITS (1 - n) = some ((F.SIG_BITS : ℤ) + (1 - n)) :=
          add_i32_eq ⟨by lia, by lia⟩
        unfold finish_quotient
        rw [if_neg (by lia), if_neg (by lia), hsum, some_bind,
          if_pos (by lia), zero_add, pure_def]
      · rw [hX'', div_le_div_iff₀ (by positivity) two_pos]
        have hle : (2 ^ (F.SIG_BITS + 2) : ℚ) ≤ 2 ^ n := pow_le_pow_right₀ one_le_two hzero
        rw [pow_succ] at hle
        linarith
    · exact finish_denormal exact negative h he hB huB (by lia) hle hX''
  · refine ⟨F.format.infinity, ?_, infinity ?_⟩
    · unfold finish_quotient
      rw [if_pos hge, ← infinity_eq, Word.or_eq_add infinity_lt, pure_def]
    have hscaled := F.format.scaled_infinity
    rw [format_fraction_bits, format_bias] at hscaled
    have hexponent : (2 ^ (2 * F.EXP_BIAS) : ℚ) ≤ 2 ^ (E' - 1) := by
      rw [← zpow_natCast]
      exact zpow_le_zpow_right₀ one_le_two (by lia)
    rw [hscaled, hX']
    push_cast
    exact mul_le_mul hlow hexponent (by positivity) ((by positivity : (0 : ℚ) ≤ _).trans hlow)

end Finish

end Float

end RustStd.SoftFloat
