import Mathlib.Tactic.Ring
import RustStd.Foundations.WordBytes

/-!
# Sums over the lanes of a word

A word cut into lanes is a number to the base `B`, with a digit for each lane. Adding two words goes
lane for lane as long as no lane reaches `B` (`LanesLe.add`). Multiplying a word by the one whose
lanes are all 1 puts the sum of the lanes up to each lane into it, so that the top lane holds the
sum of them all (`top_lane_mul_fill`).
-/

namespace RustStd

open Nat

variable {B j k n x y acc : ℕ}

/-- The word of `n` lanes that all are `d`. -/
def fill (B d : ℕ) : ℕ → ℕ
  | 0 => 0
  | n + 1 => d + B * fill B d n

/-- The sum of the lowest `n` lanes. -/
def laneSum (B : ℕ) : ℕ → ℕ → ℕ
  | 0, _ => 0
  | n + 1, x => x % B + laneSum B n (x / B)

/-- A word of `n` lanes, none of them over `k`. -/
def LanesLe (B k : ℕ) : ℕ → ℕ → Prop
  | 0, x => x = 0
  | n + 1, x => x % B ≤ k ∧ LanesLe B k n (x / B)

theorem fill_lt {d : ℕ} (h : d < B) (n : ℕ) : fill B d n < B ^ n := by
  induction n with
  | zero => exact one_pos
  | succ n ih =>
    calc d + B * fill B d n < B + B * fill B d n := Nat.add_lt_add_right h _
      _ = B * (fill B d n + 1) := by ring
      _ ≤ B * B ^ n := mul_le_mul_left B ih
      _ = B ^ (n + 1) := (pow_succ' B n).symm

/-- The top lane of a word of ones. -/
theorem fill_one_succ (B n : ℕ) : fill B 1 (n + 1) = fill B 1 n + B ^ n := by
  induction n with
  | zero => rfl
  | succ n ih =>
    calc fill B 1 (n + 1 + 1) = 1 + B * (fill B 1 n + B ^ n) := congrArg (1 + B * ·) ih
      _ = 1 + B * fill B 1 n + B ^ (n + 1) := by ring

/-! ## Adding lane for lane -/

namespace LanesLe

theorem zero (B k n : ℕ) : LanesLe B k n 0 := by
  induction n with
  | zero => rfl
  | succ n ih =>
    refine ⟨?_, ?_⟩
    · rw [zero_mod]
      exact zero_le k
    · rwa [Nat.zero_div]

theorem lt (h : LanesLe B k n x) (hk : k < B) : x < B ^ n := by
  induction n generalizing x with
  | zero =>
    rw [h]
    exact one_pos
  | succ n ih =>
    rw [pow_succ]
    exact lt_mul_of_div_lt (ih h.2) (zero_lt_of_lt hk)

theorem laneSum_le (h : LanesLe B k n x) : laneSum B n x ≤ n * k := by
  induction n generalizing x with
  | zero => exact zero_le _
  | succ n ih =>
    rw [laneSum, succ_mul, add_comm]
    exact Nat.add_le_add (ih h.2) h.1

theorem mod_add (hx : x % B ≤ j) (hy : y % B ≤ k) (h : j + k < B) :
    (x + y) % B = x % B + y % B ∧ (x + y) / B = x / B + y / B := by
  have hlt : x % B + y % B < B := by omega
  exact ⟨by rw [add_mod, mod_eq_of_lt hlt], add_div_eq_of_add_mod_lt hlt⟩

/-- No lane carries into the next one. -/
theorem add (hx : LanesLe B j n x) (hy : LanesLe B k n y) (h : j + k < B) :
    LanesLe B (j + k) n (x + y) ∧ laneSum B n (x + y) = laneSum B n x + laneSum B n y := by
  induction n generalizing x y with
  | zero =>
    rw [hx, hy]
    exact ⟨rfl, rfl⟩
  | succ n ih =>
    obtain ⟨hmod, hdiv⟩ := mod_add hx.1 hy.1 h
    obtain ⟨hle, hsum⟩ := ih hx.2 hy.2
    rw [laneSum, laneSum, laneSum, LanesLe, hmod, hdiv, hsum]
    exact ⟨⟨Nat.add_le_add hx.1 hy.1, hle⟩, by ring⟩

end LanesLe

/-! ## Collecting the sum in the top lane -/

/-- The word whose lanes are the sums of the lanes of `x` up to each of them, and `acc`. -/
def laneSums (B : ℕ) : ℕ → ℕ → ℕ → ℕ
  | 0, _, _ => 0
  | n + 1, acc, x => acc + x % B + B * laneSums B n (acc + x % B) (x / B)

theorem mul_fill_modEq (B n acc x : ℕ) :
    (acc + x) * fill B 1 n ≡ laneSums B n acc x [MOD B ^ n] := by
  induction n generalizing acc x with
  | zero => exact modEq_one
  | succ n ih =>
    have hx := mod_add_div x B
    generalize hd : x % B = d at hx ih
    generalize hq : x / B = q at hx ih
    have hstep : (acc + x) * fill B 1 (n + 1) =
        acc + d + B * ((acc + d + q) * fill B 1 n + q * B ^ n) := by
      have hone := fill_one_succ B n
      rw [fill] at hone
      calc (acc + x) * fill B 1 (n + 1)
          = acc + d + B * ((acc + d) * fill B 1 n + q * (1 + B * fill B 1 n)) := by
            rw [← hx, fill]
            ring
        _ = acc + d + B * ((acc + d + q) * fill B 1 n + q * B ^ n) := by
            rw [hone]
            ring
    rw [hstep, laneSums, hd, hq, pow_succ']
    refine Nat.ModEq.add_left _ (Nat.ModEq.mul_left' B ?_)
    exact (Nat.ModEq.add_right _ (ih (acc + d) q)).trans (by simp [Nat.ModEq])

theorem laneSums_lt (h : acc + laneSum B n x < B) : laneSums B n acc x < B ^ n := by
  induction n generalizing acc x with
  | zero => exact one_pos
  | succ n ih =>
    rw [laneSum, ← add_assoc] at h
    have hlt : acc + x % B < B := by omega
    calc acc + x % B + B * laneSums B n (acc + x % B) (x / B)
        < B + B * laneSums B n (acc + x % B) (x / B) := Nat.add_lt_add_right hlt _
      _ = B * (laneSums B n (acc + x % B) (x / B) + 1) := by ring
      _ ≤ B * B ^ n := mul_le_mul_left B (ih h)
      _ = B ^ (n + 1) := (pow_succ' B n).symm

theorem laneSums_div (h : acc + laneSum B (n + 1) x < B) :
    laneSums B (n + 1) acc x / B ^ n = acc + laneSum B (n + 1) x := by
  induction n generalizing acc x with
  | zero => rw [laneSums, laneSums, laneSum, laneSum, pow_zero, Nat.div_one, Nat.mul_zero,
      add_zero, add_zero]
  | succ n ih =>
    rw [laneSum, ← add_assoc] at h ⊢
    have hlt : acc + x % B < B := by omega
    rw [laneSums, pow_succ', ← Nat.div_div_eq_div_mul, add_mul_div_left _ _ (by omega),
      div_eq_of_lt hlt, zero_add]
    exact ih h

/-- **The top lane of the product with a word of ones** is the sum of all lanes. -/
theorem top_lane_mul_fill (h : laneSum B (n + 1) x < B) :
    x * fill B 1 (n + 1) % B ^ (n + 1) / B ^ n = laneSum B (n + 1) x := by
  have hmod := mul_fill_modEq B (n + 1) 0 x
  rw [zero_add] at hmod
  rw [← zero_add (laneSum B (n + 1) x)] at h ⊢
  rw [hmod, mod_eq_of_lt (laneSums_lt h), laneSums_div h]

end RustStd
