import RustStd.Foundations.WordOps
import Mathlib.Tactic.Linarith
import Mathlib.Tactic.Ring

/-!
# Integer square roots

`core/src/num/int_sqrt.rs`: a table for bytes, and for the wider types the stages of the Karatsuba
square root, each of which doubles the number of leading bits whose root is known. What overflows, a
division by zero and an index out of range are `none`.

`isqrt_spec`: for every type the result is the root rounded down.
-/

namespace RustStd.IntSqrt

open Word Nat

/-! ## The code -/

/-- `a * b` -/
def mul (w a b : ℕ) : Option ℕ := if a * b < 2 ^ w then some (a * b) else none

/-- A false assertion is a fault. -/
def assert_unchecked (cond : Prop) [Decidable cond] : Option Unit :=
  if cond then some () else none

/-- `k` entries of the table from `n` on. -/
def entries : ℕ → ℕ → ℕ → List (ℕ × ℕ)
  | 0, _, _ => []
  | k + 1, n, isqrt_n =>
    (truncate 8 isqrt_n, truncate 8 (n - isqrt_n ^ 2)) ::
      entries k (n + 1) (if n + 1 = (isqrt_n + 1) ^ 2 then isqrt_n + 1 else isqrt_n)

def U8_ISQRT_WITH_REMAINDER : List (ℕ × ℕ) := entries 256 0 0

def u8 (n : ℕ) : Option ℕ := do
  let (s, _) ← U8_ISQRT_WITH_REMAINDER[n]?
  some s

/-- Quotient and remainder. -/
def div_rem (numerator denominator : ℕ) : Option (ℕ × ℕ) :=
  if denominator = 0 then none else some (numerator / denominator, numerator % denominator)

def first_stage (original_bits n : ℕ) : Option (ℕ × ℕ) := do
  assert_unchecked (n ≠ 0)
  let n ← shr original_bits n (original_bits - 8)
  let (s, r) ← U8_ISQRT_WITH_REMAINDER[n]?
  assert_unchecked (s ≠ 0)
  some (s, r)

/-- The stage for a type of `bits` bits, where `s` has half as many. -/
def middle_stage (original_bits bits n s r : ℕ) : Option (ℕ × ℕ) := do
  assert_unchecked (s ≠ 0)
  let n := truncate bits (← shr original_bits n (original_bits - bits))
  let half_bits := bits / 2
  let quarter_bits := bits / 4
  let lo := n &&& (← checkedSub (← shl bits 1 half_bits) 1)
  let numerator := (← shl bits r quarter_bits) ||| (← shr bits lo quarter_bits)
  let (q, u) ← div_rem numerator (← shl bits s 1)
  let s ← add bits (← shl (bits / 2) s quarter_bits) q
  let low := lo &&& (← checkedSub (← shl bits 1 quarter_bits) 1)
  let left := (← shl bits u quarter_bits) ||| low
  let square ← mul bits q q
  if left < square then
    let r := wrapping_add bits (wrapping_sub bits left square) (← checkedSub (← mul bits 2 s) 1)
    let s ← checkedSub s 1
    assert_unchecked (s ≠ 0)
    some (s, r)
  else
    assert_unchecked (s ≠ 0)
    some (s, wrapping_sub bits left square)

def last_stage (bits n s r : ℕ) : Option ℕ := do
  assert_unchecked (s ≠ 0)
  let half_bits := bits / 2
  let quarter_bits := bits / 4
  let lo := n &&& (← checkedSub (← shl bits 1 half_bits) 1)
  let numerator := (← shl bits r quarter_bits) ||| (← shr bits lo quarter_bits)
  let (q, _) ← div_rem numerator (← shl bits s 1)
  let s ← add bits (← shl (bits / 2) s quarter_bits) q
  if 2 ^ bits ≤ s * s ∨ n < wrapping_mul bits s s then checkedSub s 1 else some s

def u16_stages (n : ℕ) : Option ℕ := do
  let (s, r) ← first_stage 16 n
  last_stage 16 n s r

def u32_stages (n : ℕ) : Option ℕ := do
  let (s, r) ← first_stage 32 n
  let (s, r) ← middle_stage 32 16 n s r
  last_stage 32 n s r

def u64_stages (n : ℕ) : Option ℕ := do
  let (s, r) ← first_stage 64 n
  let (s, r) ← middle_stage 64 16 n s r
  let (s, r) ← middle_stage 64 32 n s r
  last_stage 64 n s r

def u128_stages (n : ℕ) : Option ℕ := do
  let (s, r) ← first_stage 128 n
  let (s, r) ← middle_stage 128 16 n s r
  let (s, r) ← middle_stage 128 32 n s r
  let (s, r) ← middle_stage 128 64 n s r
  last_stage 128 n s r

def EVEN_MAKING_BITMASK : ℕ := 2 ^ 32 - 2

/-- The function of a type of `bits` bits, from that of the half width and the stages. -/
def unsigned_fn (bits : ℕ) (half stages : ℕ → Option ℕ) (n : ℕ) : Option ℕ :=
  if n ≤ 2 ^ (bits / 2) - 1 then half (truncate (bits / 2) n)
  else do
    let normalization_shift := leading_zeros bits n &&& EVEN_MAKING_BITMASK
    let s ← stages (← shl bits n normalization_shift)
    shr bits s (normalization_shift / 2)

def u16 : ℕ → Option ℕ := unsigned_fn 16 u8 u16_stages

def u32 : ℕ → Option ℕ := unsigned_fn 32 u16 u32_stages

def u64 : ℕ → Option ℕ := unsigned_fn 64 u32 u64_stages

def u128 : ℕ → Option ℕ := unsigned_fn 128 u64 u128_stages

/-- The unsigned types. -/
inductive Unsigned
  | u8 | u16 | u32 | u64 | u128
  deriving DecidableEq, Repr

namespace Unsigned

def bits : Unsigned → ℕ
  | u8 => 8
  | u16 => 16
  | u32 => 32
  | u64 => 64
  | u128 => 128

def int_sqrt : Unsigned → ℕ → Option ℕ
  | u8 => IntSqrt.u8
  | u16 => IntSqrt.u16
  | u32 => IntSqrt.u32
  | u64 => IntSqrt.u64
  | u128 => IntSqrt.u128

variable (T : Unsigned) (self : ℕ)

def isqrt : Option ℕ := do
  let result ← T.int_sqrt self
  assert_unchecked (result ≤ (← T.int_sqrt (2 ^ T.bits - 1)))
  some result

/-- `checked_isqrt` of the signed type of that width. -/
def checked_isqrt : Option (Option ℕ) :=
  if is_negative T.bits self then some none
  else do
    let result ← T.int_sqrt self
    assert_unchecked (¬ is_negative T.bits result)
    assert_unchecked (result ≤ (← T.int_sqrt (2 ^ (T.bits - 1) - 1)))
    some (some result)

end Unsigned

/-! ## Roots with remainders -/

/-- `s` is the root of `n` rounded down, and `r` the remainder. -/
def IsRoot (n s r : ℕ) : Prop := n = s * s + r ∧ r ≤ 2 * s

variable {n s r s' r' : ℕ}

theorem IsRoot.le (h : IsRoot n s r) : s * s ≤ n := h.1 ▸ le_add_right _ _

theorem IsRoot.lt (h : IsRoot n s r) : n < (s + 1) * (s + 1) := by
  have := h.2
  rw [h.1, add_one_mul, mul_add_one]
  lia

/-- A root of `2 * k` bits has `k` bits. -/
theorem IsRoot.lt_two_pow (h : IsRoot n s r) {k : ℕ} (hn : n < 2 ^ (2 * k)) : s < 2 ^ k := by
  refine mul_self_lt_mul_self_iff.1 (h.le.trans_lt ?_)
  rwa [← pow_add, ← two_mul]

theorem IsRoot.two_pow_le (h : IsRoot n s r) {k : ℕ} (hn : 2 ^ (2 * k) ≤ n) : 2 ^ k ≤ s := by
  refine Nat.lt_succ_iff.1 (Nat.mul_self_lt_mul_self_iff.1 (lt_of_le_of_lt ?_ h.lt))
  rwa [← pow_add, ← two_mul]

/-- Shifting by an even amount shifts the root by half of it. -/
theorem IsRoot.of_shifted {m : ℕ} (h : IsRoot (n * 2 ^ (2 * m)) s r) :
    s / 2 ^ m * (s / 2 ^ m) ≤ n ∧ n < (s / 2 ^ m + 1) * (s / 2 ^ m + 1) := by
  have hpos := Nat.two_pow_pos m
  have hpow : n * 2 ^ (2 * m) = n * (2 ^ m * 2 ^ m) := by rw [← pow_add, ← two_mul]
  have hle := h.le
  have hlt := h.lt
  rw [hpow] at hle hlt
  constructor
  · apply Nat.le_of_mul_le_mul_right _ (Nat.mul_pos hpos hpos)
    rw [Nat.mul_mul_mul_comm]
    exact (Nat.mul_self_le_mul_self (Nat.div_mul_le_self _ _)).trans hle
  · apply Nat.lt_of_mul_lt_mul_right (a := 2 ^ m * 2 ^ m)
    rw [Nat.mul_mul_mul_comm]
    exact hlt.trans_le (Nat.mul_self_le_mul_self (Nat.lt_mul_of_div_lt (Nat.lt_succ_self _) hpos))

/-- **A step of the Karatsuba square root**: from the root of the leading half the division gives
the root, or one more than it. -/
theorem karatsuba {b hi lo1 lo0 : ℕ} (h : IsRoot hi s r) (hb : b ≤ 2 * s)
    (h₁ : lo1 < b) (h0 : lo0 < b) {q u : ℕ} (hq : r * b + lo1 = 2 * s * q + u) (hu : u < 2 * s) :
    q ≤ b ∧ (hi * b + lo1) * b + lo0 + q * q = (s * b + q) * (s * b + q) + (u * b + lo0) ∧
      u * b + lo0 ≤ q * q + 2 * (s * b + q) ∧ q * q + 1 ≤ u * b + lo0 + 2 * (s * b + q) := by
  obtain ⟨rfl, hr⟩ := h
  have hqb : q ≤ b := by
    by_contra hlt
    have h1 : 2 * s * (b + 1) ≤ 2 * s * q := mul_le_mul_left _ (by lia)
    have h2 : r * b ≤ 2 * s * b := mul_le_mul_right b hr
    rw [mul_succ] at h1
    lia
  have hub : u * b + b ≤ 2 * (s * b) := by
    rw [← succ_mul, ← mul_assoc]
    exact mul_le_mul_right b hu
  have hqq : q * q ≤ b * b := Nat.mul_le_mul hqb hqb
  have hbb : b * b ≤ 2 * (s * b) := by
    rw [← mul_assoc]
    exact mul_le_mul_right b hb
  have hlow : q * q + 1 ≤ u * b + lo0 + 2 * (s * b + q) := by
    rcases q.eq_zero_or_pos with rfl | hpos
    · rw [zero_mul] at *
      lia
    · lia
  refine ⟨hqb, ?_, by lia, hlow⟩
  have hmul : (r * b + lo1) * b = (2 * s * q + u) * b := by rw [hq]
  linarith [hmul, show ((s * s + r) * b + lo1) * b = s * s * b * b + (r * b + lo1) * b by ring,
    show (2 * s * q + u) * b = 2 * (s * b) * q + u * b by ring,
    show (s * b + q) * (s * b + q) = s * s * b * b + 2 * (s * b) * q + q * q by ring]

/-- The two outcomes of a step. -/
theorem isRoot_of_lt {S q left : ℕ} (h : n + q * q = S * S + left) (hS : 0 < S)
    (hlow : q * q + 1 ≤ left + 2 * S) (hlt : left < q * q) :
    IsRoot n (S - 1) (left + 2 * S - 1 - q * q) := by
  obtain ⟨S, rfl⟩ := Nat.exists_eq_add_of_lt hS
  rw [IsRoot, Nat.zero_add, Nat.add_sub_cancel]
  rw [Nat.zero_add, add_one_mul, mul_add_one] at h
  lia

theorem isRoot_of_le {S q left : ℕ} (h : n + q * q = S * S + left)
    (hup : left ≤ q * q + 2 * S) (hle : q * q ≤ left) : IsRoot n S (left - q * q) := by
  rw [IsRoot]
  lia

/-! ## The stages -/

/-- The root of the leading half of the `4 * k` leading bits of a word that has one of its two
highest bits set. -/
structure Leading (original_bits k n s r : ℕ) : Prop where
  pos : 0 < k
  le : 4 * k ≤ original_bits
  lt : n < 2 ^ original_bits
  normal : 2 ^ original_bits ≤ 4 * n
  root : IsRoot (n / 2 ^ (original_bits - 2 * k)) s r

namespace Leading

variable {original_bits k : ℕ}

variable (h : Leading original_bits k n s r)
include h

theorem next (hle : 8 * k ≤ original_bits)
    (hroot : IsRoot (n / 2 ^ (original_bits - 4 * k)) s' r') :
    Leading original_bits (2 * k) n s' r' :=
  ⟨mul_pos two_pos h.pos, by lia, h.lt, h.normal, by
    rwa [show original_bits - 2 * (2 * k) = original_bits - 4 * k by lia]⟩

theorem lt_two_pow {i : ℕ} (hi : i ≤ original_bits) : n / 2 ^ (original_bits - i) < 2 ^ i := by
  rw [Nat.div_lt_iff_lt_mul (Nat.two_pow_pos _), ← pow_add, Nat.add_sub_cancel' hi]
  exact h.lt

theorem root_lt : s < 2 ^ k :=
  h.root.lt_two_pow (h.lt_two_pow (by have := h.le; lia))

theorem le_root : 2 ^ k ≤ 2 * s := by
  have hk := h.pos
  have hle := h.le
  obtain ⟨k, rfl⟩ := Nat.exists_eq_add_of_lt hk
  rw [Nat.zero_add] at *
  rw [pow_succ, Nat.mul_comm]
  apply Nat.mul_le_mul_left 2 (h.root.two_pow_le _)
  rw [Nat.le_div_iff_mul_le (Nat.two_pow_pos _), ← pow_add]
  have hnormal := h.normal
  rw [show original_bits = 2 * k + (original_bits - 2 * (k + 1)) + 2 by lia, pow_add] at hnormal
  lia

/-- The root's quotient: what a stage computes from the leading `4 * k` bits. -/
theorem quotient {m : ℕ} (hm : m = n / 2 ^ (original_bits - 4 * k)) {q u : ℕ}
    (hq : q = (r * 2 ^ k + m % 2 ^ (2 * k) / 2 ^ k) / (2 * s))
    (hu : u = (r * 2 ^ k + m % 2 ^ (2 * k) / 2 ^ k) % (2 * s)) :
    q ≤ 2 ^ k ∧ m + q * q =
        (s * 2 ^ k + q) * (s * 2 ^ k + q) + (u * 2 ^ k + m % 2 ^ (2 * k) % 2 ^ k) ∧
      u * 2 ^ k + m % 2 ^ (2 * k) % 2 ^ k ≤ q * q + 2 * (s * 2 ^ k + q) ∧
      q * q + 1 ≤ u * 2 ^ k + m % 2 ^ (2 * k) % 2 ^ k + 2 * (s * 2 ^ k + q) := by
  have hpos := Nat.two_pow_pos k
  have hle := h.le
  have hs : 0 < s := by
    have := h.le_root
    lia
  have hhalf : 2 ^ (2 * k) = 2 ^ k * 2 ^ k := by rw [two_mul, pow_add]
  have hlo : m % 2 ^ (2 * k) < 2 ^ k * 2 ^ k := hhalf ▸ Nat.mod_lt _ (Nat.two_pow_pos _)
  have hhi : m / 2 ^ (2 * k) = n / 2 ^ (original_bits - 2 * k) := by
    rw [hm, Nat.div_div_eq_div_mul, ← pow_add]
    congr 2
    lia
  have hsplit : (m / 2 ^ (2 * k) * 2 ^ k + m % 2 ^ (2 * k) / 2 ^ k) * 2 ^ k +
      m % 2 ^ (2 * k) % 2 ^ k = m := by
    rw [Nat.add_mul, Nat.mul_assoc, ← hhalf, Nat.add_assoc, Nat.div_add_mod', Nat.div_add_mod']
  have hdiv := Nat.div_add_mod (r * 2 ^ k + m % 2 ^ (2 * k) / 2 ^ k) (2 * s)
  rw [← hq, ← hu] at hdiv
  have hlt : u < 2 * s := hu ▸ Nat.mod_lt _ (by lia)
  have hstep := karatsuba h.root h.le_root (Nat.div_lt_of_lt_mul hlo)
    (Nat.mod_lt (m % 2 ^ (2 * k)) hpos) hdiv.symm hlt
  rwa [← hhi, hsplit] at hstep

/-- Nothing a stage computes leaves the word. -/
theorem bounds {q : ℕ} (hq : q ≤ 2 ^ k) :
    4 * 2 ^ (2 * k) ≤ 2 ^ (4 * k) ∧ s * 2 ^ k < 2 ^ (2 * k) ∧ s * 2 ^ k + q ≤ 2 ^ (2 * k) ∧
      q * q ≤ 2 ^ (2 * k) ∧ ∀ u ≤ 2 * s, u * 2 ^ k < 2 * 2 ^ (2 * k) := by
  have hpos := Nat.two_pow_pos k
  have hs : (s + 1) * 2 ^ k ≤ 2 ^ k * 2 ^ k := Nat.mul_le_mul_right _ h.root_lt
  rw [Nat.add_one_mul] at hs
  have hfour : 2 ^ 2 ≤ 2 ^ (2 * k) := Nat.pow_le_pow_right two_pos (by have := h.pos; lia)
  rw [show 4 * k = 2 * k + 2 * k by lia, pow_add]
  refine ⟨Nat.mul_le_mul_right _ hfour, ?_⟩
  rw [two_mul k, pow_add]
  refine ⟨by lia, by lia, Nat.mul_le_mul hq hq, fun u hu => ?_⟩
  have := Nat.mul_le_mul_right (2 ^ k) hu
  rw [Nat.mul_assoc] at this
  lia

end Leading

section Stages

variable {original_bits k : ℕ}

theorem assert_unchecked_eq {cond : Prop} [Decidable cond] (h : cond) :
    assert_unchecked cond = some () := if_pos h

theorem mul_eq {w a b : ℕ} (h : a * b < 2 ^ w) : mul w a b = some (a * b) := if_pos h

theorem shl_one_eq {w i : ℕ} (hi : i < w) : shl w 1 i = some (2 ^ i) := by
  have := shl_eq (a := 1) hi (by rw [one_mul]; exact Nat.pow_lt_pow_right one_lt_two hi)
  rwa [one_mul] at this

theorem four_mul_half (k : ℕ) : 4 * k / 2 = 2 * k := by lia

theorem four_mul_quarter (k : ℕ) : 4 * k / 4 = k := by lia

theorem checked_pred_two_pow (i : ℕ) : checkedSub (2 ^ i) 1 = some (2 ^ i - 1) :=
  checkedSub_eq Nat.one_le_two_pow

/-- What the two kinds of stage begin with. -/
theorem Leading.parts (h : Leading original_bits k n s r) {m q u : ℕ} (hq : q ≤ 2 ^ k)
    (hu : u ≤ 2 * s) :
    shl (4 * k) 1 (2 * k) = some (2 ^ (2 * k)) ∧ shl (4 * k) 1 k = some (2 ^ k) ∧
      shl (4 * k) r k = some (r * 2 ^ k) ∧ shl (4 * k) u k = some (u * 2 ^ k) ∧
      shr (4 * k) m k = some (m / 2 ^ k) ∧ shl (4 * k) s 1 = some (2 * s) ∧
      shl (2 * k) s k = some (s * 2 ^ k) ∧ add (4 * k) (s * 2 ^ k) q = some (s * 2 ^ k + q) := by
  obtain ⟨hfour, hs, hS, hqq, hall⟩ := h.bounds hq
  have hk := h.pos
  have hsmall : s < 2 ^ (4 * k - 1) := h.root_lt.trans_le (Nat.pow_le_pow_right two_pos (by lia))
  have hdouble : 2 ^ (4 * k) = 2 ^ (4 * k - 1) * 2 := by
    rw [← pow_succ, Nat.sub_add_cancel (by lia)]
  have hr := hall r h.root.2
  have hu := hall u hu
  refine ⟨shl_one_eq (by lia), shl_one_eq (by lia), shl_eq (by lia) (by lia),
    shl_eq (by lia) (by lia), shr_eq (by lia), ?_, shl_eq (by lia) hs,
    add_eq (by lia)⟩
  rw [shl_eq (by lia) (by lia), pow_one, Nat.mul_comm]

/-- A stage doubles the number of leading bits whose root is known. -/
theorem middle_stage_spec (h : Leading original_bits k n s r) :
    ∃ s' r', middle_stage original_bits (4 * k) n s r = some (s', r') ∧
      IsRoot (n / 2 ^ (original_bits - 4 * k)) s' r' := by
  have hk := h.pos
  have hle := h.le
  have hs : 0 < 2 * s := (Nat.two_pow_pos k).trans_le h.le_root
  have hmlt := h.lt_two_pow hle
  rw [middle_stage, assert_unchecked_eq (by lia), shr_eq (by lia)]
  obtain ⟨m, hm⟩ : ∃ m, m = n / 2 ^ (original_bits - 4 * k) := ⟨_, rfl⟩
  obtain ⟨hq, hsquare, hup, hlow⟩ := h.quotient hm rfl rfl
  have hu := Nat.mod_lt (r * 2 ^ k + m % 2 ^ (2 * k) / 2 ^ k) hs
  have hlo : m % 2 ^ (2 * k) / 2 ^ k < 2 ^ k := by
    rw [Nat.div_lt_iff_lt_mul (Nat.two_pow_pos k), ← pow_add, ← two_mul]
    exact Nat.mod_lt _ (Nat.two_pow_pos _)
  have hlast := Nat.mod_lt (m % 2 ^ (2 * k)) (Nat.two_pow_pos k)
  obtain ⟨h1, h2, h3, h4, h5, h6, h7, h8⟩ := h.parts (m := m % 2 ^ (2 * k)) hq hu.le
  rw [← hm] at hmlt ⊢
  simp only [some_bind, truncate_eq hmlt, four_mul_half, four_mul_quarter, h1, h2,
    checked_pred_two_pow, Nat.and_two_pow_sub_one_eq_mod, h3, h5, or_eq_add' hlo, h6, div_rem,
    if_neg hs.ne', h7, h4, or_eq_add' hlast]
  generalize (r * 2 ^ k + m % 2 ^ (2 * k) / 2 ^ k) / (2 * s) = q at *
  generalize (r * 2 ^ k + m % 2 ^ (2 * k) / 2 ^ k) % (2 * s) * 2 ^ k +
    m % 2 ^ (2 * k) % 2 ^ k = left at *
  obtain ⟨hfour, hsk, hS, hqq, -⟩ := h.bounds hq
  rw [h8, some_bind, mul_eq (by lia), some_bind]
  have hS2 : 2 ≤ s * 2 ^ k + q := by
    have : 2 ^ 1 ≤ 2 ^ k := Nat.pow_le_pow_right two_pos hk
    have := Nat.mul_le_mul (show 1 ≤ s by lia) this
    lia
  generalize s * 2 ^ k + q = S at *
  have hmul : mul (4 * k) 2 S = some (2 * S) := mul_eq (by lia)
  have hlt : left < 2 ^ (4 * k) := by lia
  by_cases hneg : left < q * q
  · rw [if_pos hneg, hmul, some_bind, checkedSub_eq (by lia), some_bind,
      checkedSub_eq (by lia), some_bind, assert_unchecked_eq (by lia), some_bind,
      wrapping_sub_of_lt (by lia) hneg]
    refine ⟨_, _, rfl, ?_⟩
    have hwrap : wrapping_add (4 * k) (left + 2 ^ (4 * k) - q * q) (2 * S - 1) =
        left + 2 * S - 1 - q * q := by
      rw [wrapping_add, show left + 2 ^ (4 * k) - q * q + (2 * S - 1) =
        left + 2 * S - 1 - q * q + 2 ^ (4 * k) by lia, Nat.add_mod_right,
        Nat.mod_eq_of_lt (by lia)]
    rw [hwrap]
    exact isRoot_of_lt hsquare (by lia) hlow hneg
  · rw [if_neg hneg, assert_unchecked_eq (by lia), some_bind,
      wrapping_sub_of_le hlt (Nat.le_of_not_lt hneg)]
    exact ⟨_, _, rfl, isRoot_of_le hsquare hup (Nat.le_of_not_lt hneg)⟩

theorem last_stage_spec (h : Leading (4 * k) k n s r) :
    ∃ s' r', last_stage (4 * k) n s r = some s' ∧ IsRoot n s' r' := by
  have hs : 0 < 2 * s := (Nat.two_pow_pos k).trans_le h.le_root
  have hm : n = n / 2 ^ (4 * k - 4 * k) := by rw [Nat.sub_self, pow_zero, Nat.div_one]
  obtain ⟨hq, hsquare, hup, hlow⟩ := h.quotient hm rfl rfl
  have hlo : n % 2 ^ (2 * k) / 2 ^ k < 2 ^ k := by
    rw [Nat.div_lt_iff_lt_mul (Nat.two_pow_pos k), ← pow_add, ← two_mul]
    exact mod_lt _ (Nat.two_pow_pos _)
  obtain ⟨h1, -, h3, -, h5, h6, h7, h8⟩ := h.parts (m := n % 2 ^ (2 * k)) hq hs.le
  rw [last_stage, assert_unchecked_eq (by lia)]
  simp only [some_bind, four_mul_half, four_mul_quarter, h1, checked_pred_two_pow,
    and_two_pow_sub_one_eq_mod, h3, h5, or_eq_add' hlo, h6, div_rem, if_neg hs.ne', h7]
  generalize (r * 2 ^ k + n % 2 ^ (2 * k) / 2 ^ k) / (2 * s) = q at *
  generalize (r * 2 ^ k + n % 2 ^ (2 * k) / 2 ^ k) % (2 * s) * 2 ^ k +
    n % 2 ^ (2 * k) % 2 ^ k = left at *
  rw [h8, some_bind]
  have hS : 0 < s * 2 ^ k + q := by
    lia
  generalize s * 2 ^ k + q = S at *
  have hiff : (2 ^ (4 * k) ≤ S * S ∨ n < wrapping_mul (4 * k) S S) ↔ left < q * q := by
    have hlt := h.lt
    rcases lt_or_ge (S * S) (2 ^ (4 * k)) with hS | hS
    · rw [wrapping_mul_eq hS]
      lia
    · lia
  by_cases hneg : left < q * q
  · rw [if_pos (hiff.2 hneg), checkedSub_eq hS]
    exact ⟨_, _, rfl, isRoot_of_lt hsquare hS hlow hneg⟩
  · rw [if_neg (mt hiff.1 hneg)]
    exact ⟨_, _, rfl, isRoot_of_le hsquare hup (Nat.le_of_not_lt hneg)⟩

theorem entries_spec {k i j : ℕ} (hi : i * i ≤ n ∧ n < (i + 1) * (i + 1))
    (hn : n + k ≤ 256) (hj : j < k) :
    ∃ s r, (entries k n i)[j]? = some (s, r) ∧ IsRoot (n + j) s r := by
  induction k generalizing n i j with
  | zero => exact absurd hj (not_lt_zero _)
  | succ k ih =>
    have hsucc : (i + 1) * (i + 1) = i * i + 2 * i + 1 := by ring
    rw [hsucc] at hi
    cases j with
    | zero =>
      have hsmall : i < 16 := by
        by_contra hge
        have := Nat.mul_le_mul (Nat.le_of_not_lt hge) (Nat.le_of_not_lt hge)
        lia
      refine ⟨i, n - i * i, ?_, by rw [IsRoot]; lia⟩
      rw [entries, List.getElem?_cons_zero, pow_two, truncate_eq (by lia),
        truncate_eq (by lia)]
    | succ j =>
      rw [entries, List.getElem?_cons_succ, show n + (j + 1) = n + 1 + j by lia]
      apply ih _ (by lia) (by lia)
      have hpow := pow_two (i + 1)
      split <;> lia

theorem table_spec (hn : n < 256) :
    ∃ s r, U8_ISQRT_WITH_REMAINDER[n]? = some (s, r) ∧ IsRoot n s r := by
  have := entries_spec (n := 0) (k := 256) (i := 0) (by lia) (by lia) hn
  rwa [zero_add] at this

theorem first_stage_spec (hbits : 16 ≤ original_bits) (hlt : n < 2 ^ original_bits)
    (hnormal : 2 ^ original_bits ≤ 4 * n) :
    ∃ s r, first_stage original_bits n = some (s, r) ∧ Leading original_bits 4 n s r := by
  have hpow : 2 ^ original_bits = 2 ^ 8 * 2 ^ (original_bits - 8) := by
    rw [← pow_add, Nat.add_sub_cancel' (by lia)]
  have hindex : n / 2 ^ (original_bits - 8) < 256 := by
    rw [Nat.div_lt_iff_lt_mul (Nat.two_pow_pos _)]
    exact hpow ▸ hlt
  obtain ⟨s, r, htable, hroot⟩ := table_spec hindex
  have hlead : Leading original_bits 4 n s r := ⟨by lia, hbits, hlt, hnormal, hroot⟩
  have := hlead.le_root
  refine ⟨s, r, ?_, hlead⟩
  rw [first_stage, assert_unchecked_eq (by have := Nat.two_pow_pos original_bits; lia),
    shr_eq (by lia), some_bind, some_bind, htable, some_bind]
  dsimp only
  rw [assert_unchecked_eq (by lia), some_bind]

end Stages

/-! ## The functions -/

/-- The function computes the root of every word of `bits` bits. -/
def Computes (bits : ℕ) (f : ℕ → Option ℕ) : Prop :=
  ∀ n < 2 ^ bits, ∃ s, f n = some s ∧ s * s ≤ n ∧ n < (s + 1) * (s + 1)

/-- The stages compute the root of every word with one of its two highest bits set. -/
def ComputesNormal (bits : ℕ) (stages : ℕ → Option ℕ) : Prop :=
  ∀ n < 2 ^ bits, 2 ^ bits ≤ 4 * n → ∃ s r, stages n = some s ∧ IsRoot n s r

theorem u8_computes : Computes 8 u8 := by
  intro n hn
  obtain ⟨s, r, htable, hroot⟩ := table_spec hn
  exact ⟨s, by rw [u8, htable, some_bind], hroot.le, hroot.lt⟩

theorem u16_stages_computes : ComputesNormal 16 u16_stages := by
  intro n hlt hnormal
  obtain ⟨s, r, hfirst, hlead⟩ := first_stage_spec le_rfl hlt hnormal
  rw [u16_stages, hfirst]
  exact last_stage_spec (k := 4) hlead

theorem u32_stages_computes : ComputesNormal 32 u32_stages := by
  intro n hlt hnormal
  obtain ⟨s, r, hfirst, hlead⟩ := first_stage_spec (by lia) hlt hnormal
  obtain ⟨s', r', hmiddle, hroot⟩ := middle_stage_spec hlead
  rw [u32_stages, hfirst, some_bind]
  dsimp only
  rw [hmiddle]
  exact last_stage_spec (k := 8) (hlead.next (by lia) hroot)

theorem u64_stages_computes : ComputesNormal 64 u64_stages := by
  intro n hlt hnormal
  obtain ⟨s, r, hfirst, hlead⟩ := first_stage_spec (by lia) hlt hnormal
  obtain ⟨s', r', hmiddle, hroot⟩ := middle_stage_spec hlead
  have hlead' := hlead.next (by lia) hroot
  obtain ⟨s'', r'', hmiddle', hroot'⟩ := middle_stage_spec hlead'
  rw [u64_stages, hfirst, some_bind]
  dsimp only
  rw [hmiddle, some_bind]
  rw [hmiddle', some_bind]
  exact last_stage_spec (k := 16) (hlead'.next (by lia) hroot')

theorem u128_stages_computes : ComputesNormal 128 u128_stages := by
  intro n hlt hnormal
  obtain ⟨s, r, hfirst, hlead⟩ := first_stage_spec (by lia) hlt hnormal
  obtain ⟨s', r', hmiddle, hroot⟩ := middle_stage_spec hlead
  have hlead' := hlead.next (by lia) hroot
  obtain ⟨s'', r'', hmiddle', hroot'⟩ := middle_stage_spec hlead'
  have hlead'' := hlead'.next (by lia) hroot'
  obtain ⟨s3, r3, hmiddle'', hroot''⟩ := middle_stage_spec hlead''
  rw [u128_stages, hfirst, some_bind]
  dsimp only
  rw [hmiddle, some_bind]
  rw [hmiddle', some_bind]
  rw [hmiddle'', some_bind]
  exact last_stage_spec (k := 32) (hlead''.next (by lia) hroot'')

theorem and_even_making_bitmask {a : ℕ} (h : a ≤ 128) :
    a &&& EVEN_MAKING_BITMASK = 2 * (a / 2) := by
  have : ∀ a : Fin 129, a.val &&& EVEN_MAKING_BITMASK = 2 * (a.val / 2) := by decide
  exact this ⟨a, lt_succ_of_le h⟩

theorem unsigned_fn_computes {bits : ℕ} {half stages : ℕ → Option ℕ} (hbits : bits ≤ 128)
    (hpos : 16 ≤ bits) (hhalf : Computes (bits / 2) half) (hstages : ComputesNormal bits stages) :
    Computes bits (unsigned_fn bits half stages) := by
  intro n hn
  have hone := Nat.two_pow_pos (bits / 2)
  rw [unsigned_fn]
  by_cases hsmall : n ≤ 2 ^ (bits / 2) - 1
  · rw [if_pos hsmall, truncate_eq (by lia)]
    exact hhalf n (by lia)
  have hne : n ≠ 0 := by lia
  have hsize := leading_zeros_add_size hn
  have hlow := two_pow_size_le hne
  have hup := lt_two_pow_size n
  rw [if_neg hsmall, and_even_making_bitmask (by lia)]
  obtain ⟨m, hm⟩ : ∃ m, m = leading_zeros bits n / 2 := ⟨_, rfl⟩
  have hsize_pos : 0 < n.size := Nat.size_pos.2 (Nat.pos_of_ne_zero hne)
  have hlt : n * 2 ^ (2 * m) < 2 ^ bits := by
    calc n * 2 ^ (2 * m) < 2 ^ n.size * 2 ^ (2 * m) :=
          Nat.mul_lt_mul_of_pos_right hup (Nat.two_pow_pos _)
      _ = 2 ^ (n.size + 2 * m) := (pow_add _ _ _).symm
      _ ≤ 2 ^ bits := Nat.pow_le_pow_right two_pos (by lia)
  have hnormal : 2 ^ bits ≤ 4 * (n * 2 ^ (2 * m)) := by
    calc 2 ^ bits ≤ 2 ^ (n.size + 2 * m + 1) := Nat.pow_le_pow_right two_pos (by lia)
      _ = 2 * (2 ^ n.size * 2 ^ (2 * m)) := by rw [pow_succ, pow_add, Nat.mul_comm]
      _ ≤ 2 * (2 * n * 2 ^ (2 * m)) := Nat.mul_le_mul_left _ (Nat.mul_le_mul_right _ hlow)
      _ = 4 * (n * 2 ^ (2 * m)) := by ring
  rw [← hm]
  dsimp only
  rw [shl_eq (by lia) hlt, some_bind, Nat.mul_div_cancel_left _ two_pos]
  obtain ⟨s, r, hrun, hroot⟩ := hstages _ hlt hnormal
  rw [hrun, some_bind, shr_eq (by lia)]
  exact ⟨_, rfl, hroot.of_shifted⟩

theorem u16_computes : Computes 16 u16 :=
  unsigned_fn_computes (by lia) le_rfl u8_computes u16_stages_computes

theorem u32_computes : Computes 32 u32 :=
  unsigned_fn_computes (by lia) (by lia) u16_computes u32_stages_computes

theorem u64_computes : Computes 64 u64 :=
  unsigned_fn_computes (by lia) (by lia) u32_computes u64_stages_computes

theorem u128_computes : Computes 128 u128 :=
  unsigned_fn_computes le_rfl (by lia) u64_computes u128_stages_computes

theorem Unsigned.int_sqrt_computes (T : Unsigned) : Computes T.bits T.int_sqrt := by
  cases T
  · exact u8_computes
  · exact u16_computes
  · exact u32_computes
  · exact u64_computes
  · exact u128_computes

/-- Larger numbers have larger roots. -/
theorem root_le_root {m t : ℕ} (hs : s * s ≤ n) (ht : m < (t + 1) * (t + 1)) (h : n ≤ m) : s ≤ t :=
  Nat.lt_succ_iff.1 (Nat.mul_self_lt_mul_self_iff.1 (hs.trans_lt (h.trans_lt ht)))

/-- **Integer square roots**: for every unsigned type nothing overflows, no division is by zero, no
index is out of range and no assertion is false, and the result is the root rounded down; the signed
function gives the same for the numbers that are not negative. -/
theorem isqrt_spec (T : Unsigned) (n : Fin (2 ^ T.bits)) :
    ∃ s, T.isqrt n = some s ∧ s * s ≤ n ∧ n < (s + 1) * (s + 1) ∧
      T.checked_isqrt n = some (if is_negative T.bits n then none else some s) := by
  obtain ⟨s, hrun, hle, hlt⟩ := T.int_sqrt_computes n n.isLt
  obtain ⟨t, hmax, -, htop⟩ := T.int_sqrt_computes (2 ^ T.bits - 1) (by omega)
  have hst : s ≤ t := root_le_root hle htop (by have := n.isLt; omega)
  refine ⟨s, ?_, hle, hlt, ?_⟩
  · rw [Unsigned.isqrt, hrun, some_bind, hmax, some_bind, assert_unchecked_eq hst, some_bind]
  rw [Unsigned.checked_isqrt]
  by_cases hneg : is_negative T.bits n
  · rw [if_pos hneg, if_pos hneg]
  rw [if_neg hneg, if_neg hneg, hrun, some_bind]
  rw [is_negative_iff] at hneg
  have hbits : 2 ^ T.bits = 2 * 2 ^ (T.bits - 1) := by cases T <;> rfl
  obtain ⟨t, hmax, -, htop⟩ := T.int_sqrt_computes (2 ^ (T.bits - 1) - 1) (by omega)
  have hst : s ≤ t := root_le_root hle htop (by omega)
  have hsn : s ≤ n := by
    refine le_trans ?_ hle
    exact Nat.le_mul_self s
  rw [assert_unchecked_eq (by rw [is_negative_iff]; omega), some_bind, hmax, some_bind,
    assert_unchecked_eq hst, some_bind]

end RustStd.IntSqrt
