import Mathlib.Data.Nat.Digits.Lemmas

/-!
# Numerals in positional notation

Digits stand here in the order in which they are written, the most significant first. `value` is
the number that a list of digits denotes, `numeral` the list that denotes a number without a
superfluous zero, `padded` its last digits in a given number of places. What a program that prints
several digits at a time needs is `digits_eq_append_padded`: cutting digits off at the end is
division by a power of the base.
-/

namespace RustStd.Digits

open List Nat

variable {b : ℕ}

/-- The number that a list of digits denotes. -/
def value (b : ℕ) (ds : List ℕ) : ℕ := ds.foldl (fun v d => v * b + d) 0

/-- The digits of a number; there is none for zero. -/
def digits (b n : ℕ) : List ℕ := (Nat.digits b n).reverse

/-- The last `k` digits of a number. -/
def padded (b : ℕ) : ℕ → ℕ → List ℕ
  | 0, _ => []
  | k + 1, n => padded b k (n / b) ++ [n % b]

/-- The digits of a number as it is written: zero is written as one digit. -/
def numeral (b n : ℕ) : List ℕ := if n = 0 then [0] else digits b n

/-! ## Values -/

@[simp] theorem value_nil : value b [] = 0 := rfl

theorem foldl_eq (ds : List ℕ) (v : ℕ) :
    ds.foldl (fun v d => v * b + d) v = v * b ^ ds.length + value b ds := by
  induction ds generalizing v with
  | nil => simp
  | cons d ds ih =>
    have htail : value b (d :: ds) = d * b ^ ds.length + value b ds := by
      rw [value, foldl_cons, ih, zero_mul, zero_add]
    rw [foldl_cons, ih, htail, length_cons, pow_succ]
    ring

theorem value_append (ds es : List ℕ) :
    value b (ds ++ es) = value b ds * b ^ es.length + value b es := by
  rw [value, foldl_append, foldl_eq]
  rfl

@[simp] theorem value_concat (ds : List ℕ) (d : ℕ) : value b (ds ++ [d]) = value b ds * b + d := by
  rw [value_append, length_singleton, pow_one]
  simp [value]

/-! ## The digits of a number -/

@[simp] theorem digits_zero : digits b 0 = [] := by simp [digits]

variable {n : ℕ}

theorem digits_eq_concat (hb : 1 < b) (hn : 0 < n) :
    digits b n = digits b (n / b) ++ [n % b] := by
  rw [digits, digits_def' hb hn, reverse_cons]
  rfl

theorem digits_eq_nil_iff : digits b n = [] ↔ n = 0 := by
  rw [digits, reverse_eq_nil_iff, digits_eq_nil_iff_eq_zero]

theorem lt_of_mem_digits (hb : 1 < b) {d : ℕ} (hd : d ∈ digits b n) : d < b :=
  digits_lt_base hb (mem_reverse.mp hd)

theorem value_digits (hb : 1 < b) (n : ℕ) : value b (digits b n) = n := by
  induction n using Nat.strong_induction_on with
  | _ n ih =>
    rcases Nat.eq_zero_or_pos n with rfl | hn
    · simp
    · rw [digits_eq_concat hb hn, value_concat, ih _ (div_lt_self hn hb), mul_comm]
      exact div_add_mod n b

theorem length_digits_le (hb : 1 < b) {k : ℕ} (h : n < b ^ k) : (digits b n).length ≤ k := by
  rw [digits, length_reverse]
  exact (digits_length_le_iff hb n).mpr h

theorem head_digits_ne_zero {d : ℕ} (hd : (digits b n).head? = some d) : d ≠ 0 := by
  have hn : n ≠ 0 := by
    rintro rfl
    simp at hd
  rw [digits, head?_reverse, getLast?_eq_some_getLast
    (digits_ne_nil_iff_ne_zero.mpr hn), Option.some.injEq] at hd
  rw [← hd]
  exact getLast_digit_ne_zero b hn

theorem padded_zero (n : ℕ) : padded b 0 n = [] := rfl

theorem padded_succ (k n : ℕ) : padded b (k + 1) n = padded b k (n / b) ++ [n % b] := rfl

theorem length_padded (k n : ℕ) : (padded b k n).length = k := by
  induction k generalizing n with
  | zero => rfl
  | succ k ih => rw [padded_succ, length_append, ih, length_singleton]

/-- **The last digits come off by division.** -/
theorem digits_eq_append_padded (hb : 1 < b) {k : ℕ} (h : b ^ k ≤ n) :
    digits b n = digits b (n / b ^ (k + 1)) ++ padded b (k + 1) n := by
  induction k generalizing n with
  | zero =>
    have hn : 0 < n := by
      rw [pow_zero] at h
      exact h
    simpa [padded_succ, padded_zero] using digits_eq_concat hb hn
  | succ k ih =>
    have hpos : 0 < n := Nat.lt_of_lt_of_le (Nat.pow_pos (by omega)) h
    have hquot : b ^ k ≤ n / b := by
      rw [le_div_iff_mul_le (by omega), ← pow_succ]
      exact h
    rw [digits_eq_concat hb hpos, ih hquot, Nat.div_div_eq_div_mul, ← pow_succ', padded_succ,
      append_assoc]
    rfl

theorem padded_add (j k n : ℕ) : padded b (j + k) n = padded b j (n / b ^ k) ++ padded b k n := by
  induction k generalizing n with
  | zero => simp [padded_zero]
  | succ k ih =>
    rw [← Nat.add_assoc, padded_succ, ih, Nat.div_div_eq_div_mul, ← pow_succ', padded_succ,
      append_assoc]

theorem padded_mod (k n : ℕ) : padded b k (n % b ^ k) = padded b k n := by
  induction k generalizing n with
  | zero => rfl
  | succ k ih =>
    rw [padded_succ, padded_succ, pow_succ', mod_mul_right_div_self, ih, mod_mul_right_mod]

/-! ## Numerals -/

theorem numeral_of_pos (hn : n ≠ 0) : numeral b n = digits b n := if_neg hn

/-- The last digit comes off by division, also for a number of one digit. -/
theorem numeral_eq_concat (hb : 1 < b) (n : ℕ) :
    numeral b n = (if n / b = 0 then [] else numeral b (n / b)) ++ [n % b] := by
  rcases Nat.eq_zero_or_pos n with rfl | hn
  · simp [numeral]
  · rw [numeral_of_pos hn.ne', digits_eq_concat hb hn]
    congr 1
    split
    · next h => rw [h, digits_zero]
    · next h => rw [numeral_of_pos h]

theorem numeral_ne_nil (n : ℕ) : numeral b n ≠ [] := by
  rw [numeral]
  split
  · simp
  · simpa [digits_eq_nil_iff]

theorem lt_of_mem_numeral (hb : 1 < b) {d : ℕ} (hd : d ∈ numeral b n) : d < b := by
  rw [numeral] at hd
  split at hd
  · rw [mem_singleton] at hd
    omega
  · exact lt_of_mem_digits hb hd

theorem value_numeral (hb : 1 < b) (n : ℕ) : value b (numeral b n) = n := by
  rw [numeral]
  split
  · next h => simp [value, h]
  · exact value_digits hb n

theorem length_numeral_le (hb : 1 < b) {k : ℕ} (hk : 0 < k) (h : n < b ^ k) :
    (numeral b n).length ≤ k := by
  rw [numeral]
  split
  · exact hk
  · exact length_digits_le hb h

/-- A numeral begins with a zero only when it is the numeral of zero. -/
theorem numeral_of_head_eq_zero (h : (numeral b n).head? = some 0) : numeral b n = [0] := by
  rw [numeral] at h ⊢
  split
  · rfl
  · next hn =>
    rw [if_neg hn] at h
    exact absurd rfl (head_digits_ne_zero h)

/-! ## Division by a constant -/

/-- Division by `d` is multiplication by a number slightly above `m / d`, and division by `m`. -/
theorem mul_div_eq_div {d m k e : ℕ} (hk : d * k = m + e) (he : n * e < m) :
    n * k / m = n / d := by
  have hd : 0 < d := by
    rcases Nat.eq_zero_or_pos d with rfl | h
    · omega
    · exact h
  have hscaled : d * (n * k) = n * m + n * e := by
    calc d * (n * k) = n * (d * k) := by ring
      _ = n * m + n * e := by rw [hk, Nat.mul_add]
  have hdiv : n = d * (n / d) + n % d := (div_add_mod n d).symm
  have hmod : n % d + 1 ≤ d := mod_lt n hd
  apply Nat.div_eq_of_lt_le
  · -- `d * (n / d * m) ≤ n * m ≤ d * (n * k)`
    apply Nat.le_of_mul_le_mul_left _ hd
    calc d * (n / d * m) = d * (n / d) * m := by ring
      _ ≤ n * m := Nat.mul_le_mul_right m (mul_div_le n d)
      _ ≤ d * (n * k) := by omega
  · -- `d * (n * k) < n * m + m ≤ d * ((n / d + 1) * m)`
    apply Nat.lt_of_mul_lt_mul_left (a := d)
    calc d * (n * k) < (n + 1) * m := by rw [hscaled, Nat.add_mul]; omega
      _ ≤ (d * (n / d) + d) * m := Nat.mul_le_mul_right m (by omega)
      _ = d * ((n / d + 1) * m) := by ring

end RustStd.Digits
