import RustStd.Foundations.Word

/-!
# The bytes of a word

A word of `n + 1` bytes is `b + 2 ^ 8 * y`, for its low byte `b` and the word `y` above it. What an
operation does to every byte at once is found by taking the low byte off: masking by `splat`, the
word whose bytes are all the same, goes byte for byte (`and_splat_succ`).

`borrow_bits_ne_zero_iff`: when one is subtracted from every byte, the lowest byte that borrows is
the first one that is zero. The bytes above it may borrow without being zero, but a word without a
zero byte has no borrow at all, so the test for a zero byte is exact.
-/

namespace RustStd

open List Nat

/-- The word of `n` bytes that all are `b`. -/
def splat (b : ℕ) : ℕ → ℕ
  | 0 => 0
  | n + 1 => b + 2 ^ 8 * splat b n

variable {b n x i : ℕ}

theorem two_pow_bytes_succ (n : ℕ) : 2 ^ (8 * (n + 1)) = 2 ^ 8 * 2 ^ (8 * n) := by
  rw [mul_succ, pow_add, mul_comm]

theorem splat_lt (hb : b < 2 ^ 8) (n : ℕ) : splat b n < 2 ^ (8 * n) := by
  induction n with
  | zero => exact one_pos
  | succ n ih =>
    rw [splat, two_pow_bytes_succ]
    lia

/-- Masking goes byte for byte. -/
theorem and_splat_succ (x n : ℕ) (hb : b < 2 ^ 8) :
    x &&& splat b (n + 1) = (x % 2 ^ 8 &&& b) + 2 ^ 8 * (x / 2 ^ 8 &&& splat b n) := by
  conv_lhs => rw [← mod_add_div x (2 ^ 8)]
  exact Target.and_add_mul _ _ _ _ (mod_lt _ (by decide)) hb

theorem xor_add_mul (x y a c : ℕ) (hx : x < 2 ^ 8) (ha : a < 2 ^ 8) :
    (x + 2 ^ 8 * y) ^^^ (a + 2 ^ 8 * c) = (x ^^^ a) + 2 ^ 8 * (y ^^^ c) := by
  have hxa : x ^^^ a < 2 ^ 8 := xor_lt_two_pow hx ha
  apply eq_of_testBit_eq
  intro i
  rw [testBit_xor, add_comm x, add_comm a, add_comm (x ^^^ a),
    testBit_two_pow_mul_add _ hx, testBit_two_pow_mul_add _ ha,
    testBit_two_pow_mul_add _ hxa]
  split <;> rw [testBit_xor]

/-! ## The test for a zero byte -/

/-- The sign bits of the bytes of `(x - 0x01..01) & !x`, in a word of `n` bytes. -/
def borrow_bits (n x : ℕ) : ℕ :=
  (x + (2 ^ (8 * n) - splat 1 n)) % 2 ^ (8 * n) &&& (2 ^ (8 * n) - 1 - x) &&& splat 128 n

theorem testBit_seven (h : x < 2 ^ 8) : x.testBit 7 = decide (128 ≤ x) := by
  rw [testBit_eq_decide_div_mod_eq, decide_eq_decide]
  lia

/-- A byte that is not zero does not borrow: its sign bit is not both set before and cleared by
subtracting one. -/
theorem byte_borrow (h0 : 0 < b) (hb : b < 2 ^ 8) : b - 1 &&& (255 - b) &&& 128 = 0 := by
  rw [show 128 = 2 ^ 7 from rfl, and_two_pow, testBit_and, testBit_seven (by lia),
    testBit_seven (by lia)]
  by_cases h : 128 ≤ b - 1
  · rw [decide_eq_true h, decide_eq_false (by lia)]
    rfl
  · rw [decide_eq_false h]
    rfl

/-- The three words that are masked, cut at the low byte. -/
theorem borrow_bits_succ (n x : ℕ) : borrow_bits (n + 1) x =
    ((x + (2 ^ 8 * 2 ^ (8 * n) - splat 1 (n + 1))) % 2 ^ 8 &&&
        (2 ^ 8 * 2 ^ (8 * n) - 1 - x) % 2 ^ 8 &&& 128) +
      2 ^ 8 * ((x + (2 ^ 8 * 2 ^ (8 * n) - splat 1 (n + 1))) / 2 ^ 8 % 2 ^ (8 * n) &&&
        (2 ^ 8 * 2 ^ (8 * n) - 1 - x) / 2 ^ 8 &&& splat 128 n) := by
  rw [borrow_bits, two_pow_bytes_succ, and_splat_succ _ _ (by decide), and_mod_two_pow,
    and_div_two_pow, mod_mul_right_mod, mod_mul_right_div_self]

/-- Above a low byte that is not zero the test goes on as if that byte were not there. -/
theorem borrow_bits_of_low (hx : x < 2 ^ (8 * (n + 1))) (h : x % 2 ^ 8 ≠ 0) :
    borrow_bits (n + 1) x = 2 ^ 8 * borrow_bits n (x / 2 ^ 8) := by
  have hone := splat_lt (b := 1) (by decide) n
  rw [two_pow_bytes_succ] at hx
  rw [borrow_bits_succ, splat, borrow_bits]
  generalize 2 ^ (8 * n) = p at *
  generalize splat 1 n = ones at *
  rw [show (x + (2 ^ 8 * p - (1 + 2 ^ 8 * ones))) % 2 ^ 8 = x % 2 ^ 8 - 1 by lia,
    show (2 ^ 8 * p - 1 - x) % 2 ^ 8 = 255 - x % 2 ^ 8 by lia,
    show (x + (2 ^ 8 * p - (1 + 2 ^ 8 * ones))) / 2 ^ 8 = x / 2 ^ 8 + (p - ones) by lia,
    show (2 ^ 8 * p - 1 - x) / 2 ^ 8 = p - 1 - x / 2 ^ 8 by lia,
    byte_borrow (Nat.pos_of_ne_zero h) (mod_lt _ (by decide)), Nat.zero_add]

/-- A low byte that is zero borrows. -/
theorem borrow_bits_of_zero (hx : x < 2 ^ (8 * (n + 1))) (h : x % 2 ^ 8 = 0) :
    borrow_bits (n + 1) x ≠ 0 := by
  have hone := splat_lt (b := 1) (by decide) n
  rw [two_pow_bytes_succ] at hx
  rw [borrow_bits_succ, splat]
  generalize 2 ^ (8 * n) = p at *
  generalize splat 1 n = ones at *
  rw [show (x + (2 ^ 8 * p - (1 + 2 ^ 8 * ones))) % 2 ^ 8 = 255 by lia,
    show (2 ^ 8 * p - 1 - x) % 2 ^ 8 = 255 by lia,
    show 255 &&& 255 &&& 128 = 128 from rfl]
  lia

/-- **The test for a zero byte is exact.** -/
theorem borrow_bits_ne_zero_iff (hx : x < 2 ^ (8 * n)) :
    borrow_bits n x ≠ 0 ↔ ∃ i < n, x / 2 ^ (8 * i) % 2 ^ 8 = 0 := by
  induction n generalizing x with
  | zero => simp [borrow_bits, splat]
  | succ n ih =>
    by_cases h : x % 2 ^ 8 = 0
    · refine iff_of_true (borrow_bits_of_zero hx h) ⟨0, succ_pos n, ?_⟩
      rwa [Nat.mul_zero, pow_zero, Nat.div_one]
    have hdiv : x / 2 ^ 8 < 2 ^ (8 * n) := by
      rw [two_pow_bytes_succ] at hx
      exact Nat.div_lt_of_lt_mul hx
    have hbyte (i : ℕ) : x / 2 ^ (8 * (i + 1)) = x / 2 ^ 8 / 2 ^ (8 * i) := by
      rw [Nat.div_div_eq_div_mul, two_pow_bytes_succ]
    rw [borrow_bits_of_low hx h, Nat.mul_ne_zero_iff, and_iff_right (by decide), ih hdiv]
    constructor
    · rintro ⟨i, hi, hzero⟩
      exact ⟨i + 1, succ_lt_succ hi, by rwa [hbyte]⟩
    · rintro ⟨i, hi, hzero⟩
      cases i with
      | zero => exact absurd (by rwa [Nat.mul_zero, pow_zero, Nat.div_one] at hzero) h
      | succ i => exact ⟨i, lt_of_succ_lt_succ hi, by rwa [← hbyte]⟩

/-! ## Words and their bytes -/

open Target (leBytes)

variable {bs : List UInt8} {t : Target}

theorem leBytes_lt (bs : List UInt8) : leBytes bs < 2 ^ (8 * bs.length) := by
  induction bs with
  | nil => exact one_pos
  | cons b bs ih =>
    have := b.toNat_lt
    rw [length_cons, two_pow_bytes_succ, leBytes]
    lia

theorem leBytes_replicate (b : UInt8) (n : ℕ) : leBytes (replicate n b) = splat b.toNat n := by
  induction n with
  | zero => rfl
  | succ n ih => rw [replicate_succ, leBytes, splat, ih]

/-- The bytes of a word, each combined with `b`. -/
theorem leBytes_xor (b : UInt8) (bs : List UInt8) :
    leBytes bs ^^^ splat b.toNat bs.length = leBytes (bs.map (· ^^^ b)) := by
  induction bs with
  | nil => simp [leBytes, splat]
  | cons a bs ih =>
    rw [length_cons, splat, map_cons, leBytes, leBytes,
      xor_add_mul _ _ _ _ a.toNat_lt b.toNat_lt, ih, UInt8.toNat_xor]

theorem leBytes_byte {i : ℕ} (h : i < bs.length) :
    leBytes bs / 2 ^ (8 * i) % 2 ^ 8 = bs[i].toNat := by
  induction bs generalizing i with
  | nil => cases h
  | cons b bs ih =>
    have := b.toNat_lt
    cases i with
    | zero =>
      rw [Nat.mul_zero, pow_zero, Nat.div_one, leBytes, getElem_cons_zero]
      lia
    | succ i =>
      rw [two_pow_bytes_succ, ← Nat.div_div_eq_div_mul, leBytes,
        show (b.toNat + 2 ^ 8 * leBytes bs) / 2 ^ 8 = leBytes bs by lia, getElem_cons_succ]
      exact ih _

theorem leBytes_zero_byte_iff (bs : List UInt8) :
    (∃ i < bs.length, leBytes bs / 2 ^ (8 * i) % 2 ^ 8 = 0) ↔ 0 ∈ bs := by
  constructor
  · rintro ⟨i, hi, hzero⟩
    rw [leBytes_byte hi] at hzero
    rw [← UInt8.toNat_inj.1 (hzero.trans UInt8.toNat_zero.symm)]
    exact getElem_mem hi
  · intro h
    obtain ⟨i, hi, hzero⟩ := getElem_of_mem h
    exact ⟨i, hi, by rw [leBytes_byte hi, hzero, UInt8.toNat_zero]⟩

namespace Target

theorem usizeCard_eq (t : Target) : t.usizeCard = 2 ^ (8 * t.usizeBytes) := rfl

theorem repeatU8_eq (t : Target) (b : UInt8) : t.repeatU8 b = splat b.toNat t.usizeBytes := by
  rw [repeatU8, usizeOfBytes, reverse_replicate, ite_self, leBytes_replicate]

/-- The bytes of a word in the order of their weight. -/
theorem usizeOfBytes_eq (t : Target) (bs : List UInt8) :
    t.usizeOfBytes bs = leBytes (if t.bigEndian then bs.reverse else bs) := by
  rw [usizeOfBytes]
  split <;> rfl

/-- A zero byte of a word combined with `b` in every byte is a byte that is `b`. -/
theorem zero_byte_xor_iff {bs : List UInt8} (h : bs.length = t.usizeBytes) (b : UInt8) :
    (∃ i < t.usizeBytes, (t.usizeOfBytes bs ^^^ t.repeatU8 b) / 2 ^ (8 * i) % 2 ^ 8 = 0) ↔
      b ∈ bs := by
  obtain ⟨cs, hcs⟩ : ∃ cs, cs = if t.bigEndian then bs.reverse else bs := ⟨_, rfl⟩
  have hlen : cs.length = t.usizeBytes := by
    rw [hcs]
    split <;> simp [h]
  have hmem : b ∈ cs ↔ b ∈ bs := by
    rw [hcs]
    split <;> simp
  have hzero := leBytes_zero_byte_iff (cs.map (· ^^^ b))
  rw [length_map] at hzero
  rw [usizeOfBytes_eq, ← hcs, repeatU8_eq, ← hlen, leBytes_xor, ← hmem, hzero, mem_map]
  constructor
  · rintro ⟨a, ha, hzero⟩
    rwa [← UInt8.xor_eq_zero_iff.1 hzero]
  · intro hb
    exact ⟨b, hb, UInt8.xor_self⟩

theorem usizeOfBytes_xor_lt {bs : List UInt8} (h : bs.length = t.usizeBytes) (b : UInt8) :
    t.usizeOfBytes bs ^^^ t.repeatU8 b < t.usizeCard := by
  refine xor_lt_two_pow ?_ ?_
  · rw [usizeOfBytes_eq]
    refine (leBytes_lt _).trans_eq ?_
    split <;> simp [h]
  · rw [repeatU8_eq]
    exact splat_lt b.toNat_lt _

end Target

end RustStd
