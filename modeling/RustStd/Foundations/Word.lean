import Mathlib.Data.Nat.Bitwise
import Mathlib.Data.UInt

/-!
# Machine words read from memory

A target's word has `2 ^ logBytes` bytes and a byte order. A word is a number below
`2 ^ (8 * bytes)`; reading one from memory puts the bytes at their places by the byte order. The
one fact about the places needed here is that masking the sign bit of every byte sees a byte from
128 on wherever it stands (`usizeOfBytes_and_ne_zero`).
-/

namespace RustStd

/-- `a - b` on `usize`, where wrapping around is a fault. -/
def checkedSub (a b : ℕ) : Option ℕ := if b ≤ a then some (a - b) else none

theorem checkedSub_eq {a b : ℕ} (h : b ≤ a) : checkedSub a b = some (a - b) := if_pos h

/-- `Option.bind_some`, for the `>>=` of the `do` of the models. -/
theorem some_bind.{u} {α β : Type u} (a : α) (f : α → Option β) : (some a >>= f) = f a :=
  Option.bind_some a f

/-- The word size (a power of two) and the byte order of a target. -/
structure Target where
  logBytes : ℕ
  bigEndian : Bool

namespace Target

/-- `size_of::<usize>()` -/
def usizeBytes (t : Target) : ℕ := 2 ^ t.logBytes

/-- The number of values of a `usize`. -/
def usizeCard (t : Target) : ℕ := 2 ^ (8 * t.usizeBytes)

/-- `usize::MAX` -/
def usizeMax (t : Target) : ℕ := t.usizeCard - 1

/-- `isize::MAX` -/
def isizeMax (t : Target) : ℕ := t.usizeCard / 2 - 1

/-- The value of `usize` arithmetic: release builds wrap around. -/
def wrap (t : Target) (n : ℕ) : ℕ := n % t.usizeCard

/-- `a.wrapping_sub(b)` on `usize`. -/
def wrappingSub (t : Target) (a b : ℕ) : ℕ := (a + (t.usizeCard - b % t.usizeCard)) % t.usizeCard

/-- `a + b` on `usize`, where wrapping around is a fault. -/
def checkedAdd (t : Target) (a b : ℕ) : Option ℕ :=
  if a + b < t.usizeCard then some (a + b) else none

/-- The number written in little-endian order. -/
def leBytes : List UInt8 → ℕ
  | [] => 0
  | b :: bs => b.toNat + 2 ^ 8 * leBytes bs

/-- `usize::from_ne_bytes` -/
def usizeOfBytes (t : Target) (bs : List UInt8) : ℕ :=
  if t.bigEndian then leBytes bs.reverse else leBytes bs

/-- `usize::repeat_u8` -/
def repeatU8 (t : Target) (x : UInt8) : ℕ := t.usizeOfBytes (List.replicate t.usizeBytes x)

/-- `align_offset(size_of::<usize>())` of a byte pointer to the address `addr`. -/
def alignOffset (t : Target) (addr : ℕ) : ℕ := (t.usizeBytes - addr % t.usizeBytes) % t.usizeBytes

/-- Read a word at the offset `off` of a byte slice at the address `addr`: a fault when the address
read is not aligned or the word leaves the slice. -/
def readUsize (t : Target) (addr : ℕ) (v : List UInt8) (off : ℕ) : Option ℕ :=
  if (addr + off) % t.usizeBytes = 0 ∧ off + t.usizeBytes ≤ v.length then
    some (t.usizeOfBytes ((v.drop off).take t.usizeBytes))
  else none

theorem usizeBytes_pos (t : Target) : 0 < t.usizeBytes := Nat.two_pow_pos _

theorem two_mul_isizeMax (t : Target) : 2 * t.isizeMax + 2 = t.usizeCard := by
  have hpos := t.usizeBytes_pos
  have h : t.usizeCard = 2 * 2 ^ (8 * t.usizeBytes - 1) := by
    rw [usizeCard, ← pow_succ', show 8 * t.usizeBytes - 1 + 1 = 8 * t.usizeBytes by omega]
  have := Nat.two_pow_pos (8 * t.usizeBytes - 1)
  rw [isizeMax]
  omega

variable {t : Target}

theorem checkedAdd_eq {a b : ℕ} (h : a + b < t.usizeCard) :
    t.checkedAdd a b = some (a + b) := if_pos h

theorem wrap_of_lt {n : ℕ} (h : n < t.usizeCard) : t.wrap n = n := Nat.mod_eq_of_lt h

/-- Going below zero wraps around to a number past every length. -/
theorem isizeMax_lt_wrappingSub {a b : ℕ} (h : a < b) (hb : b ≤ t.isizeMax) :
    t.isizeMax < t.wrappingSub a b := by
  have := t.two_mul_isizeMax
  rw [wrappingSub, Nat.mod_eq_of_lt (show b < t.usizeCard by omega), Nat.mod_eq_of_lt (by omega)]
  omega

theorem wrappingSub_of_le {a b : ℕ} (h : b ≤ a) (ha : a < t.usizeCard) :
    t.wrappingSub a b = a - b := by
  rw [wrappingSub, Nat.mod_eq_of_lt (show b < t.usizeCard by omega),
    show a + (t.usizeCard - b) = a - b + t.usizeCard by omega, Nat.add_mod_right,
    Nat.mod_eq_of_lt (by omega)]

theorem usizeBytes_dvd_usizeCard (t : Target) : t.usizeBytes ∣ t.usizeCard := by
  refine pow_dvd_pow 2 ?_
  have h : t.logBytes < 2 ^ t.logBytes := Nat.lt_two_pow_self
  unfold usizeBytes
  omega

/-- Wrapping around does not show in the remainder by the word size. -/
theorem wrappingSub_mod_eq_zero_iff (t : Target) (a b : ℕ) :
    t.wrappingSub a b % t.usizeBytes = 0 ↔ a % t.usizeBytes = b % t.usizeBytes := by
  have hd := t.usizeBytes_dvd_usizeCard
  have hpos : 0 < t.usizeCard := Nat.two_pow_pos _
  rw [wrappingSub, Nat.mod_mod_of_dvd _ hd]
  have hle : b % t.usizeCard ≤ a + t.usizeCard := by
    have := Nat.mod_lt b hpos
    omega
  have hsub : a + (t.usizeCard - b % t.usizeCard) = a + t.usizeCard - b % t.usizeCard := by
    have := Nat.mod_lt b hpos
    omega
  rw [hsub, ← Nat.dvd_iff_mod_eq_zero, ← Nat.modEq_iff_dvd' hle]
  have hb : b % t.usizeCard ≡ b [MOD t.usizeBytes] := Nat.mod_mod_of_dvd b hd
  have ha : a + t.usizeCard ≡ a [MOD t.usizeBytes] := by
    simpa using (Nat.ModEq.refl a).add (Nat.modEq_zero_iff_dvd.2 hd)
  constructor
  · intro h
    exact (ha.symm.trans (h.symm.trans hb))
  · intro h
    exact hb.trans ((Nat.ModEq.symm h).trans ha.symm)

theorem add_alignOffset_mod (t : Target) (addr : ℕ) :
    (addr + t.alignOffset addr) % t.usizeBytes = 0 := by
  have hpos := t.usizeBytes_pos
  have hlt := Nat.mod_lt addr hpos
  rw [alignOffset, Nat.add_mod, Nat.mod_mod]
  rcases Nat.eq_zero_or_pos (addr % t.usizeBytes) with h | h
  · simp [h]
  · rw [Nat.mod_eq_of_lt (show t.usizeBytes - addr % t.usizeBytes < t.usizeBytes by omega),
      Nat.add_sub_cancel' hlt.le, Nat.mod_self]

/-- An offset congruent to the alignment offset is aligned. -/
theorem aligned_of_mod_eq (t : Target) {addr off : ℕ}
    (h : t.alignOffset addr % t.usizeBytes = off % t.usizeBytes) :
    (addr + off) % t.usizeBytes = 0 := by
  rw [Nat.add_mod, ← h, ← Nat.add_mod, add_alignOffset_mod]

theorem and_byte_ne_zero_iff (b : UInt8) : b.toNat &&& 128 ≠ 0 ↔ 128 ≤ b.toNat := by
  have hlt := b.toNat_lt
  rw [show 128 = 2 ^ 7 from rfl, Nat.and_two_pow, Nat.testBit_eq_decide_div_mod_eq]
  by_cases h : b.toNat / 2 ^ 7 % 2 = 1
  · simp only [h, decide_true, Bool.toNat_true]
    omega
  · simp only [h, decide_false, Bool.toNat_false]
    omega

theorem and_add_mul (x y a c : ℕ) (hx : x < 2 ^ 8) (ha : a < 2 ^ 8) :
    (x + 2 ^ 8 * y) &&& (a + 2 ^ 8 * c) = (x &&& a) + 2 ^ 8 * (y &&& c) := by
  have hxa : x &&& a < 2 ^ 8 := Nat.and_lt_two_pow x ha
  apply Nat.eq_of_testBit_eq
  intro i
  rw [Nat.testBit_and, Nat.add_comm x, Nat.add_comm a, Nat.add_comm (x &&& a),
    Nat.testBit_two_pow_mul_add _ hx, Nat.testBit_two_pow_mul_add _ ha,
    Nat.testBit_two_pow_mul_add _ hxa]
  split <;> rw [Nat.testBit_and]

theorem leBytes_and_ne_zero (bs : List UInt8) :
    leBytes bs &&& leBytes (List.replicate bs.length 128) ≠ 0 ↔ ∃ b ∈ bs, 128 ≤ b.toNat := by
  induction bs with
  | nil => simp [leBytes]
  | cons b bs ih =>
    have h128 : (128 : UInt8).toNat = 128 := rfl
    rw [List.length_cons, List.replicate_succ, leBytes, leBytes, h128,
      and_add_mul _ _ _ _ b.toNat_lt (by decide)]
    simp only [List.mem_cons, exists_eq_or_imp]
    rw [← ih, ← and_byte_ne_zero_iff]
    omega

/-- **Masking the sign bits of a word sees every byte from 128 on.** -/
theorem usizeOfBytes_and_ne_zero (t : Target) {bs : List UInt8} (h : bs.length = t.usizeBytes) :
    t.usizeOfBytes bs &&& t.repeatU8 0x80 ≠ 0 ↔ ∃ b ∈ bs, 128 ≤ b.toNat := by
  unfold repeatU8 usizeOfBytes
  rw [← h]
  split
  · have := leBytes_and_ne_zero bs.reverse
    simpa only [List.reverse_replicate, List.length_reverse, List.mem_reverse] using this
  · exact leBytes_and_ne_zero bs

end Target

end RustStd
