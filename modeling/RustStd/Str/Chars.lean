import RustStd.Str.MaximalSuffix
import RustStd.Str.Validations
import RustStd.Str.Wtf8

/-!
# Chars of a string

`is_char_boundary` of `core/src/str/mod.rs`, decoding at either end (`next_code_point` and
`next_code_point_reverse` of `core/src/str/validations.rs`, under `Chars`), and `len_utf8`. Decoding
gives back what it leaves of the bytes. A read past the end of the string, or a number that is no
scalar value, ends with `none`.

`isCharBoundary_iff`: the boundaries are the indices that cut well-formed bytes into well-formed
bytes. `Chars.next_append` and `Chars.next_back_append`: decoding gives back the char encoded at
that end.
-/

namespace RustStd

open Utf8 Validations List Nat
open Wtf8 (enc)
open TwoWaySearcher (word getElem?_word)

/-! ## The source -/

def is_utf8_char_boundary (self : UInt8) : Bool := asI8 self ≥ -0x40

def is_char_boundary (self : List UInt8) (index : ℕ) : Bool :=
  if index = 0 then true
  else if h : index ≥ self.length then index = self.length
  else is_utf8_char_boundary (self.get ⟨index, not_le.1 h⟩)

def CONT_MASK : UInt8 := 0b00111111

def utf8_first_byte (byte : UInt8) (width : UInt8) : ℕ := (byte &&& (0x7F >>> width)).toNat

def utf8_acc_cont_byte (ch : ℕ) (byte : UInt8) : ℕ := (ch <<< 6) ||| (byte &&& CONT_MASK).toNat

def utf8_is_cont_byte (byte : UInt8) : Bool := asI8 byte < -64

/-- `bytes.next().unwrap_unchecked()` -/
def nextUnchecked : List UInt8 → Option (UInt8 × List UInt8)
  | [] => none
  | b :: bytes => some (b, bytes)

/-- `bytes.next_back().unwrap_unchecked()` -/
def nextBackUnchecked (bytes : List UInt8) : Option (UInt8 × List UInt8) :=
  bytes.getLast?.map fun b => (b, bytes.dropLast)

def next_code_point : List UInt8 → Option (Option ℕ × List UInt8)
  | [] => some (none, [])
  | x :: bytes =>
    if x < 128 then some (some x.toNat, bytes)
    else do
      let init := utf8_first_byte x 2
      let (y, bytes) ← nextUnchecked bytes
      let ch := utf8_acc_cont_byte init y
      if x ≥ 0xE0 then do
        let (z, bytes) ← nextUnchecked bytes
        let y_z := utf8_acc_cont_byte (y &&& CONT_MASK).toNat z
        let ch := init <<< 12 ||| y_z
        if x ≥ 0xF0 then do
          let (w, bytes) ← nextUnchecked bytes
          let ch := (init &&& 7) <<< 18 ||| utf8_acc_cont_byte y_z w
          some (some ch, bytes)
        else some (some ch, bytes)
      else some (some ch, bytes)

def next_code_point_reverse (bytes : List UInt8) : Option (Option ℕ × List UInt8) :=
  match nextBackUnchecked bytes with
  | none => some (none, bytes)
  | some (w, bytes) =>
    if w < 128 then some (some w.toNat, bytes)
    else do
      let (z, bytes) ← nextBackUnchecked bytes
      let ch := utf8_first_byte z 2
      let (ch, bytes) ← (if utf8_is_cont_byte z then do
        let (y, bytes) ← nextBackUnchecked bytes
        let ch := utf8_first_byte y 3
        let (ch, bytes) ← (if utf8_is_cont_byte y then do
          let (x, bytes) ← nextBackUnchecked bytes
          let ch := utf8_first_byte x 4
          some (utf8_acc_cont_byte ch y, bytes)
        else some (ch, bytes))
        some (utf8_acc_cont_byte ch z, bytes)
      else some (ch, bytes))
      some (some (utf8_acc_cont_byte ch w), bytes)

/-- `char::from_u32_unchecked` -/
def from_u32_unchecked (i : ℕ) : Option Char :=
  if h : i.isValidChar then some (Char.ofNatAux i h) else none

/-- The first char that `Chars` yields. -/
def Chars.next (bytes : List UInt8) : Option (Option Char) := do
  match ← next_code_point bytes with
  | (none, _) => some none
  | (some ch, _) => (from_u32_unchecked ch).map some

/-- The last char that `Chars` yields. -/
def Chars.next_back (bytes : List UInt8) : Option (Option Char) := do
  match ← next_code_point_reverse bytes with
  | (none, _) => some none
  | (some ch, _) => (from_u32_unchecked ch).map some

def MAX_ONE_B : ℕ := 0x80

def MAX_TWO_B : ℕ := 0x800

def MAX_THREE_B : ℕ := 0x10000

def len_utf8 (self : Char) : ℕ :=
  let code := self.val.toNat
  if code < MAX_ONE_B then 1
  else if code < MAX_TWO_B then 2
  else if code < MAX_THREE_B then 3
  else 4

/-! ## Decoding -/

theorem len_utf8_eq (c : Char) : len_utf8 c = (String.utf8EncodeChar c).length := by
  unfold len_utf8 String.utf8EncodeChar
  by_cases h₁ : c.val.toNat < MAX_ONE_B
  · rw [if_pos h₁, if_pos (le_of_lt_succ h₁)]
    rfl
  rw [if_neg h₁, if_neg (fun h => h₁ (lt_succ_of_le h))]
  by_cases h₂ : c.val.toNat < MAX_TWO_B
  · rw [if_pos h₂, if_pos (le_of_lt_succ h₂)]
    rfl
  rw [if_neg h₂, if_neg (fun h => h₂ (lt_succ_of_le h))]
  by_cases h₃ : c.val.toNat < MAX_THREE_B
  · rw [if_pos h₃, if_pos (le_of_lt_succ h₃)]
    rfl
  · rw [if_neg h₃, if_neg (fun h => h₃ (lt_succ_of_le h))]
    rfl

theorem len_utf8_pos (c : Char) : 0 < len_utf8 c := by
  rw [len_utf8_eq]
  exact IsEnc.length_pos ⟨c, rfl⟩

theorem from_u32_unchecked_val (c : Char) : from_u32_unchecked c.val.toNat = some c := by
  have h : c.val.toNat.isValidChar := c.valid
  rw [from_u32_unchecked, dif_pos h]
  rfl

theorem shiftLeft_or {a b k : ℕ} (h : b < 2 ^ k) : a <<< k ||| b = a * 2 ^ k + b := by
  rw [← shiftLeft_add_eq_or_of_lt h, shiftLeft_eq]

theorem cont_mask_toNat (b : UInt8) : (b &&& CONT_MASK).toNat = b.toNat % 64 := by
  rw [UInt8.toNat_and]
  exact and_two_pow_sub_one_eq_mod b.toNat 6

theorem utf8_acc_cont_byte_eq (ch : ℕ) (b : UInt8) :
    utf8_acc_cont_byte ch b = ch * 64 + b.toNat % 64 := by
  rw [utf8_acc_cont_byte, cont_mask_toNat]
  exact shiftLeft_or (mod_lt _ (by decide))

variable (b : UInt8)
include b

theorem utf8_first_byte_two : utf8_first_byte b 2 = b.toNat % 32 := by
  rw [utf8_first_byte, UInt8.toNat_and]
  exact and_two_pow_sub_one_eq_mod b.toNat 5

theorem utf8_first_byte_three : utf8_first_byte b 3 = b.toNat % 16 := by
  rw [utf8_first_byte, UInt8.toNat_and]
  exact and_two_pow_sub_one_eq_mod b.toNat 4

theorem utf8_first_byte_four : utf8_first_byte b 4 = b.toNat % 8 := by
  rw [utf8_first_byte, UInt8.toNat_and]
  exact and_two_pow_sub_one_eq_mod b.toNat 3

theorem utf8_is_cont_byte_iff : utf8_is_cont_byte b = true ↔ Tail b := by
  rw [utf8_is_cont_byte, decide_eq_true_eq, ← not_iff_not, ← asI8_ge_iff]
  exact not_lt

theorem is_utf8_char_boundary_iff : is_utf8_char_boundary b = true ↔ ¬ Tail b := by
  rw [is_utf8_char_boundary, decide_eq_true_eq, ← asI8_ge_iff]

omit b

/-! The payload of a byte of an encoding, and the number put together from the payloads. -/

variable (n : ℕ)
include n

theorem cont_payload : (n % 64 + 0x80) % 2 ^ 8 % 64 = n % 64 := by lia

theorem lead2_payload : (n % 32 + 0xC0) % 2 ^ 8 % 32 = n % 32 := by lia

theorem lead3_payload : (n % 16 + 0xE0) % 2 ^ 8 % 16 = n % 16 := by lia

theorem lead4_payload : (n % 8 + 0xF0) % 2 ^ 8 % 8 = n % 8 := by lia

theorem mod_32_mod_eight : n % 32 % 2 ^ 3 = n % 8 := mod_mod_of_dvd n (by decide)

theorem lead3_payload' : (n % 16 + 0xE0) % 2 ^ 8 % 32 = n % 16 := by lia

omit n

theorem payloads2 {n : ℕ} (h : n ≤ 0x7FF) : n / 64 % 32 * 64 + n % 64 = n := by lia

theorem payloads3 {n : ℕ} (h : n ≤ 0xFFFF) :
    n / 4096 % 16 * 2 ^ 12 + (n / 64 % 64 * 64 + n % 64) = n := by
  rw [show n / 4096 = n / 64 / 64 from (Nat.div_div_eq_div_mul n 64 64).symm]
  lia

theorem payloads4 {n : ℕ} (h : n < 0x110000) :
    n / 262144 % 8 * 2 ^ 18 + ((n / 4096 % 64 * 64 + n / 64 % 64) * 64 + n % 64) = n := by
  rw [show n / 262144 = n / 64 / 64 / 64 by rw [Nat.div_div_eq_div_mul, Nat.div_div_eq_div_mul],
    show n / 4096 = n / 64 / 64 from (Nat.div_div_eq_div_mul n 64 64).symm]
  lia

/-- Decoding at the front gives back the code point encoded there, surrogate or not. -/
theorem next_code_point_enc {n : ℕ} (hn : n < 0x110000) (r : List UInt8) :
    next_code_point (enc n ++ r) = some (some n, r) := by
  unfold enc
  split
  · simp only [cons_append, next_code_point, UInt8.lt_iff_toNat_lt, UInt8.toNat_ofNat',
      UInt8.reduceToNat, nil_append]
    rw [if_pos (by lia)]
    congr 3
    lia
  split
  · rename_i h
    simp only [cons_append, next_code_point, UInt8.lt_iff_toNat_lt, UInt8.le_iff_toNat_le,
      UInt8.toNat_ofNat', UInt8.reduceToNat, nextUnchecked, ge_iff_le, some_bind,
      utf8_acc_cont_byte_eq, utf8_first_byte_two, nil_append]
    rw [if_neg (by lia), if_neg (by lia)]
    congr 3
    rw [lead2_payload, cont_payload]
    exact payloads2 h
  split
  · rename_i h
    simp only [cons_append, next_code_point, UInt8.lt_iff_toNat_lt, UInt8.le_iff_toNat_le,
      UInt8.toNat_ofNat', UInt8.reduceToNat, nextUnchecked, ge_iff_le, some_bind,
      utf8_acc_cont_byte_eq, utf8_first_byte_two, cont_mask_toNat, nil_append]
    rw [if_neg (by lia), if_pos (by lia), if_neg (by lia), shiftLeft_or (by lia)]
    congr 3
    rw [lead3_payload', cont_payload, cont_payload]
    exact payloads3 h
  · simp only [cons_append, next_code_point, UInt8.lt_iff_toNat_lt, UInt8.le_iff_toNat_le,
      UInt8.toNat_ofNat', UInt8.reduceToNat, nextUnchecked, ge_iff_le, some_bind,
      utf8_acc_cont_byte_eq, utf8_first_byte_two, cont_mask_toNat, nil_append]
    rw [if_neg (by lia), if_pos (by lia), if_pos (by lia), shiftLeft_or (by lia),
      show (7 : ℕ) = 2 ^ 3 - 1 from rfl, and_two_pow_sub_one_eq_mod]
    congr 3
    rw [mod_32_mod_eight, lead4_payload, cont_payload, cont_payload, cont_payload]
    exact payloads4 hn

theorem scalar_lt (c : Char) : c.val.toNat < 0x110000 := by
  have : c.val.toNat < 0xD800 ∨ (0xDFFF < c.val.toNat ∧ c.val.toNat < 0x110000) := c.valid
  lia

theorem next_code_point_append (c : Char) (r : List UInt8) :
    next_code_point (String.utf8EncodeChar c ++ r) = some (some c.val.toNat, r) :=
  next_code_point_enc (scalar_lt c) r

theorem Chars.next_nil : Chars.next [] = some none := rfl

theorem Chars.next_append (c : Char) (r : List UInt8) :
    Chars.next (String.utf8EncodeChar c ++ r) = some (some c) := by
  rw [Chars.next, next_code_point_append]
  exact congrArg (Option.map some) (from_u32_unchecked_val c)

theorem nextBackUnchecked_append (r m : List UInt8) (b : UInt8) :
    nextBackUnchecked (r ++ (m ++ [b])) = some (b, r ++ m) := by
  rw [← append_assoc, nextBackUnchecked, getLast?_concat, dropLast_concat]
  rfl

/-- Decoding at the back gives back the char encoded there. -/
theorem next_code_point_reverse_append (c : Char) (r : List UInt8) :
    next_code_point_reverse (r ++ String.utf8EncodeChar c) = some (some c.val.toNat, r) := by
  have h₁ := fun a => nextBackUnchecked_append r [] a
  have h₂ := fun a b => nextBackUnchecked_append r [a] b
  have h₃ := fun a b d => nextBackUnchecked_append r [a, b] d
  have h₄ := fun a b d e => nextBackUnchecked_append r [a, b, d] e
  simp only [cons_append, nil_append, append_nil] at h₁ h₂ h₃ h₄
  unfold String.utf8EncodeChar
  simp only
  split
  · simp only [next_code_point_reverse, h₁, UInt8.lt_iff_toNat_lt, UInt8.toNat_ofNat',
      UInt8.reduceToNat]
    rw [if_pos (by lia)]
    congr 3
    lia
  split
  · rename_i h
    simp only [next_code_point_reverse, h₁, h₂, UInt8.lt_iff_toNat_lt, UInt8.toNat_ofNat',
      UInt8.reduceToNat, some_bind, utf8_acc_cont_byte_eq,
      utf8_first_byte_two, utf8_is_cont_byte_iff, Tail]
    rw [if_neg (by lia), if_neg (by lia), some_bind]
    congr 3
    rw [lead2_payload, cont_payload]
    exact payloads2 h
  split
  · rename_i h
    simp only [next_code_point_reverse, h₁, h₂, h₃, UInt8.lt_iff_toNat_lt, UInt8.toNat_ofNat',
      UInt8.reduceToNat, some_bind, utf8_acc_cont_byte_eq,
      utf8_first_byte_three, utf8_is_cont_byte_iff, Tail]
    rw [if_neg (by lia), if_pos (by lia), if_neg (by lia), some_bind, some_bind]
    congr 3
    rw [lead3_payload, cont_payload, cont_payload]
    refine Eq.trans ?_ (payloads3 h)
    ring
  · simp only [next_code_point_reverse, h₁, h₂, h₃, h₄, UInt8.lt_iff_toNat_lt, UInt8.toNat_ofNat',
      UInt8.reduceToNat, some_bind, utf8_acc_cont_byte_eq,
      utf8_first_byte_four, utf8_is_cont_byte_iff, Tail]
    rw [if_neg (by lia), if_pos (by lia), if_pos (by lia), some_bind, some_bind]
    congr 3
    rw [lead4_payload, cont_payload, cont_payload, cont_payload]
    refine Eq.trans ?_ (payloads4 (scalar_lt c))
    ring

theorem Chars.next_back_nil : Chars.next_back [] = some none := rfl

theorem Chars.next_back_append (c : Char) (r : List UInt8) :
    Chars.next_back (r ++ String.utf8EncodeChar c) = some (some c) := by
  rw [Chars.next_back, next_code_point_reverse_append]
  exact congrArg (Option.map some) (from_u32_unchecked_val c)

/-! ## Boundaries -/

/-- Only the first byte of an encoding is no continuation byte. -/
theorem tail_iff_of_isEnc {m : List UInt8} (h : IsEnc m) {i : ℕ} (hi : i < m.length) :
    Tail (word m i) ↔ 0 < i := by
  have hshape := (isEnc_iff m).1 h
  match m, i, hshape with
  | [a], 0, h => simp only [word, getD_cons_zero, EncShape, Tail] at h ⊢; lia
  | [a, b], 0, h => simp only [word, getD_cons_zero, EncShape, Lead2, Tail] at h ⊢; lia
  | [a, b], 1, h => exact ⟨fun _ => one_pos, fun _ => h.2⟩
  | [a, b, c], 0, h => simp only [word, getD_cons_zero, EncShape, Lead3, Tail] at h ⊢; lia
  | [a, b, c], 1, h =>
    simp only [word, getD_cons_succ, getD_cons_zero, EncShape, Lead3, Tail] at h ⊢; lia
  | [a, b, c], 2, h => exact ⟨fun _ => two_pos, fun _ => h.2⟩
  | [a, b, c, d], 0, h => simp only [word, getD_cons_zero, EncShape, Lead4, Tail] at h ⊢; lia
  | [a, b, c, d], 1, h =>
    simp only [word, getD_cons_succ, getD_cons_zero, EncShape, Lead4, Tail] at h ⊢; lia
  | [a, b, c, d], 2, h => exact ⟨fun _ => two_pos, fun _ => h.2.1⟩
  | [a, b, c, d], 3, h => exact ⟨fun _ => succ_pos 2, fun _ => h.2.2⟩

variable {l : List UInt8} {i : ℕ}

@[simp] theorem is_char_boundary_zero : is_char_boundary l 0 = true := if_pos rfl

@[simp] theorem is_char_boundary_length : is_char_boundary l l.length = true := by
  unfold is_char_boundary
  split
  · rfl
  · rw [dif_pos le_rfl, decide_eq_true rfl]

theorem le_of_is_char_boundary (h : is_char_boundary l i = true) : i ≤ l.length := by
  unfold is_char_boundary at h
  split at h
  · lia
  split at h
  · exact (of_decide_eq_true h).le
  · lia

theorem is_char_boundary_iff_byte (h0 : 0 < i) (hi : i < l.length) :
    is_char_boundary l i = true ↔ ¬ Tail (word l i) := by
  rw [is_char_boundary, if_neg h0.ne', dif_neg (not_le.2 hi), is_utf8_char_boundary_iff, word,
    getD_eq_getElem _ _ hi]
  rfl

theorem Utf8.WellFormed.not_tail_head (h : WellFormed l) (hne : l ≠ []) : ¬ Tail (word l 0) := by
  obtain ⟨m, r, hm, -, rfl⟩ := h.exists_isEnc hne
  have hpos := hm.length_pos
  have := tail_iff_of_isEnc hm hpos
  rw [word, getD_append _ _ _ _ hpos]
  exact fun htail => absurd (this.1 htail) (lt_irrefl 0)

theorem word_append_right (m r : List UInt8) (i : ℕ) : word (m ++ r) (m.length + i) = word r i := by
  rw [word, getD_append_right _ _ _ _ (Nat.le_add_right _ _), Nat.add_sub_cancel_left]
  rfl

theorem word_drop (i j : ℕ) : word (l.drop i) j = word l (i + j) := by
  rw [word, word, getD_eq_getElem?_getD, getElem?_drop, ← getD_eq_getElem?_getD]

/-- **The char boundaries** are the indices that cut well-formed bytes into well-formed bytes. -/
theorem isCharBoundary_iff (hl : WellFormed l) : is_char_boundary l i = true ↔
      i ≤ l.length ∧ WellFormed (l.take i) ∧ WellFormed (l.drop i) := by
  constructor
  · intro h
    obtain ⟨cs, rfl⟩ := hl
    refine ⟨le_of_is_char_boundary h, ?_⟩
    induction cs generalizing i with
    | nil =>
      rw [flatMap_nil, take_nil, drop_nil]
      exact ⟨wellFormed_nil, wellFormed_nil⟩
    | cons c cs ih =>
      have hc : IsEnc (String.utf8EncodeChar c) := ⟨c, rfl⟩
      rw [flatMap_cons] at h ⊢
      rcases Nat.eq_zero_or_pos i with rfl | h0
      · rw [take_zero, drop_zero]
        exact ⟨wellFormed_nil, c :: cs, flatMap_cons⟩
      by_cases hi : i < (String.utf8EncodeChar c).length
      · -- a continuation byte of the first char
        have hbyte := (is_char_boundary_iff_byte h0 (by rw [length_append]; lia)).1 h
        rw [word, getD_append _ _ _ _ hi] at hbyte
        exact absurd ((tail_iff_of_isEnc hc hi).2 h0) hbyte
      obtain ⟨j, rfl⟩ := Nat.exists_eq_add_of_le (not_lt.1 hi)
      have hj : is_char_boundary (cs.flatMap String.utf8EncodeChar) j = true := by
        have hle := le_of_is_char_boundary h
        rw [length_append] at hle
        rcases Nat.eq_zero_or_pos j with rfl | hj0
        · exact is_char_boundary_zero
        rcases Nat.lt_or_ge j (cs.flatMap String.utf8EncodeChar).length with hlt | hge
        · rw [is_char_boundary_iff_byte hj0 hlt]
          rw [is_char_boundary_iff_byte h0 (by rw [length_append]; lia),
            word_append_right] at h
          exact h
        · rw [show j = (cs.flatMap String.utf8EncodeChar).length by lia]
          exact is_char_boundary_length
      obtain ⟨htake, hdrop⟩ := ih hj
      rw [take_length_add_append, drop_length_add_append]
      exact ⟨hc.wellFormed.append htake, hdrop⟩
  · rintro ⟨hle, -, hdrop⟩
    rcases Nat.eq_zero_or_pos i with rfl | h0
    · exact is_char_boundary_zero
    rcases Nat.eq_or_lt_of_le hle with rfl | hlt
    · exact is_char_boundary_length
    rw [is_char_boundary_iff_byte h0 hlt]
    have := hdrop.not_tail_head (ne_nil_of_length_pos (by rw [length_drop]; lia))
    rwa [word_drop] at this

theorem is_char_boundary_append {a b : List UInt8} (ha : WellFormed a) (hb : WellFormed b) :
    is_char_boundary (a ++ b) a.length = true := by
  rw [isCharBoundary_iff (ha.append hb), take_left, drop_left]
  exact ⟨by rw [length_append]; lia, ha, hb⟩

/-- There is no boundary inside the encoding of a char. -/
theorem not_is_char_boundary_of_isEnc {a m b : List UInt8} (hm : IsEnc m) (h0 : a.length < i)
    (hi : i < a.length + m.length) : ¬ is_char_boundary (a ++ (m ++ b)) i = true := by
  obtain ⟨j, rfl⟩ := Nat.exists_eq_add_of_lt h0
  rw [is_char_boundary_iff_byte (by lia) (by simp only [length_append]; lia), not_not,
    add_assoc, word_append_right, word, getD_append _ _ _ _ (by lia)]
  exact (tail_iff_of_isEnc hm (by lia)).2 (succ_pos j)

/-- From a boundary before the end, `Chars` yields the char up to the next boundary. -/
theorem Chars.next_drop (hl : WellFormed l) (hi : is_char_boundary l i = true)
    (hlt : i < l.length) :
    ∃ c, Chars.next (l.drop i) = some (some c) ∧ is_char_boundary l (i + len_utf8 c) = true ∧
      ∀ j, i < j → j < i + len_utf8 c → ¬ is_char_boundary l j = true := by
  obtain ⟨hle, htake, hdrop⟩ := (isCharBoundary_iff hl).1 hi
  obtain ⟨m, r, ⟨c, rfl⟩, hr, heq⟩ :=
    hdrop.exists_isEnc (ne_nil_of_length_pos (by rw [length_drop]; lia))
  have hlen : (l.take i).length = i := length_take_of_le hle
  have hsplit : l = l.take i ++ (String.utf8EncodeChar c ++ r) := by
    rw [← heq, take_append_drop]
  refine ⟨c, heq ▸ Chars.next_append c r, ?_, fun j hj hjlt => ?_⟩
  · have hb := is_char_boundary_append (htake.append (IsEnc.wellFormed ⟨c, rfl⟩)) hr
    rwa [append_assoc, ← hsplit, length_append, hlen, ← len_utf8_eq] at hb
  · rw [hsplit]
    rw [len_utf8_eq] at hjlt
    exact not_is_char_boundary_of_isEnc ⟨c, rfl⟩ (by lia) (by lia)

/-- Up to a boundary after the start, `Chars` yields at the back the char from the boundary
before. -/
theorem Chars.next_back_take (hl : WellFormed l) (hi : is_char_boundary l i = true) (h0 : 0 < i) :
    ∃ c, Chars.next_back (l.take i) = some (some c) ∧ len_utf8 c ≤ i ∧
      is_char_boundary l (i - len_utf8 c) = true ∧
      ∀ j, i - len_utf8 c < j → j < i → ¬ is_char_boundary l j = true := by
  obtain ⟨hle, ⟨cs, hcs⟩, hdrop⟩ := (isCharBoundary_iff hl).1 hi
  have hlen : (l.take i).length = i := length_take_of_le hle
  have hne : cs ≠ [] := by
    rintro rfl
    rw [← hcs, flatMap_nil, length_nil] at hlen
    lia
  obtain ⟨ds, c, rfl⟩ := eq_nil_or_concat cs |>.resolve_left hne
  rw [concat_eq_append, flatMap_append, flatMap_singleton] at hcs
  have hsplit : l = ds.flatMap String.utf8EncodeChar ++ (String.utf8EncodeChar c ++ l.drop i) := by
    rw [← append_assoc, hcs, take_append_drop]
  rw [← hcs, length_append, ← len_utf8_eq] at hlen
  refine ⟨c, hcs ▸ Chars.next_back_append c _, by lia, ?_, fun j hj hjlt => ?_⟩
  · have hb := is_char_boundary_append (a := ds.flatMap String.utf8EncodeChar) ⟨ds, rfl⟩
      ((IsEnc.wellFormed ⟨c, rfl⟩).append hdrop)
    rwa [← hsplit, show (ds.flatMap String.utf8EncodeChar).length = i - len_utf8 c by lia] at hb
  · rw [hsplit]
    rw [len_utf8_eq] at hj hlen
    exact not_is_char_boundary_of_isEnc ⟨c, rfl⟩ (by lia) (by lia)

end RustStd
