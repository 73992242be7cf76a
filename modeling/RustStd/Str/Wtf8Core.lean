import RustStd.Foundations.Slice
import RustStd.Str.Chars

/-!
# WTF-8 slices

The functions of `core/src/wtf8.rs` that look at the bytes of a `Wtf8`, with the encoders of
`core/src/char/methods.rs`: the tests for a surrogate at the ends of a slice, the search for the
next one, and the iterators over the code points and over the UTF-16 units. A slice out of range, an
iterator that must go on and does not, and a number that overflows are faults.
-/

namespace RustStd.Wtf8

open Utf16 Validations List Nat

/-! ## The source -/

/-- `len_utf8` of a `u32`. -/
def len_utf8 (code : ℕ) : ℕ :=
  if code < MAX_ONE_B then 1
  else if code < MAX_TWO_B then 2
  else if code < MAX_THREE_B then 3
  else 4

def TAG_CONT : UInt8 := 0b10000000

def TAG_TWO_B : UInt8 := 0b11000000

def TAG_THREE_B : UInt8 := 0b11100000

def TAG_FOUR_B : UInt8 := 0b11110000

/-- `encode_utf8_raw`, into a buffer of four bytes. -/
def encode_utf8_raw (code : ℕ) : List UInt8 :=
  let len := len_utf8 code
  if len = 1 then [UInt8.ofNat code]
  else
    let last1 := UInt8.ofNat (code >>> 0 &&& 0x3F) ||| TAG_CONT
    let last2 := UInt8.ofNat (code >>> 6 &&& 0x3F) ||| TAG_CONT
    let last3 := UInt8.ofNat (code >>> 12 &&& 0x3F) ||| TAG_CONT
    let last4 := UInt8.ofNat (code >>> 18 &&& 0x3F) ||| TAG_FOUR_B
    if len = 2 then [last2 ||| TAG_TWO_B, last1]
    else if len = 3 then [last3 ||| TAG_THREE_B, last2, last1]
    else [last4, last3, last2, last1]

/-- `len_utf16` of a `u32`. -/
def len_utf16 (code : ℕ) : ℕ := if code &&& 0xFFFF = code then 1 else 2

/-- `encode_utf16_raw`, into a buffer of two units. -/
def encode_utf16_raw (code : ℕ) : List UInt16 :=
  if len_utf16 code = 1 then [UInt16.ofNat code]
  else
    let code := code - 0x10000
    [UInt16.ofNat (code >>> 10) ||| 0xD800, UInt16.ofNat (code &&& 0x3FF) ||| 0xDC00]

def decode_surrogate (second_byte third_byte : UInt8) : UInt16 :=
  (0xD800 : UInt16) ||| ((second_byte.toUInt16 &&& 0x3F) <<< 6) ||| (third_byte.toUInt16 &&& 0x3F)

def final_lead_surrogate (bytes : List UInt8) : Option UInt16 :=
  match bytes.reverse with
  | b3 :: b2 :: b1 :: _ =>
    if b1 = 0xED ∧ 0xA0 ≤ b2 ∧ b2 ≤ 0xAF then some (decode_surrogate b2 b3) else none
  | _ => none

def initial_trail_surrogate (bytes : List UInt8) : Option UInt16 :=
  match bytes with
  | b1 :: b2 :: b3 :: _ =>
    if b1 = 0xED ∧ 0xB0 ≤ b2 ∧ b2 ≤ 0xBF then some (decode_surrogate b2 b3) else none
  | _ => none

/-- A turn of the loop of `next_surrogate`, over the iterator and the position. -/
def next_surrogate_turn : List UInt8 × ℕ → Option (Turn (List UInt8 × ℕ) (Option (ℕ × UInt16)))
  | ([], _) => some (.done none)
  | (b :: iter, pos) =>
    if b < 0x80 then some (.again (iter, pos + 1))
    else if b < 0xE0 then some (.again (iter.drop 1, pos + 2))
    else if b = 0xED then
      match iter with
      | b2 :: b3 :: iter =>
        if b2 ≥ 0xA0 then some (.done (some (pos, decode_surrogate b2 b3)))
        else some (.again (iter, pos + 3))
      | _ => some (.again ([], pos + 3))
    else if b < 0xF0 then some (.again (iter.drop 2, pos + 3))
    else some (.again (iter.drop 3, pos + 4))

def next_surrogate (bytes : List UInt8) (pos : ℕ) : Option (Option (ℕ × UInt16)) := do
  runLoop next_surrogate_turn (bytes.length + 1) (← slice_from bytes pos, pos)

def is_code_point_boundary (bytes : List UInt8) (index : ℕ) : Bool :=
  if index = 0 then true
  else match bytes[index]? with
    | none => index = bytes.length
    | some b => asI8 b ≥ -0x40

def Wtf8CodePoints.next (bytes : List UInt8) : Option (Option ℕ × List UInt8) :=
  next_code_point bytes

structure EncodeWide where
  code_points : List UInt8
  extra : UInt16

def EncodeWide.next (self : EncodeWide) : Option (Option UInt16 × EncodeWide) :=
  if self.extra ≠ 0 then some (some self.extra, { self with extra := 0 })
  else do
    match ← Wtf8CodePoints.next self.code_points with
    | (none, bytes) => some (none, { self with code_points := bytes })
    | (some code_point, bytes) =>
      match encode_utf16_raw code_point with
      | [a] => some (some a, { self with code_points := bytes })
      | [a, b] => some (some a, ⟨bytes, b⟩)
      | _ => none

/-- A turn of a loop that collects the units. -/
def collect_turn (s : EncodeWide × List UInt16) :
    Option (Turn (EncodeWide × List UInt16) (List UInt16)) := do
  match ← s.1.next with
  | (none, _) => some (.done s.2)
  | (some u, self) => some (.again (self, s.2 ++ [u]))

/-- `Wtf8::encode_wide`, collected. -/
def encode_wide (bytes : List UInt8) : Option (List UInt16) :=
  runLoop collect_turn (2 * bytes.length + 2) (⟨bytes, 0⟩, [])

/-! ## Encoding -/

theorem shiftRight_and (code k : ℕ) : code >>> k &&& 0x3F = code / 2 ^ k % 64 := by
  rw [shiftRight_eq_div_pow]
  exact and_two_pow_sub_one_eq_mod _ 6

theorem or_tag_cont {n : ℕ} (h : n < 64) : UInt8.ofNat n ||| TAG_CONT = UInt8.ofNat (n + 0x80) := by
  revert n
  decide

/-- The bytes that the source writes. -/
theorem encode_utf8_raw_eq {code : ℕ} (h : code < 0x110000) : encode_utf8_raw code = enc code := by
  have htwo : ∀ n < 32, UInt8.ofNat (n + 0x80) ||| TAG_TWO_B = UInt8.ofNat (n + 0xC0) := by decide
  have hthree : ∀ n < 16, UInt8.ofNat (n + 0x80) ||| TAG_THREE_B = UInt8.ofNat (n + 0xE0) := by
    decide
  have hfour : ∀ n < 8, UInt8.ofNat n ||| TAG_FOUR_B = UInt8.ofNat (n + 0xF0) := by decide
  have hmod (k : ℕ) := or_tag_cont (mod_lt (code / 2 ^ k) (show 64 > 0 by decide))
  simp only [encode_utf8_raw, enc, shiftRight_and, hmod]
  by_cases h₁ : code < MAX_ONE_B
  · rw [len_utf8, if_pos h₁, if_pos rfl, if_pos (le_of_lt_succ h₁)]
  have h₁' : ¬ code ≤ 0x7f := fun h => h₁ (lt_succ_of_le h)
  by_cases h₂ : code < MAX_TWO_B
  · have h₂' : code < 0x800 := h₂
    have hlast : code / 2 ^ 6 % 64 = code / 64 % 32 := by omega
    rw [len_utf8, if_neg h₁, if_pos h₂, if_neg (by decide), if_pos rfl, if_neg h₁',
      if_pos (le_of_lt_succ h₂), hlast, htwo _ (mod_lt _ (by decide)), Nat.pow_zero,
      Nat.div_one]
  have h₂' : ¬ code ≤ 0x7ff := fun h => h₂ (lt_succ_of_le h)
  by_cases h₃ : code < MAX_THREE_B
  · have h₃' : code < 0x10000 := h₃
    have hlast : code / 2 ^ 12 % 64 = code / 4096 % 16 := by omega
    rw [len_utf8, if_neg h₁, if_neg h₂, if_pos h₃, if_neg (by decide), if_neg (by decide),
      if_pos rfl, if_neg h₁', if_neg h₂', if_pos (le_of_lt_succ h₃), hlast,
      hthree _ (mod_lt _ (by decide)), Nat.pow_zero, Nat.div_one]
    rfl
  · have h₃' : ¬ code ≤ 0xffff := fun h => h₃ (lt_succ_of_le h)
    have hlast : code / 2 ^ 18 % 64 = code / 262144 % 8 := by omega
    rw [len_utf8, if_neg h₁, if_neg h₂, if_neg h₃, if_neg (by decide), if_neg (by decide),
      if_neg (by decide), if_neg h₁', if_neg h₂', if_neg h₃', hlast,
      hfour _ (mod_lt _ (by decide)), Nat.pow_zero, Nat.div_one]
    rfl

/-- The units that the source writes. -/
theorem encode_utf16_raw_eq (c : CodePoint) : encode_utf16_raw c.toNat = units c := by
  have hlen : (c.toNat &&& 0xFFFF = c.toNat) ↔ c.toNat < 0x10000 := by
    rw [show (0xFFFF : ℕ) = 2 ^ 16 - 1 from rfl, and_two_pow_sub_one_eq_mod]
    omega
  rw [encode_utf16_raw, len_utf16, units]
  by_cases h : c.toNat < 0x10000
  · rw [if_pos h, if_pos (if_pos (hlen.mpr h))]
  have hlt := c.lt
  rw [if_neg h, if_neg (by rw [if_neg fun h' => h (hlen.mp h')]; decide)]
  have hor (tag : ℕ) {x : ℕ} (hx : x < 2 ^ 10) :
      UInt16.ofNat x ||| UInt16.ofNat (tag * 2 ^ 10) = UInt16.ofNat (tag * 2 ^ 10 + x) := by
    rw [← shiftLeft_or hx, Nat.or_comm, shiftLeft_eq, UInt16.ofNat_or]
  have hhigh := hor 54 (x := (c.toNat - 0x10000) / 0x400) (by omega)
  have hlow := hor 55 (x := (c.toNat - 0x10000) % 0x400) (by omega)
  dsimp only
  rw [shiftRight_eq_div_pow, show (0x3FF : ℕ) = 2 ^ 10 - 1 from rfl, and_two_pow_sub_one_eq_mod]
  exact congrArg₂ (fun a b => [a, b]) hhigh hlow

/-- The surrogate that the source reads off two bytes. -/
theorem decode_surrogate_eq {n : ℕ} {b x : UInt8} (hn : IsSurrogate n)
    (hb : b.toNat = 0x80 + n / 64 % 64) (hx : x.toNat = 0x80 + n % 64) :
    decode_surrogate b x = UInt16.ofNat n := by
  have htable : ∀ p < 64, 32 ≤ p → 0xD800 ||| p <<< 6 = (832 + p) <<< 6 := by decide
  obtain ⟨hle, hle'⟩ := hn
  have hmask (b : UInt8) : (b.toUInt16 &&& 0x3F).toNat = b.toNat % 64 := by
    rw [UInt16.toNat_and, UInt8.toNat_toUInt16]
    exact and_two_pow_sub_one_eq_mod _ 6
  have hshift : ((b.toUInt16 &&& 0x3F) <<< 6).toNat = (b.toNat % 64) <<< 6 := by
    rw [UInt16.toNat_shiftLeft, hmask]
    refine mod_eq_of_lt ?_
    rw [show (6 : UInt16).toNat % 16 = 6 from rfl, shiftLeft_eq]
    omega
  have hvalue : (0xD800 ||| (b.toNat % 64) <<< 6) ||| x.toNat % 64 = n := by
    rw [htable _ (by omega) (by omega),
      shiftLeft_or (show x.toNat % 64 < 2 ^ 6 from mod_lt _ (by decide))]
    omega
  refine UInt16.toNat_inj.mp ?_
  rw [decode_surrogate, UInt16.toNat_or, UInt16.toNat_or, hshift, hmask]
  rw [toNat_ofNat (by omega)]
  exact hvalue

/-! ## Surrogates at the ends -/

/-- No sequence of encodings ends within one that begins with `0xED`. -/
theorem bytesOf_ne_concat {l : List CodePoint} {r : List UInt8} {y : UInt8}
    (hy : 0x80 ≤ y.toNat) : bytesOf l ≠ r ++ [0xED, y] := by
  intro h
  cases l using reverseRecOn with
  | nil =>
    rw [bytesOf_nil] at h
    exact absurd h.symm (append_ne_nil_of_right_ne_nil _ (by simp))
  | append_singleton l c =>
    rw [bytesOf_append, bytesOf_singleton] at h
    have hc := encoding_enc c
    generalize enc c.toNat = m at h hc
    have hrev := congrArg reverse h
    have hed : (0xED : UInt8).toNat = 0xED := rfl
    cases hc with
    | one a h ha =>
      simp only [reverse_append, reverse_cons, reverse_nil, nil_append,
        cons_append, cons.injEq] at hrev
      rw [← hrev.1] at hy
      omega
    | two a b h ha hb =>
      simp only [reverse_append, reverse_cons, reverse_nil, nil_append,
        cons_append, cons.injEq] at hrev
      rw [hrev.2.1, hed] at ha
      omega
    | three a b x h ha hb hx =>
      simp only [reverse_append, reverse_cons, reverse_nil, nil_append,
        cons_append, cons.injEq] at hrev
      rw [hrev.2.1, hed] at hb
      omega
    | four a b x y h ha hb hx hy =>
      simp only [reverse_append, reverse_cons, reverse_nil, nil_append,
        cons_append, cons.injEq] at hrev
      rw [hrev.2.1, hed] at hx
      omega

theorem final_lead_surrogate_nil : final_lead_surrogate [] = none := rfl

/-- **A lead at the end** -/
theorem final_lead_surrogate_concat (l : List CodePoint) (c : CodePoint) :
    final_lead_surrogate (bytesOf (l ++ [c])) =
      if IsLead c.toNat then some (UInt16.ofNat c.toNat) else none := by
  have hc := encoding_enc c
  rw [bytesOf_append, bytesOf_singleton, final_lead_surrogate]
  by_cases h : IsLead c.toNat
  · obtain ⟨b, x, hm, hb, hx⟩ := hc.surrogate h.surrogate
    have hrange : 0xA0 ≤ b.toNat ∧ b.toNat ≤ 0xAF := by
      obtain ⟨hle, hle'⟩ := h
      omega
    rw [hm, if_pos h, ← decode_surrogate_eq h.surrogate hb hx, reverse_append]
    exact if_pos ⟨rfl, hrange⟩
  rw [if_neg h]
  generalize enc c.toNat = m at hc
  split
  · next b3 b2 b1 r heq =>
    refine if_neg ?_
    rintro ⟨rfl, hle, hle'⟩
    rw [UInt8.le_iff_toNat_le] at hle hle'
    have hle : 0xA0 ≤ b2.toNat := hle
    have hle' : b2.toNat ≤ 0xAF := hle'
    rw [reverse_append] at heq
    cases hc with
    | one a hn ha =>
      obtain ⟨-, hl⟩ : a = b3 ∧ (bytesOf l).reverse = b2 :: 0xED :: r := by simpa using heq
      refine bytesOf_ne_concat (l := l) (r := r.reverse) (y := b2) (by omega) ?_
      rw [← reverse_reverse (bytesOf l), hl]
      simp
    | two a b hn ha hb =>
      obtain ⟨-, rfl, -⟩ : b = b3 ∧ a = b2 ∧ _ := by simpa using heq
      omega
    | three a b x hn ha hb hx =>
      obtain ⟨-, rfl, rfl, -⟩ : x = b3 ∧ b = b2 ∧ a = 0xED ∧ _ := by simpa using heq
      obtain ⟨_, -, hn, hn', hb, -⟩ := (Encoding.three _ b x ‹_› ha hb hx).of_ed
      exact h ⟨by omega, by omega⟩
    | four a b x y hn ha hb hx hy =>
      obtain ⟨-, rfl, rfl, -⟩ : y = b3 ∧ x = b2 ∧ b = 0xED ∧ _ := by simpa using heq
      have hb : 0xED = 0x80 + c.toNat / 4096 % 64 := hb
      omega
  · rfl

/-- **A trail at the start** -/
theorem initial_trail_surrogate_cons (c : CodePoint) (l : List CodePoint) :
    initial_trail_surrogate (bytesOf (c :: l)) =
      if IsTrail c.toNat then some (UInt16.ofNat c.toNat) else none := by
  have hc := encoding_enc c
  rw [bytesOf_cons]
  by_cases h : IsTrail c.toNat
  · obtain ⟨b, x, hm, hb, hx⟩ := hc.surrogate h.surrogate
    have hrange : 0xB0 ≤ b.toNat ∧ b.toNat ≤ 0xBF := by
      obtain ⟨hle, hle'⟩ := h
      omega
    rw [hm, if_pos h, ← decode_surrogate_eq h.surrogate hb hx]
    exact if_pos ⟨rfl, hrange⟩
  rw [if_neg h]
  generalize enc c.toNat = m at hc
  rw [initial_trail_surrogate.eq_def]
  split
  · next b1 b2 b3 r heq =>
    refine if_neg ?_
    rintro ⟨rfl, hle, hle'⟩
    rw [UInt8.le_iff_toNat_le] at hle hle'
    have hle : 0xB0 ≤ b2.toNat := hle
    cases hc with
    | one a hn ha =>
      obtain ⟨rfl, -⟩ := cons.inj heq
      have ha : 0xED = c.toNat := ha
      omega
    | two a b hn ha hb =>
      obtain ⟨rfl, -⟩ := cons.inj heq
      have ha : 0xED = 0xC0 + c.toNat / 64 := ha
      omega
    | three a b x hn ha hb hx =>
      obtain ⟨rfl, rfl, -⟩ : a = 0xED ∧ b = b2 ∧ _ := by simpa using heq
      obtain ⟨_, -, hn, hn', hb, -⟩ := (Encoding.three _ b x ‹_› ha hb hx).of_ed
      exact h ⟨by omega, by omega⟩
    | four a b x y hn ha hb hx hy =>
      obtain ⟨rfl, -⟩ := cons.inj heq
      have ha : 0xED = 0xF0 + c.toNat / 262144 := ha
      omega
  · rfl

/-! ## The next surrogate -/

/-- The first surrogate among code points whose bytes begin at `pos`. -/
def surrogateFrom : List CodePoint → ℕ → Option (ℕ × UInt16)
  | [], _ => none
  | c :: l, pos =>
    if IsSurrogate c.toNat then some (pos, UInt16.ofNat c.toNat)
    else surrogateFrom l (pos + (enc c.toNat).length)

/-- A turn passes one code point. -/
theorem next_surrogate_turn_cons (c : CodePoint) (l : List CodePoint) (pos : ℕ) :
    next_surrogate_turn (bytesOf (c :: l), pos) =
      if IsSurrogate c.toNat then some (.done (some (pos, UInt16.ofNat c.toNat)))
      else some (.again (bytesOf l, pos + (enc c.toNat).length)) := by
  have hc := encoding_enc c
  rw [bytesOf_cons]
  by_cases h : IsSurrogate c.toNat
  · obtain ⟨b, x, hm, hb, hx⟩ := hc.surrogate h
    have hle : b ≥ 0xA0 := by
      obtain ⟨hle, hle'⟩ := h
      exact UInt8.le_iff_toNat_le.mpr (show 0xA0 ≤ b.toNat by omega)
    rw [hm, if_pos h, ← decode_surrogate_eq h hb hx]
    exact if_pos hle
  rw [if_neg h]
  rw [IsSurrogate] at h
  have hlt (a : UInt8) (n : ℕ) (hn : n < 256) : a < UInt8.ofNat n ↔ a.toNat < n := by
    rw [UInt8.lt_iff_toNat_lt, UInt8.toNat_ofNat', mod_eq_of_lt hn]
  generalize enc c.toNat = m at hc
  cases hc with
  | one a hn ha => exact if_pos ((hlt a 0x80 (by decide)).mpr (by omega))
  | two a b hn ha hb =>
    have h₁ : ¬ a < 0x80 := fun h => by
      have := (hlt a 0x80 (by decide)).mp h
      omega
    exact (if_neg h₁).trans (if_pos ((hlt a 0xE0 (by decide)).mpr (by omega)))
  | three a b x hn ha hb hx =>
    have h₁ : ¬ a < 0x80 := fun h => by
      have := (hlt a 0x80 (by decide)).mp h
      omega
    have h₂ : ¬ a < 0xE0 := fun h => by
      have := (hlt a 0xE0 (by decide)).mp h
      omega
    have h₃ : a < 0xF0 := (hlt a 0xF0 (by decide)).mpr (by omega)
    simp only [cons_append, nil_append, next_surrogate_turn, if_neg h₁, if_neg h₂]
    by_cases hed : a = 0xED
    · have hb' : ¬ b ≥ 0xA0 := by
        subst hed
        have ha : 0xED = 0xE0 + c.toNat / 4096 := ha
        intro hge
        have hge : 0xA0 ≤ b.toNat := UInt8.le_iff_toNat_le.mp hge
        omega
      rw [if_pos hed, if_neg hb']
      rfl
    · rw [if_neg hed, if_pos h₃]
      rfl
  | four a b x y hn ha hb hx hy =>
    have hge (n : ℕ) (hn : n ≤ 0xF0) : ¬ a < UInt8.ofNat n := fun h => by
      have := (hlt a n (by omega)).mp h
      omega
    have hed : a ≠ 0xED := by
      rintro rfl
      have ha : 0xED = 0xF0 + c.toNat / 262144 := ha
      omega
    have h₁ : ¬ a < 0x80 := hge 0x80 (by decide)
    have h₂ : ¬ a < 0xE0 := hge 0xE0 (by decide)
    have h₃ : ¬ a < 0xF0 := hge 0xF0 le_rfl
    simp only [cons_append, nil_append, next_surrogate_turn, if_neg h₁, if_neg h₂,
      if_neg hed, if_neg h₃]
    rfl

/-- **The search for a surrogate** from a boundary on. -/
theorem next_surrogate_eq (l m : List CodePoint) :
    next_surrogate (bytesOf (l ++ m)) (bytesOf l).length =
      some (surrogateFrom m (bytesOf l).length) := by
  have hle : (bytesOf l).length ≤ (bytesOf (l ++ m)).length := by
    rw [bytesOf_append, length_append]
    exact le_add_right _ _
  rw [next_surrogate, slice_from_eq hle]
  have hdrop : (bytesOf (l ++ m)).drop (bytesOf l).length = bytesOf m := by
    rw [bytesOf_append, drop_left]
  simp only [some_bind, hdrop]
  obtain ⟨r, hrun, rfl⟩ := runLoop_spec next_surrogate_turn
    (fun s => ∃ k pos, s = (bytesOf k, pos) ∧
      surrogateFrom k pos = surrogateFrom m (bytesOf l).length)
    (fun s => s.1.length) (fun r => r = surrogateFrom m (bytesOf l).length) (fun s hs => by
      obtain ⟨k, pos, rfl, hk⟩ := hs
      cases k with
      | nil => exact hk
      | cons c k =>
        rw [next_surrogate_turn_cons]
        rw [surrogateFrom] at hk
        split
        · next hc =>
          rw [if_pos hc] at hk
          exact hk
        · next hc =>
          rw [if_neg hc] at hk
          refine ⟨⟨k, _, rfl, hk⟩, ?_⟩
          have := (encoding_enc c).length_pos
          dsimp only
          rw [bytesOf_cons, length_append]
          omega)
    ((bytesOf (l ++ m)).length + 1) (bytesOf m, (bytesOf l).length) ⟨m, _, rfl, rfl⟩ (by
      dsimp only
      rw [bytesOf_append, length_append]
      omega)
  exact hrun

/-! ## Boundaries -/

/-- The first byte of an encoding is the only one that does not continue it. -/
theorem Encoding.tail_iff {n : ℕ} {m : List UInt8} (h : Encoding n m) (hn : n < 0x110000) {i : ℕ}
    {x : UInt8} (hx : m[i]? = some x) : Utf8.Tail x ↔ i ≠ 0 := by
  cases h with
  | one a h ha =>
    rcases i with _ | i <;> cases hx
    simp only [Utf8.Tail, ne_eq, not_true, iff_false]
    omega
  | two a b h ha hb =>
    rcases i with _ | _ | i <;> cases hx <;>
      simp only [Utf8.Tail, ne_eq, not_true, iff_false, add_one_ne_zero, not_false_eq_true,
        iff_true] <;> omega
  | three a b x h ha hb hx' =>
    rcases i with _ | _ | _ | i <;> cases hx <;>
      simp only [Utf8.Tail, ne_eq, not_true, iff_false, add_one_ne_zero, not_false_eq_true,
        iff_true] <;> omega
  | four a b x y h ha hb hx' hy =>
    rcases i with _ | _ | _ | _ | i <;> cases hx <;>
      simp only [Utf8.Tail, ne_eq, not_true, iff_false, add_one_ne_zero, not_false_eq_true,
        iff_true] <;> omega

theorem is_code_point_boundary_eq (bytes : List UInt8) (index : ℕ) :
    is_code_point_boundary bytes index = true ↔
      index = 0 ∨ index = bytes.length ∨ ∃ b, bytes[index]? = some b ∧ ¬ Utf8.Tail b := by
  rw [is_code_point_boundary]
  by_cases h0 : index = 0
  · simp [h0]
  rw [if_neg h0]
  cases h : bytes[index]? with
  | none => simp [h0]
  | some b =>
    have hlt : index ≠ bytes.length := by
      rintro rfl
      rw [getElem?_eq_none le_rfl] at h
      cases h
    simp [h0, hlt, ← asI8_ge_iff]

/-- **A code point boundary** lies between two code points. -/
theorem is_code_point_boundary_iff (l : List CodePoint) (index : ℕ) :
    is_code_point_boundary (bytesOf l) index = true ↔
      ∃ a b, l = a ++ b ∧ index = (bytesOf a).length := by
  rw [is_code_point_boundary_eq]
  constructor
  · intro h
    induction l generalizing index with
    | nil =>
      obtain rfl : index = 0 := by simpa using h
      exact ⟨[], [], rfl, rfl⟩
    | cons c l ih =>
      rw [bytesOf_cons] at h
      obtain rfl | h0 := eq_or_ne index 0
      · exact ⟨[], c :: l, rfl, rfl⟩
      rcases lt_or_ge index (enc c.toNat).length with hlt | hge
      · obtain rfl | rfl | ⟨b, hb, htail⟩ := h
        · exact absurd rfl h0
        · rw [length_append] at hlt
          omega
        · rw [getElem?_append_left hlt] at hb
          exact absurd (((encoding_enc c).tail_iff c.lt hb).mpr h0) htail
      · obtain ⟨j, rfl⟩ := Nat.exists_eq_add_of_le hge
        rw [getElem?_append_right hge, Nat.add_sub_cancel_left, length_append] at h
        have hj := h.resolve_left h0
        obtain ⟨a, b, rfl, rfl⟩ := ih j (.inr (hj.imp_left add_left_cancel))
        exact ⟨c :: a, b, rfl, by rw [bytesOf_cons, length_append]⟩
  · rintro ⟨a, b, rfl, rfl⟩
    rw [bytesOf_append]
    cases b with
    | nil => exact .inr (.inl (by simp))
    | cons c b =>
      obtain ⟨x, t, hm, -⟩ := (encoding_enc c).lead c.lt
      refine .inr (.inr ⟨x, ?_, ?_⟩)
      · rw [getElem?_append_right le_rfl, Nat.sub_self, bytesOf_cons, hm]
        rfl
      · rw [(encoding_enc c).tail_iff c.lt (i := 0) (by rw [hm]; rfl)]
        exact fun h => h rfl

/-! ## The iterators -/

/-- **Decoding** takes the first code point off. -/
theorem next_cons (c : CodePoint) (l : List CodePoint) :
    Wtf8CodePoints.next (bytesOf (c :: l)) = some (some c.toNat, bytesOf l) :=
  next_code_point_enc c.lt (bytesOf l)

/-- The units that `EncodeWide` has still to yield. -/
def EncodeWide.Yields (self : EncodeWide) (v : List UInt16) : Prop :=
  ∃ l, bytesOf l = self.code_points ∧
    v = (if self.extra ≠ 0 then [self.extra] else []) ++ l.flatMap units

/-- What is left for the loop. -/
def EncodeWide.size (self : EncodeWide) : ℕ :=
  2 * self.code_points.length + if self.extra ≠ 0 then 1 else 0

/-- **`EncodeWide::next`** yields the first unit. -/
theorem EncodeWide.next_spec {self : EncodeWide} {v : List UInt16} (h : self.Yields v) :
    v = [] ∧ self.next = some (none, self) ∨
      ∃ u v' self', v = u :: v' ∧ self.next = some (some u, self') ∧ self'.Yields v' ∧
        self'.size < self.size := by
  obtain ⟨bytes, extra⟩ := self
  obtain ⟨l, rfl, rfl⟩ := h
  by_cases hextra : extra ≠ 0
  · rw [if_pos hextra]
    refine .inr ⟨extra, l.flatMap units, ⟨bytesOf l, 0⟩, rfl, if_pos hextra, ⟨l, rfl, rfl⟩, ?_⟩
    simp only [EncodeWide.size, if_pos hextra]
    exact lt_succ_self _
  rw [if_neg hextra, nil_append]
  obtain rfl : extra = 0 := not_not.mp hextra
  cases l with
  | nil => exact .inl ⟨rfl, rfl⟩
  | cons c l =>
    have hpos := (encoding_enc c).length_pos
    have hlen : (bytesOf (c :: l)).length = (enc c.toNat).length + (bytesOf l).length := by
      rw [bytesOf_cons, length_append]
    obtain ⟨u, rfl⟩ | ⟨lead, trail, hlead, htrail, rfl⟩ := eq_ofUnit_or_pair c
    · refine .inr ⟨u, l.flatMap units, ⟨bytesOf l, 0⟩, ?_, ?_, ⟨l, rfl, rfl⟩, ?_⟩
      · rw [flatMap_cons, units_ofUnit]
        rfl
      · simp [EncodeWide.next, next_cons, some_bind, encode_utf16_raw_eq, units_ofUnit]
      · simp only [EncodeWide.size, ne_eq, not_true, if_false, hlen]
        omega
    have hne : trail ≠ 0 := by
      rintro rfl
      exact absurd htrail.1 (by decide)
    refine .inr ⟨lead, trail :: l.flatMap units, ⟨bytesOf l, trail⟩, ?_, ?_, ⟨l, rfl, ?_⟩, ?_⟩
    · rw [flatMap_cons, units_pair hlead htrail]
      rfl
    · simp [EncodeWide.next, next_cons, some_bind, encode_utf16_raw_eq, units_pair hlead htrail]
    · rw [if_pos hne]
      rfl
    · simp only [EncodeWide.size, ne_eq, not_true, if_false, hlen, hne, not_false_eq_true,
        if_true]
      omega

/-- **`encode_wide`** yields the units of the code points. -/
theorem encode_wide_eq (l : List CodePoint) : encode_wide (bytesOf l) = some (l.flatMap units) := by
  obtain ⟨r, hrun, rfl⟩ := runLoop_spec collect_turn
    (fun s => ∃ v, s.1.Yields v ∧ s.2 ++ v = l.flatMap units) (fun s => s.1.size)
    (fun r => r = l.flatMap units) (fun s hs => by
      obtain ⟨v, hv, hall⟩ := hs
      rw [collect_turn]
      obtain ⟨rfl, hnext⟩ | ⟨u, v, self', rfl, hnext, hv', hsize⟩ := EncodeWide.next_spec hv
      · rw [hnext, ← hall, append_nil]
        rfl
      · rw [hnext]
        exact ⟨⟨v, hv', by rw [← hall, append_assoc]; rfl⟩, hsize⟩)
    (2 * (bytesOf l).length + 2) (⟨bytesOf l, 0⟩, []) ⟨_, ⟨l, rfl, rfl⟩, rfl⟩ (by
      dsimp only [EncodeWide.size]
      split <;> omega)
  exact hrun

end RustStd.Wtf8
