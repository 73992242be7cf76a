import Mathlib.Order.Bounds.Basic
import Mathlib.Tactic.Ring
import Mathlib.Data.List.Basic

/-!
# Well-formed UTF-8

What the byte sequences of RFC 3629 are, apart from any program that checks them: `WellFormed`
says that a sequence is the concatenation of the encodings of scalar values, `IsEncPrefix` that
it can be continued to the encoding of one scalar value. Both are decided by the shape of the
bytes (`isEnc_iff`, `isEncPrefix_iff`): the lead byte fixes the length and the range of the
second byte, and every later byte is a continuation byte.
-/

namespace RustStd.Utf8

open List

/-- The bytes are the encoding of one scalar value. -/
def IsEnc (l : List UInt8) : Prop := ∃ c : Char, String.utf8EncodeChar c = l

/-- The bytes begin the encoding of some scalar value. -/
def IsEncPrefix (l : List UInt8) : Prop := ∃ c : Char, l <+: String.utf8EncodeChar c

/-- The bytes are the encodings of a sequence of scalar values, one after the other. -/
def WellFormed (l : List UInt8) : Prop := ∃ cs : List Char, cs.flatMap String.utf8EncodeChar = l

/-! ## The shape of an encoding -/

/-- A continuation byte. -/
def Tail (b : UInt8) : Prop := 0x80 ≤ b.toNat ∧ b.toNat ≤ 0xBF

instance (b : UInt8) : Decidable (Tail b) := inferInstanceAs (Decidable (_ ∧ _))

/-- Lead byte of a two-byte encoding. -/
def Lead2 (a : UInt8) : Prop := 0xC2 ≤ a.toNat ∧ a.toNat ≤ 0xDF

/-- Lead and second byte of a three-byte encoding. -/
def Lead3 (a b : UInt8) : Prop :=
  (a.toNat = 0xE0 ∧ 0xA0 ≤ b.toNat ∧ b.toNat ≤ 0xBF) ∨
  (0xE1 ≤ a.toNat ∧ a.toNat ≤ 0xEC ∧ Tail b) ∨
  (a.toNat = 0xED ∧ 0x80 ≤ b.toNat ∧ b.toNat ≤ 0x9F) ∨
  (0xEE ≤ a.toNat ∧ a.toNat ≤ 0xEF ∧ Tail b)

/-- Lead and second byte of a four-byte encoding. -/
def Lead4 (a b : UInt8) : Prop :=
  (a.toNat = 0xF0 ∧ 0x90 ≤ b.toNat ∧ b.toNat ≤ 0xBF) ∨
  (0xF1 ≤ a.toNat ∧ a.toNat ≤ 0xF3 ∧ Tail b) ∨
  (a.toNat = 0xF4 ∧ 0x80 ≤ b.toNat ∧ b.toNat ≤ 0x8F)

/-- The shape of the encoding of one scalar value. -/
def EncShape : List UInt8 → Prop
  | [a] => a.toNat < 0x80
  | [a, b] => Lead2 a ∧ Tail b
  | [a, b, c] => Lead3 a b ∧ Tail c
  | [a, b, c, d] => Lead4 a b ∧ Tail c ∧ Tail d
  | _ => False

/-- The shape of a sequence that begins an encoding. -/
def PrefixShape : List UInt8 → Prop
  | [] => True
  | [a] => a.toNat < 0x80 ∨ (0xC2 ≤ a.toNat ∧ a.toNat ≤ 0xF4)
  | [a, b] => (Lead2 a ∧ Tail b) ∨ Lead3 a b ∨ Lead4 a b
  | [a, b, c] => (Lead3 a b ∨ Lead4 a b) ∧ Tail c
  | [a, b, c, d] => Lead4 a b ∧ Tail c ∧ Tail d
  | _ => False

theorem encShape_utf8EncodeChar (c : Char) : EncShape (String.utf8EncodeChar c) := by
  have hv := c.valid
  unfold String.utf8EncodeChar
  simp only
  split
  · simp only [EncShape, UInt8.toNat_ofNat']; omega
  split
  · simp only [EncShape, Lead2, Tail, UInt8.toNat_ofNat']; omega
  split
  · simp only [EncShape, Lead3, Tail, UInt8.toNat_ofNat']; omega
  · simp only [EncShape, Lead4, Tail, UInt8.toNat_ofNat']; omega

/-- The scalar value with a given number. -/
private theorem exists_char {n : ℕ} (h : n < 0xD800 ∨ (0xDFFF < n ∧ n < 0x110000)) :
    ∃ c : Char, c.val.toNat = n := by
  refine ⟨Char.ofNat n, ?_⟩
  have hn : n.isValidChar := h
  rw [Char.ofNat, dif_pos hn]
  rfl

private theorem eq_ofNat {b : UInt8} {n : ℕ} (h : n = b.toNat) : UInt8.ofNat n = b := by
  subst h
  exact UInt8.ofNat_toNat

variable {l : List UInt8}

theorem isEnc_of_encShape (h : EncShape l) : IsEnc l := by
  match l, h with
  | [a], h =>
    simp only [EncShape] at h
    obtain ⟨c, hc⟩ := exists_char (n := a.toNat) (by omega)
    refine ⟨c, ?_⟩
    simp only [String.utf8EncodeChar, hc]
    rw [if_pos (by omega)]
    simp
  | [a, b], h =>
    simp only [EncShape, Lead2, Tail] at h
    obtain ⟨c, hc⟩ := exists_char (n := (a.toNat - 0xC0) * 64 + (b.toNat - 0x80)) (by omega)
    refine ⟨c, ?_⟩
    simp only [String.utf8EncodeChar, hc]
    rw [if_neg (by omega), if_pos (by omega)]
    rw [eq_ofNat (b := a) (by omega), eq_ofNat (b := b) (by omega)]
  | [a, b, x], h =>
    simp only [EncShape, Lead3, Tail] at h
    obtain ⟨c, hc⟩ := exists_char
      (n := (a.toNat - 0xE0) * 4096 + (b.toNat - 0x80) * 64 + (x.toNat - 0x80)) (by omega)
    refine ⟨c, ?_⟩
    simp only [String.utf8EncodeChar, hc]
    rw [if_neg (by omega), if_neg (by omega), if_pos (by omega)]
    rw [eq_ofNat (b := a) (by omega), eq_ofNat (b := b) (by omega), eq_ofNat (b := x) (by omega)]
  | [a, b, x, y], h =>
    simp only [EncShape, Lead4, Tail] at h
    obtain ⟨c, hc⟩ := exists_char
      (n := (a.toNat - 0xF0) * 262144 + (b.toNat - 0x80) * 4096 + (x.toNat - 0x80) * 64 +
        (y.toNat - 0x80)) (by omega)
    refine ⟨c, ?_⟩
    simp only [String.utf8EncodeChar, hc]
    rw [if_neg (by omega), if_neg (by omega), if_neg (by omega)]
    rw [eq_ofNat (b := a) (by omega), eq_ofNat (b := b) (by omega), eq_ofNat (b := x) (by omega),
      eq_ofNat (b := y) (by omega)]

/-- **One scalar value is encoded by exactly the sequences of that shape.** -/
theorem isEnc_iff (l : List UInt8) : IsEnc l ↔ EncShape l :=
  ⟨fun ⟨c, hc⟩ => hc ▸ encShape_utf8EncodeChar c, isEnc_of_encShape⟩

theorem prefixShape_of_prefix {l m : List UInt8} (h : EncShape m) (hl : l <+: m) :
    PrefixShape l := by
  obtain ⟨r, rfl⟩ := hl
  match l, r, h with
  | [], _, _ => trivial
  | [a], r, h =>
    match r, h with
    | [], h => exact Or.inl h
    | [b], h => simp only [cons_append, nil_append, EncShape, Lead2, PrefixShape] at h ⊢; omega
    | [b, c], h =>
      simp only [cons_append, nil_append, EncShape, Lead3, PrefixShape] at h ⊢; omega
    | [b, c, d], h =>
      simp only [cons_append, nil_append, EncShape, Lead4, PrefixShape] at h ⊢; omega
  | [a, b], r, h =>
    match r, h with
    | [], h => exact Or.inl h
    | [c], h => exact Or.inr (Or.inl h.1)
    | [c, d], h => exact Or.inr (Or.inr h.1)
  | [a, b, c], r, h =>
    match r, h with
    | [], h => exact ⟨Or.inl h.1, h.2⟩
    | [d], h => exact ⟨Or.inr h.1, h.2.1⟩
  | [a, b, c, d], r, h =>
    match r, h with
    | [], h => exact h

private theorem tail_80 : Tail 0x80 := by decide

/-- A sequence of that shape is continued to an encoding by continuation bytes. -/
theorem encShape_of_prefixShape (h : PrefixShape l) : ∃ m, EncShape m ∧ l <+: m := by
  match l, h with
  | [], _ => exact ⟨[0], Nat.zero_lt_succ _, nil_prefix⟩
  | [a], h =>
    simp only [PrefixShape] at h
    by_cases h1 : a.toNat < 0x80
    · exact ⟨[a], h1, prefix_refl _⟩
    by_cases h2 : a.toNat ≤ 0xDF
    · exact ⟨[a, 0x80], ⟨⟨by omega, h2⟩, tail_80⟩, prefix_append [a] _⟩
    by_cases h3 : a.toNat ≤ 0xEF
    · by_cases h4 : a.toNat = 0xE0
      · exact ⟨[a, 0xA0, 0x80], ⟨Or.inl ⟨h4, by decide⟩, tail_80⟩, prefix_append [a] _⟩
      · refine ⟨[a, 0x80, 0x80], ⟨?_, tail_80⟩, prefix_append [a] _⟩
        have ht := tail_80
        have : (0x80 : UInt8).toNat = 0x80 := rfl
        simp only [Lead3, ht, and_true, this]
        omega
    · by_cases h4 : a.toNat = 0xF0
      · exact ⟨[a, 0x90, 0x80, 0x80], ⟨Or.inl ⟨h4, by decide⟩, tail_80, tail_80⟩,
          prefix_append [a] _⟩
      · refine ⟨[a, 0x80, 0x80, 0x80], ⟨?_, tail_80, tail_80⟩, prefix_append [a] _⟩
        have ht := tail_80
        have : (0x80 : UInt8).toNat = 0x80 := rfl
        simp only [Lead4, ht, and_true, this]
        omega
  | [a, b], h =>
    rcases h with h | h | h
    · exact ⟨[a, b], h, prefix_refl _⟩
    · exact ⟨[a, b, 0x80], ⟨h, tail_80⟩, prefix_append [a, b] _⟩
    · exact ⟨[a, b, 0x80, 0x80], ⟨h, tail_80, tail_80⟩, prefix_append [a, b] _⟩
  | [a, b, c], h =>
    rcases h with ⟨h | h, hc⟩
    · exact ⟨[a, b, c], ⟨h, hc⟩, prefix_refl _⟩
    · exact ⟨[a, b, c, 0x80], ⟨h, hc, tail_80⟩, prefix_append [a, b, c] _⟩
  | [a, b, c, d], h => exact ⟨[a, b, c, d], h, prefix_refl _⟩

/-- **A sequence begins an encoding exactly when it has that shape.** -/
theorem isEncPrefix_iff (l : List UInt8) : IsEncPrefix l ↔ PrefixShape l := by
  constructor
  · rintro ⟨c, hc⟩
    exact prefixShape_of_prefix (encShape_utf8EncodeChar c) hc
  · intro h
    obtain ⟨m, hm, hl⟩ := encShape_of_prefixShape h
    obtain ⟨c, rfl⟩ := isEnc_of_encShape hm
    exact ⟨c, hl⟩

/-! ## Sequences of encodings -/

theorem IsEnc.length_pos (h : IsEnc l) : 0 < l.length := by
  obtain ⟨c, rfl⟩ := h
  simpa using c.utf8Size_pos

theorem wellFormed_nil : WellFormed [] := ⟨[], rfl⟩

theorem WellFormed.append {l m : List UInt8} (hl : WellFormed l) (hm : WellFormed m) :
    WellFormed (l ++ m) := by
  obtain ⟨cs, rfl⟩ := hl
  obtain ⟨ds, rfl⟩ := hm
  exact ⟨cs ++ ds, by simp⟩

theorem IsEnc.wellFormed (h : IsEnc l) : WellFormed l := by
  obtain ⟨c, rfl⟩ := h
  exact ⟨[c], by simp⟩

/-- A non-empty well-formed sequence begins with the encoding of a scalar value. -/
theorem WellFormed.exists_isEnc (h : WellFormed l) (hne : l ≠ []) :
    ∃ m r, IsEnc m ∧ WellFormed r ∧ l = m ++ r := by
  obtain ⟨cs, rfl⟩ := h
  match cs with
  | [] => exact (hne rfl).elim
  | c :: cs => exact ⟨_, _, ⟨c, rfl⟩, ⟨cs, rfl⟩, by simp⟩

/-- The lead byte of an encoding fixes its length. -/
theorem EncShape.length_eq {a : UInt8} {l m : List UInt8} (hl : EncShape (a :: l))
    (hm : EncShape (a :: m)) : l.length = m.length := by
  match l, m, hl, hm with
  | [], [], _, _ => rfl
  | [], [_], hl, hm => simp only [EncShape, Lead2] at hl hm; omega
  | [], [_, _], hl, hm => simp only [EncShape, Lead3] at hl hm; omega
  | [], [_, _, _], hl, hm => simp only [EncShape, Lead4] at hl hm; omega
  | [_], [], hl, hm => simp only [EncShape, Lead2] at hl hm; omega
  | [_], [_], _, _ => rfl
  | [_], [_, _], hl, hm => simp only [EncShape, Lead2, Lead3] at hl hm; omega
  | [_], [_, _, _], hl, hm => simp only [EncShape, Lead2, Lead4] at hl hm; omega
  | [_, _], [], hl, hm => simp only [EncShape, Lead3] at hl hm; omega
  | [_, _], [_], hl, hm => simp only [EncShape, Lead2, Lead3] at hl hm; omega
  | [_, _], [_, _], _, _ => rfl
  | [_, _], [_, _, _], hl, hm => simp only [EncShape, Lead3, Lead4] at hl hm; omega
  | [_, _, _], [], hl, hm => simp only [EncShape, Lead4] at hl hm; omega
  | [_, _, _], [_], hl, hm => simp only [EncShape, Lead2, Lead4] at hl hm; omega
  | [_, _, _], [_, _], hl, hm => simp only [EncShape, Lead3, Lead4] at hl hm; omega
  | [_, _, _], [_, _, _], _, _ => rfl

/-- **The encodings are prefix-free.** -/
theorem IsEnc.eq_of_append_eq {l m r s : List UInt8} (hl : IsEnc l) (hm : IsEnc m)
    (h : l ++ r = m ++ s) : l = m ∧ r = s := by
  have hlen : l.length = m.length := by
    match l, m, hl.length_pos, hm.length_pos, h with
    | a :: l, b :: m, _, _, h =>
      obtain ⟨rfl, -⟩ := cons.inj h
      have := EncShape.length_eq ((isEnc_iff _).1 hl) ((isEnc_iff _).1 hm)
      simpa using this
  exact append_inj h hlen

/-- What follows a well-formed prefix of a well-formed sequence is well-formed. -/
theorem WellFormed.of_append {l r : List UInt8} (hl : WellFormed l) (h : WellFormed (l ++ r)) :
    WellFormed r := by
  obtain ⟨cs, rfl⟩ := hl
  induction cs with
  | nil => simpa using h
  | cons c cs ih =>
    obtain ⟨m, s, hm, hs, heq⟩ := h.exists_isEnc (by simp)
    rw [flatMap_cons, append_assoc] at heq
    obtain ⟨-, rfl⟩ := IsEnc.eq_of_append_eq ⟨c, rfl⟩ hm heq
    exact ih hs

theorem isEnc_singleton {b : UInt8} (h : b.toNat < 128) : IsEnc [b] := isEnc_of_encShape h

/-- A run of ASCII bytes is well-formed. -/
theorem wellFormed_of_ascii (h : ∀ b ∈ l, b.toNat < 128) : WellFormed l := by
  induction l with
  | nil => exact wellFormed_nil
  | cons b l ih =>
    have htail := ih fun x hx => h x (mem_cons_of_mem _ hx)
    exact (isEnc_singleton (h b (mem_cons_self ..))).wellFormed.append htail

/-- The bytes begin the encoding of some scalar value and do not complete it. -/
def IsProperEncPrefix (l : List UInt8) : Prop :=
  ∃ c : Char, l <+: String.utf8EncodeChar c ∧ l ≠ String.utf8EncodeChar c

theorem IsProperEncPrefix.not_isEnc (h : IsProperEncPrefix l) : ¬ IsEnc l := by
  rintro hl
  obtain ⟨c, ⟨r, hr⟩, hne⟩ := h
  exact hne (hl.eq_of_append_eq (s := []) ⟨c, rfl⟩ (by simpa using hr)).1

theorem isProperEncPrefix_iff (l : List UInt8) :
    IsProperEncPrefix l ↔ PrefixShape l ∧ ¬ EncShape l := by
  rw [← isEncPrefix_iff, ← isEnc_iff]
  constructor
  · intro h
    obtain ⟨c, hc, -⟩ := id h
    exact ⟨⟨c, hc⟩, h.not_isEnc⟩
  · rintro ⟨⟨c, hc⟩, hn⟩
    exact ⟨c, hc, fun heq => hn ⟨c, heq.symm⟩⟩

end RustStd.Utf8
