import RustStd.Foundations.Utf16
import RustStd.Str.Utf8

/-!
# Well-formed WTF-8

Generalized UTF-8 encodes surrogates by the rule for the code points around them. WTF-8 is what it
makes of code points in which no lead is directly followed by a trail, apart from any program that
builds or reads it. The lead byte tells the length of an encoding (`encoding_enc`), and without
surrogates the bytes are UTF-8 (`wellFormed_iff_scalars`).
-/

namespace RustStd.Wtf8

open Utf16 List

/-- The bytes of a code point, by the rule of UTF-8. -/
def enc (n : ℕ) : List UInt8 :=
  if n ≤ 0x7f then [UInt8.ofNat n]
  else if n ≤ 0x7ff then [UInt8.ofNat (n / 64 % 32 + 0xC0), UInt8.ofNat (n % 64 + 0x80)]
  else if n ≤ 0xffff then
    [UInt8.ofNat (n / 4096 % 16 + 0xE0), UInt8.ofNat (n / 64 % 64 + 0x80),
      UInt8.ofNat (n % 64 + 0x80)]
  else
    [UInt8.ofNat (n / 262144 % 8 + 0xF0), UInt8.ofNat (n / 4096 % 64 + 0x80),
      UInt8.ofNat (n / 64 % 64 + 0x80), UInt8.ofNat (n % 64 + 0x80)]

/-- The bytes of code points, one after the other. -/
def bytesOf (l : List CodePoint) : List UInt8 := l.flatMap fun c => enc c.toNat

/-- **Well-formed WTF-8** -/
def WellFormed (bytes : List UInt8) : Prop := ∃ l, Unpaired l ∧ bytesOf l = bytes

/-- The bytes of a code point, by their number. -/
inductive Encoding (n : ℕ) : List UInt8 → Prop
  | one (a : UInt8) (h : n < 0x80) (ha : a.toNat = n) : Encoding n [a]
  | two (a b : UInt8) (h : 0x80 ≤ n ∧ n < 0x800) (ha : a.toNat = 0xC0 + n / 64)
      (hb : b.toNat = 0x80 + n % 64) : Encoding n [a, b]
  | three (a b x : UInt8) (h : 0x800 ≤ n ∧ n < 0x10000) (ha : a.toNat = 0xE0 + n / 4096)
      (hb : b.toNat = 0x80 + n / 64 % 64) (hx : x.toNat = 0x80 + n % 64) : Encoding n [a, b, x]
  | four (a b x y : UInt8) (h : 0x10000 ≤ n ∧ n < 0x110000) (ha : a.toNat = 0xF0 + n / 262144)
      (hb : b.toNat = 0x80 + n / 4096 % 64) (hx : x.toNat = 0x80 + n / 64 % 64)
      (hy : y.toNat = 0x80 + n % 64) : Encoding n [a, b, x, y]

theorem encoding_enc (c : CodePoint) : Encoding c.toNat (enc c.toNat) := by
  have hlt := c.lt
  rw [enc]
  split
  · refine .one _ (by omega) ?_
    rw [UInt8.toNat_ofNat']
    omega
  split
  · refine .two _ _ (by omega) ?_ ?_ <;> rw [UInt8.toNat_ofNat'] <;> omega
  split
  · refine .three _ _ _ (by omega) ?_ ?_ ?_ <;> rw [UInt8.toNat_ofNat'] <;> omega
  · refine .four _ _ _ _ (by omega) ?_ ?_ ?_ ?_ <;> rw [UInt8.toNat_ofNat'] <;> omega

variable {m : List UInt8} {n : ℕ}

theorem Encoding.length_pos (h : Encoding n m) : 0 < m.length := by
  cases h <;> exact Nat.succ_pos _

/-- The code point of a char. -/
def ofChar (c : Char) : CodePoint :=
  ⟨c.val.toNat, by
    have : c.val.toNat < 0xD800 ∨ (0xDFFF < c.val.toNat ∧ c.val.toNat < 0x110000) := c.valid
    omega⟩

theorem ofChar_not_surrogate (c : Char) : ¬ IsSurrogate (ofChar c).toNat := by
  have : c.val.toNat < 0xD800 ∨ (0xDFFF < c.val.toNat ∧ c.val.toNat < 0x110000) := c.valid
  rw [IsSurrogate, ofChar]
  dsimp only
  omega

theorem exists_ofChar {c : CodePoint} (h : ¬ IsSurrogate c.toNat) : ∃ d, ofChar d = c := by
  have hlt := c.lt
  rw [IsSurrogate] at h
  have hn : c.toNat.isValidChar := by
    rw [Nat.isValidChar]
    omega
  refine ⟨Char.ofNatAux c.toNat hn, CodePoint.ext ?_⟩
  rfl

@[simp] theorem bytesOf_nil : bytesOf [] = [] := rfl

theorem bytesOf_cons (c : CodePoint) (l : List CodePoint) :
    bytesOf (c :: l) = enc c.toNat ++ bytesOf l := flatMap_cons

theorem bytesOf_append (l m : List CodePoint) : bytesOf (l ++ m) = bytesOf l ++ bytesOf m :=
  flatMap_append

theorem bytesOf_singleton (c : CodePoint) : bytesOf [c] = enc c.toNat := flatMap_singleton _ _

theorem bytesOf_chars (cs : List Char) :
    bytesOf (cs.map ofChar) = cs.flatMap String.utf8EncodeChar := by
  rw [bytesOf, flatMap_map]
  rfl

/-! ## Telling the code points apart -/

/-- The lead byte tells the length. -/
theorem Encoding.lead (h : Encoding n m) (hn : n < 0x110000) :
    ∃ a t, m = a :: t ∧ (m.length = 1 ∧ a.toNat < 0x80 ∨
      m.length = 2 ∧ 0xC2 ≤ a.toNat ∧ a.toNat < 0xE0 ∨
      m.length = 3 ∧ 0xE0 ≤ a.toNat ∧ a.toNat < 0xF0 ∨ m.length = 4 ∧ 0xF0 ≤ a.toNat) := by
  cases h with
  | one a h ha => exact ⟨a, [], rfl, .inl ⟨rfl, by omega⟩⟩
  | two a b h ha hb => exact ⟨a, [b], rfl, .inr (.inl ⟨rfl, by omega⟩)⟩
  | three a b x h ha hb hx => exact ⟨a, [b, x], rfl, .inr (.inr (.inl ⟨rfl, by omega⟩))⟩
  | four a b x y h ha hb hx hy => exact ⟨a, [b, x, y], rfl, .inr (.inr (.inr ⟨rfl, by omega⟩))⟩

theorem Encoding.inj {k : ℕ} (hn : Encoding n m) (hk : Encoding k m) :
    n = k := by
  cases hn <;> cases hk <;> omega

/-- A code point is told by the bytes that begin with its encoding. -/
theorem enc_inj {c d : CodePoint} {r s : List UInt8}
    (h : enc c.toNat ++ r = enc d.toNat ++ s) : c = d ∧ r = s := by
  obtain ⟨a, t, hc, hlen⟩ := (encoding_enc c).lead c.lt
  obtain ⟨a', t', hd, hlen'⟩ := (encoding_enc d).lead d.lt
  have hhead : a = a' := by
    rw [hc, hd] at h
    exact (cons.inj h).1
  subst hhead
  obtain ⟨henc, hrest⟩ := append_inj h (by omega)
  have hc := encoding_enc c
  rw [henc] at hc
  exact ⟨CodePoint.ext (hc.inj (encoding_enc d)), hrest⟩

theorem bytesOf_inj {l m : List CodePoint} (h : bytesOf l = bytesOf m) : l = m := by
  have hne (c : CodePoint) (l : List CodePoint) : bytesOf (c :: l) ≠ [] := by
    have := (encoding_enc c).length_pos
    rw [bytesOf_cons]
    exact append_ne_nil_of_left_ne_nil (ne_nil_of_length_pos this) _
  induction l generalizing m with
  | nil =>
    cases m with
    | nil => rfl
    | cons d m => exact absurd h.symm (hne d m)
  | cons c l ih =>
    cases m with
    | nil => exact absurd h (hne c l)
    | cons d m =>
      rw [bytesOf_cons, bytesOf_cons] at h
      obtain ⟨rfl, hrest⟩ := enc_inj h
      rw [ih hrest]

/-- **Without surrogates** the bytes are UTF-8. -/
theorem wellFormed_iff_scalars (l : List CodePoint) :
    Utf8.WellFormed (bytesOf l) ↔ ∀ c ∈ l, ¬ IsSurrogate c.toNat := by
  constructor
  · rintro ⟨cs, hcs⟩ c hc
    rw [← bytesOf_chars] at hcs
    obtain rfl := bytesOf_inj hcs
    obtain ⟨d, -, rfl⟩ := mem_map.mp hc
    exact ofChar_not_surrogate d
  intro h
  have hchars : ∃ cs : List Char, cs.map ofChar = l := by
    induction l with
    | nil => exact ⟨[], rfl⟩
    | cons c l ih =>
      rw [forall_mem_cons] at h
      obtain ⟨d, rfl⟩ := exists_ofChar h.1
      obtain ⟨cs, rfl⟩ := ih h.2
      exact ⟨d :: cs, rfl⟩
  obtain ⟨cs, rfl⟩ := hchars
  exact ⟨cs, (bytesOf_chars cs).symm⟩

/-! ## Surrogates in the bytes -/

/-- The second byte tells a surrogate. -/
theorem Encoding.surrogate (h : Encoding n m) (hn : IsSurrogate n) :
    ∃ b x, m = [0xED, b, x] ∧ b.toNat = 0x80 + n / 64 % 64 ∧ x.toNat = 0x80 + n % 64 := by
  obtain ⟨hle, hle'⟩ := hn
  cases h with
  | three a b x h ha hb hx =>
    refine ⟨b, x, ?_, hb, hx⟩
    have : a = 0xED := UInt8.toNat_inj.mp (ha.trans (show 0xE0 + n / 4096 = 0xED by omega))
    rw [this]
  | one | two | four => omega

/-- The byte `0xED` leads encodings only. -/
theorem Encoding.of_ed {b : UInt8} {t : List UInt8} (h : Encoding n (0xED :: b :: t)) :
    ∃ x, t = [x] ∧ 0xD000 ≤ n ∧ n < 0xE000 ∧ b.toNat = 0x80 + n / 64 % 64 ∧
      x.toNat = 0x80 + n % 64 := by
  cases h with
  | three a b x h ha hb hx =>
    have ha : 0xED = 0xE0 + n / 4096 := ha
    exact ⟨x, rfl, by omega, by omega, hb, hx⟩
  | two a b h ha hb =>
    have ha : 0xED = 0xC0 + n / 64 := ha
    omega
  | four a b x y h ha hb hx hy =>
    have ha : 0xED = 0xF0 + n / 262144 := ha
    omega

end RustStd.Wtf8
