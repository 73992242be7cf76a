import RustStd.Foundations.Slice
import RustStd.Fmt.Render
import RustStd.Str.Chars
import Mathlib.Data.Nat.Size

/-!
# Escaping

The escaped forms of a character, after `core/src/escape.rs` and `core/src/char/methods.rs`, and the
texts made of them: `Debug for str` and the iterators `escape_default` and `escape_unicode` of a
string. `Debug for str` writes the characters that stay as they are in runs: `debug_str_emits` says
that these are the forms one after the other.
-/

namespace RustStd.Fmt.Escape

open Output Utf8 List Nat UInt8

/-! ## The escaped forms -/

/-- The tables of `unicode`. -/
structure Tables where
  is_printable : Char → Bool
  Grapheme_Extend : Char → Bool
  /-- The printable ASCII characters. -/
  ascii : ∀ c : Char, 0x20 ≤ c.toNat → c.toNat ≤ 0x7e → is_printable c = true

def HEX_DIGITS : List UInt8 := bytes "0123456789abcdef"

/-- `MaybeEscapedCharacter<10>` -/
inductive MaybeEscapedCharacter
  | escape_seq (seq : List UInt8)
  | literal (c : Char)
  deriving DecidableEq

/-- `EscapeIterInner<10, _>`, with the ends of `alive`. -/
structure EscapeIterInner where
  data : MaybeEscapedCharacter
  start : ℕ
  stop : ℕ
  deriving DecidableEq

/-- `[ascii::Char::Null; N]` -/
def output : List UInt8 := replicate 10 0

/-- `EscapeIterInner::backslash` -/
def backslash (a : UInt8) : EscapeIterInner := ⟨.escape_seq ((output.set 0 92).set 1 a), 0, 2⟩

def hex_escape (byte : UInt8) : Option EscapeIterInner := do
  let hi ← HEX_DIGITS[(byte >>> 4).toNat]?
  let lo ← HEX_DIGITS[(byte &&& 0xf).toNat]?
  return ⟨.escape_seq ((((output.set 0 92).set 1 120).set 2 hi).set 3 lo), 0, 4⟩

/-- `verbatim` -/
def verbatim_char (a : UInt8) : EscapeIterInner := ⟨.escape_seq (output.set 0 a), 0, 1⟩

/-- An entry of `LOOKUP`. -/
def lookup (byte : UInt8) : UInt8 :=
  match byte with
  | 9 => 0x80 ||| 116
  | 13 => 0x80 ||| 114
  | 10 => 0x80 ||| 110
  | 92 => 0x80 ||| 92
  | 39 => 0x80 ||| 39
  | 34 => 0x80 ||| 34
  | byte => if byte ≤ 0x1F ∨ 0x7F ≤ byte then 0x80 else byte

/-- `escape_ascii`, with or without the feature `optimize_for_size`. -/
def escape_ascii (optimize_for_size : Bool) (byte : UInt8) : Option EscapeIterInner :=
  if optimize_for_size then
    match byte with
    | 9 => return backslash 116
    | 13 => return backslash 114
    | 10 => return backslash 110
    | 92 => return backslash 92
    | 39 => return backslash 39
    | 34 => return backslash 34
    | byte =>
      if byte ≤ 0x1F ∨ byte = 0x7F then hex_escape byte
      else if byte < 128 then return verbatim_char byte
      else hex_escape byte
  else
    let lookup_ascii := lookup byte &&& 0x7F
    if lookup byte &&& 0x80 ≠ 0 then
      if lookup_ascii = 0 then hex_escape byte else return backslash lookup_ascii
    else return verbatim_char lookup_ascii

/-- `u32::leading_zeros` -/
def leading_zeros (x : ℕ) : ℕ := 32 - size x

/-- `EscapeIterInner::unicode`: the digits are at fixed places, `\u{` stands before the first of
them that is needed. -/
def escape_unicode (c : Char) : Option EscapeIterInner := do
  let c := c.toNat
  let zeros := leading_zeros (c ||| 1) / 4
  let start := zeros - 2
  -- The subtraction and the last index below `N`.
  if zeros < 2 ∨ 10 ≤ start + 2 then failure
  let d₃ ← HEX_DIGITS[c >>> 20 &&& 15]?
  let d₄ ← HEX_DIGITS[c >>> 16 &&& 15]?
  let d₅ ← HEX_DIGITS[c >>> 12 &&& 15]?
  let d₆ ← HEX_DIGITS[c >>> 8 &&& 15]?
  let d₇ ← HEX_DIGITS[c >>> 4 &&& 15]?
  let d₈ ← HEX_DIGITS[c >>> 0 &&& 15]?
  let output := ((((output.set 3 d₃).set 4 d₄).set 5 d₅).set 6 d₆).set 7 d₇
  let output := (output.set 8 d₈).set 9 125
  return ⟨.escape_seq (((output.set (start + 0) 92).set (start + 1) 117).set (start + 2) 123),
    start, 10⟩

namespace EscapeIterInner

def LITERAL_ESCAPE_START : ℕ := 128

def printable (c : Char) : EscapeIterInner :=
  ⟨.literal c, LITERAL_ESCAPE_START, LITERAL_ESCAPE_START + 1⟩

def len (self : EscapeIterInner) : ℕ := self.stop - self.start

/-- The variants of the union are told apart by `alive`: reading the other one is a fault. -/
def to_char (self : EscapeIterInner) : Option (Option Char) :=
  if self.stop > LITERAL_ESCAPE_START then
    match self.data with
    | .literal c => some (some c)
    | .escape_seq _ => none
  else some none

def to_str_unchecked (self : EscapeIterInner) : Option (List UInt8) :=
  match self.data with
  | .literal _ => none
  | .escape_seq seq => do slice_from (← slice_to seq self.stop) self.start

/-- `EscapeIterInner<_, AlwaysEscaped>::next` -/
def next (self : EscapeIterInner) : Option (Option UInt8 × EscapeIterInner) :=
  if self.start < self.stop then
    match self.data with
    | .literal _ => none
    | .escape_seq seq =>
      seq[self.start]?.map fun b => (some b, { self with start := self.start + 1 })
  else some (none, self)

end EscapeIterInner

structure EscapeDebugExtArgs where
  escape_grapheme_extended : Bool
  escape_single_quote : Bool
  escape_double_quote : Bool

def is_grapheme_extended (T : Tables) (c : Char) : Bool :=
  ! decide (c.toNat < 128) && T.Grapheme_Extend c

/-- `char::escape_debug_ext` -/
def escape_debug_ext (T : Tables) (c : Char) (args : EscapeDebugExtArgs) : Option EscapeIterInner :=
  if c.toNat = 0 then return backslash 48
  else if c.toNat = 9 then return backslash 116
  else if c.toNat = 13 then return backslash 114
  else if c.toNat = 10 then return backslash 110
  else if c.toNat = 92 then return backslash 92
  else if c.toNat = 34 ∧ args.escape_double_quote then return backslash 34
  else if c.toNat = 39 ∧ args.escape_single_quote then return backslash 39
  else if args.escape_grapheme_extended ∧ is_grapheme_extended T c then escape_unicode c
  else if T.is_printable c then return .printable c
  else escape_unicode c

/-- `char::escape_default` -/
def escape_default (optimize_for_size : Bool) (c : Char) : Option EscapeIterInner :=
  if c.toNat = 9 then return backslash 116
  else if c.toNat = 13 then return backslash 114
  else if c.toNat = 10 then return backslash 110
  else if c.toNat = 92 ∨ c.toNat = 39 ∨ c.toNat = 34 then return backslash (UInt8.ofNat c.toNat)
  else if 0x20 ≤ c.toNat ∧ c.toNat ≤ 0x7e then
    escape_ascii optimize_for_size (UInt8.ofNat c.toNat)
  else escape_unicode c

/-! ## Strings -/

/-- `Formatter::write_char` -/
def write_char (c : Char) : Formatted := .call (.write_char c) .ret

/-- `Display` of an `EscapeIterInner<_, MaybeEscaped>`. -/
def EscapeIterInner.fmt (self : EscapeIterInner) : Formatted :=
  (lift self.to_char).bind fun c =>
    match c with
    | some c => write_char c
    | none => (lift self.to_str_unchecked).bind write_str

/-- `&self[start..stop]` -/
def str_slice (self : List UInt8) (start stop : ℕ) : Option (List UInt8) :=
  if start ≤ stop ∧ is_char_boundary self start ∧ is_char_boundary self stop then
    some ((self.take stop).drop start)
  else none

/-- `rest.get_unchecked(start..)` -/
def str_from (rest : List UInt8) (start : ℕ) : Option (List UInt8) :=
  if is_char_boundary rest start then some (rest.drop start) else none

def needs_escape (b : UInt8) : Bool := b > 0x7E || b < 0x20 || b == 92 || b == 34

/-- The arguments in `Debug for str`. -/
def str_args : EscapeDebugExtArgs where
  escape_grapheme_extended := true
  escape_single_quote := false
  escape_double_quote := true

/-- Behind the loop of `Debug for str`. -/
def debug_end (self : List UInt8) (start stop : ℕ) : Formatted :=
  (lift (str_slice self start stop)).bind fun s => (write_str s).attempt <| write_char '\x22'

/-- The loop of `Debug for str`, with `printable_range` and `rest`. -/
def debug_loop (T : Tables) (self : List UInt8) : ℕ → ℕ → ℕ → List UInt8 → Formatted
  | 0, _, _, _ => .fault
  | turns + 1, start, stop, rest =>
    if rest.length > 0 then
      match rest.findIdx? needs_escape with
      | none => debug_end self start (stop + rest.length)
      | some non_printable_start =>
        let stop := stop + non_printable_start
        (lift (str_from rest non_printable_start)).bind fun rest =>
        (lift (Chars.next rest)).bind fun c =>
        match c with
        | none => debug_loop T self turns start stop rest
        | some c =>
          (lift (escape_debug_ext T c str_args)).bind fun esc =>
          if esc.len ≠ 1 then
            (lift (str_slice self start stop)).bind fun s =>
            (write_str s).attempt <| esc.fmt.attempt <|
              debug_loop T self turns (stop + len_utf8 c) (stop + len_utf8 c)
                (rest.drop (len_utf8 c))
          else debug_loop T self turns start (stop + len_utf8 c) (rest.drop (len_utf8 c))
    else debug_end self start stop

/-- `Debug for str` -/
def debug_str (T : Tables) (self : List UInt8) : Formatted :=
  (write_char '\x22').attempt <| debug_loop T self (self.length + 1) 0 0 self

/-- The inner iterator of a `FlatMap`, written by `try_for_each(|c| f.write_char(c))`. -/
def write_chars : ℕ → EscapeIterInner → Formatted
  | 0, _ => .fault
  | turns + 1, iter =>
    (lift iter.next).bind fun r =>
      match r.1 with
      | none => .ret true
      | some b => (write_char (Char.ofNat b.toNat)).attempt <| write_chars turns r.2

/-- `Display` of `self.chars().flat_map(escape)`. -/
def escape_chars (escape : Char → Option EscapeIterInner) : ℕ → List UInt8 → Formatted
  | 0, _ => .fault
  | turns + 1, self =>
    (lift (Chars.next self)).bind fun c =>
      match c with
      | none => .ret true
      | some c =>
        (lift (escape c)).bind fun iter =>
          (write_chars (iter.len + 1) iter).attempt <|
            escape_chars escape turns (self.drop (len_utf8 c))

/-- `Display` of `str::escape_default`. -/
def str_escape_default (optimize_for_size : Bool) (self : List UInt8) : Formatted :=
  escape_chars (escape_default optimize_for_size) (self.length + 1) self

/-- `Display` of `str::escape_unicode`. -/
def str_escape_unicode (self : List UInt8) : Formatted :=
  escape_chars escape_unicode (self.length + 1) self

/-! ## The escape grammar -/

/-- The digit of a value below 16. -/
def hex_digit (n : ℕ) : UInt8 := HEX_DIGITS.getD n 0

/-- The value of a hexadecimal number. -/
def hex_value (digits : List ℕ) : ℕ := digits.foldl (fun value d => 16 * value + d) 0

/-- What a backslash and a letter stand for. -/
def simple_escape (b : UInt8) : Option UInt8 :=
  match b with
  | 48 => some 0
  | 116 => some 9
  | 114 => some 13
  | 110 => some 10
  | 92 => some 92
  | 34 => some 34
  | 39 => some 39
  | _ => none

/-- **The forms of a character** in the escape grammar. -/
inductive IsForm (c : Char) : List UInt8 → Prop
  | literal (hbackslash : c.toNat ≠ 92) (hquote : c.toNat ≠ 34) : IsForm c (String.utf8EncodeChar c)
  | backslash {a b : UInt8} (ha : simple_escape a = some b) (hb : c.toNat = b.toNat) :
      IsForm c [92, a]
  | unicode {digits : List ℕ} (hdigits : ∀ d ∈ digits, d < 16) (hne : digits ≠ [])
      (hlen : digits.length ≤ 6) (hvalue : hex_value digits = c.toNat) :
      IsForm c (92 :: 117 :: 123 :: (digits.map hex_digit ++ [125]))

variable {c : Char}

theorem encode_ascii (h : c.toNat < 128) :
    String.utf8EncodeChar c = [ofNat c.toNat] := by
  rw [String.utf8EncodeChar]
  exact if_pos (le_of_lt_succ h)

theorem length_encode_of_le (h : 128 ≤ c.toNat) :
    2 ≤ (String.utf8EncodeChar c).length := by
  rw [← len_utf8_eq, len_utf8]
  have hlt : ¬ c.val.toNat < MAX_ONE_B := not_lt_of_ge h
  simp only [if_neg hlt]
  split <;> [skip; split] <;> omega

/-- A character that is not ASCII has no ASCII byte. -/
theorem le_of_mem_encode (h : 128 ≤ c.toNat) :
    ∀ b ∈ String.utf8EncodeChar c, 128 ≤ b.toNat := by
  have hshape := encShape_utf8EncodeChar c
  have hlen := length_encode_of_le h
  revert hshape hlen
  generalize String.utf8EncodeChar c = l
  match l with
  | [] => exact fun _ _ b hb => absurd hb not_mem_nil
  | [_] => exact fun _ hlen => absurd hlen (by simp)
  | [_, _] =>
    intro hshape _ b hb
    simp only [EncShape, Lead2, Tail] at hshape
    simp only [mem_cons, not_mem_nil, or_false] at hb
    rcases hb with rfl | rfl <;> omega
  | [_, _, _] =>
    intro hshape _ b hb
    simp only [EncShape, Lead3, Tail] at hshape
    simp only [mem_cons, not_mem_nil, or_false] at hb
    rcases hb with rfl | rfl | rfl <;> omega
  | [_, _, _, _] =>
    intro hshape _ b hb
    simp only [EncShape, Lead4, Tail] at hshape
    simp only [mem_cons, not_mem_nil, or_false] at hb
    rcases hb with rfl | rfl | rfl | rfl <;> omega
  | _ :: _ :: _ :: _ :: _ :: _ => exact fun hshape => hshape.elim

variable {n : ℕ}

theorem hex_digits_get (h : n < 16) : HEX_DIGITS[n]? = some (hex_digit n) := by
  have hlen : n < HEX_DIGITS.length := h
  rw [hex_digit, getD_eq_getElem _ _ hlen, getElem?_eq_getElem hlen]

theorem hex_digit_ascii (h : n < 16) : (hex_digit n).toNat < 128 := by
  interval_cases n <;> decide

/-! ## The iterators -/

/-- What is left of an iterator. -/
def EscapeIterInner.text (self : EscapeIterInner) : List UInt8 :=
  match self.data with
  | .literal c => String.utf8EncodeChar c
  | .escape_seq seq => (seq.take self.stop).drop self.start

/-- An escape sequence: a part of an ASCII buffer. -/
structure EscapeIterInner.IsSeq (e : EscapeIterInner) (seq : List UInt8) : Prop where
  data_eq : e.data = .escape_seq seq
  length : seq.length = 10
  start_le : e.start ≤ e.stop
  stop_le : e.stop ≤ 10
  ascii : ∀ b ∈ seq, b.toNat < 128

/-- An escape sequence for a character. -/
structure EscapesAs (c : Char) (e : EscapeIterInner) : Prop where
  seq : ∃ seq, e.IsSeq seq
  long : e.len ≠ 1
  form : IsForm c e.text

theorem ascii_set {l : List UInt8} {a : UInt8} (hl : ∀ b ∈ l, b.toNat < 128) (ha : a.toNat < 128)
    (i : ℕ) : ∀ b ∈ l.set i a, b.toNat < 128 := by
  intro b hb
  rcases mem_or_eq_of_mem_set hb with hb | rfl
  · exact hl b hb
  · exact ha

theorem output_ascii : ∀ b ∈ output, b.toNat < 128 := by
  intro b hb
  rw [eq_of_mem_replicate hb]
  decide

theorem backslash_spec {a b : UInt8} (ha : simple_escape a = some b)
    (hb : c.toNat = b.toNat) (hascii : a.toNat < 128) : EscapesAs c (backslash a) := by
  refine ⟨⟨_, rfl, rfl, zero_le _, show 2 ≤ 10 by decide, ?_⟩, show 2 ≠ 1 by decide,
    .backslash ha hb⟩
  exact ascii_set (ascii_set output_ascii (by decide) 0) hascii 1

theorem leading_zeros_spec {x d : ℕ} (hd : 1 ≤ d) (hd' : d ≤ 6) (hlt : x < 2 ^ (4 * d))
    (hge : d = 1 ∨ 2 ^ (4 * (d - 1)) ≤ x) : leading_zeros (x ||| 1) / 4 = 8 - d := by
  have hle : size (x ||| 1) ≤ 4 * d :=
    size_le.mpr (or_lt_two_pow hlt (Nat.one_lt_two_pow (by omega)))
  have hgt : 4 * (d - 1) < size (x ||| 1) := by
    refine lt_size.mpr ?_
    rcases hge with rfl | hge
    · exact right_le_or
    · exact hge.trans left_le_or
  rw [leading_zeros]
  omega

theorem exists_hex_length {x : ℕ} (h : x < 2 ^ 24) :
    ∃ d, 1 ≤ d ∧ d ≤ 6 ∧ x < 2 ^ (4 * d) ∧ (d = 1 ∨ 2 ^ (4 * (d - 1)) ≤ x) := by
  have hsize := size_le.mpr h
  refine ⟨max 1 ((size x + 3) / 4), by omega, by omega, size_le.mp (by omega), ?_⟩
  by_cases hone : max 1 ((size x + 3) / 4) = 1
  · exact .inl hone
  · exact .inr (lt_size.mp (by omega))

theorem shift_digit (x k : ℕ) : x >>> k &&& 15 = x / 2 ^ k % 16 := by
  rw [shiftRight_eq_div_pow, show (15 : ℕ) = 2 ^ 4 - 1 from rfl, and_two_pow_sub_one_eq_mod]

/-- Reading `d` hexadecimal digits after the ones above them. -/
theorem foldl_shifts (x d : ℕ) : ((range d).reverse.map fun k => x / 2 ^ (4 * k) % 16).foldl
      (fun value d => 16 * value + d) (x / 2 ^ (4 * d)) = x := by
  induction d with
  | zero => exact Nat.div_one x
  | succ d ih =>
    have hstep : 16 * (x / 2 ^ (4 * (d + 1))) + x / 2 ^ (4 * d) % 16 = x / 2 ^ (4 * d) := by
      rw [mul_succ, pow_add, ← Nat.div_div_eq_div_mul]
      exact div_add_mod _ 16
    rw [range_succ, reverse_append, reverse_singleton, singleton_append,
      map_cons, foldl_cons, hstep, ih]

/-- The part of the buffer that is used for a number of `d` digits. -/
theorem unicode_text (b₃ b₄ b₅ b₆ b₇ b₈ : UInt8) {d : ℕ} (hd : 1 ≤ d) (hd' : d ≤ 6) :
    (((((((((((output.set 3 b₃).set 4 b₄).set 5 b₅).set 6 b₆).set 7 b₇).set 8 b₈).set 9 125).set
      (8 - d - 2 + 0) 92).set (8 - d - 2 + 1) 117).set (8 - d - 2 + 2) 123).take 10).drop
        (8 - d - 2) =
      92 :: 117 :: 123 :: ([b₃, b₄, b₅, b₆, b₇, b₈].drop (6 - d) ++ [125]) := by
  interval_cases d <;> rfl

/-- **`escape_unicode`** writes the hexadecimal digits of the character. -/
theorem escape_unicode_spec (c : Char) : ∃ e, escape_unicode c = some e ∧ EscapesAs c e := by
  have hx : c.toNat < 2 ^ 24 := by
    rcases c.valid with h | ⟨-, h⟩ <;> exact h.trans (by decide)
  obtain ⟨d, hd, hd', hlt, hge⟩ := exists_hex_length hx
  have hzeros := leading_zeros_spec hd hd' hlt hge
  have hdigit (k : ℕ) : HEX_DIGITS[c.toNat >>> k &&& 15]? =
      some (hex_digit (c.toNat / 2 ^ k % 16)) := by
    rw [shift_digit]
    exact hex_digits_get (mod_lt _ (by decide))
  rw [escape_unicode]
  simp only [hzeros, hdigit, some_bind]
  rw [if_neg (by omega)]
  refine ⟨_, rfl, ⟨_, rfl, by simp only [length_set]; rfl, show 8 - d - 2 ≤ 10 by omega,
    le_refl 10, ?_⟩, show 10 - (8 - d - 2) ≠ 1 by omega, ?_⟩
  · have hascii (k : ℕ) : (hex_digit (c.toNat / 2 ^ k % 16)).toNat < 128 :=
      hex_digit_ascii (mod_lt _ (by decide))
    have hdigits := ascii_set (ascii_set (ascii_set (ascii_set (ascii_set (ascii_set output_ascii
      (hascii 20) 3) (hascii 16) 4) (hascii 12) 5) (hascii 8) 6) (hascii 4) 7) (hascii 0) 8
    exact ascii_set (ascii_set (ascii_set (ascii_set hdigits (by decide) 9) (by decide) _)
      (by decide) _) (by decide) _
  -- The digits from the first that is needed on.
  obtain ⟨digits, hdigits⟩ :
      ∃ digits, [20, 16, 12, 8, 4, 0].map (c.toNat / 2 ^ · % 16) = digits := ⟨_, rfl⟩
  have hform : IsForm c (92 :: 117 :: 123 :: ((digits.drop (6 - d)).map hex_digit ++ [125])) := by
    have hlen : (digits.drop (6 - d)).length = d := by
      rw [length_drop, ← hdigits]
      simp only [length_map, length_cons, length_nil]
      omega
    refine .unicode (fun x hx => ?_) (ne_nil_of_length_pos (by omega)) (by omega) ?_
    · obtain ⟨k, -, rfl⟩ := mem_map.mp (hdigits ▸ mem_of_mem_drop hx)
      exact mod_lt _ (by decide)
    · have hplaces : [20, 16, 12, 8, 4, 0].drop (6 - d) = (range d).reverse.map (4 * ·) := by
        interval_cases d <;> rfl
      have hvalue := foldl_shifts c.toNat d
      rw [div_eq_of_lt hlt] at hvalue
      rwa [hex_value, ← hdigits, ← map_drop, hplaces, map_map]
  rw [← hdigits, map_drop] at hform
  refine Eq.mp (congrArg (IsForm c) (Eq.symm ?_)) hform
  exact unicode_text _ _ _ _ _ _ hd hd'

theorem escape_debug_ext_spec (T : Tables) (c : Char) :
    ∃ e, escape_debug_ext T c str_args = some e ∧
      (EscapesAs c e ∨ e = .printable c ∧ c.toNat ≠ 92 ∧ c.toNat ≠ 34) := by
  have hbackslash {a b : UInt8} (ha : simple_escape a = some b) (hb : c.toNat = b.toNat)
      (hascii : a.toNat < 128) : ∃ e, some (backslash a) = some e ∧
        (EscapesAs c e ∨ e = .printable c ∧ c.toNat ≠ 92 ∧ c.toNat ≠ 34) :=
    ⟨_, rfl, .inl (backslash_spec ha hb hascii)⟩
  have hunicode : ∃ e, escape_unicode c = some e ∧
      (EscapesAs c e ∨ e = .printable c ∧ c.toNat ≠ 92 ∧ c.toNat ≠ 34) := by
    obtain ⟨e, he, hform⟩ := escape_unicode_spec c
    exact ⟨e, he, .inl hform⟩
  rw [escape_debug_ext]
  by_cases h0 : c.toNat = 0
  · rw [if_pos h0]
    exact hbackslash rfl h0 (by decide)
  rw [if_neg h0]
  by_cases h9 : c.toNat = 9
  · rw [if_pos h9]
    exact hbackslash rfl h9 (by decide)
  rw [if_neg h9]
  by_cases h13 : c.toNat = 13
  · rw [if_pos h13]
    exact hbackslash rfl h13 (by decide)
  rw [if_neg h13]
  by_cases h10 : c.toNat = 10
  · rw [if_pos h10]
    exact hbackslash rfl h10 (by decide)
  rw [if_neg h10]
  by_cases h92 : c.toNat = 92
  · rw [if_pos h92]
    exact hbackslash rfl h92 (by decide)
  rw [if_neg h92]
  by_cases h34 : c.toNat = 34 ∧ str_args.escape_double_quote = true
  · rw [if_pos h34]
    exact hbackslash rfl h34.1 (by decide)
  rw [if_neg h34, if_neg fun h => absurd h.2 (by decide)]
  split
  · exact hunicode
  split
  · exact ⟨_, rfl, .inr ⟨rfl, h92, fun h => h34 ⟨h, rfl⟩⟩⟩
  · exact hunicode

/-- A printable ASCII character that needs no backslash is copied. -/
theorem escape_ascii_eq (optimize_for_size : Bool) (hge : 0x20 ≤ n) (hle : n ≤ 0x7e)
    (hne : ¬ (n = 92 ∨ n = 39 ∨ n = 34)) :
    escape_ascii optimize_for_size (ofNat n) = some (verbatim_char (ofNat n)) := by
  have hall : ∀ n < 127, 0x20 ≤ n → ¬ (n = 92 ∨ n = 39 ∨ n = 34) → ∀ b,
      escape_ascii b (ofNat n) = some (verbatim_char (ofNat n)) := by decide +kernel
  exact hall n (by omega) hge hne optimize_for_size

theorem escape_default_spec (optimize_for_size : Bool) (c : Char) :
    ∃ e, escape_default optimize_for_size c = some e ∧ (∃ seq, e.IsSeq seq) ∧ IsForm c e.text := by
  have hseq {e : EscapeIterInner} (h : EscapesAs c e) :
      ∃ e', some e = some e' ∧ (∃ seq, e'.IsSeq seq) ∧ IsForm c e'.text := ⟨e, rfl, h.seq, h.form⟩
  rw [escape_default]
  split
  · next h => exact hseq (backslash_spec rfl h (by decide))
  split
  · next h => exact hseq (backslash_spec rfl h (by decide))
  split
  · next h => exact hseq (backslash_spec rfl h (by decide))
  split
  · next h => rcases h with h | h | h <;> rw [h] <;> exact hseq (backslash_spec rfl h (by decide))
  next hne =>
  split
  · next h =>
    have hascii : c.toNat < 128 := by omega
    have hbyte : (ofNat c.toNat).toNat < 128 := by
      rwa [toNat_ofNat', mod_eq_of_lt (by omega)]
    refine ⟨_, escape_ascii_eq _ h.1 h.2 hne, ⟨_, rfl, rfl, zero_le _, show 1 ≤ 10 by decide,
      ascii_set output_ascii hbyte 0⟩, ?_⟩
    rw [show (verbatim_char (ofNat c.toNat)).text = String.utf8EncodeChar c from
      (encode_ascii hascii).symm]
    exact .literal (by omega) (by omega)
  · obtain ⟨e, he, h⟩ := escape_unicode_spec c
    exact ⟨e, he, h.seq, h.form⟩

/-! ## What is written -/

theorem write_char_emits (c : Char) : Formats (write_char c) (String.utf8EncodeChar c) :=
  Emits.call (.write_char c)

theorem printable_emits (c : Char) :
    Formats (EscapeIterInner.printable c).fmt (String.utf8EncodeChar c) := write_char_emits c

namespace EscapeIterInner

variable {e : EscapeIterInner} {seq : List UInt8}

variable (h : e.IsSeq seq)
include h

theorem IsSeq.text_eq : e.text = (seq.take e.stop).drop e.start := by
  rw [text, h.data_eq]

theorem IsSeq.emits : Formats e.fmt e.text := by
  have hstop : ¬ e.stop > LITERAL_ESCAPE_START :=
    not_lt.mpr (h.stop_le.trans (by decide))
  have hlen : e.stop ≤ seq.length := h.length ▸ h.stop_le
  have hstr : e.to_str_unchecked = some e.text := by
    rw [to_str_unchecked, h.data_eq, h.text_eq]
    simp only [slice_to_eq hlen, some_bind]
    exact slice_from_eq (by rw [length_take_of_le hlen]; exact h.start_le)
  rw [fmt, to_char, if_neg hstop, hstr]
  exact Emits.write_str e.text

/-- One turn of the iterator. -/
theorem IsSeq.next_lt (hlt : e.start < e.stop) :
    ∃ b, e.next = some (some b, { e with start := e.start + 1 }) ∧ b.toNat < 128 ∧
      e.text = b :: ({ e with start := e.start + 1 } : EscapeIterInner).text := by
  have hlen : e.stop ≤ seq.length := h.length ▸ h.stop_le
  have hget : e.start < seq.length := by omega
  refine ⟨seq[e.start], ?_, h.ascii _ (getElem_mem hget), ?_⟩
  · rw [next, if_pos hlt, h.data_eq]
    simp [getElem?_eq_getElem hget]
  · have htake : e.start < (seq.take e.stop).length := by
      rwa [length_take_of_le hlen]
    simp only [text, h.data_eq]
    rw [drop_eq_getElem_cons htake, getElem_take]

theorem IsSeq.step (hlt : e.start < e.stop) :
    ({ e with start := e.start + 1 } : EscapeIterInner).IsSeq seq :=
  ⟨h.data_eq, h.length, hlt, h.stop_le, h.ascii⟩

end EscapeIterInner

/-- **Character by character** an iterator writes what is left of it. -/
theorem write_chars_emits {e : EscapeIterInner} {seq : List UInt8} (h : e.IsSeq seq) {turns : ℕ}
    (hturns : e.len < turns) : Formats (write_chars turns e) e.text := by
  induction turns generalizing e with
  | zero => exact absurd hturns (not_lt_zero _)
  | succ turns ih =>
    rw [write_chars]
    by_cases hlt : e.start < e.stop
    · obtain ⟨b, hnext, hb, htext⟩ := h.next_lt hlt
      have hrest := ih (h.step hlt) (by
        simp only [EscapeIterInner.len] at hturns ⊢
        omega)
      have hchar : String.utf8EncodeChar (Char.ofNat b.toNat) = [b] := by
        have hvalid : b.toNat.isValidChar := .inl (by omega)
        have hval : (Char.ofNat b.toNat).toNat = b.toNat := by
          rw [Char.ofNat, dif_pos hvalid]
          rfl
        rw [encode_ascii (by omega), hval, UInt8.ofNat_toNat]
      rw [hnext, htext]
      exact ((write_char_emits _).of_eq hchar).attempt hrest
    · have hnext : e.next = some (none, e) := if_neg hlt
      have htext : e.text = [] := by
        rw [h.text_eq, drop_eq_nil_iff]
        exact (length_take_le _ _).trans (not_lt.mp hlt)
      rw [hnext, htext]
      exact Emits.of_ret true

/-! ## Strings -/

/-- The bytes of a string. -/
def encode (cs : List Char) : List UInt8 := cs.flatMap String.utf8EncodeChar

/-- **The escaped form** of a character. -/
def form (escape : Char → Option EscapeIterInner) (c : Char) : List UInt8 :=
  ((escape c).map EscapeIterInner.text).getD []

theorem encode_wellFormed (cs : List Char) : WellFormed (encode cs) := ⟨cs, rfl⟩

@[simp] theorem encode_nil : encode [] = [] := rfl

@[simp] theorem encode_cons (c : Char) (cs : List Char) :
    encode (c :: cs) = String.utf8EncodeChar c ++ encode cs := rfl

@[simp] theorem encode_append (cs ds : List Char) : encode (cs ++ ds) = encode cs ++ encode ds :=
  flatMap_append

theorem drop_len_utf8 (c : Char) (rest : List UInt8) :
    (String.utf8EncodeChar c ++ rest).drop (len_utf8 c) = rest := by
  rw [len_utf8_eq, drop_left]

/-- **`flat_map`** of a string writes the forms of its characters. -/
theorem escape_chars_emits {escape : Char → Option EscapeIterInner}
    (hescape : ∀ c, ∃ e, escape c = some e ∧ ∃ seq, e.IsSeq seq) (cs : List Char) (turns : ℕ)
    (hturns : (encode cs).length < turns) :
    Formats (escape_chars escape turns (encode cs)) (cs.flatMap (form escape)) := by
  induction cs generalizing turns with
  | nil =>
    obtain ⟨turns, rfl⟩ := exists_eq_succ_of_ne_zero (ne_zero_of_lt hturns)
    exact Emits.of_ret true
  | cons c cs ih =>
    obtain ⟨turns, rfl⟩ := exists_eq_succ_of_ne_zero (ne_zero_of_lt hturns)
    obtain ⟨e, he, seq, hseq⟩ := hescape c
    have hform : form escape c = e.text := by rw [form, he, Option.map_some, Option.getD_some]
    have hlen := IsEnc.length_pos ⟨c, rfl⟩
    have hrest := ih turns (by
      rw [encode_cons, length_append] at hturns
      omega)
    rw [escape_chars, encode_cons, Chars.next_append, flatMap_cons, hform]
    simp only [lift, bind_ret, he, drop_len_utf8]
    exact (write_chars_emits hseq (lt_succ_self _)).attempt hrest

/-! ## `Debug for str` -/

/-- The form of a character in `Debug for str`. -/
def debug_form (T : Tables) (c : Char) : List UInt8 := form (escape_debug_ext T · str_args) c

theorem needs_escape_ofNat (h : n < 128) : needs_escape (ofNat n) = false ↔
    0x20 ≤ n ∧ n ≤ 0x7e ∧ n ≠ 92 ∧ n ≠ 34 := by
  have hall : ∀ n < 128, needs_escape (ofNat n) = false ↔
    0x20 ≤ n ∧ n ≤ 0x7e ∧ n ≠ 92 ∧ n ≠ 34 := by decide +kernel
  exact hall n h

/-- **What the fast path skips** is not escaped, and it stops at every other character. -/
theorem plain_or_not (T : Tables) (c : Char) :
    (∃ b, String.utf8EncodeChar c = [b] ∧ needs_escape b = false ∧ debug_form T c = [b]) ∨
      ∃ b r, String.utf8EncodeChar c = b :: r ∧ needs_escape b = true := by
  by_cases hascii : c.toNat < 128
  · have henc := encode_ascii hascii
    cases hb : needs_escape (ofNat c.toNat) with
    | true => exact .inr ⟨_, [], henc, hb⟩
    | false =>
      obtain ⟨hge, hle, h92, h34⟩ := (needs_escape_ofNat hascii).mp hb
      have hgrapheme : is_grapheme_extended T c = false := by
        rw [is_grapheme_extended, decide_eq_true hascii]
        rfl
      refine .inl ⟨_, henc, hb, ?_⟩
      rw [debug_form, form, escape_debug_ext, if_neg (by omega), if_neg (by omega),
        if_neg (by omega), if_neg (by omega), if_neg h92, if_neg (fun h => h34 h.1),
        if_neg (fun h => absurd h.2 (by decide)), hgrapheme,
        if_neg (fun h => absurd h.2 (by decide)), if_pos (T.ascii c hge hle)]
      exact henc
  · obtain ⟨b, r, hbr⟩ := exists_cons_of_length_pos (IsEnc.length_pos ⟨c, rfl⟩)
    refine .inr ⟨b, r, hbr, ?_⟩
    have hb := le_of_mem_encode (not_lt.mp hascii) b (hbr ▸ mem_cons_self)
    have hgt : b > 0x7E := lt_iff_toNat_lt.mpr (lt_of_lt_of_le (by decide) hb)
    simp [needs_escape, hgt]

/-- A byte of the fast path can be taken alone. -/
theorem debug_loop_plain (T : Tables) (self : List UInt8) {b : UInt8} {rest : List UInt8}
    (hb : needs_escape b = false) (hascii : b.toNat < 128) (hrest : WellFormed rest)
    (turns start stop : ℕ) : debug_loop T self (turns + 1) start stop (b :: rest) =
      debug_loop T self (turns + 1) start (stop + 1) rest := by
  have hpos : (b :: rest).length > 0 := succ_pos _
  have hcons : (b :: rest).findIdx? needs_escape = (rest.findIdx? needs_escape).map (· + 1) := by
    rw [findIdx?_cons, hb]
    rfl
  refine (if_pos hpos).trans ?_
  rw [hcons]
  by_cases hnil : rest = []
  · subst hnil
    rfl
  refine Eq.trans ?_ (if_pos (length_pos_of_ne_nil hnil)).symm
  cases hfind : rest.findIdx? needs_escape with
  | none =>
    rw [length_cons, add_comm rest.length 1, ← add_assoc]
    rfl
  | some n =>
    have hboundary : is_char_boundary (b :: rest) (n + 1) = is_char_boundary rest n := by
      have hb : WellFormed [b] := (isEnc_singleton hascii).wellFormed
      have hcons (l : List UInt8) : WellFormed (b :: l) ↔ WellFormed l :=
        ⟨hb.of_append (r := l), hb.append⟩
      rw [Bool.eq_iff_iff, isCharBoundary_iff ((hcons rest).mpr hrest), isCharBoundary_iff hrest,
        take_succ_cons, drop_succ_cons, hcons, length_cons, succ_le_succ_iff]
    have hstr : str_from (b :: rest) (n + 1) = str_from rest n := by
      rw [str_from, str_from, hboundary, drop_succ_cons]
    simp [hstr, add_assoc, add_comm 1 n]

/-- **A turn** at a character where the fast path stops. -/
theorem debug_loop_stop (T : Tables) (self : List UInt8) {b : UInt8} {r : List UInt8}
    (henc : String.utf8EncodeChar c = b :: r) (hb : needs_escape b = true) (rest : List UInt8)
    (turns start stop : ℕ) :
    debug_loop T self (turns + 1) start stop (String.utf8EncodeChar c ++ rest) =
      (lift (escape_debug_ext T c str_args)).bind fun esc =>
        if esc.len ≠ 1 then
          (lift (str_slice self start stop)).bind fun s =>
          (write_str s).attempt <| esc.fmt.attempt <|
            debug_loop T self turns (stop + len_utf8 c) (stop + len_utf8 c) rest
        else debug_loop T self turns start (stop + len_utf8 c) rest := by
  have hpos : (String.utf8EncodeChar c ++ rest).length > 0 := by
    rw [henc]
    exact succ_pos _
  have hfind : (String.utf8EncodeChar c ++ rest).findIdx? needs_escape = some 0 := by
    rw [henc, cons_append, findIdx?_cons, if_pos hb]
  have hfrom (l : List UInt8) : str_from l 0 = some l := if_pos is_char_boundary_zero
  refine (if_pos hpos).trans ?_
  rw [hfind]
  simp [hfrom, lift, Chars.next_append, drop_len_utf8]

/-- The pending range. -/
theorem str_slice_pending (done pending cs : List Char) :
    str_slice (encode done ++ (encode pending ++ encode cs)) (encode done).length
      ((encode done).length + (encode pending).length) = some (encode pending) := by
  have hdone := is_char_boundary_append (encode_wellFormed done)
    ((encode_wellFormed pending).append (encode_wellFormed cs))
  have hpending := is_char_boundary_append ((encode_wellFormed done).append
    (encode_wellFormed pending)) (encode_wellFormed cs)
  rw [append_assoc, length_append] at hpending
  rw [str_slice, if_pos ⟨le_add_right _ _, hdone, hpending⟩, ← append_assoc,
    ← length_append, take_left, drop_left]

/-- **The loop** writes the pending range and the forms of the characters that follow. -/
theorem debug_loop_emits (T : Tables) (cs done pending : List Char) (turns : ℕ)
    (hturns : (encode cs).length < turns) :
    Formats (debug_loop T (encode done ++ (encode pending ++ encode cs)) turns
        (encode done).length ((encode done).length + (encode pending).length) (encode cs))
      (encode pending ++ (cs.flatMap (debug_form T) ++ [34])) := by
  induction cs generalizing done pending turns with
  | nil =>
    obtain ⟨turns, rfl⟩ := exists_eq_succ_of_ne_zero (ne_zero_of_lt hturns)
    have hnil : ¬ (encode []).length > 0 := lt_irrefl 0
    have hend (start stop : ℕ) : debug_loop T (encode done ++ (encode pending ++ encode []))
        (turns + 1) start stop (encode []) = debug_end _ start stop := if_neg hnil
    rw [hend, debug_end, str_slice_pending]
    exact (Emits.write_str _).attempt (write_char_emits _)
  | cons c cs ih =>
    obtain ⟨turns, rfl⟩ := exists_eq_succ_of_ne_zero (ne_zero_of_lt hturns)
    have hlen := IsEnc.length_pos ⟨c, rfl⟩
    rw [encode_cons, length_append] at hturns
    -- The character joins the pending range.
    have hjoin {turns : ℕ} (h : (encode cs).length < turns)
        (hform : debug_form T c = String.utf8EncodeChar c) :
        Formats (debug_loop T (encode done ++ (encode pending ++ encode (c :: cs))) turns
            (encode done).length ((encode done).length + (encode pending).length + len_utf8 c)
            (encode cs))
          (encode pending ++ ((c :: cs).flatMap (debug_form T) ++ [34])) := by
      have hrest := ih done (pending ++ [c]) turns h
      simp only [encode_append, encode_cons, encode_nil, append_nil, append_assoc,
        length_append, ← len_utf8_eq, ← add_assoc] at hrest
      rwa [flatMap_cons, hform, encode_cons, append_assoc]
    rcases plain_or_not T c with ⟨b, henc, hb, hform⟩ | ⟨b, r, henc, hb⟩
    · have hascii : b.toNat < 128 := by
        have := encShape_utf8EncodeChar c
        rwa [henc] at this
      have hone : len_utf8 c = 1 := by rw [len_utf8_eq, henc, length_singleton]
      have hrest := hjoin (show (encode cs).length < turns + 1 by omega) (hform.trans henc.symm)
      rw [hone] at hrest
      rw [encode_cons, henc, singleton_append] at hrest ⊢
      rwa [debug_loop_plain T _ hb hascii (encode_wellFormed cs)]
    obtain ⟨e, he, hesc⟩ := escape_debug_ext_spec T c
    have hform : debug_form T c = e.text := by
      rw [debug_form, form, he, Option.map_some, Option.getD_some]
    rw [encode_cons, debug_loop_stop T _ henc hb, he]
    rcases hesc with hesc | ⟨rfl, -⟩
    · -- The pending range is written, and the escaped form behind it.
      obtain ⟨seq, hseq⟩ := hesc.seq
      have hrest := ih (done ++ (pending ++ [c])) [] turns (by omega)
      simp only [encode_append, encode_cons, encode_nil, append_nil, nil_append,
        append_assoc, length_append, length_nil, ← len_utf8_eq, ← add_assoc,
        add_zero] at hrest
      simp only [lift, bind_ret, if_pos hesc.long, ← encode_cons, str_slice_pending]
      rw [flatMap_cons, hform, append_assoc]
      exact (Emits.write_str _).attempt (hseq.emits.attempt hrest)
    · have hone : (EscapeIterInner.printable c).len = 1 := Nat.add_sub_cancel_left _ 1
      simp only [lift, bind_ret, hone, ne_eq, not_true_eq_false, if_false]
      exact hjoin (by omega) hform

/-- **`Debug for str`** writes the forms of the characters between quotes. -/
theorem debug_str_emits (T : Tables) (cs : List Char) :
    Formats (debug_str T (encode cs)) (34 :: (cs.flatMap (debug_form T) ++ [34])) :=
  (write_char_emits '\x22').attempt
    (debug_loop_emits T cs [] [] _ (lt_succ_self _))

end RustStd.Fmt.Escape
