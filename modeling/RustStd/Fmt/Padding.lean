import RustStd.Fmt.Formatter
import RustStd.Foundations.Digits
import RustStd.Str.CharIter

/-!
# Padding

`Formatter::pad`, `pad_integral` and `pad_formatted_parts`, with a sink that accepts every write.
Widths and paddings are `u16` values; a cast that would lose a bit and a difference that would
underflow answer nothing. Each of the three writes its text once, between fill characters that make
up the width, and leaves the options as they were (`formatter_pads`).

`chars().count()` is the general case of `count_chars`, which is the same number by
`count_chars_spec`. `Numfmt.Formatted.len` adds without a bound, where the sum of the source is a
`usize`. The functions of the same names that only return a text, which the models of `Display` use,
return what these write (`pad_integral_agrees`, `pad_agrees`).
-/

namespace RustStd.Fmt

open List StrIter Utf8

/-- `usize as u16` -/
def as_u16 (n : ℕ) : Option UInt16 := if n < 2 ^ 16 then some (.ofNat n) else none

/-- `a - b` -/
def sub_u16 (a b : UInt16) : Option UInt16 := if b ≤ a then some (a - b) else none

/-- The formatter, and what its sink was given. -/
structure Formatter where
  options : FormattingOptions
  buf : List UInt8

structure PostPadding where
  fill : Char
  padding : UInt16

/-- `numfmt::Part` -/
inductive Part
  | Zero (nzeroes : ℕ)
  | Num (v : UInt16)
  | Copy (buf : List UInt8)

def Part.len : Part → ℕ
  | Zero nzeroes => nzeroes
  | Num v => Nat.log 10 v.toNat + 1
  | Copy buf => buf.length

/-- `numfmt::Formatted`: the sign is empty, `-` or `+`. -/
structure Numfmt.Formatted where
  sign : List UInt8
  parts : List Part
  sign_le : sign.length ≤ 1

def Numfmt.Formatted.len (self : Numfmt.Formatted) : ℕ :=
  self.sign.length + (self.parts.map Part.len).sum

namespace Formatter

variable (self : Formatter)

def write_str (s : List UInt8) : Formatter := { self with buf := self.buf ++ s }

def write_char (c : Char) : Formatter := self.write_str (String.utf8EncodeChar c)

/-- The loops that write the fill character. -/
def write_fill (self : Formatter) (fill : Char) : ℕ → Formatter
  | 0 => self
  | n + 1 => (self.write_char fill).write_fill fill n

def padding (padding : UInt16) (default : Alignment) : Option (PostPadding × Formatter) := do
  let padding_left :=
    match self.options.align.getD default with
    | .Left => 0
    | .Right => padding
    | .Center => padding / 2
  let fill := self.options.fill
  return (⟨fill, ← sub_u16 padding padding_left⟩, self.write_fill fill padding_left.toNat)

/-- `PostPadding::write` -/
def write_post (post : PostPadding) : Formatter := self.write_fill post.fill post.padding.toNat

def write_prefix (sign : Option Char) (pre : Option (List UInt8)) : Formatter :=
  let self := match sign with
    | some c => self.write_char c
    | none => self
  match pre with
  | some pre => self.write_str pre
  | none => self

/-- `self.options.fill('0').align(Some(Alignment::Right))` -/
def zero_padded : Formatter :=
  { self with options := { self.options with fill := '0', align := some .Right } }

def pad_integral (is_nonnegative : Bool) (pre buf : List UInt8) : Option Formatter := do
  let width := buf.length
  let (sign, width) :=
    if ! is_nonnegative then (some '-', width + 1)
    else if self.options.sign_plus then (some '+', width + 1)
    else (none, width)
  let (pre, width) :=
    if self.options.alternate then (some pre, width + char_count_general_case pre)
    else (none, width)
  let min := self.options.width.getD 0
  if width ≥ min.toNat then
    let self := write_prefix self sign pre
    return self.write_str buf
  else if self.options.sign_aware_zero_pad then
    let old_options := self.options
    let self := write_prefix self.zero_padded sign pre
    let (post_padding, self) ← self.padding (← sub_u16 min (← as_u16 width)) .Right
    return { (self.write_str buf).write_post post_padding with options := old_options }
  else
    let (post_padding, self) ← self.padding (← sub_u16 min (← as_u16 width)) .Right
    let self := write_prefix self sign pre
    return (self.write_str buf).write_post post_padding

/-- The text that `pad` shows, and its chars: `precision` is a maximal width. -/
def truncated (t : Target) (s : List UInt8) : Option (List UInt8 × ℕ) :=
  match self.options.precision with
  | some max_char_count => do
    let (remaining, iter) ←
      (CharIndices.iterator t false 0).front.advance_by (.new s) max_char_count.toNat
    return (s.take iter.offset, ← checkedSub max_char_count.toNat remaining)
  | none => some (s, char_count_general_case s)

def pad (t : Target) (s : List UInt8) : Option Formatter := do
  if self.options.width.isNone && self.options.precision.isNone then return self.write_str s
  let (s, char_count) ← self.truncated t s
  let width := self.options.width.getD 0
  if char_count < width.toNat then
    let (post_padding, self) ← self.padding (← sub_u16 width (← as_u16 char_count)) .Left
    return (self.write_str s).write_post post_padding
  else return self.write_str s

/-- `ZEROES` is 64 zeros. -/
def write_zeroes (self : Formatter) (nzeroes : ℕ) : Formatter :=
  if nzeroes > 64 then (self.write_str (replicate 64 48)).write_zeroes (nzeroes - 64)
  else if nzeroes > 0 then self.write_str (replicate nzeroes 48)
  else self
termination_by nzeroes

/-- The bytes `s[..len]` that the loop writes from the last one on. -/
def num_bytes : ℕ → ℕ → List UInt8
  | 0, _ => []
  | len + 1, v => num_bytes len (v / 10) ++ [48 + UInt8.ofNat (v % 10)]

/-- A part; the digits of a number have five bytes of room. -/
def write_part (part : Part) : Option Formatter :=
  match part with
  | .Zero nzeroes => some (self.write_zeroes nzeroes)
  | .Num v => if part.len ≤ 5 then some (self.write_str (num_bytes part.len v.toNat)) else none
  | .Copy buf => some (self.write_str buf)

def write_formatted_parts (formatted : Numfmt.Formatted) : Option Formatter :=
  formatted.parts.foldlM write_part
    (if formatted.sign.isEmpty then self else self.write_str formatted.sign)

def pad_formatted_parts (formatted : Numfmt.Formatted) : Option Formatter := do
  let width := self.options.width.getD 0
  if width = 0 then self.write_formatted_parts formatted
  else
    let old_options := self.options
    let (self, formatted, width) ←
      if self.options.sign_aware_zero_pad then do
        let sign_len ← as_u16 formatted.sign.length
        -- `saturating_sub`
        let width := if sign_len ≤ width then width - sign_len else 0
        pure ((self.write_str formatted.sign).zero_padded,
          { formatted with sign := [], sign_le := Nat.zero_le 1 }, width)
      else pure (self, formatted, width)
    let len := formatted.len
    let ret ←
      if width.toNat ≤ len then self.write_formatted_parts formatted
      else do
        let (post_padding, self) ← self.padding (← sub_u16 width (← as_u16 len)) .Right
        pure <| (← self.write_formatted_parts formatted).write_post post_padding
    return { ret with options := old_options }

/-! ## Writing -/

@[simp] theorem write_str_nil : self.write_str [] = self := by
  rw [write_str, append_nil]

@[simp] theorem write_str_write_str (s s' : List UInt8) :
    (self.write_str s).write_str s' = self.write_str (s ++ s') := by
  rw [write_str, write_str, write_str, append_assoc]

@[simp] theorem write_fill_eq (fill : Char) (n : ℕ) :
    self.write_fill fill n = self.write_str (fill_chars fill n) := by
  induction n generalizing self with
  | zero => exact self.write_str_nil.symm
  | succ n ih =>
    rw [write_fill, ih, write_char, write_str_write_str]
    rfl

@[simp] theorem write_prefix_eq (sign : Option Char) (pre : Option (List UInt8)) :
    write_prefix self sign pre = self.write_str (encode sign.toList ++ pre.getD []) := by
  cases sign <;> cases pre <;> simp [write_char, write_prefix, encode]

theorem write_zeroes_eq (n : ℕ) : self.write_zeroes n = self.write_str (replicate n 48) := by
  induction n using Nat.strongRecOn generalizing self with
  | ind n ih =>
    rw [write_zeroes]
    split
    · next h =>
      rw [ih _ (by omega), write_str_write_str, ← replicate_add, Nat.add_sub_cancel' (by omega)]
    · split
      · rfl
      · next h => rw [Nat.eq_zero_of_not_pos h, replicate_zero, write_str_nil]

end Formatter

/-! ## Parts -/

/-- The text of a part: a number is written in decimal. -/
def Part.text : Part → List UInt8
  | Zero nzeroes => replicate nzeroes 48
  | Num v => (Digits.numeral 10 v.toNat).map fun d => 48 + UInt8.ofNat d
  | Copy buf => buf

/-- The text behind the sign. -/
def Numfmt.Formatted.body (self : Numfmt.Formatted) : List UInt8 := self.parts.flatMap Part.text

/-- How fill characters lie on two sides; in the middle the right side gets the extra one. -/
def Alignment.Sides : Alignment → ℕ → ℕ → Prop
  | Left, l, _ => l = 0
  | Right, _, r => r = 0
  | Center, l, r => l = (l + r) / 2

/-- The last digits are all digits. -/
theorem padded_log (n : ℕ) : Digits.padded 10 (Nat.log 10 n + 1) n = Digits.numeral 10 n := by
  by_cases hn : n = 0
  · subst hn
    rfl
  · rw [Digits.numeral_of_pos hn,
      Digits.digits_eq_append_padded (by decide) (Nat.pow_log_le_self 10 hn),
      Nat.div_eq_of_lt (Nat.lt_pow_succ_log_self (by decide) n), Digits.digits_zero, nil_append]

theorem num_bytes_eq (len v : ℕ) :
    Formatter.num_bytes len v = (Digits.padded 10 len v).map fun d => 48 + UInt8.ofNat d := by
  induction len generalizing v with
  | zero => rfl
  | succ len ih =>
    rw [Formatter.num_bytes, ih, Digits.padded_succ, map_append]
    rfl

theorem Part.length_text (part : Part) : part.text.length = part.len := by
  cases part with
  | Zero nzeroes => exact length_replicate
  | Num v => rw [text, length_map, ← padded_log, Digits.length_padded, len]
  | Copy buf => rfl

theorem Numfmt.Formatted.len_eq (self : Numfmt.Formatted) :
    self.len = self.sign.length + self.body.length := by
  simp only [len, body, length_flatMap, Part.length_text]

namespace Formatter

variable (self : Formatter)

theorem write_part_eq (part : Part) : self.write_part part = some (self.write_str part.text) := by
  cases part with
  | Zero nzeroes => exact congrArg some (self.write_zeroes_eq nzeroes)
  | Num v =>
    have hlen : (Part.Num v).len ≤ 5 :=
      Nat.log_lt_of_lt_pow' (by decide) (v.toNat_lt.trans (by decide))
    rw [write_part, if_pos hlen, num_bytes_eq, Part.len, padded_log]
    rfl
  | Copy buf => rfl

theorem write_formatted_parts_eq (formatted : Numfmt.Formatted) :
    self.write_formatted_parts formatted =
      some (self.write_str (formatted.sign ++ formatted.body)) := by
  have hparts (f : Formatter) (parts : List Part) :
      parts.foldlM write_part f = some (f.write_str (parts.flatMap Part.text)) := by
    induction parts generalizing f with
    | nil => simp
    | cons part parts ih => simp [write_part_eq, ih]
  rw [write_formatted_parts, hparts, Numfmt.Formatted.body]
  cases formatted.sign <;> simp

/-! ## The width -/

theorem sub_u16_eq {a b : UInt16} (h : b.toNat ≤ a.toNat) :
    ∃ c, sub_u16 a b = some c ∧ b.toNat + c.toNat = a.toNat := by
  have hle := UInt16.le_iff_toNat_le.mpr h
  refine ⟨a - b, if_pos hle, ?_⟩
  rw [UInt16.toNat_sub_of_le _ _ hle]
  omega

theorem padding_eq (count : UInt16) (default : Alignment) : ∃ l r, self.padding count default =
      some (⟨self.options.fill, r⟩, self.write_str (fill_chars self.options.fill l)) ∧
    l + r.toNat = count.toNat ∧ (self.options.align.getD default).Sides l r.toNat := by
  unfold padding
  cases self.options.align.getD default with
  | Left =>
    obtain ⟨r, hsub, hsum⟩ := sub_u16_eq (a := count) (b := 0) (Nat.zero_le _)
    exact ⟨_, r, by simp [hsub], hsum, rfl⟩
  | Right =>
    obtain ⟨r, hsub, hsum⟩ := sub_u16_eq (a := count) (b := count) le_rfl
    exact ⟨_, r, by simp [hsub], hsum, show r.toNat = 0 by omega⟩
  | Center =>
    have hhalf : (count / 2).toNat = count.toNat / 2 := UInt16.toNat_div ..
    obtain ⟨r, hsub, hsum⟩ := sub_u16_eq (a := count) (b := count / 2) (by omega)
    exact ⟨_, r, by simp [hsub], hsum, by rw [Alignment.Sides, hsum, hhalf]⟩

/-- What is short of the width is made up, and no bit gets lost. -/
theorem padding_width {width : UInt16} {n : ℕ} (h : n < width.toNat) :
    ∃ c count, as_u16 n = some c ∧ sub_u16 width c = some count ∧
      n + count.toNat = width.toNat := by
  have hlt := h.trans width.toNat_lt
  have hcast : (UInt16.ofNat n).toNat = n := UInt16.toNat_ofNat_of_lt' hlt
  obtain ⟨count, hsub, hsum⟩ := sub_u16_eq (a := width) (b := .ofNat n) (by omega)
  exact ⟨_, count, if_pos hlt, hsub, by rwa [hcast] at hsum⟩

/-- **A padded text**: what the sink was given before, then `front`, fill characters and `text`, and
more of them; `unpadded` is how wide it is without them. The options stay. -/
def Pads (fill : Char) (align : Alignment) (front text : List UInt8) (unpadded : ℕ)
    (m : Option Formatter) : Prop :=
  ∃ l r f, m = some f ∧
    f.buf = self.buf ++ (front ++ fill_chars fill l ++ text ++ fill_chars fill r) ∧
    f.options = self.options ∧ align.Sides l r ∧
    l + unpadded + r = max (self.options.width.getD 0).toNat unpadded

/-- The numeric forms: under the zero flag the zeros stand behind the sign and the prefix. -/
def PadsNumber (head digits : List UInt8) (unpadded : ℕ) (m : Option Formatter) : Prop :=
  if self.options.sign_aware_zero_pad then self.Pads '0' .Right head digits unpadded m
  else self.Pads self.options.fill (self.options.align.getD .Right) [] (head ++ digits) unpadded m

/-- The sign that `pad_integral` writes. -/
def sign (is_nonnegative : Bool) : Option Char :=
  if ! is_nonnegative then some '-' else if self.options.sign_plus then some '+' else none

/-- The chars that `pad` shows. -/
def shown (cs : List Char) : List Char :=
  match self.options.precision with
  | some max_char_count => cs.take max_char_count.toNat
  | none => cs

variable {self} {fill : Char} {align : Alignment} {front text : List UInt8} {unpadded : ℕ}

theorem Pads.of_eq {m : Option Formatter} (l r : ℕ)
    (h : m = some (self.write_str (front ++ fill_chars fill l ++ text ++ fill_chars fill r)))
    (hsides : align.Sides l r)
    (hwidth : l + unpadded + r = max (self.options.width.getD 0).toNat unpadded) :
    self.Pads fill align front text unpadded m :=
  ⟨l, r, _, h, rfl, rfl, hsides, hwidth⟩

theorem Pads.of_fits (h : (self.options.width.getD 0).toNat ≤ unpadded) :
    self.Pads fill align front text unpadded (some (self.write_str (front ++ text))) := by
  refine .of_eq 0 0 (by simp [fill_chars]) ?_ (by omega)
  cases align <;> rfl

theorem PadsNumber.of_fits (h : (self.options.width.getD 0).toNat ≤ unpadded) :
    self.PadsNumber front text unpadded (some (self.write_str (front ++ text))) := by
  unfold PadsNumber
  split
  · exact .of_fits h
  · exact .of_fits h

/-- The code around `padding`, where the width is not reached. -/
theorem padding_run (f : Formatter) {width : UInt16} {n : ℕ} (h : n < width.toNat)
    (default : Alignment) {k : PostPadding × Formatter → Option Formatter}
    {P : Option Formatter → Prop} (hk : ∀ l r, l + n + r.toNat = width.toNat →
      (f.options.align.getD default).Sides l r.toNat →
      P (k (⟨f.options.fill, r⟩, f.write_str (fill_chars f.options.fill l)))) :
    P (do k (← f.padding (← sub_u16 width (← as_u16 n)) default)) := by
  obtain ⟨c, count, hcast, hsub, hsum⟩ := padding_width h
  obtain ⟨l, r, hpadding, hsides, halign⟩ := f.padding_eq count default
  simp only [hcast, hsub, hpadding, Option.bind_eq_bind, Option.bind_some]
  exact hk l r (by omega) halign

theorem pad_integral_pads (is_nonnegative : Bool) (pre : List Char) (buf : List UInt8) :
    let chars := (self.sign is_nonnegative).toList ++ if self.options.alternate then pre else []
    self.PadsNumber (encode chars) buf (buf.length + chars.length)
      (self.pad_integral is_nonnegative (encode pre) buf) := by
  intro chars
  have hsign : (if ! is_nonnegative then (some '-', buf.length + 1)
      else if self.options.sign_plus then (some '+', buf.length + 1) else (none, buf.length)) =
      (self.sign is_nonnegative, buf.length + (self.sign is_nonnegative).toList.length) := by
    unfold sign
    split_ifs <;> rfl
  have hpre (w : ℕ) : (if self.options.alternate then
        (some (encode pre), w + char_count_general_case (encode pre)) else (none, w)) =
      (if self.options.alternate then some (encode pre) else none,
        w + (if self.options.alternate then pre else []).length) := by
    split
    · rw [count_encode]
    · rfl
  have hhead : encode (self.sign is_nonnegative).toList ++
      (if self.options.alternate then some (encode pre) else none).getD [] = encode chars := by
    rw [encode_append]
    split <;> rfl
  have hlen : buf.length + chars.length = buf.length + (self.sign is_nonnegative).toList.length +
      (if self.options.alternate then pre else []).length := by
    rw [length_append, Nat.add_assoc]
  rw [pad_integral]
  simp only [hsign, hpre, write_prefix_eq, hhead, ← hlen, write_str_write_str]
  split
  · next hfits => exact .of_fits hfits
  next hshort =>
  have hmax := Nat.max_eq_left (Nat.le_of_not_le hshort)
  unfold PadsNumber
  split
  · refine padding_run _ (Nat.lt_of_not_le hshort) .Right fun l r hsum hsides => ?_
    exact .of_eq l r.toNat (by simp [write_post, zero_padded, write_str]) hsides (by omega)
  · refine padding_run self (Nat.lt_of_not_le hshort) .Right fun l r hsum hsides => ?_
    exact .of_eq l r.toNat (by simp [write_post]) hsides (by omega)

theorem sat_sub_u16 (a b : UInt16) : (if b ≤ a then a - b else 0).toNat = a.toNat - b.toNat := by
  split
  · next h => exact UInt16.toNat_sub_of_le _ _ h
  · next h =>
    rw [UInt16.le_iff_toNat_le] at h
    exact (Nat.sub_eq_zero_of_le (by omega)).symm

theorem pad_formatted_parts_pads (formatted : Numfmt.Formatted) :
    self.PadsNumber formatted.sign formatted.body (formatted.sign.length + formatted.body.length)
      (self.pad_formatted_parts formatted) := by
  rw [← formatted.len_eq, pad_formatted_parts]
  simp only [write_formatted_parts_eq]
  split
  · next hwidth => exact .of_fits (by simp [hwidth])
  unfold PadsNumber
  split
  · -- the rest is padded to what the sign leaves of the width
    have hsign := formatted.sign_le.trans_lt (show 1 < 2 ^ 16 by decide)
    have hlen := formatted.len_eq
    have hrest := sat_sub_u16 (self.options.width.getD 0) (.ofNat formatted.sign.length)
    rw [UInt16.toNat_ofNat_of_lt' hsign] at hrest
    have hcast : as_u16 formatted.sign.length = some (.ofNat formatted.sign.length) := if_pos hsign
    simp only [hcast, Option.pure_def, Option.bind_eq_bind, Option.bind_some]
    generalize (if UInt16.ofNat formatted.sign.length ≤ self.options.width.getD 0 then _ else _) =
      width at hrest ⊢
    have hbody :
        (⟨[], formatted.parts, Nat.zero_le 1⟩ : Numfmt.Formatted).len = formatted.body.length :=
      (Numfmt.Formatted.len_eq _).trans (Nat.zero_add _)
    rw [hbody]
    split
    · next hfits =>
      refine .of_eq 0 0 ?_ rfl (by omega)
      simp [fill_chars, zero_padded, write_str, Numfmt.Formatted.body]
    · next hshort =>
      refine padding_run _ (Nat.lt_of_not_le hshort) .Right fun l r hsum hsides => ?_
      refine .of_eq l r.toNat ?_ hsides (by omega)
      simp [write_post, zero_padded, write_str, Numfmt.Formatted.body]
  · simp only [Option.pure_def, Option.bind_eq_bind, Option.bind_some]
    split
    · next hfits => exact .of_fits hfits
    · next hshort =>
      refine padding_run self (Nat.lt_of_not_le hshort) .Right fun l r hsum hsides => ?_
      exact .of_eq l r.toNat (by simp [write_post, write_str]) hsides (by omega)

theorem length_indices (k : ℕ) (cs : List Char) :
    (CharIndices.indices k cs).length = cs.length := by
  rw [← length_map (f := Prod.snd), CharIndices.map_snd_indices]

theorem truncated_eq {t : Target} {cs : List Char} (h : (encode cs).length ≤ t.usizeMax) :
    self.truncated t (encode cs) = some (encode (self.shown cs), (self.shown cs).length) := by
  rw [truncated, shown]
  cases self.options.precision with
  | none => exact congrArg (fun n => some (encode cs, n)) (count_encode cs)
  | some n =>
    have hnext : IsNext (fun (s : CharIndices) l => ∃ cs', s.iter = encode cs' ∧
        l = CharIndices.indices s.front_offset cs' ∧
        s.front_offset + s.iter.length = (encode cs).length) (CharIndices.next t) := by
      rintro ⟨k, s⟩ l ⟨cs', rfl, rfl, hlen⟩
      cases cs' with
      | nil => exact ⟨⟨k, []⟩, rfl, [], rfl, rfl, hlen⟩
      | cons c cs' =>
        refine ⟨_, CharIndices.next_cons (hlen.le.trans h), cs', rfl, rfl, ?_⟩
        rw [encode_cons, length_append, ← len_utf8_eq] at hlen
        rw [← hlen, Nat.add_assoc]
    have hadvance : IsAdvanceBy n.toNat _ (Iter.Provided.advance_by fun f a s =>
        Iter.Provided.try_fold (CharIndices.next t) (s.iter.length + 1) f a s) :=
      Iter.advance_by_spec fun f a s _ h => Iter.try_fold_spec hnext f a h (by
        obtain ⟨cs', hiter, rfl, -⟩ := h
        rw [length_indices, hiter]
        exact Nat.lt_succ_of_le (Chars.length_le_encode cs'))
    obtain ⟨⟨k, s⟩, hrun, cs', rfl, heq, hlen⟩ :=
      @hadvance (.new (encode cs)) _ n.toNat ⟨cs, rfl, rfl, Nat.zero_add _⟩ le_rfl
    have hrest := congrArg (map Prod.snd) heq
    rw [map_drop, CharIndices.map_snd_indices, CharIndices.map_snd_indices] at hrest
    have hcut : encode (cs.take n.toNat) ++ encode cs' = encode cs := by
      rw [← hrest, ← encode_append, take_append_drop]
    have hk : k = (encode (cs.take n.toNat)).length := by
      rw [← hcut, length_append] at hlen
      exact Nat.add_right_cancel hlen
    have hcount : n.toNat - (n.toNat - cs.length) = (cs.take n.toNat).length := by
      rw [length_take]
      omega
    refine (congrArg (Option.bind · _) hrun).trans ?_
    simp only [CharIndices.offset, Option.bind_some, Option.bind_eq_bind, Option.pure_def]
    rw [checkedSub_eq (Nat.sub_le _ _), length_indices, hcount, ← hcut, hk, take_left]
    rfl

/-- The strings fit in memory. -/
structure Str (t : Target) where
  chars : List Char
  fits : (encode chars).length ≤ t.usizeMax

theorem pad_pads {t : Target} (s : Str t) :
    self.Pads self.options.fill (self.options.align.getD .Left) [] (encode (self.shown s.chars))
      (self.shown s.chars).length (self.pad t (encode s.chars)) := by
  rw [pad, truncated_eq s.fits]
  split
  · next hplain =>
    obtain ⟨hwidth, hprecision⟩ := Bool.and_eq_true_iff.mp hplain
    rw [Option.isNone_iff_eq_none] at hwidth hprecision
    have hshown : self.shown s.chars = s.chars := by rw [shown, hprecision]
    rw [hshown]
    exact .of_fits (by simp [hwidth])
  simp only [Option.bind_eq_bind, Option.bind_some]
  split
  · next hshort =>
    refine padding_run self hshort .Left fun l r hsum hsides => ?_
    exact .of_eq l r.toNat (by simp [write_post]) hsides (by omega)
  · next hfits => exact .of_fits (Nat.le_of_not_lt hfits)

/-- **Padding** writes sign, prefix and text once and in order, the text of `pad` cut to the
precision, with fill characters on the sides of the alignment up to the width. No cast or difference
of widths loses a bit, and the options are as before. -/
theorem formatter_pads (self : Formatter) :
    (∀ (t : Target) (s : Str t), self.Pads self.options.fill (self.options.align.getD .Left) []
      (encode (self.shown s.chars)) (self.shown s.chars).length (self.pad t (encode s.chars))) ∧
    (∀ (is_nonnegative : Bool) (pre : List Char) (buf : List UInt8),
      let chars := (self.sign is_nonnegative).toList ++ if self.options.alternate then pre else []
      self.PadsNumber (encode chars) buf (buf.length + chars.length)
        (self.pad_integral is_nonnegative (encode pre) buf)) ∧
    ∀ formatted : Numfmt.Formatted, self.PadsNumber formatted.sign formatted.body
      (formatted.sign.length + formatted.body.length) (self.pad_formatted_parts formatted) :=
  ⟨fun _ => pad_pads, pad_integral_pads, pad_formatted_parts_pads⟩

end Formatter

/-! ## The pure functions -/

theorem mask_iff (b : UInt8) : b &&& 0xC0 = 0x80 ↔ Tail b := by
  have h : ∀ i : Fin 256, UInt8.ofNat i.val &&& 0xC0 = 0x80 ↔ Tail (UInt8.ofNat i.val) := by
    decide +kernel
  simpa using h ⟨b.toNat, b.toNat_lt⟩

theorem chars_count_encode (cs : List Char) : chars_count (encode cs) = cs.length := by
  rw [← count_encode, chars_count, char_count_general_case]
  refine countP_congr fun b _ => ?_
  simp [mask_iff, ← utf8_is_cont_byte_iff]

/-- Continuation bytes do not count. -/
theorem take_chars_tails {bs : List UInt8} (h : ∀ b ∈ bs, Tail b) (n : ℕ) (s : List UInt8) :
    take_chars n (bs ++ s) = bs ++ take_chars n s := by
  induction bs with
  | nil => rfl
  | cons b bs ih =>
    rw [cons_append, take_chars.eq_def]
    dsimp only
    rw [if_pos ((mask_iff b).mpr (h b mem_cons_self)), ih fun c hc => h c (mem_cons_of_mem b hc)]
    rfl

theorem take_chars_encode (n : ℕ) (cs : List Char) :
    take_chars n (encode cs) = encode (cs.take n) := by
  induction cs generalizing n with
  | nil => rw [take_nil, encode_nil, take_chars]
  | cons c cs ih =>
    obtain ⟨a, tl, henc, ha, htl, -⟩ := exists_lead c
    rw [encode_cons, henc, cons_append]
    cases n with
    | zero => exact if_neg ((mask_iff a).not.mpr ha)
    | succ n =>
      rw [take_chars, if_neg ((mask_iff a).not.mpr ha), take_chars_tails htl, ih, take_succ_cons,
        encode_cons, henc]
      rfl

namespace Formatter

variable {self : Formatter} {fill : Char} {align : Alignment} {front text : List UInt8} {n : ℕ}
  {m : Option Formatter}

/-- The fill characters that `padding` puts on the sides. -/
theorem padding_of_sides {f : FormattingOptions} {default : Alignment} {l r : ℕ}
    (h : (f.align.getD default).Sides l r) :
    Fmt.padding f (l + r) default = (fill_chars f.fill l, fill_chars f.fill r) := by
  unfold Fmt.padding
  cases halign : f.align.getD default with
  | Left | Right =>
    rw [halign, Alignment.Sides] at h
    subst h
    simp
  | Center =>
    rw [halign, Alignment.Sides] at h
    dsimp only
    rw [← h, Nat.add_sub_cancel_left]

/-- What is written where the width is not reached, and where it is. -/
theorem Pads.cases (h : self.Pads fill align front text n m) :
    self.options.min_width ≤ n ∧ m = some (self.write_str (front ++ text)) ∨
    n < self.options.min_width ∧ ∃ l r, l + r = self.options.min_width - n ∧ align.Sides l r ∧
      m = some (self.write_str (front ++ fill_chars fill l ++ text ++ fill_chars fill r)) := by
  obtain ⟨l, r, f, rfl, hbuf, hoptions, hsides, hwidth⟩ := h
  have hf : f = self.write_str (front ++ fill_chars fill l ++ text ++ fill_chars fill r) := by
    rw [write_str, ← hbuf, ← hoptions]
  subst hf
  rw [FormattingOptions.min_width]
  by_cases hfits : (self.options.width.getD 0).toNat ≤ n
  · obtain ⟨rfl, rfl⟩ : l = 0 ∧ r = 0 := by omega
    exact .inl ⟨hfits, by simp [write_str, fill_chars]⟩
  · exact .inr ⟨not_le.mp hfits, l, r, by omega, hsides, rfl⟩

variable (self) in
/-- `pad_integral` writes what the function of the same name returns. -/
theorem pad_integral_agrees (is_nonnegative : Bool) (pre : List Char) (buf : List UInt8) :
    self.pad_integral is_nonnegative (encode pre) buf =
      some (self.write_str (Fmt.pad_integral self.options is_nonnegative (encode pre) buf)) := by
  have hpads := @pad_integral_pads self is_nonnegative pre buf
  have hsign : (if ! is_nonnegative then bytes "-" else if self.options.sign_plus then bytes "+"
      else []) = encode (self.sign is_nonnegative).toList := by
    unfold sign
    split_ifs <;> rfl
  have hpre : (if self.options.alternate then encode pre else []) =
      encode (if self.options.alternate then pre else []) := by
    split <;> rfl
  have hsign_len : (encode (self.sign is_nonnegative).toList).length =
      (self.sign is_nonnegative).toList.length := by
    unfold sign
    split_ifs <;> rfl
  rw [Fmt.pad_integral]
  simp only [hsign, hpre, hsign_len, chars_count_encode, length_append, Nat.add_assoc]
    at hpads ⊢
  unfold PadsNumber at hpads
  split at hpads
  · next hzero =>
    rw [if_pos hzero]
    rcases hpads.cases with ⟨hfits, hm⟩ | ⟨hshort, l, r, hlr, hsides, hm⟩
    · rw [if_pos hfits, hm, encode_append]
    · rw [if_neg (not_le.mpr hshort), ← hlr, hm, encode_append, @padding_of_sides
        { self.options with fill := '0', align := some .Right } .Right l r hsides]
  · next hzero =>
    rw [if_neg hzero]
    rcases hpads.cases with ⟨hfits, hm⟩ | ⟨hshort, l, r, hlr, hsides, hm⟩
    · rw [if_pos hfits, hm, nil_append, encode_append]
    · rw [if_neg (not_le.mpr hshort), ← hlr, hm, padding_of_sides hsides]
      simp

variable (self) in
/-- `pad` writes what the function of the same name returns. -/
theorem pad_agrees {t : Target} (s : Str t) :
    self.pad t (encode s.chars) =
      some (self.write_str (Fmt.pad self.options (encode s.chars))) := by
  have hpads := @pad_pads self _ s
  have hpadded {cs : List Char} (h : self.Pads self.options.fill (self.options.align.getD .Left) []
      (encode cs) cs.length (self.pad t (encode s.chars))) : self.pad t (encode s.chars) =
      some (self.write_str (if chars_count (encode cs) < self.options.min_width then
        (Fmt.padding self.options (self.options.min_width - chars_count (encode cs)) .Left).1 ++
          encode cs ++
          (Fmt.padding self.options (self.options.min_width - chars_count (encode cs)) .Left).2
        else encode cs)) := by
    rw [chars_count_encode]
    rcases h.cases with ⟨hfits, hm⟩ | ⟨hshort, l, r, hlr, hsides, hm⟩
    · rw [if_neg (not_lt.mpr hfits), hm, nil_append]
    · rw [if_pos hshort, ← hlr, hm, padding_of_sides hsides, nil_append]
  rw [Fmt.pad]
  split
  · next hplain =>
    rw [pad, if_pos hplain]
    rfl
  rw [shown] at hpads
  cases hprecision : self.options.precision with
  | none =>
    rw [hprecision] at hpads
    exact hpadded hpads
  | some n =>
    rw [hprecision] at hpads
    dsimp only
    rw [take_chars_encode]
    exact hpadded hpads

end Formatter

end RustStd.Fmt
