import RustStd.Str.Wtf8Core

/-!
# WTF-8 buffers

The functions of `alloc/src/wtf8/mod.rs` that build a `Wtf8Buf` and turn it into a string, with
`decode_utf16` of `core/src/char/decode.rs`. A buffer is a list of bytes with the flag that they are
known to be UTF-8. A slice out of range, an underflow and a `char` that is none are faults, and so
is the panic of `truncate`.
-/

namespace RustStd

open Utf16

/-- A `&str`. -/
structure Utf8Str where
  bytes : List UInt8
  valid : Utf8.WellFormed bytes

/-- A `&Wtf8`. -/
structure Wtf8 where
  bytes : List UInt8
  valid : Wtf8.WellFormed bytes

structure Wtf8Buf where
  bytes : List UInt8
  is_known_utf8 : Bool
  deriving DecidableEq

structure DecodeUtf16 where
  iter : List UInt16
  buf : Option UInt16

/-- `u16::is_utf16_surrogate` -/
def is_utf16_surrogate (u : UInt16) : Bool := 0xD800 ≤ u && u ≤ 0xDFFF

/-- `DecodeUtf16::next`; the error is the unpaired surrogate. -/
def DecodeUtf16.next (self : DecodeUtf16) : Option (Option (Except UInt16 Char) × DecodeUtf16) := do
  let (u, self) := match self.buf with
    | some buf => (some buf, { self with buf := none })
    | none => (self.iter.head?, { self with iter := self.iter.tail })
  match u with
  | none => return (none, self)
  | some u =>
    if ! is_utf16_surrogate u then return (some (.ok (← from_u32_unchecked u.toNat)), self)
    else if u ≥ 0xDC00 then return (some (.error u), self)
    else match self.iter with
    | [] => return (some (.error u), self)
    | u2 :: iter =>
      if u2 < 0xDC00 ∨ u2 > 0xDFFF then return (some (.error u), ⟨iter, some u2⟩)
      else
        let c := ((u &&& 0x3ff).toNat <<< 10 ||| (u2 &&& 0x3ff).toNat) + 0x10000
        return (some (.ok (← from_u32_unchecked c)), { self with iter })

/-- `CodePoint::to_lead_surrogate` -/
def to_lead_surrogate (self : CodePoint) : Option UInt16 :=
  if 0xD800 ≤ self.toNat ∧ self.toNat ≤ 0xDBFF then some (UInt16.ofNat self.toNat) else none

/-- `CodePoint::to_trail_surrogate` -/
def to_trail_surrogate (self : CodePoint) : Option UInt16 :=
  if 0xDC00 ≤ self.toNat ∧ self.toNat ≤ 0xDFFF then some (UInt16.ofNat self.toNat) else none

def decode_surrogate_pair (lead trail : UInt16) : Option Char := do
  let high ← checkedSub lead.toNat 0xD800
  let low ← checkedSub trail.toNat 0xDC00
  from_u32_unchecked (0x10000 + (high <<< 10 ||| low))

namespace Wtf8Buf

open Wtf8

variable (self : Wtf8Buf)

def new : Wtf8Buf := ⟨[], true⟩

def push_code_point_unchecked (code_point : CodePoint) : Wtf8Buf :=
  { self with bytes := self.bytes ++ encode_utf8_raw code_point.toNat }

def push_char (c : Char) : Wtf8Buf := self.push_code_point_unchecked (ofChar c)

def push_str (other : Utf8Str) : Wtf8Buf := { self with bytes := self.bytes ++ other.bytes }

def push_wtf8 (other : Wtf8) : Option Wtf8Buf := do
  match final_lead_surrogate self.bytes, initial_trail_surrogate other.bytes with
  | some lead, some trail =>
    let len_without_lead_surrogate ← checkedSub self.bytes.length 3
    let self := { self with bytes := self.bytes.take len_without_lead_surrogate }
    let other_without_trail_surrogate ← slice_from other.bytes 3
    let self := self.push_char (← decode_surrogate_pair lead trail)
    return { self with bytes := self.bytes ++ other_without_trail_surrogate }
  | _, _ =>
    let surrogate ← (if self.is_known_utf8 then next_surrogate other.bytes 0 else some none)
    let self := if surrogate.isSome then { self with is_known_utf8 := false } else self
    return { self with bytes := self.bytes ++ other.bytes }

def push (code_point : CodePoint) : Option Wtf8Buf := do
  match to_trail_surrogate code_point with
  | some trail =>
    match final_lead_surrogate self.bytes with
    | some lead =>
      let len_without_lead_surrogate ← checkedSub self.bytes.length 3
      let self := { self with bytes := self.bytes.take len_without_lead_surrogate }
      return self.push_char (← decode_surrogate_pair lead trail)
    | none => return { self with is_known_utf8 := false }.push_code_point_unchecked code_point
  | none =>
    let self := if (to_lead_surrogate code_point).isSome then { self with is_known_utf8 := false }
      else self
    return self.push_code_point_unchecked code_point

def extend (iter : List CodePoint) : Option Wtf8Buf := iter.foldlM push self

def truncate (new_len : ℕ) : Option Wtf8Buf :=
  if is_code_point_boundary self.bytes new_len then
    some { self with bytes := self.bytes.take new_len }
  else none

/-- A turn of the loop of `from_wide`. -/
def from_wide_turn (s : DecodeUtf16 × Wtf8Buf) : Option (Turn (DecodeUtf16 × Wtf8Buf) Wtf8Buf) := do
  match ← s.1.next with
  | (none, _) => return .done s.2
  | (some (.ok ch), iter) => return .again (iter, s.2.push_char ch)
  | (some (.error surrogate), iter) =>
    let string := { s.2 with is_known_utf8 := false }
    return .again (iter, string.push_code_point_unchecked (ofUnit surrogate))

def from_wide (v : List UInt16) : Option Wtf8Buf :=
  runLoop from_wide_turn (v.length + 1) (⟨v, none⟩, new)

/-- `into_string`; the string is the bytes. -/
def into_string : Option (Except Wtf8Buf (List UInt8)) := do
  if self.is_known_utf8 then return .ok self.bytes
  else if (← next_surrogate self.bytes 0).isNone then return .ok self.bytes
  else return .error self

/-- A turn of the loop of `into_string_lossy`, over the bytes and `pos`. -/
def into_string_lossy_turn (s : List UInt8 × ℕ) : Option (Turn (List UInt8 × ℕ) (List UInt8)) := do
  match ← next_surrogate s.1 s.2 with
  | none => return .done s.1
  | some (surrogate_pos, _) =>
    let pos := surrogate_pos + 3
    let head ← slice_to s.1 surrogate_pos
    return .again (head ++ [0xEF, 0xBF, 0xBD] ++ (← slice_from s.1 pos), pos)

def into_string_lossy : Option (List UInt8) :=
  if ! self.is_known_utf8 then
    runLoop into_string_lossy_turn (self.bytes.length + 1) (self.bytes, 0)
  else some self.bytes

/-- The operations. -/
inductive Op
  | from_wide (v : List UInt16)
  | push (code_point : CodePoint)
  | push_char (c : Char)
  | push_str (other : Utf8Str)
  | push_wtf8 (other : Wtf8)
  | extend (iter : List CodePoint)
  | truncate (new_len : ℕ)

/-- One operation. -/
def Op.apply (self : Wtf8Buf) : Op → Option Wtf8Buf
  | from_wide v => Wtf8Buf.from_wide v
  | push code_point => self.push code_point
  | push_char c => some (self.push_char c)
  | push_str other => some (self.push_str other)
  | push_wtf8 other => self.push_wtf8 other
  | extend iter => self.extend iter
  | truncate new_len => self.truncate new_len

/-- A sequence of operations. -/
def run (ops : List Op) : Option Wtf8Buf := ops.foldlM Op.apply self

end Wtf8Buf

end RustStd
