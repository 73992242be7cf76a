import Mathlib.Data.List.Basic
import RustStd.Foundations.Exec

/-!
# Buffers that are filled piece by piece

A buffer of bytes that may not be written yet. Writing past the end panics and reading a byte
that was never written is a fault. `splice` is what consecutive writes amount to.
-/

namespace RustStd.Fmt

open List

/-- `[MaybeUninit<u8>]` -/
abbrev Buffer := List (Option UInt8)

/-- `[MaybeUninit::<u8>::uninit(); n]` -/
def uninit (n : ℕ) : Buffer := replicate n none

/-- `buf[i].write(b)` -/
def write (buf : Buffer) (i : ℕ) (b : UInt8) : Exec Buffer :=
  if i < buf.length then .ok (buf.set i (some b)) else .error .panic

/-- `hint::assert_unchecked` -/
def assert_unchecked (c : Prop) [Decidable c] : Exec Unit :=
  if c then .ok () else .error .fault

/-- The bytes of a slice that has been written. -/
def assume_init : Buffer → Exec (List UInt8)
  | [] => .ok []
  | none :: _ => .error .fault
  | some b :: buf => do
    let bs ← assume_init buf
    return b :: bs

/-- `slice_buffer_to_str`: what has been written from `offset` on. -/
def slice_buffer_to_str (buf : Buffer) (offset : ℕ) : Exec (List UInt8) :=
  if offset ≤ buf.length then assume_init (buf.drop offset) else .error .fault

/-- The buffer with `bs` written from `i` on. -/
def splice (buf : Buffer) (i : ℕ) (bs : List UInt8) : Buffer :=
  buf.take i ++ bs.map some ++ buf.drop (i + bs.length)

theorem assert_unchecked_eq {c : Prop} [Decidable c] (h : c) : assert_unchecked c = .ok () :=
  if_pos h

theorem assume_init_map (bs : List UInt8) : assume_init (bs.map some) = .ok bs := by
  induction bs with
  | nil => rfl
  | cons b bs ih => rw [map_cons, assume_init, ih]; rfl

variable {buf : Buffer} {bs : List UInt8} {i : ℕ}

theorem length_splice (h : i + bs.length ≤ buf.length) :
    (splice buf i bs).length = buf.length := by
  simp only [splice, length_append, length_take, length_map, length_drop]
  omega

theorem write_eq_splice (h : i < buf.length) (b : UInt8) :
    write buf i b = .ok (splice buf i [b]) := by
  rw [write, if_pos h, set_eq_take_append_cons_drop, if_pos h]
  simp [splice]

/-- Writing on after the last piece. -/
theorem splice_splice {k : ℕ} {cs : List UInt8} (hk : bs.length = k) (h : i + k ≤ buf.length) :
    splice (splice buf i bs) (i + k) cs = splice buf i (bs ++ cs) := by
  subst hk
  have hlen : (buf.take i ++ bs.map some).length = i + bs.length := by
    simp only [length_append, length_take, length_map]
    omega
  rw [splice, splice, ← hlen, take_left, drop_append, hlen,
    drop_eq_nil_of_le (by omega), nil_append, drop_drop, splice, map_append,
    length_append]
  simp only [append_assoc]
  congr 4
  omega

theorem drop_splice (h : i ≤ buf.length) :
    (splice buf i bs).drop i = bs.map some ++ buf.drop (i + bs.length) := by
  have hlen : (buf.take i).length = i := by
    rw [length_take]
    omega
  rw [splice, append_assoc, drop_append, hlen, drop_eq_nil_of_le (by omega),
    Nat.sub_self, drop_zero, nil_append]

/-- Writing on before the last piece. -/
theorem splice_splice_left {k : ℕ} {cs : List UInt8} (hk : cs.length = k)
    (h : i + k + bs.length ≤ buf.length) :
    splice (splice buf (i + k) bs) i cs = splice buf i (cs ++ bs) := by
  subst hk
  have hdrop : (splice buf (i + cs.length) bs).drop (i + cs.length) =
      bs.map some ++ buf.drop (i + cs.length + bs.length) := drop_splice (by omega)
  have htake : (splice buf (i + cs.length) bs).take i = buf.take i := by
    rw [splice, append_assoc, take_append_of_le_length (by rw [length_take]; omega),
      take_take, Nat.min_eq_left (Nat.le_add_right i _)]
  rw [splice, hdrop, htake, splice, map_append, length_append]
  simp [Nat.add_assoc]

/-- What has been written up to the end is read back. -/
theorem slice_splice
    (h : i + bs.length = buf.length) : slice_buffer_to_str (splice buf i bs) i = .ok bs := by
  rw [slice_buffer_to_str, length_splice (by omega), if_pos (by omega), drop_splice (by omega),
    drop_eq_nil_of_le (by omega), append_nil, assume_init_map]

end RustStd.Fmt
