import RustStd.Iter.Provided
import RustStd.Str.Count

/-!
# The iterators over the chars of a string

`Chars` and `CharIndices` of `core/src/str/iter.rs`. `Chars` is the remaining bytes of its
`slice::Iter`, and each call gives back what it leaves of them. A read past the remaining bytes, or
arithmetic on `usize` that wraps around, ends with `none`.

`chars_agree`: both are double-ended iterators over the chars that the bytes encode, whatever is
called on them in whatever order.
-/

namespace RustStd.StrIter

open Target UInt8

open Utf8 Validations List Option Nat Bool
open Iter (Provided.nth Provided.advance_by Provided.advance_back_by Provided.try_fold
Provided.fold)

/-! ## The code -/

namespace Chars

def next (self : List UInt8) : Option (Option Char × List UInt8) := do
  match ← next_code_point self with
  | (none, iter) => some (none, iter)
  | (some ch, iter) => return (some (← from_u32_unchecked ch), iter)

def next_back (self : List UInt8) : Option (Option Char × List UInt8) := do
  match ← next_code_point_reverse self with
  | (none, iter) => some (none, iter)
  | (some ch, iter) => return (some (← from_u32_unchecked ch), iter)

def CHUNK_SIZE : ℕ := 32

/-- `as_chunks().0` for chunks of `size` bytes, of which there are so many. -/
def as_chunks (size : ℕ) : ℕ → List UInt8 → List (List UInt8)
  | 0, _ => []
  | n + 1, bytes => bytes.take size :: as_chunks size n (bytes.drop size)

/-- `start_bytes.into_iter().map(|i| i as u8).sum::<u8>()`, which must not overflow -/
def sum_start_bytes (chunk : List UInt8) : Option ℕ :=
  (chunk.map fun b => !utf8_is_cont_byte b).foldlM
    (fun sum i => if sum + i.toNat < 256 then some (sum + i.toNat) else none) 0

/-- The loop over the chunks, with `remainder` and `bytes_skipped`. -/
def advance_chunks : List (List UInt8) → ℕ → ℕ → Option (ℕ × ℕ)
  | [], remainder, bytes_skipped => some (remainder, bytes_skipped)
  | chunk :: chunks, remainder, bytes_skipped =>
    if remainder > CHUNK_SIZE then do
      let remainder ← checkedSub remainder (← sum_start_bytes chunk)
      advance_chunks chunks remainder (bytes_skipped + CHUNK_SIZE)
    else some (remainder, bytes_skipped)

/-- The loop over trailing continuation bytes. -/
def skip_continuation : List UInt8 → List UInt8
  | [] => []
  | b :: iter => if !utf8_is_cont_byte b then b :: iter else skip_continuation iter

/-- The loop that goes char by char. -/
def advance_chars : ℕ → List UInt8 → Option (ℕ × List UInt8)
  | 0, iter => some (0, iter)
  | remainder + 1, [] => some (remainder + 1, [])
  | remainder + 1, b :: iter => do
    let slurp ← utf8_char_width b
    advance_chars remainder (← slice_from (b :: iter) slurp)

/-- The answer is the number of chars that were missing. -/
def advance_by (self : List UInt8) (remainder : ℕ) : Option (ℕ × List UInt8) := do
  if remainder ≥ CHUNK_SIZE then
    let chunks := as_chunks CHUNK_SIZE (self.length / CHUNK_SIZE) self
    let (remainder, bytes_skipped) ← advance_chunks chunks remainder 0
    let iter ← slice_from self bytes_skipped
    advance_chars remainder (skip_continuation iter)
  else advance_chars remainder self

/-- `len.div_ceil(4)` -/
def div_ceil_four (len : ℕ) : ℕ := if len % 4 > 0 then len / 4 + 1 else len / 4

def size_hint (self : List UInt8) : ℕ × Option ℕ := (div_ceil_four self.length, some self.length)

def last (self : List UInt8) : Option (Option Char) := do
  let (x, _) ← next_back self
  return x

def as_str (self : List UInt8) : List UInt8 := self

/-- The remaining bytes are at the address `addr`. -/
def count (t : Target) (optimize_for_size : Bool) (addr : ℕ) (self : List UInt8) : Option ℕ :=
  count_chars t optimize_for_size addr (as_str self)

/-- `Chars` with its methods. A loop that asks for chars takes no more turns than there are bytes,
and one. -/
def iterator (t : Target) (optimize_for_size : Bool) (addr : ℕ) :
    DoubleEndedIterator (List UInt8) Char where
  front :=
    { next
      nth := Provided.nth advance_by next
      advance_by
      try_fold := fun f a s => Provided.try_fold next (s.length + 1) f a s
      fold := fun f a s => Provided.fold next (s.length + 1) f a s }
  size_hint
  count := count t optimize_for_size addr
  last
  back :=
    { next := next_back
      nth := Provided.nth (Provided.advance_back_by next_back) next_back
      advance_by := Provided.advance_back_by next_back
      try_fold := fun f a s => Provided.try_fold next_back (s.length + 1) f a s
      fold := fun f a s => Provided.fold next_back (s.length + 1) f a s }

end Chars

structure CharIndices where
  front_offset : ℕ
  /-- a `Chars` -/
  iter : List UInt8

open CharIndices

namespace CharIndices

/-- `char_indices` -/
def new (s : List UInt8) : CharIndices := ⟨0, s⟩

def next (t : Target) (self : CharIndices) : Option (Option (ℕ × Char) × CharIndices) := do
  let pre_len := self.iter.length
  match ← Chars.next self.iter with
  | (none, iter) => return (none, { self with iter })
  | (some ch, iter) =>
    let index := self.front_offset
    let front_offset ← t.checkedAdd self.front_offset (← checkedSub pre_len iter.length)
    return (some (index, ch), ⟨front_offset, iter⟩)

def next_back (t : Target) (self : CharIndices) : Option (Option (ℕ × Char) × CharIndices) := do
  match ← Chars.next_back self.iter with
  | (none, iter) => return (none, { self with iter })
  | (some ch, iter) =>
    let index ← t.checkedAdd self.front_offset iter.length
    return (some (index, ch), { self with iter })

def as_str (self : CharIndices) : List UInt8 := Chars.as_str self.iter

def offset (self : CharIndices) : ℕ := self.front_offset

/-- `CharIndices` with its methods. -/
def iterator (t : Target) (optimize_for_size : Bool) (addr : ℕ) :
    DoubleEndedIterator CharIndices (ℕ × Char) where
  front :=
    { next := next t
      nth := fun s n => Provided.nth (Provided.advance_by
        fun f a s => Provided.try_fold (next t) (s.iter.length + 1) f a s) (next t) s n
      advance_by := Provided.advance_by
        fun f a s => Provided.try_fold (next t) (s.iter.length + 1) f a s
      try_fold := fun f a s => Provided.try_fold (next t) (s.iter.length + 1) f a s
      fold := fun f a s => Provided.fold (next t) (s.iter.length + 1) f a s }
  size_hint := fun self => Chars.size_hint self.iter
  count := fun self => Chars.count t optimize_for_size addr self.iter
  last := fun self => do
    let (x, _) ← next_back t self
    return x
  back :=
    { next := next_back t
      nth := Provided.nth (Provided.advance_back_by (next_back t)) (next_back t)
      advance_by := Provided.advance_back_by (next_back t)
      try_fold := fun f a s => Provided.try_fold (next_back t) (s.iter.length + 1) f a s
      fold := fun f a s => Provided.fold (next_back t) (s.iter.length + 1) f a s }

end CharIndices

/-! ## Encodings -/

/-- The bytes of a string. -/
def encode (cs : List Char) : List UInt8 := cs.flatMap String.utf8EncodeChar

@[simp] theorem encode_nil : encode [] = [] := rfl

@[simp] theorem encode_cons (c : Char) (cs : List Char) :
    encode (c :: cs) = String.utf8EncodeChar c ++ encode cs := flatMap_cons

@[simp] theorem encode_append (cs ds : List Char) : encode (cs ++ ds) = encode cs ++ encode ds :=
  flatMap_append

theorem encode_singleton (c : Char) : encode [c] = String.utf8EncodeChar c :=
  flatMap_singleton ..

/-- The lead byte, and the continuation bytes after it. -/
theorem exists_lead (c : Char) : ∃ a tl, String.utf8EncodeChar c = a :: tl ∧ ¬ Tail a ∧
    (∀ b ∈ tl, Tail b) ∧ utf8_char_width a = some (tl.length + 1) := by
  have hshape := encShape_utf8EncodeChar c
  generalize String.utf8EncodeChar c = m at hshape
  match m, hshape with
  | [a], h =>
    rw [EncShape] at h
    refine ⟨a, [], rfl, fun ht => ?_, forall_mem_nil _, ?_⟩
    · rw [Tail] at ht
      lia
    · rw [utf8_char_width_eq, if_pos h]
      rfl
  | [a, b], h =>
    obtain ⟨ha, hb⟩ := h
    rw [Lead2] at ha
    refine ⟨a, [b], rfl, fun ht => ?_, by simpa using hb, ?_⟩
    · rw [Tail] at ht
      lia
    · rw [utf8_char_width_eq, if_neg (by lia), if_neg (by lia), if_pos (by lia)]
      rfl
  | [a, b, d], h =>
    obtain ⟨ha, hd⟩ := h
    have hb : 0xE0 ≤ a.toNat ∧ a.toNat < 0xF0 ∧ Tail b := by
      simp only [Lead3, Tail] at ha ⊢
      lia
    refine ⟨a, [b, d], rfl, fun ht => ?_, by simp [hb.2.2, hd], ?_⟩
    · rw [Tail] at ht
      lia
    · rw [utf8_char_width_eq, if_neg (by lia), if_neg (by lia), if_neg (by lia),
        if_pos (by lia)]
      rfl
  | [a, b, d, e], h =>
    obtain ⟨ha, hd, he⟩ := h
    have hb : 0xF0 ≤ a.toNat ∧ a.toNat < 0xF5 ∧ Tail b := by
      simp only [Lead4, Tail] at ha ⊢
      lia
    refine ⟨a, [b, d, e], rfl, fun ht => ?_, by simp [hb.2.2, hd, he], ?_⟩
    · rw [Tail] at ht
      lia
    · rw [utf8_char_width_eq, if_neg (by lia), if_neg (by lia), if_neg (by lia),
        if_neg (by lia), if_pos (by lia)]
      rfl

theorem count_tails {bs : List UInt8} (h : ∀ b ∈ bs, Tail b) : char_count_general_case bs = 0 := by
  rw [char_count_general_case, countP_eq_zero]
  intro b hb
  rw [(utf8_is_cont_byte_iff b).2 (h b hb)]
  exact false_ne_true

theorem count_append (as bs : List UInt8) : char_count_general_case (as ++ bs) =
    char_count_general_case as + char_count_general_case bs := countP_append

theorem count_cons_lead {a : UInt8} (h : ¬ Tail a) (bs : List UInt8) :
    char_count_general_case (a :: bs) = char_count_general_case bs + 1 := by
  refine countP_cons_of_pos ?_
  rw [not_eq_true', eq_false_iff, Ne, utf8_is_cont_byte_iff]
  exact h

/-- The chars of a string are its bytes that are no continuation bytes. -/
theorem count_encode (cs : List Char) : char_count_general_case (encode cs) = cs.length := by
  induction cs with
  | nil => rfl
  | cons c cs ih =>
    obtain ⟨a, tl, henc, ha, htl, -⟩ := exists_lead c
    rw [encode_cons, count_append, ih, henc, count_cons_lead ha, count_tails htl, length_cons,
      zero_add, add_comm]

/-- A cut anywhere: what is left begins with the continuation bytes of a char that was cut. -/
theorem exists_cut (cs : List Char) {i : ℕ} (hi : i ≤ (encode cs).length) :
    ∃ as bs conts, cs = as ++ bs ∧ (∀ b ∈ conts, Tail b) ∧ (encode cs).drop i = conts ++ encode bs ∧
      char_count_general_case ((encode cs).take i) = as.length := by
  induction cs generalizing i with
  | nil =>
    refine ⟨[], [], [], rfl, forall_mem_nil _, drop_nil, ?_⟩
    rw [encode_nil, take_nil]
    rfl
  | cons c cs ih =>
    obtain ⟨a, tl, henc, ha, htl, -⟩ := exists_lead c
    rw [encode_cons] at hi ⊢
    rcases Nat.eq_zero_or_pos i with rfl | h0
    · refine ⟨[], c :: cs, [], rfl, forall_mem_nil _, ?_, rfl⟩
      rw [drop_zero, encode_cons, nil_append]
    rcases le_total i (String.utf8EncodeChar c).length with hle | hge
    · obtain ⟨j, rfl⟩ := exists_eq_succ_of_ne_zero (ne_of_gt h0)
      refine ⟨[c], cs, tl.drop j, rfl, fun b hb => htl b (mem_of_mem_drop hb), ?_, ?_⟩
      · rw [drop_append_of_le_length hle, henc, drop_succ_cons]
      · rw [take_append_of_le_length hle, henc, take_succ_cons, count_cons_lead ha,
          count_tails fun b hb => htl b (mem_of_mem_take hb)]
        rfl
    · obtain ⟨j, rfl⟩ := Nat.exists_eq_add_of_le hge
      rw [length_append] at hi
      obtain ⟨as, bs, conts, rfl, hconts, hdrop, htake⟩ := ih (le_of_add_le_add_left hi)
      refine ⟨c :: as, bs, conts, rfl, hconts, ?_, ?_⟩
      · rw [drop_length_add_append, hdrop]
      · rw [take_length_add_append, count_append, htake, henc, count_cons_lead ha,
          count_tails htl, length_cons, zero_add, add_comm]

/-! ## Decoding -/

namespace Chars

theorem next_encode (c : Char) (r : List UInt8) :
    next (String.utf8EncodeChar c ++ r) = some (some c, r) := by
  rw [next, next_code_point_append]
  simp only [some_bind, from_u32_unchecked_val]
  rfl

theorem next_back_encode (c : Char) (r : List UInt8) :
    next_back (r ++ String.utf8EncodeChar c) = some (some c, r) := by
  rw [next_back, next_code_point_reverse_append]
  simp only [some_bind, from_u32_unchecked_val]
  rfl

/-! ## Skipping -/

theorem advance_chars_spec (n : ℕ) (cs : List Char) :
    advance_chars n (encode cs) = some (n - cs.length, encode (cs.drop n)) := by
  induction n generalizing cs with
  | zero => rw [advance_chars, Nat.zero_sub, drop_zero]
  | succ n ih =>
    cases cs with
    | nil => rfl
    | cons c cs =>
      obtain ⟨a, tl, henc, -, -, hwidth⟩ := exists_lead c
      have hcut : (a :: (tl ++ encode cs)).drop (tl.length + 1) = encode cs := by
        rw [drop_succ_cons, drop_left]
      rw [encode_cons, henc, cons_append, advance_chars, hwidth, some_bind, slice_from_eq (by simp),
        hcut]
      simp only [some_bind]
      rw [ih, length_cons, Nat.add_sub_add_right, drop_succ_cons]

theorem skip_continuation_spec {conts : List UInt8} (h : ∀ b ∈ conts, Tail b) (cs : List Char) :
    skip_continuation (conts ++ encode cs) = encode cs := by
  induction conts with
  | nil =>
    cases cs with
    | nil => rfl
    | cons c cs =>
      obtain ⟨a, tl, henc, ha, -⟩ := exists_lead c
      rw [nil_append, encode_cons, henc, cons_append, skip_continuation, if_pos]
      rw [not_eq_true', eq_false_iff, Ne, utf8_is_cont_byte_iff]
      exact ha
  | cons b conts ih =>
    have hb := (utf8_is_cont_byte_iff b).2 (h b mem_cons_self)
    rw [cons_append, skip_continuation, hb]
    exact ih fun b hb => h b (mem_cons_of_mem _ hb)

/-- The sum of a chunk is a `u8`. -/
theorem sum_start_bytes_spec {chunk : List UInt8} (h : chunk.length < 256) :
    sum_start_bytes chunk = some (char_count_general_case chunk) := by
  suffices hsum : ∀ k, k + chunk.length < 256 → (chunk.map fun b => !utf8_is_cont_byte b).foldlM
      (fun sum i => if sum + i.toNat < 256 then some (sum + i.toNat) else none) k =
        some (k + char_count_general_case chunk) by
    rw [sum_start_bytes, hsum 0 (by lia), zero_add]
  clear h
  induction chunk with
  | nil => exact fun k _ => rfl
  | cons b chunk ih =>
    intro k hk
    rw [length_cons] at hk
    have hone := toNat_le (!utf8_is_cont_byte b)
    have hcount : char_count_general_case (b :: chunk) =
        (!utf8_is_cont_byte b).toNat + char_count_general_case chunk := by
      rw [char_count_general_case, countP_cons, add_comm]
      cases utf8_is_cont_byte b <;> rfl
    rw [map_cons, foldlM_cons, if_pos (by lia), some_bind,
      ih _ (by lia), hcount, add_assoc]

/-- The chunks that the loop takes, and what it subtracts for them. -/
theorem advance_chunks_spec (bytes : List UInt8) (n : ℕ) (h : n * CHUNK_SIZE ≤ bytes.length)
    (remainder skipped : ℕ) :
    ∃ i ≤ bytes.length, char_count_general_case (bytes.take i) ≤ remainder ∧
      advance_chunks (as_chunks CHUNK_SIZE n bytes) remainder skipped =
        some (remainder - char_count_general_case (bytes.take i), skipped + i) := by
  induction n generalizing bytes remainder skipped with
  | zero => exact ⟨0, zero_le _, zero_le _, rfl⟩
  | succ n ih =>
    rw [as_chunks, advance_chunks]
    split
    · rename_i hmore
      rw [succ_mul] at h
      have hlen : (bytes.take CHUNK_SIZE).length = CHUNK_SIZE := length_take_of_le (by lia)
      have hle : char_count_general_case (bytes.take CHUNK_SIZE) ≤ CHUNK_SIZE :=
        countP_le_length.trans_eq hlen
      obtain ⟨i, hi, hcount, hrun⟩ := ih (bytes.drop CHUNK_SIZE) (by rw [length_drop]; lia)
        (remainder - char_count_general_case (bytes.take CHUNK_SIZE)) (skipped + CHUNK_SIZE)
      rw [length_drop] at hi
      rw [sum_start_bytes_spec (hlen.trans_lt (by decide)), some_bind,
        checkedSub_eq (by lia)]
      simp only [some_bind, hrun]
      refine ⟨CHUNK_SIZE + i, by lia, ?_⟩
      rw [take_add, count_append, Nat.sub_sub, Nat.add_assoc]
      exact ⟨by lia, rfl⟩
    · exact ⟨0, zero_le _, zero_le _, rfl⟩

/-- **`advance_by`** skips the chars that there are and answers how many were missing. -/
theorem advance_by_encode (n : ℕ) (cs : List Char) :
    advance_by (encode cs) n = some (n - cs.length, encode (cs.drop n)) := by
  unfold advance_by
  split
  · obtain ⟨i, hi, hcount, hrun⟩ := advance_chunks_spec (encode cs) ((encode cs).length /
      CHUNK_SIZE)
      (div_mul_le_self _ _) n 0
    obtain ⟨as, bs, conts, rfl, hconts, hdrop, htake⟩ := exists_cut cs hi
    rw [zero_add] at hrun
    simp only [hrun, some_bind]
    rw [slice_from_eq hi, some_bind, hdrop, skip_continuation_spec hconts,
      advance_chars_spec, htake]
    rw [htake] at hcount
    rw [length_append, Nat.sub_sub, drop_append, drop_eq_nil_of_le hcount, nil_append]
  · exact advance_chars_spec n cs

/-! ## The laws -/

variable {t : Target}

/-- The bytes encode the chars that are left. -/
structure Stands (t : Target) (s : List UInt8) (cs : List Char) : Prop where
  eq : s = encode cs
  le : s.length ≤ t.usizeMax

theorem encode_length_le (cs : List Char) : (encode cs).length ≤ 4 * cs.length := by
  induction cs with
  | nil => exact le_refl 0
  | cons c cs ih =>
    have := c.utf8Size_le_four
    rw [encode_cons, length_append, String.length_utf8EncodeChar, length_cons]
    lia

theorem length_le_encode (cs : List Char) : cs.length ≤ (encode cs).length := by
  rw [← count_encode cs]
  exact countP_le_length

variable {s : List UInt8} {cs : List Char}

theorem Stands.length_le (h : Stands t s cs) :
    cs.length < s.length + 1 := by
  rw [h.eq]
  exact lt_succ_of_le (length_le_encode cs)

/-- A part of the chars at either end is encoded by fewer bytes. -/
theorem Stands.of_append {as bs : List Char} (h : Stands t (encode (as ++ bs)) (as ++ bs)) :
    Stands t (encode as) as ∧ Stands t (encode bs) bs := by
  have hle := h.le
  rw [encode_append, length_append] at hle
  exact ⟨⟨rfl, by lia⟩, ⟨rfl, by lia⟩⟩

theorem next_spec : IsNext (Stands t) next := by
  rintro _ cs ⟨rfl, hle⟩
  cases cs with
  | nil => exact ⟨[], rfl, rfl, zero_le _⟩
  | cons c cs =>
    rw [encode_cons] at hle ⊢
    rw [length_append] at hle
    exact ⟨encode cs, next_encode c _, rfl, by lia⟩

theorem next_back_spec : IsNext (Reversed (Stands t)) next_back := by
  refine isNext_reversed ?_
  rintro _ cs ⟨rfl, hle⟩
  obtain rfl | ⟨cs, c, rfl⟩ := eq_nil_or_concat cs
  · exact ⟨[], rfl, rfl, zero_le _⟩
  · rw [concat_eq_append, encode_append, length_append] at hle
    rw [concat_eq_append, encode_append, encode_singleton, getLast?_concat, dropLast_concat]
    exact ⟨encode cs, next_back_encode c _, rfl, by lia⟩

theorem advance_by_spec : IsAdvanceBy t.usizeMax (Stands t) advance_by := by
  rintro _ cs n ⟨rfl, hle⟩ -
  have hrest : Stands t (encode (cs.take n ++ cs.drop n)) (cs.take n ++ cs.drop n) := by
    rw [take_append_drop]
    exact ⟨rfl, hle⟩
  exact ⟨encode (cs.drop n), advance_by_encode n cs, hrest.of_append.2⟩

theorem size_hint_spec (h : Stands t s cs) :
    ValidHint t.usizeMax (size_hint s) cs.length := by
  obtain ⟨rfl, hle⟩ := h
  have hlen := length_le_encode cs
  have hlen' := encode_length_le cs
  have hceil : div_ceil_four (encode cs).length ≤ cs.length := by
    unfold div_ceil_four
    split <;> lia
  refine ⟨hceil, hceil.trans (hlen.trans hle), ?_, ?_⟩
  · rintro hi ⟨⟩
    exact hlen
  · rintro hi ⟨⟩
    exact hle

theorem count_spec (ht : WordSize t) (optimize_for_size : Bool) (addr : ℕ)
    (h : Stands t s cs) : count t optimize_for_size addr s = some cs.length := by
  obtain ⟨rfl, hle⟩ := h
  have hpos : 0 < t.usizeCard := Nat.two_pow_pos _
  rw [usizeMax] at hle
  rw [count, as_str, count_chars_spec ht _ _ (by lia), count_encode]

theorem iterator_lawful (ht : WordSize t) (optimize_for_size : Bool) (addr : ℕ) :
    (iterator t optimize_for_size addr).Lawful t.usizeMax (Stands t) where
  front :=
    { next := next_spec
      nth := Iter.nth_spec advance_by_spec next_spec
      advance_by := advance_by_spec
      try_fold := fun f a _ _ h => Iter.try_fold_spec next_spec f a h h.length_le
      fold := fun f a _ _ h => Iter.fold_spec next_spec f a h h.length_le }
  size_hint _ _ h := size_hint_spec h
  count _ _ h _ := count_spec ht optimize_for_size addr h
  last s cs h := by
    obtain ⟨s', hback, -⟩ := next_back_spec.back h
    change last s = _
    rw [last, hback]
    rfl
  back :=
    { next := next_back_spec
      nth := Iter.nth_spec (Iter.advance_back_by_spec next_back_spec) next_back_spec
      advance_by := Iter.advance_back_by_spec next_back_spec
      try_fold := fun f a _ l h => Iter.try_fold_spec next_back_spec f a h
        (by rw [← l.length_reverse]; exact Stands.length_le h)
      fold := fun f a _ l h => Iter.fold_spec next_back_spec f a h
        (by rw [← l.length_reverse]; exact Stands.length_le h) }

end Chars

namespace CharIndices

variable {t : Target}

/-- The chars with their offsets, from the offset `k` on. -/
def indices : ℕ → List Char → List (ℕ × Char)
  | _, [] => []
  | k, c :: cs => (k, c) :: indices (k + len_utf8 c) cs

theorem indices_cons (k : ℕ) (c : Char) (cs : List Char) :
    indices k (c :: cs) = (k, c) :: indices (k + len_utf8 c) cs := rfl

theorem map_snd_indices (k : ℕ) (cs : List Char) : (indices k cs).map Prod.snd = cs := by
  induction cs generalizing k with
  | nil => rfl
  | cons c cs ih => rw [indices_cons, map_cons, ih]

theorem indices_append (k : ℕ) (cs ds : List Char) :
    indices k (cs ++ ds) = indices k cs ++ indices (k + (encode cs).length) ds := by
  induction cs generalizing k with
  | nil => rfl
  | cons c cs ih =>
    rw [cons_append, indices_cons, ih, indices_cons, cons_append, encode_cons, length_append,
      len_utf8_eq, add_assoc]

/-- The bytes encode the chars that are left, the first of them at the offset of the front. -/
structure Stands (t : Target) (s : CharIndices) (l : List (ℕ × Char)) : Prop where
  iter : s.iter = encode (l.map Prod.snd)
  le : s.front_offset + s.iter.length ≤ t.usizeMax
  eq : l = indices s.front_offset (l.map Prod.snd)

variable {l : List (ℕ × Char)}

theorem stands_iff {k : ℕ} {s : List UInt8} : Stands t ⟨k, s⟩ l ↔
    ∃ cs, s = encode cs ∧ l = indices k cs ∧ k + s.length ≤ t.usizeMax := by
  constructor
  · rintro ⟨hiter, hle, heq⟩
    exact ⟨_, hiter, heq, hle⟩
  · rintro ⟨cs, rfl, rfl, hle⟩
    refine ⟨?_, hle, ?_⟩ <;> rw [map_snd_indices]

theorem next_cons {k : ℕ} {c : Char} {cs : List Char}
    (h : k + (encode (c :: cs)).length ≤ t.usizeMax) : next t ⟨k, encode (c :: cs)⟩ =
      some (some (k, c), ⟨k + len_utf8 c, encode cs⟩) := by
  have hpos : 0 < t.usizeCard := Nat.two_pow_pos _
  rw [usizeMax, encode_cons, length_append, ← len_utf8_eq] at h
  simp only [next, encode_cons, Chars.next_encode, some_bind, length_append, ← len_utf8_eq]
  rw [checkedSub_eq (Nat.le_add_left _ _), some_bind, Nat.add_sub_cancel, checkedAdd_eq (by lia)]
  rfl

theorem next_spec : IsNext (Stands t) (next t) := by
  rintro ⟨k, s⟩ l hs
  obtain ⟨cs, rfl, rfl, hle⟩ := stands_iff.1 hs
  cases cs with
  | nil => exact ⟨⟨k, []⟩, rfl, hs⟩
  | cons c cs =>
    refine ⟨_, next_cons hle, stands_iff.2 ⟨cs, rfl, rfl, ?_⟩⟩
    rw [encode_cons, length_append, ← len_utf8_eq] at hle
    lia

theorem next_back_spec : IsNext (Reversed (Stands t)) (next_back t) := by
  refine isNext_reversed ?_
  rintro ⟨k, s⟩ l hs
  obtain ⟨cs, rfl, rfl, hle⟩ := stands_iff.1 hs
  have hpos : 0 < t.usizeCard := Nat.two_pow_pos _
  rw [usizeMax] at hle
  obtain rfl | ⟨cs, c, rfl⟩ := eq_nil_or_concat cs
  · exact ⟨⟨k, []⟩, rfl, hs⟩
  rw [concat_eq_append] at hle ⊢
  rw [encode_append, length_append] at hle
  rw [indices_append, encode_append, encode_singleton, indices, indices, getLast?_concat,
    dropLast_concat]
  refine ⟨⟨k, encode cs⟩, ?_, stands_iff.2 ⟨cs, rfl, rfl, ?_⟩⟩
  · simp only [next_back, Chars.next_back_encode, some_bind]
    rw [checkedAdd_eq (by lia)]
    rfl
  · rw [usizeMax]
    lia

/-- The bytes are a state of `Chars`. -/
theorem Stands.chars {s : CharIndices} (h : Stands t s l) :
    Chars.Stands t s.iter (l.map Prod.snd) :=
  ⟨h.iter, (le_add_left _ _).trans h.le⟩

theorem Stands.length_le {s : CharIndices} (h : Stands t s l) :
    l.length < s.iter.length + 1 := by
  have hlen := h.chars.length_le
  rwa [length_map] at hlen

theorem try_fold_spec {A B : Type} : IsTryFold (A := A) (B := B) (Stands t)
    fun f a s => Provided.try_fold (next t) (s.iter.length + 1) f a s :=
  fun f a _ _ h => Iter.try_fold_spec next_spec f a h h.length_le

theorem iterator_lawful (ht : WordSize t) (optimize_for_size : Bool) (addr : ℕ) :
    (iterator t optimize_for_size addr).Lawful t.usizeMax (Stands t) where
  front :=
    { next := next_spec
      nth := Iter.nth_spec (Iter.advance_by_spec try_fold_spec) next_spec
      advance_by := Iter.advance_by_spec try_fold_spec
      try_fold := try_fold_spec
      fold := fun f a _ _ h => Iter.fold_spec next_spec f a h h.length_le }
  size_hint s l h := by
    have hhint := Chars.size_hint_spec h.chars
    rwa [length_map] at hhint
  count s l h _ := by
    have hcount := Chars.count_spec ht optimize_for_size addr h.chars
    rwa [length_map] at hcount
  last s l h := by
    obtain ⟨s', hback, -⟩ := next_back_spec.back h
    change (do let (x, _) ← next_back t s; return x) = _
    rw [hback]
    rfl
  back :=
    { next := next_back_spec
      nth := Iter.nth_spec (Iter.advance_back_by_spec next_back_spec) next_back_spec
      advance_by := Iter.advance_back_by_spec next_back_spec
      try_fold := fun f a _ l h => Iter.try_fold_spec next_back_spec f a h
        (by rw [← l.length_reverse]; exact Stands.length_le h)
      fold := fun f a _ l h => Iter.fold_spec next_back_spec f a h
        (by rw [← l.length_reverse]; exact Stands.length_le h) }

end CharIndices

/-! ## Runs -/

/-- What ends a run on `Chars`, wherever the bytes that are left lie. -/
structure Chars.Ends (t : Target) (s : List UInt8) (cs : List Char) : Prop where
  finishes : ∀ optimize_for_size addr, (Chars.iterator t optimize_for_size addr).Finishes
    (ValidHint t.usizeMax) t.usizeMax s cs
  as_str : Chars.as_str s = encode cs

/-- What ends a run on `CharIndices`. -/
structure CharIndices.Ends (t : Target) (s : CharIndices) (l : List (ℕ × Char)) : Prop where
  finishes : ∀ optimize_for_size addr, (CharIndices.iterator t optimize_for_size addr).Finishes
    (ValidHint t.usizeMax) t.usizeMax s l
  as_str : CharIndices.as_str s = encode (l.map Prod.snd)
  offset : ∀ x, l.head? = some x → CharIndices.offset s = x.1

/-- **`Chars` and `CharIndices`** answer every sequence of calls from both ends as the list of the
chars does, which the bytes encode, and the list of the chars with their offsets. -/
theorem chars_agree {t : Target} (ht : WordSize t) {cs : List Char}
    (hlen : (encode cs).length ≤ t.usizeMax) (optimize_for_size : Bool) (addr : ℕ) (A B : Type)
    (qs : List (DoubleEnded.End × Method Char A B)) (hqs : ∀ q ∈ qs, q.2.Fits t.usizeMax)
    (is : List (DoubleEnded.End × Method (ℕ × Char) A B)) (his : ∀ q ∈ is, q.2.Fits t.usizeMax) :
    Yields (Chars.Ends t) ((Chars.iterator t optimize_for_size addr).run qs (encode cs))
        (replies replyAt qs cs).1 (replies replyAt qs cs).2 ∧
      Yields (CharIndices.Ends t)
        ((iterator t optimize_for_size addr).run is (CharIndices.new (encode cs)))
        (replies replyAt is (indices 0 cs)).1
        (replies replyAt is (indices 0 cs)).2 := by
  have hchars := Chars.iterator_lawful ht
  have hindices := iterator_lawful ht
  constructor
  · refine ((hchars optimize_for_size addr).run hqs ⟨rfl, hlen⟩).mono fun s hs => ⟨?_, hs.eq⟩
    exact fun opt a => (hchars opt a).finishes (fun _ _ h => Chars.size_hint_spec h) hs
  have hnew := stands_iff.2 ⟨cs, rfl, rfl, by rwa [zero_add]⟩
  refine ((hindices optimize_for_size addr).run his hnew).mono fun s hs => ⟨?_, hs.iter, ?_⟩
  · exact fun opt a => (hindices opt a).finishes (fun _ _ h => (hindices opt a).size_hint h) hs
  intro x hx
  have heq := hs.eq
  generalize (replies replyAt is (indices 0 cs)).2 = l at hx heq
  cases l with
  | nil => cases hx
  | cons y l =>
    obtain rfl := some.inj hx
    exact (congrArg Prod.fst (cons.inj heq).1).symm

/-- The last char of `aé`, and then the second that is left, on words of eight bytes. -/
theorem chars_agree_two : Yields (Chars.Ends ⟨3, false⟩)
    ((Chars.iterator ⟨3, false⟩ false 5).run (A := Unit) (B := Unit)
      [(.back, .next), (.front, .nth 1)] (encode ['a', 'é']))
    [.item (some 'é'), .item none] [] :=
  (chars_agree (t := ⟨3, false⟩) ⟨by decide, by decide⟩ (by decide) false 5 Unit Unit
    [(.back, .next), (.front, .nth 1)]
    (forall_mem_cons.2 ⟨trivial, forall_mem_cons.2
      ⟨show 1 ≤ usizeMax ⟨3, false⟩ by decide, forall_mem_nil _⟩⟩)
    [] (forall_mem_nil _)).1

end RustStd.StrIter
