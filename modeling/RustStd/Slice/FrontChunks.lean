import RustStd.Slice.ChunkLists

/-!
# The chunks from the front

The elements of `Chunks` and `ChunksMut`, and of their exact forms, by their places. An exact form
is the other form on a slice that is a number of whole chunks.
-/

namespace RustStd.Slice

open Iter Nat Option Slice.Span

variable {usizeMax turns : ℕ}

namespace Chunks

/-- The chunk at a place. -/
def get (s : Chunks) (i : ℕ) : Option Span :=
  if i * s.chunk_size < s.v.len then
    some ⟨s.v.start + i * s.chunk_size, min s.chunk_size (s.v.len - i * s.chunk_size)⟩
  else none

def length (s : Chunks) : ℕ := div_ceil s.v.len s.chunk_size

structure Valid (usizeMax turns : ℕ) (s : Chunks) : Prop where
  size : 0 < s.chunk_size
  len_le : s.v.len ≤ usizeMax
  turns : s.v.len < turns

variable {s s' : Chunks} {n : ℕ} {m : Option (Option Span × Chunks)}

variable (hs : Valid usizeMax turns s)
include hs

theorem Valid.of_le (hsize : s'.chunk_size = s.chunk_size)
    (hle : s'.v.len ≤ s.v.len) : Valid usizeMax turns s' :=
  ⟨hsize ▸ hs.size, hle.trans hs.len_le, lt_of_le_of_lt hle hs.turns⟩

theorem Valid.lt_length {i : ℕ} : i < length s ↔ i * s.chunk_size < s.v.len := lt_div_ceil hs.size

theorem Valid.length_le : length s ≤ s.v.len := div_ceil_le hs.size

omit hs

theorem hasLength : HasLength get (Valid usizeMax turns) length := by
  intro s hs i
  rw [hs.lt_length, get]
  split
  · next h => exact iff_of_true rfl h
  · next h => exact iff_of_false Bool.false_ne_true h

/-- What is left of the slice when `n + 1` chunks were taken from the back. -/
theorem Valid.left_le (hs : Valid usizeMax turns s) (n : ℕ) :
    (length s - (n + 1)) * s.chunk_size ≤ s.v.len := by
  obtain hzero | hpos := Nat.eq_zero_or_pos (length s - (n + 1))
  · rw [hzero, zero_mul]
    exact zero_le _
  · exact le_of_lt (hs.lt_length.mp (by omega))

/-- The elements that are left when `n + 1` were taken from the front. -/
theorem get_front (hsize : s'.chunk_size = s.chunk_size)
    (hlen : s'.v.len = s.v.len - (n + 1) * s.chunk_size)
    (hstart : 0 < s'.v.len → s'.v.start = s.v.start + (n + 1) * s.chunk_size) (i : ℕ) :
    get s' i = get s (n + 1 + i) := by
  rw [get, get, hsize, add_mul (n + 1) i]
  by_cases hi : i * s.chunk_size < s'.v.len
  · rw [if_pos hi, if_pos (by omega), hstart (by omega), Nat.add_assoc, hlen, Nat.sub_sub]
  · rw [if_neg hi, if_neg (by omega)]

include hs

/-- The elements that are left when `n + 1` were taken from the back. -/
theorem get_back (hsize : s'.chunk_size = s.chunk_size)
    (hlen : s'.v.len = (length s - (n + 1)) * s.chunk_size)
    (hstart : 0 < s'.v.len → s'.v.start = s.v.start) (i : ℕ) :
    get s' i = if i < length s - (n + 1) then get s i else none := by
  have hpos := hs.size
  have hle := hs.left_le n
  rw [get, hsize, hlen]
  rw [hlen] at hstart
  by_cases hi : i < length s - (n + 1)
  · have hnext := Nat.mul_le_mul_right s.chunk_size (succ_le_of_lt hi)
    rw [succ_mul] at hnext
    rw [if_pos (by omega), if_pos hi, get, if_pos (by omega), hstart (by omega),
      min_eq_left (by omega), min_eq_left (by omega)]
  · have := Nat.mul_le_mul_right s.chunk_size (Nat.le_of_not_lt hi)
    rw [if_neg (by omega), if_neg hi]

theorem takes_front
    (s' : Chunks) (hm : m = some (get s n, s')) (hsize : s'.chunk_size = s.chunk_size)
    (hlen : s'.v.len = s.v.len - (n + 1) * s.chunk_size)
    (hstart : 0 < s'.v.len → s'.v.start = s.v.start + (n + 1) * s.chunk_size) :
    TakesFront get (Valid usizeMax turns) m s n :=
  ⟨s', hm, hs.of_le hsize (by omega), get_front hsize hlen hstart⟩

theorem takes_back
    (s' : Chunks) (hm : m = some (if n < length s then get s (length s - 1 - n) else none, s'))
    (hsize : s'.chunk_size = s.chunk_size)
    (hlen : s'.v.len = (length s - (n + 1)) * s.chunk_size)
    (hstart : 0 < s'.v.len → s'.v.start = s.v.start) :
    TakesBack get (Valid usizeMax turns) length m s n :=
  ⟨s', hm, hs.of_le hsize (hlen ▸ hs.left_le n), get_back hs hsize hlen hstart⟩

/-- A slice of no elements is exhausted. -/
theorem Valid.spent {v : Span} (hv : v.len = 0) :
    Valid usizeMax turns { s with v := v } ∧ length { s with v := v } = 0 := by
  have h : Valid usizeMax turns { s with v := v } := hs.of_le rfl (hv.le.trans (zero_le _))
  exact ⟨h, le_zero.mp (h.length_le.trans hv.le)⟩

/-- The place of the last chunk. -/
theorem Valid.pred_length_mul (hv : ¬ s.v.len = 0) : (length s - 1) * s.chunk_size =
      s.v.len - if s.v.len % s.chunk_size ≠ 0 then s.v.len % s.chunk_size else s.chunk_size := by
  rw [length, div_ceil_pred hs.size (Nat.pos_of_ne_zero hv), pred_div_mul hs.size
    (Nat.pos_of_ne_zero hv)]

theorem Valid.length_pos (hv : ¬ s.v.len = 0) : 0 < length s := by
  rw [hs.lt_length, zero_mul]
  exact Nat.pos_of_ne_zero hv

omit hs

theorem last_chunk_le (hv : ¬ s.v.len = 0) :
    (if s.v.len % s.chunk_size ≠ 0 then s.v.len % s.chunk_size else s.chunk_size) ≤ s.v.len := by
  split
  · exact mod_le _ _
  · next h =>
    exact le_of_dvd (Nat.pos_of_ne_zero hv) (dvd_of_mod_eq_zero (not_not.mp h))

theorem last_chunk_le_size (hpos : 0 < s.chunk_size) :
    (if s.v.len % s.chunk_size ≠ 0 then s.v.len % s.chunk_size else s.chunk_size) ≤
      s.chunk_size := by
  split
  · exact le_of_lt (mod_lt _ hpos)
  · exact le_refl _

include hs

theorem next_takes : TakesFront get (Valid usizeMax turns) (next s) s 0 := by
  by_cases hv : s.v.len = 0
  · rw [next, if_pos hv]
    exact hasLength.takes_front_none hs (hs.spent hv) (hs.length_le.trans hv.le)
  refine takes_front hs { s with v :=
      ⟨s.v.start + min s.v.len s.chunk_size, s.v.len - min s.v.len s.chunk_size⟩ } ?_ rfl ?_ ?_
  · rw [next, if_neg hv]
    dsimp only
    rw [split_at_eq (min_le_left _ _), get, if_pos (by rw [zero_mul]; omega), zero_mul, min_comm]
    rfl
  · dsimp only
    omega
  · intro hleft
    dsimp only at hleft ⊢
    omega

theorem size_hint_eq : size_hint s = (length s, some (length s)) := by
  rw [size_hint]
  by_cases hv : s.v.len = 0
  · have hzero := hs.length_le
    rw [if_pos hv, show length s = 0 by omega]
  · rw [if_neg hv]
    rfl

theorem len_eq : Provided.len size_hint s = some (length s) := by
  rw [Provided.len, size_hint_eq hs]
  exact if_pos rfl

theorem nth_takes (n : ℕ) : TakesFront get (Valid usizeMax turns) (nth usizeMax s n) s n := by
  have hle := hs.len_le
  by_cases hn : n * s.chunk_size < s.v.len
  · refine takes_front hs { s with v :=
        ⟨s.v.start + n * s.chunk_size + min s.chunk_size (s.v.len - n * s.chunk_size),
          s.v.len - n * s.chunk_size - min s.chunk_size (s.v.len - n * s.chunk_size)⟩ } ?_ rfl ?_ ?_
    · rw [nth, mul_eq (by omega)]
      dsimp only
      rw [if_pos hn, index_eq (le_of_lt hn) (le_refl _)]
      simp only [some_bind]
      rw [split_at_eq (min_le_right _ _), get, if_pos hn]
      rfl
    · rw [succ_mul]
      dsimp only
      omega
    · rw [succ_mul]
      intro hleft
      dsimp only at hleft ⊢
      omega
  · exact past_takes hasLength hs (hs.spent rfl) hs.lt_length hn

theorem next_back_takes : TakesBack get (Valid usizeMax turns) length (next_back s) s 0 := by
  by_cases hv : s.v.len = 0
  · rw [next_back, if_pos hv]
    exact hasLength.takes_back_none (hs.spent hv) (Nat.not_lt.mpr (hs.length_le.trans hv.le))
  have hplace := hs.pred_length_mul hv
  have hlast := last_chunk_le hv
  have hlength := hs.length_pos hv
  have hchunk := last_chunk_le_size (s := s) hs.size
  rw [next_back, if_neg hv]
  dsimp only
  generalize (if s.v.len % s.chunk_size ≠ 0 then s.v.len % s.chunk_size else s.chunk_size) = size
    at hplace hlast hchunk ⊢
  refine takes_back hs { s with v := ⟨s.v.start, s.v.len - size⟩ } ?_ rfl hplace.symm
    fun _ => rfl
  have hlt := hs.lt_length.mp (show length s - 1 < length s by omega)
  rw [checkedSub_eq hlast, if_pos hlength, get, Nat.sub_zero, if_pos hlt, hplace]
  simp only [some_bind]
  rw [split_at_eq (sub_le _ _), Nat.sub_sub_self hlast, Nat.min_eq_right hchunk]
  rfl

/-- Where the element `n` from the back is. -/
theorem Valid.place_lt (hn : n < length s) :
    (length s - 1 - n) * s.chunk_size < s.v.len := hs.lt_length.mp (by omega)

theorem nth_back_takes (n : ℕ) :
    TakesBack get (Valid usizeMax turns) length (nth_back usizeMax s n) s n := by
  have hle := hs.len_le
  by_cases hn : n < length s
  · have hplace := hs.place_lt hn
    refine takes_back hs { s with v :=
        ⟨s.v.start + 0, (length s - 1 - n) * s.chunk_size - 0⟩ } ?_ rfl ?_ fun _ => rfl
    · rw [nth_back, len_eq hs, if_pos hn, get, if_pos hplace]
      simp only [some_bind]
      rw [if_pos hn]
      simp only [mul_eq (le_trans (le_of_lt hplace) hle), some_bind]
      rw [checkedSub_eq (le_of_lt hplace)]
      simp only [some_bind]
      rw [add_eq (by omega)]
      simp only [some_bind]
      rw [index_eq (by omega) (by omega), index_eq (zero_le _) (le_of_lt hplace),
        Nat.add_sub_cancel_left, Nat.min_comm]
      rfl
    · rw [Nat.sub_sub, Nat.add_comm 1 n]
      rfl
  · rw [nth_back, len_eq hs]
    simp only [some_bind, if_neg hn]
    exact hasLength.takes_back_none (hs.spent rfl) hn

theorem last_eq : last usizeMax s = some (get s (length s - 1)) := by
  have hle := hs.len_le
  rw [last]
  by_cases hv : s.v.len = 0
  · rw [if_pos hv, get, if_neg (by omega)]
  have hplace := hs.place_lt (n := 0) (hs.length_pos hv)
  have hchunk : s.v.len ≤ (length s - 1) * s.chunk_size + s.chunk_size := by
    have := mt hs.lt_length.mpr (lt_irrefl (length s))
    have hsucc := succ_mul (length s - 1) s.chunk_size
    rw [succ_eq_add_one, Nat.sub_add_cancel (hs.length_pos hv)] at hsucc
    omega
  rw [Nat.sub_zero] at hplace
  rw [if_neg hv, ← div_ceil_pred hs.size (Nat.pos_of_ne_zero hv), ← length, get, if_pos hplace,
    mul_eq (by omega)]
  simp only [some_bind]
  rw [index_eq (le_of_lt hplace) (le_refl _), min_eq_right (by omega)]
  rfl

theorem get_unchecked_eq {i : ℕ} (hi : i < length s) : get_unchecked usizeMax s i = get s i := by
  have hle := hs.len_le
  rw [hs.lt_length] at hi
  rw [get_unchecked, mul_eq (by omega), get, if_pos hi]
  simp only [some_bind]
  rw [checkedSub_eq (le_of_lt hi)]
  simp only [some_bind]
  rw [raw_part_eq (by omega), min_comm]

end Chunks

/-! `ChunksMut` answers as `Chunks` does; only what it leaves of an exhausted slice is different. -/

namespace ChunksMut

open Chunks

variable {s : Chunks}

/-- The chunk ends with the slice at the latest. -/
theorem end_eq {start : ℕ} (hle : s.v.len ≤ usizeMax) :
    (match add usizeMax start s.chunk_size with
      | some res => min s.v.len res
      | none => s.v.len) = min s.v.len (start + s.chunk_size) := by
  by_cases hadd : start + s.chunk_size ≤ usizeMax
  · rw [add_eq hadd]
  · rw [add, if_neg hadd]
    dsimp only
    exact (min_eq_left (by omega)).symm

variable (hs : Valid usizeMax turns s)
include hs

theorem nth_eq {n : ℕ} (hn : n * s.chunk_size < s.v.len) :
    nth usizeMax s n = Chunks.nth usizeMax s n := by
  have hle := hs.len_le
  rw [nth, Chunks.nth, mul_eq (by omega)]
  dsimp only
  rw [if_pos hn, if_pos hn, split_at_eq (le_of_lt hn), index_eq (le_of_lt hn) (le_refl _)]
  rfl

theorem nth_takes (n : ℕ) : TakesFront get (Valid usizeMax turns) (nth usizeMax s n) s n := by
  by_cases hn : n * s.chunk_size < s.v.len
  · rw [nth_eq hs hn]
    exact Chunks.nth_takes hs n
  · exact past_takes hasLength hs (hs.spent rfl) hs.lt_length hn

theorem nth_back_takes (n : ℕ) :
    TakesBack get (Valid usizeMax turns) length (nth_back usizeMax s n) s n := by
  have hle := hs.len_le
  by_cases hn : n < length s
  · have hplace := hs.place_lt hn
    refine takes_back hs { s with v :=
        ⟨s.v.start, (length s - 1 - n) * s.chunk_size⟩ } ?_ rfl ?_ fun _ => rfl
    · rw [nth_back, len_eq hs, if_pos hn, Chunks.get, if_pos hplace]
      simp only [bind_eq_bind, bind_some]
      rw [if_pos hn]
      simp only [mul_eq (le_trans (le_of_lt hplace) hle), bind_some]
      refine (congrArg (fun e => (s.v.split_at e).bind _) (end_eq hle)).trans ?_
      rw [split_at_eq (min_le_left _ _)]
      simp only [bind_some]
      rw [split_at_eq (by dsimp only; omega)]
      simp only [bind_some, pure_def, some.injEq, Prod.mk.injEq, Span.mk.injEq, and_true, true_and]
      omega
    · rw [Nat.sub_sub, Nat.add_comm 1 n]
  · rw [nth_back, len_eq hs]
    simp only [some_bind, if_neg hn]
    exact hasLength.takes_back_none (hs.spent rfl) hn

end ChunksMut

namespace ChunksExact

/-- The chunks of the slice without the remainder. -/
def toChunks (s : ChunksExact) : Chunks := ⟨s.v, s.chunk_size⟩

def get (s : ChunksExact) (i : ℕ) : Option Span := s.toChunks.get i

def length (s : ChunksExact) : ℕ := s.toChunks.length

/-- The slice is a number of whole chunks, and the remainder never changes. -/
structure Valid (usizeMax turns : ℕ) (rem : Span) (s : ChunksExact) : Prop where
  chunks : Chunks.Valid usizeMax turns s.toChunks
  whole : s.chunk_size ∣ s.v.len
  remainder : s.rem = rem

variable {rem : Span} {s s' : ChunksExact} {n : ℕ} {m : Option (Option Span × ChunksExact)}

theorem hasLength : HasLength get (Valid usizeMax turns rem) length :=
  fun _ hs => Chunks.hasLength hs.chunks

variable (hs : Valid usizeMax turns rem s)
include hs

theorem Valid.size : 0 < s.chunk_size := hs.chunks.size

variable {i : ℕ}

theorem Valid.lt_length : i < length s ↔ i * s.chunk_size < s.v.len := hs.chunks.lt_length

/-- No chunk is short. -/
theorem Valid.whole_chunk
    (hi : i * s.chunk_size < s.v.len) : i * s.chunk_size + s.chunk_size ≤ s.v.len := by
  obtain ⟨q, hq⟩ := hs.whole
  rw [hq, mul_comm s.chunk_size q] at hi ⊢
  rw [← succ_mul]
  exact Nat.mul_le_mul_right _ (Nat.lt_of_mul_lt_mul_right hi)

theorem Valid.get_eq (hi : i * s.chunk_size < s.v.len) :
    get s i = some ⟨s.v.start + i * s.chunk_size, s.chunk_size⟩ := by
  have hchunk := hs.whole_chunk hi
  rw [get, Chunks.get, toChunks, if_pos hi, Nat.min_eq_left (by dsimp only; omega)]

theorem Valid.length_eq : s.v.len / s.chunk_size = length s := by
  apply eq_of_forall_lt_iff
  intro i
  rw [hs.lt_length, lt_iff_add_one_le, le_div_iff_mul_le hs.size, succ_mul]
  constructor
  · intro h
    have hpos := hs.size
    omega
  · exact hs.whole_chunk

/-- The slice without chunks from the front. -/
theorem Valid.of_front (hsize : s'.chunk_size = s.chunk_size) (hrem : s'.rem = s.rem)
    (hlen : s'.v.len = s.v.len - (n + 1) * s.chunk_size) : Valid usizeMax turns rem s' := by
  refine ⟨hs.chunks.of_le hsize ?_, ?_, hrem.trans hs.remainder⟩
  · exact (show s'.v.len ≤ s.v.len by omega)
  · rw [hsize, hlen]
    exact dvd_sub hs.whole (dvd_mul_left _ _)

/-- The slice without chunks from the back. -/
theorem Valid.of_back (hsize : s'.chunk_size = s.chunk_size) (hrem : s'.rem = s.rem)
    (hlen : s'.v.len = (length s - (n + 1)) * s.chunk_size) : Valid usizeMax turns rem s' := by
  refine ⟨hs.chunks.of_le hsize ?_, ?_, hrem.trans hs.remainder⟩
  · exact (show s'.v.len ≤ s.v.len from hlen ▸ hs.chunks.left_le n)
  · rw [hsize, hlen]
    exact dvd_mul_left _ _

theorem Valid.spent {v : Span} (hv : v.len = 0) :
    Valid usizeMax turns rem { s with v := v } ∧ length { s with v := v } = 0 :=
  ⟨⟨(hs.chunks.spent hv).1, hv ▸ dvd_zero _, hs.remainder⟩, (hs.chunks.spent hv).2⟩

theorem takes_front
    (s' : ChunksExact) (hm : m = some (get s n, s')) (hsize : s'.chunk_size = s.chunk_size)
    (hrem : s'.rem = s.rem) (hlen : s'.v.len = s.v.len - (n + 1) * s.chunk_size)
    (hstart : 0 < s'.v.len → s'.v.start = s.v.start + (n + 1) * s.chunk_size) :
    TakesFront get (Valid usizeMax turns rem) m s n :=
  ⟨s', hm, hs.of_front hsize hrem hlen, Chunks.get_front hsize hlen hstart⟩

theorem takes_back
    (s' : ChunksExact) (hm : m = some (if n < length s then get s (length s - 1 - n) else none, s'))
    (hsize : s'.chunk_size = s.chunk_size) (hrem : s'.rem = s.rem)
    (hlen : s'.v.len = (length s - (n + 1)) * s.chunk_size)
    (hstart : 0 < s'.v.len → s'.v.start = s.v.start) :
    TakesBack get (Valid usizeMax turns rem) length m s n :=
  ⟨s', hm, hs.of_back hsize hrem hlen, Chunks.get_back hs.chunks hsize hlen hstart⟩

/-- An exhausted slice is shorter than a chunk. -/
theorem Valid.len_eq_zero (hlt : s.v.len < s.chunk_size) :
    s.v.len = 0 := eq_zero_of_dvd_of_lt hs.whole hlt

/-- Where the element `n` from the back is. -/
theorem Valid.place_lt (hn : n < length s) :
    (length s - 1 - n) * s.chunk_size < s.v.len := hs.chunks.place_lt hn

/-- The chunks before the last one are the slice without that chunk. -/
theorem Valid.pred_length_mul : (length s - 1) * s.chunk_size = s.v.len - s.chunk_size := by
  rw [← hs.length_eq, Nat.sub_mul, Nat.one_mul, Nat.div_mul_cancel hs.whole]

theorem size_hint_eq : size_hint s = (length s, some (length s)) := by
  rw [size_hint, hs.length_eq]

theorem len_eq : Provided.len size_hint s = some (length s) := by
  rw [Provided.len, size_hint_eq hs]
  exact if_pos rfl

theorem next_takes : TakesFront get (Valid usizeMax turns rem) (next s) s 0 := by
  have hpos := hs.size
  by_cases hsize : s.chunk_size ≤ s.v.len
  · refine takes_front hs { s with v :=
        ⟨s.v.start + s.chunk_size, s.v.len - s.chunk_size⟩ } ?_ rfl rfl ?_ fun _ => ?_
    · rw [next, split_at_eq hsize, hs.get_eq (by rw [zero_mul]; omega), zero_mul]
      rfl
    · rw [zero_add, one_mul]
    · rw [zero_add, one_mul]
  · have hend := hs.spent (hs.len_eq_zero (Nat.lt_of_not_le hsize))
    rw [next, split_at, if_neg hsize]
    exact hasLength.takes_front_none hs hend hend.2.le

/-- Both forms go on with `next` on the rest of the slice. -/
theorem next_rest_takes (hn : n * s.chunk_size < s.v.len) :
    TakesFront get (Valid usizeMax turns rem)
      (next { s with v := ⟨s.v.start + n * s.chunk_size, s.v.len - n * s.chunk_size⟩ }) s n := by
  have hchunk := hs.whole_chunk hn
  refine takes_front hs { s with v := ⟨s.v.start + n * s.chunk_size + s.chunk_size,
      s.v.len - n * s.chunk_size - s.chunk_size⟩ } ?_ rfl rfl ?_ fun _ => ?_
  · rw [next, split_at_eq (by dsimp only; omega), hs.get_eq hn]
  · rw [succ_mul, Nat.sub_sub]
  · rw [succ_mul, add_assoc]

theorem nth_takes (n : ℕ) : TakesFront get (Valid usizeMax turns rem) (nth usizeMax s n) s n := by
  have hle : s.v.len ≤ usizeMax := hs.chunks.len_le
  by_cases hn : n * s.chunk_size < s.v.len
  · rw [nth, mul_eq (le_trans (le_of_lt hn) hle)]
    dsimp only
    rw [if_pos hn, index_eq (le_of_lt hn) (le_refl _)]
    exact next_rest_takes hs hn
  · exact past_takes hasLength hs (hs.spent rfl) hs.lt_length hn

theorem next_back_takes : TakesBack get (Valid usizeMax turns rem) length (next_back s) s 0 := by
  have hpos := hs.size
  by_cases hsize : s.v.len < s.chunk_size
  · have hend := hs.spent (hs.len_eq_zero hsize)
    rw [next_back, if_pos hsize]
    exact hasLength.takes_back_none hend (Nat.not_lt.mpr hend.2.le)
  · have hplace := hs.pred_length_mul
    refine takes_back hs { s with v := ⟨s.v.start, s.v.len - s.chunk_size⟩ } ?_ rfl rfl
      hplace.symm fun _ => rfl
    rw [next_back, if_neg hsize, checkedSub_eq (by omega), if_pos (by
      rw [hs.lt_length, Nat.zero_mul]; omega), hs.get_eq (by rw [Nat.sub_zero, hplace]; omega),
      Nat.sub_zero, hplace]
    simp only [some_bind]
    rw [split_at_eq (sub_le _ _), Nat.sub_sub_self (by omega)]
    rfl

theorem last_eq : last s = some (get s (length s - 1)) := by
  obtain ⟨s', hback, -, -⟩ := next_back_takes hs
  rw [last, hback, Nat.sub_zero]
  by_cases hn : 0 < length s
  · rw [if_pos hn]
    rfl
  · rw [if_neg hn, get, Chunks.get, if_neg]
    · rfl
    · exact mt hs.lt_length.mpr (by omega)

theorem nth_back_takes (n : ℕ) :
    TakesBack get (Valid usizeMax turns rem) length (nth_back usizeMax s n) s n := by
  have hle : s.v.len ≤ usizeMax := hs.chunks.len_le
  rw [nth_back, len_eq hs]
  simp only [some_bind]
  by_cases hn : n < length s
  · have hplace := hs.place_lt hn
    have hchunk := hs.whole_chunk hplace
    have hmax := le_trans hchunk hle
    refine takes_back hs { s with v :=
        ⟨s.v.start + 0, (length s - 1 - n) * s.chunk_size - 0⟩ } ?_ rfl rfl ?_ fun _ => rfl
    · rw [if_pos hn, if_pos hn, hs.get_eq hplace]
      simp only [mul_eq (le_trans (le_add_right _ _) hmax), some_bind]
      rw [add_eq hmax]
      simp only [some_bind]
      rw [index_eq (le_add_right _ _) hchunk,
        index_eq (Nat.zero_le _) (Nat.le_of_lt hplace), Nat.add_sub_cancel_left]
      rfl
    · rw [Nat.sub_sub, Nat.add_comm 1 n]
      rfl
  · rw [if_neg hn]
    exact hasLength.takes_back_none (hs.spent rfl) hn

theorem get_unchecked_eq (hi : i < length s) : get_unchecked usizeMax s i = get s i := by
  rw [hs.lt_length] at hi
  have hchunk := hs.whole_chunk hi
  rw [get_unchecked, mul_eq (le_trans (le_of_lt hi) hs.chunks.len_le), hs.get_eq hi]
  simp only [some_bind]
  rw [raw_part_eq hchunk]

end ChunksExact

namespace ChunksExactMut

open ChunksExact

variable {rem : Span} {s : ChunksExact}

theorem nth_takes (hs : Valid usizeMax turns rem s) (n : ℕ) :
    TakesFront get (Valid usizeMax turns rem) (nth usizeMax s n) s n := by
  have hle : s.v.len ≤ usizeMax := hs.chunks.len_le
  by_cases hn : n * s.chunk_size < s.v.len
  · rw [nth, mul_eq (le_trans (le_of_lt hn) hle)]
    dsimp only
    rw [if_pos hn, split_at_eq (le_of_lt hn)]
    exact next_rest_takes hs hn
  · exact past_takes hasLength hs (hs.spent rfl) hs.lt_length hn

theorem nth_back_takes (hs : Valid usizeMax turns rem s) (n : ℕ) :
    TakesBack get (Valid usizeMax turns rem) length (nth_back usizeMax s n) s n := by
  have hle : s.v.len ≤ usizeMax := hs.chunks.len_le
  rw [nth_back, len_eq hs]
  simp only [some_bind]
  by_cases hn : n < length s
  · have hplace := hs.place_lt hn
    have hchunk := hs.whole_chunk hplace
    have hmax := le_trans hchunk hle
    refine takes_back hs { s with v :=
        ⟨s.v.start, (length s - 1 - n) * s.chunk_size⟩ } ?_ rfl rfl ?_ fun _ => rfl
    · rw [if_pos hn, if_pos hn, hs.get_eq hplace]
      simp only [mul_eq (le_trans (Nat.le_add_right _ _) hmax), some_bind]
      rw [add_eq hmax]
      simp only [some_bind]
      rw [split_at_eq hchunk]
      simp only [some_bind]
      rw [split_at_eq (Nat.le_add_right _ _), Nat.add_sub_cancel_left]
      rfl
    · rw [Nat.sub_sub, Nat.add_comm 1 n]
  · rw [if_neg hn]
    exact hasLength.takes_back_none (hs.spent rfl) hn

end ChunksExactMut

end RustStd.Slice
