import RustStd.Slice.FrontChunks

/-!
# The chunks from the back

The elements of `RChunks` and `RChunksMut`, and of their exact forms, by their places. There are as
many as from the front; they end where the slice ends.
-/

namespace RustStd.Slice

open Iter Nat Slice.Span

variable {usizeMax turns : ℕ}

namespace RChunks

open Chunks (Valid length len_eq)

/-- The chunk at a place. -/
def get (s : Chunks) (i : ℕ) : Option Span :=
  if i * s.chunk_size < s.v.len then
    some ⟨s.v.start + (s.v.len - i * s.chunk_size - s.chunk_size),
      min s.chunk_size (s.v.len - i * s.chunk_size)⟩
  else none

variable {s s' : Chunks} {n : ℕ} {m : Option (Option Span × Chunks)}

theorem hasLength : HasLength get (Valid usizeMax turns) length := by
  intro s hs i
  rw [hs.lt_length, get]
  split
  · next h => exact iff_of_true rfl h
  · next h => exact iff_of_false Bool.false_ne_true h

/-- The elements that are left when `n + 1` were taken from the front. -/
theorem get_front (hsize : s'.chunk_size = s.chunk_size)
    (hlen : s'.v.len = s.v.len - (n + 1) * s.chunk_size)
    (hstart : 0 < s'.v.len → s'.v.start = s.v.start) (i : ℕ) : get s' i = get s (n + 1 + i) := by
  rw [get, get, hsize, add_mul (n + 1) i]
  by_cases hi : i * s.chunk_size < s'.v.len
  · rw [if_pos hi, if_pos (by lia), hstart (by lia), hlen, Nat.sub_sub _ _ (i * s.chunk_size)]
  · rw [if_neg hi, if_neg (by lia)]

variable (hs : Valid usizeMax turns s)
include hs

/-- The elements that are left when `n + 1` were taken from the back. -/
theorem get_back (hsize : s'.chunk_size = s.chunk_size)
    (hlen : s'.v.len = (length s - (n + 1)) * s.chunk_size)
    (hstart : 0 < s'.v.len → s'.v.start + s'.v.len = s.v.start + s.v.len) (i : ℕ) :
    get s' i = if i < length s - (n + 1) then get s i else none := by
  have hpos := hs.size
  have hle := hs.left_le n
  rw [get, hsize, hlen]
  rw [hlen] at hstart
  by_cases hi : i < length s - (n + 1)
  · have hnext := Nat.mul_le_mul_right s.chunk_size (succ_le_of_lt hi)
    rw [succ_mul] at hnext
    rw [if_pos (by lia), if_pos hi, get, if_pos (by lia), min_eq_left (by lia),
      min_eq_left (by lia)]
    congr 2
    lia
  · have := Nat.mul_le_mul_right s.chunk_size (Nat.le_of_not_lt hi)
    rw [if_neg (by lia), if_neg hi]

theorem takes_front
    (s' : Chunks) (hm : m = some (get s n, s')) (hsize : s'.chunk_size = s.chunk_size)
    (hlen : s'.v.len = s.v.len - (n + 1) * s.chunk_size)
    (hstart : 0 < s'.v.len → s'.v.start = s.v.start) :
    TakesFront get (Valid usizeMax turns) m s n :=
  ⟨s', hm, hs.of_le hsize (by lia), get_front hsize hlen hstart⟩

theorem takes_back
    (s' : Chunks) (hm : m = some (if n < length s then get s (length s - 1 - n) else none, s'))
    (hsize : s'.chunk_size = s.chunk_size)
    (hlen : s'.v.len = (length s - (n + 1)) * s.chunk_size)
    (hstart : 0 < s'.v.len → s'.v.start + s'.v.len = s.v.start + s.v.len) :
    TakesBack get (Valid usizeMax turns) length m s n :=
  ⟨s', hm, hs.of_le hsize (hlen ▸ hs.left_le n), get_back hs hsize hlen hstart⟩

theorem next_takes : TakesFront get (Valid usizeMax turns) (next s) s 0 := by
  by_cases hv : s.v.len = 0
  · rw [next, if_pos hv]
    exact hasLength.takes_front_none hs (hs.spent hv) (hs.length_le.trans hv.le)
  refine takes_front hs { s with v := ⟨s.v.start, s.v.len - s.chunk_size⟩ } ?_ rfl ?_
    fun _ => rfl
  · rw [next, if_neg hv]
    dsimp only
    rw [split_at_eq (sub_le _ _), get, if_pos (by rw [Nat.zero_mul]; lia),
      Nat.zero_mul, Nat.sub_zero,
      show s.v.len - (s.v.len - s.chunk_size) = min s.chunk_size s.v.len by lia]
    rfl
  · rw [zero_add, one_mul]

theorem nth_takes (n : ℕ) : TakesFront get (Valid usizeMax turns) (nth usizeMax s n) s n := by
  have hle := hs.len_le
  by_cases hn : n * s.chunk_size < s.v.len
  · refine takes_front hs { s with v :=
        ⟨s.v.start + 0, s.v.len - n * s.chunk_size - s.chunk_size⟩ } ?_ rfl ?_ fun _ => rfl
    · rw [nth, mul_eq (by lia)]
      dsimp only
      rw [if_pos hn, checkedSub_eq (le_of_lt hn)]
      simp only [some_bind]
      rw [index_eq (zero_le _) (sub_le _ _)]
      simp only [some_bind]
      rw [Nat.sub_zero, split_at_eq (sub_le _ _), get, if_pos hn]
      simp [some_bind, show s.v.len - n * s.chunk_size - (s.v.len - n * s.chunk_size - s.chunk_size)
        =
          min s.chunk_size (s.v.len - n * s.chunk_size) by lia]
    · rw [succ_mul, Nat.sub_sub]
  · exact past_takes hasLength hs (hs.spent rfl) hs.lt_length hn

theorem next_back_takes : TakesBack get (Valid usizeMax turns) length (next_back s) s 0 := by
  have hpos := hs.size
  by_cases hv : s.v.len = 0
  · rw [next_back, if_pos hv]
    exact hasLength.takes_back_none (hs.spent hv) (Nat.not_lt.mpr (hs.length_le.trans hv.le))
  have hplace := hs.pred_length_mul hv
  have hlast := Chunks.last_chunk_le hv
  have hlength := hs.length_pos hv
  have hchunk := Chunks.last_chunk_le_size (s := s) hpos
  rw [next_back, if_neg hv]
  dsimp only
  generalize (if s.v.len % s.chunk_size ≠ 0 then s.v.len % s.chunk_size else s.chunk_size) = size
    at hplace hlast hchunk ⊢
  refine takes_back hs { s with v := ⟨s.v.start + size, s.v.len - size⟩ } ?_ rfl
    hplace.symm fun _ => ?_
  · have hlt := hs.lt_length.mp (show length s - 1 < length s by lia)
    rw [split_at_eq hlast, if_pos hlength, get, Nat.sub_zero, if_pos hlt, hplace,
      Nat.sub_sub_self hlast, Nat.sub_eq_zero_of_le hchunk, Nat.min_eq_right hchunk]
    rfl
  · dsimp only
    lia

theorem nth_back_takes (n : ℕ) :
    TakesBack get (Valid usizeMax turns) length (nth_back usizeMax s n) s n := by
  have hle := hs.len_le
  rw [nth_back, len_eq hs]
  simp only [some_bind]
  by_cases hn : n < length s
  · have hplace := hs.place_lt hn
    refine takes_back hs { s with v :=
        ⟨s.v.start + (s.v.len - (length s - 1 - n) * s.chunk_size),
          s.v.len - (s.v.len - (length s - 1 - n) * s.chunk_size)⟩ } ?_ rfl ?_ fun _ => ?_
    · rw [if_pos hn, if_pos hn, get, if_pos hplace, mul_eq (le_trans (Nat.le_of_lt hplace) hle)]
      simp only [some_bind]
      rw [checkedSub_eq (Nat.le_of_lt hplace)]
      simp only [some_bind]
      rw [index_eq (sub_le _ _) (sub_le _ _), index_eq (sub_le _ _) (le_refl _)]
      simp [some_bind, show s.v.len - (length s - 1 - n) * s.chunk_size -
            (s.v.len -
        (length s - 1 - n) * s.chunk_size - s.chunk_size) =
          min s.chunk_size (s.v.len -
        (length s - 1 - n) * s.chunk_size) by lia]
    · rw [Nat.sub_sub_self (Nat.le_of_lt hplace), Nat.sub_sub, Nat.add_comm 1 n]
    · dsimp only
      lia
  · rw [if_neg hn]
    exact hasLength.takes_back_none (hs.spent rfl) hn

theorem last_eq : last s = some (get s (length s - 1)) := by
  rw [last]
  by_cases hv : s.v.len = 0
  · rw [if_pos hv, get, if_neg (by lia)]
  have hplace := hs.pred_length_mul hv
  have hlast := Chunks.last_chunk_le hv
  have hchunk := Chunks.last_chunk_le_size (s := s) hs.size
  have hlength := hs.length_pos hv
  have hlt := hs.lt_length.mp (show length s - 1 < length s by lia)
  have hend : (if s.v.len % s.chunk_size = 0 then s.chunk_size else s.v.len % s.chunk_size) =
      if s.v.len % s.chunk_size ≠ 0 then s.v.len % s.chunk_size else s.chunk_size :=
    (ite_not _ _ _).symm
  rw [if_neg hv, get, if_pos hlt]
  dsimp only
  rw [hend]
  generalize (if s.v.len % s.chunk_size ≠ 0 then s.v.len % s.chunk_size else s.chunk_size) = size
    at hplace hlast hchunk ⊢
  rw [index_eq (Nat.zero_le _) hlast, hplace, Nat.sub_sub_self hlast,
    Nat.sub_eq_zero_of_le hchunk, Nat.min_eq_right hchunk]
  rfl

theorem get_unchecked_eq {i : ℕ} (hi : i < length s) : get_unchecked usizeMax s i = get s i := by
  have hle := hs.len_le
  rw [hs.lt_length] at hi
  rw [get_unchecked, mul_eq (by lia), get, if_pos hi]
  simp only [some_bind]
  rw [checkedSub_eq (le_of_lt hi)]
  simp only [some_bind]
  rw [checkedSub_eq (sub_le _ _)]
  simp only [some_bind]
  rw [raw_part_eq (by lia),
    show s.v.len - i * s.chunk_size - (s.v.len - i * s.chunk_size - s.chunk_size) =
      min s.chunk_size (s.v.len - i * s.chunk_size) by lia]

end RChunks

/-! As in front, the mutable form only differs in what it leaves of an exhausted slice. -/

namespace RChunksMut

open RChunks
open Chunks (Valid length len_eq)

variable {s : Chunks} {n : ℕ}

variable (hs : Valid usizeMax turns s)
include hs

theorem nth_eq (hn : n * s.chunk_size < s.v.len) : nth usizeMax s n = RChunks.nth usizeMax s n := by
  have hle := hs.len_le
  rw [nth, RChunks.nth, mul_eq (by lia)]
  dsimp only
  rw [if_pos hn, if_pos hn, checkedSub_eq (le_of_lt hn)]
  simp only [some_bind]
  rw [split_at_eq (sub_le _ _), index_eq (zero_le _) (sub_le _ _)]
  rfl

theorem nth_takes (n : ℕ) :
    TakesFront RChunks.get (Valid usizeMax turns) (nth usizeMax s n) s n := by
  by_cases hn : n * s.chunk_size < s.v.len
  · rw [nth_eq hs hn]
    exact RChunks.nth_takes hs n
  · exact past_takes hasLength hs (hs.spent rfl) hs.lt_length hn

theorem nth_back_eq (hn : n < length s) :
    nth_back usizeMax s n = RChunks.nth_back usizeMax s n := by
  have hle := hs.len_le
  have hplace := hs.place_lt hn
  rw [nth_back, RChunks.nth_back, len_eq hs]
  simp only [some_bind]
  rw [if_pos hn, if_pos hn, mul_eq (le_trans (le_of_lt hplace) hle)]
  simp only [some_bind]
  rw [checkedSub_eq (le_of_lt hplace)]
  simp only [some_bind]
  rw [split_at_eq (sub_le _ _), index_eq (sub_le _ _) (sub_le _ _),
    index_eq (sub_le _ _) (le_refl _)]
  simp only [some_bind]
  rw [split_at_eq (sub_le _ _)]
  rfl

theorem nth_back_takes (n : ℕ) :
    TakesBack RChunks.get (Valid usizeMax turns) length (nth_back usizeMax s n) s n := by
  by_cases hn : n < length s
  · rw [nth_back_eq hs hn]
    exact RChunks.nth_back_takes hs n
  · rw [nth_back, len_eq hs]
    simp only [some_bind, if_neg hn]
    exact hasLength.takes_back_none (hs.spent rfl) hn

end RChunksMut

namespace RChunksExact

open ChunksExact (Valid length toChunks len_eq)

def get (s : ChunksExact) (i : ℕ) : Option Span := RChunks.get s.toChunks i

variable {rem : Span} {s s' : ChunksExact} {n : ℕ} {m : Option (Option Span × ChunksExact)}

theorem hasLength : HasLength get (Valid usizeMax turns rem) length :=
  fun _ hs => RChunks.hasLength hs.chunks

variable (hs : Valid usizeMax turns rem s)
include hs

theorem get_eq {i : ℕ} (hi : i * s.chunk_size < s.v.len) :
    get s i = some ⟨s.v.start + (s.v.len - i * s.chunk_size - s.chunk_size), s.chunk_size⟩ := by
  have hchunk := hs.whole_chunk hi
  rw [get, RChunks.get, toChunks, if_pos hi, min_eq_left (by dsimp only; lia)]

theorem takes_front
    (s' : ChunksExact) (hm : m = some (get s n, s')) (hsize : s'.chunk_size = s.chunk_size)
    (hrem : s'.rem = s.rem) (hlen : s'.v.len = s.v.len - (n + 1) * s.chunk_size)
    (hstart : 0 < s'.v.len → s'.v.start = s.v.start) :
    TakesFront get (Valid usizeMax turns rem) m s n :=
  ⟨s', hm, hs.of_front hsize hrem hlen, RChunks.get_front hsize hlen hstart⟩

theorem takes_back
    (s' : ChunksExact) (hm : m = some (if n < length s then get s (length s - 1 - n) else none, s'))
    (hsize : s'.chunk_size = s.chunk_size) (hrem : s'.rem = s.rem)
    (hlen : s'.v.len = (length s - (n + 1)) * s.chunk_size)
    (hstart : 0 < s'.v.len → s'.v.start + s'.v.len = s.v.start + s.v.len) :
    TakesBack get (Valid usizeMax turns rem) length m s n :=
  ⟨s', hm, hs.of_back hsize hrem hlen, RChunks.get_back hs.chunks hsize hlen hstart⟩

theorem next_takes : TakesFront get (Valid usizeMax turns rem) (next s) s 0 := by
  have hpos := hs.size
  by_cases hsize : s.v.len < s.chunk_size
  · have hend := hs.spent (hs.len_eq_zero hsize)
    rw [next, if_pos hsize]
    exact hasLength.takes_front_none hs hend hend.2.le
  refine takes_front hs { s with v := ⟨s.v.start, s.v.len - s.chunk_size⟩ } ?_ rfl rfl ?_
    fun _ => rfl
  · rw [next, if_neg hsize, checkedSub_eq (by lia),
      get_eq hs (by rw [Nat.zero_mul]; lia), Nat.zero_mul, Nat.sub_zero]
    simp only [some_bind]
    rw [split_at_eq (sub_le _ _), Nat.sub_sub_self (by lia)]
    rfl
  · rw [zero_add, one_mul]

/-- Both forms go on with `next` on the rest of the slice. -/
theorem next_rest_takes {start : ℕ} (hn : n * s.chunk_size < s.v.len) (hstart : start = s.v.start) :
    TakesFront get (Valid usizeMax turns rem)
      (next { s with v := ⟨start, s.v.len - n * s.chunk_size⟩ }) s n := by
  have hchunk := hs.whole_chunk hn
  refine takes_front hs { s with v := ⟨start,
      s.v.len - n * s.chunk_size - s.chunk_size⟩ } ?_ rfl rfl ?_ fun _ => hstart
  · rw [next, if_neg (by dsimp only; lia), checkedSub_eq (by dsimp only; lia), get_eq hs hn]
    simp only [some_bind]
    rw [split_at_eq (sub_le _ _)]
    dsimp only
    rw [Nat.sub_sub_self (by lia), hstart]
    rfl
  · rw [succ_mul, Nat.sub_sub]

theorem nth_takes (n : ℕ) : TakesFront get (Valid usizeMax turns rem) (nth usizeMax s n) s n := by
  have hle : s.v.len ≤ usizeMax := hs.chunks.len_le
  by_cases hn : n * s.chunk_size < s.v.len
  · rw [nth, mul_eq (le_trans (le_of_lt hn) hle)]
    dsimp only
    rw [if_pos hn, checkedSub_eq (le_of_lt hn)]
    simp only [some_bind]
    rw [index_eq (zero_le _) (sub_le _ _)]
    exact next_rest_takes hs hn (add_zero _)
  · exact past_takes hasLength hs (hs.spent rfl) hs.lt_length hn

theorem next_back_takes : TakesBack get (Valid usizeMax turns rem) length (next_back s) s 0 := by
  have hpos := hs.size
  by_cases hsize : s.v.len < s.chunk_size
  · have hend := hs.spent (hs.len_eq_zero hsize)
    rw [next_back, if_pos hsize]
    exact hasLength.takes_back_none hend (Nat.not_lt.mpr hend.2.le)
  · have hplace := hs.pred_length_mul
    refine takes_back hs { s with v :=
        ⟨s.v.start + s.chunk_size, s.v.len - s.chunk_size⟩ } ?_ rfl rfl hplace.symm fun _ => ?_
    · rw [next_back, if_neg hsize, if_pos (by rw [hs.lt_length, zero_mul]; lia),
        get_eq hs (by rw [Nat.sub_zero, hplace]; lia), Nat.sub_zero, hplace,
        Nat.sub_sub_self (by lia), Nat.sub_self, split_at_eq (by lia)]
      rfl
    · dsimp only
      lia

theorem last_eq : last s = some (get s (length s - 1)) := by
  obtain ⟨s', hback, -, -⟩ := next_back_takes hs
  rw [last, hback, Nat.sub_zero]
  by_cases hn : 0 < length s
  · rw [if_pos hn]
    rfl
  · rw [if_neg hn, get, RChunks.get, if_neg]
    · rfl
    · exact mt hs.lt_length.mpr (by lia)

/-- The arithmetic of both forms of `nth_back`. -/
theorem back_place (hn : n < length s) : (length s - n) * s.chunk_size ≤ s.v.len ∧
      s.v.len - (length s - n) * s.chunk_size + s.chunk_size =
        s.v.len - (length s - 1 - n) * s.chunk_size ∧
      s.v.len - (length s - n) * s.chunk_size =
        s.v.len - (length s - 1 - n) * s.chunk_size - s.chunk_size := by
  have hchunk := hs.whole_chunk (hs.place_lt hn)
  have hsucc := succ_mul (length s - 1 - n) s.chunk_size
  rw [show (length s - 1 - n).succ = length s - n by lia] at hsucc
  lia

theorem nth_back_takes (n : ℕ) :
    TakesBack get (Valid usizeMax turns rem) length (nth_back usizeMax s n) s n := by
  have hle : s.v.len ≤ usizeMax := hs.chunks.len_le
  rw [nth_back, len_eq hs]
  simp only [some_bind]
  by_cases hn : n < length s
  · have hplace := hs.place_lt hn
    obtain ⟨hoffset, hend, hstart⟩ := back_place hs hn
    refine takes_back hs { s with v :=
        ⟨s.v.start + (s.v.len - (length s - 1 - n) * s.chunk_size),
          s.v.len - (s.v.len - (length s - 1 - n) * s.chunk_size)⟩ } ?_ rfl rfl ?_ fun _ => ?_
    · rw [if_pos hn, if_pos hn, get_eq hs hplace, mul_eq (le_trans hoffset hle)]
      simp only [some_bind]
      rw [checkedSub_eq hoffset]
      simp only [some_bind]
      rw [add_eq (by lia), hend]
      simp only [some_bind]
      rw [index_eq (by lia) (sub_le _ _), index_eq (sub_le _ _) (le_refl _),
        hstart, Nat.sub_sub_self (by lia)]
      rfl
    · rw [Nat.sub_sub_self (Nat.le_of_lt hplace), Nat.sub_sub, Nat.add_comm 1 n]
    · dsimp only
      lia
  · rw [if_neg hn]
    exact hasLength.takes_back_none (hs.spent rfl) hn

theorem get_unchecked_eq {i : ℕ} (hi : i < length s) : get_unchecked usizeMax s i = get s i := by
  rw [hs.lt_length] at hi
  have hchunk := hs.whole_chunk hi
  rw [get_unchecked, mul_eq (le_trans (le_of_lt hi) hs.chunks.len_le), get_eq hs hi]
  simp only [some_bind]
  rw [checkedSub_eq (le_of_lt hi)]
  simp only [some_bind]
  rw [checkedSub_eq (by lia)]
  simp only [some_bind]
  rw [raw_part_eq (by lia)]

end RChunksExact

namespace RChunksExactMut

open RChunksExact
open ChunksExact (Valid length len_eq)

variable {rem : Span} {s : ChunksExact} {n : ℕ}

variable (hs : Valid usizeMax turns rem s)
include hs

theorem nth_takes (n : ℕ) :
    TakesFront RChunksExact.get (Valid usizeMax turns rem) (nth usizeMax s n) s n := by
  have hle : s.v.len ≤ usizeMax := hs.chunks.len_le
  by_cases hn : n * s.chunk_size < s.v.len
  · rw [nth, mul_eq (le_trans (le_of_lt hn) hle)]
    dsimp only
    rw [if_pos hn, checkedSub_eq (le_of_lt hn)]
    simp only [some_bind]
    rw [split_at_eq (sub_le _ _)]
    exact next_rest_takes hs hn rfl
  · exact past_takes hasLength hs (hs.spent rfl) hs.lt_length hn

theorem nth_back_eq (hn : n < length s) :
    nth_back usizeMax s n = RChunksExact.nth_back usizeMax s n := by
  have hle : s.v.len ≤ usizeMax := hs.chunks.len_le
  obtain ⟨hoffset, hend, -⟩ := back_place hs hn
  rw [nth_back, RChunksExact.nth_back, len_eq hs]
  simp only [some_bind]
  rw [if_pos hn, if_pos hn, mul_eq (le_trans hoffset hle)]
  simp only [some_bind]
  rw [checkedSub_eq hoffset]
  simp only [some_bind]
  rw [add_eq (by lia), hend]
  simp only [some_bind]
  rw [split_at_eq (sub_le _ _), index_eq (by lia) (sub_le _ _),
    index_eq (sub_le _ _) (le_refl _)]
  simp only [some_bind]
  rw [split_at_eq (by dsimp only; lia)]
  rfl

theorem nth_back_takes (n : ℕ) :
    TakesBack RChunksExact.get (Valid usizeMax turns rem) length (nth_back usizeMax s n) s n := by
  by_cases hn : n < length s
  · rw [nth_back_eq hs hn]
    exact RChunksExact.nth_back_takes hs n
  · rw [nth_back, len_eq hs]
    simp only [some_bind, if_neg hn]
    exact hasLength.takes_back_none (hs.spent rfl) hn

end RChunksExactMut

end RustStd.Slice
