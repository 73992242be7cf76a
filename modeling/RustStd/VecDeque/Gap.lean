import RustStd.VecDeque.Relocate
import RustStd.Foundations.Bounds

/-!
# Ring buffers with a gap

While elements are taken out of the middle, the cells from the head on hold the elements before the
gap, then come cells that mean nothing, then the elements after it. Either part may be moved to the
other. `close` is what dropping a draining iterator does, which moves the shorter part.
-/

namespace RustStd.VecDeque

open List Nat Exec

variable {α : Type}

section Model

variable (t : Target) (zst : Option α)

/-- The end of `slice::range`. -/
def range_end (len : ℕ) : Bound ℕ → Exec ℕ
  | .Included stop => if stop ≥ len then .error .panic else .ok (stop + 1)
  | .Excluded stop => if stop > len then .error .panic else .ok stop
  | .Unbounded => .ok len

/-- The start of `slice::range`. -/
def range_start (stop : ℕ) : Bound ℕ → Exec ℕ
  | .Excluded start => if start ≥ stop then .error .panic else .ok (start + 1)
  | .Included start => if start > stop then .error .panic else .ok start
  | .Unbounded => .ok 0

/-- `slice::range`: the positions that a range of a slice of `len` elements denotes. -/
def slice_range (start_bound end_bound : Bound ℕ) (len : ℕ) : Exec (ℕ × ℕ) := do
  let stop ← range_end len end_bound
  let start ← range_start stop start_bound
  .ok (start, stop)

/-- The cold path of dropping a `Drain`: there are elements on both sides of the hole. -/
def join_head_and_tail_wrapping (source_deque : VecDeque α) (drain_len head_len tail_len : ℕ) :
    Exec (VecDeque α) :=
  if head_len < tail_len then
    source_deque.wrap_copy t zst source_deque.head (source_deque.to_physical_idx t zst drain_len)
      head_len
  else
    source_deque.wrap_copy t zst (source_deque.to_physical_idx t zst (head_len + drain_len))
      (source_deque.to_physical_idx t zst head_len) tail_len

/-- What the guard of a dropped `Drain` does with the hole of `drain_len` cells, which the length of
the deque now ends at, and the `tail_len` elements behind it. -/
def close (source_deque : VecDeque α) (drain_len tail_len : ℕ) : Exec (VecDeque α) :=
  let head_len := source_deque.len
  let new_len := head_len + tail_len
  if zst.isSome then .ok { source_deque with len := new_len }
  else do
    let d ← (if head_len ≠ 0 ∧ tail_len ≠ 0 then
        source_deque.join_head_and_tail_wrapping t zst drain_len head_len tail_len
      else .ok source_deque)
    let head :=
      if new_len = 0 then 0
      else if head_len < tail_len then d.to_physical_idx t zst drain_len
      else d.head
    .ok { d with head := head, len := new_len }

end Model

variable {t : Target}

theorem range_end_le {len stop : ℕ} {e : Bound ℕ} (h : range_end len e = .ok stop) :
    stop ≤ len := by
  cases e with
  | Unbounded => exact (Except.ok.inj h).ge
  | Included i | Excluded i =>
    unfold range_end at h
    dsimp only at h
    split at h <;> cases h
    lia

theorem range_start_le {stop start : ℕ} {e : Bound ℕ} (h : range_start stop e = .ok start) :
    start ≤ stop := by
  cases e with
  | Unbounded => exact (Except.ok.inj h) ▸ zero_le _
  | Included i | Excluded i =>
    unfold range_start at h
    dsimp only at h
    split at h <;> cases h
    lia

/-- A range that is accepted lies in the slice. -/
theorem slice_range_le {start_bound end_bound : Bound ℕ} {len i j : ℕ}
    (h : slice_range start_bound end_bound len = .ok (i, j)) : i ≤ j ∧ j ≤ len := by
  unfold slice_range at h
  match hstop : range_end len end_bound with
  | .error e =>
    rw [hstop] at h
    cases h
  | .ok stop =>
    rw [hstop, bind_ok] at h
    match hstart : range_start stop start_bound with
    | .error e =>
      rw [hstart] at h
      cases h
    | .ok start =>
      rw [hstart, bind_ok] at h
      cases h
      exact ⟨range_start_le hstart, range_end_le hstop⟩

/-! ## The gap -/

/-- The cells from the head on: the elements before the gap, a gap, the elements after it. What the
deque says of its length is left open. -/
structure Gapped (t : Target) (d : VecDeque α) (before : List α) (gap : ℕ) (after : List α) :
    Prop where
  fits : before.length + gap + after.length ≤ d.buf.cap
  head_lt : d.head < d.buf.cap ∨ (d.head = 0 ∧ d.buf.cap = 0)
  cap_le : d.buf.cap ≤ t.isizeMax
  front : ∀ i, i < before.length → d.buf.mem (phys d.buf.cap d.head i) = before[i]?
  back : ∀ i, i < after.length →
    d.buf.mem (phys d.buf.cap d.head (before.length + gap + i)) = after[i]?

theorem wrap_copy_zero (d : VecDeque α) (src dst : ℕ) :
    d.wrap_copy t none src dst 0 = .ok d := by simp [wrap_copy]

namespace Gapped

variable {d : VecDeque α} {before after : List α} {gap : ℕ}

theorem physical (h : Gapped t d before gap after) {i : ℕ} (hi : i ≤ d.buf.cap) :
    d.to_physical_idx t none i = phys d.buf.cap d.head i := by
  have := h.head_lt
  have := h.cap_le
  exact wrap_add_eq (by lia)

/-- A list with some elements forgotten. -/
theorem of_sized {d : VecDeque α} {l : List α} (h : Sized t d l) {i j : ℕ} (hij : i ≤ j)
    (hj : j ≤ l.length) (len : ℕ) :
    Gapped t { d with len := len } (l.take i) (j - i) (l.drop j) := by
  have hlen := h.length
  have hle := h.len_le
  refine ⟨?_, h.head_lt, h.cap_le, fun k hk => ?_, fun k hk => ?_⟩
  · simp only [length_take, length_drop]
    lia
  · rw [length_take] at hk
    rw [getElem?_take, if_pos (by lia), ← h.cells k (by lia)]
  · rw [length_drop] at hk
    rw [getElem?_drop, ← h.cells _ (by lia), length_take]
    congr 2
    lia

/-- No gap, or nothing after it. -/
theorem sized (h : Gapped t d before gap after) (h0 : gap = 0 ∨ after = []) :
    Sized t { d with len := before.length + after.length } (before ++ after) := by
  have hfits := h.fits
  refine ⟨length_append, by simp only; lia, h.head_lt, h.cap_le, fun i hi => ?_⟩
  have hi : i < before.length + after.length := hi
  rw [getElem?_append]
  by_cases hlt : i < before.length
  · rw [if_pos hlt]
    exact h.front i hlt
  · rw [if_neg hlt]
    have hgap : gap = 0 := h0.resolve_right fun hnil => by
      rw [hnil, length_nil] at hi
      lia
    rw [← h.back (i - before.length) (by lia), hgap]
    congr 2
    lia

/-- Elements after the gap moved to its front. -/
theorem move_back {mid : List α} (h : Gapped t d before gap (mid ++ after)) :
    ∃ mem, d.wrap_copy t none (d.to_physical_idx t none (before.length + gap))
        (d.to_physical_idx t none before.length) mid.length = .ok (d.withMem mem) ∧
      Gapped t (d.withMem mem) (before ++ mid) gap after := by
  have hfits := h.fits
  rw [length_append] at hfits
  rw [h.physical (by lia), h.physical (by lia)]
  rcases h.head_lt with hhead | ⟨hhead, h0⟩
  · obtain ⟨mem, hcopy, hmem⟩ := wrap_copy_phys h.cap_le hhead (before.length + gap) before.length
      mid.length (by lia) (by lia)
    refine ⟨mem, hcopy, ⟨?_, Or.inl hhead, h.cap_le, fun i hi => ?_, fun i hi => ?_⟩⟩
    · rw [length_append, withMem_cap]
      lia
    · rw [length_append] at hi
      rw [withMem_mem, withMem_cap, getElem?_append]
      rw [show (d.withMem mem).head = d.head from rfl, hmem i (by lia)]
      by_cases hlt : i < before.length
      · rw [if_neg (by lia), if_pos hlt, h.front i hlt]
      · have hback := h.back (i - before.length) (by rw [length_append]; lia)
        rw [if_pos (by lia), if_neg hlt, hback, getElem?_append_left (by lia)]
    · rw [length_append, withMem_mem, withMem_cap]
      have hback := h.back (mid.length + i) (by rw [length_append]; lia)
      rw [getElem?_append_right (by lia), Nat.add_sub_cancel_left] at hback
      rw [show (d.withMem mem).head = d.head from rfl, hmem _ (by lia), if_neg (by lia), ←
        hback]
      congr 2
      lia
  · -- nothing is allocated
    have hmid : mid = [] := length_eq_zero_iff.1 (by lia)
    subst hmid
    refine ⟨d.buf.mem, wrap_copy_zero d _ _, ?_⟩
    rw [append_nil]
    exact h

/-- The elements before the gap moved to its end, with the head. -/
theorem move_front (h : Gapped t d before gap after) :
    ∃ mem, d.wrap_copy t none d.head (d.to_physical_idx t none gap) before.length =
        .ok (d.withMem mem) ∧
      (after ≠ [] → Sized t { d.withMem mem with
        head := phys d.buf.cap d.head gap, len := before.length + after.length }
        (before ++ after)) := by
  have hfits := h.fits
  rw [h.physical (by lia)]
  rcases h.head_lt with hhead | ⟨hhead, h0⟩
  · have hzero : phys d.buf.cap d.head 0 = d.head := by
      rw [phys_of_lt (by lia), add_zero]
    obtain ⟨mem, hcopy, hmem⟩ := wrap_copy_phys h.cap_le hhead 0 gap before.length (by lia)
      (by lia)
    rw [hzero] at hcopy
    refine ⟨mem, hcopy, fun hne => ?_⟩
    refine ⟨length_append, by simp only [withMem]; lia,
      Or.inl (phys_lt hhead (by lia)), h.cap_le, fun i hi => ?_⟩
    simp only [withMem]
    rw [phys_phys hhead (by lia), hmem _ (by lia), getElem?_append]
    by_cases hlt : i < before.length
    · rw [if_pos (by lia), if_pos hlt, Nat.add_sub_cancel_left, Nat.zero_add, h.front i hlt]
    · rw [if_neg (by lia), if_neg hlt, ← h.back _ (by lia)]
      congr 2
      lia
  · have hbefore : before = [] := length_eq_zero_iff.1 (by lia)
    subst hbefore
    refine ⟨d.buf.mem, wrap_copy_zero d _ _, fun hne => ?_⟩
    have hpos : 0 < after.length := length_pos_iff.2 hne
    lia

/-- The first element after the gap, as a cell. -/
theorem read {x : α} (h : Gapped t d before gap (x :: after)) :
    d.buffer_read none (d.to_physical_idx t none (before.length + gap)) = .ok x := by
  have hfits := h.fits
  rw [length_cons] at hfits
  have hhead := h.head_lt.resolve_right (by lia)
  have hcell := h.back 0 (by simp)
  rw [add_zero, getElem?_cons_zero] at hcell
  rw [h.physical (by lia)]
  simp [buffer_read, phys_lt hhead (show before.length + gap ≤ d.buf.cap by lia), hcell]

/-- The first element after the gap changed. -/
theorem write {x : α} (h : Gapped t d before gap (x :: after)) (y : α) :
    ∃ mem, d.buffer_write none (d.to_physical_idx t none (before.length + gap)) y =
        .ok (d.withMem mem) ∧ Gapped t (d.withMem mem) before gap (y :: after) := by
  have hfits := h.fits
  rw [length_cons] at hfits
  have hhead := h.head_lt.resolve_right (by lia)
  rw [h.physical (by lia), buffer_write_eq (phys_lt hhead (by lia))]
  refine ⟨_, rfl, by simpa using hfits, h.head_lt, h.cap_le, fun i hi => ?_, fun i hi => ?_⟩
  · simp only [withMem]
    rw [if_neg fun he => by have := phys_inj (by lia) (by lia) he; lia, h.front i hi]
  rw [length_cons] at hi
  have hback := h.back i (by simpa using hi)
  simp only [withMem]
  cases i with
  | zero => rw [add_zero, if_pos rfl, getElem?_cons_zero]
  | succ i =>
    rw [if_neg fun he => by have := phys_inj (by lia) (by lia) he; lia, hback,
      getElem?_cons_succ, getElem?_cons_succ]

/-- The first element after the gap taken out. -/
theorem widen {x : α} (h : Gapped t d before gap (x :: after)) :
    Gapped t d before (gap + 1) after := by
  refine ⟨?_, h.head_lt, h.cap_le, h.front, fun i hi => ?_⟩
  · have := h.fits
    rw [length_cons] at this
    lia
  · have hback := h.back (i + 1) (by simpa using hi)
    rw [getElem?_cons_succ] at hback
    rw [← hback]
    congr 2
    lia

/-- Where there is no gap, the parts may be told apart anywhere. -/
theorem shift {mid : List α} (h : Gapped t d before 0 (mid ++ after)) :
    Gapped t d (before ++ mid) 0 after := by
  have hfits := h.fits
  rw [length_append] at hfits
  refine ⟨by rw [length_append]; lia, h.head_lt, h.cap_le, fun i hi => ?_, fun i hi => ?_⟩
  · rw [length_append] at hi
    rw [getElem?_append]
    by_cases hlt : i < before.length
    · rw [if_pos hlt, h.front i hlt]
    · have hback := h.back (i - before.length) (by rw [length_append]; lia)
      rw [getElem?_append_left (by lia)] at hback
      rw [if_neg hlt, ← hback]
      congr 2
      lia
  · have hback := h.back (mid.length + i) (by rw [length_append]; lia)
    rw [getElem?_append_right (by lia), Nat.add_sub_cancel_left] at hback
    rw [← hback, length_append]
    congr 2
    lia

/-- **Closing the gap** leaves the elements before and after it. -/
theorem close (h : Gapped t d before gap after) (hlen : d.len = before.length) :
    ∃ d', d.close t none gap after.length = .ok d' ∧ Sized t d' (before ++ after) := by
  have hfits := h.fits
  unfold VecDeque.close join_head_and_tail_wrapping
  simp only [Option.isSome_none, Bool.false_eq_true, if_false, hlen]
  by_cases hnil : after = []
  · -- nothing behind the hole
    subst hnil
    rw [length_nil, if_neg (by simp), bind_ok]
    refine ⟨_, rfl, ?_⟩
    have hs := h.sized (Or.inr rfl)
    by_cases h0 : before = []
    · subst h0
      rw [length_nil, if_pos rfl]
      exact Sized.nil h.cap_le
    · have hpos := length_pos_iff.2 h0
      rw [if_neg (by lia), if_neg (by lia)]
      exact hs
  have hpos := length_pos_iff.2 hnil
  by_cases hshort : before.length < after.length
  · -- the elements before the hole are moved, with the head
    obtain ⟨mem, hcopy, hs⟩ := h.move_front
    have hmoved : (if before.length ≠ 0 ∧ after.length ≠ 0 then
        (if before.length < after.length then
          d.wrap_copy t none d.head (d.to_physical_idx t none gap) before.length
        else d.wrap_copy t none (d.to_physical_idx t none (before.length + gap))
          (d.to_physical_idx t none before.length) after.length)
        else .ok d) = .ok (d.withMem mem) := by
      by_cases h0 : before.length = 0
      · rw [if_neg (by lia)]
        rwa [h0, wrap_copy_zero] at hcopy
      · rw [if_pos ⟨h0, by lia⟩, if_pos hshort]
        exact hcopy
    rw [hmoved, bind_ok]
    have hphys : (d.withMem mem).to_physical_idx t none gap = phys d.buf.cap d.head gap :=
      h.physical (by lia)
    rw [if_neg (by lia), if_pos hshort, hphys]
    exact ⟨_, rfl, hs hnil⟩
  · -- the elements behind the hole are moved
    rw [← append_nil after] at h
    obtain ⟨mem, hcopy, hgapped⟩ := h.move_back
    have hs := hgapped.sized (Or.inr rfl)
    rw [length_append, length_nil, add_zero, append_nil] at hs
    rw [if_pos ⟨by lia, by lia⟩, if_neg hshort, hcopy, bind_ok, if_neg (by lia),
      if_neg hshort]
    exact ⟨_, rfl, hs⟩

end Gapped

end RustStd.VecDeque
