import RustStd.VecDeque.Refine

/-!
# Moving the elements inside the buffer

`make_contiguous` brings the elements into one block, which converting to a vector needs, and
`shrink_to` brings them below the capacity it shrinks to. The allocator may refuse to shrink; then
the call unwinds, and `abort_shrink` moves the elements back to where the old capacity has them. The
`debug_assert!`s at the end of `shrink_to` are left out.
-/

namespace RustStd

open List Nat Option Exec

namespace RawVec

variable {α : Type}

/-- Reallocate to `cap` cells, which the allocator may refuse. Nothing is asked of it when there is
no buffer, or when the buffer is freed. -/
def shrink_to_fit (v : RawVec α) (cap : ℕ) (fails : Bool) : Exec (RawVec α × Exit) :=
  if cap ≤ v.cap then
    if v.cap = 0 then .ok (v, .returned)
    else if cap = 0 then .ok (RawVec.new, .returned)
    else if fails then .ok (v, .unwound)
    else .ok (⟨fun i => if i < cap then v.mem i else none, cap⟩, .returned)
  else .error .panic

end RawVec

open RawVec

namespace VecDeque

variable {α : Type}

/-! ## The operations -/

section Model

variable (t : Target) (zst : Option α)

def is_contiguous (d : VecDeque α) : Bool := d.head ≤ d.capacity t zst - d.len

/-- `rotate_left` of a range of the buffer, as a slice. -/
def rotate_range_left (d : VecDeque α) (start len mid : ℕ) : Exec (VecDeque α) :=
  if mid ≤ len then do
    let slice ← d.buffer_range zst start len
    d.write_slice zst start (slice.rotate mid)
  else .error .panic

/-- `rotate_right` of a range of the buffer, as a slice. -/
def rotate_range_right (d : VecDeque α) (start len k : ℕ) : Exec (VecDeque α) :=
  if k ≤ len then do
    let slice ← d.buffer_range zst start len
    d.write_slice zst start (slice.rotate (len - k))
  else .error .panic

/-- The branches of `make_contiguous` for a deque that wraps around. -/
def join_slices (d : VecDeque α) : Exec (VecDeque α) :=
  let head := d.head
  let cap := d.capacity t zst
  let free := cap - d.len
  let head_len := cap - head
  let tail := d.len - head_len
  let tail_len := tail
  if free ≥ head_len then do
    let d ← d.copy zst 0 head_len tail_len
    let d ← d.copy_nonoverlapping zst head 0 head_len
    .ok { d with head := 0 }
  else if free ≥ tail_len then do
    let d ← d.copy zst head tail head_len
    let d ← d.copy_nonoverlapping zst 0 (tail + head_len) tail_len
    .ok { d with head := tail }
  else if head_len > tail_len then do
    let d ← (if free ≠ 0 then d.copy zst 0 free tail_len else .ok d)
    let d ← d.rotate_range_left zst free (cap - free) tail_len
    .ok { d with head := free }
  else do
    let d ← (if free ≠ 0 then d.copy zst head tail_len head_len else .ok d)
    let d ← d.rotate_range_right zst 0 d.len head_len
    .ok { d with head := 0 }

/-- The deque, and the slice of its elements. -/
def make_contiguous (d : VecDeque α) : Exec (VecDeque α × List α) := do
  let d := if zst.isSome then { d with head := 0 } else d
  let d ← (if d.is_contiguous t zst then .ok d else d.join_slices t zst)
  .ok (d, ← d.buffer_range zst d.head d.len)

/-- A vector, its elements from the start of the buffer on. -/
structure Vec (α : Type) where
  buf : RawVec α
  len : ℕ

def Vec.as_slice (v : Vec α) : Exec (List α) := buffer_range zst ⟨0, v.len, v.buf⟩ 0 v.len

/-- `Vec::from`. -/
def into_vec (d : VecDeque α) : Exec (Vec α) := do
  let (other, _) ← d.make_contiguous t zst
  let other ← (if other.head ≠ 0 then other.copy zst other.head 0 other.len else .ok other)
  .ok ⟨other.buf, other.len⟩

/-- The deque as it was before `shrink_to`, as far as its list goes. -/
def abort_shrink (d : VecDeque α) (old_head target_cap : ℕ) : Exec (VecDeque α) :=
  if d.head ≤ target_cap - d.len then .ok d
  else
    let head_len := target_cap - d.head
    let tail_len := d.len - head_len
    if tail_len ≤ min head_len (d.capacity t zst - target_cap) then
      d.copy_nonoverlapping zst 0 target_cap tail_len
    else do
      let d ← d.copy zst d.head old_head head_len
      .ok { d with head := old_head }

/-- The first half of `shrink_to`: every element is moved below `target_cap`. -/
def relocate (d : VecDeque α) (target_cap : ℕ) : Exec (VecDeque α) :=
  let tail_outside :=
    decide (target_cap + 1 ≤ d.head + d.len ∧ d.head + d.len ≤ d.capacity t zst)
  if d.len = 0 then .ok { d with head := 0 }
  else if d.head ≥ target_cap ∧ tail_outside then do
    let d ← d.copy_nonoverlapping zst d.head 0 d.len
    .ok { d with head := 0 }
  else if d.head < target_cap ∧ tail_outside then
    d.copy_nonoverlapping zst target_cap 0 (d.head + d.len - target_cap)
  else if !d.is_contiguous t zst then do
    let head_len := d.capacity t zst - d.head
    let new_head := target_cap - head_len
    let d ← d.copy zst d.head new_head head_len
    .ok { d with head := new_head }
  else .ok d

/-- `fails` says whether the allocator refuses to shrink the buffer. -/
def shrink_to (d : VecDeque α) (min_capacity : ℕ) (fails : Bool) : Exec (VecDeque α × Exit) :=
  let target_cap := max min_capacity d.len
  if zst.isSome ∨ d.capacity t zst ≤ target_cap then .ok (d, .returned)
  else do
    let old_head := d.head
    let d ← d.relocate t zst target_cap
    let (buf, exit) ← d.buf.shrink_to_fit target_cap fails
    match exit with
    | .returned => .ok ({ d with buf }, .returned)
    | .unwound =>
      let d ← abort_shrink t zst { d with buf } old_head target_cap
      .ok (d, .unwound)

end Model

variable {t : Target} {d : VecDeque α} {l : List α}

/-! ## One block -/

theorem moved_self (mem : ℕ → Option α) (src len : ℕ) : moved mem src src len = mem := by
  funext i
  unfold moved
  split
  · congr 1
    lia
  · rfl

/-- A copy that is left out when there is nowhere to move to. -/
theorem copy_unless {p : Prop} [Decidable p] {src dst len : ℕ}
    (hs : src + len ≤ d.buf.cap) (hd : dst + len ≤ d.buf.cap) (hp : ¬p → src = dst) :
    (if p then d.copy none src dst len else .ok d) =
      .ok (d.withMem (moved d.buf.mem src dst len)) := by
  by_cases h : p
  · rw [if_pos h, copy_eq hs hd]
  · rw [if_neg h, hp h, moved_self]
    rfl

/-- Elements in one block are a list around the ring. -/
theorem Sized.of_block (hlen : l.length = d.len)
    (hblock : d.head + d.len ≤ d.buf.cap)
    (hhead : d.head < d.buf.cap ∨ (d.head = 0 ∧ d.buf.cap = 0))
    (hcap : d.buf.cap ≤ t.isizeMax)
    (hcells : ∀ i, i < d.len → d.buf.mem (d.head + i) = l[i]?) : Sized t d l :=
  ⟨hlen, by lia, hhead, hcap, fun i hi => by rw [phys_of_lt (by lia), hcells i hi]⟩

/-- A block of the buffer that holds a list. -/
theorem Sized.block (h : Sized t d l)
    (hblock : d.head + d.len ≤ d.buf.cap) : d.buffer_range none d.head d.len = .ok l := by
  have hlen := h.length
  rw [← hlen]
  refine buffer_range_eq (by lia) fun i hi => ?_
  rw [← h.cells i (by lia), phys_of_lt (by lia)]

/-- The list written as one block. -/
theorem Sized.of_written {start : ℕ} (hlen : l.length = d.len)
    (hpos : 0 < d.len) (hblock : start + d.len ≤ d.buf.cap) (hcap : d.buf.cap ≤ t.isizeMax) :
    Sized t { d.withMem (written d.buf.mem start l) with head := start } l := by
  refine Sized.of_block hlen hblock (Or.inl (by simp only [withMem]; lia)) hcap fun i hi => ?_
  have hi : i < d.len := hi
  simp only [withMem, written]
  rw [if_pos (by lia)]
  congr 1
  lia

/-- The two slices, next to each other with the second in front, are the list turned by as much as
the first is long. -/
theorem rotate_range_eq {start n : ℕ} (hn : n ≤ l.length) (hblock : start + l.length ≤ d.buf.cap)
    (htail : ∀ i, i < l.length - n → d.buf.mem (start + i) = l[n + i]?)
    (hhead : ∀ i, i < n → d.buf.mem (start + (l.length - n) + i) = l[i]?) :
    d.rotate_range_left none start l.length (l.length - n) =
      .ok (d.withMem (written d.buf.mem start l)) := by
  have hslice : d.buffer_range none start (l.rotate n).length = .ok (l.rotate n) := by
    apply buffer_range_eq
    · rwa [length_rotate]
    intro i hi
    rw [length_rotate] at hi
    rw [getElem?_rotate hi]
    by_cases hlt : i < l.length - n
    · rw [htail i hlt, mod_eq_of_lt (by lia), add_comm]
    · rw [show start + i = start + (l.length - n) + (i - (l.length - n)) by lia,
        hhead _ (by lia), mod_eq_sub_mod (by lia), mod_eq_of_lt (by lia)]
      congr 1
      lia
  rw [length_rotate] at hslice
  have hback : (l.rotate n).rotate (l.length - n) = l := by
    rw [rotate_rotate, show n + (l.length - n) = l.length by lia, rotate_length]
  unfold rotate_range_left
  rw [if_pos (sub_le _ _), hslice, bind_ok, hback]
  exact write_slice_eq hblock

/-- A rotation to the right is one to the left. -/
theorem rotate_range_right_eq (d : VecDeque α) {start len k : ℕ} (hk : k ≤ len) :
    d.rotate_range_right none start len k = d.rotate_range_left none start len (len - k) := by
  unfold rotate_range_right rotate_range_left
  rw [if_pos hk, if_pos (sub_le _ _)]

/-- What `make_contiguous` leaves. -/
structure Joined (t : Target) (d d' : VecDeque α) (l : List α) : Prop where
  sized : Sized t d' l
  cap : d'.buf.cap = d.buf.cap
  block : d'.head + d'.len ≤ d.buf.cap

/-- Each branch for a deque that wraps leaves its list in one slice. -/
theorem Sized.join_slices (h : Sized t d l) (hwraps : d.buf.cap - d.len < d.head) :
    ∃ d', d.join_slices t none = .ok d' ∧ Joined t d d' l := by
  have hlen := h.length
  have hle := h.len_le
  have hcap := h.cap_le
  have hlt := h.head_lt.resolve_right (by lia)
  have hfront : ∀ i, i < d.buf.cap - d.head → d.buf.mem (d.head + i) = l[i]? := fun i hi => by
    rw [← h.cells i (by lia), phys_of_lt (by lia)]
  have hback : ∀ i, i < d.len - (d.buf.cap - d.head) →
      d.buf.mem i = l[d.buf.cap - d.head + i]? := fun i hi => by
    rw [← h.cells _ (by lia), phys_of_ge (by lia)]
    congr 1
    lia
  unfold VecDeque.join_slices
  simp only [capacity_none]
  by_cases hfree : d.buf.cap - d.len ≥ d.buf.cap - d.head
  · -- the tail makes room for the head at the front
    rw [if_pos hfree, copy_eq (by lia) (by lia), bind_ok, copy_nonoverlapping,
      if_pos (Or.inr (Or.inl (by lia))),
      copy_eq (d := d.withMem _) (by simp only [withMem_cap]; lia)
        (by simp only [withMem_cap]; lia), bind_ok]
    refine ⟨_, rfl, Sized.of_block hlen ?_ (Or.inl ?_) hcap fun i hi => ?_, rfl, ?_⟩
    · simp only [withMem]
      lia
    · simp only [withMem]
      lia
    · have hi : i < d.len := hi
      simp only [withMem, moved]
      by_cases hhead : i < d.buf.cap - d.head
      · rw [if_pos (by lia), if_neg (by lia), ← hfront i hhead]
        congr 1
        lia
      · rw [if_neg (by lia), if_pos (by lia), hback _ (by lia)]
        congr 1
        lia
    · simp only [withMem]
      lia
  rw [if_neg hfree]
  by_cases htail : d.buf.cap - d.len ≥ d.len - (d.buf.cap - d.head)
  · -- the head makes room for the tail at the end
    rw [if_pos htail, copy_eq (by lia) (by lia), bind_ok, copy_nonoverlapping,
      if_pos (Or.inl (by lia)),
      copy_eq (d := d.withMem _) (by simp only [withMem_cap]; lia)
        (by simp only [withMem_cap]; lia), bind_ok]
    refine ⟨_, rfl, Sized.of_block hlen ?_ (Or.inl ?_) hcap fun i hi => ?_, rfl, ?_⟩
    · simp only [withMem]
      lia
    · simp only [withMem]
      lia
    · have hi : i < d.len := hi
      simp only [withMem, moved]
      by_cases hhead : i < d.buf.cap - d.head
      · rw [if_neg (by lia), if_pos (by lia), ← hfront i hhead]
        congr 1
        lia
      · rw [if_pos (by lia), if_neg (by lia), hback _ (by lia)]
        congr 1
        lia
    · simp only [withMem]
      lia
  rw [if_neg htail]
  by_cases hlong : d.buf.cap - d.head > d.len - (d.buf.cap - d.head)
  · -- the tail goes in front of the head, and both are rotated
    rw [if_pos hlong, copy_unless (by lia) (by lia) (fun h0 => (not_ne_iff.1 h0).symm),
      bind_ok, show d.buf.cap - (d.buf.cap - d.len) = l.length by lia,
      show d.len - (d.buf.cap - d.head) = l.length - (d.buf.cap - d.head) by lia]
    rw [rotate_range_eq (d := d.withMem _) (by lia) (by simp only [withMem_cap]; lia),
      bind_ok]
    · exact ⟨_, rfl, Sized.of_written (d := d.withMem _) hlen (by simp only [withMem]; lia)
        (by simp only [withMem]; lia) hcap, rfl, by simp only [withMem]; lia⟩
    · intro i hi
      simp only [withMem, moved]
      rw [if_pos (by lia), ← hback i (by lia)]
      congr 1
      lia
    · intro i hi
      simp only [withMem, moved]
      rw [if_neg (by lia), ← hfront i (by lia)]
      congr 1
      lia
  · -- the head goes behind the tail, and both are rotated
    rw [if_neg hlong, copy_unless (by lia) (by lia) (fun h0 => by lia), bind_ok]
    simp only [show ∀ mem, (d.withMem mem).len = l.length from fun _ => hlen.symm]
    rw [rotate_range_right_eq _ (by lia),
      rotate_range_eq (d := d.withMem _) (by lia) (by simp only [withMem_cap]; lia),
      bind_ok]
    · exact ⟨_, rfl, Sized.of_written (d := d.withMem _) hlen (by simp only [withMem]; lia)
        (by simp only [withMem]; lia) hcap, rfl, by simp only [withMem]; lia⟩
    · intro i hi
      simp only [withMem, moved]
      rw [if_neg (by lia), zero_add, hback i (by lia)]
    · intro i hi
      simp only [withMem, moved]
      rw [if_pos (by lia), ← hfront i (by lia)]
      congr 1
      lia

/-- Either way `make_contiguous` returns the list as one slice. -/
theorem Sized.make_contiguous (h : Sized t d l) :
    ∃ d', d.make_contiguous t none = .ok (d', l) ∧ Joined t d d' l := by
  have hle := h.len_le
  have hjoined : ∃ d', (if d.is_contiguous t none then .ok d else d.join_slices t none) = .ok d' ∧
      Joined t d d' l := by
    by_cases hcontig : d.head ≤ d.buf.cap - d.len
    · rw [if_pos (by simpa [is_contiguous, capacity_none] using hcontig)]
      exact ⟨d, rfl, h, rfl, by lia⟩
    · rw [if_neg (by simpa [is_contiguous, capacity_none] using hcontig)]
      exact h.join_slices (not_le.1 hcontig)
  obtain ⟨d', hd', hj⟩ := hjoined
  refine ⟨d', ?_, hj⟩
  have hslice := hj.sized.block (hj.cap.symm ▸ hj.block)
  simp [VecDeque.make_contiguous, hd', hslice]

/-- One block is one slice. -/
theorem Joined.as_slices {d d' : VecDeque α} (h : Joined t d d' l) :
    d'.as_slices t none = .ok (l, []) := by
  have hlen := h.sized.length
  have hblock := h.block
  rw [← h.cap] at hblock
  rw [h.sized.as_slices, take_of_length_le (by lia), drop_of_length_le (by lia)]

theorem Sized.into_vec (h : Sized t d l) :
    ∃ v, d.into_vec t none = .ok v ∧ v.as_slice none = .ok l := by
  obtain ⟨d', hd', hj⟩ := h.make_contiguous
  have hlen := hj.sized.length
  have hblock := hj.block
  rw [← hj.cap] at hblock
  unfold VecDeque.into_vec
  rw [hd', bind_ok]
  dsimp only
  rw [copy_unless (by lia) (by lia) (fun h0 => not_ne_iff.1 h0), bind_ok]
  refine ⟨_, rfl, ?_⟩
  have hslice : buffer_range none ⟨0, d'.len, ⟨moved d'.buf.mem d'.head 0 d'.len, d'.buf.cap⟩⟩
      0 l.length = .ok l := by
    refine buffer_range_eq (by simp only; lia) fun i hi => ?_
    simp only [moved]
    rw [if_pos (by lia), ← hj.sized.cells i (by lia), phys_of_lt (by lia)]
    congr 1
    lia
  rw [hlen] at hslice
  exact hslice

/-! ## Shrinking -/

variable {target_cap : ℕ}

/-- `abort_shrink` on elements around a ring of the smaller capacity. Where they wrap around there,
those after the first slice must still be where the old head has them. -/
theorem abort_shrink_spec (old_head : ℕ)
    (hlen : l.length = d.len) (hle : d.len ≤ target_cap) (htarget : target_cap < d.buf.cap)
    (hhead : d.head < target_cap ∨ d.head = 0) (hcap : d.buf.cap ≤ t.isizeMax)
    (hcells : ∀ i, i < d.len → d.buf.mem (phys target_cap d.head i) = l[i]?)
    (hold : target_cap - d.len < d.head → old_head + (target_cap - d.head) ≤ d.buf.cap ∧
      ∀ i, target_cap - d.head ≤ i → i < d.len → d.buf.mem (phys d.buf.cap old_head i) = l[i]?) :
    ∃ d', d.abort_shrink t none old_head target_cap = .ok d' ∧ Sized t d' l ∧
      d'.buf.cap = d.buf.cap := by
  unfold abort_shrink
  by_cases hblock : d.head ≤ target_cap - d.len
  · -- one block, in either capacity
    rw [if_pos hblock]
    refine ⟨d, rfl, Sized.of_block hlen (by lia) (Or.inl (by lia)) hcap fun i hi => ?_, rfl⟩
    rw [← hcells i hi, phys_of_lt (by lia)]
  rw [if_neg hblock]
  obtain ⟨hfit, hback⟩ := hold (not_le.1 hblock)
  have hfront : ∀ i, i < target_cap - d.head → d.buf.mem (d.head + i) = l[i]? := fun i hi => by
    rw [← hcells i (by lia), phys_of_lt (by lia)]
  simp only [capacity_none]
  by_cases htail : d.len - (target_cap - d.head) ≤
      min (target_cap - d.head) (d.buf.cap - target_cap)
  · -- the tail goes behind the head
    rw [if_pos htail, copy_nonoverlapping, if_pos (Or.inl (by lia)),
      copy_eq (by lia) (by lia)]
    refine ⟨_, rfl, Sized.of_block hlen (by simp only [withMem]; lia)
      (Or.inl (by simp only [withMem]; lia)) hcap fun i hi => ?_, rfl⟩
    have hi : i < d.len := hi
    simp only [withMem, moved]
    by_cases hi' : i < target_cap - d.head
    · rw [if_neg (by lia), hfront i hi']
    · rw [if_pos (by lia), ← hcells i hi, phys_of_ge (by lia)]
      congr 1
      lia
  · -- the head goes back to where it was
    rw [if_neg htail, copy_eq (by lia) (by lia), bind_ok]
    have hhead' : old_head < d.buf.cap := by lia
    refine ⟨_, rfl, ⟨hlen, by simp only [withMem]; lia, Or.inl hhead', hcap, fun i hi => ?_⟩, rfl⟩
    have hi : i < d.len := hi
    simp only [withMem, moved]
    by_cases hi' : i < target_cap - d.head
    · rw [phys_of_lt (by lia), if_pos (by lia), ← hfront i hi']
      congr 1
      lia
    · rw [← hback i (by lia) hi]
      have hne : ¬(old_head ≤ phys d.buf.cap old_head i ∧
          phys d.buf.cap old_head i < old_head + (target_cap - d.head)) := by
        unfold phys
        split_ifs <;> lia
      rw [if_neg hne]

/-- The elements after the first half of `shrink_to`: around a ring of the smaller capacity, and so
that `abort_shrink` can move them back. -/
structure Relocated (t : Target) (d d' : VecDeque α) (target_cap : ℕ) (l : List α) : Prop where
  len : d'.len = d.len
  cap : d'.buf.cap = d.buf.cap
  head_lt : d'.head < target_cap ∨ (d'.head = 0 ∧ target_cap = 0)
  cells : ∀ i, i < d.len → d'.buf.mem (phys target_cap d'.head i) = l[i]?
  undo : ∃ d0, d'.abort_shrink t none d.head target_cap = .ok d0 ∧ Sized t d0 l ∧
    d0.buf.cap = d.buf.cap

/-- What remains to be shown of a relocated deque, when `abort_shrink_spec` undoes it. -/
theorem Relocated.of_cells {d d' : VecDeque α} (h : Sized t d l)
    (hle : d.len ≤ target_cap) (htarget : target_cap < d.buf.cap) (hlen : d'.len = d.len)
    (hcap : d'.buf.cap = d.buf.cap) (hhead : d'.head < target_cap ∨ (d'.head = 0 ∧ target_cap = 0))
    (hcells : ∀ i, i < d.len → d'.buf.mem (phys target_cap d'.head i) = l[i]?)
    (hold : target_cap - d.len < d'.head → d.head + (target_cap - d'.head) ≤ d.buf.cap ∧
      ∀ i, target_cap - d'.head ≤ i → i < d.len → d'.buf.mem (phys d.buf.cap d.head i) = l[i]?) :
    Relocated t d d' target_cap l := by
  refine ⟨hlen, hcap, hhead, hcells, ?_⟩
  obtain ⟨d0, hd0, hs, hc⟩ := abort_shrink_spec (t := t) (d := d') d.head
    (h.length.trans hlen.symm) (by lia) (by lia) (hhead.imp_right And.left)
    (hcap ▸ h.cap_le) (by rwa [hlen]) (by rwa [hlen, hcap])
  exact ⟨d0, hd0, hs, hc.trans hcap⟩

/-- The elements come to lie within the smaller buffer. -/
theorem Sized.relocate (h : Sized t d l)
    (hle : d.len ≤ target_cap) (htarget : target_cap < d.buf.cap) :
    ∃ d', d.relocate t none target_cap = .ok d' ∧ Relocated t d d' target_cap l := by
  have hlt := h.head_lt.resolve_right (by lia)
  unfold VecDeque.relocate
  simp only [capacity_none, decide_eq_true_eq]
  by_cases h0 : d.len = 0
  · rw [if_pos h0]
    refine ⟨_, rfl, Relocated.of_cells h hle htarget rfl rfl ?_ (fun i hi => ?_) (fun hlt => ?_)⟩
    · exact (Nat.eq_zero_or_pos target_cap).symm.imp id fun h => ⟨rfl, h⟩
    · lia
    · simp at hlt
  rw [if_neg h0]
  by_cases hboth : d.head ≥ target_cap ∧
      target_cap + 1 ≤ d.head + d.len ∧ d.head + d.len ≤ d.buf.cap
  · -- every element is past the new capacity
    rw [if_pos hboth, copy_nonoverlapping, if_pos (Or.inr (Or.inl (by lia))),
      copy_eq (by lia) (by lia), bind_ok]
    refine ⟨_, rfl, Relocated.of_cells h hle htarget rfl rfl (Or.inl (by simp only; lia))
      (fun i hi => ?_) (fun hlt => by simp at hlt)⟩
    simp only [withMem, moved]
    rw [phys_of_lt (by lia), if_pos (by lia), ← h.cells i hi, phys_of_lt (by lia)]
    congr 1
    lia
  rw [if_neg hboth]
  by_cases htail : d.head < target_cap ∧
      target_cap + 1 ≤ d.head + d.len ∧ d.head + d.len ≤ d.buf.cap
  · -- the end is past the new capacity, and goes to the front
    rw [if_pos htail, copy_nonoverlapping, if_pos (Or.inr (Or.inl (by lia))),
      copy_eq (by lia) (by lia)]
    refine ⟨_, rfl, Relocated.of_cells h hle htarget rfl rfl (Or.inl htail.1)
      (fun i hi => ?_) (fun _ => ⟨by simp only [withMem]; lia, fun i hi hi' => ?_⟩)⟩
    · simp only [withMem, moved]
      rw [← h.cells i hi, phys_of_lt (show d.head + i < d.buf.cap by lia)]
      by_cases hi' : d.head + i < target_cap
      · rw [phys_of_lt hi', if_neg (by lia)]
      · rw [phys_of_ge (not_lt.1 hi'), if_pos (by lia)]
        congr 1
        lia
    · have hi : target_cap - d.head ≤ i := hi
      simp only [withMem, moved]
      rw [← h.cells i hi', phys_of_lt (by lia), if_neg (by lia)]
  rw [if_neg htail]
  by_cases hcontig : d.head ≤ d.buf.cap - d.len
  · -- every element is below the new capacity
    rw [if_neg (by simpa [is_contiguous, capacity_none] using hcontig)]
    refine ⟨d, rfl, Relocated.of_cells h hle htarget rfl rfl (Or.inl (by lia)) (fun i hi => ?_)
      (fun hlt => by lia)⟩
    rw [← h.cells i hi, phys_of_lt (by lia), phys_of_lt (by lia)]
  -- the deque wraps around: its head goes to the end of the new capacity
  rw [if_pos (by simpa [is_contiguous, capacity_none] using hcontig),
    copy_eq (by lia) (by lia), bind_ok]
  refine ⟨_, rfl, Relocated.of_cells h hle htarget rfl rfl (Or.inl (by simp only; lia))
    (fun i hi => ?_) (fun _ => ⟨by simp only; lia, fun i hi hi' => ?_⟩)⟩
  · simp only [withMem, moved]
    rw [← h.cells i hi]
    by_cases hi' : d.head + i < d.buf.cap
    · rw [phys_of_lt hi', phys_of_lt (by lia), if_pos (by lia)]
      congr 1
      lia
    · rw [phys_of_ge (not_lt.1 hi'), phys_of_ge (by lia), if_neg (by lia)]
      congr 1
      lia
  · simp only [withMem, moved]
    rw [← h.cells i hi', phys_of_ge (by lia), if_neg (by lia)]

/-- Shrinking to fewer cells than there are, when the allocator shrinks the buffer. -/
theorem Sized.shrink_to_returned (h : Sized t d l) {min_capacity : ℕ}
    (fails : Bool) (hlt : max min_capacity d.len < d.buf.cap)
    (hfails : fails = false ∨ max min_capacity d.len = 0) :
    ∃ d', d.shrink_to t none min_capacity fails = .ok (d', .returned) ∧ Sized t d' l ∧
      d'.buf.cap = max min_capacity d.len := by
  obtain ⟨d1, hd1, hr⟩ := h.relocate (le_max_right min_capacity d.len) hlt
  have hshrunk : ∃ mem, d1.buf.shrink_to_fit (max min_capacity d.len) fails =
      .ok (⟨mem, max min_capacity d.len⟩, .returned) ∧
      ∀ i, i < max min_capacity d.len → mem i = d1.buf.mem i := by
    unfold shrink_to_fit
    rw [if_pos (by rw [hr.cap]; lia), if_neg (by rw [hr.cap]; lia)]
    by_cases h0 : max min_capacity d.len = 0
    · rw [if_pos h0, h0]
      exact ⟨_, rfl, fun i hi => absurd hi (not_lt_zero i)⟩
    · rw [if_neg h0, if_neg (by simp [hfails.resolve_right h0])]
      exact ⟨_, rfl, fun i hi => if_pos hi⟩
  obtain ⟨mem, hmem, hagree⟩ := hshrunk
  refine ⟨{ d1 with buf := ⟨mem, max min_capacity d.len⟩ }, ?_, ?_, rfl⟩
  · unfold VecDeque.shrink_to
    simp only [isSome_none, Bool.false_eq_true, false_or, capacity_none,
      if_neg (not_le.2 hlt), hd1, bind_ok, hmem]
  refine ⟨h.length.trans hr.len.symm, ?_, hr.head_lt, hlt.le.trans h.cap_le, fun i hi => ?_⟩
  · rw [hr.len]
    exact le_max_right _ _
  · have hi : i < d.len := hr.len ▸ hi
    have hphys := phys_lt (hr.head_lt.resolve_right (by lia))
      (show i ≤ max min_capacity d.len by lia)
    rw [← hr.cells i hi]
    exact hagree _ hphys

/-- Shrinking, when the allocator refuses. -/
theorem Sized.shrink_to_unwound (h : Sized t d l) {min_capacity : ℕ}
    (hlt : max min_capacity d.len < d.buf.cap) (h0 : max min_capacity d.len ≠ 0) :
    ∃ d', d.shrink_to t none min_capacity true = .ok (d', .unwound) ∧ Sized t d' l ∧
      d'.buf.cap = d.buf.cap := by
  obtain ⟨d1, hd1, hr⟩ := h.relocate (le_max_right min_capacity d.len) hlt
  obtain ⟨d0, hd0, hs, hc⟩ := hr.undo
  have hrefused : d1.buf.shrink_to_fit (max min_capacity d.len) true = .ok (d1.buf, .unwound) := by
    unfold shrink_to_fit
    rw [if_pos (by rw [hr.cap]; lia), if_neg (by rw [hr.cap]; lia), if_neg h0]
    rfl
  refine ⟨d0, ?_, hs, hc⟩
  unfold VecDeque.shrink_to
  simp only [isSome_none, Bool.false_eq_true, false_or, capacity_none,
    if_neg (not_le.2 hlt), hd1, bind_ok, hrefused]
  rw [hd0, bind_ok]

/-! ## Zero-sized elements -/

variable {u : α}

theorem ZeroSized.make_contiguous (hu : ∀ x, x = u) (h : ZeroSized t d l) :
    d.make_contiguous t (some u) = .ok ({ d with head := 0 }, l) ∧
      ZeroSized t { d with head := 0 } l := by
  have hzero : ZeroSized t { d with head := 0 } l := ⟨h.length, h.len_le, usizeMax_pos t⟩
  refine ⟨?_, hzero⟩
  have hcontig : is_contiguous t (some u) { d with head := 0 } = true := by simp [is_contiguous]
  simp only [VecDeque.make_contiguous, isSome_some, if_true, hcontig, bind_ok, buffer_range_some]
  congr 2
  exact list_eq_of_length hu (by rw [length_replicate, h.length])

theorem ZeroSized.into_vec (hu : ∀ x, x = u) (h : ZeroSized t d l) :
    ∃ v, d.into_vec t (some u) = .ok v ∧ v.as_slice (some u) = .ok l := by
  unfold VecDeque.into_vec
  rw [(h.make_contiguous hu).1, bind_ok]
  refine ⟨⟨d.buf, d.len⟩, rfl, ?_⟩
  rw [Vec.as_slice, buffer_range_some]
  congr 1
  exact list_eq_of_length hu (by rw [length_replicate, h.length])

/-! ## Both -/

variable {zst : Option α}

/-- **`make_contiguous` keeps the list and leaves it in one slice**, and never copies past the
buffer; so a deque converts to the vector of its list. -/
theorem make_contiguous_keeps_list (hz : ∀ u, zst = some u → ∀ x, x = u) {d : VecDeque α}
    {l : List α} (h : Holds t zst d l) :
    (∃ d', d.make_contiguous t zst = .ok (d', l) ∧ Holds t zst d' l ∧
      d'.capacity t zst = d.capacity t zst ∧ d'.head + d'.len ≤ d'.capacity t zst ∧
      d'.as_slices t zst = .ok (l, [])) ∧
    ∃ v, d.into_vec t zst = .ok v ∧ v.as_slice zst = .ok l := by
  cases zst with
  | none =>
    refine ⟨?_, Sized.into_vec h⟩
    obtain ⟨d', hd', hj⟩ := Sized.make_contiguous h
    have hblock := hj.block
    rw [← hj.cap] at hblock
    exact ⟨d', hd', hj.sized, by rw [capacity_none, capacity_none, hj.cap],
      by rwa [capacity_none], hj.as_slices⟩
  | some u =>
    refine ⟨?_, h.into_vec (hz u rfl)⟩
    obtain ⟨hd', hzero⟩ := h.make_contiguous (hz u rfl)
    have hlen := h.length
    have hle := h.len_le
    refine ⟨_, hd', hzero, rfl, ?_, ?_⟩
    · simpa [capacity] using hle
    · rw [hzero.as_slices (hz u rfl), take_of_length_le (by simp only; omega),
        drop_of_length_le (by simp only; omega)]

/-- A deque of capacity 4 that wraps around. -/
def wrapped : VecDeque ℕ :=
  ⟨3, 2, ⟨fun i => if i = 3 then some 0 else if i = 0 then some 1 else none, 4⟩⟩

theorem wrapped_holds : Holds ⟨3, false⟩ none wrapped [0, 1] :=
  (⟨rfl, by decide, by decide, by decide, by decide⟩ : Sized ⟨3, false⟩ wrapped [0, 1])

theorem make_contiguous_keeps_list_wrapped :
    (∃ d', wrapped.make_contiguous ⟨3, false⟩ none = .ok (d', [0, 1]) ∧
      Holds ⟨3, false⟩ none d' [0, 1] ∧
      d'.capacity ⟨3, false⟩ none = wrapped.capacity ⟨3, false⟩ none ∧
      d'.head + d'.len ≤ d'.capacity ⟨3, false⟩ none ∧
      d'.as_slices ⟨3, false⟩ none = .ok ([0, 1], [])) ∧
    ∃ v, wrapped.into_vec ⟨3, false⟩ none = .ok v ∧ v.as_slice none = .ok [0, 1] :=
  make_contiguous_keeps_list (by simp) wrapped_holds

/-- **`shrink_to` keeps the list**, whether the allocator shrinks the buffer or refuses. Elements
with a size and a smaller target give the target capacity, or the old one when the call unwinds;
otherwise nothing changes. -/
theorem shrink_to_keeps_list {d : VecDeque α} {l : List α} (h : Holds t zst d l)
    (min_capacity : ℕ) :
    (zst = none ∧ max min_capacity l.length < d.capacity t zst →
      (∃ d', d.shrink_to t zst min_capacity false = .ok (d', .returned) ∧ Holds t zst d' l ∧
        d'.capacity t zst = max min_capacity l.length) ∧
      ∃ d' exit, d.shrink_to t zst min_capacity true = .ok (d', exit) ∧ Holds t zst d' l ∧
        (max min_capacity l.length = 0 → exit = .returned ∧ d'.capacity t zst = 0) ∧
        (max min_capacity l.length ≠ 0 → exit = .unwound ∧ d'.capacity t zst = d.capacity t zst)) ∧
    (¬(zst = none ∧ max min_capacity l.length < d.capacity t zst) →
      ∀ fails, d.shrink_to t zst min_capacity fails = .ok (d, .returned)) := by
  have hlen := h.length
  constructor
  · rintro ⟨rfl, hlt⟩
    rw [capacity_none, hlen] at hlt
    simp only [capacity_none, hlen]
    constructor
    · exact h.shrink_to_returned _ hlt (Or.inl rfl)
    · by_cases h0 : max min_capacity d.len = 0
      · obtain ⟨d', hd', hs, hc⟩ := h.shrink_to_returned true hlt (Or.inr h0)
        exact ⟨d', _, hd', hs, fun _ => ⟨rfl, hc.trans h0⟩, fun hne => absurd h0 hne⟩
      · obtain ⟨d', hd', hs, hc⟩ := h.shrink_to_unwound hlt h0
        exact ⟨d', _, hd', hs, fun he => absurd he h0, fun _ => ⟨rfl, hc⟩⟩
  · intro hstays fails
    unfold shrink_to
    rw [if_pos]
    cases zst with
    | none =>
      right
      rw [hlen] at hstays
      exact not_lt.1 fun hlt => hstays ⟨rfl, hlt⟩
    | some u => exact Or.inl rfl

theorem shrink_to_keeps_list_wrapped :
    (∃ d', wrapped.shrink_to ⟨3, false⟩ none 3 false = .ok (d', .returned) ∧
      Holds ⟨3, false⟩ none d' [0, 1] ∧ d'.capacity ⟨3, false⟩ none = 3) ∧
    ∃ d', wrapped.shrink_to ⟨3, false⟩ none 3 true = .ok (d', .unwound) ∧
      Holds ⟨3, false⟩ none d' [0, 1] ∧ d'.capacity ⟨3, false⟩ none = 4 := by
  obtain ⟨hshrunk, d', exit, hd', hl, -, hexit⟩ :=
    (shrink_to_keeps_list wrapped_holds 3).1 ⟨rfl, by decide⟩
  obtain ⟨rfl, hcap⟩ := hexit (by decide)
  exact ⟨hshrunk, d', hd', hl, hcap⟩

/-- A capacity that is already smaller stays, so it need not be the one asked for. -/
theorem shrink_to_keeps_smaller_capacity :
    ¬∀ (d : VecDeque ℕ) (l : List ℕ) (min_capacity : ℕ), Holds ⟨3, false⟩ none d l →
      ∃ d', d.shrink_to ⟨3, false⟩ none min_capacity false = .ok (d', .returned) ∧
        Holds ⟨3, false⟩ none d' l ∧ d'.capacity ⟨3, false⟩ none = max min_capacity l.length := by
  intro hall
  obtain ⟨d', hd', -, hcap⟩ := hall wrapped [0, 1] 5 wrapped_holds
  have hsame : wrapped.shrink_to ⟨3, false⟩ none 5 false = .ok (wrapped, .returned) := rfl
  rw [hsame] at hd'
  obtain ⟨rfl, -⟩ := Prod.mk.inj (Except.ok.inj hd')
  exact absurd hcap (by decide)

end VecDeque

end RustStd
