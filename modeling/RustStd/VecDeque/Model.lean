import RustStd.Foundations.Exec
import RustStd.Foundations.Word

/-!
# Ring buffers

`VecDeque` of `alloc/src/collections/vec_deque/mod.rs` over a buffer of cells, of which those that
were never written hold nothing. The element type is sized or, with `zst = some u`, zero-sized with
the one value `u`; then nothing is stored and the capacity is `usize::MAX`. What the allocator
returns is an argument `c` of the operations that allocate: the new capacity is the requested one or
`c`, whichever is greater, and past `isize::MAX` the operation panics.

Copies and accesses that leave the buffer are faults. The `debug_assert!`s of the source, here and
in the modules on relocating and splicing, are left out, and so are the `assert_unchecked`s of
`pop_front` and `pop_back`: no function depends on them. That of `wrap_copy` is the condition under
which `wrap_copy_circular` says what it copies.
-/

namespace RustStd

/-- A buffer of `cap` cells. -/
structure RawVec (α : Type) where
  mem : ℕ → Option α
  cap : ℕ

namespace RawVec

variable {α : Type}

def new : RawVec α := ⟨fun _ => none, 0⟩

/-- Reallocate to `required` cells, or to the `c` the allocator returns. -/
def grow (t : Target) (v : RawVec α) (required c : ℕ) : Exec (RawVec α) :=
  if max required c ≤ t.isizeMax then
    .ok ⟨fun i => if i < v.cap then v.mem i else none, max required c⟩
  else .error .panic

/-- The cells after `len` of them are moved from `src` to `dst`. -/
def moved (mem : ℕ → Option α) (src dst len : ℕ) : ℕ → Option α :=
  fun i => if dst ≤ i ∧ i < dst + len then mem (src + (i - dst)) else mem i

/-- The cells after `xs` is written at `dst`. -/
def written (mem : ℕ → Option α) (dst : ℕ) (xs : List α) : ℕ → Option α :=
  fun i => if dst ≤ i ∧ i < dst + xs.length then xs[i - dst]? else mem i

end RawVec

structure VecDeque (α : Type) where
  head : ℕ
  len : ℕ
  buf : RawVec α

namespace VecDeque

variable {α : Type}

def new : VecDeque α := ⟨0, 0, RawVec.new⟩

variable (t : Target) (zst : Option α)

def capacity (d : VecDeque α) : ℕ := if zst.isSome then t.usizeMax else d.buf.cap

/-! ## Positions -/

/-- The position in the buffer of a logical index. -/
def wrap_index (logical_index capacity : ℕ) : ℕ :=
  if logical_index ≥ capacity then logical_index - capacity else logical_index

def wrap_add (d : VecDeque α) (idx addend : ℕ) : ℕ :=
  wrap_index (t.wrap (idx + addend)) (d.capacity t zst)

def to_physical_idx (d : VecDeque α) (idx : ℕ) : ℕ := d.wrap_add t zst d.head idx

def wrap_sub (d : VecDeque α) (idx subtrahend : ℕ) : ℕ :=
  wrap_index (t.wrap (t.wrappingSub idx subtrahend + d.capacity t zst)) (d.capacity t zst)

def is_full (d : VecDeque α) : Bool := d.len == d.capacity t zst

/-! ## Cells -/

def buffer_read (d : VecDeque α) (off : ℕ) : Exec α :=
  match zst with
  | some u => .ok u
  | none =>
    if off < d.buf.cap then
      match d.buf.mem off with
      | some x => .ok x
      | none => .error .fault
    else .error .fault

/-- `ptr::write` of a slice at `dst`. -/
def write_slice (d : VecDeque α) (dst : ℕ) (xs : List α) : Exec (VecDeque α) :=
  match zst with
  | some _ => .ok d
  | none =>
    if dst + xs.length ≤ d.buf.cap then
      .ok { d with buf := { d.buf with mem := RawVec.written d.buf.mem dst xs } }
    else .error .fault

def buffer_write (d : VecDeque α) (off : ℕ) (value : α) : Exec (VecDeque α) :=
  d.write_slice zst off [value]

/-- The elements of a range of the buffer. -/
def buffer_range (d : VecDeque α) (start : ℕ) : ℕ → Exec (List α)
  | 0 => .ok []
  | n + 1 => do
    let x ← d.buffer_read zst start
    let xs ← d.buffer_range (start + 1) n
    .ok (x :: xs)

/-- `ptr::copy` inside the buffer. -/
def copy (d : VecDeque α) (src dst len : ℕ) : Exec (VecDeque α) :=
  match zst with
  | some _ => .ok d
  | none =>
    if src + len ≤ d.buf.cap ∧ dst + len ≤ d.buf.cap then
      .ok { d with buf := { d.buf with mem := RawVec.moved d.buf.mem src dst len } }
    else .error .fault

/-- `ptr::copy_nonoverlapping` inside the buffer. -/
def copy_nonoverlapping (d : VecDeque α) (src dst len : ℕ) : Exec (VecDeque α) :=
  if src + len ≤ dst ∨ dst + len ≤ src ∨ zst.isSome then d.copy zst src dst len
  else .error .fault

/-- Copy a possibly wrapping block of the buffer. -/
def wrap_copy (d : VecDeque α) (src dst len : ℕ) : Exec (VecDeque α) :=
  if zst.isSome ∨ src = dst ∨ len = 0 then .ok d
  else
    let dst_after_src := decide (d.wrap_sub t zst dst src < len)
    let src_pre_wrap_len := d.capacity t zst - src
    let dst_pre_wrap_len := d.capacity t zst - dst
    let src_wraps := decide (src_pre_wrap_len < len)
    let dst_wraps := decide (dst_pre_wrap_len < len)
    match dst_after_src, src_wraps, dst_wraps with
    | _, false, false => d.copy zst src dst len
    | false, false, true => do
      let d ← d.copy zst src dst dst_pre_wrap_len
      d.copy zst (src + dst_pre_wrap_len) 0 (len - dst_pre_wrap_len)
    | true, false, true => do
      let d ← d.copy zst (src + dst_pre_wrap_len) 0 (len - dst_pre_wrap_len)
      d.copy zst src dst dst_pre_wrap_len
    | false, true, false => do
      let d ← d.copy zst src dst src_pre_wrap_len
      d.copy zst 0 (dst + src_pre_wrap_len) (len - src_pre_wrap_len)
    | true, true, false => do
      let d ← d.copy zst 0 (dst + src_pre_wrap_len) (len - src_pre_wrap_len)
      d.copy zst src dst src_pre_wrap_len
    | false, true, true => do
      let delta := dst_pre_wrap_len - src_pre_wrap_len
      let d ← d.copy zst src dst src_pre_wrap_len
      let d ← d.copy zst 0 (dst + src_pre_wrap_len) delta
      d.copy zst delta 0 (len - dst_pre_wrap_len)
    | true, true, true => do
      let delta := src_pre_wrap_len - dst_pre_wrap_len
      let d ← d.copy zst 0 delta (len - src_pre_wrap_len)
      let d ← d.copy zst (d.capacity t zst - delta) 0 delta
      d.copy zst src dst dst_pre_wrap_len

/-- Copy a slice to a possibly wrapping block of the buffer. -/
def copy_slice (d : VecDeque α) (dst : ℕ) (src : List α) : Exec (VecDeque α) :=
  let head_room := d.capacity t zst - dst
  if src.length ≤ head_room then d.write_slice zst dst src
  else do
    let d ← d.write_slice zst dst (src.take head_room)
    d.write_slice zst 0 (src.drop head_room)

/-- The two ranges of the buffer, as start and length, of the logical range `start..stop`. -/
def slice_ranges (d : VecDeque α) (start stop : ℕ) : (ℕ × ℕ) × (ℕ × ℕ) :=
  let len := stop - start
  if len = 0 then ((0, 0), (0, 0))
  else
    let wrapped_start := d.to_physical_idx t zst start
    let head_len := d.capacity t zst - wrapped_start
    if head_len ≥ len then ((wrapped_start, len), (0, 0))
    else ((wrapped_start, head_len), (0, len - head_len))

def as_slices (d : VecDeque α) : Exec (List α × List α) := do
  let (a_range, b_range) := d.slice_ranges t zst 0 d.len
  let a ← d.buffer_range zst a_range.1 a_range.2
  let b ← d.buffer_range zst b_range.1 b_range.2
  .ok (a, b)

/-! ## Growing -/

def handle_capacity_increase (d : VecDeque α) (old_capacity : ℕ) : Exec (VecDeque α) :=
  let new_capacity := d.capacity t zst
  if d.head ≤ old_capacity - d.len then .ok d
  else
    let head_len := old_capacity - d.head
    let tail_len := d.len - head_len
    if head_len > tail_len ∧ new_capacity - old_capacity ≥ tail_len then
      d.copy_nonoverlapping zst 0 old_capacity tail_len
    else do
      let new_head := new_capacity - head_len
      let d ← d.copy zst d.head new_head head_len
      .ok { d with head := new_head }

def grow (d : VecDeque α) (c : ℕ) : Exec (VecDeque α) := do
  let old_cap := d.capacity t zst
  if zst.isSome then .error .panic
  else do
    let buf ← d.buf.grow t (d.buf.cap + 1) c
    handle_capacity_increase t zst { d with buf } old_cap

def reserve (d : VecDeque α) (additional c : ℕ) : Exec (VecDeque α) :=
  if d.len + additional > t.usizeMax then .error .panic
  else
    let new_cap := d.len + additional
    let old_cap := d.capacity t zst
    if new_cap > old_cap then do
      let buf ← d.buf.grow t new_cap c
      handle_capacity_increase t zst { d with buf } old_cap
    else .ok d

/-! ## Operations -/

def push_front (d : VecDeque α) (value : α) (c : ℕ) : Exec (VecDeque α) := do
  let d ← (if d.is_full t zst then d.grow t zst c else .ok d)
  let d := { d with head := d.wrap_sub t zst d.head 1, len := d.len + 1 }
  d.buffer_write zst d.head value

def push_back (d : VecDeque α) (value : α) (c : ℕ) : Exec (VecDeque α) := do
  let d ← (if d.is_full t zst then d.grow t zst c else .ok d)
  let len := d.len
  let d := { d with len := d.len + 1 }
  d.buffer_write zst (d.to_physical_idx t zst len) value

def pop_front (d : VecDeque α) : Exec (VecDeque α × Option α) :=
  if d.len = 0 then .ok (d, none)
  else do
    let old_head := d.head
    let d := { d with head := d.to_physical_idx t zst 1, len := d.len - 1 }
    .ok (d, some (← d.buffer_read zst old_head))

def pop_back (d : VecDeque α) : Exec (VecDeque α × Option α) :=
  if d.len = 0 then .ok (d, none)
  else do
    let d := { d with len := d.len - 1 }
    .ok (d, some (← d.buffer_read zst (d.to_physical_idx t zst d.len)))

def swap (d : VecDeque α) (i j : ℕ) : Exec (VecDeque α) :=
  if i < d.len ∧ j < d.len then do
    let ri := d.to_physical_idx t zst i
    let rj := d.to_physical_idx t zst j
    let x ← d.buffer_read zst ri
    let y ← d.buffer_read zst rj
    let d ← d.buffer_write zst ri y
    d.buffer_write zst rj x
  else .error .panic

def swap_remove_front (d : VecDeque α) (index : ℕ) : Exec (VecDeque α × Option α) :=
  if index < d.len ∧ index ≠ 0 then do
    let d ← d.swap t zst index 0
    d.pop_front t zst
  else if index ≥ d.len then .ok (d, none)
  else d.pop_front t zst

def swap_remove_back (d : VecDeque α) (index : ℕ) : Exec (VecDeque α × Option α) :=
  if d.len > 0 ∧ index < d.len - 1 then do
    let d ← d.swap t zst index (d.len - 1)
    d.pop_back t zst
  else if index ≥ d.len then .ok (d, none)
  else d.pop_back t zst

def insert (d : VecDeque α) (index : ℕ) (value : α) (c : ℕ) : Exec (VecDeque α) :=
  if index ≤ d.len then do
    let d ← (if d.is_full t zst then d.grow t zst c else .ok d)
    let k := d.len - index
    if k < index then do
      let d ← d.wrap_copy t zst (d.to_physical_idx t zst index)
        (d.to_physical_idx t zst (index + 1)) k
      let d := { d with len := d.len + 1 }
      d.buffer_write zst (d.to_physical_idx t zst index) value
    else do
      let old_head := d.head
      let d := { d with head := d.wrap_sub t zst d.head 1 }
      let d ← d.wrap_copy t zst old_head d.head index
      let d := { d with len := d.len + 1 }
      d.buffer_write zst (d.to_physical_idx t zst index) value
  else .error .panic

def remove (d : VecDeque α) (index : ℕ) : Exec (VecDeque α × Option α) :=
  if d.len ≤ index then .ok (d, none)
  else do
    let wrapped_idx := d.to_physical_idx t zst index
    let elem ← d.buffer_read zst wrapped_idx
    let k := d.len - index - 1
    if k < index then do
      let d ← d.wrap_copy t zst (d.wrap_add t zst wrapped_idx 1) wrapped_idx k
      .ok ({ d with len := d.len - 1 }, some elem)
    else do
      let old_head := d.head
      let d := { d with head := d.to_physical_idx t zst 1 }
      let d ← d.wrap_copy t zst old_head d.head index
      .ok ({ d with len := d.len - 1 }, some elem)

/-- The deque, and the elements dropped. -/
def truncate (d : VecDeque α) (len : ℕ) : Exec (VecDeque α × List α) :=
  if len ≥ d.len then .ok (d, [])
  else do
    let (front, back) ← d.as_slices t zst
    if len > front.length then
      .ok ({ d with len := len }, back.drop (len - front.length))
    else .ok ({ d with len := len }, front.drop len ++ back)

/-- The deque, and the elements dropped. -/
def truncate_front (d : VecDeque α) (len : ℕ) : Exec (VecDeque α × List α) :=
  if len ≥ d.len then .ok (d, [])
  else do
    let (front, back) ← d.as_slices t zst
    if len > back.length then
      let last := front.length - (len - back.length)
      .ok ({ d with head := d.head + last, len := len }, front.take last)
    else
      let last := back.length - len
      .ok ({ d with head := d.to_physical_idx t zst (d.len - len), len := len },
        front ++ back.take last)

def clear (d : VecDeque α) : Exec (VecDeque α × List α) := do
  let (d, dropped) ← d.truncate t zst 0
  .ok ({ d with head := 0 }, dropped)

def with_capacity (capacity c : ℕ) : Exec (VecDeque α) := do
  if zst.isSome ∨ capacity = 0 then .ok new
  else .ok ⟨0, 0, ← RawVec.new.grow t capacity c⟩

/-- The deque, and the one split off. -/
def split_off (d : VecDeque α) (at_ c : ℕ) : Exec (VecDeque α × VecDeque α) :=
  if at_ ≤ d.len then do
    let other_len := d.len - at_
    let other ← with_capacity t zst other_len c
    let (first_half, second_half) ← d.as_slices t zst
    let first_len := first_half.length
    let other ← (if at_ < first_len then do
        let amount_in_first := first_len - at_
        let other ← other.write_slice zst 0 (first_half.drop at_)
        other.write_slice zst amount_in_first second_half
      else
        let offset := at_ - first_len
        other.write_slice zst 0 (second_half.drop offset))
    .ok ({ d with len := at_ }, { other with len := other_len })
  else .error .panic

/-- The deque, and what is left of the other. -/
def append (d other : VecDeque α) (c : ℕ) : Exec (VecDeque α × VecDeque α) :=
  if zst.isSome then
    if d.len + other.len > t.usizeMax then .error .panic
    else .ok ({ d with len := d.len + other.len }, { other with len := 0, head := 0 })
  else do
    let d ← d.reserve t zst other.len c
    let (left, right) ← other.as_slices t zst
    let d ← d.copy_slice t zst (d.to_physical_idx t zst d.len) left
    let d ← d.copy_slice t zst (d.to_physical_idx t zst (d.len + left.length)) right
    .ok ({ d with len := d.len + other.len }, { other with len := 0, head := 0 })

def rotate_left_inner (d : VecDeque α) (mid : ℕ) : Exec (VecDeque α) := do
  let d ← d.wrap_copy t zst d.head (d.to_physical_idx t zst d.len) mid
  .ok { d with head := d.to_physical_idx t zst mid }

def rotate_right_inner (d : VecDeque α) (k : ℕ) : Exec (VecDeque α) :=
  let d := { d with head := d.wrap_sub t zst d.head k }
  d.wrap_copy t zst (d.to_physical_idx t zst d.len) d.head k

def rotate_left (d : VecDeque α) (n : ℕ) : Exec (VecDeque α) :=
  if n ≤ d.len then
    let k := d.len - n
    if n ≤ k then d.rotate_left_inner t zst n else d.rotate_right_inner t zst k
  else .error .panic

def rotate_right (d : VecDeque α) (n : ℕ) : Exec (VecDeque α) :=
  if n ≤ d.len then
    let k := d.len - n
    if n ≤ k then d.rotate_right_inner t zst n else d.rotate_left_inner t zst k
  else .error .panic

end VecDeque

end RustStd
