import RustStd.Foundations.Loop
import RustStd.Foundations.Word

/-!
# Binary heaps

`BinaryHeap` of `alloc/src/collections/binary_heap/mod.rs`. The vector below a heap keeps what its
memory holds past the length, since `PeekMut` shortens the vector while it is borrowed and restores
the length afterwards. A `Hole` keeps the slice as it is in memory, with a stale copy at the hole's
position, and the element taken out. `none` is a fault: an index out of range, a hole read at its
own position, a length past the memory. Positions are computed in the target's `usize`, which wraps.
-/

namespace RustStd

/-- A vector: the elements, and what the memory after them holds. -/
structure Vec (α : Type) where
  elems : List α
  rest : List α
  deriving DecidableEq

namespace Vec

variable {α : Type}

def new : Vec α := ⟨[], []⟩

def len (v : Vec α) : ℕ := v.elems.length

/-- `set_len`, inside the memory that was written. -/
def set_len (v : Vec α) (n : ℕ) : Option (Vec α) :=
  if n ≤ v.elems.length + v.rest.length then
    some ⟨(v.elems ++ v.rest).take n, (v.elems ++ v.rest).drop n⟩
  else none

/-- Write elements after the last. -/
def extend (v : Vec α) (xs : List α) : Vec α := ⟨v.elems ++ xs, v.rest.drop xs.length⟩

def push (v : Vec α) (x : α) : Vec α := v.extend [x]

/-- `pop` leaves the element's bytes behind. -/
def pop (v : Vec α) : Vec α × Option α :=
  match v.elems.getLast? with
  | none => (v, none)
  | some x => (⟨v.elems.dropLast, x :: v.rest⟩, some x)

end Vec

namespace BinaryHeap

variable {α : Type}

/-! ## Holes -/

/-- A slice with the element at `pos` taken out. -/
structure Hole (α : Type) where
  data : List α
  elt : α
  pos : ℕ

namespace Hole

def new (data : List α) (pos : ℕ) : Option (Hole α) := do some ⟨data, ← data[pos]?, pos⟩

def get (h : Hole α) (index : ℕ) : Option α := if index ≠ h.pos then h.data[index]? else none

/-- Copy the element at `index` into the hole, which moves there. -/
def move_to (h : Hole α) (index : ℕ) : Option (Hole α) :=
  if index ≠ h.pos then do some ⟨h.data.set h.pos (← h.data[index]?), h.elt, index⟩ else none

/-- `drop`: fill the hole again. -/
def fill (h : Hole α) : List α := h.data.set h.pos h.elt

end Hole

variable [LE α] [LT α] [DecidableLE α] [DecidableLT α]

/-! ## Sifting -/

def sift_up_turn (start : ℕ) (hole : Hole α) : Option (Turn (Hole α) (Hole α)) :=
  if hole.pos > start then do
    let parent := (hole.pos - 1) / 2
    if hole.elt ≤ (← hole.get parent) then some (.done hole)
    else some (.again (← hole.move_to parent))
  else some (.done hole)

def sift_up (data : List α) (start pos : ℕ) : Option (List α × ℕ) := do
  let hole ← Hole.new data pos
  let hole ← runLoop (sift_up_turn start) (pos + 1) hole
  some (hole.fill, hole.pos)

/-- The greater of the two children, the right one when they are level. -/
def greater_child (t : Target) (hole : Hole α) (child : ℕ) : Option ℕ := do
  let left ← hole.get child
  let right ← hole.get (t.wrap (child + 1))
  some (if left ≤ right then t.wrap (child + 1) else child)

/-- A turn of the loop of `sift_down_range`; `.error` is its early return. -/
def sift_down_turn (t : Target) (last : ℕ) : Hole α × ℕ →
    Option (Turn (Hole α × ℕ) (Except (Hole α) (Hole α × ℕ))) := fun (hole, child) =>
  if child ≤ last - 2 then do
    let child ← greater_child t hole child
    if (← hole.get child) ≤ hole.elt then some (.done (.error hole))
    else do
      let hole ← hole.move_to child
      some (.again (hole, t.wrap (2 * hole.pos + 1)))
  else some (.done (.ok (hole, child)))

def sift_down_range (t : Target) (data : List α) (pos last : ℕ) : Option (List α × ℕ) := do
  let hole ← Hole.new data pos
  match ← runLoop (sift_down_turn t last) (last + 1) (hole, t.wrap (2 * pos + 1)) with
  | .error hole => some (hole.fill, hole.pos)
  | .ok (hole, child) =>
    if child = last - 1 then do
      if hole.elt < (← hole.get child) then do
        let hole ← hole.move_to child
        some (hole.fill, hole.pos)
      else some (hole.fill, hole.pos)
    else some (hole.fill, hole.pos)

def sift_down (t : Target) (data : List α) (pos : ℕ) : Option (List α × ℕ) :=
  sift_down_range t data pos data.length

def to_bottom_turn (t : Target) (last : ℕ) : Hole α × ℕ →
    Option (Turn (Hole α × ℕ) (Hole α × ℕ)) := fun (hole, child) =>
  if child ≤ last - 2 then do
    let child ← greater_child t hole child
    let hole ← hole.move_to child
    some (.again (hole, t.wrap (2 * hole.pos + 1)))
  else some (.done (hole, child))

def sift_down_to_bottom (t : Target) (data : List α) (pos : ℕ) : Option (List α) := do
  let last := data.length
  let start := pos
  let hole ← Hole.new data pos
  let (hole, child) ← runLoop (to_bottom_turn t last) (last + 1) (hole, t.wrap (2 * pos + 1))
  let hole ← (if child = last - 1 then hole.move_to child else some hole)
  let (data, _) ← sift_up hole.fill start hole.pos
  some data

/-! ## Rebuilding -/

def rebuild_turn (t : Target) : List α × ℕ → Option (Turn (List α × ℕ) (List α)) :=
  fun (data, n) =>
    if n > 0 then do
      let (data, _) ← sift_down t data (n - 1)
      some (.again (data, n - 1))
    else some (.done data)

def rebuild (t : Target) (data : List α) : Option (List α) :=
  runLoop (rebuild_turn t) (data.length / 2 + 1) (data, data.length / 2)

/-- `log2_fast`, only called on positive numbers. -/
def log2_fast (x : ℕ) : ℕ := Nat.log2 x

def better_to_rebuild (t : Target) (len start : ℕ) : Bool :=
  let tail_len := len - start
  if start < tail_len then true
  else if len ≤ 2048 then t.wrap (2 * len) < t.wrap (tail_len * log2_fast start)
  else t.wrap (2 * len) < t.wrap (tail_len * 11)

def sift_tail_turn : List α × ℕ → Option (Turn (List α × ℕ) (List α)) := fun (data, i) =>
  if i < data.length then do
    let (data, _) ← sift_up data 0 i
    some (.again (data, i + 1))
  else some (.done data)

def rebuild_tail (t : Target) (data : List α) (start : ℕ) : Option (List α) :=
  if start = data.length then some data
  else if better_to_rebuild t data.length start then rebuild t data
  else runLoop sift_tail_turn (data.length - start + 1) (data, start)

end BinaryHeap

/-! ## The heap's operations -/

structure BinaryHeap (α : Type) where
  data : Vec α

namespace BinaryHeap

variable {α : Type}

def new : BinaryHeap α := ⟨Vec.new⟩

def len (h : BinaryHeap α) : ℕ := h.data.len

/-- Write back the elements of the vector. -/
def withElems (h : BinaryHeap α) (elems : List α) : BinaryHeap α := ⟨{ h.data with elems }⟩

variable [LE α] [LT α] [DecidableLE α] [DecidableLT α]

def push (h : BinaryHeap α) (item : α) : Option (BinaryHeap α) := do
  let old_len := h.len
  let h : BinaryHeap α := ⟨h.data.push item⟩
  let (elems, _) ← sift_up h.data.elems 0 old_len
  some (h.withElems elems)

def pop (t : Target) (h : BinaryHeap α) : Option (BinaryHeap α × Option α) :=
  match h.data.pop with
  | (data, none) => some (⟨data⟩, none)
  | (data, some item) =>
    match data.elems with
    | [] => some (⟨data⟩, some item)
    | top :: tail => do
      let elems ← sift_down_to_bottom t (item :: tail) 0
      some (⟨{ data with elems }⟩, some top)

def sorted_turn (t : Target) : List α × ℕ → Option (Turn (List α × ℕ) (List α)) :=
  fun (data, last) =>
    if last > 1 then do
      let last := last - 1
      let a ← data[0]?
      let b ← data[last]?
      let (data, _) ← sift_down_range t ((data.set 0 b).set last a) 0 last
      some (.again (data, last))
    else some (.done data)

def into_sorted_vec (t : Target) (h : BinaryHeap α) : Option (List α) :=
  runLoop (sorted_turn t) (h.len + 1) (h.data.elems, h.len)

/-- `From<Vec<T>>` -/
def fromVec (t : Target) (v : List α) : Option (BinaryHeap α) := do
  some ⟨⟨← rebuild t v, []⟩⟩

/-- `self.append(&mut other)`: the two heaps afterwards. -/
def append (t : Target) (self other : BinaryHeap α) : Option (BinaryHeap α × BinaryHeap α) := do
  let (self, other) := if self.len < other.len then (other, self) else (self, other)
  let start := self.len
  let self : BinaryHeap α := ⟨self.data.extend other.data.elems⟩
  let other : BinaryHeap α := ⟨⟨[], other.data.elems ++ other.data.rest⟩⟩
  let elems ← rebuild_tail t self.data.elems start
  some (self.withElems elems, other)

def extend (t : Target) (h : BinaryHeap α) (iter : List α) : Option (BinaryHeap α) := do
  let rebuild_from := h.len
  let h : BinaryHeap α := ⟨h.data.extend iter⟩
  let elems ← rebuild_tail t h.data.elems rebuild_from
  some (h.withElems elems)

/-- The pass of `retain` over the vector: the predicate is asked at its `i`-th call about the
`i`-th element, and the guard's `rebuild_from` follows the first element rejected. -/
def retain_pass (f : ℕ → α → Bool) : ℕ → ℕ → List α → List α × ℕ
  | _, rebuild_from, [] => ([], rebuild_from)
  | i, rebuild_from, e :: es =>
    let keep := f i e
    let rebuild_from := if !keep && i < rebuild_from then i else rebuild_from
    let (kept, rebuild_from) := retain_pass f (i + 1) rebuild_from es
    (if keep then e :: kept else kept, rebuild_from)

def retain (t : Target) (h : BinaryHeap α) (f : ℕ → α → Bool) : Option (BinaryHeap α) := do
  let (kept, rebuild_from) := retain_pass f 0 h.len h.data.elems
  let elems ← rebuild_tail t kept rebuild_from
  some ⟨⟨elems, (h.data.elems ++ h.data.rest).drop elems.length⟩⟩

/-! ## `PeekMut` -/

/-- A mutable borrow of the greatest element. -/
structure PeekMut (α : Type) where
  heap : BinaryHeap α
  original_len : Option ℕ

def peek_mut (h : BinaryHeap α) : Option (PeekMut α) :=
  if h.len = 0 then none else some ⟨h, none⟩

namespace PeekMut

/-- `Deref` -/
def deref (p : PeekMut α) : Option α := p.heap.data.elems[0]?

/-- `DerefMut` and a write of `x` through the reference. -/
def write (p : PeekMut α) (x : α) : Option (PeekMut α) := do
  let p : PeekMut α ←
    (if p.heap.len > 1 then do some ⟨⟨← p.heap.data.set_len 1⟩, some p.heap.len⟩ else some p)
  if 0 < p.heap.len then some { p with heap := p.heap.withElems (p.heap.data.elems.set 0 x) }
  else none

/-- `Drop` -/
def drop (t : Target) (p : PeekMut α) : Option (BinaryHeap α) :=
  match p.original_len with
  | none => some p.heap
  | some n => do
    let h : BinaryHeap α := ⟨← p.heap.data.set_len n⟩
    let (elems, _) ← sift_down t h.data.elems 0
    some (h.withElems elems)

def refresh (t : Target) (p : PeekMut α) : Option (PeekMut α × Bool) :=
  match p.original_len with
  | none => some (p, false)
  | some n => do
    let h : BinaryHeap α := ⟨← p.heap.data.set_len n⟩
    let (elems, pos) ← sift_down t h.data.elems 0
    some (⟨h.withElems elems, none⟩, pos != 0)

/-- The heap with its length restored. -/
def restore (p : PeekMut α) : Option (BinaryHeap α) :=
  match p.original_len with
  | none => some p.heap
  | some n => do some ⟨← p.heap.data.set_len n⟩

def pop (t : Target) (p : PeekMut α) : Option (BinaryHeap α × α) := do
  let (h, item) ← (← p.restore).pop t
  some (h, ← item)

/-- `mem::forget`: the heap as the borrow left it. -/
def leak (p : PeekMut α) : BinaryHeap α := p.heap

end PeekMut

end BinaryHeap

end RustStd
