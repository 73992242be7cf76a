import RustStd.Alloc.Layout

/-!
# The raw vector

The allocation of a vector, after `alloc/src/raw_vec/mod.rs`, over an allocator that may do anything
the trait allows: every call may fail, and a block that it hands out is as large as requested or
larger. The memory keeps the blocks handed out and not returned; a call with a pointer and a layout
that are not those of such a block is a fault, and so is unchecked arithmetic that wraps around.
-/

namespace RustStd.Alloc

variable {t : Target} {σ : Type}

/-! ## The allocator -/

/-- What an allocator returns for a request of `size` bytes. -/
structure Slice (size : ℕ) where
  ptr : ℕ
  len : ℕ
  fits : size ≤ len

/-- The behaviour of an allocator with the state `σ`. -/
structure Allocator (t : Target) (σ : Type) where
  allocate : σ → (layout : Layout t) → Option (Slice layout.size) × σ
  allocate_zeroed : σ → (layout : Layout t) → Option (Slice layout.size) × σ
  deallocate : σ → ℕ → Layout t → σ
  grow : σ → ℕ → Layout t → (new_layout : Layout t) → Option (Slice new_layout.size) × σ
  shrink : σ → ℕ → Layout t → (new_layout : Layout t) → Option (Slice new_layout.size) × σ

/-- A block handed out. -/
structure Block (t : Target) where
  ptr : ℕ
  layout : Layout t
  len : ℕ
  fits : layout.size ≤ len

/-- The allocator and the blocks it handed out. -/
structure Memory (t : Target) (σ : Type) where
  alloc : σ
  blocks : List (Block t)

def Block.of_slice (layout : Layout t) (slice : Slice layout.size) : Block t :=
  ⟨slice.ptr, layout, slice.len, slice.fits⟩

/-- The blocks but the first with this pointer and layout, if there is one. -/
def take_block (ptr : ℕ) (layout : Layout t) : List (Block t) → Option (List (Block t))
  | [] => none
  | b :: blocks =>
    if b.ptr = ptr ∧ b.layout = layout then some blocks
    else (take_block ptr layout blocks).map (b :: ·)

namespace Memory

variable (A : Allocator t σ) (self : Memory t σ)

/-- The answer of the allocator to a request. -/
def answer (blocks : List (Block t)) {layout : Layout t} :
    Option (Slice layout.size) × σ → Option ℕ × Memory t σ
  | (some slice, alloc) => (some slice.ptr, ⟨alloc, .of_slice layout slice :: blocks⟩)
  | (none, alloc) => (none, ⟨alloc, self.blocks⟩)

/-- `Allocator::allocate` -/
def allocate (layout : Layout t) : Option ℕ × Memory t σ :=
  self.answer self.blocks (A.allocate self.alloc layout)

/-- `Allocator::allocate_zeroed` -/
def allocate_zeroed (layout : Layout t) : Option ℕ × Memory t σ :=
  self.answer self.blocks (A.allocate_zeroed self.alloc layout)

/-- `Allocator::deallocate` -/
def deallocate (ptr : ℕ) (layout : Layout t) : Exec (Memory t σ) :=
  match take_block ptr layout self.blocks with
  | some blocks => .ok ⟨A.deallocate self.alloc ptr layout, blocks⟩
  | none => .error .fault

/-- `Allocator::grow` -/
def grow (ptr : ℕ) (old_layout new_layout : Layout t) : Exec (Option ℕ × Memory t σ) :=
  match take_block ptr old_layout self.blocks with
  | some blocks =>
    if old_layout.size ≤ new_layout.size then
      .ok (self.answer blocks (A.grow self.alloc ptr old_layout new_layout))
    else .error .fault
  | none => .error .fault

/-- `Allocator::shrink` -/
def shrink (ptr : ℕ) (old_layout new_layout : Layout t) : Exec (Option ℕ × Memory t σ) :=
  match take_block ptr old_layout self.blocks with
  | some blocks =>
    if new_layout.size ≤ old_layout.size then
      .ok (self.answer blocks (A.shrink self.alloc ptr old_layout new_layout))
    else .error .fault
  | none => .error .fault

end Memory

/-! ## The vector -/

inductive TryReserveError (t : Target)
  | CapacityOverflow
  | AllocError (layout : Layout t)
  deriving DecidableEq

/-- How a call ends. -/
inductive Outcome (t : Target)
  | returned
  | failed (e : TryReserveError t)
  | panicked
  | aborted (layout : Layout t)
  deriving DecidableEq

/-- `handle_error`, on the outcome of the call that may have failed. -/
def Outcome.handle_error : Outcome t → Outcome t
  | .failed .CapacityOverflow => .panicked
  | .failed (.AllocError layout) => .aborted layout
  | o => o

/-- A capacity does not exceed `isize::MAX`. -/
structure RawVecInner (t : Target) where
  ptr : ℕ
  cap : ℕ
  cap_le : cap ≤ t.isizeMax
  deriving DecidableEq

/-- A vector and the memory it is in. -/
structure State (t : Target) (σ : Type) where
  vec : RawVecInner t
  memory : Memory t σ

def min_non_zero_cap (size : ℕ) : ℕ :=
  if size = 1 then 8 else if size ≤ 1024 then 4 else 1

def layout_array (cap : ℕ) (elem_layout : Layout t) :
    Exec (Except (TryReserveError t) (Layout t)) := do
  match ← elem_layout.repeat cap with
  | .ok (layout, _) => return .ok layout
  | .error _ => return .error .CapacityOverflow

/-- `hint::assert_unchecked` and `debug_assert!` -/
def assume (c : Prop) [Decidable c] : Exec Unit := if c then .ok () else .error .fault

namespace RawVecInner

/-- `RawVecInner { ptr, cap }`, with `Cap::new_unchecked`. -/
def of_parts (t : Target) (ptr cap : ℕ) : Exec (RawVecInner t) :=
  if h : cap ≤ t.isizeMax then .ok ⟨ptr, cap, h⟩ else .error .fault

def new_in (align : Alignment t) : RawVecInner t := ⟨align.value, 0, Nat.zero_le _⟩

variable (self : RawVecInner t)

def capacity (elem_size : ℕ) : ℕ := if elem_size = 0 then t.usizeMax else self.cap

def needs_to_grow (len additional : ℕ) (elem_layout : Layout t) : Bool :=
  additional > t.wrappingSub (self.capacity elem_layout.size) len

def current_memory (elem_layout : Layout t) : Exec (Option (ℕ × Layout t)) :=
  if elem_layout.size = 0 ∨ self.cap = 0 then .ok none
  else do
    let alloc_size ← unchecked_mul t elem_layout.size self.cap
    let layout ← Layout.from_size_align_unchecked t alloc_size elem_layout.align.value
    return some (self.ptr, layout)

end RawVecInner

def try_allocate_in (A : Allocator t σ) (memory : Memory t σ) (capacity : ℕ) (zeroed : Bool)
    (elem_layout : Layout t) : Exec (Except (TryReserveError t) (RawVecInner t) × Memory t σ) := do
  match ← layout_array capacity elem_layout with
  | .error _ => return (.error .CapacityOverflow, memory)
  | .ok layout =>
    if layout.size = 0 then return (.ok (.new_in elem_layout.align), memory)
    let result := if zeroed then memory.allocate_zeroed A layout else memory.allocate A layout
    match result with
    | (some ptr, memory) => return (.ok (← RawVecInner.of_parts t ptr capacity), memory)
    | (none, memory) => return (.error (.AllocError layout), memory)

namespace State

variable (A : Allocator t σ) (self : State t σ)

def finish_grow (cap : ℕ) (elem_layout : Layout t) :
    Exec (Except (TryReserveError t) ℕ × Memory t σ) := do
  match ← layout_array cap elem_layout with
  | .error e => return (.error e, self.memory)
  | .ok new_layout =>
    let memory ← (match ← self.vec.current_memory elem_layout with
      | some (ptr, old_layout) => do
        assume (old_layout.align = new_layout.align)
        self.memory.grow A ptr old_layout new_layout
      | none => return self.memory.allocate A new_layout)
    match memory with
    | (some ptr, memory) => return (.ok ptr, memory)
    | (none, memory) => return (.error (.AllocError new_layout), memory)

/-- The end of `grow_amortized` and `grow_exact`, with `set_ptr_and_cap`. -/
def grow_to (cap : ℕ) (elem_layout : Layout t) : Exec (Outcome t × State t σ) := do
  match ← self.finish_grow A cap elem_layout with
  | (.ok ptr, memory) => return (.returned, ⟨← RawVecInner.of_parts t ptr cap, memory⟩)
  | (.error e, memory) => return (.failed e, ⟨self.vec, memory⟩)

def grow_amortized (len additional : ℕ) (elem_layout : Layout t) :
    Exec (Outcome t × State t σ) := do
  assume (additional > 0)
  if elem_layout.size = 0 then return (.failed .CapacityOverflow, self)
  match checked_add t len additional with
  | none => return (.failed .CapacityOverflow, self)
  | some required_cap =>
    let cap := max (← unchecked_mul t self.vec.cap 2) required_cap
    let cap := max (min_non_zero_cap elem_layout.size) cap
    self.grow_to A cap elem_layout

def grow_exact (len additional : ℕ) (elem_layout : Layout t) : Exec (Outcome t × State t σ) := do
  if elem_layout.size = 0 then return (.failed .CapacityOverflow, self)
  match checked_add t len additional with
  | none => return (.failed .CapacityOverflow, self)
  | some cap => self.grow_to A cap elem_layout

def grow_one (elem_layout : Layout t) : Exec (Outcome t × State t σ) := do
  let (o, self) ← self.grow_amortized A self.vec.cap 1 elem_layout
  return (o.handle_error, self)

def reserve (len additional : ℕ) (elem_layout : Layout t) : Exec (Outcome t × State t σ) := do
  if self.vec.needs_to_grow len additional elem_layout then
    let (o, self) ← self.grow_amortized A len additional elem_layout
    return (o.handle_error, self)
  return (.returned, self)

/-- The end of `try_reserve` and `try_reserve_exact`: a failure is passed on, and the reservation
has succeeded or was not needed. -/
def reserved (len additional : ℕ) (elem_layout : Layout t) :
    Outcome t × State t σ → Exec (Outcome t × State t σ)
  | (.returned, self) => do
    assume (! self.vec.needs_to_grow len additional elem_layout)
    return (.returned, self)
  | (o, self) => .ok (o, self)

def try_reserve (len additional : ℕ) (elem_layout : Layout t) : Exec (Outcome t × State t σ) := do
  if self.vec.needs_to_grow len additional elem_layout then
    reserved len additional elem_layout (← self.grow_amortized A len additional elem_layout)
  else reserved len additional elem_layout (.returned, self)

def try_reserve_exact (len additional : ℕ) (elem_layout : Layout t) :
    Exec (Outcome t × State t σ) := do
  if self.vec.needs_to_grow len additional elem_layout then
    reserved len additional elem_layout (← self.grow_exact A len additional elem_layout)
  else reserved len additional elem_layout (.returned, self)

def reserve_exact (len additional : ℕ) (elem_layout : Layout t) : Exec (Outcome t × State t σ) := do
  let (o, self) ← self.try_reserve_exact A len additional elem_layout
  return (o.handle_error, self)

def shrink_unchecked (cap : ℕ) (elem_layout : Layout t) : Exec (Outcome t × State t σ) := do
  match ← self.vec.current_memory elem_layout with
  | none => return (.returned, self)
  | some (ptr, layout) =>
    if cap = 0 then
      let memory ← self.memory.deallocate A ptr layout
      return (.returned, ⟨.new_in elem_layout.align, memory⟩)
    else
      let new_size ← unchecked_mul t elem_layout.size cap
      let new_layout ← Layout.from_size_align_unchecked t new_size layout.align.value
      match ← self.memory.shrink A ptr layout new_layout with
      | (some ptr, memory) => return (.returned, ⟨← RawVecInner.of_parts t ptr cap, memory⟩)
      | (none, memory) => return (.failed (.AllocError new_layout), ⟨self.vec, memory⟩)

def shrink (cap : ℕ) (elem_layout : Layout t) : Exec (Outcome t × State t σ) :=
  if cap ≤ self.vec.capacity elem_layout.size then self.shrink_unchecked A cap elem_layout
  else .ok (.panicked, self)

def shrink_to_fit (cap : ℕ) (elem_layout : Layout t) : Exec (Outcome t × State t σ) := do
  let (o, self) ← self.shrink A cap elem_layout
  return (o.handle_error, self)

/-- `deallocate`, when the vector is dropped. -/
def deallocate (elem_layout : Layout t) : Exec (Memory t σ) := do
  match ← self.vec.current_memory elem_layout with
  | some (ptr, layout) => self.memory.deallocate A ptr layout
  | none => return self.memory

end State

end RustStd.Alloc
