import RustStd.Foundations.Word

/-!
# Vectors of bytes

`Vec<u8>` with the cells of its allocation, as the code of strings uses it: reserving, writing to
the allocation, and setting the length. An access outside of the allocation is a fault, and so is
reading a byte that was never written. An allocation that fails ends the program.
-/

namespace RustStd

open List Nat

/-- Why a computation ends early. -/
inductive Halt
  | panic
  /-- An allocation failed. -/
  | abort
  /-- What the language leaves undefined. -/
  | fault
  deriving DecidableEq

/-- `x` is no fault, and `Q` holds of what it returns. -/
def Faultless {α : Type} (x : Except Halt α) (Q : α → Prop) : Prop :=
  match x with
  | .ok a => Q a
  | .error e => e ≠ .fault

namespace Faultless

variable {α β : Type} {x : Except Halt α} {f : α → Except Halt β} {P : α → Prop} {Q : β → Prop}

variable (hx : Faultless x P)
include hx

theorem bind (hf : ∀ a, P a → Faultless (f a) Q) : Faultless (x >>= f) Q := by
  cases x with
  | ok a => exact hf a hx
  | error e => exact hx

theorem mono {P' : α → Prop} (h : ∀ a, P a → P' a) : Faultless x P' := by
  cases x with
  | ok a => exact h a hx
  | error e => exact hx

theorem ne_fault : x ≠ .error .fault := by
  rintro rfl
  exact hx rfl

theorem of_ok {a : α} (h : x = .ok a) : P a := by
  subst h
  exact hx

end Faultless

@[simp] theorem halt_bind_ok {α β : Type} (a : α) (f : α → Except Halt β) :
    (Except.ok a >>= f) = f a := rfl

/-- A subtraction that must not underflow. -/
def sub_len (a b : ℕ) : Except Halt ℕ := if b ≤ a then .ok (a - b) else .error .fault

/-- `Vec<u8>` -/
structure ByteVec where
  /-- The allocation. -/
  cells : List (Option UInt8)
  len : ℕ
  deriving DecidableEq

namespace ByteVec

variable (t : Target) (alloc : ℕ → Bool) (self : ByteVec)

/-- A request for memory, which `alloc` may refuse. -/
def allocate (capacity : ℕ) : Except Halt Unit :=
  if capacity = 0 then .ok ()
  else if t.isizeMax < capacity then .error .panic
  else if alloc capacity then .ok ()
  else .error .abort

/-- `Vec::with_capacity` -/
def with_capacity (capacity : ℕ) : Except Halt ByteVec := do
  allocate t alloc capacity
  return ⟨replicate capacity none, 0⟩

/-- `Vec::capacity` -/
def capacity : ℕ := self.cells.length

/-- The capacity that `grow_amortized` asks for. -/
def grown (len additional : ℕ) : ℕ := max 8 (max (2 * self.capacity) (len + additional))

/-- The allocation with `n` cells more. -/
def enlarge (n : ℕ) : ByteVec := { self with cells := self.cells ++ replicate n none }

/-- `RawVec::reserve` -/
def buf_reserve (len additional : ℕ) : Except Halt ByteVec :=
  if self.capacity - len < additional then do
    allocate t alloc (self.grown len additional)
    return self.enlarge (self.grown len additional - self.capacity)
  else .ok self

/-- `Vec::reserve` -/
def reserve (additional : ℕ) : Except Halt ByteVec :=
  self.buf_reserve t alloc self.len additional

/-- `ptr::copy_nonoverlapping` from `bytes` to the index `i`. -/
def write (i : ℕ) (bytes : List UInt8) : Except Halt ByteVec :=
  if i + bytes.length ≤ self.capacity then
    .ok { self with
      cells := self.cells.take i ++ bytes.map some ++ self.cells.drop (i + bytes.length) }
  else .error .fault

/-- `Vec::set_len` -/
def set_len (n : ℕ) : Except Halt ByteVec :=
  if n ≤ self.capacity then .ok { self with len := n } else .error .fault

/-- `Vec::extend_from_slice` -/
def extend_from_slice (bytes : List UInt8) : Except Halt ByteVec := do
  let self ← self.reserve t alloc bytes.length
  let self ← self.write self.len bytes
  self.set_len (self.len + bytes.length)

/-- The first `n` cells, which have to be written. -/
def initialised : List (Option UInt8) → ℕ → Option (List UInt8)
  | _, 0 => some []
  | some b :: cells, n + 1 => (initialised cells n).map (b :: ·)
  | _, _ => none

/-- The elements. -/
def as_slice : Except Halt (List UInt8) :=
  match initialised self.cells self.len with
  | some bytes => .ok bytes
  | none => .error .fault

/-- The allocation begins with the bytes `w`, and `n` cells are behind them. -/
def Starts (w : List UInt8) (n : ℕ) : Prop :=
  ∃ r, self.cells = w.map some ++ r ∧ r.length = n

/-- Such a request succeeds. -/
def Granted (capacity : ℕ) : Prop :=
  capacity = 0 ∨ capacity ≤ t.isizeMax ∧ alloc capacity = true

variable {t alloc self} {w bytes : List UInt8} {n : ℕ}

theorem allocate_ok (h : Granted t alloc n) : allocate t alloc n = .ok () := by
  rw [allocate]
  rcases h with rfl | ⟨hle, halloc⟩
  · rfl
  · rw [if_neg (not_lt.mpr hle), if_pos halloc]
    split
    · rfl
    · rfl

theorem allocate_error (h : ¬ Granted t alloc n) :
    ∃ e, allocate t alloc n = .error e ∧ e ≠ .fault := by
  rw [allocate, if_neg fun hzero => h (.inl hzero)]
  split
  · exact ⟨_, rfl, nofun⟩
  · next hle =>
    rw [if_neg fun halloc => h (.inr ⟨not_lt.mp hle, halloc⟩)]
    exact ⟨_, rfl, nofun⟩

theorem Starts.capacity (h : self.Starts w n) : self.capacity = w.length + n := by
  obtain ⟨r, hcells, rfl⟩ := h
  rw [ByteVec.capacity, hcells, length_append, length_map]

theorem initialised_append (w : List UInt8) (r : List (Option UInt8)) :
    initialised (w.map some ++ r) w.length = some w := by
  induction w with
  | nil => rw [length_nil, initialised]
  | cons b w ih =>
    rw [map_cons, cons_append, length_cons, initialised, ih]
    rfl

theorem Starts.as_slice (h : self.Starts w n) (hlen : self.len = w.length) :
    self.as_slice = .ok w := by
  obtain ⟨r, hcells, -⟩ := h
  rw [ByteVec.as_slice, hcells, hlen, initialised_append]

/-- Writing behind what is there. -/
theorem Starts.write (h : self.Starts w n) (hle : bytes.length ≤ n) :
    ∃ self', self.write w.length bytes = .ok self' ∧ self'.len = self.len ∧
      self'.Starts (w ++ bytes) (n - bytes.length) := by
  have hcap := h.capacity
  obtain ⟨r, hcells, rfl⟩ := h
  refine ⟨_, if_pos (by omega), rfl, r.drop bytes.length, ?_, length_drop⟩
  have hdrop : (w.map some ++ r).drop (w.length + bytes.length) = r.drop bytes.length := by
    rw [drop_append, length_map, drop_eq_nil_of_le (by rw [length_map]; omega),
      nil_append, Nat.add_sub_cancel_left]
  have htake : (w.map some ++ r).take w.length = w.map some :=
    take_left' (length_map some)
  rw [hcells, hdrop, htake, map_append]

theorem Starts.set_len (h : self.Starts w n) :
    self.set_len w.length = .ok { self with len := w.length } :=
  if_pos (by rw [h.capacity]; exact le_add_right _ _)

theorem with_capacity_ok (h : Granted t alloc n) : ∃ self, with_capacity t alloc n = .ok self ∧
    self.len = 0 ∧ self.Starts [] n := by
  refine ⟨⟨replicate n none, 0⟩, ?_, rfl, _, rfl, length_replicate⟩
  rw [with_capacity, allocate_ok h]
  rfl

theorem with_capacity_error (h : ¬ Granted t alloc n) :
    ∃ e, with_capacity t alloc n = .error e ∧ e ≠ .fault := by
  obtain ⟨e, heq, hne⟩ := allocate_error h
  refine ⟨e, ?_, hne⟩
  rw [with_capacity, heq]
  rfl

/-! ## Reserving -/

variable {len additional : ℕ}

/-- There is room. -/
theorem reserve_of_le (h : len + additional ≤ self.capacity) :
    self.buf_reserve t alloc len additional = .ok self :=
  if_neg (by omega)

theorem Starts.enlarge (h : self.Starts w n) (k : ℕ) : (self.enlarge k).Starts w (n + k) := by
  obtain ⟨r, hcells, rfl⟩ := h
  refine ⟨r ++ replicate k none, ?_, ?_⟩
  · rw [ByteVec.enlarge, hcells, append_assoc]
  · rw [length_append, length_replicate]

theorem Starts.reserve_ok (h : self.Starts w n) (hlen : self.len = w.length)
    (hgranted : n < additional → Granted t alloc (self.grown self.len additional)) :
    ∃ self' n', self.reserve t alloc additional = .ok self' ∧ self'.len = w.length ∧
      self'.Starts w n' ∧ additional ≤ n' := by
  have hcap := h.capacity
  by_cases hle : additional ≤ n
  · exact ⟨self, n, reserve_of_le (by omega), hlen, h, hle⟩
  · have hgrown : self.len + additional ≤ self.grown self.len additional :=
      le_trans (le_max_right _ _) (le_max_right _ _)
    refine ⟨self.enlarge (self.grown self.len additional - self.capacity), _, ?_, hlen,
      h.enlarge _, ?_⟩
    · rw [reserve, buf_reserve, if_pos (by omega), allocate_ok (hgranted (Nat.lt_of_not_le hle))]
      rfl
    · omega

theorem reserve_error (t : Target) (alloc : ℕ → Bool) (hlt : self.capacity - len < additional)
    (h : ¬ Granted t alloc (self.grown len additional)) :
    ∃ e, self.buf_reserve t alloc len additional = .error e ∧ e ≠ .fault := by
  obtain ⟨e, heq, hne⟩ := allocate_error h
  refine ⟨e, ?_, hne⟩
  rw [buf_reserve, if_pos hlt, heq]
  rfl

/-- Without more memory. -/
theorem Starts.extend_of_le (t : Target) (alloc : ℕ → Bool) (h : self.Starts w n)
    (hlen : self.len = w.length) (hle : bytes.length ≤ n) :
    ∃ self', self.extend_from_slice t alloc bytes = .ok self' ∧
      self'.len = (w ++ bytes).length ∧ self'.Starts (w ++ bytes) (n - bytes.length) := by
  have hcap := h.capacity
  obtain ⟨v, hwrite, hlen', hstarts⟩ := h.write hle
  refine ⟨{ v with len := (w ++ bytes).length }, ?_, rfl, hstarts⟩
  have hroom : self.len + bytes.length ≤ self.capacity := by omega
  rw [extend_from_slice, reserve, reserve_of_le hroom, halt_bind_ok, hlen, hwrite, halt_bind_ok,
    hlen',
    hlen, ← length_append, hstarts.set_len]

theorem Starts.extend_ok (h : self.Starts w n) (hlen : self.len = w.length)
    (hgranted : n < bytes.length → Granted t alloc (self.grown self.len bytes.length)) :
    ∃ self' n', self.extend_from_slice t alloc bytes = .ok self' ∧
      self'.len = w.length + bytes.length ∧ self'.Starts (w ++ bytes) n' := by
  obtain ⟨v, n1, hreserve, hlen', hstarts, hle⟩ := h.reserve_ok hlen hgranted
  obtain ⟨v', hwrite, hlen'', hstarts'⟩ := hstarts.write hle
  have hset := hstarts'.set_len
  rw [length_append] at hset
  refine ⟨{ v' with len := w.length + bytes.length }, _, ?_, rfl, hstarts'⟩
  rw [extend_from_slice, hreserve, halt_bind_ok, hlen', hwrite, halt_bind_ok, hlen'', hlen', hset]

end ByteVec

end RustStd
