import RustStd.Foundations.Exec
import RustStd.Foundations.Rounding
import RustStd.Foundations.Word

/-!
# Layouts of memory blocks

The size and the alignment of a block, after `core/src/alloc/layout.rs`. The arithmetic that the
source leaves unchecked is a fault when it wraps around, and so is a layout or an alignment built
against the invariant of its type. Every operation on layouts returns, with the size that the
mathematics gives or with an error where that size is too large (`Layout.exact`).
-/

namespace RustStd.Alloc

variable {t : Target}

/-! ## Arithmetic on `usize` -/

def unchecked_add (t : Target) (a b : ℕ) : Exec ℕ :=
  if a + b < t.usizeCard then .ok (a + b) else .error .fault

def unchecked_sub (a b : ℕ) : Exec ℕ := if b ≤ a then .ok (a - b) else .error .fault

def unchecked_mul (t : Target) (a b : ℕ) : Exec ℕ :=
  if a * b < t.usizeCard then .ok (a * b) else .error .fault

def checked_add (t : Target) (a b : ℕ) : Option ℕ :=
  if a + b < t.usizeCard then some (a + b) else none

def checked_mul (t : Target) (a b : ℕ) : Option ℕ :=
  if a * b < t.usizeCard then some (a * b) else none

/-- `!a` -/
def usize_not (t : Target) (a : ℕ) : ℕ := t.usizeMax - a

/-! ## Alignments and layouts -/

/-- A power of two that is a `usize`. -/
structure Alignment (t : Target) where
  value : ℕ
  pow : ∃ k < 8 * t.usizeBytes, value = 2 ^ k
  deriving DecidableEq

def Alignment.new (t : Target) (align : ℕ) : Option (Alignment t) :=
  if h : ∃ k < 8 * t.usizeBytes, align = 2 ^ k then some ⟨align, h⟩ else none

/-- The transmutation of a `usize` into an alignment. -/
def Alignment.transmute (t : Target) (align : ℕ) : Exec (Alignment t) :=
  if h : ∃ k < 8 * t.usizeBytes, align = 2 ^ k then .ok ⟨align, h⟩ else .error .fault

def Alignment.max (a b : Alignment t) : Alignment t := if a.value ≤ b.value then b else a

/-- The size rounded up to the alignment does not exceed `isize::MAX`. -/
structure Layout (t : Target) where
  size : ℕ
  align : Alignment t
  valid : roundUp size align.value ≤ t.isizeMax
  deriving DecidableEq

open Layout

inductive LayoutError
  | mk
  deriving DecidableEq, Repr

def max_size_for_align (align : Alignment t) : Exec ℕ := unchecked_sub (t.isizeMax + 1) align.value

/-- `Layout { size, align }` -/
def Layout.of_parts (size : ℕ) (align : Alignment t) : Exec (Layout t) :=
  if h : roundUp size align.value ≤ t.isizeMax then .ok ⟨size, align, h⟩ else .error .fault

def Layout.from_size_alignment (size : ℕ) (align : Alignment t) :
    Exec (Except LayoutError (Layout t)) := do
  let max ← max_size_for_align align
  if size > max then return .error .mk
  return .ok (← Layout.of_parts size align)

def Layout.from_size_align_unchecked (t : Target) (size align : ℕ) : Exec (Layout t) := do
  let align ← Alignment.transmute t align
  Layout.of_parts size align

def Layout.align_to (self : Layout t) (align : ℕ) : Exec (Except LayoutError (Layout t)) :=
  match Alignment.new t align with
  | some align => Layout.from_size_alignment self.size (self.align.max align)
  | none => .ok (.error .mk)

def Layout.size_rounded_up_to_custom_align (self : Layout t) (align : Alignment t) : Exec ℕ := do
  let align_m1 ← unchecked_sub align.value 1
  let size ← unchecked_add t self.size align_m1
  return size &&& usize_not t align_m1

def Layout.padding_needed_for (self : Layout t) (align : ℕ) : Exec ℕ :=
  match Alignment.new t align with
  | none => .ok t.usizeMax
  | some align => do
    let len_rounded_up ← self.size_rounded_up_to_custom_align align
    unchecked_sub len_rounded_up self.size

def Layout.pad_to_align (self : Layout t) : Exec (Layout t) := do
  let new_size ← self.size_rounded_up_to_custom_align self.align
  Layout.from_size_align_unchecked t new_size self.align.value

def Layout.repeat_packed (self : Layout t) (n : ℕ) : Exec (Except LayoutError (Layout t)) :=
  match checked_mul t self.size n with
  | some size => Layout.from_size_alignment size self.align
  | none => .ok (.error .mk)

def Layout.repeat (self : Layout t) (n : ℕ) : Exec (Except LayoutError (Layout t × ℕ)) := do
  let padded ← self.pad_to_align
  match ← padded.repeat_packed n with
  | .ok repeated => return .ok (repeated, padded.size)
  | .error _ => return .error .mk

def Layout.extend (self : Layout t) (next : Layout t) :
    Exec (Except LayoutError (Layout t × ℕ)) := do
  let new_align := self.align.max next.align
  let offset ← self.size_rounded_up_to_custom_align next.align
  let new_size ← unchecked_add t offset next.size
  match ← Layout.from_size_alignment new_size new_align with
  | .ok layout => return .ok (layout, offset)
  | .error _ => return .error .mk

def Layout.extend_packed (self : Layout t) (next : Layout t) :
    Exec (Except LayoutError (Layout t)) := do
  let new_size ← unchecked_add t self.size next.size
  Layout.from_size_alignment new_size self.align

/-- `Layout::array` at the layout of the element. -/
def Layout.array (self : Layout t) (n : ℕ) : Exec (Except LayoutError (Layout t)) := do
  let max ← max_size_for_align self.align
  if self.size ≠ 0 ∧ n > max / self.size then return .error .mk
  let array_size ← unchecked_mul t self.size n
  return .ok (← Layout.from_size_align_unchecked t array_size self.align.value)

/-! ## Alignments -/

theorem Alignment.pos (align : Alignment t) : 0 < align.value := by
  obtain ⟨k, -, hk⟩ := align.pow
  rw [hk]
  exact Nat.two_pow_pos k

theorem isizeMax_succ (t : Target) : t.isizeMax + 1 = 2 ^ (8 * t.usizeBytes - 1) := by
  have hpos := t.usizeBytes_pos
  have hcard : t.usizeCard = 2 * 2 ^ (8 * t.usizeBytes - 1) := by
    rw [Target.usizeCard, ← pow_succ', Nat.sub_add_cancel (by lia)]
  have := t.two_mul_isizeMax
  lia

/-- The largest alignment is `isize::MAX + 1`, a multiple of every other. -/
theorem Alignment.dvd (align : Alignment t) : align.value ∣ t.isizeMax + 1 := by
  obtain ⟨k, hlt, hk⟩ := align.pow
  rw [hk, isizeMax_succ]
  exact pow_dvd_pow 2 (by lia)

theorem Alignment.le (align : Alignment t) : align.value ≤ t.isizeMax + 1 :=
  Nat.le_of_dvd (Nat.succ_pos _) align.dvd

theorem Alignment.transmute_value (align : Alignment t) :
    Alignment.transmute t align.value = .ok align := dif_pos align.pow

/-! ## Exact sizes -/

/-- The bound that the source checks is the invariant of the type. -/
theorem roundUp_le_isizeMax_iff (size : ℕ) (align : Alignment t) :
    roundUp size align.value ≤ t.isizeMax ↔ size ≤ t.isizeMax + 1 - align.value := by
  rw [← roundUp_lt_iff align.pos align.dvd (Nat.succ_pos _), Nat.lt_succ_iff]

theorem max_size_for_align_eq (align : Alignment t) :
    max_size_for_align align = .ok (t.isizeMax + 1 - align.value) := if_pos align.le

variable {align : Alignment t} {size : ℕ}

theorem Layout.of_parts_eq
    (h : roundUp size align.value ≤ t.isizeMax) :
    of_parts size align = .ok ⟨size, align, h⟩ := dif_pos h

theorem Layout.size_le (l : Layout t) : l.size ≤ t.isizeMax :=
  (le_roundUp l.align.pos _).trans l.valid

theorem isizeMax_lt_usizeCard (t : Target) : t.isizeMax < t.usizeCard := by
  have := t.two_mul_isizeMax
  lia

/-- **A layout of the size and alignment that were asked for**, or an error where the size, rounded
up, exceeds `isize::MAX`. -/
def Describes (size : ℕ) (align : Alignment t) : Except LayoutError (Layout t) → Prop
  | .ok l => l.size = size ∧ l.align = align
  | .error _ => t.isizeMax < roundUp size align.value

theorem from_size_alignment_spec (size : ℕ) (align : Alignment t) :
    ∃ r, from_size_alignment size align = .ok r ∧ Describes size align r := by
  rw [from_size_alignment, max_size_for_align_eq, Exec.bind_ok]
  by_cases h : size ≤ t.isizeMax + 1 - align.value
  · have hvalid := (roundUp_le_isizeMax_iff size align).mpr h
    refine ⟨.ok ⟨size, align, hvalid⟩, ?_, rfl, rfl⟩
    rw [if_neg (Nat.not_lt.mpr h), of_parts_eq hvalid]
    rfl
  · refine ⟨.error .mk, if_pos (Nat.lt_of_not_le h), ?_⟩
    rw [Describes, ← not_le, roundUp_le_isizeMax_iff]
    exact h

theorem from_size_align_unchecked_eq
    (h : roundUp size align.value ≤ t.isizeMax) :
    from_size_align_unchecked t size align.value = .ok ⟨size, align, h⟩ := by
  rw [from_size_align_unchecked, Alignment.transmute_value, Exec.bind_ok, of_parts_eq h]

/-- A layout is built from its own size and alignment. -/
theorem from_size_align_unchecked_layout {l : Layout t}
    (hsize : l.size = size) (halign : l.align = align) :
    from_size_align_unchecked t size align.value = .ok l := by
  subst hsize halign
  exact from_size_align_unchecked_eq l.valid

variable (self : Layout t)
include self

/-- **Rounding up** with a mask gives the next multiple. -/
theorem size_rounded_up_eq (align : Alignment t) :
    self.size_rounded_up_to_custom_align align = .ok (roundUp self.size align.value) := by
  have hpos := align.pos
  have hle := align.le
  have hsize := self.size_le
  have hcard := t.two_mul_isizeMax
  have hadd : self.size + (align.value - 1) < t.usizeCard := by lia
  rw [size_rounded_up_to_custom_align, unchecked_sub, if_pos (by lia), Exec.bind_ok,
    unchecked_add, if_pos hadd, Exec.bind_ok, usize_not, Target.usizeMax]
  obtain ⟨k, -, hk⟩ := align.pow
  rw [hk] at hadd ⊢
  exact congrArg Except.ok (and_mask_eq hadd)

theorem roundUp_size_le (align : Alignment t) : roundUp self.size align.value ≤ t.isizeMax + 1 :=
  roundUp_le align.pos (by have := self.size_le; lia) align.dvd

theorem padding_needed_for_eq (align : ℕ) :
    self.padding_needed_for align = .ok (match Alignment.new t align with
      | none => t.usizeMax
      | some align => roundUp self.size align.value - self.size) := by
  rw [padding_needed_for]
  cases Alignment.new t align with
  | none => rfl
  | some align =>
    dsimp only
    rw [size_rounded_up_eq, Exec.bind_ok, unchecked_sub, if_pos (le_roundUp align.pos _)]

/-- The size of an element with its padding. -/
def Layout.stride (self : Layout t) : ℕ := roundUp self.size self.align.value

theorem pad_to_align_eq : ∃ h, self.pad_to_align = .ok ⟨self.stride, self.align, h⟩ := by
  have hvalid : roundUp self.stride self.align.value ≤ t.isizeMax := by
    rw [stride, roundUp_roundUp self.align.pos]
    exact self.valid
  refine ⟨hvalid, ?_⟩
  rw [pad_to_align, size_rounded_up_eq, Exec.bind_ok]
  exact from_size_align_unchecked_eq hvalid

theorem repeat_packed_spec (n : ℕ) :
    ∃ r, self.repeat_packed n = .ok r ∧ Describes (self.size * n) self.align r := by
  rw [repeat_packed, checked_mul]
  by_cases h : self.size * n < t.usizeCard
  · rw [if_pos h]
    exact from_size_alignment_spec _ _
  · rw [if_neg h]
    refine ⟨.error .mk, rfl, ?_⟩
    have := le_roundUp self.align.pos (self.size * n)
    have := isizeMax_lt_usizeCard t
    rw [Describes]
    lia

/-- A result that comes with an offset or a stride. -/
def DescribesAt (size offset : ℕ) (align : Alignment t) : Except LayoutError (Layout t × ℕ) → Prop
  | .ok (l, o) => Describes size align (.ok l) ∧ o = offset
  | .error e => Describes size align (.error e)

theorem repeat_spec (n : ℕ) :
    ∃ r, self.repeat n = .ok r ∧ DescribesAt (self.stride * n) self.stride self.align r := by
  obtain ⟨hvalid, hpad⟩ := pad_to_align_eq self
  obtain ⟨r, hr, hdescribes⟩ := repeat_packed_spec ⟨self.stride, self.align, hvalid⟩ n
  rw [Layout.repeat, hpad, Exec.bind_ok, hr, Exec.bind_ok]
  cases r with
  | ok l => exact ⟨_, rfl, hdescribes, rfl⟩
  | error e => exact ⟨_, rfl, hdescribes⟩

omit self

theorem extend_spec (self next : Layout t) : ∃ r, self.extend next = .ok r ∧
      DescribesAt (roundUp self.size next.align.value + next.size)
        (roundUp self.size next.align.value) (self.align.max next.align) r := by
  have hround := roundUp_size_le self next.align
  have hnext := next.size_le
  have hcard := t.two_mul_isizeMax
  obtain ⟨r, hr, hdescribes⟩ := from_size_alignment_spec
    (roundUp self.size next.align.value + next.size) (self.align.max next.align)
  rw [extend, size_rounded_up_eq, Exec.bind_ok, unchecked_add, if_pos (by lia),
    Exec.bind_ok, hr, Exec.bind_ok]
  cases r with
  | ok l => exact ⟨_, rfl, hdescribes, rfl⟩
  | error e => exact ⟨_, rfl, hdescribes⟩

theorem extend_packed_spec (self next : Layout t) :
    ∃ r, self.extend_packed next = .ok r ∧ Describes (self.size + next.size) self.align r := by
  have hself := self.size_le
  have hnext := next.size_le
  have hcard := t.two_mul_isizeMax
  rw [extend_packed, unchecked_add, if_pos (by lia), Exec.bind_ok]
  exact from_size_alignment_spec _ _

/-- The threshold that `array` compares with is the bound on the product. -/
theorem array_spec (self : Layout t) (n : ℕ) :
    ∃ r, self.array n = .ok r ∧ Describes (self.size * n) self.align r := by
  rw [array, max_size_for_align_eq, Exec.bind_ok]
  by_cases h : self.size ≠ 0 ∧ n > (t.isizeMax + 1 - self.align.value) / self.size
  · refine ⟨.error .mk, if_pos h, ?_⟩
    have hlt := (Nat.div_lt_iff_lt_mul (Nat.pos_of_ne_zero h.1)).mp h.2
    rw [Nat.mul_comm] at hlt
    rw [Describes, ← not_le, roundUp_le_isizeMax_iff]
    lia
  have hle : self.size * n ≤ t.isizeMax + 1 - self.align.value := by
    by_cases hzero : self.size = 0
    · simp [hzero]
    · have hn : n ≤ (t.isizeMax + 1 - self.align.value) / self.size := by
        by_contra hlt
        exact h ⟨hzero, Nat.lt_of_not_le hlt⟩
      rw [Nat.mul_comm]
      exact (Nat.le_div_iff_mul_le (Nat.pos_of_ne_zero hzero)).mp hn
  have hcard := t.two_mul_isizeMax
  have hvalid := (roundUp_le_isizeMax_iff _ self.align).mpr hle
  refine ⟨.ok ⟨self.size * n, self.align, hvalid⟩, ?_, rfl, rfl⟩
  rw [if_neg h, unchecked_mul, if_pos (by lia), Exec.bind_ok,
    from_size_align_unchecked_eq hvalid]
  rfl

theorem align_to_spec (self : Layout t) (align : ℕ) : ∃ r, self.align_to align = .ok r ∧
      match Alignment.new t align with
      | some align => Describes self.size (self.align.max align) r
      | none => r = .error .mk := by
  rw [align_to]
  cases Alignment.new t align with
  | none => exact ⟨_, rfl, rfl⟩
  | some align => exact from_size_alignment_spec _ _

/-- Every operation returns: no computation of a size wraps around, and no layout breaks the
invariant of its type. The sizes are those of the mathematics. -/
structure Layout.Exact (self : Layout t) : Prop where
  rounded : ∀ align : Alignment t,
    self.size_rounded_up_to_custom_align align = .ok (roundUp self.size align.value)
  padding : ∀ align, self.padding_needed_for align = .ok (match Alignment.new t align with
    | none => t.usizeMax
    | some align => roundUp self.size align.value - self.size)
  padded : ∃ h, self.pad_to_align = .ok ⟨self.stride, self.align, h⟩
  aligned : ∀ align, ∃ r, self.align_to align = .ok r ∧ match Alignment.new t align with
    | some align => Describes self.size (self.align.max align) r
    | none => r = .error .mk
  repeated : ∀ n, ∃ r, self.repeat n = .ok r ∧
    DescribesAt (self.stride * n) self.stride self.align r
  packed : ∀ n, ∃ r, self.repeat_packed n = .ok r ∧ Describes (self.size * n) self.align r
  arrayed : ∀ n, ∃ r, self.array n = .ok r ∧ Describes (self.size * n) self.align r
  extended : ∀ next : Layout t, ∃ r, self.extend next = .ok r ∧
    DescribesAt (roundUp self.size next.align.value + next.size)
      (roundUp self.size next.align.value) (self.align.max next.align) r
  extended_packed : ∀ next : Layout t, ∃ r, self.extend_packed next = .ok r ∧
    Describes (self.size + next.size) self.align r

/-- **The arithmetic of layouts** is exact. -/
theorem Layout.exact (self : Layout t) : self.Exact where
  rounded := size_rounded_up_eq self
  padding := padding_needed_for_eq self
  padded := pad_to_align_eq self
  aligned := align_to_spec self
  repeated := repeat_spec self
  packed := repeat_packed_spec self
  arrayed := array_spec self
  extended := extend_spec self
  extended_packed := extend_packed_spec self

end RustStd.Alloc
