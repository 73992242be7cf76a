import RustStd.Alloc.Owned
import RustStd.Foundations.Trace

/-!
# Runs of vectors

Any sequence of calls on a raw vector, and on a vector with its length (`alloc/src/vec/mod.rs`),
from any constructor, over any allocator. No call hands the allocator a block or a layout that is
not the current one, and no size wraps around; a call that returns has made the room it promises,
and one that fails has changed nothing (`runs_keep_allocation`).
-/

namespace RustStd.Alloc

open Nat

variable {t : Target} {σ : Type}

/-- `usize` -/
abbrev Usize (t : Target) := Fin t.usizeCard

/-- An abort ends the program. -/
def Outcome.stops : Outcome t → Bool
  | .aborted _ => true
  | _ => false

/-! ## Constructors -/

inductive Construction (t : Target)
  | new_in
  | with_capacity_in (capacity : Usize t)
  | with_capacity_zeroed_in (capacity : Usize t)
  | try_with_capacity_in (capacity : Usize t)

/-- The capacity that a constructor is asked for. -/
def Construction.capacity : Construction t → ℕ
  | .new_in => 0
  | .with_capacity_in capacity => capacity
  | .with_capacity_zeroed_in capacity => capacity
  | .try_with_capacity_in capacity => capacity

/-- The constructors of `RawVecInner`, with a fresh allocator. -/
def Construction.run (A : Allocator t σ) (alloc : σ) (elem_layout : Layout t) :
    Construction t → Exec (Except (Outcome t) (RawVecInner t) × Memory t σ)
  | .new_in => .ok (.ok (.new_in elem_layout.align), ⟨alloc, []⟩)
  | .with_capacity_in capacity => do
    match ← try_allocate_in A ⟨alloc, []⟩ capacity false elem_layout with
    | (.ok this, memory) =>
      assume (! this.needs_to_grow 0 capacity elem_layout)
      return (.ok this, memory)
    | (.error e, memory) => return (.error (Outcome.failed e).handle_error, memory)
  | .with_capacity_zeroed_in capacity => do
    match ← try_allocate_in A ⟨alloc, []⟩ capacity true elem_layout with
    | (.ok this, memory) => return (.ok this, memory)
    | (.error e, memory) => return (.error (Outcome.failed e).handle_error, memory)
  | .try_with_capacity_in capacity => do
    match ← try_allocate_in A ⟨alloc, []⟩ capacity false elem_layout with
    | (.ok this, memory) => return (.ok this, memory)
    | (.error e, memory) => return (.error (.failed e), memory)

/-! ## Calls on a raw vector -/

inductive RawOp (t : Target)
  | reserve (len additional : Usize t)
  | reserve_exact (len additional : Usize t)
  | try_reserve (len additional : Usize t)
  | try_reserve_exact (len additional : Usize t)
  | grow_one
  | shrink_to_fit (cap : Usize t)

def RawOp.step (A : Allocator t σ) (elem_layout : Layout t) (op : RawOp t) (s : State t σ) :
    Exec (Outcome t × State t σ) :=
  match op with
  | .reserve len additional => s.reserve A len additional elem_layout
  | .reserve_exact len additional => s.reserve_exact A len additional elem_layout
  | .try_reserve len additional => s.try_reserve A len additional elem_layout
  | .try_reserve_exact len additional => s.try_reserve_exact A len additional elem_layout
  | .grow_one => s.grow_one A elem_layout
  | .shrink_to_fit cap => s.shrink_to_fit A cap elem_layout

/-- What a call promises when it returns. -/
def RawOp.Promise (elem_size : ℕ) (s s' : RawVecInner t) : RawOp t → Prop
  | .reserve len additional | .reserve_exact len additional | .try_reserve len additional
  | .try_reserve_exact len additional =>
    len.val ≤ s.capacity elem_size → len.val + additional.val ≤ s'.capacity elem_size
  | .grow_one => s.capacity elem_size + 1 ≤ s'.capacity elem_size
  | .shrink_to_fit cap =>
    cap.val ≤ s'.capacity elem_size ∧ (elem_size ≠ 0 → s'.capacity elem_size = cap)

/-- **A sound vector**: its block has the layout of an array of its capacity, and dropping it gives
the block back. -/
structure Sound (A : Allocator t σ) (elem : ElemLayout t) (s : State t σ) : Prop where
  owns : Owns elem s
  laid_out : ∀ b ∈ s.memory.blocks, b.ptr = s.vec.ptr ∧
    elem.array s.vec.cap = .ok (.ok b.layout) ∧ b.layout.size = s.vec.cap * elem.stride ∧
    b.layout.size ≤ t.isizeMax
  dropped : ∃ memory, s.deallocate A elem.toLayout = .ok memory ∧ memory.blocks = []

/-- A good step: the vector stays sound, a call that returns keeps its promise, and one that does
not changes nothing. -/
def RawGood (A : Allocator t σ) (elem : ElemLayout t)
    (st : Traced (State t σ) (RawOp t) (Outcome t)) : Prop :=
  Sound A elem st.after ∧
    (st.answer = .returned → st.op.Promise elem.size st.before.vec st.after.vec) ∧
    (st.answer ≠ .returned → Unchanged st.before st.after)

/-! ## Calls on a vector -/

/-- A vector: its buffer and the number of its elements. -/
structure Vec (t : Target) (σ : Type) where
  buf : State t σ
  len : ℕ

open Vec

inductive VecOp (t : Target)
  | reserve (additional : Usize t)
  | reserve_exact (additional : Usize t)
  | try_reserve (additional : Usize t)
  | try_reserve_exact (additional : Usize t)
  | push
  | truncate (len : Usize t)
  | shrink_to_fit
  | shrink_to (min_capacity : Usize t)

namespace Vec

variable (A : Allocator t σ) (elem_layout : Layout t) (self : Vec t σ)

def capacity : ℕ := self.buf.vec.capacity elem_layout.size

/-- A call on the buffer. -/
def on_buf (call : Exec (Outcome t × State t σ)) : Exec (Outcome t × Vec t σ) := do
  let (o, buf) ← call
  return (o, ⟨buf, self.len⟩)

/-- The write at the end of `Vec::push_mut`. -/
def push_within_capacity : Exec (Outcome t × Vec t σ) := do
  assume (self.len < self.capacity elem_layout)
  return (.returned, ⟨self.buf, ← unchecked_add t self.len 1⟩)

def push_mut : Exec (Outcome t × Vec t σ) := do
  if self.len = self.capacity elem_layout then
    match ← self.on_buf (self.buf.grow_one A elem_layout) with
    | (.returned, self) => self.push_within_capacity elem_layout
    | (o, self) => return (o, self)
  else self.push_within_capacity elem_layout

def truncate (len : ℕ) : Vec t σ := if len > self.len then self else ⟨self.buf, len⟩

def shrink_to_fit : Exec (Outcome t × Vec t σ) :=
  if self.capacity elem_layout > self.len then
    self.on_buf (self.buf.shrink_to_fit A self.len elem_layout)
  else .ok (.returned, self)

def shrink_to (min_capacity : ℕ) : Exec (Outcome t × Vec t σ) :=
  if self.capacity elem_layout > min_capacity then
    self.on_buf (self.buf.shrink_to_fit A (max self.len min_capacity) elem_layout)
  else .ok (.returned, self)

end Vec

def VecOp.step (A : Allocator t σ) (elem_layout : Layout t) (op : VecOp t) (v : Vec t σ) :
    Exec (Outcome t × Vec t σ) :=
  match op with
  | .reserve additional => v.on_buf (v.buf.reserve A v.len additional elem_layout)
  | .reserve_exact additional => v.on_buf (v.buf.reserve_exact A v.len additional elem_layout)
  | .try_reserve additional => v.on_buf (v.buf.try_reserve A v.len additional elem_layout)
  | .try_reserve_exact additional =>
    v.on_buf (v.buf.try_reserve_exact A v.len additional elem_layout)
  | .push => v.push_mut A elem_layout
  | .truncate len => .ok (.returned, v.truncate len)
  | .shrink_to_fit => v.shrink_to_fit A elem_layout
  | .shrink_to min_capacity => v.shrink_to A elem_layout min_capacity

/-- What a call promises when it returns. -/
def VecOp.Promise (elem_layout : Layout t) (v v' : Vec t σ) : VecOp t → Prop
  | .reserve additional | .reserve_exact additional | .try_reserve additional
  | .try_reserve_exact additional =>
    v'.len = v.len ∧ v.len + additional.val ≤ v'.capacity elem_layout
  | .push => v'.len = v.len + 1
  | .truncate len => v'.len = min v.len len ∧ Unchanged v.buf v'.buf
  | .shrink_to_fit =>
    v'.len = v.len ∧ (elem_layout.size ≠ 0 → v'.capacity elem_layout = v.len)
  | .shrink_to min_capacity =>
    v'.len = v.len ∧ (elem_layout.size ≠ 0 →
      v'.capacity elem_layout = max v.len (min min_capacity (v.capacity elem_layout)))

/-- A good step: the vector stays sound with room for its elements, a call that returns keeps its
promise, and one that does not changes nothing. -/
def VecGood (A : Allocator t σ) (elem : ElemLayout t)
    (st : Traced (Vec t σ) (VecOp t) (Outcome t)) : Prop :=
  Sound A elem st.after.buf ∧ st.after.len ≤ st.after.capacity elem.toLayout ∧
    (st.answer = .returned → st.op.Promise elem.toLayout st.before st.after) ∧
    (st.answer ≠ .returned → Unchanged st.before.buf st.after.buf ∧ st.after.len = st.before.len)

/-! ## Every call is good -/

variable (A : Allocator t σ) {elem : ElemLayout t} {s : State t σ}

theorem Owns.sound (h : Owns elem s) : Sound A elem s where
  owns := h
  laid_out := by
    intro b hb
    by_cases hempty : elem.size = 0 ∨ s.vec.cap = 0
    · rw [h.nil hempty] at hb
      cases hb
    · rw [Owns, if_neg hempty] at h
      obtain ⟨b', hblocks, hptr, hsize, halign⟩ := h
      rw [hblocks, List.mem_singleton] at hb
      subst hb
      refine ⟨hptr, array_eq elem hsize halign, ?_, b.layout.size_le⟩
      rw [hsize, elem.stride_eq, mul_comm]
  dropped := h.deallocate A

/-- What the vector does with the answer for its first block. -/
theorem answer_spec {alloc : σ} {capacity : Usize t} {layout : Layout t}
    (r : Option (Slice layout.size) × σ) (hsize : layout.size = elem.size * capacity.val)
    (halign : layout.align = elem.align) (hpos : elem.size ≠ 0) (hne : capacity.val ≠ 0) :
    ∃ q memory, (match Memory.answer ⟨alloc, []⟩ [] r with
        | (some ptr, memory) => return (.ok (← RawVecInner.of_parts t ptr capacity), memory)
        | (none, memory) => return (.error (.AllocError layout), memory) :
        Exec (Except (TryReserveError t) (RawVecInner t) × Memory t σ)) = .ok (q, memory) ∧
      match q with
      | .ok vec => Owns elem ⟨vec, memory⟩ ∧ capacity ≤ vec.capacity elem.size
      | .error _ => memory.blocks = [] := by
  rcases answer_cases ⟨alloc, []⟩ r hsize halign hpos hne with
    ⟨ptr, memory, hle, hrun, howns⟩ | ⟨memory, hrun, hsame⟩
  · refine ⟨.ok ⟨ptr, capacity, hle⟩, memory, ?_, howns, ?_⟩
    · rw [hrun]
      dsimp only
      rw [RawVecInner.of_parts, dif_pos hle]
      rfl
    · rw [RawVecInner.capacity, if_neg hpos]
  · exact ⟨.error (.AllocError layout), memory, by rw [hrun]; rfl, hsame⟩

variable (elem) in
theorem try_allocate_in_spec (alloc : σ) (capacity : Usize t) (zeroed : Bool) :
    ∃ r memory, try_allocate_in A ⟨alloc, []⟩ capacity zeroed elem.toLayout = .ok (r, memory) ∧
      match r with
      | .ok vec => Owns elem ⟨vec, memory⟩ ∧ capacity ≤ vec.capacity elem.size
      | .error _ => memory.blocks = [] := by
  rw [try_allocate_in]
  rcases layout_array_spec elem capacity with ⟨layout, hlayout, hsize, halign⟩ | ⟨hlayout, -⟩
  · rw [hlayout, Exec.bind_ok]
    dsimp only
    by_cases hzero : layout.size = 0
    · refine ⟨.ok (.new_in elem.align), ⟨alloc, []⟩, if_pos hzero, owns_of_nil (.inr rfl) rfl, ?_⟩
      have hmul := Nat.mul_eq_zero.mp (hsize.symm.trans hzero)
      rw [RawVecInner.capacity, Target.usizeMax]
      split
      · omega
      · exact (hmul.resolve_left ‹_›).le
    rw [if_neg hzero]
    have hmul : elem.size * capacity.val ≠ 0 := hsize ▸ hzero
    have hpos := left_ne_zero_of_mul hmul
    have hne := right_ne_zero_of_mul hmul
    cases zeroed with
    | false => exact answer_spec _ hsize halign hpos hne
    | true => exact answer_spec _ hsize halign hpos hne
  · exact ⟨.error .CapacityOverflow, ⟨alloc, []⟩, by rw [hlayout]; rfl, rfl⟩

variable (elem) in
/-- **Every constructor** makes a sound vector with the capacity asked for, or none. -/
theorem construction_spec (alloc : σ) (c : Construction t) :
    ∃ r memory, c.run A alloc elem.toLayout = .ok (r, memory) ∧ match r with
      | .ok vec => Owns elem ⟨vec, memory⟩ ∧ c.capacity ≤ vec.capacity elem.size
      | .error o => o ≠ .returned ∧ memory.blocks = [] := by
  cases c with
  | new_in => exact ⟨_, _, rfl, owns_of_nil (.inr rfl) rfl, zero_le _⟩
  | with_capacity_in capacity =>
    obtain ⟨r, memory, hrun, hr⟩ := try_allocate_in_spec A elem alloc capacity false
    rw [Construction.run, hrun]
    cases r with
    | ok vec =>
      refine ⟨.ok vec, memory, ?_, hr⟩
      have hgrow : ¬ vec.needs_to_grow 0 capacity elem.toLayout = true := by
        rw [needs_to_grow_iff (s := ⟨vec, memory⟩) (zero_le _), zero_add]
        exact not_lt.mpr hr.2
      rw [Exec.bind_ok]
      dsimp only
      rw [assume, if_pos (by simpa using hgrow)]
      rfl
    | error e => exact ⟨_, memory, rfl, by cases e <;> rintro ⟨⟩, hr⟩
  | with_capacity_zeroed_in capacity =>
    obtain ⟨r, memory, hrun, hr⟩ := try_allocate_in_spec A elem alloc capacity true
    rw [Construction.run, hrun]
    cases r with
    | ok vec => exact ⟨.ok vec, memory, rfl, hr⟩
    | error e => exact ⟨_, memory, rfl, by cases e <;> rintro ⟨⟩, hr⟩
  | try_with_capacity_in capacity =>
    obtain ⟨r, memory, hrun, hr⟩ := try_allocate_in_spec A elem alloc capacity false
    rw [Construction.run, hrun]
    cases r with
    | ok vec => exact ⟨.ok vec, memory, rfl, hr⟩
    | error e => exact ⟨_, memory, rfl, by rintro ⟨⟩, hr⟩

/-- **One call on a raw vector.** -/
theorem raw_step_spec (op : RawOp t) (s : State t σ) (h : Owns elem s) :
    ∃ o s', op.step A elem.toLayout s = .ok (o, s') ∧ Owns elem s' ∧
      RawGood A elem ⟨s, op, o, s'⟩ := by
  cases op with
  | reserve len additional =>
    obtain ⟨o, s', hrun, hgood⟩ := reserve_spec A h len additional
    exact ⟨o, s', hrun, hgood.1, hgood.1.sound A, hgood.2⟩
  | reserve_exact len additional =>
    obtain ⟨o, s', hrun, hgood⟩ := reserve_exact_spec A h len additional
    exact ⟨o, s', hrun, hgood.1, hgood.1.sound A, hgood.2⟩
  | try_reserve len additional =>
    obtain ⟨o, s', hrun, hgood⟩ := try_reserve_spec A h len additional
    exact ⟨o, s', hrun, hgood.1, hgood.1.sound A, hgood.2⟩
  | try_reserve_exact len additional =>
    obtain ⟨o, s', hrun, hgood⟩ := try_reserve_exact_spec A h len additional
    exact ⟨o, s', hrun, hgood.1, hgood.1.sound A, hgood.2⟩
  | grow_one =>
    obtain ⟨o, s', hrun, howns, hreturned, hfailed⟩ := grow_one_spec A h
    refine ⟨o, s', hrun, howns, howns.sound A, fun ho => ?_, hfailed⟩
    obtain ⟨hsize, hle⟩ := hreturned ho
    rw [RawOp.Promise, RawVecInner.capacity, RawVecInner.capacity, if_neg hsize, if_neg hsize]
    exact hle
  | shrink_to_fit cap =>
    obtain ⟨o, s', hrun, howns, hreturned, hfailed⟩ := shrink_to_fit_spec A h cap
    refine ⟨o, s', hrun, howns, howns.sound A, fun ho => ?_, hfailed⟩
    obtain ⟨hle, hcap⟩ := hreturned ho
    refine ⟨hle, fun hsize => ?_⟩
    rw [RawVecInner.capacity, if_neg hsize]
    exact hcap hsize

/-- What holds of a vector between calls. -/
def Vec.Fits (elem : ElemLayout t) (v : Vec t σ) : Prop :=
  Owns elem v.buf ∧ v.len ≤ v.capacity elem.toLayout

variable {v : Vec t σ}

variable (h : v.Fits elem)
include h

theorem Vec.Fits.of_unchanged {s' : State t σ} (howns : Owns elem s')
    (hsame : Unchanged v.buf s') : Vec.Fits elem ⟨s', v.len⟩ := by
  refine ⟨howns, ?_⟩
  rw [capacity, hsame.1]
  exact h.2

/-- A call on the buffer that reserves room behind the elements. -/
theorem reserve_step_spec {additional : ℕ}
    {call : Exec (Outcome t × State t σ)}
    (hcall : ∃ o s', call = .ok (o, s') ∧ Reserved elem v.len additional v.buf o s') :
    ∃ o v', v.on_buf call = .ok (o, v') ∧ v'.Fits elem ∧
      (o = .returned → v'.len = v.len ∧ v.len + additional ≤ v'.capacity elem.toLayout) ∧
      (o ≠ .returned → Unchanged v.buf v'.buf ∧ v'.len = v.len) := by
  obtain ⟨o, s', hrun, howns, hreturned, hfailed⟩ := hcall
  refine ⟨o, ⟨s', v.len⟩, by rw [on_buf, hrun]; rfl, ?_,
    fun ho => ⟨rfl, hreturned ho h.2⟩, fun ho => ⟨hfailed ho, rfl⟩⟩
  by_cases ho : o = .returned
  · exact ⟨howns, (le_add_right _ _).trans (hreturned ho h.2)⟩
  · exact h.of_unchanged howns (hfailed ho)

/-- A call on the buffer that shrinks it, but not below the elements. -/
theorem shrink_step_spec {cap : ℕ} (hcap : v.len ≤ cap) :
    ∃ o v', v.on_buf (v.buf.shrink_to_fit A cap elem.toLayout) = .ok (o, v') ∧ v'.Fits elem ∧
      (o = .returned → v'.len = v.len ∧ (elem.size ≠ 0 → v'.capacity elem.toLayout = cap)) ∧
      (o ≠ .returned → Unchanged v.buf v'.buf ∧ v'.len = v.len) := by
  obtain ⟨o, s', hrun, howns, hreturned, hfailed⟩ := shrink_to_fit_spec A h.1 cap
  refine ⟨o, ⟨s', v.len⟩, by rw [on_buf, hrun]; rfl, ?_, fun ho => ⟨rfl, ?_⟩,
    fun ho => ⟨hfailed ho, rfl⟩⟩
  · by_cases ho : o = .returned
    · exact ⟨howns, hcap.trans (hreturned ho).1⟩
    · exact h.of_unchanged howns (hfailed ho)
  · intro hsize
    rw [capacity, RawVecInner.capacity, if_neg hsize]
    exact (hreturned ho).2 hsize

theorem push_within_capacity_spec (hlt : v.len < v.capacity elem.toLayout) :
    v.push_within_capacity elem.toLayout = .ok (.returned, ⟨v.buf, v.len + 1⟩) ∧
      Vec.Fits elem ⟨v.buf, v.len + 1⟩ := by
  have hcard : v.capacity elem.toLayout < t.usizeCard := capacity_lt v.buf
  refine ⟨?_, h.1, hlt⟩
  rw [push_within_capacity, assume, if_pos hlt, Exec.bind_ok, unchecked_add, if_pos (by omega)]
  rfl

/-- **Pushing** finds room or fails. -/
theorem push_step_spec : ∃ o v', v.push_mut A elem.toLayout = .ok (o, v') ∧ v'.Fits elem ∧
      (o = .returned → v'.len = v.len + 1) ∧
      (o ≠ .returned → Unchanged v.buf v'.buf ∧ v'.len = v.len) := by
  rw [push_mut]
  by_cases hfull : v.len = v.capacity elem.toLayout
  · obtain ⟨o, s', hrun, howns, hreturned, hfailed⟩ := grow_one_spec A h.1
    rw [if_pos hfull, on_buf, hrun]
    by_cases ho : o = .returned
    · subst ho
      obtain ⟨hsize, hle⟩ := hreturned rfl
      have hcap : v.capacity elem.toLayout = v.buf.vec.cap := if_neg hsize
      have hlt : v.len < capacity elem.toLayout ⟨s', v.len⟩ := by
        have hcap' : capacity elem.toLayout ⟨s', v.len⟩ = s'.vec.cap := if_neg hsize
        omega
      obtain ⟨hpush, hfits⟩ :=
        push_within_capacity_spec (v := ⟨s', v.len⟩) ⟨howns, hlt.le⟩ hlt
      exact ⟨.returned, _, hpush, hfits, fun _ => rfl, fun hne => absurd rfl hne⟩
    · refine ⟨o, ⟨s', v.len⟩, ?_, h.of_unchanged howns (hfailed ho), fun he => absurd he ho,
        fun _ => ⟨hfailed ho, rfl⟩⟩
      cases o with
      | returned => exact absurd rfl ho
      | failed | panicked | aborted => rfl
  · obtain ⟨hpush, hfits⟩ := push_within_capacity_spec h (lt_of_le_of_ne h.2 hfull)
    exact ⟨.returned, _, by rw [if_neg hfull, hpush], hfits, fun _ => rfl,
      fun hne => absurd rfl hne⟩

omit h

/-- **One call on a vector.** -/
theorem vec_step_spec (op : VecOp t) (v : Vec t σ) (h : v.Fits elem) :
    ∃ o v', op.step A elem.toLayout v = .ok (o, v') ∧ v'.Fits elem ∧
      VecGood A elem ⟨v, op, o, v'⟩ := by
  cases op with
  | reserve additional =>
    obtain ⟨o, v', hrun, hfits, hgood⟩ :=
      reserve_step_spec h (reserve_spec A h.1 v.len additional)
    exact ⟨o, v', hrun, hfits, hfits.1.sound A, hfits.2, hgood⟩
  | reserve_exact additional =>
    obtain ⟨o, v', hrun, hfits, hgood⟩ :=
      reserve_step_spec h (reserve_exact_spec A h.1 v.len additional)
    exact ⟨o, v', hrun, hfits, hfits.1.sound A, hfits.2, hgood⟩
  | try_reserve additional =>
    obtain ⟨o, v', hrun, hfits, hgood⟩ :=
      reserve_step_spec h (try_reserve_spec A h.1 v.len additional)
    exact ⟨o, v', hrun, hfits, hfits.1.sound A, hfits.2, hgood⟩
  | try_reserve_exact additional =>
    obtain ⟨o, v', hrun, hfits, hgood⟩ :=
      reserve_step_spec h (try_reserve_exact_spec A h.1 v.len additional)
    exact ⟨o, v', hrun, hfits, hfits.1.sound A, hfits.2, hgood⟩
  | push =>
    obtain ⟨o, v', hrun, hfits, hgood⟩ := push_step_spec A h
    exact ⟨o, v', hrun, hfits, hfits.1.sound A, hfits.2, hgood⟩
  | truncate len =>
    have hlen : (v.truncate len).len = min v.len len := by
      rw [truncate]
      split
      · exact (Nat.min_eq_left (Nat.le_of_lt ‹_›)).symm
      · exact (Nat.min_eq_right (Nat.le_of_not_lt ‹_›)).symm
    have hbuf : (v.truncate len).buf = v.buf := by
      rw [truncate]
      split <;> rfl
    have hfits : (v.truncate len).Fits elem := by
      rw [Vec.Fits, capacity, hbuf, hlen]
      exact ⟨h.1, (Nat.min_le_left _ _).trans h.2⟩
    refine ⟨.returned, _, rfl, hfits, hfits.1.sound A, hfits.2, fun _ => ⟨hlen, ?_⟩,
      fun hne => absurd rfl hne⟩
    rw [Unchanged, hbuf]
    exact ⟨rfl, rfl⟩
  | shrink_to_fit =>
    by_cases hlt : v.capacity elem.toLayout > v.len
    · obtain ⟨o, v', hrun, hfits, hgood⟩ := shrink_step_spec A h le_rfl
      refine ⟨o, v', ?_, hfits, hfits.1.sound A, hfits.2, hgood⟩
      rw [VecOp.step, shrink_to_fit, if_pos hlt, hrun]
    · refine ⟨.returned, v, if_neg hlt, h, h.1.sound A, h.2, fun _ => ⟨rfl, fun _ => ?_⟩,
        fun hne => absurd rfl hne⟩
      exact le_antisymm (Nat.le_of_not_lt hlt) h.2
  | shrink_to min_capacity =>
    have hlen := h.2
    by_cases hlt : v.capacity elem.toLayout > min_capacity
    · obtain ⟨o, v', hrun, hfits, hreturned, hfailed⟩ :=
        shrink_step_spec A h (Nat.le_max_left v.len min_capacity)
      refine ⟨o, v', ?_, hfits, hfits.1.sound A, hfits.2, fun ho => ?_, hfailed⟩
      · rw [VecOp.step, shrink_to, if_pos hlt, hrun]
      · refine ⟨(hreturned ho).1, fun hsize => ?_⟩
        rw [(hreturned ho).2 hsize, Nat.min_eq_left hlt.le]
    · refine ⟨.returned, v, if_neg hlt, h, h.1.sound A, h.2, fun _ => ⟨rfl, fun _ => ?_⟩,
        fun hne => absurd rfl hne⟩
      dsimp only
      omega

/-! ## Runs -/

/-- **Runs keep the allocation.** From every constructor, along every sequence of calls on the raw
vector or on the vector, every step is good. -/
theorem runs_keep_allocation (A : Allocator t σ) (alloc : σ) (elem : ElemLayout t)
    (c : Construction t) :
    (∀ layout : Layout t, layout.Exact) ∧
    ∃ r memory, c.run A alloc elem.toLayout = .ok (r, memory) ∧ match r with
      | .error o => o ≠ .returned ∧ memory.blocks = []
      | .ok vec =>
        c.capacity ≤ vec.capacity elem.size ∧ Sound A elem ⟨vec, memory⟩ ∧
        (∀ ops, ∃ steps,
          trace (RawOp.step A elem.toLayout) Outcome.stops ops ⟨vec, memory⟩ = .ok steps ∧
          ∀ st ∈ steps, RawGood A elem st) ∧
        ∀ ops, ∃ steps,
          trace (VecOp.step A elem.toLayout) Outcome.stops ops ⟨⟨vec, memory⟩, 0⟩ = .ok steps ∧
          ∀ st ∈ steps, VecGood A elem st := by
  refine ⟨Layout.exact, ?_⟩
  obtain ⟨r, memory, hrun, hr⟩ := construction_spec A elem alloc c
  refine ⟨r, memory, hrun, ?_⟩
  cases r with
  | error o => exact hr
  | ok vec =>
    refine ⟨hr.2, hr.1.sound A, fun ops => ?_, fun ops => ?_⟩
    · obtain ⟨steps, htrace, hall⟩ :=
        trace_spec Outcome.stops (fun op s hs => raw_step_spec A op s hs) ops hr.1
      exact ⟨steps, htrace, fun st hst => (hall st hst).2⟩
    · have hfits : Vec.Fits elem (⟨⟨vec, memory⟩, 0⟩ : Vec t σ) := ⟨hr.1, zero_le _⟩
      obtain ⟨steps, htrace, hall⟩ :=
        trace_spec Outcome.stops (fun op v hv => vec_step_spec A op v hv) ops hfits
      exact ⟨steps, htrace, fun st hst => (hall st hst).2⟩

/-- An allocator of a single address that never refuses. -/
def always (t : Target) : Allocator t Unit where
  allocate := fun _ layout => (some ⟨8, layout.size, le_rfl⟩, ())
  allocate_zeroed := fun _ layout => (some ⟨8, layout.size, le_rfl⟩, ())
  deallocate := fun _ _ _ => ()
  grow := fun _ _ _ layout => (some ⟨8, layout.size, le_rfl⟩, ())
  shrink := fun _ _ _ layout => (some ⟨8, layout.size, le_rfl⟩, ())

/-- The layout of a byte on a 64-bit target. -/
def byte_layout : ElemLayout ⟨3, false⟩ where
  size := 1
  align := ⟨1, 0, by decide, rfl⟩
  valid := by decide
  padded := dvd_refl 1

/-- **A length past the capacity.** A new vector of bytes, asked for room behind one element that it
does not have, returns without any. -/
theorem reserve_past_capacity :
    ∃ s', State.reserve (always ⟨3, false⟩) ⟨.new_in byte_layout.align, ⟨(), []⟩⟩ 1 1
        byte_layout.toLayout = .ok (.returned, s') ∧
      ¬ 1 + 1 ≤ s'.vec.capacity byte_layout.size :=
  ⟨_, if_neg (by decide), by decide⟩

end RustStd.Alloc
