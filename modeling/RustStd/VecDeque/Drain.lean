import RustStd.VecDeque.Gap
import RustStd.Foundations.DoubleEnded

/-!
# Draining

`drain` takes the elements of a range out of a deque from either end. Until the iterator is dropped,
the deque says that it ends where the range starts, and the iterator remembers the rest. Dropping it
drops the elements that were not taken and closes the hole.
-/

namespace RustStd.VecDeque

open DoubleEnded List Exec

variable {α : Type}

/-! ## The iterator -/

structure Drain (α : Type) where
  deque : VecDeque α
  drain_len : ℕ
  idx : ℕ
  tail_len : ℕ
  remaining : ℕ

def Drain.new (deque : VecDeque α) (drain_start drain_len : ℕ) : Drain α :=
  let orig_len := deque.len
  { deque := { deque with len := drain_start }
    drain_len := drain_len
    idx := drain_start
    tail_len := orig_len - drain_start - drain_len
    remaining := drain_len }

section Model

variable (t : Target) (zst : Option α)

def drain (d : VecDeque α) (start_bound end_bound : Bound ℕ) : Exec (Drain α) := do
  let (start, stop) ← slice_range start_bound end_bound d.len
  .ok (Drain.new d start (stop - start))

namespace Drain

def as_slices (self : Drain α) : Exec (List α × List α) := do
  let (a_range, b_range) := self.deque.slice_ranges t zst self.idx (self.idx + self.remaining)
  let a ← self.deque.buffer_range zst a_range.1 a_range.2
  let b ← self.deque.buffer_range zst b_range.1 b_range.2
  .ok (a, b)

def next (self : Drain α) : Exec (Option α × Drain α) :=
  if self.remaining = 0 then .ok (none, self)
  else do
    let wrapped_idx := self.deque.to_physical_idx t zst self.idx
    let self := { self with idx := self.idx + 1, remaining := self.remaining - 1 }
    .ok (some (← self.deque.buffer_read zst wrapped_idx), self)

def next_back (self : Drain α) : Exec (Option α × Drain α) :=
  if self.remaining = 0 then .ok (none, self)
  else do
    let self := { self with remaining := self.remaining - 1 }
    let wrapped_idx := self.deque.to_physical_idx t zst (self.idx + self.remaining)
    .ok (some (← self.deque.buffer_read zst wrapped_idx), self)

/-- A call at either end. -/
def step : End → Drain α → Exec (Option α × Drain α)
  | .front => next t zst
  | .back => next_back t zst

/-- The deque, and the elements dropped; those whose type needs no drop are left alone. -/
def drop (self : Drain α) (needs_drop : Bool) : Exec (VecDeque α × List α) := do
  let dropped ← (if needs_drop ∧ self.remaining ≠ 0 then do
      let (front, back) ← self.as_slices t zst
      .ok (front ++ back)
    else .ok [])
  let d ← self.deque.close t zst self.drain_len self.tail_len
  .ok (d, dropped)

end Drain

end Model

variable {t : Target}

/-! ## Sized elements -/

/-- What a drain of sized elements holds: the elements before the range, those of the range that
were not taken, and those after it. -/
structure Drains (t : Target) (s : Drain α) (before rest after : List α) : Prop where
  gapped : Gapped t s.deque before s.drain_len after
  len : s.deque.len = before.length
  tail_len : s.tail_len = after.length
  remaining : s.remaining = rest.length
  idx_ge : before.length ≤ s.idx
  idx_le : s.idx + s.remaining ≤ before.length + s.drain_len
  cells : ∀ i, i < rest.length →
    s.deque.buf.mem (phys s.deque.buf.cap s.deque.head (s.idx + i)) = rest[i]?

namespace Drains

variable {s : Drain α} {before rest after : List α}

theorem of_sized {d : VecDeque α} {l : List α} (h : Sized t d l) {i j : ℕ} (hij : i ≤ j)
    (hj : j ≤ l.length) :
    Drains t (Drain.new d i (j - i)) (l.take i) ((l.drop i).take (j - i)) (l.drop j) := by
  have hlen := h.length
  refine ⟨Gapped.of_sized h hij hj i, ?_, ?_, ?_, ?_, ?_, fun k hk => ?_⟩
  all_goals simp only [Drain.new, length_take, length_drop]
  any_goals lia
  rw [length_take, length_drop] at hk
  rw [getElem?_take, if_pos (by lia), getElem?_drop]
  exact h.cells _ (by lia)

variable (h : Drains t s before rest after)
include h

/-- The element `i` places into the rest of the range. -/
theorem read {i : ℕ} (hi : i < rest.length) :
    s.deque.buffer_read none (s.deque.to_physical_idx t none (s.idx + i)) = .ok rest[i] := by
  have hfits := h.gapped.fits
  have hidx := h.idx_le
  have hrem := h.remaining
  have hlt : s.idx + i < s.deque.buf.cap := by lia
  have hhead := h.gapped.head_lt.resolve_right (by lia)
  have hcell := h.cells i hi
  rw [getElem?_eq_getElem hi] at hcell
  rw [h.gapped.physical hlt.le]
  simp [buffer_read, phys_lt hhead hlt.le, hcell]

theorem next : ∃ s', s.next t none = .ok (rest.head?, s') ∧ Drains t s' before rest.tail after := by
  have hrem := h.remaining
  have hge := h.idx_ge
  have hle := h.idx_le
  unfold Drain.next
  cases rest with
  | nil =>
    rw [if_pos (show s.remaining = 0 from hrem)]
    exact ⟨s, rfl, h⟩
  | cons x rest =>
    rw [length_cons] at hrem
    have hread := h.read (i := 0) (by simp)
    rw [Nat.add_zero] at hread
    rw [if_neg (by lia)]
    dsimp only
    rw [hread, bind_ok]
    refine ⟨_, rfl, h.gapped, h.len, h.tail_len, ?_, ?_, ?_, fun i hi => ?_⟩
    · simp only [tail_cons]
      lia
    · simp only
      lia
    · simp only
      lia
    · have hcell := h.cells (i + 1) (by simpa using hi)
      rw [getElem?_cons_succ, ← Nat.add_assoc, Nat.add_right_comm] at hcell
      exact hcell

theorem next_back : ∃ s', s.next_back t none = .ok (rest.getLast?, s') ∧
      Drains t s' before rest.dropLast after := by
  have hrem := h.remaining
  have hle := h.idx_le
  unfold Drain.next_back
  by_cases h0 : s.remaining = 0
  · obtain rfl : rest = [] := length_eq_zero_iff.1 (by lia)
    rw [if_pos h0]
    exact ⟨s, rfl, h⟩
  have hread := h.read (i := s.remaining - 1) (by lia)
  have hlast : rest.getLast? = some rest[s.remaining - 1] := by
    rw [getLast?_eq_getElem?, getElem?_eq_getElem (by lia)]
    simp only [hrem]
  rw [if_neg h0, hlast]
  dsimp only
  rw [hread, bind_ok]
  refine ⟨_, rfl, h.gapped, h.len, h.tail_len, ?_, h.idx_ge, ?_, fun i hi => ?_⟩
  · simp only [length_dropLast]
    lia
  · simp only
    lia
  · rw [length_dropLast] at hi
    rw [getElem?_dropLast, if_pos (by lia)]
    exact h.cells i (by lia)

omit h

theorem step (e : End) (h : Drains t s before rest after) :
    ∃ s', Drain.step t none e s = .ok (e.peek rest, s') ∧
      Drains t s' before (e.rest rest) after := by
  cases e with
  | front => exact h.next
  | back => exact h.next_back

/-- The two slices of what was not taken. -/
theorem as_slices (h : Drains t s before rest after) (h0 : rest ≠ []) :
    ∃ k, s.as_slices t none = .ok (rest.take k, rest.drop k) := by
  have hfits := h.gapped.fits
  have hrem := h.remaining
  have hle := h.idx_le
  have hpos := length_pos_iff.2 h0
  have hhead := h.gapped.head_lt.resolve_right (by lia)
  have hcells := h.cells
  have hphys : ∀ i, i < rest.length → phys s.deque.buf.cap s.deque.head (s.idx + i) =
      phys s.deque.buf.cap (phys s.deque.buf.cap s.deque.head s.idx) i := fun i hi =>
    (phys_phys hhead (by lia)).symm
  have hlt := phys_lt hhead (show s.idx ≤ s.deque.buf.cap by lia)
  refine ⟨s.deque.buf.cap - phys s.deque.buf.cap s.deque.head s.idx, ?_⟩
  unfold Drain.as_slices slice_ranges
  rw [Nat.add_sub_cancel_left, hrem, if_neg (by lia), h.gapped.physical (by lia)]
  simp only [capacity_none]
  generalize phys s.deque.buf.cap s.deque.head s.idx = start at *
  by_cases hfit : s.deque.buf.cap - start ≥ rest.length
  · have hall : s.deque.buffer_range none start rest.length = .ok rest :=
      buffer_range_eq (by lia) fun i hi => by
        rw [← hcells i hi, hphys i hi, phys_of_lt (by lia)]
    rw [if_pos hfit, take_of_length_le hfit, drop_of_length_le hfit]
    simp [hall, buffer_range]
  have hfront : s.deque.buffer_range none start (rest.take (s.deque.buf.cap - start)).length =
      .ok (rest.take (s.deque.buf.cap - start)) := by
    refine buffer_range_eq (by simp only [length_take]; lia) fun i hi => ?_
    rw [length_take] at hi
    rw [getElem?_take, if_pos (by lia), ← hcells i (by lia), hphys i (by lia),
      phys_of_lt (by lia)]
  have hback : s.deque.buffer_range none 0 (rest.drop (s.deque.buf.cap - start)).length =
      .ok (rest.drop (s.deque.buf.cap - start)) := by
    refine buffer_range_eq (by simp only [length_drop]; lia) fun i hi => ?_
    rw [length_drop] at hi
    rw [getElem?_drop, ← hcells _ (by lia), hphys _ (by lia), phys_of_ge (by lia)]
    congr 1
    lia
  rw [length_take, Nat.min_eq_left (by lia)] at hfront
  rw [length_drop] at hback
  rw [if_neg hfit]
  simp [hfront, hback]

/-- **Dropping a drain** drops what was not taken and closes the hole. -/
theorem drop (h : Drains t s before rest after) (needs_drop : Bool) :
    ∃ d', s.drop t none needs_drop = .ok (d', if needs_drop then rest else []) ∧
      Sized t d' (before ++ after) := by
  have hdropped : (if needs_drop ∧ s.remaining ≠ 0 then do
      let (front, back) ← s.as_slices t none
      .ok (front ++ back)
    else .ok []) = (.ok (if needs_drop then rest else []) : Exec (List α)) := by
    by_cases hnil : rest = []
    · have h0 : s.remaining = 0 := by rw [h.remaining, hnil, length_nil]
      rw [if_neg (fun hc => hc.2 h0), hnil, ite_self]
    · have h0 : s.remaining ≠ 0 := by rwa [h.remaining, Ne, length_eq_zero_iff]
      obtain ⟨k, hk⟩ := h.as_slices hnil
      by_cases hdrop : needs_drop
      · rw [if_pos ⟨hdrop, h0⟩, if_pos hdrop, hk, bind_ok]
        simp
      · rw [if_neg (fun hc => hdrop hc.1), if_neg hdrop]
  obtain ⟨d', hd', hs⟩ := h.gapped.close h.len
  refine ⟨d', ?_, hs⟩
  unfold Drain.drop
  rw [hdropped, bind_ok, h.tail_len, hd', bind_ok]

end Drains

/-! ## Zero-sized elements -/

/-- The two ranges of a logical range are as long as it is, taken together. -/
theorem slice_ranges_length {zst : Option α} (d : VecDeque α) {start stop : ℕ} :
    (d.slice_ranges t zst start stop).1.2 + (d.slice_ranges t zst start stop).2.2 =
      stop - start := by
  unfold slice_ranges
  dsimp only
  split_ifs <;> dsimp only <;> lia

/-- What a drain of zero-sized elements holds: only the numbers matter. -/
structure ZeroDrains (t : Target) (s : Drain α) (before rest after : List α) : Prop where
  head_lt : s.deque.head < t.usizeMax
  fits : before.length + after.length ≤ t.usizeMax
  len : s.deque.len = before.length
  tail_len : s.tail_len = after.length
  remaining : s.remaining = rest.length

namespace ZeroDrains

variable {u : α} {s : Drain α} {before rest after : List α}

theorem of_zeroSized {d : VecDeque α} {l : List α} (h : ZeroSized t d l) {i j : ℕ} (hij : i ≤ j)
    (hj : j ≤ l.length) :
    ZeroDrains t (Drain.new d i (j - i)) (l.take i) ((l.drop i).take (j - i)) (l.drop j) := by
  have hlen := h.length
  have hle := h.len_le
  refine ⟨h.head_lt, ?_, ?_, ?_, ?_⟩
  all_goals simp only [Drain.new, length_take, length_drop]
  all_goals lia

theorem step (hu : ∀ x, x = u) (e : End) (h : ZeroDrains t s before rest after) :
    ∃ s', Drain.step t (some u) e s = .ok (e.peek rest, s') ∧
      ZeroDrains t s' before (e.rest rest) after := by
  have hrem := h.remaining
  by_cases hnil : rest = []
  · subst hnil
    have h0 : s.remaining = 0 := hrem
    cases e with
    | front => exact ⟨s, by rw [Drain.step, Drain.next, if_pos h0]; rfl, h⟩
    | back => exact ⟨s, by rw [Drain.step, Drain.next_back, if_pos h0]; rfl, h⟩
  have h0 : s.remaining ≠ 0 := by rwa [hrem, Ne, length_eq_zero_iff]
  have hpeek : e.peek rest = some u := option_eq_of_isSome hu (by
    cases e <;> simp [End.peek, hnil])
  have hlength : (e.rest rest).length = s.remaining - 1 := by
    cases e <;> simp [End.rest, hrem]
  rw [hpeek]
  cases e with
  | front =>
    rw [Drain.step, Drain.next, if_neg h0]
    exact ⟨_, rfl, h.head_lt, h.fits, h.len, h.tail_len, hlength.symm⟩
  | back =>
    rw [Drain.step, Drain.next_back, if_neg h0]
    exact ⟨_, rfl, h.head_lt, h.fits, h.len, h.tail_len, hlength.symm⟩

theorem drop (hu : ∀ x, x = u) (h : ZeroDrains t s before rest after) (needs_drop : Bool) :
    ∃ d', s.drop t (some u) needs_drop = .ok (d', if needs_drop then rest else []) ∧
      ZeroSized t d' (before ++ after) := by
  have hrem := h.remaining
  have hlen := h.len
  have htail := h.tail_len
  have hfits := h.fits
  have hdropped : (if needs_drop ∧ s.remaining ≠ 0 then do
      let (front, back) ← s.as_slices t (some u)
      .ok (front ++ back)
    else .ok []) = (.ok (if needs_drop then rest else []) : Exec (List α)) := by
    by_cases hdrop : needs_drop
    · rw [if_pos hdrop]
      by_cases h0 : s.remaining = 0
      · rw [if_neg (fun hc => hc.2 h0), length_eq_zero_iff.1 (hrem.symm.trans h0)]
      · rw [if_pos ⟨hdrop, h0⟩]
        simp only [Drain.as_slices, buffer_range_some, bind_ok]
        congr 1
        refine list_eq_of_length hu ?_
        rw [length_append, length_replicate, length_replicate, slice_ranges_length]
        lia
    · rw [if_neg (fun hc => hdrop hc.1), if_neg hdrop]
  unfold Drain.drop
  rw [hdropped, bind_ok]
  refine ⟨_, rfl, ?_, ?_, h.head_lt⟩
  · simp only [length_append]
    lia
  · simp only
    lia

end ZeroDrains

/-! ## Both -/

/-- What a drain holds, whatever the size of an element. -/
def Draining (t : Target) : Option α → Drain α → List α → List α → List α → Prop
  | none => Drains t
  | some _ => ZeroDrains t

variable {zst : Option α}

theorem Draining.of_holds {d : VecDeque α} {l : List α} (h : Holds t zst d l) {i j : ℕ}
    (hij : i ≤ j) (hj : j ≤ l.length) :
    Draining t zst (Drain.new d i (j - i)) (l.take i) ((l.drop i).take (j - i)) (l.drop j) := by
  cases zst with
  | none => exact Drains.of_sized h hij hj
  | some u => exact ZeroDrains.of_zeroSized h hij hj

variable (hz : ∀ u, zst = some u → ∀ x, x = u)
include hz

theorem Draining.step (e : End) {s : Drain α}
    {before rest after : List α} (h : Draining t zst s before rest after) :
    ∃ s', Drain.step t zst e s = .ok (e.peek rest, s') ∧
      Draining t zst s' before (e.rest rest) after := by
  cases zst with
  | none => exact Drains.step e h
  | some u => exact ZeroDrains.step (hz u rfl) e h

theorem Draining.drop {s : Drain α}
    {before rest after : List α} (h : Draining t zst s before rest after) (needs_drop : Bool) :
    ∃ d', s.drop t zst needs_drop = .ok (d', if needs_drop then rest else []) ∧
      Holds t zst d' (before ++ after) := by
  cases zst with
  | none => exact Drains.drop h needs_drop
  | some u => exact ZeroDrains.drop (hz u rfl) h needs_drop

/-- **Draining**: any calls at either end take elements of the range as from its list, and dropping
the iterator leaves the elements before and after the range. -/
theorem drain_spec {d : VecDeque α} {l : List α}
    (h : Holds t zst d l) {start_bound end_bound : Bound ℕ} {i j : ℕ}
    (hrange : slice_range start_bound end_bound l.length = .ok (i, j)) (calls : List End)
    (needs_drop : Bool) :
    ∃ s s' d', d.drain start_bound end_bound = .ok s ∧
      runM (Drain.step t zst) calls s = .ok (pops calls ((l.drop i).take (j - i)), s') ∧
      s'.drop t zst needs_drop =
        .ok (d', if needs_drop then left calls ((l.drop i).take (j - i)) else []) ∧
      Holds t zst d' (l.take i ++ l.drop j) := by
  obtain ⟨hij, hj⟩ := slice_range_le hrange
  obtain ⟨s', hrun, hs'⟩ := runM_spec
    (R := fun s rest => Draining t zst s (l.take i) rest (l.drop j))
    (fun e s rest hs => hs.step hz e) calls (Draining.of_holds h hij hj)
  obtain ⟨d', hd', hl⟩ := hs'.drop hz needs_drop
  refine ⟨_, s', d', ?_, hrun, hd', hl⟩
  rw [drain, ← h.length, hrange, bind_ok]

end RustStd.VecDeque
