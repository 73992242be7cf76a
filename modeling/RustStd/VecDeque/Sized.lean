import RustStd.VecDeque.Copy

/-!
# Operations on ring buffers of sized elements

`Sized t d l`: the deque holds the list `l`, in the cells from `head` on around the ring. Each
operation ends without a fault in a deque that holds the list the operation says; one that allocates
may instead panic, before it changes anything, when the capacity asked for or returned is past
`isize::MAX`.
-/

namespace RustStd.VecDeque

open List Exec

variable {α : Type} {t : Target} {d : VecDeque α} {l : List α}

/-- The deque holds the list `l`. -/
structure Sized (t : Target) (d : VecDeque α) (l : List α) : Prop where
  length : l.length = d.len
  len_le : d.len ≤ d.buf.cap
  head_lt : d.head < d.buf.cap ∨ (d.head = 0 ∧ d.buf.cap = 0)
  cap_le : d.buf.cap ≤ t.isizeMax
  cells : ∀ i, i < d.len → d.buf.mem (phys d.buf.cap d.head i) = l[i]?

theorem Sized.head_le (h : Sized t d l) : d.head ≤ d.buf.cap := by
  have := h.head_lt
  lia

theorem Sized.physical (h : Sized t d l) {i : ℕ}
    (hi : i ≤ d.buf.cap) : d.to_physical_idx t none i = phys d.buf.cap d.head i := by
  have := h.head_le
  have := h.cap_le
  exact wrap_add_eq (by lia)

theorem Sized.read (h : Sized t d l) {i : ℕ} (hi : i < l.length) :
    d.buffer_read none (phys d.buf.cap d.head i) = .ok l[i] := by
  have hlen := h.length
  have hle := h.len_le
  have hlt := phys_lt (h.head_lt.resolve_right (by lia)) (show i ≤ d.buf.cap by lia)
  have hcell := h.cells i (by lia)
  rw [getElem?_eq_getElem hi] at hcell
  simp [buffer_read, hlt, hcell]

/-- Writing one cell. -/
theorem buffer_write_eq {off : ℕ} (h : off < d.buf.cap) (x : α) : d.buffer_write none off x =
      .ok (d.withMem fun i => if i = off then some x else d.buf.mem i) := by
  simp only [buffer_write, write_slice, length_singleton,
    if_pos (show off + 1 ≤ d.buf.cap by lia)]
  congr 3
  funext i
  simp only [RawVec.written, length_singleton]
  by_cases hi : i = off
  · subst hi
    simp
  · rw [if_neg (by lia), if_neg hi]

/-! ## Growing -/

/-- The cells of a deque, at their places in a buffer of another capacity. -/
theorem handle_capacity_increase_spec {old : ℕ}
    (hlen : l.length = d.len) (hle : d.len ≤ old) (hhead : d.head < old ∨ (d.head = 0 ∧ old = 0))
    (hold : old ≤ d.buf.cap) (hcap : d.buf.cap ≤ t.isizeMax)
    (hcells : ∀ i, i < d.len → d.buf.mem (phys old d.head i) = l[i]?) :
    ∃ d', d.handle_capacity_increase t none old = .ok d' ∧ Sized t d' l ∧ d'.len = d.len ∧
      d'.buf.cap = d.buf.cap := by
  unfold handle_capacity_increase
  simp only [capacity_none]
  split
  · -- contiguous before, and still
    refine ⟨d, rfl, ⟨hlen, by lia, by lia, hcap, fun i hi => ?_⟩, rfl, rfl⟩
    rw [← hcells i hi]
    unfold phys
    split_ifs <;> lia
  by_cases hcond : old - d.head > d.len - (old - d.head) ∧
      d.buf.cap - old ≥ d.len - (old - d.head)
  · -- the tail goes after the head
    rw [if_pos hcond, copy_nonoverlapping, if_pos (Or.inl (by lia)), copy_eq (by lia) (by lia)]
    refine ⟨_, rfl, ⟨hlen, ?_, ?_, hcap, fun i hi => ?_⟩, rfl, rfl⟩
    · exact hle.trans hold
    · exact Or.inl (by simp only [withMem]; lia)
    · have hi : i < d.len := hi
      rw [← hcells i hi]
      simp only [withMem, RawVec.moved]
      by_cases hw : d.head + i < old
      · rw [phys_of_lt hw, phys_of_lt (hw.trans_le hold), if_neg (by lia)]
      · rw [phys_of_ge (not_lt.1 hw), phys_of_lt (by lia), if_pos (by lia)]
        congr 1
        lia
  · -- the head goes to the end of the buffer
    rw [if_neg hcond, copy_eq (by lia) (by lia), bind_ok]
    refine ⟨_, rfl, ⟨hlen, ?_, ?_, hcap, fun i hi => ?_⟩, rfl, rfl⟩
    · exact hle.trans hold
    · exact Or.inl (by simp only [withMem]; lia)
    · have hi : i < d.len := hi
      rw [← hcells i hi]
      simp only [withMem, RawVec.moved]
      by_cases hw : d.head + i < old
      · rw [phys_of_lt hw, phys_of_lt (by lia), if_pos (by lia)]
        congr 1
        lia
      · rw [phys_of_ge (not_lt.1 hw), phys_of_ge (by lia), if_neg (by lia)]
        congr 1
        lia

variable (h : Sized t d l)
include h

/-- Reallocating keeps the list, with room for what was asked. -/
theorem Sized.grow_buf {required c : ℕ} (hreq : d.buf.cap ≤ required) :
    PanicsOr (t.isizeMax < max required c) (do
      let buf ← d.buf.grow t required c
      handle_capacity_increase t none { d with buf } d.buf.cap) fun d' =>
        Sized t d' l ∧ d'.len = d.len ∧ required ≤ d'.buf.cap := by
  unfold RawVec.grow
  by_cases hmax : max required c ≤ t.isizeMax
  · obtain ⟨d', hd', hs, hl, hc⟩ := handle_capacity_increase_spec
      (d := { d with buf := ⟨fun i => if i < d.buf.cap then d.buf.mem i else none,
        max required c⟩ }) h.length h.len_le h.head_lt
      (hreq.trans (le_max_left _ _)) hmax (by
        intro i hi
        have := phys_lt (h.head_lt.resolve_right (by have := h.len_le; simp only at hi; lia))
          (show i ≤ d.buf.cap by have := h.len_le; simp only at hi; lia)
        rw [← h.cells i hi]
        exact if_pos this)
    rw [if_pos hmax]
    exact Or.inr ⟨d', hd', hs, hl, hc ▸ le_max_left _ _⟩
  · rw [if_neg hmax]
    exact .panic (not_le.1 hmax)

theorem Sized.grow (c : ℕ) :
    PanicsOr (t.isizeMax < max (d.buf.cap + 1) c) (d.grow t none c) fun d' =>
      Sized t d' l ∧ d'.len < d'.buf.cap :=
  (h.grow_buf (Nat.le_succ d.buf.cap)).imp id fun d' ⟨hs, hl, hc⟩ =>
    ⟨hs, by have := h.len_le; lia⟩

theorem Sized.reserve (additional c : ℕ) :
    PanicsOr (t.isizeMax < max (l.length + additional) c) (d.reserve t none additional c) fun d' =>
      Sized t d' l ∧ d'.len + additional ≤ d'.buf.cap := by
  have hcard := t.two_mul_isizeMax
  have hmax : t.usizeMax = t.usizeCard - 1 := rfl
  have hlen := h.length
  unfold VecDeque.reserve
  simp only [capacity_none]
  split
  · exact .panic (by lia)
  · by_cases hgt : d.len + additional > d.buf.cap
    · rw [if_pos hgt]
      rw [hlen]
      exact (h.grow_buf hgt.le).imp id fun d' ⟨hs, hl, hc⟩ => ⟨hs, by lia⟩
    · rw [if_neg hgt]
      exact .ok ⟨h, by lia⟩

/-- Making room for one more element. -/
theorem Sized.room (c : ℕ) : PanicsOr (t.isizeMax < max (l.length + 1) c)
    (if d.is_full t none then d.grow t none c else .ok d) fun d' =>
      Sized t d' l ∧ d'.len < d'.buf.cap := by
  have hlen := h.length
  have hle := h.len_le
  by_cases hfull : d.len = d.buf.cap
  · rw [if_pos (by simpa [is_full, capacity_none] using hfull)]
    rw [hlen, hfull]
    exact h.grow c
  · rw [if_neg (by simpa [is_full, capacity_none] using hfull)]
    exact .ok ⟨h, by lia⟩

/-! ## Pushing and popping -/

/-- A cell written behind the last element. -/
theorem Sized.write_back (hroom : d.len < d.buf.cap) (x : α) :
    ∃ mem, d.buffer_write none (phys d.buf.cap d.head d.len) x = .ok (d.withMem mem) ∧
      Sized t { d.withMem mem with len := d.len + 1 } (l ++ [x]) := by
  have hlen := h.length
  have hhead := h.head_lt.resolve_right (by lia)
  refine ⟨_, buffer_write_eq (phys_lt hhead hroom.le) x, by simp [hlen], hroom, Or.inl hhead,
    h.cap_le, fun i hi => ?_⟩
  simp only [withMem] at hi ⊢
  rw [getElem?_append, hlen]
  by_cases hid : i = d.len
  · subst hid
    simp
  · have hne : phys d.buf.cap d.head i ≠ phys d.buf.cap d.head d.len := by
      unfold phys
      split_ifs <;> lia
    rw [if_neg hne, if_pos (by lia), h.cells i (by lia)]

/-- A cell written in front of the first element, and the head moved there. -/
theorem Sized.write_front (hroom : d.len < d.buf.cap) (x : α) :
    ∃ mem, d.buffer_write none (phys d.buf.cap d.head (d.buf.cap - 1)) x = .ok (d.withMem mem) ∧
      Sized t { d.withMem mem with
        head := phys d.buf.cap d.head (d.buf.cap - 1), len := d.len + 1 } (x :: l) := by
  have hlen := h.length
  have hhead := h.head_lt.resolve_right (by lia)
  have hhead' := phys_lt hhead (show d.buf.cap - 1 ≤ d.buf.cap by lia)
  refine ⟨_, buffer_write_eq hhead' x, by simp [hlen], hroom, Or.inl hhead', h.cap_le,
    fun i hi => ?_⟩
  simp only [withMem] at hi ⊢
  cases i with
  | zero =>
    rw [if_pos (by unfold phys; split_ifs <;> lia)]
    rfl
  | succ i =>
    have heq : phys d.buf.cap (phys d.buf.cap d.head (d.buf.cap - 1)) (i + 1) =
        phys d.buf.cap d.head i := by
      unfold phys
      split_ifs <;> lia
    have hne : phys d.buf.cap d.head i ≠ phys d.buf.cap d.head (d.buf.cap - 1) := by
      unfold phys
      split_ifs <;> lia
    rw [heq, if_neg hne, h.cells i (by lia), getElem?_cons_succ]

theorem Sized.push_back (x : α) (c : ℕ) :
    PanicsOr (t.isizeMax < max (l.length + 1) c) (d.push_back t none x c) fun d' =>
      Sized t d' (l ++ [x]) := by
  refine (h.room c).bind id fun d ⟨h, hlt⟩ => ?_
  have hphys : (VecDeque.mk d.head (d.len + 1) d.buf).to_physical_idx t none d.len =
      phys d.buf.cap d.head d.len := h.physical hlt.le
  have hhead := h.head_lt.resolve_right (by lia)
  obtain ⟨mem, hwrite, hs⟩ := h.write_back hlt x
  rw [buffer_write_eq (phys_lt hhead hlt.le)] at hwrite
  cases hwrite
  simp only [hphys]
  exact Or.inr ⟨_, buffer_write_eq (d := ⟨d.head, d.len + 1, d.buf⟩) (phys_lt hhead hlt.le) x, hs⟩

theorem Sized.push_front (x : α) (c : ℕ) :
    PanicsOr (t.isizeMax < max (l.length + 1) c) (d.push_front t none x c) fun d' =>
      Sized t d' (x :: l) := by
  refine (h.room c).bind id fun d ⟨h, hlt⟩ => ?_
  have hhead := h.head_lt.resolve_right (by lia)
  have hsub := wrap_sub_eq (d := d) h.cap_le hhead.le (show 1 ≤ d.buf.cap by lia)
  obtain ⟨mem, hwrite, hs⟩ := h.write_front hlt x
  have hhead' := phys_lt hhead (show d.buf.cap - 1 ≤ d.buf.cap by lia)
  rw [buffer_write_eq hhead'] at hwrite
  cases hwrite
  simp only [hsub]
  exact Or.inr ⟨_, buffer_write_eq (d := ⟨_, d.len + 1, d.buf⟩) hhead' x, hs⟩

theorem Sized.pop_front : ∃ d', d.pop_front t none = .ok (d', l.head?) ∧ Sized t d' l.tail := by
  unfold VecDeque.pop_front
  have hlen := h.length
  split
  · rename_i h0
    obtain rfl : l = [] := length_eq_zero_iff.1 (by lia)
    exact ⟨d, rfl, h⟩
  rename_i h0
  match l, h, hlen with
  | [], _, hlen => exact absurd hlen.symm h0
  | x :: l, h, hlen =>
    have hle := h.len_le
    have hhead := h.head_lt.resolve_right (by lia)
    have hread := h.read (i := 0) (by simp)
    rw [show phys d.buf.cap d.head 0 = d.head by unfold phys; split_ifs <;> lia] at hread
    have hphys := h.physical (show 1 ≤ d.buf.cap by lia)
    have hread' : (VecDeque.mk (phys d.buf.cap d.head 1) (d.len - 1) d.buf).buffer_read none
        d.head = .ok x := hread
    simp only [hphys, hread', bind_ok]
    refine ⟨_, rfl, ⟨?_, ?_, Or.inl (phys_lt hhead (by lia)), h.cap_le, fun i hi => ?_⟩⟩
    · simp only [length_cons, tail_cons] at hlen ⊢
      lia
    · exact (Nat.sub_le _ _).trans hle
    · simp only at hi ⊢
      have hcell := h.cells (i + 1) (by lia)
      rw [getElem?_cons_succ] at hcell
      rw [tail_cons, ← hcell]
      congr 1
      unfold phys
      split_ifs <;> lia

theorem Sized.pop_back :
    ∃ d', d.pop_back t none = .ok (d', l.getLast?) ∧ Sized t d' l.dropLast := by
  unfold VecDeque.pop_back
  have hlen := h.length
  split
  · rename_i h0
    obtain rfl : l = [] := length_eq_zero_iff.1 (by lia)
    exact ⟨d, rfl, h⟩
  rename_i h0
  have hle := h.len_le
  have hread := h.read (i := d.len - 1) (by lia)
  have hphys : (VecDeque.mk d.head (d.len - 1) d.buf).to_physical_idx t none (d.len - 1) =
      phys d.buf.cap d.head (d.len - 1) := h.physical (by lia)
  have hread' : (VecDeque.mk d.head (d.len - 1) d.buf).buffer_read none
      (phys d.buf.cap d.head (d.len - 1)) = .ok l[d.len - 1] := hread
  have hlast : l.getLast? = some l[d.len - 1] := by
    rw [getLast?_eq_getElem?, getElem?_eq_getElem (by lia)]
    simp only [hlen]
  simp only [hphys, hread', bind_ok, hlast]
  refine ⟨_, rfl, ⟨?_, ?_, h.head_lt, h.cap_le, fun i hi => ?_⟩⟩
  · simp [hlen]
  · exact (Nat.sub_le _ _).trans hle
  · simp only at hi ⊢
    rw [getElem?_dropLast, if_pos (by lia), ← h.cells i (by lia)]

end RustStd.VecDeque
