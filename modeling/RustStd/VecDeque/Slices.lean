import RustStd.VecDeque.Blocks

/-!
# Operations on the two slices

A ring buffer is at most two slices of cells, the second where the ring wraps around. Truncation
drops from them, and splitting and appending copy between the slices of two buffers.
-/

namespace RustStd.VecDeque

open List Nat Exec RawVec

variable {α : Type} {t : Target} {d : VecDeque α} {l : List α}

theorem buffer_range_eq {start : ℕ} {xs : List α} (hcap : start + xs.length ≤ d.buf.cap)
    (hcells : ∀ i, i < xs.length → d.buf.mem (start + i) = xs[i]?) :
    d.buffer_range none start xs.length = .ok xs := by
  induction xs generalizing start with
  | nil => rfl
  | cons x xs ih =>
    rw [length_cons] at hcap
    have hread : d.buffer_read none start = .ok x := by
      have := hcells 0 (by simp)
      rw [add_zero, getElem?_cons_zero] at this
      simp [buffer_read, this, show start < d.buf.cap by lia]
    have hrest : d.buffer_range none (start + 1) xs.length = .ok xs := by
      refine ih (by lia) fun i hi => ?_
      have := hcells (i + 1) (by simpa using hi)
      rwa [getElem?_cons_succ, show start + (i + 1) = start + 1 + i by lia] at this
    simp [buffer_range, hread, hrest]

variable (h : Sized t d l)
include h

/-- **The two slices are the list**, cut at the end of the buffer. -/
theorem Sized.as_slices : d.as_slices t none =
      .ok (l.take (d.buf.cap - d.head), l.drop (d.buf.cap - d.head)) := by
  have hlen := h.length
  have hle := h.len_le
  unfold VecDeque.as_slices slice_ranges
  simp only [Nat.sub_zero, capacity_none]
  by_cases h0 : d.len = 0
  · obtain rfl : l = [] := length_eq_zero_iff.1 (by lia)
    simp [h0, buffer_range]
  have hhead := h.head_lt.resolve_right (by lia)
  have hstart : d.to_physical_idx t none 0 = d.head := by
    rw [h.physical (Nat.zero_le _), phys_of_lt (by lia), Nat.add_zero]
  rw [if_neg h0, hstart]
  by_cases hfit : d.buf.cap - d.head ≥ d.len
  · -- the ring does not wrap
    rw [if_pos hfit, take_of_length_le (by lia), drop_of_length_le (by lia)]
    have hall : d.buffer_range none d.head l.length = .ok l := by
      refine buffer_range_eq (by lia) fun i hi => ?_
      rw [← h.cells i (by lia), phys_of_lt (by lia)]
    rw [hlen] at hall
    simp [hall, buffer_range]
  rw [if_neg hfit]
  have hfront : d.buffer_range none d.head (l.take (d.buf.cap - d.head)).length =
      .ok (l.take (d.buf.cap - d.head)) := by
    refine buffer_range_eq (by simp only [length_take]; lia) fun i hi => ?_
    rw [length_take] at hi
    rw [getElem?_take, if_pos (by lia), ← h.cells i (by lia), phys_of_lt (by lia)]
  have hback : d.buffer_range none 0 (l.drop (d.buf.cap - d.head)).length =
      .ok (l.drop (d.buf.cap - d.head)) := by
    refine buffer_range_eq (by simp only [length_drop]; lia) fun i hi => ?_
    rw [length_drop] at hi
    rw [getElem?_drop, ← h.cells _ (by lia), phys_of_ge (by lia)]
    congr 1
    lia
  rw [length_take, hlen, Nat.min_eq_left (by lia)] at hfront
  rw [length_drop, hlen] at hback
  simp [hfront, hback]

/-! ## Truncation -/

theorem Sized.take {len : ℕ} (hle : len ≤ d.len) : Sized t { d with len := len } (l.take len) := by
  have hlen := h.length
  refine ⟨by simp only [length_take]; lia, hle.trans h.len_le, h.head_lt, h.cap_le,
    fun i hi => ?_⟩
  have hi : i < len := hi
  rw [getElem?_take, if_pos hi]
  exact h.cells i (by lia)

theorem Sized.drop {len : ℕ} (hlt : len < d.len) :
    Sized t { d with head := phys d.buf.cap d.head (d.len - len), len := len }
      (l.drop (d.len - len)) := by
  have hlen := h.length
  have hle := h.len_le
  have hhead := h.head_lt.resolve_right (by lia)
  refine ⟨by simp only [length_drop]; lia, by simp only; lia,
    Or.inl (phys_lt hhead (by lia)), h.cap_le, fun i hi => ?_⟩
  have hi : i < len := hi
  rw [getElem?_drop, ← h.cells _ (by lia)]
  rw [phys_phys hhead (by lia)]

theorem Sized.truncate (len : ℕ) :
    ∃ d', d.truncate t none len = .ok (d', l.drop len) ∧ Sized t d' (l.take len) := by
  have hlen := h.length
  unfold VecDeque.truncate
  by_cases hge : len ≥ d.len
  · rw [if_pos hge, take_of_length_le (by lia), drop_of_length_le (by lia)]
    exact ⟨d, rfl, h⟩
  rw [if_neg hge, h.as_slices, bind_ok]
  refine ⟨{ d with len := len }, ?_, h.take (by lia)⟩
  simp only [length_take]
  by_cases hfront : len > min (d.buf.cap - d.head) l.length
  · rw [if_pos hfront, drop_drop]
    congr 3
    lia
  · rw [if_neg hfront]
    congr 2
    conv_rhs => rw [← take_append_drop (d.buf.cap - d.head) l]
    rw [drop_append_of_le_length (by rw [length_take]; lia)]

theorem Sized.truncate_front (len : ℕ) :
    ∃ d', d.truncate_front t none len = .ok (d', l.take (l.length - len)) ∧
      Sized t d' (l.drop (l.length - len)) := by
  have hlen := h.length
  have hle := h.len_le
  unfold VecDeque.truncate_front
  by_cases hge : len ≥ d.len
  · rw [if_pos hge, show l.length - len = 0 by lia]
    exact ⟨d, rfl, h⟩
  rw [if_neg hge, h.as_slices, bind_ok]
  have hdrop := h.drop (not_le.1 hge)
  rw [← hlen] at hdrop
  simp only [length_take, length_drop]
  by_cases hback : len > l.length - (d.buf.cap - d.head)
  · rw [if_pos hback]
    have hlast : min (d.buf.cap - d.head) l.length -
        (len - (l.length - (d.buf.cap - d.head))) = l.length - len := by lia
    rw [hlast, take_take, min_eq_left (by lia)]
    refine ⟨_, rfl, ?_⟩
    rwa [phys_of_lt (by lia)] at hdrop
  · rw [if_neg hback, h.physical (show d.len - len ≤ d.buf.cap by lia), ← hlen]
    refine ⟨_, ?_, hdrop⟩
    congr 2
    rcases le_total (d.buf.cap - d.head) l.length with hle | hle
    · rw [show l.length - len = d.buf.cap - d.head + (l.length - (d.buf.cap - d.head) - len) by lia,
        take_add]
    · rw [take_of_length_le hle, drop_of_length_le hle, take_nil, append_nil,
        take_of_length_le (by lia)]

omit h

theorem Sized.nil (hcap : d.buf.cap ≤ t.isizeMax) :
    Sized t { d with head := 0, len := 0 } ([] : List α) :=
  ⟨rfl, zero_le _, (Nat.eq_zero_or_pos _).symm.imp id fun h => ⟨rfl, h⟩, hcap,
    fun _ hi => absurd hi (not_lt_zero _)⟩

theorem Sized.clear (h : Sized t d l) : ∃ d', d.clear t none = .ok (d', l) ∧ Sized t d' [] := by
  obtain ⟨d', hd', hs⟩ := h.truncate 0
  rw [drop_zero] at hd'
  refine ⟨{ d' with head := 0 }, by rw [VecDeque.clear, hd']; rfl, ?_⟩
  have hlen : d'.len = 0 := hs.length.symm
  rw [hlen]
  exact Sized.nil hs.cap_le

/-! ## Copying between buffers -/

theorem write_slice_eq {dst : ℕ} {xs : List α} (h : dst + xs.length ≤ d.buf.cap) :
    d.write_slice none dst xs = .ok (d.withMem (written d.buf.mem dst xs)) := if_pos h

theorem Sized.with_capacity (capacity c : ℕ) :
    PanicsOr (capacity ≠ 0 ∧ t.isizeMax < max capacity c) (VecDeque.with_capacity t none capacity c)
      fun d : VecDeque α => Sized t d [] ∧ d.head = 0 ∧ capacity ≤ d.buf.cap := by
  unfold VecDeque.with_capacity
  by_cases h0 : capacity = 0
  · rw [if_pos (Or.inr h0)]
    refine .ok ⟨⟨rfl, le_rfl, Or.inr ⟨rfl, rfl⟩, zero_le _, fun i hi => ?_⟩, rfl, ?_⟩
    · exact absurd hi (not_lt_zero _)
    · rw [h0]
      exact zero_le _
  · rw [if_neg (by simp [h0])]
    unfold RawVec.grow
    by_cases hmax : max capacity c ≤ t.isizeMax
    · rw [if_pos hmax]
      refine .ok ⟨⟨rfl, zero_le _, Or.inl ?_, hmax, fun i hi => ?_⟩, rfl, le_max_left _ _⟩
      · exact (Nat.pos_of_ne_zero h0).trans_le (le_max_left _ _)
      · exact absurd hi (not_lt_zero _)
    · rw [if_neg hmax]
      exact .panic ⟨h0, not_le.1 hmax⟩

/-- `split_off` copies the elements behind the place to a new deque. -/
theorem Sized.split_off (h : Sized t d l) {at_ : ℕ} (hat : at_ ≤ l.length) (c : ℕ) :
    PanicsOr (at_ ≠ l.length ∧ t.isizeMax < max (l.length - at_) c) (d.split_off t none at_ c)
      fun r => Sized t r.1 (l.take at_) ∧ Sized t r.2 (l.drop at_) := by
  have hlen := h.length
  unfold VecDeque.split_off
  rw [if_pos (by lia)]
  refine (Sized.with_capacity (d.len - at_) c).bind (fun ⟨h0, hmax⟩ => ⟨by lia, by rwa [hlen]⟩)
    fun other ⟨hnew, hhead, hcap⟩ => ?_
  have hwritten : ∃ mem, (if at_ < (l.take (d.buf.cap - d.head)).length then do
        let other ← other.write_slice none 0 ((l.take (d.buf.cap - d.head)).drop at_)
        other.write_slice none ((l.take (d.buf.cap - d.head)).length - at_)
          (l.drop (d.buf.cap - d.head))
      else
        other.write_slice none 0
          ((l.drop (d.buf.cap - d.head)).drop (at_ - (l.take (d.buf.cap - d.head)).length))) =
        .ok (other.withMem mem) ∧ ∀ i, i < d.len - at_ → mem i = l[at_ + i]? := by
    rw [length_take]
    by_cases hfront : at_ < min (d.buf.cap - d.head) l.length
    · rw [if_pos hfront, write_slice_eq (by simp only [length_drop, length_take]; lia),
        bind_ok]
      refine ⟨_, write_slice_eq (d := other.withMem _)
        (by simp only [withMem_cap, length_drop]; lia), fun i hi => ?_⟩
      simp only [written, withMem_mem, length_drop, length_take]
      by_cases hsecond : d.buf.cap - d.head ≤ at_ + i
      · rw [if_pos (by lia), getElem?_drop]
        congr 1
        lia
      · rw [if_neg (by lia), if_pos (by lia), getElem?_drop, getElem?_take,
          if_pos (by lia), Nat.sub_zero]
    · rw [if_neg hfront]
      refine ⟨_, write_slice_eq (by simp only [length_drop]; lia), fun i hi => ?_⟩
      simp only [written, length_drop]
      rw [if_pos (by lia), getElem?_drop, getElem?_drop]
      congr 1
      lia
  obtain ⟨mem, hmem, hcells⟩ := hwritten
  simp only [bind_ok, h.as_slices, hmem]
  refine .ok ⟨h.take (by lia), ⟨by simp only [length_drop]; lia, hcap,
    hnew.head_lt, hnew.cap_le, fun i hi => ?_⟩⟩
  simp only [withMem] at hi ⊢
  rw [getElem?_drop, hhead, phys_of_lt (by lia), zero_add]
  exact hcells i hi

theorem copy_slice_nil {dst : ℕ} (h : dst ≤ d.buf.cap) : d.copy_slice t none dst [] = .ok d := by
  have hsame : written d.buf.mem dst [] = d.buf.mem := by
    funext i
    exact if_neg (by simp only [length_nil]; lia)
  rw [copy_slice, if_pos (by simp), write_slice_eq h, hsame]
  rfl

/-- Copying a slice to the cells from the place `a` after a head on. -/
theorem copy_slice_phys {head : ℕ} (hh : head < d.buf.cap) (a : ℕ) (xs : List α)
    (ha : a + xs.length ≤ d.buf.cap) :
    ∃ mem, d.copy_slice t none (phys d.buf.cap head a) xs = .ok (d.withMem mem) ∧
      ∀ m, m < d.buf.cap → mem (phys d.buf.cap head m) =
        if a ≤ m ∧ m < a + xs.length then xs[m - a]? else d.buf.mem (phys d.buf.cap head m) := by
  unfold VecDeque.copy_slice
  simp only [capacity_none]
  have hdst := phys_lt hh (show a ≤ d.buf.cap by lia)
  by_cases hfit : xs.length ≤ d.buf.cap - phys d.buf.cap head a
  · rw [if_pos hfit]
    refine ⟨_, write_slice_eq (by lia), fun m hm => ?_⟩
    simp only [written]
    unfold phys at hfit hdst ⊢
    split_ifs at * <;> first | lia | rfl | (congr 1; lia)
  · rw [if_neg hfit, write_slice_eq (by simp only [length_take]; lia), bind_ok]
    refine ⟨_, write_slice_eq (d := d.withMem _)
      (by simp only [withMem_cap, length_drop]; lia), fun m hm => ?_⟩
    simp only [written, withMem_mem, length_drop, length_take, getElem?_drop, getElem?_take]
    unfold phys at hfit hdst ⊢
    split_ifs at * <;> first | lia | rfl | (congr 1; lia)

/-- `append` moves both slices of the other deque behind the elements. -/
theorem Sized.append {d other : VecDeque α} {l l' : List α} (h : Sized t d l)
    (h' : Sized t other l') (c : ℕ) :
    PanicsOr (t.isizeMax < max (l.length + l'.length) c) (d.append t none other c) fun r =>
      Sized t r.1 (l ++ l') ∧ Sized t r.2 [] := by
  have hlen' := h'.length
  unfold VecDeque.append
  simp only [Option.isSome_none, Bool.false_eq_true, if_false]
  refine (h.reserve other.len c).bind (by lia) fun d ⟨h, hroom⟩ => ?_
  have hlen := h.length
  have hcap := h.cap_le
  have hempty := Sized.nil (d := other) h'.cap_le
  rw [h'.as_slices, bind_ok]
  simp only [h.physical (show d.len ≤ d.buf.cap by lia)]
  rcases h.head_lt with hhead | ⟨hhead, h0⟩
  · have hleft : (l'.take (other.buf.cap - other.head)).length ≤ other.len := by
      simp only [length_take]
      lia
    have hsum : (l'.take (other.buf.cap - other.head)).length +
        (l'.drop (other.buf.cap - other.head)).length = other.len := by
      simp only [length_take, length_drop]
      lia
    obtain ⟨mem, hcopy, hmem⟩ := copy_slice_phys (t := t) (d := d) hhead d.len
      (l'.take (other.buf.cap - other.head)) (by lia)
    obtain ⟨mem', hcopy', hmem'⟩ := copy_slice_phys (t := t) (d := d.withMem mem) hhead
      (d.len + (l'.take (other.buf.cap - other.head)).length)
      (l'.drop (other.buf.cap - other.head)) (by simp only [withMem_cap]; lia)
    have hphys : (d.withMem mem).to_physical_idx t none
        (d.len + (l'.take (other.buf.cap - other.head)).length) =
        phys d.buf.cap d.head (d.len + (l'.take (other.buf.cap - other.head)).length) :=
      h.physical (by lia)
    simp only [withMem_cap, withMem_mem, withMem_withMem] at hcopy' hmem'
    rw [hcopy, bind_ok]
    simp only [show (d.withMem mem).len = d.len from rfl, hphys, hcopy', bind_ok]
    refine .ok ⟨⟨by simp [withMem, hlen, hlen'], hroom, Or.inl hhead, hcap, fun m hm => ?_⟩, hempty⟩
    simp only [withMem] at hm ⊢
    rw [hmem' m (by lia), hmem m (by lia), getElem?_append, hlen]
    by_cases hml : m < d.len
    · rw [if_neg (by lia), if_neg (by lia), if_pos hml, h.cells m hml]
    rw [if_neg hml]
    by_cases hmr : d.len + (l'.take (other.buf.cap - other.head)).length ≤ m
    · rw [if_pos (by lia), getElem?_drop]
      rw [length_take] at hmr ⊢
      congr 1
      lia
    · rw [if_neg (by lia), if_pos (by lia), getElem?_take, if_pos]
      rw [length_take] at hmr
      lia
  · -- nothing is allocated: both are empty
    have hl : l = [] := length_eq_zero_iff.1 (by lia)
    have hl' : l' = [] := length_eq_zero_iff.1 (by lia)
    subst hl hl'
    have hother0 : other.len = 0 := hlen'.symm
    have hphys : phys d.buf.cap d.head d.len ≤ d.buf.cap := by
      rw [phys_of_ge (by lia)]
      lia
    have hphys' : d.to_physical_idx t none d.len ≤ d.buf.cap := by
      rwa [h.physical (by lia)]
    rw [take_nil, drop_nil, copy_slice_nil hphys, bind_ok]
    simp only [length_nil, add_zero, copy_slice_nil hphys', bind_ok, hother0]
    exact .ok ⟨h, hempty⟩

end RustStd.VecDeque
