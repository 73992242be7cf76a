import RustStd.VecDeque.Slices

/-!
# Ring buffers of zero-sized elements

Nothing is stored, the capacity is `usize::MAX` and the buffer never grows: only the length and the
head are left. The element type has the one value `u`, so a list of elements is its length.
-/

namespace RustStd.VecDeque

open List Exec

variable {α : Type} {t : Target} {u : α}

/-- The deque holds the list `l`, which its length determines. -/
structure ZeroSized (t : Target) (d : VecDeque α) (l : List α) : Prop where
  length : l.length = d.len
  len_le : d.len ≤ t.usizeMax
  head_lt : d.head < t.usizeMax

/-- Lists of the one value are equal when their lengths are. -/
theorem list_eq_of_length (hu : ∀ x, x = u) {l l' : List α}
    (h : l.length = l'.length) : l = l' := by
  rw [eq_replicate_of_mem fun x (_ : x ∈ l) => hu x, h,
    ← eq_replicate_of_mem fun x (_ : x ∈ l') => hu x]

theorem option_eq_of_isSome (hu : ∀ x, x = u) {o o' : Option α} (h : o.isSome = o'.isSome) :
    o = o' := by
  match o, o' with
  | none, none => rfl
  | some x, some y => rw [hu x, hu y]
  | none, some _ | some _, none => cases h

theorem wrap_index_lt {i cap : ℕ} (hi : i ≤ cap) (hcap : 0 < cap) : wrap_index i cap < cap := by
  unfold wrap_index
  split <;> lia

theorem usizeMax_pos (t : Target) : 0 < t.usizeMax := by
  have := t.two_mul_isizeMax
  have : t.usizeMax = t.usizeCard - 1 := rfl
  lia

theorem wrap_le_usizeMax (t : Target) (n : ℕ) : t.wrap n ≤ t.usizeMax := by
  have := t.two_mul_isizeMax
  have : t.wrap n < t.usizeCard := Nat.mod_lt _ (by lia)
  have : t.usizeMax = t.usizeCard - 1 := rfl
  lia

variable (d : VecDeque α)
include d

/-- Whatever wraps around in `usize`, a position is below the capacity. -/
theorem wrap_add_lt (i j : ℕ) : d.wrap_add t (some u) i j < t.usizeMax :=
  wrap_index_lt (wrap_le_usizeMax t _) (usizeMax_pos t)

theorem wrap_sub_lt (i j : ℕ) : d.wrap_sub t (some u) i j < t.usizeMax :=
  wrap_index_lt (wrap_le_usizeMax t _) (usizeMax_pos t)

@[simp] theorem buffer_read_some (off : ℕ) : d.buffer_read (some u) off = .ok u := rfl

@[simp] theorem write_slice_some (dst : ℕ) (xs : List α) :
    d.write_slice (some u) dst xs = .ok d := rfl

@[simp] theorem buffer_write_some (off : ℕ) (x : α) : d.buffer_write (some u) off x = .ok d := rfl

@[simp] theorem wrap_copy_some (src dst len : ℕ) :
    d.wrap_copy t (some u) src dst len = .ok d := by simp [wrap_copy]

theorem buffer_range_some (start n : ℕ) :
    d.buffer_range (some u) start n = .ok (replicate n u) := by
  induction n generalizing start with
  | zero => rfl
  | succ n ih => simp [buffer_range, ih, replicate_succ]

omit d

namespace ZeroSized

variable {d : VecDeque α} {l : List α}

theorem nil (d : VecDeque α) : ZeroSized t { d with head := 0, len := 0 } ([] : List α) :=
  ⟨rfl, Nat.zero_le _, usizeMax_pos t⟩

variable (h : ZeroSized t d l)
include h

/-- Making room for one more element. -/
theorem room (c : ℕ) : PanicsOr (t.usizeMax < l.length + 1)
    (if d.is_full t (some u) then d.grow t (some u) c else .ok d) fun d' =>
      d' = d ∧ l.length + 1 ≤ t.usizeMax := by
  have hlen := h.length
  have hle := h.len_le
  have hfull : d.is_full t (some u) = true ↔ d.len = t.usizeMax := by simp [is_full, capacity]
  by_cases hmax : d.len = t.usizeMax
  · exact Or.inl ⟨by lia, by rw [if_pos (hfull.2 hmax)]; simp [VecDeque.grow]⟩
  · exact Or.inr ⟨d, if_neg (hfull.not.2 hmax), rfl, by lia⟩

theorem reserve (additional c : ℕ) : (t.usizeMax < l.length + additional ∧
      d.reserve t (some u) additional c = .error .panic) ∨
    d.reserve t (some u) additional c = .ok d := by
  have hlen := h.length
  unfold VecDeque.reserve
  by_cases hmax : d.len + additional > t.usizeMax
  · exact Or.inl ⟨by lia, if_pos hmax⟩
  · rw [if_neg hmax]
    exact Or.inr (by simp [capacity, if_neg hmax])

theorem push_back (x : α) (c : ℕ) :
    PanicsOr (t.usizeMax < l.length + 1) (d.push_back t (some u) x c) fun d' =>
      ZeroSized t d' (l ++ [x]) := by
  have hlen := h.length
  refine (h.room (u := u) c).bind id ?_
  rintro _ ⟨rfl, hmax⟩
  exact .ok ⟨by simp [hlen], by simp only; lia, h.head_lt⟩

theorem push_front (x : α) (c : ℕ) :
    PanicsOr (t.usizeMax < l.length + 1) (d.push_front t (some u) x c) fun d' =>
      ZeroSized t d' (x :: l) := by
  have hlen := h.length
  refine (h.room (u := u) c).bind id ?_
  rintro _ ⟨rfl, hmax⟩
  exact .ok ⟨by simp [hlen], by simp only; lia, wrap_sub_lt _ _ _⟩

omit h

theorem pop_front (hu : ∀ x, x = u) (h : ZeroSized t d l) :
    ∃ d', d.pop_front t (some u) = .ok (d', l.head?) ∧ ZeroSized t d' l.tail := by
  have hlen := h.length
  have hle := h.len_le
  unfold VecDeque.pop_front
  match l, h, hlen with
  | [], h, hlen =>
    rw [if_pos (show d.len = 0 from hlen.symm)]
    exact ⟨d, rfl, h⟩
  | x :: l, h, hlen =>
    rw [length_cons] at hlen
    rw [if_neg (by lia), hu x]
    exact ⟨_, rfl, by simp only [tail_cons]; lia, by simp only; lia, wrap_add_lt d _ _⟩

theorem pop_back (hu : ∀ x, x = u) (h : ZeroSized t d l) :
    ∃ d', d.pop_back t (some u) = .ok (d', l.getLast?) ∧ ZeroSized t d' l.dropLast := by
  have hlen := h.length
  have hle := h.len_le
  unfold VecDeque.pop_back
  by_cases h0 : d.len = 0
  · obtain rfl : l = [] := length_eq_zero_iff.1 (by lia)
    rw [if_pos h0]
    exact ⟨d, rfl, h⟩
  · have hlast : l.getLast? = some u := option_eq_of_isSome hu (by
      rw [getLast?_eq_getElem?, getElem?_eq_getElem (by lia)]
      rfl)
    rw [if_neg h0, hlast]
    exact ⟨_, rfl, by rw [length_dropLast, hlen], by simp only; lia, h.head_lt⟩

theorem swap (h : ZeroSized t d l) {i j : ℕ} (hi : i < l.length) (hj : j < l.length) :
    d.swap t (some u) i j = .ok d := by
  have hlen := h.length
  unfold VecDeque.swap
  rw [if_pos ⟨by lia, by lia⟩]
  simp

theorem swap_remove_front (hu : ∀ x, x = u) (h : ZeroSized t d l) (i : ℕ) :
    ∃ d', d.swap_remove_front t (some u) i = .ok (d', (swapRemoveFront l i).2) ∧
      ZeroSized t d' (swapRemoveFront l i).1 := by
  have hlen := h.length
  unfold VecDeque.swap_remove_front swapRemoveFront
  by_cases hi : i < l.length
  · obtain ⟨d', hd', hs⟩ := h.pop_front hu
    have hhead : l.head? = some l[i] := option_eq_of_isSome hu (by
      rw [head?_eq_getElem?, getElem?_eq_getElem (by lia)]
      rfl)
    rw [hhead] at hd'
    rw [getElem?_eq_getElem hi]
    refine ⟨d', ?_, ?_⟩
    · by_cases hne : i = 0
      · rw [if_neg (by lia), if_neg (by lia)]
        exact hd'
      · rw [if_pos ⟨by lia, hne⟩, h.swap hi (by lia)]
        exact hd'
    · rwa [show l.tail = ((l.set i (l.headD l[i])).set 0 l[i]).tail from
        list_eq_of_length hu (by simp)] at hs
  · rw [getElem?_eq_none (by lia), if_neg (by lia), if_pos (by lia)]
    exact ⟨d, rfl, h⟩

theorem swap_remove_back (hu : ∀ x, x = u) (h : ZeroSized t d l) (i : ℕ) :
    ∃ d', d.swap_remove_back t (some u) i = .ok (d', (swapRemoveBack l i).2) ∧
      ZeroSized t d' (swapRemoveBack l i).1 := by
  have hlen := h.length
  unfold VecDeque.swap_remove_back swapRemoveBack
  by_cases hi : i < l.length
  · obtain ⟨d', hd', hs⟩ := h.pop_back hu
    have hlast : l.getLast? = some l[i] := option_eq_of_isSome hu (by
      rw [getLast?_eq_getElem?, getElem?_eq_getElem (by lia)]
      rfl)
    rw [hlast] at hd'
    rw [getElem?_eq_getElem hi]
    refine ⟨d', ?_, ?_⟩
    · by_cases hne : i = l.length - 1
      · rw [if_neg (by lia), if_neg (by lia)]
        exact hd'
      · rw [if_pos ⟨by lia, by lia⟩, h.swap hi (by lia)]
        exact hd'
    · rwa [show l.dropLast = ((l.set i (l.getLastD l[i])).set (l.length - 1) l[i]).dropLast from
        list_eq_of_length hu (by simp)] at hs
  · rw [getElem?_eq_none (by lia), if_neg (by lia), if_pos (by lia)]
    exact ⟨d, rfl, h⟩

theorem insert (h : ZeroSized t d l) {index : ℕ} (hi : index ≤ l.length) (x : α) (c : ℕ) :
    PanicsOr (t.usizeMax < l.length + 1) (d.insert t (some u) index x c) fun d' =>
      ZeroSized t d' (l.insertIdx index x) := by
  have hlen := h.length
  have hleni : (l.insertIdx index x).length = d.len + 1 := by
    rw [length_insertIdx_of_le_length hi, hlen]
  unfold VecDeque.insert
  rw [if_pos (by lia)]
  refine (h.room (u := u) c).bind id ?_
  rintro _ ⟨rfl, hmax⟩
  simp only [wrap_copy_some, buffer_write_some, bind_ok]
  split
  · exact .ok ⟨hleni, by simp only; lia, h.head_lt⟩
  · exact .ok ⟨hleni, by simp only; lia, wrap_sub_lt _ _ _⟩

theorem remove (hu : ∀ x, x = u) (h : ZeroSized t d l) (index : ℕ) :
    ∃ d', d.remove t (some u) index = .ok (d', l[index]?) ∧ ZeroSized t d' (l.eraseIdx index) := by
  have hlen := h.length
  have hle := h.len_le
  unfold VecDeque.remove
  by_cases hi : d.len ≤ index
  · rw [if_pos hi, getElem?_eq_none (by lia), eraseIdx_of_length_le (by lia)]
    exact ⟨d, rfl, h⟩
  · have hleni : (l.eraseIdx index).length = d.len - 1 := by
      rw [length_eraseIdx_of_lt (by lia), hlen]
    rw [if_neg hi, getElem?_eq_getElem (by lia), hu l[index]]
    simp only [wrap_copy_some, buffer_read_some, bind_ok]
    split
    · exact ⟨_, rfl, hleni, by simp only; lia, h.head_lt⟩
    · exact ⟨_, rfl, hleni, by simp only; lia, wrap_add_lt d _ _⟩

theorem rotate_left (h : ZeroSized t d l) {n : ℕ} (hn : n ≤ l.length) :
    ∃ d', d.rotate_left t (some u) n = .ok d' ∧ ZeroSized t d' (l.rotate n) := by
  have hlen := h.length
  unfold VecDeque.rotate_left
  rw [if_pos (by lia)]
  simp only [rotate_left_inner, rotate_right_inner, wrap_copy_some, bind_ok]
  split
  · exact ⟨_, rfl, by simp [hlen], h.len_le, wrap_add_lt d _ _⟩
  · exact ⟨_, rfl, by simp [hlen], h.len_le, wrap_sub_lt d _ _⟩

theorem rotate_right (h : ZeroSized t d l) {n : ℕ} (hn : n ≤ l.length) :
    ∃ d', d.rotate_right t (some u) n = .ok d' ∧ ZeroSized t d' (l.rotate (l.length - n)) := by
  have hlen := h.length
  unfold VecDeque.rotate_right
  rw [if_pos (by lia)]
  simp only [rotate_left_inner, rotate_right_inner, wrap_copy_some, bind_ok]
  split
  · exact ⟨_, rfl, by simp [hlen], h.len_le, wrap_sub_lt d _ _⟩
  · exact ⟨_, rfl, by simp [hlen], h.len_le, wrap_add_lt d _ _⟩

/-! ## Slices -/

variable (hu : ∀ x, x = u)
include h hu

/-- The two slices are as long as for elements with a size. -/
theorem as_slices :
    d.as_slices t (some u) = .ok (l.take (t.usizeMax - d.head), l.drop (t.usizeMax - d.head)) := by
  have hlen := h.length
  have hstart : d.to_physical_idx t (some u) 0 = d.head := by
    have := h.head_lt
    have hmax : t.usizeMax = t.usizeCard - 1 := rfl
    rw [to_physical_idx, wrap_add, Nat.add_zero, Target.wrap_of_lt (by lia)]
    exact if_neg (not_le.2 this)
  unfold VecDeque.as_slices slice_ranges
  simp only [buffer_range_some, hstart, capacity, Option.isSome_some, if_true, bind_ok,
    Nat.sub_zero]
  congr 2
  · refine list_eq_of_length hu ?_
    rw [length_replicate, length_take]
    split_ifs <;> simp only <;> lia
  · refine list_eq_of_length hu ?_
    rw [length_replicate, length_drop]
    split_ifs <;> simp only <;> lia

theorem truncate (len : ℕ) :
    ∃ d', d.truncate t (some u) len = .ok (d', l.drop len) ∧ ZeroSized t d' (l.take len) := by
  have hlen := h.length
  have hle := h.len_le
  unfold VecDeque.truncate
  by_cases hge : len ≥ d.len
  · rw [if_pos hge, take_of_length_le (by lia), drop_of_length_le (by lia)]
    exact ⟨d, rfl, h⟩
  have htake : ZeroSized t { d with len := len } (l.take len) :=
    ⟨by simp only [length_take]; lia, by simp only; lia, h.head_lt⟩
  rw [if_neg hge, h.as_slices hu, bind_ok]
  simp only [length_take]
  split
  · refine ⟨_, ?_, htake⟩
    congr 2
    exact list_eq_of_length hu (by simp only [length_drop]; lia)
  · refine ⟨_, ?_, htake⟩
    congr 2
    refine list_eq_of_length hu ?_
    simp only [length_drop, length_take, length_append]
    lia

theorem truncate_front (len : ℕ) :
    ∃ d', d.truncate_front t (some u) len = .ok (d', l.take (l.length - len)) ∧
      ZeroSized t d' (l.drop (l.length - len)) := by
  have hlen := h.length
  have hle := h.len_le
  unfold VecDeque.truncate_front
  by_cases hge : len ≥ d.len
  · rw [if_pos hge, show l.length - len = 0 by lia]
    exact ⟨d, rfl, h⟩
  have hdrop : ∀ head, head < t.usizeMax →
      ZeroSized t { d with head := head, len := len } (l.drop (l.length - len)) :=
    fun _ hhead => ⟨by simp only [length_drop]; lia, by simp only; lia, hhead⟩
  rw [if_neg hge, h.as_slices hu, bind_ok]
  simp only [length_take, length_drop]
  split
  · refine ⟨_, ?_, hdrop (d.head + (min (t.usizeMax - d.head) l.length -
      (len - (l.length - (t.usizeMax - d.head))))) (by lia)⟩
    congr 2
    refine list_eq_of_length hu ?_
    simp only [length_take]
    lia
  · refine ⟨_, ?_, hdrop _ (wrap_add_lt (u := u) d d.head (d.len - len))⟩
    congr 2
    refine list_eq_of_length hu ?_
    simp only [length_take, length_append, length_drop]
    lia

theorem clear : ∃ d', d.clear t (some u) = .ok (d', l) ∧ ZeroSized t d' [] := by
  obtain ⟨d', hd', hs⟩ := h.truncate hu 0
  rw [drop_zero] at hd'
  exact ⟨{ d' with head := 0 }, by rw [VecDeque.clear, hd']; rfl, hs.length, hs.len_le,
    usizeMax_pos t⟩

theorem split_off {at_ : ℕ} (hat : at_ ≤ l.length) (c : ℕ) :
    ∃ r, d.split_off t (some u) at_ c = .ok r ∧ ZeroSized t r.1 (l.take at_) ∧
      ZeroSized t r.2 (l.drop at_) := by
  have hlen := h.length
  have hle := h.len_le
  unfold VecDeque.split_off
  rw [if_pos (by lia)]
  simp only [with_capacity, Option.isSome_some, true_or, if_true, bind_ok,
    h.as_slices hu, write_slice_some, ite_self]
  exact ⟨_, rfl, ⟨by simp only [length_take]; lia, by simp only; lia, h.head_lt⟩,
    ⟨by simp only [length_drop]; lia, by simp only; lia, usizeMax_pos t⟩⟩

omit h hu

theorem append {other : VecDeque α} {l' : List α} (h : ZeroSized t d l)
    (h' : ZeroSized t other l') (c : ℕ) :
    PanicsOr (t.usizeMax < l.length + l'.length) (d.append t (some u) other c) fun r =>
      ZeroSized t r.1 (l ++ l') ∧ ZeroSized t r.2 [] := by
  have hlen := h.length
  have hlen' := h'.length
  unfold VecDeque.append
  rw [if_pos (by rfl)]
  by_cases hmax : d.len + other.len > t.usizeMax
  · exact Or.inl ⟨by lia, if_pos hmax⟩
  · rw [if_neg hmax]
    exact .ok ⟨⟨by simp [hlen, hlen'], by simp only; lia, h.head_lt⟩, nil other⟩

end ZeroSized

end RustStd.VecDeque
