import RustStd.VecDeque.Sized
import Mathlib.Data.List.Rotate

/-!
# Operations that move blocks

Insertion, removal, rotation, truncation, splitting and appending on ring buffers of sized elements.
Positions are counted from a head: a wrapping copy between two blocks that do not pass the end of
the ring, so counted, is a plain copy of a block (`wrap_copy_phys`). Where an operation moves the
head, the count is from whichever of the old and the new head makes this so.
-/

namespace RustStd.VecDeque

open List Nat Exec

variable {α : Type} {t : Target} {d : VecDeque α} {l : List α}

theorem phys_inj {cap head i j : ℕ} (hi : i < cap) (hj : j < cap)
    (h : phys cap head i = phys cap head j) : i = j := by
  unfold phys at h
  split_ifs at h <;> lia

theorem dist_phys {cap head b m : ℕ} (hh : head < cap) (hb : b < cap) (hm : m < cap) :
    dist cap (phys cap head b) (phys cap head m) = if b ≤ m then m - b else m + cap - b := by
  unfold dist phys
  split_ifs <;> lia

theorem phys_phys {cap head a i : ℕ} (hh : head < cap) (h : a + i ≤ cap) :
    phys cap (phys cap head a) i = phys cap head (a + i) := by
  unfold phys
  split_ifs <;> lia

/-- A head moved back by `k` is `k` places before the old one. -/
theorem phys_back {cap head k i : ℕ} (hh : head < cap) (hk : k ≤ cap) (h : k + i < cap) :
    phys cap (phys cap head (cap - k)) (k + i) = phys cap head i := by
  unfold phys
  split_ifs <;> lia

/-- **A wrapping copy between blocks counted from a head.** -/
theorem wrap_copy_phys (hcap : d.buf.cap ≤ t.isizeMax) {head : ℕ}
    (hh : head < d.buf.cap) (a b len : ℕ) (ha : a + len ≤ d.buf.cap) (hb : b + len ≤ d.buf.cap) :
    ∃ mem, d.wrap_copy t none (phys d.buf.cap head a) (phys d.buf.cap head b) len =
        .ok (d.withMem mem) ∧
      ∀ m, m < d.buf.cap → mem (phys d.buf.cap head m) =
        if b ≤ m ∧ m < b + len then d.buf.mem (phys d.buf.cap head (a + (m - b)))
        else d.buf.mem (phys d.buf.cap head m) := by
  rcases Nat.eq_zero_or_pos len with rfl | h0
  · refine ⟨d.buf.mem, by simp [wrap_copy]; rfl, fun m _ => ?_⟩
    rw [if_neg (by lia)]
  have hover : dist d.buf.cap (phys d.buf.cap head a) (phys d.buf.cap head b) + len ≤ d.buf.cap ∨
      dist d.buf.cap (phys d.buf.cap head b) (phys d.buf.cap head a) + len ≤ d.buf.cap := by
    rw [dist_phys hh (by lia) (by lia), dist_phys hh (by lia) (by lia)]
    split_ifs <;> lia
  obtain ⟨mem, hcopy, hmem⟩ := wrap_copy_spec hcap (phys_lt hh (by lia : a ≤ d.buf.cap))
    (phys_lt hh (by lia : b ≤ d.buf.cap)) hover
  refine ⟨mem, hcopy, fun m hm => ?_⟩
  rw [hmem _ (phys_lt hh hm.le), ringMoved, dist_phys hh (by lia) hm]
  by_cases hbm : b ≤ m
  · rw [if_pos hbm]
    by_cases hlt : m < b + len
    · rw [if_pos (by lia), if_pos ⟨hbm, hlt⟩, phys_phys hh (by lia)]
    · rw [if_neg (by lia), if_neg (fun h => hlt h.2)]
  · rw [if_neg hbm, if_neg (by lia), if_neg (fun h => hbm h.1)]

/-! ## Swapping -/

variable (h : Sized t d l)
include h

theorem Sized.swap {i j : ℕ} (hi : i < l.length) (hj : j < l.length) :
    ∃ d', d.swap t none i j = .ok d' ∧ Sized t d' ((l.set i l[j]).set j l[i]) := by
  have hlen := h.length
  have hle := h.len_le
  have hhead := h.head_lt.resolve_right (by lia)
  have hpi := phys_lt hhead (show i ≤ d.buf.cap by lia)
  have hpj := phys_lt hhead (show j ≤ d.buf.cap by lia)
  unfold VecDeque.swap
  rw [if_pos ⟨by lia, by lia⟩]
  simp only [h.physical (show i ≤ d.buf.cap by lia), h.physical (show j ≤ d.buf.cap by lia),
    h.read hi, h.read hj, bind_ok]
  rw [buffer_write_eq hpi, bind_ok]
  refine ⟨_, buffer_write_eq (d := d.withMem fun k =>
    if k = phys d.buf.cap d.head i then some l[j] else d.buf.mem k) hpj _,
    ⟨by simp [withMem, hlen], hle, Or.inl hhead, h.cap_le, fun m hm => ?_⟩⟩
  have hm : m < d.len := hm
  have hinj : ∀ k, k < d.len → (phys d.buf.cap d.head m = phys d.buf.cap d.head k ↔ m = k) :=
    fun k hk => ⟨phys_inj (by lia) (by lia), fun he => by rw [he]⟩
  simp only [withMem, getElem?_set, length_set]
  by_cases hmj : m = j
  · subst hmj
    simp [hj]
  · rw [if_neg ((hinj j (by lia)).not.2 hmj), if_neg (Ne.symm hmj)]
    by_cases hmi : m = i
    · subst hmi
      simp [hi]
    · rw [if_neg ((hinj i (by lia)).not.2 hmi), if_neg (Ne.symm hmi)]
      exact h.cells m hm

/-- The list after `swap_remove_front`. -/
def swapRemoveFront (l : List α) (i : ℕ) : List α × Option α :=
  match l[i]? with
  | none => (l, none)
  | some x => (((l.set i (l.headD x)).set 0 x).tail, some x)

/-- The list after `swap_remove_back`. -/
def swapRemoveBack (l : List α) (i : ℕ) : List α × Option α :=
  match l[i]? with
  | none => (l, none)
  | some x => (((l.set i (l.getLastD x)).set (l.length - 1) x).dropLast, some x)

theorem Sized.swap_remove_front (i : ℕ) :
    ∃ d', d.swap_remove_front t none i = .ok (d', (swapRemoveFront l i).2) ∧
      Sized t d' (swapRemoveFront l i).1 := by
  have hlen := h.length
  unfold VecDeque.swap_remove_front swapRemoveFront
  by_cases hi : i < l.length
  · rw [getElem?_eq_getElem hi]
    have h0 : 0 < l.length := by lia
    have hhead : l.headD l[i] = l[0] := by
      rw [headD_eq_head?_getD, head?_eq_getElem?, getElem?_eq_getElem h0]
      rfl
    by_cases hne : i = 0
    · subst hne
      rw [if_neg (by lia), if_neg (by lia)]
      obtain ⟨d', hd', hs⟩ := h.pop_front
      refine ⟨d', ?_, ?_⟩
      · rw [hd', head?_eq_getElem?, getElem?_eq_getElem h0]
      · show Sized t d' ((l.set 0 (l.headD l[0])).set 0 l[0]).tail
        rw [hhead, set_getElem_self, set_getElem_self]
        exact hs
    · rw [if_pos ⟨by lia, hne⟩]
      obtain ⟨d1, hd1, hs1⟩ := h.swap hi h0
      obtain ⟨d', hd', hs⟩ := hs1.pop_front
      refine ⟨d', ?_, ?_⟩
      · rw [hd1, bind_ok, hd', head?_eq_getElem?]
        simp [h0]
      · show Sized t d' ((l.set i (l.headD l[i])).set 0 l[i]).tail
        rw [hhead]
        exact hs
  · rw [getElem?_eq_none (by lia), if_neg (by lia), if_pos (by lia)]
    exact ⟨d, rfl, h⟩

theorem Sized.swap_remove_back (i : ℕ) :
    ∃ d', d.swap_remove_back t none i = .ok (d', (swapRemoveBack l i).2) ∧
      Sized t d' (swapRemoveBack l i).1 := by
  have hlen := h.length
  unfold VecDeque.swap_remove_back swapRemoveBack
  by_cases hi : i < l.length
  · rw [getElem?_eq_getElem hi]
    have h0 : l.length - 1 < l.length := by lia
    have hlast : l.getLastD l[i] = l[l.length - 1] := by
      rw [getLastD_eq_getLast?, getLast?_eq_getElem?, getElem?_eq_getElem h0]
      rfl
    by_cases hne : i = l.length - 1
    · rw [if_neg (by lia), if_neg (by lia)]
      obtain ⟨d', hd', hs⟩ := h.pop_back
      refine ⟨d', ?_, ?_⟩
      · rw [hd', getLast?_eq_getElem?, getElem?_eq_getElem h0]
        simp only [hne]
      · subst hne
        show Sized t d' ((l.set (l.length - 1) (l.getLastD l[l.length - 1])).set (l.length - 1)
          l[l.length - 1]).dropLast
        rw [hlast, set_getElem_self, set_getElem_self]
        exact hs
    · rw [if_pos ⟨by lia, by lia⟩]
      obtain ⟨d1, hd1, hs1⟩ := h.swap hi h0
      obtain ⟨d', hd', hs⟩ := hs1.pop_back
      refine ⟨d', ?_, ?_⟩
      · rw [← hlen, hd1, bind_ok, hd', getLast?_eq_getElem?]
        simp [h0]
      · show Sized t d' ((l.set i (l.getLastD l[i])).set (l.length - 1) l[i]).dropLast
        rw [hlast]
        exact hs
  · rw [getElem?_eq_none (by lia), if_neg (by lia), if_pos (by lia)]
    exact ⟨d, rfl, h⟩

/-! ## Insertion and removal -/

/-- The shorter side makes room, whichever end that is. -/
theorem Sized.insert {index : ℕ} (hi : index ≤ l.length) (x : α) (c : ℕ) :
    PanicsOr (t.isizeMax < max (l.length + 1) c) (d.insert t none index x c) fun d' =>
      Sized t d' (l.insertIdx index x) := by
  unfold VecDeque.insert
  rw [if_pos (by have := h.length; lia)]
  refine (h.room c).bind id fun d ⟨h, hlt⟩ => ?_
  have hlen := h.length
  have hcap := h.cap_le
  have hhead := h.head_lt.resolve_right (by lia)
  have hleni : (l.insertIdx index x).length = d.len + 1 := by
    rw [length_insertIdx_of_le_length hi, hlen]
  dsimp only
  by_cases hk : d.len - index < index
  · -- the tail moves one place up
    rw [if_pos hk, h.physical (show index ≤ d.buf.cap by lia),
      h.physical (show index + 1 ≤ d.buf.cap by lia)]
    obtain ⟨mem, hcopy, hmem⟩ := wrap_copy_phys (t := t) (d := d) hcap hhead
      index (index + 1) (d.len - index) (by lia) (by lia)
    have hphys : (VecDeque.mk d.head (d.len + 1) ⟨mem, d.buf.cap⟩).to_physical_idx t none index =
        phys d.buf.cap d.head index := h.physical (by lia)
    rw [hcopy, bind_ok]
    simp only [withMem, hphys]
    rw [buffer_write_eq (d := ⟨d.head, d.len + 1, ⟨mem, d.buf.cap⟩⟩) (phys_lt hhead
      (show index ≤ d.buf.cap by lia))]
    refine .ok ⟨hleni, hlt, Or.inl hhead, hcap, fun m hm => ?_⟩
    simp only [withMem] at hm ⊢
    rw [getElem?_insertIdx]
    rcases lt_trichotomy m index with hmi | rfl | hmi
    · rw [if_neg fun he => by have := phys_inj (by lia) (by lia) he; lia,
        hmem m (by lia), if_neg (by lia), if_pos hmi, h.cells m (by lia)]
    · rw [if_pos rfl, if_neg (lt_irrefl _), if_pos rfl, if_pos hi]
    · rw [if_neg fun he => by have := phys_inj (by lia) (by lia) he; lia,
        hmem m (by lia), if_pos (by lia), if_neg (by lia), if_neg (by lia),
        show index + (m - (index + 1)) = m - 1 by lia, h.cells (m - 1) (by lia)]
  -- the head moves one place down; places are counted from the new head
  rw [if_neg hk, wrap_sub_eq hcap hhead.le (show 1 ≤ d.buf.cap by lia)]
  have hhead' := phys_lt hhead (show d.buf.cap - 1 ≤ d.buf.cap by lia)
  have hback : ∀ i, 1 + i < d.buf.cap →
      phys d.buf.cap (phys d.buf.cap d.head (d.buf.cap - 1)) (1 + i) = phys d.buf.cap d.head i :=
    fun i hi => phys_back hhead (by lia) hi
  generalize phys d.buf.cap d.head (d.buf.cap - 1) = head' at hhead' hback ⊢
  have hindex : index = 0 ∨ (0 < index ∧ phys d.buf.cap head' 1 = d.head) := by
    rcases Nat.eq_zero_or_pos index with h0 | h0
    · exact Or.inl h0
    · refine Or.inr ⟨h0, ?_⟩
      have := hback 0 (by lia)
      rw [this, phys_of_lt (by lia)]
      rfl
  have hzero : phys d.buf.cap head' 0 = head' := phys_of_lt (by lia)
  obtain ⟨mem, hcopy, hmem⟩ : ∃ mem,
      (VecDeque.mk head' d.len d.buf).wrap_copy t none d.head head' index =
        .ok ⟨head', d.len, ⟨mem, d.buf.cap⟩⟩ ∧
      ∀ m, m < d.buf.cap → mem (phys d.buf.cap head' m) =
        if 0 ≤ m ∧ m < 0 + index then d.buf.mem (phys d.buf.cap head' (1 + (m - 0)))
        else d.buf.mem (phys d.buf.cap head' m) := by
    rcases hindex with h0 | ⟨h0, hphys⟩
    · refine ⟨d.buf.mem, by simp [wrap_copy, h0], fun m _ => ?_⟩
      rw [if_neg (by lia)]
    · have := wrap_copy_phys (t := t) (d := ⟨head', d.len, d.buf⟩) hcap hhead' 1 0 index
        (by simp only; lia) (by simp only; lia)
      simpa only [hphys, hzero, withMem] using this
  have hphys : (VecDeque.mk head' (d.len + 1) ⟨mem, d.buf.cap⟩).to_physical_idx t none index =
      phys d.buf.cap head' index := wrap_add_eq (by simp only; lia)
  rw [hcopy, bind_ok]
  simp only [hphys]
  rw [buffer_write_eq (d := ⟨head', d.len + 1, ⟨mem, d.buf.cap⟩⟩) (phys_lt hhead'
    (show index ≤ d.buf.cap by lia))]
  refine .ok ⟨hleni, hlt, Or.inl hhead', hcap, fun m hm => ?_⟩
  simp only [withMem] at hm ⊢
  rw [getElem?_insertIdx]
  rcases lt_trichotomy m index with hmi | rfl | hmi
  · rw [if_neg fun he => by have := phys_inj (by lia) (by lia) he; lia,
      hmem m (by lia), if_pos (by lia), if_pos hmi, hback _ (by lia),
      h.cells _ (by lia), Nat.sub_zero]
  · rw [if_pos rfl, if_neg (lt_irrefl _), if_pos rfl, if_pos hi]
  · rw [if_neg fun he => by have := phys_inj (by lia) (by lia) he; lia,
      hmem m (by lia), if_neg (by lia), if_neg (by lia), if_neg (by lia)]
    obtain ⟨k, rfl⟩ : ∃ k, m = 1 + k := ⟨m - 1, by lia⟩
    rw [hback k (by lia), h.cells k (by lia), Nat.add_sub_cancel_left]

/-- The shorter side closes the gap, whichever end that is. -/
theorem Sized.remove (index : ℕ) :
    ∃ d', d.remove t none index = .ok (d', l[index]?) ∧ Sized t d' (l.eraseIdx index) := by
  have hlen := h.length
  have hle := h.len_le
  have hcap := h.cap_le
  unfold VecDeque.remove
  by_cases hi : d.len ≤ index
  · rw [if_pos hi, getElem?_eq_none (by lia), eraseIdx_of_length_le (by lia)]
    exact ⟨d, rfl, h⟩
  have hi' : index < l.length := by lia
  have hhead := h.head_lt.resolve_right (by lia)
  have hleni : (l.eraseIdx index).length = d.len - 1 := by
    rw [length_eraseIdx_of_lt hi', hlen]
  rw [if_neg hi]
  simp only [h.physical (show index ≤ d.buf.cap by lia), h.read hi', bind_ok,
    getElem?_eq_getElem hi']
  by_cases hk : d.len - index - 1 < index
  · -- the tail moves one place down
    have hnext : d.wrap_add t none (phys d.buf.cap d.head index) 1 =
        phys d.buf.cap d.head (index + 1) := by
      have := phys_lt hhead (show index ≤ d.buf.cap by lia)
      rw [wrap_add_eq (by lia)]
      unfold phys
      split_ifs <;> lia
    obtain ⟨mem, hcopy, hmem⟩ := wrap_copy_phys (t := t) (d := d) hcap hhead
      (index + 1) index (d.len - index - 1) (by lia) (by lia)
    rw [if_pos hk, hnext, hcopy, bind_ok]
    refine ⟨_, rfl, ⟨hleni, by simp only [withMem]; lia, Or.inl hhead, hcap, fun m hm => ?_⟩⟩
    simp only [withMem] at hm ⊢
    rw [hmem m (by lia), getElem?_eraseIdx]
    by_cases hmi : m < index
    · rw [if_neg (by lia), if_pos hmi, h.cells m (by lia)]
    · rw [if_pos (by lia), if_neg hmi, show index + 1 + (m - index) = m + 1 by lia,
        h.cells (m + 1) (by lia)]
  · -- the elements before move one place up, counted from the old head
    rw [if_neg hk, h.physical (show 1 ≤ d.buf.cap by lia)]
    have hzero : phys d.buf.cap d.head 0 = d.head := phys_of_lt (by lia)
    obtain ⟨mem, hcopy, hmem⟩ : ∃ mem,
        (VecDeque.mk (phys d.buf.cap d.head 1) d.len d.buf).wrap_copy t none d.head
          (phys d.buf.cap d.head 1) index =
          .ok ⟨phys d.buf.cap d.head 1, d.len, ⟨mem, d.buf.cap⟩⟩ ∧
        ∀ m, m < d.buf.cap → mem (phys d.buf.cap d.head m) =
          if 1 ≤ m ∧ m < 1 + index then d.buf.mem (phys d.buf.cap d.head (0 + (m - 1)))
          else d.buf.mem (phys d.buf.cap d.head m) := by
      have := wrap_copy_phys (t := t) (d := ⟨phys d.buf.cap d.head 1, d.len, d.buf⟩) hcap hhead
        0 1 index (by simp only; lia) (by simp only; lia)
      simpa only [hzero, withMem] using this
    rw [hcopy, bind_ok]
    refine ⟨_, rfl, ⟨hleni, by simp only; lia, Or.inl (phys_lt hhead (by lia)), hcap,
      fun m hm => ?_⟩⟩
    simp only at hm ⊢
    rw [phys_phys hhead (by lia), hmem _ (by lia), getElem?_eraseIdx]
    by_cases hmi : m < index
    · rw [if_pos (by lia), if_pos hmi, show 0 + (1 + m - 1) = m by lia, h.cells m (by lia)]
    · rw [if_neg (by lia), if_neg hmi, show 1 + m = m + 1 by lia, h.cells (m + 1) (by lia)]

/-! ## Rotation -/

theorem Sized.rotate_left_inner {mid : ℕ} (hmid : mid ≤ l.length) :
    ∃ d', d.rotate_left_inner t none mid = .ok d' ∧ Sized t d' (l.rotate mid) := by
  have hlen := h.length
  have hle := h.len_le
  have hcap := h.cap_le
  unfold VecDeque.rotate_left_inner
  rw [h.physical hle]
  rcases h.head_lt with hhead | ⟨hhead, h0⟩
  · -- the block is the last one before the new head
    have hhead' := phys_lt hhead (show mid ≤ d.buf.cap by lia)
    have hsrc : phys d.buf.cap (phys d.buf.cap d.head mid) (d.buf.cap - mid) = d.head := by
      unfold phys
      split_ifs <;> lia
    have hdst : phys d.buf.cap (phys d.buf.cap d.head mid) (d.len - mid) =
        phys d.buf.cap d.head d.len := by
      unfold phys
      split_ifs <;> lia
    obtain ⟨mem, hcopy, hmem⟩ := wrap_copy_phys (t := t) (d := d) hcap hhead'
      (d.buf.cap - mid) (d.len - mid) mid (by lia) (by lia)
    rw [hsrc, hdst] at hcopy
    have hphys : (d.withMem mem).to_physical_idx t none mid = phys d.buf.cap d.head mid :=
      h.physical (by lia)
    rw [hcopy, bind_ok, hphys]
    refine ⟨_, rfl, ⟨by simp [withMem, hlen], hle, Or.inl hhead', hcap, fun m hm => ?_⟩⟩
    simp only [withMem] at hm ⊢
    rw [hmem m (by lia), rotate_eq_drop_append_take hmid, getElem?_append,
      length_drop]
    by_cases hlt : m < d.len - mid
    · rw [if_neg (by lia), if_pos (by lia), phys_phys hhead (by lia),
        h.cells _ (by lia), getElem?_drop]
    · rw [if_pos (by lia), if_neg (by lia), getElem?_take, if_pos (by lia),
        ← h.cells _ (by lia), hlen]
      congr 1
      unfold phys
      split_ifs <;> lia
  · obtain rfl : mid = 0 := by lia
    refine ⟨d, ?_, by rw [rotate_zero]; exact h⟩
    have hphys := h.physical (zero_le d.buf.cap)
    rw [phys_of_ge (by lia), show d.head + 0 - d.buf.cap = d.head by lia] at hphys
    simp [wrap_copy, hphys]

theorem Sized.rotate_right_inner {k : ℕ} (hk : k ≤ l.length) :
    ∃ d', d.rotate_right_inner t none k = .ok d' ∧ Sized t d' (l.rotate (l.length - k)) := by
  have hlen := h.length
  have hle := h.len_le
  have hcap := h.cap_le
  unfold VecDeque.rotate_right_inner
  rw [wrap_sub_eq hcap h.head_le (show k ≤ d.buf.cap by lia)]
  rcases h.head_lt with hhead | ⟨hhead, h0⟩
  · have hhead' := phys_lt hhead (show d.buf.cap - k ≤ d.buf.cap by lia)
    have hsrc : phys d.buf.cap (phys d.buf.cap d.head (d.buf.cap - k)) d.len =
        phys d.buf.cap d.head (d.len - k) := by
      unfold phys
      split_ifs <;> lia
    have hphys : (VecDeque.mk (phys d.buf.cap d.head (d.buf.cap - k)) d.len d.buf).to_physical_idx
        t none d.len = phys d.buf.cap d.head (d.len - k) := by
      rw [← hsrc]
      exact wrap_add_eq (by simp only; lia)
    obtain ⟨mem, hcopy, hmem⟩ := wrap_copy_phys (t := t)
      (d := ⟨phys d.buf.cap d.head (d.buf.cap - k), d.len, d.buf⟩) hcap hhead
      (d.len - k) (d.buf.cap - k) k (by simp only; lia) (by simp only; lia)
    dsimp only at hmem
    simp only [hphys]
    refine ⟨_, hcopy, ⟨by simp [withMem, hlen], hle, Or.inl hhead', hcap, fun m hm => ?_⟩⟩
    simp only [withMem] at hm ⊢
    rw [rotate_eq_drop_append_take (sub_le _ _), getElem?_append, length_drop]
    by_cases hlt : m < k
    · rw [if_pos (by lia), getElem?_drop, phys_phys hhead (by lia),
        hmem _ (by lia), if_pos (by lia), ← h.cells _ (by lia), hlen]
      congr 2
      lia
    · obtain ⟨i, rfl⟩ : ∃ i, m = k + i := ⟨m - k, by lia⟩
      have hback : phys d.buf.cap (phys d.buf.cap d.head (d.buf.cap - k)) (k + i) =
          phys d.buf.cap d.head i := phys_back hhead (by lia) (by lia)
      rw [if_neg (by lia), getElem?_take, if_pos (by lia), hback,
        hmem _ (by lia), if_neg (by lia), h.cells _ (by lia)]
      congr 1
      lia
  · obtain rfl : k = 0 := by lia
    refine ⟨d, ?_, by rw [Nat.sub_zero, rotate_length]; exact h⟩
    simp only [wrap_copy, or_true, if_true]
    rw [phys_of_ge (by lia), show d.head + (d.buf.cap - 0) - d.buf.cap = d.head by lia]

theorem Sized.rotate_left {n : ℕ} (hn : n ≤ l.length) :
    ∃ d', d.rotate_left t none n = .ok d' ∧ Sized t d' (l.rotate n) := by
  have hlen := h.length
  unfold VecDeque.rotate_left
  rw [if_pos (by lia)]
  by_cases hk : n ≤ d.len - n
  · rw [if_pos hk]
    exact h.rotate_left_inner hn
  · rw [if_neg hk]
    obtain ⟨d', hd', hs⟩ := h.rotate_right_inner (k := d.len - n) (by lia)
    rw [hlen, show d.len - (d.len - n) = n by lia] at hs
    exact ⟨d', hd', hs⟩

theorem Sized.rotate_right {n : ℕ} (hn : n ≤ l.length) :
    ∃ d', d.rotate_right t none n = .ok d' ∧ Sized t d' (l.rotate (l.length - n)) := by
  have hlen := h.length
  unfold VecDeque.rotate_right
  rw [if_pos (by lia)]
  by_cases hk : n ≤ d.len - n
  · rw [if_pos hk]
    exact h.rotate_right_inner hn
  · rw [if_neg hk, ← hlen]
    exact h.rotate_left_inner (sub_le _ _)

end RustStd.VecDeque
