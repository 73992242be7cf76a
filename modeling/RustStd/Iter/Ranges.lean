import RustStd.Iter.Stepping

/-!
# Ranges of integers, and stepping over them

`Range` of an unsigned integer type stands for the numbers from its start to before its end. The
implementation of `StepBy` for it counts the elements down instead; its start may wrap around after
the last element and its step may not fit the type, but then at most one element is left.
-/

namespace RustStd.Iter

open Provided StepBy List Nat Option

variable {A B : Type} {usizeMax tMax turns : ℕ} {r : Range} {s : StepBy Range} {l : List ℕ}

/-! ## Ranges -/

namespace Range

/-- A range stands for the numbers in it. -/
structure Stands (tMax turns : ℕ) (r : Range) (l : List ℕ) : Prop where
  start_le : r.start ≤ tMax
  end_le : r.end ≤ tMax
  eq : l = range' r.start (r.end - r.start)
  turns : l.length < turns

theorem Stands.length (h : Stands tMax turns r l) : l.length = r.end - r.start := by
  rw [h.eq, length_range']

/-- What is left after `n` numbers from the start. -/
theorem Stands.drop (h : Stands tMax turns r l) {n : ℕ} (hn : r.start + n ≤ r.end) :
    Stands tMax turns { r with start := r.start + n } (l.drop n) where
  start_le := hn.trans h.end_le
  end_le := h.end_le
  eq := by
    rw [h.eq, drop_range', mul_one, sub_add_eq]
  turns := by
    rw [length_drop]
    have := h.turns
    lia

/-- What is left without `n` numbers at the end. -/
theorem Stands.take (h : Stands tMax turns r l) (n : ℕ) :
    Stands tMax turns { r with «end» := r.end - n } (l.take (l.length - n)) where
  start_le := h.start_le
  end_le := (sub_le _ _).trans h.end_le
  eq := by
    rw [h.length, h.eq, take_range'_of_length_ge (sub_le _ _)]
    rw [Nat.sub_right_comm]
  turns := by
    rw [length_take]
    have := h.turns
    lia

/-- Nothing is left when the ends meet. -/
theorem Stands.empty (h : Stands tMax turns r l) {«end» : ℕ} (hend : «end» ≤ tMax) :
    Stands tMax turns ⟨«end», «end»⟩ [] :=
  ⟨hend, hend, by rw [Nat.sub_self]; rfl, (Nat.zero_le _).trans_lt h.turns⟩

theorem next_spec : IsNext (Stands tMax turns) (next tMax) := by
  intro r l h
  rw [next]
  by_cases hlt : r.start < r.end
  · have hfwd : forward_unchecked tMax r.start 1 = some (r.start + 1) :=
      if_pos (succ_le_of_lt hlt |>.trans h.end_le)
    rw [if_pos hlt, hfwd]
    refine ⟨_, ?_, by rw [← drop_one]; exact h.drop hlt⟩
    rw [h.eq, head?_range', if_neg (by lia)]
    rfl
  · obtain rfl : l = [] := eq_nil_of_length_eq_zero (by rw [h.length]; lia)
    rw [if_neg hlt]
    exact ⟨r, rfl, h⟩

theorem nth_spec : IsNth usizeMax (Stands tMax turns) (nth tMax) := by
  intro r l n h _
  by_cases hlt : r.start + n < r.end
  · have hend := h.end_le
    have hchecked : forward_checked tMax r.start n = some (r.start + n) :=
      if_pos ⟨by lia, by lia⟩
    have hfwd : forward_unchecked tMax (r.start + n) 1 = some (r.start + n + 1) :=
      if_pos (by lia)
    rw [nth, hchecked]
    dsimp only
    rw [if_pos hlt, hfwd]
    refine ⟨_, ?_, h.drop (n := n + 1) (by lia)⟩
    rw [h.eq, getElem?_range' (by lia), one_mul]
    rfl
  · have hnone : nth tMax r n = some (none, { r with start := r.end }) := by
      rw [nth, forward_checked]
      split
      · next heq =>
        split at heq
        · cases heq
          rw [if_neg hlt]
        · cases heq
      · rfl
    rw [hnone, getElem?_eq_none (by rw [h.length]; lia),
      drop_eq_nil_of_le (by rw [h.length]; lia)]
    exact ⟨_, rfl, h.empty h.end_le⟩

theorem advance_by_spec : IsAdvanceBy usizeMax (Stands tMax turns) (advance_by tMax) := by
  intro r l n h _
  have hend := h.end_le
  have hstart := h.start_le
  have hlen := h.length
  rw [advance_by, steps_between]
  by_cases hle : r.start ≤ r.end
  · rw [if_pos hle]
    simp only [getD_some]
    rw [forward_unchecked, if_pos (by lia)]
    have hdrop : l.drop n = l.drop (min (r.end - r.start) n) := by
      rw [← hlen]
      obtain h' | h' := le_total n l.length
      · rw [min_eq_right h']
      · rw [min_eq_left h', drop_length, drop_eq_nil_of_le h']
    rw [hdrop]
    refine ⟨_, ?_, h.drop (by lia)⟩
    rw [show n - l.length = n - min (r.end - r.start) n by lia]
    rfl
  · obtain rfl : l = [] := eq_nil_of_length_eq_zero (by lia)
    rw [if_neg hle]
    simp only [getD_none, zero_min]
    rw [forward_unchecked, if_pos (by lia), drop_nil]
    exact ⟨_, rfl, h⟩

theorem next_back_spec : IsNext (Reversed (Stands tMax turns)) next_back := by
  apply isNext_reversed
  intro r l h
  rw [next_back]
  by_cases hlt : r.start < r.end
  · have hback : backward_unchecked r.end 1 = some (r.end - 1) := if_pos (by lia)
    rw [if_pos hlt, hback]
    refine ⟨_, ?_, by rw [dropLast_eq_take]; exact h.take 1⟩
    rw [h.eq, getLast?_range', if_neg (by lia),
      show r.start + (r.end - r.start) - 1 = r.end - 1 by lia]
    rfl
  · obtain rfl : l = [] := eq_nil_of_length_eq_zero (by rw [h.length]; lia)
    rw [if_neg hlt]
    exact ⟨r, rfl, h⟩

theorem nth_back_spec : IsNth usizeMax (Reversed (Stands tMax turns)) (nth_back tMax) := by
  apply isNth_reversed
  intro r l n h _
  have hlen := h.length
  by_cases hlt : r.start + n < r.end
  · have hend := h.end_le
    have hchecked : backward_checked tMax r.end n = some (r.end - n) := by
      rw [backward_checked, if_pos (by lia), checkedSub, if_pos (by lia)]
    have hback : backward_unchecked (r.end - n) 1 = some (r.end - (n + 1)) := by
      rw [backward_unchecked, checkedSub, if_pos (by lia), Nat.sub_sub]
    rw [nth_back, hchecked]
    dsimp only
    rw [if_pos (by lia), hback]
    refine ⟨_, ?_, h.take (n + 1)⟩
    rw [getElem?_reverse (by lia), h.eq, length_range',
      getElem?_range' (by lia), one_mul,
      show r.start + (r.end - r.start - 1 - n) = r.end - (n + 1) by lia]
    rfl
  · have hnone : nth_back tMax r n = some (none, { r with «end» := r.start }) := by
      rw [nth_back, backward_checked, checkedSub]
      split
      · next heq =>
        split at heq
        · split at heq
          · cases heq
            rw [if_neg (by lia)]
          · cases heq
        · cases heq
      · rfl
    rw [hnone, getElem?_eq_none (by rw [length_reverse]; lia),
      show l.length - (n + 1) = 0 by lia, take_zero]
    exact ⟨_, rfl, h.empty h.start_le⟩

theorem advance_back_by_spec :
    IsAdvanceBy usizeMax (Reversed (Stands tMax turns)) advance_back_by := by
  apply isAdvanceBy_reversed
  intro r l n h _
  have hlen := h.length
  rw [advance_back_by, steps_between]
  by_cases hle : r.start ≤ r.end
  · rw [if_pos hle]
    simp only [Option.getD_some]
    rw [backward_unchecked, checkedSub, if_pos (by lia),
      show l.length - n = l.length - min (r.end - r.start) n by lia]
    refine ⟨_, ?_, h.take _⟩
    rw [show n - l.length = n - min (r.end - r.start) n by lia]
    rfl
  · obtain rfl : l = [] := eq_nil_of_length_eq_zero (by lia)
    rw [if_neg hle]
    simp only [Option.getD_none, Nat.zero_min]
    rw [backward_unchecked, checkedSub, if_pos (Nat.zero_le _), take_nil]
    exact ⟨_, rfl, h⟩

theorem size_hint_exact : ExactSize (Stands tMax turns) size_hint := by
  intro r l h
  rw [size_hint, steps_between, h.length]
  split
  · next hlt => rw [if_pos hlt.le]
  · next hge => rw [Nat.sub_eq_zero_of_le (Nat.le_of_not_lt hge)]

theorem count_spec (h : Stands tMax turns r l) : r.count = some l.length := by
  rw [count, steps_between, h.length]
  split
  · next hlt => rw [if_pos hlt.le]
  · next hge => rw [Nat.sub_eq_zero_of_le (Nat.le_of_not_lt hge)]

theorem last_spec (h : Stands tMax turns r l) : r.last = some l.getLast? := by
  have hrev : Reversed (Stands tMax turns) r l.reverse := by
    rwa [Reversed, reverse_reverse]
  obtain ⟨r', hnext, -⟩ := next_back_spec hrev
  rw [last, hnext, head?_reverse]
  rfl

theorem lawful (htMax : tMax ≤ usizeMax) :
    (iterator tMax turns).Lawful usizeMax (Stands tMax turns) where
  front :=
    { next := next_spec
      nth := nth_spec
      advance_by := advance_by_spec
      try_fold := fun f a _ _ h => try_fold_spec next_spec f a h h.turns
      fold := fun f a _ _ h => fold_spec next_spec f a h h.turns }
  size_hint r l h := by
    have := h.end_le
    have := h.length
    dsimp only [iterator]
    rw [size_hint_exact h]
    exact ⟨le_refl _, by lia, fun hi hhi => by cases hhi; exact le_refl _,
      fun hi hhi => by cases hhi; lia⟩
  count _ _ h _ := count_spec h
  last _ _ h := last_spec h
  back :=
    { next := next_back_spec
      nth := nth_back_spec
      advance_by := advance_back_by_spec
      try_fold := fun f a _ l h => try_fold_spec next_back_spec f a h
        (by rw [← l.length_reverse]; exact h.turns)
      fold := fun f a _ l h => fold_spec next_back_spec f a h
        (by rw [← l.length_reverse]; exact h.turns) }

end Range

/-! ## Stepping over them -/

namespace StepBy.Ranges

/-- The elements to come, of which none is past the largest value. -/
structure Counts (tMax turns : ℕ) (s : StepBy Range) (m : List ℕ) : Prop where
  eq : m = range' s.iter.start s.iter.end s.original_step
  le : ∀ k < s.iter.end, s.iter.start + s.original_step * k ≤ tMax
  end_le : s.iter.end ≤ tMax
  turns : s.iter.end < turns

variable {m : List ℕ}

theorem Counts.length (h : Counts tMax turns s m) : m.length = s.iter.end := by
  rw [h.eq, length_range']

/-- When two elements are left, the step fits the type. -/
theorem Counts.step_le (h : Counts tMax turns s m) (hend : 1 < s.iter.end) :
    s.iter.start + s.original_step ≤ tMax := by
  have := h.le 1 hend
  rwa [mul_one] at this

/-- The start after an element, whether or not it wraps around. -/
theorem Counts.next (h : Counts tMax turns s m) {start : ℕ}
    (hstart : 1 < s.iter.end → start = s.iter.start + s.original_step) :
    Counts tMax turns { s with iter := ⟨start, s.iter.end - 1⟩ } m.tail := by
  refine ⟨?_, fun k hk => ?_, (sub_le _ _).trans h.end_le, (sub_le _ _).trans_lt h.turns⟩
  · rw [h.eq, tail_range']
    obtain hle | hlt := lt_or_ge 1 s.iter.end |>.symm
    · rw [Nat.sub_eq_zero_of_le hle]
      rfl
    · rw [hstart hlt]
      rfl
  · have hk' : k + 1 < s.iter.end := add_lt_of_lt_sub hk
    have hle := h.le (k + 1) hk'
    rw [mul_succ] at hle
    rw [hstart (by lia)]
    change s.iter.start + s.original_step + s.original_step * k ≤ tMax
    lia

theorem clamped_next (h : Counts tMax turns s m) (hend : 1 < s.iter.end) :
    (s.iter.start + clamped tMax s) % (tMax + 1) = s.iter.start + s.original_step := by
  have hle := h.step_le hend
  rw [clamped, if_pos (by lia), mod_eq_of_lt (by lia)]

theorem spec_next_spec : IsNext (Counts tMax turns) (spec_next tMax) := by
  intro s m h
  rw [spec_next]
  by_cases hpos : s.iter.end > 0
  · rw [if_pos hpos]
    refine ⟨_, ?_, h.next (clamped_next h)⟩
    obtain ⟨k, hk⟩ := exists_eq_succ_of_ne_zero (ne_of_gt hpos)
    rw [h.eq, hk, succ_eq_add_one, range'_succ]
    rfl
  · obtain rfl : m = [] := eq_nil_of_length_eq_zero (by rw [h.length]; lia)
    rw [if_neg hpos]
    exact ⟨s, rfl, h⟩

theorem spec_try_fold_spec :
    IsTryFold (A := A) (B := B) (Counts tMax turns) (spec_try_fold tMax turns) :=
  fun f a _ _ h => try_fold_spec spec_next_spec f a h (h.length ▸ h.turns)

theorem spec_nth_spec : IsNth usizeMax (Counts tMax turns) (spec_nth tMax turns) :=
  Iter.nth_spec (Iter.advance_by_spec spec_try_fold_spec) spec_next_spec

theorem spec_fold_spec : IsFold (A := A) (Counts tMax turns) (spec_fold tMax) := by
  intro f a s m h
  rw [spec_fold, h.eq]
  congr 1
  have hle := h.le
  have hclamped : 1 < s.iter.end → clamped tMax s = s.original_step := by
    intro hend
    have := h.step_le hend
    exact if_pos (by lia)
  generalize s.iter.start = start at hle
  generalize s.iter.end = count at hle hclamped
  induction count generalizing a start with
  | zero => rfl
  | succ count ih =>
    rw [fold_loop, range'_succ, foldl_cons]
    obtain rfl | hpos := Nat.eq_zero_or_pos count
    · rfl
    have hstart := hle 1 (by lia)
    rw [mul_one] at hstart
    rw [hclamped (by lia), mod_eq_of_lt (by lia)]
    rw [hclamped (by lia)] at ih
    refine ih _ _ (fun k hk => ?_) fun _ => rfl
    have := hle (k + 1) (by lia)
    rw [mul_succ] at this
    lia

theorem spec_next_back_spec : IsNext (Reversed (Counts tMax turns)) (spec_next_back tMax) := by
  apply isNext_reversed
  intro s m h
  rw [spec_next_back]
  by_cases hpos : s.iter.end > 0
  · obtain ⟨k, hk⟩ := exists_eq_succ_of_ne_zero (ne_of_gt hpos)
    have hlast := h.le k (by lia)
    -- The conversion of the step only matters when more than one element is left.
    have hmul : s.original_step % (tMax + 1) * k = s.original_step * k := by
      obtain rfl | hk' := Nat.eq_zero_or_pos k
      · rfl
      · have := h.step_le (by lia)
        rw [mod_eq_of_lt (by lia)]
    rw [if_pos hpos, hk, succ_eq_add_one, Nat.add_sub_cancel, hmul, if_pos hlast]
    have heq := h.eq
    rw [hk, succ_eq_add_one, range'_concat] at heq
    refine ⟨_, by rw [heq, getLast?_concat], ?_⟩
    rw [heq, dropLast_concat]
    exact ⟨rfl, fun j hj => h.le j (by dsimp only at hj; lia),
      (show k ≤ s.iter.end by lia).trans h.end_le,
      (show k ≤ s.iter.end by lia).trans_lt h.turns⟩
  · obtain rfl : m = [] := eq_nil_of_length_eq_zero (by rw [h.length]; lia)
    rw [if_neg hpos]
    exact ⟨s, rfl, h⟩

theorem spec_size_hint_exact : ExactSize (Counts tMax turns) spec_size_hint := by
  intro s m h
  rw [spec_size_hint, h.length]

theorem lawful (htMax : tMax ≤ usizeMax) :
    (iterator usizeMax tMax turns).Lawful usizeMax (Counts tMax turns) where
  front :=
    { next := spec_next_spec
      nth := spec_nth_spec
      advance_by := Iter.advance_by_spec spec_try_fold_spec
      try_fold := spec_try_fold_spec
      fold := spec_fold_spec }
  size_hint s m h := by
    have := h.end_le
    dsimp only [iterator]
    rw [spec_size_hint_exact h, h.length]
    exact ⟨le_refl _, by lia, fun hi hhi => by cases hhi; exact le_refl _,
      fun hi hhi => by cases hhi; lia⟩
  count _ _ h hlen := Iter.count_spec spec_fold_spec h hlen
  last _ _ h := Iter.last_spec spec_fold_spec h
  back :=
    { next := spec_next_back_spec
      nth := Iter.nth_spec (Iter.advance_back_by_spec spec_next_back_spec) spec_next_back_spec
      advance_by := Iter.advance_back_by_spec spec_next_back_spec
      try_fold := fun f a _ m h => try_fold_spec spec_next_back_spec f a h
        (by rw [← m.length_reverse, Counts.length h]; exact h.turns)
      fold := fun f a _ m h => fold_spec spec_next_back_spec f a h
        (by rw [← m.length_reverse, Counts.length h]; exact h.turns) }

/-! ## The constructors -/

theorem strided_range' (start n gap : ℕ) :
    strided gap 0 (range' start n) = range' start (div_ceil n (gap + 1)) (gap + 1) := by
  apply ext_getElem?
  intro i
  rw [getElem?_strided, zero_add, mul_comm]
  by_cases hi : i < div_ceil n (gap + 1)
  · rw [getElem?_range' hi, getElem?_range' (lt_div_ceil_iff.mp hi), one_mul]
  · have hi' : ¬ (gap + 1) * i < n := mt lt_div_ceil_iff.mpr hi
    rw [getElem?_eq_none (by rw [length_range']; lia),
      getElem?_eq_none (by rw [length_range']; lia)]

/-- The numbers of a range that are `step` apart. -/
theorem new_spec (gap : ℕ) (h : r.Stands tMax turns l) :
    ∃ s, new tMax r (gap + 1) = some s ∧ Counts tMax turns s (strided gap 0 l) := by
  have hlen := h.length
  have hlt := h.turns
  have hend := h.end_le
  have hsize := Range.size_hint_exact h
  have hcount : div_ceil l.length (gap + 1) ≤ l.length := by
    by_contra hcount
    have := lt_div_ceil_iff.mp (Nat.lt_of_not_le hcount)
    rw [succ_mul] at this
    lia
  have hsetup : setup tMax r (gap + 1) = ⟨r.start, div_ceil l.length (gap + 1)⟩ := by
    rw [setup, hsize]
    dsimp only
    rw [mod_eq_of_lt (by lia)]
  refine ⟨⟨⟨r.start, div_ceil l.length (gap + 1)⟩, gap, true⟩, ?_, ?_, fun k hk => ?_, ?_, ?_⟩
  · rw [new, if_neg (succ_ne_zero gap), hsetup]
    rfl
  · rw [h.eq, strided_range', length_range']
    rfl
  · have := lt_div_ceil_iff.mp hk
    change r.start + (gap + 1) * k ≤ tMax
    lia
  · exact hcount.trans (by lia)
  · exact hcount.trans_lt hlt

end StepBy.Ranges

theorem StepBy.new_spec {σ T : Type} {R : σ → List T → Prop} {iter : σ} {l : List T} {step : ℕ}
    (h : R iter l) (hturns : l.length < turns) (hstep : 0 < step) (hmax : step ≤ usizeMax) :
    ∃ s, StepBy.new iter step = some s ∧ Stands R usizeMax turns s (strided (step - 1) 0 l) := by
  refine ⟨⟨iter, step - 1, true⟩, ?_, l, h, hturns, ?_, rfl⟩
  · rw [StepBy.new, checkedSub, if_pos (show 1 ≤ step from hstep)]
    rfl
  · show step - 1 < usizeMax
    lia

/-- **`StepBy`** answers every run of calls as the list of the elements a step apart. For an
exact-size iterator its size hint is exact, and it can be asked from the back. The loop of `nth`
takes `n * step` elements. For a range of integers no wider than `usize`, the implementation of its
own agrees with the list that the general one agrees with. -/
theorem step_by_agrees {σ T : Type} {step : ℕ} {it : DoubleEndedIterator σ T}
    {R : σ → List T → Prop} {iter : σ} {l : List T} (h : it.toIterator.Lawful usizeMax R)
    (hl : R iter l) (hturns : l.length < turns) (hstep : 0 < step) (hmax : step ≤ usizeMax) :
    (∃ s, StepBy.new iter step = some s ∧
      (StepBy.iterator usizeMax turns it).toIterator.Agrees (ValidHint usizeMax) usizeMax s
        (strided (step - 1) 0 l) ∧
      (ExactSize R it.size_hint →
        (StepBy.iterator usizeMax turns it).toIterator.Agrees ExactHint usizeMax s
          (strided (step - 1) 0 l)) ∧
      (ExactSize R it.size_hint → it.back.Lawful usizeMax (Reversed R) →
        (StepBy.iterator usizeMax turns it).Agrees ExactHint usizeMax s
          (strided (step - 1) 0 l))) ∧
    (∀ n, 0 < n → n ≤ usizeMax → Yields R (nth_loop usizeMax it (n + step) n step iter)
      l[n * step - 1]? (l.drop (n * step))) ∧
    ∀ tMax ≤ usizeMax, ∀ r : Range, r.start ≤ tMax → r.end ≤ tMax → r.end - r.start < turns →
      ∃ s s', StepBy.new r step = some s ∧ Ranges.new tMax r step = some s' ∧
        (StepBy.iterator usizeMax turns (Range.iterator tMax turns)).Agrees ExactHint usizeMax s
          (strided (step - 1) 0 (range' r.start (r.end - r.start))) ∧
        (Ranges.iterator usizeMax tMax turns).Agrees ExactHint usizeMax s'
          (strided (step - 1) 0 (range' r.start (r.end - r.start))) := by
  refine ⟨?_, fun n hn hnmax => nth_loop_spec h.front hl hn hnmax hstep hmax (le_refl _),
    fun tMax htMax r hstart hend hlen => ?_⟩
  · obtain ⟨s, hnew, hs⟩ := StepBy.new_spec hl hturns hstep hmax
    have hiter : (StepBy.iterator usizeMax turns it).toIterator.Lawful usizeMax
        (Stands R usizeMax turns) := step_by_iterator h
    refine ⟨s, hnew, hiter.agrees hiter.size_hint hs, fun hexact => ?_, fun hexact hback => ?_⟩
    · exact hiter.agrees (V := ExactHint) (spec_size_hint_exact hexact) hs
    · exact (step_by_double_ended ⟨h, hback⟩ hexact).agrees (V := ExactHint)
        (spec_size_hint_exact hexact) hs
  · have hr : r.Stands tMax turns (range' r.start (r.end - r.start)) :=
      ⟨hstart, hend, rfl, by rwa [length_range']⟩
    obtain ⟨s, hnew, hs⟩ := StepBy.new_spec hr hr.turns hstep hmax
    obtain ⟨gap, rfl⟩ := exists_eq_succ_of_ne_zero (ne_of_gt hstep)
    obtain ⟨s', hnew', hs'⟩ := Ranges.new_spec gap hr
    refine ⟨s, s', hnew, hnew', ?_, ?_⟩
    · have hexact : ExactSize (Range.Stands tMax turns) (Range.iterator tMax turns).size_hint :=
        Range.size_hint_exact
      exact (step_by_double_ended (Range.lawful htMax) hexact).agrees (V := ExactHint)
        (spec_size_hint_exact hexact) hs
    · exact (Ranges.lawful htMax).agrees (V := ExactHint) Ranges.spec_size_hint_exact hs'

/-- Every third number below ten. -/
theorem step_by_agrees_third : ∃ s, StepBy.new (⟨0, 10⟩ : Range) 3 = some s ∧
      (StepBy.iterator 65535 11 (Range.iterator 255 11)).Agrees ExactHint 65535 s [0, 3, 6, 9] := by
  have hr : Range.Stands 255 11 ⟨0, 10⟩ (range' 0 10) :=
    ⟨by decide, by decide, rfl, by decide⟩
  have hlawful : (Range.iterator 255 11).Lawful 65535 (Range.Stands 255 11) :=
    Range.lawful (by decide)
  obtain ⟨⟨s, hnew, -, -, hs⟩, -, -⟩ :=
    step_by_agrees hlawful.toLawful hr hr.turns (show 0 < 3 by decide) (by decide)
  exact ⟨s, hnew, hs Range.size_hint_exact hlawful.back⟩

end RustStd.Iter
