import RustStd.Iter.Take

/-!
# An iterator without its first elements

`Skip`, after `core/src/iter/adapters/skip.rs`. The elements are skipped by the first method that
asks for one. Over an iterator that stands for a list it stands for the list without the first
elements (`Skip.iterator_lawful`, `Skip.lawful`).
-/

namespace RustStd.Iter

open List Nat Option

open FlattenCompat (checked_add saturating_add)
open Take (checked_add_eq)

variable {σ T A B : Type} {R : σ → List T → Prop} {usizeMax : ℕ} {l m : List T}

structure Skip (σ : Type) where
  iter : σ
  n : ℕ

namespace Skip

section Front

variable (usizeMax : ℕ) (it : Iterator σ T)

def next (self : Skip σ) : Option (Option T × Skip σ) :=
  if self.n > 0 then do
    let (x, iter) ← it.front.nth self.iter self.n
    return (x, ⟨iter, 0⟩)
  else do
    let (x, iter) ← it.front.next self.iter
    return (x, { self with iter })

def nth (self : Skip σ) (n : ℕ) : Option (Option T × Skip σ) :=
  if self.n > 0 then
    match checked_add usizeMax self.n n with
    | some nth => do
      let (x, iter) ← it.front.nth self.iter nth
      return (x, ⟨iter, 0⟩)
    | none => do
      let (x, iter) ← it.front.nth self.iter (← checkedSub self.n 1)
      if x.isNone then return (none, ⟨iter, 0⟩)
      else
        let (x, iter) ← it.front.nth iter n
        return (x, ⟨iter, 0⟩)
  else do
    let (x, iter) ← it.front.nth self.iter n
    return (x, { self with iter })

/-- `if self.n > 0 { self.iter.nth(self.n - 1) }`, and whether that found nothing. -/
def skip_first (self : Skip σ) : Option (Bool × σ) :=
  if self.n > 0 then do
    let (x, iter) ← it.front.nth self.iter (← checkedSub self.n 1)
    return (x.isNone, iter)
  else some (false, self.iter)

def count (self : Skip σ) : Option ℕ := do
  let (exhausted, iter) ← self.skip_first it
  if exhausted then return 0 else it.count iter

def last (self : Skip σ) : Option (Option T) := do
  let (exhausted, iter) ← self.skip_first it
  if exhausted then return none else it.last iter

def size_hint (self : Skip σ) : ℕ × Option ℕ :=
  let (lower, upper) := it.size_hint self.iter
  (lower - self.n, upper.map fun x => x - self.n)

def try_fold (f : A → T → Except B A) (a : A) (self : Skip σ) : Option (Except B A × Skip σ) := do
  let (exhausted, iter) ← self.skip_first it
  if exhausted then return (.ok a, ⟨iter, 0⟩)
  else
    let (r, iter) ← it.front.try_fold f a iter
    return (r, ⟨iter, 0⟩)

def fold (f : A → T → A) (a : A) (self : Skip σ) : Option A := do
  let (exhausted, iter) ← self.skip_first it
  if exhausted then return a else it.front.fold f a iter

def advance_by (self : Skip σ) (n : ℕ) : Option (ℕ × Skip σ) := do
  let skip_and_advance := saturating_add usizeMax self.n n
  let (remainder, iter) ← it.front.advance_by self.iter skip_and_advance
  let advanced_inner ← checkedSub skip_and_advance remainder
  let n ← checkedSub n (advanced_inner - self.n)
  let left := self.n - advanced_inner
  if remainder = 0 ∧ n > 0 then
    let (n, iter) ← it.front.advance_by iter n
    return (n, ⟨iter, left⟩)
  else return (n, ⟨iter, left⟩)

end Front

section Back

variable (it : DoubleEndedIterator σ T)

def len (self : Skip σ) : Option ℕ := Provided.len (size_hint it.toIterator) self

def next_back (self : Skip σ) : Option (Option T × Skip σ) := do
  if (← self.len it) > 0 then
    let (x, iter) ← it.back.next self.iter
    return (x, { self with iter })
  else return (none, self)

def nth_back (self : Skip σ) (n : ℕ) : Option (Option T × Skip σ) := do
  let len ← self.len it
  if n < len then
    let (x, iter) ← it.back.nth self.iter n
    return (x, { self with iter })
  else if len > 0 then
    let (_, iter) ← it.back.nth self.iter (← checkedSub len 1)
    return (none, { self with iter })
  else return (none, self)

def try_rfold (f : A → T → Except B A) (a : A) (self : Skip σ) : Option (Except B A × Skip σ) := do
  let n ← self.len it
  if n = 0 then return (.ok a, self)
  else
    let (r, iter) ← it.back.try_fold (check f) (n, a) self.iter
    let (_, r) ← into_try r
    return (r, { self with iter })

def advance_back_by (self : Skip σ) (n : ℕ) : Option (ℕ × Skip σ) := do
  let least := min (← self.len it) n
  let (rem, iter) ← it.back.advance_by self.iter least
  if rem = 0 then return (← checkedSub n least, { self with iter }) else none

end Back

def iterator (usizeMax : ℕ) (it : DoubleEndedIterator σ T) : DoubleEndedIterator (Skip σ) T where
  front :=
    { next := next it.toIterator
      nth := nth usizeMax it.toIterator
      advance_by := advance_by usizeMax it.toIterator
      try_fold := try_fold it.toIterator
      fold := fold it.toIterator }
  size_hint := size_hint it.toIterator
  count := count it.toIterator
  last := last it.toIterator
  back :=
    { next := next_back it
      nth := nth_back it
      advance_by := advance_back_by it
      try_fold := try_rfold it
      fold := Provided.fold_via_try_fold (try_rfold it) }

/-- The list without the first `n` elements. -/
structure Over (R : σ → List T → Prop) (usizeMax : ℕ) (s : Skip σ) (l m : List T) : Prop where
  iter : R s.iter l
  eq : m = l.drop s.n
  le : s.n ≤ usizeMax

def Stands (R : σ → List T → Prop) (usizeMax : ℕ) (s : Skip σ) (m : List T) : Prop :=
  ∃ l, Over R usizeMax s l m

variable {s : Skip σ}

theorem Over.length (hs : Over R usizeMax s l m) : m.length = l.length - s.n := by
  rw [hs.eq, length_drop]

/-- Nothing is left to skip. -/
theorem stands_zero {iter : σ} (h : R iter m) : Stands R usizeMax ⟨iter, 0⟩ m :=
  ⟨m, h, rfl, zero_le _⟩

section Front

variable {it : Iterator σ T}

variable (h : it.front.Lawful usizeMax R)
include h

theorem next_spec : IsNext (Stands R usizeMax) (next it) := by
  rintro ⟨iter, n⟩ _ ⟨l, hiter, rfl, hle⟩
  rw [next]
  by_cases hn : n > 0
  · obtain ⟨iter', hnth, hiter'⟩ := h.nth n hiter hle
    refine ⟨⟨iter', 0⟩, ?_, ?_⟩
    · rw [if_pos hn, hnth, head?_drop]
      rfl
    · rw [tail_drop]
      exact stands_zero hiter'
  · obtain rfl : n = 0 := Nat.eq_zero_of_not_pos hn
    obtain ⟨iter', hnext, hiter'⟩ := h.next hiter
    refine ⟨⟨iter', 0⟩, ?_, stands_zero hiter'⟩
    rw [if_neg hn, hnext]
    rfl

theorem skip_first_spec (hs : Over R usizeMax s l m) :
    ∃ exhausted, Yields R (skip_first it s) exhausted m ∧ (exhausted = true → m = []) := by
  have hle := hs.le
  rw [skip_first]
  by_cases hn : s.n > 0
  · obtain ⟨iter, hnth, hiter⟩ := h.nth (s.n - 1) hs.iter (by lia)
    rw [Nat.sub_add_cancel hn, ← hs.eq] at hiter
    refine ⟨l[s.n - 1]?.isNone, ⟨iter, ?_, hiter⟩, fun hnone => ?_⟩
    · rw [if_pos hn, checkedSub_eq hn]
      simp only [some_bind, hnth]
      rfl
    · rw [isNone_iff_eq_none, getElem?_eq_none_iff] at hnone
      rw [hs.eq, drop_eq_nil_of_le (by lia)]
  · refine ⟨false, ⟨s.iter, if_neg hn, ?_⟩, fun hfalse => absurd hfalse Bool.false_ne_true⟩
    rw [hs.eq, Nat.eq_zero_of_not_pos hn]
    exact hs.iter

theorem nth_spec : IsNth usizeMax (Stands R usizeMax) (nth usizeMax it) := by
  rintro s m k ⟨l, hs⟩ hk
  have hle := hs.le
  rw [nth]
  by_cases hn : s.n > 0
  · rw [if_pos hn]
    by_cases hadd : s.n + k ≤ usizeMax
    · obtain ⟨iter, hnth, hiter⟩ := h.nth (s.n + k) hs.iter hadd
      refine ⟨⟨iter, 0⟩, ?_, ?_⟩
      · rw [checked_add_eq hadd]
        dsimp only
        rw [hnth, hs.eq, getElem?_drop]
        rfl
      · rw [hs.eq, drop_drop, ← add_assoc]
        exact stands_zero hiter
    obtain ⟨iter, hnth, hiter⟩ := h.nth (s.n - 1) hs.iter (by lia)
    rw [Nat.sub_add_cancel hn, ← hs.eq] at hiter
    rw [checked_add, if_neg hadd]
    rw [checkedSub_eq hn]
    simp only [some_bind, hnth]
    cases hx : l[s.n - 1]? with
    | none =>
      have hlen := getElem?_eq_none_iff.mp hx
      obtain rfl : m = [] := by
        rw [hs.eq, drop_eq_nil_of_le (by lia)]
      exact ⟨⟨iter, 0⟩, by rw [getElem?_nil]; rfl, stands_zero (by rwa [drop_nil])⟩
    | some x =>
      obtain ⟨iter', hnth', hiter'⟩ := h.nth k hiter hk
      refine ⟨⟨iter', 0⟩, ?_, stands_zero hiter'⟩
      simp only [isNone_some, Bool.false_eq_true, if_false, hnth']
      rfl
  · have hzero := Nat.eq_zero_of_not_pos hn
    have hm : m = l := by
      rw [hs.eq, hzero, drop_zero]
    obtain ⟨iter, hnth, hiter⟩ := h.nth k hs.iter hk
    refine ⟨{ s with iter }, ?_, l.drop (k + 1), hiter, ?_, hle⟩
    · rw [if_neg hn, hnth, hm]
      rfl
    · rw [hm, hzero, drop_zero]

theorem advance_by_spec : IsAdvanceBy usizeMax (Stands R usizeMax) (advance_by usizeMax it) := by
  rintro ⟨iter, n⟩ m k ⟨l, hs⟩ hk
  have hle := hs.le
  have hlength := hs.length
  have hm := hs.eq
  dsimp only at hle hlength hm
  have hadd : saturating_add usizeMax n k = min (n + k) usizeMax := rfl
  obtain ⟨iter1, hadvance, hiter1⟩ :=
    h.advance_by (saturating_add usizeMax n k) hs.iter (by lia)
  rw [advance_by, hadvance, hm, drop_drop]
  simp only [some_bind]
  rw [checkedSub_eq (sub_le _ _)]
  simp only [some_bind]
  rw [checkedSub_eq (by lia)]
  simp only [some_bind]
  rw [hadd, length_drop] at *
  have hreach : min (n + k) usizeMax ≤ n + k := min_le_left _ _
  have hcut : min (n + k) usizeMax = n + k ∨ min (n + k) usizeMax = usizeMax := by lia
  generalize min (n + k) usizeMax = reach at *
  clear hm hadd
  obtain hlt | hge := lt_or_ge l.length reach
  · -- the inner iterator ends before
    rw [Nat.sub_sub_self hlt.le, if_neg fun h => absurd h.1 (Nat.sub_ne_zero_of_lt hlt)]
    refine ⟨⟨iter1, n - l.length⟩, rfl, l.drop reach, hiter1, ?_, (sub_le _ _).trans hle⟩
    · rw [drop_eq_nil_of_le hlt.le, drop_eq_nil_of_le (by lia), drop_nil]
  rw [Nat.sub_eq_zero_of_le hge, Nat.sub_zero]
  by_cases hleft : k - (reach - n) > 0
  · -- the sum was cut off at the largest number, and there are as many elements
    obtain ⟨iter2, hadvance2, hiter2⟩ := h.advance_by (k - (reach - n)) hiter1 (by lia)
    obtain rfl : reach = usizeMax := by lia
    rw [if_pos ⟨rfl, hleft⟩, hadvance2, length_drop, Nat.sub_eq_zero_of_le hle]
    refine ⟨⟨iter2, 0⟩, congrArg some (Prod.ext ?_ rfl), ?_⟩
    · dsimp only
      lia
    · rw [drop_drop, show reach + (k - (reach - n)) = n + k by lia] at hiter2
      exact stands_zero hiter2
  · rw [if_neg fun h => hleft h.2]
    refine ⟨⟨iter1, n - reach⟩, congrArg some (Prod.ext ?_ rfl), l.drop reach, hiter1, ?_,
      (sub_le _ _).trans hle⟩
    · dsimp only
      lia
    · rw [drop_drop]
      congr 1
      dsimp only
      lia

theorem try_fold_spec : IsTryFold (A := A) (B := B) (Stands R usizeMax) (try_fold it) := by
  rintro f a s m ⟨l, hs⟩
  obtain ⟨exhausted, ⟨iter, hskip, hiter⟩, hnil⟩ := skip_first_spec h hs
  rw [try_fold, hskip]
  simp only [some_bind]
  cases exhausted with
  | true =>
    obtain rfl := hnil rfl
    exact ⟨⟨iter, 0⟩, rfl, stands_zero hiter⟩
  | false =>
    obtain ⟨iter', hfold, hiter'⟩ := h.try_fold f a hiter
    refine ⟨⟨iter', 0⟩, ?_, stands_zero hiter'⟩
    simp only [Bool.false_eq_true, if_false, hfold]
    rfl

theorem fold_spec : IsFold (A := A) (Stands R usizeMax) (fold it) := by
  rintro f a s m ⟨l, hs⟩
  obtain ⟨exhausted, ⟨iter, hskip, hiter⟩, hnil⟩ := skip_first_spec h hs
  rw [fold, hskip]
  cases exhausted with
  | true =>
    obtain rfl := hnil rfl
    rfl
  | false => exact h.fold f a hiter

omit h

theorem count_spec (h : it.Lawful usizeMax R) (hs : Stands R usizeMax s m)
    (hlen : m.length ≤ usizeMax) : count it s = some m.length := by
  obtain ⟨l, hs⟩ := hs
  obtain ⟨exhausted, ⟨iter, hskip, hiter⟩, hnil⟩ := skip_first_spec h.front hs
  rw [count, hskip]
  cases exhausted with
  | true =>
    obtain rfl := hnil rfl
    rfl
  | false => exact h.count hiter hlen

theorem last_spec (h : it.Lawful usizeMax R) (hs : Stands R usizeMax s m) :
    last it s = some m.getLast? := by
  obtain ⟨l, hs⟩ := hs
  obtain ⟨exhausted, ⟨iter, hskip, hiter⟩, hnil⟩ := skip_first_spec h.front hs
  rw [last, hskip]
  cases exhausted with
  | true =>
    obtain rfl := hnil rfl
    rfl
  | false => exact h.last hiter

theorem size_hint_spec (h : it.Lawful usizeMax R) (hs : Stands R usizeMax s m) :
    ValidHint usizeMax (size_hint it s) m.length := by
  obtain ⟨l, hs⟩ := hs
  have hhint := h.size_hint hs.iter
  have hlower := hhint.lower
  have hlower_le := hhint.lower_le
  rw [size_hint, hs.length]
  refine ⟨Nat.sub_le_sub_right hlower _, (Nat.sub_le _ _).trans hlower_le, fun hi hhi => ?_,
    fun hi hhi => ?_⟩
  · obtain ⟨x, hx, rfl⟩ := map_eq_some_iff.mp hhi
    have := hhint.upper x hx
    lia
  · obtain ⟨x, hx, rfl⟩ := map_eq_some_iff.mp hhi
    have := hhint.upper_le x hx
    lia

theorem size_hint_exact (h : ExactSize R it.size_hint) :
    ExactSize (Stands R usizeMax) (size_hint it) := by
  rintro s m ⟨l, hs⟩
  rw [size_hint, h hs.iter, hs.length]
  rfl

end Front

section Back

variable {it : DoubleEndedIterator σ T}

theorem len_eq (hexact : ExactSize R it.size_hint) (hs : Over R usizeMax s l m) :
    s.len it = some m.length := by
  have hskip : ExactSize (Stands R usizeMax) (size_hint it.toIterator) := size_hint_exact hexact
  exact len_spec hskip ⟨l, hs⟩

variable (h : it.back.Lawful usizeMax (Reversed R))
include h

/-- The element `k` from the back of the inner iterator. -/
theorem nth_inner_spec (hs : Over R usizeMax s l m)
    {k : ℕ} (hk : k ≤ usizeMax) (hlt : k < m.length) :
    ∃ iter, it.back.nth s.iter k = some (m.reverse[k]?, iter) ∧
      Stands R usizeMax { s with iter } (m.take (m.length - (k + 1))) := by
  have hlength := hs.length
  obtain ⟨iter, hnth, hiter⟩ := h.nth.back hs.iter hk
  refine ⟨iter, ?_, _, hiter, ?_, hs.le⟩
  · rw [hnth, hs.eq, reverse_drop, getElem?_take_of_lt (by lia)]
  · rw [hlength, hs.eq, take_drop]
    congr 2
    lia

variable (hexact : ExactSize R it.size_hint)
include hexact

theorem next_back_spec : IsNext (Reversed (Stands R usizeMax)) (next_back it) := by
  apply isNext_reversed
  rintro s m ⟨l, hs⟩
  have hlength := hs.length
  rw [next_back, len_eq hexact hs]
  simp only [some_bind]
  by_cases hpos : m.length > 0
  · obtain ⟨iter, hnext, hiter⟩ := h.next.back hs.iter
    refine ⟨{ s with iter }, ?_, _, hiter, ?_, hs.le⟩
    · rw [if_pos hpos, hnext, hs.eq, getLast?_drop, if_neg (by lia)]
      rfl
    · rw [hs.eq, dropLast_eq_take, dropLast_eq_take, take_drop, length_drop]
      congr 2
      lia
  · obtain rfl : m = [] := eq_nil_of_length_eq_zero (by lia)
    exact ⟨s, if_neg hpos, l, hs⟩

theorem nth_back_spec :
    IsNth usizeMax (Reversed (Stands R usizeMax)) (nth_back it) := by
  apply isNth_reversed
  rintro s m k ⟨l, hs⟩ hk
  rw [nth_back, len_eq hexact hs]
  simp only [some_bind]
  by_cases hlt : k < m.length
  · obtain ⟨iter, hnth, hs'⟩ := nth_inner_spec h hs hk hlt
    refine ⟨{ s with iter }, ?_, hs'⟩
    rw [if_pos hlt, hnth]
    rfl
  have hnone : m.reverse[k]? = none :=
    getElem?_eq_none (by rw [length_reverse]; lia)
  have hnil : m.length - (k + 1) = 0 := by lia
  rw [if_neg hlt, hnone, hnil, take_zero]
  by_cases hpos : m.length > 0
  · obtain ⟨iter, hnth, hs'⟩ :=
      nth_inner_spec h hs (show m.length - 1 ≤ usizeMax by lia) (by lia)
    rw [show m.length - (m.length - 1 + 1) = 0 by lia, take_zero] at hs'
    refine ⟨{ s with iter }, ?_, hs'⟩
    rw [if_pos hpos, checkedSub_eq hpos]
    simp only [some_bind, hnth]
    rfl
  · obtain rfl : m = [] := eq_nil_of_length_eq_zero (by lia)
    exact ⟨s, if_neg hpos, l, hs⟩

theorem try_rfold_spec :
    IsTryFold (A := A) (B := B) (Reversed (Stands R usizeMax)) (try_rfold it) := by
  apply isTryFold_reversed
  rintro f a s m ⟨l, hs⟩
  have hlength := hs.length
  rw [try_rfold, len_eq hexact hs]
  simp only [some_bind]
  by_cases hzero : m.length = 0
  · obtain rfl : m = [] := eq_nil_of_length_eq_zero hzero
    exact ⟨s, if_pos hzero, l, hs⟩
  obtain ⟨n, hn⟩ := exists_eq_succ_of_ne_zero hzero
  rw [succ_eq_add_one] at hn
  have hm : l.reverse.take (n + 1) = m.reverse := by
    rw [hs.eq, reverse_drop, ← hn, hlength]
  obtain ⟨iter, hfold, hiter⟩ := h.try_fold.back (check f) (n + 1, a) hs.iter
  obtain ⟨hresult, hrest⟩ := tryFold_check f n a l.reverse
  rw [hm] at hresult hrest
  refine ⟨{ s with iter }, ?_, _, hiter, ?_, hs.le⟩
  · rw [if_neg hzero, hn, hfold]
    simp only [some_bind, hresult]
    rfl
  · rw [hrest, reverse_append, drop_reverse, reverse_reverse,
      show l.length - (n + 1) = s.n by lia, drop_left' (by
        rw [length_take]; exact min_eq_left (by lia))]

theorem advance_back_by_spec :
    IsAdvanceBy usizeMax (Reversed (Stands R usizeMax)) (advance_back_by it) := by
  apply isAdvanceBy_reversed
  rintro s m k ⟨l, hs⟩ hk
  have hlength := hs.length
  obtain ⟨iter, hadvance, hiter⟩ := h.advance_by.back hs.iter (show min m.length k ≤ usizeMax by
    lia)
  refine ⟨{ s with iter }, ?_, _, hiter, ?_, hs.le⟩
  · rw [advance_back_by, len_eq hexact hs]
    simp only [some_bind, hadvance]
    rw [if_pos (by lia), checkedSub_eq (min_le_right _ _),
      show k - min m.length k = k - m.length by lia]
    rfl
  · rw [hlength, hs.eq, take_drop]
    obtain hlt | hge := lt_or_ge k (l.length - s.n)
    · congr 2
      lia
    · dsimp only
      rw [drop_eq_nil_of_le (by rw [length_take]; lia),
        drop_eq_nil_of_le (by rw [length_take]; lia)]

end Back

/-- **`Skip`** over a lawful iterator is lawful. -/
theorem iterator_lawful {it : DoubleEndedIterator σ T} (h : it.toIterator.Lawful usizeMax R) :
    (iterator usizeMax it).toIterator.Lawful usizeMax (Stands R usizeMax) where
  front :=
    { next := next_spec h.front
      nth := nth_spec h.front
      advance_by := advance_by_spec h.front
      try_fold := try_fold_spec h.front
      fold := fold_spec h.front }
  size_hint _ _ hs := size_hint_spec h hs
  count _ _ hs hlen := count_spec h hs hlen
  last _ _ hs := last_spec h hs

/-- Over an exact-size iterator, also from the back. -/
theorem lawful {it : DoubleEndedIterator σ T} (h : it.Lawful usizeMax R)
    (hexact : ExactSize R it.size_hint) :
    (iterator usizeMax it).Lawful usizeMax (Stands R usizeMax) where
  toLawful := iterator_lawful h.toLawful
  back :=
    { next := next_back_spec h.back hexact
      nth := nth_back_spec h.back hexact
      advance_by := advance_back_by_spec h.back hexact
      try_fold := try_rfold_spec h.back hexact
      fold := fold_via_try_fold_spec (try_rfold_spec h.back hexact) }

end Skip

end RustStd.Iter
