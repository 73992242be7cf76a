import RustStd.Foundations.Backward

/-!
# Provided methods

The methods that an iterator has without an implementation of its own, after
`core/src/iter/traits/iterator.rs`, `double_ended.rs` and `exact_size.rs`. Each takes the methods
that it calls, so that an iterator with a `try_fold` of its own gets an `advance_by` that goes
through it. A loop that asks for elements until there are none runs for at most `turns` turns; that
is enough for every list shorter than that.
-/

namespace RustStd.Iter

variable {σ T A B : Type} {R : σ → List T → Prop} {usizeMax turns : ℕ} {s : σ} {l : List T}

namespace Provided

/-- `Iterator::try_fold`, and `try_rfold` -/
def try_fold (next : σ → Option (Option T × σ)) :
    ℕ → (A → T → Except B A) → A → σ → Option (Except B A × σ)
  | 0, _, _, _ => none
  | turns + 1, f, a, s => do
    let (x, s) ← next s
    match x with
    | none => return (.ok a, s)
    | some x =>
      match f a x with
      | .ok a => try_fold next turns f a s
      | .error b => return (.error b, s)

/-- `Iterator::fold`, and `rfold` -/
def fold (next : σ → Option (Option T × σ)) : ℕ → (A → T → A) → A → σ → Option A
  | 0, _, _, _ => none
  | turns + 1, f, a, s => do
    let (x, s) ← next s
    match x with
    | none => return a
    | some x => fold next turns f (f a x) s

/-- `impl_fold_via_try_fold!` -/
def fold_via_try_fold (try_fold : (A → T → Except Empty A) → A → σ → Option (Except Empty A × σ))
    (f : A → T → A) (a : A) (s : σ) : Option A := do
  let (r, _) ← try_fold (fun a x => .ok (f a x)) a s
  match r with
  | .ok a => return a

/-- `Iterator::advance_by` -/
def advance_by (try_fold : (ℕ → T → Except Unit ℕ) → ℕ → σ → Option (Except Unit ℕ × σ)) (s : σ)
    (n : ℕ) : Option (ℕ × σ) :=
  if n = 0 then some (0, s)
  else do
    let (r, s) ← try_fold (fun n _ => if n - 1 = 0 then .error () else .ok (n - 1)) n s
    match r with
    | .error () => return (0, s)
    | .ok n => return (n, s)

/-- `DoubleEndedIterator::advance_back_by` -/
def advance_back_by (next_back : σ → Option (Option T × σ)) : σ → ℕ → Option (ℕ × σ)
  | s, 0 => some (0, s)
  | s, n + 1 => do
    let (x, s) ← next_back s
    if x.isNone then return (n + 1, s) else advance_back_by next_back s n

/-- `Iterator::nth`, and `nth_back` -/
def nth (advance_by : σ → ℕ → Option (ℕ × σ)) (next : σ → Option (Option T × σ)) (s : σ) (n : ℕ) :
    Option (Option T × σ) := do
  let (k, s) ← advance_by s n
  if k = 0 then next s else return (none, s)

/-- `Iterator::count`, which panics when the number is no `usize`. -/
def count (usizeMax : ℕ) (fold : (ℕ → T → ℕ) → ℕ → σ → Option ℕ) (s : σ) : Option ℕ := do
  let n ← fold (fun count _ => count + 1) 0 s
  if n ≤ usizeMax then return n else none

/-- `Iterator::last` -/
def last (fold : (Option T → T → Option T) → Option T → σ → Option (Option T)) (s : σ) :
    Option (Option T) :=
  fold (fun _ x => some x) none s

/-- `ExactSizeIterator::len` -/
def len (size_hint : σ → ℕ × Option ℕ) (s : σ) : Option ℕ :=
  let (lower, upper) := size_hint s
  if upper = some lower then some lower else none

/-- An iterator with no other methods of its own than these. -/
def iterator (turns : ℕ) (next next_back : σ → Option (Option T × σ))
    (nth nth_back : σ → ℕ → Option (Option T × σ)) (size_hint : σ → ℕ × Option ℕ)
    (count : σ → Option ℕ) (last : σ → Option (Option T)) : DoubleEndedIterator σ T where
  front :=
    { next
      nth
      advance_by := advance_by (try_fold next turns)
      try_fold := try_fold next turns
      fold := fold next turns }
  size_hint
  count
  last
  back :=
    { next := next_back
      nth := nth_back
      advance_by := advance_back_by next_back
      try_fold := try_fold next_back turns
      fold := fold next_back turns }

end Provided

open Provided List

variable {next : σ → Option (Option T × σ)}

theorem try_fold_spec (h : IsNext R next)
    (f : A → T → Except B A) (a : A) (hs : R s l) (hl : l.length < turns) :
    Yields R (try_fold next turns f a s) (tryFold f a l).1 (tryFold f a l).2 := by
  induction turns generalizing a s l with
  | zero => exact absurd hl (Nat.not_lt_zero _)
  | succ turns ih =>
    obtain ⟨s', hnext, hs'⟩ := h hs
    rw [try_fold, hnext]
    cases l with
    | nil => exact ⟨s', rfl, hs'⟩
    | cons x l =>
      rw [tryFold]
      simp only [head?_cons, Option.bind_eq_bind, Option.bind_some]
      cases f a x with
      | ok a => exact ih a hs' (by simpa using hl)
      | error b => exact ⟨s', rfl, hs'⟩

theorem fold_spec (h : IsNext R next) (f : A → T → A) (a : A)
    (hs : R s l) (hl : l.length < turns) : fold next turns f a s = some (l.foldl f a) := by
  induction turns generalizing a s l with
  | zero => exact absurd hl (Nat.not_lt_zero _)
  | succ turns ih =>
    obtain ⟨s', hnext, hs'⟩ := h hs
    rw [fold, hnext]
    cases l with
    | nil => rfl
    | cons x l => exact ih (f a x) hs' (by simpa using hl)

theorem fold_via_try_fold_spec
    {try_fold : (A → T → Except Empty A) → A → σ → Option (Except Empty A × σ)}
    (h : IsTryFold R try_fold) : IsFold R (fold_via_try_fold try_fold) := by
  intro f a s l hs
  obtain ⟨s', hfold, -⟩ := h (fun a x => .ok (f a x)) a hs
  rw [tryFold_never_stops] at hfold
  rw [fold_via_try_fold, hfold]
  rfl

/-- Counting down stops at the last element to skip. -/
theorem tryFold_countdown {n : ℕ} (hn : 0 < n) (l : List T) :
    tryFold (fun n (_ : T) => if n - 1 = 0 then Except.error () else .ok (n - 1)) n l =
      if n ≤ l.length then (.error (), l.drop n) else (.ok (n - l.length), []) := by
  induction l generalizing n with
  | nil =>
    rw [tryFold, if_neg (by rw [length_nil]; omega)]
    rfl
  | cons x l ih =>
    rw [tryFold]
    obtain ⟨m, rfl⟩ := Nat.exists_eq_succ_of_ne_zero (Nat.ne_of_gt hn)
    obtain rfl | hm := Nat.eq_zero_or_pos m
    · simp
    · simp [Nat.ne_of_gt hm, ih hm, Nat.add_sub_add_right]

theorem advance_by_spec
    {try_fold : (ℕ → T → Except Unit ℕ) → ℕ → σ → Option (Except Unit ℕ × σ)}
    (h : IsTryFold R try_fold) : IsAdvanceBy usizeMax R (advance_by try_fold) := by
  intro s l n hs _
  rw [advance_by]
  split
  · next hn =>
    subst hn
    exact ⟨s, by simp, hs⟩
  next hn =>
  have hpos := Nat.pos_of_ne_zero hn
  obtain ⟨s', hfold, hs'⟩ :=
    h (fun n _ => if n - 1 = 0 then Except.error () else .ok (n - 1)) n hs
  rw [tryFold_countdown hpos] at hfold hs'
  rw [hfold]
  by_cases hle : n ≤ l.length
  · rw [if_pos hle] at hs' ⊢
    exact ⟨s', by rw [Nat.sub_eq_zero_of_le hle]; rfl, hs'⟩
  · rw [if_neg hle] at hs' ⊢
    refine ⟨s', rfl, ?_⟩
    rwa [drop_eq_nil_of_le (by omega)]

theorem advance_back_by_spec {next_back : σ → Option (Option T × σ)} (h : IsNext R next_back) :
    IsAdvanceBy usizeMax R (advance_back_by next_back) := by
  intro s l n hs _
  induction n generalizing s l with
  | zero => exact ⟨s, by rw [advance_back_by, Nat.zero_sub], hs⟩
  | succ n ih =>
    obtain ⟨s', hnext, hs'⟩ := h hs
    rw [advance_back_by, hnext]
    cases l with
    | nil => exact ⟨s', rfl, hs'⟩
    | cons x l =>
      rw [length_cons, Nat.add_sub_add_right, drop_succ_cons]
      exact ih hs' (by omega)

theorem nth_spec {advance_by : σ → ℕ → Option (ℕ × σ)}
    (hadvance : IsAdvanceBy usizeMax R advance_by) (hnext : IsNext R next) :
    IsNth usizeMax R (nth advance_by next) := by
  intro s l n hs hn
  obtain ⟨s1, hadv, hs1⟩ := hadvance n hs hn
  rw [nth, hadv]
  simp only [Option.bind_eq_bind, Option.bind_some]
  by_cases hle : n ≤ l.length
  · obtain ⟨s2, hstep, hs2⟩ := hnext hs1
    rw [if_pos (Nat.sub_eq_zero_of_le hle), hstep]
    exact ⟨s2, by rw [head?_drop], by rwa [← tail_drop]⟩
  · rw [if_neg (by omega)]
    refine ⟨s1, by rw [getElem?_eq_none (by omega)]; rfl, ?_⟩
    rw [drop_eq_nil_of_le (by omega)] at hs1 ⊢
    exact hs1

theorem foldl_count (l : List T) (n : ℕ) : l.foldl (fun count _ => count + 1) n = n + l.length := by
  induction l generalizing n with
  | nil => rfl
  | cons x l ih => rw [foldl_cons, ih, length_cons]; omega

theorem count_spec {fold : (ℕ → T → ℕ) → ℕ → σ → Option ℕ} (h : IsFold R fold)
    (hs : R s l) (hl : l.length ≤ usizeMax) : count usizeMax fold s = some l.length := by
  rw [Provided.count, h _ _ hs, foldl_count, Nat.zero_add]
  simp [hl]

theorem foldl_last (l : List T) (x : Option T) :
    l.foldl (fun _ x => some x) x = l.getLast?.or x := by
  induction l generalizing x with
  | nil => rfl
  | cons y l ih => rw [foldl_cons, ih, getLast?_cons]; cases l.getLast? <;> rfl

theorem last_spec {fold : (Option T → T → Option T) → Option T → σ → Option (Option T)}
    (h : IsFold R fold) (hs : R s l) : last fold s = some l.getLast? := by
  rw [last, h _ _ hs, foldl_last, Option.or_none]

theorem len_spec {size_hint : σ → ℕ × Option ℕ} (h : ExactSize R size_hint) (hs : R s l) :
    len size_hint s = some l.length := by
  rw [len, h hs]
  simp

theorem exactHint_valid {hint : ℕ × Option ℕ} {n : ℕ} (h : hint = (n, some n)) (hn : n ≤ usizeMax) :
    ValidHint usizeMax hint n := by
  subst h
  exact ⟨Nat.le_refl _, hn, fun hi hhi => by cases hhi; exact Nat.le_refl _,
    fun hi hhi => by cases hhi; exact hn⟩

/-- An iterator whose other methods are provided is lawful. -/
theorem provided_lawful {next_back : σ → Option (Option T × σ)}
    {nth nth_back : σ → ℕ → Option (Option T × σ)} {size_hint : σ → ℕ × Option ℕ}
    {count : σ → Option ℕ} {last : σ → Option (Option T)} (hnext : IsNext R next)
    (hnth : IsNth usizeMax R nth) (hback : IsNext (Reversed R) next_back)
    (hnth_back : IsNth usizeMax (Reversed R) nth_back)
    (hhint : ∀ ⦃s l⦄, R s l → ValidHint usizeMax (size_hint s) l.length)
    (hcount : ∀ ⦃s l⦄, R s l → l.length ≤ usizeMax → count s = some l.length)
    (hlast : ∀ ⦃s l⦄, R s l → last s = some l.getLast?)
    (hturns : ∀ ⦃s l⦄, R s l → l.length < turns) :
    (Provided.iterator turns next next_back nth nth_back size_hint count last).Lawful usizeMax R
    where
  front :=
    { next := hnext
      nth := hnth
      advance_by := advance_by_spec fun f a _ _ h => try_fold_spec hnext f a h (hturns h)
      try_fold := fun f a _ _ h => try_fold_spec hnext f a h (hturns h)
      fold := fun f a _ _ h => fold_spec hnext f a h (hturns h) }
  size_hint := hhint
  count := hcount
  last := hlast
  back :=
    { next := hback
      nth := hnth_back
      advance_by := advance_back_by_spec hback
      try_fold := fun f a _ l h => try_fold_spec hback f a h
        (by rw [← l.length_reverse]; exact hturns h)
      fold := fun f a _ l h => fold_spec hback f a h
        (by rw [← l.length_reverse]; exact hturns h) }

end RustStd.Iter
