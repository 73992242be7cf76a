import RustStd.Foundations.Strided
import RustStd.Foundations.Word
import RustStd.Iter.Provided

/-!
# Stepping by a number

The adapter `StepBy`, after `core/src/iter/adapters/step_by.rs`: over any iterator, and the
implementation for `Range` of an unsigned integer type no wider than `usize`, whose largest value is
`tMax`. There `setup` puts the number of elements to come into the end of the range. A range itself
is the one of `core/src/iter/range.rs`. Subtractions of the source that would wrap around fail here.
-/

namespace RustStd.Iter

variable {σ T A B : Type}

/-! ## Ranges -/

structure Range where
  start : ℕ
  «end» : ℕ

namespace Range

/-- `Step::forward_unchecked` -/
def forward_unchecked (tMax start n : ℕ) : Option ℕ :=
  if start + n ≤ tMax then some (start + n) else none

/-- `Step::backward_unchecked` -/
def backward_unchecked (start n : ℕ) : Option ℕ := checkedSub start n

/-- `Step::forward_checked` -/
def forward_checked (tMax start n : ℕ) : Option ℕ :=
  if n ≤ tMax ∧ start + n ≤ tMax then some (start + n) else none

/-- `Step::backward_checked` -/
def backward_checked (tMax start n : ℕ) : Option ℕ :=
  if n ≤ tMax then checkedSub start n else none

/-- `Step::steps_between` -/
def steps_between (start «end» : ℕ) : ℕ × Option ℕ :=
  if start ≤ «end» then («end» - start, some («end» - start)) else (0, none)

/-- `spec_next` -/
def next (tMax : ℕ) (self : Range) : Option (Option ℕ × Range) :=
  if self.start < self.end then do
    return (some self.start, { self with start := ← forward_unchecked tMax self.start 1 })
  else some (none, self)

/-- `spec_nth` -/
def nth (tMax : ℕ) (self : Range) (n : ℕ) : Option (Option ℕ × Range) :=
  match forward_checked tMax self.start n with
  | some plus_n =>
    if plus_n < self.end then do
      return (some plus_n, { self with start := ← forward_unchecked tMax plus_n 1 })
    else some (none, { self with start := self.end })
  | none => some (none, { self with start := self.end })

/-- `spec_advance_by` -/
def advance_by (tMax : ℕ) (self : Range) (n : ℕ) : Option (ℕ × Range) := do
  let steps := steps_between self.start self.end
  let available := steps.2.getD steps.1
  let taken := min available n
  return (n - taken, { self with start := ← forward_unchecked tMax self.start taken })

/-- `spec_next_back` -/
def next_back (self : Range) : Option (Option ℕ × Range) :=
  if self.start < self.end then do
    let «end» ← backward_unchecked self.end 1
    return (some «end», { self with «end» })
  else some (none, self)

/-- `spec_nth_back` -/
def nth_back (tMax : ℕ) (self : Range) (n : ℕ) : Option (Option ℕ × Range) :=
  match backward_checked tMax self.end n with
  | some minus_n =>
    if minus_n > self.start then do
      let «end» ← backward_unchecked minus_n 1
      return (some «end», { self with «end» })
    else some (none, { self with «end» := self.start })
  | none => some (none, { self with «end» := self.start })

/-- `spec_advance_back_by` -/
def advance_back_by (self : Range) (n : ℕ) : Option (ℕ × Range) := do
  let steps := steps_between self.start self.end
  let available := steps.2.getD steps.1
  let taken := min available n
  return (n - taken, { self with «end» := ← backward_unchecked self.end taken })

def size_hint (self : Range) : ℕ × Option ℕ :=
  if self.start < self.end then steps_between self.start self.end else (0, some 0)

def count (self : Range) : Option ℕ :=
  if self.start < self.end then (steps_between self.start self.end).2 else some 0

def last (self : Range) : Option (Option ℕ) := do return (← self.next_back).1

def iterator (tMax turns : ℕ) : DoubleEndedIterator Range ℕ where
  front :=
    { next := next tMax
      nth := nth tMax
      advance_by := advance_by tMax
      try_fold := Provided.try_fold (next tMax) turns
      fold := Provided.fold (next tMax) turns }
  size_hint := size_hint
  count := count
  last := last
  back :=
    { next := next_back
      nth := nth_back tMax
      advance_by := advance_back_by
      try_fold := Provided.try_fold next_back turns
      fold := Provided.fold next_back turns }

end Range

/-! ## The adapter -/

structure StepBy (σ : Type) where
  iter : σ
  step_minus_one : ℕ
  first_take : Bool

namespace StepBy

/-- `new`, where `setup` changes nothing. -/
def new (iter : σ) (step : ℕ) : Option (StepBy σ) := do
  return ⟨iter, ← checkedSub step 1, true⟩

def original_step (self : StepBy σ) : ℕ := self.step_minus_one + 1

section Generic

variable (usizeMax turns : ℕ) (it : DoubleEndedIterator σ T)

def spec_next (self : StepBy σ) : Option (Option T × StepBy σ) := do
  let step_size := if self.first_take then 0 else self.step_minus_one
  let (x, iter) ← it.front.nth self.iter step_size
  return (x, { self with iter, first_take := false })

def first_size (step n : ℕ) : ℕ := if n = 0 then 0 else 1 + (n - 1) / step

def other_size (step n : ℕ) : ℕ := n / step

def spec_size_hint (self : StepBy σ) : ℕ × Option ℕ :=
  let (low, high) := it.size_hint self.iter
  let f := if self.first_take then first_size self.original_step else other_size self.original_step
  (f low, high.map f)

/-- The loop of `spec_nth`. A turn makes `n` or `step` smaller, so that `n + step` turns are
enough. -/
def nth_loop : ℕ → ℕ → ℕ → σ → Option (Option T × σ)
  | 0, _, _, _ => none
  | turns + 1, n, step, iter =>
    if n * step ≤ usizeMax then do it.front.nth iter (← checkedSub (n * step) 1)
    else do
      let div_n := usizeMax / n
      let div_step := usizeMax / step
      let nth_n := div_n * n
      let nth_step := div_step * step
      if nth_n > nth_step then
        let step ← checkedSub step div_n
        let (_, iter) ← it.front.nth iter (← checkedSub nth_n 1)
        nth_loop turns n step iter
      else
        let n ← checkedSub n div_step
        let (_, iter) ← it.front.nth iter (← checkedSub nth_step 1)
        nth_loop turns n step iter

/-- What `spec_nth` does after the first element. -/
def nth_rest (self : StepBy σ) (n : ℕ) : Option (Option T × StepBy σ) := do
  let step := self.original_step
  let (n, iter) ←
    if n = usizeMax then do
      let (_, iter) ← it.front.nth self.iter (← checkedSub step 1)
      some (n, iter)
    else some (n + 1, self.iter)
  let (x, iter) ← nth_loop usizeMax it (n + step) n step iter
  return (x, { self with iter })

def spec_nth (self : StepBy σ) (n : ℕ) : Option (Option T × StepBy σ) :=
  if self.first_take then do
    let (first, iter) ← it.front.next self.iter
    let self := { self with iter, first_take := false }
    if n = 0 then return (first, self) else self.nth_rest usizeMax it (n - 1)
  else self.nth_rest usizeMax it n

/-- `from_fn(nth(..)).try_fold(..)` -/
def try_fold_rest (f : A → T → Except B A) (a : A) (self : StepBy σ) :
    Option (Except B A × StepBy σ) := do
  let (r, iter) ←
    Provided.try_fold (fun iter => it.front.nth iter self.step_minus_one) turns f a self.iter
  return (r, { self with iter })

def spec_try_fold (f : A → T → Except B A) (a : A) (self : StepBy σ) :
    Option (Except B A × StepBy σ) :=
  if self.first_take then do
    let (x, iter) ← it.front.next self.iter
    let self := { self with iter, first_take := false }
    match x with
    | none => return (.ok a, self)
    | some x =>
      match f a x with
      | .ok a => self.try_fold_rest turns it f a
      | .error b => return (.error b, self)
  else self.try_fold_rest turns it f a

def spec_fold (f : A → T → A) (a : A) (self : StepBy σ) : Option A :=
  let rest (a : A) (iter : σ) :=
    Provided.fold (fun iter => it.front.nth iter self.step_minus_one) turns f a iter
  if self.first_take then do
    let (x, iter) ← it.front.next self.iter
    match x with
    | none => return a
    | some x => rest (f a x) iter
  else rest a self.iter

def next_back_index (self : StepBy σ) : Option ℕ := do
  let rem := (← Provided.len it.size_hint self.iter) % self.original_step
  if self.first_take then
    if rem = 0 then return self.step_minus_one else checkedSub rem 1
  else return rem

def spec_next_back (self : StepBy σ) : Option (Option T × StepBy σ) := do
  let (x, iter) ← it.back.nth self.iter (← self.next_back_index it)
  return (x, { self with iter })

def spec_nth_back (self : StepBy σ) (n : ℕ) : Option (Option T × StepBy σ) := do
  -- `saturating_mul` and `saturating_add`
  let n := min (min (n * self.original_step) usizeMax + (← self.next_back_index it)) usizeMax
  let (x, iter) ← it.back.nth self.iter n
  return (x, { self with iter })

def spec_try_rfold (f : A → T → Except B A) (a : A) (self : StepBy σ) :
    Option (Except B A × StepBy σ) := do
  let (x, self) ← self.spec_next_back it
  match x with
  | none => return (.ok a, self)
  | some x =>
    match f a x with
    | .ok a => do
      let (r, iter) ←
        Provided.try_fold (fun iter => it.back.nth iter self.step_minus_one) turns f a self.iter
      return (r, { self with iter })
    | .error b => return (.error b, self)

def spec_rfold (f : A → T → A) (a : A) (self : StepBy σ) : Option A := do
  let (x, self) ← self.spec_next_back it
  match x with
  | none => return a
  | some x =>
    Provided.fold (fun iter => it.back.nth iter self.step_minus_one) turns f (f a x) self.iter

def iterator : DoubleEndedIterator (StepBy σ) T where
  front :=
    { next := spec_next it
      nth := spec_nth usizeMax it
      advance_by := Provided.advance_by (spec_try_fold turns it)
      try_fold := spec_try_fold turns it
      fold := spec_fold turns it }
  size_hint := spec_size_hint it
  count := Provided.count usizeMax (spec_fold turns it)
  last := Provided.last (spec_fold turns it)
  back :=
    { next := spec_next_back it
      nth := spec_nth_back usizeMax it
      advance_by := Provided.advance_back_by (spec_next_back it)
      try_fold := spec_try_rfold turns it
      fold := spec_rfold turns it }

end Generic

/-! ## Ranges of integers -/

namespace Ranges

variable (usizeMax tMax turns : ℕ)

/-- `setup`, which puts the number of elements into the end of the range. -/
def setup (r : Range) (step : ℕ) : Range :=
  let inner_len := r.size_hint.1
  let yield_count := div_ceil inner_len step
  -- The conversion to the type of the range keeps the low bits.
  { r with «end» := yield_count % (tMax + 1) }

def new (r : Range) (step : ℕ) : Option (StepBy Range) :=
  if step = 0 then none else StepBy.new (setup tMax r step) step

/-- `T::try_from(step).unwrap_or(T::MAX)` -/
def clamped (self : StepBy Range) : ℕ :=
  if self.original_step ≤ tMax then self.original_step else tMax

/-- `spec_next`, where `wrapping_add` may wrap around after the last element. -/
def spec_next (self : StepBy Range) : Option (Option ℕ × StepBy Range) :=
  let step := clamped tMax self
  let remaining := self.iter.end
  if remaining > 0 then
    let val := self.iter.start
    some (some val, { self with iter := ⟨(val + step) % (tMax + 1), remaining - 1⟩ })
  else some (none, self)

def spec_size_hint (self : StepBy Range) : ℕ × Option ℕ :=
  let remaining := self.iter.end
  (remaining, some remaining)

def spec_try_fold (f : A → ℕ → Except B A) (a : A) (self : StepBy Range) :
    Option (Except B A × StepBy Range) :=
  Provided.try_fold (spec_next tMax) turns f a self

def spec_nth (self : StepBy Range) (n : ℕ) : Option (Option ℕ × StepBy Range) :=
  Provided.nth (Provided.advance_by (spec_try_fold tMax turns)) (spec_next tMax) self n

/-- The loop of `spec_fold`. -/
def fold_loop (step : ℕ) (f : A → ℕ → A) : ℕ → A → ℕ → A
  | 0, a, _ => a
  | remaining + 1, a, val => fold_loop step f remaining (f a val) ((val + step) % (tMax + 1))

def spec_fold (f : A → ℕ → A) (a : A) (self : StepBy Range) : Option A :=
  some (fold_loop tMax (clamped tMax self) f self.iter.end a self.iter.start)

/-- `spec_next_back`; a sum or a product past the largest value fails. -/
def spec_next_back (self : StepBy Range) : Option (Option ℕ × StepBy Range) :=
  -- This conversion does too.
  let step := self.original_step % (tMax + 1)
  let remaining := self.iter.end
  if remaining > 0 then
    let start := self.iter.start
    if start + step * (remaining - 1) ≤ tMax then
      some (some (start + step * (remaining - 1)),
        { self with iter := { self.iter with «end» := remaining - 1 } })
    else none
  else some (none, self)

def spec_nth_back (self : StepBy Range) (n : ℕ) : Option (Option ℕ × StepBy Range) :=
  Provided.nth (Provided.advance_back_by (spec_next_back tMax)) (spec_next_back tMax) self n

def spec_try_rfold (f : A → ℕ → Except B A) (a : A) (self : StepBy Range) :
    Option (Except B A × StepBy Range) :=
  Provided.try_fold (spec_next_back tMax) turns f a self

def spec_rfold (f : A → ℕ → A) (a : A) (self : StepBy Range) : Option A :=
  Provided.fold (spec_next_back tMax) turns f a self

def iterator : DoubleEndedIterator (StepBy Range) ℕ where
  front :=
    { next := spec_next tMax
      nth := spec_nth tMax turns
      advance_by := Provided.advance_by (spec_try_fold tMax turns)
      try_fold := spec_try_fold tMax turns
      fold := spec_fold tMax }
  size_hint := spec_size_hint
  count := Provided.count usizeMax (spec_fold tMax)
  last := Provided.last (spec_fold tMax)
  back :=
    { next := spec_next_back tMax
      nth := spec_nth_back tMax
      advance_by := Provided.advance_back_by (spec_next_back tMax)
      try_fold := spec_try_rfold tMax turns
      fold := spec_rfold tMax turns }

end Ranges

end StepBy

end RustStd.Iter
