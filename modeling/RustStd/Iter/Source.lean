import RustStd.Foundations.Exec

/-!
# Iterators of unknown code

An adapter calls code that it does not know: the iterator it wraps, a closure. A call of such code
returns or unwinds, and changes a state of its own. Nothing is assumed of an iterator here, so it
may yield items again after a `None`. `HintValid` is what a size hint promises: the items that come
before the first `None` or the first unwinding are at least and at most as many.
-/

namespace RustStd.Iter

/-- What a call of unknown code does. -/
inductive Call (α : Type)
  | returns (a : α)
  | panics

/-- An iterator. -/
structure Source (σ T : Type) where
  next : σ → Call (Option T) × σ
  size_hint : σ → ℕ × Option ℕ

variable {σ T : Type}

namespace Source

variable (src : Source σ T) (s : σ)

/-- The iterator after `k` calls of `next`, whatever they answer. -/
def after : ℕ → σ
  | 0 => s
  | k + 1 => (src.next (after k)).2

/-- The answer of the call behind `k` others. -/
def answer (k : ℕ) : Call (Option T) := (src.next (src.after s k)).1

/-- How many items in a row the last of `k` calls have yielded. -/
def row : ℕ → ℕ
  | 0 => 0
  | k + 1 => match src.answer s k with
    | .returns (some _) => row k + 1
    | _ => 0

end Source

/-- At least `n` items come. -/
inductive AtLeast (next : σ → Exec (Call (Option T) × σ)) : ℕ → σ → Prop
  | zero (s : σ) : AtLeast next 0 s
  | item {s s' : σ} {x : T} {n : ℕ} : next s = .ok (.returns (some x), s') → AtLeast next n s' →
      AtLeast next (n + 1) s

/-- At most `n` items come. -/
inductive AtMost (next : σ → Exec (Call (Option T) × σ)) : ℕ → σ → Prop
  | stop {s s' : σ} {n : ℕ} : next s = .ok (.returns none, s') → AtMost next n s
  | unwind {s s' : σ} {n : ℕ} : next s = .ok (.panics, s') → AtMost next n s
  | item {s s' : σ} {x : T} {n : ℕ} : next s = .ok (.returns (some x), s') → AtMost next n s' →
      AtMost next (n + 1) s

/-- A size hint is valid. -/
def HintValid (next : σ → Exec (Call (Option T) × σ)) (hint : ℕ × Option ℕ) (s : σ) : Prop :=
  AtLeast next hint.1 s ∧ ∀ hi, hint.2 = some hi → AtMost next hi s

/-- `next` of an iterator, which does not fault. -/
def Source.step (src : Source σ T) (s : σ) : Exec (Call (Option T) × σ) := .ok (src.next s)

end RustStd.Iter
