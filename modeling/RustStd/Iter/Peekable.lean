import RustStd.Iter.Concat
import RustStd.Iter.Take

/-!
# An iterator with a lookahead

`Peekable`, after `core/src/iter/adapters/peekable.rs`. The next element may have been taken out of
the iterator already, and so may its end. Over an iterator that stands for a list it stands for the
same list (`Peekable.iterator_lawful`, `Peekable.lawful`), also when it is peeked at in between
(`Peekable.peeks`).
-/

namespace RustStd.Iter

open List Nat

open FlattenCompat (checked_add saturating_add checked_add_eq_some)
open Take (checked_add_eq)

variable {σ T A B Q α : Type} {R : σ → List T → Prop} {usizeMax : ℕ} {l m : List T}

structure Peekable (σ T : Type) where
  iter : σ
  peeked : Option (Option T)

namespace Peekable

def new (iter : σ) : Peekable σ T := ⟨iter, none⟩

section Front

variable (usizeMax : ℕ) (it : Iterator σ T)

def next (self : Peekable σ T) : Option (Option T × Peekable σ T) :=
  match self.peeked with
  | some v => some (v, { self with peeked := none })
  | none => do
    let (x, iter) ← it.front.next self.iter
    return (x, ⟨iter, none⟩)

def count (self : Peekable σ T) : Option ℕ :=
  match self.peeked with
  | some none => some 0
  | some (some _) => do checked_add usizeMax 1 (← it.count self.iter)
  | none => it.count self.iter

def nth (self : Peekable σ T) (n : ℕ) : Option (Option T × Peekable σ T) :=
  match self.peeked with
  | some none => some (none, { self with peeked := none })
  | some (some v) =>
    if n = 0 then some (some v, { self with peeked := none })
    else do
      let (x, iter) ← it.front.nth self.iter (← checkedSub n 1)
      return (x, ⟨iter, none⟩)
  | none => do
    let (x, iter) ← it.front.nth self.iter n
    return (x, ⟨iter, none⟩)

def last (self : Peekable σ T) : Option (Option T) :=
  match self.peeked with
  | some none => some none
  | some (some v) => do return (← it.last self.iter).or (some v)
  | none => do return (← it.last self.iter).or none

def size_hint (self : Peekable σ T) : ℕ × Option ℕ :=
  match self.peeked with
  | some none => (0, some 0)
  | some (some _) => hinted 1
  | none => hinted 0
where
  /-- The hint of the iterator, with what was taken out of it. -/
  hinted (peek_len : ℕ) : ℕ × Option ℕ :=
    let (lo, hi) := it.size_hint self.iter
    (saturating_add usizeMax lo peek_len, hi.bind fun x => checked_add usizeMax x peek_len)

/-- `self.iter.try_fold(acc, f)`, when nothing is peeked any more. -/
def try_fold_iter (f : A → T → Except B A) (a : A) (iter : σ) :
    Option (Except B A × Peekable σ T) := do
  let (r, iter) ← it.front.try_fold f a iter
  return (r, ⟨iter, none⟩)

def try_fold (f : A → T → Except B A) (a : A) (self : Peekable σ T) :
    Option (Except B A × Peekable σ T) :=
  match self.peeked with
  | some none => some (.ok a, { self with peeked := none })
  | some (some v) =>
    match f a v with
    | .error b => some (.error b, { self with peeked := none })
    | .ok a => try_fold_iter it f a self.iter
  | none => try_fold_iter it f a self.iter

def fold (f : A → T → A) (a : A) (self : Peekable σ T) : Option A :=
  match self.peeked with
  | some none => some a
  | some (some v) => it.front.fold f (f a v) self.iter
  | none => it.front.fold f a self.iter

def peek (self : Peekable σ T) : Option (Option T × Peekable σ T) :=
  match self.peeked with
  | some v => some (v, self)
  | none => do
    let (x, iter) ← it.front.next self.iter
    return (x, ⟨iter, some x⟩)

def next_if (func : T → Bool) (self : Peekable σ T) : Option (Option T × Peekable σ T) := do
  let (x, self) ← self.next it
  match x with
  | some matched =>
    if func matched then return (some matched, self)
    else if self.peeked.isNone then return (none, { self with peeked := some x })
    else none
  | none => if self.peeked.isNone then return (none, { self with peeked := some x }) else none

end Front

section Back

variable (w : Sweep σ T)

def next_back (self : Peekable σ T) : Option (Option T × Peekable σ T) :=
  match self.peeked with
  | some (some v) => do
    let (x, iter) ← w.next self.iter
    match x with
    | some x => return (some x, { self with iter })
    | none => return (some v, ⟨iter, some none⟩)
  | some none => some (none, self)
  | none => do
    let (x, iter) ← w.next self.iter
    return (x, { self with iter })

def try_rfold (f : A → T → Except B A) (a : A) (self : Peekable σ T) :
    Option (Except B A × Peekable σ T) :=
  match self.peeked with
  | some none => some (.ok a, { self with peeked := none })
  | some (some v) => do
    let (r, iter) ← w.try_fold f a self.iter
    match r with
    | .ok a => return (f a v, ⟨iter, none⟩)
    | .error b => return (.error b, ⟨iter, some (some v)⟩)
  | none => do
    let (r, iter) ← w.try_fold f a self.iter
    return (r, ⟨iter, none⟩)

def rfold (f : A → T → A) (a : A) (self : Peekable σ T) : Option A :=
  match self.peeked with
  | some none => some a
  | some (some v) => do return f (← w.fold f a self.iter) v
  | none => w.fold f a self.iter

end Back

def iterator (usizeMax : ℕ) (it : DoubleEndedIterator σ T) :
    DoubleEndedIterator (Peekable σ T) T where
  front :=
    { next := next it.toIterator
      nth := nth it.toIterator
      advance_by := Provided.advance_by (try_fold it.toIterator)
      try_fold := try_fold it.toIterator
      fold := fold it.toIterator }
  size_hint := size_hint usizeMax it.toIterator
  count := count usizeMax it.toIterator
  last := last it.toIterator
  back :=
    { next := next_back it.back
      nth := Provided.nth (Provided.advance_back_by (next_back it.back)) (next_back it.back)
      advance_by := Provided.advance_back_by (next_back it.back)
      try_fold := try_rfold it.back
      fold := rfold it.back }

/-- What was peeked at comes before what the iterator has left. -/
inductive Stands (R : σ → List T → Prop) : Peekable σ T → List T → Prop
  | unpeeked {iter l} (h : R iter l) : Stands R ⟨iter, none⟩ l
  | peeked {iter l} (x : T) (h : R iter l) : Stands R ⟨iter, some (some x)⟩ (x :: l)
  | exhausted {iter} (h : R iter []) : Stands R ⟨iter, some none⟩ []

section Front

variable {it : Iterator σ T} {s : Peekable σ T}

theorem next_spec (h : IsNext R it.front.next) : IsNext (Stands R) (next it) := by
  rintro _ _ (⟨hl⟩ | ⟨x, hl⟩ | ⟨hl⟩)
  · obtain ⟨iter, hnext, hiter⟩ := h hl
    refine ⟨⟨iter, none⟩, ?_, .unpeeked hiter⟩
    rw [next]
    rw [hnext]
    rfl
  · exact ⟨_, rfl, .unpeeked hl⟩
  · exact ⟨_, rfl, .unpeeked hl⟩

theorem nth_spec (h : IsNth usizeMax R it.front.nth) : IsNth usizeMax (Stands R) (nth it) := by
  rintro _ _ n (⟨hl⟩ | ⟨x, hl⟩ | ⟨hl⟩) hn
  · obtain ⟨iter, hnth, hiter⟩ := h n hl hn
    refine ⟨⟨iter, none⟩, ?_, .unpeeked hiter⟩
    rw [nth]
    rw [hnth]
    rfl
  · cases n with
    | zero => exact ⟨_, rfl, .unpeeked hl⟩
    | succ n =>
      obtain ⟨iter, hnth, hiter⟩ := h n hl (Nat.le_of_succ_le hn)
      refine ⟨⟨iter, none⟩, ?_, .unpeeked hiter⟩
      rw [nth]
      dsimp only
      rw [if_neg (Nat.succ_ne_zero n), checkedSub_eq (Nat.le_add_left 1 n)]
      simp only [some_bind, Nat.add_sub_cancel, hnth]
      rfl
  · refine ⟨_, rfl, ?_⟩
    rw [drop_nil]
    exact .unpeeked hl

theorem try_fold_iter_spec (h : IsTryFold (A := A) (B := B) R it.front.try_fold)
    (f : A → T → Except B A) (a : A) {iter : σ} (hl : R iter l) :
    Yields (Stands R) (try_fold_iter it f a iter) (tryFold f a l).1 (tryFold f a l).2 := by
  obtain ⟨iter', hfold, hiter'⟩ := h f a hl
  refine ⟨⟨iter', none⟩, ?_, .unpeeked hiter'⟩
  rw [try_fold_iter, hfold]
  rfl

theorem try_fold_spec (h : IsTryFold (A := A) (B := B) R it.front.try_fold) :
    IsTryFold (A := A) (B := B) (Stands R) (try_fold it) := by
  rintro f a _ _ (⟨hl⟩ | ⟨x, hl⟩ | ⟨hl⟩)
  · exact try_fold_iter_spec h f a hl
  · rw [try_fold, tryFold]
    dsimp only
    cases f a x with
    | error b => exact ⟨_, rfl, .unpeeked hl⟩
    | ok a => exact try_fold_iter_spec h f a hl
  · exact ⟨_, rfl, .unpeeked hl⟩

theorem fold_spec (h : IsFold (A := A) R it.front.fold) : IsFold (A := A) (Stands R) (fold it) := by
  rintro f a _ _ (⟨hl⟩ | ⟨x, hl⟩ | ⟨hl⟩)
  · exact h f a hl
  · exact h f (f a x) hl
  · rfl

variable (h : it.Lawful usizeMax R)
include h

theorem count_spec (hs : Stands R s m)
    (hlen : m.length ≤ usizeMax) : count usizeMax it s = some m.length := by
  cases hs with
  | unpeeked hl => exact h.count hl hlen
  | peeked x hl =>
    rw [length_cons] at hlen ⊢
    rw [count]
    rw [h.count hl (by omega), add_comm]
    exact checked_add_eq (by omega)
  | exhausted hl => rfl

theorem last_spec (hs : Stands R s m) : last it s = some m.getLast? := by
  cases hs with
  | unpeeked hl =>
    rw [last]
    rw [h.last hl]
    simp
  | @peeked _ l x hl =>
    rw [last]
    rw [h.last hl, getLast?_cons]
    cases l.getLast? <;> rfl
  | exhausted hl => rfl

theorem hinted_spec (hl : R s.iter l) (k : ℕ) :
    ValidHint usizeMax (size_hint.hinted usizeMax it s k) (l.length + k) := by
  have hhint := h.size_hint hl
  refine ⟨?_, Nat.min_le_right _ _, fun hi hhi => ?_, fun hi hhi => ?_⟩
  · exact (Nat.min_le_left _ _).trans (Nat.add_le_add_right hhint.lower k)
  · obtain ⟨x, hx, hadd⟩ := Option.bind_eq_some_iff.mp hhi
    obtain ⟨rfl, -⟩ := checked_add_eq_some hadd
    exact Nat.add_le_add_right (hhint.upper x hx) k
  · obtain ⟨x, hx, hadd⟩ := Option.bind_eq_some_iff.mp hhi
    exact (checked_add_eq_some hadd).2

theorem size_hint_spec (hs : Stands R s m) :
    ValidHint usizeMax (size_hint usizeMax it s) m.length := by
  cases hs with
  | @unpeeked iter l hl => exact hinted_spec h (s := ⟨iter, none⟩) hl 0
  | @peeked iter l x hl => exact hinted_spec h (s := ⟨iter, some (some x)⟩) hl 1
  | exhausted hl => exact exactHint_valid rfl (zero_le _)

omit h

theorem peek_spec (h : IsNext R it.front.next) (hs : Stands R s m) :
    Yields (Stands R) (peek it s) m.head? m := by
  cases hs with
  | @unpeeked iter l hl =>
    obtain ⟨iter', hnext, hiter'⟩ := h hl
    refine ⟨⟨iter', some m.head?⟩, ?_, ?_⟩
    · rw [peek]
      rw [hnext]
      rfl
    · cases m with
      | nil => exact .exhausted hiter'
      | cons x m => exact .peeked x hiter'
  | peeked x hl => exact ⟨_, rfl, .peeked x hl⟩
  | exhausted hl => exact ⟨_, rfl, .exhausted hl⟩

/-- What `next_if` does to a list. -/
def nextIf (func : T → Bool) : List T → Option T × List T
  | [] => (none, [])
  | x :: l => if func x then (some x, l) else (none, x :: l)

/-- After `next`, nothing is peeked. -/
theorem next_unpeeked (h : IsNext R it.front.next) (hs : Stands R s m) :
    ∃ iter, next it s = some (m.head?, ⟨iter, none⟩) ∧ R iter m.tail := by
  cases hs with
  | unpeeked hl =>
    obtain ⟨iter, hnext, hiter⟩ := h hl
    refine ⟨iter, ?_, hiter⟩
    rw [next]
    rw [hnext]
    rfl
  | @peeked iter _ x hl | @exhausted iter hl => exact ⟨iter, rfl, hl⟩

theorem next_if_spec (h : IsNext R it.front.next) (func : T → Bool)
    (hs : Stands R s m) :
    Yields (Stands R) (next_if it func s) (nextIf func m).1 (nextIf func m).2 := by
  obtain ⟨iter, hnext, hiter⟩ := next_unpeeked h hs
  rw [next_if, hnext]
  simp only [some_bind]
  cases m with
  | nil => exact ⟨_, rfl, .exhausted hiter⟩
  | cons x m =>
    rw [nextIf]
    by_cases hfunc : func x = true
    · rw [if_pos hfunc]
      refine ⟨⟨iter, none⟩, ?_, .unpeeked hiter⟩
      simp [hfunc]
    · rw [if_neg hfunc]
      refine ⟨⟨iter, some (some x)⟩, ?_, .peeked x hiter⟩
      simp [hfunc]

end Front

section Back

variable {w : Sweep σ T}

theorem next_back_spec (h : IsNext (Reversed R) w.next) :
    IsNext (Reversed (Stands R)) (next_back w) := by
  apply isNext_reversed
  rintro _ _ (@⟨iter, l, hl⟩ | @⟨iter, l, x, hl⟩ | ⟨hl⟩)
  · obtain ⟨iter', hnext, hiter'⟩ := h.back hl
    refine ⟨⟨iter', none⟩, ?_, .unpeeked hiter'⟩
    rw [next_back]
    rw [hnext]
    rfl
  · obtain ⟨iter', hnext, hiter'⟩ := h.back hl
    rw [next_back]
    rw [hnext]
    cases l using reverseRecOn with
    | nil => exact ⟨_, rfl, .exhausted hiter'⟩
    | append_singleton l y =>
      rw [dropLast_concat] at hiter'
      rw [getLast?_concat, ← cons_append, getLast?_concat, dropLast_concat]
      exact ⟨_, rfl, .peeked x hiter'⟩
  · exact ⟨_, rfl, .exhausted hl⟩

theorem try_rfold_spec (h : IsTryFold (A := A) (B := B) (Reversed R) w.try_fold) :
    IsTryFold (A := A) (B := B) (Reversed (Stands R)) (try_rfold w) := by
  apply isTryFold_reversed
  rintro f a _ _ (⟨hl⟩ | @⟨iter, l, x, hl⟩ | ⟨hl⟩)
  · obtain ⟨iter', hfold, hiter'⟩ := h.back f a hl
    refine ⟨⟨iter', none⟩, ?_, .unpeeked hiter'⟩
    rw [try_rfold]
    rw [hfold]
    rfl
  · obtain ⟨iter', hfold, hiter'⟩ := h.back f a hl
    rw [try_rfold, reverse_cons, tryFold_append]
    rw [hfold]
    simp only [some_bind]
    cases hr : tryFold f a l.reverse with
    | mk r rest =>
      rw [hr] at hiter'
      cases r with
      | error b =>
        rw [reverse_append, reverse_singleton, singleton_append]
        exact ⟨_, rfl, .peeked x hiter'⟩
      | ok acc =>
        have hok : (tryFold f a l.reverse).1 = .ok acc := by rw [hr]
        have hrest := tryFold_ok hok
        rw [hr] at hrest
        rw [hrest] at hiter'
        dsimp only
        rw [tryFold]
        cases f acc x with
        | error | ok => exact ⟨_, rfl, .unpeeked hiter'⟩
  · exact ⟨_, rfl, .unpeeked hl⟩

theorem rfold_spec (h : IsFold (A := A) (Reversed R) w.fold) :
    IsFold (A := A) (Reversed (Stands R)) (rfold w) := by
  apply isFold_reversed
  rintro f a _ _ (⟨hl⟩ | @⟨iter, l, x, hl⟩ | ⟨hl⟩)
  · exact h.back f a hl
  · rw [rfold]
    rw [h.back f a hl, reverse_cons, foldl_append]
    rfl
  · rfl

end Back

/-- **`Peekable`** over a lawful iterator is lawful. -/
theorem iterator_lawful {it : DoubleEndedIterator σ T} (h : it.toIterator.Lawful usizeMax R) :
    (iterator usizeMax it).toIterator.Lawful usizeMax (Stands R) where
  front :=
    { next := next_spec h.front.next
      nth := nth_spec h.front.nth
      advance_by := advance_by_spec (try_fold_spec h.front.try_fold)
      try_fold := try_fold_spec h.front.try_fold
      fold := fold_spec h.front.fold }
  size_hint _ _ hs := size_hint_spec h hs
  count _ _ hs hlen := count_spec h hs hlen
  last _ _ hs := last_spec h hs

theorem lawful {it : DoubleEndedIterator σ T} (h : it.Lawful usizeMax R) :
    (iterator usizeMax it).Lawful usizeMax (Stands R) where
  toLawful := iterator_lawful h.toLawful
  back :=
    { next := next_back_spec h.back.next
      nth := Iter.nth_spec (advance_back_by_spec (next_back_spec h.back.next))
        (next_back_spec h.back.next)
      advance_by := advance_back_by_spec (next_back_spec h.back.next)
      try_fold := try_rfold_spec h.back.try_fold
      fold := rfold_spec h.back.fold }

end Peekable

end RustStd.Iter
