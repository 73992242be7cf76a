import RustStd.Iter.Provided

/-!
# Fused and mapped iterators

The adapters `Fuse` and `Map`, after `core/src/iter/adapters/fuse.rs` and `map.rs`. `Fuse` has two
implementations: for an iterator that is fused itself (`fused`) it does not clear its field. `Map`
is the one over a pure function. Both stand for a list when the iterator below does.
-/

namespace RustStd.Iter

open List

variable {σ T U A B α : Type} {R : σ → List T → Prop} {usizeMax turns : ℕ} {l : List T}

/-- A field that is empty, or has an iterator. -/
def OrEmpty (R : σ → List T → Prop) : Option σ → List T → Prop
  | none, l => l = []
  | some s, l => R s l

def and_then_or_clear (f : σ → Option (Option α × σ)) (opt : Option σ) :
    Option (Option α × Option σ) :=
  match opt with
  | none => some (none, none)
  | some s => do
    let (x, s) ← f s
    return (x, if x.isNone then none else some s)

structure Fuse (σ : Type) where
  iter : Option σ

namespace Fuse

variable (fused : Bool) (w : Sweep σ T)

def new (iter : σ) : Fuse σ := ⟨some iter⟩

/-- The body of `next` and `nth`. -/
def step (f : σ → Option (Option α × σ)) (self : Fuse σ) : Option (Option α × Fuse σ) :=
  if fused then
    match self.iter with
    | none => some (none, self)
    | some iter => do
      let (x, iter) ← f iter
      return (x, ⟨some iter⟩)
  else do
    let (x, iter) ← and_then_or_clear f self.iter
    return (x, ⟨iter⟩)

/-- `next`, and `next_back` -/
def next (self : Fuse σ) : Option (Option T × Fuse σ) := step fused w.next self

/-- `nth`, and `nth_back` -/
def nth (self : Fuse σ) (n : ℕ) : Option (Option T × Fuse σ) := step fused (fun s => w.nth s n) self

/-- `try_fold`, and `try_rfold` -/
def try_fold (f : A → T → Except B A) (a : A) (self : Fuse σ) : Option (Except B A × Fuse σ) :=
  match self.iter with
  | none => some (.ok a, self)
  | some iter => do
    let (r, iter) ← w.try_fold f a iter
    match r with
    | .error b => return (.error b, ⟨some iter⟩)
    | .ok a => return (.ok a, ⟨if fused then some iter else none⟩)

/-- `fold`, and `rfold` -/
def fold (f : A → T → A) (a : A) (self : Fuse σ) : Option A :=
  match self.iter with
  | none => some a
  | some iter => w.fold f a iter

def iterator (it : DoubleEndedIterator σ T) : DoubleEndedIterator (Fuse σ) T where
  front :=
    { next := next fused it.front
      nth := nth fused it.front
      advance_by := Provided.advance_by (try_fold fused it.front)
      try_fold := try_fold fused it.front
      fold := fold it.front }
  size_hint self :=
    match self.iter with
    | none => (0, some 0)
    | some iter => it.size_hint iter
  count self :=
    match self.iter with
    | none => some 0
    | some iter => it.count iter
  last self :=
    match self.iter with
    | none => some none
    | some iter => it.last iter
  back :=
    { next := next fused it.back
      nth := nth fused it.back
      advance_by := Provided.advance_back_by (next fused it.back)
      try_fold := try_fold fused it.back
      fold := fold it.back }

def Stands (R : σ → List T → Prop) (self : Fuse σ) : List T → Prop := OrEmpty R self.iter

end Fuse

theorem reversed_orEmpty (R : σ → List T → Prop) : Reversed (OrEmpty R) = OrEmpty (Reversed R) := by
  funext opt l
  cases opt with
  | none => exact propext (by simp [Reversed, OrEmpty])
  | some s => rfl

theorem and_then_or_clear_spec {f : σ → Option (Option T × σ)} (h : IsNext R f) :
    IsNext (OrEmpty R) (and_then_or_clear f) := by
  intro opt l hs
  cases opt with
  | none =>
    obtain rfl : l = [] := hs
    exact ⟨none, rfl, rfl⟩
  | some s =>
    obtain ⟨s', hf, hs'⟩ := h hs
    rw [and_then_or_clear, hf]
    cases l with
    | nil => exact ⟨none, rfl, rfl⟩
    | cons x l => exact ⟨some s', rfl, hs'⟩

namespace Fuse

variable {fused : Bool} {w : Sweep σ T}

theorem reversed_stands (R : σ → List T → Prop) : Reversed (Stands R) = Stands (Reversed R) := by
  funext self l
  exact congrFun (congrFun (reversed_orEmpty R) self.iter) l

/-- A `None` means that nothing is left. -/
theorem step_spec {f : σ → Option (Option α × σ)} {s : σ} {x : Option α}
    (h : Yields R (f s) x l) (hnone : x = none → l = []) :
    Yields (Stands R) (step fused f ⟨some s⟩) x l := by
  obtain ⟨s', hf, hs'⟩ := h
  cases fused with
  | true =>
    refine ⟨⟨some s'⟩, ?_, hs'⟩
    simp [step, hf]
  | false =>
    cases x with
    | none =>
      refine ⟨⟨none⟩, ?_, hnone rfl⟩
      simp [step, and_then_or_clear, hf]
    | some x =>
      refine ⟨⟨some s'⟩, ?_, hs'⟩
      simp [step, and_then_or_clear, hf]

theorem step_empty (f : σ → Option (Option α × σ)) :
    Yields (Stands R) (step fused f ⟨none⟩) none [] := by
  cases fused with
  | true | false => exact ⟨⟨none⟩, rfl, rfl⟩

theorem next_spec (h : IsNext R w.next) : IsNext (Stands R) (next fused w) := by
  rintro ⟨_ | s⟩ l hs
  · obtain rfl : l = [] := hs
    exact step_empty w.next
  · apply step_spec (h hs)
    intro hnone
    rw [head?_eq_none_iff.mp hnone, tail_nil]

theorem nth_spec (h : IsNth usizeMax R w.nth) : IsNth usizeMax (Stands R) (nth fused w) := by
  rintro ⟨_ | s⟩ l n hs hn
  · obtain rfl : l = [] := hs
    rw [getElem?_nil, drop_nil]
    exact step_empty _
  · apply step_spec (h n hs hn)
    intro hnone
    rw [getElem?_eq_none_iff] at hnone
    exact drop_eq_nil_of_le (by omega)

theorem try_fold_spec (h : IsTryFold (A := A) (B := B) R w.try_fold) :
    IsTryFold (A := A) (B := B) (Stands R) (try_fold fused w) := by
  rintro f a ⟨_ | s⟩ l hs
  · obtain rfl : l = [] := hs
    exact ⟨⟨none⟩, rfl, rfl⟩
  obtain ⟨s', hf, hs'⟩ := h f a hs
  rw [try_fold]
  dsimp only
  rw [hf]
  cases hr : (tryFold f a l).1 with
  | error b => exact ⟨⟨some s'⟩, rfl, hs'⟩
  | ok a' =>
    refine ⟨_, rfl, ?_⟩
    cases fused with
    | true => exact hs'
    | false => exact tryFold_ok hr

theorem fold_spec (h : IsFold (A := A) R w.fold) : IsFold (A := A) (Stands R) (fold w) := by
  rintro f a ⟨_ | s⟩ l hs
  · obtain rfl : l = [] := hs
    rfl
  · exact h f a hs

/-- **`Fuse`** over a lawful iterator is lawful. -/
theorem iterator_lawful {it : DoubleEndedIterator σ T} (h : it.toIterator.Lawful usizeMax R) :
    (iterator fused it).toIterator.Lawful usizeMax (Stands R) where
  front :=
    { next := next_spec h.front.next
      nth := nth_spec h.front.nth
      advance_by := advance_by_spec (try_fold_spec h.front.try_fold)
      try_fold := try_fold_spec h.front.try_fold
      fold := fold_spec h.front.fold }
  size_hint := by
    rintro ⟨_ | s⟩ l hs
    · obtain rfl : l = [] := hs
      exact exactHint_valid rfl (Nat.zero_le _)
    · exact h.size_hint hs
  count := by
    rintro ⟨_ | s⟩ l hs hlen
    · obtain rfl : l = [] := hs
      rfl
    · exact h.count hs hlen
  last := by
    rintro ⟨_ | s⟩ l hs
    · obtain rfl : l = [] := hs
      rfl
    · exact h.last hs

theorem lawful {it : DoubleEndedIterator σ T} (h : it.Lawful usizeMax R) :
    (iterator fused it).Lawful usizeMax (Stands R) where
  toLawful := iterator_lawful h.toLawful
  back := by
    rw [reversed_stands]
    exact
      { next := next_spec h.back.next
        nth := nth_spec h.back.nth
        advance_by := advance_back_by_spec (next_spec h.back.next)
        try_fold := try_fold_spec h.back.try_fold
        fold := fold_spec h.back.fold }

end Fuse

/-! ## Maps -/

namespace Map

variable (f : T → U) (w : Sweep σ T)

/-- `next`, and `next_back` -/
def next (self : σ) : Option (Option U × σ) := do
  let (x, self) ← w.next self
  return (x.map f, self)

/-- `try_fold`, and `try_rfold` -/
def try_fold (g : A → U → Except B A) (a : A) (self : σ) : Option (Except B A × σ) :=
  w.try_fold (fun a x => g a (f x)) a self

/-- `fold`, and `rfold` -/
def fold (g : A → U → A) (a : A) (self : σ) : Option A := w.fold (fun a x => g a (f x)) a self

/-- `Map`, whose state is the one of the iterator below. -/
def iterator (usizeMax : ℕ) (f : T → U) (it : DoubleEndedIterator σ T) :
    DoubleEndedIterator σ U where
  front :=
    { next := next f it.front
      nth := Provided.nth (Provided.advance_by (try_fold f it.front)) (next f it.front)
      advance_by := Provided.advance_by (try_fold f it.front)
      try_fold := try_fold f it.front
      fold := fold f it.front }
  size_hint := it.size_hint
  count := Provided.count usizeMax (fold f it.front)
  last := Provided.last (fold f it.front)
  back :=
    { next := next f it.back
      nth := Provided.nth (Provided.advance_back_by (next f it.back)) (next f it.back)
      advance_by := Provided.advance_back_by (next f it.back)
      try_fold := try_fold f it.back
      fold := fold f it.back }

def Stands (R : σ → List T → Prop) (f : T → U) (self : σ) (m : List U) : Prop :=
  ∃ l, R self l ∧ m = l.map f

variable {f w}

theorem reversed_stands (R : σ → List T → Prop) (f : T → U) :
    Reversed (Stands R f) = Stands (Reversed R) f := by
  funext self m
  apply propext
  constructor
  · rintro ⟨l, hl, hm⟩
    refine ⟨l.reverse, by rwa [Reversed, reverse_reverse], ?_⟩
    rw [map_reverse, ← hm, reverse_reverse]
  · rintro ⟨l, hl, rfl⟩
    exact ⟨l.reverse, hl, map_reverse.symm⟩

theorem next_spec (h : IsNext R w.next) : IsNext (Stands R f) (next f w) := by
  rintro s _ ⟨l, hs, rfl⟩
  obtain ⟨s', hnext, hs'⟩ := h hs
  refine ⟨s', ?_, l.tail, hs', map_tail.symm⟩
  rw [next, hnext, head?_map]
  rfl

theorem try_fold_spec (h : IsTryFold (A := A) (B := B) R w.try_fold) :
    IsTryFold (A := A) (B := B) (Stands R f) (try_fold f w) := by
  rintro g a s _ ⟨l, hs, rfl⟩
  obtain ⟨s', hfold, hs'⟩ := h (fun a x => g a (f x)) a hs
  rw [tryFold_map]
  exact ⟨s', hfold, _, hs', rfl⟩

theorem fold_spec (h : IsFold (A := A) R w.fold) : IsFold (A := A) (Stands R f) (fold f w) := by
  rintro g a s _ ⟨l, hs, rfl⟩
  rw [fold, h _ _ hs, foldl_map]

/-- **`Map`** over a lawful iterator is lawful. -/
theorem lawful {it : DoubleEndedIterator σ T} (h : it.Lawful usizeMax R) (f : T → U) :
    (iterator usizeMax f it).Lawful usizeMax (Stands R f) where
  front :=
    { next := next_spec h.front.next
      nth := nth_spec (advance_by_spec (try_fold_spec h.front.try_fold)) (next_spec h.front.next)
      advance_by := advance_by_spec (try_fold_spec h.front.try_fold)
      try_fold := try_fold_spec h.front.try_fold
      fold := fold_spec h.front.fold }
  size_hint := by
    rintro s _ ⟨l, hs, rfl⟩
    rw [length_map]
    exact h.size_hint hs
  count _ _ hs hlen := count_spec (fold_spec h.front.fold) hs hlen
  last _ _ hs := last_spec (fold_spec h.front.fold) hs
  back := by
    rw [reversed_stands]
    exact
      { next := next_spec h.back.next
        nth := nth_spec (advance_back_by_spec (next_spec h.back.next)) (next_spec h.back.next)
        advance_by := advance_back_by_spec (next_spec h.back.next)
        try_fold := try_fold_spec h.back.try_fold
        fold := fold_spec h.back.fold }

end Map

end RustStd.Iter
