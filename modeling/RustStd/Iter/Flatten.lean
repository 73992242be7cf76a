import RustStd.Iter.Fuse

/-!
# Flattening

`FlattenCompat`, after `core/src/iter/adapters/flatten.rs`, with its general implementation and the
one for inner iterators that have at most one element. The methods of the back are those of the
front with `frontiter` and `backiter` exchanged. A closure that is given to a method of the outer
iterator calls the inner one, whose method may fail; the failure breaks the outer loop off.
-/

namespace RustStd.Iter

variable {σ υ X T A B α : Type}

structure FlattenCompat (σ υ : Type) where
  iter : Fuse σ
  frontiter : Option υ
  backiter : Option υ

namespace FlattenCompat

def new (iter : σ) : FlattenCompat σ υ := ⟨Fuse.new iter, none, none⟩

/-- The two ends exchanged. -/
def flip (self : FlattenCompat σ υ) : FlattenCompat σ υ :=
  ⟨self.iter, self.backiter, self.frontiter⟩

/-- A method of the back, from the method of the front. -/
def flipped (f : FlattenCompat σ υ → Option (α × FlattenCompat σ υ)) (self : FlattenCompat σ υ) :
    Option (α × FlattenCompat σ υ) := do
  let (a, self) ← f self.flip
  return (a, self.flip)

section OneEnd

variable (outer : Sweep (Fuse σ) X) (inner : Sweep υ T) (into_iter : X → υ)

/-- The loop of `next`. -/
def next_loop : ℕ → FlattenCompat σ υ → Option (Option T × FlattenCompat σ υ)
  | 0, _ => none
  | turns + 1, self => do
    let (elt, frontiter) ← and_then_or_clear inner.next self.frontiter
    if elt.isSome then return (elt, { self with frontiter })
    else
      let (item, iter) ← outer.next self.iter
      match item with
      | none => do
        let (elt, backiter) ← and_then_or_clear inner.next self.backiter
        return (elt, ⟨iter, frontiter, backiter⟩)
      | some x => next_loop turns ⟨iter, some (into_iter x), self.backiter⟩

/-- `if let Some(iter) = &mut opt { acc = fold(acc, iter)?; } opt = None;` -/
def fold_field (fold : A → υ → Option (Except B A × υ)) (a : A) :
    Option υ → Option (Except B A × Option υ)
  | none => some (.ok a, none)
  | some u => do
    let (r, u) ← fold a u
    match r with
    | .ok a => return (.ok a, none)
    | .error b => return (.error b, some u)

/-- The closure that `iter_try_fold` gives to the outer iterator. The inner iterator stays in the
field only when the fold breaks off; otherwise the next one takes its place. -/
def fold_item (fold : A → υ → Option (Except B A × υ)) (a : A) (x : X) :
    Except (Option (B × υ)) A :=
  match fold a (into_iter x) with
  | none => .error none
  | some (.ok a, _) => .ok a
  | some (.error b, u) => .error (some (b, u))

/-- `iter_try_fold`, and `iter_try_rfold` -/
def iter_try_fold (fold : A → υ → Option (Except B A × υ)) (a : A) (self : FlattenCompat σ υ) :
    Option (Except B A × FlattenCompat σ υ) := do
  let (r, frontiter) ← fold_field fold a self.frontiter
  match r with
  | .error b => return (.error b, { self with frontiter })
  | .ok a => do
    let (r, iter) ← outer.try_fold (fold_item into_iter fold) a self.iter
    match r with
    | .error none => none
    | .error (some (b, u)) => return (.error b, ⟨iter, some u, self.backiter⟩)
    | .ok a => do
      let (r, backiter) ← fold_field fold a self.backiter
      return (r, ⟨iter, none, backiter⟩)

/-- `if let Some(iter) = opt { acc = fold(acc, iter); }` -/
def fold_all_field (fold : A → υ → Option A) (a : A) : Option υ → Option A
  | none => some a
  | some u => fold a u

/-- `iter_fold`, and `iter_rfold` -/
def iter_fold (fold : A → υ → Option A) (a : A) (self : FlattenCompat σ υ) : Option A := do
  let a ← fold_all_field fold a self.frontiter
  let a ← outer.fold (fun a x => a.bind fun a => fold a (into_iter x)) (some a) self.iter
  let a ← a
  fold_all_field fold a self.backiter

/-- `try_fold`, and `try_rfold` -/
def try_fold (f : A → T → Except B A) (a : A) (self : FlattenCompat σ υ) :
    Option (Except B A × FlattenCompat σ υ) :=
  self.iter_try_fold outer into_iter (inner.try_fold f) a

/-- `fold`, and `rfold` -/
def fold (f : A → T → A) (a : A) (self : FlattenCompat σ υ) : Option A :=
  self.iter_fold outer into_iter (inner.fold f) a

/-- The closure `advance`. -/
def advance (n : ℕ) (u : υ) : Option (Except Unit ℕ × υ) := do
  let (remaining, u) ← inner.advance_by u n
  return (if remaining = 0 then .error () else .ok remaining, u)

/-- `advance_by`, and `advance_back_by` -/
def advance_by (self : FlattenCompat σ υ) (n : ℕ) : Option (ℕ × FlattenCompat σ υ) := do
  let (r, self) ← self.iter_try_fold outer into_iter (advance inner) n
  match r with
  | .ok remaining => return (remaining, self)
  | .error () => return (0, self)

end OneEnd

section General

variable (usizeMax turns : ℕ) (outer : DoubleEndedIterator (Fuse σ) X)
  (inner : DoubleEndedIterator υ T) (into_iter : X → υ) (fixed_size : Option ℕ)

def next : FlattenCompat σ υ → Option (Option T × FlattenCompat σ υ) :=
  next_loop outer.front inner.front into_iter turns

def next_back : FlattenCompat σ υ → Option (Option T × FlattenCompat σ υ) :=
  flipped (next_loop outer.back inner.back into_iter turns)

def saturating_add (a b : ℕ) : ℕ := min (a + b) usizeMax

def saturating_mul (a b : ℕ) : ℕ := min (a * b) usizeMax

def checked_add (a b : ℕ) : Option ℕ := if a + b ≤ usizeMax then some (a + b) else none

def checked_mul (a b : ℕ) : Option ℕ := if a * b ≤ usizeMax then some (a * b) else none

/-- `opt.as_ref().map_or((0, Some(0)), U::size_hint)` -/
def field_hint : Option υ → ℕ × Option ℕ
  | none => (0, some 0)
  | some u => inner.size_hint u

/-- `size_hint`; `fixed_size` is the number of elements that every inner iterator has by its
type. -/
def size_hint (self : FlattenCompat σ υ) : ℕ × Option ℕ :=
  let (flo, fhi) := field_hint inner self.frontiter
  let (blo, bhi) := field_hint inner self.backiter
  let lo := saturating_add usizeMax flo blo
  match fixed_size with
  | some fixed_size =>
    let (lower, upper) := outer.size_hint self.iter
    let lower := saturating_add usizeMax (saturating_mul usizeMax lower fixed_size) lo
    let upper := do
      let known ← checked_add usizeMax (← fhi) (← bhi)
      checked_add usizeMax known (← checked_mul usizeMax fixed_size (← upper))
    (lower, upper)
  | none =>
    match outer.size_hint self.iter, fhi, bhi with
    | (0, some 0), some a, some b => (lo, checked_add usizeMax a b)
    | _, _, _ => (lo, none)

/-- `count`, which panics when the number is no `usize`. -/
def count (self : FlattenCompat σ υ) : Option ℕ :=
  self.iter_fold outer.front into_iter
    (fun acc u => do checked_add usizeMax acc (← inner.count u)) 0

def last (self : FlattenCompat σ υ) : Option (Option T) :=
  self.iter_fold outer.front into_iter (fun last u => do return (← inner.last u).or last) none

def iterator : DoubleEndedIterator (FlattenCompat σ υ) T where
  front :=
    { next := next turns outer inner into_iter
      nth := Provided.nth (advance_by outer.front inner.front into_iter)
        (next turns outer inner into_iter)
      advance_by := advance_by outer.front inner.front into_iter
      try_fold := try_fold outer.front inner.front into_iter
      fold := fold outer.front inner.front into_iter }
  size_hint := size_hint usizeMax outer inner fixed_size
  count := count usizeMax outer inner into_iter
  last := last outer inner into_iter
  back :=
    { next := next_back turns outer inner into_iter
      nth := Provided.nth
        (fun self n => flipped (fun self => self.advance_by outer.back inner.back into_iter n) self)
        (next_back turns outer inner into_iter)
      advance_by := fun self n =>
        flipped (fun self => self.advance_by outer.back inner.back into_iter n) self
      try_fold := fun f a => flipped (try_fold outer.back inner.back into_iter f a)
      fold := fun f a self => self.flip.fold outer.back inner.back into_iter f a }

end General

/-! ## Inner iterators with at most one element -/

namespace OneShot

section OneEnd

variable (outer : Sweep (Fuse σ) X) (into_item : X → Option (Option T))

/-- `next`, and `next_back` -/
def next_loop : ℕ → FlattenCompat σ υ → Option (Option T × FlattenCompat σ υ)
  | 0, _ => none
  | turns + 1, self => do
    let (inner, iter) ← outer.next self.iter
    match inner with
    | none => return (none, { self with iter })
    | some inner =>
      let item ← into_item inner
      if item.isSome then return (item, { self with iter }) else next_loop turns { self with iter }

def try_flatten_one (fold : A → T → Except B A) (a : A) (inner : X) : Except (Option B) A :=
  match into_item inner with
  | none => .error none
  | some none => .ok a
  | some (some item) =>
    match fold a item with
    | .ok a => .ok a
    | .error b => .error (some b)

def flatten_one (fold : A → T → A) (a : Option A) (inner : X) : Option A := do
  let a ← a
  match ← into_item inner with
  | some item => return fold a item
  | none => return a

/-- `self.iter.try_fold(..)` -/
def outer_try_fold (fold : A → X → Except (Option B) A) (a : A) (self : FlattenCompat σ υ) :
    Option (Except B A × FlattenCompat σ υ) := do
  let (r, iter) ← outer.try_fold fold a self.iter
  match r with
  | .ok a => return (.ok a, { self with iter })
  | .error none => none
  | .error (some b) => return (.error b, { self with iter })

/-- `try_fold`, and `try_rfold` -/
def try_fold (f : A → T → Except B A) (a : A) (self : FlattenCompat σ υ) :
    Option (Except B A × FlattenCompat σ υ) :=
  outer_try_fold outer (try_flatten_one into_item f) a self

/-- `fold`, and `rfold` -/
def fold (f : A → T → A) (a : A) (self : FlattenCompat σ υ) : Option A := do
  let a ← outer.fold (flatten_one into_item f) (some a) self.iter
  a

def advance_by_one (n : ℕ) (inner : X) : Except (Option Unit) ℕ :=
  match into_item inner with
  | none => .error none
  | some (some _) => if n - 1 = 0 then .error (some ()) else .ok (n - 1)
  | some none => .ok n

/-- `advance_by`, and `advance_back_by` -/
def advance_by (self : FlattenCompat σ υ) (n : ℕ) : Option (ℕ × FlattenCompat σ υ) :=
  if n = 0 then do
    let (remaining, iter) ← outer.advance_by self.iter 0
    return (remaining, { self with iter })
  else do
    let (r, self) ← outer_try_fold outer (advance_by_one into_item) n self
    match r with
    | .ok n => return (n, self)
    | .error () => return (0, self)

end OneEnd

variable (usizeMax turns : ℕ) (outer : DoubleEndedIterator (Fuse σ) X)
  (inner : DoubleEndedIterator υ T) (into_iter : X → υ) (fixed_size : Option ℕ)

def into_item (x : X) : Option (Option T) := do return (← inner.front.next (into_iter x)).1

def size_hint (self : FlattenCompat σ υ) : ℕ × Option ℕ :=
  let (lower, upper) := outer.size_hint self.iter
  match fixed_size with
  | some 0 => (0, some 0)
  | some 1 => (lower, upper)
  | _ => (0, upper)

/-- `count`, over `filter_map(into_item)`. -/
def count (self : FlattenCompat σ υ) : Option ℕ :=
  Provided.count usizeMax (fold outer.front (into_item inner into_iter)) self

/-- `last`, over `filter_map(into_item)`. -/
def last (self : FlattenCompat σ υ) : Option (Option T) :=
  Provided.last (fold outer.front (into_item inner into_iter)) self

def iterator : DoubleEndedIterator (FlattenCompat σ υ) T where
  front :=
    { next := next_loop outer.front (into_item inner into_iter) turns
      nth := Provided.nth (advance_by outer.front (into_item inner into_iter))
        (next_loop outer.front (into_item inner into_iter) turns)
      advance_by := advance_by outer.front (into_item inner into_iter)
      try_fold := try_fold outer.front (into_item inner into_iter)
      fold := fold outer.front (into_item inner into_iter) }
  size_hint := size_hint outer fixed_size
  count := count usizeMax outer inner into_iter
  last := last outer inner into_iter
  back :=
    { next := next_loop outer.back (into_item inner into_iter) turns
      nth := Provided.nth (advance_by outer.back (into_item inner into_iter))
        (next_loop outer.back (into_item inner into_iter) turns)
      advance_by := advance_by outer.back (into_item inner into_iter)
      try_fold := try_fold outer.back (into_item inner into_iter)
      fold := fold outer.back (into_item inner into_iter) }

end OneShot

end FlattenCompat

end RustStd.Iter
