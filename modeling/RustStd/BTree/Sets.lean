import RustStd.BTree.Iter
import RustStd.BTree.MergeIter
import RustStd.Iter.Peekable

/-!
# Sets and their operations

A `BTreeSet` is a map to values of a type with one value, and its iterator goes over the keys. The
operations of two sets choose a way to go by the least and the greatest elements and by the sizes:
`Iterate` and `Answer` where the sets overlap in one element at most, `Search` where one of them is
much smaller, `Stitch` otherwise. The specifications are in the modules that import this one.
-/

namespace RustStd.BTree

variable {K V T : Type}

/-! ## The iterator of a set -/

/-- `Keys`, which the `Iter` of a set wraps without a change. -/
structure Keys (K V : Type) where
  inner : Iter K V

namespace Keys

def next (self : Keys K V) : Option (Option K × Keys K V) := do
  let (kv, inner) ← self.inner.next
  some (kv.map Prod.fst, ⟨inner⟩)

def next_back (self : Keys K V) : Option (Option K × Keys K V) := do
  let (kv, inner) ← self.inner.next_back
  some (kv.map Prod.fst, ⟨inner⟩)

def len (self : Keys K V) : ℕ := self.inner.length

def size_hint (self : Keys K V) : ℕ × Option ℕ := (self.len, some self.len)

def try_fold {A B : Type} (f : A → K → Except B A) (a : A) (self : Keys K V) :
    Option (Except B A × Keys K V) :=
  Iter.Provided.try_fold next (self.len + 1) f a self

def fold {A : Type} (f : A → K → A) (a : A) (self : Keys K V) : Option A :=
  Iter.Provided.fold next (self.len + 1) f a self

/-- The iterator, most of whose methods are the provided ones. -/
def iterator (usizeMax : ℕ) : Iterator (Keys K V) K where
  front :=
    { next
      nth := Iter.Provided.nth (Iter.Provided.advance_by try_fold) next
      advance_by := Iter.Provided.advance_by try_fold
      try_fold
      fold }
  size_hint
  count := Iter.Provided.count usizeMax fold
  last := fun self => do some (← self.next_back).1

end Keys

/-! ## Sets -/

structure BTreeSet (T : Type) where
  map : BTreeMap T Unit

def ITER_PERFORMANCE_TIPPING_SIZE_DIFF : ℕ := 16

inductive DifferenceInner (T : Type)
  | Stitch (self_iter : Keys T Unit) (other_iter : Iter.Peekable (Keys T Unit) T)
  | Search (self_iter : Keys T Unit) (other_set : BTreeSet T)
  | Iterate (iter : Keys T Unit)

inductive IntersectionInner (T : Type)
  | Stitch (a b : Keys T Unit)
  | Search (small_iter : Keys T Unit) (large_set : BTreeSet T)
  | Answer (answer : Option T)

/-- The iterator under `SymmetricDifference` and `Union`. -/
abbrev SetMerge (T : Type) := MergeIterInner (Keys T Unit) T

namespace BTreeSet

/-- The elements, in order. -/
def elements (s : BTreeSet T) : List T := s.map.inorder.map Prod.fst

def len (s : BTreeSet T) : ℕ := s.map.length

def iter (s : BTreeSet T) : Keys T Unit := ⟨s.map.iter⟩

def first (s : BTreeSet T) : Option (Option T) := do
  some ((← s.map.first_key_value).map Prod.fst)

def last (s : BTreeSet T) : Option (Option T) := do
  some ((← s.map.last_key_value).map Prod.fst)

variable (cmp : T → T → Ordering)

def contains (s : BTreeSet T) (value : T) : Option Bool := s.map.contains_key cmp value

def difference (self other : BTreeSet T) : Option (DifferenceInner T) := do
  match ← self.first, ← self.last, ← other.first, ← other.last with
  | some self_min, some self_max, some other_min, some other_max =>
    match cmp self_min other_max, cmp self_max other_min with
    | .gt, _ => some (.Iterate self.iter)
    | _, .lt => some (.Iterate self.iter)
    | .eq, _ => do
      let (_, self_iter) ← self.iter.next
      some (.Iterate self_iter)
    | _, .eq => do
      let (_, self_iter) ← self.iter.next_back
      some (.Iterate self_iter)
    | _, _ =>
      if self.len ≤ other.len / ITER_PERFORMANCE_TIPPING_SIZE_DIFF then
        some (.Search self.iter other)
      else some (.Stitch self.iter (Iter.Peekable.new other.iter))
  | _, _, _, _ => some (.Iterate self.iter)

def intersection (self other : BTreeSet T) : Option (IntersectionInner T) := do
  match ← self.first, ← self.last, ← other.first, ← other.last with
  | some self_min, some self_max, some other_min, some other_max =>
    match cmp self_min other_max, cmp self_max other_min with
    | .gt, _ => some (.Answer none)
    | _, .lt => some (.Answer none)
    | .eq, _ => some (.Answer (some self_min))
    | _, .eq => some (.Answer (some self_max))
    | _, _ =>
      if self.len ≤ other.len / ITER_PERFORMANCE_TIPPING_SIZE_DIFF then
        some (.Search self.iter other)
      else if other.len ≤ self.len / ITER_PERFORMANCE_TIPPING_SIZE_DIFF then
        some (.Search other.iter self)
      else some (.Stitch self.iter other.iter)
  | _, _, _, _ => some (.Answer none)

def symmetric_difference (self other : BTreeSet T) : SetMerge T := .new self.iter other.iter

def union (self other : BTreeSet T) : SetMerge T := .new self.iter other.iter

end BTreeSet

/-! ## The iterators -/

section Model

variable (cmp : T → T → Ordering)

namespace DifferenceInner

/-- A turn of the loop over `Stitch`, with the element of `self` that is looked for. -/
def stitch_turn (usizeMax : ℕ) (s : T × Keys T Unit × Iter.Peekable (Keys T Unit) T) :
    Option (Turn (T × Keys T Unit × Iter.Peekable (Keys T Unit) T)
      (Option T × DifferenceInner T)) := do
  let (self_next, self_iter, other_iter) := s
  let (other_next, other_iter) ← other_iter.peek (Keys.iterator usizeMax)
  match other_next.elim .lt (cmp self_next) with
  | .lt => some (.done (some self_next, .Stitch self_iter other_iter))
  | .eq => do
    match ← self_iter.next with
    | (none, self_iter) => some (.done (none, .Stitch self_iter other_iter))
    | (some self_next, self_iter) => do
      let (_, other_iter) ← other_iter.next (Keys.iterator usizeMax)
      some (.again (self_next, self_iter, other_iter))
  | .gt => do
    let (_, other_iter) ← other_iter.next (Keys.iterator usizeMax)
    some (.again (self_next, self_iter, other_iter))

def search_turn (other_set : BTreeSet T) (self_iter : Keys T Unit) :
    Option (Turn (Keys T Unit) (Option T × DifferenceInner T)) := do
  match ← self_iter.next with
  | (none, self_iter) => some (.done (none, .Search self_iter other_set))
  | (some self_next, self_iter) =>
    if !(← other_set.contains cmp self_next) then
      some (.done (some self_next, .Search self_iter other_set))
    else some (.again self_iter)

def next (usizeMax : ℕ) : DifferenceInner T → Option (Option T × DifferenceInner T)
  | .Stitch self_iter other_iter => do
    match ← self_iter.next with
    | (none, self_iter) => some (none, .Stitch self_iter other_iter)
    | (some self_next, self_iter) =>
      runLoop (stitch_turn cmp usizeMax) (other_iter.iter.len + 2)
        (self_next, self_iter, other_iter)
  | .Search self_iter other_set => runLoop (search_turn cmp other_set) (self_iter.len + 1) self_iter
  | .Iterate iter => do
    let (item, iter) ← iter.next
    some (item, .Iterate iter)

def size_hint (usizeMax : ℕ) (self : DifferenceInner T) : Option (ℕ × Option ℕ) := do
  let (self_len, other_len) ← (match self with
    | .Stitch self_iter other_iter => do
      some (self_iter.len,
        ← Iter.Provided.len (Iter.Peekable.size_hint usizeMax (Keys.iterator usizeMax)) other_iter)
    | .Search self_iter other_set => some (self_iter.len, other_set.len)
    | .Iterate iter => some (iter.len, 0))
  some (self_len - other_len, some self_len)

end DifferenceInner

namespace IntersectionInner

/-- A turn of the loop over `Stitch`, with the elements that are compared. -/
def stitch_turn (s : T × T × Keys T Unit × Keys T Unit) :
    Option (Turn (T × T × Keys T Unit × Keys T Unit) (Option T × IntersectionInner T)) := do
  let (a_next, b_next, a, b) := s
  match cmp a_next b_next with
  | .lt => do
    match ← a.next with
    | (none, a) => some (.done (none, .Stitch a b))
    | (some a_next, a) => some (.again (a_next, b_next, a, b))
  | .gt => do
    match ← b.next with
    | (none, b) => some (.done (none, .Stitch a b))
    | (some b_next, b) => some (.again (a_next, b_next, a, b))
  | .eq => some (.done (some a_next, .Stitch a b))

def search_turn (large_set : BTreeSet T) (small_iter : Keys T Unit) :
    Option (Turn (Keys T Unit) (Option T × IntersectionInner T)) := do
  match ← small_iter.next with
  | (none, small_iter) => some (.done (none, .Search small_iter large_set))
  | (some small_next, small_iter) =>
    if ← large_set.contains cmp small_next then
      some (.done (some small_next, .Search small_iter large_set))
    else some (.again small_iter)

def next : IntersectionInner T → Option (Option T × IntersectionInner T)
  | .Stitch a b => do
    match ← a.next with
    | (none, a) => some (none, .Stitch a b)
    | (some a_next, a) => do
      match ← b.next with
      | (none, b) => some (none, .Stitch a b)
      | (some b_next, b) =>
        runLoop (stitch_turn cmp) (a.len + b.len + 1) (a_next, b_next, a, b)
  | .Search small_iter large_set =>
    runLoop (search_turn cmp large_set) (small_iter.len + 1) small_iter
  | .Answer answer => some (answer, .Answer none)

def size_hint : IntersectionInner T → ℕ × Option ℕ
  | .Stitch a b => (0, some (min a.len b.len))
  | .Search small_iter _ => (0, some small_iter.len)
  | .Answer none => (0, some 0)
  | .Answer (some _) => (1, some 1)

end IntersectionInner

namespace SetMerge

/-- `SymmetricDifference::next` -/
def symmetric_difference_next (self : SetMerge T) : Option (Option T × SetMerge T) :=
  runLoop (fun self : SetMerge T => do
    let ((a_next, b_next), self) ← self.nexts Keys.next cmp
    if (a_next.bind fun _ => b_next).isNone then some (.done (a_next.or b_next, self))
    else some (.again self)) ((self.lens Keys.len).1 + (self.lens Keys.len).2 + 1) self

/-- The sum is in range: the sets take up memory. -/
def symmetric_difference_size_hint (self : SetMerge T) : ℕ × Option ℕ :=
  let (a_len, b_len) := self.lens Keys.len
  (0, some (a_len + b_len))

/-- `Union::next` -/
def union_next (self : SetMerge T) : Option (Option T × SetMerge T) := do
  let ((a_next, b_next), self) ← self.nexts Keys.next cmp
  some (a_next.or b_next, self)

def union_size_hint (self : SetMerge T) : ℕ × Option ℕ :=
  let (a_len, b_len) := self.lens Keys.len
  (max a_len b_len, some (a_len + b_len))

end SetMerge

namespace BTreeSet

def is_disjoint (self other : BTreeSet T) : Option Bool := do
  let (item, _) ← (← self.intersection cmp other).next cmp
  some item.isNone

/-- `self_iter.all(|e| other.contains(e))` -/
def all_contained (other : BTreeSet T) (self_iter : Keys T Unit) : Option Bool :=
  runLoop (fun self_iter : Keys T Unit => do
    match ← self_iter.next with
    | (none, _) => some (.done true)
    | (some e, self_iter) =>
      if ← other.contains cmp e then some (.again self_iter) else some (.done false))
    (self_iter.len + 1) self_iter

/-- The loop over `other_iter` that looks for an element. -/
def look_for (self1 : T) (other_iter : Keys T Unit) : Option (Bool × Keys T Unit) :=
  runLoop (fun other_iter : Keys T Unit => do
    match ← other_iter.next with
    | (none, other_iter) => some (.done (false, other_iter))
    | (some other1, other_iter) =>
      match cmp other1 self1 with
      | .lt => some (.again other_iter)
      | .eq => some (.done (true, other_iter))
      | .gt => some (.done (false, other_iter))) (other_iter.len + 1) other_iter

/-- The same over both iterators at once. -/
def all_stitched (self_iter other_iter : Keys T Unit) : Option Bool :=
  runLoop (fun s : Keys T Unit × Keys T Unit => do
    let (self_iter, other_iter) := s
    match ← self_iter.next with
    | (none, _) => some (.done true)
    | (some self1, self_iter) => do
      let (found, other_iter) ← look_for cmp self1 other_iter
      if found then some (.again (self_iter, other_iter)) else some (.done false))
    (self_iter.len + 1) (self_iter, other_iter)

/-- The end of `is_subset`, when the ends of both sets have been compared. -/
def subset_within (self_iter : Keys T Unit) (other : BTreeSet T) : Option Bool :=
  if self_iter.len ≤ other.len / ITER_PERFORMANCE_TIPPING_SIZE_DIFF then
    all_contained cmp other self_iter
  else do
    let (_, other_iter) ← other.iter.next
    let (_, other_iter) ← other_iter.next_back
    all_stitched cmp self_iter other_iter

/-- The comparison of the greatest elements. -/
def subset_max (self_max other_max : T) (self_iter : Keys T Unit) (other : BTreeSet T) :
    Option Bool :=
  match cmp self_max other_max with
  | .gt => some false
  | .eq => do
    let (_, self_iter) ← self_iter.next_back
    subset_within cmp self_iter other
  | .lt => subset_within cmp self_iter other

def is_subset (self other : BTreeSet T) : Option Bool :=
  if self.len > other.len then some false
  else do
    match ← self.first, ← self.last with
    | some self_min, some self_max =>
      match ← other.first, ← other.last with
      | some other_min, some other_max =>
        match cmp self_min other_min with
        | .lt => some false
        | .eq => do
          let (_, self_iter) ← self.iter.next
          subset_max cmp self_max other_max self_iter other
        | .gt => subset_max cmp self_max other_max self.iter other
      | _, _ => some false
    | _, _ => some true

end BTreeSet

end Model

end RustStd.BTree
