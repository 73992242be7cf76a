import RustStd.Iter.Concat
import RustStd.Iter.Take

/-!
# Separators between the elements

`Intersperse` and `IntersperseWith`, after `core/src/iter/adapters/intersperse.rs`. Both are one
code over a source of separators, which for `Intersperse` gives the same one again and again. Over
an iterator that stands for a list, it stands for the list with separators between its elements
(`Intersperse.lawful`).
-/

namespace RustStd.Iter

open List Nat Option Bool

open FlattenCompat (checked_add saturating_add checked_add_eq_some)

variable {σ T G A B : Type} {R : σ → List T → Prop} {usizeMax turns : ℕ} {l m : List T}

/-- `Intersperse` and `IntersperseWith` -/
structure Intersperse (σ T G : Type) where
  started : Bool
  separator : G
  next_item : Option T
  iter : Fuse σ

namespace Intersperse

def new (iter : σ) (separator : G) : Intersperse σ T G := ⟨false, separator, none, Fuse.new iter⟩

section Methods

variable (usizeMax : ℕ) (it : Iterator (Fuse σ) T) (call : G → T × G)

/-- `next`; `call` gives the next separator. -/
def next (self : Intersperse σ T G) : Option (Option T × Intersperse σ T G) :=
  if self.started then
    match self.next_item with
    | some v => some (some v, { self with next_item := none })
    | none => do
      let (next_item, iter) ← it.front.next self.iter
      if next_item.isSome then
        let (x, separator) := call self.separator
        return (some x, { self with separator, next_item, iter })
      else return (none, { self with iter })
  else do
    let (x, iter) ← it.front.next self.iter
    return (x, { self with started := true, iter })

/-- `intersperse_size_hint` -/
def size_hint (self : Intersperse σ T G) : ℕ × Option ℕ :=
  let (lo, hi) := it.size_hint self.iter
  let unstarted := (!self.started).toNat
  let next_is_some := self.next_item.isSome.toNat
  (saturating_add usizeMax (saturating_add usizeMax (lo - unstarted) next_is_some) lo,
    hi.bind fun hi =>
      checked_add usizeMax (saturating_add usizeMax (hi - unstarted) next_is_some) hi)

/-- The closure that `intersperse_fold` gives to the iterator. -/
def fold_item (f : A → T → A) (accum : A × G) (x : T) : A × G :=
  let (y, separator) := call accum.2
  (f (f accum.1 y) x, separator)

/-- `if let Some(x) = first { accum = f(accum, x); }`, and the fold of the rest -/
def fold_rest (f : A → T → A) (accum : A) (separator : G) (first : Option T) (iter : Fuse σ) :
    Option A := do
  let accum := first.elim accum (f accum)
  let (accum, _) ← it.front.fold (fold_item call f) (accum, separator) iter
  return accum

/-- `intersperse_fold` -/
def fold (f : A → T → A) (init : A) (self : Intersperse σ T G) : Option A :=
  if self.started then fold_rest it call f init self.separator self.next_item self.iter
  else do
    let (n, iter) ← it.front.next self.iter
    if n.isNone then return init else fold_rest it call f init self.separator n iter

end Methods

def iterator (usizeMax turns : ℕ) (it : Iterator (Fuse σ) T) (call : G → T × G) :
    Iterator (Intersperse σ T G) T where
  front :=
    { next := next it call
      nth := Provided.nth (Provided.advance_by (Provided.try_fold (next it call) turns))
        (next it call)
      advance_by := Provided.advance_by (Provided.try_fold (next it call) turns)
      try_fold := Provided.try_fold (next it call) turns
      fold := fold it call }
  size_hint := size_hint usizeMax it
  count := Provided.count usizeMax (fold it call)
  last := Provided.last (fold it call)

/-- Each element after its separator. -/
def separated (call : G → T × G) : G → List T → List T
  | _, [] => []
  | g, x :: l => (call g).1 :: x :: separated call (call g).2 l

/-- The elements with separators between them. -/
def interspersed (call : G → T × G) (g : G) : List T → List T
  | [] => []
  | x :: l => x :: separated call g l

/-- With one separator, that is `List.intersperse`. -/
theorem interspersed_const (sep : T) (l : List T) :
    interspersed (fun sep => (sep, sep)) sep l = l.intersperse sep := by
  cases l with
  | nil => rfl
  | cons x l =>
    rw [interspersed]
    induction l generalizing x with
    | nil => rfl
    | cons y l ih => rw [intersperse_cons_cons, ← ih, separated]

theorem separated_length (call : G → T × G) (g : G) (l : List T) :
    (separated call g l).length = 2 * l.length := by
  induction l generalizing g with
  | nil => rfl
  | cons x l ih =>
    rw [separated, length_cons, length_cons, ih, length_cons]
    omega

theorem interspersed_length (call : G → T × G) (g : G) (l : List T) :
    (interspersed call g l).length = 2 * l.length - 1 := by
  cases l with
  | nil => rfl
  | cons x l =>
    rw [interspersed, length_cons, separated_length, length_cons]
    omega

/-- Before the first element, before a separator, and before an element that is at hand. -/
inductive Places (RO : Fuse σ → List T → Prop) (call : G → T × G) :
    Intersperse σ T G → List T → Prop
  | unstarted {g iter l} (h : RO iter l) :
    Places RO call ⟨false, g, none, iter⟩ (interspersed call g l)
  | between {g iter l} (h : RO iter l) : Places RO call ⟨true, g, none, iter⟩ (separated call g l)
  | holding {g iter l} (v : T) (h : RO iter l) :
    Places RO call ⟨true, g, some v, iter⟩ (v :: separated call g l)

def Stands (RO : Fuse σ → List T → Prop) (call : G → T × G) (turns : ℕ) (s : Intersperse σ T G)
    (m : List T) : Prop := Places RO call s m ∧ m.length < turns

variable {RO : Fuse σ → List T → Prop} {it : Iterator (Fuse σ) T} {call : G → T × G}
  {s : Intersperse σ T G}

variable (h : IsNext RO it.front.next)
include h

theorem next_places : IsNext (Places RO call) (next it call) := by
  intro s m hs
  cases hs with
  | @unstarted g iter l hl =>
    obtain ⟨iter', hnext, hiter'⟩ := h hl
    refine ⟨⟨true, g, none, iter'⟩, ?_, ?_⟩
    · rw [next, if_neg Bool.false_ne_true, hnext]
      cases l <;> rfl
    · cases l with
      | nil | cons => exact .between hiter'
  | @between g iter l hl =>
    obtain ⟨iter', hnext, hiter'⟩ := h hl
    rw [next, if_pos rfl]
    rw [hnext]
    cases l with
    | nil => exact ⟨_, rfl, .between hiter'⟩
    | cons x l => exact ⟨_, rfl, .holding x hiter'⟩
  | holding v hl => exact ⟨_, rfl, .between hl⟩

theorem next_spec : IsNext (Stands RO call turns) (next it call) := by
  rintro s m ⟨hs, hlen⟩
  obtain ⟨s', hnext, hs'⟩ := next_places h hs
  exact ⟨s', hnext, hs', lt_of_le_of_lt (by rw [length_tail]; exact sub_le _ _) hlen⟩

theorem try_fold_spec :
    IsTryFold (A := A) (B := B) (Stands RO call turns) (Provided.try_fold (next it call) turns) :=
  fun f a _ _ hs => Iter.try_fold_spec (next_spec h) f a hs hs.2

omit h

/-- The fold of the elements, with a separator before each. -/
theorem foldl_fold_item (f : A → T → A) (accum : A) (g : G) (l : List T) :
    (l.foldl (fold_item call f) (accum, g)).1 = (separated call g l).foldl f accum := by
  induction l generalizing accum g with
  | nil => rfl
  | cons x l ih => exact ih _ _

theorem fold_rest_spec (h : ∀ {A : Type}, IsFold (A := A) RO it.front.fold) (f : A → T → A)
    (accum : A) (g : G) (first : Option T) {iter : Fuse σ} (hl : RO iter l) :
    fold_rest it call f accum g first iter =
      some ((first.toList ++ separated call g l).foldl f accum) := by
  rw [fold_rest, h _ _ hl, foldl_append, ← foldl_fold_item]
  cases first <;> rfl

theorem fold_spec (hnext : IsNext RO it.front.next)
    (h : ∀ {A : Type}, IsFold (A := A) RO it.front.fold) :
    IsFold (A := A) (Stands RO call turns) (fold it call) := by
  rintro f a s m ⟨hs, -⟩
  cases hs with
  | @unstarted g iter l hl =>
    obtain ⟨iter', hnext', hiter'⟩ := hnext hl
    rw [fold, if_neg Bool.false_ne_true, hnext']
    cases l with
    | nil => rfl
    | cons x l => exact fold_rest_spec h f a g (some x) hiter'
  | @between g iter l hl => exact fold_rest_spec h f a g none hl
  | @holding g iter l v hl => exact fold_rest_spec h f a g (some v) hl

variable (husize : 0 < usizeMax)
include husize

/-- The hint, from the hint of the iterator; a separator and an element for each of its elements. -/
theorem hint_spec (h : it.Lawful usizeMax RO) (hl : RO s.iter l)
    (n : ℕ) (hn : n = l.length - (!s.started).toNat + s.next_item.isSome.toNat + l.length) :
    ValidHint usizeMax (size_hint usizeMax it s) n := by
  have hhint := h.size_hint hl
  have hlower := hhint.lower
  have hsome := s.next_item.isSome.toNat_le
  refine ⟨?_, min_le_right _ _, fun hi hhi => ?_, fun hi hhi => ?_⟩
  · have hsum : ∀ a b, saturating_add usizeMax a b ≤ a + b := fun a b => min_le_left _ _
    rw [hn]
    refine (hsum _ _).trans (Nat.add_le_add ((hsum _ _).trans ?_) hlower)
    exact Nat.add_le_add_right (Nat.sub_le_sub_right hlower _) _
  · obtain ⟨x, hx, hadd⟩ := bind_eq_some_iff.mp hhi
    obtain ⟨rfl, hmax⟩ := checked_add_eq_some hadd
    have hupper := hhint.upper x hx
    dsimp only [saturating_add] at hmax ⊢
    omega
  · obtain ⟨x, hx, hadd⟩ := bind_eq_some_iff.mp hhi
    exact (checked_add_eq_some hadd).2

theorem size_hint_spec (h : it.Lawful usizeMax RO)
    (hs : Stands RO call turns s m) : ValidHint usizeMax (size_hint usizeMax it s) m.length := by
  obtain ⟨hs, -⟩ := hs
  cases hs with
  | @unstarted g iter l hl =>
    refine hint_spec husize h hl _ ?_
    rw [interspersed_length]
    simp only [Bool.not_false, Bool.toNat_true, Option.isSome_none, Bool.toNat_false]
    omega
  | @between g iter l hl =>
    refine hint_spec husize h hl _ ?_
    rw [separated_length]
    simp only [Bool.not_true, Option.isSome_none, Bool.toNat_false]
    omega
  | @holding g iter l v hl =>
    refine hint_spec husize h hl _ ?_
    rw [List.length_cons, separated_length]
    simp only [Bool.not_true, Option.isSome_some, Bool.toNat_false, Bool.toNat_true]
    omega

/-- **`Intersperse`** over a lawful iterator is lawful. -/
theorem lawful (h : it.Lawful usizeMax RO) :
    (iterator usizeMax turns it call).Lawful usizeMax (Stands RO call turns) where
  front :=
    { next := next_spec h.front.next
      nth := nth_spec (advance_by_spec (try_fold_spec h.front.next)) (next_spec h.front.next)
      advance_by := advance_by_spec (try_fold_spec h.front.next)
      try_fold := try_fold_spec h.front.next
      fold := fold_spec h.front.next h.front.fold }
  size_hint _ _ hs := size_hint_spec husize h hs
  count _ _ hs hlen := count_spec (fold_spec h.front.next h.front.fold) hs hlen
  last _ _ hs := last_spec (fold_spec h.front.next h.front.fold) hs

end Intersperse

end RustStd.Iter
