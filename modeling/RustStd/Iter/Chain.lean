import RustStd.Iter.Concat
import RustStd.Iter.Take

/-!
# Two iterators in sequence

`Chain`, after `core/src/iter/adapters/chain.rs`. The methods of the back are those of the front
with the two iterators exchanged. Over iterators that stand for lists it stands for the one list
after the other (`Chain.iterator_lawful`, `Chain.lawful`).
-/

namespace RustStd.Iter

open List Nat

open FlattenCompat (checked_add saturating_add checked_add_eq_some)
open Take (checked_add_eq)

variable {σ υ T A B α : Type} {RA : σ → List T → Prop} {RB : υ → List T → Prop} {usizeMax : ℕ}
  {l m : List T}

structure Chain (σ υ : Type) where
  a : Option σ
  b : Option υ

namespace Chain

def new (a : σ) (b : υ) : Chain σ υ := ⟨some a, some b⟩

/-- The two iterators exchanged. -/
def flip (self : Chain σ υ) : Chain υ σ := ⟨self.b, self.a⟩

/-- A method of the back, from the method of the front. -/
def flipped (f : Chain υ σ → Option (α × Chain υ σ)) (self : Chain σ υ) :
    Option (α × Chain σ υ) := do
  let (x, self) ← f self.flip
  return (x, self.flip)

section OneEnd

variable (wa : Sweep σ T) (wb : Sweep υ T)

/-- `next`, and `next_back` -/
def next (self : Chain σ υ) : Option (Option T × Chain σ υ) := do
  let (x, a) ← and_then_or_clear wa.next self.a
  if x.isSome then return (x, { self with a })
  else
    match self.b with
    | none => return (none, { self with a })
    | some b =>
      let (x, b) ← wb.next b
      return (x, ⟨a, some b⟩)

/-- What `advance_by` does when the first iterator is used up. -/
def advance_rest (b : Option υ) (n : ℕ) : Option (ℕ × Chain σ υ) :=
  match b with
  | none => some (n, ⟨none, none⟩)
  | some b => do
    let (n, b) ← wb.advance_by b n
    return (n, ⟨none, some b⟩)

/-- `advance_by`, and `advance_back_by` -/
def advance_by (self : Chain σ υ) (n : ℕ) : Option (ℕ × Chain σ υ) :=
  match self.a with
  | none => advance_rest wb self.b n
  | some a => do
    let (k, a) ← wa.advance_by a n
    if k = 0 then return (0, { self with a := some a }) else advance_rest wb self.b k

/-- What `nth` does when the first iterator is used up. -/
def nth_rest (b : Option υ) (n : ℕ) : Option (Option T × Chain σ υ) :=
  match b with
  | none => some (none, ⟨none, none⟩)
  | some b => do
    let (x, b) ← wb.nth b n
    return (x, ⟨none, some b⟩)

/-- `nth`, and `nth_back` -/
def nth (self : Chain σ υ) (n : ℕ) : Option (Option T × Chain σ υ) :=
  match self.a with
  | none => nth_rest wb self.b n
  | some a => do
    let (k, a) ← wa.advance_by a n
    if k = 0 then
      let (x, a) ← wa.next a
      if x.isSome then return (x, { self with a := some a }) else nth_rest wb self.b 0
    else nth_rest wb self.b k

/-- What `try_fold` does when the first iterator is used up. -/
def try_fold_rest (f : A → T → Except B A) (a : A) (b : Option υ) :
    Option (Except B A × Chain σ υ) :=
  match b with
  | none => some (.ok a, ⟨none, none⟩)
  | some b => do
    let (r, b) ← wb.try_fold f a b
    return (r, ⟨none, some b⟩)

/-- `try_fold`, and `try_rfold` -/
def try_fold (f : A → T → Except B A) (acc : A) (self : Chain σ υ) :
    Option (Except B A × Chain σ υ) :=
  match self.a with
  | none => try_fold_rest wb f acc self.b
  | some a => do
    let (r, a) ← wa.try_fold f acc a
    match r with
    | .error b => return (.error b, { self with a := some a })
    | .ok acc => try_fold_rest wb f acc self.b

/-- `if let Some(iter) = opt { acc = iter.fold(acc, f); }` -/
def fold_field (w : Sweep α T) (f : A → T → A) (acc : A) : Option α → Option A
  | none => some acc
  | some iter => w.fold f acc iter

/-- `fold`, and `rfold` -/
def fold (f : A → T → A) (acc : A) (self : Chain σ υ) : Option A := do
  let acc ← fold_field wa f acc self.a
  fold_field wb f acc self.b

end OneEnd

section Both

variable (usizeMax : ℕ) (ia : Iterator σ T) (ib : Iterator υ T)

/-- `match opt { Some(iter) => iter.count(), None => 0 }` -/
def count_field (it : Iterator α T) : Option α → Option ℕ
  | none => some 0
  | some iter => it.count iter

def count (self : Chain σ υ) : Option ℕ := do
  let a_count ← count_field ia self.a
  let b_count ← count_field ib self.b
  checked_add usizeMax a_count b_count

/-- `opt.and_then(Iterator::last)` -/
def last_field (it : Iterator α T) : Option α → Option (Option T)
  | none => some none
  | some iter => it.last iter

def last (self : Chain σ υ) : Option (Option T) := do
  let a_last ← last_field ia self.a
  let b_last ← last_field ib self.b
  return b_last.or a_last

def size_hint (self : Chain σ υ) : ℕ × Option ℕ :=
  match self.a, self.b with
  | some a, some b =>
    let (a_lower, a_upper) := ia.size_hint a
    let (b_lower, b_upper) := ib.size_hint b
    let lower := saturating_add usizeMax a_lower b_lower
    let upper :=
      match a_upper, b_upper with
      | some x, some y => checked_add usizeMax x y
      | _, _ => none
    (lower, upper)
  | some a, none => ia.size_hint a
  | none, some b => ib.size_hint b
  | none, none => (0, some 0)

end Both

def iterator (usizeMax : ℕ) (ia : DoubleEndedIterator σ T) (ib : DoubleEndedIterator υ T) :
    DoubleEndedIterator (Chain σ υ) T where
  front :=
    { next := next ia.front ib.front
      nth := nth ia.front ib.front
      advance_by := advance_by ia.front ib.front
      try_fold := try_fold ia.front ib.front
      fold := fold ia.front ib.front }
  size_hint := size_hint usizeMax ia.toIterator ib.toIterator
  count := count usizeMax ia.toIterator ib.toIterator
  last := last ia.toIterator ib.toIterator
  back :=
    { next := flipped (next ib.back ia.back)
      nth := fun self n => flipped (fun self => nth ib.back ia.back self n) self
      advance_by := fun self n => flipped (fun self => advance_by ib.back ia.back self n) self
      try_fold := fun f acc => flipped (try_fold ib.back ia.back f acc)
      fold := fun f acc self => fold ib.back ia.back f acc self.flip }

/-- The one list after the other. -/
structure Parts (RA : σ → List T → Prop) (RB : υ → List T → Prop) (s : Chain σ υ)
    (l1 l2 : List T) : Prop where
  a : OrEmpty RA s.a l1
  b : OrEmpty RB s.b l2

def Stands (RA : σ → List T → Prop) (RB : υ → List T → Prop) (s : Chain σ υ) (m : List T) : Prop :=
  ∃ l1 l2, Parts RA RB s l1 l2 ∧ m = l1 ++ l2

variable {s : Chain σ υ} {l1 l2 : List T}

theorem stands_rest {b : Option υ} (h : OrEmpty RB b m) : Stands RA RB ⟨none, b⟩ m :=
  ⟨[], m, ⟨rfl, h⟩, rfl⟩

section OneEnd

variable {wa : Sweep σ T} {wb : Sweep υ T}

theorem next_spec (ha : IsNext RA wa.next) (hb : IsNext RB wb.next) :
    IsNext (Stands RA RB) (next wa wb) := by
  rintro ⟨a, b⟩ _ ⟨l1, l2, ⟨hla, hlb⟩, rfl⟩
  obtain ⟨a', hnext, ha'⟩ := and_then_or_clear_spec ha hla
  rw [next, hnext]
  simp only [some_bind]
  cases l1 with
  | cons x l1 => exact ⟨⟨a', b⟩, rfl, l1, l2, ⟨ha', hlb⟩, rfl⟩
  | nil =>
    cases b with
    | none =>
      obtain rfl : l2 = [] := hlb
      exact ⟨⟨a', none⟩, rfl, [], [], ⟨ha', rfl⟩, rfl⟩
    | some b =>
      obtain ⟨b', hnext', hb'⟩ := hb hlb
      refine ⟨⟨a', some b'⟩, ?_, [], l2.tail, ⟨ha', hb'⟩, rfl⟩
      simp only [head?_nil, Option.isSome_none, Bool.false_eq_true, if_false, hnext']
      rfl

variable {b : Option υ}

theorem advance_rest_spec (hb : IsAdvanceBy usizeMax RB wb.advance_by)
    (hlb : OrEmpty RB b m) {n : ℕ} (hn : n ≤ usizeMax) :
    Yields (Stands RA RB) (advance_rest wb b n) (n - m.length) (m.drop n) := by
  cases b with
  | none =>
    obtain rfl : m = [] := hlb
    rw [drop_nil]
    exact ⟨⟨none, none⟩, rfl, stands_rest rfl⟩
  | some b =>
    obtain ⟨b', hadvance, hb'⟩ := hb n hlb hn
    refine ⟨⟨none, some b'⟩, ?_, stands_rest hb'⟩
    rw [advance_rest]
    rw [hadvance]
    rfl

theorem advance_by_spec (ha : IsAdvanceBy usizeMax RA wa.advance_by)
    (hb : IsAdvanceBy usizeMax RB wb.advance_by) :
    IsAdvanceBy usizeMax (Stands RA RB) (advance_by wa wb) := by
  rintro ⟨a, b⟩ _ n ⟨l1, l2, ⟨hla, hlb⟩, rfl⟩ hn
  cases a with
  | none =>
    obtain rfl : l1 = [] := hla
    exact advance_rest_spec hb hlb hn
  | some a =>
    obtain ⟨a', hadvance, ha'⟩ := ha n hla hn
    rw [advance_by]
    dsimp only
    rw [hadvance, drop_append, length_append]
    simp only [some_bind]
    by_cases hk : n - l1.length = 0
    · refine ⟨⟨some a', b⟩, ?_, l1.drop n, l2, ⟨ha', hlb⟩, ?_⟩
      · rw [if_pos hk, show n - (l1.length + l2.length) = 0 by lia]
        rfl
      · rw [hk, drop_zero]
    · rw [if_neg hk, drop_eq_nil_of_le (by lia), nil_append, ← Nat.sub_sub]
      exact advance_rest_spec hb hlb ((sub_le _ _).trans hn)

theorem nth_rest_spec (hb : IsNth usizeMax RB wb.nth) (hlb : OrEmpty RB b m) {n : ℕ}
    (hn : n ≤ usizeMax) : Yields (Stands RA RB) (nth_rest wb b n) m[n]? (m.drop (n + 1)) := by
  cases b with
  | none =>
    obtain rfl : m = [] := hlb
    rw [drop_nil]
    exact ⟨⟨none, none⟩, rfl, stands_rest rfl⟩
  | some b =>
    obtain ⟨b', hnth, hb'⟩ := hb n hlb hn
    refine ⟨⟨none, some b'⟩, ?_, stands_rest hb'⟩
    rw [nth_rest]
    rw [hnth]
    rfl

theorem nth_spec (ha : wa.Lawful usizeMax RA) (hb : IsNth usizeMax RB wb.nth) :
    IsNth usizeMax (Stands RA RB) (nth wa wb) := by
  rintro ⟨a, b⟩ _ n ⟨l1, l2, ⟨hla, hlb⟩, rfl⟩ hn
  cases a with
  | none =>
    obtain rfl : l1 = [] := hla
    exact nth_rest_spec hb hlb hn
  | some a =>
    obtain ⟨a1, hadvance, ha1⟩ := ha.advance_by n hla hn
    rw [nth]
    dsimp only
    rw [hadvance]
    simp only [some_bind]
    by_cases hk : n - l1.length = 0
    · obtain ⟨a2, hnext, ha2⟩ := ha.next ha1
      rw [if_pos hk, hnext]
      simp only [some_bind]
      rw [tail_drop] at ha2
      rw [head?_drop]
      obtain hlt | hge := lt_or_ge n l1.length
      · rw [getElem?_append_left hlt, drop_append, getElem?_eq_getElem hlt,
          Nat.sub_eq_zero_of_le hlt, drop_zero]
        exact ⟨⟨some a2, b⟩, rfl, _, l2, ⟨ha2, hlb⟩, rfl⟩
      · obtain rfl : n = l1.length := by lia
        rw [getElem?_eq_none (le_refl _), getElem?_append_right (le_refl _),
          Nat.sub_self, ← drop_drop, drop_left]
        exact nth_rest_spec hb hlb (zero_le _)
    · rw [if_neg hk, getElem?_append_right (by lia), drop_append,
        drop_eq_nil_of_le (by lia), nil_append,
        show n + 1 - l1.length = n - l1.length + 1 by lia]
      exact nth_rest_spec hb hlb ((sub_le _ _).trans hn)

theorem try_fold_rest_spec (hb : IsTryFold (A := A) (B := B) RB wb.try_fold)
    (hlb : OrEmpty RB b m) (f : A → T → Except B A) (acc : A) :
    Yields (Stands RA RB) (try_fold_rest wb f acc b) (tryFold f acc m).1 (tryFold f acc m).2 := by
  cases b with
  | none =>
    obtain rfl : m = [] := hlb
    exact ⟨⟨none, none⟩, rfl, stands_rest rfl⟩
  | some b =>
    obtain ⟨b', hfold, hb'⟩ := hb f acc hlb
    refine ⟨⟨none, some b'⟩, ?_, stands_rest hb'⟩
    rw [try_fold_rest]
    rw [hfold]
    rfl

theorem try_fold_spec (ha : IsTryFold (A := A) (B := B) RA wa.try_fold)
    (hb : IsTryFold (A := A) (B := B) RB wb.try_fold) :
    IsTryFold (A := A) (B := B) (Stands RA RB) (try_fold wa wb) := by
  rintro f acc ⟨a, b⟩ _ ⟨l1, l2, ⟨hla, hlb⟩, rfl⟩
  cases a with
  | none =>
    obtain rfl : l1 = [] := hla
    exact try_fold_rest_spec hb hlb f acc
  | some a =>
    obtain ⟨a', hfold, ha'⟩ := ha f acc hla
    rw [try_fold, tryFold_append]
    dsimp only
    rw [hfold]
    simp only [some_bind]
    generalize tryFold f acc l1 = t at ha' ⊢
    obtain ⟨r, rest⟩ := t
    cases r with
    | error e => exact ⟨⟨some a', b⟩, rfl, rest, l2, ⟨ha', hlb⟩, rfl⟩
    | ok acc => exact try_fold_rest_spec hb hlb f acc

theorem fold_field_spec {R : α → List T → Prop} {w : Sweep α T} (h : IsFold (A := A) R w.fold)
    (f : A → T → A) (acc : A) {opt : Option α} (hl : OrEmpty R opt l) :
    fold_field w f acc opt = some (l.foldl f acc) := by
  cases opt with
  | none =>
    obtain rfl : l = [] := hl
    rfl
  | some s => exact h f acc hl

theorem fold_spec (ha : IsFold (A := A) RA wa.fold) (hb : IsFold (A := A) RB wb.fold) :
    IsFold (A := A) (Stands RA RB) (fold wa wb) := by
  rintro f acc ⟨a, b⟩ _ ⟨l1, l2, ⟨hla, hlb⟩, rfl⟩
  rw [fold, fold_field_spec ha f acc hla, foldl_append]
  exact fold_field_spec hb f _ hlb

end OneEnd

/-! ## The other end -/

/-- Exchanging the iterators reads the list from its other end. -/
theorem reversed_stands (s : Chain σ υ) (m : List T) :
    Reversed (Stands RA RB) s m ↔ Stands (Reversed RB) (Reversed RA) s.flip m := by
  constructor
  · rintro ⟨l1, l2, ⟨ha, hb⟩, hm⟩
    refine ⟨l2.reverse, l1.reverse, ⟨?_, ?_⟩, ?_⟩
    · rw [← reversed_orEmpty]
      exact reversed_reverse hb
    · rw [← reversed_orEmpty]
      exact reversed_reverse ha
    · rw [← reverse_append, ← hm, reverse_reverse]
  · rintro ⟨l2, l1, ⟨hb, ha⟩, rfl⟩
    rw [← reversed_orEmpty] at ha hb
    exact ⟨l1.reverse, l2.reverse, ⟨ha, hb⟩, reverse_append⟩

theorem flipped_spec {f : Chain υ σ → Option (α × Chain υ σ)} {x : α}
    (h : Yields (Stands (Reversed RB) (Reversed RA)) (f s.flip) x m) :
    Yields (Reversed (Stands RA RB)) (flipped f s) x m := by
  obtain ⟨s', hf, hs'⟩ := h
  refine ⟨s'.flip, ?_, (reversed_stands _ _).mpr hs'⟩
  rw [flipped, hf]
  rfl

/-! ## All methods -/

section Both

variable {ia : Iterator σ T} {ib : Iterator υ T}

theorem count_field_spec {R : α → List T → Prop} {it : Iterator α T} (h : it.Lawful usizeMax R)
    {opt : Option α} (hl : OrEmpty R opt l) (hlen : l.length ≤ usizeMax) :
    count_field it opt = some l.length := by
  cases opt with
  | none =>
    obtain rfl : l = [] := hl
    rfl
  | some s => exact h.count hl hlen

theorem count_spec (ha : ia.Lawful usizeMax RA) (hb : ib.Lawful usizeMax RB)
    (hs : Stands RA RB s m) (hlen : m.length ≤ usizeMax) :
    count usizeMax ia ib s = some m.length := by
  obtain ⟨l1, l2, ⟨hla, hlb⟩, rfl⟩ := hs
  rw [length_append] at hlen ⊢
  rw [count, count_field_spec ha hla (by lia), count_field_spec hb hlb (by lia)]
  exact checked_add_eq hlen

theorem last_field_spec {R : α → List T → Prop} {it : Iterator α T} (h : it.Lawful usizeMax R)
    {opt : Option α} (hl : OrEmpty R opt l) : last_field it opt = some l.getLast? := by
  cases opt with
  | none =>
    obtain rfl : l = [] := hl
    rfl
  | some s => exact h.last hl

theorem last_spec (ha : ia.Lawful usizeMax RA) (hb : ib.Lawful usizeMax RB)
    (hs : Stands RA RB s m) : last ia ib s = some m.getLast? := by
  obtain ⟨l1, l2, ⟨hla, hlb⟩, rfl⟩ := hs
  rw [last, last_field_spec ha hla, last_field_spec hb hlb, getLast?_append]
  rfl

theorem size_hint_spec (ha : ia.Lawful usizeMax RA) (hb : ib.Lawful usizeMax RB)
    (hs : Stands RA RB s m) : ValidHint usizeMax (size_hint usizeMax ia ib s) m.length := by
  obtain ⟨a, b⟩ := s
  obtain ⟨l1, l2, ⟨hla, hlb⟩, rfl⟩ := hs
  rw [length_append]
  cases a with
  | none =>
    obtain rfl : l1 = [] := hla
    rw [length_nil, zero_add]
    cases b with
    | none =>
      obtain rfl : l2 = [] := hlb
      exact exactHint_valid rfl (zero_le _)
    | some b => exact hb.size_hint hlb
  | some a =>
    cases b with
    | none =>
      obtain rfl : l2 = [] := hlb
      exact ha.size_hint hla
    | some b =>
      have hint1 := ha.size_hint hla
      have hint2 := hb.size_hint hlb
      have hlower1 := hint1.lower
      have hlower2 := hint2.lower
      refine ⟨?_, min_le_right _ _, ?_, ?_⟩
      · exact (min_le_left _ _).trans (Nat.add_le_add hlower1 hlower2)
      · intro hi hhi
        rw [size_hint] at hhi
        dsimp only at hhi
        split at hhi
        · next x y hx hy =>
          obtain ⟨rfl, -⟩ := checked_add_eq_some hhi
          exact Nat.add_le_add (hint1.upper x hx) (hint2.upper y hy)
        · cases hhi
      · intro hi hhi
        rw [size_hint] at hhi
        dsimp only at hhi
        split at hhi
        · exact (checked_add_eq_some hhi).2
        · cases hhi

end Both

/-- **`Chain`** over lawful iterators is lawful. -/
theorem iterator_lawful {ia : DoubleEndedIterator σ T} {ib : DoubleEndedIterator υ T}
    (ha : ia.toIterator.Lawful usizeMax RA) (hb : ib.toIterator.Lawful usizeMax RB) :
    (iterator usizeMax ia ib).toIterator.Lawful usizeMax (Stands RA RB) where
  front :=
    { next := next_spec ha.front.next hb.front.next
      nth := nth_spec ha.front hb.front.nth
      advance_by := advance_by_spec ha.front.advance_by hb.front.advance_by
      try_fold := try_fold_spec ha.front.try_fold hb.front.try_fold
      fold := fold_spec ha.front.fold hb.front.fold }
  size_hint _ _ hs := size_hint_spec ha hb hs
  count _ _ hs hlen := count_spec ha hb hs hlen
  last _ _ hs := last_spec ha hb hs

theorem lawful {ia : DoubleEndedIterator σ T} {ib : DoubleEndedIterator υ T}
    (ha : ia.Lawful usizeMax RA) (hb : ib.Lawful usizeMax RB) :
    (iterator usizeMax ia ib).Lawful usizeMax (Stands RA RB) where
  toLawful := iterator_lawful ha.toLawful hb.toLawful
  back :=
    { next := fun s _ hs =>
        flipped_spec (next_spec hb.back.next ha.back.next ((reversed_stands s _).mp hs))
      nth := by
        intro s m n hs hn
        exact flipped_spec (f := fun self => nth ib.back ia.back self n)
          (nth_spec hb.back ha.back.nth n ((reversed_stands s m).mp hs) hn)
      advance_by := by
        intro s m n hs hn
        exact flipped_spec (f := fun self => advance_by ib.back ia.back self n)
          (advance_by_spec hb.back.advance_by ha.back.advance_by n ((reversed_stands s m).mp hs) hn)
      try_fold := fun f acc s _ hs =>
        flipped_spec (try_fold_spec hb.back.try_fold ha.back.try_fold f acc
          ((reversed_stands s _).mp hs))
      fold := fun f acc s _ hs =>
        fold_spec hb.back.fold ha.back.fold f acc ((reversed_stands s _).mp hs) }

end Chain

end RustStd.Iter
