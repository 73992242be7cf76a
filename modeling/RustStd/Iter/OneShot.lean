import RustStd.Iter.Concat
import RustStd.Iter.Ranges

/-!
# Flattening iterators with at most one element

When an inner iterator has at most one element, the fields for the two ends stay empty and every
method only asks the outer iterator. It stands for the elements that there are, which is the same
concatenation.
-/

namespace RustStd.Iter

open FlattenCompat Provided List Nat Fuse

variable {σ υ X T A B : Type} {RO : Fuse σ → List X → Prop} {RU : υ → List T → Prop}
  {elems : X → List T} {item : X → Option T} {usizeMax turns : ℕ} {outer : Sweep (Fuse σ) X}
  {to_item : X → Option (Option T)} {s : FlattenCompat σ υ} {l : List T} {xs : List X}

namespace FlattenCompat.OneShot

/-- The items that there are. -/
def Stands (RO : Fuse σ → List X → Prop) (item : X → Option T) (turns : ℕ) (s : FlattenCompat σ υ)
    (l : List T) : Prop :=
  ∃ xs, RO s.iter xs ∧ xs.length < turns ∧ l = xs.filterMap item

theorem reversed_stands (RO : Fuse σ → List X → Prop) (item : X → Option T) (turns : ℕ) :
    Reversed (Stands (υ := υ) RO item turns) = Stands (Reversed RO) item turns := by
  funext s l
  apply propext
  constructor
  · rintro ⟨xs, h, hlen, hl⟩
    refine ⟨xs.reverse, by rwa [Reversed, reverse_reverse], by rwa [length_reverse], ?_⟩
    rw [filterMap_reverse, ← hl, reverse_reverse]
  · rintro ⟨xs, h, hlen, rfl⟩
    refine ⟨xs.reverse, h, by rwa [length_reverse], ?_⟩
    rw [filterMap_reverse]

theorem next_loop_spec (houter : IsNext RO outer.next) (hitem : ∀ x, to_item x = some (item x))
    {n : ℕ} (hn : xs.length < n) (h : RO s.iter xs) (hlen : xs.length < turns) :
    Yields (Stands RO item turns) (next_loop outer to_item n s) (xs.filterMap item).head?
      (xs.filterMap item).tail := by
  induction n generalizing s xs with
  | zero => exact absurd hn (not_lt_zero _)
  | succ n ih =>
    obtain ⟨iter, hnext, hiter⟩ := houter h
    rw [next_loop, hnext]
    cases xs with
    | nil => exact ⟨_, rfl, [], hiter, hlen, rfl⟩
    | cons x xs =>
      simp only [head?_cons, some_bind, hitem]
      rw [filterMap_cons]
      cases item x with
      | none => exact ih (lt_of_succ_lt_succ hn) hiter (lt_of_succ_lt hlen)
      | some t => exact ⟨_, rfl, xs, hiter, lt_of_succ_lt hlen, rfl⟩

/-- A fold of the outer iterator is the fold of the items. -/
theorem tryFold_items (hitem : ∀ x, to_item x = some (item x)) (f : A → T → Except B A) (a : A)
    (xs : List X) :
    (∃ a', tryFold (try_flatten_one to_item f) a xs = (.ok a', []) ∧
      tryFold f a (xs.filterMap item) = (.ok a', [])) ∨
    ∃ b xs', tryFold (try_flatten_one to_item f) a xs = (.error (some b), xs') ∧
      tryFold f a (xs.filterMap item) = (.error b, xs'.filterMap item) ∧
      xs'.length ≤ xs.length := by
  induction xs generalizing a with
  | nil => exact .inl ⟨a, rfl, rfl⟩
  | cons x xs ih =>
    have hstep (a' : A) : (∃ a'', tryFold (try_flatten_one to_item f) a' xs = (.ok a'', []) ∧
        tryFold f a' (xs.filterMap item) = (.ok a'', [])) ∨
      ∃ b xs', tryFold (try_flatten_one to_item f) a' xs = (.error (some b), xs') ∧
        tryFold f a' (xs.filterMap item) = (.error b, xs'.filterMap item) ∧
        xs'.length ≤ (x :: xs).length := by
      obtain h | ⟨b, xs', h, h', hlen⟩ := ih a'
      · exact .inl h
      · exact .inr ⟨b, xs', h, h', le_succ_of_le hlen⟩
    rw [tryFold, try_flatten_one, hitem, filterMap_cons]
    cases item x with
    | none => exact hstep a
    | some t =>
      rw [tryFold]
      dsimp only
      cases f a t with
      | ok a' => exact hstep a'
      | error b => exact .inr ⟨b, xs, rfl, rfl, le_succ _⟩

theorem try_fold_spec (houter : IsTryFold (A := A) (B := Option B) RO outer.try_fold)
    (hitem : ∀ x, to_item x = some (item x)) :
    IsTryFold (A := A) (B := B) (Stands (υ := υ) RO item turns) (try_fold outer to_item) := by
  rintro f a s l ⟨xs, h, hlen, rfl⟩
  obtain ⟨iter, hfold, hiter⟩ := houter (try_flatten_one to_item f) a h
  rw [try_fold, outer_try_fold, hfold]
  obtain ⟨a', hxs, hitems⟩ | ⟨b, xs', hxs, hitems, hle⟩ := tryFold_items hitem f a xs
  · rw [hxs] at hiter ⊢
    rw [hitems]
    exact ⟨_, rfl, [], hiter, lt_of_le_of_lt (zero_le _) hlen, rfl⟩
  · rw [hxs] at hiter ⊢
    rw [hitems]
    exact ⟨_, rfl, xs', hiter, lt_of_le_of_lt hle hlen, rfl⟩

theorem foldl_items (hitem : ∀ x, to_item x = some (item x)) (f : A → T → A) (a : A) (xs : List X) :
    xs.foldl (flatten_one to_item f) (some a) = some ((xs.filterMap item).foldl f a) := by
  induction xs generalizing a with
  | nil => rfl
  | cons x xs ih =>
    have hx : flatten_one to_item f (some a) x = some ((item x).elim a (f a)) := by
      rw [flatten_one]
      simp only [some_bind, hitem]
      cases item x <;> rfl
    rw [foldl_cons, hx, ih, filterMap_cons]
    cases item x <;> rfl

theorem fold_spec (houter : IsFold (A := Option A) RO outer.fold)
    (hitem : ∀ x, to_item x = some (item x)) :
    IsFold (A := A) (Stands (υ := υ) RO item turns) (OneShot.fold outer to_item) := by
  rintro f a s l ⟨xs, h, -, rfl⟩
  rw [OneShot.fold, houter _ _ h, foldl_items hitem]
  rfl

/-- Skipping items counts down. -/
theorem advance_by_one_eq : advance_by_one to_item =
      try_flatten_one to_item fun n _ => if n - 1 = 0 then .error () else .ok (n - 1) := by
  funext n x
  rw [advance_by_one, try_flatten_one]
  cases to_item x with
  | none => rfl
  | some t =>
    cases t with
    | none => rfl
    | some t =>
      dsimp only
      split <;> rfl

theorem advance_by_spec (houter : outer.Lawful usizeMax RO)
    (hitem : ∀ x, to_item x = some (item x)) :
    IsAdvanceBy usizeMax (Stands (υ := υ) RO item turns) (advance_by outer to_item) := by
  intro s l n h hn
  by_cases hzero : n = 0
  · obtain ⟨xs, h, hlen, rfl⟩ := h
    obtain ⟨iter, hadv, hiter⟩ := houter.advance_by 0 h (zero_le _)
    rw [advance_by, if_pos hzero, hadv, hzero, Nat.zero_sub, Nat.zero_sub]
    exact ⟨_, rfl, xs, hiter, hlen, rfl⟩
  have hprovided : advance_by outer to_item s n =
      Provided.advance_by (try_fold outer to_item) s n := by
    rw [advance_by, Provided.advance_by, if_neg hzero, if_neg hzero, advance_by_one_eq, try_fold]
    congr 1
    funext p
    rcases p with ⟨_ | _, _⟩ <;> rfl
  rw [hprovided]
  exact Iter.advance_by_spec (try_fold_spec houter.try_fold hitem) n h hn

section General

variable {out : DoubleEndedIterator (Fuse σ) X} {inn : DoubleEndedIterator υ T}
  {into_iter : X → υ} {fixed_size : Option ℕ}

theorem into_item_spec (hinner : IsNext RU inn.front.next)
    (hinto : ∀ x, RU (into_iter x) (elems x)) (x : X) :
    into_item inn into_iter x = some (elems x).head? := by
  obtain ⟨u, hnext, -⟩ := hinner (hinto x)
  rw [into_item, hnext]
  rfl

theorem size_hint_spec (houter : out.Lawful usizeMax RO)
    (hfixed : ∀ k, fixed_size = some k → ∀ x, (item x).toList.length = k)
    (h : Stands RO item turns s l) :
    ValidHint usizeMax (size_hint out fixed_size s) l.length := by
  obtain ⟨xs, h, -, rfl⟩ := h
  have hiter := houter.size_hint h
  have hle : (xs.filterMap item).length ≤ xs.length := length_filterMap_le item xs
  rw [size_hint]
  generalize out.size_hint s.iter = hint at hiter
  dsimp only
  split
  · -- No inner iterator has an element.
    have hnil : xs.filterMap item = [] := by
      rw [filterMap_eq_nil_iff]
      intro x _
      exact Option.toList_eq_nil_iff.mp (eq_nil_of_length_eq_zero (hfixed 0 rfl x))
    rw [hnil]
    exact ⟨le_refl _, zero_le _, fun hi _ => zero_le hi,
      fun hi hhi => by cases hhi; exact zero_le _⟩
  · -- Every inner iterator has one.
    have hlen : (xs.filterMap item).length = xs.length := by
      rw [length_filterMap_eq_countP, countP_eq_length]
      intro x _
      have hx := hfixed 1 rfl x
      cases hitem : item x with
      | none =>
        rw [hitem] at hx
        cases hx
      | some t => rfl
    rw [hlen]
    exact hiter
  · exact ⟨zero_le _, zero_le _, fun hi hhi => le_trans hle (hiter.upper hi hhi), hiter.upper_le⟩

theorem one_end_lawful (houter : outer.Lawful usizeMax RO)
    (hitem : ∀ x, to_item x = some (item x)) :
    Sweep.Lawful usizeMax (Stands (υ := υ) RO item turns)
      { next := next_loop outer to_item turns
        nth := Provided.nth (advance_by outer to_item) (next_loop outer to_item turns)
        advance_by := advance_by outer to_item
        try_fold := try_fold outer to_item
        fold := OneShot.fold outer to_item } where
  next := by
    rintro s l ⟨xs, h, hlen, rfl⟩
    exact next_loop_spec houter.next hitem hlen h hlen
  nth := by
    apply nth_spec (advance_by_spec houter hitem)
    rintro s l ⟨xs, h, hlen, rfl⟩
    exact next_loop_spec houter.next hitem hlen h hlen
  advance_by := advance_by_spec houter hitem
  try_fold := try_fold_spec houter.try_fold hitem
  fold := fold_spec houter.fold hitem

theorem lawful (houter : out.Lawful usizeMax RO) (hinner : IsNext RU inn.front.next)
    (hinto : ∀ x, RU (into_iter x) (elems x))
    (hfixed : ∀ k, fixed_size = some k → ∀ x, (elems x).head?.toList.length = k) :
    (iterator usizeMax turns out inn into_iter fixed_size).Lawful usizeMax
      (Stands RO (fun x => (elems x).head?) turns) where
  front := one_end_lawful houter.front (into_item_spec hinner hinto)
  size_hint _ _ h := size_hint_spec houter hfixed h
  count _ _ h hl :=
    Iter.count_spec (fold_spec houter.front.fold (into_item_spec hinner hinto)) h hl
  last _ _ h := Iter.last_spec (fold_spec houter.front.fold (into_item_spec hinner hinto)) h
  back := by
    rw [reversed_stands]
    exact one_end_lawful houter.back (into_item_spec hinner hinto)

end General

end FlattenCompat.OneShot

/-! ## The concatenation -/

/-- A list with at most one element. -/
theorem toList_head? {l : List T} (h : l.length ≤ 1) : l.head?.toList = l := by
  match l, h with
  | [], _ => rfl
  | [_], _ => rfl

theorem filterMap_head? (h : ∀ x, (elems x).length ≤ 1) (xs : List X) :
    xs.filterMap (fun x => (elems x).head?) = xs.flatMap elems := by
  rw [filterMap_eq_flatMap_toList]
  congr 1
  funext x
  exact toList_head? (h x)

/-- Both implementations answer as the concatenation. -/
theorem flatten_compat_agrees {R : σ → List X → Prop} {it : DoubleEndedIterator σ X}
    {inn : DoubleEndedIterator υ T} {into_iter : X → υ} {fixed_size : Option ℕ} {iter : σ}
    (fused : Bool) (hit : it.Lawful usizeMax R) (hinn : inn.Lawful usizeMax RU)
    (hinto : ∀ x, RU (into_iter x) (elems x))
    (hfixed : ∀ k, fixed_size = some k → ∀ x, (elems x).length = k)
    (h : R iter xs) (hturns : xs.length < turns) :
    (FlattenCompat.iterator usizeMax turns (iterator fused it) inn into_iter
      fixed_size).Agrees (ValidHint usizeMax) usizeMax (FlattenCompat.new iter)
      (xs.flatMap elems) ∧
    ((∀ x, (elems x).length ≤ 1) →
      (OneShot.iterator usizeMax turns (iterator fused it) inn into_iter
        fixed_size).Agrees (ValidHint usizeMax) usizeMax (FlattenCompat.new iter)
        (xs.flatMap elems)) := by
  have houter : (iterator fused it).Lawful usizeMax (Fuse.Stands R) := lawful hit
  constructor
  · have hlawful : (FlattenCompat.iterator usizeMax turns (iterator fused it) inn into_iter
        fixed_size).Lawful usizeMax (FlattenCompat.Stands (Fuse.Stands R) RU elems turns) :=
      FlattenCompat.lawful houter hinn hinto hfixed
    refine hlawful.agrees hlawful.size_hint ?_
    refine FlattenCompat.Parts.stands ⟨rfl, h, rfl, hturns⟩ ?_
    simp
  · intro hone
    have hfixed' : ∀ k, fixed_size = some k → ∀ x, (elems x).head?.toList.length = k := by
      intro k hk x
      rw [toList_head? (hone x)]
      exact hfixed k hk x
    have hlawful : (OneShot.iterator usizeMax turns (iterator fused it) inn into_iter
        fixed_size).Lawful usizeMax
          (OneShot.Stands (Fuse.Stands R) (fun x => (elems x).head?) turns) :=
      OneShot.lawful houter hinn.front.next hinto hfixed'
    refine hlawful.agrees hlawful.size_hint ⟨xs, h, hturns, ?_⟩
    rw [filterMap_head? hone]

/-- **`Flatten`** of lawful iterators answers every run of calls from both ends as the concatenation
does, and so does the implementation for inner iterators with at most one element. `FlatMap` is the
same over a mapped iterator. -/
theorem flatten_agrees {σ' Y : Type} {R : σ → List X → Prop} {R' : σ' → List Y → Prop}
    {it : DoubleEndedIterator σ X} {it' : DoubleEndedIterator σ' Y} {inn : DoubleEndedIterator υ T}
    {into_iter : X → υ} {fixed_size : Option ℕ} {iter : σ} {iter' : σ'} {ys : List Y}
    (fused : Bool) (f : Y → X) (hit : it.Lawful usizeMax R) (hit' : it'.Lawful usizeMax R')
    (hinn : inn.Lawful usizeMax RU) (hinto : ∀ x, RU (into_iter x) (elems x))
    (hfixed : ∀ k, fixed_size = some k → ∀ x, (elems x).length = k)
    (h : R iter xs) (h' : R' iter' ys) (hturns : xs.length < turns) (hturns' : ys.length < turns) :
    ((FlattenCompat.iterator usizeMax turns (iterator fused it) inn into_iter
        fixed_size).Agrees (ValidHint usizeMax) usizeMax (FlattenCompat.new iter)
        (xs.flatMap elems) ∧
      ((∀ x, (elems x).length ≤ 1) →
        (OneShot.iterator usizeMax turns (iterator fused it) inn into_iter
          fixed_size).Agrees (ValidHint usizeMax) usizeMax (FlattenCompat.new iter)
          (xs.flatMap elems))) ∧
    (FlattenCompat.iterator usizeMax turns (iterator fused (Map.iterator usizeMax f it')) inn
        into_iter fixed_size).Agrees (ValidHint usizeMax) usizeMax (FlattenCompat.new iter')
        (ys.flatMap fun y => elems (f y)) ∧
      ((∀ x, (elems x).length ≤ 1) →
        (OneShot.iterator usizeMax turns (iterator fused (Map.iterator usizeMax f it')) inn
          into_iter fixed_size).Agrees (ValidHint usizeMax) usizeMax (FlattenCompat.new iter')
          (ys.flatMap fun y => elems (f y))) := by
  refine ⟨flatten_compat_agrees fused hit hinn hinto hfixed h hturns, ?_⟩
  have hmap : (ys.map f).flatMap elems = ys.flatMap fun y => elems (f y) :=
    flatMap_map f elems ys
  rw [← hmap]
  exact flatten_compat_agrees fused (Map.lawful hit' f) hinn hinto hfixed ⟨ys, h', rfl⟩
    (by rwa [length_map])

/-- The numbers below one, below two and below three. -/
theorem flatten_agrees_ranges :
    (FlattenCompat.iterator 65535 5 (iterator true (Range.iterator 255 5))
      (Range.iterator 255 5) (fun n => ⟨0, n % 4⟩) none).Agrees (ValidHint 65535) 65535
      (FlattenCompat.new ⟨1, 4⟩) [0, 0, 1, 0, 1, 2] := by
  have hrange : (Range.iterator 255 5).Lawful 65535 (Range.Stands 255 5) :=
    Range.lawful (by decide)
  have hinto (n : ℕ) : Range.Stands 255 5 ⟨0, n % 4⟩ (range' 0 (n % 4)) := by
    refine ⟨zero_le _, ?_, rfl, ?_⟩
    · dsimp only
      omega
    · rw [length_range']
      omega
  have houter : Range.Stands 255 5 ⟨1, 4⟩ (range' 1 3) :=
    ⟨by decide, by decide, rfl, by decide⟩
  exact (flatten_agrees true id hrange hrange hrange hinto (by rintro k ⟨⟩) houter houter
    (by decide) (by decide)).1.1

end RustStd.Iter
