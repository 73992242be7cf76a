import RustStd.Iter.Flatten

/-!
# Flattening concatenates

`FlattenCompat` stands for the elements of `frontiter`, of the inner iterators to come and of
`backiter`, one after the other. The methods of the front are treated once, over any sweeps; those
of the back are the same methods over the sweeps of the other end, for the list from the back.
-/

namespace RustStd.Iter

open FlattenCompat Provided List Option Nat

variable {σ υ X T A B : Type} {RO : Fuse σ → List X → Prop} {RU : υ → List T → Prop}
  {elems : X → List T} {usizeMax turns : ℕ} {outer : Sweep (Fuse σ) X} {inner : Sweep υ T}
  {into_iter : X → υ} {s : FlattenCompat σ υ} {near far l m : List T} {xs : List X}

namespace FlattenCompat

/-- What the three fields stand for. -/
structure Parts (RO : Fuse σ → List X → Prop) (RU : υ → List T → Prop) (turns : ℕ)
    (s : FlattenCompat σ υ) (near : List T) (xs : List X) (far : List T) : Prop where
  front : OrEmpty RU s.frontiter near
  iter : RO s.iter xs
  back : OrEmpty RU s.backiter far
  turns : xs.length < turns

/-- The concatenation. -/
def Stands (RO : Fuse σ → List X → Prop) (RU : υ → List T → Prop) (elems : X → List T) (turns : ℕ)
    (s : FlattenCompat σ υ) (l : List T) : Prop :=
  ∃ near xs far, Parts RO RU turns s near xs far ∧ l = near ++ (xs.flatMap elems ++ far)

theorem Parts.stands (h : Parts RO RU turns s near xs far)
    (hl : l = near ++ (xs.flatMap elems ++ far)) : Stands RO RU elems turns s l :=
  ⟨near, xs, far, h, hl⟩

/-! ## One element -/

theorem next_loop_spec (houter : IsNext RO outer.next) (hinner : IsNext RU inner.next)
    (hinto : ∀ x, RU (into_iter x) (elems x)) {n : ℕ} (hn : xs.length < n)
    (h : Parts RO RU turns s near xs far) (hl : l = near ++ (xs.flatMap elems ++ far)) :
    Yields (Stands RO RU elems turns) (next_loop outer inner into_iter n s) l.head? l.tail := by
  induction n generalizing s near xs with
  | zero => exact absurd hn (not_lt_zero _)
  | succ n ih =>
    obtain ⟨front, hfront, hnear⟩ := and_then_or_clear_spec hinner h.front
    rw [next_loop, hfront]
    cases near with
    | cons x near =>
      subst hl
      exact ⟨_, rfl, Parts.stands ⟨hnear, h.iter, h.back, h.turns⟩ rfl⟩
    | nil =>
      obtain ⟨iter, hnext, hiter⟩ := houter h.iter
      simp only [head?_nil, bind_eq_bind, bind_some, isSome_none, hnext]
      cases xs with
      | nil =>
        obtain ⟨back, hback, hfar⟩ := and_then_or_clear_spec hinner h.back
        rw [head?_nil]
        rw [hback]
        subst hl
        exact ⟨_, rfl, Parts.stands ⟨hnear, hiter, hfar, h.turns⟩ rfl⟩
      | cons x xs =>
        refine ih (lt_of_succ_lt_succ hn)
          ⟨hinto x, hiter, h.back, lt_of_succ_lt h.turns⟩ ?_
        rw [hl, flatMap_cons, append_assoc]
        rfl

/-! ## Folding the inner iterators -/

/-- What folding an inner iterator with `fold`, from a state with `P`, does to its elements. -/
structure Folds (P : A → Prop) (RU : υ → List T → Prop) (fold : A → υ → Option (Except B A × υ))
    (g : A → List T → Except B A × List T) : Prop where
  spec : ∀ a ⦃u l⦄, P a → RU u l → Yields RU (fold a u) (g a l).1 (g a l).2
  keeps : ∀ a a' l, P a → (g a l).1 = .ok a' → P a'
  ok_nil : ∀ a a' l, (g a l).1 = .ok a' → (g a l).2 = []
  append : ∀ a l m, g a (l ++ m) = match g a l with
    | (.ok a, _) => g a m
    | (.error b, l) => (.error b, l ++ m)

/-- The outcome of folding some iterators one after the other: with none of them, nothing was
folded. -/
def FoldsTo (g : A → List T → Except B A × List T) (a : A) (l : List T) (r : Except B A)
    (rest : List T) : Prop :=
  (r, rest) = g a l ∨ (l = [] ∧ r = .ok a ∧ rest = [])

variable {P : A → Prop} {fold : A → υ → Option (Except B A × υ)} 
  {g : A → List T → Except B A × List T} {a a' : A} {b : B} {r : Except B A} {rest : List T}

theorem FoldsTo.empty : FoldsTo g a [] (.ok a) [] := .inr ⟨rfl, rfl, rfl⟩

variable (hg : Folds P RU fold g)
include hg

theorem FoldsTo.append (h : FoldsTo g a l (.ok a') [])
    (h' : FoldsTo g a' m r rest) : FoldsTo g a (l ++ m) r rest := by
  obtain h | ⟨rfl, hr, -⟩ := h
  · obtain h' | ⟨rfl, rfl, rfl⟩ := h'
    · left
      rw [hg.append, ← h]
      exact h'
    · left
      rw [append_nil]
      exact h
  · cases hr
    exact h'

theorem FoldsTo.append_error (h : FoldsTo g a l (.error b) rest) :
    FoldsTo g a (l ++ m) (.error b) (rest ++ m) := by
  obtain h | ⟨-, hr, -⟩ := h
  · left
    rw [hg.append, ← h]
  · cases hr

theorem fold_field_spec (ha : P a) {opt : Option υ} (h : OrEmpty RU opt l) :
    ∃ opt' r rest, fold_field fold a opt = some (r, opt') ∧ OrEmpty RU opt' rest ∧
      FoldsTo g a l r rest ∧ (∀ a', r = .ok a' → rest = [] ∧ opt' = none ∧ P a') := by
  cases opt with
  | none =>
    obtain rfl : l = [] := h
    exact ⟨none, .ok a, [], rfl, rfl, .empty, fun a' h => ⟨rfl, rfl, by cases h; exact ha⟩⟩
  | some u =>
    obtain ⟨u', hfold, hu'⟩ := hg.spec a ha h
    rw [fold_field, hfold]
    cases hr : (g a l).1 with
    | ok a' =>
      refine ⟨none, .ok a', [], rfl, rfl, .inl ?_, fun a'' h => ⟨rfl, rfl, ?_⟩⟩
      · rw [← hr, ← hg.ok_nil a a' l hr]
      · cases h
        exact hg.keeps a a' l ha hr
    | error b =>
      refine ⟨some u', .error b, (g a l).2, rfl, hu', .inl ?_, fun a' h => by cases h⟩
      rw [← hr]

/-- The outer fold: it runs to the end, or breaks off inside an inner iterator. -/
theorem tryFold_fold_item (hinto : ∀ x, RU (into_iter x) (elems x)) (ha : P a) (xs : List X) :
    (∃ a', tryFold (fold_item into_iter fold) a xs = (.ok a', []) ∧ P a' ∧
      FoldsTo g a (xs.flatMap elems) (.ok a') []) ∨
    ∃ b u l xs', tryFold (fold_item into_iter fold) a xs = (.error (some (b, u)), xs') ∧
      RU u l ∧ FoldsTo g a (xs.flatMap elems) (.error b) (l ++ xs'.flatMap elems) ∧
      xs'.length ≤ xs.length := by
  induction xs generalizing a with
  | nil => exact .inl ⟨a, rfl, ha, .empty⟩
  | cons x xs ih =>
    obtain ⟨u, hfold, hu⟩ := hg.spec a ha (hinto x)
    rw [tryFold, fold_item, hfold, flatMap_cons]
    cases hr : (g a (elems x)).1 with
    | ok a' =>
      have hx : FoldsTo g a (elems x) (.ok a') [] := by
        left
        rw [← hr, ← hg.ok_nil a a' _ hr]
      obtain ⟨a'', hxs, ha'', hto⟩ | ⟨b, u', l, xs', hxs, hu', hto, hlen⟩ :=
        ih (hg.keeps a a' _ ha hr)
      · exact .inl ⟨a'', hxs, ha'', hx.append hg hto⟩
      · exact .inr ⟨b, u', l, xs', hxs, hu', hx.append hg hto, le_succ_of_le hlen⟩
    | error b =>
      have hx : FoldsTo g a (elems x) (.error b) (g a (elems x)).2 := by
        left
        rw [← hr]
      exact .inr ⟨b, u, _, xs, rfl, hu, hx.append_error hg, le_succ _⟩

omit hg

theorem iter_try_fold_spec
    (houter : IsTryFold (A := A) (B := Option (B × υ)) RO outer.try_fold) (hg : Folds P RU fold g)
    (hinto : ∀ x, RU (into_iter x) (elems x)) (ha : P a) (h : Stands RO RU elems turns s l) :
    ∃ r rest, Yields (Stands RO RU elems turns) (s.iter_try_fold outer into_iter fold a) r rest ∧
      FoldsTo g a l r rest := by
  obtain ⟨near, xs, far, h, rfl⟩ := h
  obtain ⟨front, r, near', hfront, hnear', hto, hok⟩ := fold_field_spec hg ha h.front
  rw [iter_try_fold, hfront]
  cases r with
  | error b =>
    refine ⟨.error b, near' ++ (xs.flatMap elems ++ far), ⟨_, rfl, ?_⟩, hto.append_error hg⟩
    exact Parts.stands ⟨hnear', h.iter, h.back, h.turns⟩ rfl
  | ok a' =>
    obtain ⟨rfl, rfl, ha'⟩ := hok a' rfl
    obtain ⟨iter, hiter, hxs⟩ := houter (fold_item into_iter fold) a' h.iter
    simp only [bind_eq_bind, bind_some, hiter]
    obtain ⟨a'', hfold, ha'', hto'⟩ | ⟨b, u, l, xs', hfold, hu, hto', hlen⟩ :=
      tryFold_fold_item hg hinto ha' xs
    · rw [hfold] at hxs ⊢
      obtain ⟨back, r, far', hback, hfar', hto'', hok'⟩ := fold_field_spec hg ha'' h.back
      dsimp only
      rw [hback]
      refine ⟨r, far', ⟨_, rfl, ?_⟩, hto.append hg (hto'.append hg hto'')⟩
      exact Parts.stands ⟨rfl, hxs, hfar', Nat.lt_of_le_of_lt (Nat.zero_le _) h.turns⟩ rfl
    · rw [hfold] at hxs ⊢
      refine ⟨.error b, l ++ xs'.flatMap elems ++ far, ⟨_, rfl, ?_⟩,
        hto.append hg (hto'.append_error hg)⟩
      exact Parts.stands ⟨hu, hxs, h.back, Nat.lt_of_le_of_lt hlen h.turns⟩ (append_assoc _ _ _)

theorem folds_tryFold (f : A → T → Except B A) (h : IsTryFold (A := A) (B := B) RU inner.try_fold) :
    Folds (fun _ => True) RU (inner.try_fold f) (tryFold f) where
  spec a _ _ _ hu := h f a hu
  keeps _ _ _ _ _ := trivial
  ok_nil _ _ _ := tryFold_ok
  append := tryFold_append f

theorem try_fold_spec (houter : ∀ {B : Type}, IsTryFold (A := A) (B := B) RO outer.try_fold)
    (hinner : IsTryFold (A := A) (B := B) RU inner.try_fold)
    (hinto : ∀ x, RU (into_iter x) (elems x)) :
    IsTryFold (A := A) (B := B) (Stands RO RU elems turns) (try_fold outer inner into_iter) := by
  intro f a s l h
  obtain ⟨r, rest, hfold, hto⟩ :=
    iter_try_fold_spec houter (folds_tryFold f hinner) hinto trivial h
  obtain hto | ⟨rfl, rfl, rfl⟩ := hto
  · rwa [← hto]
  · exact hfold

/-- What skipping `n` elements leaves. -/
def skip (n : ℕ) (l : List T) : Except Unit ℕ × List T :=
  if n ≤ l.length then (.error (), l.drop n) else (.ok (n - l.length), [])

theorem folds_skip (h : IsAdvanceBy usizeMax RU inner.advance_by) :
    Folds (fun n => n ≤ usizeMax) RU (advance inner) skip where
  spec n u l hn hu := by
    obtain ⟨u', hadv, hu'⟩ := h n hu hn
    rw [advance, hadv, skip]
    by_cases hle : n ≤ l.length
    · rw [if_pos hle, Nat.sub_eq_zero_of_le hle]
      exact ⟨u', rfl, hu'⟩
    · rw [drop_eq_nil_of_le (by lia)] at hu'
      refine ⟨u', ?_, by rwa [if_neg hle]⟩
      rw [if_neg hle]
      simp only [bind_eq_bind, bind_some, if_neg (show ¬ n - l.length = 0 by lia)]
      rfl
  keeps n n' l hn hok := by
    rw [skip] at hok
    split at hok
    · cases hok
    · cases hok
      lia
  ok_nil n n' l hok := by
    rw [skip] at hok ⊢
    split at hok
    · cases hok
    · next hlt => rw [if_neg hlt]
  append n l m := by
    rw [skip, skip, length_append]
    by_cases hle : n ≤ l.length
    · rw [if_pos hle, if_pos (by lia), drop_append_of_le_length hle]
    · rw [if_neg hle]
      dsimp only
      rw [skip, drop_append, drop_eq_nil_of_le (Nat.le_of_not_le hle), nil_append]
      by_cases hle' : n ≤ l.length + m.length
      · rw [if_pos hle', if_pos (by lia)]
      · rw [if_neg hle', if_neg (by lia), Nat.sub_sub]

theorem advance_by_spec (houter : ∀ {A B : Type}, IsTryFold (A := A) (B := B) RO outer.try_fold)
    (hinner : IsAdvanceBy usizeMax RU inner.advance_by)
    (hinto : ∀ x, RU (into_iter x) (elems x)) :
    IsAdvanceBy usizeMax (Stands RO RU elems turns) (advance_by outer inner into_iter) := by
  intro s l n h hn
  obtain ⟨r, rest, ⟨s', hfold, hs'⟩, hto⟩ :=
    iter_try_fold_spec houter (folds_skip hinner) hinto hn h
  rw [advance_by, hfold]
  obtain hto | ⟨rfl, rfl, rfl⟩ := hto
  · rw [skip] at hto
    split at hto
    · next hle =>
      cases hto
      exact ⟨s', by rw [Nat.sub_eq_zero_of_le hle]; rfl, hs'⟩
    · next hlt =>
      cases hto
      refine ⟨s', rfl, ?_⟩
      rwa [drop_eq_nil_of_le (by lia)]
  · exact ⟨s', rfl, by rwa [drop_nil]⟩

/-! ## Folding to the end -/

/-- What folding an inner iterator to its end computes, where `P` says that what is still to come
can be folded. -/
structure FoldsAll (P : A → List T → Prop) (RU : υ → List T → Prop) (fold : A → υ → Option A)
    (g : A → List T → A) : Prop where
  spec : ∀ a ⦃u l⦄ m, RU u l → P a (l ++ m) → fold a u = some (g a l) ∧ P (g a l) m
  nil : ∀ a, g a [] = a
  append : ∀ a l m, g a (l ++ m) = g (g a l) m

theorem foldl_items {P : A → List T → Prop} {fold : A → υ → Option A} {g : A → List T → A}
    (hg : FoldsAll P RU fold g) (hinto : ∀ x, RU (into_iter x) (elems x)) {a : A} {xs : List X}
    (h : P a (xs.flatMap elems ++ m)) :
    xs.foldl (fun a x => a.bind fun a => fold a (into_iter x)) (some a) =
      some (g a (xs.flatMap elems)) ∧ P (g a (xs.flatMap elems)) m := by
  induction xs generalizing a with
  | nil =>
    rw [flatMap_nil, hg.nil]
    exact ⟨rfl, h⟩
  | cons x xs ih =>
    rw [flatMap_cons, append_assoc] at h
    obtain ⟨hfold, h'⟩ := hg.spec a _ (hinto x) h
    rw [foldl_cons, bind_some, hfold, flatMap_cons, hg.append]
    exact ih h'

theorem iter_fold_spec {P : A → List T → Prop} {fold : A → υ → Option A} {g : A → List T → A}
    (houter : IsFold (A := Option A) RO outer.fold) (hg : FoldsAll P RU fold g)
    (hinto : ∀ x, RU (into_iter x) (elems x)) {a : A} (h : Stands RO RU elems turns s l)
    (hP : P a l) : s.iter_fold outer into_iter fold a = some (g a l) := by
  have hfield : ∀ (opt : Option υ) (a : A) (l m : List T), OrEmpty RU opt l → P a (l ++ m) →
      fold_all_field fold a opt = some (g a l) ∧ P (g a l) m := by
    intro opt a l m hopt hP
    cases opt with
    | none =>
      obtain rfl : l = [] := hopt
      rw [hg.nil]
      exact ⟨rfl, hP⟩
    | some u => exact hg.spec a m hopt hP
  obtain ⟨near, xs, far, h, rfl⟩ := h
  obtain ⟨hnear, hP1⟩ := hfield _ _ _ _ h.front hP
  obtain ⟨hxs, hP2⟩ := foldl_items hg hinto hP1
  rw [← append_nil far] at hP2
  obtain ⟨hfar, -⟩ := hfield _ _ _ _ h.back hP2
  rw [iter_fold, hnear]
  simp [houter _ _ h.iter, hxs, hfar, hg.append]

theorem fold_spec (houter : IsFold (A := Option A) RO outer.fold)
    (hinner : IsFold (A := A) RU inner.fold) (hinto : ∀ x, RU (into_iter x) (elems x)) :
    IsFold (A := A) (Stands RO RU elems turns) (FlattenCompat.fold outer inner into_iter) := by
  intro f a s l h
  have hg : FoldsAll (fun _ _ => True) RU (inner.fold f) fun a l => l.foldl f a :=
    ⟨fun a u l m hu _ => ⟨hinner f a hu, trivial⟩, fun _ => rfl, fun _ _ _ => foldl_append⟩
  exact iter_fold_spec houter hg hinto h trivial

/-! ## The other end -/

/-- The elements from the back are those of the exchanged state, each inner iterator from its
back. -/
theorem reversed_stands (RO : Fuse σ → List X → Prop) (RU : υ → List T → Prop) (elems : X → List T)
    (turns : ℕ) (s : FlattenCompat σ υ) (l : List T) :
    Reversed (Stands RO RU elems turns) s l ↔
      Stands (Reversed RO) (Reversed RU) (fun x => (elems x).reverse) turns s.flip l := by
  have horEmpty : ∀ (opt : Option υ) (l : List T),
      OrEmpty (Reversed RU) opt l ↔ OrEmpty RU opt l.reverse := fun opt l => by
    rw [← reversed_orEmpty]
    rfl
  constructor
  · rintro ⟨near, xs, far, h, hl⟩
    refine ⟨far.reverse, xs.reverse, near.reverse, ⟨?_, ?_, ?_, ?_⟩, ?_⟩
    · rw [horEmpty, reverse_reverse]
      exact h.back
    · rw [Reversed, reverse_reverse]
      exact h.iter
    · rw [horEmpty, reverse_reverse]
      exact h.front
    · rw [length_reverse]
      exact h.turns
    · rw [← reverse_reverse l, hl]
      simp [reverse_flatMap, Function.comp_def]
  · rintro ⟨near, xs, far, h, rfl⟩
    refine ⟨far.reverse, xs.reverse, near.reverse, ⟨?_, ?_, ?_, ?_⟩, ?_⟩
    · exact (horEmpty _ _).mp h.back
    · exact h.iter
    · exact (horEmpty _ _).mp h.front
    · rw [length_reverse]
      exact h.turns
    · simp [reverse_flatMap, Function.comp_def]

theorem flipped_spec {α : Type} {f : FlattenCompat σ υ → Option (α × FlattenCompat σ υ)} {x : α}
    (h : Yields (Stands (Reversed RO) (Reversed RU) (fun x => (elems x).reverse) turns) (f s.flip)
      x l) :
    Yields (Reversed (Stands RO RU elems turns)) (flipped f s) x l := by
  obtain ⟨s', hf, hs'⟩ := h
  refine ⟨s'.flip, ?_, (reversed_stands _ _ _ _ _ _).mpr hs'⟩
  rw [flipped, hf]
  rfl

/-! ## Size hints -/

section Hints

variable {out : DoubleEndedIterator (Fuse σ) X} {inn : DoubleEndedIterator υ T}
  {fixed_size : Option ℕ}

theorem field_hint_spec (hinner : inn.Lawful usizeMax RU) {opt : Option υ} (h : OrEmpty RU opt l) :
    ValidHint usizeMax (field_hint inn opt) l.length := by
  cases opt with
  | none =>
    obtain rfl : l = [] := h
    exact ⟨Nat.le_refl _, Nat.zero_le _, fun hi _ => Nat.zero_le hi,
      fun hi hhi => by cases hhi; exact Nat.zero_le _⟩
  | some u => exact hinner.size_hint h

theorem checked_add_eq_some {a b c : ℕ} (h : checked_add usizeMax a b = some c) :
    c = a + b ∧ c ≤ usizeMax := by
  rw [checked_add] at h
  split at h
  · next hle =>
    cases h
    exact ⟨rfl, hle⟩
  · cases h

theorem checked_mul_eq_some {a b c : ℕ} (h : checked_mul usizeMax a b = some c) : c = a * b := by
  rw [checked_mul] at h
  split at h
  · cases h
    rfl
  · cases h

theorem length_flatMap_const {k : ℕ} (h : ∀ x, (elems x).length = k) (xs : List X) :
    (xs.flatMap elems).length = xs.length * k := by
  induction xs with
  | nil => rw [flatMap_nil, length_nil, length_nil, Nat.zero_mul]
  | cons x xs ih => rw [flatMap_cons, length_append, ih, h, length_cons, succ_mul, Nat.add_comm]

theorem size_hint_spec (houter : out.Lawful usizeMax RO) (hinner : inn.Lawful usizeMax RU)
    (hfixed : ∀ k, fixed_size = some k → ∀ x, (elems x).length = k)
    (h : Stands RO RU elems turns s l) :
    ValidHint usizeMax (size_hint usizeMax out inn fixed_size s) l.length := by
  obtain ⟨near, xs, far, h, rfl⟩ := h
  have hfront := field_hint_spec hinner h.front
  have hback := field_hint_spec hinner h.back
  have hiter := houter.size_hint h.iter
  rw [size_hint, length_append, length_append]
  generalize field_hint inn s.frontiter = front at hfront
  generalize field_hint inn s.backiter = back at hback
  generalize out.size_hint s.iter = iter at hiter
  obtain ⟨flo, fhi⟩ := front
  obtain ⟨blo, bhi⟩ := back
  obtain ⟨lower, upper⟩ := iter
  have hflo := hfront.lower
  have hblo := hback.lower
  cases fixed_size with
  | some k =>
    have hmul := Nat.mul_le_mul_right k hiter.lower
    rw [length_flatMap_const (hfixed k rfl)]
    dsimp only at hmul
    refine ⟨?_, Nat.min_le_right _ _, fun hi hhi => ?_, fun hi hhi => ?_⟩
    · simp only [saturating_add, saturating_mul]
      lia
    · simp only [bind_eq_bind, bind_eq_some_iff] at hhi
      obtain ⟨a, hfhi, b, hbhi, known, hknown, c, hupper, m, hm, hhi⟩ := hhi
      have ha := hfront.upper a hfhi
      have hb := hback.upper b hbhi
      have hc := Nat.mul_le_mul_right k (hiter.upper c hupper)
      obtain rfl := checked_mul_eq_some hm
      obtain ⟨rfl, -⟩ := checked_add_eq_some hknown
      obtain ⟨rfl, -⟩ := checked_add_eq_some hhi
      rw [Nat.mul_comm c k] at hc
      lia
    · simp only [bind_eq_bind, bind_eq_some_iff] at hhi
      obtain ⟨a, -, b, -, known, -, c, -, m, -, hhi⟩ := hhi
      exact (checked_add_eq_some hhi).2
  | none =>
    have hlo : saturating_add usizeMax flo blo ≤
        near.length + ((xs.flatMap elems).length + far.length) := by
      rw [saturating_add]
      lia
    dsimp only
    split
    · next a b hnone =>
      -- The outer iterator has nothing left.
      cases hnone
      have hxs := hiter.upper 0 rfl
      have ha := hfront.upper _ rfl
      have hb := hback.upper _ rfl
      obtain rfl : xs = [] := eq_nil_of_length_eq_zero (Nat.le_zero.mp hxs)
      refine ⟨hlo, Nat.min_le_right _ _, fun hi hhi => ?_, fun hi hhi => ?_⟩
      · obtain ⟨rfl, -⟩ := checked_add_eq_some hhi
        rw [flatMap_nil, length_nil]
        lia
      · exact (checked_add_eq_some hhi).2
    · exact ⟨hlo, Nat.min_le_right _ _, nofun, nofun⟩

end Hints

/-! ## All methods -/

section General

variable {out : DoubleEndedIterator (Fuse σ) X} {inn : DoubleEndedIterator υ T}
  {fixed_size : Option ℕ}

theorem next_spec (houter : IsNext RO outer.next) (hinner : IsNext RU inner.next)
    (hinto : ∀ x, RU (into_iter x) (elems x)) :
    IsNext (Stands RO RU elems turns) (next_loop outer inner into_iter turns) := by
  rintro s l ⟨near, xs, far, h, hl⟩
  exact next_loop_spec houter hinner hinto h.turns h hl

theorem count_spec (houter : IsFold (A := Option ℕ) RO out.front.fold)
    (hinner : inn.Lawful usizeMax RU) (hinto : ∀ x, RU (into_iter x) (elems x))
    (h : Stands RO RU elems turns s l) (hl : l.length ≤ usizeMax) :
    count usizeMax out inn into_iter s = some l.length := by
  have hg : FoldsAll (fun n l => n + l.length ≤ usizeMax) RU
      (fun acc u => do checked_add usizeMax acc (← inn.count u)) fun n l => n + l.length := by
    refine ⟨fun n u l m hu hle => ?_, fun n => rfl, fun n l m => ?_⟩
    · rw [length_append] at hle
      rw [hinner.count hu (by lia)]
      exact ⟨if_pos (by lia), by lia⟩
    · rw [length_append, Nat.add_assoc]
  rw [count, iter_fold_spec houter hg hinto h (by lia), Nat.zero_add]

theorem last_spec (houter : IsFold (A := Option (Option T)) RO out.front.fold)
    (hinner : inn.Lawful usizeMax RU) (hinto : ∀ x, RU (into_iter x) (elems x))
    (h : Stands RO RU elems turns s l) : last out inn into_iter s = some l.getLast? := by
  have hg : FoldsAll (fun _ _ => True) RU
      (fun last u => do return (← inn.last u).or last) fun x l => l.getLast?.or x := by
    refine ⟨fun x u l m hu _ => ⟨?_, trivial⟩, fun _ => rfl, fun x l m => ?_⟩
    · rw [hinner.last hu]
      rfl
    · rw [getLast?_append, Option.or_assoc]
  rw [last, iter_fold_spec houter hg hinto h trivial, or_none]

/-- **`FlattenCompat`** over lawful iterators is lawful. -/
theorem lawful (houter : out.Lawful usizeMax RO) (hinner : inn.Lawful usizeMax RU)
    (hinto : ∀ x, RU (into_iter x) (elems x))
    (hfixed : ∀ k, fixed_size = some k → ∀ x, (elems x).length = k) :
    (iterator usizeMax turns out inn into_iter fixed_size).Lawful usizeMax
      (Stands RO RU elems turns) where
  front :=
    { next := next_spec houter.front.next hinner.front.next hinto
      nth := nth_spec (advance_by_spec houter.front.try_fold hinner.front.advance_by hinto)
        (next_spec houter.front.next hinner.front.next hinto)
      advance_by := advance_by_spec houter.front.try_fold hinner.front.advance_by hinto
      try_fold := try_fold_spec houter.front.try_fold hinner.front.try_fold hinto
      fold := fold_spec houter.front.fold hinner.front.fold hinto }
  size_hint _ _ h := size_hint_spec houter hinner hfixed h
  count _ _ h hl := count_spec houter.front.fold hinner hinto h hl
  last _ _ h := last_spec houter.front.fold hinner hinto h
  back := by
    have hinto' : ∀ x, Reversed RU (into_iter x) (elems x).reverse := fun x => by
      rw [Reversed, reverse_reverse]
      exact hinto x
    have hnext : IsNext (Reversed (Stands RO RU elems turns)) (next_back turns out inn into_iter) :=
      fun s l h => flipped_spec (next_spec houter.back.next hinner.back.next hinto'
        ((reversed_stands _ _ _ _ _ _).mp h))
    have hadvance : IsAdvanceBy usizeMax (Reversed (Stands RO RU elems turns)) fun self n =>
        flipped (fun self => self.advance_by out.back inn.back into_iter n) self :=
      fun s l n h hn => flipped_spec
        (f := fun self => self.advance_by out.back inn.back into_iter n)
        (advance_by_spec houter.back.try_fold hinner.back.advance_by hinto' n
          ((reversed_stands _ _ _ _ _ _).mp h) hn)
    exact
      { next := hnext
        nth := nth_spec hadvance hnext
        advance_by := hadvance
        try_fold := fun f a s l h => flipped_spec (try_fold_spec houter.back.try_fold
          hinner.back.try_fold hinto' f a ((reversed_stands _ _ _ _ _ _).mp h))
        fold := fun f a s l h => fold_spec houter.back.fold hinner.back.fold hinto' f a
          ((reversed_stands _ _ _ _ _ _).mp h) }

end General

end FlattenCompat

end RustStd.Iter
