import RustStd.Foundations.Word
import RustStd.Iter.Flatten

/-!
# The first elements of an iterator

`Take`, after `core/src/iter/adapters/take.rs`. Its `fold` has an implementation of its own for
iterators whose elements can be reached by their places. Over an iterator that stands for a list it
stands for the first elements of the list (`Take.iterator_lawful`, `Take.lawful`).
-/

namespace RustStd.Iter

open List Nat

open FlattenCompat (checked_add saturating_add)

variable {σ T A B : Type} {R : σ → List T → Prop} {usizeMax : ℕ} {l m : List T}

/-! ## Closures that count -/

/-- The closure `check`: the fold goes on for `n` elements at most, and breaks with what it has
then. A counter below zero is a panic. -/
def check (f : A → T → Except B A) (acc : ℕ × A) (x : T) :
    Except (Option (ℕ × Except B A)) (ℕ × A) :=
  match checkedSub acc.1 1 with
  | none => .error none
  | some n =>
    let r := f acc.2 x
    if n = 0 then .error (some (n, r))
    else
      match r with
      | .ok a => .ok (n, a)
      | .error b => .error (some (n, .error b))

theorem check_succ (f : A → T → Except B A) (n : ℕ) (a : A) (x : T) : check f (n + 1, a) x =
      if n = 0 then .error (some (n, f a x))
      else
        match f a x with
        | .ok a => .ok (n, a)
        | .error b => .error (some (n, .error b)) := by
  rw [check, checkedSub, if_pos (le_add_left 1 n)]
  rfl

/-- `into_try`, with the counter. -/
def into_try : Except (Option (ℕ × Except B A)) (ℕ × A) → Option (ℕ × Except B A)
  | .ok (n, a) => some (n, .ok a)
  | .error r => r

/-- A fold that is checked is the fold of the first elements. -/
theorem tryFold_check (f : A → T → Except B A) (n : ℕ) (a : A) (l : List T) :
    into_try (tryFold (check f) (n + 1, a) l).1 =
        some (n + 1 - ((l.take (n + 1)).length - (tryFold f a (l.take (n + 1))).2.length),
          (tryFold f a (l.take (n + 1))).1) ∧
      (tryFold (check f) (n + 1, a) l).2 = (tryFold f a (l.take (n + 1))).2 ++ l.drop (n + 1) := by
  induction l generalizing n a with
  | nil => exact ⟨rfl, rfl⟩
  | cons x l ih =>
    rw [take_succ_cons, drop_succ_cons, tryFold, tryFold, check_succ]
    cases n with
    | zero =>
      cases f a x with
      | ok a => exact ⟨rfl, rfl⟩
      | error b => exact ⟨congrArg some (Prod.ext (by simp) rfl), rfl⟩
    | succ n =>
      rw [if_neg (succ_ne_zero n)]
      cases f a x with
      | error b =>
        refine ⟨congrArg some (Prod.ext ?_ rfl), (take_append_drop (n + 1) l).symm⟩
        dsimp only
        rw [length_cons]
        lia
      | ok a =>
        obtain ⟨hresult, hrest⟩ := ih n a
        refine ⟨hresult.trans (congrArg some (Prod.ext ?_ rfl)), hrest⟩
        have hle := tryFold_length_le f a (l.take (n + 1))
        dsimp only
        rw [length_cons]
        lia

/-! ## Elements by their places -/

/-- `__iterator_get_unchecked` gives each element when the places are visited in order. -/
def InOrder (R : σ → List T → Prop) (get_unchecked : σ → ℕ → Option (T × σ)) : Prop :=
  ∃ V : ℕ → σ → List T → Prop, (∀ s l, R s l → V 0 s l) ∧
    ∀ i s l, V i s l → ∀ h : i < l.length, Yields (V (i + 1)) (get_unchecked s i) l[i] l

/-- `for i in places { acc = f(acc, self.iter.__iterator_get_unchecked(i)) }` -/
def fold_places (get_unchecked : σ → ℕ → Option (T × σ)) (f : A → T → A) : List ℕ → A → σ → Option A
  | [], a, _ => some a
  | i :: places, a, s => do
    let (x, s) ← get_unchecked s i
    fold_places get_unchecked f places (f a x) s

theorem fold_places_spec {get_unchecked : σ → ℕ → Option (T × σ)} {V : ℕ → σ → List T → Prop}
    (h : ∀ i s l, V i s l → ∀ h : i < l.length, Yields (V (i + 1)) (get_unchecked s i) l[i] l)
    (f : A → T → A) (a : A) {s : σ} {i n : ℕ} (hs : V i s l) (hn : i + n ≤ l.length) :
    fold_places get_unchecked f (range' i n) a s = some (((l.drop i).take n).foldl f a) := by
  induction n generalizing i a s with
  | zero => rw [take_zero]; rfl
  | succ n ih =>
    have hi : i < l.length := by lia
    obtain ⟨s', hget, hs'⟩ := h i s l hs hi
    rw [range'_succ, fold_places, hget, drop_eq_getElem_cons hi, take_succ_cons, foldl_cons]
    exact ih _ hs' (by lia)

/-! ## The adapter -/

structure Take (σ : Type) where
  iter : σ
  n : ℕ

namespace Take

section Front

variable (usizeMax : ℕ) (w : Sweep σ T) (hint : σ → ℕ × Option ℕ)
  (get_unchecked : Option (σ → ℕ → Option (T × σ)))

def next (self : Take σ) : Option (Option T × Take σ) :=
  if self.n ≠ 0 then do
    let n ← checkedSub self.n 1
    let (x, iter) ← w.next self.iter
    return (x, ⟨iter, n⟩)
  else some (none, self)

def nth (self : Take σ) (n : ℕ) : Option (Option T × Take σ) :=
  if self.n > n then do
    let left ← checkedSub self.n (← checked_add usizeMax n 1)
    let (x, iter) ← w.nth self.iter n
    return (x, ⟨iter, left⟩)
  else if self.n > 0 then do
    let (_, iter) ← w.nth self.iter (← checkedSub self.n 1)
    return (none, ⟨iter, 0⟩)
  else some (none, self)

def size_hint (self : Take σ) : ℕ × Option ℕ :=
  if self.n = 0 then (0, some 0)
  else
    let (lower, upper) := hint self.iter
    let lower := min lower self.n
    let upper :=
      match upper with
      | some x => if x < self.n then some x else some self.n
      | none => some self.n
    (lower, upper)

def try_fold (f : A → T → Except B A) (a : A) (self : Take σ) : Option (Except B A × Take σ) :=
  if self.n = 0 then some (.ok a, self)
  else do
    let (r, iter) ← w.try_fold (check f) (self.n, a) self.iter
    let (n, r) ← into_try r
    return (r, ⟨iter, n⟩)

/-- `spec_fold`: over a `TrustedRandomAccess` iterator the elements are taken by their places. -/
def fold (f : A → T → A) (a : A) (self : Take σ) : Option A :=
  match get_unchecked with
  | none => Provided.fold_via_try_fold (try_fold w) f a self
  | some get_unchecked =>
    fold_places get_unchecked f (range' 0 (min self.n (hint self.iter).1)) a self.iter

def advance_by (self : Take σ) (n : ℕ) : Option (ℕ × Take σ) := do
  let least := min self.n n
  let (rem, iter) ← w.advance_by self.iter least
  let advanced ← checkedSub least rem
  let left ← checkedSub self.n advanced
  return (← checkedSub n advanced, ⟨iter, left⟩)

end Front

section Back

variable (usizeMax : ℕ) (w : Sweep σ T) (hint : σ → ℕ × Option ℕ)

def next_back (self : Take σ) : Option (Option T × Take σ) :=
  if self.n = 0 then some (none, self)
  else do
    let left ← checkedSub self.n 1
    let len ← Provided.len hint self.iter
    let (x, iter) ← w.nth self.iter (len - self.n)
    return (x, ⟨iter, left⟩)

def nth_back (self : Take σ) (n : ℕ) : Option (Option T × Take σ) := do
  let len ← Provided.len hint self.iter
  if self.n > n then
    let m ← checked_add usizeMax (len - self.n) n
    let left ← checkedSub self.n (← checked_add usizeMax n 1)
    let (x, iter) ← w.nth self.iter m
    return (x, ⟨iter, left⟩)
  else if len > 0 then
    let (_, iter) ← w.nth self.iter (← checkedSub len 1)
    return (none, { self with iter })
  else return (none, self)

/-- The end of the inner iterator that is not taken is dropped; whether that found the iterator
empty. -/
def drop_back (self : Take σ) : Option (Bool × σ) := do
  let len ← Provided.len hint self.iter
  if len > self.n then
    let (x, iter) ← w.nth self.iter (← checkedSub (← checkedSub len self.n) 1)
    return (x.isNone, iter)
  else return (false, self.iter)

def try_rfold (f : A → T → Except B A) (a : A) (self : Take σ) : Option (Except B A × Take σ) :=
  if self.n = 0 then some (.ok a, self)
  else do
    let (exhausted, iter) ← self.drop_back w hint
    if exhausted then return (.ok a, { self with iter })
    else
      let (r, iter) ← w.try_fold f a iter
      return (r, { self with iter })

def rfold (f : A → T → A) (a : A) (self : Take σ) : Option A :=
  if self.n = 0 then some a
  else do
    let (exhausted, iter) ← self.drop_back w hint
    if exhausted then return a else w.fold f a iter

def advance_back_by (self : Take σ) (n : ℕ) : Option (ℕ × Take σ) := do
  let trim_inner := (← Provided.len hint self.iter) - self.n
  let advance_by := saturating_add usizeMax trim_inner n
  let (remainder, iter) ← w.advance_by self.iter advance_by
  let advanced_by_inner ← checkedSub advance_by remainder
  let advanced_by ← checkedSub advanced_by_inner trim_inner
  let left ← checkedSub self.n advanced_by
  return (← checkedSub n advanced_by, ⟨iter, left⟩)

end Back

def iterator (usizeMax : ℕ) (it : DoubleEndedIterator σ T)
    (get_unchecked : Option (σ → ℕ → Option (T × σ))) : DoubleEndedIterator (Take σ) T where
  front :=
    { next := next it.front
      nth := nth usizeMax it.front
      advance_by := advance_by it.front
      try_fold := try_fold it.front
      fold := fold it.front it.size_hint get_unchecked }
  size_hint := size_hint it.size_hint
  count := Provided.count usizeMax (fold it.front it.size_hint get_unchecked)
  last := Provided.last (fold it.front it.size_hint get_unchecked)
  back :=
    { next := next_back it.back it.size_hint
      nth := nth_back usizeMax it.back it.size_hint
      advance_by := advance_back_by usizeMax it.back it.size_hint
      try_fold := try_rfold it.back it.size_hint
      fold := rfold it.back it.size_hint }

/-- The list of the first `n` elements. -/
structure Over (R : σ → List T → Prop) (usizeMax : ℕ) (s : Take σ) (l m : List T) : Prop where
  iter : R s.iter l
  eq : m = l.take s.n
  le : s.n ≤ usizeMax

def Stands (R : σ → List T → Prop) (usizeMax : ℕ) (s : Take σ) (m : List T) : Prop :=
  ∃ l, Over R usizeMax s l m

theorem checked_add_eq {a b : ℕ} (h : a + b ≤ usizeMax) :
    checked_add usizeMax a b = some (a + b) := if_pos h

section Front

variable {w : Sweep σ T}

theorem next_spec (h : IsNext R w.next) : IsNext (Stands R usizeMax) (next w) := by
  rintro ⟨iter, n⟩ _ ⟨l, hiter, rfl, hle⟩
  rw [next]
  cases n with
  | zero => exact ⟨⟨iter, 0⟩, rfl, l, hiter, rfl, hle⟩
  | succ n =>
    obtain ⟨iter', hnext, hiter'⟩ := h hiter
    refine ⟨⟨iter', n⟩, ?_, l.tail, hiter', ?_, le_of_succ_le hle⟩
    · rw [if_pos (succ_ne_zero n), checkedSub_eq (le_add_left 1 n), hnext]
      cases l <;> rfl
    · dsimp only
      rw [← drop_one, drop_take, drop_one, Nat.add_sub_cancel]

theorem nth_spec (h : IsNth usizeMax R w.nth) :
    IsNth usizeMax (Stands R usizeMax) (nth usizeMax w) := by
  rintro ⟨iter, n⟩ _ k ⟨l, hiter, rfl, hle⟩ hk
  dsimp only at hle ⊢
  rw [nth]
  by_cases hlt : k < n
  · obtain ⟨iter', hnth, hiter'⟩ := h k hiter hk
    refine ⟨⟨iter', n - (k + 1)⟩, ?_, l.drop (k + 1), hiter', drop_take, ?_⟩
    · rw [if_pos hlt, checked_add_eq (by lia), hnth, getElem?_take_of_lt hlt]
      simp only [some_bind]
      rw [checkedSub_eq (by lia)]
      rfl
    · exact (sub_le _ _).trans hle
  · have hnone : (l.take n)[k]? = none :=
      getElem?_eq_none ((length_take_le n l).trans (Nat.le_of_not_lt hlt))
    have hnil : (l.take n).drop (k + 1) = [] :=
      drop_eq_nil_of_le ((length_take_le n l).trans (by lia))
    rw [if_neg hlt, hnone, hnil]
    cases n with
    | zero => exact ⟨⟨iter, 0⟩, rfl, l, hiter, rfl, hle⟩
    | succ n =>
      obtain ⟨iter', hnth, hiter'⟩ := h n hiter (le_of_succ_le hle)
      refine ⟨⟨iter', 0⟩, ?_, _, hiter', rfl, Nat.zero_le _⟩
      rw [if_pos (succ_pos n), checkedSub_eq (Nat.le_add_left 1 n)]
      simp only [some_bind, Nat.add_sub_cancel, hnth]
      rfl

theorem advance_by_spec (h : IsAdvanceBy usizeMax R w.advance_by) :
    IsAdvanceBy usizeMax (Stands R usizeMax) (advance_by w) := by
  rintro ⟨iter, n⟩ _ k ⟨l, hiter, rfl, hle⟩ hk
  obtain ⟨iter', hadvance, hiter'⟩ := h (min n k) hiter (by lia)
  rw [length_take]
  refine ⟨⟨iter', n - (min n k - (min n k - l.length))⟩, ?_, l.drop (min n k), hiter', ?_,
    (sub_le _ _).trans hle⟩
  · rw [advance_by]
    rw [hadvance]
    simp only [some_bind]
    rw [checkedSub_eq (sub_le _ _)]
    simp only [some_bind]
    rw [checkedSub_eq (by lia), checkedSub_eq (by lia),
      show k - min n l.length = k - (min n k - (min n k - l.length)) by lia]
    rfl
  · rw [drop_take]
    obtain hlt | hge := lt_or_ge k n
    · rw [min_eq_right (le_of_lt hlt)]
      obtain hk | hk := lt_or_ge l.length k
      · rw [drop_eq_nil_of_le (le_of_lt hk), take_nil, take_nil]
      · rw [Nat.sub_eq_zero_of_le hk, Nat.sub_zero]
    · rw [Nat.min_eq_left hge, Nat.sub_eq_zero_of_le hge, take_zero]
      obtain hn | hn := lt_or_ge l.length n
      · rw [drop_eq_nil_of_le (le_of_lt hn), take_nil]
      · rw [Nat.sub_eq_zero_of_le hn, Nat.sub_zero, Nat.sub_self, take_zero]

/-- What is left of the first elements is what the counter left. -/
theorem take_left (n : ℕ) (l rest : List T) (hrest : rest.length ≤ (l.take n).length) :
    rest = (rest ++ l.drop n).take (n - ((l.take n).length - rest.length)) := by
  rw [length_take] at hrest ⊢
  obtain hlt | hle := lt_or_ge l.length n
  · rw [drop_eq_nil_of_le (le_of_lt hlt), append_nil, take_of_length_le (by lia)]
  · rw [take_append_of_le_length (by lia), take_of_length_le (by lia)]

theorem try_fold_spec (h : IsTryFold (A := ℕ × A) (B := Option (ℕ × Except B A)) R w.try_fold) :
    IsTryFold (A := A) (B := B) (Stands R usizeMax) (try_fold w) := by
  rintro f a ⟨iter, n⟩ _ ⟨l, hiter, rfl, hle⟩
  rw [try_fold]
  cases n with
  | zero => exact ⟨⟨iter, 0⟩, rfl, l, hiter, rfl, hle⟩
  | succ n =>
    obtain ⟨iter', hfold, hiter'⟩ := h (check f) (n + 1, a) hiter
    obtain ⟨hresult, hrest⟩ := tryFold_check f n a l
    rw [hrest] at hiter'
    rw [if_neg (succ_ne_zero n), hfold]
    simp only [some_bind, hresult]
    exact ⟨_, rfl, _, hiter', take_left _ _ _ (tryFold_length_le f a _), (sub_le _ _).trans hle⟩

theorem size_hint_spec {hint : σ → ℕ × Option ℕ}
    (h : ∀ ⦃s l⦄, R s l → ValidHint usizeMax (hint s) l.length) {s : Take σ} {m : List T}
    (hs : Stands R usizeMax s m) : ValidHint usizeMax (size_hint hint s) m.length := by
  obtain ⟨l, hiter, rfl, hle⟩ := hs
  have hhint := h hiter
  rw [size_hint, length_take]
  split
  · next hn =>
    rw [hn, Nat.zero_min]
    exact exactHint_valid rfl (Nat.zero_le _)
  have hlower := hhint.lower
  refine ⟨by dsimp only; lia, (Nat.min_le_right _ _).trans hle, fun hi hhi => ?_,
    fun hi hhi => ?_⟩
  · dsimp only at hhi
    split at hhi
    · next x hx =>
      have := hhint.upper x hx
      split at hhi <;> cases hhi <;> lia
    · cases hhi
      lia
  · dsimp only at hhi
    split at hhi
    · next x hx =>
      split at hhi <;> cases hhi <;> lia
    · cases hhi
      lia

theorem fold_spec {hint : σ → ℕ × Option ℕ} {get_unchecked : Option (σ → ℕ → Option (T × σ))}
    (h : ∀ {A B : Type}, IsTryFold (A := A) (B := B) R w.try_fold)
    (hget : ∀ get, get_unchecked = some get → InOrder R get ∧ ExactSize R hint) :
    IsFold (A := A) (Stands R usizeMax) (fold w hint get_unchecked) := by
  intro f a s m hs
  cases get_unchecked with
  | none => exact fold_via_try_fold_spec (try_fold_spec h) f a hs
  | some get =>
    obtain ⟨⟨V, hzero, hstep⟩, hexact⟩ := hget get rfl
    obtain ⟨l, hiter, rfl, -⟩ := hs
    rw [fold, hexact hiter, fold_places_spec hstep f a (hzero _ _ hiter) (by lia), drop_zero,
      ← take_take, take_length]

end Front

section Back

variable {w : Sweep σ T} {hint : σ → ℕ × Option ℕ} {s : Take σ}

theorem Over.length (hs : Over R usizeMax s l m) : m.length = min s.n l.length := by
  rw [hs.eq, length_take]

/-- The element `k` from the back, when the counter allows it. -/
theorem nth_inner_spec (h : IsNth usizeMax (Reversed R) w.nth) (hs : Over R usizeMax s l m)
    (hlen : l.length ≤ usizeMax) {k : ℕ} (hk : k < s.n) :
    ∃ iter, w.nth s.iter (l.length - s.n + k) = some (m.reverse[k]?, iter) ∧
      Stands R usizeMax ⟨iter, s.n - (k + 1)⟩ (m.take (m.length - (k + 1))) := by
  have hle := hs.le
  obtain ⟨iter, hnth, hiter⟩ := h.back hs.iter (show l.length - s.n + k ≤ usizeMax by lia)
  refine ⟨iter, ?_, _, hiter, ?_, (sub_le _ _).trans hle⟩
  · rw [hnth, hs.eq, reverse_take, getElem?_drop]
  · rw [hs.length, hs.eq, take_take, take_take]
    congr 1
    dsimp only
    lia

theorem next_back_spec (h : IsNth usizeMax (Reversed R) w.nth) (hexact : ExactSize R hint)
    (hlen : ∀ ⦃s l⦄, R s l → l.length ≤ usizeMax) :
    IsNext (Reversed (Stands R usizeMax)) (next_back w hint) := by
  apply isNext_reversed
  rintro ⟨iter, n⟩ m ⟨l, hs⟩
  rw [next_back]
  cases n with
  | zero =>
    obtain rfl : m = [] := hs.eq
    exact ⟨⟨iter, 0⟩, rfl, l, hs⟩
  | succ n =>
    obtain ⟨iter', hnth, hs'⟩ := nth_inner_spec h hs (hlen hs.iter) (succ_pos n)
    refine ⟨⟨iter', n⟩, ?_, ?_⟩
    · rw [if_neg (succ_ne_zero n), checkedSub_eq (le_add_left 1 n), len_spec hexact hs.iter]
      simp only [some_bind, add_zero] at hnth ⊢
      rw [hnth, ← head?_eq_getElem?, head?_reverse]
      rfl
    · rwa [← dropLast_eq_take] at hs'

theorem nth_back_spec (h : IsNth usizeMax (Reversed R) w.nth) (hexact : ExactSize R hint)
    (hlen : ∀ ⦃s l⦄, R s l → l.length ≤ usizeMax) :
    IsNth usizeMax (Reversed (Stands R usizeMax)) (nth_back usizeMax w hint) := by
  apply isNth_reversed
  rintro ⟨iter, n⟩ m k ⟨l, hs⟩ hk
  have hmax := hlen hs.iter
  have hle := hs.le
  have hlength := hs.length
  dsimp only at hle hlength
  rw [nth_back, len_spec hexact hs.iter]
  simp only [some_bind]
  by_cases hlt : k < n
  · obtain ⟨iter', hnth, hs'⟩ := nth_inner_spec h hs hmax hlt
    refine ⟨⟨iter', n - (k + 1)⟩, ?_, hs'⟩
    rw [if_pos hlt, checked_add_eq (by lia), checked_add_eq (by lia)]
    simp only [some_bind]
    rw [checkedSub_eq (by lia)]
    simp only [some_bind, hnth]
    rfl
  have hnone : m.reverse[k]? = none :=
    getElem?_eq_none (by rw [length_reverse]; lia)
  have hnil : m.take (m.length - (k + 1)) = [] := by
    rw [show m.length - (k + 1) = 0 by lia, take_zero]
  rw [if_neg hlt, hnone, hnil]
  by_cases hpos : l.length > 0
  · obtain ⟨iter', hnth, hiter'⟩ := h.back hs.iter (show l.length - 1 ≤ usizeMax by lia)
    refine ⟨⟨iter', n⟩, ?_, _, hiter', ?_, hle⟩
    · rw [if_pos hpos, checkedSub_eq hpos]
      simp only [some_bind, hnth]
      rfl
    · rw [show l.length - (l.length - 1 + 1) = 0 by lia, take_zero, take_nil]
  · obtain rfl : l = [] := eq_nil_of_length_eq_zero (by lia)
    refine ⟨⟨iter, n⟩, if_neg hpos, [], hs.iter, ?_, hle⟩
    rw [take_nil]

theorem drop_back_spec (h : IsNth usizeMax (Reversed R) w.nth) (hexact : ExactSize R hint)
    (hlen : ∀ ⦃s l⦄, R s l → l.length ≤ usizeMax) (hs : Over R usizeMax s l m) :
    Yields R (drop_back w hint s) false m := by
  have hmax := hlen hs.iter
  rw [drop_back, len_spec hexact hs.iter]
  simp only [some_bind]
  by_cases hlt : l.length > s.n
  · obtain ⟨iter, hnth, hiter⟩ := h.back hs.iter (show l.length - s.n - 1 ≤ usizeMax by lia)
    have hsome : l.reverse[l.length - s.n - 1]?.isNone = false := by
      rw [getElem?_eq_getElem (by rw [length_reverse]; lia)]
      rfl
    rw [show l.length - (l.length - s.n - 1 + 1) = s.n by lia, ← hs.eq] at hiter
    refine ⟨iter, ?_, hiter⟩
    rw [if_pos hlt, checkedSub_eq (le_of_lt hlt)]
    simp only [some_bind]
    rw [checkedSub_eq (by lia)]
    simp only [some_bind, hnth, hsome]
    rfl
  · refine ⟨s.iter, if_neg hlt, ?_⟩
    rw [hs.eq, take_of_length_le (Nat.le_of_not_lt hlt)]
    exact hs.iter

theorem try_rfold_spec (hnth : IsNth usizeMax (Reversed R) w.nth)
    (hfold : IsTryFold (A := A) (B := B) (Reversed R) w.try_fold) (hexact : ExactSize R hint)
    (hlen : ∀ ⦃s l⦄, R s l → l.length ≤ usizeMax) :
    IsTryFold (A := A) (B := B) (Reversed (Stands R usizeMax)) (try_rfold w hint) := by
  apply isTryFold_reversed
  rintro f a ⟨iter, n⟩ m ⟨l, hs⟩
  rw [try_rfold]
  by_cases hn : n = 0
  · obtain rfl : m = [] := by
      rw [hs.eq, hn, take_zero]
    exact ⟨⟨iter, n⟩, if_pos hn, l, hs⟩
  obtain ⟨iter1, hdrop, hiter1⟩ := drop_back_spec hnth hexact hlen hs
  obtain ⟨iter2, htry, hiter2⟩ := hfold.back f a hiter1
  refine ⟨⟨iter2, n⟩, ?_, _, hiter2, ?_, hs.le⟩
  · rw [if_neg hn, hdrop]
    simp only [some_bind, Bool.false_eq_true, if_false, htry]
    rfl
  · have hrest := tryFold_length_le f a m.reverse
    have hlength := hs.length
    dsimp only at hlength ⊢
    rw [length_reverse] at hrest
    rw [take_of_length_le (by rw [length_reverse]; lia)]

theorem rfold_spec (hnth : IsNth usizeMax (Reversed R) w.nth)
    (hfold : IsFold (A := A) (Reversed R) w.fold) (hexact : ExactSize R hint)
    (hlen : ∀ ⦃s l⦄, R s l → l.length ≤ usizeMax) :
    IsFold (A := A) (Reversed (Stands R usizeMax)) (rfold w hint) := by
  apply isFold_reversed
  rintro f a ⟨iter, n⟩ m ⟨l, hs⟩
  rw [rfold]
  by_cases hn : n = 0
  · obtain rfl : m = [] := by
      rw [hs.eq, hn, take_zero]
    exact if_pos hn
  · obtain ⟨iter1, hdrop, hiter1⟩ := drop_back_spec hnth hexact hlen hs
    rw [if_neg hn, hdrop]
    simp only [some_bind, Bool.false_eq_true, if_false]
    exact hfold.back f a hiter1

/-- How many elements are passed, when the number asked for is cut off at `u`. -/
theorem passed_eq {l x u : ℕ} (hl : l ≤ u) : min x u - (min x u - l) = min x l := by
  rw [Nat.sub_sub_eq_min, min_assoc, min_eq_right hl]

/-- How many of the elements that are kept are among them. -/
theorem skipped_back (l n k : ℕ) : min (l - n + k) l - (l - n) = min k (min n l) := by
  rw [← Nat.sub_min_sub_right, Nat.add_sub_cancel_left, Nat.sub_sub_eq_min, min_comm l n]

/-- How many elements are kept after them. -/
theorem kept_back (n k : ℕ) {l u : ℕ} (hl : l ≤ u) :
    min (n - min k (min n l)) (l - min (l - n + k) u) = min (min n l - k) n := by
  rcases le_total n l with hn | hn
  · rw [min_eq_left hn]
    rcases le_total k n with hk | hk
    · rw [min_eq_left hk, min_eq_left (show l - n + k ≤ u by lia),
        show l - (l - n + k) = n - k by lia, min_self, min_eq_left (sub_le n k)]
    · rw [min_eq_right hk, Nat.sub_self, Nat.zero_min, Nat.sub_eq_zero_of_le hk, Nat.zero_min]
  · rw [min_eq_right hn, Nat.sub_eq_zero_of_le hn, Nat.zero_add]
    rcases le_total k l with hk | hk
    · rw [min_eq_left hk, min_eq_left (hk.trans hl)]
      lia
    · rw [Nat.sub_eq_zero_of_le hk, Nat.zero_min, Nat.sub_eq_zero_of_le (le_min hk hl),
        Nat.min_zero]

theorem advance_back_by_spec (h : IsAdvanceBy usizeMax (Reversed R) w.advance_by)
    (hexact : ExactSize R hint) (hlen : ∀ ⦃s l⦄, R s l → l.length ≤ usizeMax) :
    IsAdvanceBy usizeMax (Reversed (Stands R usizeMax)) (advance_back_by usizeMax w hint) := by
  apply isAdvanceBy_reversed
  rintro ⟨iter, n⟩ m k ⟨l, hs⟩ hk
  have hmax := hlen hs.iter
  have hle := hs.le
  have hlength := hs.length
  rw [advance_back_by, len_spec hexact hs.iter]
  simp only [some_bind]
  have hadd : saturating_add usizeMax (l.length - n) k = min (l.length - n + k) usizeMax := rfl
  obtain ⟨iter', hadvance, hiter'⟩ :=
    h.back hs.iter (show saturating_add usizeMax (l.length - n) k ≤ usizeMax by lia)
  refine ⟨⟨iter', n - min k (min n l.length)⟩, ?_, _, hiter', ?_, (sub_le _ _).trans hle⟩
  · rw [hadvance]
    simp only [some_bind]
    rw [checkedSub_eq (sub_le _ _)]
    simp only [some_bind]
    rw [hadd, passed_eq hmax, checkedSub_eq (le_min (le_add_right _ _) (sub_le _ _))]
    simp only [some_bind]
    rw [skipped_back, checkedSub_eq (min_le_left _ _),
      checkedSub_eq ((min_le_right _ _).trans (min_le_left _ _)), ← hlength,
      show k - min k m.length = k - m.length by lia]
    rfl
  · rw [hs.length, hs.eq, take_take, take_take, hadd]
    rw [kept_back n k hmax]

end Back

/-- **`Take`** over a lawful iterator is lawful. -/
theorem iterator_lawful {it : DoubleEndedIterator σ T}
    {get_unchecked : Option (σ → ℕ → Option (T × σ))} (h : it.toIterator.Lawful usizeMax R)
    (hget : ∀ get, get_unchecked = some get → InOrder R get ∧ ExactSize R it.size_hint) :
    (iterator usizeMax it get_unchecked).toIterator.Lawful usizeMax (Stands R usizeMax) where
  front :=
    { next := next_spec h.front.next
      nth := nth_spec h.front.nth
      advance_by := advance_by_spec h.front.advance_by
      try_fold := try_fold_spec h.front.try_fold
      fold := fold_spec h.front.try_fold hget }
  size_hint _ _ hs := size_hint_spec h.size_hint hs
  count _ _ hs hlen := count_spec (fold_spec h.front.try_fold hget) hs hlen
  last _ _ hs := last_spec (fold_spec h.front.try_fold hget) hs

/-- Over an exact-size iterator, also from the back. -/
theorem lawful {it : DoubleEndedIterator σ T} {get_unchecked : Option (σ → ℕ → Option (T × σ))}
    (h : it.Lawful usizeMax R) (hexact : ExactSize R it.size_hint)
    (hget : ∀ get, get_unchecked = some get → InOrder R get) :
    (iterator usizeMax it get_unchecked).Lawful usizeMax (Stands R usizeMax) where
  toLawful := iterator_lawful h.toLawful fun get hsome => ⟨hget get hsome, hexact⟩
  back :=
    have hlen := hexact.length_le h.size_hint
    { next := next_back_spec h.back.nth hexact hlen
      nth := nth_back_spec h.back.nth hexact hlen
      advance_by := advance_back_by_spec h.back.advance_by hexact hlen
      try_fold := try_rfold_spec h.back.nth h.back.try_fold hexact hlen
      fold := rfold_spec h.back.nth h.back.fold hexact hlen }

end Take

end RustStd.Iter
