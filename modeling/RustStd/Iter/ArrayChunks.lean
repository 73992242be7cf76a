import RustStd.Foundations.Chunked
import RustStd.Iter.Take

/-!
# An iterator in chunks

`ArrayChunks`, after `core/src/iter/adapters/array_chunks.rs`. A chunk is the list of the elements
of the array. The elements that make no whole chunk are kept as the remainder, by the method that
comes upon them: from the front that is the one that finds the end, from the back the first. A loop
that asks for chunks until there are none runs for at most `turns` turns.
-/

namespace RustStd.Iter

open List Nat

open FlattenCompat (checked_add)
open Take (checked_add_eq)

variable {σ T A B : Type} {R : σ → List T → Prop} {usizeMax turns N : ℕ} {l : List T}

/-- `Iterator::next_chunk`, with the elements that it has so far. -/
def next_chunk (next : σ → Option (Option T × σ)) :
    ℕ → List T → σ → Option (Except (List T) (List T) × σ)
  | 0, array, s => some (.ok array, s)
  | n + 1, array, s => do
    let (item, s) ← next s
    match item with
    | none => return (.error array, s)
    | some item => next_chunk next n (array ++ [item]) s

structure ArrayChunks (σ T : Type) where
  iter : σ
  remainder : Option (List T)

namespace ArrayChunks

def new (iter : σ) : ArrayChunks σ T := ⟨iter, none⟩

section Front

variable (N usizeMax : ℕ) (it : Iterator σ T) (get_unchecked : Option (σ → ℕ → Option (T × σ)))

def try_fold : ℕ → (A → List T → Except B A) → A → ArrayChunks σ T →
    Option (Except B A × ArrayChunks σ T)
  | 0, _, _, _ => none
  | turns + 1, f, acc, self => do
    let (r, iter) ← next_chunk it.front.next N [] self.iter
    match r with
    | .ok chunk =>
      match f acc chunk with
      | .ok acc => try_fold turns f acc { self with iter }
      | .error b => return (.error b, { self with iter })
    | .error remainder => return (.ok acc, ⟨iter, some (self.remainder.getD remainder)⟩)

def next (turns : ℕ) (self : ArrayChunks σ T) : Option (Option (List T) × ArrayChunks σ T) := do
  let (r, self) ← self.try_fold N it turns (fun (_ : Unit) chunk => .error chunk) ()
  match r with
  | .error chunk => return (some chunk, self)
  | .ok () => return (none, self)

def size_hint (self : ArrayChunks σ T) : ℕ × Option ℕ :=
  let (lower, upper) := it.size_hint self.iter
  (lower / N, upper.map fun n => n / N)

def count (self : ArrayChunks σ T) : Option ℕ := do return (← it.count self.iter) / N

/-- `array::from_fn(|local| self.iter.__iterator_get_unchecked(i + local))` -/
def get_chunk (get_unchecked : σ → ℕ → Option (T × σ)) : List ℕ → σ → Option (List T × σ)
  | [], s => some ([], s)
  | idx :: places, s => do
    let (x, s) ← get_unchecked s idx
    let (chunk, s) ← get_chunk get_unchecked places s
    return (x :: chunk, s)

/-- The loop of `fold` over a `TrustedRandomAccess` iterator. -/
def fold_places (get_unchecked : σ → ℕ → Option (T × σ)) (inner_len : ℕ) :
    ℕ → (A → List T → A) → A → ℕ → σ → Option A
  | 0, _, _, _, _ => none
  | turns + 1, f, accum, i, s => do
    if (← checkedSub inner_len i) ≥ N then
      let (chunk, s) ← get_chunk get_unchecked (range' i N) s
      fold_places get_unchecked inner_len turns f (f accum chunk) (← checked_add usizeMax i N) s
    else return accum

def fold (turns : ℕ) (f : A → List T → A) (acc : A) (self : ArrayChunks σ T) : Option A :=
  match get_unchecked with
  | none => Provided.fold_via_try_fold (try_fold N it turns) f acc self
  | some get_unchecked =>
    fold_places N usizeMax get_unchecked (it.size_hint self.iter).1 turns f acc 0 self.iter

/-- `while let Some(_) = self.next() {}` -/
def exhaust (turns : ℕ) : ℕ → ArrayChunks σ T → Option (ArrayChunks σ T)
  | 0, _ => none
  | more + 1, self => do
    let (x, self) ← self.next N it turns
    if x.isSome then exhaust turns more self else return self

def into_remainder (turns : ℕ) (self : ArrayChunks σ T) : Option (List T) := do
  let self ← if self.remainder.isNone then self.exhaust N it turns turns else some self
  return self.remainder.getD []

end Front

section Back

variable (N : ℕ) (it : DoubleEndedIterator σ T)

/-- `next_back_remainder`; the chunk of so few elements cannot be whole. -/
def next_back_remainder (self : ArrayChunks σ T) : Option (ArrayChunks σ T) :=
  if self.remainder.isSome then some self
  else do
    let rem := (← Provided.len it.size_hint self.iter) % N
    let (r, taken) ← next_chunk (Take.next it.back) N [] ⟨self.iter, rem⟩
    match r with
    | .error remainder => return ⟨taken.iter, some remainder.reverse⟩
    | .ok _ => none

/-- The loop of `try_rfold`. -/
def try_rfold_loop : ℕ → (A → List T → Except B A) → A → ArrayChunks σ T →
    Option (Except B A × ArrayChunks σ T)
  | 0, _, _, _ => none
  | turns + 1, f, acc, self => do
    let (r, iter) ← next_chunk it.back.next N [] self.iter
    match r with
    | .ok chunk =>
      match f acc chunk.reverse with
      | .ok acc => try_rfold_loop turns f acc { self with iter }
      | .error b => return (.error b, { self with iter })
    | .error _ => return (.ok acc, { self with iter })

def try_rfold (turns : ℕ) (f : A → List T → Except B A) (acc : A) (self : ArrayChunks σ T) :
    Option (Except B A × ArrayChunks σ T) := do
  let self ← self.next_back_remainder N it
  self.try_rfold_loop N it turns f acc

def next_back (turns : ℕ) (self : ArrayChunks σ T) :
    Option (Option (List T) × ArrayChunks σ T) := do
  let (r, self) ← self.try_rfold N it turns (fun (_ : Unit) chunk => .error chunk) ()
  match r with
  | .error chunk => return (some chunk, self)
  | .ok () => return (none, self)

end Back

def iterator (usizeMax turns N : ℕ) (it : DoubleEndedIterator σ T)
    (get_unchecked : Option (σ → ℕ → Option (T × σ))) :
    DoubleEndedIterator (ArrayChunks σ T) (List T) where
  front :=
    { next := next N it.toIterator turns
      nth := Provided.nth (Provided.advance_by (try_fold N it.toIterator turns))
        (next N it.toIterator turns)
      advance_by := Provided.advance_by (try_fold N it.toIterator turns)
      try_fold := try_fold N it.toIterator turns
      fold := fold N usizeMax it.toIterator get_unchecked turns }
  size_hint := size_hint N it.toIterator
  count := count N it.toIterator
  last := Provided.last (fold N usizeMax it.toIterator get_unchecked turns)
  back :=
    { next := next_back N it turns
      nth := Provided.nth (Provided.advance_back_by (next_back N it turns)) (next_back N it turns)
      advance_by := Provided.advance_back_by (next_back N it turns)
      try_fold := try_rfold N it turns
      fold := Provided.fold_via_try_fold (try_rfold N it turns) }

end ArrayChunks

theorem next_chunk_spec {next : σ → Option (Option T × σ)} (h : IsNext R next) (n : ℕ)
    (array : List T) {s : σ} (hs : R s l) :
    Yields R (next_chunk next n array s)
      (if n ≤ l.length then .ok (array ++ l.take n) else .error (array ++ l)) (l.drop n) := by
  induction n generalizing array s l with
  | zero =>
    refine ⟨s, ?_, hs⟩
    rw [if_pos (Nat.zero_le _), take_zero, append_nil]
    rfl
  | succ n ih =>
    obtain ⟨s', hnext, hs'⟩ := h hs
    rw [next_chunk, hnext]
    cases l with
    | nil =>
      have hshort : ¬ n + 1 ≤ ([] : List T).length := not_succ_le_zero n
      refine ⟨s', ?_, hs'⟩
      rw [if_neg hshort, append_nil]
      rfl
    | cons x l =>
      have hrest := ih (array ++ [x]) hs'
      rw [append_assoc, singleton_append, append_assoc, singleton_append]
        at hrest
      rw [length_cons, take_succ_cons, drop_succ_cons]
      simp only [Nat.add_le_add_iff_right]
      exact hrest

namespace ArrayChunks

/-- Where the elements are that make no whole chunk: at the end of the list, or kept. -/
def Kept (N : ℕ) (tail : List T) : Option (List T) → List T → Prop
  | none, l => leftover N l = tail
  | some r, l => r = tail ∧ N ∣ l.length

structure Over (R : σ → List T → Prop) (turns N : ℕ) (tail : List T) (s : ArrayChunks σ T)
    (l : List T) : Prop where
  iter : R s.iter l
  turns : l.length < turns
  kept : Kept N tail s.remainder l

def Stands (R : σ → List T → Prop) (turns N : ℕ) (tail : List T) (s : ArrayChunks σ T)
    (m : List (List T)) : Prop :=
  ∃ l, Over R turns N tail s l ∧ m = chunked N l

variable {tail : List T} {s : ArrayChunks σ T} {opt : Option (List T)}

theorem Kept.drop (h : Kept N tail opt l) (hN : 0 < N) (hl : N ≤ l.length) :
    Kept N tail opt (l.drop N) := by
  cases opt with
  | none => exact (leftover_drop hN hl).trans h
  | some r =>
    refine ⟨h.1, ?_⟩
    rw [length_drop]
    exact dvd_sub h.2 (dvd_refl N)

/-- The front keeps what is left at the end. -/
theorem Kept.exhausted (h : Kept N tail opt l) (hl : l.length < N) : opt.getD l = tail := by
  cases opt with
  | none => exact (leftover_of_lt hl).symm.trans h
  | some r => exact h.1

theorem Over.drop (h : Over R turns N tail s l) (hN : 0 < N) (hl : N ≤ l.length) {iter : σ}
    (hiter : R iter (l.drop N)) : Over R turns N tail { s with iter } (l.drop N) where
  iter := hiter
  turns := lt_of_le_of_lt (by rw [length_drop]; exact sub_le _ _) h.turns
  kept := h.kept.drop hN hl

/-- Nothing is left, and the remainder is kept. -/
theorem over_nil {iter : σ} (hiter : R iter []) (hturns : 0 < turns) :
    Over R turns N tail ⟨iter, some tail⟩ [] := ⟨hiter, hturns, rfl, dvd_zero N⟩

section Front

variable {it : Iterator σ T}

variable (h : IsNext R it.front.next)
include h

theorem try_fold_exhausted (hs : Over R turns N tail s l)
    (hl : l.length < N) (k : ℕ) (f : A → List T → Except B A) (acc : A) :
    ∃ iter, try_fold N it (k + 1) f acc s = some (.ok acc, ⟨iter, some tail⟩) ∧ R iter [] := by
  obtain ⟨iter, hchunk, hiter⟩ := next_chunk_spec h N [] hs.iter
  rw [drop_eq_nil_of_le (Nat.le_of_lt hl)] at hiter
  refine ⟨iter, ?_, hiter⟩
  rw [try_fold, hchunk, if_neg (Nat.not_le_of_lt hl), ← hs.kept.exhausted hl]
  rfl

theorem try_fold_loop_spec (hN : 0 < N) (k : ℕ)
    (f : A → List T → Except B A) (acc : A) (hs : Over R turns N tail s l) (hk : l.length < k) :
    Yields (Stands R turns N tail) (try_fold N it k f acc s) (tryFold f acc (chunked N l)).1
      (tryFold f acc (chunked N l)).2 := by
  induction k generalizing acc s l with
  | zero => exact absurd hk (not_lt_zero _)
  | succ k ih =>
    obtain hlt | hge := lt_or_ge l.length N
    · obtain ⟨iter, hfold, hiter⟩ := try_fold_exhausted h hs hlt k f acc
      rw [chunked_of_lt hlt]
      exact ⟨⟨iter, some tail⟩, hfold, [], over_nil hiter (zero_lt_of_lt hs.turns),
        (chunked_of_lt hN).symm⟩
    · obtain ⟨iter, hchunk, hiter⟩ := next_chunk_spec h N [] hs.iter
      have hs' := hs.drop hN hge hiter
      rw [try_fold, hchunk, if_pos hge, nil_append, tryFold_chunked hN hge]
      simp only [some_bind]
      cases f acc (l.take N) with
      | error b => exact ⟨_, rfl, l.drop N, hs', rfl⟩
      | ok acc => exact ih acc hs' (by rw [length_drop]; omega)

theorem try_fold_spec (hN : 0 < N) :
    IsTryFold (A := A) (B := B) (Stands R turns N tail) (try_fold N it turns) := by
  rintro f acc s _ ⟨l, hs, rfl⟩
  exact try_fold_loop_spec h hN turns f acc hs hs.turns

theorem next_spec (hN : 0 < N) : IsNext (Stands R turns N tail) (next N it turns) := by
  intro s m hs
  obtain ⟨s', hfold, hs'⟩ := try_fold_spec h hN (fun (_ : Unit) chunk => .error chunk) () hs
  rw [next, hfold]
  cases m with
  | nil | cons => exact ⟨s', rfl, hs'⟩

omit h

theorem size_hint_spec (h : ∀ ⦃s l⦄, R s l → ValidHint usizeMax (it.size_hint s) l.length)
    {m : List (List T)} (hs : Stands R turns N tail s m) :
    ValidHint usizeMax (size_hint N it s) m.length := by
  obtain ⟨l, hs, rfl⟩ := hs
  have hhint := h hs.iter
  rw [chunked_length]
  refine ⟨Nat.div_le_div_right hhint.lower, (Nat.div_le_self _ _).trans hhint.lower_le,
    fun hi hhi => ?_, fun hi hhi => ?_⟩
  · obtain ⟨x, hx, rfl⟩ := Option.map_eq_some_iff.mp hhi
    exact Nat.div_le_div_right (hhint.upper x hx)
  · obtain ⟨x, hx, rfl⟩ := Option.map_eq_some_iff.mp hhi
    exact (Nat.div_le_self _ _).trans (hhint.upper_le x hx)

theorem count_spec (h : it.Lawful usizeMax R) (hs : Over R turns N tail s l)
    (hlen : l.length ≤ usizeMax) : count N it s = some (chunked N l).length := by
  rw [count, h.count hs.iter hlen, chunked_length]
  rfl

theorem get_chunk_spec {get : σ → ℕ → Option (T × σ)} {V : ℕ → σ → List T → Prop}
    (h : ∀ i s l, V i s l → ∀ h : i < l.length, Yields (V (i + 1)) (get s i) l[i] l) {s : σ}
    {i n : ℕ} (hs : V i s l) (hn : i + n ≤ l.length) :
    Yields (V (i + n)) (get_chunk get (range' i n) s) ((l.drop i).take n) l := by
  induction n generalizing i s with
  | zero => exact ⟨s, rfl, hs⟩
  | succ n ih =>
    have hi : i < l.length := by omega
    obtain ⟨s1, hget, hs1⟩ := h i s l hs hi
    obtain ⟨s2, hchunk, hs2⟩ := ih hs1 (by omega)
    refine ⟨s2, ?_, by rwa [show i + (n + 1) = i + 1 + n by omega]⟩
    rw [range'_succ, get_chunk, hget, drop_eq_getElem_cons hi, take_succ_cons]
    simp only [some_bind, hchunk]
    rfl

theorem fold_places_spec {get : σ → ℕ → Option (T × σ)} {V : ℕ → σ → List T → Prop}
    (h : ∀ i s l, V i s l → ∀ h : i < l.length, Yields (V (i + 1)) (get s i) l[i] l) (hN : 0 < N)
    (hlen : l.length ≤ usizeMax) (f : A → List T → A) (acc : A) {s : σ} {i k : ℕ} (hs : V i s l)
    (hi : i ≤ l.length) (hk : l.length - i < k) :
    fold_places N usizeMax get l.length k f acc i s =
      some ((chunked N (l.drop i)).foldl f acc) := by
  induction k generalizing acc i s with
  | zero => exact absurd hk (not_lt_zero _)
  | succ k ih =>
    rw [fold_places, checkedSub_eq hi]
    simp only [some_bind]
    by_cases hge : l.length - i ≥ N
    · obtain ⟨s', hchunk, hs'⟩ := get_chunk_spec h hs (show i + N ≤ l.length by omega)
      rw [if_pos hge, hchunk, checked_add_eq (by omega),
        chunked_cons hN (by rw [length_drop]; omega), drop_drop, foldl_cons]
      exact ih _ hs' (by omega) (by omega)
    · rw [if_neg hge, chunked_of_lt (by rw [length_drop]; omega)]
      rfl

theorem fold_spec {get_unchecked : Option (σ → ℕ → Option (T × σ))} (h : it.Lawful usizeMax R)
    (hN : 0 < N)
    (hget : ∀ get, get_unchecked = some get → InOrder R get ∧ ExactSize R it.size_hint) :
    IsFold (A := A) (Stands R turns N tail) (fold N usizeMax it get_unchecked turns) := by
  intro f acc s m hs
  cases get_unchecked with
  | none => exact fold_via_try_fold_spec (try_fold_spec h.front.next hN) f acc hs
  | some get =>
    obtain ⟨⟨V, hzero, hstep⟩, hexact⟩ := hget get rfl
    obtain ⟨l, hs, rfl⟩ := hs
    rw [fold, hexact hs.iter]
    exact fold_places_spec hstep hN (hexact.length_le h.size_hint hs.iter) f acc
      (hzero _ _ hs.iter) (zero_le _) hs.turns

theorem exhaust_spec (h : IsNext R it.front.next) (hN : 0 < N) {more : ℕ}
    (hs : Over R turns N tail s l) (hmore : l.length < more) :
    ∃ s', exhaust N it turns more s = some s' ∧ s'.remainder = some tail := by
  induction more generalizing s l with
  | zero => exact absurd hmore (not_lt_zero _)
  | succ more ih =>
    obtain ⟨k, rfl⟩ := exists_eq_succ_of_ne_zero (ne_of_gt (zero_lt_of_lt hs.turns))
    obtain hlt | hge := lt_or_ge l.length N
    · obtain ⟨iter, hfold, -⟩ :=
        try_fold_exhausted h hs hlt k (fun (_ : Unit) chunk => Except.error chunk) ()
      refine ⟨⟨iter, some tail⟩, ?_, rfl⟩
      rw [exhaust, next, hfold]
      rfl
    · obtain ⟨iter, hchunk, hiter⟩ := next_chunk_spec h N [] hs.iter
      obtain ⟨s', hexhaust, hs'⟩ :=
        ih (hs.drop hN hge hiter) (by rw [length_drop]; omega)
      refine ⟨s', ?_, hs'⟩
      rw [exhaust, next, try_fold, hchunk, if_pos hge]
      exact hexhaust

theorem into_remainder_spec (h : IsNext R it.front.next) (hN : 0 < N)
    (hs : Over R turns N tail s l) : into_remainder N it turns s = some tail := by
  rw [into_remainder]
  cases hr : s.remainder with
  | none =>
    obtain ⟨s', hexhaust, hs'⟩ := exhaust_spec h hN hs hs.turns
    simp [hexhaust, hs']
  | some r =>
    have hkept := hs.kept
    rw [hr] at hkept
    simp [hr, hkept.1]

end Front

section Back

variable {it : DoubleEndedIterator σ T}

/-- Some elements are taken, the others stay behind. -/
structure Taking (R : σ → List T → Prop) (behind : List T) (s : Take σ) (l : List T) : Prop where
  iter : R s.iter (l ++ behind)
  n : l.length = s.n

theorem taking_next {w : Sweep σ T} (h : IsNext R w.next) (behind : List T) :
    IsNext (Taking R behind) (Take.next w) := by
  rintro ⟨iter, n⟩ l hs
  cases l with
  | nil =>
    obtain rfl : 0 = n := hs.n
    exact ⟨⟨iter, 0⟩, rfl, hs⟩
  | cons x l =>
    obtain rfl : l.length + 1 = n := hs.n
    obtain ⟨iter', hnext, hiter'⟩ := h hs.iter
    refine ⟨⟨iter', l.length⟩, ?_, hiter', rfl⟩
    rw [Take.next]
    rw [if_pos (succ_ne_zero _), checkedSub_eq (le_add_left 1 _), hnext]
    rfl

variable (h : IsNext (Reversed R) it.back.next)
include h

theorem next_back_remainder_spec
    (hexact : ExactSize R it.size_hint) (hN : 0 < N) (hs : Over R turns N tail s l) :
    ∃ s', next_back_remainder N it s = some s' ∧ s'.remainder = some tail ∧
      Over R turns N tail s' (l.take (l.length / N * N)) := by
  have hwhole : N ∣ (l.take (l.length / N * N)).length := by
    rw [length_take, min_eq_left (div_mul_le_self _ _)]
    exact dvd_mul_left _ _
  have hturns : (l.take (l.length / N * N)).length < turns :=
    lt_of_le_of_lt (length_take_le' _ _) hs.turns
  have hkept := hs.kept
  rw [next_back_remainder]
  cases hr : s.remainder with
  | some r =>
    rw [hr] at hkept
    refine ⟨s, rfl, by rw [hr, hkept.1], ?_⟩
    rw [Nat.div_mul_cancel hkept.2, take_length]
    exact hs
  | none =>
    rw [hr] at hkept
    have hmod := mod_lt l.length hN
    have hdiv := div_add_mod' l.length N
    have htake : (l.reverse.take (l.length % N)).length = l.length % N := by
      rw [length_take, length_reverse]
      exact min_eq_left (mod_le _ _)
    have htaking : Taking (Reversed R) (l.reverse.drop (l.length % N)) ⟨s.iter, l.length % N⟩
        (l.reverse.take (l.length % N)) :=
      ⟨by rw [take_append_drop]; exact reversed_reverse hs.iter, htake⟩
    obtain ⟨⟨iter, n⟩, hchunk, hiter⟩ := next_chunk_spec (taking_next h _) N [] htaking
    rw [if_neg (by omega), nil_append] at hchunk
    have hleft : R iter (l.take (l.length / N * N)) := by
      have := hiter.iter
      rwa [drop_eq_nil_of_le (by omega), nil_append, Reversed, reverse_drop,
        reverse_reverse, length_reverse,
        show l.length - l.length % N = l.length / N * N by omega] at this
    have htail : (l.reverse.take (l.length % N)).reverse = tail := by
      rw [reverse_take, reverse_reverse, length_reverse,
        show l.length - l.length % N = l.length / N * N by omega]
      exact hkept
    refine ⟨⟨iter, some tail⟩, ?_, rfl, hleft, hturns, rfl, hwhole⟩
    simp only [Option.isSome_none, Bool.false_eq_true, if_false, len_spec hexact hs.iter,
      some_bind, hchunk, htail]
    rfl

theorem try_rfold_loop_spec (hN : 0 < N) (k : ℕ)
    (f : A → List T → Except B A) (acc : A) (hs : Over R turns N tail s l)
    (hr : s.remainder = some tail) (hk : l.length < k) :
    Yields (Stands R turns N tail) (try_rfold_loop N it k f acc s)
      (tryFold f acc (chunked N l).reverse).1 (tryFold f acc (chunked N l).reverse).2.reverse := by
  have hdvd : N ∣ l.length := by
    have hkept := hs.kept
    rw [hr] at hkept
    exact hkept.2
  induction k generalizing acc s l with
  | zero => exact absurd hk (not_lt_zero _)
  | succ k ih =>
    obtain ⟨iter, hchunk, hiter⟩ := next_chunk_spec h N [] (reversed_reverse hs.iter)
    rw [try_rfold_loop, hchunk, length_reverse]
    obtain hlt | hge := lt_or_ge l.length N
    · obtain rfl : l = [] := eq_nil_of_length_eq_zero (eq_zero_of_dvd_of_lt hdvd hlt)
      rw [if_neg (Nat.not_le_of_lt hlt), chunked_of_lt hlt]
      rw [reverse_nil, drop_nil] at hiter
      exact ⟨{ s with iter }, rfl, [], ⟨hiter, hs.turns, hs.kept⟩, (chunked_of_lt hlt).symm⟩
    have hlast : (l.reverse.take N).reverse = l.drop (l.length - N) := by
      rw [reverse_take, reverse_reverse, length_reverse]
    have hlen : (l.take (l.length - N)).length = l.length - N := by
      rw [length_take]
      exact min_eq_left (sub_le _ _)
    have hdvd' : N ∣ (l.take (l.length - N)).length := by
      rw [hlen]
      exact dvd_sub hdvd (dvd_refl N)
    have hs' : Over R turns N tail { s with iter } (l.take (l.length - N)) := by
      refine ⟨?_, ?_, ?_⟩
      · rwa [Reversed, reverse_drop, reverse_reverse, length_reverse] at hiter
      · have := hs.turns
        omega
      · dsimp only
        rw [hr]
        exact ⟨rfl, hdvd'⟩
    rw [if_pos hge, chunked_concat hN hge hdvd, reverse_append, reverse_singleton,
      singleton_append, tryFold, nil_append]
    simp only [some_bind, hlast]
    cases f acc (l.drop (l.length - N)) with
    | error b =>
      refine ⟨{ s with iter }, rfl, _, hs', ?_⟩
      rw [reverse_reverse]
    | ok acc => exact ih acc hs' hr (by omega) hdvd'

theorem try_rfold_spec (hexact : ExactSize R it.size_hint) (hN : 0 < N) :
    IsTryFold (A := A) (B := B) (Reversed (Stands R turns N tail)) (try_rfold N it turns) := by
  apply isTryFold_reversed
  rintro f acc s _ ⟨l, hs, rfl⟩
  obtain ⟨s', hremainder, hr, hs'⟩ := next_back_remainder_spec h hexact hN hs
  rw [try_rfold, hremainder, ← chunked_whole hN l]
  exact try_rfold_loop_spec h hN turns f acc hs' hr hs'.turns

theorem next_back_spec (hexact : ExactSize R it.size_hint)
    (hN : 0 < N) : IsNext (Reversed (Stands R turns N tail)) (next_back N it turns) := by
  intro s m hs
  obtain ⟨s', hfold, hs'⟩ :=
    try_rfold_spec h hexact hN (fun (_ : Unit) chunk => .error chunk) () hs
  rw [next_back, hfold]
  cases m with
  | nil | cons => exact ⟨s', rfl, hs'⟩

end Back

/-! ## All methods -/

variable {it : DoubleEndedIterator σ T} {get_unchecked : Option (σ → ℕ → Option (T × σ))}

theorem front_lawful (h : it.toIterator.Lawful usizeMax R) (hN : 0 < N)
    (hget : ∀ get, get_unchecked = some get → InOrder R get ∧ ExactSize R it.size_hint) :
    (iterator usizeMax turns N it get_unchecked).front.Lawful usizeMax
      (Stands R turns N tail) where
  next := next_spec h.front.next hN
  nth := nth_spec (advance_by_spec (try_fold_spec h.front.next hN)) (next_spec h.front.next hN)
  advance_by := advance_by_spec (try_fold_spec h.front.next hN)
  try_fold := try_fold_spec h.front.next hN
  fold := fold_spec h hN hget

theorem back_lawful (h : it.back.Lawful usizeMax (Reversed R)) (hexact : ExactSize R it.size_hint)
    (hN : 0 < N) : (iterator usizeMax turns N it get_unchecked).back.Lawful usizeMax
      (Reversed (Stands R turns N tail)) where
  next := next_back_spec h.next hexact hN
  nth := nth_spec (advance_back_by_spec (next_back_spec h.next hexact hN))
    (next_back_spec h.next hexact hN)
  advance_by := advance_back_by_spec (next_back_spec h.next hexact hN)
  try_fold := try_rfold_spec h.next hexact hN
  fold := fold_via_try_fold_spec (try_rfold_spec h.next hexact hN)

end ArrayChunks

end RustStd.Iter
