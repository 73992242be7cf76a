import RustStd.Iter.Take

/-!
# An iterator without end

`Cycle`, after `core/src/iter/adapters/cycle.rs`. A clone of an iterator is the iterator. Over one
that stands for the empty list, `Cycle` stands for the empty list (`Cycle.empty_lawful`); over one
that stands for another list it stands for a place in its infinite repetition
(`Cycle.runs_spec`). The loops run for at most `turns` turns.
-/

namespace RustStd.Iter

open List Nat Option

variable {σ T A B : Type} {R : σ → List T → Prop} {usizeMax turns : ℕ} {l : List T}

structure Cycle (σ : Type) where
  orig : σ
  iter : σ

namespace Cycle

def new (iter : σ) : Cycle σ := ⟨iter, iter⟩

section Methods

variable (usizeMax : ℕ) (it : Iterator σ T)

def next (self : Cycle σ) : Option (Option T × Cycle σ) := do
  let (y, iter) ← it.front.next self.iter
  match y with
  | none =>
    let (y, iter) ← it.front.next self.orig
    return (y, { self with iter })
  | some y => return (some y, { self with iter })

def size_hint (self : Cycle σ) : ℕ × Option ℕ :=
  match it.size_hint self.orig with
  | (0, some 0) => (0, some 0)
  | (0, _) => (0, none)
  | _ => (usizeMax, none)

/-- The closure of the second round, which finds out whether there are any elements. -/
def mark (f : A → T → Except B A) (acc : Bool × A) (x : T) : Except B (Bool × A) :=
  match f acc.2 x with
  | .ok a => .ok (false, a)
  | .error b => .error b

/-- The loop of `try_fold`. -/
def try_fold_loop : ℕ → (A → T → Except B A) → A → Cycle σ → Option (Except B A × Cycle σ)
  | 0, _, _, _ => none
  | turns + 1, f, acc, self => do
    let (r, iter) ← it.front.try_fold f acc self.orig
    match r with
    | .ok acc => try_fold_loop turns f acc { self with iter }
    | .error b => return (.error b, { self with iter })

def try_fold (turns : ℕ) (f : A → T → Except B A) (acc : A) (self : Cycle σ) :
    Option (Except B A × Cycle σ) := do
  let (r, iter) ← it.front.try_fold f acc self.iter
  match r with
  | .error b => return (.error b, { self with iter })
  | .ok acc =>
    let (r, iter) ← it.front.try_fold (mark f) (true, acc) self.orig
    match r with
    | .error b => return (.error b, { self with iter })
    | .ok (is_empty, acc) =>
      if is_empty then return (.ok acc, { self with iter })
      else try_fold_loop it turns f acc { self with iter }

/-- The loop of `advance_by`. -/
def advance_loop : ℕ → Cycle σ → ℕ → Option (ℕ × Cycle σ)
  | 0, _, _ => none
  | turns + 1, self, n =>
    if n > 0 then do
      let (rem, iter) ← it.front.advance_by self.orig n
      if rem = 0 then return (0, { self with iter })
      else if rem = n then return (rem, { self with iter })
      else advance_loop turns { self with iter } rem
    else some (n, self)

def advance_by (turns : ℕ) (self : Cycle σ) (n : ℕ) : Option (ℕ × Cycle σ) := do
  let (rem, iter) ← it.front.advance_by self.iter n
  if rem = 0 then return (0, { self with iter })
  else advance_loop it turns { self with iter } rem

end Methods

def iterator (usizeMax turns : ℕ) (it : Iterator σ T) : Iterator (Cycle σ) T where
  front :=
    { next := next it
      nth := Provided.nth (advance_by it turns) (next it)
      advance_by := advance_by it turns
      try_fold := try_fold it turns
      fold := Provided.fold (next it) turns }
  size_hint := size_hint usizeMax it
  count := Provided.count usizeMax (Provided.fold (next it) turns)
  last := Provided.last (Provided.fold (next it) turns)

variable {it : Iterator σ T}

/-! ## No elements -/

structure Empty (R : σ → List T → Prop) (s : Cycle σ) (l : List T) : Prop where
  eq : l = []
  orig : R s.orig []
  iter : R s.iter []

theorem empty_next (h : IsNext R it.front.next) : IsNext (Empty R) (next it) := by
  rintro s _ ⟨rfl, horig, hiter⟩
  obtain ⟨iter1, hnext1, -⟩ := h hiter
  obtain ⟨iter2, hnext2, hiter2⟩ := h horig
  refine ⟨{ s with iter := iter2 }, ?_, rfl, horig, hiter2⟩
  rw [next, hnext1]
  simp only [some_bind, head?_nil, hnext2]
  rfl

theorem empty_advance_by (h : IsAdvanceBy usizeMax R it.front.advance_by) (hturns : 0 < turns) :
    IsAdvanceBy usizeMax (Empty R) (advance_by it turns) := by
  rintro s _ n ⟨rfl, horig, hiter⟩ hn
  obtain ⟨iter1, hadvance1, hiter1⟩ := h n hiter hn
  obtain ⟨iter2, hadvance2, hiter2⟩ := h n horig hn
  obtain ⟨k, rfl⟩ := exists_eq_succ_of_ne_zero (ne_of_gt hturns)
  rw [drop_nil] at hiter1 hiter2 ⊢
  rw [advance_by, hadvance1, length_nil, Nat.sub_zero]
  simp only [some_bind]
  by_cases hzero : n = 0
  · exact ⟨{ s with iter := iter1 }, by rw [if_pos hzero, hzero]; rfl, rfl, horig, hiter1⟩
  · refine ⟨{ s with iter := iter2 }, ?_, rfl, horig, hiter2⟩
    rw [if_neg hzero, advance_loop, if_pos (Nat.pos_of_ne_zero hzero)]
    rw [hadvance2, length_nil, Nat.sub_zero]
    simp only [some_bind]
    rw [if_neg hzero]
    rfl

theorem empty_try_fold (h : ∀ {A : Type}, IsTryFold (A := A) (B := B) R it.front.try_fold) :
    IsTryFold (A := A) (B := B) (Empty R) (try_fold it turns) := by
  rintro f acc s _ ⟨rfl, horig, hiter⟩
  obtain ⟨iter1, hfold1, hiter1⟩ := h f acc hiter
  obtain ⟨iter2, hfold2, hiter2⟩ := h (mark f) (true, acc) horig
  refine ⟨{ s with iter := iter2 }, ?_, rfl, horig, hiter2⟩
  rw [try_fold, hfold1, tryFold]
  simp only [some_bind, hfold2, tryFold, if_true]
  rfl

theorem empty_fold (h : IsNext R it.front.next) (hturns : 0 < turns) :
    IsFold (A := A) (Empty R) (Provided.fold (next it) turns) := by
  intro f a s l hs
  refine fold_spec (empty_next h) f a hs ?_
  rw [hs.eq]
  exact hturns

theorem empty_size_hint (h : it.Lawful usizeMax R) {s : Cycle σ} (hs : Empty R s l) :
    ValidHint usizeMax (size_hint usizeMax it s) l.length := by
  have hlower := (h.size_hint hs.orig).lower
  rw [hs.eq, size_hint]
  split
  · exact exactHint_valid rfl (zero_le _)
  · exact ⟨le_refl _, zero_le _, nofun, nofun⟩
  · next hint hzero hpos =>
    -- a lower bound above zero is none of the empty list
    have hfst : (it.size_hint s.orig).1 = 0 := le_zero.mp hlower
    exact (hpos (it.size_hint s.orig).2 (Prod.ext hfst rfl)).elim

/-- Over an iterator without elements, **`Cycle`** has none. -/
theorem empty_lawful (h : it.Lawful usizeMax R) (hturns : 0 < turns) :
    (iterator usizeMax turns it).Lawful usizeMax (Empty R) where
  front :=
    { next := empty_next h.front.next
      nth := nth_spec (empty_advance_by h.front.advance_by hturns) (empty_next h.front.next)
      advance_by := empty_advance_by h.front.advance_by hturns
      try_fold := empty_try_fold h.front.try_fold
      fold := empty_fold h.front.next hturns }
  size_hint _ _ hs := empty_size_hint h hs
  count _ _ hs hlen := count_spec (empty_fold h.front.next hturns) hs hlen
  last _ _ hs := last_spec (empty_fold h.front.next hturns) hs

/-! ## Infinite repetition -/

variable {orig : List T}

/-- The element at a place of the infinite repetition. -/
def stream (hpos : 0 < orig.length) (i : ℕ) : T :=
  orig.get ⟨i % orig.length, mod_lt i hpos⟩

/-- The elements from a place on. -/
def window (hpos : 0 < orig.length) (p n : ℕ) : List T := (range' p n).map (stream hpos)

/-- A fold from place `p` on stops at the element before place `p + n`. -/
def Stops (hpos : 0 < orig.length) (f : A → T → Except B A) (a : A) (p n : ℕ) (b : B) : Prop :=
  tryFold f a (window hpos p n) = (.error b, [])

/-- The iterator is at a place of the repetition. -/
structure At (R : σ → List T → Prop) (orig : List T) (s : Cycle σ) (p : ℕ) : Prop where
  held : R s.orig orig
  iter : ∃ k, k ≤ orig.length ∧ k % orig.length = p % orig.length ∧ R s.iter (orig.drop k)

variable {hpos : 0 < orig.length} {s : Cycle σ} {p n k : ℕ}

theorem window_append (hpos : 0 < orig.length) (p m n : ℕ) :
    window hpos p (m + n) = window hpos p m ++ window hpos (p + m) n := by
  rw [window, window, window, ← map_append, range'_append_1]

theorem window_eq_take (hk : k % orig.length = p % orig.length) (hn : k + n ≤ orig.length) :
    window hpos p n = (orig.drop k).take n := by
  apply ext_getElem
  · rw [window, length_map, length_range', length_take, length_drop]
    omega
  · intro i h1 h2
    rw [window, length_map, length_range'] at h1
    have hplace : (p + i) % orig.length = k + i := by
      rw [add_mod, ← hk, ← add_mod, mod_eq_of_lt (by omega)]
    simp [window, stream, hplace]

/-- The place after the last element of a round begins the next round. -/
theorem add_round (hk : k % orig.length = p % orig.length) (hle : k ≤ orig.length) :
    (p + (orig.length - k)) % orig.length = 0 := by
  rw [add_mod, ← hk, ← add_mod, Nat.add_sub_cancel' hle, mod_self]

theorem At.advance (hs : At R orig s p) {iter : σ} (hk : k % orig.length = p % orig.length)
    (hn : k + n ≤ orig.length) (hiter : R iter (orig.drop (k + n))) :
    At R orig { s with iter } (p + n) where
  held := hs.held
  iter := ⟨k + n, hn, by rw [add_mod, hk, ← add_mod], hiter⟩

theorem next_spec (h : IsNext R it.front.next) (hpos : 0 < orig.length) (hs : At R orig s p) :
    Yields (At R orig) (next it s) (some (stream hpos p)) (p + 1) := by
  obtain ⟨k, hle, hk, hiter⟩ := hs.iter
  obtain ⟨iter1, hnext1, hiter1⟩ := h hiter
  rw [next, hnext1]
  simp only [some_bind]
  obtain hlt | heq := lt_or_eq_of_le hle
  · have hplace : p % orig.length = k := by rw [← hk, mod_eq_of_lt hlt]
    rw [tail_drop] at hiter1
    refine ⟨{ s with iter := iter1 }, ?_, hs.advance hk hlt hiter1⟩
    rw [head?_drop, getElem?_eq_getElem hlt]
    simp only [stream, hplace, get_eq_getElem]
    rfl
  · have hplace : p % orig.length = 0 := by rw [← hk, heq, mod_self]
    obtain ⟨iter2, hnext2, hiter2⟩ := h hs.held
    rw [← drop_one] at hiter2
    refine ⟨{ s with iter := iter2 }, ?_,
      hs.advance (k := 0) (by rw [hplace, zero_mod]) (by omega) hiter2⟩
    rw [head?_drop, getElem?_eq_none (by omega)]
    simp only [hnext2, some_bind, head?_eq_getElem?, getElem?_eq_getElem hpos,
      stream, hplace, get_eq_getElem]
    rfl

variable (h : IsAdvanceBy usizeMax R it.front.advance_by)
include h

theorem advance_loop_spec
    (hpos : 0 < orig.length) (hs : At R orig s p) (hp : p % orig.length = 0) (hn : 0 < n)
    (hmax : n ≤ usizeMax) (hk : n ≤ k) : Yields (At R orig) (advance_loop it k s n) 0 (p + n) := by
  induction k generalizing s p n with
  | zero => omega
  | succ k ih =>
    obtain ⟨iter, hadvance, hiter⟩ := h n hs.held hmax
    rw [advance_loop, if_pos hn, hadvance]
    simp only [some_bind]
    by_cases hrem : n - orig.length = 0
    · refine ⟨{ s with iter }, ?_, hs.advance (k := 0) (by rw [hp, zero_mod]) (by omega)
        (by rwa [zero_add])⟩
      rw [if_pos hrem]
      rfl
    · have hs' : At R orig { s with iter } (p + orig.length) := by
        refine hs.advance (k := 0) (by rw [hp, zero_mod]) (by omega) ?_
        rwa [zero_add, drop_length, ← drop_eq_nil_of_le (show orig.length ≤ n by omega)]
      have hrest := ih hs' (by rw [add_mod_right, hp]) (Nat.pos_of_ne_zero hrem)
        ((sub_le _ _).trans hmax) (by omega)
      rw [if_neg hrem, if_neg (by omega)]
      rwa [show p + orig.length + (n - orig.length) = p + n by omega] at hrest

theorem advance_by_spec (hpos : 0 < orig.length)
    (hs : At R orig s p) (hn : n ≤ usizeMax) (hturns : usizeMax < turns) :
    Yields (At R orig) (advance_by it turns s n) 0 (p + n) := by
  obtain ⟨k, hle, hk, hiter⟩ := hs.iter
  obtain ⟨iter, hadvance, hiter'⟩ := h n hiter hn
  rw [drop_drop] at hiter'
  rw [advance_by, hadvance, length_drop]
  simp only [some_bind]
  by_cases hrem : n - (orig.length - k) = 0
  · refine ⟨{ s with iter }, ?_, hs.advance hk (by omega) hiter'⟩
    rw [if_pos hrem]
    rfl
  have hs' : At R orig { s with iter } (p + (orig.length - k)) := by
    refine hs.advance hk (by omega) ?_
    rwa [Nat.add_sub_cancel' hle, drop_length,
      ← drop_eq_nil_of_le (show orig.length ≤ k + n by omega)]
  have hrest := advance_loop_spec (k := turns) h hpos hs' (add_round hk hle)
    (Nat.pos_of_ne_zero hrem) ((sub_le _ _).trans hn) (by omega)
  rw [if_neg hrem]
  rwa [show p + (orig.length - k) + (n - (orig.length - k)) = p + n by omega] at hrest

omit h

theorem nth_spec (h : it.front.Lawful usizeMax R) (hpos : 0 < orig.length) (hs : At R orig s p)
    (hn : n ≤ usizeMax) (hturns : usizeMax < turns) :
    Yields (At R orig) (Provided.nth (advance_by it turns) (next it) s n)
      (some (stream hpos (p + n))) (p + n + 1) := by
  obtain ⟨s', hadvance, hs'⟩ := advance_by_spec h.advance_by hpos hs hn hturns
  rw [Provided.nth, hadvance]
  exact next_spec h.next hpos hs'

variable {f : A → T → Except B A}

/-- A fold that stops within the round leaves the rest of it. -/
theorem Stops.within {a : A} {b : B} (h : Stops hpos f a p n b)
    (hk : k % orig.length = p % orig.length) (hn : k + n ≤ orig.length) :
    tryFold f a (orig.drop k) = (.error b, orig.drop (k + n)) := by
  rw [Stops, window_eq_take hk hn] at h
  rw [← take_append_drop n (orig.drop k), tryFold_append, h, drop_drop]
  rfl

/-- A fold that stops later goes through the round. -/
theorem Stops.beyond {a : A} {b : B} (h : Stops hpos f a p n b)
    (hk : k % orig.length = p % orig.length) (hle : k ≤ orig.length)
    (hn : orig.length - k < n) :
    ∃ a', tryFold f a (orig.drop k) = (.ok a', []) ∧
      Stops hpos f a' (p + (orig.length - k)) (n - (orig.length - k)) b := by
  have hround : window hpos p (orig.length - k) = orig.drop k := by
    rw [window_eq_take hk (by omega), take_of_length_le (by rw [length_drop])]
  rw [Stops, show n = orig.length - k + (n - (orig.length - k)) by omega, window_append, hround,
    tryFold_append] at h
  cases hr : tryFold f a (orig.drop k) with
  | mk r rest =>
    rw [hr] at h
    cases r with
    | error b' =>
      have hnil := congrArg (fun t => t.2.length) h
      simp only [length_append, window, length_map, length_range', length_nil] at hnil
      omega
    | ok a' =>
      have hrest := tryFold_ok (f := f) (a := a) (l := orig.drop k) (by rw [hr])
      rw [hr] at hrest
      refine ⟨a', by rw [← hrest], ?_⟩
      exact h

theorem tryFold_mark (f : A → T → Except B A) (e : Bool) (a : A) (l : List T) :
    tryFold (mark f) (e, a) l = match tryFold f a l with
      | (.ok a, rest) => (.ok (e && l.isEmpty, a), rest)
      | (.error b, rest) => (.error b, rest) := by
  induction l generalizing e a with
  | nil => rw [tryFold, tryFold, isEmpty_nil, Bool.and_true]
  | cons x l ih =>
    rw [tryFold, tryFold, mark]
    cases f a x with
    | error b => rfl
    | ok a =>
      dsimp only
      rw [ih, Bool.false_and, isEmpty_cons, Bool.and_false]

theorem try_fold_loop_spec (h : IsTryFold (A := A) (B := B) R it.front.try_fold)
    {a : A} {b : B} (hs : At R orig s p) (hp : p % orig.length = 0)
    (hstop : Stops hpos f a p n b) (hk : n ≤ k) :
    Yields (At R orig) (try_fold_loop it k f a s) (.error b) (p + n) := by
  induction k generalizing s p n a with
  | zero =>
    obtain rfl := le_zero.mp hk
    cases hstop
  | succ k ih =>
    obtain ⟨iter, hfold, hiter⟩ := h f a hs.held
    have hzero : 0 % orig.length = p % orig.length := by rw [hp, zero_mod]
    rw [try_fold_loop, hfold]
    simp only [some_bind]
    obtain hlt | hge := lt_or_ge orig.length n
    · obtain ⟨a', hround, hstop'⟩ := hstop.beyond hzero (zero_le _) hlt
      rw [drop_zero] at hround
      rw [hround] at hiter ⊢
      have hs' : At R orig { s with iter } (p + (orig.length - 0)) := by
        refine hs.advance hzero (by omega) ?_
        rwa [Nat.zero_add, Nat.sub_zero, drop_length]
      have hrest := ih hs' (add_round hzero (zero_le _)) hstop' (by omega)
      rwa [show p + (orig.length - 0) + (n - (orig.length - 0)) = p + n by omega] at hrest
    · have hround := hstop.within hzero (by omega)
      rw [drop_zero] at hround
      rw [hround] at hiter ⊢
      exact ⟨{ s with iter }, rfl, hs.advance hzero (by omega) hiter⟩

/-- The fold goes round as often as it takes to stop. -/
theorem try_fold_spec (h : ∀ {A : Type}, IsTryFold (A := A) (B := B) R it.front.try_fold)
    {a : A} {b : B} (hs : At R orig s p)
    (hstop : Stops hpos f a p n b) (hturns : n ≤ turns) :
    Yields (At R orig) (try_fold it turns f a s) (.error b) (p + n) := by
  obtain ⟨k, hle, hk, hiter⟩ := hs.iter
  obtain ⟨iter1, hfold1, hiter1⟩ := h f a hiter
  rw [try_fold, hfold1]
  simp only [some_bind]
  obtain hlt | hge := lt_or_ge (orig.length - k) n
  · obtain ⟨a1, hround, hstop1⟩ := hstop.beyond hk hle hlt
    rw [hround] at hiter1 ⊢
    dsimp only
    obtain ⟨iter2, hfold2, hiter2⟩ := h (mark f) (true, a1) hs.held
    rw [hfold2]
    simp only [some_bind]
    rw [tryFold_mark] at hiter2 ⊢
    have hzero : 0 % orig.length = (p + (orig.length - k)) % orig.length := by
      rw [add_round hk hle, zero_mod]
    have hs1 : At R orig { s with iter := iter1 } (p + (orig.length - k)) := by
      refine hs.advance hk (by omega) ?_
      rwa [Nat.add_sub_cancel' hle, drop_length]
    obtain hlt1 | hge1 := lt_or_ge orig.length (n - (orig.length - k))
    · obtain ⟨a2, hround2, hstop2⟩ := hstop1.beyond hzero (zero_le _) hlt1
      rw [drop_zero] at hround2
      rw [hround2] at hiter2 ⊢
      have hfull : orig.isEmpty = false := isEmpty_eq_false_iff.mpr (ne_nil_of_length_pos hpos)
      have hs2 : At R orig { s with iter := iter2 }
          (p + (orig.length - k) + (orig.length - 0)) := by
        refine hs1.advance hzero (by omega) ?_
        rwa [Nat.zero_add, Nat.sub_zero, drop_length]
      have hrest := try_fold_loop_spec (k := turns) h hs2 (add_round hzero (zero_le _)) hstop2
        (by omega)
      rw [hfull]
      rwa [show p + (orig.length - k) + (orig.length - 0) +
        (n - (orig.length - k) - (orig.length - 0)) = p + n by omega] at hrest
    · have hround2 := hstop1.within hzero (by omega)
      rw [drop_zero] at hround2
      rw [hround2] at hiter2 ⊢
      have hs2 := hs1.advance hzero (by omega) hiter2
      rw [show p + (orig.length - k) + (n - (orig.length - k)) = p + n by omega] at hs2
      exact ⟨{ s with iter := iter2 }, rfl, hs2⟩
  · have hround := hstop.within hk (by omega)
    rw [hround] at hiter1 ⊢
    exact ⟨{ s with iter := iter1 }, rfl, hs.advance hk (by omega) hiter1⟩

/-- A `fold` over the repetition does not return, however many turns it gets. -/
theorem fold_diverges (h : IsNext R it.front.next) (hpos : 0 < orig.length) (turns : ℕ)
    (f : A → T → A) (a : A) (hs : At R orig s p) : Provided.fold (next it) turns f a s = none := by
  induction turns generalizing a s p with
  | zero => rfl
  | succ turns ih =>
    obtain ⟨s', hnext, hs'⟩ := next_spec h hpos hs
    rw [Provided.fold, hnext]
    exact ih _ hs'

theorem size_hint_spec (h : it.Lawful usizeMax R) (hpos : 0 < orig.length) (hs : At R orig s p) :
    (size_hint usizeMax it s).2 = none ∧ (size_hint usizeMax it s).1 ≤ usizeMax := by
  have hhint := h.size_hint hs.held
  rw [size_hint]
  split
  · next heq =>
    have hupper := hhint.upper 0 (by rw [heq])
    omega
  · exact ⟨rfl, zero_le _⟩
  · exact ⟨rfl, le_refl _⟩

/-- What the repetition answers to some calls from a place on; a fold stops after `turns` elements
at the latest. -/
inductive Replies (hpos : 0 < orig.length) (turns : ℕ) :
    ℕ → List (Method T A B) → List (Answer T A B) → ℕ → Prop
  | nil (i : ℕ) : Replies hpos turns i [] [] i
  | next {i j : ℕ} {ms as} (h : Replies hpos turns (i + 1) ms as j) :
    Replies hpos turns i (.next :: ms) (.item (some (stream hpos i)) :: as) j
  | nth {i j m : ℕ} {ms as} (h : Replies hpos turns (i + m + 1) ms as j) :
    Replies hpos turns i (.nth m :: ms) (.item (some (stream hpos (i + m))) :: as) j
  | advance_by {i j m : ℕ} {ms as} (h : Replies hpos turns (i + m) ms as j) :
    Replies hpos turns i (.advance_by m :: ms) (.missing 0 :: as) j
  | try_fold {i j m : ℕ} {f : A → T → Except B A} {a : A} {b : B} {ms as}
    (hstop : Stops hpos f a i m b) (hm : m ≤ turns) (h : Replies hpos turns (i + m) ms as j) :
    Replies hpos turns i (.try_fold f a :: ms) (.folded (.error b) :: as) j

/-- A first call, and the others after it. -/
theorem run_cons {α Q : Type} {call : Q → σ → Option (α × σ)} {q : Q} {qs : List Q} {a : α}
    {as : List α} {s s1 s' : σ} (hcall : call q s = some (a, s1))
    (hrun : runCalls call qs s1 = some (as, s')) :
    runCalls call (q :: qs) s = some (a :: as, s') := by
  rw [runCalls, hcall]
  simp only [some_bind, hrun]
  rfl

theorem runs_spec (h : it.Lawful usizeMax R) (hturns : usizeMax < turns)
    {ms : List (Method T A B)} {as : List (Answer T A B)} {p p' : ℕ} {s : Cycle σ}
    (hms : ∀ m ∈ ms, m.Fits usizeMax) (hreplies : Replies hpos turns p ms as p')
    (hs : At R orig s p) : Yields (At R orig) ((iterator usizeMax turns it).run ms s) as p' := by
  induction hreplies generalizing s with
  | nil p => exact ⟨s, rfl, hs⟩
  | next _ ih =>
    obtain ⟨s1, hnext, hs1⟩ := next_spec h.front.next hpos hs
    obtain ⟨s', hrun, hs'⟩ := ih (fun m hm => hms m (mem_cons_of_mem _ hm)) hs1
    refine ⟨s', run_cons ?_ hrun, hs'⟩
    exact (congrArg (bind · _) hnext)
  | nth _ ih =>
    obtain ⟨s1, hnth, hs1⟩ := nth_spec h.front hpos hs (hms _ mem_cons_self) hturns
    obtain ⟨s', hrun, hs'⟩ := ih (fun m hm => hms m (mem_cons_of_mem _ hm)) hs1
    refine ⟨s', run_cons ?_ hrun, hs'⟩
    exact (congrArg (bind · _) hnth)
  | advance_by _ ih =>
    obtain ⟨s1, hadvance, hs1⟩ :=
      advance_by_spec h.front.advance_by hpos hs (hms _ mem_cons_self) hturns
    obtain ⟨s', hrun, hs'⟩ := ih (fun m hm => hms m (mem_cons_of_mem _ hm)) hs1
    refine ⟨s', run_cons ?_ hrun, hs'⟩
    exact (congrArg (bind · _) hadvance)
  | try_fold hstop hn _ ih =>
    obtain ⟨s1, hfold, hs1⟩ := try_fold_spec h.front.try_fold hs hstop hn
    obtain ⟨s', hrun, hs'⟩ := ih (fun m hm => hms m (mem_cons_of_mem _ hm)) hs1
    refine ⟨s', run_cons ?_ hrun, hs'⟩
    exact (congrArg (bind · _) hfold)

end Cycle

end RustStd.Iter
