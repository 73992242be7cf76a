import RustStd.Iter.Provided

/-!
# Pairs of two iterators

`Zip` over any two iterators, after `core/src/iter/adapters/zip.rs`. Its `fold` has an
implementation of its own for iterators of trusted length. Over iterators that stand for lists it
stands for the list of the pairs (`Zip.lawful`).
-/

namespace RustStd.Iter

open List Option Nat

variable {σ υ T U A B : Type} {RA : σ → List T → Prop} {RB : υ → List U → Prop}
  {usizeMax turns : ℕ} {l : List T} {m : List U}

/-- `Zip`; the general implementation does not use the two numbers. -/
structure Zip (σ υ : Type) where
  a : σ
  b : υ
  index : ℕ
  len : ℕ

namespace Zip

def new (a : σ) (b : υ) : Zip σ υ := ⟨a, b, 0, 0⟩

section Methods

variable (ia : DoubleEndedIterator σ T) (ib : DoubleEndedIterator υ U)

def next (self : Zip σ υ) : Option (Option (T × U) × Zip σ υ) := do
  let (x, a) ← ia.front.next self.a
  let self := { self with a }
  match x with
  | none => return (none, self)
  | some x =>
    let (y, b) ← ib.front.next self.b
    let self := { self with b }
    match y with
    | none => return (none, self)
    | some y => return (some (x, y), self)

def super_nth {S P : Type} (next : S → Option (Option P × S)) : S → ℕ → Option (Option P × S)
  | self, n => do
    let (x, self) ← next self
    match x with
    | none => return (none, self)
    | some x =>
      match n with
      | 0 => return (some x, self)
      | n + 1 => super_nth next self n

/-- `for _ in 0..k { iter.next_back(); }` -/
def discard_back (it : DoubleEndedIterator σ T) : ℕ → σ → Option σ
  | 0, s => some s
  | k + 1, s => do
    let (_, s) ← it.back.next s
    discard_back it k s

/-- `next_back`; the pair of an item and none is unreachable. -/
def next_back (self : Zip σ υ) : Option (Option (T × U) × Zip σ υ) := do
  let a_sz ← Provided.len ia.size_hint self.a
  let b_sz ← Provided.len ib.size_hint self.b
  let a ← discard_back ia (a_sz - b_sz) self.a
  let b ← discard_back ib (b_sz - a_sz) self.b
  let (x, a) ← ia.back.next a
  let (y, b) ← ib.back.next b
  match x, y with
  | some x, some y => return (some (x, y), { self with a, b })
  | none, none => return (none, { self with a, b })
  | _, _ => none

def size_hint (self : Zip σ υ) : ℕ × Option ℕ :=
  let (a_lower, a_upper) := ia.size_hint self.a
  let (b_lower, b_upper) := ib.size_hint self.b
  let upper :=
    match a_upper, b_upper with
    | some x, some y => some (min x y)
    | some x, none => some x
    | none, some y => some y
    | none, none => none
  (min a_lower b_lower, upper)

/-- The loop over the pairs that iterators of trusted length have. -/
def fold_upper (f : A → T × U → A) : ℕ → A → Zip σ υ → Option (A × Zip σ υ)
  | 0, accum, self => some (accum, self)
  | upper + 1, accum, self => do
    let (x, a) ← ia.front.next self.a
    let (y, b) ← ib.front.next self.b
    match x, y with
    | some x, some y => fold_upper f upper (f accum (x, y)) { self with a, b }
    | _, _ => none

/-- `spec_fold` for iterators of trusted length. -/
def spec_fold_trusted_len (usizeMax : ℕ) : ℕ → (A → T × U → A) → A → Zip σ υ → Option A
  | 0, _, _, _ => none
  | turns + 1, f, accum, self =>
    match (size_hint ia ib self).2 with
    | some upper => do
      let (accum, _) ← fold_upper ia ib f upper accum self
      return accum
    | none => do
      let (accum, self) ← fold_upper ia ib f usizeMax accum self
      spec_fold_trusted_len usizeMax turns f accum self

def fold (usizeMax turns : ℕ) (trusted_len : Bool) (f : A → T × U → A) (init : A) (self : Zip σ υ) :
    Option A :=
  if trusted_len then spec_fold_trusted_len ia ib usizeMax turns f init self
  else Provided.fold (next ia ib) turns f init self

end Methods

def iterator (usizeMax turns : ℕ) (trusted_len : Bool) (ia : DoubleEndedIterator σ T)
    (ib : DoubleEndedIterator υ U) : DoubleEndedIterator (Zip σ υ) (T × U) where
  front :=
    { next := next ia ib
      nth := super_nth (next ia ib)
      advance_by := Provided.advance_by (Provided.try_fold (next ia ib) turns)
      try_fold := Provided.try_fold (next ia ib) turns
      fold := fold ia ib usizeMax turns trusted_len }
  size_hint := size_hint ia ib
  count := Provided.count usizeMax (fold ia ib usizeMax turns trusted_len)
  last := Provided.last (fold ia ib usizeMax turns trusted_len)
  back :=
    { next := next_back ia ib
      nth := Provided.nth (Provided.advance_back_by (next_back ia ib)) (next_back ia ib)
      advance_by := Provided.advance_back_by (next_back ia ib)
      try_fold := Provided.try_fold (next_back ia ib) turns
      fold := Provided.fold (next_back ia ib) turns }

/-- The list of the pairs. -/
structure Over (RA : σ → List T → Prop) (RB : υ → List U → Prop) (turns : ℕ) (s : Zip σ υ)
    (l : List T) (m : List U) : Prop where
  a : RA s.a l
  b : RB s.b m
  turns : (l.zip m).length < turns

def Stands (RA : σ → List T → Prop) (RB : υ → List U → Prop) (turns : ℕ) (s : Zip σ υ)
    (p : List (T × U)) : Prop := ∃ l m, Over RA RB turns s l m ∧ p = l.zip m

variable {ia : DoubleEndedIterator σ T} {ib : DoubleEndedIterator υ U} {s : Zip σ υ}

theorem Stands.length_lt {p : List (T × U)} (hs : Stands RA RB turns s p) : p.length < turns := by
  obtain ⟨l, m, hs, rfl⟩ := hs
  exact hs.turns

section Front

theorem next_over (ha : IsNext RA ia.front.next) (hb : IsNext RB ib.front.next)
    (hs : Over RA RB turns s l m) :
    Yields (Stands RA RB turns) (next ia ib s) (l.zip m).head? (l.zip m).tail := by
  obtain ⟨a, hnexta, hsa⟩ := ha hs.a
  rw [next, hnexta]
  have hturns := hs.turns
  cases l with
  | nil => exact ⟨{ s with a }, rfl, [], m, ⟨hsa, hs.b, hturns⟩, rfl⟩
  | cons x l =>
    obtain ⟨b, hnextb, hsb⟩ := hb hs.b
    simp only [head?_cons, bind_eq_bind, bind_some, hnextb]
    cases m with
    | nil =>
      refine ⟨{ s with a, b }, rfl, l, [], ⟨hsa, hsb, ?_⟩, ?_⟩
      · rwa [zip_nil_right] at hturns ⊢
      · rw [zip_nil_right, zip_nil_right]
        rfl
    | cons y m =>
      refine ⟨{ s with a, b }, rfl, l, m, ⟨hsa, hsb, ?_⟩, rfl⟩
      rw [zip_cons_cons, length_cons] at hturns
      exact lt_of_succ_lt hturns

theorem next_spec (ha : IsNext RA ia.front.next) (hb : IsNext RB ib.front.next) :
    IsNext (Stands RA RB turns) (next ia ib) := by
  rintro s _ ⟨l, m, hs, rfl⟩
  exact next_over ha hb hs

theorem super_nth_spec {S P : Type} {R : S → List P → Prop} {next : S → Option (Option P × S)}
    (h : IsNext R next) : IsNth usizeMax R (super_nth next) := by
  intro s p n hs hn
  induction n generalizing s p with
  | zero =>
    obtain ⟨s', hnext, hs'⟩ := h hs
    rw [super_nth, hnext]
    cases p with
    | nil | cons => exact ⟨s', rfl, hs'⟩
  | succ n ih =>
    obtain ⟨s', hnext, hs'⟩ := h hs
    rw [super_nth, hnext]
    cases p with
    | nil => exact ⟨s', rfl, hs'⟩
    | cons x p => exact ih hs' (le_of_succ_le hn)

theorem size_hint_exact (ha : ExactSize RA ia.size_hint) (hb : ExactSize RB ib.size_hint) :
    ExactSize (Stands RA RB turns) (size_hint ia ib) := by
  rintro s _ ⟨l, m, hs, rfl⟩
  rw [size_hint, ha hs.a, hb hs.b, length_zip]

theorem fold_upper_spec (ha : IsNext RA ia.front.next) (hb : IsNext RB ib.front.next)
    (f : A → T × U → A) (accum : A) (hla : RA s.a l) (hmb : RB s.b m) :
    ∃ s', fold_upper ia ib f (l.zip m).length accum s = some ((l.zip m).foldl f accum, s') := by
  induction l generalizing m accum s with
  | nil => exact ⟨s, rfl⟩
  | cons x l ih =>
    cases m with
    | nil => exact ⟨s, rfl⟩
    | cons y m =>
      obtain ⟨a, hnexta, hsa⟩ := ha hla
      obtain ⟨b, hnextb, hsb⟩ := hb hmb
      rw [zip_cons_cons, length_cons, fold_upper, hnexta, head?_cons]
      simp only [bind_eq_bind, bind_some, hnextb, head?_cons]
      exact ih (s := { s with a, b }) _ hsa hsb

theorem fold_spec {trusted_len : Bool} (ha : IsNext RA ia.front.next)
    (hb : IsNext RB ib.front.next) (hexacta : ExactSize RA ia.size_hint)
    (hexactb : ExactSize RB ib.size_hint) :
    IsFold (A := A) (Stands RA RB turns) (fold ia ib usizeMax turns trusted_len) := by
  intro f accum s p hs
  have hexact := size_hint_exact (hexacta) hexactb hs
  obtain ⟨l, m, hs, rfl⟩ := hs
  cases trusted_len with
  | false => exact Iter.fold_spec (next_spec ha hb) f accum ⟨l, m, hs, rfl⟩ hs.turns
  | true =>
    obtain ⟨k, rfl⟩ := Nat.exists_eq_succ_of_ne_zero (Nat.ne_of_gt (Nat.zero_lt_of_lt hs.turns))
    obtain ⟨s', hfold⟩ := fold_upper_spec ha hb f accum hs.a hs.b
    rw [fold, if_pos rfl, spec_fold_trusted_len, hexact]
    simp only [hfold, bind_eq_bind, bind_some]
    rfl

end Front

section Back

theorem discard_back_spec {it : DoubleEndedIterator σ T} (h : IsNext (Reversed RA) it.back.next)
    (k : ℕ) {s : σ} (hs : RA s l) :
    ∃ s', discard_back it k s = some s' ∧ RA s' (l.take (l.length - k)) := by
  induction k generalizing s l with
  | zero => exact ⟨s, rfl, by rwa [Nat.sub_zero, take_length]⟩
  | succ k ih =>
    obtain ⟨s1, hnext, hs1⟩ := h.back hs
    obtain ⟨s', hdiscard, hs'⟩ := ih hs1
    refine ⟨s', ?_, ?_⟩
    · rw [discard_back, hnext]
      exact hdiscard
    · rwa [length_dropLast, dropLast_eq_take, take_take,
        Nat.min_eq_left (Nat.sub_le _ _), Nat.sub_sub, Nat.add_comm 1] at hs'

/-- Lists of one length are both empty, or both have a last element. -/
theorem zip_cases (h : l.length = m.length) :
    (l = [] ∧ m = []) ∨ ∃ l' x m' y, l = l' ++ [x] ∧ m = m' ++ [y] ∧ l'.length = m'.length ∧
      l.zip m = l'.zip m' ++ [(x, y)] := by
  obtain rfl | ⟨l', x, rfl⟩ := eq_nil_or_concat' l
  · exact .inl ⟨rfl, eq_nil_of_length_eq_zero h.symm⟩
  · obtain rfl | ⟨m', y, rfl⟩ := eq_nil_or_concat' m
    · rw [length_append] at h
      cases h
    · rw [length_append, length_append, length_singleton, length_singleton,
        Nat.add_right_cancel_iff] at h
      exact .inr ⟨l', x, m', y, rfl, rfl, h, zip_append h⟩

theorem next_back_spec (ha : IsNext (Reversed RA) ia.back.next)
    (hb : IsNext (Reversed RB) ib.back.next) (hexacta : ExactSize RA ia.size_hint)
    (hexactb : ExactSize RB ib.size_hint) :
    IsNext (Reversed (Stands RA RB turns)) (next_back ia ib) := by
  apply isNext_reversed
  rintro s _ ⟨l, m, hs, rfl⟩
  obtain ⟨a, hdiscarda, hsa⟩ := discard_back_spec ha (l.length - m.length) hs.a
  obtain ⟨b, hdiscardb, hsb⟩ := discard_back_spec hb (m.length - l.length) hs.b
  rw [next_back, len_spec hexacta hs.a, len_spec hexactb hs.b]
  simp only [bind_eq_bind, bind_some, hdiscarda, hdiscardb]
  rw [show l.length - (l.length - m.length) = min l.length m.length by omega] at hsa
  rw [show m.length - (m.length - l.length) = min l.length m.length by omega] at hsb
  have hturns := hs.turns
  rw [zip_eq_zip_take_min] at hturns ⊢
  obtain ⟨a', hnexta, hsa'⟩ := ha.back hsa
  obtain ⟨b', hnextb, hsb'⟩ := hb.back hsb
  simp only [hnexta, hnextb, bind_some]
  have hlen :
      (l.take (min l.length m.length)).length = (m.take (min l.length m.length)).length := by
    rw [length_take, length_take]
    omega
  generalize l.take (min l.length m.length) = l at *
  generalize m.take _ = m at *
  obtain ⟨rfl, rfl⟩ | ⟨l', x, m', y, rfl, rfl, hlen', hzip⟩ := zip_cases hlen
  · exact ⟨{ s with a := a', b := b' }, rfl, [], [], ⟨hsa', hsb', hturns⟩, rfl⟩
  · rw [dropLast_concat] at hsa' hsb'
    rw [hzip, length_append] at hturns
    refine ⟨{ s with a := a', b := b' }, ?_, l', m', ⟨hsa', hsb', lt_of_succ_lt hturns⟩, ?_⟩
    · rw [hzip, getLast?_concat, getLast?_concat, getLast?_concat]
      rfl
    · rw [hzip, dropLast_concat]

end Back

/-- **`Zip`** over lawful exact-size iterators is lawful. -/
theorem lawful {trusted_len : Bool} (ha : ia.Lawful usizeMax RA) (hb : ib.Lawful usizeMax RB)
    (hexacta : ExactSize RA ia.size_hint) (hexactb : ExactSize RB ib.size_hint) :
    (iterator usizeMax turns trusted_len ia ib).Lawful usizeMax (Stands RA RB turns) where
  front :=
    have hnext := next_spec ha.front.next hb.front.next
    { next := hnext
      nth := super_nth_spec hnext
      advance_by := advance_by_spec fun f a _ _ hs =>
        try_fold_spec hnext f a hs (Stands.length_lt hs)
      try_fold := fun f a _ _ hs => try_fold_spec hnext f a hs (Stands.length_lt hs)
      fold := fold_spec ha.front.next hb.front.next hexacta hexactb }
  size_hint := by
    intro s p hs
    refine exactHint_valid (size_hint_exact hexacta hexactb hs) ?_
    obtain ⟨l, m, hs, rfl⟩ := hs
    have hle := hexacta.length_le ha.size_hint hs.a
    rw [length_zip]
    omega
  count _ _ hs hlen := count_spec (fold_spec ha.front.next hb.front.next hexacta hexactb) hs hlen
  last _ _ hs := last_spec (fold_spec ha.front.next hb.front.next hexacta hexactb) hs
  back :=
    have hnext := next_back_spec ha.back.next hb.back.next hexacta hexactb
    { next := hnext
      nth := nth_spec (advance_back_by_spec hnext) hnext
      advance_by := advance_back_by_spec hnext
      try_fold := fun f a _ p hs =>
        try_fold_spec hnext f a hs (by rw [← p.length_reverse]; exact Stands.length_lt hs)
      fold := fun f a _ p hs =>
        Iter.fold_spec hnext f a hs (by rw [← p.length_reverse]; exact Stands.length_lt hs) }

end Zip

end RustStd.Iter
