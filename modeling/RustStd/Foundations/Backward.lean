import RustStd.Foundations.Sweep

/-!
# The laws of the back, read from the front

The methods of the back sweep over the reversed list. Here each of their laws is stated on the list
itself, in both directions, for iterators that use the back of another. The laws also hold of the
states whose lists are not longer than some length (`Iterator.Lawful.bounded`).
-/

namespace RustStd

open List

variable {σ T A B : Type} {R : σ → List T → Prop} {usizeMax : ℕ} {s : σ} {l : List T}

theorem reversed_reverse (hs : R s l) : Reversed R s l.reverse := by
  rwa [Reversed, reverse_reverse]

theorem IsNext.back {next : σ → Option (Option T × σ)} (h : IsNext (Reversed R) next) (hs : R s l) :
    Yields R (next s) l.getLast? l.dropLast := by
  obtain ⟨s', hnext, hs'⟩ := h (reversed_reverse hs)
  refine ⟨s', by rw [hnext, head?_reverse], ?_⟩
  rwa [Reversed, ← dropLast_reverse, reverse_reverse] at hs'

theorem IsNth.back {nth : σ → ℕ → Option (Option T × σ)} (h : IsNth usizeMax (Reversed R) nth)
    (hs : R s l) {n : ℕ} (hn : n ≤ usizeMax) :
    Yields R (nth s n) l.reverse[n]? (l.take (l.length - (n + 1))) := by
  obtain ⟨s', hnth, hs'⟩ := h n (reversed_reverse hs) hn
  refine ⟨s', hnth, ?_⟩
  rwa [Reversed, reverse_drop, reverse_reverse, length_reverse] at hs'

theorem IsAdvanceBy.back {advance_by : σ → ℕ → Option (ℕ × σ)}
    (h : IsAdvanceBy usizeMax (Reversed R) advance_by) (hs : R s l) {n : ℕ} (hn : n ≤ usizeMax) :
    Yields R (advance_by s n) (n - l.length) (l.take (l.length - n)) := by
  obtain ⟨s', hadvance, hs'⟩ := h n (reversed_reverse hs) hn
  refine ⟨s', by rw [hadvance, length_reverse], ?_⟩
  rwa [Reversed, reverse_drop, reverse_reverse, length_reverse] at hs'

theorem IsTryFold.back {try_fold : (A → T → Except B A) → A → σ → Option (Except B A × σ)}
    (h : IsTryFold (Reversed R) try_fold) (f : A → T → Except B A) (a : A) (hs : R s l) :
    Yields R (try_fold f a s) (tryFold f a l.reverse).1 (tryFold f a l.reverse).2.reverse :=
  h f a (reversed_reverse hs)

theorem IsFold.back {fold : (A → T → A) → A → σ → Option A} (h : IsFold (Reversed R) fold)
    (f : A → T → A) (a : A) (hs : R s l) : fold f a s = some (l.reverse.foldl f a) :=
  h f a (reversed_reverse hs)

theorem isTryFold_reversed {try_fold : (A → T → Except B A) → A → σ → Option (Except B A × σ)}
    (h : ∀ (f : A → T → Except B A) (a : A) ⦃s l⦄, R s l →
      Yields R (try_fold f a s) (tryFold f a l.reverse).1 (tryFold f a l.reverse).2.reverse) :
    IsTryFold (Reversed R) try_fold := by
  intro f a s l hs
  obtain ⟨s', hfold, hs'⟩ := h f a hs
  rw [reverse_reverse] at hfold hs'
  exact ⟨s', hfold, hs'⟩

theorem isFold_reversed {fold : (A → T → A) → A → σ → Option A}
    (h : ∀ (f : A → T → A) (a : A) ⦃s l⦄, R s l → fold f a s = some (l.reverse.foldl f a)) :
    IsFold (Reversed R) fold := by
  intro f a s l hs
  rw [h f a hs, reverse_reverse]

/-- An exact size is a `usize`. -/
theorem ExactSize.length_le {size_hint : σ → ℕ × Option ℕ} (h : ExactSize R size_hint)
    (hvalid : ∀ ⦃s l⦄, R s l → ValidHint usizeMax (size_hint s) l.length) ⦃s : σ⦄ ⦃l : List T⦄
    (hs : R s l) : l.length ≤ usizeMax := by
  have hle := (hvalid hs).lower_le
  rwa [h hs] at hle

/-- A fold whose function never stops. -/
theorem tryFold_never_stops (f : A → T → A) (a : A) (l : List T) :
    tryFold (B := B) (fun a x => .ok (f a x)) a l = (.ok (l.foldl f a), []) := by
  induction l generalizing a with
  | nil => rfl
  | cons x l ih => exact ih (f a x)

theorem tryFold_length_le (f : A → T → Except B A) (a : A) (l : List T) :
    (tryFold f a l).2.length ≤ l.length := by
  induction l generalizing a with
  | nil => exact Nat.le_refl _
  | cons x l ih =>
    rw [tryFold]
    cases f a x with
    | ok a => exact Nat.le_trans (ih a) (Nat.le_succ _)
    | error b => exact Nat.le_succ _

/-- The states whose lists have no more than `k` elements. -/
def Bounded (k : ℕ) (R : σ → List T → Prop) (s : σ) (l : List T) : Prop := R s l ∧ l.length ≤ k

theorem Sweep.Lawful.bounded {w : Sweep σ T} (h : w.Lawful usizeMax R) (k : ℕ) :
    w.Lawful usizeMax (Bounded k R) where
  next s l hs := by
    obtain ⟨s', hnext, hs'⟩ := h.next hs.1
    exact ⟨s', hnext, hs', by rw [length_tail]; exact Nat.le_trans (Nat.sub_le _ _) hs.2⟩
  nth s l n hs hn := by
    obtain ⟨s', hnth, hs'⟩ := h.nth n hs.1 hn
    exact ⟨s', hnth, hs', by rw [length_drop]; exact Nat.le_trans (Nat.sub_le _ _) hs.2⟩
  advance_by s l n hs hn := by
    obtain ⟨s', hadvance, hs'⟩ := h.advance_by n hs.1 hn
    exact ⟨s', hadvance, hs', by rw [length_drop]; exact Nat.le_trans (Nat.sub_le _ _) hs.2⟩
  try_fold f a s l hs := by
    obtain ⟨s', hfold, hs'⟩ := h.try_fold f a hs.1
    exact ⟨s', hfold, hs', Nat.le_trans (tryFold_length_le f a l) hs.2⟩
  fold f a _ _ hs := h.fold f a hs.1

theorem reversed_bounded (k : ℕ) (R : σ → List T → Prop) :
    Reversed (Bounded k R) = Bounded k (Reversed R) := by
  funext s l
  rw [Reversed, Bounded, Bounded, Reversed, length_reverse]

theorem Iterator.Lawful.bounded {it : Iterator σ T} (h : it.Lawful usizeMax R) (k : ℕ) :
    it.Lawful usizeMax (Bounded k R) where
  front := h.front.bounded k
  size_hint _ _ hs := h.size_hint hs.1
  count _ _ hs hlen := h.count hs.1 hlen
  last _ _ hs := h.last hs.1

end RustStd
