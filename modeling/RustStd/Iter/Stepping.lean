import RustStd.Iter.StepBy

/-!
# The elements a step apart

`StepBy` over an iterator that stands for `l` stands for every `step`-th element of `l`. Before the
first element the next one is at the front of `l`, after it `step - 1` elements away; from the back
the distance to it follows from the length (`next_back_index_spec`).
-/

namespace RustStd.Iter

open Provided StepBy List Nat

variable {σ T A B : Type} {R : σ → List T → Prop} {usizeMax turns gap k n : ℕ}
  {it : DoubleEndedIterator σ T} {s : StepBy σ} {iter : σ} {l m : List T}

/-! ## From the front -/

/-- The number of elements in front of the next one. -/
def StepBy.offset (self : StepBy σ) : ℕ := if self.first_take then 0 else self.step_minus_one

/-- Over `l`, the adapter stands for `m`. -/
structure StepBy.Over (R : σ → List T → Prop) (usizeMax turns : ℕ) (s : StepBy σ) (l m : List T) :
    Prop where
  iter : R s.iter l
  turns : l.length < turns
  step : s.step_minus_one < usizeMax
  eq : m = strided s.step_minus_one s.offset l

def StepBy.Stands (R : σ → List T → Prop) (usizeMax turns : ℕ) (s : StepBy σ) (m : List T) : Prop :=
  ∃ l, Over R usizeMax turns s l m

/-- An iterator of which every element after `gap` others is to be taken. -/
def Gapped (R : σ → List T → Prop) (turns gap : ℕ) (iter : σ) (m : List T) : Prop :=
  ∃ l, R iter l ∧ l.length < turns ∧ m = strided gap gap l

theorem StepBy.offset_le (s : StepBy σ) : s.offset ≤ s.step_minus_one := by
  rw [offset]
  split
  · exact zero_le _
  · exact le_refl _

theorem StepBy.Over.length_lt (h : Over R usizeMax turns s l m) : m.length < turns := by
  rw [h.eq]
  exact (length_strided_le _ _ l).trans_lt h.turns

/-- The iterator after some elements from the front. -/
theorem StepBy.Over.drop (h : Over R usizeMax turns s l m) (n : ℕ)
    (hiter : R iter (l.drop (s.offset + n * (s.step_minus_one + 1) + 1))) :
    Stands R usizeMax turns { s with iter, first_take := false } (m.drop (n + 1)) := by
  refine ⟨_, hiter, ?_, h.step, ?_⟩
  · rw [length_drop]
    have := h.turns
    omega
  · rw [h.eq, drop_strided]
    rfl

theorem StepBy.Over.tail (h : Over R usizeMax turns s l m)
    (hiter : R iter (l.drop (s.offset + 1))) :
    Stands R usizeMax turns { s with iter, first_take := false } m.tail := by
  rw [← drop_one]
  apply h.drop 0
  rwa [zero_mul, add_zero]

theorem gapped_next (h : it.front.Lawful usizeMax R) (hgap : gap ≤ usizeMax) :
    IsNext (Gapped R turns gap) fun iter => it.front.nth iter gap := by
  rintro iter _ ⟨l, hl, hlen, rfl⟩
  obtain ⟨iter', hnth, hl'⟩ := h.nth gap hl hgap
  refine ⟨iter', ?_, _, hl', ?_, tail_strided gap gap l⟩
  · dsimp only
    rw [hnth, head?_strided]
  · rw [length_drop]
    omega

theorem StepBy.Stands.gapped (h : Stands R usizeMax turns s m) (hfirst : s.first_take = false) :
    Gapped R turns s.step_minus_one s.iter m := by
  obtain ⟨l, h⟩ := h
  refine ⟨l, h.iter, h.turns, ?_⟩
  rw [h.eq, offset, hfirst]
  rfl

/-- An adapter past its first element. -/
theorem Gapped.stands (h : Gapped R turns s.step_minus_one iter m) (hfirst : s.first_take = false)
    (hstep : s.step_minus_one < usizeMax) : Stands R usizeMax turns { s with iter } m := by
  obtain ⟨l, hl, hlen, hm⟩ := h
  refine ⟨l, hl, hlen, hstep, ?_⟩
  rw [hm, offset, hfirst]
  rfl

theorem spec_next_spec (h : it.front.Lawful usizeMax R) :
    IsNext (Stands R usizeMax turns) (spec_next it) := by
  rintro s m ⟨l, hs⟩
  have hle : s.offset ≤ usizeMax := s.offset_le.trans hs.step.le
  obtain ⟨iter, hnth, hiter⟩ := h.nth _ hs.iter hle
  refine ⟨_, ?_, hs.tail hiter⟩
  rw [spec_next, hs.eq, head?_strided]
  rw [offset] at hnth
  rw [hnth]
  rfl

/-- The loop of `nth` takes `n * step` elements, however large the product is. -/
theorem nth_loop_spec (h : it.front.Lawful usizeMax R) {step : ℕ} (hl : R iter l) (hn : 0 < n)
    (hnmax : n ≤ usizeMax) (hstep : 0 < step) (hstepmax : step ≤ usizeMax)
    (hturns : n + step ≤ turns) :
    Yields R (nth_loop usizeMax it turns n step iter) l[n * step - 1]? (l.drop (n * step)) := by
  have hchecked (a b : ℕ) (hb : b ≤ a) : checkedSub a b = some (a - b) := if_pos hb
  induction turns generalizing n step iter l with
  | zero => omega
  | succ turns ih =>
    rw [nth_loop]
    have hpos : 0 < n * step := Nat.mul_pos hn hstep
    by_cases hmul : n * step ≤ usizeMax
    · obtain ⟨iter', hnth, hl'⟩ := h.nth (n * step - 1) hl (by omega)
      rw [if_pos hmul, hchecked _ _ hpos]
      refine ⟨iter', hnth, ?_⟩
      rwa [show n * step - 1 + 1 = n * step by omega] at hl'
    rw [if_neg hmul]
    rw [Nat.not_le] at hmul
    by_cases hlarger : usizeMax / n * n > usizeMax / step * step
    · -- `step` gets smaller by the largest number whose product with `n` is no overflow.
      have hdiv : 0 < usizeMax / n := Nat.div_pos hnmax hn
      have hlt : usizeMax / n < step := (Nat.div_lt_iff_lt_mul hn).mpr (by rwa [Nat.mul_comm])
      have htake : usizeMax / n * n ≤ usizeMax := div_mul_le_self usizeMax n
      generalize usizeMax / n = d at hdiv hlt htake hlarger ⊢
      have hdn : 0 < d * n := Nat.mul_pos hdiv hn
      obtain ⟨r, rfl⟩ := Nat.exists_eq_add_of_lt hlt
      have hsplit : n * (d + r + 1) = d * n + n * (r + 1) := by
        rw [Nat.add_assoc, Nat.mul_add, Nat.mul_comm n d]
      obtain ⟨iter', hnth, hl'⟩ := h.nth (d * n - 1) hl (by omega)
      rw [show d * n - 1 + 1 = d * n by omega] at hl'
      rw [if_pos hlarger, hchecked _ _ hlt.le, hchecked _ _ hdn]
      simp only [some_bind, hnth]
      rw [show d + r + 1 - d = r + 1 by omega]
      obtain ⟨iter'', hloop, hl''⟩ := ih hl' hn hnmax (succ_pos r) (by omega) (by omega)
      refine ⟨iter'', ?_, ?_⟩
      · have := Nat.mul_pos hn (succ_pos r)
        rw [hloop, getElem?_drop, hsplit, Nat.add_sub_assoc (by omega)]
      · rwa [drop_drop, ← hsplit] at hl''
    · have hdiv : 0 < usizeMax / step := Nat.div_pos hstepmax hstep
      have hlt : usizeMax / step < n := (Nat.div_lt_iff_lt_mul hstep).mpr hmul
      have htake : usizeMax / step * step ≤ usizeMax := div_mul_le_self usizeMax step
      rw [if_neg hlarger]
      generalize usizeMax / step = d at hdiv hlt htake ⊢
      have hds : 0 < d * step := Nat.mul_pos hdiv hstep
      obtain ⟨r, rfl⟩ := Nat.exists_eq_add_of_lt hlt
      have hsplit : (d + r + 1) * step = d * step + (r + 1) * step := by
        rw [Nat.add_assoc, Nat.add_mul]
      obtain ⟨iter', hnth, hl'⟩ := h.nth (d * step - 1) hl (by omega)
      rw [show d * step - 1 + 1 = d * step by omega] at hl'
      rw [hchecked _ _ hlt.le, hchecked _ _ hds]
      simp only [some_bind, hnth]
      rw [show d + r + 1 - d = r + 1 by omega]
      obtain ⟨iter'', hloop, hl''⟩ :=
        ih hl' (succ_pos r) (by omega) hstep hstepmax (by omega)
      refine ⟨iter'', ?_, ?_⟩
      · have := Nat.mul_pos (succ_pos r) hstep
        rw [hloop, getElem?_drop, hsplit, Nat.add_sub_assoc (by omega)]
      · rwa [drop_drop, ← hsplit] at hl''

/-- The products of steps that overflow are taken in parts. -/
theorem nth_rest_spec (h : it.front.Lawful usizeMax R) (hs : Stands R usizeMax turns s m)
    (hfirst : s.first_take = false) (hn : n ≤ usizeMax) :
    Yields (Stands R usizeMax turns) (s.nth_rest usizeMax it n) m[n]? (m.drop (n + 1)) := by
  obtain ⟨l, hs⟩ := hs
  have hoffset : s.offset = s.step_minus_one := by
    rw [offset, hfirst]
    rfl
  have hpos : s.offset + n * (s.step_minus_one + 1) + 1 = (n + 1) * (s.step_minus_one + 1) := by
    rw [hoffset, succ_mul]
    omega
  have hitem : m[n]? = l[(n + 1) * (s.step_minus_one + 1) - 1]? := by
    rw [hs.eq, getElem?_strided, ← hpos, Nat.add_sub_cancel]
  -- The elements that the loop takes, after those of the extra turn.
  suffices hloop : ∀ (n' : ℕ) (iter : σ) (l' : List T), R iter l' → 0 < n' → n' ≤ usizeMax →
      l'[n' * s.original_step - 1]? = m[n]? →
      l'.drop (n' * s.original_step) = l.drop (s.offset + n * (s.step_minus_one + 1) + 1) →
      Yields (Stands R usizeMax turns)
        (do
          let p ← nth_loop usizeMax it (n' + s.original_step) n' s.original_step iter
          return (p.1, { s with iter := p.2 })) m[n]? (m.drop (n + 1)) by
    rw [nth_rest]
    by_cases hmax : n = usizeMax
    · have hone : checkedSub s.original_step 1 = some s.step_minus_one :=
        if_pos (succ_le_succ (zero_le _))
      obtain ⟨iter, hnth, hl⟩ := h.nth s.step_minus_one hs.iter hs.step.le
      have := hs.step
      rw [if_pos hmax, hone]
      simp only [some_bind, hnth]
      have hadd : s.step_minus_one + 1 + n * (s.step_minus_one + 1) =
          (n + 1) * (s.step_minus_one + 1) := by rw [succ_mul, add_comm]
      refine hloop n iter _ hl (by omega) hn ?_ ?_
      · have : 0 < n * (s.step_minus_one + 1) := Nat.mul_pos (by omega) (succ_pos _)
        rw [hitem, getElem?_drop, original_step, ← Nat.add_sub_assoc (by omega), hadd]
      · rw [drop_drop, original_step, hadd, hpos]
    · rw [if_neg hmax]
      exact hloop (n + 1) s.iter l hs.iter (succ_pos n) (by omega) hitem.symm
        (by rw [hpos, original_step])
  intro n' iter l' hl' hpos' hmax' hitem' hdrop'
  obtain ⟨iter', hloop, hiter'⟩ := nth_loop_spec h hl' hpos' hmax' (succ_pos s.step_minus_one)
    (show s.step_minus_one + 1 ≤ usizeMax from hs.step) (le_refl (n' + s.original_step))
  rw [original_step] at hitem' hdrop'
  rw [hitem'] at hloop
  rw [hdrop'] at hiter'
  have hstands := hs.drop n hiter'
  rw [← hfirst] at hstands
  exact ⟨_, by rw [original_step] at hloop ⊢; rw [hloop]; rfl, hstands⟩

/-- The first element is the next one of the iterator. -/
theorem StepBy.Stands.first (hs : Stands R usizeMax turns s m) (h : it.front.Lawful usizeMax R)
    (hfirst : s.first_take = true) :
    ∃ iter, it.front.next s.iter = some (m.head?, iter) ∧
      Stands R usizeMax turns { s with iter, first_take := false } m.tail := by
  obtain ⟨l, hs⟩ := hs
  have hoffset : s.offset = 0 := by
    rw [offset, hfirst]
    rfl
  obtain ⟨iter, hnext, hl⟩ := h.next hs.iter
  refine ⟨iter, ?_, hs.tail (by rwa [hoffset, zero_add, drop_one])⟩
  rw [hnext, hs.eq, head?_strided, hoffset, head?_eq_getElem?]

theorem spec_nth_spec (h : it.front.Lawful usizeMax R) :
    IsNth usizeMax (Stands R usizeMax turns) (spec_nth usizeMax it) := by
  intro s m n hs hn
  rw [spec_nth]
  by_cases hfirst : s.first_take = true
  · obtain ⟨iter, hnext, htail⟩ := hs.first h hfirst
    rw [if_pos hfirst, hnext]
    simp only [some_bind]
    cases n with
    | zero => exact ⟨_, by rw [head?_eq_getElem?]; rfl, by rwa [drop_one]⟩
    | succ n =>
      obtain ⟨s', hrest, hs'⟩ := nth_rest_spec h htail rfl (show n ≤ usizeMax by omega)
      refine ⟨s', ?_, by rwa [drop_tail] at hs'⟩
      rw [if_neg (succ_ne_zero n), Nat.add_sub_cancel, hrest, getElem?_tail]
  · rw [if_neg hfirst]
    exact nth_rest_spec h hs (by simpa using hfirst) hn

theorem try_fold_rest_spec (h : it.front.Lawful usizeMax R) (hs : Stands R usizeMax turns s m)
    (hfirst : s.first_take = false) (f : A → T → Except B A) (a : A) :
    Yields (Stands R usizeMax turns) (s.try_fold_rest turns it f a) (tryFold f a m).1
      (tryFold f a m).2 := by
  obtain ⟨l, hover⟩ := id hs
  obtain ⟨iter, hfold, hg⟩ :=
    try_fold_spec (gapped_next h hover.step.le) f a (hs.gapped hfirst) hover.length_lt
  refine ⟨_, ?_, hg.stands hfirst hover.step⟩
  rw [try_fold_rest, hfold]
  rfl

theorem spec_try_fold_spec (h : it.front.Lawful usizeMax R) :
    IsTryFold (A := A) (B := B) (Stands R usizeMax turns) (spec_try_fold turns it) := by
  intro f a s m hs
  rw [spec_try_fold]
  by_cases hfirst : s.first_take = true
  · obtain ⟨iter, hnext, htail⟩ := hs.first h hfirst
    rw [if_pos hfirst, hnext]
    cases m with
    | nil => exact ⟨_, rfl, htail⟩
    | cons x m =>
      rw [tryFold]
      simp only [head?_cons, some_bind]
      cases f a x with
      | ok a => exact try_fold_rest_spec h htail rfl f a
      | error b => exact ⟨_, rfl, htail⟩
  · rw [if_neg hfirst]
    exact try_fold_rest_spec h hs (by simpa using hfirst) f a

theorem spec_fold_spec (h : it.front.Lawful usizeMax R) :
    IsFold (A := A) (Stands R usizeMax turns) (spec_fold turns it) := by
  intro f a s m hs
  have hstep : s.step_minus_one ≤ usizeMax := by
    obtain ⟨l, hover⟩ := hs
    exact hover.step.le
  have hlen : m.length < turns := by
    obtain ⟨l, hover⟩ := hs
    exact hover.length_lt
  rw [spec_fold]
  by_cases hfirst : s.first_take = true
  · obtain ⟨iter, hnext, htail⟩ := hs.first h hfirst
    rw [if_pos hfirst, hnext]
    cases m with
    | nil => rfl
    | cons x m =>
      exact fold_spec (gapped_next h hstep) f (f a x) (htail.gapped rfl)
        (lt_of_succ_lt hlen)
  · rw [if_neg hfirst]
    exact fold_spec (gapped_next h hstep) f a (hs.gapped (by simpa using hfirst)) hlen

/-! ## Size hints -/

theorem StepBy.Over.length_eq (h : Over R usizeMax turns s l m) :
    m.length = if s.first_take then first_size s.original_step l.length
      else other_size s.original_step l.length := by
  rw [h.eq, length_strided s.offset_le, offset, first_size, other_size, original_step]
  cases s.first_take with
  | false => simp
  | true =>
    simp only [if_true, Nat.sub_zero]
    split
    · next hzero => rw [hzero, Nat.zero_add, div_eq_of_lt (lt_succ_self _)]
    · next hpos =>
      rw [show l.length + s.step_minus_one = l.length - 1 + (s.step_minus_one + 1) by omega,
        add_div_right _ (succ_pos _), Nat.add_comm]

theorem first_size_mono (step : ℕ) {a b : ℕ} (h : a ≤ b) :
    first_size step a ≤ first_size step b := by
  rw [first_size, first_size]
  split
  · exact zero_le _
  · rw [if_neg (by omega)]
    exact Nat.add_le_add_left (Nat.div_le_div_right (by omega)) 1

theorem first_size_le (step n : ℕ) : first_size step n ≤ n := by
  rw [first_size]
  split
  · exact zero_le _
  · have := div_le_self (n - 1) step
    omega

theorem spec_size_hint_spec (h : it.toIterator.Lawful usizeMax R)
    (hs : Stands R usizeMax turns s m) :
    ValidHint usizeMax (spec_size_hint it s) m.length := by
  obtain ⟨l, hs⟩ := hs
  have hhint := h.size_hint hs.iter
  -- A size function that is monotone and makes nothing larger.
  suffices hsize : ∀ g : ℕ → ℕ, (∀ a b, a ≤ b → g a ≤ g b) → (∀ a, g a ≤ a) →
      ValidHint usizeMax (g (it.size_hint s.iter).1, (it.size_hint s.iter).2.map g)
        (g l.length) by
    rw [spec_size_hint, hs.length_eq]
    dsimp only
    split
    · exact hsize _ (fun a b => first_size_mono _) (first_size_le _)
    · exact hsize _ (fun a b => Nat.div_le_div_right) fun a => Nat.div_le_self a _
  intro g hmono hle
  refine ⟨hmono _ _ hhint.lower, (hle _).trans hhint.lower_le, fun hi hhi => ?_, fun hi hhi => ?_⟩
  · obtain ⟨hi', hhi', rfl⟩ := Option.map_eq_some_iff.mp hhi
    exact hmono _ _ (hhint.upper hi' hhi')
  · obtain ⟨hi', hhi', rfl⟩ := Option.map_eq_some_iff.mp hhi
    exact (hle hi').trans (hhint.upper_le hi' hhi')

theorem spec_size_hint_exact (h : ExactSize R it.size_hint) :
    ExactSize (Stands R usizeMax turns) (spec_size_hint it) := by
  rintro s m ⟨l, hs⟩
  rw [spec_size_hint, h hs.iter, hs.length_eq]
  dsimp only
  split <;> rfl

/-! ## From the back -/

section Back

variable (h : it.Lawful usizeMax R) (hexact : ExactSize R it.size_hint)

include h hexact in
theorem length_le_of_exact (hl : R iter l) : l.length ≤ usizeMax := by
  have := (h.size_hint hl).lower_le
  rwa [hexact hl] at this

variable (hs : Over R usizeMax turns s l m)
include hs

include hexact in
theorem next_back_index_spec :
    s.next_back_index it = some (backOffset s.step_minus_one s.offset l.length) := by
  rw [next_back_index, len_spec hexact hs.iter, backOffset, offset, original_step]
  simp only [some_bind]
  cases s.first_take with
  | false => simp
  | true =>
    have hdiv := Nat.div_add_mod l.length (s.step_minus_one + 1)
    have hmod := Nat.mod_lt l.length (Nat.succ_pos s.step_minus_one)
    simp only [if_true, Nat.sub_zero]
    generalize l.length % (s.step_minus_one + 1) = r at hdiv hmod ⊢
    generalize l.length / (s.step_minus_one + 1) = q at hdiv
    split
    · next hzero =>
      rw [← hdiv, hzero, Nat.add_zero, Nat.add_comm, Nat.add_mul_mod_self_left,
        Nat.mod_eq_of_lt (Nat.lt_succ_self _)]
      rfl
    · next hpos =>
      rw [← hdiv, show (s.step_minus_one + 1) * q + r + s.step_minus_one =
        (r - 1) + (s.step_minus_one + 1) * (q + 1) by rw [Nat.mul_succ]; omega,
        Nat.add_mul_mod_self_left, Nat.mod_eq_of_lt (by omega), checkedSub, if_pos (by omega)]

/-- The iterator after some elements from the back. -/
theorem StepBy.Over.dropBack (n : ℕ) (iter : σ) (hiter : R iter (l.reverse.drop
      (backOffset s.step_minus_one s.offset l.length + n * (s.step_minus_one + 1) + 1)).reverse) :
    Stands R usizeMax turns { s with iter } (m.reverse.drop (n + 1)).reverse := by
  refine ⟨_, hiter, ?_, hs.step, ?_⟩
  · rw [length_reverse, length_drop, length_reverse]
    have := hs.turns
    omega
  · rw [hs.eq, ← strided_dropBack s.offset_le]
    rfl

/-- The elements from the back, by their places in the list. -/
theorem StepBy.Over.getElem?_reverse (n : ℕ) :
    m.reverse[n]? = l.reverse[backOffset s.step_minus_one s.offset l.length +
      n * (s.step_minus_one + 1)]? := by
  rw [hs.eq, reverse_strided s.offset_le, getElem?_strided]

omit hs

include h hexact in
theorem spec_nth_back_spec :
    IsNth usizeMax (Reversed (Stands R usizeMax turns)) (spec_nth_back usizeMax it) := by
  rintro s m n ⟨l, hs⟩ hn
  have hmax := length_le_of_exact h hexact hs.iter
  have hrev : Reversed R s.iter l.reverse := by
    rw [Reversed, reverse_reverse]
    exact hs.iter
  have hget := hs.getElem?_reverse n
  have hdrop := hs.dropBack n
  rw [reverse_reverse] at hget hdrop
  rw [spec_nth_back, next_back_index_spec hexact hs]
  simp only [some_bind]
  rw [original_step, hget]
  generalize backOffset s.step_minus_one s.offset l.length = b at hdrop ⊢
  generalize n * (s.step_minus_one + 1) = p at hdrop ⊢
  -- A position past the largest `usize` is past the end.
  by_cases hle : p + b ≤ usizeMax
  · obtain ⟨iter, hnth, hl⟩ := h.back.nth (b + p) hrev (by omega)
    rw [show min (min p usizeMax + b) usizeMax = b + p by omega, hnth]
    exact ⟨_, rfl, hdrop iter hl⟩
  obtain ⟨iter, hnth, hl⟩ := h.back.nth usizeMax hrev (le_refl _)
  rw [show min (min p usizeMax + b) usizeMax = usizeMax by omega, hnth]
  refine ⟨_, ?_, hdrop iter ?_⟩
  · rw [getElem?_eq_none (by rw [length_reverse]; omega),
      getElem?_eq_none (by rw [length_reverse]; omega)]
    rfl
  · rw [drop_eq_nil_of_le (by rw [length_reverse]; omega)] at hl ⊢
    exact hl

/-- An iterator of which every element after `gap` others from the back is to be taken, down to the
one at the offset `k`. -/
def GappedBack (R : σ → List T → Prop) (turns gap k : ℕ) (iter : σ) (m : List T) : Prop :=
  ∃ l, R iter l ∧ l.length < turns ∧ m.reverse = strided gap k l ∧
    (l = [] ∨ backOffset gap k l.length = gap)

theorem dropBack_settled (hk : k ≤ gap) (n : ℕ) (l : List T) :
    (l.reverse.drop (backOffset gap k l.length + n * (gap + 1) + 1)).reverse = [] ∨ backOffset gap k
        (l.reverse.drop (backOffset gap k l.length + n * (gap + 1) + 1)).reverse.length = gap := by
  obtain hle | hlt := lt_or_ge l.length (backOffset gap k l.length + n * (gap + 1) + 1)
  · left
    rw [drop_eq_nil_of_le (by rw [length_reverse]; omega), reverse_nil]
  · right
    rw [length_reverse, length_drop, length_reverse]
    exact backOffset_sub hk hlt

theorem GappedBack.dropBack (hk : k ≤ gap) (hlen : l.length < turns)
    (hm : m.reverse = strided gap k l)
    (hiter : R iter (l.reverse.drop (backOffset gap k l.length + 1)).reverse) :
    GappedBack R turns gap k iter m.tail := by
  have hdrop := strided_dropBack hk 0 l
  have hsettled := dropBack_settled hk 0 l
  rw [zero_mul, add_zero] at hdrop hsettled
  refine ⟨_, hiter, ?_, ?_, hsettled⟩
  · rw [length_reverse, length_drop, length_reverse]
    omega
  · rw [hdrop, ← hm, reverse_reverse, drop_one]

theorem gappedBack_next (h : it.Lawful usizeMax R) (hk : k ≤ gap) (hgap : gap ≤ usizeMax) :
    IsNext (GappedBack R turns gap k) fun iter => it.back.nth iter gap := by
  rintro iter m ⟨l, hl, hlen, hm, hsettled⟩
  have hrev : Reversed R iter l.reverse := by rwa [Reversed, reverse_reverse]
  obtain ⟨iter', hnth, hl'⟩ := h.back.nth gap hrev hgap
  dsimp only
  rw [hnth]
  obtain rfl | hsettled := hsettled
  · have hnil : m = [] := by simpa using hm
    subst hnil
    exact ⟨iter', by simp, [], by simpa [Reversed] using hl', hlen, by simp, .inl rfl⟩
  · refine ⟨iter', ?_, GappedBack.dropBack hk hlen hm (by rwa [hsettled])⟩
    rw [← reverse_reverse m, hm, reverse_strided hk, head?_strided, hsettled]

/-- An adapter after its first element from the back. -/
theorem GappedBack.stands (hg : GappedBack R turns s.step_minus_one s.offset iter m)
    (hstep : s.step_minus_one < usizeMax) :
    Reversed (Stands R usizeMax turns) { s with iter } m := by
  obtain ⟨l, hl, hlen, hm, -⟩ := hg
  exact ⟨l, hl, hlen, hstep, hm⟩

include h hexact in
theorem spec_next_back_gapped (hs : Over R usizeMax turns s l m.reverse) :
    ∃ iter, spec_next_back it s = some (m.head?, { s with iter }) ∧
      GappedBack R turns s.step_minus_one s.offset iter m.tail := by
  have hrev : Reversed R s.iter l.reverse := by
    rw [Reversed, reverse_reverse]
    exact hs.iter
  have hmod : backOffset s.step_minus_one s.offset l.length ≤ s.step_minus_one :=
    Nat.lt_succ_iff.mp (Nat.mod_lt _ (Nat.succ_pos _))
  obtain ⟨iter, hnth, hl⟩ := h.back.nth _ hrev (hmod.trans hs.step.le)
  have hget := hs.getElem?_reverse 0
  rw [reverse_reverse, zero_mul, add_zero, ← head?_eq_getElem?] at hget
  refine ⟨iter, ?_, GappedBack.dropBack s.offset_le hs.turns hs.eq hl⟩
  rw [spec_next_back, next_back_index_spec hexact hs, hget]
  simp only [some_bind, hnth]
  rfl

include h hexact in
theorem spec_next_back_spec : IsNext (Reversed (Stands R usizeMax turns)) (spec_next_back it) := by
  rintro s m ⟨l, hs⟩
  obtain ⟨iter, hnext, hg⟩ := spec_next_back_gapped h hexact hs
  exact ⟨_, hnext, hg.stands hs.step⟩

include h hexact in
theorem spec_try_rfold_spec :
    IsTryFold (A := A) (B := B) (Reversed (Stands R usizeMax turns)) (spec_try_rfold turns it) := by
  rintro f a s m ⟨l, hs⟩
  obtain ⟨iter, hnext, hg⟩ := spec_next_back_gapped h hexact hs
  rw [spec_try_rfold, hnext]
  cases m with
  | nil => exact ⟨_, rfl, hg.stands hs.step⟩
  | cons x m =>
    have hlen := hs.length_lt
    rw [tryFold]
    simp only [head?_cons, some_bind]
    cases f a x with
    | ok a =>
      rw [length_reverse] at hlen
      obtain ⟨iter', hfold, hg'⟩ :=
        try_fold_spec (gappedBack_next h s.offset_le hs.step.le) f a hg (lt_of_succ_lt hlen)
      dsimp only
      rw [hfold]
      exact ⟨_, rfl, hg'.stands hs.step⟩
    | error b => exact ⟨_, rfl, hg.stands hs.step⟩

include h hexact in
theorem spec_rfold_spec :
    IsFold (A := A) (Reversed (Stands R usizeMax turns)) (spec_rfold turns it) := by
  rintro f a s m ⟨l, hs⟩
  obtain ⟨iter, hnext, hg⟩ := spec_next_back_gapped h hexact hs
  rw [spec_rfold, hnext]
  cases m with
  | nil => rfl
  | cons x m =>
    have hlen := hs.length_lt
    rw [length_reverse] at hlen
    exact fold_spec (gappedBack_next h s.offset_le hs.step.le) f (f a x) hg
      (lt_of_succ_lt hlen)

end Back

/-! ## All methods -/

theorem step_by_front (h : it.front.Lawful usizeMax R) :
    (StepBy.iterator usizeMax turns it).front.Lawful usizeMax (Stands R usizeMax turns) where
  next := spec_next_spec h
  nth := spec_nth_spec h
  advance_by := advance_by_spec (spec_try_fold_spec h)
  try_fold := spec_try_fold_spec h
  fold := spec_fold_spec h

theorem step_by_iterator (h : it.toIterator.Lawful usizeMax R) :
    (StepBy.iterator usizeMax turns it).toIterator.Lawful usizeMax (Stands R usizeMax turns) where
  front := step_by_front h.front
  size_hint _ _ hs := spec_size_hint_spec h hs
  count _ _ hs hlen := count_spec (spec_fold_spec h.front) hs hlen
  last _ _ hs := last_spec (spec_fold_spec h.front) hs

theorem step_by_double_ended (h : it.Lawful usizeMax R) (hexact : ExactSize R it.size_hint) :
    (StepBy.iterator usizeMax turns it).Lawful usizeMax (Stands R usizeMax turns) where
  toLawful := step_by_iterator h.toLawful
  back :=
    { next := spec_next_back_spec h hexact
      nth := spec_nth_back_spec h hexact
      advance_by := advance_back_by_spec (spec_next_back_spec h hexact)
      try_fold := spec_try_rfold_spec h hexact
      fold := spec_rfold_spec h hexact }

end RustStd.Iter
