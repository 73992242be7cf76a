import RustStd.Str.StrSearch

/-!
# Searching for the empty string

A `StrSearcher` with an `EmptyNeedle` matches at every char boundary, and rejects every char between
two of them: `empty_forward_spec` and `empty_backward_spec`.
-/

namespace RustStd.StrSearcher

open Utf8 List Nat Bool

variable {t : Target} {haystack needle : Str t}

/-! ## The boundaries ahead -/

section Boundaries

variable {h : List UInt8} {p q : ℕ}

def boundariesFrom (h : List UInt8) (p : ℕ) : List (ℕ × ℕ) :=
  ((range' p (h.length + 1 - p)).filter (is_char_boundary h)).map fun i => (i, i)

def boundariesBelow (h : List UInt8) (p : ℕ) : List (ℕ × ℕ) :=
  (((range p).filter (is_char_boundary h)).map fun i => (i, i)).reverse

theorem boundaries_eq_from (h : List UInt8) : boundaries h = boundariesFrom h 0 := by
  rw [boundaries, boundariesFrom, range_eq_range', Nat.sub_zero]

theorem boundariesFrom_cons (hp : is_char_boundary h p = true) :
    boundariesFrom h p = (p, p) :: boundariesFrom h (p + 1) := by
  have hle := le_of_is_char_boundary hp
  rw [boundariesFrom, boundariesFrom, show h.length + 1 - p = h.length + 1 - (p + 1) + 1 by lia,
    range'_succ, filter_cons_of_pos hp, map_cons]

theorem boundariesFrom_of_lt (hp : h.length < p) : boundariesFrom h p = [] := by
  rw [boundariesFrom, show h.length + 1 - p = 0 by lia]
  rfl

theorem boundariesFrom_skip (hpq : p ≤ q)
    (hnone : ∀ j, p ≤ j → j < q → ¬ is_char_boundary h j = true) :
    boundariesFrom h p = boundariesFrom h q := by
  induction q, hpq using le_induction with
  | base => rfl
  | succ q hpq ih =>
    rw [ih fun j hj hlt => hnone j hj (by lia)]
    rcases lt_or_ge h.length q with hlt | hge
    · rw [boundariesFrom_of_lt hlt, boundariesFrom_of_lt (by lia)]
    · rw [boundariesFrom, boundariesFrom,
        show h.length + 1 - q = h.length + 1 - (q + 1) + 1 by lia, range'_succ,
        filter_cons_of_neg (hnone q hpq (lt_succ_self q))]

theorem boundariesBelow_cons (hp : is_char_boundary h p = true) :
    boundariesBelow h (p + 1) = (p, p) :: boundariesBelow h p := by
  rw [boundariesBelow, range_succ, filter_append, filter_singleton, hp, map_append, reverse_append]
  rfl

theorem boundariesBelow_skip (hpq : p ≤ q)
    (hnone : ∀ j, p ≤ j → j < q → ¬ is_char_boundary h j = true) :
    boundariesBelow h q = boundariesBelow h p := by
  induction q, hpq using le_induction with
  | base => rfl
  | succ q hpq ih =>
    have hq := not_eq_true _ ▸ hnone q hpq (lt_succ_self q)
    rw [← ih fun j hj hlt => hnone j hj (by lia), boundariesBelow, range_succ,
      filter_append, filter_singleton, hq]
    exact congrArg reverse (congrArg _ (append_nil _))

end Boundaries

/-! ## Forwards -/

/-- The searcher stands at `p`, with the boundaries `l` ahead of it. -/
def EmptyForwardAt (haystack needle : Str t) (self : StrSearcher t) (p : ℕ)
    (l : List (ℕ × ℕ)) : Prop :=
  ∃ searcher, self = ⟨haystack, needle, .Empty searcher⟩ ∧ searcher.position = p ∧
    is_char_boundary haystack.bytes p = true ∧
    if searcher.is_finished then l = [] ∧ p = haystack.bytes.length
    else l = boundariesFrom haystack.bytes (if searcher.is_match_fw then p else p + 1)

variable {l : List (ℕ × ℕ)} {self : StrSearcher t}

/-- An empty needle matches at each char boundary once. -/
theorem next_emptyForwardAt {p : ℕ}
    (h : EmptyForwardAt haystack needle self p l) :
    ∃ r, self.next = some r ∧
      Searcher.StepOk .forward (is_char_boundary haystack.bytes) haystack.bytes.length
        (stepsLeft .forward) (EmptyForwardAt haystack needle) self p l r := by
  obtain ⟨⟨p, end_, fw, bw, fin⟩, rfl, rfl, hbound, hl⟩ := id h
  have hcard := t.two_mul_isizeMax
  have hlen := haystack.len_le
  have hle := le_of_is_char_boundary hbound
  simp only at hbound hl hle ⊢
  simp only [next]
  cases fin with
  | true =>
    obtain ⟨rfl, hp⟩ := hl
    exact ⟨_, rfl, rfl, hp, h⟩
  | false =>
    simp only [Bool.false_eq_true, if_false] at hl ⊢
    rw [sliceFrom, if_pos hbound, some_bind]
    rcases Nat.eq_or_lt_of_le hle with rfl | hlt
    · -- at the end
      rw [drop_length, Chars.next_nil]
      cases fw with
      | true =>
        rw [if_pos rfl, boundariesFrom_cons hbound] at hl
        refine ⟨_, rfl, le_rfl, hbound, hbound, rfl, _, hl, ⟨_, rfl, rfl, hbound, rfl⟩, ?_⟩
        simp [stepsLeft]
      | false =>
        rw [if_neg Bool.false_ne_true, boundariesFrom_of_lt (Nat.lt_succ_self _)] at hl
        exact ⟨_, rfl, hl, rfl, _, rfl, rfl, hbound, hl, rfl⟩
    · obtain ⟨c, hc, hnext, hskip⟩ := Chars.next_drop haystack.valid hbound hlt
      rw [hc]
      cases fw with
      | true =>
        rw [if_pos rfl, boundariesFrom_cons hbound] at hl
        refine ⟨_, rfl, le_rfl, hbound, hbound, rfl, _, hl, ⟨_, rfl, rfl, hbound, rfl⟩, ?_⟩
        simp [stepsLeft]
      | false =>
        have hpos := len_utf8_pos c
        have hle' := le_of_is_char_boundary hnext
        rw [if_neg Bool.false_ne_true, boundariesFrom_skip (Nat.add_le_add_left hpos p)
          (fun j hj hjlt => hskip j hj hjlt)] at hl
        simp only [some_bind]
        rw [Target.checkedAdd_eq (by lia)]
        refine ⟨_, rfl, Nat.le_add_right _ _, hbound, hnext, rfl, ⟨_, rfl, rfl, hnext, hl⟩, ?_⟩
        simp only [stepsLeft, Bool.not_false, Bool.toNat_true, Bool.toNat_false]
        lia

/-! ## Backwards -/

/-- The searcher stands at `p`, with the boundaries `l` ahead of it. -/
def EmptyBackwardAt (haystack needle : Str t) (self : StrSearcher t) (p : ℕ)
    (l : List (ℕ × ℕ)) : Prop :=
  ∃ searcher, self = ⟨haystack, needle, .Empty searcher⟩ ∧ searcher.end_ = p ∧
    is_char_boundary haystack.bytes p = true ∧
    if searcher.is_finished then l = [] ∧ p = 0
    else l = boundariesBelow haystack.bytes (if searcher.is_match_bw then p + 1 else p)

theorem next_emptyBackwardAt {p : ℕ}
    (h : EmptyBackwardAt haystack needle self p l) :
    ∃ r, self.next_back = some r ∧
      Searcher.StepOk .backward (is_char_boundary haystack.bytes) haystack.bytes.length
        (stepsLeft .backward) (EmptyBackwardAt haystack needle) self p l r := by
  obtain ⟨⟨position, p, fw, bw, fin⟩, rfl, rfl, hbound, hl⟩ := id h
  have hle := le_of_is_char_boundary hbound
  simp only at hbound hl hle ⊢
  simp only [next_back]
  cases fin with
  | true =>
    obtain ⟨rfl, hp⟩ := hl
    exact ⟨_, rfl, rfl, hp, h⟩
  | false =>
    simp only [Bool.false_eq_true, if_false] at hl ⊢
    rw [sliceTo, if_pos hbound, some_bind]
    rcases Nat.eq_zero_or_pos p with rfl | h0
    · -- at the start
      rw [take_zero, Chars.next_back_nil]
      cases bw with
      | true =>
        rw [if_pos rfl, boundariesBelow_cons hbound] at hl
        refine ⟨_, rfl, le_rfl, hbound, hbound, rfl, _, hl, ⟨_, rfl, rfl, hbound, rfl⟩, ?_⟩
        simp [stepsLeft]
      | false => exact ⟨_, rfl, hl, rfl, _, rfl, rfl, hbound, hl, rfl⟩
    · obtain ⟨c, hc, hcle, hnext, hskip⟩ := Chars.next_back_take haystack.valid hbound h0
      rw [hc]
      cases bw with
      | true =>
        rw [if_pos rfl, boundariesBelow_cons hbound] at hl
        refine ⟨_, rfl, le_rfl, hbound, hbound, rfl, _, hl, ⟨_, rfl, rfl, hbound, rfl⟩, ?_⟩
        simp [stepsLeft]
      | false =>
        have hpos := len_utf8_pos c
        rw [if_neg Bool.false_ne_true, boundariesBelow_skip (p := p - len_utf8 c + 1) (by lia)
          (fun j hj hjlt => hskip j hj hjlt)] at hl
        simp only [some_bind, checkedSub, if_pos hcle]
        refine ⟨_, rfl, Nat.sub_le _ _, hnext, hbound, rfl, ⟨_, rfl, rfl, hnext, hl⟩, ?_⟩
        simp only [stepsLeft, Bool.not_false, Bool.toNat_true, Bool.toNat_false]
        lia

/-! ## Matches among the steps -/

/-- **Looking for a match among the steps** returns the first one ahead. -/
theorem matchTurn_loop {next : StrSearcher t → Option (StrSearcher t × SearchStep)} {d : Dir}
    {boundary : ℕ → Bool} {len : ℕ} {measure : StrSearcher t → ℕ}
    {At : StrSearcher t → ℕ → List (ℕ × ℕ) → Prop}
    (hnext : ∀ {s p l}, At s p l → ∃ r, next s = some r ∧
      Searcher.StepOk d boundary len measure At s p l r)
    {n : ℕ} {p : ℕ} (h : At self p l)
    (hn : measure self < n) :
    ∃ r, runLoop (matchTurn next) n self = some r ∧ Searcher.MatchOk d len At l r := by
  refine runLoop_spec _ (fun s => ∃ p, At s p l) measure _ (fun s ⟨p, hs⟩ => ?_) _ _ ⟨p, h⟩ hn
  obtain ⟨⟨s', step⟩, heq, hstep⟩ := hnext hs
  rw [matchTurn, heq]
  cases step with
  | Match a b =>
    obtain ⟨-, -, -, -, l', hl, hat, -⟩ := hstep
    exact ⟨l', hl, hat⟩
  | Reject a b =>
    obtain ⟨-, -, -, -, hat, hlt⟩ := hstep
    exact ⟨⟨_, hat⟩, hlt⟩
  | Done =>
    obtain ⟨rfl, rfl, hat⟩ := hstep
    exact ⟨rfl, hat⟩

/-- **Searching forwards for the empty string.** -/
theorem empty_forward_spec :
    (from_ t .forward).Spec (is_char_boundary haystack.bytes) haystack.bytes.length
      (stepsLeft .forward) (EmptyForwardAt haystack needle) where
  next h := next_emptyForwardAt h
  next_match h := by
    obtain ⟨s, rfl, rfl, -⟩ := id h
    refine matchTurn_loop next_emptyForwardAt h ?_
    have := s.is_match_fw.toNat_le
    simp only [stepsLeft]
    lia

/-- **Searching backwards for the empty string.** -/
theorem empty_backward_spec :
    (from_ t .backward).Spec (is_char_boundary haystack.bytes) haystack.bytes.length
      (stepsLeft .backward) (EmptyBackwardAt haystack needle) where
  next h := next_emptyBackwardAt h
  next_match h := by
    obtain ⟨s, rfl, rfl, hbound, -⟩ := id h
    refine matchTurn_loop next_emptyBackwardAt h ?_
    have := s.is_match_bw.toNat_le
    have := le_of_is_char_boundary hbound
    simp only [stepsLeft]
    lia

end RustStd.StrSearcher
