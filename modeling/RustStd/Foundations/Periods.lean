import Mathlib.Data.Fintype.Order
import Mathlib.Tactic.Linarith

/-!
# Periods, critical cuts and maximal suffixes

A word is a sequence `x : ℕ → α` of which the first `n` entries count. `p` is a period when entries
`p` apart are equal, and a local period at the cut `c` when those on the two sides of the cut are. A
cut is critical when its local periods are periods. `MaxSuffix.critical`: of the starts of the
greatest suffixes by an order of the letters and by the opposite order, the greater is a critical
cut, and below every period. `Candidate` is the invariant of the computation of a greatest suffix.
`Critical.not_occurs_after` and the lemmas beside it say where a word that matched partly at one
place of a text cannot occur.
-/

namespace RustStd.Periods

open Nat Function

variable {α : Type*} {x : ℕ → α}

/-- Entries `p` apart are equal. -/
def Period (x : ℕ → α) (n p : ℕ) : Prop := ∀ i, i + p < n → x i = x (i + p)

/-- Entries `r` apart on the two sides of the cut `c` are equal. -/
def LocalPeriod (x : ℕ → α) (n c r : ℕ) : Prop :=
  ∀ i, i < c → c ≤ i + r → i + r < n → x i = x (i + r)

/-- Every local period at the cut is a period. -/
def Critical (x : ℕ → α) (n c : ℕ) : Prop := ∀ r, 0 < r → LocalPeriod x n c r → Period x n r

/-- Entries `p` apart between `lo` and `hi` are equal. -/
def PeriodOn (x : ℕ → α) (lo hi p : ℕ) : Prop := ∀ i, lo ≤ i → i + p < hi → x i = x (i + p)

theorem Period.localPeriod {n p : ℕ} (h : Period x n p) (c : ℕ) :
    LocalPeriod x n c p := fun i _ _ hi => h i hi

/-- A word read backwards. -/
def reversed (x : ℕ → α) (n : ℕ) : ℕ → α := fun i => x (n - 1 - i)

theorem Period.reversed {n p : ℕ} (h : Period x n p) : Period (reversed x n) n p := by
  intro i hi
  have := h (n - 1 - (i + p)) (by lia)
  rw [show n - 1 - (i + p) + p = n - 1 - i by lia] at this
  exact this.symm

theorem reversed_reversed {n i : ℕ} (h : i < n) :
    Periods.reversed (Periods.reversed x n) n i = x i := by
  unfold Periods.reversed
  congr 1
  lia

/-- A critical cut of the word read backwards. -/
theorem Critical.of_reversed {n c : ℕ} (h : Critical (reversed x n) n c) :
    Critical x n (n - c) := by
  intro r hr hloc i hi
  have hrev : LocalPeriod (Periods.reversed x n) n c r := by
    intro j hj hcj hjn
    have := hloc (n - 1 - (j + r)) (by lia) (by lia) (by lia)
    rw [show n - 1 - (j + r) + r = n - 1 - j by lia] at this
    exact this.symm
  have := (h r hr hrev).reversed i hi
  rwa [reversed_reversed (by lia), reversed_reversed hi] at this

/-- Every entry of a word is one of its first period. -/
theorem Period.exists_lt {n p : ℕ} (h : Period x n p) (hp : 0 < p) {i : ℕ} (hi : i < n) :
    ∃ j < p, x j = x i := by
  induction i using Nat.strongRecOn with
  | ind i ih =>
    by_cases hip : i < p
    · exact ⟨i, hip, rfl⟩
    · obtain ⟨j, hj, heq⟩ := ih (i - p) (by lia) (by lia)
      have := h (i - p) (by lia)
      rw [show i - p + p = i by lia] at this
      exact ⟨j, hj, heq.trans this⟩

theorem PeriodOn.mul {lo hi p : ℕ} (h : PeriodOn x lo hi p) (k : ℕ) {i : ℕ}
    (hlo : lo ≤ i) (hhi : i + k * p < hi) : x i = x (i + k * p) := by
  induction k with
  | zero => rw [zero_mul, add_zero]
  | succ k ih =>
    rw [succ_mul] at hhi ⊢
    rw [ih (by lia), h (i + k * p) (by lia) (by lia), add_assoc]

/-! ## Comparing suffixes -/

/-- The suffix at `i` is less than the suffix at `j`, lexicographically by `lt`. -/
def SuffixLT (lt : α → α → Prop) (x : ℕ → α) (n i j : ℕ) : Prop :=
  ∃ e, (∀ d < e, x (i + d) = x (j + d)) ∧ j + e < n ∧
    (i + e = n ∨ i + e < n ∧ lt (x (i + e)) (x (j + e)))

/-- The suffix at `c` is greater than the others. -/
structure MaxSuffix (lt : α → α → Prop) (x : ℕ → α) (n c : ℕ) : Prop where
  lt_length : c < n
  greatest : ∀ i < n, i ≠ c → SuffixLT lt x n i c

variable {lt : α → α → Prop} [IsStrictTotalOrder α lt] {x : ℕ → α} {n : ℕ}

theorem SuffixLT.irrefl (i : ℕ) : ¬ SuffixLT lt x n i i := by
  rintro ⟨e, -, hn, hend | ⟨-, hlt⟩⟩
  · lia
  · exact irrefl_of lt _ hlt

theorem SuffixLT.trans {i j k : ℕ} (h : SuffixLT lt x n i j) (h' : SuffixLT lt x n j k) :
    SuffixLT lt x n i k := by
  obtain ⟨e, hag, hn, hless⟩ := h
  obtain ⟨e', hag', hn', hless'⟩ := h'
  rcases lt_trichotomy e e' with hlt | rfl | hgt
  · refine ⟨e, fun d hd => (hag d hd).trans (hag' d (by lia)), by lia, ?_⟩
    rw [← hag' e hlt]
    exact hless
  · obtain ⟨-, hlt'⟩ := hless'.resolve_left (by lia)
    exact ⟨e, fun d hd => (hag d hd).trans (hag' d hd), hn',
      hless.imp_right fun h => ⟨h.1, trans_of lt h.2 hlt'⟩⟩
  · obtain ⟨-, hlt'⟩ := hless'.resolve_left (by lia)
    refine ⟨e', fun d hd => (hag d (by lia)).trans (hag' d hd), hn', Or.inr ⟨?_, ?_⟩⟩
    · rcases hless with hend | ⟨hlt, -⟩ <;> lia
    · rw [hag e' hgt]
      exact hlt'

/-- When every other suffix is less than some suffix, the one left is the greatest. -/
theorem MaxSuffix.of_beaten {c : ℕ} (hc : c < n)
    (h : ∀ i < n, i ≠ c → ∃ j < n, SuffixLT lt x n i j) : MaxSuffix lt x n c := by
  let r : Fin n → Fin n → Prop := fun a b => SuffixLT lt x n b a
  have : IsTrans (Fin n) r := ⟨fun _ _ _ hab hbc => hbc.trans hab⟩
  have : Std.Irrefl r := ⟨fun a => SuffixLT.irrefl a.1⟩
  -- upwards along the suffixes that are greater
  have key : ∀ a : Fin n, a.1 ≠ c → SuffixLT lt x n a c := by
    intro a
    induction a using (Finite.wellFounded_of_trans_of_irrefl r).induction with
    | _ a ih =>
      intro hne
      obtain ⟨j, hj, hlt⟩ := h a a.2 hne
      by_cases hjc : j = c
      · rwa [hjc] at hlt
      · exact hlt.trans (ih ⟨j, hj⟩ hlt hjc)
  exact ⟨hc, fun i hi => key ⟨i, hi⟩⟩

/-! ## Critical cuts -/

/-- No repetition fits before the start of a greatest suffix. -/
theorem MaxSuffix.lt_of_localPeriod {c r : ℕ} (h : MaxSuffix lt x n c) (hr : 0 < r)
    (hloc : LocalPeriod x n c r) : c < r := by
  by_contra hle
  obtain ⟨e, hag, hn, hless⟩ := h.greatest (c - r) (by have := h.lt_length; lia) (by lia)
  have hsame : ∀ d, d < r → c + d < n → x (c - r + d) = x (c + d) := by
    intro d hd hdn
    have := hloc (c - r + d) (by lia) (by lia) (by lia)
    rwa [show c - r + d + r = c + d by lia] at this
  obtain ⟨hen, hlt⟩ := hless.resolve_left (by lia)
  have hre : r ≤ e := by
    by_contra hlt'
    rw [hsame e (by lia) hn] at hlt
    exact irrefl_of lt _ hlt
  -- the suffix after the repetition would be greater
  refine SuffixLT.irrefl c (SuffixLT.trans (j := c + r) ?_ (h.greatest (c + r) (by lia) (by lia)))
  refine ⟨e - r, fun d hd => ?_, by lia, Or.inr ⟨by lia, ?_⟩⟩
  · have := hag (r + d) (by lia)
    rwa [show c - r + (r + d) = c + d by lia, ← add_assoc] at this
  · rwa [show c - r + e = c + (e - r) by lia, show c + e = c + r + (e - r) by lia] at hlt

/-- A suffix that is less by an order and by its opposite is a prefix. -/
theorem eq_of_suffixLT_of_suffixLT {i j : ℕ} (h : SuffixLT lt x n i j)
    (h' : SuffixLT (swap lt) x n i j) : ∀ d, i + d < n → x (i + d) = x (j + d) := by
  obtain ⟨e, hag, -, hless⟩ := h
  obtain ⟨e', hag', -, hless'⟩ := h'
  intro d hd
  rcases hless with hend | ⟨-, hlt⟩
  · exact hag d (by lia)
  rcases hless' with hend' | ⟨-, hgt⟩
  · exact hag' d (by lia)
  · exfalso
    rcases lt_trichotomy e e' with hee | rfl | hee
    · rw [hag' e hee] at hlt
      exact irrefl_of lt _ hlt
    · exact irrefl_of lt _ (trans_of lt hlt hgt)
    · rw [hag e' hee] at hgt
      exact irrefl_of lt _ hgt

/-- **The greatest suffixes by an order and by its opposite give a critical cut.** -/
theorem MaxSuffix.critical {c c' : ℕ} (h : MaxSuffix lt x n c)
    (h' : MaxSuffix (swap lt) x n c') (hle : c' ≤ c) : Critical x n c := by
  intro r hr hloc
  have hcr := h.lt_of_localPeriod hr hloc
  by_cases hshort : c + r < n
  swap
  · exact fun i hi => hloc i (by lia) (by lia) hi
  have hsuffix : SuffixLT (swap lt) x n (c + r) c := by
    -- between `c'` and `c` the entries `r` apart are equal
    obtain ⟨e, hag, hn, hless⟩ := h'.greatest (c' + r) (by lia) (by lia)
    have hsame : ∀ d, c' + d < c → c' + r + d < n → x (c' + r + d) = x (c' + d) := by
      intro d hd hdn
      have := hloc (c' + d) hd (by lia) (by lia)
      rw [this, add_right_comm]
    have hce : c - c' ≤ e := by
      by_contra hlt
      rcases hless with hend | ⟨hen, hlt'⟩
      · lia
      · rw [hsame e (by lia) hen] at hlt'
        exact irrefl_of lt _ hlt'
    refine ⟨e - (c - c'), fun d hd => ?_, by lia, ?_⟩
    · have := hag (c - c' + d) (by lia)
      rwa [show c' + r + (c - c' + d) = c + r + d by lia,
        show c' + (c - c' + d) = c + d by lia] at this
    · rw [show c + r + (e - (c - c')) = c' + r + e by lia,
        show c + (e - (c - c')) = c' + e by lia]
      exact hless
  have heq := eq_of_suffixLT_of_suffixLT (h.greatest (c + r) hshort (by lia)) hsuffix
  intro i hi
  by_cases hic : i < c
  · exact hloc i hic (by lia) hi
  · have := heq (i - c) (by lia)
    rw [show c + r + (i - c) = i + r by lia, show c + (i - c) = i by lia] at this
    exact this.symm

/-- At a critical cut, a word whose right part has a smaller least period has no short period: it
is longer than both parts. -/
theorem Critical.lt_period {c p q : ℕ} (h : Critical x n c) (hp : PeriodOn x c n p)
    (hmin : ∀ r, 0 < r → PeriodOn x c n r → p ≤ r) (hfail : ∃ i < c, x i ≠ x (i + p))
    (hp0 : 0 < p) (hpc : c + p ≤ n) (hq : 0 < q) (hper : Period x n q) : n - c < q := by
  induction q using Nat.strongRecOn with
  | ind q ih =>
    by_contra hle
    have hpq : p ≤ q := hmin q hq fun i _ hi => hper i hi
    obtain ⟨i, hi, hne⟩ := hfail
    have hlt : p < q := by
      refine lt_of_le_of_ne hpq fun heq => hne ?_
      rw [heq]
      exact hper i (by lia)
    -- then the difference is a local period, and a smaller period
    have hloc : LocalPeriod x n c (q - p) := by
      intro j hj hcj hjn
      have hright := hp (j + (q - p)) hcj (by lia)
      rw [show j + (q - p) + p = j + q by lia] at hright
      rw [hper j (by lia), hright]
    have := ih (q - p) (by lia) (by lia) (h (q - p) (by lia) hloc)
    lia

/-! ## Computing a greatest suffix -/

/-- The state of the search for a greatest suffix: `left` is the candidate, the entries from it up
to `right + offset` have the period `period`, whose first occurrence is greater than its proper
suffixes, and every start before `right` but `left` is ruled out. -/
structure Candidate (lt : α → α → Prop) (x : ℕ → α) (n left right offset period : ℕ) : Prop where
  repeats : ∃ m, right = left + (m + 1) * period
  offset_lt : offset < period
  right_le : right ≤ n
  window : right + offset ≤ n
  periodic : PeriodOn x left (right + offset) period
  above : ∀ s, 0 < s → s < period → ∃ e, s + e < period ∧
    (∀ d < e, x (left + s + d) = x (left + d)) ∧ lt (x (left + s + e)) (x (left + e))
  beaten : ∀ i < right, i ≠ left → ∃ j < n, SuffixLT lt x n i j

namespace Candidate

variable {left right offset period : ℕ}

omit [IsStrictTotalOrder α lt] in
theorem start (hn : 0 < n) : Candidate lt x n 0 1 0 1 where
  repeats := ⟨0, by lia⟩
  offset_lt := one_pos
  right_le := hn
  window := hn
  periodic := fun i _ hi => by lia
  above := fun s h0 h1 => by lia
  beaten := fun i hi hne => by lia

variable (h : Candidate lt x n left right offset period)
include h

omit [IsStrictTotalOrder α lt] in
theorem left_lt : left + period ≤ right := by
  obtain ⟨m, hm⟩ := h.repeats
  rw [hm, succ_mul]
  lia

omit [IsStrictTotalOrder α lt] in
/-- The entries after `right` repeat those after `left`. -/
theorem repeat_eq {d : ℕ} (hd : d < offset) : x (left + d) = x (right + d) := by
  obtain ⟨m, hm⟩ := h.repeats
  have := h.periodic.mul (m + 1) (i := left + d) (by lia) (by lia)
  rwa [show left + d + (m + 1) * period = right + d by lia] at this

/-- A smaller entry: the whole window becomes the period. -/
theorem less (hn : right + offset < n) (hlt : lt (x (right + offset)) (x (left + offset))) :
    Candidate lt x n left (right + offset + 1) 0 (right + offset + 1 - left) := by
  have hleft := h.left_lt
  have hoff := h.offset_lt
  refine ⟨⟨0, by lia⟩, by lia, by lia, by lia, fun i _ hi => by lia, ?_, ?_⟩
  · intro s h0 hs
    obtain ⟨m, hm⟩ := h.repeats
    have hdiv := div_add_mod s period
    have hmod := mod_lt s (show 0 < period by lia)
    rw [mul_comm] at hdiv
    -- entries a multiple of the period apart, inside the window
    have hper : ∀ d, left + s + d < right + offset →
        x (left + s % period + d) = x (left + s + d) := by
      intro d hd
      have := h.periodic.mul (s / period) (i := left + s % period + d) (by lia) (by lia)
      rwa [show left + s % period + d + s / period * period = left + s + d by lia] at this
    by_cases hz : s % period = 0
    · -- the start of an occurrence of the period
      have hlast : x (left + offset) = x (left + (right + offset - left - s)) := by
        have hk : s / period ≤ m + 1 := by
          by_contra hgt
          have := mul_le_mul_right period (show m + 2 ≤ s / period by lia)
          rw [show m + 2 = m + 1 + 1 by lia, succ_mul] at this
          lia
        have heq : (m + 1 - s / period) * period + s / period * period = (m + 1) * period := by
          rw [← Nat.add_mul, Nat.sub_add_cancel hk]
        have := h.periodic.mul (m + 1 - s / period) (i := left + offset) (by lia) (by lia)
        rwa [show left + offset + (m + 1 - s / period) * period =
          left + (right + offset - left - s) by lia] at this
      refine ⟨right + offset - left - s, by lia, fun d hd => ?_, ?_⟩
      · rw [← hper d (by lia), hz, add_zero]
      · rwa [show left + s + (right + offset - left - s) = right + offset by lia, ← hlast]
    obtain ⟨e, he, hag, hlt'⟩ := h.above (s % period) (by lia) hmod
    by_cases hin : left + s + e < right + offset
    · refine ⟨e, by lia, fun d hd => ?_, ?_⟩
      · rw [← hper d (by lia)]
        exact hag d hd
      · rwa [← hper e hin]
    -- the smaller entry comes no later than the difference in the first occurrence
    have hoffset : s % period + (right + offset - left - s) = offset := by
      have hk : s / period = m + 1 := by
        have h1 : ¬ s / period ≤ m := fun hle => by
          have := mul_le_mul_right period hle
          rw [succ_mul] at hm
          lia
        have h2 : ¬ m + 2 ≤ s / period := fun hle => by
          have := mul_le_mul_right period hle
          rw [show m + 2 = m + 1 + 1 by lia, succ_mul] at this
          lia
        lia
      rw [hk] at hdiv
      lia
    refine ⟨right + offset - left - s, by lia, fun d hd => ?_, ?_⟩
    · rw [← hper d (by lia)]
      exact hag d (by lia)
    · rw [show left + s + (right + offset - left - s) = right + offset by lia]
      rcases lt_or_ge (right + offset - left - s) e with hlt'' | hge
      · rwa [← hag _ hlt'', add_assoc left, hoffset]
      · have heq : e = right + offset - left - s := by lia
        rw [← heq]
        rw [heq, add_assoc left, hoffset, ← heq] at hlt'
        exact trans_of lt hlt hlt'
  · intro i hi hne
    by_cases hir : i < right
    · exact h.beaten i hir hne
    · obtain ⟨s, rfl⟩ : ∃ s, i = right + s := ⟨i - right, by lia⟩
      refine ⟨left + s, by lia, offset - s, fun d hd => ?_, by lia, Or.inr ⟨by lia, ?_⟩⟩
      · have := h.repeat_eq (d := s + d) (by lia)
        rw [← add_assoc, ← add_assoc] at this
        exact this.symm
      · rwa [show right + s + (offset - s) = right + offset by lia,
          show left + s + (offset - s) = left + offset by lia]

omit [IsStrictTotalOrder α lt] in
/-- A greater entry: the candidate moves on. -/
theorem greater (hn : right + offset < n) (hlt : lt (x (left + offset)) (x (right + offset))) :
    Candidate lt x n right (right + 1) 0 1 := by
  refine ⟨⟨0, by lia⟩, by lia, by lia, by lia, fun i _ hi => by lia,
    fun s h0 h1 => by lia, fun i hi hne => ?_⟩
  by_cases hil : i = left
  · refine ⟨right, by lia, offset, fun d hd => ?_, hn, Or.inr ⟨by lia, ?_⟩⟩
    · rw [hil]
      exact h.repeat_eq hd
    · rwa [hil]
  · exact h.beaten i (by lia) hil

omit [IsStrictTotalOrder α lt] in
theorem periodic_succ (heq : x (right + offset) = x (left + offset)) :
    PeriodOn x left (right + offset + 1) period := by
  have hoff := h.offset_lt
  intro i hi hin
  by_cases hlast : i + period = right + offset
  · obtain ⟨m, hm⟩ := h.repeats
    have := h.periodic.mul m (i := left + offset) (by lia) (by rw [succ_mul] at hm; lia)
    rw [show left + offset + m * period = i by rw [succ_mul] at hm; lia] at this
    rw [hlast, heq, this]
  · exact h.periodic i hi (by lia)

omit [IsStrictTotalOrder α lt] in
/-- An equal entry inside an occurrence of the period. -/
theorem equal (hn : right + offset < n)
    (heq : x (right + offset) = x (left + offset)) (hne : offset + 1 ≠ period) :
    Candidate lt x n left right (offset + 1) period :=
  ⟨h.repeats, by have := h.offset_lt; lia, h.right_le, hn, h.periodic_succ heq, h.above, h.beaten⟩

/-- The suffix after a further occurrence of the period is ruled out: by the candidate, or by the
suffix after the next. -/
theorem beaten_right (hper : PeriodOn x left (right + period) period) (hn : right + period ≤ n) :
    ∃ j < n, SuffixLT lt x n right j := by
  classical
  have hleft := h.left_lt
  have hoff := h.offset_lt
  obtain ⟨m, hm⟩ := h.repeats
  -- where the period ends
  have hex : ∃ k, right + period ≤ k ∧ (k = n ∨ x (k - period) ≠ x k) := ⟨n, hn, Or.inl rfl⟩
  obtain ⟨k, ⟨hk, hstop⟩, hfirst⟩ : ∃ k, (right + period ≤ k ∧ (k = n ∨ x (k - period) ≠ x k)) ∧
      ∀ k' < k, ¬ (right + period ≤ k' ∧ (k' = n ∨ x (k' - period) ≠ x k')) :=
    ⟨Nat.find hex, Nat.find_spec hex, fun k' => Nat.find_min hex⟩
  have hkn : k ≤ n := by
    by_contra hgt
    exact hfirst n (by lia) ⟨hn, Or.inl rfl⟩
  have hperiodic : PeriodOn x left k period := by
    intro i hi hik
    by_cases hir : i + period < right + period
    · exact hper i hi hir
    · by_contra hne
      refine hfirst (i + period) hik ⟨by lia, Or.inr ?_⟩
      rwa [Nat.add_sub_cancel]
  have hsame : ∀ d, right + d < k → x (right + d) = x (left + d) := by
    intro d hd
    have := hperiodic.mul (m + 1) (i := left + d) (by lia) (by lia)
    rw [show left + d + (m + 1) * period = right + d by lia] at this
    exact this.symm
  by_cases hend : k = n
  · exact ⟨left, by lia, k - right, fun d hd => hsame d (by lia), by lia, Or.inl (by lia)⟩
  have hne := hstop.resolve_left hend
  have hback : x (left + (k - right)) = x (k - period) := by
    have := hperiodic.mul m (i := left + (k - right)) (by lia)
      (by rw [succ_mul] at hm; lia)
    rwa [show left + (k - right) + m * period = k - period by
      rw [succ_mul] at hm; lia] at this
  rcases trichotomous_of lt (x k) (x (k - period)) with hlt | heq | hgt
  · refine ⟨left, by lia, k - right, fun d hd => hsame d (by lia), by lia,
      Or.inr ⟨by lia, ?_⟩⟩
    rwa [show right + (k - right) = k by lia, hback]
  · exact absurd heq.symm hne
  · refine ⟨right + period, by lia, k - right - period, fun d hd => ?_, by lia,
      Or.inr ⟨by lia, ?_⟩⟩
    · have := hperiodic (right + d) (by lia) (by lia)
      rwa [add_right_comm]
    · rwa [show right + (k - right - period) = k - period by lia,
        show right + period + (k - right - period) = k by lia]

/-- An equal entry that completes an occurrence of the period. -/
theorem equal_last (hn : right + offset < n)
    (heq : x (right + offset) = x (left + offset)) (hlast : offset + 1 = period) :
    Candidate lt x n left (right + offset + 1) 0 period := by
  have hper := h.periodic_succ heq
  obtain ⟨m, hm⟩ := h.repeats
  refine ⟨⟨m + 1, by rw [succ_mul]; lia⟩, by lia, by lia, by lia, hper, h.above, ?_⟩
  intro i hi hne
  by_cases hir : i < right
  · exact h.beaten i hir hne
  obtain ⟨s, rfl⟩ : ∃ s, i = right + s := ⟨i - right, by lia⟩
  rcases Nat.eq_zero_or_pos s with rfl | h0
  · exact h.beaten_right (by rwa [← hlast, ← add_assoc, hlast]) (by lia)
  -- inside the occurrence, by the difference in the first
  obtain ⟨e, he, hag, hlt⟩ := h.above s h0 (by lia)
  have hsame : ∀ d, d < period → x (left + d) = x (right + d) := by
    intro d hd
    have := hper.mul (m + 1) (i := left + d) (by lia) (by lia)
    rwa [show left + d + (m + 1) * period = right + d by lia] at this
  refine ⟨right, by lia, e, fun d hd => ?_, by lia, Or.inr ⟨by lia, ?_⟩⟩
  · rw [add_assoc, ← hsame (s + d) (by lia), ← hsame d (by lia), ← hag d hd,
      add_assoc]
  · rw [add_assoc, ← hsame (s + e) (by lia), ← hsame e (by lia), ← add_assoc]
    exact hlt

/-- **At the end of the word the candidate is the start of the greatest suffix.** -/
theorem maxSuffix (hn : n ≤ right + offset) : MaxSuffix lt x n left := by
  have hleft := h.left_lt
  have hoff := h.offset_lt
  have hwin := h.window
  refine MaxSuffix.of_beaten (by have := h.right_le; lia) fun i hi hne => ?_
  by_cases hir : i < right
  · exact h.beaten i hir hne
  obtain ⟨s, rfl⟩ : ∃ s, i = right + s := ⟨i - right, by lia⟩
  refine ⟨left + s, by lia, offset - s, fun d hd => ?_, by lia, Or.inl (by lia)⟩
  have := h.repeat_eq (d := s + d) (by lia)
  rw [← add_assoc, ← add_assoc] at this
  exact this.symm

/-- When the period of the candidate goes on to the end of the word, the search can stop. -/
theorem maxSuffix_of_period (hper : PeriodOn x left n period) : MaxSuffix lt x n left := by
  induction hd : n - (right + offset) using Nat.strongRecOn generalizing right offset with
  | ind k ih =>
    have hwin := h.window
    by_cases hend : right + offset = n
    · exact h.maxSuffix hend.ge
    have heq : x (right + offset) = x (left + offset) := by
      obtain ⟨m, hm⟩ := h.repeats
      have := hper.mul (m + 1) (i := left + offset) (by lia) (by lia)
      rw [show left + offset + (m + 1) * period = right + offset by lia] at this
      exact this.symm
    by_cases hlast : offset + 1 = period
    · exact ih (n - (right + offset + 1 + 0)) (by lia) (h.equal_last (by lia) heq hlast) rfl
    · exact ih (n - (right + (offset + 1))) (by lia) (h.equal (by lia) heq hlast) rfl

/-- The period of the candidate is the least. -/
theorem le_period {q : ℕ} (hq : 0 < q)
    (hper : PeriodOn x left (right + offset) q) : period ≤ q := by
  by_contra hlt
  obtain ⟨e, he, -, hless⟩ := h.above q hq (by lia)
  have hleft := h.left_lt
  have := hper (left + e) (by lia) (by lia)
  rw [show left + q + e = left + e + q by lia, ← this] at hless
  exact irrefl_of lt _ hless

end Candidate

/-! ## Occurrences -/

/-- The word occurs at `pos` in the text `y` of length `m`. -/
def Occurs (x : ℕ → α) (n : ℕ) (y : ℕ → α) (m pos : ℕ) : Prop :=
  pos + n ≤ m ∧ ∀ k < n, x k = y (pos + k)

variable {y : ℕ → α} {m pos c i s : ℕ}

variable (h : Critical x n c)
include h

omit [IsStrictTotalOrder α lt] in
/-- After a match from the cut up to a difference, the word does not occur before the cut passes the
difference. -/
theorem Critical.not_occurs_after (hmatch : ∀ k, c ≤ k → k < i → x k = y (pos + k))
    (hi : i < n) (hne : x i ≠ y (pos + i)) (h0 : 0 < s) (hs : c + s ≤ i) :
    ¬ Occurs x n y m (pos + s) := by
  rintro ⟨-, hocc⟩
  have hloc : LocalPeriod x n c s := by
    intro j hj hcj hjn
    rw [hmatch (j + s) hcj (by lia), hocc j (by lia), add_assoc, add_comm j s]
  have hper := h s h0 hloc (i - s) (by lia)
  rw [show i - s + s = i by lia] at hper
  refine hne ?_
  rw [← hper, hocc (i - s) (by lia), show pos + s + (i - s) = pos + i by lia]

/-- After a match from the cut on, the word occurs next a period further. -/
theorem Critical.period_of_occurs_after
    (hmatch : ∀ k, c ≤ k → k < n → x k = y (pos + k)) (h0 : 0 < s)
    (hocc : Occurs x n y m (pos + s)) : Period x n s := by
  refine h s h0 fun j hj hcj hjn => ?_
  rw [hmatch (j + s) hcj hjn, hocc.2 j (by lia), add_assoc, add_comm j s]

/-- Before a match from a difference up to the cut, the word does not occur before the cut passes
the difference. -/
theorem Critical.not_occurs_before (hc : c ≤ n)
    (hmatch : ∀ k, i < k → k < c → x k = y (pos + s + k)) (hne : x i ≠ y (pos + s + i)) (h0 : 0 < s)
    (hs : i + s < c) : ¬ Occurs x n y m pos := by
  rintro ⟨-, hocc⟩
  have hloc : LocalPeriod x n c s := by
    intro j hj hcj hjn
    rw [hmatch j (by lia) hj, hocc (j + s) hjn, add_assoc, add_comm j s]
  have hper := h s h0 hloc i (by lia)
  refine hne ?_
  rw [hper, hocc (i + s) (by lia), add_assoc, add_comm i s]

/-- Before a match up to the cut, the word occurs a period before. -/
theorem Critical.period_of_occurs_before
    (hmatch : ∀ k, k < c → x k = y (pos + s + k)) (h0 : 0 < s) (hocc : Occurs x n y m pos) :
    Period x n s := by
  refine h s h0 fun j hj hcj hjn => ?_
  rw [hmatch j hj, hocc.2 (j + s) hjn, add_assoc, add_comm j s]

end RustStd.Periods
