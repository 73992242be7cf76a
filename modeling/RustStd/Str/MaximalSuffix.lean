import RustStd.Foundations.Periods
import RustStd.Str.TwoWaySearcher

/-!
# The maximal suffix of a needle

The loops of `maximal_suffix` and `reverse_maximal_suffix` keep the invariant `Candidate`, of the
needle and of the needle read backwards. They end with the start of the greatest suffix, by the
order of the bytes or its opposite, and the first also with the suffix's least period. The
`debug_assert!` of `reverse_maximal_suffix`, that its period is at most the known one, is left out.
-/

namespace RustStd.TwoWaySearcher

open Periods List Target

/-- A needle as a word. -/
def word (l : List UInt8) : ℕ → UInt8 := fun i => l.getD i 0

theorem getElem?_word {l : List UInt8} {i : ℕ} (h : i < l.length) : l[i]? = some (word l i) := by
  rw [word, getD_eq_getElem _ _ h, getElem?_eq_getElem h]

/-- The order by which suffixes are compared. -/
def order : Bool → UInt8 → UInt8 → Prop
  | false => (· < ·)
  | true => Function.swap (· < ·)

instance : IsStrictTotalOrder UInt8 (· < ·) where
  irrefl := UInt8.lt_irrefl
  trans _ _ _ := UInt8.lt_trans
  trichotomous _ _ hab hba := UInt8.le_antisymm (UInt8.not_lt.1 hba) (UInt8.not_lt.1 hab)

instance (order_greater : Bool) : IsStrictTotalOrder UInt8 (order order_greater) := by
  cases order_greater
  · exact inferInstanceAs (IsStrictTotalOrder UInt8 (· < ·))
  · exact inferInstanceAs (IsStrictTotalOrder UInt8 (Function.swap (· < ·)))

theorem order_iff (order_greater : Bool) (a b : UInt8) : order order_greater a b ↔
      ((a < b ∧ order_greater = false) ∨ (a > b ∧ order_greater = true)) := by
  cases order_greater <;> simp [order]

variable {t : Target} {x : ℕ → UInt8} {n : ℕ}

/-- The loop invariant. -/
def Scan.Inv (order_greater : Bool) (x : ℕ → UInt8) (n : ℕ) (s : Scan) : Prop :=
  Candidate (order order_greater) x n s.left s.right s.offset s.period

/-- What is left of the word, twice. -/
def Scan.measure (n : ℕ) (s : Scan) : ℕ := 2 * n - (s.left + s.right + s.offset)

/-- **One comparison** keeps the invariant. -/
theorem Scan.compare_spec {order_greater : Bool} {s : Scan} (h : s.Inv order_greater x n)
    (hmax : n ≤ t.isizeMax) (hn : s.right + s.offset < n) :
    ∃ s', s.compare t order_greater (x (s.right + s.offset)) (x (s.left + s.offset)) = some s' ∧
      s'.Inv order_greater x n ∧ s'.measure n < s.measure n := by
  obtain ⟨left, right, offset, period⟩ := s
  have h : Candidate (order order_greater) x n left right offset period := h
  have hn : right + offset < n := hn
  have hleft := h.left_lt
  have hoff := h.offset_lt
  have hcard := t.two_mul_isizeMax
  simp only [Scan.compare, Scan.measure, Scan.Inv]
  rw [checkedAdd_eq (by lia), some_bind]
  by_cases hless : order order_greater (x (right + offset)) (x (left + offset))
  · rw [if_pos ((order_iff _ _ _).1 hless), checkedAdd_eq (by lia)]
    simp only [some_bind, checkedSub]
    rw [if_pos (by lia)]
    exact ⟨_, rfl, h.less hn hless, by simp only; lia⟩
  rw [if_neg ((order_iff _ _ _).not.1 hless)]
  by_cases heq : x (right + offset) = x (left + offset)
  · rw [if_pos heq]
    by_cases hlast : offset + 1 = period
    · rw [if_pos hlast, checkedAdd_eq (by lia)]
      exact ⟨_, rfl, h.equal_last hn heq hlast, by simp only; lia⟩
    · rw [if_neg hlast]
      exact ⟨_, rfl, h.equal hn heq hlast, by simp only; lia⟩
  · rw [if_neg heq, checkedAdd_eq (by lia)]
    have hgt := ((trichotomous_of (order order_greater) _ _).resolve_left hless).resolve_left heq
    exact ⟨_, rfl, h.greater hn hgt, by simp only; lia⟩

/-- What is computed of a needle: the start of its greatest suffix and the suffix's least period. -/
structure IsMaximalSuffix (order_greater : Bool) (x : ℕ → UInt8) (n left period : ℕ) : Prop where
  maxSuffix : MaxSuffix (order order_greater) x n left
  periodic : PeriodOn x left n period
  least : ∀ q, 0 < q → PeriodOn x left n q → period ≤ q
  period_pos : 0 < period
  period_le : left + period ≤ n

/-- **The maximal suffix.** -/
theorem maximal_suffix_spec {arr : List UInt8} (hne : arr ≠ []) (hmax : arr.length ≤ t.isizeMax)
    (order_greater : Bool) :
    ∃ left period, maximal_suffix t arr order_greater = some (left, period) ∧
      IsMaximalSuffix order_greater (word arr) arr.length left period := by
  have hlen := length_pos_of_ne_nil hne
  have hcard := t.two_mul_isizeMax
  obtain ⟨⟨left, period⟩, hrun, hpost⟩ := runLoop_spec (maximal_suffix_turn t arr order_greater)
    (Scan.Inv order_greater (word arr) arr.length) (Scan.measure arr.length)
    (fun r => IsMaximalSuffix order_greater (word arr) arr.length r.1 r.2)
    (by
      rintro s (hs : Candidate _ _ _ _ _ _ _)
      have hleft := hs.left_lt
      have hoff := hs.offset_lt
      have hwin := hs.window
      unfold maximal_suffix_turn
      rw [checkedAdd_eq (by lia), checkedAdd_eq (by lia)]
      simp only [some_bind]
      by_cases hn : s.right + s.offset < arr.length
      · obtain ⟨s', hcmp, hs', hm⟩ := Scan.compare_spec (t := t) hs hmax hn
        rw [getElem?_word hn, getElem?_word (show s.left + s.offset < arr.length by lia)]
        simp only [some_bind, hcmp]
        exact ⟨hs', hm⟩
      · rw [getElem?_eq_none (not_lt.1 hn)]
        have hend : s.right + s.offset = arr.length := by lia
        exact ⟨hs.maxSuffix hend.ge, hend ▸ hs.periodic,
          fun q hq hper => hs.le_period hq (hend ▸ hper), by show 0 < s.period; lia,
          by show s.left + s.period ≤ arr.length; lia⟩)
    (2 * arr.length + 1) ⟨0, 1, 0, 1⟩ (Candidate.start hlen) (by
      show 2 * arr.length - _ < 2 * arr.length + 1
      lia)
  exact ⟨left, period, hrun, hpost⟩

/-- **The maximal suffix of the needle read backwards**: stopping at a period of the needle does not
change it. -/
theorem reverse_maximal_suffix_spec {arr : List UInt8} (hne : arr ≠ [])
    (hmax : arr.length ≤ t.isizeMax) {known_period : ℕ}
    (hper : Period (reversed (word arr) arr.length) arr.length known_period)
    (order_greater : Bool) :
    ∃ left, reverse_maximal_suffix t arr known_period order_greater = some left ∧
      MaxSuffix (order order_greater) (reversed (word arr) arr.length) arr.length left := by
  have hlen := length_pos_of_ne_nil hne
  have hcard := t.two_mul_isizeMax
  refine runLoop_spec (reverse_maximal_suffix_turn t arr known_period order_greater)
    (Scan.Inv order_greater (reversed (word arr) arr.length) arr.length) (Scan.measure arr.length)
    (MaxSuffix (order order_greater) (reversed (word arr) arr.length) arr.length) ?_
    (2 * arr.length + 1) ⟨0, 1, 0, 1⟩ (Candidate.start hlen) (by
      show 2 * arr.length - _ < 2 * arr.length + 1
      lia)
  rintro s (hs : Candidate _ _ _ _ _ _ _)
  have hleft := hs.left_lt
  have hwin := hs.window
  unfold reverse_maximal_suffix_turn
  rw [checkedAdd_eq (show s.right + s.offset < t.usizeCard by lia)]
  simp only [some_bind]
  by_cases hn : s.right + s.offset < arr.length
  · have hread : ∀ i, i + s.offset < arr.length →
        arr[arr.length - (1 + i + s.offset)]? =
          some (reversed (word arr) arr.length (i + s.offset)) := by
      intro i hi
      rw [getElem?_word (by lia), word, reversed, word,
        show arr.length - (1 + i + s.offset) = arr.length - 1 - (i + s.offset) by lia]
    obtain ⟨s', hcmp, hs', hm⟩ := Scan.compare_spec (t := t) hs hmax hn
    rw [if_pos hn, checkedAdd_eq (show 1 + s.right < t.usizeCard by lia),
      checkedAdd_eq (show 1 + s.left < t.usizeCard by lia)]
    simp only [some_bind]
    rw [checkedAdd_eq (show 1 + s.right + s.offset < t.usizeCard by lia),
      checkedAdd_eq (show 1 + s.left + s.offset < t.usizeCard by lia)]
    simp only [some_bind, checkedSub]
    rw [if_pos (show 1 + s.right + s.offset ≤ arr.length by lia),
      if_pos (show 1 + s.left + s.offset ≤ arr.length by lia)]
    simp only [some_bind, hread s.right hn, hread s.left (by lia), hcmp]
    by_cases hknown : s'.period = known_period
    · rw [if_pos hknown]
      exact Candidate.maxSuffix_of_period hs' fun i _ hi => by
        rw [hknown] at hi ⊢
        exact hper i hi
    · rw [if_neg hknown]
      exact ⟨hs', hm⟩
  · rw [if_neg hn]
    exact hs.maxSuffix (not_lt.1 hn)

end RustStd.TwoWaySearcher
