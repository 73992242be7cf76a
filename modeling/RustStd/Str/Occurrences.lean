import RustStd.Str.Chars
import RustStd.Str.TwoWaySearch

/-!
# Occurrences of a string in a string

What a search has to find: the leftmost occurrences that do not overlap (`Leftmost`), from the other
end the rightmost (`Rightmost`), and for an empty needle the char boundaries (`boundaries`).
`occursAt_boundaries`: strings occur in strings only between char boundaries.
-/

namespace RustStd

open Utf8 TwoWaySearcher List Nat

variable {needle haystack : List UInt8}

/-- From `p` on, the leftmost occurrences that do not overlap. -/
inductive Leftmost (needle haystack : List UInt8) : ℕ → List (ℕ × ℕ) → Prop
  | nil {p : ℕ} (hnone : ∀ i, p ≤ i → ¬ OccursAt needle haystack i) : Leftmost needle haystack p []
  | cons {p a : ℕ} {l : List (ℕ × ℕ)} (hle : p ≤ a) (hocc : OccursAt needle haystack a)
      (hnone : NoneFrom needle haystack p a)
      (htail : Leftmost needle haystack (a + needle.length) l) :
      Leftmost needle haystack p ((a, a + needle.length) :: l)

/-- Up to `e`, the rightmost occurrences that do not overlap. -/
inductive Rightmost (needle haystack : List UInt8) : ℕ → List (ℕ × ℕ) → Prop
  | nil {e : ℕ} (hnone : ∀ i, i + needle.length ≤ e → ¬ OccursAt needle haystack i) :
      Rightmost needle haystack e []
  | cons {e a : ℕ} {l : List (ℕ × ℕ)} (hle : a + needle.length ≤ e)
      (hocc : OccursAt needle haystack a)
      (hnone : NoneEnding needle haystack (a + needle.length) e)
      (htail : Rightmost needle haystack a l) :
      Rightmost needle haystack e ((a, a + needle.length) :: l)

/-! ## Leftmost occurrences -/

namespace Leftmost

variable {p q a : ℕ} {l : List (ℕ × ℕ)}

/-- Positions where nothing starts can be put in front. -/
theorem extend (hpq : p ≤ q) (hnone : NoneFrom needle haystack p q)
    (h : Leftmost needle haystack q l) : Leftmost needle haystack p l := by
  cases h with
  | nil h =>
    refine nil fun i hi => ?_
    rcases lt_or_ge i q with hlt | hge
    · exact hnone i hi hlt
    · exact h i hge
  | cons hle hocc h htail => exact cons (hpq.trans hle) hocc (hnone.append h) htail

/-- Positions where nothing starts can be passed over. -/
theorem skip (hpq : p ≤ q) (hnone : NoneFrom needle haystack p q)
    (h : Leftmost needle haystack p l) : Leftmost needle haystack q l := by
  cases h with
  | nil h => exact nil fun i hi => h i (hpq.trans hi)
  | cons hle hocc h htail =>
    refine cons ?_ hocc (fun i hi => h i (hpq.trans hi)) htail
    by_contra hlt
    exact hnone _ hle (not_le.1 hlt) hocc

/-- The first occurrence is the first of the list. -/
theorem head (hle : p ≤ a) (hocc : OccursAt needle haystack a)
    (hnone : NoneFrom needle haystack p a) (h : Leftmost needle haystack p l) :
    ∃ l', l = (a, a + needle.length) :: l' ∧ Leftmost needle haystack (a + needle.length) l' := by
  cases h with
  | nil h => exact (h a hle hocc).elim
  | @cons _ b l' hle' hocc' h htail =>
    obtain rfl : a = b := by
      rcases lt_trichotomy a b with hlt | rfl | hlt
      · exact (h a hle hlt hocc).elim
      · rfl
      · exact (hnone b hle' hlt hocc').elim
    exact ⟨l', rfl, htail⟩

theorem eq_nil (hnone : NoneFrom needle haystack p haystack.length) (hne : needle ≠ [])
    (h : Leftmost needle haystack p l) : l = [] := by
  cases h with
  | nil => rfl
  | @cons _ a _ hle hocc =>
    have := hocc.1
    have := length_pos_iff.2 hne
    exact (hnone a hle (by omega) hocc).elim

theorem exists_leftmost (haystack : List UInt8) (hne : needle ≠ []) (p : ℕ) :
    ∃ l, Leftmost needle haystack p l := by
  have hn := length_pos_iff.2 hne
  -- by induction on the distance from the end
  obtain ⟨d, hd⟩ : ∃ d, haystack.length ≤ p + d := ⟨haystack.length, le_add_left _ _⟩
  induction d using Nat.strong_induction_on generalizing p with
  | _ d ih =>
  by_cases hend : haystack.length ≤ p
  · exact ⟨[], nil fun i hi hocc => by have := hocc.1; omega⟩
  by_cases hocc : OccursAt needle haystack p
  · obtain ⟨l, hl⟩ := ih (d - needle.length) (by omega) (p + needle.length) (by omega)
    exact ⟨_, cons le_rfl hocc (NoneFrom.refl p) hl⟩
  · obtain ⟨l, hl⟩ := ih (d - 1) (by omega) (p + 1) (by omega)
    refine ⟨l, hl.extend (le_succ p) fun i hi hlt => ?_⟩
    rwa [show i = p by omega]

end Leftmost

/-! ## Rightmost occurrences -/

namespace Rightmost

variable {e f a : ℕ} {l : List (ℕ × ℕ)}

theorem extend (hfe : f ≤ e) (hnone : NoneEnding needle haystack f e)
    (h : Rightmost needle haystack f l) : Rightmost needle haystack e l := by
  cases h with
  | nil h =>
    refine nil fun i hi => ?_
    rcases lt_or_ge f (i + needle.length) with hlt | hge
    · exact hnone i hlt hi
    · exact h i hge
  | cons hle hocc h htail => exact cons (hle.trans hfe) hocc (h.append hnone) htail

theorem skip (hfe : f ≤ e) (hnone : NoneEnding needle haystack f e)
    (h : Rightmost needle haystack e l) : Rightmost needle haystack f l := by
  cases h with
  | nil h => exact nil fun i hi => h i (hi.trans hfe)
  | cons hle hocc h htail =>
    refine cons ?_ hocc (fun i hi hif => h i hi (hif.trans hfe)) htail
    by_contra hlt
    exact hnone _ (not_le.1 hlt) hle hocc

/-- The last occurrence is the first of the list. -/
theorem head (hle : a + needle.length ≤ e) (hocc : OccursAt needle haystack a)
    (hnone : NoneEnding needle haystack (a + needle.length) e)
    (h : Rightmost needle haystack e l) :
    ∃ l', l = (a, a + needle.length) :: l' ∧ Rightmost needle haystack a l' := by
  cases h with
  | nil h => exact (h a hle hocc).elim
  | @cons _ b l' hle' hocc' h htail =>
    obtain rfl : a = b := by
      rcases lt_trichotomy a b with hlt | rfl | hlt
      · exact (hnone b (by omega) hle' hocc').elim
      · rfl
      · exact (h a (by omega) hle hocc).elim
    exact ⟨l', rfl, htail⟩

theorem eq_nil (hnone : NoneEnding needle haystack 0 e) (hne : needle ≠ [])
    (h : Rightmost needle haystack e l) : l = [] := by
  cases h with
  | nil => rfl
  | @cons _ a _ hle hocc =>
    have := length_pos_iff.2 hne
    exact (hnone a (by omega) hle hocc).elim

theorem exists_rightmost (haystack : List UInt8) (hne : needle ≠ []) (e : ℕ) :
    ∃ l, Rightmost needle haystack e l := by
  have hn := length_pos_iff.2 hne
  induction e using Nat.strong_induction_on with
  | _ e ih =>
  by_cases hfit : e < needle.length
  · exact ⟨[], nil fun i hi => by omega⟩
  obtain ⟨a, rfl⟩ := Nat.exists_eq_add_of_le' (not_lt.1 hfit)
  by_cases hocc : OccursAt needle haystack a
  · obtain ⟨l, hl⟩ := ih a (by omega)
    exact ⟨_, cons le_rfl hocc (NoneEnding.refl _) hl⟩
  · obtain ⟨l, hl⟩ := ih (a + needle.length - 1) (by omega)
    refine ⟨l, hl.extend (sub_le _ _) fun i hi hle => ?_⟩
    rwa [show i = a by omega]

end Rightmost

/-! ## Char boundaries -/

/-- **Strings occur in strings only between char boundaries.** -/
theorem occursAt_boundaries (hne : needle ≠ []) (hn : WellFormed needle) (hh : WellFormed haystack)
    {a : ℕ} (hocc : OccursAt needle haystack a) :
    is_char_boundary haystack a = true ∧ is_char_boundary haystack (a + needle.length) = true := by
  have hpos := length_pos_iff.2 hne
  have hle := hocc.1
  have ha : is_char_boundary haystack a = true := by
    rcases Nat.eq_zero_or_pos a with rfl | h0
    · exact is_char_boundary_zero
    rw [is_char_boundary_iff_byte h0 (by omega), ← add_zero a, ← hocc.2 0 hpos]
    exact hn.not_tail_head hne
  refine ⟨ha, ?_⟩
  obtain ⟨-, htake, hdrop⟩ := (isCharBoundary_iff hh).1 ha
  -- the needle is what follows `a`
  have heq : haystack.drop a = needle ++ haystack.drop (a + needle.length) := by
    have htake' : (haystack.drop a).take needle.length = needle := by
      refine ext_getElem? fun i => ?_
      rcases lt_or_ge i needle.length with hi | hi
      · rw [getElem?_take_of_lt hi, getElem?_drop, getElem?_word (by omega),
          getElem?_word hi, hocc.2 i hi]
      · rw [getElem?_eq_none hi, getElem?_eq_none]
        rw [length_take]
        omega
    rw [← htake', length_take, length_drop, min_eq_left (by omega), htake',
      ← drop_drop]
    conv_lhs => rw [← take_append_drop needle.length (haystack.drop a), htake']
  have hrest : WellFormed (haystack.drop (a + needle.length)) := by
    rw [heq] at hdrop
    exact hn.of_append hdrop
  have hb := is_char_boundary_append (htake.append hn) hrest
  rwa [append_assoc, ← heq, take_append_drop, length_append, length_take_of_le (by omega)] at hb

/-- The empty string at every char boundary. -/
def boundaries (haystack : List UInt8) : List (ℕ × ℕ) :=
  ((range (haystack.length + 1)).filter (is_char_boundary haystack)).map fun i => (i, i)

end RustStd
