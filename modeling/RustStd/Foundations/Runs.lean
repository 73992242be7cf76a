import Mathlib.Data.List.Basic

/-!
# Runs of a list

A run is a stretch of a list whose entries all have a property. The longest one, and among those
the first, is found in one pass that keeps the longest run so far and the run at the end:
`IsLast.concat` and `IsFirstLongest.concat` say how the two change with one more entry.
-/

namespace RustStd

open List Nat

variable {α : Type*} {p : α → Prop} {xs : List α} {x : α} {s l s' l' : ℕ}

/-- The `l` entries from `s` on have the property. -/
def IsRun (p : α → Prop) (xs : List α) (s l : ℕ) : Prop :=
  s + l ≤ xs.length ∧ ∀ j, s ≤ j → j < s + l → ∃ x, xs[j]? = some x ∧ p x

/-- A longest run, and the first one of its length. -/
def IsFirstLongest (p : α → Prop) (xs : List α) (s l : ℕ) : Prop :=
  IsRun p xs s l ∧ ∀ s' l', IsRun p xs s' l' → 0 < l' → l' ≤ l ∧ (l' = l → s ≤ s')

/-- The run at the end, of length zero when the last entry does not have the property. -/
def IsLast (p : α → Prop) (xs : List α) (s l : ℕ) : Prop :=
  IsRun p xs s l ∧ (0 < l → s + l = xs.length) ∧
    ∀ s' l', IsRun p xs s' l' → s' + l' = xs.length → l' ≤ l

theorem isRun_zero (p : α → Prop) (xs : List α) : IsRun p xs 0 0 :=
  ⟨zero_le _, fun j _ hj => absurd hj (not_lt_zero j)⟩

theorem isFirstLongest_nil : IsFirstLongest p [] 0 0 := by
  refine ⟨isRun_zero p [], fun s' l' h hl => ?_⟩
  have := h.1
  rw [length_nil] at this
  omega

theorem isLast_nil : IsLast p [] 0 0 :=
  ⟨isRun_zero p [], fun h => absurd h (Nat.lt_irrefl 0),
    fun _ _ h _ => Nat.le_trans (Nat.le_add_left _ _) h.1⟩

theorem IsRun.append (h : IsRun p xs s l) (ys : List α) : IsRun p (xs ++ ys) s l := by
  refine ⟨?_, fun j hj hjl => ?_⟩
  · have := h.1
    rw [length_append]
    omega
  · obtain ⟨x, hx, hp⟩ := h.2 j hj hjl
    have := h.1
    exact ⟨x, by rw [getElem?_append_left (by omega), hx], hp⟩

/-- A run of a longer list is one of the list without the last entry, when it ends before it. -/
theorem IsRun.of_concat (h : IsRun p (xs ++ [x]) s l) (hl : s + l ≤ xs.length) :
    IsRun p xs s l := by
  refine ⟨hl, fun j hj hjl => ?_⟩
  obtain ⟨y, hy, hp⟩ := h.2 j hj hjl
  rw [getElem?_append_left (by omega)] at hy
  exact ⟨y, hy, hp⟩

theorem IsRun.shorten (h : IsRun p xs s l) (hl : l' ≤ l) : IsRun p xs s l' :=
  ⟨by have := h.1; omega, fun j hj hjl => h.2 j hj (by omega)⟩

/-- A run that reaches the last entry. -/
theorem IsRun.concat_last (h : IsRun p (xs ++ [x]) s l) (hend : s + l = (xs ++ [x]).length)
    (hl : 0 < l) : p x := by
  rw [length_append, length_singleton] at hend
  obtain ⟨y, hy, hp⟩ := h.2 xs.length (by omega) (by omega)
  rw [getElem?_append_right (Nat.le_refl _), Nat.sub_self, getElem?_cons_zero,
    Option.some.injEq] at hy
  exact hy ▸ hp

theorem IsLast.concat (h : IsLast p xs s l) (hx : p x) :
    IsLast p (xs ++ [x]) (if l = 0 then xs.length else s) (l + 1) := by
  obtain ⟨hrun, hend, hmax⟩ := h
  have hlen : (if l = 0 then xs.length else s) + l = xs.length := by
    split
    · omega
    · exact hend (by omega)
  refine ⟨⟨?_, fun j hj hjl => ?_⟩, fun _ => ?_, fun s' l' h' hend' => ?_⟩
  · rw [length_append, length_singleton]
    omega
  · rcases Nat.lt_or_ge j xs.length with hlt | hge
    · have hpos : l ≠ 0 := by
        rintro rfl
        rw [if_pos rfl] at hj
        omega
      rw [if_neg hpos] at hj hlen
      exact (hrun.append [x]).2 j hj (by omega)
    · obtain rfl : j = xs.length := by omega
      exact ⟨x, by simp, hx⟩
  · rw [length_append, length_singleton]
    omega
  · rw [length_append, length_singleton] at hend'
    rcases Nat.eq_zero_or_pos l' with rfl | hpos
    · omega
    · have := hmax s' (l' - 1) ((h'.shorten (sub_le l' 1)).of_concat (by omega)) (by omega)
      omega

theorem isLast_concat_of_not (hx : ¬ p x) : IsLast p (xs ++ [x]) 0 0 := by
  refine ⟨isRun_zero p _, fun h => absurd h (Nat.lt_irrefl 0), fun s' l' h hend => ?_⟩
  rcases Nat.eq_zero_or_pos l' with rfl | hpos
  · exact Nat.le_refl 0
  · exact absurd (h.concat_last hend hpos) hx

/-- The run at the end is the longest if it is longer than the longest before. -/
theorem IsFirstLongest.concat_of_lt (h : IsFirstLongest p xs s l)
    (hlast : IsLast p (xs ++ [x]) s' l') (hlt : l < l') : IsFirstLongest p (xs ++ [x]) s' l' := by
  refine ⟨hlast.1, fun t m hrun hm => ?_⟩
  have hend := hlast.2.1 (by omega)
  by_cases hinside : t + m ≤ xs.length
  · have := (h.2 t m (hrun.of_concat hinside) hm).1
    exact ⟨by omega, by omega⟩
  · have hle := hrun.1
    rw [length_append, length_singleton] at hle hend
    have := hlast.2.2 t m hrun (by rw [length_append, length_singleton]; omega)
    exact ⟨by omega, by omega⟩

/-- The longest run stays it if the run at the end is not longer. -/
theorem IsFirstLongest.concat_of_le (h : IsFirstLongest p xs s l)
    (hlast : IsLast p (xs ++ [x]) s' l') (hle : l' ≤ l) : IsFirstLongest p (xs ++ [x]) s l := by
  refine ⟨h.1.append [x], fun t m hrun hm => ?_⟩
  by_cases hinside : t + m ≤ xs.length
  · exact h.2 t m (hrun.of_concat hinside) hm
  · have hbound := hrun.1
    rw [length_append, length_singleton] at hbound
    have := hlast.2.2 t m hrun (by rw [length_append, length_singleton]; omega)
    have := h.1.1
    exact ⟨by omega, by omega⟩

/-- A list around a run of one value. -/
theorem IsRun.eq_append {a : α} (h : IsRun (· = a) xs s l) :
    xs = xs.take s ++ replicate l a ++ xs.drop (s + l) := by
  have hrun : (xs.drop s).take l = replicate l a := by
    refine eq_replicate_iff.mpr ⟨?_, fun b hb => ?_⟩
    · have := h.1
      rw [length_take, length_drop]
      omega
    obtain ⟨j, hj⟩ := mem_iff_getElem?.mp hb
    have hjl : j < l := by
      have := (List.getElem?_eq_some_iff.mp hj).1
      rw [length_take] at this
      omega
    rw [getElem?_take_of_lt hjl, getElem?_drop] at hj
    obtain ⟨x, hx, rfl⟩ := h.2 (s + j) (le_add_right s j) (by omega)
    rw [hj, Option.some.injEq] at hx
    exact hx
  rw [← hrun, append_assoc, ← drop_drop, take_append_drop, take_append_drop]

end RustStd
