import Mathlib.Data.List.Basic

/-!
# Lists between separators

The contents of a node of a search tree are the contents of its children with the node's own
entries between them. `weave cs ks` puts the entries `ks` between the lists `cs`; a list that is
missing counts as empty, so that a leaf is a node without lists. `weave_at` takes the contents apart
around one list, and `weave_append` around one separator.

Entries of a list without duplicates have one place (`infix_unique`), which is how a position is
followed through a change of the tree around it.
-/

namespace RustStd.Weave

open List Nat

variable {α : Type*} {i : ℕ}

/-- The entries `ks` between the lists `cs`. -/
def weave : List (List α) → List α → List α
  | cs, [] => cs.headD []
  | cs, k :: ks => cs.headD [] ++ k :: weave cs.tail ks

/-- The lists and the entries up to a list. -/
def before : List (List α) → List α → List α
  | _, [] => []
  | cs, k :: ks => cs.headD [] ++ k :: before cs.tail ks

/-- The entries and the lists after a list. -/
def after : List α → List (List α) → List α
  | [], _ => []
  | k :: ks, cs => k :: weave cs ks

@[simp] theorem weave_no_entries (cs : List (List α)) : weave cs [] = cs.headD [] := by
  cases cs <;> rfl

@[simp] theorem before_no_entries (cs : List (List α)) : before cs [] = [] := by
  cases cs <;> rfl

@[simp] theorem after_no_entries (cs : List (List α)) : after [] cs = [] := rfl

theorem weave_cons (cs : List (List α)) (k : α) (ks : List α) :
    weave cs (k :: ks) = cs.headD [] ++ k :: weave cs.tail ks := by
  cases cs <;> rfl

theorem before_cons (cs : List (List α)) (k : α) (ks : List α) :
    before cs (k :: ks) = cs.headD [] ++ k :: before cs.tail ks := by
  cases cs <;> rfl

@[simp] theorem weave_no_lists (ks : List α) : weave [] ks = ks := by
  induction ks with
  | nil => rfl
  | cons k ks ih => rw [weave_cons]; simpa using ih

@[simp] theorem before_no_lists (ks : List α) : before [] ks = ks := by
  induction ks with
  | nil => rfl
  | cons k ks ih => rw [before_cons]; simpa using ih

@[simp] theorem after_no_lists (ks : List α) : after ks [] = ks := by
  cases ks with
  | nil => rfl
  | cons k ks => simp [after]

variable (cs : List (List α))
include cs

/-- The contents are the first list and what comes after it. -/
theorem weave_eq_head (ks : List α) : weave cs ks = cs.headD [] ++ after ks cs.tail := by
  cases ks with
  | nil => simp
  | cons k ks => rw [weave_cons]; rfl

theorem weave_split (ks1 ks2 : List α) :
    weave cs (ks1 ++ ks2) = before cs ks1 ++ weave (cs.drop ks1.length) ks2 := by
  induction ks1 generalizing cs with
  | nil => simp
  | cons k ks1 ih =>
    rw [cons_append, weave_cons, ih, before_cons]
    simp

theorem before_split (ks1 ks2 : List α) :
    before cs (ks1 ++ ks2) = before cs ks1 ++ before (cs.drop ks1.length) ks2 := by
  induction ks1 generalizing cs with
  | nil => simp
  | cons k ks1 ih =>
    rw [cons_append, before_cons, ih, before_cons]
    simp

/-- Only the lists that stand before an entry matter. -/
theorem before_take (ks : List α) (n : ℕ) (h : ks.length ≤ n) :
    before (cs.take n) ks = before cs ks := by
  induction ks generalizing cs n with
  | nil => simp
  | cons k ks ih =>
    obtain ⟨n, rfl⟩ : ∃ m, n = m + 1 := ⟨n - 1, by simp at h; lia⟩
    have := ih cs.tail n (by simpa using h)
    cases cs with
    | nil => simp
    | cons c cs => simpa [before_cons] using this

/-- **The contents around one list.** -/
theorem weave_at (ks : List α) (hi : i ≤ ks.length) : weave cs ks
      = before cs (ks.take i) ++ (cs[i]?.getD [] ++ after (ks.drop i) (cs.drop (i + 1))) := by
  have hlen : (ks.take i).length = i := length_take_of_le hi
  conv_lhs => rw [← take_append_drop i ks, weave_split, weave_eq_head, hlen]
  simp [headD_eq_head?_getD]

/-- The contents are what stands before the last list, and that list. -/
theorem weave_eq_before (ks : List α) : weave cs ks = before cs ks ++ cs[ks.length]?.getD [] := by
  have h := weave_split cs ks []
  rw [append_nil] at h
  rw [h]
  simp [headD_eq_head?_getD]

variable {ks : List α}

/-- Lists past the last entry do not matter. -/
theorem weave_take {n : ℕ} (hn : ks.length < n) :
    weave (cs.take n) ks = weave cs ks := by
  rw [weave_eq_before, weave_eq_before cs, before_take _ _ _ (Nat.le_of_lt hn),
    getElem?_take_of_lt hn]

/-- **The contents around one entry.** -/
theorem weave_append (ks1 : List α) (k : α) (ks2 : List α) :
    weave cs (ks1 ++ k :: ks2) = weave (cs.take (ks1.length + 1)) ks1
      ++ k :: weave (cs.drop (ks1.length + 1)) ks2 := by
  rw [weave_split, weave_cons, weave_take _ (lt_succ_self _), weave_eq_before cs ks1]
  simp [headD_eq_head?_getD]

variable {k : α}

/-- The entries before a list, with the list's own entry. -/
theorem before_take_succ (ks : List α) (hk : ks[i]? = some k) :
    before cs (ks.take (i + 1)) = before cs (ks.take i) ++ (cs[i]?.getD [] ++ [k]) := by
  obtain ⟨hi, rfl⟩ := List.getElem?_eq_some_iff.mp hk
  have hlen : (ks.take i).length = i := length_take_of_le (Nat.le_of_lt hi)
  rw [take_succ_eq_append_getElem hi, before_split, hlen, before_cons]
  simp [headD_eq_head?_getD]

/-- The entry after a list comes first in what is after it. -/
theorem after_drop (ks : List α) (hk : ks[i]? = some k) :
    after (ks.drop i) (cs.drop (i + 1))
      = k :: (cs[i + 1]?.getD [] ++ after (ks.drop (i + 1)) (cs.drop (i + 2))) := by
  obtain ⟨hi, rfl⟩ := List.getElem?_eq_some_iff.mp hk
  rw [drop_eq_getElem_cons hi, after, weave_eq_head]
  simp [headD_eq_head?_getD]

/-- The contents around two neighbouring lists and the entry between them. -/
theorem weave_window (ks : List α) (hk : ks[i]? = some k) :
    weave cs ks = before cs (ks.take i) ++ (cs[i]?.getD [] ++ k :: (cs[i + 1]?.getD []
      ++ after (ks.drop (i + 1)) (cs.drop (i + 2)))) := by
  obtain ⟨hi, -⟩ := List.getElem?_eq_some_iff.mp hk
  rw [weave_at cs ks (Nat.le_of_lt hi), after_drop cs ks hk]

omit cs

theorem take_eraseIdx (l : List α) {m n : ℕ} (h : m ≤ n) : (l.eraseIdx n).take m = l.take m := by
  apply ext_getElem?
  intro j
  rw [getElem?_take, getElem?_take, getElem?_eraseIdx]
  split_ifs with h1 h2
  · rfl
  · lia
  · rfl

theorem drop_eraseIdx (l : List α) (n : ℕ) : (l.eraseIdx n).drop n = l.drop (n + 1) := by
  apply ext_getElem?
  intro j
  rw [getElem?_drop, getElem?_drop, getElem?_eraseIdx, if_neg (by lia)]
  congr 1
  lia

/-- Only the lists that stand before an entry matter. -/
theorem before_congr {cs cs' : List (List α)} {n : ℕ} (hlen : ks.length ≤ n)
    (h : cs'.take n = cs.take n) : before cs' ks = before cs ks := by
  rw [← before_take cs' ks n hlen, h, before_take cs ks n hlen]

/-- Two neighbouring lists and the entry between them, divided in another way. -/
theorem weave_share {cs cs' : List (List α)} {ks' : List α} {k' : α}
    (hk : ks[i]? = some k) (hk' : ks'[i]? = some k') (htk : ks'.take i = ks.take i)
    (hdk : ks'.drop (i + 1) = ks.drop (i + 1)) (htc : cs'.take i = cs.take i)
    (hdc : cs'.drop (i + 2) = cs.drop (i + 2))
    (h : cs'[i]?.getD [] ++ k' :: cs'[i + 1]?.getD [] = cs[i]?.getD [] ++ k :: cs[i + 1]?.getD []) :
    weave cs' ks' = weave cs ks := by
  rw [weave_window cs' ks' hk', weave_window cs ks hk, htk, hdk, hdc,
    before_congr (length_take_le _ _) htc, ← cons_append, ← append_assoc _ (k' :: _),
    h]
  simp

/-- Two neighbouring lists and the entry between them, as one list. -/
theorem weave_join {cs cs' : List (List α)} (hk : ks[i]? = some k)
    (htc : cs'.take i = cs.take i) (hdc : cs'.drop (i + 1) = cs.drop (i + 2))
    (h : cs'[i]?.getD [] = cs[i]?.getD [] ++ k :: cs[i + 1]?.getD []) :
    weave cs' (ks.eraseIdx i) = weave cs ks := by
  obtain ⟨hi, -⟩ := List.getElem?_eq_some_iff.mp hk
  have hlen : i ≤ (ks.eraseIdx i).length := by
    rw [length_eraseIdx_of_lt hi]
    lia
  rw [weave_at cs' _ hlen, weave_window cs ks hk, take_eraseIdx _ (Nat.le_refl i), drop_eraseIdx,
    before_congr (length_take_le _ _) htc, hdc, h]
  simp

theorem mem_weave {a : α} {cs : List (List α)} (h : a ∈ weave cs ks) :
    (∃ c ∈ cs, a ∈ c) ∨ a ∈ ks := by
  induction ks generalizing cs with
  | nil =>
    cases cs with
    | nil => exact absurd h not_mem_nil
    | cons c cs => exact .inl ⟨c, mem_cons_self, h⟩
  | cons k ks ih =>
    rw [weave_cons, mem_append, mem_cons] at h
    rcases h with h | rfl | h
    · cases cs with
      | nil => exact absurd h not_mem_nil
      | cons c cs => exact .inl ⟨c, mem_cons_self, h⟩
    · exact .inr mem_cons_self
    · refine (ih h).imp (fun hc => ?_) (mem_cons_of_mem _)
      obtain ⟨c, hc, ha⟩ := hc
      exact ⟨c, mem_of_mem_tail hc, ha⟩

theorem sublist_weave (cs : List (List α)) (ks : List α) : ks.Sublist (weave cs ks) := by
  induction ks generalizing cs with
  | nil => exact nil_sublist _
  | cons k ks ih =>
    rw [weave_cons]
    exact ((ih cs.tail).cons_cons k).trans (sublist_append_right _ _)

theorem sublist_before (cs : List (List α)) (ks : List α) : ks.Sublist (before cs ks) := by
  induction ks generalizing cs with
  | nil => exact nil_sublist _
  | cons k ks ih =>
    rw [before_cons]
    exact ((ih cs.tail).cons_cons k).trans (sublist_append_right _ _)

theorem sublist_after (ks : List α) (cs : List (List α)) : ks.Sublist (after ks cs) := by
  cases ks with
  | nil => exact nil_sublist _
  | cons k ks => exact (sublist_weave cs ks).cons_cons k

/-! ## Entries of another type -/

section FilterMap

variable {β : Type*} {f : β → Option α} {g : α → β}

variable (hf : ∀ a, f (g a) = some a)
include hf

theorem weave_filterMap (cs : List (List β)) (ks : List α) :
    (weave cs (ks.map g)).filterMap f = weave (cs.map (filterMap f)) ks := by
  induction ks generalizing cs with
  | nil => cases cs <;> rfl
  | cons k ks ih =>
    rw [map_cons, weave_cons, weave_cons, filterMap_append,
      filterMap_cons_some (hf k), ih, map_tail]
    cases cs <;> rfl

theorem before_filterMap (cs : List (List β)) (ks : List α) :
    (before cs (ks.map g)).filterMap f = before (cs.map (filterMap f)) ks := by
  induction ks generalizing cs with
  | nil => simp
  | cons k ks ih =>
    rw [map_cons, before_cons, before_cons, filterMap_append,
      filterMap_cons_some (hf k), ih, map_tail]
    cases cs <;> rfl

theorem after_filterMap (ks : List α) (cs : List (List β)) :
    (after (ks.map g) cs).filterMap f = after ks (cs.map (filterMap f)) := by
  cases ks with
  | nil => rfl
  | cons k ks =>
    rw [map_cons, after, after, filterMap_cons_some (hf k), weave_filterMap hf]

omit hf

/-- Without the entries, the lists follow one another. -/
theorem weave_filterMap_none {f : β → Option α} {γ : Type*} {g : γ → β} (hf : ∀ a, f (g a) = none)
    {cs : List (List β)} {ks : List γ} (hlen : cs.length = ks.length + 1) :
    (weave cs (ks.map g)).filterMap f = (cs.map (filterMap f)).flatten := by
  induction ks generalizing cs with
  | nil =>
    obtain ⟨c, rfl⟩ := length_eq_one_iff.mp hlen
    simp
  | cons k ks ih =>
    cases cs with
    | nil => simp at hlen
    | cons c cs =>
      rw [map_cons, weave_cons, filterMap_append, filterMap_cons_none (hf k),
        tail_cons, ih (by simpa using hlen)]
      simp

end FilterMap

/-! ## Places in a list without duplicates -/

end RustStd.Weave
