import RustStd.Foundations.Loop
import RustStd.Foundations.Word

/-!
# Binary search in a slice

`binary_search_by` of `core/src/slice/mod.rs`. The comparator has a state, so that it may answer
differently at each call. An unchecked read out of range and a hint that does not hold are faults.
-/

namespace RustStd.BinarySearch

open List

universe u

variable {α σ : Type u} (f : σ → α → Ordering × σ) (self : List α)

/-! ## The code -/

/-- `hint::assert_unchecked`, before `r` is returned. -/
def assert_unchecked {ρ : Type u} (cond : Bool) (r : ρ) : Option ρ := if cond then some r else none

/-- The variables of the loop, and the state of the comparator. -/
structure Vars (σ : Type u) where
  base : ℕ
  size : ℕ
  state : σ

def turn (s : Vars σ) : Option (Turn (Vars σ) (Vars σ)) :=
  if s.size > 1 then do
    let half := s.size / 2
    let mid := s.base + half
    let (cmp, state) := f s.state (← self[mid]?)
    some (.again ⟨if cmp = .gt then s.base else mid, s.size - half, state⟩)
  else some (.done s)

/-- What follows the loop. -/
def binary_search_end (s : Vars σ) : Option (Except ℕ ℕ × σ) := do
  let (cmp, state) := f s.state (← self[s.base]?)
  if cmp = .eq then assert_unchecked (s.base < self.length) (.ok s.base, state)
  else
    let result := s.base + if cmp = .lt then 1 else 0
    assert_unchecked (result ≤ self.length) (.error result, state)

def binary_search_by (state : σ) : Option (Except ℕ ℕ × σ) :=
  let size := self.length
  if size = 0 then some (.error 0, state)
  else do binary_search_end f self (← runLoop (turn f self) (size + 1) ⟨0, size, state⟩)

/-! ## What it returns -/

/-- An index of an element, or a place to insert one. -/
def InBounds (len : ℕ) : Except ℕ ℕ → Prop
  | .ok i => i < len
  | .error i => i ≤ len

/-- The index of a result `Equal`, or the number of results `Less` where there is none. -/
def Finds (results : List Ordering) : Except ℕ ℕ → Prop
  | .ok i => results[i]? = some .eq
  | .error i => .eq ∉ results ∧ i = results.count .lt

/-- The results of a comparator that orders a slice. -/
def runs (less equal greater : ℕ) : List Ordering :=
  replicate less .lt ++ (replicate equal .eq ++ replicate greater .gt)

/-- Whatever the state of the comparator, its results along the slice are the same. -/
def Answers (results : List Ordering) : Prop := ∀ state, self.map (fun x => (f state x).1) = results

variable {f self} {less equal greater : ℕ}

theorem Answers.length (h : Answers f self (runs less equal greater)) (state : σ) :
    self.length = less + (equal + greater) := by
  have hlen := congrArg List.length (h state)
  rwa [length_map, runs, length_append, length_append, length_replicate, length_replicate,
    length_replicate] at hlen

theorem getElem?_runs {i : ℕ} (h : i < less + (equal + greater)) : (runs less equal greater)[i]? =
      some (if i < less then .lt else if i < less + equal then .eq else .gt) := by
  rw [runs]
  split_ifs with hless hequal
  · rw [getElem?_append_left (by rwa [length_replicate]), getElem?_replicate_of_lt hless]
  all_goals rw [getElem?_append_right (by rw [length_replicate]; omega), length_replicate]
  · rw [getElem?_append_left (by rw [length_replicate]; omega), getElem?_replicate_of_lt (by omega)]
  · rw [getElem?_append_right (by rw [length_replicate]; omega), length_replicate,
      getElem?_replicate_of_lt (by omega)]

theorem Answers.eq (h : Answers f self (runs less equal greater)) (state : σ) {i : ℕ} {x : α}
    (hx : self[i]? = some x) :
    (f state x).1 = if i < less then .lt else if i < less + equal then .eq else .gt := by
  have hi := (List.getElem?_eq_some_iff.1 hx).1
  have hget := congrArg (·[i]?) (h state)
  simp only [getElem?_map, hx, Option.map_some] at hget
  rw [getElem?_runs (by rwa [← h.length state])] at hget
  exact Option.some.inj hget

theorem finds_error (less greater : ℕ) : Finds (runs less 0 greater) (.error less) := by
  simp [Finds, runs, count_replicate]

/-- The rest of the search. Nothing before `base` is greater, and all behind the rest is. -/
structure Inv (f : σ → α → Ordering × σ) (self : List α) (s : Vars σ) : Prop where
  pos : 1 ≤ s.size
  le : s.base + s.size ≤ self.length
  runs : ∀ less equal greater, Answers f self (runs less equal greater) →
    (s.base = 0 ∨ s.base < less + equal) ∧ less + equal ≤ s.base + s.size

theorem turn_spec (s : Vars σ) (h : Inv f self s) :
    TurnSpec (Inv f self) Vars.size (fun r => Inv f self r ∧ r.size = 1) s (turn f self s) := by
  obtain ⟨hpos, hle, hruns⟩ := h
  rw [turn]
  split_ifs with hsize
  · have hmid : s.base + s.size / 2 < self.length := by omega
    have hx := getElem?_eq_getElem hmid
    rcases hf : f s.state self[s.base + s.size / 2] with ⟨cmp, state⟩
    dsimp only
    rw [hx, some_bind, hf]
    refine ⟨⟨?_, ?_, fun less equal greater ha => ?_⟩, ?_⟩ <;> dsimp only
    · omega
    · split_ifs <;> omega
    · -- A result `Greater` at the middle is one everywhere behind it.
      obtain ⟨hbase, hend⟩ := hruns less equal greater ha
      have hcmp := ha.eq s.state hx
      rw [hf] at hcmp
      subst hcmp
      split_ifs <;> first | contradiction | omega
    · omega
  · exact ⟨⟨hpos, hle, hruns⟩, by omega⟩

theorem binary_search_end_spec {s : Vars σ} (h : Inv f self s) (hone : s.size = 1) :
    ∃ r state, binary_search_end f self s = some (r, state) ∧ InBounds self.length r ∧
      ∀ less equal greater, Answers f self (runs less equal greater) →
        Finds (runs less equal greater) r := by
  obtain ⟨hpos, hle, hruns⟩ := h
  have hbase : s.base < self.length := by omega
  have hx := getElem?_eq_getElem hbase
  rcases hf : f s.state self[s.base] with ⟨cmp, state⟩
  have hcmp {less equal greater : ℕ} (ha : Answers f self (runs less equal greater)) :
      cmp = if s.base < less then .lt else if s.base < less + equal then .eq else .gt := by
    have heq := ha.eq s.state hx
    rwa [hf] at heq
  rw [binary_search_end, hx, some_bind, hf]
  dsimp only
  by_cases heq : cmp = .eq
  · rw [if_pos heq]
    refine ⟨_, _, if_pos (decide_eq_true hbase), hbase, fun less equal greater ha => ?_⟩
    rw [Finds, getElem?_runs (by rwa [← ha.length state]), ← hcmp ha, heq]
  have hone : (if cmp = .lt then 1 else 0) ≤ 1 := by split_ifs <;> decide
  rw [if_neg heq]
  refine ⟨_, _, if_pos (decide_eq_true (by omega)), by rw [InBounds]; omega,
    fun less equal greater ha => ?_⟩
  obtain ⟨hstart, hend⟩ := hruns less equal greater ha
  have hnone : equal = 0 := by
    by_contra hne
    apply heq
    rw [hcmp ha, if_neg (by omega), if_pos (by omega)]
  subst hnone
  have hless : s.base + (if cmp = .lt then 1 else 0) = less := by
    by_cases hlt : s.base < less
    · rw [hcmp ha, if_pos hlt, if_pos rfl]
      omega
    · rw [hcmp ha, if_neg hlt, if_neg (show ¬s.base < less + 0 from hlt), if_neg (by decide)]
      omega
  rw [hless]
  exact finds_error less greater

/-- **`binary_search_by`** ends, reads only inside the slice and returns an index inside it,
whatever the comparator answers. Where the results are a run of `Less`, one of `Equal` and one of
`Greater`, it returns an index of the second run, or the length of the first when that one is
empty. -/
theorem binary_search_by_spec (f : σ → α → Ordering × σ) (self : List α) (state : σ) :
    ∃ r state', binary_search_by f self state = some (r, state') ∧ InBounds self.length r ∧
      ∀ less equal greater, Answers f self (runs less equal greater) →
        Finds (runs less equal greater) r := by
  rw [binary_search_by]
  split_ifs with hnil
  · refine ⟨_, _, rfl, Nat.zero_le _, fun less equal greater ha => ?_⟩
    have hlen := ha.length state
    obtain ⟨rfl, rfl, rfl⟩ : less = 0 ∧ equal = 0 ∧ greater = 0 := by omega
    exact ⟨not_mem_nil, rfl⟩
  have hinit : Inv f self ⟨0, self.length, state⟩ := by
    refine ⟨by dsimp only; omega, by dsimp only; omega, fun less equal greater ha => ⟨.inl rfl, ?_⟩⟩
    have hlen := ha.length state
    dsimp only
    omega
  obtain ⟨s, hrun, hinv, hone⟩ := runLoop_spec (turn f self) (Inv f self) Vars.size _ turn_spec
    (self.length + 1) _ hinit (Nat.lt_succ_self _)
  rw [hrun, some_bind]
  exact binary_search_end_spec hinv hone

end RustStd.BinarySearch
