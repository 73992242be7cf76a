import RustStd.Foundations.Exec
import Mathlib.Data.List.Basic

/-!
# Extraction from a list

A predicate with a state is called on the elements of a list in order; it may change each and takes
some out, one to a call of `next`. `Extraction` says what a number of calls have done, and how calls
are put together (`Extraction.append`) from what a call meets: an element that stays, one that is
taken, a panic, or the end of the list.
-/

namespace RustStd.Visiting

open List

variable {α σ : Type}

/-- A predicate: its new state, what it leaves of the element, and its answer unless it panics. -/
abbrev Pred (σ α : Type) := σ → α → σ × α × Option Bool

section Lists

variable (pred : Pred σ α)

/-- The predicate is called on each element of a list, in order: what it leaves of each, and what it
answers. -/
inductive Visits : σ → List α → List (α × Bool) → σ → Prop
  | nil (s : σ) : Visits s [] [] s
  | cons {s s1 s' : σ} {x y : α} {b : Bool} {xs : List α} {marks : List (α × Bool)}
      (call : pred s x = (s1, y, some b)) (rest : Visits s1 xs marks s') :
      Visits s (x :: xs) ((y, b) :: marks) s'

/-- The elements that were selected. -/
def selected (marks : List (α × Bool)) : List α := (marks.filter Prod.snd).map Prod.fst

/-- The elements that were not. -/
def kept (marks : List (α × Bool)) : List α := (marks.filter fun m => !m.2).map Prod.fst

/-- The answers that a call adds: none when it unwinds. -/
def told (answer : Option α) : Exit → List (Option α)
  | .returned => [answer]
  | .unwound => []

/-- What `n` calls of `next` do to a range: the elements visited with what the predicate left of
them and answered, the answers of the calls, and the elements that were not visited. When a call
unwinds, the first of these is the one the predicate panicked on. -/
structure Extraction (n : ℕ) (s : σ) (range : List α) (marks : List (α × Bool))
    (answers : List (Option α)) (exit : Exit) (s' : σ) (rest : List α) : Prop where
  visits : ∃ s1, Visits pred s (range.take marks.length) marks s1 ∧ match exit with
    | .returned => s' = s1 ∧ rest = range.drop marks.length
    | .unwound => ∃ x xs y, range.drop marks.length = x :: xs ∧ pred s1 x = (s', y, none) ∧
        rest = y :: xs
  told : ∃ k, answers = (selected marks).map some ++ replicate k none ∧
    (k ≠ 0 → exit = .returned ∧ rest = [])
  returned : exit = .returned → answers.length = n
  unwound : exit = .unwound → answers.length < n
  lazy : exit = .returned → answers.length = (selected marks).length →
    marks = [] ∨ ∃ y, marks.getLast? = some (y, true)

end Lists

variable {pred : Pred σ α} {s s' s1 : σ} {xs range rest : List α} {marks : List (α × Bool)}

theorem Visits.length (h : Visits pred s xs marks s') : marks.length = xs.length := by
  induction h with
  | nil => rfl
  | cons call rest ih => rw [length_cons, length_cons, ih]

theorem Visits.append {ys : List α} {marks' : List (α × Bool)} (h : Visits pred s xs marks s1)
    (h' : Visits pred s1 ys marks' s') : Visits pred s (xs ++ ys) (marks ++ marks') s' := by
  induction h with
  | nil => exact h'
  | cons call rest ih => exact .cons call (ih h')

@[simp] theorem selected_append (m m' : List (α × Bool)) :
    selected (m ++ m') = selected m ++ selected m' := by simp [selected]

@[simp] theorem kept_append (m m' : List (α × Bool)) : kept (m ++ m') = kept m ++ kept m' := by
  simp [kept]

theorem Extraction.zero (s : σ) (range : List α) :
    Extraction pred 0 s range [] [] .returned s range :=
  ⟨⟨s, .nil s, rfl, rfl⟩, ⟨0, rfl, fun h => absurd rfl h⟩, fun _ => rfl, nofun, fun _ _ => Or.inl
  rfl⟩

theorem Extraction.exhausted (s : σ) : Extraction pred 1 s [] [] [none] .returned s [] :=
  ⟨⟨s, .nil s, rfl, rfl⟩, ⟨1, rfl, fun _ => ⟨rfl, rfl⟩⟩, fun _ => rfl, nofun,
    fun _ h => by simp [selected] at h⟩

theorem Extraction.panics {x y : α} (call : pred s x = (s', y, none)) (n : ℕ) :
    Extraction pred (n + 1) s (x :: xs) [] [] .unwound s' (y :: xs) :=
  ⟨⟨s, .nil s, x, xs, y, rfl, call, rfl⟩, ⟨0, rfl, fun h => absurd rfl h⟩, nofun,
    fun _ => Nat.succ_pos n, nofun⟩

theorem Extraction.takes {x y : α} (call : pred s x = (s', y, some true)) :
    Extraction pred 1 s (x :: xs) [(y, true)] [some y] .returned s' xs :=
  ⟨⟨s', .cons call (.nil s'), rfl, rfl⟩, ⟨0, rfl, fun h => absurd rfl h⟩, fun _ => rfl,
    nofun, fun _ _ => Or.inr ⟨y, rfl⟩⟩

/-- An element that is kept comes before whatever the same call does next. -/
theorem Extraction.keep {n : ℕ} {x y : α} {answers : List (Option α)} {exit : Exit}
    (call : pred s x = (s1, y, some false))
    (h : Extraction pred (n + 1) s1 xs marks answers exit s' rest) :
    Extraction pred (n + 1) s (x :: xs) ((y, false) :: marks) answers exit s' rest := by
  obtain ⟨s2, hvisits, hend⟩ := h.visits
  refine ⟨⟨s2, .cons call hvisits, hend⟩, h.told, h.returned, h.unwound, fun hexit heq => Or.inr ?_⟩
  have hcount := h.returned hexit
  rcases h.lazy hexit heq with rfl | ⟨z, hz⟩
  · rw [hcount] at heq
    cases heq
  · refine ⟨z, ?_⟩
    rw [getLast?_cons, hz]
    rfl

/-- Calls after calls. -/
theorem Extraction.append {n n' : ℕ} {answers answers' : List (Option α)} {exit : Exit}
    {marks' : List (α × Bool)} {rest' : List α}
    (h : Extraction pred n s range marks answers .returned s1 rest)
    (h' : Extraction pred n' s1 rest marks' answers' exit s' rest') :
    Extraction pred (n + n') s range (marks ++ marks') (answers ++ answers') exit s' rest' := by
  obtain ⟨s2, hvisits, rfl, rfl⟩ := h.visits
  obtain ⟨s3, hvisits', hend⟩ := h'.visits
  obtain ⟨k, hk, hrest⟩ := h.told
  obtain ⟨k', hk', hrest'⟩ := h'.told
  have hcount := h.returned rfl
  refine ⟨⟨s3, ?_, ?_⟩, ?_, ?_, ?_, ?_⟩
  · rw [length_append, take_add]
    exact hvisits.append hvisits'
  · rw [length_append]
    simpa only [drop_drop] using hend
  · by_cases h0 : k = 0
    · subst h0
      refine ⟨k', ?_, hrest'⟩
      rw [selected_append, map_append, append_assoc, ← hk', hk]
      simp
    -- nothing was left to visit
    have hnil := (hrest h0).2
    rw [hnil, take_nil] at hvisits'
    have hmarks : marks' = [] := length_eq_zero_iff.1 hvisits'.length
    subst hmarks
    refine ⟨k + k', ?_, fun _ => ?_⟩
    · rw [hk, hk', append_nil, replicate_add]
      simp [selected]
    · cases exit with
      | returned => exact ⟨rfl, hend.2.trans (by rw [hnil]; rfl)⟩
      | unwound =>
        obtain ⟨x, xs, y, hdrop, -, -⟩ := hend
        rw [hnil] at hdrop
        cases hdrop
  · intro hexit
    rw [length_append, hcount, h'.returned hexit]
  · intro hexit
    rw [length_append, hcount]
    exact Nat.add_lt_add_left (h'.unwound hexit) n
  · intro hexit heq
    have hge : answers.length = (selected marks).length + k := by simp [hk]
    have hge' : answers'.length = (selected marks').length + k' := by simp [hk']
    rw [selected_append, length_append, length_append] at heq
    rcases h'.lazy hexit (by omega) with rfl | ⟨y, hy⟩
    · rw [append_nil]
      exact h.lazy rfl (by omega)
    · refine Or.inr ⟨y, ?_⟩
      rw [getLast?_append, hy]
      rfl

end RustStd.Visiting
