import Mathlib.Data.List.Basic

/-!
# Double-ended iteration

Taking elements of a list from both of its ends, in any order. An iterator whose state stands for a
list, and whose two steps take the first or the last element of it, answers every sequence of
requests as the list does (`run_spec`). The answers from one end tell the list (`eq_of_pops`).
-/

namespace RustStd.DoubleEnded

open List

variable {S α : Type}

/-- The end that is asked. -/
inductive End
  | front
  | back
  deriving DecidableEq, Repr

/-- The element at an end. -/
def End.peek : End → List α → Option α
  | .front, l => l.head?
  | .back, l => l.getLast?

/-- What is left without it. -/
def End.rest : End → List α → List α
  | .front, l => l.tail
  | .back, l => l.dropLast

/-- The answers of a list. -/
def pops : List End → List α → List (Option α)
  | [], _ => []
  | e :: es, l => e.peek l :: pops es (e.rest l)

theorem pops_cons (e : End) (es : List End) (l : List α) :
    pops (e :: es) l = e.peek l :: pops es (e.rest l) := rfl

/-- The elements that were not taken. -/
def left : List End → List α → List α
  | [], l => l
  | e :: es, l => left es (e.rest l)

/-- The answers of an iterator. -/
def run (step : End → S → Option (Option α × S)) : List End → S → Option (List (Option α) × S)
  | [], s => some ([], s)
  | e :: es, s => do
    let (r, s) ← step e s
    let (rs, s) ← run step es s
    return (r :: rs, s)

variable {R : S → List α → Prop} {l : List α}

/-- **The simulation rule**, for the ends that are asked. -/
theorem run_spec {step : End → S → Option (Option α × S)} (es : List End)
    (h : ∀ e ∈ es, ∀ s l, R s l → ∃ s', step e s = some (e.peek l, s') ∧ R s' (e.rest l))
    {s : S} (hs : R s l) :
    ∃ s', run step es s = some (pops es l, s') ∧ R s' (left es l) := by
  induction es generalizing s l with
  | nil => exact ⟨s, rfl, hs⟩
  | cons e es ih =>
    obtain ⟨s1, hstep, hs1⟩ := h e mem_cons_self s l hs
    obtain ⟨s', hrun, hs'⟩ := ih (fun e he => h e (mem_cons_of_mem _ he)) hs1
    refine ⟨s', ?_, hs'⟩
    rw [run, hstep]
    simp only [Option.bind_eq_bind, Option.bind_some, hrun]
    rfl

/-- The answers of an iterator whose steps are computations of a monad. -/
def runM {m : Type → Type} [Monad m] (step : End → S → m (Option α × S)) :
    List End → S → m (List (Option α) × S)
  | [], s => pure ([], s)
  | e :: es, s => do
    let (r, s) ← step e s
    let (rs, s) ← runM step es s
    pure (r :: rs, s)

/-- The simulation rule, for steps that are computations of a monad. -/
theorem runM_spec {m : Type → Type} [Monad m] [LawfulMonad m] {step : End → S → m (Option α × S)}
    (h : ∀ e s l, R s l → ∃ s', step e s = pure (e.peek l, s') ∧ R s' (e.rest l))
    (es : List End) {s : S} (hs : R s l) :
    ∃ s', runM step es s = pure (pops es l, s') ∧ R s' (left es l) := by
  induction es generalizing s l with
  | nil => exact ⟨s, rfl, hs⟩
  | cons e es ih =>
    obtain ⟨s1, hstep, hs1⟩ := h e s l hs
    obtain ⟨s', hrun, hs'⟩ := ih hs1
    refine ⟨s', ?_, hs'⟩
    rw [runM, hstep, pure_bind]
    dsimp only
    rw [hrun, pure_bind]
    rfl

/-- Collecting from the front. -/
theorem pops_front (l : List α) (n : ℕ) :
    pops (replicate (l.length + n) .front) l = l.map some ++ replicate n none := by
  induction l with
  | nil =>
    induction n with
    | zero => rfl
    | succ n ih => simpa [pops_cons, replicate_succ, End.peek, End.rest] using ih
  | cons x l ih =>
    rw [length_cons, Nat.succ_add, replicate_succ, pops_cons, End.rest, tail_cons, ih]
    rfl

/-- Collecting from the back mirrors collecting from the front. -/
theorem pops_back (l : List α) (n : ℕ) :
    pops (replicate n .back) l = pops (replicate n .front) l.reverse := by
  induction n generalizing l with
  | zero => rfl
  | succ n ih =>
    rw [replicate_succ, replicate_succ, pops_cons, pops_cons, ih, End.peek, End.peek,
      End.rest, End.rest, head?_reverse, tail_reverse]

/-- **The answers from one end** determine the list. -/
theorem eq_of_pops {m : List α} (e : End)
    (h : ∀ n, pops (replicate n e) l = pops (replicate n e) m) : l = m := by
  have hfront {l m : List α}
      (h : ∀ n, pops (replicate n .front) l = pops (replicate n .front) m) : l = m := by
    have hl := h (l.length + m.length)
    rw [pops_front, Nat.add_comm, pops_front] at hl
    have := congrArg (filterMap id) hl
    simpa [filterMap_append, filterMap_map] using this
  cases e with
  | front => exact hfront h
  | back =>
    refine reverse_injective (hfront fun n => ?_)
    rw [← pops_back, ← pops_back]
    exact h n

/-! ## What was taken -/

/-- The elements that were taken from an end, in the order they came. -/
def taken (e : End) : List End → List (Option α) → List α
  | e' :: es, r :: rs => if e' = e then r.toList ++ taken e es rs else taken e es rs
  | _, _ => []

theorem peek_eq_none_iff (e : End) (l : List α) : e.peek l = none ↔ l = [] := by
  cases e with
  | front => exact head?_eq_none_iff
  | back => exact getLast?_eq_none_iff

/-- **Both ends together** tell the list but for what is left of it. -/
theorem taken_pops (es : List End) (l : List α) :
    taken .front es (pops es l) ++ (left es l ++ (taken .back es (pops es l)).reverse) = l := by
  induction es generalizing l with
  | nil => simp [taken, left]
  | cons e es ih =>
    have hrest := ih (e.rest l)
    cases e with
    | front =>
      have hl : l.head?.toList ++ l.tail = l := by cases l <;> rfl
      rw [pops_cons, left, taken, if_pos rfl, taken, if_neg nofun, append_assoc, hrest]
      exact hl
    | back =>
      have hl : l.dropLast ++ l.getLast?.toList.reverse = l := by
        rcases eq_nil_or_concat l with rfl | ⟨l, x, rfl⟩
        · rfl
        · simp
      rw [pops_cons, left, taken, if_neg nofun, taken, if_pos rfl, reverse_append,
        ← append_assoc (left _ _), ← append_assoc, hrest]
      exact hl

/-- The elements of `l` are handed out: whatever was asked, those that came from the front are the
first of them and those that came from the back the last of them, and the next answer is `none`
exactly when nothing is left. -/
def Serves (step : End → S → Option (Option α × S)) (s : S) (l : List α) : Prop :=
  ∀ es, ∃ answers s' rest, run step es s = some (answers, s') ∧
    taken .front es answers ++ (rest ++ (taken .back es answers).reverse) = l ∧
    ∀ e, ∃ answer s'', step e s' = some (answer, s'') ∧ (answer = none ↔ rest = [])

theorem Serves.of_simulation {step : End → S → Option (Option α × S)}
    (h : ∀ e s l, R s l → ∃ s', step e s = some (e.peek l, s') ∧ R s' (e.rest l)) {s : S}
    (hs : R s l) : Serves step s l := by
  intro es
  obtain ⟨s', hrun, hs'⟩ := run_spec es (fun e _ => h e) hs
  refine ⟨_, s', left es l, hrun, taken_pops es l, fun e => ?_⟩
  obtain ⟨s'', hstep, -⟩ := h e s' _ hs'
  exact ⟨_, s'', hstep, peek_eq_none_iff e _⟩

end RustStd.DoubleEnded
