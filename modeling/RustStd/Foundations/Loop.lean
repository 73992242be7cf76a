import Mathlib.Data.List.Basic

/-!
# Loops with a bound on the turns

A loop of an imperative program is run here by its body, a partial function from the loop's
state to the next turn: `none` is a memory fault (an index out of range, a misaligned read),
`Turn.again` another turn, `Turn.done` leaving the loop with a result. `runLoop` runs the body
at most a given number of times and has no result past that, so a result of `runLoop` states
termination as well. `runLoop_spec` is the rule for total correctness: an invariant and a
measure that every turn decreases.
-/

namespace RustStd

/-- What one turn of a loop does: go round again with a new state, or leave with a result. -/
inductive Turn (σ ρ : Type*)
  | again (s : σ)
  | done (r : ρ)
  deriving DecidableEq

variable {σ ρ : Type*}

/-- Run a loop for at most `n` turns. -/
def runLoop (body : σ → Option (Turn σ ρ)) : ℕ → σ → Option ρ
  | 0, _ => none
  | n + 1, s =>
    match body s with
    | none => none
    | some (.again s') => runLoop body n s'
    | some (.done r) => some r

variable (body : σ → Option (Turn σ ρ))
include body

theorem runLoop_succ (n : ℕ) (s : σ) : runLoop body (n + 1) s = match body s with
      | none => none
      | some (.again s') => runLoop body n s'
      | some (.done r) => some r := rfl

/-- What a turn must establish: the invariant and a smaller measure, or the postcondition. -/
def TurnSpec (Inv : σ → Prop) (measure : σ → ℕ) (Post : ρ → Prop) (s : σ) : Option (Turn σ ρ) → Prop
  | none => False
  | some (.again s') => Inv s' ∧ measure s' < measure s
  | some (.done r) => Post r

/-- **The loop rule**: an invariant kept by every turn, with a measure that every turn
decreases, gives a result that satisfies the postcondition. -/
theorem runLoop_spec (Inv : σ → Prop) (measure : σ → ℕ)
    (Post : ρ → Prop) (hbody : ∀ s, Inv s → TurnSpec Inv measure Post s (body s)) :
    ∀ (n : ℕ) (s : σ), Inv s → measure s < n → ∃ r, runLoop body n s = some r ∧ Post r := by
  intro n
  induction n with
  | zero => intro s _ hm; omega
  | succ n ih =>
    intro s hs hm
    have hturn := hbody s hs
    rw [runLoop_succ]
    match hb : body s with
    | none => rw [hb] at hturn; exact hturn.elim
    | some (.again s') =>
      rw [hb] at hturn
      exact ih s' hturn.1 (by have := hturn.2; omega)
    | some (.done r) =>
      rw [hb] at hturn
      exact ⟨r, rfl, hturn⟩

/-- The states in which the turns of a loop begin, and its result. -/
def heads (body : σ → Option (Turn σ ρ)) : ℕ → σ → Option (List σ × ρ)
  | 0, _ => none
  | n + 1, s =>
    match body s with
    | none => none
    | some (.again s') => (heads body n s').map fun r => (s :: r.1, r.2)
    | some (.done r) => some ([s], r)

theorem runLoop_eq_heads (n : ℕ) (s : σ) : runLoop body n s = (heads body n s).map Prod.snd := by
  induction n generalizing s with
  | zero => rfl
  | succ n ih =>
    rw [runLoop_succ, heads]
    match body s with
    | none => rfl
    | some (.again s') =>
      rw [Option.map_map]
      exact ih s'
    | some (.done r) => rfl

omit body

/-- **The rule of a loop over indices**: an invariant that holds at each of them. -/
theorem foldlM_range'_spec {body : σ → ℕ → Option σ} {Inv : ℕ → σ → Prop} {start count : ℕ}
    (hbody : ∀ i s, i < start + count → Inv i s → ∃ s', body s i = some s' ∧ Inv (i + 1) s') {s : σ}
    (hs : Inv start s) :
    ∃ s', (List.range' start count).foldlM body s = some s' ∧ Inv (start + count) s' := by
  induction count generalizing start s with
  | zero => exact ⟨s, rfl, hs⟩
  | succ count ih =>
    obtain ⟨s1, hstep, hs1⟩ := hbody start s (by omega) hs
    obtain ⟨s', hrun, hs'⟩ := ih (fun i s hi => hbody i s (by omega)) hs1
    refine ⟨s', ?_, ?_⟩
    · rw [List.range'_succ, List.foldlM_cons, hstep]
      exact hrun
    · rwa [Nat.add_right_comm] at hs'

/-- What a result of a loop satisfies, when every turn keeps an invariant. -/
theorem runLoop_inv {body : σ → Option (Turn σ ρ)} {Inv : σ → Prop} {Post : ρ → Prop}
    (hagain : ∀ s s', Inv s → body s = some (.again s') → Inv s')
    (hdone : ∀ s r, Inv s → body s = some (.done r) → Post r) {n : ℕ} {s : σ} {r : ρ} (hs : Inv s)
    (hrun : runLoop body n s = some r) : Post r := by
  induction n generalizing s with
  | zero => cases hrun
  | succ n ih =>
    rw [runLoop_succ] at hrun
    match hb : body s with
    | none =>
      rw [hb] at hrun
      cases hrun
    | some (.again s') =>
      rw [hb] at hrun
      exact ih (hagain s s' hs hb) hrun
    | some (.done r') =>
      rw [hb] at hrun
      obtain rfl := Option.some.inj hrun
      exact hdone s r' hs hb

/-- Loops whose turns agree wherever an invariant of one of them holds. -/
theorem runLoop_congr {body body' : σ → Option (Turn σ ρ)} (Inv : σ → Prop)
    (h : ∀ s, Inv s → body' s = body s)
    (hagain : ∀ s s', Inv s → body s = some (.again s') → Inv s') (n : ℕ) {s : σ} (hs : Inv s) :
    runLoop body' n s = runLoop body n s := by
  induction n generalizing s with
  | zero => rfl
  | succ n ih =>
    rw [runLoop_succ, runLoop_succ, h s hs]
    match hb : body s with
    | none => rfl
    | some (.again s') => exact ih (hagain s s' hs hb)
    | some (.done r) => rfl

end RustStd
