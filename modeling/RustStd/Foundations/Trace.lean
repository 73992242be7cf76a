import RustStd.Foundations.Exec

/-!
# Traces

What a list of operations does, step by step. A step of the machine yields an answer and the next
state; an answer that stops the machine ends the run. An invariant that every step keeps holds along
every trace, and with it what each single step promises (`trace_spec`).
-/

namespace RustStd

variable {S O R : Type}

/-- One step of a run. -/
structure Traced (S O R : Type) where
  before : S
  op : O
  answer : R
  after : S

/-- The steps of the operations, up to the first answer that stops the machine. -/
def trace (step : O → S → Exec (R × S)) (stop : R → Bool) : List O → S → Exec (List (Traced S O R))
  | [], _ => .ok []
  | op :: ops, s => do
    let (r, s') ← step op s
    if stop r then return [⟨s, op, r, s'⟩]
    return ⟨s, op, r, s'⟩ :: (← trace step stop ops s')

/-- **Invariants along a trace.** No step faults, and each is good. -/
theorem trace_spec {step : O → S → Exec (R × S)} (stop : R → Bool) {Inv : S → Prop}
    {Good : Traced S O R → Prop}
    (h : ∀ op s, Inv s → ∃ r s', step op s = .ok (r, s') ∧ Inv s' ∧ Good ⟨s, op, r, s'⟩)
    (ops : List O) {s : S} (hs : Inv s) :
    ∃ steps, trace step stop ops s = .ok steps ∧ ∀ st ∈ steps, Inv st.after ∧ Good st := by
  induction ops generalizing s with
  | nil => exact ⟨[], rfl, fun _ hst => absurd hst List.not_mem_nil⟩
  | cons op ops ih =>
    obtain ⟨r, s', hstep, hs', hgood⟩ := h op s hs
    rw [trace, hstep, Exec.bind_ok]
    by_cases hstop : stop r
    · refine ⟨_, if_pos hstop, fun st hst => ?_⟩
      rw [List.mem_singleton.mp hst]
      exact ⟨hs', hgood⟩
    obtain ⟨steps, hrun, hall⟩ := ih hs'
    refine ⟨⟨s, op, r, s'⟩ :: steps, ?_, fun st hst => ?_⟩
    · dsimp only
      rw [if_neg hstop, hrun]
      rfl
    · rcases List.mem_cons.mp hst with rfl | hst
      · exact ⟨hs', hgood⟩
      · exact hall st hst

end RustStd
