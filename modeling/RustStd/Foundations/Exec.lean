import Mathlib.Data.Nat.Init

/-!
# Computations that may stop

A function of the source returns, unwinds with a panic, or would do what the language leaves
undefined (a read of memory out of bounds or never written). The last is `Stop.fault`: that a
computation returns or panics states that none of its accesses was one.
-/

namespace RustStd

/-- Why a computation stops early. -/
inductive Stop
  | panic
  | fault
  deriving DecidableEq, Repr

abbrev Exec (α : Type) := Except Stop α

@[simp] theorem Exec.bind_ok {α β : Type} (a : α) (f : α → Exec β) :
    (Except.ok a >>= f) = f a := rfl

@[simp] theorem Exec.bind_error {α β : Type} (e : Stop) (f : α → Exec β) :
    ((Except.error e : Exec α) >>= f) = .error e := rfl

/-- `m` panics, for `C`, or returns what satisfies `P`. -/
def PanicsOr {α : Type} (C : Prop) (m : Exec α) (P : α → Prop) : Prop :=
  (C ∧ m = .error .panic) ∨ ∃ a, m = .ok a ∧ P a

namespace PanicsOr

variable {α β : Type} {C C' : Prop} {m : Exec α} {f : α → Exec β} {a : α} {P P' : α → Prop}
variable {Q : β → Prop}

theorem ok (h : P a) : PanicsOr C (.ok a) P := Or.inr ⟨a, rfl, h⟩

theorem panic (h : C) : PanicsOr C (.error .panic) P := Or.inl ⟨h, rfl⟩

theorem bind (h : PanicsOr C m P) (hC : C → C') (hf : ∀ a, P a → PanicsOr C' (f a) Q) :
    PanicsOr C' (m >>= f) Q := by
  rcases h with ⟨hc, rfl⟩ | ⟨a, rfl, ha⟩
  · exact .panic (hC hc)
  · exact hf a ha

theorem imp (h : PanicsOr C m P) (hC : C → C') (hP : ∀ a, P a → P' a) : PanicsOr C' m P' :=
  Or.imp (fun h => ⟨hC h.1, h.2⟩) (fun ⟨a, ha, h⟩ => ⟨a, ha, hP a h⟩) h

end PanicsOr

/-- How a call ends that leaves a value behind when it unwinds. -/
inductive Exit
  | returned
  | unwound
  deriving DecidableEq, Repr

end RustStd
