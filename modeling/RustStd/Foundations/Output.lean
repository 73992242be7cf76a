import Mathlib.Data.List.Basic

/-!
# Code with a sink

Code that calls a sink and sees whether each call succeeded, as the tree of what it may do. Code
that returns an error as soon as a call fails (`Stops`) is told by the calls of its good run: with
any sink it makes these calls up to the first that fails (`run_eq_feed`).
-/

namespace RustStd

open Option

/-- Code that returns, faults, or calls a sink and goes on with whether that succeeded. -/
inductive Output (Q α : Type)
  | ret (a : α)
  | fault
  | call (q : Q) (k : Bool → Output Q α)

namespace Output

variable {Q α β σ : Type}

def bind : Output Q α → (α → Output Q β) → Output Q β
  | ret a, f => f a
  | fault, _ => fault
  | call q k, f => call q fun ok => (k ok).bind f

instance : Monad (Output Q) where
  pure := ret
  bind := bind

/-- What a partial function returns. -/
def lift : Option α → Output Q α
  | some a => ret a
  | none => fault

/-- `m?; n` -/
def attempt (m n : Output Q Bool) : Output Q Bool := m.bind fun ok => if ok then n else ret false

/-- Running with a sink. -/
def run (sink : Q → σ → Bool × σ) : Output Q α → σ → Option (α × σ)
  | ret a, s => some (a, s)
  | fault, _ => none
  | call q k, s => (k (sink q s).1).run sink (sink q s).2

/-- The run in which every call succeeds. -/
def calls : Output Q α → Option (List Q × α)
  | ret a => some ([], a)
  | fault => none
  | call q k => (k true).calls.map fun r => (q :: r.1, r.2)

/-- Calling a sink until a call fails. -/
def feed (sink : Q → σ → Bool × σ) : List Q → σ → Bool × σ
  | [], s => (true, s)
  | q :: qs, s => if (sink q s).1 then feed sink qs (sink q s).2 else (false, (sink q s).2)

/-- After a call has failed there is no other, and the result is an error. -/
def Stops (ok : α → Bool) : Output Q α → Prop
  | ret _ => True
  | fault => True
  | call _ k => (∃ a, k false = ret a ∧ ok a = false) ∧ (k true).Stops ok

/-! ## Sequences -/

section Bind

variable {m : Output Q α} {f : α → Output Q β}

@[simp] theorem bind_ret (a : α) (f : α → Output Q β) : (ret a : Output Q α).bind f = f a := rfl

@[simp] theorem bind_call (q : Q) (k : Bool → Output Q α) (f : α → Output Q β) :
    (call q k).bind f = call q fun ok => (k ok).bind f := rfl

theorem calls_bind (m : Output Q α) (f : α → Output Q β) : (m.bind f).calls =
    m.calls.bind fun r => (f r.2).calls.map fun r' => (r.1 ++ r'.1, r'.2) := by
  induction m with
  | ret a =>
    rw [bind_ret, calls, bind_some]
    cases (f a).calls <;> rfl
  | fault => rfl
  | call q k ih =>
    rw [bind_call, calls, calls, ih true]
    cases (k true).calls with
    | none => rfl
    | some r =>
      rw [bind_some, map_some, bind_some]
      cases (f r.2).calls <;> rfl

variable {ok : α → Bool}

/-- **A method of an object that remembers errors**: it does nothing after one. -/
def Remembers (ok : α → Bool) (ok' : β → Bool) (f : α → Output Q β) : Prop :=
  ∀ a, ok a = false → ∃ b, f a = ret b ∧ ok' b = false

/-- **A sequence stops** when its first part does, and the second on what the good run returns. -/
theorem Stops.bind {ok' : β → Bool} (h : m.Stops ok) (herr : Remembers ok ok' f)
    (hf : ∀ qs a, m.calls = some (qs, a) → (f a).Stops ok') : (m.bind f).Stops ok' := by
  induction m with
  | ret a => exact hf [] a rfl
  | fault => trivial
  | call q k ih =>
    obtain ⟨⟨a, ha, hok⟩, htrue⟩ := h
    obtain ⟨b, hb, hok'⟩ := herr a hok
    refine ⟨⟨b, ?_, hok'⟩, ih true htrue fun qs a hcalls => hf (q :: qs) a ?_⟩
    · change (k false).bind f = ret b
      rw [ha, bind_ret, hb]
    · rw [calls, hcalls]
      rfl

theorem Remembers.ret : Remembers ok ok (Output.ret : α → Output Q α) :=
  fun a ha => ⟨a, rfl, ha⟩

theorem Remembers.comp {γ : Type} {ok' : β → Bool} {ok'' : γ → Bool} {f : α → Output Q β}
    {g : β → Output Q γ} (hf : Remembers ok ok' f) (hg : Remembers ok' ok'' g) :
    Remembers ok ok'' fun a => (f a).bind g := by
  intro a ha
  obtain ⟨b, hb, hok⟩ := hf a ha
  obtain ⟨c, hc, hok'⟩ := hg b hok
  exact ⟨c, by simp only [hb, bind_ret, hc], hok'⟩

end Bind

/-! ## Runs -/

section Runs

variable {m : Output Q α}

/-- **Code that stops** makes the calls of its good run, up to the first that fails. -/
theorem run_eq_feed (sink : Q → σ → Bool × σ) {ok : α → Bool} (h : m.Stops ok) {qs : List Q} {a : α}
    (hcalls : m.calls = some (qs, a)) (s : σ) : ∃ b, m.run sink s = some (b, (feed sink qs s).2) ∧
      ((feed sink qs s).1 = true → b = a) ∧ ((feed sink qs s).1 = false → ok b = false) := by
  induction m generalizing qs s with
  | ret b =>
    obtain ⟨rfl, rfl⟩ := Prod.mk.inj (some.inj hcalls)
    exact ⟨b, rfl, fun _ => rfl, nofun⟩
  | fault => cases hcalls
  | call q k ih =>
    obtain ⟨⟨b, hb, hok⟩, htrue⟩ := h
    obtain ⟨⟨qs', a'⟩, hk, heq⟩ := map_eq_some_iff.mp hcalls
    obtain ⟨rfl, rfl⟩ := Prod.mk.inj heq
    rw [run, feed]
    cases hsink : (sink q s).1 with
    | true => exact ih true htrue hk (sink q s).2
    | false =>
      rw [hb]
      exact ⟨b, rfl, nofun, fun _ => hok⟩

end Runs

end Output

end RustStd
