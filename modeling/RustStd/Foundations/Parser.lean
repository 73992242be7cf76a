import RustStd.Foundations.Exec

/-!
# Backtracking parsers

A parser takes the rest of an input and returns a result, or none, together with what is then the
rest. `Reads p Text Stop` says what it accepts: a result comes with a text that denotes it and has
been consumed, and every text of the grammar `Text` is consumed when `Stop` holds of what follows
it. Two directions are needed because a parser without lookahead reads as far as it can: what
follows decides whether a text ends there. The rules compose `Reads` along the ways to compose
parsers; at the end of the input, `Reads.parses_iff`, the two directions are one equivalence.
-/

namespace RustStd

open List

/-- A parser over tokens of type `τ`. -/
def Parser (τ α : Type) := List τ → Exec (Option α × List τ)

namespace Parser

variable {τ α β : Type} {f : α → Parser τ β}

protected def pure (a : α) : Parser τ α := fun s => .ok (some a, s)

/-- One parser after the other; the first failure ends both. -/
protected def bind (p : Parser τ α) (f : α → Parser τ β) : Parser τ β := fun s =>
  match p s with
  | .ok (some a, s') => f a s'
  | .ok (none, s') => .ok (none, s')
  | .error e => .error e

instance : Monad (Parser τ) where
  pure := Parser.pure
  bind := Parser.bind

def fail : Parser τ α := fun s => .ok (none, s)

/-- A computation that does not read. -/
def lift (x : Exec α) : Parser τ α := fun s => x.map fun a => (some a, s)

/-- The second parser goes on where the first one failed. -/
def or_else (p q : Parser τ α) : Parser τ α := fun s =>
  match p s with
  | .ok (none, s') => q s'
  | r => r

theorem bind_some {p : Parser τ α} {s s' : List τ} {a : α}
    (h : p s = .ok (some a, s')) : (p >>= f) s = f a s' := by
  change Parser.bind p f s = _
  rw [Parser.bind, h]

theorem bind_none {p : Parser τ α} {s s' : List τ}
    (h : p s = .ok (none, s')) : (p >>= f) s = .ok (none, s') := by
  change Parser.bind p f s = _
  rw [Parser.bind, h]

theorem bind_lift {x : Exec α} {s : List τ} {a : α} (h : x = .ok a) :
    ((lift x : Parser τ α) >>= f) s = f a s :=
  bind_some (by rw [lift, h]; rfl)

/-- A failure leaves the input where it was. -/
def Restores (p : Parser τ α) : Prop := ∀ s s', p s = .ok (none, s') → s' = s

/-- The parser returns on every input. What it has a result for begins with a text that denotes
the result, and texts followed by something in `Stop` have a result. -/
structure Reads (p : Parser τ α) (Text : List τ → α → Prop) (Stop : List τ → Prop) : Prop where
  returns : ∀ s, ∃ r, p s = .ok r
  sound : ∀ s a s', p s = .ok (some a, s') → ∃ t, s = t ++ s' ∧ Text t a
  accepts : ∀ t a s', Text t a → Stop s' → p (t ++ s') = .ok (some a, s')

variable {p : Parser τ α} {Text Text' : List τ → α → Prop} {Stop Stop' : List τ → Prop}

theorem Reads.congr (h : Reads p Text Stop) (htext : ∀ t a, Text t a ↔ Text' t a) :
    Reads p Text' Stop where
  returns := h.returns
  sound := by
    intro s a s' hp
    obtain ⟨t, ht, htext'⟩ := h.sound s a s' hp
    exact ⟨t, ht, (htext t a).mp htext'⟩
  accepts := fun t a s' ht hs => h.accepts t a s' ((htext t a).mpr ht) hs

/-- A parser accepts less when more must follow. -/
theorem Reads.mono_stop (h : Reads p Text Stop) (hstop : ∀ s, Stop' s → Stop s) :
    Reads p Text Stop' where
  returns := h.returns
  sound := h.sound
  accepts := fun t a s' ht hs => h.accepts t a s' ht (hstop s' hs)

theorem reads_pure (a : α) :
    Reads (pure a : Parser τ α) (fun t b => t = [] ∧ b = a) fun _ => True where
  returns := fun s => ⟨_, rfl⟩
  sound := by
    intro s b s' h
    cases h
    exact ⟨[], rfl, rfl, rfl⟩
  accepts := by
    rintro t b s' ⟨rfl, rfl⟩ -
    rfl

theorem reads_fail : Reads (fail : Parser τ α) (fun _ _ => False) fun _ => True where
  returns := fun s => ⟨_, rfl⟩
  sound := by
    intro s a s' h
    cases h
  accepts := fun _ _ _ h => h.elim

/-- **Sequences**: what the second parser reads must let the first one stop. -/
theorem Reads.bind {Text2 : α → List τ → β → Prop}
    {Stop2 : List τ → Prop} (hp : Reads p Text Stop)
    (hf : ∀ t a, Text t a → Reads (f a) (Text2 a) Stop2)
    (hstop : ∀ t1 a t2 b s, Text t1 a → Text2 a t2 b → Stop2 s → Stop (t2 ++ s)) :
    Reads (p >>= f) (fun t b => ∃ t1 a t2, t = t1 ++ t2 ∧ Text t1 a ∧ Text2 a t2 b) Stop2 where
  returns := by
    intro s
    obtain ⟨⟨r, s'⟩, hr⟩ := hp.returns s
    cases r with
    | none => exact ⟨_, bind_none hr⟩
    | some a =>
      obtain ⟨t, -, ht⟩ := hp.sound _ _ _ hr
      rw [bind_some hr]
      exact (hf t a ht).returns s'
  sound := by
    intro s b s' h
    obtain ⟨⟨r, s1⟩, hr⟩ := hp.returns s
    cases r with
    | none =>
      rw [bind_none hr] at h
      cases h
    | some a =>
      rw [bind_some hr] at h
      obtain ⟨t1, rfl, ht1⟩ := hp.sound _ _ _ hr
      obtain ⟨t2, rfl, ht2⟩ := (hf t1 a ht1).sound _ _ _ h
      exact ⟨t1 ++ t2, (append_assoc ..).symm, t1, a, t2, rfl, ht1, ht2⟩
  accepts := by
    rintro t b s ⟨t1, a, t2, rfl, ht1, ht2⟩ hs
    rw [append_assoc, bind_some (hp.accepts t1 a (t2 ++ s) ht1 (hstop t1 a t2 b s ht1 ht2 hs))]
    exact (hf t1 a ht1).accepts t2 b s ht2 hs

/-- Turning the result into the value that `R` relates to it, without reading. -/
theorem Reads.bind_value {R : α → β → Prop} (hp : Reads p Text Stop)
    (hf : ∀ t a, Text t a → ∃ b, (∀ c, R a c ↔ c = b) ∧ ∀ s, f a s = .ok (some b, s)) :
    Reads (p >>= f) (fun t b => ∃ a, Text t a ∧ R a b) Stop where
  returns := by
    intro s
    obtain ⟨⟨r, s'⟩, hr⟩ := hp.returns s
    cases r with
    | none => exact ⟨_, bind_none hr⟩
    | some a =>
      obtain ⟨t, -, ht⟩ := hp.sound _ _ _ hr
      obtain ⟨b, -, hb⟩ := hf t a ht
      exact ⟨_, (bind_some hr).trans (hb s')⟩
  sound := by
    intro s c s' h
    obtain ⟨⟨r, s1⟩, hr⟩ := hp.returns s
    cases r with
    | none =>
      rw [bind_none hr] at h
      cases h
    | some a =>
      obtain ⟨t, rfl, ht⟩ := hp.sound _ _ _ hr
      obtain ⟨b, hR, hb⟩ := hf t a ht
      rw [bind_some hr, hb] at h
      cases h
      exact ⟨t, rfl, a, ht, (hR c).mpr rfl⟩
  accepts := by
    rintro t c s ⟨a, ht, hc⟩ hs
    obtain ⟨b, hR, hb⟩ := hf t a ht
    rw [bind_some (hp.accepts t a s ht hs), hb, (hR c).mp hc]

theorem Reads.map {β : Type} (f : α → β) (hp : Reads p Text Stop) :
    Reads (do let a ← p; pure (f a)) (fun t b => ∃ a, Text t a ∧ b = f a) Stop :=
  hp.bind_value fun _ a _ => ⟨f a, fun _ => Iff.rfl, fun _ => rfl⟩

/-- A parser that restores the input fails where no text stands at the front. -/
theorem Reads.fails (hp : Reads p Text Stop) (hrestores : Restores p) {s : List τ}
    (h : ∀ t a, Text t a → ¬ t <+: s) : p s = .ok (none, s) := by
  obtain ⟨⟨r, s'⟩, hr⟩ := hp.returns s
  cases r with
  | none =>
    rw [hrestores s s' hr] at hr
    exact hr
  | some a =>
    obtain ⟨t, rfl, ht⟩ := hp.sound _ _ _ hr
    exact absurd (prefix_append t s') (h t a ht)

/-- **Alternatives**: the first parser must fail on the texts of the second. -/
theorem Reads.or_else {q : Parser τ α} (hp : Reads p Text Stop) (hrestores : Restores p)
    (hq : Reads q Text' Stop)
    (hfail : ∀ t a s, Text' t a → Stop s → ∀ u b, Text u b → ¬ u <+: t ++ s) :
    Reads (p.or_else q) (fun t a => Text t a ∨ Text' t a) Stop where
  returns := by
    intro s
    obtain ⟨⟨r, s'⟩, hr⟩ := hp.returns s
    rw [Parser.or_else, hr]
    cases r with
    | none => exact hq.returns s'
    | some a => exact ⟨_, rfl⟩
  sound := by
    intro s a s' h
    obtain ⟨⟨r, s1⟩, hr⟩ := hp.returns s
    rw [Parser.or_else, hr] at h
    cases r with
    | none =>
      rw [hrestores s s1 hr] at h
      obtain ⟨t, ht, htext⟩ := hq.sound _ _ _ h
      exact ⟨t, ht, .inr htext⟩
    | some b =>
      cases h
      obtain ⟨t, ht, htext⟩ := hp.sound _ _ _ hr
      exact ⟨t, ht, .inl htext⟩
  accepts := by
    intro t a s h hs
    rcases h with h | h
    · rw [Parser.or_else, hp.accepts t a s h hs]
    · rw [Parser.or_else, hp.fails hrestores (hfail t a s h hs)]
      exact hq.accepts t a s h hs

/-- **The whole input**: it is accepted, with nothing left, if and only if it is a text. -/
theorem Reads.parses_iff (h : Reads p Text Stop) (hend : Stop []) (s : List τ) (a : α) :
    p s = .ok (some a, []) ↔ Text s a := by
  constructor
  · intro hp
    obtain ⟨t, ht, htext⟩ := h.sound s a [] hp
    rw [ht, append_nil]
    exact htext
  · intro ht
    rw [← append_nil s]
    exact h.accepts s a [] ht hend

end Parser

end RustStd
