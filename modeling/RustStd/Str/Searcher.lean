import RustStd.Foundations.Loop

/-!
# Searchers

The traits `Searcher` and `ReverseSearcher` of `core/src/str/pattern.rs`, as records of their two
functions, with the runs of calls on one searcher. `Searcher.Spec` is what one call must do where
the searcher stands; `Searcher.Spec.runCalls` follows it through every sequence of calls,
`Searcher.Spec.steps` through the steps up to `Done`.
-/

namespace RustStd

open Option List

inductive SearchStep
  | Match (a b : ℕ)
  | Reject (a b : ℕ)
  | Done
  deriving DecidableEq, Repr

/-- Which end of the haystack a search begins at. -/
inductive Dir
  | forward
  | backward
  deriving DecidableEq, Repr

namespace Dir

/-- The end of a range that the search reaches first. -/
def enter : Dir → ℕ × ℕ → ℕ
  | .forward, (a, _) => a
  | .backward, (_, b) => b

/-- The end of a range that the search reaches last. -/
def leave : Dir → ℕ × ℕ → ℕ
  | .forward, (_, b) => b
  | .backward, (a, _) => a

def start : Dir → ℕ → ℕ
  | .forward, _ => 0
  | .backward, len => len

def finish : Dir → ℕ → ℕ
  | .forward, len => len
  | .backward, _ => 0

end Dir

/-- `next` and `next_match`, or `next_back` and `next_match_back`. A fault ends with `none`. -/
structure Searcher (σ : Type) where
  dir : Dir
  next : σ → Option (σ × SearchStep)
  next_match : σ → Option (σ × Option (ℕ × ℕ))

/-! ## Runs -/

inductive Call
  | next
  | next_match
  deriving DecidableEq, Repr

/-- What a call returned. -/
inductive Outcome
  | step (s : SearchStep)
  | found (m : Option (ℕ × ℕ))
  deriving DecidableEq, Repr

/-- The range of a match. -/
def SearchStep.match? : SearchStep → Option (ℕ × ℕ)
  | .Match a b => some (a, b)
  | _ => none

def Outcome.match? : Outcome → Option (ℕ × ℕ)
  | .step s => s.match?
  | .found m => m

/-- Where the search stands after a call. -/
def Outcome.leave (d : Dir) (len : ℕ) : Outcome → ℕ
  | .step (.Match a b) => d.leave (a, b)
  | .step (.Reject a b) => d.leave (a, b)
  | .step .Done => d.finish len
  | .found (some m) => d.leave m
  | .found none => d.finish len

/-- Where the search stands after some calls, from `p`. -/
def reached (d : Dir) (len : ℕ) : ℕ → List Outcome → ℕ
  | p, [] => p
  | _, out :: outs => reached d len (out.leave d len) outs

/-- The steps follow one another from `p` to `q`, between boundaries. -/
def Tiles (d : Dir) (boundary : ℕ → Bool) : ℕ → List SearchStep → ℕ → Prop
  | p, [], q => p = q
  | p, .Match a b :: steps, q | p, .Reject a b :: steps, q =>
    a ≤ b ∧ boundary a = true ∧ boundary b = true ∧ d.enter (a, b) = p ∧
      Tiles d boundary (d.leave (a, b)) steps q
  | _, .Done :: _, _ => False

namespace Searcher

variable {σ : Type} (S : Searcher σ)

def call (s : σ) : Call → Option (σ × Outcome)
  | .next => (S.next s).map fun (s, step) => (s, .step step)
  | .next_match => (S.next_match s).map fun (s, m) => (s, .found m)

def runCalls : List Call → σ → Option (σ × List Outcome)
  | [], s => some (s, [])
  | c :: calls, s => do
    let (s, out) ← S.call s c
    let (s, outs) ← runCalls calls s
    some (s, out :: outs)

/-- The steps up to `Done`, in at most `n` calls. -/
def steps : ℕ → σ → Option (List SearchStep)
  | 0, _ => none
  | n + 1, s => do
    let (s, step) ← S.next s
    if step = .Done then some [] else do some (step :: (← steps n s))

/-- The matches up to `None`, in at most `n` calls. -/
def allMatches : ℕ → σ → Option (List (ℕ × ℕ))
  | 0, _ => none
  | n + 1, s => do
    let (s, m) ← S.next_match s
    match m with
    | none => some []
    | some m => do some (m :: (← allMatches n s))

/-- What `n` calls of `next_match` return. -/
def repeatMatch : ℕ → σ → Option (List (Option (ℕ × ℕ)))
  | 0, _ => some []
  | n + 1, s => do
    let (s, m) ← S.next_match s
    some (m :: (← repeatMatch n s))

/-! ## What a call must do -/

section Ok

variable (d : Dir) (boundary : ℕ → Bool) (len : ℕ) (measure : σ → ℕ)
  (At : σ → ℕ → List (ℕ × ℕ) → Prop)

/-- What `next` must return where the searcher stands at `p`, with the matches `l` ahead of it:
`At` says where it stands. -/
def StepOk (s : σ) (p : ℕ) (l : List (ℕ × ℕ)) : σ × SearchStep → Prop
  | (s', .Done) => l = [] ∧ p = d.finish len ∧ At s' p l
  | (s', .Reject a b) => a ≤ b ∧ boundary a = true ∧ boundary b = true ∧ d.enter (a, b) = p ∧
      At s' (d.leave (a, b)) l ∧ measure s' < measure s
  | (s', .Match a b) => a ≤ b ∧ boundary a = true ∧ boundary b = true ∧ d.enter (a, b) = p ∧
      ∃ l', l = (a, b) :: l' ∧ At s' (d.leave (a, b)) l' ∧ measure s' < measure s

/-- What `next_match` must return with the matches `l` ahead. -/
def MatchOk (l : List (ℕ × ℕ)) : σ × Option (ℕ × ℕ) → Prop
  | (s', none) => l = [] ∧ At s' (d.finish len) []
  | (s', some m) => ∃ l', l = m :: l' ∧ At s' (d.leave m) l'

/-- Every call does what it must. -/
structure Spec (S : Searcher σ) : Prop where
  next : ∀ {s p l}, At s p l → ∃ r, S.next s = some r ∧ StepOk S.dir boundary len measure At s p l r
  next_match : ∀ {s p l}, At s p l → ∃ r, S.next_match s = some r ∧ MatchOk S.dir len At l r

end Ok

namespace Spec

variable {S} {boundary : ℕ → Bool} {len : ℕ} {measure : σ → ℕ} {At : σ → ℕ → List (ℕ × ℕ) → Prop}
variable {l : List (ℕ × ℕ)}

variable (h : S.Spec boundary len measure At)
include h

variable {p : ℕ} {s : σ}

theorem call (hs : At s p l) (c : Call) :
    ∃ s' out l', S.call s c = some (s', out) ∧ l = out.match?.toList ++ l' ∧
      At s' (out.leave S.dir len) l' := by
  cases c with
  | next =>
    obtain ⟨⟨s', step⟩, heq, hstep⟩ := h.next hs
    simp only [Searcher.call, heq, map_some]
    cases step with
    | Match a b =>
      obtain ⟨-, -, -, -, l', hl, hat, -⟩ := hstep
      exact ⟨s', _, l', rfl, hl, hat⟩
    | Reject a b =>
      obtain ⟨-, -, -, -, hat, -⟩ := hstep
      exact ⟨s', _, l, rfl, rfl, hat⟩
    | Done =>
      obtain ⟨-, hp, hat⟩ := hstep
      rw [hp] at hat
      exact ⟨s', _, l, rfl, rfl, hat⟩
  | next_match =>
    obtain ⟨⟨s', m⟩, heq, hm⟩ := h.next_match hs
    simp only [Searcher.call, heq, map_some]
    cases m with
    | none => exact ⟨s', _, [], rfl, hm.1, hm.2⟩
    | some m =>
      obtain ⟨l', hl, hat⟩ := hm
      exact ⟨s', _, l', rfl, hl, hat⟩

/-- **Every sequence of calls** returns, and what it found comes before what is still ahead. -/
theorem runCalls (calls : List Call) (hs : At s p l) :
    ∃ s' outs l', S.runCalls calls s = some (s', outs) ∧
      l = outs.filterMap Outcome.match? ++ l' ∧ At s' (reached S.dir len p outs) l' := by
  induction calls generalizing s p l with
  | nil => exact ⟨s, [], l, rfl, rfl, hs⟩
  | cons c calls ih =>
    obtain ⟨s1, out, l1, heq, rfl, hat⟩ := h.call hs c
    obtain ⟨s2, outs, l2, heqs, rfl, hats⟩ := ih hat
    refine ⟨s2, out :: outs, l2, ?_, ?_, hats⟩
    · simp [Searcher.runCalls, heq, heqs]
    · rw [filterMap_cons]
      cases out.match? <;> rfl

/-- **The steps up to `Done`** follow one another to the end, and their matches are those
ahead. -/
theorem steps {n : ℕ} (hs : At s p l) (hn : measure s < n) :
    ∃ steps, S.steps n s = some steps ∧ Tiles S.dir boundary p steps (S.dir.finish len) ∧
      steps.filterMap SearchStep.match? = l := by
  induction n generalizing s p l with
  | zero => exact absurd hn (Nat.not_lt_zero _)
  | succ n ih =>
    obtain ⟨⟨s', step⟩, heq, hstep⟩ := h.next hs
    simp only [Searcher.steps, heq, bind_eq_bind, bind_some]
    cases step with
    | Match a b =>
      obtain ⟨hab, ha, hb, hp, l', rfl, hat, hlt⟩ := hstep
      obtain ⟨steps, heqs, htile, hmatch⟩ := ih hat (by omega)
      refine ⟨.Match a b :: steps, by simp [heqs], ⟨hab, ha, hb, hp, htile⟩, ?_⟩
      rw [filterMap_cons, hmatch]
      rfl
    | Reject a b =>
      obtain ⟨hab, ha, hb, hp, hat, hlt⟩ := hstep
      obtain ⟨steps, heqs, htile, hmatch⟩ := ih hat (by omega)
      refine ⟨.Reject a b :: steps, by simp [heqs], ⟨hab, ha, hb, hp, htile⟩, ?_⟩
      rw [filterMap_cons, hmatch]
      rfl
    | Done => exact ⟨[], by simp, hstep.2.1, hstep.1.symm⟩

/-- **Calling `next_match` again and again** returns the matches ahead, and then `None`. -/
theorem repeatMatch (n : ℕ) (hs : At s p l) :
    S.repeatMatch n s = some ((range n).map fun i => l[i]?) := by
  induction n generalizing s p l with
  | zero => rfl
  | succ n ih =>
    obtain ⟨⟨s', m⟩, heq, hm⟩ := h.next_match hs
    simp only [Searcher.repeatMatch, heq, bind_eq_bind, bind_some]
    rw [List.range_succ_eq_map, List.map_cons, List.map_map]
    cases m with
    | none =>
      obtain ⟨rfl, hat⟩ := hm
      rw [ih hat]
      rfl
    | some m =>
      obtain ⟨l', rfl, hat⟩ := hm
      rw [ih hat]
      rfl

theorem allMatches {n : ℕ}
    (hs : At s p l) (hn : l.length < n) : S.allMatches n s = some l := by
  induction n generalizing s p l with
  | zero => exact absurd hn (Nat.not_lt_zero _)
  | succ n ih =>
    obtain ⟨⟨s', m⟩, heq, hm⟩ := h.next_match hs
    simp only [Searcher.allMatches, heq, bind_eq_bind, bind_some]
    cases m with
    | none =>
      obtain ⟨rfl, -⟩ := hm
      rfl
    | some m =>
      obtain ⟨l', rfl, hat⟩ := hm
      rw [length_cons] at hn
      rw [ih hat (by omega)]
      rfl

end Spec

end Searcher

end RustStd
