import RustStd.Foundations.DoubleEnded

/-!
# Iterators that stand for a list

A finite iterator stands for the list of the elements it has left, and each of its methods does to
that list what a function on lists does. The methods that take elements from one end make a
`Sweep`; those of the other end sweep over the reversed list, so that one set of laws serves both.
A relation `R` between states and lists says which list a state stands for, and carries the
invariant of the states. A method may fail to return; the laws say that it returns.

An iterator whose methods obey the laws answers every sequence of calls from both ends as the list
does (`DoubleEndedIterator.Lawful.run`).
-/

namespace RustStd

open DoubleEnded List

variable {σ τ T A B Q α : Type} {R : σ → List T → Prop} {usizeMax : ℕ} {s : σ} {l : List T}
variable {V : ℕ × Option ℕ → ℕ → Prop}

/-! ## Answers -/

/-- A call returns an answer and a state that stands for `l`. -/
def Yields (R : σ → τ → Prop) (m : Option (α × σ)) (a : α) (l : τ) : Prop :=
  ∃ s, m = some (a, s) ∧ R s l

/-- Some calls. -/
def runCalls (call : Q → σ → Option (α × σ)) : List Q → σ → Option (List α × σ)
  | [], s => some ([], s)
  | q :: qs, s => do
    let (a, s) ← call q s
    let (as, s) ← runCalls call qs s
    return (a :: as, s)

/-- What a model answers to them. -/
def replies (reply : Q → τ → α × τ) : List Q → τ → List α × τ
  | [], l => ([], l)
  | q :: qs, l =>
    let (a, l) := reply q l
    let (as, l) := replies reply qs l
    (a :: as, l)

theorem runCalls_spec {R : σ → τ → Prop} {call : Q → σ → Option (α × σ)} {reply : Q → τ → α × τ}
    {qs : List Q}
    (h : ∀ q ∈ qs, ∀ s l, R s l → Yields R (call q s) (reply q l).1 (reply q l).2)
    {s : σ} {l : τ} (hs : R s l) :
    Yields R (runCalls call qs s) (replies reply qs l).1 (replies reply qs l).2 := by
  induction qs generalizing s l with
  | nil => exact ⟨s, rfl, hs⟩
  | cons q qs ih =>
    obtain ⟨s1, hcall, hs1⟩ := h q mem_cons_self s l hs
    obtain ⟨s', hrun, hs'⟩ := ih (fun q hq => h q (mem_cons_of_mem _ hq)) hs1
    refine ⟨s', ?_, hs'⟩
    rw [runCalls, hcall]
    simp only [Option.bind_eq_bind, Option.bind_some, hrun]
    rfl

/-! ## One end -/

/-- Folding until the function stops: what it ended with, and the elements that are left. -/
def tryFold (f : A → T → Except B A) : A → List T → Except B A × List T
  | a, [] => (.ok a, [])
  | a, x :: l =>
    match f a x with
    | .ok a => tryFold f a l
    | .error b => (.error b, l)

theorem tryFold_ok {f : A → T → Except B A} {a a' : A} (h : (tryFold f a l).1 = .ok a') :
    (tryFold f a l).2 = [] := by
  induction l generalizing a with
  | nil => rfl
  | cons x l ih =>
    rw [tryFold] at h ⊢
    cases hx : f a x with
    | ok a =>
      rw [hx] at h
      exact ih h
    | error b =>
      rw [hx] at h
      cases h

theorem tryFold_append (f : A → T → Except B A) (a : A) (l m : List T) : tryFold f a (l ++ m) =
      match tryFold f a l with
      | (.ok a, _) => tryFold f a m
      | (.error b, l) => (.error b, l ++ m) := by
  induction l generalizing a with
  | nil => rfl
  | cons x l ih =>
    rw [cons_append, tryFold, tryFold]
    cases f a x with
    | ok a => exact ih a
    | error b => rfl

theorem tryFold_map {U : Type} (f : A → U → Except B A) (g : T → U) (a : A) (l : List T) :
    tryFold f a (l.map g) =
      ((tryFold (fun a x => f a (g x)) a l).1, (tryFold (fun a x => f a (g x)) a l).2.map g) := by
  induction l generalizing a with
  | nil => rfl
  | cons x l ih =>
    rw [map_cons, tryFold, tryFold]
    cases f a (g x) with
    | ok a => exact ih a
    | error b => rfl

/-- The methods that take elements from one end. -/
structure Sweep (σ T : Type) where
  next : σ → Option (Option T × σ)
  nth : σ → ℕ → Option (Option T × σ)
  /-- The answer is the number of elements that were missing. -/
  advance_by : σ → ℕ → Option (ℕ × σ)
  try_fold : {A B : Type} → (A → T → Except B A) → A → σ → Option (Except B A × σ)
  fold : {A : Type} → (A → T → A) → A → σ → Option A

def IsNext (R : σ → List T → Prop) (next : σ → Option (Option T × σ)) : Prop :=
  ∀ ⦃s l⦄, R s l → Yields R (next s) l.head? l.tail

def IsNth (usizeMax : ℕ) (R : σ → List T → Prop) (nth : σ → ℕ → Option (Option T × σ)) : Prop :=
  ∀ ⦃s l⦄ n, R s l → n ≤ usizeMax → Yields R (nth s n) l[n]? (l.drop (n + 1))

def IsAdvanceBy (usizeMax : ℕ) (R : σ → List T → Prop) (advance_by : σ → ℕ → Option (ℕ × σ)) :
    Prop :=
  ∀ ⦃s l⦄ n, R s l → n ≤ usizeMax → Yields R (advance_by s n) (n - l.length) (l.drop n)

def IsTryFold (R : σ → List T → Prop)
    (try_fold : (A → T → Except B A) → A → σ → Option (Except B A × σ)) : Prop :=
  ∀ (f : A → T → Except B A) (a : A) ⦃s l⦄, R s l →
    Yields R (try_fold f a s) (tryFold f a l).1 (tryFold f a l).2

def IsFold (R : σ → List T → Prop) (fold : (A → T → A) → A → σ → Option A) : Prop :=
  ∀ (f : A → T → A) (a : A) ⦃s l⦄, R s l → fold f a s = some (l.foldl f a)

/-- The laws of the methods of one end. -/
structure Sweep.Lawful (usizeMax : ℕ) (R : σ → List T → Prop) (w : Sweep σ T) : Prop where
  next : IsNext R w.next
  nth : IsNth usizeMax R w.nth
  advance_by : IsAdvanceBy usizeMax R w.advance_by
  try_fold {A B : Type} : IsTryFold (A := A) (B := B) R w.try_fold
  fold {A : Type} : IsFold (A := A) R w.fold

/-- A call of one of them. -/
inductive Method (T A B : Type)
  | next
  | nth (n : ℕ)
  | advance_by (n : ℕ)
  | try_fold (f : A → T → Except B A) (a : A)

inductive Answer (T A B : Type)
  | item (x : Option T)
  | missing (n : ℕ)
  | folded (r : Except B A)

/-- The number of a call is a `usize`. -/
def Method.Fits (usizeMax : ℕ) : Method T A B → Prop
  | .nth n | .advance_by n => n ≤ usizeMax
  | _ => True

/-- What a list answers, and what is left of it. -/
def Method.reply : Method T A B → List T → Answer T A B × List T
  | .next, l => (.item l.head?, l.tail)
  | .nth n, l => (.item l[n]?, l.drop (n + 1))
  | .advance_by n, l => (.missing (n - l.length), l.drop n)
  | .try_fold f a, l => (.folded (tryFold f a l).1, (tryFold f a l).2)

def Sweep.call (w : Sweep σ T) : Method T A B → σ → Option (Answer T A B × σ)
  | .next, s => do
    let (x, s) ← w.next s
    return (.item x, s)
  | .nth n, s => do
    let (x, s) ← w.nth s n
    return (.item x, s)
  | .advance_by n, s => do
    let (k, s) ← w.advance_by s n
    return (.missing k, s)
  | .try_fold f a, s => do
    let (r, s) ← w.try_fold f a s
    return (.folded r, s)

theorem Yields.map {β : Type} {m : Option (α × σ)} {a : α} {l : τ} {R : σ → τ → Prop}
    (h : Yields R m a l) (g : α → β) : Yields R (do let (x, s) ← m; return (g x, s)) (g a) l := by
  obtain ⟨s, rfl, hs⟩ := h
  exact ⟨s, rfl, hs⟩

theorem Sweep.Lawful.call {w : Sweep σ T} (h : w.Lawful usizeMax R) {m : Method T A B}
    (hm : m.Fits usizeMax) (hs : R s l) : Yields R (w.call m s) (m.reply l).1 (m.reply l).2 := by
  cases m with
  | next => exact (h.next hs).map _
  | nth n => exact (h.nth n hs hm).map _
  | advance_by n => exact (h.advance_by n hs hm).map _
  | try_fold f a => exact (h.try_fold f a hs).map _

/-! ## Both ends -/

/-- An iterator, with its methods that take elements from the front. -/
structure Iterator (σ T : Type) where
  front : Sweep σ T
  size_hint : σ → ℕ × Option ℕ
  count : σ → Option ℕ
  last : σ → Option (Option T)

structure DoubleEndedIterator (σ T : Type) extends Iterator σ T where
  back : Sweep σ T

/-- A size hint is valid for `n` elements. -/
structure ValidHint (usizeMax : ℕ) (hint : ℕ × Option ℕ) (n : ℕ) : Prop where
  lower : hint.1 ≤ n
  lower_le : hint.1 ≤ usizeMax
  upper : ∀ hi, hint.2 = some hi → n ≤ hi
  upper_le : ∀ hi, hint.2 = some hi → hi ≤ usizeMax

/-- The laws of an iterator. The number of its elements is only counted when it is a `usize`. -/
structure Iterator.Lawful (usizeMax : ℕ) (R : σ → List T → Prop) (it : Iterator σ T) : Prop where
  front : it.front.Lawful usizeMax R
  size_hint : ∀ ⦃s l⦄, R s l → ValidHint usizeMax (it.size_hint s) l.length
  count : ∀ ⦃s l⦄, R s l → l.length ≤ usizeMax → it.count s = some l.length
  last : ∀ ⦃s l⦄, R s l → it.last s = some l.getLast?

/-- A state that stands for a list, read from the back. -/
def Reversed (R : σ → List T → Prop) (s : σ) (l : List T) : Prop := R s l.reverse

theorem isNext_reversed {next : σ → Option (Option T × σ)}
    (h : ∀ ⦃s l⦄, R s l → Yields R (next s) l.getLast? l.dropLast) : IsNext (Reversed R) next := by
  intro s l hs
  obtain ⟨s', hnext, hs'⟩ := h hs
  refine ⟨s', ?_, ?_⟩
  · rw [hnext, getLast?_reverse]
  · rwa [Reversed, ← dropLast_reverse]

theorem isNth_reversed {nth : σ → ℕ → Option (Option T × σ)} (h : ∀ ⦃s l⦄ n, R s l → n ≤ usizeMax →
      Yields R (nth s n) l.reverse[n]? (l.take (l.length - (n + 1)))) :
    IsNth usizeMax (Reversed R) nth := by
  intro s l n hs hn
  obtain ⟨s', hnth, hs'⟩ := h n hs hn
  refine ⟨s', ?_, ?_⟩
  · rw [hnth, reverse_reverse]
  · rw [length_reverse] at hs'
    rwa [Reversed, reverse_drop]

theorem isAdvanceBy_reversed {advance_by : σ → ℕ → Option (ℕ × σ)}
    (h : ∀ ⦃s l⦄ n, R s l → n ≤ usizeMax →
      Yields R (advance_by s n) (n - l.length) (l.take (l.length - n))) :
    IsAdvanceBy usizeMax (Reversed R) advance_by := by
  intro s l n hs hn
  obtain ⟨s', hadvance, hs'⟩ := h n hs hn
  refine ⟨s', ?_, ?_⟩
  · rw [hadvance, length_reverse]
  · rw [length_reverse] at hs'
    rwa [Reversed, reverse_drop]

structure DoubleEndedIterator.Lawful (usizeMax : ℕ) (R : σ → List T → Prop)
    (it : DoubleEndedIterator σ T) : Prop extends it.toIterator.Lawful usizeMax R where
  back : it.back.Lawful usizeMax (Reversed R)

/-- The size hint is the number of elements. -/
def ExactSize (R : σ → List T → Prop) (size_hint : σ → ℕ × Option ℕ) : Prop :=
  ∀ ⦃s l⦄, R s l → size_hint s = (l.length, some l.length)

/-- A size hint is the number of elements. -/
def ExactHint (hint : ℕ × Option ℕ) (n : ℕ) : Prop := hint = (n, some n)

/-- The list as it is seen from an end. -/
def seenFrom : End → List α → List α
  | .front, l => l
  | .back, l => l.reverse

def Iterator.run (it : Iterator σ T) : List (Method T A B) → σ → Option (List (Answer T A B) × σ) :=
  runCalls it.front.call

def DoubleEndedIterator.sweep (it : DoubleEndedIterator σ T) : End → Sweep σ T
  | .front => it.front
  | .back => it.back

def DoubleEndedIterator.run (it : DoubleEndedIterator σ T) :
    List (End × Method T A B) → σ → Option (List (Answer T A B) × σ) :=
  runCalls fun q => (it.sweep q.1).call q.2

/-- What a list answers when it is asked from both ends. -/
def replyAt (q : End × Method T A B) (l : List T) : Answer T A B × List T :=
  let (a, l) := q.2.reply (seenFrom q.1 l)
  (a, seenFrom q.1 l)

/-- What ends a run is as for a list; `V` says which size hints are right. -/
structure Iterator.Finishes (V : ℕ × Option ℕ → ℕ → Prop) (usizeMax : ℕ) (it : Iterator σ T) (s : σ)
    (l : List T) : Prop where
  size_hint : V (it.size_hint s) l.length
  fold : ∀ {A : Type} (f : A → T → A) (a : A), it.front.fold f a s = some (l.foldl f a)
  count : l.length ≤ usizeMax → it.count s = some l.length
  last : it.last s = some l.getLast?

structure DoubleEndedIterator.Finishes (V : ℕ × Option ℕ → ℕ → Prop) (usizeMax : ℕ)
    (it : DoubleEndedIterator σ T) (s : σ) (l : List T) : Prop
    extends it.toIterator.Finishes V usizeMax s l where
  rfold : ∀ {A : Type} (f : A → T → A) (a : A), it.back.fold f a s = some (l.reverse.foldl f a)

/-- Every run of calls, and what ends it, is as for a list. -/
def Iterator.Agrees (V : ℕ × Option ℕ → ℕ → Prop) (usizeMax : ℕ) (it : Iterator σ T) (s : σ)
    (l : List T) : Prop :=
  ∀ (A B : Type) (ms : List (Method T A B)), (∀ m ∈ ms, m.Fits usizeMax) →
    Yields (it.Finishes V usizeMax) (it.run ms s) (replies Method.reply ms l).1
      (replies Method.reply ms l).2

def DoubleEndedIterator.Agrees (V : ℕ × Option ℕ → ℕ → Prop) (usizeMax : ℕ)
    (it : DoubleEndedIterator σ T) (s : σ) (l : List T) : Prop :=
  ∀ (A B : Type) (qs : List (End × Method T A B)), (∀ q ∈ qs, q.2.Fits usizeMax) →
    Yields (it.Finishes V usizeMax) (it.run qs s) (replies replyAt qs l).1 (replies replyAt qs l).2

theorem Yields.mono {R' : σ → τ → Prop} {R : σ → τ → Prop} {m : Option (α × σ)} {a : α} {l : τ}
    (h : Yields R m a l) (hR : ∀ s, R s l → R' s l) : Yields R' m a l := by
  obtain ⟨s, hm, hs⟩ := h
  exact ⟨s, hm, hR s hs⟩

theorem Iterator.Lawful.run {it : Iterator σ T} (h : it.Lawful usizeMax R)
    {ms : List (Method T A B)} (hms : ∀ m ∈ ms, m.Fits usizeMax) (hs : R s l) :
    Yields R (it.run ms s) (replies Method.reply ms l).1 (replies Method.reply ms l).2 := by
  refine runCalls_spec (fun m hm s l hs => ?_) hs
  exact h.front.call (hms m hm) hs

variable {it : DoubleEndedIterator σ T}

/-- Every interleaving of calls from both ends is answered as the list answers it. -/
theorem DoubleEndedIterator.Lawful.run (h : it.Lawful usizeMax R)
    {qs : List (End × Method T A B)} (hqs : ∀ q ∈ qs, q.2.Fits usizeMax) (hs : R s l) :
    Yields R (it.run qs s) (replies replyAt qs l).1 (replies replyAt qs l).2 := by
  refine runCalls_spec (fun q hq s l hs => ?_) hs
  obtain ⟨e, m⟩ := q
  cases e with
  | front =>
    obtain ⟨s', hcall, hs'⟩ := h.front.call (hqs _ hq) hs
    exact ⟨s', hcall, hs'⟩
  | back =>
    have hrev : Reversed R s l.reverse := by rwa [Reversed, reverse_reverse]
    obtain ⟨s', hcall, hs'⟩ := h.back.call (hqs _ hq) hrev
    exact ⟨s', hcall, hs'⟩

theorem Iterator.Lawful.finishes {it : Iterator σ T} (h : it.Lawful usizeMax R)
    (hV : ∀ ⦃s l⦄, R s l → V (it.size_hint s) l.length) (hs : R s l) :
    it.Finishes V usizeMax s l where
  size_hint := hV hs
  fold f a := h.front.fold f a hs
  count := h.count hs
  last := h.last hs

/-- **A lawful iterator** answers every run as the list it stands for. -/
theorem Iterator.Lawful.agrees {it : Iterator σ T} (h : it.Lawful usizeMax R)
    (hV : ∀ ⦃s l⦄, R s l → V (it.size_hint s) l.length) (hs : R s l) :
    it.Agrees V usizeMax s l :=
  fun _ _ _ hms => (h.run hms hs).mono fun _ hs' => h.finishes hV hs'

theorem DoubleEndedIterator.Lawful.finishes
    (h : it.Lawful usizeMax R)
    (hV : ∀ ⦃s l⦄, R s l → V (it.size_hint s) l.length) (hs : R s l) :
    it.Finishes V usizeMax s l := by
  refine ⟨h.toLawful.finishes hV hs, fun f a => h.back.fold f a ?_⟩
  rwa [Reversed, reverse_reverse]

theorem DoubleEndedIterator.Lawful.agrees (h : it.Lawful usizeMax R)
    (hV : ∀ ⦃s l⦄, R s l → V (it.size_hint s) l.length) (hs : R s l) :
    it.Agrees V usizeMax s l := by
  intro A B qs hqs
  apply (h.run hqs hs).mono
  intro s' hs'
  exact h.finishes hV hs'

end RustStd
