import RustStd.Foundations.SortedLists
import RustStd.Foundations.Sweep

/-!
# Merging two iterators

`merge_iter.rs` of `alloc/src/collections/btree`. Over two iterators that stand for ascending lists
a call gives the next entry of the lists together (`nexts_spec`).
-/

namespace RustStd.BTree

open Sorted DoubleEnded Option

variable {I α : Type}

inductive Peeked (α : Type)
  | A (next : α)
  | B (next : α)

structure MergeIterInner (I α : Type) where
  a : I
  b : I
  peeked : Option (Peeked α)

open MergeIterInner

namespace MergeIterInner

def new (a b : I) : MergeIterInner I α := ⟨a, b, none⟩

/-- The next items of both sources, of which at most one was peeked at. -/
def advance (next : I → Option (Option α × I)) (self : MergeIterInner I α) :
    Option (Option α × Option α × I × I) :=
  match self.peeked with
  | some (.A a_next) => do
    let (b_next, b) ← next self.b
    some (some a_next, b_next, self.a, b)
  | some (.B b_next) => do
    let (a_next, a) ← next self.a
    some (a_next, some b_next, a, self.b)
  | none => do
    let (a_next, a) ← next self.a
    let (b_next, b) ← next self.b
    some (a_next, b_next, a, b)

def nexts (next : I → Option (Option α × I)) (cmp : α → α → Ordering) (self : MergeIterInner I α) :
    Option ((Option α × Option α) × MergeIterInner I α) := do
  let (a_next, b_next, a, b) ← self.advance next
  match a_next, b_next with
  | some a1, some b1 =>
    match cmp a1 b1 with
    | .lt => some ((some a1, none), ⟨a, b, some (.B b1)⟩)
    | .gt => some ((none, some b1), ⟨a, b, some (.A a1)⟩)
    | .eq => some ((some a1, some b1), ⟨a, b, none⟩)
  | a_next, b_next => some ((a_next, b_next), ⟨a, b, none⟩)

/-- Upper bounds for what the sources still give. -/
def lens (len : I → ℕ) (self : MergeIterInner I α) : ℕ × ℕ :=
  match self.peeked with
  | some (.A _) => (1 + len self.a, len self.b)
  | some (.B _) => (len self.a, 1 + len self.b)
  | none => (len self.a, len self.b)

end MergeIterInner

/-! ## What the iterator stands for -/

/-- The item that was peeked at comes first in its list. -/
inductive Merging (R : I → List α → Prop) : MergeIterInner I α → List α → List α → Prop
  | none {a b : I} {la lb : List α} : R a la → R b lb → Merging R ⟨a, b, none⟩ la lb
  | A {a b : I} {la lb : List α} (x : α) : R a la → R b lb →
    Merging R ⟨a, b, some (.A x)⟩ (x :: la) lb
  | B {a b : I} {la lb : List α} (y : α) : R a la → R b lb →
    Merging R ⟨a, b, some (.B y)⟩ la (y :: lb)

variable {R : I → List α → Prop} {next : I → Option (Option α × I)} {s : MergeIterInner I α}
  {la lb : List α}

theorem Merging.advance (hnext : IsNext R next) (h : Merging R s la lb) :
    ∃ a b, s.advance next = some (la.head?, lb.head?, a, b) ∧ R a la.tail ∧ R b lb.tail := by
  cases h with
  | @none a b _ _ ha hb =>
    obtain ⟨a', hna, ha'⟩ := hnext ha
    obtain ⟨b', hnb, hb'⟩ := hnext hb
    refine ⟨a', b', ?_, ha', hb'⟩
    unfold advance
    dsimp only
    rw [hna, bind_eq_bind, bind_some, hnb, bind_some]
  | @A a b _ _ x ha hb =>
    obtain ⟨b', hnb, hb'⟩ := hnext hb
    refine ⟨a, b', ?_, ha, hb'⟩
    unfold advance
    dsimp only
    rw [hnb, bind_eq_bind, bind_some]
    rfl
  | @B a b _ _ y ha hb =>
    obtain ⟨a', hna, ha'⟩ := hnext ha
    refine ⟨a', b, ?_, ha', hb⟩
    unfold advance
    rw [hna, bind_eq_bind, bind_some]
    rfl

/-- What a call answers for an entry of the lists together, and after the last one. -/
def halves : Option (Joined α) → Option α × Option α
  | some e => (e.lefts, e.rights)
  | none => (none, none)

/-- **A call gives the next entry** of the two lists together. -/
theorem nexts_spec (hnext : IsNext R next) (cmp : α → α → Ordering) (h : Merging R s la lb) :
    ∃ s' la' lb', s.nexts next cmp = some (halves (align cmp la lb).head?, s') ∧
      Merging R s' la' lb' ∧ align cmp la' lb' = (align cmp la lb).tail := by
  obtain ⟨a, b, hadvance, ha, hb⟩ := h.advance hnext
  unfold nexts
  rw [hadvance, bind_eq_bind, bind_some]
  match la, lb with
  | [], [] =>
    exact ⟨_, [], [], by rw [align_nil]; rfl, .none ha hb, by rw [align_nil]; rfl⟩
  | [], y :: lb =>
    exact ⟨_, [], lb, by rw [align_nil]; rfl, .none ha hb, by rw [align_nil, align_nil]; rfl⟩
  | x :: la, [] =>
    exact ⟨_, la, [], by rw [align_nil_right]; rfl, .none ha hb, by
      rw [align_nil_right, align_nil_right]; rfl⟩
  | x :: la, y :: lb =>
    rw [align_cons]
    dsimp only [List.head?_cons, List.tail_cons] at ha hb ⊢
    cases cmp x y with
    | lt => exact ⟨_, la, y :: lb, rfl, .B y ha hb, rfl⟩
    | gt => exact ⟨_, x :: la, lb, rfl, .A x ha hb, rfl⟩
    | eq => exact ⟨_, la, lb, rfl, .none ha hb, rfl⟩

/-- The lengths of the lists. -/
theorem Merging.lens {len : I → ℕ} (hlen : ∀ i l, R i l → len i = l.length)
    (h : Merging R s la lb) : s.lens len = (la.length, lb.length) := by
  cases h with
  | none ha hb => rw [lens, hlen _ _ ha, hlen _ _ hb]
  | A x ha hb =>
    rw [lens]
    rw [hlen _ _ ha, hlen _ _ hb, Nat.add_comm, List.length_cons]
  | B y ha hb =>
    rw [lens]
    dsimp only
    rw [hlen _ _ ha, hlen _ _ hb, Nat.add_comm, List.length_cons]

end RustStd.BTree
