import RustStd.BinaryHeap.Operations

/-!
# Runs of heap operations refine bags

A program holds any number of heaps, each either at hand or borrowed by a `PeekMut`. `step` runs one
operation on the model of the source; `RefStep` is what the operation does to a bag (a multiset),
or, during a borrow, to a top element and the bag of the others. `runs_refine_bags` follows every
sequence of operations that the borrow checker and the bound on lengths allow: no operation faults,
every answer is one the bags give, and every slice is in heap order after every step.
-/

namespace RustStd.BinaryHeap

open HeapOrder Function Bool Multiset

variable {α : Type}

/-- A heap at hand, or borrowed. -/
inductive Slot (α : Type)
  | heap (h : BinaryHeap α)
  | peek (p : PeekMut α)

/-- The elements of the slot's vector. -/
def Slot.elems : Slot α → List α
  | .heap h => h.data.elems
  | .peek p => p.heap.data.elems

abbrev State (α : Type) := ℕ → Slot α

/-- Every heap empty. -/
def State.init : State α := fun _ => .heap BinaryHeap.new

/-- The operations; a number names the heap. -/
inductive Op (α : Type)
  | push (i : ℕ) (x : α)
  | pop (i : ℕ)
  | append (i j : ℕ)
  | extend (i : ℕ) (xs : List α)
  | retain (i : ℕ) (f : ℕ → α → Bool)
  | fromVec (i : ℕ) (v : List α)
  | intoSortedVec (i : ℕ)
  | peekMut (i : ℕ)
  | peekRead (i : ℕ)
  | peekWrite (i : ℕ) (x : α)
  | peekRefresh (i : ℕ)
  | peekDrop (i : ℕ)
  | peekPop (i : ℕ)
  | peekLeak (i : ℕ)

/-- What an operation returns. -/
inductive Out (α : Type)
  | unit
  | item (x : Option α)
  | items (l : List α)
  | flag (b : Bool)
  deriving DecidableEq

/-! ## The model -/

section Model

variable [LE α] [LT α] [DecidableLE α] [DecidableLT α]

/-- Run an operation of a heap at hand. -/
def onHeap (s : State α) (i : ℕ) (k : BinaryHeap α → Option (Slot α × Out α)) :
    Option (State α × Out α) :=
  match s i with
  | .heap h => do
    let (slot, out) ← k h
    some (update s i slot, out)
  | .peek _ => none

/-- Run an operation of a borrow. -/
def onPeek (s : State α) (i : ℕ) (k : PeekMut α → Option (Slot α × Out α)) :
    Option (State α × Out α) :=
  match s i with
  | .heap _ => none
  | .peek p => do
    let (slot, out) ← k p
    some (update s i slot, out)

def step (t : Target) (s : State α) : Op α → Option (State α × Out α)
  | .push i x => onHeap s i fun h => do some (.heap (← h.push x), .unit)
  | .pop i => onHeap s i fun h => do
      let (h, item) ← h.pop t
      some (.heap h, .item item)
  | .append i j =>
      match s i, s j with
      | .heap a, .heap b => do
        let (a, b) ← a.append t b
        some (update (update s i (.heap a)) j (.heap b), .unit)
      | _, _ => none
  | .extend i xs => onHeap s i fun h => do some (.heap (← h.extend t xs), .unit)
  | .retain i f => onHeap s i fun h => do some (.heap (← h.retain t f), .unit)
  | .fromVec i v => onHeap s i fun _ => do some (.heap (← fromVec t v), .unit)
  | .intoSortedVec i => onHeap s i fun h => do
      some (.heap BinaryHeap.new, .items (← h.into_sorted_vec t))
  | .peekMut i => onHeap s i fun h =>
      match h.peek_mut with
      | none => some (.heap h, .flag false)
      | some p => some (.peek p, .flag true)
  | .peekRead i => onPeek s i fun p => do some (.peek p, .item (some (← p.deref)))
  | .peekWrite i x => onPeek s i fun p => do some (.peek (← p.write x), .unit)
  | .peekRefresh i => onPeek s i fun p => do
      let (p, changed) ← p.refresh t
      some (.peek p, .flag changed)
  | .peekDrop i => onPeek s i fun p => do some (.heap (← p.drop t), .unit)
  | .peekPop i => onPeek s i fun p => do
      let (h, item) ← p.pop t
      some (.heap h, .item (some item))
  | .peekLeak i => onPeek s i fun p => some (.heap p.leak, .unit)

/-- Run a sequence of operations. -/
def run (t : Target) : State α → List (Op α) → Option (State α × List (Out α))
  | s, [] => some (s, [])
  | s, op :: ops => do
    let (s, out) ← step t s op
    let (s, outs) ← run t s ops
    some (s, out :: outs)

def Slot.isHeap : Slot α → Bool
  | .heap _ => true
  | .peek _ => false

/-- What the borrow checker and the bound on lengths allow next. -/
def allowed (t : Target) (s : State α) : Op α → Bool
  | .push i _ => (s i).isHeap && decide ((s i).elems.length + 1 ≤ t.isizeMax)
  | .pop i | .retain i _ | .intoSortedVec i | .peekMut i => (s i).isHeap
  | .append i j => (s i).isHeap && (s j).isHeap && decide (i ≠ j) &&
      decide ((s i).elems.length + (s j).elems.length ≤ t.isizeMax)
  | .extend i xs => (s i).isHeap && decide ((s i).elems.length + xs.length ≤ t.isizeMax)
  | .fromVec i v => (s i).isHeap && decide (v.length ≤ t.isizeMax)
  | .peekRead i | .peekWrite i _ | .peekRefresh i | .peekDrop i | .peekPop i | .peekLeak i =>
      !(s i).isHeap

/-- Every operation of the sequence is allowed when its turn comes. -/
def allowedRun (t : Target) : State α → List (Op α) → Bool
  | _, [] => true
  | s, op :: ops => allowed t s op && (match step t s op with
    | none => true
    | some (s, _) => allowedRun t s ops)

end Model

/-! ## Bags -/

variable [Preorder α]

/-- A bag, or the top element of a borrowed bag with the others, written through or not. -/
inductive Bag (α : Type)
  | bag (m : Multiset α)
  | peek (top : α) (others : Multiset α) (written : Bool)

abbrev RefState (α : Type) := ℕ → Bag α

def RefState.init : RefState α := fun _ => .bag 0

/-- `x` is a greatest element of a bag, and `m` are the others. -/
def IsGreatestOf (x : α) (m : Multiset α) : Prop := ∀ y ∈ m, y ≤ x

/-- What an operation does to one bag, and what it returns. -/
def BagStep : Op α → Bag α → Out α → Bag α → Prop
  | .push _ x, .bag m, out, b' => out = .unit ∧ b' = .bag (x ::ₘ m)
  | .pop _, .bag m, out, b' =>
      (m = 0 ∧ out = .item none ∧ b' = .bag 0) ∨
      ∃ x m', m = x ::ₘ m' ∧ IsGreatestOf x m' ∧ out = .item (some x) ∧ b' = .bag m'
  | .extend _ xs, .bag m, out, b' => out = .unit ∧ b' = .bag (m + xs)
  | .retain _ f, .bag m, out, b' => ∃ l : List α, m = l ∧ out = .unit ∧ b' = .bag (keep f 0 l)
  | .fromVec _ v, .bag _, out, b' => out = .unit ∧ b' = .bag v
  | .intoSortedVec _, .bag m, out, b' =>
      ∃ l : List α, m = l ∧ l.Pairwise (· ≤ ·) ∧ out = .items l ∧ b' = .bag 0
  | .peekMut _, .bag m, out, b' =>
      (m = 0 ∧ out = .flag false ∧ b' = .bag 0) ∨
      ∃ x m', m = x ::ₘ m' ∧ IsGreatestOf x m' ∧ out = .flag true ∧ b' = .peek x m' false
  | .peekRead _, .peek x m w, out, b' => out = .item (some x) ∧ b' = .peek x m w
  | .peekWrite _ y, .peek _ m _, out, b' => out = .unit ∧ b' = .peek y m true
  | .peekRefresh _, .peek x m _, out, b' =>
      -- the root moves exactly when another element is greater
      ∃ x' m', x' ::ₘ m' = x ::ₘ m ∧ IsGreatestOf x' m' ∧ b' = .peek x' m' false ∧
        ((out = .flag false ∧ x' = x ∧ m' = m ∧ ∀ y ∈ m, ¬ x < y) ∨
          (out = .flag true ∧ x < x' ∧ ∃ y ∈ m, x < y))
  | .peekDrop _, .peek x m _, out, b' => out = .unit ∧ b' = .bag (x ::ₘ m)
  | .peekPop _, .peek x m _, out, b' => out = .item (some x) ∧ b' = .bag m
  | .peekLeak _, .peek x m w, out, b' => out = .unit ∧ b' = .bag (if w then {x} else x ::ₘ m)
  | _, _, _, _ => False

/-- The heap an operation is about. -/
def Op.target : Op α → ℕ
  | .push i _ | .pop i | .append i _ | .extend i _ | .retain i _ | .fromVec i _
  | .intoSortedVec i | .peekMut i | .peekRead i | .peekWrite i _ | .peekRefresh i | .peekDrop i
  | .peekPop i | .peekLeak i => i

/-- What an operation does to the bags. -/
def RefStep (r : RefState α) (op : Op α) (out : Out α) (r' : RefState α) : Prop :=
  match op with
  | .append i j => ∃ m n, r i = .bag m ∧ r j = .bag n ∧ out = .unit ∧
      r' = update (update r i (.bag (m + n))) j (.bag 0)
  | op => ∃ b', BagStep op (r op.target) out b' ∧ r' = update r op.target b'

/-- A run of the bags. -/
inductive RefRun : RefState α → List (Op α) → List (Out α) → RefState α → Prop
  | nil (r) : RefRun r [] [] r
  | cons {r op out r' ops outs r''} : RefStep r op out r' → RefRun r' ops outs r'' →
      RefRun r (op :: ops) (out :: outs) r''

/-! ## The refinement -/

/-- A slot holds a bag. During a borrow the vector may be cut to its first element, the others then
being in the memory after it. -/
inductive Holds (t : Target) : Slot α → Bag α → Prop
  | heap {h : BinaryHeap α} {m : Multiset α} : IsHeap h.data.elems → h.len ≤ t.isizeMax →
      (h.data.elems : Multiset α) = m → Holds t (.heap h) (.bag m)
  | whole {x : α} {l rest : List α} {w : Bool} : IsHeap (x :: l) → (x :: l).length ≤ t.isizeMax →
      (w = true → l = []) → Holds t (.peek ⟨⟨⟨x :: l, rest⟩⟩, none⟩) (.peek x l w)
  | cut {x y : α} {l rest : List α} : IsHeap (y :: l) → (x :: l).length ≤ t.isizeMax → l ≠ [] →
      Holds t (.peek ⟨⟨⟨[x], l ++ rest⟩⟩, some (l.length + 1)⟩) (.peek x l true)

/-- The slots hold the bags. -/
def Refines (t : Target) (s : State α) (r : RefState α) : Prop := ∀ i, Holds t (s i) (r i)

theorem Holds.isHeap {t : Target} {slot : Slot α} {b : Bag α} (h : Holds t slot b) :
    IsHeap slot.elems := by
  cases h with
  | heap h | whole h => exact h
  | cut _ _ _ => exact isHeap_singleton _

theorem Holds.update {t : Target} {s : State α} {r : RefState α} (h : Refines t s r) {i : ℕ}
    {slot : Slot α} {b : Bag α} (hi : Holds t slot b) :
    Refines t (update s i slot) (update r i b) := by
  intro j
  by_cases hj : j = i
  · subst hj
    simpa using hi
  · simpa [hj] using h j

theorem refines_init (t : Target) : Refines t (State.init (α := α)) RefState.init :=
  fun _ => .heap isHeap_nil (Nat.zero_le _) rfl

omit [Preorder α] in
/-- Cutting the vector and restoring its length. -/
theorem set_len_cut (x : α) (l rest : List α) :
    (⟨[x], l ++ rest⟩ : Vec α).set_len (l.length + 1) = some ⟨x :: l, rest⟩ := by
  rw [Vec.set_len, if_pos (by simp; omega)]
  simp

section Step

variable {t : Target} {s : State α} {r : RefState α} {i : ℕ}

/-- The new slot, the answer and the new bag of an operation. -/
def Stepped (t : Target) (op : Op α) (b : Bag α) (res : Option (Slot α × Out α)) : Prop :=
  ∃ slot out b', res = some (slot, out) ∧ BagStep op b out b' ∧ Holds t slot b'

theorem onHeap_refines (op : Op α) {k : BinaryHeap α → Option (Slot α × Out α)}
    (hs : Refines t s r) (hi : (s i).isHeap = true)
    (hk : ∀ h : BinaryHeap α, s i = .heap h → IsHeap h.data.elems → h.len ≤ t.isizeMax →
      Stepped t op (.bag h.data.elems) (k h)) :
    ∃ s' out r', onHeap s i k = some (s', out) ∧
      (∃ b', BagStep op (r i) out b' ∧ r' = update r i b') ∧ Refines t s' r' := by
  have hold := hs i
  match hsi : s i, hri : r i with
  | .peek p, _ => rw [hsi] at hi; cases hi
  | .heap h, b =>
    rw [hsi, hri] at hold
    obtain ⟨hheap, hlen, rfl⟩ := hold
    obtain ⟨slot, out, b', hkh, hstep, hb'⟩ := hk h hsi hheap hlen
    exact ⟨_, out, _, by simp [onHeap, hsi, hkh], ⟨b', hstep, rfl⟩, Holds.update hs hb'⟩

theorem onPeek_refines (op : Op α) {k : PeekMut α → Option (Slot α × Out α)}
    (hs : Refines t s r) (hi : (s i).isHeap = false)
    (hwhole : ∀ x l rest w, IsHeap (x :: l) → (x :: l).length ≤ t.isizeMax → (w = true → l = []) →
      Stepped t op (.peek x l w) (k ⟨⟨⟨x :: l, rest⟩⟩, none⟩))
    (hcut : ∀ x y l rest, IsHeap (y :: l) → (x :: l).length ≤ t.isizeMax → l ≠ [] →
      Stepped t op (.peek x l true) (k ⟨⟨⟨[x], l ++ rest⟩⟩, some (l.length + 1)⟩)) :
    ∃ s' out r', onPeek s i k = some (s', out) ∧
      (∃ b', BagStep op (r i) out b' ∧ r' = update r i b') ∧ Refines t s' r' := by
  have hold := hs i
  match hsi : s i, hri : r i with
  | .heap h, _ => rw [hsi] at hi; cases hi
  | .peek p, b =>
    rw [hsi, hri] at hold
    have key : Stepped t op b (k p) := by
      cases hold with
      | whole hheap hlen hw => exact hwhole _ _ _ _ hheap hlen hw
      | cut hheap hlen hne => exact hcut _ _ _ _ hheap hlen hne
    obtain ⟨slot, out, b', hkp, hstep, hb'⟩ := key
    exact ⟨_, out, _, by simp [onPeek, hsi, hkp], ⟨b', hstep, rfl⟩, Holds.update hs hb'⟩

/-- A heap with as many elements as its bag. -/
theorem holds_of_card {h : BinaryHeap α} {m : Multiset α} (hheap : IsHeap h.data.elems)
    (hbag : (h.data.elems : Multiset α) = m) (hcard : card m ≤ t.isizeMax) :
    Holds t (.heap h) (.bag m) := by
  refine .heap hheap ?_ hbag
  rwa [← hbag, coe_card] at hcard

variable {l : List α}

theorem isGreatestOf_tail {x : α} (h : IsHeap (x :: l)) :
    IsGreatestOf x (l : Multiset α) :=
  fun y hy => h.le_head y (List.mem_cons_of_mem _ (mem_coe.1 hy))

/-- No element of a heap is greater than its first. -/
theorem not_lt_of_isHeap {x : α} (h : IsHeap (x :: l)) :
    ∀ y ∈ (l : Multiset α), ¬ x < y :=
  fun y hy hlt => (lt_iff_le_not_ge.1 hlt).2 (isGreatestOf_tail h y hy)

theorem peekMut_refines {h : BinaryHeap α} (hheap : IsHeap h.data.elems)
    (hlen : h.len ≤ t.isizeMax) : Stepped t (.peekMut i) (.bag h.data.elems)
      (match h.peek_mut with
      | none => some (.heap h, .flag false)
      | some p => some (.peek p, .flag true)) := by
  obtain ⟨⟨elems, rest⟩⟩ := h
  match elems, hheap, hlen with
  | [], hheap, hlen =>
    exact ⟨.heap ⟨⟨[], rest⟩⟩, .flag false, .bag 0, rfl, Or.inl ⟨rfl, rfl, rfl⟩,
      .heap isHeap_nil hlen rfl⟩
  | x :: tl, hheap, hlen =>
    refine ⟨.peek ⟨⟨⟨x :: tl, rest⟩⟩, none⟩, .flag true, .peek x tl false, rfl,
      Or.inr ⟨x, tl, (cons_coe x tl).symm, isGreatestOf_tail hheap, rfl, rfl⟩,
      .whole hheap hlen fun h => nomatch h⟩

variable {rest : List α}

/-- Writing through the borrow cuts the vector to the element written. -/
theorem peekWrite_whole {x y : α} {w : Bool} (hheap : IsHeap (x :: l))
    (hlen : (x :: l).length ≤ t.isizeMax) : Stepped t (.peekWrite i y) (.peek x l w) (do
      some (.peek (← PeekMut.write ⟨⟨⟨x :: l, rest⟩⟩, none⟩ y), .unit)) := by
  match l, hheap, hlen with
  | [], hheap, hlen =>
    exact ⟨.peek ⟨⟨⟨[y], rest⟩⟩, none⟩, .unit, .peek y ([] : List α) true, rfl, ⟨rfl, rfl⟩,
      .whole (isHeap_singleton y) hlen fun _ => rfl⟩
  | z :: l, hheap, hlen =>
    refine ⟨.peek ⟨⟨⟨[y], (z :: l) ++ rest⟩⟩, some ((z :: l).length + 1)⟩, .unit,
      .peek y (z :: l : List α) true, ?_, ⟨rfl, rfl⟩, .cut hheap hlen (List.cons_ne_nil z l)⟩
    have h1 : 1 ≤ l.length + 1 + 1 + rest.length := by omega
    simp [PeekMut.write, len, Vec.len, Vec.set_len, withElems, h1]

variable [DecidableLE α] [DecidableLT α] [Std.Total (α := α) (· ≤ ·)]

omit [DecidableLT α] in
theorem pop_refines {h : BinaryHeap α} (hheap : IsHeap h.data.elems)
    (hlen : h.len ≤ t.isizeMax) : Stepped t (.pop i) (.bag h.data.elems) (do
      let (h, item) ← h.pop t
      some (.heap h, .item item)) := by
  obtain ⟨⟨elems, rest⟩⟩ := h
  match elems, hheap, hlen with
  | [], hheap, hlen =>
    exact ⟨.heap ⟨⟨[], rest⟩⟩, .item none, .bag 0, rfl, Or.inl ⟨rfl, rfl, rfl⟩,
      .heap isHeap_nil hlen rfl⟩
  | x :: tl, hheap, hlen =>
    obtain ⟨h', hpop, hheap', hbag, hlen'⟩ := pop_cons rest hlen hheap
    refine ⟨.heap h', .item (some x), .bag tl, by rw [hpop]; rfl, Or.inr ⟨x, tl, ?_, ?_, rfl, rfl⟩,
      .heap hheap' hlen' hbag⟩
    · exact (cons_coe x tl).symm
    · exact isGreatestOf_tail hheap

theorem peekRefresh_cut {x y : α} (hheap : IsHeap (y :: l))
    (hlen : (x :: l).length ≤ t.isizeMax) : Stepped t (.peekRefresh i) (.peek x l true) (do
      let (p, changed) ← PeekMut.refresh t ⟨⟨⟨[x], l ++ rest⟩⟩, some (l.length + 1)⟩
      some (.peek p, .flag changed)) := by
  obtain ⟨top, others, p, hdown, hheap', hperm, hsame, hgrow⟩ :=
    sift_down_root_spec hheap hlen
  refine ⟨.peek ⟨⟨⟨top :: others, rest⟩⟩, none⟩, .flag (p != 0), .peek top others false, ?_,
    ⟨top, others, ?_, isGreatestOf_tail hheap', rfl, ?_⟩, .whole hheap' ?_ fun h => nomatch h⟩
  · simp [PeekMut.refresh, set_len_cut, hdown, withElems]
  · rw [cons_coe, cons_coe]
    exact coe_eq_coe.2 hperm
  · by_cases hp : p = 0
    · obtain ⟨rfl, rfl⟩ := hsame hp
      subst hp
      exact Or.inl ⟨rfl, rfl, rfl, not_lt_of_isHeap hheap'⟩
    · refine Or.inr ⟨by simp [hp], hgrow hp, top, ?_, hgrow hp⟩
      have hmem : top ∈ x :: l := hperm.subset (List.mem_cons_self ..)
      rcases List.mem_cons.1 hmem with rfl | hmem
      · exact absurd (hgrow hp) (lt_irrefl top)
      · exact mem_coe.2 hmem
  · rw [hperm.length_eq]
    exact hlen

theorem peekDrop_cut {x y : α} (hheap : IsHeap (y :: l))
    (hlen : (x :: l).length ≤ t.isizeMax) : Stepped t (.peekDrop i) (.peek x l true) (do
      some (.heap (← PeekMut.drop t ⟨⟨⟨[x], l ++ rest⟩⟩, some (l.length + 1)⟩), .unit)) := by
  obtain ⟨top, others, p, hdown, hheap', hperm, -, -⟩ := sift_down_root_spec hheap hlen
  refine ⟨.heap ⟨⟨top :: others, rest⟩⟩, .unit, .bag (x ::ₘ l), ?_, ⟨rfl, rfl⟩,
    .heap hheap' (hperm.length_eq.trans_le hlen) ?_⟩
  · simp [PeekMut.drop, set_len_cut, hdown, withElems]
  · rw [cons_coe]
    exact coe_eq_coe.2 hperm

omit [DecidableLT α] in
theorem peekPop_refines {x y : α} (rest : List α) {w : Bool} {p : PeekMut α}
    (hheap : IsHeap (y :: l)) (hlen : (x :: l).length ≤ t.isizeMax)
    (hp : p.restore = some ⟨⟨x :: l, rest⟩⟩) :
    Stepped t (.peekPop i) (.peek x l w) (do
      let (h, item) ← p.pop t
      some (.heap h, .item (some item))) := by
  obtain ⟨h', hpop, hheap', hbag, hlen'⟩ := pop_cons rest hlen hheap
  refine ⟨.heap h', .item (some x), .bag l, ?_, ⟨rfl, rfl⟩, .heap hheap' hlen' hbag⟩
  simp only [PeekMut.pop, hp, hpop, some_bind]

omit [DecidableLT α] in
theorem push_refines {h : BinaryHeap α} (hheap : IsHeap h.data.elems) (x : α)
    (hlen : h.data.elems.length + 1 ≤ t.isizeMax) :
    Stepped t (.push i x) (.bag h.data.elems) (do some (.heap (← h.push x), .unit)) := by
  obtain ⟨h', hpush, hheap', hbag⟩ := push_spec hheap x
  refine ⟨.heap h', .unit, .bag (x ::ₘ h.data.elems), by rw [hpush]; rfl, ⟨rfl, rfl⟩,
    holds_of_card hheap' hbag ?_⟩
  rwa [card_cons, coe_card]

theorem extend_refines {h : BinaryHeap α} (hheap : IsHeap h.data.elems) (xs : List α)
    (hlen : h.data.elems.length + xs.length ≤ t.isizeMax) :
    Stepped t (.extend i xs) (.bag h.data.elems) (do some (.heap (← h.extend t xs), .unit)) := by
  obtain ⟨h', hext, hheap', hbag⟩ := extend_spec hheap xs hlen
  refine ⟨.heap h', .unit, .bag (h.data.elems + xs), by rw [hext]; rfl, ⟨rfl, rfl⟩,
    holds_of_card hheap' hbag ?_⟩
  rwa [card_add, coe_card, coe_card]

theorem retain_refines {h : BinaryHeap α} (hheap : IsHeap h.data.elems) (f : ℕ → α → Bool)
    (hlen : h.len ≤ t.isizeMax) :
    Stepped t (.retain i f) (.bag h.data.elems) (do some (.heap (← h.retain t f), .unit)) := by
  obtain ⟨h', hret, hheap', hbag⟩ := retain_spec hheap f hlen
  exact ⟨.heap h', .unit, .bag (keep f 0 h.data.elems), by rw [hret]; rfl, ⟨_, rfl, rfl, rfl⟩,
    holds_of_card hheap' hbag ((keep_length_le f 0 _).trans hlen)⟩

theorem fromVec_refines (m : Multiset α) (v : List α) (hlen : v.length ≤ t.isizeMax) :
    Stepped t (.fromVec i v) (.bag m) (do some (.heap (← fromVec t v), .unit)) := by
  obtain ⟨h', hfrom, hheap', hbag⟩ := fromVec_spec v hlen
  exact ⟨.heap h', .unit, .bag v, by rw [hfrom]; rfl, ⟨rfl, rfl⟩, holds_of_card hheap' hbag hlen⟩

theorem intoSortedVec_refines {h : BinaryHeap α} (hheap : IsHeap h.data.elems)
    (hlen : h.len ≤ t.isizeMax) : Stepped t (.intoSortedVec i) (.bag h.data.elems) (do
      some (.heap BinaryHeap.new, .items (← h.into_sorted_vec t))) := by
  obtain ⟨l, hsort, hperm, hsorted⟩ := into_sorted_vec_spec hheap hlen
  exact ⟨.heap BinaryHeap.new, .items l, .bag 0, by rw [hsort]; rfl,
    ⟨l, (coe_eq_coe.2 hperm).symm, hsorted, rfl, rfl⟩, .heap isHeap_nil (Nat.zero_le _) rfl⟩

/-- The operation on two heaps. -/
theorem append_refines {j : ℕ} (hs : Refines t s r) (hop : allowed t s (.append i j) = true) :
    ∃ s' out r', step t s (.append i j) = some (s', out) ∧ RefStep r (.append i j) out r' ∧
      Refines t s' r' := by
  simp only [allowed, and_eq_true, decide_eq_true_eq] at hop
  obtain ⟨⟨⟨hi, hj⟩, -⟩, hlen⟩ := hop
  have holdi := hs i
  have holdj := hs j
  rcases hsi : s i with a | _
  swap
  · rw [hsi] at hi; cases hi
  rcases hsj : s j with b | _
  swap
  · rw [hsj] at hj; cases hj
  obtain ⟨bi, hri⟩ : ∃ b, r i = b := ⟨_, rfl⟩
  obtain ⟨bj, hrj⟩ : ∃ b, r j = b := ⟨_, rfl⟩
  rw [hsi, hri] at holdi
  rw [hsj, hrj] at holdj
  rw [hsi, hsj] at hlen
  obtain ⟨ha, -, rfl⟩ := holdi
  obtain ⟨hb, -, rfl⟩ := holdj
  obtain ⟨a', b', happ, hheap, hbag, hnil⟩ := append_spec ha hb hlen
  have ha' : Holds t (.heap a') (.bag (a.data.elems + b.data.elems)) :=
    holds_of_card hheap hbag (by rwa [card_add, coe_card, coe_card])
  have hb' : Holds t (.heap b') (.bag 0) :=
    holds_of_card (hnil ▸ isHeap_nil) (by rw [hnil]; rfl) (Nat.zero_le _)
  exact ⟨_, .unit, _, by simp only [step, hsi, hsj, happ, some_bind], ⟨_, _, hri, hrj, rfl, rfl⟩,
    Holds.update (Holds.update hs ha') hb'⟩

/-- **One operation**: allowed, it does not fault, and it does to the bags what `RefStep` says. -/
theorem step_refines (hs : Refines t s r) (op : Op α) (hop : allowed t s op = true) :
    ∃ s' out r', step t s op = some (s', out) ∧ RefStep r op out r' ∧ Refines t s' r' := by
  cases op with
  | append i j => exact append_refines hs hop
  | push i x =>
    simp only [allowed, and_eq_true, decide_eq_true_eq] at hop
    refine onHeap_refines (.push i x) hs hop.1 fun h hsi hheap _ => push_refines hheap x ?_
    rw [hsi] at hop
    exact hop.2
  | pop i => exact onHeap_refines (.pop i) hs hop fun h _ hheap hlen => pop_refines hheap hlen
  | extend i xs =>
    simp only [allowed, and_eq_true, decide_eq_true_eq] at hop
    refine onHeap_refines (.extend i xs) hs hop.1 fun h hsi hheap _ => extend_refines hheap xs ?_
    rw [hsi] at hop
    exact hop.2
  | retain i f =>
    exact onHeap_refines (.retain i f) hs hop fun h _ hheap hlen => retain_refines hheap f hlen
  | fromVec i v =>
    simp only [allowed, and_eq_true, decide_eq_true_eq] at hop
    exact onHeap_refines (.fromVec i v) hs hop.1 fun h _ _ _ => fromVec_refines _ v hop.2
  | intoSortedVec i =>
    exact onHeap_refines (.intoSortedVec i) hs hop fun h _ hheap hlen =>
      intoSortedVec_refines hheap hlen
  | peekMut i =>
    exact onHeap_refines (.peekMut i) hs hop fun h _ hheap hlen => peekMut_refines hheap hlen
  | peekRead i =>
    exact onPeek_refines (.peekRead i) hs (by simpa [allowed] using hop)
      (fun x l rest w hheap hlen hw => ⟨_, _, _, rfl, ⟨rfl, rfl⟩, .whole hheap hlen hw⟩)
      fun x y l rest hheap hlen hne => ⟨_, _, _, rfl, ⟨rfl, rfl⟩, .cut hheap hlen hne⟩
  | peekWrite i z =>
    exact onPeek_refines (.peekWrite i z) hs (by simpa [allowed] using hop)
      (fun x l rest w hheap hlen _ => peekWrite_whole hheap hlen)
      fun x y l rest hheap hlen hne => ⟨_, _, _, rfl, ⟨rfl, rfl⟩, .cut hheap hlen hne⟩
  | peekRefresh i =>
    exact onPeek_refines (.peekRefresh i) hs (by simpa [allowed] using hop)
      (fun x l rest w hheap hlen _ => ⟨_, _, .peek x l false, rfl,
        ⟨x, l, rfl, isGreatestOf_tail hheap, rfl, Or.inl ⟨rfl, rfl, rfl, not_lt_of_isHeap hheap⟩⟩,
        .whole hheap hlen (by rintro ⟨⟩)⟩)
      fun x y l rest hheap hlen _ => peekRefresh_cut hheap hlen
  | peekDrop i =>
    exact onPeek_refines (.peekDrop i) hs (by simpa [allowed] using hop)
      (fun x l rest w hheap hlen _ => ⟨_, _, .bag (x ::ₘ l), rfl, ⟨rfl, rfl⟩,
        .heap hheap hlen (cons_coe x l).symm⟩)
      fun x y l rest hheap hlen _ => peekDrop_cut hheap hlen
  | peekPop i =>
    exact onPeek_refines (.peekPop i) hs (by simpa [allowed] using hop)
      (fun x l rest w hheap hlen _ => peekPop_refines rest hheap hlen rfl)
      fun x y l rest hheap hlen _ => peekPop_refines rest hheap hlen (by
        simp only [PeekMut.restore, set_len_cut, some_bind])
  | peekLeak i =>
    refine onPeek_refines (.peekLeak i) hs (by simpa [allowed] using hop)
      (fun x l rest w hheap hlen hw => ⟨_, _, _, rfl, ⟨rfl, rfl⟩, .heap hheap hlen ?_⟩)
      fun x y l rest _ hlen _ => ⟨_, _, _, rfl, ⟨rfl, rfl⟩,
        .heap (isHeap_singleton x) ((Nat.succ_le_succ (Nat.zero_le _)).trans hlen) rfl⟩
    cases w with
    | false => exact (cons_coe x l).symm
    | true => rw [hw rfl]; rfl

/-- Every allowed run from slots that hold bags is a run of the bags. -/
theorem runs_refine_bags_from (hs : Refines t s r) (ops : List (Op α))
    (hops : allowedRun t s ops = true) :
    ∃ s' outs r', run t s ops = some (s', outs) ∧ RefRun r ops outs r' ∧ Refines t s' r' := by
  induction ops generalizing s r with
  | nil => exact ⟨s, [], r, rfl, .nil r, hs⟩
  | cons op ops ih =>
    rw [allowedRun, and_eq_true] at hops
    obtain ⟨s1, out, r1, hstep, href, hs1⟩ := step_refines hs op hops.1
    have hrest : allowedRun t s1 ops = true := by
      have := hops.2
      rw [hstep] at this
      exact this
    obtain ⟨s', outs, r', hrun, hrefs, hs'⟩ := ih hs1 hrest
    refine ⟨s', out :: outs, r', ?_, .cons href hrefs, hs'⟩
    simp only [run, hstep, hrun, some_bind]

/-- **Runs of heap operations refine bags**: from empty heaps, every sequence of operations that is
allowed runs without a fault, its answers are those of a run of the bags, and afterwards every
vector is in heap order and holds its bag. -/
theorem runs_refine_bags (ops : List (Op α)) (hops : allowedRun t State.init ops = true) :
    ∃ s outs r, run t State.init ops = some (s, outs) ∧ RefRun RefState.init ops outs r ∧
      Refines t s r ∧ ∀ i, IsHeap (s i).elems := by
  obtain ⟨s, outs, r, hrun, href, hs⟩ := runs_refine_bags_from (refines_init t) ops hops
  exact ⟨s, outs, r, hrun, href, hs, fun i => (hs i).isHeap⟩

end Step

/-- A run that mutates the greatest element below another one, on a 64-bit target. -/
theorem runs_refine_bags_lowered :
    ∃ s outs r, run ⟨3, false⟩ State.init [.extend 0 [3, 5, 4], .peekMut 0, .peekWrite 0 1,
        .peekRefresh 0, .peekDrop 0, .push 1 7, .append 0 1, .pop 0, .intoSortedVec 0] =
          some (s, outs) ∧
      RefRun RefState.init [.extend 0 [3, 5, 4], .peekMut 0, .peekWrite 0 1,
        .peekRefresh 0, .peekDrop 0, .push 1 7, .append 0 1, .pop 0, .intoSortedVec 0] outs r ∧
      Refines ⟨3, false⟩ s r ∧ ∀ i, IsHeap (s i).elems :=
  runs_refine_bags (α := ℕ) _ (by decide)

end RustStd.BinaryHeap
