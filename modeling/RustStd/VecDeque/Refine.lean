import RustStd.VecDeque.ZeroSized

/-!
# Runs of ring buffer operations refine lists

A program holds any number of deques. `step` runs one operation on the model of the source;
`refStep` is what the operation does to lists. A panic leaves every deque as it was: it comes from
an index out of range, or from the allocator, before the first change. `runs_refine_lists` follows
every sequence of operations from empty deques: no operation leaves the buffer or reads a cell that
holds nothing, every answer and every deque is the one of the lists.
-/

namespace RustStd.VecDeque

open Function

variable {α : Type}

abbrev State (α : Type) := ℕ → VecDeque α

/-- Every deque empty. -/
def State.init : State α := fun _ => VecDeque.new

/-- The operations. A number names a deque, `c` is what the allocator returns. -/
inductive Op (α : Type)
  | push_front (i : ℕ) (x : α) (c : ℕ)
  | push_back (i : ℕ) (x : α) (c : ℕ)
  | pop_front (i : ℕ)
  | pop_back (i : ℕ)
  | insert (i index : ℕ) (x : α) (c : ℕ)
  | remove (i index : ℕ)
  | swap_remove_front (i index : ℕ)
  | swap_remove_back (i index : ℕ)
  | rotate_left (i n : ℕ)
  | rotate_right (i n : ℕ)
  | append (i j : ℕ) (distinct : i ≠ j) (c : ℕ)
  | split_off (i j at_ c : ℕ)
  | truncate (i len : ℕ)
  | truncate_front (i len : ℕ)
  | clear (i : ℕ)
  | reserve (i additional c : ℕ)
  | grow (i c : ℕ)

/-- What an operation returns, or the elements it drops. -/
inductive Out (α : Type)
  | unit
  | item (x : Option α)
  | dropped (l : List α)
  | panicked
  deriving DecidableEq

/-! ## The model -/

section Model

variable (t : Target) (zst : Option α)

/-- Run an operation of one deque. -/
def change (s : State α) (i : ℕ) (f : VecDeque α → Exec (VecDeque α)) : Exec (State α × Out α) := do
  let d ← f (s i)
  .ok (update s i d, .unit)

/-- Run an operation of one deque that returns something. -/
def answer {β : Type} (s : State α) (i : ℕ) (out : β → Out α)
    (f : VecDeque α → Exec (VecDeque α × β)) : Exec (State α × Out α) := do
  let (d, x) ← f (s i)
  .ok (update s i d, out x)

/-- Run an operation of two deques. -/
def changeBoth (s : State α) (i j : ℕ)
    (f : VecDeque α → VecDeque α → Exec (VecDeque α × VecDeque α)) : Exec (State α × Out α) := do
  let (d, other) ← f (s i) (s j)
  .ok (update (update s i d) j other, .unit)

def exec (s : State α) : Op α → Exec (State α × Out α)
  | .push_front i x c => change s i fun d => d.push_front t zst x c
  | .push_back i x c => change s i fun d => d.push_back t zst x c
  | .pop_front i => answer s i .item fun d => d.pop_front t zst
  | .pop_back i => answer s i .item fun d => d.pop_back t zst
  | .insert i index x c => change s i fun d => d.insert t zst index x c
  | .remove i index => answer s i .item fun d => d.remove t zst index
  | .swap_remove_front i index => answer s i .item fun d => d.swap_remove_front t zst index
  | .swap_remove_back i index => answer s i .item fun d => d.swap_remove_back t zst index
  | .rotate_left i n => change s i fun d => d.rotate_left t zst n
  | .rotate_right i n => change s i fun d => d.rotate_right t zst n
  | .append i j _ c => changeBoth s i j fun d other => d.append t zst other c
  | .split_off i j at_ c => changeBoth s i j fun d _ => d.split_off t zst at_ c
  | .truncate i len => answer s i .dropped fun d => d.truncate t zst len
  | .truncate_front i len => answer s i .dropped fun d => d.truncate_front t zst len
  | .clear i => answer s i .dropped fun d => d.clear t zst
  | .reserve i additional c => change s i fun d => d.reserve t zst additional c
  -- `grow` is private and called on full deques only
  | .grow i c => change s i fun d => if d.is_full t zst then d.grow t zst c else .ok d

/-- One operation; a panic is caught. -/
def step (s : State α) (op : Op α) : Exec (State α × Out α) :=
  match exec t zst s op with
  | .error .panic => .ok (s, .panicked)
  | res => res

/-- Run a sequence of operations. -/
def run : State α → List (Op α) → Exec (State α × List (Out α))
  | s, [] => .ok (s, [])
  | s, op :: ops => do
    let (s, out) ← step t zst s op
    let (s, outs) ← run s ops
    .ok (s, out :: outs)

end Model

/-! ## Lists -/

abbrev RefState (α : Type) := ℕ → List α

def RefState.init : RefState α := fun _ => []

/-- What an operation does to the lists; nothing when its assertion fails. -/
def refExec (r : RefState α) : Op α → Option (RefState α × Out α)
  | .push_front i x _ => some (update r i (x :: r i), .unit)
  | .push_back i x _ => some (update r i (r i ++ [x]), .unit)
  | .pop_front i => some (update r i (r i).tail, .item (r i).head?)
  | .pop_back i => some (update r i (r i).dropLast, .item (r i).getLast?)
  | .insert i index x _ =>
      if index ≤ (r i).length then some (update r i ((r i).insertIdx index x), .unit)
      else none
  | .remove i index => some (update r i ((r i).eraseIdx index), .item (r i)[index]?)
  | .swap_remove_front i index =>
      some (update r i (swapRemoveFront (r i) index).1, .item (swapRemoveFront (r i) index).2)
  | .swap_remove_back i index =>
      some (update r i (swapRemoveBack (r i) index).1, .item (swapRemoveBack (r i) index).2)
  | .rotate_left i n =>
      if n ≤ (r i).length then some (update r i ((r i).rotate n), .unit) else none
  | .rotate_right i n =>
      if n ≤ (r i).length then
        some (update r i ((r i).rotate ((r i).length - n)), .unit)
      else none
  | .append i j _ _ =>
      some (update (update r i (r i ++ r j)) j [], .unit)
  | .split_off i j at_ _ =>
      if at_ ≤ (r i).length then
        some (update (update r i ((r i).take at_)) j ((r i).drop at_), .unit)
      else none
  | .truncate i len =>
      some (update r i ((r i).take len), .dropped ((r i).drop len))
  | .truncate_front i len =>
      some (update r i ((r i).drop ((r i).length - len)),
        .dropped ((r i).take ((r i).length - len)))
  | .clear i => some (update r i [], .dropped (r i))
  | .reserve _ _ _ | .grow _ _ => some (r, .unit)

/-- The number of elements an operation makes room for, and what the allocator returns. -/
def request (r : RefState α) : Op α → Option (ℕ × ℕ)
  | .push_front i _ c | .push_back i _ c | .insert i _ _ c | .grow i c => some ((r i).length + 1, c)
  | .append i j _ c => some ((r i).length + (r j).length, c)
  | .split_off i _ at_ c => some ((r i).length - at_, c)
  | .reserve i additional c => some ((r i).length + additional, c)
  | _ => none

/-- The capacity is past what the target can address. -/
def overflows (t : Target) : Option α → ℕ × ℕ → Prop
  | none, (needed, c) => t.isizeMax < max needed c
  | some _, (needed, _) => t.usizeMax < needed

/-- One operation on lists. A panic changes nothing, and comes from an assertion that fails or a
capacity that overflows. -/
def RefStep (t : Target) (zst : Option α) (r : RefState α) (op : Op α) (out : Out α)
    (r' : RefState α) : Prop :=
  refExec r op = some (r', out) ∨
  (out = .panicked ∧ r' = r ∧
    (refExec r op = none ∨ ∃ req, request r op = some req ∧ overflows t zst req))

/-- A run on lists. -/
inductive RefRun (t : Target) (zst : Option α) :
    RefState α → List (Op α) → List (Out α) → RefState α → Prop
  | nil (r) : RefRun t zst r [] [] r
  | cons {r op out r' ops outs r''} : RefStep t zst r op out r' → RefRun t zst r' ops outs r'' →
      RefRun t zst r (op :: ops) (out :: outs) r''

/-! ## The refinement -/

/-- The deque's positions are in range, and reading it around the ring gives the list. -/
structure Denotes (t : Target) (zst : Option α) (d : VecDeque α) (l : List α) : Prop where
  length : l.length = d.len
  len_le : d.len ≤ d.capacity t zst
  head_lt : d.head < d.capacity t zst ∨ d.capacity t zst = 0
  reads : ∀ (i : ℕ) (hi : i < l.length),
    d.buffer_read zst ((d.head + i) % d.capacity t zst) = .ok l[i]

/-- The deque holds the list, whatever the size of an element. -/
def Holds (t : Target) : Option α → VecDeque α → List α → Prop
  | none => Sized t
  | some _ => ZeroSized t

/-- The deques hold the lists. -/
def Refines (t : Target) (zst : Option α) (s : State α) (r : RefState α) : Prop :=
  ∀ i, Holds t zst (s i) (r i)

variable {t : Target} {zst : Option α} {s : State α} {r : RefState α} {l : List α} {d : VecDeque α}

theorem Holds.denotes (hz : ∀ u, zst = some u → ∀ x, x = u)
    (h : Holds t zst d l) : Denotes t zst d l := by
  cases zst with
  | none =>
    have h : Sized t d l := h
    have hlen := h.length
    have hle := h.len_le
    refine ⟨h.length, by rwa [capacity_none], ?_, fun i hi => ?_⟩
    · rw [capacity_none]
      exact h.head_lt.imp_right And.right
    · have hhead := h.head_lt.resolve_right (by omega)
      rw [capacity_none, ← phys_eq_mod hhead (by omega)]
      exact h.read hi
  | some u =>
    have h : ZeroSized t d l := h
    have hcap : d.capacity t (some u) = t.usizeMax := by simp [capacity]
    refine ⟨h.length, hcap ▸ h.len_le, hcap ▸ Or.inl h.head_lt, fun i hi => ?_⟩
    rw [buffer_read_some, hz u rfl l[i]]

theorem holds_new (t : Target) (zst : Option α) : Holds t zst VecDeque.new [] := by
  cases zst with
  | none => exact Sized.nil (d := VecDeque.new) (Nat.zero_le _)
  | some u => exact ZeroSized.nil VecDeque.new

theorem Refines.update (h : Refines t zst s r) {i : ℕ}
    (hd : Holds t zst d l) : Refines t zst (update s i d) (update r i l) := by
  intro j
  by_cases hj : j = i
  · subst hj
    simpa using hd
  · simpa [hj] using h j

theorem Holds.length (h : Holds t zst d l) : l.length = d.len := by
  cases zst with
  | none => exact Sized.length h
  | some u => exact ZeroSized.length h

/-- What an operation does to the deques, it does to the lists; or it panics, for a reason. -/
def Stepped (t : Target) (zst : Option α) (s : State α) (r : RefState α) (op : Op α) : Prop :=
  (∃ s' out r', exec t zst s op = .ok (s', out) ∧ refExec r op = some (r', out) ∧
    Refines t zst s' r') ∨
  (exec t zst s op = .error .panic ∧
    (refExec r op = none ∨ ∃ req, request r op = some req ∧ overflows t zst req))

variable (hs : Refines t zst s r)
include hs

variable {op : Op α}

theorem stepped_of_change {i : ℕ}
    {f : VecDeque α → Exec (VecDeque α)} (hexec : exec t zst s op = change s i f)
    (href : refExec r op = some (update r i l, .unit))
    (hf : PanicsOr (∃ req, request r op = some req ∧ overflows t zst req) (f (s i)) fun d =>
      Holds t zst d l) : Stepped t zst s r op := by
  rcases hf with ⟨hover, herr⟩ | ⟨d, hd, hl⟩
  · exact Or.inr ⟨by rw [hexec, change, herr]; rfl, Or.inr hover⟩
  · exact Or.inl ⟨_, _, _, by rw [hexec, change, hd]; rfl, href, hs.update hl⟩

theorem stepped_of_answer {i : ℕ} {β : Type} {out : β → Out α}
    {f : VecDeque α → Exec (VecDeque α × β)} {x : β}
    (hexec : exec t zst s op = answer s i out f)
    (href : refExec r op = some (update r i l, out x))
    (hf : ∃ d, f (s i) = .ok (d, x) ∧ Holds t zst d l) : Stepped t zst s r op := by
  obtain ⟨d, hd, hl⟩ := hf
  exact Or.inl ⟨_, _, _, by rw [hexec, answer, hd]; rfl, href, hs.update hl⟩

theorem stepped_of_changeBoth {i j : ℕ}
    {f : VecDeque α → VecDeque α → Exec (VecDeque α × VecDeque α)} {l l' : List α}
    (hexec : exec t zst s op = changeBoth s i j f)
    (href : refExec r op = some (update (update r i l) j l', .unit))
    (hf : PanicsOr (∃ req, request r op = some req ∧ overflows t zst req) (f (s i) (s j)) fun ds =>
      Holds t zst ds.1 l ∧ Holds t zst ds.2 l') : Stepped t zst s r op := by
  rcases hf with ⟨hover, herr⟩ | ⟨d, hd, hl, hl'⟩
  · exact Or.inr ⟨by rw [hexec, changeBoth, herr]; rfl, Or.inr hover⟩
  · exact Or.inl ⟨_, _, _, by rw [hexec, changeBoth, hd]; rfl, href, (hs.update hl).update hl'⟩

omit hs

/-- An operation whose assertion fails. -/
theorem stepped_of_panic (hexec : exec t zst s op = .error .panic)
    (href : refExec r op = none) : Stepped t zst s r op := Or.inr ⟨hexec, Or.inl href⟩

/-- What an operation that allocates does, when only a request that overflows panics. -/
theorem or_of_request {β : Type} {m : Exec β} {P : β → Prop} {req : ℕ × ℕ}
    (hreq : request r op = some req) (h : PanicsOr (overflows t zst req) m P) :
    PanicsOr (∃ req, request r op = some req ∧ overflows t zst req) m P :=
  h.imp (fun h => ⟨req, hreq, h⟩) fun _ => id

variable (hz : ∀ u, zst = some u → ∀ x, x = u)
include hz

/-- Step lemma: one operation keeps the refinement of the deques by lists. -/
theorem exec_refines (hs : Refines t zst s r) (op : Op α) : Stepped t zst s r op := by
  cases op with
  | push_front i x c =>
    refine stepped_of_change (f := fun d => d.push_front t zst x c) hs rfl rfl
      (or_of_request rfl ?_)
    cases zst with
    | none => exact Sized.push_front (hs i) x c
    | some u => exact ZeroSized.push_front (hs i) x c
  | push_back i x c =>
    refine stepped_of_change (f := fun d => d.push_back t zst x c) hs rfl rfl
      (or_of_request rfl ?_)
    cases zst with
    | none => exact Sized.push_back (hs i) x c
    | some u => exact ZeroSized.push_back (hs i) x c
  | pop_front i =>
    refine stepped_of_answer hs rfl rfl ?_
    cases zst with
    | none => exact Sized.pop_front (hs i)
    | some u => exact ZeroSized.pop_front (hz u rfl) (hs i)
  | pop_back i =>
    refine stepped_of_answer hs rfl rfl ?_
    cases zst with
    | none => exact Sized.pop_back (hs i)
    | some u => exact ZeroSized.pop_back (hz u rfl) (hs i)
  | insert i index x c =>
    by_cases hi : index ≤ (r i).length
    · refine stepped_of_change (f := fun d => d.insert t zst index x c) hs rfl (if_pos hi)
        (or_of_request rfl ?_)
      cases zst with
      | none => exact Sized.insert (hs i) hi x c
      | some u => exact ZeroSized.insert (hs i) hi x c
    · refine stepped_of_panic ?_ (if_neg hi)
      rw [(hs i).length] at hi
      simp [exec, change, VecDeque.insert, if_neg hi]
  | remove i index =>
    refine stepped_of_answer (f := fun d => d.remove t zst index) hs rfl rfl ?_
    cases zst with
    | none => exact Sized.remove (hs i) index
    | some u => exact ZeroSized.remove (hz u rfl) (hs i) index
  | swap_remove_front i index =>
    refine stepped_of_answer (f := fun d => d.swap_remove_front t zst index) hs rfl rfl ?_
    cases zst with
    | none => exact Sized.swap_remove_front (hs i) index
    | some u => exact ZeroSized.swap_remove_front (hz u rfl) (hs i) index
  | swap_remove_back i index =>
    refine stepped_of_answer (f := fun d => d.swap_remove_back t zst index) hs rfl rfl ?_
    cases zst with
    | none => exact Sized.swap_remove_back (hs i) index
    | some u => exact ZeroSized.swap_remove_back (hz u rfl) (hs i) index
  | rotate_left i n =>
    by_cases hn : n ≤ (r i).length
    · refine stepped_of_change (f := fun d => d.rotate_left t zst n) hs rfl (if_pos hn) (Or.inr ?_)
      cases zst with
      | none => exact Sized.rotate_left (hs i) hn
      | some u => exact ZeroSized.rotate_left (hs i) hn
    · refine stepped_of_panic ?_ (if_neg hn)
      rw [(hs i).length] at hn
      simp [exec, change, VecDeque.rotate_left, if_neg hn]
  | rotate_right i n =>
    by_cases hn : n ≤ (r i).length
    · refine stepped_of_change (f := fun d => d.rotate_right t zst n) hs rfl (if_pos hn) (Or.inr ?_)
      cases zst with
      | none => exact Sized.rotate_right (hs i) hn
      | some u => exact ZeroSized.rotate_right (hs i) hn
    · refine stepped_of_panic ?_ (if_neg hn)
      rw [(hs i).length] at hn
      simp [exec, change, VecDeque.rotate_right, if_neg hn]
  | append i j hij c =>
    refine stepped_of_changeBoth (f := fun d other => d.append t zst other c) hs rfl rfl
      (or_of_request rfl ?_)
    cases zst with
    | none => exact Sized.append (hs i) (hs j) c
    | some u => exact ZeroSized.append (hs i) (hs j) c
  | split_off i j at_ c =>
    by_cases hat : at_ ≤ (r i).length
    · refine stepped_of_changeBoth (f := fun d _ => d.split_off t zst at_ c) hs rfl (if_pos hat)
        (or_of_request rfl ?_)
      cases zst with
      | none => exact (Sized.split_off (hs i) hat c).imp And.right fun _ => id
      | some u => exact Or.inr (ZeroSized.split_off (hs i) (hz u rfl) hat c)
    · refine stepped_of_panic ?_ (if_neg hat)
      rw [(hs i).length] at hat
      simp [exec, changeBoth, VecDeque.split_off, if_neg hat]
  | truncate i len =>
    refine stepped_of_answer (f := fun d => d.truncate t zst len) hs rfl rfl ?_
    cases zst with
    | none => exact Sized.truncate (hs i) len
    | some u => exact ZeroSized.truncate (hs i) (hz u rfl) len
  | truncate_front i len =>
    refine stepped_of_answer (f := fun d => d.truncate_front t zst len) hs rfl rfl ?_
    cases zst with
    | none => exact Sized.truncate_front (hs i) len
    | some u => exact ZeroSized.truncate_front (hs i) (hz u rfl) len
  | clear i =>
    refine stepped_of_answer hs rfl rfl ?_
    cases zst with
    | none => exact Sized.clear (hs i)
    | some u => exact ZeroSized.clear (hs i) (hz u rfl)
  | reserve i additional c =>
    refine stepped_of_change (l := r i) (f := fun d => d.reserve t zst additional c) hs rfl
      (by rw [update_eq_self]; rfl) (or_of_request rfl ?_)
    cases zst with
    | none => exact (Sized.reserve (hs i) additional c).imp id fun _ => And.left
    | some u => exact (ZeroSized.reserve (hs i) additional c).imp_right fun h => ⟨s i, h, hs i⟩
  | grow i c =>
    refine stepped_of_change (l := r i)
      (f := fun d => if d.is_full t zst then d.grow t zst c else .ok d) hs rfl
      (by rw [update_eq_self]; rfl) (or_of_request rfl ?_)
    cases zst with
    | none => exact (Sized.room (hs i) c).imp id fun _ => And.left
    | some u => exact (ZeroSized.room (hs i) c).imp id fun _ h => h.1 ▸ hs i

/-- **One operation** on the deques is one on the lists. -/
theorem step_refines (hs : Refines t zst s r) (op : Op α) :
    ∃ s' out r', step t zst s op = .ok (s', out) ∧ RefStep t zst r op out r' ∧
      Refines t zst s' r' := by
  rcases exec_refines hz hs op with ⟨s', out, r', hexec, href, hs'⟩ | ⟨hexec, href⟩
  · exact ⟨s', out, r', by rw [step, hexec], Or.inl href, hs'⟩
  · exact ⟨s, .panicked, r, by rw [step, hexec], Or.inr ⟨rfl, rfl, href⟩, hs⟩

/-- Every run from deques that hold lists is a run on the lists. -/
theorem runs_refine_lists_from (hs : Refines t zst s r) (ops : List (Op α)) :
    ∃ s' outs r', run t zst s ops = .ok (s', outs) ∧ RefRun t zst r ops outs r' ∧
      Refines t zst s' r' := by
  induction ops generalizing s r with
  | nil => exact ⟨s, [], r, rfl, .nil r, hs⟩
  | cons op ops ih =>
    obtain ⟨s1, out, r1, hstep, href, hs1⟩ := step_refines hz hs op
    obtain ⟨s', outs, r', hrun, hrefs, hs'⟩ := ih hs1
    exact ⟨s', out :: outs, r', by simp [run, hstep, hrun], .cons href hrefs, hs'⟩

omit hz

/-- **Runs of ring buffer operations refine lists**: from empty deques, every sequence of operations
runs without a fault, its answers are those of a run on lists, and afterwards every deque is in
range and denotes its list. -/
theorem runs_refine_lists (hz : ∀ u, zst = some u → ∀ x, x = u) (ops : List (Op α)) :
    ∃ s outs r, run t zst State.init ops = .ok (s, outs) ∧
      RefRun t zst RefState.init ops outs r ∧ ∀ i, Denotes t zst (s i) (r i) := by
  obtain ⟨s, outs, r, hrun, href, hs⟩ :=
    runs_refine_lists_from hz
      (fun _ => holds_new t zst : Refines t zst State.init RefState.init) ops
  exact ⟨s, outs, r, hrun, href, fun i => (hs i).denotes hz⟩

/-- A run that wraps around, inserts in the middle and splits, on a 64-bit target. -/
theorem runs_refine_lists_wrapped :
    ∃ s outs r, run ⟨3, false⟩ none State.init [.push_back 0 1 4, .push_front 0 0 4,
        .push_back 0 2 4, .insert 0 1 7 4, .rotate_left 0 3, .split_off 0 1 2 3,
        .append 1 0 (by decide) 8, .truncate_front 1 3, .remove 1 9, .insert 1 9 5 0] =
          .ok (s, outs) ∧
      RefRun ⟨3, false⟩ none RefState.init [.push_back 0 1 4, .push_front 0 0 4,
        .push_back 0 2 4, .insert 0 1 7 4, .rotate_left 0 3, .split_off 0 1 2 3,
        .append 1 0 (by decide) 8, .truncate_front 1 3, .remove 1 9, .insert 1 9 5 0] outs r ∧
      ∀ i, Denotes ⟨3, false⟩ none (s i) (r i) :=
  runs_refine_lists (α := ℕ) (by simp) _

end RustStd.VecDeque
