import RustStd.VecDeque.Drain
import RustStd.Foundations.Extraction

/-!
# Extraction by a predicate

`extract_if` visits the elements of a range in order and takes out those that its predicate selects.
The predicate has a state, may change the element it looks at and may panic; then the call unwinds
and the element counts as not visited. The elements that are kept are moved to the front of the hole
one by one, and what was not visited when the iterator is dropped.
-/

namespace RustStd.VecDeque

open DoubleEnded Visiting List Exec

variable {α σ : Type}

structure ExtractIf (α σ : Type) where
  vec : VecDeque α
  idx : ℕ
  end_ : ℕ
  del : ℕ
  old_len : ℕ
  pred_state : σ

def extract_if (vec : VecDeque α) (start_bound end_bound : Bound ℕ) (pred_state : σ) :
    Exec (ExtractIf α σ) := do
  let old_len := vec.len
  let (start, stop) ← slice_range start_bound end_bound old_len
  .ok { vec := { vec with len := 0 }, idx := start, end_ := stop, del := 0, old_len, pred_state }

namespace ExtractIf

section Model

variable (t : Target) (zst : Option α) (pred : Pred σ α)

/-- The loop of `next`, over the elements that are left of the range. -/
def next_loop : ℕ → ExtractIf α σ → Exec ((Option α × Exit) × ExtractIf α σ)
  | 0, self => .ok ((none, .returned), self)
  | n + 1, self => do
    let i := self.idx
    let idx := self.vec.to_physical_idx t zst i
    let cur ← self.vec.buffer_read zst idx
    let (pred_state, cur, drained) := pred self.pred_state cur
    let vec ← self.vec.buffer_write zst idx cur
    let self := { self with vec, pred_state }
    match drained with
    | none => .ok ((none, .unwound), self)
    | some drained =>
      let self := { self with idx := self.idx + 1 }
      if drained then
        .ok ((some cur, .returned), { self with del := self.del + 1 })
      else if self.del > 0 then do
        let hole_slot := self.vec.to_physical_idx t zst (i - self.del)
        let vec ← self.vec.wrap_copy t zst idx hole_slot 1
        next_loop n { self with vec }
      else next_loop n self

def next (self : ExtractIf α σ) : Exec ((Option α × Exit) × ExtractIf α σ) :=
  next_loop t zst pred (self.end_ - self.idx) self

/-- `n` calls of `next`, unless one unwinds: the answers, and how the last call ended. -/
def run : ℕ → ExtractIf α σ → Exec ((List (Option α) × Exit) × ExtractIf α σ)
  | 0, self => .ok (([], .returned), self)
  | n + 1, self => do
    let ((answer, exit), self) ← self.next t zst pred
    match exit with
    | .unwound => .ok (([], .unwound), self)
    | .returned =>
      let ((answers, exit), self) ← run n self
      .ok ((answer :: answers, exit), self)

def drop (self : ExtractIf α σ) : Exec (VecDeque α) := do
  let vec ← (if self.del > 0 then
      let src := self.vec.to_physical_idx t zst self.idx
      let dst := self.vec.to_physical_idx t zst (self.idx - self.del)
      let len := self.old_len - self.idx
      self.vec.wrap_copy t zst src dst len
    else .ok self.vec)
  .ok { vec with len := self.old_len - self.del }

end Model

end ExtractIf

variable {pred : Pred σ α} {s s' s1 : σ} {xs range rest : List α} {marks : List (α × Bool)}

/-! ## The iterator -/

variable {t : Target} {zst : Option α}

/-- The elements around the hole, whatever the size of an element. -/
def Hole (t : Target) : Option α → VecDeque α → List α → ℕ → List α → Prop
  | none => Gapped t
  | some _ => fun d before gap after =>
      d.head < t.usizeMax ∧ before.length + gap + after.length ≤ t.usizeMax

/-- What an extraction holds: the elements that stay, of those visited and those before the range;
the hole; the elements that are left of the range, and those after it. -/
structure Extracting (t : Target) (zst : Option α) (e : ExtractIf α σ)
    (before rest after : List α) : Prop where
  hole : Hole t zst e.vec before e.del (rest ++ after)
  idx : e.idx = before.length + e.del
  end_ : e.end_ = e.idx + rest.length
  old_len : e.old_len = e.idx + rest.length + after.length

namespace Extracting

variable {e : ExtractIf α σ} {before rest after : List α} {x : α}

theorem of_holds {d : VecDeque α} {l : List α} (h : Holds t zst d l) {i j : ℕ} (hij : i ≤ j)
    (hj : j ≤ l.length) (s : σ) :
    Extracting t zst ⟨{ d with len := 0 }, i, j, 0, d.len, s⟩ (l.take i) ((l.drop i).take (j - i))
      (l.drop j) := by
  have hlen := h.length
  have hrest : (l.drop i).take (j - i) ++ l.drop j = l.drop i := by
    rw [show l.drop j = (l.drop i).drop (j - i) by rw [drop_drop]; congr 1; lia, take_append_drop]
  refine ⟨?_, ?_, ?_, ?_⟩
  · rw [hrest]
    cases zst with
    | none =>
      have hgapped := Gapped.of_sized h (le_refl i) (hij.trans hj) 0
      rwa [Nat.sub_self] at hgapped
    | some u =>
      refine ⟨h.head_lt, ?_⟩
      have := h.len_le
      simp only [length_take, length_drop]
      lia
  all_goals simp only [length_take, length_drop]
  all_goals lia

theorem read (hz : ∀ u, zst = some u → ∀ x, x = u) (h : Extracting t zst e before
    (x :: rest) after) :
    e.vec.buffer_read zst (e.vec.to_physical_idx t zst e.idx) = .ok x := by
  cases zst with
  | none =>
    rw [h.idx]
    exact Gapped.read h.hole
  | some u => rw [buffer_read_some, hz u rfl x]

variable (h : Extracting t zst e before (x :: rest) after)
include h

/-- The element that is looked at, changed. -/
theorem write (y : α) (s : σ) :
    ∃ vec, e.vec.buffer_write zst (e.vec.to_physical_idx t zst e.idx) y = .ok vec ∧
      (∀ i, vec.to_physical_idx t zst i = e.vec.to_physical_idx t zst i) ∧
      Extracting t zst { e with vec := vec, pred_state := s } before (y :: rest) after := by
  cases zst with
  | none =>
    obtain ⟨mem, hwrite, hhole⟩ := Gapped.write h.hole y
    rw [← h.idx] at hwrite
    exact ⟨e.vec.withMem mem, hwrite, fun i => rfl, hhole, h.idx, h.end_, h.old_len⟩
  | some u => exact ⟨e.vec, rfl, fun i => rfl, h.hole, h.idx, h.end_, h.old_len⟩

/-- The element is taken. -/
theorem takes :
    Extracting t zst { e with idx := e.idx + 1, del := e.del + 1 } before rest after := by
  have hidx := h.idx
  have hend := h.end_
  have hold := h.old_len
  rw [length_cons] at hend hold
  refine ⟨?_, ?_, ?_, ?_⟩
  · cases zst with
    | none => exact Gapped.widen h.hole
    | some u =>
      obtain ⟨hhead, hfits⟩ := h.hole
      refine ⟨hhead, ?_⟩
      simp only [cons_append, length_cons] at hfits ⊢
      lia
  all_goals simp only
  all_goals lia

/-- The element stays, and is moved to the front of the hole. -/
theorem keeps : ∃ vec, (if e.del > 0 then
        e.vec.wrap_copy t zst (e.vec.to_physical_idx t zst e.idx)
          (e.vec.to_physical_idx t zst (e.idx - e.del)) 1
      else .ok e.vec) = .ok vec ∧
      Extracting t zst { e with vec := vec, idx := e.idx + 1 } (before ++ [x]) rest after := by
  have hidx := h.idx
  have hend := h.end_
  have hold := h.old_len
  rw [length_cons] at hend hold
  have hmoved : ∃ vec, (if e.del > 0 then
        e.vec.wrap_copy t zst (e.vec.to_physical_idx t zst e.idx)
          (e.vec.to_physical_idx t zst (e.idx - e.del)) 1
      else .ok e.vec) = .ok vec ∧ Hole t zst vec (before ++ [x]) e.del (rest ++ after) := by
    cases zst with
    | none =>
      have hhole : Gapped t e.vec before e.del ([x] ++ (rest ++ after)) := h.hole
      by_cases h0 : e.del > 0
      · obtain ⟨mem, hcopy, hhole⟩ := hhole.move_back
        rw [if_pos h0, show e.idx - e.del = before.length by lia, hidx]
        exact ⟨_, hcopy, hhole⟩
      · rw [if_neg h0]
        rw [show e.del = 0 by lia] at hhole ⊢
        exact ⟨_, rfl, hhole.shift⟩
    | some u =>
      obtain ⟨hhead, hfits⟩ := h.hole
      refine ⟨e.vec, by rw [wrap_copy_some, ite_self], hhead, ?_⟩
      simp only [cons_append, length_cons, length_append, length_nil] at hfits ⊢
      lia
  obtain ⟨vec, hvec, hhole⟩ := hmoved
  refine ⟨vec, hvec, hhole, ?_, ?_, ?_⟩
  all_goals simp only [length_append, length_cons, length_nil]
  all_goals lia

omit h

/-- **One call** of `next`. -/
theorem next_loop (hz : ∀ u, zst = some u → ∀ x, x = u) (pred : Pred σ α)
    (h : Extracting t zst e before rest after) :
    ∃ marks answer exit e' rest', e.next_loop t zst pred rest.length = .ok ((answer, exit), e') ∧
      Extraction pred 1 e.pred_state rest marks (told answer exit) exit e'.pred_state rest' ∧
      Extracting t zst e' (before ++ kept marks) rest' after := by
  induction rest generalizing e before with
  | nil =>
    refine ⟨[], none, .returned, e, [], rfl, .exhausted _, ?_⟩
    rwa [show before ++ kept ([] : List (α × Bool)) = before from append_nil before]
  | cons x rest ih =>
    obtain ⟨s1, y, drained, hpred⟩ : ∃ s1 y drained, pred e.pred_state x = (s1, y, drained) :=
      ⟨_, _, _, rfl⟩
    obtain ⟨vec, hwrite, hphys, hvec⟩ := h.write y s1
    rw [length_cons]
    unfold ExtractIf.next_loop
    simp only [h.read hz, bind_ok, hpred, hwrite]
    cases drained with
    | none =>
      refine ⟨[], none, .unwound, _, y :: rest, rfl, .panics hpred 0, ?_⟩
      rwa [show before ++ kept ([] : List (α × Bool)) = before from append_nil before]
    | some drained =>
      cases drained with
      | true =>
        refine ⟨[(y, true)], some y, .returned, _, rest, rfl, .takes hpred, ?_⟩
        rw [show before ++ kept [(y, true)] = before from append_nil before]
        exact hvec.takes
      | false =>
        obtain ⟨vec', hmoved, hkept⟩ := hvec.keeps
        obtain ⟨marks, answer, exit, e', rest', hrun, hext, he'⟩ := ih hkept
        refine ⟨(y, false) :: marks, answer, exit, e', rest', ?_, hext.keep hpred, ?_⟩
        · rw [← hphys e.idx]
          by_cases h0 : e.del > 0
          · rw [if_pos h0] at hmoved ⊢
            rw [hmoved, bind_ok]
            exact hrun
          · rw [if_neg h0] at hmoved ⊢
            cases hmoved
            exact hrun
        · rw [append_assoc] at he'
          exact he'

/-- **Any number of calls** of `next`. -/
theorem run (hz : ∀ u, zst = some u → ∀ x, x = u) (pred : Pred σ α)
    (h : Extracting t zst e before rest after) (n : ℕ) :
    ∃ marks answers exit e' rest', e.run t zst pred n = .ok ((answers, exit), e') ∧
      Extraction pred n e.pred_state rest marks answers exit e'.pred_state rest' ∧
      Extracting t zst e' (before ++ kept marks) rest' after := by
  induction n generalizing e before rest with
  | zero =>
    refine ⟨[], [], .returned, e, rest, rfl, .zero _ _, ?_⟩
    rwa [show before ++ kept ([] : List (α × Bool)) = before from append_nil before]
  | succ n ih =>
    obtain ⟨marks, answer, exit, e1, rest1, hnext, hext, he1⟩ := h.next_loop hz pred
    have hfuel : e.end_ - e.idx = rest.length := by
      rw [h.end_, Nat.add_sub_cancel_left]
    unfold ExtractIf.run ExtractIf.next
    rw [hfuel, hnext, bind_ok]
    cases exit with
    | unwound =>
      refine ⟨marks, [], .unwound, e1, rest1, rfl, ?_, he1⟩
      exact ⟨hext.visits, hext.told, nofun, fun _ => Nat.succ_pos n, nofun⟩
    | returned =>
      obtain ⟨marks', answers, exit, e', rest', hrun, hext', he'⟩ := ih he1
      refine ⟨marks ++ marks', answer :: answers, exit, e', rest', ?_, ?_, ?_⟩
      · dsimp only
        rw [hrun, bind_ok]
      · rw [Nat.add_comm n 1]
        exact hext.append hext'
      · rwa [kept_append, ← append_assoc]

/-- **Dropping** the iterator moves what was not visited to the front of the hole. -/
theorem drop (h : Extracting t zst e before rest after) :
    ∃ d', e.drop t zst = .ok d' ∧ Holds t zst d' (before ++ (rest ++ after)) := by
  have hidx := h.idx
  have hold := h.old_len
  have hhole := h.hole
  have hlen : e.old_len - e.del = before.length + (rest ++ after).length := by
    rw [length_append]
    lia
  unfold ExtractIf.drop
  cases zst with
  | none =>
    by_cases h0 : e.del > 0
    · rw [← append_nil (rest ++ after)] at hhole
      obtain ⟨mem, hcopy, hgapped⟩ := hhole.move_back
      have hs := hgapped.sized (Or.inr rfl)
      rw [length_append, length_nil, Nat.add_zero, append_nil] at hs
      rw [if_pos h0, show e.idx - e.del = before.length by lia,
        show e.old_len - e.idx = (rest ++ after).length by rw [length_append]; lia, hidx]
      rw [hcopy, bind_ok, hlen]
      exact ⟨_, rfl, hs⟩
    · rw [if_neg h0, bind_ok, hlen]
      exact ⟨_, rfl, hhole.sized (Or.inl (by lia))⟩
  | some u =>
    obtain ⟨hhead, hfits⟩ := hhole
    simp only [wrap_copy_some, ite_self, bind_ok, hlen]
    refine ⟨_, rfl, by rw [length_append], ?_, hhead⟩
    simp only
    lia

end Extracting

/-- **Extraction**: after any number of calls of `next`, the answers are those of a predicate called
once on each element visited, in order, and dropping the iterator leaves the elements not selected,
as the predicate left them, and all that was not visited. -/
theorem extract_if_spec (hz : ∀ u, zst = some u → ∀ x, x = u) {d : VecDeque α} {l : List α}
    (h : Holds t zst d l) {start_bound end_bound : Bound ℕ} {i j : ℕ}
    (hrange : slice_range start_bound end_bound l.length = .ok (i, j))
    (pred : Pred σ α) (s : σ) (n : ℕ) :
    ∃ e marks answers exit e' rest d', d.extract_if start_bound end_bound s = .ok e ∧
      e.run t zst pred n = .ok ((answers, exit), e') ∧
      Extraction pred n s ((l.drop i).take (j - i)) marks answers exit e'.pred_state rest ∧
      e'.drop t zst = .ok d' ∧
      Holds t zst d' (l.take i ++ kept marks ++ (rest ++ l.drop j)) := by
  obtain ⟨hij, hj⟩ := slice_range_le hrange
  have hstart := Extracting.of_holds h hij hj s
  obtain ⟨marks, answers, exit, e', rest, hrun, hext, he'⟩ := hstart.run hz pred n
  obtain ⟨d', hd', hl⟩ := he'.drop
  refine ⟨_, marks, answers, exit, e', rest, d', ?_, hrun, hext, hd', hl⟩
  rw [extract_if, ← h.length, hrange, bind_ok, h.length]

/-- **Draining and extraction** from a range: both answer from the range alone and in its order, and
dropped at any point they leave the rest of the deque as it was. -/
theorem drain_and_extract_if (hz : ∀ u, zst = some u → ∀ x, x = u) {d : VecDeque α} {l : List α}
    (h : Holds t zst d l) {start_bound end_bound : Bound ℕ} {i j : ℕ}
    (hrange : slice_range start_bound end_bound l.length = .ok (i, j)) :
    (∀ calls needs_drop, ∃ s s' d', d.drain start_bound end_bound = .ok s ∧
      runM (Drain.step t zst) calls s = .ok (pops calls ((l.drop i).take (j - i)), s') ∧
      s'.drop t zst needs_drop =
        .ok (d', if needs_drop then left calls ((l.drop i).take (j - i)) else []) ∧
      Holds t zst d' (l.take i ++ l.drop j)) ∧
    ∀ (σ : Type) (pred : Pred σ α) (s : σ) (n : ℕ), ∃ e marks answers exit e' rest d',
      d.extract_if start_bound end_bound s = .ok e ∧
      e.run t zst pred n = .ok ((answers, exit), e') ∧
      Extraction pred n s ((l.drop i).take (j - i)) marks answers exit e'.pred_state rest ∧
      e'.drop t zst = .ok d' ∧
      Holds t zst d' (l.take i ++ kept marks ++ (rest ++ l.drop j)) :=
  ⟨fun calls needs_drop => drain_spec hz h hrange calls needs_drop,
    fun _ pred s n => extract_if_spec hz h hrange pred s n⟩

/-- Both on a deque that wraps around, with a predicate that counts its calls and panics at the
third. -/
theorem drain_and_extract_if_wrapped :
    (∃ s s' d', wrapped.drain (.Included 0) (.Included 0) = .ok s ∧
      runM (Drain.step ⟨3, false⟩ none) [.back, .front] s = .ok ([some 0, none], s') ∧
      s'.drop ⟨3, false⟩ none true = .ok (d', []) ∧ Holds ⟨3, false⟩ none d' [1]) ∧
    ∃ e marks answers exit e' rest d', wrapped.extract_if .Unbounded .Unbounded 0 = .ok e ∧
      e.run ⟨3, false⟩ none
        (fun s x => (s + 1, x, if s = 2 then none else some (x % 2 == 0))) 3 =
          .ok ((answers, exit), e') ∧
      Extraction (fun s x => (s + 1, x, if s = 2 then none else some (x % 2 == 0))) 3 0 [0, 1] marks
        answers exit e'.pred_state rest ∧
      e'.drop ⟨3, false⟩ none = .ok d' ∧
      Holds ⟨3, false⟩ none d' ([] ++ kept marks ++ (rest ++ [])) :=
  ⟨(drain_and_extract_if (by simp) wrapped_holds (i := 0) (j := 1) rfl).1 [.back, .front] true,
    (drain_and_extract_if (by simp) wrapped_holds (i := 0) (j := 2) rfl).2 ℕ _ 0 3⟩

end RustStd.VecDeque
