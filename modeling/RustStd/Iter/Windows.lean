import RustStd.Iter.MapWindows
import Mathlib.Algebra.Group.Nat.Defs
import Mathlib.Data.List.Infix

/-!
# What the closure of `MapWindows` sees

Along a run the adapter is `Unfilled`, then `Filled`, then at its end. While it is unfilled, every
call is another attempt to pull `N` items. If no attempt stops at a `None`, the windows are those of
the items pulled since the last attempt that unwound. An attempt that stops at a `None` leaves the
adapter as it was, so that the next call is an attempt again: the adapter is fused exactly when no
later attempt ends otherwise (`Retries`), which is read off the answers of the inner iterator
(`resumes_iff`).
-/

namespace RustStd.Iter

open MapWindowsInner

open List Exec
open Nat (succ succ_add succ_lt_succ zero_le not_lt_zero succ_sub_succ lt_succ_of_lt lt_succ_self)

variable {σ φ T R : Type}

/-! ## Logs -/

/-- The items pulled from the inner iterator. -/
@[simp] def pulled : List (Event T) → List T
  | [] => []
  | .pulled item :: l => item :: pulled l
  | .dropped _ :: l => pulled l
  | .called _ :: l => pulled l

/-- The items dropped. -/
@[simp] def dropped : List (Event T) → List T
  | [] => []
  | .pulled _ :: l => dropped l
  | .dropped item :: l => item :: dropped l
  | .called _ :: l => dropped l

/-- The windows that the closure was called with. -/
@[simp] def called : List (Event T) → List (List T)
  | [] => []
  | .pulled _ :: l => called l
  | .dropped _ :: l => called l
  | .called window :: l => window :: called l

section Logs

variable (l m : List (Event T)) (items : List T)

@[simp] theorem pulled_append : pulled (l ++ m) = pulled l ++ pulled m := by
  induction l with
  | nil => rfl
  | cons e l ih => cases e <;> simp [ih]

@[simp] theorem dropped_append : dropped (l ++ m) = dropped l ++ dropped m := by
  induction l with
  | nil => rfl
  | cons e l ih => cases e <;> simp [ih]

@[simp] theorem called_append : called (l ++ m) = called l ++ called m := by
  induction l with
  | nil => rfl
  | cons e l ih => cases e <;> simp [ih]

@[simp] theorem pulled_map_pulled : pulled (items.map .pulled) = items := by
  induction items with
  | nil => rfl
  | cons x xs ih => exact congrArg (x :: ·) ih

@[simp] theorem dropped_map_dropped : dropped (items.map .dropped) = items := by
  induction items with
  | nil => rfl
  | cons x xs ih => exact congrArg (x :: ·) ih

@[simp] theorem pulled_map_dropped : pulled (items.map .dropped) = [] := by
  induction items with
  | nil => rfl
  | cons x xs ih => exact ih

@[simp] theorem dropped_map_pulled : dropped (items.map .pulled) = [] := by
  induction items with
  | nil => rfl
  | cons x xs ih => exact ih

@[simp] theorem called_map_pulled : called (items.map .pulled) = [] := by
  induction items with
  | nil => rfl
  | cons x xs ih => exact ih

@[simp] theorem called_map_dropped : called (items.map .dropped) = [] := by
  induction items with
  | nil => rfl
  | cons x xs ih => exact ih

end Logs

/-- The log of a run. -/
def log (turns : List (Turn T R)) : List (Event T) := turns.flatMap Turn.log

/-- The items that an unwinding of the inner iterator left without a window: those pulled by the
calls that unwound before the closure was called. -/
def unwound (turns : List (Turn T R)) : List T :=
  turns.flatMap fun t => match t.outcome with
    | .panics => if (called t.log).isEmpty then pulled t.log else []
    | .returns _ => []

/-! ## Windows of a list -/

/-- The windows of `N` consecutive items. -/
def sliding (N : ℕ) (l : List T) : List (List T) :=
  (range (l.length + 1 - N)).map fun i => (l.drop i).take N

theorem getElem?_sliding {N : ℕ} {l w : List T} {i : ℕ} (h : (sliding N l)[i]? = some w) :
    w = (l.drop i).take N ∧ w.length = N := by
  rw [sliding, getElem?_map, Option.map_eq_some_iff] at h
  obtain ⟨j, hj, rfl⟩ := h
  obtain ⟨hlt, rfl⟩ := List.getElem?_eq_some_iff.mp hj
  rw [length_range] at hlt
  rw [getElem_range]
  refine ⟨rfl, ?_⟩
  rw [length_take, length_drop]
  lia

/-- One more item makes one more window. -/
theorem sliding_concat {N : ℕ} {l w : List T} {a x : T} (h : (a :: w) <:+ l)
    (hw : (a :: w).length = N) : sliding N (l ++ [x]) = sliding N l ++ [w ++ [x]] := by
  obtain ⟨k, rfl⟩ := h
  rw [length_cons] at hw
  have hlen : (k ++ a :: w).length = k.length + N := by
    rw [length_append, length_cons, hw]
  rw [sliding, sliding, length_append, length_singleton, hlen,
    show k.length + N + 1 + 1 - N = k.length + N + 1 - N + 1 by lia, range_succ,
    map_append, map_singleton, show k.length + N + 1 - N = k.length + 1 by lia]
  congr 1
  · refine map_congr_left fun i hi => ?_
    rw [mem_range] at hi
    rw [drop_append_of_le_length (by lia), take_append_of_le_length
      (by rw [length_drop]; lia)]
  · rw [append_assoc, ← drop_drop, drop_left, cons_append,
      drop_succ_cons, drop_zero, take_of_length_le]
    rw [length_append, length_singleton]
    lia

theorem sliding_self {N : ℕ} {w : List T} (h : w.length = N) : sliding N w = [w] := by
  rw [sliding, h, Nat.add_sub_cancel_left]
  simp [take_of_length_le h.le]

/-! ## The buffer -/

/-- The buffer has the window `w` in it. -/
structure Buffer.Keeps (N : ℕ) (b : Buffer T) (w : List T) : Prop where
  length_eq : b.buffer.length = 2 * N
  start_le : b.start ≤ N
  window : w.length = N
  holds : Holds b.buffer b.start w

namespace Buffer

variable {N : ℕ} {self : Buffer T} {w : List T}

theorem Keeps.as_array_ref (h : self.Keeps N w) : self.as_array_ref N = .ok w := by
  rw [Buffer.as_array_ref, ← h.window, readCells_eq h.holds]

theorem keeps_of_first_half (h : w.length = N) : (of_first_half N w).Keeps N w where
  length_eq := by
    rw [of_first_half, length_append, length_map, length_replicate, h]
    lia
  start_le := zero_le N
  window := h
  holds := by
    refine ⟨?_, fun i hi => ?_⟩
    · rw [of_first_half, length_append, length_map, length_replicate]
      dsimp only
      lia
    · rw [of_first_half, Nat.zero_add, getElem?_append_left (by rwa [length_map]),
        getElem?_map, getElem?_eq_getElem hi]
      rfl

/-- **`push`** moves the window by one item and drops the first one. -/
theorem push_spec {x : T} (h : self.Keeps N (x :: w)) (next : T) :
    ∃ self', self.push N next = .ok (self', x) ∧ self'.Keeps N (w ++ [next]) := by
  obtain ⟨hlen, hstart, hwindow, hholds⟩ := h
  rw [length_cons] at hwindow
  have hcons := holds_cons_iff.mp hholds
  rw [push]
  split
  · next hs =>
    obtain ⟨cells, hcopy, hlen', hcells, hrest⟩ := copyCells_spec hcons.2 0 (by lia)
    rw [show N - 1 = w.length by lia, hcopy, bind_ok, writeCell_eq (by lia), bind_ok]
    have hdrop : (cells.set w.length (some next))[self.start]? = some (some x) := by
      rw [getElem?_set_ne (by lia), hrest _ (by lia), hcons.1]
    rw [readCell_eq hdrop, bind_ok]
    refine ⟨_, rfl, ⟨by rw [length_set, hlen', hlen], zero_le N, ?_, ?_⟩⟩
    · rw [length_append, length_singleton]
      lia
    · rw [holds_concat_iff]
      refine ⟨hcells.set (.inr (by lia)) _, ?_⟩
      rw [Nat.zero_add, getElem?_set_self (by lia)]
  · next hs =>
    rw [writeCell_eq (by lia), bind_ok]
    have hdrop : (self.buffer.set (self.start + N) (some next))[self.start]? = some (some x) := by
      rw [getElem?_set_ne (by lia), hcons.1]
    rw [readCell_eq hdrop, bind_ok]
    refine ⟨_, rfl, ⟨by rw [length_set, hlen], by dsimp only; lia, ?_, ?_⟩⟩
    · rw [length_append, length_singleton]
      lia
    · rw [holds_concat_iff]
      refine ⟨hcons.2.set (.inr (by lia)) _, ?_⟩
      rw [show self.start + 1 + w.length = self.start + N by lia, getElem?_set_self (by lia)]

end Buffer

/-! ## Attempts to fill the buffer -/

/-- What pulling `n` items does to those that it got. -/
inductive Chunk (n : ℕ) (taken : List T) : Call (Option (List T)) → List (Event T) → Prop
  | full (got : List T) (h : got.length = n) :
      Chunk n taken (.returns (some (taken ++ got))) (got.map .pulled)
  | short (got : List T) (h : got.length < n) :
      Chunk n taken (.returns none) (got.map .pulled ++ (taken ++ got).map .dropped)
  | unwound (got : List T) (h : got.length < n) :
      Chunk n taken .panics (got.map .pulled ++ (taken ++ got).map .dropped)

theorem chunk (src : Source σ T) (n : ℕ) (taken : List T) (s : σ) :
    Chunk n taken (iter_next_chunk src n taken s).1 (iter_next_chunk src n taken s).2.2 := by
  induction n generalizing taken s with
  | zero => simpa [iter_next_chunk] using (.full [] rfl : Chunk 0 taken _ _)
  | succ n ih =>
    rw [iter_next_chunk]
    match src.next s with
    | (.panics, s') => simpa using (.unwound [] n.succ_pos : Chunk (n + 1) taken _ _)
    | (.returns none, s') => simpa using (.short [] n.succ_pos : Chunk (n + 1) taken _ _)
    | (.returns (some item), s') =>
      have h := ih (taken ++ [item]) s'
      dsimp only
      generalize iter_next_chunk src n (taken ++ [item]) s' = r at h ⊢
      obtain ⟨r, s'', evs⟩ := r
      cases h with
      | full got hgot =>
        simpa using (.full (item :: got) (congrArg succ hgot) : Chunk (n + 1) taken _ _)
      | short got hgot =>
        simpa using (.short (item :: got) (succ_lt_succ hgot) : Chunk (n + 1) taken _ _)
      | unwound got hgot =>
        simpa using (.unwound (item :: got) (succ_lt_succ hgot) : Chunk (n + 1) taken _ _)

/-- The iterator after some attempts to fill the buffer. -/
def attempts (src : Source σ T) (N : ℕ) (s : σ) : ℕ → σ
  | 0 => s
  | n + 1 => (iter_next_chunk src N [] (attempts src N s n)).2.1

/-- What the next attempt ends with. -/
def attempt (src : Source σ T) (N : ℕ) (s : σ) (n : ℕ) : Call (Option (List T)) :=
  (iter_next_chunk src N [] (attempts src N s n)).1

/-- The attempt stops at a `None`. -/
def Short (src : Source σ T) (N : ℕ) (s : σ) (n : ℕ) : Prop := attempt src N s n = .returns none

/-- The attempt fills the buffer. -/
def Full (src : Source σ T) (N : ℕ) (s : σ) (n : ℕ) : Prop :=
  ∃ w, attempt src N s n = .returns (some w)

/-- An attempt to fill the buffer stops at a `None`, and a later one ends otherwise. -/
def Retries (src : Source σ T) (N : ℕ) (s : σ) : Prop :=
  ∃ i j, i < j ∧ Short src N s i ∧ ¬ Short src N s j ∧ ∀ k < j, ¬ Full src N s k

/-- The inner iterator answers `None` before it has yielded `N` items in a row, and unwinds or
yields `N` items in a row later. -/
def Resumes (src : Source σ T) (N : ℕ) (s : σ) : Prop :=
  ∃ i j, i < j ∧ (∀ k ≤ i, src.row s k < N) ∧ src.answer s i = .returns none ∧
    (src.answer s j = .panics ∨ src.row s (j + 1) = N)

section Calls

variable {src : Source σ T} {N k a : ℕ} {s : σ}

/-- Behind `k` calls of the inner iterator the attempt `a` goes on. -/
structure Pulls (src : Source σ T) (N : ℕ) (s : σ) (k a : ℕ) : Prop where
  row_lt : ∀ l ≤ k, src.row s l < N
  not_full : ∀ b < a, ¬ Full src N s b
  rest : ∃ taken r s' log, iter_next_chunk src (N - src.row s k) taken (src.after s k) =
    (r, s', log) ∧ attempt src N s a = r ∧ attempts src N s (a + 1) = s'

/-- What the next call does to the attempt. -/
inductive Pulled (src : Source σ T) (N : ℕ) (s : σ) (k a : ℕ) : Prop
  | none : src.answer s k = .returns none → Short src N s a → Pulls src N s (k + 1) (a + 1) →
    Pulled src N s k a
  | panics : src.answer s k = .panics → attempt src N s a = .panics →
    Pulls src N s (k + 1) (a + 1) → Pulled src N s k a
  | last {x : T} : src.answer s k = .returns (some x) → src.row s (k + 1) = N → Full src N s a →
    Pulled src N s k a
  | item {x : T} : src.answer s k = .returns (some x) → Pulls src N s (k + 1) a →
    Pulled src N s k a

theorem Pulls.start (hrow : ∀ l ≤ k, src.row s l < N) (hfull : ∀ b < a, ¬ Full src N s b)
    (hzero : src.row s k = 0) (hat : attempts src N s a = src.after s k) : Pulls src N s k a := by
  refine ⟨hrow, hfull, [], _, _, _, rfl, ?_, ?_⟩
  · rw [attempt, hat, hzero, Nat.sub_zero]
  · rw [attempts, hat, hzero, Nat.sub_zero]

/-- Pulling once more keeps the windows in the order of the answers. -/
theorem Pulls.step (h : Pulls src N s k a) : Pulled src N s k a := by
  obtain ⟨hrow, hfull, taken, r, s', log, hchunk, hattempt, hattempts⟩ := h
  have hlt := hrow k le_rfl
  obtain ⟨m, hm⟩ : ∃ m, N - src.row s k = m + 1 := ⟨N - src.row s k - 1, by lia⟩
  -- An attempt that ends here without a window is followed by the next one.
  have hfail (hzero : src.row s (k + 1) = 0) (hnot : ¬ Full src N s a)
      (hat : attempts src N s (a + 1) = src.after s (k + 1)) : Pulls src N s (k + 1) (a + 1) := by
    refine .start (fun l hl => ?_) (fun b hb => ?_) hzero hat
    · rcases Nat.le_succ_iff.mp hl with hl | rfl
      · exact hrow l hl
      · exact hzero ▸ (zero_le _).trans_lt hlt
    · rcases Nat.lt_succ_iff_lt_or_eq.mp hb with hb | rfl
      · exact hfull b hb
      · exact hnot
  rw [hm, iter_next_chunk] at hchunk
  rcases hnext : src.next (src.after s k) with ⟨(_ | item) | _, s''⟩
  · have hanswer : src.answer s k = .returns none := congrArg Prod.fst hnext
    rw [hnext] at hchunk
    cases hchunk
    refine .none hanswer hattempt (hfail (by rw [Source.row, hanswer]) ?_ ?_)
    · rintro ⟨w, hw⟩
      cases hattempt.symm.trans hw
    · exact hattempts.trans (congrArg Prod.snd hnext).symm
  · have hanswer : src.answer s k = .returns (some item) := congrArg Prod.fst hnext
    have hrow' : src.row s (k + 1) = src.row s k + 1 := by rw [Source.row, hanswer]
    rw [hnext] at hchunk
    cases m with
    | zero =>
      cases hchunk
      exact .last hanswer (by lia) ⟨_, hattempt⟩
    | succ m =>
      refine .item hanswer ⟨fun l hl => ?_, hfull, taken ++ [item], ?_⟩
      · rcases Nat.le_succ_iff.mp hl with hl | rfl
        · exact hrow l hl
        · lia
      · have hafter : src.after s (k + 1) = s'' := congrArg Prod.snd hnext
        rw [show N - src.row s (k + 1) = m + 1 by lia, hafter]
        cases hchunk
        exact ⟨_, _, _, rfl, hattempt, hattempts⟩
  · have hanswer : src.answer s k = .panics := congrArg Prod.fst hnext
    rw [hnext] at hchunk
    cases hchunk
    refine .panics hanswer hattempt (hfail (by rw [Source.row, hanswer]) ?_ ?_)
    · rintro ⟨w, hw⟩
      cases hattempt.symm.trans hw
    · exact hattempts.trans (congrArg Prod.snd hnext).symm

/-- The call that an attempt ends with. -/
theorem Pulls.ends (h : Pulls src N s k a) : ∃ j ≥ k, (∀ l ≤ j, src.row s l < N) ∧
    (src.answer s j = .returns none ∧ Short src N s a ∧ Pulls src N s (j + 1) (a + 1) ∨
      src.answer s j = .panics ∧ attempt src N s a = .panics ∧ Pulls src N s (j + 1) (a + 1) ∨
      src.row s (j + 1) = N ∧ Full src N s a) := by
  induction hm : N - src.row s k using Nat.strong_induction_on generalizing k with
  | _ m ih =>
    cases h.step with
    | none hanswer hshort hnext => exact ⟨k, le_rfl, h.row_lt, .inl ⟨hanswer, hshort, hnext⟩⟩
    | panics hanswer hpanics hnext =>
      exact ⟨k, le_rfl, h.row_lt, .inr (.inl ⟨hanswer, hpanics, hnext⟩)⟩
    | last _ hrow hfull => exact ⟨k, le_rfl, h.row_lt, .inr (.inr ⟨hrow, hfull⟩)⟩
    | item hanswer hnext =>
      have hrow : src.row s (k + 1) = src.row s k + 1 := by rw [Source.row, hanswer]
      have hlt := hnext.row_lt (k + 1) le_rfl
      obtain ⟨j, hj, hend⟩ := ih _ (by lia) hnext rfl
      exact ⟨j, (Nat.le_succ k).trans hj, hend⟩

theorem Pulls.reach {b : ℕ} (h : Pulls src N s k a) (hle : a ≤ b)
    (hfull : ∀ c < b, ¬ Full src N s c) : ∃ l ≥ k, Pulls src N s l b := by
  induction b, hle using Nat.le_induction with
  | base => exact ⟨k, le_rfl, h⟩
  | succ b _ ih =>
    obtain ⟨l, hl, hb⟩ := ih fun c hc => hfull c (lt_succ_of_lt hc)
    obtain ⟨j, hj, -, ⟨-, -, hnext⟩ | ⟨-, -, hnext⟩ | ⟨-, hfilled⟩⟩ := hb.ends
    · exact ⟨j + 1, by lia, hnext⟩
    · exact ⟨j + 1, by lia, hnext⟩
    · exact absurd hfilled (hfull b (lt_succ_self b))

/-- The answers of the inner iterator and the attempts say the same. -/
theorem resumes_iff (hN : 0 < N) : Resumes src N s ↔ Retries src N s := by
  have h0 : Pulls src N s 0 0 := .start (fun l hl => by rwa [Nat.le_zero.mp hl])
    (fun b hb => absurd hb (not_lt_zero b)) rfl rfl
  constructor
  · rintro ⟨i, j, hij, hrow, hnone, hend⟩
    by_contra hno
    have hbefore : ∀ k ≤ i, ∃ a, Pulls src N s k a := by
      intro k
      induction k with
      | zero => exact fun _ => ⟨0, h0⟩
      | succ k ih =>
        intro hk
        obtain ⟨a, ha⟩ := ih (Nat.le_of_succ_le hk)
        cases ha.step with
        | none _ _ hnext | panics _ _ hnext => exact ⟨a + 1, hnext⟩
        | last _ hfilled _ => exact absurd hfilled (hrow _ hk).ne
        | item _ hnext => exact ⟨a, hnext⟩
    obtain ⟨a, ha⟩ := hbefore i le_rfl
    obtain ⟨hshort, hnext⟩ : Short src N s a ∧ Pulls src N s (i + 1) (a + 1) := by
      cases ha.step with
      | none _ hshort hnext => exact ⟨hshort, hnext⟩
      | panics hanswer | last hanswer | item hanswer => cases hnone.symm.trans hanswer
    -- Every later attempt stops at a `None`, so that no later call ends one otherwise.
    have hlater {k c : ℕ} (hac : a < c) (hc : Pulls src N s k c) : Short src N s c := by
      by_contra hne
      exact hno ⟨a, c, hac, hshort, hne, hc.not_full⟩
    have hafter : ∀ k, i < k → ∃ c, a < c ∧ Pulls src N s k c := by
      intro k hk
      induction k, hk using Nat.le_induction with
      | base => exact ⟨a + 1, lt_succ_self a, hnext⟩
      | succ k _ ih =>
        obtain ⟨c, hac, hc⟩ := ih
        cases hc.step with
        | none _ _ hnext | panics _ _ hnext => exact ⟨c + 1, lt_succ_of_lt hac, hnext⟩
        | last _ _ hfilled =>
          obtain ⟨w, hw⟩ := hfilled
          cases (hlater hac hc).symm.trans hw
        | item _ hnext => exact ⟨c, hac, hnext⟩
    rcases hend with hanswer | hfilled
    · obtain ⟨c, hac, hc⟩ := hafter j hij
      cases hc.step with
      | panics _ hpanics => cases (hlater hac hc).symm.trans hpanics
      | none h | last h | item h => cases hanswer.symm.trans h
    · obtain ⟨c, -, hc⟩ := hafter (j + 1) (lt_succ_of_lt hij)
      exact (hc.row_lt _ le_rfl).ne hfilled
  · rintro ⟨b, a, hba, hb, ha, hfull⟩
    obtain ⟨k, -, hk⟩ := h0.reach (zero_le b) fun c hc => hfull c (hc.trans hba)
    obtain ⟨i, -, hrow, ⟨hnone, -, hnext⟩ | ⟨-, hpanics, -⟩ | ⟨-, w, hw⟩⟩ := hk.ends
    · obtain ⟨l, hl, hlast⟩ := hnext.reach hba hfull
      obtain ⟨j, hj, -, ⟨-, hshort, -⟩ | ⟨hanswer, -⟩ | ⟨hfilled, -⟩⟩ := hlast.ends
      · exact absurd hshort ha
      · exact ⟨i, j, by lia, hrow, hnone, .inl hanswer⟩
      · exact ⟨i, j, by lia, hrow, hnone, .inr hfilled⟩
    · cases hb.symm.trans hpanics
    · cases hb.symm.trans hw

end Calls

/-! ## Phases -/

section Phases

variable {src : Source σ T} {N : ℕ} {s : σ} {turns rest : List (Turn T R)} {turn : Turn T R}
  {o usizeMax item_size : ℕ} {w : List T}

@[simp] theorem log_concat : log (turns ++ [turn]) = log turns ++ turn.log := by
  simp [log]

theorem unwound_concat_call (h : called turn.log ≠ []) :
    unwound (turns ++ [turn]) = unwound turns := by
  have : (called turn.log).isEmpty = false := by simpa using h
  rw [unwound, flatMap_append, flatMap_singleton, this]
  cases turn.outcome <;> exact append_nil _

theorem unwound_concat_returns {r : Option R} (h : turn.outcome = .returns r) :
    unwound (turns ++ [turn]) = unwound turns := by
  rw [unwound, flatMap_append, flatMap_singleton, h]
  exact append_nil _

theorem unwound_concat_panics (h : turn.outcome = .panics) (hcalled : called turn.log = []) :
    unwound (turns ++ [turn]) = unwound turns ++ pulled turn.log := by
  rw [unwound, flatMap_append, flatMap_singleton, h, hcalled]
  rfl

/-- The calls so far were attempts that failed. -/
structure Unfilled (src : Source σ T) (N : ℕ) (s : σ) (turns : List (Turn T R)) : Prop where
  not_full : ∀ k < turns.length, ¬ Full src N s k
  called_eq : ∀ t ∈ turns, called t.log = []
  accounted : dropped (log turns) = pulled (log turns)
  short : ∀ k t, turns[k]? = some t → Short src N s k → t.outcome = .returns none
  not_short : ∀ k t, turns[k]? = some t → ¬ Short src N s k → t.outcome = .panics

/-- The closure was called with the windows of the items from the `o`-th on, and the items not
dropped are the last ones, `w`. -/
structure Seen (N o : ℕ) (turns : List (Turn T R)) (w : List T) : Prop where
  called_eq : called (log turns) = sliding N ((pulled (log turns)).drop o)
  suffix : w <:+ (pulled (log turns)).drop o
  accounted : dropped (log turns) ++ w = pulled (log turns)

/-- What holds unless an attempt that stopped at a `None` was followed by one that did not. -/
def Clean (src : Source σ T) (N : ℕ) (s : σ) (o : ℕ) (turns all : List (Turn T R)) : Prop :=
  ¬ Retries src N s → o = (unwound all).length ∧ ∀ t ∈ turns, t.outcome ≠ .returns none

/-- The phases of a run. -/
inductive Phase (src : Source σ T) (N : ℕ) (s : σ) : List (Turn T R) → MapWindowsInner σ T → Prop
  | unfilled {turns : List (Turn T R)} (h : Unfilled src N s turns) :
      Phase src N s turns ⟨some (attempts src N s turns.length), none⟩
  | filled {turns : List (Turn T R)} {iter : σ} {b : Buffer T} {w : List T} {o : ℕ}
      (hb : b.Keeps N w) (h : Seen N o turns w) (hclean : Clean src N s o turns turns) :
      Phase src N s turns ⟨some iter, some b⟩
  | finished {turns rest : List (Turn T R)} {o : ℕ} (h : Seen N o (turns ++ rest) [])
      (hclean : Clean src N s o turns (turns ++ rest))
      (hrest : ∀ t ∈ rest, t.outcome = .returns none ∧ called t.log = []) :
      Phase src N s (turns ++ rest) ⟨none, none⟩

theorem called_log_eq_nil (h : ∀ t ∈ turns, called t.log = []) : called (log turns) = [] := by
  induction turns with
  | nil => rfl
  | cons t ts ih =>
    rw [log, flatMap_cons, called_append, h t mem_cons_self]
    exact ih fun u hu => h u (mem_cons_of_mem _ hu)

theorem getElem?_concat_cases {k : ℕ} {t : Turn T R} (h : (turns ++ [turn])[k]? = some t) :
    turns[k]? = some t ∨ k = turns.length ∧ t = turn := by
  rw [getElem?_append] at h
  split at h
  · exact .inl h
  · obtain ⟨hlt, rfl⟩ := List.getElem?_eq_some_iff.mp h
    rw [length_singleton] at hlt
    exact .inr ⟨by lia, getElem_singleton _⟩

/-- Without an attempt that stopped at a `None`, every attempt unwound. -/
theorem Unfilled.unwound_eq (h : Unfilled src N s turns)
    (hshort : ∀ k < turns.length, ¬ Short src N s k) :
    unwound turns = pulled (log turns) ∧ ∀ t ∈ turns, t.outcome = .panics := by
  have hout : ∀ t ∈ turns, t.outcome = .panics := by
    intro t ht
    obtain ⟨k, hk, rfl⟩ := mem_iff_getElem.mp ht
    exact h.not_short k _ (getElem?_eq_getElem hk) (hshort k hk)
  have hcalled := h.called_eq
  refine ⟨?_, hout⟩
  clear h hshort
  induction turns using reverseRecOn with
  | nil => rfl
  | append_singleton ts t ih =>
    rw [unwound_concat_panics (hout t (by simp)) (hcalled t (by simp)), log_concat, pulled_append,
      ih (fun u hu => hout u (by simp [hu])) fun u hu => hcalled u (by simp [hu])]

theorem Unfilled.concat (h : Unfilled src N s turns) (hfull : ¬ Full src N s turns.length)
    (hcalled : called turn.log = []) (hdropped : dropped turn.log = pulled turn.log)
    (hshort : Short src N s turns.length → turn.outcome = .returns none)
    (hunwound : ¬ Short src N s turns.length → turn.outcome = .panics) :
    Unfilled src N s (turns ++ [turn]) where
  not_full k hk := by
    rw [length_append, length_singleton] at hk
    rcases Nat.lt_succ_iff_lt_or_eq.mp hk with hk | rfl
    · exact h.not_full k hk
    · exact hfull
  called_eq t ht := by
    rcases mem_append.mp ht with ht | ht
    · exact h.called_eq t ht
    · rw [mem_singleton.mp ht, hcalled]
  accounted := by rw [log_concat, dropped_append, pulled_append, h.accounted, hdropped]
  short k t ht hk := by
    rcases getElem?_concat_cases ht with ht | ⟨rfl, rfl⟩
    · exact h.short k t ht hk
    · exact hshort hk
  not_short k t ht hk := by
    rcases getElem?_concat_cases ht with ht | ⟨rfl, rfl⟩
    · exact h.not_short k t ht hk
    · exact hunwound hk

/-! ## One call -/

/-- What a call of `next` makes of what `next_window` does. -/
inductive TurnOf : Call (Option (List T)) → List (Event T) → Turn T R → Prop
  | panics (log : List (Event T)) : TurnOf .panics log ⟨.panics, log⟩
  | none (log : List (Event T)) : TurnOf (.returns none) log ⟨.returns none, log⟩
  | window (w : List T) (log : List (Event T)) {outcome : Call (Option R)}
      (h : outcome ≠ .returns none) :
      TurnOf (.returns (some w)) log ⟨outcome, log ++ [.called w]⟩

variable (call : φ → List T → Call R × φ) (f : φ)

theorem next_eq {inner inner' : MapWindowsInner σ T} {r : Call (Option (List T))}
    {evs : List (Event T)} (h : inner.next_window src N = .ok (r, inner', evs)) :
    ∃ turn f', (⟨f, inner⟩ : MapWindows σ φ T).next src call N = .ok (turn, ⟨f', inner'⟩) ∧
      TurnOf r evs turn := by
  rw [MapWindows.next, h, bind_ok]
  match r with
  | .panics => exact ⟨_, f, rfl, .panics evs⟩
  | .returns none => exact ⟨_, f, rfl, .none evs⟩
  | .returns (some w) =>
    refine ⟨_, _, rfl, .window w evs ?_⟩
    cases (call f w).1 <;> simp

variable (src N s) in
/-- A call on the unfilled adapter is an attempt. -/
theorem next_window_unfilled (n : ℕ) :
    ∃ b, (∀ w, attempt src N s n = .returns (some w) → Buffer.Keeps N b w) ∧
      next_window src N ⟨some (attempts src N s n), none⟩ =
        .ok (attempt src N s n, ⟨some (attempts src N s (n + 1)), match attempt src N s n with
          | .returns (some _) => some b
          | _ => none⟩, (iter_next_chunk src N [] (attempts src N s n)).2.2) := by
  have hchunk := chunk src N [] (attempts src N s n)
  rw [attempts, attempt, next_window]
  dsimp only
  generalize iter_next_chunk src N [] (attempts src N s n) = r at hchunk ⊢
  obtain ⟨r, s', evs⟩ := r
  match r with
  | .panics => exact ⟨⟨[], 0⟩, nofun, rfl⟩
  | .returns none => exact ⟨⟨[], 0⟩, nofun, rfl⟩
  | .returns (some w) =>
    have hw : w.length = N := by
      cases hchunk with
      | full got h => exact h
    have hkeeps := Buffer.keeps_of_first_half hw
    refine ⟨Buffer.of_first_half N w, fun w' h => ?_, ?_⟩
    · cases h
      exact hkeeps
    · dsimp only
      rw [hkeeps.as_array_ref]
      rfl

/-- A call on the unfilled adapter whose attempt fails. -/
theorem unfilled_next_failed (h : Unfilled src N s turns) (hfull : ¬ Full src N s turns.length) :
    ∃ turn f', (⟨f, ⟨some (attempts src N s turns.length), none⟩⟩ : MapWindows σ φ T).next src
        call N = .ok (turn, ⟨f', ⟨some (attempts src N s (turns ++ [turn]).length), none⟩⟩) ∧
      Unfilled src N s (turns ++ [turn]) := by
  obtain ⟨b, -, hwindow⟩ := next_window_unfilled src N s turns.length
  obtain ⟨turn, f', hnext, hturn⟩ := next_eq call f hwindow
  have hchunk := chunk src N [] (attempts src N s turns.length)
  rw [← attempt] at hchunk
  rw [Full] at hfull
  refine ⟨turn, f', ?_, ?_⟩
  · rw [hnext, length_append, length_singleton]
    match hattempt : attempt src N s turns.length with
    | .panics => rfl
    | .returns none => rfl
    | .returns (some w) => exact absurd ⟨w, hattempt⟩ hfull
  clear hnext hwindow
  generalize (iter_next_chunk src N [] (attempts src N s turns.length)).2.2 = evs at hchunk hturn
  match hattempt : attempt src N s turns.length with
  | .panics =>
    rw [hattempt] at hchunk hturn
    cases hturn
    cases hchunk with
    | unwound got hgot =>
      refine h.concat hfull (by simp) (by simp) (fun hshort => ?_) fun _ => rfl
      exact absurd (hattempt.symm.trans hshort) nofun
  | .returns none =>
    rw [hattempt] at hchunk hturn
    cases hturn
    cases hchunk with
    | short got hgot =>
      exact h.concat hfull (by simp) (by simp) (fun _ => rfl) fun hno => absurd hattempt hno
  | .returns (some w) => exact absurd ⟨w, hattempt⟩ hfull

/-- A call on the unfilled adapter whose attempt fills the buffer. -/
theorem unfilled_next_full (h : Unfilled src N s turns)
    (hattempt : attempt src N s turns.length = .returns (some w)) :
    ∃ turn m, (⟨f, ⟨some (attempts src N s turns.length), none⟩⟩ : MapWindows σ φ T).next src call N
        = .ok (turn, m) ∧ turn.outcome ≠ .returns none ∧
      Phase src N s (turns ++ [turn]) m.inner := by
  obtain ⟨b, hb, hwindow⟩ := next_window_unfilled src N s turns.length
  obtain ⟨turn, f', hnext, hturn⟩ := next_eq call f hwindow
  have hchunk := chunk src N [] (attempts src N s turns.length)
  have hcalled := called_log_eq_nil h.called_eq
  have hkeeps := hb w hattempt
  rw [← attempt] at hchunk
  rw [hattempt] at hchunk hturn hnext
  clear hwindow
  generalize (iter_next_chunk src N [] (attempts src N s turns.length)).2.2 = evs at hchunk hturn
  cases hturn with
  | window _ _ houtcome =>
    cases hchunk with
    | full got hgot =>
      refine ⟨_, _, hnext, houtcome, ?_⟩
      refine .filled (o := (pulled (log turns)).length) hkeeps ⟨?_, ?_, ?_⟩ fun hclean => ?_
      · simp [hcalled, sliding_self hgot]
      · simp
      · simp [h.accounted]
      · have hshort : ∀ k < turns.length, ¬ Short src N s k := fun k hk hshort =>
          hclean ⟨k, turns.length, hk, hshort, fun hs => absurd (hattempt.symm.trans hs) nofun,
            h.not_full⟩
        obtain ⟨hunwound, hpanics⟩ := h.unwound_eq hshort
        refine ⟨?_, fun t ht => ?_⟩
        · rw [unwound_concat_call (by simp), hunwound]
        · rcases mem_append.mp ht with ht | ht
          · rw [hpanics t ht]
            exact nofun
          · rw [mem_singleton.mp ht]
            exact houtcome

variable (hN : 0 < N)
include hN

variable {iter : σ} {b : Buffer T}

/-- **A call on the filled adapter.** -/
theorem filled_next (hb : b.Keeps N w)
    (h : Seen N o turns w) (hclean : Clean src N s o turns turns) :
    ∃ turn m, (⟨f, ⟨some iter, some b⟩⟩ : MapWindows σ φ T).next src call N = .ok (turn, m) ∧
      Phase src N s (turns ++ [turn]) m.inner := by
  obtain ⟨hcalled, hsuffix, haccounted⟩ := h
  have hmem {t : Turn T R} (ht : t.outcome ≠ .returns none) (hc : ¬ Retries src N s) :
      ∀ u ∈ turns ++ [t], u.outcome ≠ .returns none := by
    intro u hu
    rcases mem_append.mp hu with hu | hu
    · exact (hclean hc).2 u hu
    · rw [mem_singleton.mp hu]
      exact ht
  match hsrc : src.next iter with
  | (.panics, iter') =>
    have hwindow : next_window src N ⟨some iter, some b⟩ =
        .ok (.panics, ⟨some iter', some b⟩, []) := by
      rw [next_window]
      simp only [hsrc]
    obtain ⟨turn, f', hnext, hturn⟩ := next_eq call f hwindow
    refine ⟨turn, _, hnext, ?_⟩
    cases hturn
    refine .filled (o := o) hb ⟨?_, ?_, ?_⟩ fun hc => ⟨?_, hmem nofun hc⟩
    · simpa using hcalled
    · simpa using hsuffix
    · simpa using haccounted
    · rw [unwound_concat_panics rfl rfl, (hclean hc).1]
      simp
  | (.returns none, iter') =>
    have hwindow : next_window src N ⟨some iter, some b⟩ =
        .ok (.returns none, ⟨none, none⟩, w.map .dropped) := by
      rw [next_window]
      simp only [hsrc, hb.as_array_ref]
      rfl
    obtain ⟨turn, f', hnext, hturn⟩ := next_eq call f hwindow
    refine ⟨turn, _, hnext, ?_⟩
    cases hturn
    refine .finished (o := o) ⟨?_, ?_, ?_⟩ (fun hc => ⟨?_, (hclean hc).2⟩) fun t ht => ?_
    · simpa using hcalled
    · exact nil_suffix
    · simpa using haccounted
    · rw [unwound_concat_returns rfl, (hclean hc).1]
    · rw [mem_singleton.mp ht]
      exact ⟨rfl, by simp⟩
  | (.returns (some item), iter') =>
    obtain ⟨a, w0, rfl⟩ := exists_cons_of_ne_nil (ne_nil_of_length_pos (hb.window.symm ▸ hN))
    obtain ⟨b', hpush, hb'⟩ := Buffer.push_spec hb item
    have hwindow : next_window src N ⟨some iter, some b⟩ =
        .ok (.returns (some (w0 ++ [item])), ⟨some iter', some b'⟩,
          [.pulled item, .dropped a]) := by
      rw [next_window]
      simp only [hsrc, hpush, bind_ok, hb'.as_array_ref]
      rfl
    obtain ⟨turn, f', hnext, hturn⟩ := next_eq call f hwindow
    refine ⟨turn, _, hnext, ?_⟩
    cases hturn with
    | window _ _ houtcome =>
      have ho : o ≤ (pulled (log turns)).length := by
        have := hsuffix.length_le
        rw [length_drop, length_cons] at this
        lia
      have hpulled : (pulled (log turns) ++ [item]).drop o =
          (pulled (log turns)).drop o ++ [item] := drop_append_of_le_length ho
      refine .filled (o := o) hb' ⟨?_, ?_, ?_⟩ fun hc => ⟨?_, hmem houtcome hc⟩
      · have := sliding_concat (x := item) hsuffix hb.window
        simpa [hcalled, hpulled] using this.symm
      · obtain ⟨k, hk⟩ := hsuffix
        refine ⟨k ++ [a], ?_⟩
        simp [hpulled, ← hk]
      · simp [← haccounted]
      · rw [unwound_concat_call (by simp), (hclean hc).1]

/-- **One call** takes every phase to a phase. -/
theorem phase_next {m : MapWindows σ φ T} (h : Phase src N s turns m.inner) :
    ∃ turn m', m.next src call N = .ok (turn, m') ∧ Phase src N s (turns ++ [turn]) m'.inner := by
  obtain ⟨f, inner⟩ := m
  cases h with
  | @unfilled turns h =>
    by_cases hfull : Full src N s turns.length
    · obtain ⟨w, hw⟩ := hfull
      obtain ⟨turn, m', hnext, -, hphase⟩ := unfilled_next_full call f h hw
      exact ⟨turn, m', hnext, hphase⟩
    · obtain ⟨turn, f', hnext, hunfilled⟩ := unfilled_next_failed call f h hfull
      exact ⟨turn, _, hnext, .unfilled hunfilled⟩
  | filled hb h hclean => exact filled_next call f hN hb h hclean
  | @finished turns rest o h hclean hrest =>
    obtain ⟨turn, f', hnext, hturn⟩ := next_eq call f
      (show next_window src N ⟨none, none⟩ = .ok (.returns none, ⟨none, none⟩, []) from rfl)
    refine ⟨turn, _, hnext, ?_⟩
    cases hturn
    obtain ⟨hcalled, hsuffix, haccounted⟩ := h
    have hlog : log (turns ++ (rest ++ [⟨.returns none, []⟩])) = log (turns ++ rest) := by
      rw [← append_assoc, log_concat, append_nil]
    rw [append_assoc]
    refine .finished (o := o) ?_ ?_ fun t ht => ?_
    · exact ⟨by rw [hlog, hcalled], nil_suffix, by rw [hlog, haccounted]⟩
    · intro hc
      rw [← append_assoc, unwound_concat_returns rfl]
      exact hclean hc
    · rcases mem_append.mp ht with ht | ht
      · exact hrest t ht
      · rw [mem_singleton.mp ht]
        exact ⟨rfl, rfl⟩

omit hN in
theorem new_eq (hN : 0 < N) (hsize : item_size = 0 → N * 2 ≤ usizeMax) :
    MapWindows.new usizeMax item_size N s f =
      .ok (⟨f, .new s⟩ : MapWindows σ φ T) := by
  rw [MapWindows.new, if_neg hN.ne', if_neg fun h => (hsize h.1).not_gt h.2]

/-- **Every run** is in a phase. -/
theorem run_phase (hsize : item_size = 0 → N * 2 ≤ usizeMax) (n : ℕ) :
    ∃ (turns : List (Turn T R)) (m : MapWindows σ φ T),
      MapWindows.run usizeMax item_size src call N s f n = .ok (turns, m) ∧ turns.length = n ∧
        Phase src N s turns m.inner := by
  induction n with
  | zero =>
    refine ⟨[], ⟨f, .new s⟩, ?_, rfl, .unfilled ⟨?_, ?_, rfl, ?_, ?_⟩⟩
    · rw [MapWindows.run, new_eq f hN hsize]
      rfl
    · exact fun k hk => absurd hk (not_lt_zero k)
    · exact fun t ht => absurd ht not_mem_nil
    · exact fun k t ht => absurd ht (by simp)
    · exact fun k t ht => absurd ht (by simp)
  | succ n ih =>
    obtain ⟨turns, m, hrun, hlen, hphase⟩ := ih
    obtain ⟨turn, m', hnext, hphase'⟩ := phase_next call hN hphase
    refine ⟨turns ++ [turn], m', ?_, by rw [length_append, hlen]; rfl, hphase'⟩
    rw [MapWindows.run, hrun, bind_ok]
    dsimp only
    rw [hnext]
    rfl

/-! ## Size hints -/

/-- The windows of the adapter, as items. -/
def windowStep (src : Source σ T) (N : ℕ) (self : MapWindowsInner σ T) :
    Exec (Call (Option (List T)) × MapWindowsInner σ T) := do
  let (window, self, _) ← self.next_window src N
  return (window, self)

theorem filled_windowStep {iter' : σ} {x : T}
    (hb : b.Keeps N w) (h : src.next iter = (.returns (some x), iter')) :
    ∃ b' w', b'.Keeps N w' ∧
      windowStep src N ⟨some iter, some b⟩ = .ok (.returns (some w'), ⟨some iter', some b'⟩) := by
  obtain ⟨a, w0, rfl⟩ := exists_cons_of_ne_nil (ne_nil_of_length_pos (hb.window.symm ▸ hN))
  obtain ⟨b', hpush, hb'⟩ := Buffer.push_spec hb x
  refine ⟨b', _, hb', ?_⟩
  rw [windowStep, next_window]
  simp only [h, hpush, bind_ok, hb'.as_array_ref]
  rfl

/-- On the filled adapter a window comes with every item. -/
theorem filled_atLeast {n : ℕ} (h : AtLeast src.step n iter)
    {w : List T} (hb : b.Keeps N w) :
    AtLeast (windowStep src N) n ⟨some iter, some b⟩ := by
  induction h generalizing b w with
  | zero => exact .zero _
  | item hstep _ ih =>
    obtain ⟨b', w', hb', hwindow⟩ := filled_windowStep hN hb (Except.ok.inj hstep)
    exact .item hwindow (ih hb')

theorem filled_atMost {n : ℕ} (h : AtMost src.step n iter)
    {w : List T} (hb : b.Keeps N w) :
    AtMost (windowStep src N) n ⟨some iter, some b⟩ := by
  induction h generalizing b w with
  | @stop iter iter' n hstep =>
    have hsrc := Except.ok.inj hstep
    have hwindow : windowStep src N ⟨some iter, some b⟩ = .ok (.returns none, ⟨none, none⟩) := by
      rw [windowStep, next_window]
      simp only [hsrc, hb.as_array_ref]
      rfl
    exact .stop hwindow
  | @unwind iter iter' n hstep =>
    have hsrc := Except.ok.inj hstep
    have hwindow : windowStep src N ⟨some iter, some b⟩ = .ok (.panics, ⟨some iter', some b⟩) := by
      rw [windowStep, next_window]
      simp only [hsrc]
      rfl
    exact .unwind hwindow
  | item hstep _ ih =>
    obtain ⟨b', w', hb', hwindow⟩ := filled_windowStep hN hb (Except.ok.inj hstep)
    exact .item hwindow (ih hb')

omit hN

/-- Enough items fill a chunk, and the rest still come. -/
theorem chunk_atLeast {n k : ℕ} (h : AtLeast src.step (n + k) iter) (taken : List T) :
    ∃ got iter' evs, iter_next_chunk src n taken iter = (.returns (some got), iter', evs) ∧
      AtLeast src.step k iter' := by
  induction n generalizing iter taken with
  | zero =>
    rw [Nat.zero_add] at h
    exact ⟨taken, iter, [], rfl, h⟩
  | succ n ih =>
    rw [succ_add] at h
    cases h with
    | @item _ iter' x _ hstep h =>
      obtain ⟨got, iter'', evs, hchunk, hrest⟩ := ih h (taken ++ [x])
      refine ⟨got, iter'', .pulled x :: evs, ?_, hrest⟩
      rw [iter_next_chunk, Except.ok.inj hstep]
      simp only [hchunk]

/-- A chunk that is filled takes its items off the bound. -/
theorem chunk_atMost {n k : ℕ} {iter' : σ} {taken got : List T} {evs : List (Event T)}
    (h : AtMost src.step k iter)
    (hchunk : iter_next_chunk src n taken iter = (.returns (some got), iter', evs)) :
    n ≤ k ∧ AtMost src.step (k - n) iter' := by
  induction n generalizing k iter taken evs with
  | zero =>
    rw [iter_next_chunk] at hchunk
    cases hchunk
    exact ⟨zero_le k, h⟩
  | succ n ih =>
    rw [iter_next_chunk] at hchunk
    cases h with
    | stop hstep | unwind hstep =>
      rw [Except.ok.inj hstep] at hchunk
      cases hchunk
    | @item _ s' x k hstep h =>
      rw [Except.ok.inj hstep] at hchunk
      dsimp only at hchunk
      match hrec : iter_next_chunk src n (taken ++ [x]) s' with
      | (r, s'', evs') =>
        rw [hrec] at hchunk
        cases hchunk
        obtain ⟨hle, hrest⟩ := ih h hrec
        exact ⟨by lia, by rwa [succ_sub_succ]⟩

variable (src N s) in
/-- The windows of an adapter that is not filled yet. -/
theorem unfilled_windowStep (n : ℕ) :
    ∃ b, (∀ w, attempt src N s n = .returns (some w) → Buffer.Keeps N b w) ∧
      windowStep src N ⟨some (attempts src N s n), none⟩ =
        .ok (attempt src N s n, ⟨some (attempts src N s (n + 1)), match attempt src N s n with
          | .returns (some _) => some b
          | _ => none⟩) := by
  obtain ⟨b, hb, hwindow⟩ := next_window_unfilled src N s n
  refine ⟨b, hb, ?_⟩
  rw [windowStep, hwindow]
  rfl

theorem unfilled_atLeast (hN : 0 < N) {n k : ℕ} (h : AtLeast src.step k (attempts src N s n)) :
    AtLeast (windowStep src N) (k - (N - 1)) ⟨some (attempts src N s n), none⟩ := by
  by_cases hk : k ≤ N - 1
  · rw [Nat.sub_eq_zero_of_le hk]
    exact .zero _
  obtain ⟨j, rfl⟩ : ∃ j, k = N + j := ⟨k - N, by lia⟩
  obtain ⟨got, iter', evs, hchunk, hrest⟩ := chunk_atLeast h []
  obtain ⟨b, hb, hwindow⟩ := unfilled_windowStep src N s n
  have hattempt : attempt src N s n = .returns (some got) := by rw [attempt, hchunk]
  have hiter : attempts src N s (n + 1) = iter' := by rw [attempts, hchunk]
  rw [hattempt, hiter] at hwindow
  rw [show N + j - (N - 1) = j + 1 by lia]
  exact .item hwindow (filled_atLeast hN hrest (hb got hattempt))

theorem unfilled_atMost (hN : 0 < N) {n k : ℕ} (h : AtMost src.step k (attempts src N s n)) :
    AtMost (windowStep src N) (k - (N - 1)) ⟨some (attempts src N s n), none⟩ := by
  obtain ⟨b, hb, hwindow⟩ := unfilled_windowStep src N s n
  cases hattempt : attempt src N s n with
  | panics =>
    rw [hattempt] at hwindow
    exact .unwind hwindow
  | returns r =>
    rw [hattempt] at hwindow
    cases r with
    | none => exact .stop hwindow
    | some got =>
      have hchunk : iter_next_chunk src N [] (attempts src N s n) =
          (.returns (some got), attempts src N s (n + 1), _) :=
        Prod.ext hattempt rfl
      obtain ⟨hle, hrest⟩ := chunk_atMost h hchunk
      rw [show k - (N - 1) = k - N + 1 by lia]
      exact .item hwindow (filled_atMost hN hrest (hb got hattempt))

/-- **Size hints.** A valid hint of the inner iterator makes a valid one. -/
theorem hint_valid (hN : 0 < N) {inner : MapWindowsInner σ T} (h : Phase src N s turns inner)
    (hvalid : ∀ iter, inner.iter = some iter → HintValid src.step (src.size_hint iter) iter) :
    HintValid (windowStep src N) (inner.size_hint src N) inner := by
  cases h with
  | unfilled h =>
    obtain ⟨hlo, hhi⟩ := hvalid _ rfl
    refine ⟨unfilled_atLeast hN hlo, fun hi hsome => ?_⟩
    obtain ⟨k, hk, rfl⟩ := Option.map_eq_some_iff.mp hsome
    exact unfilled_atMost hN (hhi k hk)
  | filled hb h hclean =>
    obtain ⟨hlo, hhi⟩ := hvalid _ rfl
    exact ⟨filled_atLeast hN hlo hb, fun hi hsome => filled_atMost hN (hhi hi hsome) hb⟩
  | finished h hclean hrest =>
    have hwindow : windowStep src N ⟨none, none⟩ = .ok (.returns none, ⟨none, none⟩) := rfl
    exact ⟨.zero _, fun hi _ => .stop hwindow⟩

/-! ## Runs -/

/-- What is promised of a run. The `i`-th call of the closure sees the `i`-th window of the items
pulled, where the items of an attempt that unwound do not count. A `None` is final. The size hint is
valid when the one of the inner iterator is. The buffer has the items not dropped yet, and when the
adapter is dropped, every item pulled was dropped once. -/
structure Faithful (src : Source σ T) (N : ℕ) (turns : List (Turn T R))
    (m : MapWindows σ φ T) : Prop where
  windows : ∀ (i : ℕ) (w : List T), (called (log turns))[i]? = some w →
    w = ((pulled (log turns)).drop ((unwound turns).length + i)).take N ∧ w.length = N
  fused : ∀ (i j : ℕ) (t u : Turn T R), i < j → turns[i]? = some t → t.outcome = .returns none →
    turns[j]? = some u → u.outcome = .returns none ∧ called u.log = []
  hint : (∀ iter, m.inner.iter = some iter → HintValid src.step (src.size_hint iter) iter) →
    HintValid (windowStep src N) (m.inner.size_hint src N) m.inner
  ring : ∀ b, m.inner.buffer = some b →
    ∃ w, b.Keeps N w ∧ dropped (log turns) ++ w = pulled (log turns)
  drops : ∃ evs, m.inner.drop N = .ok evs ∧ dropped (log turns ++ evs) = pulled (log turns ++ evs)

theorem Seen.windows (h : Seen N o turns w) (i : ℕ) {v : List T}
    (hv : (called (log turns))[i]? = some v) :
    v = ((pulled (log turns)).drop (o + i)).take N ∧ v.length = N := by
  rw [h.called_eq] at hv
  rw [← drop_drop]
  exact getElem?_sliding hv

/-- An attempt that stopped at a `None` is followed by such attempts only. -/
theorem Unfilled.fused (h : Unfilled src N s turns) (hclean : ¬ Retries src N s) {i j : ℕ}
    {t u : Turn T R} (hij : i < j) (ht : turns[i]? = some t) (hnone : t.outcome = .returns none)
    (hu : turns[j]? = some u) : u.outcome = .returns none ∧ called u.log = [] := by
  have hj := (List.getElem?_eq_some_iff.mp hu).1
  have hi : Short src N s i := by
    by_contra hno
    rw [h.not_short i t ht hno] at hnone
    cases hnone
  have hshort : Short src N s j := by
    by_contra hno
    exact hclean ⟨i, j, hij, hi, hno, fun k hk => h.not_full k (hk.trans hj)⟩
  exact ⟨h.short j u hu hshort, h.called_eq u (mem_of_getElem? hu)⟩

theorem Phase.faithful (hN : 0 < N) {m : MapWindows σ φ T} (h : Phase src N s turns m.inner)
    (hclean : ¬ Retries src N s) : Faithful src N turns m := by
  have hhint := hint_valid hN h
  obtain ⟨f, inner⟩ := m
  cases h with
  | unfilled h =>
    refine ⟨fun i w hw => ?_, fun i j t u hij ht hnone hu => h.fused hclean hij ht hnone hu, hhint,
      nofun, ⟨[], rfl, by simpa using h.accounted⟩⟩
    rw [called_log_eq_nil h.called_eq] at hw
    cases hw
  | @filled _ _ b w _ hb h hc =>
    obtain ⟨ho, hnone⟩ := hc hclean
    refine ⟨fun i w hw => ?_, fun i j t u hij ht houtcome hu => ?_, hhint, fun b hbuf => ?_, ?_⟩
    · rw [← ho]
      exact h.windows i hw
    · exact absurd houtcome (hnone t (mem_of_getElem? ht))
    · cases hbuf
      exact ⟨_, hb, h.accounted⟩
    · refine ⟨w.map .dropped, ?_, ?_⟩
      · rw [MapWindowsInner.drop]
        dsimp only
        rw [hb.as_array_ref, bind_ok]
        rfl
      · simpa using h.accounted
  | @finished turns rest o h hc hrest =>
    obtain ⟨ho, hnone⟩ := hc hclean
    refine ⟨fun i w hw => ?_, fun i j t u hij ht houtcome hu => ?_, hhint, nofun,
      ⟨[], rfl, by simpa using h.accounted⟩⟩
    · rw [← ho]
      exact h.windows i hw
    · rw [getElem?_append] at ht hu
      split at ht
      · exact absurd houtcome (hnone t (mem_of_getElem? ht))
      · rw [if_neg (by lia)] at hu
        exact hrest u (mem_of_getElem? hu)

/-- While no attempt fills the buffer, the adapter stays unfilled. -/
theorem run_unfilled (hN : 0 < N) (hsize : item_size = 0 → N * 2 ≤ usizeMax) (n : ℕ)
    (hfull : ∀ k < n, ¬ Full src N s k) :
    ∃ (turns : List (Turn T R)) (f' : φ), MapWindows.run usizeMax item_size src call N s f n =
        .ok (turns, ⟨f', ⟨some (attempts src N s turns.length), none⟩⟩) ∧ turns.length = n ∧
      Unfilled src N s turns := by
  induction n with
  | zero =>
    refine ⟨[], f, ?_, rfl, ⟨fun k hk => absurd hk (not_lt_zero k), fun t ht => ?_, rfl,
      fun k t ht => ?_, fun k t ht => ?_⟩⟩
    · rw [MapWindows.run, new_eq f hN hsize]
      rfl
    · exact absurd ht not_mem_nil
    · exact absurd ht (by simp)
    · exact absurd ht (by simp)
  | succ n ih =>
    obtain ⟨turns, f', hrun, rfl, hunfilled⟩ := ih fun k hk => hfull k (lt_succ_of_lt hk)
    obtain ⟨turn, f'', hnext, hunfilled'⟩ := unfilled_next_failed call f' hunfilled
      (hfull turns.length (lt_succ_self _))
    refine ⟨turns ++ [turn], f'', ?_, by simp, hunfilled'⟩
    rw [MapWindows.run, hrun, bind_ok]
    dsimp only
    rw [hnext]
    rfl

/-- When an attempt that stopped at a `None` is followed by one that ends otherwise, the adapter is
not fused. -/
theorem not_faithful (hN : 0 < N) (hsize : item_size = 0 → N * 2 ≤ usizeMax)
    (h : Retries src N s) : ∃ n, ∀ turns m,
    MapWindows.run usizeMax item_size src call N s f n = .ok (turns, m) →
      ¬ Faithful (R := R) src N turns m := by
  obtain ⟨i, j, hij, hi, hj, hfull⟩ := h
  obtain ⟨turns, f', hrun, rfl, hunfilled⟩ := run_unfilled call f hN hsize j hfull
  have hlast : ∃ turn m, (⟨f', ⟨some (attempts src N s turns.length), none⟩⟩ :
      MapWindows σ φ T).next src call N = .ok (turn, m) ∧ turn.outcome ≠ .returns none := by
    by_cases hw : Full src N s turns.length
    · obtain ⟨w, hw⟩ := hw
      obtain ⟨turn, m, hnext, hne, -⟩ := unfilled_next_full call f' hunfilled hw
      exact ⟨turn, m, hnext, hne⟩
    · obtain ⟨turn, f'', hnext, hunfilled'⟩ := unfilled_next_failed call f' hunfilled hw
      refine ⟨turn, _, hnext, ?_⟩
      rw [hunfilled'.not_short turns.length turn (by simp) hj]
      exact nofun
  obtain ⟨turn, m, hnext, hne⟩ := hlast
  refine ⟨turns.length + 1, fun turns' m' hrun' hfaithful => ?_⟩
  rw [MapWindows.run, hrun, bind_ok] at hrun'
  dsimp only at hrun'
  rw [hnext] at hrun'
  cases hrun'
  have hti := getElem?_eq_getElem hij
  have hnone := hunfilled.short i _ hti hi
  refine hne (hfaithful.fused i turns.length _ turn hij ?_ hnone ?_).1
  · rw [getElem?_append_left hij]
    exact hti
  · exact getElem?_concat_length

end Phases

/-- **`MapWindows`** keeps its promises for the inner iterators that, once they have answered `None`
before they yielded `N` items in a row, neither unwind nor yield `N` items in a row, unless the
array of items without a size is too long. -/
theorem map_windows_iff (usizeMax item_size : ℕ) (src : Source σ T) (N : ℕ) (hN : 0 < N) (s : σ) :
    (∀ (φ R : Type) (call : φ → List T → Call R × φ) (f : φ) (n : ℕ), ∃ turns m,
      MapWindows.run usizeMax item_size src call N s f n = .ok (turns, m) ∧ turns.length = n ∧
        Faithful src N turns m) ↔ (item_size = 0 → N * 2 ≤ usizeMax) ∧ ¬ Resumes src N s := by
  rw [resumes_iff hN]
  constructor
  · intro h
    have hsize : item_size = 0 → N * 2 ≤ usizeMax := by
      intro hzero
      by_contra hlong
      obtain ⟨turns, m, hrun, -⟩ := h Unit Unit (fun f _ => (.returns (), f)) () 0
      rw [MapWindows.run, MapWindows.new, if_neg hN.ne', if_pos ⟨hzero, not_le.mp hlong⟩] at hrun
      cases hrun
    refine ⟨hsize, fun hretries => ?_⟩
    obtain ⟨n, hn⟩ :=
      not_faithful (R := Unit) (fun (f : Unit) _ => (.returns (), f)) () hN hsize hretries
    obtain ⟨turns, m, hrun, -, hfaithful⟩ := h Unit Unit (fun f _ => (.returns (), f)) () n
    exact hn turns m hrun hfaithful
  · rintro ⟨hsize, hclean⟩ φ R call f n
    obtain ⟨turns, m, hrun, hlen, hphase⟩ := run_phase call f hN hsize n
    exact ⟨turns, m, hrun, hlen, hphase.faithful hN hclean⟩

/-- An iterator that yields the answers of a list. -/
def answers (T : Type) : Source (List (Option T)) T where
  next l := (.returns l.head?.join, l.tail)
  size_hint _ := (0, none)

/-- The windows of a list. -/
theorem map_windows_iff_list :
    (∀ (φ R : Type) (call : φ → List ℕ → Call R × φ) (f : φ) (n : ℕ), ∃ turns m,
      MapWindows.run (2 ^ 64 - 1) 8 (answers ℕ) call 2 [some 0, some 1, some 2] f n =
        .ok (turns, m) ∧ turns.length = n ∧ Faithful (answers ℕ) 2 turns m) ↔
      (8 = 0 → 2 * 2 ≤ 2 ^ 64 - 1) ∧ ¬ Resumes (answers ℕ) 2 [some 0, some 1, some 2] :=
  map_windows_iff (2 ^ 64 - 1) 8 (answers ℕ) 2 (by decide) _

/-- **Not fused.** After one item and a `None`, two more items make a window. -/
theorem not_faithful_resumed :
    ¬ ∀ (φ R : Type) (call : φ → List ℕ → Call R × φ) (f : φ) (n : ℕ), ∃ turns m,
      MapWindows.run (2 ^ 64 - 1) 8 (answers ℕ) call 2 [some 0, none, some 1, some 2] f n =
        .ok (turns, m) ∧ turns.length = n ∧ Faithful (answers ℕ) 2 turns m := by
  intro h
  obtain ⟨turns, m, hrun, -, hfaithful⟩ := h Unit Unit (fun f _ => (.returns (), f)) () 2
  cases hrun
  have := (hfaithful.fused 0 1 _ _ (by decide) rfl rfl rfl).1
  cases this

end RustStd.Iter
