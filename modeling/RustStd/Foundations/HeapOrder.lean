import Mathlib.Tactic.Linarith

/-!
# Binary heap order with a hole

The order part of binary heaps, on sequences `f : ℕ → α` of a preorder of which the first `n`
entries count. `HeapOrdered f lo n` says that every entry whose parent is at `lo` or later is at
most its parent. While an element is sifted, its position `p` is a hole: `HoleAt f lo n p` asks for
the pairs that do not touch `p`, and that `p`'s children are at most `p`'s parent. Exchanging the
hole with its greater child (`HoleAt.down`) or with its parent (`HoleAt.up`) keeps this, and a hole
in order with its neighbours is none (`HoleAt.heapOrdered`).
-/

namespace RustStd.HeapOrder

variable {α : Type*}

/-- The parent of a position other than 0. -/
def parent (j : ℕ) : ℕ := (j - 1) / 2

/-- Exchange two entries. -/
def exchange (f : ℕ → α) (i j : ℕ) : ℕ → α := fun k =>
  if k = i then f j else if k = j then f i else f k

theorem exchange_left (f : ℕ → α) (i j : ℕ) : exchange f i j i = f j := if_pos rfl

theorem exchange_right (f : ℕ → α) {i j : ℕ} (h : j ≠ i) : exchange f i j j = f i := by
  rw [exchange, if_neg h, if_pos rfl]

theorem exchange_of_ne (f : ℕ → α) {i j k : ℕ} (hi : k ≠ i) (hj : k ≠ j) :
    exchange f i j k = f k := by
  rw [exchange, if_neg hi, if_neg hj]

theorem parent_lt {j : ℕ} (h : 0 < j) : parent j < j := by
  unfold parent
  lia

variable [Preorder α] {f : ℕ → α}

/-- Every entry below `n` whose parent is at `lo` or later is at most its parent. -/
def HeapOrdered (f : ℕ → α) (lo n : ℕ) : Prop :=
  ∀ j, j < n → 0 < j → lo ≤ parent j → f j ≤ f (parent j)

/-- The order off a hole at `p`. -/
structure HoleAt (f : ℕ → α) (lo n p : ℕ) : Prop where
  off : ∀ j, j < n → 0 < j → lo ≤ parent j → j ≠ p → parent j ≠ p → f j ≤ f (parent j)
  across : ∀ j, j < n → 0 < j → parent j = p → 0 < p → lo ≤ parent p → f j ≤ f (parent p)

/-- The children of `p` are at most the entry at `p`. -/
def AboveChildren (f : ℕ → α) (n p : ℕ) : Prop := ∀ j, j < n → 0 < j → parent j = p → f j ≤ f p

/-- The entry at `p` is at most its parent. -/
def BelowParent (f : ℕ → α) (lo p : ℕ) : Prop := 0 < p → lo ≤ parent p → f p ≤ f (parent p)

variable {n : ℕ} {lo : ℕ}

theorem HeapOrdered.mono {lo' n' : ℕ} (h : HeapOrdered f lo n) (hlo : lo ≤ lo')
    (hn : n' ≤ n) : HeapOrdered f lo' n' :=
  fun j hj h0 hp => h j (by lia) h0 (by lia)

theorem HeapOrdered.congr {f g : ℕ → α} (h : HeapOrdered f lo n)
    (hfg : ∀ j < n, g j = f j) : HeapOrdered g lo n := by
  intro j hj h0 hp
  have := parent_lt h0
  rw [hfg j hj, hfg (parent j) (by lia)]
  exact h j hj h0 hp

/-- Nothing is ordered below a start past the last parent. -/
theorem heapOrdered_half (f : ℕ → α) (n : ℕ) : HeapOrdered f (n / 2) n := by
  intro j hj h0 hp
  unfold parent at hp
  lia

/-- The root of a heap is a greatest entry. -/
theorem HeapOrdered.le_root (h : HeapOrdered f 0 n) (j : ℕ) (hj : j < n) : f j ≤ f 0 := by
  induction j using Nat.strongRecOn with
  | ind j ih =>
    rcases Nat.eq_zero_or_pos j with rfl | h0
    · exact le_rfl
    · have hlt := parent_lt h0
      exact (h j hj h0 (Nat.zero_le _)).trans (ih _ hlt (by lia))

/-! ## Making a hole, and filling it -/

/-- Any entry at all may stand at the first position of the part not yet in order. -/
theorem HeapOrdered.holeAt_succ (h : HeapOrdered f (lo + 1) n) : HoleAt f lo n lo where
  off j hj h0 hp _ hne := h j hj h0 (by lia)
  across j _ _ _ h0 hlo := by
    have := parent_lt h0
    lia

/-- Any entry at all may stand after the end of a heap. -/
theorem HeapOrdered.holeAt_end (h : HeapOrdered f 0 n) : HoleAt f 0 (n + 1) n where
  off j hj h0 hp hne _ := h j (by lia) h0 hp
  across j hj h0 hp _ _ := by
    have := parent_lt h0
    lia

/-- The root of a heap may be exchanged for any entry. -/
theorem HeapOrdered.holeAt_root {f g : ℕ → α} (h : HeapOrdered f 0 n)
    (hfg : ∀ j < n, 0 < j → g j = f j) : HoleAt g 0 n 0 where
  off j hj h0 hp _ hne := by
    have hlt := parent_lt h0
    rw [hfg j hj h0, hfg (parent j) (by lia) (by lia)]
    exact h j hj h0 hp
  across _ _ _ _ h0 _ := absurd h0 (lt_irrefl 0)

variable {p : ℕ}

theorem HoleAt.heapOrdered (h : HoleAt f lo n p)
    (hc : AboveChildren f n p) (hp : BelowParent f lo p) : HeapOrdered f lo n := by
  intro j hj h0 hlo
  by_cases hjp : j = p
  · subst hjp
    exact hp h0 hlo
  by_cases hpp : parent j = p
  · rw [hpp]
    exact hc j hj h0 hpp
  exact h.off j hj h0 hlo hjp hpp

/-! ## Moving the hole -/

/-- The hole moves down to a child that is at least its sibling. -/
theorem HoleAt.down {c : ℕ} (h : HoleAt f lo n p) (h0 : 0 < c) (hc : parent c = p)
    (hcn : c < n) (hlo : lo ≤ p) (hmax : ∀ j, j < n → 0 < j → parent j = p → f j ≤ f c) :
    HoleAt (exchange f p c) lo n c where
  off j hj hj0 hjlo hjc hpc := by
    have hjj := parent_lt hj0
    by_cases hjp : j = p
    · -- the greater child comes under the hole's old parent
      subst hjp
      rw [exchange_left, exchange_of_ne f (by lia) hpc]
      exact h.across c hcn h0 hc hj0 hjlo
    rw [exchange_of_ne f hjp hjc]
    by_cases hpp : parent j = p
    · rw [hpp, exchange_left]
      exact hmax j hj hj0 hpp
    · rw [exchange_of_ne f hpp hpc]
      exact h.off j hj hj0 hjlo hjp hpp
  across j hj hj0 hjc _ _ := by
    have hjj := parent_lt hj0
    have hcc := parent_lt h0
    rw [hc, exchange_left, exchange_of_ne f (by lia) (by lia)]
    have := h.off j hj hj0 (by lia) (by lia) (by lia)
    rwa [hjc] at this

/-- After a move down, the child that moved up is above the hole when the hole's element is. -/
theorem belowParent_down {c : ℕ} (h0 : 0 < c) (hc : parent c = p)
    (h : f p ≤ f c) : BelowParent (exchange f p c) lo c := by
  intro _ _
  have := parent_lt h0
  rw [hc, exchange_left, exchange_right f (by lia)]
  exact h

/-- The hole moves up to its parent. -/
theorem HoleAt.up (h : HoleAt f lo n p) (h0 : 0 < p) (hpn : p < n)
    (hlo : lo ≤ parent p) : HoleAt (exchange f p (parent p)) lo n (parent p) where
  off j hj hj0 hjlo hjq hpq := by
    have hjp : j ≠ p := fun he => hpq (by rw [he])
    rw [exchange_of_ne f hjp hjq]
    by_cases hc : parent j = p
    · rw [hc, exchange_left]
      exact h.across j hj hj0 hc h0 hlo
    · rw [exchange_of_ne f hc hpq]
      exact h.off j hj hj0 hjlo hjp hc
  across j hj hj0 hjq hq0 hqlo := by
    have hpp := parent_lt h0
    have hqq := parent_lt hq0
    have hjj := parent_lt hj0
    have hq := h.off (parent p) (by lia) hq0 hqlo (by lia) (by lia)
    rw [exchange_of_ne f (show parent (parent p) ≠ p by lia) (by lia)]
    by_cases hjp : j = p
    · subst hjp
      rw [exchange_left]
      exact hq
    · rw [exchange_of_ne f hjp (by lia)]
      have hj' := h.off j hj hj0 (by lia) hjp (by lia)
      rw [hjq] at hj'
      exact hj'.trans hq

/-- After a move up past a smaller parent, the hole's element is above its children. -/
theorem HoleAt.aboveChildren_up (h : HoleAt f lo n p) (h0 : 0 < p)
    (hlo : lo ≤ parent p) (hle : f (parent p) ≤ f p) :
    AboveChildren (exchange f p (parent p)) n (parent p) := by
  intro j hj hj0 hjq
  have hpp := parent_lt h0
  have hjj := parent_lt hj0
  rw [exchange_right f (by lia)]
  by_cases hjp : j = p
  · subst hjp
    rw [exchange_left]
    exact hle
  · rw [exchange_of_ne f hjp (by lia)]
    have hj' := h.off j hj hj0 (by lia) hjp (by lia)
    rw [hjq] at hj'
    exact hj'.trans hle

/-- The two children of a position. -/
theorem eq_child_of_parent_eq {j : ℕ} (h0 : 0 < j) (h : parent j = p) :
    j = 2 * p + 1 ∨ j = 2 * p + 2 := by
  unfold parent at h
  lia

theorem parent_left (p : ℕ) : parent (2 * p + 1) = p := by
  unfold parent
  lia

theorem parent_right (p : ℕ) : parent (2 * p + 2) = p := by
  unfold parent
  lia

end RustStd.HeapOrder
