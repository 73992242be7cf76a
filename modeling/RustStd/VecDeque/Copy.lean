import RustStd.VecDeque.Model

/-!
# Positions and wrapping copies

For sized elements the capacity is at most `isize::MAX`, so no position computed wraps around in
`usize` and each is one of the two values `phys` distinguishes. `wrap_copy_spec` says that the eight
cases of `wrap_copy` all are the one simultaneous copy of a block around the ring.
-/

namespace RustStd.VecDeque

open Nat RawVec

variable {α : Type} {t : Target} {cap src dst len j : ℕ} {d : VecDeque α} {cap head i : ℕ}

/-- The position `i` places after `head` in a ring of `cap` cells. -/
def phys (cap head i : ℕ) : ℕ := if head + i ≥ cap then head + i - cap else head + i

/-- How many places `j` is after `i` in a ring of `cap` cells. -/
def dist (cap i j : ℕ) : ℕ := if i ≤ j then j - i else j + cap - i

theorem phys_of_lt (h : head + i < cap) : phys cap head i = head + i :=
  if_neg (by lia)

theorem phys_of_ge (h : cap ≤ head + i) : phys cap head i = head + i - cap :=
  if_pos h

theorem phys_lt (hh : head < cap) (hi : i ≤ cap) : phys cap head i < cap := by
  unfold phys
  split <;> lia

theorem phys_eq_mod (hh : head < cap) (hi : i ≤ cap) : phys cap head i = (head + i) % cap := by
  unfold phys
  split
  · rw [mod_eq_sub_mod (by lia), mod_eq_of_lt (by lia)]
  · rw [mod_eq_of_lt (by lia)]

theorem capacity_none (d : VecDeque α) : d.capacity t none = d.buf.cap := by simp [capacity]

theorem wrap_add_eq {idx addend : ℕ} (h : idx + addend < 2 * t.isizeMax + 2) :
    d.wrap_add t none idx addend = phys d.buf.cap idx addend := by
  have hcard := t.two_mul_isizeMax
  rw [wrap_add, Target.wrap_of_lt (by lia)]
  rfl

theorem wrap_sub_eq (hcap : d.buf.cap ≤ t.isizeMax) {idx sub : ℕ}
    (hi : idx ≤ d.buf.cap) (hs : sub ≤ d.buf.cap) :
    d.wrap_sub t none idx sub = phys d.buf.cap idx (d.buf.cap - sub) := by
  have hcard := t.two_mul_isizeMax
  have hval : t.wrap (t.wrappingSub idx sub + d.buf.cap) = idx + (d.buf.cap - sub) := by
    rw [Target.wrap, Target.wrappingSub, mod_eq_of_lt (show sub < t.usizeCard by lia),
      mod_add_mod, show idx + (t.usizeCard - sub) + d.buf.cap =
        idx + (d.buf.cap - sub) + t.usizeCard by lia, add_mod_right,
      mod_eq_of_lt (by lia)]
  rw [wrap_sub, capacity_none, hval]
  rfl

/-- The cells after a block is copied around the ring, all at once. -/
def ringMoved (cap : ℕ) (mem : ℕ → Option α) (src dst len : ℕ) : ℕ → Option α :=
  fun j => if dist cap dst j < len then mem (phys cap src (dist cap dst j)) else mem j

/-- Two buffers agree on their cells. -/
def AgreesBelow (cap : ℕ) (f g : ℕ → Option α) : Prop := ∀ j, j < cap → f j = g j

/-- The deque with other cells. -/
def withMem (d : VecDeque α) (mem : ℕ → Option α) : VecDeque α := { d with buf := ⟨mem, d.buf.cap⟩ }

@[simp] theorem withMem_cap (d : VecDeque α) (mem : ℕ → Option α) :
    (d.withMem mem).buf.cap = d.buf.cap := rfl

@[simp] theorem withMem_mem (d : VecDeque α) (mem : ℕ → Option α) :
    (d.withMem mem).buf.mem = mem := rfl

@[simp] theorem withMem_withMem (d : VecDeque α) (mem mem' : ℕ → Option α) :
    (d.withMem mem).withMem mem' = d.withMem mem' := rfl

theorem copy_eq {src dst len : ℕ} (hs : src + len ≤ d.buf.cap) (hd : dst + len ≤ d.buf.cap) :
    d.copy none src dst len = .ok (d.withMem (moved d.buf.mem src dst len)) := if_pos ⟨hs, hd⟩

/-- Two copies, one after the other. -/
theorem copy_copy_eq {s1 d1 l1 s2 d2 l2 : ℕ} (h1 : s1 + l1 ≤ d.buf.cap)
    (h2 : d1 + l1 ≤ d.buf.cap) (h3 : s2 + l2 ≤ d.buf.cap) (h4 : d2 + l2 ≤ d.buf.cap) :
    (do
      let d ← d.copy none s1 d1 l1
      d.copy none s2 d2 l2) =
    .ok (d.withMem (moved (moved d.buf.mem s1 d1 l1) s2 d2 l2)) := by
  rw [copy_eq h1 h2, Exec.bind_ok]
  exact copy_eq (d := d.withMem _) h3 h4

/-- Three copies, one after the other. -/
theorem copy_copy_copy_eq {s1 d1 l1 s2 d2 l2 s3 d3 l3 : ℕ}
    (h1 : s1 + l1 ≤ d.buf.cap) (h2 : d1 + l1 ≤ d.buf.cap) (h3 : s2 + l2 ≤ d.buf.cap)
    (h4 : d2 + l2 ≤ d.buf.cap) (h5 : s3 + l3 ≤ d.buf.cap) (h6 : d3 + l3 ≤ d.buf.cap) :
    (do
      let d ← d.copy none s1 d1 l1
      let d ← d.copy none s2 d2 l2
      d.copy none s3 d3 l3) =
    .ok (d.withMem (moved (moved (moved d.buf.mem s1 d1 l1) s2 d2 l2) s3 d3 l3)) := by
  rw [copy_eq h1 h2, Exec.bind_ok]
  exact copy_copy_eq (d := d.withMem _) h3 h4 h5 h6

/-! ## The cases of a wrapping copy

In each the order of the copies keeps a cell from being overwritten before it is read. -/

variable (mem : ℕ → Option α)
include mem

private theorem moved_neither (hsw : src + len ≤ cap) (hdw : dst + len ≤ cap) :
    moved mem src dst len j = ringMoved cap mem src dst len j := by
  simp only [moved, ringMoved, dist, phys]
  split_ifs <;> lia

private theorem moved_dst_wraps_before
    (hd : dst < cap) (hj : j < cap) (hdw : cap < dst + len) (hlen : src + len ≤ dst) :
    moved (moved mem src dst (cap - dst)) (src + (cap - dst)) 0 (len - (cap - dst)) j =
      ringMoved cap mem src dst len j := by
  simp only [moved, ringMoved, dist, phys]
  split_ifs <;> first | lia | rfl | (congr 1; lia)

private theorem moved_dst_wraps_after
    (hd : dst < cap) (hj : j < cap) (hsw : src + len ≤ cap) (hdw : cap < dst + len)
    (hlen : dst + len ≤ cap + src) :
    moved (moved mem (src + (cap - dst)) 0 (len - (cap - dst))) src dst (cap - dst) j =
      ringMoved cap mem src dst len j := by
  simp only [moved, ringMoved, dist, phys]
  split_ifs <;> first | lia | rfl | (congr 1; lia)

private theorem moved_src_wraps_before
    (hs : src < cap) (hsw : cap < src + len) (hdw : dst + len ≤ cap)
    (hlen : src + len ≤ dst + cap) :
    moved (moved mem src dst (cap - src)) 0 (dst + (cap - src)) (len - (cap - src)) j =
      ringMoved cap mem src dst len j := by
  simp only [moved, ringMoved, dist, phys]
  split_ifs <;> first | lia | rfl | (congr 1; lia)

private theorem moved_src_wraps_after
    (hs : src < cap) (hsw : cap < src + len) (hlen : dst + len ≤ src) :
    moved (moved mem 0 (dst + (cap - src)) (len - (cap - src))) src dst (cap - src) j =
      ringMoved cap mem src dst len j := by
  simp only [moved, ringMoved, dist, phys]
  split_ifs <;> first | lia | rfl | (congr 1; lia)

/-! A cell is found by its distance from the block that is written. -/

private theorem moved_at (src dst : ℕ) {len o : ℕ} (h : o < len) :
    moved mem src dst len (dst + o) = mem (src + o) := by
  rw [moved, if_pos ⟨by lia, by lia⟩, Nat.add_sub_cancel_left]

private theorem moved_off (src : ℕ) {dst len j : ℕ}
    (h : j < dst ∨ dst + len ≤ j) : moved mem src dst len j = mem j :=
  if_neg (by lia)

omit mem

private theorem dist_phys_self {cap dst o : ℕ} (hd : dst < cap) (ho : o < cap) :
    dist cap dst (phys cap dst o) = o := by
  unfold dist phys
  split_ifs <;> lia

private theorem ringMoved_at (mem : ℕ → Option α) (src : ℕ) {cap dst len o : ℕ} (hd : dst < cap)
    (ho : o < cap) (h : o < len) :
    ringMoved cap mem src dst len (phys cap dst o) = mem (phys cap src o) := by
  rw [ringMoved, dist_phys_self hd ho, if_pos h]

private theorem ringMoved_off (mem : ℕ → Option α) (src : ℕ) {cap dst len o : ℕ} (hd : dst < cap)
    (ho : o < cap) (h : len ≤ o) :
    ringMoved cap mem src dst len (phys cap dst o) = mem (phys cap dst o) := by
  rw [ringMoved, dist_phys_self hd ho, if_neg (by lia)]

private theorem exists_phys {cap dst j : ℕ} (hd : dst < cap) (hj : j < cap) :
    ∃ o < cap, j = phys cap dst o := by
  refine ⟨dist cap dst j, ?_, ?_⟩
  · unfold dist
    split_ifs <;> lia
  · unfold dist phys
    split_ifs <;> lia

private theorem moved_both_before (mem : ℕ → Option α) (hs : src < cap)
    (hd : dst < cap) (hj : j < cap) (hdw : cap < dst + len)
    (hle : dst ≤ src) (hlen : src + len ≤ dst + cap) :
    moved (moved (moved mem src dst (cap - src)) 0 (dst + (cap - src))
        (cap - dst - (cap - src))) (cap - dst - (cap - src)) 0 (len - (cap - dst)) j =
      ringMoved cap mem src dst len j := by
  obtain ⟨o, ho, rfl⟩ := exists_phys hd hj
  obtain ⟨e, rfl⟩ := Nat.exists_eq_add_of_le hle
  obtain ⟨a, rfl⟩ := Nat.exists_eq_add_of_le hs.le
  obtain ⟨c, rfl⟩ : ∃ c, len = a + e + c := Nat.exists_eq_add_of_le (by lia)
  rw [show dst + e + a - (dst + e) = a by lia, show dst + e + a - dst - a = e by lia,
    show a + e + c - (dst + e + a - dst) = c by lia]
  clear hj hdw hle
  rcases lt_or_ge o a with h | h
  · rw [ringMoved_at mem _ hd ho (by lia), phys_of_lt (by lia), phys_of_lt (by lia),
      moved_off _ _ (by lia), moved_off _ _ (by lia), moved_at _ _ _ h]
  obtain ⟨o, rfl⟩ := Nat.exists_eq_add_of_le h
  rcases lt_or_ge o e with h | h
  · rw [ringMoved_at mem _ hd ho (by lia), phys_of_lt (by lia), phys_of_ge (by lia),
      moved_off _ _ (by lia), ← add_assoc, moved_at _ _ _ h, moved_off _ _ (by lia)]
    congr 1
    lia
  obtain ⟨o, rfl⟩ := Nat.exists_eq_add_of_le h
  have hj : phys (dst + e + a) dst (a + (e + o)) = 0 + o := by
    rw [phys_of_ge (by lia)]
    lia
  rcases lt_or_ge o c with h | h
  · rw [ringMoved_at mem _ hd ho (by lia), hj, phys_of_ge (by lia), moved_at _ _ _ h,
      moved_off _ _ (by lia), moved_off _ _ (by lia)]
    congr 1
    lia
  · rw [ringMoved_off mem _ hd ho (by lia), hj, moved_off _ _ (by lia), moved_off _ _ (by lia),
      moved_off _ _ (by lia)]

private theorem moved_both_after (mem : ℕ → Option α) (hs : src < cap)
    (hd : dst < cap) (hj : j < cap) (hsw : cap < src + len) (hdw : cap < dst + len)
    (hle : src ≤ dst) (hlen : dst + len ≤ src + cap) :
    moved (moved (moved mem 0 (cap - src - (cap - dst)) (len - (cap - src)))
        (cap - (cap - src - (cap - dst))) 0 (cap - src - (cap - dst))) src dst (cap - dst) j =
      ringMoved cap mem src dst len j := by
  obtain ⟨o, ho, rfl⟩ := exists_phys hd hj
  obtain ⟨e, rfl⟩ := Nat.exists_eq_add_of_le hle
  obtain ⟨a, rfl⟩ := Nat.exists_eq_add_of_le hd.le
  obtain ⟨c, rfl⟩ : ∃ c, len = a + e + c := Nat.exists_eq_add_of_le (by lia)
  rw [show src + e + a - (src + e) = a by lia, show src + e + a - src - a = e by lia,
    show a + e + c - (src + e + a - src) = c by lia, show src + e + a - e = src + a by lia]
  clear hj hdw hle
  rcases lt_or_ge o a with h | h
  · rw [ringMoved_at mem _ hd ho (by lia), phys_of_lt (by lia), phys_of_lt (by lia),
      moved_at _ _ _ h, moved_off _ _ (by lia), moved_off _ _ (by lia)]
  obtain ⟨o, rfl⟩ := Nat.exists_eq_add_of_le h
  have hj : phys (src + e + a) (src + e) (a + o) = 0 + o := by
    rw [phys_of_ge (by lia)]
    lia
  rcases lt_or_ge o e with h | h
  · rw [ringMoved_at mem _ hd ho (by lia), hj, phys_of_lt (by lia), moved_off _ _ (by lia),
      moved_at _ _ _ h, moved_off _ _ (by lia)]
    congr 1
    lia
  obtain ⟨o, rfl⟩ := Nat.exists_eq_add_of_le h
  rw [zero_add] at hj
  rcases lt_or_ge o c with h | h
  · rw [ringMoved_at mem _ hd ho (by lia), hj, phys_of_ge (by lia), moved_off _ _ (by lia),
      moved_off _ _ (by lia), moved_at _ _ _ h]
    congr 1
    lia
  · rw [ringMoved_off mem _ hd ho (by lia), hj, moved_off _ _ (by lia), moved_off _ _ (by lia),
      moved_off _ _ (by lia)]

/-- **A wrapping copy is the simultaneous copy**, when the two blocks overlap at one end only. -/
theorem wrap_copy_spec (hcap : d.buf.cap ≤ t.isizeMax) {src dst len : ℕ}
    (hs : src < d.buf.cap) (hd : dst < d.buf.cap)
    (hlen : dist d.buf.cap src dst + len ≤ d.buf.cap ∨ dist d.buf.cap dst src + len ≤ d.buf.cap) :
    ∃ mem, d.wrap_copy t none src dst len = .ok (d.withMem mem) ∧
      AgreesBelow d.buf.cap mem (ringMoved d.buf.cap d.buf.mem src dst len) := by
  unfold wrap_copy
  simp only [Option.isSome_none, Bool.false_eq_true, false_or, capacity_none,
    wrap_sub_eq hcap hd.le hs.le]
  split
  · rename_i htriv
    refine ⟨d.buf.mem, rfl, fun j hj => ?_⟩
    unfold ringMoved dist phys
    rcases htriv with rfl | rfl
    · split_ifs <;> first | rfl | (congr 1; lia)
    · rfl
  rename_i htriv
  have hwrap : phys d.buf.cap dst (d.buf.cap - src) = dist d.buf.cap src dst := by
    unfold phys dist
    split_ifs <;> lia
  rw [hwrap]
  by_cases hafter : dist d.buf.cap src dst < len <;> by_cases hsw : d.buf.cap - src < len <;>
    by_cases hdw : d.buf.cap - dst < len <;>
    simp only [hafter, hsw, hdw, decide_true, decide_false] <;> unfold dist at hafter hlen
  · -- both wrap, `src` before `dst`
    obtain ⟨hle, hle'⟩ : src ≤ dst ∧ dst + len ≤ src + d.buf.cap := by
      split_ifs at hafter hlen <;> lia
    clear hwrap hlen
    refine ⟨_, ?_, fun j hj => moved_both_after d.buf.mem hs hd hj (by lia) (by lia) hle hle'⟩
    rw [copy_eq (by lia) (by lia), Exec.bind_ok]
    exact copy_copy_eq (d := d.withMem _) (by simp only [withMem_cap]; lia)
      (by simp only [withMem_cap]; lia) (by simp only [withMem_cap]; lia)
      (by simp only [withMem_cap]; lia)
  · -- `src` wraps, `src` before `dst`
    have hle : dst + len ≤ src := by split_ifs at hafter hlen <;> lia
    clear hwrap hlen hafter
    exact ⟨_, copy_copy_eq (by lia) (by lia) (by lia) (by lia),
      fun j _ => moved_src_wraps_after d.buf.mem hs (by lia) hle⟩
  · -- `dst` wraps, `src` before `dst`
    have hle' : dst + len ≤ d.buf.cap + src := by split_ifs at hafter hlen <;> lia
    clear hwrap hlen hafter
    exact ⟨_, copy_copy_eq (by lia) (by lia) (by lia) (by lia),
      fun j hj => moved_dst_wraps_after d.buf.mem hd hj (by lia) (by lia) hle'⟩
  · exact ⟨_, copy_eq (by lia) (by lia),
      fun j _ => moved_neither d.buf.mem (by lia) (by lia)⟩
  · -- both wrap, `dst` before `src`
    obtain ⟨hle, hle'⟩ : dst ≤ src ∧ src + len ≤ dst + d.buf.cap := by
      split_ifs at hafter hlen <;> lia
    clear hwrap hlen hafter
    exact ⟨_, copy_copy_copy_eq (by lia) (by lia) (by lia) (by lia) (by lia) (by lia),
      fun j hj => moved_both_before d.buf.mem hs hd hj (by lia) hle hle'⟩
  · -- `src` wraps, `dst` before `src`
    have hle : src + len ≤ dst + d.buf.cap := by split_ifs at hafter <;> lia
    clear hwrap hlen hafter
    exact ⟨_, copy_copy_eq (by lia) (by lia) (by lia) (by lia),
      fun j _ => moved_src_wraps_before d.buf.mem hs (by lia) (by lia) hle⟩
  · -- `dst` wraps, `dst` before `src`
    have hle : src + len ≤ dst := by split_ifs at hafter <;> lia
    clear hwrap hlen hafter
    exact ⟨_, copy_copy_eq (by lia) (by lia) (by lia) (by lia),
      fun j hj => moved_dst_wraps_before d.buf.mem hd hj (by lia) hle⟩
  · exact ⟨_, copy_eq (by lia) (by lia),
      fun j _ => moved_neither d.buf.mem (by lia) (by lia)⟩

def abs_diff (a b : ℕ) : ℕ := if a < b then b - a else a - b

/-- **A wrapping copy around the ring.** When the bound of its `debug_assert!` holds, the cells of
the destination get what those of the source had, no other cell changes, and where both blocks wrap
neither `delta` underflows. -/
theorem wrap_copy_circular (d : VecDeque α) (hcap : d.buf.cap ≤ t.isizeMax) {src dst len : ℕ}
    (hs : src < d.buf.cap) (hd : dst < d.buf.cap)
    (hlen : min (abs_diff src dst) (d.buf.cap - abs_diff src dst) + len ≤ d.buf.cap) :
    (∃ mem, d.wrap_copy t none src dst len = .ok (d.withMem mem) ∧
      (∀ i < len, mem ((dst + i) % d.buf.cap) = d.buf.mem ((src + i) % d.buf.cap)) ∧
      ∀ j < d.buf.cap, (∀ i < len, (dst + i) % d.buf.cap ≠ j) → mem j = d.buf.mem j) ∧
    (src ≠ dst → d.buf.cap - src < len → d.buf.cap - dst < len →
      if d.wrap_sub t none dst src < len then d.buf.cap - dst < d.buf.cap - src
      else d.buf.cap - src < d.buf.cap - dst) ∧
    ∀ one, d.wrap_copy t (some one) src dst len = .ok d := by
  unfold abs_diff at hlen
  have hdist : dist d.buf.cap src dst + len ≤ d.buf.cap ∨
      dist d.buf.cap dst src + len ≤ d.buf.cap := by
    unfold dist
    split_ifs at hlen ⊢ <;> omega
  obtain ⟨mem, hrun, hmem⟩ := wrap_copy_spec hcap hs hd hdist
  refine ⟨⟨mem, hrun, fun i hi => ?_, fun j hj hout => ?_⟩, fun hne hsw hdw => ?_, fun _ => rfl⟩
  · have hi' : i < d.buf.cap := by omega
    rw [← phys_eq_mod hd hi'.le, ← phys_eq_mod hs hi'.le, hmem _ (phys_lt hd hi'.le),
      ringMoved_at _ _ hd hi' hi]
  · obtain ⟨o, ho, rfl⟩ := exists_phys hd hj
    have hlo : len ≤ o := Nat.le_of_not_lt fun h => hout o h (phys_eq_mod hd ho.le).symm
    rw [hmem _ hj, ringMoved_off _ _ hd ho hlo]
  · rw [wrap_sub_eq hcap hd.le hs.le]
    unfold phys
    split_ifs at hlen ⊢ <;> omega

theorem wrap_copy_circular_overlapping :
    ∃ mem, (⟨0, 0, ⟨some, 5⟩⟩ : VecDeque ℕ).wrap_copy ⟨3, false⟩ none 4 3 4 =
        .ok (withMem ⟨0, 0, ⟨some, 5⟩⟩ mem) ∧
      (∀ i < 4, mem ((3 + i) % 5) = some ((4 + i) % 5)) ∧
      ∀ j < 5, (∀ i < 4, (3 + i) % 5 ≠ j) → mem j = some j :=
  (wrap_copy_circular ⟨0, 0, ⟨some, 5⟩⟩ (t := ⟨3, false⟩) (by decide) (by decide) (by decide)
    (by decide)).1

end RustStd.VecDeque
