import RustStd.VecDeque.Relocate

/-!
# Copying a range of a deque to either of its ends

`extend_from_within` and `prepend_from_within` clone the elements of a range behind the last element
or in front of the first. Source and destination are each at most two blocks of cells, and one of
them at most wraps around. A clone may panic; the deque then holds what was cloned before.
Elements whose clone is a copy of their bytes are copied in blocks instead.
-/

namespace RustStd.VecDeque

open List Nat Exec

variable {α σ : Type}

/-- `Clone::clone`, with a state: nothing when it panics. -/
abbrev Clone (σ α : Type) := σ → α → σ × Option α

/-- A block that is read, the block that is written, and their length. -/
structure CopyRange where
  src : ℕ
  dst : ℕ
  count : ℕ

section Model

variable (t : Target) (zst : Option α)

def nonoverlapping_ranges (d : VecDeque α) (src dst count head : ℕ) : CopyRange × CopyRange :=
  let wrapped_src := d.wrap_add t zst head src
  let wrapped_dst := d.wrap_add t zst head dst
  let room_after_src := d.capacity t zst - wrapped_src
  let room_after_dst := d.capacity t zst - wrapped_dst
  let src_wraps := decide (room_after_src < count)
  let dst_wraps := decide (room_after_dst < count)
  if src_wraps then
    (⟨wrapped_src, wrapped_dst, room_after_src⟩,
      ⟨0, wrapped_dst + room_after_src, count - room_after_src⟩)
  else if dst_wraps then
    (⟨wrapped_src, wrapped_dst, room_after_dst⟩,
      ⟨wrapped_src + room_after_dst, 0, count - room_after_dst⟩)
  else (⟨wrapped_src, wrapped_dst, count⟩, ⟨0, 0, 0⟩)

/-- The loop over offsets that clones from one block to another; `after` follows every clone. -/
def write_clones (clone : Clone σ α) (src dst : ℕ) (after : VecDeque α → Exec (VecDeque α)) :
    List ℕ → σ → VecDeque α → Exec ((VecDeque α × σ) × Exit)
  | [], s, d => .ok ((d, s), .returned)
  | offset :: offsets, s, d => do
    let x ← d.buffer_read zst (src + offset)
    match clone s x with
    | (s, none) => .ok ((d, s), .unwound)
    | (s, some y) =>
      let d ← d.buffer_write zst (dst + offset) y
      let d ← after d
      write_clones clone src dst after offsets s d

/-- What follows a clone behind the last element. -/
def longer (d : VecDeque α) : Exec (VecDeque α) := .ok { d with len := d.len + 1 }

/-- What follows a clone in front of the first element; a head of 0 would overflow. -/
def longer_front (d : VecDeque α) : Exec (VecDeque α) :=
  if d.head = 0 then .error .panic else .ok { d with head := d.head - 1, len := d.len + 1 }

/-- The same for the first clone of the block that the head may have to wrap around to. -/
def longer_front_wrapping (cap : ℕ) (d : VecDeque α) : Exec (VecDeque α) :=
  longer_front (if d.head = 0 then { d with head := cap } else d)

/-- Go on after a loop, unless a clone panicked in it. -/
def after_loop (r : (VecDeque α × σ) × Exit)
    (f : σ → VecDeque α → Exec ((VecDeque α × σ) × Exit)) : Exec ((VecDeque α × σ) × Exit) :=
  match r.2 with
  | .unwound => .ok r
  | .returned => f r.1.2 r.1.1

def spec_extend_from_within (clone : Clone σ α) (s : σ) (d : VecDeque α) (start stop : ℕ) :
    Exec ((VecDeque α × σ) × Exit) := do
  let dst := d.len
  let count := stop - start
  let ranges := d.nonoverlapping_ranges t zst start dst count d.head
  let r ← write_clones zst clone ranges.1.src ranges.1.dst longer (range ranges.1.count) s d
  after_loop r
    (write_clones zst clone ranges.2.src ranges.2.dst longer (range ranges.2.count))

def spec_prepend_from_within (clone : Clone σ α) (s : σ) (d : VecDeque α) (start stop : ℕ) :
    Exec ((VecDeque α × σ) × Exit) := do
  let dst := 0
  let count := stop - start
  let src := start + count
  let new_head := d.wrap_sub t zst d.head count
  let cap := d.capacity t zst
  let ranges := d.nonoverlapping_ranges t zst src dst count new_head
  let r ← write_clones zst clone ranges.2.src ranges.2.dst longer_front
    (range ranges.2.count).reverse s d
  let offsets := (range ranges.1.count).reverse
  after_loop r fun s d => do
    let r ← write_clones zst clone ranges.1.src ranges.1.dst (longer_front_wrapping cap)
      (offsets.take 1) s d
    after_loop r
      (write_clones zst clone ranges.1.src ranges.1.dst longer_front (offsets.drop 1))

def copy_range (d : VecDeque α) (r : CopyRange) : Exec (VecDeque α) :=
  d.copy_nonoverlapping zst r.src r.dst r.count

/-- `spec_extend_from_within` for elements that are cloned by copying. -/
def spec_extend_from_within_trivial (d : VecDeque α) (start stop : ℕ) : Exec (VecDeque α) := do
  let dst := d.len
  let count := stop - start
  let ranges := d.nonoverlapping_ranges t zst start dst count d.head
  let d ← d.copy_range zst ranges.1
  let d ← d.copy_range zst ranges.2
  .ok { d with len := d.len + count }

/-- `spec_prepend_from_within` for elements that are cloned by copying. -/
def spec_prepend_from_within_trivial (d : VecDeque α) (start stop : ℕ) : Exec (VecDeque α) := do
  let dst := 0
  let count := stop - start
  let src := start + count
  let new_head := d.wrap_sub t zst d.head count
  let ranges := d.nonoverlapping_ranges t zst src dst count new_head
  let d ← d.copy_range zst ranges.1
  let d ← d.copy_range zst ranges.2
  .ok { d with head := new_head, len := d.len + count }

end Model

/-! ## Cloning a list -/

/-- The clones of the elements of a list in order, up to the first that panics. -/
def clones (clone : Clone σ α) : σ → List α → (List α × σ) × Exit
  | s, [] => (([], s), .returned)
  | s, x :: xs =>
    match clone s x with
    | (s, none) => (([], s), .unwound)
    | (s, some y) => 
      ((y :: (clones clone s xs).1.1, (clones clone s xs).1.2), (clones clone s xs).2)

variable {t : Target} {clone : Clone σ α} {d : VecDeque α} {l : List α}

theorem clones_append_unwound {s : σ} {xs : List α} (ys : List α)
    (h : (clones clone s xs).2 = .unwound) : clones clone s (xs ++ ys) = clones clone s xs := by
  induction xs generalizing s with
  | nil => cases h
  | cons x xs ih =>
    rw [cons_append]
    unfold clones at h ⊢
    match hc : clone s x with
    | (s', none) => rfl
    | (s', some y) =>
      simp only [hc] at h ⊢
      rw [ih h]

theorem clones_append_returned {s : σ} {xs : List α} (ys : List α)
    (h : (clones clone s xs).2 = .returned) :
    clones clone s (xs ++ ys) =
      (((clones clone s xs).1.1 ++ (clones clone (clones clone s xs).1.2 ys).1.1,
        (clones clone (clones clone s xs).1.2 ys).1.2),
        (clones clone (clones clone s xs).1.2 ys).2) := by
  induction xs generalizing s with
  | nil => rfl
  | cons x xs ih =>
    rw [cons_append]
    unfold clones at h
    rw [clones, clones]
    match hc : clone s x with
    | (s', none) =>
      simp only [hc] at h
      cases h
    | (s', some y) =>
      simp only [hc] at h ⊢
      rw [ih h]
      rfl

/-- A clone that panics does so after fewer clones than there are elements. -/
theorem length_clones (clone : Clone σ α) (s : σ) (xs : List α) :
    (clones clone s xs).1.1.length ≤ xs.length ∧
      ((clones clone s xs).2 = .returned ↔ (clones clone s xs).1.1.length = xs.length) := by
  induction xs generalizing s with
  | nil => simp [clones]
  | cons x xs ih =>
    unfold clones
    match hc : clone s x with
    | (s', none) => simp
    | (s', some y) =>
      obtain ⟨hle, hiff⟩ := ih s'
      simp only [length_cons, Nat.add_le_add_iff_right, Nat.add_right_cancel_iff]
      exact ⟨hle, hiff⟩

/-! ## The two blocks -/

/-- The two blocks, as places counted from a head. -/
structure Plan (cap head src dst count : ℕ) (r : CopyRange × CopyRange) : Prop where
  counts : r.1.count + r.2.count = count
  src_fst : ∀ o, o < r.1.count → phys cap head (src + o) = r.1.src + o
  dst_fst : ∀ o, o < r.1.count → phys cap head (dst + o) = r.1.dst + o
  src_snd : ∀ o, o < r.2.count → phys cap head (src + r.1.count + o) = r.2.src + o
  dst_snd : ∀ o, o < r.2.count → phys cap head (dst + r.1.count + o) = r.2.dst + o
  end_snd : 0 < r.2.count → phys cap head (dst + count) = r.2.dst + r.2.count
  copy_fst : r.1.src + r.1.count ≤ cap ∧ r.1.dst + r.1.count ≤ cap ∧
    (r.1.src + r.1.count ≤ r.1.dst ∨ r.1.dst + r.1.count ≤ r.1.src)
  copy_snd : r.2.src + r.2.count ≤ cap ∧ r.2.dst + r.2.count ≤ cap ∧
    (r.2.src + r.2.count ≤ r.2.dst ∨ r.2.dst + r.2.count ≤ r.2.src)

variable {head : ℕ}

/-- Places before the end of the buffer follow one another. -/
theorem phys_run {cap a o : ℕ} (hh : head < cap) (h : a + o ≤ cap)
    (hlt : phys cap head a + o < cap) : phys cap head (a + o) = phys cap head a + o := by
  rw [← phys_phys hh h, phys_of_lt hlt]

/-- Places past the end of the buffer go on at its start. -/
theorem phys_wrapped {cap a o : ℕ} (hh : head < cap) (h : a + o ≤ cap)
    (hge : cap ≤ phys cap head a + o) : phys cap head (a + o) = phys cap head a + o - cap := by
  rw [← phys_phys hh h, phys_of_ge hge]

theorem phys_step_back {cap k : ℕ} (hh : head < cap) (h0 : k ≠ 0) (hk : k ≤ cap) :
    phys cap (phys cap head k) (cap - 1) = phys cap head (k - 1) := by
  unfold phys
  split_ifs <;> lia

/-- Blocks that are apart are apart in the ring, on both ways round. -/
theorem phys_apart {cap a b count : ℕ} (hh : head < cap) (ha : a + count ≤ b)
    (hb : b + count ≤ cap) :
    (phys cap head a + count ≤ phys cap head b ∧ phys cap head b + count ≤ phys cap head a + cap) ∨
      (phys cap head b + count ≤ phys cap head a ∧
        phys cap head a + count ≤ phys cap head b + cap) := by
  obtain ⟨e, rfl⟩ := Nat.exists_eq_add_of_le (show a ≤ b by lia)
  have hlt := phys_lt hh (show a ≤ cap by lia)
  rw [← phys_phys hh (show a + e ≤ cap by lia)]
  unfold phys at hlt ⊢
  split_ifs at hlt ⊢ <;> lia

/-- The two blocks cover the range, for each way that its ends may wrap. -/
theorem nonoverlapping_ranges_plan (src dst count : ℕ)
    (hcap : d.buf.cap ≤ t.isizeMax) (hhead : head < d.buf.cap)
    (hsrc : src + count ≤ d.buf.cap)
    (hdst : dst + count ≤ d.buf.cap) (hapart : src + count ≤ dst ∨ dst + count ≤ src) :
    Plan d.buf.cap head src dst count (d.nonoverlapping_ranges t none src dst count head) := by
  have hs : d.wrap_add t none head src = phys d.buf.cap head src := wrap_add_eq (by lia)
  have hd : d.wrap_add t none head dst = phys d.buf.cap head dst := wrap_add_eq (by lia)
  unfold nonoverlapping_ranges
  simp only [hs, hd, capacity_none, decide_eq_true_eq]
  clear hs hd
  have hslt := phys_lt hhead (show src ≤ d.buf.cap by lia)
  have hdlt := phys_lt hhead (show dst ≤ d.buf.cap by lia)
  have hring := hapart.elim (fun h => phys_apart hhead h hdst)
    fun h => (phys_apart hhead h hsrc).symm
  have hsr := fun o (h : src + o ≤ d.buf.cap) => phys_run hhead h
  have hsw := fun o (h : src + o ≤ d.buf.cap) => phys_wrapped hhead h
  have hdr := fun o (h : dst + o ≤ d.buf.cap) => phys_run hhead h
  have hdw := fun o (h : dst + o ≤ d.buf.cap) => phys_wrapped hhead h
  clear hapart
  generalize phys d.buf.cap head src = s at *
  generalize phys d.buf.cap head dst = p at *
  generalize d.buf.cap = cap at *
  by_cases hswrap : cap - s < count
  · rw [if_pos hswrap]
    obtain ⟨k, rfl⟩ : ∃ k, cap = s + k := Nat.exists_eq_add_of_le hslt.le
    obtain ⟨n, rfl⟩ : ∃ n, count = k + n := Nat.exists_eq_add_of_le (by lia)
    simp only [Nat.add_sub_cancel_left] at hswrap ⊢
    constructor <;> dsimp only
    · intro o ho
      exact hsr o (by lia) (by lia)
    · intro o ho
      exact hdr o (by lia) (by lia)
    · intro o ho
      rw [Nat.add_assoc, hsw (k + o) (by lia) (by lia)]
      lia
    · intro o ho
      rw [Nat.add_assoc, hdr (k + o) (by lia) (by lia)]
      lia
    · intro _
      rw [hdr _ (by lia) (by lia)]
      lia
    · lia
    · lia
  rw [if_neg hswrap]
  by_cases hdwrap : cap - p < count
  · rw [if_pos hdwrap]
    obtain ⟨k, rfl⟩ : ∃ k, cap = p + k := Nat.exists_eq_add_of_le hdlt.le
    obtain ⟨n, rfl⟩ : ∃ n, count = k + n := Nat.exists_eq_add_of_le (by lia)
    simp only [Nat.add_sub_cancel_left] at hdwrap ⊢
    constructor <;> dsimp only
    · intro o ho
      exact hsr o (by lia) (by lia)
    · intro o ho
      exact hdr o (by lia) (by lia)
    · intro o ho
      rw [Nat.add_assoc, hsr (k + o) (by lia) (by lia)]
      lia
    · intro o ho
      rw [Nat.add_assoc, hdw (k + o) (by lia) (by lia)]
      lia
    · intro _
      rw [hdw _ (by lia) (by lia)]
      lia
    · lia
    · lia
  · rw [if_neg hdwrap]
    constructor <;> dsimp only
    · lia
    · intro o ho
      exact hsr o (by lia) (by lia)
    · intro o ho
      exact hdr o (by lia) (by lia)
    · intro o ho
      lia
    · intro o ho
      lia
    · intro h
      lia
    · lia
    · lia

/-! ## The loops -/

/-- A computation that clones `xs`: how it ends, and what holds of the deque and the clones then. -/
def Clones (clone : Clone σ α) (s : σ) (xs : List α) (P : VecDeque α → List α → Prop)
    (m : Exec ((VecDeque α × σ) × Exit)) : Prop :=
  ∃ d, m = .ok ((d, (clones clone s xs).1.2), (clones clone s xs).2) ∧ P d (clones clone s xs).1.1

section Clones

variable {s : σ} {x : α} {xs ys : List α} {P Q : VecDeque α → List α → Prop}
  {m : Exec ((VecDeque α × σ) × Exit)}

theorem Clones.imp (h : Clones clone s xs P m)
    (hPQ : ∀ d ys, ys.length ≤ xs.length → P d ys → Q d ys) : Clones clone s xs Q m := by
  obtain ⟨d, hm, hP⟩ := h
  exact ⟨d, hm, hPQ _ _ (length_clones clone s xs).1 hP⟩

/-- One turn of a loop, and the turns after it. -/
theorem Clones.cons {zst : Option α} {src dst o : ℕ} {after : VecDeque α → Exec (VecDeque α)}
    {offsets : List ℕ} (hread : d.buffer_read zst (src + o) = .ok x) (hP : P d [])
    (hturn : ∀ s y, ∃ d' d'', d.buffer_write zst (dst + o) y = .ok d' ∧ after d' = .ok d'' ∧
      Clones clone s xs (fun d ys => P d (y :: ys))
        (write_clones zst clone src dst after offsets s d'')) :
    Clones clone s (x :: xs) P (write_clones zst clone src dst after (o :: offsets) s d) := by
  unfold Clones write_clones clones
  rw [hread, bind_ok]
  match clone s x with
  | (s', none) => exact ⟨d, rfl, hP⟩
  | (s', some y) =>
    obtain ⟨d', d'', hwrite, hafter, hrest⟩ := hturn s' y
    simp only [hwrite, hafter, bind_ok]
    exact hrest

/-- A loop, and another one unless a clone panicked in the first. -/
theorem Clones.append {f : σ → VecDeque α → Exec ((VecDeque α × σ) × Exit)}
    (h : Clones clone s xs P m) (hstop : ∀ d zs, zs.length ≤ xs.length → P d zs → Q d zs)
    (hf : ∀ s d zs, zs.length = xs.length → P d zs →
      Clones clone s ys (fun d ws => Q d (zs ++ ws)) (f s d)) :
    Clones clone s (xs ++ ys) Q (m >>= fun r => after_loop r f) := by
  obtain ⟨d', rfl, hP⟩ := h
  obtain ⟨hle, hiff⟩ := length_clones clone s xs
  unfold Clones
  rw [bind_ok]
  match hexit : (clones clone s xs).2 with
  | .unwound =>
    rw [clones_append_unwound _ hexit, hexit]
    exact ⟨d', rfl, hstop _ _ hle hP⟩
  | .returned =>
    rw [clones_append_returned _ hexit]
    exact hf _ _ _ (hiff.1 hexit) hP

end Clones

/-- Cloning behind the last element. -/
theorem write_clones_back (h : Sized t d l) (clone : Clone σ α)
    (src dst start : ℕ) {n : ℕ} (xs : List α) (hn : xs.length = n) (hroom : d.len + n ≤ d.buf.cap)
    (hdst : ∀ o, o < n → phys d.buf.cap d.head (d.len + o) = dst + (start + o))
    (hsrc : ∀ o, o < n → ∃ m, m < l.length ∧ phys d.buf.cap d.head m = src + (start + o) ∧
      l[m]? = xs[o]?) (s : σ) :
    Clones clone s xs
      (fun d' ys => Sized t d' (l ++ ys) ∧ d'.buf.cap = d.buf.cap ∧ d'.head = d.head)
      (write_clones none clone src dst longer (range' start n) s d) := by
  induction n generalizing d l start xs s with
  | zero =>
    obtain rfl : xs = [] := length_eq_zero_iff.1 hn
    exact ⟨d, rfl, by rwa [clones, append_nil], rfl, rfl⟩
  | succ n ih =>
    cases xs with
    | nil => cases hn
    | cons x xs =>
      obtain ⟨m, hm, hphys, hx⟩ := hsrc 0 (succ_pos n)
      have hread : d.buffer_read none (src + start) = .ok x := by
        rw [← add_zero start, ← hphys, h.read hm]
        rw [getElem?_eq_getElem hm, getElem?_cons_zero] at hx
        rw [Option.some.inj hx]
      have hat := hdst 0 (succ_pos n)
      rw [add_zero, add_zero] at hat
      rw [range'_succ]
      refine .cons hread ⟨by rwa [append_nil], rfl, rfl⟩ fun s' y => ?_
      obtain ⟨mem, hwrite, hs⟩ := h.write_back (by lia) y
      rw [hat] at hwrite
      refine ⟨_, _, hwrite, rfl, (ih hs (start + 1) xs (succ.inj hn)
        (by simp only [withMem]; lia) (fun o ho => ?_) (fun o ho => ?_) s').imp ?_⟩
      · have := hdst (o + 1) (by lia)
        simp only [withMem]
        rw [show start + 1 + o = start + (o + 1) by lia, ← this]
        congr 1
        lia
      · obtain ⟨m, hm, hphys, hx⟩ := hsrc (o + 1) (by lia)
        refine ⟨m, by rw [length_append]; lia, ?_, ?_⟩
        · rw [show start + 1 + o = start + (o + 1) by lia]
          exact hphys
        · rw [getElem?_append_left hm, hx, getElem?_cons_succ]
      · rintro d' ys - ⟨hs', hcap, hhead⟩
        exact ⟨by rwa [append_assoc] at hs', hcap, hhead⟩

/-- The places of the elements behind the one that was put in front. -/
theorem shifted_source {cap head' n src : ℕ} {x y : α} {xs : List α} (hl : l.length < cap)
    (hhead : head < cap) (hat : phys cap head (cap - 1) = head')
    (hsrc : ∀ o, o < n + 1 → ∃ m, m < l.length ∧ phys cap head m = src + o ∧
      l[m]? = (x :: xs)[n + 1 - 1 - o]?) (o : ℕ) (ho : o < n) :
    ∃ m, m < (y :: l).length ∧ phys cap head' m = src + o ∧ (y :: l)[m]? = xs[n - 1 - o]? := by
  obtain ⟨m, hm, hphys, hx⟩ := hsrc o (by lia)
  refine ⟨m + 1, by rw [length_cons]; lia, ?_, ?_⟩
  · rw [← hphys, ← hat]
    unfold phys
    split_ifs <;> lia
  · rw [getElem?_cons_succ, hx, show n + 1 - 1 - o = (n - 1 - o) + 1 by lia, getElem?_cons_succ]

/-- The first element that is read from behind. -/
theorem read_source {n src : ℕ} {x : α} {xs : List α} (h : Sized t d l)
    (hsrc : ∀ o, o < n + 1 → ∃ m, m < l.length ∧ phys d.buf.cap d.head m = src + o ∧
      l[m]? = (x :: xs)[n + 1 - 1 - o]?) : d.buffer_read none (src + n) = .ok x := by
  obtain ⟨m, hm, hphys, hx⟩ := hsrc n (lt_succ_self n)
  rw [← hphys, h.read hm]
  rw [getElem?_eq_getElem hm, Nat.add_sub_cancel, Nat.sub_self, getElem?_cons_zero] at hx
  rw [Option.some.inj hx]

/-- Cloning in front of the first element, where the head need not wrap around. -/
theorem write_clones_front (h : Sized t d l) (clone : Clone σ α)
    (src dst : ℕ) {n : ℕ} (xs : List α) (hn : xs.length = n) (hroom : d.len + n ≤ d.buf.cap)
    (hdst : n ≠ 0 → d.head = dst + n)
    (hsrc : ∀ o, o < n → ∃ m, m < l.length ∧ phys d.buf.cap d.head m = src + o ∧
      l[m]? = xs[n - 1 - o]?) (s : σ) :
    Clones clone s xs (fun d' ys => Sized t d' (ys.reverse ++ l) ∧ d'.buf.cap = d.buf.cap ∧
        d'.head + ys.length = d.head)
      (write_clones none clone src dst longer_front (range n).reverse s d) := by
  induction n generalizing d l xs s with
  | zero =>
    obtain rfl : xs = [] := length_eq_zero_iff.1 hn
    exact ⟨d, rfl, h, rfl, rfl⟩
  | succ n ih =>
    cases xs with
    | nil => cases hn
    | cons x xs =>
      rw [range_succ, reverse_append, reverse_singleton, singleton_append]
      refine .cons (read_source h hsrc) ⟨h, rfl, rfl⟩ fun s' y => ?_
      obtain ⟨mem, hwrite, hs⟩ := h.write_front (by lia) y
      have hat : phys d.buf.cap d.head (d.buf.cap - 1) = dst + n := by
        rw [phys_of_ge (by lia)]
        lia
      rw [hat] at hwrite hs
      have hstep : longer_front (d.withMem mem) =
          .ok { d.withMem mem with head := dst + n, len := d.len + 1 } := by
        unfold longer_front
        rw [if_neg (show ¬(d.withMem mem).head = 0 by simp only [withMem]; lia),
          show (d.withMem mem).head - 1 = dst + n by simp only [withMem]; lia]
        rfl
      have hl : l.length < d.buf.cap := by rw [h.length]; lia
      refine ⟨_, _, hwrite, hstep, (ih hs xs (succ.inj hn) (by simp only [withMem]; lia)
        (fun _ => rfl) (shifted_source hl (h.head_lt.resolve_right (by lia)) hat hsrc) s').imp ?_⟩
      rintro d' ys - ⟨hs', hcap, hhead⟩
      refine ⟨by rwa [reverse_cons, append_assoc], hcap, ?_⟩
      simp only [length_cons] at hhead ⊢
      lia

/-- A range of a list, cut in two. -/
theorem range_cut (l : List α) (i c c' : ℕ) :
    (l.drop i).take (c + c') = (l.drop i).take c ++ (l.drop (i + c)).take c' := by
  rw [take_add, drop_drop]

/-- **Extending by clones** of a range. -/
theorem Sized.spec_extend_from_within (h : Sized t d l) {i j : ℕ}
    (hij : i ≤ j) (hj : j ≤ l.length) (hroom : d.len + (j - i) ≤ d.buf.cap)
    (clone : Clone σ α) (s : σ) :
    Clones clone s ((l.drop i).take (j - i))
      (fun d' ys => Sized t d' (l ++ ys) ∧ d'.buf.cap = d.buf.cap ∧ d'.head = d.head)
      (spec_extend_from_within t none clone s d i j) := by
  have hlen := h.length
  obtain ⟨n, rfl⟩ := Nat.exists_eq_add_of_le hij
  have hcount := Nat.add_sub_cancel_left i n
  rw [hcount] at hroom ⊢
  unfold VecDeque.spec_extend_from_within
  dsimp only
  rw [hcount]
  clear hij hcount
  by_cases h0 : n = 0
  · have hranges : d.nonoverlapping_ranges t none i d.len 0 d.head =
        (⟨d.wrap_add t none d.head i, d.wrap_add t none d.head d.len, 0⟩, ⟨0, 0, 0⟩) := by
      simp [nonoverlapping_ranges]
    rw [h0]
    simp only [hranges]
    exact ⟨d, rfl, by rwa [take_zero, clones, append_nil], rfl, rfl⟩
  have hhead := h.head_lt.resolve_right (by lia)
  have hplan := nonoverlapping_ranges_plan (t := t) i d.len n
    h.cap_le hhead (by lia) hroom (by lia)
  generalize d.nonoverlapping_ranges t none i d.len n d.head = r at hplan ⊢
  have hcounts := hplan.counts
  rw [range_eq_range', range_eq_range', ← hcounts, range_cut]
  refine .append (write_clones_back h clone r.1.src r.1.dst 0 ((l.drop i).take r.1.count)
    (n := r.1.count) (by rw [length_take, length_drop]; lia) (by lia) (fun o ho => ?_)
    (fun o ho => ?_) s) (fun d1 ys _ hP => hP) ?_
  · rw [Nat.zero_add]
    exact hplan.dst_fst o ho
  · refine ⟨i + o, by lia, by rw [Nat.zero_add]; exact hplan.src_fst o ho, ?_⟩
    rw [getElem?_take, if_pos ho, getElem?_drop]
  rintro s' d1 ys hys ⟨hs1, hcap1, hhead1⟩
  have hlen1 := hs1.length
  rw [length_append, hys, length_take, length_drop] at hlen1
  refine (write_clones_back hs1 clone r.2.src r.2.dst 0 ((l.drop (i + r.1.count)).take r.2.count)
    (n := r.2.count) (by rw [length_take, length_drop]; lia) (by lia) (fun o ho => ?_)
    (fun o ho => ?_) s').imp ?_
  · rw [Nat.zero_add, hcap1, hhead1, ← hplan.dst_snd o ho]
    congr 1
    lia
  · refine ⟨i + r.1.count + o, by rw [length_append]; lia, ?_, ?_⟩
    · rw [Nat.zero_add, hcap1, hhead1]
      exact hplan.src_snd o ho
    · rw [getElem?_append_left (by lia), getElem?_take, if_pos ho, getElem?_drop]
  · rintro d' zs - ⟨hs', hcap', hhead'⟩
    exact ⟨by rwa [append_assoc] at hs', hcap'.trans hcap1, hhead'.trans hhead1⟩

/-- The loop over the block that the head may have to wrap around to, with its first turn apart. -/
theorem write_clones_front_wrapping (h : Sized t d l)
    (clone : Clone σ α) (src dst : ℕ) {n : ℕ} (xs : List α) (hn : xs.length = n)
    (hroom : d.len + n ≤ d.buf.cap)
    (hdst : n ≠ 0 → phys d.buf.cap d.head (d.buf.cap - 1) = dst + (n - 1))
    (hsrc : ∀ o, o < n → ∃ m, m < l.length ∧ phys d.buf.cap d.head m = src + o ∧
      l[m]? = xs[n - 1 - o]?) (s : σ) :
    Clones clone s xs (fun d' ys => Sized t d' (ys.reverse ++ l) ∧ d'.buf.cap = d.buf.cap) (do
        let r ← write_clones none clone src dst (longer_front_wrapping d.buf.cap)
          ((range n).reverse.take 1) s d
        after_loop r
          (write_clones none clone src dst longer_front ((range n).reverse.drop 1))) := by
  cases n with
  | zero =>
    obtain rfl : xs = [] := length_eq_zero_iff.1 hn
    exact ⟨d, rfl, h, rfl⟩
  | succ n =>
    cases xs with
    | nil => cases hn
    | cons x xs =>
      have hat := hdst (succ_ne_zero n)
      rw [Nat.add_sub_cancel] at hat
      rw [range_succ, reverse_append, reverse_singleton, singleton_append,
        take_succ_cons, take_zero, drop_succ_cons, drop_zero, ← singleton_append]
      -- the first clone, after which the head is in place
      refine .append (P := fun d' ys => Sized t d' (ys.reverse ++ l) ∧ d'.buf.cap = d.buf.cap ∧
        (ys.length = 1 → d'.head = dst + n ∧ ∃ y, ys = [y]))
        (.cons (read_source h hsrc) ⟨h, rfl, nofun⟩ fun s' y => ?_)
        (fun d' ys _ hP => ⟨hP.1, hP.2.1⟩) ?_
      · obtain ⟨mem, hwrite, hs⟩ := h.write_front (by lia) y
        rw [hat] at hwrite hs
        have hstep : longer_front_wrapping d.buf.cap (d.withMem mem) =
            .ok { d.withMem mem with head := dst + n, len := d.len + 1 } := by
          unfold longer_front_wrapping longer_front
          rw [show (d.withMem mem).head = d.head from rfl]
          by_cases hzero : d.head = 0
          · rw [phys_of_lt (by lia)] at hat
            rw [if_pos hzero, if_neg (by simp only; lia), ← hat]
            simp [hzero, withMem]
          · rw [phys_of_ge (by lia)] at hat
            rw [if_neg hzero, if_neg (by exact hzero), ← hat]
            simp only [withMem]
            congr 2
            lia
        exact ⟨_, _, hwrite, hstep, _, rfl, hs, rfl, fun _ => ⟨rfl, y, rfl⟩⟩
      · rintro s' d1 ys hys ⟨hs, hcap1, hy⟩
        obtain ⟨hhead1, y, rfl⟩ := hy hys
        have hl : l.length < d.buf.cap := by rw [h.length]; lia
        have hlen1 := hs.length
        have hsrc1 := shifted_source (y := y) hl (h.head_lt.resolve_right (by lia)) hat hsrc
        rw [← hcap1, ← hhead1] at hsrc1
        refine (write_clones_front hs clone src dst xs (succ.inj hn) ?_ (fun _ => hhead1) hsrc1
          s').imp ?_
        · rw [← hlen1, reverse_singleton, singleton_append, length_cons, h.length]
          lia
        · rintro d' zs - ⟨hs', hcap', -⟩
          exact ⟨by rwa [reverse_append, append_assoc], hcap'.trans hcap1⟩

/-- An element of a reversed block. -/
theorem getElem?_reverse_block (l : List α) {i c o : ℕ} (hc : i + c ≤ l.length) (ho : o < c) :
    ((l.drop i).take c).reverse[c - 1 - o]? = l[i + o]? := by
  have hlength : ((l.drop i).take c).length = c := by
    rw [length_take, length_drop]
    lia
  rw [getElem?_reverse (by lia), hlength, show c - 1 - (c - 1 - o) = o by lia,
    getElem?_take, if_pos ho, getElem?_drop]

/-- **Prepending clones** of a range, which are made from its last element on. -/
theorem Sized.spec_prepend_from_within (h : Sized t d l) {i j : ℕ}
    (hij : i ≤ j) (hj : j ≤ l.length) (hroom : d.len + (j - i) ≤ d.buf.cap)
    (clone : Clone σ α) (s : σ) :
    Clones clone s ((l.drop i).take (j - i)).reverse
      (fun d' ys => Sized t d' (ys.reverse ++ l) ∧ d'.buf.cap = d.buf.cap)
      (spec_prepend_from_within t none clone s d i j) := by
  have hlen := h.length
  obtain ⟨n, rfl⟩ := Nat.exists_eq_add_of_le hij
  have hcount := Nat.add_sub_cancel_left i n
  rw [hcount] at hroom ⊢
  unfold VecDeque.spec_prepend_from_within
  dsimp only
  rw [hcount]
  clear hij hcount
  by_cases h0 : n = 0
  · have hranges : ∀ head, d.nonoverlapping_ranges t none i 0 0 head =
        (⟨d.wrap_add t none head i, d.wrap_add t none head 0, 0⟩, ⟨0, 0, 0⟩) := by
      simp [nonoverlapping_ranges]
    rw [h0]
    simp only [hranges, Nat.add_zero]
    exact ⟨d, rfl, h, rfl⟩
  have hhead := h.head_lt.resolve_right (by lia)
  have hsub := wrap_sub_eq h.cap_le hhead.le (show n ≤ d.buf.cap by lia)
  have hback : ∀ m, n + m < d.buf.cap →
      phys d.buf.cap (phys d.buf.cap d.head (d.buf.cap - n)) (n + m) =
        phys d.buf.cap d.head m := fun m hm => phys_back hhead (by lia) hm
  have hnew := phys_lt hhead (show d.buf.cap - n ≤ d.buf.cap by lia)
  have hzero : phys d.buf.cap d.head 0 = d.head := by rw [phys_of_lt (by lia), Nat.add_zero]
  rw [hsub]
  generalize phys d.buf.cap d.head (d.buf.cap - n) = new_head at hback hnew ⊢
  have hplan := nonoverlapping_ranges_plan (t := t) (i + n) 0
    n h.cap_le hnew (by lia) (by lia) (by lia)
  generalize d.nonoverlapping_ranges t none (i + n) 0 n new_head = r at hplan ⊢
  have hcounts := hplan.counts
  have hend : phys d.buf.cap new_head n = d.head := by
    have := hback 0 (by lia)
    rwa [Nat.add_zero, hzero] at this
  rw [← hcounts, range_cut, reverse_append]
  refine .append (write_clones_front h clone r.2.src
    r.2.dst ((l.drop (i + r.1.count)).take r.2.count).reverse (n := r.2.count)
    (by rw [length_reverse, length_take, length_drop]; lia) (by lia)
    (fun hne => by rw [← hplan.end_snd (by lia), Nat.zero_add, hend])
    (fun o ho => ?_) s) (fun d' ys _ hP => ⟨hP.1, hP.2.1⟩) ?_
  · refine ⟨i + r.1.count + o, by lia, ?_, (getElem?_reverse_block l (by lia) ho).symm⟩
    rw [← hback _ (by lia), ← hplan.src_snd o ho]
    congr 1
    lia
  rintro s' d1 ys hys ⟨hs1, hcap1, hhead1⟩
  have hlen1 := hs1.length
  rw [length_reverse, length_take, length_drop] at hys
  rw [length_append, length_reverse, hys] at hlen1
  rw [hys] at hhead1
  have hnow : d1.head = phys d.buf.cap new_head r.1.count := by
    by_cases hc : r.2.count = 0
    · rw [show r.1.count = n by lia, hend]
      lia
    · have := hplan.dst_snd 0 (by lia)
      have hend' := hplan.end_snd (by lia)
      rw [Nat.zero_add, hend] at hend'
      rw [Nat.zero_add, Nat.add_zero, Nat.add_zero] at this
      rw [this]
      lia
  rw [capacity_none, ← hcap1]
  refine (write_clones_front_wrapping hs1 clone r.1.src
    r.1.dst ((l.drop i).take r.1.count).reverse (n := r.1.count)
    (by rw [length_reverse, length_take, length_drop]; lia) (by lia)
    (fun hne => ?_) (fun o ho => ?_) s').imp ?_
  · rw [hcap1, hnow, ← hplan.dst_fst _ (sub_lt (Nat.pos_of_ne_zero hne) Nat.one_pos),
      Nat.zero_add, phys_step_back hnew hne (by lia)]
  · refine ⟨r.2.count + (i + o), ?_, ?_, ?_⟩
    · rw [length_append, length_reverse, hys]
      lia
    · rw [hcap1, hnow, phys_phys hnew (by lia), ← hplan.src_fst o ho]
      congr 1
      lia
    · rw [getElem?_reverse_block l (by lia) ho, getElem?_append_right
        (by rw [length_reverse, hys]; lia), length_reverse, hys]
      congr 1
      lia
  · rintro d' zs - ⟨hs', hcap'⟩
    exact ⟨by rwa [reverse_append, append_assoc], hcap'⟩

/-! ## Copying instead of cloning -/

theorem copy_range_eq {r : CopyRange} (h : r.src + r.count ≤ d.buf.cap ∧
    r.dst + r.count ≤ d.buf.cap ∧ (r.src + r.count ≤ r.dst ∨ r.dst + r.count ≤ r.src)) :
    d.copy_range none r = .ok (d.withMem (RawVec.moved d.buf.mem r.src r.dst r.count)) := by
  unfold copy_range copy_nonoverlapping
  rw [if_pos (h.2.2.imp_right Or.inl), copy_eq h.1 h.2.1]

/-- The two blocks copied one after the other. -/
theorem Plan.copy {src dst count : ℕ} {r : CopyRange × CopyRange}
    (h : Plan d.buf.cap head src dst count r)
    (hsrc : src + count ≤ d.buf.cap) (hdst : dst + count ≤ d.buf.cap)
    (hapart : src + count ≤ dst ∨ dst + count ≤ src) :
    ∃ mem mem', d.copy_range none r.1 = .ok (d.withMem mem) ∧
      (d.withMem mem).copy_range none r.2 = .ok (d.withMem mem') ∧
      ∀ m, m < d.buf.cap → mem' (phys d.buf.cap head m) =
        if dst ≤ m ∧ m < dst + count then d.buf.mem (phys d.buf.cap head (src + (m - dst)))
        else d.buf.mem (phys d.buf.cap head m) := by
  have hcounts := h.counts
  -- which of the cells that are written a place counted from the head is
  have hfst : ∀ m, m < d.buf.cap → (r.1.dst ≤ phys d.buf.cap head m ∧
      phys d.buf.cap head m < r.1.dst + r.1.count ↔ dst ≤ m ∧ m < dst + r.1.count) := by
    intro m hm
    constructor
    · rintro ⟨hge, hlt⟩
      have heq := h.dst_fst (phys d.buf.cap head m - r.1.dst) (by lia)
      rw [add_sub_of_le hge] at heq
      have := phys_inj (by lia) hm heq
      lia
    · rintro ⟨hge, hlt⟩
      have heq := h.dst_fst (m - dst) (by lia)
      rw [add_sub_of_le hge] at heq
      lia
  have hsnd : ∀ m, m < d.buf.cap → (r.2.dst ≤ phys d.buf.cap head m ∧
      phys d.buf.cap head m < r.2.dst + r.2.count ↔
        dst + r.1.count ≤ m ∧ m < dst + r.1.count + r.2.count) := by
    intro m hm
    constructor
    · rintro ⟨hge, hlt⟩
      have heq := h.dst_snd (phys d.buf.cap head m - r.2.dst) (by lia)
      rw [add_sub_of_le hge] at heq
      have := phys_inj (by lia) hm heq
      lia
    · rintro ⟨hge, hlt⟩
      have heq := h.dst_snd (m - (dst + r.1.count)) (by lia)
      rw [add_sub_of_le hge] at heq
      lia
  refine ⟨_, _, copy_range_eq h.copy_fst, copy_range_eq (d := d.withMem _) h.copy_snd,
    fun m hm => ?_⟩
  simp only [withMem_mem, RawVec.moved]
  by_cases h2 : dst + r.1.count ≤ m ∧ m < dst + r.1.count + r.2.count
  · have hread := h.src_snd (m - (dst + r.1.count)) (by lia)
    have hat := (hsnd m hm).2 h2
    have heq := h.dst_snd (m - (dst + r.1.count)) (by lia)
    rw [add_sub_of_le h2.1] at heq
    rw [if_pos hat, show r.2.src + (phys d.buf.cap head m - r.2.dst) =
        phys d.buf.cap head (src + r.1.count + (m - (dst + r.1.count))) by lia,
      if_neg (fun hc => by have := (hfst _ (by lia)).1 hc; lia), if_pos (by lia)]
    congr 2
    lia
  · rw [if_neg (fun hc => h2 ((hsnd m hm).1 hc))]
    by_cases h1 : dst ≤ m ∧ m < dst + r.1.count
    · have hread := h.src_fst (m - dst) (by lia)
      have hat := (hfst m hm).2 h1
      have heq := h.dst_fst (m - dst) (by lia)
      rw [add_sub_of_le h1.1] at heq
      rw [if_pos hat, if_pos (by lia)]
      congr 1
      lia
    · rw [if_neg (fun hc => h1 ((hfst m hm).1 hc)), if_neg (by lia)]

/-- Where nothing is allocated, nothing is copied. -/
theorem copy_nothing (hcap : d.buf.cap = 0) :
    d.nonoverlapping_ranges t none 0 0 0 0 = (⟨0, 0, 0⟩, ⟨0, 0, 0⟩) ∧
      d.copy_range none ⟨0, 0, 0⟩ = .ok d := by
  constructor
  · have hwrap : d.wrap_add t none 0 0 = 0 := by
      rw [wrap_add_eq (by lia), phys_of_ge (by lia)]
      lia
    simp [nonoverlapping_ranges, hwrap]
  · rw [copy_range_eq (by simp), moved_self]
    rfl

theorem Sized.spec_extend_from_within_trivial (h : Sized t d l)
    {i j : ℕ} (hij : i ≤ j) (hj : j ≤ l.length) (hroom : d.len + (j - i) ≤ d.buf.cap) :
    ∃ d', d.spec_extend_from_within_trivial t none i j = .ok d' ∧
      Sized t d' (l ++ (l.drop i).take (j - i)) ∧ d'.buf.cap = d.buf.cap ∧ d'.head = d.head := by
  have hlen := h.length
  unfold VecDeque.spec_extend_from_within_trivial
  rcases h.head_lt with hhead | ⟨hhead, hcap⟩
  · have hplan := nonoverlapping_ranges_plan (t := t) i d.len (j - i)
      h.cap_le hhead (by lia) hroom (by lia)
    obtain ⟨mem, mem', hcopy, hcopy', hmem⟩ := hplan.copy (by lia) hroom (by lia)
    dsimp only
    rw [hcopy, bind_ok, hcopy', bind_ok]
    refine ⟨_, rfl, ⟨?_, hroom, h.head_lt, h.cap_le, fun m hm => ?_⟩, rfl, rfl⟩
    · simp only [length_append, length_take, length_drop, withMem]
      lia
    · simp only [withMem] at hm ⊢
      rw [hmem m (by lia), getElem?_append]
      by_cases hlt : m < l.length
      · rw [if_neg (by lia), if_pos hlt, h.cells m (by lia)]
      · rw [if_pos (by lia), if_neg hlt, getElem?_take, if_pos (by lia),
          getElem?_drop, h.cells _ (by lia), hlen]
  · -- nothing is allocated
    obtain ⟨hranges, hcopy⟩ := copy_nothing (t := t) hcap
    have hlen0 : d.len = 0 := by lia
    have hi : i = 0 := by lia
    have hj : j = 0 := by lia
    subst hi hj
    have hhere : d.nonoverlapping_ranges t none 0 d.len (0 - 0) d.head =
        (⟨0, 0, 0⟩, ⟨0, 0, 0⟩) := by rw [hlen0, hhead, hranges]
    dsimp only
    rw [hhere, hcopy, bind_ok, hcopy, bind_ok]
    exact ⟨d, rfl, by rwa [Nat.sub_self, take_zero, append_nil], rfl, rfl⟩

theorem Sized.spec_prepend_from_within_trivial (h : Sized t d l)
    {i j : ℕ} (hij : i ≤ j) (hj : j ≤ l.length) (hroom : d.len + (j - i) ≤ d.buf.cap) :
    ∃ d', d.spec_prepend_from_within_trivial t none i j = .ok d' ∧
      Sized t d' ((l.drop i).take (j - i) ++ l) ∧ d'.buf.cap = d.buf.cap := by
  have hlen := h.length
  unfold VecDeque.spec_prepend_from_within_trivial
  rcases h.head_lt with hhead | ⟨hhead, hcap⟩
  · have hsub := wrap_sub_eq h.cap_le hhead.le (show j - i ≤ d.buf.cap by lia)
    have hnew := phys_lt hhead (show d.buf.cap - (j - i) ≤ d.buf.cap by lia)
    have hplan := nonoverlapping_ranges_plan (t := t) (i + (j - i)) 0
      (j - i) h.cap_le hnew (by lia) (by lia) (by lia)
    obtain ⟨mem, mem', hcopy, hcopy', hmem⟩ :=
      hplan.copy (by lia) (by lia) (by lia)
    dsimp only
    rw [hsub, hcopy, Exec.bind_ok, hcopy', Exec.bind_ok]
    refine ⟨_, rfl, ⟨?_, hroom, Or.inl hnew, h.cap_le, fun m hm => ?_⟩, rfl⟩
    · simp only [length_append, length_take, length_drop, withMem]
      lia
    have hlength : ((l.drop i).take (j - i)).length = j - i := by
      rw [length_take, length_drop]
      lia
    simp only [withMem] at hm ⊢
    rw [hmem m (by lia), getElem?_append, hlength]
    by_cases hlt : m < j - i
    · rw [if_pos (by lia), if_pos hlt, getElem?_take, if_pos hlt, getElem?_drop,
        ← h.cells (i + m) (by lia),
        show i + (j - i) + (m - 0) = (j - i) + (i + m) by lia,
        phys_back hhead (by lia) (by lia)]
    · have hpos := phys_back hhead (show j - i ≤ d.buf.cap by lia)
        (show (j - i) + (m - (j - i)) < d.buf.cap by lia)
      rw [add_sub_of_le (not_lt.1 hlt)] at hpos
      rw [if_neg (by lia), if_neg hlt, hpos, h.cells _ (by lia)]
  · -- nothing is allocated
    obtain ⟨hranges, hcopy⟩ := copy_nothing (t := t) hcap
    have hi : i = 0 := by lia
    have hj : j = 0 := by lia
    subst hi hj
    have hsub : d.wrap_sub t none 0 0 = 0 := by
      rw [wrap_sub_eq (by lia) (by lia) (by lia), phys_of_ge (by lia)]
      lia
    dsimp only
    rw [hhead, Nat.sub_self, hsub, hranges, hcopy, Exec.bind_ok, hcopy, Exec.bind_ok,
      take_zero, add_zero]
    exact ⟨_, rfl, hhead ▸ h, rfl⟩

/-! ## Zero-sized elements -/

section ZeroSized

variable {u : α}

theorem copy_range_some (d : VecDeque α) (r : CopyRange) : d.copy_range (some u) r = .ok d := by
  simp [copy_range, copy_nonoverlapping, copy]

/-- The two blocks together are as long as the range. -/
theorem nonoverlapping_ranges_counts (zst : Option α) (d : VecDeque α) (src dst count head : ℕ) :
    (d.nonoverlapping_ranges t zst src dst count head).1.count +
      (d.nonoverlapping_ranges t zst src dst count head).2.count = count := by
  unfold nonoverlapping_ranges
  simp only [decide_eq_true_eq]
  split_ifs <;> dsimp only <;> lia

theorem write_clones_back_some (hu : ∀ x, x = u) (d : VecDeque α) (src dst : ℕ) {offsets : List ℕ}
    {xs : List α} (hn : xs.length = offsets.length) (s : σ) :
    Clones clone s xs (fun d' ys => d'.len = d.len + ys.length ∧ d'.head = d.head)
      (write_clones (some u) clone src dst longer offsets s d) := by
  induction offsets generalizing d xs s with
  | nil =>
    obtain rfl : xs = [] := length_eq_zero_iff.1 hn
    exact ⟨d, rfl, rfl, rfl⟩
  | cons o offsets ih =>
    cases xs with
    | nil => cases hn
    | cons x xs =>
      rw [hu x]
      refine .cons (buffer_read_some ..) ⟨rfl, rfl⟩ fun s' y =>
        ⟨_, _, buffer_write_some .., rfl, (ih _ (succ.inj hn) s').imp ?_⟩
      rintro d' ys - ⟨hlen, hhead⟩
      exact ⟨by rw [hlen, length_cons, add_assoc, add_comm 1], hhead⟩

theorem write_clones_front_some (hu : ∀ x, x = u) (d : VecDeque α) (src dst : ℕ)
    {offsets : List ℕ} (xs : List α) (hn : xs.length = offsets.length)
    (hhead : offsets.length ≤ d.head) (s : σ) :
    Clones clone s xs (fun d' ys => d'.len = d.len + ys.length ∧ d'.head + ys.length = d.head)
      (write_clones (some u) clone src dst longer_front offsets s d) := by
  induction offsets generalizing d xs s with
  | nil =>
    obtain rfl : xs = [] := length_eq_zero_iff.1 hn
    exact ⟨d, rfl, rfl, rfl⟩
  | cons o offsets ih =>
    cases xs with
    | nil => cases hn
    | cons x xs =>
      rw [length_cons] at hhead
      rw [hu x]
      refine .cons (buffer_read_some ..) ⟨rfl, rfl⟩ fun s' y =>
        ⟨_, _, buffer_write_some .., if_neg (by lia),
          (ih _ xs (succ.inj hn) (by simp only; lia) s').imp ?_⟩
      rintro d' ys - ⟨hlen, hhead'⟩
      simp only [length_cons] at hlen hhead' ⊢
      lia

/-- The loop that starts with a head that may have to wrap around. -/
theorem write_clones_front_wrapping_some (clone : Clone σ α) (hu : ∀ x, x = u) (d : VecDeque α)
    (src dst cap n : ℕ) {xs : List α} (hn : xs.length = n) (hhead : d.head = 0 ∨ n ≤ d.head)
    (hcap : n ≤ cap) (hlt : d.head < cap) (s : σ) :
    Clones clone s xs (fun d' ys => d'.len = d.len + ys.length ∧ d'.head < cap) (do
      let r ← write_clones (some u) clone src dst (longer_front_wrapping cap)
        ((range n).reverse.take 1) s d
      after_loop r (write_clones (some u) clone src dst longer_front
        ((range n).reverse.drop 1))) := by
  cases n with
  | zero =>
    obtain rfl : xs = [] := length_eq_zero_iff.1 hn
    exact ⟨d, rfl, rfl, hlt⟩
  | succ n =>
    cases xs with
    | nil => cases hn
    | cons x xs =>
      rw [range_succ, reverse_append, reverse_singleton, singleton_append,
        take_succ_cons, take_zero, drop_succ_cons, drop_zero, hu x, ← singleton_append]
      refine .append (P := fun d' ys => d'.len = d.len + ys.length ∧ d'.head < cap ∧
        (ys.length = 1 → n ≤ d'.head)) (.cons (buffer_read_some ..) ⟨rfl, hlt, nofun⟩
        fun s' y => ?_) (fun d' ys _ hP => ⟨hP.1, hP.2.1⟩) ?_
      · have hstep : ∃ head, longer_front_wrapping cap d =
            .ok { d with head := head, len := d.len + 1 } ∧ n ≤ head ∧ head < cap := by
          unfold longer_front_wrapping longer_front
          by_cases h0 : d.head = 0
          · rw [if_pos h0, if_neg (by simp only; lia)]
            exact ⟨cap - 1, rfl, by lia, by lia⟩
          · rw [if_neg h0, if_neg h0]
            exact ⟨d.head - 1, rfl, by lia, by lia⟩
        obtain ⟨head, hstep, hle, hlt'⟩ := hstep
        exact ⟨_, _, buffer_write_some .., hstep, _, rfl, rfl, hlt', fun _ => hle⟩
      · rintro s' d1 ys hys ⟨hlen1, hlt1, hle1⟩
        refine (write_clones_front_some hu _ src dst xs (by simpa using hn)
          (by simpa using hle1 hys) s').imp ?_
        rintro d' zs - ⟨hlen, hhead'⟩
        rw [length_append]
        lia

namespace ZeroSized

variable {d : VecDeque α} {l : List α}

theorem spec_extend_from_within (hu : ∀ x, x = u) (h : ZeroSized t d l) {i j : ℕ} (hij : i ≤ j)
    (hj : j ≤ l.length) (hroom : d.len + (j - i) ≤ t.usizeMax) (clone : Clone σ α) (s : σ) :
    Clones clone s ((l.drop i).take (j - i)) (fun d' ys => ZeroSized t d' (l ++ ys))
      (VecDeque.spec_extend_from_within t (some u) clone s d i j) := by
  have hlen := h.length
  have hcounts := nonoverlapping_ranges_counts (t := t) (some u) d i d.len (j - i) d.head
  unfold VecDeque.spec_extend_from_within
  dsimp only
  generalize d.nonoverlapping_ranges t (some u) i d.len (j - i) d.head = r at hcounts ⊢
  rw [← hcounts, range_cut]
  have hfst : ((l.drop i).take r.1.count).length = (range r.1.count).length := by
    rw [length_take, length_drop, length_range]
    lia
  have hsnd : ((l.drop (i + r.1.count)).take r.2.count).length = (range r.2.count).length := by
    rw [length_take, length_drop, length_range]
    lia
  have hdone : ∀ (d' : VecDeque α) (ys : List α), ys.length ≤ j - i →
      d'.len = d.len + ys.length ∧ d'.head = d.head → ZeroSized t d' (l ++ ys) := by
    rintro d' ys hle ⟨hlen', hhead'⟩
    exact ⟨by rw [length_append]; lia, by lia, hhead' ▸ h.head_lt⟩
  rw [length_range] at hfst hsnd
  refine .append (write_clones_back_some hu d _ _ (by rwa [length_range]) s)
    (fun d' ys hle => hdone d' ys (by lia)) ?_
  rintro s' d1 ys hys ⟨hlen1, hhead1⟩
  refine (write_clones_back_some hu d1 _ _ (by rwa [length_range]) s').imp ?_
  rintro d' zs hle ⟨hlen', hhead'⟩
  refine hdone _ _ ?_ ⟨?_, hhead'.trans hhead1⟩
  all_goals rw [length_append]
  all_goals lia

/-- Either the head is past the elements that go in front of it, or the second block ends there. -/
theorem prepend_counts (h : ZeroSized t d l) {i : ℕ} (count : ℕ) (hj : i + count ≤ l.length)
    (hroom : d.len + count ≤ t.usizeMax) (hlt : d.head < count) :
    (d.nonoverlapping_ranges t (some u) (i + count) 0 count
      (d.wrap_sub t (some u) d.head count)).2.count = d.head := by
  have hlen := h.length
  have hmax : t.usizeMax = t.usizeCard - 1 := rfl
  have hcap : d.capacity t (some u) = t.usizeMax := by simp [capacity]
  have hnew : d.wrap_sub t (some u) d.head count = t.usizeMax + d.head - count := by
    have hval : t.wrap (t.wrappingSub d.head count + t.usizeMax) = t.usizeMax + d.head - count := by
      rw [Target.wrap, Target.wrappingSub, mod_eq_of_lt (show count < t.usizeCard by lia),
        mod_add_mod, show d.head + (t.usizeCard - count) + t.usizeMax =
          t.usizeMax + d.head - count + t.usizeCard by lia, add_mod_right,
        mod_eq_of_lt (by lia)]
    rw [wrap_sub, hcap, hval]
    exact if_neg (by lia)
  have hsrc :
      t.usizeMax - d.wrap_add t (some u) (t.usizeMax + d.head - count) (i + count) ≥ count := by
    have hsum : t.usizeMax + d.head - count + (i + count) = t.usizeMax + (d.head + i) := by lia
    rw [wrap_add, hcap, hsum]
    unfold wrap_index Target.wrap
    by_cases h0 : d.head + i = 0
    · rw [h0, add_zero, mod_eq_of_lt (by lia), if_pos le_rfl]
      lia
    · rw [show t.usizeMax + (d.head + i) = d.head + i - 1 + t.usizeCard by lia, add_mod_right,
        mod_eq_of_lt (by lia), if_neg (by lia)]
      lia
  have hdst : d.wrap_add t (some u) (t.usizeMax + d.head - count) 0 =
      t.usizeMax + d.head - count := by
    rw [wrap_add, hcap, add_zero, Target.wrap_of_lt (by lia)]
    exact if_neg (by lia)
  unfold nonoverlapping_ranges
  simp only [hnew, hcap, hdst, decide_eq_true_eq, if_neg (not_lt.2 hsrc)]
  split_ifs <;> dsimp only <;> lia

theorem spec_prepend_from_within (hu : ∀ x, x = u) (h : ZeroSized t d l) {i j : ℕ} (hij : i ≤ j)
    (hj : j ≤ l.length) (hroom : d.len + (j - i) ≤ t.usizeMax) (clone : Clone σ α) (s : σ) :
    Clones clone s ((l.drop i).take (j - i)).reverse (fun d' ys => ZeroSized t d' (ys.reverse ++ l))
      (VecDeque.spec_prepend_from_within t (some u) clone s d i j) := by
  have hlen := h.length
  have hhead := h.head_lt
  have hcap : d.capacity t (some u) = t.usizeMax := by simp [capacity]
  have hcounts := nonoverlapping_ranges_counts (t := t) (some u) d (i + (j - i)) 0 (j - i)
    (d.wrap_sub t (some u) d.head (j - i))
  have hfront := h.prepend_counts (u := u) (i := i) (j - i) (by lia) hroom
  unfold VecDeque.spec_prepend_from_within
  dsimp only
  generalize d.nonoverlapping_ranges t (some u) (i + (j - i)) 0 (j - i)
    (d.wrap_sub t (some u) d.head (j - i)) = r at hcounts hfront ⊢
  rw [← hcounts, range_cut, reverse_append]
  have hfst : ((l.drop i).take r.1.count).reverse.length = r.1.count := by
    rw [length_reverse, length_take, length_drop]
    lia
  have hsnd : ((l.drop (i + r.1.count)).take r.2.count).reverse.length = r.2.count := by
    rw [length_reverse, length_take, length_drop]
    lia
  have hdone : ∀ (d' : VecDeque α) (ys : List α), ys.length ≤ j - i → d'.len = d.len + ys.length →
      d'.head < t.usizeMax → ZeroSized t d' (ys.reverse ++ l) := by
    intro d' ys hle hlen' hhead'
    exact ⟨by rw [length_append, length_reverse]; lia, by lia, hhead'⟩
  refine .append (write_clones_front_some hu d _ _ _ (by rw [hsnd, length_reverse, length_range]) ?_
    s) (fun d' ys hle hP => hdone _ _ (by lia) hP.1 (by lia)) ?_
  · rw [length_reverse, length_range]
    by_cases hlt : d.head < j - i
    · rw [hfront hlt]
    · lia
  rintro s' d1 ys hys ⟨hlen1, hhead1⟩
  rw [hcap]
  refine (write_clones_front_wrapping_some clone hu d1 _ _ _ _ hfst ?_ (by lia) (by lia)
    s').imp ?_
  · by_cases hlt : d.head < j - i
    · left
      have := hfront hlt
      lia
    · lia
  · rintro d' zs hle ⟨hlen', hhead'⟩
    refine hdone _ _ ?_ ?_ hhead'
    all_goals rw [length_append]
    all_goals lia

end ZeroSized

end ZeroSized

/-! ## Both -/

/-- Clones that are copies. -/
theorem clones_copies (hcopy : ∀ s x, (clone s x).2 = some x) (s : σ) (xs : List α) :
    (clones clone s xs).1.1 = xs ∧ (clones clone s xs).2 = .returned := by
  induction xs generalizing s with
  | nil => exact ⟨rfl, rfl⟩
  | cons x xs ih =>
    have hx : clone s x = ((clone s x).1, some x) := Prod.ext rfl (hcopy s x)
    obtain ⟨hxs, hexit⟩ := ih (clone s x).1
    rw [clones, hx]
    exact ⟨congrArg (x :: ·) hxs, hexit⟩

/-- **Copying from within** appends, or prepends, the clones of a range in its order, as far as
cloning got; a range of elements that are copies of themselves is copied whole, in blocks too. -/
theorem copy_from_within {zst : Option α} (hz : ∀ u, zst = some u → ∀ x, x = u) {d : VecDeque α}
    {l : List α} (h : Holds t zst d l) {i j : ℕ} (hij : i ≤ j) (hj : j ≤ l.length)
    (hroom : d.len + (j - i) ≤ d.capacity t zst) :
    (∀ (σ : Type) (clone : Clone σ α) (s : σ), ∃ d' d'',
      spec_extend_from_within t zst clone s d i j =
        .ok ((d', (clones clone s ((l.drop i).take (j - i))).1.2),
          (clones clone s ((l.drop i).take (j - i))).2) ∧
      Holds t zst d' (l ++ (clones clone s ((l.drop i).take (j - i))).1.1) ∧
      spec_prepend_from_within t zst clone s d i j =
        .ok ((d'', (clones clone s ((l.drop i).take (j - i)).reverse).1.2),
          (clones clone s ((l.drop i).take (j - i)).reverse).2) ∧
      Holds t zst d'' ((clones clone s ((l.drop i).take (j - i)).reverse).1.1.reverse ++ l) ∧
      ((∀ s x, (clone s x).2 = some x) → Holds t zst d' (l ++ (l.drop i).take (j - i)) ∧
        Holds t zst d'' ((l.drop i).take (j - i) ++ l))) ∧
    ∃ d' d'', d.spec_extend_from_within_trivial t zst i j = .ok d' ∧
      Holds t zst d' (l ++ (l.drop i).take (j - i)) ∧
      d.spec_prepend_from_within_trivial t zst i j = .ok d'' ∧
      Holds t zst d'' ((l.drop i).take (j - i) ++ l) := by
  have hextend : ∀ (σ : Type) (clone : Clone σ α) (s : σ), Clones clone s ((l.drop i).take (j - i))
      (fun d' ys => Holds t zst d' (l ++ ys)) (spec_extend_from_within t zst clone s d i j) := by
    intro σ clone s
    cases zst with
    | none =>
      rw [capacity_none] at hroom
      exact (Sized.spec_extend_from_within h hij hj hroom clone s).imp fun _ _ _ h => h.1
    | some u =>
      exact ZeroSized.spec_extend_from_within (hz u rfl) h hij hj
        (by simpa [capacity] using hroom) clone s
  have hprepend : ∀ (σ : Type) (clone : Clone σ α) (s : σ),
      Clones clone s ((l.drop i).take (j - i)).reverse
        (fun d' ys => Holds t zst d' (ys.reverse ++ l))
        (spec_prepend_from_within t zst clone s d i j) := by
    intro σ clone s
    cases zst with
    | none =>
      rw [capacity_none] at hroom
      exact (Sized.spec_prepend_from_within h hij hj hroom clone s).imp fun _ _ _ h => h.1
    | some u =>
      exact ZeroSized.spec_prepend_from_within (hz u rfl) h hij hj
        (by simpa [capacity] using hroom) clone s
  constructor
  · intro σ clone s
    obtain ⟨d', hd', hl⟩ := hextend σ clone s
    obtain ⟨d'', hd'', hl'⟩ := hprepend σ clone s
    refine ⟨d', d'', hd', hl, hd'', hl', fun hcopy => ⟨?_, ?_⟩⟩
    · rwa [(clones_copies hcopy s _).1] at hl
    · rwa [(clones_copies hcopy s _).1, reverse_reverse] at hl'
  cases zst with
  | none =>
    rw [capacity_none] at hroom
    obtain ⟨d', hd', hl, -, -⟩ := Sized.spec_extend_from_within_trivial h hij hj hroom
    obtain ⟨d'', hd'', hl', -⟩ := Sized.spec_prepend_from_within_trivial h hij hj hroom
    exact ⟨d', d'', hd', hl, hd'', hl'⟩
  | some u =>
    have hlen := h.length
    unfold VecDeque.spec_extend_from_within_trivial VecDeque.spec_prepend_from_within_trivial
    simp only [copy_range_some, bind_ok]
    refine ⟨_, _, rfl, ⟨?_, hroom, h.head_lt⟩, rfl, ?_, hroom, wrap_sub_lt d _ _⟩
    all_goals simp only [length_append, length_take, length_drop]
    all_goals omega

/-- A deque that wraps around, with a clone that panics the second time. -/
theorem copy_from_within_wrapped : (∃ d' d'', spec_extend_from_within ⟨3, false⟩ none
        (fun s x => (s + 1, if s = 1 then none else some (x + 10))) 0 wrapped 0 2 =
          .ok ((d', 2), .unwound) ∧
      Holds ⟨3, false⟩ none d' [0, 1, 10] ∧
      spec_prepend_from_within ⟨3, false⟩ none
        (fun s x => (s + 1, if s = 1 then none else some (x + 10))) 0 wrapped 0 2 =
          .ok ((d'', 2), .unwound) ∧
      Holds ⟨3, false⟩ none d'' [11, 0, 1]) ∧
    ∃ d' d'', wrapped.spec_extend_from_within_trivial ⟨3, false⟩ none 0 2 = .ok d' ∧
      Holds ⟨3, false⟩ none d' [0, 1, 0, 1] ∧
      wrapped.spec_prepend_from_within_trivial ⟨3, false⟩ none 0 2 = .ok d'' ∧
      Holds ⟨3, false⟩ none d'' [0, 1, 0, 1] := by
  obtain ⟨hclones, htrivial⟩ := copy_from_within (by simp) wrapped_holds (i := 0) (j := 2)
    (by decide) (by decide) (by decide)
  obtain ⟨d', d'', hd', hl, hd'', hl', -⟩ := hclones ℕ
    (fun s x => (s + 1, if s = 1 then none else some (x + 10))) 0
  exact ⟨⟨d', d'', hd', hl, hd'', hl'⟩, htrivial⟩

end RustStd.VecDeque
