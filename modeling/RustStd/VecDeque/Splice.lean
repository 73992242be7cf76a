import RustStd.VecDeque.Drain

/-!
# Splicing

`splice` drains a range and, when it is dropped, puts the elements of another iterator in its place:
first into the hole, then, when there are more, into room that `move_tail` makes for the lower bound
of the iterator's size, and for the exact number last. `move_tail` reallocates the buffer without
moving the elements that wrap around, and passes logical positions on as positions in the buffer.
Both are right for a deque whose head is at the start of its buffer, and only for such a deque.

What the allocator returns for a number of cells is given by a function `alloc`. The
`debug_assert!`s of `Splice::drop` on the last filling are left out.
-/

namespace RustStd

open Exec

/-- The iterator of replacements: its elements, the lower bound that it reports when a number of
them is left, and whether its type promises that the bound is exact. -/
structure Replacements (α : Type) where
  items : List α
  lower : ℕ → ℕ
  trusted_len : Bool

/-- The bounds that the iterator reports are correct. -/
structure Replacements.Correct {α : Type} (r : Replacements α) : Prop where
  lower_le : ∀ k, r.lower k ≤ k
  exact : r.trusted_len = true → ∀ k, r.lower k = k

namespace RawVec

/-- `RawVec::reserve`, with `usize::MAX` as the capacity for zero-sized elements. -/
def reserve {α : Type} (t : Target) (zst : Option α) (v : RawVec α) (len additional c : ℕ) :
    Exec (RawVec α) :=
  let capacity := if zst.isSome then t.usizeMax else v.cap
  if additional > capacity - len then
    if zst.isSome then .error .panic else v.grow t (len + additional) c
  else .ok v

end RawVec

namespace VecDeque

open DoubleEnded List

variable {α : Type}

/-! ## The operations -/

section Model

variable (t : Target) (zst : Option α) (alloc : ℕ → ℕ)

def push_unchecked (d : VecDeque α) (element : α) : Exec (VecDeque α) := do
  let d ← d.buffer_write zst (d.to_physical_idx t zst d.len) element
  .ok { d with len := d.len + 1 }

/-- The two nested loops of `spec_extend`; `inner` says that the inner one is running, which pushes
without reserving as long as there is room. -/
def extend_loop (lower : ℕ → ℕ) : Bool → List α → VecDeque α → Exec (VecDeque α)
  | _, [], d => .ok d
  | inner, element :: rest, d => do
    let d ← (if inner ∧ d.len < d.capacity t zst then .ok d else
        let additional := min (lower rest.length + 1) t.usizeMax
        d.reserve t zst additional (alloc (d.len + additional)))
    let d ← d.push_unchecked t zst element
    extend_loop lower true rest d

/-- `extend`. An iterator whose length is trusted is written to the buffer in one go. -/
def extend (d : VecDeque α) (iter : Replacements α) : Exec (VecDeque α) :=
  if iter.trusted_len then do
    let additional := iter.items.length
    let d ← d.reserve t zst additional (alloc (d.len + additional))
    let d ← d.copy_slice t zst (d.to_physical_idx t zst d.len) iter.items
    .ok { d with len := d.len + additional }
  else extend_loop t zst alloc iter.lower false iter.items d

namespace Drain

/-- The loop of `fill` over the positions of the hole; and whether it got to their end. -/
def fill_loop : ℕ → Drain α → List α → Exec (Bool × Drain α × List α)
  | 0, self, items => .ok (true, self, items)
  | _ + 1, self, [] => .ok (false, self, [])
  | n + 1, self, new_item :: items => do
    let index := self.deque.to_physical_idx t zst self.deque.len
    let deque ← self.deque.buffer_write zst index new_item
    fill_loop n
      { self with deque := { deque with len := deque.len + 1 }, drain_len := self.drain_len - 1 }
      items

def fill (self : Drain α) (items : List α) : Exec (Bool × Drain α × List α) :=
  fill_loop t zst self.drain_len self items

def move_tail (self : Drain α) (additional : ℕ) : Exec (Drain α) := do
  let deque := self.deque
  let tail_start := deque.len + self.drain_len
  let buf ← deque.buf.reserve t zst (tail_start + self.tail_len) additional
    (alloc (tail_start + self.tail_len + additional))
  let new_tail_start := tail_start + additional
  let deque ← wrap_copy t zst { deque with buf } tail_start new_tail_start self.tail_len
  .ok { self with deque, drain_len := self.drain_len + additional }

/-- `self.by_ref().for_each(drop)`: the elements dropped. -/
def exhaust : ℕ → Drain α → Exec (Drain α × List α)
  | 0, self => .ok (self, [])
  | n + 1, self => do
    let (x, self) ← self.next t zst
    let (self, dropped) ← exhaust n self
    .ok (self, x.toList ++ dropped)

end Drain

structure Splice (α : Type) where
  drain : Drain α
  replace_with : Replacements α

def splice (d : VecDeque α) (start_bound end_bound : Bound ℕ) (replace_with : Replacements α) :
    Exec (Splice α) := do
  .ok ⟨← d.drain start_bound end_bound, replace_with⟩

namespace Splice

/-- A call at either end. -/
def step (e : End) (self : Splice α) : Exec (Option α × Splice α) := do
  let (x, drain) ← Drain.step t zst e self.drain
  .ok (x, { self with drain })

/-- The last phase of `refill`, for what is left of the replacements. -/
def collect_rest (drain : Drain α) (collected : List α) : Exec (Drain α) :=
  if collected.length > 0 then do
    let drain ← drain.move_tail t zst alloc collected.length
    let (_, drain, _) ← drain.fill t zst collected
    .ok drain
  else .ok drain

/-- The body of `drop`, once nothing is left to drain. -/
def refill (drain : Drain α) (replace_with : Replacements α) : Exec (Drain α) :=
  if drain.tail_len = 0 then do
    let deque ← drain.deque.extend t zst alloc replace_with
    .ok { drain with deque }
  else do
    let (filled, drain, items) ← drain.fill t zst replace_with.items
    if !filled then .ok drain
    else
      let lower_bound := replace_with.lower items.length
      if lower_bound > 0 then do
        let drain ← drain.move_tail t zst alloc lower_bound
        let (filled, drain, items) ← drain.fill t zst items
        if !filled then .ok drain else collect_rest t zst alloc drain items
      else collect_rest t zst alloc drain items

/-- The deque, and the elements dropped. -/
def drop (self : Splice α) (needs_drop : Bool) : Exec (VecDeque α × List α) := do
  let (drain, dropped) ← self.drain.exhaust t zst self.drain.remaining
  let drain ← refill t zst alloc drain self.replace_with
  let (d, left) ← drain.drop t zst needs_drop
  .ok (d, (if needs_drop then dropped else []) ++ left)

end Splice

end Model

variable {t : Target} {alloc : ℕ → ℕ} {d : VecDeque α} {zst : Option α} {l : List α}

/-! ## Extending -/

/-- Writing one element where there is room. -/
theorem Holds.push_unchecked (h : Holds t zst d l) (hroom : d.len < d.capacity t zst) (x : α) :
    ∃ d', d.push_unchecked t zst x = .ok d' ∧ Holds t zst d' (l ++ [x]) := by
  unfold VecDeque.push_unchecked
  cases zst with
  | none =>
    obtain ⟨mem, hwrite, hs⟩ := h.write_back hroom x
    rw [h.physical hroom.le, hwrite, bind_ok]
    exact ⟨_, rfl, hs⟩
  | some u =>
    have hlen := h.length
    rw [buffer_write_some, bind_ok]
    refine ⟨_, rfl, ?_, hroom, h.head_lt⟩
    rw [length_append, length_singleton, hlen]

/-- Writing a list where there is room. -/
theorem Sized.append_slice (h : Sized t d l) {xs : List α} (hroom : d.len + xs.length ≤ d.buf.cap) :
    ∃ mem, d.copy_slice t none (d.to_physical_idx t none d.len) xs = .ok (d.withMem mem) ∧
      Sized t { d.withMem mem with len := d.len + xs.length } (l ++ xs) := by
  have hlen := h.length
  rw [h.physical (by lia)]
  rcases h.head_lt with hhead | ⟨hhead, h0⟩
  · obtain ⟨mem, hcopy, hmem⟩ := copy_slice_phys (t := t) hhead d.len xs hroom
    refine ⟨mem, hcopy, by simp [hlen], hroom, h.head_lt, h.cap_le, fun m hm => ?_⟩
    simp only [withMem] at hm ⊢
    rw [hmem m (by lia), getElem?_append, hlen]
    by_cases hml : m < d.len
    · rw [if_neg (by lia), if_pos hml, h.cells m hml]
    · rw [if_pos (by lia), if_neg hml]
  · -- nothing is allocated, and nothing written
    have hxs : xs = [] := length_eq_zero_iff.1 (by lia)
    subst hxs
    refine ⟨d.buf.mem, ?_, by rwa [append_nil]⟩
    have hphys : phys d.buf.cap d.head d.len ≤ d.buf.cap := by
      rw [phys_of_ge (by lia)]
      lia
    exact copy_slice_nil hphys

/-- Why an allocation for at most `n` elements panics. -/
def AllocFails (t : Target) (zst : Option α) (alloc : ℕ → ℕ) (n : ℕ) : Prop :=
  ∃ needed ≤ n, overflows t zst (needed, alloc needed)

theorem AllocFails.mono {n m : ℕ} (h : AllocFails t zst alloc n) (hle : n ≤ m) :
    AllocFails t zst alloc m := by
  obtain ⟨needed, hn, hover⟩ := h
  exact ⟨needed, hn.trans hle, hover⟩

/-- Reserving makes room for as many elements as asked, or panics. -/
theorem Holds.reserve (alloc : ℕ → ℕ)
    (h : Holds t zst d l) {additional n : ℕ} (hle : l.length + additional ≤ n) :
    PanicsOr (AllocFails t zst alloc n) (d.reserve t zst additional (alloc (d.len + additional)))
      fun d' => Holds t zst d' l ∧ d'.len + additional ≤ d'.capacity t zst := by
  cases zst with
  | none =>
    have hlen := h.length
    refine (h.reserve additional _).imp (fun hmax => ⟨d.len + additional, by lia, ?_⟩) fun _ => id
    rwa [hlen] at hmax
  | some u =>
    have hlen := h.length
    unfold VecDeque.reserve
    by_cases hmax : d.len + additional > t.usizeMax
    · rw [if_pos hmax]
      exact .panic ⟨d.len + additional, by lia, hmax⟩
    · have hcap : d.capacity t (some u) = t.usizeMax := rfl
      rw [if_neg hmax, if_neg (by lia)]
      exact .ok ⟨h, by lia⟩

theorem Holds.extend_loop (h : Holds t zst d l)
    {lower : ℕ → ℕ} (hlower : ∀ k, lower k ≤ k) (inner : Bool) (items : List α) :
    PanicsOr (AllocFails t zst alloc (l.length + items.length))
      (VecDeque.extend_loop t zst alloc lower inner items d)
      fun d' => Holds t zst d' (l ++ items) := by
  induction items generalizing inner d l with
  | nil => exact Or.inr ⟨d, by cases inner <;> rfl, by rwa [append_nil]⟩
  | cons x rest ih =>
    have hroom : PanicsOr (AllocFails t zst alloc (l.length + (rest.length + 1)))
        (if inner ∧ d.len < d.capacity t zst then .ok d
          else d.reserve t zst (min (lower rest.length + 1) t.usizeMax)
            (alloc (d.len + min (lower rest.length + 1) t.usizeMax)))
        fun d1 => Holds t zst d1 l ∧ d1.len < d1.capacity t zst := by
      split_ifs with hinner
      · exact .ok ⟨h, hinner.2⟩
      · have hone := usizeMax_pos t
        have hl := hlower rest.length
        exact (h.reserve alloc le_rfl).imp (·.mono (by lia)) fun d1 ⟨hs1, hcap1⟩ => ⟨hs1, by lia⟩
    unfold VecDeque.extend_loop
    rw [length_cons]
    refine hroom.bind id fun d1 ⟨hs1, hlt1⟩ => ?_
    obtain ⟨d2, hd2, hs2⟩ := hs1.push_unchecked hlt1 x
    rw [hd2, bind_ok]
    refine (ih hs2 true).imp (·.mono ?_) fun d' hs' => ?_
    · rw [length_append, length_singleton]
      lia
    · rwa [append_assoc] at hs'

theorem copy_slice_some (d : VecDeque α) (u : α) (dst : ℕ) (src : List α) :
    d.copy_slice t (some u) dst src = .ok d := by
  simp [copy_slice, write_slice]

theorem Holds.extend (alloc : ℕ → ℕ) (h : Holds t zst d l)
    {r : Replacements α} (hr : r.Correct) :
    PanicsOr (AllocFails t zst alloc (l.length + r.items.length)) (d.extend t zst alloc r) fun d' =>
      Holds t zst d' (l ++ r.items) := by
  unfold VecDeque.extend
  by_cases htrusted : r.trusted_len
  · rw [if_pos htrusted]
    refine (h.reserve alloc le_rfl).bind id fun d1 ⟨hs1, hcap1⟩ => ?_
    cases zst with
    | none =>
      obtain ⟨mem, hcopy, hs⟩ := hs1.append_slice hcap1
      rw [hcopy, bind_ok]
      exact .ok hs
    | some u =>
      rw [copy_slice_some, bind_ok]
      refine .ok ⟨?_, hcap1, hs1.head_lt⟩
      rw [length_append, hs1.length]
  · rw [if_neg htrusted]
    exact h.extend_loop hr.lower_le false r.items

/-! ## Filling the hole -/

/-- An element written to the front of the gap. -/
theorem Gapped.fill_one {before after : List α} {gap : ℕ}
    (h : Gapped t d before (gap + 1) after) (hlen : d.len = before.length) (x : α) :
    ∃ mem, d.buffer_write none (phys d.buf.cap d.head d.len) x = .ok (d.withMem mem) ∧
      Gapped t { d.withMem mem with len := d.len + 1 } (before ++ [x]) gap after := by
  have hfits := h.fits
  have hhead := h.head_lt.resolve_right (by lia)
  rw [hlen, buffer_write_eq (phys_lt hhead (by lia))]
  refine ⟨_, rfl, ?_, h.head_lt, h.cap_le, fun i hi => ?_, fun i hi => ?_⟩
  · rw [length_append, length_singleton]
    simp only [withMem]
    lia
  · rw [length_append, length_singleton] at hi
    simp only [withMem]
    by_cases hlt : i < before.length
    · rw [if_neg fun he => by have := phys_inj (by lia) (by lia) he; lia,
        getElem?_append_left hlt, h.front i hlt]
    · rw [show i = before.length by lia, if_pos rfl, getElem?_append_right le_rfl,
        Nat.sub_self, getElem?_cons_zero]
  · have hback := h.back i hi
    rw [length_append, length_singleton]
    simp only [withMem]
    rw [if_neg fun he => by have := phys_inj (by lia) (by lia) he; lia, ← hback]
    congr 2
    lia

/-- What `fill` does to a drain: whatever is around the hole, and to any cell. -/
structure Filled (t : Target) (s s' : Drain α) (items : List α) : Prop where
  len : s'.deque.len = s.deque.len + min s.drain_len items.length
  drain_len : s'.drain_len = s.drain_len - items.length
  tail_len : s'.tail_len = s.tail_len
  remaining : s'.remaining = s.remaining
  head : s'.deque.head = s.deque.head
  cap : s'.deque.buf.cap = s.deque.buf.cap
  gapped : ∀ before after, s.deque.len = before.length → Gapped t s.deque before s.drain_len after →
    Gapped t s'.deque (before ++ items.take s.drain_len) s'.drain_len after
  keeps : ∀ p x, s'.deque.buf.mem p = some x → s.deque.buf.mem p = some x ∨ x ∈ items

/-- The loop fills the gap until it is closed or the items are used up. -/
theorem fill_loop_spec {s : Drain α} (hcap : s.deque.buf.cap ≤ t.isizeMax)
    (hhead : s.deque.head < s.deque.buf.cap)
    (hfits : s.deque.len + s.drain_len ≤ s.deque.buf.cap) (items : List α) :
    ∃ s', s.fill_loop t none s.drain_len items =
        .ok (decide (s.drain_len ≤ items.length), s', items.drop s.drain_len) ∧
      Filled t s s' items := by
  obtain ⟨n, hn⟩ : ∃ n, s.drain_len = n := ⟨_, rfl⟩
  rw [hn] at hfits ⊢
  induction n generalizing s items with
  | zero =>
    refine ⟨s, rfl, by rw [hn]; lia, by lia, rfl, rfl, rfl, rfl, fun before after _ h => ?_,
      fun p x h => Or.inl h⟩
    rwa [hn, take_zero, append_nil, ← hn]
  | succ n ih =>
    cases items with
    | nil =>
      refine ⟨s, ?_, by simp, rfl, rfl, rfl, rfl, rfl, fun before after _ h => ?_,
        fun p x h => Or.inl h⟩
      · simp [Drain.fill_loop]
      · rwa [take_nil, append_nil]
    | cons x items =>
      have hphys : s.deque.to_physical_idx t none s.deque.len =
          phys s.deque.buf.cap s.deque.head s.deque.len := wrap_add_eq (by lia)
      have hlt := phys_lt hhead (show s.deque.len ≤ s.deque.buf.cap by lia)
      obtain ⟨s', hrun, hfilled⟩ := ih (s := { s with
          deque := { s.deque.withMem (fun k => if k = phys s.deque.buf.cap s.deque.head s.deque.len
            then some x else s.deque.buf.mem k) with len := s.deque.len + 1 }
          drain_len := s.drain_len - 1 }) hcap hhead items
        (by simp only [withMem_cap]; lia) (by simp only; lia)
      refine ⟨s', ?_, ?_, ?_, hfilled.tail_len, hfilled.remaining, hfilled.head, hfilled.cap,
        fun before after hlen h => ?_, fun p y hy => ?_⟩
      · unfold Drain.fill_loop
        dsimp only
        rw [hphys, buffer_write_eq hlt, bind_ok, drop_succ_cons]
        simp only [length_cons, Nat.add_le_add_iff_right]
        exact hrun
      · rw [hfilled.len, length_cons]
        simp only
        lia
      · rw [hfilled.drain_len, length_cons]
        simp only
        lia
      · rw [hn] at h
        obtain ⟨mem, hwrite, hgapped⟩ := h.fill_one hlen x
        rw [buffer_write_eq hlt] at hwrite
        cases hwrite
        have hdrain : s.drain_len - 1 = n := by lia
        have hstep := hfilled.gapped (before ++ [x]) after
          (by simp [hlen])
        simp only [hdrain] at hstep
        rw [hn, take_succ_cons, ← singleton_append, ← append_assoc]
        exact hstep hgapped
      · rcases hfilled.keeps p y hy with hmem | hmem
        · simp only [withMem] at hmem
          split at hmem
          · exact Or.inr (Option.some.inj hmem ▸ mem_cons_self)
          · exact Or.inl hmem
        · exact Or.inr (mem_cons_of_mem x hmem)

/-! ## Moving the tail -/

/-- A wrapping copy between blocks that do not wrap around is a plain one. -/
theorem wrap_copy_fits {src dst len : ℕ} (hs : src + len ≤ d.buf.cap) (hd : dst + len ≤ d.buf.cap) :
    d.wrap_copy t none src dst len = .ok (d.withMem (RawVec.moved d.buf.mem src dst len)) := by
  unfold wrap_copy
  simp only [Option.isSome_none, Bool.false_eq_true, false_or, capacity_none]
  by_cases htriv : src = dst ∨ len = 0
  · have hsame : RawVec.moved d.buf.mem src dst len = d.buf.mem := by
      rcases htriv with rfl | rfl
      · exact moved_self d.buf.mem src len
      · funext i
        exact if_neg (by lia)
    rw [if_pos htriv, hsame]
    rfl
  · rw [if_neg htriv]
    simp [show ¬d.buf.cap - src < len by lia, show ¬d.buf.cap - dst < len by lia, copy_eq hs hd]

/-- What `move_tail` does to a drain. The elements around the hole stay where they should be when
the head is at the start of the buffer; any cell goes where the cells of its number go. -/
structure Moved (t : Target) (alloc : ℕ → ℕ) (s s' : Drain α) (additional : ℕ) : Prop where
  len : s'.deque.len = s.deque.len
  drain_len : s'.drain_len = s.drain_len + additional
  tail_len : s'.tail_len = s.tail_len
  remaining : s'.remaining = s.remaining
  head : s'.deque.head = s.deque.head
  cap_le : s'.deque.buf.cap ≤ t.isizeMax
  cap_ge : s.deque.buf.cap ≤ s'.deque.buf.cap
  room : s.deque.len + s.drain_len + s.tail_len + additional ≤ s'.deque.buf.cap
  cap : s'.deque.buf.cap = s.deque.buf.cap ∨
    s.deque.buf.cap < s.deque.len + s.drain_len + s.tail_len + additional ∧
      alloc (s.deque.len + s.drain_len + s.tail_len + additional) ≤ s'.deque.buf.cap
  gapped : ∀ before after, s.deque.head = 0 → s.deque.len = before.length →
    s.tail_len = after.length → Gapped t s.deque before s.drain_len after →
    Gapped t s'.deque before s'.drain_len after
  keeps : ∀ p x, s'.deque.buf.mem p = some x → s.deque.buf.mem p = some x ∨
    ∃ q, p = q + additional ∧ s.deque.len + s.drain_len ≤ q ∧
      q < s.deque.len + s.drain_len + s.tail_len ∧ s.deque.buf.mem q = some x

/-- The tail moves back by as much as the gap grows. -/
theorem move_tail_spec (alloc : ℕ → ℕ) {s : Drain α} (hcap : s.deque.buf.cap ≤ t.isizeMax)
    (hfits : s.deque.len + s.drain_len + s.tail_len ≤ s.deque.buf.cap) (additional : ℕ) :
    PanicsOr
      (AllocFails t (none : Option α) alloc (s.deque.len + s.drain_len + s.tail_len + additional))
      (s.move_tail t none alloc additional) fun s' => Moved t alloc s s' additional := by
  have hreserved : PanicsOr (AllocFails t (none : Option α) alloc
        (s.deque.len + s.drain_len + s.tail_len + additional))
      (s.deque.buf.reserve t none (s.deque.len + s.drain_len + s.tail_len) additional
        (alloc (s.deque.len + s.drain_len + s.tail_len + additional))) fun buf =>
      buf.cap ≤ t.isizeMax ∧ s.deque.buf.cap ≤ buf.cap ∧
        s.deque.len + s.drain_len + s.tail_len + additional ≤ buf.cap ∧
        (buf.cap = s.deque.buf.cap ∨
          s.deque.buf.cap < s.deque.len + s.drain_len + s.tail_len + additional ∧
            alloc (s.deque.len + s.drain_len + s.tail_len + additional) ≤ buf.cap) ∧
        (∀ i, i < s.deque.buf.cap → buf.mem i = s.deque.buf.mem i) ∧
        ∀ i x, buf.mem i = some x → s.deque.buf.mem i = some x := by
    unfold RawVec.reserve
    simp only [Option.isSome_none, Bool.false_eq_true, if_false]
    by_cases hgrows : additional > s.deque.buf.cap - (s.deque.len + s.drain_len + s.tail_len)
    · rw [if_pos hgrows]
      unfold RawVec.grow
      by_cases hmax : max (s.deque.len + s.drain_len + s.tail_len + additional)
          (alloc (s.deque.len + s.drain_len + s.tail_len + additional)) ≤ t.isizeMax
      · rw [if_pos hmax]
        refine .ok ⟨hmax, by simp only; lia, le_max_left _ _, Or.inr ⟨by lia, le_max_right _ _⟩,
          fun i hi => if_pos hi, fun i x hx => ?_⟩
        simp only at hx
        split at hx
        · exact hx
        · cases hx
      · rw [if_neg hmax]
        exact .panic ⟨_, le_rfl, not_le.1 hmax⟩
    · rw [if_neg hgrows]
      exact .ok ⟨hcap, le_rfl, by lia, Or.inl rfl, fun i _ => rfl, fun i x hx => hx⟩
  unfold Drain.move_tail
  refine hreserved.bind id fun buf ⟨hmax, hge, hroom, hwhich, hmem, hsome⟩ => ?_
  dsimp only
  rw [wrap_copy_fits (d := { s.deque with buf := buf }) (by simp only; lia) (by simp only; lia),
    bind_ok]
  refine .ok ⟨rfl, rfl, rfl, rfl, rfl, hmax, hge, hroom, hwhich,
    fun before after hhead hlen htail h => ?_, fun p x hx => ?_⟩
  · -- positions in the buffer are logical ones
    have hphys : ∀ cap i, i < cap → phys cap s.deque.head i = i := fun cap i hi => by
      rw [hhead, phys_of_lt (by lia), Nat.zero_add]
    refine ⟨?_, ?_, hmax, fun i hi => ?_, fun i hi => ?_⟩
    · simp only [withMem]
      lia
    · simp only [withMem]
      lia
    · have hfront := h.front i hi
      rw [hphys _ _ (by lia)] at hfront
      simp only [withMem, RawVec.moved]
      rw [hphys _ _ (by lia), if_neg (by lia), hmem _ (by lia), hfront]
    · have hback := h.back i hi
      rw [hphys _ _ (by lia)] at hback
      simp only [withMem, RawVec.moved]
      rw [hphys _ _ (by lia), if_pos (by lia), hmem _ (by lia), ← hback]
      congr 1
      lia
  · simp only [withMem, RawVec.moved] at hx
    split at hx
    · rename_i hmoved
      exact Or.inr ⟨_, by lia, by lia, by lia, hsome _ _ hx⟩
    · exact Or.inl (hsome _ _ hx)

end VecDeque

end RustStd
