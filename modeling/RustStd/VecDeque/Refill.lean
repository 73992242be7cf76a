import RustStd.VecDeque.Splice

/-!
# What a dropped splice leaves

Putting the replacements in works for a deque whose head is at the start of its buffer, and where
the tail has not to move. Otherwise a cell of the tail ends up in a few places, all known, and for
some contents of the deque none of them is its own.
-/

namespace RustStd.VecDeque

open DoubleEnded List Nat Exec Splice

variable {α : Type} {t : Target} {alloc : ℕ → ℕ} {s : Drain α} {zst : Option α} {r : Replacements α}
variable {d : VecDeque α} {l : List α}

/-! ## Refilling -/

/-- What it does to a drain without a hole to make one of `a` cells and to fill it. -/
structure Grown (t : Target) (alloc : ℕ → ℕ) (s s' : Drain α) (items : List α) (a : ℕ) : Prop where
  len : s'.deque.len = s.deque.len + a
  drain_len : s'.drain_len = 0
  tail_len : s'.tail_len = s.tail_len
  remaining : s'.remaining = s.remaining
  head : s'.deque.head = s.deque.head
  cap_le : s'.deque.buf.cap ≤ t.isizeMax
  cap_ge : s.deque.buf.cap ≤ s'.deque.buf.cap
  room : s.deque.len + s.tail_len + a ≤ s'.deque.buf.cap
  cap : s'.deque.buf.cap = s.deque.buf.cap ∨ s.deque.buf.cap < s.deque.len + s.tail_len + a ∧
      alloc (s.deque.len + s.tail_len + a) ≤ s'.deque.buf.cap
  gapped : ∀ before after, s.deque.head = 0 → s.deque.len = before.length →
    s.tail_len = after.length → Gapped t s.deque before 0 after →
    Gapped t s'.deque (before ++ items.take a) 0 after
  keeps : ∀ p x, s'.deque.buf.mem p = some x → x ∈ items ∨ s.deque.buf.mem p = some x ∨
    ∃ q, p = q + a ∧ s.deque.len ≤ q ∧ q < s.deque.len + s.tail_len ∧ s.deque.buf.mem q = some x

theorem Grown.refl (h0 : s.drain_len = 0) (hcap : s.deque.buf.cap ≤ t.isizeMax)
    (hfits : s.deque.len + s.tail_len ≤ s.deque.buf.cap) (items : List α) :
    Grown t alloc s s items 0 := by
  refine ⟨rfl, h0, rfl, rfl, rfl, hcap, le_rfl, hfits, Or.inl rfl, fun before after _ _ _ h => ?_,
    fun p x h => Or.inr (Or.inl h)⟩
  rwa [take_zero, append_nil]

variable {items : List α}

/-- Making room for `a` of the replacements and writing them there. -/
theorem grow_spec (alloc : ℕ → ℕ) (h0 : s.drain_len = 0) (hcap : s.deque.buf.cap ≤ t.isizeMax)
    (hhead : s.deque.head < s.deque.buf.cap)
    (hfits : s.deque.len + s.tail_len ≤ s.deque.buf.cap) {a : ℕ}
    (ha : a ≤ items.length) :
    PanicsOr (AllocFails t (none : Option α) alloc (s.deque.len + s.tail_len + a))
      (s.move_tail t none alloc a) fun s1 => ∃ s', s1.fill t none items =
        .ok (true, s', items.drop a) ∧ Grown t alloc s s' items a := by
  have hmove := move_tail_spec alloc hcap (by lia) a
  rw [h0, Nat.add_zero] at hmove
  refine hmove.imp id fun s1 hmoved => ?_
  have hroom := hmoved.room
  have hlen1 := hmoved.len
  have hdrain1 : s1.drain_len = a := by rw [hmoved.drain_len, h0, Nat.zero_add]
  obtain ⟨s', hs', hfilled⟩ := fill_loop_spec hmoved.cap_le
    (by rw [hmoved.head]; exact hhead.trans_le hmoved.cap_ge) (by lia) items
  rw [hdrain1, decide_eq_true ha] at hs'
  refine ⟨s', ?_, ?_, ?_, ?_, ?_, ?_, ?_, ?_, ?_, ?_,
    fun before after hzero hlen htail h => ?_, fun p x hx => ?_⟩
  · unfold Drain.fill
    rw [hdrain1]
    exact hs'
  · rw [hfilled.len, hlen1, hdrain1, Nat.min_eq_left ha]
  · rw [hfilled.drain_len, hdrain1, Nat.sub_eq_zero_of_le ha]
  · rw [hfilled.tail_len, hmoved.tail_len]
  · rw [hfilled.remaining, hmoved.remaining]
  · rw [hfilled.head, hmoved.head]
  · exact hfilled.cap.trans_le hmoved.cap_le
  · exact hmoved.cap_ge.trans hfilled.cap.ge
  · rw [hfilled.cap]
    lia
  · have hcap1 := hmoved.cap
    rw [h0, Nat.add_zero] at hcap1
    rwa [hfilled.cap]
  · have hg := hmoved.gapped before after hzero hlen htail (by rwa [h0])
    have hg' := hfilled.gapped before after (hlen1.trans hlen) hg
    rwa [hfilled.drain_len, hdrain1, Nat.sub_eq_zero_of_le ha] at hg'
  · rcases hfilled.keeps p x hx with hx | hx
    · have hkeeps := hmoved.keeps p x hx
      rw [h0, Nat.add_zero] at hkeeps
      exact Or.inr hkeeps
    · exact Or.inl hx

/-- Where the contents of the cell `q` may be after moving a tail of `len` cells from `start` by
`a1`, and from there by `a2`. -/
def Carried (start len a1 a2 q p : ℕ) : Prop :=
  p = q ∨ (start ≤ q ∧ q < start + len ∧ (p = q + a1 ∨ p = q + a1 + a2)) ∨
    (start + a1 ≤ q ∧ q < start + a1 + len ∧ p = q + a2)

/-- What `refill` does to a drain with a tail. -/
structure Refilled (t : Target) (alloc : ℕ → ℕ) (s s' : Drain α) (items : List α) : Prop where
  len : s'.deque.len = s.deque.len + items.length
  drain_len : s'.drain_len = s.drain_len - items.length
  tail_len : s'.tail_len = s.tail_len
  remaining : s'.remaining = s.remaining
  head : s'.deque.head = s.deque.head
  cap_le : s'.deque.buf.cap ≤ t.isizeMax
  room : s.deque.len + s.drain_len + s.tail_len + (items.length - s.drain_len) ≤ s'.deque.buf.cap
  cap : s'.deque.buf.cap = s.deque.buf.cap ∨
    ∃ needed ≤ s.deque.len + s.drain_len + s.tail_len + (items.length - s.drain_len),
      s.deque.buf.cap < needed ∧ alloc needed ≤ s'.deque.buf.cap
  gapped : ∀ before after, s.deque.head = 0 ∨ items.length ≤ s.drain_len →
    s.deque.len = before.length → s.tail_len = after.length →
    Gapped t s.deque before s.drain_len after →
    Gapped t s'.deque (before ++ items) s'.drain_len after
  keeps : ∃ a1 a2, a1 + a2 = items.length - s.drain_len ∧
    ∀ p x, s'.deque.buf.mem p = some x → x ∈ items ∨ ∃ q, s.deque.buf.mem q = some x ∧
      Carried (s.deque.len + s.drain_len) s.tail_len a1 a2 q p

/-- The first phase alone, where it uses the replacements up. -/
theorem Refilled.of_filled {s s' : Drain α} (hfilled : Filled t s s' items)
    (hle : items.length ≤ s.drain_len) (hcap_le : s.deque.buf.cap ≤ t.isizeMax)
    (hfits : s.deque.len + s.drain_len + s.tail_len ≤ s.deque.buf.cap) :
    Refilled t alloc s s' items := by
  have hcap := hfilled.cap
  refine ⟨?_, hfilled.drain_len, hfilled.tail_len, hfilled.remaining, hfilled.head,
    hcap.trans_le hcap_le, by lia, Or.inl hcap, fun before after _ hlen _ h => ?_, 0, 0, by
    lia, fun p x hx => ?_⟩
  · rw [hfilled.len, min_eq_right hle]
  · have hg := hfilled.gapped before after hlen h
    rwa [take_of_length_le hle] at hg
  · rcases hfilled.keeps p x hx with hx | hx
    · exact Or.inr ⟨p, hx, Or.inl rfl⟩
    · exact Or.inl hx

/-- The first phase followed by two that make room. -/
theorem Refilled.of_grown {s s1 s2 s' : Drain α} {a1 a2 : ℕ}
    (hfilled : Filled t s s1 items) (hlt : s.drain_len < items.length)
    (hg1 : Grown t alloc s1 s2 (items.drop s.drain_len) a1)
    (hg2 : Grown t alloc s2 s' ((items.drop s.drain_len).drop a1) a2)
    (ha : a1 + a2 = items.length - s.drain_len) : Refilled t alloc s s' items := by
  have hle := hlt.le
  have hlen1 := hfilled.len
  have htail1 := hfilled.tail_len
  have hcap1 := hfilled.cap
  have hdrain1 := hfilled.drain_len
  have hlen2 := hg1.len
  have htail2 := hg1.tail_len
  have hroom := hg2.room
  rw [Nat.min_eq_left hle] at hlen1
  refine ⟨?_, ?_, ?_, ?_, ?_, hg2.cap_le, ?_, ?_, fun before after hcond hlen htail h => ?_, a1,
    a2, ha,
    fun p x hx => ?_⟩
  · rw [hg2.len]
    lia
  · rw [hg2.drain_len, Nat.sub_eq_zero_of_le hle]
  · rw [hg2.tail_len, htail2, htail1]
  · rw [hg2.remaining, hg1.remaining, hfilled.remaining]
  · rw [hg2.head, hg1.head, hfilled.head]
  · lia
  · have hge1 := hg1.cap_ge
    rcases hg2.cap with h2 | ⟨h2, hlt2⟩
    · rcases hg1.cap with h1 | ⟨h1, hlt1⟩
      · exact Or.inl (h2.trans (h1.trans hcap1))
      · exact Or.inr ⟨_, by lia, by lia, h2 ▸ hlt1⟩
    · exact Or.inr ⟨_, by lia, by lia, hlt2⟩
  · have h1 := hfilled.gapped before after hlen h
    rw [hdrain1, Nat.sub_eq_zero_of_le hle] at h1
    have hzero : s.deque.head = 0 := hcond.resolve_right (by lia)
    have h2 := hg1.gapped _ after (hfilled.head.trans hzero)
      (by rw [hlen1, length_append, length_take]; lia) (htail1.trans htail) h1
    have h3 := hg2.gapped _ after (hg1.head.trans (hfilled.head.trans hzero))
      (by simp only [length_append, length_take, length_drop]; lia)
      (htail2.trans (htail1.trans htail)) h2
    have hall : (items.drop s.drain_len).take a1 ++ ((items.drop s.drain_len).drop a1).take a2 =
        items.drop s.drain_len := by
      rw [take_of_length_le (l := (items.drop s.drain_len).drop a1)
        (by simp only [length_drop]; lia), take_append_drop]
    rw [append_assoc, append_assoc, hall, take_append_drop] at h3
    rwa [hg2.drain_len]
  · rcases hg2.keeps p x hx with hx | hx | ⟨q, rfl, hge, hlt, hq⟩
    · exact Or.inl (mem_of_mem_drop (mem_of_mem_drop hx))
    · rcases hg1.keeps p x hx with hx | hx | ⟨q, rfl, hge, hlt, hq⟩
      · exact Or.inl (mem_of_mem_drop hx)
      · rcases hfilled.keeps p x hx with hx | hx
        · exact Or.inr ⟨p, hx, Or.inl rfl⟩
        · exact Or.inl hx
      · rcases hfilled.keeps q x hq with hq | hq
        · exact Or.inr ⟨q, hq, Or.inr (Or.inl ⟨by lia, by lia, Or.inl rfl⟩)⟩
        · exact Or.inl hq
    · rcases hg1.keeps q x hq with hx | hx | ⟨q', rfl, hge', hlt', hq'⟩
      · exact Or.inl (mem_of_mem_drop hx)
      · rcases hfilled.keeps q x hx with hx | hx
        · exact Or.inr ⟨q, hx, Or.inr (Or.inr ⟨by lia, by lia, rfl⟩)⟩
        · exact Or.inl hx
      · rcases hfilled.keeps q' x hq' with hq | hq
        · exact Or.inr ⟨q', hq, Or.inr (Or.inl ⟨by lia, by lia, Or.inr rfl⟩)⟩
        · exact Or.inl hq

/-- Room for replacements is made and filled in a drain that satisfies `I`, as `G` tells. -/
structure Grows (t : Target) (zst : Option α) (alloc : ℕ → ℕ) (I : Drain α → Prop)
    (G : Drain α → Drain α → List α → ℕ → Prop) : Prop where
  refl {s : Drain α} (items : List α) : I s → G s s items 0
  step {s s' : Drain α} {items : List α} {a : ℕ} : I s → G s s' items a →
    s'.deque.len = s.deque.len + a ∧ s'.tail_len = s.tail_len ∧ I s'
  run {s : Drain α} {items : List α} {a : ℕ} : I s → a ≤ items.length →
    PanicsOr (AllocFails t zst alloc (s.deque.len + s.tail_len + a)) (s.move_tail t zst alloc a)
      fun s1 => ∃ s', s1.fill t zst items = .ok (true, s', items.drop a) ∧ G s s' items a

namespace Grows

variable {I : Drain α → Prop} {G : Drain α → Drain α → List α → ℕ → Prop}

variable (h : Grows t zst alloc I G)
include h

theorem collect_rest (hs : I s) (items : List α) :
    PanicsOr (AllocFails t zst alloc (s.deque.len + s.tail_len + items.length))
      (Splice.collect_rest t zst alloc s items) fun s' => G s s' items items.length := by
  unfold Splice.collect_rest
  by_cases hpos : items.length > 0
  · rw [if_pos hpos]
    refine (h.run hs (le_refl items.length)).bind id fun s1 ⟨s', hs', hg⟩ => ?_
    rw [hs', bind_ok]
    exact .ok hg
  · obtain rfl : items = [] := length_eq_zero_iff.1 (by lia)
    rw [if_neg hpos]
    exact .ok (h.refl [] hs)

/-- The hole takes all replacements, or room is made for the others, in two steps. -/
theorem refill {s1 : Drain α} (htail : s.tail_len ≠ 0)
    (hs1 : s.fill t zst r.items = .ok (decide (s.drain_len ≤ r.items.length), s1,
      r.items.drop s.drain_len))
    (h1 : s.drain_len ≤ r.items.length →
      s1.deque.len = s.deque.len + s.drain_len ∧ s1.tail_len = s.tail_len ∧ I s1)
    (hr : r.Correct) :
    PanicsOr (AllocFails t zst alloc (s.deque.len + s.tail_len + r.items.length))
      (Splice.refill t zst alloc s r) fun s' => r.items.length ≤ s.drain_len ∧ s' = s1 ∨
        s.drain_len < r.items.length ∧ ∃ s2 a1 a2, G s1 s2 (r.items.drop s.drain_len) a1 ∧
          G s2 s' ((r.items.drop s.drain_len).drop a1) a2 ∧
          a1 + a2 = r.items.length - s.drain_len := by
  unfold Splice.refill
  rw [if_neg htail, hs1, bind_ok]
  by_cases hle : r.items.length ≤ s.drain_len
  · refine Or.inr ⟨s1, ?_, Or.inl ⟨hle, rfl⟩⟩
    by_cases hshort : s.drain_len ≤ r.items.length
    · have hlower : ¬r.lower 0 > 0 := by
        have := hr.lower_le 0
        lia
      rw [decide_eq_true hshort, drop_of_length_le hle]
      simp [hlower, Splice.collect_rest]
    · rw [decide_eq_false hshort]
      rfl
  have hlt := Nat.lt_of_not_le hle
  obtain ⟨hlen1, htail1, hI1⟩ := h1 hlt.le
  have hrest : (r.items.drop s.drain_len).length = r.items.length - s.drain_len :=
    length_drop
  rw [decide_eq_true hlt.le]
  simp only [Bool.not_true, Bool.false_eq_true, if_false]
  generalize r.items.drop s.drain_len = items at hrest ⊢
  by_cases hlower : r.lower items.length > 0
  · -- room is made twice
    have hlower_le := hr.lower_le items.length
    rw [if_pos hlower]
    refine (h.run hI1 hlower_le).bind (·.mono (by lia)) fun s2 ⟨s3, hs3, hg1⟩ => ?_
    obtain ⟨hlen3, htail3, hI3⟩ := h.step hI1 hg1
    have hdrop : (items.drop (r.lower items.length)).length =
        items.length - r.lower items.length := length_drop
    rw [hs3, bind_ok]
    exact (h.collect_rest hI3 (items.drop (r.lower items.length))).imp (·.mono (by lia))
      fun s' hg2 => Or.inr ⟨hlt, s3, _, _, hg1, hg2, by lia⟩
  · rw [if_neg hlower]
    exact (h.collect_rest hI1 items).imp (·.mono (by lia)) fun s' hg2 =>
      Or.inr ⟨hlt, s1, 0, _, h.refl _ hI1, hg2, by lia⟩

end Grows

theorem grows (t : Target) (alloc : ℕ → ℕ) : Grows (α := α) t none alloc (fun s =>
    s.drain_len = 0 ∧ s.deque.buf.cap ≤ t.isizeMax ∧ s.deque.head < s.deque.buf.cap ∧
      s.deque.len + s.tail_len ≤ s.deque.buf.cap) (Grown t alloc) where
  refl items := fun ⟨h0, hcap, _, hfits⟩ => .refl h0 hcap hfits items
  step := fun ⟨_, _, hhead, _⟩ hg => by
    refine ⟨hg.len, hg.tail_len, hg.drain_len, hg.cap_le, ?_, ?_⟩
    · rw [hg.head]
      exact hhead.trans_le hg.cap_ge
    · have hroom := hg.room
      rw [hg.len, hg.tail_len]
      lia
  run := fun ⟨h0, hcap, hhead, hfits⟩ => grow_spec alloc h0 hcap hhead hfits

theorem refill_spec (alloc : ℕ → ℕ) (htail : s.tail_len ≠ 0)
    (hcap : s.deque.buf.cap ≤ t.isizeMax) (hhead : s.deque.head < s.deque.buf.cap)
    (hfits : s.deque.len + s.drain_len + s.tail_len ≤ s.deque.buf.cap)
    (hr : r.Correct) :
    PanicsOr (AllocFails t (none : Option α) alloc (s.deque.len + s.tail_len + r.items.length))
      (Splice.refill t none alloc s r) fun s' => Refilled t alloc s s' r.items := by
  obtain ⟨s1, hs1, hfilled⟩ := fill_loop_spec (s := s) hcap hhead (by lia) r.items
  refine ((grows t alloc).refill htail hs1 (fun hle => ?_) hr).imp id fun s' hrefilled => ?_
  · have hlen := hfilled.len
    have hdrain := hfilled.drain_len
    rw [min_eq_left hle] at hlen
    rw [hfilled.tail_len, hfilled.cap, hfilled.head]
    exact ⟨hlen, rfl, by lia, hcap, hhead, by lia⟩
  · rcases hrefilled with ⟨hle, rfl⟩ | ⟨hlt, s2, a1, a2, hg1, hg2, ha⟩
    · exact .of_filled hfilled hle hcap hfits
    · exact .of_grown hfilled hlt hg1 hg2 ha

/-! ## Draining before that -/

/-- What taking elements out of a drain does not touch. -/
structure Drain.Same (s s' : Drain α) : Prop where
  deque : s'.deque = s.deque
  drain_len : s'.drain_len = s.drain_len
  tail_len : s'.tail_len = s.tail_len

open Drain

theorem Drain.Same.trans {s1 s2 s3 : Drain α} (h : Drain.Same s1 s2) (h' : Drain.Same s2 s3) :
    Drain.Same s1 s3 :=
  ⟨h'.deque.trans h.deque, h'.drain_len.trans h.drain_len, h'.tail_len.trans h.tail_len⟩

/-- A read hands the state on. -/
theorem read_state {σ : Type} {read : Exec α} {x : Option α} {s s' : σ}
    (h : (do .ok (some (← read), s) : Exec (Option α × σ)) = .ok (x, s')) : s' = s := by
  cases read with
  | error _ => cases h
  | ok y =>
    cases h
    rfl

theorem Drain.step_same {e : End} {s s' : Drain α} {x : Option α}
    (h : Drain.step t zst e s = .ok (x, s')) : Drain.Same s s' := by
  cases e with
  | front =>
    change s.next t zst = .ok (x, s') at h
    unfold Drain.next at h
    split at h
    · cases h
      exact ⟨rfl, rfl, rfl⟩
    · obtain rfl := read_state h
      exact ⟨rfl, rfl, rfl⟩
  | back =>
    change s.next_back t zst = .ok (x, s') at h
    unfold next_back at h
    split at h
    · cases h
      exact ⟨rfl, rfl, rfl⟩
    · obtain rfl := read_state h
      exact ⟨rfl, rfl, rfl⟩

theorem Draining.remaining {before rest after : List α}
    (h : Draining t zst s before rest after) : s.remaining = rest.length := by
  cases zst with
  | none => exact Drains.remaining h
  | some u => exact ZeroDrains.remaining h

/-- Taking everything that is left. -/
theorem Draining.exhaust (hz : ∀ u, zst = some u → ∀ x, x = u)
    {before rest after : List α} (h : Draining t zst s before rest after) :
    ∃ s', s.exhaust t zst s.remaining = .ok (s', rest) ∧ Draining t zst s' before [] after ∧
      Drain.Same s s' := by
  rw [h.remaining]
  induction rest generalizing s with
  | nil => exact ⟨s, rfl, h, rfl, rfl, rfl⟩
  | cons x rest ih =>
    obtain ⟨s1, hs1, h1⟩ := h.step hz .front
    have hsame := step_same hs1
    obtain ⟨s', hs', h', hsame'⟩ := ih h1
    refine ⟨s', ?_, h', hsame.trans hsame'⟩
    change s.next t zst = .ok (some x, s1) at hs1
    rw [length_cons]
    unfold exhaust
    rw [hs1, bind_ok]
    dsimp only
    rw [hs', bind_ok]
    rfl

/-- Calls on a splice are calls on its drain. -/
theorem Draining.calls (hz : ∀ u, zst = some u → ∀ x, x = u)
    {before rest after : List α} (h : Draining t zst s before rest after) (r : Replacements α)
    (calls : List End) :
    ∃ s', runM (Splice.step t zst) calls ⟨s, r⟩ = .ok (pops calls rest, ⟨s', r⟩) ∧
      Draining t zst s' before (left calls rest) after ∧ Drain.Same s s' := by
  have hstep : ∀ (e : End) (s1 : Splice α) (rest1 : List α),
      (Draining t zst s1.drain before rest1 after ∧ Drain.Same s s1.drain ∧ s1.replace_with = r) →
      ∃ s2, Splice.step t zst e s1 = .ok (e.peek rest1, s2) ∧
        Draining t zst s2.drain before (e.rest rest1) after ∧ Drain.Same s s2.drain ∧
          s2.replace_with = r := by
    intro e s1 rest1 ⟨h1, hsame1, hr1⟩
    obtain ⟨s2, hs2, h2⟩ := h1.step hz e
    refine ⟨{ s1 with drain := s2 }, ?_, h2, hsame1.trans (step_same hs2), hr1⟩
    rw [Splice.step, hs2, bind_ok]
  obtain ⟨⟨s', r'⟩, hrun, hs', hsame, hr⟩ := runM_spec hstep calls (s := ⟨s, r⟩)
    ⟨h, ⟨rfl, rfl, rfl⟩, rfl⟩
  obtain rfl : r' = r := hr
  exact ⟨s', hrun, hs', hsame⟩

/-- Nothing is left to drop. -/
theorem Drain.drop_done (h0 : s.remaining = 0) (needs_drop : Bool) :
    s.drop t zst needs_drop = (do .ok (← s.deque.close t zst s.drain_len s.tail_len, [])) := by
  unfold Drain.drop
  rw [if_neg fun h => h.2 h0, bind_ok]

/-- Closing a hole at the end of a deque. -/
theorem Sized.close_end (h : Sized t d l) (gap : ℕ) :
    ∃ d', d.close t none gap 0 = .ok d' ∧ Sized t d' l := by
  have hgapped := Gapped.of_sized h (le_refl l.length) le_rfl d.len
  rw [take_length, drop_length, Nat.sub_self] at hgapped
  obtain ⟨d', hd', hs⟩ := hgapped.close h.length.symm
  rw [append_nil] at hs
  refine ⟨d', ?_, hs⟩
  rw [← hd']
  simp [VecDeque.close]

/-! ## Where it works -/

/-- **The replacements take the place of the hole** when the head is at the start of the buffer, the
tail is empty or the hole is large enough. -/
theorem Drains.refill {before after : List α} (h : Drains t s before [] after) (hr : r.Correct)
    (hcond : s.deque.head = 0 ∨ after = [] ∨ r.items.length ≤ s.drain_len) (needs_drop : Bool) :
    PanicsOr (AllocFails t (none : Option α) alloc (before.length + after.length + r.items.length))
      (Splice.refill t none alloc s r) fun s' => ∃ d', s'.drop t none needs_drop = .ok (d', []) ∧
        Sized t d' (before ++ r.items ++ after) := by
  have hfits := h.gapped.fits
  have hlen := h.len
  have htail := h.tail_len
  have hrem : s.remaining = 0 := h.remaining
  by_cases hnil : after = []
  · -- without a tail the deque is extended
    subst hnil
    rw [length_nil, add_zero, append_nil]
    have hs : Holds t none _ _ := h.gapped.sized (Or.inr rfl)
    rw [append_nil, length_nil, add_zero, ← hlen] at hs
    unfold Splice.refill
    rw [if_pos (show s.tail_len = 0 from htail)]
    refine (hs.extend alloc hr).bind id fun d' hs' => ?_
    obtain ⟨d'', hd'', hs''⟩ := Sized.close_end hs' s.drain_len
    refine .ok ⟨d'', ?_, hs''⟩
    rw [drop_done (by exact hrem)]
    rw [htail, length_nil, hd'', bind_ok]
  · have hpos := length_pos_iff.2 hnil
    have hhead := h.gapped.head_lt.resolve_right (by lia)
    have hspec := refill_spec alloc (s := s) (by lia) h.gapped.cap_le hhead (by lia) hr
    rw [hlen, htail] at hspec
    refine hspec.imp id fun s' hrefilled => ?_
    have hg := hrefilled.gapped before after
      (hcond.imp_right fun h => h.resolve_left hnil) hlen htail h.gapped
    obtain ⟨d', hd', hsized⟩ := hg.close (by rw [hrefilled.len, length_append, hlen])
    refine ⟨d', ?_, hsized⟩
    rw [drop_done (hrefilled.remaining.trans hrem), hrefilled.tail_len, htail, hd', bind_ok]

/-! ## Zero-sized elements -/

/-- What the parts of `refill` do to a drain of zero-sized elements: `n` are counted in. -/
structure Counted (s s' : Drain α) (n : ℕ) : Prop where
  len : s'.deque.len = s.deque.len + n
  head : s'.deque.head = s.deque.head
  tail_len : s'.tail_len = s.tail_len
  remaining : s'.remaining = s.remaining

theorem Counted.trans {s1 s2 s3 : Drain α} {n m : ℕ} (h : Counted s1 s2 n) (h' : Counted s2 s3 m) :
    Counted s1 s3 (n + m) :=
  ⟨by rw [h'.len, h.len, add_assoc], h'.head.trans h.head, h'.tail_len.trans h.tail_len,
    h'.remaining.trans h.remaining⟩

variable {u : α} {start_bound end_bound : Bound ℕ}

theorem fill_zero (s : Drain α) (items : List α) : ∃ s', s.fill t (some u) items =
        .ok (decide (s.drain_len ≤ items.length), s', items.drop s.drain_len) ∧
      Counted s s' (min s.drain_len items.length) ∧ s'.drain_len = s.drain_len - items.length := by
  unfold Drain.fill
  obtain ⟨n, hn⟩ : ∃ n, s.drain_len = n := ⟨_, rfl⟩
  rw [hn]
  induction n generalizing s items with
  | zero => exact ⟨s, rfl, ⟨by lia, rfl, rfl, rfl⟩, by lia⟩
  | succ n ih =>
    cases items with
    | nil => exact ⟨s, by simp [fill_loop], ⟨by simp, rfl, rfl, rfl⟩, by simp [hn]⟩
    | cons x items =>
      obtain ⟨s', hs', hcount, hdrain⟩ := ih
        { s with deque := { s.deque with len := s.deque.len + 1 }, drain_len := s.drain_len - 1 }
        items (by simp only; lia)
      refine ⟨s', ?_, ⟨?_, hcount.head, hcount.tail_len, hcount.remaining⟩, ?_⟩
      · unfold fill_loop
        simp only [buffer_write_some, Exec.bind_ok, drop_succ_cons, length_cons,
          Nat.add_le_add_iff_right]
        exact hs'
      · rw [hcount.len, length_cons]
        simp only
        lia
      · rw [hdrain, length_cons]
        lia

theorem move_tail_zero (alloc : ℕ → ℕ) (u : α)
    (hfits : s.deque.len + s.drain_len + s.tail_len ≤ t.usizeMax)
    (additional : ℕ) :
    PanicsOr (AllocFails t (some u) alloc (s.deque.len + s.drain_len + s.tail_len + additional))
      (s.move_tail t (some u) alloc additional) fun s' => Counted s s' 0 ∧
        s'.drain_len = s.drain_len + additional ∧
        s.deque.len + s.drain_len + s.tail_len + additional ≤ t.usizeMax := by
  unfold move_tail RawVec.reserve
  simp only [Option.isSome_some, if_true]
  by_cases hmax : additional > t.usizeMax - (s.deque.len + s.drain_len + s.tail_len)
  · rw [if_pos hmax]
    exact .panic ⟨_, le_rfl, show t.usizeMax < _ by lia⟩
  · rw [if_neg hmax, bind_ok, wrap_copy_some, bind_ok]
    exact .ok ⟨⟨rfl, rfl, rfl, rfl⟩, rfl, by lia⟩

/-- Making room for `a` of the replacements and counting them in. -/
theorem grow_zero (alloc : ℕ → ℕ) (u : α) (h0 : s.drain_len = 0)
    (hfits : s.deque.len + s.tail_len ≤ t.usizeMax) {a : ℕ}
    (ha : a ≤ items.length) :
    PanicsOr (AllocFails t (some u) alloc (s.deque.len + s.tail_len + a))
      (s.move_tail t (some u) alloc a) fun s1 =>
      ∃ s', s1.fill t (some u) items = .ok (true, s', items.drop a) ∧ Counted s s' a ∧
        s'.drain_len = 0 ∧ s.deque.len + s.tail_len + a ≤ t.usizeMax := by
  have hmove := move_tail_zero (t := t) alloc u (s := s) (by lia) a
  rw [h0, add_zero, zero_add] at hmove
  refine hmove.imp id fun s1 ⟨hcount1, hdrain1, hroom⟩ => ?_
  obtain ⟨s', hs', hcount, hdrain⟩ := fill_zero (t := t) (u := u) s1 items
  rw [hdrain1, decide_eq_true ha] at hs'
  rw [hdrain1, min_eq_left ha] at hcount
  have htrans := hcount1.trans hcount
  rw [zero_add] at htrans
  exact ⟨s', hs', htrans, by lia, hroom⟩

theorem grows_zero (t : Target) (alloc : ℕ → ℕ) (u : α) : Grows t (some u) alloc
    (fun s => s.drain_len = 0 ∧ s.deque.len + s.tail_len ≤ t.usizeMax) fun s s' _ a =>
      Counted s s' a ∧ s'.drain_len = 0 ∧ s.deque.len + s.tail_len + a ≤ t.usizeMax where
  refl _ := fun ⟨h0, hfits⟩ => ⟨⟨rfl, rfl, rfl, rfl⟩, h0, hfits⟩
  step := fun _ ⟨hcount, h0, hroom⟩ => by
    rw [hcount.len, hcount.tail_len]
    exact ⟨rfl, rfl, h0, by lia⟩
  run := fun ⟨h0, hfits⟩ => grow_zero alloc u h0 hfits

theorem refill_zero (alloc : ℕ → ℕ) (u : α) (htail : s.tail_len ≠ 0)
    (hfits : s.deque.len + s.drain_len + s.tail_len ≤ t.usizeMax)
    (hr : r.Correct) :
    PanicsOr (AllocFails t (some u) alloc (s.deque.len + s.tail_len + r.items.length))
      (Splice.refill t (some u) alloc s r) fun s' => Counted s s' r.items.length ∧
        s.deque.len + s.tail_len + r.items.length ≤ t.usizeMax := by
  obtain ⟨s1, hs1, hcount, hdrain⟩ := fill_zero (t := t) (u := u) s r.items
  have hlen := hcount.len
  have htail1 := hcount.tail_len
  refine ((grows_zero t alloc u).refill htail hs1 (fun hle => ?_) hr).imp id
    fun s' hrefilled => ?_
  · exact ⟨by lia, htail1, by lia, by lia⟩
  · rcases hrefilled with ⟨hle, rfl⟩ | ⟨hlt, s2, a1, a2, ⟨hg1, -⟩, ⟨hg2, -, hroom⟩, ha⟩
    · rw [min_eq_right hle] at hcount
      exact ⟨hcount, by lia⟩
    · have hlen2 := hg1.len
      have htail2 := hg1.tail_len
      have htrans := hcount.trans (hg1.trans hg2)
      rw [ha, min_eq_left hlt.le, Nat.add_sub_cancel' hlt.le] at htrans
      exact ⟨htrans, by lia⟩

theorem Drain.drop_done_zero (h0 : s.remaining = 0) (needs_drop : Bool) :
    s.drop t (some u) needs_drop = .ok ({ s.deque with len := s.deque.len + s.tail_len }, []) := by
  rw [drop_done h0]
  rfl

/-- Zero-sized replacements always take the place of the hole. -/
theorem ZeroDrains.refill {before after : List α} (h : ZeroDrains t s before [] after)
    (hfits : s.deque.len + s.drain_len + s.tail_len ≤ t.usizeMax)
    (hr : r.Correct) (needs_drop : Bool) :
    PanicsOr (AllocFails t (some u) alloc (before.length + after.length + r.items.length))
      (Splice.refill t (some u) alloc s r) fun s' =>
        ∃ d', s'.drop t (some u) needs_drop = .ok (d', []) ∧
          ZeroSized t d' (before ++ r.items ++ after) := by
  have hlen := h.len
  have htail := h.tail_len
  have hrem : s.remaining = 0 := h.remaining
  by_cases hnil : after = []
  · subst hnil
    have hzero : ZeroSized t s.deque before := ⟨hlen.symm, by lia, h.head_lt⟩
    have hs : Holds t (some u) s.deque before := hzero
    rw [length_nil, add_zero, append_nil]
    unfold Splice.refill
    rw [if_pos (show s.tail_len = 0 from htail)]
    refine (hs.extend alloc hr).bind id fun d' hs' =>
      .ok ⟨_, drop_done_zero (by exact hrem) needs_drop, ?_⟩
    rw [htail, length_nil, add_zero]
    exact hs'
  · have hpos := length_pos_iff.2 hnil
    have hspec := refill_zero alloc u (s := s) (by lia) hfits hr
    rw [hlen, htail] at hspec
    refine hspec.imp id fun s' ⟨hcount, hroom⟩ => ?_
    have hlen' := hcount.len
    have htail' := hcount.tail_len
    refine ⟨_, drop_done_zero (hcount.remaining.trans hrem) needs_drop, ?_, ?_,
      by simp only [hcount.head, h.head_lt]⟩
    · simp only [length_append]
      lia
    · simp only
      lia

/-! ## The whole of it -/

/-- **What splicing is for**: the calls take elements of the range from its list, and when the
splice is dropped the replacements are where the range was, or there was no room for them. -/
def Splices (t : Target) (zst : Option α) (alloc : ℕ → ℕ) (d : VecDeque α)
    (start_bound end_bound : Bound ℕ) (r : Replacements α) (calls : List End) (needs_drop : Bool)
    (l : List α) (i j : ℕ) : Prop :=
  ∃ s s', d.splice start_bound end_bound r = .ok s ∧
    runM (Splice.step t zst) calls s = .ok (pops calls ((l.drop i).take (j - i)), s') ∧
    ((AllocFails t zst alloc (i + (l.length - j) + r.items.length) ∧
        s'.drop t zst alloc needs_drop = .error .panic) ∨
      ∃ d', s'.drop t zst alloc needs_drop =
          .ok (d', if needs_drop then left calls ((l.drop i).take (j - i)) else []) ∧
        Holds t zst d' (l.take i ++ r.items ++ l.drop j))

variable (hz : ∀ u, zst = some u → ∀ x, x = u)
include hz

/-- Splicing up to the point where the replacements are put in. -/
theorem splice_start (h : Holds t zst d l) {i j : ℕ}
    (hrange : slice_range start_bound end_bound l.length = .ok (i, j)) (r : Replacements α)
    (calls : List End) :
    ∃ s s', d.splice start_bound end_bound r = .ok ⟨Drain.new d i (j - i), r⟩ ∧
      runM (Splice.step t zst) calls ⟨Drain.new d i (j - i), r⟩ =
        .ok (pops calls ((l.drop i).take (j - i)), ⟨s, r⟩) ∧
      s.exhaust t zst s.remaining = .ok (s', left calls ((l.drop i).take (j - i))) ∧
      Draining t zst s' (l.take i) [] (l.drop j) ∧ Drain.Same (Drain.new d i (j - i)) s' := by
  obtain ⟨hij, hj⟩ := slice_range_le hrange
  obtain ⟨s, hrun, hs, hsame⟩ := (Draining.of_holds h hij hj).calls hz r calls
  obtain ⟨s', hexhaust, hs', hsame'⟩ := hs.exhaust hz
  refine ⟨s, s', ?_, hrun, hexhaust, hs', hsame.trans hsame'⟩
  rw [splice, drain, ← h.length, hrange, bind_ok]
  rfl

theorem splices_of_refill (h : Holds t zst d l) {i j : ℕ}
    (hrange : slice_range start_bound end_bound l.length = .ok (i, j))
    (calls : List End) (needs_drop : Bool)
    (hrefill : ∀ s, Draining t zst s (l.take i) [] (l.drop j) →
      Drain.Same (Drain.new d i (j - i)) s →
      PanicsOr (AllocFails t zst alloc ((l.take i).length + (l.drop j).length + r.items.length))
        (Splice.refill t zst alloc s r) fun s' => ∃ d', s'.drop t zst needs_drop = .ok (d', []) ∧
          Holds t zst d' (l.take i ++ r.items ++ l.drop j)) :
    Splices t zst alloc d start_bound end_bound r calls needs_drop l i j := by
  obtain ⟨hij, hj⟩ := slice_range_le hrange
  obtain ⟨s, s', hsplice, hrun, hexhaust, hs', hsame⟩ := splice_start hz h hrange r calls
  refine ⟨_, _, hsplice, hrun, ?_⟩
  unfold Splice.drop
  dsimp only
  rw [hexhaust, bind_ok]
  have hspec := hrefill s' hs' hsame
  rw [length_take, length_drop, min_eq_left (by lia)] at hspec
  rcases hspec with ⟨hfails, herr⟩ | ⟨s'', hs'', d', hd', hl⟩
  · rw [herr]
    exact Or.inl ⟨hfails, rfl⟩
  · rw [hs'', bind_ok, hd', bind_ok, append_nil]
    exact Or.inr ⟨d', rfl, hl⟩

/-- Splicing works for zero-sized elements, where the head is at the start of the buffer, where
nothing follows the range, and where the replacements are not more than what they replace. -/
theorem splices (h : Holds t zst d l) {i j : ℕ}
    (hrange : slice_range start_bound end_bound l.length = .ok (i, j))
    (hr : r.Correct)
    (hcond : zst.isSome ∨ d.head = 0 ∨ j = l.length ∨ r.items.length ≤ j - i)
    (calls : List End) (needs_drop : Bool) :
    Splices t zst alloc d start_bound end_bound r calls needs_drop l i j := by
  obtain ⟨hij, hj⟩ := slice_range_le hrange
  refine splices_of_refill hz h hrange calls needs_drop fun s hs hsame => ?_
  cases zst with
  | none =>
    refine Drains.refill hs hr ?_ needs_drop
    rw [hsame.deque, hsame.drain_len]
    rcases hcond with hsome | hzero | hend | hshort
    · cases hsome
    · exact Or.inl hzero
    · exact Or.inr (Or.inl (by rw [hend, drop_length]))
    · exact Or.inr (Or.inr hshort)
  | some u =>
    have hlen := h.length
    have hle := h.len_le
    refine ZeroDrains.refill hs ?_ hr needs_drop
    rw [hsame.deque, hsame.drain_len, hsame.tail_len]
    simp only [Drain.new]
    lia

omit hz

/-! ## Where it does not -/

/-- A place after the range whose cell does not end up where it should. -/
theorem misplaced {cap head len j more : ℕ} (h0 : head ≠ 0) (hhead : head < cap) (hlen : len ≤ cap)
    (hj : j < len) (hmore : 0 < more) :
    ∃ m, j + m < len ∧ ∀ cap' a1 a2, a1 + a2 = more → len + more ≤ cap' →
      (cap' = cap ∨ (cap < len + more ∧ cap + more < cap')) →
      ¬Carried j (len - j) a1 a2 (phys cap head (j + m)) (phys cap' head (j + more + m)) := by
  by_cases hgrows : cap < len + more
  · refine ⟨len - 1 - j, by lia, fun cap' a1 a2 ha hroom hcap => ?_⟩
    unfold Carried phys
    split_ifs <;> lia
  by_cases hafter : head + j ≥ cap
  · refine ⟨0, by lia, fun cap' a1 a2 ha hroom hcap => ?_⟩
    unfold Carried phys
    split_ifs <;> lia
  · -- the last element before the place where the deque wraps around, if it does
    refine ⟨min (len - 1) (cap - 1 - head) - j, by lia, fun cap' a1 a2 ha hroom hcap => ?_⟩
    unfold Carried phys
    split_ifs <;> lia

/-- There is no hole to close. -/
theorem close_nothing (hhead : d.head < d.buf.cap) (hcap : d.buf.cap ≤ t.isizeMax)
    {tail_len : ℕ} (htail : tail_len ≠ 0) :
    d.close t none 0 tail_len = .ok { d with len := d.len + tail_len } := by
  have hphys : d.to_physical_idx t none 0 = d.head := by
    rw [to_physical_idx, wrap_add_eq (by lia), phys_of_lt (by lia), add_zero]
  have hjoin : (if d.len ≠ 0 ∧ tail_len ≠ 0 then
      d.join_head_and_tail_wrapping t none 0 d.len tail_len else .ok d) = .ok d := by
    unfold join_head_and_tail_wrapping wrap_copy
    rw [hphys, add_zero]
    simp
  unfold VecDeque.close
  rw [if_neg (by simp), hjoin, bind_ok, if_neg (by lia), hphys, ite_self]

/-- A deque whose buffer is full of `y`, but for the cell of the element `k`. -/
def marked (cap head len k : ℕ) (x y : α) : VecDeque α :=
  ⟨head, len, ⟨fun p => some (if p = phys cap head k then x else y), cap⟩⟩

theorem marked_holds {cap head len k : ℕ} (x y : α) (hhead : head < cap) (hlen : len ≤ cap)
    (hk : k < len) (hcap : cap ≤ t.isizeMax) :
    Sized t (marked cap head len k x y) ((replicate len y).set k x) := by
  refine ⟨by simp [marked], hlen, Or.inl hhead, hcap, fun i hi => ?_⟩
  have hi : i < len := hi
  simp only [marked, getElem?_set, length_replicate, getElem?_replicate]
  by_cases heq : k = i
  · rw [if_pos (by rw [heq]), if_pos heq, if_pos hk]
  · rw [if_neg fun he => heq (phys_inj (by lia) (by lia) he).symm, if_neg heq, if_pos hi]

/-- An element after the range, with more in its place. -/
theorem getElem?_spliced (items : List α) {i j : ℕ} (hij : i ≤ j) (hj : j ≤ l.length)
    (hle : j - i ≤ items.length) (m : ℕ) :
    (l.take i ++ items ++ l.drop j)[j + (items.length - (j - i)) + m]? = l[j + m]? := by
  have hlen : (l.take i ++ items).length = i + items.length := by
    rw [length_append, length_take, min_eq_left (by lia)]
  rw [getElem?_append_right (by lia), hlen, getElem?_drop]
  congr 1
  lia

/-- **Elsewhere it fails**, for some elements and some allocator. -/
theorem splices_fails [Nontrivial α] {cap head len i j n : ℕ}
    (hrange : slice_range start_bound end_bound len = .ok (i, j)) (h0 : head ≠ 0)
    (hhead : head < cap) (hlen : len ≤ cap) (hj : j ≠ len) (hn : ¬n ≤ j - i)
    (hmax : cap + (n - (j - i)) < t.isizeMax) {lower : ℕ → ℕ} {trusted_len : Bool}
    (hr : ∀ items : List α, (Replacements.mk items lower trusted_len).Correct) (calls : List End)
    (needs_drop : Bool) :
    ∃ (d : VecDeque α) (l items : List α) (alloc : ℕ → ℕ), Sized t d l ∧ d.buf.cap = cap ∧
      d.head = head ∧ l.length = len ∧ items.length = n ∧
      ¬Splices t none alloc d start_bound end_bound ⟨items, lower, trusted_len⟩ calls needs_drop
        l i j := by
  obtain ⟨x, y, hxy⟩ := exists_pair_ne α
  obtain ⟨hij, hjlen⟩ := slice_range_le hrange
  have hjlt : j < len := by lia
  have hmore : 0 < n - (j - i) := by lia
  obtain ⟨m, hm, hmisplaced⟩ := misplaced h0 hhead hlen hjlt hmore
  have hsized := marked_holds (t := t) x y hhead hlen hm (by lia)
  have hl : ((replicate len y).set (j + m) x).length = len := by simp
  refine ⟨_, _, replicate n y, fun _ => cap + (n - (j - i)) + 1, hsized, rfl, rfl, hl,
    length_replicate, ?_⟩
  generalize hd : marked cap head len (j + m) x y = d at hsized
  generalize hlist : (replicate len y).set (j + m) x = l at hsized hl
  have hfails : ¬AllocFails t (none : Option α) (fun _ => cap + (n - (j - i)) + 1)
      (i + (l.length - j) + n) := by
    rintro ⟨needed, hneeded, hover⟩
    have hover : t.isizeMax < max needed (cap + (n - (j - i)) + 1) := hover
    lia
  rintro ⟨s, s', hsplice, hrun, hdrop⟩
  have hholds : Holds t none d l := hsized
  obtain ⟨s1, s2, hsplice', hrun', hexhaust, hs2, hsame⟩ := splice_start (by simp) hholds
    (by rwa [hl]) ⟨replicate n y, lower, trusted_len⟩ calls
  rw [hsplice'] at hsplice
  cases hsplice
  rw [hrun'] at hrun
  cases hrun
  -- the run is the one that puts the replacements in
  have hlen2 := hs2.len
  have htail2 := hs2.tail_len
  have hfits2 := hs2.gapped.fits
  rw [length_take, min_eq_left (by lia)] at hlen2 hfits2
  rw [length_drop] at htail2 hfits2
  have hdrain2 : s2.drain_len = j - i := hsame.drain_len
  have hcap2 : s2.deque.buf.cap = cap := by rw [hsame.deque, ← hd]; rfl
  have hhead2 : s2.deque.head = head := by rw [hsame.deque, ← hd]; rfl
  have hmem2 : s2.deque.buf.mem = d.buf.mem := by rw [hsame.deque]; rfl
  have hspec := refill_spec (t := t) (fun _ => cap + (n - (j - i)) + 1) (s := s2)
    (by lia) (by lia) (by lia) (by lia) (hr (replicate n y))
  rw [hlen2, htail2, length_replicate] at hspec
  obtain ⟨s3, hs3, hrefilled⟩ := hspec.resolve_left fun h => hfails h.1
  obtain ⟨d', hd', hl'⟩ := hdrop.resolve_left fun h => hfails (by
    rw [length_replicate] at h
    exact h.1)
  have hlen3 := hrefilled.len
  have htail3 := hrefilled.tail_len
  have hroom3 := hrefilled.room
  have hcap3 := hrefilled.cap
  have hcap_le3 := hrefilled.cap_le
  have hdrain3 := hrefilled.drain_len
  rw [length_replicate] at hlen3 hroom3 hcap3 hdrain3
  have hrem3 : s3.remaining = 0 := hrefilled.remaining.trans hs2.remaining
  have hclosed := close_nothing (d := s3.deque) (t := t) (by rw [hrefilled.head]; lia) hcap_le3
    (show s3.tail_len ≠ 0 by lia)
  unfold Splice.drop at hd'
  dsimp only at hd'
  rw [hexhaust, bind_ok] at hd'
  rw [hs3, bind_ok, drop_done hrem3, show s3.drain_len = 0 by lia, hclosed] at hd'
  obtain rfl := (congrArg Prod.fst (Except.ok.inj hd')).symm
  -- the marked element is not where it is looked for
  have hcell := hl'.cells (j + (n - (j - i)) + m) (by simp only; lia)
  have hvalue := getElem?_spliced (replicate n y) (l := l) hij (by lia)
    (by rw [length_replicate]; lia) m
  rw [length_replicate, ← hlist, getElem?_set_self (by simp; lia), hlist] at hvalue
  rw [hvalue] at hcell
  obtain ⟨a1, a2, ha, hkeeps⟩ := hrefilled.keeps
  rw [length_replicate, hdrain2] at ha
  rcases hkeeps _ _ hcell with hx | ⟨q, hq, hcarried⟩
  · exact hxy (eq_of_mem_replicate hx)
  have hplace : q = phys cap head (j + m) := by
    rw [hmem2, ← hd] at hq
    by_contra hne
    simp only [marked, if_neg hne, Option.some.injEq] at hq
    exact hxy hq.symm
  rw [hplace, hlen2, hdrain2, htail2, hl, Nat.add_sub_cancel' hij] at hcarried
  dsimp only at hcarried
  rw [hrefilled.head, hhead2] at hcarried
  refine hmisplaced _ a1 a2 ha (by lia) ?_ hcarried
  rcases hcap3 with hsame | ⟨needed, hneeded, hlt, hge⟩
  · exact Or.inl (hsame.trans hcap2)
  · exact Or.inr ⟨by lia, by lia⟩

/-- Inserting an element before the last one of a deque that wraps around overwrites that one. -/
theorem splice_loses_tail :
    ¬Splices ⟨3, false⟩ none id wrapped (.Included 1) (.Excluded 1) ⟨[5], id, true⟩ [] true
      [0, 1] 1 1 := by
  rintro ⟨s, s', hsplice, hrun, hdrop⟩
  have hstart : wrapped.splice (.Included 1) (.Excluded 1) ⟨[5], id, true⟩ =
      .ok ⟨Drain.new wrapped 1 0, [5], id, true⟩ := rfl
  rw [hstart] at hsplice
  cases hsplice
  cases hrun
  rcases hdrop with ⟨⟨needed, hle, hover⟩, -⟩ | ⟨d', hd', hl⟩
  · have hle : needed ≤ 3 := hle
    have hover : Target.isizeMax ⟨3, false⟩ < max needed needed := hover
    have hmax : 3 ≤ Target.isizeMax ⟨3, false⟩ := by decide
    omega
  have hcell : (Splice.drop ⟨3, false⟩ none id ⟨Drain.new wrapped 1 0, [5], id, true⟩ true).map
      (fun r => (r.1.buf.cap, r.1.head, r.1.buf.mem 1)) = .ok (4, 3, none) := rfl
  rw [hd'] at hcell
  have hcell := Except.ok.inj hcell
  simp only [Prod.mk.injEq] at hcell
  obtain ⟨hcap, hhead, hmem⟩ := hcell
  have hlast := hl.cells 2 (by rw [← hl.length]; decide)
  rw [hcap, hhead] at hlast
  exact absurd (hmem.symm.trans hlast) (by decide)

/-- **Splicing, exactly.** It works for zero-sized elements, where the head is at the start of the
buffer, where nothing follows the range, and where the replacements are not more than what they
replace; of the deques of any other shape that may grow, it fails for some. -/
theorem splice_spec {zst : Option α} (hz : ∀ u, zst = some u → ∀ x, x = u)
    {start_bound end_bound : Bound ℕ} {len i j : ℕ}
    (hrange : slice_range start_bound end_bound len = .ok (i, j)) {lower : ℕ → ℕ}
    {trusted_len : Bool} (hr : ∀ items : List α, (Replacements.mk items lower trusted_len).Correct)
    (calls : List End) (needs_drop : Bool) :
    (∀ (d : VecDeque α) (l items : List α) (alloc : ℕ → ℕ), Holds t zst d l → l.length = len →
      zst.isSome ∨ d.head = 0 ∨ j = len ∨ items.length ≤ j - i →
      Splices t zst alloc d start_bound end_bound ⟨items, lower, trusted_len⟩ calls needs_drop
        l i j) ∧
    ∀ cap head n, (zst = none → Nontrivial α ∧ head < cap ∧ len ≤ cap ∧
        cap + (n - (j - i)) < t.isizeMax) →
      ((∀ (d : VecDeque α) (l items : List α) (alloc : ℕ → ℕ), Holds t zst d l → d.buf.cap = cap →
        d.head = head → l.length = len → items.length = n →
        Splices t zst alloc d start_bound end_bound ⟨items, lower, trusted_len⟩ calls needs_drop
          l i j) ↔
        zst.isSome ∨ head = 0 ∨ j = len ∨ n ≤ j - i) := by
  have hworks : ∀ (d : VecDeque α) (l items : List α) (alloc : ℕ → ℕ), Holds t zst d l →
      l.length = len → zst.isSome ∨ d.head = 0 ∨ j = len ∨ items.length ≤ j - i →
      Splices t zst alloc d start_bound end_bound ⟨items, lower, trusted_len⟩ calls needs_drop
        l i j := by
    intro d l items alloc h hl hcond
    exact splices hz h (by rwa [hl]) (hr items) (by rwa [hl]) calls needs_drop
  refine ⟨hworks, fun cap head n hshape => ⟨fun h => ?_,
    fun hcond d l items alloc hd _ hhead hl hn => hworks d l items alloc hd hl (by rwa [hhead, hn])⟩⟩
  by_contra hcond
  simp only [not_or] at hcond
  obtain ⟨hsized, h0, hj, hn⟩ := hcond
  obtain rfl : zst = none := by simpa using hsized
  obtain ⟨hnontrivial, hhead, hlen, hmax⟩ := hshape rfl
  obtain ⟨d, l, items, alloc, hd, hcap, hdhead, hl, hitems, hnot⟩ :=
    splices_fails hrange h0 hhead hlen hj hn hmax hr calls needs_drop
  exact hnot (h d l items alloc hd hcap hdhead hl hitems)

/-- A range in the middle of a deque of three elements, replaced by elements that are counted
beforehand. -/
theorem splice_spec_middle :
    (∀ (d : VecDeque ℕ) (l items : List ℕ) (alloc : ℕ → ℕ), Holds ⟨3, false⟩ none d l →
      l.length = 3 →
      (none : Option ℕ).isSome ∨ d.head = 0 ∨ 2 = 3 ∨ items.length ≤ 2 - 1 →
      Splices ⟨3, false⟩ none alloc d (.Included 1) (.Excluded 2) ⟨items, id, true⟩ [.back] true
        l 1 2) ∧
    ∀ cap head n, ((none : Option ℕ) = none → Nontrivial ℕ ∧ head < cap ∧ 3 ≤ cap ∧
        cap + (n - (2 - 1)) < Target.isizeMax ⟨3, false⟩) →
      ((∀ (d : VecDeque ℕ) (l items : List ℕ) (alloc : ℕ → ℕ), Holds ⟨3, false⟩ none d l →
        d.buf.cap = cap → d.head = head → l.length = 3 → items.length = n →
        Splices ⟨3, false⟩ none alloc d (.Included 1) (.Excluded 2) ⟨items, id, true⟩ [.back] true
          l 1 2) ↔
        (none : Option ℕ).isSome ∨ head = 0 ∨ 2 = 3 ∨ n ≤ 2 - 1) :=
  splice_spec (by simp) rfl (fun _ => ⟨fun _ => le_rfl, fun _ _ => rfl⟩) [.back] true

end RustStd.VecDeque
