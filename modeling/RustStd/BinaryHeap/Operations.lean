import RustStd.BinaryHeap.Sift

/-!
# What the operations on a heap do

Each operation ends without a fault, in a slice in heap order (`IsHeap`) with the elements the
operation says. `rebuild_tail` gives this from a slice whose part before `start` is a heap, by
either of its strategies.
-/

namespace RustStd.BinaryHeap

open HeapOrder List Nat Bool

variable {α : Type} [Preorder α]

/-- Heap order of a slice. -/
def IsHeap (l : List α) : Prop := ∀ i, 0 < i → ∀ h : i < l.length, l[i] ≤ l[(i - 1) / 2]

theorem isHeap_iff (d : α) (l : List α) : IsHeap l ↔ HeapOrdered (view d l) 0 l.length := by
  constructor
  · intro h j hj h0 _
    have := parent_lt h0
    rw [view_eq d hj, view_eq d (by lia)]
    exact h j h0 hj
  · intro h i h0 hi
    have := parent_lt h0
    have key := h i hi h0 (zero_le _)
    rw [view_eq d hi, view_eq d (by lia)] at key
    exact key

theorem isHeap_nil : IsHeap ([] : List α) := fun _ _ h => absurd h (not_lt_zero _)

theorem isHeap_singleton (x : α) : IsHeap [x] := fun i h0 h => by
  simp only [length_singleton] at h
  lia

variable {l : List α}

/-- The first element of a heap is a greatest one. -/
theorem IsHeap.le_head {x : α} (h : IsHeap (x :: l)) : ∀ y ∈ x :: l, y ≤ x := by
  intro y hy
  obtain ⟨i, hi, rfl⟩ := getElem_of_mem hy
  have := ((isHeap_iff x _).1 h).le_root i hi
  rwa [view_eq x hi, view_eq x (by simp)] at this

variable {d : α}

theorem heapOrdered_append (h : IsHeap l) (m : List α) :
    HeapOrdered (view d (l ++ m)) 0 l.length := by
  refine ((isHeap_iff d l).1 h).congr fun j hj => ?_
  rw [view_eq d (by rw [length_append]; lia), view_eq d hj, getElem_append_left hj]

/-- The first element of a heap may be replaced. -/
theorem holeAt_replace_root {x y : α} (h : IsHeap (x :: l)) :
    HoleAt (view d (y :: l)) 0 (y :: l).length 0 := by
  refine ((isHeap_iff d _).1 h).holeAt_root fun j _ h0 => ?_
  obtain ⟨k, rfl⟩ := exists_eq_succ_of_ne_zero h0.ne'
  rfl

theorem Sifted.isHeap {l' : List α} (h : Sifted d 0 l.length l l') : IsHeap l' :=
  (isHeap_iff d l').2 (h.length ▸ h.ordered)

variable [DecidableLE α] [DecidableLT α] [Std.Total (α := α) (· ≤ ·)] {t : Target}
variable {h : BinaryHeap α}

/-! ## Rebuilding -/

theorem rebuild_spec (l : List α) (hmax : l.length ≤ t.isizeMax) :
    ∃ l', rebuild t l = some l' ∧ l'.Perm l ∧ IsHeap l' := by
  match l with
  | [] => exact ⟨[], by simp [rebuild, runLoop, rebuild_turn], List.Perm.refl _, isHeap_nil⟩
  | d :: tl =>
    set l := d :: tl with hl
    obtain ⟨l', hrun, hperm, hord⟩ := runLoop_spec (rebuild_turn t)
      (fun s : List α × ℕ => s.1.Perm l ∧ s.2 ≤ l.length / 2 ∧
        HeapOrdered (view d s.1) s.2 l.length)
      (fun s => s.2) (fun l' => l'.Perm l ∧ HeapOrdered (view d l') 0 l.length)
      (by
        rintro ⟨data, n⟩ ⟨(hperm : data.Perm l), (hn : n ≤ l.length / 2), hord⟩
        simp only [rebuild_turn]
        split
        · rename_i h0
          obtain ⟨m, rfl⟩ := exists_eq_succ_of_ne_zero h0.ne'
          have hlen := hperm.length_eq
          obtain ⟨data', p, hdown, hs⟩ := sift_down_range_spec (t := t) (d := d) data m m
            data.length (by lia) (by lia) le_rfl le_rfl
            (by rw [hlen]; exact HeapOrdered.holeAt_succ hord)
            (fun h0 hlo => absurd hlo (not_le.2 (parent_lt h0)))
          change sift_down t data m = _ at hdown
          simp only [succ_sub_one, hdown, some_bind]
          exact ⟨⟨hs.sifted.perm.trans hperm, by lia, by rw [← hlen]; exact hs.sifted.ordered⟩,
            lt_succ_self m⟩
        · rename_i h0
          obtain rfl : n = 0 := by lia
          exact ⟨hperm, hord⟩)
      (l.length / 2 + 1) (l, l.length / 2) ⟨List.Perm.refl _, le_rfl, heapOrdered_half _ _⟩
      (lt_succ_self _)
    exact ⟨l', hrun, hperm, (isHeap_iff d l').2 (hperm.length_eq ▸ hord)⟩

omit [DecidableLT α] in
/-- Sifting up the entries of the tail, one after the other. -/
theorem sift_tail_spec {start : ℕ} (hs : start ≤ l.length)
    (hord : HeapOrdered (view d l) 0 start) :
    ∃ l', runLoop sift_tail_turn (l.length - start + 1) (l, start) = some l' ∧ l'.Perm l ∧
      IsHeap l' := by
  obtain ⟨l', hrun, hperm, hord'⟩ := runLoop_spec sift_tail_turn
    (fun s : List α × ℕ => s.1.Perm l ∧ s.2 ≤ l.length ∧ HeapOrdered (view d s.1) 0 s.2)
    (fun s => l.length - s.2)
    (fun l' => l'.Perm l ∧ HeapOrdered (view d l') 0 l.length)
    (by
      rintro ⟨data, i⟩ ⟨(hperm : data.Perm l), (hi : i ≤ l.length), (hord : HeapOrdered _ _ i)⟩
      have hlen := hperm.length_eq
      simp only [sift_tail_turn]
      split
      · rename_i hlt
        obtain ⟨data', p, hup, hs⟩ := sift_up_spec (d := d) data i (i + 1) (Nat.lt_succ_self i) hlt
          hord.holeAt_end (fun j hj h0 hp => by have := parent_lt h0; lia)
        simp only [hup, some_bind]
        exact ⟨⟨hs.perm.trans hperm, by lia, hs.ordered⟩,
          Nat.sub_lt_sub_left (by lia) (Nat.lt_succ_self i)⟩
      · rename_i hge
        exact ⟨hperm, hord.mono le_rfl (by lia)⟩)
    (l.length - start + 1) (l, start) ⟨List.Perm.refl _, hs, hord⟩ (Nat.lt_succ_self _)
  exact ⟨l', hrun, hperm, (isHeap_iff d l').2 (hperm.length_eq ▸ hord')⟩

/-- **`rebuild_tail` makes a heap of a slice whose part before `start` is one**, whichever
strategy it takes. -/
theorem rebuild_tail_spec (l : List α) (start : ℕ) (hmax : l.length ≤ t.isizeMax)
    (hs : start ≤ l.length) (hheap : IsHeap (l.take start)) :
    ∃ l', rebuild_tail t l start = some l' ∧ l'.Perm l ∧ IsHeap l' := by
  unfold rebuild_tail
  split
  · rename_i heq
    subst heq
    rw [take_length] at hheap
    exact ⟨l, rfl, List.Perm.refl _, hheap⟩
  split
  · exact rebuild_spec l hmax
  · match l, hs, hheap with
    | [], _, _ => exact ⟨[], rfl, List.Perm.refl _, isHeap_nil⟩
    | d :: tl, hs, hheap =>
      refine sift_tail_spec (d := d) hs ?_
      have := heapOrdered_append (d := d) hheap ((d :: tl).drop start)
      rwa [take_append_drop, length_take, min_eq_left hs] at this

/-! ## Operations -/

omit [DecidableLT α] in
theorem push_spec (hh : IsHeap h.data.elems) (x : α) :
    ∃ h', h.push x = some h' ∧ IsHeap h'.data.elems ∧
      (h'.data.elems : Multiset α) = x ::ₘ (h.data.elems : Multiset α) := by
  have hfull : (h.data.elems ++ [x]).length = h.len + 1 := by simp [len, Vec.len]
  obtain ⟨l', p, hup, hs⟩ := sift_up_spec (d := x) (h.data.elems ++ [x]) h.len
    (h.len + 1) (lt_succ_self _) hfull.ge (heapOrdered_append hh [x]).holeAt_end
    (fun j hj h0 hp => by have := parent_lt h0; lia)
  refine ⟨⟨⟨l', h.data.rest.drop 1⟩⟩, ?_, (hfull ▸ hs).isHeap, ?_⟩
  · rw [push]
    simp [withElems, Vec.push, Vec.extend, hup, some_bind]
  · rw [Multiset.cons_coe]
    exact Multiset.coe_eq_coe.2 (hs.perm.trans (perm_append_singleton x _))

omit [DecidableLT α] in
/-- `pop` takes the first element away, also when it is not a greatest one. -/
theorem pop_cons {x : α} {tl : List α} (rest : List α)
    (hmax : (x :: tl).length ≤ t.isizeMax) {y : α} (hh : IsHeap (y :: tl)) :
    ∃ h', pop t ⟨⟨x :: tl, rest⟩⟩ = some (h', some x) ∧ IsHeap h'.data.elems ∧
      (h'.data.elems : Multiset α) = (tl : Multiset α) ∧ h'.len ≤ t.isizeMax := by
  rcases eq_nil_or_concat tl with rfl | ⟨init, item, rfl⟩
  · exact ⟨_, rfl, isHeap_nil, rfl, zero_le _⟩
  have hpop : Vec.pop ⟨x :: init.concat item, rest⟩ = (⟨x :: init, item :: rest⟩, some item) := by
    simp only [Vec.pop, concat_eq_append]
    rw [show x :: (init ++ [item]) = (x :: init) ++ [item] from rfl, getLast?_concat,
      dropLast_concat]
  have hheap : IsHeap (y :: init) := by
    intro i h0 hi
    have hi' : i < (y :: init.concat item).length := by
      simp only [concat_eq_append, length_cons, length_append] at hi ⊢
      lia
    have hp : (i - 1) / 2 < (y :: init).length := by lia
    have key := hh i h0 hi'
    simp only [concat_eq_append, ← cons_append] at key
    rwa [getElem_append_left hi, getElem_append_left hp] at key
  have hlen : (item :: init).length ≤ t.isizeMax := by
    simp only [concat_eq_append, length_cons, length_append] at hmax ⊢
    lia
  obtain ⟨l', hdown, hs⟩ := sift_down_to_bottom_spec (t := t) (d := y) (l := item :: init) hlen
    (by simp) (holeAt_replace_root hheap)
  refine ⟨⟨⟨l', item :: rest⟩⟩, ?_, hs.isHeap, ?_, hs.length.trans_le hlen⟩
  · simp only [pop, hpop, hdown, some_bind]
  · rw [concat_eq_append]
    exact Multiset.coe_eq_coe.2 (hs.perm.trans (perm_append_singleton item init).symm)

theorem fromVec_spec (v : List α) (hmax : v.length ≤ t.isizeMax) :
    ∃ h, fromVec t v = some h ∧ IsHeap h.data.elems ∧ (h.data.elems : Multiset α) = v := by
  obtain ⟨l', hr, hperm, hheap⟩ := rebuild_spec v hmax
  exact ⟨⟨⟨l', []⟩⟩, by simp [fromVec, hr], hheap, Multiset.coe_eq_coe.2 hperm⟩

theorem extend_spec (hh : IsHeap h.data.elems) (xs : List α)
    (hmax : h.len + xs.length ≤ t.isizeMax) :
    ∃ h', h.extend t xs = some h' ∧ IsHeap h'.data.elems ∧
      (h'.data.elems : Multiset α) = (h.data.elems : Multiset α) + xs := by
  obtain ⟨l', hr, hperm, hheap⟩ := rebuild_tail_spec (t := t) (h.data.elems ++ xs)
    h.len (by rw [length_append]; exact hmax)
    (by rw [length_append]; exact le_add_right _ _)
    (by rwa [len, Vec.len, take_left])
  refine ⟨⟨⟨l', h.data.rest.drop xs.length⟩⟩, ?_, hheap, ?_⟩
  · simp only [extend, Vec.extend, withElems, hr, some_bind]
  · rw [Multiset.coe_add]
    exact Multiset.coe_eq_coe.2 hperm

theorem append_spec {self other : BinaryHeap α} (hs : IsHeap self.data.elems)
    (ho : IsHeap other.data.elems) (hmax : self.len + other.len ≤ t.isizeMax) :
    ∃ self' other', self.append t other = some (self', other') ∧ IsHeap self'.data.elems ∧
      (self'.data.elems : Multiset α) = (self.data.elems : Multiset α) + other.data.elems ∧
      other'.data.elems = [] := by
  -- the longer of the two comes first
  obtain ⟨a, b, hswap, ha, hab, hsum⟩ : ∃ a b : BinaryHeap α,
      (if self.len < other.len then (other, self) else (self, other)) = (a, b) ∧
        IsHeap a.data.elems ∧ a.len + b.len ≤ t.isizeMax ∧
        (a.data.elems : Multiset α) + b.data.elems = self.data.elems + other.data.elems := by
    split
    · exact ⟨other, self, rfl, ho, by lia, Multiset.add_comm _ _⟩
    · exact ⟨self, other, rfl, hs, hmax, rfl⟩
  obtain ⟨a', hext, hheap, hbag⟩ := extend_spec ha b.data.elems hab
  refine ⟨a', ⟨⟨[], b.data.elems ++ b.data.rest⟩⟩, ?_, hheap, hbag.trans hsum, rfl⟩
  simp only [extend, Option.bind_eq_bind, Option.bind_eq_some_iff, Option.some.injEq] at hext
  obtain ⟨elems, hr, rfl⟩ := hext
  simp only [append, hswap, hr, some_bind]

omit [Preorder α] [DecidableLE α] [DecidableLT α] [Std.Total (α := α) (· ≤ ·)] in
/-- The elements kept, by the predicate's answers at its calls from the `i`-th on. -/
def keep (f : ℕ → α → Bool) : ℕ → List α → List α
  | _, [] => []
  | i, e :: es => if f i e then e :: keep f (i + 1) es else keep f (i + 1) es

omit [Preorder α] [DecidableLE α] [DecidableLT α] [Std.Total (α := α) (· ≤ ·)] in
/-- The pass keeps what the predicate accepts; `rebuild_from` is at most what it was, and the
elements before it are kept in place. -/
theorem retain_pass_spec (f : ℕ → α → Bool) (l : List α) (i r : ℕ) :
    (retain_pass f i r l).1 = keep f i l ∧ (retain_pass f i r l).2 ≤ r ∧
      (i ≤ (retain_pass f i r l).2 →
        (keep f i l).take ((retain_pass f i r l).2 - i) =
          l.take ((retain_pass f i r l).2 - i)) := by
  induction l generalizing i r with
  | nil => simp [retain_pass, keep]
  | cons e es ih =>
    simp only [retain_pass, keep]
    cases hf : f i e
    · obtain ⟨h1, h2, -⟩ := ih (i + 1) (if i < r then i else r)
      simp only [Bool.not_false, Bool.true_and, decide_eq_true_eq, Bool.false_eq_true, if_false]
      refine ⟨h1, h2.trans (by split <;> lia), fun hle => ?_⟩
      have : (retain_pass f (i + 1) (if i < r then i else r) es).2 - i = 0 := by
        split <;> rename_i hlt <;> simp only [hlt, if_true, if_false] at h2 <;> lia
      rw [this]
      simp
    · obtain ⟨h1, h2, h3⟩ := ih (i + 1) r
      simp only [Bool.not_true, Bool.false_and, Bool.false_eq_true, if_false, if_true]
      refine ⟨by rw [h1], h2, fun hle => ?_⟩
      rcases Nat.eq_or_lt_of_le hle with heq | hlt
      · rw [← heq, Nat.sub_self, List.take_zero, List.take_zero]
      · obtain ⟨k, hk⟩ : ∃ k, (retain_pass f (i + 1) r es).2 - i = k + 1 :=
          ⟨(retain_pass f (i + 1) r es).2 - i - 1, by lia⟩
        have h3 := h3 hlt
        rw [show (retain_pass f (i + 1) r es).2 - (i + 1) = k by lia] at h3
        rw [hk, List.take_succ_cons, List.take_succ_cons, h3]

omit [Preorder α] [DecidableLE α] [DecidableLT α] [Std.Total (α := α) (· ≤ ·)] in
theorem keep_length_le (f : ℕ → α → Bool) (i : ℕ) (l : List α) :
    (keep f i l).length ≤ l.length := by
  induction l generalizing i with
  | nil => simp [keep]
  | cons e es ih =>
    have := ih (i + 1)
    rw [keep]
    split <;> simp only [length_cons] <;> lia

theorem retain_spec (hh : IsHeap h.data.elems) (f : ℕ → α → Bool) (hmax : h.len ≤ t.isizeMax) :
    ∃ h', h.retain t f = some h' ∧ IsHeap h'.data.elems ∧
      (h'.data.elems : Multiset α) = keep f 0 h.data.elems := by
  obtain ⟨h1, h2, h3⟩ := retain_pass_spec f h.data.elems 0 h.len
  have h3 := h3 (zero_le _)
  have hlen := keep_length_le f 0 h.data.elems
  simp only [Nat.sub_zero] at h3
  have hstart : (retain_pass f 0 h.len h.data.elems).2 ≤ (keep f 0 h.data.elems).length := by
    have := congrArg length h3
    rw [length_take, length_take] at this
    have hle : (retain_pass f 0 h.len h.data.elems).2 ≤ h.data.elems.length := h2
    lia
  have hkept : IsHeap ((keep f 0 h.data.elems).take (retain_pass f 0 h.len h.data.elems).2) := by
    rw [h3]
    intro i h0 hi
    have hi' : i < h.data.elems.length := by rw [length_take] at hi; lia
    rw [getElem_take, getElem_take]
    exact hh i h0 hi'
  obtain ⟨l', hr, hperm, hheap⟩ := rebuild_tail_spec (t := t) _ _ (hlen.trans hmax) hstart hkept
  refine ⟨⟨⟨l', (h.data.elems ++ h.data.rest).drop l'.length⟩⟩, ?_, hheap,
    Multiset.coe_eq_coe.2 hperm⟩
  simp only [retain, h1, hr, some_bind]

/-! ## `into_sorted_vec` -/

/-- The heap before `last`, and after it the sorted elements taken off it so far. -/
structure SortedInv (d : α) (l data : List α) (last : ℕ) : Prop where
  perm : data.Perm l
  le : last ≤ l.length
  ordered : HeapOrdered (view d data) 0 last
  sorted : (data.drop last).Pairwise (· ≤ ·)
  split : ∀ x ∈ data.take last, ∀ y ∈ data.drop last, x ≤ y

/-- A turn moves the greatest of the heap before the sorted part. -/
theorem SortedInv.turn {data : List α} {last : ℕ} (hi : SortedInv d l data (last + 1))
    (h0 : 0 < last) (hmax : l.length ≤ t.isizeMax) :
    ∃ data', sorted_turn t (data, last + 1) = some (.again (data', last)) ∧
      SortedInv d l data' last := by
  have hle := hi.le
  have hlen := hi.perm.length_eq
  have hlast : last < data.length := by lia
  have hzero : 0 < data.length := by lia
  set s := (data.set 0 data[last]).set last data[0] with hs
  have hslen : s.length = data.length := by simp [hs]
  have hget : ∀ k, 0 < k → k < last → view d s k = view d data k := by
    intro k hk hkl
    simp only [view, hs, getD_eq_getElem?_getD]
    rw [getElem?_set_ne (by lia), getElem?_set_ne (by lia)]
  have hhole : HoleAt (view d s) 0 last 0 :=
    (hi.ordered.mono le_rfl (le_succ last)).holeAt_root fun j hj hj0 => hget j hj0 hj
  obtain ⟨data', p, hdown, hsd⟩ := sift_down_range_spec (t := t) (d := d) s 0 0 last
    (by lia) h0 (by lia) le_rfl hhole (fun h => absurd h (lt_irrefl 0))
  have hsift := hsd.sifted
  -- the part from `last` on is the old greatest before the old sorted part
  have hdrop : data'.drop last = data[0] :: data.drop (last + 1) := by
    have hds : data'.drop last = s.drop last := by
      refine ext_getElem? fun k => ?_
      rw [getElem?_drop, getElem?_drop, hsift.past _ (Nat.le_add_right _ _)]
    rw [hds, drop_eq_getElem_cons (by lia)]
    congr 1
    · simp [hs]
    · rw [hs, drop_set_of_lt (lt_succ_self _), drop_set_of_lt (succ_pos _)]
  have hswap : s.Perm data := set_set_perm hzero hlast
  have htake : (data[0] :: data'.take last).Perm (data.take (last + 1)) := by
    have h1 : (data'.take last ++ data[0] :: data.drop (last + 1)).Perm
        (data.take (last + 1) ++ data.drop (last + 1)) := by
      rw [← hdrop, take_append_drop, take_append_drop]
      exact hsift.perm.trans hswap
    rw [append_cons] at h1
    exact (perm_append_singleton _ _).symm.trans ((perm_append_right_iff _).1 h1)
  have hroot : ∀ x ∈ data.take (last + 1), x ≤ data[0] := by
    intro x hx
    obtain ⟨k, hk, rfl⟩ := getElem_of_mem hx
    rw [length_take] at hk
    have := hi.ordered.le_root k (by lia)
    rw [view_eq d (by lia), view_eq d hzero] at this
    rwa [getElem_take]
  refine ⟨data', ?_, hsift.perm.trans (hswap.trans hi.perm), by lia, hsift.ordered, ?_, ?_⟩
  · simp only [sorted_turn, if_pos (show last + 1 > 1 by lia), Nat.add_sub_cancel,
      getElem?_eq_getElem hzero, getElem?_eq_getElem hlast, some_bind]
    rw [← hs, hdown]
    rfl
  · rw [hdrop, pairwise_cons]
    refine ⟨fun y hy => hi.split _ ?_ y hy, hi.sorted⟩
    exact htake.subset (mem_cons_self ..)
  · intro x hx y hy
    have hx' := htake.subset (mem_cons_of_mem _ hx)
    rw [hdrop, mem_cons] at hy
    rcases hy with rfl | hy
    · exact hroot x hx'
    · exact hi.split x hx' y hy

/-- **`into_sorted_vec` ends in the ascending permutation.** -/
theorem into_sorted_vec_spec (hh : IsHeap h.data.elems) (hmax : h.len ≤ t.isizeMax) :
    ∃ l, h.into_sorted_vec t = some l ∧ l.Perm h.data.elems ∧ l.Pairwise (· ≤ ·) := by
  unfold into_sorted_vec len Vec.len
  change h.data.elems.length ≤ _ at hmax
  generalize h.data.elems = l at hh hmax
  match l with
  | [] => exact ⟨[], by simp [runLoop, sorted_turn], List.Perm.refl _, List.Pairwise.nil⟩
  | d :: tl =>
    set l := d :: tl with hl
    obtain ⟨l', hrun, hperm, hsorted⟩ := runLoop_spec (sorted_turn t)
      (fun s : List α × ℕ => SortedInv d l s.1 s.2) (fun s => s.2)
      (fun l' => l'.Perm l ∧ l'.Pairwise (· ≤ ·))
      (by
        rintro ⟨data, last⟩ (hi : SortedInv d l data last)
        by_cases hgt : last > 1
        · obtain ⟨m, rfl⟩ := exists_eq_succ_of_ne_zero (show last ≠ 0 by lia)
          obtain ⟨data', hturn, hi'⟩ := hi.turn (t := t) (by lia) hmax
          rw [hturn]
          exact ⟨hi', lt_succ_self m⟩
        simp only [sorted_turn, if_neg hgt]
        refine ⟨hi.perm, ?_⟩
        rw [← take_append_drop last data, pairwise_append]
        refine ⟨?_, hi.sorted, hi.split⟩
        have : (data.take last).length ≤ 1 := by rw [length_take]; lia
        match data.take last, this with
        | [], _ => exact List.Pairwise.nil
        | [x], _ => exact pairwise_singleton _ x)
      (l.length + 1) (l, l.length)
      ⟨List.Perm.refl _, le_rfl, (isHeap_iff d l).1 hh, by simp, by simp⟩ (lt_succ_self _)
    exact ⟨l', hrun, hperm, hsorted⟩

/-! ## Sifting the root down -/

/-- Sifting the root down after a write: the heap's elements in order, and whether the root moved,
which it does exactly when another element was greater. -/
theorem sift_down_root_spec {x y : α} {tl : List α} (hh : IsHeap (y :: tl))
    (hmax : (x :: tl).length ≤ t.isizeMax) :
    ∃ top others p, sift_down t (x :: tl) 0 = some (top :: others, p) ∧ IsHeap (top :: others) ∧
      (top :: others).Perm (x :: tl) ∧ (p = 0 → top = x ∧ others = tl) ∧ (p ≠ 0 → x < top) := by
  obtain ⟨l', p, hdown, hs⟩ := sift_down_range_spec (t := t) (d := x) (x :: tl) 0 0
    (x :: tl).length hmax (by simp) le_rfl le_rfl
    (holeAt_replace_root hh) (fun h => absurd h (lt_irrefl 0))
  have hperm := hs.sifted.perm
  match l', hs, hperm, hs.sifted.isHeap, hdown with
  | [], _, hperm, _, _ => exact absurd hperm.length_eq (by simp)
  | top :: others, hs, hperm, hheap, hdown =>
    refine ⟨top, others, p, hdown, hheap, hperm, fun h => ?_, fun h => ?_⟩
    · rcases hs.moved with ⟨-, heq⟩ | ⟨hlt, -⟩
      · exact cons.inj heq
      · lia
    · rcases hs.moved with ⟨rfl, -⟩ | ⟨-, hlt⟩
      · exact absurd rfl h
      · exact hlt

end RustStd.BinaryHeap
