import RustStd.BTree.Dying

/-!
# Iterators by value

`IntoIter` takes the pairs out of a map and deallocates the nodes. `Unravels` says what it has left:
the nodes that neither end has left are as they were in the map. When nothing is left, the last
nodes go at the next call, and after that there is no front any more.
-/

namespace RustStd.BTree

open DoubleEnded List Nat LazyLeafRange

variable {K V : Type}

/-! ## The model -/

/-- `IntoIter`, with the nodes that it owns. -/
structure IntoIter (K V : Type) where
  dying : Dying K V
  range : LazyLeafRange
  length : ℕ

def BTreeMap.into_iter (m : BTreeMap K V) : IntoIter K V :=
  match m.root with
  | some root => ⟨⟨m.heap, []⟩, full_range root root, m.length⟩
  | none => ⟨⟨m.heap, []⟩, ⟨none, none⟩, 0⟩

/-- How a call ends whose destructors may panic. -/
inductive DropExit
  | returned
  | unwound
  | aborted
  deriving DecidableEq, Repr

/-- A panic unwinds, a second one while unwinding aborts. -/
def DropExit.of_panics : ℕ → DropExit
  | 0 => .returned
  | 1 => .unwound
  | _ => .aborted

namespace IntoIter

def dying_next (self : IntoIter K V) : Option (Option (Handle .KV) × IntoIter K V) :=
  if self.length = 0 then do
    let (dying, range) ← self.range.deallocating_end self.dying
    some (none, { self with dying, range })
  else do
    let (kv, dying, range) ← self.range.deallocating_next_unchecked self.dying
    some (some kv, { dying, range, length := self.length - 1 })

def dying_next_back (self : IntoIter K V) : Option (Option (Handle .KV) × IntoIter K V) :=
  if self.length = 0 then do
    let (dying, range) ← self.range.deallocating_end self.dying
    some (none, { self with dying, range })
  else do
    let (kv, dying, range) ← self.range.deallocating_next_back_unchecked self.dying
    some (some kv, { dying, range, length := self.length - 1 })

def next (self : IntoIter K V) : Option (Option (K × V) × IntoIter K V) := do
  match ← self.dying_next with
  | (none, self) => some (none, self)
  | (some kv, self) => do some (some (← kv.into_key_val self.dying), self)

def next_back (self : IntoIter K V) : Option (Option (K × V) × IntoIter K V) := do
  match ← self.dying_next_back with
  | (none, self) => some (none, self)
  | (some kv, self) => do some (some (← kv.into_key_val self.dying), self)

/-- A call at an end. -/
def call : End → IntoIter K V → Option (Option (K × V) × IntoIter K V)
  | .front => next
  | .back => next_back

section Drop

-- how many of the destructors of a pair, of its key and of its value, panic
variable (panics : K × V → ℕ)

/-- `DropGuard::drop`, with the pairs dropped so far. The destructor of the value runs even if that
of the key panics. -/
def drop_guard_turn (s : IntoIter K V × List (K × V)) :
    Option (Turn (IntoIter K V × List (K × V)) (IntoIter K V × List (K × V) × DropExit)) := do
  let (self, dropped) := s
  match ← self.dying_next with
  | (none, self) => some (.done (self, dropped, .unwound))
  | (some kv, self) => do
    let pair ← kv.into_key_val self.dying
    match panics pair with
    | 0 => some (.again (self, dropped ++ [pair]))
    | _ => some (.done (self, dropped ++ [pair], .aborted))

def drop_turn (s : IntoIter K V × List (K × V)) :
    Option (Turn (IntoIter K V × List (K × V)) (IntoIter K V × List (K × V) × DropExit)) := do
  let (self, dropped) := s
  match ← self.dying_next with
  | (none, self) => some (.done (self, dropped, .returned))
  | (some kv, self) => do
    let pair ← kv.into_key_val self.dying
    match panics pair with
    | 0 => some (.again (self, dropped ++ [pair]))
    | 1 => do
      some (.done (← runLoop (drop_guard_turn panics) (self.length + 1) (self, dropped ++ [pair])))
    | _ => some (.done (self, dropped ++ [pair], .aborted))

/-- `Drop::drop`, with the pairs that are dropped, in order. -/
def drop (self : IntoIter K V) : Option (IntoIter K V × List (K × V) × DropExit) :=
  runLoop (drop_turn panics) (self.length + 1) (self, [])

end Drop

end IntoIter

/-! ## What is left -/

variable {m : BTreeMap K V} {it : IntoIter K V} {l : List (K × V)}

/-- Each node of the map was deallocated once, and nothing else. -/
structure Deallocated (m : BTreeMap K V) (D : Dying K V) : Prop where
  nodup : D.deallocated.Nodup
  mem : ∀ x, x ∈ D.deallocated ↔ ∃ root, m.root = some root ∧ Below m.heap root x
  get : ∀ q, D.heap.get q = if q ∈ D.deallocated.map NodeRef.node then none else m.heap.get q

/-- The pairs that an iterator over the map has left. -/
inductive Unravels (m : BTreeMap K V) : IntoIter K V → List (K × V) → Prop
  | walking {ht : ℕ → ℕ} {top : NodeRef} {D : Dying K V} {front back : LazyLeafHandle}
      {pre l post : List (K × V)} (root : m.root = some top) (rooted : Rooted m.heap ht top)
      (dies : Dies m.heap top D (outside pre.length (pre ++ l).length))
      (at_front : LazyFront m.heap top front pre (l ++ post))
      (at_back : LazyBack m.heap top back (pre ++ l) post) :
      Unravels m ⟨D, ⟨some front, some back⟩, l.length⟩ l
  | ended {D : Dying K V} {back : Option LazyLeafHandle} (all : Deallocated m D) :
      Unravels m ⟨D, ⟨none, back⟩, 0⟩ []

theorem Unravels.length (h : Unravels m it l) : it.length = l.length := by
  cases h with
  | walking | ended => rfl

theorem BTreeMap.into_iter_unravels {cmp : K → K → Ordering} (hm : m.Valid cmp) :
    Unravels m m.into_iter m.inorder := by
  unfold BTreeMap.into_iter
  cases hroot : m.root with
  | none =>
    have hnil : m.inorder = [] := by rw [BTreeMap.inorder, hroot]
    rw [hnil]
    refine .ended ⟨nodup_nil, fun x => ?_, fun q => rfl⟩
    rw [hroot]
    exact iff_of_false not_mem_nil (by rintro ⟨_, h, _⟩; cases h)
  | some top =>
    obtain ⟨ht, I⟩ := hm.tree top hroot
    rw [hm.length]
    refine @Unravels.walking _ _ m ht top _ _ _ [] _ [] hroot I.toRooted
      ⟨fun q => rfl, rfl, nodup_nil, fun x => ?_⟩ ?_ ?_
    · refine iff_of_false not_mem_nil ?_
      rintro ⟨L, R, hctx, h⟩
      have hall := congrArg List.length (hctx.inorder I.forest)
      rw [BTreeMap.inorder_of_root hroot] at h
      simp only [outside, length_nil, nil_append, length_append] at h hall
      omega
    · rw [append_nil, BTreeMap.inorder_of_root hroot]
      exact .root
    · rw [nil_append, BTreeMap.inorder_of_root hroot]
      exact .root

/-! ## The ends -/

section Ends

variable {H : Heap K V} {ht : ℕ → ℕ} {top : NodeRef} {D : Dying K V} {pre post : List (K × V)}
  {a b : ℕ}

variable (X : Rooted H ht top)
include X

theorem LazyFront.init_dying {front : LazyLeafHandle}
    (h : LazyFront H top front pre post) (hD : Dies H top D (outside pre.length b))
    (hb : pre.length ≤ b) (back : Option LazyLeafHandle) :
    ∃ e, init_front D.heap ⟨some front, back⟩ =
        some (some e, ⟨some (.Edge e), back⟩) ∧ e.node.height = 0 ∧ EdgeAt H top e pre post := by
  obtain ⟨e, hinit, he⟩ := h.init X back
  refine ⟨e, ?_, he⟩
  rw [← hinit]
  cases h with
  | root =>
    have hfirst : top.first_leaf_edge D.heap = top.first_leaf_edge H := by
      refine first_leaf_edge_congr X .top fun y R hy => hD.get_of_not X hy ?_
      rw [hy.lies_iff X]
      exact not_outside (Nat.lt_irrefl 0) (Nat.not_lt_of_le hb) le_rfl (Nat.zero_le _)
    unfold init_front
    dsimp only
    rw [hfirst]
  | edge => rfl

theorem LazyBack.init_dying {back : LazyLeafHandle}
    (h : LazyBack H top back pre post) (hD : Dies H top D (outside a pre.length))
    (ha : a ≤ pre.length) (front : Option LazyLeafHandle) :
    ∃ e, init_back D.heap ⟨front, some back⟩ =
        some (some e, ⟨front, some (.Edge e)⟩) ∧ e.node.height = 0 ∧ EdgeAt H top e pre post := by
  obtain ⟨e, hinit, he⟩ := h.init X front
  refine ⟨e, ?_, he⟩
  rw [← hinit]
  cases h with
  | root =>
    have hlast : top.last_leaf_edge D.heap = top.last_leaf_edge H := by
      refine last_leaf_edge_congr X .top fun y L hy => hD.get_of_not X hy ?_
      have hall := congrArg length (hy.inorder X.forest)
      rw [append_nil, length_append] at hall
      rw [hy.lies_iff X]
      unfold outside
      omega
    unfold init_back
    dsimp only
    rw [hlast]
  | edge => rfl

theorem LazyFront.take {front : LazyLeafHandle}
    (h : LazyFront H top front pre post) (hD : Dies H top D (outside pre.length b))
    (hb : pre.length ≤ b) (back : Option LazyLeafHandle) :
    ∃ e, take_front D ⟨some front, back⟩ = some (some e, ⟨none, back⟩) ∧
      e.node.height = 0 ∧ EdgeAt H top e pre post := by
  obtain ⟨e, hinit, he⟩ := h.init_dying X hD hb back
  refine ⟨e, ?_, he⟩
  cases h with
  | root =>
    unfold init_front at hinit
    unfold take_front
    dsimp only at hinit ⊢
    cases hfirst : top.first_leaf_edge D.heap with
    | none =>
      rw [hfirst] at hinit
      cases hinit
    | some e' =>
      rw [hfirst, some_bind] at hinit
      obtain rfl : e' = e := by simpa using hinit
      rfl
  | @edge e' =>
    obtain rfl : e' = e := by simpa [init_front] using hinit
    rfl

end Ends

/-! ## Calls -/

/-- When nothing is left, the rest of the nodes go, unless they are gone. -/
theorem Unravels.deallocating_end (h : Unravels m it []) :
    ∃ D range, it.range.deallocating_end it.dying = some (D, range) ∧ Deallocated m D ∧
      Unravels m { it with dying := D, range } [] := by
  generalize hl : ([] : List (K × V)) = l at h
  unfold LazyLeafRange.deallocating_end
  cases h with
  | @walking ht top D front back pre l post root X dies at_front at_back =>
    subst hl
    rw [append_nil] at dies
    obtain ⟨e, htake, hheight, he⟩ := at_front.take X dies le_rfl (some back)
    obtain ⟨D', hend, hD'⟩ := deallocating_end_spec X (he.spans X.forest) hheight dies
    have hall : Deallocated m D' := by
      refine ⟨hD'.nodup, fun x => (hD'.mem x).trans ?_, hD'.get⟩
      constructor
      · rintro ⟨L, R, hctx, -⟩
        exact ⟨top, root, L, R, hctx⟩
      · rintro ⟨top', root', L, R, hctx⟩
        obtain rfl : top = top' := Option.some.inj (root.symm.trans root')
        exact ⟨L, R, hctx, trivial⟩
    rw [htake, some_bind]
    dsimp only
    rw [hend, some_bind]
    exact ⟨D', _, rfl, hall, .ended hall⟩
  | @ended D back all => exact ⟨D, _, rfl, all, .ended all⟩

theorem Unravels.dying_next_nil (h : Unravels m it []) :
    ∃ it', it.dying_next = some (none, it') ∧ Deallocated m it'.dying ∧ Unravels m it' [] := by
  obtain ⟨D, range, hend, hall, h'⟩ := h.deallocating_end
  have hlen : it.length = 0 := h.length
  unfold IntoIter.dying_next
  rw [if_pos hlen, hend, some_bind]
  exact ⟨_, rfl, hall, h'⟩

theorem Unravels.dying_next_back_nil (h : Unravels m it []) :
    ∃ it', it.dying_next_back = some (none, it') ∧ Deallocated m it'.dying ∧ Unravels m it' [] := by
  obtain ⟨D, range, hend, hall, h'⟩ := h.deallocating_end
  have hlen : it.length = 0 := h.length
  unfold IntoIter.dying_next_back
  rw [if_pos hlen, hend, some_bind]
  exact ⟨_, rfl, hall, h'⟩

theorem Unravels.dying_next_cons {kv : K × V} (h : Unravels m it (kv :: l)) :
    ∃ k it', it.dying_next = some (some k, it') ∧ k.into_key_val it'.dying = some kv ∧
      Unravels m it' l := by
  generalize hl : kv :: l = l' at h
  cases h with
  | @walking ht top D front back pre l' post root X dies at_front at_back =>
    subst hl
    have hb : pre.length < (pre ++ kv :: l).length := by simp
    obtain ⟨e, hinit, hheight, he⟩ := at_front.init_dying X dies hb.le (some back)
    obtain ⟨D', e', k, hnext, hD', hkv, hheight', he'⟩ :=
      deallocating_next_spec X he hheight hb dies
    have hstep : e.deallocating_next_unchecked D = some (D', e', k) := by
      unfold Handle.deallocating_next_unchecked
      rw [hnext, some_bind]
      rfl
    have hunchecked : deallocating_next_unchecked D ⟨some front, some back⟩ =
        some (k, D', ⟨some (.Edge e'), some back⟩) := by
      unfold deallocating_next_unchecked
      rw [hinit, some_bind]
      dsimp only
      rw [some_bind, hstep, some_bind]
    have hlen : (kv :: l).length ≠ 0 := succ_ne_zero _
    unfold IntoIter.dying_next
    rw [if_neg hlen, hunchecked, some_bind]
    refine ⟨k, _, rfl, hkv, ?_⟩
    have hsplit : pre ++ kv :: l = pre ++ [kv] ++ l := by simp
    rw [hsplit] at hD' at_back
    rw [← length_singleton (a := kv), ← length_append] at hD'
    exact .walking root X hD' (.edge hheight' he') at_back
  | ended => cases hl

theorem Unravels.dying_next_back_concat {kv : K × V} (h : Unravels m it (l ++ [kv])) :
    ∃ k it', it.dying_next_back = some (some k, it') ∧ k.into_key_val it'.dying = some kv ∧
      Unravels m it' l := by
  generalize hl : l ++ [kv] = l' at h
  cases h with
  | @walking ht top D front back pre l' post root X dies at_front at_back =>
    subst hl
    rw [← append_assoc] at dies at_back
    have ha : pre.length ≤ (pre ++ l ++ [kv]).length := by simp
    obtain ⟨e, hinit, hheight, he⟩ := at_back.init_dying X dies ha (some front)
    have hsize : (pre ++ l ++ [kv]).length = (pre ++ l).length + 1 := length_append
    rw [hsize] at dies
    obtain ⟨D', e', k, hnext, hD', hkv, hheight', he'⟩ :=
      deallocating_next_back_spec X he hheight (by simp) dies
    have hstep : e.deallocating_next_back_unchecked D = some (D', e', k) := by
      unfold Handle.deallocating_next_back_unchecked
      rw [hnext, some_bind]
      rfl
    have hunchecked : deallocating_next_back_unchecked D ⟨some front, some back⟩ =
        some (k, D', ⟨some front, some (.Edge e')⟩) := by
      unfold deallocating_next_back_unchecked
      rw [hinit, some_bind]
      dsimp only
      rw [some_bind, hstep, some_bind]
    have hlen : (l ++ [kv]).length ≠ 0 := by simp
    have hpred : (l ++ [kv]).length - 1 = l.length := by simp
    unfold IntoIter.dying_next_back
    rw [if_neg hlen, hunchecked, some_bind, hpred]
    refine ⟨k, _, rfl, hkv, ?_⟩
    rw [append_assoc] at at_front
    exact .walking root X hD' at_front (.edge hheight' he')
  | ended => simp at hl

/-- **A call at an end.** -/
theorem Unravels.call (e : End) (h : Unravels m it l) :
    ∃ it', IntoIter.call e it = some (e.peek l, it') ∧ Unravels m it' (e.rest l) := by
  cases e with
  | front =>
    unfold IntoIter.call IntoIter.next
    cases l with
    | nil =>
      obtain ⟨it', hnext, -, h'⟩ := h.dying_next_nil
      dsimp only
      rw [hnext, some_bind]
      exact ⟨it', rfl, h'⟩
    | cons kv l =>
      obtain ⟨k, it', hnext, hkv, h'⟩ := h.dying_next_cons
      dsimp only
      rw [hnext, some_bind]
      dsimp only
      rw [hkv, some_bind]
      exact ⟨it', rfl, h'⟩
  | back =>
    unfold IntoIter.call IntoIter.next_back
    rcases eq_nil_or_concat' l with rfl | ⟨l, kv, rfl⟩
    · obtain ⟨it', hnext, -, h'⟩ := h.dying_next_back_nil
      dsimp only
      rw [hnext, some_bind]
      exact ⟨it', rfl, h'⟩
    · obtain ⟨k, it', hnext, hkv, h'⟩ := h.dying_next_back_concat
      rw [End.peek, End.rest, getLast?_concat, dropLast_concat]
      dsimp only
      rw [hnext, some_bind]
      dsimp only
      rw [hkv, some_bind]
      exact ⟨it', rfl, h'⟩

/-! ## Dropping -/

section Drop

variable {panics : K × V → ℕ} {dropped : List (K × V)} {n : ℕ}

/-- What dropping the rest of an iterator does, when `k` destructors have panicked before. -/
structure Drops (m : BTreeMap K V) (panics : K × V → ℕ) (k : ℕ) (l dropped : List (K × V))
    (it' : IntoIter K V) (dropped' : List (K × V)) (exit : DropExit) : Prop where
  exits : exit = .of_panics (k + (l.map panics).sum)
  all : exit ≠ .aborted → dropped' = dropped ++ l ∧ Deallocated m it'.dying

theorem Drops.cons {kv : K × V} {it' : IntoIter K V} {dropped' : List (K × V)} {exit : DropExit}
    {k : ℕ} (h : Drops m panics (k + panics kv) l (dropped ++ [kv]) it' dropped' exit) :
    Drops m panics k (kv :: l) dropped it' dropped' exit := by
  refine ⟨?_, fun hne => ?_⟩
  · rw [h.exits, map_cons, sum_cons, add_assoc]
  · obtain ⟨hdropped, hall⟩ := h.all hne
    rw [append_assoc] at hdropped
    exact ⟨hdropped, hall⟩

/-- The second panic ends everything. -/
theorem Drops.aborted {kv : K × V} {k : ℕ} (h : 2 ≤ k + panics kv) (dropped' : List (K × V)) :
    Drops m panics k (kv :: l) dropped it dropped' .aborted := by
  refine ⟨?_, fun hne => absurd rfl hne⟩
  obtain ⟨j, hj⟩ := Nat.exists_eq_add_of_le' h
  rw [map_cons, sum_cons, ← add_assoc, hj, add_right_comm]
  rfl

variable (panics dropped)

/-- A loop over the rest of an iterator, whose turn ends like `Drop::drop` after `k` panics, and
else drops a pair without a panic or ends as it should. -/
theorem drops_spec {k : ℕ} {turn : IntoIter K V × List (K × V) →
      Option (Turn (IntoIter K V × List (K × V)) (IntoIter K V × List (K × V) × DropExit))}
    (hnil : ∀ (it it' : IntoIter K V) (dropped : List (K × V)),
      it.dying_next = some (none, it') →
      turn (it, dropped) = some (.done (it', dropped, .of_panics k)))
    (hcons : ∀ (it it' : IntoIter K V) (x kv) (l dropped : List (K × V)),
      it.dying_next = some (some x, it') → x.into_key_val it'.dying = some kv →
      Unravels m it' l →
      (panics kv = 0 ∧ turn (it, dropped) = some (.again (it', dropped ++ [kv]))) ∨
        ∃ it'' dropped' exit, turn (it, dropped) = some (.done (it'', dropped', exit)) ∧
          Drops m panics k (kv :: l) dropped it'' dropped' exit)
    (h : Unravels m it l) (hn : l.length < n) :
    ∃ it' dropped' exit, runLoop turn n (it, dropped) = some (it', dropped', exit) ∧
      Drops m panics k l dropped it' dropped' exit := by
  induction l generalizing it dropped n with
  | nil =>
    obtain ⟨n, rfl⟩ := exists_eq_add_one.mpr hn
    obtain ⟨it', hnext, hall, -⟩ := h.dying_next_nil
    rw [runLoop, hnil it it' dropped hnext]
    exact ⟨_, _, _, rfl, rfl, fun _ => ⟨(append_nil _).symm, hall⟩⟩
  | cons kv l ih =>
    obtain ⟨n, rfl⟩ := exists_eq_add_one.mpr (lt_of_le_of_lt (zero_le _) hn)
    obtain ⟨x, it', hnext, hkv, h'⟩ := h.dying_next_cons
    rcases hcons it it' x kv l dropped hnext hkv h' with
      ⟨hp, hturn⟩ | ⟨it'', dropped', exit, hturn, hdrops⟩
    · obtain ⟨it'', dropped', exit, hrun, hdrops⟩ :=
        ih (dropped ++ [kv]) h' (lt_of_succ_lt_succ hn)
      rw [runLoop, hturn]
      exact ⟨it'', dropped', exit, hrun, .cons (by rwa [hp])⟩
    · rw [runLoop, hturn]
      exact ⟨it'', dropped', exit, rfl, hdrops⟩

theorem drop_guard_spec (h : Unravels m it l) (hn : l.length < n) :
    ∃ it' dropped' exit, runLoop (IntoIter.drop_guard_turn panics) n (it, dropped) =
        some (it', dropped', exit) ∧ Drops m panics 1 l dropped it' dropped' exit := by
  refine drops_spec panics dropped (fun it it' dropped hnext => ?_)
    (fun it it' x kv l dropped hnext hkv _ => ?_) h hn
  · unfold IntoIter.drop_guard_turn
    dsimp only
    rw [hnext, some_bind]
    rfl
  unfold IntoIter.drop_guard_turn
  dsimp only
  rw [hnext, some_bind]
  dsimp only
  rw [hkv, some_bind]
  cases hp : panics kv with
  | zero => exact .inl ⟨rfl, rfl⟩
  | succ p => exact .inr ⟨_, _, _, rfl, .aborted (by omega) _⟩

theorem drop_loop_spec (h : Unravels m it l) (hn : l.length < n) :
    ∃ it' dropped' exit, runLoop (IntoIter.drop_turn panics) n (it, dropped) =
        some (it', dropped', exit) ∧ Drops m panics 0 l dropped it' dropped' exit := by
  refine drops_spec panics dropped (fun it it' dropped hnext => ?_)
    (fun it it' x kv l dropped hnext hkv h' => ?_) h hn
  · unfold IntoIter.drop_turn
    dsimp only
    rw [hnext, some_bind]
    rfl
  unfold IntoIter.drop_turn
  dsimp only
  rw [hnext, some_bind]
  dsimp only
  rw [hkv, some_bind]
  rcases hp : panics kv with _ | _ | p
  · exact .inl ⟨rfl, rfl⟩
  · obtain ⟨it'', dropped', exit, hrun, hdrops⟩ :=
      drop_guard_spec panics (dropped ++ [kv]) h' (lt_succ_of_le h'.length.ge)
    rw [hrun]
    exact .inr ⟨it'', dropped', exit, rfl, .cons (by rwa [hp])⟩
  · exact .inr ⟨_, _, _, rfl, .aborted (by omega) _⟩

end Drop

/-- **The iterator by value**, asked at either end and dropped at any time. -/
theorem into_iter_spec {cmp : K → K → Ordering} (hm : m.Valid cmp) (panics : K × V → ℕ)
    (ends : List End) :
    ∃ answers it it' dropped exit, run IntoIter.call ends m.into_iter = some (answers, it) ∧
      it.drop panics = some (it', dropped, exit) ∧
      Ascending (fun a b => cmp a b = .lt) (taken .front ends answers) ∧
      Ascending (fun a b => cmp b a = .lt) (taken .back ends answers) ∧
      exit = .of_panics ((left ends m.inorder).map panics).sum ∧
      (exit ≠ .aborted →
        taken .front ends answers ++ (dropped ++ (taken .back ends answers).reverse) = m.inorder ∧
        Deallocated m it'.dying) := by
  obtain ⟨it, hrun, h⟩ := run_spec ends (fun e _ s l h => Unravels.call e h)
    (BTreeMap.into_iter_unravels hm)
  obtain ⟨it', dropped, exit, hdrop, hexit, hall⟩ :=
    drop_loop_spec panics [] h (lt_succ_of_le h.length.ge)
  have htaken := taken_pops ends m.inorder
  have hasc := hm.ascending
  unfold Ascending at hasc ⊢
  rw [← htaken, pairwise_append, pairwise_append, pairwise_reverse] at hasc
  refine ⟨_, it, it', dropped, exit, hrun, hdrop, hasc.1, hasc.2.1.2.1, ?_, fun hne => ?_⟩
  · rw [hexit, zero_add]
  · obtain ⟨hdropped, hdeallocated⟩ := hall hne
    rw [nil_append] at hdropped
    rw [hdropped]
    exact ⟨htaken, hdeallocated⟩

/-- A map with two leaves, taken from both ends and dropped. -/
theorem into_iter_two_leaves : ∃ answers it it' dropped exit,
    run IntoIter.call [.front, .back, .back]
      (BTreeMap.mk two_leaves (some ⟨1, 0⟩) 11).into_iter = some (answers, it) ∧
    it.drop (fun _ => 0) = some (it', dropped, exit) ∧
    Ascending (fun a b => compare a b = .lt) (taken .front [.front, .back, .back] answers) ∧
    Ascending (fun a b => compare b a = .lt) (taken .back [.front, .back, .back] answers) ∧
    exit = .of_panics ((left [.front, .back, .back]
      (BTreeMap.mk two_leaves (some ⟨1, 0⟩) 11).inorder).map fun _ => 0).sum ∧
    (exit ≠ .aborted → taken .front [.front, .back, .back] answers ++
          (dropped ++ (taken .back [.front, .back, .back] answers).reverse) =
        (BTreeMap.mk two_leaves (some ⟨1, 0⟩) 11).inorder ∧
      Deallocated (BTreeMap.mk two_leaves (some ⟨1, 0⟩) 11) it'.dying) :=
  into_iter_spec ⟨fun _ h => ⟨two_leaves_height, Option.some.inj h ▸ two_leaves_invariants⟩, rfl⟩
    (fun _ => 0) [.front, .back, .back]

end RustStd.BTree
