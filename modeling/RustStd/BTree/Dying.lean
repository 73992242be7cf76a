import RustStd.BTree.Iter

/-!
# Dying trees

Walking over a tree that is taken apart on the way. A node is deallocated when an end leaves it, so
that the heap is the one there was without these nodes (`Dies`), and which nodes an end has left is
told by the place where it stands: a node ends or starts at a place of the order, and nodes of one
height have no place in common (`Spans.unique`). The walk up from a leaf takes the nodes that end
where it started, one of each height.
-/

namespace RustStd.BTree

open Weave List Nat

variable {K V : Type}

/-! ## The model -/

/-- The nodes of a dying tree, and the nodes that were deallocated, in the order of the calls. -/
structure Dying (K V : Type) where
  heap : Heap K V
  deallocated : List NodeRef

/-- The height tells the layout. -/
def NodeRef.deallocate_and_ascend (D : Dying K V) (self : NodeRef) :
    Option (Dying K V × Option (Handle .Edge)) := do
  let ret ← self.ascend D.heap
  some (⟨D.heap.deallocate self.node, D.deallocated ++ [self]⟩, ret)

open NodeRef

namespace Handle

/-- Reads the pair. -/
def into_key_val (D : Dying K V) (self : Handle .KV) : Option (K × V) := self.into_kv D.heap

/-- The walk that `deallocating_next` and `deallocating_next_back` share: the pair beside an edge
in the one or the other direction, and the leaf edge beyond that pair. -/
def deallocating_walk (kv_beside : Heap K V → Handle .Edge → Option (Option (Handle .KV)))
    (leaf_edge_beyond : Heap K V → Handle .KV → Option (Handle .Edge)) (D : Dying K V)
    (self : Handle .Edge) : Option (Dying K V × Option (Handle .Edge × Handle .KV)) :=
  runLoop (fun s : Dying K V × Handle .Edge => do
    let (D, edge) := s
    match ← kv_beside D.heap edge with
    | some kv => do some (.done (D, some (← leaf_edge_beyond D.heap kv, kv)))
    | none =>
      match ← edge.node.deallocate_and_ascend D with
      | (D, some parent_edge) => some (.again (D, parent_edge))
      | (D, none) => some (.done (D, none))) (D.heap.fresh + 1) (D, self)

def deallocating_next (D : Dying K V) (self : Handle .Edge) :
    Option (Dying K V × Option (Handle .Edge × Handle .KV)) :=
  self.deallocating_walk right_kv next_leaf_edge D

def deallocating_next_back (D : Dying K V) (self : Handle .Edge) :
    Option (Dying K V × Option (Handle .Edge × Handle .KV)) :=
  self.deallocating_walk left_kv next_back_leaf_edge D

def deallocating_end (D : Dying K V) (self : Handle .Edge) : Option (Dying K V) :=
  runLoop (fun s : Dying K V × Handle .Edge => do
    let (D, edge) := s
    match ← edge.node.deallocate_and_ascend D with
    | (D, some parent_edge) => some (.again (D, parent_edge))
    | (D, none) => some (.done D)) (D.heap.fresh + 1) (D, self)

/-- The edge after the call comes before the pair. -/
def deallocating_next_unchecked (D : Dying K V) (self : Handle .Edge) :
    Option (Dying K V × Handle .Edge × Handle .KV) := do
  let (D, r) ← self.deallocating_next D
  some (D, ← r)

def deallocating_next_back_unchecked (D : Dying K V) (self : Handle .Edge) :
    Option (Dying K V × Handle .Edge × Handle .KV) := do
  let (D, r) ← self.deallocating_next_back D
  some (D, ← r)

end Handle

open Handle

namespace LazyLeafRange

def take_front (D : Dying K V) (self : LazyLeafRange) :
    Option (Option (Handle .Edge) × LazyLeafRange) :=
  match self.front with
  | none => some (none, self)
  | some (.Root root) => do
    let edge ← root.first_leaf_edge D.heap
    some (some edge, { self with front := none })
  | some (.Edge edge) => some (some edge, { self with front := none })

def deallocating_next_unchecked (D : Dying K V) (self : LazyLeafRange) :
    Option (Handle .KV × Dying K V × LazyLeafRange) := do
  let (front, self) ← self.init_front D.heap
  let (D, front, kv) ← (← front).deallocating_next_unchecked D
  some (kv, D, { self with front := some (.Edge front) })

def deallocating_next_back_unchecked (D : Dying K V) (self : LazyLeafRange) :
    Option (Handle .KV × Dying K V × LazyLeafRange) := do
  let (back, self) ← self.init_back D.heap
  let (D, back, kv) ← (← back).deallocating_next_back_unchecked D
  some (kv, D, { self with back := some (.Edge back) })

def deallocating_end (D : Dying K V) (self : LazyLeafRange) :
    Option (Dying K V × LazyLeafRange) := do
  match ← self.take_front D with
  | (some front, self) => do some (← front.deallocating_end D, self)
  | (none, self) => some (D, self)

end LazyLeafRange

/-! ## Where nodes lie -/

variable {H H' : Heap K V} {ht : ℕ → ℕ} {top x y : NodeRef} {L R L' R' pre post : List (K × V)}
  {kv : K × V} {n : ℕ}

/-- A node below the root for which `P` holds of the places where it starts and ends, and of its
height. -/
def Lies (H : Heap K V) (top : NodeRef) (P : ℕ → ℕ → ℕ → Prop) (x : NodeRef) : Prop :=
  ∃ L R, Ctx H top x L R ∧ P L.length (L.length + (x.inorder H).length) x.height

theorem Ctx.lies_iff (X : Rooted H ht top) (h : Ctx H top x L R) {P : ℕ → ℕ → ℕ → Prop} :
    Lies H top P x ↔ P L.length (L.length + (x.inorder H).length) x.height := by
  constructor
  · rintro ⟨L', R', h', hP⟩
    obtain ⟨rfl, rfl⟩ := h.unique X h'
    exact hP
  · exact fun hP => ⟨L, R, h, hP⟩

theorem Lies.imp {P P' : ℕ → ℕ → ℕ → Prop} (h : Lies H top P x)
    (himp : ∀ s t, P s t x.height → P' s t x.height) : Lies H top P' x := by
  obtain ⟨L, R, hctx, hP⟩ := h
  exact ⟨L, R, hctx, himp _ _ hP⟩

/-- The nodes in or beside which the place `n` is. -/
abbrev Spans (H : Heap K V) (top : NodeRef) (n : ℕ) : NodeRef → Prop :=
  Lies H top fun s t _ => s ≤ n ∧ n ≤ t

theorem Spans.unique (X : Rooted H ht top) (hx : Spans H top n x) (hy : Spans H top n y)
    (hxy : x.height = y.height) : x = y := by
  obtain ⟨L, R, hx, h⟩ := hx
  obtain ⟨L', R', hy, h'⟩ := hy
  exact hx.eq_of_place X hy hxy h.1 h.2 h'.1 h'.2

/-- **Of two nodes at one place the higher one has the other in it.** -/
theorem Ctx.within (X : Rooted H ht top) (hx : Ctx H top x L R) (hy : Ctx H top y L' R')
    (hle : x.height ≤ y.height) (hLn : L.length ≤ n) (hnL : n ≤ L.length + (x.inorder H).length)
    (hLn' : L'.length ≤ n) (hnL' : n ≤ L'.length + (y.inorder H).length) :
    L'.length ≤ L.length ∧ L.length + (x.inorder H).length ≤ L'.length + (y.inorder H).length := by
  induction hx with
  | top =>
    have hheight := le_antisymm (Below.height_le ⟨_, _, hy⟩) hle
    obtain rfl := hy.eq_of_place X .top hheight hLn' hnL' hLn hnL
    obtain ⟨rfl, rfl⟩ := hy.unique X .top
    exact ⟨le_rfl, le_rfl⟩
  | @child h p i c L0 R0 hctx he ih =>
    rcases eq_or_lt_of_le hle with heq | hlt
    · obtain rfl := (hctx.child he).eq_of_place X hy heq hLn hnL hLn' hnL'
      obtain ⟨rfl, rfl⟩ := (hctx.child he).unique X hy
      exact ⟨le_rfl, le_rfl⟩
    · have hat := congrArg length (X.forest.inorder_at he h)
      simp only [length_append, NodeRef.inorder] at hat hLn hnL ih ⊢
      obtain ⟨hlo, hhi⟩ := ih hlt (by lia) (by lia)
      constructor <;> lia

/-- A pair is in its node. -/
theorem KvAt.lies {k : Handle .KV} (F : Forest H ht) (hk : KvAt H top k pre kv post) :
    Lies H top (fun s t _ => s ≤ pre.length ∧ pre.length < t) k.node := by
  have hall := congrArg length (hk.inorder F)
  obtain ⟨-, L, R, hctx, rfl, rfl⟩ := hk
  have hall' := congrArg length (hctx.inorder F)
  simp only [length_append, length_cons] at hall hall'
  refine ⟨L, R, hctx, by simp, ?_⟩
  simp only [length_append]
  lia

/-- After its last edge a node ends. -/
theorem EdgeAt.ends {i : ℕ} (F : Forest H ht) (h : EdgeAt H top ⟨x, i⟩ pre post)
    (hi : i = (H.kvs x.node).length) : Lies H top (fun _ t _ => t = pre.length) x := by
  have hall := congrArg length (h.inorder F)
  obtain ⟨-, L, R, hctx, -, hpost⟩ := h
  have hall' := congrArg length (hctx.inorder F)
  rw [hi, drop_length, after_no_entries, nil_append] at hpost
  subst hpost
  simp only [length_append] at hall hall'
  exact ⟨L, post, hctx, by lia⟩

/-- Before its first edge a node starts. -/
theorem EdgeBefore.starts (h : EdgeBefore H top ⟨x, 0⟩ pre post) :
    Lies H top (fun s _ _ => s = pre.length) x := by
  obtain ⟨-, L, R, hctx, rfl, -⟩ := h
  refine ⟨L, R, hctx, ?_⟩
  rw [take_zero, before_no_entries, append_nil]

/-! ## The nodes that were deallocated -/

/-- The heap is the one there was without the nodes for which `P` holds, each of which was
deallocated once. -/
structure Dies (H : Heap K V) (top : NodeRef) (D : Dying K V) (P : ℕ → ℕ → ℕ → Prop) : Prop where
  get : ∀ q, D.heap.get q = if q ∈ D.deallocated.map NodeRef.node then none else H.get q
  fresh : D.heap.fresh = H.fresh
  nodup : D.deallocated.Nodup
  mem : ∀ x, x ∈ D.deallocated ↔ Lies H top P x

namespace Dies

variable {D : Dying K V} {P P' : ℕ → ℕ → ℕ → Prop}

theorem congr (hD : Dies H top D P) (h : ∀ x, Lies H top P x ↔ Lies H top P' x) : Dies H top D P' :=
  ⟨hD.get, hD.fresh, hD.nodup, fun x => (hD.mem x).trans (h x)⟩

theorem congr_places (hD : Dies H top D P) (h : ∀ s t k, s ≤ t → (P s t k ↔ P' s t k)) :
    Dies H top D P' :=
  hD.congr fun _ => exists₂_congr fun L _ => and_congr_right fun _ =>
    h _ _ _ (le_add_right L.length _)

variable (X : Rooted H ht top)
include X

/-- The other nodes are as they were. -/
theorem get_of_not (hD : Dies H top D P) (hctx : Ctx H top x L R)
    (hP : ¬Lies H top P x) : D.heap.get x.node = H.get x.node := by
  rw [hD.get, if_neg]
  intro hmem
  obtain ⟨y, hy, heq⟩ := mem_map.mp hmem
  have hlies := (hD.mem y).mp hy
  obtain ⟨L', R', hctx', -⟩ := id hlies
  have hheight : ht x.node = x.height := (hctx.valid X.forest X.top_valid).2
  have hheight' : ht y.node = y.height := (hctx'.valid X.forest X.top_valid).2
  have hxy : y = x := by
    cases x
    cases y
    obtain rfl := heq
    rw [NodeRef.mk.injEq]
    exact ⟨hheight'.symm.trans hheight, rfl⟩
  exact hP (hxy ▸ hlies)

theorem get_of_lies (hD : Dies H top D P) (hx : Lies H top P' x)
    (h : ∀ s t k, s ≤ t → P' s t k → ¬P s t k) : D.heap.get x.node = H.get x.node := by
  obtain ⟨L, R, hctx, hP'⟩ := hx
  exact hD.get_of_not X hctx (mt (hctx.lies_iff X).mp (h _ _ _ (le_add_right _ _) hP'))

theorem deallocate_and_ascend (hD : Dies H top D P)
    (hctx : Ctx H top x L R) (hP : ¬Lies H top P x)
    (hP' : ∀ y, Lies H top P' y ↔ Lies H top P y ∨ y = x) :
    ∃ D', x.deallocate_and_ascend D =
        some (D', (H.link x.node).map fun s => ⟨⟨x.height + 1, s.1⟩, s.2⟩) ∧
      Dies H top D' P' := by
  have hget := hD.get_of_not X hctx hP
  have hascend : x.ascend D.heap = x.ascend H := by
    unfold ascend
    rw [hget]
  unfold NodeRef.deallocate_and_ascend
  rw [hascend, ascend_spec (hctx.valid X.forest X.top_valid).1, some_bind]
  refine ⟨_, rfl, fun q => ?_, hD.fresh, ?_, fun y => ?_⟩
  · simp only [Heap.deallocate, hD.get, map_append, mem_append, map_cons, map_nil, mem_singleton]
    by_cases hq : q = x.node
    · rw [if_pos hq, if_pos (.inr hq)]
    · simp [hq]
  · refine nodup_append.mpr ⟨hD.nodup, nodup_singleton x, ?_⟩
    rintro y hy z hz rfl
    exact hP (mem_singleton.mp hz ▸ (hD.mem y).mp hy)
  · rw [mem_append, mem_singleton, hD.mem, hP']

/-- The walk up: the nodes of less height for which `T` holds are gone, and the next one goes. -/
theorem climb {T : ℕ → ℕ → Prop} (hT : ∀ s t, T s t → s ≤ n ∧ n ≤ t)
    (hP : ∀ s t h, s ≤ n → n ≤ t → ¬P s t h)
    (hD : Dies H top D fun s t h => P s t h ∨ T s t ∧ h < x.height)
    (hx : Lies H top (fun s t _ => T s t) x) :
    ∃ D', x.deallocate_and_ascend D =
        some (D', (H.link x.node).map fun s => ⟨⟨x.height + 1, s.1⟩, s.2⟩) ∧
      Dies H top D' fun s t h => P s t h ∨ T s t ∧ h < x.height + 1 := by
  have hspans : Spans H top n x := hx.imp hT
  obtain ⟨L, R, hctx, hTx⟩ := hx
  refine hD.deallocate_and_ascend X hctx ?_ fun y => ?_
  · rw [hctx.lies_iff X]
    rintro (h | h)
    · exact hP _ _ _ (hT _ _ hTx).1 (hT _ _ hTx).2 h
    · exact lt_irrefl _ h.2
  constructor
  · rintro ⟨L', R', hctx', h | ⟨h, hlt⟩⟩
    · exact .inl ⟨L', R', hctx', .inl h⟩
    · rcases eq_or_lt_of_le (le_of_lt_succ hlt) with heq | hlt
      · have hspans' : Spans H top n y := ⟨L', R', hctx', hT _ _ h⟩
        exact .inr (hspans'.unique X hspans heq)
      · exact .inl ⟨L', R', hctx', .inr ⟨h, hlt⟩⟩
  · rintro (h | rfl)
    · exact h.imp fun s t => Or.imp_right fun h => ⟨h.1, lt_succ_of_lt h.2⟩
    · exact ⟨L, R, hctx, .inr ⟨hTx, lt_succ_self _⟩⟩

end Dies

/-! ## Reads of a node that is as it was -/

section Reads

theorem new_edge_congr (h : H'.get x.node = H.get x.node) (i : ℕ) :
    new_edge H' x i = new_edge H x i := by
  unfold new_edge NodeRef.len
  rw [h]

theorem new_kv_congr (h : H'.get x.node = H.get x.node) (i : ℕ) : new_kv H' x i = new_kv H x i := by
  unfold new_kv NodeRef.len
  rw [h]

variable {e : Handle .Edge}

theorem right_kv_congr (h : H'.get e.node.node = H.get e.node.node) :
    e.right_kv H' = e.right_kv H := by
  unfold right_kv NodeRef.len
  rw [h, new_kv_congr h]

theorem left_kv_congr (h : H'.get e.node.node = H.get e.node.node) :
    e.left_kv H' = e.left_kv H := by
  unfold left_kv
  rw [new_kv_congr h]

theorem descend_congr (h : H'.get e.node.node = H.get e.node.node) :
    e.descend H' = e.descend H := by
  unfold descend
  rw [h]

variable {k : Handle .KV}

theorem into_kv_congr (h : H'.get k.node.node = H.get k.node.node) :
    k.into_kv H' = k.into_kv H := by
  unfold into_kv
  rw [h]

theorem first_edge_congr (h : H'.get x.node = H.get x.node) :
    x.first_edge H' = x.first_edge H := new_edge_congr h 0

theorem last_edge_congr (h : H'.get x.node = H.get x.node) : x.last_edge H' = x.last_edge H := by
  unfold last_edge NodeRef.len
  rw [h]
  exact bind_congr fun len => new_edge_congr h len

variable (X : Rooted H ht top)
include X

/-- A descent goes through nodes that start where it does. -/
theorem first_leaf_edge_congr (hctx : Ctx H top x L R)
    (h : ∀ y R', Ctx H top y L R' → H'.get y.node = H.get y.node) :
    x.first_leaf_edge H' = x.first_leaf_edge H := by
  unfold first_leaf_edge
  refine runLoop_congr (fun y => ∃ R', Ctx H top y L R') (fun y hy => ?_) (fun y z hy hz => ?_) _
    ⟨R, hctx⟩
  · obtain ⟨R', hctx'⟩ := hy
    have hget := h y R' hctx'
    have hvalid := hctx'.valid X.forest X.top_valid
    have hfirst : y.first_edge H = some ⟨y, 0⟩ :=
      new_edge_spec hvalid.1 (zero_le _)
    have hdescend : descend H' ⟨y, 0⟩ = descend H ⟨y, 0⟩ := descend_congr hget
    rw [first_edge_congr hget, hfirst]
    simp only [some_bind, hdescend]
  · obtain ⟨R', hctx'⟩ := hy
    have hvalid := hctx'.valid X.forest X.top_valid
    have hfirst : y.first_edge H = some ⟨y, 0⟩ :=
      new_edge_spec hvalid.1 (zero_le _)
    obtain ⟨m, q⟩ := y
    rw [hfirst] at hz
    cases m with
    | zero => simp at hz
    | succ m =>
      obtain ⟨c, hc⟩ := X.forest.exists_edge hvalid (zero_le _)
      rw [if_neg (succ_ne_zero m), some_bind, descend_spec rfl hc, some_bind] at hz
      obtain rfl : (⟨m, c⟩ : NodeRef) = z := by simpa using hz
      have hchild := hctx'.child hc
      rw [take_zero, before_no_entries, append_nil] at hchild
      exact ⟨_, hchild⟩

/-- A descent goes through nodes that end where it does. -/
theorem last_leaf_edge_congr (hctx : Ctx H top x L R)
    (h : ∀ y L', Ctx H top y L' R → H'.get y.node = H.get y.node) :
    x.last_leaf_edge H' = x.last_leaf_edge H := by
  have hlast : ∀ y L', Ctx H top y L' R → y.last_edge H = some ⟨y, (H.kvs y.node).length⟩ := by
    intro y L' hctx'
    have hvalid := hctx'.valid X.forest X.top_valid
    unfold last_edge
    rw [len_spec hvalid.1, some_bind]
    exact new_edge_spec hvalid.1 le_rfl
  unfold last_leaf_edge
  refine runLoop_congr (fun y => ∃ L', Ctx H top y L' R) (fun y hy => ?_) (fun y z hy hz => ?_) _
    ⟨L, hctx⟩
  · obtain ⟨L', hctx'⟩ := hy
    have hget := h y L' hctx'
    have hdescend : descend H' ⟨y, (H.kvs y.node).length⟩ =
        descend H ⟨y, (H.kvs y.node).length⟩ := descend_congr hget
    rw [last_edge_congr hget, hlast y L' hctx']
    simp only [some_bind, hdescend]
  obtain ⟨L', hctx'⟩ := hy
  have hvalid := hctx'.valid X.forest X.top_valid
  obtain ⟨m, q⟩ := y
  rw [hlast _ L' hctx'] at hz
  cases m with
  | zero => simp at hz
  | succ m =>
    obtain ⟨c, hc⟩ := X.forest.exists_edge hvalid le_rfl
    rw [if_neg (succ_ne_zero m), some_bind, descend_spec rfl hc, some_bind] at hz
    obtain rfl : (⟨m, c⟩ : NodeRef) = z := by simpa using hz
    have hchild := hctx'.child hc
    rw [drop_length, after_no_entries, nil_append] at hchild
    exact ⟨_, hchild⟩

/-- From a pair of an inner node to the right, where the next leaf edge is. -/
theorem KvAt.right_child {m p i : ℕ} (hk : KvAt H top ⟨⟨m + 1, p⟩, i⟩ pre kv post) : ∃ c R,
      right_edge H ⟨⟨m + 1, p⟩, i⟩ = some ⟨⟨m + 1, p⟩, i + 1⟩ ∧
      descend H ⟨⟨m + 1, p⟩, i + 1⟩ = some ⟨m, c⟩ ∧ Ctx H top ⟨m, c⟩ (pre ++ [kv]) R := by
  obtain ⟨hpair, L, R, hctx, rfl, rfl⟩ := hk
  obtain ⟨hlt, hget⟩ := List.getElem?_eq_some_iff.mp hpair
  have hx := hctx.valid X.forest X.top_valid
  have hlen : ((H.kvs p).take i).length = i := length_take_of_le (le_of_lt hlt)
  obtain ⟨c, hc⟩ := X.forest.exists_edge hx hlt
  have hpre : weave ((H.children (m + 1) p).take (i + 1)) ((H.kvs p).take i) ++ [kv] =
      before (H.children (m + 1) p) ((H.kvs p).take (i + 1)) := by
    rw [before_take_succ _ _ hpair, weave_take _ (by lia), weave_eq_before _ (take _ _),
      hlen, append_assoc]
  have hchild := hctx.child hc
  rw [← hpre, ← append_assoc] at hchild
  exact ⟨c, _, new_edge_spec hx.1 hlt, descend_spec rfl hc, hchild⟩

/-- From a pair of an inner node to the left, where the previous leaf edge is. -/
theorem KvAt.left_child {m p i : ℕ} (hk : KvAt H top ⟨⟨m + 1, p⟩, i⟩ pre kv post) : ∃ c L,
      left_edge H ⟨⟨m + 1, p⟩, i⟩ = some ⟨⟨m + 1, p⟩, i⟩ ∧
      descend H ⟨⟨m + 1, p⟩, i⟩ = some ⟨m, c⟩ ∧ Ctx H top ⟨m, c⟩ L (kv :: post) := by
  obtain ⟨hpair, L, R, hctx, rfl, rfl⟩ := hk
  obtain ⟨hlt, hget⟩ := List.getElem?_eq_some_iff.mp hpair
  have hx := hctx.valid X.forest X.top_valid
  obtain ⟨c, hc⟩ := X.forest.exists_edge hx (le_of_lt hlt)
  have hchild := hctx.child hc
  rw [drop_eq_getElem_cons hlt, hget] at hchild
  exact ⟨c, _, new_edge_spec hx.1 (le_of_lt hlt), descend_spec rfl hc, hchild⟩

theorem next_leaf_edge_congr
    (hk : KvAt H top k pre kv post) (hnode : H'.get k.node.node = H.get k.node.node)
    (h : ∀ y, Lies H top (fun s _ _ => s = pre.length + 1) y →
      H'.get y.node = H.get y.node) : k.next_leaf_edge H' = k.next_leaf_edge H := by
  obtain ⟨⟨m, p⟩, i⟩ := k
  have hright : right_edge H' ⟨⟨m, p⟩, i⟩ = right_edge H ⟨⟨m, p⟩, i⟩ :=
    new_edge_congr hnode _
  unfold next_leaf_edge
  rw [hright]
  cases m with
  | zero => rw [if_pos rfl, if_pos rfl]
  | succ m =>
    obtain ⟨c, R, hedge, hdescend, hctx⟩ := hk.right_child X
    have hdescend' : descend H' ⟨⟨m + 1, p⟩, i + 1⟩ = some ⟨m, c⟩ :=
      (descend_congr hnode).trans hdescend
    have hfirst := first_leaf_edge_congr X hctx fun y R' hy => h y ⟨_, R', hy, by simp⟩
    rw [if_neg (succ_ne_zero m), if_neg (succ_ne_zero m), hedge, some_bind, some_bind, hdescend,
      hdescend', some_bind, some_bind, hfirst]

theorem next_back_leaf_edge_congr
    (hk : KvAt H top k pre kv post) (hnode : H'.get k.node.node = H.get k.node.node)
    (h : ∀ y, Lies H top (fun _ t _ => t = pre.length) y →
      H'.get y.node = H.get y.node) : k.next_back_leaf_edge H' = k.next_back_leaf_edge H := by
  have hall := congrArg length (hk.inorder X.forest)
  obtain ⟨⟨m, p⟩, i⟩ := k
  have hleft : left_edge H' ⟨⟨m, p⟩, i⟩ = left_edge H ⟨⟨m, p⟩, i⟩ :=
    new_edge_congr hnode _
  unfold next_back_leaf_edge
  rw [hleft]
  cases m with
  | zero => rw [if_pos rfl, if_pos rfl]
  | succ m =>
    obtain ⟨c, L, hedge, hdescend, hctx⟩ := hk.left_child X
    have hdescend' : descend H' ⟨⟨m + 1, p⟩, i⟩ = some ⟨m, c⟩ :=
      (descend_congr hnode).trans hdescend
    have hlast := last_leaf_edge_congr X hctx fun y L' hy => h y ⟨L', _, hy, by
      have hall' := congrArg length (hy.inorder X.forest)
      simp only [length_append] at hall hall'
      lia⟩
    rw [if_neg (succ_ne_zero m), if_neg (succ_ne_zero m), hedge, some_bind, some_bind, hdescend,
      hdescend', some_bind, some_bind, hlast]

end Reads

/-! ## The walks -/

section Walks

variable {D : Dying K V} {e : Handle .Edge}

/-- **The walk up to a pair.** The edges for which `Q` holds are at the place `n`; the nodes for
which `T` holds are those that the walk leaves. -/
theorem deallocating_walk_spec (X : Rooted H ht top) {P : ℕ → ℕ → ℕ → Prop} {T : ℕ → ℕ → Prop}
    {Q : Handle .Edge → Prop} {Found : Handle .KV → Prop} {Post : Handle .Edge → Prop}
    (kv_beside : Heap K V → Handle .Edge → Option (Option (Handle .KV)))
    (leaf_edge_beyond : Heap K V → Handle .KV → Option (Handle .Edge))
    (hlocal : ∀ (H' : Heap K V) (e : Handle .Edge), H'.get e.node.node = H.get e.node.node →
      kv_beside H' e = kv_beside H e)
    (hT : ∀ s t, T s t → s ≤ n ∧ n ≤ t) (hP : ∀ s t h, s ≤ n → n ≤ t → ¬P s t h)
    (hspans : ∀ e, Q e → Spans H top n e.node)
    (hturn : ∀ e, Q e → (∃ k, kv_beside H e = some (some k) ∧ Found k ∧
        ∀ y, Lies H top (fun s t _ => T s t) y → y.height < e.node.height) ∨
      kv_beside H e = some none ∧ Lies H top (fun s t _ => T s t) e.node ∧
        ∃ p j, H.link e.node.node = some (p, j) ∧ Q ⟨⟨e.node.height + 1, p⟩, j⟩)
    (hleaf : ∀ (D' : Dying K V) k, Dies H top D' (fun s t h => P s t h ∨ T s t) → Found k →
      ∃ e', leaf_edge_beyond D'.heap k = some e' ∧ Post e')
    (hD : Dies H top D P) (hQ : Q e) (hheight : e.node.height = 0) :
    ∃ D' e' k, e.deallocating_walk kv_beside leaf_edge_beyond D = some (D', some (e', k)) ∧
      Dies H top D' (fun s t h => P s t h ∨ T s t) ∧ Found k ∧ Post e' := by
  have hrun : ∃ r, e.deallocating_walk kv_beside leaf_edge_beyond D = some r ∧
      ∃ D' e' k, r = (D', some (e', k)) ∧ Dies H top D' (fun s t h => P s t h ∨ T s t) ∧
        Found k ∧ Post e' := by
    unfold deallocating_walk
    rw [hD.fresh]
    refine runLoop_spec _ (fun s => Q s.2 ∧
        Dies H top s.1 fun b t h => P b t h ∨ T b t ∧ h < s.2.node.height)
      (fun s => H.fresh - s.2.node.height) _ (fun s hs => ?_) _ (D, e) ⟨hQ, ?_⟩
      (lt_succ_of_le (sub_le _ _))
    · obtain ⟨D, e⟩ := s
      obtain ⟨hQ, hD⟩ := hs
      obtain ⟨L, R, hctx, hn⟩ := hspans e hQ
      have halive : D.heap.get e.node.node = H.get e.node.node := by
        refine hD.get_of_not X hctx ?_
        rw [hctx.lies_iff X]
        rintro (h | h)
        · exact hP _ _ _ hn.1 hn.2 h
        · exact lt_irrefl _ h.2
      dsimp only at *
      rw [hlocal D.heap e halive]
      rcases hturn e hQ with ⟨k, hk, hfound, hlow⟩ | ⟨hnone, hends, p, j, hlink, hQ'⟩
      · have hD' : Dies H top D (fun s t h => P s t h ∨ T s t) := hD.congr fun y => by
          constructor
          · exact fun h => h.imp fun s t => Or.imp_right And.left
          · rintro ⟨L', R', hctx', h | h⟩
            · exact ⟨L', R', hctx', .inl h⟩
            · exact ⟨L', R', hctx', .inr ⟨h, hlow y ⟨L', R', hctx', h⟩⟩⟩
        obtain ⟨e', hleaf, hpost⟩ := hleaf D k hD' hfound
        rw [hk, some_bind]
        dsimp only
        rw [hleaf, some_bind]
        exact ⟨D, e', k, rfl, hD', hfound, hpost⟩
      · obtain ⟨D', hclimb, hD'⟩ := hD.climb X hT hP hends
        rw [hnone, some_bind]
        rw [hclimb, hlink, some_bind]
        refine ⟨⟨hQ', hD'⟩, ?_⟩
        have hlt := (X.forest.lt_fresh _ _ (hctx.valid X.forest X.top_valid).1).2
        have hht : ht e.node.node = e.node.height := (hctx.valid X.forest X.top_valid).2
        dsimp only
        lia
    · refine hD.congr_places fun s t _ _ => ⟨.inl, fun h => h.resolve_right fun h => ?_⟩
      dsimp only at h
      lia
  obtain ⟨r, hrun, D', e', k, rfl, h⟩ := hrun
  exact ⟨D', e', k, hrun, h⟩

/-- A node that an end has left, when the pairs between the places `a` and `b` are left. -/
def outside (a b s t : ℕ) (_ : ℕ) : Prop := t < a ∨ b < s

theorem not_outside {a b s t h : ℕ} (ha : n < a → False) (hb : b < n → False) (hs : s ≤ n)
    (ht : n ≤ t) : ¬outside a b s t h := by
  rintro (h | h)
  · exact ha (lt_of_le_of_lt ht h)
  · exact hb (lt_of_lt_of_le h hs)

theorem EdgeAt.spans (F : Forest H ht) (he : EdgeAt H top e pre post) :
    Spans H top pre.length e.node := by
  rcases eq_or_lt_of_le he.le with hidx | hlt
  · obtain ⟨L, R, hctx, h⟩ := he.ends F hidx
    exact ⟨L, R, hctx, h ▸ le_add_right _ _, h.ge⟩
  · obtain ⟨post', -, hk⟩ := he.right_kv (getElem?_eq_getElem hlt)
    exact (hk.lies F).imp fun s t h => ⟨h.1, h.2.le⟩

/-- Beside an edge there is a pair, or the node ends and its parent's edge is next. -/
theorem EdgeAt.turn (X : Rooted H ht top) (he : EdgeAt H top e pre (kv :: post)) :
    (∃ k, e.right_kv H = some (some k) ∧ KvAt H top k pre kv post ∧
      ∀ y, Lies H top (fun s t _ => s ≤ pre.length ∧ t = pre.length) y → y.height < e.node.height) ∨
    e.right_kv H = some none ∧ Lies H top (fun s t _ => s ≤ pre.length ∧ t = pre.length) e.node ∧
      ∃ p j, H.link e.node.node = some (p, j) ∧
        EdgeAt H top ⟨⟨e.node.height + 1, p⟩, j⟩ pre (kv :: post) := by
  obtain ⟨L, R, hctx, -, -⟩ := he.ctx
  have hx := hctx.valid X.forest X.top_valid
  rw [right_kv_spec hx.1]
  rcases eq_or_lt_of_le he.le with hidx | hlt
  · obtain ⟨L, R, hctx, h⟩ := he.ends X.forest hidx
    refine .inr ⟨by rw [if_neg (not_lt.mpr hidx.ge)],
      ⟨L, R, hctx, h ▸ le_add_right _ _, h⟩, ?_⟩
    rcases hlink : H.link e.node.node with _ | ⟨p, j⟩
    · exact absurd (he.post_nil X.forest X.root hidx hlink) nofun
    · exact ⟨p, j, rfl, he.ascend X.forest X.root hidx hlink⟩
  · obtain ⟨post', heq, hk⟩ := he.right_kv (getElem?_eq_getElem hlt)
    obtain ⟨hkv, rfl⟩ := cons.inj heq
    rw [← hkv] at hk
    refine .inl ⟨_, by rw [if_pos hlt], hk, fun y hy => ?_⟩
    obtain ⟨L, R, hctx, hlo, hhi⟩ := hk.lies X.forest
    obtain ⟨L', R', hctx', hlo', hhi'⟩ := hy
    by_contra hle
    have := hctx.within X hctx' (not_lt.mp hle) hlo hhi.le hlo' hhi'.ge
    lia

/-- **A step from the front**: the nodes that end before the pair are left. -/
theorem deallocating_next_spec (X : Rooted H ht top) {b : ℕ}
    (he : EdgeAt H top e pre (kv :: post)) (hheight : e.node.height = 0) (hb : pre.length < b)
    (hD : Dies H top D (outside pre.length b)) :
    ∃ D' e' k, e.deallocating_next D = some (D', some (e', k)) ∧
      Dies H top D' (outside (pre.length + 1) b) ∧ k.into_key_val D' = some kv ∧
      e'.node.height = 0 ∧ EdgeAt H top e' (pre ++ [kv]) post := by
  have hgone : ∀ D : Dying K V,
      Dies H top D (fun s t h => outside pre.length b s t h ∨ s ≤ pre.length ∧ t = pre.length) →
      Dies H top D (outside (pre.length + 1) b) := by
    refine fun D hD => hD.congr_places fun s t _ hst => ?_
    unfold outside
    lia
  have hfound : ∀ (D' : Dying K V) k, Dies H top D' (outside (pre.length + 1) b) →
      KvAt H top k pre kv post → D'.heap.get k.node.node = H.get k.node.node := by
    refine fun D' k hD' hk => hD'.get_of_lies X (hk.lies X.forest) fun s t _ hst h => ?_
    unfold outside
    lia
  have hleaf : ∀ (D' : Dying K V) k, Dies H top D'
        (fun s t h => outside pre.length b s t h ∨ s ≤ pre.length ∧ t = pre.length) →
      KvAt H top k pre kv post → ∃ e', k.next_leaf_edge D'.heap = some e' ∧
        (e'.node.height = 0 ∧ EdgeAt H top e' (pre ++ [kv]) post) := by
    intro D' k hD' hk
    obtain ⟨q, j, hnext, he'⟩ := next_leaf_edge_spec X.forest X.top_valid hk
    refine ⟨⟨⟨0, q⟩, j⟩, ?_, rfl, he'⟩
    rw [← hnext]
    refine next_leaf_edge_congr X hk (hfound D' k (hgone D' hD') hk) fun y hy =>
      (hgone D' hD').get_of_lies X hy fun s t _ hst h => ?_
    unfold outside
    lia
  obtain ⟨D', e', k, hwalk, hD', hk, he'⟩ := deallocating_walk_spec X right_kv
    next_leaf_edge (fun _ _ => right_kv_congr) (fun s t h => ⟨h.1, h.2.ge⟩)
    (fun s t h => not_outside (Nat.lt_irrefl _) (Nat.not_lt_of_lt hb))
    (fun e he => EdgeAt.spans X.forest he) (fun e he => EdgeAt.turn X he) hleaf hD he hheight
  refine ⟨D', e', k, hwalk, hgone D' hD', ?_, he'⟩
  exact (into_kv_congr (hfound D' k (hgone D' hD') hk)).trans (hk.into_kv X)

theorem EdgeBefore.spans (F : Forest H ht) (he : EdgeBefore H top e pre post) :
    Spans H top pre.length e.node := by
  obtain ⟨x, i⟩ := e
  rcases Nat.eq_zero_or_pos i with rfl | hpos
  · obtain ⟨L, R, hctx, h⟩ := he.starts
    exact ⟨L, R, hctx, h.le, h ▸ le_add_right _ _⟩
  · obtain ⟨pre', kv', rfl, hk⟩ := he.left_kv hpos
    refine (hk.lies F).imp fun s t h => ?_
    rw [length_append, length_singleton]
    exact ⟨le_succ_of_le h.1, h.2⟩

variable (X : Rooted H ht top)
include X

/-- Beside an edge there is a pair, or the node starts and its parent's edge is next. -/
theorem EdgeBefore.turn (he : EdgeBefore H top e (pre ++ [kv]) post) :
    (∃ k, e.left_kv H = some (some k) ∧ KvAt H top k pre kv post ∧
      ∀ y, Lies H top (fun s t _ => s = pre.length + 1 ∧ pre.length + 1 ≤ t) y →
        y.height < e.node.height) ∨
    e.left_kv H = some none ∧
      Lies H top (fun s t _ => s = pre.length + 1 ∧ pre.length + 1 ≤ t) e.node ∧
      ∃ p j, H.link e.node.node = some (p, j) ∧
        EdgeBefore H top ⟨⟨e.node.height + 1, p⟩, j⟩ (pre ++ [kv]) post := by
  obtain ⟨L, R, hctx, -, -⟩ := he.ctx
  have hx := hctx.valid X.forest X.top_valid
  rw [left_kv_spec hx.1 he.le]
  obtain ⟨x, i⟩ := e
  rcases Nat.eq_zero_or_pos i with rfl | hpos
  · obtain ⟨L, R, hctx, h⟩ := he.starts
    rw [length_append, length_singleton] at h
    refine .inr ⟨by rw [if_neg (lt_irrefl 0)],
      ⟨L, R, hctx, h, h ▸ le_add_right _ _⟩, ?_⟩
    rcases hlink : H.link x.node with _ | ⟨p, j⟩
    · have hnil := he.pre_nil X hlink
      simp at hnil
    · exact ⟨p, j, rfl, he.ascend X hlink⟩
  · obtain ⟨pre', kv', heq, hk⟩ := he.left_kv hpos
    obtain ⟨rfl, hkv⟩ := append_inj' heq rfl
    obtain rfl : kv = kv' := by simpa using hkv
    refine .inl ⟨_, by rw [if_pos hpos], hk, fun y hy => ?_⟩
    obtain ⟨L, R, hctx, hlo, hhi⟩ := hk.lies X.forest
    obtain ⟨L', R', hctx', hlo', hhi'⟩ := hy
    by_contra hle
    have := hctx.within X hctx' (not_lt.mp hle) (le_succ_of_le hlo) hhi hlo'.le hhi'
    lia

/-- **A step from the back**: the nodes that start after the pair are left. -/
theorem deallocating_next_back_spec {a : ℕ}
    (he : EdgeAt H top e (pre ++ [kv]) post) (hheight : e.node.height = 0) (ha : a ≤ pre.length)
    (hD : Dies H top D (outside a (pre.length + 1))) :
    ∃ D' e' k, e.deallocating_next_back D = some (D', some (e', k)) ∧
      Dies H top D' (outside a pre.length) ∧ k.into_key_val D' = some kv ∧
      e'.node.height = 0 ∧ EdgeAt H top e' pre (kv :: post) := by
  have hgone : ∀ D : Dying K V, Dies H top D (fun s t h => outside a (pre.length + 1) s t h ∨
        s = pre.length + 1 ∧ pre.length + 1 ≤ t) →
      Dies H top D (outside a pre.length) := by
    refine fun D hD => hD.congr_places fun s t _ hst => ?_
    unfold outside
    lia
  have hfound : ∀ (D' : Dying K V) k, Dies H top D' (outside a pre.length) →
      KvAt H top k pre kv post → D'.heap.get k.node.node = H.get k.node.node := by
    refine fun D' k hD' hk => hD'.get_of_lies X (hk.lies X.forest) fun s t _ hst h => ?_
    unfold outside
    lia
  have hleaf : ∀ (D' : Dying K V) k, Dies H top D' (fun s t h => outside a (pre.length + 1) s t h ∨
        s = pre.length + 1 ∧ pre.length + 1 ≤ t) →
      KvAt H top k pre kv post → ∃ e', k.next_back_leaf_edge D'.heap = some e' ∧
        (e'.node.height = 0 ∧ EdgeAt H top e' pre (kv :: post)) := by
    intro D' k hD' hk
    obtain ⟨q, j, hnext, he'⟩ := next_back_leaf_edge_spec X hk
    refine ⟨⟨⟨0, q⟩, j⟩, ?_, rfl, he'⟩
    rw [← hnext]
    refine next_back_leaf_edge_congr X hk (hfound D' k (hgone D' hD') hk) fun y hy =>
      (hgone D' hD').get_of_lies X hy fun s t _ hst h => ?_
    unfold outside
    lia
  have hbefore : EdgeBefore H top e (pre ++ [kv]) post := by
    obtain ⟨⟨m, q⟩, i⟩ := e
    obtain rfl : m = 0 := hheight
    exact he.edge_before
  obtain ⟨D', e', k, hwalk, hD', hk, he'⟩ := deallocating_walk_spec X left_kv
    next_back_leaf_edge (fun _ _ => left_kv_congr) (fun s t h => ⟨h.1.le, h.2⟩)
    (fun s t h => not_outside (fun h => absurd ha (by lia)) (lt_irrefl _))
    (fun e he => by simpa using EdgeBefore.spans X.forest he) (fun e he => EdgeBefore.turn X he)
    hleaf hD hbefore hheight
  refine ⟨D', e', k, hwalk, hgone D' hD', ?_, he'⟩
  exact (into_kv_congr (hfound D' k (hgone D' hD') hk)).trans (hk.into_kv X)

/-- **The end**: the nodes that are left are those above the edge where both ends meet. -/
theorem deallocating_end_spec (he : Spans H top n e.node)
    (hheight : e.node.height = 0) (hD : Dies H top D (outside n n)) :
    ∃ D', e.deallocating_end D = some D' ∧ Dies H top D' fun _ _ _ => True := by
  unfold deallocating_end
  rw [hD.fresh]
  refine runLoop_spec _ (fun s => Spans H top n s.2.node ∧
      Dies H top s.1 fun b t h => outside n n b t h ∨ (b ≤ n ∧ n ≤ t) ∧ h < s.2.node.height)
    (fun s => H.fresh - s.2.node.height) _ (fun s hs => ?_) _ (D, e) ⟨he, ?_⟩
    (lt_succ_of_le (sub_le _ _))
  · obtain ⟨D, e⟩ := s
    obtain ⟨he, hD⟩ := hs
    obtain ⟨D', hclimb, hD'⟩ := hD.climb X (fun _ _ h => h)
      (fun s t h => not_outside (lt_irrefl n) (lt_irrefl n)) he
    dsimp only at *
    rw [hclimb, some_bind]
    obtain ⟨L, R, hctx, hn⟩ := he
    have hx := hctx.valid X.forest X.top_valid
    rcases hctx.eq_or_link X.forest with htop | ⟨p, i, L', R', hlink, hedge, hctx', rfl, rfl⟩
    · rw [htop, X.root]
      refine hD'.congr fun y => ⟨fun h => h.imp fun _ _ _ => trivial, ?_⟩
      rintro ⟨L', R', hctx', -⟩
      refine ⟨L', R', hctx', ?_⟩
      have hle := Below.height_le ⟨_, _, hctx'⟩
      rw [htop]
      unfold outside
      lia
    · rw [hlink]
      have hat := congrArg length (X.forest.inorder_at hedge e.node.height)
      refine ⟨⟨⟨L', R', hctx', ?_⟩, hD'⟩, ?_⟩
      · simp only [NodeRef.inorder, length_append] at hn hat ⊢
        lia
      · have hlt := (X.forest.lt_fresh _ _ hx.1).2
        have hht : ht e.node.node = e.node.height := hx.2
        dsimp only
        lia
  · refine hD.congr_places fun s t _ _ => ⟨.inl, fun h => h.resolve_right fun h => ?_⟩
    dsimp only at h
    lia

end Walks

end RustStd.BTree
