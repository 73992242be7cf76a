import RustStd.BTree.Map

/-!
# Walking from both ends

A step back goes from an edge of a leaf to the pair before it and from there to the last leaf edge
before that pair, as a step forward does on the other side (`next_back_kv_spec`,
`next_back_leaf_edge_spec`). Two leaf edges at one place of the order are the same edge, since a
pair of an inner node is between any two leaves (`EdgeAt.leaf_unique`): comparing the edges tells
whether anything is between them.
-/

namespace RustStd.BTree

open Weave List Nat

variable {K V : Type} {H : Heap K V} {ht : ℕ → ℕ} {top x y : NodeRef}
  {L R L' R' pre post pre' post' : List (K × V)} {kv : K × V} {i : ℕ}

/-! ## Places -/

/-- A node is below the root in one way. -/
theorem Ctx.unique (X : Rooted H ht top) (h : Ctx H top x L R) (h' : Ctx H top x L' R') :
    L = L' ∧ R = R' := by
  have hroot := X.root
  induction h generalizing L' R' with
  | top =>
    cases h' with
    | top => exact ⟨rfl, rfl⟩
    | child h' he' =>
      rw [X.forest.link he'] at hroot
      cases hroot
  | child h he ih =>
    rcases h'.eq_or_link X.forest with rfl | ⟨p, i, L2, R2, -, he', h2, rfl, rfl⟩
    · rw [X.forest.link he] at hroot
      cases hroot
    · obtain ⟨rfl, rfl⟩ := X.forest.edge_injective he he'
      obtain ⟨rfl, rfl⟩ := ih h2
      exact ⟨rfl, rfl⟩

/-- A later list comes after an earlier one and the entry between them. -/
theorem before_length_lt {α : Type} (cs : List (List α)) {ks : List α} {i j : ℕ} (hij : i < j)
    (hj : j ≤ ks.length) :
    (before cs (ks.take i)).length + (cs[i]?.getD []).length < (before cs (ks.take j)).length := by
  induction j, hij using le_induction with
  | base | succ =>
    rw [before_take_succ cs ks (getElem?_eq_getElem hj)]
    simp only [length_append, length_singleton]
    lia

/-- **Nodes of one height have no place in common.** -/
theorem Ctx.eq_of_place (X : Rooted H ht top) (hx : Ctx H top x L R) (hy : Ctx H top y L' R')
    (hxy : x.height = y.height) {n : ℕ} (hLn : L.length ≤ n)
    (hnL : n ≤ L.length + (x.inorder H).length) (hLn' : L'.length ≤ n)
    (hnL' : n ≤ L'.length + (y.inorder H).length) : x = y := by
  induction hx generalizing y L' R' with
  | top =>
    rcases hy.eq_or_link X.forest with rfl | ⟨p, i, L2, R2, -, -, h2, -, -⟩
    · rfl
    · have := Below.height_le ⟨_, _, h2⟩
      dsimp only at this
      lia
  | @child h p i c L0 R0 hctx he ih =>
    have hle := Below.height_le ⟨_, _, hctx⟩
    obtain ⟨m, d⟩ := y
    obtain rfl : h = m := hxy
    rcases hy.eq_or_link X.forest with rfl | ⟨p', i', L2, R2, -, he', h2, rfl, rfl⟩
    · dsimp only at hle
      lia
    have he' : H.edge p' i' = some d := he'
    have hat := congrArg length (X.forest.inorder_at he h)
    have hat' := congrArg length (X.forest.inorder_at he' h)
    simp only [length_append, NodeRef.inorder] at hat hat' hLn hnL hLn' hnL'
    have hp : n ≤ L0.length + (H.inorder (h + 1) p).length := by lia
    have hp' : n ≤ L2.length + (H.inorder (h + 1) p').length := by lia
    have heq : (⟨h + 1, p⟩ : NodeRef) = ⟨h + 1, p'⟩ := ih h2 rfl (by lia) hp (by lia) hp'
    obtain ⟨-, rfl⟩ : h + 1 = h + 1 ∧ p = p' := by simpa using heq
    obtain ⟨rfl, -⟩ := hctx.unique X h2
    have hcs := Forest.children_getElem he h
    have hcs' := Forest.children_getElem he' h
    rcases lt_trichotomy i i' with hlt | rfl | hlt
    · have := before_length_lt (H.children (h + 1) p) hlt (X.forest.le_kvs_length he')
      rw [hcs] at this
      lia
    · obtain rfl : c = d := Option.some.inj (he.symm.trans he')
      rfl
    · have := before_length_lt (H.children (h + 1) p) hlt (X.forest.le_kvs_length he)
      rw [hcs'] at this
      lia

variable {e : Handle .Edge}

/-- An edge is at one place. -/
theorem EdgeAt.pre_unique (X : Rooted H ht top) (h : EdgeAt H top e pre post)
    (h' : EdgeAt H top e pre' post') : pre = pre' := by
  obtain ⟨-, L, R, hctx, rfl, -⟩ := h
  obtain ⟨-, L', R', hctx', rfl, -⟩ := h'
  obtain ⟨rfl, -⟩ := hctx.unique X hctx'
  rfl

/-- **Leaf edges at one place are the same edge.** -/
theorem EdgeAt.leaf_unique (X : Rooted H ht top) {e' : Handle .Edge} (hleaf : e.node.height = 0)
    (hleaf' : e'.node.height = 0) (h : EdgeAt H top e pre post) (h' : EdgeAt H top e' pre' post')
    (hlen : pre.length = pre'.length) : e = e' := by
  obtain ⟨⟨m, q⟩, i⟩ := e
  obtain ⟨⟨m', q'⟩, i'⟩ := e'
  obtain rfl : m = 0 := hleaf
  obtain rfl : m' = 0 := hleaf'
  obtain ⟨L, R, hctx, rfl, rfl⟩ := h.leaf
  obtain ⟨L', R', hctx', rfl, rfl⟩ := h'.leaf
  have hi : i ≤ (H.kvs q).length := h.le
  have hi' : i' ≤ (H.kvs q').length := h'.le
  simp only [length_append, length_take] at hlen
  have hq : (⟨0, q⟩ : NodeRef) = ⟨0, q'⟩ := by
    refine hctx.eq_of_place X hctx' rfl (n := L.length + i) (by lia) ?_ (by lia) ?_
    · simp only [NodeRef.inorder, Heap.inorder]
      lia
    · simp only [NodeRef.inorder, Heap.inorder]
      lia
  obtain ⟨-, rfl⟩ : 0 = 0 ∧ q = q' := by simpa using hq
  obtain ⟨rfl, -⟩ := hctx.unique X hctx'
  obtain rfl : i = i' := by lia
  rfl

/-! ## Backwards -/

/-- The pairs before an edge, and the pairs after it, with those below it. -/
structure EdgeBefore (H : Heap K V) (top : NodeRef) (e : Handle .Edge)
    (pre post : List (K × V)) : Prop where
  le : e.idx ≤ (H.kvs e.node.node).length
  ctx : ∃ L R, Ctx H top e.node L R ∧
    pre = L ++ before (H.children e.node.height e.node.node) ((H.kvs e.node.node).take e.idx) ∧
    post = weave ((H.children e.node.height e.node.node).drop e.idx)
      ((H.kvs e.node.node).drop e.idx) ++ R

theorem EdgeAt.edge_before {q : ℕ} (h : EdgeAt H top ⟨⟨0, q⟩, i⟩ pre post) :
    EdgeBefore H top ⟨⟨0, q⟩, i⟩ pre post := by
  obtain ⟨L, R, hctx, rfl, rfl⟩ := h.leaf
  exact ⟨h.le, L, R, hctx, by simp [Heap.children], by simp [Heap.children]⟩

/-- The pair to the left of an edge comes last before it. -/
theorem EdgeBefore.left_kv (h : EdgeBefore H top e pre post) (hidx : 0 < e.idx) :
    ∃ pre' kv, pre = pre' ++ [kv] ∧ KvAt H top ⟨e.node, e.idx - 1⟩ pre' kv post := by
  obtain ⟨hle, L, R, hctx, rfl, rfl⟩ := h
  obtain ⟨x, i⟩ := e
  obtain ⟨i, rfl⟩ := exists_eq_add_one.mpr hidx
  have hget := getElem?_eq_getElem (l := H.kvs x.node) hle
  have hlen : ((H.kvs x.node).take i).length = i := length_take_of_le (le_of_lt hle)
  refine ⟨L ++ weave ((H.children x.height x.node).take (i + 1)) ((H.kvs x.node).take i), _, ?_,
    hget, L, R, hctx, rfl, rfl⟩
  rw [before_take_succ _ _ hget, weave_take _ (by lia), weave_eq_before _ (take _ _), hlen]
  simp

variable (X : Rooted H ht top)
include X

/-- Before its first edge a node is done, and the position is that of its parent's edge. -/
theorem EdgeBefore.ascend {p j : ℕ} (h : EdgeBefore H top ⟨x, 0⟩ pre post)
    (hlink : H.link x.node = some (p, j)) : EdgeBefore H top ⟨⟨x.height + 1, p⟩, j⟩ pre post := by
  obtain ⟨-, L, R, hctx, rfl, rfl⟩ := h
  rcases hctx.eq_or_link X.forest with rfl | ⟨p', j', L', R', hlink', he, hctx', rfl, rfl⟩
  · rw [X.root] at hlink
    cases hlink
  obtain ⟨rfl, rfl⟩ : p' = p ∧ j' = j := by
    rw [hlink] at hlink'
    simpa using hlink'.symm
  refine ⟨X.forest.le_kvs_length he, L', R', hctx', ?_, ?_⟩
  · dsimp only
    rw [take_zero, before_no_entries, append_nil]
  · dsimp only
    rw [drop_zero, drop_zero, ← Heap.inorder_eq_weave,
      weave_eq_head (drop _ _), headD_eq_head?_getD, head?_drop, tail_drop,
      Forest.children_getElem he, append_assoc]

/-- Before the first edge of the root there is nothing. -/
theorem EdgeBefore.pre_nil (h : EdgeBefore H top ⟨x, 0⟩ pre post)
    (hlink : H.link x.node = none) : pre = [] := by
  obtain ⟨-, L, R, hctx, rfl, rfl⟩ := h
  rw [take_zero, before_no_entries, append_nil]
  cases hctx with
  | top => rfl
  | child hctx he =>
    rw [X.forest.link he] at hlink
    cases hlink

theorem next_back_kv_spec (he : EdgeBefore H top e (pre ++ [kv]) post) :
    ∃ k, e.next_back_kv H = some (.ok k) ∧ KvAt H top k pre kv post := by
  have hrun : ∃ r, e.next_back_kv H = some r ∧ ∃ k, r = .ok k ∧ KvAt H top k pre kv post := by
    unfold Handle.next_back_kv
    refine runLoop_spec _ (fun e => EdgeBefore H top e (pre ++ [kv]) post)
      (fun e => H.fresh - e.node.height) _ (fun e he => ?_) _ e he
      (lt_succ_of_le (sub_le _ _))
    obtain ⟨x, i⟩ := e
    obtain ⟨L, R, hctx, -, -⟩ := he.ctx
    have hx := hctx.valid X.forest X.top_valid
    rw [left_kv_spec hx.1 he.le, some_bind]
    by_cases hlt : 0 < i
    · rw [if_pos hlt]
      obtain ⟨pre', kv', heq, hk⟩ := he.left_kv hlt
      obtain ⟨rfl, hkv⟩ := append_inj' heq rfl
      obtain rfl : kv = kv' := by simpa using hkv
      exact ⟨_, rfl, hk⟩
    rw [if_neg hlt]
    obtain rfl : i = 0 := Nat.eq_zero_of_not_pos hlt
    rcases hlink : H.link x.node with _ | ⟨p, j⟩
    · have hnil := he.pre_nil X hlink
      simp at hnil
    · dsimp only
      rw [NodeRef.ascend_spec hx.1, hlink, some_bind, Option.map_some]
      refine ⟨he.ascend X hlink, ?_⟩
      have hlt := (X.forest.lt_fresh _ _ hx.1).2
      rw [hx.2] at hlt
      dsimp only at hlt ⊢
      lia
  obtain ⟨r, hrun, k, rfl, hk⟩ := hrun
  exact ⟨k, hrun, hk⟩

theorem next_back_leaf_edge_spec {k : Handle .KV}
    (hk : KvAt H top k pre kv post) : ∃ q j, k.next_back_leaf_edge H = some ⟨⟨0, q⟩, j⟩ ∧
      EdgeAt H top ⟨⟨0, q⟩, j⟩ pre (kv :: post) := by
  obtain ⟨⟨m, p⟩, i⟩ := k
  unfold Handle.next_back_leaf_edge
  cases m with
  | zero =>
    obtain ⟨hpair, L, R, hctx, rfl, rfl⟩ := hk
    obtain ⟨hlt, hget⟩ := List.getElem?_eq_some_iff.mp hpair
    have hx := hctx.valid X.forest X.top_valid
    have he := hctx.edgeAt (i := i) (le_of_lt hlt)
    rw [if_pos rfl]
    refine ⟨p, i, NodeRef.new_edge_spec hx.1 (le_of_lt hlt), ?_⟩
    rw [drop_eq_getElem_cons hlt, hget] at he
    simpa [Heap.children] using he
  | succ m =>
    obtain ⟨c, q, hleft, hdescend, hlast, he⟩ := hk.left_leaf_edge X.forest X.top_valid
    rw [if_neg (succ_ne_zero m), hleft, some_bind, hdescend, some_bind]
    exact ⟨q, _, hlast, he⟩

end RustStd.BTree
