import RustStd.BTree.Marks

/-!
# Positions in a tree

An edge or a pair of a tree stands at a position of the tree's pairs in order: `EdgeAt` and `KvAt`
give the pairs before and after it. The moves of `navigate.rs` go from one position to the next
(`next_kv_spec`, `next_leaf_edge_spec`, `last_leaf_edge_spec`).
-/

namespace RustStd.BTree

open Weave List Nat NodeRef

variable {K V : Type} {H H' : Heap K V} {ht : ℕ → ℕ} {top x : NodeRef} {L R pre post : List (K × V)}
  {kv : K × V} {i : ℕ} {e : Handle .Edge}

/-- The pairs before an edge, with those below it, and the pairs after it. -/
structure EdgeAt (H : Heap K V) (top : NodeRef) (e : Handle .Edge) (pre post : List (K × V)) :
    Prop where
  le : e.idx ≤ (H.kvs e.node.node).length
  ctx : ∃ L R, Ctx H top e.node L R ∧
    pre = L ++ weave ((H.children e.node.height e.node.node).take (e.idx + 1))
      ((H.kvs e.node.node).take e.idx) ∧
    post = after ((H.kvs e.node.node).drop e.idx)
      ((H.children e.node.height e.node.node).drop (e.idx + 1)) ++ R

/-- A pair, the pairs before it and the pairs after it. -/
structure KvAt (H : Heap K V) (top : NodeRef) (k : Handle .KV) (pre : List (K × V)) (kv : K × V)
    (post : List (K × V)) : Prop where
  pair : (H.kvs k.node.node)[k.idx]? = some kv
  ctx : ∃ L R, Ctx H top k.node L R ∧
    pre = L ++ weave ((H.children k.node.height k.node.node).take (k.idx + 1))
      ((H.kvs k.node.node).take k.idx) ∧
    post = weave ((H.children k.node.height k.node.node).drop (k.idx + 1))
      ((H.kvs k.node.node).drop (k.idx + 1)) ++ R

/-- An edge of a leaf, of the pairs around it. -/
theorem Ctx.edgeAt {q : ℕ} (hctx : Ctx H top ⟨0, q⟩ L R) (hi : i ≤ (H.kvs q).length) :
    EdgeAt H top ⟨⟨0, q⟩, i⟩ (L ++ (H.kvs q).take i) ((H.kvs q).drop i ++ R) :=
  ⟨hi, L, R, hctx, by simp [Heap.children], by simp [Heap.children]⟩

theorem EdgeAt.leaf {q : ℕ} (h : EdgeAt H top ⟨⟨0, q⟩, i⟩ pre post) :
    ∃ L R, Ctx H top ⟨0, q⟩ L R ∧ pre = L ++ (H.kvs q).take i ∧ post = (H.kvs q).drop i ++ R := by
  obtain ⟨-, L, R, hctx, rfl, rfl⟩ := h
  exact ⟨L, R, hctx, by simp [Heap.children], by simp [Heap.children]⟩

/-- The pairs of the tree, around an edge. -/
theorem EdgeAt.inorder (F : Forest H ht) (h : EdgeAt H top e pre post) :
    top.inorder H = pre ++ post := by
  obtain ⟨hle, L, R, hctx, rfl, rfl⟩ := h
  have hlen : ((H.kvs e.node.node).take e.idx).length = e.idx := length_take_of_le hle
  rw [hctx.inorder F, inorder, Heap.inorder_eq_weave, weave_at _ _ hle,
    weave_take _ (by omega), weave_eq_before _ (take _ _), hlen]
  simp

/-- The pairs of the tree, around a pair. -/
theorem KvAt.inorder (F : Forest H ht) {k : Handle .KV} (h : KvAt H top k pre kv post) :
    top.inorder H = pre ++ kv :: post := by
  obtain ⟨hpair, L, R, hctx, rfl, rfl⟩ := h
  obtain ⟨hlt, rfl⟩ := List.getElem?_eq_some_iff.mp hpair
  have hlen : ((H.kvs k.node.node).take k.idx).length = k.idx :=
    length_take_of_le (le_of_lt hlt)
  have hsplit : H.kvs k.node.node = (H.kvs k.node.node).take k.idx
      ++ (H.kvs k.node.node)[k.idx] :: (H.kvs k.node.node).drop (k.idx + 1) := by
    rw [← drop_eq_getElem_cons hlt, take_append_drop]
  have hweave := weave_append (H.children k.node.height k.node.node)
    ((H.kvs k.node.node).take k.idx) (H.kvs k.node.node)[k.idx]
    ((H.kvs k.node.node).drop (k.idx + 1))
  rw [hlen, ← hsplit] at hweave
  rw [hctx.inorder F, inorder, Heap.inorder_eq_weave, hweave]
  simp

/-- The pair to the right of an edge comes first after it. -/
theorem EdgeAt.right_kv (h : EdgeAt H top e pre post)
    (hpair : (H.kvs e.node.node)[e.idx]? = some kv) :
    ∃ post', post = kv :: post' ∧ KvAt H top ⟨e.node, e.idx⟩ pre kv post' := by
  obtain ⟨-, L, R, hctx, rfl, rfl⟩ := h
  obtain ⟨hlt, hget⟩ := List.getElem?_eq_some_iff.mp hpair
  refine ⟨_, ?_, hpair, L, R, hctx, rfl, rfl⟩
  rw [drop_eq_getElem_cons hlt, hget, Weave.after, cons_append]

/-- After its last edge a node is done, and the position is that of its parent's edge. -/
theorem EdgeAt.ascend (F : Forest H ht) {p j : ℕ} (h : EdgeAt H top ⟨x, i⟩ pre post)
    (hroot : H.link top.node = none) (hi : i = (H.kvs x.node).length)
    (hlink : H.link x.node = some (p, j)) : EdgeAt H top ⟨⟨x.height + 1, p⟩, j⟩ pre post := by
  obtain ⟨-, L, R, hctx, rfl, rfl⟩ := h
  rcases hctx.eq_or_link F with rfl | ⟨p', j', L', R', hlink', he, hctx', rfl, rfl⟩
  · rw [hroot] at hlink
    exact absurd hlink nofun
  obtain ⟨rfl, rfl⟩ : p' = p ∧ j' = j := by
    rw [hlink] at hlink'
    simpa using hlink'.symm
  subst hi
  have hlen : ((H.kvs p').take j').length = j' := length_take_of_le (F.le_kvs_length he)
  refine ⟨F.le_kvs_length he, L', R', hctx', ?_, ?_⟩
  · dsimp only
    rw [take_length, weave_take _ (lt_succ_self _), ← Heap.inorder_eq_weave,
      weave_take _ (by omega), weave_eq_before _ (take _ _), hlen,
      Forest.children_getElem he, append_assoc]
  · dsimp only
    rw [drop_length, after_no_entries, nil_append]

/-- After the last edge of the root there is nothing. -/
theorem EdgeAt.post_nil (F : Forest H ht) (h : EdgeAt H top ⟨x, i⟩ pre post)
    (hroot : H.link top.node = none) (hi : i = (H.kvs x.node).length)
    (hlink : H.link x.node = none) : post = [] := by
  obtain ⟨-, L, R, hctx, rfl, rfl⟩ := h
  subst hi
  rw [drop_length, after_no_entries, nil_append]
  cases hctx with
  | top => rfl
  | child hctx he =>
    rw [F.link he] at hlink
    exact absurd hlink nofun

/-! ## Moves -/

theorem right_kv_spec {ks : List (K × V)} {es : List ℕ}
    (hs : H.shape e.node.node = some (ks, es)) : e.right_kv H
      = some (if e.idx < ks.length then some ⟨e.node, e.idx⟩ else none) := by
  simp only [Handle.right_kv, len_spec hs, some_bind]
  split_ifs with hlt
  · rw [new_kv_spec hs hlt, some_bind]
  · rfl

theorem left_kv_spec {ks : List (K × V)} {es : List ℕ}
    (hs : H.shape e.node.node = some (ks, es)) (hle : e.idx ≤ ks.length) : e.left_kv H
      = some (if 0 < e.idx then some ⟨e.node, e.idx - 1⟩ else none) := by
  unfold Handle.left_kv
  split_ifs with hlt
  · rw [new_kv_spec hs (by omega), some_bind]
  · rfl

variable (F : Forest H ht)
include F

variable (htop : top.Valid H ht)
include htop

theorem next_kv_spec (hroot : H.link top.node = none) (he : EdgeAt H top e pre (kv :: post)) :
    ∃ k, e.next_kv H = some (.ok k) ∧ KvAt H top k pre kv post := by
  have hrun : ∃ r, e.next_kv H = some r ∧ ∃ k, r = .ok k ∧ KvAt H top k pre kv post := by
    unfold Handle.next_kv
    refine runLoop_spec _ (fun e => EdgeAt H top e pre (kv :: post))
      (fun e => H.fresh - e.node.height) _ (fun e he => ?_) _ e he
      (lt_succ_of_le (sub_le _ _))
    obtain ⟨L, R, hctx, -, -⟩ := he.ctx
    have hx := hctx.valid F htop
    rw [right_kv_spec hx.1, some_bind]
    by_cases hlt : e.idx < (H.kvs e.node.node).length
    · rw [if_pos hlt]
      obtain ⟨post', heq, hk⟩ := he.right_kv (getElem?_eq_getElem hlt)
      obtain ⟨hkv, rfl⟩ := cons.inj heq
      exact ⟨_, rfl, hkv ▸ hk⟩
    rw [if_neg hlt]
    have hidx : e.idx = (H.kvs e.node.node).length := le_antisymm he.le (not_lt.mp hlt)
    rcases hlink : H.link e.node.node with _ | ⟨p, j⟩
    · exact absurd (he.post_nil F hroot hidx hlink) nofun
    · dsimp only
      rw [ascend_spec hx.1, hlink, some_bind, Option.map_some]
      refine ⟨he.ascend F hroot hidx hlink, ?_⟩
      have hlt := (F.lt_fresh _ _ hx.1).2
      rw [hx.2] at hlt
      dsimp only
      omega
  obtain ⟨r, hrun, k, rfl, hk⟩ := hrun
  exact ⟨k, hrun, hk⟩

/-- The last leaf edge below a node, after all pairs of that node. -/
theorem last_leaf_edge_spec (hctx : Ctx H top x L R) :
    ∃ q, x.last_leaf_edge H = some ⟨⟨0, q⟩, (H.kvs q).length⟩ ∧
      EdgeAt H top ⟨⟨0, q⟩, (H.kvs q).length⟩ (L ++ x.inorder H) R := by
  have hrun : ∃ e, x.last_leaf_edge H = some e ∧ ∃ q, e = ⟨⟨0, q⟩, (H.kvs q).length⟩ ∧
      EdgeAt H top e (L ++ x.inorder H) R := by
    unfold last_leaf_edge
    refine runLoop_spec _ (fun y => ∃ L', Ctx H top y L' R ∧ L' ++ y.inorder H = L ++ x.inorder H)
      height _ (fun y hy => ?_) _ x ⟨L, hctx, rfl⟩ (lt_succ_self _)
    obtain ⟨L', hctx', heq⟩ := hy
    obtain ⟨m, q⟩ := y
    have hy := hctx'.valid F htop
    have hlast : last_edge H ⟨m, q⟩ = some ⟨⟨m, q⟩, (H.kvs q).length⟩ := by
      unfold last_edge
      rw [len_spec hy.1, some_bind]
      exact new_edge_spec hy.1 le_rfl
    cases m with
    | zero =>
      rw [if_pos rfl, hlast, some_bind]
      refine ⟨q, rfl, ?_⟩
      have he := hctx'.edgeAt (i := (H.kvs q).length) le_rfl
      rw [take_length, drop_length, nil_append] at he
      rwa [← heq]
    | succ m =>
      obtain ⟨c, hc⟩ := F.exists_edge hy le_rfl
      rw [if_neg (succ_ne_zero m), hlast, some_bind, descend_spec rfl hc, some_bind]
      have hchild := hctx'.child hc
      rw [take_length, drop_length, after_no_entries, nil_append] at hchild
      refine ⟨⟨_, hchild, ?_⟩, lt_succ_self m⟩
      rw [← heq, inorder, inorder, append_assoc]
      congr 1
      rw [Heap.inorder_eq_weave _ (m + 1), weave_eq_before, Forest.children_getElem hc]
  obtain ⟨e, hrun, q, rfl, he⟩ := hrun
  exact ⟨q, hrun, he⟩

/-- The first leaf edge below a node, before all pairs of that node. -/
theorem first_leaf_edge_spec (hctx : Ctx H top x L R) :
    ∃ q, x.first_leaf_edge H = some ⟨⟨0, q⟩, 0⟩ ∧
      EdgeAt H top ⟨⟨0, q⟩, 0⟩ L (x.inorder H ++ R) := by
  have hrun : ∃ e, x.first_leaf_edge H = some e ∧ ∃ q, e = ⟨⟨0, q⟩, 0⟩ ∧
      EdgeAt H top e L (x.inorder H ++ R) := by
    unfold first_leaf_edge
    refine runLoop_spec _ (fun y => ∃ R', Ctx H top y L R' ∧ y.inorder H ++ R' = x.inorder H ++ R)
      height _ (fun y hy => ?_) _ x ⟨R, hctx, rfl⟩ (lt_succ_self _)
    obtain ⟨R', hctx', heq⟩ := hy
    obtain ⟨m, q⟩ := y
    have hy := hctx'.valid F htop
    have hfirst : first_edge H ⟨m, q⟩ = some ⟨⟨m, q⟩, 0⟩ :=
      new_edge_spec hy.1 (zero_le _)
    cases m with
    | zero =>
      rw [if_pos rfl, hfirst, some_bind]
      refine ⟨q, rfl, ?_⟩
      have he := hctx'.edgeAt (i := 0) (zero_le _)
      rw [take_zero, drop_zero, append_nil] at he
      rwa [← heq]
    | succ m =>
      obtain ⟨c, hc⟩ := F.exists_edge hy (zero_le _)
      rw [if_neg (succ_ne_zero m), hfirst, some_bind, descend_spec rfl hc, some_bind]
      have hchild := hctx'.child hc
      rw [take_zero, drop_zero, before_no_entries, append_nil] at hchild
      refine ⟨⟨_, hchild, ?_⟩, lt_succ_self m⟩
      rw [← heq, inorder, inorder, F.inorder_at hc m, take_zero,
        drop_zero, before_no_entries, nil_append, append_assoc]
  obtain ⟨e, hrun, q, rfl, he⟩ := hrun
  exact ⟨q, hrun, he⟩

/-- Behind a pair comes the first leaf edge of the subtree on its right. -/
theorem next_leaf_edge_spec {k : Handle .KV}
    (hk : KvAt H top k pre kv post) : ∃ q j, k.next_leaf_edge H = some ⟨⟨0, q⟩, j⟩ ∧
      EdgeAt H top ⟨⟨0, q⟩, j⟩ (pre ++ [kv]) post := by
  obtain ⟨hpair, L, R, hctx, rfl, rfl⟩ := hk
  obtain ⟨⟨m, p⟩, i⟩ := k
  obtain ⟨hlt, hget⟩ := List.getElem?_eq_some_iff.mp hpair
  have hx := hctx.valid F htop
  have hright : Handle.right_edge H ⟨⟨m, p⟩, i⟩ = some ⟨⟨m, p⟩, i + 1⟩ :=
    new_edge_spec hx.1 hlt
  have hlen : ((H.kvs p).take i).length = i := length_take_of_le (le_of_lt hlt)
  unfold Handle.next_leaf_edge
  cases m with
  | zero =>
    rw [if_pos rfl, hright]
    refine ⟨p, i + 1, rfl, ?_⟩
    have he := hctx.edgeAt (i := i + 1) hlt
    rw [take_succ_eq_append_getElem hlt, hget, ← append_assoc] at he
    simpa [Heap.children] using he
  | succ m =>
    obtain ⟨c, hc⟩ := F.exists_edge hx hlt
    rw [if_neg (succ_ne_zero m), hright, some_bind, descend_spec rfl hc, some_bind]
    obtain ⟨q, hq, he⟩ := first_leaf_edge_spec F htop (hctx.child hc)
    refine ⟨q, 0, hq, ?_⟩
    have hpre : weave ((H.children (m + 1) p).take (i + 1)) ((H.kvs p).take i) ++ [kv]
        = before (H.children (m + 1) p) ((H.kvs p).take (i + 1)) := by
      rw [before_take_succ _ _ hpair, weave_take _ (by omega), weave_eq_before _ (take _ _),
        hlen, append_assoc]
    have hpost : weave ((H.children (m + 1) p).drop (i + 1)) ((H.kvs p).drop (i + 1)) =
        H.inorder m c ++ after ((H.kvs p).drop (i + 1)) ((H.children (m + 1) p).drop (i + 2)) := by
      rw [weave_eq_head, headD_eq_head?_getD, head?_drop, tail_drop, Forest.children_getElem hc]
    rw [append_assoc, hpre, hpost, append_assoc]
    exact he

omit htop

omit F

/-- The pair to the left of a leaf edge comes last before it. -/
theorem EdgeAt.left_kv {q : ℕ} (h : EdgeAt H top ⟨⟨0, q⟩, i + 1⟩ pre post) :
    ∃ pre' kv, pre = pre' ++ [kv] ∧ KvAt H top ⟨⟨0, q⟩, i⟩ pre' kv post := by
  obtain ⟨L, R, hctx, rfl, rfl⟩ := h.leaf
  have hlt : i < (H.kvs q).length := h.le
  refine ⟨L ++ (H.kvs q).take i, (H.kvs q)[i], ?_, getElem?_eq_getElem hlt, L, R, hctx, ?_, ?_⟩
  · rw [take_succ_eq_append_getElem hlt, append_assoc]
  · simp [Heap.children]
  · simp [Heap.children]

/-- Down from the left of a pair to the last leaf edge before it. -/
theorem KvAt.left_leaf_edge (F : Forest H ht) (htop : top.Valid H ht) {m p : ℕ}
    (hk : KvAt H top ⟨⟨m + 1, p⟩, i⟩ pre kv post) : ∃ c q,
      Handle.left_edge H ⟨⟨m + 1, p⟩, i⟩ = some ⟨⟨m + 1, p⟩, i⟩ ∧
      Handle.descend H ⟨⟨m + 1, p⟩, i⟩ = some ⟨m, c⟩ ∧
      last_leaf_edge H ⟨m, c⟩ = some ⟨⟨0, q⟩, (H.kvs q).length⟩ ∧
      EdgeAt H top ⟨⟨0, q⟩, (H.kvs q).length⟩ pre (kv :: post) := by
  obtain ⟨hpair, L, R, hctx, rfl, rfl⟩ := hk
  obtain ⟨hlt, hget⟩ := List.getElem?_eq_some_iff.mp hpair
  have hx := hctx.valid F htop
  have hlen : ((H.kvs p).take i).length = i := length_take_of_le (le_of_lt hlt)
  obtain ⟨c, hc⟩ := F.exists_edge hx (le_of_lt hlt)
  obtain ⟨q, hq, he⟩ := last_leaf_edge_spec F htop (hctx.child hc)
  refine ⟨c, q, new_edge_spec hx.1 (le_of_lt hlt), descend_spec rfl hc, hq, ?_⟩
  have hpre : L ++ weave ((H.children (m + 1) p).take (i + 1)) ((H.kvs p).take i)
      = L ++ before (H.children (m + 1) p) ((H.kvs p).take i) ++ H.inorder m c := by
    rw [weave_take _ (by omega), weave_eq_before _ (take _ _), hlen,
      Forest.children_getElem hc, append_assoc]
  rw [hpre, ← cons_append]
  rw [drop_eq_getElem_cons hlt, hget] at he
  exact he

end RustStd.BTree
