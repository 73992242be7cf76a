import RustStd.BTree.Links

/-!
# Nodes that grow

A node with other pairs, a node that a pair and a tree are pushed to (`push_spec`), and the links of
a new node.
-/

namespace RustStd.BTree

open Weave List Function Heap

variable {K V : Type} {ht : ℕ → ℕ}

variable {H : Heap K V}

/-- A node with other pairs. -/
theorem Forest.set_kvs {H' : Heap K V} (F : Forest H ht) {p : ℕ}
    {ks ks' : List (K × V)} {es : List ℕ} (hp : H.shape p = some (ks, es))
    (hfresh : H'.fresh = H.fresh) (hlink : H'.link = H.link)
    (hshape : H'.shape = update H.shape p (some (ks', es)))
    (hcap : ks'.length ≤ CAPACITY) (hlen : ht p ≠ 0 → ks'.length = ks.length) : Forest H' ht := by
  have hedge : ∀ q i, H'.edge q i = H.edge q i := by
    intro q i
    unfold Heap.edge Heap.edges
    rw [hshape]
    by_cases hq : q = p
    · subst hq; simp [hp]
    · simp [hq]
  refine ⟨fun q i c => ?_, fun q i c h => ?_, fun q ks1 es1 h => ?_, fun q ks1 es1 h => ?_,
    fun q s h => ?_⟩
  · rw [hedge, hlink, F.edge_iff]
  · rw [hedge] at h
    exact F.ht_edge q i c h
  · rw [hshape] at h
    by_cases hq : q = p
    · subst hq
      simp only [update_self, Option.some.injEq, Prod.mk.injEq] at h
      obtain ⟨rfl, rfl⟩ := h
      have hold := F.edges_length q _ _ hp
      by_cases h0 : ht q = 0
      · simpa [h0] using hold
      · simpa [h0, hlen h0] using hold
    · rw [update_of_ne hq] at h
      exact F.edges_length q _ _ h
  · rw [hshape] at h
    by_cases hq : q = p
    · subst hq
      simp only [update_self, Option.some.injEq, Prod.mk.injEq] at h
      obtain ⟨rfl, rfl⟩ := h
      exact hcap
    · rw [update_of_ne hq] at h
      exact F.le_capacity q _ _ h
  · rw [hfresh]
    rw [hshape] at h
    by_cases hq : q = p
    · subst hq
      exact F.lt_fresh q _ hp
    · rw [update_of_ne hq] at h
      exact F.lt_fresh q _ h

/-- What is behind a push of `kv` and the tree below `r` to the node `p`. -/
structure Pushed (H H' : Heap K V) (ht : ℕ → ℕ) (h p : ℕ) (kv : K × V) (r : ℕ) : Prop where
  shape : H'.shape = update H.shape p (some (H.kvs p ++ [kv], H.edges p ++ [r]))
  forest : Forest H' ht
  link_none : ∀ c, H'.link c = none ↔ H.link c = none ∧ c ≠ r
  inorder : H'.inorder (h + 1) p = H.inorder (h + 1) p ++ kv :: H.inorder h r

section Push

variable {H' : Heap K V} {h p r : ℕ} {kv : K × V} (F : Forest H ht)
  (hp : NodeRef.Valid H ht ⟨h + 1, p⟩) (hr : NodeRef.Valid H ht ⟨h, r⟩)

include F hp in
theorem Forest.length_edges : (H.edges p).length = (H.kvs p).length + 1 := by
  have hlen := F.edges_length _ _ _ hp.1
  rwa [hp.2, if_neg (Nat.succ_ne_zero h)] at hlen

variable (hshape : H'.shape = update H.shape p (some (H.kvs p ++ [kv], H.edges p ++ [r])))
include hshape

/-- The edges behind a push: the new tree is at the last one. -/
theorem edge_of_pushed (q j d : ℕ) : H'.edge q j = some d ↔
    H.edge q j = some d ∨ q = p ∧ j = (H.edges p).length ∧ d = r := by
  by_cases hq : q = p
  · subst hq
    rw [edge, edges_of_shape (by rw [hshape, update_self]), edge]
    rcases lt_trichotomy j (H.edges q).length with hj | rfl | hj
    · rw [getElem?_append_left hj]
      exact ⟨.inl, fun hd => hd.resolve_right fun hlast => hj.ne hlast.2.1⟩
    · rw [getElem?_concat_length, getElem?_eq_none le_rfl, Option.some_inj, eq_comm]
      exact ⟨fun hd => .inr ⟨rfl, rfl, hd⟩, fun hd => (hd.resolve_left nofun).2.2⟩
    · rw [getElem?_eq_none (by simp; omega), getElem?_eq_none hj.le]
      exact ⟨.inl, fun hd => hd.resolve_right fun hlast => hj.ne' hlast.2.1⟩
  · rw [edge_congr (show H'.shape q = H.shape q by rw [hshape, update_of_ne hq])]
    exact ⟨.inl, fun hd => hd.resolve_right fun hlast => hq hlast.1⟩

include F hp hr

/-- When the new tree is linked to its edge, the nodes are a forest again. -/
theorem Forest.pushed (hcap : (H.kvs p).length < CAPACITY) (hroot : H.link r = none)
    (hfresh : H'.fresh = H.fresh)
    (hlink : H'.link = update H.link r (some (p, (H.edges p).length))) : Forest H' ht := by
  have hedge := edge_of_pushed hshape
  have hno (q j : ℕ) : H.edge q j ≠ some r := by
    intro hq
    cases hroot.symm.trans (F.link hq)
  refine F.of_moved (· = r) (fun q j q' j' d hd hd' => ?_) (fun d hd => ?_) (fun d hd => ?_)
    (fun q j d hd => ?_) (fun q ks es hq => ?_) hfresh.ge
  · rcases (hedge q j d).mp hd with hd | ⟨rfl, rfl, rfl⟩
    · rcases (hedge q' j' d).mp hd' with hd' | ⟨rfl, rfl, rfl⟩
      · exact F.edge_injective hd' hd
      · exact absurd hd (hno _ _)
    · rcases (hedge q' j' d).mp hd' with hd' | ⟨rfl, rfl, -⟩
      · exact absurd hd' (hno _ _)
      · exact ⟨rfl, rfl⟩
  · subst hd
    exact .inl ⟨p, _, (hedge _ _ _).mpr (.inr ⟨rfl, rfl, rfl⟩), by rw [hlink, update_self]⟩
  · refine ⟨by rw [hlink, update_of_ne hd], fun q j => (hedge q j d).trans ⟨fun h => ?_, .inl⟩⟩
    exact h.resolve_right fun hlast => hd hlast.2.2
  · rcases (hedge q j d).mp hd with hd | ⟨rfl, -, rfl⟩
    · exact F.ht_edge _ _ _ hd
    · exact hp.2.trans (congrArg (· + 1) hr.2.symm)
  · by_cases hqp : q = p
    · subst hqp
      rw [hshape, update_self] at hq
      cases hq
      have hlen := F.length_edges hp
      have hlt := F.lt_fresh q _ hp.1
      rw [hfresh, hp.2, if_neg (Nat.succ_ne_zero h), length_append, length_append, hlen]
      exact .inr ⟨rfl, hcap, hlt.1, hp.2 ▸ hlt.2⟩
    · rw [hshape, update_of_ne hqp] at hq
      exact .inl ⟨hq, rfl⟩

/-- The pairs behind a push. -/
theorem Forest.inorder_pushed :
    H'.inorder (h + 1) p = H.inorder (h + 1) p ++ kv :: H.inorder h r := by
  have hnew : H'.shape p = some (H.kvs p ++ [kv], H.edges p ++ [r]) := by rw [hshape, update_self]
  have hlow {d : ℕ} (hs : H.shape d = some (H.kvs d, H.edges d)) (hh : ht d = h) :
      H'.inorder h d = H.inorder h d := by
    refine F.inorder_lower (n := h) (fun q s _ hle => ?_) hs hh le_rfl
    rw [hshape, update_of_ne]
    rintro rfl
    have hph : ht q = h + 1 := hp.2
    omega
  have hold : (H.edges p).map (H'.inorder h) = (H.edges p).map (H.inorder h) := by
    refine map_congr_left fun d hd => ?_
    obtain ⟨j, hj⟩ := mem_edges.mp hd
    exact hlow (F.shape_child hj) (Nat.succ.inj ((F.ht_edge _ _ _ hj).symm.trans hp.2))
  rw [inorder, kvs_of_shape hnew, edges_of_shape hnew, map_append, hold, map_singleton,
    hlow hr.1 hr.2, weave_append, take_left' (by rw [length_map, F.length_edges hp]),
    drop_left' (by rw [length_map, F.length_edges hp])]
  rfl

omit hshape

theorem push_spec (hcap : (H.kvs p).length < CAPACITY) (hroot : H.link r = none) (kv : K × V) :
    ∃ H', NodeRef.push H ⟨h + 1, p⟩ kv ⟨h, r⟩ = some H' ∧ Pushed H H' ht h p kv r := by
  obtain ⟨n, hn, hkn, hen⟩ := get_of_shape hp.1
  set H1 := H.set p { n with kvs := n.kvs ++ [kv], edges := n.edges ++ [r] } with hH1
  have hs1 : H1.shape = update H.shape p (some (H.kvs p ++ [kv], H.edges p ++ [r])) := by
    rw [hH1, shape_set, hkn, hen]
  have hnew : H1.edge p (H.edges p).length = some r :=
    (edge_of_pushed hs1 _ _ _).mpr (.inr ⟨rfl, rfl, rfl⟩)
  have hrs : (H1.shape r).isSome := by
    rw [hs1]
    exact isSome_update (by rw [hr.1]; rfl) _ _
  obtain ⟨H2, hcorrect, hfresh, hs2, hl2⟩ :=
    correct_parent_link_spec (x := ⟨h + 1, p⟩) (Nat.succ_pos h) hnew hrs
  have hs := hs2.trans hs1
  have hl : H2.link = update H.link r (some (p, (H.edges p).length)) := by
    rw [hl2, link_set_of_get hn]
  refine ⟨H2, ?_, hs, F.pushed hp hr hs hcap hroot hfresh hl, fun c => ?_,
    F.inorder_pushed hp hr hs⟩
  · have hidx : n.kvs.length = (H.kvs p).length := congrArg length hkn
    have hedge : Handle.new_edge H1 ⟨h + 1, p⟩ ((H.kvs p).length + 1) = some
        ⟨⟨h + 1, p⟩, (H.edges p).length⟩ := by
      rw [← F.length_edges hp]
      refine NodeRef.new_edge_spec (by rw [hs1, update_self]) ?_
      rw [length_append, F.length_edges hp]
      rfl
    simp only [NodeRef.push, assert_some, hn, hidx, assert_some hcap, some_bind, ← hH1, hedge,
      hcorrect]
  · rw [hl]
    by_cases hc : c = r
    · rw [hc, update_self]
      exact iff_of_false (Option.some_ne_none _) fun h => h.2 rfl
    · rw [update_of_ne hc]
      exact ⟨fun h => ⟨h, hc⟩, And.left⟩

end Push

/-! ## New nodes -/

theorem Forest.shape_fresh (F : Forest H ht) : H.shape H.fresh = none := by
  rcases h : H.shape H.fresh with _ | s
  · rfl
  · exact absurd (F.lt_fresh _ _ h).1 (lt_irrefl _)

theorem Forest.link_fresh (F : Forest H ht) : H.link H.fresh = none := by
  rcases h : H.link H.fresh with _ | s
  · rfl
  · have := F.shape_fresh.symm.trans (shape_of_link h)
    exact absurd this (by simp)

/-- All children of a new node get their link. -/
theorem correct_all_childrens_parent_links_spec {x : NodeRef} (hh : 0 < x.height)
    {ks : List (K × V)} {es : List ℕ} (hx : H.shape x.node = some (ks, es))
    (hlen : es.length = ks.length + 1)
    (hinj : ∀ i j c, H.edge x.node i = some c → H.edge x.node j = some c → i = j)
    (hchild : ∀ i c, H.edge x.node i = some c → (H.shape c).isSome) :
    ∃ H', x.correct_all_childrens_parent_links H = some H'
      ∧ Relinked H H' x.node (· ∈ range' 0 (ks.length + 1)) := by
  obtain ⟨H', h', hr⟩ := @correct_childrens_parent_links_spec _ _ H x
    (range' 0 (ks.length + 1)) hh hinj fun i hi => by
      have hi' := mem_range'_1.mp hi
      obtain ⟨c, hc⟩ : ∃ c, H.edge x.node i = some c := by
        rw [Heap.edge, edges_of_shape hx]
        exact ⟨_, getElem?_eq_getElem (by omega)⟩
      rw [kvs_of_shape hx]
      exact ⟨by omega, c, hc, hchild i c hc⟩
  exact ⟨H', by simp [NodeRef.correct_all_childrens_parent_links, NodeRef.len_spec hx, h'], hr⟩

end RustStd.BTree
