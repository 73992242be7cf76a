import RustStd.BTree.Walk

/-!
# The borders of a tree

The nodes at the last edges from the root down are the right border of a tree; nothing comes after
them (`Border.right_ctx`).
A part of a tree whose nodes have not changed is what it was (`Same`). New nodes leave all others as
they were: a leaf, a level on top of a root and a pillar of empty nodes.
-/

namespace RustStd.BTree

open Weave Nat Function Heap NodeRef

variable {K V : Type} {H H' H'' : Heap K V} {ht ht' : ℕ → ℕ} {top x y z : NodeRef}
  {L R L' R' : List (K × V)} {side : ℕ → ℕ}

/-! ## Borders -/

/-- The edge of a node with `len` pairs that is on the right border. -/
def right_side (len : ℕ) : ℕ := len

/-- `y` is on the border of the tree below `x`. -/
inductive Border (side : ℕ → ℕ) (H : Heap K V) (x : NodeRef) : NodeRef → Prop
  | top : Border side H x x
  | child {h p c : ℕ} (hb : Border side H x ⟨h + 1, p⟩)
      (he : H.edge p (side (H.kvs p).length) = some c) : Border side H x ⟨h, c⟩

namespace Border

theorem is_below (hb : Border side H x y) : Below H x y := by
  induction hb with
  | top => exact ⟨[], [], .top⟩
  | child _ he ih => exact ih.child (mem_edges.mpr ⟨_, he⟩)

theorem height_le (hb : Border side H x y) : y.height ≤ x.height := hb.is_below.height_le

/-- There is one node of each height on a border. -/
theorem unique (hy : Border side H x y) (hz : Border side H x z) (hyz : y.height = z.height) :
    y = z := by
  induction hy generalizing z with
  | top =>
    cases hz with
    | top => rfl
    | child hz he =>
      have := hz.height_le
      dsimp only at this hyz
      omega
  | child hy he ih =>
    cases hz with
    | top =>
      have := hy.height_le
      dsimp only at this hyz
      omega
    | child hz he' =>
      obtain rfl := hyz
      obtain rfl := congrArg node (ih hz rfl)
      obtain rfl := Option.some.inj (he.symm.trans he')
      rfl

theorem trans (hy : Border side H x y) (hz : Border side H y z) : Border side H x z := by
  induction hz with
  | top => exact hy
  | child _ he ih => exact ih.child he

/-- A node on a border is the top one or on the border of its child. -/
theorem eq_or_child (hb : Border side H x y) :
    y = x ∨ ∃ m c, x.height = m + 1 ∧ H.edge x.node (side (H.kvs x.node).length) = some c ∧
      Border side H ⟨m, c⟩ y := by
  induction hb with
  | top => exact .inl rfl
  | child hb he ih =>
    right
    rcases ih with rfl | ⟨m, c, hm, hc, hb⟩
    · exact ⟨_, _, rfl, he, .top⟩
    · exact ⟨m, c, hm, hc, hb.child he⟩

/-- A border down to `y` depends on the nodes above `y` only. -/
theorem congr_above (hb : Border side H x y)
    (hs : ∀ z, Border side H x z → y.height < z.height → H'.shape z.node = H.shape z.node) :
    Border side H' x y := by
  induction hb with
  | top => exact .top
  | @child h p c hb he ih =>
    have hshape : H'.shape p = H.shape p := hs _ hb (lt_succ_self h)
    refine (ih fun z hz hlt => hs z hz (lt_of_succ_lt hlt)).child ?_
    rw [kvs_congr hshape, edge_congr hshape]
    exact he

theorem exists_child (F : Forest H ht) (htop : top.Valid H ht) (hside : ∀ n, side n ≤ n) {h p : ℕ}
    (hb : Border side H top ⟨h + 1, p⟩) :
    ∃ c, H.edge p (side (H.kvs p).length) = some c ∧ Border side H top ⟨h, c⟩ := by
  obtain ⟨c, hc⟩ := F.exists_edge (hb.is_below.valid F htop) (hside _)
  exact ⟨c, hc, hb.child hc⟩

/-- After a node of the right border there is nothing. -/
theorem right_ctx (hb : Border right_side H top x) : ∃ L, Ctx H top x L [] := by
  induction hb with
  | top => exact ⟨[], .top⟩
  | child _ he ih =>
    obtain ⟨L, hctx⟩ := ih
    have hchild := hctx.child he
    rw [right_side, List.drop_length, after_no_entries, List.append_nil] at hchild
    exact ⟨_, hchild⟩

end Border

theorem Ctx.trans (hy : Ctx H x y L R) (hz : Ctx H y z L' R') : Ctx H x z (L ++ L') (R' ++ R) := by
  induction hz with
  | top =>
    rw [List.append_nil, List.nil_append]
    exact hy
  | child _ he ih =>
    have hchild := ih.child he
    rw [List.append_assoc, ← List.append_assoc (after _ _)] at hchild
    exact hchild

theorem Below.trans (hy : Below H x y) (hz : Below H y z) : Below H x z := by
  obtain ⟨L, R, hy⟩ := hy
  obtain ⟨L', R', hz⟩ := hz
  exact ⟨_, _, hy.trans hz⟩

/-! ## Parts that have not changed -/

/-- The nodes below `x` are as they were. -/
def Same (H H' : Heap K V) (x : NodeRef) : Prop :=
  ∀ y, Below H x y → H'.shape y.node = H.shape y.node

namespace Same

variable (hs : Same H H' x)
include hs

theorem of_below (hy : Below H x y) : Same H H' y :=
  fun z hz => hs z (hy.trans hz)

theorem inorder : x.inorder H' = x.inorder H := by
  obtain ⟨m, p⟩ := x
  induction m generalizing p with
  | zero => exact kvs_congr (hs _ ⟨[], [], .top⟩)
  | succ m ih =>
    refine inorder_congr (hs _ ⟨[], [], .top⟩) fun i c hc => ?_
    exact ih c (hs.of_below ⟨_, _, .child .top hc⟩)

theorem edge (hy : Below H x y) (i : ℕ) : H'.edge y.node i = H.edge y.node i :=
  edge_congr (hs y hy) i

theorem kvs (hy : Below H x y) : H'.kvs y.node = H.kvs y.node :=
  kvs_congr (hs y hy)

theorem ctx (hctx : Ctx H x y L R) : Ctx H' x y L R := by
  induction hctx with
  | top => exact .top
  | @child h p i c L R hctx he ih =>
    have hp : Below H x ⟨h + 1, p⟩ := ⟨_, _, hctx⟩
    have hchildren : H'.children (h + 1) p = H.children (h + 1) p := by
      rw [children_succ, children_succ, edges_congr (hs _ hp)]
      refine List.map_congr_left fun d hd => ?_
      exact (hs.of_below (hp.child hd)).inorder
    have hchild := ih.child (i := i) (c := c) (by rw [hs.edge hp]; exact he)
    rw [hchildren, hs.kvs hp] at hchild
    exact hchild

theorem below : Below H' x y ↔ Below H x y := by
  constructor
  · rintro ⟨L, R, hctx⟩
    induction hctx with
    | top => exact ⟨[], [], .top⟩
    | child _ he ih =>
      rw [hs.edge ih] at he
      exact ih.child (mem_edges.mpr ⟨_, he⟩)
  · rintro ⟨L, R, hctx⟩
    exact ⟨L, R, hs.ctx hctx⟩

theorem border : Border side H' x y ↔ Border side H x y := by
  constructor
  · intro hb
    induction hb with
    | top => exact .top
    | child _ he ih =>
      rw [hs.kvs ih.is_below, hs.edge ih.is_below] at he
      exact ih.child he
  · intro hb
    induction hb with
    | top => exact .top
    | child hb he ih =>
      refine ih.child ?_
      rw [hs.kvs hb.is_below, hs.edge hb.is_below]
      exact he

end Same

/-- A tree whose nodes have not changed. -/
theorem Rooted.same (X : Rooted H ht top) (hs : Same H H' top) (F : Forest H' ht')
    (hht : ht' top.node = ht top.node) (hlink : H'.link top.node = none) : Rooted H' ht' top := by
  refine ⟨F, valid_of_isSome ?_ (hht.trans X.top_valid.2), hlink⟩
  rw [hs top ⟨[], [], .top⟩, X.top_valid.1]
  rfl

/-- A node is below one root only. -/
theorem Below.root_unique {top' : NodeRef} (X : Rooted H ht top) (X' : Rooted H ht top')
    (hx : Below H top x) (hx' : Below H top' y) (hxy : x.node = y.node) : top = top' := by
  obtain rfl := (hx.valid X.forest X.top_valid).eq_of_node (hx'.valid X.forest X'.top_valid) hxy
  obtain ⟨L, R, hctx⟩ := hx
  obtain ⟨L', R', hctx'⟩ := hx'
  clear hxy
  induction hctx generalizing L' R' with
  | top =>
    rcases hctx'.eq_or_link X.forest with h | ⟨p, i, -, -, hlink, -⟩
    · exact h
    · rw [X.root] at hlink
      cases hlink
  | child hctx he ih =>
    rcases hctx'.eq_or_link X.forest with rfl | ⟨p, i, L2, R2, hlink, he', hctx2, -, -⟩
    · have hlink := X'.root
      rw [X.forest.link he] at hlink
      cases hlink
    · obtain ⟨rfl, rfl⟩ := X.forest.edge_injective he he'
      exact ih _ _ hctx2

/-- A border goes through its node of any height. -/
theorem Border.through (hy : Border side H x y) (hz : Border side H x z)
    (hle : z.height ≤ y.height) : Border side H y z := by
  induction hz with
  | top =>
    obtain rfl := hy.unique .top (le_antisymm hy.height_le hle)
    exact .top
  | child hz he ih =>
    rcases eq_or_lt_of_le hle with heq | hlt
    · obtain rfl := hy.unique (hz.child he) heq.symm
      exact .top
    · exact (ih hlt).child he

/-- What is below a node but is not the node is below one of its children. -/
theorem Below.cases_child (hy : Below H x y) :
    y = x ∨ ∃ m i c, x.height = m + 1 ∧ H.edge x.node i = some c ∧ Below H ⟨m, c⟩ y := by
  obtain ⟨L, R, hctx⟩ := hy
  induction hctx with
  | top => exact .inl rfl
  | child hctx he ih =>
    right
    rcases ih with rfl | ⟨m, i, c, hm, hc, hb⟩
    · exact ⟨_, _, _, rfl, he, [], [], .top⟩
    · exact ⟨m, i, c, hm, hc, hb.child (mem_edges.mpr ⟨_, he⟩)⟩

/-! ## New nodes -/

/-- All nodes that there were are as they were and have the heights they had. -/
structure Grown (H H' : Heap K V) (ht ht' : ℕ → ℕ) : Prop where
  fresh : H.fresh ≤ H'.fresh
  shape : ∀ q s, H.shape q = some s → H'.shape q = some s
  height : ∀ q s, H.shape q = some s → ht' q = ht q

namespace Grown

variable (G : Grown H H' ht ht')
include G

theorem trans {ht'' : ℕ → ℕ} (G' : Grown H' H'' ht' ht'') : Grown H H'' ht ht'' :=
  ⟨G.fresh.trans G'.fresh, fun q s h => G'.shape q s (G.shape q s h),
    fun q s h => (G'.height q s (G.shape q s h)).trans (G.height q s h)⟩

theorem same (F : Forest H ht) (hx : x.Valid H ht) : Same H H' x := by
  intro y hy
  have hs := (hy.valid F hx).1
  rw [G.shape _ _ hs, hs]

theorem rooted (X : Rooted H ht top) (F : Forest H' ht')
    (hlink : H'.link top.node = none) : Rooted H' ht' top :=
  X.same (G.same X.forest X.top_valid) F (G.height _ _ X.top_valid.1) hlink

end Grown

/-- A new leaf. -/
structure Leafed (H H' : Heap K V) (ht : ℕ → ℕ) : Prop where
  fresh : H'.fresh = H.fresh + 1
  shape : H'.shape = update H.shape H.fresh (some ([], []))
  link : H'.link = H.link
  forest : Forest H' (update ht H.fresh 0)

theorem new_leaf_spec (F : Forest H ht) :
    ∃ H', new_leaf H = (H', ⟨0, H.fresh⟩) ∧ Leafed H H' ht := by
  refine ⟨(H.alloc ⟨none, 0, [], []⟩).1, rfl, rfl, shape_alloc, ?_, ?_⟩
  · rw [link_alloc]
    exact update_eq_self_iff.mpr F.link_fresh.symm
  have hshape : (H.alloc ⟨none, 0, [], []⟩).1.shape =
      update H.shape H.fresh (some ([], [])) := shape_alloc
  have hlink : (H.alloc ⟨none, 0, [], []⟩).1.link = H.link := by
    rw [link_alloc]
    exact update_eq_self_iff.mpr F.link_fresh.symm
  have hedge : ∀ q i, (H.alloc ⟨none, 0, [], []⟩).1.edge q i = H.edge q i := by
    intro q i
    by_cases hq : q = H.fresh
    · subst hq
      rw [edge, Heap.edges_of_shape (by rw [hshape, update_self]), edge,
        edges, F.shape_fresh]
      rfl
    · exact edge_congr (by rw [hshape, update_of_ne hq]) i
  have hne : ∀ q s, H.shape q = some s → q ≠ H.fresh := fun q s h => (F.lt_fresh q s h).1.ne
  refine F.of_moved (fun _ => False) ?_ (by rintro _ ⟨⟩)
    (fun c _ => ⟨congrFun hlink c, fun p i => ?_⟩) ?_
    (fun p ks es h => ?_) (le_succ _)
  · intro p i p' i' c h h'
    rw [hedge] at h h'
    exact F.edge_injective h' h
  · rw [hedge]
  · intro p i c h
    rw [hedge] at h
    rw [update_of_ne (hne _ _ (shape_of_edge h)), update_of_ne (hne _ _ (F.shape_child h))]
    exact F.ht_edge p i c h
  · rw [hshape] at h
    by_cases hp : p = H.fresh
    · subst hp
      rw [update_self, Option.some.injEq, Prod.mk.injEq] at h
      obtain ⟨rfl, rfl⟩ := h
      rw [update_self]
      exact .inr ⟨rfl, zero_le _, lt_succ_self _, succ_pos _⟩
    · rw [update_of_ne hp] at h
      rw [update_of_ne hp]
      exact .inl ⟨h, rfl⟩

theorem Leafed.grown (N : Leafed H H' ht) (F : Forest H ht) :
    Grown H H' ht (update ht H.fresh 0) := by
  have hne : ∀ q s, H.shape q = some s → q ≠ H.fresh := fun q s h => (F.lt_fresh q s h).1.ne
  refine ⟨N.fresh ▸ le_succ _, fun q s h => ?_, fun q s h => ?_⟩
  · rw [N.shape, update_of_ne (hne q s h), h]
  · rw [update_of_ne (hne q s h)]

theorem Leafed.rooted (N : Leafed H H' ht) (F : Forest H ht) :
    Rooted H' (update ht H.fresh 0) ⟨0, H.fresh⟩ := by
  refine ⟨N.forest, valid_of_isSome ?_ (update_self ..), ?_⟩
  · rw [N.shape, update_self]
    rfl
  · rw [N.link]
    exact F.link_fresh

/-- A new root on top of a root. -/
structure Raised (H H' : Heap K V) (ht : ℕ → ℕ) (top : NodeRef) : Prop where
  fresh : H'.fresh = H.fresh + 1
  shape : H'.shape = update H.shape H.fresh (some ([], [top.node]))
  link : H'.link = update H.link top.node (some (H.fresh, 0))
  forest : Forest H' (update ht H.fresh (top.height + 1))

/-- The new root has the old one as its only child. -/
theorem push_internal_level_spec (X : Rooted H ht top) :
    ∃ H', top.push_internal_level H = some (H', ⟨top.height + 1, H.fresh⟩) ∧
      Raised H H' ht top := by
  have F := X.forest
  have htop := X.top_valid
  have hlt := F.lt_fresh _ _ htop.1
  have hne : ∀ q s, H.shape q = some s → q ≠ H.fresh := fun q s h => (F.lt_fresh q s h).1.ne
  set H1 := (H.alloc ⟨none, 0, [], [top.node]⟩).1 with hH1
  have hs1 : H1.shape = update H.shape H.fresh (some ([], [top.node])) :=
    shape_alloc
  have hl1 : H1.link = H.link := by
    rw [hH1, link_alloc]
    exact update_eq_self_iff.mpr F.link_fresh.symm
  have hsf : H1.shape H.fresh = some ([], [top.node]) := by rw [hs1, update_self]
  have hedge_new : ∀ i c, H1.edge H.fresh i = some c → i = 0 ∧ c = top.node := by
    intro i c h
    rw [edge, Heap.edges_of_shape hsf] at h
    obtain ⟨hi, hget⟩ := List.getElem?_eq_some_iff.mp h
    obtain rfl : i = 0 := lt_one_iff.mp hi
    exact ⟨rfl, hget.symm⟩
  have hedge_old : ∀ q i, q ≠ H.fresh → H1.edge q i = H.edge q i :=
    fun q i hq => edge_congr (by rw [hs1, update_of_ne hq]) i
  obtain ⟨H', hrun, hr⟩ := correct_all_childrens_parent_links_spec (H := H1)
    (x := ⟨top.height + 1, H.fresh⟩) (succ_pos _) hsf rfl
    (fun i j c hi hj => (hedge_new i c hi).1.trans (hedge_new j c hj).1.symm)
    (fun i c hi => by
      obtain ⟨-, rfl⟩ := hedge_new i c hi
      rw [hs1, update_of_ne (hne _ _ htop.1), htop.1]
      rfl)
  have hedge0 : H1.edge H.fresh 0 = some top.node := by
    rw [edge, Heap.edges_of_shape hsf]
    rfl
  have hlink : H'.link = update H.link top.node (some (H.fresh, 0)) := by
    funext c
    by_cases hc : c = top.node
    · subst hc
      rw [update_self]
      exact hr.link_in 0 _ (by simp) hedge0
    · rw [update_of_ne hc, hr.link_out c fun i _ hi => hc (hedge_new i c hi).2, hl1]
  have hshape : H'.shape = update H.shape H.fresh (some ([], [top.node])) :=
    hr.shape.trans hs1
  have hedge : ∀ q i, H'.edge q i = H1.edge q i :=
    fun q i => edge_congr (congrFun hr.shape q) i
  have hroot : ∀ q i, H.edge q i ≠ some top.node := by
    intro q i h
    have := X.root
    rw [F.link h] at this
    cases this
  refine ⟨H', ?_, hr.fresh, hshape, hlink, ?_⟩
  · unfold push_internal_level new_internal
    have halloc : H.alloc ⟨none, 0, [], [top.node]⟩ = (H1, H.fresh) := rfl
    rw [halloc]
    unfold from_new_internal
    dsimp only
    rw [hrun]
    rfl
  refine F.of_moved (· = top.node) ?_ ?_ (fun c hc => ⟨?_, fun q i => ?_⟩) ?_
    (fun p ks es h => ?_) (hr.fresh ▸ le_succ _)
  · intro p i p' i' c h h'
    rw [hedge] at h h'
    by_cases hp : p = H.fresh
    · subst hp
      obtain ⟨rfl, rfl⟩ := hedge_new i c h
      by_cases hp' : p' = H.fresh
      · subst hp'
        exact ⟨rfl, (hedge_new i' _ h').1.symm⟩
      · rw [hedge_old _ _ hp'] at h'
        exact absurd h' (hroot p' i')
    · rw [hedge_old _ _ hp] at h
      by_cases hp' : p' = H.fresh
      · subst hp'
        obtain ⟨rfl, rfl⟩ := hedge_new i' c h'
        exact absurd h (hroot p i)
      · rw [hedge_old _ _ hp'] at h'
        exact F.edge_injective h' h
  · rintro c rfl
    refine .inl ⟨H.fresh, 0, by rw [hedge, hedge0], ?_⟩
    rw [hlink, update_self]
  · rw [hlink, update_of_ne hc]
  · rw [hedge]
    by_cases hq : q = H.fresh
    · subst hq
      refine iff_of_false (fun h => hc (hedge_new i c h).2) fun h => ?_
      exact hne _ _ (shape_of_edge h) rfl
    · rw [hedge_old q i hq]
  · intro p i c h
    rw [hedge] at h
    by_cases hp : p = H.fresh
    · subst hp
      obtain ⟨-, rfl⟩ := hedge_new i c h
      rw [update_self, update_of_ne (hne _ _ htop.1), htop.2]
    · rw [hedge_old p i hp] at h
      rw [update_of_ne hp, update_of_ne (hne _ _ (F.shape_child h))]
      exact F.ht_edge p i c h
  · rw [hshape] at h
    rw [hr.fresh]
    by_cases hp : p = H.fresh
    · subst hp
      rw [update_self, Option.some.injEq, Prod.mk.injEq] at h
      obtain ⟨rfl, rfl⟩ := h
      have hheight := hlt.2
      rw [htop.2] at hheight
      rw [update_self]
      exact .inr ⟨rfl, zero_le _, lt_succ_self _, succ_lt_succ hheight⟩
    · rw [update_of_ne hp] at h
      rw [update_of_ne hp]
      exact .inl ⟨h, rfl⟩

namespace Raised

variable (N : Raised H H' ht top)
include N

theorem grown (F : Forest H ht) : Grown H H' ht (update ht H.fresh (top.height + 1)) := by
  have hne : ∀ q s, H.shape q = some s → q ≠ H.fresh := fun q s h => (F.lt_fresh q s h).1.ne
  refine ⟨N.fresh ▸ le_succ _, fun q s h => ?_, fun q s h => ?_⟩
  · rw [N.shape, update_of_ne (hne q s h), h]
  · rw [update_of_ne (hne q s h)]

theorem shape_new : H'.shape H.fresh = some ([], [top.node]) := by
  rw [N.shape, update_self]

theorem rooted (X : Rooted H ht top) :
    Rooted H' (update ht H.fresh (top.height + 1)) ⟨top.height + 1, H.fresh⟩ := by
  refine ⟨N.forest, valid_of_isSome ?_ (update_self ..), ?_⟩
  · rw [N.shape_new]
    rfl
  · have hne : H.fresh ≠ top.node := (X.forest.lt_fresh _ _ X.top_valid.1).1.ne'
    rw [N.link, update_of_ne hne]
    exact X.forest.link_fresh

theorem edge_new {i c : ℕ} (h : H'.edge H.fresh i = some c) : i = 0 ∧ c = top.node := by
  rw [edge, Heap.edges_of_shape N.shape_new] at h
  obtain ⟨hi, hget⟩ := List.getElem?_eq_some_iff.mp h
  obtain rfl : i = 0 := lt_one_iff.mp hi
  exact ⟨rfl, hget.symm⟩

theorem edge_zero : H'.edge H.fresh 0 = some top.node := by
  rw [edge, Heap.edges_of_shape N.shape_new]
  rfl

theorem kvs_new : H'.kvs H.fresh = [] := kvs_of_shape N.shape_new

variable (X : Rooted H ht top)
include X

theorem inorder :
    NodeRef.inorder H' ⟨top.height + 1, H.fresh⟩ = top.inorder H := by
  rw [NodeRef.inorder, Heap.inorder, N.kvs_new, Heap.edges_of_shape N.shape_new, List.map_singleton,
    weave_no_entries]
  exact ((N.grown X.forest).same X.forest X.top_valid).inorder

theorem below :
    Below H' ⟨top.height + 1, H.fresh⟩ x ↔ x = ⟨top.height + 1, H.fresh⟩ ∨ Below H top x := by
  have hs := (N.grown X.forest).same X.forest X.top_valid
  constructor
  · intro h
    rcases h.cases_child with rfl | ⟨m, i, c, hm, hc, hb⟩
    · exact .inl rfl
    · obtain ⟨-, rfl⟩ := N.edge_new hc
      obtain rfl : top.height = m := succ.inj hm
      exact .inr (hs.below.mp hb)
  · rintro (rfl | h)
    · exact ⟨[], [], .top⟩
    · refine Below.trans ⟨_, _, .child .top N.edge_zero⟩ (hs.below.mpr h)

theorem border (hside : ∀ n, side n ≤ n) :
    Border side H' ⟨top.height + 1, H.fresh⟩ x ↔
      x = ⟨top.height + 1, H.fresh⟩ ∨ Border side H top x := by
  have hs := (N.grown X.forest).same X.forest X.top_valid
  have htop : Border side H' ⟨top.height + 1, H.fresh⟩ top := by
    refine .child .top ?_
    rw [N.kvs_new, List.length_nil, le_zero.mp (hside 0)]
    exact N.edge_zero
  constructor
  · intro h
    rcases lt_or_ge top.height x.height with hlt | hge
    · exact .inl (h.unique .top (le_antisymm h.height_le hlt))
    · exact .inr (hs.border.mp (htop.through h hge))
  · rintro (rfl | h)
    · exact .top
    · exact htop.trans (hs.border.mpr h)

end Raised

/-! ## Pillars -/

section Pillar

/-- `push_internal_level`, a number of times. -/
def push_levels : ℕ → Heap K V × NodeRef → Option (Heap K V × NodeRef)
  | 0, s => some s
  | n + 1, s => do push_levels n (← s.2.push_internal_level s.1)

/-- `new_pillar`, a tree of empty nodes. -/
def new_pillar (H : Heap K V) (height : ℕ) : Option (Heap K V × NodeRef) :=
  push_levels height (new_leaf H)

/-- A tree of empty nodes. -/
def Empty (H : Heap K V) (x : NodeRef) : Prop := ∀ y, Below H x y → H.kvs y.node = []

theorem Empty.inorder (he : Empty H x) : x.inorder H = [] := by
  obtain ⟨m, p⟩ := x
  induction m generalizing p with
  | zero => exact he _ ⟨[], [], .top⟩
  | succ m ih =>
    have hnil : H.kvs p = [] := he _ ⟨[], [], .top⟩
    rw [NodeRef.inorder, Heap.inorder, hnil, weave_no_entries]
    cases hes : H.edges p with
    | nil => rfl
    | cons c es =>
      have hc : Below H ⟨m + 1, p⟩ ⟨m, c⟩ :=
        Below.child ⟨[], [], .top⟩ (by rw [hes]; exact List.mem_cons_self)
      exact ih c fun y hy => he y (hc.trans hy)

/-- All of it is on the border. -/
theorem Empty.border (he : Empty H x) (F : Forest H ht) (hside : ∀ n, side n ≤ n)
    (hy : Below H x y) : Border side H x y := by
  obtain ⟨L, R, hctx⟩ := hy
  induction hctx with
  | top => exact .top
  | @child h p i c L R hctx hc ih =>
    have hnil : H.kvs p = [] := he _ ⟨_, _, hctx⟩
    have hi := F.le_kvs_length hc
    rw [hnil] at hi
    obtain rfl : i = 0 := le_zero.mp hi
    refine ih.child ?_
    rw [hnil, List.length_nil, le_zero.mp (hside 0)]
    exact hc

/-- A new tree of empty nodes, besides what there was. -/
structure Pillar (H H' : Heap K V) (ht ht' : ℕ → ℕ) (r : NodeRef) : Prop extends
    Rooted H' ht' r, Grown H H' ht ht' where
  empty : Empty H' r
  link : ∀ q s, H.shape q = some s → H'.link q = H.link q
  new : ∀ y, Below H' r y → H.shape y.node = none

theorem push_levels_spec {r : NodeRef} (n : ℕ) (P : Pillar H H' ht ht' r) :
    ∃ H'' ht'' r', push_levels n (H', r) = some (H'', r') ∧ r'.height = r.height + n ∧
      Pillar H H'' ht ht'' r' := by
  induction n generalizing H' ht' r with
  | zero => exact ⟨H', ht', r, rfl, rfl, P⟩
  | succ n ih =>
    have X := P.toRooted
    obtain ⟨H1, hpush, N⟩ := push_internal_level_spec X
    have G := N.grown X.forest
    have hs := G.same X.forest X.top_valid
    have hnone : H.shape r.node = none := P.new r ⟨[], [], .top⟩
    have P' : Pillar H H1 ht (update ht' H'.fresh (r.height + 1))
        ⟨r.height + 1, H'.fresh⟩ := by
      refine ⟨N.rooted X, P.toGrown.trans G, fun y hy => ?_, fun q s hq => ?_, fun y hy => ?_⟩
      · rcases (N.below X).mp hy with rfl | hy
        · exact N.kvs_new
        · rw [hs.kvs hy]
          exact P.empty y hy
      · have hqr : q ≠ r.node := by
          rintro rfl
          rw [hnone] at hq
          cases hq
        rw [N.link, update_of_ne hqr]
        exact P.link q s hq
      · rcases (N.below X).mp hy with rfl | hy
        · rcases hq : H.shape H'.fresh with _ | s
          · rfl
          · have := X.forest.shape_fresh
            rw [P.shape _ s hq] at this
            cases this
        · exact P.new y hy
    obtain ⟨H'', ht'', r', hrun, hheight, hP⟩ := ih P'
    refine ⟨H'', ht'', r', ?_, ?_, hP⟩
    · rw [push_levels, hpush, some_bind]
      exact hrun
    · rw [hheight, add_assoc, add_comm 1 n]

theorem new_pillar_spec (F : Forest H ht) (n : ℕ) : ∃ H' ht' r,
    new_pillar H n = some (H', r) ∧ r.height = n ∧ Pillar H H' ht ht' r := by
  obtain ⟨H1, hleaf, N⟩ := new_leaf_spec F
  have hshape : H1.shape H.fresh = some ([], []) := by rw [N.shape, update_self]
  have honly : ∀ y, Below H1 ⟨0, H.fresh⟩ y → y = ⟨0, H.fresh⟩ := by
    intro y hy
    rcases hy.cases_child with h | ⟨m, i, c, hm, -, -⟩
    · exact h
    · cases hm
  have P : Pillar H H1 ht (update ht H.fresh 0) ⟨0, H.fresh⟩ := by
    refine ⟨N.rooted F, N.grown F, fun y hy => ?_, fun q s _ => congrFun N.link q, fun y hy => ?_⟩
    · rw [honly y hy]
      exact kvs_of_shape hshape
    · rw [honly y hy]
      exact F.shape_fresh
  obtain ⟨H', ht', r, hrun, hheight, hP⟩ := push_levels_spec n P
  refine ⟨H', ht', r, ?_, ?_, hP⟩
  · unfold new_pillar
    rw [hleaf]
    exact hrun
  · rw [hheight, zero_add]

end Pillar

end RustStd.BTree
