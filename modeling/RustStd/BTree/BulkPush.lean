import RustStd.BTree.IntoIter
import RustStd.BTree.MergeIter
import RustStd.BTree.Mend

/-!
# Building a tree from a sequence

`append.rs`. `bulk_push` adds a sequence of pairs to the end of a tree: to the last leaf as long as
there is room, and otherwise to the lowest node above it that has room, with a pillar of empty nodes
to its right. All nodes that are left of the last ones are full (`Packed`), which is what
`fix_right_border_of_plentiful` needs in the end. `append` merges two maps and builds a new tree of
their pairs.
-/

namespace RustStd.BTree

open Weave Sorted DoubleEnded List Nat Option Function Heap

section Model

variable {K V I : Type}

namespace NodeRef

variable (H : Heap K V)

/-- The loop of `bulk_push` that goes up from the current leaf to a node with room, with the root
after it. -/
def open_node (self cur_node : NodeRef) : Option (Heap K V × NodeRef × NodeRef) :=
  runLoop (fun test_node : NodeRef => do
    match ← test_node.ascend H with
    | some parent =>
      if (← parent.node.len H) < CAPACITY then some (.done (H, self, parent.node))
      else some (.again parent.node)
    | none => do
      let (H, open_node) ← self.push_internal_level H
      some (.done (H, open_node, open_node))) (H.fresh + 1) cur_node

/-- A turn of the loop of `bulk_push`: the root and the current leaf after it. -/
def push_pair (self cur_node : NodeRef) (kv : K × V) : Option (Heap K V × NodeRef × NodeRef) := do
  if (← cur_node.len H) < CAPACITY then do
    let (H, _) ← cur_node.push_with_handle H kv
    some (H, self, cur_node)
  else do
    let (H, self, open_node) ← self.open_node H cur_node
    let tree_height ← checkedSub open_node.height 1
    let (H, right_tree) ← push_levels tree_height (new_leaf H)
    let H ← open_node.push H kv right_tree
    some (H, self, (← open_node.last_leaf_edge H).node)

end NodeRef

/-- The loop of `bulk_push`: what the iterator has left, the tree and the current leaf. -/
structure BulkPush (K V I : Type) where
  iter : I
  heap : Heap K V
  root : NodeRef
  cur_node : NodeRef
  length : ℕ

def bulk_push_turn (next : I → Option (Option (K × V) × I)) (s : BulkPush K V I) :
    Option (Turn (BulkPush K V I) (BulkPush K V I)) := do
  match ← next s.iter with
  | (none, iter) => some (.done { s with iter })
  | (some kv, iter) => do
    let (heap, root, cur_node) ← s.root.push_pair s.heap s.cur_node kv
    some (.again ⟨iter, heap, root, cur_node, s.length + 1⟩)

/-- The tree and the length. The loop takes at most `turns` turns. -/
def bulk_push (next : I → Option (Option (K × V) × I)) (turns : ℕ) (H : Heap K V) (self : NodeRef)
    (iter : I) (length : ℕ) : Option (Heap K V × NodeRef × ℕ) := do
  let cur_node := (← self.last_leaf_edge H).node
  let s ← runLoop (bulk_push_turn next) turns ⟨iter, H, self, cur_node, length⟩
  let H ← s.root.fix_right_border_of_plentiful s.heap
  some (H, s.root, s.length)

/-- `MergeIter`: if two keys are equal, the key from the left and the value from the right. -/
def merge_iter_next (next : I → Option (Option (K × V) × I)) (cmp : K → K → Ordering)
    (self : MergeIterInner I (K × V)) :
    Option (Option (K × V) × MergeIterInner I (K × V)) := do
  let (nexts, self) ← self.nexts next fun a b => cmp a.1 b.1
  match nexts with
  | (some a, some b) => some (some (a.1, b.2), self)
  | (some a, none) => some (some a, self)
  | (none, some b) => some (some b, self)
  | (none, none) => some (none, self)

def append_from_sorted_iters (next : I → Option (Option (K × V) × I)) (cmp : K → K → Ordering)
    (turns : ℕ) (H : Heap K V) (self : NodeRef) (left right : I) (length : ℕ) :
    Option (Heap K V × NodeRef × ℕ) :=
  bulk_push (merge_iter_next next cmp) turns H self (.new left right) length

namespace BTreeMap

def new : BTreeMap K V := ⟨.empty, none, 0⟩

def is_empty (m : BTreeMap K V) : Bool := m.length == 0

/-- Both maps after the call. -/
def append (cmp : K → K → Ordering) (self other : BTreeMap K V) :
    Option (BTreeMap K V × BTreeMap K V) :=
  if other.is_empty then some (self, other)
  else if self.is_empty then some (other, self)
  else do
    let (H, root) := new_leaf Heap.empty
    let (H, root, length) ← append_from_sorted_iters IntoIter.next cmp
      (self.length + other.length + 1) H root self.into_iter other.into_iter 0
    some (⟨H, some root, length⟩, new)

end BTreeMap

end Model

open NodeRef

variable {K V : Type} {H H' : Heap K V} {ht ht' : ℕ → ℕ} {top x cur : NodeRef} {h p r : ℕ}
  {kv : K × V} {l : List (K × V)}

/-! ## Down to the last leaf -/

theorem last_leaf_edge_border (X : Rooted H ht top) (hb : Border right_side H top x) :
    ∃ q, x.last_leaf_edge H = some ⟨⟨0, q⟩, (H.kvs q).length⟩ ∧ Border right_side H top ⟨0, q⟩ := by
  have hrun : ∃ e, x.last_leaf_edge H = some e ∧
      ∃ q, e = ⟨⟨0, q⟩, (H.kvs q).length⟩ ∧ Border right_side H top ⟨0, q⟩ := by
    unfold last_leaf_edge
    refine runLoop_spec _ (Border right_side H top) height _ (fun y hy => ?_) _ x hb
      (lt_succ_self _)
    obtain ⟨m, q⟩ := y
    have hq := hy.is_below.valid X.forest X.top_valid
    have hlast : last_edge H ⟨m, q⟩ = some ⟨⟨m, q⟩, (H.kvs q).length⟩ := by
      unfold last_edge
      rw [len_spec hq.1, some_bind]
      exact new_edge_spec hq.1 le_rfl
    cases m with
    | zero =>
      rw [if_pos rfl, hlast, some_bind]
      exact ⟨q, rfl, hy⟩
    | succ m =>
      obtain ⟨c, hc, hchild⟩ := hy.exists_child X.forest X.top_valid right_side_le
      rw [if_neg (succ_ne_zero m), hlast, some_bind, descend_spec rfl hc, some_bind]
      exact ⟨hchild, lt_succ_self m⟩
  obtain ⟨e, hrun, q, rfl, he⟩ := hrun
  exact ⟨q, hrun, he⟩

/-! ## Pushing into a node -/

theorem push_with_handle_spec {q : ℕ} (F : Forest H ht) (hq : NodeRef.Valid H ht ⟨0, q⟩)
    (hcap : (H.kvs q).length < CAPACITY) (kv : K × V) :
    ∃ H' k, push_with_handle H ⟨0, q⟩ kv = some (H', k) ∧
      Rewritten H H' ht q (H.kvs q ++ [kv]) := by
  obtain ⟨n, hn, hkn, hen⟩ := get_of_shape hq.1
  set H' := H.set q { n with kvs := n.kvs ++ [kv] } with hH'
  have hshape : H'.shape = update H.shape q (some (H.kvs q ++ [kv], H.edges q)) := by
    rw [hH', shape_set, hkn, hen]
  have hlink : H'.link = H.link := link_set_of_get hn
  have hlen : (H.kvs q ++ [kv]).length = (H.kvs q).length + 1 := length_append
  have hnew : H'.shape q = some (H.kvs q ++ [kv], H.edges q) := by
    rw [hshape, update_self]
  refine ⟨H', ⟨⟨0, q⟩, (H.kvs q).length⟩, ?_, rfl, hlink, hshape,
    F.set_kvs hq.1 rfl hlink hshape (by omega) fun h => absurd hq.2 h⟩
  have hkn' : n.kvs.length = (H.kvs q).length := congrArg length hkn
  have hkv : Handle.new_kv H' ⟨0, q⟩ (H.kvs q).length = some ⟨⟨0, q⟩, (H.kvs q).length⟩ :=
    new_kv_spec hnew (by omega)
  simp only [push_with_handle, hn, hkn', assert_some hcap, some_bind, ← hH', hkv]

/-! ## While pairs are pushed -/

/-- A tree that all of `l` was pushed to, with its last leaf. -/
structure Pushing (H : Heap K V) (ht : ℕ → ℕ) (top cur : NodeRef) (l : List (K × V)) : Prop
    extends Rooted H ht top where
  border : Border right_side H top cur
  leaf : cur.height = 0
  packed : Packed H top
  root_pairs : 0 < top.height → H.kvs top.node ≠ []
  inorder : top.inorder H = l

/-- The lowest node on the border that has room. -/
structure Opened (H : Heap K V) (ht : ℕ → ℕ) (top : NodeRef) (h p : ℕ) : Prop
    extends Rooted H ht top where
  border : Border right_side H top ⟨h + 1, p⟩
  room : (H.kvs p).length < CAPACITY
  packed : Packed H top
  full : ∀ x, Border right_side H top x → x.height ≤ h → (H.kvs x.node).length = CAPACITY
  root_pairs : ⟨h + 1, p⟩ ≠ top → H.kvs top.node ≠ []

variable (P : Pushing H ht top cur l)
include P

/-- There is room in the leaf. -/
theorem Pushing.push_leaf (hcap : (H.kvs cur.node).length < CAPACITY) (kv : K × V) :
    ∃ H' k, cur.push_with_handle H kv = some (H', k) ∧ Pushing H' ht top cur (l ++ [kv]) := by
  obtain ⟨m, q⟩ := cur
  obtain rfl : m = 0 := P.leaf
  have F := P.forest
  have hq := P.border.is_below.valid F P.top_valid
  obtain ⟨H', k, hpush, W⟩ := push_with_handle_spec F hq hcap kv
  have X := W.rooted P.toRooted
  have hborder : ∀ x, Border right_side H top x → Border right_side H' top x := by
    intro x hx
    refine hx.congr_above fun z hz hlt => W.shape_of_ne ?_
    rintro hzq
    have hzv := (hz.is_below.valid F P.top_valid).2
    have hqv : ht q = 0 := hq.2
    rw [hzq, hqv] at hzv
    omega
  obtain ⟨L, hctx⟩ := P.border.right_ctx
  have hctx' := hctx.frame F P.top_valid (W.frame F)
  refine ⟨H', k, hpush, X, hborder _ P.border, rfl, fun x hx hb => ?_, fun hpos => ?_, ?_⟩
  · have hxq : x.node ≠ q := by
      intro hxq
      have hxv := (W.below hx).valid F P.top_valid
      rw [hxv.eq_of_node hq hxq] at hb
      exact hb (hborder _ P.border)
    rw [kvs_congr (W.shape_of_ne hxq)]
    exact P.packed x (W.below hx) fun h => hb (hborder x h)
  · by_cases hrq : top.node = q
    · rw [hrq, W.kvs]
      simp
    · rw [kvs_congr (W.shape_of_ne hrq)]
      exact P.root_pairs hpos
  · have hin := P.inorder
    rw [hctx.inorder F, append_nil] at hin
    have hold : NodeRef.inorder H ⟨0, q⟩ = H.kvs q := rfl
    have hnew : NodeRef.inorder H' ⟨0, q⟩ = H.kvs q ++ [kv] := W.kvs
    rw [hctx'.inorder W.forest, append_nil, hnew, ← hin, hold, append_assoc]

/-- A new root has room. -/
theorem Pushing.raise (N : Raised H H' ht top)
    (hfull : ∀ x, Border right_side H top x → (H.kvs x.node).length = CAPACITY) :
    Opened H' (update ht H.fresh (top.height + 1)) ⟨top.height + 1, H.fresh⟩ top.height
      H.fresh := by
  have X := P.toRooted
  have hsame := (N.grown P.forest).same P.forest P.top_valid
  refine ⟨N.rooted X, .top, ?_, fun x hx hb => ?_, fun x hx hle => ?_, fun h => absurd rfl h⟩
  · rw [N.kvs_new]
    exact succ_pos _
  · rcases (N.below X).mp hx with rfl | hx
    · exact absurd .top hb
    · rw [hsame.kvs hx]
      exact P.packed x hx fun h => hb ((N.border X right_side_le).mpr (.inr h))
  · rcases (N.border X right_side_le).mp hx with rfl | hx
    · exact absurd hle (not_succ_le_self _)
    · rw [hsame.kvs hx.is_below]
      exact hfull x hx

/-- Up to a node with room, or to a new root. -/
theorem Pushing.open_node (hcap : (H.kvs cur.node).length = CAPACITY) : ∃ H' ht' top' h p,
    top.open_node H cur = some (H', top', ⟨h + 1, p⟩) ∧ Opened H' ht' top' h p ∧
      top'.inorder H' = l := by
  have F := P.forest
  suffices hrun : ∃ s, top.open_node H cur = some s ∧ ∃ ht' h p, s.2.2 = ⟨h + 1, p⟩ ∧
      Opened s.1 ht' s.2.1 h p ∧ s.2.1.inorder s.1 = l by
    obtain ⟨⟨H', top', x⟩, hrun, ht', h, p, rfl, hO, hin⟩ := hrun
    exact ⟨H', ht', top', h, p, hrun, hO, hin⟩
  unfold NodeRef.open_node
  refine runLoop_spec _ (fun x => Border right_side H top x ∧
      ∀ y, Border right_side H top y → y.height ≤ x.height → (H.kvs y.node).length = CAPACITY)
    (fun x => H.fresh - x.height) _ (fun x hx => ?_) _ cur ⟨P.border, fun y hy hle => ?_⟩
    (lt_succ_of_le (sub_le _ _))
  · obtain ⟨hb, hfull⟩ := hx
    have hxv := hb.is_below.valid F P.top_valid
    rw [ascend_spec hxv.1, some_bind]
    cases hb with
    | top =>
      obtain ⟨H', hpush, N⟩ := push_internal_level_spec P.toRooted
      rw [P.root, map_none]
      rw [hpush]
      refine ⟨_, _, _, rfl, P.raise N fun y hy => hfull y hy hy.height_le, ?_⟩
      exact (N.inorder P.toRooted).trans P.inorder
    | @child h p c hb he =>
      have hpv := hb.is_below.valid F P.top_valid
      rw [F.link he, map_some]
      dsimp only at hfull ⊢
      rw [len_spec hpv.1, some_bind]
      by_cases hlt : (H.kvs p).length < CAPACITY
      · rw [if_pos hlt]
        exact ⟨ht, h, p, rfl, ⟨P.toRooted, hb, hlt, P.packed, hfull, fun _ =>
          P.root_pairs (lt_of_lt_of_le (succ_pos h) hb.height_le)⟩, P.inorder⟩
      have hlen : (H.kvs p).length = CAPACITY :=
        le_antisymm (F.le_capacity _ _ _ hpv.1) (not_lt.mp hlt)
      have hfresh := (F.lt_fresh _ _ hpv.1).2
      rw [hpv.2] at hfresh
      rw [if_neg hlt]
      refine ⟨⟨hb, fun y hy hle => ?_⟩, ?_⟩
      · rcases eq_or_lt_of_le hle with heq | hlt
        · rw [hy.unique hb heq]
          exact hlen
        · exact hfull y hy (le_of_lt_succ hlt)
      · dsimp only at hfresh ⊢
        omega
  · rw [P.leaf] at hle
    rw [hy.unique P.border ((le_zero.mp hle).trans P.leaf.symm)]
    exact hcap

omit P

/-- Nothing in the tree has changed. -/
theorem Opened.same (O : Opened H ht top h p) (hs : Same H H' top) (X : Rooted H' ht' top) :
    Opened H' ht' top h p := by
  have hkvs : ∀ {x}, Border right_side H top x → H'.kvs x.node = H.kvs x.node :=
    fun hx => hs.kvs hx.is_below
  refine ⟨X, hs.border.mpr O.border, ?_, fun x hx hb => ?_, fun x hx hle => ?_, fun hne => ?_⟩
  · have hp : H'.kvs p = H.kvs p := hkvs O.border
    rw [hp]
    exact O.room
  · rw [hs.below] at hx
    rw [hs.border] at hb
    rw [hs.kvs hx]
    exact O.packed x hx hb
  · rw [hs.border] at hx
    rw [hkvs hx]
    exact O.full x hx hle
  · rw [hkvs .top]
    exact O.root_pairs hne

namespace Pushed

variable (N : Pushed H H' ht h p kv r) (F : Forest H ht) (hp : NodeRef.Valid H ht ⟨h + 1, p⟩)

include N

theorem shape_of_ne {q : ℕ} (hq : q ≠ p) : H'.shape q = H.shape q := by
  rw [N.shape, update_of_ne hq]

theorem shape_last : H'.shape p = some (H.kvs p ++ [kv], H.edges p ++ [r]) := by
  rw [N.shape, update_self]

include F hp

/-- What is below the root after a push of a tree. -/
theorem below (hr : NodeRef.Valid H ht ⟨h, r⟩) (htop : top.Valid H ht) (hx : Below H' top x) :
    Below H top x ∨ Below H ⟨h, r⟩ x := by
  obtain ⟨L, R, hctx⟩ := hx
  induction hctx with
  | top => exact .inl ⟨[], [], .top⟩
  | @child m q j d L R _ he ih =>
    have hhp : ht p = h + 1 := hp.2
    by_cases hq : q = p
    · subst hq
      have hd : d ∈ H.edges q ++ [r] := by
        rw [← edges_of_shape (N.shape_last)]
        exact mem_of_getElem? he
      rcases ih with hb | hb
      · obtain rfl : h = m := succ.inj (hhp.symm.trans (hb.valid F htop).2)
        rcases mem_append.mp hd with hd | hd
        · exact .inl (hb.child hd)
        · obtain rfl := mem_singleton.mp hd
          exact .inr ⟨[], [], .top⟩
      · obtain rfl : h = m := succ.inj (hhp.symm.trans (hb.valid F hr).2)
        exact absurd hb.height_le (not_succ_le_self h)
    · rw [edge_congr (N.shape_of_ne hq)] at he
      exact ih.imp (fun hb => hb.child (mem_of_getElem? he))
        fun hb => hb.child (mem_of_getElem? he)

end Pushed

/-- **A pair and an empty tree are pushed** to the node with room. -/
theorem Opened.push (O : Opened H ht top h p) (Y : Rooted H ht ⟨h, r⟩) (hempty : Empty H ⟨h, r⟩)
    (hne : top ≠ ⟨h, r⟩) (kv : K × V) : ∃ H' q, NodeRef.push H ⟨h + 1, p⟩ kv ⟨h, r⟩ = some H' ∧
      last_leaf_edge H' ⟨h + 1, p⟩ = some ⟨⟨0, q⟩, (H'.kvs q).length⟩ ∧
      Pushing H' ht top ⟨0, q⟩ (top.inorder H ++ [kv]) := by
  have F := O.forest
  have hp := O.border.is_below.valid F O.top_valid
  have hr := Y.top_valid
  have hhp : ht p = h + 1 := hp.2
  have hdisjoint : ∀ {x}, Below H top x → x.node ≠ r := fun hx hxr =>
    hne (Below.root_unique O.toRooted Y hx ⟨[], [], .top⟩ hxr)
  obtain ⟨H', hpush, N⟩ := push_spec F hp hr O.room Y.root kv
  have hkp : H'.kvs p = H.kvs p ++ [kv] := kvs_of_shape (N.shape_last)
  have hep : H'.edges p = H.edges p ++ [r] := edges_of_shape (N.shape_last)
  have X : Rooted H' ht top := by
    refine ⟨N.forest, valid_of_isSome ?_ O.top_valid.2, ?_⟩
    · rw [N.shape]
      exact isSome_update (by rw [O.top_valid.1]; rfl) _ _
    · rw [N.link_none]
      exact ⟨O.root, hdisjoint ⟨[], [], .top⟩⟩
  have habove : ∀ {x}, Border right_side H top x → h + 1 ≤ x.height →
      Border right_side H' top x := by
    intro x hx hle
    refine hx.congr_above fun z hz hlt => N.shape_of_ne ?_
    intro hzp
    have hzv := (hz.is_below.valid F O.top_valid).2
    rw [hzp, hhp] at hzv
    omega
  have hborder := habove O.border le_rfl
  have hright : Border right_side H' top ⟨h, r⟩ := by
    refine hborder.child ?_
    rw [right_side, edge, hep, hkp, length_append, length_singleton, ← F.length_edges hp,
      getElem?_concat_length]
  have hsame : Same H H' ⟨h, r⟩ := by
    intro y hy
    refine N.shape_of_ne ?_
    intro hyp
    have hyv := (hy.valid F hr).2
    have hle := hy.height_le
    rw [hyp, hhp] at hyv
    dsimp only at hle
    omega
  obtain ⟨q, hlast, hq⟩ := last_leaf_edge_border X hborder
  refine ⟨H', q, hpush, hlast, X, hq, rfl, fun x hx hb => ?_, fun _ => ?_, ?_⟩
  · rcases N.below F hp hr O.top_valid hx with hx | hx
    · have hxp : x.node ≠ p := by
        intro hxp
        rw [(hx.valid F O.top_valid).eq_of_node hp hxp] at hb
        exact hb hborder
      rw [kvs_congr (N.shape_of_ne hxp)]
      by_cases hold : Border right_side H top x
      · refine O.full x hold (le_of_lt_succ (Nat.lt_of_not_le fun hle => ?_))
        exact hb (habove hold hle)
      · exact O.packed x hx hold
    · exact absurd (hright.trans (hsame.border.mpr (hempty.border F right_side_le hx))) hb
  · by_cases htop : top.node = p
    · rw [htop, hkp]
      simp
    · rw [kvs_congr (N.shape_of_ne htop)]
      exact O.root_pairs fun heq => htop (congrArg node heq).symm
  · obtain ⟨L, hctx⟩ := O.border.right_ctx
    have hframe : Frame H H' ht p :=
      .of_local F (· = p) rfl (fun _ hq => .inl hq) fun _ _ _ hq => N.shape_of_ne hq
    have hctx' := hctx.frame F O.top_valid hframe
    rw [hctx'.inorder N.forest, hctx.inorder F, append_nil, append_nil, NodeRef.inorder,
      N.inorder, show H.inorder h r = [] from hempty.inorder, append_assoc]
    rfl

/-- **One more pair.** -/
theorem Pushing.push_pair (P : Pushing H ht top cur l) (kv : K × V) : ∃ H' ht' top' cur',
    top.push_pair H cur kv = some (H', top', cur') ∧ Pushing H' ht' top' cur' (l ++ [kv]) := by
  have hcur := P.border.is_below.valid P.forest P.top_valid
  unfold NodeRef.push_pair
  rw [len_spec hcur.1, some_bind]
  by_cases hlt : (H.kvs cur.node).length < CAPACITY
  · obtain ⟨H', k, hpush, P'⟩ := P.push_leaf hlt kv
    rw [if_pos hlt, hpush]
    exact ⟨H', ht, top, cur, rfl, P'⟩
  have hfull : (H.kvs cur.node).length = CAPACITY :=
    le_antisymm (P.forest.le_capacity _ _ _ hcur.1) (not_lt.mp hlt)
  obtain ⟨H1, ht1, top1, h, p, hopen, O, hin⟩ := P.open_node hfull
  obtain ⟨H2, ht2, r, hpillar, hheight, T⟩ := new_pillar_spec O.forest h
  obtain ⟨m, r⟩ := r
  obtain rfl : m = h := hheight
  have hsame := T.toGrown.same O.forest O.top_valid
  have hne : top1 ≠ ⟨m, r⟩ := by
    rintro rfl
    have := T.new _ ⟨[], [], .top⟩
    rw [O.top_valid.1] at this
    cases this
  have X : Rooted H2 ht2 top1 := T.toGrown.rooted O.toRooted T.forest
    ((T.link _ _ O.top_valid.1).trans O.root)
  obtain ⟨H3, q, hpush, hlast, P'⟩ := (O.same hsame X).push T.toRooted T.empty hne kv
  rw [hsame.inorder, hin] at P'
  unfold new_pillar at hpillar
  rw [if_neg hlt, hopen, some_bind]
  dsimp only
  have htree : checkedSub (m + 1) 1 = some m := by simp [checkedSub]
  rw [htree, some_bind, hpillar, some_bind]
  rw [hpush, some_bind, hlast]
  exact ⟨H3, ht2, top1, ⟨0, q⟩, rfl, P'⟩

/-! ## A sequence of pairs -/

section Sequence

variable {I : Type} {R : I → List (K × V) → Prop} {next : I → Option (Option (K × V) × I)}

/-- The loop pushes all pairs. -/
theorem bulk_push_loop (hnext : IsNext R next) {it : I} {todo : List (K × V)} (hit : R it todo)
    (P : Pushing H ht top cur l) {turns : ℕ} (hturns : todo.length < turns) (length : ℕ) :
    ∃ s ht', runLoop (bulk_push_turn next) turns ⟨it, H, top, cur, length⟩ = some s ∧
      Pushing s.heap ht' s.root s.cur_node (l ++ todo) ∧ s.length = length + todo.length := by
  induction todo generalizing it H ht top cur l length turns with
  | nil =>
    obtain ⟨it', hcall, -⟩ := hnext hit
    obtain ⟨turns, rfl⟩ := exists_eq_add_one.mpr hturns
    have hturn : bulk_push_turn next ⟨it, H, top, cur, length⟩
        = some (.done ⟨it', H, top, cur, length⟩) := by
      unfold bulk_push_turn
      rw [hcall]
      rfl
    refine ⟨⟨it', H, top, cur, length⟩, ht, by rw [runLoop, hturn], ?_, rfl⟩
    rw [append_nil]
    exact P
  | cons kv todo ih =>
    obtain ⟨it', hcall, hit'⟩ := hnext hit
    obtain ⟨turns, rfl⟩ := exists_eq_add_one.mpr (zero_lt_of_lt hturns)
    obtain ⟨H', ht', top', cur', hpush, P'⟩ := P.push_pair kv
    have hturn : bulk_push_turn next ⟨it, H, top, cur, length⟩
        = some (.again ⟨it', H', top', cur', length + 1⟩) := by
      unfold bulk_push_turn
      rw [hcall, some_bind]
      dsimp only [head?_cons]
      rw [hpush]
      rfl
    have hturns' : todo.length < turns := lt_of_succ_lt_succ hturns
    obtain ⟨s, ht'', hrun, hP, hlen⟩ := ih hit' P' hturns' (length + 1)
    refine ⟨s, ht'', by rw [runLoop, hturn]; exact hrun, ?_, ?_⟩
    · rw [append_cons]
      exact hP
    · rw [hlen, length_cons]
      omega

/-- **A sequence of pairs is pushed** to an empty tree. -/
theorem bulk_push_spec (hnext : IsNext R next) {it : I} (hit : R it l) {turns : ℕ}
    (hturns : l.length < turns) (X : Rooted H ht top) (h0 : top.height = 0)
    (hnil : H.kvs top.node = []) : ∃ H' ht' root,
      bulk_push next turns H top it 0 = some (H', root, l.length) ∧ Balanced H' ht' root ∧
      root.inorder H' = l := by
  obtain ⟨q, hlast, hq⟩ := last_leaf_edge_border X .top
  obtain rfl : top = ⟨0, q⟩ := Border.unique .top hq h0
  have P : Pushing H ht ⟨0, q⟩ ⟨0, q⟩ [] := by
    refine ⟨X, hq, rfl, fun x hx hb => ?_, fun h => absurd h (lt_irrefl 0), hnil⟩
    rcases hx.cases_child with rfl | ⟨m, -, -, hm, -, -⟩
    · exact absurd hq hb
    · cases hm
  obtain ⟨s, ht', hrun, P', hlen⟩ := bulk_push_loop hnext hit P hturns 0
  obtain ⟨H', hfix, T, R⟩ :=
    fix_right_border_of_plentiful_spec P'.toRooted P'.packed P'.root_pairs
  refine ⟨H', ht', s.root, ?_, T, R.inorder.trans P'.inorder⟩
  unfold bulk_push
  rw [hlast, some_bind]
  dsimp only
  rw [hrun, some_bind, hfix, some_bind, hlen, zero_add]

end Sequence

/-! ## The union of two maps -/

/-- The pair for an entry of two lists together. -/
def joinedPair : Joined (K × V) → K × V
  | .left a => a
  | .right b => b
  | .both a b => (a.1, b.2)

section Merge

variable {I : Type} {R : I → List (K × V) → Prop} {next : I → Option (Option (K × V) × I)}
  {cmp : K → K → Ordering}

/-- The merge of two iterators stands for the pairs of their lists together. -/
theorem merge_iter_next_spec (hnext : IsNext R next) (cmp : K → K → Ordering) :
    IsNext (fun s l => ∃ la lb, Merging R s la lb ∧
        l = (align (fun a b => cmp a.1 b.1) la lb).map joinedPair)
      (merge_iter_next next cmp) := by
  rintro s _ ⟨la, lb, hs, rfl⟩
  obtain ⟨s', la', lb', hnexts, hs', halign⟩ := nexts_spec hnext (fun a b => cmp a.1 b.1) hs
  refine ⟨s', ?_, la', lb', hs', by rw [halign, map_tail]⟩
  unfold merge_iter_next
  rw [hnexts, some_bind, head?_map]
  cases (align (fun a b => cmp a.1 b.1) la lb).head? with
  | none => rfl
  | some e => cases e <;> rfl

end Merge

/-- The union of two ascending lists of pairs: a pair of one list whose key is not in the other, or
the key of the first list with the value of the second. -/
structure RightUnion (cmp : K → K → Ordering) (la lb l : List (K × V)) : Prop where
  ascending : Ascending (fun a b => cmp a b = .lt) l
  mem : ∀ kv, kv ∈ l ↔ (kv ∈ la ∧ ∀ b ∈ lb, cmp kv.1 b.1 ≠ .eq) ∨
    (kv ∈ lb ∧ ∀ a ∈ la, cmp a.1 kv.1 ≠ .eq) ∨
    ∃ a ∈ la, ∃ b ∈ lb, cmp a.1 b.1 = .eq ∧ kv = (a.1, b.2)

section Union

variable {cmp : K → K → Ordering} [Std.TransCmp cmp] {la lb : List (K × V)}

instance trans_fst : Std.TransCmp fun a b : K × V => cmp a.1 b.1 where
  eq_swap {a b} := @Std.OrientedCmp.eq_swap K cmp _ a.1 b.1
  isLE_trans {a b c} h h' := @Std.TransCmp.isLE_trans K cmp _ a.1 b.1 c.1 h h'

/-- Aligning two ascending lists yields their right-biased union. -/
theorem right_union_align (ha : Ascending (fun a b => cmp a b = .lt) la)
    (hb : Ascending (fun a b => cmp a b = .lt) lb) :
    RightUnion cmp la lb ((align (fun a b => cmp a.1 b.1) la lb).map joinedPair) := by
  have hasc_a : Ascends (fun a b : K × V => cmp a.1 b.1) la := ha
  have hasc_b : Ascends (fun a b : K × V => cmp a.1 b.1) lb := hb
  have hof := align_of hasc_a hasc_b
  constructor
  case ascending =>
    have hkeys := align_ascends hasc_a hasc_b
    unfold Ascends at hkeys
    unfold Ascending
    rw [pairwise_map] at hkeys ⊢
    refine hkeys.imp fun {x y} h => ?_
    cases x <;> cases y <;> exact h
  case mem =>
    intro kv
    rw [List.mem_map]
    constructor
    · rintro ⟨e, he, rfl⟩
      have hof := hof e he
      cases e with
      | left a => exact .inl ⟨mem_align_left he rfl, has_false_iff.mp hof⟩
      | right b =>
        refine .inr (.inl ⟨mem_align_right he rfl, fun a ha heq => ?_⟩)
        exact has_false_iff.mp hof a ha (Std.OrientedCmp.eq_symm heq)
      | both a b =>
        exact .inr (.inr ⟨a, mem_align_left he rfl, b, mem_align_right he rfl, hof, rfl⟩)
    rintro (⟨hmem, hnone⟩ | ⟨hmem, hnone⟩ | ⟨a, hmem, b, hmem', heq, rfl⟩)
    · obtain ⟨e, he, hleft⟩ := exists_left (fun a b => cmp a.1 b.1) hmem lb
      have hof := hof e he
      cases e with
      | left a =>
        obtain rfl : a = kv := some.inj hleft
        exact ⟨_, he, rfl⟩
      | right b => cases hleft
      | both a b =>
        obtain rfl : a = kv := some.inj hleft
        exact absurd hof (hnone b (mem_align_right he rfl))
    · obtain ⟨e, he, hright⟩ := exists_right (fun a b => cmp a.1 b.1) la hmem
      have hof := hof e he
      cases e with
      | left a => cases hright
      | right b =>
        obtain rfl : b = kv := some.inj hright
        exact ⟨_, he, rfl⟩
      | both a b =>
        obtain rfl : b = kv := some.inj hright
        exact absurd hof (hnone a (mem_align_left he rfl))
    · obtain ⟨e, he, hleft⟩ := exists_left (fun a b => cmp a.1 b.1) hmem lb
      have hof := hof e he
      cases e with
      | left a' =>
        obtain rfl : a' = a := some.inj hleft
        exact absurd heq (has_false_iff.mp hof b hmem')
      | right b => cases hleft
      | both a' b' =>
        obtain rfl : a' = a := some.inj hleft
        have hb' := mem_align_right he rfl
        have heq' : cmp b'.1 b.1 = .eq :=
          Std.TransCmp.eq_trans (Std.OrientedCmp.eq_symm hof) heq
        obtain rfl := hasc_b.eq_of_eq hb' hmem' heq'
        exact ⟨_, he, rfl⟩

end Union

theorem into_iter_next (m : BTreeMap K V) : IsNext (Unravels m) (IntoIter.next (K := K) (V := V)) :=
  fun _ _ h => h.call .front

/-- An iterator over either of two maps. -/
def UnravelsOne (a b : BTreeMap K V) (it : IntoIter K V) (l : List (K × V)) : Prop :=
  Unravels a it l ∨ Unravels b it l

theorem into_iter_next_one (a b : BTreeMap K V) :
    IsNext (UnravelsOne a b) (IntoIter.next (K := K) (V := V)) := by
  rintro it l (h | h)
  · obtain ⟨it', hcall, h'⟩ := into_iter_next a h
    exact ⟨it', hcall, .inl h'⟩
  · obtain ⟨it', hcall, h'⟩ := into_iter_next b h
    exact ⟨it', hcall, .inr h'⟩

theorem BTreeMap.new_valid (cmp : K → K → Ordering) : (new : BTreeMap K V).Valid cmp :=
  ⟨fun _ h => absurd h nofun, rfl⟩

theorem empty_forest : Forest (empty : Heap K V) fun _ => 0 := by
  refine ⟨fun p i c => ?_, fun p i c h => ?_, fun p ks es h => ?_, fun p ks es h => ?_,
    fun p s h => ?_⟩
  · exact iff_of_false nofun nofun
  · cases h
  · cases h
  · cases h
  · cases h

section Append

variable {cmp : K → K → Ordering} {a b : BTreeMap K V}

theorem BTreeMap.inorder_nil {m : BTreeMap K V} (hm : m.Valid cmp) (h : m.is_empty = true) :
    m.inorder = [] := by
  rw [← length_eq_zero_iff, ← hm.length]
  exact beq_iff_eq.mp h

theorem right_union_nil_right {la : List (K × V)}
    (ha : Ascending (fun a b => cmp a b = .lt) la) : RightUnion cmp la [] la :=
  ⟨ha, fun kv => by simp⟩

theorem right_union_nil_left {lb : List (K × V)}
    (hb : Ascending (fun a b => cmp a b = .lt) lb) : RightUnion cmp [] lb lb :=
  ⟨hb, fun kv => by simp⟩

/-- `append` leaves the union in the first map and nothing in the other. -/
theorem append_spec [Std.TransCmp cmp] (ha : a.Valid cmp) (hb : b.Valid cmp) :
    ∃ a' b', a.append cmp b = some (a', b') ∧ a'.Valid cmp ∧
      RightUnion cmp a.inorder b.inorder a'.inorder ∧ b'.Valid cmp ∧ b'.inorder = [] ∧
      b'.length = 0 := by
  unfold BTreeMap.append
  by_cases hbe : b.is_empty = true
  · have hnil := BTreeMap.inorder_nil hb hbe
    rw [if_pos hbe, hnil]
    exact ⟨a, b, rfl, ha, right_union_nil_right ha.ascending, hb, hnil, beq_iff_eq.mp hbe⟩
  rw [if_neg hbe]
  by_cases hae : a.is_empty = true
  · have hnil := BTreeMap.inorder_nil ha hae
    rw [if_pos hae, hnil]
    exact ⟨b, a, rfl, hb, right_union_nil_left hb.ascending, ha, hnil, beq_iff_eq.mp hae⟩
  rw [if_neg hae]
  obtain ⟨H, hleaf, N⟩ := new_leaf_spec (empty_forest (K := K) (V := V))
  have hshape : H.shape (empty : Heap K V).fresh = some ([], []) := by
    rw [N.shape, update_self]
  have hmerging : Merging (UnravelsOne a b) (.new a.into_iter b.into_iter) a.inorder b.inorder :=
    .none (.inl (BTreeMap.into_iter_unravels ha)) (.inr (BTreeMap.into_iter_unravels hb))
  have hunion := right_union_align ha.ascending hb.ascending
  set l := (align (fun a b => cmp a.1 b.1) a.inorder b.inorder).map joinedPair with hl
  have hturns : l.length < a.length + b.length + 1 := by
    have hle := (length_align (fun a b : K × V => cmp a.1 b.1) a.inorder b.inorder).2
    rw [← ha.length, ← hb.length] at hle
    rw [hl, length_map]
    omega
  obtain ⟨H', ht', top, hpush, T, hin⟩ := bulk_push_spec
    (merge_iter_next_spec (into_iter_next_one a b) cmp) ⟨_, _, hmerging, hl⟩ hturns
    (N.rooted empty_forest) rfl (kvs_of_shape hshape)
  have hasc : (top.inorder H').Pairwise fun a b => cmp a.1 b.1 = .lt := by
    rw [hin]
    exact hunion.ascending
  have I : Invariants cmp H' ht' top := ⟨T, hasc⟩
  obtain ⟨hvalid, hinorder⟩ :=
    BTreeMap.valid_of_root (m := ⟨H', some top, l.length⟩) rfl I hin rfl
  refine ⟨_, _, ?_, hvalid, by rw [hinorder]; exact hunion, BTreeMap.new_valid cmp, rfl, rfl⟩
  rw [hleaf]
  dsimp only
  unfold append_from_sorted_iters
  rw [hpush]
  rfl

end Append

/-- **`append` makes the right-biased union** of any two maps and leaves the other one empty, and
**`bulk_push` makes a tree** of any sequence of pairs. -/
theorem append_bulk_push_spec (cmp : K → K → Ordering) [Std.TransCmp cmp] :
    (∀ a b : BTreeMap K V, a.Valid cmp → b.Valid cmp →
      ∃ a' b', a.append cmp b = some (a', b') ∧ a'.Valid cmp ∧
        RightUnion cmp a.inorder b.inorder a'.inorder ∧ b'.Valid cmp ∧ b'.inorder = [] ∧
        b'.length = 0) ∧
    ∀ (I : Type) (R : I → List (K × V) → Prop) (next : I → Option (Option (K × V) × I)),
      IsNext R next → ∀ it l, R it l → ∀ turns, l.length < turns →
      ∀ (H : Heap K V) ht top, Rooted H ht top → top.height = 0 → H.kvs top.node = [] →
      ∃ H' ht' root, bulk_push next turns H top it 0 = some (H', root, l.length) ∧
        Balanced H' ht' root ∧ root.inorder H' = l :=
  ⟨fun _ _ ha hb => append_spec ha hb,
    fun _ _ _ hnext _ _ hit _ hturns _ _ _ X h0 hnil => bulk_push_spec hnext hit hturns X h0 hnil⟩

/-- A map with two leaves and its copy, and 12 pairs, for which a leaf has no room. -/
theorem append_bulk_push_two_leaves :
    (∃ a' b', (BTreeMap.mk two_leaves (some ⟨1, 0⟩) 11).append compare
        (BTreeMap.mk two_leaves (some ⟨1, 0⟩) 11) = some (a', b') ∧ a'.Valid compare ∧
      RightUnion compare (BTreeMap.mk two_leaves (some ⟨1, 0⟩) 11).inorder
        (BTreeMap.mk two_leaves (some ⟨1, 0⟩) 11).inorder a'.inorder ∧ b'.inorder = []) ∧
    ∃ (H' : Heap ℕ Unit) (ht' : ℕ → ℕ) (root : NodeRef),
      bulk_push (fun l : List (ℕ × Unit) => some (l.head?, l.tail)) 13 (new_leaf empty).1
        ⟨0, 0⟩ ((range 12).map fun k => (k, ())) 0 = some (H', root, 12) ∧
      Balanced H' ht' root ∧ root.inorder H' = (range 12).map fun k => (k, ()) := by
  have hmap : (BTreeMap.mk two_leaves (some ⟨1, 0⟩) 11).Valid compare :=
    ⟨fun _ h => ⟨two_leaves_height, some.inj h ▸ two_leaves_invariants⟩, rfl⟩
  obtain ⟨happend, hpush⟩ := append_bulk_push_spec (V := Unit) (compare (α := ℕ))
  constructor
  · obtain ⟨a', b', hrun, hvalid, hunion, -, hnil, -⟩ := happend _ _ hmap hmap
    exact ⟨a', b', hrun, hvalid, hunion, hnil⟩
  · obtain ⟨H, hleaf, N⟩ := new_leaf_spec (empty_forest (K := ℕ) (V := Unit))
    have hshape : H.shape (empty : Heap ℕ Unit).fresh = some ([], []) := by
      rw [N.shape, update_self]
    rw [hleaf]
    exact hpush _ (fun it l => it = l) (fun l => some (l.head?, l.tail))
      (fun it l h => ⟨it.tail, by rw [h], by rw [h]⟩) _ _ rfl 13 (by decide) H _ ⟨0, 0⟩
      (N.rooted empty_forest) rfl (kvs_of_shape hshape)

end RustStd.BTree
