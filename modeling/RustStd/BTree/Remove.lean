import RustStd.BTree.Fix
import RustStd.BTree.Push
import Mathlib.Tactic.IntervalCases

/-!
# Removal

`remove_leaf_kv` takes a pair out of a leaf, which may be one pair short then and is merged with a
sibling or gets a pair from it; `remove_internal_kv` removes the pair before instead and puts it in
the place of the one to be removed. Either way the pairs before and after the edge that is returned
are those before and after the pair that was removed (`remove_kv_tracking_spec`).
-/

namespace RustStd.BTree

open List Function Heap Handle Weave BalancingContext

variable {K V : Type} {H H' : Heap K V} {ht : ℕ → ℕ} {top : NodeRef} {h p i j l r q : ℕ}
  {kv kv' : K × V} {pre post : List (K × V)}

open Siblings (context)

/-- A tree whose nodes have enough pairs. -/
structure Balanced (H : Heap K V) (ht : ℕ → ℕ) (top : NodeRef) : Prop
    extends Rooted H ht top where
  filled : Filled H top fun _ => False
  root_pairs : 0 < top.height → H.kvs top.node ≠ []

/-! ## Other pairs in a node -/

/-- A node with other pairs, the same edges and the same place. -/
structure Rewritten (H H' : Heap K V) (ht : ℕ → ℕ) (p : ℕ) (ks : List (K × V)) : Prop where
  fresh : H'.fresh = H.fresh
  link : H'.link = H.link
  shape : H'.shape = update H.shape p (some (ks, H.edges p))
  forest : Forest H' ht

namespace Rewritten

variable {ks : List (K × V)} (W : Rewritten H H' ht p ks)
include W

theorem kvs : H'.kvs p = ks := kvs_of_shape (by rw [W.shape, update_self])

theorem shape_of_ne (hq : q ≠ p) : H'.shape q = H.shape q := by
  rw [W.shape, update_of_ne hq]

theorem edges : H'.edges q = H.edges q := by
  by_cases hq : q = p
  · subst hq
    exact edges_of_shape (by rw [W.shape, update_self])
  · exact edges_congr (W.shape_of_ne hq)

theorem below {x : NodeRef} (hb : Below H' top x) : Below H top x := by
  obtain ⟨L, R, hctx⟩ := hb
  induction hctx with
  | top => exact ⟨[], [], .top⟩
  | child _ he ih =>
    rw [edge, W.edges] at he
    exact ih.child (mem_of_getElem? he)

theorem frame (F : Forest H ht) : Frame H H' ht p :=
  .of_local F (· = p) rfl (fun _ hq => .inl hq) fun _ _ _ hq => W.shape_of_ne hq

theorem rooted (X : Rooted H ht top) : Rooted H' ht top := by
  refine ⟨W.forest, NodeRef.valid_of_isSome ?_ X.top_valid.2, by rw [W.link]; exact X.root⟩
  rw [W.shape]
  exact isSome_update (by rw [X.top_valid.1]; rfl) _ _

theorem children (F : Forest H ht) {n : ℕ} (hp : ht p = n) : H'.children n p = H.children n p := by
  cases n with
  | zero => rfl
  | succ n =>
    rw [Heap.children, Heap.children, W.edges]
    refine map_congr_left fun c hc => ?_
    have hht := F.ht_mem hc
    obtain ⟨j, hj⟩ := mem_edges.mp hc
    refine F.inorder_lower (n := n) (fun q s hq hle => W.shape_of_ne ?_) (F.shape_child hj)
      (by omega) le_rfl
    rintro rfl
    omega

end Rewritten

variable (F : Forest H ht)
include F

/-- `remove`, of a pair of a leaf. -/
theorem remove_spec (hq : NodeRef.Valid H ht ⟨0, q⟩) (hkv : (H.kvs q)[i]? = some kv) :
    ∃ H', Handle.remove H ⟨⟨0, q⟩, i⟩ = some (H', kv, ⟨⟨0, q⟩, i⟩) ∧
      Rewritten H H' ht q ((H.kvs q).eraseIdx i) := by
  obtain ⟨n, hn, hkn, hen⟩ := get_of_shape hq.1
  obtain ⟨hi, -⟩ := List.getElem?_eq_some_iff.mp hkv
  have hlen : ((H.kvs q).eraseIdx i).length = (H.kvs q).length - 1 :=
    length_eraseIdx_of_lt hi
  have hcap : (H.kvs q).length ≤ CAPACITY := F.le_capacity q _ _ hq.1
  have hshape : (H.set q { n with kvs := (H.kvs q).eraseIdx i }).shape
      = update H.shape q (some ((H.kvs q).eraseIdx i, H.edges q)) := by
    rw [shape_set, hen]
  have hlink : (H.set q { n with kvs := (H.kvs q).eraseIdx i }).link = H.link :=
    link_set_of_get hn
  refine ⟨H.set q { n with kvs := (H.kvs q).eraseIdx i }, ?_, rfl, hlink, hshape, ?_⟩
  · have hedge : left_edge (H.set q { n with kvs := (H.kvs q).eraseIdx i }) ⟨⟨0, q⟩, i⟩
        = some ⟨⟨0, q⟩, i⟩ :=
      NodeRef.new_edge_spec (x := ⟨0, q⟩) (by rw [hshape, update_self])
        (by rw [hlen]; exact Nat.le_sub_one_of_lt hi)
    unfold Handle.remove
    rw [hn, some_bind, hkn, slice_remove_spec hkv, some_bind]
    dsimp only
    rw [hedge]
    rfl
  · exact F.set_kvs hq.1 rfl hlink hshape (by omega) fun h => absurd hq.2 h

/-- The position of a pair that was removed. -/
theorem Rewritten.edgeAt_remove (htop : top.Valid H ht)
    (W : Rewritten H H' ht q ((H.kvs q).eraseIdx i)) (hk : KvAt H top ⟨⟨0, q⟩, i⟩ pre kv post) :
    EdgeAt H' top ⟨⟨0, q⟩, i⟩ pre post := by
  obtain ⟨hpair, L, R, hctx, rfl, rfl⟩ := hk
  dsimp only at *
  obtain ⟨hi, -⟩ := List.getElem?_eq_some_iff.mp hpair
  have hctx' := hctx.frame F htop (W.frame F)
  have he := hctx'.edgeAt (i := i) (by
    rw [W.kvs, length_eraseIdx_of_lt hi]
    omega)
  rw [W.kvs, take_eraseIdx _ le_rfl, drop_eraseIdx] at he
  simpa [Heap.children] using he

/-! ## Removal from a leaf -/

theorem EdgeAt.of_pre {post' : List (K × V)} {e : Handle .Edge}
    (he : EdgeAt H top e pre post') (heq : top.inorder H = pre ++ post) :
    EdgeAt H top e pre post := by
  have hpost : post' = post := append_cancel_left ((he.inorder F).symm.trans heq)
  exact hpost ▸ he

theorem EdgeAt.of_post {pre' : List (K × V)} {e : Handle .Edge}
    (he : EdgeAt H top e pre' post) (heq : top.inorder H = pre ++ post) :
    EdgeAt H top e pre post := by
  have hpre : pre' = pre := append_cancel_right ((he.inorder F).symm.trans heq)
  exact hpre ▸ he

/-- The pairs after an edge of a leaf that is not the root. -/
theorem EdgeAt.in_parent (hroot : H.link top.node = none)
    (he : EdgeAt H top ⟨⟨0, q⟩, i⟩ pre post) (hlink : H.link q = some (p, j)) :
    ∃ L R, Ctx H top ⟨1, p⟩ L R ∧
      pre = L ++ (before (H.children 1 p) ((H.kvs p).take j) ++ (H.kvs q).take i) ∧
      post = (H.kvs q).drop i
        ++ (Weave.after ((H.kvs p).drop j) ((H.children 1 p).drop (j + 1)) ++ R) := by
  obtain ⟨L, R, hctx, rfl, rfl⟩ := he.leaf
  rcases hctx.eq_or_link F with rfl | ⟨p', j', L', R', hlink', -, hctx', rfl, rfl⟩
  · rw [hlink] at hroot
    exact absurd hroot nofun
  · obtain ⟨rfl, rfl⟩ : p' = p ∧ j' = j := by
      rw [hlink] at hlink'
      simpa using hlink'.symm
    exact ⟨L', R', hctx', by rw [append_assoc], rfl⟩

omit F

namespace Exchange

variable (F : Forest H ht) (S : Siblings H ht 0 p i l r kv) (E : Exchange H H' ht 0 p l r)
include F S E

theorem inorder_top (hp : Below H top ⟨1, p⟩) (htop : top.Valid H ht) :
    top.inorder H' = top.inorder H :=
  E.inorder_above F S htop.2 hp.height_le

/-- The place of an edge of the right child, where the pairs after it are kept. -/
theorem edgeAt_right (X : Rooted H ht top) (he : EdgeAt H top ⟨⟨0, r⟩, j⟩ pre post) {a c n : ℕ}
    (hc : H'.edge p a = some c) (hn : n ≤ (H'.kvs c).length)
    (hdrop : (H'.kvs c).drop n = (H.kvs r).drop j)
    (hks : (H'.kvs p).drop a = (H.kvs p).drop (i + 1))
    (hes : (H'.edges p).drop (a + 1) = (H.edges p).drop (i + 2)) :
    EdgeAt H' top ⟨⟨0, c⟩, n⟩ pre post := by
  have hin := he.inorder F
  obtain ⟨L, R, hctx, rfl, rfl⟩ := he.in_parent F X.root (F.link S.right)
  have hctx' := hctx.frame F X.top_valid (E.frame F S)
  have he' := (hctx'.child hc).edgeAt hn
  obtain ⟨-, hchildren⟩ := S.children_take_drop F E.same
  rw [hdrop, hks, children_succ, ← map_drop, hes, hchildren] at he'
  refine he'.of_post E.forest ?_
  rw [E.inorder_top F S ⟨_, _, hctx⟩ X.top_valid, hin]

/-- The place of an edge of the left child, where the pairs before it are kept. -/
theorem edgeAt_left (X : Rooted H ht top) (he : EdgeAt H top ⟨⟨0, l⟩, j⟩ pre post)
    (hc : H'.edge p i = some l) (hj : j ≤ (H'.kvs l).length)
    (htake : (H'.kvs l).take j = (H.kvs l).take j) (hks : (H'.kvs p).take i = (H.kvs p).take i)
    (hes : (H'.edges p).take i = (H.edges p).take i) :
    EdgeAt H' top ⟨⟨0, l⟩, j⟩ pre post := by
  have hin := he.inorder F
  obtain ⟨L, R, hctx, rfl, rfl⟩ := he.in_parent F X.root (F.link S.left)
  have hctx' := hctx.frame F X.top_valid (E.frame F S)
  have he' := (hctx'.child hc).edgeAt hj
  obtain ⟨hchildren, -⟩ := S.children_take_drop F E.same
  have hbefore : before (H'.children 1 p) ((H.kvs p).take i)
      = before (H.children 1 p) ((H.kvs p).take i) := by
    refine before_congr (length_take_le _ _) ?_
    rw [children_succ, ← map_take, hes, hchildren]
  rw [htake, hks, hbefore, append_assoc] at he'
  refine he'.of_pre E.forest ?_
  rw [E.inorder_top F S ⟨_, _, hctx⟩ X.top_valid, hin]

end Exchange

/-- What a removal leaves: a position between the pairs that remain, and whether the root is an
internal node without pairs. -/
structure Removed (H : Heap K V) (ht : ℕ → ℕ) (top : NodeRef) (pos : Handle .Edge)
    (pre post : List (K × V)) (emptied : Bool) : Prop extends Rooted H ht top where
  filled : Filled H top fun _ => False
  edge : EdgeAt H top pos pre post
  emptied_iff : emptied = true ↔ 0 < top.height ∧ H.kvs top.node = []

/-- A pair fewer in a leaf. -/
theorem Rewritten.short (T : Balanced H ht top) (hq : Below H top ⟨0, q⟩)
    (W : Rewritten H H' ht q ((H.kvs q).eraseIdx i)) (hi : i < (H.kvs q).length) :
    Short H' ht top ⟨0, q⟩ := by
  have hqv := hq.valid T.forest T.top_valid
  refine ⟨W.rooted T.toRooted, ?_, fun x hx hne hnq => ?_, fun hne => ?_, fun hne => ?_⟩
  · obtain ⟨L, R, hctx⟩ := hq
    exact ⟨L, R, hctx.frame T.forest T.top_valid (W.frame T.forest)⟩
  · rw [kvs_congr (W.shape_of_ne hnq)]
    exact T.filled x (W.below hx) hne not_false
  · have hlen : MIN_LEN ≤ (H.kvs q).length := T.filled _ hq hne not_false
    rw [W.kvs, length_eraseIdx_of_lt hi]
    omega
  · have htop : top.node ≠ q := fun h => hne (hqv.eq_of_node T.top_valid h.symm)
    rw [kvs_congr (W.shape_of_ne htop)]
    refine T.root_pairs (Nat.pos_of_ne_zero fun h0 => htop ?_)
    obtain ⟨L, R, hctx⟩ := hq
    cases hctx with
    | top => rfl
    | child hctx _ =>
      have hle : 0 + 1 ≤ top.height := Below.height_le ⟨_, _, hctx⟩
      omega

/-- The ancestors are fixed, and the position stays what it was. -/
theorem fix_ancestors_spec (X : Short H ht top ⟨1, p⟩) (he : EdgeAt H top ⟨⟨0, q⟩, j⟩ pre post) :
    ∃ H' fixed, NodeRef.fix_node_and_affected_ancestors H ⟨1, p⟩ = some (H', fixed) ∧
      Removed H' ht top ⟨⟨0, q⟩, j⟩ pre post !fixed := by
  obtain ⟨H', fixed, hfix, hk, hfull⟩ := fix_node_and_affected_ancestors_spec X Nat.one_pos
  refine ⟨H', fixed, hfix, hfull.toRooted, hfull.filled, ?_, ?_⟩
  · obtain ⟨L, R, hctx, rfl, rfl⟩ := he.leaf
    have hq : ht q = 0 := (hctx.valid X.forest X.top_valid).2
    have hkvs : H'.kvs q = H.kvs q := kvs_congr (hk.leaves q hq)
    have hctx' := hctx.of_marked X.forest hfull.forest X.top_valid hkvs hk.marked
    have he' := hctx'.edgeAt (i := j) (by rw [hkvs]; exact he.le)
    rwa [hkvs] at he'
  · have hpos : 0 < top.height := X.below.height_le
    rw [Bool.not_eq_true', and_iff_right hpos, ← Bool.not_eq_true, hfull.root_pairs, not_not]

theorem Siblings.len_left (S : Siblings H ht h p i l r kv) (F : Forest H ht) :
    NodeRef.len H (context h p i l r).left_child = some (H.kvs l).length :=
  NodeRef.len_spec (S.left_valid F).1

theorem Siblings.len_right (S : Siblings H ht h p i l r kv) (F : Forest H ht) :
    NodeRef.len H (context h p i l r).right_child = some (H.kvs r).length :=
  NodeRef.len_spec (S.right_valid F).1

theorem merge_tracking_child_edge_spec (F : Forest H ht) (S : Siblings H ht h p i l r kv)
    (hcap : (H.kvs l).length + 1 + (H.kvs r).length ≤ CAPACITY) :
    ∃ H', Merged H H' ht p i l r kv ∧ (∀ j, j ≤ (H.kvs l).length →
        (context h p i l r).merge_tracking_child_edge H (.Left j) = some (H', ⟨⟨h, l⟩, j⟩)) ∧
      ∀ j, j ≤ (H.kvs r).length → (context h p i l r).merge_tracking_child_edge H (.Right j)
          = some (H', ⟨⟨h, l⟩, (H.kvs l).length + 1 + j⟩) := by
  obtain ⟨H', hmerge, M⟩ := do_merge_spec F S hcap
  have hsl := M.shape_left F S
  have hlen : (H.kvs l ++ kv :: H.kvs r).length = (H.kvs l).length + 1 + (H.kvs r).length := by
    rw [length_append, length_cons]
    omega
  have hnew : ∀ n, n ≤ (H.kvs l).length + 1 + (H.kvs r).length →
      new_edge H' ⟨h, l⟩ n = some ⟨⟨h, l⟩, n⟩ :=
    fun n hn => NodeRef.new_edge_spec (x := ⟨h, l⟩) hsl (hlen ▸ hn)
  refine ⟨H', M, fun j hj => ?_, fun j hj => ?_⟩
  · simp [merge_tracking_child_edge, merge_tracking_child, S.len_left F, S.len_right F, some_bind,
      assert_some hj, hmerge, hnew j (by omega)]
  · simp [merge_tracking_child_edge, merge_tracking_child, S.len_left F, S.len_right F, some_bind,
      assert_some hj, hmerge, hnew ((H.kvs l).length + 1 + j) (by omega)]

theorem steal_left_spec (F : Forest H ht) (S : Siblings H ht h p i l r kv)
    (hle : 0 < (H.kvs l).length) (hcap : (H.kvs r).length + 1 ≤ CAPACITY) :
    ∃ H' kv', Shared H H' ht p i l r kv ((H.kvs l).take ((H.kvs l).length - 1)) kv'
        ((H.kvs l).drop ((H.kvs l).length - 1 + 1) ++ kv :: H.kvs r)
        ((H.edges l).take ((H.kvs l).length - 1 + 1))
        ((H.edges l).drop ((H.kvs l).length - 1 + 1) ++ H.edges r) ∧
      ∀ j, j ≤ (H.kvs r).length →
        (context h p i l r).steal_left H j = some (H', ⟨⟨h, r⟩, 1 + j⟩) := by
  have hget : (H.kvs l)[(H.kvs l).length - 1]? = some (H.kvs l)[(H.kvs l).length - 1] :=
    getElem?_eq_getElem (by omega)
  obtain ⟨H', hsteal, M⟩ := bulk_steal_left_spec F S Nat.one_pos hle hcap hget
  refine ⟨H', _, M, fun j hj => ?_⟩
  have hnew : new_edge H' ⟨h, r⟩ (1 + j) = some ⟨⟨h, r⟩, 1 + j⟩ := by
    refine NodeRef.new_edge_spec (x := ⟨h, r⟩) M.shape_right ?_
    rw [length_append, length_cons]
    omega
  unfold steal_left
  rw [hsteal, some_bind]
  exact congrArg (Option.bind · fun e => some (H', e)) hnew

theorem steal_right_spec (F : Forest H ht) (S : Siblings H ht h p i l r kv)
    (hle : 0 < (H.kvs r).length) (hcap : (H.kvs l).length + 1 ≤ CAPACITY) :
    ∃ H' kv', Shared H H' ht p i l r kv (H.kvs l ++ kv :: (H.kvs r).take (1 - 1)) kv'
        ((H.kvs r).drop 1) (H.edges l ++ (H.edges r).take 1) ((H.edges r).drop 1) ∧
      ∀ j, j ≤ (H.kvs l).length → (context h p i l r).steal_right H j = some (H', ⟨⟨h, l⟩, j⟩) := by
  have hget : (H.kvs r)[1 - 1]? = some (H.kvs r)[1 - 1] := getElem?_eq_getElem hle
  obtain ⟨H', hsteal, M⟩ := bulk_steal_right_spec F S Nat.one_pos hle hcap hget
  refine ⟨H', _, M, fun j hj => ?_⟩
  have hnew : new_edge H' ⟨h, l⟩ j = some ⟨⟨h, l⟩, j⟩ := by
    refine NodeRef.new_edge_spec (x := ⟨h, l⟩) (M.shape_left F S) ?_
    rw [length_append]
    omega
  unfold steal_right
  rw [hsteal, some_bind]
  exact congrArg (Option.bind · fun e => some (H', e)) hnew

/-- A leaf that is one pair short, and its left sibling. -/
theorem balance_left_spec (X : Short H ht top ⟨0, r⟩) (S : Siblings H ht 0 p i l r kv)
    (hlen : (H.kvs r).length + 1 = MIN_LEN) (he : EdgeAt H top ⟨⟨0, r⟩, j⟩ pre post) :
    ∃ H' q' j' a, (do
        assert ((← (context 0 p i l r).right_child.len H) + 1 = MIN_LEN)
        if ← (context 0 p i l r).can_merge H then
          (context 0 p i l r).merge_tracking_child_edge H (.Right j)
        else
          assert ((← (context 0 p i l r).left_child.len H) > MIN_LEN)
          (context 0 p i l r).steal_left H j) = some (H', ⟨⟨0, q'⟩, j'⟩) ∧
      H'.link q' = some (p, a) ∧ Short H' ht top ⟨1, p⟩ ∧
      EdgeAt H' top ⟨⟨0, q'⟩, j'⟩ pre post := by
  have F := X.forest
  have hp := X.parent_below (F.link S.right)
  have hj : j ≤ (H.kvs r).length := he.le
  have hM : MIN_LEN = 5 := rfl
  have hC : CAPACITY = 11 := rfl
  rw [S.len_right F, some_bind, assert_some hlen, some_bind, can_merge_spec F S, some_bind]
  by_cases hcap : (H.kvs l).length + 1 + (H.kvs r).length ≤ CAPACITY
  · obtain ⟨H', M, -, hmerge⟩ := merge_tracking_child_edge_spec F S hcap
    have E := M.exchange F S
    have hsp := M.shape_parent F S
    have hsl := M.shape_left F S
    have hc : H'.edge p i = some l := by
      rw [edge, edges_of_shape hsp, getElem?_eraseIdx_of_lt (Nat.lt_succ_self i)]
      exact S.left
    rw [if_pos (decide_eq_true hcap), hmerge j hj]
    refine ⟨H', l, _, i, rfl, E.forest.link hc, X.merged S M hp (.inr rfl),
      E.edgeAt_right F S X.toRooted he hc ?_ ?_ ?_ ?_⟩
    · rw [kvs_of_shape hsl, length_append, length_cons]
      omega
    · rw [kvs_of_shape hsl, Nat.add_assoc, drop_length_add_append, Nat.add_comm 1 j, drop_succ_cons]
    · rw [kvs_of_shape hsp, drop_eraseIdx]
    · rw [edges_of_shape hsp, drop_eraseIdx]
  · obtain ⟨H', kv', M, hsteal⟩ := steal_left_spec F S (by omega) (by omega)
    have E := M.exchange F S
    have hsp := M.shape_parent F S
    have hc : H'.edge p (i + 1) = some r := by
      rw [edge, edges_of_shape hsp]
      exact S.right
    have hkr : H'.kvs r = kv :: H.kvs r := by
      rw [kvs_of_shape M.shape_right, drop_of_length_le (by omega), nil_append]
    rw [if_neg (by simpa using hcap), S.len_left F, some_bind, assert_some (by omega),
      some_bind, hsteal j hj]
    refine ⟨H', r, _, i + 1, rfl, E.forest.link hc, ?_,
      E.edgeAt_right F S X.toRooted he hc ?_ ?_ ?_ ?_⟩
    · have hfull := X.shared S M hp (.inr rfl) ?_ ?_
      · obtain ⟨L, R, hctx⟩ := hp
        exact hfull.short ⟨L, R, hctx.frame F X.top_valid (E.frame F S)⟩
      · rw [length_take]
        omega
      · rw [length_append, length_cons]
        omega
    · rw [hkr, length_cons]
      omega
    · rw [hkr, Nat.add_comm 1 j, drop_succ_cons]
    · rw [kvs_of_shape hsp, drop_set_of_lt (Nat.lt_succ_self i)]
    · rw [edges_of_shape hsp]

/-- A leaf that is one pair short, and its right sibling. -/
theorem balance_right_spec (X : Short H ht top ⟨0, l⟩) (S : Siblings H ht 0 p i l r kv)
    (hlen : (H.kvs l).length + 1 = MIN_LEN) (he : EdgeAt H top ⟨⟨0, l⟩, j⟩ pre post) :
    ∃ H' q' j' a, (do
        assert ((← (context 0 p i l r).left_child.len H) + 1 = MIN_LEN)
        if ← (context 0 p i l r).can_merge H then
          (context 0 p i l r).merge_tracking_child_edge H (.Left j)
        else
          assert ((← (context 0 p i l r).right_child.len H) > MIN_LEN)
          (context 0 p i l r).steal_right H j) = some (H', ⟨⟨0, q'⟩, j'⟩) ∧
      H'.link q' = some (p, a) ∧ Short H' ht top ⟨1, p⟩ ∧
      EdgeAt H' top ⟨⟨0, q'⟩, j'⟩ pre post := by
  have F := X.forest
  have hp := X.parent_below (F.link S.left)
  have hj : j ≤ (H.kvs l).length := he.le
  have hM : MIN_LEN = 5 := rfl
  have hC : CAPACITY = 11 := rfl
  rw [S.len_left F, some_bind, assert_some hlen, some_bind, can_merge_spec F S, some_bind]
  by_cases hcap : (H.kvs l).length + 1 + (H.kvs r).length ≤ CAPACITY
  · obtain ⟨H', M, hmerge, -⟩ := merge_tracking_child_edge_spec F S hcap
    have E := M.exchange F S
    have hsp := M.shape_parent F S
    have hkl := kvs_of_shape (M.shape_left F S)
    have hc : H'.edge p i = some l := by
      rw [edge, edges_of_shape hsp, getElem?_eraseIdx_of_lt (Nat.lt_succ_self i)]
      exact S.left
    rw [if_pos (decide_eq_true hcap), hmerge j hj]
    refine ⟨H', l, _, i, rfl, E.forest.link hc, X.merged S M hp (.inl rfl),
      E.edgeAt_left F S X.toRooted he hc ?_ ?_ ?_ ?_⟩
    · rw [hkl, length_append]
      omega
    · rw [hkl, take_append_of_le_length hj]
    · rw [kvs_of_shape hsp, take_eraseIdx _ le_rfl]
    · rw [edges_of_shape hsp, take_eraseIdx _ (Nat.le_succ i)]
  · obtain ⟨H', kv', M, hsteal⟩ := steal_right_spec F S (by omega) (by omega)
    have E := M.exchange F S
    have hsp := M.shape_parent F S
    have hkl := kvs_of_shape (M.shape_left F S)
    have hc : H'.edge p i = some l := by
      rw [edge, edges_of_shape hsp]
      exact S.left
    rw [if_neg (by simpa using hcap), S.len_right F, some_bind, assert_some (by omega),
      some_bind, hsteal j hj]
    refine ⟨H', l, _, i, rfl, E.forest.link hc, ?_, E.edgeAt_left F S X.toRooted he hc ?_ ?_ ?_ ?_⟩
    · have hfull := X.shared S M hp (.inl rfl) ?_ ?_
      · obtain ⟨L, R, hctx⟩ := hp
        exact hfull.short ⟨L, R, hctx.frame F X.top_valid (E.frame F S)⟩
      · rw [length_append, length_cons]
        omega
      · rw [length_drop]
        omega
    · rw [hkl, length_append]
      omega
    · rw [hkl, take_append_of_le_length hj]
    · rw [kvs_of_shape hsp, take_set_of_le le_rfl]
    · rw [edges_of_shape hsp]

/-- A short leaf gets pairs from a sibling. -/
theorem balance_spec {a : ℕ} (X : Short H ht top ⟨0, q⟩) (hlink : H.link q = some (p, a))
    (hone : (H.kvs q).length + 1 = MIN_LEN) (he : EdgeAt H top ⟨⟨0, q⟩, i⟩ pre post) :
    ∃ H' q' j b, (do
      match ← NodeRef.choose_parent_kv H ⟨0, q⟩ with
      | some (.Left left_parent_kv) =>
        assert ((← left_parent_kv.right_child.len H) + 1 = MIN_LEN)
        if ← left_parent_kv.can_merge H then
          left_parent_kv.merge_tracking_child_edge H (.Right i)
        else
          assert ((← left_parent_kv.left_child.len H) > MIN_LEN)
          left_parent_kv.steal_left H i
      | some (.Right right_parent_kv) =>
        assert ((← right_parent_kv.left_child.len H) + 1 = MIN_LEN)
        if ← right_parent_kv.can_merge H then
          right_parent_kv.merge_tracking_child_edge H (.Left i)
        else
          assert ((← right_parent_kv.right_child.len H) > MIN_LEN)
          right_parent_kv.steal_right H i
      | none => some (H, ← new_edge H ⟨0, q⟩ i)) = some (H', ⟨⟨0, q'⟩, j⟩) ∧
      H'.link q' = some (p, b) ∧ Short H' ht top ⟨1, p⟩ ∧
      EdgeAt H' top ⟨⟨0, q'⟩, j⟩ pre post := by
  rcases choose_parent_kv_spec X.forest (X.below.valid X.forest X.top_valid) hlink
    (X.parent_pairs hlink) with ⟨b, l, kv', hchoose, rfl, S⟩ | ⟨r, kv', hchoose, rfl, S⟩
  · rw [hchoose, some_bind]
    exact balance_left_spec X S hone he
  · rw [hchoose, some_bind]
    exact balance_right_spec X S hone he

/-- The pair leaves its leaf, which is then repaired up to the root. -/
theorem remove_leaf_kv_spec (T : Balanced H ht top) (hk : KvAt H top ⟨⟨0, q⟩, i⟩ pre kv post) :
    ∃ H' q' j emptied, remove_leaf_kv H ⟨⟨0, q⟩, i⟩
        = some (H', kv, ⟨⟨0, q'⟩, j⟩, emptied) ∧
      Removed H' ht top ⟨⟨0, q'⟩, j⟩ pre post emptied := by
  obtain ⟨L, R, hctx, -, -⟩ := hk.ctx
  have hq : Below H top ⟨0, q⟩ := ⟨L, R, hctx⟩
  have hqv := hq.valid T.forest T.top_valid
  obtain ⟨hi, -⟩ := List.getElem?_eq_some_iff.mp hk.pair
  obtain ⟨H1, hremove, W⟩ := remove_spec T.forest hqv hk.pair
  have X := W.short T hq hi
  have he := W.edgeAt_remove T.forest T.top_valid hk
  have hqv1 := X.below.valid X.forest X.top_valid
  have hlen : NodeRef.len H1 ⟨0, q⟩ = some (H1.kvs q).length := NodeRef.len_spec hqv1.1
  unfold remove_leaf_kv
  rw [hremove, some_bind]
  dsimp only
  rw [hlen, some_bind]
  by_cases hlt : (H1.kvs q).length < MIN_LEN
  · rw [if_pos hlt]
    rcases hlink : H1.link q with _ | ⟨p, a⟩
    · -- the root is a leaf
      have htop : ⟨0, q⟩ = top := X.eq_top hlink
      have hedge : new_edge H1 ⟨0, q⟩ i = some ⟨⟨0, q⟩, i⟩ :=
        NodeRef.new_edge_spec (x := ⟨0, q⟩) hqv1.1 he.le
      have hascend : NodeRef.ascend H1 ⟨0, q⟩ = some none := by
        rw [NodeRef.ascend_spec hqv1.1, hlink]
        rfl
      refine ⟨H1, q, i, false, ?_, X.toRooted, fun x hx hne _ => ?_, he, iff_of_false nofun ?_⟩
      · simp [choose_parent_kv_root hqv1 hlink, hedge, hascend, assert_some]
      · refine X.filled x hx hne fun hxq => hne ?_
        exact htop ▸ (hx.valid X.forest X.top_valid).eq_of_node hqv1 hxq
      · rw [← htop]
        exact fun h => Nat.lt_irrefl 0 h.1
    have hshort : MIN_LEN ≤ (H1.kvs q).length + 1 := X.short (X.ne_top hlink)
    have hone : (H1.kvs q).length + 1 = MIN_LEN := by omega
    obtain ⟨H2, q', j, b, hbal, hlink2, X2, he2⟩ := balance_spec X hlink hone he
    obtain ⟨H3, fixed, hfix, hrem⟩ := fix_ancestors_spec X2 he2
    have hascend : NodeRef.ascend H2 ⟨0, q'⟩ = some (some ⟨⟨1, p⟩, b⟩) := by
      rw [NodeRef.ascend_spec (X2.forest.shape_child (X2.forest.edge hlink2)), hlink2]
      rfl
    refine ⟨H3, q', j, !fixed, ?_, hrem⟩
    refine (congrArg (Option.bind · _) hbal).trans ?_
    rw [Option.bind_some]
    rw [assert_some rfl, some_bind, hascend, Option.bind_eq_bind, Option.bind_some]
    dsimp only
    rw [hfix]
    rfl
  · rw [if_neg hlt]
    refine ⟨H1, q, i, false, rfl, X.toRooted, (X.fixed (.inl (Nat.not_lt.mp hlt))).filled, he,
      iff_of_false nofun ?_⟩
    rintro ⟨-, hnil⟩
    exact (X.fixed (.inl (Nat.not_lt.mp hlt))).root_pairs.mp rfl hnil

/-! ## Removal from an internal node -/

variable {k : Handle .KV}

/-- Another pair in the place of one. -/
theorem KvAt.replace (X : Rooted H ht top) (hk : KvAt H top k pre kv post)
    (kv' : K × V) : ∃ H', k.replace_kv H kv' = some (H', kv) ∧
      Rewritten H H' ht k.node.node ((H.kvs k.node.node).set k.idx kv') ∧
      KvAt H' top k pre kv' post := by
  obtain ⟨hpair, L, R, hctx, rfl, rfl⟩ := hk
  have hx := hctx.valid X.forest X.top_valid
  obtain ⟨n, hn, hkn, hen⟩ := get_of_shape hx.1
  obtain ⟨hlt, -⟩ := List.getElem?_eq_some_iff.mp hpair
  have hlink : (H.set k.node.node { n with kvs := n.kvs.set k.idx kv' }).link = H.link :=
    link_set_of_get hn
  have hshape : (H.set k.node.node { n with kvs := n.kvs.set k.idx kv' }).shape
      = update H.shape k.node.node
        (some ((H.kvs k.node.node).set k.idx kv', H.edges k.node.node)) := by
    rw [shape_set, hkn, hen]
  have W : Rewritten H (H.set k.node.node { n with kvs := n.kvs.set k.idx kv' }) ht k.node.node
      ((H.kvs k.node.node).set k.idx kv') := by
    refine ⟨rfl, hlink, hshape, X.forest.set_kvs hx.1 rfl hlink hshape ?_ fun _ => ?_⟩
    · rw [length_set]
      exact X.forest.le_capacity _ _ _ hx.1
    · rw [length_set]
  refine ⟨_, replace_kv_spec hn (hkn ▸ hpair) kv', W, ?_, L, R,
    hctx.frame X.forest X.top_valid (W.frame X.forest), ?_, ?_⟩
  · rw [W.kvs, getElem?_set_self hlt]
  · rw [W.kvs, W.children X.forest hx.2, take_set_of_le le_rfl]
  · rw [W.kvs, W.children X.forest hx.2, drop_set_of_lt (Nat.lt_succ_self _)]

/-- A node with as many pairs as before. -/
theorem Removed.rewritten {pos pos' : Handle .Edge} {pre' post' : List (K × V)} {emptied : Bool}
    {ks : List (K × V)} (X : Removed H ht top pos pre post emptied)
    (W : Rewritten H H' ht p ks) (hlen : ks.length = (H.kvs p).length)
    (he : EdgeAt H' top pos' pre' post') : Removed H' ht top pos' pre' post' emptied := by
  have hlength : ∀ q, (H'.kvs q).length = (H.kvs q).length := by
    intro q
    by_cases hq : q = p
    · rw [hq, W.kvs, hlen]
    · rw [kvs_congr (W.shape_of_ne hq)]
  refine ⟨W.rooted X.toRooted, fun x hx hne _ => ?_, he, ?_⟩
  · rw [hlength]
    exact X.filled x (W.below hx) hne not_false
  · rw [X.emptied_iff, ← length_eq_zero_iff, ← length_eq_zero_iff, hlength]

/-- The pair before it leaves its leaf and replaces the internal one. -/
theorem remove_internal_kv_spec (T : Balanced H ht top) {m : ℕ}
    (hk : KvAt H top ⟨⟨m + 1, p⟩, i⟩ pre kv post) :
    ∃ H' q j emptied, remove_internal_kv H ⟨⟨m + 1, p⟩, i⟩
        = some (H', kv, ⟨⟨0, q⟩, j⟩, emptied) ∧
      Removed H' ht top ⟨⟨0, q⟩, j⟩ pre post emptied := by
  obtain ⟨c, q, hleft, hdescend, hlast, he⟩ := hk.left_leaf_edge T.forest T.top_valid
  obtain ⟨L, R, hctx, -, -⟩ := he.ctx
  have hqv := hctx.valid T.forest T.top_valid
  have hne : ⟨0, q⟩ ≠ top := by
    obtain ⟨L', R', hctx', -, -⟩ := hk.ctx
    have hle : m + 1 ≤ top.height := Below.height_le ⟨L', R', hctx'⟩
    rintro rfl
    exact absurd hle (Nat.not_succ_le_zero m)
  have hlen : MIN_LEN ≤ (H.kvs q).length := T.filled ⟨0, q⟩ ⟨L, R, hctx⟩ hne not_false
  obtain ⟨n, hn⟩ : ∃ n, (H.kvs q).length = n + 1 :=
    Nat.exists_eq_add_one.mpr (Nat.lt_of_lt_of_le (by decide) hlen)
  have hleft_kv : left_kv H ⟨⟨0, q⟩, (H.kvs q).length⟩ = some (some ⟨⟨0, q⟩, n⟩) := by
    rw [left_kv_spec hqv.1 le_rfl, hn]
    rfl
  rw [hn] at he
  obtain ⟨pre', left_kv, rfl, hleaf⟩ := he.left_kv
  obtain ⟨H1, q', j, emptied, hremove, hrem⟩ := remove_leaf_kv_spec T hleaf
  obtain ⟨k, hnext, hinternal⟩ :=
    next_kv_spec hrem.forest hrem.top_valid hrem.root hrem.edge
  obtain ⟨H2, hreplace, W, hk2⟩ := hinternal.replace hrem.toRooted left_kv
  have hroot2 := W.rooted hrem.toRooted
  obtain ⟨q2, j2, hpos, he2⟩ := next_leaf_edge_spec hroot2.forest hroot2.top_valid hk2
  refine ⟨H2, q2, j2, emptied, ?_, hrem.rewritten W (length_set ..) he2⟩
  unfold remove_internal_kv
  rw [hleft, some_bind, hdescend, some_bind, hlast, some_bind, hleft_kv, some_bind]
  dsimp only
  rw [hremove, some_bind]
  rw [hnext, some_bind]
  dsimp only
  rw [hreplace, some_bind]
  rw [hpos]
  rfl

theorem remove_kv_tracking_spec (T : Balanced H ht top)
    (hk : KvAt H top k pre kv post) : ∃ H' q j emptied,
      k.remove_kv_tracking H = some (H', kv, ⟨⟨0, q⟩, j⟩, emptied) ∧
      Removed H' ht top ⟨⟨0, q⟩, j⟩ pre post emptied := by
  obtain ⟨⟨m, p⟩, i⟩ := k
  unfold remove_kv_tracking
  cases m with
  | zero =>
    rw [if_pos rfl]
    exact remove_leaf_kv_spec T hk
  | succ m =>
    rw [if_neg (Nat.succ_ne_zero m)]
    exact remove_internal_kv_spec T hk

/-! ## An emptied root -/

/-- The root, which has one child and no pairs, is gone. -/
structure Popped (H H' : Heap K V) (top root : NodeRef) : Prop where
  height : top.height = root.height + 1
  edges : H.edges top.node = [root.node]
  nil : H.kvs top.node = []
  shape : ∀ q, q ≠ top.node → H'.shape q = H.shape q

/-- What is below the root is where it was. -/
theorem Popped.ctx {root x : NodeRef} {L R : List (K × V)} (P : Popped H H' top root)
    (F : Forest H ht) (htop : top.Valid H ht) (hctx : Ctx H top x L R) :
    (x = top ∧ L = [] ∧ R = []) ∨ Ctx H' root x L R := by
  obtain ⟨n, t⟩ := top
  obtain ⟨m, c⟩ := root
  obtain rfl : n = m + 1 := P.height
  have hedges : H.edges t = [c] := P.edges
  have hnil : H.kvs t = [] := P.nil
  have hht : ht t = m + 1 := htop.2
  induction hctx with
  | top => exact Or.inl ⟨rfl, rfl, rfl⟩
  | @child h p i d L R hctx he ih =>
    right
    rcases ih with ⟨heq, rfl, rfl⟩ | hctx'
    · obtain ⟨rfl, rfl⟩ : h = m ∧ p = t := by
        simpa using heq
      have hd : [c][i]? = some d := by rw [← hedges]; exact he
      obtain ⟨hi, hget⟩ := List.getElem?_eq_some_iff.mp hd
      obtain rfl : i = 0 := Nat.lt_one_iff.mp hi
      obtain rfl : c = d := hget
      have htop' : Ctx H' ⟨h, c⟩ ⟨h, c⟩ [] [] := .top
      simpa [hnil] using htop'
    have hp := hctx.valid F htop
    have hht' : ht p = h + 1 := hp.2
    have hle : h + 1 ≤ m := Below.height_le ⟨_, _, hctx'⟩
    have hpt : p ≠ t := by
      rintro rfl
      omega
    have hshape := P.shape p hpt
    have hchildren : H'.children (h + 1) p = H.children (h + 1) p := by
      rw [Heap.children, Heap.children, edges_congr hshape]
      refine map_congr_left fun q hq => ?_
      obtain ⟨j, hj⟩ := mem_edges.mp hq
      have hhq := F.ht_edge p j q hj
      refine F.inorder_lower (n := h) (fun q' s hq' hle' => P.shape q' ?_) (F.shape_child hj)
        (by omega) le_rfl
      rintro rfl
      omega
    have hgoal := hctx'.child (i := i) (c := d) (by rw [edge_congr hshape]; exact he)
    rwa [hchildren, kvs_congr hshape] at hgoal

/-- Leaf edges are where they were. -/
theorem Popped.edgeAt {root : NodeRef} (P : Popped H H' top root) (F : Forest H ht)
    (htop : top.Valid H ht) {q j : ℕ} (he : EdgeAt H top ⟨⟨0, q⟩, j⟩ pre post) :
    EdgeAt H' root ⟨⟨0, q⟩, j⟩ pre post := by
  obtain ⟨L, R, hctx, rfl, rfl⟩ := he.leaf
  have hq : ht q = 0 := (hctx.valid F htop).2
  have hht : ht top.node = root.height + 1 := htop.2.trans P.height
  have hne : q ≠ top.node := by
    rintro rfl
    omega
  have hkvs : H'.kvs q = H.kvs q := kvs_congr (P.shape q hne)
  rcases P.ctx F htop hctx with ⟨heq, -, -⟩ | hctx'
  · exact absurd (congrArg NodeRef.node heq) hne
  · have he' := hctx'.edgeAt (i := j) (by rw [hkvs]; exact he.le)
    rwa [hkvs] at he'

/-- What `pop_internal_level` does with a root that has one child and no pairs. -/
theorem pop_internal_level_rooted (X : Rooted H ht top) (hpos : 0 < top.height)
    (hnil : H.kvs top.node = []) :
    ∃ H' root, top.pop_internal_level H = some (H', root) ∧ Rooted H' ht root ∧
      root.inorder H' = top.inorder H ∧ Popped H H' top root ∧
      (∀ q, H.link q = none → H'.link q = none) ∧
      ∀ x, Below H' root x → Below H top x ∧ x.node ≠ top.node := by
  have F := X.forest
  obtain ⟨n, t⟩ := top
  obtain ⟨m, rfl⟩ : ∃ m, n = m + 1 := Nat.exists_eq_add_one.mpr hpos
  have htv := X.top_valid
  have hht : ht t = m + 1 := htv.2
  obtain ⟨c, hc⟩ := F.exists_edge htv (Nat.zero_le _)
  have hedges : H.edges t = [c] := by
    have hlen := F.edges_length' hc
    rw [show H.kvs t = [] from hnil] at hlen
    obtain ⟨d, hd⟩ := length_eq_one_iff.mp hlen
    rw [edge, hd] at hc
    rw [hd, Option.some.inj hc]
  obtain ⟨nt, hnt, -, hent⟩ := get_of_shape htv.1
  obtain ⟨nc, hnc, hkc, hec⟩ := get_of_shape (F.shape_child hc)
  have hct : c ≠ t := F.ne_of_edge hc
  have hhc : ht c = m := by
    have := F.ht_edge t 0 c hc
    omega
  set H' := (H.set c { nc with parent := none }).deallocate t with hH'
  have hshape : H'.shape = update H.shape t none := by
    rw [hH', shape_deallocate, shape_set, hkc, hec]
    congr 1
    exact update_eq_self_iff.mpr (F.shape_child hc).symm
  have hlink : H'.link = update (update H.link c none) t none := by
    rw [hH', link_deallocate, link_set]
    rfl
  have hsame : ∀ q, q ≠ t → H'.shape q = H.shape q := by
    intro q hq
    rw [hshape, update_of_ne hq]
  have hnone : H'.edges t = [] := by
    unfold edges
    rw [hshape, update_self]
    rfl
  have F' : Forest H' ht := by
    refine F.regroup (· = t) rfl hsame ?_ ?_ ?_ (fun d _ hd => ?_) ?_
    · rintro q rfl j d hd
      rw [edge, hnone] at hd
      cases hd
    · rintro q d rfl hd
      rw [hnone] at hd
      exact absurd hd not_mem_nil
    · rintro q d rfl hd
      obtain rfl : d = c := by simpa [hedges] using hd
      right
      rw [hlink, update_of_ne hct, update_self]
    · have hdc : d ≠ c := by
        rintro rfl
        exact hd t rfl (mem_edges.mpr ⟨0, hc⟩)
      rw [hlink, update_apply, update_of_ne hdc]
      split_ifs with hdt
      · rw [hdt]
        exact X.root.symm
      · rfl
    · rintro q ks es rfl hq
      rw [hshape, update_self] at hq
      cases hq
  have hbelow : ∀ x, Below H' ⟨m, c⟩ x → Below H ⟨m + 1, t⟩ x ∧ x.height ≤ m := by
    rintro x ⟨L, R, hctx⟩
    induction hctx with
    | top => exact ⟨Below.child ⟨[], [], .top⟩ (mem_edges.mpr ⟨0, hc⟩), le_rfl⟩
    | @child h q j d _ _ _ he ih =>
      have hq : q ≠ t := by
        rintro rfl
        rw [edge, hnone] at he
        cases he
      rw [edge_congr (hsame q hq)] at he
      exact ⟨ih.1.child (mem_edges.mpr ⟨j, he⟩), Nat.le_of_succ_le ih.2⟩
  refine ⟨H', ⟨m, c⟩, ?_, ⟨F', ?_, ?_⟩, ?_, ⟨rfl, hedges, hnil, hsame⟩, fun q hq => ?_,
    fun x hx => ?_⟩
  · have hedge : nt.edges[0]? = some c := by
      rw [hent]
      exact hc
    have hassert : (⟨m + 1, t⟩ : NodeRef).height > 0 := Nat.succ_pos m
    simp only [NodeRef.pop_internal_level, NodeRef.clear_parent_link, assert_some hassert, hnt,
      hedge, hnc, some_bind, Nat.add_sub_cancel, ← hH']
  · exact NodeRef.valid_of_isSome (by rw [hsame c hct, F.shape_child hc]; rfl) hhc
  · rw [hlink, update_of_ne hct, update_self]
  · rw [NodeRef.inorder, NodeRef.inorder, inorder, show H.kvs t = [] from hnil, hedges,
      weave_no_entries]
    refine F.inorder_lower (n := m) (fun q s hq hle => hsame q ?_) (F.shape_child hc) hhc le_rfl
    rintro rfl
    omega
  · rw [hlink, update_apply, update_apply]
    split_ifs
    · rfl
    · rfl
    · exact hq
  · obtain ⟨hb, hle⟩ := hbelow x hx
    refine ⟨hb, fun hxt => ?_⟩
    have hxv := (hb.valid F htv).2
    rw [show x.node = t from hxt] at hxv
    omega

/-- The tree below a root that is gone has enough pairs in its root, too. -/
theorem pop_internal_level_spec (X : Rooted H ht top) (hfill : Filled H top fun _ => False)
    (hpos : 0 < top.height) (hnil : H.kvs top.node = []) :
    ∃ H' root, top.pop_internal_level H = some (H', root) ∧ Balanced H' ht root ∧
      root.inorder H' = top.inorder H ∧ Popped H H' top root := by
  obtain ⟨H', root, hpop, X', hin, P, -, hbelow⟩ := pop_internal_level_rooted X hpos hnil
  have hkvs : ∀ x, Below H' root x → MIN_LEN ≤ (H'.kvs x.node).length := by
    intro x hx
    obtain ⟨hb, hne⟩ := hbelow x hx
    rw [kvs_congr (P.shape _ hne)]
    exact hfill x hb (fun hx => hne (hx ▸ rfl)) not_false
  refine ⟨H', root, hpop, ⟨X', fun x hx _ _ => hkvs x hx, fun _ => ?_⟩, hin, P⟩
  exact ne_nil_of_length_pos
    (Nat.lt_of_lt_of_le (by decide) (hkvs root ⟨[], [], .top⟩))

/-! ## The map -/

/-- The invariants of a `BTreeMap` with a root. -/
structure Invariants (cmp : K → K → Ordering) (H : Heap K V) (ht : ℕ → ℕ) (top : NodeRef) : Prop
    extends Balanced H ht top where
  sorted : (top.inorder H).Pairwise fun a b => cmp a.1 b.1 = .lt

/-- Every pair of a tree has a position. -/
theorem KvAt.exists (F : Forest H ht) (hb : Below H top k.node)
    (hkv : (H.kvs k.node.node)[k.idx]? = some kv) :
    ∃ pre post, KvAt H top k pre kv post ∧ top.inorder H = pre ++ kv :: post := by
  obtain ⟨L, R, hctx⟩ := hb
  have hk : KvAt H top k _ kv _ := ⟨hkv, L, R, hctx, rfl, rfl⟩
  exact ⟨_, _, hk, hk.inorder F⟩

/-- **Removal of any pair of a map.** The pairs before and after the edge that is returned are those
before and after the pair that was removed, and the map is whole again, once an emptied root is
popped. -/
theorem remove_kv_tracking_map {cmp : K → K → Ordering} {root : NodeRef}
    (I : Invariants cmp H ht root) {k : Handle .KV} (hb : Below H root k.node)
    (hkv : (H.kvs k.node.node)[k.idx]? = some kv) :
    ∃ pre post H' pos emptied, KvAt H root k pre kv post ∧ root.inorder H = pre ++ kv :: post ∧
      k.remove_kv_tracking H = some (H', kv, pos, emptied) ∧
      root.inorder H' = pre ++ post ∧ pos.node.height = 0 ∧ EdgeAt H' root pos pre post ∧
      (emptied = true ↔ 0 < root.height ∧ H'.kvs root.node = []) ∧
      (emptied = false → Invariants cmp H' ht root) ∧
      (emptied = true → ∃ H'' root', root.pop_internal_level H' = some (H'', root') ∧
        root'.inorder H'' = pre ++ post ∧ Invariants cmp H'' ht root') := by
  obtain ⟨pre, post, hk, hin⟩ := KvAt.exists I.forest hb hkv
  obtain ⟨H', q, j, emptied, hremove, hrem⟩ := remove_kv_tracking_spec I.toBalanced hk
  have hin' := hrem.edge.inorder hrem.forest
  have hsorted : (pre ++ post).Pairwise fun a b => cmp a.1 b.1 = .lt := by
    have h := I.sorted
    rw [hin] at h
    exact h.sublist ((sublist_cons_self kv post).append_left pre)
  refine ⟨pre, post, H', ⟨⟨0, q⟩, j⟩, emptied, hk, hin, hremove, hin', rfl, hrem.edge,
    hrem.emptied_iff, fun he => ?_, fun he => ?_⟩
  · refine ⟨⟨hrem.toRooted, hrem.filled, fun hpos hnil => ?_⟩, hin' ▸ hsorted⟩
    have := hrem.emptied_iff.mpr ⟨hpos, hnil⟩
    rw [he] at this
    exact absurd this nofun
  · obtain ⟨hpos, hnil⟩ := hrem.emptied_iff.mp he
    obtain ⟨H'', root', hpop, hbal, hpop_in, -⟩ :=
      pop_internal_level_spec hrem.toRooted hrem.filled hpos hnil
    refine ⟨H'', root', hpop, hpop_in.trans hin', hbal, ?_⟩
    rw [hpop_in, hin']
    exact hsorted

/-! ### A root above two leaves -/

/-- A root with one pair, and two leaves that are as short as they may be. -/
def two_leaves : Heap ℕ Unit where
  get
    | 0 => some ⟨none, 0, [(6, ())], [1, 2]⟩
    | 1 => some ⟨some 0, 0, [(1, ()), (2, ()), (3, ()), (4, ()), (5, ())], []⟩
    | 2 => some ⟨some 0, 1, [(7, ()), (8, ()), (9, ()), (10, ()), (11, ())], []⟩
    | _ => none
  fresh := 3

def two_leaves_height : ℕ → ℕ
  | 0 => 1
  | _ => 0

theorem two_leaves_shape {p : ℕ} {s} (h : two_leaves.shape p = some s) : p < 3 := by
  rcases p with _ | _ | _ | p
  · decide
  · decide
  · decide
  · simp [shape, two_leaves] at h

theorem two_leaves_forest : Forest two_leaves two_leaves_height := by
  refine ⟨fun p i c => ?_, fun p i c h => ?_, fun p ks es h => ?_, fun p ks es h => ?_,
    fun p s h => ?_⟩
  · rcases p with _ | _ | _ | p <;> rcases i with _ | _ | i <;> rcases c with _ | _ | _ | c <;>
      simp [edge, edges, shape, link, two_leaves]
  · rcases p with _ | _ | _ | p <;> rcases i with _ | _ | i <;>
      simp [edge, edges, shape, two_leaves] at h <;> subst h <;> rfl
  · rcases p with _ | _ | _ | p <;> simp [shape, two_leaves] at h <;>
      obtain ⟨rfl, rfl⟩ := h <;> rfl
  · rcases p with _ | _ | _ | p <;> simp [shape, two_leaves] at h <;>
      obtain ⟨rfl, rfl⟩ := h <;> decide
  · have hp := two_leaves_shape h
    interval_cases p <;> exact ⟨by decide, by decide⟩

theorem two_leaves_invariants : Invariants compare two_leaves two_leaves_height ⟨1, 0⟩ := by
  refine ⟨⟨⟨two_leaves_forest, ⟨rfl, rfl⟩, rfl⟩, fun x hx hne _ => ?_, fun _ => ?_⟩, ?_⟩
  · have hxv := hx.valid two_leaves_forest ⟨rfl, rfl⟩
    obtain ⟨m, q⟩ := x
    have hq := two_leaves_shape hxv.1
    have hm : two_leaves_height q = m := hxv.2
    dsimp only at hq ⊢
    interval_cases q
    · exact absurd (by rw [← hm]; rfl) hne
    · decide
    · decide
  · decide
  · decide

/-- The pair of the root is removed, and the root is left without pairs. -/
theorem remove_kv_tracking_map_two_leaves : ∃ H' pos emptied,
    remove_kv_tracking two_leaves ⟨⟨1, 0⟩, 0⟩ = some (H', (6, ()), pos, emptied) ∧
      pos.node.height = 0 ∧
      (emptied = true → ∃ H'' root, NodeRef.pop_internal_level H' ⟨1, 0⟩ = some (H'', root) ∧
        Invariants compare H'' two_leaves_height root) := by
  obtain ⟨pre, post, H', pos, emptied, -, -, hremove, -, hleaf, -, -, -, hpop⟩ :=
    @remove_kv_tracking_map _ _ _ _ (6, ()) _ _ two_leaves_invariants ⟨⟨1, 0⟩, 0⟩
      ⟨[], [], .top⟩ rfl
  refine ⟨H', pos, emptied, hremove, hleaf, fun he => ?_⟩
  obtain ⟨H'', root, hpop, -, hinv⟩ := hpop he
  exact ⟨H'', root, hpop, hinv⟩

end RustStd.BTree
