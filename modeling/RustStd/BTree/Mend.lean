import RustStd.BTree.Border

/-!
# Mending a border

`fix_right_border_of_plentiful` of `fix.rs` repairs a tree that was built along its right border:
from the root down, the node of the border takes pairs from its sibling, which is full before. At
each turn all nodes have enough pairs except those of the border further down (`Mending`).
-/

namespace RustStd.BTree

open List Nat Heap

section Model

variable {K V : Type} (H : Heap K V)

namespace NodeRef

def last_kv (self : NodeRef) : Option (Handle .KV) := do
  let len ← self.len H
  assert (len > 0)
  Handle.new_kv H self (len - 1)

end NodeRef

namespace Handle

def consider_for_balancing (self : Handle .KV) : Option BalancingContext := do
  let left_child ← (← self.left_edge H).descend H
  let right_child ← (← self.right_edge H).descend H
  some ⟨self, left_child, right_child⟩

end Handle

namespace NodeRef

def fix_right_border_of_plentiful (self : NodeRef) : Option (Heap K V) :=
  runLoop (fun s : Heap K V × NodeRef => do
    let (H, cur_node) := s
    if cur_node.height = 0 then some (.done H)
    else do
      let last_kv ← (← cur_node.last_kv H).consider_for_balancing H
      assert ((← last_kv.left_child.len H) ≥ MIN_LEN * 2)
      let right_child_len ← last_kv.right_child.len H
      if right_child_len < MIN_LEN then do
        let H ← last_kv.bulk_steal_left H (MIN_LEN - right_child_len)
        some (.again (H, last_kv.right_child))
      else some (.again (H, last_kv.right_child))) (self.height + 1) (H, self)

end NodeRef

end Model

open NodeRef

variable {K V : Type} {H H' H'' : Heap K V} {ht : ℕ → ℕ} {top root x y : NodeRef} {h p i l r : ℕ}
  {kv : K × V} {side : ℕ → ℕ}

open Siblings (context)

/-! ## Trees of another shape -/

/-- The tree below `top` has become the tree below `root`, with its pairs in order; all other nodes
are as they were. -/
structure Reshaped (H H' : Heap K V) (top root : NodeRef) : Prop where
  inorder : root.inorder H' = top.inorder H
  below : ∀ x, Below H' root x → Below H top x
  outside : ∀ q, (∀ x, Below H top x → x.node ≠ q) → H'.shape q = H.shape q
  link : ∀ q, H.link q = none → H'.link q = none

namespace Reshaped

theorem refl (H : Heap K V) (top : NodeRef) : Reshaped H H top top :=
  ⟨rfl, fun _ hx => hx, fun _ _ => rfl, fun _ hq => hq⟩

theorem trans {root' : NodeRef} (R : Reshaped H H' top root) (R' : Reshaped H' H'' root root') :
    Reshaped H H'' top root' := by
  refine ⟨R'.inorder.trans R.inorder, fun x hx => R.below x (R'.below x hx), fun q hq => ?_,
    fun q hq => R'.link q (R.link q hq)⟩
  rw [R'.outside q fun x hx => hq x (R.below x hx), R.outside q hq]

end Reshaped

theorem Exchange.refl (F : Forest H ht) (S : Siblings H ht h p i l r kv) :
    Exchange H H ht h p l r := by
  refine ⟨rfl, F, fun _ _ _ _ => rfl, ?_, fun _ hq => hq, fun q c hq hc => ⟨q, hq, hc⟩,
    fun _ _ => rfl⟩
  rintro q (rfl | rfl)
  · rw [S.parent.1]
    rfl
  · rw [(S.left_valid F).1]
    rfl

theorem Exchange.reshaped (E : Exchange H H' ht h p l r) (X : Rooted H ht top)
    (S : Siblings H ht h p i l r kv) (hp : Below H top ⟨h + 1, p⟩) : Reshaped H H' top top := by
  have hl : Below H top ⟨h, l⟩ := hp.child (mem_edges.mpr ⟨_, S.left⟩)
  have hr : Below H top ⟨h, r⟩ := hp.child (mem_edges.mpr ⟨_, S.right⟩)
  refine ⟨E.inorder_above X.forest S X.top_valid.2 hp.height_le,
    fun x hx => E.below X.forest S hp X.top_valid hx, fun q hq => E.same q ?_ ?_ ?_, E.root⟩
  · exact fun hqp => hq _ hp hqp.symm
  · exact fun hql => hq _ hl hql.symm
  · exact fun hqr => hq _ hr hqr.symm

/-! ## One step down -/

/-- All nodes have enough pairs, except those of the border below `cur`. -/
structure Mending (side : ℕ → ℕ) (H : Heap K V) (ht : ℕ → ℕ) (top cur : NodeRef) : Prop
    extends Rooted H ht top where
  border : Border side H top cur
  filled : ∀ x, Below H top x → x ≠ top → (Border side H cur x → x = cur) →
    MIN_LEN ≤ (H.kvs x.node).length
  pairs : H.kvs cur.node ≠ []

theorem Mending.valid {cur : NodeRef} (M : Mending side H ht top cur) : cur.Valid H ht :=
  M.border.is_below.valid M.forest M.top_valid

/-- At a leaf all nodes have enough pairs. -/
theorem Mending.all_filled {cur : NodeRef} (M : Mending side H ht top cur) (h0 : cur.height = 0) :
    Filled H top fun _ => False := by
  intro x hx hne _
  refine M.filled x hx hne fun hb => hb.unique .top ?_
  exact le_antisymm hb.height_le (h0 ▸ zero_le _)

/-- Below the old node of the border and the new one the border goes on as before. -/
theorem Exchange.border {c0 c : ℕ} (F : Forest H ht) (S : Siblings H ht h p i l r kv)
    (E : Exchange H H' ht h p l r) (hc0 : H.edge p (side (H.kvs p).length) = some c0)
    (hgrand : H'.edge c (side (H'.kvs c).length) = H.edge c0 (side (H.kvs c0).length))
    (hb : Border side H ⟨h + 1, p⟩ x) (hlt : x.height < h) : Border side H' ⟨h, c⟩ x := by
  have hhp : ht p = h + 1 := S.parent.2
  have hhl : ht l = h := (S.left_valid F).2
  have hhr : ht r = h := (S.right_valid F).2
  have hchild : Border side H ⟨h + 1, p⟩ ⟨h, c0⟩ := .child .top hc0
  have hb0 := hchild.through hb hlt.le
  obtain ⟨m, rfl⟩ : ∃ m, h = m + 1 := ⟨h - 1, by lia⟩
  obtain ⟨d, hd⟩ : ∃ d, H.edge c0 (side (H.kvs c0).length) = some d := by
    rcases hb0.eq_or_child with heq | ⟨m', d, hm, hd, -⟩
    · rw [heq] at hlt
      exact absurd hlt (lt_irrefl _)
    · exact ⟨d, hd⟩
  have hgrandchild : Border side H ⟨m + 1, c0⟩ ⟨m, d⟩ := .child .top hd
  have hd' : Border side H' ⟨m + 1, c⟩ ⟨m, d⟩ := .child .top (hgrand.trans hd)
  have hsame : Same H H' ⟨m, d⟩ := by
    intro y hy
    have hyv := ((hchild.trans hgrandchild).is_below.trans hy).valid F S.parent
    have hle := hy.height_le
    rw [← hyv.2] at hle
    dsimp only at hle
    refine E.same _ ?_ ?_ ?_
    · rintro rfl
      lia
    · rintro rfl
      lia
    · rintro rfl
      lia
  exact hd'.trans (hsame.border.mpr (hgrandchild.through hb0 (le_of_lt_succ hlt)))

/-- **The next node of the border**, after an exchange that gave the three nodes enough pairs. The
border goes on below it as it went on below the old node of the border. -/
theorem Mending.next {c0 c : ℕ} (M : Mending side H ht top ⟨h + 1, p⟩)
    (S : Siblings H ht h p i l r kv) (E : Exchange H H' ht h p l r)
    (hc0 : H.edge p (side (H.kvs p).length) = some c0) (hold : c0 = l ∨ c0 = r)
    (hc : H'.edge p (side (H'.kvs p).length) = some c)
    (hgrand : H'.edge c (side (H'.kvs c).length) = H.edge c0 (side (H.kvs c0).length))
    (hp : ⟨h + 1, p⟩ ≠ top → MIN_LEN ≤ (H'.kvs p).length)
    (hl : MIN_LEN ≤ (H'.kvs l).length) (hr : (H'.shape r).isSome → MIN_LEN ≤ (H'.kvs r).length)
    (hpairs : H'.kvs c ≠ []) :
    Mending side H' ht top ⟨h, c⟩ ∧ Reshaped H H' top top := by
  have F := M.forest
  have hhp : ht p = h + 1 := S.parent.2
  have hhl : ht l = h := (S.left_valid F).2
  have hhr : ht r = h := (S.right_valid F).2
  have hpb := M.border.is_below
  have X' := M.toRooted.exchange S E
  have R := E.reshaped M.toRooted S hpb
  have hsame : ∀ q, ht q ≠ h + 1 → ht q ≠ h → H'.shape q = H.shape q := by
    intro q hq hq'
    refine E.same q ?_ ?_ ?_
    · rintro rfl
      exact hq hhp
    · rintro rfl
      exact hq' hhl
    · rintro rfl
      exact hq' hhr
  have hborder : Border side H' top ⟨h + 1, p⟩ := by
    refine M.border.congr_above fun z hz hlt => ?_
    have hhz := (hz.is_below.valid F M.top_valid).2
    dsimp only at hlt
    exact hsame _ (by lia) (by lia)
  refine ⟨⟨X', hborder.child hc, fun x hx hne hexempt => ?_, hpairs⟩, R⟩
  have hxb := R.below x hx
  have hxv := hxb.valid F M.top_valid
  by_cases hxp : x.node = p
  · rw [hxp]
    refine hp fun heq => hne ?_
    rw [← heq]
    exact hxv.eq_of_node S.parent hxp
  by_cases hxl : x.node = l
  · rwa [hxl]
  by_cases hxr : x.node = r
  · rw [hxr]
    refine hr ?_
    rw [← hxr, (hx.valid X'.forest X'.top_valid).1]
    rfl
  rw [kvs_congr (E.same _ hxp hxl hxr)]
  refine M.filled x hxb hne fun hb => ?_
  exfalso
  have hle : x.height ≤ h := by
    rcases eq_or_lt_of_le hb.height_le with heq | hlt
    · exact absurd (congrArg node (hb.unique .top heq)) hxp
    · exact le_of_lt_succ hlt
  rcases eq_or_lt_of_le hle with heq | hlt
  · have hchild : Border side H ⟨h + 1, p⟩ ⟨h, c0⟩ := .child .top hc0
    have hxc : x.node = c0 := congrArg node (hb.unique hchild heq)
    rcases hold with hc0 | hc0
    · exact hxl (hxc.trans hc0)
    · exact hxr (hxc.trans hc0)
  · have hx_eq := hexempt (E.border F S hc0 hgrand hb hlt)
    rw [hx_eq] at hlt
    exact lt_irrefl _ hlt

/-! ## Siblings at a border -/

theorem consider_for_balancing_spec (F : Forest H ht) (hp : NodeRef.Valid H ht ⟨h + 1, p⟩)
    (hi : i < (H.kvs p).length) : ∃ l r kv, Siblings H ht h p i l r kv ∧
      (Handle.mk (T := .KV) ⟨h + 1, p⟩ i).consider_for_balancing H = some (context h p i l r) := by
  obtain ⟨l, hl⟩ := F.exists_edge hp (le_of_lt hi)
  obtain ⟨r, hr⟩ := F.exists_edge hp (i := i + 1) hi
  refine ⟨l, r, (H.kvs p)[i], ⟨hp, hl, hr, getElem?_eq_getElem hi⟩, ?_⟩
  have hleft : Handle.left_edge H ⟨⟨h + 1, p⟩, i⟩ = some ⟨⟨h + 1, p⟩, i⟩ :=
    new_edge_spec hp.1 (le_of_lt hi)
  have hright : Handle.right_edge H ⟨⟨h + 1, p⟩, i⟩ = some ⟨⟨h + 1, p⟩, i + 1⟩ :=
    new_edge_spec hp.1 hi
  unfold Handle.consider_for_balancing
  rw [hleft, some_bind, descend_spec rfl hl, some_bind, hright, some_bind, descend_spec rfl hr]
  rfl

theorem last_kv_spec (hx : x.Valid H ht) (hne : H.kvs x.node ≠ []) :
    x.last_kv H = some ⟨x, (H.kvs x.node).length - 1⟩ := by
  have hpos : 0 < (H.kvs x.node).length := length_pos_iff.mpr hne
  unfold last_kv
  rw [len_spec hx.1, some_bind, assert_some hpos, some_bind, new_kv_spec hx.1 (sub_lt hpos one_pos)]

theorem Forest.edge_last (F : Forest H ht) (hx : x.Valid H ht) :
    H.edge x.node (right_side (H.kvs x.node).length) = (H.edges x.node).getLast? := by
  have hlen := F.edges_length _ _ _ hx.1
  rw [Heap.edge, right_side, getLast?_eq_getElem?]
  split_ifs at hlen
  · rw [length_eq_zero_iff.mp hlen]
    rfl
  · rw [hlen, Nat.add_sub_cancel]

/-- A node with more children before those it got goes on as the border they are from. -/
theorem edge_last_append {es : List ℕ} {c c0 : ℕ} (F : Forest H ht) (F' : Forest H' ht)
    (hc0 : NodeRef.Valid H ht ⟨h, c0⟩) (hc : NodeRef.Valid H' ht ⟨h, c⟩)
    (hes : H'.edges c = es ++ H.edges c0) :
    H'.edge c (right_side (H'.kvs c).length) = H.edge c0 (right_side (H.kvs c0).length) := by
  rw [F.edge_last hc0, F'.edge_last hc]
  cases h with
  | zero => rw [F.leaf_edges hc0, F'.leaf_edges hc]
  | succ m =>
    obtain ⟨d, hd⟩ := F.exists_edge hc0 (zero_le _)
    rw [hes, getLast?_append_of_ne_nil _ (ne_nil_of_mem (mem_of_getElem? hd))]

section Shared

variable {kl kr : List (K × V)} {kv' : K × V} {el er es : List ℕ}

/-- The right child after a steal from the left one. -/
theorem Shared.next_right (M : Mending right_side H ht top ⟨h + 1, p⟩)
    (S : Siblings H ht h p i l r kv) (hi : (H.kvs p).length = i + 1)
    (E : Shared H H' ht p i l r kv kl kv' kr el er) (her : er = es ++ H.edges r)
    (hp : ⟨h + 1, p⟩ ≠ top → MIN_LEN ≤ (H.kvs p).length) (hkl : MIN_LEN ≤ kl.length)
    (hkr : MIN_LEN ≤ kr.length) :
    Mending right_side H' ht top ⟨h, r⟩ ∧ Reshaped H H' top top := by
  have F := M.forest
  have hlen : (H'.kvs p).length = i + 1 := by
    rw [kvs_of_shape (E.shape_parent F S), length_set, hi]
  have hk_r := kvs_of_shape E.shape_right
  have hvr : NodeRef.Valid H' ht ⟨h, r⟩ :=
    valid_of_isSome (by rw [E.shape_right]; rfl) (S.right_valid F).2
  have hr : H.edge p (right_side (H.kvs p).length) = some r := by
    rw [right_side, hi]
    exact S.right
  refine M.next S (E.exchange F S) hr (.inr rfl) ?_ ?_ (fun hne => ?_) ?_ (fun _ => ?_) ?_
  · rw [right_side, hlen, Heap.edge, edges_of_shape (E.shape_parent F S)]
    exact S.right
  · exact edge_last_append F E.forest (S.right_valid F) hvr
      ((edges_of_shape E.shape_right).trans her)
  · rw [hlen, ← hi]
    exact hp hne
  · rwa [kvs_of_shape (E.shape_left F S)]
  · rwa [hk_r]
  · rw [hk_r]
    exact ne_nil_of_length_pos (lt_of_lt_of_le (by decide) hkr)

end Shared

/-- A sibling beside the border has enough pairs. -/
theorem Mending.sibling {c d : ℕ} (M : Mending side H ht top ⟨h + 1, p⟩)
    (hc : H.edge p (side (H.kvs p).length) = some c) (hd : d ∈ H.edges p) (hne : d ≠ c) :
    MIN_LEN ≤ (H.kvs d).length := by
  refine M.filled ⟨h, d⟩ (M.border.is_below.child hd) ?_ fun hb => ?_
  · rintro rfl
    obtain ⟨j, hj⟩ := mem_edges.mp hd
    have := M.root
    rw [M.forest.link hj] at this
    cases this
  · exact absurd (congrArg node (hb.unique (.child .top hc) rfl)) hne

/-- The next node of the border has enough pairs already. -/
theorem Mending.descend {c : ℕ} (M : Mending side H ht top ⟨h + 1, p⟩)
    (S : Siblings H ht h p i l r kv) (hc : H.edge p (side (H.kvs p).length) = some c)
    (hold : c = l ∨ c = r) (hp : ⟨h + 1, p⟩ ≠ top → MIN_LEN ≤ (H.kvs p).length)
    (hlen : MIN_LEN ≤ (H.kvs c).length) :
    Mending side H ht top ⟨h, c⟩ ∧ Reshaped H H top top := by
  have hall : ∀ d, d ∈ H.edges p → MIN_LEN ≤ (H.kvs d).length := by
    intro d hd
    by_cases hdc : d = c
    · rwa [hdc]
    · exact M.sibling hc hd hdc
  exact M.next S (.refl M.forest S) hc hold hc rfl hp
    (hall l (mem_edges.mpr ⟨_, S.left⟩)) (fun _ => hall r (mem_edges.mpr ⟨_, S.right⟩))
    (ne_nil_of_length_pos (lt_of_lt_of_le (by decide) hlen))

theorem right_side_le (n : ℕ) : right_side n ≤ n := le_rfl

/-! ## A plentiful border -/

/-- All nodes beside the border are full. -/
def Packed (H : Heap K V) (top : NodeRef) : Prop :=
  ∀ x, Below H top x → ¬ Border right_side H top x → (H.kvs x.node).length = CAPACITY

/-- A tree that is being mended at `cur`, with full nodes beside the border below. -/
structure Stocking (H : Heap K V) (ht : ℕ → ℕ) (top cur : NodeRef) : Prop
    extends Mending right_side H ht top cur where
  packed : Packed H cur
  root_pairs : H.kvs top.node ≠ []

namespace Stocking

variable {kl kr : List (K × V)} {kv' : K × V} {el er es : List ℕ}

variable (T : Stocking H ht top ⟨h + 1, p⟩)
include T

theorem descend (S : Siblings H ht h p i l r kv)
    (hi : (H.kvs p).length = i + 1) (hp : ⟨h + 1, p⟩ ≠ top → MIN_LEN ≤ (H.kvs p).length)
    (hlen : MIN_LEN ≤ (H.kvs r).length) :
    Stocking H ht top ⟨h, r⟩ ∧ Reshaped H H top top := by
  have hr : H.edge p (right_side (H.kvs p).length) = some r := by
    rw [right_side, hi]
    exact S.right
  have hchild : Border right_side H ⟨h + 1, p⟩ ⟨h, r⟩ := .child .top hr
  obtain ⟨M, R⟩ := T.toMending.descend S hr (.inr rfl) hp hlen
  refine ⟨⟨M, fun x hx hb => ?_, T.root_pairs⟩, R⟩
  exact T.packed x (hchild.is_below.trans hx) fun h => hb (hchild.through h hx.height_le)

theorem shared (S : Siblings H ht h p i l r kv)
    (hi : (H.kvs p).length = i + 1) (E : Shared H H' ht p i l r kv kl kv' kr el er)
    (her : er = es ++ H.edges r) (hp : ⟨h + 1, p⟩ ≠ top → MIN_LEN ≤ (H.kvs p).length)
    (hkl : MIN_LEN ≤ kl.length) (hkr : MIN_LEN ≤ kr.length) :
    Stocking H' ht top ⟨h, r⟩ ∧ Reshaped H H' top top := by
  have F := T.forest
  have X := E.exchange F S
  obtain ⟨M, R⟩ := E.next_right T.toMending S hi her hp hkl hkr
  have hr : H.edge p (right_side (H.kvs p).length) = some r := by
    rw [right_side, hi]
    exact S.right
  have hgrand := edge_last_append F E.forest (S.right_valid F) M.valid
    ((edges_of_shape E.shape_right).trans her)
  have hpr : Below H' ⟨h + 1, p⟩ ⟨h, r⟩ := by
    refine Below.child ⟨[], [], .top⟩ (mem_edges.mpr ⟨i + 1, ?_⟩)
    rw [Heap.edge, edges_of_shape (E.shape_parent F S)]
    exact S.right
  refine ⟨⟨M, fun x hx hb => ?_, ?_⟩, R⟩
  · have hlt : x.height < h := by
      rcases hx.cases_child with rfl | ⟨m, j, c, hm, -, hc⟩
      · exact absurd .top hb
      · have := hc.height_le
        dsimp only at hm this
        lia
    have hxb := X.below F S ⟨[], [], .top⟩ S.parent (hpr.trans hx)
    have hne : H'.shape x.node = H.shape x.node := by
      have hxv := (hxb.valid F S.parent).2
      have hhp : ht p = h + 1 := S.parent.2
      have hhl : ht l = h := (S.left_valid F).2
      have hhr : ht r = h := (S.right_valid F).2
      refine X.same _ ?_ ?_ ?_
      · rintro rfl
        lia
      · rintro rfl
        lia
      · rintro rfl
        lia
    rw [kvs_congr hne]
    exact T.packed x hxb fun h => hb (X.border F S hr hgrand h hlt)
  · obtain ⟨hrl, hrr⟩ := X.root_ne F S T.root
    by_cases htop : top.node = p
    · rw [htop, kvs_of_shape (E.shape_parent F S)]
      refine ne_nil_of_length_pos ?_
      rw [length_set, hi]
      exact succ_pos i
    · rw [kvs_congr (X.same _ htop hrl hrr)]
      exact T.root_pairs

end Stocking

/-- What a turn of the loop does. -/
theorem Stocking.turn (T : Stocking H ht top ⟨h + 1, p⟩)
    (hp : ⟨h + 1, p⟩ ≠ top → MIN_LEN ≤ (H.kvs p).length) : ∃ i l r kv H',
    last_kv H ⟨h + 1, p⟩ = some ⟨⟨h + 1, p⟩, i⟩ ∧
      (Handle.mk (T := .KV) ⟨h + 1, p⟩ i).consider_for_balancing H = some (context h p i l r) ∧
      Siblings H ht h p i l r kv ∧ (H.kvs l).length ≥ MIN_LEN * 2 ∧
      (if (H.kvs r).length < MIN_LEN then
        (context h p i l r).bulk_steal_left H (MIN_LEN - (H.kvs r).length) else some H) = some H' ∧
      Stocking H' ht top ⟨h, r⟩ ∧ Reshaped H H' top top ∧ MIN_LEN ≤ (H'.kvs r).length := by
  have F := T.forest
  obtain ⟨i, hi⟩ := exists_eq_add_one.mpr (length_pos_iff.mpr T.pairs)
  dsimp only at hi
  obtain ⟨l, r, kv, S, hconsider⟩ := consider_for_balancing_spec F T.valid (i := i) (by lia)
  have hlast := last_kv_spec T.valid T.pairs
  rw [hi, Nat.add_sub_cancel] at hlast
  have hr : H.edge p (right_side (H.kvs p).length) = some r := by
    rw [right_side, hi]
    exact S.right
  have hl : (H.kvs l).length = CAPACITY := by
    have hb : Below H ⟨h + 1, p⟩ ⟨h, l⟩ :=
      Below.child ⟨[], [], .top⟩ (mem_edges.mpr ⟨i, S.left⟩)
    refine T.packed ⟨h, l⟩ hb fun hb => ?_
    exact S.left_ne_right F (congrArg node (hb.unique (.child .top hr) rfl))
  have hM : MIN_LEN = 5 := rfl
  have hC : CAPACITY = 11 := rfl
  by_cases hlen : (H.kvs r).length < MIN_LEN
  · have hcount : 0 < MIN_LEN - (H.kvs r).length := Nat.sub_pos_of_lt hlen
    obtain ⟨H', hsteal, E⟩ := bulk_steal_left_spec F S hcount (by lia) (by lia)
      (getElem?_eq_getElem (by lia))
    have hkl : MIN_LEN ≤ ((H.kvs l).take ((H.kvs l).length
        - (MIN_LEN - (H.kvs r).length))).length := by
      rw [length_take]
      lia
    have hkr : MIN_LEN ≤ ((H.kvs l).drop ((H.kvs l).length
        - (MIN_LEN - (H.kvs r).length) + 1) ++ kv :: H.kvs r).length := by
      rw [length_append, length_drop, length_cons]
      lia
    obtain ⟨T', R⟩ := T.shared S hi E rfl hp hkl hkr
    refine ⟨i, l, r, kv, H', hlast, hconsider, S, by lia, ?_, T', R, ?_⟩
    · rw [if_pos hlen, hsteal]
    · rwa [kvs_of_shape E.shape_right]
  · obtain ⟨T', R⟩ := T.descend S hi hp (by lia)
    exact ⟨i, l, r, kv, H, hlast, hconsider, S, by lia, if_neg hlen, T', R, by lia⟩

/-- Each short node of the right border takes pairs from its left sibling. -/
theorem fix_right_border_of_plentiful_spec (X : Rooted H ht top) (hpacked : Packed H top)
    (hpairs : 0 < top.height → H.kvs top.node ≠ []) : ∃ H',
    top.fix_right_border_of_plentiful H = some H' ∧ Balanced H' ht top ∧ Reshaped H H' top top := by
  unfold fix_right_border_of_plentiful
  rcases Nat.eq_zero_or_pos top.height with h0 | hpos
  · refine ⟨H, ?_, ⟨X, fun x hx hne _ => ?_, fun h => ?_⟩, .refl H top⟩
    · rw [runLoop]
      dsimp only
      rw [if_pos h0]
    · rcases hx.cases_child with heq | ⟨m, -, -, hm, -, -⟩
      · exact absurd heq hne
      · rw [h0] at hm
        cases hm
    · rw [h0] at h
      exact absurd h (lt_irrefl 0)
  refine runLoop_spec _ (fun s => Stocking s.1 ht top s.2 ∧
      (s.2 ≠ top → MIN_LEN ≤ (s.1.kvs s.2.node).length) ∧ Reshaped H s.1 top top)
    (fun s => s.2.height) _ (fun s hs => ?_) _ (H, top)
    ⟨⟨⟨X, .top, fun x hx hne hb => ?_, hpairs hpos⟩, hpacked, hpairs hpos⟩, fun h => absurd rfl h,
      .refl H top⟩ (lt_succ_self _)
  · obtain ⟨H1, ⟨m, p⟩⟩ := s
    obtain ⟨T, hlen, R⟩ := hs
    dsimp only at T hlen R ⊢
    cases m with
    | zero => exact ⟨⟨T.toRooted, T.all_filled rfl, fun _ => T.root_pairs⟩, R⟩
    | succ h =>
      obtain ⟨i, l, r, kv, H', hlast, hconsider, S, hl, hsteal, T', R', hlen'⟩ := T.turn hlen
      rw [if_neg (succ_ne_zero h), hlast, some_bind, hconsider, some_bind]
      dsimp only [context]
      rw [len_spec (S.left_valid T.forest).1, some_bind, assert_some hl, some_bind,
        len_spec (S.right_valid T.forest).1, some_bind]
      by_cases hlt : (H1.kvs r).length < MIN_LEN
      · rw [if_pos hlt] at hsteal ⊢
        change TurnSpec _ _ _ _ (((context h p i l r).bulk_steal_left H1 _).bind _)
        rw [hsteal]
        exact ⟨⟨T', fun _ => hlen', R.trans R'⟩, lt_succ_self h⟩
      · rw [if_neg hlt] at hsteal ⊢
        obtain rfl := Option.some.inj hsteal
        exact ⟨⟨T', fun _ => hlen', R.trans R'⟩, lt_succ_self h⟩
  · have hfull := hpacked x hx fun h => hne (hb h)
    rw [hfull]
    decide

end RustStd.BTree
