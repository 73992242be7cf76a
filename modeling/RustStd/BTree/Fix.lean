import RustStd.BTree.Positions

/-!
# Fixing a node and its ancestors

A node below the root may be one pair short. `fix_node_through_parent` merges it with a sibling, so
that its parent may be short, or steals a pair; `fix_node_and_affected_ancestors` goes on to the
root. The pairs in order, the leaves and their places are kept
(`fix_node_and_affected_ancestors_spec`).
-/

namespace RustStd.BTree

open List Nat NodeRef Heap

variable {K V : Type} {H H' H0 : Heap K V} {ht : ℕ → ℕ} {top x cur : NodeRef} {h p i j l r : ℕ}
  {kv : K × V}

open Siblings (context)

theorem NodeRef.valid_of_isSome (hs : (H.shape x.node).isSome) (hx : ht x.node = x.height) :
    x.Valid H ht := by
  obtain ⟨⟨ks, es⟩, hs⟩ := Option.isSome_iff_exists.mp hs
  exact ⟨by rw [kvs_of_shape hs, edges_of_shape hs, hs], hx⟩

/-- The siblings that are considered for balancing a node. -/
theorem choose_parent_kv_spec (F : Forest H ht) (hx : x.Valid H ht)
    (hlink : H.link x.node = some (p, j)) (hp : H.kvs p ≠ []) :
    (∃ i l kv, x.choose_parent_kv H = some (some (.Left (context x.height p i l x.node))) ∧
      j = i + 1 ∧ Siblings H ht x.height p i l x.node kv) ∨
    ∃ r kv, x.choose_parent_kv H = some (some (.Right (context x.height p 0 x.node r))) ∧
      j = 0 ∧ Siblings H ht x.height p 0 x.node r kv := by
  have he := F.edge hlink
  have hps := shape_of_edge he
  have hpv : NodeRef.Valid H ht ⟨x.height + 1, p⟩ := ⟨hps, by rw [F.ht_edge _ _ _ he, hx.2]⟩
  have hj := F.le_kvs_length he
  have hascend : x.ascend H = some (some ⟨⟨x.height + 1, p⟩, j⟩) := by
    rw [ascend_spec hx.1, hlink]
    rfl
  have hleft : Handle.left_kv H ⟨⟨x.height + 1, p⟩, j⟩
      = some (if 0 < j then some ⟨⟨x.height + 1, p⟩, j - 1⟩ else none) := left_kv_spec hps hj
  unfold choose_parent_kv
  rw [hascend, some_bind]
  dsimp only
  rw [hleft, some_bind]
  cases j with
  | zero =>
    right
    have hpos : 0 < (H.kvs p).length := length_pos_iff.mpr hp
    obtain ⟨r, hr⟩ := F.exists_edge hpv (i := 1) hpos
    refine ⟨r, (H.kvs p)[0], ?_, rfl, hpv, he, hr, getElem?_eq_getElem hpos⟩
    have hright : Handle.right_kv H ⟨⟨x.height + 1, p⟩, 0⟩
        = some (some ⟨⟨x.height + 1, p⟩, 0⟩) := by
      rw [right_kv_spec hps]
      exact congrArg some (if_pos hpos)
    have hedge : Handle.right_edge H ⟨⟨x.height + 1, p⟩, 0⟩ = some ⟨⟨x.height + 1, p⟩, 1⟩ :=
      new_edge_spec hps hpos
    rw [if_neg (lt_irrefl 0)]
    rw [hright, some_bind]
    dsimp only
    rw [hedge, some_bind, descend_spec rfl hr]
    rfl
  | succ i =>
    left
    obtain ⟨l, hl⟩ := F.exists_edge hpv (i := i) (le_of_lt hj)
    refine ⟨i, l, (H.kvs p)[i], ?_, rfl, hpv, hl, he, getElem?_eq_getElem hj⟩
    have hedge : Handle.left_edge H ⟨⟨x.height + 1, p⟩, i⟩ = some ⟨⟨x.height + 1, p⟩, i⟩ :=
      new_edge_spec hps (le_of_lt hj)
    rw [if_pos (succ_pos i)]
    dsimp only
    rw [Nat.add_sub_cancel, hedge, some_bind, descend_spec rfl hl]
    rfl

theorem choose_parent_kv_root (hx : x.Valid H ht) (hlink : H.link x.node = none) :
    x.choose_parent_kv H = some none := by
  unfold choose_parent_kv
  rw [ascend_spec hx.1, hlink, Option.bind_eq_bind]
  rfl

theorem can_merge_spec (F : Forest H ht) (S : Siblings H ht h p i l r kv) :
    (context h p i l r).can_merge H
      = some (decide ((H.kvs l).length + 1 + (H.kvs r).length ≤ CAPACITY)) := by
  unfold BalancingContext.can_merge context
  rw [len_spec (S.left_valid F).1, len_spec (S.right_valid F).1]
  rfl

/-! ## Nodes with enough pairs -/

/-- All nodes below the root have enough pairs, except those in `ex`. -/
def Filled (H : Heap K V) (top : NodeRef) (ex : ℕ → Prop) : Prop :=
  ∀ x, Below H top x → x ≠ top → ¬ ex x.node → MIN_LEN ≤ (H.kvs x.node).length

theorem NodeRef.Valid.eq_of_node {y : NodeRef} (hx : x.Valid H ht) (hy : y.Valid H ht)
    (h : x.node = y.node) : x = y := by
  obtain ⟨m, q⟩ := x
  obtain ⟨n, q'⟩ := y
  obtain rfl : q = q' := h
  obtain rfl : m = n := hx.2.symm.trans hy.2
  rfl

namespace Exchange

variable (F : Forest H ht) (S : Siblings H ht h p i l r kv) (E : Exchange H H' ht h p l r)
include F S E

/-- The root is not one of the two children. -/
theorem root_ne (hroot : H.link top.node = none) : top.node ≠ l ∧ top.node ≠ r := by
  refine ⟨?_, ?_⟩
  · rintro rfl
    rw [F.link S.left] at hroot
    exact absurd hroot nofun
  · rintro rfl
    rw [F.link S.right] at hroot
    exact absurd hroot nofun

theorem top_valid (htop : top.Valid H ht) (hroot : H.link top.node = none) : top.Valid H' ht := by
  refine valid_of_isSome ?_ htop.2
  by_cases hp : top.node = p
  · exact E.isSome _ (.inl hp)
  · obtain ⟨hl, hr⟩ := E.root_ne F S hroot
    rw [E.same _ hp hl hr, htop.1]
    rfl

theorem filled {ex ex' : ℕ → Prop} (htop : top.Valid H ht) (hroot : H.link top.node = none)
    (hp : Below H top ⟨h + 1, p⟩) (hfill : Filled H top ex)
    (hex : ∀ q, q ≠ p → q ≠ l → q ≠ r → ex q → ex' q)
    (hnew : ∀ q, q = p ∨ q = l ∨ q = r → (H'.shape q).isSome → q ≠ top.node → ¬ ex' q →
      MIN_LEN ≤ (H'.kvs q).length) : Filled H' top ex' := by
  intro x hx hne hxex
  have hxv := hx.valid E.forest (E.top_valid F S htop hroot)
  by_cases hq : x.node = p ∨ x.node = l ∨ x.node = r
  · refine hnew x.node hq ?_ (fun heq => hne ?_) hxex
    · rw [hxv.1]
      rfl
    · exact hxv.eq_of_node (E.top_valid F S htop hroot) heq
  · simp only [not_or] at hq
    rw [kvs_congr (E.same _ hq.1 hq.2.1 hq.2.2)]
    exact hfill x (E.below F S hp htop hx) hne fun h => hxex (hex _ hq.1 hq.2.1 hq.2.2 h)

end Exchange

/-- A tree of a forest, with its root. -/
structure Rooted (H : Heap K V) (ht : ℕ → ℕ) (top : NodeRef) : Prop where
  forest : Forest H ht
  top_valid : top.Valid H ht
  root : H.link top.node = none

/-- A tree while `cur` may be one pair short. -/
structure Short (H : Heap K V) (ht : ℕ → ℕ) (top cur : NodeRef) : Prop extends Rooted H ht top where
  below : Below H top cur
  filled : Filled H top (· = cur.node)
  short : cur ≠ top → MIN_LEN ≤ (H.kvs cur.node).length + 1
  root_pairs : cur ≠ top → H.kvs top.node ≠ []

/-- A tree whose nodes below the root have enough pairs, and whether its root has pairs. -/
structure Full (H : Heap K V) (ht : ℕ → ℕ) (top : NodeRef) (fixed : Bool) : Prop
    extends Rooted H ht top where
  filled : Filled H top fun _ => False
  root_pairs : fixed = true ↔ H.kvs top.node ≠ []

/-- The pairs of `H0` below `top` are kept in order, and its leaves are where they were. -/
structure Kept (H0 H : Heap K V) (ht : ℕ → ℕ) (top : NodeRef) : Prop where
  fresh : H.fresh = H0.fresh
  leaves : ∀ q, ht q = 0 → H.shape q = H0.shape q
  marked : H.marked leafMark top.height top.node = H0.marked leafMark top.height top.node

theorem Below.height_le {y : NodeRef} (hb : Below H top y) : y.height ≤ top.height := by
  obtain ⟨L, R, hctx⟩ := hb
  induction hctx with
  | top => exact le_rfl
  | child _ _ ih => exact le_of_succ_le ih

theorem Rooted.exchange (X : Rooted H ht top) (S : Siblings H ht h p i l r kv)
    (E : Exchange H H' ht h p l r) : Rooted H' ht top :=
  ⟨E.forest, E.top_valid X.forest S X.top_valid X.root, E.root _ X.root⟩

theorem Kept.exchange (hk : Kept H0 H ht top) (X : Rooted H ht top)
    (S : Siblings H ht h p i l r kv) (E : Exchange H H' ht h p l r) (hpos : 0 < h)
    (hp : Below H top ⟨h + 1, p⟩) : Kept H0 H' ht top := by
  have hhp : ht p = h + 1 := S.parent.2
  have hhl : ht l = h := (S.left_valid X.forest).2
  have hhr : ht r = h := (S.right_valid X.forest).2
  refine ⟨E.fresh.trans hk.fresh, fun q hq => ?_, ?_⟩
  · rw [E.same q ?_ ?_ ?_, hk.leaves q hq]
    · rintro rfl
      omega
    · rintro rfl
      omega
    · rintro rfl
      omega
  · rw [E.marked_above X.forest S (.inl hpos) X.top_valid.2 hp.height_le, hk.marked]

/-- Any node may be taken for one that is short. -/
theorem Full.short (X : Full H ht top true) (hx : Below H top x) : Short H ht top x := by
  refine ⟨X.toRooted, hx, fun y hy hne _ => X.filled y hy hne not_false, fun hne => ?_,
    fun _ => X.root_pairs.mp rfl⟩
  exact le_succ_of_le (X.filled x hx hne not_false)

namespace Short

variable (X : Short H ht top cur)
include X

theorem valid : cur.Valid H ht := X.below.valid X.forest X.top_valid

/-- A node with enough pairs ends the walk. -/
theorem fixed (hlen : MIN_LEN ≤ (H.kvs cur.node).length ∨ cur = top ∧ H.kvs cur.node ≠ []) :
    Full H ht top true := by
  refine ⟨X.toRooted, fun x hx hne _ => ?_, iff_of_true rfl ?_⟩
  · by_cases heq : x.node = cur.node
    · obtain rfl := (hx.valid X.forest X.top_valid).eq_of_node X.valid heq
      rcases hlen with hlen | ⟨rfl, -⟩
      · exact hlen
      · exact absurd rfl hne
    · exact X.filled x hx hne heq
  · by_cases heq : cur = top
    · subst heq
      rcases hlen with hlen | ⟨-, hlen⟩
      · exact ne_nil_of_length_pos (lt_of_lt_of_le (by decide) hlen)
      · exact hlen
    · exact X.root_pairs heq

/-- The parent of a node below the root. -/
theorem parent_below (hlink : H.link cur.node = some (p, j)) : Below H top ⟨cur.height + 1, p⟩ := by
  obtain ⟨L, R, hctx⟩ := X.below
  rcases hctx.eq_or_link X.forest with rfl | ⟨p', j', L', R', hlink', -, hctx', -, -⟩
  · rw [X.root] at hlink
    exact absurd hlink nofun
  · obtain ⟨rfl, rfl⟩ : p' = p ∧ j' = j := by
      rw [hlink] at hlink'
      simpa using hlink'.symm
    exact ⟨_, _, hctx'⟩

/-- The other nodes beside and above `cur`. -/
theorem length_le {y : NodeRef} (hy : Below H top y) (hne : y ≠ top) (hcur : y.node ≠ cur.node) :
    MIN_LEN ≤ (H.kvs y.node).length :=
  X.filled y hy hne hcur

theorem ne_top (hlink : H.link cur.node = some (p, j)) : cur ≠ top := by
  rintro rfl
  rw [X.root] at hlink
  exact absurd hlink nofun

theorem eq_top (hlink : H.link cur.node = none) : cur = top := by
  obtain ⟨L, R, hctx⟩ := X.below
  rcases hctx.eq_or_link X.forest with h | ⟨p, j, -, -, hlink', -⟩
  · exact h
  · rw [hlink] at hlink'
    exact absurd hlink' nofun

/-- The parent has pairs. -/
theorem parent_pairs (hlink : H.link cur.node = some (p, j)) : H.kvs p ≠ [] := by
  by_cases h : (⟨cur.height + 1, p⟩ : NodeRef) = top
  · have := X.root_pairs (X.ne_top hlink)
    rwa [← h] at this
  · have hne : p ≠ cur.node := (X.forest.ne_of_edge (X.forest.edge hlink)).symm
    have hlen := X.length_le (X.parent_below hlink) h hne
    exact ne_nil_of_length_pos (lt_of_lt_of_le (by decide) hlen)

variable (S : Siblings H ht cur.height p i l r kv)
include S

/-- A merge leaves the parent to be fixed. -/
theorem merged (M : Merged H H' ht p i l r kv)
    (hp : Below H top ⟨cur.height + 1, p⟩) (hcur : cur.node = l ∨ cur.node = r) :
    Short H' ht top ⟨cur.height + 1, p⟩ := by
  have F := X.forest
  have E := M.exchange F S
  have hK := X.toRooted.exchange S E
  have hpl := S.parent_ne_left F
  have hpr := S.parent_ne_right F
  have hlr := S.left_ne_right F
  obtain ⟨hrl, hrr⟩ := E.root_ne F S X.root
  have hk_l := kvs_of_shape (M.shape_left F S)
  have hk_p := kvs_of_shape (M.shape_parent F S)
  have hlen_l : ∀ q, q = l ∨ q = r → q ≠ cur.node → MIN_LEN ≤ (H.kvs q).length := by
    rintro q (rfl | rfl) hq
    · exact X.length_le (hp.child (mem_edges.mpr ⟨_, S.left⟩)) (fun h => hrl (h ▸ rfl)) hq
    · exact X.length_le (hp.child (mem_edges.mpr ⟨_, S.right⟩)) (fun h => hrr (h ▸ rfl)) hq
  have hi := S.index_lt
  have hcur_top : cur ≠ top := by
    rintro rfl
    exact hcur.elim hrl hrr
  have hp_cur : p ≠ cur.node := by
    rcases hcur with h | h
    · exact h ▸ hpl
    · exact h ▸ hpr
  refine ⟨hK, ?_, ?_, fun hne => ?_, fun hne => ?_⟩
  · obtain ⟨L, R, hctx⟩ := hp
    exact ⟨L, R, hctx.frame F X.top_valid (E.frame F S)⟩
  · refine E.filled F S X.top_valid X.root hp X.filled (fun q _ hl hr hq => ?_)
      fun q hq hsome hne hex => ?_
    · rcases hcur with h | h
      · exact absurd (hq.trans h) hl
      · exact absurd (hq.trans h) hr
    rcases hq with rfl | rfl | rfl
    · exact absurd rfl hex
    · rw [hk_l, length_append, length_cons]
      rcases hcur with h | h
      · have := hlen_l r (.inr rfl) (h ▸ hlr.symm)
        omega
      · have := hlen_l q (.inl rfl) (h ▸ hlr)
        omega
    · rw [M.shape_right] at hsome
      exact absurd hsome nofun
  · have hlen : MIN_LEN ≤ (H.kvs p).length := X.length_le hp hne hp_cur
    rw [hk_p, length_eraseIdx_of_lt hi]
    omega
  · have htop : top.node ≠ p := fun h =>
      hne (NodeRef.Valid.eq_of_node S.parent X.top_valid h.symm)
    rw [kvs_congr (E.same _ htop hrl hrr)]
    exact X.root_pairs hcur_top

/-- After a steal all nodes have enough pairs. -/
theorem shared {kl kr : List (K × V)} {kv' : K × V} {el er : List ℕ}
    (M : Shared H H' ht p i l r kv kl kv' kr el er) (hp : Below H top ⟨cur.height + 1, p⟩)
    (hcur : cur.node = l ∨ cur.node = r) (hkl : MIN_LEN ≤ kl.length) (hkr : MIN_LEN ≤ kr.length) :
    Full H' ht top true := by
  have F := X.forest
  have E := M.exchange F S
  have hK := X.toRooted.exchange S E
  have hpl := S.parent_ne_left F
  have hpr := S.parent_ne_right F
  obtain ⟨hrl, hrr⟩ := E.root_ne F S X.root
  have hk_l := kvs_of_shape (M.shape_left F S)
  have hk_r := kvs_of_shape M.shape_right
  have hk_p := kvs_of_shape (M.shape_parent F S)
  have hcur_top : cur ≠ top := by
    rintro rfl
    exact hcur.elim hrl hrr
  have hp_cur : p ≠ cur.node := by
    rcases hcur with h | h
    · exact h ▸ hpl
    · exact h ▸ hpr
  refine ⟨hK, ?_, iff_of_true rfl ?_⟩
  · refine E.filled F S X.top_valid X.root hp X.filled (fun q _ hl hr hq => ?_)
      fun q hq hsome hne _ => ?_
    · rcases hcur with h | h
      · exact hl (hq.trans h)
      · exact hr (hq.trans h)
    · rcases hq with rfl | rfl | rfl
      · rw [hk_p, length_set]
        exact X.length_le hp (fun h => hne (h ▸ rfl)) hp_cur
      · rwa [hk_l]
      · rwa [hk_r]
  · by_cases htop : top.node = p
    · rw [htop, hk_p]
      refine ne_nil_of_length_pos ?_
      rw [length_set]
      exact lt_of_le_of_lt (zero_le _) S.index_lt
    · rw [kvs_congr (E.same _ htop hrl hrr)]
      exact X.root_pairs hcur_top

end Short

/-! ## The walk to the root -/

/-- What fixing one node establishes. -/
def FixSpec (H0 : Heap K V) (ht : ℕ → ℕ) (top cur : NodeRef) :
    Heap K V × Except NodeRef (Option NodeRef) → Prop
  | (H', .ok (some parent)) =>
    Kept H0 H' ht top ∧ Short H' ht top parent ∧ parent.height = cur.height + 1
  | (H', .ok none) => Kept H0 H' ht top ∧ Full H' ht top true
  | (H', .error _) => Kept H0 H' ht top ∧ Full H' ht top false

theorem merge_tracking_parent_spec (F : Forest H ht) (S : Siblings H ht h p i l r kv)
    (hcap : (H.kvs l).length + 1 + (H.kvs r).length ≤ CAPACITY) :
    ∃ H', (context h p i l r).merge_tracking_parent H = some (H', ⟨h + 1, p⟩) ∧
      Merged H H' ht p i l r kv := by
  obtain ⟨H', hmerge, M⟩ := do_merge_spec F S hcap
  refine ⟨H', ?_, M⟩
  unfold BalancingContext.merge_tracking_parent
  rw [hmerge]
  rfl

/-- A short node is merged with a sibling or takes a pair from it. -/
theorem fix_node_through_parent_spec (hk : Kept H0 H ht top) (X : Short H ht top cur)
    (hpos : 0 < cur.height) :
    ∃ r, cur.fix_node_through_parent H = some r ∧ FixSpec H0 ht top cur r := by
  have F := X.forest
  have hcur := X.valid
  unfold fix_node_through_parent
  rw [len_spec hcur.1, some_bind]
  by_cases hlen : (H.kvs cur.node).length ≥ MIN_LEN
  · rw [if_pos hlen]
    exact ⟨_, rfl, hk, X.fixed (.inl hlen)⟩
  rw [if_neg hlen]
  rcases hlink : H.link cur.node with _ | ⟨p, j⟩
  · -- the root
    have htop := X.eq_top hlink
    rw [choose_parent_kv_root hcur hlink, some_bind]
    by_cases hlen : (H.kvs cur.node).length > 0
    · rw [if_pos hlen]
      exact ⟨_, rfl, hk, X.fixed (.inr ⟨htop, ne_nil_of_length_pos hlen⟩)⟩
    · rw [if_neg hlen]
      have hnil : H.kvs cur.node = [] := length_eq_zero_iff.mp (by omega)
      refine ⟨_, rfl, hk, X.toRooted, fun x hx hne _ => ?_, ?_⟩
      · refine X.filled x hx hne fun heq => hne ?_
        exact htop ▸ (hx.valid F X.top_valid).eq_of_node hcur heq
      · rw [← htop, hnil]
        exact iff_of_false nofun fun h => h rfl
  have hp := X.parent_below hlink
  have hM : MIN_LEN = 5 := rfl
  have hC : CAPACITY = 11 := rfl
  rcases choose_parent_kv_spec F hcur hlink (X.parent_pairs hlink) with
    ⟨i, l, kv, hchoose, rfl, S⟩ | ⟨r, kv, hchoose, rfl, S⟩
  · rw [hchoose, some_bind]
    dsimp only
    rw [can_merge_spec F S, some_bind]
    by_cases hcap : (H.kvs l).length + 1 + (H.kvs cur.node).length ≤ CAPACITY
    · obtain ⟨H', hmerge, M⟩ := merge_tracking_parent_spec F S hcap
      rw [if_pos (decide_eq_true hcap), hmerge]
      exact ⟨_, rfl, hk.exchange X.toRooted S (M.exchange F S) hpos hp,
        X.merged S M hp (.inr rfl), rfl⟩
    rw [if_neg (by simpa using hcap)]
    have hcount : 0 < MIN_LEN - (H.kvs cur.node).length := by omega
    obtain ⟨H', hsteal, M⟩ := bulk_steal_left_spec F S hcount (by omega) (by omega)
      (getElem?_eq_getElem (by omega))
    rw [hsteal]
    refine ⟨_, rfl, hk.exchange X.toRooted S (M.exchange F S) hpos hp,
      X.shared S M hp (.inr rfl) ?_ ?_⟩
    · rw [length_take]
      omega
    · rw [length_append, length_drop, length_cons]
      omega
  · rw [hchoose, some_bind]
    dsimp only
    rw [can_merge_spec F S, some_bind]
    by_cases hcap : (H.kvs cur.node).length + 1 + (H.kvs r).length ≤ CAPACITY
    · obtain ⟨H', hmerge, M⟩ := merge_tracking_parent_spec F S hcap
      rw [if_pos (decide_eq_true hcap), hmerge]
      exact ⟨_, rfl, hk.exchange X.toRooted S (M.exchange F S) hpos hp,
        X.merged S M hp (.inl rfl), rfl⟩
    rw [if_neg (by simpa using hcap)]
    have hcount : 0 < MIN_LEN - (H.kvs cur.node).length := by omega
    obtain ⟨H', hsteal, M⟩ := bulk_steal_right_spec F S hcount (by omega) (by omega)
      (getElem?_eq_getElem (by omega))
    rw [hsteal]
    refine ⟨_, rfl, hk.exchange X.toRooted S (M.exchange F S) hpos hp,
      X.shared S M hp (.inl rfl) ?_ ?_⟩
    · rw [length_append, length_cons, length_take]
      omega
    · rw [length_drop]
      omega

/-- **Fixing a node and its ancestors** restores the tree, unless its root has become empty. -/
theorem fix_node_and_affected_ancestors_spec (X : Short H ht top cur) (hpos : 0 < cur.height) :
    ∃ H' fixed, cur.fix_node_and_affected_ancestors H = some (H', fixed) ∧
      Kept H H' ht top ∧ Full H' ht top fixed := by
  have hrun : ∃ r, cur.fix_node_and_affected_ancestors H = some r ∧
      Kept H r.1 ht top ∧ Full r.1 ht top r.2 := by
    unfold fix_node_and_affected_ancestors
    refine runLoop_spec _ (fun s => Kept H s.1 ht top ∧ Short s.1 ht top s.2 ∧ 0 < s.2.height)
      (fun s => H.fresh - s.2.height) _ (fun s hs => ?_) _ (H, cur)
      ⟨⟨rfl, fun _ _ => rfl, rfl⟩, X, hpos⟩ (lt_succ_of_le (sub_le _ _))
    obtain ⟨H1, x⟩ := s
    obtain ⟨hk, X1, hpos1⟩ : Kept H H1 ht top ∧ Short H1 ht top x ∧ 0 < x.height := hs
    obtain ⟨r, hr, hspec⟩ := fix_node_through_parent_spec hk X1 hpos1
    dsimp only
    rw [hr, some_bind]
    obtain ⟨H', _ | _ | parent⟩ := r
    · exact hspec
    · exact hspec
    · obtain ⟨hk', X', hh⟩ := hspec
      have hlt := (X1.forest.lt_fresh _ _ X1.valid.1).2
      rw [X1.valid.2, hk.fresh] at hlt
      refine ⟨⟨hk', X', by dsimp only; omega⟩, ?_⟩
      dsimp only
      omega
  obtain ⟨⟨H', fixed⟩, hrun, hfixed⟩ := hrun
  exact ⟨H', fixed, hrun, hfixed⟩

end RustStd.BTree
