import RustStd.BTree.Steal

/-!
# Leaves in order

`marked` is the list of the pairs below a node in order, with the marks of every leaf before the
leaf's own pairs. Without marks it is `inorder`; with the leaf's number as its mark, the list tells
where each leaf is. A merge or a steal keeps the list of the parent, unless the children are leaves
with marks (`Exchange`), and with it that of every node above. A leaf that keeps its pairs while
the list of the root is kept stays where it is (`Ctx.of_marked`).
-/

namespace RustStd.BTree

open Weave List Nat

variable {K V : Type} {H H' : Heap K V} {ht : ℕ → ℕ} {h p i l r : ℕ} {kv : K × V}

/-- The pairs of a list with marks. -/
def pairs (ms : List (ℕ ⊕ K × V)) : List (K × V) := ms.filterMap Sum.getRight?

/-- The marks of a list. -/
def marks (ms : List (ℕ ⊕ K × V)) : List ℕ := ms.filterMap Sum.getLeft?

@[simp] theorem pairs_append (a b : List (ℕ ⊕ K × V)) : pairs (a ++ b) = pairs a ++ pairs b :=
  filterMap_append ..

@[simp] theorem pairs_map_inr (ks : List (K × V)) : pairs (ks.map .inr) = ks := by
  unfold pairs
  rw [filterMap_map]
  exact filterMap_some

@[simp] theorem pairs_map_inl (qs : List ℕ) : pairs (qs.map .inl : List (ℕ ⊕ K × V)) = [] := by
  simp [pairs, filterMap_map, Function.comp_def]

variable {q : ℕ}

theorem mem_marks {ms : List (ℕ ⊕ K × V)} : q ∈ marks ms ↔ .inl q ∈ ms := by
  simp [marks, mem_filterMap, Sum.getLeft?_eq_some_iff]

theorem marks_cons_inl (q : ℕ) (ms : List (ℕ ⊕ K × V)) : marks (.inl q :: ms) = q :: marks ms := rfl

@[simp] theorem marks_append (a b : List (ℕ ⊕ K × V)) : marks (a ++ b) = marks a ++ marks b :=
  filterMap_append ..

@[simp] theorem marks_map_inl (qs : List ℕ) : marks (qs.map .inl : List (ℕ ⊕ K × V)) = qs := by
  unfold marks
  rw [filterMap_map]
  exact filterMap_some

@[simp] theorem marks_map_inr (ks : List (K × V)) : marks (ks.map .inr) = [] := by
  simp [marks, filterMap_map, Function.comp_def]

namespace Heap

/-- The pairs below a node of a given height in order, with the marks of each leaf before its
pairs. -/
def marked (H : Heap K V) (mark : ℕ → List ℕ) : ℕ → ℕ → List (ℕ ⊕ K × V)
  | 0, p => (mark p).map .inl ++ (H.kvs p).map .inr
  | h + 1, p => weave ((H.edges p).map (H.marked mark h)) ((H.kvs p).map .inr)

variable {mark : ℕ → List ℕ}

@[simp] theorem pairs_marked (H : Heap K V) (h p : ℕ) :
    pairs (H.marked mark h p) = H.inorder h p := by
  induction h generalizing p with
  | zero => simp [marked, inorder]
  | succ h ih =>
    rw [marked, inorder, pairs, weave_filterMap (g := Sum.inr) fun _ => rfl, map_map]
    congr 1
    exact map_congr_left fun c _ => ih c

theorem marked_congr {H H' : Heap K V} (hs : H'.shape p = H.shape p)
    (hc : ∀ c ∈ H.edges p, H'.marked mark h c = H.marked mark h c) :
    H'.marked mark (h + 1) p = H.marked mark (h + 1) p := by
  rw [marked, marked, edges_congr hs, kvs_congr hs]
  congr 1
  exact map_congr_left hc

/-- What two siblings and the pair between them hold, as if they were one node. -/
def joined (H : Heap K V) (mark : ℕ → List ℕ) : ℕ → List (K × V) → List ℕ → List (ℕ ⊕ K × V)
  | 0, ks, _ => ks.map .inr
  | h + 1, ks, es => weave (es.map (H.marked mark h)) (ks.map .inr)

end Heap

open Heap

variable {mark : ℕ → List ℕ}

theorem marked_eq_joined {ks : List (K × V)} {es : List ℕ} (hs : H.shape p = some (ks, es))
    (hmark : 0 < h ∨ mark = fun _ => []) : H.marked mark h p = H.joined mark h ks es := by
  cases h with
  | zero =>
    obtain rfl := hmark.resolve_left (lt_irrefl 0)
    simp [marked, joined, kvs_of_shape hs]
  | succ h => rw [marked, joined, kvs_of_shape hs, edges_of_shape hs]

theorem joined_append {kl kr : List (K × V)} {el er : List ℕ} (kv : K × V)
    (hlen : 0 < h → el.length = kl.length + 1) :
    H.joined mark h (kl ++ kv :: kr) (el ++ er)
      = H.joined mark h kl el ++ .inr kv :: H.joined mark h kr er := by
  cases h with
  | zero => simp [joined]
  | succ h =>
    have hlen' := hlen (succ_pos h)
    have htake : (kl.map Sum.inr : List (ℕ ⊕ K × V)).length + 1
        = (el.map (H.marked mark h)).length := by
      rw [length_map, length_map, hlen']
    rw [joined, map_append, map_append, map_cons, weave_append, htake, take_left, drop_left]
    rfl

/-- Nodes outside `S` keep their list, where `S` reaches no further down. -/
theorem Forest.marked_of_same (F : Forest H ht) {S : ℕ → Prop}
    (hsame : ∀ q, ¬ S q → H'.shape q = H.shape q) (hS : ∀ q, S q → h ≤ ht q) {m : ℕ}
    (hq : ht q = m) (hm : m ≤ h) (hn : ¬ S q) : H'.marked mark m q = H.marked mark m q := by
  induction m generalizing q with
  | zero => rw [marked, marked, kvs_congr (hsame q hn)]
  | succ m ih =>
    refine marked_congr (hsame q hn) fun c hc => ?_
    have hht := F.ht_mem hc
    have hSc : ¬ S c := fun hSc => by have := hS c hSc; lia
    exact ih (by lia) (by lia) hSc

/-- The nodes `p`, `l` and `r` have exchanged pairs and children. -/
structure Exchange (H H' : Heap K V) (ht : ℕ → ℕ) (h p l r : ℕ) : Prop where
  fresh : H'.fresh = H.fresh
  forest : Forest H' ht
  same : ∀ q, q ≠ p → q ≠ l → q ≠ r → H'.shape q = H.shape q
  isSome : ∀ q, q = p ∨ q = l → (H'.shape q).isSome
  root : ∀ q, H.link q = none → H'.link q = none
  origin : ∀ q c, q = p ∨ q = l ∨ q = r → c ∈ H'.edges q →
    ∃ q', (q' = p ∨ q' = l ∨ q' = r) ∧ c ∈ H.edges q'
  marked : ∀ mark : ℕ → List ℕ, (0 < h ∨ mark = fun _ => []) →
    H'.marked mark (h + 1) p = H.marked mark (h + 1) p

/-- The child at another index is none of the three nodes. -/
theorem Siblings.other (S : Siblings H ht h p i l r kv) (F : Forest H ht) {j d : ℕ}
    (hd : H.edge p j = some d) (hi : j ≠ i) (hi' : j ≠ i + 1) : d ≠ p ∧ d ≠ l ∧ d ≠ r := by
  refine ⟨F.ne_of_edge hd, ?_, ?_⟩
  · rintro rfl
    exact hi (F.edge_injective S.left hd).2
  · rintro rfl
    exact hi' (F.edge_injective S.right hd).2

/-- The lists of the other children are kept. -/
theorem Siblings.map_take_drop (S : Siblings H ht h p i l r kv) (F : Forest H ht)
    (hsame : ∀ q, q ≠ p → q ≠ l → q ≠ r → H'.shape q = H.shape q) (mark : ℕ → List ℕ) :
    ((H.edges p).take i).map (H'.marked mark h) = ((H.edges p).take i).map (H.marked mark h) ∧
      ((H.edges p).drop (i + 2)).map (H'.marked mark h)
        = ((H.edges p).drop (i + 2)).map (H.marked mark h) := by
  have hhp : ht p = h + 1 := S.parent.2
  have hhl : ht l = h := (S.left_valid F).2
  have hhr : ht r = h := (S.right_valid F).2
  have hkeep : ∀ j d, H.edge p j = some d → j ≠ i → j ≠ i + 1 →
      H'.marked mark h d = H.marked mark h d := by
    intro j d hd hi hi'
    obtain ⟨hdp, hdl, hdr⟩ := S.other F hd hi hi'
    have hht := F.ht_edge p j d hd
    refine F.marked_of_same (S := fun q => q = p ∨ q = l ∨ q = r) (fun q hq => ?_) ?_
      (by lia) le_rfl ?_
    · simp only [not_or] at hq
      exact hsame q hq.1 hq.2.1 hq.2.2
    · rintro q (rfl | rfl | rfl) <;> lia
    · simp only [not_or]
      exact ⟨hdp, hdl, hdr⟩
  refine ⟨map_congr_left fun d hd => ?_, map_congr_left fun d hd => ?_⟩
  · obtain ⟨j, hj⟩ := mem_iff_getElem?.mp hd
    rw [getElem?_take] at hj
    split_ifs at hj with hlt
    exact hkeep j d hj (by lia) (by lia)
  · obtain ⟨j, hj⟩ := mem_iff_getElem?.mp hd
    rw [getElem?_drop] at hj
    exact hkeep (i + 2 + j) d hj (by lia) (by lia)

/-- The pairs below the other children are kept. -/
theorem Siblings.children_take_drop (S : Siblings H ht h p i l r kv) (F : Forest H ht)
    (hsame : ∀ q, q ≠ p → q ≠ l → q ≠ r → H'.shape q = H.shape q) :
    ((H.edges p).take i).map (H'.inorder h) = (H.children (h + 1) p).take i ∧
      ((H.edges p).drop (i + 2)).map (H'.inorder h) = (H.children (h + 1) p).drop (i + 2) := by
  obtain ⟨htake, hdrop⟩ := S.map_take_drop F hsame fun _ => []
  have hpairs : ∀ (G : Heap K V) (es : List ℕ),
      (es.map (G.marked (fun _ => []) h)).map pairs = es.map (G.inorder h) := by
    intro G es
    rw [map_map]
    exact map_congr_left fun c _ => G.pairs_marked h c
  rw [children_succ, ← map_take, ← map_drop, ← hpairs, ← hpairs, ← hpairs, ← hpairs, htake, hdrop]
  exact ⟨rfl, rfl⟩

/-- The lists of nodes below the two children are kept. -/
theorem Siblings.joined_eq (S : Siblings H ht h p i l r kv) (F : Forest H ht)
    (hsame : ∀ q, q ≠ p → q ≠ l → q ≠ r → H'.shape q = H.shape q) (mark : ℕ → List ℕ)
    (ks : List (K × V)) : H'.joined mark h ks (H.edges l ++ H.edges r)
      = H.joined mark h ks (H.edges l ++ H.edges r) := by
  cases h with
  | zero => rfl
  | succ m =>
    have hhp : ht p = m + 2 := S.parent.2
    have hhl : ht l = m + 1 := (S.left_valid F).2
    have hhr : ht r = m + 1 := (S.right_valid F).2
    rw [joined, joined]
    congr 1
    refine map_congr_left fun d hd => ?_
    have hht : ht d = m := by
      rcases mem_append.mp hd with hd | hd
      · have := F.ht_mem hd
        lia
      · have := F.ht_mem hd
        lia
    refine F.marked_of_same (S := fun q => q = p ∨ q = l ∨ q = r) (fun q hq => ?_) ?_ hht le_rfl ?_
    · simp only [not_or] at hq
      exact hsame q hq.1 hq.2.1 hq.2.2
    · rintro q (rfl | rfl | rfl) <;> lia
    · rintro (rfl | rfl | rfl) <;> lia

theorem Merged.exchange (F : Forest H ht) (S : Siblings H ht h p i l r kv)
    (M : Merged H H' ht p i l r kv) : Exchange H H' ht h p l r := by
  have hsp := M.shape_parent F S
  have hsl := M.shape_left F S
  have hsr := M.shape_right
  have hsame : ∀ q, q ≠ p → q ≠ l → q ≠ r → H'.shape q = H.shape q := fun q => M.same
  refine ⟨M.fresh, M.forest, hsame, ?_, fun q hq => (M.link_none q).mpr (.inl hq), ?_,
    fun mark hmark => ?_⟩
  · rintro q (rfl | rfl)
    · rw [hsp]
      rfl
    · rw [hsl]
      rfl
  · rintro q c (rfl | rfl | rfl) hc
    · rw [edges_of_shape hsp] at hc
      exact ⟨q, .inl rfl, mem_of_mem_eraseIdx hc⟩
    · rw [edges_of_shape hsl] at hc
      exact (mem_append.mp hc).elim (fun hc => ⟨q, .inr (.inl rfl), hc⟩)
        fun hc => ⟨r, .inr (.inr rfl), hc⟩
    · rw [edges, hsr] at hc
      exact absurd hc not_mem_nil
  · obtain ⟨htake, hdrop⟩ := S.map_take_drop F hsame mark
    have hl : H.edge p i = some l := S.left
    have hr : H.edge p (i + 1) = some r := S.right
    unfold edge at hl hr
    have hwindow : H'.marked mark h l = H.marked mark h l ++ .inr kv :: H.marked mark h r := by
      rw [marked_eq_joined hsl hmark, S.joined_eq F hsame, joined_append kv fun hpos => ?_,
        ← marked_eq_joined (S.left_valid F).1 hmark, ← marked_eq_joined (S.right_valid F).1 hmark]
      rw [S.edges_left F, if_neg (ne_of_gt hpos)]
    rw [marked, marked, kvs_of_shape hsp, edges_of_shape hsp, ← eraseIdx_map, ← eraseIdx_map]
    refine weave_join (k := Sum.inr kv) ?_ ?_ ?_ ?_
    · rw [getElem?_map, S.pair]
      rfl
    · rw [take_eraseIdx _ (le_succ i), ← map_take, ← map_take, htake]
    · rw [drop_eraseIdx, ← map_drop, ← map_drop, hdrop]
    · rw [getElem?_eraseIdx_of_lt (lt_succ_self i), getElem?_map,
        getElem?_map, getElem?_map, hl, hr]
      exact hwindow

/-- Stealing exchanges two siblings and a pair of their parent. -/
theorem Shared.exchange {kl kr : List (K × V)} {kv' : K × V} {el er : List ℕ} (F : Forest H ht)
    (S : Siblings H ht h p i l r kv) (M : Shared H H' ht p i l r kv kl kv' kr el er) :
    Exchange H H' ht h p l r := by
  have hsp := M.shape_parent F S
  have hsl := M.shape_left F S
  have hsr := M.shape_right
  have hsame : ∀ q, q ≠ p → q ≠ l → q ≠ r → H'.shape q = H.shape q := fun q => M.same
  have hfrom : ∀ c, c ∈ el ++ er → ∃ q, (q = p ∨ q = l ∨ q = r) ∧ c ∈ H.edges q := by
    intro c hc
    rw [M.edges] at hc
    exact (mem_append.mp hc).elim (fun hc => ⟨l, .inr (.inl rfl), hc⟩)
      fun hc => ⟨r, .inr (.inr rfl), hc⟩
  refine ⟨M.fresh, M.forest, hsame, ?_, fun q => (M.link_none q).mpr, ?_, fun mark hmark => ?_⟩
  · rintro q (rfl | rfl)
    · rw [hsp]
      rfl
    · rw [hsl]
      rfl
  · rintro q c (rfl | rfl | rfl) hc
    · rw [edges_of_shape hsp] at hc
      exact ⟨q, .inl rfl, hc⟩
    · rw [edges_of_shape hsl] at hc
      exact hfrom c (mem_append_left _ hc)
    · rw [edges_of_shape hsr] at hc
      exact hfrom c (mem_append_right _ hc)
  · obtain ⟨htake, hdrop⟩ := S.map_take_drop F hsame mark
    have hl : H.edge p i = some l := S.left
    have hr : H.edge p (i + 1) = some r := S.right
    unfold edge at hl hr
    have hlen : 0 < h → el.length = kl.length + 1 := by
      intro hpos
      have hht : ht l = h := (S.left_valid F).2
      have := M.forest.edges_length l _ _ hsl
      rwa [hht, if_neg (ne_of_gt hpos)] at this
    have hwindow : H'.marked mark h l ++ .inr kv' :: H'.marked mark h r
        = H.marked mark h l ++ .inr kv :: H.marked mark h r := by
      rw [marked_eq_joined hsl hmark, marked_eq_joined hsr hmark, ← joined_append kv' hlen,
        M.pairs, M.edges, S.joined_eq F hsame, joined_append kv fun hpos => ?_,
        ← marked_eq_joined (S.left_valid F).1 hmark, ← marked_eq_joined (S.right_valid F).1 hmark]
      rw [S.edges_left F, if_neg (ne_of_gt hpos)]
    rw [marked, marked, kvs_of_shape hsp, edges_of_shape hsp]
    have hk' : (((H.kvs p).set i kv').map Sum.inr : List (ℕ ⊕ K × V))[i]? = some (.inr kv') := by
      rw [getElem?_map, getElem?_set_self S.index_lt]
      rfl
    refine weave_share (k := Sum.inr kv) ?_ hk' ?_ ?_ ?_ ?_ ?_
    · rw [getElem?_map, S.pair]
      rfl
    · rw [← map_take, ← map_take, take_set_of_le le_rfl]
    · rw [← map_drop, ← map_drop, drop_set_of_lt (lt_succ_self i)]
    · rw [← map_take, ← map_take, htake]
    · rw [← map_drop, ← map_drop, hdrop]
    · rw [getElem?_map, getElem?_map, getElem?_map, getElem?_map, hl, hr]
      exact hwindow

namespace Exchange

variable (F : Forest H ht) (S : Siblings H ht h p i l r kv) (E : Exchange H H' ht h p l r)
include F S E

/-- The nodes above keep their lists. -/
theorem marked_above (hmark : 0 < h ∨ mark = fun _ => []) {n q : ℕ} (hn : ht q = n)
    (hle : h + 1 ≤ n) : H'.marked mark n q = H.marked mark n q := by
  have hhp : ht p = h + 1 := S.parent.2
  have hhl : ht l = h := (S.left_valid F).2
  have hhr : ht r = h := (S.right_valid F).2
  induction n, hle using le_induction generalizing q with
  | base =>
    by_cases hqp : q = p
    · rw [hqp]
      exact E.marked mark hmark
    refine marked_congr (E.same q hqp ?_ ?_) fun c hc => ?_
    · rintro rfl
      lia
    · rintro rfl
      lia
    · have hht := F.ht_mem hc
      refine F.marked_of_same (S := fun q => q = p ∨ q = l ∨ q = r) (fun q hq => ?_) ?_
        (by lia) le_rfl ?_
      · simp only [not_or] at hq
        exact E.same q hq.1 hq.2.1 hq.2.2
      · rintro q (rfl | rfl | rfl) <;> lia
      · rintro (rfl | rfl | rfl)
        · lia
        · exact F.not_mem_edges hqp hc (mem_edges.mpr ⟨_, S.left⟩)
        · exact F.not_mem_edges hqp hc (mem_edges.mpr ⟨_, S.right⟩)
  | succ n hle ih =>
    refine marked_congr (E.same q ?_ ?_ ?_) fun c hc => ?_
    · rintro rfl
      lia
    · rintro rfl
      lia
    · rintro rfl
      lia
    · have hht := F.ht_mem hc
      exact ih (by lia)

theorem inorder_above {n q : ℕ} (hn : ht q = n) (hle : h + 1 ≤ n) :
    H'.inorder n q = H.inorder n q := by
  have hmark : 0 < h ∨ (fun _ : ℕ => ([] : List ℕ)) = fun _ => [] := .inr rfl
  have := congrArg pairs (E.marked_above F S hmark hn hle)
  rwa [pairs_marked, pairs_marked] at this

/-- The place of the parent is kept. -/
theorem frame : Frame H H' ht p := by
  refine .of_local F (fun q => q = p ∨ q = l ∨ q = r) (.inl rfl) ?_ fun q s hq hS => ?_
  · rintro q (rfl | rfl | rfl)
    · exact .inl rfl
    · exact .inr ⟨_, F.link S.left⟩
    · exact .inr ⟨_, F.link S.right⟩
  · simp only [not_or] at hS
    exact E.same q hS.1 hS.2.1 hS.2.2

end Exchange

/-! ## Nodes below a node -/

/-- `x` is `top` or below it. -/
def Below (H : Heap K V) (top x : NodeRef) : Prop := ∃ L R, Ctx H top x L R

variable {top : NodeRef}

theorem Below.child {c : ℕ} (hb : Below H top ⟨h + 1, p⟩)
    (hc : c ∈ H.edges p) : Below H top ⟨h, c⟩ := by
  obtain ⟨L, R, hctx⟩ := hb
  obtain ⟨i, hi⟩ := mem_edges.mp hc
  exact ⟨_, _, hctx.child hi⟩

variable {x : NodeRef}

theorem Below.valid (F : Forest H ht) (hb : Below H top x)
    (htop : top.Valid H ht) : x.Valid H ht := by
  obtain ⟨L, R, hctx⟩ := hb
  exact hctx.valid F htop

/-- No node comes below another one by an exchange. -/
theorem Exchange.below (F : Forest H ht) (S : Siblings H ht h p i l r kv)
    (E : Exchange H H' ht h p l r) (hp : Below H top ⟨h + 1, p⟩) (htop : top.Valid H ht)
    (hb : Below H' top x) : Below H top x := by
  have hhp : ht p = h + 1 := S.parent.2
  have hhl : ht l = h := (S.left_valid F).2
  have hhr : ht r = h := (S.right_valid F).2
  obtain ⟨L, R, hctx⟩ := hb
  induction hctx with
  | top => exact ⟨[], [], .top⟩
  | @child m q j c L R _ he ih =>
    have hhq : ht q = m + 1 := (ih.valid F htop).2
    by_cases hq : q = p ∨ q = l ∨ q = r
    · obtain ⟨q', hq', hc⟩ := E.origin q c hq (mem_edges.mpr ⟨j, he⟩)
      have hht := F.ht_mem hc
      have hht' := E.forest.ht_edge q j c he
      rcases hq' with rfl | rfl | rfl
      · obtain rfl : m = h := by lia
        exact hp.child hc
      · obtain rfl : h = m + 1 := by lia
        exact (hp.child (mem_edges.mpr ⟨_, S.left⟩)).child hc
      · obtain rfl : h = m + 1 := by lia
        exact (hp.child (mem_edges.mpr ⟨_, S.right⟩)).child hc
    · simp only [not_or] at hq
      refine ih.child (mem_edges.mpr ⟨j, ?_⟩)
      rwa [edge_congr (E.same q hq.1 hq.2.1 hq.2.2)] at he

/-! ## Where a leaf is -/

/-- The list of a node below, in that of the node above. -/
theorem Ctx.exists_marked {L R : List (K × V)} (F : Forest H ht)
    (hctx : Ctx H top x L R) (mark : ℕ → List ℕ) :
    ∃ A B, H.marked mark top.height top.node = A ++ (H.marked mark x.height x.node ++ B) ∧
      pairs A = L ∧ pairs B = R := by
  induction hctx with
  | top => exact ⟨[], [], by simp, rfl, rfl⟩
  | @child m q j c L R _ he ih =>
    obtain ⟨A, B, heq, hA, hB⟩ := ih
    have hc : (H.edges q)[j]? = some c := he
    have hj : j ≤ ((H.kvs q).map Sum.inr : List (ℕ ⊕ K × V)).length := by
      rw [length_map]
      exact F.le_kvs_length he
    have hcs : ((H.edges q).map (H.marked mark m)).map pairs = H.children (m + 1) q := by
      rw [map_map, children_succ]
      exact map_congr_left fun c _ => H.pairs_marked m c
    refine ⟨A ++ before ((H.edges q).map (H.marked mark m)) (((H.kvs q).take j).map .inr),
      after (((H.kvs q).drop j).map .inr) (((H.edges q).map (H.marked mark m)).drop (j + 1)) ++ B,
      ?_, ?_, ?_⟩
    · rw [heq, marked, weave_at _ _ hj, getElem?_map, hc, map_take, map_drop]
      simp
    · rw [pairs_append, hA, ← hcs]
      congr 1
      exact before_filterMap (g := Sum.inr) (fun _ => rfl) _ _
    · rw [pairs_append, hB, ← hcs]
      congr 1
      refine (after_filterMap (g := Sum.inr) (fun _ => rfl) _ _).trans ?_
      rw [map_drop]
      rfl

/-- The number of every leaf. -/
def leafMark (q : ℕ) : List ℕ := [q]

/-- A leaf whose number is in the list is below. -/
theorem Below.of_mem_marked {m x : ℕ} (hb : Below H top ⟨m, x⟩)
    (hq : .inl q ∈ H.marked leafMark m x) : Below H top ⟨0, q⟩ := by
  induction m generalizing x with
  | zero =>
    simp only [marked, leafMark, map_cons, map_nil, cons_append,
      nil_append, mem_cons, Sum.inl.injEq, mem_map, reduceCtorEq, and_false,
      exists_false, or_false] at hq
    exact hq ▸ hb
  | succ m ih =>
    rcases mem_weave hq with ⟨cs, hcs, hq⟩ | hq
    · obtain ⟨c, hc, rfl⟩ := mem_map.mp hcs
      exact ih (hb.child hc) hq
    · obtain ⟨kv, -, hkv⟩ := mem_map.mp hq
      exact absurd hkv nofun

/-- A leaf is below one node of each height. -/
theorem Forest.eq_of_mem_marked (F : Forest H ht) {m x y : ℕ}
    (hx : .inl q ∈ H.marked leafMark m x) (hy : .inl q ∈ H.marked leafMark m y) : x = y := by
  induction m generalizing x y with
  | zero =>
    simp only [marked, leafMark, map_cons, map_nil, cons_append,
      nil_append, mem_cons, Sum.inl.injEq, mem_map, reduceCtorEq, and_false,
      exists_false, or_false] at hx hy
    exact hx.symm.trans hy
  | succ m ih =>
    have hchild : ∀ z, .inl q ∈ H.marked leafMark (m + 1) z →
        ∃ c ∈ H.edges z, .inl q ∈ H.marked leafMark m c := by
      intro z hz
      rcases mem_weave hz with ⟨cs, hcs, hq⟩ | hq
      · obtain ⟨c, hc, rfl⟩ := mem_map.mp hcs
        exact ⟨c, hc, hq⟩
      · obtain ⟨kv, -, hkv⟩ := mem_map.mp hq
        exact absurd hkv nofun
    obtain ⟨c, hc, hqc⟩ := hchild x hx
    obtain ⟨d, hd, hqd⟩ := hchild y hy
    obtain rfl := ih hqc hqd
    by_contra hne
    exact F.not_mem_edges hne hc hd

/-- Every leaf is in the list once. -/
theorem Forest.nodup_marks (F : Forest H ht) {m x : ℕ} (hx : NodeRef.Valid H ht ⟨m, x⟩) :
    (marks (H.marked leafMark m x)).Nodup := by
  induction m generalizing x with
  | zero =>
    rw [marked, marks_append, marks_map_inl, marks_map_inr, append_nil]
    exact nodup_singleton x
  | succ m ih =>
    have hhx : ht x = m + 1 := hx.2
    have hlen := F.edges_length x _ _ hx.1
    rw [hhx, if_neg (succ_ne_zero m)] at hlen
    rw [marked, marks, weave_filterMap_none (fun _ => rfl) (by
      rw [length_map]; exact hlen), map_map, nodup_flatten]
    constructor
    · intro qs hqs
      obtain ⟨c, hc, rfl⟩ := mem_map.mp hqs
      obtain ⟨j, hj⟩ := mem_edges.mp hc
      exact ih (F.child_valid hj hhx)
    · rw [pairwise_map]
      refine (F.nodup_edges x).imp fun hne q hq hq' => hne ?_
      exact F.eq_of_mem_marked (mem_marks.mp hq) (mem_marks.mp hq')

/-- A mark that is in a list once has one place. -/
theorem split_unique {A A' B B' : List (ℕ ⊕ K × V)}
    (hnd : (marks (A ++ .inl q :: B)).Nodup) (h : A ++ .inl q :: B = A' ++ .inl q :: B') :
    A = A' ∧ B = B' := by
  induction A generalizing A' with
  | nil =>
    cases A' with
    | nil => simpa using h
    | cons a A' =>
      simp only [nil_append, cons_append, cons.injEq] at h
      obtain ⟨rfl, rfl⟩ := h
      rw [nil_append, marks_cons_inl, nodup_cons] at hnd
      exact absurd (mem_marks.mpr (mem_append_right _ mem_cons_self)) hnd.1
  | cons a A ih =>
    cases A' with
    | nil =>
      simp only [nil_append, cons_append, cons.injEq] at h
      obtain ⟨rfl, rfl⟩ := h
      rw [cons_append, marks_cons_inl, nodup_cons] at hnd
      exact absurd (mem_marks.mpr (mem_append_right _ mem_cons_self)) hnd.1
    | cons a' A' =>
      simp only [cons_append, cons.injEq] at h
      obtain ⟨rfl, h⟩ := h
      have hnd' : (marks (A ++ .inl q :: B)).Nodup := by
        refine hnd.sublist ?_
        exact (sublist_cons_self a _).filterMap _
      obtain ⟨rfl, rfl⟩ := ih hnd' h
      exact ⟨rfl, rfl⟩

/-- **A leaf stays where it is** when its pairs and the list of the root are kept. -/
theorem Ctx.of_marked {L R : List (K × V)} (F : Forest H ht)
    (F' : Forest H' ht) (htop : top.Valid H ht) (hctx : Ctx H top ⟨0, q⟩ L R)
    (hkvs : H'.kvs q = H.kvs q)
    (hmarked : H'.marked leafMark top.height top.node = H.marked leafMark top.height top.node) :
    Ctx H' top ⟨0, q⟩ L R := by
  obtain ⟨A, B, heq, rfl, rfl⟩ := hctx.exists_marked F leafMark
  have hmem : .inl q ∈ H'.marked leafMark top.height top.node := by
    rw [hmarked, heq]
    simp [marked, leafMark]
  obtain ⟨L', R', hctx'⟩ := Below.of_mem_marked ⟨[], [], .top⟩ hmem
  obtain ⟨A', B', heq', hA, hB⟩ := hctx'.exists_marked F' leafMark
  have hnd := F.nodup_marks htop
  rw [hmarked, heq] at heq'
  rw [heq] at hnd
  simp only [marked, leafMark, hkvs, map_cons, map_nil, cons_append, nil_append] at heq' hnd
  obtain ⟨rfl, hBB⟩ := split_unique hnd heq'
  obtain rfl := append_cancel_left hBB
  subst hA hB
  exact hctx'

end RustStd.BTree
