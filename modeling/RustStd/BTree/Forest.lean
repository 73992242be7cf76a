import RustStd.BTree.Algorithms
import RustStd.Foundations.Weave

/-!
# Forests of nodes

`Forest H ht` says that the nodes of a heap form trees: every edge leads to a node whose link to its
parent is exactly that edge and conversely, all leaves of a tree are equally deep (`ht` is the
height of each node), and a node above the leaves has one edge more than pairs. `inorder` reads the
pairs below a node in order, and `Ctx H top x L R` says that `x` is below `top`, with the pairs `L`
before and `R` after its own. A change of a node and its children that keeps the rest leaves the
context of the node as it was (`Ctx.frame`).
-/

namespace RustStd.BTree

open Weave List Function

variable {K V : Type}

namespace Heap

/-- The pairs and the edges of a node. -/
def shape (H : Heap K V) (p : ℕ) : Option (List (K × V) × List ℕ) :=
  (H.get p).map fun x => (x.kvs, x.edges)

/-- The parent of a node, and the index there. -/
def link (H : Heap K V) (p : ℕ) : Option (ℕ × ℕ) :=
  (H.get p).bind fun x => x.parent.map fun parent => (parent, x.parent_idx)

def kvs (H : Heap K V) (p : ℕ) : List (K × V) := ((H.shape p).map Prod.fst).getD []

def edges (H : Heap K V) (p : ℕ) : List ℕ := ((H.shape p).map Prod.snd).getD []

def edge (H : Heap K V) (p i : ℕ) : Option ℕ := (H.edges p)[i]?

/-- The pairs below a node of a given height, in order. -/
def inorder (H : Heap K V) : ℕ → ℕ → List (K × V)
  | 0, p => H.kvs p
  | h + 1, p => weave ((H.edges p).map (H.inorder h)) (H.kvs p)

/-- The pairs below each child of a node of a given height. -/
def children (H : Heap K V) : ℕ → ℕ → List (List (K × V))
  | 0, _ => []
  | h + 1, p => (H.edges p).map (H.inorder h)

variable {H H' : Heap K V} {p q : ℕ} {x : Node K V} {ks : List (K × V)} {es : List ℕ}

theorem get_of_shape (h : H.shape p = some (ks, es)) :
    ∃ x, H.get p = some x ∧ x.kvs = ks ∧ x.edges = es := by
  simpa [shape] using h

theorem shape_of_get (h : H.get p = some x) : H.shape p = some (x.kvs, x.edges) := by
  simp [shape, h]

theorem link_of_get (h : H.get p = some x) :
    H.link p = x.parent.map fun parent => (parent, x.parent_idx) := by
  simp [link, h]

theorem kvs_of_shape (h : H.shape p = some (ks, es)) : H.kvs p = ks := by
  simp [kvs, h]

theorem edges_of_shape (h : H.shape p = some (ks, es)) : H.edges p = es := by
  simp [edges, h]

theorem shape_of_link {s : ℕ × ℕ} (h : H.link p = some s) :
    H.shape p = some (H.kvs p, H.edges p) := by
  unfold link at h
  rcases hx : H.get p with _ | x
  · simp [hx] at h
  · simp [kvs, edges, shape_of_get hx]

theorem shape_of_edge {i c : ℕ} (h : H.edge p i = some c) :
    H.shape p = some (H.kvs p, H.edges p) := by
  unfold edge edges at h
  unfold kvs edges
  rcases hs : H.shape p with _ | ⟨ks, es⟩ <;> simp_all

variable (h : H'.shape p = H.shape p)
include h

theorem kvs_congr : H'.kvs p = H.kvs p := by
  unfold kvs
  rw [h]

theorem edges_congr : H'.edges p = H.edges p := by
  unfold edges
  rw [h]

theorem edge_congr (i : ℕ) : H'.edge p i = H.edge p i := by
  unfold edge
  rw [edges_congr h]

omit h

theorem inorder_eq_weave (H : Heap K V) (h p : ℕ) :
    H.inorder h p = weave (H.children h p) (H.kvs p) := by
  cases h with
  | zero => simp [inorder, children]
  | succ h => rfl

theorem children_succ (H : Heap K V) (h p : ℕ) :
    H.children (h + 1) p = (H.edges p).map (H.inorder h) := rfl

/-- The pairs below a node depend on its shape and those of its children's descendants. -/
theorem inorder_congr (hs : H'.shape p = H.shape p) {h : ℕ}
    (hc : ∀ i c, H.edge p i = some c → H'.inorder h c = H.inorder h c) :
    H'.inorder (h + 1) p = H.inorder (h + 1) p := by
  rw [inorder, inorder, edges_congr hs, kvs_congr hs]
  congr 1
  refine map_congr_left fun c hmem => ?_
  obtain ⟨i, hi⟩ := getElem?_of_mem hmem
  exact hc i c hi

/-! ### Changes of a heap -/

@[simp] theorem get_set_self : (H.set p x).get p = some x := if_pos rfl

theorem get_set_of_ne (h : q ≠ p) : (H.set p x).get q = H.get q := if_neg h

@[simp] theorem shape_set : (H.set p x).shape = update H.shape p (some (x.kvs, x.edges)) := by
  funext q
  by_cases h : q = p
  · subst h; simp [shape]
  · simp [shape, get_set_of_ne h, h]

@[simp] theorem link_set : (H.set p x).link
    = update H.link p (x.parent.map fun parent => (parent, x.parent_idx)) := by
  funext q
  by_cases h : q = p
  · subst h; simp [link]
  · simp [link, get_set_of_ne h, h]

/-- A change of the pairs and edges keeps the links. -/
theorem link_set_of_get (h : H.get p = some x) :
    (H.set p ⟨x.parent, x.parent_idx, ks, es⟩).link = H.link := by
  rw [link_set]
  exact update_eq_self_iff.mpr (link_of_get h).symm

@[simp] theorem shape_alloc :
    (H.alloc x).1.shape = update H.shape H.fresh (some (x.kvs, x.edges)) :=
  shape_set

@[simp] theorem link_alloc : (H.alloc x).1.link
    = update H.link H.fresh (x.parent.map fun parent => (parent, x.parent_idx)) :=
  link_set

@[simp] theorem shape_deallocate : (H.deallocate p).shape = update H.shape p none := by
  funext q
  by_cases h : q = p
  · subst h; simp [shape, deallocate]
  · simp [shape, deallocate, h]

@[simp] theorem link_deallocate : (H.deallocate p).link = update H.link p none := by
  funext q
  by_cases h : q = p
  · subst h; simp [link, deallocate]
  · simp [link, deallocate, h]

end Heap

open Heap

/-! ## Forests -/

/-- The nodes form trees; `ht` gives each node's height. -/
structure Forest (H : Heap K V) (ht : ℕ → ℕ) : Prop where
  edge_iff : ∀ p i c, H.edge p i = some c ↔ H.link c = some (p, i)
  ht_edge : ∀ p i c, H.edge p i = some c → ht p = ht c + 1
  edges_length : ∀ p ks es, H.shape p = some (ks, es) →
    es.length = if ht p = 0 then 0 else ks.length + 1
  le_capacity : ∀ p ks es, H.shape p = some (ks, es) → ks.length ≤ CAPACITY
  lt_fresh : ∀ p s, H.shape p = some s → p < H.fresh ∧ ht p < H.fresh

/-- A reference to a node of the heap, with the right height. -/
def NodeRef.Valid (H : Heap K V) (ht : ℕ → ℕ) (x : NodeRef) : Prop :=
  H.shape x.node = some (H.kvs x.node, H.edges x.node) ∧ ht x.node = x.height

namespace Forest

variable {H : Heap K V} {ht : ℕ → ℕ} {p i c : ℕ}

variable (F : Forest H ht)
include F

theorem link (h : H.edge p i = some c) : H.link c = some (p, i) :=
  (F.edge_iff p i c).mp h

theorem edge (h : H.link c = some (p, i)) : H.edge p i = some c :=
  (F.edge_iff p i c).mpr h

variable (h : H.edge p i = some c)
include h

theorem shape_child : H.shape c = some (H.kvs c, H.edges c) :=
  shape_of_link (F.link h)

theorem edge_injective {p' i' : ℕ} (h' : H.edge p' i' = some c) : p' = p ∧ i' = i := by
  have := (F.link h).symm.trans (F.link h')
  simp_all

theorem edges_length' : (H.edges p).length = (H.kvs p).length + 1 := by
  have hl := F.edges_length p _ _ (shape_of_edge h)
  rwa [if_neg (by have := F.ht_edge p i c h; lia)] at hl

theorem le_kvs_length : i ≤ (H.kvs p).length := by
  have hlen := F.edges_length' h
  obtain ⟨hi, -⟩ := List.getElem?_eq_some_iff.mp h
  lia

theorem child_valid {k : ℕ} (hk : ht p = k + 1) : NodeRef.Valid H ht ⟨k, c⟩ :=
  ⟨F.shape_child h, by have := F.ht_edge p i c h; simp only; lia⟩

omit h

theorem exists_edge {h : ℕ} (hx : NodeRef.Valid H ht ⟨h + 1, p⟩)
    (hi : i ≤ (H.kvs p).length) : ∃ c, H.edge p i = some c := by
  obtain ⟨hs, hp⟩ : H.shape p = some (H.kvs p, H.edges p) ∧ ht p = h + 1 := hx
  have hl := F.edges_length p _ _ hs
  rw [hp, if_neg (by simp)] at hl
  exact ⟨_, getElem?_eq_getElem (by lia)⟩

theorem leaf_edges (hx : NodeRef.Valid H ht ⟨0, p⟩) : H.edges p = [] := by
  have hl := F.edges_length p _ _ hx.1
  rw [hx.2, if_pos rfl] at hl
  exact length_eq_zero_iff.mp hl

theorem ne_of_edge (h : H.edge p i = some c) : c ≠ p := by
  rintro rfl
  have := F.ht_edge c i c h
  lia

omit F

/-- The pairs below a child are one of the lists of its parent. -/
theorem children_getElem (h : H.edge p i = some c) (k : ℕ) :
    (H.children (k + 1) p)[i]?.getD [] = H.inorder k c := by
  have : (H.edges p)[i]? = some c := h
  simp [children, this]

/-- The pairs below a node, around one of its children. -/
theorem inorder_at (F : Forest H ht) (h : H.edge p i = some c) (k : ℕ) :
    H.inorder (k + 1) p = before (H.children (k + 1) p) ((H.kvs p).take i)
      ++ (H.inorder k c ++ after ((H.kvs p).drop i) ((H.children (k + 1) p).drop (i + 1))) := by
  rw [inorder_eq_weave, weave_at _ _ (F.le_kvs_length h), children_getElem h]

/-- The pairs below nodes of a height at most `n` are kept with the shapes of these nodes. -/
theorem inorder_lower (F : Forest H ht) {H' : Heap K V} {n : ℕ}
    (h : ∀ q s, H.shape q = some s → ht q ≤ n → H'.shape q = H.shape q) {q m : ℕ} {s}
    (hq : H.shape q = some s) (hm : ht q = m) (hn : m ≤ n) : H'.inorder m q = H.inorder m q := by
  induction m generalizing q s with
  | zero => exact kvs_congr (h q s hq (by lia))
  | succ m ih =>
    refine inorder_congr (h q s hq (by lia)) fun j d hd => ?_
    have := F.ht_edge q j d hd
    exact ih (F.shape_child hd) (by lia) (by lia)

end Forest

/-! ## Contexts -/

/-- `x` is below `top`, with the pairs `L` before its own and `R` after them. -/
inductive Ctx (H : Heap K V) (top : NodeRef) : NodeRef → List (K × V) → List (K × V) → Prop
  | top : Ctx H top top [] []
  | child {h p i c : ℕ} {L R : List (K × V)} : Ctx H top ⟨h + 1, p⟩ L R → H.edge p i = some c →
    Ctx H top ⟨h, c⟩ (L ++ before (H.children (h + 1) p) ((H.kvs p).take i))
      (after ((H.kvs p).drop i) ((H.children (h + 1) p).drop (i + 1)) ++ R)

/-- The pairs below a node. -/
def NodeRef.inorder (H : Heap K V) (x : NodeRef) : List (K × V) := H.inorder x.height x.node

namespace Ctx

variable {H H' : Heap K V} {ht : ℕ → ℕ} {top x : NodeRef} {L R : List (K × V)}

theorem inorder (F : Forest H ht) (h : Ctx H top x L R) :
    top.inorder H = L ++ (x.inorder H ++ R) := by
  induction h with
  | top => simp
  | child h he ih =>
    rw [ih, NodeRef.inorder, NodeRef.inorder, F.inorder_at he]
    simp [append_assoc]

theorem valid (F : Forest H ht) (h : Ctx H top x L R) (ht' : top.Valid H ht) : x.Valid H ht := by
  induction h with
  | top => exact ht'
  | child h he ih => exact F.child_valid he ih.2

/-- A node below another has that one or a parent. -/
theorem eq_or_link (F : Forest H ht) (h : Ctx H top x L R) :
    x = top ∨ ∃ p i L' R', H.link x.node = some (p, i) ∧ H.edge p i = some x.node
      ∧ Ctx H top ⟨x.height + 1, p⟩ L' R'
      ∧ L = L' ++ before (H.children (x.height + 1) p) ((H.kvs p).take i)
      ∧ R = after ((H.kvs p).drop i) ((H.children (x.height + 1) p).drop (i + 1)) ++ R' := by
  cases h with
  | top => exact .inl rfl
  | child h he => exact .inr ⟨_, _, _, _, F.link he, he, h, rfl, rfl⟩

end Ctx

/-- The heap `H'` has the nodes of `H` above `p` and beside it. -/
structure Frame (H H' : Heap K V) (ht : ℕ → ℕ) (p : ℕ) : Prop where
  beside : ∀ q s, H.shape q = some s → q ≠ p → ht q = ht p →
    H'.inorder (ht p) q = H.inorder (ht p) q
  above : ∀ q s, H.shape q = some s → ht p < ht q → H'.shape q = H.shape q

namespace Frame

variable {H H' : Heap K V} {ht : ℕ → ℕ} {p i c : ℕ}

theorem parent (F : Forest H ht) (fr : Frame H H' ht c) (h : H.edge p i = some c) :
    Frame H H' ht p := by
  have hht := F.ht_edge p i c h
  refine ⟨fun q s hq hne hqp => ?_, fun q s hq hlt => fr.above q s hq (by lia)⟩
  rw [hht]
  refine inorder_congr (fr.above q s hq (by lia)) fun j d hd => ?_
  have hd' := F.ht_edge q j d hd
  refine fr.beside d _ (F.shape_child hd) ?_ (by lia)
  rintro rfl
  exact hne (F.edge_injective h hd).1

/-- A change at a node and its children. -/
theorem of_local (F : Forest H ht) (S : ℕ → Prop) (hp : S p)
    (hS : ∀ q, S q → q = p ∨ ∃ i, H.link q = some (p, i))
    (hshape : ∀ q s, H.shape q = some s → ¬ S q → H'.shape q = H.shape q) : Frame H H' ht p := by
  have hin : ∀ (n q : ℕ) s, H.shape q = some s → ht q = n → n ≤ ht p → ¬ S q →
      H'.inorder n q = H.inorder n q := by
    intro n
    induction n with
    | zero =>
      intro q s hq _ _ hn
      exact kvs_congr (hshape q s hq hn)
    | succ n ih =>
      intro q s hq hqn hle hn
      refine inorder_congr (hshape q s hq hn) fun j d hd => ?_
      have hd' := F.ht_edge q j d hd
      refine ih d _ (F.shape_child hd) (by lia) (by lia) fun hSd => ?_
      rcases hS d hSd with rfl | ⟨k, hk⟩
      · lia
      · obtain ⟨rfl, -⟩ := F.edge_injective hd (F.edge hk)
        exact hn hp
  refine ⟨fun q s hq hne hqp => hin _ q s hq hqp le_rfl fun hSq => ?_,
    fun q s hq hlt => hshape q s hq fun hSq => ?_⟩
  · rcases hS q hSq with rfl | ⟨k, hk⟩
    · exact hne rfl
    · have := F.ht_edge _ _ _ (F.edge hk)
      lia
  · rcases hS q hSq with rfl | ⟨k, hk⟩
    · lia
    · have := F.ht_edge _ _ _ (F.edge hk)
      lia

end Frame

/-- **The context of a node is kept by a change of the node and of what is below it.** -/
theorem Ctx.frame {H H' : Heap K V} {ht : ℕ → ℕ} {top x : NodeRef} {L R : List (K × V)}
    (F : Forest H ht) (hc : Ctx H top x L R) (htop : top.Valid H ht) (fr : Frame H H' ht x.node) :
    Ctx H' top x L R := by
  induction hc with
  | top => exact .top
  | @child h p i c L R hctx he ih =>
    have hht := F.ht_edge p i c he
    obtain ⟨hps, hph⟩ : H.shape p = some (H.kvs p, H.edges p) ∧ ht p = h + 1 :=
      hctx.valid F htop
    have hheight : ht c = h := by lia
    have hshape := fr.above p _ hps (by simp only; lia)
    have hctx' := ih (fr.parent F he)
    have he' : H'.edge p i = some c := by rw [edge_congr hshape]; exact he
    have hmem : ∀ j d, j ≠ i → H.edge p j = some d → H'.inorder h d = H.inorder h d := by
      intro j d hj hd
      have hd' := F.ht_edge p j d hd
      have hdc : d ≠ c := by
        rintro rfl
        exact hj (F.edge_injective he hd).2
      have := fr.beside d _ (F.shape_child hd) hdc (by simp only; lia)
      rwa [hheight] at this
    have htake : (H'.children (h + 1) p).take i = (H.children (h + 1) p).take i := by
      apply ext_getElem?
      intro j
      simp only [children, edges_congr hshape, getElem?_take, getElem?_map]
      by_cases hj : j < i
      · rcases hd : (H.edges p)[j]? with _ | d
        · simp
        · simp [hj, hmem j d (by lia) hd]
      · simp [hj]
    have hdrop : (H'.children (h + 1) p).drop (i + 1) = (H.children (h + 1) p).drop (i + 1) := by
      apply ext_getElem?
      intro j
      simp only [children, edges_congr hshape, getElem?_drop, getElem?_map]
      rcases hd : (H.edges p)[i + 1 + j]? with _ | d
      · simp
      · simp [hmem (i + 1 + j) d (by lia) hd]
    have hlen : ((H.kvs p).take i).length ≤ i := length_take_le _ _
    have hgoal := Ctx.child hctx' he'
    rw [kvs_congr hshape, ← before_take _ _ _ hlen, htake, before_take _ _ _ hlen, hdrop] at hgoal
    exact hgoal

end RustStd.BTree
