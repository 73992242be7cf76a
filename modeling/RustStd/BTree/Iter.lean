import RustStd.BTree.Walk
import RustStd.Foundations.Sweep

/-!
# Iterators over a whole map

`Iter` looks for the first or the last leaf edge when an end is asked for the first time and counts
the pairs that are left, so that it never compares the two edges. `iter_next` and `iter_next_back`
say what it hands out. The lookups of a key and of the first and the last pair are here too.
-/

namespace RustStd.BTree

open DoubleEnded List Option Nat

variable {K V Q : Type}

/-! ## The model -/

inductive LazyLeafHandle
  | Root (root : NodeRef)
  | Edge (edge : Handle .Edge)

structure LazyLeafRange where
  front : Option LazyLeafHandle
  back : Option LazyLeafHandle

open LazyLeafRange

/-- `Iter`, with the heap that it borrows. -/
structure Iter (K V : Type) where
  heap : Heap K V
  range : LazyLeafRange
  length : ℕ

section Model

variable (H : Heap K V)

/-- Moves the leaf edge to the next one and gives the pair in between. -/
def Handle.next_unchecked (self : Handle .Edge) : Option ((K × V) × Handle .Edge) := do
  match ← self.next_kv H with
  | .error _ => none
  | .ok kv => do
    let edge ← kv.next_leaf_edge H
    let pair ← kv.into_kv H
    some (pair, edge)

/-- Moves the leaf edge to the previous one and gives the pair in between. -/
def Handle.next_back_unchecked (self : Handle .Edge) : Option ((K × V) × Handle .Edge) := do
  match ← self.next_back_kv H with
  | .error _ => none
  | .ok kv => do
    let edge ← kv.next_back_leaf_edge H
    let pair ← kv.into_kv H
    some (pair, edge)

def full_range (root1 root2 : NodeRef) : LazyLeafRange := ⟨some (.Root root1), some (.Root root2)⟩

namespace LazyLeafRange

def init_front (self : LazyLeafRange) : Option (Option (Handle .Edge) × LazyLeafRange) :=
  match self.front with
  | some (.Root root) => do
    let edge ← root.first_leaf_edge H
    some (some edge, { self with front := some (.Edge edge) })
  | some (.Edge edge) => some (some edge, self)
  | none => some (none, self)

def init_back (self : LazyLeafRange) : Option (Option (Handle .Edge) × LazyLeafRange) :=
  match self.back with
  | some (.Root root) => do
    let edge ← root.last_leaf_edge H
    some (some edge, { self with back := some (.Edge edge) })
  | some (.Edge edge) => some (some edge, self)
  | none => some (none, self)

def next_unchecked (self : LazyLeafRange) : Option ((K × V) × LazyLeafRange) := do
  let (front, self) ← self.init_front H
  let (kv, front) ← (← front).next_unchecked H
  some (kv, { self with front := some (.Edge front) })

def next_back_unchecked (self : LazyLeafRange) : Option ((K × V) × LazyLeafRange) := do
  let (back, self) ← self.init_back H
  let (kv, back) ← (← back).next_back_unchecked H
  some (kv, { self with back := some (.Edge back) })

end LazyLeafRange

namespace Iter

def next (self : Iter K V) : Option (Option (K × V) × Iter K V) :=
  if self.length = 0 then some (none, self)
  else do
    let (kv, range) ← self.range.next_unchecked self.heap
    some (some kv, { self with range, length := self.length - 1 })

def next_back (self : Iter K V) : Option (Option (K × V) × Iter K V) :=
  if self.length = 0 then some (none, self)
  else do
    let (kv, range) ← self.range.next_back_unchecked self.heap
    some (some kv, { self with range, length := self.length - 1 })

end Iter

namespace BTreeMap

def iter (m : BTreeMap K V) : Iter K V :=
  match m.root with
  | some root => ⟨m.heap, full_range root root, m.length⟩
  | none => ⟨m.heap, ⟨none, none⟩, 0⟩

def first_key_value (m : BTreeMap K V) : Option (Option (K × V)) :=
  match m.root with
  | none => some none
  | some root => do
    match ← (← root.first_leaf_edge m.heap).right_kv m.heap with
    | some kv => do some (some (← kv.into_kv m.heap))
    | none => some none

def last_key_value (m : BTreeMap K V) : Option (Option (K × V)) :=
  match m.root with
  | none => some none
  | some root => do
    match ← (← root.last_leaf_edge m.heap).left_kv m.heap with
    | some kv => do some (some (← kv.into_kv m.heap))
    | none => some none

def get (cmp : Q → K → Ordering) (m : BTreeMap K V) (key : Q) : Option (Option V) :=
  match m.root with
  | none => some none
  | some root => do
    match ← root.search_tree m.heap cmp key with
    | .Found handle => do some (some (← handle.into_kv m.heap).2)
    | .GoDown _ => some none

def contains_key (cmp : Q → K → Ordering) (m : BTreeMap K V) (key : Q) : Option Bool := do
  some (← m.get cmp key).isSome

end BTreeMap

end Model

open BTreeMap

/-! ## What an iterator has left -/

section Iteration

variable {H : Heap K V} {ht : ℕ → ℕ} {top : NodeRef} {pre post l : List (K × V)} {kv : K × V}

/-- A front handle: the root, or the leaf edge before what is left. -/
inductive LazyFront (H : Heap K V) (top : NodeRef) : LazyLeafHandle → List (K × V) →
    List (K × V) → Prop
  | root : LazyFront H top (.Root top) [] (top.inorder H)
  | edge {e : Handle .Edge} {pre post : List (K × V)} : e.node.height = 0 →
    EdgeAt H top e pre post → LazyFront H top (.Edge e) pre post

/-- A back handle: the root, or the leaf edge after what is left. -/
inductive LazyBack (H : Heap K V) (top : NodeRef) : LazyLeafHandle → List (K × V) →
    List (K × V) → Prop
  | root : LazyBack H top (.Root top) (top.inorder H) []
  | edge {e : Handle .Edge} {pre post : List (K × V)} : e.node.height = 0 →
    EdgeAt H top e pre post → LazyBack H top (.Edge e) pre post

/-- The pairs that an iterator has left. -/
structure Iterating (it : Iter K V) (l : List (K × V)) : Prop where
  length : it.length = l.length
  range : l ≠ [] → ∃ ht top front back pre post, Rooted it.heap ht top ∧
    it.range = ⟨some front, some back⟩ ∧ LazyFront it.heap top front pre (l ++ post) ∧
    LazyBack it.heap top back (pre ++ l) post

variable (X : Rooted H ht top)
include X

theorem LazyFront.init {front : LazyLeafHandle}
    (h : LazyFront H top front pre post) (back : Option LazyLeafHandle) :
    ∃ e, init_front H ⟨some front, back⟩ =
        some (some e, ⟨some (.Edge e), back⟩) ∧ e.node.height = 0 ∧ EdgeAt H top e pre post := by
  unfold init_front
  cases h with
  | root =>
    obtain ⟨q, hq, he⟩ := first_leaf_edge_spec X.forest X.top_valid .top
    rw [append_nil] at he
    refine ⟨_, ?_, rfl, he⟩
    dsimp only
    rw [hq, some_bind]
  | edge hleaf he => exact ⟨_, rfl, hleaf, he⟩

theorem LazyBack.init {back : LazyLeafHandle}
    (h : LazyBack H top back pre post) (front : Option LazyLeafHandle) :
    ∃ e, init_back H ⟨front, some back⟩ =
        some (some e, ⟨front, some (.Edge e)⟩) ∧ e.node.height = 0 ∧ EdgeAt H top e pre post := by
  unfold init_back
  cases h with
  | root =>
    obtain ⟨q, hq, he⟩ := last_leaf_edge_spec X.forest X.top_valid .top
    rw [nil_append] at he
    refine ⟨_, ?_, rfl, he⟩
    dsimp only
    rw [hq, some_bind]
  | edge hleaf he => exact ⟨_, rfl, hleaf, he⟩

theorem EdgeAt.next_unchecked {e : Handle .Edge}
    (he : EdgeAt H top e pre (kv :: post)) : ∃ e', e.next_unchecked H = some (kv, e') ∧
      e'.node.height = 0 ∧ EdgeAt H top e' (pre ++ [kv]) post := by
  obtain ⟨k, hnext, hk⟩ := next_kv_spec X.forest X.top_valid X.root he
  obtain ⟨q, j, hleaf, he'⟩ := next_leaf_edge_spec X.forest X.top_valid hk
  refine ⟨_, ?_, rfl, he'⟩
  unfold Handle.next_unchecked
  rw [hnext, some_bind]
  dsimp only
  rw [hleaf, some_bind, hk.into_kv X, some_bind]

theorem EdgeAt.next_back_unchecked {e : Handle .Edge}
    (hleaf : e.node.height = 0) (he : EdgeAt H top e (pre ++ [kv]) post) :
    ∃ e', e.next_back_unchecked H = some (kv, e') ∧
      e'.node.height = 0 ∧ EdgeAt H top e' pre (kv :: post) := by
  obtain ⟨⟨m, q⟩, i⟩ := e
  obtain rfl : m = 0 := hleaf
  obtain ⟨k, hnext, hk⟩ := next_back_kv_spec X he.edge_before
  obtain ⟨q, j, hleaf, he'⟩ := next_back_leaf_edge_spec X hk
  refine ⟨_, ?_, rfl, he'⟩
  unfold Handle.next_back_unchecked
  rw [hnext, some_bind]
  dsimp only
  rw [hleaf, some_bind, hk.into_kv X, some_bind]

omit X

/-- **A call of `next`.** -/
theorem iter_next : IsNext Iterating (Iter.next (K := K) (V := V)) := by
  intro it l h
  unfold Iter.next
  cases l with
  | nil =>
    rw [if_pos (by rw [h.length]; rfl)]
    exact ⟨it, rfl, h⟩
  | cons kv l =>
    obtain ⟨ht, top, front, back, pre, post, X, hrange, hfront, hback⟩ := h.range nofun
    obtain ⟨e, hinit, hleaf, he⟩ := hfront.init X (some back)
    rw [cons_append] at he
    obtain ⟨e', hnext, hleaf', he'⟩ := he.next_unchecked X
    have hunchecked :
        it.range.next_unchecked it.heap = some (kv, ⟨some (.Edge e'), some back⟩) := by
      unfold next_unchecked
      rw [hrange, hinit, some_bind]
      dsimp only
      rw [some_bind, hnext, some_bind]
    rw [if_neg (by rw [h.length]; exact succ_ne_zero _), hunchecked, some_bind]
    refine ⟨_, rfl, ?_, fun _ =>
      ⟨ht, top, _, back, pre ++ [kv], post, X, rfl, .edge hleaf' he', ?_⟩⟩
    · dsimp only
      rw [h.length]
      rfl
    · rw [append_assoc]
      exact hback

/-- **A call of `next_back`.** -/
theorem iter_next_back {it : Iter K V} (h : Iterating it l) :
    Yields Iterating it.next_back l.getLast? l.dropLast := by
  unfold Iter.next_back
  rcases eq_nil_or_concat' l with rfl | ⟨l, kv, rfl⟩
  · rw [if_pos (by rw [h.length]; rfl)]
    exact ⟨it, rfl, h⟩
  obtain ⟨ht, top, front, back, pre, post, X, hrange, hfront, hback⟩ := h.range (by simp)
  obtain ⟨e, hinit, hleaf, he⟩ := hback.init X (some front)
  rw [← append_assoc] at he
  obtain ⟨e', hnext, hleaf', he'⟩ := he.next_back_unchecked X hleaf
  have hunchecked : it.range.next_back_unchecked it.heap =
      some (kv, ⟨some front, some (.Edge e')⟩) := by
    unfold next_back_unchecked
    rw [hrange, hinit, some_bind]
    dsimp only
    rw [some_bind, hnext, some_bind]
  rw [if_neg (by rw [h.length, length_append]; exact succ_ne_zero _), hunchecked,
    some_bind, getLast?_concat, dropLast_concat]
  refine ⟨_, rfl, ?_, fun _ => ⟨ht, top, front, _, pre, kv :: post, X, rfl, ?_, .edge hleaf' he'⟩⟩
  · dsimp only
    rw [h.length, length_append]
    rfl
  · rw [append_assoc] at hfront
    exact hfront

/-- A new iterator has all pairs of the map left. -/
theorem BTreeMap.iter_spec {cmp : K → K → Ordering} {m : BTreeMap K V} (hm : m.Valid cmp) :
    Iterating m.iter m.inorder := by
  unfold BTreeMap.iter
  cases hroot : m.root with
  | none =>
    have hnil : m.inorder = [] := by rw [inorder, hroot]
    rw [hnil]
    exact ⟨rfl, fun h => absurd rfl h⟩
  | some root =>
    obtain ⟨ht, I⟩ := hm.tree root hroot
    refine ⟨hm.length, fun _ => ⟨ht, root, _, _, [], [], I.toRooted, rfl, ?_, ?_⟩⟩
    · rw [append_nil, inorder_of_root hroot]
      exact .root
    · rw [nil_append, inorder_of_root hroot]
      exact .root

end Iteration

/-! ## Lookups -/

section Lookup

variable {H : Heap K V} {ht : ℕ → ℕ} {top x : NodeRef} {pre post : List (K × V)}

/-- A leaf has a pair, unless the tree has none. -/
theorem Balanced.leaf_pairs (T : Balanced H ht top) {q : ℕ} (hb : Below H top ⟨0, q⟩)
    (hne : top.inorder H ≠ []) : H.kvs q ≠ [] := by
  intro hnil
  by_cases htop : (⟨0, q⟩ : NodeRef) = top
  · subst htop
    exact hne hnil
  · have := T.filled _ hb htop not_false
    rw [hnil] at this
    cases this

variable {m : BTreeMap K V}

theorem first_key_value_spec {cmp : K → K → Ordering} (hm : m.Valid cmp) :
    m.first_key_value = some m.inorder.head? := by
  unfold first_key_value
  cases hroot : m.root with
  | none =>
    rw [inorder, hroot]
    rfl
  | some root =>
    obtain ⟨ht, I⟩ := hm.tree root hroot
    obtain ⟨q, hq, he⟩ := first_leaf_edge_spec I.forest I.top_valid .top
    obtain ⟨L, R, hctx, -, -⟩ := he.ctx
    have hx := hctx.valid I.forest I.top_valid
    rw [append_nil] at he
    rw [inorder_of_root hroot]
    dsimp only
    rw [hq, some_bind, right_kv_spec hx.1, some_bind]
    cases hin : root.inorder m.heap with
    | nil =>
      have hnil : m.heap.kvs q = [] := by
        have := hctx.inorder I.forest
        rw [hin] at this
        have hxin := (append_eq_nil_iff.mp (append_eq_nil_iff.mp this.symm).2).1
        exact hxin
      rw [hnil, length_nil, if_neg (lt_irrefl 0)]
      rfl
    | cons kv l =>
      have hne := I.leaf_pairs ⟨_, _, hctx⟩ (by rw [hin]; exact cons_ne_nil _ _)
      have hpos : 0 < (m.heap.kvs q).length := length_pos_iff.mpr hne
      obtain ⟨post', heq, hk⟩ := he.right_kv (getElem?_eq_getElem hpos)
      rw [hin] at heq
      rw [if_pos hpos]
      dsimp only
      rw [hk.into_kv I.toRooted, some_bind, head?_cons, (cons.inj heq).1]

theorem last_key_value_spec {cmp : K → K → Ordering} (hm : m.Valid cmp) :
    m.last_key_value = some m.inorder.getLast? := by
  unfold last_key_value
  cases hroot : m.root with
  | none =>
    rw [inorder, hroot]
    rfl
  | some root =>
    obtain ⟨ht, I⟩ := hm.tree root hroot
    obtain ⟨q, hq, he⟩ := last_leaf_edge_spec I.forest I.top_valid .top
    obtain ⟨L, R, hctx, -, -⟩ := he.ctx
    have hx := hctx.valid I.forest I.top_valid
    rw [nil_append] at he
    rw [inorder_of_root hroot]
    dsimp only
    rw [hq, some_bind, left_kv_spec hx.1 le_rfl, some_bind]
    rcases eq_nil_or_concat' (root.inorder m.heap) with hin | ⟨l, kv, hin⟩
    · have hnil : m.heap.kvs q = [] := by
        have := hctx.inorder I.forest
        rw [hin] at this
        have hxin := (append_eq_nil_iff.mp (append_eq_nil_iff.mp this.symm).2).1
        exact hxin
      rw [hin]
      rw [hnil, length_nil, if_neg (lt_irrefl 0)]
      rfl
    · have hne := I.leaf_pairs ⟨_, _, hctx⟩ (by rw [hin]; simp)
      have hpos : 0 < (m.heap.kvs q).length := length_pos_iff.mpr hne
      obtain ⟨pre', kv', heq, hk⟩ := he.edge_before.left_kv hpos
      rw [hin] at heq
      obtain ⟨-, hkv⟩ := append_inj' heq rfl
      obtain rfl : kv = kv' := by simpa using hkv
      rw [hin]
      rw [if_pos hpos]
      dsimp only
      rw [hk.into_kv I.toRooted, some_bind, getLast?_concat]

/-- **The search for a key** finds a pair with the key, or the map has none. -/
theorem search_tree_spec {lt : K → K → Prop} {cmp : Q → K → Ordering} (ha : Agrees lt cmp)
    (X : Rooted H ht top) (hasc : Ascending lt (top.inorder H)) (key : Q) :
    ∃ r, top.search_tree H cmp key = some r ∧ match r with
      | .Found k => ∃ pre kv post, KvAt H top k pre kv post ∧ cmp key kv.1 = .eq
      | .GoDown _ => ∀ y ∈ top.inorder H, cmp key y.1 ≠ .eq := by
  unfold NodeRef.search_tree
  refine runLoop_spec _ (fun x => Cutting cmp H top (.Included key) x (.Included key) ∧
    Cutting cmp H top (.Excluded key) x (.Excluded key)) NodeRef.height _ (fun x hx => ?_) _ top
    ⟨⟨⟨[], [], .top, nofun, nofun⟩, fun _ _ => rfl⟩, ⟨[], [], .top, nofun, nofun⟩, fun _ _ => rfl⟩
    (lt_succ_self _)
  obtain ⟨hinc, hexc⟩ := hx
  obtain ⟨m, q⟩ := x
  obtain ⟨L, R, hctx, hL, hR⟩ := hinc.ctx
  have hx := hctx.valid X.forest X.top_valid
  have hks : Ascending lt (H.kvs q) := (hctx.ascending X.forest hasc).kvs
  obtain ⟨r, hr, hspec⟩ := find_key_index_spec cmp hx.1 key (zero_le _)
  unfold NodeRef.search_node
  rw [hr, bind_eq_bind, some_bind]
  cases r with
  | KV i =>
    obtain ⟨-, y, hy, heq⟩ := hspec
    obtain ⟨hi, -⟩ := List.getElem?_eq_some_iff.mp hy
    dsimp only
    rw [NodeRef.new_kv_spec hx.1 hi, some_bind, bind_some]
    exact ⟨_, y, _, ⟨hy, L, R, hctx, rfl, rfl⟩, heq⟩
  | Edge i =>
    obtain ⟨-, hle, hgt, hlt⟩ := hspec
    have hcut : CutAt lt cmp (H.kvs q) (.Included key) (.Included key) i :=
      .between ha hks hle (Or.inl rfl) (fun j y hj hy => by
        simp [SearchBound.skips, hgt j y (zero_le j) hj hy]) hlt
    have hcut' : CutAt lt cmp (H.kvs q) (.Excluded key) (.Excluded key) i :=
      .between ha hks hle (Or.inr rfl) (fun j y hj hy => by
        simp [SearchBound.skips, hgt j y (zero_le j) hj hy]) hlt
    dsimp only
    rw [NodeRef.new_edge_spec hx.1 hle, some_bind, bind_some]
    dsimp only
    cases m with
    | zero =>
      rw [if_pos rfl]
      obtain ⟨pre, post, he⟩ := hinc.leaf hcut
      obtain ⟨pre', post', he'⟩ := hexc.leaf hcut'
      obtain rfl := he.edge.pre_unique X he'.edge
      intro y hy heq
      rw [he'.edge.inorder X.forest] at hy
      rcases mem_append.mp hy with hy | hy
      · have := he.skipped y hy
        simp [SearchBound.skips, heq] at this
      · have := he'.kept y hy
        simp [SearchBound.skips, heq] at this
    | succ m =>
      obtain ⟨c, hc⟩ := X.forest.exists_edge hx hle
      rw [if_neg (succ_ne_zero m), NodeRef.descend_spec rfl hc, bind_eq_bind, bind_some]
      exact ⟨⟨hinc.child ha X.forest hasc hcut hc, hexc.child ha X.forest hasc hcut' hc⟩,
        lt_succ_self m⟩

theorem contains_key_spec {cmpK : K → K → Ordering} {cmp : Q → K → Ordering}
    (ha : Agrees (fun a b => cmpK a b = .lt) cmp) (hm : m.Valid cmpK) (key : Q) :
    m.contains_key cmp key = some (m.inorder.any fun y => cmp key y.1 == .eq) := by
  unfold contains_key BTreeMap.get
  cases hroot : m.root with
  | none =>
    rw [inorder, hroot]
    rfl
  | some root =>
    obtain ⟨ht, I⟩ := hm.tree root hroot
    obtain ⟨r, hr, hspec⟩ := search_tree_spec ha I.toRooted I.sorted key
    rw [inorder_of_root hroot]
    dsimp only
    rw [hr, bind_eq_bind, some_bind]
    cases r with
    | Found k =>
      obtain ⟨pre, kv, post, hk, heq⟩ := hspec
      dsimp only
      rw [hk.into_kv I.toRooted, some_bind, bind_some, hk.inorder I.forest,
        isSome_some, eq_comm, some_inj, List.any_eq_true]
      exact ⟨kv, mem_append_right _ mem_cons_self, by rw [heq]; rfl⟩
    | GoDown e =>
      rw [bind_some, isSome_none, eq_comm, some_inj, List.any_eq_false]
      intro y hy
      simpa using hspec y hy

end Lookup

end RustStd.BTree
