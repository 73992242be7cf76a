import RustStd.BTree.Search

/-!
# Maps

A `BTreeMap` has a root, unless nothing was ever put into it, and counts its pairs. `Valid` collects
what holds of every map. The lemmas here are about changing the value of a pair and about the ends
of a walk, which every iterator over a map needs.
-/

namespace RustStd.BTree

open List

variable {K V : Type} {H H' : Heap K V} {ht : ℕ → ℕ} {top : NodeRef} {pre post : List (K × V)}
  {kv : K × V}

structure BTreeMap (K V : Type) where
  heap : Heap K V
  root : Option NodeRef
  length : ℕ

namespace BTreeMap

/-- The pairs, in order. -/
def inorder (m : BTreeMap K V) : List (K × V) :=
  match m.root with
  | none => []
  | some root => root.inorder m.heap

/-- The invariants of a map. -/
structure Valid (cmp : K → K → Ordering) (m : BTreeMap K V) : Prop where
  tree : ∀ root, m.root = some root → ∃ ht, Invariants cmp m.heap ht root
  length : m.length = m.inorder.length

variable {m : BTreeMap K V}

theorem inorder_of_root {root : NodeRef} (h : m.root = some root) :
    m.inorder = root.inorder m.heap := by
  unfold inorder
  rw [h]

theorem valid_of_root {cmp : K → K → Ordering} {root : NodeRef}
    {l : List (K × V)} (hroot : m.root = some root) (I : Invariants cmp m.heap ht root)
    (hl : root.inorder m.heap = l) (hlen : m.length = l.length) : m.Valid cmp ∧ m.inorder = l := by
  have hin : m.inorder = l := (inorder_of_root hroot).trans hl
  refine ⟨⟨fun r hr => ?_, by rw [hin, hlen]⟩, hin⟩
  obtain rfl : root = r := Option.some.inj (hroot.symm.trans hr)
  exact ⟨ht, I⟩

theorem Valid.ascending {cmp : K → K → Ordering} (h : m.Valid cmp) :
    Ascending (fun a b => cmp a b = .lt) m.inorder := by
  cases hroot : m.root with
  | none =>
    rw [inorder, hroot]
    exact List.Pairwise.nil
  | some root =>
    obtain ⟨ht, I⟩ := h.tree root hroot
    rw [inorder_of_root hroot]
    exact I.sorted

end BTreeMap

/-! ## At a pair -/

variable {k : Handle .KV}

theorem KvAt.into_kv (X : Rooted H ht top) (hk : KvAt H top k pre kv post) :
    k.into_kv H = some kv := by
  obtain ⟨hpair, L, R, hctx, -, -⟩ := hk
  obtain ⟨n, hn, hkn, -⟩ := Heap.get_of_shape (hctx.valid X.forest X.top_valid).1
  unfold Handle.into_kv
  rw [hn, some_bind, hkn, hpair]

/-- Another value for a key. -/
theorem KvAt.replace_val (X : Rooted H ht top) (hk : KvAt H top k pre kv post)
    (v : V) : ∃ H', k.replace_val H v = some (H', kv.2) ∧
      Rewritten H H' ht k.node.node ((H.kvs k.node.node).set k.idx (kv.1, v)) ∧
      KvAt H' top k pre (kv.1, v) post := by
  obtain ⟨H', hreplace, W, hk'⟩ := hk.replace X (kv.1, v)
  refine ⟨H', ?_, W, hk'⟩
  obtain ⟨hpair, L, R, hctx, -, -⟩ := hk
  obtain ⟨n, hn, hkn, -⟩ := Heap.get_of_shape (hctx.valid X.forest X.top_valid).1
  unfold Handle.replace_kv at hreplace
  unfold Handle.replace_val
  rw [hn, some_bind, hkn, hpair, some_bind] at hreplace ⊢
  exact congrArg (fun r => some (r, kv.2)) (congrArg Prod.fst (Option.some.inj hreplace))

/-- A node with other pairs, but as many. -/
theorem Balanced.rewritten {p : ℕ} {ks : List (K × V)} (T : Balanced H ht top)
    (W : Rewritten H H' ht p ks) (hlen : ks.length = (H.kvs p).length) : Balanced H' ht top := by
  have hlength : ∀ q, (H'.kvs q).length = (H.kvs q).length := by
    intro q
    by_cases hq : q = p
    · rw [hq, W.kvs, hlen]
    · rw [Heap.kvs_congr (W.shape_of_ne hq)]
  refine ⟨W.rooted T.toRooted, fun x hx hne _ => ?_, fun hpos hnil => ?_⟩
  · rw [hlength]
    exact T.filled x (W.below hx) hne not_false
  · refine T.root_pairs hpos (length_eq_zero_iff.mp ?_)
    rw [← hlength, hnil, length_nil]

/-- A map stays one when a value is changed. -/
theorem Invariants.replace_val {cmp : K → K → Ordering} (I : Invariants cmp H ht top)
    (hk : KvAt H top k pre kv post) (v : V) :
    ∃ H', k.replace_val H v = some (H', kv.2) ∧ Invariants cmp H' ht top ∧
      KvAt H' top k pre (kv.1, v) post := by
  obtain ⟨H', hreplace, W, hk'⟩ := hk.replace_val I.toRooted v
  have T := I.toBalanced.rewritten W (length_set ..)
  refine ⟨H', hreplace, ⟨T, ?_⟩, hk'⟩
  have hsorted := I.sorted
  rw [hk.inorder I.forest] at hsorted
  rw [hk'.inorder T.forest]
  have hkeys : (pre ++ (kv.1, v) :: post).map Prod.fst = (pre ++ kv :: post).map Prod.fst := by
    simp
  rw [← pairwise_map (f := Prod.fst) (R := fun a b => cmp a b = .lt)] at hsorted ⊢
  rwa [hkeys]

/-! ## At the ends -/

/-- After the last pair. -/
theorem next_kv_end (X : Rooted H ht top) {e : Handle .Edge} (he : EdgeAt H top e pre []) :
    ∃ root, e.next_kv H = some (.error root) := by
  have hrun : ∃ r, e.next_kv H = some r ∧ ∃ root, r = .error root := by
    unfold Handle.next_kv
    refine runLoop_spec _ (fun e => EdgeAt H top e pre []) (fun e => H.fresh - e.node.height) _
      (fun e he => ?_) _ e he (Nat.lt_succ_of_le (Nat.sub_le _ _))
    obtain ⟨L, R, hctx, -, hpost⟩ := he.ctx
    have hx := hctx.valid X.forest X.top_valid
    rw [right_kv_spec hx.1, some_bind]
    have hidx : ¬e.idx < (H.kvs e.node.node).length := by
      intro hlt
      obtain ⟨post', heq, -⟩ := he.right_kv (getElem?_eq_getElem hlt)
      cases heq
    rw [if_neg hidx]
    rw [NodeRef.ascend_spec hx.1, some_bind]
    rcases hlink : H.link e.node.node with _ | ⟨p, j⟩
    · exact ⟨e.node, rfl⟩
    · refine ⟨he.ascend X.forest X.root (Nat.le_antisymm he.le (Nat.not_lt.mp hidx)) hlink, ?_⟩
      have hlt := (X.forest.lt_fresh _ _ hx.1).2
      rw [hx.2] at hlt
      dsimp only
      omega
  obtain ⟨r, hrun, root, rfl⟩ := hrun
  exact ⟨root, hrun⟩

end RustStd.BTree
