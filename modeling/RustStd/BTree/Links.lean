import RustStd.BTree.Forest

/-!
# Correcting links to parents

`correct_childrens_parent_links` gives the children at some edges of a node their link and changes
nothing else (`correct_childrens_parent_links_spec`). After edges have moved between nodes, the
nodes are a forest again when all children that moved have their link corrected
(`Forest.edge_iff_of_moved`).
-/

namespace RustStd.BTree

open List Option Function Heap

variable {K V : Type}

theorem assert_some {P : Prop} [Decidable P] (h : P) : assert P = some () := if_pos h

namespace NodeRef

variable {H : Heap K V} {x : NodeRef} {ks : List (K × V)} {es : List ℕ}

variable (h : H.shape x.node = some (ks, es))
include h

theorem len_spec : x.len H = some ks.length := by
  obtain ⟨n, hn, rfl, -⟩ := get_of_shape h
  simp [len, hn]

theorem new_edge_spec {i : ℕ} (hi : i ≤ ks.length) : Handle.new_edge H x i = some ⟨x, i⟩ := by
  simp [Handle.new_edge, len_spec h, assert_some hi]

theorem new_kv_spec {i : ℕ} (hi : i < ks.length) : Handle.new_kv H x i = some ⟨x, i⟩ := by
  simp [Handle.new_kv, len_spec h, assert_some hi]

omit h

theorem descend_spec {i c h : ℕ} (hx : x.height = h + 1) (he : H.edge x.node i = some c) :
    (Handle.mk (T := .Edge) x i).descend H = some ⟨h, c⟩ := by
  obtain ⟨n, hn, -, hes⟩ := get_of_shape (shape_of_edge he)
  have hc : n.edges[i]? = some c := by rw [hes]; exact he
  simp [Handle.descend, hn, hc, hx, checkedSub]

theorem ascend_spec (h : H.shape x.node = some (ks, es)) :
    x.ascend H = some ((H.link x.node).map fun s => ⟨⟨x.height + 1, s.1⟩, s.2⟩) := by
  obtain ⟨n, hn, -, -⟩ := get_of_shape h
  rw [link_of_get hn]
  cases hp : n.parent <;> simp [ascend, hn, hp]

end NodeRef

theorem isSome_update {α : Type} {s : ℕ → Option α} {c : ℕ} (h : (s c).isSome) (q : ℕ) (a : α) :
    (update s q (some a) c).isSome := by
  rw [update_apply]
  split_ifs
  · rfl
  · exact h

/-- The children of `p` at the edges `I` have their link corrected. -/
structure Relinked (H H' : Heap K V) (p : ℕ) (I : ℕ → Prop) : Prop where
  fresh : H'.fresh = H.fresh
  shape : H'.shape = H.shape
  link_in : ∀ i c, I i → H.edge p i = some c → H'.link c = some (p, i)
  link_out : ∀ c, (∀ i, I i → H.edge p i ≠ some c) → H'.link c = H.link c

variable {H : Heap K V}

theorem correct_parent_link_spec {x : NodeRef} {i c : ℕ} (hh : 0 < x.height)
    (he : H.edge x.node i = some c) (hc : (H.shape c).isSome) :
    ∃ H', (Handle.mk x i).correct_parent_link H = some H' ∧ H'.fresh = H.fresh
      ∧ H'.shape = H.shape ∧ H'.link = update H.link c (some (x.node, i)) := by
  obtain ⟨h, hx⟩ : ∃ h, x.height = h + 1 := ⟨x.height - 1, by omega⟩
  obtain ⟨n, hn⟩ : ∃ n, H.get c = some n := by
    simpa [shape, isSome_iff_exists] using hc
  refine ⟨H.set c { n with parent := some x.node, parent_idx := i }, ?_, rfl, ?_, ?_⟩
  · simp [Handle.correct_parent_link, NodeRef.descend_spec hx he, NodeRef.set_parent_link, hn]
  · rw [shape_set]
    exact update_eq_self_iff.mpr (shape_of_get hn).symm
  · simp

theorem correct_childrens_parent_links_spec {x : NodeRef} {range : List ℕ}
    (hh : 0 < x.height)
    (hinj : ∀ i j c, H.edge x.node i = some c → H.edge x.node j = some c → i = j)
    (hrange : ∀ i ∈ range, i ≤ (H.kvs x.node).length ∧
      ∃ c, H.edge x.node i = some c ∧ (H.shape c).isSome) :
    ∃ H', x.correct_childrens_parent_links H range = some H'
      ∧ Relinked H H' x.node (· ∈ range) := by
  induction range generalizing H with
  | nil => exact ⟨H, rfl, rfl, rfl, by simp, by simp⟩
  | cons i range ih =>
    obtain ⟨hi, c, he, hs⟩ := hrange i mem_cons_self
    obtain ⟨H1, h1, hf1, hs1, hl1⟩ := correct_parent_link_spec hh he hs
    have hedge : ∀ p j, H1.edge p j = H.edge p j := fun p j => edge_congr (by rw [hs1]) j
    have hkvs : ∀ p, H1.kvs p = H.kvs p := fun p => kvs_congr (by rw [hs1])
    obtain ⟨H2, h2, hr⟩ := ih (H := H1) (by simpa only [hedge] using hinj) fun j hj => by
      simpa only [hedge, hs1, hkvs] using hrange j (mem_cons_of_mem _ hj)
    refine ⟨H2, ?_, hr.fresh.trans hf1, hr.shape.trans hs1, fun j d hj hd => ?_, fun d hd => ?_⟩
    · simp [NodeRef.correct_childrens_parent_links,
        NodeRef.new_edge_spec (shape_of_edge he) hi, h1, h2]
    · by_cases hmem : j ∈ range
      · exact hr.link_in j d hmem (by rw [hedge]; exact hd)
      · obtain rfl : j = i := (mem_cons.mp hj).resolve_right hmem
        obtain rfl : c = d := some.inj (he.symm.trans hd)
        rw [hr.link_out c, hl1, update_self]
        intro k hk hkc
        rw [hedge] at hkc
        exact hmem (hinj _ _ _ hkc he ▸ hk)
    · rw [hr.link_out d, hl1, update_of_ne]
      · rintro rfl
        exact hd i mem_cons_self he
      · intro k hk
        rw [hedge]
        exact hd k (mem_cons_of_mem _ hk)

variable {H' : Heap K V}

/-- **Moved edges.** The nodes are a forest again when every child in `C`, which may have changed
its place, has its new link or none. -/
theorem Forest.of_moved {ht ht' : ℕ → ℕ} (F : Forest H ht) (C : ℕ → Prop)
    (hinj : ∀ p i p' i' c, H'.edge p i = some c → H'.edge p' i' = some c → p = p' ∧ i = i')
    (hmoved : ∀ c, C c → (∃ p i, H'.edge p i = some c ∧ H'.link c = some (p, i))
      ∨ (H'.link c = none ∧ ∀ p i, H'.edge p i ≠ some c))
    (hkept : ∀ c, ¬ C c → H'.link c = H.link c ∧ ∀ p i, H'.edge p i = some c ↔ H.edge p i = some c)
    (hht : ∀ p i c, H'.edge p i = some c → ht' p = ht' c + 1)
    (hshape : ∀ p ks es, H'.shape p = some (ks, es) → H.shape p = some (ks, es) ∧ ht' p = ht p
      ∨ (es.length = if ht' p = 0 then 0 else ks.length + 1) ∧ ks.length ≤ CAPACITY
        ∧ p < H'.fresh ∧ ht' p < H'.fresh)
    (hfresh : H.fresh ≤ H'.fresh) : Forest H' ht' := by
  refine ⟨fun p i c => ?_, hht, fun p ks es h => ?_, fun p ks es h => ?_, fun p s h => ?_⟩
  · by_cases hc : C c
    · rcases hmoved c hc with ⟨p', i', he, hl⟩ | ⟨hl, hne⟩
      · refine ⟨fun h => ?_, fun h => ?_⟩
        · obtain ⟨rfl, rfl⟩ := hinj _ _ _ _ _ h he
          exact hl
        · rw [hl] at h
          simp only [some.injEq, Prod.mk.injEq] at h
          obtain ⟨rfl, rfl⟩ := h
          exact he
      · simp [hl, hne]
    · rw [(hkept c hc).1, (hkept c hc).2, F.edge_iff]
  · rcases hshape p ks es h with ⟨hs, hp⟩ | hs
    · rw [hp]
      exact F.edges_length p ks es hs
    · exact hs.1
  · rcases hshape p ks es h with ⟨hs, -⟩ | hs
    · exact F.le_capacity p ks es hs
    · exact hs.2.1
  · rcases hshape p s.1 s.2 h with ⟨hs, hp⟩ | hs
    · have := F.lt_fresh p _ hs
      omega
    · exact hs.2.2

/-- All children of a node are linked to it. -/
def Linked (H : Heap K V) (p : ℕ) : Prop := ∀ i c, H.edge p i = some c → H.link c = some (p, i)

/-- The children whose link is not corrected were linked before. -/
theorem Relinked.linked {p : ℕ} {I : ℕ → Prop} (h : Relinked H H' p I)
    (hinj : ∀ i j c, H.edge p i = some c → H.edge p j = some c → i = j)
    (hrest : ∀ i c, ¬ I i → H.edge p i = some c → H.link c = some (p, i)) : Linked H' p := by
  intro i c hc
  rw [edge_congr (congrFun h.shape p)] at hc
  by_cases hi : I i
  · exact h.link_in i c hi hc
  · rw [h.link_out c]
    · exact hrest i c hi hc
    · intro j hj hcj
      exact hi (hinj _ _ _ hcj hc ▸ hj)

theorem Heap.mem_edges {p c : ℕ} : c ∈ H.edges p ↔ ∃ i, H.edge p i = some c :=
  mem_iff_getElem?

/-- **Regrouped children.** The nodes in `S` have exchanged their children and may have lost some,
which have no parent any more. When all their children are linked, the nodes are a forest again. -/
theorem Forest.regroup {ht : ℕ → ℕ} (F : Forest H ht) (S : ℕ → Prop)
    (hfresh : H'.fresh = H.fresh) (hsame : ∀ q, ¬ S q → H'.shape q = H.shape q)
    (hlinked : ∀ q, S q → Linked H' q)
    (hold : ∀ q c, S q → c ∈ H'.edges q → ht q = ht c + 1 ∧ ∃ p, S p ∧ c ∈ H.edges p)
    (hgone : ∀ p c, S p → c ∈ H.edges p → (∃ q, S q ∧ c ∈ H'.edges q) ∨ H'.link c = none)
    (hkept : ∀ c, (∀ q, S q → c ∉ H'.edges q) → (∀ p, S p → c ∉ H.edges p) → H'.link c = H.link c)
    (hnode : ∀ q ks es, S q → H'.shape q = some (ks, es) → (H.shape q).isSome ∧
      (es.length = if ht q = 0 then 0 else ks.length + 1) ∧ ks.length ≤ CAPACITY) :
    Forest H' ht := by
  have hparent : ∀ q c j p, H.edge q j = some c → c ∈ H.edges p → q = p := by
    intro q c j p hj hc
    obtain ⟨i, hi⟩ := mem_edges.mp hc
    exact (F.edge_injective hi hj).1
  refine ⟨fun q j c => ⟨fun h => ?_, fun h => ?_⟩, fun q j c h => ?_, fun q ks es h => ?_,
    fun q ks es h => ?_, fun q s h => ?_⟩
  · by_cases hq : S q
    · exact hlinked q hq j c h
    · rw [edge_congr (hsame q hq)] at h
      have hnot : ∀ p, S p → c ∉ H.edges p := fun p hp hc => hq (hparent q c j p h hc ▸ hp)
      rw [hkept c (fun p hp hc => ?_) hnot]
      · exact F.link h
      · obtain ⟨-, p', hp', hc'⟩ := hold p c hp hc
        exact hnot p' hp' hc'
  · by_cases hnew : ∃ p, S p ∧ c ∈ H'.edges p
    · obtain ⟨p, hp, hc⟩ := hnew
      obtain ⟨i, hi⟩ := mem_edges.mp hc
      have heq := (hlinked p hp i c hi).symm.trans h
      simp only [some.injEq, Prod.mk.injEq] at heq
      obtain ⟨rfl, rfl⟩ := heq
      exact hi
    · have hnot : ∀ p, S p → c ∉ H.edges p := by
        intro p hp hc
        rcases hgone p c hp hc with ⟨q', hq', hc'⟩ | hnone
        · exact hnew ⟨q', hq', hc'⟩
        · rw [hnone] at h
          exact absurd h nofun
      rw [hkept c (fun p hp hc => hnew ⟨p, hp, hc⟩) hnot] at h
      have he := F.edge h
      have hq : ¬ S q := fun hq => hnot q hq (mem_edges.mpr ⟨j, he⟩)
      rwa [edge_congr (hsame q hq)]
  · by_cases hq : S q
    · exact (hold q c hq (mem_edges.mpr ⟨j, h⟩)).1
    · rw [edge_congr (hsame q hq)] at h
      exact F.ht_edge q j c h
  · by_cases hq : S q
    · exact (hnode q ks es hq h).2.1
    · exact F.edges_length q ks es (hsame q hq ▸ h)
  · by_cases hq : S q
    · exact (hnode q ks es hq h).2.2
    · exact F.le_capacity q ks es (hsame q hq ▸ h)
  · rw [hfresh]
    by_cases hq : S q
    · obtain ⟨s', hs'⟩ := isSome_iff_exists.mp (hnode q s.1 s.2 hq h).1
      exact F.lt_fresh q s' hs'
    · exact F.lt_fresh q s (hsame q hq ▸ h)

end RustStd.BTree
