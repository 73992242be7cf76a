import RustStd.BTree.Links

/-!
# Merging two children

A merge moves a pair of the parent and all of the right child to the left child. It leaves a forest
(`do_merge_spec`): the children that moved are linked to their new parent, and those of the parent
after the gap to their new index.
-/

namespace RustStd.BTree

open List Function Option Heap

variable {K V : Type} {H H' : Heap K V} {ht : ℕ → ℕ} {h p i l r : ℕ} {kv : K × V}

theorem slice_remove_spec {α : Type} {xs : List α} {i : ℕ} {a : α} (h : xs[i]? = some a) :
    slice_remove xs i = some (a, xs.eraseIdx i) := by
  simp [slice_remove, h]

variable (F : Forest H ht)
include F

/-- The children of a node are different nodes. -/
theorem Forest.nodup_edges (p : ℕ) : (H.edges p).Nodup := by
  refine nodup_iff_getElem?_ne_getElem?.mpr fun i j hij hj heq => ?_
  have hi := getElem?_eq_getElem (hij.trans hj)
  have := (F.edge_injective (p := p) (i := i) hi (heq ▸ hi)).2
  lia

/-- Different nodes have different children. -/
theorem Forest.not_mem_edges {p q c : ℕ} (hne : p ≠ q) (hc : c ∈ H.edges p) : c ∉ H.edges q := by
  intro hc'
  obtain ⟨i, hi⟩ := mem_edges.mp hc
  obtain ⟨j, hj⟩ := mem_edges.mp hc'
  exact hne (F.edge_injective hj hi).1

theorem Forest.ht_mem {p c : ℕ} (hc : c ∈ H.edges p) : ht p = ht c + 1 := by
  obtain ⟨i, hi⟩ := mem_edges.mp hc
  exact F.ht_edge p i c hi

theorem Forest.isSome_child {p c : ℕ} (hc : c ∈ H.edges p) : (H.shape c).isSome := by
  obtain ⟨i, hi⟩ := mem_edges.mp hc
  rw [F.shape_child hi]
  rfl

omit F

theorem edge_injective_of_nodup (h : (H.edges p).Nodup) (i j c : ℕ) (hi : H.edge p i = some c)
    (hj : H.edge p j = some c) : i = j := by
  obtain ⟨hlt, -⟩ := List.getElem?_eq_some_iff.mp hi
  exact (getElem?_inj hlt h).mp (hi.trans hj.symm)

/-- Correcting the links of the children from an index on, when those before are linked. -/
theorem relink_from {x : NodeRef} {a : ℕ} (hh : 0 < x.height) (hnd : (H.edges x.node).Nodup)
    (hlen : (H.edges x.node).length ≤ (H.kvs x.node).length + 1)
    (hchild : ∀ c ∈ H.edges x.node, (H.shape c).isSome)
    (hrest : ∀ j c, j < a → H.edge x.node j = some c → H.link c = some (x.node, j)) :
    ∃ H', x.correct_childrens_parent_links H
        (range' a ((H.edges x.node).length - a)) = some H' ∧
      H'.fresh = H.fresh ∧ H'.shape = H.shape ∧ Linked H' x.node ∧
      ∀ c, c ∉ H.edges x.node → H'.link c = H.link c := by
  have hinj := edge_injective_of_nodup hnd
  obtain ⟨H', h', hr⟩ := @correct_childrens_parent_links_spec _ _ H x
    (range' a ((H.edges x.node).length - a)) hh hinj (by
      intro j hj
      have hj' := mem_range'_1.mp hj
      have hc := getElem?_eq_getElem (l := H.edges x.node) (i := j) (by lia)
      exact ⟨by lia, _, hc, hchild _ (mem_of_getElem? hc)⟩)
  refine ⟨H', h', hr.fresh, hr.shape, hr.linked hinj fun j c hj hc => ?_, fun c hc => ?_⟩
  · obtain ⟨hlt, -⟩ := List.getElem?_eq_some_iff.mp hc
    refine hrest j c (Nat.lt_of_not_le fun hle => hj ?_) hc
    exact mem_range'_1.mpr (by lia)
  · exact hr.link_out c fun j _ hj => hc (mem_of_getElem? hj)

/-! ## Siblings -/

/-- The parent `p`, its pair `kv` at `i` and its children `l` and `r` beside that pair. -/
structure Siblings (H : Heap K V) (ht : ℕ → ℕ) (h p i l r : ℕ) (kv : K × V) : Prop where
  parent : NodeRef.Valid H ht ⟨h + 1, p⟩
  left : H.edge p i = some l
  right : H.edge p (i + 1) = some r
  pair : (H.kvs p)[i]? = some kv

/-- What a merge does. -/
structure Merged (H H' : Heap K V) (ht : ℕ → ℕ) (p i l r : ℕ) (kv : K × V) : Prop where
  fresh : H'.fresh = H.fresh
  shape : H'.shape = update (update (update H.shape
    p (some ((H.kvs p).eraseIdx i, (H.edges p).eraseIdx (i + 1))))
    l (some (H.kvs l ++ kv :: H.kvs r, H.edges l ++ H.edges r))) r none
  forest : Forest H' ht
  link_none : ∀ c, H'.link c = none ↔ H.link c = none ∨ c = r

namespace Siblings

theorem index_lt (S : Siblings H ht h p i l r kv) : i < (H.kvs p).length :=
  (List.getElem?_eq_some_iff.mp S.pair).1

variable (S : Siblings H ht h p i l r kv) (F : Forest H ht)
include S F

theorem left_ne_right : l ≠ r := by
  rintro rfl
  have := (F.edge_injective S.left S.right).2
  lia

theorem parent_ne_left : p ≠ l := (F.ne_of_edge S.left).symm

theorem parent_ne_right : p ≠ r := (F.ne_of_edge S.right).symm

theorem left_valid : NodeRef.Valid H ht ⟨h, l⟩ := F.child_valid S.left S.parent.2

theorem right_valid : NodeRef.Valid H ht ⟨h, r⟩ := F.child_valid S.right S.parent.2

theorem edges_length : (H.edges p).length = (H.kvs p).length + 1 := F.edges_length' S.left

/-- The children without the right one of the two. -/
theorem mem_eraseIdx (c : ℕ) : c ∈ (H.edges p).eraseIdx (i + 1) ↔ c ∈ H.edges p ∧ c ≠ r := by
  have hr : (H.edges p)[i + 1]? = some r := S.right
  have hnd := F.nodup_edges p
  rw [mem_eraseIdx_iff_getElem?]
  constructor
  · rintro ⟨j, hj, hc⟩
    refine ⟨mem_of_getElem? hc, ?_⟩
    rintro rfl
    exact hj (edge_injective_of_nodup hnd j (i + 1) c hc hr)
  · rintro ⟨hc, hne⟩
    obtain ⟨j, hj⟩ := mem_iff_getElem?.mp hc
    refine ⟨j, ?_, hj⟩
    rintro rfl
    exact hne (some.inj (hj.symm.trans hr))

theorem edges_left : (H.edges l).length = if h = 0 then 0 else (H.kvs l).length + 1 := by
  have hl := F.edges_length l _ _ (S.left_valid F).1
  rwa [(S.left_valid F).2] at hl

theorem edges_right : (H.edges r).length = if h = 0 then 0 else (H.kvs r).length + 1 := by
  have hr := F.edges_length r _ _ (S.right_valid F).1
  rwa [(S.right_valid F).2] at hr

end Siblings

namespace Merged

variable (F : Forest H ht) (S : Siblings H ht h p i l r kv) (M : Merged H H' ht p i l r kv)

include F S M in
theorem shape_parent : H'.shape p = some ((H.kvs p).eraseIdx i, (H.edges p).eraseIdx (i + 1)) := by
  rw [M.shape, update_of_ne (S.parent_ne_right F), update_of_ne (S.parent_ne_left F), update_self]

include F S M in
theorem shape_left : H'.shape l = some (H.kvs l ++ kv :: H.kvs r, H.edges l ++ H.edges r) := by
  rw [M.shape, update_of_ne (S.left_ne_right F), update_self]

include M in
theorem shape_right : H'.shape r = none := by rw [M.shape, update_self]

include M in
theorem same {q : ℕ} (hp : q ≠ p) (hl : q ≠ l) (hr : q ≠ r) : H'.shape q = H.shape q := by
  rw [M.shape, update_of_ne hr, update_of_ne hl, update_of_ne hp]

end Merged

/-- A forest, from the links after a merge. -/
theorem Merged.of_links (F : Forest H ht) (S : Siblings H ht h p i l r kv)
    (hcap : (H.kvs l).length + 1 + (H.kvs r).length ≤ CAPACITY) (hfresh : H'.fresh = H.fresh)
    (hshape : H'.shape = update (update (update H.shape
      p (some ((H.kvs p).eraseIdx i, (H.edges p).eraseIdx (i + 1))))
      l (some (H.kvs l ++ kv :: H.kvs r, H.edges l ++ H.edges r))) r none)
    (hp : Linked H' p) (hl : Linked H' l) (hr : H'.link r = none)
    (hout : ∀ c, c ∉ H'.edges p → c ∉ H'.edges l → c ≠ r → H'.link c = H.link c) :
    Merged H H' ht p i l r kv := by
  have hpl := S.parent_ne_left F
  have hpr := S.parent_ne_right F
  have hlr := S.left_ne_right F
  have hsp : H'.shape p = some ((H.kvs p).eraseIdx i, (H.edges p).eraseIdx (i + 1)) := by
    rw [hshape, update_of_ne hpr, update_of_ne hpl, update_self]
  have hsl : H'.shape l = some (H.kvs l ++ kv :: H.kvs r, H.edges l ++ H.edges r) := by
    rw [hshape, update_of_ne hlr, update_self]
  have hsr : H'.shape r = none := by rw [hshape, update_self]
  have hso : ∀ q, q ≠ p → q ≠ l → q ≠ r → H'.shape q = H.shape q := by
    intro q hqp hql hqr
    rw [hshape, update_of_ne hqr, update_of_ne hql, update_of_ne hqp]
  have hep : H'.edges p = (H.edges p).eraseIdx (i + 1) := edges_of_shape hsp
  have hel : H'.edges l = H.edges l ++ H.edges r := edges_of_shape hsl
  have her : H'.edges r = [] := by
    unfold edges
    rw [hsr]
    rfl
  have hmem_p : ∀ c, c ∈ H'.edges p ↔ c ∈ H.edges p ∧ c ≠ r := by
    rw [hep]
    exact S.mem_eraseIdx F
  have hmem_l : ∀ c, c ∈ H'.edges l ↔ c ∈ H.edges l ∨ c ∈ H.edges r := by
    intro c
    rw [hel, mem_append]
  have hr_p : r ∈ H.edges p := mem_of_getElem? S.right
  have hhp : ht p = h + 1 := S.parent.2
  have hhl : ht l = h := (S.left_valid F).2
  have hhr : ht r = h := (S.right_valid F).2
  have hlen_p := S.edges_length F
  have hlen_l := S.edges_left F
  have hlen_r := S.edges_right F
  have hi := S.index_lt
  have hcap_p : (H.kvs p).length ≤ CAPACITY := F.le_capacity p _ _ S.parent.1
  have hforest : Forest H' ht := by
    refine F.regroup (fun q => q = p ∨ q = l ∨ q = r) hfresh (fun q hq => ?_) ?_ ?_ ?_
      (fun c hnew holds => ?_) ?_
    · simp only [not_or] at hq
      exact hso q hq.1 hq.2.1 hq.2.2
    · rintro q (rfl | rfl | rfl)
      · exact hp
      · exact hl
      · intro j c hc
        rw [edge, her] at hc
        exact absurd hc nofun
    · rintro q c (rfl | rfl | rfl) hc
      · rw [hmem_p] at hc
        exact ⟨F.ht_mem hc.1, q, .inl rfl, hc.1⟩
      · rw [hmem_l] at hc
        rcases hc with hc | hc
        · exact ⟨F.ht_mem hc, q, .inr (.inl rfl), hc⟩
        · have hht := F.ht_mem hc
          exact ⟨by lia, r, .inr (.inr rfl), hc⟩
      · rw [her] at hc
        exact absurd hc not_mem_nil
    · rintro q c (rfl | rfl | rfl) hc
      · by_cases hcr : c = r
        · exact .inr (hcr ▸ hr)
        · exact .inl ⟨q, .inl rfl, (hmem_p c).mpr ⟨hc, hcr⟩⟩
      · exact .inl ⟨q, .inr (.inl rfl), (hmem_l c).mpr (.inl hc)⟩
      · exact .inl ⟨l, .inr (.inl rfl), (hmem_l c).mpr (.inr hc)⟩
    · exact hout c (hnew p (.inl rfl)) (hnew l (.inr (.inl rfl)))
        fun hcr => holds p (.inl rfl) (hcr ▸ hr_p)
    · rintro q ks es (rfl | rfl | rfl) hq
      · rw [hsp] at hq
        simp only [some.injEq, Prod.mk.injEq] at hq
        obtain ⟨rfl, rfl⟩ := hq
        rw [S.parent.1, hhp, if_neg (Nat.succ_ne_zero h), length_eraseIdx_of_lt (by lia),
          length_eraseIdx_of_lt hi]
        exact ⟨rfl, by lia, by lia⟩
      · rw [hsl] at hq
        simp only [some.injEq, Prod.mk.injEq] at hq
        obtain ⟨rfl, rfl⟩ := hq
        rw [(S.left_valid F).1, hhl, length_append, length_append, length_cons]
        refine ⟨rfl, ?_, by lia⟩
        split_ifs at hlen_l hlen_r ⊢ <;> lia
      · rw [hsr] at hq
        exact absurd hq nofun
  refine ⟨hfresh, hshape, hforest, fun c => ?_⟩
  by_cases hcr : c = r
  · subst hcr
    exact iff_of_true hr (.inr rfl)
  rw [or_iff_left hcr]
  by_cases hc : c ∈ H'.edges p ∨ c ∈ H'.edges l
  · obtain ⟨q, hq, hlinked, hold⟩ : ∃ q, c ∈ H'.edges q ∧ Linked H' q ∧ ∃ q', c ∈ H.edges q' := by
      rcases hc with hc | hc
      · exact ⟨p, hc, hp, p, ((hmem_p c).mp hc).1⟩
      · exact ⟨l, hc, hl, ((hmem_l c).mp hc).elim (fun h => ⟨l, h⟩) fun h => ⟨r, h⟩⟩
    obtain ⟨j, hj⟩ := mem_edges.mp hq
    obtain ⟨q', hq'⟩ := hold
    obtain ⟨j', hj'⟩ := mem_edges.mp hq'
    rw [hlinked j c hj, F.link hj']
    exact iff_of_false nofun nofun
  · rw [not_or] at hc
    rw [hout c hc.1 hc.2 hcr]

/-- The context for two siblings. -/
def Siblings.context (h p i l r : ℕ) : BalancingContext := ⟨⟨⟨h + 1, p⟩, i⟩, ⟨h, l⟩, ⟨h, r⟩⟩

open Siblings (context)

/-- The parent without the pair and the right child, and the left child with all pairs. -/
theorem merge_pairs_spec (F : Forest H ht) (S : Siblings H ht h p i l r kv) {np nl : Node K V}
    (hnp : H.get p = some np) (hnl : H.get l = some nl) :
    let H2 := (H.set l { nl with kvs := H.kvs l ++ kv :: H.kvs r }).set p
      { np with edges := (H.edges p).eraseIdx (i + 1) }
    ∃ H3 n3, NodeRef.correct_childrens_parent_links ⟨h + 1, p⟩ H2
        (range' (i + 1) ((H.kvs p).length - (i + 1))) = some H3 ∧
      H3.get p = some n3 ∧
      let H4 := H3.set p { n3 with kvs := (H.kvs p).eraseIdx i }
      H4.fresh = H.fresh ∧
      H4.shape = update (update H.shape
        p (some ((H.kvs p).eraseIdx i, (H.edges p).eraseIdx (i + 1))))
        l (some (H.kvs l ++ kv :: H.kvs r, H.edges l)) ∧
      Linked H4 p ∧ ∀ c, c ∉ (H.edges p).eraseIdx (i + 1) → H4.link c = H.link c := by
  intro H2
  have hpl := S.parent_ne_left F
  have hi := S.index_lt
  have hlen_p := S.edges_length F
  have hs2 : H2.shape = update (update H.shape l (some (H.kvs l ++ kv :: H.kvs r, H.edges l)))
      p (some (H.kvs p, (H.edges p).eraseIdx (i + 1))) := by
    have hkp := kvs_of_shape (shape_of_get hnp)
    have hel := edges_of_shape (shape_of_get hnl)
    simp only [H2, shape_set, hkp, hel]
  have hl2 : H2.link = H.link := by
    have hget : (H.set l { nl with kvs := H.kvs l ++ kv :: H.kvs r }).get p = some np :=
      (get_set_of_ne hpl).trans hnp
    exact (link_set_of_get hget).trans (link_set_of_get hnl)
  have hk2 : H2.kvs p = H.kvs p := kvs_of_shape (by rw [hs2, update_self])
  have he2 : H2.edges p = (H.edges p).eraseIdx (i + 1) :=
    edges_of_shape (by rw [hs2, update_self])
  have hnd2 : (H2.edges p).Nodup := he2 ▸ (F.nodup_edges p).sublist (eraseIdx_sublist _ _)
  have hlen2 : (H2.edges p).length = (H.kvs p).length := by
    rw [he2, length_eraseIdx_of_lt (by lia)]
    lia
  obtain ⟨H3, h3, hf3, hs3, hlinked3, hout3⟩ := @relink_from _ _ H2 ⟨h + 1, p⟩ (i + 1)
    (Nat.succ_pos h) hnd2 (by rw [hlen2, hk2]; exact Nat.le_succ _)
    (by
      intro c hc
      rw [he2, S.mem_eraseIdx F] at hc
      rw [hs2]
      exact isSome_update (isSome_update (F.isSome_child hc.1) _ _) _ _)
    (by
      intro j c hj hc
      rw [edge, he2, getElem?_eraseIdx_of_lt hj] at hc
      rw [hl2]
      exact F.link hc)
  rw [hlen2] at h3
  have hs3' : H3.shape p = some (H.kvs p, (H.edges p).eraseIdx (i + 1)) := by
    rw [hs3, hs2, update_self]
  obtain ⟨n3, hn3, -, hen3⟩ := get_of_shape hs3'
  refine ⟨H3, n3, h3, hn3, hf3, ?_, ?_, fun c hc => ?_⟩
  · rw [shape_set, hs3, hs2, hen3, update_idem, update_comm hpl]
  · intro j c hc
    rw [link_set_of_get hn3]
    refine hlinked3 j c ?_
    rw [edge, edges_of_shape hs3']
    rwa [edge, edges_of_shape (by rw [shape_set, update_self]), hen3] at hc
  · rw [link_set_of_get hn3, hout3 c (he2 ▸ hc), hl2]

/-- The left child with the edges of the right one, above the leaves. -/
theorem merge_edges_spec (F : Forest H ht) (S : Siblings H ht h p i l r kv) {H4 : Heap K V}
    {es : List ℕ} (her : es = H.edges r)
    (hs4 : H4.shape = update (update H.shape
      p (some ((H.kvs p).eraseIdx i, (H.edges p).eraseIdx (i + 1))))
      l (some (H.kvs l ++ kv :: H.kvs r, H.edges l)))
    (hout4 : ∀ c, c ∉ (H.edges p).eraseIdx (i + 1) → H4.link c = H.link c) :
    ∃ n4 H5, H4.get l = some n4 ∧ (if h + 1 > 1 then NodeRef.correct_childrens_parent_links ⟨h, l⟩
        (H4.set l { n4 with edges := n4.edges ++ es })
        (range' ((H.kvs l).length + 1)
          ((H.kvs l).length + 1 + (H.kvs r).length + 1 - ((H.kvs l).length + 1)))
        else some H4) = some H5 ∧ H5.fresh = H4.fresh ∧
      H5.shape = update H4.shape
        l (some (H.kvs l ++ kv :: H.kvs r, H.edges l ++ H.edges r)) ∧
      Linked H5 l ∧ ∀ c, c ∉ H.edges l ++ H.edges r → H5.link c = H4.link c := by
  have hpl := S.parent_ne_left F
  have hpr := S.parent_ne_right F
  have hlr := S.left_ne_right F
  have hlen_l := S.edges_left F
  have hlen_r := S.edges_right F
  have hsl4 : H4.shape l = some (H.kvs l ++ kv :: H.kvs r, H.edges l) := by
    rw [hs4, update_self]
  obtain ⟨n4, hn4, hkn4, hen4⟩ := get_of_shape hsl4
  rcases Nat.eq_zero_or_pos h with h0 | hpos
  · have hnil_l : H.edges l = [] := length_eq_zero_iff.mp (by rw [hlen_l, if_pos h0])
    have hnil_r : H.edges r = [] := length_eq_zero_iff.mp (by rw [hlen_r, if_pos h0])
    refine ⟨n4, H4, hn4, if_neg (by lia), rfl, ?_, fun j c hc => ?_, fun _ _ => rfl⟩
    · rw [hnil_l, hnil_r, append_nil]
      exact (update_eq_self_iff.mpr (hsl4.trans (by rw [hnil_l])).symm).symm
    · rw [edge, edges_of_shape hsl4, hnil_l] at hc
      exact absurd hc nofun
  set H5 := H4.set l { n4 with edges := n4.edges ++ es } with hH5
  have hs5 : H5.shape = update H4.shape
      l (some (H.kvs l ++ kv :: H.kvs r, H.edges l ++ H.edges r)) := by
    rw [hH5, shape_set, hkn4, hen4, her]
  have hsl5 : H5.shape l = some (H.kvs l ++ kv :: H.kvs r, H.edges l ++ H.edges r) := by
    rw [hs5, update_self]
  have he5 : H5.edges l = H.edges l ++ H.edges r := edges_of_shape hsl5
  have hk5 : H5.kvs l = H.kvs l ++ kv :: H.kvs r := kvs_of_shape hsl5
  have hl5 : H5.link = H4.link := link_set_of_get hn4
  have hne_p : ∀ c, c ∈ H.edges l ++ H.edges r → c ∉ (H.edges p).eraseIdx (i + 1) := by
    intro c hc hcp
    have hcp' := ((S.mem_eraseIdx F c).mp hcp).1
    rcases mem_append.mp hc with hc | hc
    · exact F.not_mem_edges hpl hcp' hc
    · exact F.not_mem_edges hpr hcp' hc
  obtain ⟨H6, h6, hf6, hs6, hlinked6, hout6⟩ := @relink_from _ _ H5 ⟨h, l⟩
    ((H.kvs l).length + 1) hpos
    (by
      rw [he5]
      exact List.Nodup.append (F.nodup_edges l) (F.nodup_edges r)
        fun c hc => F.not_mem_edges hlr hc)
    (by
      rw [he5, hk5, length_append, length_append, length_cons, hlen_l, hlen_r,
        if_neg (by lia), if_neg (by lia)]
      lia)
    (by
      intro c hc
      rw [he5] at hc
      have hsome : (H.shape c).isSome :=
        (mem_append.mp hc).elim F.isSome_child F.isSome_child
      rw [hs5, hs4]
      exact isSome_update (isSome_update (isSome_update hsome _ _) _ _) _ _)
    (by
      intro j c hj hc
      have hc' : H.edge l j = some c := by
        rw [edge, he5, getElem?_append_left (by
          rw [hlen_l, if_neg (by lia)]; exact hj)] at hc
        exact hc
      rw [hl5, hout4 c (hne_p c (mem_append_left _ (mem_edges.mpr ⟨j, hc'⟩)))]
      exact F.link hc')
  refine ⟨n4, H6, hn4, ?_, hf6, hs6.trans hs5, hlinked6, fun c hc => ?_⟩
  · rw [if_pos (by lia), ← h6]
    congr 2
    rw [he5, length_append, hlen_l, hlen_r, if_neg (by lia), if_neg (by lia)]
    lia
  · rw [hout6 c (by rw [he5]; exact hc), hl5]

/-- Parent pair and right child go to the left child; the right one is freed. -/
theorem do_merge_spec (F : Forest H ht) (S : Siblings H ht h p i l r kv)
    (hcap : (H.kvs l).length + 1 + (H.kvs r).length ≤ CAPACITY) :
    ∃ H', (context h p i l r).do_merge H = some (H', ⟨h + 1, p⟩, ⟨h, l⟩) ∧
      Merged H H' ht p i l r kv := by
  obtain ⟨np, hnp, hkp, hep⟩ := get_of_shape S.parent.1
  obtain ⟨nl, hnl, hkl, hel⟩ := get_of_shape (S.left_valid F).1
  obtain ⟨nr, hnr, hkr, her⟩ := get_of_shape (S.right_valid F).1
  have hpl := S.parent_ne_left F
  have hpr := S.parent_ne_right F
  have hlr := S.left_ne_right F
  obtain ⟨H3, n3, h3, hn3, hf4, hs4, hlinked4, hout4⟩ := merge_pairs_spec F S hnp hnl
  set H4 := H3.set p { n3 with kvs := (H.kvs p).eraseIdx i } with hH4
  obtain ⟨n4, H5, hn4, h5, hf5, hs5, hlinked5, hout5⟩ := merge_edges_spec F S her hs4 hout4
  have hedges : ∀ q, q ≠ r → (H5.deallocate r).edges q = H5.edges q := by
    intro q hq
    refine edges_congr ?_
    rw [shape_deallocate, update_of_ne hq]
  have hlink : ∀ c, c ≠ r → (H5.deallocate r).link c = H5.link c := by
    intro c hc
    rw [link_deallocate, update_of_ne hc]
  have hep5 : H5.edges p = (H.edges p).eraseIdx (i + 1) := by
    have hsp : H5.shape p = some ((H.kvs p).eraseIdx i, (H.edges p).eraseIdx (i + 1)) := by
      rw [hs5, hs4, update_idem, update_of_ne hpl, update_self]
    exact edges_of_shape hsp
  have hel5 : H5.edges l = H.edges l ++ H.edges r :=
    edges_of_shape (by rw [hs5, update_self])
  have hdisj : ∀ c, c ∈ (H.edges p).eraseIdx (i + 1) → c ≠ r ∧ c ∉ H.edges l ++ H.edges r := by
    intro c hc
    obtain ⟨hcp, hcr⟩ := (S.mem_eraseIdx F c).mp hc
    refine ⟨hcr, fun hc' => ?_⟩
    rcases mem_append.mp hc' with hc' | hc'
    · exact F.not_mem_edges hpl hcp hc'
    · exact F.not_mem_edges hpr hcp hc'
  have hr_l : r ∉ H.edges l ++ H.edges r := by
    have hr_p : r ∈ H.edges p := mem_of_getElem? S.right
    rw [mem_append, not_or]
    exact ⟨F.not_mem_edges hpl hr_p, F.not_mem_edges hpr hr_p⟩
  refine ⟨H5.deallocate r, ?_, .of_links F S hcap (hf5.trans hf4) ?_ (fun j c hc => ?_)
    (fun j c hc => ?_) ?_ fun c hp hl hr => ?_⟩
  · have hassert : (H.kvs l).length + 1 + (H.kvs r).length ≤ CAPACITY := hcap
    have hrem_k := slice_remove_spec S.pair
    have hrem_e := slice_remove_spec (show (H.edges p)[i + 1]? = some r from S.right)
    rw [hkp] at h3
    simp only [BalancingContext.do_merge, context, hnp, hnl, hnr, hkp, hep, hkl, hkr,
      some_bind, assert_some hassert, hrem_k, hrem_e, h3, hn3]
    rw [← hH4, hn4]
    by_cases hh : h + 1 > 1
    · rw [if_pos hh] at h5 ⊢
      rw [some_bind, h5]
      rfl
    · rw [if_neg hh] at h5 ⊢
      rw [some.inj h5]
  · rw [shape_deallocate, hs5, hs4, update_idem]
  · rw [edge, hedges p hpr, hep5] at hc
    obtain ⟨hcr, hcl⟩ := hdisj c (mem_of_getElem? hc)
    rw [hlink c hcr, hout5 c hcl]
    have hsp : H4.shape p = some ((H.kvs p).eraseIdx i, (H.edges p).eraseIdx (i + 1)) := by
      rw [hs4, update_of_ne hpl, update_self]
    refine hlinked4 j c ?_
    rwa [edge, edges_of_shape hsp]
  · rw [edge, hedges l hlr] at hc
    have hcl : c ∈ H.edges l ++ H.edges r := by
      rw [← hel5]
      exact mem_of_getElem? hc
    rw [hlink c (ne_of_mem_of_not_mem hcl hr_l)]
    exact hlinked5 j c hc
  · rw [link_deallocate, update_self]
  · rw [hedges p hpr, hep5] at hp
    rw [hedges l hlr, hel5] at hl
    rw [hlink c hr, hout5 c hl, hout4 c hp]

end RustStd.BTree
