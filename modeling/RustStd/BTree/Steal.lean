import RustStd.BTree.Merge

/-!
# Stealing from a sibling

Stealing moves pairs from one child over the parent to the other child, with as many edges. It
leaves a forest in which the two children hold together what they held before
(`bulk_steal_left_spec`, `bulk_steal_right_spec`).
-/

namespace RustStd.BTree

open List Function Nat Heap BalancingContext

variable {K V : Type} {H H' : Heap K V} {ht : ℕ → ℕ} {h p i l r : ℕ} {kv : K × V}

open Siblings (context)

/-- What stealing does: the pairs and the edges of the two children, with the pair of the parent,
are divided in another way. -/
structure Shared (H H' : Heap K V) (ht : ℕ → ℕ) (p i l r : ℕ) (kv : K × V)
    (kl : List (K × V)) (kv' : K × V) (kr : List (K × V)) (el er : List ℕ) : Prop where
  fresh : H'.fresh = H.fresh
  shape : H'.shape = update (update (update H.shape
    p (some ((H.kvs p).set i kv', H.edges p))) l (some (kl, el))) r (some (kr, er))
  forest : Forest H' ht
  link_none : ∀ c, H'.link c = none ↔ H.link c = none
  pairs : kl ++ kv' :: kr = H.kvs l ++ kv :: H.kvs r
  edges : el ++ er = H.edges l ++ H.edges r

section Steal

variable {kl kr : List (K × V)} {kv' : K × V} {el er : List ℕ}

namespace Shared

variable (F : Forest H ht) (S : Siblings H ht h p i l r kv)
  (M : Shared H H' ht p i l r kv kl kv' kr el er)

include F S M in
theorem shape_parent : H'.shape p = some ((H.kvs p).set i kv', H.edges p) := by
  rw [M.shape, update_of_ne (S.parent_ne_right F), update_of_ne (S.parent_ne_left F), update_self]

include F S M in
theorem shape_left : H'.shape l = some (kl, el) := by
  rw [M.shape, update_of_ne (S.left_ne_right F), update_self]

include M in
theorem shape_right : H'.shape r = some (kr, er) := by rw [M.shape, update_self]

include M in
theorem same {q : ℕ} (hp : q ≠ p) (hl : q ≠ l) (hr : q ≠ r) : H'.shape q = H.shape q := by
  rw [M.shape, update_of_ne hr, update_of_ne hl, update_of_ne hp]

end Shared

/-- A forest, from the links after stealing. -/
theorem Shared.of_links (F : Forest H ht) (S : Siblings H ht h p i l r kv)
    (hpairs : kl ++ kv' :: kr = H.kvs l ++ kv :: H.kvs r)
    (hedges : el ++ er = H.edges l ++ H.edges r)
    (hlen : el.length = if h = 0 then 0 else kl.length + 1)
    (hcap_l : kl.length ≤ CAPACITY) (hcap_r : kr.length ≤ CAPACITY) (hfresh : H'.fresh = H.fresh)
    (hshape : H'.shape = update (update (update H.shape
      p (some ((H.kvs p).set i kv', H.edges p))) l (some (kl, el))) r (some (kr, er)))
    (hl : Linked H' l) (hr : Linked H' r)
    (hout : ∀ c, c ∉ H.edges l ++ H.edges r → H'.link c = H.link c) :
    Shared H H' ht p i l r kv kl kv' kr el er := by
  have hpl := S.parent_ne_left F
  have hpr := S.parent_ne_right F
  have hlr := S.left_ne_right F
  have hsp : H'.shape p = some ((H.kvs p).set i kv', H.edges p) := by
    rw [hshape, update_of_ne hpr, update_of_ne hpl, update_self]
  have hsl : H'.shape l = some (kl, el) := by
    rw [hshape, update_of_ne hlr, update_self]
  have hsr : H'.shape r = some (kr, er) := by rw [hshape, update_self]
  have hso : ∀ q, q ≠ p → q ≠ l → q ≠ r → H'.shape q = H.shape q := by
    intro q hqp hql hqr
    rw [hshape, update_of_ne hqr, update_of_ne hql, update_of_ne hqp]
  have hmem : ∀ c, c ∈ el ∨ c ∈ er ↔ c ∈ H.edges l ∨ c ∈ H.edges r := by
    intro c
    rw [← mem_append, hedges, mem_append]
  have hin : ∀ c, c ∈ H.edges p → c ∉ H.edges l ++ H.edges r := by
    intro c hc hc'
    rcases mem_append.mp hc' with hc' | hc'
    · exact F.not_mem_edges hpl hc hc'
    · exact F.not_mem_edges hpr hc hc'
  have hhp : ht p = h + 1 := S.parent.2
  have hhl : ht l = h := (S.left_valid F).2
  have hhr : ht r = h := (S.right_valid F).2
  have hlen_p := S.edges_length F
  have hlen_l := S.edges_left F
  have hlen_r := S.edges_right F
  have htotal_k := congrArg length hpairs
  have htotal_e := congrArg length hedges
  simp only [length_append, length_cons] at htotal_k htotal_e
  have hheight : ∀ c, c ∈ H.edges l ∨ c ∈ H.edges r → h = ht c + 1 := by
    rintro c (hc | hc)
    · exact hhl ▸ F.ht_mem hc
    · exact hhr ▸ F.ht_mem hc
  have hfrom : ∀ c, c ∈ H.edges l ∨ c ∈ H.edges r →
      ∃ q, (q = p ∨ q = l ∨ q = r) ∧ c ∈ H.edges q := by
    rintro c (hc | hc)
    · exact ⟨l, .inr (.inl rfl), hc⟩
    · exact ⟨r, .inr (.inr rfl), hc⟩
  have hto : ∀ c, c ∈ H.edges l ∨ c ∈ H.edges r →
      ∃ q, (q = p ∨ q = l ∨ q = r) ∧ c ∈ H'.edges q := by
    intro c hc
    rcases (hmem c).mpr hc with hc | hc
    · exact ⟨l, .inr (.inl rfl), edges_of_shape hsl ▸ hc⟩
    · exact ⟨r, .inr (.inr rfl), edges_of_shape hsr ▸ hc⟩
  have hep : H'.edges p = H.edges p := edges_of_shape hsp
  have hforest : Forest H' ht := by
    refine F.regroup (fun q => q = p ∨ q = l ∨ q = r) hfresh (fun q hq => ?_) ?_ ?_ ?_
      (fun c _ hnot => ?_) ?_
    · simp only [not_or] at hq
      exact hso q hq.1 hq.2.1 hq.2.2
    · rintro q (rfl | rfl | rfl)
      · intro j c hc
        rw [edge, hep] at hc
        rw [hout c (hin c (mem_of_getElem? hc))]
        exact F.link hc
      · exact hl
      · exact hr
    · rintro q c (rfl | rfl | rfl) hc
      · rw [hep] at hc
        exact ⟨F.ht_mem hc, q, .inl rfl, hc⟩
      · rw [edges_of_shape hsl] at hc
        have hc' := (hmem c).mp (.inl hc)
        exact ⟨hhl.trans (hheight c hc'), hfrom c hc'⟩
      · rw [edges_of_shape hsr] at hc
        have hc' := (hmem c).mp (.inr hc)
        exact ⟨hhr.trans (hheight c hc'), hfrom c hc'⟩
    · rintro q c (rfl | rfl | rfl) hc
      · exact .inl ⟨q, .inl rfl, hep ▸ hc⟩
      · exact .inl (hto c (.inl hc))
      · exact .inl (hto c (.inr hc))
    · refine hout c fun hc => ?_
      rcases mem_append.mp hc with hc | hc
      · exact hnot l (.inr (.inl rfl)) hc
      · exact hnot r (.inr (.inr rfl)) hc
    · rintro q ks es (rfl | rfl | rfl) hq
      · rw [hsp] at hq
        simp only [Option.some.injEq, Prod.mk.injEq] at hq
        obtain ⟨rfl, rfl⟩ := hq
        rw [S.parent.1, hhp, if_neg (succ_ne_zero h), length_set]
        exact ⟨rfl, hlen_p, F.le_capacity q _ _ S.parent.1⟩
      · rw [hsl] at hq
        simp only [Option.some.injEq, Prod.mk.injEq] at hq
        obtain ⟨rfl, rfl⟩ := hq
        rw [(S.left_valid F).1, hhl]
        exact ⟨rfl, hlen, hcap_l⟩
      · rw [hsr] at hq
        simp only [Option.some.injEq, Prod.mk.injEq] at hq
        obtain ⟨rfl, rfl⟩ := hq
        rw [(S.right_valid F).1, hhr]
        refine ⟨rfl, ?_, hcap_r⟩
        split_ifs at hlen hlen_l hlen_r ⊢ <;> lia
  refine ⟨hfresh, hshape, hforest, fun c => ?_, hpairs, hedges⟩
  by_cases hc : c ∈ H.edges l ++ H.edges r
  · have hc' := mem_append.mp hc
    obtain ⟨q, -, hq⟩ := hfrom c hc'
    obtain ⟨q', -, hq'⟩ := hto c hc'
    obtain ⟨j, hj⟩ := mem_edges.mp hq
    obtain ⟨j', hj'⟩ := mem_edges.mp hq'
    rw [F.link hj, hforest.link hj']
    exact iff_of_false (Option.some_ne_none _) (Option.some_ne_none _)
  · rw [hout c hc]

/-- The three nodes with other pairs and the same links. -/
theorem share_pairs (F : Forest H ht) (S : Siblings H ht h p i l r kv) {np nl nr : Node K V}
    (hp : H.get p = some np) (hl : H.get l = some nl) (hr : H.get r = some nr)
    (ks kl kr : List (K × V)) :
    let H3 := ((H.set p { np with kvs := ks }).set l { nl with kvs := kl }).set r
      { nr with kvs := kr }
    H3.link = H.link ∧ H3.get l = some { nl with kvs := kl } ∧
      H3.get r = some { nr with kvs := kr } ∧
      H3.shape = update (update (update H.shape
        p (some (ks, H.edges p))) l (some (kl, H.edges l))) r (some (kr, H.edges r)) := by
  intro H3
  have hlr := S.left_ne_right F
  have hl1 : (H.set p { np with kvs := ks }).get l = some nl :=
    (get_set_of_ne (S.parent_ne_left F).symm).trans hl
  have hr2 : ((H.set p { np with kvs := ks }).set l { nl with kvs := kl }).get r = some nr :=
    (get_set_of_ne hlr.symm).trans
      ((get_set_of_ne (S.parent_ne_right F).symm).trans hr)
  refine ⟨?_, ?_, get_set_self, ?_⟩
  · exact (link_set_of_get hr2).trans
      ((link_set_of_get hl1).trans (link_set_of_get hp))
  · exact (get_set_of_ne hlr).trans get_set_self
  · have hep := edges_of_shape (shape_of_get hp)
    have hel := edges_of_shape (shape_of_get hl)
    have her := edges_of_shape (shape_of_get hr)
    simp only [H3, shape_set, hep, hel, her]

theorem replace_kv_spec {x : NodeRef} {n : Node K V} (hx : H.get x.node = some n)
    (hkv : n.kvs[i]? = some kv) (kv' : K × V) :
    (Handle.mk (T := .KV) x i).replace_kv H kv'
      = some (H.set x.node { n with kvs := n.kvs.set i kv' }, kv) := by
  simp [Handle.replace_kv, hx, hkv]

/-- The pairs are moved, and then the edges; the links are as before. In leaves this is all. -/
theorem divide (F : Forest H ht) (S : Siblings H ht h p i l r kv) {np nl nr : Node K V}
    (hp : H.get p = some np) (hl : H.get l = some nl) (hr : H.get r = some nr)
    (hpairs : kl ++ kv' :: kr = H.kvs l ++ kv :: H.kvs r)
    (hedges : el ++ er = H.edges l ++ H.edges r)
    (hlen : el.length = if h = 0 then 0 else kl.length + 1)
    (hcap_l : kl.length ≤ CAPACITY) (hcap_r : kr.length ≤ CAPACITY) :
    let H3 := ((H.set p { np with kvs := (H.kvs p).set i kv' }).set l { nl with kvs := kl }).set r
      { nr with kvs := kr }
    let H5 := (H3.set l { nl with kvs := kl, edges := el }).set r { nr with kvs := kr, edges := er }
    H3.get l = some { nl with kvs := kl } ∧ H3.get r = some { nr with kvs := kr } ∧
      (h = 0 → Shared H H3 ht p i l r kv kl kv' kr el er) ∧ H5.link = H.link ∧
      H5.shape = update (update (update H.shape
        p (some ((H.kvs p).set i kv', H.edges p))) l (some (kl, el))) r (some (kr, er)) ∧
      (el ++ er).Nodup ∧ ∀ c ∈ el ++ er, (H5.shape c).isSome := by
  intro H3 H5
  have hlr := S.left_ne_right F
  obtain ⟨hlink3, hl3, hr3, hs3⟩ := share_pairs F S hp hl hr ((H.kvs p).set i kv') kl kr
  have hr4 : (H3.set l { nl with kvs := kl, edges := el }).get r = some { nr with kvs := kr } :=
    (get_set_of_ne hlr.symm).trans hr3
  have hs5 : H5.shape = update (update (update H.shape
      p (some ((H.kvs p).set i kv', H.edges p))) l (some (kl, el))) r (some (kr, er)) := by
    funext q
    simp only [H5, shape_set, H3, hs3, update_apply]
    split_ifs <;> rfl
  refine ⟨hl3, hr3, fun h0 => ?_, ?_, hs5, ?_, fun c hc => ?_⟩
  · have hnil_l : H.edges l = [] := length_eq_zero_iff.mp ((S.edges_left F).trans (if_pos h0))
    have hnil_r : H.edges r = [] := length_eq_zero_iff.mp ((S.edges_right F).trans (if_pos h0))
    have hel : el = [] := length_eq_zero_iff.mp (hlen.trans (if_pos h0))
    have her : er = [] := by rwa [hel, hnil_l, hnil_r] at hedges
    refine .of_links F S hpairs hedges hlen hcap_l hcap_r rfl ?_ (fun j c hc => ?_)
      (fun j c hc => ?_) fun c _ => congrFun hlink3 c
    · rw [hs3, hnil_l, hnil_r, hel, her]
    · rw [edge, edges_of_shape (by rw [hs3, update_of_ne hlr, update_self]), hnil_l] at hc
      cases hc
    · rw [edge, edges_of_shape (by rw [hs3, update_self]), hnil_r] at hc
      cases hc
  · exact (link_set_of_get hr4).trans ((link_set_of_get hl3).trans hlink3)
  · rw [hedges]
    exact List.Nodup.append (F.nodup_edges l) (F.nodup_edges r)
      fun c hc => F.not_mem_edges hlr hc
  · have hsome : (H.shape c).isSome :=
      (mem_append.mp (hedges ▸ hc)).elim F.isSome_child F.isSome_child
    rw [hs5]
    exact isSome_update (isSome_update (isSome_update hsome _ _) _ _) _ _

end Steal

/-- The pairs move through the parent to the right child. -/
theorem bulk_steal_left_spec (F : Forest H ht) (S : Siblings H ht h p i l r kv) {count : ℕ}
    {kv' : K × V} (hcount : 0 < count) (hle : count ≤ (H.kvs l).length)
    (hcap : (H.kvs r).length + count ≤ CAPACITY)
    (hkv' : (H.kvs l)[(H.kvs l).length - count]? = some kv') :
    ∃ H', (context h p i l r).bulk_steal_left H count = some H' ∧
      Shared H H' ht p i l r kv ((H.kvs l).take ((H.kvs l).length - count)) kv'
        ((H.kvs l).drop ((H.kvs l).length - count + 1) ++ kv :: H.kvs r)
        ((H.edges l).take ((H.kvs l).length - count + 1))
        ((H.edges l).drop ((H.kvs l).length - count + 1) ++ H.edges r) := by
  obtain ⟨np, hnp, hkp, hep⟩ := get_of_shape S.parent.1
  obtain ⟨nl, hnl, hkl, hel⟩ := get_of_shape (S.left_valid F).1
  obtain ⟨nr, hnr, hkr, her⟩ := get_of_shape (S.right_valid F).1
  have hlr := S.left_ne_right F
  have hlen_l := S.edges_left F
  have hlen_r := S.edges_right F
  have hcap_l : (H.kvs l).length ≤ CAPACITY := F.le_capacity l _ _ (S.left_valid F).1
  set m := (H.kvs l).length - count with hm
  have hpairs : (H.kvs l).take m ++ kv' :: ((H.kvs l).drop (m + 1) ++ kv :: H.kvs r)
      = H.kvs l ++ kv :: H.kvs r := by
    obtain ⟨hlt, rfl⟩ := List.getElem?_eq_some_iff.mp hkv'
    rw [← cons_append, ← append_assoc, ← drop_eq_getElem_cons hlt, take_append_drop]
  have hedges : (H.edges l).take (m + 1) ++ ((H.edges l).drop (m + 1) ++ H.edges r)
      = H.edges l ++ H.edges r := by
    rw [← append_assoc, take_append_drop]
  have hassert2 : (H.kvs l).length ≥ count := hle
  have hreplace := replace_kv_spec (x := ⟨h + 1, p⟩) hnp (hkp ▸ S.pair) kv'
  have hlen : ((H.edges l).take (m + 1)).length
      = if h = 0 then 0 else ((H.kvs l).take m).length + 1 := by
    rw [length_take, length_take, hlen_l]
    split_ifs <;> lia
  have hlen_k : ((H.kvs l).drop (m + 1) ++ kv :: H.kvs r).length = (H.kvs r).length + count := by
    rw [length_append, length_drop, length_cons]
    lia
  have hcap_k : ((H.kvs l).take m).length ≤ CAPACITY := (length_take_le' _ _).trans hcap_l
  obtain ⟨hl3, hr3, hleaf, hlink5, hs5, hnd, hsome⟩ := divide F S hnp hnl hnr hpairs hedges hlen
    hcap_k (hlen_k.trans_le hcap)
  set H3 := ((H.set p { np with kvs := (H.kvs p).set i kv' }).set l
    { nl with kvs := (H.kvs l).take m }).set r
    { nr with kvs := (H.kvs l).drop (m + 1) ++ kv :: H.kvs r } with hH3
  set H5 := (H3.set l _).set r _ with hH5
  rcases Nat.eq_zero_or_pos h with h0 | hpos
  · subst h0
    refine ⟨H3, ?_, hleaf rfl⟩
    simp [bulk_steal_left, context, hnl, hnr, assert_some hcount, assert_some hcap,
      assert_some hassert2, hkl, hkr, ← hm, hkv', hreplace, ← hH3, assert_some, hkp]
  have hsl5 : H5.shape l = some ((H.kvs l).take m, (H.edges l).take (m + 1)) := by
    rw [hs5, update_of_ne hlr, update_self]
  have hsr5 : H5.shape r = some ((H.kvs l).drop (m + 1) ++ kv :: H.kvs r,
      (H.edges l).drop (m + 1) ++ H.edges r) := by
    rw [hs5, update_self]
  have her5 := edges_of_shape hsr5
  obtain ⟨H6, h6, hf6, hs6, hlinked6, hout6⟩ := @relink_from _ _ H5 ⟨h, r⟩ 0 hpos
    (her5 ▸ hnd.of_append_right)
    (by
      rw [her5, kvs_of_shape hsr5, hlen_k, length_append, length_drop, hlen_l,
        hlen_r, if_neg (by lia), if_neg (by lia)]
      lia)
    (fun c hc => hsome c (mem_append_right _ (her5 ▸ hc)))
    (fun j c hj => absurd hj (not_lt_zero j))
  refine ⟨H6, ?_, .of_links F S hpairs hedges hlen hcap_k (hlen_k.trans_le hcap) hf6
    (hs6.trans hs5) ?_ hlinked6 fun c hc => ?_⟩
  · have hran : range' 0 ((H5.edges r).length - 0)
        = range' 0 ((H.kvs r).length + count + 1) := by
      congr 1
      rw [her5, length_append, length_drop, hlen_l, hlen_r, if_neg (by lia),
        if_neg (by lia)]
      lia
    rw [hran] at h6
    simp only [bulk_steal_left, context, hnl, hnr, assert_some hcount,
      assert_some hcap, assert_some hassert2, hkl, hkr, ← hm, hkv', hreplace, hkp,
      some_bind, gt_iff_lt, hpos, and_self, if_true]
    rw [← hH3, hl3, some_bind, hr3, some_bind]
    simp only [hel, her]
    rw [← hH5, h6]
  · intro j c hc
    rw [edge, edges_of_shape (by rw [hs6, hsl5])] at hc
    have hmem : c ∈ (H.edges l).take (m + 1) := mem_of_getElem? hc
    rw [hout6 c (her5 ▸ (disjoint_of_nodup_append hnd) hmem), hlink5]
    rw [getElem?_take] at hc
    split_ifs at hc
    exact F.link hc
  · rw [hout6 c fun hc' => hc (hedges ▸ mem_append_right _ (her5 ▸ hc')), hlink5]

/-- The pairs move through the parent to the left child. -/
theorem bulk_steal_right_spec (F : Forest H ht) (S : Siblings H ht h p i l r kv) {count : ℕ}
    {kv' : K × V} (hcount : 0 < count) (hle : count ≤ (H.kvs r).length)
    (hcap : (H.kvs l).length + count ≤ CAPACITY) (hkv' : (H.kvs r)[count - 1]? = some kv') :
    ∃ H', (context h p i l r).bulk_steal_right H count = some H' ∧
      Shared H H' ht p i l r kv (H.kvs l ++ kv :: (H.kvs r).take (count - 1)) kv'
        ((H.kvs r).drop count) (H.edges l ++ (H.edges r).take count)
        ((H.edges r).drop count) := by
  obtain ⟨np, hnp, hkp, hep⟩ := get_of_shape S.parent.1
  obtain ⟨nl, hnl, hkl, hel⟩ := get_of_shape (S.left_valid F).1
  obtain ⟨nr, hnr, hkr, her⟩ := get_of_shape (S.right_valid F).1
  have hlr := S.left_ne_right F
  have hlen_l := S.edges_left F
  have hlen_r := S.edges_right F
  have hcap_r : (H.kvs r).length ≤ CAPACITY := F.le_capacity r _ _ (S.right_valid F).1
  have hpairs : H.kvs l ++ kv :: (H.kvs r).take (count - 1) ++ kv' :: (H.kvs r).drop count
      = H.kvs l ++ kv :: H.kvs r := by
    obtain ⟨hlt, rfl⟩ := List.getElem?_eq_some_iff.mp hkv'
    have hdrop := drop_eq_getElem_cons hlt
    rw [Nat.sub_add_cancel hcount] at hdrop
    rw [append_assoc, cons_append, ← hdrop, take_append_drop]
  have hedges : H.edges l ++ (H.edges r).take count ++ (H.edges r).drop count
      = H.edges l ++ H.edges r := by
    rw [append_assoc, take_append_drop]
  have hassert2 : (H.kvs r).length ≥ count := hle
  have hreplace := replace_kv_spec (x := ⟨h + 1, p⟩) hnp (hkp ▸ S.pair) kv'
  have hlen_k : (H.kvs l ++ kv :: (H.kvs r).take (count - 1)).length
      = (H.kvs l).length + count := by
    rw [length_append, length_cons, length_take]
    lia
  have hlen : (H.edges l ++ (H.edges r).take count).length = if h = 0 then 0
      else (H.kvs l ++ kv :: (H.kvs r).take (count - 1)).length + 1 := by
    rw [length_append, length_take, hlen_k, hlen_l, hlen_r]
    split_ifs <;> lia
  have hcap_k : ((H.kvs r).drop count).length ≤ CAPACITY :=
    (drop_sublist _ _).length_le.trans hcap_r
  obtain ⟨hl3, hr3, hleaf, hlink5, hs5, hnd, hsome⟩ := divide F S hnp hnl hnr hpairs hedges hlen
    (hlen_k.trans_le hcap) hcap_k
  set H3 := ((H.set p { np with kvs := (H.kvs p).set i kv' }).set l
    { nl with kvs := H.kvs l ++ kv :: (H.kvs r).take (count - 1) }).set r
    { nr with kvs := (H.kvs r).drop count } with hH3
  set H5 := (H3.set l _).set r _ with hH5
  rcases Nat.eq_zero_or_pos h with h0 | hpos
  · subst h0
    refine ⟨H3, ?_, hleaf rfl⟩
    simp [bulk_steal_right, context, hnl, hnr, assert_some hcount, assert_some hcap,
      assert_some hassert2, hkl, hkr, hkv', hreplace, ← hH3, assert_some, hkp]
  have hsl5 : H5.shape l = some (H.kvs l ++ kv :: (H.kvs r).take (count - 1),
      H.edges l ++ (H.edges r).take count) := by
    rw [hs5, update_of_ne hlr, update_self]
  have hsr5 : H5.shape r = some ((H.kvs r).drop count, (H.edges r).drop count) := by
    rw [hs5, update_self]
  have hel5 := edges_of_shape hsl5
  obtain ⟨H6, h6, hf6, hs6, hlinked6, hout6⟩ := @relink_from _ _ H5 ⟨h, l⟩
    ((H.kvs l).length + 1) hpos (hel5 ▸ hnd.of_append_left)
    (by rw [hel5, kvs_of_shape hsl5, hlen, if_neg (by lia)])
    (fun c hc => hsome c (mem_append_left _ (hel5 ▸ hc)))
    (by
      intro j c hj hc
      rw [edge, hel5, getElem?_append_left (by
        rw [hlen_l, if_neg (by lia)]; exact hj)] at hc
      rw [hlink5]
      exact F.link hc)
  have hsr6 : H6.shape r = some ((H.kvs r).drop count, (H.edges r).drop count) := by
    rw [hs6, hsr5]
  have her6 := edges_of_shape hsr6
  obtain ⟨H7, h7, hf7, hs7, hlinked7, hout7⟩ := @relink_from _ _ H6 ⟨h, r⟩ 0 hpos
    (her6 ▸ hnd.of_append_right)
    (by
      rw [her6, kvs_of_shape hsr6, length_drop, length_drop, hlen_r, if_neg (by lia)]
      lia)
    (fun c hc => by rw [hs6]; exact hsome c (mem_append_right _ (her6 ▸ hc)))
    (fun j c hj => absurd hj (not_lt_zero j))
  refine ⟨H7, ?_, .of_links F S hpairs hedges hlen (hlen_k.trans_le hcap) hcap_k
    (hf7.trans hf6) (hs7.trans (hs6.trans hs5)) (fun j c hc => ?_) hlinked7 fun c hc => ?_⟩
  · have hran_l : (H5.edges l).length - ((H.kvs l).length + 1)
        = (H.kvs l).length + count + 1 - ((H.kvs l).length + 1) := by
      rw [hel5, hlen, if_neg (by lia), hlen_k]
    have hran_r : (H6.edges r).length - 0 = (H.kvs r).length - count + 1 := by
      rw [her6, length_drop, hlen_r, if_neg (by lia)]
      lia
    simp only [hran_l, hran_r] at h6 h7
    simp only [bulk_steal_right, context, hnl, hnr, assert_some hcount,
      assert_some hcap, assert_some hassert2, hkl, hkr, hkv', hreplace, hkp,
      some_bind, gt_iff_lt, hpos, and_self, if_true]
    rw [← hH3, hl3, some_bind, hr3, some_bind]
    simp only [hel, her]
    rw [← hH5, h6, some_bind, h7]
  · have hc6 : H6.edge l j = some c := by
      rwa [edge_congr (congrFun hs7 l)] at hc
    have hmem : c ∈ H.edges l ++ (H.edges r).take count := by
      rw [← hel5, ← edges_congr (congrFun hs6 l)]
      exact mem_of_getElem? hc6
    rw [hout7 c (her6 ▸ (disjoint_of_nodup_append hnd) hmem)]
    exact hlinked6 j c hc6
  · have hc_l : c ∉ H5.edges l := fun hc' => hc (hedges ▸ mem_append_left _ (hel5 ▸ hc'))
    have hc_r : c ∉ H6.edges r := fun hc' => hc (hedges ▸ mem_append_right _ (her6 ▸ hc'))
    rw [hout7 c hc_r, hout6 c hc_l, hlink5]

end RustStd.BTree
