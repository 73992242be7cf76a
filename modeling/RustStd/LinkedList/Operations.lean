import RustStd.LinkedList.Chain

/-!
# Operations on one list

What each private method of `LinkedList` does to a chain of nodes, and that it touches no other
node. The methods patch the link of the node before a gap or the list's head
(`Seg.patch_before`), and the link of the node after it or the list's tail (`Seg.patch_after`).
-/

namespace RustStd.Collections

open List Option

variable {T : Type}

namespace Seg

variable {H : Heap T} {a : List ℕ} {ys : List T} {n : Option ℕ}

theorem patch_before (h : Seg H none a n ys) (hnd : a.Nodup) (l : LinkedList)
    (hhead : a ≠ [] → l.head = a.head?) (v : Option ℕ) :
    ∃ H', l.patch_next H a.getLast? v = some (H', { l with head := a.head?.or v })
      ∧ Seg H' none a v ys ∧ Frame H H' a ∧ H'.fresh = H.fresh := by
  rcases hlast : a.getLast? with _ | t
  · obtain rfl := getLast?_eq_none_iff.mp hlast
    exact ⟨H, rfl, by simpa using h, fun q _ => rfl, rfl⟩
  · obtain ⟨H', h', hseg, hf, hfr⟩ := h.set_next hnd hlast v
    have hne : a ≠ [] := by rintro rfl; simp at hlast
    obtain ⟨t', ht'⟩ : ∃ t', a.head? = some t' := ⟨_, head?_eq_some_head hne⟩
    have hhead' := (hhead hne).trans ht'
    refine ⟨H', ?_, hseg, hf.mono (by simpa using mem_of_getLast? hlast), hfr⟩
    have hl : { l with head := a.head?.or v } = l := by rw [ht', some_or, ← hhead']
    simp only [LinkedList.patch_next, h', some_bind, hl]

theorem patch_after (h : Seg H n a none ys) (hnd : a.Nodup) (l : LinkedList)
    (htail : a ≠ [] → l.tail = a.getLast?) (v : Option ℕ) :
    ∃ H', l.patch_prev H a.head? v = some (H', { l with tail := a.getLast?.or v })
      ∧ Seg H' v a none ys ∧ Frame H H' a ∧ H'.fresh = H.fresh := by
  rcases hhead : a.head? with _ | t
  · obtain rfl := head?_eq_none_iff.mp hhead
    exact ⟨H, rfl, by simpa using h, fun q _ => rfl, rfl⟩
  · obtain ⟨H', h', hseg, hf, hfr⟩ := h.set_prev hnd hhead v
    have hne : a ≠ [] := by rintro rfl; simp at hhead
    obtain ⟨t', ht'⟩ : ∃ t', a.getLast? = some t' := ⟨_, getLast?_eq_some_getLast hne⟩
    have htail' := (htail hne).trans ht'
    refine ⟨H', ?_, hseg, hf.mono (by simpa using mem_of_head? hhead), hfr⟩
    have hl : { l with tail := a.getLast?.or v } = l := by rw [ht', some_or, ← htail']
    simp only [LinkedList.patch_prev, h', some_bind, hl]

end Seg

open Seg

namespace Chain

variable {H : Heap T} {l : LinkedList} {ids a b c : List ℕ} {xs ys zs ws : List T}

theorem eq_nil_of_head (h : Chain H l ids xs) (hh : l.head = none) : ids = [] ∧ xs = [] := by
  have hids : ids = [] := head?_eq_none_iff.mp (h.head.symm.trans hh)
  have hlen := h.length_eq
  subst hids
  exact ⟨rfl, length_eq_zero_iff.mp hlen.symm⟩

/-- A segment put between two parts of a list. -/
theorem splice_nodes (h : Chain H l (a ++ b) (ys ++ zs)) (hlen : a.length = ys.length)
    (hc : Seg H none c none ws) (hnd : c.Nodup) (hdisj : ∀ q ∈ c, q ∉ a ++ b) {s e : ℕ}
    (hs : c.head? = some s) (he : c.getLast? = some e) :
    ∃ H' l', l.splice_nodes H a.getLast? b.head? s e c.length = some (H', l')
      ∧ Chain H' l' (a ++ (c ++ b)) (ys ++ (ws ++ zs)) ∧ Frame H H' (a ++ (c ++ b))
      ∧ H'.fresh = H.fresh := by
  obtain ⟨ha, hb⟩ := (append_iff hlen).mp h.links
  rw [or_none] at ha hb
  have hab : ∀ q ∈ a, q ∉ b := fun q hq hqb => disjoint_of_nodup_append h.nodup hq hqb
  have hac : ∀ q ∈ c, q ∉ a := fun q hq hqa => hdisj q hq (mem_append_left _ hqa)
  have hbc : ∀ q ∈ c, q ∉ b := fun q hq hqb => hdisj q hq (mem_append_right _ hqb)
  obtain ⟨H1, h1, ha1, hf1, hfr1⟩ := ha.patch_before h.nodup.of_append_left l
    (fun hne => by rw [h.head, head?_append_of_ne_nil _ hne]) (some s)
  have hb1 := hb.frame fun q hq => hf1 q fun hqa => hab q hqa hq
  have hc1 := hc.frame fun q hq => hf1 q (hac q hq)
  obtain ⟨H2, h2, hb2, hf2, hfr2⟩ := hb1.patch_after h.nodup.of_append_right
    { l with head := a.head?.or (some s) }
    (fun hne => by rw [h.tail, getLast?_append_of_ne_nil _ hne]) (some e)
  have ha2 := ha1.frame fun q hq => hf2 q (hab q hq)
  have hc2 := hc1.frame fun q hq => hf2 q (hbc q hq)
  obtain ⟨H3, h3, hc3, hf3, hfr3⟩ := hc2.set_prev hnd hs a.getLast?
  obtain ⟨H4, h4, hc4, hf4, hfr4⟩ := hc3.set_next hnd he b.head?
  have hsub3 : [s] ⊆ c := by simpa using mem_of_head? hs
  have hsub4 : [e] ⊆ c := by simpa using mem_of_getLast? he
  have hf24 : ∀ q, q ∉ c → H4.get q = H2.get q := fun q hq =>
    ((hf3.mono hsub3).trans (hf4.mono hsub4)) q hq
  have ha4 := ha2.frame fun q hq => hf24 q fun hqc => hac q hqc hq
  have hb4 := hb2.frame fun q hq => hf24 q fun hqc => hbc q hqc hq
  refine ⟨H4, ⟨a.head?.or (some s), b.getLast?.or (some e), l.len + c.length⟩, ?_,
    ⟨?_, ?_, ?_, ?_, ?_⟩, ?_, by rw [hfr4, hfr3, hfr2, hfr1]⟩
  · simp only [LinkedList.splice_nodes, h1, h2, h3, h4, some_bind]
  · have := h.nodup
    simp only [nodup_append, mem_append] at this ⊢
    refine ⟨this.1, ⟨hnd, this.2.1, fun q hq r hr hqr => hbc q hq (hqr ▸ hr)⟩,
      fun q hq r hr hqr => ?_⟩
    rcases hr with hr | hr
    · exact hac r hr (hqr ▸ hq)
    · exact this.2.2 q hq r hr hqr
  · simp [head?_append, hs]
  · rw [getLast?_append, getLast?_append, he]
    cases b.getLast? <;> rfl
  · rw [h.len]
    simp only [length_append]
    omega
  · refine (append_iff hlen).mpr ⟨?_, ?_⟩
    · simpa [head?_append, hs] using ha4
    · refine (append_iff hc.length_eq).mpr ⟨by simpa using hc4, ?_⟩
      simpa [he] using hb4
  · intro q hq
    simp only [mem_append, not_or] at hq
    rw [hf24 q hq.2.1, hf2 q hq.2.2, hf1 q hq.1]

variable {id : ℕ} {x : T}

/-- A node taken out of a list. -/
theorem unlink_node (h : Chain H l (a ++ id :: b) (ys ++ x :: zs))
    (hlen : a.length = ys.length) :
    ∃ H' l', l.unlink_node H id = some (H', l') ∧ Chain H' l' (a ++ b) (ys ++ zs)
      ∧ Frame H H' (a ++ b) ∧ H'.fresh = H.fresh := by
  obtain ⟨ha, hid, hb⟩ := (append_iff hlen).mp h.links
  rw [or_none] at ha hid
  rw [or_none] at hid
  have hnd := nodup_append.mp h.nodup
  have hida : id ∉ a := fun hq => hnd.2.2 id hq id mem_cons_self rfl
  obtain ⟨hidb, hndb⟩ := nodup_cons.mp hnd.2.1
  have hab : ∀ q ∈ a, q ∉ b := fun q hq hqb =>
    hnd.2.2 q hq q (mem_cons_of_mem _ hqb) rfl
  obtain ⟨H1, h1, ha1, hf1, hfr1⟩ := ha.patch_before hnd.1 l
    (fun hne => by rw [h.head, head?_append_of_ne_nil _ hne]) b.head?
  have hid1 : H1.get id = some ⟨b.head?, a.getLast?, x⟩ := by rw [hf1 id hida, hid]
  have hb1 := hb.frame fun q hq => hf1 q fun hqa => hab q hqa hq
  obtain ⟨H2, h2, hb2, hf2, hfr2⟩ := hb1.patch_after hndb
    { l with head := a.head?.or b.head? }
    (fun hne => by
      rw [h.tail, getLast?_append_of_ne_nil _ (by simp), getLast?_cons_of_ne_nil hne])
    a.getLast?
  have ha2 := ha1.frame fun q hq => hf2 q (hab q hq)
  have hpos : l.len = a.length + b.length + 1 := by
    rw [h.len]
    simp only [length_append, length_cons]
    omega
  refine ⟨H2, ⟨a.head?.or b.head?, b.getLast?.or a.getLast?, a.length + b.length⟩, ?_,
    ⟨?_, ?_, ?_, ?_, ?_⟩, ?_, by rw [hfr2, hfr1]⟩
  · have hsub : checkedSub l.len 1 = some (a.length + b.length) := by
      simp [checkedSub, hpos]
    simp only [LinkedList.unlink_node, hid, hid1, h1, h2, hsub, some_bind]
  · exact nodup_append.mpr ⟨hnd.1, hndb, fun q hq r hr => hnd.2.2 q hq r (by simp [hr])⟩
  · simp [head?_append]
  · simp [getLast?_append]
  · simp
  · exact (append_iff hlen).mpr ⟨by simpa using ha2, by simpa using hb2⟩
  · intro q hq
    simp only [mem_append, not_or] at hq
    rw [hf2 q hq.2, hf1 q hq.1]

/-! ## The ends of a list -/

variable {node : ℕ} {n : Node T}

theorem set_links (hn : H.get node = some n) (next prev : Option ℕ) :
    ∃ H1 H2, set_next H node next = some H1 ∧ set_prev H1 node prev = some H2
      ∧ H2.get node = some ⟨next, prev, n.element⟩ ∧ Frame H H2 [node] ∧ H2.fresh = H.fresh := by
  refine ⟨_, _, Store.modify_eq hn _, Store.modify_eq Store.get_set_self _, Store.get_set_self,
    fun q hq => ?_, rfl⟩
  have hne : q ≠ node := by simpa using hq
  rw [Store.get_set_of_ne hne, Store.get_set_of_ne hne]

theorem push_front_node (h : Chain H l ids xs) (hn : H.get node = some n)
    (hnode : node ∉ ids) :
    ∃ H' l', l.push_front_node H node = some (H', l') ∧ Chain H' l' (node :: ids) (n.element :: xs)
      ∧ Frame H H' (node :: ids) ∧ H'.fresh = H.fresh := by
  obtain ⟨H1, H2, h1, h2, hget, hf2, hfr2⟩ := set_links hn l.head none
  have hl2 := h.links.frame fun q hq => hf2 q (by rintro hqn; simp_all)
  obtain ⟨H3, h3, hl3, hf3, hfr3⟩ := hl2.patch_after h.nodup l (fun _ => h.tail) (some node)
  rw [← h.head] at h3
  refine ⟨H3, ⟨some node, ids.getLast?.or (some node), l.len + 1⟩, ?_,
    ⟨nodup_cons.mpr ⟨hnode, h.nodup⟩, rfl, ?_, by simp [h.len], ?_⟩, fun q hq => ?_,
    hfr3.trans hfr2⟩
  · simp only [LinkedList.push_front_node, h1, h2, h3, some_bind]
  · rw [getLast?_cons]
    cases ids.getLast? <;> rfl
  · refine cons_iff.mpr ⟨_, _, rfl, ?_, hl3⟩
    rw [hf3 node hnode, hget, h.head, or_none]
  · obtain ⟨hqn, hq⟩ : q ≠ node ∧ q ∉ ids := by simpa using hq
    rw [hf3 q hq, hf2 q (by simpa using hqn)]

theorem push_back_node (h : Chain H l ids xs) (hn : H.get node = some n)
    (hnode : node ∉ ids) :
    ∃ H' l', l.push_back_node H node = some (H', l')
      ∧ Chain H' l' (ids ++ [node]) (xs ++ [n.element])
      ∧ Frame H H' (node :: ids) ∧ H'.fresh = H.fresh := by
  obtain ⟨H1, H2, h1, h2, hget, hf2, hfr2⟩ := set_links hn none l.tail
  have hl2 := h.links.frame fun q hq => hf2 q (by rintro hqn; simp_all)
  obtain ⟨H3, h3, hl3, hf3, hfr3⟩ := hl2.patch_before h.nodup l (fun _ => h.head) (some node)
  rw [← h.tail] at h3
  refine ⟨H3, ⟨ids.head?.or (some node), some node, l.len + 1⟩, ?_,
    ⟨?_, ?_, by simp, by simp [h.len], ?_⟩, fun q hq => ?_, hfr3.trans hfr2⟩
  · simp only [LinkedList.push_back_node, h1, h2, h3, some_bind]
  · exact nodup_append.mpr ⟨h.nodup, nodup_singleton _, fun q hq r hr hqr => hnode (by
      rw [← mem_singleton.mp hr, ← hqr]
      exact hq)⟩
  · cases ids <;> simp
  · refine (append_iff h.length_eq).mpr ⟨by simpa using hl3, ?_⟩
    refine cons_iff.mpr ⟨_, _, rfl, ?_, trivial⟩
    rw [hf3 node hnode, hget, h.tail]
    simp
  · obtain ⟨hqn, hq⟩ : q ≠ node ∧ q ∉ ids := by simpa using hq
    rw [hf3 q hq, hf2 q (by simpa using hqn)]

theorem pop_front_node (h : Chain H l (id :: ids) (x :: xs)) :
    ∃ H' l', l.pop_front_node H = some (H', l', some id) ∧ Chain H' l' ids xs
      ∧ Frame H H' ids ∧ H'.fresh = H.fresh := by
  obtain ⟨hget, hl⟩ := h.links
  obtain ⟨-, hnd⟩ := nodup_cons.mp h.nodup
  rw [or_none] at hget
  obtain ⟨H1, h1, hl1, hf1, hfr1⟩ := patch_after hl hnd { l with head := ids.head? }
    (fun hne => by rw [h.tail, getLast?_cons_of_ne_nil hne]) none
  refine ⟨H1, ⟨ids.head?, ids.getLast?.or none, ids.length⟩, ?_,
    ⟨hnd, rfl, or_none, rfl, hl1⟩, hf1, hfr1⟩
  have hhead : l.head = some id := h.head
  have hsub : checkedSub l.len 1 = some ids.length := by simp [checkedSub, h.len]
  simp only [LinkedList.pop_front_node, hhead, hget, h1, hsub, some_bind]

theorem pop_back_node (h : Chain H l (ids ++ [id]) (xs ++ [x])) :
    ∃ H' l', l.pop_back_node H = some (H', l', some id) ∧ Chain H' l' ids xs
      ∧ Frame H H' ids ∧ H'.fresh = H.fresh := by
  have hlen : ids.length = xs.length := by simpa using h.length_eq
  have hget := h.get_mid hlen
  obtain ⟨hl, -⟩ := (append_iff hlen).mp h.links
  have hnd := h.nodup.of_append_left
  obtain ⟨H1, h1, hl1, hf1, hfr1⟩ := patch_before hl hnd { l with tail := ids.getLast? }
    (fun hne => by rw [h.head, head?_append_of_ne_nil _ hne]) none
  refine ⟨H1, ⟨ids.head?.or none, ids.getLast?, ids.length⟩, ?_,
    ⟨hnd, or_none, rfl, rfl, hl1⟩, hf1, hfr1⟩
  have htail : l.tail = some id := by rw [h.tail]; simp
  have hsub : checkedSub l.len 1 = some ids.length := by simp [checkedSub, h.len]
  simp only [LinkedList.pop_back_node, htail, hget, h1, hsub, some_bind]

/-! ## Splitting -/

/-- The list from a node on, and the part before it. -/
theorem split_off_before_node (h : Chain H l (a ++ id :: b) (ys ++ x :: zs))
    (hlen : a.length = ys.length) :
    ∃ H' l' l'', l.split_off_before_node H (some id) a.length = some (H', l', l'')
      ∧ Chain H' l' (id :: b) (x :: zs) ∧ Chain H' l'' a ys ∧ Frame H H' (a ++ id :: b)
      ∧ H'.fresh = H.fresh := by
  have hget := h.get_mid hlen
  obtain ⟨ha, hb⟩ := (append_iff hlen).mp h.links
  have hnd := nodup_append.mp h.nodup
  have hab : ∀ q ∈ a, q ∉ id :: b := fun q hq hqb => hnd.2.2 q hq q hqb rfl
  obtain ⟨H1, h1, hb1, hf1, hfr1⟩ := hb.set_prev hnd.2.1 rfl none
  have hid : [id] ⊆ id :: b := by simp
  have ha1 := ha.frame fun q hq => (hf1.mono hid) q (hab q hq)
  have hlen' : l.len = a.length + (id :: b).length := by rw [h.len, length_append]
  have hsub : checkedSub l.len a.length = some (id :: b).length := by
    rw [checkedSub, if_pos (by omega), hlen', Nat.add_sub_cancel_left]
  have htail : l.tail = (id :: b).getLast? := by
    rw [h.tail, getLast?_append_of_ne_nil _ (by simp)]
  rcases hlast : a.getLast? with _ | t
  · obtain rfl := getLast?_eq_none_iff.mp hlast
    obtain rfl := length_eq_zero_iff.mp hlen.symm
    refine ⟨H1, ⟨some id, l.tail, (id :: b).length⟩, ⟨none, none, 0⟩, ?_,
      ⟨hnd.2.1, rfl, htail, rfl, hb1⟩, Chain.new, hf1.mono (by simp), hfr1⟩
    simp only [length_nil] at hsub
    simp [LinkedList.split_off_before_node, hget, h1, hsub, hlast, some_bind]
  · obtain ⟨H2, h2, ha2, hf2, hfr2⟩ := ha1.set_next hnd.1 hlast none
    have hta : [t] ⊆ a := by simpa using mem_of_getLast? hlast
    have hb2 := hb1.frame fun q hq => (hf2.mono hta) q fun hqa => hab q hqa hq
    have hhead : l.head = a.head? := by
      rw [h.head, head?_append_of_ne_nil _ (by rintro rfl; simp at hlast)]
    refine ⟨H2, ⟨some id, l.tail, (id :: b).length⟩, ⟨l.head, some t, a.length⟩, ?_,
      ⟨hnd.2.1, rfl, htail, rfl, hb2⟩, ⟨hnd.1, hhead, hlast.symm, rfl, ha2⟩,
      (hf1.mono (by simp)).trans (hf2.mono (by simp [mem_of_getLast? hlast])),
      hfr2.trans hfr1⟩
    simp only [LinkedList.split_off_before_node, hget, h1, h2, hsub, hlast, some_bind]

/-- The list up to a node, and the part after it. -/
theorem split_off_after_node (h : Chain H l (a ++ id :: b) (ys ++ x :: zs))
    (hlen : a.length = ys.length) :
    ∃ H' l' l'', l.split_off_after_node H (some id) (a.length + 1) = some (H', l', l'')
      ∧ Chain H' l' (a ++ [id]) (ys ++ [x]) ∧ Chain H' l'' b zs ∧ Frame H H' (a ++ id :: b)
      ∧ H'.fresh = H.fresh := by
  have hget := h.get_mid hlen
  have h' : Chain H l ((a ++ [id]) ++ b) ((ys ++ [x]) ++ zs) := by simpa using h
  obtain ⟨ha, hb⟩ := (append_iff (by simpa using hlen)).mp h'.links
  have hnd := nodup_append.mp h'.nodup
  have hab : ∀ q ∈ b, q ∉ a ++ [id] := fun q hq hqa => hnd.2.2 q hqa q hq rfl
  have hlast : (a ++ [id]).getLast? = some id := by simp
  obtain ⟨H1, h1, ha1, hf1, hfr1⟩ := ha.set_next hnd.1 hlast none
  have hid : [id] ⊆ a ++ [id] := by simp
  have hb1 := hb.frame fun q hq => (hf1.mono hid) q (hab q hq)
  have hlen' : l.len = a.length + 1 + b.length := by
    rw [h.len, length_append, length_cons]
    omega
  have hsub : checkedSub l.len (a.length + 1) = some b.length := by
    rw [checkedSub, if_pos (by omega), hlen', Nat.add_sub_cancel_left]
  have hhead : l.head = (a ++ [id]).head? := by
    rw [h'.head, head?_append_of_ne_nil _ (by simp)]
  rcases hbh : b.head? with _ | t
  · obtain rfl := head?_eq_none_iff.mp hbh
    have hzs : zs = [] := by simpa using hb
    subst hzs
    refine ⟨H1, ⟨l.head, some id, a.length + 1⟩, ⟨none, none, 0⟩, ?_,
      ⟨hnd.1, hhead, hlast.symm, by simp, ha1⟩, Chain.new, hf1.mono (by simp), hfr1⟩
    simp [LinkedList.split_off_after_node, hget, h1, hsub, hbh, some_bind]
  · obtain ⟨H2, h2, hb2, hf2, hfr2⟩ := hb1.set_prev hnd.2.1 hbh none
    have htb : t ∈ b := mem_of_head? hbh
    have ha2 := ha1.frame fun q hq => (hf2.mono (by simpa using htb)) q fun hqb => hab q hqb hq
    have htail : l.tail = b.getLast? := by
      rw [h'.tail, getLast?_append_of_ne_nil _ (by rintro rfl; simp at hbh)]
    refine ⟨H2, ⟨l.head, some id, a.length + 1⟩, ⟨some t, l.tail, b.length⟩, ?_,
      ⟨hnd.1, hhead, hlast.symm, by simp, ha2⟩, ⟨hnd.2.1, hbh.symm, htail, rfl, hb2⟩,
      (hf1.mono (by simp)).trans (hf2.mono (by simp [htb])), hfr2.trans hfr1⟩
    simp only [LinkedList.split_off_after_node, hget, h1, h2, hsub, hbh, some_bind]

/-! ## Two lists -/

theorem append {l2 : LinkedList} (h : Chain H l a ys) (h2 : Chain H l2 b zs)
    (hab : ∀ q ∈ a, q ∉ b) :
    ∃ H' l' l2', l.append H l2 = some (H', l', l2') ∧ Chain H' l' (a ++ b) (ys ++ zs)
      ∧ Chain H' l2' [] [] ∧ Frame H H' (a ++ b) ∧ H'.fresh = H.fresh := by
  rcases hlast : a.getLast? with _ | t
  · obtain rfl := getLast?_eq_none_iff.mp hlast
    have hys : ys = [] := by simpa using h.links
    subst hys
    have htail : l.tail = none := h.tail.trans hlast
    refine ⟨H, l2, l, ?_, h2, h, fun q _ => rfl, rfl⟩
    simp only [LinkedList.append, htail]
  have htail : l.tail = some t := h.tail.trans hlast
  rcases hhead : b.head? with _ | s
  · obtain rfl := head?_eq_none_iff.mp hhead
    have hzs : zs = [] := by simpa using h2.links
    subst hzs
    have hh2 : l2.head = none := h2.head.trans hhead
    refine ⟨H, l, l2, ?_, by simpa using h, h2, fun q _ => rfl, rfl⟩
    simp only [LinkedList.append, htail, hh2]
  have hh2 : l2.head = some s := h2.head.trans hhead
  have hta : t ∈ a := mem_of_getLast? hlast
  have hsb : s ∈ b := mem_of_head? hhead
  obtain ⟨H1, h1, ha1, hf1, hfr1⟩ := h.links.set_next h.nodup hlast (some s)
  have hb1 := h2.links.frame fun q hq => (hf1.mono (by simpa using hta)) q
    fun hqa => hab q hqa hq
  obtain ⟨H2, h2', hb2, hf2, hfr2⟩ := hb1.set_prev h2.nodup hhead (some t)
  have ha2 := ha1.frame fun q hq => (hf2.mono (by simpa using hsb)) q (hab q hq)
  refine ⟨H2, ⟨l.head, l2.tail, l.len + l2.len⟩, ⟨none, none, 0⟩, ?_,
    ⟨?_, ?_, ?_, ?_, ?_⟩, Chain.new,
    (hf1.mono (by simp [hta])).trans (hf2.mono (by simp [hsb])), hfr2.trans hfr1⟩
  · simp only [LinkedList.append, htail, hh2, h1, h2', some_bind]
  · exact nodup_append.mpr ⟨h.nodup, h2.nodup, fun q hq r hr hqr => hab q hq (hqr ▸ hr)⟩
  · rw [h.head, head?_append_of_ne_nil _ (by rintro rfl; simp at hta)]
  · rw [h2.tail, getLast?_append_of_ne_nil _ (by rintro rfl; simp at hsb)]
  · rw [h.len, h2.len, length_append]
  · exact (append_iff h.length_eq).mpr ⟨by simpa [hhead] using ha2,
      by simpa [hlast] using hb2⟩

end Chain

end RustStd.Collections
