import RustStd.LinkedList.Cursor

/-!
# Programs over linked lists

A program has any number of variables, each a list or a mutable cursor over one, and runs list
operations, cursor operations, and those that move nodes from one list to another. Its reference is
the same program over plain lists and lists with a gap. Main result: `programs_refine_lists`, every
program runs without a fault, gives the reference's answers, and after it the lists are disjoint
chains of nodes with the reference's elements, lengths and cursor positions (`Refines`).
-/

namespace RustStd.Collections

open List Function LinkedList

variable {T : Type}

/-! ## Two lists -/

inductive SplitOp
  | remove_current_as_list
  | split_after
  | split_before

/-- The cursor, and the list that was split off. -/
def CursorMut.split (H : Heap T) (self : CursorMut) :
    SplitOp → Option (Heap T × CursorMut × Option LinkedList)
  | .remove_current_as_list => self.remove_current_as_list H
  | .split_after => do
    let (H, c, l) ← self.split_after H
    some (H, c, some l)
  | .split_before => do
    let (H, c, l) ← self.split_before H
    some (H, c, some l)

def GapList.split (g : GapList T) : SplitOp → GapList T × Option (List T)
  | .remove_current_as_list => (g.remove_current, g.elems[g.pos]?.map fun x => [x])
  | .split_after =>
    if g.pos = g.elems.length then (⟨[], 0⟩, some g.elems)
    else (⟨g.elems.take (g.pos + 1), g.pos⟩, some (g.elems.drop (g.pos + 1)))
  | .split_before => (⟨g.elems.drop g.pos, 0⟩, some (g.elems.take g.pos))

inductive SpliceOp
  | splice_after
  | splice_before

def CursorMut.splice (H : Heap T) (self : CursorMut) (op : SpliceOp) (list : LinkedList) :
    Option (Heap T × CursorMut) :=
  match op with
  | .splice_after => self.splice_after H list
  | .splice_before => self.splice_before H list

def GapList.splice (g : GapList T) (op : SpliceOp) (ws : List T) : GapList T :=
  match op with
  | .splice_after => g.splice_after ws
  | .splice_before => g.splice_before ws

/-- The list that was split off, if any. -/
def SplitRep (H : Heap T) : Option LinkedList → List ℕ → Option (List T) → Prop
  | none, ids, none => ids = []
  | some l, ids, some ws => Chain H l ids ws
  | _, _, _ => False

namespace CursorRep

variable {H : Heap T} {c : CursorMut} {ids b : List ℕ} {g : GapList T}

/-- **Splitting.** -/
theorem split (h : CursorRep H c ids g) (op : SplitOp) :
    ∃ H' c' l? ids1 ids2, c.split H op = some (H', c', l?) ∧ CursorRep H' c' ids1 (g.split op).1
      ∧ SplitRep H' l? ids2 (g.split op).2 ∧ (∀ q ∈ ids1, q ∉ ids2)
      ∧ Effect H H' ids (ids1 ++ ids2) := by
  have hlen := h.chain.length_eq
  cases op with
  | remove_current_as_list =>
    rcases h.cases with ⟨hp, hcur, -⟩ | ⟨a, id, b, ys, x, zs, rfl, hel, hal, hpos, hcur, -⟩
    · have hnone : g.elems[g.pos]? = none := getElem?_eq_none hp.ge
      have hsame : g.remove_current = g := by
        rw [GapList.remove_current, eraseIdx_of_length_le hp.ge]
      refine ⟨H, c, none, ids, [], ?_, ?_, ?_, by simp, .of_frame (fun _ _ => rfl) rfl (by simp)⟩
      · simp only [CursorMut.split, CursorMut.remove_current_as_list, hcur]
      · simpa only [GapList.split, hsame] using h
      · simp [GapList.split, hnone, SplitRep]
    obtain ⟨H1, l', h1, hc, hget, hid, hf, hfr⟩ := h.unlink hel hal hpos
    have hget0 := (hel ▸ h.chain : Chain H c.list _ _).get_mid hal
    have hx : g.elems[g.pos]? = some x := by rw [hel, ← hpos, hal]; simp
    set H2 := H1.set id ⟨b.head?, none, x⟩ with hH2
    have h2 : set_prev H1 id none = some H2 := Store.modify_eq hget _
    set H3 := H2.set id ⟨none, none, x⟩ with hH3
    have h3 : set_next H2 id none = some H3 := Store.modify_eq Store.get_set_self _
    have hother : ∀ q, q ≠ id → H3.get q = H1.get q := fun q hq => by
      rw [hH3, Store.get_set_of_ne hq, hH2, Store.get_set_of_ne hq]
    refine ⟨H3, ⟨c.index, b.head?, l'⟩, some ⟨some id, some id, 1⟩, a ++ b, [id], ?_,
      hc.frame fun q hq => hother q ?_, ?_, ?_, ?_⟩
    · simp [CursorMut.split, CursorMut.remove_current_as_list, hcur, hget0, h1, h2, h3, some_bind]
    · rintro rfl
      exact hid hq
    · simp only [GapList.split, hx, Option.map_some, SplitRep]
      refine ⟨nodup_singleton _, rfl, rfl, rfl, ?_, trivial⟩
      rw [hH3, Store.get_set_self]
      rfl
    · intro q hq hqid
      rw [mem_singleton.mp hqid] at hq
      exact hid hq
    · refine .of_frame (fun q hq => ?_) hfr fun q hq => ?_
      · simp only [mem_append, mem_cons, not_or] at hq
        rw [hother q hq.2.1, hf q (by simp [hq.1, hq.2.2])]
      · simp only [mem_append, mem_cons, not_mem_nil, or_false] at hq ⊢
        tauto
  | split_after =>
    rcases h.cases with ⟨hp, hcur, -⟩ | ⟨a, id, b, ys, x, zs, rfl, hel, hal, hpos, hcur, -⟩
    · refine ⟨H, ⟨0, none, .new⟩, some c.list, [], ids, ?_, ?_, ?_, by simp,
        .of_frame (fun _ _ => rfl) rfl (by simp)⟩
      · have hidx : c.index = c.list.len := by rw [h.index, h.chain.len, hlen, hp]
        simp [CursorMut.split, CursorMut.split_after, hidx, hcur, split_off_after_node, some_bind]
      · rw [GapList.split, if_pos hp]
        exact ⟨Chain.new, le_rfl, rfl, rfl⟩
      · rw [GapList.split, if_pos hp]
        exact h.chain
    have hne : g.pos ≠ g.elems.length := by
      rw [hel, length_append, length_cons]
      lia
    have hch := h.chain
    rw [hel] at hch
    obtain ⟨H', l', l'', h', hc', hc'', hf, hfr⟩ := hch.split_off_after_node hal
    refine ⟨H', ⟨c.index, some id, l'⟩, some l'', a ++ [id], b, ?_, ?_, ?_, ?_,
      .of_frame hf hfr (by simp)⟩
    · have hidx : c.index ≠ c.list.len := by
        rw [h.index, h.chain.len, hlen]
        exact hne
      rw [hpos, ← h.index] at h'
      simp only [CursorMut.split, CursorMut.split_after, if_neg hidx, hcur, h', some_bind]
    · rw [GapList.split, if_neg hne, hel, append_cons ys x zs, take_left' (by simp; lia)]
      refine ⟨hc', by simp; lia, h.index, ?_⟩
      rw [← hpos]
      simp
    · rw [GapList.split, if_neg hne, hel, append_cons ys x zs, drop_left' (by simp; lia)]
      exact hc''
    · intro q hq hqb
      have hnd := hch.nodup
      rw [append_cons] at hnd
      exact disjoint_of_nodup_append hnd hq hqb
  | split_before =>
    rcases h.cases with ⟨hp, hcur, -⟩ | ⟨a, id, b, ys, x, zs, rfl, hel, hal, hpos, hcur, -⟩
    · refine ⟨H, ⟨0, none, .new⟩, some c.list, [], ids, ?_, ?_, ?_, by simp,
        .of_frame (fun _ _ => rfl) rfl (by simp)⟩
      · simp only [CursorMut.split, CursorMut.split_before, hcur, split_off_before_node, some_bind]
      · rw [GapList.split, drop_of_length_le hp.ge]
        exact ⟨Chain.new, le_rfl, rfl, rfl⟩
      · rw [GapList.split, take_of_length_le hp.ge]
        exact h.chain
    · have hch := h.chain
      rw [hel] at hch
      obtain ⟨H', l', l'', h', hc', hc'', hf, hfr⟩ := hch.split_off_before_node hal
      refine ⟨H', ⟨0, some id, l'⟩, some l'', id :: b, a, ?_, ?_, ?_, ?_,
        .of_frame hf hfr (by simp; tauto)⟩
      · rw [hpos, ← h.index] at h'
        simp only [CursorMut.split, CursorMut.split_before, hcur, h', some_bind]
      · rw [GapList.split, hel, drop_left' (by lia)]
        exact ⟨hc', by simp, rfl, rfl⟩
      · rw [GapList.split, hel, take_left' (by lia)]
        exact hc''
      · intro q hq hqa
        exact disjoint_of_nodup_append hch.nodup hqa hq

/-- **Splicing.** -/
theorem splice_op (h : CursorRep H c ids g) {l : LinkedList} {ws : List T} (hl : Chain H l b ws)
    (hdisj : ∀ q ∈ ids, q ∉ b) (op : SpliceOp) :
    ∃ H' c' ids', c.splice H op l = some (H', c') ∧ CursorRep H' c' ids' (g.splice op ws)
      ∧ Effect H H' (ids ++ b) ids' := by
  rcases hhead : l.head with _ | s
  · obtain ⟨rfl, rfl⟩ := hl.eq_nil_of_head hhead
    have hsame : g.splice op [] = g := by
      cases op <;> simp [GapList.splice, GapList.splice_after, GapList.splice_before]
    refine ⟨H, c, ids, ?_, by rwa [hsame], .of_frame (fun _ _ => rfl) rfl (by simp)⟩
    cases op <;> simp [CursorMut.splice, CursorMut.splice_after, CursorMut.splice_before,
      detach_all_nodes, hhead]
  have hs : b.head? = some s := hl.head.symm.trans hhead
  have hne : b ≠ [] := by
    rintro rfl
    simp at hs
  obtain ⟨e, he⟩ : ∃ e, b.getLast? = some e := ⟨_, getLast?_eq_some_getLast hne⟩
  have htail : l.tail = some e := hl.tail.trans he
  have hbi : ∀ q ∈ b, q ∉ ids := fun q hq hqi => hdisj q hqi hq
  have hsub : ∀ n, ∀ q ∈ ids.take n ++ (b ++ ids.drop n), q ∈ ids ++ b := by
    intro n q hq
    simp only [mem_append] at hq ⊢
    rcases hq with hq | hq | hq
    · exact .inl (mem_of_mem_take hq)
    · exact .inr hq
    · exact .inl (mem_of_mem_drop hq)
  have hframe : ∀ {H' : Heap T}, Frame H H' (b ++ ids) → Frame H H' (ids ++ b) :=
    fun hf => hf.mono (by simp)
  cases op with
  | splice_after =>
    obtain ⟨H', l', h', hc, hf, hfr⟩ := h.splice g.gap_after hl.links hl.nodup hbi hs he
    rw [← h.current_eq_getLast, ← hl.len] at h'
    refine ⟨H', _, _, ?_, h.of_splice_after hl.length_eq hc, .of_frame (hframe hf) hfr (hsub _)⟩
    simp only [CursorMut.splice, CursorMut.splice_after, detach_all_nodes, hhead,
      htail, h.node_next, h', some_bind]
  | splice_before =>
    obtain ⟨H', l', h', hc, hf, hfr⟩ := h.splice g.pos hl.links hl.nodup hbi hs he
    have hlw : l.len = ws.length := hl.len.trans hl.length_eq
    rw [← h.current_eq_head, ← hl.len, hlw] at h'
    refine ⟨H', _, _, ?_, h.of_splice_before hl.length_eq hc, .of_frame (hframe hf) hfr (hsub _)⟩
    simp [CursorMut.splice, CursorMut.splice_before, detach_all_nodes, hhead, htail, h.node_prev,
      h', some_bind, hlw]

end CursorRep

/-! ## Programs -/

/-- A variable holds a list, or a cursor that borrows it. -/
inductive Var
  | list (l : LinkedList)
  | cursor (c : CursorMut)

def Var.elems : Var → LinkedList
  | .list l => l
  | .cursor c => c.list

/-- The variables below `count` are declared. -/
structure World (T : Type) where
  heap : Heap T
  vars : ℕ → Var
  count : ℕ

inductive Op (T : Type)
  | new
  | list (i : ℕ) (op : ListOp T)
  | append (i j : ℕ)
  | cursor_front_mut (i : ℕ)
  | cursor_back_mut (i : ℕ)
  | cursor (i : ℕ) (op : CursorOp T)
  | split (i : ℕ) (op : SplitOp)
  | splice (i : ℕ) (op : SpliceOp) (j : ℕ)

namespace World

def empty : World T := ⟨.empty, fun _ => .list .new, 0⟩

/-- One operation. Using a list ends the borrow of a cursor over it, a list that is spliced is moved
out of its variable, and a list that is split off gets a new one. Nothing happens where the program
would not compile: a variable that is not declared or not a cursor, a list with itself. -/
def step (w : World T) : Op T → Option (World T × Answer T)
  | .new =>
    some (⟨w.heap, update w.vars w.count (.list .new), w.count + 1⟩, .list (some w.count))
  | .list i op =>
    if i < w.count then do
      let (H, l, a) ← (w.vars i).elems.run w.heap op
      some (⟨H, update w.vars i (.list l), w.count⟩, a)
    else some (w, .unit)
  | .append i j =>
    if i < w.count ∧ j < w.count ∧ i ≠ j then do
      let (H, l, l') ← (w.vars i).elems.append w.heap (w.vars j).elems
      some (⟨H, update (update w.vars i (.list l)) j (.list l'), w.count⟩, .unit)
    else some (w, .unit)
  | .cursor_front_mut i =>
    if i < w.count then
      some (⟨w.heap, update w.vars i (.cursor (w.vars i).elems.cursor_front_mut), w.count⟩, .unit)
    else some (w, .unit)
  | .cursor_back_mut i =>
    if i < w.count then
      some (⟨w.heap, update w.vars i (.cursor (w.vars i).elems.cursor_back_mut), w.count⟩, .unit)
    else some (w, .unit)
  | .cursor i op =>
    match w.vars i with
    | .cursor c => do
      let (H, c, a) ← c.run w.heap op
      some (⟨H, update w.vars i (.cursor c), w.count⟩, a)
    | .list _ => some (w, .unit)
  | .split i op =>
    match w.vars i with
    | .cursor c => do
      match ← c.split w.heap op with
      | (H, c, none) => some (⟨H, update w.vars i (.cursor c), w.count⟩, .list none)
      | (H, c, some l) =>
        some (⟨H, update (update w.vars i (.cursor c)) w.count (.list l),
          w.count + 1⟩, .list (some w.count))
    | .list _ => some (w, .unit)
  | .splice i op j =>
    match w.vars i with
    | .cursor c =>
      if j < w.count ∧ i ≠ j then do
        let (H, c) ← c.splice w.heap op (w.vars j).elems
        some (⟨H, update (update w.vars i (.cursor c)) j (.list .new), w.count⟩, .unit)
      else some (w, .unit)
    | .list _ => some (w, .unit)

/-- Run a program; the answers are in order. -/
def run (w : World T) : List (Op T) → Option (World T × List (Answer T))
  | [] => some (w, [])
  | op :: ops => do
    let (w, a) ← w.step op
    let (w, as) ← w.run ops
    some (w, a :: as)

end World

/-! ## The reference -/

inductive RefVar (T : Type)
  | list (xs : List T)
  | cursor (g : GapList T)

def RefVar.elems : RefVar T → List T
  | .list xs => xs
  | .cursor g => g.elems

/-- Variables that hold plain lists, and lists with a gap. -/
structure RefWorld (T : Type) where
  vars : ℕ → RefVar T
  count : ℕ

namespace RefWorld

def empty : RefWorld T := ⟨fun _ => .list [], 0⟩

def step (r : RefWorld T) : Op T → RefWorld T × Answer T
  | .new => (⟨update r.vars r.count (.list []), r.count + 1⟩, .list (some r.count))
  | .list i op =>
    if i < r.count then
      (⟨update r.vars i (.list (op.run (r.vars i).elems).1), r.count⟩, (op.run (r.vars i).elems).2)
    else (r, .unit)
  | .append i j =>
    if i < r.count ∧ j < r.count ∧ i ≠ j then
      (⟨update (update r.vars i (.list ((r.vars i).elems ++ (r.vars j).elems))) j
        (.list []), r.count⟩, .unit)
    else (r, .unit)
  | .cursor_front_mut i =>
    if i < r.count then
      (⟨update r.vars i (.cursor ⟨(r.vars i).elems, 0⟩), r.count⟩, .unit)
    else (r, .unit)
  | .cursor_back_mut i =>
    if i < r.count then
      (⟨update r.vars i (.cursor ⟨(r.vars i).elems, (r.vars i).elems.length - 1⟩), r.count⟩, .unit)
    else (r, .unit)
  | .cursor i op =>
    match r.vars i with
    | .cursor g => (⟨update r.vars i (.cursor (g.run op).1), r.count⟩, (g.run op).2)
    | .list _ => (r, .unit)
  | .split i op =>
    match r.vars i with
    | .cursor g =>
      match g.split op with
      | (g, none) => (⟨update r.vars i (.cursor g), r.count⟩, .list none)
      | (g, some xs) =>
        (⟨update (update r.vars i (.cursor g)) r.count (.list xs), r.count + 1⟩,
          .list (some r.count))
    | .list _ => (r, .unit)
  | .splice i op j =>
    match r.vars i with
    | .cursor g =>
      if j < r.count ∧ i ≠ j then
        (⟨update (update r.vars i (.cursor (g.splice op (r.vars j).elems))) j
          (.list []), r.count⟩, .unit)
      else (r, .unit)
    | .list _ => (r, .unit)

def run (r : RefWorld T) : List (Op T) → RefWorld T × List (Answer T)
  | [] => (r, [])
  | op :: ops => (((r.step op).1.run ops).1, (r.step op).2 :: ((r.step op).1.run ops).2)

end RefWorld

/-! ## Refinement -/

/-- The variable's list is the chain `ids` of the reference's elements, and its cursor, if it has
one, is where the reference's is. -/
def VarRep (H : Heap T) : Var → List ℕ → RefVar T → Prop
  | .list l, ids, .list xs => Chain H l ids xs
  | .cursor c, ids, .cursor g => CursorRep H c ids g
  | _, _, _ => False

theorem VarRep.chain {H : Heap T} {v : Var} {ids : List ℕ} {r : RefVar T} (h : VarRep H v ids r) :
    Chain H v.elems ids r.elems := by
  cases v <;> cases r
  · exact h
  · exact h.elim
  · exact h.elim
  · exact CursorRep.chain h

theorem VarRep.frame {H H' : Heap T} {v : Var} {ids : List ℕ} {r : RefVar T} (h : VarRep H v ids r)
    (hsame : ∀ q ∈ ids, H'.get q = H.get q) : VarRep H' v ids r := by
  cases v <;> cases r
  · exact Chain.frame h hsame
  · exact h.elim
  · exact h.elim
  · exact CursorRep.frame h hsame

/-- Every variable's list is a chain of nodes as the reference says, no node is in two lists, and
variables that are not declared hold nothing. -/
structure Refines (w : World T) (r : RefWorld T) (chains : ℕ → List ℕ) : Prop where
  var : ∀ i, VarRep w.heap (w.vars i) (chains i) (r.vars i)
  disjoint : ∀ i j q, q ∈ chains i → q ∈ chains j → i = j
  lt_fresh : ∀ i, ∀ q ∈ chains i, q < w.heap.fresh
  count : w.count = r.count
  unused : ∀ i, w.count ≤ i → chains i = [] ∧ ∃ l, w.vars i = .list l

namespace Refines

variable {w : World T} {r : RefWorld T} {chains : ℕ → List ℕ}

/-- Two variables change, and the nodes of no other. -/
theorem update₂ (h : Refines w r chains) {i j n : ℕ} (hij : i ≠ j) {H' : Heap T} {u v : Var}
    {x y : RefVar T} {ids1 ids2 : List ℕ} (h1 : VarRep H' u ids1 x) (h2 : VarRep H' v ids2 y)
    (hdisj : ∀ q ∈ ids1, q ∉ ids2) (he : Effect w.heap H' (chains i ++ chains j) (ids1 ++ ids2))
    (hn : w.count ≤ n) (hi : i < n)
    (hj : n ≤ j → ids2 = [] ∧ ∃ l, v = .list l) :
    Refines ⟨H', update (update w.vars i u) j v, n⟩
      ⟨update (update r.vars i x) j y, n⟩
      (update (update chains i ids1) j ids2) := by
  have hj' : ∀ k, update (update chains i ids1) j ids2 k
      = if k = j then ids2 else if k = i then ids1 else chains k := by
    intro k
    rw [update_apply, update_apply]
  have hother : ∀ k, k ≠ i → k ≠ j → ∀ q ∈ chains k, q ∉ ids1 ++ ids2 := by
    intro k hki hkj q hq hmem
    rcases he.owned q hmem with hold | hnew
    · rcases mem_append.mp hold with hold | hold
      · exact hki (h.disjoint k i q hq hold)
      · exact hkj (h.disjoint k j q hq hold)
    · have := h.lt_fresh k q hq
      lia
  refine ⟨fun k => ?_, fun k k' q hk hk' => ?_, fun k q hq => ?_, rfl, fun k hk => ?_⟩
  · by_cases hkj : k = j
    · subst hkj; simpa using h2
    · by_cases hki : k = i
      · subst hki; simpa [hkj] using h1
      · simp only [update_of_ne hkj, update_of_ne hki]
        refine (h.var k).frame fun q hq => he.frame q (fun hmem => ?_) (h.lt_fresh k q hq)
        rcases mem_append.mp hmem with hold | hold
        · exact hki (h.disjoint k i q hq hold)
        · exact hkj (h.disjoint k j q hq hold)
  · rw [hj'] at hk hk'
    have ho := hother k
    have ho' := hother k'
    have hd := h.disjoint k k' q
    simp only [mem_append, not_or] at ho ho'
    grind
  · rw [hj'] at hq
    have hnew : ∀ q ∈ ids1 ++ ids2, q < H'.fresh := by
      intro q hq
      rcases he.owned q hq with hold | hnew
      · have := he.fresh_le
        rcases mem_append.mp hold with hold | hold
        · exact lt_of_lt_of_le (h.lt_fresh i q hold) this
        · exact lt_of_lt_of_le (h.lt_fresh j q hold) this
      · exact hnew.2
    split at hq
    · exact hnew q (mem_append_right _ hq)
    · split at hq
      · exact hnew q (mem_append_left _ hq)
      · exact lt_of_lt_of_le (h.lt_fresh k q hq) he.fresh_le
  · simp only at hk
    by_cases hkj : k = j
    · subst hkj
      simpa using hj hk
    · have hki : k ≠ i := by lia
      simpa [update_of_ne, hkj, hki] using h.unused k (by lia)

/-- One variable changes. -/
theorem update (h : Refines w r chains) {i : ℕ} {H' : Heap T} {v : Var} {x : RefVar T}
    {ids : List ℕ} (hv : VarRep H' v ids x) (he : Effect w.heap H' (chains i) ids)
    (hi : i < w.count) :
    Refines ⟨H', update w.vars i v, w.count⟩ ⟨update r.vars i x, r.count⟩
      (update chains i ids) := by
  obtain ⟨hnil, hlist⟩ := h.unused w.count le_rfl
  have hother : ∀ q ∈ chains w.count, H'.get q = w.heap.get q := by simp [hnil]
  have := h.update₂ (j := w.count) hi.ne hv ((h.var w.count).frame hother) (by simp [hnil])
    (by simpa [hnil] using he) le_rfl hi (fun _ => ⟨hnil, hlist⟩)
  rw [update_comm hi.ne, update_eq_self, update_comm hi.ne,
    update_eq_self, update_comm hi.ne, update_eq_self] at this
  rwa [← h.count]

theorem empty : Refines (World.empty : World T) .empty fun _ => [] :=
  ⟨fun _ => Chain.new, by simp, by simp, rfl, fun _ _ => ⟨rfl, _, rfl⟩⟩

variable (h : Refines w r chains)
include h

/-- A variable that is a cursor is one in the reference, and is declared. -/
theorem cursor {i : ℕ} {c : CursorMut} (hc : w.vars i = .cursor c) :
    ∃ g, r.vars i = .cursor g ∧ CursorRep w.heap c (chains i) g ∧ i < w.count := by
  have hi : i < w.count := by
    by_contra hlt
    obtain ⟨-, l, hl⟩ := h.unused i (not_lt.mp hlt)
    rw [hc] at hl
    cases hl
  have hv := h.var i
  rw [hc] at hv
  cases hg : r.vars i with
  | list xs => rw [hg] at hv; exact hv.elim
  | cursor g => rw [hg] at hv; exact ⟨g, rfl, hv, hi⟩

theorem not_cursor {i : ℕ} {l : LinkedList} (hl : w.vars i = .list l) :
    ∃ xs, r.vars i = .list xs := by
  have hv := h.var i
  rw [hl] at hv
  cases hg : r.vars i with
  | list xs => exact ⟨xs, rfl⟩
  | cursor g => rw [hg] at hv; exact hv.elim

/-- **One operation** runs without a fault and does what the reference does. -/
theorem step (op : Op T) :
    ∃ w' chains', w.step op = some (w', (r.step op).2) ∧ Refines w' (r.step op).1 chains' := by
  have hcount := h.count
  have hrefl : ∀ ids, Effect w.heap w.heap ids ids :=
    fun ids => .of_frame (fun _ _ => rfl) rfl fun _ hq => hq
  have hskip : w.step op = some (w, .unit) → r.step op = (r, .unit) →
      ∃ w' chains', w.step op = some (w', (r.step op).2) ∧ Refines w' (r.step op).1 chains' := by
    intro hw hr
    rw [hw, hr]
    exact ⟨w, chains, rfl, h⟩
  cases op with
  | new =>
    refine ⟨⟨w.heap, Function.update w.vars w.count (.list .new), w.count + 1⟩, chains,
      by rw [World.step, RefWorld.step, hcount], ?_⟩
    rw [RefWorld.step, ← hcount]
    refine ⟨fun k => ?_, h.disjoint, h.lt_fresh, rfl, fun k hk => ?_⟩
    · by_cases hk : k = w.count
      · subst hk
        simpa [(h.unused w.count le_rfl).1, VarRep] using (Chain.new : Chain w.heap _ _ _)
      · simpa [hk] using h.var k
    · have hk' : w.count + 1 ≤ k := hk
      simpa [show k ≠ w.count by lia] using h.unused k (by lia)
  | list i op =>
    by_cases hi : i < w.count
    · obtain ⟨H', l', ids', h', hc, he⟩ := (h.var i).chain.run (h.lt_fresh i) op
      have hnew := h.update (v := .list l') (x := .list (op.run (r.vars i).elems).1) hc he hi
      have hr : r.step (.list i op) = (⟨Function.update r.vars i
          (.list (op.run (r.vars i).elems).1), r.count⟩, (op.run (r.vars i).elems).2) := by
        rw [RefWorld.step, if_pos (hcount ▸ hi)]
      rw [hr]
      exact ⟨_, _, by simp [World.step, hi, h'], hnew⟩
    · exact hskip (by rw [World.step, if_neg hi]) (by rw [RefWorld.step, if_neg (hcount ▸ hi)])
  | append i j =>
    by_cases hij : i < w.count ∧ j < w.count ∧ i ≠ j
    · obtain ⟨hi, hj, hne⟩ := hij
      obtain ⟨H', l', l2', h', hc, hc2, hf, hfr⟩ := (h.var i).chain.append (h.var j).chain
        fun q hq hq' => hne (h.disjoint i j q hq hq')
      have hnew := h.update₂ (u := .list l') (v := .list l2')
        (x := .list ((r.vars i).elems ++ (r.vars j).elems)) (y := .list []) hne hc hc2
        (by simp) (.of_frame hf hfr (by simp)) le_rfl hi fun hle => absurd hj (not_lt.mpr hle)
      rw [RefWorld.step, if_pos (by lia), ← hcount]
      exact ⟨_, _, by simp [World.step, hi, hj, hne, h'], hnew⟩
    · exact hskip (by rw [World.step, if_neg hij]) (by rw [RefWorld.step, if_neg (hcount ▸ hij)])
  | cursor_front_mut i =>
    by_cases hi : i < w.count
    · have hc := (h.var i).chain
      have hrep : CursorRep w.heap (w.vars i).elems.cursor_front_mut (chains i)
          ⟨(r.vars i).elems, 0⟩ :=
        ⟨hc, Nat.zero_le _, rfl, by rw [← List.head?_eq_getElem?]; exact hc.head⟩
      have hnew := h.update (v := .cursor _) (x := .cursor _) hrep (hrefl _) hi
      rw [RefWorld.step, if_pos (hcount ▸ hi)]
      exact ⟨_, _, by rw [World.step, if_pos hi], hnew⟩
    · exact hskip (by rw [World.step, if_neg hi]) (by rw [RefWorld.step, if_neg (hcount ▸ hi)])
  | cursor_back_mut i =>
    by_cases hi : i < w.count
    · have hc := (h.var i).chain
      have hrep : CursorRep w.heap (w.vars i).elems.cursor_back_mut (chains i)
          ⟨(r.vars i).elems, (r.vars i).elems.length - 1⟩ := by
        refine ⟨hc, Nat.sub_le _ _, ?_, ?_⟩
        · rw [cursor_back_mut, hc.len, hc.length_eq]
        · rw [cursor_back_mut, hc.tail, List.getLast?_eq_getElem?, hc.length_eq]
      have hnew := h.update (v := .cursor _) (x := .cursor _) hrep (hrefl _) hi
      rw [RefWorld.step, if_pos (hcount ▸ hi)]
      exact ⟨_, _, by rw [World.step, if_pos hi], hnew⟩
    · exact hskip (by rw [World.step, if_neg hi]) (by rw [RefWorld.step, if_neg (hcount ▸ hi)])
  | cursor i op =>
    cases hv : w.vars i with
    | list l =>
      obtain ⟨xs, hxs⟩ := h.not_cursor hv
      exact hskip (by rw [World.step, hv]) (by rw [RefWorld.step, hxs])
    | cursor c =>
      obtain ⟨g, hg, hrep, hi⟩ := h.cursor hv
      obtain ⟨H', c', ids', h', hc, he⟩ := hrep.run (h.lt_fresh i) op
      have hnew := h.update (v := .cursor c') (x := .cursor (g.run op).1) hc he hi
      rw [RefWorld.step, hg]
      exact ⟨_, _, by simp [World.step, hv, h'], hnew⟩
  | split i op =>
    cases hv : w.vars i with
    | list l =>
      obtain ⟨xs, hxs⟩ := h.not_cursor hv
      exact hskip (by rw [World.step, hv]) (by rw [RefWorld.step, hxs])
    | cursor c =>
      obtain ⟨g, hg, hrep, hi⟩ := h.cursor hv
      obtain ⟨H', c', l?, ids1, ids2, h', hc, hl, hdisj, he⟩ := hrep.split op
      rcases hs : g.split op with ⟨g', _ | ws⟩
      · rw [hs] at hc hl
        cases l? with
        | some l => exact hl.elim
        | none =>
          obtain rfl : ids2 = [] := hl
          have hnew := h.update (v := .cursor c') (x := .cursor g') hc (by simpa using he) hi
          rw [RefWorld.step, hg]
          simp only [hs]
          exact ⟨_, _, by simp [World.step, hv, h'], hnew⟩
      · rw [hs] at hc hl
        cases l? with
        | none => exact hl.elim
        | some l =>
          have hnil := (h.unused w.count le_rfl).1
          have hnew := h.update₂ (n := w.count + 1) (u := .cursor c') (v := .list l)
            (x := .cursor g') (y := .list ws) hi.ne hc hl hdisj (by simpa [hnil] using he)
            (Nat.le_succ _) (by lia) fun hle => by lia
          rw [RefWorld.step, hg]
          simp only [hs, ← hcount]
          exact ⟨_, _, by simp [World.step, hv, h'], hnew⟩
  | splice i op j =>
    cases hv : w.vars i with
    | list l =>
      obtain ⟨xs, hxs⟩ := h.not_cursor hv
      exact hskip (by rw [World.step, hv]) (by rw [RefWorld.step, hxs])
    | cursor c =>
      obtain ⟨g, hg, hrep, hi⟩ := h.cursor hv
      by_cases hij : j < w.count ∧ i ≠ j
      · obtain ⟨hj, hne⟩ := hij
        obtain ⟨H', c', ids', h', hc, he⟩ := hrep.splice_op (h.var j).chain
          (fun q hq hq' => hne (h.disjoint i j q hq hq')) op
        have hnew := h.update₂ (u := .cursor c') (v := .list .new)
          (x := .cursor (g.splice op (r.vars j).elems)) (y := .list []) hne hc
          (Chain.new : Chain H' _ _ _) (by simp) (by simpa using he) le_rfl hi
          fun hle => absurd hj (not_lt.mpr hle)
        rw [RefWorld.step, hg]
        simp only [← hcount]
        rw [if_pos ⟨hj, hne⟩]
        exact ⟨_, _, by simp [World.step, hv, hj, hne, h'], hnew⟩
      · refine hskip ?_ ?_
        · rw [World.step, hv]
          exact if_neg hij
        · rw [RefWorld.step, hg, ← hcount]
          exact if_neg hij

end Refines

/-- **Every program over linked lists refines the program over plain lists**, from any state that
refines one. -/
theorem run_refines {w : World T} {r : RefWorld T} {chains : ℕ → List ℕ} (h : Refines w r chains)
    (ops : List (Op T)) :
    ∃ w' chains', w.run ops = some (w', (r.run ops).2) ∧ Refines w' (r.run ops).1 chains' := by
  induction ops generalizing w r chains with
  | nil => exact ⟨w, chains, rfl, h⟩
  | cons op ops ih =>
    obtain ⟨w1, chains1, h1, hr1⟩ := h.step op
    obtain ⟨w2, chains2, h2, hr2⟩ := ih hr1
    exact ⟨w2, chains2, by simp [World.run, RefWorld.run, h1, h2], hr2⟩

/-- **Linked lists are lists.** Every program runs without a fault and gives the answers of the
program over plain lists; after it, each list is a chain of nodes linked both ways with the
reference's elements and length, no node is in two lists, and each cursor is at the reference's
position. -/
theorem programs_refine_lists (ops : List (Op T)) :
    ∃ w chains, World.empty.run ops = some (w, (RefWorld.empty.run ops).2)
      ∧ Refines w (RefWorld.empty.run ops).1 chains :=
  run_refines .empty ops

end RustStd.Collections
