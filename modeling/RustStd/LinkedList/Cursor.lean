import RustStd.LinkedList.Operations

/-!
# A list with a cursor

The reference for a cursor is a list and a position, which is the list's length at the "ghost"
(`GapList`). A `CursorMut` whose list is a chain of nodes, whose index is the position and whose
current node is the one there (`CursorRep`) stays so under every operation and gives the same
answers. `Effect` records that an operation touches only the nodes of its lists and new ones.
-/

namespace RustStd.Collections

open List Option Store

variable {T : Type}

/-- The nodes `ids` were changed into `ids'`, others were not touched. -/
structure Effect (H H' : Heap T) (ids ids' : List ℕ) : Prop where
  frame : ∀ q, q ∉ ids → q < H.fresh → H'.get q = H.get q
  owned : ∀ q ∈ ids', q ∈ ids ∨ H.fresh ≤ q ∧ q < H'.fresh
  fresh_le : H.fresh ≤ H'.fresh

theorem Effect.of_frame {H H' : Heap T} {ids ids' : List ℕ} (hf : Frame H H' ids)
    (hfr : H'.fresh = H.fresh) (hsub : ∀ q ∈ ids', q ∈ ids) : Effect H H' ids ids' :=
  ⟨fun q hq _ => hf q hq, fun q hq => .inl (hsub q hq), hfr.ge⟩

/-! ## Operations on lists -/

inductive ListOp (T : Type)
  | push_front (elt : T)
  | push_back (elt : T)
  | pop_front
  | pop_back

/-- What an operation returns: nothing, an element, an index, or the number of a new list. -/
inductive Answer (T : Type)
  | unit
  | element (x : Option T)
  | index (i : Option ℕ)
  | list (v : Option ℕ)

def LinkedList.run (H : Heap T) (self : LinkedList) :
    ListOp T → Option (Heap T × LinkedList × Answer T)
  | .push_front elt => do
    let (H, l) ← self.push_front H elt
    some (H, l, .unit)
  | .push_back elt => do
    let (H, l) ← self.push_back H elt
    some (H, l, .unit)
  | .pop_front => do
    let (H, l, x) ← self.pop_front H
    some (H, l, .element x)
  | .pop_back => do
    let (H, l, x) ← self.pop_back H
    some (H, l, .element x)

/-- The operations of a list, on its elements. -/
def ListOp.run (xs : List T) : ListOp T → List T × Answer T
  | .push_front elt => (elt :: xs, .unit)
  | .push_back elt => (xs ++ [elt], .unit)
  | .pop_front => (xs.tail, .element xs.head?)
  | .pop_back => (xs.dropLast, .element xs.getLast?)

namespace Chain

variable {H : Heap T} {l : LinkedList} {ids : List ℕ} {xs : List T}

variable (h : Chain H l ids xs)
include h

variable (hids : ∀ q ∈ ids, q < H.fresh)
include hids

/-- A new node beside a list. -/
theorem alloc (x : Node T) : Chain (H.alloc x).1 l ids xs :=
  h.frame fun q hq => get_alloc_of_ne (hids q hq).ne

theorem push_front (x : T) :
    ∃ H' l', l.push_front H x = some (H', l') ∧ Chain H' l' (H.fresh :: ids) (x :: xs)
      ∧ Effect H H' ids (H.fresh :: ids) := by
  obtain ⟨H', l', h', hc, hf, hfr⟩ := (h.alloc hids ⟨none, none, x⟩).push_front_node
    get_alloc_self fun hmem => absurd (hids _ hmem) (lt_irrefl _)
  refine ⟨H', l', h', hc, ⟨fun q hq hlt => ?_, fun q hq => ?_, by rw [hfr]; simp⟩⟩
  · rw [hf q (by simp [hq, hlt.ne]), get_alloc_of_ne hlt.ne]
  · rw [hfr, fresh_alloc]
    rcases mem_cons.mp hq with rfl | hq
    · exact .inr ⟨le_rfl, Nat.lt_succ_self _⟩
    · exact .inl hq

theorem push_back (x : T) :
    ∃ H' l', l.push_back H x = some (H', l') ∧ Chain H' l' (ids ++ [H.fresh]) (xs ++ [x])
      ∧ Effect H H' ids (ids ++ [H.fresh]) := by
  obtain ⟨H', l', h', hc, hf, hfr⟩ := (h.alloc hids ⟨none, none, x⟩).push_back_node
    get_alloc_self fun hmem => absurd (hids _ hmem) (lt_irrefl _)
  refine ⟨H', l', h', hc, ⟨fun q hq hlt => ?_, fun q hq => ?_, by rw [hfr]; simp⟩⟩
  · rw [hf q (by simp [hq, hlt.ne]), get_alloc_of_ne hlt.ne]
  · rw [hfr, fresh_alloc]
    rcases mem_append.mp hq with hq | hq
    · exact .inl hq
    · rw [mem_singleton.mp hq]
      exact .inr ⟨le_rfl, Nat.lt_succ_self _⟩

omit hids

/-- Freeing a node that was taken out. -/
theorem into_element {id : ℕ} {n : Node T} {H0 : Heap T}
    (hn : H.get id = some n) (hid : id ∉ ids) (hf : Frame H0 H ids) (hfr : H.fresh = H0.fresh)
    (ids' : List ℕ)
    (hids' : ∀ q, q ∈ ids ∨ q = id → q ∈ ids') :
    ∃ H', Collections.into_element H id = some (H', n.element) ∧ Chain H' l ids xs
      ∧ Effect H0 H' ids' ids := by
  refine ⟨H.deallocate id, ?_, h.frame fun q hq => get_deallocate_of_ne ?_,
    ⟨fun q hq _ => ?_, fun q hq => .inl (hids' q (.inl hq)), hfr.ge⟩⟩
  · simp only [Collections.into_element, hn, some_bind]
  · rintro rfl
    exact hid hq
  · rw [get_deallocate_of_ne fun hqid => hq (hids' q (.inr hqid)),
      hf q fun hmem => hq (hids' q (.inl hmem))]

theorem pop_front : ∃ H' l', l.pop_front H = some (H', l', xs.head?) ∧ Chain H' l' ids.tail xs.tail
      ∧ Effect H H' ids ids.tail := by
  rcases ids with _ | ⟨id, ids⟩
  · have hxs : xs = [] := by simpa using h.links
    subst hxs
    have hhead : l.head = none := h.head
    refine ⟨H, l, ?_, h, .of_frame (fun _ _ => rfl) rfl (by simp)⟩
    simp [LinkedList.pop_front, LinkedList.pop_front_node, hhead]
  · obtain ⟨x, xs, rfl, hget, -⟩ := Seg.cons_iff.mp h.links
    obtain ⟨H1, l', h1, hc, hf, hfr⟩ := h.pop_front_node
    have hid := (nodup_cons.mp h.nodup).1
    obtain ⟨H', h', hc', he⟩ := hc.into_element (by rw [hf id hid]; exact hget) hid hf hfr
      (id :: ids) (by simp [or_comm])
    refine ⟨H', l', ?_, hc', he⟩
    simp [LinkedList.pop_front, h1, h']

theorem pop_back :
    ∃ H' l', l.pop_back H = some (H', l', xs.getLast?) ∧ Chain H' l' ids.dropLast xs.dropLast
      ∧ Effect H H' ids ids.dropLast := by
  rcases eq_nil_or_concat ids with rfl | ⟨ids, id, rfl⟩
  · have hxs : xs = [] := by simpa using h.links
    subst hxs
    have htail : l.tail = none := h.tail
    refine ⟨H, l, ?_, h, .of_frame (fun _ _ => rfl) rfl (by simp)⟩
    simp [LinkedList.pop_back, LinkedList.pop_back_node, htail]
  obtain ⟨xs, x, rfl⟩ : ∃ ys y, xs = ys ++ [y] := by
    rcases eq_nil_or_concat xs with rfl | ⟨ys, y, rfl⟩
    · simpa using h.length_eq
    · exact ⟨ys, y, by simp⟩
  rw [concat_eq_append] at h ⊢
  have hlen : ids.length = xs.length := by simpa using h.length_eq
  obtain ⟨H1, l', h1, hc, hf, hfr⟩ := h.pop_back_node
  have hid : id ∉ ids := fun hmem =>
    (nodup_append.mp h.nodup).2.2 id hmem id mem_cons_self rfl
  obtain ⟨H', h', hc', he⟩ := hc.into_element (by rw [hf id hid]; exact h.get_mid hlen) hid hf hfr
    (ids ++ [id]) (by simp)
  refine ⟨H', l', ?_, by simpa using hc', by simpa using he⟩
  simp [LinkedList.pop_back, h1, h']

/-- **Every operation of a list does what it does to the elements.** -/
theorem run (hids : ∀ q ∈ ids, q < H.fresh) (op : ListOp T) :
    ∃ H' l' ids', l.run H op = some (H', l', (op.run xs).2) ∧ Chain H' l' ids' (op.run xs).1
      ∧ Effect H H' ids ids' := by
  cases op with
  | push_front x =>
    obtain ⟨H', l', h', hc, he⟩ := h.push_front hids x
    exact ⟨H', l', _, by simp [LinkedList.run, h', ListOp.run], hc, he⟩
  | push_back x =>
    obtain ⟨H', l', h', hc, he⟩ := h.push_back hids x
    exact ⟨H', l', _, by simp [LinkedList.run, h', ListOp.run], hc, he⟩
  | pop_front =>
    obtain ⟨H', l', h', hc, he⟩ := h.pop_front
    exact ⟨H', l', _, by simp [LinkedList.run, h', ListOp.run], hc, he⟩
  | pop_back =>
    obtain ⟨H', l', h', hc, he⟩ := h.pop_back
    exact ⟨H', l', _, by simp [LinkedList.run, h', ListOp.run], hc, he⟩

end Chain

/-! ## Cursors -/

/-- The operations of a cursor that need no other list. -/
inductive CursorOp (T : Type)
  | move_next
  | move_prev
  | insert_after (item : T)
  | insert_before (item : T)
  | remove_current
  | push_front (elt : T)
  | push_back (elt : T)
  | pop_front
  | pop_back
  | index
  | current

def CursorMut.run (H : Heap T) (self : CursorMut) :
    CursorOp T → Option (Heap T × CursorMut × Answer T)
  | .move_next => do some (H, ← self.move_next H, .unit)
  | .move_prev => do some (H, ← self.move_prev H, .unit)
  | .insert_after item => do
    let (H, c) ← self.insert_after H item
    some (H, c, .unit)
  | .insert_before item => do
    let (H, c) ← self.insert_before H item
    some (H, c, .unit)
  | .remove_current => do
    let (H, c, x) ← self.remove_current H
    some (H, c, .element x)
  | .push_front elt => do
    let (H, c) ← self.push_front H elt
    some (H, c, .unit)
  | .push_back elt => do
    let (H, c) ← self.push_back H elt
    some (H, c, .unit)
  | .pop_front => do
    let (H, c, x) ← self.pop_front H
    some (H, c, .element x)
  | .pop_back => do
    let (H, c, x) ← self.pop_back H
    some (H, c, .element x)
  | .index => some (H, self, .index self.get_index)
  | .current => do some (H, self, .element (← self.get_current H))

/-- A list with a cursor at one of its elements, or past them all at the "ghost". -/
structure GapList (T : Type) where
  elems : List T
  pos : ℕ

open GapList

namespace GapList

/-- The gap after the current element; after the ghost the list begins again. -/
def gap_after (g : GapList T) : ℕ := if g.pos = g.elems.length then 0 else g.pos + 1

def move_next (g : GapList T) : GapList T := ⟨g.elems, g.gap_after⟩

def move_prev (g : GapList T) : GapList T :=
  ⟨g.elems, if g.pos = 0 then g.elems.length else g.pos - 1⟩

def splice_after (g : GapList T) (ws : List T) : GapList T :=
  ⟨g.elems.take g.gap_after ++ (ws ++ g.elems.drop g.gap_after),
    if g.pos = g.elems.length then g.pos + ws.length else g.pos⟩

def splice_before (g : GapList T) (ws : List T) : GapList T :=
  ⟨g.elems.take g.pos ++ (ws ++ g.elems.drop g.pos), g.pos + ws.length⟩

def remove_current (g : GapList T) : GapList T := ⟨g.elems.eraseIdx g.pos, g.pos⟩

def run (g : GapList T) : CursorOp T → GapList T × Answer T
  | .move_next => (g.move_next, .unit)
  | .move_prev => (g.move_prev, .unit)
  | .insert_after item => (g.splice_after [item], .unit)
  | .insert_before item => (g.splice_before [item], .unit)
  | .remove_current => (g.remove_current, .element g.elems[g.pos]?)
  | .push_front elt => (⟨elt :: g.elems, g.pos + 1⟩, .unit)
  | .push_back elt =>
    (⟨g.elems ++ [elt], if g.pos = g.elems.length then g.pos + 1 else g.pos⟩, .unit)
  | .pop_front => (⟨g.elems.tail, g.pos - 1⟩, .element g.elems.head?)
  | .pop_back =>
    (⟨g.elems.dropLast, if g.pos = g.elems.length then g.pos - 1 else g.pos⟩,
      .element g.elems.getLast?)
  | .index => (g, .index (if g.pos < g.elems.length then some g.pos else none))
  | .current => (g, .element g.elems[g.pos]?)

end GapList

/-- The cursor's list is the chain `ids` of the list's elements, its index is the position, and its
current node is the one at the position. -/
structure CursorRep (H : Heap T) (c : CursorMut) (ids : List ℕ) (g : GapList T) : Prop where
  chain : Chain H c.list ids g.elems
  pos_le : g.pos ≤ g.elems.length
  index : c.index = g.pos
  current : c.current = ids[g.pos]?

namespace CursorRep

variable {H H' : Heap T} {c : CursorMut} {ids : List ℕ} {g : GapList T}

variable (h : CursorRep H c ids g)
include h

theorem frame (hsame : ∀ q ∈ ids, H'.get q = H.get q) : CursorRep H' c ids g :=
  ⟨h.chain.frame hsame, h.pos_le, h.index, h.current⟩

/-- The cursor is at the ghost, or at a node of its list. -/
theorem cases : (g.pos = g.elems.length ∧ c.current = none ∧ g.gap_after = 0)
    ∨ ∃ a id b ys x zs, ids = a ++ id :: b ∧ g.elems = ys ++ x :: zs ∧ a.length = ys.length
      ∧ a.length = g.pos ∧ c.current = some id ∧ g.gap_after = (a ++ [id]).length := by
  have hlen := h.chain.length_eq
  rcases h.pos_le.eq_or_lt with hp | hp
  · refine .inl ⟨hp, ?_, if_pos hp⟩
    rw [h.current]
    exact getElem?_eq_none (by omega)
  have hp' : g.pos < ids.length := by omega
  refine .inr ⟨ids.take g.pos, ids[g.pos], ids.drop (g.pos + 1), g.elems.take g.pos,
    g.elems[g.pos], g.elems.drop (g.pos + 1), ?_, ?_, ?_, ?_, ?_, ?_⟩
  · rw [← drop_eq_getElem_cons, take_append_drop]
  · rw [← drop_eq_getElem_cons, take_append_drop]
  · simp; omega
  · simp; omega
  · rw [h.current, getElem?_eq_getElem hp']
  · rw [gap_after, if_neg (by omega)]
    simp; omega

theorem current_eq_head : c.current = (ids.drop g.pos).head? := by
  rw [h.current, head?_drop]

theorem current_eq_getLast : c.current = (ids.take g.gap_after).getLast? := by
  rcases h.cases with ⟨-, hcur, hgap⟩ | ⟨a, id, b, ys, x, zs, rfl, -, -, -, hcur, hgap⟩
  · simp [hcur, hgap]
  · rw [hcur, hgap, append_cons a id b, take_left]
    simp

theorem node_prev : c.node_prev H = some (ids.take g.pos).getLast? := by
  rcases h.cases with ⟨hp, hcur, -⟩ | ⟨a, id, b, ys, x, zs, rfl, hel, hlen, hpos, hcur, -⟩
  · simp only [CursorMut.node_prev, hcur, h.chain.tail]
    rw [take_of_length_le (by rw [h.chain.length_eq]; omega)]
  · have hget := (hel ▸ h.chain : Chain H c.list _ _).get_mid hlen
    simp only [CursorMut.node_prev, hcur, hget, some_bind]
    rw [take_left' hpos]

theorem node_next : c.node_next H = some (ids.drop g.gap_after).head? := by
  rcases h.cases with ⟨hp, hcur, hgap⟩ | ⟨a, id, b, ys, x, zs, rfl, hel, hlen, -, hcur, hgap⟩
  · simp [CursorMut.node_next, hcur, h.chain.head, hgap]
  · have hget := (hel ▸ h.chain : Chain H c.list _ _).get_mid hlen
    simp only [CursorMut.node_next, hcur, hget, hgap, some_bind]
    rw [append_cons a id b, drop_left]

variable {c' : List ℕ} {ws : List T}

/-- Nodes spliced in at a gap of the cursor's list. -/
theorem splice (n : ℕ)
    (hc : Seg H none c' none ws) (hnd : c'.Nodup) (hdisj : ∀ q ∈ c', q ∉ ids)
    {s e : ℕ} (hs : c'.head? = some s) (he : c'.getLast? = some e) :
    ∃ H' l', c.list.splice_nodes H (ids.take n).getLast? (ids.drop n).head? s e c'.length
        = some (H', l')
      ∧ Chain H' l' (ids.take n ++ (c' ++ ids.drop n)) (g.elems.take n ++ (ws ++ g.elems.drop n))
      ∧ Frame H H' (c' ++ ids) ∧ H'.fresh = H.fresh := by
  have hlen := h.chain.length_eq
  have hch := h.chain
  rw [← take_append_drop n ids, ← take_append_drop n g.elems] at hch
  obtain ⟨H', l', h', hc', hf, hfr⟩ := hch.splice_nodes (by simp [hlen]) hc hnd
    (by rwa [take_append_drop]) hs he
  refine ⟨H', l', h', hc', fun q hq => hf q ?_, hfr⟩
  rw [← take_append_drop n ids] at hq
  simp only [mem_append, not_or] at hq ⊢
  tauto

/-- The cursor after a splice behind it. -/
theorem of_splice_after {l' : LinkedList}
    (hlen' : c'.length = ws.length)
    (hch : Chain H' l' (ids.take g.gap_after ++ (c' ++ ids.drop g.gap_after))
      (g.splice_after ws).elems) :
    CursorRep H' ⟨if c.current.isNone then l'.len else c.index, c.current, l'⟩
      (ids.take g.gap_after ++ (c' ++ ids.drop g.gap_after)) (g.splice_after ws) := by
  have hlen := h.chain.length_eq
  rcases h.cases with ⟨hp, hcur, hgap⟩ | ⟨a, id, b, ys, x, zs, rfl, hel, -, hpos, hcur, hgap⟩
  · refine ⟨hch, ?_, ?_, ?_⟩
    · simp [splice_after, hgap, hp]; omega
    · rw [hch.len]
      simp [splice_after, hgap, hcur, hp]; omega
    · rw [hcur]
      refine (getElem?_eq_none ?_).symm
      simp [splice_after, hgap, hp]; omega
  · have hne : g.pos ≠ g.elems.length := by
      simp only [length_append, length_cons] at hlen
      omega
    refine ⟨hch, ?_, ?_, ?_⟩
    · have := h.pos_le
      simp [splice_after, hne]; omega
    · simp [splice_after, hcur, hne, h.index]
    · rw [hcur, hgap, append_cons a id b, take_left]
      simp only [splice_after, if_neg hne]
      rw [← hpos]
      simp

/-- The cursor after a splice before it. -/
theorem of_splice_before {l' : LinkedList}
    (hlen' : c'.length = ws.length)
    (hch : Chain H' l' (ids.take g.pos ++ (c' ++ ids.drop g.pos)) (g.splice_before ws).elems) :
    CursorRep H' ⟨c.index + ws.length, c.current, l'⟩
      (ids.take g.pos ++ (c' ++ ids.drop g.pos)) (g.splice_before ws) := by
  have hlen := h.chain.length_eq
  have hp := h.pos_le
  refine ⟨hch, ?_, by simp [splice_before, h.index], ?_⟩
  · simp [splice_before]; omega
  · have htake : (ids.take g.pos).length = g.pos := length_take_of_le (by omega)
    rw [h.current, splice_before, ← append_assoc, getElem?_append_right]
    · simp [hlen', htake]
    · simp [hlen', htake]

variable (hids : ∀ q ∈ ids, q < H.fresh)
include hids

/-- A new node spliced in. -/
theorem splice_new (n : ℕ) (x : T) :
    ∃ H' l', c.list.splice_nodes (new_node H x).1 (ids.take n).getLast? (ids.drop n).head? H.fresh
        H.fresh 1 = some (H', l')
      ∧ Chain H' l' (ids.take n ++ ([H.fresh] ++ ids.drop n))
          (g.elems.take n ++ ([x] ++ g.elems.drop n))
      ∧ Effect H H' ids (ids.take n ++ ([H.fresh] ++ ids.drop n)) := by
  have h₀ : CursorRep (new_node H x).1 c ids g :=
    h.frame fun q hq => get_alloc_of_ne (hids q hq).ne
  have hnew : (new_node H x).1.get H.fresh = some ⟨none, none, x⟩ := get_alloc_self
  have hfresh : H.fresh ∉ ids := fun hmem => absurd (hids _ hmem) (lt_irrefl _)
  have hseg : Seg (new_node H x).1 none [H.fresh] none [x] := ⟨hnew, trivial⟩
  obtain ⟨H', l', h', hc, hf, hfr⟩ :=
    h₀.splice n hseg (nodup_singleton _) (by simpa using hfresh) rfl rfl
  have hfr' : H'.fresh = H.fresh + 1 := hfr
  refine ⟨H', l', h', hc, ⟨fun q hq hlt => ?_, fun q hq => ?_, by omega⟩⟩
  · rw [hf q (by simp [hq, hlt.ne])]
    exact get_alloc_of_ne hlt.ne
  · simp only [mem_append, mem_singleton] at hq
    rcases hq with hq | rfl | hq
    · exact .inl (mem_of_mem_take hq)
    · exact .inr ⟨le_rfl, by omega⟩
    · exact .inl (mem_of_mem_drop hq)

theorem insert_after (x : T) :
    ∃ H' c' ids', c.insert_after H x = some (H', c') ∧ CursorRep H' c' ids' (g.splice_after [x])
      ∧ Effect H H' ids ids' := by
  obtain ⟨H', l', h', hc, he⟩ := h.splice_new hids g.gap_after x
  have hnew : CursorRep (new_node H x).1 c ids g :=
    h.frame fun q hq => get_alloc_of_ne (hids q hq).ne
  have hnext := hnew.node_next
  refine ⟨H', _, _, ?_, h.of_splice_after rfl hc, he⟩
  rw [← h.current_eq_getLast] at h'
  have hnode : new_node H x = ((new_node H x).1, H.fresh) := rfl
  rw [CursorMut.insert_after, hnode]
  simp only [hnext, h', some_bind]

theorem insert_before (x : T) :
    ∃ H' c' ids', c.insert_before H x = some (H', c') ∧ CursorRep H' c' ids' (g.splice_before [x])
      ∧ Effect H H' ids ids' := by
  obtain ⟨H', l', h', hc, he⟩ := h.splice_new hids g.pos x
  have hnew : CursorRep (new_node H x).1 c ids g :=
    h.frame fun q hq => get_alloc_of_ne (hids q hq).ne
  have hprev := hnew.node_prev
  refine ⟨H', _, _, ?_, h.of_splice_before rfl hc, he⟩
  rw [← h.current_eq_head] at h'
  have hnode : new_node H x = ((new_node H x).1, H.fresh) := rfl
  rw [CursorMut.insert_before, hnode]
  simp [hprev, h', some_bind]

omit hids

theorem move_next : ∃ c', c.move_next H = some c' ∧ CursorRep H c' ids g.move_next := by
  rcases h.cases with ⟨-, hcur, hgap⟩ | ⟨a, id, b, ys, x, zs, rfl, hel, hal, hpos, hcur, hgap⟩
  · refine ⟨{ c with current := c.list.head, index := 0 }, ?_, h.chain, ?_, ?_, ?_⟩
    · simp only [CursorMut.move_next, hcur]
    · simp [GapList.move_next, hgap]
    · simp [GapList.move_next, hgap]
    · simp [GapList.move_next, hgap, h.chain.head, head?_eq_getElem?]
  · have hget := (hel ▸ h.chain : Chain H c.list _ _).get_mid hal
    refine ⟨{ c with current := b.head?, index := c.index + 1 }, ?_, h.chain, ?_, ?_, ?_⟩
    · simp only [CursorMut.move_next, hcur, hget, some_bind]
    · simp only [GapList.move_next, hgap, hel, length_append, length_cons]
      simp; omega
    · simp [GapList.move_next, hgap, h.index, hpos]
    · rw [GapList.move_next, hgap, append_cons a id b, getElem?_append_right le_rfl,
        Nat.sub_self, head?_eq_getElem?]

theorem move_prev : ∃ c', c.move_prev H = some c' ∧ CursorRep H c' ids g.move_prev := by
  have hlen := h.chain.length_eq
  rcases h.cases with ⟨hp, hcur, -⟩ | ⟨a, id, b, ys, x, zs, rfl, hel, hal, hpos, hcur, -⟩
  · refine ⟨{ c with current := c.list.tail, index := c.list.len - 1 }, ?_, h.chain, ?_, ?_, ?_⟩
    · simp only [CursorMut.move_prev, hcur]
    · simp only [GapList.move_prev]
      split <;> omega
    · simp only [GapList.move_prev, h.chain.len]
      split <;> omega
    · simp only [GapList.move_prev, h.chain.tail, getLast?_eq_getElem?]
      split
      · rw [getElem?_eq_none (by omega), getElem?_eq_none (by omega)]
      · rw [hlen, hp]
  · have hget := (hel ▸ h.chain : Chain H c.list _ _).get_mid hal
    refine ⟨{ c with current := a.getLast?, index := (checkedSub c.index 1).getD c.list.len },
      ?_, h.chain, ?_, ?_, ?_⟩
    · simp only [CursorMut.move_prev, hcur, hget, some_bind]
    · have := h.pos_le
      simp only [GapList.move_prev]
      split <;> omega
    · simp only [GapList.move_prev, h.index, h.chain.len, checkedSub, hlen]
      split <;> split <;> first | omega | rfl
    · simp only [GapList.move_prev, getLast?_eq_getElem?, ← hpos]
      split
      · rename_i h0
        rw [getElem?_eq_none (by omega), getElem?_eq_none hlen.le]
      · rw [getElem?_append_left (by omega)]

omit h

/-- The node at the cursor, taken out of the list. -/
theorem unlink {a b : List ℕ} {id : ℕ} {ys zs : List T} {x : T}
    (h : CursorRep H c (a ++ id :: b) g) (hel : g.elems = ys ++ x :: zs)
    (hal : a.length = ys.length) (hpos : a.length = g.pos) :
    ∃ H' l', c.list.unlink_node H id = some (H', l')
      ∧ CursorRep H' ⟨c.index, b.head?, l'⟩ (a ++ b) g.remove_current
      ∧ H'.get id = some ⟨b.head?, a.getLast?, x⟩ ∧ id ∉ a ++ b ∧ Frame H H' (a ++ b)
      ∧ H'.fresh = H.fresh := by
  have hch := h.chain
  rw [hel] at hch
  obtain ⟨H', l', h', hc, hf, hfr⟩ := hch.unlink_node hal
  have hid : id ∉ a ++ b := by
    have := hch.nodup
    simp only [nodup_append, nodup_cons, mem_cons] at this
    grind
  have helems : g.remove_current.elems = ys ++ zs := by
    rw [GapList.remove_current, hel, ← hpos, hal, eraseIdx_append_of_length_le le_rfl,
      Nat.sub_self, eraseIdx_cons_zero]
  refine ⟨H', l', h', ⟨by rw [helems]; exact hc, ?_, h.index, ?_⟩, ?_, hid, hf, hfr⟩
  · rw [helems, GapList.remove_current, ← hpos, hal]
    simp
  · rw [GapList.remove_current, ← hpos, getElem?_append_right le_rfl, Nat.sub_self,
      head?_eq_getElem?]
  · rw [hf id hid, hch.get_mid hal]

include h

theorem remove_current : ∃ H' c' ids', c.remove_current H = some (H', c', g.elems[g.pos]?)
      ∧ CursorRep H' c' ids' g.remove_current ∧ Effect H H' ids ids' := by
  rcases h.cases with ⟨hp, hcur, -⟩ | ⟨a, id, b, ys, x, zs, rfl, hel, hal, hpos, hcur, -⟩
  · have hnone : g.elems[g.pos]? = none := getElem?_eq_none hp.ge
    have hsame : g.remove_current = g := by
      rw [GapList.remove_current, eraseIdx_of_length_le hp.ge]
    refine ⟨H, c, ids, ?_, by rwa [hsame], .of_frame (fun _ _ => rfl) rfl fun _ hq => hq⟩
    simp only [CursorMut.remove_current, hcur, hnone]
  · obtain ⟨H1, l', h1, hc, hget, hid, hf, hfr⟩ := h.unlink hel hal hpos
    obtain ⟨H', h', hc', he⟩ := hc.chain.into_element hget hid hf hfr (a ++ id :: b)
      (by simp; tauto)
    have hget0 := (hel ▸ h.chain : Chain H c.list _ _).get_mid hal
    have hx : g.elems[g.pos]? = some x := by rw [hel, ← hpos, hal]; simp
    refine ⟨H', ⟨c.index, b.head?, l'⟩, a ++ b, ?_, ⟨hc', hc.pos_le, hc.index, hc.current⟩, he⟩
    simp only [CursorMut.remove_current, hcur, hget0, h1, h', hx, some_bind]

theorem push_front (hids : ∀ q ∈ ids, q < H.fresh) (x : T) :
    ∃ H' c' ids', c.push_front H x = some (H', c')
      ∧ CursorRep H' c' ids' ⟨x :: g.elems, g.pos + 1⟩ ∧ Effect H H' ids ids' := by
  obtain ⟨H', l', h', hc, he⟩ := h.chain.push_front hids x
  refine ⟨H', { c with list := l', index := c.index + 1 }, _, ?_,
    ⟨hc, by simpa using h.pos_le, by simp [h.index], by simpa using h.current⟩, he⟩
  simp only [CursorMut.push_front, h', some_bind]

/-- What the cursor is at. -/
theorem get_current : c.get_current H = some g.elems[g.pos]? := by
  rcases h.cases with ⟨hp, hcur, -⟩ | ⟨a, id, b, ys, x, zs, rfl, hel, hal, hpos, hcur, -⟩
  · simp only [CursorMut.get_current, hcur]
    rw [getElem?_eq_none hp.ge]
  · have hget := (hel ▸ h.chain : Chain H c.list _ _).get_mid hal
    have hx : g.elems[g.pos]? = some x := by rw [hel, ← hpos, hal]; simp
    simp only [CursorMut.get_current, hcur, hget, hx, some_bind]

theorem get_index : c.get_index = if g.pos < g.elems.length then some g.pos else none := by
  rcases h.cases with ⟨hp, hcur, -⟩ | ⟨a, id, b, ys, x, zs, rfl, hel, hal, hpos, hcur, -⟩
  · simp [CursorMut.get_index, hcur, hp]
  · have hlt : g.pos < g.elems.length := by
      rw [hel, length_append, length_cons]
      omega
    simp [CursorMut.get_index, hcur, h.index, hlt]

theorem push_back (hids : ∀ q ∈ ids, q < H.fresh) (x : T) :
    ∃ H' c' ids', c.push_back H x = some (H', c')
      ∧ CursorRep H' c' ids'
          ⟨g.elems ++ [x], if g.pos = g.elems.length then g.pos + 1 else g.pos⟩
      ∧ Effect H H' ids ids' := by
  obtain ⟨H', l', h', hc, he⟩ := h.chain.push_back hids x
  have hlen := h.chain.length_eq
  have hp := h.pos_le
  -- the current node is unchanged
  have hcur : c.get_current H' = some g.elems[g.pos]? := by
    rcases h.cases with ⟨hp, hcur, -⟩ | ⟨a, id, b, ys, y, zs, rfl, hel, hal, hpos, hcur, -⟩
    · simp only [CursorMut.get_current, hcur]
      rw [getElem?_eq_none hp.ge]
    · have hch : Chain H' l' (a ++ id :: (b ++ [H.fresh])) (ys ++ y :: (zs ++ [x])) := by
        simpa [hel] using hc
      have hget := hch.get_mid hal
      have hy : g.elems[g.pos]? = some y := by rw [hel, ← hpos, hal]; simp
      simp only [CursorMut.get_current, hcur, hget, hy, some_bind]
  refine ⟨H', ⟨if g.elems[g.pos]?.isNone then c.index + 1 else c.index, c.current, l'⟩, _, ?_,
    ⟨hc, ?_, ?_, ?_⟩, he⟩
  · simp only [CursorMut.push_back, h', hcur, some_bind]
  · simp only [length_append, length_singleton]
    split <;> omega
  · by_cases hg : g.pos = g.elems.length
    · simp [hg, h.index]
    · simp [hg, h.index, show ¬ g.elems.length ≤ g.pos by omega]
  · rw [h.current]
    split
    · rw [getElem?_eq_none (by omega), getElem?_eq_none (by simp; omega)]
    · rw [getElem?_append_left (by simp only; omega)]

theorem pop_front : ∃ H' c' ids', c.pop_front H = some (H', c', g.elems.head?)
      ∧ CursorRep H' c' ids' ⟨g.elems.tail, g.pos - 1⟩ ∧ Effect H H' ids ids' := by
  have hlen := h.chain.length_eq
  have hle := h.pos_le
  rcases hhead : c.list.head with _ | t
  · obtain ⟨rfl, hnil⟩ := h.chain.eq_nil_of_head hhead
    have hpos : g.pos = 0 := by simpa [hnil] using h.pos_le
    refine ⟨H, c, [], by simp [CursorMut.pop_front, hhead, hnil], ?_,
      .of_frame (fun _ _ => rfl) rfl fun _ hq => hq⟩
    refine ⟨by simpa [hnil] using h.chain, by simp [hpos], by simp [hpos, h.index], ?_⟩
    simpa [hpos] using h.current
  obtain ⟨ids, rfl⟩ : ∃ l, ids = t :: l := by
    rw [h.chain.head] at hhead
    exact head?_eq_some_iff.mp hhead
  -- the cursor steps off the first node
  obtain ⟨c1, h1, hrep1⟩ : ∃ c1, (if c.list.head = c.current then c.move_next H else some c)
      = some c1 ∧ CursorRep H c1 (t :: ids) ⟨g.elems, if g.pos = 0 then 1 else g.pos⟩ := by
    by_cases hpos : g.pos = 0
    · obtain ⟨c', h', hrep⟩ := h.move_next
      have hcur : c.list.head = c.current := by rw [hhead, h.current, hpos]; rfl
      have hgap : g.gap_after = 1 := by
        simp only [length_cons] at hlen
        rw [GapList.gap_after, if_neg (by omega), hpos]
      refine ⟨c', by rw [if_pos hcur, h'], ?_⟩
      rw [if_pos hpos]
      rwa [GapList.move_next, hgap] at hrep
    · have hcur : c.list.head ≠ c.current := by
        rw [hhead, h.current]
        intro heq
        obtain ⟨n, hn⟩ : ∃ n, g.pos = n + 1 := ⟨g.pos - 1, by omega⟩
        rw [hn, getElem?_cons_succ] at heq
        exact (nodup_cons.mp h.chain.nodup).1 (mem_of_getElem? heq.symm)
      exact ⟨c, by rw [if_neg hcur], by rwa [if_neg hpos]⟩
  obtain ⟨H', l', h', hc, he⟩ := hrep1.chain.pop_front
  refine ⟨H', ⟨c1.index - 1, c1.current, l'⟩, _, ?_, ⟨hc, ?_, ?_, ?_⟩, he⟩
  · simp only [CursorMut.pop_front, hhead, isNone_some, Bool.false_eq_true, if_false]
    rw [hhead] at h1
    simp only [h1, h', some_bind]
  · simp; omega
  · rw [hrep1.index]
    simp only
    split <;> omega
  · rw [hrep1.current]
    split
    · rename_i h0
      simp [h0]
    · obtain ⟨n, hn⟩ : ∃ n, g.pos = n + 1 := ⟨g.pos - 1, by omega⟩
      simp [hn]

theorem pop_back : ∃ H' c' ids', c.pop_back H = some (H', c', g.elems.getLast?)
      ∧ CursorRep H' c' ids'
          ⟨g.elems.dropLast, if g.pos = g.elems.length then g.pos - 1 else g.pos⟩
      ∧ Effect H H' ids ids' := by
  have hlen := h.chain.length_eq
  have hle := h.pos_le
  rcases hhead : c.list.head with _ | t
  · obtain ⟨rfl, hnil⟩ := h.chain.eq_nil_of_head hhead
    have hpos : g.pos = 0 := by simpa [hnil] using h.pos_le
    refine ⟨H, c, [], by simp [CursorMut.pop_back, hhead, hnil], ?_,
      .of_frame (fun _ _ => rfl) rfl fun _ hq => hq⟩
    refine ⟨by simpa [hnil] using h.chain, by simp [hnil, hpos], by simp [hnil, hpos, h.index], ?_⟩
    simpa [hnil, hpos] using h.current
  have hne : ids ≠ [] := by
    rintro rfl
    rw [h.chain.head] at hhead
    simp at hhead
  have hpos : 0 < ids.length := length_pos_iff.mpr hne
  obtain ⟨H', l', h', hc, he⟩ := h.chain.pop_back
  -- where the cursor is after stepping off the last node
  obtain ⟨c1, h1, hlist, hidx, hcur1⟩ : ∃ c1 : CursorMut,
      (if c.list.tail = c.current then some { c with current := none }
        else if c.current.isNone then do some { c with index := ← checkedSub c.list.len 1 }
        else some c) = some c1 ∧ c1.list = c.list
      ∧ c1.index = (if g.pos = g.elems.length then g.pos - 1 else g.pos)
      ∧ c1.current = ids.dropLast[if g.pos = g.elems.length then g.pos - 1 else g.pos]? := by
    have htail : c.list.tail = ids[ids.length - 1]? := by
      rw [h.chain.tail, getLast?_eq_getElem?]
    have hsome : (ids[ids.length - 1]?).isSome := by simp; omega
    rcases h.cases with ⟨hp, hcur, -⟩ | ⟨a, id, b, ys, x, zs, rfl, hel, hal, hp, hcur, -⟩
    · have hno : c.list.tail ≠ c.current := by
        rw [hcur, htail]
        exact ne_none_iff_isSome.mpr hsome
      have hsub : checkedSub c.list.len 1 = some (g.pos - 1) := by
        rw [checkedSub, h.chain.len, if_pos (by omega), hlen, hp]
      refine ⟨{ c with index := g.pos - 1 }, ?_, rfl, by rw [if_pos hp], ?_⟩
      · rw [if_neg hno, if_pos (by rw [hcur]; rfl), hsub]
        rfl
      · rw [hcur, getElem?_eq_none]
        simp [hp]
        omega
    · have hpl : g.pos ≠ g.elems.length := by
        rw [hel, length_append, length_cons]
        omega
      rcases eq_nil_or_concat b with rfl | ⟨b, d, rfl⟩
      · have hyes : c.list.tail = c.current := by rw [h.chain.tail, hcur]; simp
        refine ⟨{ c with current := none }, if_pos hyes, rfl, by rw [if_neg hpl, h.index], ?_⟩
        rw [if_neg hpl, getElem?_eq_none]
        simp [hp]
      have hno : c.list.tail ≠ c.current := by
        rw [h.chain.tail, hcur]
        have hnd := h.chain.nodup
        simp only [concat_eq_append, nodup_append, nodup_cons] at hnd
        simp
        grind
      refine ⟨c, by rw [if_neg hno, if_neg (by simp [hcur])], rfl,
        by rw [if_neg hpl, h.index], ?_⟩
      rw [if_neg hpl, hcur, ← hp]
      simp
  refine ⟨H', ⟨c1.index, c1.current, l'⟩, _, ?_, ⟨hc, ?_, hidx, hcur1⟩, he⟩
  · simp only [CursorMut.pop_back, hhead, isNone_some, Bool.false_eq_true, if_false]
    simp only [bind_eq_bind] at h1
    simp only [h1, hlist, h', bind_eq_bind, bind_some]
  · simp only [length_dropLast]
    split <;> omega

/-- **Every operation of a cursor does what it does to the list with a gap.** -/
theorem run (hids : ∀ q ∈ ids, q < H.fresh) (op : CursorOp T) :
    ∃ H' c' ids', c.run H op = some (H', c', (g.run op).2) ∧ CursorRep H' c' ids' (g.run op).1
      ∧ Effect H H' ids ids' := by
  have hsame : Effect H H ids ids := .of_frame (fun _ _ => rfl) rfl fun _ hq => hq
  cases op with
  | move_next =>
    obtain ⟨c', h', hc⟩ := h.move_next
    exact ⟨H, c', ids, by simp [CursorMut.run, h', GapList.run], hc, hsame⟩
  | move_prev =>
    obtain ⟨c', h', hc⟩ := h.move_prev
    exact ⟨H, c', ids, by simp [CursorMut.run, h', GapList.run], hc, hsame⟩
  | insert_after x =>
    obtain ⟨H', c', ids', h', hc, he⟩ := h.insert_after hids x
    exact ⟨H', c', ids', by simp [CursorMut.run, h', GapList.run], hc, he⟩
  | insert_before x =>
    obtain ⟨H', c', ids', h', hc, he⟩ := h.insert_before hids x
    exact ⟨H', c', ids', by simp [CursorMut.run, h', GapList.run], hc, he⟩
  | remove_current =>
    obtain ⟨H', c', ids', h', hc, he⟩ := h.remove_current
    exact ⟨H', c', ids', by simp [CursorMut.run, h', GapList.run], hc, he⟩
  | push_front x =>
    obtain ⟨H', c', ids', h', hc, he⟩ := h.push_front hids x
    exact ⟨H', c', ids', by simp [CursorMut.run, h', GapList.run], hc, he⟩
  | push_back x =>
    obtain ⟨H', c', ids', h', hc, he⟩ := h.push_back hids x
    exact ⟨H', c', ids', by simp [CursorMut.run, h', GapList.run], hc, he⟩
  | pop_front =>
    obtain ⟨H', c', ids', h', hc, he⟩ := h.pop_front
    exact ⟨H', c', ids', by simp [CursorMut.run, h', GapList.run], hc, he⟩
  | pop_back =>
    obtain ⟨H', c', ids', h', hc, he⟩ := h.pop_back
    exact ⟨H', c', ids', by simp [CursorMut.run, h', GapList.run], hc, he⟩
  | index => exact ⟨H, c, ids, by simp [CursorMut.run, h.get_index, GapList.run], h, hsame⟩
  | current => exact ⟨H, c, ids, by simp [CursorMut.run, h.get_current, GapList.run], h, hsame⟩

end CursorRep

end RustStd.Collections
