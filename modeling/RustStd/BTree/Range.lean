import RustStd.BTree.Walk
import RustStd.BTree.ExtractIf
import RustStd.Foundations.DoubleEnded

/-!
# Ranges

`range` searches for both of its bounds at once, down to the node where they part, and from there
for each of them alone. The two leaf edges that it finds are the state of the iterator, which ends
when they are the same.
-/

namespace RustStd.BTree

open DoubleEnded List Option Nat SearchBound

variable {K V Q : Type}

/-! ## The model -/

structure LeafRange where
  front : Option (Handle .Edge)
  back : Option (Handle .Edge)
  deriving DecidableEq, Repr

/-- Where the bounds of a range part. -/
structure Bifurcation (Q : Type) where
  node : NodeRef
  lower_edge_idx : ℕ
  upper_edge_idx : ℕ
  lower_child_bound : SearchBound Q
  upper_child_bound : SearchBound Q

section Model

variable (H : Heap K V)

namespace LeafRange

def none : LeafRange := ⟨.none, .none⟩

def is_empty (self : LeafRange) : Bool := self.front == self.back

/-- If possible, extract some result from the following pair and move to the edge beyond it. -/
def perform_next_checked {R : Type} (f : Handle .KV → Option R) (self : LeafRange) :
    Option (Option R × LeafRange) :=
  if self.is_empty then some (.none, self)
  else do
    let front ← self.front
    match ← front.next_kv H with
    | .error _ => .none
    | .ok kv => do
      let result ← f kv
      let front ← kv.next_leaf_edge H
      some (some result, { self with front := some front })

/-- If possible, extract some result from the preceding pair and move to the edge beyond it. -/
def perform_next_back_checked {R : Type} (f : Handle .KV → Option R) (self : LeafRange) :
    Option (Option R × LeafRange) :=
  if self.is_empty then some (.none, self)
  else do
    let back ← self.back
    match ← back.next_back_kv H with
    | .error _ => .none
    | .ok kv => do
      let result ← f kv
      let back ← kv.next_back_leaf_edge H
      some (some result, { self with back := some back })

def next_checked (self : LeafRange) : Option (Option (K × V) × LeafRange) :=
  self.perform_next_checked H fun kv => kv.into_kv H

def next_back_checked (self : LeafRange) : Option (Option (K × V) × LeafRange) :=
  self.perform_next_back_checked H fun kv => kv.into_kv H

/-- `Range::next` and `Range::next_back`. -/
def step : End → LeafRange → Option (Option (K × V) × LeafRange)
  | .front => next_checked H
  | .back => next_back_checked H

end LeafRange

/-- The panic for impossible bounds. -/
def range_panic (cmp : Q → Q → Ordering) (is_set : Bool) (start stop : Bound Q) : Option String :=
  let collection := if is_set then "BTreeSet" else "BTreeMap"
  let equal := "range start and end are equal and excluded in " ++ collection
  let greater := "range start is greater than range end in " ++ collection
  match start, stop with
  | .Excluded s, .Excluded e =>
    if cmp s e = .eq then some equal else if cmp s e = .gt then some greater else none
  | .Included s, .Included e => if cmp s e = .gt then some greater else none
  | .Included s, .Excluded e => if cmp s e = .gt then some greater else none
  | .Excluded s, .Included e => if cmp s e = .gt then some greater else none
  | _, _ => none

namespace NodeRef

section Descent

variable (cmp : Q → K → Ordering)

/-- The loop of `search_tree_for_bifurcation`. -/
def bifurcation_turn (s : NodeRef × SearchBound Q × SearchBound Q) :
    Option (Turn (NodeRef × SearchBound Q × SearchBound Q)
      (Except (Handle .Edge) (Bifurcation Q))) := do
  let (node, lower_bound, upper_bound) := s
  let (lower_edge_idx, lower_child_bound) ← node.find_lower_bound_index H cmp lower_bound
  let (upper_edge_idx, upper_child_bound) ←
    node.find_upper_bound_index H cmp upper_bound lower_edge_idx
  if lower_edge_idx < upper_edge_idx then
    some (.done (.ok ⟨node, lower_edge_idx, upper_edge_idx, lower_child_bound, upper_child_bound⟩))
  else do
    assert (lower_edge_idx = upper_edge_idx)
    let common_edge ← Handle.new_edge H node lower_edge_idx
    if common_edge.node.height = 0 then some (.done (.error common_edge))
    else do some (.again (← common_edge.descend H, lower_child_bound, upper_child_bound))

def find_lower_bound_edge (self : NodeRef) (bound : SearchBound Q) :
    Option (Handle .Edge × SearchBound Q) := do
  let (edge_idx, bound) ← self.find_lower_bound_index H cmp bound
  some (← Handle.new_edge H self edge_idx, bound)

def find_upper_bound_edge (self : NodeRef) (bound : SearchBound Q) :
    Option (Handle .Edge × SearchBound Q) := do
  let (edge_idx, bound) ← self.find_upper_bound_index H cmp bound 0
  some (← Handle.new_edge H self edge_idx, bound)

/-- The loop of `find_leaf_edges_spanning_range`: the lower and the upper edge, each with the bound
for what is below it. -/
def spanning_turn (s : (Handle .Edge × SearchBound Q) × (Handle .Edge × SearchBound Q)) :
    Option (Turn ((Handle .Edge × SearchBound Q) × (Handle .Edge × SearchBound Q)) LeafRange) :=
  let ((lower_edge, lower_child_bound), (upper_edge, upper_child_bound)) := s
  if lower_edge.node.height = 0 ∧ upper_edge.node.height = 0 then
    some (.done ⟨some lower_edge, some upper_edge⟩)
  else do
    assert (0 < lower_edge.node.height ∧ 0 < upper_edge.node.height)
    let lower ← (← lower_edge.descend H).find_lower_bound_edge H cmp lower_child_bound
    let upper ← (← upper_edge.descend H).find_upper_bound_edge H cmp upper_child_bound
    some (.again (lower, upper))

end Descent

variable (cmp : Q → Q → Ordering) (borrow : K → Q) (is_set : Bool)

/-- The first `Except` is a panic. -/
def search_tree_for_bifurcation (self : NodeRef) (start stop : Bound Q) :
    Option (Except String (Except (Handle .Edge) (Bifurcation Q))) :=
  match range_panic cmp is_set start stop with
  | some message => some (.error message)
  | none => do
    let result ← runLoop (bifurcation_turn H fun key k => cmp key (borrow k)) (self.height + 1)
      (self, SearchBound.from_range start, SearchBound.from_range stop)
    some (.ok result)

def find_leaf_edges_spanning_range (self : NodeRef) (start stop : Bound Q) :
    Option (Except String LeafRange) := do
  match ← self.search_tree_for_bifurcation H cmp borrow is_set start stop with
  | .error message => some (.error message)
  | .ok (.error _) => some (.ok .none)
  | .ok (.ok r) => do
    let lower_edge ← Handle.new_edge H r.node r.lower_edge_idx
    let upper_edge ← Handle.new_edge H r.node r.upper_edge_idx
    let range ← runLoop (spanning_turn H fun key k => cmp key (borrow k)) (r.node.height + 1)
      ((lower_edge, r.lower_child_bound), (upper_edge, r.upper_child_bound))
    some (.ok range)

end NodeRef

end Model

open NodeRef

/-- `range`, of a map or, where its values are `SetValZST`, of a set. -/
def BTreeMap.range (cmp : Q → Q → Ordering) (borrow : K → Q) (is_set : Bool) (m : BTreeMap K V)
    (start stop : Bound Q) : Option (Except String LeafRange) :=
  match m.root with
  | some root => root.find_leaf_edges_spanning_range m.heap cmp borrow is_set start stop
  | none => some (.ok .none)

/-! ## Bounds -/

/-- The start is after the end, or both are one key and excluded. -/
def Impossible (cmp : Q → Q → Ordering) (start stop : Bound Q) : Prop :=
  ∃ s e, (start = .Included s ∨ start = .Excluded s) ∧ (stop = .Included e ∨ stop = .Excluded e) ∧
    (cmp s e = .gt ∨ cmp s e = .eq ∧ start = .Excluded s ∧ stop = .Excluded e)

variable (cmp : Q → Q → Ordering)
include cmp

theorem range_panic_iff (is_set : Bool) (start stop : Bound Q) :
    (∃ message, range_panic cmp is_set start stop = some message) ↔ Impossible cmp start stop := by
  unfold range_panic Impossible
  cases start with
  | Unbounded => simp
  | Included s =>
    cases stop with
    | Unbounded => simp
    | Included e | Excluded e => by_cases h : cmp s e = .gt <;> simp [h]
  | Excluded s =>
    cases stop with
    | Unbounded => simp
    | Included e => by_cases h : cmp s e = .gt <;> simp [h]
    | Excluded e => cases h : cmp s e <;> simp [h]

theorem SearchBound.skips_borrow (borrow : K → Q) (b : SearchBound Q)
    (k : K) : b.skips (fun key k => cmp key (borrow k)) k = b.skips cmp (borrow k) := by
  cases b <;> rfl

/-- What is before the start of a range is before its end. -/
theorem skips_of_skips [Std.TransCmp cmp] {start stop : Bound Q}
    (h : ¬Impossible cmp start stop) {k : Q} (hk : (from_range start).skips cmp k) :
    (from_range stop).flip.skips cmp k := by
  have hle : ∀ {s e : Q}, (start = .Included s ∨ start = .Excluded s) →
      (stop = .Included e ∨ stop = .Excluded e) → (cmp s e).isLE := by
    intro s e hs he
    cases hc : cmp s e
    · rfl
    · rfl
    · exact absurd ⟨s, e, hs, he, .inl hc⟩ h
  have hflip : ∀ {s : Q}, cmp s k ≠ .lt → (cmp k s).isLE := by
    intro s hs
    rw [show cmp k s = (cmp s k).swap from Std.OrientedCmp.eq_swap]
    cases hc : cmp s k
    · exact absurd hc hs
    · rfl
    · rfl
  cases stop with
  | Unbounded => rfl
  | Included e =>
    simp only [from_range, SearchBound.flip, skips, bne_iff_ne]
    intro hlt
    cases start with
    | Unbounded => cases hk
    | Included s =>
      have := Std.TransCmp.lt_of_isLE_of_lt (hle (.inl rfl) (.inl rfl)) hlt
      simp [from_range, skips, this] at hk
    | Excluded s =>
      have := Std.TransCmp.lt_of_isLE_of_lt (hle (.inr rfl) (.inl rfl)) hlt
      simp [from_range, skips, this] at hk
  | Excluded e =>
    simp only [from_range, SearchBound.flip, skips, beq_iff_eq]
    rw [Std.OrientedCmp.gt_iff_lt]
    cases start with
    | Unbounded => cases hk
    | Included s =>
      simp only [from_range, skips, beq_iff_eq] at hk
      exact Std.TransCmp.lt_of_lt_of_isLE (Std.OrientedCmp.gt_iff_lt.mp hk)
        (hle (.inl rfl) (.inr rfl))
    | Excluded s =>
      simp only [from_range, skips, bne_iff_ne] at hk
      refine Std.TransCmp.lt_of_isLE_of_lt (hflip hk) ?_
      cases hc : cmp s e
      · rfl
      · exact absurd ⟨s, e, .inr rfl, .inr rfl, .inr ⟨hc, rfl, rfl⟩⟩ h
      · exact absurd ⟨s, e, .inr rfl, .inr rfl, .inl hc⟩ h

omit cmp

/-! ## Down the tree -/

/-- On the way down, at an edge: `b'` is as good as `b` below it. -/
def EdgeCutting (lt : K → K → Prop) (cmp : Q → K → Ordering) (H : Heap K V) (top : NodeRef)
    (b : SearchBound Q) (e : Handle .Edge) (b' : SearchBound Q) : Prop :=
  ∃ b0, Cutting cmp H top b e.node b0 ∧ CutAt lt cmp (H.kvs e.node.node) b0 b' e.idx

section Down

variable {H : Heap K V} {ht : ℕ → ℕ} {top x : NodeRef} {lt : K → K → Prop} {cmp : Q → K → Ordering}
  {b b' c : SearchBound Q} {e e' : Handle .Edge} {pre post pre' post' : List (K × V)}

theorem Cutting.valid (X : Rooted H ht top) (h : Cutting cmp H top b x b') : x.Valid H ht := by
  obtain ⟨L, R, hctx, -, -⟩ := h.ctx
  exact hctx.valid X.forest X.top_valid

theorem Cutting.ascending (X : Rooted H ht top) (hasc : Ascending lt (top.inorder H))
    (h : Cutting cmp H top b x b') : Ascending lt (H.kvs x.node) := by
  obtain ⟨L, R, hctx, -, -⟩ := h.ctx
  exact (hctx.ascending X.forest hasc).kvs

variable (ha : Agrees lt cmp)
include ha

variable (X : Rooted H ht top)
include X

variable (hasc : Ascending lt (top.inorder H))
include hasc

theorem EdgeCutting.descend (h : EdgeCutting lt cmp H top b e b') (hpos : 0 < e.node.height) :
    ∃ x, e.descend H = some x ∧ x.height + 1 = e.node.height ∧ Cutting cmp H top b x b' := by
  obtain ⟨b0, hx, hcut⟩ := h
  obtain ⟨⟨m, p⟩, i⟩ := e
  obtain ⟨m, rfl⟩ := exists_eq_add_one.mpr hpos
  obtain ⟨d, hd⟩ := X.forest.exists_edge (hx.valid X) hcut.le
  exact ⟨⟨m, d⟩, descend_spec rfl hd, rfl, hx.child ha X.forest hasc hcut hd⟩

theorem find_lower_bound_edge_spec (h : Cutting cmp H top b x b') :
    ∃ e b'', x.find_lower_bound_edge H cmp b' = some (e, b'') ∧ e.node = x ∧
      EdgeCutting lt cmp H top b e b'' := by
  have hx := h.valid X
  obtain ⟨idx, b'', hidx, hcut⟩ := find_lower_bound_index_spec ha hx.1 (h.ascending X hasc) b'
  refine ⟨⟨x, idx⟩, b'', ?_, rfl, b', h, hcut⟩
  unfold find_lower_bound_edge
  rw [hidx, some_bind]
  dsimp only
  rw [new_edge_spec hx.1 hcut.le, some_bind]

theorem find_upper_bound_edge_spec (h : Cutting cmp H top b x b'.flip) :
    ∃ e b'', x.find_upper_bound_edge H cmp b' = some (e, b'') ∧ e.node = x ∧
      EdgeCutting lt cmp H top b e b''.flip := by
  have hx := h.valid X
  obtain ⟨idx, b'', hidx, -, hcut⟩ := find_upper_bound_index_spec ha hx.1 (h.ascending X hasc) b'
    (zero_le _) (fun j y hj => absurd hj (not_lt_zero j))
  refine ⟨⟨x, idx⟩, b'', ?_, rfl, _, h, hcut⟩
  unfold find_upper_bound_edge
  rw [hidx, some_bind]
  dsimp only
  rw [new_edge_spec hx.1 hcut.le, some_bind]

/-- Two searches that were parted end at a leaf edge each. -/
theorem spanning_loop (hl : EdgeCutting lt cmp H top b e b')
    {c' : SearchBound Q} (hu : EdgeCutting lt cmp H top c e' c'.flip)
    (hheight : e'.node.height = e.node.height) :
    ∃ f g pre post pre' post', runLoop (spanning_turn H cmp) (e.node.height + 1)
        ((e, b'), (e', c')) = some ⟨some f, some g⟩ ∧
      CutEdge cmp H top b f pre post ∧ CutEdge cmp H top c g pre' post' := by
  have hrun : ∃ r, runLoop (spanning_turn H cmp) (e.node.height + 1) ((e, b'), (e', c')) =
      some r ∧ ∃ f g pre post pre' post', r = ⟨some f, some g⟩ ∧
        CutEdge cmp H top b f pre post ∧ CutEdge cmp H top c g pre' post' := by
    refine runLoop_spec _ (fun s => EdgeCutting lt cmp H top b s.1.1 s.1.2 ∧
      EdgeCutting lt cmp H top c s.2.1 s.2.2.flip ∧ s.2.1.node.height = s.1.1.node.height)
      (fun s => s.1.1.node.height) _ (fun s hs => ?_) _ _ ⟨hl, hu, hheight⟩ (lt_succ_self _)
    obtain ⟨⟨lower, lb⟩, upper, ub⟩ := s
    obtain ⟨hlower, hupper, hsame⟩ := hs
    dsimp only at hlower hupper hsame
    unfold spanning_turn
    dsimp only
    rcases Nat.eq_zero_or_pos lower.node.height with h0 | hpos
    · rw [if_pos ⟨h0, hsame.trans h0⟩]
      obtain ⟨b0, hx, hcut⟩ := hlower
      obtain ⟨c0, hy, hcut'⟩ := hupper
      obtain ⟨⟨m, p⟩, i⟩ := lower
      obtain ⟨⟨m', p'⟩, i'⟩ := upper
      obtain rfl : m = 0 := h0
      obtain rfl : m' = 0 := hsame
      obtain ⟨pre, post, he⟩ := hx.leaf hcut
      obtain ⟨pre', post', he'⟩ := hy.leaf hcut'
      exact ⟨_, _, pre, post, pre', post', rfl, he, he'⟩
    · obtain ⟨x, hdescend, hxh, hx⟩ := hlower.descend ha X hasc hpos
      obtain ⟨y, hdescend', hyh, hy⟩ := hupper.descend ha X hasc (by omega)
      obtain ⟨f, lb', hf, hfx, hf'⟩ := find_lower_bound_edge_spec ha X hasc hx
      obtain ⟨g, ub', hg, hgy, hg'⟩ := find_upper_bound_edge_spec ha X hasc hy
      rw [if_neg (by omega), assert_some ⟨hpos, by omega⟩, some_bind,
        hdescend, some_bind, hf, some_bind,
        hdescend', some_bind, hg, some_bind]
      refine ⟨⟨hf', hg', ?_⟩, ?_⟩
      · dsimp only
        rw [hfx, hgy]
        omega
      · dsimp only
        rw [hfx]
        omega
  obtain ⟨r, hrun, f, g, pre, post, pre', post', rfl, hf, hg⟩ := hrun
  exact ⟨f, g, pre, post, pre', post', hrun, hf, hg⟩

/-- The searches for both bounds, where what `b` skips `c` skips too: as long as they are at one
edge they go on together. -/
theorem bifurcation_loop {c : SearchBound Q}
    (hbc : ∀ k, b.skips cmp k = true → c.flip.skips cmp k = true) :
    ∃ r, runLoop (bifurcation_turn H cmp) (top.height + 1) (top, b, c) = some r ∧ match r with
      | .error e => ∃ pre post pre' post', CutEdge cmp H top b e pre post ∧
          CutEdge cmp H top c.flip e pre' post'
      | .ok r => r.node.Valid H ht ∧
          EdgeCutting lt cmp H top b ⟨r.node, r.lower_edge_idx⟩ r.lower_child_bound ∧
          EdgeCutting lt cmp H top c.flip ⟨r.node, r.upper_edge_idx⟩ r.upper_child_bound.flip := by
  refine runLoop_spec _ (fun s => Cutting cmp H top b s.1 s.2.1 ∧
    Cutting cmp H top c.flip s.1 s.2.2.flip) (fun s => s.1.height) _ (fun s hs => ?_) _ (top, b, c)
    ⟨⟨⟨[], [], .top, nofun, nofun⟩, fun _ _ => rfl⟩, ⟨[], [], .top, nofun, nofun⟩, fun _ _ => rfl⟩
    (lt_succ_self _)
  obtain ⟨⟨m, q⟩, lb, ub⟩ := s
  obtain ⟨hlower, hupper⟩ := hs
  have hx := hlower.valid X
  have hks := hlower.ascending X hasc
  have hmem : ∀ (j : ℕ) (y : K × V), (H.kvs q)[j]? = some y → y ∈ inorder H ⟨m, q⟩ := by
    intro j y hy
    rw [inorder, Heap.inorder_eq_weave]
    exact (Weave.sublist_weave _ _).mem (mem_of_getElem? hy)
  obtain ⟨li, lb', hli, hlcut⟩ := find_lower_bound_index_spec ha hx.1 hks lb
  have hbefore : ∀ j y, j < li → (H.kvs q)[j]? = some y → ub.flip.skips cmp y.1 = true := by
    intro j y hj hy
    rw [hupper.same y (hmem j y hy)]
    apply hbc
    rw [← hlower.same y (hmem j y hy)]
    exact (hlcut.cut j y hy).mpr hj
  obtain ⟨ui, ub', hui, hle, hucut⟩ :=
    find_upper_bound_index_spec ha hx.1 hks ub hlcut.le hbefore
  unfold bifurcation_turn
  dsimp only
  rw [hli, some_bind]
  rw [hui, some_bind]
  rcases lt_or_eq_of_le hle with hlt | rfl
  · rw [if_pos hlt]
    exact ⟨hx, ⟨lb, hlower, hlcut⟩, ⟨ub.flip, hupper, hucut⟩⟩
  rw [if_neg (lt_irrefl li), assert_some rfl, some_bind, new_edge_spec hx.1 hlcut.le, some_bind]
  cases m with
  | zero =>
    rw [if_pos rfl]
    obtain ⟨pre, post, he⟩ := hlower.leaf hlcut
    obtain ⟨pre', post', he'⟩ := hupper.leaf hucut
    exact ⟨pre, post, pre', post', he, he'⟩
  | succ m =>
    obtain ⟨d, hd⟩ := X.forest.exists_edge hx hlcut.le
    rw [if_neg (succ_ne_zero m), descend_spec rfl hd, some_bind]
    exact ⟨⟨hlower.child ha X.forest hasc hlcut hd, hupper.child ha X.forest hasc hucut hd⟩,
      lt_succ_self m⟩

omit hasc

omit X

omit ha

/-- What is between two cuts. -/
theorem CutEdge.between (F : Forest H ht) (hbc : ∀ k, b.skips cmp k = true → c.skips cmp k = true)
    (h : CutEdge cmp H top b e pre post) (h' : CutEdge cmp H top c e' pre' post') :
    ∃ mid, post = mid ++ post' ∧ pre' = pre ++ mid ∧
      (top.inorder H).filter (fun x => !b.skips cmp x.1 && c.skips cmp x.1) = mid := by
  obtain ⟨mid, rfl, rfl⟩ : ∃ mid, post = mid ++ post' ∧ pre' = pre ++ mid := by
    have heq := (h.edge.inorder F).symm.trans (h'.edge.inorder F)
    rcases append_eq_append_iff.mp heq with ⟨mid, hpre, hpost⟩ | ⟨mid, hpre, hpost⟩
    · exact ⟨mid, hpost, hpre⟩
    · have hnil : mid = [] := by
        refine eq_nil_iff_forall_not_mem.mpr fun y hy => ?_
        have hskip := hbc y.1 (h.skipped y (hpre ▸ mem_append_right _ hy))
        rw [h'.kept y (hpost ▸ mem_append_left _ hy)] at hskip
        cases hskip
      subst hnil
      exact ⟨[], hpost.symm, by rw [hpre, append_nil, append_nil]⟩
  refine ⟨mid, rfl, rfl, ?_⟩
  rw [h.edge.inorder F, filter_append, filter_append,
    filter_eq_nil_iff.mpr (fun y hy => by simp [h.skipped y hy]),
    filter_eq_self.mpr (fun y hy => by
      simp [h.kept y (mem_append_left _ hy), h'.skipped y (mem_append_right _ hy)]),
    filter_eq_nil_iff.mpr (fun y hy => by simp [h'.kept y hy]), nil_append,
    append_nil]

end Down

/-! ## The iterator -/

section Iteration

variable {H : Heap K V} {ht : ℕ → ℕ} {top : NodeRef} {r : LeafRange} {mid : List (K × V)}
  {kv : K × V}

/-- A range that has the pairs `mid` still to give: it has no edges, or two leaf edges around these
pairs. -/
inductive Ranging (H : Heap K V) (top : NodeRef) : LeafRange → List (K × V) → Prop
  | none : Ranging H top .none []
  | edges {front back : Handle .Edge} {pre mid post : List (K × V)} : front.node.height = 0 →
    back.node.height = 0 → EdgeAt H top front pre (mid ++ post) →
    EdgeAt H top back (pre ++ mid) post → Ranging H top ⟨some front, some back⟩ mid

namespace Ranging

variable (X : Rooted H ht top)
include X

/-- **The edges are the same** exactly when nothing is left. -/
theorem is_empty_iff (h : Ranging H top r mid) : r.is_empty = true ↔ mid = [] := by
  cases h with
  | none => simp [LeafRange.is_empty, LeafRange.none]
  | @edges front back pre mid post hf hb hfront hback =>
    simp only [LeafRange.is_empty, beq_iff_eq, some.injEq]
    constructor
    · rintro rfl
      have hpre := hfront.pre_unique X hback
      simpa using hpre
    · rintro rfl
      exact hfront.leaf_unique X hf hb hback (by simp)

theorem next_checked (h : Ranging H top r (kv :: mid)) :
    ∃ r', r.next_checked H = some (some kv, r') ∧ Ranging H top r' mid := by
  have hempty : ¬r.is_empty = true := fun hc => absurd ((h.is_empty_iff X).mp hc) nofun
  cases h with
  | @edges front back pre _ post hf hb hfront hback =>
    rw [cons_append] at hfront
    obtain ⟨k, hnext, hk⟩ := next_kv_spec X.forest X.top_valid X.root hfront
    obtain ⟨q, j, hleaf, he⟩ := next_leaf_edge_spec X.forest X.top_valid hk
    unfold LeafRange.next_checked LeafRange.perform_next_checked
    rw [if_neg hempty]
    rw [some_bind, hnext, some_bind]
    dsimp only
    rw [hk.into_kv X, some_bind, hleaf, some_bind]
    refine ⟨_, rfl, .edges rfl hb he ?_⟩
    rwa [append_assoc]

theorem next_back_checked (h : Ranging H top r (mid ++ [kv])) :
    ∃ r', r.next_back_checked H = some (some kv, r') ∧ Ranging H top r' mid := by
  have hempty : ¬r.is_empty = true := fun hc => by simpa using (h.is_empty_iff X).mp hc
  generalize hl : mid ++ [kv] = l at h
  cases h with
  | none => simp at hl
  | @edges front back pre _ post hf hb hfront hback =>
    subst hl
    obtain ⟨⟨m, q⟩, i⟩ := back
    obtain rfl : m = 0 := hb
    have hbefore := hback.edge_before
    rw [← append_assoc] at hbefore
    obtain ⟨k, hnext, hk⟩ := next_back_kv_spec X hbefore
    obtain ⟨q', j, hleaf, he⟩ := next_back_leaf_edge_spec X hk
    unfold LeafRange.next_back_checked LeafRange.perform_next_back_checked
    rw [if_neg hempty]
    rw [some_bind, hnext, some_bind]
    dsimp only
    rw [hk.into_kv X, some_bind, hleaf, some_bind]
    refine ⟨_, rfl, .edges hf rfl ?_ he⟩
    rwa [append_assoc] at hfront

/-- **One request.** -/
theorem step (e : End) (h : Ranging H top r mid) :
    ∃ r', r.step H e = some (e.peek mid, r') ∧ Ranging H top r' (e.rest mid) := by
  by_cases hmid : mid = []
  · subst hmid
    have hempty := (h.is_empty_iff X).mpr rfl
    cases e with
    | front | back => exact ⟨r, if_pos hempty, h⟩
  cases e with
  | front =>
    obtain ⟨kv, mid, rfl⟩ := exists_cons_of_ne_nil hmid
    exact h.next_checked X
  | back =>
    rcases eq_nil_or_concat' mid with rfl | ⟨mid, kv, rfl⟩
    · exact absurd rfl hmid
    · obtain ⟨r', hnext, h'⟩ := h.next_back_checked X
      refine ⟨r', ?_, ?_⟩
      · rw [End.peek, getLast?_concat]
        exact hnext
      · rwa [End.rest, dropLast_concat]

theorem serves (h : Ranging H top r mid) : Serves (fun e r => LeafRange.step H e r) r mid :=
  .of_simulation (R := fun r l => Ranging H top r l) (fun e _ _ h => h.step X e) h

end Ranging

end Iteration

/-! ## The whole range -/

/-- The keys in a range are those that its start does not leave out and its end reaches. -/
theorem in_range_cut (cmp : Q → Q → Ordering) [Std.OrientedCmp cmp] (borrow : K → Q)
    (start stop : Bound Q) (k : K) : in_range cmp start stop (borrow k) =
      (!(from_range start).skips (fun key k => cmp key (borrow k)) k &&
        (from_range stop).flip.skips (fun key k => cmp key (borrow k)) k) := by
  rw [skips_borrow cmp borrow, skips_borrow cmp borrow, in_range_eq, before_end_eq]

/-- The two leaf edges around the pairs of a range. -/
theorem find_leaf_edges_spanning_range_spec {H : Heap K V} {ht : ℕ → ℕ} {top : NodeRef}
    (cmp : Q → Q → Ordering) [Std.TransCmp cmp] (borrow : K → Q) (is_set : Bool)
    (X : Rooted H ht top)
    (hasc : Ascending (fun a b => cmp (borrow a) (borrow b) = .lt) (top.inorder H))
    {start stop : Bound Q} (hpos : ¬Impossible cmp start stop) :
    ∃ r, top.find_leaf_edges_spanning_range H cmp borrow is_set start stop = some (.ok r) ∧
      Ranging H top r
        ((top.inorder H).filter fun x => in_range cmp start stop (borrow x.1)) := by
  have ha := Agrees.of_borrow cmp borrow
  have hbc : ∀ k : K, (from_range start).skips (fun key k => cmp key (borrow k)) k →
      (from_range stop).flip.skips (fun key k => cmp key (borrow k)) k := by
    intro k hk
    rw [skips_borrow] at hk ⊢
    exact skips_of_skips cmp hpos hk
  have hpanic : range_panic cmp is_set start stop = none := by
    rcases h : range_panic cmp is_set start stop with _ | message
    · rfl
    · exact absurd ((range_panic_iff cmp is_set start stop).mp ⟨message, h⟩) hpos
  have hfilter : ∀ l : List (K × V), l.filter (fun x => in_range cmp start stop (borrow x.1)) =
      l.filter fun x =>
        !(from_range start).skips (fun key k => cmp key (borrow k)) x.1 &&
          (from_range stop).flip.skips (fun key k => cmp key (borrow k)) x.1 :=
    fun l => filter_congr fun x _ => in_range_cut cmp borrow start stop x.1
  obtain ⟨r, hrun, hr⟩ := bifurcation_loop ha X hasc hbc
  unfold find_leaf_edges_spanning_range search_tree_for_bifurcation
  rw [hpanic]
  rw [hrun, bind_eq_bind, bind_eq_bind, bind_some, bind_some, hfilter]
  cases r with
  | error e =>
    obtain ⟨pre, post, pre', post', he, he'⟩ := hr
    obtain ⟨mid, -, hpre, hmid⟩ := he.between X.forest hbc he'
    have hnil : mid = [] := by
      have := he.edge.pre_unique X he'.edge
      rw [hpre] at this
      simpa using this
    rw [hmid, hnil]
    exact ⟨_, rfl, .none⟩
  | ok r =>
    obtain ⟨hx, hl, hu⟩ := hr
    obtain ⟨f, g, pre, post, pre', post', hspan, hf, hg⟩ := spanning_loop ha X hasc hl hu rfl
    obtain ⟨mid, hpost, hpre, hmid⟩ := hf.between X.forest hbc hg
    obtain ⟨_, _, hlcut⟩ := hl
    obtain ⟨_, _, hucut⟩ := hu
    dsimp only
    rw [new_edge_spec hx.1 hlcut.le, bind_eq_bind, bind_some,
      new_edge_spec hx.1 hucut.le, bind_eq_bind, bind_some, hspan,
      bind_some, hmid]
    exact ⟨_, rfl, .edges hf.leaf hg.leaf (hpost ▸ hf.edge) (hpre ▸ hg.edge)⟩

/-- What a range promises: it panics on impossible bounds and on no others, and its iterator, asked
at both ends, hands out the pairs inside the bounds in order. -/
def RangeServes (cmp : Q → Q → Ordering) (borrow : K → Q) (is_set : Bool) (m : BTreeMap K V)
    (start stop : Bound Q) : Prop :=
  ∃ r, m.range cmp borrow is_set start stop = some r ∧
    ((∃ message, r = .error message) ↔ Impossible cmp start stop) ∧
    ∀ it, r = .ok it → Serves (fun e r => LeafRange.step m.heap e r) it
      (m.inorder.filter fun x => in_range cmp start stop (borrow x.1))

/-- The bounds are not looked at where there is no root. -/
theorem range_of_new_map :
    ¬RangeServes compare id false (⟨Heap.empty, none, 0⟩ : BTreeMap ℕ Unit) (.Excluded 2)
      (.Excluded 2) := by
  rintro ⟨r, hr, hiff, -⟩
  obtain rfl : Except.ok LeafRange.none = r := some.inj hr
  obtain ⟨message, hmessage⟩ := hiff.mpr
    ⟨2, 2, .inr rfl, .inr rfl, .inr ⟨by decide, rfl, rfl⟩⟩
  cases hmessage

/-- **Ranges of a map**: they do what they promise unless the bounds are impossible and the map has
no root. -/
theorem range_serves_iff (cmp : Q → Q → Ordering) [Std.TransCmp cmp] (borrow : K → Q)
    (is_set : Bool) {m : BTreeMap K V} (hm : m.Valid fun a b => cmp (borrow a) (borrow b))
    (start stop : Bound Q) : RangeServes cmp borrow is_set m start stop ↔
      (m.root = none → ¬Impossible cmp start stop) := by
  unfold RangeServes BTreeMap.range
  cases hroot : m.root with
  | none =>
    have hnil : m.inorder = [] := by rw [BTreeMap.inorder, hroot]
    constructor
    · rintro ⟨r, hr, hiff, -⟩ - himp
      obtain rfl : Except.ok LeafRange.none = r := some.inj hr
      obtain ⟨message, hmessage⟩ := hiff.mpr himp
      cases hmessage
    intro hpos
    refine ⟨_, rfl, iff_of_false (by rintro ⟨_, h⟩; cases h) (hpos rfl), fun it hit => ?_⟩
    obtain rfl : LeafRange.none = it := by simpa using hit
    rw [hnil, filter_nil]
    refine .of_simulation (R := fun r l => r = LeafRange.none ∧ l = []) ?_ ⟨rfl, rfl⟩
    rintro e r l ⟨rfl, rfl⟩
    cases e with
    | front | back => exact ⟨_, rfl, rfl, rfl⟩
  | some root =>
    obtain ⟨ht, I⟩ := hm.tree root hroot
    refine iff_of_true ?_ (by rintro ⟨⟩)
    rw [BTreeMap.inorder_of_root hroot]
    by_cases himp : Impossible cmp start stop
    · obtain ⟨message, hmessage⟩ := (range_panic_iff cmp is_set start stop).mpr himp
      refine ⟨.error message, ?_, iff_of_true ⟨message, rfl⟩ himp, by rintro _ ⟨⟩⟩
      unfold find_leaf_edges_spanning_range search_tree_for_bifurcation
      rw [hmessage]
      rfl
    · obtain ⟨r, hr, hranging⟩ := find_leaf_edges_spanning_range_spec cmp borrow is_set I.toRooted
        I.sorted himp
      refine ⟨_, hr, iff_of_false (by rintro ⟨_, h⟩; cases h) himp, fun it hit => ?_⟩
      obtain rfl : r = it := by simpa using hit
      exact hranging.serves I.toRooted

/-- A range over a map with two leaves. -/
theorem range_two_leaves :
    RangeServes compare id false (BTreeMap.mk two_leaves (some ⟨1, 0⟩) 11) (.Included 2)
      (.Excluded 8) :=
  (range_serves_iff compare id false
    ⟨fun _ h => ⟨two_leaves_height, some.inj h ▸ two_leaves_invariants⟩, rfl⟩ (.Included 2)
    (.Excluded 8)).mpr nofun

end RustStd.BTree
