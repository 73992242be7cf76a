import RustStd.BTree.Node
import RustStd.Foundations.Bounds

/-!
# Walking and rebalancing a B-tree

`navigate.rs`, `search.rs`, `fix.rs` and `remove.rs` of `alloc/src/collections/btree`. A loop that
climbs takes at most as many turns as nodes were ever allocated, one that descends at most as many
as the height says; running out of turns ends with `none`.
-/

namespace RustStd.BTree

variable {K V : Type} (H : Heap K V)

def MIN_LEN : ℕ := MIN_LEN_AFTER_SPLIT

/-! ## Navigation -/

namespace Handle

/-- The pair to the right of an edge, or the root after the last edge. -/
def next_kv (self : Handle .Edge) : Option (Except NodeRef (Handle .KV)) :=
  runLoop (fun edge : Handle .Edge => do
    match ← edge.right_kv H with
    | some kv => some (.done (.ok kv))
    | none =>
      match ← edge.node.ascend H with
      | some parent_edge => some (.again parent_edge)
      | none => some (.done (.error edge.node))) (H.fresh + 1) self

/-- The pair to the left of an edge, or the root before the first edge. -/
def next_back_kv (self : Handle .Edge) : Option (Except NodeRef (Handle .KV)) :=
  runLoop (fun edge : Handle .Edge => do
    match ← edge.left_kv H with
    | some kv => some (.done (.ok kv))
    | none =>
      match ← edge.node.ascend H with
      | some parent_edge => some (.again parent_edge)
      | none => some (.done (.error edge.node))) (H.fresh + 1) self

end Handle

def NodeRef.first_leaf_edge (self : NodeRef) : Option (Handle .Edge) :=
  runLoop (fun node : NodeRef =>
    if node.height = 0 then do some (.done (← node.first_edge H))
    else do some (.again (← (← node.first_edge H).descend H))) (self.height + 1) self

def NodeRef.last_leaf_edge (self : NodeRef) : Option (Handle .Edge) :=
  runLoop (fun node : NodeRef =>
    if node.height = 0 then do some (.done (← node.last_edge H))
    else do some (.again (← (← node.last_edge H).descend H))) (self.height + 1) self

namespace Handle

def next_leaf_edge (self : Handle .KV) : Option (Handle .Edge) :=
  if self.node.height = 0 then self.right_edge H
  else do (← (← self.right_edge H).descend H).first_leaf_edge H

def next_back_leaf_edge (self : Handle .KV) : Option (Handle .Edge) :=
  if self.node.height = 0 then self.left_edge H
  else do (← (← self.left_edge H).descend H).last_leaf_edge H

end Handle

/-! ## Search -/

section Search

-- how a key to look for, of a type that keys can be borrowed as, compares to a key
variable {Q : Type} (cmp : Q → K → Ordering)

inductive SearchBound (Q : Type)
  | Included (key : Q)
  | Excluded (key : Q)
  | AllIncluded
  | AllExcluded

def SearchBound.from_range : Bound Q → SearchBound Q
  | .Included t => .Included t
  | .Excluded t => .Excluded t
  | .Unbounded => .AllIncluded

inductive IndexResult
  | KV (idx : ℕ)
  | Edge (idx : ℕ)

inductive SearchResult
  | Found (handle : Handle .KV)
  | GoDown (handle : Handle .Edge)

/-- The loop of `find_key_index` over the keys from an index on. -/
def find_key_index_from (key : Q) : List (K × V) → ℕ → IndexResult
  | [], idx => .Edge idx
  | (k, _) :: kvs, idx =>
    match cmp key k with
    | .gt => find_key_index_from key kvs (idx + 1)
    | .eq => .KV idx
    | .lt => .Edge idx

namespace NodeRef

def find_key_index (self : NodeRef) (key : Q) (start_index : ℕ) : Option IndexResult := do
  let x ← H.get self.node
  assert (start_index ≤ x.kvs.length)
  some (find_key_index_from cmp key (x.kvs.drop start_index) start_index)

def search_node (self : NodeRef) (key : Q) : Option SearchResult := do
  match ← self.find_key_index H cmp key 0 with
  | .KV idx => do some (.Found (← Handle.new_kv H self idx))
  | .Edge idx => do some (.GoDown (← Handle.new_edge H self idx))

def search_tree (self : NodeRef) (key : Q) : Option SearchResult :=
  runLoop (fun node : NodeRef => do
    match ← node.search_node H cmp key with
    | .Found handle => some (.done (.Found handle))
    | .GoDown handle =>
      if handle.node.height = 0 then some (.done (.GoDown handle))
      else do some (.again (← handle.descend H))) (self.height + 1) self

def find_lower_bound_index (self : NodeRef) (bound : SearchBound Q) : Option (ℕ × SearchBound Q) :=
  match bound with
  | .Included key => do
    match ← self.find_key_index H cmp key 0 with
    | .KV idx => some (idx, .AllExcluded)
    | .Edge idx => some (idx, bound)
  | .Excluded key => do
    match ← self.find_key_index H cmp key 0 with
    | .KV idx => some (idx + 1, .AllIncluded)
    | .Edge idx => some (idx, bound)
  | .AllIncluded => some (0, .AllIncluded)
  | .AllExcluded => do some (← self.len H, .AllExcluded)

def find_upper_bound_index (self : NodeRef) (bound : SearchBound Q) (start_index : ℕ) :
    Option (ℕ × SearchBound Q) :=
  match bound with
  | .Included key => do
    match ← self.find_key_index H cmp key start_index with
    | .KV idx => some (idx + 1, .AllExcluded)
    | .Edge idx => some (idx, bound)
  | .Excluded key => do
    match ← self.find_key_index H cmp key start_index with
    | .KV idx => some (idx, .AllIncluded)
    | .Edge idx => some (idx, bound)
  | .AllIncluded => do some (← self.len H, .AllIncluded)
  | .AllExcluded => some (start_index, .AllExcluded)

/-- The loop of `lower_bound`. -/
def descend_to_bound (find : NodeRef → SearchBound Q → Option (ℕ × SearchBound Q))
    (self : NodeRef) (bound : SearchBound Q) : Option (Handle .Edge) :=
  runLoop (fun s : NodeRef × SearchBound Q => do
    let (idx, new_bound) ← find s.1 s.2
    let edge ← Handle.new_edge H s.1 idx
    if edge.node.height = 0 then some (.done edge)
    else do some (.again (← edge.descend H, new_bound))) (self.height + 1) (self, bound)

def lower_bound (self : NodeRef) (bound : SearchBound Q) : Option (Handle .Edge) :=
  self.descend_to_bound H (fun node bound => node.find_lower_bound_index H cmp bound) bound

end NodeRef

end Search

/-! ## Fixing nodes -/

namespace NodeRef

/-- The parent, where it has shrunk; the root, where it is empty. -/
def fix_node_through_parent (self : NodeRef) :
    Option (Heap K V × Except NodeRef (Option NodeRef)) := do
  let len ← self.len H
  if len ≥ MIN_LEN then some (H, .ok none)
  else
    match ← self.choose_parent_kv H with
    | some (.Left left_parent_kv) =>
      if ← left_parent_kv.can_merge H then do
        let (H, parent) ← left_parent_kv.merge_tracking_parent H
        some (H, .ok (some parent))
      else do
        let H ← left_parent_kv.bulk_steal_left H (MIN_LEN - len)
        some (H, .ok none)
    | some (.Right right_parent_kv) =>
      if ← right_parent_kv.can_merge H then do
        let (H, parent) ← right_parent_kv.merge_tracking_parent H
        some (H, .ok (some parent))
      else do
        let H ← right_parent_kv.bulk_steal_right H (MIN_LEN - len)
        some (H, .ok none)
    | none => if len > 0 then some (H, .ok none) else some (H, .error self)

/-- `false` where the root became empty. -/
def fix_node_and_affected_ancestors (self : NodeRef) : Option (Heap K V × Bool) :=
  runLoop (fun s : Heap K V × NodeRef => do
    let (H, self) := s
    match ← self.fix_node_through_parent H with
    | (H, .ok (some parent)) => some (.again (H, parent))
    | (H, .ok none) => some (.done (H, true))
    | (H, .error _) => some (.done (H, false))) (H.fresh + 1) (H, self)

end NodeRef

/-! ## Removal -/

namespace Handle

/-- The pair, the edge where it was, and whether `handle_emptied_internal_root` was called. -/
def remove_leaf_kv (self : Handle .KV) : Option (Heap K V × (K × V) × Handle .Edge × Bool) := do
  let (H, old_kv, pos) ← self.remove H
  let len ← pos.node.len H
  if len < MIN_LEN then do
    let idx := pos.idx
    let (H, pos) ← (do
      match ← pos.node.choose_parent_kv H with
      | some (.Left left_parent_kv) =>
        assert ((← left_parent_kv.right_child.len H) + 1 = MIN_LEN)
        if ← left_parent_kv.can_merge H then
          left_parent_kv.merge_tracking_child_edge H (.Right idx)
        else
          assert ((← left_parent_kv.left_child.len H) > MIN_LEN)
          left_parent_kv.steal_left H idx
      | some (.Right right_parent_kv) =>
        assert ((← right_parent_kv.left_child.len H) + 1 = MIN_LEN)
        if ← right_parent_kv.can_merge H then
          right_parent_kv.merge_tracking_child_edge H (.Left idx)
        else
          assert ((← right_parent_kv.right_child.len H) > MIN_LEN)
          right_parent_kv.steal_right H idx
      | none => some (H, ← new_edge H pos.node idx))
    assert (pos.node.height = 0)
    match ← pos.node.ascend H with
    | some parent => do
      let (H, fixed) ← parent.node.fix_node_and_affected_ancestors H
      some (H, old_kv, pos, !fixed)
    | none => some (H, old_kv, pos, false)
  else some (H, old_kv, pos, false)

def remove_internal_kv (self : Handle .KV) : Option (Heap K V × (K × V) × Handle .Edge × Bool) := do
  let left_leaf_edge ← (← (← self.left_edge H).descend H).last_leaf_edge H
  match ← left_leaf_edge.left_kv H with
  | none => none
  | some left_leaf_kv => do
    let (H, left_kv, left_hole, emptied) ← left_leaf_kv.remove_leaf_kv H
    match ← left_hole.next_kv H with
    | .error _ => none
    | .ok internal => do
      let (H, old_kv) ← internal.replace_kv H left_kv
      let pos ← internal.next_leaf_edge H
      some (H, old_kv, pos, emptied)

def remove_kv_tracking (self : Handle .KV) : Option (Heap K V × (K × V) × Handle .Edge × Bool) :=
  if self.node.height = 0 then self.remove_leaf_kv H else self.remove_internal_kv H

end Handle

end RustStd.BTree
