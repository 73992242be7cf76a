import RustStd.Foundations.Loop
import RustStd.Foundations.Word

/-!
# The nodes of a B-tree

`alloc/src/collections/btree/node.rs`. Nodes lie in a heap and hold the numbers of their parent and
their children. A read of a node that is not allocated or of an entry that is not initialised, and
every failed `assert!`, `debug_assert!` or `unwrap`, ends with `none`.
-/

namespace RustStd.BTree

open List

def B : ℕ := 6

def CAPACITY : ℕ := 2 * B - 1

def MIN_LEN_AFTER_SPLIT : ℕ := B - 1

/-- `LeafNode`, and `InternalNode` where there are edges. The arrays of keys and values, whose
entries always move together, are the list of the `len` pairs that are initialised. -/
structure Node (K V : Type) where
  parent : Option ℕ
  parent_idx : ℕ
  kvs : List (K × V)
  edges : List ℕ

/-- The allocated nodes. -/
structure Heap (K V : Type) where
  get : ℕ → Option (Node K V)
  fresh : ℕ

variable {K V : Type}

namespace Heap

def empty : Heap K V := ⟨fun _ => none, 0⟩

def set (H : Heap K V) (p : ℕ) (x : Node K V) : Heap K V :=
  { H with get := fun q => if q = p then some x else H.get q }

/-- Allocate a node, with its contents. -/
def alloc (H : Heap K V) (x : Node K V) : Heap K V × ℕ :=
  ({ H.set H.fresh x with fresh := H.fresh + 1 }, H.fresh)

def deallocate (H : Heap K V) (p : ℕ) : Heap K V :=
  { H with get := fun q => if q = p then none else H.get q }

end Heap

structure NodeRef where
  height : ℕ
  node : ℕ
  deriving DecidableEq, Repr

/-- What a handle points to. -/
inductive HandleType
  | KV
  | Edge

structure Handle (T : HandleType) where
  node : NodeRef
  idx : ℕ
  deriving DecidableEq, Repr

inductive LeftOrRight (α : Type)
  | Left (a : α)
  | Right (a : α)

structure BalancingContext where
  parent : Handle .KV
  left_child : NodeRef
  right_child : NodeRef

/-- `assert!` -/
def assert (P : Prop) [Decidable P] : Option Unit := if P then some () else none

/-! ## Slices -/

def slice_remove {α : Type} (l : List α) (idx : ℕ) : Option (α × List α) :=
  l[idx]?.map fun a => (a, l.eraseIdx idx)

variable (H : Heap K V)

/-! ## References and handles -/

namespace NodeRef

def len (self : NodeRef) : Option ℕ := (H.get self.node).map fun x => x.kvs.length

end NodeRef

namespace Handle

def new_kv (node : NodeRef) (idx : ℕ) : Option (Handle .KV) := do
  assert (idx < (← node.len H))
  some ⟨node, idx⟩

def new_edge (node : NodeRef) (idx : ℕ) : Option (Handle .Edge) := do
  assert (idx ≤ (← node.len H))
  some ⟨node, idx⟩

def left_edge (self : Handle .KV) : Option (Handle .Edge) := new_edge H self.node self.idx

def right_edge (self : Handle .KV) : Option (Handle .Edge) := new_edge H self.node (self.idx + 1)

/-- `None` is `Err(self)`. -/
def left_kv (self : Handle .Edge) : Option (Option (Handle .KV)) :=
  if self.idx > 0 then do some (some (← new_kv H self.node (self.idx - 1)))
  else some none

/-- `None` is `Err(self)`. -/
def right_kv (self : Handle .Edge) : Option (Option (Handle .KV)) := do
  if self.idx < (← self.node.len H) then do some (some (← new_kv H self.node self.idx))
  else some none

def descend (self : Handle .Edge) : Option NodeRef := do
  let x ← H.get self.node.node
  let node ← x.edges[self.idx]?
  some ⟨← checkedSub self.node.height 1, node⟩

def into_kv (self : Handle .KV) : Option (K × V) := do
  let x ← H.get self.node.node
  x.kvs[self.idx]?

/-- Replaces the key and value that the handle refers to. -/
def replace_kv (self : Handle .KV) (kv : K × V) : Option (Heap K V × (K × V)) := do
  let x ← H.get self.node.node
  let old ← x.kvs[self.idx]?
  some (H.set self.node.node { x with kvs := x.kvs.set self.idx kv }, old)

/-- `mem::replace` behind `into_val_mut`. -/
def replace_val (self : Handle .KV) (val : V) : Option (Heap K V × V) := do
  let x ← H.get self.node.node
  let old ← x.kvs[self.idx]?
  some (H.set self.node.node { x with kvs := x.kvs.set self.idx (old.1, val) }, old.2)

end Handle

namespace NodeRef

/-- `None` is `Err(self)`. -/
def ascend (self : NodeRef) : Option (Option (Handle .Edge)) := do
  let x ← H.get self.node
  some (x.parent.map fun parent => ⟨⟨self.height + 1, parent⟩, x.parent_idx⟩)

def first_edge (self : NodeRef) : Option (Handle .Edge) := Handle.new_edge H self 0

def last_edge (self : NodeRef) : Option (Handle .Edge) := do
  let len ← self.len H
  Handle.new_edge H self len

end NodeRef

/-! ## Links to parents -/

def NodeRef.set_parent_link (self : NodeRef) (parent parent_idx : ℕ) : Option (Heap K V) := do
  let x ← H.get self.node
  some (H.set self.node { x with parent := some parent, parent_idx })

def NodeRef.clear_parent_link (self : NodeRef) : Option (Heap K V) := do
  let x ← H.get self.node
  some (H.set self.node { x with parent := none })

def Handle.correct_parent_link (self : Handle .Edge) : Option (Heap K V) := do
  let child ← self.descend H
  child.set_parent_link H self.node.node self.idx

def NodeRef.correct_childrens_parent_links (self : NodeRef) : Heap K V → List ℕ → Option (Heap K V)
  | H, [] => some H
  | H, i :: range => do
    let e ← Handle.new_edge H self i
    let H ← e.correct_parent_link H
    self.correct_childrens_parent_links H range

def NodeRef.correct_all_childrens_parent_links (self : NodeRef) : Option (Heap K V) := do
  let len ← self.len H
  self.correct_childrens_parent_links H (range' 0 (len + 1))

/-! ## Whole nodes -/

def new_leaf : Heap K V × NodeRef :=
  let (H, node) := H.alloc ⟨none, 0, [], []⟩
  (H, ⟨0, node⟩)

def from_new_internal (internal height : ℕ) : Option (Heap K V × NodeRef) := do
  let this : NodeRef := ⟨height, internal⟩
  let H ← this.correct_all_childrens_parent_links H
  some (H, this)

def new_internal (child : NodeRef) : Option (Heap K V × NodeRef) :=
  let (H, new_node) := H.alloc ⟨none, 0, [], [child.node]⟩
  from_new_internal H new_node (child.height + 1)

namespace NodeRef

/-- The root after the call is also the reference that is returned. -/
def push_internal_level (self : NodeRef) : Option (Heap K V × NodeRef) := new_internal H self

/-- The root after the call. -/
def pop_internal_level (self : NodeRef) : Option (Heap K V × NodeRef) := do
  assert (self.height > 0)
  let top := self.node
  let internal_node ← H.get top
  let node ← internal_node.edges[0]?
  let self : NodeRef := ⟨self.height - 1, node⟩
  let H ← self.clear_parent_link H
  some (H.deallocate top, self)

/-- `push_with_handle`, on a leaf. -/
def push_with_handle (self : NodeRef) (kv : K × V) : Option (Heap K V × Handle .KV) := do
  let x ← H.get self.node
  let idx := x.kvs.length
  assert (idx < CAPACITY)
  let H := H.set self.node { x with kvs := x.kvs ++ [kv] }
  some (H, ← Handle.new_kv H self idx)

/-- `push`, on an internal node. -/
def push (self : NodeRef) (kv : K × V) (edge : NodeRef) : Option (Heap K V) := do
  assert (edge.height + 1 = self.height)
  let x ← H.get self.node
  let idx := x.kvs.length
  assert (idx < CAPACITY)
  let H := H.set self.node { x with kvs := x.kvs ++ [kv], edges := x.edges ++ [edge.node] }
  let e ← Handle.new_edge H self (idx + 1)
  e.correct_parent_link H

end NodeRef

namespace Handle

/-- `remove`, of a pair of a leaf. -/
def remove (self : Handle .KV) : Option (Heap K V × (K × V) × Handle .Edge) := do
  let x ← H.get self.node.node
  let (kv, kvs) ← slice_remove x.kvs self.idx
  let H := H.set self.node.node { x with kvs }
  some (H, kv, ← self.left_edge H)

end Handle

/-! ## Balancing -/

/-- `None` is `Err(self)`. -/
def NodeRef.choose_parent_kv (self : NodeRef) : Option (Option (LeftOrRight BalancingContext)) := do
  match ← self.ascend H with
  | some parent_edge => do
    match ← parent_edge.left_kv H with
    | some left_parent_kv => do
      let left_child ← (← left_parent_kv.left_edge H).descend H
      some (some (.Left ⟨left_parent_kv, left_child, self⟩))
    | none => do
      match ← parent_edge.right_kv H with
      | some right_parent_kv => do
        let right_child ← (← right_parent_kv.right_edge H).descend H
        some (some (.Right ⟨right_parent_kv, self, right_child⟩))
      | none => none
  | none => some none

namespace BalancingContext

def can_merge (self : BalancingContext) : Option Bool := do
  some ((← self.left_child.len H) + 1 + (← self.right_child.len H) ≤ CAPACITY)

/-- Moves the pair of the parent and the right child to the end of the left child. Returns the
parent and the left child. -/
def do_merge (self : BalancingContext) : Option (Heap K V × NodeRef × NodeRef) := do
  let parent_node := self.parent.node
  let parent_idx := self.parent.idx
  let parent ← H.get parent_node.node
  let old_parent_len := parent.kvs.length
  let left_node := self.left_child
  let left ← H.get left_node.node
  let old_left_len := left.kvs.length
  let right_node := self.right_child
  let right ← H.get right_node.node
  let right_len := right.kvs.length
  let new_left_len := old_left_len + 1 + right_len
  assert (new_left_len ≤ CAPACITY)
  let (parent_kv, parent_kvs) ← slice_remove parent.kvs parent_idx
  let H := H.set left_node.node { left with kvs := left.kvs ++ parent_kv :: right.kvs }
  let (_, parent_edges) ← slice_remove parent.edges (parent_idx + 1)
  let H := H.set parent_node.node { parent with edges := parent_edges }
  let H ← parent_node.correct_childrens_parent_links H
    (range' (parent_idx + 1) (old_parent_len - (parent_idx + 1)))
  let parent ← H.get parent_node.node
  let H := H.set parent_node.node { parent with kvs := parent_kvs }
  if parent_node.height > 1 then do
    let left ← H.get left_node.node
    let H := H.set left_node.node { left with edges := left.edges ++ right.edges }
    let H ← left_node.correct_childrens_parent_links H
      (range' (old_left_len + 1) (new_left_len + 1 - (old_left_len + 1)))
    some (H.deallocate right_node.node, parent_node, left_node)
  else some (H.deallocate right_node.node, parent_node, left_node)

def merge_tracking_parent (self : BalancingContext) : Option (Heap K V × NodeRef) := do
  let (H, parent, _) ← self.do_merge H
  some (H, parent)

def merge_tracking_child (self : BalancingContext) : Option (Heap K V × NodeRef) := do
  let (H, _, child) ← self.do_merge H
  some (H, child)

def merge_tracking_child_edge (self : BalancingContext) (track_edge_idx : LeftOrRight ℕ) :
    Option (Heap K V × Handle .Edge) := do
  let old_left_len ← self.left_child.len H
  let right_len ← self.right_child.len H
  (match track_edge_idx with
    | .Left idx => assert (idx ≤ old_left_len)
    | .Right idx => assert (idx ≤ right_len))
  let (H, child) ← self.merge_tracking_child H
  let new_idx := match track_edge_idx with
    | .Left idx => idx
    | .Right idx => old_left_len + 1 + idx
  some (H, ← Handle.new_edge H child new_idx)

/-- Moves pairs from the left child over the parent to the right child. -/
def bulk_steal_left (self : BalancingContext) (count : ℕ) : Option (Heap K V) := do
  assert (count > 0)
  let left ← H.get self.left_child.node
  let old_left_len := left.kvs.length
  let right ← H.get self.right_child.node
  let old_right_len := right.kvs.length
  assert (old_right_len + count ≤ CAPACITY)
  assert (old_left_len ≥ count)
  let new_left_len := old_left_len - count
  let new_right_len := old_right_len + count
  let stolen ← left.kvs[new_left_len]?
  let (H, kv) ← self.parent.replace_kv H stolen
  let H := H.set self.left_child.node { left with kvs := left.kvs.take new_left_len }
  let H := H.set self.right_child.node
    { right with kvs := left.kvs.drop (new_left_len + 1) ++ kv :: right.kvs }
  if self.left_child.height > 0 ∧ self.right_child.height > 0 then do
    let left ← H.get self.left_child.node
    let right ← H.get self.right_child.node
    let H := H.set self.left_child.node { left with edges := left.edges.take (new_left_len + 1) }
    let H := H.set self.right_child.node
      { right with edges := left.edges.drop (new_left_len + 1) ++ right.edges }
    self.right_child.correct_childrens_parent_links H (range' 0 (new_right_len + 1))
  else do
    assert (self.left_child.height = 0 ∧ self.right_child.height = 0)
    some H

/-- Moves pairs from the right child over the parent to the left child. -/
def bulk_steal_right (self : BalancingContext) (count : ℕ) : Option (Heap K V) := do
  assert (count > 0)
  let left ← H.get self.left_child.node
  let old_left_len := left.kvs.length
  let right ← H.get self.right_child.node
  let old_right_len := right.kvs.length
  assert (old_left_len + count ≤ CAPACITY)
  assert (old_right_len ≥ count)
  let new_left_len := old_left_len + count
  let new_right_len := old_right_len - count
  let stolen ← right.kvs[count - 1]?
  let (H, kv) ← self.parent.replace_kv H stolen
  let H := H.set self.left_child.node
    { left with kvs := left.kvs ++ kv :: right.kvs.take (count - 1) }
  let H := H.set self.right_child.node { right with kvs := right.kvs.drop count }
  if self.left_child.height > 0 ∧ self.right_child.height > 0 then do
    let left ← H.get self.left_child.node
    let right ← H.get self.right_child.node
    let H := H.set self.left_child.node { left with edges := left.edges ++ right.edges.take count }
    let H := H.set self.right_child.node { right with edges := right.edges.drop count }
    let H ← self.left_child.correct_childrens_parent_links H
      (range' (old_left_len + 1) (new_left_len + 1 - (old_left_len + 1)))
    self.right_child.correct_childrens_parent_links H (range' 0 (new_right_len + 1))
  else do
    assert (self.left_child.height = 0 ∧ self.right_child.height = 0)
    some H

def steal_left (self : BalancingContext) (track_right_edge_idx : ℕ) :
    Option (Heap K V × Handle .Edge) := do
  let H ← self.bulk_steal_left H 1
  some (H, ← Handle.new_edge H self.right_child (1 + track_right_edge_idx))

def steal_right (self : BalancingContext) (track_left_edge_idx : ℕ) :
    Option (Heap K V × Handle .Edge) := do
  let H ← self.bulk_steal_right H 1
  some (H, ← Handle.new_edge H self.left_child track_left_edge_idx)

end BalancingContext

end RustStd.BTree
