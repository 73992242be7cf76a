import RustStd.Foundations.Store
import RustStd.Foundations.Word

/-!
# Linked lists

`alloc/src/collections/linked_list.rs`. Nodes lie in a store and hold the numbers of their
neighbours. Following a link to a node that is not allocated, an `unwrap_unchecked` of `None` and a
length or index that goes below zero end with `none`.
-/

namespace RustStd.Collections

structure Node (T : Type) where
  next : Option ℕ
  prev : Option ℕ
  element : T

abbrev Heap (T : Type) := Store (Node T)

structure LinkedList where
  head : Option ℕ
  tail : Option ℕ
  len : ℕ
  deriving DecidableEq, Repr

variable {T : Type}

/-- `(*p).next = next` -/
def set_next (H : Heap T) (p : ℕ) (next : Option ℕ) : Option (Heap T) :=
  H.modify p fun node => { node with next }

/-- `(*p).prev = prev` -/
def set_prev (H : Heap T) (p : ℕ) (prev : Option ℕ) : Option (Heap T) :=
  H.modify p fun node => { node with prev }

/-- `Box::new` of `Node::new` -/
def new_node (H : Heap T) (element : T) : Heap T × ℕ := H.alloc ⟨none, none, element⟩

/-- `Node::into_element`, which frees the node. -/
def into_element (H : Heap T) (node : ℕ) : Option (Heap T × T) := do
  let n ← H.get node
  some (H.deallocate node, n.element)

variable (H : Heap T)

namespace LinkedList

def new : LinkedList := ⟨none, none, 0⟩

/-! ## Private methods -/

/-- `match prev { Some(prev) => (*prev).next = next, None => self.head = next }` -/
def patch_next (self : LinkedList) (prev next : Option ℕ) : Option (Heap T × LinkedList) :=
  match prev with
  | some prev => do some (← set_next H prev next, self)
  | none => some (H, { self with head := next })

/-- `match next { Some(next) => (*next).prev = prev, None => self.tail = prev }` -/
def patch_prev (self : LinkedList) (next prev : Option ℕ) : Option (Heap T × LinkedList) :=
  match next with
  | some next => do some (← set_prev H next prev, self)
  | none => some (H, { self with tail := prev })

def push_front_node (self : LinkedList) (node : ℕ) : Option (Heap T × LinkedList) := do
  let H ← set_next H node self.head
  let H ← set_prev H node none
  let (H, self) ← self.patch_prev H self.head (some node)
  some (H, { self with head := some node, len := self.len + 1 })

def pop_front_node (self : LinkedList) : Option (Heap T × LinkedList × Option ℕ) :=
  match self.head with
  | none => some (H, self, none)
  | some node => do
    let self := { self with head := (← H.get node).next }
    let (H, self) ← self.patch_prev H self.head none
    some (H, { self with len := ← checkedSub self.len 1 }, some node)

def push_back_node (self : LinkedList) (node : ℕ) : Option (Heap T × LinkedList) := do
  let H ← set_next H node none
  let H ← set_prev H node self.tail
  let (H, self) ← self.patch_next H self.tail (some node)
  some (H, { self with tail := some node, len := self.len + 1 })

def pop_back_node (self : LinkedList) : Option (Heap T × LinkedList × Option ℕ) :=
  match self.tail with
  | none => some (H, self, none)
  | some node => do
    let self := { self with tail := (← H.get node).prev }
    let (H, self) ← self.patch_next H self.tail none
    some (H, { self with len := ← checkedSub self.len 1 }, some node)

def unlink_node (self : LinkedList) (node : ℕ) : Option (Heap T × LinkedList) := do
  let n ← H.get node
  let (H, self) ← self.patch_next H n.prev n.next
  let n ← H.get node
  let (H, self) ← self.patch_prev H n.next n.prev
  some (H, { self with len := ← checkedSub self.len 1 })

def splice_nodes (self : LinkedList) (existing_prev existing_next : Option ℕ)
    (splice_start splice_end splice_length : ℕ) : Option (Heap T × LinkedList) := do
  let (H, self) ← self.patch_next H existing_prev (some splice_start)
  let (H, self) ← self.patch_prev H existing_next (some splice_end)
  let H ← set_prev H splice_start existing_prev
  let H ← set_next H splice_end existing_next
  some (H, { self with len := self.len + splice_length })

/-- The first node, the last one and the length, where there are nodes. -/
def detach_all_nodes (self : LinkedList) : Option (Option (ℕ × ℕ × ℕ)) :=
  match self.head with
  | some head => do some (some (head, ← self.tail, self.len))
  | none => some none

/-- The list and the first part. -/
def split_off_before_node (self : LinkedList) (split_node : Option ℕ) (at_ : ℕ) :
    Option (Heap T × LinkedList × LinkedList) :=
  match split_node with
  | some split_node => do
    let first_part_tail := (← H.get split_node).prev
    let H ← set_prev H split_node none
    let (H, first_part_head) ← (match first_part_tail with
      | some tail => do some (← set_next H tail none, self.head)
      | none => some (H, none))
    let first_part := ⟨first_part_head, first_part_tail, at_⟩
    some (H, { self with head := some split_node, len := ← checkedSub self.len at_ }, first_part)
  | none => some (H, new, self)

/-- The list and the second part. -/
def split_off_after_node (self : LinkedList) (split_node : Option ℕ) (at_ : ℕ) :
    Option (Heap T × LinkedList × LinkedList) :=
  match split_node with
  | some split_node => do
    let second_part_head := (← H.get split_node).next
    let H ← set_next H split_node none
    let (H, second_part_tail) ← (match second_part_head with
      | some head => do some (← set_prev H head none, self.tail)
      | none => some (H, none))
    let second_part := ⟨second_part_head, second_part_tail, ← checkedSub self.len at_⟩
    some (H, { self with tail := some split_node, len := at_ }, second_part)
  | none => some (H, new, self)

/-! ## List operations -/

/-- Both lists after the call. -/
def append (self other : LinkedList) : Option (Heap T × LinkedList × LinkedList) :=
  match self.tail with
  | none => some (H, other, self)
  | some tail =>
    match other.head with
    | some other_head => do
      let H ← set_next H tail (some other_head)
      let H ← set_prev H other_head (some tail)
      some (H, { self with tail := other.tail, len := self.len + other.len }, ⟨none, none, 0⟩)
    | none => some (H, self, other)

def push_front (self : LinkedList) (elt : T) : Option (Heap T × LinkedList) :=
  let (H, node) := new_node H elt
  self.push_front_node H node

def push_back (self : LinkedList) (elt : T) : Option (Heap T × LinkedList) :=
  let (H, node) := new_node H elt
  self.push_back_node H node

def pop_front (self : LinkedList) : Option (Heap T × LinkedList × Option T) := do
  match ← self.pop_front_node H with
  | (H, self, none) => some (H, self, none)
  | (H, self, some node) =>
    let (H, element) ← into_element H node
    some (H, self, some element)

def pop_back (self : LinkedList) : Option (Heap T × LinkedList × Option T) := do
  match ← self.pop_back_node H with
  | (H, self, none) => some (H, self, none)
  | (H, self, some node) =>
    let (H, element) ← into_element H node
    some (H, self, some element)

end LinkedList

/-! ## Cursors -/

structure CursorMut where
  index : ℕ
  current : Option ℕ
  list : LinkedList
  deriving DecidableEq, Repr

def LinkedList.cursor_front_mut (self : LinkedList) : CursorMut := ⟨0, self.head, self⟩

def LinkedList.cursor_back_mut (self : LinkedList) : CursorMut := ⟨self.len - 1, self.tail, self⟩

namespace CursorMut

/-- `index()` -/
def get_index (self : CursorMut) : Option ℕ := self.current.map fun _ => self.index

def move_next (self : CursorMut) : Option CursorMut :=
  match self.current with
  | none => some { self with current := self.list.head, index := 0 }
  | some current => do
    some { self with current := (← H.get current).next, index := self.index + 1 }

def move_prev (self : CursorMut) : Option CursorMut :=
  match self.current with
  | none => some { self with current := self.list.tail, index := self.list.len - 1 }
  | some current => do
    some { self with
      current := (← H.get current).prev
      index := (checkedSub self.index 1).getD self.list.len }

/-- `current()` -/
def get_current (self : CursorMut) : Option (Option T) :=
  match self.current with
  | none => some none
  | some current => do some (some (← H.get current).element)

def node_next (self : CursorMut) : Option (Option ℕ) :=
  match self.current with
  | none => some self.list.head
  | some node => do some (← H.get node).next

def node_prev (self : CursorMut) : Option (Option ℕ) :=
  match self.current with
  | none => some self.list.tail
  | some node => do some (← H.get node).prev

def splice_after (self : CursorMut) (list : LinkedList) : Option (Heap T × CursorMut) := do
  match ← list.detach_all_nodes with
  | none => some (H, self)
  | some (splice_head, splice_tail, splice_len) => do
    let node_next ← self.node_next H
    let (H, list) ←
      self.list.splice_nodes H self.current node_next splice_head splice_tail splice_len
    some (H, ⟨if self.current.isNone then list.len else self.index, self.current, list⟩)

def splice_before (self : CursorMut) (list : LinkedList) : Option (Heap T × CursorMut) := do
  match ← list.detach_all_nodes with
  | none => some (H, self)
  | some (splice_head, splice_tail, splice_len) => do
    let node_prev ← self.node_prev H
    let (H, list) ←
      self.list.splice_nodes H node_prev self.current splice_head splice_tail splice_len
    some (H, ⟨self.index + splice_len, self.current, list⟩)

def insert_after (self : CursorMut) (item : T) : Option (Heap T × CursorMut) := do
  let (H, spliced_node) := new_node H item
  let node_next ← self.node_next H
  let (H, list) ← self.list.splice_nodes H self.current node_next spliced_node spliced_node 1
  some (H, ⟨if self.current.isNone then list.len else self.index, self.current, list⟩)

def insert_before (self : CursorMut) (item : T) : Option (Heap T × CursorMut) := do
  let (H, spliced_node) := new_node H item
  let node_prev ← self.node_prev H
  let (H, list) ← self.list.splice_nodes H node_prev self.current spliced_node spliced_node 1
  some (H, ⟨self.index + 1, self.current, list⟩)

def remove_current (self : CursorMut) : Option (Heap T × CursorMut × Option T) :=
  match self.current with
  | none => some (H, self, none)
  | some unlinked_node => do
    let current := (← H.get unlinked_node).next
    let (H, list) ← self.list.unlink_node H unlinked_node
    let (H, element) ← into_element H unlinked_node
    some (H, ⟨self.index, current, list⟩, some element)

def remove_current_as_list (self : CursorMut) : Option (Heap T × CursorMut × Option LinkedList) :=
  match self.current with
  | none => some (H, self, none)
  | some unlinked_node => do
    let current := (← H.get unlinked_node).next
    let (H, list) ← self.list.unlink_node H unlinked_node
    let H ← set_prev H unlinked_node none
    let H ← set_next H unlinked_node none
    some (H, ⟨self.index, current, list⟩, some ⟨some unlinked_node, some unlinked_node, 1⟩)

/-- The cursor and the list of what was after it. -/
def split_after (self : CursorMut) : Option (Heap T × CursorMut × LinkedList) := do
  let split_off_idx := if self.index = self.list.len then 0 else self.index + 1
  let index := if self.index = self.list.len then 0 else self.index
  let (H, list, second_part) ← self.list.split_off_after_node H self.current split_off_idx
  some (H, ⟨index, self.current, list⟩, second_part)

/-- The cursor and the list of what was before it. -/
def split_before (self : CursorMut) : Option (Heap T × CursorMut × LinkedList) := do
  let (H, list, first_part) ← self.list.split_off_before_node H self.current self.index
  some (H, ⟨0, self.current, list⟩, first_part)

def push_front (self : CursorMut) (elt : T) : Option (Heap T × CursorMut) := do
  let (H, list) ← self.list.push_front H elt
  some (H, { self with list, index := self.index + 1 })

def push_back (self : CursorMut) (elt : T) : Option (Heap T × CursorMut) := do
  let (H, list) ← self.list.push_back H elt
  let current ← self.get_current H
  some (H, { self with list, index := if current.isNone then self.index + 1 else self.index })

def pop_front (self : CursorMut) : Option (Heap T × CursorMut × Option T) :=
  if self.list.head.isNone then some (H, self, none)
  else do
    let self ← (if self.list.head = self.current then self.move_next H else some self)
    let self := { self with index := self.index - 1 }
    let (H, list, element) ← self.list.pop_front H
    some (H, { self with list }, element)

def pop_back (self : CursorMut) : Option (Heap T × CursorMut × Option T) :=
  if self.list.head.isNone then some (H, self, none)
  else do
    let self ← (if self.list.tail = self.current then some { self with current := none }
      else if self.current.isNone then do
        some { self with index := ← checkedSub self.list.len 1 }
      else some self)
    let (H, list, element) ← self.list.pop_back H
    some (H, { self with list }, element)

end CursorMut

end RustStd.Collections
