import RustStd.Foundations.Cells
import RustStd.Iter.Source

/-!
# Mapping windows

The adapter `MapWindows`, after `core/src/iter/adapters/map_windows.rs`, over any iterator and any
closure. The last `N` items are in a buffer of `2 * N` cells, which shifts back to its beginning
when its end is reached. What a call does to the items is kept in a log: an item is pulled from the
inner iterator, dropped, or shown to the closure as a part of a window.
-/

namespace RustStd.Iter

variable {σ φ T R : Type}

/-- What happens to items. -/
inductive Event (T : Type)
  | pulled (item : T)
  | dropped (item : T)
  | called (window : List T)

/-- `Buffer`, as one array of `2 * N` cells. -/
structure Buffer (T : Type) where
  buffer : List (Option T)
  start : ℕ

structure MapWindowsInner (σ T : Type) where
  iter : Option σ
  buffer : Option (Buffer T)

/-- The loop of `array::iter_next_chunk_erased`; `taken` are the items in its array, which are
dropped when there are too few of them or the iterator unwinds. -/
def iter_next_chunk (src : Source σ T) :
    ℕ → List T → σ → Call (Option (List T)) × σ × List (Event T)
  | 0, taken, s => (.returns (some taken), s, [])
  | n + 1, taken, s =>
    match src.next s with
    | (.panics, s) => (.panics, s, taken.map .dropped)
    | (.returns none, s) => (.returns none, s, taken.map .dropped)
    | (.returns (some item), s) =>
      let (r, s, log) := iter_next_chunk src n (taken ++ [item]) s
      (r, s, .pulled item :: log)

namespace Buffer

/-- The buffer of `try_from_iter` for the items of its first half. -/
def of_first_half (N : ℕ) (first_half : List T) : Buffer T :=
  ⟨first_half.map some ++ List.replicate N none, 0⟩

def as_array_ref (N : ℕ) (self : Buffer T) : Exec (List T) := readCells self.buffer self.start N

/-- `push`, with the item that it drops. -/
def push (N : ℕ) (self : Buffer T) (next : T) : Exec (Buffer T × T) :=
  if self.start = N then do
    let cells ← copyCells self.buffer (self.start + 1) 0 (N - 1)
    let cells ← writeCell cells (N - 1) next
    let to_drop ← readCell cells self.start
    return (⟨cells, 0⟩, to_drop)
  else do
    let cells ← writeCell self.buffer (self.start + N) next
    let to_drop ← readCell cells self.start
    return (⟨cells, self.start + 1⟩, to_drop)

end Buffer

namespace MapWindowsInner

def new (iter : σ) : MapWindowsInner σ T := ⟨some iter, none⟩

def next_window (src : Source σ T) (N : ℕ) (self : MapWindowsInner σ T) :
    Exec (Call (Option (List T)) × MapWindowsInner σ T × List (Event T)) :=
  match self.iter with
  | none => .ok (.returns none, self, [])
  | some iter =>
    match self.buffer with
    | none =>
      -- The items of a failed attempt are lost, but the iterator is kept.
      match iter_next_chunk src N [] iter with
      | (.panics, iter, log) => .ok (.panics, ⟨some iter, none⟩, log)
      | (.returns none, iter, log) => .ok (.returns none, ⟨some iter, none⟩, log)
      | (.returns (some first_half), iter, log) => do
        let buffer := Buffer.of_first_half N first_half
        return (.returns (some (← buffer.as_array_ref N)), ⟨some iter, some buffer⟩, log)
    | some buffer =>
      match src.next iter with
      | (.panics, iter) => .ok (.panics, ⟨some iter, some buffer⟩, [])
      | (.returns none, _) => do
        return (.returns none, ⟨none, none⟩, (← buffer.as_array_ref N).map .dropped)
      | (.returns (some item), iter) => do
        let (buffer, to_drop) ← buffer.push N item
        return (.returns (some (← buffer.as_array_ref N)), ⟨some iter, some buffer⟩,
          [.pulled item, .dropped to_drop])

def size_hint (src : Source σ T) (N : ℕ) (self : MapWindowsInner σ T) : ℕ × Option ℕ :=
  match self.iter with
  | none => (0, some 0)
  | some iter =>
    let (lo, hi) := src.size_hint iter
    if self.buffer.isSome then (lo, hi) else (lo - (N - 1), hi.map fun hi => hi - (N - 1))

/-- `Drop` -/
def drop (N : ℕ) (self : MapWindowsInner σ T) : Exec (List (Event T)) :=
  match self.buffer with
  | none => .ok []
  | some buffer => do return (← buffer.as_array_ref N).map .dropped

end MapWindowsInner

/-- `MapWindows`, with the state of the closure. -/
structure MapWindows (σ φ T : Type) where
  f : φ
  inner : MapWindowsInner σ T

/-- What a call of `next` does. -/
structure Turn (T R : Type) where
  outcome : Call (Option R)
  log : List (Event T)

namespace MapWindows

/-- The assertions on the length of the array; `item_size` is the size of an item. -/
def new (usizeMax item_size N : ℕ) (iter : σ) (f : φ) : Exec (MapWindows σ φ T) :=
  if N = 0 then .error .panic
  -- `N.checked_mul(2)` is looked at for items without a size only.
  else if item_size = 0 ∧ usizeMax < N * 2 then .error .panic
  else .ok ⟨f, .new iter⟩

def next (src : Source σ T) (call : φ → List T → Call R × φ) (N : ℕ) (self : MapWindows σ φ T) :
    Exec (Turn T R × MapWindows σ φ T) := do
  let (window, inner, log) ← self.inner.next_window src N
  match window with
  | .panics => return (⟨.panics, log⟩, { self with inner })
  | .returns none => return (⟨.returns none, log⟩, { self with inner })
  | .returns (some window) =>
    let (out, f) := call self.f window
    let outcome := match out with
      | .panics => .panics
      | .returns out => .returns (some out)
    return (⟨outcome, log ++ [.called window]⟩, ⟨f, inner⟩)

/-- Some calls of `next`, after which the caller goes on even when one unwinds. -/
def run (usizeMax item_size : ℕ) (src : Source σ T) (call : φ → List T → Call R × φ) (N : ℕ)
    (iter : σ) (f : φ) : ℕ → Exec (List (Turn T R) × MapWindows σ φ T)
  | 0 => do return ([], ← new usizeMax item_size N iter f)
  | n + 1 => do
    let (turns, self) ← run usizeMax item_size src call N iter f n
    let (turn, self) ← self.next src call N
    return (turns ++ [turn], self)

end MapWindows

end RustStd.Iter
