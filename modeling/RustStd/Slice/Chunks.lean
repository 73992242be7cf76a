import RustStd.Foundations.Strided
import RustStd.Foundations.Word
import RustStd.Iter.Provided

/-!
# Chunks of a slice

The iterators over the windows and the chunks of a slice, after `core/src/slice/iter.rs`. A slice is
a span of an allocation: where it starts and how long it is. Splitting or indexing out of range
fails, whether the source checks it (and panics) or relies on it, and so does arithmetic that leaves
`usize`.
-/

namespace RustStd.Slice

open Iter

/-- A slice of an allocation. -/
structure Span where
  start : ℕ
  len : ℕ
  deriving DecidableEq, Repr

namespace Span

/-- `&self[a..b]` -/
def index (self : Span) (a b : ℕ) : Option Span :=
  if a ≤ b ∧ b ≤ self.len then some ⟨self.start + a, b - a⟩ else none

/-- `split_at`, and the forms that do not check -/
def split_at (self : Span) (mid : ℕ) : Option (Span × Span) :=
  if mid ≤ self.len then some (⟨self.start, mid⟩, ⟨self.start + mid, self.len - mid⟩) else none

/-- `from_raw_parts(self.as_ptr().add(start), len)` -/
def raw_part (self : Span) (start len : ℕ) : Option Span :=
  if start + len ≤ self.len then some ⟨self.start + start, len⟩ else none

/-- `&self[..0]` -/
def cleared (self : Span) : Span := ⟨self.start, 0⟩

/-- `&mut []` -/
def empty : Span := ⟨0, 0⟩

end Span

section Arithmetic

variable (usizeMax : ℕ)

/-- `a * b` -/
def mul (a b : ℕ) : Option ℕ := if a * b ≤ usizeMax then some (a * b) else none

/-- `a + b` -/
def add (a b : ℕ) : Option ℕ := if a + b ≤ usizeMax then some (a + b) else none

end Arithmetic

structure Windows where
  v : Span
  size : ℕ

/-- `Chunks`, `ChunksMut`, `RChunks` and `RChunksMut` -/
structure Chunks where
  v : Span
  chunk_size : ℕ

/-- `ChunksExact`, `ChunksExactMut`, `RChunksExact` and `RChunksExactMut` -/
structure ChunksExact where
  v : Span
  rem : Span
  chunk_size : ℕ

variable (usizeMax turns : ℕ)

/-! ## Windows -/

namespace Windows

/-- `windows` -/
def new (slice : Span) (size : ℕ) : Option Windows := if size = 0 then none else some ⟨slice, size⟩

def next (self : Windows) : Option (Option Span × Windows) :=
  if self.size > self.v.len then some (none, self)
  else do
    let ret ← self.v.index 0 self.size
    return (some ret, { self with v := ← self.v.index 1 self.v.len })

def size_hint (self : Windows) : ℕ × Option ℕ :=
  if self.size > self.v.len then (0, some 0)
  else
    let size := self.v.len - self.size + 1
    (size, some size)

def count (self : Windows) : Option ℕ := Provided.len size_hint self

def nth (self : Windows) (n : ℕ) : Option (Option Span × Windows) :=
  match self.v.index n self.v.len with
  | none => some (none, { self with v := self.v.cleared })
  | some rest =>
    match rest.index 0 self.size with
    | none => some (none, { self with v := self.v.cleared })
    | some nth => do return (some nth, { self with v := ← rest.index 1 rest.len })

def last (self : Windows) : Option (Option Span) :=
  if self.size > self.v.len then some none
  else do
    let start ← checkedSub self.v.len self.size
    return some (← self.v.index start self.v.len)

def nth_back (self : Windows) (n : ℕ) : Option (Option Span × Windows) :=
  match checkedSub self.v.len n with
  | none => some (none, { self with v := self.v.cleared })
  | some «end» =>
    match checkedSub «end» self.size with
    | none => some (none, { self with v := self.v.cleared })
    | some start => do
      let res ← self.v.index start «end»
      return (some res, { self with v := ← self.v.index 0 (← checkedSub «end» 1) })

def next_back (self : Windows) : Option (Option Span × Windows) := self.nth_back 0

/-- `__iterator_get_unchecked` -/
def get_unchecked (self : Windows) (idx : ℕ) : Option Span := self.v.raw_part idx self.size

def iterator : DoubleEndedIterator Windows Span :=
  Provided.iterator turns next next_back nth nth_back size_hint count last

end Windows

/-! ## Chunks from the front -/

namespace Chunks

/-- `chunks` -/
def new (slice : Span) (chunk_size : ℕ) : Option Chunks :=
  if chunk_size = 0 then none else some ⟨slice, chunk_size⟩

def next (self : Chunks) : Option (Option Span × Chunks) :=
  if self.v.len = 0 then some (none, self)
  else do
    let chunksz := min self.v.len self.chunk_size
    let (fst, snd) ← self.v.split_at chunksz
    return (some fst, { self with v := snd })

def size_hint (self : Chunks) : ℕ × Option ℕ :=
  if self.v.len = 0 then (0, some 0)
  else
    let n := div_ceil self.v.len self.chunk_size
    (n, some n)

def count (self : Chunks) : Option ℕ := Provided.len size_hint self

def nth (self : Chunks) (n : ℕ) : Option (Option Span × Chunks) :=
  match mul usizeMax n self.chunk_size with
  | none => some (none, { self with v := self.v.cleared })
  | some start =>
    if start < self.v.len then do
      let rest ← self.v.index start self.v.len
      let (chunk, rest) ← rest.split_at (min self.chunk_size rest.len)
      return (some chunk, { self with v := rest })
    else some (none, { self with v := self.v.cleared })

def last (self : Chunks) : Option (Option Span) :=
  if self.v.len = 0 then some none
  else do
    let start ← mul usizeMax ((self.v.len - 1) / self.chunk_size) self.chunk_size
    return some (← self.v.index start self.v.len)

/-- `__iterator_get_unchecked` -/
def get_unchecked (self : Chunks) (idx : ℕ) : Option Span := do
  let start ← mul usizeMax idx self.chunk_size
  let len := min (← checkedSub self.v.len start) self.chunk_size
  self.v.raw_part start len

def next_back (self : Chunks) : Option (Option Span × Chunks) :=
  if self.v.len = 0 then some (none, self)
  else do
    let remainder := self.v.len % self.chunk_size
    let chunksz := if remainder ≠ 0 then remainder else self.chunk_size
    let (fst, snd) ← self.v.split_at (← checkedSub self.v.len chunksz)
    return (some snd, { self with v := fst })

def nth_back (self : Chunks) (n : ℕ) : Option (Option Span × Chunks) := do
  let len ← Provided.len size_hint self
  if n < len then
    let start ← mul usizeMax (len - 1 - n) self.chunk_size
    let «end» ← add usizeMax start (min (← checkedSub self.v.len start) self.chunk_size)
    let nth_back ← self.v.index start «end»
    return (some nth_back, { self with v := ← self.v.index 0 start })
  else return (none, { self with v := self.v.cleared })

def iterator : DoubleEndedIterator Chunks Span :=
  Provided.iterator turns next next_back (nth usizeMax) (nth_back usizeMax) size_hint count
    (last usizeMax)

end Chunks

/-! `ChunksMut` splits raw slices in two where `Chunks` indexes. -/

namespace ChunksMut

def nth (self : Chunks) (n : ℕ) : Option (Option Span × Chunks) :=
  match mul usizeMax n self.chunk_size with
  | none => some (none, { self with v := .empty })
  | some start =>
    if start < self.v.len then do
      let (_, rest) ← self.v.split_at start
      let (chunk, rest) ← rest.split_at (min self.chunk_size rest.len)
      return (some chunk, { self with v := rest })
    else some (none, { self with v := .empty })

def nth_back (self : Chunks) (n : ℕ) : Option (Option Span × Chunks) := do
  let len ← Provided.len Chunks.size_hint self
  if n < len then
    let start ← mul usizeMax (len - 1 - n) self.chunk_size
    let «end» := match add usizeMax start self.chunk_size with
      | some res => min self.v.len res
      | none => self.v.len
    let (temp, _tail) ← self.v.split_at «end»
    let (head, nth_back) ← temp.split_at start
    return (some nth_back, { self with v := head })
  else return (none, { self with v := .empty })

def iterator : DoubleEndedIterator Chunks Span :=
  Provided.iterator turns Chunks.next Chunks.next_back (nth usizeMax) (nth_back usizeMax)
    Chunks.size_hint Chunks.count (Chunks.last usizeMax)

end ChunksMut

/-! ## Exact chunks from the front -/

namespace ChunksExact

/-- `chunks_exact` -/
def new (slice : Span) (chunk_size : ℕ) : Option ChunksExact :=
  if chunk_size = 0 then none
  else do
    let rem := slice.len % chunk_size
    let fst_len ← checkedSub slice.len rem
    let (fst, snd) ← slice.split_at fst_len
    return ⟨fst, snd, chunk_size⟩

def next (self : ChunksExact) : Option (Option Span × ChunksExact) :=
  match self.v.split_at self.chunk_size with
  | none => some (none, self)
  | some (chunk, rest) => some (some chunk, { self with v := rest })

/-- `remainder`, and `into_remainder` -/
def remainder (self : ChunksExact) : Span := self.rem

def size_hint (self : ChunksExact) : ℕ × Option ℕ :=
  let n := self.v.len / self.chunk_size
  (n, some n)

def count (self : ChunksExact) : Option ℕ := Provided.len size_hint self

def nth (self : ChunksExact) (n : ℕ) : Option (Option Span × ChunksExact) :=
  match mul usizeMax n self.chunk_size with
  | none => some (none, { self with v := self.v.cleared })
  | some start =>
    if start < self.v.len then do next { self with v := ← self.v.index start self.v.len }
    else some (none, { self with v := self.v.cleared })

def next_back (self : ChunksExact) : Option (Option Span × ChunksExact) :=
  if self.v.len < self.chunk_size then some (none, self)
  else do
    let (fst, snd) ← self.v.split_at (← checkedSub self.v.len self.chunk_size)
    return (some snd, { self with v := fst })

def last (self : ChunksExact) : Option (Option Span) := do return (← self.next_back).1

/-- `__iterator_get_unchecked` -/
def get_unchecked (self : ChunksExact) (idx : ℕ) : Option Span := do
  self.v.raw_part (← mul usizeMax idx self.chunk_size) self.chunk_size

def nth_back (self : ChunksExact) (n : ℕ) : Option (Option Span × ChunksExact) := do
  let len ← Provided.len size_hint self
  if n < len then
    let start ← mul usizeMax (len - 1 - n) self.chunk_size
    let «end» ← add usizeMax start self.chunk_size
    let nth_back ← self.v.index start «end»
    return (some nth_back, { self with v := ← self.v.index 0 start })
  else return (none, { self with v := self.v.cleared })

def iterator : DoubleEndedIterator ChunksExact Span :=
  Provided.iterator turns next next_back (nth usizeMax) (nth_back usizeMax) size_hint count last

end ChunksExact

namespace ChunksExactMut

def nth (self : ChunksExact) (n : ℕ) : Option (Option Span × ChunksExact) :=
  match mul usizeMax n self.chunk_size with
  | none => some (none, { self with v := .empty })
  | some start =>
    if start < self.v.len then do
      let (_, rest) ← self.v.split_at start
      ChunksExact.next { self with v := rest }
    else some (none, { self with v := .empty })

def nth_back (self : ChunksExact) (n : ℕ) : Option (Option Span × ChunksExact) := do
  let len ← Provided.len ChunksExact.size_hint self
  if n < len then
    let start ← mul usizeMax (len - 1 - n) self.chunk_size
    let «end» ← add usizeMax start self.chunk_size
    let (temp, _tail) ← self.v.split_at «end»
    let (head, nth_back) ← temp.split_at start
    return (some nth_back, { self with v := head })
  else return (none, { self with v := .empty })

def iterator : DoubleEndedIterator ChunksExact Span :=
  Provided.iterator turns ChunksExact.next ChunksExact.next_back (nth usizeMax)
    (nth_back usizeMax) ChunksExact.size_hint ChunksExact.count ChunksExact.last

end ChunksExactMut

/-! ## Chunks from the back -/

namespace RChunks

def next (self : Chunks) : Option (Option Span × Chunks) :=
  if self.v.len = 0 then some (none, self)
  else do
    let idx := self.v.len - self.chunk_size
    let (rest, chunk) ← self.v.split_at idx
    return (some chunk, { self with v := rest })

def nth (self : Chunks) (n : ℕ) : Option (Option Span × Chunks) :=
  match mul usizeMax n self.chunk_size with
  | none => some (none, { self with v := self.v.cleared })
  | some «end» =>
    if «end» < self.v.len then do
      let «end» ← checkedSub self.v.len «end»
      let rest ← self.v.index 0 «end»
      let (rest, chunk) ← rest.split_at («end» - self.chunk_size)
      return (some chunk, { self with v := rest })
    else some (none, { self with v := self.v.cleared })

def last (self : Chunks) : Option (Option Span) :=
  if self.v.len = 0 then some none
  else do
    let rem := self.v.len % self.chunk_size
    let «end» := if rem = 0 then self.chunk_size else rem
    return some (← self.v.index 0 «end»)

/-- `__iterator_get_unchecked` -/
def get_unchecked (self : Chunks) (idx : ℕ) : Option Span := do
  let «end» ← checkedSub self.v.len (← mul usizeMax idx self.chunk_size)
  let start := «end» - self.chunk_size
  self.v.raw_part start (← checkedSub «end» start)

def next_back (self : Chunks) : Option (Option Span × Chunks) :=
  if self.v.len = 0 then some (none, self)
  else do
    let remainder := self.v.len % self.chunk_size
    let chunksz := if remainder ≠ 0 then remainder else self.chunk_size
    let (fst, snd) ← self.v.split_at chunksz
    return (some fst, { self with v := snd })

def nth_back (self : Chunks) (n : ℕ) : Option (Option Span × Chunks) := do
  let len ← Provided.len Chunks.size_hint self
  if n < len then
    let offset_from_end ← mul usizeMax (len - 1 - n) self.chunk_size
    let «end» ← checkedSub self.v.len offset_from_end
    let start := «end» - self.chunk_size
    let nth_back ← self.v.index start «end»
    return (some nth_back, { self with v := ← self.v.index «end» self.v.len })
  else return (none, { self with v := self.v.cleared })

def iterator : DoubleEndedIterator Chunks Span :=
  Provided.iterator turns next next_back (nth usizeMax) (nth_back usizeMax) Chunks.size_hint
    Chunks.count last

end RChunks

namespace RChunksMut

def nth (self : Chunks) (n : ℕ) : Option (Option Span × Chunks) :=
  match mul usizeMax n self.chunk_size with
  | none => some (none, { self with v := .empty })
  | some «end» =>
    if «end» < self.v.len then do
      let «end» ← checkedSub self.v.len «end»
      let (rest, _) ← self.v.split_at «end»
      let (rest, chunk) ← rest.split_at («end» - self.chunk_size)
      return (some chunk, { self with v := rest })
    else some (none, { self with v := .empty })

def nth_back (self : Chunks) (n : ℕ) : Option (Option Span × Chunks) := do
  let len ← Provided.len Chunks.size_hint self
  if n < len then
    let offset_from_end ← mul usizeMax (len - 1 - n) self.chunk_size
    let «end» ← checkedSub self.v.len offset_from_end
    let start := «end» - self.chunk_size
    let (tmp, tail) ← self.v.split_at «end»
    let (_, nth_back) ← tmp.split_at start
    return (some nth_back, { self with v := tail })
  else return (none, { self with v := .empty })

def iterator : DoubleEndedIterator Chunks Span :=
  Provided.iterator turns RChunks.next RChunks.next_back (nth usizeMax) (nth_back usizeMax)
    Chunks.size_hint Chunks.count RChunks.last

end RChunksMut

/-! ## Exact chunks from the back -/

namespace RChunksExact

/-- `rchunks_exact` -/
def new (slice : Span) (chunk_size : ℕ) : Option ChunksExact :=
  if chunk_size = 0 then none
  else do
    let rem := slice.len % chunk_size
    let (fst, snd) ← slice.split_at rem
    return ⟨snd, fst, chunk_size⟩

def next (self : ChunksExact) : Option (Option Span × ChunksExact) :=
  if self.v.len < self.chunk_size then some (none, self)
  else do
    let (fst, snd) ← self.v.split_at (← checkedSub self.v.len self.chunk_size)
    return (some snd, { self with v := fst })

def nth (self : ChunksExact) (n : ℕ) : Option (Option Span × ChunksExact) :=
  match mul usizeMax n self.chunk_size with
  | none => some (none, { self with v := self.v.cleared })
  | some «end» =>
    if «end» < self.v.len then do
      next { self with v := ← self.v.index 0 (← checkedSub self.v.len «end») }
    else some (none, { self with v := self.v.cleared })

def next_back (self : ChunksExact) : Option (Option Span × ChunksExact) :=
  if self.v.len < self.chunk_size then some (none, self)
  else do
    let (fst, snd) ← self.v.split_at self.chunk_size
    return (some fst, { self with v := snd })

def last (self : ChunksExact) : Option (Option Span) := do return (← next_back self).1

/-- `__iterator_get_unchecked` -/
def get_unchecked (self : ChunksExact) (idx : ℕ) : Option Span := do
  let «end» ← checkedSub self.v.len (← mul usizeMax idx self.chunk_size)
  let start ← checkedSub «end» self.chunk_size
  self.v.raw_part start self.chunk_size

def nth_back (self : ChunksExact) (n : ℕ) : Option (Option Span × ChunksExact) := do
  let len ← Provided.len ChunksExact.size_hint self
  if n < len then
    let offset ← mul usizeMax (len - n) self.chunk_size
    let start ← checkedSub self.v.len offset
    let «end» ← add usizeMax start self.chunk_size
    let nth_back ← self.v.index start «end»
    return (some nth_back, { self with v := ← self.v.index «end» self.v.len })
  else return (none, { self with v := self.v.cleared })

def iterator : DoubleEndedIterator ChunksExact Span :=
  Provided.iterator turns next next_back (nth usizeMax) (nth_back usizeMax) ChunksExact.size_hint
    ChunksExact.count last

end RChunksExact

namespace RChunksExactMut

def nth (self : ChunksExact) (n : ℕ) : Option (Option Span × ChunksExact) :=
  match mul usizeMax n self.chunk_size with
  | none => some (none, { self with v := .empty })
  | some «end» =>
    if «end» < self.v.len then do
      let idx ← checkedSub self.v.len «end»
      let (fst, _) ← self.v.split_at idx
      RChunksExact.next { self with v := fst }
    else some (none, { self with v := .empty })

def nth_back (self : ChunksExact) (n : ℕ) : Option (Option Span × ChunksExact) := do
  let len ← Provided.len ChunksExact.size_hint self
  if n < len then
    let offset ← mul usizeMax (len - n) self.chunk_size
    let start ← checkedSub self.v.len offset
    let «end» ← add usizeMax start self.chunk_size
    let (tmp, tail) ← self.v.split_at «end»
    let (_, nth_back) ← tmp.split_at start
    return (some nth_back, { self with v := tail })
  else return (none, { self with v := .empty })

def iterator : DoubleEndedIterator ChunksExact Span :=
  Provided.iterator turns RChunksExact.next RChunksExact.next_back (nth usizeMax)
    (nth_back usizeMax) ChunksExact.size_hint ChunksExact.count RChunksExact.last

end RChunksExactMut

end RustStd.Slice
