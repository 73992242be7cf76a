import RustStd.Str.Chars
import RustStd.Str.Searcher

/-!
# Searching a string for a string

`StrSearcher` of `core/src/str/pattern.rs`, which searches with a `TwoWaySearcher`, or, where the
needle is empty, matches at every char boundary. Slicing off a boundary, a sum or difference that
wraps around and a loop that runs out of turns end with `none`.
-/

namespace RustStd

/-- A `&str`: well-formed bytes, no more than a slice can have. -/
structure Str (t : Target) where
  bytes : List UInt8
  valid : Utf8.WellFormed bytes
  len_le : bytes.length ≤ t.isizeMax

structure EmptyNeedle where
  position : ℕ
  end_ : ℕ
  is_match_fw : Bool
  is_match_bw : Bool
  is_finished : Bool

inductive StrSearcherImpl
  | Empty (searcher : EmptyNeedle)
  | TwoWay (searcher : TwoWaySearcher)

structure StrSearcher (t : Target) where
  haystack : Str t
  needle : Str t
  searcher : StrSearcherImpl

/-- The fastest strategy: skip to matches. -/
def MatchOnly : TwoWaySearcher.TwoWayStrategy (Option (ℕ × ℕ)) where
  use_early_reject := false
  rejecting _ _ := none
  matching a b := some (a, b)

/-- Emit rejects regularly. -/
def RejectAndMatch : TwoWaySearcher.TwoWayStrategy SearchStep where
  use_early_reject := true
  rejecting := .Reject
  matching := .Match

/-- `s[a..]` on a `str` -/
def sliceFrom (s : List UInt8) (a : ℕ) : Option (List UInt8) :=
  if is_char_boundary s a then some (s.drop a) else none

/-- `s[..b]` on a `str` -/
def sliceTo (s : List UInt8) (b : ℕ) : Option (List UInt8) :=
  if is_char_boundary s b then some (s.take b) else none

namespace StrSearcher

variable {t : Target}

def new (haystack needle : Str t) : Option (StrSearcher t) :=
  if needle.bytes.isEmpty then
    some ⟨haystack, needle, .Empty ⟨0, haystack.bytes.length, true, true, false⟩⟩
  else do
    some ⟨haystack, needle, .TwoWay (← TwoWaySearcher.new t needle.bytes haystack.bytes.length)⟩

/-- `while !haystack.is_char_boundary(b) { b += 1; }` -/
def boundaryFrom (t : Target) (haystack : List UInt8) (b : ℕ) : Option ℕ :=
  runLoop (fun b =>
    if is_char_boundary haystack b = false then do some (.again (← t.checkedAdd b 1))
    else some (.done b)) (haystack.length + 1) b

/-- `while !haystack.is_char_boundary(a) { a -= 1; }` -/
def boundaryTo (haystack : List UInt8) (a : ℕ) : Option ℕ :=
  runLoop (fun a =>
    if is_char_boundary haystack a = false then do some (.again (← checkedSub a 1))
    else some (.done a)) (haystack.length + 1) a

def next (self : StrSearcher t) : Option (StrSearcher t × SearchStep) :=
  match self.searcher with
  | .Empty searcher =>
    if searcher.is_finished then some (self, .Done)
    else do
      let is_match := searcher.is_match_fw
      let searcher := { searcher with is_match_fw := !searcher.is_match_fw }
      let pos := searcher.position
      match ← Chars.next (← sliceFrom self.haystack.bytes pos), is_match with
      | _, true => some ({ self with searcher := .Empty searcher }, .Match pos pos)
      | none, false =>
        let searcher := { searcher with is_finished := true }
        some ({ self with searcher := .Empty searcher }, .Done)
      | some ch, false => do
        let position ← t.checkedAdd searcher.position (len_utf8 ch)
        let searcher := { searcher with position }
        some ({ self with searcher := .Empty searcher }, .Reject pos searcher.position)
  | .TwoWay searcher =>
    if searcher.position = self.haystack.bytes.length then some (self, .Done)
    else do
      let is_long := searcher.memory == t.usizeMax
      match ← searcher.next t RejectAndMatch self.haystack.bytes self.needle.bytes is_long with
      | (searcher, .Reject a b) => do
        let b ← boundaryFrom t self.haystack.bytes b
        let searcher := { searcher with position := max b searcher.position }
        some ({ self with searcher := .TwoWay searcher }, .Reject a b)
      | (searcher, otherwise) => some ({ self with searcher := .TwoWay searcher }, otherwise)

/-- A turn of the loop that looks for a match among the steps. -/
def matchTurn (next : StrSearcher t → Option (StrSearcher t × SearchStep)) (self : StrSearcher t) :
    Option (Turn (StrSearcher t) (StrSearcher t × Option (ℕ × ℕ))) := do
  match ← next self with
  | (self, .Match a b) => some (.done (self, some (a, b)))
  | (self, .Done) => some (.done (self, none))
  | (self, .Reject _ _) => some (.again self)

def next_match (self : StrSearcher t) : Option (StrSearcher t × Option (ℕ × ℕ)) :=
  match self.searcher with
  | .Empty _ => runLoop (matchTurn next) (2 * self.haystack.bytes.length + 2) self
  | .TwoWay searcher => do
    let is_long := searcher.memory == t.usizeMax
    let (searcher, r) ← (if is_long then
        searcher.next t MatchOnly self.haystack.bytes self.needle.bytes true
      else searcher.next t MatchOnly self.haystack.bytes self.needle.bytes false)
    some ({ self with searcher := .TwoWay searcher }, r)

def next_back (self : StrSearcher t) : Option (StrSearcher t × SearchStep) :=
  match self.searcher with
  | .Empty searcher =>
    if searcher.is_finished then some (self, .Done)
    else do
      let is_match := searcher.is_match_bw
      let searcher := { searcher with is_match_bw := !searcher.is_match_bw }
      let end_ := searcher.end_
      match ← Chars.next_back (← sliceTo self.haystack.bytes end_), is_match with
      | _, true => some ({ self with searcher := .Empty searcher }, .Match end_ end_)
      | none, false =>
        let searcher := { searcher with is_finished := true }
        some ({ self with searcher := .Empty searcher }, .Done)
      | some ch, false => do
        let searcher := { searcher with end_ := ← checkedSub searcher.end_ (len_utf8 ch) }
        some ({ self with searcher := .Empty searcher }, .Reject searcher.end_ end_)
  | .TwoWay searcher =>
    if searcher.end_ = 0 then some (self, .Done)
    else do
      let is_long := searcher.memory == t.usizeMax
      match ← searcher.next_back t RejectAndMatch self.haystack.bytes self.needle.bytes is_long with
      | (searcher, .Reject a b) => do
        let a ← boundaryTo self.haystack.bytes a
        let searcher := { searcher with end_ := min a searcher.end_ }
        some ({ self with searcher := .TwoWay searcher }, .Reject a b)
      | (searcher, otherwise) => some ({ self with searcher := .TwoWay searcher }, otherwise)

def next_match_back (self : StrSearcher t) : Option (StrSearcher t × Option (ℕ × ℕ)) :=
  match self.searcher with
  | .Empty _ => runLoop (matchTurn next_back) (2 * self.haystack.bytes.length + 2) self
  | .TwoWay searcher => do
    let is_long := searcher.memory == t.usizeMax
    let (searcher, r) ← (if is_long then
        searcher.next_back t MatchOnly self.haystack.bytes self.needle.bytes true
      else searcher.next_back t MatchOnly self.haystack.bytes self.needle.bytes false)
    some ({ self with searcher := .TwoWay searcher }, r)

/-- The calls from one end. -/
def from_ (t : Target) : Dir → Searcher (StrSearcher t)
  | .forward => ⟨.forward, next, next_match⟩
  | .backward => ⟨.backward, next_back, next_match_back⟩

end StrSearcher

end RustStd
