import RustStd.Foundations.Loop
import RustStd.Foundations.Word

/-!
# The Two-Way searcher

`TwoWaySearcher` of `core/src/str/pattern.rs`. A computation that reads past the end of a slice, or
whose additions or subtractions wrap around, ends with `none`; so does a loop that runs out of
turns.
-/

namespace RustStd

/-- `s[a..b]` -/
def slice (s : List UInt8) (a b : ℕ) : Option (List UInt8) :=
  if a ≤ b ∧ b ≤ s.length then some ((s.take b).drop a) else none

structure TwoWaySearcher where
  crit_pos : ℕ
  crit_pos_back : ℕ
  period : ℕ
  byteset : ℕ
  position : ℕ
  end_ : ℕ
  memory : ℕ
  memory_back : ℕ
  deriving DecidableEq

namespace TwoWaySearcher

variable (t : Target)

/-! ## Maximal suffixes -/

/-- The variables of the loops of `maximal_suffix` and `reverse_maximal_suffix`. -/
structure Scan where
  left : ℕ
  right : ℕ
  offset : ℕ
  period : ℕ

/-- One comparison of the loops, of the entries `a` after `right` and `b` after `left`. -/
def Scan.compare (order_greater : Bool) (s : Scan) (a b : UInt8) : Option Scan := do
  let offset' ← t.checkedAdd s.offset 1
  if (a < b ∧ order_greater = false) ∨ (a > b ∧ order_greater = true) then do
    let right ← t.checkedAdd s.right offset'
    let period ← checkedSub right s.left
    some ⟨s.left, right, 0, period⟩
  else if a = b then
    if offset' = s.period then do
      let right ← t.checkedAdd s.right offset'
      some ⟨s.left, right, 0, s.period⟩
    else some ⟨s.left, s.right, offset', s.period⟩
  else do
    let right ← t.checkedAdd s.right 1
    some ⟨s.right, right, 0, 1⟩

def maximal_suffix_turn (arr : List UInt8) (order_greater : Bool) (s : Scan) :
    Option (Turn Scan (ℕ × ℕ)) := do
  match arr[← t.checkedAdd s.right s.offset]? with
  | none => some (.done (s.left, s.period))
  | some a =>
    let b ← arr[← t.checkedAdd s.left s.offset]?
    let s ← s.compare t order_greater a b
    some (.again s)

def maximal_suffix (arr : List UInt8) (order_greater : Bool) : Option (ℕ × ℕ) :=
  runLoop (maximal_suffix_turn t arr order_greater) (2 * arr.length + 1) ⟨0, 1, 0, 1⟩

def reverse_maximal_suffix_turn (arr : List UInt8) (known_period : ℕ) (order_greater : Bool)
    (s : Scan) : Option (Turn Scan ℕ) := do
  let n := arr.length
  if (← t.checkedAdd s.right s.offset) < n then do
    let a ← arr[← checkedSub n (← t.checkedAdd (← t.checkedAdd 1 s.right) s.offset)]?
    let b ← arr[← checkedSub n (← t.checkedAdd (← t.checkedAdd 1 s.left) s.offset)]?
    let s ← s.compare t order_greater a b
    if s.period = known_period then some (.done s.left) else some (.again s)
  else some (.done s.left)

def reverse_maximal_suffix (arr : List UInt8) (known_period : ℕ) (order_greater : Bool) :
    Option ℕ :=
  runLoop (reverse_maximal_suffix_turn t arr known_period order_greater) (2 * arr.length + 1)
    ⟨0, 1, 0, 1⟩

/-! ## The searcher -/

/-- A set of bytes, by their low six bits, in a word. -/
def byteset_create (bytes : List UInt8) : ℕ :=
  bytes.foldl (fun a b => (1 <<< (b.toNat &&& 0x3f)) ||| a) 0

def byteset_contains (self : TwoWaySearcher) (byte : UInt8) : Bool :=
  (self.byteset >>> (byte.toNat &&& 0x3f)) &&& 1 != 0

def new (needle : List UInt8) (end_ : ℕ) : Option TwoWaySearcher := do
  let (crit_pos_false, period_false) ← maximal_suffix t needle false
  let (crit_pos_true, period_true) ← maximal_suffix t needle true
  let (crit_pos, period) :=
    if crit_pos_false > crit_pos_true then (crit_pos_false, period_false)
    else (crit_pos_true, period_true)
  if (← slice needle 0 crit_pos) = (← slice needle period (← t.checkedAdd period crit_pos)) then do
    let crit_pos_back ← checkedSub needle.length
      (max (← reverse_maximal_suffix t needle period false)
        (← reverse_maximal_suffix t needle period true))
    let byteset := byteset_create (← slice needle 0 period)
    some ⟨crit_pos, crit_pos_back, period, byteset, 0, end_, 0, needle.length⟩
  else do
    let period ← t.checkedAdd (max crit_pos (← checkedSub needle.length crit_pos)) 1
    some ⟨crit_pos, crit_pos, period, byteset_create needle, 0, end_, t.usizeMax, t.usizeMax⟩

/-- What a search returns, and whether it returns as soon as it rejects. -/
structure TwoWayStrategy (β : Type) where
  use_early_reject : Bool
  rejecting : ℕ → ℕ → β
  matching : ℕ → ℕ → β

/-- The first index of the list where the needle differs from the haystack, which is read at the
index `at_`. -/
def mismatch (needle haystack : List UInt8) (at_ : ℕ → Option ℕ) : List ℕ → Option (Option ℕ)
  | [] => some none
  | i :: is => do
    let a ← needle[i]?
    let b ← haystack[← at_ i]?
    if a ≠ b then some (some i) else mismatch needle haystack at_ is

variable {β : Type} (S : TwoWayStrategy β) (haystack needle : List UInt8) (long_period : Bool)

def next_turn (old_pos needle_last : ℕ) (self : TwoWaySearcher) :
    Option (Turn TwoWaySearcher (TwoWaySearcher × β)) := do
  match haystack[← t.checkedAdd self.position needle_last]? with
  | none =>
    let self := { self with position := haystack.length }
    some (.done (self, S.rejecting old_pos self.position))
  | some tail_byte =>
    if S.use_early_reject = true ∧ old_pos ≠ self.position then
      some (.done (self, S.rejecting old_pos self.position))
    else if self.byteset_contains tail_byte = false then do
      let position ← t.checkedAdd self.position needle.length
      some (.again { self with position, memory := if long_period then self.memory else 0 })
    else do
      let start := if long_period then self.crit_pos else max self.crit_pos self.memory
      match ← mismatch needle haystack (t.checkedAdd self.position)
          (List.range' start (needle.length - start)) with
      | some i => do
        let position ← t.checkedAdd self.position
          (← t.checkedAdd (← checkedSub i self.crit_pos) 1)
        some (.again { self with position, memory := if long_period then self.memory else 0 })
      | none => do
        let start := if long_period then 0 else self.memory
        match ← mismatch needle haystack (t.checkedAdd self.position)
            (List.range' start (self.crit_pos - start)).reverse with
        | some _ => do
          let position ← t.checkedAdd self.position self.period
          let memory ← (if long_period then some self.memory
            else checkedSub needle.length self.period)
          some (.again { self with position, memory })
        | none => do
          let match_pos := self.position
          let position ← t.checkedAdd self.position needle.length
          let self := { self with position, memory := if long_period then self.memory else 0 }
          some (.done (self, S.matching match_pos (← t.checkedAdd match_pos needle.length)))

def next (self : TwoWaySearcher) : Option (TwoWaySearcher × β) := do
  let old_pos := self.position
  let needle_last ← checkedSub needle.length 1
  runLoop (next_turn t S haystack needle long_period old_pos needle_last) (haystack.length + 1) self

def next_back_turn (old_end : ℕ) (self : TwoWaySearcher) :
    Option (Turn TwoWaySearcher (TwoWaySearcher × β)) := do
  match haystack[t.wrappingSub self.end_ needle.length]? with
  | none => some (.done ({ self with end_ := 0 }, S.rejecting 0 old_end))
  | some front_byte =>
    if S.use_early_reject = true ∧ old_end ≠ self.end_ then
      some (.done (self, S.rejecting self.end_ old_end))
    else if self.byteset_contains front_byte = false then do
      let end_ ← checkedSub self.end_ needle.length
      some (.again { self with
        end_, memory_back := if long_period then self.memory_back else needle.length })
    else do
      let at_ := fun i => do t.checkedAdd (← checkedSub self.end_ needle.length) i
      let crit := if long_period then self.crit_pos_back
        else min self.crit_pos_back self.memory_back
      match ← mismatch needle haystack at_ (List.range' 0 crit).reverse with
      | some i => do
        let end_ ← checkedSub self.end_ (← checkedSub self.crit_pos_back i)
        some (.again { self with
          end_, memory_back := if long_period then self.memory_back else needle.length })
      | none => do
        let needle_end := if long_period then needle.length else self.memory_back
        match ← mismatch needle haystack at_
            (List.range' self.crit_pos_back (needle_end - self.crit_pos_back)) with
        | some _ => do
          let end_ ← checkedSub self.end_ self.period
          some (.again { self with
            end_, memory_back := if long_period then self.memory_back else self.period })
        | none => do
          let match_pos ← checkedSub self.end_ needle.length
          let end_ ← checkedSub self.end_ needle.length
          let self := { self with
            end_, memory_back := if long_period then self.memory_back else needle.length }
          some (.done (self, S.matching match_pos (← t.checkedAdd match_pos needle.length)))

def next_back (self : TwoWaySearcher) : Option (TwoWaySearcher × β) :=
  let old_end := self.end_
  runLoop (next_back_turn t S haystack needle long_period old_end) (haystack.length + 1) self

end TwoWaySearcher

end RustStd
