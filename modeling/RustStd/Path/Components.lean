import RustStd.Foundations.DoubleEnded
import RustStd.Foundations.Loop
import RustStd.Path.Prefix

/-!
# The components of a path

The double-ended iterator `Components`, after `std/src/path.rs`: a slice of the path that shrinks
from both ends, and how far each end has come. A slice out of range, a failed assertion and an
unreachable branch are faults, and the loops run for a number of turns that a result states to be
enough.
-/

namespace RustStd.Path

open DoubleEnded

inductive State
  | Prefix
  | StartDir
  | Body
  | Done
  deriving DecidableEq, Repr

/-- The order of the states. -/
def State.rank : State → ℕ
  | Prefix => 0
  | StartDir => 1
  | Body => 2
  | Done => 3

/-- `Component`, with both fields of `PrefixComponent`. -/
inductive Component
  | Prefix (raw : List UInt8) (parsed : RustStd.Path.Prefix)
  | RootDir
  | CurDir
  | ParentDir
  | Normal (x : List UInt8)
  deriving DecidableEq, Repr

/-- `Components`; the field `prefix` is `kind` here. -/
structure Components where
  path : List UInt8
  kind : Option RustStd.Path.Prefix
  has_physical_root : Bool
  front : State
  back : State
  deriving DecidableEq, Repr

def has_physical_root (P : Platform) (s : List UInt8) (kind : Option Prefix) : Option Bool := do
  let path ← (match kind with
    | some p => slice_from s p.len
    | none => some s)
  return (path.head?.map P.is_sep_byte).getD false

def components (P : Platform) (path : List UInt8) : Option Components := do
  let kind ← P.parse_prefix path
  let root ← has_physical_root P path kind
  return ⟨path, kind, root, if P.HAS_PREFIXES then .Prefix else .StartDir, .Body⟩

/-- `Iterator::rposition` -/
def rposition (p : UInt8 → Bool) (bytes : List UInt8) : Option ℕ :=
  (bytes.reverse.findIdx? p).map fun i => bytes.length - 1 - i

/-- `assert!` and `debug_assert!` -/
def check (c : Prop) [Decidable c] : Option Unit := if c then some () else none

namespace Components

variable (P : Platform) (self : Components)

def prefix_len : ℕ := if ! P.HAS_PREFIXES then 0 else (self.kind.map Prefix.len).getD 0

def prefix_verbatim : Bool :=
  if ! P.HAS_PREFIXES then false else (self.kind.map Prefix.is_verbatim).getD false

def prefix_remaining : ℕ :=
  if ! P.HAS_PREFIXES then 0 else if self.front = .Prefix then self.prefix_len P else 0

def is_sep_byte (b : UInt8) : Bool :=
  if self.prefix_verbatim P then P.is_verbatim_sep b else P.is_sep_byte b

def has_root : Bool :=
  self.has_physical_root || (P.HAS_PREFIXES && (self.kind.map Prefix.has_implicit_root).getD false)

def include_cur_dir : Option Bool :=
  if self.has_root P then some false
  else do
    match ← slice_from self.path (self.prefix_remaining P) with
    | [46] => return true
    | 46 :: b :: _ => return self.is_sep_byte P b
    | _ => return false

def len_before_body : Option ℕ := do
  let root := if self.front.rank ≤ State.rank .StartDir ∧ self.has_physical_root then 1 else 0
  let cur_dir ← (if self.front.rank ≤ State.rank .StartDir then self.include_cur_dir P
    else some false)
  return self.prefix_remaining P + root + if cur_dir then 1 else 0

def finished : Bool :=
  self.front = .Done || self.back = .Done || self.front.rank > self.back.rank

def parse_single_component (comp : List UInt8) : Option Component :=
  if comp = [46] then
    if P.HAS_PREFIXES && self.prefix_verbatim P then some .CurDir else none
  else if comp = [46, 46] then some .ParentDir
  else if comp = [] then none
  else some (.Normal comp)

def parse_next_component : Option (ℕ × Option Component) := do
  check (self.front = .Body)
  let (extra, comp) := match self.path.findIdx? (self.is_sep_byte P) with
    | none => (0, self.path)
    | some i => (1, self.path.take i)
  return (comp.length + extra, self.parse_single_component P comp)

def parse_next_component_back : Option (ℕ × Option Component) := do
  check (self.back = .Body)
  let start ← self.len_before_body P
  let body ← slice_from self.path start
  let (extra, comp) := match rposition (self.is_sep_byte P) body with
    | none => (0, body)
    | some i => (1, body.drop (i + 1))
  return (comp.length + extra, self.parse_single_component P comp)

/-- `&self.path[size..]` -/
def drop (size : ℕ) : Option Components := do
  return { self with path := ← slice_from self.path size }

/-- `&self.path[..self.path.len() - size]` -/
def drop_back (size : ℕ) : Option Components := do
  check (size ≤ self.path.length)
  return { self with path := ← slice_to self.path (self.path.length - size) }

/-- A turn of the loop of `trim_left`. -/
def trim_left_turn (self : Components) : Option (Turn Components Components) := do
  if self.path.isEmpty then return .done self
  let (size, comp) ← self.parse_next_component P
  if comp.isSome then return .done self
  return .again (← self.drop size)

def trim_left : Option Components := runLoop (trim_left_turn P) (self.path.length + 1) self

/-- A turn of the loop of `trim_right`. -/
def trim_right_turn (self : Components) : Option (Turn Components Components) := do
  if self.path.length > (← self.len_before_body P) then
    let (size, comp) ← self.parse_next_component_back P
    if comp.isSome then return .done self
    return .again (← self.drop_back size)
  else return .done self

def trim_right : Option Components := runLoop (trim_right_turn P) (self.path.length + 1) self

def as_path : Option (List UInt8) := do
  let comps ← (if self.front = .Body then self.trim_left P else some self)
  let comps ← (if comps.back = .Body then comps.trim_right P else some comps)
  return comps.path

/-- A turn of the loop of `next`. -/
def next_turn (self : Components) : Option (Turn Components (Option Component × Components)) := do
  if self.finished then return .done (none, self)
  match self.front with
  | .Body =>
    if ! self.path.isEmpty then
      let (size, comp) ← self.parse_next_component P
      let self ← self.drop size
      if comp.isSome then return .done (comp, self)
      return .again self
    else return .again { self with front := .Done }
  | .StartDir =>
    let self := { self with front := .Body }
    if self.has_physical_root then
      check (! self.path.isEmpty)
      return .done (some .RootDir, ← self.drop 1)
    else match (if P.HAS_PREFIXES then self.kind else none) with
    | some p =>
      if p.has_implicit_root && ! p.is_verbatim then return .done (some .RootDir, self)
      else return .again self
    | none =>
      if ← self.include_cur_dir P then
        check (! self.path.isEmpty)
        return .done (some .CurDir, ← self.drop 1)
      else return .again self
  | .Prefix =>
    check P.HAS_PREFIXES
    if self.prefix_len P = 0 then return .again { self with front := .StartDir }
    else
      check (self.prefix_len P ≤ self.path.length)
      let raw ← slice_to self.path (self.prefix_len P)
      let parsed ← self.kind
      return .done (some (.Prefix raw parsed), ← { self with front := .StartDir }.drop
        (self.prefix_len P))
  | .Done => none

def next : Option (Option Component × Components) :=
  runLoop (next_turn P) (self.path.length + 4) self

/-- A turn of the loop of `next_back`. -/
def next_back_turn (self : Components) :
    Option (Turn Components (Option Component × Components)) := do
  if self.finished then return .done (none, self)
  match self.back with
  | .Body =>
    if self.path.length > (← self.len_before_body P) then
      let (size, comp) ← self.parse_next_component_back P
      let self ← self.drop_back size
      if comp.isSome then return .done (comp, self)
      return .again self
    else return .again { self with back := .StartDir }
  | .StartDir =>
    let self := { self with back := if P.HAS_PREFIXES then .Prefix else .Done }
    if self.has_physical_root then return .done (some .RootDir, ← self.drop_back 1)
    else match (if P.HAS_PREFIXES then self.kind else none) with
    | some p =>
      if p.has_implicit_root && ! p.is_verbatim then return .done (some .RootDir, self)
      else return .again self
    | none =>
      if ← self.include_cur_dir P then return .done (some .CurDir, ← self.drop_back 1)
      else return .again self
  | .Prefix =>
    check P.HAS_PREFIXES
    let self := { self with back := .Done }
    if self.prefix_len P > 0 then
      return .done (some (.Prefix self.path (← self.kind)), self)
    else return .done (none, self)
  | .Done => none

def next_back : Option (Option Component × Components) :=
  runLoop (next_back_turn P) (self.path.length + 4) self

/-- A request at either end. -/
def step (e : End) (self : Components) : Option (Option Component × Components) :=
  match e with
  | .front => self.next P
  | .back => self.next_back P

end Components

end RustStd.Path
