import RustStd.Fmt.Formatter
import RustStd.Foundations.Output

/-!
# Debug builders

The builders behind `Formatter::debug_struct` and its siblings, after `core/src/fmt/builders.rs`,
and the values that are formatted with them. A builder remembers its first error and then calls its
sink no more. In the alternate mode what is inside it goes through a `PadAdapter`, which indents
lines however they are cut into calls. A failed assertion is a fault.
-/

namespace RustStd.Fmt

open Output

/-- Code that formats a value. -/
abbrev Formatted := Output Call Bool

/-- `Formatter::write_str` -/
def write_str (s : List UInt8) : Formatted := .call (.write_str s) .ret

/-- `if c { m?; }` -/
def when_ (c : Bool) (m : Formatted) : Formatted := if c then m else .ret true

/-! ## `PadAdapter` -/

namespace PadAdapter

/-- `str::split_inclusive('\n')` -/
def split_inclusive : List UInt8 → List (List UInt8)
  | [] => []
  | b :: s =>
    if b = 10 then [b] :: split_inclusive s
    else
      match split_inclusive s with
      | [] => [[b]]
      | line :: lines => (b :: line) :: lines

/-- `str::ends_with('\n')` -/
def ends_with_newline (s : List UInt8) : Bool := s.getLast? == some 10

/-- The loop of `write_str`, with the new `on_newline`. -/
def write_lines : List (List UInt8) → Bool → Output Call (Bool × Bool)
  | [], on_newline => .ret (true, on_newline)
  | s :: lines, on_newline =>
    (when_ on_newline (write_str (bytes "    "))).bind fun ok =>
      if ok then
        (write_str s).bind fun ok =>
          if ok then write_lines lines (ends_with_newline s) else .ret (false, ends_with_newline s)
      else .ret (false, on_newline)

/-- `write_str` and `write_char`, with the new `on_newline`. -/
def write : Call → Bool → Output Call (Bool × Bool)
  | .write_str s, on_newline => write_lines (split_inclusive s) on_newline
  | .write_char c, on_newline =>
    (when_ on_newline (write_str (bytes "    "))).bind fun ok =>
      if ok then .call (.write_char c) fun ok => .ret (ok, c == '\n')
      else .ret (false, on_newline)

/-- Code with the adapter for its sink, as it is called by `wrap`. -/
def wrap {α : Type} : Output Call α → Bool → Output Call (α × Bool)
  | .ret a, on_newline => .ret (a, on_newline)
  | .fault, _ => .fault
  | .call q k, on_newline => (write q on_newline).bind fun r => wrap (k r.1) r.2

/-- With an adapter of its own, in the state `PadAdapterState::default()`. -/
def padded (m : Formatted) : Formatted := (wrap m true).bind fun r => .ret r.1

end PadAdapter

open PadAdapter

/-! ## The builders -/

structure DebugStruct where
  alternate : Bool
  result : Bool
  has_fields : Bool

namespace DebugStruct

/-- `debug_struct_new` -/
def new (alternate : Bool) (name : List UInt8) : Output Call DebugStruct :=
  (write_str name).bind fun result => .ret ⟨alternate, result, false⟩

variable (self : DebugStruct)

def field_with (name : List UInt8) (value_fmt : Formatted) : Output Call DebugStruct :=
  (if self.result then
    if self.alternate then
      (when_ (! self.has_fields) (write_str (bytes " \x7b\n"))).attempt <|
      padded <| (write_str name).attempt <| (write_str (bytes ": ")).attempt <|
        value_fmt.attempt <| write_str (bytes ",\n")
    else
      (write_str (if self.has_fields then bytes ", " else bytes " \x7b ")).attempt <|
      (write_str name).attempt <| (write_str (bytes ": ")).attempt value_fmt
  else .ret false).bind fun result => .ret { self with result, has_fields := true }

def finish_non_exhaustive : Formatted :=
  if self.result then
    if self.has_fields then
      if self.alternate then
        (padded (write_str (bytes "..\n"))).attempt <| write_str (bytes "\x7d")
      else write_str (bytes ", .. \x7d")
    else write_str (bytes " \x7b .. \x7d")
  else .ret false

def finish : Formatted :=
  if self.has_fields then
    if self.result then
      if self.alternate then write_str (bytes "\x7d") else write_str (bytes " \x7d")
    else .ret false
  else .ret self.result

end DebugStruct

structure DebugTuple where
  alternate : Bool
  result : Bool
  fields : ℕ
  empty_name : Bool

namespace DebugTuple

/-- `debug_tuple_new` -/
def new (alternate : Bool) (name : List UInt8) : Output Call DebugTuple :=
  (write_str name).bind fun result => .ret ⟨alternate, result, 0, name.isEmpty⟩

variable (self : DebugTuple)

def field_with (value_fmt : Formatted) : Output Call DebugTuple :=
  (if self.result then
    if self.alternate then
      (when_ (self.fields = 0) (write_str (bytes "(\n"))).attempt <|
      padded <| value_fmt.attempt <| write_str (bytes ",\n")
    else
      (write_str (if self.fields = 0 then bytes "(" else bytes ", ")).attempt value_fmt
  else .ret false).bind fun result => .ret { self with result, fields := self.fields + 1 }

def finish_non_exhaustive : Formatted :=
  if self.result then
    if self.fields > 0 then
      if self.alternate then
        (padded (write_str (bytes "..\n"))).attempt <| write_str (bytes ")")
      else write_str (bytes ", ..)")
    else write_str (bytes "(..)")
  else .ret false

def finish : Formatted :=
  if self.fields > 0 then
    if self.result then
      (when_ (self.fields = 1 && self.empty_name && ! self.alternate)
        (write_str (bytes ","))).attempt <| write_str (bytes ")")
    else .ret false
  else .ret self.result

end DebugTuple

structure DebugInner where
  alternate : Bool
  result : Bool
  has_fields : Bool

namespace DebugInner

/-- `debug_list_new` and `debug_set_new`, with the bracket that opens. -/
def new (alternate : Bool) (bracket : List UInt8) : Output Call DebugInner :=
  (write_str bracket).bind fun result => .ret ⟨alternate, result, false⟩

variable (self : DebugInner)

def entry_with (entry_fmt : Formatted) : Output Call DebugInner :=
  (if self.result then
    if self.alternate then
      (when_ (! self.has_fields) (write_str (bytes "\n"))).attempt <|
      padded <| entry_fmt.attempt <| write_str (bytes ",\n")
    else (when_ self.has_fields (write_str (bytes ", "))).attempt entry_fmt
  else .ret false).bind fun result => .ret { self with result, has_fields := true }

/-- `finish_non_exhaustive` of a list or a set, with the bracket that closes. -/
def finish_non_exhaustive (bracket : List UInt8) : Formatted :=
  if self.result then
    if self.has_fields then
      if self.alternate then
        (padded (write_str (bytes "..\n"))).attempt <| write_str bracket
      else write_str (bytes ", .." ++ bracket)
    else write_str (bytes ".." ++ bracket)
  else .ret false

/-- `finish` of a list or a set -/
def finish (bracket : List UInt8) : Formatted :=
  if self.result then write_str bracket else .ret false

end DebugInner

/-- `DebugMap`, with the `on_newline` of its state. -/
structure DebugMap where
  alternate : Bool
  result : Bool
  has_fields : Bool
  has_key : Bool
  on_newline : Bool

namespace DebugMap

/-- `debug_map_new` -/
def new (alternate : Bool) : Output Call DebugMap :=
  (write_str (bytes "\x7b")).bind fun result => .ret ⟨alternate, result, false, false, true⟩

variable (self : DebugMap)

def key_with (key_fmt : Formatted) : Output Call DebugMap :=
  if self.result then
    if self.has_key then .fault
    else if self.alternate then
      (when_ (! self.has_fields) (write_str (bytes "\n"))).bind fun ok =>
        if ok then
          (wrap (key_fmt.attempt <| write_str (bytes ": ")) true).bind fun r =>
            .ret { self with result := r.1, has_key := r.1, on_newline := r.2 }
        else .ret { self with result := false }
    else
      ((when_ self.has_fields (write_str (bytes ", "))).attempt <| key_fmt.attempt <|
        write_str (bytes ": ")).bind fun result => .ret { self with result, has_key := result }
  else .ret self

def value_with (value_fmt : Formatted) : Output Call DebugMap :=
  if self.result then
    if ! self.has_key then .fault
    else if self.alternate then
      (wrap (value_fmt.attempt <| write_str (bytes ",\n")) self.on_newline).bind fun r =>
        .ret { self with result := r.1, has_fields := true, has_key := ! r.1, on_newline := r.2 }
    else value_fmt.bind fun result =>
      .ret { self with result, has_fields := true, has_key := ! result }
  else .ret { self with has_fields := true }

def entry (key_fmt value_fmt : Formatted) : Output Call DebugMap :=
  (self.key_with key_fmt).bind fun self => self.value_with value_fmt

def finish_non_exhaustive : Formatted :=
  if self.result then
    if self.has_key then .fault
    else if self.has_fields then
      if self.alternate then
        (padded (write_str (bytes "..\n"))).attempt <| write_str (bytes "\x7d")
      else write_str (bytes ", ..\x7d")
    else write_str (bytes "..\x7d")
  else .ret false

def finish : Formatted :=
  if self.result then
    if self.has_key then .fault else write_str (bytes "\x7d")
  else .ret false

end DebugMap

/-! ## The values -/

mutual

/-- **A value** and how its `Debug` formats it; a leaf does it with calls of its own, by the mode.
The flag of a node tells whether it ends in `finish`. -/
inductive Value
  | leaf (calls : Bool → List Call)
  | debug_struct (name : List UInt8) (fields : Fields) (exhaustive : Bool)
  | debug_tuple (name : List UInt8) (fields : Values) (exhaustive : Bool)
  | debug_list (entries : Values) (exhaustive : Bool)
  | debug_set (entries : Values) (exhaustive : Bool)
  | debug_map (entries : Entries) (exhaustive : Bool)

inductive Fields
  | nil
  | cons (name : List UInt8) (value : Value) (fields : Fields)

inductive Values
  | nil
  | cons (value : Value) (values : Values)

inductive Entries
  | nil
  | cons (key value : Value) (entries : Entries)

end

/-- Calls up to the first that fails. -/
def write_all : List Call → Formatted
  | [] => .ret true
  | q :: qs => (Output.call q .ret).attempt (write_all qs)

mutual

/-- `Debug::fmt`, in the alternate mode or not. -/
def Value.fmt (alternate : Bool) : Value → Formatted
  | .leaf calls => write_all (calls alternate)
  | .debug_struct name fields exhaustive =>
    ((DebugStruct.new alternate name).bind (fields.fmt alternate)).bind fun self =>
      if exhaustive then self.finish else self.finish_non_exhaustive
  | .debug_tuple name fields exhaustive =>
    ((DebugTuple.new alternate name).bind (fields.fmt_tuple alternate)).bind fun self =>
      if exhaustive then self.finish else self.finish_non_exhaustive
  | .debug_list entries exhaustive =>
    ((DebugInner.new alternate (bytes "[")).bind (entries.fmt alternate)).bind fun self =>
      if exhaustive then self.finish (bytes "]") else self.finish_non_exhaustive (bytes "]")
  | .debug_set entries exhaustive =>
    ((DebugInner.new alternate (bytes "\x7b")).bind (entries.fmt alternate)).bind fun self =>
      if exhaustive then self.finish (bytes "\x7d") else self.finish_non_exhaustive (bytes "\x7d")
  | .debug_map entries exhaustive =>
    ((DebugMap.new alternate).bind (entries.fmt alternate)).bind fun self =>
      if exhaustive then self.finish else self.finish_non_exhaustive

/-- One `field` after the other. -/
def Fields.fmt (alternate : Bool) : Fields → DebugStruct → Output Call DebugStruct
  | .nil, self => .ret self
  | .cons name value fields, self =>
    (self.field_with name (value.fmt alternate)).bind (fields.fmt alternate)

def Values.fmt_tuple (alternate : Bool) : Values → DebugTuple → Output Call DebugTuple
  | .nil, self => .ret self
  | .cons value values, self =>
    (self.field_with (value.fmt alternate)).bind (values.fmt_tuple alternate)

/-- `entries` -/
def Values.fmt (alternate : Bool) : Values → DebugInner → Output Call DebugInner
  | .nil, self => .ret self
  | .cons value values, self =>
    (self.entry_with (value.fmt alternate)).bind (values.fmt alternate)

def Entries.fmt (alternate : Bool) : Entries → DebugMap → Output Call DebugMap
  | .nil, self => .ret self
  | .cons key value entries, self =>
    (self.entry (key.fmt alternate) (value.fmt alternate)).bind (entries.fmt alternate)

end

end RustStd.Fmt
