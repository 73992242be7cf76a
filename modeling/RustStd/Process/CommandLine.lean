import RustStd.Str.Wtf8Buf

/-!
# Windows command lines

A child process on Windows is given one string, which it splits itself. `make_command_line` of
`std/src/sys/process/windows.rs` builds the string from a list of arguments, `parse_lp_cmd_line` of
`std/src/sys/args/windows.rs` splits it. Arguments are WTF-8, the string is a list of UTF-16 units,
and a unit that ends an iterator over memory is the terminating NUL.
-/

namespace RustStd.Process

open Wtf8 List

/-- The kinds of an `io::Error` that occur here. -/
inductive ErrorKind
  | InvalidInput
  deriving DecidableEq, Repr

/-- An `io::Error`, by `const_error!`. -/
structure CommandError where
  kind : ErrorKind
  message : String
  deriving DecidableEq, Repr

/-- The error of a string with a NUL inside. -/
def NUL_ERROR : CommandError := ⟨.InvalidInput, "nul byte found in provided data"⟩

/-- A computation with `io::Result`, over faults. -/
abbrev CommandResult := ExceptT CommandError Option

def BACKSLASH : UInt16 := 92

def QUOTE : UInt16 := 34

def TAB : UInt16 := 9

def SPACE : UInt16 := 32

/-! ## Building -/

inductive Arg
  | Regular (arg : Wtf8)
  | Raw (arg : Wtf8)

inductive Quote
  | Always
  | Auto
  | Never

/-- Whether an argument is put in quotes, and whether the quotes in it are escaped. -/
def Quote.flags (self : Quote) (arg_bytes : List UInt8) : Bool × Bool :=
  match self with
  | Always => (true, true)
  | Auto => (arg_bytes.any (fun c => c == 32 || c == 9) || arg_bytes.isEmpty, true)
  | Never => (false, false)

/-- `encode_wide`, collected. -/
def units_of (arg : Wtf8) : CommandResult (List UInt16) := ExceptT.lift (encode_wide arg.bytes)

def ensure_no_nuls (arg : Wtf8) : CommandResult Unit := do
  if (← units_of arg).any (· == 0) then throw NUL_ERROR

/-- The loop of `append_arg`: `cmd` and the backslashes that `cmd` ends with. -/
def append_units (escape : Bool) : List UInt16 → List UInt16 × ℕ → List UInt16 × ℕ
  | [], s => s
  | x :: xs, (cmd, backslashes) =>
    if escape then
      if x = BACKSLASH then append_units escape xs (cmd ++ [x], backslashes + 1)
      else if x = QUOTE then
        -- `n + 1` more backslashes make `2 n + 1` before the quote.
        append_units escape xs (cmd ++ replicate (backslashes + 1) BACKSLASH ++ [x], 0)
      else append_units escape xs (cmd ++ [x], 0)
    else append_units escape xs (cmd ++ [x], backslashes)

def append_arg (cmd : List UInt16) (arg : Arg) (force_quotes : Bool) :
    CommandResult (List UInt16) := do
  let (arg, quote) := match arg with
    | .Regular arg => (arg, if force_quotes then Quote.Always else Quote.Auto)
    | .Raw arg => (arg, Quote.Never)
  ensure_no_nuls arg
  let (quote, escape) := quote.flags arg.bytes
  let cmd := if quote then cmd ++ [QUOTE] else cmd
  let (cmd, backslashes) := append_units escape (← units_of arg) (cmd, 0)
  return if quote then cmd ++ replicate backslashes BACKSLASH ++ [QUOTE] else cmd

/-- The loop of `make_command_line`. -/
def append_args (force_quotes : Bool) : List Arg → List UInt16 → CommandResult (List UInt16)
  | [], cmd => return cmd
  | arg :: args, cmd => do
    let cmd ← append_arg (cmd ++ [SPACE]) arg force_quotes
    append_args force_quotes args cmd

def make_command_line (argv0 : Wtf8) (args : List Arg) (force_quotes : Bool) :
    CommandResult (List UInt16) := do
  let cmd := [QUOTE] ++ (← units_of argv0) ++ [QUOTE]
  append_args force_quotes args cmd

/-! ## Splitting -/

/-- `WStrUnits`: what an iterator over a string in memory still yields. The memory holds the string
with its NUL, and the iterator never moves past that. -/
structure WStrUnits where
  units : List UInt16

namespace WStrUnits

/-- `WStrUnits::new`, for the memory from the pointer on. -/
def new (lpwstr : List UInt16) : WStrUnits := ⟨lpwstr.takeWhile (· != 0)⟩

def peek (self : WStrUnits) : Option UInt16 := self.units.head?

def advance_while (p : UInt16 → Bool) (self : WStrUnits) : ℕ × WStrUnits :=
  ((self.units.takeWhile p).length, ⟨self.units.dropWhile p⟩)

/-- `next`, for the iterator that is moved. -/
def skip (self : WStrUnits) : WStrUnits := ⟨self.units.tail⟩

end WStrUnits

/-- The predicate that skips blanks. -/
def is_blank (w : UInt16) : Bool := w == SPACE || w == TAB

/-- The loop over the name of the executable. -/
def parse_exe (in_quotes : Bool) (cur : List UInt16) : List UInt16 → List UInt16 × WStrUnits
  | [] => (cur, ⟨[]⟩)
  | w :: code_units =>
    if w = QUOTE then parse_exe (! in_quotes) cur code_units
    else if is_blank w && ! in_quotes then (cur, ⟨code_units⟩)
    else parse_exe in_quotes (cur ++ [w]) code_units

/-- The last argument, if there is one. -/
def push_last (ret_val : List Wtf8Buf) (cur : List UInt16) (in_quotes : Bool) :
    Option (List Wtf8Buf) := do
  if ! cur.isEmpty || in_quotes then return ret_val ++ [← Wtf8Buf.from_wide cur]
  return ret_val

/-- The loop over the arguments. -/
def parse_args (ret_val : List Wtf8Buf) (cur : List UInt16) (in_quotes : Bool) :
    List UInt16 → Option (List Wtf8Buf)
  | [] => push_last ret_val cur in_quotes
  | w :: code_units =>
    if is_blank w && ! in_quotes then do
      let ret_val := ret_val ++ [← Wtf8Buf.from_wide cur]
      parse_args ret_val [] in_quotes ((⟨code_units⟩ : WStrUnits).advance_while is_blank).2.units
    else if w = BACKSLASH then
      let skipped := (⟨code_units⟩ : WStrUnits).advance_while (· == BACKSLASH)
      let backslash_count := skipped.1 + 1
      if skipped.2.peek = some QUOTE then
        let cur := cur ++ replicate (backslash_count / 2) BACKSLASH
        if backslash_count % 2 = 1 then
          parse_args ret_val (cur ++ [QUOTE]) in_quotes skipped.2.skip.units
        else parse_args ret_val cur in_quotes skipped.2.units
      else
        parse_args ret_val (cur ++ replicate backslash_count BACKSLASH) in_quotes
          skipped.2.units
    else if w = QUOTE then
      if in_quotes then
        match (⟨code_units⟩ : WStrUnits).peek with
        | some c =>
          if c = QUOTE then parse_args ret_val (cur ++ [QUOTE]) in_quotes code_units.tail
          else parse_args ret_val cur false code_units
        | none => push_last ret_val cur in_quotes
      else parse_args ret_val cur true code_units
    else parse_args ret_val (cur ++ [w]) in_quotes code_units
  termination_by code_units => code_units.length
  decreasing_by
    all_goals
      simp [WStrUnits.advance_while, WStrUnits.skip]
    all_goals
      have := (dropWhile_suffix is_blank (l := code_units)).length_le
      have := (dropWhile_suffix (· == BACKSLASH) (l := code_units)).length_le
      omega

def parse_lp_cmd_line (lp_cmd_line : Option WStrUnits) (exe_name : Wtf8Buf) :
    Option (List Wtf8Buf) := do
  match lp_cmd_line with
  | none => return [exe_name]
  | some code_units =>
    if code_units.peek.isNone then return [exe_name]
    let (cur, code_units) := parse_exe false [] code_units.units
    let code_units := (code_units.advance_while is_blank).2
    parse_args [← Wtf8Buf.from_wide cur] [] false code_units.units

end RustStd.Process
