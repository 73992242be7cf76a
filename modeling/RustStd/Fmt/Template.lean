import RustStd.Fmt.Formatter
import RustStd.Foundations.Loop
import RustStd.Foundations.Output

/-!
# Format templates

The byte code of `fmt::Arguments` and its two readers, `fmt::write` and
`Arguments::estimated_capacity`, after `core/src/fmt/mod.rs`. A pointer into the template is the
bytes from there on; a read past the end, an argument that does not exist and one of the other kind
are faults. A template that is encoded as documented is read up to its final byte, with what its
pieces say, and `estimated_capacity` visits the same places (`write_template`).
-/

namespace RustStd.Fmt

open List Option Nat UInt8

namespace Template

/-- `FormattingOptions`, packed as in the source. -/
structure FormattingOptions where
  flags : UInt32
  width : UInt16
  precision : UInt16
  deriving DecidableEq, Repr

/-- `FormattingOptions::new`: a blank to fill and `ALIGN_UNKNOWN`. -/
def FormattingOptions.new : FormattingOptions := ⟨(32 : UInt32) ||| ((3 : UInt32) <<< 29), 0, 0⟩

/-- `rt::Argument`, with the code that a placeholder runs. -/
inductive Argument
  | Placeholder (formatter : FormattingOptions → Output Call Bool)
  | Count (count : UInt16)

/-- `fmt::Arguments`, in its two representations. -/
inductive Arguments
  | str (s : List UInt8)
  | template (template : List UInt8) (args : List Argument)

/-! ## Reading -/

section Reads

/-- `template.read()` and `template.add(1)` -/
def read : List UInt8 → Option (UInt8 × List UInt8)
  | [] => none
  | n :: template => some (n, template)

/-- `str::from_raw_parts` and `template.add(len)` -/
def from_raw_parts (template : List UInt8) (len : ℕ) : Option (List UInt8 × List UInt8) :=
  if len ≤ template.length then some (template.take len, template.drop len) else none

/-- `u16::from_le_bytes` of the next two bytes -/
def read_u16 : List UInt8 → Option (UInt16 × List UInt8)
  | a :: b :: template => some (.ofNat (a.toNat + 256 * b.toNat), template)
  | _ => none

/-- `u32::from_le_bytes` of the next four bytes -/
def read_u32 : List UInt8 → Option (UInt32 × List UInt8)
  | a :: b :: c :: d :: template =>
    some (.ofNat (a.toNat + 256 * (b.toNat + 256 * (c.toNat + 256 * d.toNat))), template)
  | _ => none

/-- A field that is read where its bit is set. -/
def field {α : Type} (present : Bool) (read : List UInt8 → Option (α × List UInt8)) (default : α)
    (template : List UInt8) : Option (α × List UInt8) :=
  if present then read template else some (default, template)

/-- What a piece of the template says. -/
inductive Instr
  | literal (s : List UInt8)
  | placeholder (opt : FormattingOptions) (indirect_width indirect_precision : Bool)
      (arg_index : ℕ)
  deriving DecidableEq, Repr

/-- What the loop of `write` reads; nothing at the end of the template. -/
def read_piece (template : List UInt8) (arg_index : ℕ) : Option (Option Instr × List UInt8) := do
  let (n, template) ← read template
  if n = 0 then return (none, template)
  else if n < 0x80 then
    let (s, template) ← from_raw_parts template n.toNat
    return (some (.literal s), template)
  else if n = 0x80 then
    let (len, template) ← read_u16 template
    let (s, template) ← from_raw_parts template len.toNat
    return (some (.literal s), template)
  else if n = 0xC0 then return (some (.placeholder .new false false arg_index), template)
  else if n > 0xC0 then
    let opt := FormattingOptions.new
    let (flags, template) ← field (n &&& 1 != 0) read_u32 opt.flags template
    let (width, template) ← field (n &&& 2 != 0) read_u16 opt.width template
    let (precision, template) ← field (n &&& 4 != 0) read_u16 opt.precision template
    let (arg_index, template) ←
      field (n &&& 8 != 0) (fun t => (read_u16 t).map fun r => (r.1.toNat, r.2)) arg_index template
    return (some (.placeholder ⟨flags, width, precision⟩ (n &&& 16 != 0) (n &&& 32 != 0)
      arg_index), template)
  else none

end Reads

/-! ## Writing -/

section Writes

variable (args : List Argument)

/-- `args.add(index).as_ref().as_u16().unwrap_unchecked()` -/
def count (index : ℕ) : Option UInt16 :=
  match args[index]? with
  | some (.Count count) => some count
  | _ => none

/-- `args.add(arg_index).as_ref().fmt(&mut Formatter::new(output, opt))` -/
def format (opt : FormattingOptions) (arg_index : ℕ) : Output Call Bool :=
  match args[arg_index]? with
  | some (.Placeholder formatter) => formatter opt
  | _ => .fault

/-- A placeholder with the indices of its dynamic width and precision. -/
def format_placeholder (opt : FormattingOptions) (indirect_width indirect_precision : Bool)
    (arg_index : ℕ) : Output Call Bool := do
  let width ← .lift (if indirect_width then count args opt.width.toNat else some opt.width)
  let precision ←
    .lift (if indirect_precision then count args opt.precision.toNat else some opt.precision)
  format args ⟨opt.flags, width, precision⟩ arg_index

/-- The loop of `write`, with what it has not read at the end. -/
def write_loop : ℕ → List UInt8 → ℕ → Output Call (Bool × List UInt8)
  | 0, _, _ => .fault
  | turns + 1, template, arg_index =>
    match read_piece template arg_index with
    | none => .fault
    | some (none, template) => .ret (true, template)
    | some (some (.literal s), template) =>
      .call (.write_str s) fun ok =>
        if ok then write_loop turns template arg_index else .ret (false, template)
    | some (some (.placeholder opt indirect_width indirect_precision arg_index), template) =>
      (format_placeholder args opt indirect_width indirect_precision arg_index).bind fun ok =>
        if ok then write_loop turns template (arg_index + 1) else .ret (false, template)

end Writes

/-- `fmt::write`, with what it has not read of the template. -/
def write : Arguments → Output Call (Bool × List UInt8)
  | .str s => .call (.write_str s) fun ok => .ret (ok, [])
  | .template template args => write_loop args (template.length + 1) template 0

/-! ## Estimating -/

/-- The variables of `estimated_capacity`. -/
structure Estimate where
  length : ℕ
  starts_with_placeholder : Bool
  template : List UInt8
  deriving DecidableEq, Repr

/-- `template.add(n)`, which does not leave the template. -/
def skip (template : List UInt8) (n : ℕ) : Option (List UInt8) :=
  if n ≤ template.length then some (template.drop n) else none

/-- The loop of `estimated_capacity`. -/
def estimate_turn (s : Estimate) : Option (Turn Estimate Estimate) := do
  let (n, template) ← read s.template
  if n = 0 then return .done { s with template }
  else if n < 128 then
    return .again { s with length := s.length + n.toNat, template := ← skip template n.toNat }
  else if n = 128 then
    let (len, _) ← read_u16 template
    return .again { s with
      length := s.length + len.toNat, template := ← skip template (2 + len.toNat) }
  else if n ≥ 0xC0 then
    let size := (n &&& 1 != 0).toNat * 4 + (n &&& 2 != 0).toNat * 2 + (n &&& 4 != 0).toNat * 2 +
      (n &&& 8 != 0).toNat * 2
    return .again { s with
      starts_with_placeholder := s.starts_with_placeholder || s.length = 0
      template := ← skip template size }
  else none

/-- `Arguments::estimated_capacity`, with a `usize` of `w` bits -/
def estimated_capacity (w : ℕ) : Arguments → Option ℕ
  | .str s => some s.length
  | .template template _ => do
    let s ← runLoop estimate_turn (template.length + 1) ⟨0, false, template⟩
    return if s.starts_with_placeholder ∧ s.length < 16 then 0 else s.length * 2 % 2 ^ w

example : estimated_capacity 64 (.template [6, 104, 101, 108, 108, 111, 32, 0xC0, 0] []) =
    some 12 := by decide

/-! ## The encoding -/

/-- A width or a precision: a value, or the index of an argument. -/
inductive Amount
  | direct (value : UInt16)
  | indirect (index : UInt16)
  deriving DecidableEq, Repr

structure Placeholder where
  flags : Option UInt32
  width : Option Amount
  precision : Option Amount
  arg_index : Option UInt16
  deriving DecidableEq, Repr

/-- A piece of a template. -/
inductive Piece
  | literal (s : List UInt8)
  | placeholder (p : Placeholder)
  deriving DecidableEq, Repr

def le16 (x : UInt16) : List UInt8 := [.ofNat x.toNat, .ofNat (x.toNat / 256)]

def le32 (x : UInt32) : List UInt8 :=
  [.ofNat x.toNat, .ofNat (x.toNat / 256), .ofNat (x.toNat / 256 / 256),
    .ofNat (x.toNat / 256 / 256 / 256)]

namespace Amount

/-- The field of an amount. -/
def raw : Amount → UInt16
  | direct value => value
  | indirect index => index

def is_indirect : Amount → Bool
  | direct _ => false
  | indirect _ => true

/-- The amount that is meant; zero when there is none. -/
def Is (args : List Argument) : Option Amount → UInt16 → Prop
  | none, x => x = 0
  | some (direct value), x => x = value
  | some (indirect index), x => args[index.toNat]? = some (.Count x)

end Amount

namespace Placeholder

variable (p : Placeholder)

/-- The first byte: two bits that are set, and which fields follow. -/
def first : UInt8 :=
  0xC0 ||| (if p.flags.isSome then 1 else 0) ||| (if p.width.isSome then 2 else 0) |||
    (if p.precision.isSome then 4 else 0) ||| (if p.arg_index.isSome then 8 else 0) |||
    (if (p.width.map Amount.is_indirect).getD false then 16 else 0) |||
    (if (p.precision.map Amount.is_indirect).getD false then 32 else 0)

def encode : List UInt8 :=
  p.first :: ((p.flags.map le32).getD [] ++ (p.width.map fun a => le16 a.raw).getD [] ++
    (p.precision.map fun a => le16 a.raw).getD [] ++ (p.arg_index.map le16).getD [])

/-- The fields as they are read. -/
def opt : FormattingOptions :=
  ⟨p.flags.getD FormattingOptions.new.flags, (p.width.map Amount.raw).getD 0,
    (p.precision.map Amount.raw).getD 0⟩

/-- The argument, when `next` is the one that comes next. -/
def index (next : ℕ) : ℕ := (p.arg_index.map UInt16.toNat).getD next

end Placeholder

/-- **The documented encoding** of a piece. A length of zero cannot be a byte: that ends a
template. -/
inductive Encodes : Piece → List UInt8 → Prop
  | short {s : List UInt8} (pos : 0 < s.length) (le : s.length ≤ 127) :
    Encodes (.literal s) (.ofNat s.length :: s)
  | long {s : List UInt8} (le : s.length ≤ 65535) :
    Encodes (.literal s) (0x80 :: le16 (.ofNat s.length) ++ s)
  | placeholder (p : Placeholder) : Encodes (.placeholder p) p.encode

theorem read_le16 (x : UInt16) (rest : List UInt8) :
    read_u16 (le16 x ++ rest) = some (x, rest) := by
  have hx : x.toNat < 65536 := x.toNat_lt
  have : (UInt16.ofNat ((ofNat x.toNat).toNat + 256 * (ofNat (x.toNat / 256)).toNat)) =
      x := by
    apply UInt16.toNat_inj.mp
    simp only [UInt16.toNat_ofNat', toNat_ofNat']
    omega
  rw [le16, cons_append, cons_append, nil_append, read_u16, this]

theorem read_le32 (x : UInt32) (rest : List UInt8) :
    read_u32 (le32 x ++ rest) = some (x, rest) := by
  have hx : x.toNat < 4294967296 := x.toNat_lt
  have : (UInt32.ofNat ((ofNat x.toNat).toNat + 256 * ((ofNat (x.toNat / 256)).toNat +
      256 * ((ofNat (x.toNat / 256 / 256)).toNat +
        256 * (ofNat (x.toNat / 256 / 256 / 256)).toNat)))) = x := by
    apply UInt32.toNat_inj.mp
    simp only [UInt32.toNat_ofNat', toNat_ofNat']
    omega
  simp only [le32, cons_append, nil_append, read_u32, this]

theorem read_piece_literal {s bs : List UInt8} (h : Encodes (.literal s) bs) (rest : List UInt8)
    (arg_index : ℕ) :
    read_piece (bs ++ rest) arg_index = some (some (.literal s), rest) := by
  have hparts : from_raw_parts (s ++ rest) s.length = some (s, rest) := by
    rw [from_raw_parts, if_pos (by simp), take_left, drop_left]
  cases h with
  | short pos le =>
    have hlen : (ofNat s.length).toNat = s.length := by
      rw [toNat_ofNat']
      omega
    have hne : ofNat s.length ≠ 0 := by
      intro hzero
      rw [hzero] at hlen
      exact absurd hlen.symm pos.ne'
    have hlt : ofNat s.length < 0x80 := by
      rw [lt_iff_toNat_lt, hlen]
      exact lt_succ_of_le le
    rw [read_piece, cons_append, read]
    simp only [bind_eq_bind, bind_some, hne, hlt, if_true, if_false, hlen, hparts]
    rfl
  | long le =>
    have hlen : (UInt16.ofNat s.length).toNat = s.length := by
      rw [UInt16.toNat_ofNat']
      omega
    rw [read_piece, cons_append, cons_append, append_assoc, read]
    simp only [bind_eq_bind, bind_some, read_le16, hlen, hparts]
    rfl

theorem field_eq {α β : Type} (read : List UInt8 → Option (α × List UInt8)) (default : α)
    (x : Option β) (enc : β → List UInt8) (val : β → α)
    (h : ∀ y rest, read (enc y ++ rest) = some (val y, rest)) (rest : List UInt8) :
    field x.isSome read default ((x.map enc).getD [] ++ rest) =
      some ((x.map val).getD default, rest) := by
  cases x with
  | none => rfl
  | some y => exact h y rest

/-- The bits of the first byte of a placeholder. -/
theorem first_bits (p : Placeholder) : p.first ≥ 0xC0 ∧ (p.first &&& 1 != 0) = p.flags.isSome ∧
    (p.first &&& 2 != 0) = p.width.isSome ∧ (p.first &&& 4 != 0) = p.precision.isSome ∧
    (p.first &&& 8 != 0) = p.arg_index.isSome ∧
    (p.first &&& 16 != 0) = (p.width.map Amount.is_indirect).getD false ∧
    (p.first &&& 32 != 0) = (p.precision.map Amount.is_indirect).getD false := by
  rw [Placeholder.first]
  generalize p.flags.isSome = a
  generalize p.width.isSome = b
  generalize p.precision.isSome = c
  generalize p.arg_index.isSome = d
  generalize (p.width.map Amount.is_indirect).getD false = e
  generalize (p.precision.map Amount.is_indirect).getD false = f
  revert a b c d e f
  decide

/-- A placeholder is read back from its flags and the fields they announce. -/
theorem read_piece_placeholder (p : Placeholder) (rest : List UInt8) (arg_index : ℕ) :
    read_piece (p.encode ++ rest) arg_index = some (some (.placeholder p.opt
      ((p.width.map Amount.is_indirect).getD false)
      ((p.precision.map Amount.is_indirect).getD false) (p.index arg_index)), rest) := by
  obtain ⟨hge, hflags, hwidth, hprecision, hindex, hiw, hip⟩ := first_bits p
  have hzero : p.first ≠ 0 := by
    intro h
    rw [h] at hge
    exact absurd hge (by decide)
  have hlt : ¬ p.first < 0x80 := by
    rw [lt_iff_toNat_lt]
    have := le_iff_toNat_le.mp hge
    simp at this ⊢
    omega
  have hlong : p.first ≠ 0x80 := by
    intro h
    rw [h] at hge
    exact absurd hge (by decide)
  rw [read_piece, Placeholder.encode, List.cons_append, read]
  simp only [Option.bind_eq_bind, Option.bind_some, hzero, hlt, hlong, if_false]
  by_cases hdefault : p.first = 0xC0
  · -- No field follows.
    rw [hdefault] at hflags hwidth hprecision hindex
    obtain ⟨flags, width, precision, index⟩ := p
    cases flags with
    | some x => cases hflags
    | none =>
    cases width with
    | some x => cases hwidth
    | none =>
    cases precision with
    | some x => cases hprecision
    | none =>
    cases index with
    | some x => cases hindex
    | none =>
    rw [if_pos hdefault]
    rfl
  · have hgt : p.first > 0xC0 := by
      rw [gt_iff_lt, lt_iff_toNat_lt]
      have := le_iff_toNat_le.mp hge
      have hne : p.first.toNat ≠ (0xC0 : UInt8).toNat := fun h => hdefault (UInt8.toNat_inj.mp h)
      omega
    have hwidth' (rest : List UInt8) := field_eq read_u16 FormattingOptions.new.width p.width
      (fun a => le16 a.raw) Amount.raw (fun a rest => read_le16 a.raw rest) rest
    have hprecision' (rest : List UInt8) := field_eq read_u16 FormattingOptions.new.precision
      p.precision (fun a => le16 a.raw) Amount.raw (fun a rest => read_le16 a.raw rest) rest
    have hflags' (rest : List UInt8) := field_eq read_u32 FormattingOptions.new.flags p.flags
      le32 id read_le32 rest
    have hindex' (rest : List UInt8) := field_eq
      (fun t => (read_u16 t).map fun r => (r.1.toNat, r.2)) arg_index p.arg_index le16 UInt16.toNat
      (fun x rest => by rw [read_le16]; rfl) rest
    rw [if_neg hdefault, if_pos hgt, hflags, hwidth, hprecision, hindex, hiw, hip]
    simp only [List.append_assoc, hflags', hwidth', hprecision', hindex', Option.bind_some,
      Option.map_id]
    rfl

theorem read_piece_end (rest : List UInt8) (arg_index : ℕ) :
    read_piece (0 :: rest) arg_index = some (none, rest) := rfl

/-! ## What a template says -/

/-- What a piece asks for: a text, or an argument with its options. -/
inductive Action
  | text (s : List UInt8)
  | argument (formatter : FormattingOptions → Output Call Bool) (opt : FormattingOptions)

def Action.run : Action → Output Call Bool
  | text s => .call (.write_str s) .ret
  | argument formatter opt => formatter opt

variable {args : List Argument} {ps : List Piece} {bs : List (List UInt8)} {rest : List UInt8}
variable {actions : List Action}

/-- **What the pieces ask for**, with the argument that comes next. The arguments that they name
exist and are of the kind that they need. -/
inductive Resolves (args : List Argument) : ℕ → List Piece → List Action → Prop
  | nil {next : ℕ} : Resolves args next [] []
  | literal {next : ℕ} {s : List UInt8} {ps : List Piece} {actions : List Action}
    (h : Resolves args next ps actions) :
    Resolves args next (.literal s :: ps) (.text s :: actions)
  | placeholder {next : ℕ} {p : Placeholder} {ps : List Piece} {actions : List Action}
    {formatter : FormattingOptions → Output Call Bool} {width precision : UInt16}
    (argument : args[p.index next]? = some (.Placeholder formatter))
    (hwidth : Amount.Is args p.width width) (hprecision : Amount.Is args p.precision precision)
    (h : Resolves args (p.index next + 1) ps actions) :
    Resolves args next (.placeholder p :: ps)
      (.argument formatter ⟨p.opt.flags, width, precision⟩ :: actions)

/-- **Doing what is asked for**, up to the first error. -/
def interpret (rest : List UInt8) : List Action → List (List UInt8) →
    Output Call (Bool × List UInt8)
  | a :: actions, _ :: bs => a.run.bind fun ok =>
    if ok then interpret rest actions bs else .ret (false, bs.flatten ++ 0 :: rest)
  | _, _ => .ret (true, rest)

theorem amount_eq {amount : Option Amount} {x : UInt16} (h : Amount.Is args amount x) :
    (if (amount.map Amount.is_indirect).getD false then
        count args ((amount.map Amount.raw).getD 0).toNat
      else some ((amount.map Amount.raw).getD 0)) = some x := by
  cases amount with
  | none => exact congrArg some h.symm
  | some amount =>
    cases amount with
    | direct value => exact congrArg some h.symm
    | indirect index =>
      have hindex : args[index.toNat]? = some (.Count x) := h
      change count args index.toNat = some x
      rw [count, hindex]

variable {next : ℕ}

theorem format_placeholder_eq {p : Placeholder} {width precision : UInt16}
    {formatter : FormattingOptions → Output Call Bool}
    (hargument : args[p.index next]? = some (.Placeholder formatter))
    (hwidth : Amount.Is args p.width width) (hprecision : Amount.Is args p.precision precision) :
    format_placeholder args p.opt ((p.width.map Amount.is_indirect).getD false)
      ((p.precision.map Amount.is_indirect).getD false) (p.index next) =
      formatter ⟨p.opt.flags, width, precision⟩ := by
  have hw : (if (p.width.map Amount.is_indirect).getD false then count args p.opt.width.toNat
      else some p.opt.width) = some width := amount_eq hwidth
  have hp : (if (p.precision.map Amount.is_indirect).getD false then
      count args p.opt.precision.toNat else some p.opt.precision) = some precision :=
    amount_eq hprecision
  rw [format_placeholder, hw, hp]
  change format args ⟨p.opt.flags, width, precision⟩ (p.index next) = _
  rw [format, hargument]

variable {turns : ℕ}

/-- **The loop of `write`** does what the pieces ask for. -/
theorem write_loop_eq (henc : List.Forall₂ Encodes ps bs)
    (hres : Resolves args next ps actions) (hturns : bs.length < turns) :
    write_loop args turns (bs.flatten ++ 0 :: rest) next = interpret rest actions bs := by
  induction henc generalizing actions next turns with
  | nil =>
    cases hres
    cases turns with
    | zero => exact absurd hturns (not_lt_zero _)
    | succ turns => rfl
  | @cons piece b ps bs hpiece _ ih =>
    cases turns with
    | zero => exact absurd hturns (not_lt_zero _)
    | succ turns =>
    have hturns' : bs.length < turns := lt_of_succ_lt_succ hturns
    rw [flatten_cons, append_assoc, write_loop]
    cases hres with
    | literal h =>
      rw [read_piece_literal hpiece, interpret]
      simp [Action.run, ih h hturns']
    | placeholder hargument hwidth hprecision h =>
      cases hpiece with
      | placeholder p =>
        rw [read_piece_placeholder, interpret]
        simp only [Action.run, format_placeholder_eq hargument hwidth hprecision, ih h hturns']

theorem encodes_ne_nil {piece : Piece} {b : List UInt8} (h : Encodes piece b) : b ≠ [] := by
  cases h with
  | short | long | placeholder => exact cons_ne_nil _ _

theorem length_le_flatten (henc : List.Forall₂ Encodes ps bs) : bs.length ≤ bs.flatten.length := by
  induction henc with
  | nil => exact zero_le _
  | @cons piece b ps bs hpiece _ ih =>
    have := length_pos_iff.mpr (encodes_ne_nil hpiece)
    rw [length_cons, flatten_cons, length_append]
    omega

theorem interpret_stops (h : ∀ a ∈ actions, a.run.Stops id) :
    (interpret rest actions bs).Stops Prod.fst := by
  induction actions generalizing bs with
  | nil => exact trivial
  | cons a actions ih =>
    cases bs with
    | nil => exact trivial
    | cons b bs =>
      refine (h a mem_cons_self).bind (fun ok hok => ?_) fun _ ok _ => ?_
      · obtain rfl : ok = false := hok
        exact ⟨_, rfl, rfl⟩
      · cases ok with
        | false => exact trivial
        | true => exact ih fun a ha => h a (mem_cons_of_mem _ ha)

/-- The calls of the actions, one after the other. -/
theorem interpret_calls {texts : List (List Call)}
    (h : List.Forall₂ (fun a qs => a.run.calls = some (qs, true)) actions texts)
    (hlen : actions.length ≤ bs.length) :
    (interpret rest actions bs).calls = some (texts.flatten, (true, rest)) := by
  induction h generalizing bs with
  | nil => rfl
  | @cons a qs actions texts ha _ ih =>
    cases bs with
    | nil => exact absurd hlen (not_succ_le_zero _)
    | cons b bs =>
      rw [interpret, Output.calls_bind, ha]
      simp only [bind_some, if_true, ih (le_of_succ_le_succ hlen)]
      rfl

/-! ## The places -/

/-- What a turn of `write` reads. -/
def read_turn (s : List UInt8 × ℕ) : Option (Turn (List UInt8 × ℕ) (List UInt8)) :=
  match read_piece s.1 s.2 with
  | none => none
  | some (none, template) => some (.done template)
  | some (some (.literal _), template) => some (.again (template, s.2))
  | some (some (.placeholder _ _ _ arg_index), template) =>
    some (.again (template, arg_index + 1))

/-- Where `write` reads a piece, and where it ends. -/
def write_places (turns : ℕ) (template : List UInt8) (arg_index : ℕ) :
    Option (List (List UInt8) × List UInt8) :=
  (heads read_turn turns (template, arg_index)).map fun r => (r.1.map Prod.fst, r.2)

/-- Where `estimated_capacity` reads a piece, and where it ends. -/
def estimate_places (turns : ℕ) (s : Estimate) : Option (List (List UInt8) × List UInt8) :=
  (heads estimate_turn turns s).map fun r => (r.1.map Estimate.template, r.2.template)

/-- Where the pieces begin, and the end of the template. -/
def boundaries (rest : List UInt8) : List (List UInt8) → List (List UInt8)
  | [] => [0 :: rest]
  | b :: bs => (b ++ (bs.flatten ++ 0 :: rest)) :: boundaries rest bs

/-- **A loop that takes piece after piece** begins its turns at the boundaries. -/
theorem heads_places {σ ρ : Type} {body : σ → Option (Turn σ ρ)} (place : σ → List UInt8)
    (final : ρ → List UInt8)
    (hpiece : ∀ ⦃piece b⦄, Encodes piece b → ∀ s template, place s = b ++ template →
      ∃ s', body s = some (.again s') ∧ place s' = template)
    (hend : ∀ s, place s = 0 :: rest → ∃ r, body s = some (.done r) ∧ final r = rest)
    (henc : List.Forall₂ Encodes ps bs) {s : σ}
    (hs : place s = bs.flatten ++ 0 :: rest) (hturns : bs.length < turns) :
    (heads body turns s).map (fun r => (r.1.map place, final r.2)) =
      some (boundaries rest bs, rest) := by
  induction henc generalizing s turns with
  | nil =>
    cases turns with
    | zero => exact absurd hturns (not_lt_zero _)
    | succ turns =>
      obtain ⟨r, hr, hfinal⟩ := hend s hs
      rw [heads, hr]
      simp only [map_some, map_cons, map_nil, hs, hfinal]
      rfl
  | @cons piece b ps bs hb _ ih =>
    cases turns with
    | zero => exact absurd hturns (not_lt_zero _)
    | succ turns =>
      rw [flatten_cons, append_assoc] at hs
      obtain ⟨s', hs', hplace⟩ := hpiece hb s _ hs
      obtain ⟨r, hr, heq⟩ := map_eq_some_iff.mp (ih hplace (lt_of_succ_lt_succ hturns))
      obtain ⟨hheads, hfinal⟩ := Prod.mk.inj heq
      rw [heads, hs']
      simp only [hr, map_some, map_cons, hs, hheads, hfinal]
      rfl

theorem write_places_eq (henc : List.Forall₂ Encodes ps bs) (arg_index : ℕ)
    (hturns : bs.length < turns) :
    write_places turns (bs.flatten ++ 0 :: rest) arg_index = some (boundaries rest bs, rest) := by
  refine heads_places Prod.fst id (fun piece b hb s template hs => ?_)
    (fun s hs => ?_) henc rfl hturns
  · obtain ⟨_, next⟩ := s
    obtain rfl : _ = b ++ template := hs
    rw [read_turn]
    cases piece with
    | literal s => exact ⟨(template, next), by rw [read_piece_literal hb], rfl⟩
    | placeholder p =>
      cases hb
      exact ⟨(template, p.index next + 1), by rw [read_piece_placeholder], rfl⟩
  · exact ⟨rest, by rw [read_turn, hs, read_piece_end], rfl⟩

theorem skip_append {xs template : List UInt8} {n : ℕ} (h : xs.length = n) :
    skip (xs ++ template) n = some template := by
  rw [skip, ← h, if_pos (by simp), drop_left]

/-- A turn of the estimate goes past exactly one piece. -/
theorem estimate_turn_piece {piece : Piece} {b : List UInt8} (h : Encodes piece b)
    (template : List UInt8) (length : ℕ) (starts : Bool) : ∃ length' starts',
    estimate_turn ⟨length, starts, b ++ template⟩ = some (.again ⟨length', starts', template⟩) := by
  cases h with
  | @short s pos le =>
    have hlen : (ofNat s.length).toNat = s.length := by
      rw [toNat_ofNat']
      omega
    have hne : ofNat s.length ≠ 0 := by
      intro hzero
      rw [hzero] at hlen
      exact absurd hlen.symm pos.ne'
    have hlt : ofNat s.length < 128 := by
      rw [lt_iff_toNat_lt, hlen]
      exact lt_succ_of_le le
    rw [estimate_turn, cons_append, read]
    simp only [bind_eq_bind, bind_some, hne, hlt, if_true, if_false, hlen, skip_append rfl]
    exact ⟨_, _, rfl⟩
  | @long s le =>
    have hlen : (UInt16.ofNat s.length).toNat = s.length := by
      rw [UInt16.toNat_ofNat']
      omega
    have hskip : skip (le16 (.ofNat s.length) ++ (s ++ template)) (2 + s.length) =
        some template := by
      rw [← append_assoc]
      exact skip_append (by rw [length_append, le16, length_cons, length_cons,
        length_nil])
    rw [estimate_turn, cons_append, cons_append, append_assoc, read]
    simp only [bind_eq_bind, bind_some, read_le16, hlen, hskip]
    exact ⟨_, _, rfl⟩
  | placeholder p =>
    obtain ⟨hge, hflags, hwidth, hprecision, hindex, -⟩ := first_bits p
    have hzero : p.first ≠ 0 := by
      intro h
      rw [h] at hge
      exact absurd hge (by decide)
    have hlt : ¬ p.first < 128 := fun h => absurd (UInt8.lt_of_lt_of_le h
      (show (128 : UInt8) ≤ 0xC0 by decide)) (UInt8.not_lt.mpr hge)
    have hlong : p.first ≠ 128 := by
      intro h
      rw [h] at hge
      exact absurd hge (by decide)
    rw [estimate_turn, Placeholder.encode, cons_append, read]
    simp only [bind_eq_bind, bind_some, hzero, hlt, hlong, hge, if_true, if_false,
      hflags, hwidth, hprecision, hindex]
    rw [skip_append]
    · exact ⟨_, _, rfl⟩
    · cases p.flags <;> cases p.width <;> cases p.precision <;> cases p.arg_index <;> rfl

theorem estimate_places_eq (henc : List.Forall₂ Encodes ps bs) (length : ℕ)
    (starts : Bool) (hturns : bs.length < turns) :
    estimate_places turns ⟨length, starts, bs.flatten ++ 0 :: rest⟩ =
      some (boundaries rest bs, rest) := by
  refine heads_places Estimate.template Estimate.template
    (fun piece b hb s template hs => ?_) (fun s hs => ?_) henc rfl hturns
  · obtain ⟨length, starts, _⟩ := s
    obtain rfl : _ = b ++ template := hs
    obtain ⟨length', starts', hturn⟩ := estimate_turn_piece hb template length starts
    exact ⟨_, hturn, rfl⟩
  · obtain ⟨length, starts, _⟩ := s
    obtain rfl : _ = 0 :: rest := hs
    exact ⟨⟨length, starts, rest⟩, rfl, rfl⟩

theorem Resolves.length_eq (h : Resolves args next ps actions) :
    actions.length = ps.length := by
  induction h with
  | nil => rfl
  | literal _ ih | placeholder _ _ _ _ ih => rw [length_cons, length_cons, ih]

/-- **A template that is encoded as documented**: `write` does what its pieces ask for and reads up
to its final byte. With arguments that stop at an error, any sink gets the texts of the pieces up to
the first call that fails. `estimated_capacity` reads at the same places. -/
theorem write_template {actions : List Action} (henc : List.Forall₂ Encodes ps bs)
    (hres : Resolves args 0 ps actions) (rest : List UInt8) :
    let template := bs.flatten ++ 0 :: rest
    write (.template template args) = interpret rest actions bs ∧
    (∀ texts, List.Forall₂ (fun a qs => a.run.calls = some (qs, true)) actions texts →
      (∀ a ∈ actions, a.run.Stops id) → ∀ (σ : Type) (sink : Call → σ → Bool × σ) (s : σ),
        ∃ r, (write (.template template args)).run sink s =
            some (r, (Output.feed sink texts.flatten s).2) ∧
          r.1 = (Output.feed sink texts.flatten s).1 ∧ (r.1 = true → r.2 = rest)) ∧
    write_places (template.length + 1) template 0 = some (boundaries rest bs, rest) ∧
    estimate_places (template.length + 1) ⟨0, false, template⟩ = some (boundaries rest bs, rest) ∧
    ∀ w, (estimated_capacity w (.template template args)).isSome := by
  intro template
  have hturns : bs.length < template.length + 1 := by
    have := length_le_flatten henc
    rw [length_append]
    omega
  have hwrite : write (.template template args) = interpret rest actions bs :=
    write_loop_eq henc hres hturns
  have hplaces : estimate_places (template.length + 1) ⟨0, false, template⟩ =
      some (boundaries rest bs, rest) := estimate_places_eq henc 0 false hturns
  refine ⟨hwrite, fun texts htexts hstops σ sink s => ?_, write_places_eq henc 0 hturns, hplaces,
    fun w => ?_⟩
  · have hcalls : (interpret rest actions bs).calls = some (texts.flatten, (true, rest)) :=
      interpret_calls htexts (by rw [hres.length_eq, henc.length_eq])
    obtain ⟨r, hrun, hok, herr⟩ := Output.run_eq_feed sink (interpret_stops hstops) hcalls s
    refine ⟨r, by rw [hwrite, hrun], ?_⟩
    cases hfeed : (Output.feed sink texts.flatten s).1 with
    | true =>
      rw [hok hfeed]
      exact ⟨rfl, fun _ => rfl⟩
    | false =>
      have hr := herr hfeed
      exact ⟨hr, fun h => absurd (hr.symm.trans h) Bool.false_ne_true⟩
  · obtain ⟨r, hr, -⟩ := map_eq_some_iff.mp hplaces
    rw [estimated_capacity, runLoop_eq_heads, hr]
    rfl

/-- The template of `hello {}\n` -/
theorem write_template_hello : write (.template [6, 104, 101, 108, 108, 111, 32, 0xC0, 1, 10, 0]
        [.Placeholder fun _ => .ret true]) =
      interpret [] [.text [104, 101, 108, 108, 111, 32], .argument (fun _ => .ret true) .new,
        .text [10]] [[6, 104, 101, 108, 108, 111, 32], [0xC0], [1, 10]] := by
  have henc : List.Forall₂ Encodes [.literal [104, 101, 108, 108, 111, 32],
      .placeholder ⟨none, none, none, none⟩, .literal [10]]
      [[6, 104, 101, 108, 108, 111, 32], [0xC0], [1, 10]] :=
    .cons (.short (by decide) (by decide)) (.cons (.placeholder ⟨none, none, none, none⟩)
      (.cons (.short (by decide) (by decide)) .nil))
  exact (write_template henc
    (.literal (.placeholder (p := ⟨none, none, none, none⟩) rfl rfl rfl (.literal .nil))) []).1

end Template
end RustStd.Fmt
