import Mathlib.Data.UInt
import RustStd.Foundations.Slice

/-!
# Path prefixes

The two conventions for paths, after `std/src/sys/path/unix.rs` and `windows.rs`, and the prefix of
a Windows path, after `windows_prefix.rs`. A path is a list of bytes; a slice out of range is a
fault. What the components of a path need of its prefix is that it is a proper part of the path
(`parse_prefix_spec`) and when it is a drive letter (`parse_prefix_drive`).
-/

namespace RustStd.Path

open List Option

/-- Unix, without prefixes, and Windows. -/
inductive Platform
  | unix
  | windows
  deriving DecidableEq, Repr

namespace Platform

def HAS_PREFIXES : Platform → Bool
  | unix => false
  | windows => true

/-- `is_sep_byte`: `/`, and on Windows also the backslash. -/
def is_sep_byte : Platform → UInt8 → Bool
  | unix, b => b == 47
  | windows, b => b == 47 || b == 92

def is_verbatim_sep : Platform → UInt8 → Bool
  | unix, b => b == 47
  | windows, b => b == 92

end Platform

/-- The kinds of prefixes. -/
inductive Prefix
  | Verbatim (x : List UInt8)
  | VerbatimUNC (x y : List UInt8)
  | VerbatimDisk (x : UInt8)
  | DeviceNS (x : List UInt8)
  | UNC (x y : List UInt8)
  | Disk (x : UInt8)
  deriving DecidableEq, Repr

namespace Prefix

def len : Prefix → ℕ
  | Verbatim x => 4 + x.length
  | VerbatimUNC x y => 8 + x.length + if y.length > 0 then 1 + y.length else 0
  | VerbatimDisk _ => 6
  | UNC x y => 2 + x.length + if y.length > 0 then 1 + y.length else 0
  | DeviceNS x => 4 + x.length
  | Disk _ => 2

def is_verbatim : Prefix → Bool
  | Verbatim _ | VerbatimDisk _ | VerbatimUNC _ _ => true
  | _ => false

def is_drive : Prefix → Bool
  | Disk _ => true
  | _ => false

def has_implicit_root (self : Prefix) : Bool := ! self.is_drive

end Prefix

/-! ## The parser -/

/-- `PrefixParserSlice`: the path, its first eight bytes with every `/` made a backslash, and how
many of them are read. -/
structure PrefixParser where
  path : List UInt8
  head : List UInt8
  index : ℕ

namespace PrefixParser

/-- `PrefixParser::get_prefix` and `as_slice` -/
def new (path : List UInt8) : PrefixParser :=
  ⟨path, (path.take 8).map fun ch => if ch = 47 then 92 else ch, 0⟩

variable (self : PrefixParser)

/-- `PrefixParserSlice::strip_prefix` -/
def strip_prefix (text : List UInt8) : Option (Option PrefixParser) := do
  let rest ← slice_from self.head self.index
  return if text.isPrefixOf rest then some { self with index := self.index + text.length } else none

/-- `PrefixParserSlice::prefix_bytes` -/
def prefix_bytes : Option (List UInt8) := slice_to self.path self.index

/-- `PrefixParserSlice::finish` -/
def finish : Option (List UInt8) := slice_from self.path self.index

end PrefixParser

/-- `u8::is_ascii_alphabetic` -/
def is_ascii_alphabetic (b : UInt8) : Bool := (65 ≤ b && b ≤ 90) || (97 ≤ b && b ≤ 122)

/-- `u8::to_ascii_uppercase` -/
def to_ascii_uppercase (b : UInt8) : UInt8 := if 97 ≤ b && b ≤ 122 then b - 32 else b

def parse_drive : List UInt8 → Option UInt8
  | drive :: 58 :: _ => if is_ascii_alphabetic drive then some (to_ascii_uppercase drive) else none
  | _ => none

def parse_drive_exact (path : List UInt8) : Option UInt8 :=
  if (path[2]?.map Platform.windows.is_sep_byte).getD true then parse_drive path else none

/-- `parse_next_component` of `windows_prefix.rs` -/
def next_component (path : List UInt8) (verbatim : Bool) : List UInt8 × List UInt8 :=
  let separator :=
    if verbatim then Platform.windows.is_verbatim_sep else Platform.windows.is_sep_byte
  match path.findIdx? separator with
  | some i => (path.take i, path.drop (i + 1))
  | none => (path, [])

/-- The branch of `parse_prefix` behind `\\\\?\\`. -/
def parse_verbatim (parser : PrefixParser) : Option (Option Prefix) := do
  match ← parser.strip_prefix [85, 78, 67, 92] with
  | some parser =>
    let path ← parser.finish
    let (server, path) := next_component path true
    let (share, _) := next_component path true
    return some (.VerbatimUNC server share)
  | none =>
    let path ← parser.finish
    match parse_drive_exact path with
    | some drive => return some (.VerbatimDisk drive)
    | none => return some (.Verbatim (next_component path true).1)

/-- The branches of `parse_prefix` behind two separators that are not verbatim. -/
def parse_device (parser : PrefixParser) : Option (Option Prefix) := do
  match ← parser.strip_prefix [46, 92] with
  | some parser => return some (.DeviceNS (next_component (← parser.finish) false).1)
  | none =>
    let path ← parser.finish
    let (server, path) := next_component path false
    let (share, _) := next_component path false
    return if ! server.isEmpty && ! share.isEmpty then some (.UNC server share) else none

/-- The branch of `parse_prefix` behind two separators. A `/` among the four bytes of a verbatim
prefix makes it another one. -/
def parse_double (parser : PrefixParser) : Option (Option Prefix) := do
  match ← parser.strip_prefix [63, 92] with
  | some verbatim =>
    if (← verbatim.prefix_bytes).any (· == 47) then parse_device parser
    else parse_verbatim verbatim
  | none => parse_device parser

def Platform.parse_prefix : Platform → List UInt8 → Option (Option Prefix)
  | unix, _ => some none
  | windows, path => do
    match ← PrefixParser.strip_prefix (.new path) [92, 92] with
    | some parser => parse_double parser
    | none => return (parse_drive path).map .Disk

/-! ## What is parsed -/

/-- A parser that read `n` bytes of the path. -/
structure PrefixParser.Read (path : List UInt8) (n : ℕ) (parser : PrefixParser) : Prop where
  path_eq : parser.path = path
  index_eq : parser.index = n
  index_le : n ≤ parser.head.length
  head_le : parser.head.length ≤ path.length

namespace PrefixParser.Read

variable {path : List UInt8} {n : ℕ} {parser : PrefixParser}

variable (h : Read path n parser)
include h

theorem le : n ≤ path.length := h.index_le.trans h.head_le

theorem strip (text : List UInt8) :
    ∃ o, parser.strip_prefix text = some o ∧ ∀ q, o = some q → Read path (n + text.length) q := by
  rw [ strip_prefix, slice_from_eq (h.index_eq ▸ h.index_le)]
  refine ⟨_, rfl, fun q hq => ?_⟩
  obtain ⟨htext, hq⟩ := ite_none_right_eq_some.mp hq
  cases hq
  have hlen := (List.isPrefixOf_iff_prefix.mp htext).length_le
  rw [length_drop, h.index_eq] at hlen
  have hle := h.index_le
  exact ⟨h.path_eq, congrArg (· + text.length) h.index_eq, by dsimp only; omega, h.head_le⟩

theorem finish : parser.finish = some (path.drop n) := by
  rw [PrefixParser.finish, h.path_eq, h.index_eq, slice_from_eq h.le]

theorem prefix_bytes : parser.prefix_bytes = some (path.take n) := by
  rw [PrefixParser.prefix_bytes, h.path_eq, h.index_eq, slice_to_eq h.le]

end PrefixParser.Read

theorem read_new (path : List UInt8) : PrefixParser.Read path 0 (.new path) := by
  refine ⟨rfl, rfl, Nat.zero_le _, ?_⟩
  rw [PrefixParser.new, length_map, length_take]
  exact Nat.min_le_right _ _

/-- A component and what follows it, with the separator between. -/
theorem next_component_length (path : List UInt8) (verbatim : Bool) :
    (next_component path verbatim).1.length ≤ path.length ∧ ((next_component path verbatim).2 ≠ [] →
        (next_component path verbatim).1.length + 1 + (next_component path verbatim).2.length =
          path.length) := by
  rw [next_component]
  cases h : path.findIdx? (if verbatim then Platform.windows.is_verbatim_sep
    else Platform.windows.is_sep_byte) with
  | none => exact ⟨le_rfl, fun hne => absurd rfl hne⟩
  | some i =>
    have hlt := (findIdx?_eq_some_iff_getElem.mp h).1
    simp only [length_take, length_drop]
    omega

/-- The lengths of a server and a share. -/
theorem server_share_length (path : List UInt8) (verbatim : Bool) :
    (next_component path verbatim).1.length +
      (if (next_component (next_component path verbatim).2 verbatim).1.length > 0 then
        1 + (next_component (next_component path verbatim).2 verbatim).1.length else 0) ≤
      path.length := by
  have h1 := next_component_length path verbatim
  have h2 := next_component_length (next_component path verbatim).2 verbatim
  split
  · next hpos =>
    have hne : (next_component path verbatim).2 ≠ [] := by
      intro hnil
      rw [hnil] at hpos h2
      exact absurd h2.1 (Nat.not_le.mpr hpos)
    have := h1.2 hne
    omega
  · exact h1.1

/-- A prefix that is a proper part of the path. -/
def PartOf (path : List UInt8) (p : Prefix) : Prop := 0 < p.len ∧ p.len ≤ path.length

variable {path : List UInt8}

theorem parse_drive_eq_some {x : UInt8} :
    parse_drive path = some x ↔ ∃ drive rest, path = drive :: 58 :: rest ∧
      is_ascii_alphabetic drive = true ∧ to_ascii_uppercase drive = x := by
  constructor
  · intro h
    rw [parse_drive.eq_def] at h
    split at h
    · obtain ⟨halpha, hx⟩ := ite_none_right_eq_some.mp h
      exact ⟨_, _, rfl, halpha, some.inj hx⟩
    · cases h
  · rintro ⟨drive, rest, rfl, halpha, rfl⟩
    exact if_pos halpha

variable {parser : PrefixParser}

theorem parse_verbatim_spec (h : PrefixParser.Read path 4 parser) :
    ∃ p, parse_verbatim parser = some (some p) ∧ PartOf path p ∧ p.is_drive = false := by
  obtain ⟨o, hstrip, hread⟩ := h.strip [85, 78, 67, 92]
  rw [parse_verbatim, hstrip]
  cases o with
  | some q =>
    have hq := hread q rfl
    have hfinish : q.finish = some (path.drop 8) := hq.finish
    have hle : 8 ≤ path.length := hq.le
    have hlen := server_share_length (path.drop 8) true
    rw [length_drop] at hlen
    refine ⟨.VerbatimUNC (next_component (path.drop 8) true).1
      (next_component (next_component (path.drop 8) true).2 true).1, ?_, ?_, rfl⟩
    · simp only [bind_eq_bind, bind_some, hfinish]
      rfl
    · rw [PartOf, Prefix.len]
      omega
  | none =>
    have hle := h.le
    simp only [bind_eq_bind, bind_some, h.finish]
    cases hdrive : parse_drive_exact (path.drop 4) with
    | some x =>
      refine ⟨_, rfl, ⟨Nat.succ_pos 5, ?_⟩, rfl⟩
      obtain ⟨-, hdrive⟩ := ite_none_right_eq_some.mp hdrive
      obtain ⟨drive, rest, hpath, -⟩ := parse_drive_eq_some.mp hdrive
      have hlen := congrArg length hpath
      rw [length_drop, length_cons, length_cons] at hlen
      rw [Prefix.len]
      omega
    | none =>
      have hlen := (next_component_length (path.drop 4) true).1
      rw [length_drop] at hlen
      refine ⟨_, rfl, ?_, rfl⟩
      rw [PartOf, Prefix.len]
      omega

theorem parse_device_spec (h : PrefixParser.Read path 2 parser) :
    ∃ o, parse_device parser = some o ∧ ∀ p, o = some p → PartOf path p ∧ p.is_drive = false := by
  obtain ⟨o, hstrip, hread⟩ := h.strip [46, 92]
  rw [parse_device, hstrip]
  cases o with
  | some q =>
    have hq := hread q rfl
    have hle : 4 ≤ path.length := hq.le
    have hlen := (next_component_length (path.drop 4) false).1
    rw [length_drop] at hlen
    have hfinish : q.finish = some (path.drop 4) := hq.finish
    refine ⟨some (.DeviceNS (next_component (path.drop 4) false).1), ?_, ?_⟩
    · simp only [bind_eq_bind, bind_some, hfinish]
      rfl
    · rintro p ⟨⟩
      refine ⟨?_, rfl⟩
      rw [PartOf, Prefix.len]
      omega
  | none =>
    have hle := h.le
    have hlen := server_share_length (path.drop 2) false
    rw [length_drop] at hlen
    simp only [bind_eq_bind, bind_some, h.finish]
    refine ⟨_, rfl, fun p hp => ?_⟩
    obtain ⟨-, hp⟩ := ite_none_right_eq_some.mp hp
    cases hp
    refine ⟨?_, rfl⟩
    rw [PartOf, Prefix.len]
    omega

theorem parse_double_spec (h : PrefixParser.Read path 2 parser) :
    ∃ o, parse_double parser = some o ∧ ∀ p, o = some p → PartOf path p ∧ p.is_drive = false := by
  obtain ⟨o, hstrip, hread⟩ := h.strip [63, 92]
  rw [parse_double, hstrip]
  cases o with
  | none => exact parse_device_spec h
  | some q =>
    have hq : PrefixParser.Read path 4 q := hread q rfl
    simp only [bind_eq_bind, bind_some, hq.prefix_bytes]
    split
    · exact parse_device_spec h
    · obtain ⟨p, hp, hpart, hdrive⟩ := parse_verbatim_spec hq
      refine ⟨some p, hp, ?_⟩
      rintro p' ⟨⟩
      exact ⟨hpart, hdrive⟩

/-- A path that begins with two separators does not begin with a drive letter. -/
theorem parse_drive_eq_none {q : PrefixParser}
    (h : PrefixParser.strip_prefix (.new path) [92, 92] = some (some q)) :
    parse_drive path = none := by
  cases hdrive : parse_drive path with
  | none => rfl
  | some x =>
    obtain ⟨drive, rest, rfl, -⟩ := parse_drive_eq_some.mp hdrive
    rw [ PrefixParser.strip_prefix, PrefixParser.new] at h
    simp [slice_from] at h

/-- **Parsing a prefix** gives a proper part of the path. -/
theorem parse_prefix_spec (P : Platform) (path : List UInt8) :
    ∃ o, P.parse_prefix path = some o ∧ (P = .unix → o = none) ∧
      ∀ p, o = some p → PartOf path p ∧ (p.is_drive = true ↔ parse_drive path ≠ none) := by
  cases P with
  | unix => exact ⟨none, rfl, fun _ => rfl, nofun⟩
  | windows =>
    obtain ⟨o, hstrip, hread⟩ := (read_new path).strip [92, 92]
    rw [ Platform.parse_prefix, hstrip]
    cases o with
    | some q =>
      obtain ⟨o, ho, hspec⟩ := parse_double_spec (hread q rfl)
      refine ⟨o, ho, nofun, fun p hp => ?_⟩
      obtain ⟨hpart, hdrive⟩ := hspec p hp
      refine ⟨hpart, ?_⟩
      rw [hdrive, parse_drive_eq_none hstrip]
      simp
    | none =>
      refine ⟨_, rfl, nofun, fun p hp => ?_⟩
      obtain ⟨x, hx, rfl⟩ := map_eq_some_iff.mp hp
      obtain ⟨drive, rest, rfl, -⟩ := parse_drive_eq_some.mp hx
      refine ⟨⟨by rw [Prefix.len]; omega, ?_⟩, ?_⟩
      · rw [Prefix.len, length_cons, length_cons]
        omega
      · rw [hx]
        simp [Prefix.is_drive]

/-- A drive letter is a prefix. -/
theorem parse_prefix_drive {x : UInt8} (h : parse_drive path = some x) :
    Platform.windows.parse_prefix path = some (some (.Disk x)) := by
  obtain ⟨o, hstrip, -⟩ := (read_new path).strip [92, 92]
  rw [ Platform.parse_prefix, hstrip]
  cases o with
  | some q => exact absurd (h.symm.trans (parse_drive_eq_none hstrip)) (by simp)
  | none => rw [h]; rfl

end RustStd.Path
