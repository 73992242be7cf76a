import RustStd.Foundations.Parser
import RustStd.Num.FromAscii

/-!
# Addresses and their parser

The values of the address types, and the recursive descent parser of `core::net`: its state is
the rest of the input, which `read_atomically` puts back when a parser fails. The arrays that
`read_groups` fills are lists whose indices are checked, as the array's are.
-/

namespace RustStd.Net

open RustStd.Num

structure Ipv4Addr where
  one : UInt8
  two : UInt8
  three : UInt8
  four : UInt8
  deriving DecidableEq, Repr

structure Ipv6Addr where
  segments : List UInt16
  length_eq : segments.length = 8
  deriving DecidableEq, Repr

inductive IpAddr
  | V4 (ip : Ipv4Addr)
  | V6 (ip : Ipv6Addr)
  deriving DecidableEq, Repr

structure SocketAddrV4 where
  ip : Ipv4Addr
  port : UInt16
  deriving DecidableEq, Repr

structure SocketAddrV6 where
  ip : Ipv6Addr
  port : UInt16
  flowinfo : UInt32
  scope_id : UInt32
  deriving DecidableEq, Repr

inductive SocketAddr
  | V4 (addr : SocketAddrV4)
  | V6 (addr : SocketAddrV6)
  deriving DecidableEq, Repr

/-- What an `AddrParseError` is about. -/
inductive AddrKind
  | Ip | Ipv4 | Ipv6 | Socket | SocketV4 | SocketV6
  deriving DecidableEq, Repr

abbrev Reader (α : Type) := Parser UInt8 α

variable {α : Type}

/-- `Parser::read_atomically` -/
def read_atomically (inner : Reader α) : Reader α := fun state =>
  match inner state with
  | .ok (none, _) => .ok (none, state)
  | r => r

/-- `Parser::parse_with` -/
def parse_with (inner : Reader α) (kind : AddrKind) (b : List UInt8) :
    Exec (Except AddrKind α) := do
  let (result, state) ← inner b
  match if state = [] then result else none with
  | some a => return .ok a
  | none => return .error kind

def peek_char : Reader (Option UInt8) := fun s => .ok (some s.head?, s)

def read_char : Reader UInt8
  | [] => .ok (none, [])
  | b :: tail => .ok (some b, tail)

def read_given_char (target : UInt8) : Reader Unit :=
  read_atomically do
    let c ← read_char
    if c = target then pure () else .fail

def read_separator (sep : UInt8) (index : ℕ) (inner : Reader α) : Reader α :=
  read_atomically do
    let _ ← (if index > 0 then read_given_char sep else pure () : Reader Unit)
    inner

def debug_assert (c : Prop) [Decidable c] : Exec Unit := if c then .ok () else .error .panic

/-- A result of `u32` arithmetic without a check. -/
def u32_arith (n : ℕ) : Exec ℕ := if n < 2 ^ 32 then .ok n else .error .fault

/-- The loop of `read_number` that counts the digits. -/
def bounded_digits (radix : UInt32) (max_digits result digit_count : ℕ) : Reader (ℕ × ℕ)
  | [] => .ok (some (result, digit_count), [])
  | c :: rest => do
    match ← to_digit c.toUInt32 radix with
    | none => .ok (some (result, digit_count), c :: rest)
    | some digit => do
      let result ← u32_arith (result * radix.toNat)
      let result ← u32_arith (result + digit.toNat)
      if digit_count + 1 > max_digits then .ok (none, rest)
      else bounded_digits radix max_digits result (digit_count + 1) rest

/-- `checked_mul` of the type with the largest value `max`. -/
def checked_mul (max self other : ℕ) : Option ℕ :=
  if other ≤ max ∧ self * other ≤ max then some (self * other) else none

/-- `checked_add` of the type with the largest value `max`. -/
def checked_add (max self other : ℕ) : Option ℕ :=
  if other ≤ max ∧ self + other ≤ max then some (self + other) else none

/-- The loop of `read_number` that checks every operation. -/
def checked_digits (max : ℕ) (radix : UInt32) (result digit_count : ℕ) : Reader (ℕ × ℕ)
  | [] => .ok (some (result, digit_count), [])
  | c :: rest => do
    match ← to_digit c.toUInt32 radix with
    | none => .ok (some (result, digit_count), c :: rest)
    | some digit =>
      match checked_mul max result radix.toNat with
      | none => .ok (none, rest)
      | some result =>
        match checked_add max result digit.toNat with
        | none => .ok (none, rest)
        | some result => checked_digits max radix result (digit_count + 1) rest

/-- The number that the digits at the front denote, when it fits, and how many digits they are. -/
def read_digits (max : ℕ) (radix : UInt32) : Option ℕ → Reader (Option ℕ × ℕ)
  | some max_digits => do
    .lift (debug_assert (max_digits < 10))
    let (result, digit_count) ← bounded_digits radix max_digits 0 0
    pure (if result ≤ max then some result else none, digit_count)
  | none => do
    let (result, digit_count) ← checked_digits max radix 0 0
    pure (some result, digit_count)

/-- `Parser::read_number` of the type with the largest value `max`. -/
def read_number (max : ℕ) (radix : UInt32) (max_digits : Option ℕ) ( allow_zero_prefix : Bool) :
    Reader ℕ :=
  read_atomically do
    let first ← peek_char
    let has_leading_zero := first = some 48
    let (result, digit_count) ← read_digits max radix max_digits
    if digit_count = 0 then .fail
    else if ! allow_zero_prefix ∧ has_leading_zero ∧ digit_count > 1 then .fail
    else
      match result with
      | some n => pure n
      | none => .fail

/-- One turn of the loop of `read_ipv4_addr`. -/
def read_octet (i : ℕ) : Reader UInt8 :=
  read_separator 46 i do
    let n ← read_number 255 10 (some 3) false
    pure n.toUInt8

def read_ipv4_addr : Reader Ipv4Addr :=
  read_atomically do
    let one ← read_octet 0
    let two ← read_octet 1
    let three ← read_octet 2
    let four ← read_octet 3
    pure ⟨one, two, three, four⟩

/-- `u16::from_be_bytes` -/
def from_be_bytes (one two : UInt8) : UInt16 := (one.toNat * 256 + two.toNat).toUInt16

/-- `groups[i] = g` -/
def set_group (groups : List UInt16) (i : ℕ) (g : UInt16) : Exec (List UInt16) :=
  if i < groups.length then .ok (groups.set i g) else .error .panic

/-- One group of hexadecimal digits. -/
def read_group (i : ℕ) : Reader UInt16 :=
  read_separator 58 i do
    let n ← read_number 65535 16 (some 4) true
    pure n.toUInt16

/-- The loop of `read_groups` from the index `i` on, `left` turns being left. It returns the
groups, how many have been read and whether the last two of them are an IPv4 address. -/
def read_groups_from (limit : ℕ) : ℕ → ℕ → List UInt16 → Reader (List UInt16 × ℕ × Bool)
  | 0, _, groups => pure (groups, groups.length, false)
  | left + 1, i, groups => fun s => do
    let (ipv4, s) ← ( if i < limit - 1 then read_separator 58 i read_ipv4_addr s else .ok (none, s))
    match ipv4 with
    | some v4_addr => do
      let groups ← set_group groups (i + 0) (from_be_bytes v4_addr.one v4_addr.two)
      let groups ← set_group groups (i + 1) (from_be_bytes v4_addr.three v4_addr.four)
      .ok (some (groups, i + 2, true), s)
    | none => do
      let (group, s) ← read_group i s
      match group with
      | some g => do
        let groups ← set_group groups i g
        read_groups_from limit left (i + 1) groups s
      | none => .ok (some (groups, i, false), s)

def read_groups (groups : List UInt16) : Reader (List UInt16 × ℕ × Bool) :=
  read_groups_from groups.length groups.length 0 groups

/-- `xs[..n]` -/
def slice_to (xs : List UInt16) (n : ℕ) : Exec (List UInt16) :=
  if n ≤ xs.length then .ok (xs.take n) else .error .panic

/-- `xs[start..stop].copy_from_slice(ys)` -/
def copy_from_slice (xs : List UInt16) (start stop : ℕ) (ys : List UInt16) : Exec (List UInt16) :=
  if start ≤ stop ∧ stop ≤ xs.length ∧ stop - start = ys.length then
    .ok (xs.take start ++ ys ++ xs.drop stop)
  else .error .panic

/-- `groups.into()` for an array of eight. -/
def into_ipv6 (groups : List UInt16) : Exec Ipv6Addr :=
  if h : groups.length = 8 then .ok ⟨groups, h⟩ else .error .fault

/-- `a - b` -/
def usize_sub (a b : ℕ) : Exec ℕ := if b ≤ a then .ok (a - b) else .error .fault

/-- What follows the first part of an address: `::` and the second part, of which the groups go
to the end. -/
def read_ipv6_tail (head : List UInt16) (head_size : ℕ) : Reader Ipv6Addr := do
  read_given_char 58
  read_given_char 58
  let tail := List.replicate 7 0
  let limit ← .lift (usize_sub 8 (head_size + 1))
  let slice ← .lift (slice_to tail limit)
  let (slice, tail_size, _) ← read_groups slice
  let tail := slice ++ tail.drop limit
  let ys ← .lift (slice_to tail tail_size)
  let start ← .lift (usize_sub 8 tail_size)
  let head ← .lift (copy_from_slice head start 8 ys)
  .lift (into_ipv6 head)

def read_ipv6_addr : Reader Ipv6Addr :=
  read_atomically do
    let (head, head_size, head_ipv4) ← read_groups (List.replicate 8 0)
    if head_size = 8 then .lift (into_ipv6 head)
    else if head_ipv4 then .fail
    else read_ipv6_tail head head_size

def read_ip_addr : Reader IpAddr :=
  .or_else (do let ip ← read_ipv4_addr; pure (.V4 ip)) (do let ip ← read_ipv6_addr; pure (.V6 ip))

def read_port : Reader UInt16 :=
  read_atomically do
    read_given_char 58
    let n ← read_number 65535 10 none true
    pure n.toUInt16

def read_scope_id : Reader UInt32 :=
  read_atomically do
    read_given_char 37
    let n ← read_number 4294967295 10 none true
    pure n.toUInt32

def read_socket_addr_v4 : Reader SocketAddrV4 :=
  read_atomically do
    let ip ← read_ipv4_addr
    let port ← read_port
    pure ⟨ip, port⟩

def read_socket_addr_v6 : Reader SocketAddrV6 :=
  read_atomically do
    read_given_char 91
    let ip ← read_ipv6_addr
    let scope_id ← .or_else read_scope_id (pure 0)
    read_given_char 93
    let port ← read_port
    pure ⟨ip, port, 0, scope_id⟩

def read_socket_addr : Reader SocketAddr :=
  .or_else (do let addr ← read_socket_addr_v4; pure (.V4 addr))
    (do let addr ← read_socket_addr_v6; pure (.V6 addr))

def IpAddr.parse_ascii (b : List UInt8) : Exec (Except AddrKind IpAddr) :=
  parse_with read_ip_addr .Ip b

def Ipv4Addr.parse_ascii (b : List UInt8) : Exec (Except AddrKind Ipv4Addr) :=
  if b.length > 15 then .ok (.error .Ipv4) else parse_with read_ipv4_addr .Ipv4 b

def Ipv6Addr.parse_ascii (b : List UInt8) : Exec (Except AddrKind Ipv6Addr) :=
  parse_with read_ipv6_addr .Ipv6 b

def SocketAddrV4.parse_ascii (b : List UInt8) : Exec (Except AddrKind SocketAddrV4) :=
  parse_with read_socket_addr_v4 .SocketV4 b

def SocketAddrV6.parse_ascii (b : List UInt8) : Exec (Except AddrKind SocketAddrV6) :=
  parse_with read_socket_addr_v6 .SocketV6 b

def SocketAddr.parse_ascii (b : List UInt8) : Exec (Except AddrKind SocketAddr) :=
  parse_with read_socket_addr .Socket b

end RustStd.Net
