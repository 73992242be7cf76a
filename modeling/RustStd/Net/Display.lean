import RustStd.Foundations.Runs
import RustStd.Net.Accepts
import RustStd.Num.Display

/-!
# Printing addresses

The text of an address is written piece by piece, to the output or, when a width or a precision
is asked for, to a buffer on the stack, which is then padded. `display_spec` states that the
buffer is long enough. The text of an IPv6 address is the canonical one (`Rfc5952`), and every
text is one of the grammar that the parser accepts, for the address that was printed
(`display_and_parse`).
-/

namespace RustStd.Net

open RustStd.Num Fmt Digits List Nat Exec

/-! ## The code -/

/-- What is written, one piece for each call of `write_str`. -/
abbrev Pieces := List (List UInt8)

/-- The buffer of the slow path. -/
structure DisplayBuffer where
  buf : Buffer
  len : ℕ

def DisplayBuffer.new (SIZE : ℕ) : DisplayBuffer := ⟨uninit SIZE, 0⟩

/-- `write_str`, which is an error when the buffer is too small. -/
def DisplayBuffer.write_str (b : DisplayBuffer) (bytes : List UInt8) : Option DisplayBuffer :=
  if b.len + bytes.length ≤ b.buf.length then
    some ⟨splice b.buf b.len bytes, b.len + bytes.length⟩
  else none

def DisplayBuffer.as_str (b : DisplayBuffer) : Exec (List UInt8) :=
  if b.len ≤ b.buf.length then assume_init (b.buf.take b.len) else .error .panic

/-- `Display::fmt` of an address type, whose longest text has the length of `LONGEST`. -/
def display (LONGEST : String) (write : Exec Pieces) (f : FormattingOptions) :
    Exec (List UInt8) := do
  let pieces ← write
  if f.precision.isNone ∧ f.width.isNone then return pieces.flatten
  else
    match pieces.foldlM DisplayBuffer.write_str (.new (bytes LONGEST).length) with
    | none => .error .panic
    | some buf => do
      let s ← buf.as_str
      return pad f s

/-- `{}` of a `u8` -/
def fmt_u8 (n : UInt8) : Exec (List UInt8) := Display.fmt ⟨.w8, false⟩ n.toNat .new

/-- `{}` of a `u16` -/
def fmt_u16 (n : UInt16) : Exec (List UInt8) := Display.fmt ⟨.w16, false⟩ n.toNat .new

/-- `{}` of a `u32` -/
def fmt_u32 (n : UInt32) : Exec (List UInt8) := Display.fmt ⟨.w32, false⟩ n.toNat .new

/-- `{:x}` of a `u16` -/
def fmt_hex (n : UInt16) : Exec (List UInt8) := LowerHex.fmt ⟨.w16, false⟩ n.toNat .new

def Ipv4Addr.write (self : Ipv4Addr) : Exec Pieces := do
  let one ← fmt_u8 self.one
  let two ← fmt_u8 self.two
  let three ← fmt_u8 self.three
  let four ← fmt_u8 self.four
  return [one, [46], two, [46], three, [46], four]

def Ipv4Addr.fmt (self : Ipv4Addr) : FormattingOptions → Exec (List UInt8) :=
  display "255.255.255.255" self.write

/-- The bytes of the segments, the high one first. -/
def Ipv6Addr.octets (self : Ipv6Addr) : List UInt8 :=
  self.segments.flatMap fun s => [(s.toNat / 256).toUInt8, s.toNat.toUInt8]

def Ipv6Addr.to_ipv4_mapped (self : Ipv6Addr) : Option Ipv4Addr :=
  match self.octets with
  | [0, 0, 0, 0, 0, 0, 0, 0, 0, 0, 0xff, 0xff, a, b, c, d] => some ⟨a, b, c, d⟩
  | _ => none

structure Span where
  start : ℕ
  len : ℕ
  deriving DecidableEq, Repr

/-- The loop over the segments from the index `i` on. -/
def longest_zeroes : List UInt16 → ℕ → Span → Span → Span
  | [], _, longest, _ => longest
  | segment :: rest, i, longest, current =>
    if segment = 0 then
      let current := if current.len = 0 then { current with start := i } else current
      let current := { current with len := current.len + 1 }
      if current.len > longest.len then longest_zeroes rest (i + 1) current current
      else longest_zeroes rest (i + 1) longest current
    else longest_zeroes rest (i + 1) longest ⟨0, 0⟩

/-- The groups after the first one. -/
def fmt_tail : List UInt16 → Exec Pieces
  | [] => .ok []
  | segment :: tail => do
    let text ← fmt_hex segment
    let rest ← fmt_tail tail
    return [58] :: text :: rest

def fmt_subslice : List UInt16 → Exec Pieces
  | [] => .ok []
  | first :: tail => do
    let text ← fmt_hex first
    let rest ← fmt_tail tail
    return text :: rest

def Ipv6Addr.write (self : Ipv6Addr) : Exec Pieces :=
  match self.to_ipv4_mapped with
  | some ipv4 => do
    let text ← ipv4.write
    return bytes "::ffff:" :: text
  | none =>
    let zeroes := longest_zeroes self.segments 0 ⟨0, 0⟩ ⟨0, 0⟩
    if zeroes.len > 1 then do
      let first ← fmt_subslice (self.segments.take zeroes.start)
      let last ← fmt_subslice (self.segments.drop (zeroes.start + zeroes.len))
      return first ++ bytes "::" :: last
    else fmt_subslice self.segments

def Ipv6Addr.fmt (self : Ipv6Addr) : FormattingOptions → Exec (List UInt8) :=
  display "ffff:ffff:ffff:ffff:ffff:ffff:ffff:ffff" self.write

def IpAddr.fmt : IpAddr → FormattingOptions → Exec (List UInt8)
  | .V4 ip => ip.fmt
  | .V6 ip => ip.fmt

def SocketAddrV4.write (self : SocketAddrV4) : Exec Pieces := do
  let ip ← self.ip.write
  let port ← fmt_u16 self.port
  return ip ++ [[58], port]

def SocketAddrV4.fmt (self : SocketAddrV4) : FormattingOptions → Exec (List UInt8) :=
  display "255.255.255.255:65535" self.write

def SocketAddrV6.write (self : SocketAddrV6) : Exec Pieces := do
  if self.scope_id = 0 then
    let ip ← self.ip.write
    let port ← fmt_u16 self.port
    return [91] :: ip ++ [bytes "]:", port]
  else
    let ip ← self.ip.write
    let scope_id ← fmt_u32 self.scope_id
    let port ← fmt_u16 self.port
    return [91] :: ip ++ [[37], scope_id, bytes "]:", port]

def SocketAddrV6.fmt (self : SocketAddrV6) : FormattingOptions → Exec (List UInt8) :=
  display "[ffff:ffff:ffff:ffff:ffff:ffff:ffff:ffff%4294967295]:65535" self.write

def SocketAddr.fmt : SocketAddr → FormattingOptions → Exec (List UInt8)
  | .V4 addr => addr.fmt
  | .V6 addr => addr.fmt

/-! ## The canonical form -/

/-- A group in lower case, without a superfluous zero. -/
def hex_text (g : UInt16) : List UInt8 := numeral_text 16 false g.toNat

/-- Groups with colons between them. -/
def join_groups : List UInt16 → List UInt8
  | [] => []
  | g :: gs => hex_text g ++ gs.flatMap fun h => 58 :: hex_text h

/-- The dotted form of an IPv4 address. -/
def dotted (ip : Ipv4Addr) : List UInt8 :=
  numeral_text 10 false ip.one.toNat ++ 46 :: numeral_text 10 false ip.two.toNat ++
    46 :: numeral_text 10 false ip.three.toNat ++ 46 :: numeral_text 10 false ip.four.toNat

/-- The address is that of an IPv4 node. -/
def Mapped (ip : Ipv6Addr) (ipv4 : Ipv4Addr) : Prop :=
  ip.segments = [0, 0, 0, 0, 0, 0xffff] ++ ipv4_groups ipv4

/-- The canonical text of an address: `::` stands for the first longest run of zero groups, if
there is one of at least two groups, and only mapped addresses are written with dots. -/
inductive Rfc5952 (ip : Ipv6Addr) : List UInt8 → Prop
  | mapped {ipv4 : Ipv4Addr} (h : Mapped ip ipv4) : Rfc5952 ip (bytes "::ffff:" ++ dotted ipv4)
  | compressed {start len : ℕ} (hmapped : ∀ ipv4, ¬ Mapped ip ipv4)
      (h : IsFirstLongest (· = 0) ip.segments start len) (hlen : 2 ≤ len) :
      Rfc5952 ip (join_groups (ip.segments.take start) ++ bytes "::" ++
        join_groups (ip.segments.drop (start + len)))
  | full (hmapped : ∀ ipv4, ¬ Mapped ip ipv4)
      (h : ∀ start len, IsRun (· = 0) ip.segments start len → len < 2) :
      Rfc5952 ip (join_groups ip.segments)

/-! ## The buffer -/

variable {t : List UInt8}

/-- Pieces that fit are written one after the other. -/
theorem foldlM_write_str {b : DisplayBuffer} (pieces : Pieces)
    (hlen : t.length = b.len) (hfit : b.len + pieces.flatten.length ≤ b.buf.length)
    (hbuf : b.buf.take b.len = t.map some) :
    ∃ b', pieces.foldlM DisplayBuffer.write_str b = some b' ∧ b'.buf.length = b.buf.length ∧
      b'.len = (t ++ pieces.flatten).length ∧
      b'.buf.take b'.len = (t ++ pieces.flatten).map some := by
  induction pieces generalizing b t with
  | nil => exact ⟨b, rfl, rfl, by simp [hlen], by simpa using hbuf⟩
  | cons piece pieces ih =>
    rw [flatten_cons, length_append] at hfit
    have htake : (splice b.buf b.len piece).take (b.len + piece.length) =
        (t ++ piece).map some := by
      have hleft : (b.buf.take b.len ++ piece.map some).length = b.len + piece.length := by
        rw [length_append, length_take, length_map]
        omega
      rw [splice, ← hleft, take_left, hbuf, map_append]
    obtain ⟨b', hrun, hsize, hlen', htake'⟩ := ih
      (b := ⟨splice b.buf b.len piece, b.len + piece.length⟩) (t := t ++ piece)
      (by rw [length_append, hlen]) (by rw [length_splice (by omega)]; dsimp only; omega) htake
    refine ⟨b', ?_, ?_, ?_, ?_⟩
    · rw [foldlM_cons, DisplayBuffer.write_str, if_pos (by omega)]
      exact hrun
    · rw [hsize, length_splice (by omega)]
    · rw [hlen', flatten_cons, append_assoc]
    · rw [htake', flatten_cons, append_assoc]

/-- **The slow path** writes the same text, and its buffer is long enough for it. -/
theorem display_spec {LONGEST : String} {write : Exec Pieces} {pieces : Pieces}
    (hwrite : write = .ok pieces) (hlen : pieces.flatten.length ≤ (bytes LONGEST).length)
    (f : FormattingOptions) : display LONGEST write f = .ok (pad f pieces.flatten) := by
  have hsize : (DisplayBuffer.new (bytes LONGEST).length).buf.length = (bytes LONGEST).length :=
    length_replicate
  rw [display, hwrite, bind_ok]
  by_cases hf : f.precision.isNone ∧ f.width.isNone
  · rw [if_pos hf, pad, if_pos (by simp [hf])]
    rfl
  rw [if_neg hf]
  obtain ⟨b, hrun, hb, hblen, htake⟩ := foldlM_write_str
    (b := .new (bytes LONGEST).length) (t := []) pieces rfl
    (by rw [hsize, DisplayBuffer.new]; dsimp only; omega) rfl
  rw [nil_append] at hblen htake
  have hstr : b.as_str = .ok pieces.flatten := by
    rw [DisplayBuffer.as_str, if_pos (by omega), htake, assume_init_map]
  simp only [hrun, hstr, bind_ok]
  rfl

/-! ## Numbers and groups -/

theorem fmt_u8_eq (n : UInt8) : fmt_u8 n = .ok (numeral_text 10 false n.toNat) := by
  have hrange : IntType.InRange ⟨.w8, false⟩ n.toNat := by
    have := n.toNat_lt
    exact IntType.inRange_unsigned (t := ⟨.w8, false⟩) this
  rw [fmt_u8, Num.display_spec hrange, value_text, if_pos (Int.natCast_nonneg _),
    Int.natAbs_natCast]
  rfl

theorem fmt_u16_eq (n : UInt16) : fmt_u16 n = .ok (numeral_text 10 false n.toNat) := by
  have hrange : IntType.InRange ⟨.w16, false⟩ n.toNat := by
    have := n.toNat_lt
    exact IntType.inRange_unsigned (t := ⟨.w16, false⟩) this
  rw [fmt_u16, Num.display_spec hrange, value_text, if_pos (Int.natCast_nonneg _),
    Int.natAbs_natCast]
  rfl

theorem fmt_u32_eq (n : UInt32) : fmt_u32 n = .ok (numeral_text 10 false n.toNat) := by
  have hrange : IntType.InRange ⟨.w32, false⟩ n.toNat := by
    have := n.toNat_lt
    exact IntType.inRange_unsigned (t := ⟨.w32, false⟩) this
  rw [fmt_u32, Num.display_spec hrange, value_text, if_pos (Int.natCast_nonneg _),
    Int.natAbs_natCast]
  rfl

theorem fmt_hex_eq (n : UInt16) : fmt_hex n = .ok (hex_text n) := by
  have hlt := n.toNat_lt
  have hcast : IntType.cast_unsigned ⟨.w16, false⟩ n.toNat = n.toNat := by
    have hmod : (n.toNat : ℤ) % 2 ^ Width.bits .w16 = n.toNat := by
      change (n.toNat : ℤ) % 2 ^ 16 = n.toNat
      omega
    rw [IntType.cast_unsigned, hmod, Int.toNat_natCast]
  have htext := radix_integer_spec false (bytes "0x")
    (bytes "0123456789abcdef") (by decide) (by decide) ⟨.w16, false⟩ n.toNat
  rw [hcast] at htext
  exact htext

/-- A number of at most `k` digits takes at most `k` characters. -/
theorem length_numeral_text_le {b n k : ℕ} (hb : 1 < b) (hk : 0 < k) (h : n < b ^ k) :
    (numeral_text b false n).length ≤ k := by
  rw [numeral_text, length_map]
  exact length_numeral_le hb hk h

theorem octet_numeral_text (n : UInt8) : Octet (numeral_text 10 false n.toNat) n := by
  have hcanonical := @canonical_numeral_text 10 (by decide) (by decide) false n.toNat
  exact ⟨hcanonical.ne_nil, number_numeral_text (by decide) (by decide) false _,
    fun h => by rw [hcanonical.zero h]; rfl⟩

theorem hextet_hex_text (g : UInt16) : Hextet (hex_text g) g :=
  ⟨(canonical_numeral_text (by decide) (by decide) false _).ne_nil,
    length_numeral_text_le (by decide) (by decide) (by have := g.toNat_lt; omega),
    number_numeral_text (by decide) (by decide) false _⟩

theorem ipv4Text_dotted (ip : Ipv4Addr) : Ipv4Text (dotted ip) ip :=
  ⟨_, _, _, _, rfl, octet_numeral_text _, octet_numeral_text _, octet_numeral_text _,
    octet_numeral_text _⟩

theorem ipv4_write_eq (ip : Ipv4Addr) :
    ∃ pieces, ip.write = .ok pieces ∧ pieces.flatten = dotted ip := by
  refine ⟨_, by simp only [Ipv4Addr.write, fmt_u8_eq, bind_ok]; rfl, ?_⟩
  simp [dotted]

variable (gs : List UInt16)
include gs

theorem fmt_tail_eq : ∃ pieces, fmt_tail gs = .ok pieces ∧
      pieces.flatten = gs.flatMap fun h => 58 :: hex_text h := by
  induction gs with
  | nil => exact ⟨[], rfl, rfl⟩
  | cons g gs ih =>
    obtain ⟨pieces, hrun, hflat⟩ := ih
    refine ⟨[58] :: hex_text g :: pieces, ?_, ?_⟩
    · rw [fmt_tail, fmt_hex_eq, bind_ok, hrun, bind_ok]
      rfl
    · rw [flatten_cons, flatten_cons, hflat, flatMap_cons]
      rfl

theorem fmt_subslice_eq :
    ∃ pieces, fmt_subslice gs = .ok pieces ∧ pieces.flatten = join_groups gs := by
  cases gs with
  | nil => exact ⟨[], rfl, rfl⟩
  | cons g gs =>
    obtain ⟨pieces, hrun, hflat⟩ := fmt_tail_eq gs
    refine ⟨hex_text g :: pieces, ?_, ?_⟩
    · rw [fmt_subslice, fmt_hex_eq, bind_ok, hrun, bind_ok]
      rfl
    · rw [flatten_cons, hflat, join_groups]

theorem groups_tail : Groups false false (gs.flatMap fun h => 58 :: hex_text h) gs := by
  induction gs with
  | nil => exact .nil false
  | cons g gs ih =>
    rw [flatMap_cons]
    exact .hex (hextet_hex_text g) ih

theorem groups_join_groups : Groups true false (join_groups gs) gs := by
  cases gs with
  | nil => exact .nil true
  | cons g gs => exact .hex (hextet_hex_text g) (groups_tail gs)

theorem length_join_groups_le : (join_groups gs).length ≤ 5 * gs.length - 1 := by
  have hlen (g : UInt16) : (hex_text g).length ≤ 4 := (hextet_hex_text g).2.1
  have htail (gs : List UInt16) :
      (gs.flatMap fun h => 58 :: hex_text h).length ≤ 5 * gs.length := by
    induction gs with
    | nil => simp
    | cons g gs ih =>
      have := hlen g
      rw [flatMap_cons, length_append, length_cons, length_cons]
      omega
  cases gs with
  | nil => simp [join_groups]
  | cons g gs =>
    have := hlen g
    have := htail gs
    rw [join_groups, length_append, length_cons]
    omega

omit gs

/-! ## Mapped addresses -/

theorem from_be_bytes_octets (s : UInt16) :
    from_be_bytes (s.toNat / 256).toUInt8 s.toNat.toUInt8 = s := by
  have hlt := s.toNat_lt
  apply UInt16.toNat_inj.mp
  rw [from_be_bytes, UInt16.toNat_ofNat_of_lt']
  · simp only [toUInt8_eq, UInt8.toNat_ofNat']
    omega
  · have := (s.toNat / 256).toUInt8.toNat_lt
    have := s.toNat.toUInt8.toNat_lt
    rw [UInt16.size]
    omega

theorem octets_from_be_bytes (a b : UInt8) :
    ((from_be_bytes a b).toNat / 256).toUInt8 = a ∧ (from_be_bytes a b).toNat.toUInt8 = b := by
  have ha := a.toNat_lt
  have hb := b.toNat_lt
  have hnat : (from_be_bytes a b).toNat = a.toNat * 256 + b.toNat :=
    UInt16.toNat_ofNat_of_lt' (by rw [UInt16.size]; omega)
  rw [hnat]
  constructor <;> apply UInt8.toNat_inj.mp <;>
    simp only [toUInt8_eq, UInt8.toNat_ofNat'] <;> omega

variable {ip : Ipv6Addr}

theorem to_ipv4_mapped_eq_some {ipv4 : Ipv4Addr} :
    ip.to_ipv4_mapped = some ipv4 ↔ Mapped ip ipv4 := by
  constructor
  · intro h
    rw [Ipv6Addr.to_ipv4_mapped] at h
    split at h
    · next a b c d hoctets =>
      cases h
      have hsegments := ip.length_eq
      rw [Ipv6Addr.octets] at hoctets
      rw [Mapped]
      generalize ip.segments = segments at hoctets hsegments
      match segments, hsegments with
      | [s₀, s₁, s₂, s₃, s₄, s₅, s₆, s₇], _ =>
        simp only [flatMap_cons, flatMap_nil, cons_append, nil_append, cons.injEq] at hoctets
        obtain ⟨h₀, h0', h₁, h1', h₂, h2', h₃, h3', h₄, h4', h₅, h5', h₆, h6', h₇, h7', -⟩ :=
          hoctets
        rw [← from_be_bytes_octets s₀, ← from_be_bytes_octets s₁, ← from_be_bytes_octets s₂,
          ← from_be_bytes_octets s₃, ← from_be_bytes_octets s₄, ← from_be_bytes_octets s₅,
          ← from_be_bytes_octets s₆, ← from_be_bytes_octets s₇, h₀, h0', h₁, h1', h₂, h2', h₃, h3',
          h₄, h4', h₅, h5', h₆, h6', h₇, h7']
        rfl
    · cases h
  · intro h
    obtain ⟨a, b, c, d⟩ := ipv4
    have hoctets : ip.octets = [0, 0, 0, 0, 0, 0, 0, 0, 0, 0, 0xff, 0xff, a, b, c, d] := by
      rw [Ipv6Addr.octets, h]
      simp only [ipv4_groups, flatMap_append, flatMap_cons, flatMap_nil,
        (octets_from_be_bytes a b).1, (octets_from_be_bytes a b).2, (octets_from_be_bytes c d).1,
        (octets_from_be_bytes c d).2]
      rfl
    rw [Ipv6Addr.to_ipv4_mapped, hoctets]
    rfl

/-! ## IPv6 addresses -/

/-- The turn at a zero group: the run at the end grows. -/
theorem longest_zeroes_zero (rest : List UInt16) (i : ℕ) (longest current : Span) :
    longest_zeroes (0 :: rest) i longest current = if current.len + 1 > longest.len then
        longest_zeroes rest (i + 1) ⟨if current.len = 0 then i else current.start, current.len + 1⟩
          ⟨if current.len = 0 then i else current.start, current.len + 1⟩
      else longest_zeroes rest (i + 1) longest
        ⟨if current.len = 0 then i else current.start, current.len + 1⟩ := by
  rw [longest_zeroes, if_pos rfl]
  by_cases h : current.len = 0 <;> simp [h]

/-- The loop finds the first longest run of zero groups. -/
theorem longest_zeroes_spec (rest : List UInt16) {seen : List UInt16} (longest current : Span)
    (hlongest : IsFirstLongest (· = 0) seen longest.start longest.len)
    (hcurrent : IsLast (· = 0) seen current.start current.len) :
    IsFirstLongest (· = 0) (seen ++ rest) (longest_zeroes rest seen.length longest current).start
      (longest_zeroes rest seen.length longest current).len := by
  induction rest generalizing seen longest current with
  | nil => simpa [longest_zeroes] using hlongest
  | cons segment rest ih =>
    have hlen : (seen ++ [segment]).length = seen.length + 1 := by simp
    rw [append_cons]
    by_cases hzero : segment = 0
    · have hlast := hcurrent.concat hzero
      subst hzero
      rw [longest_zeroes_zero]
      split
      · next hlt =>
        have := ih ⟨_, _⟩ ⟨_, _⟩ (hlongest.concat_of_lt hlast hlt) hlast
        rwa [hlen] at this
      · next hle =>
        have := ih _ ⟨_, _⟩ (hlongest.concat_of_le hlast (Nat.le_of_not_lt hle)) hlast
        rwa [hlen] at this
    · have hlast : IsLast (· = 0) (seen ++ [segment]) 0 0 := isLast_concat_of_not hzero
      have := ih longest ⟨0, 0⟩
        (hlongest.concat_of_le hlast (zero_le _)) hlast
      rw [longest_zeroes, if_neg hzero]
      rwa [hlen] at this

/-- **The canonical form** is what is written. -/
theorem ipv6_write_eq (ip : Ipv6Addr) :
    ∃ pieces, ip.write = .ok pieces ∧ Rfc5952 ip pieces.flatten := by
  rw [Ipv6Addr.write]
  cases hmapped : ip.to_ipv4_mapped with
  | some ipv4 =>
    obtain ⟨pieces, hrun, hflat⟩ := ipv4_write_eq ipv4
    refine ⟨bytes "::ffff:" :: pieces, by simp only [hrun, bind_ok]; rfl, ?_⟩
    rw [flatten_cons, hflat]
    exact .mapped (to_ipv4_mapped_eq_some.mp hmapped)
  | none =>
    have hnot : ∀ ipv4, ¬ Mapped ip ipv4 := by
      intro ipv4 h
      rw [to_ipv4_mapped_eq_some.mpr h] at hmapped
      cases hmapped
    have hspec := longest_zeroes_spec ip.segments ⟨0, 0⟩ ⟨0, 0⟩
      isFirstLongest_nil isLast_nil
    rw [nil_append, length_nil] at hspec
    by_cases hlen : (longest_zeroes ip.segments 0 ⟨0, 0⟩ ⟨0, 0⟩).len > 1
    · obtain ⟨first, hfirst, hflat⟩ := fmt_subslice_eq
        (ip.segments.take (longest_zeroes ip.segments 0 ⟨0, 0⟩ ⟨0, 0⟩).start)
      obtain ⟨last, hlast, hflat'⟩ := fmt_subslice_eq
        (ip.segments.drop ((longest_zeroes ip.segments 0 ⟨0, 0⟩ ⟨0, 0⟩).start +
          (longest_zeroes ip.segments 0 ⟨0, 0⟩ ⟨0, 0⟩).len))
      rw [if_pos hlen, hfirst, bind_ok, hlast, bind_ok]
      refine ⟨_, rfl, ?_⟩
      rw [flatten_append, flatten_cons, hflat, hflat', ← append_assoc]
      exact .compressed hnot hspec hlen
    · obtain ⟨pieces, hrun, hflat⟩ := fmt_subslice_eq ip.segments
      rw [if_neg hlen]
      refine ⟨pieces, hrun, ?_⟩
      rw [hflat]
      refine .full hnot fun start len hrun' => ?_
      rcases Nat.eq_zero_or_pos len with rfl | hpos
      · decide
      · have := (hspec.2 start len hrun' hpos).1
        omega

theorem bytes_mapped : bytes "::ffff:" = 58 :: 58 :: (bytes "ffff" ++ [58]) := by decide

theorem bytes_colons : bytes "::" = [58, 58] := by decide

/-- A canonical text is one of the grammar. -/
theorem Rfc5952.ipv6Text (h : Rfc5952 ip t) : Ipv6Text t ip := by
  cases h with
  | @mapped ipv4 h =>
    have hffff : Hextet (bytes "ffff") 0xffff := ⟨by decide, by decide, by decide⟩
    have hgroups : Groups true true (bytes "ffff" ++ (58 :: dotted ipv4))
        (0xffff :: ipv4_groups ipv4) :=
      .hex hffff (@Groups.v4 false _ _ (ipv4Text_dotted ipv4))
    refine .inr ⟨[], [], true, _, _, ?_, .nil true, hgroups, le_of_ble_eq_true rfl, ?_⟩
    · rw [bytes_mapped]
      simp
    · rw [h]
      rfl
  | @compressed start len hmapped h hlen =>
    have hbound := h.1.1
    have hsegments := ip.length_eq
    refine .inr ⟨_, _, false, _, _, ?_, groups_join_groups (ip.segments.take start),
      groups_join_groups (ip.segments.drop (start + len)), ?_, ?_⟩
    · rw [bytes_colons, append_assoc]
      rfl
    · rw [length_take, length_drop]
      omega
    · have hgap : 8 - ((ip.segments.take start).length +
          (ip.segments.drop (start + len)).length) = len := by
        rw [length_take, length_drop]
        omega
      rw [hgap]
      exact h.1.eq_append
  | full => exact .inl ⟨false, groups_join_groups _⟩

theorem Rfc5952.length_le (h : Rfc5952 ip t) : t.length ≤ 39 := by
  have hsegments := ip.length_eq
  cases h with
  | @mapped ipv4 =>
    have := (ipv4Text_dotted ipv4).length_le
    rw [bytes_mapped, length_append, show
      (58 :: 58 :: (bytes "ffff" ++ [58]) : List UInt8).length = 7 by decide]
    omega
  | @compressed start len hmapped h hlen =>
    have hbound := h.1.1
    have hfirst := length_join_groups_le (ip.segments.take start)
    have hlast := length_join_groups_le (ip.segments.drop (start + len))
    rw [length_take] at hfirst
    rw [length_drop] at hlast
    rw [bytes_colons, length_append, length_append, length_cons, length_singleton]
    omega
  | full =>
    have := length_join_groups_le ip.segments
    omega

/-! ## Every address type -/

/-- Whatever the width and the precision, it is `text` that is written, padded. -/
def Displays (fmt : FormattingOptions → Exec (List UInt8)) (text : List UInt8) : Prop :=
  ∀ f, fmt f = .ok (pad f text)

theorem ipv4_displays (ip : Ipv4Addr) : Displays ip.fmt (dotted ip) := by
  obtain ⟨pieces, hrun, hflat⟩ := ipv4_write_eq ip
  intro f
  rw [← hflat]
  refine display_spec hrun ?_ f
  rw [hflat]
  exact (ipv4Text_dotted ip).length_le

theorem ipv6_displays (ip : Ipv6Addr) : ∃ text, Displays ip.fmt text ∧ Rfc5952 ip text := by
  obtain ⟨pieces, hrun, hform⟩ := ipv6_write_eq ip
  have hlen : pieces.flatten.length ≤ (bytes "ffff:ffff:ffff:ffff:ffff:ffff:ffff:ffff").length :=
    hform.length_le
  exact ⟨_, fun f => display_spec hrun hlen f, hform⟩

theorem port_text (port : UInt16) : Port (58 :: numeral_text 10 false port.toNat) port :=
  ⟨_, rfl, (canonical_numeral_text (by decide) (by decide) false _).ne_nil,
    number_numeral_text (by decide) (by decide) false _⟩

theorem length_port_le (port : UInt16) : (numeral_text 10 false port.toNat).length ≤ 5 :=
  length_numeral_text_le (by decide) (by decide) (by have := port.toNat_lt; omega)

theorem socketV4_displays (addr : SocketAddrV4) :
    ∃ text, Displays addr.fmt text ∧ SocketV4Text text addr := by
  obtain ⟨pieces, hrun, hflat⟩ := ipv4_write_eq addr.ip
  have hwrite : addr.write = .ok (pieces ++ [[58], numeral_text 10 false addr.port.toNat]) := by
    rw [SocketAddrV4.write, hrun, bind_ok, fmt_u16_eq, bind_ok]
    rfl
  have htext : (pieces ++ [[58], numeral_text 10 false addr.port.toNat]).flatten =
      dotted addr.ip ++ 58 :: numeral_text 10 false addr.port.toNat := by
    rw [flatten_append, hflat]
    simp
  refine ⟨_, fun f => display_spec hwrite ?_ f, ?_⟩
  · have := (ipv4Text_dotted addr.ip).length_le
    have := length_port_le addr.port
    rw [htext, length_append, length_cons]
    change _ ≤ 21
    omega
  · rw [htext]
    exact ⟨_, _, rfl, ipv4Text_dotted addr.ip, port_text addr.port⟩

/-- The length of the longest text. -/
theorem length_longest_v6 :
    (bytes "[ffff:ffff:ffff:ffff:ffff:ffff:ffff:ffff%4294967295]:65535").length = 58 := by
  rw [bytes_ofList]
  rfl

theorem socketV6_displays {addr : SocketAddrV6} (hflow : addr.flowinfo = 0) :
    ∃ text, Displays addr.fmt text ∧ SocketV6Text text addr := by
  obtain ⟨pieces, hrun, hform⟩ := ipv6_write_eq addr.ip
  have hip := hform.length_le
  have hport := length_port_le addr.port
  by_cases hscope : addr.scope_id = 0
  · have hwrite : addr.write = .ok ([91] :: pieces ++
        [bytes "]:", numeral_text 10 false addr.port.toNat]) := by
      rw [SocketAddrV6.write, if_pos hscope, hrun, bind_ok, fmt_u16_eq, bind_ok]
      rfl
    have htext : ([91] :: pieces ++ [bytes "]:", numeral_text 10 false addr.port.toNat]).flatten =
        91 :: pieces.flatten ++ [] ++ 93 :: 58 :: numeral_text 10 false addr.port.toNat := by
      rw [show bytes "]:" = [93, 58] by decide]
      simp
    refine ⟨_, fun f => display_spec hwrite ?_ f, ?_⟩
    · rw [htext, length_longest_v6]
      simp only [length_append, length_cons, length_nil]
      omega
    · rw [htext]
      exact ⟨_, _, _, rfl, hform.ipv6Text, .inr ⟨rfl, hscope⟩, port_text addr.port, hflow⟩
  · have hnum : (numeral_text 10 false addr.scope_id.toNat).length ≤ 10 :=
      length_numeral_text_le (by decide) (by decide) (by have := addr.scope_id.toNat_lt; omega)
    have hwrite : addr.write = .ok ([91] :: pieces ++ [[37],
        numeral_text 10 false addr.scope_id.toNat, bytes "]:",
        numeral_text 10 false addr.port.toNat]) := by
      rw [SocketAddrV6.write, if_neg hscope, hrun, bind_ok, fmt_u32_eq, bind_ok,
        fmt_u16_eq, bind_ok]
      rfl
    have htext : ([91] :: pieces ++ [[37], numeral_text 10 false addr.scope_id.toNat, bytes "]:",
        numeral_text 10 false addr.port.toNat]).flatten =
        91 :: pieces.flatten ++ 37 :: numeral_text 10 false addr.scope_id.toNat ++
          93 :: 58 :: numeral_text 10 false addr.port.toNat := by
      rw [show bytes "]:" = [93, 58] by decide]
      simp
    refine ⟨_, fun f => display_spec hwrite ?_ f, ?_⟩
    · rw [htext, length_longest_v6]
      simp only [length_append, length_cons]
      omega
    · rw [htext]
      exact ⟨_, _, _, rfl, hform.ipv6Text,
        .inl ⟨_, rfl, (canonical_numeral_text (by decide) (by decide) false _).ne_nil,
          number_numeral_text (by decide) (by decide) false _⟩, port_text addr.port, hflow⟩

/-- **Printing and parsing addresses**: every address has one text, written also when it is
padded, and the text parses back to the address. That of an IPv6 address is canonical. A flow
label is not written, so a socket address is one without. -/
theorem display_and_parse :
    (∀ ip : Ipv4Addr, ∃ text, Displays ip.fmt text ∧ Ipv4Addr.parse_ascii text = .ok (.ok ip)) ∧
      (∀ ip : Ipv6Addr, ∃ text, Displays ip.fmt text ∧ Rfc5952 ip text ∧
        Ipv6Addr.parse_ascii text = .ok (.ok ip)) ∧
      (∀ ip : IpAddr, ∃ text, Displays ip.fmt text ∧ IpAddr.parse_ascii text = .ok (.ok ip)) ∧
      (∀ addr : SocketAddrV4, ∃ text, Displays addr.fmt text ∧
        SocketAddrV4.parse_ascii text = .ok (.ok addr)) ∧
      (∀ addr : SocketAddrV6, addr.flowinfo = 0 → ∃ text, Displays addr.fmt text ∧
        SocketAddrV6.parse_ascii text = .ok (.ok addr)) ∧
      (∀ addr : SocketAddr, (∀ addr6, addr = .V6 addr6 → addr6.flowinfo = 0) →
        ∃ text, Displays addr.fmt text ∧ SocketAddr.parse_ascii text = .ok (.ok addr)) := by
  have hsocket := parses_parse_with read_socket_addr_reads (noDigit_nil 10) .Socket
  have hip := parses_parse_with read_ip_addr_reads ipv6Stop_nil .Ip
  refine ⟨fun ip => ?_, fun ip => ?_, fun ip => ?_, fun addr => ?_, fun addr hflow => ?_,
    fun addr hflow => ?_⟩
  · exact ⟨_, ipv4_displays ip, ((ipv4_parses _).1 ip).mpr (ipv4Text_dotted ip)⟩
  · obtain ⟨text, hdisplay, hform⟩ := ipv6_displays ip
    exact ⟨text, hdisplay, hform,
      ((parses_parse_with read_ipv6_addr_reads ipv6Stop_nil _ _).1 ip).mpr hform.ipv6Text⟩
  · cases ip with
    | V4 ip => exact ⟨_, ipv4_displays ip, ((hip _).1 (.V4 ip)).mpr (ipv4Text_dotted ip)⟩
    | V6 ip =>
      obtain ⟨text, hdisplay, hform⟩ := ipv6_displays ip
      exact ⟨text, hdisplay, ((hip _).1 (.V6 ip)).mpr hform.ipv6Text⟩
  · obtain ⟨text, hdisplay, htext⟩ := socketV4_displays addr
    exact ⟨text, hdisplay,
      ((parses_parse_with read_socket_addr_v4_reads (noDigit_nil 10) _ _).1 addr).mpr htext⟩
  · obtain ⟨text, hdisplay, htext⟩ := socketV6_displays hflow
    exact ⟨text, hdisplay,
      ((parses_parse_with read_socket_addr_v6_reads (noDigit_nil 10) _ _).1 addr).mpr htext⟩
  · cases addr with
    | V4 addr =>
      obtain ⟨text, hdisplay, htext⟩ := socketV4_displays addr
      exact ⟨text, hdisplay, ((hsocket _).1 (.V4 addr)).mpr htext⟩
    | V6 addr =>
      obtain ⟨text, hdisplay, htext⟩ := socketV6_displays (hflow addr rfl)
      exact ⟨text, hdisplay, ((hsocket _).1 (.V6 addr)).mpr htext⟩

/-- A socket address with a scope. -/
theorem display_and_parse_scope :
    ∃ text, Displays (SocketAddrV6.fmt ⟨⟨[0xfe80, 0, 0, 0, 0, 0, 0, 1], rfl⟩, 80, 0, 3⟩) text ∧
      SocketAddrV6.parse_ascii text = .ok (.ok ⟨⟨[0xfe80, 0, 0, 0, 0, 0, 0, 1], rfl⟩, 80, 0, 3⟩) :=
  display_and_parse.2.2.2.2.1 _ rfl

end RustStd.Net
