import RustStd.Net.Parser

/-!
# The textual forms of addresses

The grammar that the parser is held to, with the value that each text denotes. Digits are those
of `Num.digit`, whose letters may be in either case.

* `Ipv4Text`: four `Octet`s, decimal numbers without a superfluous zero.
* `Groups`: hexadecimal groups with colons between them; the last two may be written as an IPv4
  address, and `embedded` says whether they are.
* `Ipv6Text`: eight groups, or at most seven with `::` for the others.
* `SocketV4Text`, `SocketV6Text`: an address with a port, in the second case in brackets and with
  an optional scope.
-/

namespace RustStd.Net

open RustStd.Num List Nat

/-- A decimal number up to 255, without a superfluous zero. -/
def Octet (t : List UInt8) (n : UInt8) : Prop :=
  t ≠ [] ∧ number 10 t = some n.toNat ∧ (t.head? = some 48 → t.length = 1)

/-- Four octets, with dots between them. -/
def Ipv4Text (t : List UInt8) (ip : Ipv4Addr) : Prop :=
  ∃ t1 t2 t3 t4, t = t1 ++ 46 :: t2 ++ 46 :: t3 ++ 46 :: t4 ∧
    Octet t1 ip.one ∧ Octet t2 ip.two ∧ Octet t3 ip.three ∧ Octet t4 ip.four

/-- One to four hexadecimal digits. -/
def Hextet (t : List UInt8) (g : UInt16) : Prop :=
  t ≠ [] ∧ t.length ≤ 4 ∧ number 16 t = some g.toNat

/-- An IPv4 address in the place of two groups. -/
def ipv4_groups (ip : Ipv4Addr) : List UInt16 :=
  [from_be_bytes ip.one ip.two, from_be_bytes ip.three ip.four]

/-- The colon before every group but the first. -/
def colon (first : Bool) : List UInt8 := if first then [] else [58]

/-- Groups with colons between them, of which there may be none. -/
inductive Groups : (first embedded : Bool) → List UInt8 → List UInt16 → Prop
  | nil (first : Bool) : Groups first false [] []
  | hex {first embedded : Bool} {t ts : List UInt8} {g : UInt16} {gs : List UInt16}
      (h : Hextet t g) (hs : Groups false embedded ts gs) :
      Groups first embedded (colon first ++ t ++ ts) (g :: gs)
  | v4 {first : Bool} {t : List UInt8} {ip : Ipv4Addr} (h : Ipv4Text t ip) :
      Groups first true (colon first ++ t) (ipv4_groups ip)

/-- Eight groups, or fewer with `::`, which stands for at least one zero group and has no
embedded address before it. -/
def Ipv6Text (t : List UInt8) (ip : Ipv6Addr) : Prop :=
  (∃ embedded, Groups true embedded t ip.segments) ∨
    ∃ h hs embedded u us, t = h ++ 58 :: 58 :: u ∧ Groups true false h hs ∧
      Groups true embedded u us ∧ hs.length + us.length ≤ 7 ∧
      ip.segments = hs ++ replicate (8 - (hs.length + us.length)) 0 ++ us

def IpText (t : List UInt8) : IpAddr → Prop
  | .V4 ip => Ipv4Text t ip
  | .V6 ip => Ipv6Text t ip

/-- A decimal number of 16 bits after a colon. -/
def Port (t : List UInt8) (port : UInt16) : Prop :=
  ∃ ds, t = 58 :: ds ∧ ds ≠ [] ∧ number 10 ds = some port.toNat

/-- A decimal number of 32 bits after a percent sign, or nothing for zero. -/
def Scope (t : List UInt8) (scope_id : UInt32) : Prop :=
  (∃ ds, t = 37 :: ds ∧ ds ≠ [] ∧ number 10 ds = some scope_id.toNat) ∨ (t = [] ∧ scope_id = 0)

def SocketV4Text (t : List UInt8) (addr : SocketAddrV4) : Prop :=
  ∃ t1 t2, t = t1 ++ t2 ∧ Ipv4Text t1 addr.ip ∧ Port t2 addr.port

def SocketV6Text (t : List UInt8) (addr : SocketAddrV6) : Prop :=
  ∃ t1 t2 t3, t = 91 :: t1 ++ t2 ++ 93 :: t3 ∧ Ipv6Text t1 addr.ip ∧ Scope t2 addr.scope_id ∧
    Port t3 addr.port ∧ addr.flowinfo = 0

def SocketText (t : List UInt8) : SocketAddr → Prop
  | .V4 addr => SocketV4Text t addr
  | .V6 addr => SocketV6Text t addr

/-! ## Digits and numbers -/

theorem digit_mono {b b' d : ℕ} (h : b ≤ b') {c : UInt8} (hd : digit b c = some d) :
    digit b' c = some d := by
  rw [digit_eq_some] at hd ⊢
  exact ⟨hd.1, by omega⟩

/-- A text of digits of one radix is one of every larger radix. -/
theorem exists_number_mono {b b' n : ℕ} (h : b ≤ b') {ds : List UInt8}
    (hn : number b ds = some n) : ∃ m, number b' ds = some m := by
  induction ds using reverseRecOn generalizing n with
  | nil => exact ⟨0, rfl⟩
  | append_singleton ds c ih =>
    obtain ⟨k, d, hk, hd, -⟩ := number_concat_eq_some.mp hn
    obtain ⟨m, hm⟩ := ih hk
    exact ⟨_, number_concat_eq_some.mpr ⟨m, d, hm, digit_mono h hd, rfl⟩⟩

/-- A number is at least the power of its first digit. -/
theorem le_number_cons {radix n d : ℕ} {c : UInt8} {ds : List UInt8}
    (hd : digit radix c = some d) (hn : number radix (c :: ds) = some n) :
    d * radix ^ ds.length ≤ n := by
  induction ds using reverseRecOn generalizing n with
  | nil =>
    have hone : number radix ([] ++ [c]) = some n := hn
    obtain ⟨m, e, hm, he, rfl⟩ := number_concat_eq_some.mp hone
    cases hm
    rw [hd, Option.some.injEq] at he
    simp [he]
  | append_singleton ds e ih =>
    rw [← cons_append, number_concat_eq_some] at hn
    obtain ⟨m, x, hm, -, rfl⟩ := hn
    rw [length_append, length_singleton, pow_succ, ← mul_assoc]
    exact (mul_le_mul_right radix (ih hm)).trans (le_add_right _ _)

theorem eq_zero_of_digit {radix : ℕ} {c : UInt8} (h : digit radix c = some 0) : c = 48 := by
  have hvalue := (digit_eq_some.mp h).1
  rw [digit_value] at hvalue
  have htoNat : c.toNat = 48 := by grind
  exact UInt8.toNat_inj.mp htoNat

/-- An octet has at most three digits. -/
theorem Octet.length_le {t : List UInt8} {n : UInt8} (h : Octet t n) : t.length ≤ 3 := by
  obtain ⟨-, hn, hzero⟩ := h
  cases t with
  | nil => simp
  | cons c ds =>
    obtain ⟨m, hm, -⟩ := number_append (by decide) ds (show number 10 ([c] ++ ds) = _ from hn)
    have hc : digit 10 c ≠ none := by
      intro hc
      rw [show [c] = [] ++ [c] from rfl, number_concat_eq_some] at hm
      obtain ⟨-, d, -, hd, -⟩ := hm
      rw [hc] at hd
      cases hd
    obtain ⟨d, hd⟩ := Option.ne_none_iff_exists'.mp hc
    rcases Nat.eq_zero_or_pos d with rfl | hpos
    · have := hzero (congrArg some (eq_zero_of_digit hd))
      omega
    have hle := le_number_cons hd hn
    have hlt := n.toNat_lt
    have hpow : 10 ^ ds.length < 10 ^ 3 := by
      have := Nat.le_mul_of_pos_left (10 ^ ds.length) hpos
      omega
    have := (Nat.pow_lt_pow_iff_right (by decide : 1 < 10)).mp hpow
    rw [length_cons]
    omega

/-- An IPv4 address takes at most 15 characters. -/
theorem Ipv4Text.length_le {t : List UInt8} {ip : Ipv4Addr} (h : Ipv4Text t ip) :
    t.length ≤ 15 := by
  obtain ⟨t1, t2, t3, t4, rfl, h1, h2, h3, h4⟩ := h
  have := h1.length_le
  have := h2.length_le
  have := h3.length_le
  have := h4.length_le
  simp only [length_append, length_cons]
  omega

end RustStd.Net
