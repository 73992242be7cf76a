import RustStd.Fmt.Buffer
import RustStd.Fmt.Formatter
import RustStd.Num.FromAscii

/-!
# Printing integers

The text of an integer is built in a buffer of a fixed size, from its end. `Display` writes
decimal digits by pairs and quadruples from a table; 128-bit numbers are first cut into pieces
of 16 digits, by a division that is a multiplication. The other formats write one digit of their
table at a time. `display_spec` and `radix_integer_spec` state that the text is the numeral of
the value, so that no write leaves the buffer; `numeral_text_parses` that parsing inverts it.
-/

namespace RustStd.Num

open Digits Fmt List

/-! ## The code -/

def DECIMAL_PAIRS : List UInt8 :=
  bytes ("0001020304050607080910111213141516171819" ++ "2021222324252627282930313233343536373839" ++
    "4041424344454647484950515253545556575859" ++
    "6061626364656667686970717273747576777879" ++
    "8081828384858687888990919293949596979899")

/-- `xs[i]` -/
def index (xs : List UInt8) (i : ℕ) : Exec UInt8 :=
  match xs[i]? with
  | some b => .ok b
  | none => .error .panic

/-- Write the two digits of `pair`. -/
def write_pair (buf : Buffer) (offset pair : ℕ) : Exec Buffer := do
  let buf ← write buf offset (← index DECIMAL_PAIRS (pair * 2))
  write buf (offset + 1) (← index DECIMAL_PAIRS (pair * 2 + 1))

/-- Write the four digits of `quad`. -/
def write_quad (buf : Buffer) (offset quad : ℕ) : Exec Buffer := do
  let buf ← write_pair buf offset (quad / 100)
  write_pair buf (offset + 2) (quad % 100)

/-- The loop that writes four digits a turn, on the offset, the rest of the number and the
buffer; `wide` is whether the type has numbers of four digits. -/
def write_quads (wide : Bool) : ℕ → ℕ → Buffer → Exec (ℕ × ℕ × Buffer)
  | offset + 4, remain, buf =>
    if wide ∧ remain > 999 then do
      assert_unchecked (offset + 4 ≤ buf.length)
      let buf ← write_quad buf offset (remain % 10000)
      write_quads wide offset (remain / 10000) buf
    else .ok (offset + 4, remain, buf)
  | offset, remain, buf =>
    -- Fewer than four places are left.
    if wide ∧ remain > 999 then .error .fault else .ok (offset, remain, buf)

/-- The two digits after the loop. -/
def write_two (offset remain : ℕ) (buf : Buffer) : Exec (ℕ × ℕ × Buffer) :=
  if remain > 9 then do
    assert_unchecked (offset ≥ 2)
    assert_unchecked (offset ≤ buf.length)
    let buf ← write_pair buf (offset - 2) (remain % 100)
    return (offset - 2, remain / 100, buf)
  else .ok (offset, remain, buf)

/-- The last digit, if there is `more` to write. -/
def write_last (more : Bool) (offset remain : ℕ) (buf : Buffer) : Exec (ℕ × Buffer) :=
  if more then do
    assert_unchecked (offset ≥ 1)
    assert_unchecked (offset ≤ buf.length)
    let last := remain &&& 15
    let buf ← write buf (offset - 1) (← index DECIMAL_PAIRS (last * 2 + 1))
    return (offset - 1, buf)
  else .ok (offset, buf)

/-- `_fmt_inner` of the types up to 64 bits. -/
def fmt_inner (w : Width) (self : ℕ) (buf : Buffer) : Exec (ℕ × Buffer) := do
  let (offset, remain, buf) ← write_quads (w.bytes > 1) buf.length self buf
  let (offset, remain, buf) ← write_two offset remain buf
  write_last (remain ≠ 0 ∨ self = 0) offset remain buf

/-- `$Unsigned::MAX.ilog(base) + 1`: the digits of the largest number. -/
def max_digits (base : ℕ) (w : Width) : ℕ := Nat.log base (2 ^ w.bits - 1) + 1

def MAX_DEC_N (w : Width) : ℕ := max_digits 10 w

def U128_MAX_DEC_N : ℕ := MAX_DEC_N .w128

/-- The turns of the loop of `enc_16lsd`, for the given values of `quad_index`. -/
def enc_quads (OFFSET : ℕ) : List ℕ → ℕ → Buffer → Exec Buffer
  | [], _, buf => .ok buf
  | quad_index :: rest, remain, buf => do
    let buf ← write_quad buf (quad_index * 4 + OFFSET) (remain % 10000)
    enc_quads OFFSET rest (remain / 10000) buf

/-- `enc_16lsd`: the last 16 digits of `n`, from `OFFSET` on. -/
def enc_16lsd (OFFSET : ℕ) (buf : Buffer) (n : ℕ) : Exec Buffer :=
  enc_quads OFFSET [3, 2, 1, 0] n buf

/-- `div_rem_1e16`: the high half of the product, shifted, is the quotient. -/
def div_rem_1e16 (n : ℕ) : Exec (ℕ × ℕ) :=
  let D := 10000000000000000
  if n < D then .ok (0, n % 2 ^ 64)
  else
    let M_HIGH := 76624777043294442917917351357515459181
    let SH_POST := 51
    let quot := (n * M_HIGH / 2 ^ 128) >>> SH_POST
    if quot * D ≤ n then .ok (quot, (n - quot * D) % 2 ^ 64) else .error .fault

/-- `u128::_fmt_inner` -/
def u128_fmt_inner (self : ℕ) (buf : Buffer) : Exec (ℕ × Buffer) :=
  if self = 0 then do
    assert_unchecked (buf.length ≥ 1)
    let offset := buf.length - 1
    let buf ← write buf offset 48
    return (offset, buf)
  else do
    let (quot_1e16, mod_1e16) ← div_rem_1e16 self
    let (remain, offset, buf) ← ( if quot_1e16 = 0 then .ok (mod_1e16, U128_MAX_DEC_N, buf) else do
        let buf ← enc_16lsd (U128_MAX_DEC_N - 16) buf mod_1e16
        let (quot2, mod2) ← div_rem_1e16 quot_1e16
        if quot2 = 0 then .ok (mod2, U128_MAX_DEC_N - 16, buf)
        else do
          let buf ← enc_16lsd (U128_MAX_DEC_N - 32) buf mod2
          return (quot2 % 2 ^ 64, U128_MAX_DEC_N - 32, buf) : Exec (ℕ × ℕ × Buffer))
    let (offset, remain, buf) ← write_quads true offset remain buf
    let (offset, remain, buf) ← write_two offset remain buf
    write_last (remain ≠ 0) offset remain buf

/-- `$Unsigned::_fmt` -/
def fmt_digits (w : Width) (self : ℕ) (buf : Buffer) : Exec (List UInt8) := do
  let (offset, buf) ← ( match w with
    | .w128 => u128_fmt_inner self buf
    | w => fmt_inner w self buf)
  slice_buffer_to_str buf offset

/-- `Display::fmt` of an integer. -/
def Display.fmt (t : IntType) (self : ℤ) (f : FormattingOptions) : Exec (List UInt8) :=
  if t.signed then do
    let digits ← fmt_digits t.width (IntType.unsigned_abs self) (uninit (MAX_DEC_N t.width))
    return pad_integral f (self ≥ 0) [] digits
  else do
    let digits ← fmt_digits t.width self.toNat (uninit (MAX_DEC_N t.width))
    return pad_integral f true [] digits

/-- The loop of `radix_integer`, on the offset, the rest of the number and the buffer. -/
def radix_loop (DIG_TAB : List UInt8) : ℕ → ℕ → Buffer → Exec (ℕ × Buffer)
  | 0, _, _ => .error .fault
  | offset + 1, remain, buf => do
    let digit := remain % DIG_TAB.length
    let remain := remain / DIG_TAB.length
    assert_unchecked (offset < buf.length)
    let buf ← write buf offset (← index DIG_TAB digit)
    if remain = 0 then .ok (offset, buf) else radix_loop DIG_TAB offset remain buf

/-- `radix_integer!`: the formats that write the bit pattern. -/
def radix_integer (pre dig_tab : List UInt8) (t : IntType) (self : ℤ) (f : FormattingOptions) :
    Exec (List UInt8) := do
  let MAX_DIG_N := max_digits dig_tab.length t.width
  let (offset, buf) ← radix_loop dig_tab MAX_DIG_N (t.cast_unsigned self) (uninit MAX_DIG_N)
  let digits ← slice_buffer_to_str buf offset
  return pad_integral f true pre digits

def Binary.fmt : IntType → ℤ → FormattingOptions → Exec (List UInt8) :=
  radix_integer (bytes "0b") (bytes "01")

def Octal.fmt : IntType → ℤ → FormattingOptions → Exec (List UInt8) :=
  radix_integer (bytes "0o") (bytes "01234567")

def LowerHex.fmt : IntType → ℤ → FormattingOptions → Exec (List UInt8) :=
  radix_integer (bytes "0x") (bytes "0123456789abcdef")

def UpperHex.fmt : IntType → ℤ → FormattingOptions → Exec (List UInt8) :=
  radix_integer (bytes "0x") (bytes "0123456789ABCDEF")

/-! ## Texts of digits -/

/-- The character of a digit; letters follow the ten figures. -/
def ascii_digit (upper : Bool) (d : ℕ) : UInt8 :=
  if d < 10 then (48 + d).toUInt8 else ((if upper then 55 else 87) + d).toUInt8

/-- The text is of digits of the radix, at least one, and has no superfluous zero. -/
structure Canonical (radix : ℕ) (upper : Bool) (cs : List UInt8) : Prop where
  ne_nil : cs ≠ []
  digits : ∀ c ∈ cs, ∃ d < radix, c = ascii_digit upper d
  zero : cs.head? = some 48 → cs = [48]

/-- The text of a number. -/
def numeral_text (radix : ℕ) (upper : Bool) (n : ℕ) : List UInt8 :=
  (numeral radix n).map (ascii_digit upper)

private theorem digit_value_ascii_fin (upper : Bool) (d : Fin 36) :
    digit_value (ascii_digit upper d) = some d.val := by
  revert upper d
  decide +kernel

theorem digit_value_ascii_digit (upper : Bool) {d : ℕ} (h : d < 36) :
    digit_value (ascii_digit upper d) = some d :=
  digit_value_ascii_fin upper ⟨d, h⟩

theorem digit_ascii_digit {radix : ℕ} (h36 : radix ≤ 36) (upper : Bool) {d : ℕ} (h : d < radix) :
    digit radix (ascii_digit upper d) = some d :=
  digit_eq_some.mpr ⟨digit_value_ascii_digit upper (by lia), h⟩

theorem ascii_digit_inj {upper : Bool} {d e : ℕ} (hd : d < 36) (he : e < 36)
    (h : ascii_digit upper d = ascii_digit upper e) : d = e := by
  have := digit_value_ascii_digit upper hd
  rw [h, digit_value_ascii_digit upper he, Option.some.injEq] at this
  exact this.symm

theorem canonical_numeral_text {radix : ℕ} (h2 : 2 ≤ radix) (h36 : radix ≤ 36) (upper : Bool)
    (n : ℕ) : Canonical radix upper (numeral_text radix upper n) where
  ne_nil := by simpa [numeral_text] using numeral_ne_nil n
  digits := by
    intro c hc
    obtain ⟨d, hd, rfl⟩ := mem_map.mp hc
    exact ⟨d, lt_of_mem_numeral (by lia) hd, rfl⟩
  zero := by
    intro h
    rw [numeral_text, head?_map, Option.map_eq_some_iff] at h
    obtain ⟨d, hd, hzero⟩ := h
    have hlt : d < radix := lt_of_mem_numeral (by lia) (mem_of_head? hd)
    have hd0 : d = 0 := ascii_digit_inj (by lia) (by lia) hzero
    rw [hd0] at hd
    rw [numeral_text, numeral_of_head_eq_zero hd]
    rfl

theorem mapM_digit_map {radix : ℕ} (h36 : radix ≤ 36) (upper : Bool) {ds : List ℕ}
    (h : ∀ d ∈ ds, d < radix) : (ds.map (ascii_digit upper)).mapM (digit radix) = some ds := by
  induction ds with
  | nil => rfl
  | cons d ds ih =>
    rw [map_cons, mapM_cons, digit_ascii_digit h36 upper (h d (by simp)),
      ih fun e he => h e (by simp [he])]
    rfl

/-- The text of a number denotes the number. -/
theorem number_numeral_text {radix : ℕ} (h2 : 2 ≤ radix) (h36 : radix ≤ 36) (upper : Bool)
    (n : ℕ) : number radix (numeral_text radix upper n) = some n := by
  rw [number, numeral_text, mapM_digit_map h36 upper fun d hd => lt_of_mem_numeral (by lia) hd,
    Option.map_some, value_numeral (by lia)]

/-! ## Decimal digits -/

/-- The text of a list of digits. -/
abbrev decimal (ds : List ℕ) : List UInt8 := ds.map (ascii_digit false)

private theorem decimal_pairs_eq : DECIMAL_PAIRS = (range 200).map fun i =>
    ascii_digit false (if i % 2 = 0 then i / 2 / 10 else i / 2 % 10) := by
  simp only [DECIMAL_PAIRS, bytes_append]
  rw [bytes_ofList, bytes_ofList, bytes_ofList, bytes_ofList, bytes_ofList]
  decide +kernel

private theorem decimal_pairs_get {i : ℕ} (h : i < 200) : DECIMAL_PAIRS[i]? =
    some (ascii_digit false (if i % 2 = 0 then i / 2 / 10 else i / 2 % 10)) := by
  rw [decimal_pairs_eq, getElem?_map, getElem?_range h]
  rfl

/-- The table has the two digits of every number below 100. -/
theorem index_decimal_pairs {p : ℕ} (h : p < 100) :
    index DECIMAL_PAIRS (p * 2) = .ok (ascii_digit false (p / 10)) ∧
      index DECIMAL_PAIRS (p * 2 + 1) = .ok (ascii_digit false (p % 10)) := by
  have htens := decimal_pairs_get (i := p * 2) (by lia)
  have hones := decimal_pairs_get (i := p * 2 + 1) (by lia)
  rw [if_pos (by lia), show p * 2 / 2 = p by lia] at htens
  rw [if_neg (by lia), show (p * 2 + 1) / 2 = p by lia] at hones
  exact ⟨by rw [index, htens], by rw [index, hones]⟩

variable {buf : Buffer} {N self offset remain : ℕ} {offset : ℕ}

theorem write_pair_spec {pair : ℕ} (h : offset + 2 ≤ buf.length) (hpair : pair < 100) :
    write_pair buf offset pair = .ok (splice buf offset (decimal (padded 10 2 pair))) := by
  obtain ⟨htens, hones⟩ := index_decimal_pairs hpair
  have hlen : (splice buf offset [ascii_digit false (pair / 10)]).length = buf.length :=
    length_splice (by rw [length_singleton]; lia)
  have hdigits : decimal (padded 10 2 pair) =
      [ascii_digit false (pair / 10)] ++ [ascii_digit false (pair % 10)] := by
    rw [padded_succ, padded_succ, padded_zero, Nat.mod_eq_of_lt (by lia : pair / 10 < 10)]
    rfl
  rw [write_pair, htens, hones, Exec.bind_ok, write_eq_splice (by lia), Exec.bind_ok,
    Exec.bind_ok, write_eq_splice (by lia), hdigits]
  exact congrArg _ (splice_splice rfl (by lia))

theorem write_quad_spec {quad : ℕ} (h : offset + 4 ≤ buf.length) (hquad : quad < 10000) :
    write_quad buf offset quad = .ok (splice buf offset (decimal (padded 10 4 quad))) := by
  have hlen : (decimal (padded 10 2 (quad / 100))).length = 2 := by
    rw [length_map, length_padded]
  have hsplice : (splice buf offset (decimal (padded 10 2 (quad / 100)))).length = buf.length :=
    length_splice (by lia)
  have hdigits : decimal (padded 10 4 quad) =
      decimal (padded 10 2 (quad / 100)) ++ decimal (padded 10 2 (quad % 100)) := by
    rw [← map_append, padded_add 2 2 quad, ← padded_mod 2 quad]
    rfl
  rw [write_quad, write_pair_spec (by lia) (by lia), Exec.bind_ok,
    write_pair_spec (by lia) (by lia), hdigits, splice_splice hlen (by lia)]

/-- All digits of `self` but those of `remain` are in the buffer, from `offset` to its end. -/
def Printed (N self offset remain : ℕ) (buf : Buffer) : Prop :=
  ∃ ds, buf = splice (uninit N) offset (decimal ds) ∧ offset + ds.length = N ∧
    digits 10 self = digits 10 remain ++ ds

variable {N : ℕ}

theorem printed_start (self : ℕ) : Printed N self N self (uninit N) := by
  refine ⟨[], ?_, rfl, (append_nil _).symm⟩
  simp [splice, uninit]

theorem Printed.length_buf (h : Printed N self offset remain buf) : buf.length = N := by
  obtain ⟨ds, rfl, hlen, -⟩ := h
  rw [length_splice] <;> simp [uninit, hlen]

variable {self : ℕ} {remain : ℕ}

/-- What remains has as many digits as there are places before the offset, at most. -/
theorem Printed.le_offset {k : ℕ}
    (h : Printed N self offset remain buf) (hself : self < 10 ^ N) (hk : 10 ^ k ≤ remain) :
    k + 1 ≤ offset := by
  obtain ⟨ds, -, hlen, hdigits⟩ := h
  have hle := length_digits_le (b := 10) (by decide) hself
  rw [hdigits, digits_eq_append_padded (by decide) hk, length_append, length_append,
    length_padded] at hle
  lia

/-- Writing the last digits of what remains. -/
theorem Printed.write {k : ℕ}
    (h : Printed N self (offset + (k + 1)) remain buf) (hk : 10 ^ k ≤ remain) :
    Printed N self offset (remain / 10 ^ (k + 1))
      (splice buf offset (decimal (padded 10 (k + 1) remain))) := by
  obtain ⟨ds, rfl, hlen, hdigits⟩ := h
  have hpadded : (decimal (padded 10 (k + 1) remain)).length = k + 1 := by
    rw [length_map, length_padded]
  refine ⟨padded 10 (k + 1) remain ++ ds, ?_, ?_, ?_⟩
  · rw [splice_splice_left hpadded, ← map_append]
    rw [length_map, uninit, length_replicate]
    lia
  · rw [length_append, length_padded]
    lia
  · rw [hdigits, digits_eq_append_padded (by decide) hk, append_assoc]

theorem write_quads_spec {wide : Bool}
    (hself : self < 10 ^ N) (hwide : wide ∨ remain ≤ 999) (h : Printed N self offset remain buf) :
    ∃ o r b, write_quads wide offset remain buf = .ok (o, r, b) ∧ Printed N self o r b ∧
      r ≤ 999 := by
  induction offset using Nat.strong_induction_on generalizing remain buf with
  | _ offset ih =>
    by_cases hr : remain > 999
    · have hw : wide = true := hwide.resolve_right (by lia)
      have hoffset := h.le_offset hself (k := 3) (by lia)
      obtain ⟨offset, rfl⟩ := Nat.exists_eq_add_of_le' hoffset
      have hbuf := h.length_buf
      have hplace : offset + 4 ≤ buf.length := by
        obtain ⟨ds, -, hlen, -⟩ := h
        lia
      have hnext := h.write (k := 3) (by lia)
      have hquad : padded 10 4 (remain % 10000) = padded 10 4 remain := padded_mod 4 remain
      rw [write_quads, if_pos ⟨hw, hr⟩, assert_unchecked_eq hplace, Exec.bind_ok,
        write_quad_spec hplace (by lia), Exec.bind_ok, hquad]
      exact ih offset (by lia) (.inl hw) hnext
    · refine ⟨offset, remain, buf, ?_, h, by lia⟩
      unfold write_quads
      split <;> exact if_neg fun hc => hr hc.2

theorem write_two_spec (hself : self < 10 ^ N)
    (hremain : remain ≤ 999) (h : Printed N self offset remain buf) :
    ∃ o r b, write_two offset remain buf = .ok (o, r, b) ∧ Printed N self o r b ∧ r ≤ 9 := by
  rw [write_two]
  split
  · next hr =>
    have hoffset := h.le_offset hself (k := 1) (by lia)
    obtain ⟨offset, rfl⟩ := Nat.exists_eq_add_of_le' hoffset
    have hbuf := h.length_buf
    have hplace : offset + 2 ≤ buf.length := by
      obtain ⟨ds, -, hlen, -⟩ := h
      lia
    have hnext := h.write (k := 1) (by lia)
    have hpair : padded 10 2 (remain % 100) = padded 10 2 remain := padded_mod 2 remain
    rw [assert_unchecked_eq hoffset, Exec.bind_ok, assert_unchecked_eq hplace, Exec.bind_ok,
      Nat.add_sub_cancel, write_pair_spec hplace (by lia), Exec.bind_ok, hpair]
    exact ⟨_, _, _, rfl, hnext, by lia⟩
  · exact ⟨_, _, _, rfl, h, by lia⟩

/-- The last digit completes the number. -/
theorem write_last_spec (hself : self < 10 ^ N)
    (hremain : remain ≤ 9) (h : Printed N self offset remain buf) :
    ∃ o b, write_last (remain ≠ 0) offset remain buf = .ok (o, b) ∧ Printed N self o 0 b := by
  rw [write_last]
  split
  · next hr =>
    have hoffset := h.le_offset hself (k := 0) (by lia)
    obtain ⟨offset, rfl⟩ := Nat.exists_eq_add_of_le' hoffset
    have hbuf := h.length_buf
    have hplace : offset + 1 ≤ buf.length := by
      obtain ⟨ds, -, hlen, -⟩ := h
      lia
    have hnext := h.write (k := 0) (by lia)
    have hand : remain &&& 15 = remain := by
      rw [Nat.and_two_pow_sub_one_eq_mod remain 4]
      lia
    have hlast : decimal (padded 10 1 remain) = [ascii_digit false (remain % 10)] := rfl
    rw [zero_add, pow_one, Nat.div_eq_of_lt (by lia), hlast] at hnext
    rw [assert_unchecked_eq hoffset, Exec.bind_ok, assert_unchecked_eq hplace, Exec.bind_ok]
    dsimp only
    rw [hand, (index_decimal_pairs (by lia)).2, Exec.bind_ok, zero_add, Nat.add_sub_cancel,
      write_eq_splice (by lia), Exec.bind_ok]
    exact ⟨_, _, rfl, hnext⟩
  · next hr =>
    have hzero : remain = 0 := by simpa using hr
    rw [hzero] at h
    exact ⟨_, _, rfl, h⟩

/-- The buffer holds the text of a number when all of its digits are printed. -/
theorem Printed.slice (hpos : self ≠ 0) (h : Printed N self offset 0 buf) :
    slice_buffer_to_str buf offset = .ok (numeral_text 10 false self) := by
  obtain ⟨ds, rfl, hlen, hdigits⟩ := h
  rw [digits_zero, nil_append] at hdigits
  rw [slice_splice (by rw [length_map, uninit, length_replicate, hlen]), numeral_text,
    numeral_of_pos hpos, hdigits]

/-- Four digits at a time, then two, then the last one. -/
theorem fmt_inner_spec (w : Width) (hN : 0 < N) (hself : self < 10 ^ N)
    (hwide : w.bytes > 1 ∨ self ≤ 999) :
    ∃ o b, fmt_inner w self (uninit N) = .ok (o, b) ∧
      slice_buffer_to_str b o = .ok (numeral_text 10 false self) := by
  have hlen : (uninit N).length = N := length_replicate
  have hwide' : decide (w.bytes > 1) = true ∨ self ≤ 999 := by simpa using hwide
  obtain ⟨o₁, r₁, b₁, hrun1, h₁, hr1⟩ := write_quads_spec hself hwide' (printed_start self)
  obtain ⟨o₂, r₂, b₂, hrun2, h₂, hr2⟩ := write_two_spec hself hr1 h₁
  have hrun : fmt_inner w self (uninit N) = write_last (r₂ ≠ 0 ∨ self = 0) o₂ r₂ b₂ := by
    rw [fmt_inner, hlen, hrun1, Exec.bind_ok]
    dsimp only
    rw [hrun2, Exec.bind_ok]
  rw [hrun]
  rcases Nat.eq_zero_or_pos self with rfl | hpos
  · -- Zero has no digit until now.
    obtain ⟨ds, rfl, hds, hdigits⟩ := h₂
    rw [digits_zero, eq_comm, append_eq_nil_iff, digits_eq_nil_iff] at hdigits
    obtain ⟨rfl, rfl⟩ := hdigits
    obtain rfl : o₂ = N := by simpa using hds
    have hbuf : splice (uninit o₂) o₂ (decimal []) = uninit o₂ := by
      simp [splice, uninit]
    rw [hbuf, write_last, if_pos (by simp), assert_unchecked_eq (by lia), Exec.bind_ok,
      assert_unchecked_eq (by lia), Exec.bind_ok]
    dsimp only
    rw [show (0 : ℕ) &&& 15 = 0 from rfl, (index_decimal_pairs (by lia)).2, Exec.bind_ok,
      write_eq_splice (by lia), Exec.bind_ok]
    refine ⟨_, _, rfl, ?_⟩
    rw [slice_splice (by rw [length_singleton]; lia)]
    rfl
  · have hmore : decide (r₂ ≠ 0 ∨ self = 0) = decide (r₂ ≠ 0) := by
      simp [hpos.ne']
    rw [hmore]
    obtain ⟨o₃, b₃, hrun3, h₃⟩ := write_last_spec hself hr2 h₂
    exact ⟨o₃, b₃, hrun3, h₃.slice hpos.ne'⟩

/-! ## 128 bits -/

/-- The multiplication computes the quotient. -/
theorem div_rem_1e16_spec {n : ℕ} (h : n < 2 ^ 128) :
    div_rem_1e16 n = .ok (n / 10 ^ 16, n % 10 ^ 16) := by
  rw [div_rem_1e16]
  dsimp only
  split
  · next hlt =>
    rw [Nat.mod_eq_of_lt (by lia), Nat.div_eq_of_lt (by lia), Nat.mod_eq_of_lt (by lia)]
  · have hquot : (n * 76624777043294442917917351357515459181 / 2 ^ 128) >>> 51 = n / 10 ^ 16 := by
      rw [Nat.shiftRight_eq_div_pow, Nat.div_div_eq_div_mul, ← pow_add]
      exact mul_div_eq_div (e := 10 ^ 16 * 76624777043294442917917351357515459181 - 2 ^ 179)
        (by decide) (by lia)
    rw [hquot, if_pos (by lia)]
    congr 2
    lia

theorem enc_quads_spec (OFFSET : ℕ) (k n : ℕ) (h : OFFSET + 4 * k ≤ buf.length) :
    enc_quads OFFSET (range k).reverse n buf =
      .ok (splice buf OFFSET (decimal (padded 10 (4 * k) n))) := by
  induction k generalizing n buf with
  | zero => simp [enc_quads, splice, padded_zero]
  | succ k ih =>
    have hlen : (splice buf (k * 4 + OFFSET) (decimal (padded 10 4 (n % 10000)))).length =
        buf.length := by
      apply length_splice
      rw [length_map, length_padded]
      lia
    have hrest : (decimal (padded 10 (4 * k) (n / 10000))).length = 4 * k := by
      rw [length_map, length_padded]
    have hdigits : padded 10 (4 * (k + 1)) n =
        padded 10 (4 * k) (n / 10000) ++ padded 10 4 (n % 10000) := by
      rw [Nat.mul_succ, padded_add, ← padded_mod 4 n]
      rfl
    rw [range_succ, reverse_append, reverse_singleton, singleton_append,
      enc_quads, write_quad_spec (by lia) (by lia), Exec.bind_ok, ih _ (by lia),
      show k * 4 + OFFSET = OFFSET + 4 * k by ring, splice_splice_left hrest, ← map_append,
      hdigits]
    rw [length_map, length_padded]
    lia

/-- Sixteen digits at a time. -/
theorem enc_16lsd_spec (OFFSET : ℕ)
    (h : Printed N self (OFFSET + 16) remain buf) (hremain : 10 ^ 15 ≤ remain) :
    ∃ b, enc_16lsd OFFSET buf (remain % 10 ^ 16) = .ok b ∧
      Printed N self OFFSET (remain / 10 ^ 16) b := by
  have hplace : OFFSET + 4 * 4 ≤ buf.length := by
    rw [h.length_buf]
    obtain ⟨ds, -, hlen, -⟩ := h
    lia
  refine ⟨_, enc_quads_spec OFFSET 4 (remain % 10 ^ 16) hplace, ?_⟩
  rw [padded_mod]
  exact h.write (k := 15) hremain

theorem max_dec_n_bound (w : Width) : 0 < MAX_DEC_N w ∧ ∀ n < 2 ^ w.bits, n < 10 ^ MAX_DEC_N w := by
  refine ⟨Nat.succ_pos _, fun n hn => ?_⟩
  have hlt := Nat.lt_pow_succ_log_self (b := 10) (by decide) (2 ^ w.bits - 1)
  rw [MAX_DEC_N, max_digits]
  exact Nat.lt_of_le_of_lt (by lia) hlt

theorem u128_max_dec_n : U128_MAX_DEC_N = 39 := by
  have hlog : Nat.log 10 (2 ^ 128 - 1) = 38 :=
    Nat.log_eq_of_pow_le_of_lt_pow (by decide) (by decide)
  exact congrArg (· + 1) hlog

/-- The digits of sixteen at a time, then those of the rest. -/
theorem u128_fmt_inner_spec (hself : self < 2 ^ 128) :
    ∃ o b, u128_fmt_inner self (uninit U128_MAX_DEC_N) = .ok (o, b) ∧
      slice_buffer_to_str b o = .ok (numeral_text 10 false self) := by
  have hdigits : self < 10 ^ 39 := by lia
  have hlen : (uninit 39).length = 39 := length_replicate
  rw [u128_fmt_inner, u128_max_dec_n]
  split
  · next hzero =>
    subst hzero
    rw [assert_unchecked_eq (by lia), Exec.bind_ok]
    dsimp only
    rw [hlen, write_eq_splice (by lia), Exec.bind_ok]
    refine ⟨_, _, rfl, ?_⟩
    rw [slice_splice (by rw [length_singleton]; lia)]
    rfl
  next hpos =>
    -- Whatever the pieces, the digits that are not printed yet are those of `remain`.
    have hfinish {o r : ℕ} {b : Buffer} (h : Printed 39 self o r b) : ∃ o' b', (do
          let (offset, remain, buf) ← write_quads true o r b
          let (offset, remain, buf) ← write_two offset remain buf
          write_last (remain ≠ 0) offset remain buf) = .ok (o', b') ∧
            slice_buffer_to_str b' o' = .ok (numeral_text 10 false self) := by
      obtain ⟨o₁, r₁, b₁, hrun1, h₁, hr1⟩ := write_quads_spec hdigits (.inl rfl) h
      obtain ⟨o₂, r₂, b₂, hrun2, h₂, hr2⟩ := write_two_spec hdigits hr1 h₁
      obtain ⟨o₃, b₃, hrun3, h₃⟩ := write_last_spec hdigits hr2 h₂
      refine ⟨o₃, b₃, ?_, h₃.slice hpos⟩
      rw [hrun1, Exec.bind_ok]
      dsimp only
      rw [hrun2, Exec.bind_ok]
      exact hrun3
    rw [div_rem_1e16_spec hself, Exec.bind_ok]
    dsimp only
    by_cases hsmall : self / 10 ^ 16 = 0
    · rw [if_pos hsmall, Exec.bind_ok, Nat.mod_eq_of_lt (by lia)]
      exact hfinish (printed_start self)
    rw [if_neg hsmall]
    obtain ⟨b₁, hrun1, h₁⟩ := enc_16lsd_spec (39 - 16) (printed_start self) (by lia)
    rw [hrun1, Exec.bind_ok, div_rem_1e16_spec (by lia), Exec.bind_ok]
    by_cases hmedium : self / 10 ^ 16 / 10 ^ 16 = 0
    · rw [if_pos hmedium, Exec.bind_ok, Nat.mod_eq_of_lt (by lia)]
      exact hfinish h₁
    rw [if_neg hmedium]
    obtain ⟨b₂, hrun2, h₂⟩ := enc_16lsd_spec (39 - 32) h₁ (by lia)
    have hquot : self / 10 ^ 16 / 10 ^ 16 % 2 ^ 64 = self / 10 ^ 16 / 10 ^ 16 :=
      Nat.mod_eq_of_lt (by lia)
    rw [hrun2, Exec.bind_ok, hquot]
    exact hfinish h₂

/-! ## The texts -/

theorem fmt_digits_spec (w : Width) (hself : self < 2 ^ w.bits) :
    fmt_digits w self (uninit (MAX_DEC_N w)) = .ok (numeral_text 10 false self) := by
  obtain ⟨hpos, hbound⟩ := max_dec_n_bound w
  have hinner (hw : w ≠ .w128) : ∃ o b, fmt_inner w self (uninit (MAX_DEC_N w)) = .ok (o, b) ∧
      slice_buffer_to_str b o = .ok (numeral_text 10 false self) := by
    apply fmt_inner_spec w hpos (hbound self hself)
    cases w <;> simp [Width.bits, Width.bytes] at hself ⊢
    lia
  cases w with
  | w128 =>
    obtain ⟨o, b, hrun, htext⟩ := u128_fmt_inner_spec hself
    rw [U128_MAX_DEC_N] at hrun
    simp [fmt_digits, hrun, htext]
  | _ =>
    obtain ⟨o, b, hrun, htext⟩ := hinner (by decide)
    simp [fmt_digits, hrun, htext]

/-- The text of a value. -/
def value_text (v : ℤ) : List UInt8 :=
  (if 0 ≤ v then [] else [45]) ++ numeral_text 10 false v.natAbs

variable {t : IntType}

/-- **Printing a value** in decimal, by default. -/
theorem display_spec {v : ℤ} (h : t.InRange v) :
    Display.fmt t v .new = .ok (value_text v) := by
  rw [Display.fmt]
  split
  · rw [fmt_digits_spec t.width (t.unsigned_abs_lt h), Exec.bind_ok, pad_integral_new]
    simp only [value_text, IntType.unsigned_abs, ge_iff_le, decide_eq_true_eq]
    rfl
  next hs =>
  have hmin : t.min = 0 := by simp [IntType.min, hs]
  have hnonneg : 0 ≤ v := hmin ▸ h.1
  have habs : v.toNat = IntType.unsigned_abs v := by
    rw [IntType.unsigned_abs]
    lia
  rw [habs, fmt_digits_spec t.width (t.unsigned_abs_lt h), Exec.bind_ok, pad_integral_new,
    value_text, if_pos hnonneg]
  rfl

/-- The digits of what remains go before those that are written. -/
theorem radix_loop_spec {upper : Bool} {tab : List UInt8} (h2 : 2 ≤ tab.length)
    (htab : ∀ d, (h : d < tab.length) → tab[d] = ascii_digit upper d)
    (hbuf : offset ≤ buf.length)
    (hlen : (numeral tab.length remain).length ≤ offset) :
    radix_loop tab offset remain buf = .ok (offset - (numeral tab.length remain).length,
      splice buf (offset - (numeral tab.length remain).length)
        (numeral_text tab.length upper remain)) := by
  induction offset generalizing remain buf with
  | zero => exact absurd (eq_nil_of_length_eq_zero (Nat.le_zero.mp hlen)) (numeral_ne_nil _)
  | succ offset ih =>
    have hdigit : remain % tab.length < tab.length := Nat.mod_lt _ (by lia)
    have hindex : index tab (remain % tab.length) =
        .ok (ascii_digit upper (remain % tab.length)) := by
      rw [index, getElem?_eq_getElem hdigit, htab _ hdigit]
    have hnumeral := numeral_eq_concat (b := tab.length) (by lia) remain
    rw [radix_loop, assert_unchecked_eq (by lia), Exec.bind_ok, hindex, Exec.bind_ok,
      write_eq_splice (by lia), Exec.bind_ok]
    split
    · next hzero =>
      rw [if_pos hzero, nil_append] at hnumeral
      rw [numeral_text, hnumeral]
      rfl
    next hmore =>
    rw [if_neg hmore] at hnumeral
    rw [hnumeral, length_append, length_singleton] at hlen
    have hsplice : (splice buf offset [ascii_digit upper (remain % tab.length)]).length =
        buf.length := length_splice (by rw [length_singleton]; lia)
    rw [ih (by lia) (by lia)]
    have hoffset : offset + 1 - (numeral tab.length remain).length =
        offset - (numeral tab.length (remain / tab.length)).length := by
      rw [hnumeral, length_append, length_singleton]
      lia
    rw [hoffset]
    congr 2
    have htext : (numeral_text tab.length upper (remain / tab.length)).length =
        (numeral tab.length (remain / tab.length)).length := length_map _
    obtain ⟨i, hi⟩ := Nat.exists_eq_add_of_le' (by lia :
      (numeral tab.length (remain / tab.length)).length ≤ offset)
    have hi' : offset - (numeral tab.length (remain / tab.length)).length = i := by lia
    rw [hi']
    conv_lhs => rw [hi]
    rw [splice_splice_left htext (by rw [length_singleton]; lia), numeral_text,
      numeral_text, hnumeral, map_append]
    rfl

/-- **Printing a bit pattern** in another radix, by default. -/
theorem radix_integer_spec (upper : Bool) (pre tab : List UInt8) (h2 : 2 ≤ tab.length)
    (htab : ∀ d, (h : d < tab.length) → tab[d] = ascii_digit upper d) (t : IntType) (v : ℤ) :
    radix_integer pre tab t v .new = .ok (numeral_text tab.length upper (t.cast_unsigned v)) := by
  have hbound : t.cast_unsigned v < tab.length ^ max_digits tab.length t.width := by
    have hlt := Nat.lt_pow_succ_log_self (b := tab.length) (by lia) (2 ^ t.width.bits - 1)
    have := t.cast_unsigned_lt v
    exact Nat.lt_of_le_of_lt (by lia) hlt
  have hle : (numeral tab.length (t.cast_unsigned v)).length ≤ max_digits tab.length t.width :=
    length_numeral_le (by lia) (Nat.succ_pos _) hbound
  have hlen : (uninit (max_digits tab.length t.width)).length = max_digits tab.length t.width :=
    length_replicate
  rw [radix_integer]
  dsimp only
  rw [radix_loop_spec h2 htab (by lia) hle, Exec.bind_ok]
  rw [slice_splice, Exec.bind_ok, pad_integral_new, if_pos rfl, nil_append]
  · rfl
  · rw [numeral_text, length_map]
    lia

/-! ## Parsing what is printed -/

/-- A text of digits has no sign. -/
theorem split_numeral_text {radix : ℕ} (h2 : 2 ≤ radix) (h36 : radix ≤ 36)
    (upper : Bool) (n : ℕ) :
    Split t (numeral_text radix upper n) true (numeral_text radix upper n) := by
  have hhead (c : UInt8) (hc : digit radix c = none) :
      (numeral_text radix upper n).head? ≠ some c := by
    intro h
    obtain ⟨d, hd, rfl⟩ := mem_map.mp (mem_of_head? h)
    rw [digit_ascii_digit h36 upper (lt_of_mem_numeral (by lia) hd)] at hc
    cases hc
  exact .inr (.inr ⟨rfl, rfl, hhead 43 (digit_plus radix),
    fun h => hhead 45 (digit_minus radix) h.2⟩)

/-- Parsing the text of a number. -/
theorem from_ascii_radix_numeral_text (radix : UInt32) (h2 : 2 ≤ radix.toNat)
    (h36 : radix.toNat ≤ 36) (upper : Bool) {n : ℕ} (h : t.InRange n) :
    from_ascii_radix t (numeral_text radix.toNat upper n) radix = .ok (.ok n) := by
  rw [(from_ascii_radix_spec t _ h2 h36).1]
  exact ⟨⟨true, _, n, split_numeral_text h2 h36 upper n,
    (canonical_numeral_text h2 h36 upper n).ne_nil, number_numeral_text h2 h36 upper n, rfl⟩, h⟩

/-- Parsing the text of a value. -/
theorem from_ascii_radix_value_text {v : ℤ} (h : t.InRange v) :
    from_ascii_radix t (value_text v) 10 = .ok (.ok v) := by
  rw [(from_ascii_radix_spec t _ (by decide) (by decide)).1]
  refine ⟨⟨0 ≤ v, numeral_text 10 false v.natAbs, v.natAbs, ?_,
    (canonical_numeral_text (by decide) (by decide) false _).ne_nil,
    number_numeral_text (by decide) (by decide) false _, ?_⟩, h⟩
  · by_cases hv : 0 ≤ v
    · rw [value_text, if_pos hv]
      simpa only [hv, decide_true, nil_append] using
        @split_numeral_text t 10 (by decide) (by decide) false v.natAbs
    · have hsigned : t.signed = true := by
        by_contra hs
        have hmin : t.min = 0 := by simp [IntType.min, hs]
        exact hv (hmin ▸ h.1)
      rw [value_text, if_neg hv]
      exact .inr (.inl ⟨hsigned, rfl, by simpa using hv⟩)
  · by_cases hv : 0 ≤ v
    · simp only [signed, hv, decide_true, if_true]
      lia
    · simp only [signed, hv, decide_false, Bool.false_eq_true, if_false]
      lia

/-- **Integers and their texts.** Parsing returns the value of a text that denotes one in the
type's range and otherwise the kind of the leftmost failure; the text of a value is canonical
and parses back, in decimal to the value and in the other radixes to its bit pattern. Nothing
panics, and no operation leaves the range or the buffer. -/
theorem parse_and_print (t : IntType) :
    (∀ (s : List UInt8) (radix : UInt32), 2 ≤ radix.toNat → radix.toNat ≤ 36 →
      (∀ v, from_ascii_radix t s radix = .ok (.ok v) ↔ Denotes t radix.toNat s v ∧ t.InRange v) ∧
        ∀ k, from_ascii_radix t s radix = .ok (.error k) ↔ Fails t radix.toNat s k) ∧
    ∀ v, t.InRange v → (∃ cs, Display.fmt t v .new = .ok ((if 0 ≤ v then [] else [45]) ++ cs) ∧
        Canonical 10 false cs ∧
        from_ascii_radix t ((if 0 ≤ v then [] else [45]) ++ cs) 10 = .ok (.ok v)) ∧
      (∀ f ∈ [(Binary.fmt, (2 : UInt32), false), (Octal.fmt, 8, false), (LowerHex.fmt, 16, false),
          (UpperHex.fmt, 16, true)],
        ∃ cs, f.1 t v .new = .ok cs ∧ Canonical f.2.1.toNat f.2.2 cs ∧
          from_ascii_radix t.unsigned cs f.2.1 = .ok (.ok (t.cast_unsigned v))) ∧
      t.cast (t.cast_unsigned v) = v := by
  refine ⟨fun s radix h2 h36 => from_ascii_radix_spec t s h2 h36, fun v hv =>
    ⟨⟨_, display_spec hv, canonical_numeral_text (by decide) (by decide) _ _,
      from_ascii_radix_value_text hv⟩, ?_, t.cast_cast_unsigned hv⟩⟩
  have hrange := t.inRange_unsigned (t.cast_unsigned_lt v)
  intro f hf
  simp only [mem_cons, not_mem_nil, or_false] at hf
  rcases hf with rfl | rfl | rfl | rfl
  · exact ⟨_, radix_integer_spec false _ (bytes "01") (by decide) (by decide) t v,
      canonical_numeral_text (by decide) (by decide) _ _,
      from_ascii_radix_numeral_text 2 (by decide) (by decide) _ hrange⟩
  · exact ⟨_, radix_integer_spec false _ (bytes "01234567") (by decide) (by decide) t v,
      canonical_numeral_text (by decide) (by decide) _ _,
      from_ascii_radix_numeral_text 8 (by decide) (by decide) _ hrange⟩
  · exact ⟨_, radix_integer_spec false _ (bytes "0123456789abcdef") (by decide) (by decide) t v,
      canonical_numeral_text (by decide) (by decide) _ _,
      from_ascii_radix_numeral_text 16 (by decide) (by decide) _ hrange⟩
  · exact ⟨_, radix_integer_spec true _ (bytes "0123456789ABCDEF") (by decide) (by decide) t v,
      canonical_numeral_text (by decide) (by decide) _ _,
      from_ascii_radix_numeral_text 16 (by decide) (by decide) _ hrange⟩

/-- The smallest `i8` and the number below it. -/
theorem parse_and_print_i8_min :
    from_ascii_radix ⟨.w8, true⟩ (bytes "-129") 10 = .ok (.error .NegOverflow) ∧
      ∃ cs, Display.fmt ⟨.w8, true⟩ (-128) .new =
          .ok ((if (0 : ℤ) ≤ -128 then [] else [45]) ++ cs) ∧
        from_ascii_radix ⟨.w8, true⟩ ((if (0 : ℤ) ≤ -128 then [] else [45]) ++ cs) 10 =
          .ok (.ok (-128)) := by
  refine ⟨?_, ?_⟩
  · apply (((parse_and_print ⟨.w8, true⟩).1 (bytes "-129") 10 (by decide) (by decide)).2 _).mpr
    have hsplit : Split ⟨.w8, true⟩ (bytes "-129") false ([49, 50] ++ 57 :: []) :=
      .inr (.inl ⟨rfl, rfl, by decide⟩)
    refine .neg_overflow hsplit ⟨12, by decide, by decide⟩ (by decide) ?_
    rintro ⟨n, hn, hrange⟩
    have hvalue : n = 129 := (Option.some.inj hn).symm
    subst hvalue
    exact absurd hrange (by decide)
  · obtain ⟨cs, hdisplay, -, hparse⟩ := ((parse_and_print ⟨.w8, true⟩).2 (-128) (by decide)).1
    exact ⟨cs, hdisplay, hparse⟩

end RustStd.Num
