import Mathlib.Data.UInt
import RustStd.Foundations.Digits
import RustStd.Num.IntType

/-!
# Parsing integers

`from_ascii_radix` of an integer type, with its loop that checks every operation and the one
that checks none, which the length of the string selects. What a string says is given apart from
the code: `digit_value` and `number` read digits, `Split` takes the sign off, `Denotes` is the
value of a string and `Fails` the kind of its leftmost failure. `from_ascii_radix_spec` states
that the code computes just that, so that in particular no operation of the unchecked loop leaves
the type's range.
-/

namespace RustStd.Num

open Digits List Option UInt32

inductive IntErrorKind
  | Empty | InvalidDigit | PosOverflow | NegOverflow | Zero
  deriving DecidableEq, Repr

/-- `char::to_digit`, for a radix from 2 to 36. -/
def to_digit (self radix : UInt32) : Exec (Option UInt32) :=
  if ¬ (radix ≥ 2 ∧ radix ≤ 36) then .error .panic
  else
    let TO_UPPERCASE_MASK : UInt32 := ~~~0b00100000
    let value :=
      if self > '9'.val ∧ radix > 10 then ((self - 'A'.val) &&& TO_UPPERCASE_MASK) + 10
      else self - '0'.val
    .ok (if value < radix then some value else none)

/-- `can_not_overflow`: a text of so few digits is in range for every radix up to 16. -/
def can_not_overflow (t : IntType) (radix : UInt32) (digits : List UInt8) : Bool :=
  radix ≤ 16 ∧ digits.length ≤ t.width.bytes * 2 - t.signed.toNat

/-- The loop without checks, `additive_op` being `+` or `-`. -/
def run_unchecked_loop (t : IntType) (additive_op : ℤ → ℤ → ℤ) (radix : UInt32) :
    ℤ → List UInt8 → Exec (Except IntErrorKind ℤ)
  | result, [] => .ok (.ok result)
  | result, c :: rest => do
    let result ← t.arith (result * t.cast radix.toNat)
    match ← to_digit c.toUInt32 radix with
    | none => .ok (.error .InvalidDigit)
    | some x => do
      let result ← t.arith (additive_op result (t.cast x.toNat))
      run_unchecked_loop t additive_op radix result rest

/-- The loop with checks. The product is computed before the digit is looked at, and is
looked at after it. -/
def run_checked_loop (t : IntType) (additive_op : ℤ → ℤ → ℤ) (overflow_err : IntErrorKind)
    (radix : UInt32) : ℤ → List UInt8 → Exec (Except IntErrorKind ℤ)
  | result, [] => .ok (.ok result)
  | result, c :: rest => do
    let mul := t.checked (result * t.cast radix.toNat)
    match ← to_digit c.toUInt32 radix with
    | none => .ok (.error .InvalidDigit)
    | some x =>
      match mul with
      | none => .ok (.error overflow_err)
      | some result =>
        match t.checked (additive_op result (t.cast x.toNat)) with
        | none => .ok (.error overflow_err)
        | some result => run_checked_loop t additive_op overflow_err radix result rest

/-- The sign of the text and its digits; `none` is a sign without anything after it. -/
def sign_and_digits (is_signed_ty : Bool) (src : List UInt8) : Option (Bool × List UInt8) :=
  match src with
  | [] => some (true, [])
  | c :: rest =>
    if (c = 43 ∨ c = 45) ∧ rest = [] then none
    else if c = 43 then some (true, rest)
    else if c = 45 ∧ is_signed_ty then some (false, rest)
    else some (true, src)

/-- `T::from_ascii_radix` -/
def from_ascii_radix (t : IntType) (src : List UInt8) (radix : UInt32) :
    Exec (Except IntErrorKind ℤ) :=
  if 2 > radix ∨ radix > 36 then .error .panic
  else if src = [] then .ok (.error .Empty)
  else
    match sign_and_digits t.signed src with
    | none => .ok (.error .InvalidDigit)
    | some (is_positive, digits) =>
      if can_not_overflow t radix digits then
        if is_positive then run_unchecked_loop t (· + ·) radix 0 digits
        else run_unchecked_loop t (· - ·) radix 0 digits
      else
        if is_positive then run_checked_loop t (· + ·) .PosOverflow radix 0 digits
        else run_checked_loop t (· - ·) .NegOverflow radix 0 digits

/-! ## What a string says -/

/-- The value of an ASCII digit, of any radix up to 36. -/
def digit_value (c : UInt8) : Option ℕ :=
  if 48 ≤ c.toNat ∧ c.toNat ≤ 57 then some (c.toNat - 48)
  else if 65 ≤ c.toNat ∧ c.toNat ≤ 90 then some (c.toNat - 65 + 10)
  else if 97 ≤ c.toNat ∧ c.toNat ≤ 122 then some (c.toNat - 97 + 10)
  else none

/-- The value of a digit of the radix. -/
def digit (radix : ℕ) (c : UInt8) : Option ℕ := (digit_value c).filter (· < radix)

/-- The number denoted by a text of digits. -/
def number (radix : ℕ) (ds : List UInt8) : Option ℕ := (ds.mapM (digit radix)).map (value radix)

/-- The number with the sign. -/
def signed (is_positive : Bool) (n : ℕ) : ℤ := if is_positive then n else -n

/-- The text is an optional sign, `-` only for a signed type, and `ds`. -/
def Split (t : IntType) (s : List UInt8) (is_positive : Bool) (ds : List UInt8) : Prop :=
  (s = 43 :: ds ∧ is_positive) ∨ (t.signed ∧ s = 45 :: ds ∧ ¬ is_positive) ∨
    (s = ds ∧ is_positive ∧ s.head? ≠ some 43 ∧ ¬ (t.signed ∧ s.head? = some 45))

/-- The text is an optional sign and at least one digit, and denotes `v`. -/
def Denotes (t : IntType) (radix : ℕ) (s : List UInt8) (v : ℤ) : Prop :=
  ∃ is_positive ds n, Split t s is_positive ds ∧ ds ≠ [] ∧ number radix ds = some n ∧
    v = signed is_positive n

/-- The text `ds` after the sign denotes a value of the type; a text without a digit does. -/
def Fits (t : IntType) (radix : ℕ) (is_positive : Bool) (ds : List UInt8) : Prop :=
  ∃ n, number radix ds = some n ∧ t.InRange (signed is_positive n)

/-- The kinds of failure, each at its leftmost position: all that stands before `c` fits. -/
inductive Fails (t : IntType) (radix : ℕ) (s : List UInt8) : IntErrorKind → Prop
  | empty (h : s = []) : Fails t radix s .Empty
  | lone_sign {is_positive : Bool} (h : Split t s is_positive []) (hne : s ≠ []) :
      Fails t radix s .InvalidDigit
  | bad_digit {is_positive : Bool} {pre post : List UInt8} {c : UInt8}
      (h : Split t s is_positive (pre ++ c :: post)) (hfits : Fits t radix is_positive pre)
      (hc : digit radix c = none) : Fails t radix s .InvalidDigit
  | pos_overflow {pre post : List UInt8} {c : UInt8} (h : Split t s true (pre ++ c :: post))
      (hfits : Fits t radix true pre) (hc : digit radix c ≠ none)
      (hover : ¬ Fits t radix true (pre ++ [c])) : Fails t radix s .PosOverflow
  | neg_overflow {pre post : List UInt8} {c : UInt8} (h : Split t s false (pre ++ c :: post))
      (hfits : Fits t radix false pre) (hc : digit radix c ≠ none)
      (hover : ¬ Fits t radix false (pre ++ [c])) : Fails t radix s .NegOverflow

/-! ## Digits -/

variable {radix : ℕ} {c : UInt8}

theorem digit_eq_some {d : ℕ} :
    digit radix c = some d ↔ digit_value c = some d ∧ d < radix := by
  rw [digit, filter_eq_some_iff, decide_eq_true_iff]

/-- What `to_digit` computes when the radix has no letters. -/
private def low_value (c : UInt8) : UInt32 := c.toUInt32 - '0'.val

/-- What `to_digit` computes when the radix has letters. -/
private def high_value (c : UInt8) : UInt32 :=
  if c.toUInt32 > '9'.val then ((c.toUInt32 - 'A'.val) &&& ~~~0b00100000) + 10
  else c.toUInt32 - '0'.val

private theorem low_value_spec (n : Fin 256) : if (low_value (.ofNat n)).toNat < 10 then
      digit_value (.ofNat n) = some (low_value (.ofNat n)).toNat
    else (digit_value (.ofNat n)).all (10 ≤ ·) := by
  revert n
  decide +kernel

private theorem high_value_spec (n : Fin 256) : if (high_value (.ofNat n)).toNat < 36 then
      digit_value (.ofNat n) = some (high_value (.ofNat n)).toNat
    else digit_value (.ofNat n) = none := by
  revert n
  decide +kernel

private theorem ofNat_fin (c : UInt8) : ∃ n : Fin 256, UInt8.ofNat n = c :=
  ⟨⟨c.toNat, c.toNat_lt⟩, UInt8.ofNat_toNat⟩

/-- `to_digit` reads the digits of the radix. -/
theorem to_digit_spec (c : UInt8) {radix : UInt32} (h2 : 2 ≤ radix.toNat) (h36 : radix.toNat ≤ 36) :
    ∃ o, to_digit c.toUInt32 radix = .ok o ∧ o.map UInt32.toNat = digit radix.toNat c := by
  obtain ⟨n, rfl⟩ := ofNat_fin c
  have hlow := low_value_spec n
  have hhigh := high_value_spec n
  have hradix : ¬ ¬ (radix ≥ 2 ∧ radix ≤ 36) :=
    not_not.mpr ⟨le_iff_toNat_le.mpr h2, le_iff_toNat_le.mpr h36⟩
  rw [to_digit, if_neg hradix]
  refine ⟨_, rfl, ?_⟩
  by_cases hletters : radix > 10
  · -- Every digit up to 36 is read, and what is read is compared with the radix.
    have hvalue : (if (UInt8.ofNat n).toUInt32 > '9'.val ∧ radix > 10 then
        (((UInt8.ofNat n).toUInt32 - 'A'.val) &&& ~~~0b00100000) + 10
        else (UInt8.ofNat n).toUInt32 - '0'.val) = high_value (.ofNat n) := by
      simp [hletters, high_value]
    rw [hvalue]
    split at hhigh
    · rw [digit, hhigh, filter_some]
      simp only [lt_iff_toNat_lt, decide_eq_true_eq]
      split <;> rfl
    · next hge =>
      have hle : ¬ high_value (.ofNat n) < radix := by
        rw [lt_iff_toNat_lt]
        omega
      rw [digit, hhigh, if_neg hle]
      rfl
  · have hten : radix.toNat ≤ 10 := by
      rw [gt_iff_lt, lt_iff_toNat_lt] at hletters
      exact Nat.le_of_not_lt hletters
    have hvalue : (if (UInt8.ofNat n).toUInt32 > '9'.val ∧ radix > 10 then
        (((UInt8.ofNat n).toUInt32 - 'A'.val) &&& ~~~0b00100000) + 10
        else (UInt8.ofNat n).toUInt32 - '0'.val) = low_value (.ofNat n) := by
      simp [hletters, low_value]
    rw [hvalue]
    split at hlow
    · rw [digit, hlow, filter_some]
      simp only [lt_iff_toNat_lt, decide_eq_true_eq]
      split <;> rfl
    next hge =>
    have hle : ¬ low_value (.ofNat n) < radix := by
      rw [lt_iff_toNat_lt]
      omega
    rw [if_neg hle]
    cases hd : digit_value (UInt8.ofNat n) with
    | none => rw [digit, hd]; rfl
    | some d =>
      rw [hd, all_some, decide_eq_true_iff] at hlow
      rw [digit, hd, filter_some, if_neg (by simp; omega)]
      rfl

/-! ## Numbers -/

@[simp] theorem number_nil (radix : ℕ) : number radix [] = some 0 := rfl

theorem number_concat (radix : ℕ) (ds : List UInt8) (c : UInt8) : number radix (ds ++ [c]) =
      (number radix ds).bind fun n => (digit radix c).map (n * radix + ·) := by
  rw [number, number, mapM_append]
  cases ds.mapM (digit radix) with
  | none => rfl
  | some es =>
    cases hd : digit radix c with
    | none => simp [hd]
    | some d => simp [hd, value_concat]

variable {ds : List UInt8}

theorem number_concat_eq_some {radix m : ℕ} :
    number radix (ds ++ [c]) = some m ↔
      ∃ n d, number radix ds = some n ∧ digit radix c = some d ∧ m = n * radix + d := by
  rw [number_concat]
  simp only [bind_eq_some_iff, map_eq_some_iff]
  constructor
  · rintro ⟨n, hn, d, hd, rfl⟩
    exact ⟨n, d, hn, hd, rfl⟩
  · rintro ⟨n, d, hn, hd, rfl⟩
    exact ⟨n, hn, d, hd, rfl⟩

/-- What stands before denotes a number, and a smaller one. -/
theorem number_append {radix m : ℕ} (hradix : 0 < radix) (es : List UInt8)
    (h : number radix (ds ++ es) = some m) : ∃ n, number radix ds = some n ∧ n ≤ m := by
  induction es using reverseRecOn generalizing m with
  | nil => exact ⟨m, by simpa using h, le_rfl⟩
  | append_singleton es c ih =>
    rw [← append_assoc, number_concat_eq_some] at h
    obtain ⟨k, d, hk, -, rfl⟩ := h
    obtain ⟨n, hn, hle⟩ := ih hk
    have := Nat.le_mul_of_pos_right k hradix
    exact ⟨n, hn, by omega⟩

theorem number_lt {radix n : ℕ} (h : number radix ds = some n) :
    n < radix ^ ds.length := by
  induction ds using reverseRecOn generalizing n with
  | nil =>
    cases h
    simp
  | append_singleton ds c ih =>
    obtain ⟨m, d, hm, hd, rfl⟩ := number_concat_eq_some.mp h
    have hlt : m + 1 ≤ radix ^ ds.length := ih hm
    have hdigit := (digit_eq_some.mp hd).2
    rw [length_append, length_singleton, pow_succ]
    calc m * radix + d < (m + 1) * radix := by rw [add_mul]; omega
      _ ≤ radix ^ ds.length * radix := Nat.mul_le_mul_right radix hlt

variable {t : IntType} {s : List UInt8}

theorem inRange_signed_of_le {is_positive : Bool} {m n : ℕ}
    (h : t.InRange (signed is_positive n)) (hle : m ≤ n) : t.InRange (signed is_positive m) := by
  have hmin := t.min_nonpos
  have hmax := t.max_nonneg
  obtain ⟨hlow, hhigh⟩ := h
  cases is_positive <;> simp only [signed, if_true, Bool.false_eq_true, if_false] at * <;>
    exact ⟨by omega, by omega⟩

theorem fits_nil (t : IntType) (radix : ℕ) (is_positive : Bool) : Fits t radix is_positive [] := by
  refine ⟨0, number_nil radix, ?_⟩
  cases is_positive <;> exact t.inRange_zero

theorem Fits.of_append (hradix : 0 < radix) {is_positive : Bool}
    {es : List UInt8} (h : Fits t radix is_positive (ds ++ es)) :
    Fits t radix is_positive ds := by
  obtain ⟨m, hm, hrange⟩ := h
  obtain ⟨n, hn, hle⟩ := number_append hradix es hm
  exact ⟨n, hn, inRange_signed_of_le hrange hle⟩

/-! ## The loops -/

/-- `+` for a positive and `-` for a negative number. -/
def additive (is_positive : Bool) : ℤ → ℤ → ℤ := if is_positive then (· + ·) else (· - ·)

/-- The error of a loop that leaves the range. -/
def overflow_err (is_positive : Bool) : IntErrorKind :=
  if is_positive then .PosOverflow else .NegOverflow

theorem additive_signed (is_positive : Bool) (n d radix : ℕ) :
    additive is_positive (signed is_positive n * radix) d = signed is_positive (n * radix + d) := by
  cases is_positive <;> simp [additive, signed]
  ring

theorem signed_mul (is_positive : Bool) (n radix : ℕ) :
    signed is_positive n * radix = signed is_positive (n * radix) := by
  cases is_positive <;> simp [signed]

/-- What a loop must find in `ds` when `pre` has been read. -/
def Outcome (t : IntType) (radix : ℕ) (is_positive : Bool) (pre ds : List UInt8) :
    Except IntErrorKind ℤ → Prop
  | .ok v => Fits t radix is_positive (pre ++ ds) ∧
      (number radix (pre ++ ds)).map (signed is_positive) = some v
  | .error k => ∃ mid c post, ds = mid ++ c :: post ∧ Fits t radix is_positive (pre ++ mid) ∧
      (digit radix c = none ∧ k = .InvalidDigit ∨
        digit radix c ≠ none ∧ ¬ Fits t radix is_positive (pre ++ mid ++ [c]) ∧
          k = overflow_err is_positive)

/-- The outcome after one more digit is the outcome before it. -/
theorem Outcome.of_digit {is_positive : Bool} {pre : List UInt8}
    {r : Except IntErrorKind ℤ} (h : Outcome t radix is_positive (pre ++ [c]) ds r) :
    Outcome t radix is_positive pre (c :: ds) r := by
  cases r with
  | ok v => simpa [Outcome] using h
  | error k =>
    obtain ⟨mid, e, post, rfl, hfits, hkind⟩ := h
    refine ⟨c :: mid, e, post, rfl, by simpa using hfits, ?_⟩
    simpa using hkind

/-- **The loop with checks** stops at the leftmost position that fails. -/
theorem run_checked_loop_spec {radix : UInt32} (h2 : 2 ≤ radix.toNat)
    (h36 : radix.toNat ≤ 36) {is_positive : Bool} {pre : List UInt8} {n : ℕ}
    (hn : number radix.toNat pre = some n) (hrange : t.InRange (signed is_positive n))
    (ds : List UInt8) :
    ∃ r, run_checked_loop t (additive is_positive) (overflow_err is_positive) radix
      (signed is_positive n) ds = .ok r ∧ Outcome t radix.toNat is_positive pre ds r := by
  induction ds generalizing pre n with
  | nil => exact ⟨_, rfl, ⟨n, by simpa using hn, hrange⟩, by simp [hn]⟩
  | cons c ds ih =>
    obtain ⟨o, ho, hdigit⟩ := to_digit_spec c h2 h36
    have hfits : Fits t radix.toNat is_positive (pre ++ []) := by
      rw [append_nil]
      exact ⟨n, hn, hrange⟩
    rw [run_checked_loop, ho, Exec.bind_ok]
    cases o with
    | none => exact ⟨_, rfl, [], c, ds, rfl, hfits, .inl ⟨hdigit.symm, rfl⟩⟩
    | some x =>
      have hx : digit radix.toNat c = some x.toNat := hdigit.symm
      have hlt := (digit_eq_some.mp hx).2
      have hmore := number_concat_eq_some.mpr ⟨n, x.toNat, hn, hx, rfl⟩
      have hradix : t.cast radix.toNat = radix.toNat := t.cast_eq (t.inRange_of_lt (by omega))
      have hdigit : t.cast x.toNat = x.toNat := t.cast_eq (t.inRange_of_lt (by omega))
      simp only [hradix, hdigit, signed_mul]
      -- Leaving the range at the product is leaving it at the sum.
      by_cases hfit : t.InRange (signed is_positive (n * radix.toNat + x.toNat))
      · rw [t.checked_eq_some (inRange_signed_of_le hfit (Nat.le_add_right _ _))]
        dsimp only
        rw [← signed_mul, additive_signed, t.checked_eq_some hfit]
        obtain ⟨r, hr, hout⟩ := ih hmore hfit
        exact ⟨r, hr, hout.of_digit⟩
      have hover : Outcome t radix.toNat is_positive pre (c :: ds)
          (.error (overflow_err is_positive)) := by
        refine ⟨[], c, ds, rfl, hfits, .inr ⟨by rw [hx]; simp, ?_, rfl⟩⟩
        rintro ⟨m, hm, hin⟩
        rw [append_nil, hmore, some.injEq] at hm
        rw [← hm] at hin
        exact hfit hin
      by_cases hmul : t.InRange (signed is_positive (n * radix.toNat))
      · simp only [t.checked_eq_some hmul]
        rw [← signed_mul, additive_signed, t.checked_eq_none hfit]
        exact ⟨_, rfl, hover⟩
      · simp only [t.checked_eq_none hmul]
        exact ⟨_, rfl, hover⟩

/-- A number of few hexadecimal digits is in the range. -/
theorem inRange_of_short {is_positive : Bool} (hsign : is_positive ∨ t.signed)
    {k n : ℕ} (hk : k ≤ t.width.bytes * 2 - t.signed.toNat) (hn : n < 16 ^ k) :
    t.InRange (signed is_positive n) := by
  have hpow : n < 2 ^ (t.width.bits - t.signed.toNat) := by
    refine Nat.lt_of_lt_of_le hn ?_
    rw [show (16 : ℕ) = 2 ^ 4 by rfl, ← pow_mul]
    apply Nat.pow_le_pow_right (by decide)
    rw [Width.bits]
    cases hs : t.signed <;> simp only [hs, Bool.toNat_true, Bool.toNat_false] at hk ⊢ <;> omega
  cases hs : t.signed with
  | false =>
    have hpos : is_positive = true := by simpa [hs] using hsign
    rw [hs, Bool.toNat_false, Nat.sub_zero] at hpow
    have : ((2 ^ t.width.bits : ℕ) : ℤ) = 2 ^ t.width.bits := by push_cast; rfl
    rw [hpos]
    have hmin : t.min = 0 := by simp [IntType.min, hs]
    have hmax : t.max = 2 ^ t.width.bits - 1 := by simp [IntType.max, hs]
    have hsigned : signed true n = n := rfl
    exact ⟨by omega, by omega⟩
  | true =>
    rw [hs, Bool.toNat_true] at hpow
    have : ((2 ^ (t.width.bits - 1) : ℕ) : ℤ) = 2 ^ (t.width.bits - 1) := by push_cast; rfl
    have hmin : t.min = -2 ^ (t.width.bits - 1) := if_pos hs
    have hmax : t.max = 2 ^ (t.width.bits - 1) - 1 := if_pos hs
    cases is_positive with
    | true =>
      have hsigned : signed true n = n := rfl
      exact ⟨by omega, by omega⟩
    | false =>
      have hsigned : signed false n = -n := rfl
      exact ⟨by omega, by omega⟩

/-- **The loop without checks** computes what the one with checks does, when the text is short:
no operation leaves the range. -/
theorem run_unchecked_loop_eq {radix : UInt32} (h2 : 2 ≤ radix.toNat)
    (h16 : radix.toNat ≤ 16) {is_positive : Bool} (hsign : is_positive ∨ t.signed)
    {pre : List UInt8} {n : ℕ} (hn : number radix.toNat pre = some n) (ds : List UInt8)
    (hlen : (pre ++ ds).length ≤ t.width.bytes * 2 - t.signed.toNat) :
    run_unchecked_loop t (additive is_positive) radix (signed is_positive n) ds =
      run_checked_loop t (additive is_positive) (overflow_err is_positive) radix
        (signed is_positive n) ds := by
  induction ds generalizing pre n with
  | nil => rfl
  | cons c ds ih =>
    obtain ⟨o, ho, hdigit⟩ := to_digit_spec c h2 (by omega)
    have hlenc : (pre ++ [c]).length ≤ t.width.bytes * 2 - t.signed.toNat := by
      simp only [length_append, length_cons, length_nil] at hlen ⊢
      omega
    have hshort {d : ℕ} (hd : d < radix.toNat) :
        t.InRange (signed is_positive (n * radix.toNat + d)) := by
      apply inRange_of_short hsign hlenc
      have hle : n + 1 ≤ radix.toNat ^ pre.length := number_lt hn
      calc n * radix.toNat + d < (n + 1) * radix.toNat := by rw [add_mul]; omega
        _ ≤ radix.toNat ^ pre.length * radix.toNat := Nat.mul_le_mul_right _ hle
        _ = radix.toNat ^ (pre ++ [c]).length := by
          rw [length_append, length_singleton, pow_succ]
        _ ≤ 16 ^ (pre ++ [c]).length := Nat.pow_le_pow_left h16 _
    have hmul : t.InRange (signed is_positive (n * radix.toNat)) := hshort (d := 0) (by omega)
    rw [run_unchecked_loop, run_checked_loop, ho, t.cast_eq (t.inRange_of_lt (by omega)),
      signed_mul, t.arith_eq hmul, t.checked_eq_some hmul]
    simp only [Exec.bind_ok]
    cases o with
    | none => rfl
    | some x =>
      have hx : digit radix.toNat c = some x.toNat := hdigit.symm
      have hlt := (digit_eq_some.mp hx).2
      dsimp only
      rw [t.cast_eq (t.inRange_of_lt (by omega)), ← signed_mul, additive_signed,
        t.arith_eq (hshort hlt), t.checked_eq_some (hshort hlt), Exec.bind_ok]
      exact ih (number_concat_eq_some.mpr ⟨n, x.toNat, hn, hx, rfl⟩) (by simpa using hlen)

/-! ## The sign -/

theorem digit_plus (radix : ℕ) : digit radix 43 = none := rfl

theorem digit_minus (radix : ℕ) : digit radix 45 = none := rfl

theorem Split.unique {s es : List UInt8} {p q : Bool} (h : Split t s p ds)
    (h' : Split t s q es) : p = q ∧ ds = es := by
  rcases h with ⟨rfl, hp⟩ | ⟨hs, rfl, hp⟩ | ⟨rfl, hp, hplus, hminus⟩ <;>
    rcases h' with ⟨he, hq⟩ | ⟨hs', he, hq⟩ | ⟨he, hq, hplus', hminus'⟩ <;>
    first | (subst he; simp_all) | simp_all

theorem sign_and_digits_some {s : List UInt8} {p : Bool} (hs : s ≠ [])
    (h : sign_and_digits t.signed s = some (p, ds)) :
    Split t s p ds ∧ ds ≠ [] ∧ (p ∨ t.signed) := by
  cases s with
  | nil => exact absurd rfl hs
  | cons c rest =>
    simp only [sign_and_digits] at h
    split at h
    · cases h
    next hlone =>
      split at h
      · next hc =>
        cases h
        subst hc
        exact ⟨.inl ⟨rfl, rfl⟩, by simpa using hlone, .inl rfl⟩
      next hplus =>
        split at h
        · next hc =>
          cases h
          obtain ⟨rfl, hsigned⟩ := hc
          exact ⟨.inr (.inl ⟨hsigned, rfl, by simp⟩), by simpa using hlone, .inr hsigned⟩
        · next hminus =>
          cases h
          refine ⟨.inr (.inr ⟨rfl, rfl, by simpa using hplus, ?_⟩), by simp, .inl rfl⟩
          rintro ⟨hsigned, hc⟩
          exact hminus ⟨by simpa using hc, hsigned⟩

theorem sign_and_digits_none (radix : ℕ)
    (h : sign_and_digits t.signed s = none) : Fails t radix s .InvalidDigit := by
  cases s with
  | nil => cases h
  | cons c rest =>
    simp only [sign_and_digits] at h
    split at h
    · next hlone =>
      obtain ⟨hc, rfl⟩ := hlone
      rcases hc with rfl | rfl
      · have hsplit : Split t [43] true [] := .inl ⟨rfl, rfl⟩
        exact .lone_sign hsplit (by simp)
      cases hsigned : t.signed with
      | true =>
        have hsplit : Split t [45] false [] := .inr (.inl ⟨hsigned, rfl, by simp⟩)
        exact .lone_sign hsplit (by simp)
      | false =>
        -- Without negative numbers the sign is a character like any other.
        have hsplit : Split t [45] true ([] ++ 45 :: []) :=
          .inr (.inr ⟨rfl, rfl, by simp, by simp [hsigned]⟩)
        exact .bad_digit hsplit (fits_nil t radix true) (digit_minus radix)
    · split at h
      · cases h
      · split at h <;> cases h

/-! ## The whole function -/

theorem not_fits_of_digit {is_positive : Bool} {pre : List UInt8}
    (hc : digit radix c = none) : ¬ Fits t radix is_positive (pre ++ [c]) := by
  rintro ⟨n, hn, -⟩
  obtain ⟨m, d, -, hd, -⟩ := number_concat_eq_some.mp hn
  rw [hc] at hd
  cases hd

/-- The three ways to fail, the last being that of a position. -/
theorem Fails.cases_position {k : IntErrorKind} (h : Fails t radix s k) :
    (s = [] ∧ k = .Empty) ∨ (∃ p, Split t s p [] ∧ s ≠ [] ∧ k = .InvalidDigit) ∨
      ∃ p pre c post, Split t s p (pre ++ c :: post) ∧ Fits t radix p pre ∧
        ¬ Fits t radix p (pre ++ [c]) ∧
          k = if digit radix c = none then .InvalidDigit else overflow_err p := by
  cases h with
  | empty h => exact .inl ⟨h, rfl⟩
  | lone_sign h hne => exact .inr (.inl ⟨_, h, hne, rfl⟩)
  | bad_digit h hfits hc =>
    exact .inr (.inr ⟨_, _, _, _, h, hfits, not_fits_of_digit hc, (if_pos hc).symm⟩)
  | pos_overflow h hfits hc hover | neg_overflow h hfits hc hover =>
    exact .inr (.inr ⟨_, _, _, _, h, hfits, hover, (if_neg hc).symm⟩)

/-- There is one leftmost position that fails. -/
theorem leftmost_unique (hradix : 0 < radix) {p : Bool}
    {pre pre' post post' : List UInt8} {c' : UInt8}
    (h : pre ++ c :: post = pre' ++ c' :: post') (hfits : Fits t radix p pre)
    (hnot : ¬ Fits t radix p (pre ++ [c])) (hfits' : Fits t radix p pre')
    (hnot' : ¬ Fits t radix p (pre' ++ [c'])) : c = c' := by
  rcases append_eq_append_iff.mp h with ⟨as, rfl, hcons⟩ | ⟨as, rfl, hcons⟩
  · cases as with
    | nil => simpa using (cons.inj hcons).1
    | cons a as =>
      obtain ⟨rfl, -⟩ := cons.inj hcons
      rw [append_cons] at hfits'
      exact absurd (hfits'.of_append hradix) hnot
  · cases as with
    | nil => simpa using (cons.inj hcons).1.symm
    | cons a as =>
      obtain ⟨rfl, -⟩ := cons.inj hcons
      rw [append_cons] at hfits
      exact absurd (hfits.of_append hradix) hnot'

theorem Fails.unique (hradix : 0 < radix)
    {k k' : IntErrorKind} (h : Fails t radix s k) (h' : Fails t radix s k') : k = k' := by
  have hempty {p : Bool} {ds : List UInt8} (hs : s = []) (hsplit : Split t s p ds) : ds = [] := by
    subst hs
    rcases hsplit with ⟨h, -⟩ | ⟨-, h, -⟩ | ⟨h, -⟩
    · cases h
    · cases h
    · exact h.symm
  rcases h.cases_position with ⟨hs, rfl⟩ | ⟨p, hsplit, hs, rfl⟩ |
      ⟨p, pre, c, post, hsplit, hfits, hnot, rfl⟩ <;>
    rcases h'.cases_position with ⟨hs', rfl⟩ | ⟨p', hsplit', hs', rfl⟩ |
      ⟨p', pre', c', post', hsplit', hfits', hnot', rfl⟩
  · rfl
  · exact absurd hs hs'
  · exact absurd (hempty hs hsplit') (by simp)
  · exact absurd hs' hs
  · rfl
  · exact absurd (hsplit.unique hsplit').2 (by simp)
  · exact absurd (hempty hs' hsplit) (by simp)
  · exact absurd (hsplit.unique hsplit').2 (by simp)
  · obtain ⟨rfl, hds⟩ := hsplit.unique hsplit'
    rw [leftmost_unique hradix hds hfits hnot hfits' hnot']

theorem Denotes.unique {v v' : ℤ}
    (h : Denotes t radix s v) (h' : Denotes t radix s v') : v = v' := by
  obtain ⟨p, ds, n, hsplit, -, hn, rfl⟩ := h
  obtain ⟨p', ds', n', hsplit', -, hn', rfl⟩ := h'
  obtain ⟨rfl, rfl⟩ := hsplit.unique hsplit'
  rw [hn, some.injEq] at hn'
  rw [hn']

/-- A text with a value in the range does not fail. -/
theorem Fails.not_denotes (hradix : 0 < radix)
    {k : IntErrorKind} (h : Fails t radix s k) {v : ℤ} (hv : Denotes t radix s v) :
    ¬ t.InRange v := by
  intro hrange
  obtain ⟨p, ds, n, hsplit, hne, hn, rfl⟩ := hv
  rcases h.cases_position with ⟨rfl, -⟩ | ⟨q, hsplit', -, -⟩ |
    ⟨q, pre, c, post, hsplit', -, hnot, -⟩
  · rcases hsplit with ⟨h, -⟩ | ⟨-, h, -⟩ | ⟨h, -⟩
    · cases h
    · cases h
    · exact hne h.symm
  · exact hne (hsplit.unique hsplit').2
  · obtain ⟨rfl, rfl⟩ := hsplit.unique hsplit'
    have hfits : Fits t radix p (pre ++ [c] ++ post) := ⟨n, by simpa using hn, hrange⟩
    exact hnot (hfits.of_append hradix)

/-- The function returns, with the value of the text or with the kind of its failure. -/
theorem from_ascii_radix_cases (t : IntType) (s : List UInt8) {radix : UInt32}
    (h2 : 2 ≤ radix.toNat) (h36 : radix.toNat ≤ 36) :
    (∃ v, from_ascii_radix t s radix = .ok (.ok v) ∧ Denotes t radix.toNat s v ∧ t.InRange v) ∨
      ∃ k, from_ascii_radix t s radix = .ok (.error k) ∧ Fails t radix.toNat s k := by
  have hradix : ¬ (2 > radix ∨ radix > 36) := by
    rw [gt_iff_lt, gt_iff_lt, lt_iff_toNat_lt, lt_iff_toNat_lt]
    exact not_or.mpr ⟨Nat.not_lt.mpr h2, Nat.not_lt.mpr h36⟩
  rw [from_ascii_radix, if_neg hradix]
  by_cases hs : s = []
  · rw [if_pos hs]
    exact .inr ⟨_, rfl, .empty hs⟩
  rw [if_neg hs]
  cases hsd : sign_and_digits t.signed s with
  | none => exact .inr ⟨_, rfl, sign_and_digits_none radix.toNat hsd⟩
  | some q =>
    obtain ⟨p, ds⟩ := q
    obtain ⟨hsplit, hne, hsign⟩ := sign_and_digits_some hs hsd
    obtain ⟨r, hr, hout⟩ := @run_checked_loop_spec t radix h2 h36 p _ _
      (number_nil radix.toNat) (by cases p <;> exact t.inRange_zero) ds
    have hrun : (if can_not_overflow t radix ds then
          if p then run_unchecked_loop t (· + ·) radix 0 ds
          else run_unchecked_loop t (· - ·) radix 0 ds
        else
          if p then run_checked_loop t (· + ·) .PosOverflow radix 0 ds
          else run_checked_loop t (· - ·) .NegOverflow radix 0 ds) = .ok r := by
      split
      · next hshort =>
        rw [can_not_overflow, decide_eq_true_iff] at hshort
        rw [← hr, ← run_unchecked_loop_eq h2 (le_iff_toNat_le.mp hshort.1) hsign
          (number_nil radix.toNat) ds hshort.2]
        cases p <;> rfl
      · rw [← hr]
        cases p <;> rfl
    dsimp only
    rw [hrun]
    cases r with
    | ok v =>
      obtain ⟨⟨n, hn, hrange⟩, hv⟩ := hout
      rw [hn, map_some, some.injEq] at hv
      subst hv
      exact .inl ⟨_, rfl, ⟨p, ds, n, hsplit, hne, hn, rfl⟩, hrange⟩
    | error k =>
      obtain ⟨mid, c, post, rfl, hfits, ⟨hc, rfl⟩ | ⟨hc, hover, rfl⟩⟩ := hout
      · exact .inr ⟨_, rfl, .bad_digit hsplit hfits hc⟩
      · cases p with
        | true => exact .inr ⟨_, rfl, .pos_overflow hsplit hfits hc hover⟩
        | false => exact .inr ⟨_, rfl, .neg_overflow hsplit hfits hc hover⟩

/-- **Parsing an integer**: the value of a text that denotes one of the range, and the kind of
the leftmost failure of every other text. -/
theorem from_ascii_radix_spec (t : IntType) (s : List UInt8) {radix : UInt32}
    (h2 : 2 ≤ radix.toNat) (h36 : radix.toNat ≤ 36) :
    (∀ v, from_ascii_radix t s radix = .ok (.ok v) ↔ Denotes t radix.toNat s v ∧ t.InRange v) ∧
      (∀ k, from_ascii_radix t s radix = .ok (.error k) ↔ Fails t radix.toNat s k) := by
  have hpos : 0 < radix.toNat := by omega
  rcases from_ascii_radix_cases t s h2 h36 with ⟨v, hrun, hv, hrange⟩ | ⟨k, hrun, hk⟩
  · refine ⟨fun w => ?_, fun k => ?_⟩
    · rw [hrun, Except.ok.injEq, Except.ok.injEq]
      constructor
      · rintro rfl
        exact ⟨hv, hrange⟩
      · exact fun hw => hv.unique hw.1
    · rw [hrun, Except.ok.injEq]
      constructor
      · intro h
        cases h
      · exact fun hk => absurd hrange (hk.not_denotes hpos hv)
  · refine ⟨fun w => ?_, fun k' => ?_⟩
    · rw [hrun, Except.ok.injEq]
      constructor
      · intro h
        cases h
      · exact fun hw => absurd hw.2 (hk.not_denotes hpos hw.1)
    · rw [hrun, Except.ok.injEq, Except.error.injEq]
      constructor
      · rintro rfl
        exact hk
      · exact fun hk' => hk.unique hpos hk'

end RustStd.Num
