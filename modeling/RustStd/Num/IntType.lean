import Mathlib.Algebra.Order.Ring.Int
import Mathlib.Tactic.Ring
import RustStd.Foundations.Exec

/-!
# The integer types

An integer type has a width and a signedness; `isize` and `usize` are the ones of the target's
pointer width. Values are integers of the type's range. `arith` is an operation without a check,
where leaving the range is a fault; `checked` is the family of `checked_add` and its siblings.
-/

namespace RustStd.Num

/-- The widths of the integer types. -/
inductive Width
  | w8 | w16 | w32 | w64 | w128
  deriving DecidableEq, Repr

namespace Width

def bytes : Width → ℕ
  | w8 => 1
  | w16 => 2
  | w32 => 4
  | w64 => 8
  | w128 => 16

def bits (w : Width) : ℕ := 8 * w.bytes

theorem bytes_pos (w : Width) : 0 < w.bytes := by cases w <;> decide

theorem bits_pos (w : Width) : 0 < w.bits := by
  have := w.bytes_pos
  rw [bits]
  omega

end Width

/-- An integer type. -/
structure IntType where
  width : Width
  signed : Bool
  deriving DecidableEq, Repr

namespace IntType

/-- `T::MIN` -/
def min (t : IntType) : ℤ := if t.signed then -2 ^ (t.width.bits - 1) else 0

/-- `T::MAX` -/
def max (t : IntType) : ℤ := if t.signed then 2 ^ (t.width.bits - 1) - 1 else 2 ^ t.width.bits - 1

/-- The integer is a value of the type. -/
def InRange (t : IntType) (v : ℤ) : Prop := t.min ≤ v ∧ v ≤ t.max

instance (t : IntType) (v : ℤ) : Decidable (t.InRange v) := inferInstanceAs (Decidable (_ ∧ _))

/-- `v as T` -/
def cast (t : IntType) (v : ℤ) : ℤ :=
  if t.signed then Int.bmod v (2 ^ t.width.bits) else v % 2 ^ t.width.bits

/-- The result `v` of an operation, which is a fault outside the type's range. -/
def arith (t : IntType) (v : ℤ) : Exec ℤ := if t.InRange v then .ok v else .error .fault

/-- The result `v` of an operation that checks for overflow. -/
def checked (t : IntType) (v : ℤ) : Option ℤ := if t.InRange v then some v else none

/-- The unsigned type of the same width. -/
def unsigned (t : IntType) : IntType := { t with signed := false }

/-- `self.cast_unsigned()`: the bit pattern. -/
def cast_unsigned (t : IntType) (v : ℤ) : ℕ := (v % 2 ^ t.width.bits).toNat

/-- `self.unsigned_abs()` -/
def unsigned_abs (v : ℤ) : ℕ := v.natAbs

variable (t : IntType)
include t

theorem two_mul_half : (2 : ℤ) * 2 ^ (t.width.bits - 1) = 2 ^ t.width.bits := by
  rw [← pow_succ', Nat.sub_add_cancel t.width.bits_pos]

theorem half_pos : (0 : ℤ) < 2 ^ (t.width.bits - 1) := pow_pos (by decide) _

theorem min_nonpos : t.min ≤ 0 := by
  have := t.half_pos
  rw [min]
  split <;> omega

theorem max_nonneg : 0 ≤ t.max := by
  have := t.half_pos
  have := t.two_mul_half
  rw [max]
  split <;> omega

theorem inRange_zero : t.InRange 0 := ⟨t.min_nonpos, t.max_nonneg⟩

omit t

variable {t : IntType} {v : ℤ}

theorem arith_eq (h : t.InRange v) : t.arith v = .ok v := if_pos h

theorem checked_eq_some (h : t.InRange v) : t.checked v = some v := if_pos h

theorem checked_eq_none (h : ¬ t.InRange v) : t.checked v = none := if_neg h

theorem cast_eq (h : t.InRange v) : t.cast v = v := by
  obtain ⟨hmin, hmax⟩ := h
  have htwo := t.two_mul_half
  rw [cast]
  rw [min] at hmin
  rw [max] at hmax
  split at hmin
  · next hs =>
    rw [if_pos hs] at hmax ⊢
    have hpow : ((2 ^ t.width.bits : ℕ) : ℤ) = 2 ^ t.width.bits := by push_cast; rfl
    rw [Int.bmod_eq_of_le] <;> rw [hpow] <;> omega
  · next hs =>
    rw [if_neg hs] at hmax ⊢
    exact Int.emod_eq_of_lt hmin (by omega)

/-- The range reaches far enough for the digits of every radix. -/
theorem inRange_of_lt (t : IntType) {n : ℕ} (h : n < 2 ^ 7) : t.InRange n := by
  have h7 : (2 : ℤ) ^ 7 ≤ 2 ^ (t.width.bits - 1) := by
    apply pow_le_pow_right₀ (by decide)
    have := t.width.bytes_pos
    rw [Width.bits]
    omega
  have htwo := t.two_mul_half
  have hmin := t.min_nonpos
  refine ⟨by omega, ?_⟩
  rw [max]
  split <;> omega

/-- Casting a bit pattern back gives the value. -/
theorem cast_cast_unsigned (h : t.InRange v) : t.cast (t.cast_unsigned v) = v := by
  have hpos : (0 : ℤ) < 2 ^ t.width.bits := pow_pos (by decide) _
  have hpattern : (t.cast_unsigned v : ℤ) = v % 2 ^ t.width.bits := by
    rw [cast_unsigned, Int.toNat_of_nonneg (Int.emod_nonneg v (by omega))]
  have hpow : (2 : ℤ) ^ t.width.bits = ((2 ^ t.width.bits : ℕ) : ℤ) := by push_cast; rfl
  rw [hpattern]
  conv_rhs => rw [← cast_eq h]
  rw [cast, cast]
  split
  · rw [hpow, Int.emod_bmod]
  · rw [Int.emod_emod]

theorem cast_unsigned_lt (t : IntType) (v : ℤ) : t.cast_unsigned v < 2 ^ t.width.bits := by
  rw [cast_unsigned]
  have : ((2 ^ t.width.bits : ℕ) : ℤ) = 2 ^ t.width.bits := by push_cast; rfl
  omega

theorem inRange_unsigned {n : ℕ} (h : n < 2 ^ t.width.bits) : t.unsigned.InRange n := by
  have : ((2 ^ t.width.bits : ℕ) : ℤ) = 2 ^ t.width.bits := by push_cast; rfl
  refine ⟨by simp [min, unsigned], ?_⟩
  have hmax : t.unsigned.max = 2 ^ t.width.bits - 1 := rfl
  omega

theorem unsigned_abs_lt (h : t.InRange v) : unsigned_abs v < 2 ^ t.width.bits := by
  obtain ⟨hmin, hmax⟩ := h
  have htwo := t.two_mul_half
  have : ((2 ^ t.width.bits : ℕ) : ℤ) = 2 ^ t.width.bits := by push_cast; rfl
  rw [min] at hmin
  rw [max] at hmax
  rw [unsigned_abs]
  split at hmin
  · next hs => rw [if_pos hs] at hmax; omega
  · next hs => rw [if_neg hs] at hmax; omega

end IntType

end RustStd.Num
