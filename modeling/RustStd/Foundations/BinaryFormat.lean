import Mathlib.Algebra.Order.Field.Power
import Mathlib.Tactic.FieldSimp
import Mathlib.Tactic.Linarith
import Mathlib.Tactic.Positivity
import Mathlib.Tactic.Ring

/-!
# Binary interchange formats and correct rounding

A word of a binary interchange format is a sign bit, a biased exponent and a fraction. What stands
below the sign bit is the magnitude of the word; the magnitudes of finite words are ordered as the
numbers they stand for, and the infinity comes right after the largest of them. Rounding to
nearest, ties to even, is stated for words (`RoundsTo`) and, for the numbers without their sign
measured in the least of them, for magnitudes (`Nearest`).
-/

namespace RustStd

/-- A binary interchange format, by the widths of its fraction and its exponent. -/
structure BinaryFormat where
  fraction_bits : ℕ
  exponent_bits : ℕ
  fraction_pos : 0 < fraction_bits
  exponent_two : 2 ≤ exponent_bits

namespace BinaryFormat

variable (F : BinaryFormat)

/-- How many bits a word has. -/
def width : ℕ := F.fraction_bits + F.exponent_bits + 1

/-- The exponent of the infinities and of what is not a number. -/
def saturated : ℕ := 2 ^ F.exponent_bits - 1

def bias : ℕ := 2 ^ (F.exponent_bits - 1) - 1

/-- The magnitude of the infinities. -/
def infinity : ℕ := F.saturated * 2 ^ F.fraction_bits

/-- The bits below the sign. -/
def magnitude (w : ℕ) : ℕ := w % 2 ^ (F.width - 1)

def negative (w : ℕ) : Bool := w.testBit (F.width - 1)

def exponent (w : ℕ) : ℕ := F.magnitude w / 2 ^ F.fraction_bits

def fraction (w : ℕ) : ℕ := w % 2 ^ F.fraction_bits

/-- The number a finite word stands for, without its sign. -/
def absValue (w : ℕ) : ℚ :=
  if F.exponent w = 0 then 2 ^ (1 - F.bias : ℤ) * (F.fraction w / 2 ^ F.fraction_bits)
  else 2 ^ (F.exponent w - F.bias : ℤ) * (1 + F.fraction w / 2 ^ F.fraction_bits)

/-- The number a finite word stands for. -/
def value (w : ℕ) : ℚ := if F.negative w then -F.absValue w else F.absValue w

def IsFinite (w : ℕ) : Prop := F.magnitude w < F.infinity

def IsInfinite (w : ℕ) : Prop := F.magnitude w = F.infinity

def IsNaN (w : ℕ) : Prop := F.infinity < F.magnitude w

/-- Not a number, with the leading bit of the fraction set. -/
def IsQuietNaN (w : ℕ) : Prop := F.IsNaN w ∧ w.testBit (F.fraction_bits - 1) = true

/-- The number halfway between the largest finite one and the one that would follow it. -/
def overflowThreshold : ℚ := 2 ^ F.bias * (2 - 1 / 2 ^ (F.fraction_bits + 1))

/-- `w` is the word that `x` is rounded to, to the nearest one and a tie to the even one: an
infinity from the threshold on, else a finite word nearer to `x` than any other, or as near and
even. It has the sign of `x`. -/
structure RoundsTo (x : ℚ) (w : ℕ) : Prop where
  word : w < 2 ^ F.width
  sign : F.negative w = decide (x < 0)
  overflow : F.overflowThreshold ≤ |x| → F.IsInfinite w
  finite : |x| < F.overflowThreshold → F.IsFinite w
  nearest : |x| < F.overflowThreshold → ∀ v < 2 ^ F.width, F.IsFinite v →
    |x - F.value w| ≤ |x - F.value v|
  even : |x| < F.overflowThreshold → ∀ v < 2 ^ F.width, F.IsFinite v → F.value v ≠ F.value w →
    |x - F.value w| = |x - F.value v| → w % 2 = 0

/-- `w` is the word of the sum of `a` and `b`. A sum of zero is negative only if both operands
are. -/
structure IsSum (a b w : ℕ) : Prop where
  word : w < 2 ^ F.width
  nan : F.IsNaN a ∨ F.IsNaN b → F.IsQuietNaN w
  invalid : F.IsInfinite a → F.IsInfinite b → F.negative a ≠ F.negative b → F.IsQuietNaN w
  infinite_left : F.IsInfinite a → ¬ F.IsNaN b → (F.IsInfinite b → F.negative a = F.negative b) →
    F.IsInfinite w ∧ F.negative w = F.negative a
  infinite_right : F.IsFinite a → F.IsInfinite b → F.IsInfinite w ∧ F.negative w = F.negative b
  zero : F.IsFinite a → F.IsFinite b → F.value a + F.value b = 0 →
    F.magnitude w = 0 ∧ F.negative w = (F.negative a && F.negative b)
  rounded : F.IsFinite a → F.IsFinite b → F.value a + F.value b ≠ 0 →
    F.RoundsTo (F.value a + F.value b) w

/-- `w` is the word of the product of `a` and `b`. Its sign is that of the operands' signs taken
together, also where it is zero or infinite. -/
structure IsProduct (a b w : ℕ) : Prop where
  word : w < 2 ^ F.width
  nan : F.IsNaN a ∨ F.IsNaN b → F.IsQuietNaN w
  invalid_left : F.IsInfinite a → F.magnitude b = 0 → F.IsQuietNaN w
  invalid_right : F.magnitude a = 0 → F.IsInfinite b → F.IsQuietNaN w
  infinite_left : F.IsInfinite a → ¬ F.IsNaN b → F.magnitude b ≠ 0 →
    F.IsInfinite w ∧ F.negative w = (F.negative a ^^ F.negative b)
  infinite_right : ¬ F.IsNaN a → F.magnitude a ≠ 0 → F.IsInfinite b →
    F.IsInfinite w ∧ F.negative w = (F.negative a ^^ F.negative b)
  zero : F.IsFinite a → F.IsFinite b → F.value a * F.value b = 0 →
    F.magnitude w = 0 ∧ F.negative w = (F.negative a ^^ F.negative b)
  rounded : F.IsFinite a → F.IsFinite b → F.value a * F.value b ≠ 0 →
    F.RoundsTo (F.value a * F.value b) w

/-- `w` is the word of the quotient of `a` and `b`. Its sign is that of the operands' signs taken
together, also where it is zero or infinite. -/
structure IsQuotient (a b w : ℕ) : Prop where
  word : w < 2 ^ F.width
  nan : F.IsNaN a ∨ F.IsNaN b → F.IsQuietNaN w
  invalid_infinite : F.IsInfinite a → F.IsInfinite b → F.IsQuietNaN w
  invalid_zero : F.magnitude a = 0 → F.magnitude b = 0 → F.IsQuietNaN w
  infinite : F.IsInfinite a → F.IsFinite b →
    F.IsInfinite w ∧ F.negative w = (F.negative a ^^ F.negative b)
  by_zero : F.IsFinite a → F.magnitude a ≠ 0 → F.magnitude b = 0 →
    F.IsInfinite w ∧ F.negative w = (F.negative a ^^ F.negative b)
  by_infinite : F.IsFinite a → F.IsInfinite b →
    F.magnitude w = 0 ∧ F.negative w = (F.negative a ^^ F.negative b)
  zero : F.magnitude a = 0 → F.IsFinite b → F.magnitude b ≠ 0 →
    F.magnitude w = 0 ∧ F.negative w = (F.negative a ^^ F.negative b)
  rounded : F.IsFinite a → F.IsFinite b → F.value a ≠ 0 → F.value b ≠ 0 →
    F.RoundsTo (F.value a / F.value b) w

/-! ### Magnitudes as integers -/

/-- The least number above zero. -/
def unit : ℚ := 2 ^ (1 - F.bias - F.fraction_bits : ℤ)

/-- How many times the least number above zero a magnitude is. -/
def scaled (m : ℕ) : ℕ :=
  if m / 2 ^ F.fraction_bits = 0 then m
  else (2 ^ F.fraction_bits + m % 2 ^ F.fraction_bits) * 2 ^ (m / 2 ^ F.fraction_bits - 1)

variable {F}

theorem unit_pos : 0 < F.unit := by
  unfold unit
  positivity

theorem fraction_magnitude (w : ℕ) : F.magnitude w % 2 ^ F.fraction_bits = F.fraction w := by
  unfold magnitude fraction width
  rw [Nat.add_sub_cancel, pow_add, Nat.mod_mul_right_mod]

theorem absValue_eq (w : ℕ) : F.absValue w = F.scaled (F.magnitude w) * F.unit := by
  unfold absValue scaled unit
  rw [fraction_magnitude, exponent]
  have htwo : (2 : ℚ) ≠ 0 := two_ne_zero
  split_ifs with h
  · have hfrac : F.magnitude w = F.fraction w := by
      rw [← fraction_magnitude, Nat.mod_eq_of_lt]
      exact (Nat.div_eq_zero_iff.1 h).resolve_left (by positivity)
    rw [hfrac, zpow_sub₀ htwo, zpow_sub₀ htwo, zpow_sub₀ htwo, zpow_natCast, zpow_natCast]
    field_simp
  · obtain ⟨c, hc⟩ := Nat.exists_eq_succ_of_ne_zero h
    rw [hc, Nat.succ_sub_one, zpow_sub₀ htwo, zpow_sub₀ htwo, zpow_sub₀ htwo, zpow_natCast,
      zpow_natCast, zpow_natCast, pow_succ]
    push_cast
    field_simp

/-- A significand at an exponent, whether the significand is normal, only half way there at the
least exponent, or has just been carried over. -/
theorem scaled_eq {E t : ℕ} (hE : 1 ≤ E) (ht : t ≤ 2 ^ (F.fraction_bits + 1))
    (hn : E = 1 ∨ 2 ^ F.fraction_bits ≤ t) :
    F.scaled ((E - 1) * 2 ^ F.fraction_bits + t) = t * 2 ^ (E - 1) := by
  obtain ⟨e, rfl⟩ := Nat.exists_eq_add_of_le' hE
  have hpos := Nat.two_pow_pos F.fraction_bits
  rw [Nat.add_sub_cancel]
  rw [pow_succ] at ht
  unfold scaled
  rcases Nat.lt_or_ge t (2 ^ F.fraction_bits) with hlt | hge
  · obtain rfl : e = 0 := by omega
    simp [Nat.div_eq_of_lt hlt]
  obtain ⟨s, rfl⟩ := Nat.exists_eq_add_of_le hge
  have hsum : e * 2 ^ F.fraction_bits + (2 ^ F.fraction_bits + s) =
      s + (e + 1) * 2 ^ F.fraction_bits := by ring
  rw [hsum, Nat.add_mul_div_right _ _ hpos, Nat.add_mul_mod_self_right]
  rcases Nat.lt_or_ge s (2 ^ F.fraction_bits) with hs | hs
  · rw [Nat.div_eq_of_lt hs, Nat.mod_eq_of_lt hs, Nat.zero_add, if_neg e.succ_ne_zero,
      Nat.add_sub_cancel]
  · obtain rfl : s = 2 ^ F.fraction_bits := by omega
    rw [Nat.div_self hpos, Nat.mod_self, if_neg (by omega), show 1 + (e + 1) - 1 = e + 1 by omega,
      pow_succ]
    ring

/-- Every magnitude is a significand at an exponent, and the next one is its successor. -/
theorem exists_significand (m : ℕ) : ∃ E t, 1 ≤ E ∧ t < 2 ^ (F.fraction_bits + 1) ∧
    (E = 1 ∨ 2 ^ F.fraction_bits ≤ t) ∧ m = (E - 1) * 2 ^ F.fraction_bits + t := by
  have hdiv := Nat.div_add_mod' m (2 ^ F.fraction_bits)
  rw [pow_succ]
  rcases Nat.eq_zero_or_pos (m / 2 ^ F.fraction_bits) with h | h
  · rw [h] at hdiv
    exact ⟨1, m, le_rfl, by omega, Or.inl rfl, by omega⟩
  · refine ⟨m / 2 ^ F.fraction_bits, 2 ^ F.fraction_bits + m % 2 ^ F.fraction_bits, h, by omega,
      Or.inr (by omega), ?_⟩
    obtain ⟨c, hc⟩ := Nat.exists_eq_add_of_le' h
    rw [hc, Nat.add_mul, Nat.one_mul] at hdiv
    rw [hc, Nat.add_sub_cancel]
    omega

theorem scaled_lt_succ (m : ℕ) : F.scaled m < F.scaled (m + 1) := by
  obtain ⟨E, t, hE, ht, hn, rfl⟩ := F.exists_significand m
  rw [Nat.add_assoc, scaled_eq hE ht.le hn, scaled_eq hE ht (hn.imp_right Nat.le_succ_of_le)]
  exact Nat.mul_lt_mul_of_pos_right t.lt_succ_self (Nat.two_pow_pos _)

/-- The magnitudes are ordered as the numbers they stand for. -/
theorem scaled_strictMono : StrictMono F.scaled := strictMono_nat_of_lt_succ scaled_lt_succ

theorem scaled_zero : F.scaled 0 = 0 := by simp [scaled]

theorem saturated_pos : 2 ≤ F.saturated := by
  have hpow : 2 ^ 2 ≤ 2 ^ F.exponent_bits := Nat.pow_le_pow_right Nat.two_pos F.exponent_two
  unfold saturated
  omega

theorem saturated_eq : F.saturated = 2 * F.bias + 1 := by
  obtain ⟨e, he⟩ := Nat.exists_eq_add_of_le' F.exponent_two
  have hpos := Nat.two_pow_pos e
  unfold saturated bias
  rw [he, show e + 2 - 1 = e + 1 by omega, pow_succ, pow_succ]
  omega

theorem infinity_mod_two : F.infinity % 2 = 0 := by
  obtain ⟨p, hp⟩ := Nat.exists_eq_add_of_le' F.fraction_pos
  unfold infinity
  rw [hp, pow_succ, ← Nat.mul_assoc, Nat.mul_mod_left]

/-! ### Rounding magnitudes -/

variable (F) in
/-- `r` is the magnitude that `X` times the least number above zero is rounded to. -/
structure Nearest (X : ℚ) (r : ℕ) : Prop where
  le_infinity : r ≤ F.infinity
  below : ∀ m < r, (F.scaled m + F.scaled r : ℚ) ≤ 2 * X
  above : ∀ m, r < m → m ≤ F.infinity → 2 * X ≤ F.scaled r + F.scaled m
  below_of_odd : r % 2 = 1 → ∀ m < r, (F.scaled m + F.scaled r : ℚ) < 2 * X
  above_of_odd : r % 2 = 1 → ∀ m, r < m → m ≤ F.infinity → 2 * X < F.scaled r + F.scaled m

variable {X : ℚ} {r : ℕ}

/-- Only the neighbours have to be looked at. -/
theorem Nearest.of_neighbours (hr : r ≤ F.infinity)
    (hbelow : ∀ q, r = q + 1 → (F.scaled q + F.scaled r : ℚ) ≤ 2 * X ∧
      (r % 2 = 1 → (F.scaled q + F.scaled r : ℚ) < 2 * X))
    (habove : r < F.infinity → 2 * X ≤ F.scaled r + F.scaled (r + 1) ∧
      (r % 2 = 1 → 2 * X < F.scaled r + F.scaled (r + 1))) : F.Nearest X r := by
  have hlow : ∀ m < r, ∃ q, r = q + 1 ∧ (F.scaled m : ℚ) ≤ F.scaled q := by
    intro m hm
    obtain ⟨q, rfl⟩ := Nat.exists_eq_succ_of_ne_zero (Nat.ne_zero_of_lt hm)
    exact ⟨q, rfl, Nat.cast_le.2 (scaled_strictMono.monotone (Nat.le_of_lt_succ hm))⟩
  have hhigh : ∀ m, r < m → (F.scaled (r + 1) : ℚ) ≤ F.scaled m := fun m hm =>
    Nat.cast_le.2 (scaled_strictMono.monotone hm)
  refine ⟨hr, fun m hm => ?_, fun m hm hle => ?_, fun hodd m hm => ?_, fun hodd m hm hle => ?_⟩
  · obtain ⟨q, hq, hmq⟩ := hlow m hm
    linarith [(hbelow q hq).1]
  · linarith [(habove (hm.trans_le hle)).1, hhigh m hm]
  · obtain ⟨q, hq, hmq⟩ := hlow m hm
    linarith [(hbelow q hq).2 hodd]
  · linarith [(habove (hm.trans_le hle)).2 hodd, hhigh m hm]

variable {m : ℕ}

/-- A finite magnitude is rounded to itself. -/
theorem Nearest.self (hm : m < F.infinity) : F.Nearest (F.scaled m) m := by
  refine Nearest.of_neighbours hm.le (fun q hq => ?_) fun _ => ?_
  · have hlt : (F.scaled q : ℚ) < F.scaled m :=
      Nat.cast_lt.2 (scaled_strictMono (hq ▸ q.lt_succ_self))
    exact ⟨by linarith, fun _ => by linarith⟩
  · have hlt : (F.scaled m : ℚ) < F.scaled (m + 1) := Nat.cast_lt.2 (scaled_lt_succ m)
    exact ⟨by linarith, fun _ => by linarith⟩

/-- There is one magnitude that a number is rounded to. -/
theorem Nearest.unique {s : ℕ} (hr : F.Nearest X r) (hs : F.Nearest X s) : r = s := by
  have hle : ∀ {r s : ℕ}, F.Nearest X r → F.Nearest X s → s ≤ r := by
    intro r s hr hs
    refine Nat.le_of_not_lt fun hlt => ?_
    have habove := hr.above s hlt hs.le_infinity
    have hbelow := hs.below r hlt
    rcases Nat.mod_two_eq_zero_or_one r with heven | hodd
    · rcases Nat.mod_two_eq_zero_or_one s with heven' | hodd'
      · have hnext := hr.above (r + 1) r.lt_succ_self (by have hinf := hs.le_infinity; omega)
        have hmono : (F.scaled (r + 1) : ℚ) < F.scaled s :=
          Nat.cast_lt.2 (scaled_strictMono (by omega))
        linarith
      · linarith [hs.below_of_odd hodd' r hlt]
    · linarith [hr.above_of_odd hodd s hlt hs.le_infinity]
  exact Nat.le_antisymm (hle hs hr) (hle hr hs)

/-- What is large enough is rounded to the infinity. -/
theorem Nearest.infinity (h : (F.scaled F.infinity : ℚ) ≤ X) : F.Nearest X F.infinity := by
  refine Nearest.of_neighbours le_rfl (fun q hq => ?_) fun hlt => absurd hlt (lt_irrefl _)
  have hlt : (F.scaled q : ℚ) < F.scaled F.infinity :=
    Nat.cast_lt.2 (scaled_strictMono (hq ▸ q.lt_succ_self))
  exact ⟨by linarith, fun _ => by linarith⟩

/-- Down, to the even one, or up: by how the number compares with the middle. -/
def rounded (r : ℕ) : Ordering → ℕ
  | .lt => r
  | .eq => r + r % 2
  | .gt => r + 1

/-- Rounding between two neighbours. -/
theorem nearest_rounded (hr : r < F.infinity) (hlow : (F.scaled r : ℚ) ≤ X)
    (hhigh : X < F.scaled (r + 1)) :
    F.Nearest X (rounded r (cmp (2 * X) (F.scaled r + F.scaled (r + 1)))) := by
  have hpred : ∀ q, r = q + 1 → (F.scaled q : ℚ) < F.scaled r := fun q hq =>
    Nat.cast_lt.2 (scaled_strictMono (hq ▸ q.lt_succ_self))
  have hsucc : (F.scaled (r + 1) : ℚ) < F.scaled (r + 1 + 1) :=
    Nat.cast_lt.2 (scaled_lt_succ (r + 1))
  have hup : (F.scaled r + F.scaled (r + 1) : ℚ) ≤ 2 * X → (r % 2 = 1 ∨
      (F.scaled r + F.scaled (r + 1) : ℚ) < 2 * X) → F.Nearest X (r + 1) := by
    intro hle hodd
    refine Nearest.of_neighbours hr (fun q hq => ?_) fun _ => ⟨by linarith, fun _ => by linarith⟩
    obtain rfl : r = q := Nat.succ.inj hq
    exact ⟨hle, fun h => hodd.resolve_left (by omega)⟩
  have hdown : 2 * X ≤ F.scaled r + F.scaled (r + 1) → (r % 2 = 0 ∨
      2 * X < F.scaled r + F.scaled (r + 1)) → F.Nearest X r := by
    intro hle heven
    refine Nearest.of_neighbours hr.le (fun q hq => ?_) fun _ =>
      ⟨hle, fun h => heven.resolve_left (by omega)⟩
    have hlt := hpred q hq
    exact ⟨by linarith, fun _ => by linarith⟩
  rcases hcmp : cmp (2 * X) (F.scaled r + F.scaled (r + 1) : ℚ) with _ | _ | _
  · have hlt := (cmp_eq_lt_iff _ _).1 hcmp
    exact hdown hlt.le (Or.inr hlt)
  · have heq := (cmp_eq_eq_iff _ _).1 hcmp
    rcases Nat.mod_two_eq_zero_or_one r with h | h
    · rw [rounded, h]
      exact hdown heq.le (Or.inl h)
    · rw [rounded, h]
      exact hup heq.ge (Or.inl h)
  · have hgt := (cmp_eq_gt_iff _ _).1 hcmp
    exact hup hgt.le (Or.inr hgt)

/-- Rounding a significand at an exponent: what was cut off is compared with one half. -/
theorem nearest_significand {E t : ℕ} (hE : 1 ≤ E) (hsat : E < F.saturated)
    (ht : t < 2 ^ (F.fraction_bits + 1)) (hn : E = 1 ∨ 2 ^ F.fraction_bits ≤ t)
    (hlow : t ≤ X / 2 ^ (E - 1)) (hhigh : X / 2 ^ (E - 1) < t + 1) :
    F.Nearest X (rounded ((E - 1) * 2 ^ F.fraction_bits + t)
      (cmp (X / 2 ^ (E - 1)) (t + 1 / 2))) := by
  have hpow : (0 : ℚ) < 2 ^ (E - 1) := by positivity
  have hr := F.scaled_eq hE ht.le hn
  have hr' := F.scaled_eq hE ht (hn.imp_right Nat.le_succ_of_le)
  rw [le_div_iff₀ hpow] at hlow
  rw [div_lt_iff₀ hpow] at hhigh
  have hcmp : cmp (X / 2 ^ (E - 1)) (t + 1 / 2 : ℚ) = cmp (2 * X)
      (F.scaled ((E - 1) * 2 ^ F.fraction_bits + t) +
        F.scaled ((E - 1) * 2 ^ F.fraction_bits + t + 1)) := by
    rw [Nat.add_assoc, hr, hr', ← cmp_mul_pos_right (show (0 : ℚ) < 2 * 2 ^ (E - 1) by positivity)]
    congr 1
    · field_simp
    · push_cast
      ring
  rw [hcmp]
  refine nearest_rounded ?_ ?_ ?_
  · unfold infinity
    have hle : (E + 1) * 2 ^ F.fraction_bits ≤ F.saturated * 2 ^ F.fraction_bits :=
      Nat.mul_le_mul_right _ hsat
    obtain ⟨e, rfl⟩ := Nat.exists_eq_add_of_le' hE
    rw [pow_succ] at ht
    rw [Nat.add_sub_cancel]
    rw [Nat.add_mul, Nat.add_mul] at hle
    omega
  · rw [hr]
    exact_mod_cast hlow
  · rw [Nat.add_assoc, hr']
    exact_mod_cast hhigh

/-! ### Rounding words -/

theorem scaled_infinity : F.scaled F.infinity = 2 ^ F.fraction_bits * 2 ^ (2 * F.bias) := by
  have hsat := F.saturated_eq
  have heq := F.scaled_eq (E := F.saturated) (t := 2 ^ F.fraction_bits) (by omega)
    (Nat.pow_le_pow_right Nat.two_pos (Nat.le_succ _)) (Or.inr le_rfl)
  rwa [hsat, Nat.add_sub_cancel, ← Nat.add_one_mul, ← hsat] at heq

theorem bias_pos : 1 ≤ F.bias := by
  have hsat := F.saturated_eq
  have hpos := F.saturated_pos
  omega

theorem infinity_pos : 0 < F.infinity :=
  Nat.mul_pos (Nat.zero_lt_of_lt F.saturated_pos) (Nat.two_pow_pos _)

/-- The largest finite number. -/
theorem scaled_infinity_sub_one :
    F.scaled (F.infinity - 1) = (2 ^ (F.fraction_bits + 1) - 1) * 2 ^ (2 * F.bias - 1) := by
  have hsat := F.saturated_eq
  have hbias := F.bias_pos
  have hpos := Nat.two_pow_pos F.fraction_bits
  have heq := F.scaled_eq (E := F.saturated - 1) (t := 2 ^ (F.fraction_bits + 1) - 1) (by omega)
    (Nat.sub_le _ _) (Or.inr (by rw [pow_succ]; omega))
  have hindex : (F.saturated - 1 - 1) * 2 ^ F.fraction_bits + (2 ^ (F.fraction_bits + 1) - 1) =
      F.infinity - 1 := by
    obtain ⟨s, hs⟩ := Nat.exists_eq_add_of_le' F.saturated_pos
    unfold infinity
    rw [hs, show s + 2 - 1 - 1 = s by omega, Nat.add_mul, pow_succ]
    omega
  rwa [hindex, show F.saturated - 1 - 1 = 2 * F.bias - 1 by omega] at heq

theorem unit_mul (F : BinaryFormat) :
    F.unit * (2 ^ F.fraction_bits * 2 ^ (2 * F.bias)) = 2 * 2 ^ F.bias := by
  unfold unit
  have htwo : (2 : ℚ) ≠ 0 := two_ne_zero
  rw [zpow_sub₀ htwo, zpow_sub₀ htwo, zpow_natCast, zpow_natCast, two_mul, pow_add]
  field_simp

theorem overflowThreshold_eq :
    2 * F.overflowThreshold = (F.scaled (F.infinity - 1) + F.scaled F.infinity) * F.unit := by
  obtain ⟨b, hb⟩ := Nat.exists_eq_add_of_le' F.bias_pos
  have hunit := F.unit_mul
  have hone : 1 ≤ 2 ^ (F.fraction_bits + 1) := Nat.one_le_two_pow
  rw [scaled_infinity, scaled_infinity_sub_one, overflowThreshold]
  rw [hb, show 2 * (b + 1) = 2 * b + 1 + 1 by ring, pow_succ _ (2 * b + 1)] at hunit
  rw [hb, show 2 * (b + 1) - 1 = 2 * b + 1 by omega, show 2 * (b + 1) = 2 * b + 1 + 1 by ring]
  push_cast [hone]
  have hp : (2 : ℚ) ^ F.fraction_bits ≠ 0 := by positivity
  have hfactor : F.unit * 2 ^ (2 * b + 1) = 2 ^ (b + 1) / 2 ^ F.fraction_bits := by
    rw [eq_div_iff hp]
    linarith
  calc (2 : ℚ) * (2 ^ (b + 1) * (2 - 1 / 2 ^ (F.fraction_bits + 1)))
      = 2 ^ (b + 1) / 2 ^ F.fraction_bits * (4 * 2 ^ F.fraction_bits - 1) := by
        rw [pow_succ _ F.fraction_bits]
        field_simp
        ring
    _ = F.unit * 2 ^ (2 * b + 1) * (4 * 2 ^ F.fraction_bits - 1) := by rw [hfactor]
    _ = _ := by
        rw [pow_succ _ F.fraction_bits, pow_succ _ (2 * b + 1)]
        ring

/-- What is from the threshold on is rounded to the infinity. -/
theorem Nearest.overflow (h : F.Nearest X r)
    (hX : F.overflowThreshold ≤ X * F.unit) : r = F.infinity := by
  by_contra hne
  have hlt : r < F.infinity := lt_of_le_of_ne h.le_infinity hne
  have hle : (F.scaled (F.infinity - 1) + F.scaled F.infinity : ℚ) ≤ 2 * X := by
    refine le_of_mul_le_mul_right ?_ F.unit_pos
    rw [← overflowThreshold_eq]
    linarith
  rcases Nat.lt_or_ge r (F.infinity - 1) with hr | hr
  · have hr' : (F.scaled r : ℚ) < F.scaled (F.infinity - 1) := Nat.cast_lt.2 (scaled_strictMono hr)
    linarith [h.above F.infinity hlt le_rfl]
  · have hodd : r % 2 = 1 := by
      have hmod := F.infinity_mod_two
      omega
    obtain rfl : r = F.infinity - 1 := by omega
    linarith [h.above_of_odd hodd F.infinity hlt le_rfl]

/-- What is below the threshold is rounded to a finite number. -/
theorem Nearest.lt_infinity (h : F.Nearest X r)
    (hX : X * F.unit < F.overflowThreshold) : r < F.infinity := by
  refine lt_of_le_of_ne h.le_infinity fun heq => ?_
  subst heq
  have hle := h.below (F.infinity - 1) (Nat.sub_one_lt F.infinity_pos.ne')
  have hlt : 2 * X * F.unit < (F.scaled (F.infinity - 1) + F.scaled F.infinity) * F.unit := by
    rw [← overflowThreshold_eq]
    linarith
  exact absurd (lt_of_mul_lt_mul_right hlt F.unit_pos.le) (not_lt.2 hle)

/-- No finite magnitude is nearer than the one rounded to. -/
theorem Nearest.abs_sub_le (h : F.Nearest X r) (hm : m ≤ F.infinity) :
    |X - F.scaled r| ≤ |X - F.scaled m| := by
  rcases lt_trichotomy m r with hlt | rfl | hgt
  · have hmono : (F.scaled m : ℚ) < F.scaled r := Nat.cast_lt.2 (scaled_strictMono hlt)
    have hle := h.below m hlt
    rw [abs_of_nonneg (show 0 ≤ X - F.scaled m by linarith)]
    exact abs_le.2 ⟨by linarith, by linarith⟩
  · exact le_rfl
  · have hmono : (F.scaled r : ℚ) < F.scaled m := Nat.cast_lt.2 (scaled_strictMono hgt)
    have hle := h.above m hgt hm
    rw [abs_of_nonpos (show X - F.scaled m ≤ 0 by linarith)]
    exact abs_le.2 ⟨by linarith, by linarith⟩

/-- Another magnitude is as near only where the one rounded to is even. -/
theorem Nearest.abs_sub_lt (h : F.Nearest X r) (hm : m ≤ F.infinity)
    (hne : m ≠ r) (hodd : r % 2 = 1) : |X - F.scaled r| < |X - F.scaled m| := by
  rcases Nat.lt_or_gt_of_ne hne with hlt | hgt
  · have hmono : (F.scaled m : ℚ) < F.scaled r := Nat.cast_lt.2 (scaled_strictMono hlt)
    have hlt' := h.below_of_odd hodd m hlt
    rw [abs_of_nonneg (show 0 ≤ X - F.scaled m by linarith)]
    exact abs_lt.2 ⟨by linarith, by linarith⟩
  · have hmono : (F.scaled r : ℚ) < F.scaled m := Nat.cast_lt.2 (scaled_strictMono hgt)
    have hlt' := h.above_of_odd hodd m hgt hm
    rw [abs_of_nonpos (show X - F.scaled m ≤ 0 by linarith)]
    exact abs_lt.2 ⟨by linarith, by linarith⟩

/-- How far a word is from a number, by whether it has the sign of the number. -/
theorem abs_sub_value {x : ℚ} (hX : 0 ≤ X) (hx : |x| = X * F.unit) (v : ℕ) :
    |x - F.value v| = (if F.negative v = decide (x < 0) then |X - F.scaled (F.magnitude v)|
      else X + F.scaled (F.magnitude v)) * F.unit := by
  have hunit : |F.unit| = F.unit := abs_of_pos F.unit_pos
  have hsum : |(X + F.scaled (F.magnitude v)) * F.unit| = (X + F.scaled (F.magnitude v)) * F.unit :=
    abs_of_nonneg (mul_nonneg (by positivity) F.unit_pos.le)
  unfold value
  rw [absValue_eq]
  rcases lt_or_ge x 0 with hneg | hnn
  · rw [abs_of_neg hneg] at hx
    rw [decide_eq_true hneg]
    cases F.negative v
    · rw [if_neg Bool.false_ne_true, if_neg Bool.false_ne_true, ← hsum, ← abs_neg]
      congr 1
      linarith
    · rw [if_pos rfl, if_pos rfl, ← hunit, ← abs_mul, hunit, ← abs_neg]
      congr 1
      linarith
  · rw [abs_of_nonneg hnn] at hx
    rw [decide_eq_false (not_lt.2 hnn), hx]
    cases F.negative v
    · rw [if_neg Bool.false_ne_true, if_pos rfl, ← sub_mul, abs_mul, hunit]
    · rw [if_pos rfl, if_neg nofun, ← hsum]
      congr 1
      ring

variable {w : ℕ}

/-- A magnitude rounded to, under the sign of the number, is the word rounded to. -/
theorem Nearest.roundsTo {x : ℚ} (hX : 0 < X) (hx : |x| = X * F.unit)
    (h : F.Nearest X (F.magnitude w)) (hw : w < 2 ^ F.width)
    (hsign : F.negative w = decide (x < 0)) : F.RoundsTo x w := by
  have hwx := F.abs_sub_value hX.le hx w
  rw [if_pos hsign] at hwx
  refine ⟨hw, hsign, fun hle => h.overflow (hx ▸ hle), fun hlt => h.lt_infinity (hx ▸ hlt),
    fun _ v _ hv => ?_, fun _ v _ hv hne heq => ?_⟩
  · rw [hwx, abs_sub_value hX.le hx]
    refine mul_le_mul_of_nonneg_right ?_ F.unit_pos.le
    split_ifs
    · exact h.abs_sub_le (le_of_lt hv)
    · refine (h.abs_sub_le (le_of_lt hv)).trans (abs_le.2 ⟨?_, ?_⟩) <;>
        linarith [Nat.cast_nonneg (α := ℚ) (F.scaled (F.magnitude v))]
  by_contra hodd
  have hmag : F.magnitude w % 2 = 1 := by
    have hwidth : F.width - 1 = F.width - 2 + 1 := by
      have hpos := F.fraction_pos
      unfold width
      omega
    unfold magnitude
    rw [hwidth, pow_succ, Nat.mod_mul_left_mod]
    omega
  rw [hwx, abs_sub_value hX.le hx] at heq
  have heq' := mul_right_cancel₀ F.unit_pos.ne' heq
  split_ifs at heq' with hv'
  · refine absurd heq' (ne_of_lt (h.abs_sub_lt (le_of_lt hv) (fun hmv => hne ?_) hmag))
    unfold value
    rw [absValue_eq, absValue_eq, hmv, hv', hsign]
  rcases eq_or_ne (F.magnitude v) (F.magnitude w) with hmv | hmv
  · rw [hmv] at heq'
    have hpos : (0 : ℚ) < F.scaled (F.magnitude w) := by
      rw [Nat.cast_pos, ← F.scaled_zero]
      exact scaled_strictMono (by omega)
    exact absurd heq' (ne_of_lt (abs_lt.2 ⟨by linarith, by linarith⟩))
  · have hlt := h.abs_sub_lt (le_of_lt hv) hmv hmag
    rw [heq'] at hlt
    exact absurd hlt (not_lt.2 (abs_le.2 ⟨by linarith, by linarith⟩))

/-! ### Values of words -/

theorem value_eq (w : ℕ) :
    F.value w = (if F.negative w then -1 else 1) * F.scaled (F.magnitude w) * F.unit := by
  unfold value
  rw [absValue_eq]
  split <;> ring

theorem abs_value (w : ℕ) : |F.value w| = F.scaled (F.magnitude w) * F.unit := by
  have hnn : 0 ≤ F.scaled (F.magnitude w) * F.unit := mul_nonneg (by positivity) F.unit_pos.le
  unfold value
  rw [absValue_eq]
  split
  · rw [abs_neg, abs_of_nonneg hnn]
  · rw [abs_of_nonneg hnn]

theorem scaled_pos (hm : m ≠ 0) : (0 : ℚ) < F.scaled m := by
  rw [Nat.cast_pos, ← F.scaled_zero]
  exact scaled_strictMono (Nat.pos_of_ne_zero hm)

theorem value_eq_zero_iff : F.value w = 0 ↔ F.magnitude w = 0 := by
  rw [← abs_eq_zero, abs_value]
  constructor
  · intro h
    by_contra hne
    exact (mul_pos (F.scaled_pos hne) F.unit_pos).ne' h
  · intro h
    rw [h, scaled_zero, Nat.cast_zero, zero_mul]

theorem negative_eq (hw : F.magnitude w ≠ 0) : F.negative w = decide (F.value w < 0) := by
  have hpos := mul_pos (F.scaled_pos hw) F.unit_pos
  unfold value
  rw [absValue_eq]
  cases F.negative w
  · rw [if_neg Bool.false_ne_true, decide_eq_false (by linarith)]
  · rw [if_pos rfl, decide_eq_true (by linarith)]

theorem signed_ne_zero (hX : 0 < X) (negative : Bool) :
    (if negative then -1 else 1) * X * F.unit ≠ 0 := by
  have hpos := mul_pos hX F.unit_pos
  cases negative
  · rw [if_neg Bool.false_ne_true, one_mul]
    exact hpos.ne'
  · rw [if_pos rfl, neg_one_mul, neg_mul]
    exact (neg_neg_of_pos hpos).ne

/-- A magnitude rounded to, under a sign. -/
theorem Nearest.roundsTo_signed (hX : 0 < X) (h : F.Nearest X (F.magnitude w))
    (hw : w < 2 ^ F.width) : F.RoundsTo ((if F.negative w then -1 else 1) * X * F.unit) w := by
  have hpos := mul_pos hX F.unit_pos
  refine h.roundsTo hX ?_ hw ?_ <;> cases F.negative w
  · rw [if_neg Bool.false_ne_true, one_mul, abs_of_pos hpos]
  · rw [if_pos rfl, neg_one_mul, neg_mul, abs_neg, abs_of_pos hpos]
  · rw [if_neg Bool.false_ne_true, one_mul, decide_eq_false (not_lt.2 hpos.le)]
  · rw [if_pos rfl, neg_one_mul, neg_mul, decide_eq_true (neg_neg_of_pos hpos)]

/-- The number a finite word stands for is rounded to the word. -/
theorem RoundsTo.self (hw : w < 2 ^ F.width) (hfin : F.IsFinite w)
    (hne : F.magnitude w ≠ 0) : F.RoundsTo (F.value w) w :=
  Nearest.roundsTo (F.scaled_pos hne) (F.abs_value w) (Nearest.self hfin) hw (negative_eq hne)

/-! ### Sums -/

variable {a b w : ℕ}

theorem IsInfinite.not_nan (h : F.IsInfinite w) : ¬ F.IsNaN w := h.le.not_gt

theorem IsFinite.not_nan (h : F.IsFinite w) : ¬ F.IsNaN w := fun hnan => h.not_gt hnan

theorem IsFinite.not_infinite (h : F.IsFinite w) : ¬ F.IsInfinite w := ne_of_lt h

theorem IsSum.of_nan (hnan : F.IsNaN a ∨ F.IsNaN b) (hw : w < 2 ^ F.width)
    (hquiet : F.IsQuietNaN w) : F.IsSum a b w where
  word := hw
  nan := fun _ => hquiet
  invalid := fun _ _ _ => hquiet
  infinite_left := fun ha hb => absurd hnan (not_or_intro ha.not_nan hb)
  infinite_right := fun ha hb => absurd hnan (not_or_intro ha.not_nan hb.not_nan)
  zero := fun ha hb => absurd hnan (not_or_intro ha.not_nan hb.not_nan)
  rounded := fun ha hb => absurd hnan (not_or_intro ha.not_nan hb.not_nan)

theorem IsSum.of_finite (ha : F.IsFinite a) (hb : F.IsFinite b) (hw : w < 2 ^ F.width)
    (hzero : F.value a + F.value b = 0 →
      F.magnitude w = 0 ∧ F.negative w = (F.negative a && F.negative b))
    (hrounded : F.value a + F.value b ≠ 0 → F.RoundsTo (F.value a + F.value b) w) :
    F.IsSum a b w where
  word := hw
  nan := fun hnan => absurd hnan (not_or_intro ha.not_nan hb.not_nan)
  invalid := fun hinf => absurd hinf ha.not_infinite
  infinite_left := fun hinf => absurd hinf ha.not_infinite
  infinite_right := fun _ hinf => absurd hinf hb.not_infinite
  zero := fun _ _ => hzero
  rounded := fun _ _ => hrounded

/-- The operands of a sum can be exchanged. -/
theorem IsSum.comm (h : F.IsSum a b w) : F.IsSum b a w where
  word := h.word
  nan := fun hnan => h.nan hnan.symm
  invalid := fun hb ha hne => h.invalid ha hb hne.symm
  infinite_left := fun hb hnan hsign => by
    rcases Nat.lt_trichotomy (F.magnitude a) F.infinity with hlt | heq | hgt
    · exact h.infinite_right hlt hb
    · rw [hsign heq]
      exact h.infinite_left heq hb.not_nan fun _ => (hsign heq).symm
    · exact absurd hgt hnan
  infinite_right := fun hb ha =>
    h.infinite_left ha hb.not_nan fun hinf => absurd hinf hb.not_infinite
  zero := fun hb ha hsum => by
    rw [Bool.and_comm]
    exact h.zero ha hb (by rwa [add_comm])
  rounded := fun hb ha hsum => by
    rw [add_comm] at hsum ⊢
    exact h.rounded ha hb hsum

/-! ### Products -/

theorem IsProduct.of_nan (hnan : F.IsNaN a ∨ F.IsNaN b) (hw : w < 2 ^ F.width)
    (hquiet : F.IsQuietNaN w) : F.IsProduct a b w where
  word := hw
  nan := fun _ => hquiet
  invalid_left := fun _ _ => hquiet
  invalid_right := fun _ _ => hquiet
  infinite_left := fun ha hb => absurd hnan (not_or_intro ha.not_nan hb)
  infinite_right := fun ha _ hb => absurd hnan (not_or_intro ha hb.not_nan)
  zero := fun ha hb => absurd hnan (not_or_intro ha.not_nan hb.not_nan)
  rounded := fun ha hb => absurd hnan (not_or_intro ha.not_nan hb.not_nan)

theorem IsProduct.of_invalid (hinf : F.IsInfinite a ∧ F.magnitude b = 0 ∨
    F.magnitude a = 0 ∧ F.IsInfinite b) (hw : w < 2 ^ F.width) (hquiet : F.IsQuietNaN w) :
    F.IsProduct a b w where
  word := hw
  nan := fun _ => hquiet
  invalid_left := fun _ _ => hquiet
  invalid_right := fun _ _ => hquiet
  infinite_left := fun ha _ hne => by
    rcases hinf with h | h
    · exact absurd h.2 hne
    · rw [IsInfinite, h.1] at ha
      exact absurd ha F.infinity_pos.ne
  infinite_right := fun _ hne hb => by
    rcases hinf with h | h
    · rw [IsInfinite, h.2] at hb
      exact absurd hb F.infinity_pos.ne
    · exact absurd h.1 hne
  zero := fun ha hb =>
    absurd hinf (not_or_intro (fun h => ha.not_infinite h.1) fun h => hb.not_infinite h.2)
  rounded := fun ha hb =>
    absurd hinf (not_or_intro (fun h => ha.not_infinite h.1) fun h => hb.not_infinite h.2)

theorem IsProduct.of_infinite (hinf : F.IsInfinite a ∨ F.IsInfinite b)
    (hnan : ¬ F.IsNaN a ∧ ¬ F.IsNaN b) (hne : F.magnitude a ≠ 0 ∧ F.magnitude b ≠ 0)
    (hw : w < 2 ^ F.width)
    (h : F.IsInfinite w ∧ F.negative w = (F.negative a ^^ F.negative b)) :
    F.IsProduct a b w where
  word := hw
  nan := fun h => absurd h (not_or_intro hnan.1 hnan.2)
  invalid_left := fun _ hzero => absurd hzero hne.2
  invalid_right := fun hzero => absurd hzero hne.1
  infinite_left := fun _ _ _ => h
  infinite_right := fun _ _ _ => h
  zero := fun ha hb => absurd hinf (not_or_intro ha.not_infinite hb.not_infinite)
  rounded := fun ha hb => absurd hinf (not_or_intro ha.not_infinite hb.not_infinite)

theorem IsProduct.of_finite (ha : F.IsFinite a) (hb : F.IsFinite b) (hw : w < 2 ^ F.width)
    (hzero : F.value a * F.value b = 0 →
      F.magnitude w = 0 ∧ F.negative w = (F.negative a ^^ F.negative b))
    (hrounded : F.value a * F.value b ≠ 0 → F.RoundsTo (F.value a * F.value b) w) :
    F.IsProduct a b w where
  word := hw
  nan := fun hnan => absurd hnan (not_or_intro ha.not_nan hb.not_nan)
  invalid_left := fun hinf => absurd hinf ha.not_infinite
  invalid_right := fun _ hinf => absurd hinf hb.not_infinite
  infinite_left := fun hinf => absurd hinf ha.not_infinite
  infinite_right := fun _ _ hinf => absurd hinf hb.not_infinite
  zero := fun _ _ => hzero
  rounded := fun _ _ => hrounded

/-! ### Quotients -/

theorem isFinite_of_zero (h : F.magnitude w = 0) : F.IsFinite w := by
  rw [IsFinite, h]
  exact F.infinity_pos

theorem IsQuotient.of_nan (hnan : F.IsNaN a ∨ F.IsNaN b) (hw : w < 2 ^ F.width)
    (hquiet : F.IsQuietNaN w) : F.IsQuotient a b w where
  word := hw
  nan := fun _ => hquiet
  invalid_infinite := fun _ _ => hquiet
  invalid_zero := fun _ _ => hquiet
  infinite := fun ha hb => absurd hnan (not_or_intro ha.not_nan hb.not_nan)
  by_zero := fun ha _ hb => absurd hnan (not_or_intro ha.not_nan (isFinite_of_zero hb).not_nan)
  by_infinite := fun ha hb => absurd hnan (not_or_intro ha.not_nan hb.not_nan)
  zero := fun ha hb => absurd hnan (not_or_intro (isFinite_of_zero ha).not_nan hb.not_nan)
  rounded := fun ha hb => absurd hnan (not_or_intro ha.not_nan hb.not_nan)

theorem IsQuotient.of_invalid (h : F.IsInfinite a ∧ F.IsInfinite b ∨
    F.magnitude a = 0 ∧ F.magnitude b = 0) (hw : w < 2 ^ F.width) (hquiet : F.IsQuietNaN w) :
    F.IsQuotient a b w where
  word := hw
  nan := fun _ => hquiet
  invalid_infinite := fun _ _ => hquiet
  invalid_zero := fun _ _ => hquiet
  infinite := fun ha hb => absurd h (not_or_intro (fun h => hb.not_infinite h.2)
    fun h => (isFinite_of_zero h.1).not_infinite ha)
  by_zero := fun ha hne _ => absurd h (not_or_intro (fun h => ha.not_infinite h.1) fun h => hne h.1)
  by_infinite := fun ha hb => absurd h (not_or_intro (fun h => ha.not_infinite h.1)
    fun h => (isFinite_of_zero h.2).not_infinite hb)
  zero := fun _ hb hne => absurd h (not_or_intro (fun h => hb.not_infinite h.2) fun h => hne h.2)
  rounded := fun ha _ hne _ => absurd h (not_or_intro (fun h => ha.not_infinite h.1)
    fun h => hne (value_eq_zero_iff.2 h.1))

theorem IsQuotient.of_infinite (h : F.IsInfinite a ∧ F.IsFinite b ∨
    F.IsFinite a ∧ F.magnitude a ≠ 0 ∧ F.magnitude b = 0) (hw : w < 2 ^ F.width)
    (hinf : F.IsInfinite w ∧ F.negative w = (F.negative a ^^ F.negative b)) :
    F.IsQuotient a b w where
  word := hw
  nan := fun hnan => absurd hnan (h.elim (fun h => not_or_intro h.1.not_nan h.2.not_nan)
    fun h => not_or_intro h.1.not_nan (isFinite_of_zero h.2.2).not_nan)
  invalid_infinite := fun ha hb => absurd h (not_or_intro (fun h => h.2.not_infinite hb)
    fun h => h.1.not_infinite ha)
  invalid_zero := fun ha _ => absurd h (not_or_intro
    (fun h => (isFinite_of_zero ha).not_infinite h.1) fun h => h.2.1 ha)
  infinite := fun _ _ => hinf
  by_zero := fun _ _ _ => hinf
  by_infinite := fun _ hb => absurd h (not_or_intro (fun h => h.2.not_infinite hb)
    fun h => (isFinite_of_zero h.2.2).not_infinite hb)
  zero := fun ha _ _ => absurd h (not_or_intro
    (fun h => (isFinite_of_zero ha).not_infinite h.1) fun h => h.2.1 ha)
  rounded := fun ha _ _ hne => absurd h (not_or_intro (fun h => ha.not_infinite h.1)
    fun h => hne (value_eq_zero_iff.2 h.2.2))

theorem IsQuotient.of_zero (h : F.IsFinite a ∧ F.IsInfinite b ∨
    F.magnitude a = 0 ∧ F.IsFinite b ∧ F.magnitude b ≠ 0) (hw : w < 2 ^ F.width)
    (hzero : F.magnitude w = 0 ∧ F.negative w = (F.negative a ^^ F.negative b)) :
    F.IsQuotient a b w where
  word := hw
  nan := fun hnan => absurd hnan (h.elim (fun h => not_or_intro h.1.not_nan h.2.not_nan)
    fun h => not_or_intro (isFinite_of_zero h.1).not_nan h.2.1.not_nan)
  invalid_infinite := fun ha _ => absurd h (not_or_intro (fun h => h.1.not_infinite ha)
    fun h => (isFinite_of_zero h.1).not_infinite ha)
  invalid_zero := fun _ hb => absurd h (not_or_intro
    (fun h => (isFinite_of_zero hb).not_infinite h.2) fun h => h.2.2 hb)
  infinite := fun ha _ => absurd h (not_or_intro (fun h => h.1.not_infinite ha)
    fun h => (isFinite_of_zero h.1).not_infinite ha)
  by_zero := fun _ _ hb => absurd h (not_or_intro
    (fun h => (isFinite_of_zero hb).not_infinite h.2) fun h => h.2.2 hb)
  by_infinite := fun _ _ => hzero
  zero := fun _ _ _ => hzero
  rounded := fun _ hb hne _ => absurd h (not_or_intro (fun h => hb.not_infinite h.2)
    fun h => hne (value_eq_zero_iff.2 h.1))

theorem IsQuotient.of_finite (ha : F.IsFinite a) (hb : F.IsFinite b) (ha0 : F.magnitude a ≠ 0)
    (hb0 : F.magnitude b ≠ 0) (hrounded : F.RoundsTo (F.value a / F.value b) w) :
    F.IsQuotient a b w where
  word := hrounded.word
  nan := fun hnan => absurd hnan (not_or_intro ha.not_nan hb.not_nan)
  invalid_infinite := fun hinf => absurd hinf ha.not_infinite
  invalid_zero := fun hzero => absurd hzero ha0
  infinite := fun hinf => absurd hinf ha.not_infinite
  by_zero := fun _ _ hzero => absurd hzero hb0
  by_infinite := fun _ hinf => absurd hinf hb.not_infinite
  zero := fun hzero => absurd hzero ha0
  rounded := fun _ _ _ _ => hrounded

end BinaryFormat

end RustStd
