import RustStd.Division.Restoring
import RustStd.Foundations.Estimate

/-!
# The trifecta algorithm

`impl_trifecta!` divides words of two halves by three algorithms built on the division of one
half: short division for a divisor of a quarter of the width, a quotient estimated from leading
digits when the quotient is short, and otherwise repeated subtraction of underestimates until one
of the others can finish.
-/

namespace RustStd.Division

open Word Nat Option

section Code

variable (n_h : ℕ) (half_division : ℕ → ℕ → Option (ℕ × ℕ))

def carrying_mul (n lhs rhs : ℕ) : Option (ℕ × ℕ) := do
  let tmp := wrapping_mul (n * 2) lhs rhs
  return (truncate n tmp, truncate n (← shr (n * 2) tmp n))

def carrying_mul_add (n lhs mul add : ℕ) : Option (ℕ × ℕ) := do
  let tmp := wrapping_add (n * 2) (wrapping_mul (n * 2) lhs mul) add
  return (truncate n tmp, truncate n (← shr (n * 2) tmp n))

/-- The product of the quotient and the divisor by its halves, with what overflows. -/
def product (n quo div : ℕ) : Option (ℕ × ℕ) := do
  let div_lo := truncate n div
  let div_hi := truncate n (← shr (n * 2) div n)
  let (tmp_lo, carry) ← carrying_mul n quo div_lo
  let (tmp_hi, overflow) ← carrying_mul_add n quo div_hi carry
  return (tmp_lo ||| (← shl (n * 2) tmp_hi n), overflow)

/-- The quotient of the leading digits -/
def estimate (n duo div duo_lz : ℕ) : Option ℕ := do
  let shift ← checkedSub n duo_lz
  let duo_sig_n := truncate n (← shr (n * 2) duo shift)
  let div_sig_n := truncate n (← shr (n * 2) div shift)
  return (← half_division duo_sig_n div_sig_n).1

/-- The two possibility algorithm -/
def two_possibility (duo div duo_lz : ℕ) : Option (ℕ × ℕ) := do
  let n := n_h * 2
  let quo ← estimate half_division n duo div duo_lz
  let (tmp, overflow) ← product n quo div
  if overflow ≠ 0 ∨ duo < tmp then
    return (← checkedSub quo 1, wrapping_sub (n * 2) (wrapping_add (n * 2) duo div) tmp)
  else return (quo, ← checkedSub duo tmp)

/-- The variables of the undersubtracting loop. -/
structure Undersubtraction where
  duo : ℕ
  quo : ℕ
  duo_lz : ℕ
  deriving DecidableEq

/-- The tests after a subtraction -/
def after_subtraction (div div_lz duo quo : ℕ) : Option (Turn Undersubtraction (ℕ × ℕ)) := do
  let n := n_h * 2
  let duo_lz := leading_zeros (n * 2) duo
  if div_lz ≤ duo_lz then
    if div ≤ duo then return .done (← add (n * 2) quo 1, ← checkedSub duo div)
    else return .done (quo, duo)
  else if n ≤ duo_lz then
    let tmp ← half_division (truncate n duo) (truncate n div)
    return .done (← add (n * 2) quo tmp.1, tmp.2)
  else return .again ⟨duo, quo, duo_lz⟩

/-- A turn that subtracts an underestimate -/
def undersubtract (div div_lz div_extra div_sig_n_h_add1 duo_extra duo_sig_n : ℕ)
    (s : Undersubtraction) : Option (Turn Undersubtraction (ℕ × ℕ)) := do
  let n := n_h * 2
  let quo_part := (← half_division duo_sig_n div_sig_n_h_add1).1
  let extra_shl ← checkedSub duo_extra div_extra
  let quo ← add (n * 2) s.quo (← shl (n * 2) quo_part extra_shl)
  let duo ← checkedSub s.duo (← shl (n * 2) (wrapping_mul (n * 2) div quo_part) extra_shl)
  after_subtraction n_h half_division div div_lz duo quo

/-- The turn that ends with the two possibility algorithm -/
def last_estimate (div : ℕ) (s : Undersubtraction) : Option (ℕ × ℕ) := do
  let n := n_h * 2
  let quo_part ← estimate half_division n s.duo div s.duo_lz
  let (tmp, _) ← product n quo_part div
  if s.duo < tmp then
    return (← add (n * 2) s.quo (← checkedSub quo_part 1),
      wrapping_sub (n * 2) (wrapping_add (n * 2) s.duo div) tmp)
  else return (← add (n * 2) s.quo quo_part, ← checkedSub s.duo tmp)

/-- One turn of the undersubtracting loop -/
def undersubtracting_step (div div_lz div_extra div_sig_n_h_add1 : ℕ) (s : Undersubtraction) :
    Option (Turn Undersubtraction (ℕ × ℕ)) := do
  let n := n_h * 2
  let duo_extra ← checkedSub n s.duo_lz
  let duo_sig_n := truncate n (← shr (n * 2) s.duo duo_extra)
  if div_extra ≤ duo_extra then
    undersubtract n_h half_division div div_lz div_extra div_sig_n_h_add1 duo_extra duo_sig_n s
  else return .done (← last_estimate n_h half_division div s)

/-- The undersubtracting algorithm -/
def undersubtracting (duo div duo_lz div_lz : ℕ) : Option (ℕ × ℕ) := do
  let n := n_h * 2
  let div_extra ← checkedSub (n + n_h) div_lz
  let div_sig_n_h := truncate n_h (← shr (n * 2) div div_extra)
  let div_sig_n_h_add1 ← add n div_sig_n_h 1
  runLoop (undersubtracting_step n_h half_division div div_lz div_extra div_sig_n_h_add1)
    (duo + 1) ⟨duo, 0, duo_lz⟩

/-- `impl_trifecta!` -/
def trifecta (duo div : ℕ) : Option (ℕ × ℕ) := do
  let n := n_h * 2
  if div = 0 then none
  let div_lz := leading_zeros (n * 2) div
  let duo_lz := leading_zeros (n * 2) duo
  if div_lz ≤ duo_lz then
    if div ≤ duo then return (1, ← checkedSub duo div) else return (0, duo)
  else if n ≤ duo_lz then half_division (truncate n duo) (truncate n div)
  else if n + n_h ≤ div_lz then short_division n_h half_division duo (truncate n_h div)
  else
    let lz_diff ← checkedSub div_lz duo_lz
    if lz_diff < n_h then two_possibility n_h half_division duo div duo_lz
    else undersubtracting n_h half_division duo div duo_lz div_lz

end Code

variable {n n_h duo div : ℕ} {half_division : ℕ → ℕ → Option (ℕ × ℕ)} {s : Undersubtraction}

theorem product_eq {quo : ℕ} (hn : n ≠ 0) (hquo : quo < 2 ^ n) (hdiv : div < 2 ^ (n * 2)) :
    product n quo div = some (quo * div % 2 ^ (n * 2), quo * div / 2 ^ (n * 2)) := by
  have hhigh := high_lt hdiv
  have hlow : div % 2 ^ n < 2 ^ n := mod_lt _ (Nat.two_pow_pos n)
  have hlow_mul : quo * (div % 2 ^ n) < 2 ^ (n * 2) := by
    rw [two_pow_mul_two]
    exact Nat.mul_lt_mul'' hquo hlow
  have hcarry := high_lt hlow_mul
  have hhigh_mul : quo * (div / 2 ^ n) + quo * (div % 2 ^ n) / 2 ^ n < 2 ^ (n * 2) := by
    rw [two_pow_mul_two]
    calc quo * (div / 2 ^ n) + quo * (div % 2 ^ n) / 2 ^ n
      _ < quo * 2 ^ n + 2 ^ n :=
        Nat.add_lt_add_of_le_of_lt (Nat.mul_le_mul_left quo hhigh.le) hcarry
      _ = (quo + 1) * 2 ^ n := by ring
      _ ≤ 2 ^ n * 2 ^ n := Nat.mul_le_mul_right _ hquo
  have hsum : quo * div = quo * (div % 2 ^ n) % 2 ^ n +
      2 ^ n * (quo * (div / 2 ^ n) + quo * (div % 2 ^ n) / 2 ^ n) := calc
    quo * div = quo * (div % 2 ^ n) + 2 ^ n * (quo * (div / 2 ^ n)) := by
      rw [Nat.mul_left_comm, ← Nat.mul_add, mod_add_div]
    _ = quo * (div % 2 ^ n) % 2 ^ n + 2 ^ n * (quo * (div % 2 ^ n) / 2 ^ n) +
        2 ^ n * (quo * (div / 2 ^ n)) := by rw [mod_add_div]
    _ = _ := by ring
  have hlow_lt : quo * (div % 2 ^ n) % 2 ^ n < 2 ^ n := mod_lt _ (Nat.two_pow_pos n)
  have htmp : quo * div / 2 ^ n = quo * (div / 2 ^ n) + quo * (div % 2 ^ n) / 2 ^ n := by
    rw [hsum, add_mul_div_left _ _ (Nat.two_pow_pos n), div_eq_of_lt hlow_lt, Nat.zero_add]
  have hmod : quo * div % 2 ^ n = quo * (div % 2 ^ n) % 2 ^ n := by
    rw [hsum, add_mul_mod_self_left, mod_eq_of_lt hlow_lt]
  have hlow_div : truncate n div = div % 2 ^ n := rfl
  rw [← htmp] at hhigh_mul
  simp only [product, carrying_mul, carrying_mul_add, shr_eq (show n < n * 2 by lia),
    truncate_eq hhigh, hlow_div, wrapping_mul_eq hlow_mul, truncate_eq hcarry,
    wrapping_mul_eq ((Nat.le_add_right _ _).trans_lt (htmp ▸ hhigh_mul)), wrapping_add, ← htmp,
    mod_eq_of_lt hhigh_mul, truncate_eq (high_lt hhigh_mul), some_bind, Option.pure_def]
  rw [truncate, truncate, shl_half_eq hn (mod_lt _ (Nat.two_pow_pos n)), some_bind,
    or_eq_add hlow_lt, two_pow_mul_two, mod_mul, hmod, Nat.div_div_eq_div_mul,
    Nat.mul_comm (2 ^ n) (_ % _)]

variable (hhalf : Divides (n_h * 2) half_division)
include hhalf

/-- The quotient of the leading digits is an estimate, of a quarter of the width. -/
theorem estimate_eq (hduo : duo < 2 ^ (n_h * 2 * 2))
    (hlz : n_h * 2 < duo.size) (hle : div.size ≤ duo.size) (hlt : duo.size < div.size + n_h) :
    ∃ quo, estimate half_division (n_h * 2) duo div (leading_zeros (n_h * 2 * 2) duo) = some quo ∧
      quo < 2 ^ n_h ∧ Estimates duo div quo := by
  have hlz_eq := leading_zeros_add_size hduo
  obtain ⟨shift, hshift⟩ := Nat.exists_eq_add_of_lt hlz
  have hduo_sig : duo / 2 ^ (shift + 1) < 2 ^ (n_h * 2) := by
    refine Nat.div_lt_of_lt_mul ?_
    rw [← pow_add]
    exact (lt_two_pow_size duo).trans_le (Nat.pow_le_pow_right (by lia) (by lia))
  have hdiv_sig : div / 2 ^ (shift + 1) < 2 ^ (n_h * 2) := by
    refine Nat.div_lt_of_lt_mul ?_
    rw [← pow_add]
    exact (lt_two_pow_size div).trans_le (Nat.pow_le_pow_right (by lia) (by lia))
  have hdigits : 2 ^ n_h ≤ div / 2 ^ (shift + 1) := by
    rw [Nat.le_div_iff_mul_le (Nat.two_pow_pos _), ← pow_add]
    exact lt_size.1 (by lia)
  have hpos : div / 2 ^ (shift + 1) ≠ 0 := by
    have := Nat.two_pow_pos n_h
    lia
  have hquo : duo / 2 ^ (shift + 1) / (div / 2 ^ (shift + 1)) < 2 ^ n_h := by
    refine Nat.div_lt_of_lt_mul (hduo_sig.trans_le ?_)
    rw [two_pow_mul_two]
    exact Nat.mul_le_mul_right _ hdigits
  refine ⟨_, ?_, hquo, div_le_estimate (Nat.two_pow_pos _) hpos,
    pred_estimate_mul_le (Nat.two_pow_pos _) ?_⟩
  · rw [estimate, checkedSub_eq (by lia),
      show n_h * 2 - leading_zeros (n_h * 2 * 2) duo = shift + 1 by lia]
    simp [shr_eq (show shift + 1 < n_h * 2 * 2 by lia), truncate_eq hduo_sig, truncate_eq
      hdiv_sig, hhalf _ _ hduo_sig hdiv_sig hpos, some_bind]
  · rw [Nat.mul_comm]
    exact Nat.mul_le_mul (sub_le _ _) ((sub_le _ _).trans (hquo.le.trans hdigits))

/-- **The two possibility algorithm** is division. -/
theorem two_possibility_eq
    (hduo : duo < 2 ^ (n_h * 2 * 2)) (hdiv : div < 2 ^ (n_h * 2 * 2)) (hpos : div ≠ 0)
    (hlz : n_h * 2 < duo.size) (hle : div.size ≤ duo.size) (hlt : duo.size < div.size + n_h) :
    two_possibility n_h half_division duo div (leading_zeros (n_h * 2 * 2) duo) =
      some (duo / div, duo % div) := by
  obtain ⟨quo, hest, hquo, hestimates⟩ := estimate_eq hhalf hduo hlz hle hlt
  have hn : n_h * 2 ≠ 0 := by lia
  have hquo_lt : quo < 2 ^ (n_h * 2) := hquo.trans_le (Nat.pow_le_pow_right (by lia) (by lia))
  obtain ⟨hfits, hexceeds⟩ := hestimates.eq hpos
  simp only [two_possibility, hest, product_eq hn hquo_lt hdiv, some_bind]
  have hmod := div_add_mod (quo * div) (2 ^ (n_h * 2 * 2))
  rcases lt_or_ge duo (quo * div) with hover | hle
  · obtain ⟨hne, hquo_eq, hrem_eq⟩ := hexceeds hover
    have hcond : quo * div / 2 ^ (n_h * 2 * 2) ≠ 0 ∨ duo < quo * div % 2 ^ (n_h * 2 * 2) := by
      by_contra! h
      rw [h.1, mul_zero, zero_add] at hmod
      lia
    have hle : quo * div ≤ duo + div := by
      have hpred := hestimates.pred
      rw [Nat.sub_mul, Nat.one_mul] at hpred
      lia
    have hrem_lt : duo + div - quo * div < 2 ^ (n_h * 2 * 2) := by lia
    rw [if_pos hcond, checkedSub_eq (one_le_iff_ne_zero.2 hne), wrapping_add,
      wrapping_sub_mod hle hrem_lt, hquo_eq, hrem_eq]
    rfl
  · obtain ⟨hquo_eq, hrem_eq⟩ := hfits hle
    rw [mod_eq_of_lt (hle.trans_lt hduo), div_eq_of_lt (hle.trans_lt hduo),
      if_neg (by lia), checkedSub_eq hle, hquo_eq, hrem_eq]
    rfl

theorem last_estimate_eq
    (hduo : s.duo < 2 ^ (n_h * 2 * 2)) (hdiv : div.size + n_h ≤ n_h * 2 * 2) (hpos : div ≠ 0)
    (hlz : n_h * 2 < s.duo.size) (hle : div.size ≤ s.duo.size) (hlt : s.duo.size < div.size + n_h)
    (hduo_lz : s.duo_lz = leading_zeros (n_h * 2 * 2) s.duo)
    (hsum : s.quo + s.duo / div < 2 ^ (n_h * 2 * 2)) :
    last_estimate n_h half_division div s = some (s.quo + s.duo / div, s.duo % div) := by
  obtain ⟨quo, hest, hquo, hestimates⟩ := estimate_eq hhalf hduo hlz hle hlt
  have hquo_lt : quo < 2 ^ (n_h * 2) := hquo.trans_le (Nat.pow_le_pow_right (by lia) (by lia))
  have hdiv_lt : div < 2 ^ (n_h * 2 * 2) :=
    (lt_two_pow_size div).trans_le (Nat.pow_le_pow_right (by lia) (by lia))
  -- the divisor is small enough for the product not to overflow
  have hproduct : quo * div < 2 ^ (n_h * 2 * 2) := calc
    quo * div < 2 ^ n_h * 2 ^ div.size := Nat.mul_lt_mul'' hquo (lt_two_pow_size div)
    _ = 2 ^ (n_h + div.size) := (pow_add _ _ _).symm
    _ ≤ 2 ^ (n_h * 2 * 2) := Nat.pow_le_pow_right (by lia) (by lia)
  obtain ⟨hfits, hexceeds⟩ := hestimates.eq hpos
  rw [last_estimate, hduo_lz]
  simp only [hest, product_eq (by lia) hquo_lt hdiv_lt,
    mod_eq_of_lt hproduct, some_bind]
  split
  · next hover =>
    obtain ⟨hne, hquo_eq, hrem_eq⟩ := hexceeds hover
    have hle : quo * div ≤ s.duo + div := by
      have hpred := hestimates.pred
      rw [Nat.sub_mul, Nat.one_mul] at hpred
      lia
    have hsub := wrapping_sub_mod hle (show s.duo + div - quo * div < 2 ^ (n_h * 2 * 2) by lia)
    rw [mod_eq_of_lt hproduct] at hsub
    rw [hquo_eq] at hsum
    rw [checkedSub_eq (one_le_iff_ne_zero.2 hne), some_bind, add_eq hsum, wrapping_add,
      hsub, hquo_eq, hrem_eq]
    rfl
  · next hle =>
    obtain ⟨hquo_eq, hrem_eq⟩ := hfits (Nat.le_of_not_lt hle)
    rw [hquo_eq] at hsum
    rw [add_eq hsum, checkedSub_eq (Nat.le_of_not_lt hle), hquo_eq, hrem_eq]
    rfl

omit hhalf

/-- What the undersubtracting loop keeps: what was subtracted is in the quotient, and the rest of
the dividend is longer than a half and than the divisor. -/
structure Undersubtraction.Inv (n_h duo div : ℕ) (s : Undersubtraction) : Prop where
  eq : duo = s.quo * div + s.duo
  duo_lz : s.duo_lz = leading_zeros (n_h * 2 * 2) s.duo
  half : n_h * 2 < s.duo.size
  longer : div.size < s.duo.size

/-- What a turn of the loop comes to. -/
def Undersubtracts (n_h duo div : ℕ) (s : Undersubtraction) :
    Option (Turn Undersubtraction (ℕ × ℕ)) → Prop :=
  TurnSpec (Undersubtraction.Inv n_h duo div) Undersubtraction.duo
    (fun r => r = (duo / div, duo % div)) s

theorem div_mod_of_eq_add {quo rest : ℕ} (hpos : div ≠ 0) (h : duo = quo * div + rest) :
    duo / div = quo + rest / div ∧ duo % div = rest % div := by
  rw [h, mul_comm, mul_add_div (pos_of_ne_zero hpos), mul_add_mod]
  exact ⟨rfl, rfl⟩

/-- The dividend is not twice a divisor of its length. -/
theorem sub_lt_of_size_le {rest : ℕ} (hpos : div ≠ 0) (h : rest.size ≤ div.size) :
    rest - div < div := by
  have hlt : rest < 2 * div := calc
    rest < 2 ^ rest.size := lt_two_pow_size rest
    _ ≤ 2 ^ div.size := Nat.pow_le_pow_right (by lia) h
    _ ≤ 2 * div := two_pow_size_le hpos
  lia

theorem after_subtraction_spec {rest quo : ℕ}
    (hhalf : Divides (n_h * 2) half_division) (hduo : duo < 2 ^ (n_h * 2 * 2)) (hpos : div ≠ 0)
    (hdiv : div < 2 ^ (n_h * 2 * 2)) (heq : duo = quo * div + rest) (hlt : rest < s.duo) :
    Undersubtracts n_h duo div s (after_subtraction n_h half_division div
      (leading_zeros (n_h * 2 * 2) div) rest quo) := by
  obtain ⟨hquo_eq, hrem_eq⟩ := div_mod_of_eq_add hpos heq
  have hrest : rest < 2 ^ (n_h * 2 * 2) := by lia
  have hdiv_lz := leading_zeros_add_size hdiv
  have hrest_lz := leading_zeros_add_size hrest
  have hquo_lt : duo / div < 2 ^ (n_h * 2 * 2) := (div_le_self _ _).trans_lt hduo
  rw [after_subtraction]
  split
  · next hle =>
    split
    · next hge =>
      obtain ⟨hone, hmod⟩ := div_mod_of_eq (show rest = 1 * div + (rest - div) by lia)
        (sub_lt_of_size_le hpos (by lia))
      rw [hone] at hquo_eq
      rw [hmod] at hrem_eq
      rw [add_eq (hquo_eq ▸ hquo_lt), checkedSub_eq hge]
      exact Prod.ext hquo_eq.symm hrem_eq.symm
    · next hlt' =>
      rw [div_eq_of_lt (Nat.lt_of_not_le hlt'), Nat.add_zero] at hquo_eq
      rw [mod_eq_of_lt (Nat.lt_of_not_le hlt')] at hrem_eq
      exact Prod.ext hquo_eq.symm hrem_eq.symm
  next hlonger =>
  split
  · next hshort =>
    have hrest_lt : rest < 2 ^ (n_h * 2) := size_le.1 (by lia)
    have hdiv_lt : div < 2 ^ (n_h * 2) := size_le.1 (by lia)
    rw [truncate_eq hrest_lt, truncate_eq hdiv_lt, hhalf _ _ hrest_lt hdiv_lt hpos]
    simp only [some_bind, add_eq (hquo_eq ▸ hquo_lt)]
    exact Prod.ext hquo_eq.symm hrem_eq.symm
  · next hhalf_lt =>
    exact ⟨⟨heq, rfl, by dsimp only; lia, by dsimp only; lia⟩, hlt⟩

/-- Subtracting an underestimate makes progress. -/
theorem undersubtract_spec {duo_extra : ℕ} (h : s.Inv n_h duo div)
    (hhalf : Divides (n_h * 2) half_division) (hduo : duo < 2 ^ (n_h * 2 * 2)) (hpos : div ≠ 0)
    (hdiv : div < 2 ^ (n_h * 2 * 2)) (hlong : n_h < div.size)
    (hextra : s.duo.size = n_h * 2 + duo_extra) (hle : div.size - n_h ≤ duo_extra) :
    Undersubtracts n_h duo div s (undersubtract n_h half_division div
      (leading_zeros (n_h * 2 * 2) div) (div.size - n_h) (div / 2 ^ (div.size - n_h) + 1) duo_extra
      (s.duo / 2 ^ duo_extra) s) := by
  have heq := h.eq
  have hrest : s.duo < 2 ^ (n_h * 2 * 2) := by lia
  have hsize := size_le_of_lt hrest
  have hdigits : div / 2 ^ (div.size - n_h) < 2 ^ n_h := by
    refine Nat.div_lt_of_lt_mul ?_
    rw [← pow_add, Nat.sub_add_cancel hlong.le]
    exact lt_two_pow_size div
  have hround := (Nat.div_lt_iff_lt_mul (Nat.two_pow_pos (div.size - n_h))).1
    (lt_succ_self (div / 2 ^ (div.size - n_h)))
  have hsig : s.duo / 2 ^ duo_extra < 2 ^ (n_h * 2) := by
    refine Nat.div_lt_of_lt_mul ?_
    rw [← pow_add, Nat.add_comm, ← hextra]
    exact lt_two_pow_size s.duo
  have hsig_ge : 2 ^ n_h ≤ s.duo / 2 ^ duo_extra := by
    rw [Nat.le_div_iff_mul_le (Nat.two_pow_pos _), ← pow_add]
    exact lt_size.1 (by lia)
  have hpow : 2 ^ duo_extra = 2 ^ (div.size - n_h) * 2 ^ (duo_extra - (div.size - n_h)) := by
    rw [← pow_add, Nat.add_sub_cancel' hle]
  have hunder : s.duo / 2 ^ duo_extra / (div / 2 ^ (div.size - n_h) + 1) *
      2 ^ (duo_extra - (div.size - n_h)) * div ≤ s.duo := by
    refine underestimate_le hround ?_
    rw [← hpow]
    exact div_mul_le_self _ _
  have hpart : 1 ≤ s.duo / 2 ^ duo_extra / (div / 2 ^ (div.size - n_h) + 1) :=
    (Nat.one_le_div_iff (succ_pos _)).2 (by lia)
  rw [undersubtract, hhalf _ _ hsig (by lia) (succ_ne_zero _), some_bind]
  generalize s.duo / 2 ^ duo_extra / (div / 2 ^ (div.size - n_h) + 1) = quo_part at *
  generalize hshl : duo_extra - (div.size - n_h) = extra_shl at *
  have hpow_pos := Nat.two_pow_pos extra_shl
  have hsub : div * quo_part * 2 ^ extra_shl = quo_part * 2 ^ extra_shl * div := by ring
  have hmul : div * quo_part ≤ div * quo_part * 2 ^ extra_shl := Nat.le_mul_of_pos_right _ hpow_pos
  have hpart_le : quo_part * 2 ^ extra_shl ≤ quo_part * 2 ^ extra_shl * div :=
    Nat.le_mul_of_pos_right _ (Nat.pos_of_ne_zero hpos)
  have hquo_le : s.quo ≤ s.quo * div := Nat.le_mul_of_pos_right _ (Nat.pos_of_ne_zero hpos)
  have hsubtracted : 0 < quo_part * 2 ^ extra_shl * div :=
    Nat.mul_pos (Nat.mul_pos hpart hpow_pos) (Nat.pos_of_ne_zero hpos)
  have hpart_lt := (hpart_le.trans hunder).trans_lt hrest
  have hquo_lt : s.quo + quo_part * 2 ^ extra_shl < 2 ^ (n_h * 2 * 2) :=
    (Nat.add_le_add hquo_le (hpart_le.trans hunder)).trans_lt (heq ▸ hduo)
  have hshl_lt := (hsub.trans_le hunder).trans_lt hrest
  have hextra_lt : extra_shl < n_h * 2 * 2 := by lia
  simp only [checkedSub_eq hle, hshl, shl_eq hextra_lt hpart_lt, add_eq hquo_lt,
    wrapping_mul_eq (hmul.trans_lt hshl_lt), shl_eq hextra_lt hshl_lt, hsub, checkedSub_eq hunder,
    some_bind]
  refine after_subtraction_spec hhalf hduo hpos hdiv ?_
    (sub_lt (hsubtracted.trans_le hunder) hsubtracted)
  rw [Nat.add_mul, Nat.add_assoc, Nat.add_sub_cancel' hunder]
  exact heq

theorem undersubtracting_step_spec (h : s.Inv n_h duo div)
    (hhalf : Divides (n_h * 2) half_division) (hduo : duo < 2 ^ (n_h * 2 * 2)) (hpos : div ≠ 0)
    (hlong : n_h < div.size) (hshort : div.size + n_h ≤ n_h * 2 * 2) :
    Undersubtracts n_h duo div s (undersubtracting_step n_h half_division div
      (leading_zeros (n_h * 2 * 2) div) (div.size - n_h) (div / 2 ^ (div.size - n_h) + 1) s) := by
  have heq := h.eq
  have hhalf_lt := h.half
  have hrest : s.duo < 2 ^ (n_h * 2 * 2) := by lia
  have hdiv : div < 2 ^ (n_h * 2 * 2) :=
    (lt_two_pow_size div).trans_le (Nat.pow_le_pow_right (by lia) (by lia))
  have hlz := leading_zeros_add_size hrest
  rw [← h.duo_lz] at hlz
  obtain ⟨duo_extra, hextra⟩ := Nat.exists_eq_add_of_lt hhalf_lt
  have hsig : s.duo / 2 ^ (duo_extra + 1) < 2 ^ (n_h * 2) := by
    refine Nat.div_lt_of_lt_mul ?_
    rw [← pow_add]
    exact (lt_two_pow_size s.duo).trans_le (Nat.pow_le_pow_right (by lia) (by lia))
  rw [undersubtracting_step, checkedSub_eq (by lia),
    show n_h * 2 - s.duo_lz = duo_extra + 1 by lia]
  simp only [shr_eq (show duo_extra + 1 < n_h * 2 * 2 by lia), truncate_eq hsig, some_bind]
  split
  · next hle => exact undersubtract_spec h hhalf hduo hpos hdiv hlong (by lia) hle
  · next hlast =>
    obtain ⟨hquo_eq, hrem_eq⟩ := div_mod_of_eq_add hpos heq
    have hsum : s.quo + s.duo / div < 2 ^ (n_h * 2 * 2) := by
      rw [← hquo_eq]
      exact (Nat.div_le_self _ _).trans_lt hduo
    rw [last_estimate_eq hhalf hrest hshort hpos hhalf_lt h.longer.le (by lia) h.duo_lz hsum]
    exact Prod.ext hquo_eq.symm hrem_eq.symm

/-- **The undersubtracting algorithm** ends, and is division. -/
theorem undersubtracting_eq (hhalf : Divides (n_h * 2) half_division)
    (hduo : duo < 2 ^ (n_h * 2 * 2)) (hpos : div ≠ 0) (hlong : n_h < div.size)
    (hlz : n_h * 2 < duo.size) (hdiff : div.size + n_h ≤ duo.size) :
    undersubtracting n_h half_division duo div (leading_zeros (n_h * 2 * 2) duo)
      (leading_zeros (n_h * 2 * 2) div) = some (duo / div, duo % div) := by
  have hsize := size_le_of_lt hduo
  have hdiv : div < 2 ^ (n_h * 2 * 2) :=
    (lt_two_pow_size div).trans_le (Nat.pow_le_pow_right (by lia) (by lia))
  have hdiv_lz := leading_zeros_add_size hdiv
  have hdigits : div / 2 ^ (div.size - n_h) < 2 ^ n_h := by
    refine Nat.div_lt_of_lt_mul ?_
    rw [← pow_add, Nat.sub_add_cancel hlong.le]
    exact lt_two_pow_size div
  have hword : 2 ^ n_h < 2 ^ (n_h * 2) := Nat.pow_lt_pow_right (by lia) (by lia)
  have hstart : Undersubtraction.Inv n_h duo div ⟨duo, 0, leading_zeros (n_h * 2 * 2) duo⟩ :=
    ⟨by simp, rfl, hlz, by dsimp only; lia⟩
  obtain ⟨_, hrun, rfl⟩ := runLoop_spec _ _ _ _
    (fun s hs => undersubtracting_step_spec hs hhalf hduo hpos hlong (by lia)) (duo + 1) _
    hstart (lt_succ_self duo)
  rw [undersubtracting, checkedSub_eq (by lia),
    show n_h * 2 + n_h - leading_zeros (n_h * 2 * 2) div = div.size - n_h by lia]
  simp only [shr_eq (show div.size - n_h < n_h * 2 * 2 by lia), truncate_eq hdigits,
    add_eq (show div / 2 ^ (div.size - n_h) + 1 < 2 ^ (n_h * 2) by lia), some_bind]
  exact hrun

/-- **The trifecta algorithm** is division. -/
theorem trifecta_divides (hhalf : Divides (n_h * 2) half_division) :
    Divides (n_h * 2 * 2) (trifecta n_h half_division) := by
  intro duo div hduo hdiv hpos
  have hduo_lz := leading_zeros_add_size hduo
  have hdiv_lz := leading_zeros_add_size hdiv
  rw [trifecta, if_neg hpos]
  simp only [pure_def, bind_eq_bind]
  split
  · next hle =>
    split
    · next hge =>
      obtain ⟨hone, hmod⟩ := div_mod_of_eq (show duo = 1 * div + (duo - div) by lia)
        (sub_lt_of_size_le hpos (by lia))
      rw [checkedSub_eq hge, hone, hmod, bind_some]
    · next hlt =>
      rw [div_eq_of_lt (Nat.lt_of_not_le hlt), mod_eq_of_lt (Nat.lt_of_not_le hlt)]
  next hlonger =>
  split
  · next hshort =>
    have hduo_lt : duo < 2 ^ (n_h * 2) := size_le.1 (by lia)
    have hdiv_lt : div < 2 ^ (n_h * 2) := size_le.1 (by lia)
    rw [truncate_eq hduo_lt, truncate_eq hdiv_lt, hhalf _ _ hduo_lt hdiv_lt hpos]
  split
  · next hquarter =>
    have hdiv_lt : div < 2 ^ n_h := size_le.1 (by lia)
    rw [truncate_eq hdiv_lt, short_division_eq hhalf hduo hdiv_lt hpos]
  rw [checkedSub_eq (by lia), bind_some]
  split
  · exact two_possibility_eq hhalf hduo hdiv hpos (by lia) (by lia) (by lia)
  · exact undersubtracting_eq hhalf hduo hpos (by lia) (by lia) (by lia)

end RustStd.Division
