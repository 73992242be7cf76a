import Mathlib.Algebra.Order.Ring.Nat
import RustStd.Foundations.Exec

/-!
# Arithmetic of durations

The checked operations of `Duration` and `iter::sum` over durations, `core/src/time.rs`. An
operation without a check ends with a fault when its result leaves the type, as does a `Duration`
that is built with too many nanoseconds; `expect` and `debug_assert!` panic.
-/

namespace RustStd.Time

/-! ## The code -/

def NANOS_PER_SEC : ℕ := 1000000000

structure Duration where
  secs : ℕ
  nanos : ℕ
  secs_lt : secs < 2 ^ 64
  nanos_lt : nanos < NANOS_PER_SEC

open Duration

/-- An operation on `u32` or `u64` without a check, by its result. -/
def arith (bits n : ℕ) : Exec ℕ := if n < 2 ^ bits then .ok n else .error .fault

def sub (a b : ℕ) : Exec ℕ := if b ≤ a then .ok (a - b) else .error .fault

/-- An operation with a check. -/
def checked (bits n : ℕ) : Option ℕ := if n < 2 ^ bits then some n else none

def checkedSub (a b : ℕ) : Option ℕ := if b ≤ a then some (a - b) else none

def expect {α : Type} : Option α → Exec α
  | some a => .ok a
  | none => .error .panic

/-- A value of the type, with `Nanoseconds::new_unchecked`. -/
def Duration.build (secs nanos : ℕ) : Exec Duration :=
  if h : secs < 2 ^ 64 ∧ nanos < NANOS_PER_SEC then .ok ⟨secs, nanos, h.1, h.2⟩ else .error .fault

def Duration.new (secs nanos : ℕ) : Exec Duration :=
  if nanos < NANOS_PER_SEC then build secs nanos
  else do
    let secs ← expect (checked 64 (secs + nanos / NANOS_PER_SEC))
    build secs (nanos % NANOS_PER_SEC)

/-- The end of the checked operations: `debug_assert!` and `Some(Duration::new(secs, nanos))`. -/
def finish (secs nanos : ℕ) : Exec (Option Duration) :=
  if nanos < NANOS_PER_SEC then some <$> Duration.new secs nanos else .error .panic

namespace Duration

variable (self rhs : Duration) (k : UInt32)

def checked_add : Exec (Option Duration) :=
  match checked 64 (self.secs + rhs.secs) with
  | some secs => do
    let nanos ← arith 32 (self.nanos + rhs.nanos)
    if nanos ≥ NANOS_PER_SEC then do
      let nanos ← sub nanos NANOS_PER_SEC
      match checked 64 (secs + 1) with
      | some new_secs => finish new_secs nanos
      | none => .ok none
    else finish secs nanos
  | none => .ok none

def checked_sub : Exec (Option Duration) :=
  match checkedSub self.secs rhs.secs with
  | some secs =>
    if self.nanos ≥ rhs.nanos then do finish secs (← sub self.nanos rhs.nanos)
    else
      match checkedSub secs 1 with
      | some sub_secs => do
        finish sub_secs (← sub (← arith 32 (self.nanos + NANOS_PER_SEC)) rhs.nanos)
      | none => .ok none
  | none => .ok none

def checked_mul : Exec (Option Duration) := do
  let total_nanos ← arith 64 (self.nanos * k.toNat)
  let extra_secs := total_nanos / NANOS_PER_SEC
  let nanos := total_nanos % NANOS_PER_SEC % 2 ^ 32
  match checked 64 (self.secs * k.toNat) with
  | some s =>
    match checked 64 (s + extra_secs) with
    | some secs => finish secs nanos
    | none => .ok none
  | none => .ok none

def checked_div : Exec (Option Duration) :=
  if k ≠ 0 then do
    let secs := self.secs / k.toNat
    let extra_secs := self.secs % k.toNat
    let nanos := self.nanos / k.toNat
    let extra_nanos := self.nanos % k.toNat
    let extra ← arith 64 ((← arith 64 (extra_secs * NANOS_PER_SEC)) + extra_nanos)
    let nanos ← arith 32 (nanos + extra / k.toNat % 2 ^ 32)
    finish secs nanos
  else .ok none

/-- The loop of `sum_durations!`, with `total_secs` and `total_nanos`. -/
def sum_loop : ℕ → ℕ → List Duration → Exec (ℕ × ℕ)
  | total_secs, total_nanos, [] => .ok (total_secs, total_nanos)
  | total_secs, total_nanos, entry :: iter => do
    let total_secs ← expect (checked 64 (total_secs + entry.secs))
    match checked 64 (total_nanos + entry.nanos) with
    | some n => sum_loop total_secs n iter
    | none => do
      let total_secs ← expect (checked 64 (total_secs + total_nanos / NANOS_PER_SEC))
      sum_loop total_secs (← arith 64 (total_nanos % NANOS_PER_SEC + entry.nanos)) iter

def sum (iter : List Duration) : Exec Duration := do
  let (total_secs, total_nanos) ← sum_loop 0 0 iter
  let total_secs ← expect (checked 64 (total_secs + total_nanos / NANOS_PER_SEC))
  Duration.new total_secs (total_nanos % NANOS_PER_SEC % 2 ^ 32)

end Duration

/-! ## The exact results -/

variable {secs nanos bits n a b : ℕ}

/-- The total of nanoseconds. -/
def Duration.total (d : Duration) : ℕ := d.secs * NANOS_PER_SEC + d.nanos

/-- The duration of `n` nanoseconds, or `None` when it needs more than 64 bits of seconds. -/
def Exact (n : ℕ) : Option Duration → Prop
  | some d => d.total = n
  | none => 2 ^ 64 * NANOS_PER_SEC ≤ n

theorem arith_eq (h : n < 2 ^ bits) : arith bits n = .ok n := if_pos h

theorem sub_eq (h : b ≤ a) : sub a b = .ok (a - b) := if_pos h

theorem checked_eq (h : n < 2 ^ bits) : checked bits n = some n := if_pos h

theorem checked_none (h : ¬n < 2 ^ bits) : checked bits n = none := if_neg h

theorem new_eq (hs : secs < 2 ^ 64) (hn : nanos < NANOS_PER_SEC) :
    Duration.new secs nanos = .ok ⟨secs, nanos, hs, hn⟩ := by
  rw [Duration.new, if_pos hn, build, dif_pos ⟨hs, hn⟩]

/-- What ends a checked operation whose seconds may be too many. -/
theorem finish_exact (hs : secs < 2 ^ 64) (hn : nanos < NANOS_PER_SEC)
    (htotal : secs * NANOS_PER_SEC + nanos = n) : ∃ r, finish secs nanos = .ok r ∧ Exact n r :=
  ⟨some ⟨secs, nanos, hs, hn⟩, by rw [finish, if_pos hn, new_eq hs hn]; rfl, htotal⟩

/-- Too many seconds. -/
theorem exact_none (hs : ¬secs < 2 ^ 64) (htotal : secs * NANOS_PER_SEC ≤ n) : Exact n none :=
  (Nat.mul_le_mul_right _ (Nat.not_lt.1 hs)).trans htotal

namespace Duration

theorem checked_add_exact (self rhs : Duration) :
    ∃ r, self.checked_add rhs = .ok r ∧ Exact (self.total + rhs.total) r := by
  obtain ⟨s, n, hs, hn⟩ := self
  obtain ⟨s', n', hs', hn'⟩ := rhs
  unfold checked_add total
  unfold NANOS_PER_SEC at *
  dsimp only
  by_cases hsecs : s + s' < 2 ^ 64
  · rw [checked_eq hsecs, arith_eq (by omega)]
    dsimp only [Exec.bind_ok]
    by_cases hcarry : n + n' ≥ 1000000000
    · rw [if_pos hcarry, sub_eq hcarry, Exec.bind_ok]
      by_cases hsucc : s + s' + 1 < 2 ^ 64
      · rw [checked_eq hsucc]
        refine finish_exact hsucc ?_ ?_ <;> unfold NANOS_PER_SEC <;> omega
      · rw [checked_none hsucc]
        exact ⟨none, rfl, exact_none hsucc (by unfold NANOS_PER_SEC; omega)⟩
    · rw [if_neg hcarry]
      refine finish_exact hsecs ?_ ?_ <;> unfold NANOS_PER_SEC <;> omega
  · rw [checked_none hsecs]
    exact ⟨none, rfl, exact_none hsecs (by unfold NANOS_PER_SEC; omega)⟩

theorem checked_sub_exact (self rhs : Duration) : ∃ r, self.checked_sub rhs = .ok r ∧
    (rhs.total ≤ self.total → Exact (self.total - rhs.total) r) ∧
      (self.total < rhs.total → r = none) := by
  obtain ⟨s, n, hs, hn⟩ := self
  obtain ⟨s', n', hs', hn'⟩ := rhs
  have hexact {secs nanos : ℕ} (h : secs < 2 ^ 64) (h' : nanos < NANOS_PER_SEC)
      (htotal : secs * NANOS_PER_SEC + nanos + (s' * NANOS_PER_SEC + n') = s * NANOS_PER_SEC + n) :
      ∃ r, finish secs nanos = .ok r ∧ (s' * NANOS_PER_SEC + n' ≤ s * NANOS_PER_SEC + n →
        Exact (s * NANOS_PER_SEC + n - (s' * NANOS_PER_SEC + n')) r) ∧
          (s * NANOS_PER_SEC + n < s' * NANOS_PER_SEC + n' → r = none) := by
    obtain ⟨r, hr, hexact⟩ := finish_exact h h' rfl
    refine ⟨r, hr, fun _ => ?_, fun hlt => by omega⟩
    rwa [show s * NANOS_PER_SEC + n - (s' * NANOS_PER_SEC + n') = secs * NANOS_PER_SEC + nanos by
      omega]
  have hnone (hlt : s * NANOS_PER_SEC + n < s' * NANOS_PER_SEC + n') : ∃ r : Option Duration,
      (.ok none : Exec _) = .ok r ∧ (s' * NANOS_PER_SEC + n' ≤ s * NANOS_PER_SEC + n →
        Exact (s * NANOS_PER_SEC + n - (s' * NANOS_PER_SEC + n')) r) ∧
          (s * NANOS_PER_SEC + n < s' * NANOS_PER_SEC + n' → r = none) :=
    ⟨none, rfl, fun hle => absurd hlt (Nat.not_lt.2 hle), fun _ => rfl⟩
  unfold checked_sub total
  by_cases hsecs : s' ≤ s
  · rw [checkedSub, if_pos hsecs]
    dsimp only
    by_cases hborrow : n ≥ n'
    · rw [if_pos hborrow, sub_eq hborrow, Exec.bind_ok]
      refine hexact ?_ ?_ ?_ <;> unfold NANOS_PER_SEC at * <;> omega
    rw [if_neg hborrow]
    by_cases hpred : 1 ≤ s - s'
    · rw [checkedSub, if_pos hpred, arith_eq (by unfold NANOS_PER_SEC at *; omega)]
      dsimp only [Exec.bind_ok]
      rw [sub_eq (by unfold NANOS_PER_SEC at *; omega), Exec.bind_ok]
      refine hexact ?_ ?_ ?_ <;> unfold NANOS_PER_SEC at * <;> omega
    · rw [checkedSub, if_neg hpred]
      exact hnone (by unfold NANOS_PER_SEC; omega)
  · rw [checkedSub, if_neg hsecs]
    exact hnone (by unfold NANOS_PER_SEC at *; omega)

theorem checked_mul_exact (self : Duration) (k : UInt32) :
    ∃ r, self.checked_mul k = .ok r ∧ Exact (self.total * k.toNat) r := by
  obtain ⟨s, n, hs, hn⟩ := self
  have hk := k.toNat_lt
  generalize hk' : k.toNat = m at hk
  have hnanos : n * m < 2 ^ 64 :=
    (Nat.mul_le_mul hn.le hk.le).trans_lt (by decide)
  have hdiv := Nat.div_add_mod (n * m) NANOS_PER_SEC
  have hmod := Nat.mod_lt (n * m) (show 0 < NANOS_PER_SEC by decide)
  rw [Nat.mul_comm] at hdiv
  unfold checked_mul total
  rw [hk', arith_eq hnanos, Exec.bind_ok, Nat.add_mul, Nat.mul_right_comm,
    Nat.mod_eq_of_lt (hmod.trans (by decide))]
  generalize s * m = a
  generalize n * m = b at *
  by_cases hsecs : a < 2 ^ 64
  · rw [checked_eq hsecs]
    dsimp only
    by_cases hadd : a + b / NANOS_PER_SEC < 2 ^ 64
    · rw [checked_eq hadd]
      exact finish_exact hadd hmod (by rw [Nat.add_mul]; omega)
    · rw [checked_none hadd]
      exact ⟨none, rfl, exact_none hadd (by rw [Nat.add_mul]; omega)⟩
  · rw [checked_none hsecs]
    exact ⟨none, rfl, exact_none hsecs (Nat.le_add_right _ _)⟩

theorem checked_div_exact (self : Duration) (k : UInt32) : ∃ r, self.checked_div k = .ok r ∧
    (k ≠ 0 → Exact (self.total / k.toNat) r) ∧ (k = 0 → r = none) := by
  obtain ⟨s, n, hs, hn⟩ := self
  by_cases hzero : k = 0
  · exact ⟨none, if_neg (not_not.2 hzero), fun h => absurd hzero h, fun _ => rfl⟩
  have hk := k.toNat_lt
  have hpos : 0 < k.toNat := Nat.pos_of_ne_zero fun h => hzero (UInt32.toNat_inj.1 h)
  unfold checked_div total
  rw [if_pos hzero]
  dsimp only
  generalize k.toNat = m at hk hpos
  have hrest := Nat.mod_lt s hpos
  -- The rest of the seconds and the rest of the nanoseconds together are less than `m` seconds.
  have hextra : s % m * NANOS_PER_SEC + n < m * NANOS_PER_SEC := by
    have hle := Nat.mul_le_mul_right NANOS_PER_SEC hrest
    rw [Nat.succ_mul] at hle
    omega
  have hbound : m * NANOS_PER_SEC < 2 ^ 64 :=
    (Nat.mul_le_mul_right _ hk.le).trans_lt (by decide)
  have hmod := Nat.mod_le n m
  have hsplit : n / m + (s % m * NANOS_PER_SEC + n % m) / m = (s % m * NANOS_PER_SEC + n) / m := by
    have hadd := Nat.add_mul_div_left (s % m * NANOS_PER_SEC + n % m) (n / m) hpos
    rw [Nat.add_assoc, Nat.mod_add_div] at hadd
    omega
  have hquot : (s % m * NANOS_PER_SEC + n) / m < NANOS_PER_SEC :=
    Nat.div_lt_of_lt_mul hextra
  have hlt : (s % m * NANOS_PER_SEC + n) / m < 2 ^ 32 := hquot.trans (by decide)
  have hlow : (s % m * NANOS_PER_SEC + n % m) / m < 2 ^ 32 :=
    (Nat.le_add_left _ _).trans_lt (hsplit.trans_lt hlt)
  rw [arith_eq (by omega), Exec.bind_ok, arith_eq (by omega), Exec.bind_ok, Nat.mod_eq_of_lt hlow,
    hsplit, arith_eq hlt, Exec.bind_ok]
  obtain ⟨r, hr, hexact⟩ := finish_exact ((Nat.div_le_self s m).trans_lt hs) hquot rfl
  refine ⟨r, hr, fun _ => ?_, fun h => absurd h hzero⟩
  have hsecs : s * NANOS_PER_SEC = s % m * NANOS_PER_SEC + m * (s / m * NANOS_PER_SEC) := by
    rw [← Nat.mul_assoc, ← Nat.add_mul, Nat.mod_add_div]
  rwa [show s * NANOS_PER_SEC + n =
      s % m * NANOS_PER_SEC + n + m * (s / m * NANOS_PER_SEC) by omega,
    Nat.add_mul_div_left _ _ hpos, Nat.add_comm]

theorem sum_loop_cons (total_secs total_nanos : ℕ) (entry : Duration) (iter : List Duration) :
    sum_loop total_secs total_nanos (entry :: iter) = (do
      let total_secs ← expect (checked 64 (total_secs + entry.secs))
      match checked 64 (total_nanos + entry.nanos) with
      | some n => sum_loop total_secs n iter
      | none => do
        let total_secs ← expect (checked 64 (total_secs + total_nanos / NANOS_PER_SEC))
        sum_loop total_secs (← arith 64 (total_nanos % NANOS_PER_SEC + entry.nanos)) iter) := rfl

/-- **The loop** keeps the total of what it has seen, whether or not the accumulator is folded. -/
theorem sum_loop_spec {total_secs total_nanos : ℕ} (hs : total_secs < 2 ^ 64)
    (hn : total_nanos < 2 ^ 64) (iter : List Duration) :
    (∃ secs nanos, sum_loop total_secs total_nanos iter = .ok (secs, nanos) ∧ secs < 2 ^ 64 ∧
      nanos < 2 ^ 64 ∧ secs * NANOS_PER_SEC + nanos =
        total_secs * NANOS_PER_SEC + total_nanos + (iter.map total).sum) ∨
    sum_loop total_secs total_nanos iter = .error .panic ∧ 2 ^ 64 * NANOS_PER_SEC ≤
      total_secs * NANOS_PER_SEC + total_nanos + (iter.map total).sum := by
  induction iter generalizing total_secs total_nanos with
  | nil => exact .inl ⟨_, _, rfl, hs, hn, (Nat.add_zero _).symm⟩
  | cons entry iter ih =>
    obtain ⟨s, n, hs', hn'⟩ := entry
    rw [sum_loop_cons, List.map_cons, List.sum_cons, total]
    have hgo {secs nanos : ℕ} (hs : secs < 2 ^ 64) (hn : nanos < 2 ^ 64) (htotal :
        secs * NANOS_PER_SEC + nanos =
          total_secs * NANOS_PER_SEC + total_nanos + (s * NANOS_PER_SEC + n)) := by
      have hrest := ih hs hn
      rw [htotal, Nat.add_assoc _ (s * NANOS_PER_SEC + n)] at hrest
      exact hrest
    have hover {secs : ℕ} (h : ¬secs < 2 ^ 64) (hle : secs * NANOS_PER_SEC ≤
        total_secs * NANOS_PER_SEC + total_nanos + (s * NANOS_PER_SEC + n)) :
        2 ^ 64 * NANOS_PER_SEC ≤ total_secs * NANOS_PER_SEC + total_nanos +
          (s * NANOS_PER_SEC + n + (iter.map total).sum) := by
      have hmul := Nat.mul_le_mul_right NANOS_PER_SEC (Nat.not_lt.1 h)
      omega
    by_cases hsecs : total_secs + s < 2 ^ 64
    · rw [checked_eq hsecs, expect, Exec.bind_ok]
      by_cases hnanos : total_nanos + n < 2 ^ 64
      · rw [checked_eq hnanos]
        exact hgo hsecs hnanos (by rw [Nat.add_mul]; omega)
      -- The accumulator is folded into the seconds.
      have hdiv := Nat.div_add_mod' total_nanos NANOS_PER_SEC
      have hmod := Nat.mod_lt total_nanos (show 0 < NANOS_PER_SEC by decide)
      have hsmall : total_nanos % NANOS_PER_SEC + n < 2 ^ 64 :=
        (Nat.add_lt_add hmod hn').trans (by decide)
      rw [checked_none hnanos]
      by_cases hfold : total_secs + s + total_nanos / NANOS_PER_SEC < 2 ^ 64
      · rw [checked_eq hfold, expect, arith_eq hsmall]
        exact hgo hfold hsmall (by rw [Nat.add_mul, Nat.add_mul]; omega)
      · rw [checked_none hfold]
        exact .inr ⟨rfl, hover hfold (by rw [Nat.add_mul, Nat.add_mul]; omega)⟩
    · rw [checked_none hsecs]
      exact .inr ⟨rfl, hover hsecs (by rw [Nat.add_mul]; omega)⟩

theorem sum_exact (iter : List Duration) :
    (∃ d, sum iter = .ok d ∧ d.total = (iter.map total).sum) ∨
      sum iter = .error .panic ∧ 2 ^ 64 * NANOS_PER_SEC ≤ (iter.map total).sum := by
  rw [sum]
  have hloop := @sum_loop_spec 0 0 (by decide) (by decide) iter
  rw [Nat.zero_mul, Nat.zero_add] at hloop
  rcases hloop with ⟨secs, nanos, hrun, hs, hn, htotal⟩ | ⟨hrun, htotal⟩
  · have hdiv := Nat.div_add_mod' nanos NANOS_PER_SEC
    have hmod := Nat.mod_lt nanos (show 0 < NANOS_PER_SEC by decide)
    rw [hrun, Exec.bind_ok]
    dsimp only
    by_cases hsecs : secs + nanos / NANOS_PER_SEC < 2 ^ 64
    · rw [checked_eq hsecs, expect, Exec.bind_ok, Nat.mod_eq_of_lt (hmod.trans (by decide)),
        new_eq hsecs hmod]
      refine .inl ⟨_, rfl, ?_⟩
      rw [total, Nat.add_mul]
      dsimp only
      omega
    · rw [checked_none hsecs]
      have hmul := Nat.mul_le_mul_right NANOS_PER_SEC (Nat.not_lt.1 hsecs)
      rw [Nat.add_mul] at hmul
      exact .inr ⟨rfl, by omega⟩
  · rw [hrun]
    exact .inr ⟨rfl, htotal⟩

end Duration

/-- **The checked operations and the sum** are those of the natural numbers on the totals of
nanoseconds, up to 64 bits of seconds. -/
theorem duration_arithmetic :
    (∀ a b : Duration, ∃ r, a.checked_add b = .ok r ∧ Exact (a.total + b.total) r) ∧
    (∀ a b : Duration, ∃ r, a.checked_sub b = .ok r ∧
      (b.total ≤ a.total → Exact (a.total - b.total) r) ∧ (a.total < b.total → r = none)) ∧
    (∀ (a : Duration) (k : UInt32), ∃ r, a.checked_mul k = .ok r ∧ Exact (a.total * k.toNat) r) ∧
    (∀ (a : Duration) (k : UInt32), ∃ r, a.checked_div k = .ok r ∧
      (k ≠ 0 → Exact (a.total / k.toNat) r) ∧ (k = 0 → r = none)) ∧
    ∀ iter : List Duration, (∃ d, sum iter = .ok d ∧ d.total = (iter.map total).sum) ∨
      sum iter = .error .panic ∧ 2 ^ 64 * NANOS_PER_SEC ≤ (iter.map total).sum :=
  ⟨checked_add_exact, checked_sub_exact, checked_mul_exact, checked_div_exact, sum_exact⟩

end RustStd.Time
