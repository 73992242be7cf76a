import RustStd.Net.Parser

/-!
# Reading one number

`read_number` reads all digits that stand at the front. Both of its loops `Scan` the digits: they
stop at the first character that is no digit, or give up at digits that are too many or too
large. What is read is then a text of digits, maximal, so that a text of the grammar is read when
no digit follows it (`read_number_reads`).
-/

namespace RustStd.Net

open RustStd.Num List

/-- No digit of the radix stands at the front. -/
def NoDigit (radix : ℕ) (s : List UInt8) : Prop := ∀ c, s.head? = some c → digit radix c = none

/-- The text of a number as `read_number` accepts it. -/
structure NumberText (max radix : ℕ) (max_digits : Option ℕ) ( allow_zero_prefix : Bool)
    (t : List UInt8) (n : ℕ) : Prop where
  ne_nil : t ≠ []
  number : number radix t = some n
  le_max : n ≤ max
  length_le : ∀ k, max_digits = some k → t.length ≤ k
  no_zero : allow_zero_prefix = false → t.head? = some 48 → t.length = 1

/-! ## Texts of digits -/

theorem digit_of_mem {radix n : ℕ} {ds : List UInt8} (h : number radix ds = some n) {c : UInt8}
    (hc : c ∈ ds) : digit radix c ≠ none := by
  induction ds using reverseRecOn generalizing n with
  | nil => cases hc
  | append_singleton ds e ih =>
    obtain ⟨m, d, hm, hd, -⟩ := number_concat_eq_some.mp h
    rcases mem_append.mp hc with hc | hc
    · exact ih hm hc
    · rw [mem_singleton.mp hc, hd]
      simp

/-- Digits at the front are part of the text that ends before a character that is no digit. -/
theorem digits_isPrefix {radix n : ℕ} {ds r t s : List UInt8} (h : ds ++ r = t ++ s)
    (hds : number radix ds = some n) (hs : NoDigit radix s) : ds <+: t := by
  rcases append_eq_append_iff.mp h with ⟨as, rfl, -⟩ | ⟨as, rfl, rfl⟩
  · exact prefix_append ds as
  · cases as with
    | nil => simp
    | cons c as => exact absurd (hs c rfl) (digit_of_mem hds (by simp))

/-- The text of digits at the front is determined by the input. -/
theorem digits_unique {radix n m : ℕ} {ds r t s : List UInt8} (h : ds ++ r = t ++ s)
    (hds : number radix ds = some n) (hr : NoDigit radix r) (ht : number radix t = some m)
    (hs : NoDigit radix s) : ds = t ∧ r = s := by
  have heq : ds = t := (digits_isPrefix h hds hs).eq_of_length_le
    (digits_isPrefix h.symm ht hr).length_le
  subst heq
  exact ⟨rfl, append_cancel_left h⟩

/-! ## The loops -/

/-- The digits at the front are read to their end, or there are some that are not `Ok`. -/
def Scans (radix : ℕ) (Ok : List UInt8 → ℕ → Prop) (p : Reader (ℕ × ℕ)) (pre s : List UInt8) :
    Prop :=
  (∃ ds n s', s = ds ++ s' ∧ NoDigit radix s' ∧ number radix (pre ++ ds) = some n ∧
      Ok (pre ++ ds) n ∧ p s = .ok (some (n, (pre ++ ds).length), s')) ∨
    ∃ ds n r s', s = ds ++ r ∧ number radix (pre ++ ds) = some n ∧ ¬ Ok (pre ++ ds) n ∧
      p s = .ok (none, s')

variable {pre : List UInt8}

/-- The turn at a digit. -/
theorem Scans.cons {radix : ℕ} {Ok : List UInt8 → ℕ → Prop} {p q : Reader (ℕ × ℕ)}
    {s : List UInt8} {c : UInt8} (h : Scans radix Ok p (pre ++ [c]) s)
    (hrun : q (c :: s) = p s) : Scans radix Ok q pre (c :: s) := by
  rcases h with ⟨ds, n, s', rfl, hs, hn, hok, hp⟩ | ⟨ds, n, r, s', rfl, hn, hok, hp⟩
  · left
    refine ⟨c :: ds, n, s', rfl, hs, ?_, ?_, ?_⟩
    · rwa [append_assoc] at hn
    · rwa [append_assoc] at hok
    · rw [hrun, hp, append_assoc]
      rfl
  · right
    refine ⟨c :: ds, n, r, s', rfl, ?_, ?_, hrun.trans hp⟩
    · rwa [append_assoc] at hn
    · rwa [append_assoc] at hok

/-- The turn at the end of the digits. -/
theorem Scans.stop {radix n : ℕ} {Ok : List UInt8 → ℕ → Prop} {p : Reader (ℕ × ℕ)}
    {s : List UInt8} (hs : NoDigit radix s) (hn : number radix pre = some n) (hok : Ok pre n)
    (hrun : p s = .ok (some (n, pre.length), s)) : Scans radix Ok p pre s :=
  .inl ⟨[], n, s, rfl, hs, by rwa [append_nil], by rwa [append_nil],
    by rwa [append_nil]⟩

variable {radix : UInt32} {s s' : List UInt8} {max : ℕ}

theorem bounded_digits_scans (h2 : 2 ≤ radix.toNat) (h36 : radix.toNat ≤ 36)
    {k : ℕ} (hfit : radix.toNat ^ (k + 1) < 2 ^ 32) {n : ℕ}
    (hn : number radix.toNat pre = some n) (hlen : pre.length ≤ k) (s : List UInt8) :
    Scans radix.toNat (fun ds _ => ds.length ≤ k) (bounded_digits radix k n pre.length) pre s := by
  induction s generalizing pre n with
  | nil => exact .stop (by rintro c ⟨⟩) hn hlen rfl
  | cons c s ih =>
    obtain ⟨o, ho, hdigit⟩ := to_digit_spec c h2 h36
    cases o with
    | none =>
      refine .stop ?_ hn hlen ?_
      · rintro _ ⟨⟩
        exact hdigit.symm
      · rw [bounded_digits, ho]
        rfl
    | some d =>
      have hd : digit radix.toNat c = some d.toNat := hdigit.symm
      have hmore := number_concat_eq_some.mpr ⟨n, d.toNat, hn, hd, rfl⟩
      have hlt := number_lt hmore
      have hpow : radix.toNat ^ (pre ++ [c]).length ≤ radix.toNat ^ (k + 1) := by
        apply Nat.pow_le_pow_right (by omega)
        rw [length_append, length_singleton]
        omega
      have hrun : bounded_digits radix k n pre.length (c :: s) =
          if pre.length + 1 > k then .ok (none, s)
          else bounded_digits radix k (n * radix.toNat + d.toNat) (pre.length + 1) s := by
        rw [bounded_digits, ho, Exec.bind_ok]
        dsimp only
        rw [u32_arith, if_pos (by omega), Exec.bind_ok, u32_arith, if_pos (by omega), Exec.bind_ok]
      by_cases hk : pre.length + 1 > k
      · right
        refine ⟨[c], _, s, s, rfl, hmore, ?_, by rw [hrun, if_pos hk]⟩
        simp only [length_append, length_singleton]
        omega
      · rw [if_neg hk] at hrun
        have hlen' : (pre ++ [c]).length = pre.length + 1 := by simp
        refine (ih hmore (by omega)).cons ?_
        rw [hrun, hlen']

theorem checked_digits_scans (h2 : 2 ≤ radix.toNat) (h36 : radix.toNat ≤ 36)
    (hmax : 36 ≤ max) {n : ℕ}
    (hn : number radix.toNat pre = some n) (hle : n ≤ max) (s : List UInt8) :
    Scans radix.toNat (fun _ n => n ≤ max) (checked_digits max radix n pre.length) pre s := by
  induction s generalizing pre n with
  | nil => exact .stop (by rintro c ⟨⟩) hn hle rfl
  | cons c s ih =>
    obtain ⟨o, ho, hdigit⟩ := to_digit_spec c h2 h36
    cases o with
    | none =>
      refine .stop ?_ hn hle ?_
      · rintro _ ⟨⟩
        exact hdigit.symm
      · rw [checked_digits, ho]
        rfl
    | some d =>
      have hd : digit radix.toNat c = some d.toNat := hdigit.symm
      have hmore := number_concat_eq_some.mpr ⟨n, d.toNat, hn, hd, rfl⟩
      have hrun : checked_digits max radix n pre.length (c :: s) =
          if n * radix.toNat + d.toNat ≤ max then
            checked_digits max radix (n * radix.toNat + d.toNat) (pre.length + 1) s
          else .ok (none, s) := by
        rw [checked_digits, ho, Exec.bind_ok]
        by_cases hmul : n * radix.toNat ≤ max
        · rw [checked_mul, if_pos ⟨by omega, hmul⟩]
          dsimp only
          by_cases hadd : n * radix.toNat + d.toNat ≤ max
          · rw [checked_add, if_pos ⟨by omega, hadd⟩, if_pos hadd]
          · rw [checked_add, if_neg fun h => hadd h.2, if_neg hadd]
        · rw [checked_mul, if_neg fun h => hmul h.2, if_neg (by omega)]
      by_cases hfit : n * radix.toNat + d.toNat ≤ max
      · rw [if_pos hfit] at hrun
        have hlen' : (pre ++ [c]).length = pre.length + 1 := by simp
        refine (ih hmore hfit).cons ?_
        rw [hrun, hlen']
      · right
        exact ⟨[c], _, s, s, rfl, hmore, hfit, by rw [hrun, if_neg hfit]⟩

/-! ## `read_number` -/

theorem read_atomically_some {α : Type} {inner : Reader α} {a : α}
    (h : inner s = .ok (some a, s')) : read_atomically inner s = .ok (some a, s') := by
  rw [read_atomically, h]

theorem read_atomically_none {α : Type} {inner : Reader α}
    (h : inner s = .ok (none, s')) : read_atomically inner s = .ok (none, s) := by
  rw [read_atomically, h]

/-- **A failed parser leaves the state where it was.** -/
theorem restores_read_atomically {α : Type} (inner : Reader α) :
    Parser.Restores (read_atomically inner) := by
  intro s s' h
  rw [read_atomically] at h
  split at h
  · cases h
    rfl
  · next hsome => exact absurd h (hsome s')

/-- The loop that `read_number` runs. -/
def digits_loop (max : ℕ) (radix : UInt32) (max_digits : Option ℕ) : Reader (ℕ × ℕ) :=
  match max_digits with
  | some k => bounded_digits radix k 0 0
  | none => checked_digits max radix 0 0

/-- What digits the loop gives up at: they are too many or too large. -/
def LoopOk (max : ℕ) (max_digits : Option ℕ) (ds : List UInt8) (n : ℕ) : Prop :=
  match max_digits with
  | some k => ds.length ≤ k
  | none => n ≤ max

/-- The numbers for which `read_number` is called: no `u32` overflow is possible. -/
structure NumberCall (max radix : ℕ) (max_digits : Option ℕ) : Prop where
  radix_ge : 2 ≤ radix
  radix_le : radix ≤ 36
  le_max : 36 ≤ max
  few : ∀ k, max_digits = some k → k < 10 ∧ radix ^ (k + 1) < 2 ^ 32

variable {max_digits : Option ℕ}

variable (h : NumberCall max radix.toNat max_digits)
include h

theorem digits_loop_scans (s : List UInt8) :
    Scans radix.toNat (LoopOk max max_digits) (digits_loop max radix max_digits) [] s := by
  cases max_digits with
  | some k =>
    exact bounded_digits_scans h.radix_ge h.radix_le (h.few k rfl).2 (number_nil _)
      (Nat.zero_le k) s
  | none =>
    exact checked_digits_scans h.radix_ge h.radix_le h.le_max (number_nil _) (Nat.zero_le _) s

theorem read_digits_of_none (hrun : digits_loop max radix max_digits s = .ok (none, s')) :
    read_digits max radix max_digits s = .ok (none, s') := by
  cases max_digits with
  | some k => exact (Parser.bind_lift (if_pos (h.few k rfl).1)).trans (Parser.bind_none hrun)
  | none => exact Parser.bind_none hrun

theorem read_digits_of_some {n count : ℕ} (hn : max_digits = none → n ≤ max)
    (hrun : digits_loop max radix max_digits s = .ok (some (n, count), s')) :
    read_digits max radix max_digits s =
      .ok (some (if n ≤ max then some n else none, count), s') := by
  cases max_digits with
  | some k => exact (Parser.bind_lift (if_pos (h.few k rfl).1)).trans (Parser.bind_some hrun)
  | none =>
    rw [if_pos (hn rfl)]
    exact Parser.bind_some hrun

theorem read_number_of_none {allow : Bool}
    (hrun : digits_loop max radix max_digits s = .ok (none, s')) :
    read_number max radix max_digits allow s = .ok (none, s) :=
  read_atomically_none
    ((Parser.bind_some rfl).trans (Parser.bind_none (read_digits_of_none h hrun)))

/-- The digits are counted, a superfluous zero is refused, and the number must fit. -/
theorem read_number_of_some {allow : Bool} {n count : ℕ} (hn : max_digits = none → n ≤ max)
    (hrun : digits_loop max radix max_digits s = .ok (some (n, count), s')) :
    read_number max radix max_digits allow s =
      if count ≠ 0 ∧ (allow = false → s.head? = some 48 → count ≤ 1) ∧ n ≤ max then
        .ok (some n, s')
      else .ok (none, s) := by
  obtain ⟨o, ho⟩ : ∃ o, o = if n ≤ max then some n else none := ⟨_, rfl⟩
  have hdigits := read_digits_of_some h hn hrun
  rw [← ho] at hdigits
  have hstart {r : Option ℕ} {s'' : List UInt8} {f : Option UInt8 → Option ℕ × ℕ → Reader ℕ}
      (hf : f s.head? (o, count) s' = .ok (r, s'')) :
      (do let first ← peek_char; let x ← read_digits max radix max_digits; f first x : Reader ℕ) s =
        .ok (r, s'') :=
    (Parser.bind_some rfl).trans ((Parser.bind_some hdigits).trans hf)
  by_cases hcount : count = 0
  · rw [if_neg fun hc => hc.1 hcount]
    apply read_atomically_none
    apply hstart
    exact congrFun (if_pos hcount) s'
  by_cases hzero : (!allow) = true ∧ s.head? = some 48 ∧ count > 1
  · rw [if_neg fun hc => absurd (hc.2.1 (by simpa using hzero.1) hzero.2.1) (by omega)]
    apply read_atomically_none
    apply hstart
    exact (congrFun (if_neg hcount) s').trans (congrFun (if_pos hzero) s')
  by_cases hfit : n ≤ max
  · have hlead (ha : allow = false) (hs : s.head? = some 48) : count ≤ 1 := by
      by_contra hc
      exact hzero ⟨by simp [ha], hs, by omega⟩
    rw [if_pos ⟨hcount, hlead, hfit⟩]
    rw [if_pos hfit] at ho
    subst ho
    apply read_atomically_some
    apply hstart
    exact (congrFun (if_neg hcount) s').trans (congrFun (if_neg hzero) s')
  · rw [if_neg fun hc => hfit hc.2.2]
    rw [if_neg hfit] at ho
    subst ho
    apply read_atomically_none
    apply hstart
    exact (congrFun (if_neg hcount) s').trans (congrFun (if_neg hzero) s')

omit h

theorem head?_append_of_ne_nil {s t : List UInt8} (h : t ≠ []) : (t ++ s).head? = t.head? := by
  cases t with
  | nil => exact absurd rfl h
  | cons c t => rfl

/-- **Reading a number**: the digits at the front, if they are a number of the grammar. -/
theorem read_number_reads (radix : UInt32) (allow : Bool)
    (h : NumberCall max radix.toNat max_digits) :
    (read_number max radix max_digits allow).Reads
      (NumberText max radix.toNat max_digits allow) (NoDigit radix.toNat) := by
  have hok {ds : List UInt8} {n : ℕ} (hle : LoopOk max max_digits ds n) :
      max_digits = none → n ≤ max := by
    rintro rfl
    exact hle
  refine ⟨fun s => ?_, fun s a s' hread => ?_, fun t n s' ht hs => ?_⟩
  · rcases digits_loop_scans h s with ⟨ds, n, s', -, -, -, hle, hrun⟩ | ⟨-, -, -, s', -, -, -, hrun⟩
    · rw [read_number_of_some h (hok hle) hrun]
      split <;> exact ⟨_, rfl⟩
    · exact ⟨_, read_number_of_none h hrun⟩
  · rcases digits_loop_scans h s with ⟨ds, n, r, rfl, -, hn, hle, hrun⟩ |
      ⟨-, -, -, r, -, -, -, hrun⟩
    · rw [nil_append] at hn hle hrun
      rw [read_number_of_some h (hok hle) hrun] at hread
      split at hread
      · next hc =>
        cases hread
        have hne : ds ≠ [] := by
          rintro rfl
          exact hc.1 rfl
        refine ⟨ds, rfl, hne, hn, hc.2.2, ?_, ?_⟩
        · rintro k rfl
          exact hle
        · intro ha hhead
          have := hc.2.1 ha (by rw [head?_append_of_ne_nil hne, hhead])
          omega
      · cases hread
    · rw [read_number_of_none h hrun] at hread
      cases hread
  · rcases digits_loop_scans h (t ++ s') with ⟨ds, m, r, heq, hr, hm, hle, hrun⟩ |
      ⟨ds, m, r, r', heq, hm, hle, hrun⟩
    · rw [nil_append] at hm hle hrun
      obtain ⟨rfl, rfl⟩ := digits_unique heq ht.number hs hm hr
      obtain rfl : n = m := Option.some.inj (ht.number.symm.trans hm)
      rw [read_number_of_some h (hok hle) hrun, if_pos]
      refine ⟨by simpa using ht.ne_nil, fun ha hhead => ?_, ht.le_max⟩
      rw [head?_append_of_ne_nil ht.ne_nil] at hhead
      exact (ht.no_zero ha hhead).le
    -- The digits that are too many or too large begin the text.
    rw [nil_append] at hm hle
    obtain ⟨u, rfl⟩ := digits_isPrefix heq.symm hm hs
    exfalso
    apply hle
    cases hmd : max_digits with
    | some k =>
      have := ht.length_le k hmd
      rw [length_append] at this
      exact Nat.le_of_add_right_le this
    | none =>
      obtain ⟨m', hm', hmle⟩ := number_append (by have := h.radix_ge; omega) u ht.number
      obtain rfl : m = m' := Option.some.inj (hm.symm.trans hm')
      exact hmle.trans ht.le_max

end RustStd.Net
