import RustStd.Str.MaximalSuffix

/-!
# Searching with critical cuts

`new_spec`: the searcher made for a needle has critical cuts and shifts no further than the needle's
least period (`Ready`). `next_spec` and `next_back_spec`: a search returns, without reading out of
range or wrapping around, the next occurrence, or rejects a range where none starts.
-/

namespace RustStd.TwoWaySearcher

open Periods List Nat Target

variable {t : Target} {needle haystack : List UInt8}

/-! ## Bytes of the needle -/

theorem byteset_contains_eq (s : TwoWaySearcher) (b : UInt8) :
    s.byteset_contains b = s.byteset.testBit (b.toNat &&& 0x3f) := by
  rw [byteset_contains, Nat.testBit, Nat.and_comm]

theorem testBit_byteset_create {bytes : List UInt8} {b : UInt8} (hb : b ∈ bytes) :
    (byteset_create bytes).testBit (b.toNat &&& 0x3f) = true := by
  have key : ∀ (l : List UInt8) (a : ℕ), (a.testBit (b.toNat &&& 0x3f) = true ∨ b ∈ l) →
      (l.foldl (fun a b => (1 <<< (b.toNat &&& 0x3f)) ||| a) a).testBit (b.toNat &&& 0x3f) =
        true := by
    intro l
    induction l with
    | nil => exact fun a h => h.resolve_right not_mem_nil
    | cons c l ih =>
      intro a h
      refine ih _ ?_
      rw [testBit_or, Bool.or_eq_true]
      rcases h with h | h
      · exact Or.inl (Or.inr h)
      · rcases mem_cons.1 h with rfl | h
        · left
          left
          rw [one_shiftLeft, testBit_two_pow_self]
        · exact Or.inr h
  exact key bytes 0 (Or.inr hb)

/-! ## The searcher of a needle -/

/-- The searcher fits the needle: its cuts are critical, and a shift by `period` passes over no
occurrence. With a short period, `period` is the needle's. -/
structure Ready (needle : List UInt8) (long_period : Bool) (s : TwoWaySearcher) : Prop where
  critical : Critical (word needle) needle.length s.crit_pos
  crit_pos_lt : s.crit_pos < needle.length
  critical_back : Critical (word needle) needle.length s.crit_pos_back
  crit_pos_back_le : s.crit_pos_back ≤ needle.length
  period_pos : 0 < s.period
  period_le : s.period ≤ needle.length
  least : ∀ q, 0 < q → Period (word needle) needle.length q → s.period ≤ q
  bytes : ∀ i < needle.length, s.byteset_contains (word needle i) = true
  short : long_period = false → Period (word needle) needle.length s.period ∧
    s.crit_pos ≤ s.period ∧ needle.length ≤ s.crit_pos_back + s.period

variable {l : List UInt8}

theorem slice_eq {a b : ℕ} (hab : a ≤ b) (hb : b ≤ l.length) :
    slice l a b = some ((l.take b).drop a) := if_pos ⟨hab, hb⟩

theorem getElem?_take_drop {a b i : ℕ} (hb : b ≤ l.length) (hi : a + i < b) :
    ((l.take b).drop a)[i]? = some (word l (a + i)) := by
  rw [getElem?_drop, getElem?_take, if_pos hi, getElem?_word (by omega)]

/-- The test for a short period. -/
theorem take_eq_iff {c p : ℕ} (h : c + p ≤ l.length) :
    (l.take c).drop 0 = (l.take (p + c)).drop p ↔ ∀ i < c, word l i = word l (i + p) := by
  constructor
  · intro heq i hi
    have := congrArg (fun s => s[i]?) heq
    rw [getElem?_take_drop (by omega) (by omega), getElem?_take_drop (by omega) (by omega),
      zero_add, add_comm p, Option.some_inj] at this
    exact this
  · intro heq
    refine ext_getElem? fun i => ?_
    by_cases hi : i < c
    · rw [getElem?_take_drop (by omega) (by omega), getElem?_take_drop (by omega) (by omega),
        zero_add, add_comm p, heq i hi]
    · rw [getElem?_eq_none (by simp only [length_drop, length_take]; omega),
        getElem?_eq_none (by simp only [length_drop, length_take]; omega)]

/-- Of the maximal suffixes by the two orders the shorter starts at a critical cut, which every
period passes. -/
theorem exists_critical (hne : needle ≠ []) (hmax : needle.length ≤ t.isizeMax) :
    ∃ crit_false period_false crit_true period_true,
      maximal_suffix t needle false = some (crit_false, period_false) ∧
      maximal_suffix t needle true = some (crit_true, period_true) ∧
      ∃ crit_pos period,
        (if crit_false > crit_true then (crit_false, period_false) else (crit_true, period_true)) =
          (crit_pos, period) ∧
        (∃ g, IsMaximalSuffix g (word needle) needle.length crit_pos period) ∧
        Critical (word needle) needle.length crit_pos := by
  obtain ⟨c₀, p₀, h₀, hs0⟩ := maximal_suffix_spec hne hmax false
  obtain ⟨c₁, p₁, h₁, hs1⟩ := maximal_suffix_spec hne hmax true
  refine ⟨c₀, p₀, c₁, p₁, h₀, h₁, ?_⟩
  by_cases hgt : c₀ > c₁
  · rw [if_pos hgt]
    exact ⟨c₀, p₀, rfl, ⟨false, hs0⟩, hs0.maxSuffix.critical hs1.maxSuffix hgt.le⟩
  · rw [if_neg hgt]
    exact ⟨c₁, p₁, rfl, ⟨true, hs1⟩, hs1.maxSuffix.critical hs0.maxSuffix (not_lt.1 hgt)⟩

/-- The cut for searching backwards, of a needle with a short period. -/
theorem exists_critical_back (hne : needle ≠ []) (hmax : needle.length ≤ t.isizeMax) {p : ℕ}
    (hp : 0 < p) (hper : Period (word needle) needle.length p) :
    ∃ a b, reverse_maximal_suffix t needle p false = some a ∧
      reverse_maximal_suffix t needle p true = some b ∧ max a b < needle.length ∧ max a b < p ∧
      Critical (word needle) needle.length (needle.length - max a b) := by
  obtain ⟨a, ha, hsa⟩ := reverse_maximal_suffix_spec (t := t) hne hmax hper.reversed false
  obtain ⟨b, hb, hsb⟩ := reverse_maximal_suffix_spec (t := t) hne hmax hper.reversed true
  refine ⟨a, b, ha, hb, max_lt hsa.lt_length hsb.lt_length, ?_, ?_⟩
  · exact max_lt (hsa.lt_of_localPeriod hp (hper.reversed.localPeriod a))
      (hsb.lt_of_localPeriod hp (hper.reversed.localPeriod b))
  · refine Critical.of_reversed ?_
    rcases le_total a b with hle | hle
    · rw [max_eq_right hle]
      exact hsb.critical hsa hle
    · rw [max_eq_left hle]
      exact hsa.critical hsb hle

/-- **The searcher of a needle fits it.** -/
theorem new_spec (hne : needle ≠ []) (hmax : needle.length ≤ t.isizeMax) (end_ : ℕ) :
    ∃ s long_period, TwoWaySearcher.new t needle end_ = some s ∧ Ready needle long_period s ∧
      s.position = 0 ∧ s.end_ = end_ ∧
      s.memory = (if long_period then t.usizeMax else 0) ∧
      s.memory_back = (if long_period then t.usizeMax else needle.length) := by
  have hcard := t.two_mul_isizeMax
  obtain ⟨c₀, p₀, c₁, p₁, h₀, h₁, c, p, hcp, ⟨g, hs⟩, hcrit⟩ := exists_critical hne hmax
  have hple := hs.period_le
  have hppos := hs.period_pos
  have hclt := hs.maxSuffix.lt_length
  have hbelow : ∀ q, 0 < q → Period (word needle) needle.length q → c < q :=
    fun q hq hper => hs.maxSuffix.lt_of_localPeriod hq (hper.localPeriod c)
  have hslice : slice needle 0 c = some ((needle.take c).drop 0) := slice_eq (zero_le _) hclt.le
  have hslice' : slice needle p (p + c) = some ((needle.take (p + c)).drop p) :=
    slice_eq (le_add_right _ _) (by omega)
  unfold TwoWaySearcher.new
  simp only [h₀, h₁, some_bind, hcp, hslice]
  rw [checkedAdd_eq (by omega)]
  simp only [some_bind, hslice']
  by_cases hshort : (needle.take c).drop 0 = (needle.take (p + c)).drop p
  · -- the period of the suffix is the needle's
    rw [if_pos hshort]
    have hleft := (take_eq_iff (by omega)).1 hshort
    have hper : Period (word needle) needle.length p := by
      intro i hi
      by_cases hic : i < c
      · exact hleft i hic
      · exact hs.periodic i (by omega) hi
    obtain ⟨a, b, ha, hb, hlen, hlt, hback⟩ := exists_critical_back hne hmax hppos hper
    simp only [ha, hb, some_bind, checkedSub, if_pos hlen.le,
      slice_eq (zero_le p) (show p ≤ needle.length by omega)]
    refine ⟨_, false, rfl, ⟨hcrit, hclt, hback, sub_le _ _, hppos, by simp only; omega, ?_, ?_,
      fun _ => ⟨hper, (hbelow p hppos hper).le, by simp only; omega⟩⟩, rfl, rfl, rfl, rfl⟩
    · intro q hq hq'
      by_cases hqn : q ≤ needle.length - c
      · exact hs.least q hq fun i _ hi => hq' i hi
      · simp only
        omega
    · intro i hi
      obtain ⟨j, hj, heq⟩ := hper.exists_lt hppos hi
      rw [byteset_contains_eq, ← heq]
      refine testBit_byteset_create (mem_of_getElem? (i := j) ?_)
      rw [getElem?_take_drop (by omega) (by omega), zero_add]
  · -- the needle's period is longer than both parts
    rw [if_neg hshort]
    have hfail : ∃ i < c, word needle i ≠ word needle (i + p) := by
      have h := (take_eq_iff (by omega)).not.1 hshort
      push Not at h
      exact h
    simp only [checkedSub, if_pos hclt.le, some_bind]
    rw [checkedAdd_eq (by omega), some_bind]
    refine ⟨_, true, rfl, ⟨hcrit, hclt, hcrit, hclt.le, succ_pos _, by simp only; omega, ?_, ?_,
      fun h => by cases h⟩, rfl, rfl, rfl, rfl⟩
    · intro q hq hper
      have h1 := hbelow q hq hper
      have h2 := hcrit.lt_period hs.periodic hs.least hfail hppos hple hq hper
      simp only
      omega
    · intro i hi
      rw [byteset_contains_eq]
      refine testBit_byteset_create (mem_of_getElem? (i := i) ?_)
      exact getElem?_word hi

/-! ## Comparing with the haystack -/

variable {at_ : ℕ → Option ℕ}

theorem mismatch_spec {before : ℕ → ℕ → Prop} {pos : ℕ} {l : List ℕ} (hl : l.Pairwise before)
    (h : ∀ i ∈ l, i < needle.length ∧ at_ i = some (pos + i) ∧ pos + i < haystack.length) :
    ∃ r, mismatch needle haystack at_ l = some r ∧ match r with
      | none => ∀ k ∈ l, word needle k = word haystack (pos + k)
      | some i => i ∈ l ∧
          (∀ k ∈ l, k ≠ i → ¬ before i k → word needle k = word haystack (pos + k)) ∧
          word needle i ≠ word haystack (pos + i) := by
  induction l with
  | nil => exact ⟨none, rfl, fun i hi => absurd hi not_mem_nil⟩
  | cons i l ih =>
    obtain ⟨hi, hat, hpos⟩ := h i mem_cons_self
    obtain ⟨hbefore, hl⟩ := pairwise_cons.1 hl
    obtain ⟨r, hr, hspec⟩ := ih hl fun k hk => h k (mem_cons_of_mem i hk)
    simp only [mismatch, getElem?_word hi, hat, getElem?_word hpos, some_bind]
    by_cases hne : word needle i ≠ word haystack (pos + i)
    · rw [if_pos hne]
      refine ⟨some i, rfl, mem_cons_self, fun k hk hki hik => ?_, hne⟩
      exact absurd (hbefore k ((mem_cons.1 hk).resolve_left hki)) hik
    · rw [if_neg hne]
      have heq : word needle i = word haystack (pos + i) := not_not.1 hne
      refine ⟨r, hr, ?_⟩
      match r, hspec with
      | none, hspec => exact forall_mem_cons.2 ⟨heq, hspec⟩
      | some k, ⟨hk, hall, hne⟩ =>
        exact ⟨mem_cons_of_mem i hk, forall_mem_cons.2 ⟨fun _ _ => heq, hall⟩, hne⟩

/-- Comparing the places from `start` to `stop`, in an order. -/
theorem mismatch_between (haystack : List UInt8) {before : ℕ → ℕ → Prop} {pos start stop : ℕ}
    {l : List ℕ} (hl : l.Pairwise before) (hmem : ∀ {i}, i ∈ l ↔ start ≤ i ∧ i < stop)
    (hstop : stop ≤ needle.length) (hat : ∀ i < stop, at_ i = some (pos + i))
    (hpos : pos + stop ≤ haystack.length) :
    ∃ r, mismatch needle haystack at_ l = some r ∧ match r with
      | none => ∀ k, start ≤ k → k < stop → word needle k = word haystack (pos + k)
      | some i => start ≤ i ∧ i < stop ∧ (∀ k, start ≤ k → k < stop → k ≠ i → ¬ before i k →
          word needle k = word haystack (pos + k)) ∧ word needle i ≠ word haystack (pos + i) := by
  have hin : ∀ i ∈ l, i < needle.length ∧ at_ i = some (pos + i) ∧ pos + i < haystack.length := by
    intro i hi
    have := (hmem.1 hi).2
    exact ⟨by omega, hat i this, by omega⟩
  obtain ⟨r, hr, hspec⟩ := mismatch_spec hl hin
  refine ⟨r, hr, ?_⟩
  match r, hspec with
  | none, hspec => exact fun k h1 h2 => hspec k (hmem.2 ⟨h1, h2⟩)
  | some i, ⟨hi, hall, hne⟩ =>
    exact ⟨(hmem.1 hi).1, (hmem.1 hi).2, fun k h1 h2 => hall k (hmem.2 ⟨h1, h2⟩), hne⟩

theorem mem_between (start : ℕ) {stop i : ℕ} :
    i ∈ range' start (stop - start) ↔ start ≤ i ∧ i < stop := by
  rw [mem_range'_1]
  omega

/-! ## Searching forwards -/

/-- The needle occurs in the haystack at `pos`. -/
def OccursAt (needle haystack : List UInt8) (pos : ℕ) : Prop :=
  Occurs (word needle) needle.length (word haystack) haystack.length pos

/-- No occurrence starts from `a` on before `b`. -/
def NoneFrom (needle haystack : List UInt8) (a b : ℕ) : Prop :=
  ∀ i, a ≤ i → i < b → ¬ OccursAt needle haystack i

theorem NoneFrom.append {a b c : ℕ} (h : NoneFrom needle haystack a b)
    (h' : NoneFrom needle haystack b c) : NoneFrom needle haystack a c := fun i ha hc =>
  if hb : i < b then h i ha hb else h' i (not_lt.1 hb) hc

theorem NoneFrom.refl (a : ℕ) : NoneFrom needle haystack a a := fun i ha hb => by omega

/-- Where the needle no longer fits, it does not occur. -/
theorem noneFrom_of_lt {a b : ℕ} (h : haystack.length < a + needle.length) :
    NoneFrom needle haystack a b := fun i ha _ hocc => by
  have := hocc.1
  omega

variable {long_period : Bool}

/-- A byte that the needle does not have. -/
theorem noneFrom_of_byte {s : TwoWaySearcher} (hs : Ready needle long_period s)
    {a k : ℕ} (hk : k < a + needle.length)
    (hbyte : s.byteset_contains (word haystack k) = false) :
    NoneFrom needle haystack a (k + 1) := by
  intro i ha hik hocc
  have := hocc.2 (k - i) (by omega)
  rw [show i + (k - i) = k by omega] at this
  have hin := hs.bytes (k - i) (by omega)
  rw [this, hbyte] at hin
  cases hin

/-- With a short period, the first `memory` bytes of the needle are known to match at the
position. -/
def MemoryOk (t : Target) (needle haystack : List UInt8) (long_period : Bool)
    (position memory : ℕ) : Prop :=
  if long_period then memory = t.usizeMax
  else memory ≤ needle.length ∧ (position + needle.length ≤ haystack.length →
    ∀ k < memory, word needle k = word haystack (position + k))

theorem memoryOk_init (long_period : Bool) (position : ℕ) :
    MemoryOk t needle haystack long_period position (if long_period then t.usizeMax else 0) := by
  cases long_period with
  | false => exact ⟨zero_le _, fun _ k hk => absurd hk (not_lt_zero k)⟩
  | true => exact rfl

theorem MemoryOk.reset {position memory position' : ℕ}
    (h : MemoryOk t needle haystack long_period position memory) :
    MemoryOk t needle haystack long_period position' (if long_period then memory else 0) := by
  cases long_period with
  | false => exact memoryOk_init false position'
  | true => exact h

variable {β : Type} {S : TwoWayStrategy β} {long_period : Bool} {s : TwoWaySearcher}

/-- The searchers differ in what a forward search changes. -/
def SameBack (s cur : TwoWaySearcher) : Prop :=
  cur = { s with position := cur.position, memory := cur.memory }

theorem SameBack.update {cur : TwoWaySearcher} (h : SameBack s cur) (position memory : ℕ) :
    SameBack s { cur with position, memory } := by
  unfold SameBack at h
  rw [h]
  rfl

/-- The fit to the needle does not depend on where the searcher is. -/
theorem Ready.update (h : Ready needle long_period s) (position memory end_ memory_back : ℕ) :
    Ready needle long_period { s with position, memory, end_, memory_back } :=
  ⟨h.critical, h.crit_pos_lt, h.critical_back, h.crit_pos_back_le, h.period_pos, h.period_le,
    h.least, h.bytes, h.short⟩

/-- Where a forward search that began with `s` is. -/
structure NextInv (t : Target) (needle haystack : List UInt8) (long_period : Bool)
    (s cur : TwoWaySearcher) : Prop where
  same : SameBack s cur
  ready : Ready needle long_period cur
  le : s.position ≤ cur.position
  le_length : cur.position ≤ haystack.length
  none : NoneFrom needle haystack s.position cur.position
  memory : MemoryOk t needle haystack long_period cur.position cur.memory

/-- What a forward search returns. -/
def NextPost (t : Target) (needle haystack : List UInt8) (S : TwoWayStrategy β)
    (long_period : Bool) (s : TwoWaySearcher) (r : TwoWaySearcher × β) : Prop :=
  SameBack s r.1 ∧ Ready needle long_period r.1 ∧
    MemoryOk t needle haystack long_period r.1.position r.1.memory ∧
    s.position ≤ r.1.position ∧ r.1.position ≤ haystack.length ∧
    ((r.2 = S.rejecting s.position r.1.position ∧ NoneFrom needle haystack s.position r.1.position ∧
        (r.1.position = haystack.length ∨
          (S.use_early_reject = true ∧ s.position < r.1.position))) ∨
      ∃ a, r.2 = S.matching a (a + needle.length) ∧ r.1.position = a + needle.length ∧
        s.position ≤ a ∧ OccursAt needle haystack a ∧ NoneFrom needle haystack s.position a ∧
        (S.use_early_reject = true → a = s.position))

section Next

variable {cur : TwoWaySearcher} (hneedle : needle.length ≤ t.isizeMax)
  (hhay : haystack.length ≤ t.isizeMax)

/-- Moving on over positions where nothing starts. -/
theorem NextInv.again (h : NextInv t needle haystack long_period s cur) {position memory : ℕ}
    (hlt : cur.position < position) (hle : position ≤ haystack.length)
    (hnone : NoneFrom needle haystack cur.position position)
    (hmem : MemoryOk t needle haystack long_period position memory) :
    TurnSpec (NextInv t needle haystack long_period s) (fun cur => haystack.length - cur.position)
      (NextPost t needle haystack S long_period s) cur
      (some (.again { cur with position, memory })) :=
  ⟨⟨h.same.update position memory, h.ready.update position memory cur.end_ cur.memory_back,
    h.le.trans hlt.le, hle, h.none.append hnone, hmem⟩, by simp only; omega⟩

include hneedle hhay

variable (h : NextInv t needle haystack long_period s cur)
include h

omit hneedle in
/-- The needle is compared at a position where it fits. -/
theorem next_compare_spec
    (hfit : cur.position + needle.length ≤ haystack.length)
    (hearly : S.use_early_reject = true → s.position = cur.position) :
    TurnSpec (NextInv t needle haystack long_period s) (fun cur => haystack.length - cur.position)
      (NextPost t needle haystack S long_period s) cur (do
        let start := if long_period then cur.crit_pos else max cur.crit_pos cur.memory
        match ← mismatch needle haystack (t.checkedAdd cur.position)
            (range' start (needle.length - start)) with
        | some i => do
          let position ← t.checkedAdd cur.position
            (← t.checkedAdd (← checkedSub i cur.crit_pos) 1)
          some (.again { cur with position, memory := if long_period then cur.memory else 0 })
        | none => do
          let start := if long_period then 0 else cur.memory
          match ← mismatch needle haystack (t.checkedAdd cur.position)
              (range' start (cur.crit_pos - start)).reverse with
          | some _ => do
            let position ← t.checkedAdd cur.position cur.period
            let memory ← (if long_period then some cur.memory
              else checkedSub needle.length cur.period)
            some (.again { cur with position, memory })
          | none => do
            let match_pos := cur.position
            let position ← t.checkedAdd cur.position needle.length
            let cur := { cur with position, memory := if long_period then cur.memory else 0 }
            some (.done (cur, S.matching match_pos (← t.checkedAdd match_pos needle.length)))) := by
  have hcard := t.two_mul_isizeMax
  have hs := h.ready
  have hclt := hs.crit_pos_lt
  have hple := hs.period_le
  have hpos := hs.period_pos
  have hat : ∀ n ≤ needle.length, ∀ i < n, t.checkedAdd cur.position i = some (cur.position + i) :=
    fun n hn i hi => checkedAdd_eq (by omega)
  -- what the memory says
  have hmemory : ∀ k, k < (if long_period then 0 else cur.memory) →
      word needle k = word haystack (cur.position + k) := by
    have := h.memory
    unfold MemoryOk at this
    intro k hk
    split at hk
    · omega
    · rename_i hlong
      rw [if_neg hlong] at this
      exact this.2 hfit k hk
  have hfrom : ∀ k, cur.crit_pos ≤ k → ¬ k < (if long_period then 0 else cur.memory) →
      (if long_period then cur.crit_pos else max cur.crit_pos cur.memory) ≤ k := by
    intro k hck hk
    cases long_period with
    | true => exact hck
    | false => exact max_le hck (not_lt.1 hk)
  obtain ⟨r, hr, hspec⟩ := mismatch_between haystack pairwise_lt_range' (mem_between
    (if long_period then cur.crit_pos else max cur.crit_pos cur.memory)) le_rfl
    (hat needle.length le_rfl) hfit
  simp only [hr, some_bind]
  cases r with
  | some i =>
    obtain ⟨hstart, hi, hmatch, hne⟩ := hspec
    -- the right part differs at `i`
    have hci : cur.crit_pos ≤ i := by
      split at hstart
      · exact hstart
      · exact (le_max_left _ _).trans hstart
    have hmatch' : ∀ k, cur.crit_pos ≤ k → k < i →
        word needle k = word haystack (cur.position + k) := by
      intro k hck hki
      by_cases hk : k < (if long_period then 0 else cur.memory)
      · exact hmemory k hk
      · exact hmatch k (hfrom k hck hk) (hki.trans hi) hki.ne hki.not_gt
    simp only [checkedSub, if_pos hci, some_bind]
    rw [checkedAdd_eq (by omega), some_bind, checkedAdd_eq (by omega)]
    refine h.again (by omega) (by omega) (fun k hk hlt => ?_) h.memory.reset
    rcases eq_or_lt_of_le hk with rfl | hk
    · exact fun hocc => hne (hocc.2 i hi)
    · have := hs.critical.not_occurs_after (m := haystack.length) (s := k - cur.position) hmatch' hi
        hne (by omega) (by omega)
      rwa [show cur.position + (k - cur.position) = k by omega] at this
  | none =>
    have hright' : ∀ k, cur.crit_pos ≤ k → k < needle.length →
        word needle k = word haystack (cur.position + k) := by
      intro k hck hki
      by_cases hk : k < (if long_period then 0 else cur.memory)
      · exact hmemory k hk
      · exact hspec k (hfrom k hck hk) hki
    obtain ⟨r, hr, hleft⟩ := mismatch_between haystack (pairwise_reverse.2 pairwise_lt_range')
      (mem_reverse.trans (mem_between (if long_period then 0 else cur.memory))) hclt.le
      (hat cur.crit_pos hclt.le) (by omega)
    simp only [hr, some_bind]
    cases r with
    | some i =>
      obtain ⟨_, hi, _, hne⟩ := hleft
      -- the left part differs: shift by the period
      rw [checkedAdd_eq (by omega), some_bind]
      have hnone : NoneFrom needle haystack cur.position (cur.position + cur.period) := by
        intro k hk hlt hocc
        rcases eq_or_lt_of_le hk with rfl | hk
        · exact hne (hocc.2 i (by omega))
        · rw [show k = cur.position + (k - cur.position) by omega] at hocc
          have := hs.least (k - cur.position) (by omega)
            (hs.critical.period_of_occurs_after hright' (by omega) hocc)
          omega
      have hmem : ∃ memory, (if long_period then some cur.memory
          else checkedSub needle.length cur.period) = some memory ∧
          MemoryOk t needle haystack long_period (cur.position + cur.period) memory := by
        cases long_period with
        | true => exact ⟨cur.memory, rfl, h.memory⟩
        | false =>
          obtain ⟨hper, hcp, -⟩ := hs.short rfl
          refine ⟨needle.length - cur.period, if_pos hple, sub_le _ _, fun _ k hk => ?_⟩
          rw [hper k (by omega), hright' (k + cur.period) (by omega) (by omega), add_assoc,
            add_comm k]
      obtain ⟨memory, hmemory', hok⟩ := hmem
      rw [hmemory', some_bind]
      exact h.again (by omega) (by omega) hnone hok
    | none =>
      -- an occurrence
      rw [checkedAdd_eq (show cur.position + needle.length < t.usizeCard by omega)]
      simp only [some_bind]
      refine ⟨h.same.update _ _, hs.update _ _ cur.end_ cur.memory_back, h.memory.reset,
        h.le.trans (le_add_right _ _), hfit, Or.inr ⟨cur.position, rfl, rfl, h.le, ⟨hfit, ?_⟩,
        h.none, fun he => (hearly he).symm⟩⟩
      intro k hk
      by_cases hck : cur.crit_pos ≤ k
      · exact hright' k hck hk
      · by_cases hkm : k < (if long_period then 0 else cur.memory)
        · exact hmemory k hkm
        · exact hleft k (not_lt.1 hkm) (not_le.1 hck)

/-- **One turn** of a forward search. -/
theorem next_turn_spec :
    TurnSpec (NextInv t needle haystack long_period s) (fun cur => haystack.length - cur.position)
      (NextPost t needle haystack S long_period s) cur
      (next_turn t S haystack needle long_period s.position (needle.length - 1) cur) := by
  have hcard := t.two_mul_isizeMax
  have hclt := h.ready.crit_pos_lt
  have hle := h.le
  have hlen := h.le_length
  unfold next_turn
  rw [checkedAdd_eq (by omega)]
  simp only [some_bind]
  by_cases htail : cur.position + (needle.length - 1) < haystack.length
  swap
  · -- no room for the needle
    rw [getElem?_eq_none (not_lt.1 htail)]
    refine ⟨h.same.update _ cur.memory, h.ready.update _ _ cur.end_ cur.memory_back, ?_,
      hle.trans hlen, le_rfl, Or.inl ⟨rfl, ?_, Or.inl rfl⟩⟩
    · have := h.memory
      unfold MemoryOk at this ⊢
      split at this
      · rwa [if_pos (by assumption)]
      · rw [if_neg (by assumption)]
        exact ⟨this.1, fun h => absurd h (by simp only; omega)⟩
    · exact h.none.append (noneFrom_of_lt (by omega))
  rw [getElem?_word htail]
  simp only
  by_cases hearly : S.use_early_reject = true ∧ s.position ≠ cur.position
  · rw [if_pos hearly]
    exact ⟨h.same, h.ready, h.memory, hle, hlen,
      Or.inl ⟨rfl, h.none, Or.inr ⟨hearly.1, lt_of_le_of_ne hle hearly.2⟩⟩⟩
  rw [if_neg hearly]
  by_cases hbyte : cur.byteset_contains (word haystack (cur.position + (needle.length - 1))) = false
  · rw [if_pos hbyte, checkedAdd_eq (by omega), some_bind]
    refine h.again (by omega) (by omega) ?_ h.memory.reset
    have := noneFrom_of_byte h.ready (a := cur.position) (by omega) hbyte
    rwa [show cur.position + (needle.length - 1) + 1 = cur.position + needle.length by omega]
      at this
  · rw [if_neg hbyte]
    exact next_compare_spec hhay h (by omega)
      fun he => not_not.1 fun hne => hearly ⟨he, hne⟩

omit h

/-- **A forward search** finds the first occurrence, or rejects positions where none starts. -/
theorem next_spec (hs : Ready needle long_period s) (hpos : s.position ≤ haystack.length)
    (hmem : MemoryOk t needle haystack long_period s.position s.memory) :
    ∃ r, s.next t S haystack needle long_period = some r ∧
      NextPost t needle haystack S long_period s r := by
  have hclt := hs.crit_pos_lt
  unfold next
  simp only [checkedSub, if_pos (show 1 ≤ needle.length by omega), some_bind]
  exact runLoop_spec _ _ _ _ (fun cur h => next_turn_spec hneedle hhay h) _ _
    ⟨rfl, hs, le_rfl, hpos, NoneFrom.refl _, hmem⟩ (by omega)

end Next

/-! ## Searching backwards -/

/-- No occurrence ends after `a` up to `b`. -/
def NoneEnding (needle haystack : List UInt8) (a b : ℕ) : Prop :=
  ∀ i, a < i + needle.length → i + needle.length ≤ b → ¬ OccursAt needle haystack i

theorem NoneEnding.append {a b c : ℕ} (h : NoneEnding needle haystack a b)
    (h' : NoneEnding needle haystack b c) : NoneEnding needle haystack a c := fun i ha hc =>
  if hb : i + needle.length ≤ b then h i ha hb else h' i (not_le.1 hb) hc

theorem NoneEnding.refl (a : ℕ) : NoneEnding needle haystack a a := fun i ha hb => by omega

/-- With a short period, the bytes of the needle from `memory_back`, a period, on are known to match
before the end. -/
def MemoryBackOk (t : Target) (needle haystack : List UInt8) (long_period : Bool)
    (end_ memory_back : ℕ) : Prop :=
  if long_period then memory_back = t.usizeMax
  else memory_back ≤ needle.length ∧ Period (word needle) needle.length memory_back ∧
    (needle.length ≤ end_ → ∀ k, memory_back ≤ k → k < needle.length →
      word needle k = word haystack (end_ - needle.length + k))

theorem memoryBackOk_init (long_period : Bool) (end_ : ℕ) :
    MemoryBackOk t needle haystack long_period end_
      (if long_period then t.usizeMax else needle.length) := by
  cases long_period with
  | false =>
    refine ⟨le_rfl, fun i (hi : i + needle.length < needle.length) => by omega, ?_⟩
    exact fun _ k hk hlt => absurd hlt (not_lt.2 hk)
  | true => exact rfl

theorem MemoryBackOk.reset {end_ memory_back end' : ℕ}
    (h : MemoryBackOk t needle haystack long_period end_ memory_back) :
    MemoryBackOk t needle haystack long_period end'
      (if long_period then memory_back else needle.length) := by
  cases long_period with
  | false => exact memoryBackOk_init false end'
  | true => exact h

/-- What the memory says where the needle fits. -/
theorem MemoryBackOk.known {end_ memory_back : ℕ}
    (h : MemoryBackOk t needle haystack long_period end_ memory_back)
    (hfit : needle.length ≤ end_) : let stop := if long_period then needle.length else memory_back
    stop ≤ needle.length ∧ ∀ k, stop ≤ k → k < needle.length →
      word needle k = word haystack (end_ - needle.length + k) := by
  cases long_period with
  | false => exact ⟨h.1, h.2.2 hfit⟩
  | true => exact ⟨le_rfl, fun k hk hlt => absurd hlt (not_lt.2 hk)⟩

/-- The left part differs at `i`. -/
theorem Ready.none_left (hs : Ready needle long_period s) {i end_ : ℕ}
    (hfit : needle.length ≤ end_) (hi : i < s.crit_pos_back)
    (hmatch : ∀ k, i < k → k < s.crit_pos_back →
      word needle k = word haystack (end_ - needle.length + k))
    (hne : word needle i ≠ word haystack (end_ - needle.length + i)) :
    NoneEnding needle haystack (end_ - (s.crit_pos_back - i)) end_ := by
  have hcle := hs.crit_pos_back_le
  intro k hk hle
  rcases eq_or_lt_of_le hle with heq | hlt
  · intro hocc
    refine hne ?_
    rw [hocc.2 i (by omega), ← heq, Nat.add_sub_cancel]
  · have hplace : k + (end_ - needle.length - k) = end_ - needle.length := by omega
    refine hs.critical_back.not_occurs_before (i := i) (s := end_ - needle.length - k) hcle
      (fun j hij hjc => ?_) ?_ (by omega) (by omega)
    · rw [hmatch j hij hjc, hplace]
    · rwa [hplace]

/-- The right part differs at `i`, and the left part does not: the needle moves by its period. -/
theorem Ready.none_right (hs : Ready needle long_period s) {i end_ : ℕ}
    (hfit : needle.length ≤ end_) (hi : i < needle.length)
    (hmatch : ∀ k < s.crit_pos_back, word needle k = word haystack (end_ - needle.length + k))
    (hne : word needle i ≠ word haystack (end_ - needle.length + i)) :
    NoneEnding needle haystack (end_ - s.period) end_ := by
  have hple := hs.period_le
  intro k hk hle hocc
  rcases eq_or_lt_of_le hle with heq | hlt
  · refine hne ?_
    rw [hocc.2 i hi, ← heq, Nat.add_sub_cancel]
  · have hplace : k + (end_ - needle.length - k) = end_ - needle.length := by omega
    have := hs.least (end_ - needle.length - k) (by omega)
      (hs.critical_back.period_of_occurs_before (fun j hj => by rw [hmatch j hj, hplace])
        (by omega) hocc)
    omega

/-- What is known of the needle when it has moved by its period. -/
theorem MemoryBackOk.shift (hs : Ready needle long_period s) {end_ : ℕ}
    (hfit : needle.length ≤ end_)
    (h : MemoryBackOk t needle haystack long_period end_ s.memory_back)
    (hmatch : ∀ k < s.crit_pos_back, word needle k = word haystack (end_ - needle.length + k)) :
    MemoryBackOk t needle haystack long_period (end_ - s.period)
      (if long_period then s.memory_back else s.period) := by
  cases long_period with
  | true => exact h
  | false =>
    obtain ⟨hper, -, hnc⟩ := hs.short rfl
    refine ⟨hs.period_le, hper, fun hfit' k (hk : s.period ≤ k) hlt => ?_⟩
    have := hper (k - s.period) (by omega)
    rw [Nat.sub_add_cancel hk] at this
    rw [← this, hmatch (k - s.period) (by omega)]
    congr 1
    omega

/-- The searchers differ in what a backward search changes. -/
def SameFront (s cur : TwoWaySearcher) : Prop :=
  cur = { s with end_ := cur.end_, memory_back := cur.memory_back }

theorem SameFront.update {cur : TwoWaySearcher} (h : SameFront s cur) (end_ memory_back : ℕ) :
    SameFront s { cur with end_, memory_back } := by
  unfold SameFront at h
  rw [h]
  rfl

/-- Where a backward search that began with `s` is. -/
structure BackInv (t : Target) (needle haystack : List UInt8) (long_period : Bool)
    (s cur : TwoWaySearcher) : Prop where
  same : SameFront s cur
  ready : Ready needle long_period cur
  le : cur.end_ ≤ s.end_
  le_length : cur.end_ ≤ haystack.length
  none : NoneEnding needle haystack cur.end_ s.end_
  memory : MemoryBackOk t needle haystack long_period cur.end_ cur.memory_back

/-- What a backward search returns. -/
def BackPost (t : Target) (needle haystack : List UInt8) (S : TwoWayStrategy β)
    (long_period : Bool) (s : TwoWaySearcher) (r : TwoWaySearcher × β) : Prop :=
  SameFront s r.1 ∧ Ready needle long_period r.1 ∧
    MemoryBackOk t needle haystack long_period r.1.end_ r.1.memory_back ∧ r.1.end_ ≤ s.end_ ∧
    ((r.2 = S.rejecting r.1.end_ s.end_ ∧ NoneEnding needle haystack r.1.end_ s.end_ ∧
        (r.1.end_ = 0 ∨ (S.use_early_reject = true ∧ r.1.end_ < s.end_))) ∨
      (r.2 = S.matching r.1.end_ (r.1.end_ + needle.length) ∧
        r.1.end_ + needle.length ≤ s.end_ ∧ OccursAt needle haystack r.1.end_ ∧
        NoneEnding needle haystack (r.1.end_ + needle.length) s.end_ ∧
        (S.use_early_reject = true → r.1.end_ + needle.length = s.end_)))

section NextBack

variable {cur : TwoWaySearcher} (hneedle : needle.length ≤ t.isizeMax)
  (hhay : haystack.length ≤ t.isizeMax)

/-- Moving on over ends where nothing ends. -/
theorem BackInv.again (h : BackInv t needle haystack long_period s cur) {end_ memory_back : ℕ}
    (hlt : end_ < cur.end_) (hnone : NoneEnding needle haystack end_ cur.end_)
    (hmem : MemoryBackOk t needle haystack long_period end_ memory_back) :
    TurnSpec (BackInv t needle haystack long_period s) (fun cur => cur.end_)
      (BackPost t needle haystack S long_period s) cur
      (some (.again { cur with end_, memory_back })) :=
  ⟨⟨h.same.update end_ memory_back, h.ready.update cur.position cur.memory end_ memory_back,
    hlt.le.trans h.le, hlt.le.trans h.le_length, hnone.append h.none, hmem⟩, hlt⟩

include hhay

/-- The needle is compared before an end where it fits. -/
theorem next_back_compare_spec (h : BackInv t needle haystack long_period s cur)
    (hfit : needle.length ≤ cur.end_) (hearly : S.use_early_reject = true → s.end_ = cur.end_) :
    TurnSpec (BackInv t needle haystack long_period s) (fun cur => cur.end_)
      (BackPost t needle haystack S long_period s) cur (do
        let at_ := fun i => do t.checkedAdd (← checkedSub cur.end_ needle.length) i
        let crit := if long_period then cur.crit_pos_back
          else min cur.crit_pos_back cur.memory_back
        match ← mismatch needle haystack at_ (range' 0 crit).reverse with
        | some i => do
          let end_ ← checkedSub cur.end_ (← checkedSub cur.crit_pos_back i)
          some (.again { cur with
            end_, memory_back := if long_period then cur.memory_back else needle.length })
        | none => do
          let needle_end := if long_period then needle.length else cur.memory_back
          match ← mismatch needle haystack at_
              (range' cur.crit_pos_back (needle_end - cur.crit_pos_back)) with
          | some _ => do
            let end_ ← checkedSub cur.end_ cur.period
            some (.again { cur with
              end_, memory_back := if long_period then cur.memory_back else cur.period })
          | none => do
            let match_pos ← checkedSub cur.end_ needle.length
            let end_ ← checkedSub cur.end_ needle.length
            let cur := { cur with
              end_, memory_back := if long_period then cur.memory_back else needle.length }
            some (.done (cur, S.matching match_pos (← t.checkedAdd match_pos needle.length)))) := by
  have hcard := t.two_mul_isizeMax
  have hs := h.ready
  have hcle := hs.crit_pos_back_le
  have hple := hs.period_le
  have hpos := hs.period_pos
  have hlen := h.le_length
  have hle := h.le
  have hsub : checkedSub cur.end_ needle.length = some (cur.end_ - needle.length) := if_pos hfit
  have hat : ∀ n ≤ needle.length, ∀ i < n,
      t.checkedAdd (cur.end_ - needle.length) i = some (cur.end_ - needle.length + i) :=
    fun n hn i hi => checkedAdd_eq (by omega)
  obtain ⟨hend, hmemory⟩ := h.memory.known hfit
  have hcrit : (if long_period then cur.crit_pos_back else min cur.crit_pos_back cur.memory_back) =
      min cur.crit_pos_back (if long_period then needle.length else cur.memory_back) := by
    cases long_period with
    | true => exact (min_eq_left hcle).symm
    | false => rfl
  simp only [hsub, some_bind, hcrit]
  generalize (if long_period then needle.length else cur.memory_back) = needle_end at hmemory hend
  obtain ⟨r, hr, hspec⟩ := mismatch_between haystack (pairwise_reverse.2 pairwise_lt_range')
    (mem_reverse.trans (mem_between 0)) ((min_le_left _ _).trans hcle)
    (hat (min cur.crit_pos_back needle_end) ((min_le_left _ _).trans hcle)) (by omega)
  rw [Nat.sub_zero] at hr
  simp only [hr, some_bind]
  cases r with
  | some i =>
    obtain ⟨_, hi, hmatch, hne⟩ := hspec
    -- the left part differs at `i`
    have hic : i < cur.crit_pos_back := lt_of_lt_of_le hi (min_le_left _ _)
    have hmatch' : ∀ k, i < k → k < cur.crit_pos_back →
        word needle k = word haystack (cur.end_ - needle.length + k) := by
      intro k hik hkc
      by_cases hk : needle_end ≤ k
      · exact hmemory k hk (by omega)
      · exact hmatch k (zero_le k) (lt_min hkc (not_le.1 hk)) hik.ne' hik.not_gt
    simp only [checkedSub, if_pos hic.le, some_bind,
      if_pos (show cur.crit_pos_back - i ≤ cur.end_ by omega)]
    exact h.again (by omega) (hs.none_left hfit hic hmatch' hne) h.memory.reset
  | none =>
    have hleft' : ∀ k, k < cur.crit_pos_back →
        word needle k = word haystack (cur.end_ - needle.length + k) := by
      intro k hkc
      by_cases hk : needle_end ≤ k
      · exact hmemory k hk (by omega)
      · exact hspec k (zero_le k) (lt_min hkc (not_le.1 hk))
    obtain ⟨r, hr, hright⟩ := mismatch_between haystack pairwise_lt_range'
      (mem_between cur.crit_pos_back) hend (hat needle_end hend) (by omega)
    simp only [hr, some_bind]
    cases r with
    | some i =>
      obtain ⟨_, hi, _, hne⟩ := hright
      -- the right part differs: shift by the period
      simp only [checkedSub, if_pos (show cur.period ≤ cur.end_ by omega), some_bind]
      exact h.again (by omega) (hs.none_right hfit (by omega) hleft' hne)
        (h.memory.shift hs hfit hleft')
    | none =>
      -- an occurrence
      rw [checkedAdd_eq (by omega)]
      simp only [some_bind]
      refine ⟨h.same.update _ _, hs.update cur.position cur.memory _ _, h.memory.reset,
        (sub_le _ _).trans hle, Or.inr ⟨rfl, ?_, ⟨?_, fun k hk => ?_⟩, ?_, fun he => ?_⟩⟩
      · simp only
        omega
      · simp only
        omega
      · by_cases hkc : k < cur.crit_pos_back
        · exact hleft' k hkc
        · by_cases hke : needle_end ≤ k
          · exact hmemory k hke hk
          · exact hright k (not_lt.1 hkc) (not_le.1 hke)
      · simp only
        rw [Nat.sub_add_cancel hfit]
        exact h.none
      · have := hearly he
        simp only
        omega

include hneedle

/-- **One turn** of a backward search. -/
theorem next_back_turn_spec (h : BackInv t needle haystack long_period s cur) :
    TurnSpec (BackInv t needle haystack long_period s) (fun cur => cur.end_)
      (BackPost t needle haystack S long_period s) cur
      (next_back_turn t S haystack needle long_period s.end_ cur) := by
  have hcard := t.two_mul_isizeMax
  have hclt := h.ready.crit_pos_lt
  have hle := h.le
  have hlen := h.le_length
  unfold next_back_turn
  by_cases hfit : needle.length ≤ cur.end_
  swap
  · -- no room for the needle
    have := isizeMax_lt_wrappingSub (t := t) (not_le.1 hfit) hneedle
    rw [getElem?_eq_none (by omega)]
    refine ⟨h.same.update _ cur.memory_back, h.ready.update cur.position cur.memory _ _, ?_,
      zero_le _, Or.inl ⟨rfl, ?_, Or.inl rfl⟩⟩
    · have := h.memory
      unfold MemoryBackOk at this ⊢
      split at this
      · rwa [if_pos (by assumption)]
      · rw [if_neg (by assumption)]
        exact ⟨this.1, this.2.1, fun h => absurd h (by simp only; omega)⟩
    · exact NoneEnding.append (fun i _ hi => by omega) h.none
  rw [wrappingSub_of_le hfit (by omega),
    getElem?_word (show cur.end_ - needle.length < haystack.length by omega)]
  simp only
  by_cases hearly : S.use_early_reject = true ∧ s.end_ ≠ cur.end_
  · rw [if_pos hearly]
    exact ⟨h.same, h.ready, h.memory, hle,
      Or.inl ⟨rfl, h.none, Or.inr ⟨hearly.1, lt_of_le_of_ne hle (Ne.symm hearly.2)⟩⟩⟩
  rw [if_neg hearly]
  by_cases hbyte : cur.byteset_contains (word haystack (cur.end_ - needle.length)) = false
  · rw [if_pos hbyte]
    simp only [checkedSub, if_pos hfit, some_bind]
    refine h.again (by omega) (fun i hi hle' => ?_) h.memory.reset
    exact noneFrom_of_byte h.ready (a := i) hi hbyte i le_rfl (by omega)
  · rw [if_neg hbyte]
    exact next_back_compare_spec hhay h hfit fun he => not_not.1 fun hne => hearly ⟨he, hne⟩

/-- **A backward search** finds the last occurrence, or rejects positions where none ends. -/
theorem next_back_spec (hs : Ready needle long_period s) (hend : s.end_ ≤ haystack.length)
    (hmem : MemoryBackOk t needle haystack long_period s.end_ s.memory_back) :
    ∃ r, s.next_back t S haystack needle long_period = some r ∧
      BackPost t needle haystack S long_period s r :=
  runLoop_spec _ _ _ _ (fun _ h => next_back_turn_spec hneedle hhay h) _ _
    ⟨rfl, hs, le_rfl, hend, NoneEnding.refl _, hmem⟩ (by omega)

end NextBack

end RustStd.TwoWaySearcher
