import RustStd.Foundations.Loop
import RustStd.Foundations.Word
import RustStd.Str.Utf8
import Mathlib.Tactic.IntervalCases

/-!
# UTF-8 validation

`run_utf8_validation` of `core/src/str/validations.rs`: the scalar automaton with its three kinds
of error length, and the skip over blocks of two aligned ASCII words. Bytes are read with `v[i]?`
and words with `Target.readUsize`, so a result states that no read left the slice or was
misaligned. `run_utf8_validation_spec` is the whole specification: the result is `Ok` exactly on
well-formed input, and an error has the greatest well-formed prefix and the maximal part of an
encoding found after it.
-/

namespace RustStd.Validations

open Utf8 List

structure Utf8Error where
  valid_up_to : ℕ
  error_len : Option ℕ
  deriving DecidableEq, Repr

/-! ## The source -/

def UTF8_CHAR_WIDTH : List ℕ := [
  1, 1, 1, 1, 1, 1, 1, 1, 1, 1, 1, 1, 1, 1, 1, 1, -- 0
  1, 1, 1, 1, 1, 1, 1, 1, 1, 1, 1, 1, 1, 1, 1, 1, -- 1
  1, 1, 1, 1, 1, 1, 1, 1, 1, 1, 1, 1, 1, 1, 1, 1, -- 2
  1, 1, 1, 1, 1, 1, 1, 1, 1, 1, 1, 1, 1, 1, 1, 1, -- 3
  1, 1, 1, 1, 1, 1, 1, 1, 1, 1, 1, 1, 1, 1, 1, 1, -- 4
  1, 1, 1, 1, 1, 1, 1, 1, 1, 1, 1, 1, 1, 1, 1, 1, -- 5
  1, 1, 1, 1, 1, 1, 1, 1, 1, 1, 1, 1, 1, 1, 1, 1, -- 6
  1, 1, 1, 1, 1, 1, 1, 1, 1, 1, 1, 1, 1, 1, 1, 1, -- 7
  0, 0, 0, 0, 0, 0, 0, 0, 0, 0, 0, 0, 0, 0, 0, 0, -- 8
  0, 0, 0, 0, 0, 0, 0, 0, 0, 0, 0, 0, 0, 0, 0, 0, -- 9
  0, 0, 0, 0, 0, 0, 0, 0, 0, 0, 0, 0, 0, 0, 0, 0, -- A
  0, 0, 0, 0, 0, 0, 0, 0, 0, 0, 0, 0, 0, 0, 0, 0, -- B
  0, 0, 2, 2, 2, 2, 2, 2, 2, 2, 2, 2, 2, 2, 2, 2, -- C
  2, 2, 2, 2, 2, 2, 2, 2, 2, 2, 2, 2, 2, 2, 2, 2, -- D
  3, 3, 3, 3, 3, 3, 3, 3, 3, 3, 3, 3, 3, 3, 3, 3, -- E
  4, 4, 4, 4, 4, 0, 0, 0, 0, 0, 0, 0, 0, 0, 0, 0] -- F

/-- `None` would be an index out of the table. -/
def utf8_char_width (b : UInt8) : Option ℕ := UTF8_CHAR_WIDTH[b.toNat]?

/-- The byte read as an `i8`. -/
def asI8 (b : UInt8) : ℤ := b.toBitVec.toInt

def contains_nonascii (t : Target) (x : ℕ) : Bool := x &&& t.repeatU8 0x80 != 0

/-- One turn of the outer loop: from an index to the next index, or out of the function. -/
abbrev ValidationTurn := Option (Turn ℕ (Except Utf8Error Unit))

/-- `err!` -/
def err (old_offset : ℕ) (error_len : Option ℕ) : ValidationTurn :=
  some (.done (.error ⟨old_offset, error_len⟩))

/-- `next!`, with the rest of the turn as a continuation. -/
def next (v : List UInt8) (old_offset index : ℕ) (rest : ℕ → UInt8 → ValidationTurn) :
    ValidationTurn :=
  if index + 1 ≥ v.length then err old_offset none
  else do rest (index + 1) (← v[index + 1]?)

/-- The pairs of lead and second byte let through for a width of 3. -/
def second3 (first b : UInt8) : Bool :=
  (first == 0xE0 && 0xA0 ≤ b && b ≤ 0xBF) ||
  (0xE1 ≤ first && first ≤ 0xEC && 0x80 ≤ b && b ≤ 0xBF) ||
  (first == 0xED && 0x80 ≤ b && b ≤ 0x9F) ||
  (0xEE ≤ first && first ≤ 0xEF && 0x80 ≤ b && b ≤ 0xBF)

/-- The pairs of lead and second byte let through for a width of 4. -/
def second4 (first b : UInt8) : Bool :=
  (first == 0xF0 && 0x90 ≤ b && b ≤ 0xBF) ||
  (0xF1 ≤ first && first ≤ 0xF3 && 0x80 ≤ b && b ≤ 0xBF) ||
  (first == 0xF4 && 0x80 ≤ b && b ≤ 0x8F)

/-- A turn at a byte from 128 on. -/
def scalarTurn (v : List UInt8) (index : ℕ) (first : UInt8) : ValidationTurn := do
  match ← utf8_char_width first with
  | 2 => next v index index fun i b =>
      if asI8 b ≥ -64 then err index (some 1) else some (.again (i + 1))
  | 3 => next v index index fun i b =>
      if second3 first b then
        next v index i fun i c =>
          if asI8 c ≥ -64 then err index (some 2) else some (.again (i + 1))
      else err index (some 1)
  | 4 => next v index index fun i b =>
      if second4 first b then
        next v index i fun i c =>
          if asI8 c ≥ -64 then err index (some 2)
          else next v index i fun i d =>
            if asI8 d ≥ -64 then err index (some 3) else some (.again (i + 1))
      else err index (some 1)
  | _ => err index (some 1)

/-- A turn of the loop over blocks of two words. -/
def blockTurn (t : Target) (addr : ℕ) (v : List UInt8) (blocks_end index : ℕ) : Option (Turn ℕ ℕ) :=
  if index < blocks_end then do
    let zu := contains_nonascii t (← t.readUsize addr v index)
    let zv := contains_nonascii t (← t.readUsize addr v (index + t.usizeBytes))
    if zu || zv then some (.done index) else some (.again (index + 2 * t.usizeBytes))
  else some (.done index)

/-- A turn of the loop over ASCII bytes. -/
def asciiTurn (v : List UInt8) (index : ℕ) : Option (Turn ℕ ℕ) :=
  if index < v.length then do
    let b ← v[index]?
    if b < 128 then some (.again (index + 1)) else some (.done index)
  else some (.done index)

/-- A turn of the outer loop. `align` is `usize::MAX` during constant evaluation. -/
def validationTurn (t : Target) (addr : ℕ) (v : List UInt8) (align blocks_end index : ℕ) :
    ValidationTurn :=
  if index < v.length then do
    let first ← v[index]?
    if first ≥ 128 then scalarTurn v index first
    else if align ≠ t.usizeMax ∧ t.wrappingSub align index % t.usizeBytes = 0 then do
      let index ← runLoop (blockTurn t addr v blocks_end) (v.length + 1) index
      let index ← runLoop (asciiTurn v) (v.length + 1) index
      some (.again index)
    else some (.again (index + 1))
  else some (.done (.ok ()))

/-- Validate the slice `v` at the address `addr`. -/
def run_utf8_validation (t : Target) (constEval : Bool) (addr : ℕ) (v : List UInt8) :
    Option (Except Utf8Error Unit) :=
  let ascii_block_size := 2 * t.usizeBytes
  let blocks_end := if v.length ≥ ascii_block_size then v.length - ascii_block_size + 1 else 0
  let align := if constEval then t.usizeMax else t.alignOffset addr
  runLoop (validationTurn t addr v align blocks_end) (v.length + 1) 0

/-! ## What the tests on bytes say -/

/-- The table, row by row. -/
theorem UTF8_CHAR_WIDTH_eq : UTF8_CHAR_WIDTH = (range 256).map fun n =>
    if n < 0x80 then 1 else if n < 0xC2 then 0 else if n < 0xE0 then 2 else if n < 0xF0 then 3
      else if n < 0xF5 then 4 else 0 := by
  decide +kernel

theorem utf8_char_width_eq (b : UInt8) :
    utf8_char_width b = some (if b.toNat < 0x80 then 1 else if b.toNat < 0xC2 then 0
      else if b.toNat < 0xE0 then 2 else if b.toNat < 0xF0 then 3 else if b.toNat < 0xF5 then 4
      else 0) := by
  rw [utf8_char_width, UTF8_CHAR_WIDTH_eq, getElem?_map, getElem?_range b.toNat_lt]
  rfl

theorem asI8_ge_iff (b : UInt8) : asI8 b ≥ -64 ↔ ¬ Tail b := by
  rw [asI8, BitVec.toInt_eq_toNat_cond, Tail]
  rw [show b.toBitVec.toNat = b.toNat from rfl]
  split <;> lia

theorem second3_iff (a b : UInt8) : second3 a b = true ↔ Lead3 a b := by
  simp [second3, Lead3, Tail, UInt8.le_iff_toNat_le, ← UInt8.toNat_inj, UInt8.reduceToNat,
    and_assoc, or_assoc]

theorem second4_iff (a b : UInt8) : second4 a b = true ↔ Lead4 a b := by
  simp [second4, Lead4, Tail, UInt8.le_iff_toNat_le, ← UInt8.toNat_inj, UInt8.reduceToNat,
    and_assoc, or_assoc]

theorem contains_nonascii_iff (t : Target) {bs : List UInt8} (h : bs.length = t.usizeBytes) :
    contains_nonascii t (t.usizeOfBytes bs) = true ↔ ∃ b ∈ bs, 128 ≤ b.toNat := by
  rw [← t.usizeOfBytes_and_ne_zero h]
  simp [contains_nonascii]

/-! ## What is found after the well-formed prefix -/

/-- The bytes `l` do not begin with an encoding, and `error_len` says why: they stop short of one,
or the maximal part of an encoding there (at least one byte) has the length given. -/
def ErrorAt (l : List UInt8) : Option ℕ → Prop
  | none => IsProperEncPrefix l
  | some k => ¬ IsEncPrefix l ∧ (1 ≤ k ∧ k ≤ 3 ∧ k ≤ l.length) ∧
      (∀ n ≤ l.length, IsEncPrefix (l.take n) → n ≤ k) ∧ (k = 1 ∨ IsEncPrefix (l.take k))

theorem IsEncPrefix.mono {l m : List UInt8} (h : IsEncPrefix m) (hl : l <+: m) : IsEncPrefix l := by
  obtain ⟨c, hc⟩ := h
  exact ⟨c, hl.trans hc⟩

variable {l : List UInt8}

/-- It is enough to see that one more byte is not the beginning of an encoding. -/
theorem errorAt_some {k : ℕ} (h1 : 1 ≤ k) (h3 : k ≤ 3) (hk : k ≤ l.length)
    (hshape : k = 1 ∨ PrefixShape (l.take k)) (hstop : ¬ PrefixShape (l.take (k + 1))) :
    ErrorAt l (some k) := by
  rw [← isEncPrefix_iff] at hshape hstop
  refine ⟨fun h => hstop (IsEncPrefix.mono h (List.take_prefix _ _)), ⟨h1, h3, hk⟩, ?_, hshape⟩
  intro n hn h
  by_contra hlt
  refine hstop (IsEncPrefix.mono h ?_)
  rw [prefix_take_iff]
  exact ⟨List.take_prefix _ _, by simp; lia⟩

theorem errorAt_none (hp : PrefixShape l) (he : ¬ EncShape l) :
    ErrorAt l none := (isProperEncPrefix_iff l).2 ⟨hp, he⟩

/-- What a turn at `index` may do: pass over one encoding, or report what is there. -/
def ScalarSpec (v : List UInt8) (index : ℕ) : ValidationTurn → Prop
  | some (.again i) => ∃ n, i = index + n ∧ i ≤ v.length ∧ IsEnc ((v.drop index).take n)
  | some (.done (.error e)) => e.valid_up_to = index ∧ (∀ n, ¬ IsEnc ((v.drop index).take n)) ∧
      ErrorAt (v.drop index) e.error_len
  | _ => False

theorem next_eq (v : List UInt8) (o i : ℕ) (k : ℕ → UInt8 → ValidationTurn) :
    next v o i k = match v[i + 1]? with
      | none => err o none
      | some b => k (i + 1) b := by
  unfold next
  split
  · rw [getElem?_eq_none (by lia)]
  · rw [getElem?_eq_getElem (by lia)]
    rfl

variable {v : List UInt8} {index : ℕ}

theorem scalarSpec_again (hl : v.drop index = l)
    (n : ℕ) (hn : n ≤ l.length) (h : EncShape (l.take n)) :
    ScalarSpec v index (some (.again (index + n))) := by
  have hlen := congrArg length hl
  rw [length_drop] at hlen
  refine ⟨n, rfl, ?_, by rw [hl]; exact isEnc_of_encShape h⟩
  rcases Nat.eq_zero_or_pos n with rfl | h0
  · exact h.elim
  · lia

theorem scalarSpec_err_none (hl : v.drop index = l) (hp : PrefixShape l) (he : ¬ EncShape l) :
    ScalarSpec v index (err index none) := by
  have hproper := errorAt_none hp he
  refine ⟨rfl, fun n h => ?_, hl ▸ hproper⟩
  rw [hl] at h
  obtain ⟨c, ⟨r, hr⟩, hne⟩ := hproper
  have heq : l.take n ++ (l.drop n ++ r) = String.utf8EncodeChar c ++ [] := by
    rw [← append_assoc, take_append_drop, hr, append_nil]
  obtain ⟨-, hnil⟩ := h.eq_of_append_eq ⟨c, rfl⟩ heq
  rw [append_eq_nil_iff] at hnil
  rw [hnil.2, append_nil] at hr
  exact hne hr

theorem scalarSpec_err_some
    (hl : v.drop index = l) {k : ℕ} (h1 : 1 ≤ k) (h3 : k ≤ 3) (hk : k ≤ l.length)
    (hshape : k = 1 ∨ PrefixShape (l.take k)) (hstop : ¬ PrefixShape (l.take (k + 1)))
    (hno : ∀ n ≤ k, ¬ EncShape (l.take n)) : ScalarSpec v index (err index (some k)) := by
  have herr := errorAt_some h1 h3 hk hshape hstop
  refine ⟨rfl, fun n h => ?_, hl ▸ herr⟩
  rw [hl, take_eq_take_min] at h
  obtain ⟨c, hc⟩ := id h
  have hle := herr.2.2.1 (min n l.length) (min_le_right _ _) ⟨c, hc ▸ prefix_refl _⟩
  exact hno _ hle ((isEnc_iff _).1 h)

/-- **The scalar automaton passes over exactly one encoding, or reports exactly what it found.** -/
theorem scalarTurn_spec {a : UInt8} {tl : List UInt8}
    (hl : v.drop index = a :: tl) (h128 : 128 ≤ a.toNat) :
    ScalarSpec v index (scalarTurn v index a) := by
  have hget : ∀ j, v[index + (j + 1)]? = tl[j]? := fun j => by
    rw [← getElem?_drop, hl, getElem?_cons_succ]
  simp only [scalarTurn, utf8_char_width_eq, some_bind, next_eq,
    Nat.add_assoc, Nat.reduceAdd, hget 0, hget 1, hget 2, asI8_ge_iff]
  have hno1 : ∀ n ≤ 1, ¬ EncShape ((a :: tl).take n) := by
    intro n hn
    interval_cases n
    · exact id
    · exact h128.not_gt
  by_cases hw0 : a.toNat < 0xC2 ∨ 0xF5 ≤ a.toNat
  · -- no lead byte
    have hstop : ¬ PrefixShape ((a :: tl).take 2) := by
      rcases tl with _ | ⟨b, tl⟩
      · simp only [take_succ_cons, take_nil, PrefixShape]; lia
      · simp only [take_succ_cons, take_zero, PrefixShape, Lead2, Lead3, Lead4]; lia
    have herr := scalarSpec_err_some hl le_rfl (by lia) (by simp) (Or.inl rfl) hstop hno1
    split_ifs <;> first | exact herr | lia
  by_cases hw2 : a.toNat < 0xE0
  · rw [if_neg (by lia), if_neg (by lia), if_pos hw2]
    rcases tl with _ | ⟨b, tl⟩
    · refine scalarSpec_err_none hl (Or.inr ?_) (hno1 1 le_rfl)
      lia
    · simp only [getElem?_cons_zero]
      split
      · rename_i hb
        refine scalarSpec_err_some hl le_rfl (by lia) (by simp) (Or.inl rfl) ?_ hno1
        simp only [take_succ_cons, take_zero, PrefixShape, Lead2, Lead3, Lead4, Tail]
          at hb ⊢
        lia
      · rename_i hb
        exact scalarSpec_again hl 2 (by simp) ⟨⟨by lia, by lia⟩, not_not.1 hb⟩
  by_cases hw3 : a.toNat < 0xF0
  · rw [if_neg (by lia), if_neg (by lia), if_neg hw2, if_pos hw3]
    have hno4 : ∀ b, ¬ Lead4 a b := by simp only [Lead4]; lia
    have hno2 : ¬ Lead2 a := by simp only [Lead2]; lia
    rcases tl with _ | ⟨b, _ | ⟨c, tl⟩⟩
    · refine scalarSpec_err_none hl (Or.inr ?_) (hno1 1 le_rfl)
      lia
    · simp only [getElem?_cons_zero, getElem?_cons_succ, getElem?_nil]
      split
      · rename_i hb
        rw [second3_iff] at hb
        exact scalarSpec_err_none hl (Or.inr (Or.inl hb)) (fun h => hno2 h.1)
      · rename_i hb
        rw [second3_iff] at hb
        refine scalarSpec_err_some hl le_rfl (by lia) (by simp) (Or.inl rfl) ?_ hno1
        rintro (h | h | h)
        exacts [hno2 h.1, hb h, hno4 b h]
    · simp only [getElem?_cons_zero, getElem?_cons_succ]
      split
      · rename_i hb
        rw [second3_iff] at hb
        split
        · rename_i hc
          refine scalarSpec_err_some hl (k := 2) (by lia) (by lia) (by simp)
            (Or.inr (Or.inr (Or.inl hb))) (fun h => hc h.2) ?_
          intro n hn h
          interval_cases n
          exacts [h, hno1 1 le_rfl h, hno2 h.1]
        · rename_i hc
          exact scalarSpec_again hl 3 (by simp) ⟨hb, not_not.1 hc⟩
      · rename_i hb
        rw [second3_iff] at hb
        refine scalarSpec_err_some hl le_rfl (by lia) (by simp) (Or.inl rfl) ?_ hno1
        rintro (h | h | h)
        exacts [hno2 h.1, hb h, hno4 b h]
  · rw [if_neg (by lia), if_neg (by lia), if_neg hw2, if_neg hw3, if_pos (by lia)]
    have hno3 : ∀ b, ¬ Lead3 a b := by simp only [Lead3]; lia
    have hno2 : ¬ Lead2 a := by simp only [Lead2]; lia
    rcases tl with _ | ⟨b, tl⟩
    · refine scalarSpec_err_none hl (Or.inr ?_) (hno1 1 le_rfl)
      lia
    · simp only [getElem?_cons_zero, getElem?_cons_succ]
      split
      · rename_i hb
        rw [second4_iff] at hb
        rcases tl with _ | ⟨c, tl⟩
        · exact scalarSpec_err_none hl (Or.inr (Or.inr hb)) (fun h => hno2 h.1)
        · simp only [getElem?_cons_zero, getElem?_cons_succ]
          split
          · rename_i hc
            refine scalarSpec_err_some hl (k := 2) (by lia) (by lia) (by simp)
              (Or.inr (Or.inr (Or.inr hb))) (fun h => hc h.2) ?_
            intro n hn h
            interval_cases n
            exacts [h, hno1 1 le_rfl h, hno2 h.1]
          rename_i hc
          have hc := not_not.1 hc
          rcases tl with _ | ⟨d, tl⟩
          · exact scalarSpec_err_none hl ⟨Or.inr hb, hc⟩ (fun h => hno3 b h.1)
          · simp only [getElem?_cons_zero]
            split
            · rename_i hd
              refine scalarSpec_err_some hl (k := 3) (by lia) (by lia) (by simp)
                (Or.inr ⟨Or.inr hb, hc⟩) (fun h => hd h.2.2) ?_
              intro n hn h
              interval_cases n
              exacts [h, hno1 1 le_rfl h, hno2 h.1, hno3 b h.1]
            · rename_i hd
              exact scalarSpec_again hl 4 (by simp) ⟨hb, hc, not_not.1 hd⟩
      · rename_i hb
        rw [second4_iff] at hb
        refine scalarSpec_err_some hl le_rfl (by lia) (by simp) (Or.inl rfl) ?_ hno1
        rintro (h | h | h)
        exacts [hno2 h.1, hno3 b h, hb h]

/-! ## The skip over ASCII bytes -/

/-- The bytes from `i` to `j` are in the slice and below 128. -/
def AsciiRange (v : List UInt8) (i j : ℕ) : Prop :=
  i ≤ j ∧ j ≤ v.length ∧ ∀ b ∈ (v.drop i).take (j - i), b.toNat < 128

theorem AsciiRange.trans {i j k : ℕ} (h₁ : AsciiRange v i j)
    (h₂ : AsciiRange v j k) : AsciiRange v i k := by
  obtain ⟨hij, -, h₁⟩ := h₁
  obtain ⟨hjk, hk, h₂⟩ := h₂
  refine ⟨hij.trans hjk, hk, fun b hb => ?_⟩
  rw [show k - i = (j - i) + (k - j) by lia, take_add, mem_append, drop_drop,
    show i + (j - i) = j by lia] at hb
  exact hb.elim (h₁ b) (h₂ b)

theorem AsciiRange.refl {i : ℕ} (h : i ≤ v.length) : AsciiRange v i i :=
  ⟨le_rfl, h, by simp⟩

theorem AsciiRange.wellFormed_take {i j : ℕ} (h : AsciiRange v i j)
    (hi : WellFormed (v.take i)) : WellFormed (v.take j) := by
  obtain ⟨hij, -, h⟩ := h
  rw [show j = i + (j - i) by lia, take_add]
  exact hi.append (wellFormed_of_ascii h)

/-- A read of an aligned word inside the slice yields the word of its bytes. -/
theorem contains_nonascii_readUsize {t : Target} {addr : ℕ} {off : ℕ}
    (ha : (addr + off) % t.usizeBytes = 0) (hlen : off + t.usizeBytes ≤ v.length) :
    ∃ x, t.readUsize addr v off = some x ∧
      (contains_nonascii t x = false → AsciiRange v off (off + t.usizeBytes)) := by
  refine ⟨_, if_pos ⟨ha, hlen⟩, fun h => ⟨by lia, hlen, fun b hb => ?_⟩⟩
  have hbytes : ((v.drop off).take t.usizeBytes).length = t.usizeBytes := by
    rw [length_take, length_drop]
    lia
  rw [Nat.add_sub_cancel_left] at hb
  by_contra hge
  rw [(contains_nonascii_iff t hbytes).2 ⟨b, hb, by lia⟩] at h
  exact Bool.noConfusion h

theorem blockLoop_spec {t : Target} {addr : ℕ} {blocks_end index : ℕ}
    (hend : ∀ i < blocks_end, i + 2 * t.usizeBytes ≤ v.length)
    (ha : (addr + index) % t.usizeBytes = 0) (hi : index ≤ v.length) :
    ∃ i, runLoop (blockTurn t addr v blocks_end) (v.length + 1) index = some i ∧
      AsciiRange v index i := by
  have hpos := t.usizeBytes_pos
  refine runLoop_spec _ (fun i => AsciiRange v index i ∧ (addr + i) % t.usizeBytes = 0)
    (fun i => v.length - i) _ ?_ _ _ ⟨AsciiRange.refl hi, ha⟩ (by lia)
  rintro i ⟨hrange, hali⟩
  unfold blockTurn
  split
  · rename_i hlt
    have hle := hend i hlt
    have hali' : (addr + (i + t.usizeBytes)) % t.usizeBytes = 0 := by
      rw [← Nat.add_assoc, Nat.add_mod_right, hali]
    obtain ⟨x, hx, hx'⟩ := contains_nonascii_readUsize (t := t) (v := v) hali (by lia)
    obtain ⟨y, hy, hy'⟩ := contains_nonascii_readUsize (t := t) (v := v) hali' (by lia)
    simp only [hx, hy, some_bind]
    split
    · exact hrange
    · rename_i hz
      simp only [Bool.or_eq_true, not_or, Bool.not_eq_true] at hz
      have hstep := (hx' hz.1).trans (hy' hz.2)
      rw [Nat.add_assoc, ← Nat.two_mul] at hstep
      refine ⟨⟨hrange.trans hstep, ?_⟩, Nat.sub_lt_sub_left (by lia) (by lia)⟩
      rw [← Nat.add_assoc, Nat.two_mul, ← Nat.add_assoc, Nat.add_mod_right, Nat.add_mod_right, hali]
  · exact hrange

theorem asciiRange_succ {i : ℕ} {b : UInt8} (hget : v[i]? = some b)
    (hb : b.toNat < 128) : AsciiRange v i (i + 1) := by
  obtain ⟨hlt, hv⟩ := List.getElem?_eq_some_iff.1 hget
  refine ⟨by lia, hlt, fun c hc => ?_⟩
  rw [Nat.add_sub_cancel_left, drop_eq_getElem_cons hlt] at hc
  simp only [take_succ_cons, take_zero, mem_singleton] at hc
  rw [hc, hv]
  exact hb

theorem asciiLoop_spec (hi : index ≤ v.length) :
    ∃ i, runLoop (asciiTurn v) (v.length + 1) index = some i ∧ AsciiRange v index i ∧
      ∀ b, v[i]? = some b → 128 ≤ b.toNat := by
  refine runLoop_spec _ (fun i => AsciiRange v index i)
    (fun i => v.length - i) _ ?_ _ _ (AsciiRange.refl hi) (by lia)
  intro i hrange
  unfold asciiTurn
  split
  · rename_i hlt
    simp only [getElem?_eq_getElem hlt, some_bind]
    split
    · rename_i hb
      rw [UInt8.lt_iff_toNat_lt] at hb
      have hstep := asciiRange_succ (getElem?_eq_getElem hlt) hb
      exact ⟨hrange.trans hstep, Nat.sub_lt_sub_left (by lia) (by lia)⟩
    · rename_i hb
      rw [UInt8.lt_iff_toNat_lt] at hb
      refine ⟨hrange, fun b hget => ?_⟩
      obtain rfl := Option.some.inj ((getElem?_eq_getElem hlt).symm.trans hget)
      exact not_lt.1 hb
  · rename_i hge
    refine ⟨hrange, fun b hget => ?_⟩
    rw [getElem?_eq_none (by lia)] at hget
    cases hget

/-! ## The whole function -/

/-- What the result says about the input: `Ok` that it is well-formed; an error, where the longest
well-formed prefix ends, and what stands there. -/
def ValidationSpec (v : List UInt8) : Except Utf8Error Unit → Prop
  | .ok () => WellFormed v
  | .error e => ¬ WellFormed v ∧
      IsGreatest {n | n ≤ v.length ∧ WellFormed (v.take n)} e.valid_up_to ∧
      ErrorAt (v.drop e.valid_up_to) e.error_len

/-- Where no encoding begins after a well-formed prefix, that prefix is the longest. -/
theorem isGreatest_of_stop {i : ℕ} (hi : i < v.length)
    (hw : WellFormed (v.take i)) (hstop : ∀ n, ¬ IsEnc ((v.drop i).take n)) :
    ¬ WellFormed v ∧ IsGreatest {n | n ≤ v.length ∧ WellFormed (v.take n)} i := by
  have key : ∀ n ≤ v.length, WellFormed (v.take n) → n ≤ i := by
    intro n hn h
    by_contra hlt
    rw [show n = i + (n - i) by lia, take_add] at h
    obtain ⟨m, r, hm, -, heq⟩ := (hw.of_append h).exists_isEnc (by
      rw [Ne, ← length_eq_zero_iff, length_take, length_drop]
      lia)
    refine hstop m.length ?_
    have hpre : m <+: v.drop i := (heq ▸ prefix_append m r).trans (List.take_prefix _ _)
    rwa [prefix_iff_eq_take.1 hpre] at hm
  refine ⟨fun h => ?_, ⟨hi.le, hw⟩, fun n hn => key n hn.1 hn.2⟩
  have := key v.length le_rfl (by rwa [take_length])
  lia

/-- The invariant of the outer loop: what is passed over is well-formed. -/
def ValidationInv (v : List UInt8) (index : ℕ) : Prop :=
  index ≤ v.length ∧ WellFormed (v.take index)

/-- Step lemma: a turn keeps the invariant, or ends with the right answer. -/
theorem validationTurn_spec (t : Target) (addr : ℕ) (v : List UInt8) (align blocks_end : ℕ)
    (halign : align = t.usizeMax ∨ align = t.alignOffset addr)
    (hend : ∀ i < blocks_end, i + 2 * t.usizeBytes ≤ v.length) (index : ℕ)
    (hinv : ValidationInv v index) :
    TurnSpec (ValidationInv v) (fun i => v.length - i) (ValidationSpec v) index
      (validationTurn t addr v align blocks_end index) := by
  obtain ⟨hle, hw⟩ := hinv
  unfold validationTurn
  split
  · rename_i hlt
    have hget := getElem?_eq_getElem hlt
    simp only [hget, some_bind, ge_iff_le, UInt8.le_iff_toNat_le]
    split
    · rename_i hge
      have hs := scalarTurn_spec (drop_eq_getElem_cons hlt) hge
      match hturn : scalarTurn v index v[index] with
      | none => rw [hturn] at hs; exact hs.elim
      | some (.again i) =>
        rw [hturn] at hs
        obtain ⟨n, rfl, hn, henc⟩ := hs
        have hpos := henc.length_pos
        rw [length_take, length_drop] at hpos
        refine ⟨⟨hn, ?_⟩, Nat.sub_lt_sub_left hlt (by lia)⟩
        rw [take_add]
        exact hw.append henc.wellFormed
      | some (.done (.ok ())) => rw [hturn] at hs; exact hs.elim
      | some (.done (.error e)) =>
        rw [hturn] at hs
        obtain ⟨he, hstop, herr⟩ := hs
        subst he
        obtain ⟨hno, hgreatest⟩ := isGreatest_of_stop hlt hw hstop
        exact ⟨hno, hgreatest, herr⟩
    · rename_i hascii
      have hascii : v[index].toNat < 128 := not_le.1 hascii
      split
      · rename_i hcond
        obtain ⟨hmax, hmod⟩ := hcond
        have ha : (addr + index) % t.usizeBytes = 0 := by
          refine t.aligned_of_mod_eq ?_
          rw [← halign.resolve_left hmax]
          exact (t.wrappingSub_mod_eq_zero_iff align index).1 hmod
        obtain ⟨i, hi, hri⟩ := blockLoop_spec hend ha hle
        obtain ⟨j, hj, hrj, hstop⟩ := asciiLoop_spec hri.2.1
        simp only [hi, hj, some_bind]
        have hr := hri.trans hrj
        have hne : j ≠ index := by
          rintro rfl
          have := hstop _ hget
          lia
        have := hr.1
        exact ⟨⟨hr.2.1, hr.wellFormed_take hw⟩, Nat.sub_lt_sub_left hlt (by lia)⟩
      · have hr := asciiRange_succ hget hascii
        exact ⟨⟨hr.2.1, hr.wellFormed_take hw⟩, Nat.sub_lt_sub_left hlt (by lia)⟩
  · rename_i hge
    show WellFormed v
    rwa [take_of_length_le (by lia)] at hw

/-- **UTF-8 validation is exact**: for every slice, every address and word size, at compile time
and at run time, the function returns, and its result says exactly what the input is. -/
theorem run_utf8_validation_spec (t : Target) (constEval : Bool) (addr : ℕ) (v : List UInt8) :
    ∃ r, run_utf8_validation t constEval addr v = some r ∧ ValidationSpec v r ∧
      (r = .ok () ↔ WellFormed v) ∧
      ∀ e, r = .error e → (e.error_len = none ↔ IsProperEncPrefix (v.drop e.valid_up_to)) := by
  obtain ⟨r, hr, hspec⟩ := runLoop_spec _ _ (fun i => v.length - i) _
    (validationTurn_spec t addr v (if constEval then t.usizeMax else t.alignOffset addr)
      (if v.length ≥ 2 * t.usizeBytes then v.length - 2 * t.usizeBytes + 1 else 0)
      (by cases constEval <;> simp) (by intro i hi; split at hi <;> omega)) (v.length + 1) 0
    ⟨Nat.zero_le _, wellFormed_nil⟩ (by omega)
  refine ⟨r, hr, hspec, ?_, ?_⟩
  · match r, hspec with
    | .ok (), h => exact ⟨fun _ => h, fun _ => rfl⟩
    | .error e, h => exact ⟨(fun he => nomatch he), fun hw => (h.1 hw).elim⟩
  rintro e rfl
  obtain ⟨-, -, herr⟩ := hspec
  refine ⟨fun h => ?_, fun h => ?_⟩
  · rwa [h] at herr
  · match hlen : e.error_len with
    | none => rfl
    | some k =>
      rw [hlen] at herr
      obtain ⟨c, hc, -⟩ := h
      exact (herr.1 ⟨c, hc⟩).elim

end RustStd.Validations
