import RustStd.Str.Validations

/-!
# Is a slice ASCII?

The three forms of `is_ascii` of `core/src/slice/ascii.rs`: byte by byte from the end, by words of
which the first and the last need not be aligned, and by chunks of 32 bytes. A read that leaves the
slice or is misaligned and a failed `debug_assert!` end with `none`.
-/

namespace RustStd.IsAscii

open List Validations

/-! ## The code -/

section Code

variable (t : Target) (logAlign addr : ℕ) (s : List UInt8)

def is_ascii_simple_turn (bytes : List UInt8) : Option (Turn (List UInt8) Bool) :=
  match bytes.getLast? with
  | some last => if last < 128 then some (.again bytes.dropLast) else some (.done bytes.isEmpty)
  | none => some (.done bytes.isEmpty)

def is_ascii_simple : Option Bool := runLoop is_ascii_simple_turn (s.length + 1) s

/-- `read_unaligned` of the word at `off`. -/
def read_unaligned (off : ℕ) : Option ℕ :=
  if off + t.usizeBytes ≤ s.length then some (t.usizeOfBytes ((s.drop off).take t.usizeBytes))
  else none

/-- A turn of the loop over `word_ptr` and `byte_pos`, which may return `false`. -/
def is_ascii_turn (st : ℕ × ℕ) : Option (Turn (ℕ × ℕ) (Option ℕ)) := do
  let (word_ptr, byte_pos) := st
  if byte_pos < s.length - t.usizeBytes then
    guard (byte_pos + t.usizeBytes ≤ s.length)
    guard (word_ptr = addr + byte_pos)
    let word ← t.readUsize addr s (word_ptr - addr)
    if contains_nonascii t word then return .done none
    return .again (word_ptr + t.usizeBytes, byte_pos + t.usizeBytes)
  else return .done (some byte_pos)

/-- `is_ascii` by words; `usize` is aligned to `2 ^ logAlign` bytes. -/
def is_ascii : Option Bool := do
  let len := s.length
  let align_offset := t.alignOffset addr
  if len < t.usizeBytes ∨ len < align_offset ∨ t.usizeBytes < 2 ^ logAlign then is_ascii_simple s
  else
    let offset_to_aligned := if align_offset = 0 then t.usizeBytes else align_offset
    let first_word ← read_unaligned t s 0
    if contains_nonascii t first_word then return false
    guard (offset_to_aligned ≤ len)
    guard ((addr + offset_to_aligned) % 2 ^ logAlign = 0)
    match ← runLoop (is_ascii_turn t addr s) (len + 1) (addr + offset_to_aligned, offset_to_aligned)
    with
    | none => return false
    | some byte_pos =>
      guard (byte_pos ≤ len ∧ len - byte_pos ≤ t.usizeBytes)
      let last_word ← read_unaligned t s (len - t.usizeBytes)
      return !contains_nonascii t last_word

def CHUNK_SIZE : ℕ := 32

/-- A turn of the loop inside of a chunk, over a `u8`. -/
def count_turn (count i : ℕ) : Option ℕ := do
  let count := count + (decide ((← s[i]?) < 128)).toNat
  guard (count < 2 ^ 8)
  return count

def chunk_turn (i : ℕ) : Option (Turn ℕ (Option ℕ)) := do
  if i + CHUNK_SIZE ≤ s.length then
    let count ← (range' i CHUNK_SIZE).foldlM (count_turn s) 0
    if count ≠ CHUNK_SIZE then return .done none
    return .again (i + CHUNK_SIZE)
  else return .done (some i)

/-- A turn of the loop over the remaining bytes. -/
def rest_turn (is_ascii : Bool) (i : ℕ) : Option Bool := do
  return is_ascii && decide ((← s[i]?) < 128)

/-- `is_ascii` by chunks. -/
def is_ascii_chunked : Option Bool := do
  match ← runLoop (chunk_turn s) (s.length + 1) 0 with
  | none => return false
  | some i => (range' i (s.length - i)).foldlM (rest_turn s) true

end Code

/-! ## ASCII ranges -/

/-- The bytes from `i` up to `j` are ASCII. -/
def Ascii (s : List UInt8) (i j : ℕ) : Prop := ∀ k, i ≤ k → k < j → ∀ b, s[k]? = some b → b < 128

/-- Whether a slice is ASCII. -/
def all_ascii (s : List UInt8) : Bool := s.all fun b => b < 128

variable {t : Target} {addr : ℕ} {s : List UInt8} {i j : ℕ}

theorem all_ascii_iff : all_ascii s = true ↔ Ascii s 0 s.length := by
  simp only [all_ascii, all_eq_true, decide_eq_true_eq]
  constructor
  · exact fun h k _ _ b hb => h b (mem_of_getElem? hb)
  · intro h b hb
    obtain ⟨k, hk, rfl⟩ := getElem_of_mem hb
    exact h k (Nat.zero_le k) hk _ (getElem?_eq_getElem hk)

theorem all_ascii_eq {r : Bool} (h : r = true ↔ Ascii s 0 s.length) : r = all_ascii s :=
  Bool.eq_iff_iff.2 (h.trans all_ascii_iff.symm)

theorem Ascii.mono {i' j' : ℕ} (h : Ascii s i j) (hi : i ≤ i') (hj : j' ≤ j) : Ascii s i' j' :=
  fun k hk hk' => h k (hi.trans hk) (hk'.trans_le hj)

theorem Ascii.trans {k : ℕ} (h : Ascii s i j) (h' : Ascii s j k) : Ascii s i k := by
  intro m hm hmk
  rcases lt_or_ge m j with hlt | hge
  · exact h m hm hlt
  · exact h' m hge hmk

theorem ascii_succ_iff (hij : i ≤ j) {b : UInt8} (hb : s[j]? = some b) :
    Ascii s i (j + 1) ↔ Ascii s i j ∧ b < 128 := by
  refine ⟨fun h => ⟨h.mono le_rfl j.le_succ, h j hij j.lt_succ_self b hb⟩, fun h => ?_⟩
  intro k hk hkj b' hb'
  rcases Nat.lt_succ_iff_lt_or_eq.1 hkj with hlt | rfl
  · exact h.1 k hk hlt b' hb'
  · exact Option.some.inj (hb.symm.trans hb') ▸ h.2

/-- The test of a word. -/
theorem contains_nonascii_eq_false_iff (t : Target) {off : ℕ} (h : off + t.usizeBytes ≤ s.length) :
    contains_nonascii t (t.usizeOfBytes ((s.drop off).take t.usizeBytes)) = false ↔
      Ascii s off (off + t.usizeBytes) := by
  have hlen : ((s.drop off).take t.usizeBytes).length = t.usizeBytes := by
    rw [length_take, length_drop]
    omega
  rw [← Bool.not_eq_true, contains_nonascii_iff t hlen]
  constructor
  · intro hno k hk hkj b hb
    refine Nat.lt_of_not_le fun hge => hno ⟨b, mem_iff_getElem?.2 ⟨k - off, ?_⟩, hge⟩
    rw [getElem?_take_of_lt (by omega), getElem?_drop, Nat.add_sub_cancel' hk, hb]
  · rintro hall ⟨b, hb, hge⟩
    obtain ⟨k, hk⟩ := mem_iff_getElem?.1 hb
    have hlt : k < t.usizeBytes := hlen ▸ (List.getElem?_eq_some_iff.1 hk).1
    rw [getElem?_take_of_lt hlt, getElem?_drop] at hk
    exact Nat.not_lt.2 hge (hall _ (Nat.le_add_right _ _) (by omega) b hk)

/-! ## The three forms -/

theorem is_ascii_simple_spec (s : List UInt8) : is_ascii_simple s = some (all_ascii s) := by
  have hloop : ∃ r, runLoop is_ascii_simple_turn (s.length + 1) s = some r ∧ r = all_ascii s := by
    refine runLoop_spec _ (fun bytes => all_ascii bytes = all_ascii s) List.length _
      (fun bytes hbytes => ?_) _ _ rfl (Nat.lt_succ_self _)
    unfold is_ascii_simple_turn
    rcases eq_nil_or_concat bytes with rfl | ⟨init, b, rfl⟩
    · exact hbytes
    rw [concat_eq_append] at hbytes ⊢
    rw [getLast?_concat, dropLast_concat]
    dsimp only
    by_cases hb : b < 128
    · simp only [if_pos hb, TurnSpec, length_append, length_singleton, Nat.lt_succ_self, and_true]
      simpa [all_ascii, hb] using hbytes
    · rw [if_neg hb, TurnSpec, ← hbytes]
      simp [all_ascii, hb]
  obtain ⟨_, hrun, rfl⟩ := hloop
  exact hrun

theorem read_unaligned_eq {off : ℕ} (h : off + t.usizeBytes ≤ s.length) :
    read_unaligned t s off = some (t.usizeOfBytes ((s.drop off).take t.usizeBytes)) := if_pos h

theorem is_ascii_turn_spec (hi : (addr + i) % t.usizeBytes = 0) (hle : i ≤ s.length)
    (hlen : t.usizeBytes ≤ s.length) (h0 : Ascii s 0 i) :
    ∃ r, runLoop (is_ascii_turn t addr s) (s.length + 1) (addr + i, i) = some r ∧
      match r with
      | none => ¬ Ascii s 0 s.length
      | some pos => pos ≤ s.length ∧ s.length - pos ≤ t.usizeBytes ∧ Ascii s 0 pos := by
  have hpos := t.usizeBytes_pos
  refine runLoop_spec _ (fun st => st.1 = addr + st.2 ∧ (addr + st.2) % t.usizeBytes = 0 ∧
    st.2 ≤ s.length ∧ Ascii s 0 st.2) (fun st => s.length - st.2) _ ?_ _ _ ⟨rfl, hi, hle, h0⟩
    (by simp only; omega)
  rintro ⟨ptr, pos⟩ ⟨hptr, hali, hle, hascii⟩
  dsimp only at hptr hali hle hascii
  subst hptr
  unfold is_ascii_turn
  dsimp only
  by_cases hlt : pos < s.length - t.usizeBytes
  · have hin : pos + t.usizeBytes ≤ s.length := by omega
    have hread : t.readUsize addr s pos = some (t.usizeOfBytes ((s.drop pos).take t.usizeBytes)) :=
      if_pos ⟨hali, hin⟩
    rw [if_pos hlt, Nat.add_sub_cancel_left, hread]
    simp only [guard, hin, if_true, Option.pure_def, Option.bind_eq_bind, Option.bind_some]
    have hword := contains_nonascii_eq_false_iff t hin
    cases hc : contains_nonascii t (t.usizeOfBytes ((s.drop pos).take t.usizeBytes)) with
    | true =>
      exact fun hall => Bool.false_ne_true
        ((hword.2 (hall.mono (Nat.zero_le _) hin)).symm.trans hc)
    | false =>
      refine ⟨⟨by rw [Nat.add_assoc], by rw [← Nat.add_assoc, Nat.add_mod_right, hali], hin,
        hascii.trans (hword.1 hc)⟩, ?_⟩
      dsimp only
      omega
  · rw [if_neg hlt]
    exact ⟨hle, by omega, hascii⟩

theorem is_ascii_spec (t : Target) (logAlign addr : ℕ) (s : List UInt8) :
    is_ascii t logAlign addr s = some (all_ascii s) := by
  unfold is_ascii
  dsimp only
  split
  · exact is_ascii_simple_spec s
  next hlong =>
  have hpos := t.usizeBytes_pos
  obtain ⟨hlen, hoff, halign⟩ : t.usizeBytes ≤ s.length ∧ t.alignOffset addr ≤ s.length ∧
      2 ^ logAlign ≤ t.usizeBytes := by omega
  have hlt : t.alignOffset addr < t.usizeBytes := Nat.mod_lt _ hpos
  have hali := t.add_alignOffset_mod addr
  obtain ⟨off, hoff, hle, hlew, hmod⟩ : ∃ off, (if t.alignOffset addr = 0 then t.usizeBytes
      else t.alignOffset addr) = off ∧ off ≤ s.length ∧ off ≤ t.usizeBytes ∧
      (addr + off) % t.usizeBytes = 0 := by
    split
    · next h0 =>
      rw [h0, Nat.add_zero] at hali
      exact ⟨_, rfl, hlen, le_rfl, by rw [Nat.add_mod_right, hali]⟩
    · exact ⟨_, rfl, hoff, hlt.le, hali⟩
  have hguard : (addr + off) % 2 ^ logAlign = 0 := Nat.mod_eq_zero_of_dvd <|
    (pow_dvd_pow 2 ((Nat.pow_le_pow_iff_right Nat.one_lt_two).1 halign)).trans
      (Nat.dvd_of_mod_eq_zero hmod)
  have hfirst := contains_nonascii_eq_false_iff t (show 0 + t.usizeBytes ≤ s.length by omega)
  rw [read_unaligned_eq (by omega), hoff]
  simp only [Option.bind_eq_bind, Option.bind_some]
  cases hc : contains_nonascii t (t.usizeOfBytes ((s.drop 0).take t.usizeBytes)) with
  | true =>
    refine congrArg some (all_ascii_eq (iff_of_false nofun fun hall => ?_))
    exact Bool.false_ne_true ((hfirst.2 (hall.mono le_rfl (by omega))).symm.trans hc)
  | false =>
    have hascii : Ascii s 0 off := (hfirst.1 hc).mono le_rfl (by omega)
    obtain ⟨r, hrun, hr⟩ := is_ascii_turn_spec hmod hle hlen hascii
    simp only [Bool.false_eq_true, if_false, guard, hle, hguard, if_true, Option.pure_def,
      Option.bind_some, hrun]
    cases r with
    | none => exact congrArg some (all_ascii_eq (iff_of_false nofun hr))
    | some pos =>
      obtain ⟨hpos', hrest, hascii⟩ := hr
      have hlast := contains_nonascii_eq_false_iff t (Nat.sub_add_cancel hlen).le
      rw [Nat.sub_add_cancel hlen] at hlast
      dsimp only
      rw [if_pos ⟨hpos', hrest⟩, read_unaligned_eq (by omega)]
      refine congrArg some (all_ascii_eq ?_)
      rw [Bool.not_eq_true', hlast]
      exact ⟨fun h => hascii.trans (h.mono (by omega) le_rfl),
        fun h => h.mono (Nat.zero_le _) le_rfl⟩

/-- How many of the bytes from `i` up to `j` are ASCII, as far as the chunk needs it. -/
def Counted (s : List UInt8) (i j count : ℕ) : Prop :=
  i ≤ j ∧ count ≤ j - i ∧ (count = j - i ↔ Ascii s i j)

theorem Counted.turn {count : ℕ} (h : Counted s i j count) (hj : j < s.length)
    (hlt : j < i + CHUNK_SIZE) :
    ∃ count', count_turn s count j = some count' ∧ Counted s i (j + 1) count' := by
  obtain ⟨hij, hle, hc⟩ := h
  have hC : CHUNK_SIZE = 32 := rfl
  have hget : s[j]? = some s[j] := getElem?_eq_getElem hj
  have hstep := ascii_succ_iff hij hget
  rw [← hc] at hstep
  simp only [count_turn, hget, Option.bind_eq_bind, Option.bind_some, guard]
  by_cases hb : s[j] < 128
  · rw [decide_eq_true hb, Bool.toNat_true, if_pos (by omega)]
    refine ⟨_, rfl, by omega, by omega, ?_⟩
    rw [hstep, and_iff_left hb]
    omega
  · rw [decide_eq_false hb, Bool.toNat_false, if_pos (by omega)]
    exact ⟨_, rfl, by omega, by omega, iff_of_false (by omega) fun h => hb (hstep.1 h).2⟩

theorem chunk_turn_spec (s : List UInt8) :
    ∃ r, runLoop (chunk_turn s) (s.length + 1) 0 = some r ∧
      match r with
      | none => ¬ Ascii s 0 s.length
      | some i => i ≤ s.length ∧ Ascii s 0 i := by
  refine runLoop_spec _ (fun i => i ≤ s.length ∧ Ascii s 0 i) (fun i => s.length - i) _
    (fun i hi => ?_) _ _ ⟨Nat.zero_le _, fun _ _ => nofun⟩ (Nat.lt_succ_self _)
  unfold chunk_turn
  by_cases hlt : i + CHUNK_SIZE ≤ s.length
  · have hinit : Counted s i i 0 :=
      ⟨le_rfl, Nat.zero_le _, iff_of_true (Nat.sub_self i).symm fun _ _ _ => by omega⟩
    obtain ⟨count, hcount, -, -, hiff⟩ := foldlM_range'_spec
      (fun j c hj (h : Counted s i j c) => h.turn (hj.trans_le hlt) hj) hinit
    rw [Nat.add_sub_cancel_left] at hiff
    rw [if_pos hlt, hcount]
    simp only [Option.bind_eq_bind, Option.bind_some]
    by_cases hall : count = CHUNK_SIZE
    · rw [if_neg (not_not.2 hall)]
      exact ⟨⟨hlt, hi.2.trans (hiff.1 hall)⟩,
        Nat.sub_lt_sub_left (hlt.trans_lt' (Nat.lt_add_of_pos_right (by decide)))
          (Nat.lt_add_of_pos_right (by decide))⟩
    · rw [if_pos hall]
      exact fun h => hall (hiff.2 (h.mono (Nat.zero_le _) hlt))
  · rw [if_neg hlt]
    exact hi

theorem is_ascii_chunked_spec (s : List UInt8) : is_ascii_chunked s = some (all_ascii s) := by
  obtain ⟨r, hrun, hr⟩ := chunk_turn_spec s
  rw [is_ascii_chunked, hrun]
  cases r with
  | none => exact congrArg some (all_ascii_eq (iff_of_false nofun hr))
  | some i =>
    obtain ⟨hi, h0⟩ := hr
    have hlen := Nat.add_sub_cancel' hi
    have hturn (j : ℕ) (r : Bool) (hj : j < i + (s.length - i))
        (hr : i ≤ j ∧ (r = true ↔ Ascii s i j)) :
        ∃ r', rest_turn s r j = some r' ∧ i ≤ j + 1 ∧ (r' = true ↔ Ascii s i (j + 1)) := by
      have hget : s[j]? = some s[j] := getElem?_eq_getElem (by omega)
      refine ⟨r && decide (s[j] < 128), by rw [rest_turn, hget]; rfl, by omega, ?_⟩
      rw [ascii_succ_iff hr.1 hget, Bool.and_eq_true, decide_eq_true_eq, hr.2]
    obtain ⟨r, hrun, -, hr⟩ := foldlM_range'_spec hturn
      ⟨le_rfl, iff_of_true rfl fun _ _ _ => by omega⟩
    rw [hlen] at hr
    refine hrun.trans (congrArg some (all_ascii_eq ?_))
    exact hr.trans ⟨h0.trans, fun h => h.mono (Nat.zero_le _) le_rfl⟩

/-- **Whether a slice is ASCII**, by each of the three forms. -/
theorem is_ascii_forms (t : Target) (logAlign addr : ℕ) (s : List UInt8) :
    is_ascii t logAlign addr s = some (s.all fun b => b < 128) ∧
      is_ascii_chunked s = some (s.all fun b => b < 128) ∧
      is_ascii_simple s = some (s.all fun b => b < 128) :=
  ⟨is_ascii_spec t logAlign addr s, is_ascii_chunked_spec s, is_ascii_simple_spec s⟩

end RustStd.IsAscii
