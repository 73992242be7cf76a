import RustStd.Foundations.Loop
import RustStd.Foundations.Slice
import RustStd.Foundations.WordBytes

/-!
# Searching a slice for a byte

`memchr` and `memrchr` of `core/src/slice/memchr.rs`, with `contains_zero_byte`, `align_to` of
`core/src/slice/mod.rs` and `rposition` of `core/src/slice/iter/macros.rs` as they use them. A
slice is read with `text[i]?`, `slice_from` and `slice_to`, and its words with `Target.readUsize`;
a difference that is negative ends with `none`. So a result states that no read left the slice or
was misaligned.
-/

namespace RustStd.Memchr

open List Nat Target

/-! ## The code -/

section Code

variable (t : Target) (x : UInt8) (addr : ℕ) (text : List UInt8)

def LO_USIZE : ℕ := t.repeatU8 0x01

def HI_USIZE : ℕ := t.repeatU8 0x80

def contains_zero_byte (x : ℕ) : Bool :=
  t.wrappingSub x (LO_USIZE t) &&& (t.usizeMax - x) &&& HI_USIZE t != 0

def memchr_naive_turn (i : ℕ) : Option (Turn ℕ (Option ℕ)) :=
  if i < text.length then do
    if (← text[i]?) = x then some (.done (some i)) else some (.again (i + 1))
  else some (.done none)

def memchr_naive : Option (Option ℕ) := runLoop (memchr_naive_turn x text) (text.length + 1) 0

/-- A turn of the loop over the body, two words at a time. -/
def memchr_turn (offset : ℕ) : Option (Turn ℕ ℕ) := do
  if offset ≤ (← checkedSub text.length (2 * t.usizeBytes)) then do
    let u ← t.readUsize addr text offset
    let v ← t.readUsize addr text (offset + t.usizeBytes)
    let zu := contains_zero_byte t (u ^^^ t.repeatU8 x)
    let zv := contains_zero_byte t (v ^^^ t.repeatU8 x)
    if zu || zv then some (.done offset) else some (.again (offset + t.usizeBytes * 2))
  else some (.done offset)

/-- What follows the search up to the alignment boundary. -/
def memchr_body (offset : ℕ) : Option (Option ℕ) := do
  let offset ← runLoop (memchr_turn t x addr text) (text.length + 1) offset
  return (← memchr_naive x (← slice_from text offset)).map (offset + ·)

def memchr_aligned (constEval : Bool) : Option (Option ℕ) :=
  if constEval then memchr_naive x text
  else do
    let offset := t.alignOffset addr
    if offset > 0 then do
      let offset := min offset text.length
      match ← memchr_naive x (← slice_to text offset) with
      | some index => some (some index)
      | none => memchr_body t x addr text offset
    else memchr_body t x addr text offset

/-- `memchr` for the slice `text` at the address `addr`, at compile time or at run time. -/
def memchr (constEval : Bool) : Option (Option ℕ) :=
  if text.length < 2 * t.usizeBytes then memchr_naive x text
  else memchr_aligned t x addr text constEval

/-- `text.align_to` for a type of `size` bytes that is aligned as words are. -/
def align_to (size : ℕ) : List UInt8 × List UInt8 × List UInt8 :=
  let offset := t.alignOffset addr
  if offset > text.length then (text, [], [])
  else
    let rest := text.drop offset
    let us_len := rest.length / size
    let ts_len := rest.length % size
    (text.take offset, rest.take (us_len * size), rest.drop (rest.length - ts_len))

/-- `iter().rposition(|elt| *elt == x)`, before the index `i`. -/
def rposition : ℕ → Option (Option ℕ)
  | 0 => some none
  | i + 1 => do if (← text[i]?) = x then some (some i) else rposition i

/-- A turn of the loop over the body, two words at a time. -/
def memrchr_turn (min_aligned_offset offset : ℕ) : Option (Turn ℕ ℕ) :=
  if offset > min_aligned_offset then do
    let u ← t.readUsize addr text (← checkedSub offset (2 * t.usizeBytes))
    let v ← t.readUsize addr text (← checkedSub offset t.usizeBytes)
    let zu := contains_zero_byte t (u ^^^ t.repeatU8 x)
    let zv := contains_zero_byte t (v ^^^ t.repeatU8 x)
    if zu || zv then some (.done offset)
    else some (.again (← checkedSub offset (2 * t.usizeBytes)))
  else some (.done offset)

/-- `memrchr` for the slice `text` at the address `addr`. -/
def memrchr : Option (Option ℕ) := do
  let (head, _, tail) := align_to t addr text (2 * t.usizeBytes)
  let min_aligned_offset := head.length
  let offset ← checkedSub text.length tail.length
  let slice ← slice_from text offset
  match ← rposition x slice slice.length with
  | some index => some (some (offset + index))
  | none => do
    let offset ← runLoop (memrchr_turn t x addr text min_aligned_offset) (text.length + 1) offset
    let slice ← slice_to text offset
    rposition x slice slice.length

end Code

/-! ## The least and the greatest index -/

variable {t : Target} {x : UInt8} {addr : ℕ} {text : List UInt8} {k : ℕ} {r : Option ℕ}

/-- The least index that holds `x`, if there is one. -/
def Least (x : UInt8) (text : List UInt8) : Option ℕ → Prop
  | none => x ∉ text
  | some i => IsLeast {i | text[i]? = some x} i

/-- The greatest index that holds `x`, if there is one. -/
def Greatest (x : UInt8) (text : List UInt8) : Option ℕ → Prop
  | none => x ∉ text
  | some i => IsGreatest {i | text[i]? = some x} i

theorem not_mem_iff : x ∉ text ↔ ∀ i : ℕ, text[i]? ≠ some x := by
  rw [mem_iff_getElem?, not_exists]

theorem not_mem_take_succ {i : ℕ} {b : UInt8} (h : x ∉ text.take i) (hget : text[i]? = some b)
    (hne : b ≠ x) : x ∉ text.take (i + 1) := by
  rw [take_add_one, hget, mem_append, not_or]
  exact ⟨h, fun hmem => hne (mem_singleton.1 hmem).symm⟩

theorem not_mem_take_add {i j : ℕ} (h : x ∉ text.take i) (h' : x ∉ (text.drop i).take j) :
    x ∉ text.take (i + j) := by
  rw [take_add, mem_append, not_or]
  exact ⟨h, h'⟩

theorem not_mem_drop_sub {i j : ℕ} (h : x ∉ text.drop i) (h' : x ∉ (text.drop (i - j)).take j)
    (hle : j ≤ i) : x ∉ text.drop (i - j) := by
  rw [← take_append_drop j (text.drop (i - j)), drop_drop, Nat.sub_add_cancel hle,
    mem_append, not_or]
  exact ⟨h', h⟩

/-- Nothing is found in a head that has no `x`. -/
theorem Least.skip (h : x ∉ text.take k) (hr : Least x (text.drop k) r) :
    Least x text (r.map (k + ·)) := by
  cases r with
  | none =>
    rw [Option.map_none, Least, ← take_append_drop k text, mem_append, not_or]
    exact ⟨h, hr⟩
  | some i =>
    obtain ⟨hget, hleast⟩ := hr
    rw [Set.mem_ofPred_eq, getElem?_drop] at hget
    refine ⟨hget, fun j hj => ?_⟩
    rcases lt_or_ge j k with hlt | hge
    · rw [not_mem_iff] at h
      exact absurd ((getElem?_take_of_lt hlt).trans hj) (h j)
    · obtain ⟨j, rfl⟩ := Nat.exists_eq_add_of_le hge
      exact Nat.add_le_add_left (hleast ((getElem?_drop ..).trans hj)) k

/-- What is found in a head is the first. -/
theorem Least.of_take {i : ℕ} (h : Least x (text.take k) (some i)) : Least x text (some i) := by
  obtain ⟨hget, hleast⟩ := h
  have hlt : i < k := by
    by_contra hge
    rw [Set.mem_ofPred_eq, getElem?_take, if_neg hge] at hget
    cases hget
  refine ⟨(getElem?_take_of_lt hlt).symm.trans hget, fun j hj => ?_⟩
  by_contra hlt'
  exact hlt' (hleast ((getElem?_take_of_lt (by omega)).trans hj))

/-- What is found in a tail is the last. -/
theorem Greatest.of_drop {i : ℕ} (h : Greatest x (text.drop k) (some i)) :
    Greatest x text (some (k + i)) := by
  obtain ⟨hget, hgreatest⟩ := h
  rw [Set.mem_ofPred_eq, getElem?_drop] at hget
  refine ⟨hget, fun j hj => ?_⟩
  rcases lt_or_ge j k with hlt | hge
  · exact hlt.le.trans (le_add_right k i)
  · obtain ⟨j, rfl⟩ := Nat.exists_eq_add_of_le hge
    exact Nat.add_le_add_left (hgreatest ((getElem?_drop ..).trans hj)) k

/-- Nothing is found in a tail that has no `x`. -/
theorem Greatest.skip (h : x ∉ text.drop k) (hr : Greatest x (text.take k) r) :
    Greatest x text r := by
  cases r with
  | none =>
    rw [Greatest, ← take_append_drop k text, mem_append, not_or]
    exact ⟨hr, h⟩
  | some i =>
    obtain ⟨hget, hgreatest⟩ := hr
    have hlt : i < k := by
      by_contra hge
      rw [Set.mem_ofPred_eq, getElem?_take, if_neg hge] at hget
      cases hget
    refine ⟨(getElem?_take_of_lt hlt).symm.trans hget, fun j hj => ?_⟩
    rcases lt_or_ge j k with hjk | hjk
    · exact hgreatest ((getElem?_take_of_lt hjk).trans hj)
    · obtain ⟨j, rfl⟩ := Nat.exists_eq_add_of_le hjk
      rw [not_mem_iff] at h
      exact absurd ((getElem?_drop ..).trans hj) (h j)

/-! ## Words -/

/-- **`contains_zero_byte` is exact.** -/
theorem contains_zero_byte_iff {w : ℕ} (h : w < t.usizeCard) :
    contains_zero_byte t w = true ↔ ∃ i < t.usizeBytes, w / 2 ^ (8 * i) % 2 ^ 8 = 0 := by
  have hone := splat_lt (b := 1) (by decide) t.usizeBytes
  rw [← borrow_bits_ne_zero_iff h, contains_zero_byte, bne_iff_ne, LO_USIZE, HI_USIZE,
    repeatU8_eq, repeatU8_eq, wrappingSub, usizeMax, borrow_bits,
    usizeCard_eq]
  rw [show (1 : UInt8).toNat = 1 from rfl, show (128 : UInt8).toNat = 128 from rfl,
    mod_eq_of_lt hone]

/-- An aligned word inside the slice is read, and the test says whether `x` is one of its bytes. -/
theorem read_word (x : UInt8) (text : List UInt8) {off : ℕ} (ha : (addr + off) % t.usizeBytes = 0)
    (hlen : off + t.usizeBytes ≤ text.length) :
    ∃ u, t.readUsize addr text off = some u ∧ (contains_zero_byte t (u ^^^ t.repeatU8 x) = false →
        x ∉ (text.drop off).take t.usizeBytes) := by
  have hbytes : ((text.drop off).take t.usizeBytes).length = t.usizeBytes := by
    rw [length_take, length_drop]
    omega
  refine ⟨_, if_pos ⟨ha, hlen⟩, fun h hmem => ?_⟩
  rw [(contains_zero_byte_iff (usizeOfBytes_xor_lt hbytes x)).2
    ((zero_byte_xor_iff hbytes x).2 hmem)] at h
  cases h

/-- Two words, one after the other. -/
theorem read_words (x : UInt8) (text : List UInt8) {off : ℕ} (ha : (addr + off) % t.usizeBytes = 0)
    (hlen : off + 2 * t.usizeBytes ≤ text.length) :
    ∃ u v, t.readUsize addr text off = some u ∧
      t.readUsize addr text (off + t.usizeBytes) = some v ∧
      ((contains_zero_byte t (u ^^^ t.repeatU8 x) || contains_zero_byte t (v ^^^ t.repeatU8 x)) =
        false → x ∉ (text.drop off).take (2 * t.usizeBytes)) := by
  obtain ⟨u, hu, hu'⟩ := read_word x text ha (by omega)
  have ha' : (addr + (off + t.usizeBytes)) % t.usizeBytes = 0 := by
    rw [← add_assoc, add_mod_right, ha]
  obtain ⟨v, hv, hv'⟩ := read_word x text ha' (by omega)
  refine ⟨u, v, hu, hv, fun h => ?_⟩
  obtain ⟨hzu, hzv⟩ := Bool.or_eq_false_iff.1 h
  rw [two_mul]
  refine not_mem_take_add (hu' hzu) ?_
  rw [drop_drop]
  exact hv' hzv

/-! ## The searches -/

theorem memchr_naive_spec (x : UInt8) (text : List UInt8) :
    ∃ r, memchr_naive x text = some r ∧ Least x text r := by
  refine runLoop_spec _ (fun i => i ≤ text.length ∧ x ∉ text.take i) (fun i => text.length - i) _
    ?_ _ _ ⟨zero_le _, not_mem_nil⟩ (by omega)
  rintro i ⟨hle, hnone⟩
  unfold memchr_naive_turn
  split
  · rename_i hlt
    have hget := getElem?_eq_getElem hlt
    simp only [hget, some_bind]
    split
    · rename_i hx
      refine ⟨hget.trans (congrArg some hx), fun j hj => ?_⟩
      by_contra hji
      rw [not_mem_iff] at hnone
      exact hnone j ((getElem?_take_of_lt (by omega)).trans hj)
    · rename_i hx
      exact ⟨⟨hlt, not_mem_take_succ hnone hget hx⟩, Nat.sub_lt_sub_left hlt (lt_succ_self i)⟩
  · rename_i hge
    rwa [take_of_length_le (by omega)] at hnone

theorem memchr_body_spec {offset : ℕ} (hlen : 2 * t.usizeBytes ≤ text.length)
    (ha : (addr + offset) % t.usizeBytes = 0) (hle : offset ≤ text.length)
    (hnone : x ∉ text.take offset) : ∃ r, memchr_body t x addr text offset = some r ∧
      Least x text r := by
  have hpos := t.usizeBytes_pos
  obtain ⟨stop, hrun, hstop, hnone'⟩ : ∃ stop,
      runLoop (memchr_turn t x addr text) (text.length + 1) offset = some stop ∧
        stop ≤ text.length ∧ x ∉ text.take stop := by
    refine runLoop_spec _ (fun i => (addr + i) % t.usizeBytes = 0 ∧ i ≤ text.length ∧
      x ∉ text.take i) (fun i => text.length - i) _ ?_ _ _ ⟨ha, hle, hnone⟩ (by omega)
    rintro i ⟨ha, hle, hnone⟩
    rw [memchr_turn, checkedSub_eq hlen]
    simp only [some_bind]
    split
    · rename_i hi
      obtain ⟨u, v, hu, hv, hnext⟩ := read_words x text ha (by omega)
      simp only [hu, hv, some_bind]
      split
      · exact ⟨hle, hnone⟩
      · rename_i hz
        rw [mul_comm t.usizeBytes 2]
        refine ⟨⟨?_, by omega, not_mem_take_add hnone (hnext (Bool.eq_false_iff.2 hz))⟩,
          Nat.sub_lt_sub_left (by omega) (by omega)⟩
        rw [← add_assoc, add_mul_mod_self_right, ha]
    · exact ⟨hle, hnone⟩
  obtain ⟨r, hr, hleast⟩ := memchr_naive_spec x (text.drop stop)
  refine ⟨r.map (stop + ·), ?_, Least.skip hnone' hleast⟩
  rw [memchr_body, hrun, some_bind, slice_from_eq hstop]
  simp only [some_bind, hr]
  rfl

/-- **`memchr`** finds the least index. -/
theorem memchr_spec (t : Target) (x : UInt8) (addr : ℕ) (text : List UInt8) (constEval : Bool) :
    ∃ r, memchr t x addr text constEval = some r ∧ Least x text r := by
  unfold memchr
  split
  · exact memchr_naive_spec x text
  rename_i hlen
  have hlen := not_lt.1 hlen
  unfold memchr_aligned
  split
  · exact memchr_naive_spec x text
  have hlt : t.alignOffset addr < t.usizeBytes := mod_lt _ t.usizeBytes_pos
  have ha := t.add_alignOffset_mod addr
  dsimp only
  split
  · rw [min_eq_left (by omega), slice_to_eq (by omega)]
    obtain ⟨r, hr, hleast⟩ := memchr_naive_spec x (text.take (t.alignOffset addr))
    simp only [some_bind, hr]
    cases r with
    | some index => exact ⟨some index, rfl, hleast.of_take⟩
    | none => exact memchr_body_spec hlen ha (by omega) hleast
  · rename_i hzero
    refine memchr_body_spec hlen ha (by omega) ?_
    rw [Nat.eq_zero_of_not_pos hzero]
    exact not_mem_nil

theorem rposition_spec (x : UInt8) (text : List UInt8) :
    ∃ r, rposition x text text.length = some r ∧ Greatest x text r := by
  suffices h : ∀ i ≤ text.length, x ∉ text.drop i →
      ∃ r, rposition x text i = some r ∧ Greatest x text r from
    h _ le_rfl (by rw [drop_length]; exact not_mem_nil)
  intro i
  induction i with
  | zero =>
    intro _ hnone
    exact ⟨none, rfl, hnone⟩
  | succ i ih =>
    intro hle hnone
    have hget := getElem?_eq_getElem (show i < text.length from hle)
    rw [rposition, hget]
    simp only [some_bind]
    split
    · rename_i hx
      refine ⟨some i, rfl, hget.trans (congrArg some hx), fun j hj => ?_⟩
      by_contra hij
      obtain ⟨d, rfl⟩ := Nat.exists_eq_add_of_le (show i + 1 ≤ j by omega)
      rw [not_mem_iff] at hnone
      exact hnone d ((getElem?_drop ..).trans hj)
    · rename_i hx
      refine ih (le_of_succ_le hle) ?_
      rw [drop_eq_getElem_cons hle, mem_cons, not_or]
      exact ⟨fun h => hx h.symm, hnone⟩

/-- The three parts make up the slice, and the middle one is a number of aligned words. -/
theorem align_to_spec (t : Target) (addr : ℕ) (text : List UInt8) (size : ℕ) :
    ∃ head mid tail, align_to t addr text size = (head, mid, tail) ∧ head ++ (mid ++ tail) = text ∧
      size ∣ mid.length ∧ (mid ≠ [] → (addr + head.length) % t.usizeBytes = 0) := by
  unfold align_to
  dsimp only
  split
  · exact ⟨text, [], [], rfl, append_nil text, dvd_zero _, fun h => absurd rfl h⟩
  rename_i hle
  have hle := not_lt.1 hle
  have hmod := div_add_mod' (text.drop (t.alignOffset addr)).length size
  refine ⟨_, _, _, rfl, ?_, ?_, fun _ => ?_⟩
  · rw [show (text.drop (t.alignOffset addr)).length - (text.drop (t.alignOffset addr)).length %
      size
      = (text.drop (t.alignOffset addr)).length / size * size by omega, take_append_drop,
      take_append_drop]
  · rw [length_take_of_le (by omega)]
    exact dvd_mul_left _ _
  · rw [length_take_of_le hle, add_alignOffset_mod]

/-- **`memrchr`** finds the greatest index. -/
theorem memrchr_spec (t : Target) (x : UInt8) (addr : ℕ) (text : List UInt8) :
    ∃ r, memrchr t x addr text = some r ∧ Greatest x text r := by
  have hpos := t.usizeBytes_pos
  obtain ⟨head, mid, tail, halign, rfl, hdvd, ha⟩ := align_to_spec t addr text (2 * t.usizeBytes)
  have hlen : (head ++ (mid ++ tail)).length = head.length + mid.length + tail.length := by
    rw [length_append, length_append, add_assoc]
  have htail : (head ++ (mid ++ tail)).drop (head.length + mid.length) = tail := by
    rw [← append_assoc, ← length_append, drop_left]
  rw [memrchr, halign]
  dsimp only
  rw [checkedSub_eq (by omega), show (head ++ (mid ++ tail)).length - tail.length =
    head.length + mid.length by omega]
  simp only [some_bind]
  rw [slice_from_eq (by omega), htail]
  simp only [some_bind]
  obtain ⟨r, hr, hgreatest⟩ := rposition_spec x tail
  rw [hr]
  cases r with
  | some index =>
    refine ⟨_, rfl, Greatest.of_drop ?_⟩
    rwa [htail]
  | none =>
    obtain ⟨stop, hrun, hstop, hnone⟩ : ∃ stop, runLoop (memrchr_turn t x addr
        (head ++ (mid ++ tail)) head.length) ((head ++ (mid ++ tail)).length + 1)
          (head.length + mid.length) = some stop ∧
        stop ≤ (head ++ (mid ++ tail)).length ∧ x ∉ (head ++ (mid ++ tail)).drop stop := by
      refine runLoop_spec _ (fun i => head.length ≤ i ∧ i ≤ head.length + mid.length ∧
        2 * t.usizeBytes ∣ i - head.length ∧ x ∉ (head ++ (mid ++ tail)).drop i) (fun i => i) _
        ?_ _ _ ⟨le_add_right _ _, le_rfl, ?_, ?_⟩ (by omega)
      · rintro i ⟨hge, hle, ⟨k, hk⟩, hnone⟩
        rw [memrchr_turn]
        split
        · rename_i hgt
          obtain ⟨k, rfl⟩ := exists_eq_succ_of_ne_zero (show k ≠ 0 by rintro rfl; omega)
          rw [mul_succ] at hk
          -- the middle part is not empty, as there are words before `i`
          have hmid : mid ≠ [] := by
            rintro rfl
            rw [length_nil] at hle
            omega
          have hi : i - 2 * t.usizeBytes = head.length + 2 * t.usizeBytes * k := by omega
          have ha' : (addr + (i - 2 * t.usizeBytes)) % t.usizeBytes = 0 := by
            rw [hi, ← add_assoc, mul_assoc, mul_left_comm, add_mul_mod_self_left, ha hmid]
          obtain ⟨u, v, hu, hv, hnext⟩ := read_words x (head ++ (mid ++ tail)) ha' (by omega)
          rw [show i - 2 * t.usizeBytes + t.usizeBytes = i - t.usizeBytes by omega] at hv
          rw [checkedSub_eq (by omega), checkedSub_eq (by omega)]
          simp only [some_bind, hu, hv]
          split
          · exact ⟨by omega, hnone⟩
          · rename_i hz
            refine ⟨⟨by omega, by omega, ⟨k, by omega⟩, not_mem_drop_sub hnone
              (hnext (Bool.eq_false_iff.2 hz)) (by omega)⟩, ?_⟩
            dsimp only
            omega
        · exact ⟨by omega, hnone⟩
      · rwa [Nat.add_sub_cancel_left]
      · rwa [htail]
    obtain ⟨r, hr, hgreatest⟩ := rposition_spec x ((head ++ (mid ++ tail)).take stop)
    refine ⟨r, ?_, Greatest.skip hnone hgreatest⟩
    simp only [hrun, some_bind]
    rw [slice_to_eq hstop]
    exact hr

/-- **Both searches and the test they rest on are exact**, wherever the slice begins and however
wide a word is. -/
theorem searches_exact (t : Target) (x : UInt8) (text : List UInt8) :
    (∀ addr constEval, ∃ r, memchr t x addr text constEval = some r ∧ Least x text r) ∧
      (∀ addr, ∃ r, memrchr t x addr text = some r ∧ Greatest x text r) ∧
      ∀ w : Fin t.usizeCard, contains_zero_byte t w = true ↔
        ∃ i < t.usizeBytes, w.val / 2 ^ (8 * i) % 2 ^ 8 = 0 :=
  ⟨fun addr constEval => memchr_spec t x addr text constEval, fun addr => memrchr_spec t x addr
  text, fun w => contains_zero_byte_iff w.isLt⟩

end RustStd.Memchr
