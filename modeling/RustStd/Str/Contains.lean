import RustStd.Slice.Memchr
import RustStd.Str.Searches

/-!
# Whether a string contains a string

`is_contained_in` of `core/src/str/pattern.rs`, with `simd_contains` and `small_slice_eq` for the
targets that have vectors of sixteen bytes. A read that leaves its slice ends with `none`. The
`debug_assert!`s of the two, on the length of the needle and on equal lengths, are left out: a
needle of one byte is handled before the first, and the second is given slices of one length.

`is_contained_in_spec`: on every path the answer is whether the bytes of the needle stand somewhere
in the haystack. The vector path looks at each place in some chunk: the chunks follow one another,
and the last one ends where the haystack does.
-/

namespace RustStd.Contains

open TwoWaySearcher List Nat Option
open Target (leBytes)

/-! ## The code -/

/-- The comparison of slices of less than four bytes. -/
def naive_eq : List UInt8 → List UInt8 → Bool
  | b1 :: x, b2 :: y => if b1 ≠ b2 then false else naive_eq x y
  | _, _ => true

/-- `(p as *const u32).read_unaligned()`, on a little-endian target -/
def read_u32 (x : List UInt8) (p : ℕ) : Option ℕ :=
  if p + 4 ≤ x.length then some (leBytes ((x.drop p).take 4)) else none

/-- A turn of the loop, with `px` and `py` as offsets, and what follows the loop. -/
def small_slice_eq_turn (x y : List UInt8) (pxend pyend : ℕ) : ℕ × ℕ → Option (Turn (ℕ × ℕ) Bool)
  | (px, py) =>
    if px < pxend then do
      let vx ← read_u32 x px
      let vy ← read_u32 y py
      if vx ≠ vy then some (.done false) else some (.again (px + 4, py + 4))
    else do
      let vx ← read_u32 x pxend
      let vy ← read_u32 y pyend
      some (.done (vx = vy))

def small_slice_eq (x y : List UInt8) : Option Bool :=
  if x.length < 4 then some (naive_eq x y)
  else do
    let pxend ← checkedSub x.length 4
    let pyend ← checkedSub y.length 4
    runLoop (small_slice_eq_turn x y pxend pyend) (x.length + 1) (0, 0)

/-- `Block::LEN` -/
def LEN : ℕ := 16

def UNROLL : ℕ := 4

/-- A block read from the haystack at `i`. -/
def read_block (l : List UInt8) (i : ℕ) : Option (List UInt8) :=
  if i + LEN ≤ l.length then some ((l.drop i).take LEN) else none

/-- Lane `i` of a mask is bit `i`. -/
def to_bitmask (mask : List Bool) : ℕ := mask.foldr (fun b m => b.toNat + 2 * m) 0

/-- `u16::trailing_zeros` -/
def trailing_zeros (mask : ℕ) : ℕ := ((range 16).find? fun i => mask.testBit i).getD 16

/-- `(lo..hi).rfind(|&idx| needle[idx] != first_probe)` -/
def rfind (needle : List UInt8) (first_probe : UInt8) (lo : ℕ) : ℕ → Option (Option ℕ)
  | 0 => some none
  | idx + 1 =>
    if idx < lo then some none
    else do
      if (← needle[idx]?) ≠ first_probe then some (some idx) else rfind needle first_probe lo idx

/-- The offset of the second probe, if there is one worth it. -/
def second_probe (needle : List UInt8) (first_probe : UInt8) : Option (Option ℕ) :=
  if needle.length = 2 then some (some 1)
  else rfind needle first_probe (needle.length - 4) needle.length

/-- `haystack.windows(needle.len()).any(|c| c == needle)` -/
def naive_contains (needle haystack : List UInt8) : Bool :=
  (range (haystack.length + 1 - needle.length)).any
    fun i => (haystack.drop i).take needle.length = needle

section Simd

variable (haystack trimmed_needle : List UInt8) (first_probe second_probe : UInt8)
  (last_byte_offset second_probe_offset : ℕ)

def check_mask_turn (idx mask : ℕ) : Option (Turn ℕ Bool) :=
  if mask ≠ 0 then do
    let trailing := trailing_zeros mask
    let offset := idx + trailing + 1
    let sub ← slice_to (← slice_from haystack offset) trimmed_needle.length
    if ← small_slice_eq sub trimmed_needle then some (.done true)
    else some (.again (mask &&& (2 ^ 16 - 1 - 1 <<< trailing)))
  else some (.done false)

def check_mask (idx mask : ℕ) (skip : Bool) : Option Bool :=
  if skip then some false
  else runLoop (check_mask_turn haystack trimmed_needle idx) (mask + 1) mask

def test_chunk (idx : ℕ) : Option ℕ := do
  let a ← read_block haystack idx
  let b ← read_block haystack (idx + second_probe_offset)
  let eq_first := a.map (· == first_probe)
  let eq_last := b.map (· == second_probe)
  some (to_bitmask (zipWith (· && ·) eq_first eq_last))

/-- `if mask != 0 { result |= check_mask(idx, mask, result); }` -/
def check (result : Bool) (idx mask : ℕ) : Option Bool :=
  if mask ≠ 0 then do some (result || (← check_mask haystack trimmed_needle idx mask result))
  else some result

/-- A turn of the loop over several chunks, with `i` and `result`. -/
def unrolled_turn : ℕ × Bool → Option (Turn (ℕ × Bool) (ℕ × Bool))
  | (i, result) =>
    if i + last_byte_offset + UNROLL * LEN < haystack.length ∧ !result then do
      let masks ← (range UNROLL).mapM fun j =>
        test_chunk haystack first_probe second_probe second_probe_offset (i + j * LEN)
      let result ← (masks.zipIdx).foldlM
        (fun result (mask, j) => check haystack trimmed_needle result (i + j * LEN) mask) result
      some (.again (i + UNROLL * LEN, result))
    else some (.done (i, result))

/-- A turn of the loop over one chunk. -/
def chunk_turn : ℕ × Bool → Option (Turn (ℕ × Bool) (ℕ × Bool))
  | (i, result) =>
    if i + last_byte_offset + LEN < haystack.length ∧ !result then do
      let mask ← test_chunk haystack first_probe second_probe second_probe_offset i
      let result ← check haystack trimmed_needle result i mask
      some (.again (i + LEN, result))
    else some (.done (i, result))

/-- The loops, and the chunk that ends with the haystack. -/
def search_chunks : Option Bool := do
  let s ← runLoop (unrolled_turn haystack trimmed_needle first_probe second_probe last_byte_offset
    second_probe_offset) (haystack.length + 1) (0, false)
  let (_, result) ← runLoop (chunk_turn haystack trimmed_needle first_probe second_probe
    last_byte_offset second_probe_offset) (haystack.length + 1) s
  let i ← checkedSub (← checkedSub haystack.length last_byte_offset) LEN
  let mask ← test_chunk haystack first_probe second_probe second_probe_offset i
  check haystack trimmed_needle result i mask

end Simd

/-- The answer, or `none` for a needle that is left to another search. -/
def simd_contains (needle haystack : List UInt8) : Option (Option Bool) := do
  let first_probe ← needle[0]?
  let last_byte_offset ← checkedSub needle.length 1
  match ← second_probe needle first_probe with
  | none => some none
  | some second_probe_offset =>
    if haystack.length < LEN + last_byte_offset then some (some (naive_contains needle haystack))
    else do
      let second_probe ← needle[second_probe_offset]?
      let trimmed_needle ← slice_from needle 1
      let result ← search_chunks haystack trimmed_needle first_probe second_probe last_byte_offset
        second_probe_offset
      some (some result)

/-- The search with vectors, where the target has them. -/
def try_simd (simd : Bool) (needle haystack : List UInt8) : Option (Option Bool) :=
  if simd ∧ needle.length ≤ 32 then simd_contains needle haystack else some none

/-- `is_contained_in` of a string, on a target with or without the vectors. -/
def is_contained_in (t : Target) (simd : Bool) (addr : ℕ) (constEval : Bool)
    (self haystack : Str t) : Option Bool :=
  if self.bytes.length = 0 then some true
  else if self.bytes.length < haystack.bytes.length then
    if self.bytes.length = 1 then do
      let r ← Memchr.memchr t (← self.bytes[0]?) addr haystack.bytes constEval
      some r.isSome
    else do
      match ← try_simd simd self.bytes haystack.bytes with
      | some result => some result
      | none =>
        let s ← StrSearcher.new haystack self
        let (_, m) ← StrSearcher.next_match s
        some m.isSome
  else some (self.bytes = haystack.bytes)

/-! ## Comparing -/

variable {x y : List UInt8}

theorem naive_eq_spec (h : x.length = y.length) : naive_eq x y = decide (x = y) := by
  induction x generalizing y with
  | nil =>
    obtain rfl := eq_nil_of_length_eq_zero h.symm
    rfl
  | cons b1 x ih =>
    cases y with
    | nil => cases h
    | cons b2 y =>
      rw [naive_eq, ih (succ.inj h)]
      split
      · rename_i hne
        exact (decide_eq_false fun heq => hne (cons.inj heq).1).symm
      · rename_i heq
        rw [not_not.1 heq, decide_eq_decide, cons.injEq, eq_self, true_and]

theorem leBytes_inj (h : x.length = y.length) (heq : leBytes x = leBytes y) : x = y := by
  refine ext_getElem h fun i hx hy => ?_
  rw [← UInt8.toNat_inj, ← leBytes_byte hx, ← leBytes_byte hy, heq]

/-- Two loads are equal when the four bytes are. -/
theorem read_u32_spec (h : x.length = y.length) {p : ℕ} (hp : p + 4 ≤ x.length) :
    ∃ vx vy, read_u32 x p = some vx ∧ read_u32 y p = some vy ∧
      (vx = vy ↔ (x.drop p).take 4 = (y.drop p).take 4) := by
  refine ⟨_, _, if_pos hp, if_pos (h ▸ hp), fun heq => leBytes_inj ?_ heq, fun heq => by rw [heq]⟩
  rw [length_take, length_take, length_drop, length_drop, h]

/-- Equal heads and equal parts after them. -/
theorem take_add_eq {i j : ℕ} (h : x.take i = y.take i)
    (h' : (x.drop i).take j = (y.drop i).take j) : x.take (i + j) = y.take (i + j) := by
  rw [take_add, take_add, h, h']

/-- **`small_slice_eq`** is the equality of slices of one length. -/
theorem small_slice_eq_spec (h : x.length = y.length) :
    small_slice_eq x y = some (decide (x = y)) := by
  unfold small_slice_eq
  split
  · rw [naive_eq_spec h]
  rename_i hlen
  have hlen := not_lt.1 hlen
  rw [← h, checkedSub_eq hlen]
  simp only [some_bind]
  obtain ⟨r, hrun, rfl⟩ : ∃ r, runLoop (small_slice_eq_turn x y (x.length - 4) (x.length - 4))
      (x.length + 1) (0, 0) = some r ∧ r = decide (x = y) := by
    refine runLoop_spec _ (fun s => s.1 = s.2 ∧ s.1 < x.length ∧ x.take s.1 = y.take s.1)
      (fun s => x.length - s.1) _ ?_ _ _ ⟨rfl, by omega, rfl⟩ (by omega)
    rintro ⟨p, q⟩ ⟨hq, hle, heq⟩
    obtain rfl : p = q := hq
    rw [small_slice_eq_turn]
    split
    · rename_i hlt
      obtain ⟨vx, vy, hvx, hvy, hv⟩ := read_u32_spec h (p := p) (by omega)
      rw [hvx, hvy]
      simp only [some_bind]
      split
      · rename_i hne
        exact (decide_eq_false fun hxy => hne (hv.2 (by rw [hxy]))).symm
      · rename_i hv'
        have hsame := hv.1 (not_not.1 hv')
        refine ⟨⟨rfl, ?_, take_add_eq heq hsame⟩, ?_⟩ <;> dsimp only <;> omega
    · rename_i hge
      obtain ⟨vx, vy, hvx, hvy, hv⟩ := read_u32_spec h (p := x.length - 4) (by omega)
      rw [hvx, hvy]
      refine decide_eq_decide.2 ⟨fun hvv => ?_, fun hxy => hv.2 (by rw [hxy])⟩
      -- the last load may overlap the one before it
      have hsame := hv.1 hvv
      have hhead : x.take (x.length - 4) = y.take (x.length - 4) := by
        have := congrArg (take (x.length - 4)) heq
        rwa [take_take, take_take, min_eq_left (by omega)] at this
      have hall := take_add_eq hhead hsame
      rwa [Nat.sub_add_cancel hlen, take_length, h, take_length] at hall
  rw [hrun]

/-! ## Masks -/

theorem to_bitmask_lt (mask : List Bool) : to_bitmask mask < 2 ^ mask.length := by
  induction mask with
  | nil => exact one_pos
  | cons b mask ih =>
    have := Bool.toNat_le b
    rw [length_cons, pow_succ', to_bitmask, foldr_cons]
    rw [to_bitmask] at ih
    omega

theorem testBit_to_bitmask (mask : List Bool) (i : ℕ) :
    (to_bitmask mask).testBit i = mask.getD i false := by
  induction mask generalizing i with
  | nil => exact zero_testBit i
  | cons b mask ih =>
    have hcons : to_bitmask (b :: mask) = 2 ^ 1 * to_bitmask mask + b.toNat := by
      rw [pow_one, add_comm]
      rfl
    rw [hcons, testBit_two_pow_mul_add _ (lt_succ_of_le (Bool.toNat_le b))]
    cases i with
    | zero =>
      rw [if_pos one_pos, getD_cons_zero]
      cases b <;> rfl
    | succ i => rw [if_neg (by omega), Nat.add_sub_cancel, ih, getD_cons_succ]

/-- The lowest bit of a mask that is not zero. -/
theorem trailing_zeros_spec {mask : ℕ} (h0 : mask ≠ 0) (hlt : mask < 2 ^ 16) :
    trailing_zeros mask < 16 ∧ mask.testBit (trailing_zeros mask) = true := by
  obtain ⟨i, hi⟩ := exists_testBit_of_ne_zero h0
  have hi16 : i < 16 := by
    by_contra hge
    rw [testBit_lt_two_pow (hlt.trans_le (Nat.pow_le_pow_right (by decide) (not_lt.1 hge)))]
      at hi
    cases hi
  rw [trailing_zeros]
  cases hfind : (range 16).find? fun i => mask.testBit i with
  | none => exact absurd hi (find?_eq_none.1 hfind i (mem_range.2 hi16))
  | some j => exact ⟨mem_range.1 (mem_of_find?_eq_some hfind), find?_some hfind⟩

/-- Taking a bit out of a mask. -/
theorem testBit_clear {mask k : ℕ} (hk : k < 16) (hlt : mask < 2 ^ 16) (i : ℕ) :
    (mask &&& (2 ^ 16 - 1 - 1 <<< k)).testBit i = (mask.testBit i && decide (i ≠ k)) := by
  have hpow : 2 ^ k < 2 ^ 16 := Nat.pow_lt_pow_right (by decide) hk
  have hmask : mask = mask % 2 ^ 16 := (mod_eq_of_lt hlt).symm
  have hbit : mask.testBit i = (decide (i < 16) && mask.testBit i) := by
    conv_lhs => rw [hmask, testBit_mod_two_pow]
  rw [testBit_and, shiftLeft_eq, Nat.one_mul, Nat.sub_sub, Nat.add_comm,
    testBit_two_pow_sub_succ hpow, testBit_two_pow, hbit]
  by_cases h : k = i
  · rw [decide_eq_true h, decide_eq_false (not_not.2 h.symm), Bool.not_true, Bool.and_false,
      Bool.and_false]
  · rw [decide_eq_false h, decide_eq_true (Ne.symm h)]
    cases decide (i < 16) <;> cases mask.testBit i <;> rfl

/-! ## Candidates -/

variable {needle haystack : List UInt8} {off idx i mask : ℕ} {first second : UInt8}

/-- The needle stands at `i`. -/
def Stands (needle haystack : List UInt8) (i : ℕ) : Prop :=
  (haystack.drop i).take needle.length = needle

instance (needle haystack : List UInt8) (i : ℕ) : Decidable (Stands needle haystack i) :=
  inferInstanceAs (Decidable (_ = _))

/-- Two probes of the needle at `i`. -/
def Probes (haystack : List UInt8) (first second : UInt8) (off i : ℕ) : Prop :=
  haystack[i]? = some first ∧ haystack[i + off]? = some second

theorem Stands.getElem? (h : Stands needle haystack i) {k : ℕ} (hk : k < needle.length) :
    haystack[i + k]? = needle[k]? := by
  rw [← getElem?_drop, ← getElem?_take_of_lt hk, h]

theorem Stands.probes (h : Stands needle haystack i) (hfirst : needle[0]? = some first)
    (hsecond : needle[off]? = some second) : Probes haystack first second off i := by
  obtain ⟨hpos, -⟩ := List.getElem?_eq_some_iff.1 hfirst
  obtain ⟨hoff, -⟩ := List.getElem?_eq_some_iff.1 hsecond
  exact ⟨(h.getElem? hpos).trans hfirst, (h.getElem? hoff).trans hsecond⟩

/-- The first byte, and the rest after it. -/
theorem stands_iff_tail (hfirst : needle[0]? = some first) (hi : haystack[i]? = some first) :
    Stands needle haystack i ↔ Stands (needle.drop 1) haystack (i + 1) := by
  cases needle with
  | nil => cases hfirst
  | cons a needle =>
    obtain rfl := some.inj hfirst
    obtain ⟨hlt, hget⟩ := List.getElem?_eq_some_iff.1 hi
    rw [Stands, Stands, drop_eq_getElem_cons hlt, hget, length_cons, take_succ_cons,
      cons.injEq, eq_self, true_and, drop_succ_cons, drop_zero]

theorem read_block_spec (haystack : List UInt8) (i : ℕ) (h : i + LEN ≤ haystack.length) :
    ∃ b, read_block haystack i = some b ∧ b.length = LEN ∧ ∀ j < LEN, b[j]? = haystack[i + j]? := by
  refine ⟨_, if_pos h, ?_, fun j hj => ?_⟩
  · rw [length_take, length_drop]
    omega
  · rw [getElem?_take_of_lt hj, getElem?_drop]

/-- The mask of a chunk has a bit for each place where both probes are right. -/
theorem test_chunk_spec (first second : UInt8) (hlen : idx + off + LEN ≤ haystack.length) :
    ∃ mask, test_chunk haystack first second off idx = some mask ∧ mask < 2 ^ 16 ∧
      ∀ j < LEN, mask.testBit j = true ↔ Probes haystack first second off (idx + j) := by
  obtain ⟨a, ha, halen, haget⟩ := read_block_spec haystack idx (by omega)
  obtain ⟨b, hb, hblen, hbget⟩ := read_block_spec haystack (idx + off) (by omega)
  refine ⟨_, by rw [test_chunk, ha, hb]; rfl, ?_, fun j hj => ?_⟩
  · refine (to_bitmask_lt _).trans_eq ?_
    rw [length_zipWith, length_map, length_map, halen, hblen]
    rfl
  have hja : j < a.length := by omega
  have hjb : j < b.length := by omega
  have hga := haget j hj
  have hgb := hbget j hj
  rw [getElem?_eq_getElem hja] at hga
  rw [getElem?_eq_getElem hjb] at hgb
  rw [testBit_to_bitmask, getD_eq_getElem?_getD, getElem?_zipWith, getElem?_map,
    getElem?_map, getElem?_eq_getElem hja, getElem?_eq_getElem hjb, Probes,
    show idx + j + off = idx + off + j by omega, ← hga, ← hgb]
  simp

/-- `check_mask` finds a needle among the candidates of a mask. -/
theorem check_mask_spec (hneedle : needle[0]? = some first) (hmask : mask < 2 ^ 16)
    (hlen : idx + LEN + (needle.length - 1) ≤ haystack.length)
    (hfirst : ∀ j < LEN, mask.testBit j = true → haystack[idx + j]? = some first) :
    ∃ b, check_mask haystack (needle.drop 1) idx mask false = some b ∧
      (b = true ↔ ∃ j < LEN, mask.testBit j = true ∧ Stands needle haystack (idx + j)) := by
  rw [check_mask, if_neg Bool.false_ne_true]
  refine runLoop_spec _ (fun m => m < 2 ^ 16 ∧
    (∀ j < LEN, m.testBit j = true → mask.testBit j = true) ∧
    ∀ j < LEN, mask.testBit j = true → Stands needle haystack (idx + j) → m.testBit j = true)
    (fun m => m) _ ?_ _ _ ⟨hmask, fun j _ h => h, fun j _ h _ => h⟩ (lt_succ_self _)
  rintro m ⟨hm, hsub, hleft⟩
  rw [check_mask_turn]
  split
  · rename_i hne
    obtain ⟨htz, hbit⟩ := trailing_zeros_spec hne hm
    generalize trailing_zeros m = k at htz hbit ⊢
    have hk : k < LEN := htz
    rw [LEN] at hk hlen
    have htail : (needle.drop 1).length = needle.length - 1 := length_drop
    have hrest : (haystack.drop (idx + k + 1)).length = haystack.length - (idx + k + 1) :=
      length_drop
    have hstands := stands_iff_tail hneedle (hfirst k hk (hsub k hk hbit))
    have hsublen : ((haystack.drop (idx + k + 1)).take (needle.drop 1).length).length =
        (needle.drop 1).length := length_take_of_le (by omega)
    simp only [bind_eq_bind]
    rw [slice_from_eq (show idx + k + 1 ≤ haystack.length by omega), bind_some,
      slice_to_eq (by omega), bind_some, small_slice_eq_spec hsublen, bind_some]
    by_cases heq : (haystack.drop (idx + k + 1)).take (needle.drop 1).length = needle.drop 1
    · rw [if_pos (decide_eq_true heq)]
      exact iff_of_true rfl ⟨k, hk, hsub k hk hbit, hstands.2 heq⟩
    rw [if_neg (by rwa [decide_eq_true_eq])]
    have hclear := testBit_clear htz hm
    refine ⟨⟨and_le_left.trans_lt hm, fun j hj h => ?_, fun j hj h hst => ?_⟩, ?_⟩
    · rw [hclear, Bool.and_eq_true] at h
      exact hsub j hj h.1
    · rw [hclear, hleft j hj h hst, Bool.true_and, decide_eq_true_eq]
      rintro rfl
      exact heq (hstands.1 hst)
    · dsimp only
      refine lt_of_le_of_ne and_le_left fun hsame => ?_
      have hcut := hclear k
      rw [hsame, hbit, Bool.true_and] at hcut
      exact of_decide_eq_true hcut.symm rfl
  · rename_i hzero
    refine iff_of_false Bool.false_ne_true ?_
    rintro ⟨j, hj, hbit, hst⟩
    have hbit' := hleft j hj hbit hst
    rw [not_not.1 hzero, zero_testBit] at hbit'
    cases hbit'

/-! ## The chunks -/

/-- What is known of the places before `i`. -/
structure Searched (needle haystack : List UInt8) (i : ℕ) (result : Bool) : Prop where
  found : result = true → ∃ a, Stands needle haystack a
  none : result = false → ∀ a < i, ¬ Stands needle haystack a

/-- The search at hand: a needle with its two probes. -/
structure Setup (needle haystack : List UInt8) (first second : UInt8) (off : ℕ) : Prop where
  first : needle[0]? = some first
  second : needle[off]? = some second

variable {result : Bool}

/-- A chunk, whose places come after those that were searched. -/
theorem check_spec (h : Setup needle haystack first second off)
    (hs : Searched needle haystack i result) (idx : ℕ) (hi : idx ≤ i)
    (hlen : idx + LEN + (needle.length - 1) ≤ haystack.length) :
    ∃ mask r, test_chunk haystack first second off idx = some mask ∧
      check haystack (needle.drop 1) result idx mask = some r ∧
      Searched needle haystack (idx + LEN) r := by
  obtain ⟨hoff, -⟩ := List.getElem?_eq_some_iff.1 h.second
  obtain ⟨mask, htest, hmask, hbits⟩ := test_chunk_spec first second
    (show idx + off + LEN ≤ haystack.length by omega)
  refine ⟨mask, ?_⟩
  cases result with
  | true =>
    refine ⟨true, htest, ?_, hs.found, nofun⟩
    rw [check, check_mask, if_pos rfl]
    split <;> rfl
  | false =>
    obtain ⟨b, hcheck, hb⟩ := check_mask_spec h.first hmask hlen
      fun j hj hbit => ((hbits j hj).1 hbit).1
    refine ⟨b, htest, ?_, fun hfound => ?_, fun hnone a ha hst => ?_⟩
    · rw [check]
      split
      · rw [hcheck]
        rfl
      · rename_i hzero
        rw [check_mask, if_neg Bool.false_ne_true, not_not.1 hzero] at hcheck
        exact hcheck
    · obtain ⟨j, -, -, hst⟩ := hb.1 hfound
      exact ⟨_, hst⟩
    · rcases lt_or_ge a idx with hlt | hge
      · exact hs.none rfl a (by omega) hst
      · obtain ⟨j, rfl⟩ := Nat.exists_eq_add_of_le hge
        have hj : j < LEN := by omega
        have hprobes := (hbits j hj).2 (hst.probes h.first h.second)
        rw [hb.2 ⟨j, hj, hprobes, hst⟩] at hnone
        cases hnone

theorem Searched.of_true (h : Searched needle haystack i true) (j : ℕ) :
    Searched needle haystack j true := ⟨h.found, nofun⟩

theorem Searched.zero : Searched needle haystack 0 false :=
  ⟨nofun, fun _ a ha => absurd ha (not_lt_zero a)⟩

/-- A needle fits where it stands. -/
theorem Stands.le (h : Stands needle haystack i) (hpos : 0 < needle.length) :
    i + needle.length ≤ haystack.length := by
  have hlen := congrArg length h
  rw [length_take, length_drop] at hlen
  omega

variable (h : Setup needle haystack first second off)
include h

theorem unrolled_turn_spec (hs : Searched needle haystack i result) :
    (unrolled_turn haystack (needle.drop 1) first second (needle.length - 1) off (i, result) =
        some (.done (i, result))) ∨
      ∃ r, i < haystack.length ∧ Searched needle haystack (i + UNROLL * LEN) r ∧
        unrolled_turn haystack (needle.drop 1) first second (needle.length - 1) off (i, result) =
          some (.again (i + UNROLL * LEN, r)) := by
  rw [unrolled_turn]
  split
  · rename_i hmore
    have hlt := hmore.1
    rw [UNROLL, LEN] at hlt
    obtain ⟨m0, r0, ht0, hc0, hs0⟩ := check_spec h hs (i + 0 * LEN) (by unfold LEN; omega)
      (by unfold LEN; omega)
    obtain ⟨m1, r1, ht1, hc1, hs1⟩ := check_spec h hs0 (i + 1 * LEN) (by unfold LEN; omega)
      (by unfold LEN; omega)
    obtain ⟨m2, r2, ht2, hc2, hs2⟩ := check_spec h hs1 (i + 2 * LEN) (by unfold LEN; omega)
      (by unfold LEN; omega)
    obtain ⟨m3, r3, ht3, hc3, hs3⟩ := check_spec h hs2 (i + 3 * LEN) (by unfold LEN; omega)
      (by unfold LEN; omega)
    refine .inr ⟨r3, by omega, ?_, ?_⟩
    · rwa [show i + 3 * LEN + LEN = i + UNROLL * LEN by rw [UNROLL]; omega] at hs3
    have hmasks : (range UNROLL).mapM (fun j =>
        test_chunk haystack first second off (i + j * LEN)) = some [m0, m1, m2, m3] := by
      rw [show range UNROLL = [0, 1, 2, 3] from rfl, mapM_cons, mapM_cons,
        mapM_cons, mapM_cons, mapM_nil, ht0, ht1, ht2, ht3]
      rfl
    have hchecks : [m0, m1, m2, m3].zipIdx.foldlM (fun result (mask, j) =>
        check haystack (needle.drop 1) result (i + j * LEN) mask) result = some r3 := by
      rw [show [m0, m1, m2, m3].zipIdx = [(m0, 0), (m1, 1), (m2, 2), (m3, 3)] from rfl]
      simp only [foldlM_cons, foldlM_nil, hc0, hc1, hc2, hc3, some_bind]
      rfl
    rw [hmasks, some_bind, hchecks]
    rfl
  · exact .inl rfl

theorem chunk_turn_spec (hs : Searched needle haystack i result) :
    ((result = true ∨ haystack.length ≤ i + LEN + (needle.length - 1)) ∧
        chunk_turn haystack (needle.drop 1) first second (needle.length - 1) off (i, result) =
          some (.done (i, result))) ∨
      ∃ r, i < haystack.length ∧ Searched needle haystack (i + LEN) r ∧
        chunk_turn haystack (needle.drop 1) first second (needle.length - 1) off (i, result) =
          some (.again (i + LEN, r)) := by
  rw [chunk_turn]
  split
  · rename_i hmore
    obtain ⟨m, r, ht, hc, hs'⟩ := check_spec h hs i le_rfl (by omega)
    refine .inr ⟨r, by omega, hs', ?_⟩
    rw [ht, some_bind, hc]
    rfl
  · rename_i hstop
    refine .inl ⟨?_, rfl⟩
    cases result with
    | true => exact .inl rfl
    | false =>
      refine .inr ?_
      by_contra hlt
      exact hstop ⟨by omega, rfl⟩

/-- **The chunks** cover every place where the needle fits. -/
theorem search_chunks_spec (hlen : LEN + (needle.length - 1) ≤ haystack.length) :
    ∃ b, search_chunks haystack (needle.drop 1) first second (needle.length - 1) off = some b ∧
      (b = true ↔ ∃ a, Stands needle haystack a) := by
  obtain ⟨hpos, -⟩ := List.getElem?_eq_some_iff.1 h.first
  obtain ⟨s, hrun, hs⟩ := runLoop_spec
    (unrolled_turn haystack (needle.drop 1) first second (needle.length - 1) off)
    (fun s => Searched needle haystack s.1 s.2) (fun s => haystack.length - s.1)
    (fun s => Searched needle haystack s.1 s.2)
    (by
      rintro ⟨i, result⟩ hs
      rcases unrolled_turn_spec h hs with hturn | ⟨r, hi, hs', hturn⟩
      · rw [hturn]
        exact hs
      · rw [hturn]
        exact ⟨hs', Nat.sub_lt_sub_left hi (Nat.lt_add_of_pos_right (by decide))⟩)
    (haystack.length + 1) (0, false) Searched.zero (by dsimp only; omega)
  obtain ⟨⟨i, result⟩, hrun', hs', hstop⟩ := runLoop_spec
    (chunk_turn haystack (needle.drop 1) first second (needle.length - 1) off)
    (fun s => Searched needle haystack s.1 s.2) (fun s => haystack.length - s.1)
    (fun s => Searched needle haystack s.1 s.2 ∧
      (s.2 = true ∨ haystack.length ≤ s.1 + LEN + (needle.length - 1)))
    (by
      rintro ⟨i, result⟩ hs
      rcases chunk_turn_spec h hs with ⟨hstop, hturn⟩ | ⟨r, hi, hs', hturn⟩
      · rw [hturn]
        exact ⟨hs, hstop⟩
      · rw [hturn]
        exact ⟨hs', Nat.sub_lt_sub_left hi (Nat.lt_add_of_pos_right (by decide))⟩)
    (haystack.length + 1) s hs (by omega)
  -- the last chunk is not after the places that were searched
  have hlast : Searched needle haystack (max i (haystack.length - (needle.length - 1) - LEN))
      result := by
    rcases hstop with rfl | hle
    · exact hs'.of_true _
    · rwa [max_eq_left (by dsimp only at hle; omega)]
  obtain ⟨mask, r, htest, hcheck, hr⟩ := check_spec h hlast
    (haystack.length - (needle.length - 1) - LEN) (le_max_right _ _) (by omega)
  refine ⟨r, ?_, hr.found, fun ⟨a, ha⟩ => ?_⟩
  · rw [search_chunks, hrun, some_bind, hrun']
    simp only [some_bind]
    rw [checkedSub_eq (by omega), some_bind, checkedSub_eq (by omega), some_bind,
      htest, some_bind, hcheck]
  · have hle := ha.le hpos
    cases r with
    | true => rfl
    | false => exact absurd ha (hr.none rfl a (by omega))

omit h

theorem rfind_spec (first : UInt8) (lo : ℕ) {hi : ℕ} (h : hi ≤ needle.length) :
    ∃ r, rfind needle first lo hi = some r ∧ ∀ off, r = some off → off < hi := by
  induction hi with
  | zero => exact ⟨none, rfl, nofun⟩
  | succ idx ih =>
    rw [rfind]
    split
    · exact ⟨none, rfl, nofun⟩
    · rw [getElem?_eq_getElem h]
      simp only [some_bind]
      split
      · exact ⟨some idx, rfl, fun off hoff => some.inj hoff ▸ lt_succ_self idx⟩
      · obtain ⟨r, hr, hlt⟩ := ih (le_of_succ_le h)
        exact ⟨r, hr, fun off hoff => lt_succ_of_lt (hlt off hoff)⟩

theorem second_probe_spec (h : 2 ≤ needle.length) (first : UInt8) :
    ∃ r, second_probe needle first = some r ∧ ∀ off, r = some off → off < needle.length := by
  unfold second_probe
  split
  · exact ⟨some 1, rfl, fun off hoff => some.inj hoff ▸ h⟩
  · exact rfind_spec first _ le_rfl

theorem naive_contains_spec (hpos : 0 < needle.length) :
    naive_contains needle haystack = true ↔ ∃ a, Stands needle haystack a := by
  rw [naive_contains, List.any_eq_true]
  constructor
  · rintro ⟨a, -, ha⟩
    exact ⟨a, of_decide_eq_true ha⟩
  · rintro ⟨a, ha⟩
    have hle := ha.le hpos
    exact ⟨a, List.mem_range.2 (by omega), decide_eq_true ha⟩

/-- **`simd_contains`** is right where it answers. -/
theorem simd_contains_spec (haystack : List UInt8) (h : 2 ≤ needle.length) :
    ∃ r, simd_contains needle haystack = some r ∧
      ∀ b, r = some b → (b = true ↔ ∃ a, Stands needle haystack a) := by
  have hfirst := getElem?_eq_getElem (show 0 < needle.length by omega)
  obtain ⟨r, hprobe, hoff⟩ := second_probe_spec h needle[0]
  rw [simd_contains, hfirst, some_bind, checkedSub_eq (by omega)]
  simp only [bind_some, bind_eq_bind, hprobe]
  cases r with
  | none => exact ⟨none, rfl, nofun⟩
  | some off =>
    have hsecond := getElem?_eq_getElem (hoff off rfl)
    dsimp only
    split
    · refine ⟨_, rfl, fun b hb => ?_⟩
      rw [← some.inj hb]
      exact naive_contains_spec (by omega)
    · rename_i hlen
      obtain ⟨b, hb, hiff⟩ := search_chunks_spec ⟨hfirst, hsecond⟩ (not_lt.1 hlen)
      rw [hsecond, bind_some, slice_from_eq (by omega), bind_some, hb]
      exact ⟨_, rfl, fun c hc => by rwa [← some.inj hc]⟩

theorem try_simd_spec (simd : Bool) (haystack : List UInt8) (h : 2 ≤ needle.length) :
    ∃ r, try_simd simd needle haystack = some r ∧
      ∀ b, r = some b → (b = true ↔ ∃ a, Stands needle haystack a) := by
  unfold try_simd
  split
  · exact simd_contains_spec haystack h
  · exact ⟨none, rfl, nofun⟩

/-! ## All paths -/

theorem exists_stands_iff : (∃ a, Stands needle haystack a) ↔ needle <:+: haystack := by
  constructor
  · rintro ⟨a, ha⟩
    refine ⟨haystack.take a, (haystack.drop a).drop needle.length, ?_⟩
    conv_rhs => rw [← take_append_drop a haystack,
      ← take_append_drop needle.length (haystack.drop a), ha]
    rw [append_assoc]
  · rintro ⟨l, r, rfl⟩
    refine ⟨l.length, ?_⟩
    rw [Stands, append_assoc, drop_left, take_left]

theorem occursAt_iff (hpos : 0 < needle.length) :
    OccursAt needle haystack i ↔ Stands needle haystack i := by
  constructor
  · rintro ⟨hle, hocc⟩
    have hlen : ((haystack.drop i).take needle.length).length = needle.length :=
      length_take_of_le (by rw [length_drop]; omega)
    refine ext_getElem? fun k => ?_
    rcases lt_or_ge k needle.length with hk | hk
    · rw [getElem?_take_of_lt hk, getElem?_drop, getElem?_word (by omega),
        getElem?_word hk, hocc k hk]
    · rw [getElem?_eq_none hk, getElem?_eq_none (hlen.trans_le hk)]
  · intro h
    have hle := h.le hpos
    refine ⟨hle, fun k hk => some.inj ?_⟩
    rw [← getElem?_word hk, ← getElem?_word (by omega), h.getElem? hk]

/-- The other search, from the front of the haystack. -/
theorem next_match_spec {t : Target} (haystack needle : Str t) (hne : needle.bytes ≠ []) :
    ∃ s s' m, StrSearcher.new haystack needle = some s ∧ StrSearcher.next_match s = some (s', m) ∧
      (m.isSome = true ↔ ∃ a, Stands needle.bytes haystack.bytes a) := by
  have hpos := length_pos_of_ne_nil hne
  obtain ⟨s, l, At, hnew, hl, hspec, hat⟩ := StrSearcher.exists_spec .forward haystack needle
  rw [StrSearcher.Matches, if_neg hne] at hl
  obtain ⟨⟨s', m⟩, hnext, hm⟩ := hspec.next_match hat
  refine ⟨s, s', m, hnew, hnext, ?_⟩
  cases m with
  | none =>
    obtain ⟨rfl, -⟩ := hm
    cases hl with
    | nil hnone =>
      refine iff_of_false Bool.false_ne_true ?_
      rintro ⟨a, ha⟩
      exact hnone a (zero_le a) ((occursAt_iff hpos).2 ha)
  | some m =>
    obtain ⟨l', rfl, -⟩ := hm
    cases hl with
    | cons hle hocc hnone htail => exact iff_of_true rfl ⟨_, (occursAt_iff hpos).1 hocc⟩

/-- **Containment** is decided right on every path, and `small_slice_eq` is the equality of the
slices of one length that it is for. -/
theorem is_contained_in_spec (t : Target) (simd : Bool) (addr : ℕ) (constEval : Bool)
    (needle haystack : Str t) :
    (∃ b, is_contained_in t simd addr constEval needle haystack = some b ∧
      (b = true ↔ needle.bytes <:+: haystack.bytes)) ∧
    ∀ x : List UInt8, ∀ y : { y : List UInt8 // x.length = y.length },
      small_slice_eq x y = some (decide (x = y)) := by
  refine ⟨?_, fun x y => small_slice_eq_spec y.2⟩
  unfold is_contained_in
  by_cases hempty : needle.bytes.length = 0
  · rw [if_pos hempty, eq_nil_of_length_eq_zero hempty]
    exact ⟨true, rfl, iff_of_true rfl nil_infix⟩
  rw [if_neg hempty]
  by_cases hlt : needle.bytes.length < haystack.bytes.length
  · rw [if_pos hlt]
    simp only [← exists_stands_iff]
    by_cases hone : needle.bytes.length = 1
    · rw [if_pos hone]
      obtain ⟨x, hx⟩ := length_eq_one_iff.1 hone
      obtain ⟨r, hr, hleast⟩ := Memchr.memchr_spec t x addr haystack.bytes constEval
      have hstands (a : ℕ) : Stands [x] haystack.bytes a ↔ haystack.bytes[a]? = some x := by
        rw [Stands, length_singleton, take_one, head?_drop, toList_eq_singleton_iff]
      simp only [hx, hstands, getElem?_cons_zero, some_bind, hr]
      refine ⟨_, rfl, ?_⟩
      cases r with
      | none =>
        exact iff_of_false Bool.false_ne_true fun ⟨a, ha⟩ => Memchr.not_mem_iff.1 hleast a ha
      | some a => exact iff_of_true rfl ⟨a, hleast.1⟩
    · rw [if_neg hone]
      have hnext := next_match_spec haystack needle (ne_nil_of_length_pos (by omega))
      obtain ⟨s, s', m, hnew, hmatch, hm⟩ := hnext
      obtain ⟨r, hr, hb⟩ := try_simd_spec simd haystack.bytes
        (show 2 ≤ needle.bytes.length by omega)
      rw [hr, some_bind]
      cases r with
      | some result => exact ⟨result, rfl, hb result rfl⟩
      | none =>
        simp only [hnew, hmatch, some_bind]
        exact ⟨_, rfl, hm⟩
  · rw [if_neg hlt]
    refine ⟨_, rfl, ?_⟩
    rw [decide_eq_true_iff]
    constructor
    · intro heq
      rw [heq]
    · intro hinfix
      exact hinfix.eq_of_length (le_antisymm hinfix.length_le (not_lt.1 hlt))

end RustStd.Contains
