import RustStd.Foundations.Lanes
import RustStd.Slice.Memchr
import RustStd.Str.Chars

/-!
# Counting the chars of a string

`count_chars` of `core/src/str/count.rs`: the bytes that are no continuation bytes are counted, the
aligned part of the bytes word by word, with a lane of a word for each place of a byte. `repeat_u16`
is from `core/src/num/mod.rs`. A sum on `usize` that wraps around, a read that leaves the slice or
is not aligned, ends with `none`.

`count_chars_spec`: no lane of the counts carries into the next one, so the count is right at every
length and alignment.
-/

namespace RustStd.StrIter

open Utf8 Validations List Nat
open Target (leBytes)

/-! ## The code -/

section Code

variable (t : Target)

/-- `usize::repeat_u16`, where shifts are by a number of bits up to the width of a word -/
def repeat_u16 (x : ℕ) : ℕ :=
  (fun r => (r <<< (16 % (8 * t.usizeBytes))) % t.usizeCard ||| x)^[(t.usizeBytes + 1) / 2] 0

def UNROLL_INNER : ℕ := 4

def CHUNK_SIZE : ℕ := 192

def contains_non_continuation_byte (w : ℕ) : ℕ :=
  let LSB := t.repeatU8 0x01
  ((t.usizeMax - w) >>> 7 ||| w >>> 6) &&& LSB

def sum_bytes_in_usize (values : ℕ) : Option ℕ := do
  let LSB_SHORTS := repeat_u16 t 0x0001
  let SKIP_BYTES := repeat_u16 t 0x00ff
  let pair_sum ← t.checkedAdd (values &&& SKIP_BYTES) (values >>> 8 &&& SKIP_BYTES)
  return t.wrap (pair_sum * LSB_SHORTS) >>> ((← checkedSub t.usizeBytes 2) * 8)

def char_count_general_case (s : List UInt8) : ℕ := s.countP fun byte => !utf8_is_cont_byte byte

/-- `for &word in words { counts += contains_non_continuation_byte(word); }` -/
def add_words (counts : ℕ) (words : List ℕ) : Option ℕ :=
  words.foldlM (fun counts word => t.checkedAdd counts (contains_non_continuation_byte t word))
  counts

/-- A turn of the loop over `body.chunks(CHUNK_SIZE)`. The words of the unrolled chunks come one
after the other. -/
def chunk_turn : List ℕ × ℕ → Option (Turn (List ℕ × ℕ) ℕ)
  | ([], total) => some (.done total)
  | (body, total) => do
    let chunk := body.take CHUNK_SIZE
    let unrolled := chunk.take (chunk.length / UNROLL_INNER * UNROLL_INNER)
    let remainder := chunk.drop (chunk.length / UNROLL_INNER * UNROLL_INNER)
    let counts ← add_words t 0 unrolled
    let total ← t.checkedAdd total (← sum_bytes_in_usize t counts)
    if remainder ≠ [] then do
      let counts ← add_words t 0 remainder
      let total ← t.checkedAdd total (← sum_bytes_in_usize t counts)
      return .done total
    else return .again (body.drop CHUNK_SIZE, total)

def do_count_chars (addr : ℕ) (s : List UInt8) : Option ℕ := do
  let (head, body, tail) := Memchr.align_to t addr s t.usizeBytes
  let body ← (range (body.length / t.usizeBytes)).mapM fun i =>
    t.readUsize addr s (head.length + i * t.usizeBytes)
  if body = [] ∨ head.length > t.usizeBytes ∨ tail.length > t.usizeBytes then
    return char_count_general_case s
  let total ← t.checkedAdd (char_count_general_case head) (char_count_general_case tail)
  runLoop (chunk_turn t) (body.length + 1) (body, total)

/-- `count_chars` of the string `s` at the address `addr`. -/
def count_chars (optimize_for_size : Bool) (addr : ℕ) (s : List UInt8) : Option ℕ :=
  if optimize_for_size ∨ s.length < t.usizeBytes * UNROLL_INNER then
    return char_count_general_case s
  else do_count_chars t addr s

end Code

/-! ## The lanes of a word -/

variable {t : Target} {m n w v : ℕ} {bs : List UInt8}

theorem repeat_u16_eq (h : t.usizeBytes = 2 * m) {x : ℕ} (hx : x < 2 ^ 16) :
    repeat_u16 t x = fill (2 ^ 16) x m := by
  have hcard : t.usizeCard = (2 ^ 16) ^ m := by rw [Target.usizeCard, h, ← pow_mul, ← Nat.mul_assoc]
  have hturns : ∀ i ≤ m,
      (fun r => (r <<< (16 % (8 * t.usizeBytes))) % t.usizeCard ||| x)^[i] 0 =
        fill (2 ^ 16) x i := by
    intro i
    induction i with
    | zero => exact fun _ => rfl
    | succ i ih =>
      intro hi
      rw [Function.iterate_succ_apply', ih (le_of_succ_le hi), fill]
      rcases Nat.eq_zero_or_pos i with rfl | hpos
      · rw [fill, zero_shiftLeft, zero_mod, zero_or, mul_zero, add_zero]
      have hlt : fill (2 ^ 16) x i <<< 16 < t.usizeCard :=
        calc fill (2 ^ 16) x i <<< 16 = fill (2 ^ 16) x i * 2 ^ 16 := shiftLeft_eq _ _
          _ < (2 ^ 16) ^ i * 2 ^ 16 :=
            mul_lt_mul_of_pos_right (fill_lt hx i) (by decide)
          _ = (2 ^ 16) ^ (i + 1) := (pow_succ _ _).symm
          _ ≤ (2 ^ 16) ^ m := Nat.pow_le_pow_right (by decide) hi
          _ = t.usizeCard := hcard.symm
      rw [mod_eq_of_lt (show 16 < 8 * t.usizeBytes by lia), mod_eq_of_lt hlt,
        shiftLeft_or hx, add_comm, mul_comm]
  rw [repeat_u16, show (t.usizeBytes + 1) / 2 = m by lia]
  exact hturns m le_rfl

/-- Whether a byte is no continuation byte, from its two highest bits. -/
theorem mark_eq {b : ℕ} (hb : b < 2 ^ 8) :
    (255 - b) / 128 % 2 ||| b / 64 % 2 = if 128 ≤ b ∧ b < 192 then 0 else 1 := by
  rcases lt_or_ge b 128 with h | h
  · rw [if_neg (by lia), show (255 - b) / 128 % 2 = 1 by lia]
    rcases mod_two_eq_zero_or_one (b / 64) with h' | h' <;> rw [h'] <;> rfl
  · rw [show (255 - b) / 128 % 2 = 0 by lia, zero_or]
    split <;> lia

/-- The lanes of `contains_non_continuation_byte` in a word of `n` bytes. -/
def marks (n w : ℕ) : ℕ := ((2 ^ (8 * n) - 1 - w) >>> 7 ||| w >>> 6) &&& splat 1 n

theorem marks_succ (hw : w < 2 ^ (8 * (n + 1))) : marks (n + 1) w =
    (if 128 ≤ w % 2 ^ 8 ∧ w % 2 ^ 8 < 192 then 0 else 1) + 2 ^ 8 * marks n (w / 2 ^ 8) := by
  rw [marks, marks, and_splat_succ _ _ (by decide), two_pow_bytes_succ] at *
  generalize 2 ^ (8 * n) = p at hw ⊢
  have hor (a b : ℕ) : (a ||| b) % 2 = a % 2 ||| b % 2 := or_mod_two_pow (n := 1)
  rw [← mark_eq (mod_lt w (by decide)), and_one_is_mod, mod_mod_of_dvd _ (by decide),
    hor,
    or_div_two_pow]
  simp only [shiftRight_eq_div_pow]
  rw [show (2 ^ 8 * p - 1 - w) / 2 ^ 7 % 2 = (255 - w % 2 ^ 8) / 128 % 2 by lia,
    show w / 2 ^ 6 % 2 = w % 2 ^ 8 / 64 % 2 by lia,
    show (2 ^ 8 * p - 1 - w) / 2 ^ 7 / 2 ^ 8 = (p - 1 - w / 2 ^ 8) / 2 ^ 7 by lia,
    Nat.div_div_eq_div_mul w, Nat.div_div_eq_div_mul w, Nat.mul_comm (2 ^ 6)]

theorem marks_leBytes (bs : List UInt8) : LanesLe (2 ^ 8) 1 bs.length (marks bs.length
    (leBytes bs)) ∧
    laneSum (2 ^ 8) bs.length (marks bs.length (leBytes bs)) = char_count_general_case bs := by
  induction bs with
  | nil => exact ⟨and_zero _, rfl⟩
  | cons b bs ih =>
    have hb := b.toNat_lt
    obtain ⟨hle, hsum⟩ := ih
    obtain ⟨k, hk, hk1, hcount⟩ : ∃ k, (if 128 ≤ b.toNat ∧ b.toNat < 192 then 0 else 1) = k ∧ k ≤ 1
      ∧ char_count_general_case (b :: bs) = k + char_count_general_case bs := by
      refine ⟨_, rfl, by split <;> lia, ?_⟩
      rw [char_count_general_case, countP_cons, add_comm]
      congr 1
      have htail := utf8_is_cont_byte_iff b
      rw [Tail] at htail
      by_cases h : utf8_is_cont_byte b = true
      · rw [if_neg (by simp [h]), if_pos (by have := htail.1 h; lia)]
      · rw [if_pos (by simp [h]), if_neg (fun hb => h (htail.2 (by lia)))]
    rw [length_cons, marks_succ (leBytes_lt (b :: bs)), leBytes,
      show (b.toNat + 2 ^ 8 * leBytes bs) % 2 ^ 8 = b.toNat by lia,
      show (b.toNat + 2 ^ 8 * leBytes bs) / 2 ^ 8 = leBytes bs by lia, hk, hcount, LanesLe,
      laneSum]
    generalize marks bs.length (leBytes bs) = q at *
    rw [show (k + 2 ^ 8 * q) % 2 ^ 8 = k by lia, show (k + 2 ^ 8 * q) / 2 ^ 8 = q by lia, hsum]
    exact ⟨⟨hk1, hle⟩, rfl⟩

/-- **A word of bytes**: each lane is 0 or 1, and their sum is the count. -/
theorem contains_non_continuation_byte_spec (h : bs.length = t.usizeBytes) :
    LanesLe (2 ^ 8) 1 t.usizeBytes (contains_non_continuation_byte t (t.usizeOfBytes bs)) ∧
      laneSum (2 ^ 8) t.usizeBytes (contains_non_continuation_byte t (t.usizeOfBytes bs)) =
        char_count_general_case bs := by
  have hmarks (w : ℕ) : contains_non_continuation_byte t w = marks t.usizeBytes w := by
    rw [contains_non_continuation_byte, Target.repeatU8_eq]
    rfl
  rw [hmarks, Target.usizeOfBytes_eq]
  split
  · have := marks_leBytes bs.reverse
    rwa [length_reverse, h, char_count_general_case, countP_reverse] at this
  · have := marks_leBytes bs
    rwa [h] at this

/-- The sums of the pairs of neighbouring bytes. -/
theorem pair_sum_spec (m v : ℕ) :
    LanesLe (2 ^ 16) 510 m ((v &&& fill (2 ^ 16) 255 m) + (v >>> 8 &&& fill (2 ^ 16) 255 m)) ∧
      laneSum (2 ^ 16) m ((v &&& fill (2 ^ 16) 255 m) + (v >>> 8 &&& fill (2 ^ 16) 255 m)) =
        laneSum (2 ^ 8) (2 * m) v := by
  induction m generalizing v with
  | zero => exact ⟨by rw [fill, and_zero, and_zero]; rfl, rfl⟩
  | succ m ih =>
    have hand (x : ℕ) : x &&& fill (2 ^ 16) 255 (m + 1) =
        x % 2 ^ 8 + 2 ^ 16 * (x / 2 ^ 16 &&& fill (2 ^ 16) 255 m) := by
      have hsplit (y : ℕ) : y = y % 2 ^ 16 + 2 ^ 16 * (y / 2 ^ 16) := (mod_add_div y _).symm
      rw [hsplit (x &&& _), and_mod_two_pow, and_div_two_pow, fill,
        add_mul_mod_self_left, add_mul_div_left _ _ (by decide),
        show 255 % 2 ^ 16 = 2 ^ 8 - 1 from rfl, and_two_pow_sub_one_eq_mod,
        mod_mod_of_dvd _ (by decide), show 255 / 2 ^ 16 = 0 from rfl, Nat.zero_add]
    have hshift : v >>> 8 / 2 ^ 16 = (v / 2 ^ 16) >>> 8 := by
      rw [shiftRight_eq_div_pow, shiftRight_eq_div_pow, Nat.div_div_eq_div_mul,
        Nat.div_div_eq_div_mul, Nat.mul_comm]
    obtain ⟨hle, hsum⟩ := ih (v / 2 ^ 16)
    have hpairs : laneSum (2 ^ 8) (2 * (m + 1)) v =
        v % 2 ^ 8 + (v / 2 ^ 8 % 2 ^ 8 + laneSum (2 ^ 8) (2 * m) (v / 2 ^ 8 / 2 ^ 8)) := rfl
    rw [hand, hand, hshift, hpairs, Nat.div_div_eq_div_mul, show 2 ^ 8 * 2 ^ 8 = 2 ^ 16 from rfl, ←
      hsum, shiftRight_eq_div_pow]
    generalize v / 2 ^ 16 &&& fill (2 ^ 16) 255 m = a at *
    generalize (v / 2 ^ 16) >>> 8 &&& fill (2 ^ 16) 255 m = b at *
    rw [LanesLe, laneSum, show (v % 2 ^ 8 + 2 ^ 16 * a + (v / 2 ^ 8 % 2 ^ 8 + 2 ^ 16 * b)) / 2 ^ 16
      = a + b by lia,
      show (v % 2 ^ 8 + 2 ^ 16 * a + (v / 2 ^ 8 % 2 ^ 8 + 2 ^ 16 * b)) % 2 ^ 16 =
        v % 2 ^ 8 + v / 2 ^ 8 % 2 ^ 8 by lia]
    exact ⟨⟨by lia, hle⟩, by lia⟩

/-- **`sum_bytes_in_usize`** is exact when the sum fits into the two top bytes. -/
theorem sum_bytes_in_usize_spec (hm : t.usizeBytes = 2 * (m + 1))
    (hsum : laneSum (2 ^ 8) t.usizeBytes v < 2 ^ 16) :
    sum_bytes_in_usize t v = some (laneSum (2 ^ 8) t.usizeBytes v) := by
  have hcard : t.usizeCard = (2 ^ 16) ^ (m + 1) := by
    rw [Target.usizeCard, hm, ← pow_mul, ← Nat.mul_assoc]
  obtain ⟨hle, hpairs⟩ := pair_sum_spec (m + 1) v
  rw [← hm] at hpairs
  rw [sum_bytes_in_usize, repeat_u16_eq hm (by decide), repeat_u16_eq hm (by decide),
    Target.checkedAdd_eq (hcard ▸ hle.lt (by decide)), checkedSub_eq (by lia)]
  simp only [some_bind]
  rw [← hpairs] at hsum ⊢
  generalize (v &&& fill (2 ^ 16) 255 (m + 1)) + (v >>> 8 &&& fill (2 ^ 16) 255 (m + 1)) = p at *
  rw [Target.wrap, hcard, shiftRight_eq_div_pow, show (t.usizeBytes - 2) * 8 = 16 * m by lia,
    pow_mul, top_lane_mul_fill hsum]
  rfl

/-! ## The count -/

/-- The words to count, with what they count together. -/
structure Words (t : Target) (words : List ℕ) (total : ℕ) : Prop where
  lanes : ∀ w ∈ words, LanesLe (2 ^ 8) 1 t.usizeBytes (contains_non_continuation_byte t w)
  sum : (words.map fun w =>
    laneSum (2 ^ 8) t.usizeBytes (contains_non_continuation_byte t w)).sum = total

theorem Words.nil : Words t [] 0 := ⟨fun _ hw => (not_mem_nil hw).elim, rfl⟩

theorem Words.append {ws vs : List ℕ} {a b : ℕ} (hw : Words t ws a) (hv : Words t vs b) :
    Words t (ws ++ vs) (a + b) where
  lanes w h := (mem_append.1 h).elim (hw.lanes w) (hv.lanes w)
  sum := by rw [map_append, sum_append_nat, hw.sum, hv.sum]

theorem Words.split {ws vs : List ℕ} {n : ℕ} (h : Words t (ws ++ vs) n) :
    ∃ a b, Words t ws a ∧ Words t vs b ∧ a + b = n := by
  refine ⟨_, _, ⟨fun w hw => h.lanes w (mem_append_left vs hw), rfl⟩,
    ⟨fun w hw => h.lanes w (mem_append_right ws hw), rfl⟩, ?_⟩
  rw [← h.sum, map_append, sum_append_nat]

theorem add_words_spec {words : List ℕ} {total counts : ℕ} (h : Words t words total)
    (hc : LanesLe (2 ^ 8) n t.usizeBytes counts) (hlen : n + words.length < 2 ^ 8) :
    ∃ c, add_words t counts words = some c ∧ LanesLe (2 ^ 8) (n + words.length) t.usizeBytes c ∧
      laneSum (2 ^ 8) t.usizeBytes c = laneSum (2 ^ 8) t.usizeBytes counts + total := by
  induction words generalizing counts n total with
  | nil =>
    obtain rfl := h.sum
    exact ⟨counts, rfl, hc, rfl⟩
  | cons w words ih =>
    rw [length_cons] at hlen
    obtain ⟨hadd, hsum⟩ := hc.add (h.lanes w mem_cons_self) (by lia)
    have hlt := hadd.lt (by lia)
    rw [← pow_mul] at hlt
    have htail : Words t words _ := ⟨fun w hw => h.lanes w (mem_cons_of_mem _ hw), rfl⟩
    obtain ⟨c, hrun, hlanes, hc⟩ := ih htail hadd (by lia)
    refine ⟨c, ?_, ?_, ?_⟩
    · rw [add_words, foldlM_cons, Target.checkedAdd_eq hlt]
      exact hrun
    · rwa [length_cons, add_comm words.length, ← add_assoc]
    · rw [hc, hsum, ← h.sum, map_cons, sum_cons, add_assoc]

/-- A word has from 2 to 256 bytes. -/
structure WordSize (t : Target) : Prop where
  two_le : 1 ≤ t.logBytes
  le : t.logBytes ≤ 8

theorem WordSize.usizeBytes_eq (h : WordSize t) : ∃ m, t.usizeBytes = 2 * (m + 1) := by
  obtain ⟨k, hk⟩ := Nat.exists_eq_add_of_le h.two_le
  have hpos := Nat.two_pow_pos k
  refine ⟨2 ^ k - 1, ?_⟩
  rw [Target.usizeBytes, hk, pow_add, pow_one, Nat.sub_add_cancel hpos]

theorem WordSize.usizeBytes_le (h : WordSize t) : t.usizeBytes ≤ 256 :=
  Nat.pow_le_pow_right (by decide) h.le

/-- The counts of at most `CHUNK_SIZE` words fit into the lanes, and their sum into a word. -/
theorem count_words (ht : WordSize t) {words : List ℕ} {total : ℕ} (h : Words t words total)
    (hlen : words.length ≤ CHUNK_SIZE) :
    ∃ counts, add_words t 0 words = some counts ∧ sum_bytes_in_usize t counts = some total := by
  obtain ⟨m, hm⟩ := ht.usizeBytes_eq
  have hbytes := ht.usizeBytes_le
  rw [CHUNK_SIZE] at hlen
  obtain ⟨counts, hadd, hlanes, hsum⟩ := add_words_spec h (LanesLe.zero (2 ^ 8) 0 _) (by lia)
  have hzero : laneSum (2 ^ 8) t.usizeBytes 0 = 0 :=
    eq_zero_of_le_zero (LanesLe.zero (2 ^ 8) 0 _).laneSum_le
  rw [hzero, zero_add] at hsum
  have hle := hlanes.laneSum_le
  have hmul : t.usizeBytes * (0 + words.length) ≤ 256 * 192 := Nat.mul_le_mul hbytes (by lia)
  refine ⟨counts, hadd, ?_⟩
  rw [sum_bytes_in_usize_spec hm (by lia), hsum]

/-- The loop over the chunks adds up what all words count. -/
theorem chunk_loop (ht : WordSize t) {body : List ℕ} {total k : ℕ} (h : Words t body k)
    (hlt : total + k < t.usizeCard) :
    runLoop (chunk_turn t) (body.length + 1) (body, total) = some (total + k) := by
  have hturn (s : List ℕ × ℕ) (hs : ∃ j, Words t s.1 j ∧ s.2 + j = total + k) :
      TurnSpec (fun s => ∃ j, Words t s.1 j ∧ s.2 + j = total + k) (fun s => s.1.length)
        (· = total + k) s (chunk_turn t s) := by
    obtain ⟨body, sum⟩ := s
    obtain ⟨j, hwords, hj⟩ := hs
    obtain rfl | hne := eq_or_ne body []
    · have hzero : 0 = j := hwords.sum
      exact (show sum = total + k by lia)
    have hcut := take_append_drop CHUNK_SIZE body
    have hlen : (body.take CHUNK_SIZE).length ≤ CHUNK_SIZE := length_take_le _ _
    have hpos := length_pos_of_ne_nil hne
    have hrest : (body.drop CHUNK_SIZE).length = body.length - CHUNK_SIZE := length_drop
    rw [← hcut] at hwords
    obtain ⟨a, b, hchunk, hlater, rfl⟩ := hwords.split
    have hunroll := take_append_drop
      ((body.take CHUNK_SIZE).length / UNROLL_INNER * UNROLL_INNER) (body.take CHUNK_SIZE)
    rw [← hunroll] at hchunk
    obtain ⟨c, d, hunrolled, hremainder, rfl⟩ := hchunk.split
    obtain ⟨counts, hadd, hsum⟩ := count_words ht hunrolled
      ((length_take_le _ _).trans ((div_mul_le_self _ _).trans hlen))
    obtain ⟨counts', hadd', hsum'⟩ := count_words ht hremainder
      ((length_drop.trans_le (sub_le _ _)).trans hlen)
    rw [chunk_turn.eq_2 _ _ _ (fun h => hne h)]
    simp only [hadd, hsum, some_bind]
    rw [Target.checkedAdd_eq (show sum + c < t.usizeCard by lia)]
    simp only [some_bind]
    split
    · -- only the last chunk has a remainder
      rename_i hmore
      have hlast : body.drop CHUNK_SIZE = [] := by
        have hshort := length_pos_of_ne_nil hmore
        rw [length_drop] at hshort
        refine drop_eq_nil_of_le ?_
        rw [length_take, CHUNK_SIZE, UNROLL_INNER] at hshort
        rw [CHUNK_SIZE]
        lia
      have hb : 0 = b := by
        rw [hlast] at hlater
        exact hlater.sum
      simp only [hadd', hsum', some_bind]
      rw [Target.checkedAdd_eq (show sum + c + d < t.usizeCard by lia)]
      exact (show sum + c + d = total + k by lia)
    · rename_i hmore
      have hd : 0 = d := by
        rw [not_not.1 hmore] at hremainder
        exact hremainder.sum
      refine ⟨⟨b, hlater, ?_⟩, ?_⟩
      · dsimp only
        lia
      · dsimp only
        rw [CHUNK_SIZE] at hrest
        rw [CHUNK_SIZE]
        lia
  obtain ⟨r, hrun, rfl⟩ := runLoop_spec (chunk_turn t) _ _ _ hturn (body.length + 1) (body, total)
    ⟨k, h, rfl⟩ (lt_succ_self _)
  exact hrun

/-- The words of the aligned part. -/
theorem body_words (t : Target) (s : List UInt8) {addr off : ℕ} (n : ℕ)
    (ha : n ≠ 0 → (addr + off) % t.usizeBytes = 0) (hlen : off + n * t.usizeBytes ≤ s.length) :
    ∃ words, (range n).mapM (fun i => t.readUsize addr s (off + i * t.usizeBytes)) = some
    words ∧ words.length = n ∧
      Words t words (char_count_general_case ((s.drop off).take (n * t.usizeBytes))) := by
  induction n with
  | zero =>
    refine ⟨[], rfl, rfl, ?_⟩
    rw [zero_mul, take_zero]
    exact Words.nil
  | succ n ih =>
    rw [succ_mul] at hlen ⊢
    have ha := ha (succ_ne_zero n)
    obtain ⟨words, hmap, hwords, hcount⟩ := ih (fun _ => ha) (by lia)
    have hbytes : ((s.drop (off + n * t.usizeBytes)).take t.usizeBytes).length = t.usizeBytes := by
      rw [length_take, length_drop]
      lia
    have haligned : (addr + (off + n * t.usizeBytes)) % t.usizeBytes = 0 := by
      rw [← add_assoc, add_mul_mod_self_right, ha]
    obtain ⟨w, hread, hword⟩ : ∃ w, t.readUsize addr s (off + n * t.usizeBytes) = some w ∧
        Words t [w] (char_count_general_case
          ((s.drop (off + n * t.usizeBytes)).take t.usizeBytes)) := by
      obtain ⟨hlanes, hsum⟩ := contains_non_continuation_byte_spec hbytes
      refine ⟨_, if_pos ⟨haligned, by lia⟩, fun w hw => ?_, ?_⟩
      · rwa [mem_singleton.1 hw]
      · rw [map_singleton, sum_singleton, hsum]
    refine ⟨words ++ [w], ?_, ?_, ?_⟩
    · rw [range_succ, mapM_append, hmap, mapM_cons, hread]
      rfl
    · rw [length_append, hwords, length_singleton]
    · rw [take_add, drop_drop, char_count_general_case, countP_append]
      exact hcount.append hword

theorem do_count_chars_spec (ht : WordSize t) (addr : ℕ) {s : List UInt8}
    (hs : s.length < t.usizeCard) :
    do_count_chars t addr s = some (char_count_general_case s) := by
  obtain ⟨head, mid, tail, halign, rfl, hdvd, ha⟩ := Memchr.align_to_spec t addr s t.usizeBytes
  have hmid : mid.length / t.usizeBytes * t.usizeBytes = mid.length := Nat.div_mul_cancel hdvd
  have hlen : (head ++ (mid ++ tail)).length = head.length + (mid.length + tail.length) := by
    rw [length_append, length_append]
  obtain ⟨words, hmap, hwords, hcount⟩ := body_words t (head ++ (mid ++ tail))
    (mid.length / t.usizeBytes)
    (fun h => ha fun hnil => h (by rw [hnil, length_nil, Nat.zero_div])) (by lia)
  rw [hmid, drop_left, take_left] at hcount
  have hsplit : char_count_general_case (head ++ (mid ++ tail)) =
      char_count_general_case head + char_count_general_case tail +
        char_count_general_case mid := by
    simp only [char_count_general_case, countP_append]
    ring
  have hle : char_count_general_case (head ++ (mid ++ tail)) ≤ (head ++ (mid ++ tail)).length :=
    countP_le_length
  rw [do_count_chars, halign]
  simp only [hmap, some_bind]
  split
  · rfl
  · rw [Target.checkedAdd_eq (by lia)]
    simp only [some_bind]
    rw [chunk_loop ht hcount (by lia), hsplit]

/-- **`count_chars`** counts the bytes that are no continuation bytes. -/
theorem count_chars_spec (ht : WordSize t) (optimize_for_size : Bool) (addr : ℕ) {s : List UInt8}
    (hs : s.length < t.usizeCard) :
    count_chars t optimize_for_size addr s = some (char_count_general_case s) := by
  unfold count_chars
  split
  · rfl
  · exact do_count_chars_spec ht addr hs

end RustStd.StrIter
