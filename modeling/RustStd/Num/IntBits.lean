import Mathlib.Data.Nat.Count
import RustStd.Foundations.Loop
import RustStd.Foundations.Word

/-!
# Gathering and scattering bits

`gather_bits` and `scatter_bits` of the unsigned integers, `core/src/num/int_bits.rs`. A bit under
the mask moves past the zeros of the mask below it, in stages that move by the powers of two in
their number; `gaps` is that number, and the words of every stage are stated by it.
-/

namespace RustStd.IntBits

open List Nat Bool BitVec

variable {w : ℕ}

/-! ## The code -/

/-- `BITS.ilog2()` -/
def STAGES (w : ℕ) : ℕ := w.log2

/-- A turn of the loop over `len`, which computes `parity`. -/
def parity_turn (s : BitVec w × ℕ) : Option (Turn (BitVec w × ℕ) (BitVec w)) :=
  let (parity, len) := s
  some (if len < w then .again (parity ^^^ parity <<< len, 2 * len) else .done parity)

/-- A turn of the loop over the stages, with `zeros` and `masks`. -/
def prepare_turn (s : BitVec w × List (BitVec w)) (stage : ℕ) :
    Option (BitVec w × List (BitVec w)) := do
  let (zeros, masks) := s
  let n := 2 ^ stage
  let parity ← runLoop parity_turn (w + 1) (zeros, n)
  let masks := masks.set stage parity
  let zeros := zeros &&& ~~~parity
  return (zeros ^^^ zeros >>> n, masks)

def prepare (sparse : BitVec w) : Option (List (BitVec w)) := do
  let s ← (range' 0 (STAGES w)).foldlM prepare_turn (~~~sparse, .replicate (STAGES w) 0#w)
  return s.2

def gather_turn (masks : List (BitVec w)) (x : BitVec w) (stage : ℕ) : Option (BitVec w) := do
  let n := 2 ^ stage
  let q := x &&& (← masks[stage]?)
  let x := x ^^^ q
  return x ^^^ q >>> n

def gather_impl (x sparse : BitVec w) : Option (BitVec w) := do
  let masks ← prepare sparse
  (range' 0 (STAGES w)).foldlM (gather_turn masks) (x &&& sparse)

/-- The loop of `scatter_impl`, from the last stage down. -/
def scatter_loop (masks : List (BitVec w)) : ℕ → BitVec w → Option (BitVec w)
  | 0, x => some x
  | stage + 1, x => do
    let n := 2 ^ stage
    let q := x &&& (← masks[stage]?)
    let x := x ^^^ q
    scatter_loop masks stage (x ^^^ q <<< n)

def scatter_impl (x sparse : BitVec w) : Option (BitVec w) := do
  let masks ← prepare sparse
  let x ← scatter_loop masks (STAGES w) x
  return x &&& sparse

def gather_bits (self mask : BitVec w) : Option (BitVec w) := gather_impl self mask

def scatter_bits (self mask : BitVec w) : Option (BitVec w) := scatter_impl self mask

theorem scatter_loop_succ (masks : List (BitVec w)) (stage : ℕ) (x : BitVec w) :
    scatter_loop masks (stage + 1) x = (masks[stage]?).bind fun mask =>
      scatter_loop masks stage (x ^^^ x &&& mask ^^^ (x &&& mask) <<< 2 ^ stage) := rfl

/-! ## Counting the zeros of a mask -/

/-- The zeros of the mask below a position. -/
def gaps (sparse : BitVec w) (p : ℕ) : ℕ :=
  count (fun i => i < w ∧ sparse.getLsbD i = false) p

/-- The ones of the mask below a position. -/
def rank (sparse : BitVec w) (p : ℕ) : ℕ := count (fun i => sparse.getLsbD i = true) p

section Count

variable (sparse : BitVec w) {p i j n : ℕ}

theorem gaps_mono (h : i ≤ j) : gaps sparse i ≤ gaps sparse j :=
  count_monotone _ h

theorem gaps_le (p : ℕ) : gaps sparse p ≤ p := count_le _

theorem gaps_add_le (p j : ℕ) : gaps sparse (p + j) ≤ gaps sparse p + j := by
  rw [gaps, count_add]
  exact Nat.add_le_add_left (Nat.count_le _) _

theorem gaps_top (hp : w ≤ p) (j : ℕ) : gaps sparse (p + j) = gaps sparse p := by
  induction j with
  | zero => rfl
  | succ j ih =>
    rw [← add_assoc, gaps, count_succ, if_neg (fun h => by lia), add_zero]
    exact ih

variable {sparse}

theorem gaps_succ (hp : sparse.getLsbD p = true) : gaps sparse (p + 1) = gaps sparse p := by
  rw [gaps, Nat.count_succ, if_neg (fun h => by rw [hp] at h; exact Bool.noConfusion h.2)]
  rfl

/-- There is no zero at a one. -/
theorem gaps_add_lt (hp : sparse.getLsbD p = true) (hn : 0 < n) :
    gaps sparse (p + n) < gaps sparse p + n := by
  have hle := gaps_add_le sparse (p + 1) (n - 1)
  rw [gaps_succ hp, show p + 1 + (n - 1) = p + n by lia] at hle
  lia

theorem rank_add_gaps (hp : p ≤ w) : rank sparse p + gaps sparse p = p := by
  induction p with
  | zero => rfl
  | succ p ih =>
    have ih := ih (by lia)
    rw [rank, gaps] at ih ⊢
    rw [count_succ, count_succ]
    cases hbit : sparse.getLsbD p with
    | false =>
      rw [if_neg Bool.false_ne_true, if_pos ⟨by lia, rfl⟩]
      lia
    | true =>
      rw [if_pos rfl, if_neg (fun h => Bool.noConfusion h.2)]
      lia

end Count

/-! ## The words of a stage -/

/-- The counts at the two ends of a stretch of `n` positions are in one group of `n`, or in two
that follow each other. -/
theorem div_step {a b n : ℕ} (hn : 0 < n) (hab : a ≤ b) (hle : b ≤ a + n) :
    b / n = a / n ∨ b / n = a / n + 1 := by
  have hlow := Nat.div_le_div_right (c := n) hab
  have hhigh := Nat.div_le_div_right (c := n) hle
  rw [Nat.add_div_right a hn] at hhigh
  lia

theorem div_eq_of_lt {a b n : ℕ} (hn : 0 < n) (hab : a ≤ b) (hlt : b < a + (n - a % n)) :
    b / n = a / n := by
  have hdiv := div_add_mod a n
  have hmod := mod_lt a hn
  rw [mul_comm] at hdiv
  refine Nat.div_eq_of_lt_le (by lia) ?_
  rw [Nat.succ_mul]
  lia

/-- The word `zeros` at the beginning of a stage: the groups of `n` zeros end at every `n`-th zero
of the mask. -/
def IsZeros (sparse zeros : BitVec w) (n : ℕ) : Prop :=
  ∀ i < w, zeros.getLsbD i = decide (gaps sparse (i + n) / n ≠ gaps sparse i / n)

/-- The mask of a stage: an odd number of groups begins before the position `i + n`. -/
def IsMask (sparse mask : BitVec w) (n : ℕ) : Prop :=
  ∀ i < w, mask.getLsbD i = decide (gaps sparse (i + n) / n % 2 = 1)

theorem isZeros_one (sparse : BitVec w) : IsZeros sparse (~~~sparse) 1 := by
  intro i hi
  have hsucc : gaps sparse (i + 1) = gaps sparse i + _ := count_succ _ i
  rw [getLsbD_not, Nat.div_one, Nat.div_one, hsucc, decide_eq_true hi]
  cases hbit : sparse.getLsbD i with
  | false => simp [hi]
  | true => simp

theorem xor_odd (a b c : ℕ) : (decide ((a + b) % 2 = 1) ^^ decide ((b + c) % 2 = 1)) =
    decide ((a + c) % 2 = 1) := by
  rw [Bool.eq_iff_iff, Bool.xor_iff_ne]
  simp only [ne_eq, decide_eq_decide, decide_eq_true_eq]
  lia

variable {sparse : BitVec w}

/-- **The prefix parity**: after a doubling of `len` the groups that end in `len` positions have
been added. -/
theorem parity_turn_spec {n : ℕ} (hn : 0 < n) (s : BitVec w × ℕ)
    (hs : 0 < s.2 ∧ ∀ i < w, s.1.getLsbD i = decide
      ((gaps sparse (i + n) / n + gaps sparse (i + n - s.2) / n) % 2 = 1)) :
    TurnSpec (fun s => 0 < s.2 ∧ ∀ i < w, s.1.getLsbD i = decide
      ((gaps sparse (i + n) / n + gaps sparse (i + n - s.2) / n) % 2 = 1))
      (fun s => w - s.2) (IsMask sparse · n) s (parity_turn s) := by
  obtain ⟨parity, len⟩ := s
  obtain ⟨hpos, hbits⟩ := hs
  dsimp only at hpos hbits
  -- No group ends among the first positions.
  have hnone {i : ℕ} (hi : i < n) : gaps sparse i / n = 0 :=
    Nat.div_eq_of_lt ((gaps_le sparse i).trans_lt hi)
  rw [parity_turn]
  split_ifs with hlen
  · refine ⟨⟨by dsimp only; lia, fun i hi => ?_⟩, by dsimp only; lia⟩
    rw [getLsbD_xor, getLsbD_shiftLeft, hbits i hi]
    by_cases hlt : i < len
    · rw [decide_eq_true hlt, hnone (show i + n - len < n by lia),
        hnone (show i + n - 2 * len < n by lia)]
      simp
    · rw [hbits (i - len) (by lia), show i - len + n = i + n - len by lia,
        show i + n - len - len = i + n - 2 * len by lia]
      simp only [hi, hlt, decide_true, decide_false, Bool.not_false, Bool.true_and]
      exact xor_odd _ _ _
  · intro i hi
    rw [hbits i hi, hnone (show i + n - len < n by lia), add_zero]

/-- The variables of `prepare` at the beginning of a stage. -/
structure Prepared (sparse : BitVec w) (stage : ℕ) (s : BitVec w × List (BitVec w)) : Prop where
  zeros : IsZeros sparse s.1 (2 ^ stage)
  length : s.2.length = STAGES w
  masks : ∀ j < stage, ∃ mask, s.2[j]? = some mask ∧ IsMask sparse mask (2 ^ j)

/-- The zeros that are left by a stage. -/
theorem IsZeros.next {zeros mask : BitVec w} {stage : ℕ}
    (hz : IsZeros sparse zeros (2 ^ stage)) (hmask : IsMask sparse mask (2 ^ stage)) :
    IsZeros sparse ((zeros &&& ~~~mask) ^^^ (zeros &&& ~~~mask) >>> 2 ^ stage)
      (2 ^ (stage + 1)) := by
  intro i hi
  have hn := Nat.two_pow_pos stage
  have hquot (a : ℕ) : a / 2 ^ (stage + 1) = a / 2 ^ stage / 2 := by
    rw [pow_succ, Nat.div_div_eq_div_mul]
  -- What is left are the ends of the groups that end a group of the next stage.
  have hleft (j : ℕ) : (zeros &&& ~~~mask).getLsbD j =
      decide (gaps sparse (j + 2 ^ stage) / 2 ^ (stage + 1) ≠ gaps sparse j / 2 ^ (stage + 1)) := by
    rw [getLsbD_and, getLsbD_not, hquot, hquot]
    by_cases hj : j < w
    · have hstep := div_step hn (gaps_mono sparse (Nat.le_add_right j (2 ^ stage)))
        (gaps_add_le sparse j _)
      rw [hz j hj, hmask j hj, decide_eq_true hj, Bool.true_and, Bool.eq_iff_iff, Bool.and_eq_true,
        Bool.not_eq_true', decide_eq_true_eq, decide_eq_false_iff_not, decide_eq_true_eq]
      lia
    · rw [decide_eq_false hj, Bool.false_and, Bool.and_false, gaps_top sparse (not_lt.1 hj)]
      simp
  have hstep := div_step (Nat.two_pow_pos (stage + 1))
    (gaps_mono sparse (Nat.le_add_right i (2 ^ (stage + 1)))) (gaps_add_le sparse i _)
  have hlow := Nat.div_le_div_right (c := 2 ^ (stage + 1))
    (gaps_mono sparse (Nat.le_add_right i (2 ^ stage)))
  have hhigh := Nat.div_le_div_right (c := 2 ^ (stage + 1))
    (gaps_mono sparse (Nat.le_add_right (i + 2 ^ stage) (2 ^ stage)))
  have hadd : i + 2 ^ stage + 2 ^ stage = i + 2 ^ (stage + 1) := by rw [pow_succ]; lia
  rw [hadd] at hhigh
  rw [getLsbD_xor, getLsbD_ushiftRight, hleft, hleft, Nat.add_comm (2 ^ stage) i, hadd,
    Bool.eq_iff_iff, Bool.xor_iff_ne]
  simp only [ne_eq, decide_eq_decide, decide_eq_true_eq]
  lia

/-- **A stage** computes its mask, and the groups of the next one. -/
theorem Prepared.next {stage : ℕ} {s : BitVec w × List (BitVec w)}
    (h : Prepared sparse stage s) (hstage : stage < STAGES w) :
    ∃ s', prepare_turn s stage = some s' ∧ Prepared sparse (stage + 1) s' := by
  obtain ⟨zeros, masks⟩ := s
  obtain ⟨hz, hlen, hmasks⟩ := h
  dsimp only at hz hlen hmasks
  have hn := Nat.two_pow_pos stage
  have hinit : ∀ i < w, zeros.getLsbD i = decide ((gaps sparse (i + 2 ^ stage) / 2 ^ stage +
      gaps sparse (i + 2 ^ stage - 2 ^ stage) / 2 ^ stage) % 2 = 1) := by
    intro i hi
    have hstep := div_step hn (gaps_mono sparse (Nat.le_add_right i (2 ^ stage)))
      (gaps_add_le sparse i _)
    rw [hz i hi, Nat.add_sub_cancel, decide_eq_decide]
    lia
  obtain ⟨mask, hrun, hmask⟩ := runLoop_spec parity_turn _ (fun s => w - s.2) _
    (parity_turn_spec hn) (w + 1) (zeros, 2 ^ stage) ⟨hn, hinit⟩ (by dsimp only; lia)
  refine ⟨_, by rw [prepare_turn, hrun]; rfl, hz.next hmask, by rwa [List.length_set],
    fun j hj => ?_⟩
  rcases Nat.lt_or_eq_of_le (Nat.le_of_lt_succ hj) with hlt | rfl
  · obtain ⟨m, hget, hm⟩ := hmasks j hlt
    exact ⟨m, by rwa [List.getElem?_set_ne (by lia)], hm⟩
  · exact ⟨mask, List.getElem?_set_self (by lia), hmask⟩

/-- **`prepare`** returns the masks of all stages. -/
theorem prepare_spec (sparse : BitVec w) : ∃ masks, prepare sparse = some masks ∧
    ∀ stage < STAGES w, ∃ mask, masks[stage]? = some mask ∧ IsMask sparse mask (2 ^ stage) := by
  have hinit : Prepared sparse 0 (~~~sparse, .replicate (STAGES w) 0#w) :=
    ⟨isZeros_one sparse, length_replicate, fun j hj => absurd hj (not_lt_zero _)⟩
  obtain ⟨s, hrun, hs⟩ := foldlM_range'_spec (fun stage s hstage (h : Prepared sparse stage s) =>
    h.next (by rwa [zero_add] at hstage)) hinit
  rw [zero_add] at hs
  exact ⟨s.2, by rw [prepare, hrun]; rfl, hs.masks⟩

/-! ## Where the bits are -/

/-- Where a bit under the mask is at the beginning of the stage that moves by `n`. -/
def place (sparse : BitVec w) (n p : ℕ) : ℕ := p - gaps sparse p % n

section Place

variable {sparse mask : BitVec w} {n p : ℕ}

theorem place_one (p : ℕ) : place sparse 1 p = p := by
  rw [place, Nat.mod_one, Nat.sub_zero]

/-- After the last stage the bit has moved past all zeros. -/
theorem place_top (hp : sparse.getLsbD p = true) : place sparse w p = rank sparse p := by
  have hw := lt_of_getLsbD hp
  have hadd : rank sparse p + gaps sparse p = p := rank_add_gaps hw.le
  rw [place, mod_eq_of_lt ((gaps_le sparse p).trans_lt hw)]
  lia

/-- What a stage does to the place. -/
theorem place_double (n : ℕ) : place sparse (n * 2) p =
    place sparse n p - n * (gaps sparse p / n % 2) := by
  rw [place, place, Nat.mod_mul, Nat.sub_sub]

theorem le_place (h : gaps sparse p / n % 2 = 1) : n ≤ place sparse n p := by
  have hle := gaps_le sparse p
  have hdiv := div_add_mod (gaps sparse p) n
  have hpos : 1 ≤ gaps sparse p / n := Nat.pos_of_ne_zero fun h0 => by simp [h0] at h
  have hone := mul_le_mul_left n hpos
  rw [place]
  lia

/-- The mask of a stage holds at the place of a bit when the stage moves the bit. -/
theorem IsMask.place (h : IsMask sparse mask n) (hn : 0 < n) (hp : sparse.getLsbD p = true) :
    mask.getLsbD (place sparse n p) = decide (gaps sparse p / n % 2 = 1) := by
  have hw := lt_of_getLsbD hp
  have hle := gaps_le sparse p
  have hlt := mod_lt (gaps sparse p) hn
  have hmod := mod_le (gaps sparse p) n
  have hadd : IntBits.place sparse n p + n = p + (n - gaps sparse p % n) := by
    rw [IntBits.place]
    lia
  have hlow := gaps_mono sparse (le_add_right p (n - gaps sparse p % n))
  have hhigh := gaps_add_lt hp (show 0 < n - gaps sparse p % n by lia)
  rw [h _ (by rw [IntBits.place]; lia), hadd]
  rw [div_eq_of_lt hn hlow hhigh]

/-- So it does at the place where the stage takes it from or to, `n` below. -/
theorem IsMask.below (h : IsMask sparse mask n) (hn : 0 < n) (hp : sparse.getLsbD p = true)
    (hle : n ≤ IntBits.place sparse n p) :
    mask.getLsbD (IntBits.place sparse n p - n) = decide (gaps sparse p / n % 2 = 1) := by
  have hw := lt_of_getLsbD hp
  have hdiv := div_add_mod (gaps sparse p) n
  have hlow := gaps_add_le sparse (IntBits.place sparse n p) (gaps sparse p % n)
  have hzeros := gaps_le sparse p
  have hmod := mod_le (gaps sparse p) n
  have hplace : IntBits.place sparse n p + gaps sparse p % n = p := by
    rw [IntBits.place]
    lia
  have hhigh := gaps_mono sparse (show IntBits.place sparse n p ≤ p by lia)
  rw [hplace] at hlow
  have hquot : gaps sparse (IntBits.place sparse n p) / n = gaps sparse p / n := by
    refine Nat.div_eq_of_lt_le ?_ (hhigh.trans_lt ?_)
    · rw [Nat.mul_comm]
      lia
    · have hlt := mod_lt (gaps sparse p) hn
      rw [Nat.succ_mul, Nat.mul_comm]
      lia
  rw [h _ (by lia), Nat.sub_add_cancel hle, hquot]

end Place

/-! ## Gathering -/

variable {x sparse mask y : BitVec w} {stage n : ℕ}

/-- A word whose bits under the mask have moved to their places, with zeros elsewhere. -/
structure Moved (x sparse : BitVec w) (n : ℕ) (y : BitVec w) : Prop where
  bits : ∀ p, sparse.getLsbD p = true → y.getLsbD (place sparse n p) = x.getLsbD p
  only : ∀ i, y.getLsbD i = true → ∃ p, sparse.getLsbD p = true ∧ place sparse n p = i

/-- A bit that the stage does not move is not met by one that it moves. -/
theorem place_add_ne (hn : 0 < n) {p p' : ℕ} (hp : sparse.getLsbD p = true)
    (heven : gaps sparse p / n % 2 ≠ 1) (hodd : gaps sparse p' / n % 2 = 1) :
    place sparse n p' ≠ n + place sparse n p := by
  intro heq
  have hdiv := Nat.div_add_mod (gaps sparse p) n
  have hdiv' := Nat.div_add_mod (gaps sparse p') n
  have hlt := Nat.mod_lt (gaps sparse p) hn
  have hzeros := gaps_le sparse p
  rw [place, place] at heq
  have hmono := gaps_mono sparse (show p ≤ p' by lia)
  have hbetween := gaps_add_lt hp (show 0 < p' - p by lia)
  rw [Nat.add_sub_cancel' (by lia)] at hbetween
  have hle := Nat.div_le_div_right (c := n) hmono
  have hquot : n * (gaps sparse p / n + 1) ≤ n * (gaps sparse p' / n) :=
    Nat.mul_le_mul_left n (by
      rcases Nat.lt_or_eq_of_le hle with hlt | heq
      · exact hlt
      · exact absurd (heq ▸ hodd) heven)
  rw [Nat.mul_succ] at hquot
  lia

/-- **A stage of gathering** moves the bits on. -/
theorem Moved.next (h : Moved x sparse (2 ^ stage) y) (hmask : IsMask sparse mask (2 ^ stage)) :
    Moved x sparse (2 ^ (stage + 1)) (y ^^^ y &&& mask ^^^ (y &&& mask) >>> 2 ^ stage) := by
  have hn := Nat.two_pow_pos stage
  have hbit (i : ℕ) : (y ^^^ y &&& mask ^^^ (y &&& mask) >>> 2 ^ stage).getLsbD i =
      (y.getLsbD i && !mask.getLsbD i ^^
        y.getLsbD (2 ^ stage + i) && mask.getLsbD (2 ^ stage + i)) := by
    rw [getLsbD_xor, getLsbD_xor, getLsbD_ushiftRight, getLsbD_and, getLsbD_and]
    cases y.getLsbD i <;> cases mask.getLsbD i <;> rfl
  constructor
  · intro p hp
    rw [hbit, pow_succ, place_double]
    by_cases hodd : gaps sparse p / 2 ^ stage % 2 = 1
    · have hle := le_place hodd
      rw [hodd, Nat.mul_one, hmask.below hn hp hle, Nat.add_sub_cancel' hle, hmask.place hn hp,
        h.bits p hp, decide_eq_true hodd]
      simp
    rw [Nat.mod_two_ne_one.1 hodd, Nat.mul_zero, Nat.sub_zero, hmask.place hn hp, h.bits p hp,
      decide_eq_false hodd]
    have hmet : (y.getLsbD (2 ^ stage + place sparse (2 ^ stage) p) &&
        mask.getLsbD (2 ^ stage + place sparse (2 ^ stage) p)) = false := by
      by_contra hne
      rw [Bool.not_eq_false, Bool.and_eq_true] at hne
      obtain ⟨p', hp', heq⟩ := h.only _ hne.1
      have hodd' := hne.2
      rw [← heq, hmask.place hn hp', decide_eq_true_eq] at hodd'
      exact place_add_ne hn hp hodd hodd' heq
    rw [hmet]
    simp
  · intro i hi
    rw [hbit] at hi
    have hmoves (p : ℕ) : place sparse (2 ^ (stage + 1)) p = place sparse (2 ^ stage) p -
        2 ^ stage * (gaps sparse p / 2 ^ stage % 2) := place_double _
    cases hfrom : y.getLsbD (2 ^ stage + i) && mask.getLsbD (2 ^ stage + i) with
    | true =>
      rw [Bool.and_eq_true] at hfrom
      obtain ⟨p, hp, heq⟩ := h.only _ hfrom.1
      have hodd := hfrom.2
      rw [← heq, hmask.place hn hp, decide_eq_true_eq] at hodd
      exact ⟨p, hp, by rw [hmoves, hodd, Nat.mul_one, heq, Nat.add_sub_cancel_left]⟩
    | false =>
      rw [hfrom, Bool.xor_false, Bool.and_eq_true, Bool.not_eq_true'] at hi
      obtain ⟨p, hp, heq⟩ := h.only _ hi.1
      have heven := hi.2
      rw [← heq, hmask.place hn hp, decide_eq_false_iff_not] at heven
      exact ⟨p, hp, by rw [hmoves, Nat.mod_two_ne_one.1 heven, Nat.mul_zero, heq, Nat.sub_zero]⟩

/-- What gathering returns: the bits under the mask in their order, and zeros above. -/
structure Gathered (x mask y : BitVec w) : Prop where
  bits : ∀ p, mask.getLsbD p = true → y.getLsbD (rank mask p) = x.getLsbD p
  zeros : ∀ i, rank mask w ≤ i → y.getLsbD i = false

theorem rank_lt {p : ℕ} (hp : sparse.getLsbD p = true) : rank sparse p < rank sparse w :=
  count_strict_mono hp (lt_of_getLsbD hp)

theorem exists_rank {i p : ℕ} (h : i < rank sparse p) :
    ∃ q, sparse.getLsbD q = true ∧ rank sparse q = i := by
  induction p with
  | zero => exact absurd h (not_lt_zero i)
  | succ p ih =>
    by_cases hlt : i < rank sparse p
    · exact ih hlt
    · rw [rank, count_succ] at h
      rw [rank] at hlt
      split_ifs at h with hp
      · exact ⟨p, hp, by rw [rank]; lia⟩
      · exact absurd h hlt

theorem gather_bits_gathered {k : ℕ} (x mask : BitVec (2 ^ k)) :
    ∃ y, gather_bits x mask = some y ∧ Gathered x mask y := by
  obtain ⟨masks, hprepare, hmasks⟩ := prepare_spec mask
  have hinit : Moved x mask (2 ^ 0) (x &&& mask) := by
    refine ⟨fun p hp => ?_, fun i hi => ⟨i, ?_, place_one i⟩⟩
    · rw [pow_zero, place_one, getLsbD_and, hp, Bool.and_true]
    · rw [getLsbD_and, and_eq_true] at hi
      exact hi.2
  have hturn (stage : ℕ) (y : BitVec (2 ^ k)) (hstage : stage < 0 + STAGES (2 ^ k))
      (h : Moved x mask (2 ^ stage) y) :
      ∃ y', gather_turn masks y stage = some y' ∧ Moved x mask (2 ^ (stage + 1)) y' := by
    obtain ⟨m, hget, hm⟩ := hmasks stage (by rwa [zero_add] at hstage)
    exact ⟨_, by rw [gather_turn, hget]; rfl, h.next hm⟩
  obtain ⟨y, hrun, hy⟩ := foldlM_range'_spec hturn hinit
  rw [zero_add, STAGES, log2_two_pow] at hy
  refine ⟨y, by rw [gather_bits, gather_impl, hprepare]; exact hrun, fun p hp => ?_, fun i hi => ?_⟩
  · rw [← place_top hp, hy.bits p hp]
  · by_contra hne
    obtain ⟨p, hp, rfl⟩ := hy.only i (eq_true_of_not_eq_false hne)
    rw [place_top hp] at hi
    exact absurd (rank_lt hp) (not_lt.2 hi)

/-! ## Scattering -/

/-- **A stage of scattering** takes the bits back. -/
theorem scatter_stage (hmask : IsMask sparse mask (2 ^ stage)) {b : ℕ → Bool}
    (h : ∀ p, sparse.getLsbD p = true → y.getLsbD (place sparse (2 ^ (stage + 1)) p) = b p) (p : ℕ)
    (hp : sparse.getLsbD p = true) :
    (y ^^^ y &&& mask ^^^ (y &&& mask) <<< 2 ^ stage).getLsbD (place sparse (2 ^ stage) p) =
      b p := by
  have hn := Nat.two_pow_pos stage
  have hbit := h p hp
  have hw : place sparse (2 ^ stage) p < w :=
    (Nat.sub_le _ _).trans_lt (lt_of_getLsbD hp)
  rw [pow_succ, place_double] at hbit
  rw [getLsbD_xor, getLsbD_xor, getLsbD_shiftLeft, getLsbD_and,
    getLsbD_and, hmask.place hn hp, decide_eq_true hw]
  by_cases hodd : gaps sparse p / 2 ^ stage % 2 = 1
  · have hle := le_place hodd
    rw [hodd, Nat.mul_one] at hbit
    rw [hmask.below hn hp hle, hbit, decide_eq_true hodd, decide_eq_false (Nat.not_lt.2 hle)]
    simp
  · rw [Nat.mod_two_ne_one.1 hodd, Nat.mul_zero, Nat.sub_zero] at hbit
    rw [hbit, decide_eq_false hodd]
    by_cases hle : 2 ^ stage ≤ place sparse (2 ^ stage) p
    · rw [hmask.below hn hp hle, decide_eq_false hodd]
      simp
    · rw [decide_eq_true (Nat.not_le.1 hle)]
      simp

theorem scatter_loop_spec {masks : List (BitVec w)} {b : ℕ → Bool}
    (hmasks : ∀ j < stage, ∃ mask, masks[j]? = some mask ∧ IsMask sparse mask (2 ^ j))
    (h : ∀ p, sparse.getLsbD p = true → x.getLsbD (place sparse (2 ^ stage) p) = b p) :
    ∃ y, scatter_loop masks stage x = some y ∧
      ∀ p, sparse.getLsbD p = true → y.getLsbD p = b p := by
  induction stage generalizing x with
  | zero => exact ⟨x, rfl, fun p hp => by simpa only [pow_zero, place_one] using h p hp⟩
  | succ stage ih =>
    obtain ⟨mask, hget, hmask⟩ := hmasks stage (lt_succ_self stage)
    obtain ⟨y, hrun, hy⟩ := ih (fun j hj => hmasks j (hj.trans (lt_succ_self stage)))
      (scatter_stage hmask h)
    exact ⟨y, by rw [scatter_loop_succ, hget, Option.bind_some, hrun], hy⟩

/-- What scattering returns: the low bits in their order under the mask, and zeros elsewhere. -/
def Scattered (x mask y : BitVec w) : Prop :=
  ∀ p, y.getLsbD p = (mask.getLsbD p && x.getLsbD (rank mask p))

theorem scatter_bits_scattered {k : ℕ} (x mask : BitVec (2 ^ k)) :
    ∃ y, scatter_bits x mask = some y ∧ Scattered x mask y := by
  obtain ⟨masks, hprepare, hmasks⟩ := prepare_spec mask
  obtain ⟨y, hrun, hy⟩ := scatter_loop_spec (x := x) hmasks
    (b := fun p => x.getLsbD (rank mask p)) fun p hp => by
      rw [STAGES, Nat.log2_two_pow, place_top hp]
  refine ⟨y &&& mask, ?_, fun p => ?_⟩
  · rw [scatter_bits, scatter_impl, hprepare, some_bind, hrun]
    rfl
  rw [getLsbD_and, Bool.and_comm]
  cases hp : mask.getLsbD p with
  | true => rw [hy p hp]
  | false => rfl

/-- **`gather_bits`** packs the bits under the mask at the low end, with zeros above them, and
**`scatter_bits`** puts the low bits under the mask, with zeros elsewhere. Each of them undoes the
other, up to the bits that it leaves out. -/
theorem gather_and_scatter {k : ℕ} (x mask : BitVec (2 ^ k)) :
    (∃ y, gather_bits x mask = some y ∧ Gathered x mask y ∧
      scatter_bits y mask = some (x &&& mask)) ∧
    ∃ y, scatter_bits x mask = some y ∧ Scattered x mask y ∧
      gather_bits y mask = some (BitVec.ofNat _ (x.toNat % 2 ^ rank mask (2 ^ k))) := by
  constructor
  · obtain ⟨y, hy, hgathered⟩ := gather_bits_gathered x mask
    obtain ⟨z, hz, hscattered⟩ := scatter_bits_scattered y mask
    refine ⟨y, hy, hgathered, hz.trans (congrArg some (eq_of_getLsbD_eq fun p _ => ?_))⟩
    rw [hscattered, getLsbD_and, Bool.and_comm]
    cases hp : mask.getLsbD p with
    | true => rw [hgathered.bits p hp]
    | false => rw [Bool.and_false, Bool.and_false]
  · obtain ⟨y, hy, hscattered⟩ := scatter_bits_scattered x mask
    obtain ⟨z, hz, hgathered⟩ := gather_bits_gathered y mask
    refine ⟨y, hy, hscattered, hz.trans (congrArg some (eq_of_getLsbD_eq fun i hi => ?_))⟩
    rw [getLsbD_ofNat, Nat.testBit_mod_two_pow, decide_eq_true hi, Bool.true_and]
    by_cases hlow : i < rank mask (2 ^ k)
    · obtain ⟨p, hp, rfl⟩ := exists_rank hlow
      rw [hgathered.bits p hp, hscattered, hp, decide_eq_true hlow]
      rfl
    · rw [hgathered.zeros i (Nat.not_lt.1 hlow), decide_eq_false hlow, Bool.false_and]

end RustStd.IntBits
