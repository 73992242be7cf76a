import Mathlib.Data.Nat.Digits.Defs
import RustStd.Foundations.Loop
import RustStd.Foundations.Word

/-!
# SipHash

The hashers of `core/src/hash/sip.rs`. A word of 64 bits is a `BitVec 64`. A load outside of the
slice and an assertion that does not hold are faults.

What they are to return is stated apart from them: `siphash` is SipHash-c-d of a whole message, with
its own constants, its own padding and its own words. Between the two stands `Represents`: a hasher
keeps the state after the whole words of its message and the bytes behind them.
-/

namespace RustStd.SipHash

open List Nat

/-! ## The code -/

abbrev U64 := BitVec 64

structure State where
  v0 : U64
  v2 : U64
  v1 : U64
  v3 : U64

def compress (state : State) : State :=
  let v0 := state.v0 + state.v1
  let v2 := state.v2 + state.v3
  let v1 := state.v1.rotateLeft 13 ^^^ v0
  let v3 := state.v3.rotateLeft 16 ^^^ v2
  let v0 := v0.rotateLeft 32
  let v2 := v2 + v1
  let v0 := v0 + v3
  let v1 := v1.rotateLeft 17 ^^^ v2
  let v3 := v3.rotateLeft 21 ^^^ v0
  let v2 := v2.rotateLeft 32
  ⟨v0, v2, v1, v3⟩

structure Sip where
  c_rounds : State → State
  d_rounds : State → State

def Sip13Rounds : Sip := ⟨compress, fun state => compress (compress (compress state))⟩

def Sip24Rounds : Sip where
  c_rounds state := compress (compress state)
  d_rounds state := compress (compress (compress (compress state)))

/-- The word of bytes in little-endian order. -/
def to_le : List UInt8 → U64
  | [] => 0
  | b :: bs => b.toBitVec.setWidth 64 ||| to_le bs <<< 8

/-- `load_int_le!` for an integer of `size` bytes, as `u64`. -/
def load_int_le (buf : List UInt8) (i size : ℕ) : Option U64 :=
  if i + size ≤ buf.length then some (to_le ((buf.drop i).take size)) else none

/-- The part of `u8to64_le` that loads `size` bytes when so many are left. -/
def load_part (buf : List UInt8) (start len size : ℕ) (s : U64 × ℕ) : Option (U64 × ℕ) :=
  let (out, i) := s
  if i + (size - 1) < len then do
    return (out ||| (← load_int_le buf (start + i) size) <<< (i * 8), i + size)
  else some (out, i)

def u8to64_le (buf : List UInt8) (start len : ℕ) : Option U64 :=
  if len < 8 then do
    let s ← load_part buf start len 4 (0, 0)
    let s ← load_part buf start len 2 s
    let (out, i) ← load_part buf start len 1 s
    if i = len then some out else none
  else none

structure Hasher where
  k0 : U64
  k1 : U64
  length : ℕ
  state : State
  tail : U64
  ntail : ℕ

def reset (self : Hasher) : Hasher :=
  { self with
    length := 0
    state := {
      v0 := self.k0 ^^^ 0x736f6d6570736575
      v1 := self.k1 ^^^ 0x646f72616e646f6d
      v2 := self.k0 ^^^ 0x6c7967656e657261
      v3 := self.k1 ^^^ 0x7465646279746573 }
    ntail := 0 }

def new_with_keys (key0 key1 : U64) : Hasher := reset ⟨key0, key1, 0, ⟨0, 0, 0, 0⟩, 0, 0⟩

section
variable (t : Target) (S : Sip) (self : Hasher) (msg : List UInt8)

/-- A word goes into the state. -/
def absorb (state : State) (m : U64) : State :=
  let state := S.c_rounds { state with v3 := state.v3 ^^^ m }
  { state with v0 := state.v0 ^^^ m }

/-- A turn of the loop over the words, up to `stop`. -/
def write_turn (stop : ℕ) (s : State × ℕ) : Option (Turn (State × ℕ) (State × ℕ)) :=
  let (state, i) := s
  if i < stop then do
    let mi ← load_int_le msg i 8
    some (.again (absorb S state mi, i + 8))
  else some (.done s)

/-- `write` after the buffered tail is flushed. -/
def write_rest (needed : ℕ) : Option Hasher := do
  let len ← checkedSub msg.length needed
  let left := len % 8
  let (state, i) ← runLoop (write_turn S msg (len - left)) (msg.length + 1) (self.state, needed)
  return { self with state, tail := ← u8to64_le msg i left, ntail := left }

def write : Option Hasher :=
  let length := msg.length
  let self := { self with length := t.wrap (self.length + length) }
  if self.ntail ≠ 0 then do
    let needed ← checkedSub 8 self.ntail
    let tail := self.tail ||| (← u8to64_le msg 0 (min length needed)) <<< (8 * self.ntail)
    if length < needed then some { self with tail, ntail := self.ntail + length }
    else write_rest S { self with state := absorb S self.state tail, tail, ntail := 0 } msg needed
  else write_rest S self msg 0

def write_str (s : List UInt8) : Option Hasher := do write t S (← write t S self s) [0xFF]

def finish : U64 :=
  let b := (BitVec.ofNat 64 self.length &&& 0xff) <<< 56 ||| self.tail
  let state := absorb S self.state b
  let state := S.d_rounds { state with v2 := state.v2 ^^^ 0xff }
  state.v0 ^^^ state.v1 ^^^ state.v2 ^^^ state.v3

end

/-- A call on a hasher. -/
inductive Op
  | write (msg : List UInt8)
  | write_str (s : List UInt8)
  | finish

/-- The calls one after another, with what `finish` returns. -/
def run (t : Target) (S : Sip) : List Op → Hasher → Option (List U64 × Hasher)
  | [], self => some ([], self)
  | .write msg :: ops, self => do run t S ops (← write t S self msg)
  | .write_str s :: ops, self => do run t S ops (← write_str t S self s)
  | .finish :: ops, self => do
    let (hashes, self') ← run t S ops self
    return (finish S self :: hashes, self')

/-! ## The hash of a message -/

/-- The round of SipHash. -/
def sip_round : State → State
  | ⟨v0, v2, v1, v3⟩ =>
    let v0 := v0 + v1
    let v1 := v1.rotateLeft 13 ^^^ v0
    let v0 := v0.rotateLeft 32
    let v2 := v2 + v3
    let v3 := v3.rotateLeft 16 ^^^ v2
    let v0 := v0 + v3
    let v3 := v3.rotateLeft 21 ^^^ v0
    let v2 := v2 + v1
    let v1 := v1.rotateLeft 17 ^^^ v2
    let v2 := v2.rotateLeft 32
    ⟨v0, v2, v1, v3⟩

/-- A word by its digits to the base 256, the least one first. -/
def le_word (bytes : List ℕ) : U64 := BitVec.ofNat 64 (ofDigits 256 bytes)

/-- A word by its letters, the first one highest. -/
def ascii_word (letters : List Char) : U64 := le_word (letters.reverse.map Char.toNat)

/-- The state that the key alone makes: the constants read `somepseudorandomlygeneratedbytes`. -/
def initial_state (k0 k1 : U64) : State where
  v0 := k0 ^^^ ascii_word ['s', 'o', 'm', 'e', 'p', 's', 'e', 'u']
  v1 := k1 ^^^ ascii_word ['d', 'o', 'r', 'a', 'n', 'd', 'o', 'm']
  v2 := k0 ^^^ ascii_word ['l', 'y', 'g', 'e', 'n', 'e', 'r', 'a']
  v3 := k1 ^^^ ascii_word ['t', 'e', 'd', 'b', 'y', 't', 'e', 's']

/-- A message made up to whole words: zeros, and its length modulo 256 as the last byte. -/
def padded (m : List UInt8) : List UInt8 :=
  m ++ replicate (7 - m.length % 8) 0 ++ [.ofNat m.length]

/-- The words of a padded message. -/
def words (p : List UInt8) : List U64 :=
  (range (p.length / 8)).map fun j => le_word (((p.drop (8 * j)).take 8).map UInt8.toNat)

section
variable (c d : ℕ) (k0 k1 : U64) (m : List UInt8)

/-- A word is put into `v3` before its `c` rounds and into `v0` behind them. -/
def sip_word (state : State) (w : U64) : State :=
  let ⟨v0, v2, v1, v3⟩ := sip_round^[c] ⟨state.v0, state.v2, state.v1, state.v3 ^^^ w⟩
  ⟨v0 ^^^ w, v2, v1, v3⟩

/-- **SipHash-c-d** of a message at once: `c` rounds for each word of the padded message, and `d` at
the end. -/
def siphash : U64 :=
  let ⟨v0, v2, v1, v3⟩ := (words (padded m)).foldl (sip_word c) (initial_state k0 k1)
  let ⟨v0, v2, v1, v3⟩ := sip_round^[d] ⟨v0, v2 ^^^ 0xff, v1, v3⟩
  v0 ^^^ v1 ^^^ v2 ^^^ v3

/-- The hashes that calls are to return, and the message behind them. -/
def expected : List UInt8 → List Op → List U64 × List UInt8
  | m, [] => ([], m)
  | m, .write msg :: ops => expected (m ++ msg) ops
  | m, .write_str s :: ops => expected (m ++ s ++ [0xFF]) ops
  | m, .finish :: ops => (siphash c d k0 k1 m :: (expected m ops).1, (expected m ops).2)

end

/-! ## What the code keeps of it -/

/-- `c` rounds for a word and `d` at the end. -/
def rounds (c d : ℕ) : Sip := ⟨sip_round^[c], sip_round^[d]⟩

/-- The `j`-th word of a message. -/
def word (m : List UInt8) (j : ℕ) : U64 := to_le ((m.drop (8 * j)).take 8)

/-- The word of the bytes behind the last whole word, with the length above. -/
def last_word (m : List UInt8) : U64 :=
  BitVec.ofNat 64 (m.length % 256) <<< 56 ||| to_le (m.drop (8 * (m.length / 8)))

/-- The state after `q` words of a message. -/
def compressed (S : Sip) (k0 k1 : U64) (m : List UInt8) (q : ℕ) : State :=
  (range q).foldl (fun state j => absorb S state (word m j)) (new_with_keys k0 k1).state

/-! ## Partial loads -/

theorem to_le_append (xs ys : List UInt8) :
    to_le (xs ++ ys) = to_le xs ||| to_le ys <<< (8 * xs.length) := by
  induction xs with
  | nil => simp [to_le]
  | cons x xs ih =>
    rw [cons_append, to_le, to_le, ih, BitVec.shiftLeft_or_distrib, BitVec.or_assoc, length_cons,
      mul_succ, BitVec.shiftLeft_add]

/-- Loaded bytes make the word that they stand for. -/
theorem to_le_eq (bs : List UInt8) : to_le bs = le_word (bs.map UInt8.toNat) := by
  induction bs with
  | nil => rfl
  | cons b bs ih =>
    have hdisj : b.toBitVec.setWidth 64 &&& to_le bs <<< 8 = 0 := by
      apply BitVec.eq_of_getLsbD_eq
      intro i hi
      by_cases h8 : i < 8
      · simp [h8]
      · simp [BitVec.getLsbD_of_ge b.toBitVec i (not_lt.mp h8)]
    have hbyte : b.toBitVec.setWidth 64 = BitVec.ofNat 64 b.toNat := by
      apply BitVec.eq_of_toNat_eq
      simp
    rw [to_le, ← BitVec.add_eq_or_of_and_eq_zero _ _ hdisj, hbyte, ih, map_cons, le_word, le_word,
      ofDigits_cons, BitVec.ofNat_add, BitVec.ofNat_mul, BitVec.shiftLeft_eq_mul_twoPow,
      BitVec.mul_comm]
    rfl

theorem load_part_spec {buf : List UInt8} {start len size i : ℕ}
    (hbuf : start + len ≤ buf.length) (hsize : 0 < size) :
    load_part buf start len size (to_le ((buf.drop start).take i), i) =
      let i' := if i + (size - 1) < len then i + size else i
      some (to_le ((buf.drop start).take i'), i') := by
  unfold load_part
  dsimp only
  split
  · rw [load_int_le, if_pos (by lia), take_add, drop_drop, to_le_append, length_take,
      length_drop, min_eq_left (by lia), mul_comm i]
    rfl
  · rfl

theorem u8to64_le_eq {buf : List UInt8} {start len : ℕ} (hlen : len < 8)
    (hbuf : start + len ≤ buf.length) :
    u8to64_le buf start len = some (to_le ((buf.drop start).take len)) := by
  rw [u8to64_le, if_pos hlen, show (0 : U64) = to_le ((buf.drop start).take 0) from rfl,
    load_part_spec hbuf (show 0 < 4 by decide), some_bind,
    load_part_spec hbuf (show 0 < 2 by decide), some_bind,
    load_part_spec hbuf one_pos, some_bind]
  have hend : ∀ i, i = len → (if i = len then some (to_le ((buf.drop start).take i)) else none) =
      some (to_le ((buf.drop start).take len)) := by
    rintro i rfl
    exact if_pos rfl
  exact hend _ (by split_ifs <;> lia)

/-! ## The state behind the words of a message -/

section
variable {S : Sip} {k0 k1 : U64} {m msg : List UInt8}

theorem word_append {j : ℕ} (h : 8 * (j + 1) ≤ m.length) : word (m ++ msg) j = word m j := by
  rw [word, word, drop_append_of_le_length (by lia), take_append_of_le_length]
  rw [length_drop]
  lia

/-- The words behind a message. -/
theorem word_drop {j i : ℕ} (h : 8 * j = m.length + i) :
    word (m ++ msg) j = to_le ((msg.drop i).take 8) := by
  rw [word, h, ← drop_drop, drop_left]

theorem compressed_succ (q : ℕ) :
    compressed S k0 k1 m (q + 1) = absorb S (compressed S k0 k1 m q) (word m q) := by
  rw [compressed, range_succ, foldl_append]
  rfl

theorem compressed_append {q : ℕ} (h : 8 * q ≤ m.length) :
    compressed S k0 k1 (m ++ msg) q = compressed S k0 k1 m q := by
  induction q with
  | zero => rfl
  | succ q ih => rw [compressed_succ, compressed_succ, ih (by lia), word_append h]

end

/-! ## The words of the padded message -/

theorem to_le_zeros (z : ℕ) : to_le (replicate z 0) = 0 := by
  induction z with
  | zero => rfl
  | succ z ih => simp [replicate_succ, to_le, ih]

theorem length_padded (m : List UInt8) : (padded m).length = 8 * (m.length / 8 + 1) := by
  simp only [padded, length_append, length_replicate, length_singleton]
  lia

/-- The padding leaves a word of its own, even behind whole words. -/
theorem word_padded_last (m : List UInt8) : word (padded m) (m.length / 8) = last_word m := by
  have hlen := length_padded m
  have hbyte : to_le [UInt8.ofNat m.length] = BitVec.ofNat 64 (m.length % 256) := by
    rw [to_le_eq, le_word, map_singleton, ofDigits_singleton, UInt8.toNat_ofNat']
  rw [word, take_of_length_le (by rw [length_drop]; lia), padded, append_assoc,
    drop_append_of_le_length (by lia), to_le_append, to_le_append, to_le_zeros, hbyte,
    length_replicate, length_drop, last_word, BitVec.or_comm]
  refine congrArg (· ||| _) ?_
  -- the zeros and the bytes before them are seven
  rw [BitVec.ofNat_eq_ofNat, BitVec.zero_or, ← BitVec.shiftLeft_add]
  congr 1
  lia

/-- The words of the padded message are those that the code takes. -/
theorem words_padded (m : List UInt8) :
    words (padded m) = (range (m.length / 8)).map (word m) ++ [last_word m] := by
  have hword (j : ℕ) : le_word (((padded m).drop (8 * j)).take 8 |>.map UInt8.toNat) =
      word (padded m) j := (to_le_eq _).symm
  simp only [words, length_padded, hword, Nat.mul_div_cancel_left _ (show 0 < 8 by decide),
    range_succ, map_append, map_singleton, word_padded_last]
  congr 1
  refine map_congr_left fun j hj => ?_
  rw [mem_range] at hj
  rw [padded, append_assoc, word_append (by lia)]

/-! ## The calls -/

section
variable {t : Target} {S : Sip} {k0 k1 : U64} {m msg : List UInt8} {self : Hasher}

/-- What a hasher keeps of the message written so far. -/
structure Represents (t : Target) (S : Sip) (k0 k1 : U64) (m : List UInt8) (hasher : Hasher) :
    Prop where
  length : hasher.length = t.wrap m.length
  state : hasher.state = compressed S k0 k1 m (m.length / 8)
  tail : hasher.tail = to_le (m.drop (8 * (m.length / 8)))
  ntail : hasher.ntail = m.length % 8

theorem represents_new : Represents t S k0 k1 [] (new_with_keys k0 k1) :=
  ⟨(zero_mod _).symm, rfl, rfl, rfl⟩

variable (S k0 k1) in
/-- The loop takes the words of the message that begin in this piece. -/
theorem write_loop_spec {needed : ℕ} (hneeded : needed < 8) (hle : needed ≤ msg.length)
    (h8 : (m.length + needed) % 8 = 0) :
    ∃ s, runLoop (write_turn S msg (msg.length - needed - (msg.length - needed) % 8))
      (msg.length + 1) (compressed S k0 k1 (m ++ msg) ((m.length + needed) / 8), needed) = some s ∧
      s = (compressed S k0 k1 (m ++ msg) ((m.length + msg.length) / 8),
        msg.length - (msg.length - needed) % 8) := by
  refine runLoop_spec _ (fun s => needed ≤ s.2 ∧ (m.length + s.2) % 8 = 0 ∧
    s.2 ≤ msg.length - (msg.length - needed) % 8 ∧
    s.1 = compressed S k0 k1 (m ++ msg) ((m.length + s.2) / 8)) (fun s => msg.length - s.2) _ ?_
    _ _ ⟨le_rfl, h8, by lia, rfl⟩ (by dsimp only; lia)
  rintro ⟨state, i⟩ ⟨hi, hi8, hstop, hstate⟩
  dsimp only at hi hi8 hstop hstate
  unfold write_turn
  dsimp only
  split
  · rw [load_int_le, if_pos (by lia), some_bind]
    refine ⟨⟨by dsimp only; lia, by dsimp only; lia, by dsimp only; lia, ?_⟩,
      by dsimp only; lia⟩
    dsimp only
    rw [hstate, show (m.length + (i + 8)) / 8 = (m.length + i) / 8 + 1 by lia,
      compressed_succ, word_drop (show _ = m.length + i by lia)]
  · have hend : i = msg.length - (msg.length - needed) % 8 := by lia
    show (state, i) = _
    rw [hstate, show (m.length + i) / 8 = (m.length + msg.length) / 8 by lia, hend]

/-- What is written after the tail begins at a word of the message. -/
theorem write_rest_spec {needed : ℕ} (hneeded : needed < 8) (hle : needed ≤ msg.length)
    (h8 : (m.length + needed) % 8 = 0) (hlength : self.length = t.wrap (m ++ msg).length)
    (hstate : self.state = compressed S k0 k1 (m ++ msg) ((m.length + needed) / 8)) :
    ∃ h, write_rest S self msg needed = some h ∧ Represents t S k0 k1 (m ++ msg) h := by
  have hlen : (m ++ msg).length = m.length + msg.length := length_append
  obtain ⟨_, hloop, rfl⟩ := write_loop_spec S k0 k1 hneeded hle h8
  rw [write_rest, checkedSub_eq hle, some_bind, hstate]
  dsimp only
  rw [hloop, some_bind, ← hlen]
  dsimp only
  rw [u8to64_le_eq (by lia) (by lia), some_bind]
  refine ⟨_, rfl, hlength, rfl, ?_, by dsimp only; lia⟩
  dsimp only
  rw [show 8 * ((m ++ msg).length / 8) = m.length + (msg.length - (msg.length - needed) % 8) by
    lia, ← drop_drop, drop_left, take_of_length_le]
  rw [length_drop]
  lia

/-- A write continues the message wherever the tail left it. -/
theorem write_spec (h : Represents t S k0 k1 m self) (msg : List UInt8) :
    ∃ h', write t S self msg = some h' ∧ Represents t S k0 k1 (m ++ msg) h' := by
  have hlen : (m ++ msg).length = m.length + msg.length := length_append
  have hlength : t.wrap (self.length + msg.length) = t.wrap (m ++ msg).length := by
    rw [h.length, hlen, Target.wrap, Target.wrap, Target.wrap, mod_add_mod]
  have hn := h.ntail
  unfold write
  dsimp only
  split
  · rename_i h0
    rw [checkedSub_eq (by lia), some_bind, u8to64_le_eq (by lia) (by lia), some_bind,
      drop_zero]
    -- the tail with what is written behind it
    have htail : self.tail ||| to_le (msg.take (min msg.length (8 - self.ntail))) <<<
        (8 * self.ntail) =
        to_le (m.drop (8 * (m.length / 8)) ++ msg.take (min msg.length (8 - self.ntail))) := by
      rw [to_le_append, h.tail, length_drop, show m.length - 8 * (m.length / 8) = self.ntail by
        lia]
    rw [htail]
    split
    · rename_i hshort
      have hq : (m ++ msg).length / 8 = m.length / 8 := by lia
      refine ⟨_, rfl, hlength, ?_, ?_, by dsimp only; lia⟩
      · rw [hq, compressed_append (by lia)]
        exact h.state
      · dsimp only
        rw [hq, drop_append_of_le_length (by lia), take_of_length_le (by lia)]
    · refine write_rest_spec (by lia) (by lia) (by lia) hlength ?_
      dsimp only
      rw [show (m.length + (8 - self.ntail)) / 8 = m.length / 8 + 1 by lia, compressed_succ,
        compressed_append (by lia), h.state, word, drop_append_of_le_length (by lia),
        take_append, length_drop, min_eq_right (by lia),
        take_of_length_le (l := m.drop _) (by rw [length_drop]; lia)]
      congr 4
      lia
  · refine write_rest_spec (by decide) (zero_le _) (by lia) hlength ?_
    rw [add_zero, compressed_append (by lia)]
    exact h.state

theorem finish_spec {c d : ℕ} (h : Represents t (rounds c d) k0 k1 m self) :
    finish (rounds c d) self = siphash c d k0 k1 m := by
  have hlow : BitVec.ofNat 64 self.length &&& 0xff = BitVec.ofNat 64 (m.length % 256) := by
    have hdvd : 256 ∣ t.usizeCard :=
      Nat.pow_dvd_pow 2 (Nat.le_mul_of_pos_right 8 t.usizeBytes_pos : 8 ≤ 8 * t.usizeBytes)
    apply BitVec.eq_of_toNat_eq
    rw [h.length, Target.wrap, BitVec.toNat_and, BitVec.toNat_ofNat, BitVec.toNat_ofNat,
      show (0xff : U64).toNat = 2 ^ 8 - 1 from rfl, and_two_pow_sub_one_eq_mod,
      mod_mod_of_dvd _ (by decide), mod_mod_of_dvd _ hdvd]
    lia
  have hstate : (words (padded m)).foldl (sip_word c) (initial_state k0 k1) =
      absorb (rounds c d) self.state (last_word m) := by
    rw [words_padded, foldl_append, foldl_map, h.state]
    rfl
  rw [finish, siphash, hlow, h.tail, ← last_word, hstate]
  rfl

theorem run_spec {c d : ℕ} (ops : List Op) (h : Represents t (rounds c d) k0 k1 m self) :
    ∃ h', run t (rounds c d) ops self = some ((expected c d k0 k1 m ops).1, h') ∧
      Represents t (rounds c d) k0 k1 (expected c d k0 k1 m ops).2 h' := by
  induction ops generalizing m self with
  | nil => exact ⟨self, rfl, h⟩
  | cons op ops ih =>
    cases op with
    | write msg =>
      obtain ⟨h1, hwrite, hrep⟩ := write_spec h msg
      rw [run, hwrite]
      exact ih hrep
    | write_str s =>
      obtain ⟨h1, hwrite, hrep⟩ := write_spec h s
      obtain ⟨h2, hbyte, hrep2⟩ := write_spec hrep [0xFF]
      rw [run, write_str, hwrite, some_bind, hbyte]
      exact ih hrep2
    | finish =>
      obtain ⟨h1, hrun, hrep⟩ := ih h
      rw [run, hrun, finish_spec h]
      exact ⟨h1, rfl, hrep⟩

end

/-- **The hashers hash their message as a whole**, however it is cut: no load and no subtraction of
`write` faults, every `finish` returns the hash of what is written before it, and the tail stays
shorter than a word. -/
theorem sip_hasher_streams (t : Target) (k0 k1 : U64) (ops : List Op) :
    (∃ self, run t Sip13Rounds ops (new_with_keys k0 k1) =
        some ((expected 1 3 k0 k1 [] ops).1, self) ∧
      finish Sip13Rounds self = siphash 1 3 k0 k1 (expected 1 3 k0 k1 [] ops).2 ∧
      self.ntail < 8) ∧
    ∃ self, run t Sip24Rounds ops (new_with_keys k0 k1) =
        some ((expected 2 4 k0 k1 [] ops).1, self) ∧
      finish Sip24Rounds self = siphash 2 4 k0 k1 (expected 2 4 k0 k1 [] ops).2 ∧
      self.ntail < 8 := by
  rw [show Sip13Rounds = rounds 1 3 from rfl, show Sip24Rounds = rounds 2 4 from rfl]
  obtain ⟨h13, hrun13, hrep13⟩ :=
    run_spec ops (represents_new : Represents t (rounds 1 3) k0 k1 [] _)
  obtain ⟨h24, hrun24, hrep24⟩ :=
    run_spec ops (represents_new : Represents t (rounds 2 4) k0 k1 [] _)
  exact ⟨⟨h13, hrun13, finish_spec hrep13, hrep13.ntail ▸ mod_lt _ (by decide)⟩,
    h24, hrun24, finish_spec hrep24, hrep24.ntail ▸ mod_lt _ (by decide)⟩

/-- A vector of the tests. -/
example : siphash 2 4 0x0706050403020100 0x0f0e0d0c0b0a0908 ((range 15).map UInt8.ofNat) =
    0xa129ca6149be45e5 := by
  decide +kernel

end RustStd.SipHash
