import RustStd.Str.CharIter
import RustStd.Str.Searcher

/-!
# Searching a string for a char

`CharSearcher` of `core/src/str/pattern.rs`, over `memchr` and `memrchr`. `next_match` looks for the
last byte of the encoding only, and then compares the bytes before it; the finger may stand inside
a char meanwhile. A slice index out of range, or a finger that is no boundary where the code relies
on one, ends with `none`.

`searcher_agrees`: every sequence of calls from both ends is answered as by a searcher that goes
through the chars of the window one at a time.
-/

namespace RustStd

open DoubleEnded Utf8 StrIter List Nat Option
open CharIndices (indices)

/-! ## The code -/

structure CharSearcher where
  haystack : List UInt8
  finger : ℕ
  finger_back : ℕ
  needle : Char
  utf8_size : ℕ
  utf8_encoded : List UInt8
  deriving DecidableEq

namespace CharSearcher

/-- `char::MAX_LEN_UTF8` -/
def MAX_LEN_UTF8 : ℕ := 4

def into_searcher (self : Char) (haystack : List UInt8) : CharSearcher :=
  let encoded := String.utf8EncodeChar self
  { haystack
    finger := 0
    finger_back := haystack.length
    needle := self
    utf8_size := encoded.length
    utf8_encoded := encoded ++ replicate (MAX_LEN_UTF8 - encoded.length) 0 }

/-- `get(i..j)` of a slice -/
def get (l : List UInt8) (i j : ℕ) : Option (List UInt8) :=
  if i ≤ j ∧ j ≤ l.length then some ((l.drop i).take (j - i)) else none

/-- `get_unchecked(i..j)` of a string -/
def get_unchecked (l : List UInt8) (i j : ℕ) : Option (List UInt8) :=
  if is_char_boundary l i ∧ is_char_boundary l j then get l i j else none

def next (self : CharSearcher) : Option (SearchStep × CharSearcher) := do
  let old_finger := self.finger
  let slice ← get_unchecked self.haystack old_finger self.finger_back
  let old_len := slice.length
  match ← StrIter.Chars.next slice with
  | (some ch, iter) =>
    let finger := self.finger + (← checkedSub old_len iter.length)
    if ch = self.needle then return (.Match old_finger finger, { self with finger })
    else return (.Reject old_finger finger, { self with finger })
  | (none, _) => return (.Done, self)

def next_back (self : CharSearcher) : Option (SearchStep × CharSearcher) := do
  let old_finger := self.finger_back
  let slice ← get_unchecked self.haystack self.finger old_finger
  let old_len := slice.length
  match ← StrIter.Chars.next_back slice with
  | (some ch, iter) =>
    let finger_back ← checkedSub self.finger_back (← checkedSub old_len iter.length)
    if ch = self.needle then return (.Match finger_back old_finger, { self with finger_back })
    else return (.Reject finger_back old_finger, { self with finger_back })
  | (none, _) => return (.Done, self)

/-- `self.utf8_encoded.get_unchecked(self.utf8_size() - 1)` -/
def last_byte (self : CharSearcher) : Option UInt8 := do
  self.utf8_encoded[(← checkedSub self.utf8_size 1)]?

/-- Whether the needle stands between two indices. -/
def matched (self : CharSearcher) (i j : ℕ) : Option Bool :=
  match get self.haystack i j with
  | some slice => do return slice = (← slice_to self.utf8_encoded self.utf8_size)
  | none => some false

section Search

variable (t : Target) (addr : ℕ) (constEval : Bool)

/-- A turn of the loop of `next_match`, with the finger. The haystack is at the address `addr`. -/
def next_match_turn (self : CharSearcher) (finger : ℕ) : Option (Turn ℕ (Option (ℕ × ℕ) × ℕ)) :=
  match get self.haystack finger self.finger_back with
  | none => some (.done (none, finger))
  | some bytes => do
    match ← Memchr.memchr t (← self.last_byte) (addr + finger) bytes constEval with
    | some index =>
      let finger := finger + (index + 1)
      if finger ≥ self.utf8_size then
        let found_char := finger - self.utf8_size
        if ← self.matched found_char finger then return .done (some (found_char, finger), finger)
        else return .again finger
      else return .again finger
    | none => return .done (none, self.finger_back)

def next_match (self : CharSearcher) : Option (Option (ℕ × ℕ) × CharSearcher) := do
  let (r, finger) ← runLoop (next_match_turn t addr constEval self) (self.haystack.length + 1)
    self.finger
  return (r, { self with finger })

/-- A turn of the loop of `next_match_back`, with the finger at the back. -/
def next_match_back_turn (self : CharSearcher) (finger_back : ℕ) :
    Option (Turn ℕ (Option (ℕ × ℕ) × ℕ)) :=
  match get self.haystack self.finger finger_back with
  | none => some (.done (none, finger_back))
  | some bytes => do
    match ← Memchr.memrchr t (← self.last_byte) (addr + self.finger) bytes with
    | some index =>
      let index := self.finger + index
      let shift ← checkedSub self.utf8_size 1
      if index ≥ shift then
        let found_char := index - shift
        if ← self.matched found_char (found_char + self.utf8_size) then
          return .done (some (found_char, found_char + self.utf8_size), found_char)
        else return .again index
      else return .again index
    | none => return .done (none, self.finger)

def next_match_back (self : CharSearcher) : Option (Option (ℕ × ℕ) × CharSearcher) := do
  let (r, finger_back) ← runLoop (next_match_back_turn t addr self) (self.haystack.length + 1)
    self.finger_back
  return (r, { self with finger_back })

/-- A call at an end. -/
def call : End × Call → CharSearcher → Option (Outcome × CharSearcher)
  | (.front, .next), s => (next s).map fun (a, s) => (.step a, s)
  | (.front, .next_match), s => (next_match t addr constEval s).map fun (a, s) => (.found a, s)
  | (.back, .next), s => (next_back s).map fun (a, s) => (.step a, s)
  | (.back, .next_match), s => (next_match_back t addr s).map fun (a, s) => (.found a, s)

end Search

/-! ## The searcher that goes char by char -/

/-- The range of a char at its offset. -/
def range (x : ℕ × Char) : ℕ × ℕ := (x.1, x.1 + len_utf8 x.2)

/-- The step to the next char of the window. -/
def stepOne (needle : Char) : List (ℕ × Char) → SearchStep × List (ℕ × Char)
  | [] => (.Done, [])
  | x :: l => (if x.2 = needle then .Match (range x).1 (range x).2
      else .Reject (range x).1 (range x).2, l)

/-- The steps up to the next match. -/
def stepMatch (needle : Char) : List (ℕ × Char) → Option (ℕ × ℕ) × List (ℕ × Char)
  | [] => (none, [])
  | x :: l => if x.2 = needle then (some (range x), l) else stepMatch needle l

def answer (needle : Char) : Call → List (ℕ × Char) → Outcome × List (ℕ × Char)
  | .next, l => (.step (stepOne needle l).1, (stepOne needle l).2)
  | .next_match, l => (.found (stepMatch needle l).1, (stepMatch needle l).2)

/-- What it answers at an end, and what is left of the window. -/
def reply (needle : Char) (q : End × Call) (l : List (ℕ × Char)) : Outcome × List (ℕ × Char) :=
  let (a, l) := answer needle q.2 (seenFrom q.1 l)
  (a, seenFrom q.1 l)

/-- The matches in the window. -/
def matchesIn (needle : Char) (l : List (ℕ × Char)) : List (ℕ × ℕ) :=
  (l.filter fun x => x.2 = needle).map range

/-- The matches that the calls at an end returned. -/
def returned (e : End) (qs : List (End × Call)) (outs : List Outcome) : List (ℕ × ℕ) :=
  (qs.zip outs).filterMap fun (q, out) => if q.1 = e then out.match? else none

/-! ## Occurrences of a char -/

variable {needle c : Char} {ps cs qs ds : List Char} {q : ℕ}

theorem wellFormed_encode (cs : List Char) : WellFormed (encode cs) := ⟨cs, rfl⟩

theorem encodeChar_inj
    (h : String.utf8EncodeChar c = String.utf8EncodeChar needle) : c = needle := by
  have hc := StrIter.Chars.next_encode c []
  rw [h, StrIter.Chars.next_encode] at hc
  exact (some.inj (Prod.mk.inj (some.inj hc)).1).symm

/-- The bytes at `i` are the encoding of the needle. -/
def Hit (needle : Char) (haystack : List UInt8) (i : ℕ) : Prop :=
  (haystack.drop i).take (len_utf8 needle) = String.utf8EncodeChar needle

instance (needle : Char) (haystack : List UInt8) (i : ℕ) : Decidable (Hit needle haystack i) :=
  inferInstanceAs (Decidable (_ = _))

/-- The encoding of a char stands only where the char does. -/
theorem Hit.exists_char (h : Hit needle (encode ds) q) :
    ∃ as bs, ds = as ++ needle :: bs ∧ q = (encode as).length := by
  obtain ⟨a, tl, henc, ha, -⟩ := exists_lead needle
  have hsplit := take_append_drop (len_utf8 needle) ((encode ds).drop q)
  rw [h] at hsplit
  have hpos := len_utf8_pos needle
  have hlen := congrArg length hsplit
  simp only [length_append, length_drop, ← len_utf8_eq] at hlen
  have hq : q ≤ (encode ds).length := by lia
  obtain ⟨as, bs, conts, rfl, hconts, hdrop, -⟩ := exists_cut ds hq
  rw [hdrop] at hsplit
  -- the lead byte is no continuation byte
  obtain rfl : conts = [] := by
    cases conts with
    | nil => rfl
    | cons b conts =>
      rw [henc] at hsplit
      exact absurd (hconts b mem_cons_self) ((cons.inj hsplit).1 ▸ ha)
  refine ⟨as, ?_⟩
  have hqlen := congrArg length hdrop
  rw [length_drop, encode_append, length_append, nil_append] at hqlen
  rw [encode_append, length_append] at hq
  cases bs with
  | nil =>
    rw [henc] at hsplit
    cases hsplit
  | cons c bs =>
    rw [nil_append, encode_cons] at hsplit
    obtain ⟨hc, -⟩ := IsEnc.eq_of_append_eq ⟨needle, rfl⟩ ⟨c, rfl⟩ hsplit
    exact ⟨bs, by rw [encodeChar_inj hc], by lia⟩

theorem hit_of_eq (needle : Char) (ds bs : List Char) :
    Hit needle (encode (ds ++ needle :: bs)) (encode ds).length := by
  rw [Hit, encode_append, drop_left, encode_cons, len_utf8_eq, take_left]

/-- A char that ends inside the window is one of its chars. -/
theorem Hit.exists_window (h : Hit needle (encode (ps ++ (cs ++ qs))) q)
    (hlt : (encode ps).length < q + len_utf8 needle)
    (hle : q + len_utf8 needle ≤ (encode ps).length + (encode cs).length) :
    ∃ as bs, cs = as ++ needle :: bs ∧ q = (encode ps).length + (encode as).length := by
  obtain ⟨as, bs, heq, rfl⟩ := h.exists_char
  have hpos := len_utf8_pos needle
  rw [len_utf8_eq] at hlt hle hpos
  obtain ⟨x, rfl, hrest⟩ : ∃ x, as = ps ++ x ∧ cs ++ qs = x ++ needle :: bs := by
    rcases append_eq_append_iff.1 heq with ⟨x, has, hcs⟩ | ⟨y, hps, hbs⟩
    · exact ⟨x, has, hcs⟩
    cases y with
    | nil => exact ⟨[], by rw [append_nil] at hps ⊢; exact hps.symm, hbs.symm⟩
    | cons y ys =>
      obtain rfl := (cons.inj hbs).1
      rw [hps, encode_append, encode_cons, length_append, length_append] at hlt
      lia
  rw [encode_append, length_append] at hle ⊢
  rcases append_eq_append_iff.1 hrest with ⟨y, hx, -⟩ | ⟨z, hcs, hbs⟩
  · rw [hx, encode_append, length_append] at hle
    lia
  · cases z with
    | nil =>
      rw [hcs, append_nil] at hle
      lia
    | cons z zs =>
      obtain rfl := (cons.inj hbs).1
      exact ⟨x, zs, hcs, rfl⟩

/-! ## The states -/

/-- The searcher whose window holds the chars `cs`, after `ps` and before `qs`. -/
def state (needle : Char) (ps cs qs : List Char) : CharSearcher :=
  { into_searcher needle (encode (ps ++ (cs ++ qs))) with
    finger := (encode ps).length
    finger_back := (encode ps).length + (encode cs).length }

@[simp] theorem state_haystack : (state needle ps cs qs).haystack = encode (ps ++ (cs ++ qs)) := rfl

@[simp] theorem state_finger : (state needle ps cs qs).finger = (encode ps).length := rfl

@[simp] theorem state_finger_back :
    (state needle ps cs qs).finger_back = (encode ps).length + (encode cs).length := rfl

@[simp] theorem state_utf8_size : (state needle ps cs qs).utf8_size = len_utf8 needle :=
  (len_utf8_eq needle).symm

theorem into_searcher_eq (needle : Char) (cs : List Char) :
    into_searcher needle (encode cs) = state needle [] cs [] := by
  rw [state, nil_append, append_nil]
  simp [into_searcher]

theorem length_haystack (ps cs qs : List Char) : (encode (ps ++ (cs ++ qs))).length =
    (encode ps).length + ((encode cs).length + (encode qs).length) := by
  rw [encode_append, encode_append, length_append, length_append]

theorem get_window (ps cs qs : List Char) :
    get (encode (ps ++ (cs ++ qs))) (encode ps).length ((encode ps).length + (encode cs).length) =
      some (encode cs) := by
  have hlen := length_haystack ps cs qs
  rw [get, if_pos ⟨Nat.le_add_right _ _, by lia⟩, Nat.add_sub_cancel_left, encode_append,
    drop_left, encode_append, take_left]

theorem boundaries_window (ps cs qs : List Char) :
    is_char_boundary (encode (ps ++ (cs ++ qs))) (encode ps).length = true ∧
      is_char_boundary (encode (ps ++ (cs ++ qs)))
        ((encode ps).length + (encode cs).length) = true := by
  constructor
  · rw [encode_append]
    exact is_char_boundary_append (wellFormed_encode ps) (wellFormed_encode _)
  · rw [← append_assoc, encode_append (ps ++ cs), ← length_append, ← encode_append ps]
    exact is_char_boundary_append (wellFormed_encode _) (wellFormed_encode qs)

theorem get_unchecked_window (ps cs qs : List Char) :
    get_unchecked (encode (ps ++ (cs ++ qs))) (encode ps).length
      ((encode ps).length + (encode cs).length) = some (encode cs) := by
  rw [get_unchecked, if_pos (boundaries_window ps cs qs), get_window]

/-- Chars of the window move to the part that was searched from the front. -/
theorem state_front (needle : Char) (ps as bs qs : List Char) :
    { state needle ps (as ++ bs) qs with finger := (encode (ps ++ as)).length } =
      state needle (ps ++ as) bs qs := by
  simp [state, into_searcher, add_assoc]

/-- Chars of the window move to the part that was searched from the back. -/
theorem state_back (needle : Char) (ps as bs qs : List Char) :
    { state needle ps (as ++ bs) qs with finger_back := (encode (ps ++ as)).length } =
      state needle ps as (bs ++ qs) := by
  simp [state, into_searcher]

theorem last_byte_eq (needle : Char) (ps cs qs : List Char) :
    ∃ b, last_byte (state needle ps cs qs) = some b ∧
      (String.utf8EncodeChar needle)[len_utf8 needle - 1]? = some b := by
  have hpos := len_utf8_pos needle
  rw [len_utf8_eq] at hpos ⊢
  refine ⟨_, ?_, getElem?_eq_getElem (sub_lt hpos one_pos)⟩
  rw [last_byte, state, into_searcher]
  simp only [checkedSub_eq (show 1 ≤ _ from hpos), some_bind]
  rw [getElem?_append_left (sub_lt hpos one_pos)]
  exact getElem?_eq_getElem _

/-- The comparison with the needle. -/
theorem matched_eq (needle : Char) (ps cs qs : List Char) {i j : ℕ} (hj : j = i + len_utf8 needle)
    (hle : j ≤ (encode (ps ++ (cs ++ qs))).length) :
    ∃ b, matched (state needle ps cs qs) i j = some b ∧
      (b = true ↔ Hit needle (encode (ps ++ (cs ++ qs))) i) := by
  subst hj
  refine ⟨decide (Hit needle (encode (ps ++ (cs ++ qs))) i), ?_, decide_eq_true_iff⟩
  simp only [matched, state, into_searcher, get, Nat.le_add_right, hle, and_self, if_true,
    Nat.add_sub_cancel_left]
  rw [slice_to_eq (by simp), take_left]
  rfl

/-! ## One char at a time -/

theorem length_encode_concat (cs : List Char) (c : Char) :
    (encode (cs ++ [c])).length = (encode cs).length + len_utf8 c := by
  rw [encode_append, length_append, encode_singleton, len_utf8_eq]

/-- What is taken off the length when a char is decoded. -/
theorem checkedSub_length_encode (c : Char) (m r : List UInt8)
    (h : m.length = len_utf8 c + r.length) : checkedSub m.length r.length = some (len_utf8 c) := by
  rw [checkedSub_eq (by lia), h, Nat.add_sub_cancel]

/-- `next` steps over the first char of the window. -/
theorem next_spec (needle : Char) (ps cs qs : List Char) : ∃ ps' cs', next (state needle ps cs qs) =
        some ((stepOne needle (indices (encode ps).length cs)).1, state needle ps' cs' qs) ∧
      (stepOne needle (indices (encode ps).length cs)).2 = indices (encode ps').length cs' ∧
      ps' ++ cs' = ps ++ cs := by
  have hget := get_unchecked_window ps cs qs
  cases cs with
  | nil =>
    refine ⟨ps, [], ?_, rfl, rfl⟩
    simp only [next, state_haystack, state_finger, state_finger_back, hget, some_bind]
    rfl
  | cons c cs =>
    have hstate := state_front needle ps [c] cs qs
    have hnext : StrIter.Chars.next (encode (c :: cs)) = some (some c, encode cs) := by
      rw [encode_cons, StrIter.Chars.next_encode]
    have hsub := checkedSub_length_encode c (encode (c :: cs)) (encode cs)
      (by rw [encode_cons, length_append, len_utf8_eq])
    refine ⟨ps ++ [c], cs, ?_, ?_, (append_cons ..).symm⟩
    · rw [length_encode_concat, singleton_append] at hstate
      simp only [next, state_haystack, state_finger, state_finger_back, hget, hnext, hsub,
        some_bind] at hstate ⊢
      rw [hstate, indices, stepOne]
      by_cases hc : c = needle
      · rw [if_pos (show c = (state needle ps (c :: cs) qs).needle from hc), if_pos hc]
        rfl
      · rw [if_neg (show ¬ c = (state needle ps (c :: cs) qs).needle from hc), if_neg hc]
        rfl
    · rw [indices, stepOne, length_encode_concat]

/-- `next_back` steps over the last char of the window. -/
theorem next_back_spec (needle : Char) (ps cs qs : List Char) :
    ∃ cs' qs', next_back (state needle ps cs qs) =
        some ((stepOne needle (indices (encode ps).length cs).reverse).1, state needle ps cs' qs') ∧
      (stepOne needle (indices (encode ps).length cs).reverse).2 =
        (indices (encode ps).length cs').reverse ∧
      cs' ++ qs' = cs ++ qs := by
  have hget := get_unchecked_window ps cs qs
  obtain rfl | ⟨cs, c, rfl⟩ := eq_nil_or_concat cs
  · refine ⟨[], qs, ?_, rfl, rfl⟩
    simp only [next_back, state_haystack, state_finger, state_finger_back, hget, some_bind]
    rfl
  rw [concat_eq_append] at hget ⊢
  have hstate := state_back needle ps cs [c] qs
  have hnext : StrIter.Chars.next_back (encode (cs ++ [c])) = some (some c, encode cs) := by
    rw [encode_append, encode_singleton, StrIter.Chars.next_back_encode]
  have hlen := length_encode_concat cs c
  have hsub := checkedSub_length_encode c (encode (cs ++ [c])) (encode cs)
    (by rw [hlen, add_comm])
  have hback : checkedSub ((encode ps).length + (encode (cs ++ [c])).length) (len_utf8 c) =
      some ((encode ps).length + (encode cs).length) := by
    rw [checkedSub_eq (by lia), hlen, ← Nat.add_assoc, Nat.add_sub_cancel]
  have hlast : (indices (encode ps).length (cs ++ [c])).reverse =
      ((encode ps).length + (encode cs).length, c) ::
        (indices (encode ps).length cs).reverse := by
    rw [CharIndices.indices_append, reverse_append]
    rfl
  refine ⟨cs, c :: qs, ?_, ?_, by rw [append_assoc]; rfl⟩
  · rw [encode_append ps, length_append] at hstate
    simp only [next_back, state_haystack, state_finger, state_finger_back, hget, hnext, hsub,
      hback, some_bind] at hstate ⊢
    rw [hstate, hlast, stepOne, hlen, ← Nat.add_assoc]
    by_cases hc : c = needle
    · rw [if_pos (show c = (state needle ps (cs ++ [c]) qs).needle from hc), if_pos hc]
      rfl
    · rw [if_neg (show ¬ c = (state needle ps (cs ++ [c]) qs).needle from hc), if_neg hc]
      rfl
  · rw [hlast, stepOne]

/-! ## The next match -/

variable {t : Target} {addr : ℕ} {constEval : Bool}

theorem stepMatch_skip {l : List (ℕ × Char)} (h : ∀ x ∈ l, x.2 ≠ needle) (m : List (ℕ × Char)) :
    stepMatch needle (l ++ m) = stepMatch needle m := by
  induction l with
  | nil => rfl
  | cons x l ih =>
    rw [cons_append, stepMatch, if_neg (h x mem_cons_self)]
    exact ih fun x hx => h x (mem_cons_of_mem _ hx)

theorem snd_ne_of_mem_indices {k : ℕ} (h : needle ∉ cs) : ∀ x ∈ indices k cs, x.2 ≠ needle := by
  rintro x hx rfl
  refine h ?_
  rw [← CharIndices.map_snd_indices k cs]
  exact mem_map_of_mem hx

theorem stepMatch_none {l : List (ℕ × Char)} (h : ∀ x ∈ l, x.2 ≠ needle) :
    stepMatch needle l = (none, []) := by
  have hskip := stepMatch_skip h []
  rwa [append_nil] at hskip

theorem stepMatch_front (k : ℕ) {as : List Char} (h : needle ∉ as) (bs : List Char) :
    stepMatch needle (indices k (as ++ needle :: bs)) =
      (some (range (k + (encode as).length, needle)),
        indices (k + (encode as).length + len_utf8 needle) bs) := by
  rw [CharIndices.indices_append, stepMatch_skip (snd_ne_of_mem_indices h), indices, stepMatch,
    if_pos rfl]

theorem stepMatch_back (k : ℕ) (as : List Char) {bs : List Char} (h : needle ∉ bs) :
    stepMatch needle (indices k (as ++ needle :: bs)).reverse =
      (some (range (k + (encode as).length, needle)), (indices k as).reverse) := by
  rw [CharIndices.indices_append, reverse_append, indices, reverse_cons,
    append_assoc, stepMatch_skip, singleton_append, stepMatch, if_pos rfl]
  exact fun x hx => snd_ne_of_mem_indices h x (mem_reverse.1 hx)

/-- A part of the bytes, place by place. -/
theorem getElem?_part {l : List UInt8} {i j k : ℕ} :
    ((l.drop i).take (j - i))[k]? = if i + k < j then l[i + k]? else none := by
  rw [getElem?_take, getElem?_drop]
  by_cases h : i + k < j
  · rw [if_pos h, if_pos (by lia)]
  · rw [if_neg h, if_neg (by lia)]

/-- Where the needle stands, its last byte does. -/
theorem Hit.last {haystack : List UInt8} {i : ℕ} {b : UInt8} (h : Hit needle haystack i)
    (hb : (String.utf8EncodeChar needle)[len_utf8 needle - 1]? = some b) :
    haystack[i + len_utf8 needle - 1]? = some b := by
  have hpos := len_utf8_pos needle
  rw [← h, getElem?_take_of_lt (sub_lt hpos one_pos), getElem?_drop] at hb
  rwa [Nat.add_sub_assoc hpos]

/-- A turn goes to the next place of the last byte, and compares there. -/
theorem next_match_turn_spec (t : Target) (addr : ℕ) (constEval : Bool) {f : ℕ} (b : UInt8)
    (hlast : last_byte (state needle ps cs qs) = some b)
    (hle : f ≤ (encode ps).length + (encode cs).length) :
    ((∀ i, f ≤ i → i < (encode ps).length + (encode cs).length →
          (encode (ps ++ (cs ++ qs)))[i]? ≠ some b) ∧
        next_match_turn t addr constEval (state needle ps cs qs) f =
          some (.done (none, (encode ps).length + (encode cs).length))) ∨
      ∃ i, f ≤ i ∧ i < (encode ps).length + (encode cs).length ∧
        (∀ j, f ≤ j → j < i → (encode (ps ++ (cs ++ qs)))[j]? ≠ some b) ∧
        ((∃ q, i + 1 = q + len_utf8 needle ∧ Hit needle (encode (ps ++ (cs ++ qs))) q ∧
            next_match_turn t addr constEval (state needle ps cs qs) f =
              some (.done (some (q, i + 1), i + 1))) ∨
          (∀ q, i + 1 = q + len_utf8 needle → ¬ Hit needle (encode (ps ++ (cs ++ qs))) q) ∧
            next_match_turn t addr constEval (state needle ps cs qs) f =
              some (.again (i + 1))) := by
  have hlen := length_haystack ps cs qs
  have hget : get (encode (ps ++ (cs ++ qs))) f ((encode ps).length + (encode cs).length) =
      some (((encode (ps ++ (cs ++ qs))).drop f).take
        ((encode ps).length + (encode cs).length - f)) := if_pos ⟨hle, by lia⟩
  obtain ⟨r, hmemchr, hleast⟩ := Memchr.memchr_spec t b (addr + f)
    (((encode (ps ++ (cs ++ qs))).drop f).take ((encode ps).length + (encode cs).length - f))
    constEval
  rw [next_match_turn, state_haystack, state_finger_back, hget]
  simp only [hlast, some_bind, hmemchr]
  cases r with
  | none =>
    refine .inl ⟨fun i hi hib hget => ?_, rfl⟩
    obtain ⟨k, rfl⟩ := Nat.exists_eq_add_of_le hi
    refine Memchr.not_mem_iff.1 hleast k ?_
    rwa [getElem?_part, if_pos hib]
  | some k =>
    obtain ⟨hk, hmin⟩ := hleast
    rw [Set.mem_ofPred_eq, getElem?_part] at hk
    have hlt : f + k < (encode ps).length + (encode cs).length := by
      by_contra hge
      rw [if_neg hge] at hk
      cases hk
    refine .inr ⟨f + k, Nat.le_add_right f k, hlt, fun j hj hjk hget => ?_, ?_⟩
    · obtain ⟨m, rfl⟩ := Nat.exists_eq_add_of_le hj
      have hkm : k ≤ m := hmin (by rwa [Set.mem_ofPred_eq, getElem?_part, if_pos (by lia)])
      lia
    dsimp only
    rw [state_utf8_size, ← Nat.add_assoc]
    by_cases hsize : f + k + 1 ≥ len_utf8 needle
    · rw [if_pos hsize]
      obtain ⟨c, hmatched, hc⟩ := matched_eq needle ps cs qs
        (i := f + k + 1 - len_utf8 needle) (j := f + k + 1) (by lia) (by lia)
      simp only [hmatched, some_bind]
      by_cases hhit : Hit needle (encode (ps ++ (cs ++ qs))) (f + k + 1 - len_utf8 needle)
      · refine .inl ⟨f + k + 1 - len_utf8 needle, by lia, hhit, ?_⟩
        rw [if_pos (hc.2 hhit)]
        rfl
      · refine .inr ⟨fun q hq => ?_, ?_⟩
        · rwa [show q = f + k + 1 - len_utf8 needle by lia]
        · rw [if_neg (fun h => hhit (hc.1 h))]
          rfl
    · rw [if_neg hsize]
      exact .inr ⟨fun q hq => absurd hq (by lia), rfl⟩

/-- Where the needle stands among the chars of the window. -/
theorem hit_window (ps qs : List Char) {as bs : List Char} (h : cs = as ++ needle :: bs) :
    Hit needle (encode (ps ++ (cs ++ qs))) ((encode ps).length + (encode as).length) ∧
      (encode cs).length = (encode as).length + (len_utf8 needle + (encode bs).length) := by
  subst h
  constructor
  · have heq := hit_of_eq needle (ps ++ as) (bs ++ qs)
    rwa [encode_append ps as, length_append,
      show ps ++ as ++ needle :: (bs ++ qs) = ps ++ (as ++ needle :: bs ++ qs) by simp] at heq
  · rw [encode_append, encode_cons, length_append, length_append, len_utf8_eq]

/-- The first occurrence in the window is found. -/
theorem next_match_spec (t : Target) (addr : ℕ) (constEval : Bool) (needle : Char)
    (ps cs qs : List Char) :
    needle ∉ cs ∧ next_match t addr constEval (state needle ps cs qs) =
        some (none, state needle (ps ++ cs) [] qs) ∨
      ∃ as bs, cs = as ++ needle :: bs ∧ needle ∉ as ∧
        next_match t addr constEval (state needle ps cs qs) =
          some (some (range ((encode ps).length + (encode as).length, needle)),
            state needle (ps ++ (as ++ [needle])) bs qs) := by
  obtain ⟨b, hlast, hb⟩ := last_byte_eq needle ps cs qs
  have hlen := length_haystack ps cs qs
  have hpos := len_utf8_pos needle
  obtain ⟨r, hrun, hr⟩ : ∃ r, runLoop (next_match_turn t addr constEval (state needle ps cs qs))
      ((encode (ps ++ (cs ++ qs))).length + 1) (encode ps).length = some r ∧
      (needle ∉ cs ∧ r = (none, (encode ps).length + (encode cs).length) ∨
        ∃ as bs, cs = as ++ needle :: bs ∧ needle ∉ as ∧
          r = (some (range ((encode ps).length + (encode as).length, needle)),
            (encode ps).length + (encode as).length + len_utf8 needle)) := by
    -- every occurrence ends after the finger
    refine runLoop_spec _ (fun f => (encode ps).length ≤ f ∧
        f ≤ (encode ps).length + (encode cs).length ∧ ∀ as bs, cs = as ++ needle :: bs →
          f < (encode ps).length + (encode as).length + len_utf8 needle)
      (fun f => (encode (ps ++ (cs ++ qs))).length - f) _ ?_ _ _
      ⟨le_rfl, le_add_right _ _, fun as bs _ => by lia⟩ (by lia)
    rintro f ⟨hge, hle, hends⟩
    rcases next_match_turn_spec t addr constEval b hlast hle with
      ⟨hnone, hturn⟩ | ⟨i, hi, hib, hnone, hfound⟩
    · rw [hturn]
      refine .inl ⟨fun hmem => ?_, rfl⟩
      obtain ⟨as, bs, hcs⟩ := append_of_mem hmem
      obtain ⟨hhit, hlength⟩ := hit_window ps qs hcs
      have := hends as bs hcs
      exact hnone _ (by lia) (by lia) (hhit.last hb)
    have hplace : ∀ as bs, cs = as ++ needle :: bs →
        i + 1 ≤ (encode ps).length + (encode as).length + len_utf8 needle := by
      intro as bs hcs
      have := hends as bs hcs
      by_contra hlt
      exact hnone _ (by lia) (by lia) ((hit_window ps qs hcs).1.last hb)
    rcases hfound with ⟨q, hq, hhit, hturn⟩ | ⟨hnot, hturn⟩
    · obtain ⟨as, bs, hcs, rfl⟩ := hhit.exists_window (by lia) (by lia)
      rw [hturn, hq]
      refine .inr ⟨as, bs, hcs, fun hmem => ?_, rfl⟩
      obtain ⟨as', bs', has⟩ := append_of_mem hmem
      have hfirst := hplace as' (bs' ++ needle :: bs) (by rw [hcs, has, append_assoc]; rfl)
      have hlength := (hit_window [] [] has).2
      lia
    · rw [hturn]
      refine ⟨⟨by lia, hib, fun as bs hcs => ?_⟩, Nat.sub_lt_sub_left (by lia) (by lia)⟩
      exact (hplace as bs hcs).lt_of_ne fun heq => hnot _ heq (hit_window ps qs hcs).1
  rcases hr with ⟨hnone, rfl⟩ | ⟨as, bs, rfl, hnone, rfl⟩
  · have hstate := state_front needle ps cs [] qs
    rw [append_nil, encode_append, length_append] at hstate
    rw [next_match, state_haystack, state_finger, hrun, ← hstate]
    exact .inl ⟨hnone, rfl⟩
  · have hstate := state_front needle ps (as ++ [needle]) bs qs
    rw [encode_append ps, length_append, length_encode_concat, append_assoc, ← add_assoc]
      at hstate
    rw [next_match, state_haystack, state_finger, hrun]
    exact .inr ⟨as, bs, rfl, hnone, congrArg (fun s => some (_, s)) hstate⟩

/-! ## The next match from the back -/

/-- A turn goes to the place before of the last byte, and compares there. -/
theorem next_match_back_turn_spec (t : Target) (addr : ℕ) {f : ℕ} (b : UInt8)
    (hlast : last_byte (state needle ps cs qs) = some b) (hge : (encode ps).length ≤ f)
    (hle : f ≤ (encode ps).length + (encode cs).length) :
    ((∀ i, (encode ps).length ≤ i → i < f → (encode (ps ++ (cs ++ qs)))[i]? ≠ some b) ∧
        next_match_back_turn t addr (state needle ps cs qs) f =
          some (.done (none, (encode ps).length))) ∨
      ∃ i, (encode ps).length ≤ i ∧ i < f ∧
        (∀ j, i < j → j < f → (encode (ps ++ (cs ++ qs)))[j]? ≠ some b) ∧
        ((∃ q, i + 1 = q + len_utf8 needle ∧ Hit needle (encode (ps ++ (cs ++ qs))) q ∧
            next_match_back_turn t addr (state needle ps cs qs) f =
              some (.done (some (q, i + 1), q))) ∨
          (∀ q, i + 1 = q + len_utf8 needle → ¬ Hit needle (encode (ps ++ (cs ++ qs))) q) ∧
            next_match_back_turn t addr (state needle ps cs qs) f = some (.again i)) := by
  have hlen := length_haystack ps cs qs
  have hpos := len_utf8_pos needle
  have hget : get (encode (ps ++ (cs ++ qs))) (encode ps).length f =
      some (((encode (ps ++ (cs ++ qs))).drop (encode ps).length).take (f - (encode ps).length)) :=
    if_pos ⟨hge, by lia⟩
  obtain ⟨r, hmemrchr, hgreatest⟩ := Memchr.memrchr_spec t b (addr + (encode ps).length)
    (((encode (ps ++ (cs ++ qs))).drop (encode ps).length).take (f - (encode ps).length))
  rw [next_match_back_turn, state_haystack, state_finger, hget]
  simp only [hlast, some_bind, hmemrchr]
  cases r with
  | none =>
    refine .inl ⟨fun i hi hif hget => ?_, rfl⟩
    obtain ⟨k, rfl⟩ := Nat.exists_eq_add_of_le hi
    refine Memchr.not_mem_iff.1 hgreatest k ?_
    rwa [getElem?_part, if_pos hif]
  | some k =>
    obtain ⟨hk, hmax⟩ := hgreatest
    rw [Set.mem_ofPred_eq, getElem?_part] at hk
    have hlt : (encode ps).length + k < f := by
      by_contra hge
      rw [if_neg hge] at hk
      cases hk
    refine .inr ⟨(encode ps).length + k, Nat.le_add_right _ k, hlt, fun j hj hjf hget => ?_, ?_⟩
    · obtain ⟨m, rfl⟩ := Nat.exists_eq_add_of_le (show (encode ps).length ≤ j by lia)
      have hkm : m ≤ k := hmax (by rwa [Set.mem_ofPred_eq, getElem?_part, if_pos hjf])
      lia
    dsimp only
    rw [state_utf8_size, checkedSub_eq hpos, some_bind]
    by_cases hsize : (encode ps).length + k ≥ len_utf8 needle - 1
    · rw [if_pos hsize]
      obtain ⟨q, hq⟩ := Nat.exists_eq_add_of_le' hsize
      obtain ⟨c, hmatched, hc⟩ := matched_eq needle ps cs qs
        (i := q) (j := q + len_utf8 needle) rfl (by lia)
      rw [hq, Nat.add_sub_cancel, hmatched, some_bind]
      by_cases hhit : Hit needle (encode (ps ++ (cs ++ qs))) q
      · refine .inl ⟨q, by lia, hhit, ?_⟩
        rw [if_pos (hc.2 hhit), show q + (len_utf8 needle - 1) + 1 = q + len_utf8 needle by lia]
        rfl
      · refine .inr ⟨fun q' hq' => ?_, ?_⟩
        · rwa [show q' = q by lia]
        · rw [if_neg (fun h => hhit (hc.1 h))]
          rfl
    · rw [if_neg hsize]
      exact .inr ⟨fun q hq => absurd hq (by lia), rfl⟩

/-- The last occurrence in the window is found. -/
theorem next_match_back_spec (t : Target) (addr : ℕ) (needle : Char) (ps cs qs : List Char) :
    needle ∉ cs ∧ next_match_back t addr (state needle ps cs qs) =
        some (none, state needle ps [] (cs ++ qs)) ∨
      ∃ as bs, cs = as ++ needle :: bs ∧ needle ∉ bs ∧
        next_match_back t addr (state needle ps cs qs) =
          some (some (range ((encode ps).length + (encode as).length, needle)),
            state needle ps as (needle :: bs ++ qs)) := by
  obtain ⟨b, hlast, hb⟩ := last_byte_eq needle ps cs qs
  have hlen := length_haystack ps cs qs
  have hpos := len_utf8_pos needle
  obtain ⟨r, hrun, hr⟩ : ∃ r, runLoop (next_match_back_turn t addr (state needle ps cs qs))
      ((encode (ps ++ (cs ++ qs))).length + 1) ((encode ps).length + (encode cs).length) = some r ∧
      (needle ∉ cs ∧ r = (none, (encode ps).length) ∨
        ∃ as bs, cs = as ++ needle :: bs ∧ needle ∉ bs ∧
          r = (some (range ((encode ps).length + (encode as).length, needle)),
            (encode ps).length + (encode as).length)) := by
    -- no occurrence ends after the finger
    refine runLoop_spec _ (fun f => (encode ps).length ≤ f ∧
        f ≤ (encode ps).length + (encode cs).length ∧ ∀ as bs, cs = as ++ needle :: bs →
          (encode ps).length + (encode as).length + len_utf8 needle ≤ f) (fun f => f) _ ?_ _ _
      ⟨le_add_right _ _, le_rfl, fun as bs hcs => ?_⟩ (by lia)
    · rintro f ⟨hge, hle, hends⟩
      rcases next_match_back_turn_spec t addr b hlast hge hle with
        ⟨hnone, hturn⟩ | ⟨i, hi, hif, hnone, hfound⟩
      · rw [hturn]
        refine .inl ⟨fun hmem => ?_, rfl⟩
        obtain ⟨as, bs, hcs⟩ := append_of_mem hmem
        have := hends as bs hcs
        exact hnone _ (by lia) (by lia) ((hit_window ps qs hcs).1.last hb)
      have hplace : ∀ as bs, cs = as ++ needle :: bs →
          (encode ps).length + (encode as).length + len_utf8 needle ≤ i + 1 := by
        intro as bs hcs
        have := hends as bs hcs
        by_contra hlt
        exact hnone _ (by lia) (by lia) ((hit_window ps qs hcs).1.last hb)
      rcases hfound with ⟨q, hq, hhit, hturn⟩ | ⟨hnot, hturn⟩
      · obtain ⟨as, bs, hcs, rfl⟩ := hhit.exists_window (by lia) (by lia)
        rw [hturn, hq]
        refine .inr ⟨as, bs, hcs, fun hmem => ?_, rfl⟩
        obtain ⟨as', bs', hbs⟩ := append_of_mem hmem
        have hcs' : cs = as ++ needle :: as' ++ needle :: bs' := by
          rw [hcs, hbs, append_assoc]
          rfl
        have hlast := hplace _ bs' hcs'
        have hlength := (hit_window [] [] (rfl : as ++ needle :: as' = _)).2
        lia
      · rw [hturn]
        refine ⟨⟨hi, by lia, fun as bs hcs => ?_⟩, hif⟩
        exact Nat.le_of_lt_succ ((hplace as bs hcs).lt_of_ne fun heq =>
          hnot _ heq.symm (hit_window ps qs hcs).1)
    · have hlength := (hit_window ps qs hcs).2
      lia
  rcases hr with ⟨hnone, rfl⟩ | ⟨as, bs, rfl, hnone, rfl⟩
  · have hstate := state_back needle ps [] cs qs
    rw [append_nil] at hstate
    rw [next_match_back, state_haystack, state_finger_back, hrun, ← hstate]
    exact .inl ⟨hnone, rfl⟩
  · have hstate := state_back needle ps as (needle :: bs) qs
    rw [encode_append ps, length_append] at hstate
    rw [next_match_back, state_haystack, state_finger_back, hrun]
    exact .inr ⟨as, bs, rfl, hnone, congrArg (fun s => some (_, s)) hstate⟩

/-! ## Runs -/

/-- The searcher stands at a window of the haystack that holds these chars. -/
def Window (needle : Char) (ds : List Char) (s : CharSearcher) (l : List (ℕ × Char)) : Prop :=
  ∃ ps cs qs, ds = ps ++ (cs ++ qs) ∧ s = state needle ps cs qs ∧ l = indices (encode ps).length cs

/-- **A call** is answered as by the searcher that goes char by char. -/
theorem call_spec (t : Target) (addr : ℕ) (constEval : Bool) (needle : Char) (ds : List Char)
    (q : End × Call) (s : CharSearcher) (l : List (ℕ × Char)) (hs : Window needle ds s l) :
    Yields (Window needle ds) (call t addr constEval q s) (reply needle q l).1
      (reply needle q l).2 := by
  obtain ⟨ps, cs, qs, rfl, rfl, rfl⟩ := hs
  obtain ⟨e, m⟩ := q
  cases e <;> cases m
  case front.next =>
    obtain ⟨ps', cs', hnext, hrest, heq⟩ := next_spec needle ps cs qs
    refine ⟨state needle ps' cs' qs, ?_, ps', cs', qs, ?_, rfl, hrest⟩
    · rw [call, hnext]
      rfl
    · rw [← append_assoc, ← heq, append_assoc]
  case back.next =>
    obtain ⟨cs', qs', hnext, hrest, heq⟩ := next_back_spec needle ps cs qs
    refine ⟨state needle ps cs' qs', ?_, ps, cs', qs', by rw [heq], rfl, ?_⟩
    · rw [call, hnext]
      rfl
    · exact (congrArg reverse hrest).trans (reverse_reverse _)
  case front.next_match =>
    rcases next_match_spec t addr constEval needle ps cs qs with
      ⟨h, hnext⟩ | ⟨as, bs, rfl, hnone, hnext⟩
    · have hstep := stepMatch_none (snd_ne_of_mem_indices (k := (encode ps).length) h)
      refine ⟨state needle (ps ++ cs) [] qs, ?_, ps ++ cs, [], qs, by simp, rfl, ?_⟩
      · rw [call, hnext]
        exact congrArg (fun r => some (Outcome.found r, _)) (congrArg Prod.fst hstep).symm
      · exact congrArg Prod.snd hstep
    · have hstep := stepMatch_front (encode ps).length hnone bs
      refine ⟨state needle (ps ++ (as ++ [needle])) bs qs, ?_, ps ++ (as ++ [needle]), bs, qs,
        by simp, rfl, ?_⟩
      · rw [call, hnext]
        exact congrArg (fun r => some (Outcome.found r, _)) (congrArg Prod.fst hstep).symm
      · rw [encode_append, length_append, length_encode_concat, ← add_assoc]
        exact congrArg Prod.snd hstep
  case back.next_match =>
    rcases next_match_back_spec t addr needle ps cs qs with
      ⟨h, hnext⟩ | ⟨as, bs, rfl, hnone, hnext⟩
    · have hstep : stepMatch needle (indices (encode ps).length cs).reverse = (none, []) :=
        stepMatch_none fun x hx => snd_ne_of_mem_indices h x (mem_reverse.1 hx)
      refine ⟨state needle ps [] (cs ++ qs), ?_, ps, [], cs ++ qs, rfl, rfl, ?_⟩
      · rw [call, hnext]
        exact congrArg (fun r => some (Outcome.found r, _)) (congrArg Prod.fst hstep).symm
      · exact congrArg (fun r => r.2.reverse) hstep
    · have hstep := stepMatch_back (encode ps).length as hnone
      refine ⟨state needle ps as (needle :: bs ++ qs), ?_, ps, as, needle :: bs ++ qs, by simp,
        rfl, ?_⟩
      · rw [call, hnext]
        exact congrArg (fun r => some (Outcome.found r, _)) (congrArg Prod.fst hstep).symm
      · exact (congrArg (fun r => r.2.reverse) hstep).trans (reverse_reverse _)

theorem matchesIn_reverse (l : List (ℕ × Char)) :
    matchesIn needle l.reverse = (matchesIn needle l).reverse := by
  rw [matchesIn, filter_reverse, map_reverse]
  rfl

/-- An answer takes the matches that it tells of, and no others. -/
theorem matchesIn_answer (needle : Char) (m : Call) (l : List (ℕ × Char)) : matchesIn needle l =
      (answer needle m l).1.match?.toList ++ matchesIn needle (answer needle m l).2 := by
  cases m with
  | next =>
    cases l with
    | nil => rfl
    | cons x l =>
      rw [answer, stepOne, matchesIn, filter_cons]
      by_cases hx : x.2 = needle
      · simp only [hx, decide_true, if_true]
        rfl
      · simp only [hx, decide_false, if_false]
        rfl
  | next_match =>
    induction l with
    | nil => rfl
    | cons x l ih =>
      rw [answer, stepMatch, matchesIn, filter_cons]
      by_cases hx : x.2 = needle
      · simp only [hx, decide_true, if_true]
        rfl
      · simp only [hx, decide_false, if_false]
        exact ih

theorem returned_cons (e : End) (q : End × Call) (qs : List (End × Call)) (out : Outcome)
    (outs : List Outcome) : returned e (q :: qs) (out :: outs) =
      (if q.1 = e then out.match? else none).toList ++ returned e qs outs := by
  rw [returned, zip_cons_cons, filterMap_cons]
  dsimp only
  cases (if q.1 = e then out.match? else none : Option (ℕ × ℕ)) <;> rfl

/-- In a run no match is missed, and none returned twice. -/
theorem matchesIn_replies (needle : Char) (qs : List (End × Call)) (l : List (ℕ × Char)) :
    matchesIn needle l = returned .front qs (replies (reply needle) qs l).1 ++
      (matchesIn needle (replies (reply needle) qs l).2 ++
        (returned .back qs (replies (reply needle) qs l).1).reverse) := by
  induction qs generalizing l with
  | nil => exact (append_nil _).symm
  | cons q qs ih =>
    obtain ⟨e, m⟩ := q
    have hanswer := matchesIn_answer needle m (seenFrom e l)
    have hrest := ih (reply needle (e, m) l).2
    have houts : (replies (reply needle) ((e, m) :: qs) l).1 = (answer needle m (seenFrom e l)).1 ::
        (replies (reply needle) qs (reply needle (e, m) l).2).1 := rfl
    have hleft : (replies (reply needle) ((e, m) :: qs) l).2 =
      (replies (reply needle) qs (reply needle (e, m) l).2).2 := rfl
    rw [houts, hleft, returned_cons, returned_cons]
    cases e with
    | front =>
      rw [if_pos rfl, if_neg nofun, toList_none, nil_append, append_assoc, ← hrest]
      exact hanswer
    | back =>
      have hl : matchesIn needle l = matchesIn needle (reply needle (.back, m) l).2 ++
          (answer needle m l.reverse).1.match?.toList.reverse := by
        have hrev : reply needle (.back, m) l =
          ((answer needle m l.reverse).1, (answer needle m l.reverse).2.reverse) := rfl
        rw [← reverse_inj, ← matchesIn_reverse, reverse_append, reverse_reverse, hrev,
          ← matchesIn_reverse, reverse_reverse]
        exact hanswer
      rw [if_neg nofun, if_pos rfl, toList_none, nil_append, reverse_append,
        ← append_assoc (matchesIn _ _), ← append_assoc, ← hrest]
      exact hl

/-- **Every sequence of calls from both ends** is answered as by the searcher that goes through the
chars of the window one at a time. The fingers are left on boundaries, in order, with the chars
between them that it has left; and the matches at the front, in the window and at the back are the
matches of the haystack. -/
theorem searcher_agrees (t : Target) (addr : ℕ) (constEval : Bool) (needle : Char) (cs : List Char)
    (qs : List (End × Call)) : ∃ outs s ps ds rs,
    runCalls (call t addr constEval) qs (into_searcher needle (encode cs)) = some (outs, s) ∧
      replies (reply needle) qs (indices 0 cs) = (outs, indices s.finger ds) ∧
      cs = ps ++ (ds ++ rs) ∧ s.haystack = encode cs ∧ s.finger = (encode ps).length ∧
      s.finger_back = (encode (ps ++ ds)).length ∧ s.finger ≤ s.finger_back ∧
      is_char_boundary s.haystack s.finger = true ∧
      is_char_boundary s.haystack s.finger_back = true ∧
      matchesIn needle (indices 0 cs) = returned .front qs outs ++
        (matchesIn needle (indices s.finger ds) ++ (returned .back qs outs).reverse) := by
  have hnew : Window needle cs (into_searcher needle (encode cs)) (indices 0 cs) :=
    ⟨[], cs, [], by simp, into_searcher_eq needle cs, rfl⟩
  have hcalls : ∀ q ∈ qs, ∀ s l, Window needle cs s l →
      Yields (Window needle cs) (call t addr constEval q s) (reply needle q l).1
        (reply needle q l).2 := fun q _ s l hs => call_spec t addr constEval needle cs q s l hs
  obtain ⟨s, hrun, ps, ds, rs, heq, rfl, hleft⟩ := runCalls_spec hcalls hnew
  have hmatches := matchesIn_replies needle qs (indices 0 cs)
  rw [hleft] at hmatches
  refine ⟨_, _, ps, ds, rs, hrun, Prod.ext rfl hleft, heq, ?_, rfl, ?_, le_add_right _ _, ?_,
    ?_, hmatches⟩
  · rw [state_haystack, heq]
  · rw [state_finger_back, encode_append, length_append]
  · exact (boundaries_window ps ds rs).1
  · exact (boundaries_window ps ds rs).2

end CharSearcher

end RustStd
