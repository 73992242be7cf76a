import RustStd.Alloc.Bytes
import RustStd.Str.Wtf8Buf

/-!
# Joining strings

`join_generic_copy` of `alloc/src/str.rs` for strings, over a `Borrow` implementation that may do
anything: it has a state, may return another string at every call, and may panic. The lengths are
measured in one pass and the strings copied in another. The `debug_assert!` that the capacity
suffices is left out: `with_capacity` has granted it, or the function has panicked.
-/

namespace RustStd.Join

open List Nat ByteVec

variable {S σ : Type} (t : Target) (alloc : ℕ → Bool) (borrow : S → σ → Option (Utf8Str × σ))

/-- A call of `borrow`, which panics where it returns nothing. -/
def call (r : Option (Utf8Str × σ)) : Except Halt (Utf8Str × σ) :=
  match r with
  | some x => .ok x
  | none => .error .panic

/-- The `try_fold` over the lengths. -/
def measure : List S → ℕ → σ → Except Halt (Option ℕ × σ)
  | [], n, st => .ok (some n, st)
  | s :: slice, n, st => do
    let (string, st) ← call (borrow s st)
    match t.checkedAdd n string.bytes.length with
    | none => return (none, st)
    | some n => measure slice n st

/-- `target`: `len` cells of the vector from `pos` on. -/
structure Spare where
  vec : ByteVec
  pos : ℕ
  len : ℕ

/-- `spare_capacity_mut().get_unchecked_mut(..len)` -/
def spare_capacity_mut (vec : ByteVec) (len : ℕ) : Except Halt Spare :=
  if vec.len + len ≤ vec.capacity then .ok ⟨vec, vec.len, len⟩ else .error .fault

/-- `copy_slice_and_advance!`, with the panic of `split_at_mut`. -/
def copy_slice_and_advance (target : Spare) (bytes : List UInt8) : Except Halt Spare :=
  if bytes.length ≤ target.len then do
    let vec ← target.vec.write target.pos bytes
    return ⟨vec, target.pos + bytes.length, target.len - bytes.length⟩
  else .error .panic

/-- The loop of `specialize_for_lengths!`. -/
def copy_loop (sep : List UInt8) : List S → Spare → σ → Except Halt (Spare × σ)
  | [], target, st => .ok (target, st)
  | s :: iter, target, st => do
    let (string, st) ← call (borrow s st)
    let target ← copy_slice_and_advance target sep
    let target ← copy_slice_and_advance target string.bytes
    copy_loop sep iter target st

/-- `specialize_for_lengths!` -/
def specialize_for_lengths (sep : List UInt8) (iter : List S) (target : Spare) (st : σ) :
    Except Halt (Spare × σ) :=
  match sep.length with
  | 0 | 1 | 2 | 3 | 4 => copy_loop borrow sep iter target st
  | _ => copy_loop borrow sep iter target st

/-- The length to reserve. -/
def reserved_len (slice iter : List S) (sep : List UInt8) (st : σ) : Except Halt (Option ℕ × σ) :=
  if sep.length * iter.length < t.usizeCard then
    measure t borrow slice (sep.length * iter.length) st
  else .ok (none, st)

/-- The second pass. -/
def copy (reserved_len : ℕ) (first : S) (iter : List S) (sep : List UInt8) (st : σ) :
    Except Halt (List UInt8 × σ) := do
  let result ← ByteVec.with_capacity t alloc reserved_len
  let (string, st) ← call (borrow first st)
  let result ← result.extend_from_slice t alloc string.bytes
  let pos := result.len
  let len ← sub_len reserved_len pos
  let target ← spare_capacity_mut result len
  let (remain, st) ← specialize_for_lengths borrow sep iter target st
  let result_len ← sub_len reserved_len remain.len
  let result ← remain.vec.set_len result_len
  return (← result.as_slice, st)

def join_generic_copy (slice : List S) (sep : List UInt8) (st : σ) : Except Halt (List UInt8 × σ) :=
  match slice with
  | [] => .ok ([], st)
  | first :: iter => do
    match ← reserved_len t borrow slice iter sep st with
    | (none, _) => .error .panic
    | (some n, st) => copy t alloc borrow n first iter sep st

/-! ## What is returned -/

/-- Successive calls of `borrow` return these strings. -/
inductive Returns : σ → List S → List Utf8Str → σ → Prop
  | nil (st : σ) : Returns st [] [] st
  | cons {st st1 st2 : σ} {s : S} {slice : List S} {string : Utf8Str} {strings : List Utf8Str}
      (h : borrow s st = some (string, st1)) (hrest : Returns st1 slice strings st2) :
      Returns st (s :: slice) (string :: strings) st2

/-- The strings with the separator between them. -/
def joined (sep : List UInt8) (strings : List Utf8Str) : List UInt8 :=
  sep.intercalate (strings.map Utf8Str.bytes)

/-- The bytes that `borrow` returned, in total. -/
def total (strings : List Utf8Str) : ℕ := (strings.map fun string => string.bytes.length).sum

variable {t alloc borrow} {sep w bytes : List UInt8} {s first : S} {slice iter : List S}
  {st st' st1 st2 : σ} {string : Utf8Str} {strings strings' : List Utf8Str} {n : ℕ}

theorem joined_cons : joined sep (string :: strings) =
    string.bytes ++ strings.flatMap fun string => sep ++ string.bytes := by
  induction strings generalizing string with
  | nil => simp [joined, intercalate]
  | cons string' strings ih =>
    have hrest : joined sep (string' :: strings) = _ := ih
    simp only [joined, map_cons, intercalate, intersperse_cons_cons, flatten_cons] at hrest ⊢
    rw [hrest, flatMap_cons, append_assoc]

theorem length_flatMap : (strings.flatMap fun string => sep ++ string.bytes).length =
    sep.length * strings.length + total strings := by
  induction strings with
  | nil => rfl
  | cons string strings ih =>
    rw [flatMap_cons, length_append, length_append, ih, total, total, map_cons,
      sum_cons, length_cons, mul_succ]
    omega

theorem length_joined : (joined sep (string :: strings)).length =
    sep.length * strings.length + total (string :: strings) := by
  rw [joined_cons, length_append, length_flatMap, total, total, map_cons, sum_cons]
  omega

/-- What is joined is UTF-8. -/
theorem joined_wellFormed (hsep : Utf8.WellFormed sep) (strings : List Utf8Str) :
    Utf8.WellFormed (joined sep strings) := by
  have hflat (strings : List Utf8Str) :
      Utf8.WellFormed (strings.flatMap fun string => sep ++ string.bytes) := by
    induction strings with
    | nil => exact ⟨[], rfl⟩
    | cons string strings ih =>
      rw [flatMap_cons]
      exact (hsep.append string.valid).append ih
  cases strings with
  | nil => exact ⟨[], rfl⟩
  | cons string strings =>
    rw [joined_cons]
    exact string.valid.append (hflat strings)

theorem Returns.unique (h : Returns borrow st slice strings st')
    (h' : Returns borrow st slice strings' st1) : strings' = strings ∧ st1 = st' := by
  induction h generalizing strings' st1 with
  | nil _ =>
    cases h'
    exact ⟨rfl, rfl⟩
  | cons hcall _ ih =>
    cases h' with
    | cons hcall' hrest' =>
      cases hcall.symm.trans hcall'
      obtain ⟨rfl, rfl⟩ := ih hrest'
      exact ⟨rfl, rfl⟩

/-! ## The first pass -/

theorem measure_sound (slice : List S) (hn : n < t.usizeCard) (st : σ) :
    Faultless (measure t borrow slice n st) fun r => ∀ m, r.1 = some m →
      ∃ strings, Returns borrow st slice strings r.2 ∧ m = n + total strings ∧ m < t.usizeCard := by
  induction slice generalizing n st with
  | nil =>
    rintro m ⟨⟩
    exact ⟨[], .nil st, rfl, hn⟩
  | cons s slice ih =>
    rw [measure]
    cases hcall : borrow s st with
    | none => exact nofun
    | some r =>
      obtain ⟨string, st1⟩ := r
      rw [call, halt_bind_ok]
      dsimp only
      rw [Target.checkedAdd]
      split
      · next hsum =>
        split at hsum
        · cases hsum
        · exact nofun
      next m hsum =>
      split at hsum
      · next hlt =>
        cases hsum
        refine (ih hlt st1).mono fun r hr m hm => ?_
        obtain ⟨strings, hrest, rfl, hlt'⟩ := hr m hm
        refine ⟨string :: strings, .cons hcall hrest, ?_, hlt'⟩
        rw [total, total, map_cons, sum_cons, add_assoc]
      · cases hsum

theorem measure_ok (h : Returns borrow st slice strings st')
    (hlt : n + total strings < t.usizeCard) :
    measure t borrow slice n st = .ok (some (n + total strings), st') := by
  induction h generalizing n with
  | nil _ => rfl
  | @cons st st1 st2 s slice string strings hcall _ ih =>
    rw [total, map_cons, sum_cons, ← add_assoc] at hlt ⊢
    rw [measure, hcall, call, halt_bind_ok]
    dsimp only
    rw [Target.checkedAdd, if_pos (lt_of_le_of_lt (le_add_right _ _) hlt)]
    exact ih hlt

theorem reserved_len_sound (first : S) (iter : List S) (sep : List UInt8) (st : σ) :
    Faultless (reserved_len t borrow (first :: iter) iter sep st) fun r => ∀ m, r.1 = some m →
      ∃ strings, Returns borrow st (first :: iter) strings r.2 ∧
        m = sep.length * iter.length + total strings ∧ m < t.usizeCard := by
  rw [reserved_len]
  split
  · next hlt => exact measure_sound _ hlt st
  · exact nofun

theorem reserved_len_ok (h : Returns borrow st (first :: iter) strings st')
    (hlt : sep.length * iter.length + total strings < t.usizeCard) :
    reserved_len t borrow (first :: iter) iter sep st =
      .ok (some (sep.length * iter.length + total strings), st') := by
  rw [reserved_len, if_pos (lt_of_le_of_lt (le_add_right _ _) hlt)]
  exact measure_ok h hlt

/-! ## The second pass -/

variable {target : Spare}

/-- The vector begins with `w`, and the spare cells are behind it. -/
structure Spare.Holds (target : Spare) (w : List UInt8) : Prop where
  pos : target.pos = w.length
  starts : ∃ n, target.vec.Starts w n ∧ target.len ≤ n

theorem Spare.Holds.copy_ok (h : target.Holds w) (hle : bytes.length ≤ target.len) :
    ∃ target', copy_slice_and_advance target bytes = .ok target' ∧
      target'.Holds (w ++ bytes) ∧ target'.len + bytes.length = target.len := by
  obtain ⟨n, hstarts, hlen⟩ := h.starts
  obtain ⟨vec, hwrite, -, hstarts'⟩ := hstarts.write (le_trans hle hlen)
  refine ⟨⟨vec, w.length + bytes.length, target.len - bytes.length⟩, ?_, ⟨?_, _, hstarts', ?_⟩, ?_⟩
  · rw [copy_slice_and_advance, if_pos hle, h.pos, hwrite]
    rfl
  · exact length_append.symm
  · exact Nat.sub_le_sub_right hlen _
  · exact Nat.sub_add_cancel hle

theorem Spare.Holds.copy_sound (h : target.Holds w) (bytes : List UInt8) :
    Faultless (copy_slice_and_advance target bytes) fun target' =>
      target'.Holds (w ++ bytes) ∧ target'.len + bytes.length = target.len := by
  by_cases hle : bytes.length ≤ target.len
  · obtain ⟨target', heq, hholds⟩ := h.copy_ok hle
    rw [heq]
    exact hholds
  · rw [copy_slice_and_advance, if_neg hle]
    exact nofun

theorem copy_loop_sound (h : target.Holds w) (sep : List UInt8) (iter : List S) (st : σ) :
    Faultless (copy_loop borrow sep iter target st) fun r => ∃ strings,
      Returns borrow st iter strings r.2 ∧
      r.1.Holds (w ++ strings.flatMap fun string => sep ++ string.bytes) ∧
      r.1.len + (strings.flatMap fun string => sep ++ string.bytes).length = target.len := by
  induction iter generalizing target w st with
  | nil => exact ⟨[], .nil st, by rwa [flatMap_nil, append_nil], rfl⟩
  | cons s iter ih =>
    rw [copy_loop]
    cases hcall : borrow s st with
    | none => exact nofun
    | some r =>
      obtain ⟨string, st1⟩ := r
      rw [call, halt_bind_ok]
      refine (h.copy_sound sep).bind fun target1 h1 => ?_
      refine (h1.1.copy_sound string.bytes).bind fun target2 h2 => ?_
      refine (ih h2.1 st1).mono fun r hr => ?_
      obtain ⟨strings, hrest, hholds, hlen⟩ := hr
      refine ⟨string :: strings, .cons hcall hrest, ?_, ?_⟩
      · rwa [flatMap_cons, ← append_assoc, ← append_assoc]
      · rw [flatMap_cons, length_append, length_append]
        omega

theorem copy_loop_ok (sep : List UInt8) (h : target.Holds w)
    (hcalls : Returns borrow st iter strings st')
    (hle : (strings.flatMap fun string => sep ++ string.bytes).length ≤ target.len) :
    ∃ r, copy_loop borrow sep iter target st = .ok r := by
  induction hcalls generalizing target w with
  | nil st => exact ⟨_, rfl⟩
  | @cons st st1 st2 s slice string strings hcall _ ih =>
    rw [flatMap_cons, length_append, length_append] at hle
    have hsep : sep.length ≤ target.len := by omega
    obtain ⟨target1, hcopy1, h1, hlen1⟩ := h.copy_ok hsep
    have hstring : string.bytes.length ≤ target1.len := by omega
    obtain ⟨target2, hcopy2, h2, hlen2⟩ := h1.copy_ok hstring
    obtain ⟨r, hr⟩ := ih h2 (by omega)
    refine ⟨r, ?_⟩
    rw [copy_loop, hcall, call, halt_bind_ok]
    dsimp only
    rw [hcopy1, halt_bind_ok, hcopy2, halt_bind_ok, hr]

/-- Each separator length has the same loop. -/
theorem specialize_eq (sep : List UInt8) (iter : List S) (target : Spare) (st : σ) :
    specialize_for_lengths borrow sep iter target st = copy_loop borrow sep iter target st := by
  unfold specialize_for_lengths
  split <;> rfl

/-- Behind the copy of the first string, when it is not longer than what is reserved. -/
theorem copy_eq (iter : List S) (sep : List UInt8) (hgranted : ByteVec.Granted t alloc n)
    (hcall : borrow first st = some (string, st1))
    (hle : string.bytes.length ≤ n) : ∃ target : Spare, target.Holds string.bytes ∧
      target.len = n - string.bytes.length ∧
      copy t alloc borrow n first iter sep st = do
        let (remain, st) ← copy_loop borrow sep iter target st1
        let result_len ← sub_len n remain.len
        let result ← remain.vec.set_len result_len
        return (← result.as_slice, st) := by
  obtain ⟨vec, hvec, hlen, hstarts⟩ := with_capacity_ok hgranted
  obtain ⟨vec', hextend, hlen', hstarts'⟩ := hstarts.extend_of_le t alloc hlen hle
  rw [nil_append] at hlen' hstarts'
  have hroom : string.bytes.length + (n - string.bytes.length) ≤ vec'.capacity := by
    rw [hstarts'.capacity]
  refine ⟨⟨vec', string.bytes.length, n - string.bytes.length⟩, ⟨rfl, _, hstarts', le_refl _⟩,
    rfl, ?_⟩
  rw [copy, hvec, halt_bind_ok, hcall, call, halt_bind_ok]
  dsimp only
  rw [hextend, halt_bind_ok, hlen', sub_len, if_pos hle, halt_bind_ok,
    spare_capacity_mut, hlen', if_pos hroom, halt_bind_ok, specialize_eq]

/-- What is left of the vector has been written. -/
theorem Spare.Holds.finish (h : target.Holds w) (hlen : target.len + w.length = n) : (do
      let result_len ← sub_len n target.len
      let result ← target.vec.set_len result_len
      return (← result.as_slice, st) : Except Halt (List UInt8 × σ)) = .ok (w, st) := by
  obtain ⟨k, hstarts, -⟩ := h.starts
  have hslice : ({ target.vec with len := w.length } : ByteVec).Starts w k := hstarts
  rw [sub_len, if_pos (by omega), halt_bind_ok, show n - target.len = w.length by omega,
    hstarts.set_len, halt_bind_ok, hslice.as_slice rfl]
  rfl

variable (hgranted : ByteVec.Granted t alloc n)
include hgranted

theorem copy_sound (hcall : borrow first st = some (string, st1)) (hle : string.bytes.length ≤ n) :
    Faultless (copy t alloc borrow n first iter sep st) fun r =>
      ∃ strings, Returns borrow st (first :: iter) strings r.2 ∧ r.1 = joined sep strings := by
  obtain ⟨target, hholds, hlen, heq⟩ := copy_eq iter sep hgranted hcall hle
  rw [heq]
  refine (copy_loop_sound hholds sep iter st1).bind fun r hr => ?_
  obtain ⟨strings, hrest, hremain, htotal⟩ := hr
  dsimp only
  rw [hremain.finish (by rw [length_append]; omega)]
  exact ⟨string :: strings, .cons hcall hrest, joined_cons.symm⟩

/-- Strings of the measured length are copied. -/
theorem copy_ok (hcalls : Returns borrow st (first :: iter) strings st')
    (hlen : (joined sep strings).length = n) :
    copy t alloc borrow n first iter sep st = .ok (joined sep strings, st') := by
  cases hcalls with
  | @cons _ st1 _ _ _ string strings hcall hrest =>
    rw [joined_cons, length_append] at hlen
    obtain ⟨target, hholds, hspare, heq⟩ := copy_eq iter sep hgranted hcall (by omega)
    obtain ⟨r, hloop⟩ := copy_loop_ok sep hholds hrest (by omega)
    obtain ⟨strings', hrest', hremain, htotal⟩ :=
      (copy_loop_sound hholds sep iter st1).of_ok hloop
    obtain ⟨rfl, hst⟩ := hrest.unique hrest'
    rw [heq, hloop, halt_bind_ok, joined_cons]
    dsimp only
    rw [hremain.finish (by rw [length_append]; omega), hst]

/-- The subtraction underflows when the first string is longer than what is reserved. -/
theorem copy_fault (hcall : borrow first st = some (string, st1)) (hlt : n < string.bytes.length)
    (hgrown : ByteVec.Granted t alloc (max 8 (max (2 * n) string.bytes.length))) :
    copy t alloc borrow n first iter sep st = .error .fault := by
  obtain ⟨vec, hvec, hlen, hstarts⟩ := with_capacity_ok hgranted
  have hcap : vec.grown vec.len string.bytes.length = max 8 (max (2 * n) string.bytes.length) := by
    rw [grown, hstarts.capacity, hlen, length_nil, zero_add, zero_add]
  obtain ⟨vec', n', hextend, hlen', -⟩ :=
    hstarts.extend_ok hlen fun _ => hcap ▸ hgrown
  rw [length_nil, zero_add] at hlen'
  rw [copy, hvec, halt_bind_ok, hcall, call, halt_bind_ok]
  dsimp only
  rw [hextend, halt_bind_ok, hlen', sub_len, if_neg (not_le.mpr hlt)]
  rfl

/-- The program ends when there is no memory for the first string. -/
theorem copy_error (hcall : borrow first st = some (string, st1)) (hlt : n < string.bytes.length)
    (hgrown : ¬ ByteVec.Granted t alloc (max 8 (max (2 * n) string.bytes.length))) :
    ∃ e, copy t alloc borrow n first iter sep st = .error e ∧ e ≠ .fault := by
  obtain ⟨vec, hvec, hlen, hstarts⟩ := with_capacity_ok hgranted
  have hcap : vec.grown vec.len string.bytes.length = max 8 (max (2 * n) string.bytes.length) := by
    rw [grown, hstarts.capacity, hlen, length_nil, zero_add, zero_add]
  have hroom : vec.capacity - vec.len < string.bytes.length := by
    rw [hstarts.capacity, hlen, length_nil]
    omega
  obtain ⟨e, hreserve, hne⟩ := reserve_error t alloc hroom (by rwa [hcap])
  refine ⟨e, ?_, hne⟩
  rw [copy, hvec, halt_bind_ok, hcall, call, halt_bind_ok]
  dsimp only
  rw [extend_from_slice, reserve, hreserve]
  rfl

omit hgranted

/-! ## Joining -/

def join (t : Target) (alloc : ℕ → Bool) (borrow : S → σ → Option (Utf8Str × σ)) (slice : List S)
    (sep : Utf8Str) (st : σ) : Except Halt (List UInt8 × σ) :=
  join_generic_copy t alloc borrow slice sep.bytes st

/-- **What a call of `join` should do.** It is no fault. When it returns, the result is what the
calls of the copying pass returned, with the separator between. When `borrow` always returns the
same, and there is memory for the result, it returns. -/
structure Correct (t : Target) (alloc : ℕ → Bool) (borrow : S → σ → Option (Utf8Str × σ))
    (slice : List S) (sep : Utf8Str) (st : σ) : Prop where
  safe : join t alloc borrow slice sep st ≠ .error .fault
  returned : ∀ bytes st', join t alloc borrow slice sep st = .ok (bytes, st') →
    Utf8.WellFormed bytes ∧ ∃ measured st1 copied, Returns borrow st slice measured st1 ∧
      Returns borrow st1 slice copied st' ∧ bytes = joined sep.bytes copied
  consistent : ∀ f : S → Utf8Str, (∀ s ∈ slice, ∀ st, ∃ st', borrow s st = some (f s, st')) →
    (joined sep.bytes (slice.map f)).length ≤ t.usizeMax →
    ByteVec.Granted t alloc (joined sep.bytes (slice.map f)).length →
    ∃ st', join t alloc borrow slice sep st = .ok (joined sep.bytes (slice.map f), st')

/-- **The first string of the copying pass fits** into the length that was measured, unless the
program ends before that matters. -/
def FirstFits (t : Target) (alloc : ℕ → Bool) (borrow : S → σ → Option (Utf8Str × σ))
    (slice : List S) (sep : Utf8Str) (st : σ) : Prop :=
  ∀ first iter measured st1 string st2, slice = first :: iter →
    Returns borrow st slice measured st1 → borrow first st1 = some (string, st2) →
    let reserved := sep.bytes.length * iter.length + total measured
    reserved ≤ t.usizeMax → ByteVec.Granted t alloc reserved →
    ByteVec.Granted t alloc (max 8 (max (2 * reserved) string.bytes.length)) →
    string.bytes.length ≤ reserved

theorem copy_safe (iter : List S) (sep : List UInt8) (hfits : ∀ string st1,
    borrow first st = some (string, st1) → ByteVec.Granted t alloc n →
    ByteVec.Granted t alloc (max 8 (max (2 * n) string.bytes.length)) → string.bytes.length ≤ n) :
    Faultless (copy t alloc borrow n first iter sep st) fun r =>
      ∃ strings, Returns borrow st (first :: iter) strings r.2 ∧ r.1 = joined sep strings := by
  by_cases hgranted : ByteVec.Granted t alloc n
  · cases hcall : borrow first st with
    | none =>
      obtain ⟨vec, hvec, -⟩ := with_capacity_ok hgranted
      rw [copy, hvec, halt_bind_ok, hcall]
      exact nofun
    | some r =>
      obtain ⟨string, st1⟩ := r
      by_cases hle : string.bytes.length ≤ n
      · exact copy_sound hgranted hcall hle
      · have hgrown := fun hgrown => hle (hfits string st1 hcall hgranted hgrown)
        obtain ⟨e, heq, hne⟩ := copy_error hgranted hcall (Nat.lt_of_not_le hle) hgrown
        rw [heq]
        exact hne
  · obtain ⟨e, heq, hne⟩ := with_capacity_error hgranted
    rw [copy, heq]
    exact hne

theorem lt_card {t : Target} : n < t.usizeCard ↔ n ≤ t.usizeMax := by
  have hpos : 0 < t.usizeCard := Nat.two_pow_pos _
  rw [Target.usizeMax]
  omega

theorem join_sound {sep : Utf8Str} (h : FirstFits t alloc borrow slice sep st) :
    Faultless (join t alloc borrow slice sep st) fun r => ∃ measured st1 copied,
      Returns borrow st slice measured st1 ∧ Returns borrow st1 slice copied r.2 ∧
        r.1 = joined sep.bytes copied := by
  cases slice with
  | nil => exact ⟨[], st, [], .nil st, .nil st, rfl⟩
  | cons first iter =>
    refine (reserved_len_sound first iter sep.bytes st).bind fun r hr => ?_
    obtain ⟨reserved, st1⟩ := r
    cases reserved with
    | none => exact nofun
    | some n =>
      obtain ⟨measured, hmeasured, rfl, hlt⟩ := hr n rfl
      refine (copy_safe iter sep.bytes fun string st2 hcall => ?_).mono fun r hr => ?_
      · exact h first iter measured st1 string st2 rfl hmeasured hcall (lt_card.mp hlt)
      · obtain ⟨copied, hcopied, heq⟩ := hr
        exact ⟨measured, st1, copied, hmeasured, hcopied, heq⟩

theorem returns_consistent {f : S → Utf8Str}
    (hf : ∀ s ∈ slice, ∀ st, ∃ st', borrow s st = some (f s, st')) (st : σ) :
    ∃ st', Returns borrow st slice (slice.map f) st' := by
  induction slice generalizing st with
  | nil => exact ⟨st, .nil st⟩
  | cons s slice ih =>
    obtain ⟨st1, hcall⟩ := hf s mem_cons_self st
    obtain ⟨st2, hrest⟩ := ih (fun s hs => hf s (mem_cons_of_mem _ hs)) st1
    exact ⟨st2, .cons hcall hrest⟩

/-- A consistent `borrow`. -/
theorem join_consistent {sep : Utf8Str} {f : S → Utf8Str}
    (hf : ∀ s ∈ slice, ∀ st, ∃ st', borrow s st = some (f s, st'))
    (hle : (joined sep.bytes (slice.map f)).length ≤ t.usizeMax)
    (hgranted : ByteVec.Granted t alloc (joined sep.bytes (slice.map f)).length) :
    ∃ st', join t alloc borrow slice sep st = .ok (joined sep.bytes (slice.map f), st') := by
  cases slice with
  | nil => exact ⟨st, rfl⟩
  | cons first iter =>
    obtain ⟨st1, hmeasured⟩ := returns_consistent hf st
    obtain ⟨st2, hcopied⟩ := returns_consistent hf st1
    have hlen : (joined sep.bytes ((first :: iter).map f)).length =
        sep.bytes.length * iter.length + total ((first :: iter).map f) := by
      rw [map_cons, length_joined, length_map]
    refine ⟨st2, ?_⟩
    rw [join, join_generic_copy, reserved_len_ok hmeasured (hlen ▸ lt_card.mpr hle), halt_bind_ok]
    exact copy_ok (hlen ▸ hgranted) hcopied hlen

/-- **Joining** does what it should if and only if the first string of the copying pass fits. -/
theorem join_correct_iff (t : Target) (alloc : ℕ → Bool)
    (borrow : S → σ → Option (Utf8Str × σ)) (slice : List S) (sep : Utf8Str) (st : σ) :
    Correct t alloc borrow slice sep st ↔ FirstFits t alloc borrow slice sep st := by
  constructor
  · intro h first iter measured st1 string st2 hslice hmeasured hcall
    subst hslice
    dsimp only
    intro hle hgranted hgrown
    by_contra hlong
    refine h.safe ?_
    rw [join, join_generic_copy, reserved_len_ok hmeasured (lt_card.mpr hle), halt_bind_ok]
    exact copy_fault hgranted hcall (Nat.lt_of_not_le hlong) hgrown
  · intro h
    refine ⟨(join_sound h).ne_fault, fun bytes st' heq => ?_, fun f hf => join_consistent hf⟩
    obtain ⟨measured, st1, copied, hmeasured, hcopied, rfl⟩ := (join_sound h).of_ok heq
    exact ⟨joined_wellFormed sep.valid copied, measured, st1, copied, hmeasured, hcopied, rfl⟩

/-- The empty string, and `a` from the second call on. -/
def changing (_ : Unit) (calls : ℕ) : Option (Utf8Str × ℕ) :=
  if calls = 0 then some (⟨[], [], rfl⟩, 1) else some (⟨[97], ['a'], rfl⟩, calls + 1)

/-- **A string that gets longer** between the passes makes the subtraction underflow. -/
theorem join_changing : ¬ Correct ⟨3, false⟩ (fun _ => true) changing [()] ⟨[], [], rfl⟩ 0 := by
  intro h
  exact h.safe rfl

end RustStd.Join
