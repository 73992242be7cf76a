import RustStd.Foundations.Slice
import RustStd.Str.Chars

/-!
# The valid and invalid parts of bytes

`Utf8Chunks` of `core/src/str/lossy.rs`. It reads a byte past the end as 0; here that byte is an
argument, `sentinel`. A split out of range ends with `none`.

`utf8_chunks_spec`: the chunks are the bytes cut into valid parts and the errors between them, each
as long as `run_utf8_validation` says.
-/

namespace RustStd.Utf8Chunks

open Utf8 Validations List Nat Option

/-! ## The code -/

structure Utf8Chunk where
  valid : List UInt8
  invalid : List UInt8
  deriving DecidableEq, Repr

def TAG_CONT_U8 : UInt8 := 128

def safe_get (sentinel : UInt8) (xs : List UInt8) (i : ℕ) : UInt8 := xs[i]?.getD sentinel

/-- A turn of the loop, with `i` and `valid_up_to`. The pairs of bytes let through for the widths 3
and 4 are those of `run_utf8_validation`. -/
def turn (sentinel : UInt8) (source : List UInt8) : ℕ × ℕ → Option (Turn (ℕ × ℕ) (ℕ × ℕ))
  | (i, valid_up_to) =>
    if i < source.length then do
      let byte ← source[i]?
      let i := i + 1
      if byte < 128 then some (.again (i, i))
      else
        match ← utf8_char_width byte with
        | 2 =>
          if safe_get sentinel source i &&& 192 ≠ TAG_CONT_U8 then some (.done (i, valid_up_to))
          else
            let i := i + 1
            some (.again (i, i))
        | 3 =>
          if second3 byte (safe_get sentinel source i) then
            let i := i + 1
            if safe_get sentinel source i &&& 192 ≠ TAG_CONT_U8 then some (.done (i, valid_up_to))
            else
              let i := i + 1
              some (.again (i, i))
          else some (.done (i, valid_up_to))
        | 4 =>
          if second4 byte (safe_get sentinel source i) then
            let i := i + 1
            if safe_get sentinel source i &&& 192 ≠ TAG_CONT_U8 then some (.done (i, valid_up_to))
            else
              let i := i + 1
              if safe_get sentinel source i &&& 192 ≠ TAG_CONT_U8 then
                some (.done (i, valid_up_to))
              else
                let i := i + 1
                some (.again (i, i))
          else some (.done (i, valid_up_to))
        | _ => some (.done (i, valid_up_to))
    else some (.done (i, valid_up_to))

def split_at_unchecked (l : List UInt8) (mid : ℕ) : Option (List UInt8 × List UInt8) :=
  if mid ≤ l.length then some (l.take mid, l.drop mid) else none

/-- `next`, where `sentinel` is read past the end -/
def next_reading (sentinel : UInt8) (source : List UInt8) :
    Option (Option Utf8Chunk × List UInt8) :=
  if source.isEmpty then some (none, source)
  else do
    let (i, valid_up_to) ← runLoop (turn sentinel source) (source.length + 1) (0, 0)
    let (inspected, remaining) ← split_at_unchecked source i
    let (valid, invalid) ← split_at_unchecked inspected valid_up_to
    some (some { valid, invalid }, remaining)

def next : List UInt8 → Option (Option Utf8Chunk × List UInt8) := next_reading 0

/-- The chunks up to `None`, in at most so many calls. -/
def collect : ℕ → List UInt8 → Option (List Utf8Chunk)
  | 0, _ => none
  | n + 1, source => do
    let (chunk, source) ← next source
    match chunk with
    | none => some []
    | some chunk => do some (chunk :: (← collect n source))

/-! ## The two automata -/

variable {sentinel : UInt8} {v : List UInt8}

theorem and_192_eq_iff (b : UInt8) : b &&& 192 = TAG_CONT_U8 ↔ Tail b := by
  have key : ∀ n < 256, (n &&& 192 = 128 ↔ 0x80 ≤ n ∧ n ≤ 0xBF) := by decide +kernel
  rw [← UInt8.toNat_inj, UInt8.toNat_and]
  exact key b.toNat b.toNat_lt

theorem tail_of_lead3 {a b : UInt8} (h : Lead3 a b) : Tail b := by
  simp only [Lead3, Tail] at h ⊢
  omega

theorem tail_of_lead4 {a b : UInt8} (h : Lead4 a b) : Tail b := by
  simp only [Lead4, Tail] at h ⊢
  omega

/-- Where a scan stops that the validator ends with an error. -/
def stop (v : List UInt8) (e : Utf8Error) : ℕ :=
  match e.error_len with
  | some k => e.valid_up_to + k
  | none => v.length

/-- What the turn of the validator is to the scan. -/
def scanned (v : List UInt8) (valid_up_to : ℕ) : ValidationTurn → Option (Turn (ℕ × ℕ) (ℕ × ℕ))
  | some (.again i) => some (.again (i, i))
  | some (.done (.error e)) => some (.done (stop v e, valid_up_to))
  | _ => none

theorem length_eq_of_getElem?_none {i : ℕ} (hi : i < v.length) (h : v[i + 1]? = none) :
    v.length = i + 1 := le_antisymm (getElem?_eq_none_iff.1 h) hi

/-- A continuation byte: the scan goes on as the validator does. -/
theorem scan_cont (hs : ¬ Tail sentinel) {i o k u : ℕ} (hi : i < v.length) (hk : o + k = i + 1)
    {rest : ℕ → ValidationTurn} {go : Option (Turn (ℕ × ℕ) (ℕ × ℕ))}
    (hgo : i + 1 < v.length → go = scanned v u (rest (i + 1))) :
    (if safe_get sentinel v (i + 1) &&& 192 ≠ TAG_CONT_U8 then some (.done (i + 1, u)) else go) =
      scanned v u
        (Validations.next v o i fun i b => if asI8 b ≥ -64 then err o (some k) else rest i) := by
  rw [next_eq, safe_get]
  cases hget : v[i + 1]? with
  | none =>
    rw [getD_none, if_pos fun h => hs ((and_192_eq_iff _).1 h)]
    exact congrArg (fun n => some (Turn.done (n, u))) (length_eq_of_getElem?_none hi hget).symm
  | some b =>
    rw [getD_some]
    dsimp only
    by_cases hb : Tail b
    · rw [if_neg (not_not.2 ((and_192_eq_iff b).2 hb)), if_neg fun h => (asI8_ge_iff b).1 h hb]
      exact hgo (List.getElem?_eq_some_iff.1 hget).1
    · rw [if_pos fun h => hb ((and_192_eq_iff b).1 h), if_pos ((asI8_ge_iff b).2 hb)]
      exact congrArg (fun n => some (Turn.done (n, u))) hk.symm

/-- A second byte that a test lets through: the scan goes on as the validator does. -/
theorem scan_second {p : UInt8 → Bool} (hs : p sentinel = false) {i o k u : ℕ} (hi : i < v.length)
    (hk : o + k = i + 1) {rest : ℕ → ValidationTurn} {go : Option (Turn (ℕ × ℕ) (ℕ × ℕ))}
    (hgo : i + 1 < v.length → go = scanned v u (rest (i + 1))) :
    (if p (safe_get sentinel v (i + 1)) then go else some (.done (i + 1, u))) =
      scanned v u (Validations.next v o i fun i b => if p b then rest i else err o (some k)) := by
  rw [next_eq, safe_get]
  cases hget : v[i + 1]? with
  | none =>
    rw [getD_none, if_neg (by rw [hs]; exact Bool.false_ne_true)]
    exact congrArg (fun n => some (Turn.done (n, u))) (length_eq_of_getElem?_none hi hget).symm
  | some b =>
    rw [getD_some]
    dsimp only
    by_cases hb : p b = true
    · rw [if_pos hb, if_pos hb]
      exact hgo (List.getElem?_eq_some_iff.1 hget).1
    · rw [if_neg hb, if_neg hb]
      exact congrArg (fun n => some (Turn.done (n, u))) hk.symm

/-- **A byte from 128 on** is treated as by the validator, whatever byte that is no continuation
byte is read past the end. -/
theorem turn_eq (hs : ¬ Tail sentinel) {i : ℕ} (hi : i < v.length) (h128 : 128 ≤ v[i].toNat)
    (u : ℕ) : turn sentinel v (i, u) = scanned v u (scalarTurn v i v[i]) := by
  have h3 : second3 v[i] sentinel = false :=
    Bool.eq_false_iff.2 fun h => hs (tail_of_lead3 ((second3_iff _ _).1 h))
  have h4 : second4 v[i] sentinel = false :=
    Bool.eq_false_iff.2 fun h => hs (tail_of_lead4 ((second4_iff _ _).1 h))
  have hascii : ¬ v[i] < 128 := UInt8.not_lt.2 (UInt8.le_iff_toNat_le.2 h128)
  obtain ⟨w, hw⟩ : ∃ w, utf8_char_width v[i] = some w := ⟨_, utf8_char_width_eq _⟩
  rw [turn, if_pos hi, scalarTurn, getElem?_eq_getElem hi]
  simp only [some_bind, if_neg hascii, hw]
  match w with
  | 2 => exact scan_cont (k := 1) hs hi rfl fun _ => rfl
  | 3 =>
    refine scan_second (k := 1) h3 hi rfl fun hi => ?_
    exact scan_cont (o := i) (k := 2) hs hi rfl fun _ => rfl
  | 4 =>
    refine scan_second (k := 1) h4 hi rfl fun hi => ?_
    refine scan_cont (o := i) (k := 2) hs hi rfl fun hi => ?_
    exact scan_cont (o := i) (k := 3) hs hi rfl fun _ => rfl
  | 0 => rfl
  | 1 => rfl
  | _ + 5 => rfl

/-! ## One chunk -/

/-- Where the loop leaves `i` and `valid_up_to`. -/
def Stopped (v : List UInt8) (i valid_up_to : ℕ) : Except Utf8Error Unit → Prop
  | .ok () => i = v.length ∧ valid_up_to = v.length
  | .error e => i = stop v e ∧ valid_up_to = e.valid_up_to

theorem turn_spec (hs : ¬ Tail sentinel) {i : ℕ} (hinv : ValidationInv v i) :
    TurnSpec (fun s : ℕ × ℕ => s.2 = s.1 ∧ ValidationInv v s.1) (fun s => v.length - s.1)
      (fun s => ∃ r, ValidationSpec v r ∧ Stopped v s.1 s.2 r) (i, i) (turn sentinel v (i, i)) := by
  obtain ⟨hle, hw⟩ := hinv
  by_cases hi : i < v.length
  · have hget := getElem?_eq_getElem hi
    by_cases h128 : 128 ≤ v[i].toNat
    · have hspec := scalarTurn_spec (drop_eq_getElem_cons hi) h128
      rw [turn_eq hs hi h128]
      match hturn : scalarTurn v i v[i] with
      | none => rw [hturn] at hspec; exact hspec.elim
      | some (.again j) =>
        rw [hturn] at hspec
        obtain ⟨n, rfl, hn, henc⟩ := hspec
        have hpos := henc.length_pos
        rw [length_take, length_drop] at hpos
        refine ⟨⟨rfl, hn, ?_⟩, Nat.sub_lt_sub_left hi (by dsimp only; omega)⟩
        rw [take_add]
        exact hw.append henc.wellFormed
      | some (.done (.ok ())) => rw [hturn] at hspec; exact hspec.elim
      | some (.done (.error e)) =>
        rw [hturn] at hspec
        obtain ⟨rfl, hstop, herr⟩ := hspec
        obtain ⟨hno, hgreatest⟩ := isGreatest_of_stop hi hw hstop
        exact ⟨.error e, ⟨hno, hgreatest, herr⟩, rfl, rfl⟩
    · have hascii : v[i] < 128 := UInt8.lt_iff_toNat_lt.2 (not_le.1 h128)
      have hr := asciiRange_succ hget (not_le.1 h128)
      rw [turn, if_pos hi, hget]
      simp only [some_bind, if_pos hascii]
      exact ⟨⟨rfl, hr.2.1, hr.wellFormed_take hw⟩, Nat.sub_lt_sub_left hi (Nat.lt_succ_self i)⟩
  · obtain rfl : i = v.length := le_antisymm hle (not_lt.1 hi)
    rw [turn, if_neg hi]
    rw [take_length] at hw
    exact ⟨.ok (), hw, rfl, rfl⟩

theorem scan_spec (hs : ¬ Tail sentinel) (v : List UInt8) :
    ∃ r i u, runLoop (turn sentinel v) (v.length + 1) (0, 0) = some (i, u) ∧ ValidationSpec v r ∧
      Stopped v i u r := by
  obtain ⟨⟨i, u⟩, hrun, r, hr, hstop⟩ := runLoop_spec (turn sentinel v)
    (fun s => s.2 = s.1 ∧ ValidationInv v s.1) (fun s => v.length - s.1)
    (fun s => ∃ r, ValidationSpec v r ∧ Stopped v s.1 s.2 r)
    (by
      rintro ⟨i, u⟩ ⟨hu, hinv⟩
      obtain rfl : u = i := hu
      exact turn_spec hs hinv)
    (v.length + 1) (0, 0) ⟨rfl, zero_le _, wellFormed_nil⟩ (lt_succ_self _)
  exact ⟨r, i, u, hrun, hr, hstop⟩

theorem errorAt_unique {l : List UInt8} {a b : Option ℕ} (ha : ErrorAt l a) (hb : ErrorAt l b) :
    a = b := by
  have hstarts {l : List UInt8} (h : IsProperEncPrefix l) : IsEncPrefix l := by
    obtain ⟨c, hc, -⟩ := h
    exact ⟨c, hc⟩
  have hle {a b : ℕ} (ha : ErrorAt l (some a)) (hb : ErrorAt l (some b)) : a ≤ b := by
    obtain ⟨-, ⟨-, -, hlen⟩, -, ha | ha⟩ := ha
    · obtain ⟨-, ⟨hpos, -⟩, -⟩ := hb
      omega
    · exact hb.2.2.1 a hlen ha
  match a, b with
  | none, none => rfl
  | none, some _ => exact absurd (hstarts ha) hb.1
  | some _, none => exact absurd (hstarts hb) ha.1
  | some a, some b => rw [le_antisymm (hle ha hb) (hle hb ha)]

variable {r : Except Utf8Error Unit}

/-- The bytes fix what a validation says of them. -/
theorem validationSpec_unique {r' : Except Utf8Error Unit} (h : ValidationSpec v r)
    (h' : ValidationSpec v r') : r = r' := by
  match r, r' with
  | .ok (), .ok () => rfl
  | .ok (), .error e => exact absurd h h'.1
  | .error e, .ok () => exact absurd h' h.1
  | .error ⟨u, k⟩, .error ⟨u', k'⟩ =>
    obtain ⟨-, hu, hk⟩ := h
    obtain ⟨-, hu', hk'⟩ := h'
    obtain rfl : u = u' := hu.unique hu'
    obtain rfl : k = k' := errorAt_unique hk hk'
    rfl

/-- The first chunk of bytes with this validation, and what is left. -/
def chunkOf (v : List UInt8) : Except Utf8Error Unit → Utf8Chunk × List UInt8
  | .ok () => (⟨v, []⟩, [])
  | .error e =>
    (⟨v.take e.valid_up_to, (v.drop e.valid_up_to).take (stop v e - e.valid_up_to)⟩,
      v.drop (stop v e))

/-- An error has from one to three bytes. -/
theorem stop_spec {e : Utf8Error} (h : ValidationSpec v (.error e)) :
    e.valid_up_to < stop v e ∧ stop v e ≤ v.length ∧ stop v e ≤ e.valid_up_to + 3 := by
  obtain ⟨hno, ⟨⟨hle, hw⟩, -⟩, herr⟩ := h
  have hlt : e.valid_up_to < v.length := by
    refine lt_of_le_of_ne hle fun heq => hno ?_
    rwa [heq, take_length] at hw
  rw [stop]
  match hlen : e.error_len with
  | some k =>
    rw [hlen] at herr
    obtain ⟨-, ⟨hpos, hk3, hk⟩, -⟩ := herr
    rw [length_drop] at hk
    dsimp only
    omega
  | none =>
    rw [hlen] at herr
    obtain ⟨c, hc, hne⟩ := herr
    have hsize := c.utf8Size_le_four
    have hcle := hc.length_le
    have hneq : (v.drop e.valid_up_to).length ≠ (String.utf8EncodeChar c).length :=
      fun heq => hne (hc.eq_of_length heq)
    rw [String.length_utf8EncodeChar, length_drop] at hcle hneq
    dsimp only
    omega

/-- **One call**: the chunk is cut off where the validation says, whatever byte that is no
continuation byte is read past the end. -/
theorem next_spec (hs : ¬ Tail sentinel) (hne : v ≠ [])
    (hr : ValidationSpec v r) :
    next_reading sentinel v = some (some (chunkOf v r).1, (chunkOf v r).2) := by
  obtain ⟨r', i, u, hrun, hr', hstop⟩ := scan_spec hs v
  obtain rfl := validationSpec_unique hr hr'
  rw [next_reading, if_neg (by rwa [List.isEmpty_iff]), hrun, some_bind]
  dsimp only
  match r with
  | .ok () =>
    obtain ⟨rfl, rfl⟩ := hstop
    rw [split_at_unchecked, if_pos le_rfl, some_bind]
    rw [split_at_unchecked, if_pos (by rw [take_length]), some_bind, take_length,
      take_length, drop_length]
    rfl
  | .error e =>
    obtain ⟨rfl, rfl⟩ := hstop
    obtain ⟨hlt, hle, -⟩ := stop_spec hr
    rw [split_at_unchecked, if_pos hle, some_bind]
    rw [split_at_unchecked, if_pos (by rw [length_take_of_le hle]; exact hlt.le),
      some_bind, take_take, min_eq_left hlt.le, drop_take]
    rfl

/-! ## All chunks -/

theorem not_tail_zero : ¬ Tail 0 := by decide

/-- Every input has a validation. -/
theorem exists_validation (v : List UInt8) : ∃ r, ValidationSpec v r := by
  obtain ⟨r, -, -, -, hr, -⟩ := scan_spec not_tail_zero v
  exact ⟨r, hr⟩

/-- What holds of every chunk. -/
structure Utf8Chunk.Ok (c : Utf8Chunk) : Prop where
  valid : WellFormed c.valid
  invalid : c.invalid.length ≤ 3

/-- The chunk and what is left after it. -/
theorem chunkOf_spec (hr : ValidationSpec v r) :
    (chunkOf v r).1.Ok ∧ (chunkOf v r).1.valid ++ (chunkOf v r).1.invalid ++ (chunkOf v r).2 = v ∧
      ((chunkOf v r).1.invalid = [] → (chunkOf v r).2 = []) := by
  match r with
  | .ok () =>
    refine ⟨⟨hr, zero_le 3⟩, ?_, fun _ => rfl⟩
    rw [chunkOf, append_nil, append_nil]
  | .error e =>
    obtain ⟨hlt, hle, hthree⟩ := stop_spec hr
    have hlen : ((v.drop e.valid_up_to).take (stop v e - e.valid_up_to)).length =
        stop v e - e.valid_up_to := by
      rw [length_take_of_le]
      rw [length_drop]
      omega
    refine ⟨⟨hr.2.1.1.2, ?_⟩, ?_, fun hnil => ?_⟩
    · rw [chunkOf, hlen]
      omega
    · rw [chunkOf, ← take_add, Nat.add_sub_cancel' hlt.le, take_append_drop]
    · rw [chunkOf] at hnil
      dsimp only at hnil
      rw [hnil, length_nil] at hlen
      omega

theorem length_chunkOf_lt (hr : ValidationSpec v r) (hne : v ≠ []) :
    (chunkOf v r).2.length < v.length := by
  have hpos := length_pos_of_ne_nil hne
  match r with
  | .ok () => exact hpos
  | .error e =>
    obtain ⟨hlt, hle, -⟩ := stop_spec hr
    rw [chunkOf, length_drop]
    omega

/-- The chunks of the bytes, each of which is what a call returns there. -/
theorem collect_spec (n : ℕ) (v : List UInt8) (hn : v.length < n) :
    ∃ chunks, collect n v = some chunks ∧
      (chunks.flatMap fun c => c.valid ++ c.invalid) = v ∧ (∀ c ∈ chunks, c.Ok) ∧
      (∀ c ∈ chunks.dropLast, c.invalid ≠ []) ∧
      (v ≠ [] → ∀ r, ValidationSpec v r → chunks.head? = some (chunkOf v r).1) ∧
      (v = [] → chunks = []) := by
  induction n generalizing v with
  | zero => exact absurd hn (not_lt_zero _)
  | succ n ih =>
    rw [collect, next]
    obtain rfl | hne := eq_or_ne v []
    · exact ⟨[], rfl, rfl, forall_mem_nil _, forall_mem_nil _, fun h => absurd rfl h, fun _ => rfl⟩
    obtain ⟨r, hr⟩ := exists_validation v
    obtain ⟨hok, hsplit, hlast⟩ := chunkOf_spec hr
    have hlt := length_chunkOf_lt hr hne
    obtain ⟨chunks, hrun, hflat, hoks, hinvalid, -, hnil⟩ := ih (chunkOf v r).2 (by omega)
    refine ⟨(chunkOf v r).1 :: chunks, ?_, ?_, ?_, ?_, fun _ r' hr' => ?_, fun h => absurd h hne⟩
    · rw [next_spec not_tail_zero hne hr]
      simp only [some_bind, hrun]
    · rw [flatMap_cons, hflat, hsplit]
    · exact forall_mem_cons.2 ⟨hok, hoks⟩
    · cases chunks with
      | nil => exact forall_mem_nil _
      | cons c chunks =>
        rw [dropLast_cons_cons]
        refine forall_mem_cons.2 ⟨fun h => ?_, hinvalid⟩
        cases hnil (hlast h)
    · rw [head?_cons, validationSpec_unique hr hr']

/-- **The chunks of all bytes**: one after the other they are the input, the valid parts are
well-formed, and the invalid ones have at most three bytes and are empty only in the last chunk.
The first chunk ends where `run_utf8_validation` says, and what is read past the end makes no
difference to a chunk. -/
theorem utf8_chunks_spec (source : List UInt8) :
    (∃ chunks, collect (source.length + 1) source = some chunks ∧
      (chunks.flatMap fun c => c.valid ++ c.invalid) = source ∧
      (∀ c ∈ chunks, WellFormed c.valid ∧ c.invalid.length ≤ 3) ∧
      (∀ c ∈ chunks.dropLast, c.invalid ≠ []) ∧
      ∀ t constEval addr, ∃ r, run_utf8_validation t constEval addr source = some r ∧ match r with
        | .ok () => source = [] ∧ chunks = [] ∨ chunks.head? = some ⟨source, []⟩
        | .error e => ∃ c, chunks.head? = some c ∧ c.valid = source.take e.valid_up_to ∧
            c.valid.length = e.valid_up_to ∧
            match e.error_len with
            | some k => c.invalid = (source.drop e.valid_up_to).take k ∧ c.invalid.length = k
            | none => c.invalid = source.drop e.valid_up_to) ∧
      ∀ sentinel : { b : UInt8 // ¬ Tail b }, next_reading sentinel source = next source := by
  constructor
  · obtain ⟨chunks, hrun, hflat, hoks, hinvalid, hhead, hnil⟩ :=
      collect_spec (source.length + 1) source (lt_succ_self _)
    refine ⟨chunks, hrun, hflat, fun c hc => ⟨(hoks c hc).valid, (hoks c hc).invalid⟩, hinvalid,
      fun t constEval addr => ?_⟩
    obtain ⟨r, hval, hr, -⟩ := run_utf8_validation_spec t constEval addr source
    refine ⟨r, hval, ?_⟩
    match r with
    | .ok () =>
      obtain hne | hne := eq_or_ne source []
      · exact .inl ⟨hne, hnil hne⟩
      · exact .inr (hhead hne _ hr)
    | .error e =>
      obtain ⟨hlt, hle, -⟩ := stop_spec hr
      have hne : source ≠ [] := ne_nil_of_length_pos (by omega)
      refine ⟨_, hhead hne _ hr, rfl, length_take_of_le (by omega), ?_⟩
      have hdrop : (source.drop e.valid_up_to).length = source.length - e.valid_up_to :=
        length_drop
      rw [stop] at hle hlt
      rw [chunkOf, stop]
      match hlen : e.error_len with
      | some k =>
        rw [hlen] at hle
        dsimp only at hle ⊢
        rw [Nat.add_sub_cancel_left]
        exact ⟨rfl, length_take_of_le (by omega)⟩
      | none => exact take_of_length_le hdrop.le
  · rintro ⟨b, hb⟩
    obtain rfl | hne := eq_or_ne source []
    · rfl
    · obtain ⟨r, hr⟩ := exists_validation source
      rw [next, next_spec hb hne hr, next_spec not_tail_zero hne hr]

end RustStd.Utf8Chunks
