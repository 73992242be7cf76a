import RustStd.Path.Compare

/-!
# Hashing paths

`Hash` for `Path`, after `std/src/path.rs`. The hasher is given the prefix and then the bytes
between separators, found by a scan of its own. What it is given depends on the components and on
how the bytes behind the prefix begin (`chunks_eq_spelled`). So equal paths are hashed alike if
they are spelled alike there, and only then (`compare_and_hash`).
-/

namespace RustStd.Path

open DoubleEnded Iter List Option Platform

/-! ## The writes -/

/-- What a hasher is given, with `w` bits for a `usize`. -/
inductive Write (w : ℕ)
  | bytes (bytes : List UInt8)
  | length_prefix (len : ℕ)
  | u8 (x : UInt8)
  | usize (x : BitVec w)
  | isize (x : ℕ)
  deriving DecidableEq, Repr

variable {w : ℕ}

/-- `OsStr::hash` -/
def hash_os_str (x : List UInt8) : List (Write w) := [ Write.length_prefix x.length, .bytes x]

/-- `Prefix::hash`, as it is derived. -/
def Prefix.hash (self : Prefix) : List (Write w) :=
  .isize self.rank :: match self with
    | Verbatim x | DeviceNS x => hash_os_str x
    | VerbatimUNC x y | UNC x y => hash_os_str x ++ hash_os_str y
    | VerbatimDisk x | Disk x => [.u8 x]

/-- The variables of the loop of `Path::hash`, and what was written. -/
structure HashState (w : ℕ) where
  component_start : ℕ
  chunk_bits : BitVec w
  writes : List (Write w)
  deriving DecidableEq, Repr

namespace HashState

/-- A chunk is written. -/
def chunk (self : HashState w) (to_hash : List UInt8) : HashState w :=
  { self with
    chunk_bits := (self.chunk_bits + BitVec.ofNat w to_hash.length).rotateRight 2
    writes := self.writes ++ [.bytes to_hash] }

end HashState

/-- The bytes of the component `.` that a separator skips. -/
def skipped (P : Platform) : List UInt8 → ℕ
  | [46] => 1
  | 46 :: sep :: _ => if P.is_sep_byte sep then 1 else 0
  | _ => 0

/-- The loop of `Path::hash` at the index `i`. -/
def hash_turn (P : Platform) (verbatim : Bool) (bytes : List UInt8) (s : HashState w) (i : ℕ) :
    Option (HashState w) := do
  let b ← bytes[i]?
  if (if verbatim then P.is_verbatim_sep b else P.is_sep_byte b) then
    let s ← (if i > s.component_start then do
        return s.chunk (← slice_from (← slice_to bytes i) s.component_start)
      else some s)
    let tail ← slice_from bytes (i + 1)
    return { s with component_start := i + 1 + if ! verbatim then skipped P tail else 0 }
  else return s

/-- `Path::hash` -/
def hash (w : ℕ) (P : Platform) (path : List UInt8) : Option (List (Write w)) := do
  let kind ← P.parse_prefix path
  let (writes, prefix_len, verbatim) := match kind with
    | some p => (p.hash, p.len, p.is_verbatim)
    | none => ([], 0, false)
  let bytes ← slice_from path prefix_len
  let s ← (range bytes.length).foldlM (hash_turn P verbatim bytes) ⟨0, 0, writes⟩
  let s ← (if s.component_start < bytes.length then do
      return s.chunk (← slice_from bytes s.component_start)
    else some s)
  return s.writes ++ [.usize s.chunk_bits]

example : hash 64 .windows [67, 58, 46] =
    some [.isize 5, .u8 67, .bytes [46], .usize 0x4000000000000000] := by decide

variable {P : Platform} {verbatim : Bool} {p : UInt8 → Bool} {bytes xs ys : List UInt8} {b : UInt8}

/-! ## The chunks -/

/-- A piece that is hashed wherever it stands. -/
def kept (verbatim : Bool) (x : List UInt8) : Bool := x ≠ [] ∧ (verbatim = true ∨ x ≠ [46])

/-- The pieces between separators that are hashed wherever they stand. -/
def pieces (verbatim : Bool) (p : UInt8 → Bool) (bytes : List UInt8) : List (List UInt8) :=
  (bytes.splitOnP p).filter (kept verbatim)

/-- **What is hashed**: these, and the component `.` at the start. -/
def chunks (verbatim : Bool) (p : UInt8 → Bool) (bytes : List UInt8) : List (List UInt8) :=
  (if ! verbatim && dot_start p bytes then [[46]] else []) ++ pieces verbatim p bytes

theorem pieces_append_cons (hb : p b = true) (xs ys : List UInt8) :
    pieces verbatim p (xs ++ b :: ys) = pieces verbatim p xs ++ pieces verbatim p ys := by
  rw [pieces, splitOnP_append_cons xs ys hb, filter_append]
  rfl

theorem pieces_of_none (h : ∀ b ∈ xs, p b = false) :
    pieces verbatim p xs = if kept verbatim xs then [xs] else [] := by
  rw [pieces, splitOnP_eq_singleton h, filter_cons, filter_nil]

@[simp] theorem pieces_nil : pieces verbatim p [] = [] :=
  pieces_of_none fun _ h => absurd h not_mem_nil

theorem pieces_cons (hb : p b = true) : pieces verbatim p (b :: ys) = pieces verbatim p ys := by
  have : pieces verbatim p ([] ++ b :: ys) = pieces verbatim p [] ++ pieces verbatim p ys :=
    pieces_append_cons hb [] ys
  rwa [nil_append, pieces_nil, nil_append] at this

variable (h : ∀ b ∈ xs, p b = false)
include h

/-- A piece `.` at the start. -/
theorem dot_start_of_none : dot_start p xs = decide (xs = [46]) := by
  rcases xs with _ | ⟨x, _ | ⟨y, xs⟩⟩
  · rfl
  · by_cases hx : x = 46
    · subst hx
      rfl
    · simp [dot_start, hx]
  · by_cases hx : x = 46
    · subst hx
      simpa [dot_start] using h y (by simp)
    · simp [dot_start, hx]

/-- The first piece is hashed unless it is empty. -/
theorem chunks_of_none : chunks verbatim p xs = if xs = [] then [] else [xs] := by
  rw [chunks, pieces_of_none h, dot_start_of_none h]
  by_cases hdot : xs = [46]
  · subst hdot
    cases verbatim <;> rfl
  · by_cases hnil : xs = []
    · simp [hnil, kept]
    · simp [hdot, hnil, kept]

theorem chunks_append_cons (hb : p b = true) (hdot : p 46 = false) :
    chunks verbatim p (xs ++ b :: ys) = (if xs = [] then [] else [xs]) ++ pieces verbatim p ys := by
  have hne : b ≠ 46 := by
    rintro rfl
    exact absurd (hb.symm.trans hdot) (by simp)
  have hstart : dot_start p (xs ++ b :: ys) = dot_start p xs := by
    rcases xs with _ | ⟨x, _ | ⟨y, xs⟩⟩
    · simp [dot_start, hne]
    · by_cases hx : x = 46
      · subst hx
        exact hb
      · simp [dot_start, hx]
    · by_cases hx : x = 46
      · subst hx
        rfl
      · simp [dot_start, hx]
  rw [← chunks_of_none h, chunks, chunks, hstart, pieces_append_cons hb, append_assoc]

omit h

/-- The separators that the hash looks for. -/
def hash_sep (P : Platform) (verbatim : Bool) : UInt8 → Bool :=
  if verbatim then P.is_verbatim_sep else P.is_sep_byte

theorem is_sep_byte_dot : P.is_sep_byte 46 = false := by
  cases P <;> rfl

theorem hash_sep_dot : hash_sep P verbatim 46 = false := by
  cases verbatim <;> cases P <;> rfl

theorem skipped_eq (P : Platform) (bytes : List UInt8) :
    skipped P bytes = (dot_start P.is_sep_byte bytes).toNat := by
  rcases bytes with _ | ⟨x, _ | ⟨sep, bytes⟩⟩
  · rfl
  · by_cases hx : x = 46
    · subst hx
      rfl
    · simp [skipped, dot_start, hx]
  · by_cases hx : x = 46
    · subst hx
      simp only [skipped, dot_start]
      cases P.is_sep_byte sep <;> rfl
    · simp [skipped, dot_start, hx]

/-- **Behind a separator** a component `.` is skipped. -/
theorem chunks_drop_skipped (P : Platform) (verbatim : Bool) (bytes : List UInt8) :
    chunks verbatim (hash_sep P verbatim) (bytes.drop (if ! verbatim then skipped P bytes else 0)) =
      pieces verbatim (hash_sep P verbatim) bytes := by
  cases verbatim with
  | true => rfl
  | false =>
    have hsep : hash_sep P false = P.is_sep_byte := rfl
    have hdot : P.is_sep_byte 46 = false := is_sep_byte_dot
    rw [Bool.not_false, if_pos rfl, skipped_eq, hsep]
    cases h : dot_start P.is_sep_byte bytes with
    | false =>
      rw [Bool.toNat_false, drop_zero, chunks, h]
      rfl
    | true =>
      have hpiece : pieces false P.is_sep_byte [46] = [] := by
        rw [pieces_of_none (by simpa using hdot)]
        rfl
      rw [dot_start.eq_def] at h
      split at h
      · rw [hpiece]
        rfl
      · next b ys =>
        have : pieces false P.is_sep_byte ([46] ++ b :: ys) =
            pieces false P.is_sep_byte [46] ++ pieces false P.is_sep_byte ys :=
          pieces_append_cons h [46] ys
        rw [hpiece, nil_append] at this
        refine Eq.trans ?_ this.symm
        exact chunks_append_cons (fun b hb => absurd hb not_mem_nil) h hdot
      · cases h

/-- What is skipped is the byte `.`. -/
theorem skipped_spec (P : Platform) (bytes : List UInt8) : skipped P bytes ≤ bytes.length ∧
    ∀ k b, k < skipped P bytes → bytes[k]? = some b → b = 46 := by
  have hone (bytes : List UInt8) : 1 ≤ (46 :: bytes).length ∧
      ∀ k b, k < 1 → (46 :: bytes)[k]? = some b → b = 46 := by
    refine ⟨Nat.succ_le_succ (Nat.zero_le _), fun k b hk hb => ?_⟩
    obtain rfl : k = 0 := Nat.lt_one_iff.mp hk
    exact (some.inj hb).symm
  have hzero (bytes : List UInt8) : 0 ≤ bytes.length ∧ ∀ k b, k < 0 → bytes[k]? = some b → b = 46 :=
    ⟨Nat.zero_le _, fun k b hk => absurd hk (Nat.not_lt_zero _)⟩
  rw [skipped.eq_def]
  split
  · exact hone _
  · split
    · exact hone _
    · exact hzero _
  · exact hzero _

/-! ## The scan -/

/-- The bits of the length of a chunk. -/
def add_chunk (chunk_bits : BitVec w) (to_hash : List UInt8) : BitVec w :=
  (chunk_bits + BitVec.ofNat w to_hash.length).rotateRight 2

/-- A state of the loop before the index `i`, when `l` is hashed from `s₀` on in all. -/
structure HashInv (sep : UInt8 → Bool) (verbatim : Bool) (bytes : List UInt8) (s₀ : HashState w)
    (l : List (List UInt8)) (i : ℕ) (s : HashState w) : Prop where
  start_le : s.component_start ≤ bytes.length
  piece : ∀ k b, bytes[k]? = some b →
    s.component_start ≤ k ∧ k < i ∨ i ≤ k ∧ k < s.component_start → sep b = false
  bits_eq : (chunks verbatim sep (bytes.drop s.component_start)).foldl add_chunk s.chunk_bits =
    l.foldl add_chunk s₀.chunk_bits
  writes_eq : s.writes ++ (chunks verbatim sep (bytes.drop s.component_start)).map Write.bytes =
    s₀.writes ++ l.map Write.bytes

/-- **A turn** of the loop. -/
theorem hash_turn_spec {s₀ s : HashState w} {l : List (List UInt8)} {i : ℕ}
    (hi : i < bytes.length) (h : HashInv (hash_sep P verbatim) verbatim bytes s₀ l i s) :
    ∃ s', hash_turn P verbatim bytes s i = some s' ∧
      HashInv (hash_sep P verbatim) verbatim bytes s₀ l (i + 1) s' := by
  obtain ⟨b, hb⟩ : ∃ b, bytes[i]? = some b := ⟨_, getElem?_eq_getElem hi⟩
  have hsep : (if verbatim then P.is_verbatim_sep b else P.is_sep_byte b) =
      hash_sep P verbatim b := by
    cases verbatim <;> rfl
  rw [hash_turn, hb]
  simp only [bind_eq_bind, bind_some, hsep]
  cases hbsep : hash_sep P verbatim b with
  | false =>
    refine ⟨s, rfl, h.start_le, fun k b' hk hpiece => ?_, h.bits_eq, h.writes_eq⟩
    by_cases hki : k = i
    · subst hki
      rw [hb] at hk
      rwa [← some.inj hk]
    · exact h.piece k b' hk (by omega)
  | true =>
    -- The component before the separator ends here.
    have hle : s.component_start ≤ i := by
      by_contra hlt
      exact absurd (h.piece i b hb (by omega)) (by simp [hbsep])
    have htake : (bytes.take i).length = i := length_take_of_le hi.le
    have hsplit : bytes.drop s.component_start =
        (bytes.take i).drop s.component_start ++ b :: bytes.drop (i + 1) := by
      have hdrop : bytes.drop i = b :: bytes.drop (i + 1) := by
        rw [getElem?_eq_getElem hi] at hb
        rw [drop_eq_getElem_cons hi, some.inj hb]
      rw [← hdrop, ← drop_append_of_le_length (by rwa [htake]), take_append_drop]
    have hnone : ∀ b ∈ (bytes.take i).drop s.component_start, hash_sep P verbatim b = false := by
      intro b' hb'
      obtain ⟨k, hk⟩ := getElem?_of_mem hb'
      rw [getElem?_drop, getElem?_take] at hk
      obtain ⟨hki, hk⟩ := ite_none_right_eq_some.mp hk
      exact h.piece _ b' hk (.inl ⟨Nat.le_add_right _ _, hki⟩)
    have hslice : slice_to bytes i = some (bytes.take i) := slice_to_eq hi.le
    have hslice' : slice_from (bytes.take i) s.component_start =
        some ((bytes.take i).drop s.component_start) := slice_from_eq (by rwa [htake])
    have hchunks := @chunks_append_cons verbatim _ _ (bytes.drop (i + 1)) _ hnone hbsep hash_sep_dot
    have hempty : (bytes.take i).drop s.component_start = [] ↔ ¬ i > s.component_start := by
      rw [drop_eq_nil_iff, htake, Nat.not_lt]
    obtain ⟨skip, hskip, hlen, hdots⟩ : ∃ skip, (if ! verbatim then
        skipped P (bytes.drop (i + 1)) else 0) = skip ∧ i + 1 + skip ≤ bytes.length ∧
        ∀ k b, bytes[k]? = some b → i + 1 ≤ k ∧ k < i + 1 + skip → b = 46 := by
      refine ⟨_, rfl, ?_⟩
      split
      · obtain ⟨hle, hdots⟩ := skipped_spec P (bytes.drop (i + 1))
        rw [length_drop] at hle
        refine ⟨by omega, fun k b hk hki => hdots (k - (i + 1)) b (by omega) ?_⟩
        rwa [getElem?_drop, Nat.add_sub_cancel' hki.1]
      · exact ⟨hi, fun k b hk hki => absurd hki.2 (Nat.not_lt.mpr hki.1)⟩
    have hpiece (k : ℕ) (b : UInt8) (hk : bytes[k]? = some b)
        (hki : i + 1 + skip ≤ k ∧ k < i + 1 ∨ i + 1 ≤ k ∧ k < i + 1 + skip) :
        hash_sep P verbatim b = false := by
      rw [hdots k b hk (hki.resolve_left (by omega))]
      exact hash_sep_dot
    simp only [hslice, hslice', slice_from_eq (Nat.succ_le_of_lt hi), bind_some, if_true]
    have hbits := h.bits_eq
    have hwrites := h.writes_eq
    rw [hsplit, hchunks] at hbits hwrites
    rw [← chunks_drop_skipped, hskip, drop_drop] at hbits hwrites
    rw [hskip]
    by_cases hlt : i > s.component_start
    · rw [if_pos hlt]
      rw [if_neg (hempty.not.mpr (not_not.mpr hlt))] at hbits hwrites
      refine ⟨_, rfl, hlen, hpiece, hbits, ?_⟩
      rw [← hwrites, HashState.chunk, append_assoc]
      rfl
    · rw [if_neg hlt]
      rw [if_pos (hempty.mpr hlt)] at hbits hwrites
      exact ⟨_, rfl, hlen, hpiece, hbits, hwrites⟩

/-- The writes for a prefix. -/
def prefix_writes (kind : Option Prefix) : List (Write w) := (kind.map Prefix.hash).getD []

/-- How the separators of a path are looked for. -/
def kind_verbatim (kind : Option Prefix) : Bool := (kind.map Prefix.is_verbatim).getD false

/-- **What a path feeds a hasher**: its prefix, the chunks behind it, and the bits of their
lengths. -/
theorem hash_spec {path : List UInt8} {kind : Option Prefix} {l : List (List UInt8)}
    (hkind : P.parse_prefix path = some kind) (hle : kind_len kind ≤ path.length)
    (hl : chunks (kind_verbatim kind) (hash_sep P (kind_verbatim kind))
      (path.drop (kind_len kind)) = l) :
    hash w P path = some (prefix_writes kind ++ l.map Write.bytes ++
      [.usize (l.foldl add_chunk 0)]) := by
  obtain ⟨bytes, hbytes⟩ : ∃ bytes, path.drop (kind_len kind) = bytes := ⟨_, rfl⟩
  obtain ⟨verbatim, hverbatim⟩ : ∃ verbatim, kind_verbatim kind = verbatim := ⟨_, rfl⟩
  rw [hbytes, hverbatim] at hl
  have hinit : HashInv (hash_sep P verbatim) verbatim bytes
      (⟨0, 0, prefix_writes kind⟩ : HashState w) l 0 ⟨0, 0, prefix_writes kind⟩ :=
    ⟨Nat.zero_le _, fun k _ _ hk => absurd (hk.elim And.right And.right) (Nat.not_lt_zero k),
      congrArg (foldl add_chunk 0) hl,
      congrArg (prefix_writes kind ++ map Write.bytes ·) hl⟩
  obtain ⟨s, hrun, hs⟩ := foldlM_range'_spec
    (fun i s hi h => hash_turn_spec ((Nat.zero_add bytes.length).symm ▸ hi) h) hinit
  rw [← range_eq_range'] at hrun
  rw [Nat.zero_add] at hs
  have hnone : ∀ b ∈ bytes.drop s.component_start, hash_sep P verbatim b = false := by
    intro b hb
    obtain ⟨k, hk⟩ := getElem?_of_mem hb
    rw [getElem?_drop] at hk
    obtain ⟨hlt, -⟩ := List.getElem?_eq_some_iff.mp hk
    exact hs.piece _ b hk (.inl ⟨Nat.le_add_right _ _, hlt⟩)
  have hbits := hs.bits_eq
  have hwrites := hs.writes_eq
  rw [chunks_of_none hnone] at hbits hwrites
  have hfinal : (do
      let s ← (if s.component_start < bytes.length then do
          return s.chunk (← slice_from bytes s.component_start)
        else some s)
      return s.writes ++ [.usize s.chunk_bits] : Option (List (Write w))) =
      some (prefix_writes kind ++ l.map Write.bytes ++ [.usize (l.foldl add_chunk 0)]) := by
    by_cases hlt : s.component_start < bytes.length
    · rw [if_neg (by rwa [drop_eq_nil_iff, Nat.not_le])] at hbits hwrites
      rw [if_pos hlt, slice_from_eq hs.start_le, ← hwrites, ← hbits]
      simp [HashState.chunk, add_chunk]
    · rw [if_pos (by rwa [drop_eq_nil_iff, ← Nat.not_lt])] at hbits hwrites
      rw [if_neg hlt, ← hwrites, ← hbits]
      simp
  rw [hash, hkind]
  cases kind with
  | none =>
    have hslice : slice_from path 0 = some bytes := (slice_from_eq hle).trans (congrArg some hbytes)
    obtain rfl : false = verbatim := hverbatim
    have hrun : (range bytes.length).foldlM (hash_turn P false bytes)
        (⟨0, 0, []⟩ : HashState w) = some s := hrun
    simp only [bind_eq_bind, bind_some, hslice]
    rw [hrun]
    exact hfinal
  | some p =>
    have hslice : slice_from path p.len = some bytes :=
      (slice_from_eq hle).trans (congrArg some hbytes)
    obtain rfl : p.is_verbatim = verbatim := hverbatim
    have hrun : (range bytes.length).foldlM (hash_turn P p.is_verbatim bytes)
        (⟨0, 0, p.hash⟩ : HashState w) = some s := hrun
    simp only [bind_eq_bind, bind_some, hslice]
    rw [hrun]
    exact hfinal

/-! ## The chunks and the components -/

/-- What a component gives the hasher. -/
def Component.hashed : Component → Option (List UInt8)
  | Prefix _ _ | RootDir => none
  | CurDir => some [46]
  | ParentDir => some [46, 46]
  | Normal x => some x

open Component

/-- The prefix that a component is. -/
def Component.kind : Component → Option RustStd.Path.Prefix
  | Prefix _ parsed => some parsed
  | _ => none

theorem parse_hashed (c : Components) (x : List UInt8) :
    (c.parse_single_component P x).bind hashed =
      if kept (c.prefix_verbatim P) x then some x else none := by
  rw [Components.parse_single_component]
  have hplatform : (P.HAS_PREFIXES && c.prefix_verbatim P) = c.prefix_verbatim P := by
    rw [Components.prefix_verbatim]
    cases P.HAS_PREFIXES <;> rfl
  rw [hplatform]
  by_cases hdot : x = [46]
  · subst hdot
    cases c.prefix_verbatim P <;> rfl
  · by_cases hdots : x = [46, 46]
    · subst hdots
      cases c.prefix_verbatim P <;> rfl
    · by_cases hnil : x = []
      · simp [hnil, kept]
      · simp [hdot, hdots, hnil, kept, hashed]

theorem body_hashed (c : Components) (bytes : List UInt8) : (body P c bytes).filterMap hashed =
      pieces (c.prefix_verbatim P) (c.is_sep_byte P) bytes := by
  rw [body, filterMap_filterMap, pieces, ← filterMap_eq_filter]
  congr 1
  funext x
  rw [parse_hashed]
  rfl

theorem body_kind (c : Components) (bytes : List UInt8) :
    (body P c bytes).filterMap Component.kind = [] := by
  rw [body, filterMap_filterMap, filterMap_eq_nil_iff]
  intro x _
  rw [Components.parse_single_component]
  split
  · split <;> rfl
  split
  · rfl
  split
  · rfl
  · rfl

theorem unraw_hashed (l : List Component) :
    (l.map unraw).filterMap hashed = l.filterMap hashed := by
  rw [filterMap_map]
  congr 1
  funext x
  cases x <;> rfl

theorem unraw_kind (l : List Component) :
    (l.map unraw).filterMap Component.kind = l.filterMap Component.kind := by
  rw [filterMap_map]
  congr 1
  funext x
  cases x <;> rfl

/-! ## The spelling behind the prefix -/

/-- How the bytes behind a prefix begin: with a component `.`, or with a `/` that is no separator,
together with a component or alone. -/
inductive Spelling
  | plain
  | dot
  | attached
  | detached
  deriving DecidableEq, Repr

namespace Spelling

/-- The spelling behind a verbatim prefix. -/
def of_verbatim (P : Platform) : List UInt8 → Spelling
  | [47] => .detached
  | 47 :: b :: _ => if P.is_verbatim_sep b then .detached else .attached
  | _ => .plain

/-- The spelling of the bytes `rest` behind the prefix. -/
def of (P : Platform) (kind : Option Prefix) (rest : List UInt8) : Spelling :=
  match kind with
  | none => .plain
  | some p =>
    if p.is_verbatim then of_verbatim P rest
    else if dot_start P.is_sep_byte rest then .dot else .plain

/-- The chunks, for what the components give the hasher. -/
def chunks : Spelling → List (List UInt8) → List (List UInt8)
  | plain, l => l
  | dot, l => [46] :: l
  | attached, l => l.modifyHead (47 :: ·)
  | detached, l => [47] :: l

end Spelling

/-- How the path is spelled. -/
def spelling (P : Platform) (path : List UInt8) : Option Spelling := do
  let kind ← P.parse_prefix path
  return .of P kind (path.drop (kind_len kind))

theorem dot_start_of_sep (hb : P.is_sep_byte b = true) :
    dot_start P.is_sep_byte (b :: bytes) = false := by
  have hne : b ≠ 46 := by
    rintro rfl
    exact absurd (hb.symm.trans is_sep_byte_dot) (by simp)
  rcases bytes with _ | ⟨b', bytes⟩ <;> simp [dot_start, hne]

/-- A component `.` at the start is not hashed elsewhere. -/
theorem pieces_drop_dot (h : dot_start P.is_sep_byte bytes = true) :
    pieces false P.is_sep_byte (bytes.drop 1) = pieces false P.is_sep_byte bytes := by
  have hskip := chunks_drop_skipped P false bytes
  rw [Bool.not_false, if_pos rfl, skipped_eq, h] at hskip
  have hdot : dot_start P.is_sep_byte (bytes.drop 1) = false := by
    rcases bytes with _ | ⟨x, _ | ⟨b, bytes⟩⟩
    · rfl
    · rfl
    · have hx : x = 46 := by
        by_contra hx
        simp [dot_start, hx] at h
      subst hx
      rw [drop_one, tail_cons]
      exact dot_start_of_sep h
  have hsep : hash_sep P false = P.is_sep_byte := rfl
  rw [Bool.toNat_true, hsep, chunks, hdot] at hskip
  exact hskip

theorem pieces_attach (h : p 47 = false) : pieces true p (47 :: bytes) =
    if (bytes.head?.map p).getD true then [47] :: pieces true p bytes
    else (pieces true p bytes).modifyHead (47 :: ·) := by
  have hsplit : (47 :: bytes).splitOnP p = (bytes.splitOnP p).modifyHead (47 :: ·) := by
    rw [splitOnP_cons_eq_if_modifyHead, if_neg (by simp [h])]
  rw [pieces, pieces, hsplit]
  cases bytes with
  | nil => rfl
  | cons b bytes => 
    cases hb : p b with
    | true => 
      rw [splitOnP_cons_eq_if_modifyHead, if_pos hb]
      simp [hb, kept]
    | false => 
      obtain ⟨first, more, hmore⟩ := exists_cons_of_ne_nil (splitOnP_ne_nil p bytes)
      rw [splitOnP_cons_eq_if_modifyHead, if_neg (by simp [hb]), hmore]
      simp [hb, kept]

theorem pieces_ne_nil (h : p b = false) : pieces true p (b :: bytes) ≠ [] := by
  obtain ⟨first, more, hmore⟩ := exists_cons_of_ne_nil (splitOnP_ne_nil p bytes)
  rw [pieces, splitOnP_cons_eq_if_modifyHead, if_neg (by simp [h]), hmore]
  simp [kept]

theorem is_sep_byte_of_kind {c : Components} {kind : Option Prefix} (hkind : c.kind = kind)
    (hnone : P.HAS_PREFIXES = false → kind = none) :
    c.prefix_verbatim P = kind_verbatim kind ∧
      c.is_sep_byte P = hash_sep P (kind_verbatim kind) := by
  have hverbatim : c.prefix_verbatim P = kind_verbatim kind := by
    rw [Components.prefix_verbatim, kind_verbatim, hkind]
    cases hP : P.HAS_PREFIXES with
    | true => rfl
    | false => rw [hnone hP]; rfl
  refine ⟨hverbatim, ?_⟩
  funext b
  rw [Components.is_sep_byte, hverbatim, hash_sep]
  cases kind_verbatim kind <;> rfl

/-- **Without a prefix** the hash scans the path as the iterator does. -/
theorem chunks_of_path (P : Platform) (path : List UInt8) : chunks false P.is_sep_byte path =
      (path_start P path ++ path_body P path).filterMap hashed := by
  have hbody : (path_body P path).filterMap hashed = pieces false P.is_sep_byte path := by
    rw [path_body, body_hashed, is_sep_byte_of_none rfl, prefix_verbatim_of_none rfl]
  rw [filterMap_append, hbody, chunks, path_start]
  cases path with
  | nil => rfl
  | cons b bytes =>
    cases hb : P.is_sep_byte b with
    | true =>
      rw [dot_start_of_sep hb]
      simp [hb, hashed]
    | false =>
      cases dot_start P.is_sep_byte (b :: bytes) <;> simp [hb, hashed]

/-- **Behind a prefix** it may differ at the start. -/
theorem chunks_of_prefix {path raw : List UInt8} {p : Prefix} {c : Components}
    (hc : c = ⟨path, some p, ((path.drop p.len).head?.map windows.is_sep_byte).getD false,
      .Prefix, .Body⟩) :
    chunks p.is_verbatim (hash_sep .windows p.is_verbatim) (path.drop p.len) =
        (Spelling.of .windows (some p) (path.drop p.len)).chunks
          ((c.remaining .windows raw).filterMap hashed) ∧
      (Spelling.of .windows (some p) (path.drop p.len) = .attached →
        (c.remaining .windows raw).filterMap hashed ≠ []) := by
  obtain ⟨hverbatim, hsep⟩ := @is_sep_byte_of_kind .windows c (some p)
    (by rw [hc]) (by rintro ⟨⟩)
  have hroot : c.has_physical_root =
    ((path.drop p.len).head?.map windows.is_sep_byte).getD false := by rw [hc]
  obtain ⟨rest, hrest⟩ : ∃ rest, path.drop p.len = rest := ⟨_, rfl⟩
  rw [hrest] at hc hroot ⊢
  have hpr : c.prefix_remaining .windows = p.len := by
    rw [hc]
    rfl
  have hpath : c.path = path := by rw [hc]
  have hdots : c.dots .windows = (! c.has_physical_root && ! p.has_implicit_root &&
      dot_start (hash_sep .windows p.is_verbatim) rest) := by
    rw [Components.dots, hpr, hpath, hrest, Components.has_root, hsep, hc]
    simp [Platform.HAS_PREFIXES, kind_verbatim, Bool.not_or]
  have hremaining : (c.remaining .windows raw).filterMap hashed =
      pieces p.is_verbatim (hash_sep .windows p.is_verbatim)
        (rest.drop (c.has_physical_root.toNat + (c.dots .windows).toNat)) := by
    have hlead : c.path.drop (c.lead .windows) =
        rest.drop (c.has_physical_root.toNat + (c.dots .windows).toNat) := by
      have hrank : c.front.rank ≤ 1 := by
        rw [hc]
        exact Nat.zero_le _
      rw [← hrest, hpath, drop_drop, Components.lead, hpr]
      congr 1
      cases c.has_physical_root <;> cases c.dots .windows <;> simp [hrank]
    have hstart : (c.start .windows).filterMap hashed = [] := by
      rw [Components.start, hc]
      dsimp only
      split
      · rfl
      · split <;> rfl
    have hfront : c.front = .Prefix ∧ c.back = .Body := by rw [hc]; exact ⟨rfl, rfl⟩
    rw [Components.remaining, hlead, filterMap_append, filterMap_append, hfront.1, hfront.2]
    simp only [reduceCtorEq, not_false_eq_true, ne_eq, and_self, if_true, or_true, State.rank,
      Nat.zero_le, hstart, body_hashed, hverbatim, hsep]
    rw [hc]
    rfl
  rw [hremaining, hroot]
  rw [hroot] at hdots
  cases hv : p.is_verbatim with
  | false =>
    rw [hv] at hdots
    have hkey : pieces false windows.is_sep_byte (rest.drop
        (((rest.head?.map windows.is_sep_byte).getD false).toNat +
          (c.dots .windows).toNat)) = pieces false windows.is_sep_byte rest := by
      cases hr : (rest.head?.map windows.is_sep_byte).getD false with
      | true =>
        cases rest with
        | nil => cases hr
        | cons b bytes =>
          rw [hdots, hr, pieces_cons hr]
          rfl
      | false =>
        cases hd : c.dots .windows with
        | true =>
          rw [hdots, Bool.and_eq_true] at hd
          exact pieces_drop_dot hd.2
        | false => rfl
    have hsep : hash_sep .windows false = windows.is_sep_byte := rfl
    rw [hsep, hkey, Spelling.of, hv, chunks]
    cases dot_start windows.is_sep_byte rest with
    | true | false => exact ⟨rfl, by rintro ⟨⟩⟩
  | true =>
    have himplicit : p.has_implicit_root = true := by
      cases p <;> first | rfl | cases hv
    rw [himplicit, Bool.not_true, Bool.and_false, Bool.false_and] at hdots
    rw [hdots, Bool.toNat_false, Nat.add_zero]
    cases rest with
    | nil =>
      rw [Spelling.of, hv]
      exact ⟨rfl, by rintro ⟨⟩⟩
    | cons b bytes =>
      have hsep : hash_sep .windows true = windows.is_verbatim_sep := rfl
      rw [hsep]
      by_cases hb : b = 47
      · subst hb
        have hdrop : (47 :: bytes).drop (((((47 : UInt8) :: bytes).head?.map
            windows.is_sep_byte).getD false).toNat) = bytes := rfl
        rw [hdrop, chunks, Bool.not_true, Bool.false_and, if_neg Bool.false_ne_true,
          nil_append, pieces_attach rfl, Spelling.of, hv]
        cases bytes with
        | nil => exact ⟨rfl, by rintro ⟨⟩⟩
        | cons b' bytes =>
          cases hb' : windows.is_verbatim_sep b' with
          | true => simp [hb', Spelling.of_verbatim, Spelling.chunks]
          | false => simpa [hb', Spelling.of_verbatim, Spelling.chunks] using pieces_ne_nil hb'
      · have hplain : Spelling.of .windows (some p) (b :: bytes) = .plain := by
          simp [Spelling.of, hv, Spelling.of_verbatim, hb]
        rw [hplain]
        refine ⟨?_, by rintro ⟨⟩⟩
        have hsep_byte : windows.is_sep_byte b = windows.is_verbatim_sep b := by
          simp [is_sep_byte, is_verbatim_sep, hb]
        rw [head?_cons, map_some, getD_some, hsep_byte]
        cases hb' : windows.is_verbatim_sep b with
        | true =>
          rw [Bool.toNat_true, drop_one, tail_cons, chunks, pieces_cons hb']
          rfl
        | false => rfl

section Paths

variable {p q : List UInt8} {l m : List Component}

theorem Spelling.chunks_inj {s t : Spelling} {l : List (List UInt8)} (hs : s = .attached → l ≠ [])
    (ht : t = .attached → l ≠ []) (h : s.chunks l = t.chunks l) : s = t := by
  have hlen := congrArg length h
  have hhead := congrArg head? h
  cases l with
  | nil => cases s <;> cases t <;> simp [Spelling.chunks] at hs ht hlen hhead ⊢
  | cons x l => cases s <;> cases t <;> simp [Spelling.chunks] at hlen hhead ⊢

/-! ## Paths -/

/-- The components after some calls of `next`. -/
def after (P : Platform) (n : ℕ) (path : List UInt8) : Option Components := do
  let (_, c) ← run (Components.step P) (replicate n .front) (← components P path)
  return c

/-- What the functions read from a path. -/
structure Reads (P : Platform) (path : List UInt8) (kind : Option Prefix) (l : List Component)
    (s : Spelling) : Prop where
  stands : ∃ dot c, components P path = some c ∧ c.path = path ∧
    FrontStands P path (path.take (kind_len kind)) kind dot c l
  spelling_eq : spelling P path = some s
  hash_eq : ∀ w, hash w P path = some (prefix_writes kind ++
    (s.chunks (l.filterMap Component.hashed)).map Write.bytes ++
    [.usize ((s.chunks (l.filterMap Component.hashed)).foldl add_chunk 0)])
  kind_eq : l.filterMap Component.kind = kind.toList
  attached : s = .attached → l.filterMap Component.hashed ≠ []

theorem remaining_kind {path raw : List UInt8} {kind : Option Prefix} {root : Bool} {front : State}
    (hfront : kind ≠ none → front = .Prefix) :
    (Components.remaining P ⟨path, kind, root, front, .Body⟩ raw).filterMap Component.kind =
      kind.toList := by
  have hstart : (Components.start P ⟨path, kind, root, front, .Body⟩).filterMap Component.kind =
      [] := by
    rw [Components.start]
    split
    · rfl
    split
    · split <;> rfl
    · split <;> rfl
  have hbody : ((if front ≠ .Done ∧ State.Body = .Body then
      body P ⟨path, kind, root, front, .Body⟩ (path.drop
        (Components.lead P ⟨path, kind, root, front, .Body⟩)) else []) : List Component).filterMap
      Component.kind = [] := by
    split
    · exact body_kind _ _
    · rfl
  have hsecond : ((if front.rank ≤ 1 ∧ (State.Body = .StartDir ∨ State.Body = .Body) then
      Components.start P ⟨path, kind, root, front, .Body⟩ else []) : List Component).filterMap
      Component.kind = [] := by
    split
    · exact hstart
    · rfl
  rw [Components.remaining, filterMap_append, filterMap_append]
  rw [hbody, hsecond, append_nil, append_nil]
  cases kind with
  | none => split <;> rfl
  | some p =>
    rw [hfront (Option.some_ne_none p)]
    rfl

/-- **The first state** over a path. -/
theorem reads (P : Platform) (path : List UInt8) : ∃ kind l s, Reads P path kind l s := by
  obtain ⟨kind, c, hkind, hc, heq, hconsistent⟩ := components_spec P path
  obtain ⟨o, ho, hunix, hpart⟩ := parse_prefix_spec P path
  obtain rfl : o = kind := some.inj (ho.symm.trans hkind)
  have hle : kind_len o ≤ path.length := by
    cases o with
    | none => exact Nat.zero_le _
    | some p => exact (hpart p rfl).1.2
  have hfrom : FromFront P c := by
    rw [heq]
    exact ⟨rfl, fun hnone _ => by obtain rfl : o = none := hnone; rfl⟩
  have hplatform : o ≠ none → P = .windows := by
    intro hne
    cases P with
    | unix => exact absurd (hunix rfl) hne
    | windows => rfl
  have hspelled : chunks (kind_verbatim o) (hash_sep P (kind_verbatim o)) (path.drop (kind_len o)) =
      (Spelling.of P o (path.drop (kind_len o))).chunks
        ((c.remaining P (path.take (kind_len o))).filterMap Component.hashed) ∧
      (Spelling.of P o (path.drop (kind_len o)) = .attached →
        (c.remaining P (path.take (kind_len o))).filterMap Component.hashed ≠ []) := by
    cases o with
    | none =>
      refine ⟨?_, nofun⟩
      have hfront : c.front.rank ≤ 1 ∧ c.front ≠ .Done := by
        rw [heq]
        cases P with
        | unix => exact ⟨le_rfl, nofun⟩
        | windows => exact ⟨Nat.zero_le _, nofun⟩
      rw [remaining_of_none (by rw [heq]) hfrom, if_pos hfront.1, if_neg hfront.2]
      have hpath : c.path = path := by rw [heq]
      rw [hpath]
      exact chunks_of_path P path
    | some p =>
      obtain rfl := hplatform nofun
      exact chunks_of_prefix heq
  refine ⟨o, _, .of P o (path.drop (kind_len o)),
    ⟨_, c, hc, by rw [heq], ⟨hconsistent, rfl⟩, hfrom⟩, ?_, fun w => hash_spec hkind hle hspelled.1,
    ?_, hspelled.2⟩
  · rw [spelling, hkind]
    rfl
  · rw [heq]
    refine remaining_kind fun hne => ?_
    rw [hplatform hne]
    rfl

/-- `l` is the list of the components of the path. -/
def HasComponents (P : Platform) (path : List UInt8) (l : List Component) : Prop :=
  ∃ c, components P path = some c ∧ ∀ turns, l.length < turns → c.collect P turns = some l

/-- **`==` and `cmp`** compare the components `l` and `m` of two paths, `cmp` also what is left of
them after some calls of `next`. -/
structure Compared (P : Platform) (p q : List UInt8) (l m : List Component) : Prop where
  eq_iff : ∀ turns, l.length < turns → ∃ r, path_eq P turns p q = some r ∧
    (r = true ↔ List.Forall₂ (fun x y => x.eq y = true) l m)
  cmp_eq : ∀ turns, l.length < turns →
    path_cmp P turns p q = some (List.compareLex Component.cmp l m)
  after_cmp_eq : ∀ turns i j, l.length < turns → ∃ c d, after P i p = some c ∧
    after P j q = some d ∧ Components.compare_components P turns c d =
      some (List.compareLex Component.cmp (l.drop i) (m.drop j))

/-- Two paths give the hasher the same. -/
def HashedAlike (P : Platform) (w : ℕ) (p q : List UInt8) : Prop :=
  ∃ writes, hash w P p = some writes ∧ hash w P q = some writes

/-- Equal components give the hasher the same. -/
theorem same_reads {kind kind' : Option Prefix} {s t : Spelling} (hp : Reads P p kind l s)
    (hq : Reads P q kind' m t) (h : List.Forall₂ (fun x y => x.eq y = true) l m) :
    l.filterMap hashed = m.filterMap hashed ∧ kind = kind' := by
  rw [forall₂_eq_iff] at h
  constructor
  · rw [← unraw_hashed, h, unraw_hashed]
  · have hlist : kind.toList = kind'.toList := by
      rw [← hp.kind_eq, ← hq.kind_eq, ← unraw_kind, h, unraw_kind]
    cases kind <;> cases kind' <;> simp_all

/-- **`==` and `cmp`** always compare the components. Equal paths are hashed alike if and only if
they are spelled alike behind the prefix. -/
theorem compare_and_hash (P : Platform) (w : ℕ) (p q : List UInt8) :
    ∃ l m s t, HasComponents P p l ∧ HasComponents P q m ∧ spelling P p = some s ∧
      spelling P q = some t ∧ Compared P p q l m ∧
      ((List.Forall₂ (fun x y => x.eq y = true) l m → HashedAlike P w p q) ↔
        (List.Forall₂ (fun x y => x.eq y = true) l m → s = t)) := by
  obtain ⟨kind, l, s, hp⟩ := reads P p
  obtain ⟨kind', m, t, hq⟩ := reads P q
  obtain ⟨dot, c, hc, hcpath, hl⟩ := hp.stands
  obtain ⟨dot', d, hd, hdpath, hm⟩ := hq.stands
  have hafter {path : List UInt8} {kind : Option Prefix} {dot : Bool} {c : Components}
      {l : List Component} (hc : components P path = some c)
      (h : FrontStands P path (path.take (kind_len kind)) kind dot c l) (n : ℕ) :
      ∃ c', after P n path = some c' ∧
        FrontStands P path (path.take (kind_len kind)) kind dot c' (l.drop n) := by
    obtain ⟨c', hrun, hc'⟩ := run_front rfl n h
    refine ⟨c', ?_, hc'⟩
    rw [after, hc]
    simp only [bind_eq_bind, bind_some, hrun]
    rfl
  refine ⟨l, m, s, t, ⟨c, hc, fun turns => collect_spec rfl hl.1⟩,
    ⟨d, hd, fun turns => collect_spec rfl hm.1⟩, hp.spelling_eq, hq.spelling_eq,
    ⟨fun turns hturns => ?_, fun turns hturns => ?_, fun turns i j hturns => ?_⟩,
    fun hhash heq => ?_, fun hspelled heq => ?_⟩
  · obtain ⟨r, hr, hiff⟩ := components_eq_spec hl.1.1 hm.1.1 hc hd hcpath hdpath
      (p.take (kind_len kind)) (q.take (kind_len kind')) (hl.1.2.symm ▸ hturns)
    refine ⟨r, ?_, ?_⟩
    · rw [path_eq, hc]
      simp only [bind_eq_bind, bind_some, hd]
      exact hr
    · rw [hiff, forall₂_eq_iff, hl.1.2, hm.1.2]
  · rw [path_cmp, hc]
    simp only [bind_eq_bind, bind_some, hd]
    exact compare_components_spec rfl rfl hl hm hturns
  · obtain ⟨c', hc', hl'⟩ := hafter hc hl i
    obtain ⟨d', hd', hm'⟩ := hafter hd hm j
    refine ⟨c', d', hc', hd', compare_components_spec rfl rfl hl' hm' ?_⟩
    rw [length_drop]
    omega
  · obtain ⟨writes, hw, hw'⟩ := hhash heq
    obtain ⟨hhashed, hkind⟩ := same_reads hp hq heq
    have hwrites := some.inj (((hp.hash_eq w).symm.trans hw).trans (hw'.symm.trans (hq.hash_eq w)))
    rw [hkind, hhashed] at hwrites
    have hbytes := append_cancel_left (append_inj' hwrites rfl).1
    refine Spelling.chunks_inj (hhashed ▸ hp.attached) hq.attached
      (map_injective_iff.mpr (fun x y hxy => ?_) hbytes)
    cases hxy
    rfl
  · obtain ⟨hhashed, hkind⟩ := same_reads hp hq heq
    refine ⟨_, hp.hash_eq w, ?_⟩
    rw [hq.hash_eq w, hkind, hhashed, hspelled heq]

/-- The paths `C:.` and `C:` -/
theorem hash_drive_dot : path_eq .windows 2 [67, 58, 46] [67, 58] = some true ∧
    hash 64 .windows [67, 58, 46] ≠ hash 64 .windows [67, 58] := by decide

end Paths

end RustStd.Path
