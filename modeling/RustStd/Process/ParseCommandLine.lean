import RustStd.Process.CommandLine
import RustStd.Str.Wtf8Refine

/-!
# Splitting a command line gives the arguments back

The quoting of an argument, apart from the command line it is appended to, is `escaped`. The parser
takes a run of backslashes at a time, so its proof goes by runs as well: what the run is followed by
decides how many backslashes were written and how many are read (`parse_backslashes`).
-/

namespace RustStd.Process

open Wtf8 Utf16 List

/-! ## ASCII in bytes and in units -/

/-- An ASCII byte stands for itself in WTF-8. -/
theorem mem_enc_iff (c : CodePoint) {b : UInt8} (hb : b.toNat < 0x80) :
    b ∈ enc c.toNat ↔ UInt16.ofNat b.toNat ∈ units c := by
  have henc := encoding_enc c
  have hu : (UInt16.ofNat b.toNat).toNat = b.toNat := toNat_ofNat (by lia)
  have hword {n : ℕ} (hn : n < 0x10000) : UInt16.ofNat b.toNat = UInt16.ofNat n ↔ b.toNat = n := by
    rw [← UInt16.toNat_inj, hu, toNat_ofNat hn]
  have hne {a : UInt8} (ha : 0x80 ≤ a.toNat) : b ≠ a := fun h => by
    rw [h] at hb
    lia
  rw [units]
  generalize enc c.toNat = m at henc
  cases henc with
  | one a h ha =>
    rw [if_pos (by lia), mem_singleton, mem_singleton, hword (by lia), ← ha,
      UInt8.toNat_inj]
  | two a b' h ha hb' =>
    rw [if_pos (by lia), mem_singleton, hword (by lia)]
    have h₁ := hne (a := a) (by lia)
    have h₂ := hne (a := b') (by lia)
    simp only [mem_cons, h₁, h₂, not_mem_nil, or_self, false_iff]
    lia
  | three a b' x h ha hb' hx =>
    rw [if_pos (by lia), mem_singleton, hword (by lia)]
    have h₁ := hne (a := a) (by lia)
    have h₂ := hne (a := b') (by lia)
    have h₃ := hne (a := x) (by lia)
    simp only [mem_cons, h₁, h₂, h₃, not_mem_nil, or_self, false_iff]
    lia
  | four a b' x y h ha hb' hx hy =>
    rw [if_neg (by lia), mem_pair, hword (by lia), hword (by lia)]
    have h₁ := hne (a := a) (by lia)
    have h₂ := hne (a := b') (by lia)
    have h₃ := hne (a := x) (by lia)
    have h₄ := hne (a := y) (by lia)
    simp only [mem_cons, h₁, h₂, h₃, h₄, not_mem_nil, or_self, false_iff]
    lia

theorem mem_bytesOf_iff (l : List CodePoint) {b : UInt8} (hb : b.toNat < 0x80) :
    b ∈ bytesOf l ↔ UInt16.ofNat b.toNat ∈ l.flatMap units := by
  simp [bytesOf, mem_enc_iff _ hb]

/-- What an argument is: bytes with the units they spell. -/
structure Spelled (arg : Wtf8) (v : List UInt16) : Prop where
  wide : encode_wide arg.bytes = some v
  back : ∃ s, Wtf8Buf.from_wide v = some s ∧ s.bytes = arg.bytes
  mem : ∀ b : UInt8, b.toNat < 0x80 → (b ∈ arg.bytes ↔ UInt16.ofNat b.toNat ∈ v)

theorem spelled (arg : Wtf8) : ∃ v, Spelled arg v := by
  obtain ⟨l, hl, hbytes⟩ := arg.valid
  obtain ⟨s, hs, hspells, -⟩ := from_wide_spec (l.flatMap units)
  refine ⟨l.flatMap units, ?_, ⟨s, hs, ?_⟩, fun b hb => ?_⟩
  · rw [← hbytes, encode_wide_eq]
  · rw [hspells.2, points_units hl, hbytes]
  · rw [← hbytes]
    exact mem_bytesOf_iff l hb

/-! ## The text of an argument -/

/-- The units of an argument with its quotes escaped, when `backslashes` of them are written. -/
def escaped (quote : Bool) (backslashes : ℕ) : List UInt16 → List UInt16
  | [] => if quote then replicate backslashes BACKSLASH else []
  | x :: xs =>
    if x = BACKSLASH then BACKSLASH :: escaped quote (backslashes + 1) xs
    else if x = QUOTE then
      replicate (backslashes + 1) BACKSLASH ++ QUOTE :: escaped quote 0 xs
    else x :: escaped quote 0 xs

/-- The text of an argument. -/
def quoted (quote : Bool) (v : List UInt16) : List UInt16 :=
  if quote then QUOTE :: escaped true 0 v ++ [QUOTE] else escaped false 0 v

theorem append_units_eq (quote : Bool) (v cmd : List UInt16) (n : ℕ) :
    (append_units true v (cmd, n)).1 ++
      (if quote then replicate (append_units true v (cmd, n)).2 BACKSLASH else []) =
    cmd ++ escaped quote n v := by
  induction v generalizing cmd n with
  | nil => rfl
  | cons x xs ih =>
    rw [append_units, if_pos rfl, escaped]
    split
    · next h => rw [ih, h, append_assoc, singleton_append]
    split
    · next h => rw [ih, h]; simp
    · rw [ih, append_assoc, singleton_append]

/-- Whether an argument is quoted. -/
def quotes (force_quotes : Bool) (v : List UInt16) : Bool :=
  force_quotes || (v.any is_blank || v.isEmpty)

variable {v : List UInt16} {arg : Wtf8}

theorem isEmpty_iff (h : Spelled arg v) : arg.bytes.isEmpty = v.isEmpty := by
  obtain ⟨s, hs, hbytes⟩ := h.back
  cases hb : arg.bytes with
  | nil =>
    have hwide := h.wide
    rw [hb, show ([] : List UInt8) = bytesOf [] from rfl, encode_wide_eq] at hwide
    cases hwide
    rfl
  | cons b bs =>
    cases v with
    | nil =>
      obtain ⟨s', hs', hspells, -⟩ := from_wide_spec []
      obtain rfl : s' = s := Option.some.inj (hs'.symm.trans hs)
      rw [hspells.2, hb] at hbytes
      cases hbytes
    | cons u us => rfl

theorem blank_iff (h : Spelled arg v) :
    arg.bytes.any (fun c => c == 32 || c == 9) = v.any is_blank := by
  have h32 := h.mem 32 (by decide)
  have h9 := h.mem 9 (by decide)
  rw [Bool.eq_iff_iff, any_eq_true, any_eq_true]
  simp only [is_blank, Bool.or_eq_true, beq_iff_eq]
  constructor
  · rintro ⟨b, hb, rfl | rfl⟩
    · exact ⟨SPACE, h32.mp hb, .inl rfl⟩
    · exact ⟨TAB, h9.mp hb, .inr rfl⟩
  · rintro ⟨u, hu, rfl | rfl⟩
    · exact ⟨32, h32.mpr hu, .inl rfl⟩
    · exact ⟨9, h9.mpr hu, .inr rfl⟩

theorem append_arg_eq (h : Spelled arg v) (hnul : 0 ∉ arg.bytes)
    (force_quotes : Bool) (cmd : List UInt16) :
    append_arg cmd (.Regular arg) force_quotes =
      pure (cmd ++ quoted (quotes force_quotes v) v) := by
  have hunits : units_of arg = pure v := by rw [units_of, h.wide]; rfl
  have hno : v.any (· == 0) = false := by
    rw [any_eq_false]
    intro u hu
    rw [beq_iff_eq]
    rintro rfl
    exact hnul ((h.mem 0 (by decide)).mpr hu)
  have hensure : ensure_no_nuls arg = pure () := by
    rw [ensure_no_nuls, hunits, pure_bind, hno]
    rfl
  have hquote : (if force_quotes then Quote.Always else Quote.Auto).flags arg.bytes =
      (quotes force_quotes v, true) := by
    rw [quotes, ← blank_iff h, ← isEmpty_iff h]
    cases force_quotes <;> rfl
  have hloop := append_units_eq (quotes force_quotes v) v
    (if quotes force_quotes v then cmd ++ [QUOTE] else cmd) 0
  rw [append_arg]
  simp only [hensure, pure_bind, hunits, hquote]
  congr 1
  rw [quoted]
  generalize quotes force_quotes v = quote at hloop ⊢
  cases quote with
  | true =>
    simp only [if_true] at hloop ⊢
    rw [hloop]
    simp
  | false => simpa using hloop

/-! ## Reading the text -/

section Parse

variable {ret_val : List Wtf8Buf} {cur : List UInt16} {in_quotes : Bool} {rest : List UInt16}

theorem advance_backslashes (n : ℕ) (h : rest.head? ≠ some BACKSLASH) :
    (⟨replicate n BACKSLASH ++ rest⟩ : WStrUnits).advance_while (· == BACKSLASH) = (n, ⟨rest⟩) := by
  have htake : rest.takeWhile (· == BACKSLASH) = [] ∧ rest.dropWhile (· == BACKSLASH) = rest := by
    cases rest with
    | nil => exact ⟨rfl, rfl⟩
    | cons x xs =>
      have hx : (x == BACKSLASH) = false := beq_eq_false_iff_ne.mpr fun hx => h (by rw [hx]; rfl)
      exact ⟨takeWhile_cons_of_neg (by simp [hx]), dropWhile_cons_of_neg (by simp [hx])⟩
  have hall : ∀ x ∈ replicate n BACKSLASH, (x == BACKSLASH) = true := fun x hx =>
    beq_iff_eq.mpr (eq_of_mem_replicate hx)
  rw [WStrUnits.advance_while, takeWhile_append_of_pos hall,
    dropWhile_append_of_pos hall, htake.1, htake.2, append_nil, length_replicate]

/-- **A run of backslashes**: before a quote two of them stand for one, and an odd one escapes the
quote. -/
theorem parse_backslashes (n : ℕ) (h : rest.head? ≠ some BACKSLASH) :
    parse_args ret_val cur in_quotes (replicate n BACKSLASH ++ rest) =
      if rest.head? = some QUOTE then
        if n % 2 = 1 then
          parse_args ret_val (cur ++ replicate (n / 2) BACKSLASH ++ [QUOTE]) in_quotes rest.tail
        else parse_args ret_val (cur ++ replicate (n / 2) BACKSLASH) in_quotes rest
      else parse_args ret_val (cur ++ replicate n BACKSLASH) in_quotes rest := by
  cases n with
  | zero => simp
  | succ n =>
    rw [replicate_succ, cons_append, parse_args]
    rw [if_neg (by simp [is_blank, BACKSLASH, SPACE, TAB]), if_pos rfl, advance_backslashes n h]
    rfl

/-- The quotes of `n` backslashes and a quote in an argument. -/
theorem parse_escaped_quote (n : ℕ) (rest : List UInt16) : parse_args ret_val cur in_quotes
        (replicate (n + (n + 1)) BACKSLASH ++ QUOTE :: rest) =
      parse_args ret_val (cur ++ replicate n BACKSLASH ++ [QUOTE]) in_quotes rest := by
  rw [parse_backslashes _ (by simp [BACKSLASH, QUOTE]), head?_cons, if_pos rfl,
    if_pos (by lia), show (n + (n + 1)) / 2 = n by lia, tail_cons]

/-- A unit that is taken literally. -/
theorem parse_literal {x : UInt16} (hblank : is_blank x = true → in_quotes = true)
    (hb : x ≠ BACKSLASH) (hq : x ≠ QUOTE) (rest : List UInt16) :
    parse_args ret_val cur in_quotes (x :: rest) =
      parse_args ret_val (cur ++ [x]) in_quotes rest := by
  rw [parse_args, if_neg, if_neg hb, if_neg hq]
  intro h
  rw [Bool.and_eq_true, Bool.not_eq_true'] at h
  exact absurd (hblank h.1) (by simp [h.2])

variable (ret_val cur in_quotes) in
/-- **An argument's text is read back**, up to what closes it. Of `n` backslashes at the end of
what was read the parser does not know yet what they stand for. -/
theorem parse_escaped (close : List UInt16) (hclose : close.head? ≠ some BACKSLASH)
    (hquote : close.head? = some QUOTE ↔ in_quotes = true) (v : List UInt16)
    (hblank : in_quotes = false → v.any is_blank = false) (n : ℕ) :
    parse_args ret_val cur in_quotes
        (replicate n BACKSLASH ++ (escaped in_quotes n v ++ close)) =
      parse_args ret_val (cur ++ replicate n BACKSLASH ++ v) in_quotes close := by
  induction v generalizing n cur with
  | nil =>
    rw [escaped, append_nil]
    cases in_quotes with
    | true =>
      rw [if_pos rfl, ← append_assoc, replicate_append_replicate,
        parse_backslashes _ hclose, if_pos (hquote.mpr rfl), if_neg (by lia),
        show (n + n) / 2 = n by lia]
    | false =>
      rw [if_neg Bool.false_ne_true, nil_append, parse_backslashes _ hclose,
        if_neg fun h => Bool.false_ne_true (hquote.mp h)]
  | cons x xs ih =>
    have htail : in_quotes = false → xs.any is_blank = false := fun h => by
      have := hblank h
      rw [any_cons, Bool.or_eq_false_iff] at this
      exact this.2
    rw [escaped]
    split
    · next hx =>
      have hrun := ih cur htail (n + 1)
      rw [replicate_succ', append_assoc, singleton_append] at hrun
      rw [hx, cons_append, hrun]
      simp
    split
    · next hx =>
      rw [hx, append_assoc, ← append_assoc (replicate n BACKSLASH),
        replicate_append_replicate, cons_append, parse_escaped_quote]
      have hrun := ih (cur ++ replicate n BACKSLASH ++ [QUOTE]) htail 0
      rw [replicate_zero, nil_append, append_nil] at hrun
      rw [hrun]
      simp
    next hb hq =>
    have hhead : (x :: (escaped in_quotes 0 xs ++ close)).head? = some x := rfl
    have hlit : is_blank x = true → in_quotes = true := fun h => by
      cases hin : in_quotes with
      | true => rfl
      | false =>
        have := hblank hin
        rw [any_cons, h] at this
        cases this
    rw [cons_append, parse_backslashes _ (by rw [hhead]; simpa using hb), hhead,
      if_neg (by simpa using hq), parse_literal hlit hb hq]
    have hrun := ih (cur ++ replicate n BACKSLASH ++ [x]) htail 0
    rw [replicate_zero, nil_append, append_nil] at hrun
    rw [hrun]
    simp

/-- What follows an argument. -/
def Follows (rest : List UInt16) : Prop :=
  rest = [] ∨ ∃ next, rest = SPACE :: next ∧ ∀ w, next.head? = some w → is_blank w = false

/-- Where an argument ends. -/
theorem parse_end {s : Wtf8Buf} (hs : Wtf8Buf.from_wide cur = some s) {next : List UInt16}
    (h : ∀ w, next.head? = some w → is_blank w = false) :
    parse_args ret_val cur false (SPACE :: next) = parse_args (ret_val ++ [s]) [] false next := by
  have hskip : next.dropWhile is_blank = next := by
    cases next with
    | nil => rfl
    | cons w ws => exact dropWhile_cons_of_neg (by simp [h w rfl])
  rw [parse_args, if_pos (by rfl), hs]
  simp only [some_bind, WStrUnits.advance_while, hskip]

/-- The result after an argument: it is pushed, and the next one begins. -/
def pushed (ret_val : List Wtf8Buf) (s : Wtf8Buf) (rest : List UInt16) : Option (List Wtf8Buf) :=
  match rest with
  | [] => some (ret_val ++ [s])
  | _ :: next => parse_args (ret_val ++ [s]) [] false next

variable (ret_val) in
/-- **One argument**, with its quotes. -/
theorem parse_quoted {v : List UInt16} {s : Wtf8Buf} (hs : Wtf8Buf.from_wide v = some s)
    (quote : Bool) (hauto : quote = false → v.any is_blank = false ∧ v ≠ [])
    (h : Follows rest) :
    parse_args ret_val [] false (quoted quote v ++ rest) = pushed ret_val s rest := by
  have hhead : rest.head? ≠ some BACKSLASH ∧ rest.head? ≠ some QUOTE := by
    obtain rfl | ⟨next, rfl, -⟩ := h
    · exact ⟨nofun, nofun⟩
    · exact ⟨by simp [SPACE, BACKSLASH], by simp [SPACE, QUOTE]⟩
  rw [quoted]
  cases quote with
  | true =>
    have hrun := parse_escaped ret_val [] true (QUOTE :: rest)
      (by simp [QUOTE, BACKSLASH]) (by simp) v nofun 0
    simp only [replicate_zero, nil_append] at hrun
    rw [if_pos rfl, cons_append, cons_append, append_assoc, singleton_append,
      parse_args, if_neg (by simp [is_blank, QUOTE, SPACE, TAB]),
      if_neg (by simp [QUOTE, BACKSLASH]), if_pos rfl, if_neg Bool.false_ne_true, hrun,
      parse_args, if_neg (by simp), if_neg (by simp [QUOTE, BACKSLASH]), if_pos rfl, if_pos rfl]
    obtain rfl | ⟨next, rfl, hnext⟩ := h
    · simp [WStrUnits.peek, push_last, hs, pushed]
    · simp only [WStrUnits.peek, head?_cons]
      rw [if_neg (by simp [QUOTE, SPACE]), parse_end hs hnext]
      rfl
  | false =>
    obtain ⟨hblank, hne⟩ := hauto rfl
    have hrun :=
      parse_escaped ret_val [] false rest hhead.1 (by simp [hhead.2]) v (fun _ => hblank) 0
    simp only [replicate_zero, nil_append] at hrun
    rw [if_neg Bool.false_ne_true, hrun]
    obtain rfl | ⟨next, rfl, hnext⟩ := h
    · rw [parse_args, push_last, if_pos (by simp [hne]), hs]
      rfl
    · rw [parse_end hs hnext]
      rfl

end Parse

/-! ## The whole command line -/

/-- The text behind the name of the program. -/
def argsText (force_quotes : Bool) (vs : List (List UInt16)) : List UInt16 :=
  vs.flatMap fun v => SPACE :: quoted (quotes force_quotes v) v

theorem quotes_eq_false {force_quotes : Bool}
    (h : quotes force_quotes v = false) : v.any is_blank = false ∧ v ≠ [] := by
  rw [quotes, Bool.or_eq_false_iff, Bool.or_eq_false_iff] at h
  exact ⟨h.2.1, fun hv => by simp [hv] at h⟩

/-- The text of an argument does not begin with a blank. -/
theorem head_quoted (force_quotes : Bool) (v rest : List UInt16) {w : UInt16}
    (h : (quoted (quotes force_quotes v) v ++ rest).head? = some w) : is_blank w = false := by
  rw [quoted] at h
  cases hquote : quotes force_quotes v with
  | true =>
    rw [hquote, if_pos rfl] at h
    obtain rfl : QUOTE = w := Option.some.inj h
    rfl
  | false =>
    obtain ⟨hblank, hne⟩ := quotes_eq_false hquote
    obtain ⟨x, xs, rfl⟩ := exists_cons_of_ne_nil hne
    rw [any_cons, Bool.or_eq_false_iff] at hblank
    rw [hquote, if_neg Bool.false_ne_true, escaped] at h
    split at h
    · obtain rfl : BACKSLASH = w := Option.some.inj h
      rfl
    split at h
    · obtain rfl : BACKSLASH = w := Option.some.inj h
      rfl
    · obtain rfl : x = w := Option.some.inj h
      exact hblank.1

theorem follows_argsText (force_quotes : Bool) (vs : List (List UInt16)) :
    Follows (argsText force_quotes vs) := by
  cases vs with
  | nil => exact .inl rfl
  | cons v vs =>
    exact .inr ⟨quoted (quotes force_quotes v) v ++ argsText force_quotes vs, rfl,
      fun _ => head_quoted force_quotes v _⟩

/-- Arguments with their units. -/
def SpelledAll (args : List Wtf8) (vs : List (List UInt16)) : Prop := List.Forall₂ Spelled args vs

variable {vs : List (List UInt16)} {args : List Wtf8}

theorem append_args_eq (force_quotes : Bool)
    (h : SpelledAll args vs) (hnul : ∀ arg ∈ args, 0 ∉ arg.bytes) (cmd : List UInt16) :
    append_args force_quotes (args.map .Regular) cmd = pure (cmd ++ argsText force_quotes vs) := by
  induction h generalizing cmd with
  | nil => simp [append_args, argsText]
  | cons hv _ ih =>
    rw [forall_mem_cons] at hnul
    rw [map_cons, append_args, append_arg_eq hv hnul.1, pure_bind, ih hnul.2, argsText,
      argsText, flatMap_cons]
    simp

/-- **All arguments** are read back, one after the other. -/
theorem parse_argsText (force_quotes : Bool)
    (h : SpelledAll args vs) (ret_val : List Wtf8Buf) :
    ∃ rs, parse_args ret_val [] false ((argsText force_quotes vs).tail) = some (ret_val ++ rs) ∧
      rs.map (·.bytes) = args.map (·.bytes) := by
  induction h generalizing ret_val with
  | nil =>
    refine ⟨[], ?_, rfl⟩
    simp [argsText, parse_args, push_last]
  | @cons arg v args vs hv _ ih =>
    obtain ⟨s, hs, hbytes⟩ := hv.back
    obtain ⟨rs, hrs, hmap⟩ := ih (ret_val ++ [s])
    refine ⟨s :: rs, ?_, by rw [map_cons, map_cons, hmap, hbytes]⟩
    have hrun := parse_quoted ret_val hs (quotes force_quotes v) quotes_eq_false
      (follows_argsText force_quotes vs)
    rw [argsText, flatMap_cons, cons_append, tail_cons]
    rw [argsText] at hrun hrs
    rw [hrun]
    cases htext : vs.flatMap fun v => SPACE :: quoted (quotes force_quotes v) v with
    | nil =>
      rw [htext, tail_nil, parse_args, push_last] at hrs
      rw [pushed]
      simpa using hrs
    | cons w next =>
      rw [htext, tail_cons] at hrs
      rw [pushed, hrs, append_assoc, singleton_append]

theorem parse_exe_literal {p : List UInt16} (hp : QUOTE ∉ p) (cur rest : List UInt16) :
    parse_exe true cur (p ++ QUOTE :: rest) = parse_exe false (cur ++ p) rest := by
  induction p generalizing cur with
  | nil => rw [nil_append, parse_exe, if_pos rfl, append_nil, Bool.not_true]
  | cons x p ih =>
    rw [mem_cons, not_or] at hp
    rw [cons_append, parse_exe, if_neg fun h => hp.1 h.symm, if_neg (by simp), ih hp.2,
      append_assoc, singleton_append]

/-- The name of the program, as it is written. -/
theorem parse_exe_quoted {p : List UInt16} (hp : QUOTE ∉ p) {rest : List UInt16}
    (h : Follows rest) :
    parse_exe false [] (QUOTE :: (p ++ QUOTE :: rest)) = (p, ⟨rest.tail⟩) := by
  rw [parse_exe, if_pos rfl, Bool.not_false, parse_exe_literal hp]
  obtain rfl | ⟨next, rfl, -⟩ := h
  · rfl
  · rw [parse_exe, if_neg (by simp [SPACE, QUOTE]), if_pos (by rfl)]
    rfl

theorem zero_not_mem_quoted (quote : Bool) (h : 0 ∉ v) : 0 ∉ quoted quote v := by
  have hescaped (quote : Bool) (n : ℕ) : 0 ∉ escaped quote n v := by
    induction v generalizing n with
    | nil =>
      rw [escaped]
      split
      · exact fun hmem => absurd (eq_of_mem_replicate hmem) (by decide)
      · exact not_mem_nil
    | cons x xs ih =>
      rw [mem_cons, not_or] at h
      rw [escaped]
      split
      · simp [ih h.2, BACKSLASH]
      split
      · simp [ih h.2, BACKSLASH, QUOTE, mem_replicate]
      · simp [ih h.2, h.1]
  rw [quoted]
  split
  · simp [hescaped, QUOTE]
  · exact hescaped false 0

theorem Spelled.zero_not_mem (h : Spelled arg v)
    (hnul : 0 ∉ arg.bytes) : 0 ∉ v := fun hv => hnul ((h.mem 0 (by decide)).mpr hv)

theorem zero_not_mem_argsText (force_quotes : Bool)
    (h : SpelledAll args vs) (hnul : ∀ arg ∈ args, 0 ∉ arg.bytes) :
    0 ∉ argsText force_quotes vs := by
  induction h with
  | nil => exact not_mem_nil
  | cons hv _ ih =>
    rw [forall_mem_cons] at hnul
    rw [argsText, flatMap_cons, mem_append, mem_cons, not_or, not_or]
    exact ⟨⟨by decide, zero_not_mem_quoted _ (hv.zero_not_mem hnul.1)⟩, ih hnul.2⟩

/-- **Splitting a command line** gives the name of the program and the arguments back. -/
theorem parse_make_command_line (argv0 : Wtf8) (args : List Wtf8) (force_quotes : Bool)
    (exe_name : Wtf8Buf) (hname : 0 ∉ argv0.bytes ∧ 34 ∉ argv0.bytes)
    (hargs : ∀ arg ∈ args, 0 ∉ arg.bytes) :
    ∃ cmd, make_command_line argv0 (args.map .Regular) force_quotes = pure cmd ∧
      ∃ rs, parse_lp_cmd_line (some (.new (cmd ++ [0]))) exe_name = some rs ∧
        rs.map (·.bytes) = argv0.bytes :: args.map (·.bytes) := by
  obtain ⟨p, hp⟩ := spelled argv0
  obtain ⟨vs, hvs⟩ : ∃ vs, SpelledAll args vs := by
    induction args with
    | nil => exact ⟨[], .nil⟩
    | cons arg args ih =>
      obtain ⟨v, hv⟩ := spelled arg
      obtain ⟨vs, hvs⟩ := ih (forall_mem_cons.mp hargs).2
      exact ⟨v :: vs, .cons hv hvs⟩
  obtain ⟨s, hs, hbytes⟩ := hp.back
  have hquote : QUOTE ∉ p := fun h => hname.2 ((hp.mem 34 (by decide)).mpr h)
  obtain ⟨rs, hrs, hmap⟩ := parse_argsText force_quotes hvs [s]
  have hfollows := follows_argsText force_quotes vs
  have hcmd : 0 ∉ QUOTE :: (p ++ QUOTE :: argsText force_quotes vs) := by
    simp only [mem_cons, mem_append, not_or]
    exact ⟨by decide, hp.zero_not_mem hname.1, by decide,
      zero_not_mem_argsText force_quotes hvs hargs⟩
  have hnew : (WStrUnits.new (QUOTE :: (p ++ QUOTE :: argsText force_quotes vs) ++ [0])).units =
      QUOTE :: (p ++ QUOTE :: argsText force_quotes vs) := by
    rw [WStrUnits.new, takeWhile_append_of_pos]
    · simp
    · intro x hx
      rw [bne_iff_ne]
      rintro rfl
      exact hcmd hx
  refine ⟨QUOTE :: (p ++ QUOTE :: argsText force_quotes vs), ?_, s :: rs, ?_, ?_⟩
  · have hunits : units_of argv0 = pure p := by rw [units_of, hp.wide]; rfl
    rw [make_command_line, hunits, pure_bind, append_args_eq force_quotes hvs hargs]
    simp
  · have hskip : (argsText force_quotes vs).tail.dropWhile is_blank =
        (argsText force_quotes vs).tail := by
      obtain hnil | ⟨next, hnext, hhead⟩ := hfollows
      · rw [hnil]
        rfl
      · rw [hnext, tail_cons]
        cases next with
        | nil => rfl
        | cons w ws => exact dropWhile_cons_of_neg (by simp [hhead w rfl])
    simp only [parse_lp_cmd_line, WStrUnits.peek, hnew, head?_cons, Option.isNone_some,
      Bool.false_eq_true, if_false, parse_exe_quoted hquote hfollows, WStrUnits.advance_while,
      hskip, hs]
    simpa using hrs
  · rw [map_cons, hbytes, hmap]

/-- The name `a` with a quote and an empty string as its arguments. -/
theorem parse_make_command_line_quote :
    let name : Wtf8 := ⟨[97], [ofUnit 97], isChain_singleton _, rfl⟩
    let quote : Wtf8 := ⟨[34], [ofUnit 34], isChain_singleton _, rfl⟩
    let empty : Wtf8 := ⟨[], [], isChain_nil, rfl⟩
    ∃ cmd, make_command_line name [.Regular quote, .Regular empty] false = pure cmd ∧
      ∃ rs, parse_lp_cmd_line (some (.new (cmd ++ [0]))) .new = some rs ∧
        rs.map (·.bytes) = [[97], [34], []] :=
  parse_make_command_line _ [_, _] false .new (by decide) (by decide)

end RustStd.Process
