import RustStd.Fmt.Escape

/-!
# Reading escaped text back

A reader for the escape grammar, of a text between quotes or without them. It reads every form of a
character as that character (`unescape_form`), so that the escaped texts of a string are read back
as the string, and strings with the same `Debug` output are equal.
-/

namespace RustStd.Fmt.Escape

open Output Utf8 List Option

/-! ## The reader -/

/-- Where the reader is: in the text, behind a backslash, behind `\u`, or in a number. -/
inductive Reader
  | text
  | escape
  | brace
  | hex (digits value : ℕ)

def hex_digit_value (b : UInt8) : Option ℕ :=
  if 48 ≤ b ∧ b ≤ 57 then some (b.toNat - 48)
  else if 97 ≤ b ∧ b ≤ 102 then some (b.toNat - 87)
  else if 65 ≤ b ∧ b ≤ 70 then some (b.toNat - 55)
  else none

/-- **Reading**: a quoted text ends at its quote. -/
def unescape (quoted : Bool) : Reader → List UInt8 → Option (List UInt8)
  | .text, [] => if quoted then none else some []
  | .text, b :: s =>
    if b = 92 then unescape quoted .escape s
    else if b = 34 ∧ quoted then if s.isEmpty then some [] else none
    else (unescape quoted .text s).map (b :: ·)
  | .escape, b :: s =>
    if b = 117 then unescape quoted .brace s
    else (simple_escape b).bind fun x => (unescape quoted .text s).map (x :: ·)
  | .brace, b :: s => if b = 123 then unescape quoted (.hex 0 0) s else none
  | .hex digits value, b :: s =>
    if b = 125 then
      if digits = 0 then none
      else (from_u32_unchecked value).bind fun c =>
        (unescape quoted .text s).map (String.utf8EncodeChar c ++ ·)
    else if digits = 6 then none
    else (hex_digit_value b).bind fun d => unescape quoted (.hex (digits + 1) (16 * value + d)) s
  | _, [] => none

/-- Reading a literal with its quotes. -/
def read_literal : List UInt8 → Option (List UInt8)
  | [] => none
  | b :: s => if b = 34 then unescape true .text s else none

/-! ## The forms -/

variable {quoted : Bool} {c : Char} {s t : List UInt8}

/-- Bytes that stand for themselves. -/
theorem unescape_bytes {l : List UInt8} (h : ∀ b ∈ l, b ≠ 92 ∧ b ≠ 34) (s : List UInt8) :
    unescape quoted .text (l ++ s) = (unescape quoted .text s).map (l ++ ·) := by
  induction l with
  | nil =>
    rw [nil_append]
    exact map_id'.symm
  | cons b l ih =>
    obtain ⟨h92, h34⟩ := h b mem_cons_self
    rw [cons_append, unescape, if_neg h92, if_neg (fun h => h34 h.1),
      ih fun b hb => h b (mem_cons_of_mem _ hb), Option.map_map]
    rfl

theorem hex_digit_value_eq {d : ℕ} (h : d < 16) : hex_digit_value (hex_digit d) = some d ∧
    hex_digit d ≠ 125 := by
  interval_cases d <;> decide

/-- **The digits** of a number up to its brace. -/
theorem unescape_hex (quoted : Bool) (s : List UInt8) {digits : List ℕ}
    (hdigits : ∀ d ∈ digits, d < 16) (n value : ℕ) (hpos : 0 < n + digits.length)
    (hlen : n + digits.length ≤ 6) :
    unescape quoted (.hex n value) (digits.map hex_digit ++ 125 :: s) =
      (from_u32_unchecked (digits.foldl (fun value d => 16 * value + d) value)).bind fun c =>
        (unescape quoted .text s).map (String.utf8EncodeChar c ++ ·) := by
  induction digits generalizing n value with
  | nil => exact if_neg (Nat.ne_of_gt hpos)
  | cons d digits ih =>
    obtain ⟨hvalue, hne⟩ := hex_digit_value_eq (hdigits d mem_cons_self)
    rw [length_cons] at hlen
    rw [map_cons, cons_append, unescape, if_neg hne, if_neg (by omega), hvalue,
      bind_some, ih (fun d hd => hdigits d (mem_cons_of_mem _ hd)) (n + 1) _ (by omega)
        (by omega)]
    rfl

theorem simple_escape_spec {a b : UInt8} (h : simple_escape a = some b) :
    a ≠ 117 ∧ b.toNat < 128 := by
  refine ⟨fun ha => ?_, ?_⟩
  · subst ha
    cases h
  · rw [simple_escape.eq_def] at h
    split at h <;> cases h <;> decide

/-- **A form of a character** is read as the character. -/
theorem unescape_form (h : IsForm c t) (s : List UInt8) : unescape quoted .text (t ++ s) =
      (unescape quoted .text s).map (String.utf8EncodeChar c ++ ·) := by
  cases h with
  | literal hbackslash hquote =>
    apply unescape_bytes
    intro b hb
    have hne (n : UInt8) (hn : n.toNat < 128) (hc : c.toNat ≠ n.toNat) : b ≠ n := by
      rintro rfl
      by_cases hascii : c.toNat < 128
      · rw [encode_ascii hascii, mem_singleton] at hb
        rw [hb, UInt8.toNat_ofNat', Nat.mod_eq_of_lt (by omega)] at hc
        exact hc rfl
      · exact absurd (le_of_mem_encode (not_lt.mp hascii) b hb) (not_le.mpr hn)
    exact ⟨hne 92 (by decide) hbackslash, hne 34 (by decide) hquote⟩
  | @backslash a b ha hb =>
    obtain ⟨hne, hascii⟩ := simple_escape_spec ha
    rw [cons_append, cons_append, nil_append, unescape, if_pos rfl, unescape,
      if_neg hne, ha, bind_some, encode_ascii (hb ▸ hascii), hb, UInt8.ofNat_toNat]
    rfl
  | @unicode digits hdigits hne hlen hvalue =>
    have hpos := length_pos_of_ne_nil hne
    have hhex := unescape_hex quoted s hdigits 0 0 (by omega) (by omega)
    rw [← hex_value, hvalue] at hhex
    rw [cons_append, cons_append, cons_append, append_assoc, unescape,
      if_pos rfl, unescape, if_pos rfl, unescape, if_pos rfl]
    refine hhex.trans ?_
    rw [show from_u32_unchecked c.toNat = some c from from_u32_unchecked_val c, bind_some]

example : unescape false .text [92, 117, 123, 50, 55, 54, 52, 125] = some [0xE2, 0x9D, 0xA4] := by
  decide

/-- **The forms of the characters of a string** are read as the string. -/
theorem unescape_forms (quoted : Bool) {form : Char → List UInt8} (cs : List Char)
    (h : ∀ c ∈ cs, IsForm c (form c)) (s : List UInt8) :
    unescape quoted .text (cs.flatMap form ++ s) =
      (unescape quoted .text s).map (encode cs ++ ·) := by
  induction cs with
  | nil =>
    rw [flatMap_nil, nil_append]
    exact map_id'.symm
  | cons c cs ih =>
    rw [flatMap_cons, append_assoc, unescape_form (h c mem_cons_self),
      ih fun c hc => h c (List.mem_cons_of_mem _ hc), Option.map_map]
    congr 1
    funext l
    rw [encode_cons, append_assoc]
    rfl

/-! ## Faithfulness -/

/-- Code that formats a text formats no other. -/
theorem formats_unique {m : Formatted} (h : Formats m s) (h' : Formats m t) : s = t := by
  obtain ⟨qs, hqs, rfl⟩ := h.calls
  obtain ⟨qs', hqs', rfl⟩ := h'.calls
  rw [hqs] at hqs'
  rw [(Prod.mk.inj (some.inj hqs')).1]

theorem debug_form_spec (T : Tables) (c : Char) : ∃ e, escape_debug_ext T c str_args = some e ∧
    Formats e.fmt (debug_form T c) ∧ IsForm c (debug_form T c) := by
  obtain ⟨e, he, h⟩ := escape_debug_ext_spec T c
  have hform : debug_form T c = e.text := by
    rw [debug_form, form, he, map_some, getD_some]
  rw [hform]
  refine ⟨e, he, ?_⟩
  rcases h with h | ⟨rfl, hbackslash, hquote⟩
  · obtain ⟨seq, hseq⟩ := h.seq
    exact ⟨hseq.emits, h.form⟩
  · exact ⟨printable_emits c, .literal hbackslash hquote⟩

theorem read_debug (T : Tables) (cs : List Char) :
    read_literal (34 :: (cs.flatMap (debug_form T) ++ [34])) = some (encode cs) := by
  have hforms (c : Char) (_ : c ∈ cs) : IsForm c (debug_form T c) := by
    obtain ⟨e, -, -, h⟩ := debug_form_spec T c
    exact h
  rw [read_literal, if_pos rfl, unescape_forms true cs hforms]
  exact congrArg some (append_nil _)

/-- A string that is escaped by `flat_map` is written and read back. -/
theorem read_chars (escape : Char → Option EscapeIterInner)
    (hescape : ∀ c, ∃ e, escape c = some e ∧ (∃ seq, e.IsSeq seq) ∧ IsForm c e.text)
    (cs : List Char) :
    Formats (escape_chars escape ((encode cs).length + 1) (encode cs)) (cs.flatMap (form escape)) ∧
      unescape false .text (cs.flatMap (form escape)) = some (encode cs) := by
  constructor
  · refine escape_chars_emits (fun c => ?_) cs _ (Nat.lt_succ_self _)
    obtain ⟨e, he, hseq, -⟩ := hescape c
    exact ⟨e, he, hseq⟩
  · have hforms (c : Char) (_ : c ∈ cs) : IsForm c (form escape c) := by
      obtain ⟨e, he, -, h⟩ := hescape c
      rwa [form, he]
    have hread := unescape_forms false cs hforms []
    rw [append_nil] at hread
    rw [hread]
    exact congrArg some (append_nil _)

/-- **String escaping is faithful**: `Debug for str` writes the escaped forms of the characters in
order between quotes, this is read back as the string, and strings with the same output are equal.
What `escape_default` and `escape_unicode` write is read back as well. -/
theorem escape_str (T : Tables) (optimize_for_size : Bool) (cs : List Char) :
    (∀ c ∈ cs, ∃ e, escape_debug_ext T c str_args = some e ∧ Formats e.fmt (debug_form T c)) ∧
    Formats (debug_str T (encode cs)) (34 :: (cs.flatMap (debug_form T) ++ [34])) ∧
    read_literal (34 :: (cs.flatMap (debug_form T) ++ [34])) = some (encode cs) ∧
    (∀ ds t, Formats (debug_str T (encode cs)) t → Formats (debug_str T (encode ds)) t →
      encode cs = encode ds) ∧
    Formats (str_escape_default optimize_for_size (encode cs))
      (cs.flatMap (form (escape_default optimize_for_size))) ∧
    unescape false .text (cs.flatMap (form (escape_default optimize_for_size))) = some (encode cs) ∧
    Formats (str_escape_unicode (encode cs)) (cs.flatMap (form escape_unicode)) ∧
    unescape false .text (cs.flatMap (form escape_unicode)) = some (encode cs) := by
  have hdefault := read_chars _ (escape_default_spec optimize_for_size) cs
  have hunicode := read_chars escape_unicode (fun c => by
    obtain ⟨e, he, h⟩ := escape_unicode_spec c
    exact ⟨e, he, h.seq, h.form⟩) cs
  refine ⟨fun c _ => ?_, debug_str_emits T cs, read_debug T cs, fun ds t hcs hds => ?_,
    hdefault.1, hdefault.2, hunicode.1, hunicode.2⟩
  · obtain ⟨e, he, hfmt, -⟩ := debug_form_spec T c
    exact ⟨e, he, hfmt⟩
  · -- Both strings are what the same text is read as.
    obtain rfl := formats_unique hcs (debug_str_emits T cs)
    have hds := formats_unique hds (debug_str_emits T ds)
    have hread := read_debug T ds
    rw [← hds, read_debug T cs] at hread
    exact some.inj hread

end RustStd.Fmt.Escape
