import RustStd.Fmt.Builders

/-!
# What the debug builders write

The rendering of a value, on one line or with every entry on lines of its own. Formatting a value
writes its rendering, whatever calls its leaves are cut into, and stops at the first call that fails
(`fmt_renders`).
-/

namespace RustStd.Fmt

open Output PadAdapter

/-! ## The rendering -/

/-- Every line of a text with four spaces before it. -/
def indent (s : List UInt8) : List UInt8 :=
  ((split_inclusive s).map fun line => bytes "    " ++ line).flatten

/-- Entries on one line. -/
def inline (first : List UInt8) : List (List UInt8) → List UInt8
  | [] => []
  | e :: es => first ++ e ++ (es.map fun e => bytes ", " ++ e).flatten

/-- Entries on lines of their own. -/
def block (first : List UInt8) : List (List UInt8) → List UInt8
  | [] => []
  | es => first ++ (es.map fun e => indent (e ++ bytes ",\n")).flatten

/-- The end of a value without `finish`. -/
def unfinished (alternate empty : Bool) (none_ inline_ last : List UInt8) : List UInt8 :=
  if empty then none_ else if alternate then indent (bytes "..\n") ++ last else inline_

mutual

/-- **The rendering of a value.** -/
def Value.render (alternate : Bool) : Value → List UInt8
  | .leaf calls => (calls alternate).flatMap Call.text
  | .debug_struct name fields exhaustive =>
    let es := fields.render alternate
    name ++ (if alternate then block (bytes " \x7b\n") es else inline (bytes " \x7b ") es) ++
      if exhaustive then
        if es.isEmpty then [] else if alternate then bytes "\x7d" else bytes " \x7d"
      else unfinished alternate es.isEmpty (bytes " \x7b .. \x7d") (bytes ", .. \x7d")
        (bytes "\x7d")
  | .debug_tuple name fields exhaustive =>
    let es := fields.render alternate
    name ++ (if alternate then block (bytes "(\n") es else inline (bytes "(") es) ++
      if exhaustive then
        if es.isEmpty then []
        -- A tuple of one field without a name is written as the language does.
        else (if es.length = 1 && name.isEmpty && ! alternate then bytes "," else []) ++ bytes ")"
      else unfinished alternate es.isEmpty (bytes "(..)") (bytes ", ..)") (bytes ")")
  | .debug_list entries exhaustive =>
    let es := entries.render alternate
    bytes "[" ++ (if alternate then block (bytes "\n") es else inline [] es) ++
      if exhaustive then bytes "]"
      else unfinished alternate es.isEmpty (bytes ".." ++ bytes "]") (bytes ", .." ++ bytes "]")
        (bytes "]")
  | .debug_set entries exhaustive =>
    let es := entries.render alternate
    bytes "\x7b" ++ (if alternate then block (bytes "\n") es else inline [] es) ++
      if exhaustive then bytes "\x7d"
      else unfinished alternate es.isEmpty (bytes ".." ++ bytes "\x7d")
        (bytes ", .." ++ bytes "\x7d") (bytes "\x7d")
  | .debug_map entries exhaustive =>
    let es := entries.render alternate
    bytes "\x7b" ++ (if alternate then block (bytes "\n") es else inline [] es) ++
      if exhaustive then bytes "\x7d"
      else unfinished alternate es.isEmpty (bytes "..\x7d") (bytes ", ..\x7d") (bytes "\x7d")

def Fields.render (alternate : Bool) : Fields → List (List UInt8)
  | .nil => []
  | .cons name value fields =>
    (name ++ bytes ": " ++ value.render alternate) :: fields.render alternate

def Values.render (alternate : Bool) : Values → List (List UInt8)
  | .nil => []
  | .cons value values => value.render alternate :: values.render alternate

def Entries.render (alternate : Bool) : Entries → List (List UInt8)
  | .nil => []
  | .cons key value entries =>
    (key.render alternate ++ bytes ": " ++ value.render alternate) :: entries.render alternate

end

open Value

/-! ## Indenting -/

/-- Indenting from the middle of a text on. -/
def indent_from : Bool → List UInt8 → List UInt8
  | _, [] => []
  | on_newline, b :: s =>
    (if on_newline then bytes "    " else []) ++ b :: indent_from (b == 10) s

/-- Whether a line begins behind a text. -/
def newline_after : Bool → List UInt8 → Bool
  | on_newline, [] => on_newline
  | _, b :: s => newline_after (b == 10) s

theorem newline_after_append (on_newline : Bool) (s t : List UInt8) :
    newline_after on_newline (s ++ t) = newline_after (newline_after on_newline s) t := by
  induction s generalizing on_newline with
  | nil => rfl
  | cons b s ih => exact ih (b == 10)

/-- **Indenting goes on** where it was. -/
theorem indent_from_append (on_newline : Bool) (s t : List UInt8) :
    indent_from on_newline (s ++ t) =
      indent_from on_newline s ++ indent_from (newline_after on_newline s) t := by
  induction s generalizing on_newline with
  | nil => rfl
  | cons b s ih =>
    rw [List.cons_append, indent_from, indent_from, newline_after, ih, List.append_assoc,
      List.cons_append]

/-- A text with a line end only at its end. -/
def IsLine (s : List UInt8) : Prop := s ≠ [] ∧ ∀ b ∈ s.dropLast, b ≠ 10

theorem indent_from_line {s : List UInt8} (h : IsLine s) (on_newline : Bool) :
    indent_from on_newline s = (if on_newline then bytes "    " else []) ++ s ∧
      newline_after on_newline s = ends_with_newline s := by
  obtain ⟨hne, hline⟩ := h
  induction s generalizing on_newline with
  | nil => exact absurd rfl hne
  | cons b s ih =>
    cases s with
    | nil => exact ⟨rfl, rfl⟩
    | cons b' s =>
      have hb : (b == 10) = false := by simpa using hline b (by simp)
      obtain ⟨hindent, hafter⟩ := ih false (List.cons_ne_nil b' s)
        fun x hx => hline x (by rw [List.dropLast_cons_cons]; exact List.mem_cons_of_mem _ hx)
      rw [indent_from, newline_after, hb, hindent, hafter]
      refine ⟨rfl, ?_⟩
      rw [ends_with_newline, ends_with_newline, List.getLast?_cons_cons]

theorem split_inclusive_spec (s : List UInt8) :
    (split_inclusive s).flatten = s ∧ ∀ line ∈ split_inclusive s, IsLine line := by
  induction s with
  | nil => exact ⟨rfl, fun line h => absurd h List.not_mem_nil⟩
  | cons b s ih =>
    obtain ⟨hflat, hlines⟩ := ih
    rw [split_inclusive]
    by_cases hb : b = 10
    · rw [if_pos hb]
      refine ⟨by rw [List.flatten_cons, hflat]; rfl, fun line hline => ?_⟩
      rcases List.mem_cons.mp hline with rfl | hline
      · exact ⟨by simp, fun x hx => absurd hx List.not_mem_nil⟩
      · exact hlines line hline
    rw [if_neg hb]
    cases hs : split_inclusive s with
    | nil =>
      rw [hs] at hflat
      refine ⟨by rw [← hflat]; rfl, fun line hline => ?_⟩
      obtain rfl := List.mem_singleton.mp hline
      exact ⟨by simp, fun x hx => absurd hx List.not_mem_nil⟩
    | cons line lines =>
      rw [hs] at hflat hlines
      refine ⟨by rw [← hflat]; rfl, fun l hl => ?_⟩
      rcases List.mem_cons.mp hl with rfl | hl
      · obtain ⟨hne, hline⟩ := hlines line List.mem_cons_self
        refine ⟨by simp, fun x hx => ?_⟩
        rw [List.dropLast_cons_of_ne_nil hne] at hx
        rcases List.mem_cons.mp hx with rfl | hx
        · exact hb
        · exact hline x hx
      · exact hlines l (List.mem_cons_of_mem _ hl)

/-- Every line but the last ends in a line end. -/
theorem split_inclusive_ends (s : List UInt8) :
    ∀ line ∈ (split_inclusive s).dropLast, ends_with_newline line = true := by
  induction s with
  | nil => exact fun line h => absurd h List.not_mem_nil
  | cons b s ih =>
    rw [split_inclusive]
    by_cases hb : b = 10
    · rw [if_pos hb, hb]
      cases hs : split_inclusive s with
      | nil => exact fun line h => absurd h List.not_mem_nil
      | cons line lines =>
        rw [hs] at ih
        rw [List.dropLast_cons_cons]
        intro l hl
        rcases List.mem_cons.mp hl with rfl | hl
        · rfl
        · exact ih l hl
    · rw [if_neg hb]
      cases hs : split_inclusive s with
      | nil => exact fun line h => absurd h List.not_mem_nil
      | cons line lines =>
        rw [hs] at ih
        have hne : line ≠ [] := ((split_inclusive_spec s).2 line (by rw [hs]; simp)).1
        cases lines with
        | nil => exact fun line h => absurd h List.not_mem_nil
        | cons line' lines =>
          rw [List.dropLast_cons_cons] at ih ⊢
          intro l hl
          rcases List.mem_cons.mp hl with rfl | hl
          · obtain ⟨b', line, rfl⟩ := List.exists_cons_of_ne_nil hne
            have := ih _ List.mem_cons_self
            rwa [ends_with_newline, List.getLast?_cons_cons]
          · exact ih l (List.mem_cons_of_mem _ hl)

/-! ## Code that writes a text -/

/-- **Code that writes a text** and returns `a`, unless a call fails, where it stops. -/
structure Emits {α : Type} (ok : α → Bool) (m : Output Call α) (t : List UInt8) (a : α) : Prop where
  calls : ∃ qs, m.calls = some (qs, a) ∧ qs.flatMap Call.text = t
  stops : m.Stops ok

/-- Code that formats a text. -/
abbrev Formats (m : Formatted) (t : List UInt8) : Prop := Emits id m t true

section Emits

variable {α β : Type} {ok : α → Bool} {ok' : β → Bool} {m : Output Call α} {f : α → Output Call β}
  {s t : List UInt8} {a : α} {b : β} {n n' : Formatted}

theorem Emits.of_ret (a : α) : Emits ok (.ret a) [] a := ⟨⟨[], rfl, rfl⟩, trivial⟩

theorem Emits.call (q : Call) : Formats (.call q .ret) q.text :=
  ⟨⟨[q], rfl, by simp⟩, ⟨false, rfl, rfl⟩, trivial⟩

theorem Emits.write_str (s : List UInt8) : Formats (write_str s) s := Emits.call (.write_str s)

/-- A method behind the code. -/
theorem Emits.method (h : Emits ok m s a) (hf : Remembers ok ok' f)
    (ha : Emits ok' (f a) t b) : Emits ok' (m.bind f) (s ++ t) b := by
  obtain ⟨qs, hcalls, rfl⟩ := h.calls
  obtain ⟨qs', hcalls', rfl⟩ := ha.calls
  refine ⟨⟨qs ++ qs', ?_, List.flatMap_append⟩, h.stops.bind hf fun _ a' ha' => ?_⟩
  · rw [calls_bind, hcalls, Option.bind_some, hcalls']
    rfl
  · obtain ⟨-, rfl⟩ := Prod.mk.inj (Option.some.inj (hcalls.symm.trans ha'))
    exact ha.stops

theorem remembers_branch {n : Output Call β} {c : β} (hc : ok' c = false) :
    Remembers (Q := Call) id ok' fun ok => if ok then n else .ret c := by
  intro ok hok
  obtain rfl : ok = false := hok
  exact ⟨c, rfl, hc⟩

theorem Emits.attempt (h : Formats n s) (h' : Formats n' t) :
    Formats (n.attempt n') (s ++ t) := h.method (remembers_branch rfl) h'

theorem Emits.when_ (c : Bool) (h : Formats n t) : Formats (when_ c n) (if c then t else []) := by
  cases c
  · exact Emits.of_ret true
  · exact h

/-- The result is kept. -/
theorem Emits.result {g : Bool → α} (h : ok (g false) = false) (hn : Formats n t) :
    Emits ok (n.bind fun r => .ret (g r)) t (g true) := by
  rw [← List.append_nil t]
  refine hn.method (fun r hr => ⟨g r, rfl, ?_⟩) (Emits.of_ret _)
  obtain rfl : r = false := hr
  exact h

end Emits

/-! ## `PadAdapter` -/

theorem write_lines_emits (lines : List (List UInt8)) (hlines : ∀ line ∈ lines, IsLine line)
    (on_newline : Bool) :
    Emits Prod.fst (write_lines lines on_newline) (indent_from on_newline lines.flatten)
      (true, newline_after on_newline lines.flatten) := by
  induction lines generalizing on_newline with
  | nil => exact Emits.of_ret _
  | cons line lines ih =>
    obtain ⟨hindent, hafter⟩ := indent_from_line (hlines line List.mem_cons_self) on_newline
    have hrest := ih (fun l hl => hlines l (List.mem_cons_of_mem _ hl)) (ends_with_newline line)
    have hline : Emits Prod.fst ((write_str line).bind fun ok =>
        if ok then write_lines lines (ends_with_newline line)
        else .ret (false, ends_with_newline line))
        (line ++ indent_from (ends_with_newline line) lines.flatten)
        (true, newline_after (ends_with_newline line) lines.flatten) :=
      (Emits.write_str line).method (remembers_branch rfl) hrest
    have hblank := Emits.when_ on_newline (Emits.write_str (bytes "    "))
    rw [List.flatten_cons, indent_from_append, newline_after_append, hindent, hafter,
      List.append_assoc]
    exact hblank.method (remembers_branch rfl) hline

theorem ofNat_ne_newline {n : ℕ} (hn : n < 256) (hne : n ≠ 10) : UInt8.ofNat n ≠ 10 := by
  intro h
  have := congrArg UInt8.toNat h
  rw [UInt8.toNat_ofNat'] at this
  simp at this
  omega

/-- A character is a line. -/
theorem isLine_char (c : Char) : IsLine (String.utf8EncodeChar c) ∧
    ends_with_newline (String.utf8EncodeChar c) = (c == '\n') := by
  have hchar : (c == '\n') = decide (c.val.toNat = 10) := by
    rw [beq_eq_decide, decide_eq_decide, Char.ext_iff, ← UInt32.toNat_inj]
    rfl
  -- Every byte of a longer encoding has its first bit set.
  have hlong (hc : ¬ c.val.toNat ≤ 0x7f) {s : List UInt8} (hne : s ≠ [])
      (h : ∀ b ∈ s, b ≠ 10) : IsLine s ∧ ends_with_newline s = (c == '\n') := by
    refine ⟨⟨hne, fun b hb => h b (List.mem_of_mem_dropLast hb)⟩, ?_⟩
    rw [hchar, decide_eq_false (by omega), ends_with_newline, beq_eq_false_iff_ne]
    intro hlast
    exact h 10 (List.mem_of_getLast? hlast) rfl
  rw [String.utf8EncodeChar]
  split
  · next hc =>
    refine ⟨⟨List.cons_ne_nil _ _, fun b hb => absurd hb List.not_mem_nil⟩, ?_⟩
    rw [hchar, ends_with_newline, List.getLast?_singleton, beq_eq_decide, decide_eq_decide,
      Option.some.injEq, ← UInt8.toNat_inj, UInt8.toNat_ofNat', Nat.mod_eq_of_lt (by omega)]
    rfl
  next hc =>
  split
  on_goal 2 => split
  all_goals
    refine hlong hc (List.cons_ne_nil _ _) ?_
    simp only [List.forall_mem_cons, List.not_mem_nil, false_imp_iff, implies_true, and_true]
    and_intros <;> exact ofNat_ne_newline (by omega) (by omega)

/-- **A call through the adapter** writes its text indented. -/
theorem write_emits (q : Call) (on_newline : Bool) :
    Emits Prod.fst (PadAdapter.write q on_newline) (indent_from on_newline q.text)
      (true, newline_after on_newline q.text) := by
  cases q with
  | write_str s =>
    obtain ⟨hflat, hlines⟩ := split_inclusive_spec s
    have := write_lines_emits (split_inclusive s) hlines on_newline
    rwa [hflat] at this
  | write_char c =>
    obtain ⟨hline, hends⟩ := isLine_char c
    obtain ⟨hindent, hafter⟩ := indent_from_line hline on_newline
    have hblank := Emits.when_ on_newline (Emits.write_str (bytes "    "))
    rw [Call.text, hindent, hafter, hends]
    have hchar : Emits Prod.fst (.call (.write_char c) fun ok => .ret (ok, c == '\n'))
        (String.utf8EncodeChar c) (true, c == '\n') :=
      Emits.result rfl (Emits.call (.write_char c))
    exact hblank.method (remembers_branch rfl) hchar

theorem wrap_stops {α : Type} {ok : α → Bool} {m : Output Call α} (h : m.Stops ok)
    (on_newline : Bool) : (wrap m on_newline).Stops fun r => ok r.1 := by
  induction m generalizing on_newline with
  | ret | fault => trivial
  | call q k ih =>
    obtain ⟨⟨a, ha, hok⟩, htrue⟩ := h
    refine (write_emits q on_newline).stops.bind (fun r hr => ?_) fun _ r _ => ?_
    · rw [hr, ha]
      exact ⟨_, rfl, hok⟩
    · cases hr : r.1 with
      | true => exact ih true htrue r.2
      | false =>
        rw [ha]
        trivial

/-- **Code through the adapter** writes its text indented, however it is cut into calls. -/
theorem Emits.wrap {α : Type} {ok : α → Bool} {m : Output Call α} {t : List UInt8} {a : α}
    (h : Emits ok m t a) (on_newline : Bool) :
    Emits (fun r => ok r.1) (wrap m on_newline) (indent_from on_newline t)
      (a, newline_after on_newline t) := by
  refine ⟨?_, wrap_stops h.stops on_newline⟩
  obtain ⟨qs, hcalls, rfl⟩ := h.calls
  have hm := h.stops
  clear h
  induction m generalizing qs on_newline with
  | ret b =>
    obtain ⟨rfl, rfl⟩ := Prod.mk.inj (Option.some.inj hcalls)
    exact ⟨[], rfl, rfl⟩
  | fault => cases hcalls
  | call q k ih =>
    obtain ⟨⟨qs', a'⟩, hk, heq⟩ := Option.map_eq_some_iff.mp hcalls
    obtain ⟨rfl, rfl⟩ := Prod.mk.inj heq
    obtain ⟨ps, hps, htext⟩ := (write_emits q on_newline).calls
    obtain ⟨ps', hps', htext'⟩ := ih true (newline_after on_newline q.text) qs' hk hm.2
    refine ⟨ps ++ ps', ?_, ?_⟩
    · rw [PadAdapter.wrap, calls_bind, hps, Option.bind_some, hps', List.flatMap_cons,
        newline_after_append]
      rfl
    · rw [List.flatMap_append, htext, htext', List.flatMap_cons, indent_from_append]

theorem indent_lines (lines : List (List UInt8)) (hlines : ∀ line ∈ lines, IsLine line)
    (hends : ∀ line ∈ lines.dropLast, ends_with_newline line = true) :
    (lines.map fun line => bytes "    " ++ line).flatten = indent_from true lines.flatten := by
  induction lines with
  | nil => rfl
  | cons line lines ih =>
    obtain ⟨hindent, hafter⟩ := indent_from_line (hlines line List.mem_cons_self) true
    rw [List.map_cons, List.flatten_cons, List.flatten_cons, indent_from_append, hindent, hafter]
    cases lines with
    | nil => rfl
    | cons line' lines =>
      rw [List.dropLast_cons_cons] at hends
      rw [ih (fun l hl => hlines l (List.mem_cons_of_mem _ hl))
        (fun l hl => hends l (List.mem_cons_of_mem _ hl)), hends line List.mem_cons_self]
      rfl

theorem indent_eq (s : List UInt8) : indent s = indent_from true s := by
  obtain ⟨hflat, hlines⟩ := split_inclusive_spec s
  have := indent_lines (split_inclusive s) hlines (split_inclusive_ends s)
  rwa [hflat] at this

theorem Emits.padded {n : Formatted} {t : List UInt8} (h : Formats n t) :
    Formats (padded n) (indent t) := by
  rw [indent_eq, ← List.append_nil (indent_from true t)]
  exact (h.wrap true).method (fun r hr => ⟨r.1, rfl, hr⟩) (Emits.of_ret _)

/-! ## The builders -/

/-- The entries from a builder on that has some already or not. -/
def entries (alternate more : Bool) (first_line first : List UInt8) (es : List (List UInt8)) :
    List UInt8 :=
  if more then
    if alternate then (es.map fun e => indent (e ++ bytes ",\n")).flatten
    else (es.map fun e => bytes ", " ++ e).flatten
  else if alternate then block first_line es else inline first es

theorem entries_cons (alternate more : Bool) (first_line first e : List UInt8)
    (es : List (List UInt8)) : entries alternate more first_line first (e :: es) =
      (if alternate then (if more then [] else first_line) ++ indent (e ++ bytes ",\n")
        else (if more then bytes ", " else first) ++ e) ++
      entries alternate true first_line first es := by
  cases alternate <;> cases more <;> simp [entries, inline, block]

theorem Emits.of_eq {α : Type} {ok : α → Bool} {m : Output Call α} {s t : List UInt8} {a : α}
    (h : Emits ok m s a) (hst : s = t) : Emits ok m t a := hst ▸ h

theorem remembers_if {β : Type} {ok : β → Bool} {c : β → Bool} {m : β → Formatted}
    {g : β → Bool → β} (hc : ∀ b, c b = ok b) (hg : ∀ b, ok (g b false) = false) :
    Remembers ok ok fun b => (if c b then m b else .ret false).bind fun r => .ret (g b r) := by
  intro b hb
  exact ⟨g b false, by simp [hc, hb], hg b⟩

/-- The same, where the answer is made of the builder after an error. -/
theorem remembers_guard {β γ : Type} {ok : β → Bool} {ok' : γ → Bool} {m : β → Output Call γ}
    {g : β → γ} (hg : ∀ b, ok b = false → ok' (g b) = false) :
    Remembers ok ok' fun b => if ok b then m b else .ret (g b) := by
  intro b hb
  exact ⟨g b, by simp [hb], hg b hb⟩

/-- The end of a builder without `finish`. -/
theorem unfinished_emits (alternate has_fields : Bool) (none_ inline_ last : List UInt8) :
    Formats (if has_fields then
        if alternate then (padded (write_str (bytes "..\n"))).attempt <| write_str last
        else write_str inline_
      else write_str none_) (unfinished alternate (! has_fields) none_ inline_ last) := by
  cases has_fields with
  | true =>
    cases alternate with
    | true => exact (Emits.write_str _).padded.attempt (Emits.write_str _)
    | false => exact Emits.write_str _
  | false => exact Emits.write_str _

namespace DebugStruct

variable {t : List UInt8} {m : Formatted}

theorem field_with_remembers (name : List UInt8) :
    Remembers result result fun self => self.field_with name m :=
  remembers_if (fun _ => rfl) fun _ => rfl

/-- **A field** is an entry. -/
theorem field_with_emits (name : List UInt8) (h : Formats m t) (alternate has_fields : Bool) :
    Emits result (field_with ⟨alternate, true, has_fields⟩ name m)
      (if alternate then (if has_fields then [] else bytes " \x7b\n") ++
          indent (name ++ bytes ": " ++ t ++ bytes ",\n")
        else (if has_fields then bytes ", " else bytes " \x7b ") ++ (name ++ bytes ": " ++ t))
      ⟨alternate, true, true⟩ := by
  refine Emits.result rfl ?_
  cases alternate with
  | true =>
    have hline := (Emits.write_str name).attempt ((Emits.write_str (bytes ": ")).attempt
      (h.attempt (Emits.write_str (bytes ",\n"))))
    refine ((Emits.when_ (! has_fields) (Emits.write_str (bytes " \x7b\n"))).attempt
      hline.padded).of_eq ?_
    cases has_fields <;> simp
  | false =>
    have hinline := (Emits.write_str name).attempt ((Emits.write_str (bytes ": ")).attempt h)
    refine ((Emits.write_str _).attempt hinline).of_eq ?_
    simp

theorem finish_remembers : Remembers result id finish := by
  intro self hself
  rw [finish, hself]
  cases self.has_fields <;> exact ⟨false, rfl, rfl⟩

theorem finish_emits (alternate has_fields : Bool) : Formats (finish ⟨alternate, true, has_fields⟩)
      (if ! has_fields then [] else if alternate then bytes "\x7d" else bytes " \x7d") := by
  cases has_fields with
  | true => cases alternate <;> exact Emits.write_str _
  | false => exact Emits.of_ret true

theorem finish_non_exhaustive_remembers : Remembers result id finish_non_exhaustive :=
  remembers_guard fun _ _ => rfl

theorem finish_non_exhaustive_emits (alternate has_fields : Bool) :
    Formats (finish_non_exhaustive ⟨alternate, true, has_fields⟩)
      (unfinished alternate (! has_fields) (bytes " \x7b .. \x7d") (bytes ", .. \x7d")
        (bytes "\x7d")) :=
  unfinished_emits _ _ _ _ _

end DebugStruct

namespace DebugTuple

variable {t : List UInt8} {m : Formatted}

theorem field_with_remembers : Remembers result result fun self => self.field_with m :=
  remembers_if (fun _ => rfl) fun _ => rfl

theorem field_with_emits (h : Formats m t) (alternate empty_name : Bool) (fields : ℕ) :
    Emits result (field_with ⟨alternate, true, fields, empty_name⟩ m)
      (if alternate then (if decide (0 < fields) then [] else bytes "(\n") ++
          indent (t ++ bytes ",\n")
        else (if decide (0 < fields) then bytes ", " else bytes "(") ++ t)
      ⟨alternate, true, fields + 1, empty_name⟩ := by
  refine Emits.result rfl ?_
  cases alternate with
  | true =>
    have hline := h.attempt (Emits.write_str (bytes ",\n"))
    refine ((Emits.when_ (fields = 0) (Emits.write_str (bytes "(\n"))).attempt
      hline.padded).of_eq ?_
    cases fields <;> simp
  | false =>
    refine ((Emits.write_str _).attempt h).of_eq ?_
    cases fields <;> simp

theorem finish_remembers : Remembers result id finish := by
  intro self hself
  rw [finish, hself]
  split <;> exact ⟨false, rfl, rfl⟩

theorem finish_emits (alternate empty_name : Bool) (fields : ℕ) :
    Formats (finish ⟨alternate, true, fields, empty_name⟩)
      (if decide (0 < fields) then
        (if fields = 1 && empty_name && ! alternate then bytes "," else []) ++ bytes ")"
      else []) := by
  cases fields with
  | zero => exact Emits.of_ret true
  | succ fields => exact (Emits.when_ _ (Emits.write_str _)).attempt (Emits.write_str _)

theorem finish_non_exhaustive_remembers : Remembers result id finish_non_exhaustive :=
  remembers_guard fun _ _ => rfl

theorem finish_non_exhaustive_emits (alternate empty_name : Bool) (fields : ℕ) :
    Formats (finish_non_exhaustive ⟨alternate, true, fields, empty_name⟩)
      (unfinished alternate (! decide (0 < fields)) (bytes "(..)") (bytes ", ..)")
        (bytes ")")) := by
  cases fields with
  | zero => exact Emits.write_str _
  | succ fields => exact unfinished_emits alternate true _ _ _

end DebugTuple

namespace DebugInner

variable {t bracket : List UInt8} {m : Formatted}

theorem entry_with_remembers : Remembers result result fun self => self.entry_with m :=
  remembers_if (fun _ => rfl) fun _ => rfl

theorem entry_with_emits (h : Formats m t) (alternate has_fields : Bool) :
    Emits result (entry_with ⟨alternate, true, has_fields⟩ m)
      (if alternate then (if has_fields then [] else bytes "\n") ++ indent (t ++ bytes ",\n")
        else (if has_fields then bytes ", " else []) ++ t)
      ⟨alternate, true, true⟩ := by
  refine Emits.result rfl ?_
  cases alternate with
  | true =>
    have hline := h.attempt (Emits.write_str (bytes ",\n"))
    refine ((Emits.when_ (! has_fields) (Emits.write_str (bytes "\n"))).attempt
      hline.padded).of_eq ?_
    cases has_fields <;> simp
  | false => exact (Emits.when_ has_fields (Emits.write_str _)).attempt h

theorem finish_remembers : Remembers result id fun self => self.finish bracket :=
  remembers_guard fun _ _ => rfl

theorem finish_non_exhaustive_remembers :
    Remembers result id fun self => self.finish_non_exhaustive bracket :=
  remembers_guard fun _ _ => rfl

theorem finish_non_exhaustive_emits (alternate has_fields : Bool) :
    Formats (finish_non_exhaustive ⟨alternate, true, has_fields⟩ bracket)
      (unfinished alternate (! has_fields) (bytes ".." ++ bracket) (bytes ", .." ++ bracket)
        bracket) :=
  unfinished_emits _ _ _ _ _

end DebugInner

open DebugInner

namespace DebugMap

variable {s t : List UInt8} {m n : Formatted}

theorem value_with_remembers : Remembers result result fun self => self.value_with m :=
  remembers_guard fun _ => id

theorem entry_remembers : Remembers result result fun self => self.entry m n :=
  Remembers.comp (remembers_guard fun _ => id) value_with_remembers

/-- **An entry of a map**: the state of the adapter goes on from the key to the value. -/
theorem entry_emits (hm : Formats m s) (hn : Formats n t) (alternate has_fields on_newline : Bool) :
    ∃ on_newline', Emits result (entry ⟨alternate, true, has_fields, false, on_newline⟩ m n)
      (if alternate then (if has_fields then [] else bytes "\n") ++
          indent (s ++ bytes ": " ++ t ++ bytes ",\n")
        else (if has_fields then bytes ", " else []) ++ (s ++ bytes ": " ++ t))
      ⟨alternate, true, true, false, on_newline'⟩ := by
  have hkey := hm.attempt (Emits.write_str (bytes ": "))
  cases alternate with
  | true =>
    have hvalue := hn.attempt (Emits.write_str (bytes ",\n"))
    have hkey' : Emits result (key_with ⟨true, true, has_fields, false, on_newline⟩ m)
        ((if ! has_fields then bytes "\n" else []) ++ indent_from true (s ++ bytes ": "))
        ⟨true, true, has_fields, true, newline_after true (s ++ bytes ": ")⟩ := by
      have hpad : Emits result ((wrap (m.attempt (write_str (bytes ": "))) true).bind fun r =>
          .ret ⟨true, r.1, has_fields, r.1, r.2⟩) (indent_from true (s ++ bytes ": ") ++ [])
          ⟨true, true, has_fields, true, newline_after true (s ++ bytes ": ")⟩ :=
        (hkey.wrap true).method (fun r hr => ⟨_, rfl, hr⟩) (Emits.of_ret _)
      rw [List.append_nil] at hpad
      exact (Emits.when_ _ (Emits.write_str _)).method (remembers_branch rfl) hpad
    have hvalue' (nl : Bool) : Emits result
        ((wrap (n.attempt (write_str (bytes ",\n"))) nl).bind fun r =>
          .ret ⟨true, r.1, true, ! r.1, r.2⟩) (indent_from nl (t ++ bytes ",\n") ++ [])
        ⟨true, true, true, false, newline_after nl (t ++ bytes ",\n")⟩ :=
      (hvalue.wrap nl).method (fun r hr => ⟨_, rfl, hr⟩) (Emits.of_ret _)
    refine ⟨_, (hkey'.method value_with_remembers (hvalue' _)).of_eq ?_⟩
    rw [if_pos rfl, indent_eq, List.append_nil, List.append_assoc, ← indent_from_append]
    cases has_fields <;> simp
  | false =>
    have hkey' : Emits result (key_with ⟨false, true, has_fields, false, on_newline⟩ m)
        ((if has_fields then bytes ", " else []) ++ (s ++ bytes ": "))
        ⟨false, true, has_fields, true, on_newline⟩ :=
      Emits.result rfl ((Emits.when_ _ (Emits.write_str _)).attempt hkey)
    have hvalue' : Emits result (value_with ⟨false, true, has_fields, true, on_newline⟩ n) t
        ⟨false, true, true, false, on_newline⟩ := Emits.result rfl hn
    refine ⟨on_newline, (hkey'.method value_with_remembers hvalue').of_eq ?_⟩
    cases has_fields <;> simp

theorem finish_remembers : Remembers result id finish := remembers_guard fun _ _ => rfl

theorem finish_non_exhaustive_remembers : Remembers result id finish_non_exhaustive :=
  remembers_guard fun _ _ => rfl

theorem finish_non_exhaustive_emits (alternate has_fields on_newline : Bool) :
    Formats (finish_non_exhaustive ⟨alternate, true, has_fields, false, on_newline⟩)
      (unfinished alternate (! has_fields) (bytes "..\x7d") (bytes ", ..\x7d") (bytes "\x7d")) :=
  unfinished_emits _ _ _ _ _

end DebugMap

/-! ## The values -/

theorem write_all_emits (qs : List Call) : Formats (write_all qs) (qs.flatMap Call.text) := by
  induction qs with
  | nil => exact Emits.of_ret true
  | cons q qs ih => exact (Emits.call q).attempt ih

theorem new_struct_emits (alternate : Bool) (name : List UInt8) :
    Emits DebugStruct.result (DebugStruct.new alternate name) name ⟨alternate, true, false⟩ :=
  Emits.result rfl (Emits.write_str name)

theorem new_tuple_emits (alternate : Bool) (name : List UInt8) :
    Emits DebugTuple.result (DebugTuple.new alternate name) name
      ⟨alternate, true, 0, name.isEmpty⟩ :=
  Emits.result rfl (Emits.write_str name)

theorem new_inner_emits (alternate : Bool) (bracket : List UInt8) :
    Emits result (DebugInner.new alternate bracket) bracket ⟨alternate, true, false⟩ :=
  Emits.result rfl (Emits.write_str bracket)

theorem new_map_emits (alternate : Bool) :
    Emits DebugMap.result (DebugMap.new alternate) (bytes "\x7b")
      ⟨alternate, true, false, false, true⟩ :=
  Emits.result rfl (Emits.write_str _)

mutual

/-- **Formatting a value** writes its rendering. -/
theorem Value.fmt_emits (alternate : Bool) :
    (v : Value) → Formats (v.fmt alternate) (v.render alternate)
  | .leaf calls => write_all_emits (calls alternate)
  | .debug_struct name fields exhaustive => by
    obtain ⟨hmethod, hemits⟩ := Fields.fmt_emits alternate fields
    have hfields := (new_struct_emits alternate name).method hmethod (hemits false)
    cases exhaustive with
    | true =>
      refine (hfields.method DebugStruct.finish_remembers (DebugStruct.finish_emits _ _)).of_eq ?_
      simp [render, entries]
    | false =>
      refine (hfields.method DebugStruct.finish_non_exhaustive_remembers
        (DebugStruct.finish_non_exhaustive_emits _ _)).of_eq ?_
      simp [render, entries]
  | .debug_tuple name fields exhaustive => by
    obtain ⟨hmethod, hemits⟩ := Values.fmt_tuple_emits alternate fields
    have hfields := (new_tuple_emits alternate name).method hmethod (hemits name.isEmpty 0)
    cases exhaustive with
    | true =>
      refine (hfields.method DebugTuple.finish_remembers (DebugTuple.finish_emits _ _ _)).of_eq ?_
      cases h : fields.render alternate <;> simp [render, entries, h]
    | false =>
      refine (hfields.method DebugTuple.finish_non_exhaustive_remembers
        (DebugTuple.finish_non_exhaustive_emits _ _ _)).of_eq ?_
      cases h : fields.render alternate <;> simp [render, entries, h]
  | .debug_list es exhaustive => by
    obtain ⟨hmethod, hemits⟩ := Values.fmt_emits alternate es
    have hfields := (new_inner_emits alternate (bytes "[")).method hmethod (hemits false)
    cases exhaustive with
    | true =>
      refine (hfields.method finish_remembers (Emits.write_str _)).of_eq ?_
      simp [render, entries]
    | false =>
      refine (hfields.method finish_non_exhaustive_remembers
        (finish_non_exhaustive_emits _ _)).of_eq ?_
      simp [render, entries]
  | .debug_set es exhaustive => by
    obtain ⟨hmethod, hemits⟩ := Values.fmt_emits alternate es
    have hfields := (new_inner_emits alternate (bytes "\x7b")).method hmethod (hemits false)
    cases exhaustive with
    | true =>
      refine (hfields.method finish_remembers (Emits.write_str _)).of_eq ?_
      simp [render, entries]
    | false =>
      refine (hfields.method finish_non_exhaustive_remembers
        (finish_non_exhaustive_emits _ _)).of_eq ?_
      simp [render, entries]
  | .debug_map es exhaustive => by
    obtain ⟨hmethod, hemits⟩ := Entries.fmt_emits alternate es
    obtain ⟨on_newline, hes⟩ := hemits false true
    have hfields := (new_map_emits alternate).method hmethod hes
    cases exhaustive with
    | true =>
      refine (hfields.method DebugMap.finish_remembers (Emits.write_str _)).of_eq ?_
      simp [render, entries]
    | false =>
      refine (hfields.method DebugMap.finish_non_exhaustive_remembers
        (DebugMap.finish_non_exhaustive_emits _ _ _)).of_eq ?_
      simp [render, entries]

theorem Fields.fmt_emits (alternate : Bool) : (fields : Fields) →
    Remembers DebugStruct.result DebugStruct.result (fields.fmt alternate) ∧
    ∀ more, Emits DebugStruct.result (fields.fmt alternate ⟨alternate, true, more⟩)
      (entries alternate more (bytes " \x7b\n") (bytes " \x7b ") (fields.render alternate))
      ⟨alternate, true, more || ! (fields.render alternate).isEmpty⟩
  | .nil => by
    refine ⟨Remembers.ret, fun more => ?_⟩
    cases alternate <;> cases more <;> exact Emits.of_ret _
  | .cons name value fields => by
    have hvalue := Value.fmt_emits alternate value
    obtain ⟨hmethod, hemits⟩ := Fields.fmt_emits alternate fields
    refine ⟨(DebugStruct.field_with_remembers name).comp hmethod, fun more => ?_⟩
    have := (DebugStruct.field_with_emits name hvalue alternate more).method hmethod (hemits true)
    rw [Fields.fmt, Fields.render, entries_cons]
    simpa using this

theorem Values.fmt_tuple_emits (alternate : Bool) : (values : Values) →
    Remembers DebugTuple.result DebugTuple.result (values.fmt_tuple alternate) ∧
    ∀ empty_name fields, Emits DebugTuple.result
      (values.fmt_tuple alternate ⟨alternate, true, fields, empty_name⟩)
      (entries alternate (decide (0 < fields)) (bytes "(\n") (bytes "(") (values.render alternate))
      ⟨alternate, true, fields + (values.render alternate).length, empty_name⟩
  | .nil => by
    refine ⟨Remembers.ret, fun empty_name fields => ?_⟩
    cases alternate <;> cases fields <;> exact Emits.of_ret _
  | .cons value values => by
    have hvalue := Value.fmt_emits alternate value
    obtain ⟨hmethod, hemits⟩ := Values.fmt_tuple_emits alternate values
    refine ⟨DebugTuple.field_with_remembers.comp hmethod, fun empty_name fields => ?_⟩
    have := (DebugTuple.field_with_emits hvalue alternate empty_name fields).method hmethod
      (hemits empty_name (fields + 1))
    rw [Values.fmt_tuple, Values.render, entries_cons, List.length_cons, Nat.add_comm _ 1,
      ← Nat.add_assoc]
    simpa using this

theorem Values.fmt_emits (alternate : Bool) : (values : Values) →
    Remembers result result (values.fmt alternate) ∧
    ∀ more, Emits result (values.fmt alternate ⟨alternate, true, more⟩)
      (entries alternate more (bytes "\n") [] (values.render alternate))
      ⟨alternate, true, more || ! (values.render alternate).isEmpty⟩
  | .nil => by
    refine ⟨Remembers.ret, fun more => ?_⟩
    cases alternate <;> cases more <;> exact Emits.of_ret _
  | .cons value values => by
    have hvalue := Value.fmt_emits alternate value
    obtain ⟨hmethod, hemits⟩ := Values.fmt_emits alternate values
    refine ⟨entry_with_remembers.comp hmethod, fun more => ?_⟩
    have := (entry_with_emits hvalue alternate more).method hmethod (hemits true)
    rw [Values.fmt, Values.render, entries_cons]
    simpa using this

theorem Entries.fmt_emits (alternate : Bool) : (es : Entries) →
    Remembers DebugMap.result DebugMap.result (es.fmt alternate) ∧
    ∀ more on_newline, ∃ on_newline', Emits DebugMap.result
      (es.fmt alternate ⟨alternate, true, more, false, on_newline⟩)
      (entries alternate more (bytes "\n") [] (es.render alternate))
      ⟨alternate, true, more || ! (es.render alternate).isEmpty, false, on_newline'⟩
  | .nil => by
    refine ⟨Remembers.ret, fun more on_newline => ⟨on_newline, ?_⟩⟩
    cases alternate <;> cases more <;> exact Emits.of_ret _
  | .cons key value es => by
    have hkey := Value.fmt_emits alternate key
    have hvalue := Value.fmt_emits alternate value
    obtain ⟨hmethod, hemits⟩ := Entries.fmt_emits alternate es
    refine ⟨DebugMap.entry_remembers.comp hmethod, fun more on_newline => ?_⟩
    obtain ⟨on_newline1, hentry⟩ := DebugMap.entry_emits hkey hvalue alternate more on_newline
    obtain ⟨on_newline2, hes⟩ := hemits true on_newline1
    refine ⟨on_newline2, ?_⟩
    have := hentry.method hmethod hes
    rw [Entries.fmt, Entries.render, entries_cons]
    simpa using this

end

/-- **The debug builders**: formatting a value makes calls that write its rendering. With any sink
these calls are made up to the first that fails, and the result tells whether one has. -/
theorem fmt_renders (alternate : Bool) (v : Value) :
    ∃ qs, (v.fmt alternate).calls = some (qs, true) ∧ qs.flatMap Call.text = v.render alternate ∧
      ∀ (σ : Type) (sink : Call → σ → Bool × σ) (s : σ),
        (v.fmt alternate).run sink s = some (feed sink qs s) := by
  have h := Value.fmt_emits alternate v
  obtain ⟨qs, hcalls, htext⟩ := h.calls
  refine ⟨qs, hcalls, htext, fun σ sink s => ?_⟩
  obtain ⟨b, hrun, hok, herr⟩ := run_eq_feed sink h.stops hcalls s
  rw [hrun]
  refine congrArg some (Prod.ext ?_ rfl)
  cases hfeed : (feed sink qs s).1 with
  | true => exact hok hfeed
  | false => exact herr hfeed

end RustStd.Fmt
