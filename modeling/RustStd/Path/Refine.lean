import RustStd.Path.Ends

/-!
# Paths from both ends

The iterator over the components of a path is a double-ended list, with one exception: on Windows
the prefix of a path like `C:.` has the text `C:` from the front and `C:.` from the back. On Unix
what `as_path` returns has the components that are left.
-/

namespace RustStd.Path

open DoubleEnded List Option Nat Bool Components

variable {P : Platform}

/-- A drive letter with a component `.` behind it. -/
def DriveDot (P : Platform) (path : List UInt8) : Prop :=
  P = .windows ∧ ∃ drive rest, path = drive :: 58 :: 46 :: rest ∧ is_ascii_alphabetic drive = true ∧
    (rest = [] ∨ ∃ sep rest', rest = sep :: rest' ∧ (sep = 47 ∨ sep = 92))

/-- **A double-ended list**: every sequence of requests is answered as by the list `l`. Without
prefixes the path that is left has the components that are left. -/
structure IsList (P : Platform) (path : List UInt8) (c : Components) (l : List Component) :
    Prop where
  components_eq : components P path = some c
  run_eq : ∀ es, ∃ c', run (Components.step P) es c = some (pops es l, c')
  forwards : ∀ n, ∃ c', run (Components.step P) (replicate (l.length + n) .front) c =
    some (l.map some ++ replicate n none, c')
  backwards : ∀ n, ∃ c', run (Components.step P) (replicate (l.length + n) .back) c =
    some (l.reverse.map some ++ replicate n none, c')
  as_path_eq : P.HAS_PREFIXES = false → ∀ es rs c', run (Components.step P) es c = some (rs, c') →
    ∃ rest d, c'.as_path P = some rest ∧ components P rest = some d ∧
      ∀ es', ∃ d', run (Components.step P) es' d = some (pops es' (left es l), d')

/-! ## The start -/

section Start

variable {path : List UInt8} {kind : Option Prefix}

theorem has_physical_root_eq (h : kind_len kind ≤ path.length) : has_physical_root P path kind =
      some (((path.drop (kind_len kind)).head?.map P.is_sep_byte).getD false) := by
  cases kind with
  | none => rfl
  | some p =>
    rw [has_physical_root]
    simp only [slice_from_eq (show p.len ≤ path.length from h), bind_eq_bind, bind_some]
    rfl

/-- **The first state** is consistent. -/
theorem components_spec (P : Platform) (path : List UInt8) :
    ∃ kind c, P.parse_prefix path = some kind ∧ components P path = some c ∧
      c = ⟨path, kind, ((path.drop (kind_len kind)).head?.map P.is_sep_byte).getD false,
        if P.HAS_PREFIXES then .Prefix else .StartDir, .Body⟩ ∧
      Consistent P path kind (kind.isSome && c.dots P) c := by
  obtain ⟨kind, hkind, hunix, hpart⟩ := parse_prefix_spec P path
  have hnone (hP : P.HAS_PREFIXES = false) : kind = none := by
    cases P with
    | unix => exact hunix rfl
    | windows => cases hP
  have hle : kind_len kind ≤ path.length := by
    cases kind with
    | none => exact Nat.zero_le _
    | some p => exact (hpart p rfl).1.2
  refine ⟨kind, _, hkind, ?_, rfl, ?_⟩
  · rw [components, hkind]
    simp only [bind_eq_bind, bind_some, has_physical_root_eq hle]
    rfl
  generalize hroot : ((path.drop (kind_len kind)).head?.map P.is_sep_byte).getD false = root
  generalize hc : (⟨path, kind, root, if P.HAS_PREFIXES then .Prefix else .StartDir, .Body⟩ :
    Components) = c
  have hrank : c.front.rank ≤ 1 := by
    subst hc
    dsimp only
    split <;> decide
  have hremaining : c.prefix_remaining P = kind_len kind := by
    subst hc
    rw [prefix_remaining, prefix_len, kind_len]
    cases hP : P.HAS_PREFIXES with
    | true => rfl
    | false => rw [hnone hP]; rfl
  have hpath : c.path = path := by rw [← hc]
  have hnonempty (h : path.drop (kind_len kind) ≠ []) : kind_len kind < path.length := by
    have := length_pos_iff.mpr h
    rw [length_drop] at this
    omega
  have hlead : c.lead P ≤ path.length := by
    rw [lead, hremaining]
    cases hphysical : c.has_physical_root with
    | true =>
      have : kind_len kind < path.length := by
        refine hnonempty fun hnil => ?_
        have hroot' : root = true := by rw [← hphysical, ← hc]
        rw [hnil, hroot'] at hroot
        cases hroot
      simp [dots_of_root hphysical, hrank]
      omega
    | false =>
      cases hdots : c.dots P with
      | true =>
        have : kind_len kind < path.length := by
          refine hnonempty fun hnil => ?_
          rw [dots, hremaining, hpath, hnil, Bool.and_eq_true] at hdots
          cases hdots.2
        simp [hrank]
        omega
      | false => simpa using hle
  exact {
    kind_eq := by rw [← hc]
    no_prefixes := fun hP => by simp [← hc, hP, hnone hP]
    pos := fun p hp => (hpart p (by rw [← hp, ← hc])).1.1
    dot_kind := fun hk => by rw [hk]; rfl
    part := fun _ => by rw [hpath]
    lead_le := fun _ => hpath ▸ hlead
    at_start := fun hb => by rw [← hc] at hb; cases hb
    at_prefix := fun hb => by rw [← hc] at hb; cases hb
    dots_eq := fun hk _ _ => by
      rw [← hc] at hk
      rw [isSome_iff_ne_none.mpr hk, Bool.true_and]
    front_done := fun hf => by
      rw [hf] at hrank
      exact absurd hrank (by decide)
    back_done := fun _ hb => by rw [← hc] at hb; cases hb
    rooted := fun hP _ _ => by
      rw [hnone hP] at hroot
      rw [hpath, ← hc, ← hroot]
      rfl }

/-- When the component `.` follows a drive. -/
theorem drive_dot_iff {c : Components} (hkind : P.parse_prefix path = some kind)
    (hc : c = ⟨path, kind, ((path.drop (kind_len kind)).head?.map P.is_sep_byte).getD false,
      if P.HAS_PREFIXES then .Prefix else .StartDir, .Body⟩)
    (h : Consistent P path kind (kind.isSome && c.dots P) c) :
    (kind.isSome && c.dots P) = true ↔ DriveDot P path := by
  obtain ⟨o, ho, hunix, hpart⟩ := parse_prefix_spec P path
  obtain rfl : o = kind := some.inj (ho.symm.trans hkind)
  have windows_dots (x : UInt8) (rest : List UInt8) (drive : UInt8) : dots .windows
      ⟨drive :: 58 :: rest, some (.Disk x), false, .Prefix, .Body⟩ =
        dot_start Platform.windows.is_sep_byte rest := rfl
  constructor
  · intro hdot
    rw [and_eq_true] at hdot
    obtain ⟨p, rfl⟩ := isSome_iff_exists.mp hdot.1
    have hP : P = .windows := by
      cases P with
      | unix => exact absurd (hunix rfl) (by simp)
      | windows => rfl
    have hdrive := drive_of_dots h h.kind_eq hdot.2
    obtain ⟨x, hx⟩ := ne_none_iff_exists'.mp ((hpart p rfl).2.mp hdrive)
    obtain ⟨drive, rest, rfl, halpha, -⟩ := parse_drive_eq_some.mp hx
    subst hP
    obtain rfl : p = .Disk x := by
      have := (parse_prefix_drive hx).symm.trans hkind
      simpa using this.symm
    have hroot : c.has_physical_root = false := by
      cases hroot : c.has_physical_root with
      | false => rfl
      | true => exact absurd ((dots_of_root hroot).symm.trans hdot.2) false_ne_true
    have hdots := hdot.2
    rw [hc] at hroot hdots
    dsimp only at hroot
    rw [hroot] at hdots
    have hdots : dot_start Platform.windows.is_sep_byte rest = true :=
      (windows_dots x rest drive).symm.trans hdots
    refine ⟨rfl, drive, ?_⟩
    rw [dot_start.eq_def] at hdots
    split at hdots
    · exact ⟨[], rfl, halpha, .inl rfl⟩
    · next sep rest' _ =>
      refine ⟨sep :: rest', rfl, halpha, .inr ⟨sep, rest', rfl, ?_⟩⟩
      simpa [Platform.is_sep_byte] using hdots
    · cases hdots
  · rintro ⟨rfl, drive, rest, rfl, halpha, hrest⟩
    have hx : parse_drive (drive :: 58 :: 46 :: rest) = some (to_ascii_uppercase drive) :=
      if_pos halpha
    obtain rfl : o = some (.Disk (to_ascii_uppercase drive)) :=
      some.inj (hkind.symm.trans (parse_prefix_drive hx))
    have hdots : c.dots .windows = dot_start Platform.windows.is_sep_byte (46 :: rest) := by
      rw [hc]
      exact windows_dots _ _ _
    rw [hdots]
    obtain rfl | ⟨sep, rest', rfl, rfl | rfl⟩ := hrest <;> rfl

end Start

/-! ## What is left of a path on Unix -/

section AsPath

variable {path orig raw : List UInt8} {root : Bool} {front : State} {l : List Component}

/-- The bytes begin with a component that is not `.`, or are empty. -/
def Trimmed (p : UInt8 → Bool) (bytes : List UInt8) : Prop :=
  (bytes.head?.map p).getD false = false ∧ dot_start p bytes = false

theorem trimmed_append {p : UInt8 → Bool} {xs : List UInt8} (hne : xs ≠ []) (hdot : xs ≠ [46])
    (hall : ∀ b ∈ xs, p b = false) (rest : List UInt8) : Trimmed p (xs ++ rest) := by
  rcases xs with _ | ⟨a, _ | ⟨b, xs⟩⟩
  · exact absurd rfl hne
  · have ha : a ≠ 46 := fun ha => hdot (by rw [ha])
    refine ⟨hall a mem_cons_self, ?_⟩
    cases rest <;> simp [dot_start, ha]
  · refine ⟨hall a mem_cons_self, ?_⟩
    have hb : p b = false := hall b (mem_cons_of_mem _ mem_cons_self)
    by_cases ha : a = 46
    · rw [ha]
      exact hb
    · simp [dot_start, ha]

theorem trimmed_take {p : UInt8 → Bool} {bytes : List UInt8} {n : ℕ} (h : Trimmed p bytes)
    (hcut : CutAt p bytes 0 n) : Trimmed p (bytes.take n) := by
  constructor
  · rw [head?_take]
    split
    · rfl
    · exact h.1
  · rw [dot_start_take (fun hdot => absurd (hdot.symm.trans h.2) (by simp)) fun _ => ?_]
    · exact h.2
    · exact hcut.imp_right And.right

theorem trimmed_of_parse {c : Components} (hfront : c.front = .Body)
    (hverbatim : c.prefix_verbatim P = false) {size : ℕ} {x : Component}
    (h : c.parse_next_component P = some (size, some x)) :
    Trimmed (c.is_sep_byte P) c.path := by
  have hpiece {xs : List UInt8} (h : c.parse_single_component P xs = some x) :
      xs ≠ [] ∧ xs ≠ [46] := by
    constructor
    · rintro rfl
      cases h
    · rintro rfl
      simp [parse_single_component, hverbatim] at h
  rw [parse_next_component, check, if_pos hfront] at h
  rcases split_left (c.is_sep_byte P) c.path with ⟨hnone, hall⟩ | ⟨xs, b, ys, hsome, heq, hb, hxs⟩
  · rw [hnone] at h
    obtain ⟨hne, hdot⟩ := hpiece (Prod.mk.inj (some.inj h)).2
    rw [← append_nil c.path]
    exact trimmed_append hne hdot hall []
  · rw [hsome] at h
    have htake : c.path.take xs.length = xs := by rw [heq, take_left]
    have hparse := (Prod.mk.inj (some.inj h)).2
    rw [htake] at hparse
    obtain ⟨hne, hdot⟩ := hpiece hparse
    rw [heq]
    exact trimmed_append hne hdot hxs _

/-- A state without a prefix that stands for `l`. -/
def Holds (P : Platform) (orig raw : List UInt8) (l : List Component) (c : Components) : Prop :=
  Consistent P orig none false c ∧ c.remaining P raw = l

/-- **`trim_left`** takes the empty components and the components `.` off. -/
theorem trim_left_spec (h : Holds P orig raw l ⟨path, none, root, .Body, .Body⟩) :
    ∃ path', trim_left P ⟨path, none, root, .Body, .Body⟩ = some ⟨path', none, root, .Body, .Body⟩ ∧
      Holds P orig raw l ⟨path', none, root, .Body, .Body⟩ ∧ Trimmed P.is_sep_byte path' := by
  have hverbatim (path : List UInt8) :
      prefix_verbatim P ⟨path, none, root, .Body, .Body⟩ = false := by
    simp [prefix_verbatim]
  have hsep (path : List UInt8) :
      is_sep_byte P ⟨path, none, root, .Body, .Body⟩ = P.is_sep_byte := by
    funext b
    rw [is_sep_byte, hverbatim, if_neg Bool.false_ne_true]
  suffices hturn : ∀ c, (∃ path, c = ⟨path, none, root, .Body, .Body⟩ ∧ Holds P orig raw l c) →
      TurnSpec (fun c => ∃ path, c = ⟨path, none, root, .Body, .Body⟩ ∧ Holds P orig raw l c)
        (fun c => c.path.length) (fun c => ∃ path, c = ⟨path, none, root, .Body, .Body⟩ ∧
          Holds P orig raw l c ∧ Trimmed P.is_sep_byte path) c (trim_left_turn P c) by
    obtain ⟨_, hrun, path', rfl, hpath'⟩ := runLoop_spec _ _ _ _ hturn (path.length + 1) _
      ⟨path, rfl, h⟩ (lt_succ_self _)
    exact ⟨path', hrun, hpath'⟩
  rintro _ ⟨path, rfl, h, hl⟩
  rw [trim_left_turn]
  cases path with
  | nil => exact ⟨[], rfl, ⟨h, hl⟩, rfl, rfl⟩
  | cons b bytes =>
    obtain ⟨size, comp, hparse, hsize, hpos, hbody⟩ := parse_next_component_spec
      (P := P) (c := ⟨b :: bytes, none, root, .Body, .Body⟩) rfl
    obtain ⟨hnext, hremaining⟩ := next_body raw h hbody
    simp only [isEmpty_cons, false_eq_true, if_false, bind_eq_bind, hparse,
      bind_some, Components.drop, slice_from_eq hsize]
    cases comp with
    | some x =>
      refine ⟨b :: bytes, rfl, ⟨h, hl⟩, ?_⟩
      rw [← hsep (b :: bytes)]
      exact trimmed_of_parse rfl (hverbatim _) hparse
    | none =>
      refine ⟨⟨_, rfl, hnext, hremaining.symm.trans hl⟩, ?_⟩
      have := hpos (by simp)
      dsimp only at hsize ⊢
      rw [length_drop]
      omega

/-- **`trim_right`** does so from the back. -/
theorem trim_right_spec (hfront : front ≠ .Done)
    (h : Holds P orig raw l ⟨path, none, root, front, .Body⟩) :
    ∃ path', trim_right P ⟨path, none, root, front, .Body⟩ =
        some ⟨path', none, root, front, .Body⟩ ∧
      Holds P orig raw l ⟨path', none, root, front, .Body⟩ ∧
      (1 < front.rank → Trimmed P.is_sep_byte path → Trimmed P.is_sep_byte path') := by
  have hsep (path : List UInt8) :
      is_sep_byte P ⟨path, none, root, front, .Body⟩ = P.is_sep_byte := by
    funext b
    simp [is_sep_byte, prefix_verbatim]
  let Inv (c : Components) : Prop := ∃ path', c = ⟨path', none, root, front, .Body⟩ ∧
    Holds P orig raw l c ∧
      (1 < front.rank → Trimmed P.is_sep_byte path → Trimmed P.is_sep_byte path')
  suffices hturn : ∀ c, Inv c → TurnSpec Inv (fun c => c.path.length) Inv c
      (trim_right_turn P c) by
    obtain ⟨_, hrun, path', rfl, hpath'⟩ := runLoop_spec _ _ _ _ hturn (path.length + 1) _
      ⟨path, rfl, h, fun _ => id⟩ (lt_succ_self _)
    exact ⟨path', hrun, hpath'⟩
  rintro _ ⟨path', rfl, ⟨h, hl⟩, htrimmed⟩
  have hlen := len_before_body_eq (prefix_remaining_le_lead.trans (h.lead_le (.inr rfl)))
  rw [trim_right_turn, hlen]
  simp only [bind_eq_bind, bind_some]
  by_cases hlt : lead P ⟨path', none, root, front, .Body⟩ < path'.length
  · obtain ⟨n, comp, hparse, hn, hcut, hbody⟩ := parse_next_component_back_spec rfl hlen hlt
    obtain ⟨hnext, hremaining⟩ := next_back_body raw h hfront hn hcut hbody
    have hsub : path'.length - (path'.length - n) = n := Nat.sub_sub_self hn.le
    simp only [gt_iff_lt, hlt, if_true, hparse, bind_some, drop_back, check,
      sub_le, bind_eq_bind, hsub, slice_to_eq hn.le]
    cases comp with
    | some x => exact ⟨path', rfl, ⟨h, hl⟩, htrimmed⟩
    | none =>
      rw [toList_none, append_nil] at hremaining
      refine ⟨⟨_, rfl, ⟨hnext, hremaining.symm.trans hl⟩, fun hrank ht => ?_⟩, ?_⟩
      · have hlead : lead P ⟨path', none, root, front, .Body⟩ = 0 := lead_of_body hrank
        rw [hsep, hlead] at hcut
        exact trimmed_take (htrimmed hrank ht) hcut
      · dsimp only
        rw [length_take, min_eq_left hn.le]
        exact hn
  · rw [if_neg hlt]
    exact ⟨path', rfl, ⟨h, hl⟩, htrimmed⟩

/-- **`as_path`** returns a path with the components that are left. -/
theorem as_path_spec (hP : P.HAS_PREFIXES = false) {c : Components} (h : Holds P orig raw l c) :
    ∃ rest d, c.as_path P = some rest ∧ components P rest = some d ∧ Holds P rest raw l d := by
  -- It is enough that the first state over the path has the same components.
  suffices hrest : ∃ rest, c.as_path P = some rest ∧ remaining P
      ⟨rest, none, (rest.head?.map P.is_sep_byte).getD false, .StartDir, .Body⟩ raw = l by
    obtain ⟨rest, has_path, hremaining⟩ := hrest
    obtain ⟨kind, d, -, hd, heq, hconsistent⟩ := components_spec P rest
    obtain rfl : kind = none := by
      have := (hconsistent.no_prefixes hP).1
      rwa [heq] at this
    refine ⟨rest, d, has_path, hd, hconsistent, ?_⟩
    rw [heq, ← hremaining, hP]
    rfl
  obtain ⟨hc, hl⟩ := h
  obtain ⟨path, kind, root, front, back⟩ := c
  obtain rfl : kind = none := hc.kind_eq
  obtain ⟨-, hfront, hback⟩ := hc.no_prefixes hP
  have hempty (hpath : path = []) (hfinished : finished ⟨path, none, root, front, back⟩ =
      true) : ∃ rest, as_path P ⟨path, none, root, front, back⟩ = some rest ∧ remaining P
          ⟨rest, none, (rest.head?.map P.is_sep_byte).getD false, .StartDir, .Body⟩ raw = l := by
    rw [remaining_of_finished hfinished] at hl
    subst hpath hl
    have hleft : trim_left P ⟨[], none, root, front, back⟩ =
        some ⟨[], none, root, front, back⟩ := rfl
    have hright : trim_right P ⟨[], none, root, front, back⟩ =
        some ⟨[], none, root, front, back⟩ := by
      rw [trim_right, length_nil, runLoop, trim_right_turn,
        len_before_body_eq (by rw [prefix_remaining_of_ne hfront]; exact zero_le _)]
      rfl
    refine ⟨[], ?_, ?_⟩
    · simp only [as_path, hleft, hright, ite_self, bind_eq_bind, bind_some]
      rfl
    · simp [remaining, Components.start, dots, dot_start]
  cases front with
  | Prefix => exact absurd rfl hfront
  | Done => exact hempty (hc.front_done rfl) (by simp [finished])
  | StartDir =>
    cases back with
    | Prefix => exact absurd rfl hback
    | Done => exact hempty (hc.back_done hP rfl) (by simp [finished])
    | StartDir =>
      refine ⟨path, rfl, ?_⟩
      have hroot : root = (path.head?.map P.is_sep_byte).getD false :=
        hc.rooted hP rfl (.inl rfl)
      have hlen : path.length = lead P ⟨path, none, root, .StartDir, .Body⟩ :=
        hc.at_start rfl (.inl le_rfl)
      rw [← hroot, ← hl, remaining, remaining, ← hlen, drop_length, body_nil]
      rfl
    | Body =>
      obtain ⟨rest, hrun, ⟨hrest, hremaining⟩, -⟩ := trim_right_spec (by simp) ⟨hc, hl⟩
      have hroot : root = (rest.head?.map P.is_sep_byte).getD false :=
        hrest.rooted hP rfl (.inr rfl)
      refine ⟨rest, ?_, by rw [← hroot, ← hremaining]⟩
      simp only [as_path, reduceCtorEq, if_false, if_true, bind_eq_bind, bind_some, hrun]
      rfl
  | Body =>
    cases back with
    | Prefix => exact absurd rfl hback
    | Done => exact hempty (hc.back_done hP rfl) (by simp [finished])
    | StartDir =>
      have hlen := hc.at_start rfl (.inr hP)
      have hzero : lead P ⟨path, none, root, .Body, .StartDir⟩ = 0 :=
        lead_of_body (lt_succ_self 1)
      exact hempty (eq_nil_of_length_eq_zero (hlen.trans hzero))
        (by simp [finished, State.rank])
    | Body =>
      obtain ⟨path', hleft, hpath', htrimmed⟩ := trim_left_spec ⟨hc, hl⟩
      obtain ⟨rest, hright, ⟨hrest, hremaining⟩, htrimmed'⟩ := trim_right_spec (by simp) hpath'
      obtain ⟨hhead, hdot⟩ := htrimmed' (lt_succ_self 1) htrimmed
      refine ⟨rest, ?_, ?_⟩
      · simp only [as_path, if_true, bind_eq_bind, bind_some, hleft, hright]
        rfl
      have hsep : is_sep_byte P ⟨rest, none, false, .StartDir, .Body⟩ = P.is_sep_byte := by
        funext b
        simp [is_sep_byte, prefix_verbatim]
      have hdots : dots P ⟨rest, none, false, .StartDir, .Body⟩ = false := by
        rw [dots, hsep, prefix_remaining_of_ne (by simp), drop_zero, hdot,
          Bool.and_false]
      have hlead : lead P ⟨rest, none, false, .StartDir, .Body⟩ = 0 := by
        simp [lead_of_start, start_len, hdots]
      have hlead' : lead P ⟨rest, none, root, .Body, .Body⟩ = 0 :=
        lead_of_body (lt_succ_self 1)
      rw [hhead, ← hremaining, remaining, remaining, hlead, hlead']
      simp [Components.start, hdots, State.rank]
      rfl

end AsPath

/-! ## The double-ended list -/

section Lists

variable {path orig raw : List UInt8} {kind : Option Prefix} {dot : Bool} {c : Components}
  {l : List Component}

/-- How much of the path an end takes for the text of the prefix. -/
def text_len (kind : Option Prefix) (dot : Bool) : End → ℕ
  | .front => kind_len kind
  | .back => kind_len kind + dot.toNat

/-- **Requests at either end** are answered as by what remains, when the ends agree on the text of
the prefix. -/
theorem run_components (es : List End) (hraw : ∀ e ∈ es, orig.take (text_len kind dot e) = raw)
    (h : Consistent P orig kind dot c) (hl : c.remaining P raw = l) :
    ∃ c', run (Components.step P) es c = some (pops es l, c') ∧ Consistent P orig kind dot c' ∧
      c'.remaining P raw = left es l := by
  refine run_spec (R := fun c l => Consistent P orig kind dot c ∧ c.remaining P raw = l) es ?_
    ⟨h, hl⟩
  rintro e he c l ⟨h, hl⟩
  cases e with
  | front => exact next_spec h (hraw .front he) hl
  | back => exact next_back_spec h (hraw .back he) hl

/-- Without a component `.` behind a drive. -/
theorem isList_of_not_driveDot (h : ¬ DriveDot P path) : ∃ c l, IsList P path c l := by
  obtain ⟨kind, c, hkind, hc, heq, hconsistent⟩ := components_spec P path
  have hdot : (kind.isSome && c.dots P) = false :=
    eq_false_iff.mpr fun hdot => h ((drive_dot_iff hkind heq hconsistent).mp hdot)
  rw [hdot] at hconsistent
  have hraw (e : End) : path.take (text_len kind false e) = path.take (kind_len kind) := by
    cases e <;> rfl
  obtain ⟨l, hl⟩ : ∃ l, c.remaining P (path.take (kind_len kind)) = l := ⟨_, rfl⟩
  have hrun (es : List End) := run_components es (fun e _ => hraw e) hconsistent hl
  refine ⟨c, l, hc, fun es => ?_, fun n => ?_, fun n => ?_, fun hP es rs c' hrs => ?_⟩
  · obtain ⟨c', hc', -⟩ := hrun es
    exact ⟨c', hc'⟩
  · obtain ⟨c', hc', -⟩ := hrun (replicate (_ + n) .front)
    exact ⟨c', hc'.trans (by rw [pops_front])⟩
  · obtain ⟨c', hc', -⟩ := hrun (replicate (_ + n) .back)
    exact ⟨c', hc'.trans (by rw [pops_back, ← length_reverse, pops_front])⟩
  · obtain ⟨c'', hc'', hconsistent', hleft⟩ := hrun es
    obtain ⟨-, rfl⟩ := Prod.mk.inj (some.inj (hc''.symm.trans hrs))
    obtain rfl : kind = none := by
      have := (hconsistent.no_prefixes hP).1
      rwa [heq] at this
    obtain ⟨rest, d, has_path, hd, hconsistent'', hremaining⟩ :=
      as_path_spec hP ⟨hconsistent', hleft⟩
    refine ⟨rest, d, has_path, hd, fun es' => ?_⟩
    obtain ⟨d', hd', -⟩ := run_components es'
      (fun e _ => show rest.take (text_len none false e) = [] by cases e <;> rfl)
      hconsistent'' hremaining
    exact ⟨d', hd'⟩

/-- With one, the two ends disagree on the text of the prefix. -/
theorem not_isList_of_driveDot (h : DriveDot P path) : ¬ ∃ c l, IsList P path c l := by
  rintro ⟨c, l, hlist⟩
  obtain ⟨kind, c', hkind, hc', heq, hconsistent⟩ := components_spec P path
  obtain rfl : c' = c := some.inj (hc'.symm.trans hlist.components_eq)
  have hdot := (drive_dot_iff hkind heq hconsistent).mpr h
  rw [hdot] at hconsistent
  have hl (e : End) : c'.remaining P (path.take (text_len kind true e)) = l := by
    refine eq_of_pops e fun n => ?_
    obtain ⟨c1, hc1, -⟩ := run_components (replicate n e)
      (fun e' he' => by rw [eq_of_mem_replicate he']) hconsistent rfl
    obtain ⟨c2, hc2⟩ := hlist.run_eq (replicate n e)
    exact (Prod.mk.inj (some.inj (hc1.symm.trans hc2))).1
  obtain ⟨rfl, drive, rest, rfl, halpha, -⟩ := h
  have hx : parse_drive (drive :: 58 :: 46 :: rest) = some (to_ascii_uppercase drive) :=
    if_pos halpha
  obtain rfl : kind = some (.Disk (to_ascii_uppercase drive)) :=
    some.inj (hkind.symm.trans (parse_prefix_drive hx))
  have hhead (raw : List UInt8) : (c'.remaining .windows raw).head? =
      some (.Prefix raw (.Disk (to_ascii_uppercase drive))) := by
    rw [heq]
    rfl
  have hraw := congrArg head? ((hl .front).trans (hl .back).symm)
  rw [hhead, hhead] at hraw
  cases hraw

/-- **The components of a path** are a double-ended list, unless a component `.` follows a drive
letter. -/
theorem components_isList_iff (P : Platform) (path : List UInt8) :
    (∃ c l, IsList P path c l) ↔ ¬ DriveDot P path :=
  ⟨fun h hdot => not_isList_of_driveDot hdot h, isList_of_not_driveDot⟩

/-- The path `C:.` -/
theorem not_isList_drive_dot : ¬ ∃ c l, IsList .windows [67, 58, 46] c l :=
  not_isList_of_driveDot ⟨rfl, 67, [], rfl, rfl, .inl rfl⟩

end Lists

end RustStd.Path
