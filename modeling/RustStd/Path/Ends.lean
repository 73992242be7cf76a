import RustStd.Path.Components

/-!
# What is left of a path

`Components.remaining` is the list of the components that the iterator has not yielded. Every turn
of the loop of `next` keeps it or takes its first element (`next_spec`), and every turn of the loop
of `next_back` keeps it or takes the last (`next_back_spec`), as long as the state is consistent.
The raw text of a prefix is a parameter here: `next` cuts it off by its length, `next_back` yields
what the other components left.
-/

namespace RustStd.Path

open DoubleEnded List

variable {P : Platform}

/-! ## Bodies -/

/-- The components of a body, between the separators. -/
def body (P : Platform) (c : Components) (bytes : List UInt8) : List Component :=
  (bytes.splitOnP (c.is_sep_byte P)).filterMap (c.parse_single_component P)

section Bodies

variable {c : Components} {bytes : List UInt8}

theorem body_append_cons {b : UInt8} (hb : c.is_sep_byte P b = true) (xs ys : List UInt8) :
    body P c (xs ++ b :: ys) = body P c xs ++ body P c ys := by
  rw [body, splitOnP_append_cons xs ys hb, filterMap_append]
  rfl

theorem body_piece (h : ∀ b ∈ bytes, c.is_sep_byte P b = false) :
    body P c bytes = (c.parse_single_component P bytes).toList := by
  rw [body, splitOnP_eq_singleton h, filterMap_cons, filterMap_nil]
  cases c.parse_single_component P bytes <;> rfl

@[simp] theorem body_nil : body P c [] = [] := body_piece (fun _ h => absurd h not_mem_nil)

/-- A separator at the left bounds an empty component. -/
theorem body_cons {b : UInt8} (hb : c.is_sep_byte P b = true) :
    body P c (b :: bytes) = body P c bytes := by
  have := body_append_cons hb [] bytes
  rwa [nil_append, body_nil, nil_append] at this

/-- The search for a separator from the left. -/
theorem split_left (p : UInt8 → Bool) (bytes : List UInt8) :
    (bytes.findIdx? p = none ∧ ∀ b ∈ bytes, p b = false) ∨
    ∃ xs b ys, bytes.findIdx? p = some xs.length ∧ bytes = xs ++ b :: ys ∧ p b = true ∧
      ∀ b ∈ xs, p b = false := by
  cases h : bytes.findIdx? p with
  | none => exact .inl ⟨rfl, fun b hb => by simpa using findIdx?_eq_none_iff.mp h b hb⟩
  | some i =>
    obtain ⟨hlt, hi, hbefore⟩ := findIdx?_eq_some_iff_getElem.mp h
    have hlen : (bytes.take i).length = i := length_take_of_le hlt.le
    refine .inr ⟨bytes.take i, bytes[i], bytes.drop (i + 1), by rw [hlen], ?_, hi, fun b hb => ?_⟩
    · rw [← drop_eq_getElem_cons hlt, take_append_drop]
    · obtain ⟨j, hj, rfl⟩ := getElem_of_mem hb
      rw [hlen] at hj
      rw [getElem_take]
      simpa using hbefore j hj

/-- The search for a separator from the right. -/
theorem split_right (p : UInt8 → Bool) (bytes : List UInt8) :
    (rposition p bytes = none ∧ ∀ b ∈ bytes, p b = false) ∨
    ∃ xs b ys, rposition p bytes = some xs.length ∧ bytes = xs ++ b :: ys ∧ p b = true ∧
      ∀ b ∈ ys, p b = false := by
  rw [rposition]
  rcases split_left p bytes.reverse with ⟨hnone, hall⟩ | ⟨xs, b, ys, hsome, heq, hb, hxs⟩
  · exact .inl ⟨by rw [hnone]; rfl, fun b hb => hall b (mem_reverse.mpr hb)⟩
  have hbytes : bytes = ys.reverse ++ b :: xs.reverse := by
    rw [← reverse_reverse bytes, heq]
    simp
  refine .inr ⟨ys.reverse, b, xs.reverse, ?_, hbytes, hb, fun b hb => hxs b (mem_reverse.mp hb)⟩
  rw [hsome, hbytes]
  simp only [Option.map_some, length_append, length_cons, length_reverse]
  congr 1
  lia

/-! ## The two parsers -/

/-- **Parsing from the left** takes the first component of a body off. -/
theorem parse_next_component_spec (hfront : c.front = .Body) :
    ∃ size comp, c.parse_next_component P = some (size, comp) ∧ size ≤ c.path.length ∧
      (c.path ≠ [] → 0 < size) ∧
      body P c c.path = comp.toList ++ body P c (c.path.drop size) := by
  rw [Components.parse_next_component, check, if_pos hfront]
  rcases split_left (c.is_sep_byte P) c.path with ⟨hnone, hall⟩ | ⟨xs, b, ys, hsome, heq, hb, hxs⟩
  · refine ⟨c.path.length, c.parse_single_component P c.path, by rw [hnone]; rfl, le_rfl,
      length_pos_iff.mpr, ?_⟩
    rw [drop_length, body_nil, append_nil, body_piece hall]
  have htake : c.path.take xs.length = xs := by rw [heq, take_left]
  have hdrop : c.path.drop (xs.length + 1) = ys := by
    rw [heq, ← drop_drop, drop_left]
    rfl
  refine ⟨xs.length + 1, c.parse_single_component P xs, ?_, ?_, fun _ => Nat.succ_pos _, ?_⟩
  · rw [hsome]
    simp only [htake]
    rfl
  · rw [heq, length_append, length_cons]
    lia
  · rw [hdrop, heq, body_append_cons hb, body_piece hxs]

/-- Where a path may be cut from the right: at its start, or before a separator. -/
def CutAt (p : UInt8 → Bool) (bytes : List UInt8) (start n : ℕ) : Prop :=
  n = start ∨ start ≤ n ∧ ∃ b, bytes[n]? = some b ∧ p b = true

/-- **Parsing from the right** takes the last component of a body off. -/
theorem parse_next_component_back_spec (hback : c.back = .Body) {start : ℕ}
    (hstart : c.len_before_body P = some start) (hlt : start < c.path.length) :
    ∃ n comp, c.parse_next_component_back P = some (c.path.length - n, comp) ∧
      n < c.path.length ∧ CutAt (c.is_sep_byte P) c.path start n ∧
      body P c (c.path.drop start) = body P c ((c.path.take n).drop start) ++ comp.toList := by
  rw [Components.parse_next_component_back, check, if_pos hback, hstart]
  simp only [Option.bind_eq_bind, Option.bind_some, slice_from_eq hlt.le]
  rcases split_right (c.is_sep_byte P) (c.path.drop start) with
    ⟨hnone, hall⟩ | ⟨xs, b, ys, hsome, heq, hb, hys⟩
  · refine ⟨start, c.parse_single_component P (c.path.drop start), ?_, hlt, .inl rfl, ?_⟩
    · rw [hnone]
      simp
    · rw [drop_take, Nat.sub_self, take_zero, body_nil, nil_append, body_piece hall]
  have hlen := congrArg length heq
  rw [length_drop, length_append, length_cons] at hlen
  have hdrop : (c.path.drop start).drop (xs.length + 1) = ys := by
    rw [heq, ← drop_drop, drop_left]
    rfl
  refine ⟨start + xs.length, c.parse_single_component P ys, ?_, by lia,
    .inr ⟨by lia, b, ?_, hb⟩, ?_⟩
  · rw [hsome]
    simp only [hdrop]
    have hsize : ys.length + 1 = c.path.length - (start + xs.length) := by lia
    rw [hsize]
    rfl
  · rw [← getElem?_drop, heq, getElem?_append_right le_rfl, Nat.sub_self]
    rfl
  · rw [drop_take, Nat.add_sub_cancel_left, heq, take_left, body_append_cons hb, body_piece hys]

end Bodies

/-! ## Starts -/

/-- The bytes begin with a component `.`. -/
def dot_start (p : UInt8 → Bool) : List UInt8 → Bool
  | [46] => true
  | 46 :: b :: _ => p b
  | _ => false

/-- A cut from the right does not touch the component `.` at the start. -/
theorem dot_start_take {p : UInt8 → Bool} {bytes : List UInt8} {n : ℕ}
    (hdot : dot_start p bytes = true → 0 < n)
    (hcut : dot_start p bytes = false → n = 0 ∨ ∃ b, bytes[n]? = some b ∧ p b = true) :
    dot_start p (bytes.take n) = dot_start p bytes := by
  rcases n with _ | _ | n
  · rw [take_zero]
    cases h : dot_start p bytes with
    | false => rfl
    | true => exact absurd (hdot h) (lt_irrefl 0)
  · rcases bytes with _ | ⟨a, _ | ⟨b', bytes⟩⟩
    · rfl
    · rfl
    · by_cases ha : a = 46
      · subst ha
        cases hb' : dot_start p (46 :: b' :: bytes) with
        | true => rfl
        | false =>
          obtain ⟨b, hb, hp⟩ := (hcut hb').resolve_left Nat.one_ne_zero
          obtain rfl : b' = b := by simpa using hb
          exact absurd (hp.symm.trans hb') (by simp)
      · simp [dot_start, ha]
  · rcases bytes with _ | ⟨a, _ | ⟨b', bytes⟩⟩
    · rfl
    · rfl
    · by_cases ha : a = 46
      · subst ha
        rfl
      · simp [dot_start, ha]

/-- The component `.` at the start of a body does not show, but where it is verbatim. -/
theorem body_dot {c : Components} {bytes : List UInt8} (hverbatim : c.prefix_verbatim P = false)
    (h : dot_start (c.is_sep_byte P) bytes = true) :
    body P c bytes = body P c (bytes.drop 1) := by
  have hdot : body P c [46] = [] := by
    rw [body, splitOnP_cons_eq_if_modifyHead]
    split <;> simp [Components.parse_single_component, hverbatim]
  rw [dot_start.eq_def] at h
  split at h
  · rw [hdot, drop_one, tail_cons, body_nil]
  · next b rest =>
    have := body_append_cons h [46] rest
    rw [hdot] at this
    rw [drop_one, tail_cons, body_cons h]
    exact this
  · cases h

namespace Components

variable (P) (c : Components)

/-- `include_cur_dir`, where the slice is in range. -/
def dots : Bool :=
  ! c.has_root P && dot_start (c.is_sep_byte P) (c.path.drop (c.prefix_remaining P))

/-- `len_before_body`, where the slice is in range. -/
def lead : ℕ :=
  c.prefix_remaining P + (if c.front.rank ≤ 1 ∧ c.has_physical_root = true then 1 else 0) +
    if c.front.rank ≤ 1 ∧ c.dots P = true then 1 else 0

/-- The component between the prefix and the body. -/
def start : List Component :=
  if c.has_physical_root then [.RootDir]
  else match c.kind with
  | some p => if p.has_implicit_root && ! p.is_verbatim then [.RootDir] else []
  | none => if c.dots P then [.CurDir] else []

/-- **What the iterator has not yielded**, with `raw` for the text of the prefix. -/
def remaining (raw : List UInt8) : List Component :=
  (if c.front = .Prefix ∧ c.back ≠ .Done then (c.kind.map (Component.Prefix raw)).toList else []) ++
  (if c.front.rank ≤ 1 ∧ (c.back = .StartDir ∨ c.back = .Body) then c.start P else []) ++
  (if c.front ≠ .Done ∧ c.back = .Body then body P c (c.path.drop (c.lead P)) else [])

end Components

open Components

/-- The length of a prefix, if there is one. -/
def kind_len (kind : Option Prefix) : ℕ := (kind.map Prefix.len).getD 0

/-- **A consistent state** of the iteration over the path `orig` with the prefix `kind`; `dot` tells
whether the component `.` follows a drive. -/
structure Consistent (P : Platform) (orig : List UInt8) (kind : Option Prefix) (dot : Bool)
    (c : Components) : Prop where
  kind_eq : c.kind = kind
  no_prefixes : P.HAS_PREFIXES = false → c.kind = none ∧ c.front ≠ .Prefix ∧ c.back ≠ .Prefix
  pos : ∀ p, c.kind = some p → 0 < p.len
  dot_kind : kind = none → dot = false
  part : c.front = .Prefix → c.path <+: orig
  lead_le : c.back = .StartDir ∨ c.back = .Body → c.lead P ≤ c.path.length
  at_start : c.back = .StartDir → c.front.rank ≤ 1 ∨ P.HAS_PREFIXES = false →
    c.path.length = c.lead P
  at_prefix : c.back = .Prefix → c.front = .Prefix → c.path.length = kind_len kind + dot.toNat
  dots_eq : c.kind ≠ none → c.front.rank ≤ 1 → c.back = .StartDir ∨ c.back = .Body → c.dots P = dot
  front_done : c.front = .Done → c.path = []
  back_done : P.HAS_PREFIXES = false → c.back = .Done → c.path = []
  rooted : P.HAS_PREFIXES = false → c.front = .StartDir → c.back = .StartDir ∨ c.back = .Body →
    c.has_physical_root = (c.path.head?.map P.is_sep_byte).getD false

section Values

variable {c : Components} {orig raw : List UInt8} {kind : Option Prefix} {dot : Bool}

theorem prefix_remaining_of_ne (h : c.front ≠ .Prefix) : c.prefix_remaining P = 0 := by
  rw [prefix_remaining, if_neg h]
  split <;> rfl

theorem prefix_remaining_of_front (h : c.front = .Prefix) :
    c.prefix_remaining P = c.prefix_len P := by
  rw [prefix_remaining, if_pos h, prefix_len]
  split <;> rfl

theorem lead_of_body (h : 1 < c.front.rank) : c.lead P = 0 := by
  have hne : c.front ≠ .Prefix := by
    intro he
    rw [he] at h
    exact absurd h (by decide)
  rw [lead, prefix_remaining_of_ne hne, if_neg (by lia), if_neg (by lia)]

theorem prefix_remaining_le_lead : c.prefix_remaining P ≤ c.lead P := by
  rw [lead]
  lia

theorem include_cur_dir_eq (h : c.prefix_remaining P ≤ c.path.length) :
    c.include_cur_dir P = some (c.dots P) := by
  rw [include_cur_dir, dots]
  by_cases hroot : c.has_root P = true
  · simp [hroot]
  rw [if_neg hroot, slice_from_eq h]
  simp only [Option.bind_eq_bind, Option.bind_some, Bool.eq_false_iff.mpr hroot, Bool.not_false,
    Bool.true_and]
  generalize c.path.drop (c.prefix_remaining P) = bytes
  rcases bytes with _ | ⟨a, _ | ⟨b, bytes⟩⟩
  · rfl
  all_goals
    by_cases ha : a = 46
    · subst ha
      rfl
    · simp [dot_start, ha]

theorem len_before_body_eq (h : c.prefix_remaining P ≤ c.path.length) :
    c.len_before_body P = some (c.lead P) := by
  have hone : State.StartDir.rank = 1 := rfl
  rw [len_before_body, lead, include_cur_dir_eq h, hone]
  by_cases hrank : c.front.rank ≤ 1
  · simp [hrank]
  · simp [hrank]

theorem finished_iff : c.finished = true ↔
    c.front = .Done ∨ c.back = .Done ∨ c.back.rank < c.front.rank := by
  simp [finished, or_assoc]

/-- A finished iterator has nothing left. -/
theorem remaining_of_finished (h : c.finished = true) : c.remaining P raw = [] := by
  obtain ⟨path, kind, root, front, back⟩ := c
  rw [finished_iff] at h
  rw [remaining]
  cases front <;> cases back <;> simp [State.rank] at h ⊢

theorem Consistent.prefix_len_eq (h : Consistent P orig kind dot c) :
    c.prefix_len P = kind_len kind := by
  rw [prefix_len, kind_len, ← h.kind_eq]
  cases hP : P.HAS_PREFIXES with
  | false => simp [(h.no_prefixes hP).1]
  | true => rfl

/-- The prefix that the branches of the source look at. -/
theorem Consistent.kind_of_platform (h : Consistent P orig kind dot c) :
    (if P.HAS_PREFIXES then c.kind else none) = c.kind := by
  cases hP : P.HAS_PREFIXES with
  | false => simp [(h.no_prefixes hP).1]
  | true => rfl

end Values

/-! ## The front -/

section Front

variable {path orig raw : List UInt8} {kind : Option Prefix} {root dot : Bool} {back : State}

variable (h : Consistent P orig kind dot ⟨path, kind, root, .Prefix, back⟩)
include h

theorem platform_of_front : P.HAS_PREFIXES = true := by
  cases hP : P.HAS_PREFIXES with
  | true => rfl
  | false => exact absurd rfl (h.no_prefixes hP).2.1

/-- The prefix is there as long as it was not taken. -/
theorem kind_len_le (hback : back ≠ .Done) : kind_len kind ≤ path.length := by
  have hle := prefix_remaining_le_lead (P := P) (c := ⟨path, kind, root, .Prefix, back⟩)
  rw [prefix_remaining_of_front rfl, h.prefix_len_eq] at hle
  cases back with
  | Prefix =>
    have hlen : path.length = kind_len kind + dot.toNat := h.at_prefix rfl rfl
    lia
  | StartDir => exact hle.trans (h.lead_le (.inl rfl))
  | Body => exact hle.trans (h.lead_le (.inr rfl))
  | Done => exact absurd rfl hback

variable (raw) in
/-- Past the prefix. -/
theorem enter_start (hback : back ≠ .Done) :
    Consistent P orig kind dot ⟨path.drop (kind_len kind), kind, root, .StartDir, back⟩ ∧
      remaining P ⟨path, kind, root, .Prefix, back⟩ raw =
        (kind.map (Component.Prefix raw)).toList ++
          remaining P ⟨path.drop (kind_len kind), kind, root, .StartDir, back⟩ raw := by
  have hP := platform_of_front h
  have hpr : prefix_remaining P ⟨path, kind, root, .Prefix, back⟩ = kind_len kind := by
    rw [prefix_remaining_of_front rfl, h.prefix_len_eq]
  have hdots : dots P ⟨path.drop (kind_len kind), kind, root, .StartDir, back⟩ =
      dots P ⟨path, kind, root, .Prefix, back⟩ := by
    rw [dots, dots, hpr, prefix_remaining_of_ne (by simp)]
    rfl
  have hlead : lead P ⟨path, kind, root, .Prefix, back⟩ = kind_len kind +
      lead P ⟨path.drop (kind_len kind), kind, root, .StartDir, back⟩ := by
    rw [lead, lead, hdots, hpr, prefix_remaining_of_ne (by simp)]
    simp [State.rank, Nat.add_assoc]
  have hlen : (path.drop (kind_len kind)).length = path.length - kind_len kind :=
    length_drop
  constructor
  · exact {
      h with
      no_prefixes := fun hP' => absurd (hP.symm.trans hP') nofun
      part := nofun
      lead_le := fun hb => by
        have hle : lead P ⟨path, kind, root, .Prefix, back⟩ ≤ path.length :=
          h.lead_le hb
        dsimp only
        lia
      at_start := fun hb _ => by
        have heq : path.length = lead P ⟨path, kind, root, .Prefix, back⟩ :=
          h.at_start hb (.inl (Nat.zero_le _))
        dsimp only
        lia
      at_prefix := fun _ => nofun
      dots_eq := fun hk _ hb => hdots.trans (h.dots_eq hk (Nat.zero_le _) hb)
      front_done := nofun
      back_done := fun hP' => absurd (hP.symm.trans hP') nofun
      rooted := fun hP' => absurd (hP.symm.trans hP') nofun }
  · have hstart : Components.start P ⟨path.drop (kind_len kind), kind, root, .StartDir, back⟩ =
        Components.start P ⟨path, kind, root, .Prefix, back⟩ := by
      rw [Components.start, Components.start, hdots]
    rw [remaining, remaining, hstart, hlead, ← drop_drop]
    simp [State.rank, hback]
    rfl

omit h

/-- The bytes of the component between the prefix and the body. -/
def start_len (P : Platform) (c : Components) : ℕ :=
  if c.has_physical_root then 1 else if c.kind = none ∧ c.dots P = true then 1 else 0

variable {c : Components}

theorem dots_of_root (hroot : c.has_physical_root = true) : c.dots P = false := by
  simp [dots, has_root, hroot]

/-- The component `.` after a prefix: the prefix is a drive. -/
theorem drive_of_dots (h : Consistent P orig kind dot c) {p : Prefix}
    (hkind : c.kind = some p) (hdots : c.dots P = true) : p.is_drive = true := by
  have hP : P.HAS_PREFIXES = true := by
    cases hP : P.HAS_PREFIXES with
    | true => rfl
    | false =>
      rw [(h.no_prefixes hP).1] at hkind
      cases hkind
  simp only [dots, has_root, hP, hkind, Bool.true_and, Option.map_some,
    Option.getD_some, Bool.and_eq_true, Bool.not_eq_true', Bool.or_eq_false_iff,
    Prefix.has_implicit_root, Bool.not_eq_false'] at hdots
  exact hdots.1.2

theorem not_verbatim_of_drive {p : Prefix} (h : p.is_drive = true) : p.is_verbatim = false := by
  cases p with
  | Disk x => rfl
  | _ => cases h

/-- The lead of a path without its prefix. -/
theorem lead_of_start (hfront : c.front = .StartDir) :
    c.lead P = start_len P c + if c.kind ≠ none ∧ c.dots P = true then 1 else 0 := by
  have hrank : c.front.rank ≤ 1 := by
    rw [hfront]
    decide
  rw [lead, prefix_remaining_of_ne (by simp [hfront]), start_len]
  cases hroot : c.has_physical_root with
  | true => simp [hrank, dots_of_root hroot]
  | false => by_cases hkind : c.kind = none <;> simp [hrank, hkind]

variable (raw) in
/-- Past the start. -/
theorem enter_body (h : Consistent P orig kind dot ⟨path, kind, root, .StartDir, back⟩)
    (hback : back = .StartDir ∨ back = .Body) {n : ℕ}
    (hn : start_len P ⟨path, kind, root, .StartDir, back⟩ = n) :
    Consistent P orig kind dot ⟨path.drop n, kind, root, .Body, back⟩ ∧
      remaining P ⟨path, kind, root, .StartDir, back⟩ raw =
        Components.start P ⟨path, kind, root, .StartDir, back⟩ ++
          remaining P ⟨path.drop n, kind, root, .Body, back⟩ raw := by
  have hne : back ≠ .Prefix ∧ back ≠ .Done := by
    rcases hback with rfl | rfl <;> exact ⟨nofun, nofun⟩
  have hlead : lead P ⟨path.drop n, kind, root, .Body, back⟩ = 0 :=
    lead_of_body (Nat.lt_succ_self 1)
  have hstart : lead P ⟨path, kind, root, .StartDir, back⟩ =
      n + if kind ≠ none ∧ dots P ⟨path, kind, root, .StartDir, back⟩ = true then 1
        else 0 := by
    rw [lead_of_start rfl, hn]
  constructor
  · exact {
      h with
      no_prefixes := fun hP => ⟨(h.no_prefixes hP).1, nofun, hne.1⟩
      part := nofun
      lead_le := fun _ => by
        rw [hlead]
        exact Nat.zero_le _
      at_start := fun hb hor => by
        have hkind := (h.no_prefixes (hor.resolve_left nofun)).1
        have hlen : path.length = lead P ⟨path, kind, root, .StartDir, back⟩ :=
          h.at_start hb (.inl le_rfl)
        rw [hstart, if_neg fun hk => hk.1 hkind] at hlen
        rw [hlead]
        rw [length_drop]
        lia
      at_prefix := fun hb => absurd hb hne.1
      dots_eq := fun _ hr => absurd hr nofun
      front_done := nofun
      back_done := fun _ hb => absurd hb hne.2
      rooted := fun _ => nofun }
  · have hbody : body P ⟨path, kind, root, .StartDir, back⟩ (path.drop
        (lead P ⟨path, kind, root, .StartDir, back⟩)) =
          body P ⟨path, kind, root, .StartDir, back⟩ (path.drop n) := by
      rw [hstart]
      split
      · -- The component `.` behind a drive is part of the body for the front.
        next hdot =>
        obtain ⟨p, rfl⟩ := Option.ne_none_iff_exists'.mp hdot.1
        have hdrive := drive_of_dots h rfl hdot.2
        have hroot : root = false := by
          cases root with
          | false => rfl
          | true =>
            have hdots := hdot.2
            rw [dots_of_root rfl] at hdots
            cases hdots
        have hverbatim : prefix_verbatim P ⟨path, some p, root, .StartDir, back⟩ = false := by
          rw [prefix_verbatim, Option.map_some, Option.getD_some, not_verbatim_of_drive hdrive]
          split <;> rfl
        obtain rfl : 0 = n := by
          rw [← hn]
          simp [start_len, hroot]
        have hdots := hdot.2
        rw [dots, prefix_remaining_of_ne (by simp), Bool.and_eq_true] at hdots
        exact (body_dot hverbatim hdots.2).symm
      · rfl
    rw [remaining, remaining, hlead, hbody]
    simp [State.rank, hback]
    rfl

/-- In the body the path is not bound to what the state was. -/
theorem consistent_body {front front' : State}
    (h : Consistent P orig kind dot ⟨path, kind, root, front, back⟩) (path' : List UInt8)
    (hrank : 1 < front'.rank) (hdone : front' = .Done → path' = []) :
    Consistent P orig kind dot ⟨path', kind, root, front', .Body⟩ :=
  have hne (s : State) (hs : s.rank ≤ 1) (he : front' = s) : False :=
    Nat.not_le_of_lt hrank (he ▸ hs)
  { h with
    no_prefixes := fun hP => ⟨(h.no_prefixes hP).1, hne .Prefix (Nat.zero_le 1), nofun⟩
    part := fun he => (hne .Prefix (Nat.zero_le 1) he).elim
    lead_le := fun _ => (lead_of_body (c := ⟨path', kind, root, front', .Body⟩) hrank).trans_le
      (Nat.zero_le _)
    at_start := nofun
    at_prefix := nofun
    dots_eq := fun _ hr => absurd hrank (Nat.not_lt_of_le hr)
    front_done := hdone
    back_done := fun _ => nofun
    rooted := fun _ he => (hne .StartDir le_rfl he).elim }

variable (raw) in
/-- The body, without its first component. -/
theorem next_body (h : Consistent P orig kind dot ⟨path, kind, root, .Body, .Body⟩) {size : ℕ}
    {comp : Option Component}
    (hbody : body P ⟨path, kind, root, .Body, .Body⟩ path =
      comp.toList ++ body P ⟨path, kind, root, .Body, .Body⟩ (path.drop size)) :
    Consistent P orig kind dot ⟨path.drop size, kind, root, .Body, .Body⟩ ∧
      remaining P ⟨path, kind, root, .Body, .Body⟩ raw = comp.toList ++
        remaining P ⟨path.drop size, kind, root, .Body, .Body⟩ raw := by
  have hlead (path : List UInt8) : lead P ⟨path, kind, root, .Body, .Body⟩ = 0 :=
    lead_of_body (Nat.lt_succ_self 1)
  refine ⟨consistent_body h _ (Nat.lt_succ_self 1) nofun, ?_⟩
  rw [remaining, remaining, hlead, hlead]
  simp only [reduceCtorEq, false_and, if_false, nil_append, ne_eq, not_false_eq_true,
    and_self, if_true, drop_zero, hbody, State.rank, Nat.reduceLeDiff]
  rfl

/-- What a turn of the loop of `next` must establish, and at its end the answer of `next`. -/
def Takes (P : Platform) (orig : List UInt8) (kind : Option Prefix) (dot : Bool)
    (raw : List UInt8) (e : End) (l : List Component) (measure : Components → ℕ) (c : Components) :
    Option (Turn Components (Option Component × Components)) → Prop :=
  TurnSpec (fun c' => Consistent P orig kind dot c' ∧ c'.remaining P raw = l) measure
    (fun r => r.1 = e.peek l ∧ Consistent P orig kind dot r.2 ∧ r.2.remaining P raw = e.rest l) c

theorem not_finished (h : ¬ c.finished = true) :
    c.front ≠ .Done ∧ c.back ≠ .Done ∧ c.front.rank ≤ c.back.rank := by
  rw [finished_iff] at h
  simpa only [not_or, Nat.not_lt] using h

/-- The start, on either side: a component of one byte is cut off, an implicit root is not there,
and without a component the path does not change. -/
theorem start_turn {Q : Option (Turn Components (Option Component × Components)) → Prop}
    (cut : Component → Option (Turn Components (Option Component × Components)))
    {implicit again : Option (Turn Components (Option Component × Components))} {cur : Option Bool}
    (hcur : cur = some (c.dots P))
    (hcut : ∀ x, Components.start P c = [x] → start_len P c = 1 → Q (cut x))
    (himplicit : Components.start P c = [.RootDir] → start_len P c = 0 → Q implicit)
    (hagain : Components.start P c = [] → start_len P c = 0 → Q again) :
    Q (if c.has_physical_root then cut .RootDir
      else match c.kind with
      | some p => if p.has_implicit_root && ! p.is_verbatim then implicit else again
      | none => do if ← cur then cut .CurDir else again) := by
  rw [Components.start, start_len] at hcut himplicit hagain
  cases hroot : c.has_physical_root with
  | true => exact hcut .RootDir (by simp [hroot]) (by simp [hroot])
  | false =>
    cases hkind : c.kind with
    | some p =>
      by_cases hp : (p.has_implicit_root && ! p.is_verbatim) = true
      · simp only [hroot, hkind, hp] at himplicit ⊢
        exact himplicit rfl (by simp)
      · simp only [hroot, hkind, hp] at hagain ⊢
        exact hagain rfl (by simp)
    | none =>
      rw [hcur]
      cases hd : c.dots P with
      | true => exact hcut .CurDir (by simp [hroot, hkind, hd]) (by simp [hroot, hkind, hd])
      | false => exact hagain (by simp [hroot, hkind, hd]) (by simp [hroot, hkind, hd])

variable {l : List Component}

/-- A turn of `next` at the prefix. -/
theorem next_turn_prefix
    (h : Consistent P orig kind dot ⟨path, kind, root, .Prefix, back⟩)
    (hraw : orig.take (kind_len kind) = raw)
    (hfinished : ¬ finished ⟨path, kind, root, .Prefix, back⟩ = true)
    (hl : remaining P ⟨path, kind, root, .Prefix, back⟩ raw = l) :
    Takes P orig kind dot raw .front l (fun c => c.path.length + (3 - c.front.rank))
      ⟨path, kind, root, .Prefix, back⟩
      (next_turn P ⟨path, kind, root, .Prefix, back⟩) := by
  rw [next_turn, if_neg hfinished]
  obtain ⟨-, hback, -⟩ := not_finished hfinished
  obtain ⟨hnext, hremaining⟩ := enter_start raw h hback
  have hle := kind_len_le h hback
  rw [hremaining] at hl
  simp only [check, platform_of_front h, if_true, Option.bind_eq_bind, Option.bind_some,
    h.prefix_len_eq]
  cases kind with
  | none =>
    -- There is no prefix.
    rw [if_pos (by rfl : kind_len none = 0)]
    exact ⟨⟨hnext, hl⟩, Nat.add_lt_add_left (Nat.lt_succ_self 2) _⟩
  | some p =>
    have hne : kind_len (some p) ≠ 0 := (h.pos p rfl).ne'
    have htake : path.take (kind_len (some p)) = raw := by
      obtain ⟨rest, rfl⟩ : path <+: orig := h.part rfl
      rw [← hraw, take_append_of_le_length hle]
    rw [if_neg hne, if_pos hle, slice_to_eq hle, htake]
    simp only [Option.bind_some, Components.drop, slice_from_eq hle, Option.bind_eq_bind]
    subst hl
    exact ⟨rfl, hnext, rfl⟩

/-- A turn of `next` before the body. -/
theorem next_turn_start
    (h : Consistent P orig kind dot ⟨path, kind, root, .StartDir, back⟩)
    (hfinished : ¬ finished ⟨path, kind, root, .StartDir, back⟩ = true)
    (hl : remaining P ⟨path, kind, root, .StartDir, back⟩ raw = l) :
    Takes P orig kind dot raw .front l (fun c => c.path.length + (3 - c.front.rank))
      ⟨path, kind, root, .StartDir, back⟩
      (next_turn P ⟨path, kind, root, .StartDir, back⟩) := by
  rw [next_turn, if_neg hfinished]
  obtain ⟨-, hback, hrank⟩ : _ ∧ _ ∧ 1 ≤ back.rank := not_finished hfinished
  have hplatform := h.kind_of_platform
  have hback' : back = .StartDir ∨ back = .Body := by
    cases back with
    | Prefix => exact absurd hrank (by decide)
    | StartDir => exact .inl rfl
    | Body => exact .inr rfl
    | Done => exact absurd rfl hback
  have hle : start_len P ⟨path, kind, root, .StartDir, back⟩ ≤ path.length := by
    have hlead := h.lead_le hback'
    rw [lead_of_start rfl] at hlead
    exact (Nat.le_add_right _ _).trans hlead
  have hcur : include_cur_dir P ⟨path, kind, root, .Body, back⟩ =
      some (dots P ⟨path, kind, root, .StartDir, back⟩) := by
    have hpr : prefix_remaining P ⟨path, kind, root, .Body, back⟩ = 0 :=
      prefix_remaining_of_ne (by simp)
    have hpr' : prefix_remaining P ⟨path, kind, root, .StartDir, back⟩ = 0 :=
      prefix_remaining_of_ne (by simp)
    rw [include_cur_dir_eq (by rw [hpr]; exact Nat.zero_le _), dots, dots,
      hpr, hpr']
    rfl
  obtain ⟨hnext, hremaining⟩ := enter_body raw h hback' rfl
  rw [hremaining] at hl
  simp only [hplatform]
  refine start_turn (c := ⟨path, kind, root, .StartDir, back⟩) (fun x => do
    check (! path.isEmpty)
    return .done (some x, ← Components.drop ⟨path, kind, root, .Body, back⟩ 1)) hcur
    (fun x hstart hlen => ?_) (fun hstart hlen => ?_) fun hstart hlen => ?_
  · rw [hlen] at hle hnext hl
    rw [hstart] at hl
    have hempty : path.isEmpty = false := isEmpty_eq_false_iff.mpr (ne_nil_of_length_pos hle)
    simp only [check, hempty, Bool.not_false, if_true, Option.bind_eq_bind, Option.bind_some,
      Components.drop, slice_from_eq hle]
    subst hl
    exact ⟨rfl, hnext, rfl⟩
  · rw [hlen, drop_zero] at hnext hl
    rw [hstart] at hl
    subst hl
    exact ⟨rfl, hnext, rfl⟩
  · rw [hlen, drop_zero] at hnext hl
    rw [hstart] at hl
    exact ⟨⟨hnext, hl⟩, Nat.add_lt_add_left (Nat.lt_succ_self 1) _⟩

/-- A turn of `next` in the body. -/
theorem next_turn_body
    (h : Consistent P orig kind dot ⟨path, kind, root, .Body, back⟩)
    (hfinished : ¬ finished ⟨path, kind, root, .Body, back⟩ = true)
    (hl : remaining P ⟨path, kind, root, .Body, back⟩ raw = l) :
    Takes P orig kind dot raw .front l (fun c => c.path.length + (3 - c.front.rank))
      ⟨path, kind, root, .Body, back⟩
      (next_turn P ⟨path, kind, root, .Body, back⟩) := by
  rw [next_turn, if_neg hfinished]
  obtain ⟨-, hback, hrank⟩ : _ ∧ _ ∧ 2 ≤ back.rank := not_finished hfinished
  obtain rfl : back = .Body := by
    cases back with
    | Prefix | StartDir => exact absurd hrank (by decide)
    | Body => rfl
    | Done => exact absurd rfl hback
  cases path with
  | nil =>
    refine ⟨⟨consistent_body h [] (show 1 < 3 by decide) fun _ => rfl, ?_⟩,
      Nat.add_lt_add_left (Nat.lt_succ_self 0) _⟩
    rw [← hl]
    simp [remaining, State.rank]
  | cons b bytes =>
    obtain ⟨size, comp, hparse, hsize, hpos, hbody⟩ := parse_next_component_spec
      (P := P) (c := ⟨b :: bytes, kind, root, .Body, .Body⟩) rfl
    obtain ⟨hnext, hremaining⟩ := next_body raw h hbody
    rw [hremaining] at hl
    simp only [isEmpty_cons, Bool.not_false, if_true, Option.bind_eq_bind, hparse,
      Option.bind_some, Components.drop, slice_from_eq hsize]
    cases comp with
    | some x =>
      subst hl
      exact ⟨rfl, hnext, rfl⟩
    | none =>
      refine ⟨⟨hnext, hl⟩, ?_⟩
      have := hpos (by simp)
      dsimp only at hsize ⊢
      rw [length_drop]
      lia

/-- **A turn of `next`.** -/
theorem next_turn_spec
    (h : Consistent P orig kind dot c) (hraw : orig.take (kind_len kind) = raw)
    (hl : c.remaining P raw = l) :
    Takes P orig kind dot raw .front l (fun c => c.path.length + (3 - c.front.rank)) c
      (next_turn P c) := by
  by_cases hfinished : c.finished = true
  · rw [remaining_of_finished hfinished] at hl
    subst hl
    rw [next_turn, if_pos hfinished]
    exact ⟨rfl, h, remaining_of_finished hfinished⟩
  obtain ⟨path, kind', root, front, back⟩ := c
  obtain rfl : kind' = kind := h.kind_eq
  cases front with
  | Prefix => exact next_turn_prefix h hraw hfinished hl
  | StartDir => exact next_turn_start h hfinished hl
  | Body => exact next_turn_body h hfinished hl
  | Done => exact absurd (finished_iff.mpr (.inl rfl)) hfinished

/-- **`next`** takes the first component that is left. -/
theorem next_spec (h : Consistent P orig kind dot c)
    (hraw : orig.take (kind_len kind) = raw) (hl : c.remaining P raw = l) :
    ∃ c', c.next P = some (l.head?, c') ∧ Consistent P orig kind dot c' ∧
      c'.remaining P raw = l.tail := by
  obtain ⟨⟨o, c'⟩, hrun, ho, hc'⟩ := runLoop_spec (next_turn P) _ _ _
    (fun c hc => next_turn_spec hc.1 hraw hc.2) (c.path.length + 4) c ⟨h, hl⟩ (by lia)
  obtain rfl : o = l.head? := ho
  exact ⟨c', hrun, hc'⟩

end Front

/-! ## The back -/

section Back

variable {path orig raw : List UInt8} {kind : Option Prefix} {root dot : Bool} {front : State}

variable {c : Components}

/-- Where the path starts, before its body. -/
theorem lead_eq (hrank : c.front.rank ≤ 1) :
    c.lead P = c.prefix_remaining P + start_len P c +
      if c.kind ≠ none ∧ c.dots P = true then 1 else 0 := by
  rw [lead, start_len]
  cases hroot : c.has_physical_root with
  | true => simp [hrank, dots_of_root hroot]
  | false => by_cases hkind : c.kind = none <;> simp [hrank, hkind]

/-- A cut of the body does not touch the component at its start. -/
theorem dots_take {back : State} {n : ℕ} (hrank : front.rank ≤ 1)
    (hcut : CutAt (is_sep_byte P ⟨path, kind, root, front, back⟩) path
      (lead P ⟨path, kind, root, front, back⟩) n) :
    dots P ⟨path.take n, kind, root, front, back⟩ = dots P ⟨path, kind, root, front, back⟩ := by
  have hhas : has_root P ⟨path.take n, kind, root, front, back⟩ =
      has_root P ⟨path, kind, root, front, back⟩ := rfl
  cases hroot : has_root P ⟨path, kind, root, front, back⟩ with
  | true => rw [dots, dots, hhas, hroot]; rfl
  | false =>
    obtain rfl : root = false := by
      rw [has_root, Bool.or_eq_false_iff] at hroot
      exact hroot.1
    have hdots : dots P ⟨path, kind, false, front, back⟩ = dot_start
        (is_sep_byte P ⟨path, kind, false, front, back⟩)
        (path.drop (prefix_remaining P ⟨path, kind, false, front, back⟩)) := by
      rw [dots, hroot]
      rfl
    have hlead : lead P ⟨path, kind, false, front, back⟩ =
        prefix_remaining P ⟨path, kind, false, front, back⟩ +
          if dots P ⟨path, kind, false, front, back⟩ = true then 1 else 0 := by
      simp [lead, hrank]
    have hdots' : dots P ⟨path.take n, kind, false, front, back⟩ = dot_start
        (is_sep_byte P ⟨path, kind, false, front, back⟩)
        ((path.drop (prefix_remaining P ⟨path, kind, false, front, back⟩)).take
          (n - prefix_remaining P ⟨path, kind, false, front, back⟩)) := by
      rw [dots, hhas, hroot, ← drop_take]
      rfl
    rw [hlead] at hcut
    rw [hdots', hdots]
    rw [hdots] at hcut
    refine dot_start_take (fun hdot => ?_) fun hdot => ?_
    · rw [if_pos hdot] at hcut
      rcases hcut with rfl | ⟨hle, -⟩ <;> lia
    · rw [hdot, if_neg Bool.false_ne_true, Nat.add_zero] at hcut
      rcases hcut with rfl | ⟨hle, b, hb, hsep⟩
      · exact .inl (Nat.sub_self _)
      · refine .inr ⟨b, ?_, hsep⟩
        rw [getElem?_drop, Nat.add_sub_cancel' hle]
        exact hb

variable (h : Consistent P orig kind dot ⟨path, kind, root, front, .Body⟩)
include h

variable (raw) in
/-- The body, without its last component. -/
theorem next_back_body
    (hfront : front ≠ .Done) {n : ℕ} (hn : n < path.length) {comp : Option Component}
    (hcut : CutAt (is_sep_byte P ⟨path, kind, root, front, .Body⟩) path
      (lead P ⟨path, kind, root, front, .Body⟩) n)
    (hbody : body P ⟨path, kind, root, front, .Body⟩
        (path.drop (lead P ⟨path, kind, root, front, .Body⟩)) =
      body P ⟨path, kind, root, front, .Body⟩
        ((path.take n).drop (lead P ⟨path, kind, root, front, .Body⟩)) ++ comp.toList) :
    Consistent P orig kind dot ⟨path.take n, kind, root, front, .Body⟩ ∧
      remaining P ⟨path, kind, root, front, .Body⟩ raw =
        remaining P ⟨path.take n, kind, root, front, .Body⟩ raw ++ comp.toList := by
  have hle : lead P ⟨path, kind, root, front, .Body⟩ ≤ n := by
    rcases hcut with rfl | ⟨hle, -⟩
    · exact le_rfl
    · exact hle
  have hdots (hrank : front.rank ≤ 1) := dots_take hrank hcut
  have hlead : lead P ⟨path.take n, kind, root, front, .Body⟩ =
      lead P ⟨path, kind, root, front, .Body⟩ := by
    by_cases hrank : front.rank ≤ 1
    · rw [lead, lead, hdots hrank]
      rfl
    · rw [lead_of_body (Nat.lt_of_not_le hrank), lead_of_body (Nat.lt_of_not_le hrank)]
  constructor
  · exact {
      h with
      part := fun hf => (List.take_prefix n path).trans (h.part hf)
      lead_le := fun _ => by
        rw [hlead]
        rw [length_take, Nat.min_eq_left hn.le]
        exact hle
      at_start := nofun
      at_prefix := nofun
      dots_eq := fun hk hr hb => (hdots hr).trans (h.dots_eq hk hr hb)
      front_done := fun hf => absurd hf hfront
      back_done := fun _ => nofun
      rooted := fun hP hf _ => by
        have hroot : root = (path.head?.map P.is_sep_byte).getD false :=
          h.rooted hP hf (.inr rfl)
        rw [head?_take]
        split
        · next hzero =>
          subst hzero
          cases root with
          | false => rfl
          | true =>
            have hf' : front = .StartDir := hf
            subst hf'
            simp [lead, State.rank] at hle
        · exact hroot }
  · rw [remaining, remaining, hlead, hbody]
    have hstart : front.rank ≤ 1 → Components.start P ⟨path.take n, kind, root, front, .Body⟩ =
        Components.start P ⟨path, kind, root, front, .Body⟩ := by
      intro hrank
      rw [Components.start, Components.start, hdots hrank]
    by_cases hrank : front.rank ≤ 1
    · simp [hstart hrank, hfront]
      rfl
    · simp [hrank, hfront]
      rfl

variable (raw) in
/-- At the end of the body. -/
theorem leave_body
    (hfront : front ≠ .Done)
    (hle : path.length ≤ lead P ⟨path, kind, root, front, .Body⟩) :
    Consistent P orig kind dot ⟨path, kind, root, front, .StartDir⟩ ∧
      remaining P ⟨path, kind, root, front, .Body⟩ raw =
        remaining P ⟨path, kind, root, front, .StartDir⟩ raw := by
  constructor
  · exact {
      h with
      no_prefixes := fun hP => ⟨(h.no_prefixes hP).1, (h.no_prefixes hP).2.1, nofun⟩
      lead_le := fun _ => h.lead_le (.inr rfl)
      at_start := fun _ _ => le_antisymm hle (h.lead_le (.inr rfl))
      at_prefix := nofun
      dots_eq := fun hk hr _ => h.dots_eq hk hr (.inr rfl)
      front_done := fun hf => absurd hf hfront
      back_done := fun _ => nofun
      rooted := fun hP hf _ => h.rooted hP hf (.inr rfl) }
  · rw [remaining, remaining, drop_eq_nil_of_le hle]
    simp
    rfl

omit h

variable (raw) in
/-- Before the start. -/
theorem leave_start (h : Consistent P orig kind dot ⟨path, kind, root, front, .StartDir⟩)
    (hrank : front.rank ≤ 1) {n : ℕ}
    (hn : path.length - start_len P ⟨path, kind, root, front, .StartDir⟩ = n) :
    Consistent P orig kind dot
        ⟨path.take n, kind, root, front, if P.HAS_PREFIXES then .Prefix else .Done⟩ ∧
      remaining P ⟨path, kind, root, front, .StartDir⟩ raw = remaining P
            ⟨path.take n, kind, root, front, if P.HAS_PREFIXES then .Prefix else .Done⟩ raw ++
          Components.start P ⟨path, kind, root, front, .StartDir⟩ := by
  have hlen : path.length = lead P ⟨path, kind, root, front, .StartDir⟩ :=
    h.at_start rfl (.inl hrank)
  rw [lead_eq hrank] at hlen
  have hback : (if P.HAS_PREFIXES then State.Prefix else .Done) ≠ .StartDir ∧
      (if P.HAS_PREFIXES then State.Prefix else .Done) ≠ .Body := by
    split <;> exact ⟨nofun, nofun⟩
  have htake : (path.take n).length = n := by
    rw [length_take]
    lia
  constructor
  · exact {
      h with
      no_prefixes := fun hP => ⟨(h.no_prefixes hP).1, (h.no_prefixes hP).2.1, by simp [hP]⟩
      part := fun hf => (List.take_prefix n path).trans (h.part hf)
      lead_le := fun hb => absurd hb (not_or.mpr hback)
      at_start := fun hb => absurd hb hback.1
      at_prefix := fun _ hf => by
        have hpr : prefix_remaining P ⟨path, kind, root, front, .StartDir⟩ =
            kind_len kind := (prefix_remaining_of_front hf).trans h.prefix_len_eq
        rw [hpr] at hlen
        rw [htake]
        by_cases hk : kind = none
        · rw [if_neg fun hkd => hkd.1 hk] at hlen
          rw [h.dot_kind hk, Bool.toNat_false]
          lia
        · have hdots : dots P ⟨path, kind, root, front, .StartDir⟩ = dot :=
            h.dots_eq hk hrank (.inl rfl)
          rw [hdots] at hlen
          cases dot with
          | false => simp at hlen ⊢; lia
          | true => simp [hk] at hlen ⊢; lia
      dots_eq := fun _ _ hb => absurd hb (not_or.mpr hback)
      front_done := fun hf => by
        have hf' : front = .Done := hf
        rw [hf'] at hrank
        exact absurd hrank (by decide)
      back_done := fun hP _ => by
        have hpr : prefix_remaining P ⟨path, kind, root, front, .StartDir⟩ = 0 :=
          prefix_remaining_of_ne (h.no_prefixes hP).2.1
        rw [hpr, if_neg fun hkd => hkd.1 (h.no_prefixes hP).1] at hlen
        exact eq_nil_of_length_eq_zero (by rw [htake]; lia)
      rooted := fun _ _ hb => absurd hb (not_or.mpr hback) }
  · rw [remaining, remaining]
    simp only [hback, hrank, or_self, and_false, if_false, append_nil, and_self, if_true,
      reduceCtorEq, or_false, and_true, ne_eq, not_false_eq_true]
    congr 1
    by_cases hf : front = .Prefix
    · subst hf
      simp [platform_of_front h]
    · simp [hf]

/-- The rank of the back for the number of turns. -/
def back_rank : State → ℕ
  | .Body => 3
  | .StartDir => 2
  | .Prefix => 1
  | .Done => 0

variable {l : List Component}

/-- A turn of `next_back` in the body. -/
theorem next_back_turn_body
    (h : Consistent P orig kind dot ⟨path, kind, root, front, .Body⟩)
    (hfinished : ¬ finished ⟨path, kind, root, front, .Body⟩ = true)
    (hl : remaining P ⟨path, kind, root, front, .Body⟩ raw = l) :
    Takes P orig kind dot raw .back l (fun c => c.path.length + back_rank c.back)
      ⟨path, kind, root, front, .Body⟩
      (next_back_turn P ⟨path, kind, root, front, .Body⟩) := by
  rw [next_back_turn, if_neg hfinished]
  obtain ⟨hfront, -, -⟩ := not_finished hfinished
  have hlead := h.lead_le (.inr rfl)
  have hlen := len_before_body_eq (prefix_remaining_le_lead.trans hlead)
  simp only [hlen, Option.bind_eq_bind, Option.bind_some]
  by_cases hlt : lead P ⟨path, kind, root, front, .Body⟩ < path.length
  · obtain ⟨n, comp, hparse, hn, hcut, hbody⟩ := parse_next_component_back_spec rfl hlen hlt
    obtain ⟨hnext, hremaining⟩ := next_back_body raw h hfront hn hcut hbody
    have hsub : path.length - (path.length - n) = n := Nat.sub_sub_self hn.le
    rw [hremaining] at hl
    simp only [gt_iff_lt, hlt, if_true, hparse, Option.bind_some, drop_back, check,
      Nat.sub_le, Option.bind_eq_bind, hsub, slice_to_eq hn.le]
    cases comp with
    | some x =>
      subst hl
      exact ⟨getLast?_concat.symm, hnext, dropLast_concat.symm⟩
    | none =>
      refine ⟨⟨hnext, by rw [← hl]; exact (append_nil _).symm⟩, ?_⟩
      dsimp only
      rw [length_take, Nat.min_eq_left hn.le]
      exact Nat.add_lt_add_right hn _
  · obtain ⟨hnext, hremaining⟩ := leave_body raw h hfront (Nat.le_of_not_lt hlt)
    rw [hremaining] at hl
    rw [if_neg hlt]
    exact ⟨⟨hnext, hl⟩, Nat.lt_succ_self _⟩

/-- A turn of `next_back` before the body. -/
theorem next_back_turn_start
    (h : Consistent P orig kind dot ⟨path, kind, root, front, .StartDir⟩)
    (hfinished : ¬ finished ⟨path, kind, root, front, .StartDir⟩ = true)
    (hl : remaining P ⟨path, kind, root, front, .StartDir⟩ raw = l) :
    Takes P orig kind dot raw .back l (fun c => c.path.length + back_rank c.back)
      ⟨path, kind, root, front, .StartDir⟩
      (next_back_turn P ⟨path, kind, root, front, .StartDir⟩) := by
  rw [next_back_turn, if_neg hfinished]
  obtain ⟨-, -, hrank⟩ := not_finished hfinished
  have hplatform := h.kind_of_platform
  have hback : back_rank (if P.HAS_PREFIXES then State.Prefix else .Done) < 2 := by
    split <;> decide
  have hlead : path.length = lead P ⟨path, kind, root, front, .StartDir⟩ :=
    h.at_start rfl (.inl hrank)
  have hcur : include_cur_dir P
        ⟨path, kind, root, front, if P.HAS_PREFIXES then .Prefix else .Done⟩ =
      some (dots P ⟨path, kind, root, front, .StartDir⟩) :=
    include_cur_dir_eq (prefix_remaining_le_lead.trans hlead.ge)
  have hle : start_len P ⟨path, kind, root, front, .StartDir⟩ ≤ path.length := by
    rw [hlead, lead_eq hrank]
    lia
  obtain ⟨hnext, hremaining⟩ := leave_start raw h hrank rfl
  rw [hremaining] at hl
  simp only [hplatform]
  refine start_turn (c := ⟨path, kind, root, front, .StartDir⟩) (fun x => do
    return .done (some x,
      ← drop_back ⟨path, kind, root, front, if P.HAS_PREFIXES then .Prefix else .Done⟩ 1)) hcur
    (fun x hstart hlen => ?_) (fun hstart hlen => ?_) fun hstart hlen => ?_
  · rw [hlen] at hle hnext hl
    rw [hstart] at hl
    simp only [drop_back, check, hle, if_true, slice_to_eq (Nat.sub_le _ _), Option.bind_eq_bind,
      Option.bind_some]
    subst hl
    exact ⟨getLast?_concat.symm, hnext, dropLast_concat.symm⟩
  · rw [hlen, Nat.sub_zero, take_length] at hnext hl
    rw [hstart] at hl
    subst hl
    exact ⟨getLast?_concat.symm, hnext, dropLast_concat.symm⟩
  · rw [hlen, Nat.sub_zero, take_length] at hnext hl
    rw [hstart, append_nil] at hl
    exact ⟨⟨hnext, hl⟩, Nat.add_lt_add_left hback _⟩

/-- A turn of `next_back` at the prefix. -/
theorem next_back_turn_prefix
    (h : Consistent P orig kind dot ⟨path, kind, root, front, .Prefix⟩)
    (hraw : orig.take (kind_len kind + dot.toNat) = raw)
    (hfinished : ¬ finished ⟨path, kind, root, front, .Prefix⟩ = true)
    (hl : remaining P ⟨path, kind, root, front, .Prefix⟩ raw = l) :
    Takes P orig kind dot raw .back l (fun c => c.path.length + back_rank c.back)
      ⟨path, kind, root, front, .Prefix⟩
      (next_back_turn P ⟨path, kind, root, front, .Prefix⟩) := by
  rw [next_back_turn, if_neg hfinished]
  obtain ⟨-, -, hrank⟩ : _ ∧ _ ∧ front.rank ≤ 0 := not_finished hfinished
  obtain rfl : front = .Prefix := by
    cases front with
    | Prefix => rfl
    | _ => exact absurd hrank (by decide)
  have hP := platform_of_front h
  have hnext : Consistent P orig kind dot ⟨path, kind, root, .Prefix, .Done⟩ := { h with
    no_prefixes := fun hP' => absurd (hP.symm.trans hP') nofun
    lead_le := fun hb => absurd hb (by simp)
    at_start := nofun
    at_prefix := nofun
    dots_eq := fun _ _ hb => absurd hb (by simp)
    back_done := fun hP' => absurd (hP.symm.trans hP') nofun
    rooted := fun _ => nofun }
  have hlen : prefix_len P ⟨path, kind, root, .Prefix, .Done⟩ = kind_len kind :=
    h.prefix_len_eq
  have hdone : remaining P ⟨path, kind, root, .Prefix, .Done⟩ raw = [] :=
    remaining_of_finished rfl
  have hremaining : remaining P ⟨path, kind, root, .Prefix, .Prefix⟩ raw =
      (kind.map (Component.Prefix raw)).toList := by
    simp [remaining]
  rw [hremaining] at hl
  subst hl
  simp only [check, hP, if_true, Option.bind_eq_bind, Option.bind_some, hlen]
  cases kind with
  | none => exact ⟨rfl, hnext, hdone⟩
  | some p =>
    have hpath : path = raw := by
      obtain ⟨rest, rfl⟩ : path <+: orig := h.part rfl
      have hlength : path.length = kind_len (some p) + dot.toNat := h.at_prefix rfl rfl
      rw [← hraw, ← hlength, take_left]
    rw [if_pos (show kind_len (some p) > 0 from h.pos p rfl)]
    subst hpath
    exact ⟨rfl, hnext, hdone⟩

/-- **A turn of `next_back`.** -/
theorem next_back_turn_spec
    (h : Consistent P orig kind dot c) (hraw : orig.take (kind_len kind + dot.toNat) = raw)
    (hl : c.remaining P raw = l) :
    Takes P orig kind dot raw .back l (fun c => c.path.length + back_rank c.back) c
      (next_back_turn P c) := by
  by_cases hfinished : c.finished = true
  · rw [remaining_of_finished hfinished] at hl
    subst hl
    rw [next_back_turn, if_pos hfinished]
    exact ⟨rfl, h, remaining_of_finished hfinished⟩
  obtain ⟨path, kind', root, front, back⟩ := c
  obtain rfl : kind' = kind := h.kind_eq
  cases back with
  | Prefix => exact next_back_turn_prefix h hraw hfinished hl
  | StartDir => exact next_back_turn_start h hfinished hl
  | Body => exact next_back_turn_body h hfinished hl
  | Done => exact absurd (finished_iff.mpr (.inr (.inl rfl))) hfinished

/-- **`next_back`** takes the last component that is left. -/
theorem next_back_spec (h : Consistent P orig kind dot c)
    (hraw : orig.take (kind_len kind + dot.toNat) = raw) (hl : c.remaining P raw = l) :
    ∃ c', c.next_back P = some (l.getLast?, c') ∧ Consistent P orig kind dot c' ∧
      c'.remaining P raw = l.dropLast := by
  have hrank : back_rank c.back < 4 := by
    cases c.back <;> decide
  obtain ⟨⟨o, c'⟩, hrun, ho, hc'⟩ := runLoop_spec (next_back_turn P) _ _ _
    (fun c hc => next_back_turn_spec hc.1 hraw hc.2) (c.path.length + 4) c ⟨h, hl⟩
    (Nat.add_lt_add_left hrank _)
  obtain rfl : o = l.getLast? := ho
  exact ⟨c', hrun, hc'⟩

end Back

end RustStd.Path
