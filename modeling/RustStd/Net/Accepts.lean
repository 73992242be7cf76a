import RustStd.Net.Grammar
import RustStd.Net.ReadNumber

/-!
# What the address parsers accept

Every reader of `Net.Parser` `Reads` the texts of its address, when what follows cannot continue
one. The loop of `read_groups` is the step from one address to the next: at each index it tries an
embedded IPv4 address first, which no hexadecimal group can begin (`not_ipv4_isPrefix`).
-/

namespace RustStd.Net

open RustStd.Num List Nat Option Exec

variable {α : Type}

/-! ## Characters and separators -/

variable {Text : List UInt8 → α → Prop} {Stop : List UInt8 → Prop}

theorem reads_atomically {inner : Reader α}
    (h : inner.Reads Text Stop) :
    (read_atomically inner).Reads Text Stop where
  returns := by
    intro s
    obtain ⟨⟨r, s'⟩, hr⟩ := h.returns s
    cases r with
    | none => exact ⟨_, read_atomically_none hr⟩
    | some a => exact ⟨_, read_atomically_some hr⟩
  sound := by
    intro s a s' hread
    obtain ⟨⟨r, s1⟩, hr⟩ := h.returns s
    cases r with
    | none =>
      rw [read_atomically_none hr] at hread
      cases hread
    | some b =>
      rw [read_atomically_some hr] at hread
      cases hread
      exact h.sound s a s' hr
  accepts := fun t a s' ht hs => read_atomically_some (h.accepts t a s' ht hs)

theorem read_given_char_reads (c : UInt8) :
    (read_given_char c).Reads (fun t _ => t = [c]) fun _ => True := by
  have hrun (s : List UInt8) : (read_char >>= fun b => if b = c then pure () else .fail) s =
      (if s.head? = some c then .ok (some (), s.tail) else .ok (none, s.tail) : Exec _) := by
    cases s with
    | nil => rfl
    | cons b s =>
      by_cases hb : b = c
      · rw [if_pos (by rw [hb]; rfl)]
        exact (Parser.bind_some rfl).trans (congrFun (if_pos hb) s)
      · rw [if_neg (by simpa using hb)]
        exact (Parser.bind_some rfl).trans (congrFun (if_neg hb) s)
  refine reads_atomically ⟨fun s => ?_, fun s a s' h => ?_, ?_⟩
  · rw [hrun]
    split <;> exact ⟨_, rfl⟩
  · rw [hrun] at h
    split at h
    · next hs =>
      cases h
      cases s with
      | nil => cases hs
      | cons b s =>
        rw [head?_cons, some.injEq] at hs
        exact ⟨[c], by rw [hs]; rfl, rfl⟩
    · cases h
  · rintro t a s' rfl -
    rw [hrun]
    exact if_pos rfl

/-- The separator before the item at an index. -/
def separator (sep : UInt8) (index : ℕ) : List UInt8 := if index > 0 then [sep] else []

theorem read_separator_reads (sep : UInt8) (index : ℕ) {inner : Reader α}
    (h : inner.Reads Text Stop) :
    (read_separator sep index inner).Reads
      (fun t a => ∃ u, t = separator sep index ++ u ∧ Text u a) Stop := by
  have hsep : (if index > 0 then read_given_char sep else pure () : Reader Unit).Reads
      (fun t _ => t = separator sep index) fun _ => True := by
    by_cases hi : index > 0
    · rw [if_pos hi, separator, if_pos hi]
      exact read_given_char_reads sep
    · rw [if_neg hi, separator, if_neg hi]
      exact (Parser.reads_pure ()).congr fun t a => ⟨fun h => h.1, fun h => ⟨h, rfl⟩⟩
  refine reads_atomically ((hsep.bind (fun _ _ _ => h) fun _ _ _ _ _ _ _ _ => trivial).congr ?_)
  intro t a
  constructor
  · rintro ⟨t1, -, u, rfl, rfl, hu⟩
    exact ⟨u, rfl, hu⟩
  · rintro ⟨u, rfl, hu⟩
    exact ⟨_, (), u, rfl, rfl, hu⟩

/-! ## Numbers -/

variable {n : ℕ}

theorem toNat_eq_iff_uInt8 {b : UInt8} (h : n ≤ 255) : b = n.toUInt8 ↔ n = b.toNat := by
  constructor
  · rintro rfl
    exact (UInt8.toNat_ofNat_of_lt' (by rw [UInt8.size]; omega)).symm
  · rintro rfl
    exact (UInt8.ofNat_toNat).symm

theorem toNat_eq_iff_uInt16 {b : UInt16} (h : n ≤ 65535) :
    b = n.toUInt16 ↔ n = b.toNat := by
  constructor
  · rintro rfl
    exact (UInt16.toNat_ofNat_of_lt' (by rw [UInt16.size]; omega)).symm
  · rintro rfl
    exact (UInt16.ofNat_toNat).symm

theorem toNat_eq_iff_uInt32 {b : UInt32} (h : n ≤ 4294967295) :
    b = n.toUInt32 ↔ n = b.toNat := by
  constructor
  · rintro rfl
    exact (UInt32.toNat_ofNat_of_lt' (by rw [UInt32.size]; omega)).symm
  · rintro rfl
    exact (UInt32.ofNat_toNat).symm

theorem read_octet_reads (i : ℕ) :
    (read_octet i).Reads (fun t n => ∃ u, t = separator 46 i ++ u ∧ Octet u n) (NoDigit 10) := by
  have hcall : NumberCall 255 10 (some 3) :=
    ⟨by decide, by decide, by decide, by rintro k ⟨⟩; decide⟩
  apply read_separator_reads
  refine ((read_number_reads 10 false hcall).map toUInt8).congr fun t b => ?_
  constructor
  · rintro ⟨n, h, hb⟩
    rw [toNat_eq_iff_uInt8 h.le_max] at hb
    exact ⟨h.ne_nil, hb ▸ h.number, h.no_zero rfl⟩
  · intro h
    have hlt := b.toNat_lt
    refine ⟨b.toNat, ⟨h.1, h.2.1, by omega, ?_, fun _ => h.2.2⟩, ?_⟩
    · rintro k ⟨⟩
      exact h.length_le
    · exact (toNat_eq_iff_uInt8 (by omega)).mpr rfl

theorem read_group_reads (i : ℕ) :
    (read_group i).Reads (fun t g => ∃ u, t = separator 58 i ++ u ∧ Hextet u g)
      (NoDigit 16) := by
  have hcall : NumberCall 65535 16 (some 4) :=
    ⟨by decide, by decide, by decide, by rintro k ⟨⟩; decide⟩
  apply read_separator_reads
  refine ((read_number_reads 16 true hcall).map toUInt16).congr fun t b => ?_
  constructor
  · rintro ⟨n, h, hb⟩
    rw [toNat_eq_iff_uInt16 h.le_max] at hb
    exact ⟨h.ne_nil, h.length_le 4 rfl, hb ▸ h.number⟩
  · intro h
    have hlt := b.toNat_lt
    refine ⟨b.toNat, ⟨h.1, h.2.2, by omega, ?_, fun ha => by cases ha⟩, ?_⟩
    · rintro k ⟨⟩
      exact h.2.1
    · exact (toNat_eq_iff_uInt16 (by omega)).mpr rfl

theorem read_port_reads : read_port.Reads Port (NoDigit 10) := by
  have hcall : NumberCall 65535 10 none :=
    ⟨by decide, by decide, by decide, by rintro k ⟨⟩⟩
  refine reads_atomically (((read_given_char_reads 58).bind (fun _ _ _ =>
    (read_number_reads 10 true hcall).map toUInt16)
      fun _ _ _ _ _ _ _ _ => trivial).congr fun t b => ?_)
  constructor
  · rintro ⟨t1, -, ds, rfl, rfl, n, h, hb⟩
    rw [toNat_eq_iff_uInt16 h.le_max] at hb
    exact ⟨ds, rfl, h.ne_nil, hb ▸ h.number⟩
  · rintro ⟨ds, rfl, hne, hn⟩
    have hlt := b.toNat_lt
    refine ⟨[58], (), ds, rfl, rfl, b.toNat, ⟨hne, hn, by omega, ?_, fun ha => by cases ha⟩, ?_⟩
    · rintro k ⟨⟩
    · exact (toNat_eq_iff_uInt16 (by omega)).mpr rfl

/-- The scope is followed by a bracket. -/
theorem read_scope_id_reads :
    (Parser.or_else read_scope_id (pure 0)).Reads Scope fun s => s.head? = some 93 := by
  have hcall : NumberCall 4294967295 10 none :=
    ⟨by decide, by decide, by decide, by rintro k ⟨⟩⟩
  have hscope : read_scope_id.Reads
      (fun t b => ∃ ds, t = 37 :: ds ∧ ds ≠ [] ∧ number 10 ds = some b.toNat) (NoDigit 10) := by
    refine reads_atomically (((read_given_char_reads 37).bind (fun _ _ _ =>
      (read_number_reads 10 true hcall).map toUInt32)
        fun _ _ _ _ _ _ _ _ => trivial).congr fun t b => ?_)
    constructor
    · rintro ⟨t1, -, ds, rfl, rfl, n, h, hb⟩
      rw [toNat_eq_iff_uInt32 h.le_max] at hb
      exact ⟨ds, rfl, h.ne_nil, hb ▸ h.number⟩
    · rintro ⟨ds, rfl, hne, hn⟩
      have hlt := b.toNat_lt
      refine ⟨[37], (), ds, rfl, rfl, b.toNat, ⟨hne, hn, by omega, ?_, fun ha => by cases ha⟩, ?_⟩
      · rintro k ⟨⟩
      · exact (toNat_eq_iff_uInt32 (by omega)).mpr rfl
  have hstop {s : List UInt8} (hs : s.head? = some 93) : NoDigit 10 s := by
    intro c hc
    rw [hs, some.injEq] at hc
    rw [← hc]
    rfl
  refine (hscope.mono_stop fun s => hstop).or_else (restores_read_atomically _)
    ((Parser.reads_pure 0).mono_stop fun _ _ => trivial) ?_
  rintro t a s ⟨rfl, -⟩ hs u b ⟨ds, rfl, -, -⟩ hprefix
  rw [nil_append] at hprefix
  obtain ⟨r, rfl⟩ := hprefix
  cases hs

/-! ## IPv4 addresses -/

theorem read_ipv4_addr_reads : read_ipv4_addr.Reads Ipv4Text (NoDigit 10) := by
  have hdot (t s : List UInt8) (h : t.head? = some 46) : NoDigit 10 (t ++ s) := by
    intro c hc
    cases t with
    | nil => cases h
    | cons d t =>
      cases h
      cases hc
      rfl
  refine reads_atomically (((read_octet_reads 0).bind (fun _ one _ =>
    (read_octet_reads 1).bind (fun _ two _ =>
      (read_octet_reads 2).bind (fun _ three _ =>
        (read_octet_reads 3).map (Ipv4Addr.mk one two three)) ?_) ?_) ?_).congr ?_)
  · rintro t1 a t2 b s - ⟨c, ⟨u, rfl, -⟩, -⟩ -
    exact hdot _ s rfl
  · rintro t1 a t2 b s - ⟨_, _, _, rfl, ⟨u, rfl, -⟩, -⟩ -
    exact hdot _ s rfl
  · rintro t1 a t2 b s - ⟨_, _, _, rfl, ⟨u, rfl, -⟩, -⟩ -
    exact hdot _ s rfl
  · intro t ip
    constructor
    · rintro ⟨_, one, _, rfl, ⟨u1, rfl, h1⟩, _, two, _, rfl, ⟨u2, rfl, h2⟩, _, three, _, rfl,
        ⟨u3, rfl, h3⟩, four, ⟨u4, rfl, h₄⟩, rfl⟩
      exact ⟨_, u2, u3, u4, by simp [separator], h1, h2, h3, h₄⟩
    · rintro ⟨u1, u2, u3, u4, rfl, h1, h2, h3, h₄⟩
      exact ⟨_, ip.one, _, by simp [separator], ⟨u1, rfl, h1⟩, _, ip.two, _, rfl, ⟨u2, rfl, h2⟩, _,
        ip.three, _, rfl, ⟨u3, rfl, h3⟩, ip.four, ⟨u4, rfl, h₄⟩, rfl⟩

/-- An IPv4 address begins with decimal digits and a dot. -/
theorem Ipv4Text.exists_dot {t : List UInt8} {ip : Ipv4Addr} (h : Ipv4Text t ip) :
    ∃ ds n r, t = ds ++ 46 :: r ∧ ds ≠ [] ∧ number 10 ds = some n := by
  obtain ⟨t1, t2, t3, t4, rfl, h1, -⟩ := h
  exact ⟨t1, _, t2 ++ 46 :: t3 ++ 46 :: t4, by simp, h1.1, h1.2.1⟩

variable {s : List UInt8}

/-- Where hexadecimal digits stand that no dot follows, there is no IPv4 address. -/
theorem not_ipv4_isPrefix {t u : List UInt8} {ip : Ipv4Addr}
    (ht : number 16 t = some n) (hs : NoDigit 16 s) (hdot : s.head? ≠ some 46)
    (hu : Ipv4Text u ip) : ¬ u <+: t ++ s := by
  rintro ⟨r, hr⟩
  obtain ⟨ds, m, r', rfl, -, hds⟩ := hu.exists_dot
  obtain ⟨k, hk⟩ := exists_number_mono (by decide : 10 ≤ 16) hds
  rw [append_assoc] at hr
  have hdotstop : NoDigit 16 (46 :: r' ++ r) := by
    rintro c hc
    cases hc
    rfl
  obtain ⟨-, rfl⟩ := digits_unique hr hk hdotstop ht hs
  exact hdot rfl

/-! ## Groups -/

/-- What ends a list of groups: nothing that begins a group, and no colon before such. -/
structure GroupsStop (s : List UInt8) : Prop where
  no_digit : NoDigit 16 s
  no_dot : s.head? ≠ some 46
  no_group : ∀ r, s = 58 :: r → NoDigit 16 r

theorem separator_58 (i : ℕ) : separator 58 i = colon (i = 0) := by
  rw [separator, colon]
  rcases Nat.eq_zero_or_pos i with rfl | h
  · rfl
  · rw [if_pos h, if_neg (by simpa using h.ne')]

theorem digit_head_of_number {radix : ℕ} {t : List UInt8} (ht : t ≠ [])
    (hn : number radix t = some n) (s : List UInt8) : ¬ NoDigit radix (t ++ s) := by
  intro h
  cases t with
  | nil => exact ht rfl
  | cons c t => exact digit_of_mem hn mem_cons_self (h c rfl)

/-- Nothing is read where the groups stop. -/
theorem GroupsStop.not_isPrefix {u : List UInt8} (h : GroupsStop s) (i : ℕ)
    (hne : u ≠ []) (hn : number 16 u = some n) (r : List UInt8) :
    ¬ separator 58 i ++ (u ++ r) <+: s := by
  rintro ⟨r', hr⟩
  rw [append_assoc] at hr
  rw [separator] at hr
  split at hr
  · have hs := h.no_group (u ++ r ++ r') hr.symm
    rw [append_assoc] at hs
    exact digit_head_of_number hne hn _ hs
  · have hs := h.no_digit
    rw [← hr, nil_append, append_assoc] at hs
    exact digit_head_of_number hne hn _ hs

theorem GroupsStop.fails_ipv4 (h : GroupsStop s) (i : ℕ) :
    read_separator 58 i read_ipv4_addr s = .ok (none, s) := by
  refine (read_separator_reads 58 i read_ipv4_addr_reads).fails (restores_read_atomically _) ?_
  rintro t ip ⟨u, rfl, hu⟩
  obtain ⟨ds, n, r, rfl, hne, hn⟩ := hu.exists_dot
  obtain ⟨m, hm⟩ := exists_number_mono (by decide : 10 ≤ 16) hn
  exact h.not_isPrefix i hne hm _

theorem GroupsStop.fails_group (h : GroupsStop s) (i : ℕ) :
    read_group i s = .ok (none, s) := by
  refine (read_group_reads i).fails (restores_read_atomically _) ?_
  rintro t g ⟨u, rfl, hu⟩
  have := h.not_isPrefix i hu.1 hu.2.2 []
  rwa [append_nil] at this

/-- The groups that follow a group begin with a colon. -/
theorem Groups.stop {embedded : Bool} {ts : List UInt8} {gs : List UInt16}
    (h : Groups false embedded ts gs) (hs : GroupsStop s) :
    NoDigit 16 (ts ++ s) ∧ (ts ++ s).head? ≠ some 46 := by
  have hcolon (r : List UInt8) : NoDigit 16 (58 :: r) ∧ (58 :: r).head? ≠ some (46 : UInt8) := by
    refine ⟨?_, by simp⟩
    rintro c hc
    cases hc
    rfl
  cases h with
  | nil => exact ⟨hs.no_digit, hs.no_dot⟩
  | hex | v4 => exact hcolon _

/-- The array after groups have been written from an index on. -/
def written (groups : List UInt16) (i : ℕ) (gs : List UInt16) : List UInt16 :=
  groups.take i ++ gs ++ groups.drop (i + gs.length)

theorem written_nil (groups : List UInt16) (i : ℕ) : written groups i [] = groups := by
  simp [written]

theorem written_cons {groups : List UInt16} {i : ℕ} (h : i < groups.length) (g : UInt16)
    (gs : List UInt16) : written (groups.set i g) (i + 1) gs = written groups i (g :: gs) := by
  have htake : (groups.set i g).take (i + 1) = groups.take i ++ [g] := by
    rw [take_succ_eq_append_getElem (by rw [length_set]; exact h), take_set_of_le le_rfl,
      getElem_set_self]
  have hdrop : (groups.set i g).drop (i + 1 + gs.length) = groups.drop (i + (g :: gs).length) := by
    rw [drop_set_of_lt (by omega), length_cons]
    congr 1
    omega
  rw [written, written, htake, hdrop]
  simp

theorem length_written {groups gs : List UInt16} {i : ℕ} (h : i + gs.length ≤ groups.length) :
    (written groups i gs).length = groups.length := by
  simp only [written, length_append, length_take, length_drop]
  omega

theorem set_group_eq {groups : List UInt16} {i : ℕ} (h : i < groups.length) (g : UInt16) :
    set_group groups i g = .ok (groups.set i g) := if_pos h

/-- The attempt to read an embedded address, where there is room for one. -/
def ipv4_attempt (limit i : ℕ) : Reader Ipv4Addr := fun s =>
  if i < limit - 1 then read_separator 58 i read_ipv4_addr s else .ok (none, s)

theorem ipv4_attempt_cases (limit i : ℕ) (s : List UInt8) :
    (∃ ip s' u, i < limit - 1 ∧ ipv4_attempt limit i s = .ok (some ip, s') ∧
      s = separator 58 i ++ u ++ s' ∧ Ipv4Text u ip) ∨ ipv4_attempt limit i s = .ok (none, s) := by
  by_cases hi : i < limit - 1
  · have hreads := read_separator_reads 58 i read_ipv4_addr_reads
    obtain ⟨⟨r, s'⟩, hr⟩ := hreads.returns s
    rw [ipv4_attempt, if_pos hi]
    cases r with
    | none =>
      rw [hr, restores_read_atomically _ s s' hr]
      exact .inr rfl
    | some ip =>
      obtain ⟨_, rfl, u, rfl, hu⟩ := hreads.sound _ _ _ hr
      exact .inl ⟨ip, s', u, hi, hr, rfl, hu⟩
  · exact .inr (if_neg hi)

section
variable {limit left i : ℕ} {groups : List UInt16} {s s' : List UInt8}

theorem read_groups_from_v4 (hlen : groups.length = limit) (hi : i < limit - 1) {ip : Ipv4Addr}
    (h : ipv4_attempt limit i s = .ok (some ip, s')) :
    read_groups_from limit (left + 1) i groups s =
      .ok (some (written groups i (ipv4_groups ip), i + 2, true), s') := by
  have hset : (groups.set i (from_be_bytes ip.one ip.two)).set (i + 1)
      (from_be_bytes ip.three ip.four) = written groups i (ipv4_groups ip) := by
    rw [ipv4_groups, ← written_cons (by omega),
      ← written_cons (by rw [length_set]; omega), written_nil]
  have hrun : read_groups_from limit (left + 1) i groups s = (do
      let groups ← set_group groups i (from_be_bytes ip.one ip.two)
      let groups ← set_group groups (i + 1) (from_be_bytes ip.three ip.four)
      .ok (some (groups, i + 2, true), s')) := by
    exact congrArg (· >>= _) h
  rw [hrun, set_group_eq (by omega), bind_ok, set_group_eq (by rw [length_set]; omega),
    bind_ok, hset]

theorem read_groups_from_group (hi : i < groups.length) {g : UInt16}
    (h : ipv4_attempt limit i s = .ok (none, s)) (hg : read_group i s = .ok (some g, s')) :
    read_groups_from limit (left + 1) i groups s =
      read_groups_from limit left (i + 1) (groups.set i g) s' := by
  have hrun : read_groups_from limit (left + 1) i groups s = (do
      let groups ← set_group groups i g
      read_groups_from limit left (i + 1) groups s') := by
    refine (congrArg (· >>= _) h).trans ?_
    rw [bind_ok]
    exact congrArg (· >>= _) hg
  rw [hrun, set_group_eq hi, bind_ok]

theorem read_groups_from_end (h : ipv4_attempt limit i s = .ok (none, s))
    (hg : read_group i s = .ok (none, s')) :
    read_groups_from limit (left + 1) i groups s = .ok (some (groups, i, false), s') := by
  refine (congrArg (· >>= _) h).trans ?_
  rw [bind_ok]
  exact congrArg (· >>= _) hg

end

/-- What the loop returns for the text `t`, from the index `i` on. -/
def GroupsText (groups : List UInt16) (i : ℕ) (t : List UInt8) (r : List UInt16 × ℕ × Bool) :
    Prop :=
  ∃ gs, Groups (i = 0) r.2.2 t gs ∧ i + gs.length ≤ groups.length ∧ r.1 = written groups i gs ∧
    r.2.1 = i + gs.length

/-- One more group. -/
theorem GroupsText.cons {groups : List UInt16} {i : ℕ} {t ts : List UInt8} {g : UInt16}
    {r : List UInt16 × ℕ × Bool} (hi : i < groups.length) (ht : Hextet t g)
    (h : GroupsText (groups.set i g) (i + 1) ts r) :
    GroupsText groups i (separator 58 i ++ t ++ ts) r := by
  obtain ⟨gs, hgs, hle, hwritten, hsize⟩ := h
  rw [length_set] at hle
  refine ⟨g :: gs, ?_, by rw [length_cons]; omega, ?_, by rw [length_cons]; omega⟩
  · rw [separator_58]
    exact .hex ht hgs
  · rw [hwritten, written_cons hi]

/-- By induction on the groups left, an embedded IPv4 address ending them. -/
theorem read_groups_from_reads (limit left i : ℕ) {groups : List UInt16}
    (hlen : groups.length = limit) (hleft : left + i = limit) :
    (read_groups_from limit left i groups).Reads (GroupsText groups i) GroupsStop := by
  induction left generalizing i groups with
  | zero =>
    -- The array is full, and nothing is read.
    refine ((Parser.reads_pure (groups, groups.length, false)).mono_stop fun _ _ =>
      trivial).congr fun t r => ?_
    constructor
    · rintro ⟨rfl, rfl⟩
      exact ⟨[], .nil _, by simp; omega, (written_nil _ _).symm, by simp; omega⟩
    · rintro ⟨gs, hgs, hle, hwritten, hsize⟩
      obtain rfl : gs = [] := eq_nil_of_length_eq_zero (by omega)
      obtain ⟨r1, r2, r3⟩ := r
      generalize hf : decide (i = 0) = first at hgs
      cases hgs
      simp only [written_nil, length_nil] at hwritten hsize
      exact ⟨rfl, by rw [hwritten, hsize, show i + 0 = groups.length by omega]⟩
  | succ left ih =>
    have hgroup := read_group_reads i
    have hnext (g : UInt16) := @ih (i + 1) (groups.set i g)
      (by rw [length_set, hlen]) (by omega)
    refine ⟨fun s => ?_, fun s r s' hread => ?_, ?_⟩
    · rcases ipv4_attempt_cases limit i s with ⟨ip, s', u, hi, hv4, -, -⟩ | hv4
      · exact ⟨_, read_groups_from_v4 hlen hi hv4⟩
      · obtain ⟨⟨o, s'⟩, ho⟩ := hgroup.returns s
        cases o with
        | none => exact ⟨_, read_groups_from_end hv4 ho⟩
        | some g =>
          rw [read_groups_from_group (by omega) hv4 ho]
          exact (hnext g).returns s'
    · rcases ipv4_attempt_cases limit i s with ⟨ip, s1, u, hi, hv4, rfl, hu⟩ | hv4
      · rw [read_groups_from_v4 hlen hi hv4] at hread
        cases hread
        refine ⟨separator 58 i ++ u, rfl, ipv4_groups ip, ?_, ?_, rfl, rfl⟩
        · rw [separator_58]
          exact .v4 hu
        · simp only [ipv4_groups, length_cons, length_nil]
          omega
      · obtain ⟨⟨o, s1⟩, ho⟩ := hgroup.returns s
        cases o with
        | none =>
          rw [read_groups_from_end hv4 ho] at hread
          cases hread
          rw [restores_read_atomically _ _ _ ho]
          exact ⟨[], rfl, [], .nil _, by simp; omega, (written_nil _ _).symm, rfl⟩
        | some g =>
          obtain ⟨_, rfl, u, rfl, hu⟩ := hgroup.sound _ _ _ ho
          rw [read_groups_from_group (by omega) hv4 ho] at hread
          obtain ⟨ts, rfl, hts⟩ := (hnext g).sound _ _ _ hread
          exact ⟨separator 58 i ++ u ++ ts, by simp only [append_assoc], hts.cons (by omega) hu⟩
    · rintro t r s' ⟨gs, hgs, hle, hwritten, hsize⟩ hs
      obtain ⟨r1, r2, embedded⟩ := r
      subst hwritten hsize
      generalize hf : decide (i = 0) = first at hgs
      cases hgs with
      | nil =>
        have hv4 : ipv4_attempt limit i s' = .ok (none, s') := by
          rw [ipv4_attempt, hs.fails_ipv4, ite_self]
        rw [written_nil, nil_append]
        exact read_groups_from_end hv4 (hs.fails_group i)
      | @hex _ _ t ts g gs ht hts =>
        obtain ⟨hdigit, hdot⟩ := hts.stop hs
        rw [← hf, ← separator_58, append_assoc, append_assoc]
        have hv4 : ipv4_attempt limit i (separator 58 i ++ (t ++ (ts ++ s'))) =
            .ok (none, separator 58 i ++ (t ++ (ts ++ s'))) := by
          have hfail := (read_separator_reads 58 i read_ipv4_addr_reads).fails
            (restores_read_atomically _) (s := separator 58 i ++ (t ++ (ts ++ s'))) (by
              rintro _ ip ⟨u, rfl, hu⟩ hprefix
              exact not_ipv4_isPrefix ht.2.2 hdigit hdot hu
                ((prefix_append_right_inj _).mp hprefix))
          rw [ipv4_attempt, hfail, ite_self]
        have hread := hgroup.accepts (separator 58 i ++ t) g (ts ++ s') ⟨t, rfl, ht⟩ hdigit
        rw [append_assoc] at hread
        rw [length_cons] at hle
        rw [read_groups_from_group (by omega) hv4 hread]
        refine (hnext g).accepts ts _ s' ⟨gs, hts, ?_, (written_cons (by omega) g gs).symm, ?_⟩ hs
        · rw [length_set]
          omega
        · dsimp only
          rw [length_cons]
          omega
      | @v4 _ t ip ht =>
        have hi : i < limit - 1 := by
          simp only [ipv4_groups, length_cons, length_nil] at hle
          omega
        have hstop : NoDigit 10 s' := by
          intro c hc
          by_contra hd
          obtain ⟨d, hd⟩ := ne_none_iff_exists'.mp hd
          have := hs.no_digit c hc
          rw [digit_mono (by decide : 10 ≤ 16) hd] at this
          cases this
        rw [← hf, ← separator_58]
        have hv4 : ipv4_attempt limit i (separator 58 i ++ t ++ s') = .ok (some ip, s') := by
          rw [ipv4_attempt, if_pos hi]
          exact (read_separator_reads 58 i read_ipv4_addr_reads).accepts _ ip s' ⟨t, rfl, ht⟩ hstop
        exact read_groups_from_v4 hlen hi hv4

theorem read_groups_reads (groups : List UInt16) :
    (read_groups groups).Reads (GroupsText groups 0) GroupsStop :=
  read_groups_from_reads groups.length groups.length 0 rfl rfl

/-! ## IPv6 addresses -/

theorem take_written {groups gs : List UInt16} : (written groups 0 gs).take gs.length = gs := by
  rw [written, take_zero, nil_append, take_left]

theorem into_ipv6_eq {groups : List UInt16} (h : groups.length = 8) :
    into_ipv6 groups = .ok ⟨groups, h⟩ := dif_pos h

/-- An address is its groups. -/
theorem Ipv6Addr.eq_iff {ip : Ipv6Addr} {groups : List UInt16} (h : groups.length = 8) :
    ip.segments = groups ↔ ip = ⟨groups, h⟩ := by
  exact ⟨fun hs => by subst hs; rfl, fun hs => by cases hs; rfl⟩

/-- The text of `::` and the groups after it, which go to the end of the address. -/
def TailText (head : List UInt16) (head_size : ℕ) (t : List UInt8) (ip : Ipv6Addr) : Prop :=
  ∃ embedded u us, t = 58 :: 58 :: u ∧ Groups true embedded u us ∧ head_size + us.length ≤ 7 ∧
    ip.segments = head.take (8 - us.length) ++ us

/-- Behind the first groups stands nothing, or a `::` and the last groups. -/
theorem read_ipv6_tail_reads {head : List UInt16} {head_size : ℕ} (hhead : head.length = 8)
    (hsize : head_size ≤ 7) :
    (read_ipv6_tail head head_size).Reads (TailText head head_size) GroupsStop := by
  have hlimit : usize_sub 8 (head_size + 1) = .ok (7 - head_size) :=
    (if_pos (by omega)).trans (by rw [show 8 - (head_size + 1) = 7 - head_size by omega])
  have hslice : slice_to (replicate 7 0) (7 - head_size) = .ok (replicate (7 - head_size) 0) := by
    rw [slice_to, if_pos (by simp), take_replicate, min_eq_left (by omega)]
  -- What is written of the second part is moved to the end of the first.
  have hmove : (do
      let r ← read_groups (replicate (7 - head_size) 0)
      let ys ← .lift (slice_to (r.1 ++ (replicate 7 0).drop (7 - head_size)) r.2.1)
      let start ← .lift (usize_sub 8 r.2.1)
      let head ← .lift (copy_from_slice head start 8 ys)
      .lift (into_ipv6 head) : Reader Ipv6Addr).Reads
      (fun t ip => ∃ r, GroupsText (replicate (7 - head_size) 0) 0 t r ∧
        ip.segments = head.take (8 - r.2.1) ++ r.1.take r.2.1) GroupsStop := by
    refine (read_groups_reads _).bind_value ?_
    rintro t ⟨slice, size, embedded⟩ ⟨gs, -, hle, hwritten, hgs⟩
    rw [zero_add] at hle hgs
    subst hwritten hgs
    rw [length_replicate] at hle
    have hlen : (head.take (8 - gs.length) ++ gs).length = 8 := by
      rw [length_append, length_take]
      omega
    rw [take_written]
    refine ⟨⟨_, hlen⟩, fun ip => Ipv6Addr.eq_iff hlen, fun s => ?_⟩
    have hys : slice_to (written (replicate (7 - head_size) 0) 0 gs ++
        (replicate 7 0).drop (7 - head_size)) gs.length = .ok gs := by
      have hwlen := @length_written (replicate (7 - head_size) 0) gs 0
        (by rw [length_replicate]; omega)
      rw [length_replicate] at hwlen
      rw [slice_to, if_pos (by rw [length_append]; omega),
        take_append_of_le_length (by omega), take_written]
    have hcopy : copy_from_slice head (8 - gs.length) 8 gs =
        .ok (head.take (8 - gs.length) ++ gs) := by
      rw [copy_from_slice, if_pos ⟨by omega, by omega, by omega⟩,
        drop_eq_nil_of_le (by omega), append_nil]
    have hstart : usize_sub 8 gs.length = .ok (8 - gs.length) := if_pos (by omega)
    refine (Parser.bind_lift hys).trans ((Parser.bind_lift hstart).trans
      ((Parser.bind_lift hcopy).trans ?_))
    rw [Parser.lift, into_ipv6_eq hlen]
    rfl
  have hrest := (read_given_char_reads 58).bind (fun _ _ _ => (read_given_char_reads 58).bind
    (fun _ _ _ => hmove) fun _ _ _ _ _ _ _ _ => trivial) fun _ _ _ _ _ _ _ _ => trivial
  have hrun : read_ipv6_tail head head_size = (do
      read_given_char 58
      read_given_char 58
      let r ← read_groups (replicate (7 - head_size) 0)
      let ys ← .lift (slice_to (r.1 ++ (replicate 7 0).drop (7 - head_size)) r.2.1)
      let start ← .lift (usize_sub 8 r.2.1)
      let head ← .lift (copy_from_slice head start 8 ys)
      .lift (into_ipv6 head)) := by
    rw [read_ipv6_tail]
    congr 1
    funext _
    congr 1
    funext _ s
    exact (Parser.bind_lift hlimit).trans (Parser.bind_lift hslice)
  rw [hrun]
  refine hrest.congr fun t ip => ?_
  constructor
  · rintro ⟨_, -, _, rfl, rfl, _, -, u, rfl, rfl, ⟨slice, size, embedded⟩,
      ⟨us, hus, hle, hwritten, hsz⟩, hip⟩
    rw [zero_add] at hle hsz
    subst hwritten hsz
    rw [length_replicate] at hle
    rw [take_written] at hip
    exact ⟨embedded, u, us, rfl, hus, by omega, hip⟩
  · rintro ⟨embedded, u, us, rfl, hus, hle, hip⟩
    refine ⟨[58], (), _, rfl, rfl, [58], (), u, rfl, rfl,
      ⟨written (replicate (7 - head_size) 0) 0 us, us.length, embedded⟩,
      ⟨us, hus, ?_, rfl, (zero_add _).symm⟩, ?_⟩
    · rw [length_replicate]
      omega
    · dsimp only
      rw [take_written]
      exact hip

/-- What ends an IPv6 address. -/
structure Ipv6Stop (s : List UInt8) : Prop where
  no_digit : NoDigit 16 s
  no_dot : s.head? ≠ some 46
  no_colon : s.head? ≠ some 58

theorem Ipv6Stop.groupsStop (h : Ipv6Stop s) : GroupsStop s :=
  ⟨h.no_digit, h.no_dot, fun r hr => absurd (by rw [hr]; rfl) h.no_colon⟩

/-- Two colons end a list of groups. -/
theorem groupsStop_colons (s : List UInt8) : GroupsStop (58 :: 58 :: s) := by
  have hcolon (r : List UInt8) : NoDigit 16 (58 :: r) := by
    rintro c hc
    cases hc
    rfl
  refine ⟨hcolon _, by simp, ?_⟩
  rintro r hr
  cases hr
  exact hcolon _

/-- The reader of IPv6 addresses reads the texts of the grammar. -/
theorem read_ipv6_addr_reads : read_ipv6_addr.Reads Ipv6Text Ipv6Stop := by
  have hlen8 : (replicate 8 (0 : UInt16)).length = 8 := rfl
  have hbranch : ∀ t r, GroupsText (replicate 8 0) 0 t r →
      (if r.2.1 = 8 then .lift (into_ipv6 r.1) else if r.2.2 then .fail
        else read_ipv6_tail r.1 r.2.1 : Reader Ipv6Addr).Reads
      (fun u ip => (r.2.1 = 8 ∧ u = [] ∧ ip.segments = r.1) ∨
        (r.2.1 ≠ 8 ∧ r.2.2 = false ∧ TailText r.1 r.2.1 u ip)) Ipv6Stop := by
    rintro t ⟨head, size, embedded⟩ ⟨gs, -, hle, hwritten, hgs⟩
    dsimp only at hwritten hgs ⊢
    have hhead : head.length = 8 := by rw [hwritten, length_written hle, hlen8]
    by_cases h8 : size = 8
    · rw [if_pos h8]
      have hlift : (Parser.lift (into_ipv6 head) : Reader Ipv6Addr) = pure ⟨head, hhead⟩ := by
        funext s
        rw [Parser.lift, into_ipv6_eq hhead]
        rfl
      rw [hlift]
      refine ((Parser.reads_pure _).mono_stop fun _ _ => trivial).congr fun u ip => ?_
      rw [← Ipv6Addr.eq_iff]
      exact ⟨fun h => .inl ⟨h8, h⟩, fun h => (h.resolve_right fun h' => h'.1 h8).2⟩
    · rw [if_neg h8]
      cases embedded with
      | true =>
        rw [if_pos rfl]
        refine (Parser.reads_fail.mono_stop fun _ _ => trivial).congr fun u ip => ?_
        simp [h8]
      | false =>
        rw [if_neg (by decide)]
        refine ((read_ipv6_tail_reads hhead (by omega)).mono_stop fun _ h => h.groupsStop).congr ?_
        intro u ip
        exact ⟨fun h => .inr ⟨h8, rfl, h⟩, fun h => (h.resolve_left fun h' => h8 h'.1).2.2⟩
  refine reads_atomically (((read_groups_reads _).bind hbranch ?_).congr ?_)
  · rintro t1 r t2 ip s - (⟨-, rfl, -⟩ | ⟨-, -, embedded, u, us, rfl, -⟩) hs
    · exact hs.groupsStop
    · exact groupsStop_colons _
  intro t ip
  constructor
  · rintro ⟨t1, ⟨head, size, embedded⟩, t2, rfl, ⟨gs, hgs, hle, hwritten, hsize⟩, hrest⟩
    dsimp only at hgs hwritten hsize hrest
    rw [zero_add, hlen8] at hle
    rw [zero_add] at hsize
    subst hsize
    rcases hrest with ⟨h8, rfl, hip⟩ | ⟨h8, hemb, e, u, us, rfl, hus, hsum, hip⟩
    · left
      have hgroups : ip.segments = gs := by
        rw [hip, hwritten, written, h8]
        simp
      rw [append_nil, hgroups]
      exact ⟨embedded, hgs⟩
    · right
      subst hemb
      refine ⟨t1, gs, e, u, us, rfl, hgs, hus, hsum, ?_⟩
      rw [hip, hwritten, written, take_zero, nil_append, zero_add,
        drop_replicate, take_append, take_of_length_le (by omega),
        take_replicate]
      congr 3
      omega
  · rintro (⟨embedded, hgs⟩ | ⟨h, hs, embedded, u, us, rfl, hhs, hus, hsum, hip⟩)
    · refine ⟨t, ⟨ip.segments, 8, embedded⟩, [], (append_nil t).symm,
        ⟨ip.segments, hgs, ?_, ?_, ?_⟩, .inl ⟨rfl, rfl, rfl⟩⟩
      · rw [ip.length_eq]
        decide
      · rw [written, ip.length_eq]
        simp
      · rw [ip.length_eq]
    · refine ⟨h, ⟨written (replicate 8 0) 0 hs, hs.length, false⟩, 58 :: 58 :: u, rfl,
        ⟨hs, hhs, by rw [hlen8]; omega, rfl, (zero_add _).symm⟩,
        .inr ⟨?_, rfl, embedded, u, us, rfl, hus, hsum, ?_⟩⟩
      · dsimp only
        omega
      · rw [hip, written, take_zero, nil_append, zero_add, drop_replicate,
          take_append, take_of_length_le (by omega), take_replicate]
        congr 3
        omega

/-! ## IP addresses and socket addresses -/

/-- No IPv4 address stands where an IPv6 address does. -/
theorem Ipv6Text.not_ipv4_isPrefix {t u : List UInt8} {ip6 : Ipv6Addr} {ip4 : Ipv4Addr}
    (h : Ipv6Text t ip6) (hs : Ipv6Stop s) (hu : Ipv4Text u ip4) : ¬ u <+: t ++ s := by
  rcases h with ⟨embedded, hgs⟩ | ⟨t, hs', embedded, v, vs, rfl, hgs, -, -, -⟩
  · have hlen := ip6.length_eq
    generalize ip6.segments = gs at hgs hlen
    cases hgs with
    | nil | v4 => cases hlen
    | @hex _ _ t ts g gs ht hts =>
      obtain ⟨hdigit, hdot⟩ := hts.stop hs.groupsStop
      rw [colon, if_pos rfl, nil_append, append_assoc]
      exact RustStd.Net.not_ipv4_isPrefix ht.2.2 hdigit hdot hu
  · have hcolons := groupsStop_colons (v ++ s)
    rw [append_assoc]
    cases hgs with
    | nil => exact RustStd.Net.not_ipv4_isPrefix (number_nil 16) hcolons.no_digit hcolons.no_dot hu
    | @hex _ _ t ts g gs ht hts =>
      obtain ⟨hdigit, hdot⟩ := hts.stop hcolons
      rw [colon, if_pos rfl, nil_append, append_assoc]
      exact RustStd.Net.not_ipv4_isPrefix ht.2.2 hdigit hdot hu

theorem restores_map {β : Type} {p : Reader α} (hp : p.Restores) (f : α → β) :
    (do let a ← p; pure (f a) : Reader β).Restores := by
  intro s s' h
  change Parser.bind p (fun a => pure (f a)) s = _ at h
  rw [Parser.bind] at h
  split at h
  · cases h
  · next hr =>
    cases h
    exact hp _ _ hr
  · cases h

theorem Ipv6Stop.noDigit (h : Ipv6Stop s) : NoDigit 10 s := by
  intro c hc
  by_contra hd
  obtain ⟨d, hd⟩ := ne_none_iff_exists'.mp hd
  have := h.no_digit c hc
  rw [digit_mono (by decide : 10 ≤ 16) hd] at this
  cases this

theorem read_ip_addr_reads : read_ip_addr.Reads IpText Ipv6Stop := by
  have h4 := (read_ipv4_addr_reads.map IpAddr.V4).mono_stop fun _ (h : Ipv6Stop _) => h.noDigit
  have h6 := read_ipv6_addr_reads.map IpAddr.V6
  refine (h4.or_else (restores_map (restores_read_atomically _) _) h6 ?_).congr ?_
  · rintro t _ s ⟨ip6, h, rfl⟩ hs u _ ⟨ip4, hu, rfl⟩
    exact h.not_ipv4_isPrefix hs hu
  intro t ip
  cases ip with
  | V4 ip =>
    constructor
    · rintro (⟨ip', h, hip⟩ | ⟨_, -, hip⟩) <;> cases hip
      exact h
    · exact fun h => .inl ⟨ip, h, rfl⟩
  | V6 ip =>
    constructor
    · rintro (⟨_, -, hip⟩ | ⟨ip', h, hip⟩) <;> cases hip
      exact h
    · exact fun h => .inr ⟨ip, h, rfl⟩

theorem read_socket_addr_v4_reads : read_socket_addr_v4.Reads SocketV4Text (NoDigit 10) := by
  refine reads_atomically ((read_ipv4_addr_reads.bind (fun _ ip _ =>
    read_port_reads.map (SocketAddrV4.mk ip)) ?_).congr ?_)
  · rintro t1 ip t2 addr s - ⟨port, ⟨ds, rfl, -⟩, -⟩ -
    rintro c hc
    cases hc
    rfl
  · intro t addr
    constructor
    · rintro ⟨t1, ip, t2, rfl, h1, port, h2, rfl⟩
      exact ⟨t1, t2, rfl, h1, h2⟩
    · rintro ⟨t1, t2, rfl, h1, h2⟩
      exact ⟨t1, addr.ip, t2, rfl, h1, addr.port, h2, rfl⟩

theorem read_socket_addr_v6_reads : read_socket_addr_v6.Reads SocketV6Text (NoDigit 10) := by
  have hstop {s : List UInt8} {c : UInt8} (hs : s.head? = some c)
      (hc : digit 16 c = none ∧ c ≠ 46 ∧ c ≠ 58) : Ipv6Stop s := by
    refine ⟨?_, by simpa [hs] using hc.2.1, by simpa [hs] using hc.2.2⟩
    intro d hd
    rw [hs, some.injEq] at hd
    exact hd ▸ hc.1
  refine reads_atomically (((read_given_char_reads 91).bind (fun _ _ _ =>
    read_ipv6_addr_reads.bind (fun _ ip _ => read_scope_id_reads.bind (fun _ scope_id _ =>
      (read_given_char_reads 93).bind (fun _ _ _ =>
        read_port_reads.map (SocketAddrV6.mk ip · 0 scope_id)) ?_) ?_) ?_) ?_).congr ?_)
  · exact fun _ _ _ _ _ _ _ _ => trivial
  · rintro t1 scope_id t2 addr s - ⟨_, -, t4, rfl, rfl, -⟩ -
    rfl
  · rintro t1 ip t2 addr s - ⟨t3, scope_id, _, rfl, hscope, _, -, t4, rfl, rfl, -⟩ -
    rcases hscope with ⟨ds, rfl, -⟩ | ⟨rfl, -⟩
    · exact hstop (c := 37) rfl (by decide)
    · exact hstop (c := 93) rfl (by decide)
  · exact fun _ _ _ _ _ _ _ _ => trivial
  · intro t addr
    constructor
    · rintro ⟨_, -, _, rfl, rfl, t1, ip, _, rfl, h1, t2, scope_id, _, rfl, h2, _, -, t3, rfl, rfl,
        port, h3, rfl⟩
      exact ⟨t1, t2, t3, by simp, h1, h2, h3, rfl⟩
    · rintro ⟨t1, t2, t3, rfl, h1, h2, h3, hflow⟩
      refine ⟨[91], (), _, by simp, rfl, t1, addr.ip, _, rfl, h1, t2, addr.scope_id, _, rfl, h2,
        [93], (), t3, rfl, rfl, addr.port, h3, ?_⟩
      rw [← hflow]

theorem read_socket_addr_reads : read_socket_addr.Reads SocketText (NoDigit 10) := by
  refine ((read_socket_addr_v4_reads.map SocketAddr.V4).or_else
    (restores_map (restores_read_atomically _) _)
    (read_socket_addr_v6_reads.map SocketAddr.V6) ?_).congr ?_
  · -- A bracket begins no IPv4 address.
    rintro t _ s ⟨addr6, ⟨t1, t2, t3, rfl, -⟩, rfl⟩ hs u _ ⟨addr4, ⟨u1, u2, rfl, hu, -⟩, rfl⟩
    rintro ⟨r, hr⟩
    obtain ⟨ds, n, r', rfl, hne, hn⟩ := hu.exists_dot
    cases ds with
    | nil => exact hne rfl
    | cons c ds =>
      obtain rfl : c = 91 := by simpa using congrArg head? hr
      exact digit_of_mem hn mem_cons_self rfl
  · intro t addr
    cases addr with
    | V4 addr =>
      constructor
      · rintro (⟨addr', h, haddr⟩ | ⟨_, -, haddr⟩) <;> cases haddr
        exact h
      · exact fun h => .inl ⟨addr, h, rfl⟩
    | V6 addr =>
      constructor
      · rintro (⟨_, -, haddr⟩ | ⟨addr', h, haddr⟩) <;> cases haddr
        exact h
      · exact fun h => .inr ⟨addr, h, rfl⟩

/-! ## Whole inputs -/

/-- The function returns the value that a text denotes, and an error for all that is no text. -/
def Parses (parse : List UInt8 → Exec (Except AddrKind α)) (Text : List UInt8 → α → Prop)
    (kind : AddrKind) : Prop :=
  ∀ b, (∀ a, parse b = .ok (.ok a) ↔ Text b a) ∧ ((∀ a, ¬ Text b a) → parse b = .ok (.error kind))

theorem parses_parse_with {p : Reader α}
    (h : p.Reads Text Stop) (hend : Stop []) (kind : AddrKind) :
    Parses (parse_with p kind) Text kind := by
  intro b
  have hiff := h.parses_iff hend b
  obtain ⟨⟨r, s⟩, hr⟩ := h.returns b
  have hrun : parse_with p kind b =
      .ok ((if s = [] then r else none).elim (.error kind) .ok) := by
    rw [parse_with, hr, bind_ok]
    cases h : (if s = [] then r else none) <;> simp only [h] <;> rfl
  by_cases hs : s = []
  · subst hs
    rw [if_pos rfl] at hrun
    cases r with
    | some a =>
      refine ⟨fun a' => ?_, fun hnone => absurd ((hiff a).mp hr) (hnone a)⟩
      rw [hrun, ← hiff, hr]
      simp
    | none =>
      refine ⟨fun a' => ?_, fun _ => hrun⟩
      rw [hrun, ← hiff, hr]
      simp
  · rw [if_neg hs] at hrun
    refine ⟨fun a' => ?_, fun _ => hrun⟩
    rw [hrun, ← hiff, hr]
    simp [hs]

theorem noDigit_nil (radix : ℕ) : NoDigit radix [] := by
  rintro c ⟨⟩

theorem ipv6Stop_nil : Ipv6Stop [] := ⟨noDigit_nil 16, by simp, by simp⟩

theorem ipv4_parses : Parses Ipv4Addr.parse_ascii Ipv4Text .Ipv4 := by
  have hparses := parses_parse_with read_ipv4_addr_reads (noDigit_nil 10) .Ipv4
  intro b
  rw [Ipv4Addr.parse_ascii]
  by_cases hlong : b.length > 15
  · rw [if_pos hlong]
    refine ⟨fun ip => ?_, fun _ => rfl⟩
    constructor
    · intro h
      cases h
    · intro h
      have := h.length_le
      omega
  · rw [if_neg hlong]
    exact hparses b

/-- **Address parsing** accepts the texts of the grammar, in whole, and returns the value that
they denote. Every other input is an error, no index leaves the arrays, and a parser that fails
leaves the state where it was. -/
theorem parse_ascii_iff_text :
    Parses Ipv4Addr.parse_ascii Ipv4Text .Ipv4 ∧ Parses Ipv6Addr.parse_ascii Ipv6Text .Ipv6 ∧
      Parses IpAddr.parse_ascii IpText .Ip ∧
      Parses SocketAddrV4.parse_ascii SocketV4Text .SocketV4 ∧
      Parses SocketAddrV6.parse_ascii SocketV6Text .SocketV6 ∧
      Parses SocketAddr.parse_ascii SocketText .Socket ∧
      (∀ max radix max_digits allow, (read_number max radix max_digits allow).Restores) ∧
      (∀ (α : Type) sep i (inner : Reader α), (read_separator sep i inner).Restores) ∧
      read_ipv4_addr.Restores ∧ read_ipv6_addr.Restores ∧ read_port.Restores ∧
      read_scope_id.Restores ∧ read_socket_addr_v4.Restores ∧ read_socket_addr_v6.Restores := by
  refine ⟨ipv4_parses, parses_parse_with read_ipv6_addr_reads ipv6Stop_nil _,
    parses_parse_with read_ip_addr_reads ipv6Stop_nil _,
    parses_parse_with read_socket_addr_v4_reads (noDigit_nil 10) _,
    parses_parse_with read_socket_addr_v6_reads (noDigit_nil 10) _,
    parses_parse_with read_socket_addr_reads (noDigit_nil 10) _, ?_⟩
  exact ⟨fun _ _ _ _ => restores_read_atomically _, fun _ _ _ _ => restores_read_atomically _,
    restores_read_atomically _, restores_read_atomically _, restores_read_atomically _,
    restores_read_atomically _, restores_read_atomically _, restores_read_atomically _⟩

end RustStd.Net
