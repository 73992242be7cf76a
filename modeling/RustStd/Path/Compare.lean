import RustStd.Iter.Compare
import RustStd.Path.Refine

/-!
# Comparing paths

`==` and `cmp` of paths, after `std/src/path.rs`. Components are compared by what the prefix was
parsed to, not by its text. Both comparisons have a shortcut over the bytes. They compare the lists
of the components (`components_eq_spec`, `compare_components_spec`).
-/

namespace RustStd.Path

open DoubleEnded Iter List Option Nat

/-! ## Components -/

/-- The place of a variant of `Prefix`. -/
def Prefix.rank : Prefix → ℕ
  | Verbatim _ => 0
  | VerbatimUNC _ _ => 1
  | VerbatimDisk _ => 2
  | DeviceNS _ => 3
  | UNC _ _ => 4
  | Disk _ => 5

/-- `Prefix::cmp`, as it is derived. -/
def Prefix.cmp : Prefix → Prefix → Ordering
  | Verbatim x, Verbatim y => compare x y
  | VerbatimUNC x y, VerbatimUNC x' y' => (compare x x').then (compare y y')
  | VerbatimDisk x, VerbatimDisk y => compare x y
  | DeviceNS x, DeviceNS y => compare x y
  | UNC x y, UNC x' y' => (compare x x').then (compare y y')
  | Disk x, Disk y => compare x y
  | p, q => compare p.rank q.rank

namespace Component

/-- The place of a variant of `Component`. -/
def rank : Component → ℕ
  | Prefix _ _ => 0
  | RootDir => 1
  | CurDir => 2
  | ParentDir => 3
  | Normal _ => 4

/-- `Component::eq`, as it is derived over `PrefixComponent::eq`. -/
def eq : Component → Component → Bool
  | Prefix _ parsed, Prefix _ parsed' => parsed = parsed'
  | x, y => x = y

/-- `Component::cmp`, as it is derived over `PrefixComponent::cmp`. -/
def cmp : Component → Component → Ordering
  | Prefix _ parsed, Prefix _ parsed' => parsed.cmp parsed'
  | Normal x, Normal y => compare x y
  | x, y => compare x.rank y.rank

/-- The component without the text of the prefix. -/
def unraw : Component → Component
  | Prefix _ parsed => Prefix [] parsed
  | x => x

theorem eq_iff (x y : Component) : x.eq y = true ↔ x.unraw = y.unraw := by
  cases x <;> cases y <;> simp [eq, unraw]

theorem cmp_self (x : Component) : x.cmp x = .eq := by
  cases x with
  | Prefix raw parsed => cases parsed <;> simp [cmp, Prefix.cmp]
  | Normal x => simp [cmp]
  | _ => rfl

end Component

open Component

/-! ## Paths -/

namespace Components

variable (P : Platform) (turns : ℕ)

def eq (self other : Components) : Option Bool :=
  if self.path.length = other.path.length ∧ self.front = other.front ∧ self.back = .Body ∧
      other.back = .Body ∧ self.prefix_verbatim P = other.prefix_verbatim P ∧
      self.path = other.path then some true
  else iter_eq (next_back P) (next_back P) Component.eq turns self other

/-- The first place where two paths differ; one may end there. -/
def first_difference (left right : List UInt8) : Option ℕ :=
  match (left.zip right).findIdx? fun b => b.1 != b.2 with
  | none => if left.length = right.length then none else some (min left.length right.length)
  | some diff => some diff

def compare_components (left right : Components) : Option Ordering :=
  if left.kind = none ∧ right.kind = none ∧ left.front = right.front then
    match first_difference left.path right.path with
    | none => some .eq
    | some first_difference => do
      match rposition (left.is_sep_byte P) (← slice_to left.path first_difference) with
      | some previous_sep =>
        let mismatched_component_start := previous_sep + 1
        let left := { left with
          path := ← slice_from left.path mismatched_component_start, front := .Body }
        let right := { right with
          path := ← slice_from right.path mismatched_component_start, front := .Body }
        iter_cmp (next P) (next P) Component.cmp turns left right
      | none => iter_cmp (next P) (next P) Component.cmp turns left right
  else iter_cmp (next P) (next P) Component.cmp turns left right

def collect : ℕ → Components → Option (List Component)
  | 0, _ => none
  | turns + 1, self => do
    let (x, self) ← self.next P
    match x with
    | none => return []
    | some x => return x :: (← collect turns self)

end Components

open Components

/-- `Path::eq` -/
def path_eq (P : Platform) (turns : ℕ) (p q : List UInt8) : Option Bool := do
  Components.eq P turns (← components P p) (← components P q)

/-- `Path::cmp` -/
def path_cmp (P : Platform) (turns : ℕ) (p q : List UInt8) : Option Ordering := do
  Components.compare_components P turns (← components P p) (← components P q)

variable {P : Platform} {turns : ℕ} {orig raw : List UInt8} {kind : Option Prefix} {dot : Bool}
  {c : Components} {l : List Component} {c d : Components}

/-! ## What the iterators stand for -/

/-- A state that stands for the components `l`. -/
def Stands (P : Platform) (orig raw : List UInt8) (kind : Option Prefix) (dot : Bool)
    (c : Components) (l : List Component) : Prop :=
  Consistent P orig kind dot c ∧ c.remaining P raw = l

theorem isNext_front (hraw : orig.take (kind_len kind) = raw) :
    IsNext (Stands P orig raw kind dot) (Components.next P) :=
  fun _ _ h => next_spec h.1 hraw h.2

theorem isNext_back (hraw : orig.take (kind_len kind + dot.toNat) = raw) :
    IsNext (Reversed (Stands P orig raw kind dot)) (next_back P) :=
  isNext_reversed fun _ _ h => next_back_spec h.1 hraw h.2

/-- The text of the prefix is not compared. -/
theorem remaining_unraw (c : Components) (raw raw' : List UInt8) :
    (c.remaining P raw).map unraw = (c.remaining P raw').map unraw := by
  rw [remaining, remaining]
  simp only [map_append]
  congr 2
  split
  · cases c.kind <;> rfl
  · rfl

theorem collect_spec (hraw : orig.take (kind_len kind) = raw)
    (h : Stands P orig raw kind dot c l) (hturns : l.length < turns) :
    c.collect P turns = some l := by
  induction turns generalizing c l with
  | zero => exact absurd hturns (not_lt_zero _)
  | succ turns ih =>
    obtain ⟨c', hnext, h'⟩ := isNext_front hraw h
    rw [collect, hnext]
    cases l with
    | nil => rfl
    | cons x l =>
      simp only [bind_eq_bind, bind_some, head?_cons, ih h' (lt_of_succ_lt_succ hturns)]
      rfl

theorem forall₂_eq_iff (l m : List Component) : List.Forall₂ (fun x y => x.eq y = true) l m ↔
    l.map unraw = m.map unraw := by
  rw [← forall₂_eq_eq_eq, forall₂_map_left_iff, forall₂_map_right_iff]
  simp only [eq_iff]

/-! ## Equality -/

/-- **`==`** of the components. -/
theorem components_eq_spec {p q : List UInt8} {kind kind' : Option Prefix}
    {dot dot' : Bool} (hc : Consistent P p kind dot c) (hd : Consistent P q kind' dot' d)
    (hcp : components P p = some c) (hdq : components P q = some d)
    (hpath : c.path = p) (hpath' : d.path = q) {turns : ℕ} (raw raw' : List UInt8)
    (hturns : (c.remaining P raw).length < turns) :
    ∃ r, Components.eq P turns c d = some r ∧ (r = true ↔
      (c.remaining P raw).map unraw = (d.remaining P raw').map unraw) := by
  rw [Components.eq]
  split
  · next h =>
    -- The paths have the same bytes.
    obtain rfl : p = q := by rw [← hpath, ← hpath', h.2.2.2.2.2]
    obtain rfl : c = d := some.inj (hcp.symm.trans hdq)
    exact ⟨true, rfl, by simpa using remaining_unraw c raw raw'⟩
  have hlen : ((c.remaining P (p.take (kind_len kind + dot.toNat))).reverse).length < turns := by
    have := congrArg length
      (remaining_unraw (P := P) c raw (p.take (kind_len kind + dot.toNat)))
    rw [length_map, length_map] at this
    rwa [length_reverse, ← this]
  obtain ⟨r, hr, hiff⟩ := iter_eq_spec (isNext_back rfl) (isNext_back rfl) Component.eq
    (l := (c.remaining P (p.take (kind_len kind + dot.toNat))).reverse)
    (m := (d.remaining P (q.take (kind_len kind' + dot'.toNat))).reverse)
    ⟨hc, (reverse_reverse _).symm⟩ ⟨hd, (reverse_reverse _).symm⟩ hlen
  refine ⟨r, hr, hiff.trans ?_⟩
  rw [forall₂_eq_iff, map_reverse, map_reverse, reverse_inj,
    remaining_unraw c _ raw, remaining_unraw d _ raw']

/-! ## The shortcut of `cmp` -/

namespace Components

theorem first_difference_cons (a b : UInt8) (l r : List UInt8) :
    first_difference (a :: l) (b :: r) =
      if a = b then (first_difference l r).map (· + 1) else some 0 := by
  rw [first_difference, first_difference, zip_cons_cons, findIdx?_cons]
  by_cases hab : a = b
  · simp only [hab, bne_self_eq_false, Bool.false_eq_true, if_false, if_true, length_cons,
      add_right_cancel_iff]
    cases findIdx? (fun b => b.1 != b.2) (l.zip r) with
    | none =>
      by_cases hlen : l.length = r.length
      · simp [hlen]
      · simp [hlen, succ_min_succ]
    | some i => rfl
  · simp [hab]

/-- **The first difference** of two paths is behind a head that they share. -/
theorem first_difference_spec (l r : List UInt8) : match first_difference l r with
    | none => l = r
    | some n => n ≤ l.length ∧ n ≤ r.length ∧ l.take n = r.take n := by
  induction l generalizing r with
  | nil => cases r <;> simp [first_difference]
  | cons a l ih =>
    cases r with
    | nil => simp [first_difference]
    | cons b r =>
      rw [first_difference_cons]
      by_cases hab : a = b
      · have := ih r
        rw [if_pos hab]
        cases h : first_difference l r with
        | none =>
          rw [h] at this
          exact congrArg₂ _ hab this
        | some n =>
          rw [h] at this
          obtain ⟨hl, hr, htake⟩ := this
          refine ⟨succ_le_succ hl, succ_le_succ hr, ?_⟩
          rw [take_succ_cons, take_succ_cons, hab, htake]
      · rw [if_neg hab]
        exact ⟨zero_le _, zero_le _, rfl⟩

end Components

/-- A state that only `next` has changed. -/
structure FromFront (P : Platform) (c : Components) : Prop where
  back : c.back = .Body
  rooted : c.kind = none → c.front.rank ≤ 1 →
    c.has_physical_root = (c.path.head?.map P.is_sep_byte).getD false

theorem drop_eq_some {n : ℕ} {c' : Components} (h : c.drop n = some c') :
    c' = { c with path := c.path.drop n } := by
  rw [Components.drop, slice_from] at h
  split at h
  · exact (some.inj h).symm
  · cases h

/-- What a turn of `next` changes. -/
theorem fromFront_turn {t : Turn Components (Option Component × Components)}
    (h : FromFront P c) (ht : c.next_turn P = some t) :
    match t with
    | .again c' => FromFront P c'
    | .done r => FromFront P r.2 := by
  obtain ⟨path, kind, root, front, back⟩ := c
  obtain ⟨rfl, hrooted⟩ := h
  have body (path : List UInt8) : FromFront P ⟨path, kind, root, .Body, .Body⟩ :=
    ⟨rfl, fun _ hrank => absurd hrank (Nat.not_succ_le_self 1)⟩
  rw [next_turn] at ht
  split at ht
  · cases ht
    exact ⟨rfl, hrooted⟩
  cases front with
  | Prefix =>
    simp only [Option.bind_eq_bind, Option.bind_eq_some_iff] at ht
    obtain ⟨-, -, ht⟩ := ht
    split at ht
    · cases ht
      exact ⟨rfl, fun hk _ => hrooted hk (Nat.zero_le _)⟩
    · simp only [Option.bind_eq_some_iff, Option.pure_def, Option.some.injEq] at ht
      obtain ⟨-, -, raw, -, parsed, hkind, c', hdrop, rfl⟩ := ht
      obtain rfl := drop_eq_some hdrop
      exact ⟨rfl, fun hk => by cases hkind.symm.trans hk⟩
  | StartDir => 
    dsimp only at ht
    split at ht
    · simp only [Option.bind_eq_bind, Option.bind_eq_some_iff, Option.pure_def,
        Option.some.injEq] at ht
      obtain ⟨-, -, c', hdrop, rfl⟩ := ht
      obtain rfl := drop_eq_some hdrop
      exact body _
    split at ht
    · split at ht
      · cases ht
        exact body _
      · cases ht
        exact body _
    · simp only [Option.bind_eq_bind, Option.bind_eq_some_iff] at ht
      obtain ⟨d, -, ht⟩ := ht
      split at ht
      · simp only [Option.bind_eq_some_iff, Option.pure_def, Option.some.injEq] at ht
        obtain ⟨-, -, c', hdrop, rfl⟩ := ht
        obtain rfl := drop_eq_some hdrop
        exact body _
      · cases ht
        exact body _
  | Body =>
    dsimp only at ht
    split at ht
    · simp only [Option.bind_eq_bind, Option.bind_eq_some_iff] at ht
      obtain ⟨⟨size, comp⟩, -, c', hdrop, ht⟩ := ht
      obtain rfl := drop_eq_some hdrop
      split at ht
      · cases ht
        exact body _
      · cases ht
        exact body _
    · cases ht
      exact ⟨rfl, fun _ hrank => absurd hrank (show ¬ 3 ≤ 1 by decide)⟩
  | Done => cases ht

/-- **What only `next` has changed** is kept by `next`. -/
theorem fromFront_next {c' : Components} {x : Option Component} (h : FromFront P c)
    (hnext : c.next P = some (x, c')) : FromFront P c' :=
  @runLoop_inv _ _ _ (FromFront P) (fun r => FromFront P r.2)
    (fun _ _ h ht => fromFront_turn h ht) (fun _ _ h ht => fromFront_turn h ht) _ _ _ h hnext

/-- A state that stands for `l`, and has been asked at the front only. -/
def FrontStands (P : Platform) (orig raw : List UInt8) (kind : Option Prefix) (dot : Bool)
    (c : Components) (l : List Component) : Prop :=
  Stands P orig raw kind dot c l ∧ FromFront P c

/-- The state after some calls of `next`. -/
theorem run_front (hraw : orig.take (kind_len kind) = raw) (i : ℕ)
    (h : FrontStands P orig raw kind dot c l) :
    ∃ c', run (Components.step P) (replicate i .front) c = some (pops (replicate i .front) l, c') ∧
      FrontStands P orig raw kind dot c' (l.drop i) := by
  have hleft (i : ℕ) (l : List Component) : left (replicate i .front) l = l.drop i := by
    induction i generalizing l with
    | zero => rfl
    | succ i ih =>
      rw [replicate_succ, left, ih, End.rest, drop_tail]
  rw [← hleft]
  refine run_spec (replicate i .front) (fun e he c l hc => ?_) h
  obtain rfl := eq_of_mem_replicate he
  obtain ⟨c', hnext, hc'⟩ := isNext_front hraw hc.1
  exact ⟨c', hnext, hc', fromFront_next hc.2 hnext⟩

variable {c : Components}

/-- Without a prefix, bodies and separators are those of the platform. -/
theorem prefix_verbatim_of_none (hkind : c.kind = none) :
    c.prefix_verbatim P = false := by
  simp [prefix_verbatim, hkind]

theorem is_sep_byte_of_none (hkind : c.kind = none) :
    c.is_sep_byte P = P.is_sep_byte := by
  funext b
  rw [is_sep_byte, prefix_verbatim_of_none hkind, if_neg Bool.false_ne_true]

theorem body_of_none (hc : c.kind = none) (hd : d.kind = none) : body P c = body P d := by
  funext bytes
  have hparse : c.parse_single_component P = d.parse_single_component P := by
    funext comp
    rw [parse_single_component, parse_single_component,
      prefix_verbatim_of_none hc, prefix_verbatim_of_none hd]
  rw [body, body, is_sep_byte_of_none hc, is_sep_byte_of_none hd, hparse]

theorem dots_of_none (hkind : c.kind = none) : c.dots P =
    (! c.has_physical_root && dot_start P.is_sep_byte c.path) := by
  have hremaining : c.prefix_remaining P = 0 := by
    simp [prefix_remaining, prefix_len, hkind]
  rw [dots, has_root, hremaining, is_sep_byte_of_none hkind, hkind]
  simp

/-- What is before the body does not show in the body. -/
theorem body_drop_lead (hkind : c.kind = none) (hrooted : c.front.rank ≤ 1 →
      c.has_physical_root = (c.path.head?.map P.is_sep_byte).getD false) :
    body P c (c.path.drop (c.lead P)) = body P c c.path := by
  have hremaining : c.prefix_remaining P = 0 := by
    simp [prefix_remaining, prefix_len, hkind]
  by_cases hrank : c.front.rank ≤ 1
  · cases hroot : c.has_physical_root with
    | true =>
      have hlead : c.lead P = 1 := by
        simp [lead, hremaining, hrank, hroot, dots_of_root hroot]
      rw [hrooted hrank] at hroot
      rw [hlead]
      cases hpath : c.path with
      | nil => rfl
      | cons b bytes =>
        rw [hpath] at hroot
        have hb : c.is_sep_byte P b = true := by
          rw [is_sep_byte_of_none hkind]
          exact hroot
        rw [body_cons hb, drop_one, tail_cons]
    | false =>
      cases hdots : c.dots P with
      | true =>
        have hlead : c.lead P = 1 := by
          simp [lead, hremaining, hrank, hroot, hdots]
        rw [dots_of_none hkind, Bool.and_eq_true, ← is_sep_byte_of_none hkind] at hdots
        rw [hlead]
        exact (body_dot (prefix_verbatim_of_none hkind) hdots.2).symm
      | false =>
        have hlead : c.lead P = 0 := by
          simp [lead, hremaining, hroot, hdots]
        rw [hlead, drop_zero]
  · rw [lead_of_body (Nat.lt_of_not_le hrank), drop_zero]

/-- The component `.` at the start ends before the first separator. -/
theorem dot_start_append {p : UInt8 → Bool} {b : UInt8} (hb : p b = true) (hdot : p 46 = false)
    (xs l r : List UInt8) : dot_start p (xs ++ b :: l) = dot_start p (xs ++ b :: r) := by
  have hne : b ≠ 46 := by
    rintro rfl
    exact absurd (hb.symm.trans hdot) (by simp)
  rcases xs with _ | ⟨x, _ | ⟨y, xs⟩⟩
  · simp [dot_start, hne]
  · by_cases hx : x = 46
    · subst hx
      rfl
    · simp [dot_start, hx]
  · by_cases hx : x = 46
    · subst hx
      rfl
    · simp [dot_start, hx]

/-- The component before the body of a path without a prefix. -/
def path_start (P : Platform) (path : List UInt8) : List Component :=
  if (path.head?.map P.is_sep_byte).getD false then [.RootDir]
  else if dot_start P.is_sep_byte path then [.CurDir]
  else []

/-- The body of a path without a prefix. -/
def path_body (P : Platform) : List UInt8 → List Component :=
  body P ⟨[], none, false, .Body, .Body⟩

theorem remaining_of_none (hkind : c.kind = none) (h : FromFront P c) (raw : List UInt8) :
    c.remaining P raw = (if c.front.rank ≤ 1 then path_start P c.path else []) ++
      if c.front = .Done then [] else path_body P c.path := by
  have hbody := body_drop_lead hkind (h.rooted hkind)
  rw [body_of_none hkind (d := ⟨[], none, false, .Body, .Body⟩) rfl] at hbody
  have hstart : c.front.rank ≤ 1 → c.start P = path_start P c.path := by
    intro hrank
    rw [Components.start, path_start, dots_of_none hkind, hkind, h.rooted hkind hrank]
    cases (c.path.head?.map P.is_sep_byte).getD false <;> rfl
  rw [remaining, body_of_none hkind (d := ⟨[], none, false, .Body, .Body⟩) rfl, hbody,
    hkind, h.back]
  simp only [map_none, toList_none, ite_self, nil_append, or_true, and_true, ne_eq, ite_not]
  congr 1
  split
  · next hrank => exact hstart hrank
  · rfl

/-- **A shared head** that ends in a separator is a shared head of the components. -/
theorem remaining_append {xs ls rs : List UInt8} {b : UInt8}
    (hb : P.is_sep_byte b = true) (hc : FromFront P c) (hd : FromFront P d) (hkind : c.kind = none)
    (hkind' : d.kind = none) (hfront : c.front = d.front) (hne : c.front ≠ .Done)
    (hleft : c.path = xs ++ b :: ls) (hright : d.path = xs ++ b :: rs) (raw raw' : List UInt8) :
    ∃ common, c.remaining P raw = common ++ path_body P ls ∧
      d.remaining P raw' = common ++ path_body P rs := by
  have happend (ls : List UInt8) : path_body P (xs ++ b :: ls) = path_body P xs ++ path_body P ls :=
    body_append_cons (by rwa [is_sep_byte_of_none rfl]) xs ls
  have hstart : path_start P (xs ++ b :: ls) = path_start P (xs ++ b :: rs) := by
    have hdot : P.is_sep_byte 46 = false := by cases P <;> rfl
    rw [path_start, path_start, dot_start_append hb hdot xs ls rs]
    cases xs <;> rfl
  refine ⟨(if c.front.rank ≤ 1 then path_start P (xs ++ b :: ls) else []) ++ path_body P xs, ?_, ?_⟩
  · rw [remaining_of_none hkind hc, hleft, if_neg hne, happend, append_assoc]
  · rw [remaining_of_none hkind' hd, hright, ← hfront, if_neg hne, happend, hstart, append_assoc]

theorem compareLex_append (common l m : List Component) :
    List.compareLex Component.cmp (common ++ l) (common ++ m) =
      List.compareLex Component.cmp l m := by
  induction common with
  | nil => rfl
  | cons x common ih =>
    rw [cons_append, cons_append, List.compareLex_cons_cons, cmp_self, ih]
    rfl

/-- **`cmp`**, also of partly consumed components. -/
theorem compare_components_spec {p q raw' : List UInt8} {kind' : Option Prefix} {dot' : Bool}
    {l m : List Component}
    (hraw : p.take (kind_len kind) = raw) (hraw' : q.take (kind_len kind') = raw')
    (hc : FrontStands P p raw kind dot c l) (hd : FrontStands P q raw' kind' dot' d m)
    (hturns : l.length < turns) :
    compare_components P turns c d = some (List.compareLex Component.cmp l m) := by
  have hslow : iter_cmp (Components.next P) (Components.next P) Component.cmp turns c d =
      some (List.compareLex Component.cmp l m) :=
    iter_cmp_spec (isNext_front hraw) (isNext_front hraw') _ hc.1 hd.1 hturns
  rw [compare_components]
  split
  swap
  · exact hslow
  next hfast =>
  obtain ⟨hkind, hkind', hfront⟩ := hfast
  have hdiff := first_difference_spec c.path d.path
  cases h : first_difference c.path d.path with
  | none =>
    -- The two iterators have the same bytes before them.
    rw [h] at hdiff
    have hlm : l = m := by
      rw [← hc.1.2, ← hd.1.2, remaining_of_none hkind hc.2, remaining_of_none hkind' hd.2, hdiff,
        hfront]
    have := compareLex_append l [] []
    rw [append_nil] at this
    rw [← hlm, this]
    rfl
  | some n =>
    rw [h] at hdiff
    obtain ⟨hn, hn', htake⟩ := hdiff
    simp only [slice_to_eq hn, bind_eq_bind, bind_some]
    rw [is_sep_byte_of_none hkind]
    rcases split_right P.is_sep_byte (c.path.take n) with
      ⟨hnone, -⟩ | ⟨xs, b, ys, hsome, heq, hb, -⟩
    · rw [hnone]
      exact hslow
    -- Both paths begin with the bytes up to the separator.
    have hleft : c.path = xs ++ b :: (ys ++ c.path.drop n) := by
      rw [← cons_append, ← append_assoc, ← heq, take_append_drop]
    have hright : d.path = xs ++ b :: (ys ++ d.path.drop n) := by
      rw [← cons_append, ← append_assoc, ← heq, htake, take_append_drop]
    have hslice {path rest : List UInt8} (hpath : path = xs ++ b :: rest) :
        slice_from path (xs.length + 1) = some rest := by
      rw [hpath, slice_from_eq (by simp), ← drop_drop, drop_left]
      rfl
    have hne : c.front ≠ .Done := by
      intro hdone
      have hnil := hc.1.1.front_done hdone
      rw [hleft] at hnil
      exact absurd hnil (by simp)
    have hbody {orig raw rest : List UInt8} {kind : Option Prefix} {dot : Bool}
        {c : Components} {l : List Component} (h : FrontStands P orig raw kind dot c l)
        (hnone : c.kind = none) :
        Stands P orig raw kind dot { c with path := rest, front := .Body } (path_body P rest) := by
      obtain ⟨path, kind', root, front, back⟩ := c
      obtain rfl : kind' = none := hnone
      obtain rfl : none = kind := h.1.1.kind_eq
      obtain rfl : back = .Body := h.2.back
      have hfront : FromFront P ⟨rest, none, root, .Body, .Body⟩ :=
        ⟨rfl, fun _ hrank => absurd hrank (Nat.not_succ_le_self 1)⟩
      exact ⟨consistent_body h.1.1 rest (Nat.lt_succ_self 1) nofun,
        remaining_of_none rfl hfront raw⟩
    obtain ⟨common, hl, hm⟩ := remaining_append hb hc.2 hd.2 hkind hkind' hfront hne hleft hright
      raw raw'
    rw [hc.1.2] at hl
    rw [hd.1.2] at hm
    rw [hsome]
    simp only
    rw [hslice hleft, bind_some, hslice hright, bind_some, hl, hm, compareLex_append]
    refine iter_cmp_spec (isNext_front hraw) (isNext_front hraw') _ (hbody hc hkind)
      (hbody hd hkind') ?_
    rw [hl, length_append] at hturns
    exact Nat.lt_of_le_of_lt (Nat.le_add_left _ _) hturns

end RustStd.Path
