import RustStd.BTree.Sets

/-!
# Set operations

Each iterator over two sets stands for the list of the elements that it has still to give
(`Differing`, `Intersecting`, `Aligning`), whatever way it goes; the list is made of what the
iterators below it have left, so that the size hint, which is made of their lengths, bounds it at
any time.
-/

namespace RustStd.BTree

open Sorted List Nat Option Bool DifferenceInner Std.TransCmp

variable {T : Type} {cmp : T → T → Ordering} {la lb : List T}

/-! ## Sets and their iterators -/

/-- What an iterator over a set has left. -/
def Gives (self : Keys T Unit) (l : List T) : Prop :=
  ∃ kvs, Iterating self.inner kvs ∧ kvs.map Prod.fst = l

namespace Gives

variable {self : Keys T Unit} {l : List T}

theorem next : IsNext Gives (Keys.next (K := T) (V := Unit)) := by
  rintro self _ ⟨kvs, h, rfl⟩
  obtain ⟨inner, hnext, h'⟩ := iter_next h
  refine ⟨⟨inner⟩, ?_, kvs.tail, h', map_tail⟩
  unfold Keys.next
  rw [hnext, some_bind]
  rw [head?_map]

theorem next_back (h : Gives self l) : Yields Gives self.next_back l.getLast? l.dropLast := by
  obtain ⟨kvs, h, rfl⟩ := h
  obtain ⟨inner, hnext, h'⟩ := iter_next_back h
  refine ⟨⟨inner⟩, ?_, kvs.dropLast, h', map_dropLast⟩
  unfold Keys.next_back
  rw [hnext, some_bind]
  rw [getLast?_map]

theorem len (h : Gives self l) : self.len = l.length := by
  obtain ⟨kvs, h, rfl⟩ := h
  rw [Keys.len, h.length, length_map]

end Gives

namespace BTreeSet

/-- The invariants of a set. -/
def Valid (cmp : T → T → Ordering) (s : BTreeSet T) : Prop := s.map.Valid cmp

variable {s : BTreeSet T}

variable (h : s.Valid cmp)
include h

theorem Valid.ascends : Ascends cmp s.elements :=
  pairwise_map.mpr h.ascending

theorem Valid.len : s.len = s.elements.length := by
  rw [BTreeSet.len, h.length, elements, length_map]

theorem Valid.iter : Gives s.iter s.elements := ⟨_, BTreeMap.iter_spec h, rfl⟩

theorem Valid.first : s.first = some s.elements.head? := by
  unfold BTreeSet.first
  rw [first_key_value_spec h, some_bind, elements, head?_map]

theorem Valid.last : s.last = some s.elements.getLast? := by
  unfold BTreeSet.last
  rw [last_key_value_spec h, some_bind, elements, getLast?_map]

theorem Valid.contains [Std.TransCmp cmp] (value : T) :
    s.contains cmp value = some (has cmp s.elements value) := by
  have hagrees : Agrees (fun a b => cmp a b = .lt) cmp := Agrees.of_borrow cmp id
  unfold BTreeSet.contains
  rw [contains_key_spec hagrees h, has, elements, List.any_map]
  rfl

end BTreeSet

open BTreeSet

/-! ## What an iterator delivers -/

/-- `n` calls of `next`. -/
def calls {S : Type} (next : S → Option (Option T × S)) (n : ℕ) (s : S) :
    Option (List (Option T) × S) :=
  runCalls (fun _ : Unit => next) (replicate n ()) s

/-- After any number of calls the answers were the elements of `l` in order, then `None`, and the
size hint bounds the number of those that are left. -/
def Delivers {S : Type} (next : S → Option (Option T × S)) (size_hint : S → Option (ℕ × Option ℕ))
    (s : S) (l : List T) : Prop :=
  ∀ n, ∃ s' lower upper, calls next n s = some ((range n).map (l[·]?), s') ∧
    size_hint s' = some (lower, some upper) ∧ lower ≤ l.length - n ∧ l.length - n ≤ upper

theorem Delivers.of_next {S : Type} {next : S → Option (Option T × S)}
    {size_hint : S → Option (ℕ × Option ℕ)} {R : S → List T → Prop} (hnext : IsNext R next)
    (hhint : ∀ s l, R s l → ∃ lower upper, size_hint s = some (lower, some upper) ∧
      lower ≤ l.length ∧ l.length ≤ upper) {s : S} {l : List T} (hs : R s l) :
    Delivers next size_hint s l := by
  have hrun : ∀ (n : ℕ) (s : S) (l : List T), R s l →
      ∃ s', calls next n s = some ((range n).map (l[·]?), s') ∧ R s' (l.drop n) := by
    intro n
    induction n with
    | zero => exact fun s l hs => ⟨s, rfl, hs⟩
    | succ n ih =>
      intro s l hs
      obtain ⟨s₁, hcall, hs₁⟩ := hnext hs
      obtain ⟨s', hrun, hs'⟩ := ih s₁ l.tail hs₁
      refine ⟨s', ?_, ?_⟩
      · unfold calls at hrun ⊢
        rw [replicate_succ, runCalls, hcall, some_bind]
        dsimp only
        rw [hrun, range_succ_eq_map, map_cons, List.map_map]
        have hhead : l.head? = l[0]? := by cases l <;> rfl
        have htail : (fun i => l.tail[i]?) = (fun i => l[i]?) ∘ succ := by
          funext i
          cases l <;> simp
        rw [hhead, htail]
        rfl
      · rwa [drop_tail] at hs'
  intro n
  obtain ⟨s', hcalls, hs'⟩ := hrun n s l hs
  obtain ⟨lower, upper, hsize, hlower, hupper⟩ := hhint s' _ hs'
  rw [length_drop] at hlower hupper
  exact ⟨s', lower, upper, hcalls, hsize, hlower, hupper⟩

/-- The iterator that an operation makes delivers an ascending list of the keys that `p` tells. -/
def Results {S : Type} (cmp : T → T → Ordering) (next : S → Option (Option T × S))
    (size_hint : S → Option (ℕ × Option ℕ)) (made : Option S) (p : T → Bool) : Prop :=
  ∃ s l, made = some s ∧ Ascends cmp l ∧ (∀ k, has cmp l k = p k) ∧ Delivers next size_hint s l

/-- The loop for the next element that `p` tells. -/
theorem search_loop_spec {S : Type} {R : S → List T → Prop} {mk : Keys T Unit → S} {p : T → Bool}
    {turn : Keys T Unit → Option (Turn (Keys T Unit) (Option T × S))} {self_iter : Keys T Unit}
    (hmk : ∀ {it l}, Gives it l → Ascends cmp l → R (mk it) (l.filter p))
    (hturn : ∀ {it it' o}, it.next = some (o, it') → turn it = some (match o with
      | none => .done (none, mk it')
      | some x => if p x then .done (some x, mk it') else .again it'))
    (hself : Gives self_iter la) (ha : Ascends cmp la) {n : ℕ} (hn : la.length < n) :
    Yields R (runLoop turn n self_iter) (la.filter p).head? (la.filter p).tail := by
  induction la generalizing self_iter n with
  | nil =>
    obtain ⟨n, rfl⟩ := exists_eq_add_one.mpr hn
    obtain ⟨self', hnext, hself'⟩ := Gives.next hself
    rw [runLoop, hturn hnext]
    exact ⟨_, rfl, hmk hself' ha⟩
  | cons x la ih =>
    obtain ⟨n, rfl⟩ := exists_eq_add_one.mpr (zero_lt_of_lt hn)
    obtain ⟨self', hnext, hself'⟩ := Gives.next hself
    obtain ⟨-, ha'⟩ := ascends_cons.mp ha
    rw [runLoop, hturn hnext]
    dsimp only [head?_cons]
    cases hp : p x with
    | true =>
      rw [filter_cons_of_pos hp]
      exact ⟨_, rfl, hmk hself' ha'⟩
    | false =>
      rw [filter_cons_of_neg (by rw [hp]; exact false_ne_true)]
      exact ih hself' ha' (lt_of_succ_lt_succ hn)

/-- The choice of a way to go, by the ends of both sets. -/
theorem ends_spec [Std.TransCmp cmp] {S : Type} {Q : Option S → Prop} {a b : BTreeSet T}
    {apart other : Option S} (first last : T → Option S) (ha : a.Valid cmp) (hb : b.Valid cmp)
    (hapart : (∀ x ∈ a.elements, has cmp b.elements x = false) → Q apart)
    (hfirst : ∀ x l, a.elements = x :: l → has cmp b.elements x = true →
      (∀ z ∈ l, has cmp b.elements z = false) → Q (first x))
    (hlast : ∀ l x, a.elements = l ++ [x] → has cmp b.elements x = true →
      (∀ z ∈ l, has cmp b.elements z = false) → Q (last x)) (hother : Q other) :
    Q (do
      match ← a.first, ← a.last, ← b.first, ← b.last with
      | some self_min, some self_max, some other_min, some other_max =>
        match cmp self_min other_max, cmp self_max other_min with
        | .gt, _ => apart
        | _, .lt => apart
        | .eq, _ => first self_min
        | _, .eq => last self_max
        | _, _ => other
      | _, _, _, _ => apart) := by
  have hasc := ha.ascends
  have hbsc := hb.ascends
  rw [ha.first, ha.last, hb.first, hb.last, some_bind]
  simp only [some_bind]
  by_cases hnil : a.elements = []
  · rw [hnil] at hapart ⊢
    exact hapart nofun
  obtain ⟨x₀, hx₀⟩ : ∃ x, a.elements.head? = some x := ⟨_, head?_eq_some_head hnil⟩
  obtain ⟨x₁, hx₁⟩ : ∃ x, a.elements.getLast? = some x := ⟨_, getLast?_eq_some_getLast hnil⟩
  rw [hx₀, hx₁]
  by_cases hnil' : b.elements = []
  · rw [hnil'] at hapart ⊢
    exact hapart fun _ _ => rfl
  obtain ⟨y₀, hy₀⟩ : ∃ y, b.elements.head? = some y := ⟨_, head?_eq_some_head hnil'⟩
  obtain ⟨y₁, hy₁⟩ : ∃ y, b.elements.getLast? = some y := ⟨_, getLast?_eq_some_getLast hnil'⟩
  rw [hy₀, hy₁]
  dsimp only
  cases h₁ : cmp x₀ y₁ with
  | gt => exact hapart (apart_of_gt hasc hbsc hx₀ hy₁ h₁)
  | eq =>
    cases h₂ : cmp x₁ y₀ with
    | lt => exact hapart (apart_of_lt hasc hbsc hx₁ hy₀ h₂)
    | eq | gt =>
      obtain ⟨hin, hout⟩ := touch_first hasc hbsc hx₀ hy₁ h₁
      exact hfirst x₀ _ (eq_cons_of_mem_head? hx₀) hin hout
  | lt =>
    cases h₂ : cmp x₁ y₀ with
    | lt => exact hapart (apart_of_lt hasc hbsc hx₁ hy₀ h₂)
    | eq =>
      obtain ⟨hin, hout⟩ := touch_last hasc hbsc hx₁ hy₀ h₂
      exact hlast _ x₁ (dropLast_append_getLast? x₁ hx₁).symm hin hout
    | gt => exact hother

/-! ## Difference -/

section Difference

variable [Std.TransCmp cmp] {usizeMax : ℕ} {self_iter : Keys T Unit}
  {other_iter : Iter.Peekable (Keys T Unit) T} {n : ℕ} {x : T}

/-- The elements of an iterator that was peeked at. -/
def Peeks (self : Iter.Peekable (Keys T Unit) T) (l : List T) : Prop :=
  Iter.Peekable.Stands Gives self l

theorem Peeks.peek (usizeMax : ℕ) (h : Peeks other_iter lb) :
    ∃ other_iter', other_iter.peek (Keys.iterator usizeMax) = some (lb.head?, other_iter') ∧
      Peeks other_iter' lb :=
  @Iter.Peekable.peek_spec _ _ _ _ (Keys.iterator usizeMax) _ Gives.next h

theorem Peeks.next (usizeMax : ℕ) (h : Peeks other_iter lb) :
    ∃ other_iter', other_iter.next (Keys.iterator usizeMax) = some (lb.head?, other_iter') ∧
      Peeks other_iter' lb.tail :=
  @Iter.Peekable.next_spec _ _ _ (Keys.iterator usizeMax) Gives.next _ _ h

theorem Peeks.len (h : Peeks other_iter lb) (hle : lb.length ≤ usizeMax) :
    Iter.Provided.len (Iter.Peekable.size_hint usizeMax (Keys.iterator usizeMax)) other_iter =
      some lb.length := by
  have hexact : ∀ (s : Iter.Peekable (Keys T Unit) T) (k n : ℕ), s.iter.len = n →
      n + k ≤ usizeMax → Iter.Peekable.size_hint.hinted usizeMax (Keys.iterator usizeMax) s k =
        (n + k, some (n + k)) := by
    rintro s k _ rfl hle
    simp [Iter.Peekable.size_hint.hinted, Keys.iterator, Keys.size_hint,
      Iter.FlattenCompat.saturating_add, Iter.FlattenCompat.checked_add, hle]
  have hlen : ∀ {hint : ℕ × Option ℕ}, hint = (lb.length, some lb.length) →
      (if hint.2 = some hint.1 then some hint.1 else none) = some lb.length := by
    rintro _ rfl
    exact if_pos rfl
  unfold Iter.Provided.len
  apply hlen
  cases h with
  | unpeeked hl => exact hexact _ 0 _ hl.len hle
  | peeked x hl => exact hexact _ 1 _ hl.len hle
  | exhausted hl => rfl

/-- What the iterator of a difference has still to give. -/
inductive Differing (cmp : T → T → Ordering) (usizeMax : ℕ) : DifferenceInner T → List T → Prop
  | stitch {self_iter : Keys T Unit} {other_iter : Iter.Peekable (Keys T Unit) T} {la lb : List T} :
    Gives self_iter la → Peeks other_iter lb → Ascends cmp la → Ascends cmp lb →
    lb.length ≤ usizeMax →
    Differing cmp usizeMax (.Stitch self_iter other_iter) (la.filter fun x => !has cmp lb x)
  | search {self_iter : Keys T Unit} {other_set : BTreeSet T} {la : List T} :
    Gives self_iter la → other_set.Valid cmp → Ascends cmp la →
    Differing cmp usizeMax (.Search self_iter other_set)
      (la.filter fun x => !has cmp other_set.elements x)
  | iterate {iter : Keys T Unit} {la : List T} : Gives iter la →
    Differing cmp usizeMax (.Iterate iter) la

/-- The walk over both sets stops at the next element of the first alone. -/
theorem difference_stitch_loop (hself : Gives self_iter la) (hother : Peeks other_iter lb)
    (ha : Ascends cmp (x :: la)) (hb : Ascends cmp lb) (hmax : lb.length ≤ usizeMax)
    (hn : lb.length < n) :
    Yields (Differing cmp usizeMax)
      (runLoop (stitch_turn cmp usizeMax) n (x, self_iter, other_iter))
      ((x :: la).filter fun x => !has cmp lb x).head?
      ((x :: la).filter fun x => !has cmp lb x).tail := by
  induction lb generalizing x la self_iter other_iter n with
  | nil =>
    obtain ⟨n, rfl⟩ := exists_eq_add_one.mpr hn
    obtain ⟨other', hpeek, hother'⟩ := hother.peek usizeMax
    rw [runLoop]
    unfold stitch_turn
    dsimp only
    rw [hpeek, some_bind]
    exact ⟨_, rfl, .stitch hself hother' (ascends_cons.mp ha).2 hb hmax⟩
  | cons y lb ih =>
    obtain ⟨n, rfl⟩ := exists_eq_add_one.mpr (zero_lt_of_lt hn)
    obtain ⟨other₁, hpeek, hother₁⟩ := hother.peek usizeMax
    obtain ⟨other₂, hnext, hother₂⟩ := hother₁.next usizeMax
    obtain ⟨-, ha'⟩ := ascends_cons.mp ha
    obtain ⟨-, hb'⟩ := ascends_cons.mp hb
    have hmax' : lb.length ≤ usizeMax := le_of_succ_le hmax
    have hn' : lb.length < n := lt_of_succ_lt_succ hn
    rw [runLoop]
    unfold stitch_turn
    dsimp only
    rw [hpeek, some_bind]
    dsimp only [head?_cons, elim_some]
    cases hxy : cmp x y with
    | lt =>
      rw [filter_cons_of_pos (by rw [hb.has_of_lt_head hxy]; rfl)]
      exact ⟨_, rfl, .stitch hself hother₁ ha' hb hmax⟩
    | eq =>
      have hin : has cmp (y :: lb) x = true := by
        rw [has_cons, hxy]
        rfl
      rw [filter_cons_of_neg (by rw [hin]; exact false_ne_true)]
      obtain ⟨self', hself', hgives⟩ := Gives.next hself
      rw [hself', some_bind]
      cases la with
      | nil => exact ⟨_, rfl, .stitch hgives hother₁ ha' hb hmax⟩
      | cons x' la =>
        dsimp only [head?_cons, tail_cons] at hgives ⊢
        rw [hnext, some_bind, filter_not_has_cons (ha.lt_of_eq_head hxy)]
        exact ih hgives hother₂ ha' hb' hmax' hn'
    | gt =>
      rw [hnext, some_bind, filter_not_has_cons (ha.lt_of_gt_head hxy)]
      exact ih hself hother₂ ha hb' hmax' hn'

theorem Peeks.length_le (h : Peeks other_iter lb) : lb.length ≤ other_iter.iter.len + 1 := by
  cases h with
  | unpeeked h => rw [h.len]; omega
  | peeked x h => rw [length_cons, h.len]
  | exhausted h => exact zero_le _

theorem difference_next : IsNext (Differing cmp usizeMax) (DifferenceInner.next cmp usizeMax) := by
  intro s l h
  unfold DifferenceInner.next
  cases h with
  | @stitch self_iter other_iter la lb hself hother ha hb hmax =>
    obtain ⟨self', hnext, hself'⟩ := Gives.next hself
    dsimp only
    rw [hnext, some_bind]
    cases la with
    | nil => exact ⟨_, rfl, .stitch hself' hother ha hb hmax⟩
    | cons x la =>
      exact difference_stitch_loop hself' hother ha hb hmax
        (lt_succ_of_le hother.length_le)
  | @search self_iter other_set la hself hother ha =>
    refine search_loop_spec (fun h h' => .search h hother h') (fun {_ _ o} hnext => ?_) hself ha
      (by rw [hself.len]; exact lt_succ_self _)
    unfold search_turn
    rw [hnext, some_bind]
    cases o with
    | none => rfl
    | some x =>
      dsimp only
      rw [hother.contains, apply_ite some]
      rfl
  | @iterate iter la hiter =>
    obtain ⟨iter', hnext, hiter'⟩ := Gives.next hiter
    dsimp only
    rw [hnext, some_bind]
    exact ⟨_, rfl, .iterate hiter'⟩

/-- Those that are left are no fewer than the rest of the other list leaves of them. -/
theorem length_filter_not_has (ha : Ascends cmp la) (lb : List T) :
    la.length - lb.length ≤ (la.filter fun x => !has cmp lb x).length ∧
      (la.filter fun x => !has cmp lb x).length ≤ la.length := by
  have hle := length_filter_has_le ha lb
  have hadd := length_eq_length_filter_add (l := la) (has cmp lb)
  exact ⟨by omega, length_filter_le _ _⟩

theorem difference_size_hint {s : DifferenceInner T} {l : List T} (h : Differing cmp usizeMax s l) :
    ∃ lower upper, s.size_hint usizeMax = some (lower, some upper) ∧
      lower ≤ l.length ∧ l.length ≤ upper := by
  cases h with
  | @stitch self_iter other_iter la lb hself hother ha hb hmax =>
    refine ⟨la.length - lb.length, la.length, ?_, length_filter_not_has ha lb⟩
    unfold size_hint
    dsimp only
    rw [hother.len hmax, hself.len]
    rfl
  | @search self_iter other_set la hself hother ha =>
    refine ⟨la.length - other_set.elements.length, la.length, ?_, length_filter_not_has ha _⟩
    unfold size_hint
    dsimp only
    rw [hother.len, hself.len]
    rfl
  | @iterate iter la hiter =>
    refine ⟨l.length, l.length, ?_, le_rfl, le_rfl⟩
    unfold size_hint
    dsimp only
    rw [hiter.len]
    rfl

end Difference

/-- **The difference of two sets.** -/
theorem difference_spec [Std.TransCmp cmp] {a b : BTreeSet T} {usizeMax : ℕ} (ha : a.Valid cmp)
    (hb : b.Valid cmp) (hmax : b.len ≤ usizeMax) : ∃ s, a.difference cmp b = some s ∧
      Differing cmp usizeMax s (a.elements.filter fun x => !has cmp b.elements x) := by
  rw [hb.len] at hmax
  refine ends_spec (Q := fun o => ∃ s, o = some s ∧
      Differing cmp usizeMax s (a.elements.filter fun x => !has cmp b.elements x))
    (fun _ => do some (.Iterate (← a.iter.next).2))
    (fun _ => do some (.Iterate (← a.iter.next_back).2)) ha hb (fun hout => ?_)
    (fun x l hl hin hout => ?_) (fun l x hl hin hout => ?_) ?_
  · rw [filter_eq_self.mpr fun x hx => by rw [hout x hx]; rfl]
    exact ⟨_, rfl, .iterate ha.iter⟩
  · obtain ⟨iter, hnext, hiter⟩ := Gives.next ha.iter
    rw [hnext, some_bind, hl, filter_cons_of_neg (by rw [hin]; exact false_ne_true),
      filter_eq_self.mpr fun x hx => by rw [hout x hx]; rfl]
    rw [hl] at hiter
    exact ⟨_, rfl, .iterate hiter⟩
  · obtain ⟨iter, hnext, hiter⟩ := ha.iter.next_back
    rw [hnext, some_bind, hl, filter_append, filter_eq_self.mpr fun x hx => by rw [hout x hx]; rfl,
      filter_cons_of_neg (by rw [hin]; exact false_ne_true), filter_nil, append_nil]
    rw [hl, dropLast_concat] at hiter
    exact ⟨_, rfl, .iterate hiter⟩
  · split_ifs
    · exact ⟨_, rfl, .search ha.iter hb ha.ascends⟩
    · exact ⟨_, rfl, .stitch ha.iter (.unpeeked hb.iter) ha.ascends hb.ascends hmax⟩

/-! ## Intersection -/

section Intersection

variable [Std.TransCmp cmp] {a b : Keys T Unit} {small_iter : Keys T Unit} {n : ℕ} {x y : T}

/-- What the iterator of an intersection has still to give. -/
inductive Intersecting (cmp : T → T → Ordering) : IntersectionInner T → List T → Prop
  | stitch {a b : Keys T Unit} {la lb : List T} : Gives a la → Gives b lb → Ascends cmp la →
    Ascends cmp lb → Intersecting cmp (.Stitch a b) (la.filter (has cmp lb))
  | search {small_iter : Keys T Unit} {large_set : BTreeSet T} {l : List T} :
    Gives small_iter l → large_set.Valid cmp → Ascends cmp l →
    Intersecting cmp (.Search small_iter large_set) (l.filter (has cmp large_set.elements))
  | answer (answer : Option T) : Intersecting cmp (.Answer answer) answer.toList

omit [Std.TransCmp cmp] in
theorem Intersecting.stitch_nil (hga : Gives a la) (hgb : Gives b []) (ha : Ascends cmp la) :
    Intersecting cmp (.Stitch a b) [] := by
  have h := stitch hga hgb ha .nil
  rwa [filter_has_nil] at h

/-- The walk over both sets stops at the next element of both. -/
theorem intersection_stitch_loop (hga : Gives a la) (hgb : Gives b lb) (ha : Ascends cmp (x :: la))
    (hb : Ascends cmp (y :: lb)) (hn : la.length + lb.length < n) :
    Yields (Intersecting cmp) (runLoop (IntersectionInner.stitch_turn cmp) n (x, y, a, b))
      ((x :: la).filter (has cmp (y :: lb))).head? ((x :: la).filter (has cmp (y :: lb))).tail := by
  induction n generalizing x y la lb a b with
  | zero => exact absurd hn (not_lt_zero _)
  | succ n ih =>
    obtain ⟨-, ha'⟩ := ascends_cons.mp ha
    obtain ⟨-, hb'⟩ := ascends_cons.mp hb
    rw [runLoop]
    unfold IntersectionInner.stitch_turn
    dsimp only
    cases hxy : cmp x y with
    | lt =>
      obtain ⟨a', hnext, hga'⟩ := Gives.next hga
      rw [filter_cons_of_neg (by rw [hb.has_of_lt_head hxy]; exact false_ne_true)]
      rw [hnext, some_bind]
      cases la with
      | nil => exact ⟨_, rfl, .stitch hga' hgb ha' hb'⟩
      | cons x' la =>
        refine ih hga' hgb ha' hb ?_
        simp only [length_cons] at hn
        omega
    | eq =>
      have hin : has cmp (y :: lb) x = true := by
        rw [has_cons, hxy]
        rfl
      rw [filter_cons_of_pos hin, filter_has_cons (ha.lt_of_eq_head hxy)]
      exact ⟨_, rfl, .stitch hga hgb ha' hb'⟩
    | gt =>
      obtain ⟨b', hnext, hgb'⟩ := Gives.next hgb
      rw [filter_has_cons (ha.lt_of_gt_head hxy)]
      rw [hnext, some_bind]
      cases lb with
      | nil =>
        rw [filter_has_nil]
        exact ⟨_, rfl, .stitch_nil hga hgb' ha'⟩
      | cons y' lb =>
        refine ih hga hgb' ha hb' ?_
        simp only [length_cons] at hn
        omega

theorem intersection_next : IsNext (Intersecting cmp) (IntersectionInner.next cmp) := by
  intro s l h
  unfold IntersectionInner.next
  cases h with
  | @stitch a b la lb hga hgb ha hb =>
    obtain ⟨a', hnext, hga'⟩ := Gives.next hga
    obtain ⟨b', hnext', hgb'⟩ := Gives.next hgb
    dsimp only
    rw [hnext, some_bind]
    cases la with
    | nil => exact ⟨_, rfl, .stitch hga' hgb ha hb⟩
    | cons x la =>
      dsimp only [head?_cons]
      rw [hnext', some_bind]
      cases lb with
      | nil =>
        rw [filter_has_nil]
        exact ⟨_, rfl, .stitch_nil hga' hgb' (ascends_cons.mp ha).2⟩
      | cons y lb =>
        refine intersection_stitch_loop hga' hgb' ha hb ?_
        rw [hga'.len, hgb'.len]
        exact lt_succ_self _
  | @search small_iter large_set la hsmall hlarge ha =>
    refine search_loop_spec (fun h h' => .search h hlarge h') (fun {_ _ o} hnext => ?_) hsmall ha
      (by rw [hsmall.len]; exact lt_succ_self _)
    unfold IntersectionInner.search_turn
    rw [hnext, some_bind]
    cases o with
    | none => rfl
    | some x =>
      dsimp only
      rw [hlarge.contains, apply_ite some]
      rfl
  | answer answer =>
    cases answer with
    | none | some => exact ⟨_, rfl, .answer none⟩

theorem intersection_size_hint {s : IntersectionInner T} {l : List T} (h : Intersecting cmp s l) :
    ∃ lower upper, some s.size_hint = some (lower, some upper) ∧ lower ≤ l.length ∧
      l.length ≤ upper := by
  cases h with
  | @stitch a b la lb hga hgb ha hb =>
    refine ⟨0, min a.len b.len, rfl, zero_le _, ?_⟩
    rw [hga.len, hgb.len]
    exact Nat.le_min.mpr ⟨length_filter_le _ _, length_filter_has_le ha lb⟩
  | @search small_iter large_set la hsmall hlarge ha =>
    refine ⟨0, small_iter.len, rfl, zero_le _, ?_⟩
    rw [hsmall.len]
    exact length_filter_le _ _
  | answer answer =>
    cases answer with
    | none => exact ⟨0, 0, rfl, le_rfl, le_rfl⟩
    | some x => exact ⟨1, 1, rfl, le_rfl, le_rfl⟩

end Intersection

/-- **The intersection of two sets.** -/
theorem intersection_spec [Std.TransCmp cmp] {a b : BTreeSet T} (ha : a.Valid cmp)
    (hb : b.Valid cmp) : ∃ s l, a.intersection cmp b = some s ∧ Intersecting cmp s l ∧
      Ascends cmp l ∧ ∀ k, has cmp l k = (has cmp a.elements k && has cmp b.elements k) := by
  have hasc := ha.ascends
  have hbsc := hb.ascends
  have hkeep : Ascends cmp (a.elements.filter (has cmp b.elements)) :=
    hasc.sublist filter_sublist
  have hset : ∀ k, has cmp (a.elements.filter (has cmp b.elements)) k =
      (has cmp a.elements k && has cmp b.elements k) := has_filter_has a.elements b.elements
  have hnone {l : List T} (hout : ∀ x ∈ l, has cmp b.elements x = false) :
      l.filter (has cmp b.elements) = [] :=
    filter_eq_nil_iff.mpr fun x hx => by rw [hout x hx]; exact false_ne_true
  refine ends_spec (Q := fun o => ∃ s l, o = some s ∧ Intersecting cmp s l ∧ Ascends cmp l ∧
      ∀ k, has cmp l k = (has cmp a.elements k && has cmp b.elements k))
    (fun x => some (.Answer (some x))) (fun x => some (.Answer (some x))) ha hb (fun hout => ?_)
    (fun x l hl hin hout => ?_) (fun l x hl hin hout => ?_) ?_
  · rw [hnone hout] at hset
    exact ⟨_, _, rfl, .answer none, .nil, hset⟩
  · have hone : a.elements.filter (has cmp b.elements) = [x] := by
      rw [hl, filter_cons_of_pos hin, hnone hout]
    rw [hone] at hset
    exact ⟨_, _, rfl, .answer (some x), pairwise_singleton _ x, hset⟩
  · have hone : a.elements.filter (has cmp b.elements) = [x] := by
      rw [hl, filter_append, hnone hout, filter_cons_of_pos hin, filter_nil, nil_append]
    rw [hone] at hset
    exact ⟨_, _, rfl, .answer (some x), pairwise_singleton _ x, hset⟩
  · split_ifs
    · exact ⟨_, _, rfl, .search ha.iter hb hasc, hkeep, hset⟩
    · refine ⟨_, _, rfl, .search hb.iter ha hbsc, hbsc.sublist filter_sublist, fun k => ?_⟩
      rw [has_filter_has, Bool.and_comm]
    · exact ⟨_, _, rfl, .stitch ha.iter hb.iter hasc hbsc, hkeep, hset⟩

/-! ## Union and symmetric difference -/

/-- The elements of both sources that are left, taken together. -/
def Aligning (cmp : T → T → Ordering) (s : SetMerge T) (l : List (Joined T)) : Prop :=
  ∃ la lb, Merging Gives s la lb ∧ align cmp la lb = l

theorem Aligning.nexts {s : SetMerge T} {l : List (Joined T)} (h : Aligning cmp s l) :
    ∃ s', s.nexts Keys.next cmp = some (halves l.head?, s') ∧ Aligning cmp s' l.tail := by
  obtain ⟨la, lb, hm, rfl⟩ := h
  obtain ⟨s', la', lb', hnexts, hm', hrest⟩ := nexts_spec Gives.next cmp hm
  exact ⟨s', hnexts, la', lb', hm', hrest⟩

theorem Aligning.lens {s : SetMerge T} {l : List (Joined T)} (h : Aligning cmp s l) :
    max (s.lens Keys.len).1 (s.lens Keys.len).2 ≤ l.length ∧
      l.length ≤ (s.lens Keys.len).1 + (s.lens Keys.len).2 := by
  obtain ⟨la, lb, hm, rfl⟩ := h
  have hlens : s.lens Keys.len = (la.length, lb.length) := hm.lens fun _ _ h => h.len
  rw [hlens]
  exact length_align cmp la lb

/-- What the iterator of a union has still to give. -/
def Uniting (cmp : T → T → Ordering) (s : SetMerge T) (l : List T) : Prop :=
  ∃ m, Aligning cmp s m ∧ m.map Joined.key = l

theorem union_next_spec : IsNext (Uniting cmp) (SetMerge.union_next cmp) := by
  rintro s _ ⟨m, h, rfl⟩
  obtain ⟨s', hnexts, h'⟩ := h.nexts
  unfold SetMerge.union_next
  rw [hnexts, some_bind]
  refine ⟨s', ?_, m.tail, h', map_tail⟩
  cases m with
  | nil => rfl
  | cons e m => cases e <;> rfl

/-- What the iterator of a symmetric difference has still to give. -/
def Parting (cmp : T → T → Ordering) (s : SetMerge T) (l : List T) : Prop :=
  ∃ m, Aligning cmp s m ∧ m.filterMap Joined.single = l

theorem symmetric_difference_next_spec :
    IsNext (Parting cmp) (SetMerge.symmetric_difference_next cmp) := by
  rintro s _ ⟨m, h, rfl⟩
  have hlen := h.lens.2
  unfold SetMerge.symmetric_difference_next
  generalize (s.lens Keys.len).1 + (s.lens Keys.len).2 = n at hlen
  induction m generalizing s n with
  | nil =>
    obtain ⟨s', hnexts, h'⟩ := h.nexts
    rw [runLoop, hnexts, some_bind]
    exact ⟨s', rfl, [], h', rfl⟩
  | cons e m ih =>
    obtain ⟨s', hnexts, h'⟩ := h.nexts
    rw [runLoop, hnexts, some_bind]
    cases e with
    | left | right => exact ⟨s', rfl, m, h', rfl⟩
    | both x y =>
      obtain ⟨n, rfl⟩ := exists_eq_add_one.mpr (lt_of_lt_of_le (succ_pos _) hlen)
      exact ih h' n (le_of_succ_le_succ hlen)

/-- A new iterator over both sets. -/
theorem Aligning.new {a b : BTreeSet T} (ha : a.Valid cmp) (hb : b.Valid cmp) :
    Aligning cmp (.new a.iter b.iter) (align cmp a.elements b.elements) :=
  ⟨_, _, .none ha.iter hb.iter, rfl⟩

/-! ## Subsets -/

section Subset

variable [Std.TransCmp cmp] {self_iter other_iter : Keys T Unit} {n : ℕ} {x : T}

variable {other : BTreeSet T}

theorem all_contained_spec (hself : Gives self_iter la)
    (hother : other.Valid cmp) :
    other.all_contained cmp self_iter = some (la.all (has cmp other.elements)) := by
  unfold all_contained
  rw [hself.len]
  generalize hn : la.length = n
  induction la generalizing self_iter n with
  | nil =>
    obtain ⟨self', hnext, -⟩ := Gives.next hself
    rw [runLoop, hnext, some_bind]
    rfl
  | cons x la ih =>
    obtain ⟨self', hnext, hself'⟩ := Gives.next hself
    rw [runLoop, hnext, some_bind]
    dsimp only [head?_cons]
    rw [hother.contains, some_bind, all_cons]
    cases has cmp other.elements x with
    | false => rfl
    | true =>
      obtain ⟨n, rfl⟩ : ∃ m, n = m + 1 := ⟨la.length, hn.symm⟩
      exact ih hself' n (succ.inj hn)

/-- The loop for one element skips only what is less, and the element itself. -/
theorem look_for_spec (hother : Gives other_iter lb) (hb : Ascends cmp lb) (x : T) :
    ∃ other' lb', look_for cmp x other_iter = some (has cmp lb x, other') ∧
      Gives other' lb' ∧ Ascends cmp lb' ∧
      (has cmp lb x = true → ∀ z, cmp x z = .lt → has cmp lb' z = has cmp lb z) := by
  unfold look_for
  rw [hother.len]
  generalize hn : lb.length = n
  induction lb generalizing other_iter n with
  | nil =>
    obtain ⟨other', hnext, hother'⟩ := Gives.next hother
    rw [runLoop, hnext, some_bind]
    exact ⟨other', [], rfl, hother', hb, nofun⟩
  | cons y lb ih =>
    obtain ⟨other', hnext, hother'⟩ := Gives.next hother
    obtain ⟨-, hb'⟩ := ascends_cons.mp hb
    rw [runLoop, hnext, some_bind]
    dsimp only [head?_cons]
    cases hyx : cmp y x with
    | lt =>
      obtain ⟨n, rfl⟩ : ∃ m, n = m + 1 := ⟨lb.length, hn.symm⟩
      obtain ⟨other'', lb', hloop, hgives, hasc, hhas⟩ := ih hother' hb' n (succ.inj hn)
      rw [has_cons_of_lt hyx]
      refine ⟨other'', lb', hloop, hgives, hasc, fun hin z hz => ?_⟩
      rw [hhas hin z hz, has_cons_of_lt (Std.TransCmp.lt_trans hyx hz)]
    | eq =>
      have hxy : cmp x y = .eq := Std.OrientedCmp.eq_symm hyx
      refine ⟨other', lb, ?_, hother', hb', fun _ z hz => ?_⟩
      · rw [has_cons, hxy]
        rfl
      · rw [has_cons_of_lt (Std.TransCmp.lt_of_eq_of_lt hyx hz)]
    | gt =>
      have hxy : cmp x y = .lt := Std.OrientedCmp.gt_iff_lt.mp hyx
      rw [hb.has_of_lt_head hxy]
      exact ⟨other', lb, rfl, hother', hb', nofun⟩

variable (hself : Gives self_iter la)
include hself

theorem all_stitched_spec (hother : Gives other_iter lb)
    (ha : Ascends cmp la) (hb : Ascends cmp lb) :
    all_stitched cmp self_iter other_iter = some (la.all (has cmp lb)) := by
  unfold all_stitched
  rw [hself.len]
  generalize hn : la.length = n
  induction la generalizing self_iter other_iter lb n with
  | nil =>
    obtain ⟨self', hnext, -⟩ := Gives.next hself
    rw [runLoop]
    dsimp only
    rw [hnext, some_bind]
    rfl
  | cons x la ih =>
    obtain ⟨self', hnext, hself'⟩ := Gives.next hself
    obtain ⟨other', lb', hlook, hother', hb', hhas⟩ := look_for_spec hother hb x
    obtain ⟨hx, ha'⟩ := ascends_cons.mp ha
    rw [runLoop]
    dsimp only
    rw [hnext, some_bind]
    dsimp only [head?_cons]
    rw [hlook, some_bind, all_cons]
    cases hin : has cmp lb x with
    | false => rfl
    | true =>
      obtain ⟨n, rfl⟩ : ∃ m, n = m + 1 := ⟨la.length, hn.symm⟩
      have hall : la.all (has cmp lb) = la.all (has cmp lb') := by
        rw [Bool.eq_iff_iff, List.all_eq_true, List.all_eq_true]
        exact forall₂_congr fun z hz => by rw [hhas hin z (hx z hz)]
      rw [hall]
      exact ih hself' hother' ha' hb' n (succ.inj hn)

/-- With both ends of the other set out of reach. -/
theorem subset_within_spec {y₀ y₁ : T}
    (hother : other.Valid cmp) (ha : Ascends cmp la) (hy₀ : other.elements.head? = some y₀)
    (hy₁ : other.elements.getLast? = some y₁) (hlo : ∀ z ∈ la, cmp y₀ z = .lt)
    (hhi : ∀ z ∈ la, cmp z y₁ = .lt) :
    subset_within cmp self_iter other = some (la.all (has cmp other.elements)) := by
  unfold subset_within
  split_ifs
  · exact all_contained_spec hself hother
  obtain ⟨it₁, hnext, h₁⟩ := Gives.next hother.iter
  obtain ⟨it₂, hback, h₂⟩ := h₁.next_back
  have hb := hother.ascends
  have htail : ∀ z ∈ la, has cmp other.elements z = has cmp other.elements.tail z := by
    intro z hz
    conv_lhs => rw [eq_cons_of_mem_head? hy₀]
    exact has_cons_of_lt (hlo z hz)
  have hinner : ∀ z ∈ la, has cmp other.elements z = has cmp other.elements.tail.dropLast z := by
    intro z hz
    rw [htail z hz]
    rcases eq_nil_or_concat' other.elements.tail with hnil | ⟨l, y, hl⟩
    · rw [hnil]
      rfl
    · have hlast : y = y₁ := by
        rw [eq_cons_of_mem_head? hy₀, hl, ← cons_append, getLast?_concat] at hy₁
        exact some.inj hy₁
      rw [hl, dropLast_concat, hlast]
      exact has_concat_of_lt (hhi z hz)
  have hsub : other.elements.tail.dropLast.Sublist other.elements :=
    (dropLast_sublist _).trans (tail_sublist _)
  rw [hnext, some_bind]
  dsimp only
  rw [hback, some_bind]
  rw [all_stitched_spec hself h₂ ha (hb.sublist hsub), Option.some_inj, Bool.eq_iff_iff,
    List.all_eq_true, List.all_eq_true]
  exact forall₂_congr fun z hz => by rw [hinner z hz]

/-- The greatest elements compared. `l` are all elements, of which `la` are left. -/
theorem subset_max_spec {l : List T} {x₁ y₀ y₁ : T} (hother : other.Valid cmp) (ha : Ascends cmp la)
    (hx₁ : l.getLast? = some x₁) (hy₀ : other.elements.head? = some y₀)
    (hy₁ : other.elements.getLast? = some y₁) (hlo : ∀ z ∈ la, cmp y₀ z = .lt)
    (hle : ∀ z ∈ la, (cmp z x₁).isLE) (hlast : ∀ z, la.getLast? = some z → z = x₁)
    (hall : l.all (has cmp other.elements) = la.all (has cmp other.elements)) :
    subset_max cmp x₁ y₁ self_iter other = some (l.all (has cmp other.elements)) := by
  have hb := hother.ascends
  unfold subset_max
  cases h : cmp x₁ y₁ with
  | gt =>
    have hout : has cmp other.elements x₁ = false := by
      apply has_of_gt
      intro y hy
      exact lt_of_isLE_of_lt (hb.isLE_last hy₁ hy) (Std.OrientedCmp.gt_iff_lt.mp h)
    rw [some_inj, eq_comm, List.all_eq_false]
    exact ⟨x₁, mem_of_getLast? hx₁, by rw [hout]; exact false_ne_true⟩
  | lt =>
    rw [hall]
    exact subset_within_spec hself hother ha hy₀ hy₁ hlo fun z hz =>
      lt_of_isLE_of_lt (hle z hz) h
  | eq =>
    obtain ⟨self', hnext, hself'⟩ := hself.next_back
    have hmem : ∀ z ∈ la.dropLast, z ∈ la := fun z hz => mem_of_mem_dropLast hz
    have hinit : la.all (has cmp other.elements) = la.dropLast.all (has cmp other.elements) := by
      rcases eq_nil_or_concat' la with rfl | ⟨m, z, rfl⟩
      · rfl
      · have hz : z = x₁ := hlast z getLast?_concat
        have hin : has cmp other.elements z = true := by
          rw [hz]
          exact has_iff.mpr ⟨y₁, mem_of_getLast? hy₁, h⟩
        rw [dropLast_concat, all_append, all_cons, hin]
        simp
    have hhi : ∀ z ∈ la.dropLast, cmp z y₁ = .lt := by
      intro z hz
      rcases eq_nil_or_concat' la with rfl | ⟨m, w, rfl⟩
      · cases hz
      · obtain rfl : w = x₁ := hlast w getLast?_concat
        rw [← congr_right h]
        exact lt_last_of_dropLast ha getLast?_concat hz
    rw [hnext, some_bind, hall, hinit]
    exact subset_within_spec hself' hother (ha.sublist (dropLast_sublist _)) hy₀ hy₁
      (fun z hz => hlo z (hmem z hz)) hhi

omit hself

/-- Each strategy decides whether the second set has every element. -/
theorem is_subset_spec {a b : BTreeSet T} (ha : a.Valid cmp) (hb : b.Valid cmp) :
    a.is_subset cmp b = some (a.elements.all (has cmp b.elements)) := by
  have hasc := ha.ascends
  have hbsc := hb.ascends
  unfold is_subset
  split_ifs with hlen
  · -- more elements than the other set has
    rw [Option.some_inj, eq_comm, ← Bool.not_eq_true, List.all_eq_true]
    intro hall
    have hle := length_filter_has_le hasc b.elements
    rw [filter_eq_self.mpr hall, ← ha.len, ← hb.len] at hle
    exact not_lt.mpr hle hlen
  rw [ha.first, ha.last, some_bind, some_bind]
  cases hx₀ : a.elements.head? with
  | none =>
    rw [head?_eq_none_iff.mp hx₀]
    rfl
  | some x₀ =>
  cases hx₁ : a.elements.getLast? with
  | none =>
    rw [getLast?_eq_none_iff.mp hx₁]
    rfl
  | some x₁ =>
  have hfalse : ∀ x ∈ a.elements, has cmp b.elements x = false →
      some false = some (a.elements.all (has cmp b.elements)) := by
    intro x hx hout
    rw [Option.some_inj, eq_comm, List.all_eq_false]
    exact ⟨x, hx, by rw [hout]; exact false_ne_true⟩
  have hmem₀ : x₀ ∈ a.elements := mem_of_mem_head? hx₀
  dsimp only
  rw [hb.first, hb.last, some_bind, some_bind]
  cases hy₀ : b.elements.head? with
  | none => exact hfalse x₀ hmem₀ (by rw [head?_eq_none_iff.mp hy₀]; rfl)
  | some y₀ =>
  cases hy₁ : b.elements.getLast? with
  | none => exact hfalse x₀ hmem₀ (by rw [getLast?_eq_none_iff.mp hy₁]; rfl)
  | some y₁ =>
  dsimp only
  cases h₀ : cmp x₀ y₀ with
  | lt =>
    refine hfalse x₀ hmem₀ (has_of_lt fun y hy => ?_)
    exact lt_of_lt_of_isLE h₀ (hbsc.head_isLE hy₀ hy)
  | gt =>
    refine subset_max_spec ha.iter hb hasc hx₁ hy₀ hy₁ (fun z hz => ?_)
      (fun z hz => hasc.isLE_last hx₁ hz) (fun z hz => some.inj (hz.symm.trans hx₁)) rfl
    exact lt_of_lt_of_isLE (Std.OrientedCmp.gt_iff_lt.mp h₀) (hasc.head_isLE hx₀ hz)
  | eq =>
    obtain ⟨self', hnext, hself'⟩ := Gives.next ha.iter
    have hin : has cmp b.elements x₀ = true :=
      has_iff.mpr ⟨y₀, mem_of_mem_head? hy₀, h₀⟩
    have hcons := eq_cons_of_mem_head? hx₀
    have hall : a.elements.all (has cmp b.elements) = a.elements.tail.all (has cmp b.elements) := by
      conv_lhs => rw [hcons]
      rw [List.all_cons, hin, Bool.true_and]
    rw [hnext, some_bind]
    refine subset_max_spec hself' hb (hasc.sublist (tail_sublist _)) hx₁ hy₀ hy₁
      (fun z hz => ?_) (fun z hz => hasc.isLE_last hx₁ (mem_of_mem_tail hz))
      (fun z hz => ?_) hall
    · rw [← congr_left h₀]
      exact head_lt_of_tail hasc hx₀ hz
    · rw [hcons] at hx₁
      have hne : a.elements.tail ≠ [] := by
        intro hnil
        rw [hnil] at hz
        cases hz
      rw [getLast?_cons_of_ne_nil hne] at hx₁
      exact some.inj (hz.symm.trans hx₁)

theorem is_disjoint_spec {a b : BTreeSet T} (ha : a.Valid cmp) (hb : b.Valid cmp) :
    ∃ r, a.is_disjoint cmp b = some r ∧
      (r = true ↔ ∀ k, ¬(has cmp a.elements k = true ∧ has cmp b.elements k = true)) := by
  obtain ⟨s, l, hs, hl, -, hset⟩ := intersection_spec ha hb
  obtain ⟨s', hnext, -⟩ := intersection_next hl
  refine ⟨l.head?.isNone, ?_, ?_⟩
  · unfold is_disjoint
    rw [hs, some_bind, hnext, some_bind]
  · simp only [← and_eq_true, ← hset]
    cases l with
    | nil => simp
    | cons x l =>
      refine iff_of_false nofun fun h => h x ?_
      exact has_iff.mpr ⟨x, mem_cons_self, Std.ReflCmp.compare_self⟩

end Subset

/-! ## All operations -/

/-- What the operations of two sets do, whichever way they go: each iterator delivers the elements
of its set in strictly ascending order, and the two tests tell what they say. -/
structure Operate (cmp : T → T → Ordering) (usizeMax : ℕ) (a b : BTreeSet T) : Prop where
  difference : Results cmp (DifferenceInner.next cmp usizeMax) (DifferenceInner.size_hint usizeMax)
    (a.difference cmp b) fun k => has cmp a.elements k && !has cmp b.elements k
  intersection : Results cmp (IntersectionInner.next cmp) (fun s => some s.size_hint)
    (a.intersection cmp b) fun k => has cmp a.elements k && has cmp b.elements k
  union : Results cmp (SetMerge.union_next cmp) (fun s => some (SetMerge.union_size_hint s))
    (some (a.union b)) fun k => has cmp a.elements k || has cmp b.elements k
  symmetric_difference : Results cmp (SetMerge.symmetric_difference_next cmp)
    (fun s => some (SetMerge.symmetric_difference_size_hint s)) (some (a.symmetric_difference b))
    fun k => has cmp a.elements k ^^ has cmp b.elements k
  is_subset : ∃ r, a.is_subset cmp b = some r ∧
    (r = true ↔ ∀ k, has cmp a.elements k = true → has cmp b.elements k = true)
  is_disjoint : ∃ r, a.is_disjoint cmp b = some r ∧
    (r = true ↔ ∀ k, ¬(has cmp a.elements k = true ∧ has cmp b.elements k = true))

/-- **The operations of any two sets.** -/
theorem set_operations_spec (cmp : T → T → Ordering) [Std.TransCmp cmp] {a b : BTreeSet T}
    (ha : a.Valid cmp) (hb : b.Valid cmp) {usizeMax : ℕ} (hmax : b.len ≤ usizeMax) :
    Operate cmp usizeMax a b := by
  have hasc := ha.ascends
  have hbsc := hb.ascends
  constructor
  case difference =>
    obtain ⟨s, hs, hl⟩ := difference_spec ha hb hmax
    exact ⟨s, _, hs, hasc.sublist filter_sublist, has_filter_not_has _ _,
      .of_next difference_next (fun _ _ => difference_size_hint) hl⟩
  case intersection =>
    obtain ⟨s, l, hs, hl, hlasc, hset⟩ := intersection_spec ha hb
    exact ⟨s, l, hs, hlasc, hset, .of_next intersection_next (fun _ _ => intersection_size_hint) hl⟩
  case union =>
    refine ⟨_, _, rfl, align_ascends hasc hbsc, has_union hasc hbsc,
      .of_next union_next_spec (fun s l h => ?_) ⟨_, Aligning.new ha hb, rfl⟩⟩
    obtain ⟨m, hm, rfl⟩ := h
    rw [length_map]
    exact ⟨_, _, rfl, hm.lens⟩
  case symmetric_difference =>
    have hsub := (align_ascends hasc hbsc).sublist (sublist_single _)
    refine ⟨_, _, rfl, hsub, has_symmetric_difference hasc hbsc,
      .of_next symmetric_difference_next_spec (fun s l h => ?_) ⟨_, Aligning.new ha hb, rfl⟩⟩
    obtain ⟨m, hm, rfl⟩ := h
    exact ⟨_, _, rfl, zero_le _, (length_filterMap_le _ _).trans hm.lens.2⟩
  case is_subset =>
    refine ⟨_, is_subset_spec ha hb, ?_⟩
    rw [List.all_eq_true]
    constructor
    · intro h k hk
      obtain ⟨x, hx, heq⟩ := has_iff.mp hk
      rw [has_congr _ heq]
      exact h x hx
    · intro h x hx
      exact h x (has_iff.mpr ⟨x, hx, Std.ReflCmp.compare_self⟩)
  case is_disjoint => exact is_disjoint_spec ha hb

/-- A set with two leaves, and the same set again. -/
theorem set_operations_two_leaves : Operate compare (2 ^ 64 - 1)
    (BTreeSet.mk (BTreeMap.mk two_leaves (some ⟨1, 0⟩) 11))
    (BTreeSet.mk (BTreeMap.mk two_leaves (some ⟨1, 0⟩) 11)) :=
  set_operations_spec compare
    ⟨fun _ h => ⟨two_leaves_height, some.inj h ▸ two_leaves_invariants⟩, rfl⟩
    ⟨fun _ h => ⟨two_leaves_height, some.inj h ▸ two_leaves_invariants⟩, rfl⟩ (by decide)

end RustStd.BTree
