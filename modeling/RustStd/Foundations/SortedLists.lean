import Mathlib.Data.List.Basic

/-!
# Ascending lists as sets

A strictly ascending list stands for the set of the keys that are equal to one of its elements, for
an order that may take different elements to be equal. `align` walks two such lists together: each
of its entries is an element of one list that has no equal in the other, or a pair of equals.
-/

namespace RustStd.Sorted

open Function Bool Std.TransCmp

variable {α : Type} {cmp : α → α → Ordering} {k x y : α} {l la lb : List α}

/-- Every element is less than those after it. -/
def Ascends (cmp : α → α → Ordering) (l : List α) : Prop := l.Pairwise fun x y => cmp x y = .lt

/-- An element of the list is equal to the key. -/
def has (cmp : α → α → Ordering) (l : List α) (k : α) : Bool := l.any fun x => cmp k x == .eq

theorem has_iff : has cmp l k = true ↔ ∃ x ∈ l, cmp k x = .eq := by
  simp [has]

@[simp] theorem has_nil : has cmp [] k = false := rfl

theorem filter_has_nil (l : List α) : l.filter (has cmp []) = [] :=
  List.filter_eq_nil_iff.mpr fun _ _ => false_ne_true

theorem has_cons : has cmp (x :: l) k = (cmp k x == .eq || has cmp l k) := by
  rw [has, List.any_cons]
  rfl

theorem has_false_iff : has cmp l k = false ↔ ∀ x ∈ l, cmp k x ≠ .eq := by
  simp [has]

theorem ascends_cons : Ascends cmp (x :: l) ↔ (∀ y ∈ l, cmp x y = .lt) ∧ Ascends cmp l :=
  List.pairwise_cons

theorem Ascends.sublist (h : Ascends cmp l) (hs : la.Sublist l) : Ascends cmp la :=
  List.Pairwise.sublist hs h

theorem ascends_concat : Ascends cmp (l ++ [x]) ↔ Ascends cmp l ∧ ∀ y ∈ l, cmp y x = .lt := by
  unfold Ascends
  simp [List.pairwise_append]

theorem head_lt_of_tail (h : Ascends cmp l) (hx : l.head? = some x) (hy : y ∈ l.tail) :
    cmp x y = .lt := by
  cases l with
  | nil => cases hx
  | cons z l =>
    obtain rfl : z = x := Option.some.inj hx
    exact (ascends_cons.mp h).1 y hy

theorem lt_last_of_dropLast (h : Ascends cmp l) (hx : l.getLast? = some x) (hy : y ∈ l.dropLast) :
    cmp y x = .lt := by
  rcases List.eq_nil_or_concat' l with rfl | ⟨l, z, rfl⟩
  · cases hx
  · rw [List.getLast?_concat] at hx
    obtain rfl : z = x := Option.some.inj hx
    rw [List.dropLast_concat] at hy
    exact (ascends_concat.mp h).2 y hy

/-- What is less than all of a list is not in it. -/
theorem has_of_lt (h : ∀ y ∈ l, cmp k y = .lt) : has cmp l k = false := by
  apply has_false_iff.mpr
  intro y hy heq
  rw [h y hy] at heq
  cases heq

theorem has_concat_of_lt (h : cmp k x = .lt) : has cmp (l ++ [x]) k = has cmp l k := by
  unfold has
  rw [List.any_append, List.any_cons, h]
  simp

section Order

variable [Std.TransCmp cmp]

/-- Equal keys are in the same lists. -/
theorem has_congr (l : List α) (h : cmp x y = .eq) : has cmp l x = has cmp l y := by
  unfold has
  congr 1
  funext z
  rw [congr_left h]

/-- What comes after the first element is not equal to it. -/
theorem has_cons_of_lt (h : cmp y k = .lt) : has cmp (y :: l) k = has cmp l k := by
  have : cmp k y = .gt := Std.OrientedCmp.gt_iff_lt.mpr h
  rw [has_cons, this]
  rfl

theorem Ascends.has_of_lt_head (h : Ascends cmp (y :: l)) (hk : cmp k y = .lt) :
    has cmp (y :: l) k = false := has_of_lt fun z hz => by
  rcases List.mem_cons.mp hz with rfl | hz
  · exact hk
  · exact lt_trans hk ((ascends_cons.mp h).1 z hz)

theorem Ascends.lt_of_eq_head (h : Ascends cmp (x :: l)) (hxy : cmp x y = .eq) :
    ∀ z ∈ l, cmp y z = .lt := fun z hz => by
  rw [← congr_left hxy]
  exact (ascends_cons.mp h).1 z hz

theorem Ascends.lt_of_gt_head (h : Ascends cmp (x :: l)) (hxy : cmp x y = .gt) :
    ∀ z ∈ x :: l, cmp y z = .lt := fun z hz => by
  have hyx : cmp y x = .lt := Std.OrientedCmp.gt_iff_lt.mp hxy
  rcases List.mem_cons.mp hz with rfl | hz
  · exact hyx
  · exact lt_trans hyx ((ascends_cons.mp h).1 z hz)

/-- Equal elements are the same. -/
theorem Ascends.eq_of_eq (h : Ascends cmp l) (hx : x ∈ l) (hy : y ∈ l) (hxy : cmp x y = .eq) :
    x = y := by
  induction l with
  | nil => cases hx
  | cons z l ih =>
    have hz := has_false_iff.mp (has_of_lt (ascends_cons.mp h).1)
    rcases List.mem_cons.mp hx with rfl | hx'
    · rcases List.mem_cons.mp hy with rfl | hy'
      · rfl
      · exact absurd hxy (hz y hy')
    · rcases List.mem_cons.mp hy with rfl | hy'
      · exact absurd (Std.OrientedCmp.eq_symm hxy) (hz x hx')
      · exact ih (ascends_cons.mp h).2 hx' hy'

/-- Elements after an element of the other list are not equal to it. -/
theorem filter_not_has_cons (h : ∀ z ∈ la, cmp y z = .lt) (lb : List α) :
    la.filter (fun z => !has cmp (y :: lb) z) = la.filter fun z => !has cmp lb z :=
  List.filter_congr fun z hz => by rw [has_cons_of_lt (h z hz)]

theorem filter_has_cons (h : ∀ z ∈ la, cmp y z = .lt) (lb : List α) :
    la.filter (has cmp (y :: lb)) = la.filter (has cmp lb) :=
  List.filter_congr fun _ hz => has_cons_of_lt (h _ hz)

/-- The elements that are in the other list. -/
theorem has_filter_has (la lb : List α) (k : α) :
    has cmp (la.filter (has cmp lb)) k = (has cmp la k && has cmp lb k) := by
  rw [Bool.eq_iff_iff, Bool.and_eq_true, has_iff, has_iff]
  constructor
  · rintro ⟨x, hx, heq⟩
    obtain ⟨hmem, hin⟩ := List.mem_filter.mp hx
    exact ⟨⟨x, hmem, heq⟩, (has_congr lb heq).trans hin⟩
  · rintro ⟨⟨x, hx, heq⟩, hin⟩
    exact ⟨x, List.mem_filter.mpr ⟨hx, (has_congr lb heq).symm.trans hin⟩, heq⟩

/-- The elements that are not in the other list. -/
theorem has_filter_not_has (la lb : List α) (k : α) :
    has cmp (la.filter fun x => !has cmp lb x) k = (has cmp la k && !has cmp lb k) := by
  rw [Bool.eq_iff_iff, Bool.and_eq_true, has_iff, has_iff]
  constructor
  · rintro ⟨x, hx, heq⟩
    obtain ⟨hmem, hout⟩ := List.mem_filter.mp hx
    rw [has_congr lb heq]
    exact ⟨⟨x, hmem, heq⟩, hout⟩
  · rintro ⟨⟨x, hx, heq⟩, hout⟩
    rw [has_congr lb heq] at hout
    exact ⟨x, List.mem_filter.mpr ⟨hx, hout⟩, heq⟩

/-! ### The ends -/

theorem Ascends.head_isLE (h : Ascends cmp l) (hx : l.head? = some x) (hy : y ∈ l) :
    (cmp x y).isLE := by
  cases l with
  | nil => cases hx
  | cons z l =>
    obtain rfl : z = x := Option.some.inj hx
    rcases List.mem_cons.mp hy with rfl | hy
    · rw [show cmp y y = .eq from Std.ReflCmp.compare_self]
      rfl
    · rw [(ascends_cons.mp h).1 y hy]
      rfl

theorem Ascends.isLE_last (h : Ascends cmp l) (hx : l.getLast? = some x) (hy : y ∈ l) :
    (cmp y x).isLE := by
  rcases List.eq_nil_or_concat' l with rfl | ⟨l, z, rfl⟩
  · cases hx
  · rw [List.getLast?_concat] at hx
    obtain rfl : z = x := Option.some.inj hx
    rcases List.mem_append.mp hy with hy | hy
    · rw [(ascends_concat.mp h).2 y hy]
      rfl
    · rw [List.mem_singleton.mp hy, show cmp z z = .eq from Std.ReflCmp.compare_self]
      rfl

/-- What is greater than all of a list is not in it. -/
theorem has_of_gt (h : ∀ y ∈ l, cmp y k = .lt) : has cmp l k = false := by
  apply has_false_iff.mpr
  intro y hy heq
  have := Std.OrientedCmp.gt_iff_lt.mpr (h y hy)
  rw [heq] at this
  cases this

variable {x0 x1 y0 y1 : α}

variable (ha : Ascends cmp la)
include ha

variable (hb : Ascends cmp lb)
include hb

/-- The first list is after the second. -/
theorem apart_of_gt (hx : la.head? = some x0)
    (hy : lb.getLast? = some y1) (h : cmp x0 y1 = .gt) : ∀ x ∈ la, has cmp lb x = false := by
  intro x hmem
  apply has_of_gt
  intro y hmem'
  have hlt := lt_of_isLE_of_lt (hb.isLE_last hy hmem') (Std.OrientedCmp.gt_iff_lt.mp h)
  exact lt_of_lt_of_isLE hlt (ha.head_isLE hx hmem)

/-- The first list is before the second. -/
theorem apart_of_lt (hx : la.getLast? = some x1)
    (hy : lb.head? = some y0) (h : cmp x1 y0 = .lt) : ∀ x ∈ la, has cmp lb x = false := by
  intro x hmem
  apply has_of_lt
  intro y hmem'
  exact lt_of_lt_of_isLE (lt_of_isLE_of_lt (ha.isLE_last hx hmem) h)
    (hb.head_isLE hy hmem')

/-- The lists have the first element of the one and the last of the other in common. -/
theorem touch_first (hx : la.head? = some x0) (hy : lb.getLast? = some y1) (h : cmp x0 y1 = .eq) :
    has cmp lb x0 = true ∧ ∀ x ∈ la.tail, has cmp lb x = false := by
  refine ⟨has_iff.mpr ⟨y1, List.mem_of_getLast? hy, h⟩, fun x hmem => ?_⟩
  apply has_of_gt
  intro y hmem'
  have hlt : cmp y1 x = .lt := by
    rw [← congr_left h]
    exact head_lt_of_tail ha hx hmem
  exact lt_of_isLE_of_lt (hb.isLE_last hy hmem') hlt

theorem touch_last (hx : la.getLast? = some x1) (hy : lb.head? = some y0) (h : cmp x1 y0 = .eq) :
    has cmp lb x1 = true ∧ ∀ x ∈ la.dropLast, has cmp lb x = false := by
  refine ⟨has_iff.mpr ⟨y0, List.mem_of_mem_head? hy, h⟩, fun x hmem => ?_⟩
  apply has_of_lt
  intro y hmem'
  have hlt : cmp x y0 = .lt := by
    rw [← congr_right h]
    exact lt_last_of_dropLast ha hx hmem
  exact lt_of_lt_of_isLE hlt (hb.head_isLE hy hmem')

omit hb

omit ha

/-- **No more elements than the other list has** are equal to one of its elements. -/
theorem length_filter_has_le (h : Ascends cmp la) (lb : List α) :
    (la.filter (has cmp lb)).length ≤ lb.length := by
  induction lb with
  | nil =>
    exact Nat.le_of_eq (congrArg List.length (filter_has_nil la))
  | cons y lb ih =>
    have hone : (la.filter fun x => cmp x y == .eq).length ≤ 1 := by
      clear ih
      induction la with
      | nil => exact Nat.zero_le _
      | cons x la ih =>
        obtain ⟨hx, hla⟩ := ascends_cons.mp h
        by_cases heq : cmp x y = .eq
        · have hnone : la.filter (fun z => cmp z y == .eq) = [] := by
            apply List.filter_eq_nil_iff.mpr
            intro z hz hzy
            have := Std.TransCmp.lt_of_lt_of_eq (hx z hz) (by simpa using hzy)
            rw [heq] at this
            cases this
          rw [List.filter_cons_of_pos (by simp [heq]), hnone]
          exact Nat.le_refl _
        · rw [List.filter_cons_of_neg (by simp [heq])]
          exact ih hla
    have hsplit : (la.filter (has cmp (y :: lb))).length ≤
        (la.filter fun x => cmp x y == .eq).length + (la.filter (has cmp lb)).length := by
      clear ih hone h
      induction la with
      | nil => exact Nat.zero_le _
      | cons x la ih =>
        simp only [List.filter_cons, has_cons]
        cases cmp x y == .eq <;> cases has cmp lb x <;> simp <;> omega
    rw [List.length_cons]
    omega

end Order

/-! ## Two lists together -/

/-- An element of one of two lists, or of both. -/
inductive Joined (α : Type)
  | left (x : α)
  | right (y : α)
  | both (x y : α)

namespace Joined

/-- The element, or that of the first list. -/
def key : Joined α → α
  | left x => x
  | right y => y
  | both x _ => x

def lefts : Joined α → Option α
  | left x => some x
  | right _ => none
  | both x _ => some x

def rights : Joined α → Option α
  | left _ => none
  | right y => some y
  | both _ y => some y

/-- The element, if only one list has it. -/
def single : Joined α → Option α
  | left x => some x
  | right y => some y
  | both _ _ => none

end Joined

open Sorted.Joined List Option

/-- The elements of two ascending lists in order. -/
def align (cmp : α → α → Ordering) : List α → List α → List (Joined α)
  | [], lb => lb.map right
  | la, [] => la.map left
  | x :: la, y :: lb =>
    match cmp x y with
    | .lt => left x :: align cmp la (y :: lb)
    | .gt => right y :: align cmp (x :: la) lb
    | .eq => both x y :: align cmp la lb
  termination_by la lb => la.length + lb.length

theorem align_nil (cmp : α → α → Ordering) (lb : List α) : align cmp [] lb = lb.map right := by
  rw [align]

theorem align_nil_right (cmp : α → α → Ordering) (la : List α) : align cmp la [] = la.map left := by
  cases la with
  | nil => rw [align_nil, map_nil, map_nil]
  | cons x la =>
    rw [align]
    exact nofun

theorem align_cons (cmp : α → α → Ordering) (x y : α) (la lb : List α) :
    align cmp (x :: la) (y :: lb) = match cmp x y with
      | .lt => left x :: align cmp la (y :: lb)
      | .gt => right y :: align cmp (x :: la) lb
      | .eq => both x y :: align cmp la lb := by
  rw [align]

/-- Both lists are all there. -/
theorem align_lefts (cmp : α → α → Ordering) (la lb : List α) :
    (align cmp la lb).filterMap lefts = la ∧ (align cmp la lb).filterMap rights = lb := by
  induction la, lb using align.induct cmp with
  | case1 lb =>
    rw [align_nil]
    simp [filterMap_map, comp_def, lefts, rights]
  | case2 la _ =>
    rw [align_nil_right]
    simp [filterMap_map, comp_def, lefts, rights]
  | case3 x la y lb h ih =>
    rw [align_cons, h]
    exact ⟨congrArg (x :: ·) ih.1, ih.2⟩
  | case4 x la y lb h ih =>
    rw [align_cons, h]
    exact ⟨ih.1, congrArg (y :: ·) ih.2⟩
  | case5 x la y lb h ih =>
    rw [align_cons, h]
    exact ⟨congrArg (x :: ·) ih.1, congrArg (y :: ·) ih.2⟩

variable {e : Joined α}

theorem mem_align_left (h : e ∈ align cmp la lb) (hx : e.lefts = some x) :
    x ∈ la := by
  rw [← (align_lefts cmp la lb).1]
  exact mem_filterMap.mpr ⟨e, h, hx⟩

theorem mem_align_right (h : e ∈ align cmp la lb) (hy : e.rights = some y) :
    y ∈ lb := by
  rw [← (align_lefts cmp la lb).2]
  exact mem_filterMap.mpr ⟨e, h, hy⟩

/-- The elements that one list has alone are keys of entries. -/
theorem sublist_single (l : List (Joined α)) : (l.filterMap single).Sublist (l.map key) := by
  induction l with
  | nil => exact List.Sublist.refl _
  | cons e l ih =>
    cases e with
    | left x => exact ih.cons_cons x
    | right y => exact ih.cons_cons y
    | both x y => exact ih.cons x

variable (cmp) in
theorem exists_left (h : x ∈ la) (lb : List α) : ∃ e ∈ align cmp la lb, e.lefts = some x := by
  rw [← (align_lefts cmp la lb).1] at h
  exact mem_filterMap.mp h

variable (cmp) in
theorem exists_right (la : List α) (h : y ∈ lb) : ∃ e ∈ align cmp la lb, e.rights = some y := by
  rw [← (align_lefts cmp la lb).2] at h
  exact mem_filterMap.mp h

theorem key_mem (h : e ∈ align cmp la lb) : e.key ∈ la ∨ e.key ∈ lb := by
  cases e with
  | left | both => exact .inl (mem_align_left h rfl)
  | right y => exact .inr (mem_align_right h rfl)

/-- No fewer entries than either list has elements, and no more than both have. -/
theorem length_align (cmp : α → α → Ordering) (la lb : List α) :
    max la.length lb.length ≤ (align cmp la lb).length ∧
      (align cmp la lb).length ≤ la.length + lb.length := by
  constructor
  · have hl := length_filterMap_le lefts (align cmp la lb)
    have hr := length_filterMap_le rights (align cmp la lb)
    rw [(align_lefts cmp la lb).1] at hl
    rw [(align_lefts cmp la lb).2] at hr
    exact Nat.max_le.mpr ⟨hl, hr⟩
  · induction la, lb using align.induct cmp with
    | case1 lb => simp [align_nil]
    | case2 la _ => simp [align_nil_right]
    | case3 x la y lb h ih | case4 x la y lb h ih | case5 x la y lb h ih =>
      rw [align_cons, h]
      simp only [length_cons] at ih ⊢
      omega

section Order

variable [Std.TransCmp cmp]

variable (ha : Ascends cmp la)
include ha

variable (hb : Ascends cmp lb)
include hb

/-- **The entries are in order.** -/
theorem align_ascends : Ascends cmp ((align cmp la lb).map key) := by
  induction la, lb using align.induct cmp with
  | case1 lb =>
    rw [align_nil, List.map_map]
    simpa [Function.comp_def, key] using hb
  | case2 la _ =>
    rw [align_nil_right, List.map_map]
    simpa [Function.comp_def, key] using ha
  | case3 x la y lb h ih =>
    obtain ⟨hx, ha'⟩ := ascends_cons.mp ha
    obtain ⟨hy, -⟩ := ascends_cons.mp hb
    rw [align_cons, h]
    refine ascends_cons.mpr ⟨fun k hk => ?_, ih ha' hb⟩
    obtain ⟨e, he, rfl⟩ := List.mem_map.mp hk
    rcases key_mem he with hmem | hmem
    · exact hx _ hmem
    · rcases List.mem_cons.mp hmem with heq | hmem
      · rw [heq]
        exact h
      · exact Std.TransCmp.lt_trans h (hy _ hmem)
  | case4 x la y lb h ih =>
    obtain ⟨hx, -⟩ := ascends_cons.mp ha
    obtain ⟨hy, hb'⟩ := ascends_cons.mp hb
    have hyx : cmp y x = .lt := Std.OrientedCmp.gt_iff_lt.mp h
    rw [align_cons, h]
    refine ascends_cons.mpr ⟨fun k hk => ?_, ih ha hb'⟩
    obtain ⟨e, he, rfl⟩ := List.mem_map.mp hk
    rcases key_mem he with hmem | hmem
    · rcases List.mem_cons.mp hmem with heq | hmem
      · rw [heq]
        exact hyx
      · exact Std.TransCmp.lt_trans hyx (hx _ hmem)
    · exact hy _ hmem
  | case5 x la y lb h ih =>
    obtain ⟨hx, ha'⟩ := ascends_cons.mp ha
    obtain ⟨hy, hb'⟩ := ascends_cons.mp hb
    rw [align_cons, h]
    refine ascends_cons.mpr ⟨fun k hk => ?_, ih ha' hb'⟩
    obtain ⟨e, he, rfl⟩ := List.mem_map.mp hk
    rcases key_mem he with hmem | hmem
    · exact hx _ hmem
    · exact Std.TransCmp.lt_of_eq_of_lt h (hy _ hmem)

/-- What an entry says of the two lists. -/
def Joined.Of (cmp : α → α → Ordering) (la lb : List α) : Joined α → Prop
  | left x => has cmp lb x = false
  | right y => has cmp la y = false
  | both x y => cmp x y = .eq

/-- **An element alone has no equal in the other list**, and a pair is one of equals. -/
theorem align_of : ∀ e ∈ align cmp la lb, e.Of cmp la lb := by
  induction la, lb using align.induct cmp with
  | case1 lb =>
    intro e he
    rw [align_nil] at he
    obtain ⟨y, -, rfl⟩ := mem_map.mp he
    exact has_nil
  | case2 la _ =>
    intro e he
    rw [align_nil_right] at he
    obtain ⟨x, -, rfl⟩ := mem_map.mp he
    exact has_nil
  | case3 x la y lb h ih =>
    obtain ⟨hx, ha'⟩ := ascends_cons.mp ha
    obtain ⟨hy, -⟩ := ascends_cons.mp hb
    have hlt : ∀ z ∈ y :: lb, cmp x z = .lt := by
      intro z hz
      rcases mem_cons.mp hz with rfl | hz
      · exact h
      · exact Std.TransCmp.lt_trans h (hy z hz)
    rw [align_cons, h]
    intro e he
    rcases mem_cons.mp he with rfl | he
    · exact has_of_lt hlt
    · have hof := ih ha' hb e he
      cases e with
      | left | both => exact hof
      | right y' => exact (has_cons_of_lt (hlt y' (mem_align_right he rfl))).trans hof
  | case4 x la y lb h ih =>
    obtain ⟨hx, -⟩ := ascends_cons.mp ha
    obtain ⟨hy, hb'⟩ := ascends_cons.mp hb
    have hyx : cmp y x = .lt := Std.OrientedCmp.gt_iff_lt.mp h
    have hlt : ∀ z ∈ x :: la, cmp y z = .lt := by
      intro z hz
      rcases mem_cons.mp hz with rfl | hz
      · exact hyx
      · exact Std.TransCmp.lt_trans hyx (hx z hz)
    rw [align_cons, h]
    intro e he
    rcases mem_cons.mp he with rfl | he
    · exact has_of_lt hlt
    · have hof := ih ha hb' e he
      cases e with
      | left x' => exact (has_cons_of_lt (hlt x' (mem_align_left he rfl))).trans hof
      | right | both => exact hof
  | case5 x la y lb h ih =>
    obtain ⟨hx, ha'⟩ := ascends_cons.mp ha
    obtain ⟨hy, hb'⟩ := ascends_cons.mp hb
    rw [align_cons, h]
    intro e he
    rcases mem_cons.mp he with rfl | he
    · exact h
    have hof := ih ha' hb' e he
    cases e with
    | left x' =>
      have hlt : cmp y x' = .lt := by
        rw [← congr_left h]
        exact hx x' (mem_align_left he rfl)
      exact (has_cons_of_lt hlt).trans hof
    | right y' =>
      have hlt : cmp x y' = .lt := by
        rw [congr_left h]
        exact hy y' (mem_align_right he rfl)
      exact (has_cons_of_lt hlt).trans hof
    | both x' y' => exact hof

/-- **The union** of the two sets. -/
theorem has_union (k : α) :
    has cmp ((align cmp la lb).map key) k = (has cmp la k || has cmp lb k) := by
  rw [Bool.eq_iff_iff, Bool.or_eq_true, has_iff, has_iff, has_iff]
  constructor
  · rintro ⟨z, hz, heq⟩
    obtain ⟨e, he, rfl⟩ := mem_map.mp hz
    exact (key_mem he).imp (fun hmem => ⟨_, hmem, heq⟩) fun hmem => ⟨_, hmem, heq⟩
  rintro (⟨x, hx, heq⟩ | ⟨y, hy, heq⟩)
  · obtain ⟨e, he, hl⟩ := exists_left cmp hx lb
    refine ⟨e.key, mem_map_of_mem he, ?_⟩
    cases e with
    | left | both =>
      obtain rfl := Option.some.inj hl
      exact heq
    | right y' => cases hl
  · obtain ⟨e, he, hr⟩ := exists_right cmp la hy
    refine ⟨e.key, mem_map_of_mem he, ?_⟩
    cases e with
    | left x' => cases hr
    | right y' =>
      obtain rfl := Option.some.inj hr
      exact heq
    | both x' y' =>
      obtain rfl := Option.some.inj hr
      exact eq_trans heq (Std.OrientedCmp.eq_symm (align_of ha hb _ he))

/-- **The symmetric difference** of the two sets. -/
theorem has_symmetric_difference (k : α) :
    has cmp ((align cmp la lb).filterMap single) k = (has cmp la k ^^ has cmp lb k) := by
  have hmem : has cmp ((align cmp la lb).filterMap single) k = true ↔
      ∃ e ∈ align cmp la lb, ∃ z, e.single = some z ∧ cmp k z = .eq := by
    rw [has_iff]
    constructor
    · rintro ⟨z, hz, heq⟩
      obtain ⟨e, he, hez⟩ := mem_filterMap.mp hz
      exact ⟨e, he, z, hez, heq⟩
    · rintro ⟨e, he, z, hez, heq⟩
      exact ⟨z, mem_filterMap.mpr ⟨e, he, hez⟩, heq⟩
  rw [Bool.eq_iff_iff, hmem]
  constructor
  · rintro ⟨e, he, z, hez, heq⟩
    have hof := align_of ha hb e he
    cases e with
    | left x =>
      obtain rfl := Option.some.inj hez
      have hl : has cmp la k = true := has_iff.mpr ⟨x, mem_align_left he rfl, heq⟩
      rw [hl, has_congr lb heq, show has cmp lb x = false from hof]
      rfl
    | right y =>
      obtain rfl := Option.some.inj hez
      have hr : has cmp lb k = true := has_iff.mpr ⟨y, mem_align_right he rfl, heq⟩
      rw [hr, has_congr la heq, show has cmp la y = false from hof]
      rfl
    | both x y => cases hez
  · intro hxor
    cases hl : has cmp la k with
    | true =>
      obtain ⟨x, hx, heq⟩ := has_iff.mp hl
      have hr : has cmp lb k = false := by simpa [hl] using hxor
      obtain ⟨e, he, hex⟩ := exists_left cmp hx lb
      refine ⟨e, he, x, ?_, heq⟩
      cases e with
      | left x' => exact hex
      | right y' => cases hex
      | both x' y' =>
        obtain rfl := Option.some.inj hex
        refine absurd ?_ (has_false_iff.mp hr y' (mem_align_right he rfl))
        exact eq_trans heq (align_of ha hb _ he)
    | false =>
      have hr : has cmp lb k = true := by simpa [hl] using hxor
      obtain ⟨y, hy, heq⟩ := has_iff.mp hr
      obtain ⟨e, he, hey⟩ := exists_right cmp la hy
      refine ⟨e, he, y, ?_, heq⟩
      cases e with
      | left x' => cases hey
      | right y' => exact hey
      | both x' y' =>
        obtain rfl := Option.some.inj hey
        refine absurd ?_ (has_false_iff.mp hl x' (mem_align_left he rfl))
        exact eq_trans heq (Std.OrientedCmp.eq_symm (align_of ha hb _ he))

end Order

end RustStd.Sorted
