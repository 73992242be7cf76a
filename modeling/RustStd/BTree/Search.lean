import RustStd.BTree.Remove

/-!
# Searching for a bound

A bound cuts the keys of a map in two: as a lower bound it skips those before it. On its way down
the search replaces the bound by one that cuts the keys below the next node in the same way, and
ends at the edge of a leaf that stands at the cut (`lower_bound_spec`). An upper bound is the lower
bound that skips what the upper one reaches.
-/

namespace RustStd.BTree

open Weave List Nat Option NodeRef

variable {K V Q : Type} {lt : K → K → Prop} {cmp : Q → K → Ordering}

/-! ## Orders -/

/-- A comparison with keys of another type that agrees with the order of the keys. -/
def Agrees (lt : K → K → Prop) (cmp : Q → K → Ordering) : Prop :=
  ∀ q a b, lt a b → cmp q b ≠ .lt → cmp q a = .gt

/-- Keys that are compared as what they are borrowed as. -/
theorem Agrees.of_borrow (cmp : Q → Q → Ordering) [Std.TransCmp cmp] (borrow : K → Q) :
    Agrees (fun a b => cmp (borrow a) (borrow b) = .lt) fun q k => cmp q (borrow k) := by
  intro q a b hlt hge
  rw [Std.OrientedCmp.gt_iff_lt]
  refine Std.TransCmp.lt_of_lt_of_isLE hlt ?_
  rw [show cmp (borrow b) q = (cmp q (borrow b)).swap from Std.OrientedCmp.eq_swap]
  cases h : cmp q (borrow b)
  · exact absurd h hge
  · rfl
  · rfl

/-- The pairs are in ascending order. -/
def Ascending (lt : K → K → Prop) (l : List (K × V)) : Prop := l.Pairwise fun a b => lt a.1 b.1

/-! ## Bounds -/

namespace SearchBound

/-- As a lower bound, `b` leaves the key out. -/
def skips (cmp : Q → K → Ordering) : SearchBound Q → K → Bool
  | .Included key, k => cmp key k == .gt
  | .Excluded key, k => cmp key k != .lt
  | .AllIncluded, _ => false
  | .AllExcluded, _ => true

/-- The lower bound at the place of an upper bound. -/
def flip : SearchBound Q → SearchBound Q
  | .Included key => .Excluded key
  | .Excluded key => .Included key
  | .AllIncluded => .AllExcluded
  | .AllExcluded => .AllIncluded

/-- What is before a key that is skipped is skipped too. -/
theorem skips_of_lt (h : Agrees lt cmp) {b : SearchBound Q} {x y : K} (hlt : lt x y)
    (hy : b.skips cmp y) : b.skips cmp x := by
  cases b with
  | Included key =>
    simp only [skips, beq_iff_eq] at hy ⊢
    exact h key x y hlt (by rw [hy]; exact nofun)
  | Excluded key =>
    simp only [skips, bne_iff_ne] at hy ⊢
    rw [h key x y hlt hy]
    exact nofun
  | AllIncluded => exact hy
  | AllExcluded => rfl

end SearchBound

open SearchBound

/-- A bound cuts an ascending list in two. -/
theorem Ascending.cut (ha : Agrees lt cmp) (b : SearchBound Q) {l : List (K × V)}
    (h : Ascending lt l) :
    l = l.filter (fun x => b.skips cmp x.1) ++ l.filter fun x => !b.skips cmp x.1 := by
  induction l with
  | nil => rfl
  | cons x l ih =>
    obtain ⟨hx, hl⟩ := pairwise_cons.mp h
    cases hskip : b.skips cmp x.1 with
    | true =>
      rw [filter_cons_of_pos (by exact hskip), filter_cons_of_neg (by simp [hskip]),
        cons_append, ← ih hl]
    | false =>
      have hnone : ∀ y ∈ l, b.skips cmp y.1 = false := by
        intro y hy
        by_contra hc
        have := skips_of_lt ha (hx y hy) (Bool.eq_true_of_not_eq_false hc)
        rw [hskip] at this
        cases this
      rw [filter_cons_of_neg (by simp [hskip]), filter_cons_of_pos (by simp [hskip]),
        filter_eq_nil_iff.mpr (fun y hy => by simp [hnone y hy]),
        filter_eq_self.mpr (fun y hy => by simp [hnone y hy]), nil_append]

/-- The entries of `ks` that a bound skips are those before `idx`, and for what is between them and
the others the bound `b'` is as good as `b`. -/
structure CutAt (lt : K → K → Prop) (cmp : Q → K → Ordering) (ks : List (K × V))
    (b b' : SearchBound Q) (idx : ℕ) : Prop where
  le : idx ≤ ks.length
  cut : ∀ j x, ks[j]? = some x → (b.skips cmp x.1 = true ↔ j < idx)
  below : ∀ k, (∀ x ∈ ks.take idx, lt x.1 k) → (∀ x ∈ ks.drop idx, lt k x.1) →
    b'.skips cmp k = b.skips cmp k

/-- What `find_key_index_from` finds. -/
theorem find_key_index_from_spec (cmp : Q → K → Ordering) (key : Q) (ks : List (K × V)) (n : ℕ) :
    match find_key_index_from cmp key ks n with
    | .KV i => n ≤ i ∧ (∀ j x, j < i - n → ks[j]? = some x → cmp key x.1 = .gt) ∧
        ∃ x, ks[i - n]? = some x ∧ cmp key x.1 = .eq
    | .Edge i => n ≤ i ∧ i ≤ n + ks.length ∧
        (∀ j x, j < i - n → ks[j]? = some x → cmp key x.1 = .gt) ∧
        ∀ x, ks[i - n]? = some x → cmp key x.1 = .lt := by
  induction ks generalizing n with
  | nil => exact ⟨le_rfl, le_rfl, fun j x hj => by omega, fun x hx => by simp at hx⟩
  | cons kv ks ih =>
    obtain ⟨k, v⟩ := kv
    unfold find_key_index_from
    match hc : cmp key k with
    | .gt =>
      have hrest := ih (n + 1)
      have hstep : ∀ {j : ℕ} {x : K × V} {i : ℕ}, n + 1 ≤ i →
          (∀ j x, j < i - (n + 1) → ks[j]? = some x → cmp key x.1 = .gt) →
          j < i - n → ((k, v) :: ks)[j]? = some x → cmp key x.1 = .gt := by
        intro j x i hi hall hj hx
        cases j with
        | zero =>
          obtain rfl := Option.some.inj hx
          exact hc
        | succ j => exact hall j x (by omega) hx
      match hr : find_key_index_from cmp key ks (n + 1) with
      | .KV i =>
        rw [hr] at hrest
        obtain ⟨hi, hall, x, hx, heq⟩ := hrest
        refine ⟨by omega, fun j y hj hy => hstep hi hall hj hy, x, ?_, heq⟩
        rwa [show i - n = i - (n + 1) + 1 by omega, getElem?_cons_succ]
      | .Edge i =>
        rw [hr] at hrest
        obtain ⟨hi, hle, hall, hx⟩ := hrest
        refine ⟨by omega, by rw [length_cons]; omega, fun j y hj hy => hstep hi hall hj hy,
          fun y hy => hx y ?_⟩
        rwa [show i - n = i - (n + 1) + 1 by omega, getElem?_cons_succ] at hy
    | .eq =>
      refine ⟨le_rfl, fun j x hj => by omega, (k, v), ?_, hc⟩
      rw [Nat.sub_self, getElem?_cons_zero]
    | .lt =>
      refine ⟨le_rfl, by omega, fun j x hj => by omega, fun x hx => ?_⟩
      rw [Nat.sub_self, getElem?_cons_zero] at hx
      obtain rfl := Option.some.inj hx
      exact hc

theorem Ascending.lt_of_lt {ks : List (K × V)} (h : Ascending lt ks) {i j : ℕ} {x y : K × V}
    (hx : ks[i]? = some x) (hy : ks[j]? = some y) (hij : i < j) : lt x.1 y.1 := by
  obtain ⟨hi, rfl⟩ := List.getElem?_eq_some_iff.mp hx
  obtain ⟨hj, rfl⟩ := List.getElem?_eq_some_iff.mp hy
  exact pairwise_iff_getElem.mp h i j hi hj hij

namespace CutAt

variable {ks : List (K × V)} {key : Q} {i : ℕ}

theorem none : CutAt lt cmp ks .AllIncluded .AllIncluded 0 :=
  ⟨zero_le _, fun j x _ => by simp [skips], fun _ _ _ => rfl⟩

theorem all : CutAt lt cmp ks .AllExcluded .AllExcluded ks.length := by
  refine ⟨le_rfl, fun j x hx => ?_, fun _ _ _ => rfl⟩
  obtain ⟨hj, -⟩ := List.getElem?_eq_some_iff.mp hx
  exact iff_of_true rfl hj

variable (ha : Agrees lt cmp)
include ha

variable (hs : Ascending lt ks)
include hs

/-- The key itself is at `i`. -/
theorem included_found {x : K × V}
    (hx : ks[i]? = some x) (heq : cmp key x.1 = .eq) :
    CutAt lt cmp ks (.Included key) .AllExcluded i := by
  obtain ⟨hi, hget⟩ := List.getElem?_eq_some_iff.mp hx
  refine ⟨hi.le, fun j y hy => ?_, fun k _ hk => ?_⟩
  · simp only [skips, beq_iff_eq]
    rcases lt_trichotomy j i with hlt | rfl | hgt
    · exact iff_of_true (ha key _ _ (hs.lt_of_lt hy hx hlt) (by rw [heq]; exact nofun)) hlt
    · obtain rfl := some.inj (hx.symm.trans hy)
      rw [heq]
      exact iff_of_false nofun (lt_irrefl j)
    · refine iff_of_false (fun hc => ?_) (not_lt.mpr hgt.le)
      have := ha key _ _ (hs.lt_of_lt hx hy hgt) (by rw [hc]; exact nofun)
      rw [heq] at this
      cases this
  · have hlt := hk x (by rw [drop_eq_getElem_cons hi, hget]; exact mem_cons_self)
    have := ha key _ _ hlt (by rw [heq]; exact nofun)
    simp [skips, this]

theorem excluded_found {x : K × V}
    (hx : ks[i]? = some x) (heq : cmp key x.1 = .eq) :
    CutAt lt cmp ks (.Excluded key) .AllIncluded (i + 1) := by
  obtain ⟨hi, hget⟩ := List.getElem?_eq_some_iff.mp hx
  have hafter : ∀ k, lt x.1 k → cmp key k = .lt := by
    intro k hlt
    by_contra hc
    have := ha key _ _ hlt hc
    rw [heq] at this
    cases this
  refine ⟨hi, fun j y hy => ?_, fun k hk _ => ?_⟩
  · simp only [skips, bne_iff_ne]
    rcases lt_trichotomy j i with hlt | rfl | hgt
    · rw [ha key _ _ (hs.lt_of_lt hy hx hlt) (by rw [heq]; exact nofun)]
      exact iff_of_true nofun (lt_succ_of_lt hlt)
    · obtain rfl := some.inj (hx.symm.trans hy)
      rw [heq]
      exact iff_of_true nofun (lt_succ_self j)
    · rw [hafter _ (hs.lt_of_lt hx hy hgt)]
      exact iff_of_false (fun h => h rfl) (not_lt.mpr hgt)
  · have hlt := hk x (by
      rw [take_succ_eq_append_getElem hi, hget]
      exact mem_append_right _ mem_cons_self)
    simp [skips, hafter k hlt]

/-- The key would be inserted at `i`: it stands there for either kind of bound. -/
theorem between {b : SearchBound Q}
    (hle : i ≤ ks.length)
    (hb : b = .Included key ∨ b = .Excluded key)
    (hbefore : ∀ j x, j < i → ks[j]? = some x → b.skips cmp x.1)
    (hafter : ∀ x, ks[i]? = some x → cmp key x.1 = .lt) : CutAt lt cmp ks b b i := by
  refine ⟨hle, fun j y hy => ⟨fun hskip => ?_, fun hj => hbefore j y hj hy⟩, fun _ _ _ => rfl⟩
  by_contra hj
  have hlt : cmp key y.1 = .lt := by
    rcases eq_or_lt_of_le (not_lt.mp hj) with rfl | hgt
    · exact hafter y hy
    · obtain ⟨hjlt, -⟩ := List.getElem?_eq_some_iff.mp hy
      have hx := getElem?_eq_getElem (hgt.trans hjlt)
      by_contra hc
      have := ha key _ _ (hs.lt_of_lt hx hy hgt) hc
      rw [hafter _ hx] at this
      cases this
  rcases hb with rfl | rfl
  · simp [skips, hlt] at hskip
  · simp [skips, hlt] at hskip

end CutAt

/-! ## In a node -/

section Node

variable {H : Heap K V} {x : NodeRef} {ks : List (K × V)} {es : List ℕ}

theorem find_key_index_spec (cmp : Q → K → Ordering) (hs : H.shape x.node = some (ks, es)) (key : Q)
    {start : ℕ} (hstart : start ≤ ks.length) : ∃ r, x.find_key_index H cmp key start = some r ∧
      match r with
      | .KV i => start ≤ i ∧ ∃ y, ks[i]? = some y ∧ cmp key y.1 = .eq
      | .Edge i => start ≤ i ∧ i ≤ ks.length ∧
          (∀ j y, start ≤ j → j < i → ks[j]? = some y → cmp key y.1 = .gt) ∧
          ∀ y, ks[i]? = some y → cmp key y.1 = .lt := by
  obtain ⟨n, hn, rfl, -⟩ := Heap.get_of_shape hs
  have hspec := find_key_index_from_spec cmp key (n.kvs.drop start) start
  refine ⟨find_key_index_from cmp key (n.kvs.drop start) start, ?_, ?_⟩
  · simp [find_key_index, hn, assert_some hstart]
  cases hr : find_key_index_from cmp key (n.kvs.drop start) start with
  | KV i =>
    rw [hr] at hspec
    obtain ⟨hi, -, y, hy, heq⟩ := hspec
    rw [getElem?_drop, Nat.add_sub_cancel' hi] at hy
    exact ⟨hi, y, hy, heq⟩
  | Edge i =>
    rw [hr] at hspec
    obtain ⟨hi, hle, hall, hy⟩ := hspec
    rw [length_drop] at hle
    refine ⟨hi, by omega, fun j y hj hji hget => hall (j - start) y (by omega) ?_,
      fun y hget => hy y ?_⟩
    · rwa [getElem?_drop, Nat.add_sub_cancel' hj]
    · rwa [getElem?_drop, Nat.add_sub_cancel' hi]

theorem find_lower_bound_index_spec (ha : Agrees lt cmp) (hs : H.shape x.node = some (ks, es))
    (hks : Ascending lt ks) (b : SearchBound Q) :
    ∃ idx b', x.find_lower_bound_index H cmp b = some (idx, b') ∧ CutAt lt cmp ks b b' idx := by
  unfold find_lower_bound_index
  cases b with
  | Included key =>
    obtain ⟨r, hr, hspec⟩ := find_key_index_spec cmp hs key (zero_le ks.length)
    dsimp only
    rw [hr, some_bind]
    cases r with
    | KV i =>
      obtain ⟨-, y, hy, heq⟩ := hspec
      exact ⟨i, _, rfl, .included_found ha hks hy heq⟩
    | Edge i =>
      obtain ⟨-, hle, hbefore, hafter⟩ := hspec
      refine ⟨i, _, rfl, .between ha hks hle (Or.inl rfl) (fun j y hj hy => ?_) hafter⟩
      simp [skips, hbefore j y (zero_le j) hj hy]
  | Excluded key =>
    obtain ⟨r, hr, hspec⟩ := find_key_index_spec cmp hs key (zero_le ks.length)
    dsimp only
    rw [hr, some_bind]
    cases r with
    | KV i =>
      obtain ⟨-, y, hy, heq⟩ := hspec
      exact ⟨i + 1, _, rfl, .excluded_found ha hks hy heq⟩
    | Edge i =>
      obtain ⟨-, hle, hbefore, hafter⟩ := hspec
      refine ⟨i, _, rfl, .between ha hks hle (Or.inr rfl) (fun j y hj hy => ?_) hafter⟩
      simp [skips, hbefore j y (zero_le j) hj hy]
  | AllIncluded => exact ⟨0, _, rfl, .none⟩
  | AllExcluded =>
    rw [len_spec hs, some_bind]
    exact ⟨ks.length, _, rfl, .all⟩

/-- The upper bound reaches the entries before `start`, which need not be looked at. -/
theorem find_upper_bound_index_spec (ha : Agrees lt cmp) (hs : H.shape x.node = some (ks, es))
    (hks : Ascending lt ks) (b : SearchBound Q) {start : ℕ} (hstart : start ≤ ks.length)
    (hbefore : ∀ j y, j < start → ks[j]? = some y → b.flip.skips cmp y.1) :
    ∃ idx b', x.find_upper_bound_index H cmp b start = some (idx, b') ∧ start ≤ idx ∧
      CutAt lt cmp ks b.flip b'.flip idx := by
  unfold find_upper_bound_index
  cases b with
  | Included key =>
    obtain ⟨r, hr, hspec⟩ := find_key_index_spec cmp hs key hstart
    dsimp only
    rw [hr, some_bind]
    cases r with
    | KV i =>
      obtain ⟨hi, y, hy, heq⟩ := hspec
      exact ⟨i + 1, _, rfl, by omega, .excluded_found ha hks hy heq⟩
    | Edge i =>
      obtain ⟨hi, hle, hgt, hafter⟩ := hspec
      refine ⟨i, _, rfl, hi, .between ha hks hle (Or.inr rfl) (fun j y hj hy => ?_) hafter⟩
      by_cases hjs : j < start
      · exact hbefore j y hjs hy
      · simp [SearchBound.flip, skips, hgt j y (not_lt.mp hjs) hj hy]
  | Excluded key =>
    obtain ⟨r, hr, hspec⟩ := find_key_index_spec cmp hs key hstart
    dsimp only
    rw [hr, some_bind]
    cases r with
    | KV i =>
      obtain ⟨hi, y, hy, heq⟩ := hspec
      exact ⟨i, _, rfl, hi, .included_found ha hks hy heq⟩
    | Edge i =>
      obtain ⟨hi, hle, hgt, hafter⟩ := hspec
      refine ⟨i, _, rfl, hi, .between ha hks hle (Or.inl rfl) (fun j y hj hy => ?_) hafter⟩
      by_cases hjs : j < start
      · exact hbefore j y hjs hy
      · simp [SearchBound.flip, skips, hgt j y (not_lt.mp hjs) hj hy]
  | AllIncluded =>
    rw [len_spec hs, some_bind]
    exact ⟨ks.length, _, rfl, hstart, .all⟩
  | AllExcluded =>
    -- nothing is reached, so nothing was before `start`
    obtain rfl : start = 0 := by
      by_contra h0
      have h := hbefore 0 _ (pos_of_ne_zero h0)
        (getElem?_eq_getElem (lt_of_lt_of_le (pos_of_ne_zero h0) hstart))
      cases h
    exact ⟨0, _, rfl, le_rfl, .none⟩

end Node

/-! ## Down the tree -/

/-- On the way down: `b` skips what is before the node `x` and nothing after it, and `b'` is as good
as `b` below it. -/
structure Cutting (cmp : Q → K → Ordering) (H : Heap K V) (top : NodeRef) (b : SearchBound Q)
    (x : NodeRef) (b' : SearchBound Q) : Prop where
  ctx : ∃ L R, Ctx H top x L R ∧ (∀ y ∈ L, b.skips cmp y.1 = true) ∧
    ∀ y ∈ R, b.skips cmp y.1 = false
  same : ∀ y ∈ x.inorder H, b'.skips cmp y.1 = b.skips cmp y.1

/-- A leaf edge at the cut. -/
structure CutEdge (cmp : Q → K → Ordering) (H : Heap K V) (top : NodeRef) (b : SearchBound Q)
    (e : Handle .Edge) (pre post : List (K × V)) : Prop where
  leaf : e.node.height = 0
  edge : EdgeAt H top e pre post
  skipped : ∀ y ∈ pre, b.skips cmp y.1 = true
  kept : ∀ y ∈ post, b.skips cmp y.1 = false

section Down

variable {H : Heap K V} {ht : ℕ → ℕ} {top : NodeRef} {b b' b'' : SearchBound Q} {h p c idx : ℕ}

theorem Ctx.ascending {x : NodeRef} {L R : List (K × V)} (F : Forest H ht) (hctx : Ctx H top x L R)
    (hasc : Ascending lt (top.inorder H)) : Ascending lt (x.inorder H) := by
  rw [hctx.inorder F] at hasc
  exact (pairwise_append.mp (pairwise_append.mp hasc).2.1).1

theorem Ascending.kvs {x : NodeRef} (hasc : Ascending lt (x.inorder H)) :
    Ascending lt (H.kvs x.node) := by
  rw [inorder, Heap.inorder_eq_weave] at hasc
  exact hasc.sublist (sublist_weave _ _)

/-- The pairs before an edge are skipped with the entry before it. -/
theorem skipped_before (ha : Agrees lt cmp) {cs : List (List (K × V))} {ks : List (K × V)}
    (hasc : Ascending lt (before cs (ks.take idx))) (hcut : CutAt lt cmp ks b b' idx) :
    ∀ y ∈ before cs (ks.take idx), b.skips cmp y.1 = true := by
  intro y hy
  cases idx with
  | zero =>
    rw [take_zero, before_no_entries] at hy
    exact absurd hy not_mem_nil
  | succ i =>
    have hi : i < ks.length := hcut.le
    have hget := getElem?_eq_getElem hi
    have hlast := (hcut.cut i _ hget).mpr (lt_succ_self i)
    rw [before_take_succ cs ks hget, ← append_assoc] at hasc hy
    rcases mem_append.mp hy with hy | hy
    · exact skips_of_lt ha
        ((pairwise_append.mp hasc).2.2 y hy _ mem_cons_self) hlast
    · rwa [mem_singleton.mp hy]

/-- The pairs after an edge are kept with the entry after it. -/
theorem kept_after (ha : Agrees lt cmp) {cs : List (List (K × V))} {ks : List (K × V)}
    (hasc : Ascending lt (after (ks.drop idx) cs)) (hcut : CutAt lt cmp ks b b' idx) :
    ∀ y ∈ after (ks.drop idx) cs, b.skips cmp y.1 = false := by
  intro y hy
  rcases lt_or_ge idx ks.length with hi | hi
  · have hget := getElem?_eq_getElem hi
    have hfirst : b.skips cmp ks[idx].1 = false := by
      by_contra hc
      exact lt_irrefl idx ((hcut.cut idx _ hget).mp (Bool.eq_true_of_not_eq_false hc))
    rw [drop_eq_getElem_cons hi, Weave.after] at hasc hy
    rcases mem_cons.mp hy with rfl | hy
    · exact hfirst
    · by_contra hc
      have := skips_of_lt ha (rel_of_pairwise_cons hasc hy)
        (Bool.eq_true_of_not_eq_false hc)
      rw [hfirst] at this
      cases this
  · rw [drop_of_length_le hi, after_no_entries] at hy
    exact absurd hy not_mem_nil

theorem Cutting.child (ha : Agrees lt cmp) (F : Forest H ht) (hasc : Ascending lt (top.inorder H))
    (hx : Cutting cmp H top b ⟨h + 1, p⟩ b') (hcut : CutAt lt cmp (H.kvs p) b' b'' idx)
    (hc : H.edge p idx = some c) : Cutting cmp H top b ⟨h, c⟩ b'' := by
  obtain ⟨L, R, hctx, hL, hR⟩ := hx.ctx
  have hasc := hctx.ascending F hasc
  have hat := F.inorder_at hc h
  have hsame := hx.same
  rw [inorder] at hasc hsame
  rw [hat] at hasc hsame
  obtain ⟨hasc_before, hasc_rest, hcross⟩ := pairwise_append.mp hasc
  obtain ⟨hasc_child, hasc_after, hcross'⟩ := pairwise_append.mp hasc_rest
  refine ⟨⟨_, _, hctx.child hc, fun y hy => ?_, fun y hy => ?_⟩, fun y hy => ?_⟩
  · rcases mem_append.mp hy with hy | hy
    · exact hL y hy
    · rw [← hsame y (mem_append_left _ hy)]
      exact skipped_before ha hasc_before hcut y hy
  · rcases mem_append.mp hy with hy | hy
    · rw [← hsame y (mem_append_right _ (mem_append_right _ hy))]
      exact kept_after ha hasc_after hcut y hy
    · exact hR y hy
  · rw [← hsame y (mem_append_right _ (mem_append_left _ hy))]
    refine hcut.below y.1 (fun z hz => ?_) fun z hz => ?_
    · exact hcross z ((sublist_before _ _).mem hz) y (mem_append_left _ hy)
    · exact hcross' y hy z ((sublist_after _ _).mem hz)

theorem Cutting.leaf (hx : Cutting cmp H top b ⟨0, p⟩ b')
    (hcut : CutAt lt cmp (H.kvs p) b' b'' idx) :
    ∃ pre post, CutEdge cmp H top b ⟨⟨0, p⟩, idx⟩ pre post := by
  obtain ⟨L, R, hctx, hL, hR⟩ := hx.ctx
  have hsame : ∀ y ∈ H.kvs p, b'.skips cmp y.1 = b.skips cmp y.1 := hx.same
  refine ⟨_, _, rfl, hctx.edgeAt hcut.le, fun y hy => ?_, fun y hy => ?_⟩
  · rcases mem_append.mp hy with hy | hy
    · exact hL y hy
    · obtain ⟨j, hj, hget⟩ := mem_take_iff_getElem.mp hy
      rw [← hsame y (mem_of_mem_take hy)]
      refine (hcut.cut j y ?_).mpr (by omega)
      rw [getElem?_eq_getElem (by omega), hget]
  · rcases mem_append.mp hy with hy | hy
    · obtain ⟨j, hj⟩ := getElem?_of_mem hy
      rw [getElem?_drop] at hj
      rw [← hsame y (mem_of_mem_drop hy)]
      by_contra hc
      have := (hcut.cut _ y hj).mp (Bool.eq_true_of_not_eq_false hc)
      omega
    · exact hR y hy

theorem descend_to_bound_spec (ha : Agrees lt cmp) (X : Rooted H ht top)
    (hasc : Ascending lt (top.inorder H)) (f : SearchBound Q → SearchBound Q)
    {find : NodeRef → SearchBound Q → Option (ℕ × SearchBound Q)}
    (hfind : ∀ x ks es b, H.shape x.node = some (ks, es) → Ascending lt ks →
      ∃ idx b', find x b = some (idx, b') ∧ CutAt lt cmp ks (f b) (f b') idx) (b : SearchBound Q) :
    ∃ e pre post, top.descend_to_bound H find b = some e ∧ CutEdge cmp H top (f b) e pre post := by
  have hrun : ∃ e, top.descend_to_bound H find b = some e ∧
      ∃ pre post, CutEdge cmp H top (f b) e pre post := by
    unfold descend_to_bound
    refine runLoop_spec _ (fun s => Cutting cmp H top (f b) s.1 (f s.2)) (fun s => s.1.height) _
      (fun s hs => ?_) _ (top, b) ⟨⟨[], [], .top, nofun, nofun⟩, fun _ _ => rfl⟩
      (lt_succ_self _)
    obtain ⟨⟨m, q⟩, b'⟩ := s
    obtain ⟨L, R, hctx, -, -⟩ := hs.ctx
    have hx := hctx.valid X.forest X.top_valid
    obtain ⟨idx, b'', hidx, hcut⟩ := hfind _ _ _ b' hx.1 (hctx.ascending X.forest hasc).kvs
    dsimp only at hx hidx hcut hs ⊢
    rw [hidx, some_bind]
    rw [new_edge_spec hx.1 hcut.le, some_bind]
    cases m with
    | zero =>
      rw [if_pos rfl]
      exact hs.leaf hcut
    | succ m =>
      obtain ⟨c, hc⟩ := X.forest.exists_edge hx hcut.le
      rw [if_neg (succ_ne_zero m), descend_spec rfl hc, some_bind]
      exact ⟨hs.child ha X.forest hasc hcut hc, lt_succ_self m⟩
  obtain ⟨e, hrun, pre, post, he⟩ := hrun
  exact ⟨e, pre, post, hrun, he⟩

/-- **Searching for a lower bound** ends at the edge between the pairs that it skips and the
others. -/
theorem lower_bound_spec (ha : Agrees lt cmp) (X : Rooted H ht top)
    (hasc : Ascending lt (top.inorder H)) (b : SearchBound Q) :
    ∃ e pre post, top.lower_bound H cmp b = some e ∧ CutEdge cmp H top b e pre post :=
  descend_to_bound_spec ha X hasc id
    (fun _ _ _ b hs hks => find_lower_bound_index_spec ha hs hks b) b

end Down

end RustStd.BTree
