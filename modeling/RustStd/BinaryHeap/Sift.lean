import RustStd.BinaryHeap.Model
import RustStd.Foundations.HeapOrder

/-!
# What sifting does

The specifications of `sift_up`, `sift_down_range` and `sift_down_to_bottom`: from a slice in heap
order off one position they end, without a fault, with a permutation of the slice in heap order.
A hole stands for the sequence with its element put back (`Hole.view`), and moving it is an exchange
of two entries there (`SiftInv.move`).
-/

namespace RustStd.BinaryHeap

open HeapOrder List Nat

variable {α : Type} {l : List α} {h : Hole α}

/-- A list as a sequence; past the end it is `d`. -/
def view (d : α) (l : List α) : ℕ → α := fun k => l.getD k d

theorem view_eq (d : α) {k : ℕ} (h : k < l.length) : view d l k = l[k] := by
  rw [view, getD_eq_getElem _ _ h]

theorem getElem?_eq_view (d : α) {k : ℕ} (h : k < l.length) : l[k]? = some (view d l k) := by
  rw [view_eq d h, getElem?_eq_getElem h]

/-- The sequence with the hole filled. -/
def Hole.view (d : α) (h : Hole α) : ℕ → α :=
  fun k => if k = h.pos then h.elt else BinaryHeap.view d h.data k

theorem Hole.view_fill (d : α) (hp : h.pos < h.data.length) :
    BinaryHeap.view d h.fill = h.view d := by
  funext k
  simp only [BinaryHeap.view, Hole.fill, Hole.view, getD_eq_getElem?_getD, getElem?_set]
  by_cases hk : k = h.pos
  · subst hk
    simp [hp]
  · rw [if_neg (Ne.symm hk), if_neg hk]

/-- A hole in the first `n` places of a permutation of `l` that keeps the other places. -/
structure SiftInv (l : List α) (n : ℕ) (h : Hole α) : Prop where
  pos_lt : h.pos < n
  le : n ≤ l.length
  length : h.data.length = l.length
  perm : h.fill.Perm l
  past : ∀ k, n ≤ k → h.data[k]? = l[k]?

variable {n : ℕ}

theorem SiftInv.new {pos : ℕ} (hp : pos < n) (hn : n ≤ l.length) (d : α) :
    ∃ h, Hole.new l pos = some h ∧ SiftInv l n h ∧ h.pos = pos ∧ h.view d = view d l := by
  have hlt : pos < l.length := by lia
  refine ⟨⟨l, l[pos], pos⟩, by simp [Hole.new, hlt], ⟨hp, hn, rfl, ?_, fun _ _ => rfl⟩, rfl, ?_⟩
  · simp [Hole.fill]
  · funext k
    simp only [Hole.view]
    split
    · rename_i hk
      subst hk
      exact (view_eq d hlt).symm
    · rfl

theorem SiftInv.get (hi : SiftInv l n h) (d : α) {i : ℕ}
    (hn : i < n) (hne : i ≠ h.pos) : h.get i = some (h.view d i) := by
  have hlt : i < h.data.length := by
    have := hi.le
    have := hi.length
    lia
  rw [Hole.get, if_pos hne, getElem?_eq_view d hlt, Hole.view, if_neg hne]

/-- **Moving the hole exchanges two entries.** -/
theorem SiftInv.move (hi : SiftInv l n h) (d : α) {i : ℕ} (hn : i < n) (hne : i ≠ h.pos) :
    ∃ h', h.move_to i = some h' ∧ SiftInv l n h' ∧ h'.pos = i ∧ h'.elt = h.elt ∧
      h'.view d = exchange (h.view d) h.pos i := by
  have hle := hi.le
  have hlen := hi.length
  have hpos := hi.pos_lt
  have hlt : i < h.data.length := by lia
  have hplt : h.pos < h.data.length := by lia
  refine ⟨⟨h.data.set h.pos h.data[i], h.elt, i⟩, ?_, ⟨hn, hle, by simpa using hlen, ?_, ?_⟩, rfl,
    rfl, ?_⟩
  · rw [Hole.move_to, if_pos hne]
    simp [hlt]
  · refine List.Perm.trans ?_ hi.perm
    -- both fillings come from the filled slice by writing at the two positions
    have hswap := set_set_perm
      (show h.pos < h.fill.length by simpa [Hole.fill] using hplt)
      (show i < h.fill.length by simpa [Hole.fill] using hlt)
    refine List.Perm.trans (List.Perm.of_eq ?_) hswap
    simp [Hole.fill, Ne.symm hne]
  · intro k hk
    rw [getElem?_set_ne (by lia)]
    exact hi.past k hk
  · funext k
    simp only [Hole.view, BinaryHeap.view, exchange, getD_eq_getElem?_getD, getElem?_set]
    by_cases hk : k = i
    · subst hk
      simp [hne]
    · rw [if_neg hk, if_neg hk]
      by_cases hkp : k = h.pos
      · subst hkp
        rw [if_pos rfl, if_pos rfl, if_neg hne, if_pos hplt, getElem?_eq_getElem hlt]
      · rw [if_neg (Ne.symm hkp), if_neg hkp, if_neg hkp]

theorem SiftInv.fill_length (hi : SiftInv l n h) : h.fill.length = l.length := by
  rw [Hole.fill, length_set, hi.length]

theorem SiftInv.view_fill (hi : SiftInv l n h) (d : α) :
    BinaryHeap.view d h.fill = h.view d :=
  Hole.view_fill d (by have := hi.pos_lt; have := hi.le; have := hi.length; lia)

theorem SiftInv.fill_past (hi : SiftInv l n h) (k : ℕ)
    (hk : n ≤ k) : h.fill[k]? = l[k]? := by
  have := hi.pos_lt
  rw [Hole.fill, getElem?_set_ne (by lia), hi.past k hk]

variable [Preorder α] {d : α}

/-- What a sift leaves: a permutation of the slice, in heap order on its first `n` places, with
the other places as they were. -/
structure Sifted (d : α) (lo n : ℕ) (l l' : List α) : Prop where
  perm : l'.Perm l
  ordered : HeapOrdered (view d l') lo n
  past : ∀ k, n ≤ k → l'[k]? = l[k]?

theorem Sifted.length {lo : ℕ} {l l' : List α} (h : Sifted d lo n l l') :
    l'.length = l.length := h.perm.length_eq

theorem SiftInv.sifted {lo : ℕ} (hi : SiftInv l n h)
    (ho : HeapOrdered (h.view d) lo n) : Sifted d lo n l h.fill :=
  ⟨hi.perm, by rwa [hi.view_fill d], hi.fill_past⟩

/-- The hole on its way down from `pos`: the order off it, and whether the entry at `pos` grew. -/
structure DownInv (d : α) (lo last pos : ℕ) (l : List α) (h : Hole α) : Prop where
  inv : SiftInv l last h
  lo_le : lo ≤ h.pos
  hole : HoleAt (h.view d) lo last h.pos
  below : BelowParent (h.view d) lo h.pos
  moved : (h.pos = pos ∧ h.fill = l) ∨ (pos < h.pos ∧ view d l pos < h.view d pos)
  start : h.elt = view d l pos

theorem DownInv.move {lo last pos : ℕ}
    (hi : DownInv d lo last pos l h) {c : ℕ} (hlt : h.pos < c) (hc : c < last)
    (hp : parent c = h.pos)
    (hmax : ∀ j, j < last → 0 < j → parent j = h.pos → h.view d j ≤ h.view d c)
    (hgrow : h.elt < h.view d c) :
    ∃ h', h.move_to c = some h' ∧ DownInv d lo last pos l h' ∧ h'.pos = c := by
  obtain ⟨h', hmove, hinv', hpos', helt', hview'⟩ := hi.inv.move d hc hlt.ne'
  have helt : h.view d h.pos = h.elt := if_pos rfl
  have hlo := hi.lo_le
  refine ⟨h', hmove, ⟨hinv', by lia, ?_, ?_, Or.inr ?_, helt'.trans hi.start⟩, hpos'⟩
  · rw [hview', hpos']
    exact hi.hole.down (by lia) hp hc hi.lo_le hmax
  · rw [hview', hpos']
    exact belowParent_down (by lia) hp (by rw [helt]; exact hgrow.le)
  · rw [hview', hpos']
    rcases hi.moved with ⟨hpos, -⟩ | ⟨hpos, hm⟩
    · refine ⟨by lia, ?_⟩
      rw [← hpos, exchange_left, hpos, ← hi.start]
      exact hgrow
    · refine ⟨by lia, ?_⟩
      rw [exchange_of_ne _ (by lia) (by lia)]
      exact hm

/-- The result of sifting down from `pos`: order, and the entry at `pos` is as it was or grew. -/
structure SiftedDown (d : α) (lo last pos : ℕ) (l l' : List α) (p : ℕ) : Prop where
  sifted : Sifted d lo last l l'
  moved : (p = pos ∧ l' = l) ∨ (pos < p ∧ view d l pos < view d l' pos)

theorem DownInv.siftedDown {lo last pos : ℕ}
    (hi : DownInv d lo last pos l h) (habove : AboveChildren (h.view d) last h.pos) :
    SiftedDown d lo last pos l h.fill h.pos :=
  ⟨hi.inv.sifted (hi.hole.heapOrdered habove hi.below), by rw [hi.inv.view_fill d]; exact hi.moved⟩

variable [Std.Total (α := α) (· ≤ ·)]

theorem lt_of_not_le {x y : α} (h : ¬ y ≤ x) : x < y :=
  lt_iff_le_not_ge.2 ⟨(Std.Total.total (r := (· ≤ ·)) x y).resolve_right h, h⟩

theorem le_of_not_lt {x y : α} (h : ¬ x < y) : y ≤ x := by
  by_contra hle
  exact h (lt_of_not_le hle)

variable [DecidableLE α]

/-! ## `sift_up` -/

/-- The hole rises while its parent is less. -/
theorem sift_up_spec (l : List α) (pos n : ℕ) (hp : pos < n)
    (hn : n ≤ l.length) (hole : HoleAt (view d l) 0 n pos)
    (habove : AboveChildren (view d l) n pos) :
    ∃ l' p, sift_up l 0 pos = some (l', p) ∧ Sifted d 0 n l l' := by
  obtain ⟨h, hnew, hinv, rfl, hview⟩ := SiftInv.new hp hn d
  rw [← hview] at hole habove
  obtain ⟨h', hrun, hinv', hord⟩ := runLoop_spec (sift_up_turn 0)
    (fun h : Hole α => SiftInv l n h ∧ HoleAt (h.view d) 0 n h.pos ∧
      AboveChildren (h.view d) n h.pos)
    (fun h => h.pos) (fun h => SiftInv l n h ∧ HeapOrdered (h.view d) 0 n)
    (by
      rintro h ⟨hinv, hole, habove⟩
      unfold sift_up_turn
      split
      · rename_i h0
        have hlt : parent h.pos < h.pos := parent_lt h0
        have hn' : parent h.pos < n := hlt.trans hinv.pos_lt
        have helt : h.view d h.pos = h.elt := if_pos rfl
        have hget := hinv.get d hn' hlt.ne
        obtain ⟨h', hmove, hinv', hpos', helt', hview'⟩ := hinv.move d hn' hlt.ne
        change h.get ((h.pos - 1) / 2) = _ at hget
        change h.move_to ((h.pos - 1) / 2) = _ at hmove
        simp only [hget, hmove, some_bind]
        split
        · rename_i hle
          refine ⟨hinv, hole.heapOrdered habove fun _ _ => ?_⟩
          rw [helt]
          exact hle
        rename_i hle
        have hle' : h.view d (parent h.pos) ≤ h.view d h.pos := by
          rw [helt]
          exact (Std.Total.total (r := (· ≤ ·)) _ _).resolve_left hle
        refine ⟨⟨hinv', ?_, ?_⟩, hpos'.trans_lt hlt⟩
        · rw [hview', hpos']
          exact hole.up h0 hinv.pos_lt (zero_le _)
        · rw [hview', hpos']
          exact hole.aboveChildren_up h0 (zero_le _) hle'
      · rename_i h0
        refine ⟨hinv, hole.heapOrdered habove fun h0' => absurd h0' (by lia)⟩)
    (h.pos + 1) h ⟨hinv, hole, habove⟩ (lt_succ_self _)
  refine ⟨h'.fill, h'.pos, ?_, hinv'.sifted hord⟩
  simp [sift_up, hnew, hrun]

/-! ## `sift_down_range` -/

variable {t : Target}

/-- Where both children exist, `greater_child` finds one that is at least the other. -/
theorem greater_child_spec {last : ℕ}
    (hi : SiftInv l last h) (hmax : last ≤ t.isizeMax) (hc : 2 * h.pos + 1 ≤ last - 2) :
    ∃ c, greater_child t h (2 * h.pos + 1) = some c ∧ h.pos < c ∧ c < last ∧ parent c = h.pos ∧
      ∀ j, j < last → 0 < j → parent j = h.pos → h.view d j ≤ h.view d c := by
  have hcard := t.two_mul_isizeMax
  have hwrap : t.wrap (2 * h.pos + 1 + 1) = 2 * h.pos + 2 := Target.wrap_of_lt (by lia)
  have hl := hi.get d (i := 2 * h.pos + 1) (by lia) (by lia)
  have hr := hi.get d (i := 2 * h.pos + 2) (by lia) (by lia)
  simp only [greater_child, hwrap, hl, hr, some_bind]
  split
  · rename_i hle
    refine ⟨_, rfl, by lia, by lia, parent_right _, fun j _ h0 hp => ?_⟩
    rcases eq_child_of_parent_eq h0 hp with rfl | rfl
    exacts [hle, le_rfl]
  · rename_i hle
    refine ⟨_, rfl, by lia, by lia, parent_left _, fun j _ h0 hp => ?_⟩
    rcases eq_child_of_parent_eq h0 hp with rfl | rfl
    exacts [le_rfl, (lt_of_not_le hle).le]

variable [DecidableLT α]

/-- What the loop of `sift_down_range` ends with: the result, or a hole with at most one child. -/
def DownPost (d : α) (lo last pos : ℕ) (l : List α) : Except (Hole α) (Hole α × ℕ) → Prop
  | .error h => SiftedDown d lo last pos l h.fill h.pos
  | .ok (h, child) => DownInv d lo last pos l h ∧ child = 2 * h.pos + 1 ∧ last - 1 ≤ child

omit [DecidableLT α] in
theorem sift_down_turn_spec (d : α) (l : List α) (lo pos last : ℕ)
    (hmax : last ≤ t.isizeMax) (s : Hole α × ℕ)
    (hs : DownInv d lo last pos l s.1 ∧ s.2 = 2 * s.1.pos + 1) :
    TurnSpec (fun s => DownInv d lo last pos l s.1 ∧ s.2 = 2 * s.1.pos + 1)
      (fun s => last - s.1.pos) (DownPost d lo last pos l) s (sift_down_turn t last s) := by
  obtain ⟨h, child⟩ := s
  obtain ⟨hi, rfl⟩ : DownInv d lo last pos l h ∧ child = 2 * h.pos + 1 := hs
  have hcard := t.two_mul_isizeMax
  simp only [sift_down_turn]
  split
  · rename_i hle
    obtain ⟨c, hc, hlt, hcl, hpc, hbig⟩ := greater_child_spec (d := d) hi.inv hmax hle
    have hget := hi.inv.get d hcl hlt.ne'
    simp only [hc, hget, some_bind]
    split
    · rename_i hstop
      refine hi.siftedDown fun j hj h0 hp => (hbig j hj h0 hp).trans ?_
      rwa [show h.view d h.pos = h.elt from if_pos rfl]
    · rename_i hgrow
      obtain ⟨h', hmove, hi', hpos'⟩ := hi.move hlt hcl hpc hbig (lt_of_not_le hgrow)
      simp only [hmove, some_bind]
      refine ⟨⟨hi', ?_⟩, ?_⟩
      · exact Target.wrap_of_lt (by lia)
      · exact Nat.sub_lt_sub_left hi.inv.pos_lt (show h.pos < h'.pos by lia)
  · rename_i hle
    exact ⟨hi, rfl, by lia⟩

/-- **Sifting down**: from order off `pos`, with the element there at most its parent. -/
theorem sift_down_range_spec (l : List α) (lo pos last : ℕ)
    (hmax : last ≤ t.isizeMax) (hp : pos < last) (hlast : last ≤ l.length) (hlo : lo ≤ pos)
    (hole : HoleAt (view d l) lo last pos) (hbelow : BelowParent (view d l) lo pos) :
    ∃ l' p, sift_down_range t l pos last = some (l', p) ∧ SiftedDown d lo last pos l l' p := by
  have hcard := t.two_mul_isizeMax
  obtain ⟨h, hnew, hinv, rfl, hview⟩ := SiftInv.new hp hlast d
  have helt : h.view d h.pos = h.elt := if_pos rfl
  have hfill : h.fill = l := by
    refine ext_getElem hinv.fill_length fun k h1 h2 => ?_
    rw [← view_eq d h1, ← view_eq d h2, hinv.view_fill d, hview]
  have hi : DownInv d lo last h.pos l h :=
    ⟨hinv, hlo, by rw [hview]; exact hole, by rw [hview]; exact hbelow, Or.inl ⟨rfl, hfill⟩,
      by rw [← helt, hview]⟩
  obtain ⟨r, hrun, hpost⟩ := runLoop_spec _ _ _ _
    (sift_down_turn_spec d l lo h.pos last hmax) (last + 1) (h, 2 * h.pos + 1) ⟨hi, rfl⟩
    (lt_succ_of_le (sub_le _ _))
  have hwrap : t.wrap (2 * h.pos + 1) = 2 * h.pos + 1 := Target.wrap_of_lt (by lia)
  simp only [sift_down_range, hnew, hwrap, hrun, some_bind]
  match r, hpost with
  | .error h', hpost => exact ⟨_, _, rfl, hpost⟩
  | .ok (h', child), ⟨hi', hchild, hge⟩ =>
    subst hchild
    have hnone : 2 * h'.pos + 1 ≠ last - 1 → AboveChildren (h'.view d) last h'.pos := by
      intro hne j hj h0 hpj
      have := eq_child_of_parent_eq h0 hpj
      lia
    have hone : 2 * h'.pos + 1 = last - 1 → ∀ j, j < last → 0 < j → parent j = h'.pos →
        j = 2 * h'.pos + 1 := by
      intro heq j hj h0 hpj
      have := eq_child_of_parent_eq h0 hpj
      lia
    simp only
    split
    · rename_i heq
      have hget := hi'.inv.get d (i := 2 * h'.pos + 1) (by lia) (by lia)
      simp only [hget, some_bind]
      split
      · rename_i hgrow
        obtain ⟨h'', hmove, hi'', hpos''⟩ := hi'.move (c := 2 * h'.pos + 1) (by lia) (by lia)
          (parent_left _) (fun j hj h0 hpj => by rw [hone heq j hj h0 hpj]) hgrow
        simp only [hmove, some_bind]
        refine ⟨_, _, rfl, hi''.siftedDown fun j hj h0 hpj => ?_⟩
        have := eq_child_of_parent_eq h0 hpj
        lia
      · rename_i hstop
        refine ⟨_, _, rfl, hi'.siftedDown fun j hj h0 hpj => ?_⟩
        rw [hone heq j hj h0 hpj, show h'.view d h'.pos = h'.elt from if_pos rfl]
        exact le_of_not_lt hstop
    · rename_i hne
      exact ⟨_, _, rfl, hi'.siftedDown (hnone hne)⟩

/-! ## `sift_down_to_bottom` -/

omit [DecidableLT α] in
/-- **Sifting to the bottom and up again**: from order off the root. -/
theorem sift_down_to_bottom_spec (hmax : l.length ≤ t.isizeMax)
    (h0 : 0 < l.length) (hole : HoleAt (view d l) 0 l.length 0) :
    ∃ l', sift_down_to_bottom t l 0 = some l' ∧ Sifted d 0 l.length l l' := by
  have hcard := t.two_mul_isizeMax
  obtain ⟨h, hnew, hinv, hpos, hview⟩ := SiftInv.new h0 le_rfl d
  obtain ⟨r, hrun, hinv', hole', hchild, hge⟩ := runLoop_spec (to_bottom_turn t l.length)
    (fun s : Hole α × ℕ => SiftInv l l.length s.1 ∧ HoleAt (s.1.view d) 0 l.length s.1.pos ∧
      s.2 = 2 * s.1.pos + 1)
    (fun s => l.length - s.1.pos)
    (fun s => SiftInv l l.length s.1 ∧ HoleAt (s.1.view d) 0 l.length s.1.pos ∧
      s.2 = 2 * s.1.pos + 1 ∧ l.length - 1 ≤ s.2)
    (by
      rintro ⟨h, child⟩ ⟨(hinv : SiftInv l l.length h), hole, hchild⟩
      obtain rfl : child = 2 * h.pos + 1 := hchild
      simp only [to_bottom_turn]
      split
      · rename_i hle
        obtain ⟨c, hc, hlt, hcl, hpc, hbig⟩ := greater_child_spec (d := d) hinv hmax hle
        obtain ⟨h', hmove, hinv', hpos', -, hview'⟩ := hinv.move d hcl hlt.ne'
        simp only [hc, hmove, some_bind]
        refine ⟨⟨hinv', ?_, ?_⟩, ?_⟩
        · simp only
          rw [hview', hpos']
          exact hole.down (by lia) hpc hcl (zero_le _) hbig
        · exact Target.wrap_of_lt (by lia)
        · exact Nat.sub_lt_sub_left hinv.pos_lt (show h.pos < h'.pos by lia)
      · rename_i hle
        exact ⟨hinv, hole, rfl, by lia⟩)
    (l.length + 1) (h, 2 * 0 + 1) ⟨hinv, by rw [hview, hpos]; exact hole, by rw [hpos]⟩
    (lt_succ_of_le (sub_le _ _))
  have hwrap : t.wrap (2 * 0 + 1) = 2 * 0 + 1 := Target.wrap_of_lt (by lia)
  -- the hole after the last move, which has no child
  obtain ⟨h'', hlast, hinv'', hole'', hno⟩ : ∃ h'',
      (if r.2 = l.length - 1 then r.1.move_to r.2 else some r.1) = some h'' ∧
        SiftInv l l.length h'' ∧ HoleAt (h''.view d) 0 l.length h''.pos ∧
        AboveChildren (h''.view d) l.length h''.pos := by
    split
    · rename_i heq
      obtain ⟨h', hmove, hinv'', hpos', -, hview'⟩ := hinv'.move d (i := r.2) (by lia) (by lia)
      have hpr : parent r.2 = r.1.pos := by rw [hchild, parent_left]
      refine ⟨h', hmove, hinv'', ?_, fun j hj hj0 hpj => ?_⟩
      · rw [hview', hpos']
        refine hole'.down (by lia) hpr (by lia) (zero_le _) fun j hj hj0 hpj => ?_
        have := eq_child_of_parent_eq hj0 hpj
        rw [show j = r.2 by lia]
      · have := eq_child_of_parent_eq hj0 hpj
        lia
    · rename_i hne
      refine ⟨r.1, rfl, hinv', hole', fun j hj hj0 hpj => ?_⟩
      have := eq_child_of_parent_eq hj0 hpj
      lia
  obtain ⟨l', p, hup, hs⟩ := sift_up_spec (d := d) h''.fill h''.pos l.length
    hinv''.pos_lt hinv''.fill_length.ge (by rwa [hinv''.view_fill d]) (by rwa [hinv''.view_fill d])
  refine ⟨l', ?_, hs.perm.trans hinv''.perm, hs.ordered, fun k hk => ?_⟩
  · simp only [sift_down_to_bottom, hnew, hwrap, hrun, hlast, hup, some_bind]
  · rw [hs.past k hk, hinv''.fill_past k hk]

end RustStd.BinaryHeap
