import RustStd.BTree.Map
import RustStd.Foundations.Extraction

/-!
# Extraction by a predicate

`extract_if` visits the pairs of a range in ascending order and removes those that its predicate
selects. It stands at a leaf edge before the next pair; a removal may merge and refill nodes and pop
the root, and gives back the edge to go on from. The root is popped by a callback in the source;
`remove_kv_tracking` only says here that the root was emptied, and the caller pops it.
-/

namespace RustStd.BTree

open Visiting List Nat Option Bool SearchBound

variable {K V σ : Type}

/-- The key is in a range. -/
def in_range (cmp : K → K → Ordering) (start_bound end_bound : Bound K) (k : K) : Bool :=
  (match start_bound with
    | .Included start => cmp start k != .gt
    | .Excluded start => cmp start k == .lt
    | .Unbounded => true) &&
  (match end_bound with
    | .Included stop => cmp k stop != .gt
    | .Excluded stop => cmp k stop == .lt
    | .Unbounded => true)

/-- `ExtractIf` with its `ExtractIfInner`, whose `length` and `dormant_root` lead into the map. Of
the range only the end is still used. -/
structure ExtractIf (K V σ : Type) where
  map : BTreeMap K V
  cur_leaf_edge : Option (Handle .Edge)
  end_bound : Bound K
  pred_state : σ

section Model

variable (cmp : K → K → Ordering)

def BTreeMap.extract_if (m : BTreeMap K V) (start_bound end_bound : Bound K) (pred_state : σ) :
    Option (ExtractIf K V σ) :=
  match m.root with
  | some root => do
    let first ← root.lower_bound m.heap cmp (SearchBound.from_range start_bound)
    some ⟨m, some first, end_bound, pred_state⟩
  | none => some ⟨m, none, end_bound, pred_state⟩

/-- The check of the right bound. -/
def before_end (end_bound : Bound K) (k : K) : Bool :=
  match end_bound with
  | .Included stop => cmp k stop != .gt
  | .Excluded stop => cmp k stop == .lt
  | .Unbounded => true

namespace ExtractIf

variable (pred : σ → K → V → σ × V × Option Bool)

/-- The removal of a pair that was selected. An emptied root is popped after `remove_kv_tracking`;
the source pops it inside, by the callback `handle_emptied_internal_root`. -/
def remove (self : ExtractIf K V σ) (kv : Handle .KV) : Option ((K × V) × ExtractIf K V σ) := do
  let length ← checkedSub self.map.length 1
  let (heap, kv, pos, emptied) ← kv.remove_kv_tracking self.map.heap
  if emptied then do
    let root ← self.map.root
    let (heap, root) ← root.pop_internal_level heap
    some (kv, { self with map := ⟨heap, some root, length⟩, cur_leaf_edge := some pos })
  else some (kv, { self with map := ⟨heap, self.map.root, length⟩, cur_leaf_edge := some pos })

/-- A turn of the loop of `next`. -/
def next_turn (self : ExtractIf K V σ) :
    Option (Turn (ExtractIf K V σ) ((Option (K × V) × Exit) × ExtractIf K V σ)) :=
  match self.cur_leaf_edge with
  | none => some (.done ((none, .returned), self))
  | some edge => do
    let self := { self with cur_leaf_edge := none }
    match ← edge.next_kv self.map.heap with
    | .error _ => some (.done ((none, .returned), self))
    | .ok kv => do
      let (k, v) ← kv.into_kv self.map.heap
      if !before_end cmp self.end_bound k then some (.done ((none, .returned), self))
      else do
        let (pred_state, v, answer) := pred self.pred_state k v
        let (heap, _) ← kv.replace_val self.map.heap v
        let self := { self with map := { self.map with heap }, pred_state }
        match answer with
        | none => some (.done ((none, .unwound), self))
        | some true => do
          let (kv, self) ← self.remove kv
          some (.done ((some kv, .returned), self))
        | some false => do
          let edge ← kv.next_leaf_edge self.map.heap
          some (.again { self with cur_leaf_edge := some edge })

def next (self : ExtractIf K V σ) : Option ((Option (K × V) × Exit) × ExtractIf K V σ) :=
  runLoop (next_turn cmp pred) (self.map.length + 1) self

/-- `n` calls of `next`, unless one unwinds: the answers, and how the last call ended. -/
def run : ℕ → ExtractIf K V σ → Option ((List (Option (K × V)) × Exit) × ExtractIf K V σ)
  | 0, self => some (([], .returned), self)
  | n + 1, self => do
    let ((answer, exit), self) ← self.next cmp pred
    match exit with
    | .unwound => some (([], .unwound), self)
    | .returned =>
      let ((answers, exit), self) ← run n self
      some ((answer :: answers, exit), self)

end ExtractIf

end Model

open BTreeMap

/-- The predicate, as one that is given pairs and leaves the keys alone. -/
def on_pairs (pred : σ → K → V → σ × V × Option Bool) : Pred σ (K × V) := fun s kv =>
  ((pred s kv.1 kv.2).1, (kv.1, (pred s kv.1 kv.2).2.1), (pred s kv.1 kv.2).2.2)

variable {cmp : K → K → Ordering} {pred : σ → K → V → σ × V × Option Bool}
  {e : ExtractIf K V σ} {before rest after : List (K × V)} {kv : K × V}

/-- The map between two visits: the pairs that were visited or come before the range, with the edge
after them; what is left of the range; and what comes after the range. -/
structure Extracting (cmp : K → K → Ordering) (e : ExtractIf K V σ)
    (before rest after : List (K × V)) : Prop where
  valid : e.map.Valid cmp
  inorder : e.map.inorder = before ++ (rest ++ after)
  in_range : ∀ x ∈ rest, before_end cmp e.end_bound x.1 = true
  beyond : ∀ x ∈ after, before_end cmp e.end_bound x.1 = false
  position : ∀ edge, e.cur_leaf_edge = some edge → ∃ root, e.map.root = some root ∧
    edge.node.height = 0 ∧ EdgeAt e.map.heap root edge before (rest ++ after)
  done : e.cur_leaf_edge = none → rest = []

namespace Extracting

/-- The pair to the right of the edge, which the predicate is given, with what it leaves of it. -/
theorem visit (h : Extracting cmp e before (kv :: rest) after) (v : V) :
    ∃ edge k heap root ht, e.cur_leaf_edge = some edge ∧ edge.next_kv e.map.heap = some (.ok k) ∧
      k.into_kv e.map.heap = some kv ∧ k.replace_val e.map.heap v = some (heap, kv.2) ∧
      e.map.root = some root ∧ Invariants cmp heap ht root ∧
      KvAt heap root k before (kv.1, v) (rest ++ after) := by
  cases hedge : e.cur_leaf_edge with
  | none => exact absurd (h.done hedge) nofun
  | some edge =>
    obtain ⟨root, hroot, -, he⟩ := h.position edge hedge
    obtain ⟨ht, I⟩ := h.valid.tree root hroot
    obtain ⟨k, hnext, hk⟩ := next_kv_spec I.forest I.top_valid I.root he
    obtain ⟨heap, hreplace, I', hk'⟩ := I.replace_val hk v
    exact ⟨edge, k, heap, root, ht, rfl, hnext, hk.into_kv I.toRooted, hreplace, hroot, I', hk'⟩

end Extracting

/-- What is left of a map, and the edge where the pair was. -/
theorem ExtractIf.remove_spec {root : NodeRef} {ht : ℕ → ℕ} {k : Handle .KV}
    {post : List (K × V)} (hroot : e.map.root = some root)
    (I : Invariants cmp e.map.heap ht root) (hk : KvAt e.map.heap root k before kv post)
    (hlen : e.map.length = (before ++ kv :: post).length) :
    ∃ e' edge root', e.remove k = some (kv, e') ∧ e'.map.Valid cmp ∧
      e'.map.inorder = before ++ post ∧ e'.end_bound = e.end_bound ∧
      e'.pred_state = e.pred_state ∧ e'.cur_leaf_edge = some edge ∧ e'.map.root = some root' ∧
      edge.node.height = 0 ∧ EdgeAt e'.map.heap root' edge before post := by
  obtain ⟨H', q, j, emptied, hremove, hrem⟩ := remove_kv_tracking_spec I.toBalanced hk
  have hin := hrem.edge.inorder hrem.forest
  have hsorted : (before ++ post).Pairwise fun a b => cmp a.1 b.1 = .lt := by
    have h := I.sorted
    rw [hk.inorder I.forest] at h
    exact h.sublist ((sublist_cons_self kv post).append_left before)
  have hcount : checkedSub e.map.length 1 = some (before ++ post).length := by
    rw [hlen]
    simp [checkedSub]
  unfold ExtractIf.remove
  rw [hcount, some_bind, hremove, some_bind]
  dsimp only
  cases emptied with
  | false =>
    have T : Balanced H' ht root := ⟨hrem.toRooted, hrem.filled, fun hpos hnil =>
      absurd (hrem.emptied_iff.mpr ⟨hpos, hnil⟩) Bool.false_ne_true⟩
    rw [if_neg Bool.false_ne_true]
    obtain ⟨hvalid, hinorder⟩ := valid_of_root
      (m := ⟨H', e.map.root, (before ++ post).length⟩) hroot ⟨T, by rw [hin]; exact hsorted⟩ hin rfl
    exact ⟨_, ⟨⟨0, q⟩, j⟩, root, rfl, hvalid, hinorder, rfl, rfl, rfl, hroot, rfl, hrem.edge⟩
  | true =>
    obtain ⟨hpos, hnil⟩ := hrem.emptied_iff.mp rfl
    obtain ⟨H'', root', hpop, T, hpop_in, P⟩ :=
      pop_internal_level_spec hrem.toRooted hrem.filled hpos hnil
    have hin' := hpop_in.trans hin
    rw [if_pos rfl, hroot, some_bind, hpop, some_bind]
    obtain ⟨hvalid, hinorder⟩ := valid_of_root
      (m := ⟨H'', some root', (before ++ post).length⟩) rfl ⟨T, by rw [hin']; exact hsorted⟩ hin'
      rfl
    exact ⟨_, ⟨⟨0, q⟩, j⟩, root', rfl, hvalid, hinorder, rfl, rfl, rfl, rfl, rfl,
      P.edgeAt hrem.forest hrem.top_valid hrem.edge⟩

namespace Extracting

/-- The iterator is done. -/
theorem finish (h : Extracting cmp e before [] after) :
    Extracting cmp { e with cur_leaf_edge := none } before [] after :=
  ⟨h.valid, h.inorder, h.in_range, h.beyond, nofun, fun _ => rfl⟩

/-- The turn after the last pair of the range. -/
theorem turn_end (h : Extracting cmp e before [] after) (pred : σ → K → V → σ × V × Option Bool) :
    ∃ e', ExtractIf.next_turn cmp pred e = some (.done ((none, .returned), e')) ∧
      e'.pred_state = e.pred_state ∧ Extracting cmp e' before [] after := by
  unfold ExtractIf.next_turn
  cases hedge : e.cur_leaf_edge with
  | none => exact ⟨e, rfl, rfl, h⟩
  | some edge =>
    obtain ⟨root, hroot, -, he⟩ := h.position edge hedge
    obtain ⟨ht, I⟩ := h.valid.tree root hroot
    refine ⟨{ e with cur_leaf_edge := none }, ?_, rfl, h.finish⟩
    dsimp only
    cases after with
    | nil =>
      obtain ⟨r, hnext⟩ := next_kv_end I.toRooted he
      rw [hnext, some_bind]
    | cons kv after =>
      obtain ⟨k, hnext, hk⟩ := next_kv_spec I.forest I.top_valid I.root he
      have hbeyond := h.beyond kv mem_cons_self
      rw [hnext, some_bind]
      dsimp only
      rw [hk.into_kv I.toRooted, some_bind, hbeyond, Bool.not_false, if_pos rfl]

variable (h : Extracting cmp e before rest after)
include h

/-- **One call** of `next`. -/
theorem next_loop {n : ℕ} (hn : rest.length < n)
    (pred : σ → K → V → σ × V × Option Bool) :
    ∃ marks answer exit e' rest', runLoop (ExtractIf.next_turn cmp pred) n e =
        some ((answer, exit), e') ∧
      Extraction (on_pairs pred) 1 e.pred_state rest marks (told answer exit) exit
        e'.pred_state rest' ∧
      e'.map.Valid cmp ∧ e'.map.inorder = before ++ kept marks ++ (rest' ++ after) ∧
      (exit = .returned → Extracting cmp e' (before ++ kept marks) rest' after) := by
  induction rest generalizing e before n with
  | nil =>
    obtain ⟨n, rfl⟩ := exists_eq_add_one.mpr hn
    obtain ⟨e', hturn, hstate, h'⟩ := h.turn_end pred
    have hkept : before ++ kept ([] : List ((K × V) × Bool)) = before := append_nil before
    refine ⟨[], none, .returned, e', [], ?_, hstate ▸ .exhausted _, h'.valid, ?_, fun _ => ?_⟩
    · rw [runLoop, hturn]
    · rw [hkept]
      exact h'.inorder
    · rwa [hkept]
  | cons kv rest ih =>
    obtain ⟨n, rfl⟩ := exists_eq_add_one.mpr (lt_of_le_of_lt (zero_le _) hn)
    obtain ⟨s1, v, answer, hpred⟩ : ∃ s1 v answer, pred e.pred_state kv.1 kv.2 = (s1, v, answer) :=
      ⟨_, _, _, rfl⟩
    have hcall : on_pairs pred e.pred_state kv = (s1, (kv.1, v), answer) := by
      rw [on_pairs, hpred]
    obtain ⟨edge, k, heap, root, ht, hedge, hnext, hkv, hreplace, hroot, I, hk⟩ := h.visit v
    have hlen : e.map.length = (before ++ (kv.1, v) :: (rest ++ after)).length := by
      rw [h.valid.length, h.inorder]
      simp
    have hwithin := h.in_range kv mem_cons_self
    obtain ⟨hvalid, hinorder⟩ := valid_of_root (m := { e.map with heap := heap }) hroot I
      (hk.inorder I.forest) hlen
    have hturn : ExtractIf.next_turn cmp pred e = (do
        let self : ExtractIf K V σ := ⟨{ e.map with heap := heap }, none, e.end_bound, s1⟩
        match answer with
        | none => some (.done ((none, .unwound), self))
        | some true => do
          let (kv, self) ← self.remove k
          some (.done ((some kv, .returned), self))
        | some false => do
          let edge ← k.next_leaf_edge heap
          some (.again { self with cur_leaf_edge := some edge })) := by
      unfold ExtractIf.next_turn
      rw [hedge]
      dsimp only
      rw [hnext, some_bind]
      dsimp only
      rw [hkv, some_bind, hwithin, Bool.not_true, if_neg (by exact false_ne_true), hpred]
      rw [hreplace, some_bind]
    rw [runLoop, hturn]
    match answer with
    | none =>
      have hkept : before ++ kept ([] : List ((K × V) × Bool)) = before := append_nil before
      refine ⟨[], none, .unwound, _, (kv.1, v) :: rest, rfl, .panics hcall 0, hvalid, ?_, nofun⟩
      rw [hkept]
      exact hinorder
    | some true =>
      obtain ⟨e', edge', root', hremove, hvalid', hin', hend, hstate, hedge', hroot', hleaf, he'⟩ :=
        ExtractIf.remove_spec (e := ⟨{ e.map with heap := heap }, none, e.end_bound, s1⟩)
          hroot I hk hlen
      have hkept : before ++ kept [((kv.1, v), true)] = before := append_nil before
      have h' : Extracting cmp e' before rest after := by
        refine ⟨hvalid', hin', fun x hx => ?_, fun x hx => ?_, fun edge2 hedge2 => ?_,
          fun hnone => ?_⟩
        · rw [hend]
          exact h.in_range x (mem_cons_of_mem _ hx)
        · rw [hend]
          exact h.beyond x hx
        · obtain rfl : edge' = edge2 := some.inj (hedge'.symm.trans hedge2)
          exact ⟨root', hroot', hleaf, he'⟩
        · rw [hedge'] at hnone
          cases hnone
      refine ⟨[((kv.1, v), true)], some (kv.1, v), .returned, e', rest, ?_, ?_, hvalid', ?_, ?_⟩
      · dsimp only
        rw [hremove, some_bind]
      · rw [hstate]
        exact .takes hcall
      · rw [hkept]
        exact hin'
      · rw [hkept]
        exact fun _ => h'
    | some false =>
      obtain ⟨q, j, hnext', he'⟩ := next_leaf_edge_spec I.forest I.top_valid hk
      have h' : Extracting cmp
          ⟨{ e.map with heap := heap }, some ⟨⟨0, q⟩, j⟩, e.end_bound, s1⟩ (before ++ [(kv.1, v)])
          rest after := by
        refine ⟨hvalid, ?_, fun x hx => h.in_range x (mem_cons_of_mem _ hx), h.beyond,
          fun edge2 hedge2 => ?_, nofun⟩
        · rw [append_assoc]
          exact hinorder
        · obtain rfl := some.inj hedge2
          exact ⟨root, hroot, rfl, he'⟩
      obtain ⟨marks, answer, exit, e', rest', hrun, hext, hvalid', hin', hres⟩ :=
        ih h' (lt_of_succ_lt_succ hn)
      refine ⟨((kv.1, v), false) :: marks, answer, exit, e', rest', ?_, hext.keep hcall, hvalid',
        ?_, fun hexit => ?_⟩
      · dsimp only
        rw [hnext', some_bind]
        exact hrun
      · rw [append_assoc before] at hin'
        exact hin'
      · have := hres hexit
        rw [append_assoc before] at this
        exact this

/-- **Any number of calls** of `next`. -/
theorem run (n : ℕ)
    (pred : σ → K → V → σ × V × Option Bool) :
    ∃ marks answers exit e' rest', e.run cmp pred n = some ((answers, exit), e') ∧
      Extraction (on_pairs pred) n e.pred_state rest marks answers exit e'.pred_state rest' ∧
      e'.map.Valid cmp ∧ e'.map.inorder = before ++ kept marks ++ (rest' ++ after) := by
  induction n generalizing e before rest with
  | zero =>
    refine ⟨[], [], .returned, e, rest, rfl, .zero _ _, h.valid, ?_⟩
    rw [show before ++ kept ([] : List ((K × V) × Bool)) = before from append_nil before]
    exact h.inorder
  | succ n ih =>
    have hfuel : rest.length < e.map.length + 1 := by
      rw [h.valid.length, h.inorder]
      simp only [length_append]
      omega
    obtain ⟨marks, answer, exit, e1, rest1, hnext, hext, hvalid, hin, hres⟩ :=
      h.next_loop hfuel pred
    unfold ExtractIf.run ExtractIf.next
    rw [hnext, some_bind]
    cases exit with
    | unwound =>
      refine ⟨marks, [], .unwound, e1, rest1, rfl, ?_, hvalid, hin⟩
      exact ⟨hext.visits, hext.told, nofun, fun _ => succ_pos n, nofun⟩
    | returned =>
      obtain ⟨marks', answers, exit, e', rest', hrun, hext', hvalid', hin'⟩ := ih (hres rfl)
      refine ⟨marks ++ marks', answer :: answers, exit, e', rest', ?_, ?_, hvalid', ?_⟩
      · dsimp only
        rw [hrun, some_bind]
      · rw [add_comm n 1]
        exact hext.append hext'
      · rw [kept_append, ← append_assoc before]
        exact hin'

end Extracting

/-! ## From the start -/

/-- The right bound is the upper bound of a search. -/
theorem before_end_eq [Std.OrientedCmp cmp] (end_bound : Bound K) (k : K) :
    before_end cmp end_bound k = (from_range end_bound).flip.skips cmp k := by
  cases end_bound with
  | Included stop | Excluded stop =>
    simp only [before_end, from_range, SearchBound.flip, skips]
    rw [show cmp k stop = (cmp stop k).swap from Std.OrientedCmp.eq_swap]
    cases cmp stop k <;> rfl
  | Unbounded => rfl

theorem in_range_eq (start_bound end_bound : Bound K) (k : K) :
    in_range cmp start_bound end_bound k =
      (!(from_range start_bound).skips cmp k && before_end cmp end_bound k) := by
  unfold in_range before_end
  congr 1
  cases start_bound with
  | Included start | Excluded start =>
    simp only [from_range, skips]
    cases cmp start k <;> rfl
  | Unbounded => rfl

/-- The pairs of a range are in one place. -/
theorem range_split [Std.TransCmp cmp] {pre post : List (K × V)} (start_bound end_bound : Bound K)
    (hasc : Ascending (fun a b => cmp a b = .lt) post)
    (hpre : ∀ y ∈ pre, (from_range start_bound).skips cmp y.1 = true)
    (hpost : ∀ y ∈ post, (from_range start_bound).skips cmp y.1 = false) :
    (pre ++ post).filter (fun x => in_range cmp start_bound end_bound x.1) =
        post.filter (fun x => before_end cmp end_bound x.1) ∧
      post = post.filter (fun x => before_end cmp end_bound x.1) ++
        post.filter fun x => !before_end cmp end_bound x.1 := by
  constructor
  · rw [filter_append, filter_eq_nil_iff.mpr, nil_append]
    · refine filter_congr fun x hx => ?_
      rw [in_range_eq, hpost x hx, Bool.not_false, Bool.true_and]
    · intro x hx
      rw [in_range_eq, hpre x hx, Bool.not_true, Bool.false_and]
      exact false_ne_true
  · have hcut := hasc.cut (Agrees.of_borrow cmp id) (from_range end_bound).flip
    simpa only [before_end_eq, id] using hcut

/-- **Extraction from a map.** After any number of calls of `next`, the answers are those of a
predicate called once on each pair visited, in ascending order; the map, as dropping the iterator
leaves it, has lost the pairs that were selected and no others, and is a valid map. -/
theorem extract_if_in_order [Std.TransCmp cmp] {m : BTreeMap K V} (hm : m.Valid cmp)
    (start_bound end_bound : Bound K) (pred : σ → K → V → σ × V × Option Bool) (s : σ) (n : ℕ) :
    ∃ e before after marks answers exit e' rest, m.extract_if cmp start_bound end_bound s = some e ∧
      m.inorder = before ++
        (m.inorder.filter (fun x => in_range cmp start_bound end_bound x.1) ++ after) ∧
      e.run cmp pred n = some ((answers, exit), e') ∧
      Extraction (on_pairs pred) n s
        (m.inorder.filter fun x => in_range cmp start_bound end_bound x.1) marks answers exit
        e'.pred_state rest ∧
      e'.map.Valid cmp ∧ e'.map.inorder = before ++ kept marks ++ (rest ++ after) := by
  cases hroot : m.root with
  | none =>
    have hnil : m.inorder = [] := by rw [inorder, hroot]
    have h : Extracting cmp (⟨m, none, end_bound, s⟩ : ExtractIf K V σ) [] [] [] :=
      ⟨hm, hnil, by simp, by simp, by simp, fun _ => rfl⟩
    obtain ⟨marks, answers, exit, e', rest, hrun, hext, hvalid, hin⟩ := h.run n pred
    refine ⟨_, [], [], marks, answers, exit, e', rest, ?_, ?_, hrun, ?_, hvalid, hin⟩
    · rw [extract_if, hroot]
    · rw [hnil]
      rfl
    · rw [hnil]
      exact hext
  | some root =>
    obtain ⟨ht, I⟩ := hm.tree root hroot
    have hsorted : Ascending (fun a b => cmp a b = .lt) (root.inorder m.heap) := I.sorted
    obtain ⟨first, pre, post, hfirst, hcut⟩ := lower_bound_spec (Agrees.of_borrow cmp id) I.toRooted
      hsorted (from_range start_bound)
    have hin : m.inorder = pre ++ post :=
      (inorder_of_root hroot).trans (hcut.edge.inorder I.forest)
    rw [hcut.edge.inorder I.forest] at hsorted
    obtain ⟨hrange, hsplit⟩ := range_split start_bound end_bound
      (pairwise_append.mp hsorted).2.1 hcut.skipped hcut.kept
    rw [hin, hrange]
    have h : Extracting cmp (⟨m, some first, end_bound, s⟩ : ExtractIf K V σ) pre
        (post.filter fun x => before_end cmp end_bound x.1)
        (post.filter fun x => !before_end cmp end_bound x.1) := by
      refine ⟨hm, ?_, fun x hx => (mem_filter.mp hx).2, fun x hx => ?_,
        fun edge hedge => ?_, by simp⟩
      · rw [← hsplit, hin]
      · simpa using (mem_filter.mp hx).2
      · obtain rfl := some.inj hedge
        refine ⟨root, hroot, hcut.leaf, ?_⟩
        rw [← hsplit]
        exact hcut.edge
    obtain ⟨marks, answers, exit, e', rest, hrun, hext, hvalid, hin'⟩ := h.run n pred
    refine ⟨_, pre, _, marks, answers, exit, e', rest, ?_, ?_, hrun, hext, hvalid, hin'⟩
    · rw [extract_if, hroot]
      dsimp only
      rw [show root.lower_bound m.heap cmp (from_range start_bound) = some first from
        hfirst, some_bind]
    · rw [← hsplit]

/-- A map with two leaves, from which the pairs at both ends of a range are taken. -/
theorem extract_if_two_leaves : ∃ e before after marks answers exit e' rest,
    (BTreeMap.mk two_leaves (some ⟨1, 0⟩) 11).extract_if compare (.Included 2) (.Excluded 8) 0 =
      some e ∧
    (BTreeMap.mk two_leaves (some ⟨1, 0⟩) 11).inorder = before ++
      ((BTreeMap.mk two_leaves (some ⟨1, 0⟩) 11).inorder.filter (fun x =>
        in_range compare (.Included 2) (.Excluded 8) x.1) ++ after) ∧
    e.run compare (fun calls k v => (calls + 1, v, some (k % 5 == 2))) 3 =
      some ((answers, exit), e') ∧
    Extraction (on_pairs fun calls k v => (calls + 1, v, some (k % 5 == 2))) 3 0
      ((BTreeMap.mk two_leaves (some ⟨1, 0⟩) 11).inorder.filter fun x =>
        in_range compare (.Included 2) (.Excluded 8) x.1) marks answers exit e'.pred_state rest ∧
    e'.map.Valid compare ∧ e'.map.inorder = before ++ kept marks ++ (rest ++ after) :=
  extract_if_in_order ⟨fun _ h => ⟨two_leaves_height, some.inj h ▸ two_leaves_invariants⟩,
  rfl⟩
    (.Included 2) (.Excluded 8) _ 0 3

end RustStd.BTree
