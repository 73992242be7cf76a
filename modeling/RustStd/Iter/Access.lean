import Mathlib.Data.List.Count
import Mathlib.Data.List.Nodup
import RustStd.Iter.Source

/-!
# Elements by their indices

Iterators whose elements can be taken by their indices, after the trait `TrustedRandomAccess` of
`core/src/iter/adapters/zip.rs`. Their code may unwind at any call. `Trusted` is the contract of the
trait: what the code promises a caller that takes only elements that are there, each of them once,
and that removes none from the back that it has taken. `logged` keeps a log of the calls, and a log
is `Legal` when the caller has kept to that.
-/

namespace RustStd.Iter

open List

variable {σ T α β : Type}

def Call.map (f : α → β) : Call α → Call β
  | .returns a => .returns (f a)
  | .panics => .panics

def Call.unwound : Call α → Bool
  | .returns _ => false
  | .panics => true

@[simp] theorem Call.unwound_map (f : α → β) (c : Call α) : (c.map f).unwound = c.unwound := by
  cases c <;> rfl

/-- The methods that can be called once elements are taken by their indices. -/
structure RandomAccess (σ T : Type) where
  may_have_side_effect : Bool
  size : σ → ℕ
  get_unchecked : σ → ℕ → Call T × σ
  next_back : σ → Call (Option T) × σ

/-- The contract. A state stands for the elements that are not removed from the back, and for the
indices that were taken; an element counts as taken or removed also when the call unwinds. -/
structure Trusted (it : RandomAccess σ T) (V : σ → List T → List ℕ → Prop) : Prop where
  size : ∀ ⦃s l taken⦄, V s l taken → it.size s = l.length
  get_unchecked : ∀ ⦃s l taken⦄ i, V s l taken → i < l.length → i ∉ taken →
    V (it.get_unchecked s i).2 l (i :: taken) ∧
      ∀ x, (it.get_unchecked s i).1 = .returns x → l[i]? = some x
  next_back : ∀ ⦃s l taken⦄, V s l taken → 0 < l.length → (∀ i ∈ taken, i + 1 < l.length) →
    V (it.next_back s).2 l.dropLast taken ∧ ∀ x, (it.next_back s).1 = .returns x → x = l.getLast?

/-- A call that takes or removes an element, and whether it unwound. -/
inductive Access
  | get_unchecked (i : ℕ) (unwound : Bool)
  | next_back (unwound : Bool)
  deriving DecidableEq, Repr

def Access.unwound : Access → Bool
  | .get_unchecked _ unwound | .next_back unwound => unwound

/-- The indices that were taken. -/
def indices (log : List Access) : List ℕ :=
  log.filterMap fun a =>
    match a with
    | .get_unchecked i _ => some i
    | .next_back _ => none

/-- The number of elements that were removed. -/
def backs (log : List Access) : ℕ :=
  log.countP fun a =>
    match a with
    | .get_unchecked _ _ => false
    | .next_back _ => true

/-- The number of calls that unwound. -/
def unwindings (log : List Access) : ℕ := log.countP Access.unwound

/-- The calls that can be made to an iterator of `n` elements. -/
inductive Legal (n : ℕ) : List Access → Prop
  | nil : Legal n []
  | get_unchecked {log i w} (h : Legal n log) (hrange : i < n - backs log)
    (honce : i ∉ indices log) : Legal n (log ++ [.get_unchecked i w])
  | next_back {log w} (h : Legal n log) (hleft : backs log < n)
    (htaken : ∀ i ∈ indices log, i < n - 1 - backs log) : Legal n (log ++ [.next_back w])

/-- The iterator with a log of its calls. -/
def RandomAccess.logged (it : RandomAccess σ T) : RandomAccess (σ × List Access) T where
  may_have_side_effect := it.may_have_side_effect
  size s := it.size s.1
  get_unchecked s i :=
    let (x, s') := it.get_unchecked s.1 i
    (x, (s', s.2 ++ [.get_unchecked i x.unwound]))
  next_back s :=
    let (x, s') := it.next_back s.1
    (x, (s', s.2 ++ [.next_back x.unwound]))

variable {log : List Access} {n : ℕ} {it : RandomAccess σ T} {V : σ → List T → List ℕ → Prop}
  {w : Bool}

@[simp] theorem indices_get_unchecked (log : List Access) (i : ℕ) (w : Bool) :
    indices (log ++ [.get_unchecked i w]) = indices log ++ [i] := by
  rw [indices, filterMap_append]
  rfl

@[simp] theorem indices_next_back (log : List Access) (w : Bool) :
    indices (log ++ [.next_back w]) = indices log := by
  rw [indices, filterMap_append]
  exact append_nil _

@[simp] theorem backs_get_unchecked (log : List Access) (i : ℕ) (w : Bool) :
    backs (log ++ [.get_unchecked i w]) = backs log := by
  rw [backs, countP_append]
  rfl

@[simp] theorem backs_next_back (log : List Access) (w : Bool) :
    backs (log ++ [.next_back w]) = backs log + 1 := by
  rw [backs, countP_append]
  rfl

theorem unwindings_concat (log : List Access) (a : Access) :
    unwindings (log ++ [a]) = unwindings log + a.unwound.toNat := by
  rw [unwindings, countP_append, countP_singleton]
  cases a.unwound <;> rfl

/-- What a state with its log stands for, when the iterator began with `n` elements. -/
structure Logged (V : σ → List T → List ℕ → Prop) (n : ℕ) (s : σ × List Access) (l : List T)
    (taken : List ℕ) : Prop where
  state : V s.1 l taken
  taken : ∀ i, i ∈ taken ↔ i ∈ indices s.2
  left : l.length + backs s.2 = n
  legal : Legal n s.2

/-- **The log of a caller that keeps to the contract** is legal. -/
theorem Trusted.logged (h : Trusted it V) (n : ℕ) : Trusted it.logged (Logged V n) where
  size _ _ _ hs := h.size hs.state
  get_unchecked s l taken i hs hi htaken := by
    obtain ⟨hstate, hitem⟩ := h.get_unchecked i hs.state hi htaken
    refine ⟨⟨hstate, fun j => ?_, ?_, ?_⟩, hitem⟩
    · change j ∈ i :: taken ↔ j ∈ indices (s.2 ++ [.get_unchecked i _])
      rw [indices_get_unchecked, mem_cons, mem_append, mem_singleton, hs.taken, or_comm]
    · change l.length + backs (s.2 ++ [.get_unchecked i _]) = n
      rw [backs_get_unchecked, hs.left]
    · have hleft := hs.left
      exact .get_unchecked hs.legal (by omega) (mt (hs.taken i).mpr htaken)
  next_back s l taken hs hpos htaken := by
    obtain ⟨hstate, hitem⟩ := h.next_back hs.state hpos htaken
    have hleft := hs.left
    refine ⟨⟨hstate, fun j => ?_, ?_, ?_⟩, hitem⟩
    · change j ∈ taken ↔ j ∈ indices (s.2 ++ [.next_back _])
      rw [indices_next_back, hs.taken]
    · change l.dropLast.length + backs (s.2 ++ [.next_back _]) = n
      rw [backs_next_back, length_dropLast]
      omega
    · refine .next_back hs.legal (by omega) fun i hi => ?_
      have := htaken i ((hs.taken i).mpr hi)
      omega

/-- A list, whose elements are read where they are. The state is the number of those that are not
removed from the back. -/
def readList (may_have_side_effect : Bool) (l : List T) : RandomAccess ℕ T where
  may_have_side_effect
  size n := n
  get_unchecked n i :=
    match l[i]? with
    | some x => (.returns x, n)
    | none => (.panics, n)
  next_back n := (.returns (l.take n).getLast?, n - 1)

theorem readList_trusted (may_have_side_effect : Bool) (l : List T) :
    Trusted (readList may_have_side_effect l) fun n m _ => n ≤ l.length ∧ m = l.take n where
  size := by
    rintro n _ _ ⟨hn, rfl⟩
    exact (length_take_of_le hn).symm
  get_unchecked := by
    rintro n _ taken i ⟨hn, rfl⟩ hi -
    rw [length_take_of_le hn] at hi
    have hitem : l[i]? = some l[i] := getElem?_eq_getElem (by omega)
    rw [readList]
    dsimp only
    rw [hitem, getElem?_take_of_lt hi, hitem]
    exact ⟨⟨hn, rfl⟩, fun x hx => by cases hx; rfl⟩
  next_back := by
    rintro n _ taken ⟨hn, rfl⟩ - -
    refine ⟨⟨Nat.le_trans (Nat.sub_le n 1) hn, ?_⟩, fun x hx => (Call.returns.inj hx).symm⟩
    rw [dropLast_eq_take, length_take_of_le hn, take_take, Nat.min_eq_left (Nat.sub_le n 1)]
    rfl

end RustStd.Iter
