import Mathlib.Order.Nat
import RustStd.Foundations.Sweep

/-!
# Iterators that know their elements

An iterator whose state says what each of its elements is: `get s i` is the element `i`, when there
is one. The laws of its methods become statements about `get`: taking elements from the front shifts
it, taking them from the back cuts it off.
-/

namespace RustStd

open List

variable {σ T : Type} {get : σ → ℕ → Option T} {Inv : σ → Prop} {len : σ → ℕ} {usizeMax : ℕ} {s : σ}
  {l : List T}

/-- The list of the elements. -/
structure Indexed (get : σ → ℕ → Option T) (Inv : σ → Prop) (s : σ) (l : List T) : Prop where
  inv : Inv s
  get : ∀ i, l[i]? = get s i

/-- There are `len s` elements. -/
def HasLength (get : σ → ℕ → Option T) (Inv : σ → Prop) (len : σ → ℕ) : Prop :=
  ∀ ⦃s⦄, Inv s → ∀ i, (get s i).isSome ↔ i < len s

variable (h : Indexed get Inv s l)
include h

theorem Indexed.length (hlen : HasLength get Inv len) : l.length = len s := by
  apply eq_of_forall_lt_iff
  intro i
  rw [← hlen h.inv i, ← h.get i]
  simp

theorem Indexed.getLast? (hlen : HasLength get Inv len) : l.getLast? = get s (len s - 1) := by
  rw [getLast?_eq_getElem?, h.length hlen, h.get]

variable {n : ℕ}

/-- After `n` elements and one more, the first is the one that came next. -/
theorem Indexed.drop {s' : σ} (hinv : Inv s')
    (hget : ∀ i, get s' i = get s (n + i)) : Indexed get Inv s' (l.drop n) := by
  refine ⟨hinv, fun i => ?_⟩
  rw [getElem?_drop, h.get, hget]

theorem Indexed.take {s' : σ} (hinv : Inv s')
    (hget : ∀ i, get s' i = if i < n then get s i else none) : Indexed get Inv s' (l.take n) := by
  refine ⟨hinv, fun i => ?_⟩
  rw [getElem?_take, h.get, hget]

omit h

theorem HasLength.get_eq_none (hlen : HasLength get Inv len) (hs : Inv s) {i : ℕ} (hi : len s ≤ i) :
    get s i = none := Option.not_isSome_iff_eq_none.mp (mt (hlen hs i).mp (Nat.not_lt.mpr hi))

/-- The list, when the elements are given by a function of their places. -/
theorem indexed_of_range (hlen : HasLength get Inv len) (hs : Inv s) (f : ℕ → T)
    (hget : ∀ i, i < len s → get s i = some (f i)) :
    Indexed get Inv s ((range (len s)).map f) := by
  refine ⟨hs, fun i => ?_⟩
  rw [getElem?_map]
  by_cases hi : i < len s
  · rw [getElem?_range hi, hget i hi]
    rfl
  · rw [getElem?_eq_none (by rw [length_range]; omega), hlen.get_eq_none hs (Nat.not_lt.mp hi)]
    rfl

/-- A call answers the element `n` and leaves those after it. -/
def TakesFront (get : σ → ℕ → Option T) (Inv : σ → Prop) (m : Option (Option T × σ)) (s : σ)
    (n : ℕ) : Prop :=
  ∃ s', m = some (get s n, s') ∧ Inv s' ∧ ∀ i, get s' i = get s (n + 1 + i)

/-- A call answers the element `n` from the back and leaves those before it. -/
def TakesBack (get : σ → ℕ → Option T) (Inv : σ → Prop) (len : σ → ℕ) (m : Option (Option T × σ))
    (s : σ) (n : ℕ) : Prop :=
  ∃ s', m = some (if n < len s then get s (len s - 1 - n) else none, s') ∧ Inv s' ∧
    ∀ i, get s' i = if i < len s - (n + 1) then get s i else none

/-- A call past the last element answers nothing and leaves nothing. -/
theorem HasLength.takes_front_none {s' : σ} (hlen : HasLength get Inv len) (hs : Inv s)
    (hend : Inv s' ∧ len s' = 0) (hn : len s ≤ n) : TakesFront get Inv (some (none, s')) s n := by
  refine ⟨s', ?_, hend.1, fun i => ?_⟩
  · rw [hlen.get_eq_none hs hn]
  · rw [hlen.get_eq_none hend.1 (by omega), hlen.get_eq_none hs (by omega)]

theorem HasLength.takes_back_none {s' : σ} (hlen : HasLength get Inv len)
    (hend : Inv s' ∧ len s' = 0) (hn : ¬ n < len s) :
    TakesBack get Inv len (some (none, s')) s n := by
  refine ⟨s', ?_, hend.1, fun i => ?_⟩
  · rw [if_neg hn]
  · rw [if_neg (by omega), hlen.get_eq_none hend.1 (by omega)]

theorem TakesFront.yields {m : Option (Option T × σ)} (h : TakesFront get Inv m s n)
    (hs : Indexed get Inv s l) : Yields (Indexed get Inv) m l[n]? (l.drop (n + 1)) := by
  obtain ⟨s', rfl, hinv, hget⟩ := h
  exact ⟨s', by rw [hs.get], hs.drop hinv hget⟩

theorem TakesBack.yields {m : Option (Option T × σ)} (h : TakesBack get Inv len m s n)
    (hlen : HasLength get Inv len) (hs : Indexed get Inv s l) :
    Yields (Indexed get Inv) m l.reverse[n]? (l.take (l.length - (n + 1))) := by
  obtain ⟨s', rfl, hinv, hget⟩ := h
  have hlength := hs.length hlen
  refine ⟨s', ?_, hs.take hinv (by rwa [hlength])⟩
  split
  · next hn => rw [getElem?_reverse (by omega), hs.get, hlength]
  · next hn => rw [getElem?_eq_none (by rw [length_reverse]; omega)]

theorem indexed_next {next : σ → Option (Option T × σ)}
    (h : ∀ ⦃s⦄, Inv s → TakesFront get Inv (next s) s 0) : IsNext (Indexed get Inv) next := by
  intro s l hs
  rw [head?_eq_getElem?, ← drop_one]
  exact (h hs.inv).yields hs

theorem indexed_nth {nth : σ → ℕ → Option (Option T × σ)}
    (h : ∀ ⦃s⦄ n, Inv s → TakesFront get Inv (nth s n) s n) :
    IsNth usizeMax (Indexed get Inv) nth :=
  fun _ _ n hs _ => (h n hs.inv).yields hs

theorem indexed_next_back {next_back : σ → Option (Option T × σ)} (hlen : HasLength get Inv len)
    (h : ∀ ⦃s⦄, Inv s → TakesBack get Inv len (next_back s) s 0) :
    IsNext (Reversed (Indexed get Inv)) next_back := by
  apply isNext_reversed
  intro s l hs
  rw [← head?_reverse, head?_eq_getElem?, dropLast_eq_take]
  exact (h hs.inv).yields hlen hs

theorem indexed_nth_back {nth_back : σ → ℕ → Option (Option T × σ)} (hlen : HasLength get Inv len)
    (h : ∀ ⦃s⦄ n, Inv s → TakesBack get Inv len (nth_back s n) s n) :
    IsNth usizeMax (Reversed (Indexed get Inv)) nth_back := by
  apply isNth_reversed
  intro s l n hs _
  exact (h n hs.inv).yields hlen hs

end RustStd
