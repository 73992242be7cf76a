import RustStd.LinkedList.Model

/-!
# Chains of nodes

`Seg H prev ids next xs` says that the nodes `ids` are linked in this order both ways, between the
neighbours `prev` and `next`, and hold the elements `xs`. A list is a segment without neighbours
(`Chain`). A segment is taken apart and put together by `seg_append`; patching the link of its last
or first node changes its neighbour (`Seg.set_next`, `Seg.set_prev`).
-/

namespace RustStd.Collections

open List

variable {T : Type}

/-- The nodes `ids` with the elements `xs`, linked between `prev` and `next`. -/
def Seg (H : Heap T) : Option ℕ → List ℕ → Option ℕ → List T → Prop
  | _, [], _, [] => True
  | prev, id :: ids, next, x :: xs =>
    H.get id = some ⟨ids.head?.or next, prev, x⟩ ∧ Seg H (some id) ids next xs
  | _, _, _, _ => False

/-- Nodes other than `ids` are as they were. -/
def Frame (H H' : Heap T) (ids : List ℕ) : Prop := ∀ q, q ∉ ids → H'.get q = H.get q

namespace Frame

variable {H1 H2 H3 : Heap T} {ids ids' : List ℕ}

theorem mono (h : Frame H1 H2 ids) (hsub : ids ⊆ ids') : Frame H1 H2 ids' :=
  fun q hq => h q fun hmem => hq (hsub hmem)

theorem trans (h : Frame H1 H2 ids) (h' : Frame H2 H3 ids) : Frame H1 H3 ids :=
  fun q hq => (h' q hq).trans (h q hq)

end Frame

namespace Seg

variable {H H' : Heap T} {prev next : Option ℕ} {ids a b : List ℕ} {xs ys zs : List T}

@[simp] theorem nil_iff : Seg H prev [] next xs ↔ xs = [] := by
  cases xs with
  | nil => exact iff_of_true trivial rfl
  | cons x xs => exact iff_of_false id (cons_ne_nil _ _)

theorem cons_cons_iff {id : ℕ} {x : T} : Seg H prev (id :: ids) next (x :: xs) ↔
    H.get id = some ⟨ids.head?.or next, prev, x⟩ ∧ Seg H (some id) ids next xs := Iff.rfl

theorem cons_iff {id : ℕ} : Seg H prev (id :: ids) next xs ↔ ∃ x ys, xs = x :: ys
    ∧ H.get id = some ⟨ids.head?.or next, prev, x⟩ ∧ Seg H (some id) ids next ys := by
  cases xs with
  | nil => exact iff_of_false not_false nofun
  | cons x xs =>
    refine ⟨fun h => ⟨x, xs, rfl, h⟩, ?_⟩
    rintro ⟨_, _, ⟨⟩, h⟩
    exact h

theorem length_eq (h : Seg H prev ids next xs) : ids.length = xs.length := by
  induction ids generalizing prev xs with
  | nil => simp [nil_iff.mp h]
  | cons id ids ih =>
    obtain ⟨x, ys, rfl, -, h⟩ := cons_iff.mp h
    simp [ih h]

theorem append_iff (hlen : a.length = ys.length) : Seg H prev (a ++ b) next (ys ++ zs)
    ↔ Seg H prev a (b.head?.or next) ys ∧ Seg H (a.getLast?.or prev) b next zs := by
  induction a generalizing prev ys with
  | nil =>
    obtain rfl := length_eq_zero_iff.mp hlen.symm
    simp
  | cons id a ih =>
    obtain ⟨y, ys, rfl⟩ := exists_cons_of_length_eq_add_one hlen.symm
    have hlast : (id :: a).getLast?.or prev = a.getLast?.or (some id) := by
      rw [getLast?_cons]
      cases a.getLast? <;> rfl
    simp [cons_cons_iff, ih (by simpa using hlen), head?_append, Option.or_assoc, hlast, and_assoc]

variable (h : Seg H prev ids next xs)
include h

theorem frame (hsame : ∀ q ∈ ids, H'.get q = H.get q) : Seg H' prev ids next xs := by
  induction ids generalizing prev xs with
  | nil => simpa using h
  | cons id ids ih =>
    obtain ⟨x, ys, rfl, hx, h⟩ := cons_iff.mp h
    exact ⟨by rw [hsame id mem_cons_self, hx],
      ih h fun q hq => hsame q (mem_cons_of_mem _ hq)⟩

/-- Patch the link of the last node to the next one. -/
theorem set_next (hnd : ids.Nodup) {t : ℕ} (ht : ids.getLast? = some t) (n : Option ℕ) :
    ∃ H', Collections.set_next H t n = some H' ∧ Seg H' prev ids n xs ∧ Frame H H' [t]
      ∧ H'.fresh = H.fresh := by
  obtain ⟨a, rfl⟩ := getLast?_eq_some_iff.mp ht
  obtain ⟨ys, y, rfl⟩ : ∃ ys y, xs = ys ++ [y] := by
    refine ⟨xs.dropLast, xs.getLast ?_, (dropLast_append_getLast _).symm⟩
    rintro rfl
    simpa using h.length_eq
  have hlen : a.length = ys.length := by simpa using h.length_eq
  obtain ⟨ha, hy⟩ := (append_iff hlen).mp h
  have hget : H.get t = some ⟨next, a.getLast?.or prev, y⟩ := (cons_cons_iff.mp hy).1
  refine ⟨H.set t ⟨n, a.getLast?.or prev, y⟩, Store.modify_eq hget _,
    (append_iff hlen).mpr ⟨?_, ?_⟩, fun q hq => Store.get_set_of_ne (by simpa using hq), rfl⟩
  · refine ha.frame fun q hq => Store.get_set_of_ne ?_
    rintro rfl
    exact (disjoint_of_nodup_append hnd) hq mem_cons_self
  · simp [cons_cons_iff]

/-- Patch the link of the first node to the previous one. -/
theorem set_prev (hnd : ids.Nodup) {t : ℕ} (ht : ids.head? = some t) (p : Option ℕ) :
    ∃ H', Collections.set_prev H t p = some H' ∧ Seg H' p ids next xs ∧ Frame H H' [t]
      ∧ H'.fresh = H.fresh := by
  obtain ⟨a, rfl⟩ := head?_eq_some_iff.mp ht
  obtain ⟨y, ys, rfl, hget, h⟩ := cons_iff.mp h
  refine ⟨H.set t ⟨a.head?.or next, p, y⟩, Store.modify_eq hget _, ⟨Store.get_set_self, ?_⟩,
    fun q hq => Store.get_set_of_ne (by simpa using hq), rfl⟩
  exact h.frame fun q hq => Store.get_set_of_ne (by rintro rfl; exact (nodup_cons.mp hnd).1 hq)

omit h

/-- The node at a place of a segment. -/
theorem get_mid {id : ℕ} {x : T} (hlen : a.length = ys.length)
    (h : Seg H prev (a ++ id :: b) next (ys ++ x :: zs)) :
    H.get id = some ⟨b.head?.or next, a.getLast?.or prev, x⟩ :=
  ((append_iff hlen).mp h).2.1

end Seg

/-- The nodes `ids` with the elements `xs` are a list's. -/
structure Chain (H : Heap T) (l : LinkedList) (ids : List ℕ) (xs : List T) : Prop where
  nodup : ids.Nodup
  head : l.head = ids.head?
  tail : l.tail = ids.getLast?
  len : l.len = ids.length
  links : Seg H none ids none xs

namespace Chain

variable {H H' : Heap T} {l : LinkedList} {ids a b : List ℕ} {xs ys zs : List T}

theorem new : Chain H LinkedList.new [] [] := ⟨nodup_nil, rfl, rfl, rfl, trivial⟩

theorem frame (h : Chain H l ids xs) (hsame : ∀ q ∈ ids, H'.get q = H.get q) : Chain H' l ids xs :=
  ⟨h.nodup, h.head, h.tail, h.len, h.links.frame hsame⟩

theorem length_eq (h : Chain H l ids xs) : ids.length = xs.length := h.links.length_eq

/-- The two neighbours and the element of a node of a list. -/
theorem get_mid {id : ℕ} {x : T} (hlen : a.length = ys.length)
    (h : Chain H l (a ++ id :: b) (ys ++ x :: zs)) : H.get id = some ⟨b.head?, a.getLast?, x⟩ := by
  simpa using Seg.get_mid hlen h.links

end Chain

end RustStd.Collections
