import Mathlib.Data.List.Basic
import RustStd.Foundations.Exec

/-!
# Cells that may be uninitialised

Memory for elements of a type, where a cell that was never written has no value. Reading such a
cell, an index out of range and a copy between ranges that overlap are faults. `Holds cells s w`
says that the cells from `s` on have the values of the list `w`.
-/

namespace RustStd

open List

variable {T : Type}

/-- Read a cell. -/
def readCell (cells : List (Option T)) (i : ℕ) : Exec T :=
  match cells[i]? with
  | some (some x) => .ok x
  | _ => .error .fault

/-- Write a cell. -/
def writeCell (cells : List (Option T)) (i : ℕ) (x : T) : Exec (List (Option T)) :=
  if i < cells.length then .ok (cells.set i (some x)) else .error .fault

/-- Read `n` cells. -/
def readCells (cells : List (Option T)) (s : ℕ) : ℕ → Exec (List T)
  | 0 => if s ≤ cells.length then .ok [] else .error .fault
  | n + 1 => do
    let x ← readCell cells s
    return x :: (← readCells cells (s + 1) n)

/-- `ptr::copy_nonoverlapping` -/
def copyCells (cells : List (Option T)) (src dst count : ℕ) : Exec (List (Option T)) :=
  if src + count ≤ cells.length ∧ dst + count ≤ cells.length ∧
      (src + count ≤ dst ∨ dst + count ≤ src) then
    .ok (cells.take dst ++ ((cells.drop src).take count ++ cells.drop (dst + count)))
  else .error .fault

/-- The cells from `s` on have the values of `w`. -/
def Holds (cells : List (Option T)) (s : ℕ) (w : List T) : Prop :=
  s + w.length ≤ cells.length ∧ ∀ i < w.length, cells[s + i]? = some w[i]?

variable {cells : List (Option T)} {s : ℕ} {w : List T} {x : T}

theorem holds_cons_iff :
    Holds cells s (x :: w) ↔ cells[s]? = some (some x) ∧ Holds cells (s + 1) w := by
  constructor
  · rintro ⟨hlen, h⟩
    rw [length_cons] at hlen h
    refine ⟨h 0 (by omega), by omega, fun i hi => ?_⟩
    have hi := h (i + 1) (by omega)
    rwa [getElem?_cons_succ, show s + (i + 1) = s + 1 + i by omega] at hi
  · rintro ⟨hx, hlen, h⟩
    refine ⟨by rw [length_cons]; omega, fun i hi => ?_⟩
    cases i with
    | zero => exact hx
    | succ i =>
      rw [length_cons] at hi
      rw [getElem?_cons_succ, show s + (i + 1) = s + 1 + i by omega]
      exact h i (by omega)

theorem holds_concat_iff : Holds cells s (w ++ [x]) ↔
    Holds cells s w ∧ cells[s + w.length]? = some (some x) := by
  constructor
  · rintro ⟨hlen, h⟩
    rw [length_append, length_singleton] at hlen h
    refine ⟨⟨by omega, fun i hi => ?_⟩, ?_⟩
    · rw [h i (by omega), getElem?_append_left hi]
    · rw [h _ (by omega), getElem?_concat_length]
  · rintro ⟨⟨hlen, h⟩, hx⟩
    have hlt := (List.getElem?_eq_some_iff.mp hx).1
    refine ⟨by rw [length_append, length_singleton]; omega, fun i hi => ?_⟩
    rw [length_append, length_singleton] at hi
    by_cases hi' : i < w.length
    · rw [getElem?_append_left hi', h i hi']
    · obtain rfl : i = w.length := by omega
      rw [getElem?_concat_length, hx]

theorem readCell_eq (h : cells[s]? = some (some x)) : readCell cells s = .ok x := by
  rw [readCell, h]

theorem writeCell_eq (h : s < cells.length) : writeCell cells s x = .ok (cells.set s (some x)) :=
  if_pos h

variable (h : Holds cells s w)
include h

theorem readCells_eq : readCells cells s w.length = .ok w := by
  induction w generalizing s with
  | nil => exact if_pos h.1
  | cons x w ih =>
    rw [holds_cons_iff] at h
    rw [length_cons, readCells, readCell_eq h.1, Exec.bind_ok, ih h.2]
    rfl

theorem Holds.set {i : ℕ} (hi : i < s ∨ s + w.length ≤ i) (c : Option T) :
    Holds (cells.set i c) s w := by
  refine ⟨by rw [length_set]; exact h.1, fun j hj => ?_⟩
  rw [getElem?_set_ne (by omega)]
  exact h.2 j hj

/-- A copy that is in range moves the values. -/
theorem copyCells_spec (dst : ℕ) (hdst : dst + w.length ≤ s) :
    ∃ cells', copyCells cells s dst w.length = .ok cells' ∧ cells'.length = cells.length ∧
      Holds cells' dst w ∧ ∀ i, dst + w.length ≤ i → cells'[i]? = cells[i]? := by
  have hlen := h.1
  refine ⟨_, if_pos ⟨hlen, by omega, .inr hdst⟩, ?_, ⟨?_, fun i hi => ?_⟩, fun i hi => ?_⟩
  · simp only [length_append, length_take, length_drop]
    omega
  · simp only [length_append, length_take, length_drop]
    omega
  · rw [getElem?_append_right (by rw [length_take]; omega), length_take,
      Nat.min_eq_left (by omega), Nat.add_sub_cancel_left, getElem?_append_left
      (by simp only [length_take, length_drop]; omega), getElem?_take_of_lt hi,
      getElem?_drop, h.2 i hi]
  · rw [getElem?_append_right (by rw [length_take]; omega), length_take,
      Nat.min_eq_left (by omega), getElem?_append_right
      (by simp only [length_take, length_drop]; omega), length_take,
      length_drop, Nat.min_eq_left (by omega), getElem?_drop,
      show dst + w.length + (i - dst - w.length) = i by omega]

end RustStd
