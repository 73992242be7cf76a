import Mathlib.Data.List.Range
import RustStd.Foundations.Sweep

/-!
# Lists in pieces of one size

The pieces of `N` elements of a list, from its first element on, and what is left at its end.
-/

namespace RustStd

open List Nat

variable {T A B : Type} {N : ℕ} {l : List T}

/-- The pieces of `N` elements. -/
def chunked (N : ℕ) (l : List T) : List (List T) :=
  (range (l.length / N)).map fun i => (l.drop (i * N)).take N

/-- What is left of them. -/
def leftover (N : ℕ) (l : List T) : List T := l.drop (l.length / N * N)

@[simp]
theorem chunked_length (N : ℕ) (l : List T) : (chunked N l).length = l.length / N := by
  rw [chunked, length_map, length_range]

theorem chunked_of_lt (h : l.length < N) : chunked N l = [] := by
  rw [chunked, div_eq_of_lt h]
  rfl

theorem leftover_of_lt (h : l.length < N) : leftover N l = l := by
  rw [leftover, div_eq_of_lt h, Nat.zero_mul, drop_zero]

variable (hN : 0 < N)
include hN

/-- The number of pieces, when there is one. -/
theorem div_eq_succ {n : ℕ} (h : N ≤ n) : n / N = (n - N) / N + 1 := by
  rw [← add_div_right _ hN, Nat.sub_add_cancel h]

theorem chunked_cons (h : N ≤ l.length) : chunked N l = l.take N :: chunked N (l.drop N) := by
  rw [chunked, chunked, div_eq_succ hN h, range_succ_eq_map, map_cons, map_map,
    length_drop, Nat.zero_mul, drop_zero]
  congr 1
  apply map_congr_left
  intro i _
  rw [Function.comp_apply, drop_drop, succ_mul, Nat.add_comm]

theorem leftover_drop (h : N ≤ l.length) : leftover N (l.drop N) = leftover N l := by
  rw [leftover, leftover, drop_drop, length_drop, div_eq_succ hN h, succ_mul, Nat.add_comm N]

/-- The last of a number of whole pieces. -/
theorem chunked_concat (h : N ≤ l.length) (hdvd : N ∣ l.length) :
    chunked N l = chunked N (l.take (l.length - N)) ++ [l.drop (l.length - N)] := by
  obtain ⟨q, hq⟩ := hdvd
  obtain ⟨p, rfl⟩ := exists_eq_succ_of_ne_zero (show q ≠ 0 by rintro rfl; omega)
  rw [mul_succ, Nat.mul_comm] at hq
  have hlast : (l.drop (p * N)).take N = l.drop (l.length - N) := by
    rw [take_of_length_le (by rw [length_drop]; omega), hq, Nat.add_sub_cancel]
  rw [chunked, chunked, length_take, hq, add_div_right _ hN, Nat.mul_div_cancel _ hN,
    Nat.add_sub_cancel, Nat.min_eq_left (Nat.le_add_right _ _), Nat.mul_div_cancel _ hN,
    range_succ, map_append, map_singleton, hlast, hq,
    Nat.add_sub_cancel]
  congr 1
  apply map_congr_left
  intro i hi
  have hnext := Nat.mul_le_mul_right N (succ_le_of_lt (mem_range.mp hi))
  rw [succ_mul] at hnext
  rw [drop_take, take_take, Nat.min_eq_left (by omega)]

/-- Without what is left over, the pieces are the same. -/
theorem chunked_whole (l : List T) : chunked N (l.take (l.length / N * N)) = chunked N l := by
  have hle := div_mul_le_self l.length N
  rw [chunked, chunked, length_take, Nat.min_eq_left hle, Nat.mul_div_cancel _ hN]
  apply map_congr_left
  intro i hi
  have hnext := Nat.mul_le_mul_right N (succ_le_of_lt (mem_range.mp hi))
  rw [succ_mul] at hnext
  rw [drop_take, take_take, Nat.min_eq_left (by omega)]

/-- Folding over the pieces, piece by piece. -/
theorem tryFold_chunked (h : N ≤ l.length) (f : A → List T → Except B A) (a : A) :
    tryFold f a (chunked N l) = match f a (l.take N) with
      | .ok a => tryFold f a (chunked N (l.drop N))
      | .error b => (.error b, chunked N (l.drop N)) := by
  rw [chunked_cons hN h]
  rfl

end RustStd
