import Mathlib.Data.List.Basic

/-!
# Slices of a list

The head and the tail of a slice up to an index. An index out of range is a fault.
-/

namespace RustStd

variable {α : Type*} {l : List α} {i : ℕ}

/-- A tail `&l[i..]`. -/
def slice_from (l : List α) (i : ℕ) : Option (List α) :=
  if i ≤ l.length then some (l.drop i) else none

/-- A head `&l[..i]`. -/
def slice_to (l : List α) (i : ℕ) : Option (List α) :=
  if i ≤ l.length then some (l.take i) else none

theorem slice_from_eq (h : i ≤ l.length) : slice_from l i = some (l.drop i) := if_pos h

theorem slice_to_eq (h : i ≤ l.length) : slice_to l i = some (l.take i) := if_pos h

end RustStd
