/-!
# Bounds of a range

A range of an ordered type has a bound at either end: an element that is in the range, an element
that is the first one out of it, or none.
-/

namespace RustStd

/-- A bound at one end of a range. -/
inductive Bound (α : Type)
  | Included (key : α)
  | Excluded (key : α)
  | Unbounded
  deriving DecidableEq, Repr

end RustStd
