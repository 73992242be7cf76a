import Mathlib.Data.Nat.Init
import Mathlib.Logic.Function.Basic

/-!
# Stores of numbered cells

A memory for linked structures: cells are numbered, and the number of a new cell is one that was
never used. Reading or changing a cell that is not allocated has no result.
-/

namespace RustStd

open Function

/-- The allocated cells, and the number of the next one. -/
structure Store (N : Type*) where
  get : ℕ → Option N
  fresh : ℕ

namespace Store

variable {N : Type*}

def empty : Store N := ⟨fun _ => none, 0⟩

def set (H : Store N) (p : ℕ) (x : N) : Store N := { H with get := update H.get p (some x) }

/-- Allocate a cell, with its contents. -/
def alloc (H : Store N) (x : N) : Store N × ℕ :=
  ({ H.set H.fresh x with fresh := H.fresh + 1 }, H.fresh)

def deallocate (H : Store N) (p : ℕ) : Store N := { H with get := update H.get p none }

/-- Change a cell that is allocated. -/
def modify (H : Store N) (p : ℕ) (f : N → N) : Option (Store N) :=
  (H.get p).map fun x => H.set p (f x)

variable {H : Store N} {p q : ℕ} {x : N}

@[simp] theorem get_set_self : (H.set p x).get p = some x := update_self ..

theorem get_set_of_ne (h : q ≠ p) : (H.set p x).get q = H.get q := update_of_ne h ..

@[simp] theorem get_alloc_self : (H.alloc x).1.get H.fresh = some x := update_self ..

theorem get_alloc_of_ne (h : q ≠ H.fresh) : (H.alloc x).1.get q = H.get q :=
  update_of_ne h ..

@[simp] theorem fresh_alloc : (H.alloc x).1.fresh = H.fresh + 1 := rfl

theorem get_deallocate_of_ne (h : q ≠ p) : (H.deallocate p).get q = H.get q :=
  update_of_ne h ..

theorem modify_eq (h : H.get p = some x) (f : N → N) : H.modify p f = some (H.set p (f x)) := by
  rw [modify, h, Option.map_some]

end Store

end RustStd
