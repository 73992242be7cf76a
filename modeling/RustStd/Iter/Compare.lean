import Mathlib.Data.List.Forall2
import RustStd.Foundations.Sweep

/-!
# Comparing iterators

`Iterator::eq` and `Iterator::cmp`, after `core/src/iter/traits/iterator.rs`. Both are
`iter_compare`, which takes elements of the two iterators in turn, for at most `turns` turns. Of
iterators that stand for lists, they compare the lists (`iter_eq_spec`, `iter_cmp_spec`).
-/

namespace RustStd.Iter

open List Option

variable {σ υ T U E : Type} {RA : σ → List T → Prop} {RB : υ → List U → Prop} {turns : ℕ}

def iter_compare (next_a : σ → Option (Option T × σ)) (next_b : υ → Option (Option U × υ))
    (f : T → U → Except E Unit) : ℕ → σ → υ → Option (Except E Ordering)
  | 0, _, _ => none
  | turns + 1, a, b => do
    let (x, a) ← next_a a
    let (y, b) ← next_b b
    match x, y with
    | none, none => return .ok .eq
    | none, some _ => return .ok .lt
    | some _, none => return .ok .gt
    | some x, some y =>
      match f x y with
      | .ok () => iter_compare next_a next_b f turns a b
      | .error e => return .error e

/-- `Iterator::eq` -/
def iter_eq (next_a : σ → Option (Option T × σ)) (next_b : υ → Option (Option U × υ))
    (eq : T → U → Bool) (turns : ℕ) (a : σ) (b : υ) : Option Bool := do
  match ← iter_compare next_a next_b
      (fun x y => if eq x y then Except.ok () else .error ()) turns a b with
  | .ok ord => return ord == .eq
  | .error () => return false

/-- `Iterator::cmp` -/
def iter_cmp (next_a : σ → Option (Option T × σ)) (next_b : υ → Option (Option T × υ))
    (cmp : T → T → Ordering) (turns : ℕ) (a : σ) (b : υ) : Option Ordering := do
  let compare x y := match cmp x y with
    | .eq => Except.ok ()
    | non_eq => .error non_eq
  match ← iter_compare next_a next_b compare turns a b with
  | .ok ord | .error ord => return ord

/-- What `iter_compare` finds in two lists. -/
def listCompare (f : T → U → Except E Unit) : List T → List U → Except E Ordering
  | [], [] => .ok .eq
  | [], _ :: _ => .ok .lt
  | _ :: _, [] => .ok .gt
  | x :: l, y :: m =>
    match f x y with
    | .ok () => listCompare f l m
    | .error e => .error e

variable {next_a : σ → Option (Option T × σ)}

theorem iter_compare_spec {next_b : υ → Option (Option U × υ)}
    (ha : IsNext RA next_a) (hb : IsNext RB next_b) (f : T → U → Except E Unit) {l : List T}
    {m : List U} {a : σ} {b : υ} (hl : RA a l) (hm : RB b m) (hturns : l.length < turns) :
    iter_compare next_a next_b f turns a b = some (listCompare f l m) := by
  induction turns generalizing l m a b with
  | zero => exact absurd hturns (Nat.not_lt_zero _)
  | succ turns ih =>
    obtain ⟨a', hnexta, hl'⟩ := ha hl
    obtain ⟨b', hnextb, hm'⟩ := hb hm
    rw [iter_compare, hnexta]
    simp only [bind_eq_bind, bind_some, hnextb]
    cases l with
    | nil => cases m <;> rfl
    | cons x l =>
      cases m with
      | nil => rfl
      | cons y m =>
        simp only [head?_cons, listCompare]
        cases f x y with
        | ok u => exact ih hl' hm' (Nat.lt_of_succ_lt_succ hturns)
        | error e => rfl

theorem listCompare_eq (eq : T → U → Bool) (l : List T) (m : List U) :
    (match listCompare (fun x y => if eq x y then Except.ok () else .error ()) l m with
      | .ok ord => ord == .eq
      | .error () => false) = true ↔ List.Forall₂ (fun x y => eq x y = true) l m := by
  induction l generalizing m with
  | nil => cases m <;> simp [listCompare, forall₂_nil_left_iff]
  | cons x l ih =>
    cases m with
    | nil => simp [listCompare, forall₂_nil_right_iff]
    | cons y m =>
      rw [forall₂_cons, ← ih m, listCompare]
      cases eq x y <;> simp

theorem listCompare_cmp (cmp : T → T → Ordering) (l m : List T) :
    (match listCompare (fun x y => match cmp x y with
        | .eq => Except.ok ()
        | non_eq => .error non_eq) l m with
      | .ok ord | .error ord => ord) = List.compareLex cmp l m := by
  induction l generalizing m with
  | nil => cases m <;> rfl
  | cons x l ih =>
    cases m with
    | nil => rfl
    | cons y m =>
      rw [List.compareLex_cons_cons, ← ih m, listCompare]
      cases cmp x y <;> rfl

theorem iter_eq_spec {next_b : υ → Option (Option U × υ)}
    (ha : IsNext RA next_a) (hb : IsNext RB next_b) (eq : T → U → Bool) {l : List T} {m : List U}
    {a : σ} {b : υ} (hl : RA a l) (hm : RB b m) (hturns : l.length < turns) :
    ∃ r, iter_eq next_a next_b eq turns a b = some r ∧
      (r = true ↔ List.Forall₂ (fun x y => eq x y = true) l m) := by
  refine ⟨_, ?_, listCompare_eq eq l m⟩
  rw [iter_eq, iter_compare_spec ha hb _ hl hm hturns]
  simp only [bind_eq_bind, bind_some]
  split <;> rfl

theorem iter_cmp_spec {next_b : υ → Option (Option T × υ)}
    {RB : υ → List T → Prop} (ha : IsNext RA next_a) (hb : IsNext RB next_b)
    (cmp : T → T → Ordering) {l m : List T} {a : σ} {b : υ} (hl : RA a l) (hm : RB b m)
    (hturns : l.length < turns) :
    iter_cmp next_a next_b cmp turns a b = some (List.compareLex cmp l m) := by
  rw [iter_cmp, ← listCompare_cmp, iter_compare_spec ha hb _ hl hm hturns]
  generalize listCompare _ l m = r
  cases r <;> rfl

end RustStd.Iter
