import Mathlib.Data.List.Perm.Subperm
import RustStd.Foundations.Sweep

/-!
# What a run hands out

The elements that the calls of a run answer, and those that are left, were all in the list, each as
often as it was there. A symmetric relation between any two elements of the list therefore holds
between any two that are handed out.
-/

namespace RustStd

open DoubleEnded List

variable {T A B Q α : Type} {l : List T}

/-- The elements in an answer. -/
def Answer.items : Answer T A B → List T
  | .item x => x.toList
  | _ => []

theorem tryFold_suffix (f : A → T → Except B A) (a : A) (l : List T) : (tryFold f a l).2 <:+ l := by
  induction l generalizing a with
  | nil => exact suffix_refl _
  | cons x l ih =>
    rw [tryFold]
    cases f a x with
    | ok a => exact (ih a).trans (suffix_cons x l)
    | error b => exact suffix_cons x l

theorem getElem?_toList_append_drop (l : List T) (n : ℕ) :
    l[n]?.toList ++ l.drop (n + 1) = l.drop n := by
  induction l generalizing n with
  | nil => simp
  | cons x l ih =>
    cases n with
    | zero => rfl
    | succ n => exact ih n

theorem Method.reply_subperm (m : Method T A B) (l : List T) :
    List.Subperm ((m.reply l).1.items ++ (m.reply l).2) l := by
  apply List.Sublist.subperm
  cases m with
  | next =>
    cases l with
    | nil | cons => exact List.Sublist.refl _
  | nth n =>
    rw [reply, Answer.items, getElem?_toList_append_drop]
    exact drop_sublist n l
  | advance_by n => exact drop_sublist n l
  | try_fold f a => exact (tryFold_suffix f a l).sublist

theorem replyAt_subperm (q : End × Method T A B) (l : List T) :
    List.Subperm ((replyAt q l).1.items ++ (replyAt q l).2) l := by
  obtain ⟨e, m⟩ := q
  cases e with
  | front => exact m.reply_subperm l
  | back =>
    have hrev := (reverse_perm (m.reply l.reverse).2).append_left (m.reply l.reverse).1.items
    exact (hrev.subperm.trans (m.reply_subperm l.reverse)).trans (reverse_perm l).subperm

/-- **Nothing is handed out twice.** -/
theorem replies_subperm (qs : List (End × Method T A B)) (l : List T) :
    List.Subperm ((replies replyAt qs l).1.flatMap Answer.items ++ (replies replyAt qs l).2) l := by
  induction qs generalizing l with
  | nil => exact List.Subperm.refl l
  | cons q qs ih =>
    rw [replies, flatMap_cons, append_assoc]
    exact ((subperm_append_left _).mpr (ih _)).trans (replyAt_subperm q l)

theorem pairwise_of_subperm {r : T → T → Prop} (hr : ∀ x y, r x y → r y x) {l l' : List T}
    (h : List.Subperm l' l) (hl : l.Pairwise r) : l'.Pairwise r := by
  obtain ⟨m, hperm, hsub⟩ := h
  exact (hperm.pairwise_iff fun {x y} => hr x y).mp (hl.sublist hsub)

/-- What a run hands out, and what it leaves, is related as the elements of the list are. -/
theorem pairwise_replies {r : T → T → Prop} (hr : ∀ x y, r x y → r y x) (hl : l.Pairwise r)
    (qs : List (End × Method T A B)) :
    ((replies replyAt qs l).1.flatMap Answer.items ++ (replies replyAt qs l).2).Pairwise r :=
  pairwise_of_subperm hr (replies_subperm qs l) hl

end RustStd
