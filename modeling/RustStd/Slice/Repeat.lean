import RustStd.Foundations.Cells
import RustStd.Foundations.Word

/-!
# Repeating a slice

`[T]::repeat` of `alloc/src/slice.rs`: the buffer is doubled once for every bit of the number below
its leading one, and the rest is copied from the buffer itself. A copy reads its source, so that a
cell that was never written is a fault.
-/

namespace RustStd.SliceRepeat

open List Exec

variable {T : Type} (t : Target) (size : ℕ) (alloc : ℕ → Bool)

/-! ## The code -/

/-- A vector: as many cells as its capacity, and its length. -/
structure Vec (T : Type) where
  cells : List (Option T)
  len : ℕ

/-- Whether elements of `size` bytes get their memory. -/
def Granted (capacity : ℕ) : Prop :=
  size * capacity ≤ t.isizeMax ∧ (size * capacity = 0 ∨ alloc (size * capacity) = true)

instance (capacity : ℕ) : Decidable (Granted t size alloc capacity) :=
  inferInstanceAs (Decidable (_ ∧ _))

/-- `Vec::with_capacity`. A capacity past `isize::MAX` bytes panics; when the allocator has no memory
`handle_alloc_error` ends the program, which is a panic here as well. -/
def with_capacity (capacity : ℕ) : Exec (Vec T) :=
  if Granted t size alloc capacity then .ok ⟨replicate capacity none, 0⟩ else .error .panic

def Vec.set_len (self : Vec T) (new_len : ℕ) : Exec (Vec T) :=
  if new_len ≤ self.cells.length then .ok { self with len := new_len } else .error .fault

/-- `Vec::extend`, where the capacity suffices. -/
def Vec.extend (self : Vec T) (slice : List T) : Exec (Vec T) :=
  if self.len + slice.length ≤ self.cells.length then
    .ok ⟨self.cells.take self.len ++ slice.map some ++ self.cells.drop (self.len + slice.length),
      self.len + slice.length⟩
  else .error .fault

/-- `ptr::copy_nonoverlapping` from the start of the buffer to its end, and `set_len`. -/
def Vec.append_start (self : Vec T) (count new_len : ℕ) : Exec (Vec T) := do
  let _ ← readCells self.cells 0 count
  let cells ← copyCells self.cells 0 self.len count
  { self with cells }.set_len new_len

/-- The loop over the bits of `m`. -/
def double (buf : Vec T) (m : ℕ) : Exec (Vec T) :=
  if 0 < m then do double (← buf.append_start buf.len (buf.len * 2)) (m / 2) else .ok buf

def «repeat» (self : List T) (n : ℕ) : Exec (Vec T) :=
  if n = 0 then .ok ⟨[], 0⟩
  else if self.length * n ≤ t.usizeMax then do
    let capacity := self.length * n
    let buf ← with_capacity t size alloc capacity
    let buf ← buf.extend self
    let buf ← double buf (n / 2)
    if capacity < buf.len then .error .panic
    else
      let rem_len := capacity - buf.len
      if rem_len > 0 then buf.append_start rem_len capacity else .ok buf
  else .error .panic

/-! ## Copies -/

/-- The vector of a capacity that has written `w`. -/
def written (capacity : ℕ) (w : List T) : Vec T :=
  ⟨w.map some ++ replicate (capacity - w.length) none, w.length⟩

/-- The copies of a slice. -/
def copies (slice : List T) (n : ℕ) : List T := (replicate n slice).flatten

variable {t size alloc} {slice w : List T} {capacity n : ℕ}

theorem length_copies (slice : List T) (n : ℕ) : (copies slice n).length = slice.length * n := by
  rw [copies, length_flatten, map_replicate, sum_replicate_nat, Nat.mul_comm]

theorem copies_add (slice : List T) (n m : ℕ) :
    copies slice (n + m) = copies slice n ++ copies slice m := by
  rw [copies, replicate_add, flatten_append, copies, copies]

theorem take_copies (slice : List T) {n m : ℕ} (h : m ≤ n) :
    (copies slice n).take (slice.length * m) = copies slice m := by
  obtain ⟨k, rfl⟩ := Nat.exists_eq_add_of_le h
  rw [copies_add, ← length_copies, take_left]

/-- Copying the first `k` elements behind the last one. -/
theorem append_start_written {k : ℕ} (hk : k ≤ w.length) (hroom : w.length + k ≤ capacity) :
    (written capacity w).append_start k (w.length + k) =
      .ok (written capacity (w ++ w.take k)) := by
  have hlen : (w.take k).length = k := length_take_of_le hk
  have hholds : Holds (written capacity w).cells 0 (w.take k) := by
    refine ⟨?_, fun i hi => ?_⟩
    · rw [written, length_append, length_map, hlen]
      omega
    · rw [hlen] at hi
      rw [written, Nat.zero_add, getElem?_append_left (by rw [length_map]; omega), getElem?_map,
        getElem?_take_of_lt hi, getElem?_eq_getElem (by omega)]
      rfl
  have hread := readCells_eq hholds
  have hcells : (written capacity w).cells.length = capacity := by
    rw [written, length_append, length_map, length_replicate]
    omega
  have hcopy : copyCells (written capacity w).cells 0 w.length k =
      .ok (written capacity (w ++ w.take k)).cells := by
    rw [copyCells, if_pos ⟨by omega, by omega, .inl (by omega)⟩]
    simp only [written]
    rw [take_left' (length_map _), drop_zero, take_append_of_le_length (by rwa [length_map]),
      ← drop_drop, drop_left' (length_map _), drop_replicate, length_append, hlen, map_append,
      map_take, append_assoc, Nat.sub_add_eq]
  rw [hlen] at hread
  rw [Vec.append_start, hread, bind_ok, show (written capacity w).len = w.length from rfl, hcopy,
    bind_ok, Vec.set_len, if_pos]
  · simp [written, hlen]
  · simp only [written, length_append, length_map, length_replicate, hlen]
    omega

/-- **The loop** doubles until another copy of the whole would be too much. -/
theorem double_spec (slice : List T) {m c : ℕ} (hc : 0 < c) (hm : n / (2 * c) = m) (hle : c ≤ n) :
    ∃ c', c' ≤ n ∧ n < 2 * c' ∧ double (written (slice.length * n) (copies slice c)) m =
      .ok (written (slice.length * n) (copies slice c')) := by
  induction m using Nat.strong_induction_on generalizing c with
  | _ m ih =>
    rw [double]
    by_cases h0 : 0 < m
    · have hle2 : 2 * c ≤ n := by
        by_contra hlt
        rw [Nat.div_eq_of_lt (Nat.lt_of_not_le hlt)] at hm
        exact h0.ne hm
      obtain ⟨c', hc', hlt, hrun⟩ := ih (m / 2) (Nat.div_lt_self h0 Nat.one_lt_two)
        (c := 2 * c) (by omega) (by rw [← hm, Nat.div_div_eq_div_mul, Nat.mul_comm 2]) hle2
      have hroom : slice.length * c + slice.length * c ≤ slice.length * n := by
        rw [← Nat.mul_add, ← Nat.two_mul]
        exact Nat.mul_le_mul_left _ hle2
      rw [← length_copies] at hroom
      have hstep := append_start_written le_rfl hroom
      rw [take_length, ← copies_add, ← Nat.mul_two, ← Nat.two_mul] at hstep
      refine ⟨c', hc', hlt, ?_⟩
      rw [if_pos h0]
      dsimp only [written] at hstep ⊢
      rw [hstep]
      exact hrun
    · refine ⟨c, hle, ?_, if_neg h0⟩
      have := (Nat.div_eq_zero_iff.1 (hm.trans (Nat.eq_zero_of_not_pos h0))).resolve_left (by omega)
      exact this

/-- **Repeating** gives the copies, and stops before it writes when they have no place. No copy
reads what was not written, leaves the buffer or overlaps its source. -/
theorem repeat_copies (t : Target) (size : ℕ) (alloc : ℕ → Bool) (slice : List T) (n : ℕ) :
    «repeat» t size alloc slice n =
      if slice.length * n ≤ t.usizeMax ∧ (n = 0 ∨ Granted t size alloc (slice.length * n)) then
        .ok ⟨(copies slice n).map some, slice.length * n⟩
      else .error .panic := by
  rw [«repeat»]
  by_cases h0 : n = 0
  · subst h0
    rw [if_pos rfl, if_pos ⟨Nat.zero_le _, .inl rfl⟩]
    rfl
  rw [if_neg h0]
  by_cases hfit : slice.length * n ≤ t.usizeMax
  · rw [if_pos hfit]
    unfold with_capacity
    by_cases hgranted : Granted t size alloc (slice.length * n)
    · have hlen : slice.length ≤ slice.length * n :=
        Nat.le_mul_of_pos_right _ (Nat.pos_of_ne_zero h0)
      have hextend : (⟨replicate (slice.length * n) none, 0⟩ : Vec T).extend slice =
          .ok (written (slice.length * n) (copies slice 1)) := by
        rw [Vec.extend, if_pos (by rwa [length_replicate, Nat.zero_add])]
        simp [written, copies]
      obtain ⟨c, hc, hlt, hrun⟩ := double_spec slice Nat.one_pos rfl (Nat.pos_of_ne_zero h0)
      obtain ⟨r, rfl⟩ := Nat.exists_eq_add_of_le hc
      have hdone : written (slice.length * (c + r)) (copies slice (c + r)) =
          ⟨(copies slice (c + r)).map some, slice.length * (c + r)⟩ := by
        rw [written, length_copies, Nat.sub_self, replicate_zero, append_nil]
      rw [if_pos ⟨hfit, .inr hgranted⟩]
      dsimp only
      rw [if_pos hgranted, bind_ok, hextend, bind_ok, hrun, bind_ok,
        show (written _ (copies slice c)).len = slice.length * c from length_copies _ _,
        if_neg (Nat.mul_le_mul_left _ hc).not_gt, Nat.mul_add,
        Nat.add_sub_cancel_left, ← Nat.mul_add]
      have hstep := append_start_written (w := copies slice c) (k := slice.length * r)
        (by rw [length_copies]; exact Nat.mul_le_mul_left _ (by omega))
        (by rw [length_copies, ← Nat.mul_add])
      rw [take_copies _ (by omega), ← copies_add, length_copies, ← Nat.mul_add] at hstep
      by_cases hrem : slice.length * r > 0
      · rw [if_pos hrem, hstep, hdone]
      · rw [if_neg hrem]
        have hnil : copies slice r = [] :=
          length_eq_zero_iff.1 ((length_copies _ _).trans (Nat.eq_zero_of_not_pos hrem))
        rw [← hdone, copies_add, hnil, append_nil]
    · dsimp only
      rw [if_neg hgranted, if_neg (by tauto)]
      rfl
  · rw [if_neg hfit, if_neg fun h => hfit h.1]

/-- A number of elements that is representable may still be too many bytes. -/
theorem repeat_too_large : ([0] : List ℕ).length * 2 ^ 60 ≤ Target.usizeMax ⟨3, false⟩ ∧
    «repeat» ⟨3, false⟩ 8 (fun _ => true) [0] (2 ^ 60) = .error .panic :=
  ⟨by decide, rfl⟩

end RustStd.SliceRepeat
