import Mathlib.Data.List.Basic

/-!
# Every so many elements of a list

`strided gap k l` are the elements of `l` at the positions `k`, `k + (gap + 1)`, and so on. What is
left after some of them is strided again, with the offset `gap`; read from the back, the list is
strided as well, with the offset `backOffset`.
-/

namespace RustStd

open List Nat

variable {T : Type*} {gap k n : ℕ} {l : List T}

/-- The elements from position `k` on, with `gap` elements between two of them. -/
def strided (gap : ℕ) : ℕ → List T → List T
  | _, [] => []
  | 0, x :: l => x :: strided gap gap l
  | k + 1, _ :: l => strided gap k l

@[simp] theorem strided_nil (gap k : ℕ) : strided gap k ([] : List T) = [] := by
  cases k <;> rfl

@[simp] theorem getElem?_strided (gap k : ℕ) (l : List T) (i : ℕ) :
    (strided gap k l)[i]? = l[k + i * (gap + 1)]? := by
  induction l generalizing k i with
  | nil => simp
  | cons x l ih =>
    cases k with
    | zero =>
      rw [strided]
      cases i with
      | zero => simp
      | succ i =>
        rw [getElem?_cons_succ, ih, show 0 + (i + 1) * (gap + 1) =
          gap + i * (gap + 1) + 1 by rw [succ_mul]; lia, getElem?_cons_succ]
    | succ k =>
      rw [strided, ih, succ_add, getElem?_cons_succ]

@[simp] theorem head?_strided (gap k : ℕ) (l : List T) : (strided gap k l).head? = l[k]? := by
  rw [head?_eq_getElem?, getElem?_strided, Nat.zero_mul, Nat.add_zero]

theorem drop_strided (gap k n : ℕ) (l : List T) :
    (strided gap k l).drop (n + 1) = strided gap gap (l.drop (k + n * (gap + 1) + 1)) := by
  apply ext_getElem?
  intro i
  rw [getElem?_drop, getElem?_strided, getElem?_strided, getElem?_drop]
  congr 1
  rw [show n + 1 + i = n + i + 1 by lia, succ_mul, Nat.add_mul]
  lia

theorem tail_strided (gap k : ℕ) (l : List T) :
    (strided gap k l).tail = strided gap gap (l.drop (k + 1)) := by
  rw [← drop_one, drop_strided gap k 0, Nat.zero_mul, Nat.add_zero]

theorem length_strided (hk : k ≤ gap) (l : List T) :
    (strided gap k l).length = (l.length + gap - k) / (gap + 1) := by
  induction l generalizing k with
  | nil =>
    rw [strided_nil, length_nil, Nat.zero_add, div_eq_of_lt (by lia)]
  | cons x l ih =>
    cases k with
    | zero =>
      rw [strided, length_cons, length_cons, ih (Nat.le_refl _), Nat.add_sub_cancel,
        Nat.sub_zero, show l.length + 1 + gap = l.length + (gap + 1) by lia,
        add_div_right _ (succ_pos _)]
    | succ k =>
      rw [strided, ih (by lia), length_cons, show l.length + 1 + gap - (k + 1) =
        l.length + gap - k by lia]

theorem length_strided_le (gap k : ℕ) (l : List T) : (strided gap k l).length ≤ l.length := by
  induction l generalizing k with
  | nil => simp
  | cons x l ih =>
    cases k with
    | zero => exact succ_le_succ (ih gap)
    | succ k => exact le_succ_of_le (ih k)

/-- The offset from the back. -/
def backOffset (gap k len : ℕ) : ℕ := (len + gap - k) % (gap + 1)

/-- The list from the back. -/
theorem reverse_strided (hk : k ≤ gap) (l : List T) :
    (strided gap k l).reverse = strided gap (backOffset gap k l.length) l.reverse := by
  have hlen := length_strided hk l
  have hdiv := div_add_mod (l.length + gap - k) (gap + 1)
  rw [← hlen, ← backOffset] at hdiv
  generalize backOffset gap k l.length = b at hdiv
  apply ext_getElem?
  intro j
  rw [getElem?_strided]
  obtain hj | hj := Nat.lt_or_ge j (strided gap k l).length
  · obtain ⟨r, hr⟩ := Nat.exists_eq_add_of_lt hj
    have hexpand : (gap + 1) * (j + r + 1) = j * (gap + 1) + r * (gap + 1) + (gap + 1) := by
      rw [Nat.mul_comm, succ_mul, Nat.add_mul]
    rw [hr, hexpand] at hdiv
    rw [getElem?_reverse hj, getElem?_reverse (by lia), getElem?_strided, hr,
      show j + r + 1 - 1 - j = r by lia]
    congr 1
    lia
  · obtain ⟨r, rfl⟩ := Nat.exists_eq_add_of_le hj
    rw [Nat.mul_comm] at hdiv
    rw [getElem?_eq_none (by simp), getElem?_eq_none]
    rw [length_reverse, Nat.add_mul]
    lia

/-- After some elements from the back, the next one is `gap` elements away. -/
theorem backOffset_sub (hk : k ≤ gap) {len : ℕ}
    (h : backOffset gap k len + n * (gap + 1) + 1 ≤ len) :
    backOffset gap k (len - (backOffset gap k len + n * (gap + 1) + 1)) = gap := by
  have hdiv := div_add_mod (len + gap - k) (gap + 1)
  rw [← backOffset] at hdiv
  generalize (len + gap - k) / (gap + 1) = q at hdiv
  generalize backOffset gap k len = b at hdiv h ⊢
  have hq : n < q := by
    by_contra hq
    have := Nat.mul_le_mul_right (gap + 1) (Nat.le_of_not_lt hq)
    rw [Nat.mul_comm] at hdiv
    lia
  obtain ⟨r, rfl⟩ := Nat.exists_eq_add_of_lt hq
  have hexpand : (gap + 1) * (n + r + 1) = n * (gap + 1) + r * (gap + 1) + (gap + 1) := by
    rw [Nat.mul_comm, succ_mul, Nat.add_mul]
  rw [hexpand] at hdiv
  rw [backOffset, show len - (b + n * (gap + 1) + 1) + gap - k = gap + r * (gap + 1) by lia,
    add_mul_mod_self_right, mod_eq_of_lt (lt_succ_self gap)]

/-- Taking elements from the back keeps the offset at the front. -/
theorem strided_dropBack (hk : k ≤ gap) (n : ℕ) (l : List T) :
    strided gap k (l.reverse.drop (backOffset gap k l.length + n * (gap + 1) + 1)).reverse =
      ((strided gap k l).reverse.drop (n + 1)).reverse := by
  apply reverse_injective
  rw [reverse_strided hk, reverse_reverse, reverse_reverse, reverse_strided hk,
    drop_strided, length_reverse, length_drop, length_reverse]
  obtain hle | hlt := Nat.lt_or_ge l.length (backOffset gap k l.length + n * (gap + 1) + 1)
  · rw [drop_eq_nil_of_le (by rw [length_reverse]; lia), strided_nil, strided_nil]
  · rw [backOffset_sub hk hlt]

/-! ## The number of places -/

/-- The quotient, rounded up. -/
def div_ceil (n d : ℕ) : ℕ := if 0 < n % d then n / d + 1 else n / d

theorem div_ceil_eq (n gap : ℕ) : div_ceil n (gap + 1) = (n + gap) / (gap + 1) := by
  have hdiv := div_add_mod n (gap + 1)
  have hmod := mod_lt n (succ_pos gap)
  rw [div_ceil]
  generalize n / (gap + 1) = q at hdiv ⊢
  generalize n % (gap + 1) = r at hdiv hmod ⊢
  split
  · rw [← hdiv, show (gap + 1) * q + r + gap = r - 1 + (gap + 1) * (q + 1) by
      rw [mul_succ]; lia, add_mul_div_left _ _ (succ_pos gap),
      div_eq_of_lt (by lia), Nat.zero_add]
  · rw [← hdiv, show (gap + 1) * q + r + gap = gap + (gap + 1) * q by lia,
      add_mul_div_left _ _ (succ_pos gap), div_eq_of_lt (lt_succ_self gap),
      Nat.zero_add]

/-- The places of the elements a step apart. -/
theorem lt_div_ceil_iff {n gap i : ℕ} : i < div_ceil n (gap + 1) ↔ (gap + 1) * i < n := by
  rw [div_ceil_eq, lt_iff_add_one_le, Nat.le_div_iff_mul_le (by lia),
    succ_mul, Nat.mul_comm i]
  lia

end RustStd
