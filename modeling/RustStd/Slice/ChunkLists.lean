import RustStd.Foundations.Indexed
import RustStd.Slice.Chunks

/-!
# The chunks as a list

Each iterator over a slice knows its elements by their places. One lemma for each shape says what is
left after elements from the front and one what is left after elements from the back; the methods of
the shared and of the mutable form both use them.
-/

namespace RustStd.Slice

open Iter Nat Slice.Span

variable {usizeMax turns : ℕ}

/-! ## Arithmetic -/

theorem mul_eq {a b : ℕ} (h : a * b ≤ usizeMax) : mul usizeMax a b = some (a * b) := if_pos h

theorem mul_eq_none {a b : ℕ} (h : ¬ a * b ≤ usizeMax) : mul usizeMax a b = none := if_neg h

theorem add_eq {a b : ℕ} (h : a + b ≤ usizeMax) : add usizeMax a b = some (a + b) := if_pos h

theorem Span.index_eq {v : Span} {a b : ℕ} (hab : a ≤ b) (hb : b ≤ v.len) :
    v.index a b = some ⟨v.start + a, b - a⟩ := if_pos ⟨hab, hb⟩

theorem Span.split_at_eq {v : Span} {mid : ℕ} (h : mid ≤ v.len) :
    v.split_at mid = some (⟨v.start, mid⟩, ⟨v.start + mid, v.len - mid⟩) := if_pos h

theorem Span.raw_part_eq {v : Span} {start len : ℕ} (h : start + len ≤ v.len) :
    v.raw_part start len = some ⟨v.start + start, len⟩ := if_pos h

/-- The number of multiples below `n`. -/
theorem lt_div_ceil {n k i : ℕ} (hk : 0 < k) : i < div_ceil n k ↔ i * k < n := by
  obtain ⟨gap, rfl⟩ := exists_eq_succ_of_ne_zero (ne_of_gt hk)
  rw [succ_eq_add_one, lt_div_ceil_iff, mul_comm]

theorem div_ceil_le {n k : ℕ} (hk : 0 < k) : div_ceil n k ≤ n := by
  by_contra h
  have := (lt_div_ceil hk).mp (Nat.lt_of_not_le h)
  have := Nat.le_mul_of_pos_right n hk
  lia

/-- The last multiple below `n`. -/
theorem div_ceil_pred {n k : ℕ} (hk : 0 < k) (hn : 0 < n) : div_ceil n k - 1 = (n - 1) / k := by
  apply eq_of_forall_lt_iff
  intro i
  have := (lt_div_ceil hk (n := n) (i := i + 1))
  rw [Nat.lt_sub_iff_add_lt, this, lt_iff_add_one_le, lt_iff_add_one_le, le_div_iff_mul_le hk]
  lia

/-- What is not covered by the multiples of `k` before the last one. -/
theorem pred_div_mul {n k : ℕ} (hk : 0 < k) (hn : 0 < n) :
    (n - 1) / k * k = n - if n % k ≠ 0 then n % k else k := by
  have hdiv := div_add_mod n k
  have hmod := mod_lt n hk
  generalize n % k = r at hdiv hmod ⊢
  generalize n / k = q at hdiv
  by_cases hr : r = 0
  · obtain ⟨p, rfl⟩ : ∃ p, q = p + 1 := by
      refine ⟨q - 1, ?_⟩
      obtain rfl | hq := Nat.eq_zero_or_pos q
      · rw [mul_zero] at hdiv
        lia
      · lia
    rw [if_neg (by simpa using hr), ← hdiv, hr, mul_succ,
      show k * p + k + 0 - 1 = k - 1 + k * p by lia, add_mul_div_left _ _ hk,
      div_eq_of_lt (by lia), zero_add, mul_comm k p]
    lia
  · rw [if_pos hr, ← hdiv, show k * q + r - 1 = r - 1 + k * q by lia,
      add_mul_div_left _ _ hk, div_eq_of_lt (by lia), zero_add,
      mul_comm k q]
    lia

/-- `nth` past the last chunk, as every form computes it. -/
theorem past_takes {σ T : Type} {get : σ → ℕ → Option T} {Inv : σ → Prop} {len : σ → ℕ} {s s' : σ}
    {n k l : ℕ} {f : ℕ → Option (Option T × σ)} (hlen : HasLength get Inv len) (hs : Inv s)
    (hend : Inv s' ∧ len s' = 0) (hiff : n < len s ↔ n * k < l) (hn : ¬ n * k < l) :
    TakesFront get Inv (match mul usizeMax n k with
      | none => some (none, s')
      | some e => if e < l then f e else some (none, s')) s n := by
  have hpast := hlen.takes_front_none hs hend (Nat.not_lt.mp (mt hiff.mp hn))
  by_cases hmul : n * k ≤ usizeMax
  · rw [mul_eq hmul]
    dsimp only
    rwa [if_neg hn]
  · rwa [mul_eq_none hmul]

/-! ## Windows -/

namespace Windows

/-- The window at a place. -/
def get (s : Windows) (i : ℕ) : Option Span :=
  if i + s.size ≤ s.v.len then some ⟨s.v.start + i, s.size⟩ else none

def length (s : Windows) : ℕ := s.v.len + 1 - s.size

structure Valid (usizeMax turns : ℕ) (s : Windows) : Prop where
  size : 0 < s.size
  len_le : s.v.len ≤ usizeMax
  turns : s.v.len < turns

variable {s s' : Windows} {n : ℕ}

theorem Valid.of_le (hs : Valid usizeMax turns s) (hsize : s'.size = s.size)
    (hle : s'.v.len ≤ s.v.len) : Valid usizeMax turns s' :=
  ⟨hsize ▸ hs.size, hle.trans hs.len_le, lt_of_le_of_lt hle hs.turns⟩

theorem hasLength : HasLength get (Valid usizeMax turns) length := by
  intro s hs i
  rw [get, length]
  split
  · exact iff_of_true rfl (by lia)
  · exact iff_of_false Bool.false_ne_true (by lia)

variable (hs : Valid usizeMax turns s)
include hs

/-- `n + 1` windows were taken from the front. -/
theorem takes_front {m : Option (Option Span × Windows)}
    (s' : Windows) (hm : m = some (get s n, s')) (hsize : s'.size = s.size)
    (hle : s'.v.len ≤ s.v.len) (hlen : length s' = length s - (n + 1))
    (hstart : 0 < length s' → s'.v.start = s.v.start + (n + 1)) :
    TakesFront get (Valid usizeMax turns) m s n := by
  refine ⟨s', hm, hs.of_le hsize hle, fun i => ?_⟩
  rw [length, length, hsize] at hlen
  rw [length, hsize] at hstart
  rw [get, get, hsize]
  by_cases hi : i + s.size ≤ s'.v.len
  · rw [if_pos hi, if_pos (by lia), hstart (by lia), add_assoc]
  · rw [if_neg hi, if_neg (by lia)]

/-- `n + 1` windows were taken from the back. -/
theorem takes_back {m : Option (Option Span × Windows)}
    (s' : Windows) (hm : m = some (if n < length s then get s (length s - 1 - n) else none, s'))
    (hsize : s'.size = s.size) (hle : s'.v.len ≤ s.v.len) (hlen : length s' = length s - (n + 1))
    (hstart : s'.v.start = s.v.start) :
    TakesBack get (Valid usizeMax turns) length m s n := by
  refine ⟨s', hm, hs.of_le hsize hle, fun i => ?_⟩
  rw [← hlen]
  rw [length, length, hsize] at hlen
  rw [length, get, get, hsize]
  by_cases hi : i + s.size ≤ s'.v.len
  · rw [if_pos hi, if_pos (by lia), if_pos (by lia), hstart]
  · rw [if_neg hi, if_neg (by lia)]

theorem spent : Valid usizeMax turns { s with v := s.v.cleared } ∧
    length { s with v := s.v.cleared } = 0 :=
  ⟨hs.of_le rfl (zero_le _), Nat.sub_eq_zero_of_le hs.size⟩

theorem next_takes : TakesFront get (Valid usizeMax turns) (next s) s 0 := by
  have hpos := hs.size
  by_cases hsize : s.size > s.v.len
  · have hzero : length s = 0 := by
      rw [length]
      lia
    rw [next, if_pos hsize]
    exact hasLength.takes_front_none hs ⟨hs, hzero⟩ hzero.le
  · have hsome : get s 0 = some ⟨s.v.start + 0, s.size⟩ := if_pos (by lia)
    refine takes_front hs { s with v := ⟨s.v.start + 1, s.v.len - 1⟩ } ?_ rfl
      (sub_le _ _) ?_ fun _ => rfl
    · rw [next, if_neg hsize, index_eq (zero_le _) (by lia),
        index_eq (by lia) (le_refl _), hsome]
      rfl
    · rw [length, length]
      dsimp only
      lia

theorem nth_takes (n : ℕ) : TakesFront get (Valid usizeMax turns) (nth s n) s n := by
  have hpos := hs.size
  by_cases hn : n + s.size ≤ s.v.len
  · refine takes_front hs { s with v := ⟨s.v.start + n + 1, s.v.len - n - 1⟩ } ?_ rfl
      ?_ ?_ fun _ => add_assoc _ _ _
    · rw [nth, index_eq (by lia) (le_refl _)]
      dsimp only
      rw [index_eq (zero_le _) (by dsimp only; lia)]
      rw [index_eq (by dsimp only; lia) (le_refl _), get, if_pos hn]
      rfl
    · dsimp only
      lia
    · rw [length, length]
      dsimp only
      lia
  · have hpast := hasLength.takes_front_none hs (spent hs) (n := n) (by rw [length]; lia)
    rw [nth]
    by_cases hlen : n ≤ s.v.len
    · rw [index_eq hlen (le_refl _)]
      dsimp only
      rwa [index, if_neg (by dsimp only; lia)]
    · rwa [index, if_neg (by lia)]

theorem nth_back_takes (n : ℕ) :
    TakesBack get (Valid usizeMax turns) length (nth_back s n) s n := by
  have hpos := hs.size
  by_cases hn : n + s.size ≤ s.v.len
  · refine takes_back hs { s with v := ⟨s.v.start + 0, s.v.len - n - 1 - 0⟩ } ?_ rfl
      ?_ ?_ rfl
    · have hplace : length s - 1 - n = s.v.len - n - s.size := by
        rw [length]
        lia
      rw [nth_back, checkedSub_eq (by lia)]
      dsimp only
      rw [checkedSub_eq (by lia)]
      dsimp only
      rw [index_eq (by lia) (by lia), checkedSub_eq (by lia),
        if_pos (by rw [length]; lia), hplace, get, if_pos (by lia),
        show s.v.len - n - (s.v.len - n - s.size) = s.size by lia]
      simp only [some_bind]
      rw [index_eq (by lia) (by lia)]
      rfl
    · dsimp only
      lia
    · rw [length, length]
      dsimp only
      lia
  · have hpast := hasLength.takes_back_none (spent hs) (s := s) (n := n) (by rw [length]; lia)
    rw [nth_back]
    by_cases hlen : n ≤ s.v.len
    · rw [checkedSub_eq hlen]
      dsimp only
      rwa [checkedSub, if_neg (by lia)]
    · rwa [checkedSub, if_neg hlen]

omit hs

theorem size_hint_eq : size_hint s = (length s, some (length s)) := by
  rw [size_hint, length]
  by_cases hsize : s.size > s.v.len
  · rw [if_pos hsize, show s.v.len + 1 - s.size = 0 by lia]
  · rw [if_neg hsize, show s.v.len + 1 - s.size = s.v.len - s.size + 1 by lia]

theorem last_eq : last s = some (get s (length s - 1)) := by
  rw [last, length]
  by_cases hsize : s.size > s.v.len
  · rw [if_pos hsize, get, if_neg (by lia)]
  · rw [if_neg hsize, checkedSub_eq (by lia), get, if_pos (by lia)]
    simp only [some_bind]
    rw [index_eq (by lia) (le_refl _),
      show s.v.len - (s.v.len - s.size) = s.size by lia,
      show s.v.len + 1 - s.size - 1 = s.v.len - s.size by lia]
    rfl

theorem get_unchecked_eq {i : ℕ} (hi : i < length s) : get_unchecked s i = get s i := by
  have hle : i + s.size ≤ s.v.len := by
    rw [length] at hi
    lia
  rw [get_unchecked, raw_part_eq hle, get, if_pos hle]

end Windows

end RustStd.Slice
