import RustStd.Str.Occurrences
import RustStd.Str.StrSearcher

/-!
# Searching for a non-empty string

A `StrSearcher` with a `TwoWaySearcher` does what a call must do: `forward_spec` for `next` and
`next_match`, `backward_spec` for `next_back` and `next_match_back`. Moving a reject to a char
boundary keeps the memory of the searcher: remembered bytes are only there where a char begins.
-/

namespace RustStd.StrSearcher

open Utf8 TwoWaySearcher List Nat

variable {t : Target} {haystack needle : Str t} {long_period : Bool} {l : List (ℕ × ℕ)}
variable {self : StrSearcher t}

/-- A bound on the steps before `Done`. -/
def stepsLeft (d : Dir) (self : StrSearcher t) : ℕ :=
  match d, self.searcher with
  | .forward, .Empty s => 2 * (self.haystack.bytes.length - s.position) + s.is_match_fw.toNat
  | .backward, .Empty s => 2 * s.end_ + s.is_match_bw.toNat
  | .forward, .TwoWay s => self.haystack.bytes.length - s.position
  | .backward, .TwoWay s => s.end_

/-- The memory says whether the period is long. -/
theorem is_long_eq {position memory : ℕ}
    (h : MemoryOk t needle.bytes haystack.bytes long_period position memory) :
    (memory == t.usizeMax) = long_period := by
  have hcard := t.two_mul_isizeMax
  have hlen := needle.len_le
  cases long_period with
  | false =>
    have hle : memory ≤ needle.bytes.length := h.1
    rw [beq_eq_false_iff_ne]
    unfold Target.usizeMax
    lia
  | true =>
    rw [show memory = t.usizeMax from h]
    exact beq_self_eq_true _

/-! ## The next boundary -/

theorem boundaryFrom_spec (haystack : Str t) {b : ℕ} (hb : b ≤ haystack.bytes.length) :
    ∃ b', boundaryFrom t haystack.bytes b = some b' ∧ b ≤ b' ∧ b' ≤ haystack.bytes.length ∧
      is_char_boundary haystack.bytes b' = true ∧
      ∀ j, b ≤ j → j < b' → ¬ is_char_boundary haystack.bytes j = true := by
  have hcard := t.two_mul_isizeMax
  have hlen := haystack.len_le
  refine runLoop_spec _ (fun x => b ≤ x ∧ x ≤ haystack.bytes.length ∧
    ∀ j, b ≤ j → j < x → ¬ is_char_boundary haystack.bytes j = true)
    (fun x => haystack.bytes.length - x) _ (fun x ⟨hbx, hx, hnone⟩ => ?_) _ _
    ⟨le_rfl, hb, fun j hj hlt => by lia⟩ (by lia)
  by_cases hbound : is_char_boundary haystack.bytes x = true
  · rw [if_neg (by simp [hbound])]
    exact ⟨hbx, hx, hbound, hnone⟩
  have hlt : x ≠ haystack.bytes.length := by
    rintro rfl
    exact hbound is_char_boundary_length
  rw [if_pos (Bool.not_eq_true _ ▸ hbound), Target.checkedAdd_eq (by lia)]
  refine ⟨⟨by lia, by lia, fun j hj hjx => ?_⟩, by simp only; lia⟩
  rcases Nat.lt_succ_iff_lt_or_eq.1 hjx with h | rfl
  · exact hnone j hj h
  · exact hbound

theorem boundaryTo_spec (haystack : Str t) {a : ℕ} (ha : a ≤ haystack.bytes.length) :
    ∃ a', boundaryTo haystack.bytes a = some a' ∧ a' ≤ a ∧
      is_char_boundary haystack.bytes a' = true ∧
      ∀ j, a' < j → j ≤ a → ¬ is_char_boundary haystack.bytes j = true := by
  refine runLoop_spec _ (fun x => x ≤ a ∧
    ∀ j, x < j → j ≤ a → ¬ is_char_boundary haystack.bytes j = true) (fun x => x) _
    (fun x ⟨hxa, hnone⟩ => ?_) _ _ ⟨le_rfl, fun j hj hlt => by lia⟩ (by lia)
  by_cases hbound : is_char_boundary haystack.bytes x = true
  · rw [if_neg (by simp [hbound])]
    exact ⟨hxa, hbound, hnone⟩
  have hpos : x ≠ 0 := by
    rintro rfl
    exact hbound is_char_boundary_zero
  rw [if_pos (Bool.not_eq_true _ ▸ hbound), checkedSub, if_pos (one_le_iff_ne_zero.2 hpos)]
  refine ⟨⟨by lia, fun j hj hja => ?_⟩, by simp only; lia⟩
  rcases eq_or_lt_of_le (succ_le_of_lt hj) with h | h
  · rwa [show j = x by lia]
  · exact hnone j (by lia) hja

/-! ## Forwards -/

/-- The searcher stands at `p`, with the leftmost occurrences `l` ahead of it. -/
def ForwardAt (haystack needle : Str t) (self : StrSearcher t) (p : ℕ) (l : List (ℕ × ℕ)) : Prop :=
  ∃ searcher long_period, self = ⟨haystack, needle, .TwoWay searcher⟩ ∧
    Ready needle.bytes long_period searcher ∧ searcher.position = p ∧
    p ≤ haystack.bytes.length ∧ is_char_boundary haystack.bytes p = true ∧
    MemoryOk t needle.bytes haystack.bytes long_period p searcher.memory ∧
    Leftmost needle.bytes haystack.bytes p l

/-- No occurrence starts where no char begins. -/
theorem noneFrom_of_boundary (needle : Str t) (hne : needle.bytes ≠ []) {a b : ℕ}
    (h : ∀ j, a ≤ j → j < b → ¬ is_char_boundary haystack.bytes j = true) :
    NoneFrom needle.bytes haystack.bytes a b := fun j hj hlt hocc =>
  h j hj hlt (occursAt_boundaries hne needle.valid haystack.valid hocc).1

variable (hne : needle.bytes ≠ [])
include hne

/-- **Moving to the next boundary keeps the memory**: with anything remembered, a char begins at the
position already, and it is not moved. -/
theorem memoryOk_move {b b' memory : ℕ} (hbb : b ≤ b')
    (hbound : ∀ j, b ≤ j → j < b' → ¬ is_char_boundary haystack.bytes j = true)
    (h : MemoryOk t needle.bytes haystack.bytes long_period b memory) :
    MemoryOk t needle.bytes haystack.bytes long_period b' memory := by
  rcases eq_or_lt_of_le hbb with rfl | hlt
  · exact h
  cases long_period with
  | true => exact h
  | false =>
    obtain ⟨hle, hmem⟩ := h
    refine ⟨hle, fun hfit k hk => ?_⟩
    -- the first byte of the needle is at `b`
    have hbyte := hmem (by lia) 0 (by lia)
    have h0 : 0 < b := by
      rcases Nat.eq_zero_or_pos b with rfl | h0
      · exact (hbound 0 le_rfl hlt is_char_boundary_zero).elim
      · exact h0
    refine absurd ?_ (hbound b le_rfl hlt)
    rw [is_char_boundary_iff_byte h0 (by lia), ← add_zero b, ← hbyte]
    exact needle.valid.not_tail_head hne

variable {p : ℕ}

/-- A call from the front yields the first step of the rest. -/
theorem next_forwardAt (h : ForwardAt haystack needle self p l) : ∃ r, self.next = some r ∧
      Searcher.StepOk .forward (is_char_boundary haystack.bytes) haystack.bytes.length
        (stepsLeft .forward) (ForwardAt haystack needle) self p l r := by
  obtain ⟨searcher, long_period, rfl, hready, rfl, hle, hbound, hmem, hl⟩ := id h
  have hpos := length_pos_iff.2 hne
  simp only [next]
  by_cases hend : searcher.position = haystack.bytes.length
  · rw [if_pos hend]
    refine ⟨_, rfl, hl.eq_nil ?_ hne, hend, h⟩
    rw [hend]
    exact NoneFrom.refl _
  rw [if_neg hend, is_long_eq hmem]
  obtain ⟨⟨cur, step⟩, heq, -, hready', hmem', hge, hle', hstep⟩ :=
    next_spec (S := RejectAndMatch) needle.len_le haystack.len_le hready hle hmem
  rw [heq]
  simp only at hready' hmem' hge hle' hstep
  rcases hstep with ⟨rfl, hnone, hmoved⟩ | ⟨a, rfl, hcur, -, hocc, -, hstart⟩
  · have hlt : searcher.position < cur.position := by
      rcases hmoved with h | h
      · lia
      · exact h.2
    obtain ⟨b, hb, hcb, hblen, hbb, hskip⟩ := boundaryFrom_spec haystack hle'
    have hnone' := hnone.append (noneFrom_of_boundary needle hne hskip)
    refine ⟨(⟨haystack, needle, .TwoWay { cur with position := max b cur.position }⟩,
      .Reject searcher.position b), ?_, by lia, hbound, hbb, rfl,
      ⟨_, long_period, rfl, hready'.update _ cur.memory cur.end_ cur.memory_back,
        max_eq_left hcb, hblen, hbb, memoryOk_move hne hcb hskip hmem',
        hl.skip (hge.trans hcb) hnone'⟩, ?_⟩
    · simp only [RejectAndMatch, some_bind, hb]
    · simp only [stepsLeft]
      lia
  · obtain rfl : a = searcher.position := hstart rfl
    obtain ⟨-, hbb⟩ := occursAt_boundaries hne needle.valid haystack.valid hocc
    obtain ⟨l', rfl, hl'⟩ := hl.head le_rfl hocc (NoneFrom.refl _)
    refine ⟨(⟨haystack, needle, .TwoWay cur⟩,
      .Match searcher.position (searcher.position + needle.bytes.length)), rfl,
      le_add_right _ _, hbound, hbb, rfl, l', rfl,
      ⟨cur, long_period, rfl, hready', hcur, hcur ▸ hle', hbb, hcur ▸ hmem', hl'⟩, ?_⟩
    simp only [stepsLeft]
    lia

theorem next_match_forwardAt (h : ForwardAt haystack needle self p l) :
    ∃ r, self.next_match = some r ∧
      Searcher.MatchOk .forward haystack.bytes.length (ForwardAt haystack needle) l r := by
  obtain ⟨searcher, long_period, rfl, hready, rfl, hle, hbound, hmem, hl⟩ := id h
  obtain ⟨⟨cur, r⟩, heq, -, hready', hmem', hge, hle', hr⟩ :=
    next_spec (S := MatchOnly) needle.len_le haystack.len_le hready hle hmem
  have heq' : (if long_period = true then
        searcher.next t MatchOnly haystack.bytes needle.bytes true
      else searcher.next t MatchOnly haystack.bytes needle.bytes false) = some (cur, r) := by
    rw [← heq]
    cases long_period <;> rfl
  simp only [next_match]
  rw [is_long_eq hmem, heq']
  simp only at hready' hmem' hge hle' hr
  rcases hr with ⟨rfl, hnone, hmoved⟩ | ⟨a, rfl, hcur, ha, hocc, hnone, -⟩
  · have hcur : cur.position = haystack.bytes.length := hmoved.resolve_right fun h => nomatch h.1
    rw [hcur] at hnone hmem'
    exact ⟨(⟨haystack, needle, .TwoWay cur⟩, none), rfl, hl.eq_nil hnone hne, cur, long_period, rfl,
      hready', hcur, le_rfl, is_char_boundary_length, hmem',
      (hl.eq_nil hnone hne) ▸ hl.skip hle hnone⟩
  · obtain ⟨-, hbb⟩ := occursAt_boundaries hne needle.valid haystack.valid hocc
    obtain ⟨l', rfl, hl'⟩ := hl.head ha hocc hnone
    exact ⟨(⟨haystack, needle, .TwoWay cur⟩, some (a, a + needle.bytes.length)), rfl, l', rfl,
      cur, long_period, rfl, hready', hcur, hcur ▸ hle', hbb, hcur ▸ hmem', hl'⟩

/-- **Searching forwards for a non-empty string.** -/
theorem forward_spec :
    (from_ t .forward).Spec (is_char_boundary haystack.bytes) haystack.bytes.length
      (stepsLeft .forward) (ForwardAt haystack needle) where
  next h := next_forwardAt hne h
  next_match h := next_match_forwardAt hne h

omit hne

/-! ## Backwards -/

/-- The searcher stands at `p`, with the rightmost occurrences `l` ahead of it. -/
def BackwardAt (haystack needle : Str t) (self : StrSearcher t) (p : ℕ) (l : List (ℕ × ℕ)) : Prop :=
  ∃ searcher long_period, self = ⟨haystack, needle, .TwoWay searcher⟩ ∧
    Ready needle.bytes long_period searcher ∧ searcher.end_ = p ∧
    p ≤ haystack.bytes.length ∧ is_char_boundary haystack.bytes p = true ∧
    (searcher.memory == t.usizeMax) = long_period ∧
    MemoryBackOk t needle.bytes haystack.bytes long_period p searcher.memory_back ∧
    Rightmost needle.bytes haystack.bytes p l

/-- No occurrence ends where no char does. -/
theorem noneEnding_of_boundary (needle : Str t) (hne : needle.bytes ≠ []) {a b : ℕ}
    (h : ∀ j, a < j → j ≤ b → ¬ is_char_boundary haystack.bytes j = true) :
    NoneEnding needle.bytes haystack.bytes a b := fun _ hj hle hocc =>
  h _ hj hle (occursAt_boundaries hne needle.valid haystack.valid hocc).2

include hne

/-- **Moving to the boundary before keeps the memory**: what is remembered begins with a char, so
it ends with one. -/
theorem memoryBackOk_move {a a' memory_back : ℕ} (haa : a' ≤ a) (ha : a ≤ haystack.bytes.length)
    (hbound : ∀ j, a' < j → j ≤ a → ¬ is_char_boundary haystack.bytes j = true)
    (h : MemoryBackOk t needle.bytes haystack.bytes long_period a memory_back) :
    MemoryBackOk t needle.bytes haystack.bytes long_period a' memory_back := by
  rcases eq_or_lt_of_le haa with rfl | hlt
  · exact h
  cases long_period with
  | true => exact h
  | false =>
    obtain ⟨hle, hper, hmem⟩ := h
    refine ⟨hle, hper, fun hfit k hk hkn => (hbound a hlt le_rfl ?_).elim⟩
    -- the needle from `memory_back` on is a string
    have hcut : is_char_boundary needle.bytes memory_back = true := by
      rcases Nat.eq_zero_or_pos memory_back with rfl | h0
      · exact is_char_boundary_zero
      have hfirst := hper 0 (by lia)
      rw [zero_add] at hfirst
      rw [is_char_boundary_iff_byte h0 (by lia), ← hfirst]
      exact needle.valid.not_tail_head hne
    obtain ⟨-, -, hdrop⟩ := (isCharBoundary_iff needle.valid).1 hcut
    have hlen : (needle.bytes.drop memory_back).length = needle.bytes.length - memory_back :=
      length_drop
    have hocc : OccursAt (needle.bytes.drop memory_back) haystack.bytes
        (a - needle.bytes.length + memory_back) := by
      refine ⟨by lia, fun i hi => ?_⟩
      rw [word_drop, hmem (by lia) (memory_back + i) (by lia) (by lia), add_assoc]
    have hend := (occursAt_boundaries (ne_nil_of_length_pos (by lia)) hdrop haystack.valid
      hocc).2
    rwa [show a - needle.bytes.length + memory_back + (needle.bytes.drop memory_back).length = a by
      lia] at hend

/-- A call from the back yields the last step of the rest. -/
theorem next_backwardAt (h : BackwardAt haystack needle self p l) :
    ∃ r, self.next_back = some r ∧
      Searcher.StepOk .backward (is_char_boundary haystack.bytes) haystack.bytes.length
        (stepsLeft .backward) (BackwardAt haystack needle) self p l r := by
  obtain ⟨searcher, long_period, rfl, hready, rfl, hle, hbound, hlong, hmem, hl⟩ := id h
  have hpos := length_pos_iff.2 hne
  simp only [next_back]
  by_cases hend : searcher.end_ = 0
  · rw [if_pos hend]
    refine ⟨_, rfl, hl.eq_nil ?_ hne, hend, h⟩
    rw [hend]
    exact NoneEnding.refl _
  rw [if_neg hend, hlong]
  obtain ⟨⟨cur, step⟩, heq, hsame, hready', hmem', hle', hstep⟩ :=
    next_back_spec (S := RejectAndMatch) needle.len_le haystack.len_le hready hle hmem
  rw [heq]
  simp only at hsame hready' hmem' hle' hstep
  have hlong' : (cur.memory == t.usizeMax) = long_period := by
    rw [← hlong, hsame]
  rcases hstep with ⟨rfl, hnone, hmoved⟩ | ⟨rfl, hcur, hocc, -, hstart⟩
  · have hlt : cur.end_ < searcher.end_ := by
      rcases hmoved with h | h
      · lia
      · exact h.2
    obtain ⟨a, ha, hac, hab, hskip⟩ :=
      boundaryTo_spec haystack (hle'.trans hle)
    have hnone' := (noneEnding_of_boundary needle hne hskip).append hnone
    refine ⟨(⟨haystack, needle, .TwoWay { cur with end_ := min a cur.end_ }⟩,
      .Reject a searcher.end_), ?_, by lia, hab, hbound, rfl,
      ⟨_, long_period, rfl, hready'.update cur.position cur.memory _ cur.memory_back,
        min_eq_left hac, hac.trans (hle'.trans hle), hab, hlong',
        memoryBackOk_move hne hac (hle'.trans hle) hskip hmem',
        hl.skip (hac.trans hle') hnone'⟩, ?_⟩
    · simp only [RejectAndMatch, some_bind, ha]
    · simp only [stepsLeft]
      lia
  · have hcut : cur.end_ + needle.bytes.length = searcher.end_ := hstart rfl
    obtain ⟨hab, hbb⟩ := occursAt_boundaries hne needle.valid haystack.valid hocc
    obtain ⟨l', rfl, hl'⟩ := hl.head hcur hocc (hcut ▸ NoneEnding.refl _)
    refine ⟨(⟨haystack, needle, .TwoWay cur⟩,
      .Match cur.end_ (cur.end_ + needle.bytes.length)), rfl,
      le_add_right _ _, hab, hbb, hcut, l', rfl,
      ⟨cur, long_period, rfl, hready', rfl, hle'.trans hle, hab, hlong', hmem', hl'⟩, ?_⟩
    simp only [stepsLeft]
    lia

theorem next_match_backwardAt (h : BackwardAt haystack needle self p l) :
    ∃ r, self.next_match_back = some r ∧
      Searcher.MatchOk .backward haystack.bytes.length (BackwardAt haystack needle) l r := by
  obtain ⟨searcher, long_period, rfl, hready, rfl, hle, hbound, hlong, hmem, hl⟩ := id h
  obtain ⟨⟨cur, r⟩, heq, hsame, hready', hmem', hle', hr⟩ :=
    next_back_spec (S := MatchOnly) needle.len_le haystack.len_le hready hle hmem
  have heq' : (if long_period = true then
        searcher.next_back t MatchOnly haystack.bytes needle.bytes true
      else searcher.next_back t MatchOnly haystack.bytes needle.bytes false) = some (cur, r) := by
    rw [← heq]
    cases long_period <;> rfl
  simp only [next_match_back]
  rw [hlong, heq']
  simp only at hsame hready' hmem' hle' hr
  have hlong' : (cur.memory == t.usizeMax) = long_period := by
    rw [← hlong, hsame]
  rcases hr with ⟨rfl, hnone, hmoved⟩ | ⟨rfl, hcur, hocc, hnone, -⟩
  · have hcur : cur.end_ = 0 := hmoved.resolve_right fun h => nomatch h.1
    rw [hcur] at hnone hmem'
    exact ⟨(⟨haystack, needle, .TwoWay cur⟩, none), rfl, hl.eq_nil hnone hne, cur, long_period, rfl,
      hready', hcur, zero_le _, is_char_boundary_zero, hlong', hmem',
      (hl.eq_nil hnone hne) ▸ hl.skip (zero_le _) hnone⟩
  · obtain ⟨hab, -⟩ := occursAt_boundaries hne needle.valid haystack.valid hocc
    obtain ⟨l', rfl, hl'⟩ := hl.head hcur hocc hnone
    exact ⟨(⟨haystack, needle, .TwoWay cur⟩, some (cur.end_, cur.end_ + needle.bytes.length)), rfl,
      l', rfl, cur, long_period, rfl, hready', rfl, hle'.trans hle, hab, hlong', hmem', hl'⟩

/-- **Searching backwards for a non-empty string.** -/
theorem backward_spec :
    (from_ t .backward).Spec (is_char_boundary haystack.bytes) haystack.bytes.length
      (stepsLeft .backward) (BackwardAt haystack needle) where
  next h := next_backwardAt hne h
  next_match h := next_match_backwardAt hne h

end RustStd.StrSearcher
