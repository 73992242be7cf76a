import RustStd.Str.EmptyNeedle

/-!
# Whole searches

What a `StrSearcher` does over all its calls. `repeat_next_match`: for a non-empty needle, calling
`next_match` again and again returns the leftmost occurrences that do not overlap, and
`next_match_back` the rightmost. `steps_tile`: whatever calls were made from one end, the steps that
are left follow one another to the other end, between char boundaries, and no match is lost.
-/

namespace RustStd.StrSearcher

open Utf8 TwoWaySearcher List

variable {t : Target}

/-- What is to be found from one end of the haystack. -/
def Matches (d : Dir) (needle haystack : List UInt8) (l : List (ℕ × ℕ)) : Prop :=
  if needle = [] then
    match d with
    | .forward => l = boundaries haystack
    | .backward => l = (boundaries haystack).reverse
  else
    match d with
    | .forward => Leftmost needle haystack 0 l
    | .backward => Rightmost needle haystack haystack.length l

/-! ## A fresh searcher -/

theorem exists_new (haystack : Str t) {needle : Str t} (hne : needle.bytes ≠ []) :
    ∃ s, new haystack needle = some s ∧
      (∀ l, Leftmost needle.bytes haystack.bytes 0 l → ForwardAt haystack needle s 0 l) ∧
      ∀ l, Rightmost needle.bytes haystack.bytes haystack.bytes.length l →
        BackwardAt haystack needle s haystack.bytes.length l := by
  obtain ⟨s, long_period, hnew, hready, hpos, hend, hmem, hback⟩ :=
    new_spec hne needle.len_le haystack.bytes.length
  have hmem' : MemoryOk t needle.bytes haystack.bytes long_period 0 s.memory :=
    hmem ▸ memoryOk_init long_period 0
  have hback' : MemoryBackOk t needle.bytes haystack.bytes long_period haystack.bytes.length
      s.memory_back := hback ▸ memoryBackOk_init long_period _
  refine ⟨⟨haystack, needle, .TwoWay s⟩, ?_, fun l hl => ?_, fun l hl => ?_⟩
  · rw [new, if_neg (by rwa [List.isEmpty_iff]), hnew]
    rfl
  · exact ⟨s, long_period, rfl, hready, hpos, Nat.zero_le _, is_char_boundary_zero, hmem', hl⟩
  · exact ⟨s, long_period, rfl, hready, hend, le_rfl, is_char_boundary_length, is_long_eq hmem',
      hback', hl⟩

/-- A fresh searcher stands at either end, with all matches ahead of it. -/
theorem exists_spec (d : Dir) (haystack needle : Str t) :
    ∃ s l At, new haystack needle = some s ∧ Matches d needle.bytes haystack.bytes l ∧
      (from_ t d).Spec (is_char_boundary haystack.bytes) haystack.bytes.length (stepsLeft d) At ∧
      At s (d.start haystack.bytes.length) l := by
  unfold Matches
  by_cases hne : needle.bytes = []
  · have hnew : new haystack needle =
        some ⟨haystack, needle, .Empty ⟨0, haystack.bytes.length, true, true, false⟩⟩ := by
      rw [new, if_pos (by rwa [List.isEmpty_iff])]
    simp only [if_pos hne]
    cases d with
    | forward =>
      exact ⟨_, _, EmptyForwardAt haystack needle, hnew, rfl, empty_forward_spec, _, rfl, rfl,
        is_char_boundary_zero, boundaries_eq_from _⟩
    | backward =>
      exact ⟨_, _, EmptyBackwardAt haystack needle, hnew, rfl, empty_backward_spec, _, rfl, rfl,
        is_char_boundary_length, rfl⟩
  · obtain ⟨s, hnew, hforward, hbackward⟩ := exists_new haystack hne
    simp only [if_neg hne]
    cases d with
    | forward =>
      obtain ⟨l, hl⟩ := Leftmost.exists_leftmost haystack.bytes hne 0
      exact ⟨s, l, ForwardAt haystack needle, hnew, hl, forward_spec hne, hforward l hl⟩
    | backward =>
      obtain ⟨l, hl⟩ := Rightmost.exists_rightmost haystack.bytes hne
        haystack.bytes.length
      exact ⟨s, l, BackwardAt haystack needle, hnew, hl, backward_spec hne, hbackward l hl⟩

/-! ## All calls -/

/-- **Calling `next_match` again and again** returns the leftmost occurrences that do not overlap in
their order, and then `None`; calling `next_match_back` on a fresh searcher returns the rightmost.
No index leaves the needle or the haystack, nothing wraps around, and every call returns. -/
theorem repeat_next_match (haystack needle : Str t) (hne : needle.bytes ≠ []) :
    ∃ s, new haystack needle = some s ∧ (∃ l, Leftmost needle.bytes haystack.bytes 0 l ∧
        ∀ n, (from_ t .forward).repeatMatch n s = some ((range n).map fun i => l[i]?)) ∧
      ∃ l, Rightmost needle.bytes haystack.bytes haystack.bytes.length l ∧
        ∀ n, (from_ t .backward).repeatMatch n s = some ((range n).map fun i => l[i]?) := by
  obtain ⟨s, hnew, hforward, hbackward⟩ := exists_new haystack hne
  obtain ⟨l, hl⟩ := Leftmost.exists_leftmost haystack.bytes hne 0
  obtain ⟨r, hr⟩ := Rightmost.exists_rightmost haystack.bytes hne
    haystack.bytes.length
  exact ⟨s, hnew, ⟨l, hl, fun n => (forward_spec hne).repeatMatch n (hforward l hl)⟩,
    r, hr, fun n => (backward_spec hne).repeatMatch n (hbackward r hr)⟩

private def ababa : Str ⟨3, false⟩ :=
  ⟨[97, 98, 97, 98, 97], wellFormed_of_ascii (by decide +kernel), by decide +kernel⟩

private def aba : Str ⟨3, false⟩ :=
  ⟨[97, 98, 97], wellFormed_of_ascii (by decide +kernel), by decide +kernel⟩

/-- `aba` in `ababa`: the occurrences overlap. -/
theorem repeat_next_match_ababa : aba.bytes ≠ [] ∧ ∃ s, new ababa aba = some s ∧
      (∃ l, Leftmost aba.bytes ababa.bytes 0 l ∧
        ∀ n, (from_ _ .forward).repeatMatch n s = some ((range n).map fun i => l[i]?)) ∧
      ∃ l, Rightmost aba.bytes ababa.bytes ababa.bytes.length l ∧
        ∀ n, (from_ _ .backward).repeatMatch n s = some ((range n).map fun i => l[i]?) :=
  ⟨by decide, repeat_next_match ababa aba (by decide)⟩

example : (new ababa aba).bind ((from_ _ .forward).repeatMatch 2) = some [some (0, 3), none] := by
  decide +kernel

/-- **Whatever was called from one end**, `next` and `next_match` in any order, the steps left up to
`Done` are adjacent ranges between char boundaries, from where the last call stopped to the other
end. Their matches are those that `next_match` would return, and with the matches of the calls
before they are all there are. -/
theorem steps_tile (d : Dir) (haystack needle : Str t) :
    ∃ s l, new haystack needle = some s ∧ Matches d needle.bytes haystack.bytes l ∧
      ∀ calls : List Call, ∃ s' outs steps n, (from_ t d).runCalls calls s = some (s', outs) ∧
        (from_ t d).steps n s' = some steps ∧
        Tiles d (is_char_boundary haystack.bytes)
          (reached d haystack.bytes.length (d.start haystack.bytes.length) outs) steps
          (d.finish haystack.bytes.length) ∧
        (from_ t d).allMatches n s' = some (steps.filterMap SearchStep.match?) ∧
        outs.filterMap Outcome.match? ++ steps.filterMap SearchStep.match? = l := by
  obtain ⟨s, l, At, hnew, hl, hspec, hat⟩ := exists_spec d haystack needle
  have hdir : (from_ t d).dir = d := by cases d <;> rfl
  refine ⟨s, l, hnew, hl, fun calls => ?_⟩
  obtain ⟨s', outs, l', hruns, rfl, hat'⟩ := hspec.runCalls calls hat
  obtain ⟨steps, hsteps, htile, rfl⟩ :=
    hspec.steps (n := stepsLeft d s' + l'.length + 1) hat' (by omega)
  rw [hdir] at htile
  exact ⟨s', outs, steps, _, hruns, hsteps, htile, hspec.allMatches hat' (by omega), rfl⟩

end RustStd.StrSearcher
