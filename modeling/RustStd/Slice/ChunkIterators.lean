import Mathlib.Data.List.Range
import RustStd.Foundations.Handout
import RustStd.Slice.BackChunks

/-!
# The iterators over chunks agree with the lists

Each iterator over the windows or the chunks of a slice stands for a list of spans, and answers
every run of calls from both ends as that list does (`chunk_iterators_agree`). The chunks lie next
to each other, so that a run of a mutable form never hands out the same place twice.
-/

namespace RustStd.Slice

open DoubleEnded Iter List Nat

variable {usizeMax turns : ℕ} {σ : Type}

/-! ## The lists -/

/-- The windows of a slice. -/
def windows (v : Span) (size : ℕ) : List Span :=
  (range (v.len + 1 - size)).map fun i => ⟨v.start + i, size⟩

/-- The chunks from the front, the last of which may be short. -/
def chunks (v : Span) (size : ℕ) : List Span :=
  (range (div_ceil v.len size)).map fun i =>
    ⟨v.start + i * size, min size (v.len - i * size)⟩

/-- The whole chunks from the front. -/
def chunks_exact (v : Span) (size : ℕ) : List Span :=
  (range (v.len / size)).map fun i => ⟨v.start + i * size, size⟩

/-- The chunks from the back, the last of which may be short. -/
def rchunks (v : Span) (size : ℕ) : List Span :=
  (range (div_ceil v.len size)).map fun i =>
    ⟨v.start + (v.len - i * size - size), min size (v.len - i * size)⟩

/-- The whole chunks from the back. -/
def rchunks_exact (v : Span) (size : ℕ) : List Span :=
  (range (v.len / size)).map fun i => ⟨v.start + (v.len - i * size - size), size⟩

/-- The places of a slice. -/
def Span.places (v : Span) : List ℕ := range' v.start v.len

open Slice.Span

/-- Two slices have no place in common. -/
def Span.Apart (v w : Span) : Prop := v.start + v.len ≤ w.start ∨ w.start + w.len ≤ v.start

/-! ## Agreement -/

/-- What a run may be followed by: the methods that end it, the elements by their places, and the
remainder of the exact forms. -/
structure Serves (usizeMax : ℕ) (it : DoubleEndedIterator σ Span)
    (get_unchecked : σ → ℕ → Option Span) (Rem : σ → Prop) (s : σ) (l : List Span) : Prop where
  finishes : it.Finishes ExactHint usizeMax s l
  get_unchecked : ∀ i, i < l.length → get_unchecked s i = l[i]?
  remainder : Rem s

/-- Every run from a state is as for a list. -/
def ServesRuns (usizeMax : ℕ) (it : DoubleEndedIterator σ Span)
    (get_unchecked : σ → ℕ → Option Span) (Rem : σ → Prop) (s : σ) (l : List Span) : Prop :=
  ∀ (A B : Type) (qs : List (End × Method Span A B)), (∀ q ∈ qs, q.2.Fits usizeMax) →
    Yields (Serves usizeMax it get_unchecked Rem) (it.run qs s) (replies replyAt qs l).1
      (replies replyAt qs l).2

/-- The slices that a run hands out, and those that a `fold` after it visits, are apart from each
other. -/
def HandsOutApart (usizeMax : ℕ) (it : DoubleEndedIterator σ Span) (s : σ) : Prop :=
  ∀ (A B : Type) (qs : List (End × Method Span A B)), (∀ q ∈ qs, q.2.Fits usizeMax) →
    ∃ answers s' rest, it.run qs s = some (answers, s') ∧
      it.front.fold (fun l x => l ++ [x]) [] s' = some rest ∧
      (answers.flatMap Answer.items ++ rest).Pairwise Span.Apart

section Laws

variable {get : σ → ℕ → Option Span} {Inv : σ → Prop} {len : σ → ℕ}
  {next next_back : σ → Option (Option Span × σ)} {nth nth_back : σ → ℕ → Option (Option Span × σ)}
  {size_hint : σ → ℕ × Option ℕ} {last : σ → Option (Option Span)}
  {get_unchecked : σ → ℕ → Option Span} {Rem : σ → Prop} {s : σ} {l : List Span}

/-- What an iterator must do to serve its elements: each method, by what it does to the places of
the elements. -/
structure Laws (usizeMax turns : ℕ) (get : σ → ℕ → Option Span) (Inv : σ → Prop) (len : σ → ℕ)
    (next next_back : σ → Option (Option Span × σ))
    (nth nth_back : σ → ℕ → Option (Option Span × σ))
    (size_hint : σ → ℕ × Option ℕ) (last : σ → Option (Option Span))
    (get_unchecked : σ → ℕ → Option Span) (Rem : σ → Prop) : Prop where
  hasLength : HasLength get Inv len
  next : ∀ ⦃s⦄, Inv s → TakesFront get Inv (next s) s 0
  nth : ∀ ⦃s⦄ n, Inv s → TakesFront get Inv (nth s n) s n
  next_back : ∀ ⦃s⦄, Inv s → TakesBack get Inv len (next_back s) s 0
  nth_back : ∀ ⦃s⦄ n, Inv s → TakesBack get Inv len (nth_back s n) s n
  size_hint : ∀ ⦃s⦄, Inv s → size_hint s = (len s, some (len s))
  last : ∀ ⦃s⦄, Inv s → last s = some (get s (len s - 1))
  get_unchecked : ∀ ⦃s i⦄, Inv s → i < len s → get_unchecked s i = get s i
  remainder : ∀ ⦃s⦄, Inv s → Rem s
  len_le : ∀ ⦃s⦄, Inv s → len s ≤ usizeMax ∧ len s < turns

variable (h : Laws usizeMax turns get Inv len next next_back nth nth_back size_hint last
  get_unchecked Rem)
include h

theorem Laws.exactSize : ExactSize (Indexed get Inv) size_hint := by
  intro s l hs
  rw [h.size_hint hs.inv, hs.length h.hasLength]

theorem Laws.lawful :
    (Provided.iterator turns next next_back nth nth_back size_hint (Provided.len size_hint)
      last).Lawful usizeMax (Indexed get Inv) := by
  apply provided_lawful
  · exact indexed_next h.next
  · exact indexed_nth h.nth
  · exact indexed_next_back h.hasLength h.next_back
  · exact indexed_nth_back h.hasLength h.nth_back
  · intro s l hs
    refine exactHint_valid (h.exactSize hs) ?_
    rw [hs.length h.hasLength]
    exact (h.len_le hs.inv).1
  · intro s l hs _
    exact len_spec h.exactSize hs
  · intro s l hs
    rw [h.last hs.inv, hs.getLast? h.hasLength]
  · intro s l hs
    rw [hs.length h.hasLength]
    exact (h.len_le hs.inv).2

theorem Laws.serves (hs : Indexed get Inv s l) :
    ServesRuns usizeMax (Provided.iterator turns next next_back nth nth_back size_hint
      (Provided.len size_hint) last) get_unchecked Rem s l := by
  intro A B qs hqs
  apply (h.lawful.run hqs hs).mono
  intro s' hs'
  refine ⟨⟨h.lawful.toLawful.finishes h.exactSize hs', fun f a => h.lawful.back.fold f a ?_⟩,
    fun i hi => ?_, h.remainder hs'.inv⟩
  · rwa [Reversed, reverse_reverse]
  · rw [hs'.length h.hasLength] at hi
    rw [h.get_unchecked hs'.inv hi, hs'.get]

end Laws

theorem foldl_concat (l m : List Span) : l.foldl (fun l x => l ++ [x]) m = m ++ l := by
  induction l generalizing m with
  | nil => exact (append_nil m).symm
  | cons x l ih => rw [foldl_cons, ih, append_assoc, singleton_append]

theorem Span.Apart.symm {v w : Span} (h : v.Apart w) : w.Apart v := Or.symm h

/-- An iterator over slices that are apart hands each place out once. -/
theorem ServesRuns.handsOutApart {it : DoubleEndedIterator σ Span}
    {get_unchecked : σ → ℕ → Option Span} {Rem : σ → Prop} {s : σ} {l : List Span}
    (h : ServesRuns usizeMax it get_unchecked Rem s l) (hl : l.Pairwise Span.Apart) :
    HandsOutApart usizeMax it s := by
  intro A B qs hqs
  obtain ⟨s', hrun, hs'⟩ := h A B qs hqs
  refine ⟨_, s', _, hrun, hs'.finishes.fold _ _, ?_⟩
  rw [foldl_concat, nil_append]
  exact pairwise_replies (fun _ _ => Span.Apart.symm) hl qs

/-! ## Each iterator -/

variable {rem slice : Span} {size : ℕ}

namespace Windows

theorem laws : Laws usizeMax turns get (Valid usizeMax turns) length next next_back nth nth_back
    size_hint last get_unchecked fun _ => True where
  hasLength := hasLength
  next _ := next_takes
  nth _ n hs := nth_takes hs n
  next_back _ hs := nth_back_takes hs 0
  nth_back _ n hs := nth_back_takes hs n
  size_hint _ _ := size_hint_eq
  last _ _ := last_eq
  get_unchecked _ _ _ h := get_unchecked_eq h
  remainder _ _ := trivial
  len_le s hs := by
    have hpos := hs.size
    have hle := hs.len_le
    have hturns := hs.turns
    rw [length]
    omega

theorem indexed (hsize : 0 < size) (hlen : slice.len ≤ usizeMax) (hturns : slice.len < turns) :
    Indexed get (Valid usizeMax turns) ⟨slice, size⟩ (windows slice size) := by
  refine indexed_of_range hasLength ⟨hsize, hlen, hturns⟩ _ fun i hi => if_pos ?_
  rw [length] at hi
  omega

end Windows

namespace Chunks

theorem Valid.length_fits {s : Chunks} (hs : Valid usizeMax turns s) :
    length s ≤ usizeMax ∧ length s < turns :=
  ⟨hs.length_le.trans hs.len_le, lt_of_le_of_lt hs.length_le hs.turns⟩

theorem laws : Laws usizeMax turns get (Valid usizeMax turns) length next next_back (nth usizeMax)
    (nth_back usizeMax) size_hint (last usizeMax) (get_unchecked usizeMax) fun _ => True where
  hasLength := hasLength
  next _ := next_takes
  nth _ n hs := nth_takes hs n
  next_back _ := next_back_takes
  nth_back _ n hs := nth_back_takes hs n
  size_hint _ := size_hint_eq
  last _ := last_eq
  get_unchecked _ _ h := get_unchecked_eq h
  remainder _ _ := trivial
  len_le _ hs := hs.length_fits

theorem mut_laws : Laws usizeMax turns get (Valid usizeMax turns) length next next_back
    (ChunksMut.nth usizeMax) (ChunksMut.nth_back usizeMax) size_hint (last usizeMax)
    (get_unchecked usizeMax) fun _ => True :=
  { laws with
    nth := fun _ n hs => ChunksMut.nth_takes hs n
    nth_back := fun _ n hs => ChunksMut.nth_back_takes hs n }

theorem indexed (hsize : 0 < size) (hlen : slice.len ≤ usizeMax) (hturns : slice.len < turns) :
    Indexed get (Valid usizeMax turns) ⟨slice, size⟩ (chunks slice size) := by
  have hs : Valid usizeMax turns ⟨slice, size⟩ := ⟨hsize, hlen, hturns⟩
  exact indexed_of_range hasLength hs _ fun i hi => if_pos (hs.lt_length.mp hi)

end Chunks

namespace RChunks

theorem laws : Laws usizeMax turns get (Chunks.Valid usizeMax turns) Chunks.length next next_back
    (nth usizeMax) (nth_back usizeMax) Chunks.size_hint last (get_unchecked usizeMax)
    fun _ => True where
  hasLength := hasLength
  next _ := next_takes
  nth _ n hs := nth_takes hs n
  next_back _ := next_back_takes
  nth_back _ n hs := nth_back_takes hs n
  size_hint _ := Chunks.size_hint_eq
  last _ := last_eq
  get_unchecked _ _ h := get_unchecked_eq h
  remainder _ _ := trivial
  len_le _ hs := hs.length_fits

theorem mut_laws : Laws usizeMax turns get (Chunks.Valid usizeMax turns) Chunks.length next
    next_back (RChunksMut.nth usizeMax) (RChunksMut.nth_back usizeMax) Chunks.size_hint last
    (get_unchecked usizeMax) fun _ => True :=
  { laws with
    nth := fun _ n hs => RChunksMut.nth_takes hs n
    nth_back := fun _ n hs => RChunksMut.nth_back_takes hs n }

theorem indexed (hsize : 0 < size) (hlen : slice.len ≤ usizeMax) (hturns : slice.len < turns) :
    Indexed get (Chunks.Valid usizeMax turns) ⟨slice, size⟩ (rchunks slice size) := by
  have hs : Chunks.Valid usizeMax turns ⟨slice, size⟩ := ⟨hsize, hlen, hturns⟩
  exact indexed_of_range hasLength hs _ fun i hi => if_pos (hs.lt_length.mp hi)

end RChunks

namespace ChunksExact

theorem laws : Laws usizeMax turns get (Valid usizeMax turns rem) length next next_back
    (nth usizeMax) (nth_back usizeMax) size_hint last (get_unchecked usizeMax)
    fun s => s.remainder = rem where
  hasLength := hasLength
  next _ := next_takes
  nth _ n hs := nth_takes hs n
  next_back _ := next_back_takes
  nth_back _ n hs := nth_back_takes hs n
  size_hint _ := size_hint_eq
  last _ := last_eq
  get_unchecked _ _ h := get_unchecked_eq h
  remainder _ hs := hs.remainder
  len_le _ hs := hs.chunks.length_fits

theorem mut_laws : Laws usizeMax turns get (Valid usizeMax turns rem) length next next_back
    (ChunksExactMut.nth usizeMax) (ChunksExactMut.nth_back usizeMax) size_hint last
    (get_unchecked usizeMax) fun s => s.remainder = rem :=
  { laws with
    nth := fun _ n hs => ChunksExactMut.nth_takes hs n
    nth_back := fun _ n hs => ChunksExactMut.nth_back_takes hs n }

/-- What `chunks_exact` leaves out. -/
theorem new_eq (hsize : 0 < size) : new slice size =
    some ⟨⟨slice.start, slice.len - slice.len % size⟩,
      ⟨slice.start + (slice.len - slice.len % size), slice.len % size⟩, size⟩ := by
  have hle := mod_le slice.len size
  rw [new, if_neg (by omega)]
  dsimp only
  rw [checkedSub_eq hle]
  simp only [some_bind]
  rw [split_at_eq (sub_le _ _), Nat.sub_sub_self hle]
  rfl

/-- The slice of an exact form is what the remainder leaves. -/
theorem valid_whole (rem : Span) (start : ℕ) {n : ℕ} (hsize : 0 < size)
    (hlen : n ≤ usizeMax) (hturns : n < turns) :
    Valid usizeMax turns rem ⟨⟨start, n - n % size⟩, rem, size⟩ where
  chunks := ⟨hsize, (sub_le _ _).trans hlen, lt_of_le_of_lt (sub_le _ _) hturns⟩
  whole := dvd_sub_mod n
  remainder := rfl

theorem length_whole {start n : ℕ}
    (hs : Valid usizeMax turns rem ⟨⟨start, n - n % size⟩, rem, size⟩) :
    length ⟨⟨start, n - n % size⟩, rem, size⟩ = n / size := by
  rw [← hs.length_eq]
  exact (div_eq_sub_mod_div).symm

theorem indexed (hsize : 0 < size) (hlen : slice.len ≤ usizeMax) (hturns : slice.len < turns) :
    Indexed get (Valid usizeMax turns rem) ⟨⟨slice.start, slice.len - slice.len % size⟩, rem, size⟩
      (chunks_exact slice size) := by
  have hs := valid_whole rem slice.start hsize hlen hturns
  rw [chunks_exact, ← length_whole hs]
  exact indexed_of_range hasLength hs _ fun i hi => hs.get_eq (hs.lt_length.mp hi)

end ChunksExact

open ChunksExact

namespace RChunksExact

theorem laws : Laws usizeMax turns get (ChunksExact.Valid usizeMax turns rem) ChunksExact.length
    next next_back (nth usizeMax) (nth_back usizeMax) size_hint last
    (get_unchecked usizeMax) fun s => s.remainder = rem where
  hasLength := hasLength
  next _ := next_takes
  nth _ n hs := nth_takes hs n
  next_back _ := next_back_takes
  nth_back _ n hs := nth_back_takes hs n
  size_hint _ := size_hint_eq
  last _ := last_eq
  get_unchecked _ _ h := get_unchecked_eq h
  remainder _ hs := hs.remainder
  len_le _ hs := hs.chunks.length_fits

theorem mut_laws : Laws usizeMax turns get (ChunksExact.Valid usizeMax turns rem)
    ChunksExact.length next next_back (RChunksExactMut.nth usizeMax)
    (RChunksExactMut.nth_back usizeMax) size_hint last (get_unchecked usizeMax)
    fun s => s.remainder = rem :=
  { laws with
    nth := fun _ n hs => RChunksExactMut.nth_takes hs n
    nth_back := fun _ n hs => RChunksExactMut.nth_back_takes hs n }

/-- What `rchunks_exact` leaves out. -/
theorem new_eq (hsize : 0 < size) : new slice size =
    some ⟨⟨slice.start + slice.len % size, slice.len - slice.len % size⟩,
      ⟨slice.start, slice.len % size⟩, size⟩ := by
  rw [new, if_neg (by omega)]
  dsimp only
  rw [split_at_eq (mod_le _ _)]
  rfl

theorem indexed (hsize : 0 < size) (hlen : slice.len ≤ usizeMax) (hturns : slice.len < turns) :
    Indexed get (ChunksExact.Valid usizeMax turns rem)
      ⟨⟨slice.start + slice.len % size, slice.len - slice.len % size⟩, rem, size⟩
      (rchunks_exact slice size) := by
  have hs := valid_whole rem (slice.start + slice.len % size) hsize hlen hturns
  have hle := mod_le slice.len size
  rw [rchunks_exact, ← length_whole hs]
  refine indexed_of_range hasLength hs _ fun i hi => ?_
  have hplace := hs.lt_length.mp hi
  have hchunk := hs.whole_chunk hplace
  rw [get_eq hs hplace]
  dsimp only at hplace hchunk ⊢
  congr 2
  omega

end RChunksExact

/-! ## Chunks lie next to each other -/

theorem pairwise_apart {n : ℕ} {f : ℕ → Span} (h : ∀ i j, i < j → j < n → (f j).Apart (f i)) :
    ((range n).map f).Pairwise Span.Apart := by
  rw [pairwise_map]
  apply List.Pairwise.imp_of_mem _ pairwise_lt_range
  intro i j hi hj hlt
  exact (h i j hlt (mem_range.mp hj)).symm

/-- What lies before place `j` lies before chunk `j`. -/
theorem chunk_before {i j : ℕ} (size : ℕ) (h : i < j) : i * size + size ≤ j * size := by
  rw [← succ_mul]
  exact mul_le_mul_right size h

theorem chunks_apart (slice : Span) (size : ℕ) : (chunks slice size).Pairwise Span.Apart := by
  apply pairwise_apart
  intro i j hij _
  have := chunk_before size hij
  exact .inr (by dsimp only; omega)

theorem rchunks_apart (slice : Span) (size : ℕ) : (rchunks slice size).Pairwise Span.Apart := by
  apply pairwise_apart
  intro i j hij _
  have := chunk_before size hij
  exact .inl (by dsimp only; omega)

/-- The first chunks cover the slice from the front on. -/
theorem flatMap_front (start len size n : ℕ) :
    (range n).flatMap (fun i => range' (start + i * size) (min size (len - i * size))) =
      range' start (min (n * size) len) := by
  induction n with
  | zero => rw [Nat.zero_mul, Nat.zero_min]; rfl
  | succ n ih =>
    rw [range_succ, flatMap_append, ih, flatMap_singleton, succ_mul]
    obtain hle | hlt := lt_or_ge len (n * size)
    · rw [show len - n * size = 0 by omega, Nat.min_zero, range'_zero, append_nil,
        show min (n * size) len = min (n * size + size) len by omega]
    · rw [min_eq_left hlt, range'_append_1,
        show n * size + min size (len - n * size) = min (n * size + size) len by omega]

/-- The first chunks from the back cover the slice up to its end. -/
theorem flatMap_back (start len size n : ℕ) : (range n).reverse.flatMap (fun i =>
        range' (start + (len - i * size - size)) (min size (len - i * size))) =
      range' (start + (len - n * size)) (min (n * size) len) := by
  induction n with
  | zero => rw [Nat.zero_mul, Nat.zero_min]; rfl
  | succ n ih =>
    rw [range_succ, reverse_append, reverse_singleton, singleton_append, flatMap_cons, ih, succ_mul]
    rw [show start + (len - n * size) =
        start + (len - n * size - size) + min size (len - n * size) by omega, range'_append_1,
      Nat.sub_sub, show min size (len - n * size) + min (n * size) len =
        min (n * size + size) len by omega]

/-- The chunks cover the slice, each place once. -/
theorem chunks_places (slice : Span) (hsize : 0 < size) :
    (chunks slice size).flatMap places = slice.places := by
  have hcover : slice.len ≤ div_ceil slice.len size * size :=
    Nat.le_of_not_lt (mt (lt_div_ceil hsize).mpr (Nat.lt_irrefl _))
  rw [chunks, flatMap_map]
  exact (flatMap_front slice.start slice.len size _).trans (by rw [min_eq_right hcover]; rfl)

theorem rchunks_places (slice : Span) (hsize : 0 < size) :
    (rchunks slice size).reverse.flatMap places = slice.places := by
  have hcover : slice.len ≤ div_ceil slice.len size * size :=
    Nat.le_of_not_lt (mt (lt_div_ceil hsize).mpr (Nat.lt_irrefl _))
  rw [rchunks, ← map_reverse, flatMap_map]
  refine (flatMap_back slice.start slice.len size _).trans ?_
  rw [Nat.min_eq_right hcover, Nat.sub_eq_zero_of_le hcover]
  rfl

/-- The number of whole chunks. -/
theorem div_ceil_whole {n : ℕ} (hsize : 0 < size) : div_ceil (n - n % size) size = n / size := by
  apply eq_of_forall_lt_iff
  intro i
  have hmod := div_add_mod' n size
  rw [lt_div_ceil hsize, show n - n % size = n / size * size by omega]
  exact Nat.mul_lt_mul_right hsize

/-- No chunk of a number of whole chunks is short. -/
theorem whole_chunk {n i : ℕ} (hi : i < n / size) : i * size + size ≤ n - n % size := by
  have hchunk := chunk_before size hi
  have hmod := div_add_mod' n size
  omega

/-- The exact chunks are the chunks of the slice without the remainder. -/
theorem chunks_exact_eq (slice : Span) (hsize : 0 < size) :
    chunks_exact slice size = chunks ⟨slice.start, slice.len - slice.len % size⟩ size := by
  rw [chunks_exact, chunks, div_ceil_whole hsize]
  apply map_congr_left
  intro i hi
  have hchunk := whole_chunk (mem_range.mp hi)
  rw [min_eq_left (by dsimp only; omega)]

theorem rchunks_exact_eq (slice : Span) (hsize : 0 < size) : rchunks_exact slice size =
      rchunks ⟨slice.start + slice.len % size, slice.len - slice.len % size⟩ size := by
  rw [rchunks_exact, rchunks, div_ceil_whole hsize]
  apply map_congr_left
  intro i hi
  have hchunk := whole_chunk (mem_range.mp hi)
  have hle := mod_le slice.len size
  rw [min_eq_left (by dsimp only; omega)]
  congr 1
  dsimp only
  omega

/-- What the whole chunks leave out is the remainder. -/
theorem chunks_exact_places (slice : Span) (hsize : 0 < size) :
    (chunks_exact slice size).flatMap places ++
      places ⟨slice.start + (slice.len - slice.len % size), slice.len % size⟩ = slice.places := by
  rw [chunks_exact_eq slice hsize, chunks_places _ hsize, places, places,
    range'_append_1, Nat.sub_add_cancel (mod_le _ _)]
  rfl

theorem rchunks_exact_places (slice : Span) (hsize : 0 < size) :
    places ⟨slice.start, slice.len % size⟩ ++
      (rchunks_exact slice size).reverse.flatMap places = slice.places := by
  rw [rchunks_exact_eq slice hsize, rchunks_places _ hsize, places, places,
    range'_append_1, Nat.add_sub_cancel' (mod_le _ _)]
  rfl

/-! ## All of them -/

/-- The shared and the mutable form of an iterator answer as a list does, and the mutable form hands
each place out once. -/
structure BothForms (usizeMax : ℕ) (shared mutable : DoubleEndedIterator σ Span)
    (get_unchecked : σ → ℕ → Option Span) (Rem : σ → Prop) (s : σ) (l : List Span) : Prop where
  shared_serves : ServesRuns usizeMax shared get_unchecked Rem s l
  mutable_serves : ServesRuns usizeMax mutable get_unchecked Rem s l
  apart : HandsOutApart usizeMax mutable s

theorem bothForms {get : σ → ℕ → Option Span} {Inv : σ → Prop} {len : σ → ℕ}
    {next next_back : σ → Option (Option Span × σ)}
    {nth nth_back nth_mut nth_back_mut : σ → ℕ → Option (Option Span × σ)}
    {size_hint : σ → ℕ × Option ℕ} {last : σ → Option (Option Span)}
    {get_unchecked : σ → ℕ → Option Span} {Rem : σ → Prop} {s : σ} {l : List Span}
    (hshared : Laws usizeMax turns get Inv len next next_back nth nth_back size_hint last
      get_unchecked Rem)
    (hmut : Laws usizeMax turns get Inv len next next_back nth_mut nth_back_mut size_hint last
      get_unchecked Rem)
    (hs : Indexed get Inv s l) (hl : l.Pairwise Span.Apart) :
    BothForms usizeMax
      (Provided.iterator turns next next_back nth nth_back size_hint (Provided.len size_hint) last)
      (Provided.iterator turns next next_back nth_mut nth_back_mut size_hint
        (Provided.len size_hint) last) get_unchecked Rem s l :=
  ⟨hshared.serves hs, hmut.serves hs, (hmut.serves hs).handsOutApart hl⟩

/-- **The iterators over windows and chunks.** Each of them can be made for a size that is not zero,
and answers every run of calls at both ends as its list of spans does: the size hint and the length
are exact, `get_unchecked` gives the span of its index, and the remainder of the exact ones does not
change. The mutable forms do the same with the shared lists, and hand out no place twice; the exact
ones and their remainder together cover the slice. -/
theorem chunk_iterators_agree (hsize : 0 < size) (hlen : slice.len ≤ usizeMax)
    (hturns : slice.len < turns) :
    (∃ s, Windows.new slice size = some s ∧
      ServesRuns usizeMax (Windows.iterator turns) Windows.get_unchecked (fun _ => True) s
        (windows slice size)) ∧
    (∃ s, Chunks.new slice size = some s ∧
      BothForms usizeMax (Chunks.iterator usizeMax turns) (ChunksMut.iterator usizeMax turns)
        (Chunks.get_unchecked usizeMax) (fun _ => True) s (chunks slice size)) ∧
    (∃ s rem, ChunksExact.new slice size = some s ∧ BothForms usizeMax (iterator usizeMax turns)
        (ChunksExactMut.iterator usizeMax turns) (get_unchecked usizeMax)
        (fun s => s.remainder = rem) s (chunks_exact slice size) ∧
      (chunks_exact slice size).flatMap places ++ rem.places = slice.places) ∧
    (∃ s, Chunks.new slice size = some s ∧
      BothForms usizeMax (RChunks.iterator usizeMax turns) (RChunksMut.iterator usizeMax turns)
        (RChunks.get_unchecked usizeMax) (fun _ => True) s (rchunks slice size)) ∧
    ∃ s rem, RChunksExact.new slice size = some s ∧
      BothForms usizeMax (RChunksExact.iterator usizeMax turns)
        (RChunksExactMut.iterator usizeMax turns) (RChunksExact.get_unchecked usizeMax)
        (fun s => s.remainder = rem) s (rchunks_exact slice size) ∧
      rem.places ++ (rchunks_exact slice size).reverse.flatMap places = slice.places := by
  refine ⟨⟨_, if_neg (by omega), ?_⟩, ⟨_, if_neg (by omega), ?_⟩, ⟨_, _, new_eq hsize,
    ?_, chunks_exact_places slice hsize⟩, ⟨_, if_neg (by omega), ?_⟩,
    ⟨_, _, RChunksExact.new_eq hsize, ?_, rchunks_exact_places slice hsize⟩⟩
  · exact Windows.laws.serves (Windows.indexed hsize hlen hturns)
  · exact bothForms Chunks.laws Chunks.mut_laws (Chunks.indexed hsize hlen hturns)
      (chunks_apart slice size)
  · apply bothForms laws mut_laws (indexed hsize hlen hturns)
    rw [chunks_exact_eq slice hsize]
    exact chunks_apart _ size
  · exact bothForms RChunks.laws RChunks.mut_laws (RChunks.indexed hsize hlen hturns)
      (rchunks_apart slice size)
  · apply bothForms RChunksExact.laws RChunksExact.mut_laws
      (RChunksExact.indexed hsize hlen hturns)
    rw [rchunks_exact_eq slice hsize]
    exact rchunks_apart _ size

/-- Seven elements in chunks of three, where an index is a byte. -/
theorem chunk_iterators_agree_seven :
    (0 < 3 ∧ 7 ≤ 255 ∧ 7 < 8) ∧ chunks ⟨0, 7⟩ 3 = [⟨0, 3⟩, ⟨3, 3⟩, ⟨6, 1⟩] ∧
      rchunks ⟨0, 7⟩ 3 = [⟨4, 3⟩, ⟨1, 3⟩, ⟨0, 1⟩] ∧
      ∃ s, Chunks.new ⟨0, 7⟩ 3 = some s ∧ HandsOutApart 255 (ChunksMut.iterator 255 8) s := by
  have hagree := @chunk_iterators_agree 255 8 ⟨0, 7⟩ 3 (by decide) (by decide) (by decide)
  obtain ⟨-, ⟨s, hnew, hboth⟩, -⟩ := hagree
  exact ⟨by decide, by decide, by decide, s, hnew, hboth.apart⟩

end RustStd.Slice
