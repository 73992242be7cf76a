import RustStd.Iter.ArrayChunks
import RustStd.Iter.Chain
import RustStd.Iter.Cycle
import RustStd.Iter.Intersperse
import RustStd.Iter.Peekable
import RustStd.Iter.Ranges
import RustStd.Iter.Skip

/-!
# The adapters agree with their lists

Every run of calls of an adapter over a lawful iterator, and what ends it, is as for the list that
defines the adapter (`adapters_agree`). Three adapters answer more than an iterator of their list
does: a `Peekable` can be peeked at, an `ArrayChunks` keeps a remainder, and a `Cycle` over some
elements has no end.
-/

namespace RustStd.Iter

open DoubleEnded (End)
open Intersperse (interspersed interspersed_const)

variable {σ υ T G A B : Type} {R : σ → List T → Prop} {RB : υ → List T → Prop} {usizeMax : ℕ}
  {l l' : List T} {iter : σ} {it : DoubleEndedIterator σ T}

/-- What an adapter can rely on at the back. -/
structure Backward (usizeMax : ℕ) (R : σ → List T → Prop) (it : DoubleEndedIterator σ T) :
    Prop where
  back : it.back.Lawful usizeMax (Reversed R)
  exact : ExactSize R it.size_hint

theorem InOrder.bounded {get : σ → ℕ → Option (T × σ)} (h : InOrder R get) (k : ℕ) :
    InOrder (Bounded k R) get := by
  obtain ⟨V, hzero, hstep⟩ := h
  exact ⟨V, fun s l hs => hzero s l hs.1, hstep⟩

theorem Backward.bounded (h : Backward usizeMax R it) (k : ℕ) :
    Backward usizeMax (Bounded k R) it where
  back := by
    rw [reversed_bounded]
    exact h.back.bounded k
  exact := fun _ _ hs => h.exact hs.1

/-! ## Looking ahead -/

namespace Peekable

/-- A call that takes elements from an end, or one that looks at the next element. -/
inductive Call (T A B : Type)
  | takes (e : End) (m : Method T A B)
  | peek
  | next_if (func : T → Bool)

/-- The calls that can be made: those of the back only where the iterator has one. -/
def Call.Fits (usizeMax : ℕ) (backward : Prop) : Call T A B → Prop
  | .takes e m => m.Fits usizeMax ∧ (e = .back → backward)
  | _ => True

def Call.reply : Call T A B → List T → Answer T A B × List T
  | .takes e m, l => replyAt (e, m) l
  | .peek, l => (.item l.head?, l)
  | .next_if func, l => (.item (nextIf func l).1, (nextIf func l).2)

def call (usizeMax : ℕ) (it : DoubleEndedIterator σ T) :
    Call T A B → Peekable σ T → Option (Answer T A B × Peekable σ T)
  | .takes e m, s => ((iterator usizeMax it).sweep e).call m s
  | .peek, s => do
    let (x, s) ← peek it.toIterator s
    return (.item x, s)
  | .next_if func, s => do
    let (x, s) ← next_if it.toIterator func s
    return (.item x, s)

/-- **`Peekable`**, with its methods that look ahead. -/
theorem peeks (h : it.toIterator.Lawful usizeMax R) {qs : List (Call T A B)}
    (hqs : ∀ q ∈ qs, q.Fits usizeMax (it.back.Lawful usizeMax (Reversed R))) {s : Peekable σ T}
    (hs : Stands R s l) : Yields (Stands R) (runCalls (call usizeMax it) qs s)
      (replies Call.reply qs l).1 (replies Call.reply qs l).2 := by
  apply runCalls_spec _ hs
  intro q hq s l hs
  cases q with
  | takes e m =>
    obtain ⟨hm, hback⟩ := hqs _ hq
    cases e with
    | front => exact (iterator_lawful h).front.call hm hs
    | back =>
      obtain ⟨s', hcall, hs'⟩ := (lawful ⟨h, hback rfl⟩).back.call hm (reversed_reverse hs)
      exact ⟨s', hcall, hs'⟩
  | peek => exact (peek_spec h.front.next hs).map _
  | next_if func => exact (next_if_spec h.front.next func hs).map _

end Peekable

/-! ## What ends a run -/

section Ends

variable {turns N : ℕ} {get_unchecked : Option (σ → ℕ → Option (T × σ))}

/-- What ends a run of an `ArrayChunks` that began with the elements `whole`. `count` adds up the
elements that the inner iterator has left. The chunks `m` do not say how many these are, but there
are no more of them than in the beginning, so the bound is one on `whole`. -/
structure ArrayChunks.Finishes (usizeMax turns N : ℕ) (it : DoubleEndedIterator σ T)
    (get_unchecked : Option (σ → ℕ → Option (T × σ))) (backward : Prop) (whole : List T)
    (s : ArrayChunks σ T) (m : List (List T)) : Prop where
  size_hint : ValidHint usizeMax ((iterator usizeMax turns N it get_unchecked).size_hint s) m.length
  fold : ∀ {A : Type} (f : A → List T → A) (a : A),
    (iterator usizeMax turns N it get_unchecked).front.fold f a s = some (m.foldl f a)
  rfold : backward → ∀ {A : Type} (f : A → List T → A) (a : A),
    (iterator usizeMax turns N it get_unchecked).back.fold f a s = some (m.reverse.foldl f a)
  count : whole.length ≤ usizeMax →
    (iterator usizeMax turns N it get_unchecked).count s = some m.length
  last : (iterator usizeMax turns N it get_unchecked).last s = some m.getLast?
  into_remainder : ArrayChunks.into_remainder N it.toIterator turns s = some (leftover N whole)

variable {s : ArrayChunks σ T} {m : List (List T)}

theorem ArrayChunks.stands_of_bounded {k : ℕ} {tail : List T}
    (hs : Stands (Bounded k R) turns N tail s m) : Stands R turns N tail s m := by
  obtain ⟨l, hs, rfl⟩ := hs
  exact ⟨l, ⟨hs.iter.1, hs.turns, hs.kept⟩, rfl⟩

theorem ArrayChunks.finishes (h : it.toIterator.Lawful usizeMax R) (hN : 0 < N)
    (hget : ∀ get, get_unchecked = some get → InOrder R get ∧ ExactSize R it.size_hint)
    (hs : Stands (Bounded l.length R) turns N (leftover N l) s m) :
    Finishes usizeMax turns N it get_unchecked (Backward usizeMax R it) l s m where
  size_hint := size_hint_spec h.size_hint (stands_of_bounded hs)
  fold f a := fold_spec h hN hget f a (stands_of_bounded hs)
  rfold hback _ f a :=
    (back_lawful hback.back hback.exact hN).fold.back f a (stands_of_bounded hs)
  count hlen := by
    obtain ⟨whole, hover, rfl⟩ := hs
    exact count_spec (h.bounded l.length) hover (hover.iter.2.trans hlen)
  last := last_spec (fold_spec h hN hget) (stands_of_bounded hs)
  into_remainder := by
    obtain ⟨whole, hover, rfl⟩ := hs
    exact into_remainder_spec (h.bounded l.length).front.next hN hover

theorem ArrayChunks.runs_spec (h : it.toIterator.Lawful usizeMax R) (hN : 0 < N)
    (hget : ∀ get, get_unchecked = some get → InOrder R get ∧ ExactSize R it.size_hint)
    {qs : List (End × Method (List T) A B)}
    (hqs : ∀ q ∈ qs, q.2.Fits usizeMax ∧ (q.1 = .back → Backward usizeMax R it)) {tail : List T}
    (hs : Stands R turns N tail s m) :
    Yields (Stands R turns N tail) ((iterator usizeMax turns N it get_unchecked).run qs s)
      (replies replyAt qs m).1 (replies replyAt qs m).2 := by
  apply runCalls_spec _ hs
  intro q hq s m hs
  obtain ⟨hfits, hback⟩ := hqs q hq
  obtain ⟨e, method⟩ := q
  cases e with
  | front => exact (front_lawful h hN hget).call hfits hs
  | back =>
    obtain ⟨hback, hexact⟩ := hback rfl
    have hlawful : (iterator usizeMax turns N it get_unchecked).back.Lawful usizeMax
        (Reversed (Stands R turns N tail)) := back_lawful hback hexact hN
    obtain ⟨s', hcall, hs'⟩ := hlawful.call hfits (reversed_reverse hs)
    exact ⟨s', hcall, hs'⟩

/-- What ends a run of a `Cycle` without end: no fold of it returns. -/
structure Cycle.Endless (usizeMax : ℕ) (it : Iterator σ T) (s : Cycle σ) : Prop where
  upper : (size_hint usizeMax it s).2 = none
  lower : (size_hint usizeMax it s).1 ≤ usizeMax
  fold : ∀ (turns : ℕ) {A : Type} (f : A → T → A) (a : A),
    (iterator usizeMax turns it).front.fold f a s = none
  count : ∀ turns : ℕ, (iterator usizeMax turns it).count s = none
  last : ∀ turns : ℕ, (iterator usizeMax turns it).last s = none

theorem Cycle.endless {it : Iterator σ T} (h : it.Lawful usizeMax R) (hpos : 0 < l.length)
    {s : Cycle σ} {p : ℕ} (hs : At R l s p) : Endless usizeMax it s where
  upper := (size_hint_spec h hpos hs).1
  lower := (size_hint_spec h hpos hs).2
  fold turns _ f a := fold_diverges h.front.next hpos turns f a hs
  count turns := by
    change Provided.count usizeMax (Provided.fold (next it) turns) s = none
    rw [Provided.count, fold_diverges h.front.next hpos turns _ _ hs]
    rfl
  last turns := fold_diverges h.front.next hpos turns _ _ hs

end Ends

open ArrayChunks

/-- **The adapters** answer every run of calls as the lists that define them. -/
theorem adapters_agree (h : it.toIterator.Lawful usizeMax R) (hl : R iter l) : (∀ n ≤ usizeMax,
      (Skip.iterator usizeMax it).toIterator.Agrees (ValidHint usizeMax) usizeMax ⟨iter, n⟩
        (l.drop n) ∧
      (Backward usizeMax R it → (Skip.iterator usizeMax it).Agrees (ValidHint usizeMax) usizeMax
        ⟨iter, n⟩ (l.drop n))) ∧
    (∀ get_unchecked, (∀ get, get_unchecked = some get → InOrder R get ∧ ExactSize R it.size_hint) →
      ∀ n ≤ usizeMax,
        (Take.iterator usizeMax it get_unchecked).toIterator.Agrees (ValidHint usizeMax) usizeMax
          ⟨iter, n⟩ (l.take n) ∧
        (Backward usizeMax R it → (Take.iterator usizeMax it get_unchecked).Agrees
          (ValidHint usizeMax) usizeMax ⟨iter, n⟩ (l.take n))) ∧
    (∀ {υ : Type} {RB : υ → List T → Prop} {ib : DoubleEndedIterator υ T} {b : υ} {lb : List T},
      ib.toIterator.Lawful usizeMax RB → RB b lb →
        (Chain.iterator usizeMax it ib).toIterator.Agrees (ValidHint usizeMax) usizeMax
          (Chain.new iter b) (l ++ lb) ∧
        (it.back.Lawful usizeMax (Reversed R) → ib.back.Lawful usizeMax (Reversed RB) →
          (Chain.iterator usizeMax it ib).Agrees (ValidHint usizeMax) usizeMax
            (Chain.new iter b) (l ++ lb))) ∧
    (∀ (A B : Type) (qs : List (Peekable.Call T A B)),
      (∀ q ∈ qs, q.Fits usizeMax (it.back.Lawful usizeMax (Reversed R))) → Yields (fun s m =>
            (Peekable.iterator usizeMax it).toIterator.Finishes (ValidHint usizeMax) usizeMax s m ∧
            (it.back.Lawful usizeMax (Reversed R) →
              (Peekable.iterator usizeMax it).Finishes (ValidHint usizeMax) usizeMax s m))
          (runCalls (Peekable.call usizeMax it) qs (Peekable.new iter))
          (replies Peekable.Call.reply qs l).1 (replies Peekable.Call.reply qs l).2) ∧
    (∀ N turns get_unchecked, 0 < N → l.length < turns →
      (∀ get, get_unchecked = some get → InOrder R get ∧ ExactSize R it.size_hint) →
      ∀ (A B : Type) (qs : List (End × Method (List T) A B)),
        (∀ q ∈ qs, q.2.Fits usizeMax ∧ (q.1 = .back → Backward usizeMax R it)) →
          Yields (ArrayChunks.Finishes usizeMax turns N it get_unchecked (Backward usizeMax R it) l)
            ((iterator usizeMax turns N it get_unchecked).run qs (ArrayChunks.new iter))
            (replies replyAt qs (chunked N l)).1 (replies replyAt qs (chunked N l)).2) ∧
    (∀ (fused : Bool) (turns : ℕ), 0 < usizeMax → (∀ sep : T, (l.intersperse sep).length < turns →
        (Intersperse.iterator usizeMax turns (Fuse.iterator fused it).toIterator
            fun sep => (sep, sep)).Agrees
          (ValidHint usizeMax) usizeMax (Intersperse.new iter sep) (l.intersperse sep)) ∧
      ∀ {G : Type} (call : G → T × G) (g : G), (interspersed call g l).length < turns →
        (Intersperse.iterator usizeMax turns (Fuse.iterator fused it).toIterator call).Agrees
          (ValidHint usizeMax) usizeMax (Intersperse.new iter g) (interspersed call g l)) ∧
    ∀ turns, usizeMax < turns →
      (l = [] → (Cycle.iterator usizeMax turns it.toIterator).Agrees (ValidHint usizeMax) usizeMax
        (Cycle.new iter) []) ∧
      ∀ (hpos : 0 < l.length) (A B : Type) (ms : List (Method T A B)) (as : List (Answer T A B))
        (p : ℕ), (∀ m ∈ ms, m.Fits usizeMax) → Cycle.Replies hpos turns 0 ms as p →
          ∃ s, (Cycle.iterator usizeMax turns it.toIterator).run ms (Cycle.new iter) =
              some (as, s) ∧ Cycle.Endless usizeMax it.toIterator s := by
  refine ⟨fun n hn => ?_, fun get_unchecked hget n hn => ?_, fun hb hlb => ?_, fun A B qs hqs => ?_,
    fun N turns get_unchecked hN hturns hget A B qs hqs => ?_,
    fun fused turns husize => ?_, fun turns hturns => ⟨?_, ?_⟩⟩
  · have hs : Skip.Stands R usizeMax ⟨iter, n⟩ (l.drop n) := ⟨l, hl, rfl, hn⟩
    have hiter := Skip.iterator_lawful h
    refine ⟨hiter.agrees hiter.size_hint hs, fun hback => ?_⟩
    exact (Skip.lawful ⟨h, hback.back⟩ hback.exact).agrees hiter.size_hint hs
  · have hs : Take.Stands R usizeMax ⟨iter, n⟩ (l.take n) := ⟨l, hl, rfl, hn⟩
    have hiter := Take.iterator_lawful h hget
    refine ⟨hiter.agrees hiter.size_hint hs, fun hback => ?_⟩
    have hlawful := Take.lawful ⟨h, hback.back⟩ hback.exact fun get hsome => (hget get hsome).1
    exact hlawful.agrees hiter.size_hint hs
  · have hs : Chain.Stands R _ (Chain.new iter _) (l ++ _) := ⟨l, _, ⟨hl, hlb⟩, rfl⟩
    have hiter := Chain.iterator_lawful h hb
    refine ⟨hiter.agrees hiter.size_hint hs, fun hback hback' => ?_⟩
    exact (Chain.lawful ⟨h, hback⟩ ⟨hb, hback'⟩).agrees hiter.size_hint hs
  · have hiter := Peekable.iterator_lawful h
    apply (Peekable.peeks h hqs (.unpeeked hl)).mono
    intro s hs
    refine ⟨hiter.finishes hiter.size_hint hs, fun hback => ⟨hiter.finishes hiter.size_hint hs, ?_⟩⟩
    intro A f a
    exact (Peekable.lawful ⟨h, hback⟩).back.fold.back f a hs
  · have hs : ArrayChunks.Stands (Bounded l.length R) turns N (leftover N l) (ArrayChunks.new iter)
        (chunked N l) := ⟨l, ⟨⟨hl, Nat.le_refl _⟩, hturns, rfl⟩, rfl⟩
    have hrun := runs_spec (h.bounded l.length) hN
      (fun get hsome => (hget get hsome).imp (·.bounded _) fun hexact _ _ hs => hexact hs.1)
      (fun q hq => (hqs q hq).imp_right fun hback he => (hback he).bounded l.length) hs
    exact hrun.mono fun s hs => finishes h hN hget hs
  · have hagrees {G : Type} (call : G → T × G) (g : G)
      (hturns : (interspersed call g l).length < turns) :
        (Intersperse.iterator usizeMax turns (Fuse.iterator fused it).toIterator call).Agrees
          (ValidHint usizeMax) usizeMax (Intersperse.new iter g) (interspersed call g l) := by
      have hfuse : (Fuse.iterator fused it).toIterator.Lawful usizeMax (Fuse.Stands R) :=
        Fuse.iterator_lawful h
      have hiter : (Intersperse.iterator usizeMax turns _ call).Lawful usizeMax
          (Intersperse.Stands (Fuse.Stands R) call turns) := Intersperse.lawful husize hfuse
      exact hiter.agrees hiter.size_hint ⟨.unstarted hl, hturns⟩
    refine ⟨fun sep hlen => ?_, hagrees⟩
    rw [← interspersed_const] at hlen ⊢
    exact hagrees _ sep hlen
  · rintro rfl
    have hempty := Cycle.empty_lawful h (Nat.zero_lt_of_lt hturns)
    exact hempty.agrees hempty.size_hint ⟨rfl, hl, hl⟩
  · intro hpos A B ms as p hms hreplies
    have hs : Cycle.At R l (Cycle.new iter) 0 := ⟨hl, 0, Nat.zero_le _, rfl, hl⟩
    obtain ⟨s, hrun, hs'⟩ := Cycle.runs_spec h hturns hms hreplies hs
    exact ⟨s, hrun, Cycle.endless h hpos hs'⟩

/-- The numbers below ten: without the first eight of them, and in chunks of three. -/
theorem adapters_agree_ten :
    (Skip.iterator 65535 (Range.iterator 255 11)).Agrees (ValidHint 65535) 65535 ⟨⟨0, 10⟩, 8⟩
        [8, 9] ∧
      ∃ s, (iterator 65535 11 3 (Range.iterator 255 11) none).run
          (T := List ℕ) (A := ℕ) (B := ℕ) [(.back, .next), (.front, .nth 1), (.back, .next)]
          (ArrayChunks.new ⟨0, 10⟩) =
            some ([.item (some [6, 7, 8]), .item (some [3, 4, 5]), .item none], s) ∧
        into_remainder 3 (Range.iterator 255 11).toIterator 11 s = some [9] := by
  have hr : Range.Stands 255 11 ⟨0, 10⟩ (List.range' 0 10) :=
    ⟨by decide, by decide, rfl, by decide⟩
  have hlawful : (Range.iterator 255 11).Lawful 65535 (Range.Stands 255 11) :=
    Range.lawful (by decide)
  have hback : Backward 65535 (Range.Stands 255 11) (Range.iterator 255 11) :=
    ⟨hlawful.back, Range.size_hint_exact⟩
  obtain ⟨hskip, -, -, -, hchunks, -, -⟩ := adapters_agree hlawful.toLawful hr
  refine ⟨(hskip 8 (by decide)).2 hback, ?_⟩
  obtain ⟨s, hrun, hs⟩ := hchunks 3 11 none (by decide) (by decide) nofun ℕ ℕ
    [(.back, .next), (.front, .nth 1), (.back, .next)] (by simp [Method.Fits, hback])
  exact ⟨s, hrun, hs.into_remainder⟩

end RustStd.Iter
