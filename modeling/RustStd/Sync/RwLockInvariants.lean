import RustStd.Sync.RwLockMoves
import Mathlib.Algebra.Order.BigOperators.Group.Finset

/-!
# Who holds the read-write lock

The counter is the number of readers, or the mark of the one writer (`Held`), whatever the threads
do (`Held.change`). With the bit of the readers below it (`Marked`) no assertion fails (`safe`).
-/

namespace RustStd.Sync.RwLock

open Threads Nat Finset

/-! ## The guards -/

/-- **What a step does to the counter** and to the guards of its thread. -/
inductive Change (b : Bits) (g : Guards) (b' : Bits) (g' : Guards) : Prop
  | keep (hcount : b'.count = b.count) (hg : g' = g)
  | read (h : b.count < MAX_READERS) (hcount : b'.count = b.count + 1) (hg : g' = g.read)
  | read_unlock (h : 0 < g.readers) (hcount : b'.count = b.count - 1) (hg : g' = g.unread)
  | write (h : b.count = 0) (hcount : b'.count = MASK) (hg : g' = g.write)
  | write_unlock (hw : g.writer = true) (hcount : b'.count = 0) (hg : g' = g.unwrite)
  | downgrade (hw : g.writer = true) (hcount : b'.count = 1) (hg : g' = g.unwrite.read)

variable {Tid : Type} {b b' : Bits} {th th' : Thread Pc}

theorem move_change (h : Move b th b' th') (hok : th.pc.Ok) :
    Change b th.pc.guards b' th'.pc.guards := by
  cases h with
  | quiet h => exact .keep rfl h.guards
  | read _ _ _ hcount _ => exact .read hcount rfl rfl
  | read_unlock _ _ => exact .read_unlock hok rfl rfl
  | read_unlock_writers h | read_unlock_both h =>
    rw [h]
    exact .read_unlock hok rfl rfl
  | write _ hcount => exact .write hcount rfl rfl
  | write_unlock | write_unlock_writers | write_unlock_both | write_unlock_readers =>
    exact .write_unlock hok rfl rfl
  | downgrade | downgrade_waiting => exact .downgrade hok rfl rfl
  | wake_writers h | wake_both h | wake_readers h => exact .keep (by rw [h]) rfl
  | _ => exact .keep rfl rfl

section Counting

variable [Fintype Tid]

/-- **The counter**: the number of readers, or the mark of the one writer. -/
inductive Held (b : Bits) (guards : Tid → Guards) : Prop
  | readers (hcount : b.count = ∑ t, (guards t).readers) (hle : b.count ≤ MAX_READERS)
      (hwriter : ∀ t, (guards t).writer = false)
  | writer (hcount : b.count = MASK) (hreaders : ∀ t, (guards t).readers = 0) (t : Tid)
      (ht : (guards t).writer = true) (hunique : ∀ u, (guards u).writer = true → u = t)

variable {guards guards' : Tid → Guards} {t : Tid}

/-- Only `t` can make a difference. -/
theorem sum_readers (hother : ∀ u, u ≠ t → guards' u = guards u) :
    ∑ u, (guards' u).readers + (guards t).readers =
      ∑ u, (guards u).readers + (guards' t).readers := by
  classical
  have hrest : ∑ u ∈ univ.erase t, (guards' u).readers =
      ∑ u ∈ univ.erase t, (guards u).readers :=
    sum_congr rfl fun u hu => by rw [hother u (ne_of_mem_erase hu)]
  rw [← add_sum_erase _ _ (mem_univ t),
    ← add_sum_erase _ (fun u => (guards u).readers) (mem_univ t), hrest]
  omega

theorem readers_le_sum (guards : Tid → Guards) (t : Tid) :
    (guards t).readers ≤ ∑ u, (guards u).readers := by
  have hpos : ∀ u ∈ univ, 0 ≤ (guards u).readers := fun _ _ => zero_le _
  exact single_le_sum hpos (mem_univ t)

variable (hs : Held b guards)
include hs

theorem Held.count_of_reader (h : 0 < (guards t).readers) :
    0 < b.count ∧ b.count ≤ MAX_READERS := by
  cases hs with
  | readers hcount hle hwriter =>
    refine ⟨?_, hle⟩
    rw [hcount]
    exact h.trans_le (readers_le_sum guards t)
  | writer hcount hreaders => exact absurd (hreaders t) h.ne'

theorem Held.count_of_writer (h : (guards t).writer = true) : b.count = MASK := by
  cases hs with
  | readers hcount hle hwriter => exact absurd ((hwriter t).symm.trans h) nofun
  | writer hcount => exact hcount

/-- Two readers count twice. -/
theorem Held.eq_of_one (hone : b.count = 1) {u : Tid}
    (ht : 0 < (guards t).readers) (hu : 0 < (guards u).readers) : t = u := by
  classical
  cases hs with
  | readers hcount hle hwriter =>
    by_contra hne
    have hsub : ∑ v ∈ {t, u}, (guards v).readers ≤ ∑ v, (guards v).readers :=
      sum_le_sum_of_subset (subset_univ _)
    rw [sum_pair hne] at hsub
    omega
  | writer hcount => exact absurd (hcount.symm.trans hone) (by decide)

/-- **Every step keeps the counter.** -/
theorem Held.change (hother : ∀ u, u ≠ t → guards' u = guards u)
    (h : Change b (guards t) b' (guards' t)) : Held b' guards' := by
  have hsum := sum_readers hother
  have hwriters {w : Bool} (ht : (guards' t).writer = w)
      (hw : ∀ u, (guards u).writer = w) (u : Tid) : (guards' u).writer = w := by
    by_cases hut : u = t
    · rw [hut, ht]
    · rw [hother u hut, hw]
  have hnone (hunique : ∀ u, (guards u).writer = true → u = t) (ht : (guards' t).writer = false)
      (u : Tid) : (guards' u).writer = false := by
    by_cases hut : u = t
    · rw [hut, ht]
    · rw [hother u hut]
      exact Bool.eq_false_iff.mpr fun hu => hut (hunique u hu)
  cases h with
  | keep hcount hg =>
    have hsame : guards' = guards := by
      funext u
      by_cases hut : u = t
      · rw [hut, hg]
      · exact hother u hut
    rw [hsame]
    cases hs with
    | readers hc hle hw => exact .readers (hcount.trans hc) (hcount.trans_le hle) hw
    | writer hc hr u hu hunique => exact .writer (hcount.trans hc) hr u hu hunique
  | read hlt hcount hg =>
    cases hs with
    | readers hc hle hw =>
      refine .readers ?_ (by omega) (hwriters (by rw [hg]; exact hw t) hw)
      rw [hg] at hsum
      simp only [Guards.read] at hsum
      omega
    | writer hc => exact absurd (hc ▸ hlt) (by decide)
  | read_unlock hpos hcount hg =>
    obtain ⟨hpos', hle'⟩ := hs.count_of_reader hpos
    cases hs with
    | readers hc hle hw =>
      refine .readers ?_ (by omega) (hwriters (by rw [hg]; exact hw t) hw)
      rw [hg] at hsum
      simp only [Guards.unread] at hsum
      omega
    | writer hc => exact absurd (hc ▸ hle') (by decide)
  | write hzero hcount hg =>
    cases hs with
    | readers hc hle hw =>
      have hnone (u : Tid) : (guards u).readers = 0 := by
        have hle := readers_le_sum guards u
        rw [← hc, hzero] at hle
        exact le_zero.mp hle
      refine .writer hcount (fun u => ?_) t (by rw [hg]; rfl) fun u hu => ?_
      · by_cases hut : u = t
        · rw [hut, hg]
          exact hnone t
        · rw [hother u hut, hnone]
      · by_contra hut
        rw [hother u hut, hw] at hu
        cases hu
    | writer hc => exact absurd (hc.symm.trans hzero) (by decide)
  | write_unlock hw hcount hg =>
    cases hs with
    | readers _ _ hnone => exact absurd ((hnone t).symm.trans hw) nofun
    | writer hc hr u hu hunique =>
      obtain rfl := hunique t hw
      rw [hg, sum_eq_zero fun u _ => hr u, hr] at hsum
      refine .readers ?_ (hcount.trans_le (zero_le _)) (hnone hunique (by rw [hg]; rfl))
      rw [hcount]
      simpa [Guards.unwrite, hr] using hsum.symm
  | downgrade hw hcount hg =>
    cases hs with
    | readers _ _ hnone => exact absurd ((hnone t).symm.trans hw) nofun
    | writer hc hr u hu hunique =>
      obtain rfl := hunique t hw
      rw [hg, sum_eq_zero fun u _ => hr u, hr] at hsum
      refine .readers ?_ (hcount.trans_le (by decide)) (hnone hunique (by rw [hg]; rfl))
      rw [hcount]
      simpa [Guards.unwrite, Guards.read, hr] using hsum.symm

end Counting

/-! ## The others -/

/-- Who sleeps, and where it goes on. -/
theorem resume_cases {l : Loc} (h : th.SleepsAt code l) (r : Bool) :
    (∃ g s, th = ⟨.read_wait g s, true⟩ ∧ l = .state ∧
      th.resume code r = ⟨.spin_read g true 100, false⟩) ∨
    ∃ g seq start, th = ⟨.write_wait g seq start, true⟩ ∧ l = .writer_notify ∧
      th.resume code r = ⟨.spin_write g true 100, false⟩ := by
  obtain ⟨pc, asleep⟩ := th
  obtain ⟨rfl, blocks, timed, k, hcode⟩ := h
  cases pc with
  | read_wait g s =>
    obtain ⟨rfl, -⟩ := Access.wait.inj hcode
    exact .inl ⟨g, s, rfl, rfl, rfl⟩
  | write_wait g seq start =>
    obtain ⟨rfl, -⟩ := Access.wait.inj hcode
    exact .inr ⟨g, seq, start, rfl, rfl, rfl⟩
  | _ => cases hcode

section Steps

variable [DecidableEq Tid] {s s' : State Tid Mem Pc} {t u : Tid}

/-- The others go on with the guards that they have. -/
theorem other_guards (h : Step code s t s') (hu : u ≠ t) :
    (s'.threads u).pc.guards = (s.threads u).pc.guards := by
  rcases h.others hu with heq | ⟨l, hsleeps, heq, -⟩
  · rw [heq]
  · rcases resume_cases hsleeps true with ⟨g, n, hth, -, hresume⟩ | ⟨g, seq, start, hth, -, hresume⟩
    · rw [heq, hresume, hth]
      rfl
    · rw [heq, hresume, hth]
      rfl

theorem other_ok (h : Step code s t s') (hu : u ≠ t) (hok : (s.threads u).pc.Ok) :
    (s'.threads u).pc.Ok := by
  rcases h.others hu with heq | ⟨l, hsleeps, heq, -⟩
  · rwa [heq]
  · rcases resume_cases hsleeps true with ⟨g, n, -, -, hresume⟩ | ⟨g, seq, start, -, -, hresume⟩
    · rw [heq, hresume]
      trivial
    · rw [heq, hresume]
      trivial

end Steps

theorem move_ok (h : Move b th b' th') (hok : th.pc.Ok) : th'.pc.Ok := by
  cases h with
  | quiet h => exact h.ok
  | mark_readers _ _ h => exact h
  | read_sleep _ => exact hok
  | downgrade_waiting _ _ => exact succ_pos _
  | _ => trivial

/-! ## The bit of the readers -/

/-- Between the two accesses of `downgrade`. -/
def Pc.downgrading : Pc → Bool
  | .downgrade_readers _ => true
  | _ => false

theorem downgrading_iff {pc : Pc} : pc.downgrading = true ↔ ∃ g, pc = .downgrade_readers g := by
  constructor
  · intro h
    cases pc with
    | downgrade_readers g => exact ⟨g, rfl⟩
    | _ => cases h
  · rintro ⟨g, rfl⟩
    rfl

theorem downgrading_of_plain {pc : Pc} (h : pc.plain = true) : pc.downgrading = false := by
  cases pc with
  | downgrade_readers g => cases h
  | _ => rfl

/-- **The counter and the bit of the readers.** Readers wait for readers only while writers wait
too, or a `downgrade` is about to wake them up. -/
structure Inv [Fintype Tid] (s : State Tid Mem Pc) : Prop where
  lt : s.mem.state < 2 ^ 32
  ok : ∀ t, (s.threads t).pc.Ok
  held : Held (bits s.mem.state) fun t => (s.threads t).pc.guards
  downgrading : ∀ t g, (s.threads t).pc = .downgrade_readers g →
    (bits s.mem.state).readers = true ∧ (bits s.mem.state).count = 1
  marked : (bits s.mem.state).readers = true → 0 < (bits s.mem.state).count →
    (bits s.mem.state).count ≠ MASK → (bits s.mem.state).writers = true ∨ Awake s Pc.downgrading

theorem move_downgrading (h : Move b th b' th') (hok : th.pc.Ok) (hreaders : b.readers = true)
    (hone : b.count = 1) (hnone : ¬ 0 < th.pc.guards.readers) :
    b'.readers = true ∧ b'.count = 1 := by
  cases h with
  | read _ _ _ _ h | mark_readers h | downgrade _ h => exact absurd (h.symm.trans hreaders) nofun
  | read_unlock | read_unlock_writers | read_unlock_both | downgrade_readers =>
    exact absurd hok hnone
  | write _ h => exact absurd (h.symm.trans hone) nofun
  | write_unlock h | write_unlock_writers h | write_unlock_both h | write_unlock_readers h =>
    exact absurd (h ▸ hone) (by decide)
  | downgrade_waiting _ _ => exact ⟨hreaders, rfl⟩
  | wake_writers h | wake_both h | wake_readers h => exact absurd (h ▸ hone) nofun
  | _ => exact ⟨hreaders, hone⟩

/-- A `downgrade` begins to wake the readers up. -/
theorem move_downgrades (h : Move b th b' th') {g : Guards} (hpc : th'.pc = .downgrade_readers g) :
    b'.readers = true ∧ b'.count = 1 := by
  cases h with
  | downgrade_waiting _ h => exact ⟨h, rfl⟩
  | quiet h =>
    obtain rfl := hpc
    cases h.plain'
  | _ => cases hpc

/-- Readers that begin to wait, or go on waiting, behind a reader. -/
theorem move_marked (h : Move b th b' th') (hs : Safe b th.pc) (hreaders : b'.readers = true)
    (hpos : 0 < b'.count) (hne : b'.count ≠ MASK) :
    b'.writers = true ∨ th'.asleep = false ∧ th'.pc.downgrading = true ∨
      b.readers = true ∧ 0 < b.count ∧ b.count ≠ MASK ∧ b'.writers = b.writers ∧
        th.pc.downgrading = false := by
  cases h with
  | quiet h =>
    exact .inr (.inr ⟨hreaders, hpos, hne, rfl, downgrading_of_plain h.plain⟩)
  | read _ _ _ _ h | downgrade _ h => exact absurd (h.symm.trans hreaders) nofun
  | mark_readers _ h => exact .inl (h.resolve_left hne)
  | read_unlock _ _ => exact .inl ((hs.read_unlock _ rfl).2 hreaders)
  | read_unlock_writers | read_unlock_both | mark_writers | write_unlock_both => exact .inl rfl
  | write _ _ => exact absurd rfl hne
  | write_unlock | write_unlock_writers | downgrade_readers | wake_writers | wake_readers =>
    cases hreaders
  | write_unlock_readers | wake_both => exact absurd hpos (lt_irrefl 0)
  | downgrade_waiting _ _ => exact .inr (.inl ⟨rfl, rfl⟩)
  | _ => exact .inr (.inr ⟨hreaders, hpos, hne, rfl, rfl⟩)

section Marked

variable [Fintype Tid] {s s' : State Tid Mem Pc} {t u : Tid}

theorem inv_init : Inv (init : State Tid Mem Pc) := by
  refine ⟨Nat.two_pow_pos 32, fun _ => trivial, .readers ?_ (Nat.zero_le _) fun _ => rfl, nofun,
    nofun⟩
  exact (sum_eq_zero fun _ _ => rfl).symm

/-- **No assertion fails**, and nothing overflows. -/
theorem Inv.safe (hs : Inv s) (t : Tid) : Safe (bits s.mem.state) (s.threads t).pc := by
  have hok := hs.ok t
  refine ⟨hok, fun g hpc => ?_, fun g hpc => ?_, fun g hpc => ?_, fun g hpc => ?_⟩
  · rw [hpc] at hok
    have hreader : 0 < (s.threads t).pc.guards.readers := by rwa [hpc]
    obtain ⟨hpos, hle⟩ := hs.held.count_of_reader hreader
    refine ⟨hpos, fun hreaders => ?_⟩
    have hne : (bits s.mem.state).count ≠ MASK := fun h => absurd (h ▸ hle) (by decide)
    rcases hs.marked hreaders hpos hne with hwriters | ⟨u, -, hu⟩
    · exact hwriters
    -- The reader that is downgrading would be a second one.
    · obtain ⟨g', hu⟩ := downgrading_iff.mp hu
      have hok' := hs.ok u
      rw [hu] at hok'
      have hreader' : 0 < (s.threads u).pc.guards.readers := by rwa [hu]
      obtain rfl := hs.held.eq_of_one (hs.downgrading u g' hu).2 hreader hreader'
      cases hpc.symm.trans hu
  · rw [hpc] at hok
    exact hs.held.count_of_writer (t := t) (by rwa [hpc])
  · rw [hpc] at hok
    exact hs.held.count_of_writer (t := t) (by rwa [hpc])
  · exact hs.downgrading t g hpc

variable [DecidableEq Tid]

theorem Inv.move (hs : Inv s) (h : Step code s t s') :
    Move (bits s.mem.state) (s.threads t) (bits s'.mem.state) (s'.threads t) :=
  own_move h.own hs.lt (hs.safe t)

/-- A `downgrade` has the counter for itself until it has woken the readers up. -/
theorem Inv.downgrading_step (hs : Inv s) (h : Step code s t s') {g : Guards}
    (hu : (s'.threads u).pc = .downgrade_readers g) :
    (bits s'.mem.state).readers = true ∧ (bits s'.mem.state).count = 1 := by
  by_cases hut : u = t
  · subst hut
    exact move_downgrades (hs.move h) hu
  have hu' : (s.threads u).pc = .downgrade_readers g := by
    rcases h.others hut with heq | ⟨l, hsleeps, heq, -⟩
    · rwa [heq] at hu
    · rcases resume_cases hsleeps true with ⟨g, n, -, -, hresume⟩ | ⟨g, seq, start, -, -, hresume⟩
      · rw [heq, hresume] at hu
        cases hu
      · rw [heq, hresume] at hu
        cases hu
  obtain ⟨hreaders, hone⟩ := hs.downgrading u g hu'
  refine move_downgrading (hs.move h) (hs.ok t) hreaders hone fun hreader => hut ?_
  have hok := hs.ok u
  rw [hu'] at hok
  exact hs.held.eq_of_one hone (by rwa [hu']) hreader

theorem Inv.step (hs : Inv s) (h : Step code s t s') : Inv s' := by
  have hmove := hs.move h
  refine ⟨(own_effect h.own).lt hs.lt, fun u => ?_, ?_, fun u g => hs.downgrading_step h,
    fun hreaders hpos hne => ?_⟩
  · by_cases hut : u = t
    · subst hut
      exact move_ok hmove (hs.ok u)
    · exact other_ok h hut (hs.ok u)
  · exact hs.held.change (fun u hut => other_guards h hut) (move_change hmove (hs.ok t))
  · rcases move_marked hmove (hs.safe t) hreaders hpos hne with
      hwriters | hd | ⟨hreaders, hpos, hne, heq, hnot⟩
    · exact .inl hwriters
    · exact .inr ⟨t, hd⟩
    · rw [heq]
      refine (hs.marked hreaders hpos hne).imp_right fun ha => ha.step h fun _ hd => ?_
      exact absurd (hnot.symm.trans hd) nofun

/-- **In every reachable state.** -/
theorem inv (hs : Reachable code init s) : Inv s :=
  Run.inv (fun _ _ _ hinv hstep _ => hinv.step hstep) hs inv_init

end Marked

end RustStd.Sync.RwLock
