import RustStd.Sync.RwLockInvariants

/-!
# Nobody is forgotten

While a thread sleeps for the read-write lock, a bit is set or a thread that is awake will see to it
(`Wakeups`), as long as there are fewer than `2 ^ 32` notifications between the load of the counter
and the sleep of a writer (`Bounded`): a counter that was read before a notification differs from
the one behind it. How many there are while the writer sleeps does not matter.
-/

namespace RustStd.Sync.RwLock

open Threads

/-! ## Places -/

def Pc.wakes_writers : Pc → Bool
  | .wake_writers _ => true
  | _ => false

def Pc.wakes_both : Pc → Bool
  | .wake_both _ => true
  | _ => false

/-- On the way to wake the readers of a free lock up, or a writer instead. -/
def Pc.wakes_readers : Pc → Bool
  | .wake_readers _ | .wake_writer _ true | .wake_writer_wake _ true => true
  | pc => pc.contending

/-- Behind the exchange that clears `READERS_WAITING`. -/
def Pc.wakes_all : Pc → Bool
  | .wake_all_readers _ | .downgrade_wake _ => true
  | _ => false

/-- Behind the exchange that clears `WRITERS_WAITING`. -/
def Pc.notifies : Pc → Bool
  | .wake_writer .. => true
  | _ => false

variable {Tid : Type} {b b' : Bits} {th th' : Thread Pc} {pc : Pc}

theorem plain_spec (h : pc.plain = true) : pc.wakes_writers = false ∧ pc.wakes_both = false ∧
    pc.wakes_readers = pc.contending ∧ pc.wakes_all = false ∧ pc.notifies = false := by
  cases pc with
  | wake_writers | wake_both | wake_readers | wake_all_readers | downgrade_wake | wake_writer
  | wake_writer_wake => cases h
  | _ => exact ⟨rfl, rfl, rfl, rfl, rfl⟩

/-! ## Steps -/

variable (h : Move b th b' th')
include h

/-- Writers that wait for a free lock. -/
theorem move_free_writers (hcount : b'.count = 0) (hwriters : b'.writers = true) :
    th'.asleep = false ∧ th'.pc.wakes_writers = true ∨
    b'.readers = true ∧ th'.asleep = false ∧ th'.pc.wakes_both = true ∨
    b.count = 0 ∧ b.writers = true ∧ th.pc.wakes_writers = false ∧
      (b.readers = true → b'.readers = true ∧ th.pc.wakes_both = false) := by
  cases h with
  | quiet h =>
    obtain ⟨hw, hb, -⟩ := plain_spec h.plain
    exact .inr (.inr ⟨hcount, hwriters, hw, fun hr => ⟨hr, hb⟩⟩)
  | mark_readers _ _ _ => exact .inr (.inr ⟨hcount, hwriters, rfl, fun _ => ⟨rfl, rfl⟩⟩)
  | read_unlock hpos h =>
    have hone : b.count = 1 := by
      have : b.count - 1 = 0 := hcount
      omega
    exact absurd ((h hone).symm.trans hwriters) nofun
  | read_unlock_writers | write_unlock_writers => exact .inl ⟨rfl, rfl⟩
  | read_unlock_both | write_unlock_both => exact .inr (.inl ⟨rfl, rfl, rfl⟩)
  | write | read | downgrade | downgrade_waiting => cases hcount
  | mark_writers h _ => exact absurd hcount h
  | downgrade_readers _ h => exact absurd (h.symm.trans hcount) nofun
  | wake_writers_both h => exact .inr (.inl ⟨by rw [h], rfl, rfl⟩)
  | wake_writers_readers h => exact absurd (h ▸ hwriters) nofun
  | wake_writers_done h => exact absurd ((h hcount).1.symm.trans hwriters) nofun
  | wake_both_done h =>
    refine .inr (.inr ⟨hcount, hwriters, rfl, fun hr => absurd (bits_mk hcount hr hwriters) h⟩)
  | write_unlock | write_unlock_readers | wake_writers | wake_both | wake_readers => cases hwriters
  | _ => exact .inr (.inr ⟨hcount, hwriters, rfl, fun hr => ⟨hr, rfl⟩⟩)

/-- Readers that wait for a free lock. -/
theorem move_free_readers (hs : Safe b th.pc) (hcount : b'.count = 0)
    (hreaders : b'.readers = true) (hwriters : b'.writers = false) :
    th'.asleep = false ∧ th'.pc.wakes_readers = true ∨
    (∃ g, th = ⟨.wake_writer_wake g true, false⟩) ∨
    b.count = 0 ∧ b.readers = true ∧ b.writers = false ∧ (th.asleep = false →
      th.pc.wakes_readers = true → th'.asleep = false ∧ th'.pc.wakes_readers = true) := by
  cases h with
  | @quiet pc pc' h =>
    obtain ⟨-, -, hr, -⟩ := plain_spec h.plain
    obtain ⟨-, -, hr', -⟩ := plain_spec h.plain'
    refine .inr (.inr ⟨hcount, hreaders, hwriters, fun _ hpc => ⟨rfl, ?_⟩⟩)
    rw [hr']
    exact h.contending (hr.symm.trans hpc)
  | mark_readers _ h _ =>
    rcases h with h | h
    · exact absurd (h.symm.trans hcount) (by decide)
    · exact absurd (h.symm.trans hwriters) nofun
  | read_unlock _ _ =>
    exact absurd (((hs.read_unlock _ rfl).2 hreaders).symm.trans hwriters) nofun
  | write | read | downgrade | downgrade_waiting => cases hcount
  | write_check _ h => exact absurd (h.symm.trans hwriters) nofun
  | write_resume | write_unlock_readers | wake_writers_readers | wake_both | wake_writer_none =>
    exact .inl ⟨rfl, rfl⟩
  | wake_readers_done h => exact absurd (bits_mk hcount hreaders hwriters) h
  | @wake_writer_wake g readers =>
    cases readers with
    | false => exact .inr (.inr ⟨hcount, hreaders, hwriters, fun _ h => absurd h nofun⟩)
    | true => exact .inr (.inl ⟨g, rfl⟩)
  | wake_writers_both h => exact absurd (h ▸ hwriters) nofun
  | wake_writers_done h => exact absurd ((h hcount).2.symm.trans hreaders) nofun
  | @wake_writer g readers =>
    refine .inr (.inr ⟨hcount, hreaders, hwriters, fun _ h => ⟨rfl, ?_⟩⟩)
    cases readers with
    | false => cases h
    | true => rfl
  | read_unlock_writers | read_unlock_both | mark_writers | write_unlock_writers
  | write_unlock_both =>
    cases hwriters
  | write_unlock | downgrade_readers | wake_writers | wake_readers => cases hreaders
  | _ => exact .inr (.inr ⟨hcount, hreaders, hwriters, fun _ h => absurd h nofun⟩)

/-- Who clears the bit of the readers wakes them up. -/
theorem move_readers (hreaders : b.readers = true) :
    b'.readers = true ∨ th'.asleep = false ∧ th'.pc.wakes_all = true := by
  cases h with
  | mark_readers | read_unlock_both | write_unlock_both | write_unlock_readers | wake_both =>
    exact .inl rfl
  | read_unlock_writers h | write_unlock h | write_unlock_writers h | wake_writers h =>
    exact absurd (h ▸ hreaders) nofun
  | downgrade_readers | wake_readers => exact .inr ⟨rfl, rfl⟩
  | _ => exact .inl hreaders

/-- Who clears the bit of the writers wakes one up. -/
theorem move_writers (hwriters : b.writers = true) :
    b'.writers = true ∨ th'.asleep = false ∧ th'.pc.notifies = true := by
  cases h with
  | read_unlock_writers | read_unlock_both | mark_writers | write_unlock_writers
  | write_unlock_both =>
    exact .inl rfl
  | write _ _ =>
    left
    exact Bool.or_eq_true_iff.mpr (.inl hwriters)
  | write_unlock h | write_unlock_readers h | wake_readers h => exact absurd (h ▸ hwriters) nofun
  | wake_writers | wake_both => exact .inr ⟨rfl, rfl⟩
  | _ => exact .inl hwriters

omit h

theorem restoring_of_notifies (h : pc.notifies = true) : pc.restoring = true := by
  cases pc with
  | wake_writer g readers => rfl
  | _ => cases h

include h

/-- Who is going to set the bit of the writers, or to wake one up, does so. -/
theorem move_restoring (hpc : th.pc.restoring = true) :
    th'.asleep = false ∧ th'.pc.restoring = true ∨ b'.writers = true ∨
      (∃ g readers, th.pc = .wake_writer_wake g readers) ∨
      ∃ g seq start, th' = ⟨.write_wait g seq start, true⟩ := by
  cases h with
  | quiet h => exact .inl ⟨rfl, h.restoring hpc⟩
  | read _ _ h _ _ => exact absurd (h.symm.trans hpc) nofun
  | write _ _ =>
    right
    left
    exact Bool.or_eq_true_iff.mpr (.inr hpc)
  | mark_writers _ _ => exact .inr (.inl rfl)
  | write_check _ h => exact .inr (.inl h)
  | write_sleep => exact .inr (.inr (.inr ⟨_, _, _, rfl⟩))
  | write_resume | wake_writer => exact .inl ⟨rfl, rfl⟩
  | wake_writer_wake | wake_writer_none => exact .inr (.inr (.inl ⟨_, _, rfl⟩))
  | _ => cases hpc

variable {g : Guards}

/-- Only a writer that saw the bit goes to sleep. -/
theorem move_waits {seq : UInt32} {start : ℕ}
    (hth : th' = ⟨.write_wait g seq start, false⟩) : b'.writers = true := by
  cases h with
  | quiet h =>
    obtain ⟨rfl, -⟩ := Thread.mk.inj hth
    cases h.plain'
  | write_check _ h => exact h
  | _ => cases hth

/-- Who falls asleep. -/
theorem move_asleep (hth : th'.asleep = true) :
    (∃ g s, th' = ⟨.read_wait g s, true⟩ ∧ b'.readers = true) ∨
      ∃ g seq start, th' = ⟨.write_wait g seq start, true⟩ ∧
        th = ⟨.write_wait g seq start, false⟩ ∧ b' = b := by
  cases h with
  | read_sleep h => exact .inl ⟨_, _, rfl, h⟩
  | write_sleep => exact .inr ⟨_, _, _, rfl, rfl, rfl⟩
  | _ => cases hth

/-! ## The counter of the notifications -/

theorem move_waiting {x : UInt32 × ℕ} (hx : th'.pc.waiting = some x) :
    th.pc.waiting = some x ∨ ∃ g, th = ⟨.write_seq g, false⟩ := by
  cases h with
  | quiet h =>
    rcases h.waiting with hnone | ⟨g, rfl⟩
    · exact absurd (hnone.symm.trans hx) nofun
    · exact .inr ⟨g, rfl⟩
  | write_check | write_sleep => exact .inl hx
  | _ => cases hx

omit h

variable {m m' : Mem}

theorem own_seq (h : Own code m ⟨.write_seq g, false⟩ m' th') :
    th'.pc = .write_check g m.writer_notify m.notified := by
  obtain ⟨-, rfl⟩ := h.rmw_eq rfl
  rfl

theorem own_notifies (h : Own code m th m' th') (hth : th.asleep = false ∧ th.pc.notifies = true) :
    m'.notified = m.notified + 1 := by
  obtain ⟨pc, asleep⟩ := th
  obtain ⟨rfl, hpc⟩ := hth
  cases pc with
  | wake_writer g readers =>
    obtain ⟨rfl, -⟩ := h.rmw_eq rfl
    rfl
  | _ => cases hpc

theorem own_sleeps {seq : UInt32} {start : ℕ} {pc' : Pc}
    (h : Own code m ⟨.write_wait g seq start, false⟩ m' ⟨pc', true⟩) :
    m' = m ∧ m.writer_notify = seq := by
  cases h with
  | sleep hcode hblocks =>
    cases hcode
    exact ⟨rfl, beq_iff_eq.mp hblocks⟩

/-- There were fewer than `2 ^ 32` notifications since a writer that is awake and about to fall
asleep has loaded the counter. -/
def Bounded (s : State Tid Mem Pc) : Prop :=
  ∀ t seq start, (s.threads t).asleep = false → (s.threads t).pc.waiting = some (seq, start) →
    s.mem.notified < start + 2 ^ 32

theorem bounded_init : Bounded (init : State Tid Mem Pc) := nofun

/-- **What the counters count.** -/
structure Counted (s : State Tid Mem Pc) : Prop where
  counter : s.mem.writer_notify = UInt32.ofNat s.mem.notified
  start : ∀ t seq start, (s.threads t).pc.waiting = some (seq, start) →
    start ≤ s.mem.notified ∧ seq = UInt32.ofNat start

theorem counted_init : Counted (init : State Tid Mem Pc) := ⟨rfl, nofun⟩

/-- A writer falls asleep only if nobody was notified since. -/
theorem start_eq {n start : ℕ} (hle : start ≤ n) (hlt : n < start + 2 ^ 32)
    (heq : UInt32.ofNat n = UInt32.ofNat start) : start = n := by
  have hmod := congrArg UInt32.toNat heq
  rw [UInt32.toNat_ofNat', UInt32.toNat_ofNat'] at hmod
  omega

section Steps

variable [DecidableEq Tid] {s s' : State Tid Mem Pc} {t u : Tid}

theorem other_waiting (h : Step code s t s') (hu : u ≠ t) {x : UInt32 × ℕ}
    (hx : (s'.threads u).pc.waiting = some x) : (s.threads u).pc.waiting = some x := by
  rcases h.others hu with heq | ⟨l, hsleeps, heq, -⟩
  · rwa [heq] at hx
  · rcases resume_cases hsleeps true with ⟨g, n, -, -, hresume⟩ | ⟨g, seq, start, -, -, hresume⟩
    · rw [heq, hresume] at hx
      cases hx
    · rw [heq, hresume] at hx
      cases hx

variable [Fintype Tid]

theorem Counted.step (hs : Counted s) (hinv : Inv s) (h : Step code s t s') : Counted s' := by
  have heffect := (own_effect h.own).notified
  have hle : s.mem.notified ≤ s'.mem.notified := by omega
  have hcounter : s'.mem.writer_notify = UInt32.ofNat s'.mem.notified := by
    rcases heffect with ⟨hn, hw⟩ | ⟨hn, hw, -⟩
    · rw [hn, hw, hs.counter]
    · rw [hn, hw, hs.counter, UInt32.ofNat_add]
      rfl
  refine ⟨hcounter, fun u seq start hx => ?_⟩
  have hold (hx : (s.threads u).pc.waiting = some (seq, start)) :
      start ≤ s'.mem.notified ∧ seq = UInt32.ofNat start :=
    ⟨(hs.start u seq start hx).1.trans hle, (hs.start u seq start hx).2⟩
  by_cases hut : u = t
  · subst hut
    rcases move_waiting (hinv.move h) hx with hx | ⟨g, hg⟩
    · exact hold hx
    · have hown := h.own
      rw [hg] at hown
      rw [own_seq hown] at hx
      obtain ⟨rfl, rfl⟩ := Prod.mk.inj (Option.some.inj hx)
      exact ⟨hle, hs.counter⟩
  · exact hold (other_waiting h hut hx)

/-! ## The invariant -/

theorem sleepsAt_state (h : th.SleepsAt code .state) : ∃ g s, th = ⟨.read_wait g s, true⟩ := by
  rcases resume_cases h true with ⟨g, s, hth, -, -⟩ | ⟨g, seq, start, -, hl, -⟩
  · exact ⟨g, s, hth⟩
  · cases hl

theorem sleepsAt_writer_notify (h : th.SleepsAt code .writer_notify) :
    ∃ g seq start, th = ⟨.write_wait g seq start, true⟩ := by
  rcases resume_cases h true with ⟨g, s, -, hl, -⟩ | ⟨g, seq, start, hth, -, -⟩
  · cases hl
  · exact ⟨g, seq, start, hth⟩

/-- **Who sleeps will be woken up**, and a free lock with waiters too. -/
structure Wakeups (s : State Tid Mem Pc) : Prop where
  readers : (∃ t, (s.threads t).SleepsAt code .state) →
    (bits s.mem.state).readers = true ∨ Awake s Pc.wakes_all
  writers : (∃ t, (s.threads t).SleepsAt code .writer_notify) →
    (bits s.mem.state).writers = true ∨ Awake s Pc.restoring
  waits : ∀ t g seq, s.threads t = ⟨.write_wait g seq s.mem.notified, false⟩ →
    (bits s.mem.state).writers = true ∨ Awake s Pc.notifies
  free_writers : (bits s.mem.state).count = 0 → (bits s.mem.state).writers = true →
    Awake s Pc.wakes_writers ∨ (bits s.mem.state).readers = true ∧ Awake s Pc.wakes_both
  free_readers : (bits s.mem.state).count = 0 → (bits s.mem.state).readers = true →
    (bits s.mem.state).writers = false → Awake s Pc.wakes_readers

omit [DecidableEq Tid] [Fintype Tid] in
theorem wakeups_init : Wakeups (init : State Tid Mem Pc) := by
  have hbits : bits (init : State Tid Mem Pc).mem.state = ⟨0, false, false⟩ :=
    show bits 0 = ⟨0, false, false⟩ by decide
  refine ⟨?_, ?_, nofun, fun _ h => ?_, fun _ h => ?_⟩
  · rintro ⟨t, h⟩
    cases h.1
  · rintro ⟨t, h⟩
    cases h.1
  · cases (congrArg Bits.writers hbits).symm.trans h
  · cases (congrArg Bits.readers hbits).symm.trans h

variable (hs : Wakeups s)
include hs

variable (hinv : Inv s)
include hinv

theorem Wakeups.free_writers_step (h : Step code s t s')
    (hcount : (bits s'.mem.state).count = 0) (hwriters : (bits s'.mem.state).writers = true) :
    Awake s' Pc.wakes_writers ∨ (bits s'.mem.state).readers = true ∧ Awake s' Pc.wakes_both := by
  rcases move_free_writers (hinv.move h) hcount hwriters with
    hw | ⟨hr, hb⟩ | ⟨hcount, hwriters, hnot, hkeep⟩
  · exact .inl ⟨t, hw⟩
  · exact .inr ⟨hr, t, hb⟩
  · rcases hs.free_writers hcount hwriters with ha | ⟨hr, ha⟩
    · exact .inl (ha.step h fun _ hpc => absurd (hnot.symm.trans hpc) nofun)
    · obtain ⟨hr', hnot'⟩ := hkeep hr
      exact .inr ⟨hr', ha.step h fun _ hpc => absurd (hnot'.symm.trans hpc) nofun⟩

theorem Wakeups.free_readers_step (h : Step code s t s')
    (hcount : (bits s'.mem.state).count = 0) (hreaders : (bits s'.mem.state).readers = true)
    (hwriters : (bits s'.mem.state).writers = false) : Awake s' Pc.wakes_readers := by
  rcases move_free_readers (hinv.move h) (hinv.safe t) hcount hreaders hwriters with
    hr | ⟨g, hg⟩ | ⟨hcount, hreaders, hwriters, hkeep⟩
  · exact ⟨t, hr⟩
  -- A writer is woken up, who locks the lock, or nobody is.
  · have hcode : code (s.threads t).pc = .wake .writer_notify fun woken =>
        if true && ! woken then .wake_readers g else .idle g := by rw [hg]; rfl
    rcases h.wake_cases (by rw [hg]) hcode with ⟨v, -, hv, heq⟩ | ⟨-, heq⟩
    · rcases resume_cases hv true with ⟨g, n, -, hl, -⟩ | ⟨g, seq, start, -, -, hresume⟩
      · cases hl
      · refine ⟨v, ?_⟩
        rw [heq, hresume]
        exact ⟨rfl, rfl⟩
    · refine ⟨t, ?_⟩
      rw [heq]
      exact ⟨rfl, rfl⟩
  · exact (hs.free_readers hcount hreaders hwriters).step h fun ha hpc => ⟨t, hkeep ha hpc⟩

theorem Wakeups.readers_step (h : Step code s t s')
    (hsleeper : ∃ u, (s'.threads u).SleepsAt code .state) :
    (bits s'.mem.state).readers = true ∨ Awake s' Pc.wakes_all := by
  obtain ⟨u, hu⟩ := hsleeper
  by_cases hut : u = t
  · subst hut
    rcases move_asleep (hinv.move h) hu.1 with ⟨g, n, -, hr⟩ | ⟨g, seq, start, heq, -⟩
    · exact .inl hr
    · obtain ⟨g', n, heq'⟩ := sleepsAt_state hu
      cases heq.symm.trans heq'
  -- Who sleeps now slept before.
  · have heq := h.other_asleep hut hu.1
    have hslept : (s.threads u).SleepsAt code .state := by rwa [← heq]
    rcases hs.readers ⟨u, hslept⟩ with hr | ha
    · exact (move_readers (hinv.move h) hr).imp_right fun ha => ⟨t, ha⟩
    refine .inr (ha.step h fun hawake hpc => ?_)
    obtain ⟨k, hcode⟩ : ∃ k, code (s.threads t).pc = .wake_all .state k := by
      cases hth : (s.threads t).pc with
      | wake_all_readers | downgrade_wake => exact ⟨_, rfl⟩
      | _ =>
        rw [hth] at hpc
        cases hpc
    have hwoken := h.wakes_all hawake hcode hslept
    have hasleep := hu.1
    rw [hwoken, hslept.resume_awake true] at hasleep
    cases hasleep

variable (hcounted : Counted s)
include hcounted

theorem Wakeups.waits_step (h : Step code s t s') {g : Guards} {seq : UInt32}
    (hu : s'.threads u = ⟨.write_wait g seq s'.mem.notified, false⟩) :
    (bits s'.mem.state).writers = true ∨ Awake s' Pc.notifies := by
  by_cases hut : u = t
  · subst hut
    exact .inl (move_waits (hinv.move h) hu)
  have hu' : s.threads u = ⟨.write_wait g seq s'.mem.notified, false⟩ := by
    rcases h.others hut with heq | ⟨l, hsleeps, heq, -⟩
    · rwa [heq] at hu
    · rcases resume_cases hsleeps true with ⟨g, n, -, -, hresume⟩ | ⟨g, seq, start, -, -, hresume⟩
      · cases (heq.trans hresume).symm.trans hu
      · cases (heq.trans hresume).symm.trans hu
  have hle := (hcounted.start u seq _ (by rw [hu']; rfl)).1
  have hsame : s'.mem.notified = s.mem.notified := by
    have := (own_effect h.own).notified
    omega
  rw [hsame] at hu'
  rcases hs.waits u g seq hu' with hw | ha
  · exact (move_writers (hinv.move h) hw).imp_right fun ha => ⟨t, ha⟩
  · refine .inr (ha.step h fun hawake hpc => ?_)
    have hone := own_notifies h.own ⟨hawake, hpc⟩
    omega

/-- A writer that falls asleep was not notified. -/
theorem Wakeups.falls_asleep
    (hbounded : Bounded s) (h : Step code s t s') {g : Guards} {seq : UInt32} {start : ℕ}
    (ht : s'.threads t = ⟨.write_wait g seq start, true⟩) :
    (bits s'.mem.state).writers = true ∨ Awake s' Pc.restoring := by
  rcases move_asleep (hinv.move h) (by rw [ht]) with
    ⟨g', n, heq, -⟩ | ⟨g', seq', start', heq, hth, hb⟩
  · cases heq.symm.trans ht
  obtain ⟨rfl, rfl, rfl⟩ := Pc.write_wait.inj (Thread.mk.inj (heq.symm.trans ht)).1
  have hown := h.own
  rw [hth, ht] at hown
  obtain ⟨hmem, hseq⟩ := own_sleeps hown
  have hwaiting : (s.threads t).pc.waiting = some (seq', start') := by rw [hth]; rfl
  obtain ⟨hle, hstart⟩ := hcounted.start t seq' start' hwaiting
  have hlt := hbounded t seq' start' (by rw [hth]) hwaiting
  have hnow : start' = s.mem.notified :=
    start_eq hle hlt (hcounted.counter.symm.trans (hseq.trans hstart))
  rw [hnow] at hth
  rw [hb]
  refine (hs.waits t g' seq' hth).imp_right fun ha => ?_
  rcases ha.step_or h with ha | ⟨-, hpc⟩
  · exact ha.mono fun _ => restoring_of_notifies
  · rw [hth] at hpc
    cases hpc

theorem Wakeups.writers_step (hbounded : Bounded s) (h : Step code s t s')
    (hsleeper : ∃ u, (s'.threads u).SleepsAt code .writer_notify) :
    (bits s'.mem.state).writers = true ∨ Awake s' Pc.restoring := by
  obtain ⟨u, hu⟩ := hsleeper
  by_cases hut : u = t
  · subst hut
    obtain ⟨g, seq, start, heq⟩ := sleepsAt_writer_notify hu
    exact hs.falls_asleep hinv hcounted hbounded h heq
  have heq := h.other_asleep hut hu.1
  have hslept : (s.threads u).SleepsAt code .writer_notify := by rwa [← heq]
  rcases hs.writers ⟨u, hslept⟩ with hw | ha
  · exact (move_writers (hinv.move h) hw).imp_right fun ha =>
      ⟨t, ha.1, restoring_of_notifies ha.2⟩
  rcases ha.step_or h with ha | ⟨hawake, hpc⟩
  · exact .inr ha
  rcases move_restoring (hinv.move h) hpc with
    ht | hw | ⟨g, readers, hg⟩ | ⟨g, seq, start, hsleeps⟩
  · exact .inr ⟨t, ht⟩
  · exact .inl hw
  -- It wakes a writer up, who is going to set the bit.
  · rcases h.wake_cases hawake (by rw [hg]; rfl) with ⟨v, -, hv, heq⟩ | ⟨hnone, -⟩
    · rcases resume_cases hv true with ⟨g, n, -, hl, -⟩ | ⟨g, seq, start, -, -, hresume⟩
      · cases hl
      · refine .inr ⟨v, ?_⟩
        rw [heq, hresume]
        exact ⟨rfl, rfl⟩
    · exact absurd hslept (hnone u)
  · exact hs.falls_asleep hinv hcounted hbounded h hsleeps

theorem Wakeups.step (hbounded : Bounded s) (h : Step code s t s') : Wakeups s' where
  readers := hs.readers_step hinv h
  writers := hs.writers_step hinv hcounted hbounded h
  waits _ _ _ := hs.waits_step hinv hcounted h
  free_writers := hs.free_writers_step hinv h
  free_readers := hs.free_readers_step hinv h

omit hcounted

omit hinv

omit hs

/-- **In every reachable state.** -/
theorem wakeups (hs : Run code Bounded init s) : Inv s ∧ Counted s ∧ Wakeups s ∧ Bounded s := by
  refine Run.inv (fun s t s' hinv hstep hok => ?_) hs
    ⟨inv_init, counted_init, wakeups_init, bounded_init⟩
  obtain ⟨hinv, hcounted, hs, hbounded⟩ := hinv
  exact ⟨hinv.step hstep, hcounted.step hinv hstep, hs.step hinv hcounted hbounded hstep, hok⟩

end Steps

end RustStd.Sync.RwLock
