import RustStd.Sync.RwLockWakeups

/-!
# The read-write lock

What holds of the lock over whole runs (`rwlock`). Without a bound on the notifications a writer can
be lost (`writer_lost`): its counter wraps around while it is about to fall asleep.
-/

namespace RustStd.Sync.RwLock

open Threads Function Bool

variable {Tid : Type} {b b' : Bits} {th th' : Thread Pc} {g : Guards}

/-- Places that set or clear the bit of the readers. -/
def Pc.marks_readers : Pc → Bool
  | .read_waiting .. | .downgrade_readers _ | .wake_readers _ => true
  | _ => false

/-- Places that set or clear the bit of the writers. -/
def Pc.marks_writers : Pc → Bool
  | .write_waiting .. | .wake_writers _ | .wake_both _ => true
  | .write_contended_exchange _ others _ => others
  | _ => false

/-- **The bits** change nowhere else. -/
theorem move_marks (h : Move b th b' th') : (b'.readers ≠ b.readers → th.pc.marks_readers = true) ∧
      (b'.writers ≠ b.writers → th.pc.marks_writers = true) := by
  cases h with
  | mark_readers | downgrade_readers => exact ⟨fun _ => rfl, fun h => absurd rfl h⟩
  | read_unlock_writers h | read_unlock_both h | write_unlock h | write_unlock_writers h
  | write_unlock_both h | write_unlock_readers h =>
    rw [h]
    exact ⟨fun h => absurd rfl h, fun h => absurd rfl h⟩
  | @write pc hlocks _ =>
    refine ⟨fun h => absurd rfl h, fun h => ?_⟩
    cases pc with
    | write_contended_exchange g others s =>
      cases others with
      | false => exact absurd (Bool.or_false _) h
      | true => rfl
    | try_write_exchange | write => exact absurd (Bool.or_false _) h
    | _ => cases hlocks
  | mark_writers _ _ => exact ⟨fun h => absurd rfl h, fun _ => rfl⟩
  | wake_writers h | wake_both h =>
    rw [h]
    exact ⟨fun h => absurd rfl h, fun _ => rfl⟩
  | wake_readers h =>
    rw [h]
    exact ⟨fun _ => rfl, fun h => absurd rfl h⟩
  | _ => exact ⟨fun h => absurd rfl h, fun h => absurd rfl h⟩

/-- Only `read` panics, when there are as many readers as there can be. -/
theorem move_panicked (h : Move b th b' th') (hpc : th'.pc = .panicked g) :
    b' = b ∧ b.count = MAX_READERS ∧ th.pc.guards = g := by
  cases h with
  | quiet h =>
    refine ⟨rfl, h.panicked g hpc, ?_⟩
    obtain rfl := hpc
    exact h.guards.symm
  | _ => cases hpc

/-- Then it panics. -/
theorem read_contended_max {s : ℕ} (h : (bits s).count = MAX_READERS) (g : Guards)
    (has_slept : Bool) : read_contended g has_slept s = .panicked g := by
  have hle : ¬ (bits s).count < MAX_READERS := by omega
  have hfree : ¬ is_read_lockable s = true := fun hfree => hle (is_read_lockable_iff.mp hfree).1
  have hwoken : ¬ is_read_lockable_after_wakeup s = true := fun hwoken =>
    hle (is_read_lockable_after_wakeup_iff.mp hwoken).1
  rw [read_contended, if_neg, if_pos (has_reached_max_readers_iff.mpr h)]
  rw [or_eq_true, and_eq_true]
  rintro (⟨-, hlockable⟩ | hlockable)
  · exact hwoken hlockable
  · exact hfree hlockable

theorem own_read_max {m m' : Mem} (hmax : (bits m.state).count = MAX_READERS)
    (h : Own code m ⟨.read g, false⟩ m' th') : m' = m ∧ th' = ⟨.spin_read g false 100, false⟩ := by
  obtain ⟨hm, rfl⟩ := h.rmw_eq rfl
  have hfree : is_read_lockable m.state = false := by
    refine eq_false_iff.mpr fun hfree => ?_
    have := (is_read_lockable_iff.mp hfree).1
    omega
  rw [hfree]
  exact ⟨hm, rfl⟩

theorem own_spin_max {m m' : Mem} (hmax : (bits m.state).count = MAX_READERS)
    {has_slept : Bool} {spin : ℕ} (h : Own code m ⟨.spin_read g has_slept spin, false⟩ m' th') :
    m' = m ∧ th' = ⟨.panicked g, false⟩ := by
  obtain ⟨hm, rfl⟩ := h.rmw_eq rfl
  have hlocked : is_write_locked m.state = false := by
    refine eq_false_iff.mpr fun hlocked => ?_
    exact absurd (hmax.symm.trans (is_write_locked_iff.mp hlocked)) (by decide)
  rw [hlocked, read_contended_max hmax]
  exact ⟨hm, rfl⟩

/-! ## Runs -/

variable {s s' : State Tid Mem Pc} {t : Tid}

/-- Every thread sleeps or is between two calls. -/
def Finished (s : State Tid Mem Pc) : Prop :=
  ∀ t, (∃ l, (s.threads t).SleepsAt code l) ∨ ∃ g, s.threads t = ⟨.idle g, false⟩

theorem not_awake (h : Finished s) {p : Pc → Bool} (hp : ∀ g, p (.idle g) = false) :
    ¬ Awake s p := by
  rintro ⟨t, hawake, hpc⟩
  rcases h t with ⟨l, hasleep, -⟩ | ⟨g, hg⟩
  · exact absurd (hawake.symm.trans hasleep) nofun
  · rw [hg, hp] at hpc
    cases hpc

theorem Wakeups.free (hs : Wakeups s) (hfree : (bits s.mem.state).count = 0) (h : Finished s)
    (l : Loc) : ¬ (s.threads t).SleepsAt code l := by
  have hnone (hwaiting : (bits s.mem.state).readers = true ∨ (bits s.mem.state).writers = true) :
      False := by
    cases hw : (bits s.mem.state).writers with
    | true =>
      rcases hs.free_writers hfree hw with ha | ⟨-, ha⟩
      · exact not_awake h (fun _ => rfl) ha
      · exact not_awake h (fun _ => rfl) ha
    | false =>
      rw [hw] at hwaiting
      exact not_awake h (fun _ => rfl) (hs.free_readers hfree (hwaiting.resolve_right nofun) hw)
  intro hsleeps
  cases l with
  | state =>
    rcases hs.readers ⟨t, hsleeps⟩ with hr | ha
    · exact hnone (.inl hr)
    · exact not_awake h (fun _ => rfl) ha
  | writer_notify =>
    rcases hs.writers ⟨t, hsleeps⟩ with hw | ha
    · exact hnone (.inr hw)
    · exact not_awake h (fun _ => rfl) ha

variable [DecidableEq Tid]

/-- With `MAX_READERS` readers `read` panics. -/
theorem read_max (h : Step code s t s') (hmax : s.mem.state &&& MASK = MAX_READERS) (g : Guards) :
    (s.threads t = ⟨.read g, false⟩ → s'.mem = s.mem ∧
      s'.threads t = ⟨.spin_read g false 100, false⟩) ∧
    ∀ has_slept spin, s.threads t = ⟨.spin_read g has_slept spin, false⟩ →
      s'.mem = s.mem ∧ s'.threads t = ⟨.panicked g, false⟩ := by
  rw [and_mask] at hmax
  have hown := h.own
  constructor
  · intro ht
    rw [ht] at hown
    exact own_read_max hmax hown
  · intro has_slept spin ht
    rw [ht] at hown
    exact own_spin_max hmax hown

variable [Fintype Tid]

/-- The panic of `read` changes nothing. -/
theorem Inv.panicked (hs : Inv s) (h : Step code s t s') (hpc : (s'.threads t).pc = .panicked g) :
    s'.mem.state = s.mem.state ∧ s.mem.state &&& MASK = MAX_READERS ∧
      (s.threads t).pc.guards = g := by
  obtain ⟨hbits, hcount, hguards⟩ := move_panicked (hs.move h) hpc
  refine ⟨bits_inj ((own_effect h.own).lt hs.lt) hs.lt hbits, ?_, hguards⟩
  rw [and_mask, hcount]

/-- **The read-write lock.** A writer excludes everybody else; the low 30 bits of the state are the
number of readers or the mark of the writer, and the two bits change only where they are set and
cleared; no assertion fails; `read` panics when there are `MAX_READERS`, and changes nothing then;
and when the lock is free and no thread runs, nobody sleeps. -/
theorem rwlock (hs : Reachable code init s) :
    (∀ t, (s.threads t).pc.guards.writer = true → s.mem.state &&& MASK = WRITE_LOCKED ∧
      ∀ u, (s.threads u).pc.guards.readers = 0 ∧ ((s.threads u).pc.guards.writer = true → u = t)) ∧
    ((∀ t, (s.threads t).pc.guards.writer = false) →
      s.mem.state &&& MASK = ∑ t, (s.threads t).pc.guards.readers ∧
        s.mem.state &&& MASK ≤ MAX_READERS) ∧
    (∀ t g, (s.threads t).pc ≠ .failed g) ∧
    (∀ t s', Step code s t s' →
      (has_readers_waiting s'.mem.state ≠ has_readers_waiting s.mem.state →
        (s.threads t).pc.marks_readers = true) ∧
      (has_writers_waiting s'.mem.state ≠ has_writers_waiting s.mem.state →
        (s.threads t).pc.marks_writers = true)) ∧
    (∀ t s' g, Step code s t s' → ((s'.threads t).pc = .panicked g → s'.mem.state = s.mem.state ∧
        s.mem.state &&& MASK = MAX_READERS ∧ (s.threads t).pc.guards = g) ∧
      (s.mem.state &&& MASK = MAX_READERS → (s.threads t = ⟨.read g, false⟩ → s'.mem = s.mem ∧
          s'.threads t = ⟨.spin_read g false 100, false⟩) ∧
        ∀ has_slept spin, s.threads t = ⟨.spin_read g has_slept spin, false⟩ →
          s'.mem = s.mem ∧ s'.threads t = ⟨.panicked g, false⟩)) ∧
    (Run code Bounded init s → s.mem.state &&& MASK = 0 → Finished s →
      ∀ t l, ¬ (s.threads t).SleepsAt code l) := by
  have hinv := inv hs
  refine ⟨fun t ht => ?_, fun hnone => ?_, fun t g hpc => ?_, fun t s' h => ?_,
    fun t s' g h => ⟨hinv.panicked h, fun hmax => read_max h hmax g⟩,
    fun hrun hfree hfinished t l => ?_⟩
  · cases hinv.held with
    | readers _ _ hnone => exact absurd ((hnone t).symm.trans ht) nofun
    | writer hcount hreaders w _ hunique =>
      obtain rfl := hunique t ht
      exact ⟨(and_mask _).trans hcount, fun u => ⟨hreaders u, hunique u⟩⟩
  · rw [and_mask]
    cases hinv.held with
    | readers hcount hle _ => exact ⟨hcount, hle⟩
    | writer _ _ w hw _ => exact absurd ((hnone w).symm.trans hw) nofun
  · have hok := hinv.ok t
    rw [hpc] at hok
    exact hok
  · simp only [has_readers_waiting_eq, has_writers_waiting_eq]
    exact move_marks (hinv.move h)
  · exact (wakeups hrun).2.2.1.free ((and_mask _).symm.trans hfree) hfinished l

/-! ## A lost writer -/

/-- The state that a schedule ends in. -/
def play (s : State (Fin 3) Mem Pc) (schedule : List (Fin 3 × Choice (Fin 3))) :
    Option (State (Fin 3) Mem Pc) :=
  schedule.foldlM (fun s step => (act code s step).filter fun _ => true) s

theorem play_reachable {s s' : State (Fin 3) Mem Pc} (hs : Reachable code init s)
    (schedule : List (Fin 3 × Choice (Fin 3))) (h : play s schedule = some s') :
    Reachable code init s' :=
  Run.reachable hs (run_of_schedule h)

/-- Nothing is held. -/
def free : Guards := ⟨0, false⟩

/-- The thread 0 is about to fall asleep. -/
def waiting (m : Mem) (pc1 pc2 : Pc) : State (Fin 3) Mem Pc where
  mem := m
  threads
    | 0 => ⟨.write_wait free 0 0, false⟩
    | 1 => ⟨pc1, false⟩
    | 2 => ⟨pc2, false⟩

/-- The thread 2 locks the lock, and the others wait for it. -/
def lock : List (Fin 3 × Choice (Fin 3)) :=
  [(0, .outcome 3), (0, .outcome 1), (0, .outcome 0), (2, .outcome 3), (2, .outcome 0),
    (0, .outcome 0), (0, .outcome 0), (0, .outcome 0), (0, .outcome 0), (1, .outcome 3),
    (1, .outcome 0), (1, .outcome 0), (2, .outcome 4)]

/-- It does so again. -/
def lock_again : List (Fin 3 × Choice (Fin 3)) :=
  [(2, .outcome 3), (2, .outcome 0), (1, .outcome 0)]

/-- The thread 1 sets the bit, and the thread 2 is going to unlock the lock. -/
def mark : List (Fin 3 × Choice (Fin 3)) := [(1, .outcome 0), (2, .outcome 4)]

/-- The thread 1 locks the lock, and is going to unlock it. -/
def lock_last : List (Fin 3 × Choice (Fin 3)) := [(1, .outcome 0), (1, .outcome 4)]

theorem state_ext {s s' : State (Fin 3) Mem Pc} (hmem : s.mem = s'.mem)
    (h0 : s.threads 0 = s'.threads 0) (h1 : s.threads 1 = s'.threads 1)
    (h2 : s.threads 2 = s'.threads 2) : s = s' := by
  obtain ⟨m, threads⟩ := s
  obtain ⟨m', threads'⟩ := s'
  obtain rfl : m = m' := hmem
  obtain rfl : threads = threads' := by
    funext t
    match t with
    | 0 => exact h0
    | 1 => exact h1
    | 2 => exact h2
  rfl

theorem play_eq {s s' : State (Fin 3) Mem Pc} {schedule : List (Fin 3 × Choice (Fin 3))}
    (h : (play s schedule).map (fun s => (s.mem, s.threads 0, s.threads 1, s.threads 2)) =
      some (s'.mem, s'.threads 0, s'.threads 1, s'.threads 2)) : play s schedule = some s' := by
  obtain ⟨s'', hplay, heq⟩ := Option.map_eq_some_iff.mp h
  obtain ⟨hmem, heq⟩ := Prod.mk.inj heq
  obtain ⟨h0, heq⟩ := Prod.mk.inj heq
  obtain ⟨h1, h2⟩ := Prod.mk.inj heq
  rw [hplay, state_ext hmem h0 h1 h2]

variable {threads : Fin 3 → Thread Pc}

/-- An atomic access of a thread. -/
theorem reach_atomic {m m' : Mem} {pc pc' : Pc} {t : Fin 3}
    {outcomes : Mem → List (Mem × Pc)}
    (hs : Reachable code init ⟨m, update threads t ⟨pc, false⟩⟩)
    (hcode : code pc = .atomic outcomes) (hmem : (m', pc') ∈ outcomes m) :
    Reachable code init ⟨m', update threads t ⟨pc', false⟩⟩ := by
  have ht : update threads t ⟨pc, false⟩ t = ⟨pc, false⟩ := update_self _ _ _
  have hstep : Step code ⟨m, update threads t ⟨pc, false⟩⟩ t
      ⟨m', update (update threads t ⟨pc, false⟩) t ⟨pc', false⟩⟩ :=
    .atomic_at ht hcode hmem
  rw [update_idem] at hstep
  exact hs.tail ⟨⟨t, hstep⟩, trivial⟩

/-- Waking a writer up when nobody sleeps. -/
theorem reach_wake {m : Mem} {t : Fin 3}
    (hs : Reachable code init ⟨m, update threads t ⟨.wake_writer_wake g false, false⟩⟩)
    (hawake : ∀ u, (threads u).asleep = false) :
    Reachable code init ⟨m, update threads t ⟨.idle g, false⟩⟩ := by
  have hcode : code (Pc.wake_writer_wake g false) = .wake .writer_notify fun woken =>
      if false && ! woken then .wake_readers g else .idle g := rfl
  have hnone (u : Fin 3) :
      (update threads t ⟨.wake_writer_wake g false, false⟩ u).asleep = false := by
    rw [update_apply]
    split
    · rfl
    · exact hawake u
  have ht : update threads t ⟨.wake_writer_wake g false, false⟩ t =
      ⟨.wake_writer_wake g false, false⟩ := update_self _ _ _
  have hstep : Step code ⟨m, update threads t ⟨.wake_writer_wake g false, false⟩⟩ t
      ⟨m, update (update threads t ⟨.wake_writer_wake g false, false⟩) t
        ⟨.idle g, false⟩⟩ := .wake_none_at ht hcode hnone
  rw [update_idem] at hstep
  exact hs.tail ⟨⟨t, hstep⟩, trivial⟩

variable {v : UInt32}

/-- `write_unlock` while a writer waits, but none sleeps: one notification more. -/
theorem reach_unlock {n : ℕ} {t : Fin 3}
    (hs : Reachable code init ⟨⟨WRITE_LOCKED + WRITERS_WAITING, v, n⟩, threads⟩)
    (hawake : ∀ u, (threads u).asleep = false) (ht : (threads t).pc = .write_unlock g) :
    Reachable code init
      ⟨⟨0, v + 1, n + 1⟩, update threads t ⟨.idle g.unwrite, false⟩⟩ := by
  have hsame : threads = update threads t ⟨.write_unlock g, false⟩ := by
    rw [← ht, ← hawake t]
    exact (update_eq_self t threads).symm
  have hsub : (⟨WRITERS_WAITING, v, n⟩, .wake_writers g.unwrite) =
      (Mem.mk (sub (WRITE_LOCKED + WRITERS_WAITING) WRITE_LOCKED) v n,
        write_unlock_end g.unwrite (sub (WRITE_LOCKED + WRITERS_WAITING) WRITE_LOCKED)) := rfl
  rw [hsame] at hs
  have hunlocked := reach_atomic hs rfl (List.mem_singleton.mpr hsub)
  have hcleared := reach_atomic hunlocked rfl (List.mem_singleton.mpr rfl)
  exact reach_wake (reach_atomic hcleared rfl (List.mem_singleton.mpr rfl)) hawake

theorem waiting_awake (m : Mem) (pc1 pc2 : Pc) (t : Fin 3) :
    ((waiting m pc1 pc2).threads t).asleep = false := by
  match t with
  | 0 => rfl
  | 1 => rfl
  | 2 => rfl

theorem reach_eq {s s' : State (Fin 3) Mem Pc} (hs : Reachable code init s) (hmem : s.mem = s'.mem)
    (h0 : s.threads 0 = s'.threads 0) (h1 : s.threads 1 = s'.threads 1)
    (h2 : s.threads 2 = s'.threads 2) : Reachable code init s' := by
  rwa [← state_ext hmem h0 h1 h2]

/-- The thread 2 has locked the lock. -/
theorem reach_locked : Reachable code init (waiting ⟨WRITE_LOCKED + WRITERS_WAITING, 0, 0⟩
    (.write_seq free) (.write_unlock ⟨0, true⟩)) := play_reachable .refl lock (play_eq rfl)

/-- There it excludes the others; and nobody sleeps in the beginning. -/
theorem rwlock_locked : ((WRITE_LOCKED + WRITERS_WAITING) &&& MASK = WRITE_LOCKED ∧ ∀ u : Fin 3,
      ((waiting ⟨WRITE_LOCKED + WRITERS_WAITING, 0, 0⟩ (.write_seq free)
        (.write_unlock ⟨0, true⟩)).threads u).pc.guards.readers = 0) ∧
    ∀ (t : Fin 3) l, ¬ ((init : State (Fin 3) Mem Pc).threads t).SleepsAt code l := by
  obtain ⟨hwriter, -⟩ := rwlock reach_locked
  obtain ⟨hmask, hothers⟩ := hwriter 2 rfl
  obtain ⟨-, -, -, -, -, hfree⟩ := rwlock (s := (init : State (Fin 3) Mem Pc)) .refl
  exact ⟨⟨hmask, fun u => (hothers u).1⟩, hfree .refl rfl fun _ => .inr ⟨_, rfl⟩⟩

theorem reach_first : Reachable code init (waiting ⟨0, 1, 1⟩ (.write_seq free) (.idle free)) := by
  have hunlock := reach_unlock (t := 2) (g := ⟨0, true⟩) reach_locked
    (waiting_awake ⟨0, 0, 0⟩ _ _) rfl
  exact reach_eq hunlock rfl rfl rfl rfl

/-- The thread 1 reads the state. -/
theorem reach_check {seq : UInt32} {n start state : ℕ} {pc1 pc2 : Pc}
    (hs : Reachable code init (waiting ⟨state, v, n⟩ (.write_check free seq start) pc2))
    (h : (if is_unlocked state || ! has_writers_waiting state then write_contended free true state
      else .write_wait free seq start) = pc1) :
    Reachable code init (waiting ⟨state, v, n⟩ pc1 pc2) := by
  subst h
  have hstep : Step code (waiting ⟨state, v, n⟩ (.write_check free seq start) pc2) 1 _ :=
    .atomic_at rfl rfl (List.mem_singleton_self _)
  exact reach_eq (hs.tail ⟨⟨1, hstep⟩, trivial⟩) rfl rfl rfl rfl

theorem reach_next {n : ℕ}
    (hs : Reachable code init (waiting ⟨0, v, n⟩ (.write_seq free) (.idle free))) :
    Reachable code init (waiting ⟨0, v + 1, n + 1⟩ (.write_seq free) (.idle free)) := by
  have hlock : Reachable code init (waiting ⟨WRITE_LOCKED, v, n⟩ (.write_check free v n)
      (.idle ⟨0, true⟩)) := play_reachable hs lock_again (play_eq rfl)
  have hcheck := reach_check hlock rfl
  have hmark : Reachable code init (waiting ⟨WRITE_LOCKED + WRITERS_WAITING, v, n⟩
      (.write_seq free) (.write_unlock ⟨0, true⟩)) := play_reachable hcheck mark (play_eq rfl)
  have hunlock := reach_unlock (t := 2) (g := ⟨0, true⟩) hmark (waiting_awake ⟨0, v, n⟩ _ _) rfl
  exact reach_eq hunlock rfl rfl rfl rfl

/-- Any number of notifications passes by the thread 0. -/
theorem reach_waiting (n : ℕ) : Reachable code init
    (waiting ⟨0, UInt32.ofNat (n + 1), n + 1⟩ (.write_seq free) (.idle free)) := by
  induction n with
  | zero => exact reach_first
  | succ n ih =>
    rw [UInt32.ofNat_add (n + 1) 1]
    exact reach_next ih

/-- The last writer goes. -/
theorem reach_last {n : ℕ}
    (hs : Reachable code init (waiting ⟨0, v, n⟩ (.write_seq free) (.idle free))) :
    Reachable code init (waiting ⟨0, v + 1, n + 1⟩ (.idle free) (.idle free)) := by
  have hseq : Reachable code init (waiting ⟨0, v, n⟩ (.write_check free v n) (.idle free)) :=
    play_reachable hs [(1, .outcome 0)] (play_eq rfl)
  have hcontend := reach_check hseq rfl
  have hlock : Reachable code init (waiting ⟨WRITE_LOCKED + WRITERS_WAITING, v, n⟩
      (.write_unlock ⟨0, true⟩) (.idle free)) := play_reachable hcontend lock_last (play_eq rfl)
  have hunlock := reach_unlock (t := 1) (g := ⟨0, true⟩) hlock (waiting_awake ⟨0, v, n⟩ _ _) rfl
  exact reach_eq hunlock rfl rfl rfl rfl

/-- The thread 0 sleeps, the lock is free, and nobody is left. -/
def lost : State (Fin 3) Mem Pc where
  mem := ⟨0, 0, 2 ^ 32⟩
  threads
    | 0 => ⟨.write_wait free 0 0, true⟩
    | _ => ⟨.idle free, false⟩

theorem reach_lost : Reachable code init lost := by
  have hall := reach_last (reach_waiting (2 ^ 32 - 2))
  rw [show UInt32.ofNat (2 ^ 32 - 2 + 1) + 1 = 0 from rfl,
    show 2 ^ 32 - 2 + 1 + 1 = 2 ^ 32 from rfl] at hall
  exact play_reachable hall [(0, .outcome 0)] (play_eq rfl)

/-- **A writer can be lost** when its counter wraps around: the lock is free, every other thread is
between two calls, and it sleeps. -/
theorem writer_lost : ¬ ∀ s : State (Fin 3) Mem Pc, Reachable code init s →
    s.mem.state &&& MASK = 0 → Finished s → ∀ t l, ¬ (s.threads t).SleepsAt code l := by
  intro hall
  have hsleeps : (lost.threads 0).SleepsAt code .writer_notify := ⟨rfl, _, _, _, rfl⟩
  refine hall lost reach_lost rfl (fun t => ?_) 0 .writer_notify hsleeps
  match t with
  | 0 => exact .inl ⟨_, hsleeps⟩
  | 1 => exact .inr ⟨_, rfl⟩
  | 2 => exact .inr ⟨_, rfl⟩

end RustStd.Sync.RwLock
