import RustStd.Sync.Mutex

/-!
# The condition variable

What holds of `wait`, `notify_one` and `notify_all`, as long as there are fewer than `2 ^ 32`
notifications during one wait (`Bounded`): a counter that was read before a notification differs
from the one behind it, so that a waiter that was notified does not fall asleep.
-/

namespace RustStd.Sync.Mutex

open Threads

variable {Tid : Type} {m m' : Mem} {th th' : Thread Pc}

/-! ## Waiters -/

/-- The call of `wait`, from the load of the counter until its `futex_wait` returns. -/
def Pc.waiting : Pc → Option Waiting
  | .unlock (.wait x) | .wake (.wait x) | .condvar_wait x => some x
  | _ => none

def Locker.in_wait : Locker → Bool
  | .lock _ => false
  | .wait _ => true

def Unlocker.in_wait : Unlocker → Bool
  | .unlock => false
  | .wait _ => true

/-- Inside a call of `wait`. -/
def Pc.in_wait : Pc → Bool
  | .wait _ | .condvar_wait _ => true
  | .unlock u | .wake u => u.in_wait
  | .lock c | .spin c _ _ | .compare_exchange c | .swap c | .futex_wait c => c.in_wait
  | _ => false

/-- A waiter that has released the mutex and has not been woken up. -/
def Released (s : State Tid Mem Pc) (w : Tid) (x : Waiting) : Prop :=
  (s.threads w).pc = .wake (.wait x) ∨ (s.threads w).pc = .condvar_wait x

/-- A waiter that sleeps. -/
def Asleep (s : State Tid Mem Pc) (w : Tid) (x : Waiting) : Prop :=
  s.threads w = ⟨.condvar_wait x, true⟩

/-- There are fewer than `2 ^ 32` notifications during one wait. -/
def Bounded (s : State Tid Mem Pc) : Prop :=
  ∀ t x, (s.threads t).pc.waiting = some x → s.mem.notified < x.start + 2 ^ 32

/-- **What the counters count.** -/
structure Counted (s : State Tid Mem Pc) : Prop where
  counter : s.mem.condvar = UInt32.ofNat s.mem.notified
  start : ∀ t x, (s.threads t).pc.waiting = some x →
    x.start ≤ s.mem.notified ∧ x.futex_value = UInt32.ofNat x.start

theorem counted_init : Counted (init : State Tid Mem Pc) := ⟨rfl, nofun⟩

theorem calls_waiting {held : Bool} {pc : Pc} (h : pc ∈ calls held) : pc.waiting = none := by
  have hall : ∀ pc ∈ calls held, pc.waiting = none := by
    cases held <;> simp [calls, Pc.waiting]
  exact hall pc h

variable (hown : Own code m th m' th')
include hown

/-- The counters go up together. -/
theorem own_notified : m'.notified = m.notified ∧ m'.condvar = m.condvar ∨
      m'.notified = m.notified + 1 ∧ m'.condvar = m.condvar + 1 := by
  cases own_move hown with
  | notify => exact .inr ⟨rfl, rfl⟩
  | _ => exact .inl ⟨rfl, rfl⟩

/-- A call of `wait` keeps its variables, or begins with the counters as they are. -/
theorem own_waiting {x : Waiting} (h : th'.pc.waiting = some x) :
    th.pc.waiting = some x ∨ x.start = m.notified ∧ x.futex_value = m.condvar := by
  cases own_move hown with
  | call hpc => exact absurd ((calls_waiting hpc).symm.trans h) nofun
  | @unlock u | @unlock_contended u | @wake u =>
    cases u with
    | unlock => cases h
    | wait y => exact .inl h
  | wait =>
    cases h
    exact .inr ⟨rfl, rfl⟩
  | condvar_sleep _ => exact .inl h
  | _ => cases h

/-- A waiter falls asleep while the counter is the one that it has read. -/
theorem own_asleep {x : Waiting} (h : th' = ⟨.condvar_wait x, true⟩) :
    th.pc.waiting = some x ∧ m' = m ∧ m.condvar = x.futex_value := by
  cases own_move hown with
  | condvar_sleep hvalue =>
    cases h
    exact ⟨rfl, rfl, hvalue⟩
  | sleep _ => cases h
  | _ => exact absurd (congrArg Thread.asleep h) Bool.false_ne_true

omit hown

theorem resume_pc {l : Loc} (h : th.SleepsAt code l) (b : Bool) :
    (∃ c, th.pc = .futex_wait c ∧ th.resume code b = ⟨.spin c true 100, false⟩) ∨
      ∃ x, th = ⟨.condvar_wait x, true⟩ ∧ th.resume code b = ⟨.lock (.wait b), false⟩ := by
  obtain ⟨pc, asleep⟩ := th
  obtain ⟨rfl, blocks, timed, k, hcode⟩ := h
  cases pc with
  | futex_wait c => exact .inl ⟨c, rfl, rfl⟩
  | condvar_wait x => exact .inr ⟨x, rfl, rfl⟩
  | notify_wake all held => cases all <;> cases hcode
  | _ => cases hcode

theorem resume_waiting {l : Loc} (h : th.SleepsAt code l) (b : Bool) :
    (th.resume code b).pc.waiting = none := by
  rcases resume_pc h b with ⟨c, -, heq⟩ | ⟨x, -, heq⟩ <;> rw [heq] <;> rfl

variable {s s' : State Tid Mem Pc} {w : Tid} {x : Waiting}

theorem Released.start_le (hs : Counted s) (hw : Released s w x) : x.start ≤ s.mem.notified := by
  have hwaiting : (s.threads w).pc.waiting = some x := by
    rcases hw with hw | hw <;> rw [hw] <;> rfl
  exact (hs.start w x hwaiting).1

theorem sleepsAt_condvar (h : Asleep s w x) : (s.threads w).SleepsAt code .condvar := by
  rw [h]
  exact ⟨rfl, _, _, _, rfl⟩

theorem not_asleep_resume {l : Loc} (hsleeps : (s.threads w).SleepsAt code l)
    (heq : s'.threads w = (s.threads w).resume code true) : ¬ Asleep s' w x := by
  intro hasleep
  have hawake := hsleeps.resume_awake true
  rw [← heq, hasleep] at hawake
  cases hawake

section Steps

variable [DecidableEq Tid] {t : Tid}

/-- Another thread has the variables it had. -/
theorem waiting_other (h : Step code s t s') (hw : w ≠ t)
    (hx : (s'.threads w).pc.waiting = some x) : (s.threads w).pc.waiting = some x := by
  rcases h.others hw with heq | ⟨l, hsleeps, heq, -⟩
  · rwa [heq] at hx
  · rw [heq, resume_waiting hsleeps] at hx
    cases hx

theorem notified_le (h : Step code s t s') : s.mem.notified ≤ s'.mem.notified := by
  rcases own_notified h.own with ⟨hn, -⟩ | ⟨hn, -⟩ <;> omega

theorem Counted.step (hs : Counted s) (h : Step code s t s') : Counted s' := by
  have hle := notified_le h
  refine ⟨?_, fun w x hx => ?_⟩
  · rcases own_notified h.own with ⟨hn, hc⟩ | ⟨hn, hc⟩
    · rw [hn, hc, hs.counter]
    · rw [hn, hc, hs.counter, UInt32.ofNat_add]
      rfl
  · by_cases hwt : w = t
    · subst hwt
      rcases own_waiting h.own hx with hx | ⟨hstart, hvalue⟩
      · exact ⟨(hs.start w x hx).1.trans hle, (hs.start w x hx).2⟩
      · exact ⟨hstart ▸ hle, by rw [hvalue, hs.counter, hstart]⟩
    · have hx' := waiting_other h hwt hx
      exact ⟨(hs.start w x hx').1.trans hle, (hs.start w x hx').2⟩

/-- **Who has been notified** does not fall asleep. -/
theorem not_asleep_step (hs : Counted s) (h : Step code s t s') (hok : Bounded s')
    (hx : x.start < s.mem.notified) (hawake : ¬ Asleep s w x) : ¬ Asleep s' w x := by
  intro hasleep
  by_cases hwt : w = t
  · subst hwt
    obtain ⟨hwaiting, hmem, hvalue⟩ := own_asleep h.own hasleep
    have hbound := hok w x (by rw [hasleep]; rfl)
    rw [hmem] at hbound
    have heq := congrArg UInt32.toNat (hvalue.symm.trans hs.counter)
    rw [(hs.start w x hwaiting).2, UInt32.toNat_ofNat', UInt32.toNat_ofNat'] at heq
    omega
  · rcases h.others hwt with heq | ⟨l, hsleeps, heq, -⟩
    · exact hawake (heq.symm.trans hasleep)
    · rw [Asleep, heq] at hasleep
      exact absurd ((hsleeps.resume_awake true).symm.trans (congrArg Thread.asleep hasleep)) nofun

/-! ## Notifications -/

theorem counted (hs : Reachable code init s) : Counted s :=
  Run.inv (fun _ _ _ h hstep _ => h.step hstep) hs counted_init

/-- It never does. -/
theorem not_asleep_run (hs : Counted s) (hrun : Run code Bounded s s')
    (hx : x.start < s.mem.notified) (hawake : ¬ Asleep s w x) : ¬ Asleep s' w x := by
  have hinv : Counted s' ∧ x.start < s'.mem.notified ∧ ¬ Asleep s' w x := by
    refine Run.inv (fun s t s' hinv hstep hok => ?_) hrun ⟨hs, hx, hawake⟩
    obtain ⟨hs, hx, hawake⟩ := hinv
    exact ⟨hs.step hstep, hx.trans_le (notified_le hstep), not_asleep_step hs hstep hok hx hawake⟩
  exact hinv.2.2

variable {s1 s2 : State Tid Mem Pc} {n : Tid} {all held held' : Bool}

/-- **A notification**: behind its `fetch_add` the counter is larger than when it was issued. -/
theorem notified_lt (hn : s.threads n = ⟨.notify all held, false⟩) (hrun : Run code Bounded s s1)
    (hn1 : s1.threads n = ⟨.notify_wake all held', false⟩) :
    s.mem.notified < s1.mem.notified := by
  obtain ⟨c, hc⟩ : ∃ c, s.mem.notified = c := ⟨_, rfl⟩
  have hinv : s1.threads n = ⟨.notify all held, false⟩ ∧ c ≤ s1.mem.notified ∨
      c < s1.mem.notified := by
    refine Run.inv (fun s t s' hinv hstep _ => ?_) hrun (.inl ⟨hn, hc.ge⟩)
    have hle := notified_le hstep
    rcases hinv with ⟨hn, hle'⟩ | hlt
    · by_cases hnt : n = t
      · subst hnt
        have hown := hstep.own
        rw [hn] at hown
        obtain ⟨m', hm'⟩ : ∃ m', s'.mem = m' := ⟨_, rfl⟩
        obtain ⟨th', hth'⟩ : ∃ th', s'.threads n = th' := ⟨_, rfl⟩
        rw [hm', hth'] at hown
        right
        rw [hm']
        cases own_move hown with
        | notify => exact Nat.lt_succ_of_le hle'
      · have heq := hstep.other_awake hnt (congrArg Thread.asleep hn)
        exact .inl ⟨heq.trans hn, hle'.trans hle⟩
    · exact .inr (hlt.trans_le hle)
  rcases hinv with ⟨heq, -⟩ | hlt
  · cases hn1.symm.trans heq
  · rwa [hc]

/-- **`notify_all`** leaves no waiter asleep that had released the mutex when it was issued. -/
theorem notify_all_spec (hs : Counted s) (hn : s.threads n = ⟨.notify true held, false⟩)
    (hw : Released s w x) (hrun : Run code Bounded s s1)
    (hn1 : s1.threads n = ⟨.notify_wake true held', false⟩) (hstep : Step code s1 n s2)
    (hrun' : Run code Bounded s2 s') : ¬ Asleep s' w x := by
  have hlt : x.start < s1.mem.notified := (hw.start_le hs).trans_lt (notified_lt hn hrun hn1)
  have hs1 : Counted s1 := hrun.inv (fun _ _ _ h hstep _ => h.step hstep) hs
  refine not_asleep_run (hs1.step hstep) hrun' (hlt.trans_le (notified_le hstep)) fun hasleep => ?_
  have hawake : (s1.threads n).asleep = false := by rw [hn1]
  have hcode : code (s1.threads n).pc = .wake_all .condvar (.idle held') := by rw [hn1]; rfl
  by_cases hwn : w = n
  · subst hwn
    have hown := own_asleep hstep.own hasleep
    rw [hn1] at hown
    cases hown.1
  · by_cases hsleeps : (s1.threads w).SleepsAt code .condvar
    · exact not_asleep_resume hsleeps (hstep.wakes_all hawake hcode hsleeps) hasleep
    · rcases hstep.others hwn with heq | ⟨l, hsleeps', heq, -⟩
      · exact hsleeps (sleepsAt_condvar (heq.symm.trans hasleep))
      · exact not_asleep_resume hsleeps' heq hasleep

/-- **`notify_one`** makes a waiter return, or keeps it from falling asleep: one that had released
the mutex when it was issued, or one that slept when it woke a sleeper up. -/
theorem notify_one_spec (hs : Counted s) (hn : s.threads n = ⟨.notify false held, false⟩)
    (hw : Released s w x) (hrun : Run code Bounded s s1)
    (hn1 : s1.threads n = ⟨.notify_wake false held', false⟩) (hstep : Step code s1 n s2) :
    (∃ w x, Released s w x ∧ ∀ s', Run code Bounded s2 s' → ¬ Asleep s' w x) ∨
      ∃ v y, ¬ Released s v y ∧ Asleep s1 v y ∧ s2.threads v = ⟨.lock (.wait true), false⟩ := by
  have hlt := notified_lt hn hrun hn1
  have hs1 : Counted s1 := hrun.inv (fun _ _ _ h hstep _ => h.step hstep) hs
  have hnever {w : Tid} {x : Waiting} (hw : Released s w x) (hawake : ¬ Asleep s2 w x) :
      ∀ s', Run code Bounded s2 s' → ¬ Asleep s' w x := fun s' hrun' =>
    not_asleep_run (hs1.step hstep) hrun'
      (((hw.start_le hs).trans_lt hlt).trans_le (notified_le hstep)) hawake
  have hawake : (s1.threads n).asleep = false := by rw [hn1]
  have hcode : code (s1.threads n).pc = .wake .condvar fun _ => .idle held' := by rw [hn1]; rfl
  by_cases hsleeper : ∃ v, (s1.threads v).SleepsAt code .condvar
  · obtain ⟨u, hu⟩ := hsleeper
    obtain ⟨v, -, hv, heq⟩ := hstep.wakes_one hawake hcode hu
    obtain ⟨y, hy, hresume⟩ : ∃ y, s1.threads v = ⟨.condvar_wait y, true⟩ ∧
        (s1.threads v).resume code true = ⟨.lock (.wait true), false⟩ := by
      rcases resume_pc hv true with ⟨c, hpc, -⟩ | hcond
      · obtain ⟨-, blocks, timed, k, hcode⟩ := hv
        rw [hpc] at hcode
        cases hcode
      · exact hcond
    by_cases hreleased : Released s v y
    · exact .inl ⟨v, y, hreleased, hnever hreleased (not_asleep_resume hv heq)⟩
    · exact .inr ⟨v, y, hreleased, hy, heq.trans hresume⟩
  · -- Nobody sleeps: the waiter does not fall asleep either.
    refine .inl ⟨w, x, hw, hnever hw fun hasleep => ?_⟩
    by_cases hwn : w = n
    · subst hwn
      have hown := own_asleep hstep.own hasleep
      rw [hn1] at hown
      cases hown.1
    · rcases hstep.others hwn with heq | ⟨l, hsleeps', heq, -⟩
      · exact hsleeper ⟨w, sleepsAt_condvar (heq.symm.trans hasleep)⟩
      · exact not_asleep_resume hsleeps' heq hasleep

/-! ## Returning from `wait` -/

theorem own_in_wait (hown : Own code m th m' th') (h : th.pc.in_wait = true)
    (h' : th'.pc.in_wait = false) : th'.pc.holds = true := by
  cases own_move hown with
  | locked | exchanged | swapped => rfl
  | call | try_locked | try_failed | notify | notify_wake => cases h
  | @unlock u | @wake u =>
    cases u with
    | unlock => cases h
    | wait y => cases h'
  | wait | condvar_sleep | condvar_pass | condvar_resume => cases h'
  | _ => exact absurd (h.symm.trans h') nofun

/-- **Every `wait` returns** holding the mutex. -/
theorem wait_returns (h : Step code s t s') (hw : (s.threads w).pc.in_wait = true)
    (hw' : (s'.threads w).pc.in_wait = false) : Holds s' w := by
  by_cases hwt : w = t
  · subst hwt
    exact own_in_wait h.own hw hw'
  rcases h.others hwt with heq | ⟨l, hsleeps, heq, -⟩
  · rw [heq] at hw'
    exact absurd (hw.symm.trans hw') nofun
  · rcases resume_pc hsleeps true with ⟨c, hpc, hresume⟩ | ⟨y, -, hresume⟩
    · rw [heq, hresume] at hw'
      rw [hpc] at hw
      exact absurd (hw.symm.trans hw') nofun
    · rw [heq, hresume] at hw'
      cases hw'

end Steps

/-! ## The mutex and the condition variable -/

/-- **The mutex and the condition variable.** At most one thread holds the mutex; when it is free
and no thread runs, none sleeps in `lock`; every `wait` returns holding it; `notify_all` leaves no
waiter asleep that had released the mutex, and `notify_one` makes one of them, or of those that
sleep when it wakes a sleeper up, return. -/
theorem mutex_and_condvar [DecidableEq Tid] {s : State Tid Mem Pc} (hs : Reachable code init s) :
    (∀ t u, Holds s t → Holds s u → t = u) ∧
    (s.mem.mutex = UNLOCKED → Finished s → ∀ t, ¬ (s.threads t).SleepsAt code .mutex) ∧
    (∀ t s', Step code s t s' → ∀ w, (s.threads w).pc.in_wait = true →
      (s'.threads w).pc.in_wait = false → Holds s' w ∧ s'.mem.mutex ≠ UNLOCKED) ∧
    (∀ n held w x, s.threads n = ⟨.notify true held, false⟩ → Released s w x →
      ∀ s1 held' s2 s', Run code Bounded s s1 →
        s1.threads n = ⟨.notify_wake true held', false⟩ → Step code s1 n s2 →
        Run code Bounded s2 s' → ¬ Asleep s' w x) ∧
    ∀ n held w x, s.threads n = ⟨.notify false held, false⟩ → Released s w x →
      ∀ s1 held' s2, Run code Bounded s s1 →
        s1.threads n = ⟨.notify_wake false held', false⟩ → Step code s1 n s2 →
        (∃ w x, Released s w x ∧ ∀ s', Run code Bounded s2 s' → ¬ Asleep s' w x) ∨
          ∃ v y, ¬ Released s v y ∧ Asleep s1 v y ∧ s2.threads v = ⟨.lock (.wait true), false⟩ := by
  refine ⟨(exclusive hs).unique, none_lost hs, fun t s' hstep w hw hw' => ?_,
    fun n held w x hn hw s1 held' s2 s' hrun hn1 hstep hrun' =>
      notify_all_spec (counted hs) hn hw hrun hn1 hstep hrun',
    fun n held w x hn hw s1 held' s2 hrun hn1 hstep =>
      notify_one_spec (counted hs) hn hw hrun hn1 hstep⟩
  have hholds := wait_returns hstep hw hw'
  exact ⟨hholds, ((exclusive hs).step hstep).locked.mpr ⟨w, hholds⟩⟩

/-! ## A stolen notification -/

/-- The state that a schedule ends in. -/
def play (s : State (Fin 3) Mem Pc) (schedule : List (Fin 3 × Choice (Fin 3))) :
    Option (State (Fin 3) Mem Pc) :=
  schedule.foldlM (fun s step => (act code s step).filter fun s => s.mem.notified < 2) s

theorem play_run {s s' : State (Fin 3) Mem Pc} (schedule : List (Fin 3 × Choice (Fin 3)))
    (h : play s schedule = some s') : Run code Bounded s s' := by
  refine (run_of_schedule h).mono fun s hs t x _ => ?_
  have := of_decide_eq_true hs
  omega

/-- The thread 0 waits, and the thread 2 issues a notification. -/
def issue : List (Fin 3 × Choice (Fin 3)) :=
  [(0, .outcome 1), (0, .outcome 0), (0, .outcome 5), (0, .outcome 0), (0, .outcome 0),
    (0, .outcome 0), (2, .outcome 2)]

/-- The thread 2 increments the counter, and the thread 1 waits. -/
def join : List (Fin 3 × Choice (Fin 3)) :=
  [(2, .outcome 0), (1, .outcome 1), (1, .outcome 0), (1, .outcome 5), (1, .outcome 0),
    (1, .outcome 0), (1, .outcome 0)]

/-- The thread 1 returns from `wait` and unlocks the mutex. -/
def leave : List (Fin 3 × Choice (Fin 3)) := [(1, .outcome 0), (1, .outcome 4), (1, .outcome 0)]

def issued : State (Fin 3) Mem Pc := (play init issue).getD init

def joined : State (Fin 3) Mem Pc := (play issued join).getD init

/-- The thread 2 wakes the thread 1 up. -/
def stolen : State (Fin 3) Mem Pc := (play joined [(2, .sleeper 1)]).getD init

def stranded : State (Fin 3) Mem Pc := (play stolen leave).getD init

theorem run_issued : Run code Bounded init issued := play_run issue rfl

theorem run_joined : Run code Bounded issued joined := play_run join rfl

theorem step_stolen : Step code joined 2 stolen := by
  have hact : act code joined (2, .sleeper 1) = some stolen := rfl
  exact act_step hact

/-- What `notify_one` does here, with the thread 1 as the one that returns. -/
theorem mutex_and_condvar_issued : (∀ t u, Holds issued t → Holds issued u → t = u) ∧
    ((∃ w x, Released issued w x ∧ ∀ s', Run code Bounded stolen s' → ¬ Asleep s' w x) ∨
      ∃ v y, ¬ Released issued v y ∧ Asleep joined v y ∧
        stolen.threads v = ⟨.lock (.wait true), false⟩) := by
  obtain ⟨hunique, -, -, -, hone⟩ :=
    mutex_and_condvar (run_issued.mono fun _ _ => trivial)
  exact ⟨hunique, hone 2 false 0 ⟨0, false, 0, 0⟩ rfl (.inr rfl) joined false stolen run_joined rfl
    step_stolen⟩

/-- **A notification can be stolen** by a thread that begins to wait behind its `fetch_add`: no
waiter that had released the mutex when it was issued returns. -/
theorem notify_one_stolen : ¬ ∀ (s s1 s2 s3 : State (Fin 3) Mem Pc) (n w : Fin 3) (x : Waiting)
    (held held' : Bool), Run code Bounded init s → s.threads n = ⟨.notify false held, false⟩ →
      Released s w x → Run code Bounded s s1 → s1.threads n = ⟨.notify_wake false held', false⟩ →
      Step code s1 n s2 → Run code Bounded s2 s3 → Finished s3 →
      ∃ w x, Released s w x ∧ ¬ Asleep s3 w x := by
  intro hall
  have hstranded : Run code Bounded stolen stranded := play_run leave rfl
  have hfinished : Finished stranded := by
    intro t
    match t with
    | 0 => exact .inr rfl
    | 1 => exact .inl ⟨false, rfl⟩
    | 2 => exact .inl ⟨false, rfl⟩
  obtain ⟨w, x, hw, hawake⟩ := hall issued joined stolen stranded 2 0 ⟨0, false, 0, 0⟩ false false
    run_issued rfl (.inr rfl) run_joined rfl step_stolen hstranded hfinished
  match w with
  | 0 =>
    rcases hw with hw | hw <;> cases hw
    exact hawake rfl
  | 1 => rcases hw with hw | hw <;> cases hw
  | 2 => rcases hw with hw | hw <;> cases hw

end RustStd.Sync.Mutex
