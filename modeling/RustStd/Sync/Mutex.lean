import RustStd.Foundations.Threads
import Mathlib.Data.UInt

/-!
# The futex mutex and condition variable

`std/src/sys/sync/mutex/futex.rs` and `condvar/futex.rs` as the code of threads with atomic
accesses, and what holds of the mutex: at most one thread holds it, and whoever sleeps in `lock` is
woken up.
-/

namespace RustStd.Sync.Mutex

open Threads Bool

/-! ## The source -/

def UNLOCKED : ℕ := 0

def LOCKED : ℕ := 1

def CONTENDED : ℕ := 2

/-- The fields `futex` of the mutex and of the condition variable. -/
structure Mem where
  mutex : ℕ
  condvar : UInt32
  /-- How often the counter of the condition variable was incremented. -/
  notified : ℕ
  /-- The number of calls of `wait`. -/
  waits : ℕ

inductive Loc
  | mutex
  | condvar
  deriving DecidableEq

/-- The variables of `wait_optional_timeout`. -/
structure Waiting where
  futex_value : UInt32
  timeout : Bool
  /-- The value of `notified` when `futex_value` was read. -/
  start : ℕ
  /-- The number of this call of `wait`. -/
  call : ℕ

/-- Who locks: a call of `lock` by a thread that holds the mutex or not, or `wait`. -/
inductive Locker
  | lock (held : Bool)
  | wait (r : Bool)

/-- Who unlocks. -/
inductive Unlocker
  | unlock
  | wait (x : Waiting)

/-- The places in the code. -/
inductive Pc
  /-- Between two calls. -/
  | idle (held : Bool)
  | try_lock (held : Bool)
  | lock (c : Locker)
  /-- The loop of `spin`, before or behind the first sleep. -/
  | spin (c : Locker) (slept : Bool) (spin : ℕ)
  /-- The one of `lock_contended`. -/
  | compare_exchange (c : Locker)
  | swap (c : Locker)
  | futex_wait (c : Locker)
  | unlock (u : Unlocker)
  /-- `Mutex::wake` -/
  | wake (u : Unlocker)
  /-- The load in `wait_optional_timeout`. -/
  | wait (timeout : Bool)
  /-- The `futex_wait` in `wait_optional_timeout`. -/
  | condvar_wait (x : Waiting)
  /-- The `fetch_add` of `notify_all`, or of `notify_one`. -/
  | notify (all held : Bool)
  /-- The `futex_wake_all` of `notify_all`, or the `futex_wake` of `notify_one`. -/
  | notify_wake (all held : Bool)

/-- The loop of `lock_contended`, with its `state`. -/
def lock_contended_loop (c : Locker) (state : ℕ) : Pc :=
  if state ≠ CONTENDED then .swap c else .futex_wait c

/-- Behind `spin`. -/
def after_spin (c : Locker) (slept : Bool) (state : ℕ) : Pc :=
  if slept = false ∧ state = UNLOCKED then .compare_exchange c else lock_contended_loop c state

/-- Behind `unlock`. -/
def Unlocker.done : Unlocker → Pc
  | .unlock => .idle false
  | .wait x => .condvar_wait x

/-- `compare_exchange(UNLOCKED, LOCKED)` -/
def try_acquire (m : Mem) : Mem := if m.mutex = UNLOCKED then { m with mutex := LOCKED } else m

/-- The calls of a thread that holds the mutex or not. -/
def calls (held : Bool) : List Pc :=
  [.try_lock held, .lock (.lock held), .notify false held, .notify true held] ++
    if held then [.unlock .unlock, .wait false, .wait true] else []

/-- **The code.** -/
def code : Pc → Access Mem Loc Pc
  | .idle held => .choose (calls held)
  | .try_lock held => .rmw try_acquire fun m =>
      if m.mutex = UNLOCKED then .idle true else .idle held
  | .lock c => .rmw try_acquire fun m =>
      if m.mutex = UNLOCKED then .idle true else .spin c false 100
  | .spin c slept spin => .load fun m =>
      if m.mutex ≠ LOCKED ∨ spin = 0 then after_spin c slept m.mutex
      else .spin c slept (spin - 1)
  | .compare_exchange c => .rmw try_acquire fun m =>
      if m.mutex = UNLOCKED then .idle true else lock_contended_loop c m.mutex
  | .swap c => .rmw (fun m => { m with mutex := CONTENDED }) fun m =>
      if m.mutex = UNLOCKED then .idle true else .futex_wait c
  | .futex_wait c => .wait .mutex (fun m => m.mutex == CONTENDED) false fun _ => .spin c true 100
  | .unlock u => .rmw (fun m => { m with mutex := UNLOCKED }) fun m =>
      if m.mutex = CONTENDED then .wake u else u.done
  | .wake u => .wake .mutex fun _ => u.done
  | .wait timeout => .rmw (fun m => { m with waits := m.waits + 1 }) fun m =>
      .unlock (.wait ⟨m.condvar, timeout, m.notified, m.waits⟩)
  | .condvar_wait x => .wait .condvar (fun m => m.condvar == x.futex_value) x.timeout fun r =>
      .lock (.wait r)
  | .notify all held =>
      .rmw (fun m => { m with condvar := m.condvar + 1, notified := m.notified + 1 }) fun _ =>
        .notify_wake all held
  | .notify_wake true held => .wake_all .condvar (.idle held)
  | .notify_wake false held => .wake .condvar fun _ => .idle held

variable {Tid : Type}

/-- `Mutex::new` and `Condvar::new`, before any call. -/
def init : State Tid Mem Pc := ⟨⟨UNLOCKED, 0, 0, 0⟩, fun _ => ⟨.idle false, false⟩⟩

/-! ## The steps of a thread -/

/-- **The steps of a thread**, one for each way through an access. -/
inductive Move (m : Mem) : Thread Pc → Mem → Thread Pc → Prop
  | call {held : Bool} {pc : Pc} (hpc : pc ∈ calls held) : Move m ⟨.idle held, false⟩ m ⟨pc, false⟩
  | try_locked {held : Bool} (h : m.mutex = UNLOCKED) :
      Move m ⟨.try_lock held, false⟩ { m with mutex := LOCKED } ⟨.idle true, false⟩
  | try_failed {held : Bool} (h : m.mutex ≠ UNLOCKED) :
      Move m ⟨.try_lock held, false⟩ m ⟨.idle held, false⟩
  | locked {c : Locker} (h : m.mutex = UNLOCKED) :
      Move m ⟨.lock c, false⟩ { m with mutex := LOCKED } ⟨.idle true, false⟩
  | lock_failed {c : Locker} (h : m.mutex ≠ UNLOCKED) :
      Move m ⟨.lock c, false⟩ m ⟨.spin c false 100, false⟩
  | spin {c : Locker} {slept : Bool} {n : ℕ} (h : m.mutex = LOCKED) :
      Move m ⟨.spin c slept n, false⟩ m ⟨.spin c slept (n - 1), false⟩
  | spun_free {c : Locker} {n : ℕ} (h : m.mutex = UNLOCKED) :
      Move m ⟨.spin c false n, false⟩ m ⟨.compare_exchange c, false⟩
  | spun {c : Locker} {slept : Bool} {n : ℕ} (h : m.mutex ≠ CONTENDED) :
      Move m ⟨.spin c slept n, false⟩ m ⟨.swap c, false⟩
  | spun_contended {c : Locker} {slept : Bool} {n : ℕ} (h : m.mutex = CONTENDED) :
      Move m ⟨.spin c slept n, false⟩ m ⟨.futex_wait c, false⟩
  | exchanged {c : Locker} (h : m.mutex = UNLOCKED) :
      Move m ⟨.compare_exchange c, false⟩ { m with mutex := LOCKED } ⟨.idle true, false⟩
  | exchange_failed {c : Locker} (h : m.mutex ≠ UNLOCKED) (hcontended : m.mutex ≠ CONTENDED) :
      Move m ⟨.compare_exchange c, false⟩ m ⟨.swap c, false⟩
  | exchange_contended {c : Locker} (h : m.mutex = CONTENDED) :
      Move m ⟨.compare_exchange c, false⟩ m ⟨.futex_wait c, false⟩
  | swapped {c : Locker} (h : m.mutex = UNLOCKED) :
      Move m ⟨.swap c, false⟩ { m with mutex := CONTENDED } ⟨.idle true, false⟩
  | swap_failed {c : Locker} (h : m.mutex ≠ UNLOCKED) :
      Move m ⟨.swap c, false⟩ { m with mutex := CONTENDED } ⟨.futex_wait c, false⟩
  | sleep {c : Locker} (h : m.mutex = CONTENDED) :
      Move m ⟨.futex_wait c, false⟩ m ⟨.futex_wait c, true⟩
  | pass {c : Locker} (h : m.mutex ≠ CONTENDED) :
      Move m ⟨.futex_wait c, false⟩ m ⟨.spin c true 100, false⟩
  | resume {c : Locker} : Move m ⟨.futex_wait c, true⟩ m ⟨.spin c true 100, false⟩
  | unlock {u : Unlocker} (h : m.mutex ≠ CONTENDED) :
      Move m ⟨.unlock u, false⟩ { m with mutex := UNLOCKED } ⟨u.done, false⟩
  | unlock_contended {u : Unlocker} (h : m.mutex = CONTENDED) :
      Move m ⟨.unlock u, false⟩ { m with mutex := UNLOCKED } ⟨.wake u, false⟩
  | wake {u : Unlocker} : Move m ⟨.wake u, false⟩ m ⟨u.done, false⟩
  | wait {timeout : Bool} : Move m ⟨.wait timeout, false⟩ { m with waits := m.waits + 1 }
      ⟨.unlock (.wait ⟨m.condvar, timeout, m.notified, m.waits⟩), false⟩
  | condvar_sleep {x : Waiting} (h : m.condvar = x.futex_value) :
      Move m ⟨.condvar_wait x, false⟩ m ⟨.condvar_wait x, true⟩
  | condvar_pass {x : Waiting} (h : m.condvar ≠ x.futex_value) :
      Move m ⟨.condvar_wait x, false⟩ m ⟨.lock (.wait true), false⟩
  | condvar_resume {x : Waiting} (r : Bool) :
      Move m ⟨.condvar_wait x, true⟩ m ⟨.lock (.wait r), false⟩
  | notify {all held : Bool} : Move m ⟨.notify all held, false⟩
      { m with condvar := m.condvar + 1, notified := m.notified + 1 }
      ⟨.notify_wake all held, false⟩
  | notify_wake {all held : Bool} : Move m ⟨.notify_wake all held, false⟩ m ⟨.idle held, false⟩

variable {m m' : Mem} {th th' : Thread Pc}

theorem move_contended_loop {pc : Pc} {c : Locker}
    (hswap : m.mutex ≠ CONTENDED → Move m ⟨pc, false⟩ m ⟨.swap c, false⟩)
    (hwait : m.mutex = CONTENDED → Move m ⟨pc, false⟩ m ⟨.futex_wait c, false⟩) :
    Move m ⟨pc, false⟩ m ⟨lock_contended_loop c m.mutex, false⟩ := by
  rw [lock_contended_loop]
  split
  · next h => exact hswap h
  · next h => exact hwait (not_not.mp h)

/-- A `compare_exchange` of the mutex. -/
theorem move_try_acquire {pc locked failed : Pc}
    (hlocked : m.mutex = UNLOCKED → Move m ⟨pc, false⟩ { m with mutex := LOCKED } ⟨locked, false⟩)
    (hfailed : m.mutex ≠ UNLOCKED → Move m ⟨pc, false⟩ m ⟨failed, false⟩) :
    Move m ⟨pc, false⟩ (try_acquire m)
      ⟨if m.mutex = UNLOCKED then locked else failed, false⟩ := by
  by_cases h : m.mutex = UNLOCKED
  · rw [try_acquire, if_pos h, if_pos h]
    exact hlocked h
  · rw [try_acquire, if_neg h, if_neg h]
    exact hfailed h

/-- Every step of a thread's own code is a move of the protocol. -/
theorem own_move (h : Own code m th m' th') : Move m th m' th' := by
  cases h with
  | @atomic pc pc' outcomes m' hcode hmem =>
    cases pc with
    | idle held =>
      obtain ⟨rfl, hpc⟩ := choose_inj hcode hmem
      exact .call hpc
    | try_lock held =>
      obtain ⟨rfl, rfl⟩ := rmw_inj hcode hmem
      exact move_try_acquire .try_locked .try_failed
    | lock c =>
      obtain ⟨rfl, rfl⟩ := rmw_inj hcode hmem
      exact move_try_acquire .locked .lock_failed
    | spin c slept spin =>
      obtain ⟨rfl, rfl⟩ := rmw_inj hcode hmem
      split
      · rw [after_spin]
        split
        · next h =>
          obtain ⟨rfl, hfree⟩ := h
          exact .spun_free hfree
        · exact move_contended_loop .spun .spun_contended
      · next h => exact .spin (not_not.mp fun hne => h (.inl hne))
    | compare_exchange c =>
      obtain ⟨rfl, rfl⟩ := rmw_inj hcode hmem
      refine move_try_acquire .exchanged fun h => ?_
      exact move_contended_loop (.exchange_failed h) .exchange_contended
    | swap c =>
      obtain ⟨rfl, rfl⟩ := rmw_inj hcode hmem
      split
      · next h => exact .swapped h
      · next h => exact .swap_failed h
    | futex_wait | wake | condvar_wait => cases hcode
    | unlock u =>
      obtain ⟨rfl, rfl⟩ := rmw_inj hcode hmem
      split
      · next h => exact .unlock_contended h
      · next h => exact .unlock h
    | wait timeout =>
      obtain ⟨rfl, rfl⟩ := rmw_inj hcode hmem
      exact .wait
    | notify all held =>
      obtain ⟨rfl, rfl⟩ := rmw_inj hcode hmem
      exact .notify
    | notify_wake all held => cases all <;> cases hcode
  | @sleep pc _ _ _ _ hcode hblocks =>
    cases pc with
    | futex_wait c =>
      cases hcode
      exact .sleep (beq_iff_eq.mp hblocks)
    | condvar_wait x =>
      cases hcode
      exact .condvar_sleep (beq_iff_eq.mp hblocks)
    | notify_wake all held => cases all <;> cases hcode
    | _ => cases hcode
  | @pass pc _ _ _ _ hcode hblocks =>
    cases pc with
    | futex_wait c =>
      cases hcode
      exact .pass (beq_eq_false_iff_ne.mp hblocks)
    | condvar_wait x =>
      cases hcode
      exact .condvar_pass (beq_eq_false_iff_ne.mp hblocks)
    | notify_wake all held => cases all <;> cases hcode
    | _ => cases hcode
  | @resume pc _ _ _ _ b hcode =>
    cases pc with
    | futex_wait c =>
      cases hcode
      exact .resume
    | condvar_wait x =>
      cases hcode
      exact .condvar_resume b
    | notify_wake all held => cases all <;> cases hcode
    | _ => cases hcode
  | @wake pc _ _ b hcode =>
    cases pc with
    | wake u =>
      cases hcode
      exact .wake
    | notify_wake all held =>
      cases all <;> cases hcode
      exact .notify_wake
    | _ => cases hcode
  | @wake_all pc _ _ hcode =>
    cases pc with
    | notify_wake all held =>
      cases all <;> cases hcode
      exact .notify_wake
    | _ => cases hcode

/-! ## Mutual exclusion -/

def Locker.held : Locker → Bool
  | .lock held => held
  | .wait _ => false

/-- Whether a thread at a place holds the mutex. -/
def Pc.holds : Pc → Bool
  | .idle held | .try_lock held | .notify _ held | .notify_wake _ held => held
  | .lock c | .spin c _ _ | .compare_exchange c | .swap c | .futex_wait c => c.held
  | .unlock _ | .wait _ => true
  | .wake _ | .condvar_wait _ => false

/-- The thread holds the mutex. -/
def Holds (s : State Tid Mem Pc) (t : Tid) : Prop := (s.threads t).pc.holds = true

/-- **What a step does to the mutex**: it is acquired, released, or left as it is. -/
inductive Change (m : Mem) (held : Bool) (m' : Mem) (held' : Bool) : Prop
  | acquire (hfree : m.mutex = UNLOCKED) (hlocked : m'.mutex ≠ UNLOCKED) (hheld : held' = true)
  | release (hheld : held = true) (hfree : m'.mutex = UNLOCKED) (hheld' : held' = false)
  | keep (hheld : held' = held) (hfree : m'.mutex = UNLOCKED ↔ m.mutex = UNLOCKED)

theorem done_holds (u : Unlocker) : u.done.holds = false := by
  cases u <;> rfl

theorem calls_holds {held : Bool} {pc : Pc} (h : pc ∈ calls held) : pc.holds = held := by
  have hall : ∀ pc ∈ calls held, pc.holds = held := by
    cases held <;> simp [calls, Pc.holds, Locker.held]
  exact hall pc h

theorem own_change (hown : Own code m th m' th') : Change m th.pc.holds m' th'.pc.holds := by
  have hlocked : LOCKED ≠ UNLOCKED := by decide
  have hcontended : CONTENDED ≠ UNLOCKED := by decide
  cases own_move hown with
  | call hpc => exact .keep (calls_holds hpc) Iff.rfl
  | try_locked h | locked h | exchanged h => exact .acquire h hlocked rfl
  | swapped h => exact .acquire h hcontended rfl
  | swap_failed h => exact .keep rfl ⟨fun h => absurd h hcontended, fun h' => absurd h' h⟩
  | @unlock u h => exact .release rfl rfl (done_holds u)
  | unlock_contended h => exact .release rfl rfl rfl
  | @wake u => exact .keep (done_holds u) Iff.rfl
  | _ => exact .keep rfl Iff.rfl

/-- A sleeper that goes on holds the mutex if it did before. -/
theorem resume_holds {l : Loc} (h : th.SleepsAt code l) (b : Bool) :
    (th.resume code b).pc.holds = th.pc.holds := by
  obtain ⟨pc, asleep⟩ := th
  obtain ⟨-, blocks, timed, k, hcode⟩ := h
  rw [Thread.resume_eq hcode]
  cases pc with
  | futex_wait | condvar_wait =>
    cases hcode
    rfl
  | notify_wake all held => cases all <;> cases hcode
  | _ => cases hcode

/-- **Mutual exclusion**, and the mutex is locked exactly while a thread holds it. -/
structure Exclusive (s : State Tid Mem Pc) : Prop where
  unique : ∀ t u, Holds s t → Holds s u → t = u
  locked : s.mem.mutex ≠ UNLOCKED ↔ ∃ t, Holds s t

theorem exclusive_init : Exclusive (init : State Tid Mem Pc) :=
  ⟨fun _ _ h => absurd h false_ne_true,
    ⟨fun h => absurd rfl h, fun ⟨_, h⟩ => absurd h false_ne_true⟩⟩

section Steps

variable [DecidableEq Tid] {s s' : State Tid Mem Pc} {t u : Tid}

theorem holds_other (h : Step code s t s') (hu : u ≠ t) : Holds s' u ↔ Holds s u := by
  rw [Holds, Holds]
  rcases h.others hu with heq | ⟨l, hsleeps, heq, -⟩
  · rw [heq]
  · rw [heq, resume_holds hsleeps]

theorem Exclusive.step (hs : Exclusive s) (h : Step code s t s') : Exclusive s' := by
  cases own_change h.own with
  | acquire hfree hlocked hheld =>
    have hnone (u : Tid) (hu : u ≠ t) : ¬ Holds s' u := by
      rw [holds_other h hu]
      exact fun hheld => absurd hfree (hs.locked.mpr ⟨u, hheld⟩)
    refine ⟨fun u v hu hv => ?_, fun _ => ⟨t, hheld⟩, fun _ => hlocked⟩
    rw [not_imp_not.mp (hnone u) hu, not_imp_not.mp (hnone v) hv]
  | release hheld hfree hheld' =>
    have hnone (u : Tid) : ¬ Holds s' u := by
      intro hu
      by_cases hut : u = t
      · subst hut
        exact absurd (hheld'.symm.trans hu) false_ne_true
      · exact hut (hs.unique u t ((holds_other h hut).mp hu) hheld)
    exact ⟨fun u v hu => absurd hu (hnone u), fun hne => absurd hfree hne,
      fun ⟨u, hu⟩ => absurd hu (hnone u)⟩
  | keep hheld hfree =>
    have hsame (u : Tid) : Holds s' u ↔ Holds s u := by
      by_cases hut : u = t
      · subst hut
        rw [Holds, Holds, hheld]
      · exact holds_other h hut
    refine ⟨fun u v hu hv => hs.unique u v ((hsame u).mp hu) ((hsame v).mp hv), ?_⟩
    rw [ne_eq, not_congr hfree, ← ne_eq, hs.locked]
    exact exists_congr fun u => (hsame u).symm

end Steps

/-! ## No lost wake-up -/

/-- Places of a thread that is going to mark the mutex as contended again, or to wake a sleeper. -/
def Pc.restores : Pc → Bool
  | .spin _ true _ | .swap _ | .futex_wait _ | .wake _ => true
  | _ => false

/-- A thread that is awake and does so. -/
def Restores (th : Thread Pc) : Prop := th.asleep = false ∧ th.pc.restores = true

theorem own_restores (hown : Own code m th m' th') (h : Restores th) :
    Restores th' ∨ m'.mutex = CONTENDED ∨ ∃ u, th.pc = .wake u := by
  obtain ⟨-, hpc⟩ := h
  cases own_move hown with
  | spun | spun_contended | pass | resume => exact .inl ⟨rfl, rfl⟩
  | @spin c slept n _ =>
    cases slept with
    | false => exact absurd hpc false_ne_true
    | true => exact .inl ⟨rfl, rfl⟩
  | swapped | swap_failed => exact .inr (.inl rfl)
  | sleep h => exact .inr (.inl h)
  | @wake u => exact .inr (.inr ⟨u, rfl⟩)
  | _ => exact absurd hpc false_ne_true

/-- **The mark is dropped** by a thread that wakes a sleeper. -/
theorem own_contended (hown : Own code m th m' th') (h : m.mutex = CONTENDED) :
    m'.mutex = CONTENDED ∨ Restores th' := by
  have hne : CONTENDED ≠ UNLOCKED := by decide
  cases own_move hown with
  | try_locked hfree | locked hfree | exchanged hfree => exact absurd (h.symm.trans hfree) hne
  | swapped | swap_failed => exact .inl rfl
  | unlock hcontended => exact absurd h hcontended
  | unlock_contended _ => exact .inr ⟨rfl, rfl⟩
  | _ => exact .inl h

theorem sleepsAt_mutex (h : th.SleepsAt code .mutex) : ∃ c, th = ⟨.futex_wait c, true⟩ := by
  obtain ⟨pc, asleep⟩ := th
  obtain ⟨rfl, blocks, timed, k, hcode⟩ := h
  cases pc with
  | futex_wait c => exact ⟨c, rfl⟩
  | notify_wake all held => cases all <;> cases hcode
  | _ => cases hcode

/-- Only a mutex that is contended makes a thread sleep. -/
theorem own_sleeps (hown : Own code m th m' th') (h : th'.SleepsAt code .mutex) :
    m'.mutex = CONTENDED := by
  obtain ⟨c, hc⟩ := sleepsAt_mutex h
  cases own_move hown with
  | sleep hcontended => exact hcontended
  | condvar_sleep _ => cases hc
  | _ => exact absurd (congrArg Thread.asleep hc) false_ne_true

/-- **Who sleeps will be woken up**: the mutex is marked, or a thread that is awake sees to it. -/
def NoneLost (s : State Tid Mem Pc) : Prop :=
  (∃ t, (s.threads t).SleepsAt code .mutex) → s.mem.mutex = CONTENDED ∨ ∃ t, Restores (s.threads t)

theorem noneLost_init : NoneLost (init : State Tid Mem Pc) :=
  fun ⟨_, h⟩ => absurd h.1 false_ne_true

section Steps

variable [DecidableEq Tid] {s s' : State Tid Mem Pc} {t : Tid}

theorem NoneLost.step (hs : NoneLost s) (h : Step code s t s') : NoneLost s' := by
  rintro ⟨v, hv⟩
  by_cases hvt : v = t
  · subst hvt
    exact .inl (own_sleeps h.own hv)
  -- The sleeper slept before.
  have hv' : (s.threads v).SleepsAt code .mutex := by rwa [h.other_asleep hvt hv.1] at hv
  rcases hs ⟨v, hv'⟩ with hcontended | ⟨r, hr⟩
  · exact (own_contended h.own hcontended).imp_right fun ht => ⟨t, ht⟩
  by_cases hrt : r = t
  · subst hrt
    rcases own_restores h.own hr with ht | hcontended | ⟨u, hu⟩
    · exact .inr ⟨r, ht⟩
    · exact .inl hcontended
    · obtain ⟨w, -, hw, heq⟩ := h.wakes_one hr.1 (by rw [hu]; rfl) hv'
      obtain ⟨c, hc⟩ := sleepsAt_mutex hw
      refine .inr ⟨w, ?_⟩
      rw [heq, hc]
      exact ⟨rfl, rfl⟩
  · exact .inr ⟨r, by rwa [h.other_awake hrt hr.1]⟩

/-! ## The mutex -/

variable (hs : Reachable code init s)
include hs

theorem exclusive : Exclusive s :=
  Run.inv (fun _ _ _ h hstep _ => h.step hstep) hs exclusive_init

/-- No thread can take a step: each is between two calls, or sleeps. -/
def Finished (s : State Tid Mem Pc) : Prop :=
  ∀ t, (∃ held, s.threads t = ⟨.idle held, false⟩) ∨ (s.threads t).asleep = true

/-- **No lost wake-up**: when the mutex is free and no thread runs, no thread sleeps in `lock`. -/
theorem none_lost (hfree : s.mem.mutex = UNLOCKED) (hfinished : Finished s) (t : Tid) :
    ¬ (s.threads t).SleepsAt code .mutex := by
  intro ht
  have hinv : NoneLost s := Run.inv (fun _ _ _ h hstep _ => h.step hstep) hs noneLost_init
  rcases hinv ⟨t, ht⟩ with hcontended | ⟨r, hawake, hpc⟩
  · rw [hfree] at hcontended
    exact absurd hcontended (by decide)
  · rcases hfinished r with ⟨held, heq⟩ | hasleep
    · rw [heq] at hpc
      exact absurd hpc false_ne_true
    · exact absurd (hawake.symm.trans hasleep) false_ne_true

end Steps

end RustStd.Sync.Mutex
