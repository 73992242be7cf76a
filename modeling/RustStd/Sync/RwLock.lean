import RustStd.Foundations.Threads
import Mathlib.Data.UInt

/-!
# The futex read-write lock

`std/src/sys/sync/rwlock/futex.rs` as the code of threads with atomic accesses. A thread can hold
any number of read guards. A failed assertion ends in the place `failed`, the panic of `read` in
`panicked`.
-/

namespace RustStd.Sync.RwLock

open Threads

def READ_LOCKED : ℕ := 1

def MASK : ℕ := 2 ^ 30 - 1

def WRITE_LOCKED : ℕ := MASK

/-- `+` of `u32` -/
def add (a b : ℕ) : ℕ := (a + b) % 2 ^ 32

/-- `-` of `u32` -/
def sub (a b : ℕ) : ℕ := (a + 2 ^ 32 - b) % 2 ^ 32

def DOWNGRADE : ℕ := sub READ_LOCKED WRITE_LOCKED

def MAX_READERS : ℕ := MASK - 1

def READERS_WAITING : ℕ := 2 ^ 30

def WRITERS_WAITING : ℕ := 2 ^ 31

def is_unlocked (state : ℕ) : Bool := state &&& MASK == 0

def is_write_locked (state : ℕ) : Bool := state &&& MASK == WRITE_LOCKED

def has_readers_waiting (state : ℕ) : Bool := state &&& READERS_WAITING != 0

def has_writers_waiting (state : ℕ) : Bool := state &&& WRITERS_WAITING != 0

def is_read_lockable (state : ℕ) : Bool :=
  decide (state &&& MASK < MAX_READERS) && ! has_readers_waiting state &&
    ! has_writers_waiting state

def is_read_lockable_after_wakeup (state : ℕ) : Bool :=
  decide (state &&& MASK < MAX_READERS) && ! has_readers_waiting state &&
    ! is_write_locked state && ! is_unlocked state

def has_reached_max_readers (state : ℕ) : Bool := state &&& MASK == MAX_READERS

/-- The fields of the lock. -/
structure Mem where
  state : ℕ
  writer_notify : UInt32
  /-- How often `writer_notify` was incremented. -/
  notified : ℕ

inductive Loc
  | state
  | writer_notify
  deriving DecidableEq

/-- What a thread holds. -/
structure Guards where
  readers : ℕ
  writer : Bool

/-- The places in the code. -/
inductive Pc
  /-- Between two calls. -/
  | idle (g : Guards)
  /-- Behind the panic of `read`. -/
  | panicked (g : Guards)
  /-- Behind a failed assertion. -/
  | failed (g : Guards)
  | try_read (g : Guards)
  | try_read_exchange (g : Guards) (state : ℕ)
  | read (g : Guards)
  | read_exchange (g : Guards) (state : ℕ)
  | spin_read (g : Guards) (has_slept : Bool) (spin : ℕ)
  | read_contended_exchange (g : Guards) (has_slept : Bool) (state : ℕ)
  /-- Setting `READERS_WAITING`. -/
  | read_waiting (g : Guards) (has_slept : Bool) (state : ℕ)
  | read_wait (g : Guards) (expected : ℕ)
  | read_unlock (g : Guards)
  | try_write (g : Guards)
  | try_write_exchange (g : Guards) (state : ℕ)
  | write (g : Guards)
  /-- With `other_writers_waiting` set or not, here and below. -/
  | spin_write (g : Guards) (others : Bool) (spin : ℕ)
  | write_contended_exchange (g : Guards) (others : Bool) (state : ℕ)
  /-- Setting `WRITERS_WAITING`. -/
  | write_waiting (g : Guards) (others : Bool) (state : ℕ)
  /-- Reading `writer_notify`. -/
  | write_seq (g : Guards)
  /-- Reading `state` behind it, with the value of `notified` that was read. -/
  | write_check (g : Guards) (seq : UInt32) (start : ℕ)
  | write_wait (g : Guards) (seq : UInt32) (start : ℕ)
  | write_unlock (g : Guards)
  | downgrade (g : Guards)
  | downgrade_readers (g : Guards)
  | downgrade_wake (g : Guards)
  /-- The `compare_exchange` for `WRITERS_WAITING` alone. -/
  | wake_writers (g : Guards)
  /-- The one for both. -/
  | wake_both (g : Guards)
  /-- The one for `READERS_WAITING` alone. -/
  | wake_readers (g : Guards)
  | wake_all_readers (g : Guards)
  /-- The `fetch_add` of `wake_writer`, with readers that wait too or without. -/
  | wake_writer (g : Guards) (readers : Bool)
  | wake_writer_wake (g : Guards) (readers : Bool)

/-- `compare_exchange` of the state. -/
def exchange (expected new : ℕ) (ok : Pc) (err : ℕ → Pc) : Access Mem Loc Pc :=
  .exchange (fun m => m.state = expected) (fun m => { m with state := new }) (fun _ => ok)
    fun m => err m.state

/-- `compare_exchange_weak` -/
def exchange_weak (expected new : ℕ) (ok : Pc) (err : ℕ → Pc) : Access Mem Loc Pc :=
  .exchange_weak (fun m => m.state = expected) (fun m => { m with state := new }) (fun _ => ok)
    fun m => err m.state

def Guards.read (g : Guards) : Guards := { g with readers := g.readers + 1 }

def Guards.unread (g : Guards) : Guards := { g with readers := g.readers - 1 }

def Guards.write (g : Guards) : Guards := { g with writer := true }

def Guards.unwrite (g : Guards) : Guards := { g with writer := false }

/-- The loop of `fetch_update` in `try_read`. -/
def try_read_loop (g : Guards) (state : ℕ) : Pc :=
  if is_read_lockable state then .try_read_exchange g state else .idle g

/-- The loop of `read_contended`. -/
def read_contended (g : Guards) (has_slept : Bool) (state : ℕ) : Pc :=
  if has_slept && is_read_lockable_after_wakeup state || is_read_lockable state then
    .read_contended_exchange g has_slept state
  else if has_reached_max_readers state then .panicked g
  else if ! has_readers_waiting state then .read_waiting g has_slept state
  else .read_wait g (state ||| READERS_WAITING)

/-- The loop of `fetch_update` in `try_write`. -/
def try_write_loop (g : Guards) (state : ℕ) : Pc :=
  if is_unlocked state then .try_write_exchange g state else .idle g

/-- The loop of `write_contended`. -/
def write_contended (g : Guards) (others : Bool) (state : ℕ) : Pc :=
  if is_unlocked state then .write_contended_exchange g others state
  else if ! has_writers_waiting state then .write_waiting g others state
  else .write_seq g

/-- The last part of `wake_writer_or_readers`. -/
def wake_waiting_readers (g : Guards) (state : ℕ) : Pc :=
  if state = READERS_WAITING then .wake_readers g else .idle g

/-- The part behind the first `compare_exchange`. -/
def wake_waiting_both (g : Guards) (state : ℕ) : Pc :=
  if state = READERS_WAITING + WRITERS_WAITING then .wake_both g else wake_waiting_readers g state

def wake_writer_or_readers (g : Guards) (state : ℕ) : Pc :=
  if ! is_unlocked state then .failed g
  else if state = WRITERS_WAITING then .wake_writers g
  else wake_waiting_both g state

/-- Behind the `fetch_sub` of `read_unlock`. -/
def read_unlock_end (g : Guards) (state : ℕ) : Pc :=
  if has_readers_waiting state && ! has_writers_waiting state then .failed g
  else if is_unlocked state && has_writers_waiting state then wake_writer_or_readers g state
  else .idle g

/-- Behind the `fetch_sub` of `write_unlock`. -/
def write_unlock_end (g : Guards) (state : ℕ) : Pc :=
  if ! is_unlocked state then .failed g
  else if has_writers_waiting state || has_readers_waiting state then wake_writer_or_readers g state
  else .idle g

/-- Behind the `fetch_add` of `downgrade`, with the state before. -/
def downgrade_end (g : Guards) (state : ℕ) : Pc :=
  if ! is_write_locked state then .failed g
  else if has_readers_waiting state then .downgrade_readers g
  else .idle g

/-- The calls of a thread with these guards. -/
def calls (g : Guards) : List Pc :=
  [.try_read g, .read g, .try_write g, .write g] ++
    (if 0 < g.readers then [.read_unlock g] else []) ++
      if g.writer then [.write_unlock g, .downgrade g] else []

/-- **The code.** -/
def code : Pc → Access Mem Loc Pc
  | .idle g => .choose (calls g)
  | .panicked g => .choose [.idle g]
  | .failed _ => .choose []
  | .try_read g => .load fun m => try_read_loop g m.state
  | .try_read_exchange g state =>
      exchange_weak state (add state READ_LOCKED) (.idle g.read) (try_read_loop g)
  | .read g => .load fun m =>
      if ! is_read_lockable m.state then .spin_read g false 100 else .read_exchange g m.state
  | .read_exchange g state =>
      exchange_weak state (add state READ_LOCKED) (.idle g.read) fun _ => .spin_read g false 100
  | .spin_read g has_slept spin => .load fun m =>
      if (! is_write_locked m.state || has_readers_waiting m.state ||
        has_writers_waiting m.state) || spin == 0
      then read_contended g has_slept m.state else .spin_read g has_slept (spin - 1)
  | .read_contended_exchange g has_slept state =>
      exchange_weak state (add state READ_LOCKED) (.idle g.read) (read_contended g has_slept)
  | .read_waiting g has_slept state =>
      exchange state (state ||| READERS_WAITING) (.read_wait g (state ||| READERS_WAITING))
        (read_contended g has_slept)
  | .read_wait g expected => .wait .state (fun m => m.state == expected) false fun _ =>
      .spin_read g true 100
  | .read_unlock g => .rmw (fun m => { m with state := sub m.state READ_LOCKED }) fun m =>
      read_unlock_end g.unread (sub m.state READ_LOCKED)
  | .try_write g => .load fun m => try_write_loop g m.state
  | .try_write_exchange g state =>
      exchange_weak state (add state WRITE_LOCKED) (.idle g.write) (try_write_loop g)
  | .write g => exchange_weak 0 WRITE_LOCKED (.idle g.write) fun _ => .spin_write g false 100
  | .spin_write g others spin => .load fun m =>
      if (is_unlocked m.state || has_writers_waiting m.state) || spin == 0
      then write_contended g others m.state else .spin_write g others (spin - 1)
  | .write_contended_exchange g others state =>
      exchange_weak state (state ||| WRITE_LOCKED ||| if others then WRITERS_WAITING else 0)
        (.idle g.write) (write_contended g others)
  | .write_waiting g others state =>
      exchange state (state ||| WRITERS_WAITING) (.write_seq g) (write_contended g others)
  | .write_seq g => .load fun m => .write_check g m.writer_notify m.notified
  | .write_check g seq start => .load fun m =>
      if is_unlocked m.state || ! has_writers_waiting m.state then write_contended g true m.state
      else .write_wait g seq start
  | .write_wait g seq _ => .wait .writer_notify (fun m => m.writer_notify == seq) false fun _ =>
      .spin_write g true 100
  | .write_unlock g => .rmw (fun m => { m with state := sub m.state WRITE_LOCKED }) fun m =>
      write_unlock_end g.unwrite (sub m.state WRITE_LOCKED)
  | .downgrade g => .rmw (fun m => { m with state := add m.state DOWNGRADE }) fun m =>
      downgrade_end g.unwrite.read m.state
  | .downgrade_readers g => .rmw (fun m => { m with state := sub m.state READERS_WAITING }) fun _ =>
      .downgrade_wake g
  | .downgrade_wake g => .wake_all .state (.idle g)
  | .wake_writers g => exchange WRITERS_WAITING 0 (.wake_writer g false) (wake_waiting_both g)
  | .wake_both g =>
      exchange (READERS_WAITING + WRITERS_WAITING) READERS_WAITING (.wake_writer g true) fun _ =>
        .idle g
  | .wake_readers g => exchange READERS_WAITING 0 (.wake_all_readers g) fun _ => .idle g
  | .wake_all_readers g => .wake_all .state (.idle g)
  | .wake_writer g readers =>
      .rmw (fun m => { m with writer_notify := m.writer_notify + 1, notified := m.notified + 1 })
        fun _ => .wake_writer_wake g readers
  | .wake_writer_wake g readers => .wake .writer_notify fun woken =>
      if readers && ! woken then .wake_readers g else .idle g

variable {Tid : Type}

/-- `RwLock::new`, before any call. -/
def init : State Tid Mem Pc := ⟨⟨0, 0, 0⟩, fun _ => ⟨.idle ⟨0, false⟩, false⟩⟩

end RustStd.Sync.RwLock
