import RustStd.Sync.RwLock
import Mathlib.Data.Nat.Bitwise

/-!
# The steps of the read-write lock

The state of the lock as its three parts (`Bits`), and the steps of a thread on them (`Move`). The
code takes these steps as long as its counter and its bits are what they should be (`own_move`).
-/

namespace RustStd.Sync.RwLock

open Threads Nat

/-! ## The parts of the state -/

/-- The counter and the two bits. -/
@[ext]
structure Bits where
  count : ℕ
  readers : Bool
  writers : Bool
  deriving DecidableEq

def bits (s : ℕ) : Bits := ⟨s % 2 ^ 30, s.testBit 30, s.testBit 31⟩

variable {s s' : ℕ}

theorem and_mask (s : ℕ) : s &&& MASK = (bits s).count := and_two_pow_sub_one_eq_mod s 30

theorem count_le (s : ℕ) : (bits s).count ≤ MASK := le_of_lt_succ (mod_lt s (by decide))

@[simp] theorem is_unlocked_iff : is_unlocked s = true ↔ (bits s).count = 0 := by
  rw [is_unlocked, and_mask, beq_iff_eq]

@[simp] theorem is_write_locked_iff : is_write_locked s = true ↔ (bits s).count = MASK := by
  rw [is_write_locked, and_mask, beq_iff_eq]
  rfl

theorem and_two_pow_ne_zero (s i : ℕ) : (s &&& 2 ^ i != 0) = s.testBit i := by
  rw [and_two_pow]
  cases s.testBit i with
  | false | true => simp

@[simp] theorem has_readers_waiting_eq (s : ℕ) : has_readers_waiting s = (bits s).readers :=
  and_two_pow_ne_zero s 30

@[simp] theorem has_writers_waiting_eq (s : ℕ) : has_writers_waiting s = (bits s).writers :=
  and_two_pow_ne_zero s 31

@[simp] theorem is_read_lockable_iff : is_read_lockable s = true ↔
    (bits s).count < MAX_READERS ∧ (bits s).readers = false ∧ (bits s).writers = false := by
  simp [is_read_lockable, and_mask, and_assoc]

@[simp] theorem is_read_lockable_after_wakeup_iff : is_read_lockable_after_wakeup s = true ↔
    (bits s).count < MAX_READERS ∧ (bits s).readers = false ∧ (bits s).count ≠ MASK ∧
      (bits s).count ≠ 0 := by
  rw [is_read_lockable_after_wakeup, Bool.and_eq_true, Bool.and_eq_true, Bool.and_eq_true,
    Bool.not_eq_true', Bool.not_eq_true', Bool.not_eq_true', decide_eq_true_iff, and_mask,
    has_readers_waiting_eq, ← Bool.not_eq_true, ← Bool.not_eq_true, ← Bool.not_eq_true,
    is_write_locked_iff, is_unlocked_iff, Bool.not_eq_true, and_assoc, and_assoc]

@[simp] theorem has_reached_max_readers_iff :
    has_reached_max_readers s = true ↔ (bits s).count = MAX_READERS := by
  rw [has_reached_max_readers, and_mask, beq_iff_eq]

theorem testBit_thirty (s : ℕ) : s.testBit 30 = decide (s / 2 ^ 30 % 2 = 1) :=
  testBit_eq_decide_div_mod_eq

theorem testBit_thirty_one (s : ℕ) : s.testBit 31 = decide (s / 2 ^ 31 % 2 = 1) :=
  testBit_eq_decide_div_mod_eq

/-- **The parts make the state.** -/
theorem bits_inj (hs : s < 2 ^ 32) (hs' : s' < 2 ^ 32) (h : bits s = bits s') : s = s' := by
  obtain ⟨hcount, hreaders, hwriters⟩ := Bits.mk.inj h
  rw [testBit_thirty, testBit_thirty, decide_eq_decide] at hreaders
  rw [testBit_thirty_one, testBit_thirty_one, decide_eq_decide] at hwriters
  lia

/-- A reader more. -/
theorem bits_add_reader (h : (bits s).count < MAX_READERS) :
    bits (add s READ_LOCKED) = { bits s with count := (bits s).count + 1 } := by
  have h' : s % 2 ^ 30 < 2 ^ 30 - 2 := h
  simp only [bits, add, READ_LOCKED, testBit_thirty, testBit_thirty_one, Bits.mk.injEq,
    decide_eq_decide]
  refine ⟨?_, ?_, ?_⟩ <;> lia

/-- A reader less. -/
theorem bits_sub_reader (hs : s < 2 ^ 32) (h : 0 < (bits s).count) :
    bits (sub s READ_LOCKED) = { bits s with count := (bits s).count - 1 } := by
  have h' : 0 < s % 2 ^ 30 := h
  simp only [bits, sub, READ_LOCKED, testBit_thirty, testBit_thirty_one, Bits.mk.injEq,
    decide_eq_decide]
  refine ⟨?_, ?_, ?_⟩ <;> lia

/-- The writer comes. -/
theorem bits_add_writer (h : (bits s).count = 0) :
    bits (add s WRITE_LOCKED) = { bits s with count := MASK } := by
  have h' : s % 2 ^ 30 = 0 := h
  simp only [bits, add, WRITE_LOCKED, MASK, testBit_thirty, testBit_thirty_one, Bits.mk.injEq,
    decide_eq_decide]
  refine ⟨?_, ?_, ?_⟩ <;> lia

/-- The writer goes. -/
theorem bits_sub_writer (hs : s < 2 ^ 32) (h : (bits s).count = MASK) :
    bits (sub s WRITE_LOCKED) = { bits s with count := 0 } := by
  have h' : s % 2 ^ 30 = 2 ^ 30 - 1 := h
  simp only [bits, sub, WRITE_LOCKED, MASK, testBit_thirty, testBit_thirty_one, Bits.mk.injEq,
    decide_eq_decide]
  refine ⟨?_, ?_, ?_⟩ <;> lia

/-- The writer becomes a reader. -/
theorem bits_downgrade (h : (bits s).count = MASK) :
    bits (add s DOWNGRADE) = { bits s with count := 1 } := by
  have h' : s % 2 ^ 30 = 2 ^ 30 - 1 := h
  simp only [bits, add, DOWNGRADE, sub, READ_LOCKED, WRITE_LOCKED, MASK, testBit_thirty,
    testBit_thirty_one, Bits.mk.injEq, decide_eq_decide]
  refine ⟨?_, ?_, ?_⟩ <;> lia

theorem bits_sub_readers_waiting (hs : s < 2 ^ 32) (h : (bits s).readers = true) :
    bits (sub s READERS_WAITING) = { bits s with readers := false } := by
  have h' : s / 2 ^ 30 % 2 = 1 := by
    rw [bits, testBit_thirty] at h
    exact of_decide_eq_true h
  simp only [bits, sub, READERS_WAITING, testBit_thirty, testBit_thirty_one, Bits.mk.injEq,
    decide_eq_decide, decide_eq_false_iff_not]
  refine ⟨?_, ?_, ?_⟩ <;> lia

theorem bits_or (s s' : ℕ) (h : (bits s).count = 0 ∨ (bits s').count = 0) : bits (s ||| s') =
    ⟨(bits s).count + (bits s').count, (bits s).readers || (bits s').readers,
      (bits s).writers || (bits s').writers⟩ := by
  have hcount : (s ||| s') % 2 ^ 30 = s % 2 ^ 30 + s' % 2 ^ 30 := by
    rw [or_mod_two_pow]
    rcases h with h | h
    · rw [show s % 2 ^ 30 = 0 from h, zero_or, zero_add]
    · rw [show s' % 2 ^ 30 = 0 from h, or_zero, add_zero]
  rw [bits, hcount, testBit_or, testBit_or]
  rfl

theorem bits_or_readers_waiting (s : ℕ) :
    bits (s ||| READERS_WAITING) = { bits s with readers := true } := by
  rw [bits_or s _ (.inr rfl)]
  ext <;> simp [show bits READERS_WAITING = ⟨0, true, false⟩ from rfl]

theorem bits_or_writers_waiting (s : ℕ) :
    bits (s ||| WRITERS_WAITING) = { bits s with writers := true } := by
  rw [bits_or s _ (.inr rfl)]
  ext <;> simp [show bits WRITERS_WAITING = ⟨0, false, true⟩ from rfl]

/-- The writer comes, and keeps the bit of the others. -/
theorem bits_or_writer (h : (bits s).count = 0) (others : Bool) :
    bits (s ||| WRITE_LOCKED ||| if others then WRITERS_WAITING else 0) =
      ⟨MASK, (bits s).readers, (bits s).writers || others⟩ := by
  have hlock := bits_or s WRITE_LOCKED (.inl h)
  rw [show bits WRITE_LOCKED = ⟨MASK, false, false⟩ by decide, h, zero_add, Bool.or_false,
    Bool.or_false] at hlock
  cases others with
  | false => simpa using hlock
  | true => rw [if_pos rfl, bits_or_writers_waiting, hlock, Bool.or_true]

/-! ## The places -/

def Pc.guards : Pc → Guards
  | .idle g | .panicked g | .failed g | .try_read g | .try_read_exchange g _ | .read g
  | .read_exchange g _ | .spin_read g _ _ | .read_contended_exchange g _ _ | .read_waiting g _ _
  | .read_wait g _ | .read_unlock g | .try_write g | .try_write_exchange g _ | .write g
  | .spin_write g _ _ | .write_contended_exchange g _ _ | .write_waiting g _ _ | .write_seq g
  | .write_check g _ _ | .write_wait g _ _ | .write_unlock g | .downgrade g | .downgrade_readers g
  | .downgrade_wake g | .wake_writers g | .wake_both g | .wake_readers g | .wake_all_readers g
  | .wake_writer g _ | .wake_writer_wake g _ => g

/-- Neither waking somebody nor about to sleep as a writer. -/
def Pc.plain : Pc → Bool
  | .failed _ | .write_wait .. | .downgrade_readers _ | .downgrade_wake _ | .wake_writers _
  | .wake_both _ | .wake_readers _ | .wake_all_readers _ | .wake_writer .. | .wake_writer_wake .. =>
      false
  | _ => true

/-- A writer in `write_contended` that locks a lock that stays free. -/
def Pc.contending : Pc → Bool
  | .spin_write .. | .write_contended_exchange .. | .write_waiting .. | .write_seq _
  | .write_check .. => true
  | _ => false

/-- A thread that sets `WRITERS_WAITING` again, or wakes a writer. -/
def Pc.restoring : Pc → Bool
  | .spin_write _ others _ | .write_contended_exchange _ others _ | .write_waiting _ others _ =>
      others
  | .write_seq _ | .write_check .. | .write_wait .. | .wake_writer .. | .wake_writer_wake .. => true
  | _ => false

/-- Locking as a writer. -/
def Pc.locks : Pc → Bool
  | .try_write_exchange .. | .write _ | .write_contended_exchange .. => true
  | _ => false

/-- What a writer has read of the notifications. -/
def Pc.waiting : Pc → Option (UInt32 × ℕ)
  | .write_check _ seq start | .write_wait _ seq start => some (seq, start)
  | _ => none

/-- What holds at a place, whatever the others do. -/
def Pc.Ok : Pc → Prop
  | .failed _ => False
  | .try_read_exchange _ s | .read_exchange _ s | .read_contended_exchange _ _ s =>
      (bits s).count < MAX_READERS ∧ (bits s).readers = false
  | .read_waiting _ _ s =>
      (bits s).readers = false ∧ ((bits s).count = MASK ∨ (bits s).writers = true)
  | .read_wait _ s => (bits s).readers = true
  | .read_unlock g | .downgrade_readers g => 0 < g.readers
  | .try_write_exchange _ s | .write_contended_exchange _ _ s => (bits s).count = 0
  | .write_waiting _ _ s => (bits s).count ≠ 0 ∧ (bits s).writers = false
  | .write_unlock g | .downgrade g => g.writer = true
  | _ => True

/-- A step between two plain places that changes nothing. -/
structure Quiet (b : Bits) (pc pc' : Pc) : Prop where
  plain : pc.plain = true
  plain' : pc'.plain = true
  /-- The panic of `read`. -/
  panicked : ∀ g, pc' = .panicked g → b.count = MAX_READERS
  /-- Reading `writer_notify`. -/
  waiting : pc'.waiting = none ∨ ∃ g, pc = .write_seq g
  guards : pc'.guards = pc.guards
  contending : pc.contending = true → pc'.contending = true
  restoring : pc.restoring = true → pc'.restoring = true
  ok : pc'.Ok

/-- What the steps of a thread need. -/
structure Safe (b : Bits) (pc : Pc) : Prop where
  ok : pc.Ok
  read_unlock : ∀ g, pc = .read_unlock g → 0 < b.count ∧ (b.readers = true → b.writers = true)
  write_unlock : ∀ g, pc = .write_unlock g → b.count = MASK
  downgrade : ∀ g, pc = .downgrade g → b.count = MASK
  downgrade_readers : ∀ g, pc = .downgrade_readers g → b.readers = true ∧ b.count = 1

/-- **The steps of a thread**, on the parts of the state. -/
inductive Move (b : Bits) : Thread Pc → Bits → Thread Pc → Prop
  | quiet {pc pc' : Pc} (h : Quiet b pc pc') : Move b ⟨pc, false⟩ b ⟨pc', false⟩
  /-- A read lock. -/
  | read {pc : Pc} (hplain : pc.plain = true) (hcontending : pc.contending = false)
      (hrestoring : pc.restoring = false) (hcount : b.count < MAX_READERS)
      (hreaders : b.readers = false) :
      Move b ⟨pc, false⟩ { b with count := b.count + 1 } ⟨.idle pc.guards.read, false⟩
  | mark_readers {g : Guards} {has_slept : Bool} {s s' : ℕ} (hreaders : b.readers = false)
      (h : b.count = MASK ∨ b.writers = true) (hok : (Pc.read_wait g s').Ok) :
      Move b ⟨.read_waiting g has_slept s, false⟩ { b with readers := true }
        ⟨.read_wait g s', false⟩
  | read_sleep {g : Guards} {s : ℕ} (hreaders : b.readers = true) :
      Move b ⟨.read_wait g s, false⟩ b ⟨.read_wait g s, true⟩
  | read_resume {g : Guards} {s : ℕ} :
      Move b ⟨.read_wait g s, true⟩ b ⟨.spin_read g true 100, false⟩
  | read_unlock {g : Guards} (hcount : 0 < b.count) (h : b.count = 1 → b.writers = false) :
      Move b ⟨.read_unlock g, false⟩ { b with count := b.count - 1 } ⟨.idle g.unread, false⟩
  /-- The last reader goes while writers wait. -/
  | read_unlock_writers {g : Guards} (h : b = ⟨1, false, true⟩) :
      Move b ⟨.read_unlock g, false⟩ ⟨0, false, true⟩ ⟨.wake_writers g.unread, false⟩
  | read_unlock_both {g : Guards} (h : b = ⟨1, true, true⟩) :
      Move b ⟨.read_unlock g, false⟩ ⟨0, true, true⟩ ⟨.wake_both g.unread, false⟩
  /-- A write lock, which may keep the bit of the other writers. -/
  | write {pc : Pc} (hlocks : pc.locks = true) (hcount : b.count = 0) :
      Move b ⟨pc, false⟩ ⟨MASK, b.readers, b.writers || pc.restoring⟩
        ⟨.idle pc.guards.write, false⟩
  | mark_writers {g : Guards} {others : Bool} {s : ℕ} (hcount : b.count ≠ 0)
      (hwriters : b.writers = false) :
      Move b ⟨.write_waiting g others s, false⟩ { b with writers := true } ⟨.write_seq g, false⟩
  | write_check {g : Guards} {seq : UInt32} {start : ℕ} (hcount : b.count ≠ 0)
      (hwriters : b.writers = true) :
      Move b ⟨.write_check g seq start, false⟩ b ⟨.write_wait g seq start, false⟩
  | write_sleep {g : Guards} {seq : UInt32} {start : ℕ} :
      Move b ⟨.write_wait g seq start, false⟩ b ⟨.write_wait g seq start, true⟩
  | write_resume {g : Guards} {seq : UInt32} {start : ℕ} (asleep : Bool) :
      Move b ⟨.write_wait g seq start, asleep⟩ b ⟨.spin_write g true 100, false⟩
  | write_unlock {g : Guards} (h : b = ⟨MASK, false, false⟩) :
      Move b ⟨.write_unlock g, false⟩ ⟨0, false, false⟩ ⟨.idle g.unwrite, false⟩
  | write_unlock_writers {g : Guards} (h : b = ⟨MASK, false, true⟩) :
      Move b ⟨.write_unlock g, false⟩ ⟨0, false, true⟩ ⟨.wake_writers g.unwrite, false⟩
  | write_unlock_both {g : Guards} (h : b = ⟨MASK, true, true⟩) :
      Move b ⟨.write_unlock g, false⟩ ⟨0, true, true⟩ ⟨.wake_both g.unwrite, false⟩
  | write_unlock_readers {g : Guards} (h : b = ⟨MASK, true, false⟩) :
      Move b ⟨.write_unlock g, false⟩ ⟨0, true, false⟩ ⟨.wake_readers g.unwrite, false⟩
  | downgrade {g : Guards} (hcount : b.count = MASK) (hreaders : b.readers = false) :
      Move b ⟨.downgrade g, false⟩ { b with count := 1 } ⟨.idle g.unwrite.read, false⟩
  | downgrade_waiting {g : Guards} (hcount : b.count = MASK) (hreaders : b.readers = true) :
      Move b ⟨.downgrade g, false⟩ { b with count := 1 } ⟨.downgrade_readers g.unwrite.read, false⟩
  | downgrade_readers {g : Guards} (hreaders : b.readers = true) (hcount : b.count = 1) :
      Move b ⟨.downgrade_readers g, false⟩ { b with readers := false } ⟨.downgrade_wake g, false⟩
  | downgrade_wake {g : Guards} : Move b ⟨.downgrade_wake g, false⟩ b ⟨.idle g, false⟩
  | wake_writers {g : Guards} (h : b = ⟨0, false, true⟩) :
      Move b ⟨.wake_writers g, false⟩ ⟨0, false, false⟩ ⟨.wake_writer g false, false⟩
  /-- Readers wait now too. -/
  | wake_writers_both {g : Guards} (h : b = ⟨0, true, true⟩) :
      Move b ⟨.wake_writers g, false⟩ b ⟨.wake_both g, false⟩
  | wake_writers_readers {g : Guards} (h : b = ⟨0, true, false⟩) :
      Move b ⟨.wake_writers g, false⟩ b ⟨.wake_readers g, false⟩
  /-- The lock got locked, or somebody else wakes the others up. -/
  | wake_writers_done {g : Guards} (h : b.count = 0 → b.writers = false ∧ b.readers = false) :
      Move b ⟨.wake_writers g, false⟩ b ⟨.idle g, false⟩
  | wake_both {g : Guards} (h : b = ⟨0, true, true⟩) :
      Move b ⟨.wake_both g, false⟩ ⟨0, true, false⟩ ⟨.wake_writer g true, false⟩
  | wake_both_done {g : Guards} (h : b ≠ ⟨0, true, true⟩) :
      Move b ⟨.wake_both g, false⟩ b ⟨.idle g, false⟩
  | wake_readers {g : Guards} (h : b = ⟨0, true, false⟩) :
      Move b ⟨.wake_readers g, false⟩ ⟨0, false, false⟩ ⟨.wake_all_readers g, false⟩
  | wake_readers_done {g : Guards} (h : b ≠ ⟨0, true, false⟩) :
      Move b ⟨.wake_readers g, false⟩ b ⟨.idle g, false⟩
  | wake_all_readers {g : Guards} : Move b ⟨.wake_all_readers g, false⟩ b ⟨.idle g, false⟩
  | wake_writer {g : Guards} {readers : Bool} :
      Move b ⟨.wake_writer g readers, false⟩ b ⟨.wake_writer_wake g readers, false⟩
  | wake_writer_wake {g : Guards} {readers : Bool} :
      Move b ⟨.wake_writer_wake g readers, false⟩ b ⟨.idle g, false⟩
  /-- Nobody was woken, as far as one can tell. -/
  | wake_writer_none {g : Guards} :
      Move b ⟨.wake_writer_wake g true, false⟩ b ⟨.wake_readers g, false⟩

/-! ## The loops -/

/-- A place of a reader, or between two calls. -/
structure Pc.Reading (pc : Pc) (g : Guards) : Prop where
  plain : pc.plain = true
  guards : pc.guards = g
  contending : pc.contending = false
  restoring : pc.restoring = false

variable {pc pc' : Pc} {g : Guards} {b : Bits}

theorem quiet_of_reading (h : pc.Reading g) (hplain : pc'.plain = true)
    (hpanicked : ∀ g, pc' = .panicked g → b.count = MAX_READERS) (hwaiting : pc'.waiting = none)
    (hguards : pc'.guards = g) (hok : pc'.Ok) : Quiet b pc pc' :=
  ⟨h.plain, hplain, hpanicked, .inl hwaiting, hguards.trans h.guards.symm,
    fun hc => absurd (h.contending.symm.trans hc) nofun,
    fun hr => absurd (h.restoring.symm.trans hr) nofun, hok⟩

theorem calls_ok (h : pc ∈ calls g) :
    pc.plain = true ∧ (∀ g, pc ≠ .panicked g) ∧ pc.waiting = none ∧ pc.guards = g ∧ pc.Ok := by
  rw [calls, List.mem_append, List.mem_append] at h
  rcases h with (h | h) | h
  · simp only [List.mem_cons, List.not_mem_nil, or_false] at h
    rcases h with rfl | rfl | rfl | rfl <;> exact ⟨rfl, nofun, rfl, rfl, trivial⟩
  · split at h
    · next hreaders =>
      obtain rfl := List.mem_singleton.mp h
      exact ⟨rfl, nofun, rfl, rfl, hreaders⟩
    · cases h
  · split at h
    · next hwriter =>
      simp only [List.mem_cons, List.not_mem_nil, or_false] at h
      rcases h with rfl | rfl <;> exact ⟨rfl, nofun, rfl, rfl, hwriter⟩
    · cases h

theorem quiet_call (h : pc ∈ calls g) : Quiet b (.idle g) pc := by
  obtain ⟨hplain, hpanicked, hwaiting, hguards, hok⟩ := calls_ok h
  have hnot (g : Guards) (heq : pc = .panicked g) : b.count = MAX_READERS :=
    absurd heq (hpanicked g)
  exact quiet_of_reading ⟨rfl, rfl, rfl, rfl⟩ hplain hnot hwaiting hguards hok

theorem quiet_try_read_loop (h : pc.Reading g) (s : ℕ) : Quiet b pc (try_read_loop g s) := by
  rw [try_read_loop]
  split
  · next hlockable =>
    obtain ⟨hcount, hreaders, -⟩ := is_read_lockable_iff.mp hlockable
    exact quiet_of_reading h rfl nofun rfl rfl ⟨hcount, hreaders⟩
  · exact quiet_of_reading h rfl nofun rfl rfl trivial

theorem count_cases (s : ℕ) (h : ¬ (bits s).count < MAX_READERS)
    (h' : (bits s).count ≠ MAX_READERS) : (bits s).count = MASK := by
  have hle := count_le s
  rw [MAX_READERS] at h h'
  lia

theorem quiet_read_contended (h : pc.Reading g) (has_slept : Bool) (s : ℕ) :
    Quiet (bits s) pc (read_contended g has_slept s) := by
  rw [read_contended]
  split
  · next hlockable =>
    refine quiet_of_reading h rfl nofun rfl rfl ?_
    rcases Bool.or_eq_true_iff.mp hlockable with hslept | hfree
    · obtain ⟨hcount, hreaders, -⟩ :=
        is_read_lockable_after_wakeup_iff.mp (Bool.and_eq_true_iff.mp hslept).2
      exact ⟨hcount, hreaders⟩
    · obtain ⟨hcount, hreaders, -⟩ := is_read_lockable_iff.mp hfree
      exact ⟨hcount, hreaders⟩
  next hlockable =>
  split
  · next hmax =>
    exact quiet_of_reading h rfl (fun _ _ => has_reached_max_readers_iff.mp hmax) rfl rfl trivial
  next hmax =>
  split
  · next hwaiting =>
    refine quiet_of_reading h rfl nofun rfl rfl ?_
    have hreaders : (bits s).readers = false := by simpa using hwaiting
    refine ⟨hreaders, ?_⟩
    by_cases hcount : (bits s).count < MAX_READERS
    · right
      have hfree : ¬ is_read_lockable s = true := fun hfree =>
        hlockable (Bool.or_eq_true_iff.mpr (.inr hfree))
      rw [is_read_lockable_iff] at hfree
      exact (Bool.eq_false_or_eq_true _).resolve_right fun hw => hfree ⟨hcount, hreaders, hw⟩
    · exact .inl (count_cases s hcount fun h => hmax (has_reached_max_readers_iff.mpr h))
  · refine quiet_of_reading h rfl nofun rfl rfl ?_
    rw [Pc.Ok, bits_or_readers_waiting]

theorem quiet_try_write_loop (h : pc.Reading g) (s : ℕ) : Quiet b pc (try_write_loop g s) := by
  rw [try_write_loop]
  split
  · next hfree => exact quiet_of_reading h rfl nofun rfl rfl (is_unlocked_iff.mp hfree)
  · exact quiet_of_reading h rfl nofun rfl rfl trivial

/-- The loop goes on with the bit of the other writers. -/
theorem quiet_write_contended (hplain : pc.plain = true) (hguards : pc.guards = g) {others : Bool}
    (h : pc.restoring = true → others = true) (s : ℕ) :
    Quiet b pc (write_contended g others s) := by
  rw [write_contended]
  split
  · next hfree =>
    exact ⟨hplain, rfl, nofun, .inl rfl, hguards.symm, fun _ => rfl, h, is_unlocked_iff.mp hfree⟩
  · next hfree =>
    split
    · next hwaiting =>
      have hlocked : (bits s).count ≠ 0 := fun hcount => hfree (is_unlocked_iff.mpr hcount)
      exact ⟨hplain, rfl, nofun, .inl rfl, hguards.symm, fun _ => rfl, h, hlocked,
        by simpa using hwaiting⟩
    · exact ⟨hplain, rfl, nofun, .inl rfl, hguards.symm, fun _ => rfl, fun _ => rfl, trivial⟩

/-! ## The accesses -/

variable {m m' : Mem} {outcomes : Mem → List (Mem × Pc)} {expected new : ℕ} {ok : Pc} {err : ℕ → Pc}

theorem state_exchange (h : code pc = exchange expected new ok err)
    (hcode : code pc = .atomic outcomes) (hmem : (m', pc') ∈ outcomes m) :
    m.state = expected ∧ m' = { m with state := new } ∧ pc' = ok ∨
      m.state ≠ expected ∧ m' = m ∧ pc' = err m.state :=
  exchange_inj (h.symm.trans hcode) hmem

theorem state_exchange_weak (h : code pc = exchange_weak expected new ok err)
    (hcode : code pc = .atomic outcomes) (hmem : (m', pc') ∈ outcomes m) :
    m.state = expected ∧ m' = { m with state := new } ∧ pc' = ok ∨ m' = m ∧ pc' = err m.state :=
  exchange_weak_inj (h.symm.trans hcode) hmem

theorem add_lt (a b : ℕ) : add a b < 2 ^ 32 := mod_lt _ (by decide)

theorem sub_lt (a b : ℕ) : sub a b < 2 ^ 32 := mod_lt _ (by decide)

/-- What an access does to the fields: the state stays below `2 ^ 32`, and the counters of the
notifications go up together, in `wake_writer`. -/
structure Effect (pc : Pc) (m m' : Mem) : Prop where
  lt : m.state < 2 ^ 32 → m'.state < 2 ^ 32
  notified : m'.notified = m.notified ∧ m'.writer_notify = m.writer_notify ∨
    m'.notified = m.notified + 1 ∧ m'.writer_notify = m.writer_notify + 1 ∧
      ∃ g readers, pc = .wake_writer g readers

theorem effect_refl (pc : Pc) (m : Mem) : Effect pc m m := ⟨id, .inl ⟨rfl, rfl⟩⟩

theorem effect_state (h : m.state < 2 ^ 32 → new < 2 ^ 32) : Effect pc m { m with state := new } :=
  ⟨h, .inl ⟨rfl, rfl⟩⟩

theorem effect_or {flag : ℕ} (hflag : flag < 2 ^ 32) (heq : m.state = s) :
    Effect pc m { m with state := s ||| flag } :=
  effect_state fun hlt => or_lt_two_pow (heq ▸ hlt) hflag

theorem code_effect (pc : Pc) : (code pc).Does (Effect pc) := by
  cases pc with
  | idle | panicked | failed => exact does_choose (effect_refl _)
  | try_read_exchange | read_contended_exchange | try_write_exchange =>
    exact does_exchange_weak (effect_refl _) fun _ _ => effect_state fun _ => add_lt _ _
  | read_exchange g s =>
    rw [code]
    exact does_exchange_weak (effect_refl _) fun _ _ => effect_state fun _ => add_lt _ _
  | read_waiting | write_waiting =>
    exact does_exchange (effect_refl _) fun _ => effect_or (by decide)
  | read_unlock | write_unlock | downgrade_readers =>
    exact does_rmw fun _ => effect_state fun _ => sub_lt _ _
  | write g =>
    rw [code]
    exact does_exchange_weak (effect_refl _) fun _ _ => effect_state fun _ => by decide
  | write_contended_exchange g others s =>
    refine does_exchange_weak (effect_refl _) fun m heq => effect_state fun hlt => ?_
    have hlocked : s ||| WRITE_LOCKED < 2 ^ 32 := or_lt_two_pow (heq ▸ hlt) (by decide)
    cases others with
    | false | true => exact or_lt_two_pow hlocked (by decide)
  | downgrade g => exact does_rmw fun _ => effect_state fun _ => add_lt _ _
  | wake_writers g =>
    exact does_exchange (effect_refl _) fun _ _ => effect_state fun _ => by decide
  | wake_both | wake_readers =>
    rw [code]
    exact does_exchange (effect_refl _) fun _ _ => effect_state fun _ => by decide
  | wake_writer g readers => exact does_rmw fun _ => ⟨id, .inr ⟨rfl, rfl, g, readers, rfl⟩⟩
  | read_wait | write_wait | downgrade_wake | wake_all_readers | wake_writer_wake => trivial
  | _ => exact does_rmw (effect_refl _)

theorem own_effect {th th' : Thread Pc} (h : Own code m th m' th') : Effect th.pc m m' :=
  h.does (effect_refl _) (code_effect _)

/-- An exchange that does not fail without reason. -/
theorem move_exchange (h : code pc = exchange expected new ok err)
    (hcode : code pc = .atomic outcomes) (hmem : (m', pc') ∈ outcomes m)
    (hok : Move (bits expected) ⟨pc, false⟩ (bits new) ⟨ok, false⟩)
    (herr : m.state ≠ expected → Move (bits m.state) ⟨pc, false⟩ (bits m.state)
      ⟨err m.state, false⟩) :
    Move (bits m.state) ⟨pc, false⟩ (bits m'.state) ⟨pc', false⟩ := by
  rcases state_exchange h hcode hmem with ⟨rfl, rfl, rfl⟩ | ⟨hne, rfl, rfl⟩
  · exact hok
  · exact herr hne

/-- A read lock. -/
theorem move_read
    (h : code pc = exchange_weak expected (add expected READ_LOCKED) (.idle g.read) err)
    (hcode : code pc = .atomic outcomes) (hmem : (m', pc') ∈ outcomes m) (hreading : pc.Reading g)
    (hok : (bits expected).count < MAX_READERS ∧ (bits expected).readers = false)
    (herr : Quiet (bits m.state) pc (err m.state)) :
    Move (bits m.state) ⟨pc, false⟩ (bits m'.state) ⟨pc', false⟩ := by
  rcases state_exchange_weak h hcode hmem with ⟨heq, rfl, rfl⟩ | ⟨rfl, rfl⟩
  · subst heq
    obtain ⟨hcount, hreaders⟩ := hok
    rw [bits_add_reader hcount, ← hreading.guards]
    exact .read hreading.plain hreading.contending hreading.restoring hcount hreaders
  · exact .quiet herr

/-- A write lock. -/
theorem move_write (h : code pc = exchange_weak expected new (.idle g.write) err)
    (hcode : code pc = .atomic outcomes) (hmem : (m', pc') ∈ outcomes m)
    (hlocks : pc.locks = true) (hguards : pc.guards = g) (hcount : (bits expected).count = 0)
    (hnew : bits new = ⟨MASK, (bits expected).readers, (bits expected).writers || pc.restoring⟩)
    (herr : Quiet (bits m.state) pc (err m.state)) :
    Move (bits m.state) ⟨pc, false⟩ (bits m'.state) ⟨pc', false⟩ := by
  rcases state_exchange_weak h hcode hmem with ⟨heq, rfl, rfl⟩ | ⟨rfl, rfl⟩
  · subst heq
    rw [hnew, ← hguards]
    exact .write hlocks hcount
  · exact .quiet herr

theorem bits_mk {count : ℕ} {readers writers : Bool} (hcount : b.count = count)
    (hreaders : b.readers = readers) (hwriters : b.writers = writers) :
    b = ⟨count, readers, writers⟩ := Bits.ext hcount hreaders hwriters

/-- Whom a thread wakes up that left the lock free. -/
def wakes (g : Guards) : Bool → Bool → Pc
  | false, false => .idle g
  | false, true => .wake_writers g
  | true, true => .wake_both g
  | true, false => .wake_readers g

theorem wake_writer_or_readers_eq {readers writers : Bool} (hlt : s < 2 ^ 32)
    (h : bits s = ⟨0, readers, writers⟩) :
    wake_writer_or_readers g s = wakes g readers writers := by
  cases readers <;> cases writers
  · obtain rfl : s = 0 := bits_inj hlt (by decide) h
    rfl
  · obtain rfl : s = WRITERS_WAITING := bits_inj hlt (by decide) h
    rfl
  · obtain rfl : s = READERS_WAITING := bits_inj hlt (by decide) h
    rfl
  · obtain rfl : s = READERS_WAITING + WRITERS_WAITING := bits_inj hlt (by decide) h
    rfl

theorem move_read_unlock (hlt : s < 2 ^ 32) (hcount : 0 < (bits s).count)
    (hbits : (bits s).readers = true → (bits s).writers = true) :
    Move (bits s) ⟨.read_unlock g, false⟩ (bits (sub s READ_LOCKED))
      ⟨read_unlock_end g.unread (sub s READ_LOCKED), false⟩ := by
  have hlt' : sub s READ_LOCKED < 2 ^ 32 := mod_lt _ (by decide)
  have hsub := bits_sub_reader hlt hcount
  obtain ⟨b, hb⟩ : ∃ b, bits s = b := ⟨_, rfl⟩
  obtain ⟨b', hb'⟩ : ∃ b', bits (sub s READ_LOCKED) = b' := ⟨_, rfl⟩
  rw [hb, hb'] at hsub
  subst hsub
  rw [hb] at hcount hbits ⊢
  obtain ⟨count, readers, writers⟩ := b
  rw [read_unlock_end, has_readers_waiting_eq, has_writers_waiting_eq, hb']
  have hassert : ¬ (readers && ! writers) = true := by
    cases readers with
    | false => exact Bool.false_ne_true
    | true => rw [show writers = true from hbits rfl]; exact Bool.false_ne_true
  rw [if_neg hassert]
  split
  · next hlast =>
    rw [Bool.and_eq_true, is_unlocked_iff, hb'] at hlast
    obtain ⟨hfree, rfl⟩ : count - 1 = 0 ∧ writers = true := hlast
    obtain rfl : count = 1 := by
      have : 0 < count := hcount
      lia
    rw [wake_writer_or_readers_eq hlt' hb']
    cases readers with
    | false => exact .read_unlock_writers rfl
    | true => exact .read_unlock_both rfl
  · next hlast =>
    rw [Bool.and_eq_true, is_unlocked_iff, hb'] at hlast
    refine .read_unlock hcount fun hone => ?_
    have hzero : count - 1 = 0 := by rw [show count = 1 from hone]
    exact Bool.eq_false_iff.mpr fun hwriters => hlast ⟨hzero, hwriters⟩

theorem move_write_unlock (hlt : s < 2 ^ 32) (hcount : (bits s).count = MASK) :
    Move (bits s) ⟨.write_unlock g, false⟩ (bits (sub s WRITE_LOCKED))
      ⟨write_unlock_end g.unwrite (sub s WRITE_LOCKED), false⟩ := by
  have hlt' : sub s WRITE_LOCKED < 2 ^ 32 := mod_lt _ (by decide)
  have hsub := bits_sub_writer hlt hcount
  obtain ⟨b, hb⟩ : ∃ b, bits s = b := ⟨_, rfl⟩
  obtain ⟨b', hb'⟩ : ∃ b', bits (sub s WRITE_LOCKED) = b' := ⟨_, rfl⟩
  rw [hb, hb'] at hsub
  subst hsub
  rw [hb] at hcount ⊢
  obtain ⟨count, readers, writers⟩ := b
  obtain rfl : count = MASK := hcount
  have hunlocked : is_unlocked (sub s WRITE_LOCKED) = true := is_unlocked_iff.mpr (by rw [hb'])
  rw [write_unlock_end, hunlocked, wake_writer_or_readers_eq hlt' hb', has_readers_waiting_eq,
    has_writers_waiting_eq, hb']
  cases readers <;> cases writers
  · exact .write_unlock rfl
  · exact .write_unlock_writers rfl
  · exact .write_unlock_readers rfl
  · exact .write_unlock_both rfl

theorem move_downgrade (hcount : (bits s).count = MASK) :
    Move (bits s) ⟨.downgrade g, false⟩ (bits (add s DOWNGRADE))
      ⟨downgrade_end g.unwrite.read s, false⟩ := by
  have hlocked : is_write_locked s = true := is_write_locked_iff.mpr hcount
  rw [downgrade_end, hlocked, has_readers_waiting_eq, bits_downgrade hcount]
  cases hreaders : (bits s).readers with
  | false => exact .downgrade hcount hreaders
  | true => exact .downgrade_waiting hcount hreaders

theorem move_wake_writers (hlt : s < 2 ^ 32) (hne : s ≠ WRITERS_WAITING) :
    Move (bits s) ⟨.wake_writers g, false⟩ (bits s) ⟨wake_waiting_both g s, false⟩ := by
  rw [wake_waiting_both]
  split
  · next heq =>
    rw [heq]
    exact .wake_writers_both rfl
  next hboth =>
  rw [wake_waiting_readers]
  split
  · next heq =>
    rw [heq]
    exact .wake_writers_readers rfl
  next hreaders =>
  refine .wake_writers_done fun hcount => ?_
  cases hr : (bits s).readers <;> cases hw : (bits s).writers <;>
    have hbits := bits_mk hcount hr hw
  · exact ⟨rfl, rfl⟩
  · exact absurd (bits_inj hlt (by decide : WRITERS_WAITING < 2 ^ 32) hbits) hne
  · exact absurd (bits_inj hlt (by decide : READERS_WAITING < 2 ^ 32) hbits) hreaders
  · have hlt' : READERS_WAITING + WRITERS_WAITING < 2 ^ 32 := by decide
    exact absurd (bits_inj hlt hlt' hbits) hboth

/-- The first look of a reader at the state. -/
theorem quiet_read (g : Guards) (s : ℕ) : Quiet (bits s) (.read g)
    (if ! is_read_lockable s then .spin_read g false 100 else .read_exchange g s) := by
  have hreading : (Pc.read g).Reading g := ⟨rfl, rfl, rfl, rfl⟩
  split
  · exact quiet_of_reading hreading rfl nofun rfl rfl trivial
  · next hlockable =>
    obtain ⟨hcount, hreaders, -⟩ := is_read_lockable_iff.mp (by simpa using hlockable)
    exact quiet_of_reading hreading rfl nofun rfl rfl ⟨hcount, hreaders⟩

/-- A step that accesses the memory. -/
theorem atomic_move (hcode : code pc = .atomic outcomes) (hmem : (m', pc') ∈ outcomes m)
    (hlt : m.state < 2 ^ 32) (hs : Safe (bits m.state) pc) :
    Move (bits m.state) ⟨pc, false⟩ (bits m'.state) ⟨pc', false⟩ := by
  cases pc with
  | idle g =>
    obtain ⟨rfl, hpc⟩ := choose_inj hcode hmem
    exact .quiet (quiet_call hpc)
  | panicked g =>
    obtain ⟨rfl, hpc⟩ := choose_inj hcode hmem
    obtain rfl := List.mem_singleton.mp hpc
    exact .quiet (quiet_of_reading ⟨rfl, rfl, rfl, rfl⟩ rfl nofun rfl rfl trivial)
  | failed g => exact absurd hs.ok id
  | try_read g =>
    obtain ⟨rfl, rfl⟩ := rmw_inj hcode hmem
    exact .quiet (quiet_try_read_loop ⟨rfl, rfl, rfl, rfl⟩ _)
  | try_read_exchange g s =>
    have hreading : (Pc.try_read_exchange g s).Reading g := ⟨rfl, rfl, rfl, rfl⟩
    exact move_read rfl hcode hmem hreading hs.ok (quiet_try_read_loop hreading _)
  | read g =>
    obtain ⟨rfl, rfl⟩ := rmw_inj hcode hmem
    exact .quiet (quiet_read g _)
  | read_exchange g s =>
    have hreading : (Pc.read_exchange g s).Reading g := ⟨rfl, rfl, rfl, rfl⟩
    have hexchange : code (.read_exchange g s) = exchange_weak s (add s READ_LOCKED)
        (.idle g.read) fun _ => .spin_read g false 100 := rfl
    exact move_read hexchange hcode hmem hreading hs.ok
      (quiet_of_reading hreading rfl nofun rfl rfl trivial)
  | spin_read g has_slept spin =>
    obtain ⟨rfl, rfl⟩ := rmw_inj hcode hmem
    have hreading : (Pc.spin_read g has_slept spin).Reading g := ⟨rfl, rfl, rfl, rfl⟩
    split
    · exact .quiet (quiet_read_contended hreading _ _)
    · exact .quiet (quiet_of_reading hreading rfl nofun rfl rfl trivial)
  | read_contended_exchange g has_slept s =>
    have hreading : (Pc.read_contended_exchange g has_slept s).Reading g := ⟨rfl, rfl, rfl, rfl⟩
    exact move_read rfl hcode hmem hreading hs.ok (quiet_read_contended hreading _ _)
  | read_waiting g has_slept s =>
    have hmarked := bits_or_readers_waiting s
    refine move_exchange rfl hcode hmem ?_ fun _ =>
      .quiet (quiet_read_contended ⟨rfl, rfl, rfl, rfl⟩ _ _)
    rw [hmarked]
    exact .mark_readers hs.ok.1 hs.ok.2 (by rw [Pc.Ok, hmarked])
  | read_wait | write_wait | downgrade_wake | wake_all_readers | wake_writer_wake => cases hcode
  | read_unlock g =>
    obtain ⟨rfl, rfl⟩ := rmw_inj hcode hmem
    obtain ⟨hcount, hbits⟩ := hs.read_unlock g rfl
    exact move_read_unlock hlt hcount hbits
  | try_write g =>
    obtain ⟨rfl, rfl⟩ := rmw_inj hcode hmem
    exact .quiet (quiet_try_write_loop ⟨rfl, rfl, rfl, rfl⟩ _)
  | try_write_exchange g s =>
    have hnew : bits (add s WRITE_LOCKED) =
        ⟨MASK, (bits s).readers, (bits s).writers || false⟩ := by
      rw [bits_add_writer hs.ok, Bool.or_false]
    exact move_write rfl hcode hmem rfl rfl hs.ok hnew
      (quiet_try_write_loop ⟨rfl, rfl, rfl, rfl⟩ _)
  | write g =>
    have hexchange : code (.write g) = exchange_weak 0 WRITE_LOCKED (.idle g.write) fun _ =>
        .spin_write g false 100 := rfl
    have hnew : bits WRITE_LOCKED = ⟨MASK, (bits 0).readers, (bits 0).writers || false⟩ := by
      decide
    exact move_write hexchange hcode hmem rfl rfl rfl hnew
      ⟨rfl, rfl, nofun, .inl rfl, rfl, fun _ => rfl, nofun, trivial⟩
  | spin_write g others spin =>
    obtain ⟨rfl, rfl⟩ := rmw_inj hcode hmem
    split
    · exact .quiet (quiet_write_contended rfl rfl id _)
    · exact .quiet ⟨rfl, rfl, nofun, .inl rfl, rfl, fun _ => rfl, id, trivial⟩
  | write_contended_exchange g others s =>
    exact move_write rfl hcode hmem rfl rfl hs.ok (bits_or_writer hs.ok others)
      (quiet_write_contended rfl rfl id _)
  | write_waiting g others s =>
    refine move_exchange rfl hcode hmem ?_ fun _ => .quiet (quiet_write_contended rfl rfl id _)
    rw [bits_or_writers_waiting]
    exact .mark_writers hs.ok.1 hs.ok.2
  | write_seq g =>
    obtain ⟨rfl, rfl⟩ := rmw_inj hcode hmem
    exact .quiet ⟨rfl, rfl, nofun, .inr ⟨g, rfl⟩, rfl, fun _ => rfl, fun _ => rfl, trivial⟩
  | write_check g seq start =>
    obtain ⟨rfl, rfl⟩ := rmw_inj hcode hmem
    split
    · exact .quiet (quiet_write_contended rfl rfl (fun _ => rfl) _)
    · next hwaits =>
      rw [Bool.or_eq_true, not_or, is_unlocked_iff, has_writers_waiting_eq] at hwaits
      exact .write_check hwaits.1 (by simpa using hwaits.2)
  | write_unlock g =>
    obtain ⟨rfl, rfl⟩ := rmw_inj hcode hmem
    exact move_write_unlock hlt (hs.write_unlock g rfl)
  | downgrade g =>
    obtain ⟨rfl, rfl⟩ := rmw_inj hcode hmem
    exact move_downgrade (hs.downgrade g rfl)
  | downgrade_readers g =>
    obtain ⟨rfl, rfl⟩ := rmw_inj hcode hmem
    obtain ⟨hreaders, hcount⟩ := hs.downgrade_readers g rfl
    rw [bits_sub_readers_waiting hlt hreaders]
    exact .downgrade_readers hreaders hcount
  | wake_writers g => exact move_exchange rfl hcode hmem (.wake_writers rfl) (move_wake_writers hlt)
  | wake_both g =>
    have hexchange : code (.wake_both g) = exchange (READERS_WAITING + WRITERS_WAITING)
        READERS_WAITING (.wake_writer g true) fun _ => .idle g := rfl
    have hlt' : READERS_WAITING + WRITERS_WAITING < 2 ^ 32 := by decide
    exact move_exchange hexchange hcode hmem (.wake_both rfl) fun hne =>
      .wake_both_done fun hbits => hne (bits_inj hlt hlt' hbits)
  | wake_readers g =>
    have hexchange : code (.wake_readers g) =
        exchange READERS_WAITING 0 (.wake_all_readers g) fun _ => .idle g := rfl
    have hlt' : READERS_WAITING < 2 ^ 32 := by decide
    exact move_exchange hexchange hcode hmem (.wake_readers rfl) fun hne =>
      .wake_readers_done fun hbits => hne (bits_inj hlt hlt' hbits)
  | wake_writer g readers =>
    obtain ⟨rfl, rfl⟩ := rmw_inj hcode hmem
    exact .wake_writer

/-- **What a thread does** as long as its counter and its bits are what they should be. -/
theorem own_move {th th' : Thread Pc} (h : Own code m th m' th') (hlt : m.state < 2 ^ 32)
    (hs : Safe (bits m.state) th.pc) : Move (bits m.state) th (bits m'.state) th' := by
  cases h with
  | atomic hcode hmem => exact atomic_move hcode hmem hlt hs
  | @sleep pc _ _ _ _ hcode hblocks =>
    cases pc with
    | read_wait g s =>
      cases hcode
      obtain rfl := beq_iff_eq.mp hblocks
      exact .read_sleep hs.ok
    | write_wait g seq start =>
      cases hcode
      exact .write_sleep
    | _ => cases hcode
  | @pass pc _ _ _ _ hcode hblocks =>
    cases pc with
    | read_wait g s =>
      cases hcode
      exact .quiet (quiet_of_reading ⟨rfl, rfl, rfl, rfl⟩ rfl nofun rfl rfl trivial)
    | write_wait g seq start =>
      cases hcode
      exact .write_resume false
    | _ => cases hcode
  | @resume pc _ _ _ _ b hcode =>
    cases pc with
    | read_wait g s =>
      cases hcode
      exact .read_resume
    | write_wait g seq start =>
      cases hcode
      exact .write_resume true
    | _ => cases hcode
  | @wake pc _ _ b hcode =>
    cases pc with
    | wake_writer_wake g readers =>
      cases hcode
      dsimp only
      split
      · next hnone =>
        rw [Bool.and_eq_true] at hnone
        rw [hnone.1]
        exact .wake_writer_none
      · exact .wake_writer_wake
    | _ => cases hcode
  | @wake_all pc _ _ hcode =>
    cases pc with
    | downgrade_wake g =>
      cases hcode
      exact .downgrade_wake
    | wake_all_readers g =>
      cases hcode
      exact .wake_all_readers
    | _ => cases hcode

end RustStd.Sync.RwLock
