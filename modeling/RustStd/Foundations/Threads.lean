import Mathlib.Algebra.Order.Ring.Nat
import Mathlib.Logic.Relation
import Mathlib.Logic.Function.Basic

/-!
# Threads with atomic accesses

Any number of threads run the same code over a shared memory, one atomic access at a time and in any
order. A thread can sleep at an address as with a futex: it compares and falls asleep in one step,
and wakes up when it is woken, by a timeout or without a reason. What a step does is told apart for
the thread itself (`Step.own`) and for the others (`Step.others`, `Step.wakes_one`,
`Step.wakes_all`); an invariant of the steps holds in every reachable state (`Reachable.inv`).
-/

namespace RustStd.Threads

open Function List

/-- The next access of a thread. -/
inductive Access (Mem Loc Pc : Type)
  /-- An atomic access, with what memory and which place in the code are behind it. -/
  | atomic (outcomes : Mem → List (Mem × Pc))
  /-- Sleeping at `l`, when `blocks` says so. After a timeout the code goes on with `false`. -/
  | wait (l : Loc) (blocks : Mem → Bool) (timed : Bool) (k : Bool → Pc)
  /-- Waking a sleeper at `l`. What is reported is `true` only if there is one. -/
  | wake (l : Loc) (k : Bool → Pc)
  /-- Waking every sleeper at `l`. -/
  | wake_all (l : Loc) (k : Pc)

open Access

/-- A read-modify-write access. -/
def Access.rmw {Mem Loc Pc : Type} (f : Mem → Mem) (k : Mem → Pc) : Access Mem Loc Pc :=
  .atomic fun m => [(f m, k m)]

/-- A read. -/
def Access.load {Mem Loc Pc : Type} (k : Mem → Pc) : Access Mem Loc Pc := .rmw id k

/-- `compare_exchange`, with the memory and the place behind it when it succeeds and when it
fails. -/
def Access.exchange {Mem Loc Pc : Type} (p : Mem → Prop) [DecidablePred p] (f : Mem → Mem)
    (ok err : Mem → Pc) : Access Mem Loc Pc :=
  .atomic fun m => if p m then [(f m, ok m)] else [(m, err m)]

/-- `compare_exchange_weak`, which can fail without a reason. -/
def Access.exchange_weak {Mem Loc Pc : Type} (p : Mem → Prop) [DecidablePred p] (f : Mem → Mem)
    (ok err : Mem → Pc) : Access Mem Loc Pc :=
  .atomic fun m => if p m then [(f m, ok m), (m, err m)] else [(m, err m)]

/-- Going on at one of these places. -/
def Access.choose {Mem Loc Pc : Type} (options : List Pc) : Access Mem Loc Pc :=
  .atomic fun m => options.map fun pc => (m, pc)

/-- A thread: a place in the code, and whether it sleeps there. -/
structure Thread (Pc : Type) where
  pc : Pc
  asleep : Bool

structure State (Tid Mem Pc : Type) where
  mem : Mem
  threads : Tid → Thread Pc

variable {Tid Mem Loc Pc : Type} (code : Pc → Access Mem Loc Pc) {r : Mem → Mem → Prop}
variable {f : Mem → Mem}

def Thread.SleepsAt (th : Thread Pc) (l : Loc) : Prop :=
  th.asleep = true ∧ ∃ blocks timed k, code th.pc = .wait l blocks timed k

/-- A sleeper that goes on. -/
def Thread.resume (th : Thread Pc) (b : Bool) : Thread Pc :=
  match code th.pc with
  | .wait _ _ _ k => ⟨k b, false⟩
  | _ => th

/-- A step of the thread `t`. -/
inductive Step [DecidableEq Tid] (s : State Tid Mem Pc) (t : Tid) : State Tid Mem Pc → Prop
  | atomic {outcomes : Mem → List (Mem × Pc)} {m : Mem} {pc : Pc}
      (hawake : (s.threads t).asleep = false) (hcode : code (s.threads t).pc = .atomic outcomes)
      (hmem : (m, pc) ∈ outcomes s.mem) :
      Step s t ⟨m, update s.threads t ⟨pc, false⟩⟩
  | sleep {l : Loc} {blocks : Mem → Bool} {timed : Bool} {k : Bool → Pc}
      (hawake : (s.threads t).asleep = false)
      (hcode : code (s.threads t).pc = .wait l blocks timed k) (hblocks : blocks s.mem = true) :
      Step s t ⟨s.mem, update s.threads t ⟨(s.threads t).pc, true⟩⟩
  | pass {l : Loc} {blocks : Mem → Bool} {timed : Bool} {k : Bool → Pc}
      (hawake : (s.threads t).asleep = false)
      (hcode : code (s.threads t).pc = .wait l blocks timed k) (hblocks : blocks s.mem = false) :
      Step s t ⟨s.mem, update s.threads t ⟨k true, false⟩⟩
  | spurious {l : Loc} {blocks : Mem → Bool} {timed : Bool} {k : Bool → Pc}
      (hasleep : (s.threads t).asleep = true)
      (hcode : code (s.threads t).pc = .wait l blocks timed k) :
      Step s t ⟨s.mem, update s.threads t ⟨k true, false⟩⟩
  | timeout {l : Loc} {blocks : Mem → Bool} {k : Bool → Pc}
      (hasleep : (s.threads t).asleep = true)
      (hcode : code (s.threads t).pc = .wait l blocks true k) :
      Step s t ⟨s.mem, update s.threads t ⟨k false, false⟩⟩
  | wake {l : Loc} {k : Bool → Pc} {u : Tid} (b : Bool)
      (hawake : (s.threads t).asleep = false) (hcode : code (s.threads t).pc = .wake l k)
      (hu : (s.threads u).SleepsAt code l) :
      Step s t ⟨s.mem, update (update s.threads u ((s.threads u).resume code true)) t ⟨k b, false⟩⟩
  | wake_none {l : Loc} {k : Bool → Pc}
      (hawake : (s.threads t).asleep = false) (hcode : code (s.threads t).pc = .wake l k)
      (hnone : ∀ u, ¬ (s.threads u).SleepsAt code l) :
      Step s t ⟨s.mem, update s.threads t ⟨k false, false⟩⟩
  | wake_all {l : Loc} {k : Pc} {threads : Tid → Thread Pc}
      (hawake : (s.threads t).asleep = false) (hcode : code (s.threads t).pc = .wake_all l k)
      (hsleepers : ∀ u, (s.threads u).SleepsAt code l → threads u = (s.threads u).resume code true)
      (hothers : ∀ u, ¬ (s.threads u).SleepsAt code l → threads u = s.threads u) :
      Step s t ⟨s.mem, update threads t ⟨k, false⟩⟩

/-- What a step of a thread does to the memory and to the thread itself. -/
inductive Own (m : Mem) : Thread Pc → Mem → Thread Pc → Prop
  | atomic {pc pc' : Pc} {outcomes : Mem → List (Mem × Pc)} {m' : Mem}
      (hcode : code pc = .atomic outcomes) (hmem : (m', pc') ∈ outcomes m) :
      Own m ⟨pc, false⟩ m' ⟨pc', false⟩
  | sleep {pc : Pc} {l : Loc} {blocks : Mem → Bool} {timed : Bool} {k : Bool → Pc}
      (hcode : code pc = .wait l blocks timed k) (hblocks : blocks m = true) :
      Own m ⟨pc, false⟩ m ⟨pc, true⟩
  | pass {pc : Pc} {l : Loc} {blocks : Mem → Bool} {timed : Bool} {k : Bool → Pc}
      (hcode : code pc = .wait l blocks timed k) (hblocks : blocks m = false) :
      Own m ⟨pc, false⟩ m ⟨k true, false⟩
  | resume {pc : Pc} {l : Loc} {blocks : Mem → Bool} {timed : Bool} {k : Bool → Pc} (b : Bool)
      (hcode : code pc = .wait l blocks timed k) :
      Own m ⟨pc, true⟩ m ⟨k b, false⟩
  | wake {pc : Pc} {l : Loc} {k : Bool → Pc} (b : Bool) (hcode : code pc = .wake l k) :
      Own m ⟨pc, false⟩ m ⟨k b, false⟩
  | wake_all {pc : Pc} {l : Loc} {k : Pc} (hcode : code pc = .wake_all l k) :
      Own m ⟨pc, false⟩ m ⟨k, false⟩

/-! ## What a step does -/

variable {k : Mem → Pc}

theorem rmw_inj {outcomes : Mem → List (Mem × Pc)} {m m' : Mem}
    {pc : Pc} (h : rmw f k = (.atomic outcomes : Access Mem Loc Pc))
    (hmem : (m', pc) ∈ outcomes m) : m' = f m ∧ pc = k m := by
  cases h
  exact Prod.mk.inj (mem_singleton.mp hmem)

theorem choose_inj {options : List Pc} {outcomes : Mem → List (Mem × Pc)} {m m' : Mem} {pc : Pc}
    (h : Access.choose options = (.atomic outcomes : Access Mem Loc Pc))
    (hmem : (m', pc) ∈ outcomes m) : m' = m ∧ pc ∈ options := by
  cases h
  obtain ⟨pc', hpc, heq⟩ := mem_map.mp hmem
  obtain ⟨rfl, rfl⟩ := Prod.mk.inj heq
  exact ⟨rfl, hpc⟩

section Exchange

variable {p : Mem → Prop} [DecidablePred p] {f : Mem → Mem} {ok err : Mem → Pc}
  {outcomes : Mem → List (Mem × Pc)} {m m' : Mem} {pc : Pc}

theorem exchange_inj (h : exchange p f ok err = (.atomic outcomes : Access Mem Loc Pc))
    (hmem : (m', pc) ∈ outcomes m) :
    p m ∧ m' = f m ∧ pc = ok m ∨ ¬ p m ∧ m' = m ∧ pc = err m := by
  cases h
  dsimp only at hmem
  split at hmem
  · next hp =>
    obtain ⟨rfl, rfl⟩ := Prod.mk.inj (mem_singleton.mp hmem)
    exact .inl ⟨hp, rfl, rfl⟩
  · next hp =>
    obtain ⟨rfl, rfl⟩ := Prod.mk.inj (mem_singleton.mp hmem)
    exact .inr ⟨hp, rfl, rfl⟩

theorem exchange_weak_inj (h : exchange_weak p f ok err = (.atomic outcomes : Access Mem Loc Pc))
    (hmem : (m', pc) ∈ outcomes m) : p m ∧ m' = f m ∧ pc = ok m ∨ m' = m ∧ pc = err m := by
  cases h
  dsimp only at hmem
  split at hmem
  · next hp =>
    rcases mem_cons.mp hmem with heq | hmem
    · obtain ⟨rfl, rfl⟩ := Prod.mk.inj heq
      exact .inl ⟨hp, rfl, rfl⟩
    · obtain ⟨rfl, rfl⟩ := Prod.mk.inj (mem_singleton.mp hmem)
      exact .inr ⟨rfl, rfl⟩
  · obtain ⟨rfl, rfl⟩ := Prod.mk.inj (mem_singleton.mp hmem)
    exact .inr ⟨rfl, rfl⟩

end Exchange

/-- The one way through a read-modify-write access. -/
theorem Own.rmw_eq {code : Pc → Access Mem Loc Pc} {m m' : Mem}
    {pc : Pc} {th : Thread Pc} (h : Own code m ⟨pc, false⟩ m' th) (hcode : code pc = .rmw f k) :
    m' = f m ∧ th = ⟨k m, false⟩ := by
  cases h with
  | atomic h hmem =>
    obtain ⟨rfl, rfl⟩ := rmw_inj (hcode.symm.trans h) hmem
    exact ⟨rfl, rfl⟩
  | sleep h | pass h | wake _ h | wake_all h => exact absurd (hcode.symm.trans h) nofun

/-- What an access does to the memory. -/
def Access.Does (r : Mem → Mem → Prop) : Access Mem Loc Pc → Prop
  | .atomic outcomes => ∀ m, ∀ x ∈ outcomes m, r m x.1
  | _ => True

theorem does_rmw (h : ∀ m, r m (f m)) : (rmw f k : Access Mem Loc Pc).Does r := by
  intro m x hx
  obtain rfl := mem_singleton.mp hx
  exact h m

theorem does_choose {options : List Pc} (h : ∀ m, r m m) :
    (Access.choose options : Access Mem Loc Pc).Does r := by
  intro m x hx
  obtain ⟨pc, -, rfl⟩ := mem_map.mp hx
  exact h m

theorem does_exchange {p : Mem → Prop} [DecidablePred p]
    {ok err : Mem → Pc} (hr : ∀ m, r m m) (h : ∀ m, p m → r m (f m)) :
    (exchange p f ok err : Access Mem Loc Pc).Does r := by
  intro m x hx
  have hcode : exchange p f ok err = (.atomic _ : Access Mem Loc Pc) := rfl
  rcases exchange_inj hcode hx with ⟨hp, hm, -⟩ | ⟨-, hm, -⟩
  · rw [hm]
    exact h m hp
  · rw [hm]
    exact hr m

theorem does_exchange_weak {p : Mem → Prop} [DecidablePred p]
    {ok err : Mem → Pc} (hr : ∀ m, r m m) (h : ∀ m, p m → r m (f m)) :
    (exchange_weak p f ok err : Access Mem Loc Pc).Does r := by
  intro m x hx
  have hcode : exchange_weak p f ok err = (.atomic _ : Access Mem Loc Pc) := rfl
  rcases exchange_weak_inj hcode hx with ⟨hp, hm, -⟩ | ⟨hm, -⟩
  · rw [hm]
    exact h m hp
  · rw [hm]
    exact hr m

theorem Own.does {code : Pc → Access Mem Loc Pc} {m m' : Mem}
    {th th' : Thread Pc} (h : Own code m th m' th') (hr : ∀ m, r m m)
    (hdoes : (code th.pc).Does r) : r m m' := by
  cases h with
  | atomic hcode hmem =>
    rw [hcode] at hdoes
    exact hdoes m _ hmem
  | _ => exact hr m

/-- There is a thread that is awake at such a place. -/
def Awake (s : State Tid Mem Pc) (p : Pc → Bool) : Prop :=
  ∃ t, (s.threads t).asleep = false ∧ p (s.threads t).pc = true

theorem Awake.mono {s : State Tid Mem Pc} {p q : Pc → Bool} (h : ∀ pc, p pc = true → q pc = true)
    (hs : Awake s p) : Awake s q := by
  obtain ⟨t, ha, hp⟩ := hs
  exact ⟨t, ha, h _ hp⟩

section Steps

variable [DecidableEq Tid] {code} {s s' : State Tid Mem Pc} {t u : Tid} {th : Thread Pc} {l : Loc}

theorem Step.atomic_at {outcomes : Mem → List (Mem × Pc)} {m : Mem} {pc pc' : Pc}
    (ht : s.threads t = ⟨pc, false⟩) (hcode : code pc = .atomic outcomes)
    (hmem : (m, pc') ∈ outcomes s.mem) :
    Step code s t ⟨m, update s.threads t ⟨pc', false⟩⟩ :=
  .atomic (by rw [ht]) (by rw [ht]; exact hcode) hmem

variable {k : Bool → Pc}

theorem Step.wake_none_at {pc : Pc} (ht : s.threads t = ⟨pc, false⟩)
    (hcode : code pc = .wake l k) (hnone : ∀ u, (s.threads u).asleep = false) :
    Step code s t ⟨s.mem, update s.threads t ⟨k false, false⟩⟩ :=
  .wake_none (hnone t) (by rw [ht]; exact hcode) fun u hu =>
    absurd ((hnone u).symm.trans hu.1) nofun

theorem Thread.resume_eq {pc : Pc} {asleep : Bool} {blocks : Mem → Bool} {timed : Bool}
    (h : code pc = .wait l blocks timed k) (b : Bool) :
    (Thread.mk pc asleep).resume code b = ⟨k b, false⟩ := by
  simp only [Thread.resume, h]

/-- Who is woken up is awake. -/
theorem Thread.SleepsAt.resume_awake (h : th.SleepsAt code l) (b : Bool) :
    (th.resume code b).asleep = false := by
  obtain ⟨-, blocks, timed, k, hcode⟩ := h
  rw [Thread.resume_eq hcode]

variable (h : Step code s t s')
include h

/-- **The thread itself.** -/
theorem Step.own : Own code s.mem (s.threads t) s'.mem (s'.threads t) := by
  have hawake (ha : (s.threads t).asleep = false) :
      s.threads t = ⟨(s.threads t).pc, false⟩ := by rw [← ha]
  have hasleep (ha : (s.threads t).asleep = true) :
      s.threads t = ⟨(s.threads t).pc, true⟩ := by rw [← ha]
  cases h with
  | atomic ha hcode hmem =>
    simp only [update_self]
    rw [hawake ha]
    exact .atomic hcode hmem
  | sleep ha hcode hblocks =>
    simp only [update_self]
    rw [hawake ha]
    exact .sleep hcode hblocks
  | pass ha hcode hblocks =>
    simp only [update_self]
    rw [hawake ha]
    exact .pass hcode hblocks
  | spurious ha hcode =>
    simp only [update_self]
    rw [hasleep ha]
    exact .resume true hcode
  | timeout ha hcode =>
    simp only [update_self]
    rw [hasleep ha]
    exact .resume false hcode
  | wake b ha hcode hu =>
    simp only [update_self]
    rw [hawake ha]
    exact .wake b hcode
  | wake_none ha hcode hnone =>
    simp only [update_self]
    rw [hawake ha]
    exact .wake false hcode
  | wake_all ha hcode hsleepers hothers =>
    simp only [update_self]
    rw [hawake ha]
    exact .wake_all hcode

/-- **The others** are as they were, or sleepers that are woken. -/
theorem Step.others (hu : u ≠ t) : s'.threads u = s.threads u ∨
    ∃ l, (s.threads u).SleepsAt code l ∧ s'.threads u = (s.threads u).resume code true ∧
      ((∃ k, code (s.threads t).pc = .wake l k) ∨ ∃ k, code (s.threads t).pc = .wake_all l k) := by
  cases h with
  | atomic | sleep | pass | spurious | timeout | wake_none => exact .inl (update_of_ne hu _ _)
  | @wake l k v b ha hcode hv =>
    by_cases huv : u = v
    · subst huv
      refine .inr ⟨l, hv, ?_, .inl ⟨k, hcode⟩⟩
      exact (update_of_ne hu _ _).trans (update_self _ _ _)
    · exact .inl ((update_of_ne hu _ _).trans (update_of_ne huv _ _))
  | @wake_all l k threads ha hcode hsleepers hothers =>
    by_cases hsleeps : (s.threads u).SleepsAt code l
    · exact .inr ⟨l, hsleeps, (update_of_ne hu _ _).trans (hsleepers u hsleeps), .inr ⟨k, hcode⟩⟩
    · exact .inl ((update_of_ne hu _ _).trans (hothers u hsleeps))

variable (hatomic : ∀ pc, ∃ outcomes, code pc = .atomic outcomes)
include hatomic

/-- Code without sleeping leaves the others as they were. -/
theorem Step.other_eq
    (hu : u ≠ t) : s'.threads u = s.threads u := by
  rcases h.others hu with heq | ⟨l, ⟨-, blocks, timed, k, hcode⟩, -⟩
  · exact heq
  · obtain ⟨outcomes, h⟩ := hatomic (s.threads u).pc
    exact absurd (h.symm.trans hcode) nofun

/-- A step of such code. -/
theorem Step.atomic_inv :
    ∃ outcomes, code (s.threads t).pc = .atomic outcomes ∧
      (s'.mem, (s'.threads t).pc) ∈ outcomes s.mem ∧ (s'.threads t).asleep = false := by
  obtain ⟨outcomes, hcode⟩ := hatomic (s.threads t).pc
  refine ⟨outcomes, hcode, ?_⟩
  cases h with
  | atomic _ h hmem =>
    cases hcode.symm.trans h
    simp only [update_self]
    exact ⟨hmem, trivial⟩
  | sleep _ h | pass _ h | spurious _ h | timeout _ h | wake _ _ h | wake_none _ h | wake_all _ h =>
    exact absurd (hcode.symm.trans h) nofun

omit hatomic

/-- A thread that is awake is as it was. -/
theorem Step.other_awake (hu : u ≠ t) (ha : (s.threads u).asleep = false) :
    s'.threads u = s.threads u := by
  rcases h.others hu with heq | ⟨l, hsleeps, -⟩
  · exact heq
  · exact absurd (ha.symm.trans hsleeps.1) nofun

/-- Who still sleeps is as it was. -/
theorem Step.other_asleep (hu : u ≠ t) (ha : (s'.threads u).asleep = true) :
    s'.threads u = s.threads u := by
  rcases h.others hu with heq | ⟨l, hsleeps, heq, -⟩
  · exact heq
  · rw [heq] at ha
    exact absurd ((hsleeps.resume_awake true).symm.trans ha) nofun

variable (ha : (s.threads t).asleep = false)
include ha

/-- **Waking one**: if there is a sleeper, one goes on. -/
theorem Step.wakes_one
    (hcode : code (s.threads t).pc = .wake l k) (hu : (s.threads u).SleepsAt code l) :
    ∃ v, v ≠ t ∧ (s.threads v).SleepsAt code l ∧ s'.threads v = (s.threads v).resume code true := by
  cases h with
  | atomic _ h | sleep _ h | pass _ h | spurious _ h | timeout _ h | wake_all _ h =>
    exact absurd (hcode.symm.trans h) nofun
  | @wake l' k' v b _ h hv =>
    obtain ⟨rfl, -⟩ := wake.inj (hcode.symm.trans h)
    have hne : v ≠ t := by
      rintro rfl
      exact absurd (ha.symm.trans hv.1) nofun
    exact ⟨v, hne, hv, (update_of_ne hne _ _).trans (update_self _ _ _)⟩
  | wake_none _ h hnone =>
    obtain ⟨rfl, -⟩ := wake.inj (hcode.symm.trans h)
    exact absurd hu (hnone u)

/-- Waking one wakes a sleeper, or there is none and that is reported. -/
theorem Step.wake_cases (hcode : code (s.threads t).pc = .wake l k) :
    (∃ v, v ≠ t ∧ (s.threads v).SleepsAt code l ∧ s'.threads v = (s.threads v).resume code true) ∨
    (∀ u, ¬ (s.threads u).SleepsAt code l) ∧ s'.threads t = ⟨k false, false⟩ := by
  by_cases hsleeper : ∃ u, (s.threads u).SleepsAt code l
  · obtain ⟨u, hu⟩ := hsleeper
    exact .inl (h.wakes_one ha hcode hu)
  have hnone : ∀ u, ¬ (s.threads u).SleepsAt code l := not_exists.mp hsleeper
  refine .inr ⟨hnone, ?_⟩
  cases h with
  | atomic _ h | sleep _ h | pass _ h | spurious _ h | timeout _ h | wake_all _ h =>
    exact absurd (hcode.symm.trans h) nofun
  | wake _ _ h hv =>
    obtain ⟨rfl, -⟩ := wake.inj (hcode.symm.trans h)
    exact absurd hv (hnone _)
  | wake_none _ h _ =>
    obtain ⟨-, rfl⟩ := wake.inj (hcode.symm.trans h)
    exact update_self _ _ _

/-- **Waking all.** -/
theorem Step.wakes_all {k : Pc}
    (hcode : code (s.threads t).pc = .wake_all l k) (hu : (s.threads u).SleepsAt code l) :
    s'.threads u = (s.threads u).resume code true := by
  cases h with
  | atomic _ h | sleep _ h | pass _ h | spurious _ h | timeout _ h | wake _ _ h | wake_none _ h =>
    exact absurd (hcode.symm.trans h) nofun
  | @wake_all l' k' threads _ h hsleepers _ =>
    obtain ⟨rfl, -⟩ := wake_all.inj (hcode.symm.trans h)
    have hne : u ≠ t := by
      rintro rfl
      exact absurd (ha.symm.trans hu.1) nofun
    exact (update_of_ne hne _ _).trans (hsleepers u hu)

omit ha

/-- Only its own step takes a thread away from there. -/
theorem Awake.step_or {p : Pc → Bool} (hs : Awake s p) :
    Awake s' p ∨ (s.threads t).asleep = false ∧ p (s.threads t).pc = true := by
  obtain ⟨u, ha, hu⟩ := hs
  by_cases hut : u = t
  · subst hut
    exact .inr ⟨ha, hu⟩
  · refine .inl ⟨u, ?_⟩
    rw [h.other_awake hut ha]
    exact ⟨ha, hu⟩

theorem Awake.step {p : Pc → Bool} (hs : Awake s p)
    (hown : (s.threads t).asleep = false → p (s.threads t).pc = true → Awake s' p) :
    Awake s' p := by
  rcases hs.step_or h with hs' | ⟨ha, hp⟩
  · exact hs'
  · exact hown ha hp

end Steps

/-! ## Runs -/

section Runs

variable [DecidableEq Tid] {s s' : State Tid Mem Pc}

/-- A run whose states all satisfy `ok`. -/
def Run (ok : State Tid Mem Pc → Prop) : State Tid Mem Pc → State Tid Mem Pc → Prop :=
  Relation.ReflTransGen fun s s' => (∃ t, Step code s t s') ∧ ok s'

/-- A state that a run reaches. -/
def Reachable (init : State Tid Mem Pc) : State Tid Mem Pc → Prop := Run code (fun _ => True) init

variable {code}

/-- **An invariant of the steps** holds at the end of a run. -/
@[elab_as_elim]
theorem Run.inv {ok inv : State Tid Mem Pc → Prop}
    (hstep : ∀ s t s', inv s → Step code s t s' → ok s' → inv s') (h : Run code ok s s')
    (hs : inv s) : inv s' := by
  induction h with
  | refl => exact hs
  | tail _ hlast ih =>
    obtain ⟨⟨t, hstep'⟩, hok⟩ := hlast
    exact hstep _ t _ ih hstep' hok

theorem Run.reachable {ok : State Tid Mem Pc → Prop} {init : State Tid Mem Pc}
    (hs : Reachable code init s) (h : Run code ok s s') : Reachable code init s' :=
  hs.trans (Relation.ReflTransGen.mono (fun _ _ h => ⟨h.1, trivial⟩) _ _ h)

theorem Run.mono {ok ok' : State Tid Mem Pc → Prop} (hok : ∀ s, ok s → ok' s)
    (h : Run code ok s s') : Run code ok' s s' :=
  Relation.ReflTransGen.mono (fun _ _ h => ⟨h.1, hok _ h.2⟩) _ _ h

end Runs

/-! ## Schedules -/

section Schedules

variable [DecidableEq Tid] [DecidableEq Loc]

/-- How a step is chosen: an outcome of an access, or a sleeper to wake. -/
inductive Choice (Tid : Type)
  | outcome (i : ℕ)
  | sleeper (u : Tid)

/-- Whether a thread sleeps at `l`. -/
def Thread.sleepsAt (th : Thread Pc) (l : Loc) : Bool :=
  th.asleep && match code th.pc with
    | .wait l' _ _ _ => l' = l
    | _ => false

/-- The step of a thread that is awake, as it is chosen. -/
def act (s : State Tid Mem Pc) (step : Tid × Choice Tid) : Option (State Tid Mem Pc) :=
  let t := step.1
  if (s.threads t).asleep then none
  else
    match code (s.threads t).pc, step.2 with
    | .atomic outcomes, .outcome i =>
      (outcomes s.mem)[i]?.map fun r => ⟨r.1, update s.threads t ⟨r.2, false⟩⟩
    | .wait _ blocks _ k, .outcome _ =>
      if blocks s.mem then
        some ⟨s.mem, update s.threads t ⟨(s.threads t).pc, true⟩⟩
      else some ⟨s.mem, update s.threads t ⟨k true, false⟩⟩
    | .wake l k, .sleeper u =>
      if (s.threads u).sleepsAt code l then
        some ⟨s.mem, update (update s.threads u ((s.threads u).resume code true)) t ⟨k true, false⟩⟩
      else none
    | _, _ => none

variable {code} {s s' : State Tid Mem Pc}

theorem Thread.sleepsAt_spec {th : Thread Pc} {l : Loc} (h : th.sleepsAt code l = true) :
    th.SleepsAt code l := by
  obtain ⟨hasleep, hcode⟩ := Bool.and_eq_true_iff.mp h
  refine ⟨hasleep, ?_⟩
  split at hcode
  · next l' blocks timed k heq =>
    obtain rfl := of_decide_eq_true hcode
    exact ⟨blocks, timed, k, heq⟩
  · cases hcode

theorem act_step {step : Tid × Choice Tid} (h : act code s step = some s') :
    Step code s step.1 s' := by
  rw [act] at h
  cases hawake : (s.threads step.1).asleep with
  | true =>
    rw [if_pos hawake] at h
    cases h
  | false =>
    rw [if_neg (by rw [hawake]; exact Bool.false_ne_true)] at h
    split at h
    · next outcomes i hcode _ =>
      obtain ⟨r, hr, rfl⟩ := Option.map_eq_some_iff.mp h
      exact .atomic hawake hcode (mem_of_getElem? hr)
    · next l blocks timed k i hcode _ =>
      split at h
      · next hblocks =>
        cases h
        exact .sleep hawake hcode hblocks
      · next hblocks =>
        cases h
        exact .pass hawake hcode (Bool.eq_false_iff.mpr hblocks)
    · next l k u hcode _ =>
      split at h
      · next hsleeps =>
        cases h
        exact .wake true hawake hcode (Thread.sleepsAt_spec hsleeps)
      · cases h
    · cases h

/-- **A schedule** is a run. -/
theorem run_of_schedule {ok : State Tid Mem Pc → Bool} {schedule : List (Tid × Choice Tid)}
    (h : schedule.foldlM (fun s step => (act code s step).filter ok) s = some s') :
    Run code (fun s => ok s = true) s s' := by
  induction schedule generalizing s with
  | nil =>
    cases h
    exact .refl
  | cons step schedule ih =>
    rw [foldlM_cons] at h
    obtain ⟨s1, hstep, hrest⟩ := Option.bind_eq_some_iff.mp h
    obtain ⟨hact, hok⟩ := Option.filter_eq_some_iff.mp hstep
    exact .head ⟨⟨step.1, act_step hact⟩, hok⟩ (ih hrest)

/-- Three threads are enough for the schedules on fixed inputs. -/
instance three_ne_zero : NeZero 3 := ⟨by decide⟩

end Schedules

end RustStd.Threads
