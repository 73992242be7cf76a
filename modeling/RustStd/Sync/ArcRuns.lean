import Mathlib.Data.Fintype.Basic
import RustStd.Sync.ArcInvariants

/-!
# The life of an allocation

What follows for the value and for the memory in every state of a run (`arc`). `is_unique` only
borrows the handle, so that a clone of it can appear before the call returns (`is_unique_cloned`).
-/

namespace RustStd.Sync.Arc

open Threads List

variable {Tid : Type} {s s' : State Tid Mem Pc} {t u : Tid} {m m' : Mem} {a a' : Hold} {pc pc' : Pc}

/-- Every thread is between two calls. -/
def Finished (s : State Tid Mem Pc) : Prop := ∀ t, (s.threads t).pc = .idle

/-- Places that use the allocation. -/
def Pc.uses_memory : Pc → Bool
  | .idle | .aborted => false
  | _ => true

/-- Places that read the value, or take it away. -/
def Pc.uses_value : Pc → Bool
  | .deref _ | .mutating _ | .make_mut_clone _ | .make_mut_move => true
  | .drop_value | .read_value _ => true
  | _ => false

/-- Places where the value goes, or has gone. -/
def Pc.ends_value : Pc → Bool
  | .drop_value | .dropping | .read_value _ | .make_mut_move | .release => true
  | _ => false

theorem Mem.Ok.freed_of_strong (h : m.Ok) {n : ℕ} (hn : n ∈ m.strongs) : m.freed = 0 :=
  h.freed (.inl (h.implicit_of_strong hn))

/-- While something is held the memory is there. -/
theorem Hold.Fits.freed (h : a.Fits m) (hok : m.Ok) (hne : a ≠ .nothing) : m.freed = 0 := by
  cases a with
  | nothing => exact absurd rfl hne
  | strong _ _ => exact hok.freed_of_strong h
  | weak _ _ => exact hok.freed (.inr (ne_nil_of_mem h))
  | lock _ _ => exact hok.freed_of_strong h.1
  | lock_unique | unique => exact hok.freed_of_strong (h.1 ▸ mem_singleton_self _)
  | value => exact hok.freed (.inl (hok.implicit h.2))
  | value_unique _ => exact hok.freed (.inl (hok.implicit h.2.1))
  | implicit => exact hok.freed (.inl h.2.2)
  | block => exact h.2.2.2

variable (hs : Inv s)
include hs

theorem Inv.memory (ht : (s.threads t).pc.uses_memory = true) : s.mem.freed = 0 := by
  refine (hs.fits t).freed hs.ok fun hnothing => ?_
  rw [holds] at hnothing
  cases hpc : (s.threads t).pc with
  | idle | aborted => rw [hpc] at ht; cases ht
  | is_unique_store h get_mut unique =>
    rw [hpc, Pc.hold] at hnothing
    split at hnothing <;> cases hnothing
  | _ => rw [hpc] at hnothing; cases hnothing

theorem Inv.value (ht : (s.threads t).pc.uses_value = true) : s.mem.fates = [] := by
  have hfits := hs.fits t
  rw [holds] at hfits
  cases hpc : (s.threads t).pc with
  | deref | make_mut_clone => rw [hpc] at hfits; exact hs.ok.shared (ne_nil_of_mem hfits)
  | mutating h =>
    rw [hpc] at hfits
    exact hs.ok.shared (by rw [hfits.1]; exact cons_ne_nil _ _)
  | drop_value | read_value | make_mut_move => rw [hpc] at hfits; exact hfits.2
  | _ => rw [hpc] at ht; cases ht

/-- The value has ended when nobody holds a strong handle and no thread runs. -/
theorem Inv.ended (h : Finished s) (hnone : s.mem.strongs = []) :
    s.mem.implicit = false ∧ s.mem.fates.length = 1 := by
  have himplicit : s.mem.implicit = false := by
    refine Bool.eq_false_iff.mpr fun himplicit => ?_
    obtain ⟨t, ht⟩ := hs.owner hnone himplicit
    rw [holds, h t] at ht
    cases ht
  refine ⟨himplicit, Nat.le_antisymm hs.ok.fates_le (length_pos_iff.mpr fun hfates => ?_)⟩
  exact absurd (himplicit.symm.trans (hs.ok.implicit hfates)) Bool.false_ne_true

theorem Inv.freed (h : Finished s) (hnone : s.mem.strongs = [])
    (hweaks : s.mem.weaks = []) : s.mem.freed = 1 := by
  obtain ⟨himplicit, -⟩ := hs.ended h hnone
  refine Nat.le_antisymm hs.ok.freed_le (Nat.pos_of_ne_zero fun hfreed => ?_)
  obtain ⟨t, ht⟩ := hs.freer himplicit hweaks hfreed
  rw [holds, h t] at ht
  cases ht

/-- `into_inner` returned the value when nothing else consumed a handle. -/
theorem Inv.into_inner (h : Finished s) (hnone : s.mem.strongs = [])
    (hothers : s.mem.others = false) : s.mem.fates = [.into_inner] := by
  obtain ⟨-, hlen⟩ := hs.ended h hnone
  obtain ⟨f, hf⟩ := length_eq_one_iff.mp hlen
  rw [hf]
  by_contra hne
  have hother := hs.ok.others f (hf ▸ mem_singleton_self f) fun heq => hne (by rw [heq])
  exact absurd (hothers.symm.trans hother) nofun

/-- While there is a strong handle the value is not taken away. -/
theorem Inv.alive (hne : s.mem.strongs ≠ []) (t : Tid) : (s.threads t).pc.ends_value = false := by
  have hfits := hs.fits t
  rw [holds] at hfits
  cases hpc : (s.threads t).pc with
  | drop_value | dropping | read_value | make_mut_move | release =>
    rw [hpc] at hfits; exact absurd hfits.1 hne
  | _ => rfl

omit hs

theorem Change.upgraded {w : ℕ} (hc : Change m (.weak w false) m' a')
    (hne : m'.strongs ≠ m.strongs) : m.strong ≠ 0 := by
  cases hc with
  | upgrade h => exact h
  | _ => exact absurd rfl hne

/-- Besides a strong handle that is the only one, `clone` alone makes another one. -/
theorem Change.unique (hc : Change m a m' a') (hfits : a.Fits m) {h : ℕ} (hone : m.strongs = [h])
    (hweaks : m.weaks = []) (hlocked : m.weak = LOCKED)
    (hne : a.exclusive = true → a.handle ≠ some (.strong h)) :
    m'.strongs = [h] ∧ m'.weaks = [] ∨ a = .strong h false ∧ m'.strongs ≠ m.strongs := by
  have hsingle {n : ℕ} (hn : n ∈ m.strongs) : n = h := mem_singleton.mp (hone ▸ hn)
  by_cases hhandle : a.handle = some (.strong h)
  · cases hc with
    | @clone n =>
      rw [hsingle hfits]
      exact .inr ⟨rfl, cons_ne_self _ _⟩
    | downgrade hunlocked _ => exact absurd hlocked hunlocked
    | drop | take => exact absurd hhandle (hne rfl)
    | restore | upgrade | weak_clone | weak_drop => cases hhandle
    | _ => exact .inl ⟨hone, hweaks⟩
  · exact .inl (hc.alone hfits hone hweaks hhandle)

theorem code_clone {outcomes : Mem → List (Mem × Pc)} (hcode : code pc = .atomic outcomes)
    (hmem : (m', pc') ∈ outcomes m) {h : ℕ} (hpc : pc.hold = .strong h false)
    (hne : m'.strongs ≠ m.strongs) : pc = .clone h := by
  cases pc with
  | clone n =>
    cases hpc
    rfl
  | deref | downgrade =>
    obtain ⟨rfl, -⟩ := rmw_inj hcode hmem
    exact absurd rfl hne
  | downgrade_exchange n cur =>
    rcases exchange_weak_inj hcode hmem with ⟨-, rfl, -⟩ | ⟨rfl, -⟩
    · exact absurd rfl hne
    · exact absurd rfl hne
  | is_unique n get_mut =>
    rcases exchange_inj hcode hmem with ⟨-, rfl, -⟩ | ⟨-, rfl, -⟩
    · exact absurd rfl hne
    · exact absurd rfl hne
  | is_unique_store n get_mut unique =>
    rw [Pc.hold] at hpc
    split at hpc <;> cases hpc
  | _ => cases hpc

variable [DecidableEq Tid]

/-- `upgrade` makes a strong handle only where there is one. -/
theorem Inv.upgrade (hs : Inv s) (h : Step code s t s') {w n : ℕ}
    (hpc : (s.threads t).pc = .upgrade_exchange w n) (hne : s'.mem.strongs ≠ s.mem.strongs) :
    s.mem.strongs ≠ [] := by
  obtain ⟨-, hc, -⟩ := hs.change h
  rw [holds, hpc] at hc
  intro hnone
  refine hc.upgraded hne ?_
  rw [hs.ok.strong, hnone]
  rfl

/-- Where `is_unique` finds out that the handle is the only one. -/
theorem Inv.is_unique_load (hs : Inv s) (h : Step code s t s') {n : ℕ} {get_mut : Bool}
    (hpc : (s.threads t).pc = .is_unique_load n get_mut)
    (hpc' : (s'.threads t).pc = .is_unique_store n get_mut true) :
    s'.mem.strongs = [n] ∧ s'.mem.weaks = [] := by
  obtain ⟨outcomes, hcode, hmem, -⟩ := h.atomic_inv code_atomic
  have hfits := hs.fits t
  rw [holds, hpc] at hfits
  rw [hpc] at hcode
  obtain ⟨hmem', hplace⟩ := rmw_inj hcode hmem
  rw [hpc'] at hplace
  have hone : s.mem.strong = 1 := eq_of_beq (Pc.is_unique_store.inj hplace).2.2.symm
  obtain ⟨n', hsingle⟩ := length_eq_one_iff.mp (hs.ok.strong.symm.trans hone)
  obtain rfl : n = n' := mem_singleton.mp (hsingle ▸ hfits.1)
  rw [hmem']
  exact ⟨hsingle, (hs.ok.locked hfits.2).2⟩

theorem Inv.is_unique_step (hs : Inv s) {n : ℕ} {get_mut : Bool}
    (ht : (s.threads t).pc = .is_unique_store n get_mut true) (hone : s.mem.strongs = [n])
    (hweaks : s.mem.weaks = []) (h : Step code s u s') :
    s'.mem.strongs = [n] ∧ s'.mem.weaks = [] ∨ (s.threads u).pc = .clone n := by
  have hheld : s.mem.weak = LOCKED ∧ (holds s t).handle = some (.strong n) := by
    have hfits := hs.fits t
    rw [holds, ht] at hfits
    rw [holds, ht]
    cases get_mut with
    | false | true => exact ⟨hfits.2, rfl⟩
  obtain ⟨outcomes, hcode, hmem, -⟩ := h.atomic_inv code_atomic
  by_cases hu : u = t
  · subst hu
    rw [ht] at hcode
    obtain ⟨hmem', -⟩ := rmw_inj hcode hmem
    rw [hmem']
    exact .inl ⟨hone, hweaks⟩
  · obtain ⟨-, hc, -⟩ := hs.change h
    have hborrow := hs.allowed.borrow u t hu
    rw [hheld.2] at hborrow
    rcases hc.unique (hs.fits u) hone hweaks hheld.1 hborrow with halone | ⟨hhold, hne⟩
    · exact .inl halone
    · exact .inr (code_clone hcode hmem hhold hne)

/-- **Atomic reference counts.** The value ends once, when no strong handle remains, and the memory
is freed once, after that, when no handle remains; until then it is there for everybody who uses it.
`upgrade` makes a strong handle only where there is one; what `get_mut` and `make_mut` borrow has no
other handle, nor has what `is_unique` looks at, until that is cloned; and `into_inner` returns the
value when nothing else consumed a handle. -/
theorem arc (hrun : Run code Allowed init s) :
    (s.mem.fates.length ≤ 1 ∧ (s.mem.fates ≠ [] → s.mem.strongs = []) ∧
      (Finished s → s.mem.strongs = [] → s.mem.fates.length = 1)) ∧
    (s.mem.freed ≤ 1 ∧
      (s.mem.freed ≠ 0 → s.mem.fates ≠ [] ∧ s.mem.strongs = [] ∧ s.mem.weaks = []) ∧
      (Finished s → s.mem.strongs = [] → s.mem.weaks = [] → s.mem.freed = 1)) ∧
    (∀ t, ((s.threads t).pc.uses_memory = true → s.mem.freed = 0) ∧
      ((s.threads t).pc.uses_value = true → s.mem.fates = []) ∧
      (s.mem.strongs ≠ [] → (s.threads t).pc.ends_value = false)) ∧
    (∀ t s' w n, Step code s t s' → (s.threads t).pc = .upgrade_exchange w n →
      s'.mem.strongs ≠ s.mem.strongs → s.mem.strongs ≠ [] ∧ s.mem.fates = []) ∧
    (∀ t h, (s.threads t).pc = .mutating h → s.mem.strongs = [h] ∧ s.mem.weaks = []) ∧
    (∀ t s' h get_mut, Step code s t s' → (s.threads t).pc = .is_unique_load h get_mut →
      (s'.threads t).pc = .is_unique_store h get_mut true →
      s'.mem.strongs = [h] ∧ s'.mem.weaks = []) ∧
    (∀ t u s' h get_mut, (s.threads t).pc = .is_unique_store h get_mut true →
      s.mem.strongs = [h] → s.mem.weaks = [] → Step code s u s' →
      s'.mem.strongs = [h] ∧ s'.mem.weaks = [] ∨ (s.threads u).pc = .clone h) ∧
    (Finished s → s.mem.strongs = [] → s.mem.others = false → s.mem.fates = [.into_inner]) := by
  have hs := inv hrun
  have hended (hne : s.mem.fates ≠ []) : s.mem.strongs = [] := by
    by_contra hstrongs
    exact hne (hs.ok.shared hstrongs)
  refine ⟨⟨hs.ok.fates_le, hended, fun h hnone => (hs.ended h hnone).2⟩,
    ⟨hs.ok.freed_le, fun hfreed => ?_, fun h => hs.freed h⟩,
    fun t => ⟨hs.memory, hs.value, fun hne => hs.alive hne t⟩, fun t s' w n h hpc hne => ?_,
    fun t h hpc => ?_, fun t s' h get_mut hstep => hs.is_unique_load hstep,
    fun t u s' h get_mut hpc => hs.is_unique_step hpc, hs.into_inner⟩
  · have hfates : s.mem.fates ≠ [] := fun h => hfreed (hs.ok.freed (.inl (hs.ok.implicit h)))
    refine ⟨hfates, hended hfates, ?_⟩
    by_contra hweaks
    exact hfreed (hs.ok.freed (.inr hweaks))
  · have hstrongs := hs.upgrade h hpc hne
    exact ⟨hstrongs, hs.ok.shared hstrongs⟩
  · have hfits := hs.fits t
    rw [holds, hpc] at hfits
    exact hfits

/-! ## Two runs -/

instance : DecidablePred Mem.Below := fun m =>
  decidable_of_iff (m.strong ≤ MAX_REFCOUNT ∧ (m.weak = LOCKED ∨ m.weak ≤ MAX_REFCOUNT))
    ⟨fun h => ⟨h.1, h.2⟩, fun h => ⟨h.strong, h.weak⟩⟩

instance [Fintype Tid] : DecidablePred (@Allowed Tid) := fun s =>
  decidable_of_iff (s.mem.Below ∧ ∀ t u, t ≠ u → (holds s t).exclusive = true →
    (holds s t).handle ≠ (holds s u).handle) ⟨fun h => ⟨h.1, h.2⟩, fun h => ⟨h.below, h.borrow⟩⟩

/-- The state that a schedule ends in. -/
def play (schedule : List (Fin 2 × Choice (Fin 2))) : Option (State (Fin 2) Mem Pc) :=
  schedule.foldlM (fun s step => (act code s step).filter fun s => decide (Allowed s)) init

variable {s : State (Fin 2) Mem Pc}

theorem play_run {schedule : List (Fin 2 × Choice (Fin 2))}
    (h : play schedule = some s) : Run code Allowed init s :=
  (run_of_schedule h).mono fun _ h => of_decide_eq_true h

theorem state_ext {s' : State (Fin 2) Mem Pc} (hmem : s.mem = s'.mem)
    (h0 : s.threads 0 = s'.threads 0) (h1 : s.threads 1 = s'.threads 1) : s = s' := by
  obtain ⟨m, threads⟩ := s
  obtain ⟨m', threads'⟩ := s'
  obtain rfl : m = m' := hmem
  obtain rfl : threads = threads' := by
    funext t
    match t with
    | 0 => exact h0
    | 1 => exact h1
  rfl

theorem play_eq {schedule : List (Fin 2 × Choice (Fin 2))}
    (h : (play schedule).map (fun s => (s.mem, s.threads 0, s.threads 1)) =
      some (s.mem, s.threads 0, s.threads 1)) : play schedule = some s := by
  obtain ⟨s', hplay, heq⟩ := Option.map_eq_some_iff.mp h
  obtain ⟨hmem, heq⟩ := Prod.mk.inj heq
  obtain ⟨h0, h1⟩ := Prod.mk.inj heq
  rw [hplay, state_ext hmem h0 h1]

/-- The only handle was consumed by `into_inner`. -/
def consumed : State (Fin 2) Mem Pc :=
  ⟨⟨0, 0, [], [], 1, false, [.into_inner], 1, false⟩, fun _ => ⟨.idle, false⟩⟩

theorem run_consumed : Run code Allowed init consumed := by
  have hplay : play [(0, .outcome 6), (0, .outcome 0), (0, .outcome 0), (0, .outcome 0),
      (0, .outcome 0)] = some consumed := play_eq rfl
  exact play_run hplay

/-- Then it returned the value, and the memory is freed. -/
theorem arc_consumed : consumed.mem.fates = [.into_inner] ∧ consumed.mem.freed = 1 := by
  obtain ⟨-, ⟨-, -, hfreed⟩, -, -, -, -, -, hinto⟩ := arc run_consumed
  exact ⟨hinto (fun _ => rfl) rfl rfl, hfreed (fun _ => rfl) rfl rfl⟩

/-- The thread 0 is in `is_unique` and has seen no other handle; the thread 1 has cloned it. -/
def cloned : State (Fin 2) Mem Pc :=
  ⟨⟨2, LOCKED, [1, 0], [], 2, true, [], 0, false⟩,
    Function.update (fun _ => ⟨.idle, false⟩) 0 ⟨.is_unique_store 0 false true, false⟩⟩

theorem run_cloned : Run code Allowed init cloned := by
  have hplay : play [(0, .outcome 3), (1, .outcome 1), (0, .outcome 0), (0, .outcome 0),
      (1, .outcome 0)] = some cloned := play_eq rfl
  exact play_run hplay

/-- **`is_unique` can return `true` when there is another handle**: it only borrows the one that it
looks at. -/
theorem is_unique_cloned : ¬ ∀ (s s' : State (Fin 2) Mem Pc) (t : Fin 2) (h : ℕ),
    Run code Allowed init s → Step code s t s' → Allowed s' →
    (s.threads t).pc = .is_unique_store h false true → s'.mem.strongs = [h] := by
  intro hall
  have hstep : Step code cloned 0 _ := .atomic_at rfl rfl (mem_singleton_self _)
  have hone := hall cloned _ 0 0 run_cloned hstep (by decide) rfl
  cases hone

end RustStd.Sync.Arc
