import RustStd.Sync.ArcHolds

/-!
# Atomic reference counts over whole runs

Every step of the code is a `Change`, so that the counts and what the threads hold fit together in
every state of a run (`Inv`). The assumptions are that the counts stay below `MAX_REFCOUNT` and that
the threads respect the borrows of the handles (`Allowed`).
-/

namespace RustStd.Sync.Arc

open Threads List Nat

/-! ## The steps -/

/-- What a place remembers. -/
def Pc.Ok : Pc → Prop
  | .aborted => False
  | .upgrade_exchange _ n => n ≠ 0 ∧ n ≤ MAX_REFCOUNT
  | .downgrade_exchange _ cur => cur ≤ MAX_REFCOUNT
  | _ => True

/-- The counts are below `MAX_REFCOUNT`. -/
structure Mem.Below (m : Mem) : Prop where
  strong : m.strong ≤ MAX_REFCOUNT
  weak : m.weak = LOCKED ∨ m.weak ≤ MAX_REFCOUNT

variable {m m' : Mem} {a a' b b' : Hold} {pc pc' : Pc} {n : ℕ}

theorem add_eq (h : n ≤ MAX_REFCOUNT) : add n = n + 1 := by
  have hlt : n + 1 < 2 ^ 64 := Nat.lt_of_le_of_lt (Nat.succ_le_succ h) (by decide)
  exact mod_eq_of_lt hlt

theorem sub_eq (hpos : n ≠ 0) (h : n ≤ MAX_REFCOUNT) : sub n = n - 1 := by
  have hlt : n - 1 < 2 ^ 64 :=
    Nat.lt_of_le_of_lt (Nat.le_trans (Nat.sub_le n 1) h) (by decide)
  obtain ⟨k, rfl⟩ := exists_eq_succ_of_ne_zero hpos
  rw [sub, show k.succ + (2 ^ 64 - 1) = k + 2 ^ 64 by omega, add_mod_right]
  exact mod_eq_of_lt hlt

theorem succ_ne_locked (h : n ≤ MAX_REFCOUNT) : n + 1 ≠ LOCKED :=
  Nat.ne_of_lt (Nat.lt_of_le_of_lt (Nat.succ_le_succ h) (by decide))

theorem Mem.Ok.strong_ne (h : m.Ok) (hn : n ∈ m.strongs) : m.strong ≠ 0 := by
  have hpos := length_pos_of_mem hn
  rw [h.strong]
  omega

theorem code_atomic (pc : Pc) : ∃ outcomes, code pc = .atomic outcomes := by
  cases pc <;> exact ⟨_, rfl⟩

theorem calls_hold (h : pc ∈ calls m) : Change m .nothing m pc.hold ∧ pc.Ok := by
  rcases mem_append.mp h with h | h
  · obtain ⟨n, hn, hpc⟩ := mem_flatMap.mp h
    simp only [strong_calls, mem_cons, not_mem_nil, or_false] at hpc
    rcases hpc with rfl | rfl | rfl | rfl | rfl | rfl | rfl | rfl | rfl <;>
      exact ⟨.borrow hn, trivial⟩
  · obtain ⟨n, hn, hpc⟩ := mem_flatMap.mp h
    simp only [weak_calls, mem_cons, not_mem_nil, or_false] at hpc
    rcases hpc with rfl | rfl | rfl <;> exact ⟨.borrow_weak hn, trivial⟩

theorem downgrade_loop_hold (h : ℕ) (hbelow : m.Below) :
    Change m (.strong h false) m (downgrade_loop h m.weak).hold ∧ (downgrade_loop h m.weak).Ok := by
  rw [downgrade_loop]
  split
  · exact ⟨.same, trivial⟩
  · next hne =>
    have hle := hbelow.weak.resolve_left hne
    rw [if_pos hle]
    exact ⟨.same, hle⟩

theorem upgrade_loop_hold (w : ℕ) (hbelow : m.Below) :
    Change m (.weak w false) m (upgrade_loop w m.strong).hold ∧ (upgrade_loop w m.strong).Ok := by
  rw [upgrade_loop]
  split
  · exact ⟨.give_back ⟨rfl, rfl, rfl⟩, trivial⟩
  · next hne =>
    rw [if_pos hbelow.strong]
    exact ⟨.same, hne, hbelow.strong⟩

theorem left_hold (n : ℕ) : (if n = 1 then Pc.free else .idle).hold = left n := by
  rw [left]
  split
  · rfl
  · rfl

theorem left_ok (n : ℕ) : (if n = 1 then Pc.free else .idle).Ok := by
  split
  · trivial
  · trivial

/-- **Every step is a change.** -/
theorem code_change {outcomes : Mem → List (Mem × Pc)} (hcode : code pc = .atomic outcomes)
    (hmem : (m', pc') ∈ outcomes m) (hok : m.Ok) (hfits : pc.hold.Fits m) (hpc : pc.Ok)
    (hbelow : m.Below) : Change m pc.hold m' pc'.hold ∧ pc'.Ok := by
  cases pc with
  | idle =>
    cases hcode
    obtain ⟨call, hcall, heq⟩ := mem_map.mp hmem
    cases heq
    exact calls_hold hcall
  | aborted => exact absurd hpc id
  | deref | mutating =>
    obtain ⟨rfl, rfl⟩ := rmw_inj hcode hmem
    exact ⟨.give_back ⟨rfl, rfl, rfl⟩, trivial⟩
  | clone h =>
    obtain ⟨rfl, rfl⟩ := rmw_inj hcode hmem
    rw [if_neg (Nat.not_lt.mpr hbelow.strong), add_eq hbelow.strong]
    exact ⟨.clone, trivial⟩
  | downgrade h =>
    obtain ⟨rfl, rfl⟩ := rmw_inj hcode hmem
    exact downgrade_loop_hold h hbelow
  | downgrade_exchange h cur =>
    have hle : cur ≤ MAX_REFCOUNT := hpc
    rcases exchange_weak_inj hcode hmem with ⟨hcur, rfl, rfl⟩ | ⟨rfl, rfl⟩
    · rw [add_eq hle, ← hcur]
      have hne : m.weak ≠ LOCKED := by
        rw [hcur]
        exact Nat.ne_of_lt (Nat.lt_of_le_of_lt hle (by decide))
      exact ⟨.downgrade hne (by rw [hcur]; exact succ_ne_locked hle), trivial⟩
    · exact downgrade_loop_hold h hbelow
  | is_unique h get_mut =>
    rcases exchange_inj hcode hmem with ⟨hweak, rfl, rfl⟩ | ⟨-, rfl, rfl⟩
    · exact ⟨.lock hweak, trivial⟩
    · exact ⟨.give_back ⟨rfl, rfl, rfl⟩, trivial⟩
  | is_unique_load h get_mut =>
    obtain ⟨rfl, rfl⟩ := rmw_inj hcode hmem
    refine ⟨?_, trivial⟩
    cases get_mut with
    | false => exact .same
    | true =>
      cases hone : m'.strong == 1 with
      | false => exact .same
      | true => exact .look (eq_of_beq hone)
  | is_unique_store h get_mut unique =>
    obtain ⟨rfl, rfl⟩ := rmw_inj hcode hmem
    cases get_mut with
    | false => exact ⟨.unlock, trivial⟩
    | true =>
      cases unique with
      | false => exact ⟨.unlock, trivial⟩
      | true => exact ⟨.unlock_unique, trivial⟩
  | drop h c =>
    obtain ⟨rfl, rfl⟩ := rmw_inj hcode hmem
    rw [sub_eq (hok.strong_ne hfits) hbelow.strong]
    split
    · next hne => exact ⟨.drop hne, trivial⟩
    · next hone =>
      have hone := not_not.mp hone
      rw [hone]
      cases c with
      | _ => exact ⟨.take hone, trivial⟩
  | try_unwrap h =>
    rcases exchange_inj hcode hmem with ⟨hone, rfl, rfl⟩ | ⟨-, rfl, rfl⟩
    · exact ⟨.take hone, trivial⟩
    · exact ⟨.give_back ⟨rfl, rfl, rfl⟩, trivial⟩
  | drop_value | read_value | make_mut_move =>
    obtain ⟨rfl, rfl⟩ := rmw_inj hcode hmem
    exact ⟨.consume, trivial⟩
  | dropping =>
    obtain ⟨rfl, rfl⟩ := rmw_inj hcode hmem
    exact ⟨.same, trivial⟩
  | release =>
    obtain ⟨rfl, rfl⟩ := rmw_inj hcode hmem
    obtain ⟨hnone, -, himplicit⟩ := hfits
    obtain ⟨hne, hcount⟩ := hok.weak_of_none hnone
    rw [himplicit, Bool.toNat_true] at hcount
    rw [sub_eq (by omega) (hbelow.weak.resolve_left hne)]
    refine ⟨?_, left_ok m.weak⟩
    rw [left_hold]
    exact .release
  | free =>
    obtain ⟨rfl, rfl⟩ := rmw_inj hcode hmem
    exact ⟨.free, trivial⟩
  | make_mut h =>
    rcases exchange_inj hcode hmem with ⟨hone, rfl, rfl⟩ | ⟨-, rfl, rfl⟩
    · exact ⟨.take hone, trivial⟩
    · exact ⟨.same, trivial⟩
  | make_mut_clone h =>
    obtain ⟨rfl, hpc'⟩ := choose_inj hcode hmem
    simp only [mem_cons, not_mem_nil, or_false] at hpc'
    rcases hpc' with rfl | rfl
    · exact ⟨.give_back ⟨rfl, rfl, rfl⟩, trivial⟩
    · exact ⟨.same, trivial⟩
  | make_mut_weak h =>
    obtain ⟨rfl, rfl⟩ := rmw_inj hcode hmem
    split
    · exact ⟨.same, trivial⟩
    · next hone => exact ⟨.examine (not_not.mp hone), trivial⟩
  | make_mut_restore h =>
    obtain ⟨rfl, rfl⟩ := rmw_inj hcode hmem
    exact ⟨.restore, trivial⟩
  | upgrade w =>
    obtain ⟨rfl, rfl⟩ := rmw_inj hcode hmem
    exact upgrade_loop_hold w hbelow
  | upgrade_exchange w n =>
    obtain ⟨hne, hle⟩ := hpc
    rcases exchange_weak_inj hcode hmem with ⟨hn, rfl, rfl⟩ | ⟨rfl, rfl⟩
    · rw [add_eq hle, ← hn]
      exact ⟨.upgrade (by rw [hn]; exact hne), trivial⟩
    · exact upgrade_loop_hold w hbelow
  | weak_clone w =>
    obtain ⟨rfl, rfl⟩ := rmw_inj hcode hmem
    have hle := hbelow.weak.resolve_left (hok.weak_of_mem hfits).1
    rw [if_neg (Nat.not_lt.mpr hle), add_eq hle]
    exact ⟨.weak_clone (succ_ne_locked hle), trivial⟩
  | weak_drop w =>
    obtain ⟨rfl, rfl⟩ := rmw_inj hcode hmem
    have hpos := length_pos_of_mem hfits
    obtain ⟨hne, hcount⟩ := hok.weak_of_mem hfits
    rw [sub_eq (by omega) (hbelow.weak.resolve_left hne)]
    refine ⟨?_, left_ok m.weak⟩
    rw [left_hold]
    exact .weak_drop

/-! ## Two threads -/

variable (hc : Change m a m' a')
include hc

/-- What a thread newly holds nobody else holds. -/
theorem Change.alone_in (hfits : a.Fits m) (hb : b.Fits m)
    (hab : a.Apart b) : (a'.owner = true → b.owner = false) ∧
      (a'.locker = true → b.locker = false) ∧ (a'.freer = true → b.freer = false) := by
  cases hc with
  | lock hweak =>
    refine ⟨by rintro ⟨⟩, fun _ => ?_, by rintro ⟨⟩⟩
    cases b with
    | lock | lock_unique => exact absurd (hweak.symm.trans hb.2) (by decide)
    | _ => rfl
  | take _ =>
    refine ⟨fun _ => ?_, by rintro ⟨⟩, by rintro ⟨⟩⟩
    cases b with
    | value | value_unique | implicit => exact absurd hb.1 (ne_nil_of_mem hfits)
    | _ => rfl
  | release =>
    rw [left]
    split
    · refine ⟨by rintro ⟨⟩, by rintro ⟨⟩, fun _ => ?_⟩
      cases b with
      | block => exact absurd (hb.2.2.1.symm.trans hfits.2.2) Bool.false_ne_true
      | _ => rfl
    · exact ⟨by rintro ⟨⟩, by rintro ⟨⟩, by rintro ⟨⟩⟩
  | weak_drop =>
    rw [left]
    split
    · refine ⟨by rintro ⟨⟩, by rintro ⟨⟩, fun _ => ?_⟩
      cases b with
      | block => exact absurd hb.2.1 (ne_nil_of_mem hfits)
      | _ => rfl
    · exact ⟨by rintro ⟨⟩, by rintro ⟨⟩, by rintro ⟨⟩⟩
  | same | look | examine | consume => exact ⟨hab.owner, hab.locker, hab.freer⟩
  | _ => exact ⟨by rintro ⟨⟩, by rintro ⟨⟩, by rintro ⟨⟩⟩

/-- Who has to release the weak reference of the strong handles. -/
theorem Change.owner (hok : m.Ok) (hfits : a.Fits m)
    (hnone : m'.strongs = []) (himplicit : m'.implicit = true) :
    a'.owner = true ∨ m.strongs = [] ∧ m.implicit = true ∧ a.owner = false := by
  cases hc with
  | same =>
    cases h : a.owner with
    | true => exact .inl rfl
    | false => exact .inr ⟨hnone, himplicit, rfl⟩
  | give_back h => exact .inr ⟨hnone, himplicit, h.1⟩
  | clone | restore | upgrade => cases hnone
  | @drop h _ hstrong =>
    have hlen := length_erase_of_mem hfits
    have hpos := length_pos_of_mem hfits
    have hcount := hok.strong
    have hzero : (m.strongs.erase h).length = 0 := length_eq_zero_iff.mpr hnone
    omega
  | take | examine | consume => exact .inl rfl
  | release => cases himplicit
  | _ => exact .inr ⟨hnone, himplicit, rfl⟩

/-- Who has to unlock the weak count. -/
theorem Change.locker (hok : m.Ok) (hlocked : m'.weak = LOCKED) :
    a'.locker = true ∨ m.weak = LOCKED ∧ a.locker = false := by
  have hle := hok.weak_le
  have hpos : 1 < LOCKED := by decide
  cases hc with
  | same =>
    cases h : a.locker with
    | true => exact .inl rfl
    | false => exact .inr ⟨hlocked, rfl⟩
  | give_back h => exact .inr ⟨hlocked, h.2.1⟩
  | downgrade _ hlt | weak_clone hlt => exact absurd hlocked hlt
  | lock | look => exact .inl rfl
  | unlock | unlock_unique => exact absurd hlocked (Nat.ne_of_lt hpos)
  | release | weak_drop =>
    have heq : m.weak - 1 = LOCKED := hlocked
    omega
  | _ => exact .inr ⟨hlocked, rfl⟩

/-- Who has to free the memory. -/
theorem Change.freer (hok : m.Ok) (hfits : a.Fits m)
    (himplicit : m'.implicit = false) (hweaks : m'.weaks = []) (hfreed : m'.freed = 0) :
    a'.freer = true ∨ m.implicit = false ∧ m.weaks = [] ∧ m.freed = 0 ∧ a.freer = false := by
  cases hc with
  | same =>
    cases h : a.freer with
    | true => exact .inl rfl
    | false => exact .inr ⟨himplicit, hweaks, hfreed, rfl⟩
  | give_back h => exact .inr ⟨himplicit, hweaks, hfreed, h.2.2⟩
  | downgrade | weak_clone => cases hweaks
  | release =>
    obtain ⟨hnone, -, htrue⟩ := hfits
    obtain ⟨-, hcount⟩ := hok.weak_of_none hnone
    have hweaks' : m.weaks = [] := hweaks
    rw [hweaks', htrue] at hcount
    rw [hcount]
    exact .inl rfl
  | free => cases hfreed
  | @weak_drop w =>
    have hlen := length_erase_of_mem hfits
    have hpos := length_pos_of_mem hfits
    obtain ⟨-, hcount⟩ := hok.weak_of_mem hfits
    have hzero : (m.weaks.erase w).length = 0 := length_eq_zero_iff.mpr hweaks
    have hfalse : m.implicit = false := himplicit
    rw [hfalse, Bool.toNat_false] at hcount
    have hone : m.weak = 1 := by omega
    rw [hone]
    exact .inl rfl
  | _ => exact .inr ⟨himplicit, hweaks, hfreed, rfl⟩

omit hc

/-! ## The invariant -/

variable {Tid : Type} {s s' : State Tid Mem Pc} {t u v : Tid}

/-- What the thread `t` holds. -/
def holds (s : State Tid Mem Pc) (t : Tid) : Hold := (s.threads t).pc.hold

/-- **What is assumed of a state.** The counts are below `MAX_REFCOUNT`; and nobody else uses a
handle that is consumed or mutably borrowed. -/
structure Allowed (s : State Tid Mem Pc) : Prop where
  below : s.mem.Below
  borrow : ∀ t u, t ≠ u → (holds s t).exclusive = true → (holds s t).handle ≠ (holds s u).handle

/-- **The invariant.** -/
structure Inv (s : State Tid Mem Pc) : Prop where
  allowed : Allowed s
  awake : ∀ t, (s.threads t).asleep = false
  ok : s.mem.Ok
  places : ∀ t, (s.threads t).pc.Ok
  fits : ∀ t, (holds s t).Fits s.mem
  apart : ∀ t u, t ≠ u → (holds s t).Apart (holds s u)
  owner : s.mem.strongs = [] → s.mem.implicit = true → ∃ t, (holds s t).owner = true
  locker : s.mem.weak = LOCKED → ∃ t, (holds s t).locker = true
  freer : s.mem.implicit = false → s.mem.weaks = [] → s.mem.freed = 0 →
    ∃ t, (holds s t).freer = true

/-- The last strong handle is not consumed while the weak count is locked. -/
theorem Inv.last (hs : Inv s) {h : ℕ} (ht : holds s t = .strong h true) (hone : s.mem.strong = 1) :
    s.mem.weak ≠ LOCKED := by
  intro hlocked
  obtain ⟨u, hu⟩ := hs.locker hlocked
  have hne : t ≠ u := by
    rintro rfl
    rw [ht] at hu
    cases hu
  obtain ⟨h', hsingle⟩ := length_eq_one_iff.mp (hs.ok.strong.symm.trans hone)
  have hmem := hs.fits t
  rw [ht] at hmem
  have heq : h = h' := mem_singleton.mp (hsingle ▸ hmem)
  have hborrow := hs.allowed.borrow t u hne
  have hfits := hs.fits u
  rw [ht] at hborrow
  cases hu' : holds s u with
  | lock h'' e =>
    rw [hu'] at hborrow hfits
    have heq' : h'' = h' := mem_singleton.mp (hsingle ▸ hfits.1)
    exact hborrow rfl (by rw [heq, ← heq']; rfl)
  | lock_unique h'' =>
    rw [hu'] at hborrow hfits
    have heq' : h' = h'' := head_eq_of_cons_eq (hsingle.symm.trans hfits.1)
    exact hborrow rfl (by rw [heq, heq']; rfl)
  | _ =>
    rw [hu'] at hu
    cases hu

variable [DecidableEq Tid]

/-- **A step** for its own thread and for the others. -/
theorem Inv.change (hs : Inv s) (h : Step code s t s') :
    (s'.threads t).asleep = false ∧ Change s.mem (holds s t) s'.mem (holds s' t) ∧
      (s'.threads t).pc.Ok := by
  obtain ⟨outcomes, hcode, hmem, hawake⟩ := h.atomic_inv code_atomic
  exact ⟨hawake, code_change hcode hmem hs.ok (hs.fits t) (hs.places t) hs.allowed.below⟩

theorem holds_other (h : Step code s t s') (hu : u ≠ t) : holds s' u = holds s u := by
  rw [holds, h.other_eq code_atomic hu, holds]

/-- Someone who holds it still does, or `t` was the one. -/
theorem exists_holds (h : Step code s t s') {f : Hold → Bool} (hex : ∃ u, f (holds s u) = true)
    (ht : f (holds s t) = false) : ∃ u, f (holds s' u) = true := by
  obtain ⟨u, hu⟩ := hex
  have hne : u ≠ t := by
    rintro rfl
    exact absurd (ht.symm.trans hu) nofun
  exact ⟨u, by rwa [holds_other h hne]⟩

theorem Inv.apart_step (hs : Inv s) (h : Step code s t s') (hallowed : Allowed s') (huv : u ≠ v) :
    (holds s' u).Apart (holds s' v) := by
  obtain ⟨-, hc, -⟩ := hs.change h
  have hpair {u : Tid} (hu : u ≠ t) := hc.alone_in (hs.fits t) (hs.fits u) (hs.apart t u hu.symm)
  have hnot {x y : Bool} (himp : x = true → y = false) (hy : y = true) : x = false :=
    Bool.eq_false_iff.mpr fun hx => absurd (hy.symm.trans (himp hx)) nofun
  by_cases hu : u = t
  · subst hu
    obtain ⟨howner, hlocker, hfreer⟩ := hpair huv.symm
    rw [← holds_other h huv.symm] at howner hlocker hfreer
    exact ⟨hallowed.borrow u v huv, howner, hlocker, hfreer⟩
  by_cases hv : v = t
  · subst hv
    obtain ⟨howner, hlocker, hfreer⟩ := hpair hu
    rw [← holds_other h hu] at howner hlocker hfreer
    exact ⟨hallowed.borrow u v huv, hnot howner, hnot hlocker, hnot hfreer⟩
  · obtain ⟨-, howner, hlocker, hfreer⟩ := hs.apart u v huv
    rw [← holds_other h hu, ← holds_other h hv] at howner hlocker hfreer
    exact ⟨hallowed.borrow u v huv, howner, hlocker, hfreer⟩

theorem Inv.step (hs : Inv s) (h : Step code s t s') (hallowed : Allowed s') : Inv s' := by
  obtain ⟨hawake, hc, hplace⟩ := hs.change h
  have hfits := hs.fits t
  refine ⟨hallowed, fun u => ?_, hc.ok hs.ok hfits fun h ht => hs.last ht, fun u => ?_, fun u => ?_,
    fun u v huv => hs.apart_step h hallowed huv, fun hnone himplicit => ?_, fun hlocked => ?_,
    fun himplicit hweaks hfreed => ?_⟩
  · by_cases hu : u = t
    · rw [hu]
      exact hawake
    · rw [h.other_eq code_atomic hu]
      exact hs.awake u
  · by_cases hu : u = t
    · rw [hu]
      exact hplace
    · rw [h.other_eq code_atomic hu]
      exact hs.places u
  · by_cases hu : u = t
    · rw [hu]
      exact hc.fits hs.ok hfits
    · rw [holds_other h hu]
      exact hc.fits_other hs.ok hfits (hs.fits u) (hs.apart t u (Ne.symm hu)) (hs.apart u t hu)
  · rcases hc.owner hs.ok hfits hnone himplicit with ht | ⟨hnone', himplicit', ht⟩
    · exact ⟨t, ht⟩
    · exact exists_holds h (hs.owner hnone' himplicit') ht
  · rcases hc.locker hs.ok hlocked with ht | ⟨hlocked', ht⟩
    · exact ⟨t, ht⟩
    · exact exists_holds h (hs.locker hlocked') ht
  · rcases hc.freer hs.ok hfits himplicit hweaks hfreed with ht | ⟨himplicit', hweaks', hfreed', ht⟩
    · exact ⟨t, ht⟩
    · exact exists_holds h (hs.freer himplicit' hweaks' hfreed') ht

omit [DecidableEq Tid] in
theorem inv_init : Inv (init : State Tid Mem Pc) := by
  have hle : 1 ≤ MAX_REFCOUNT := by decide
  have hlt : 1 < LOCKED := by decide
  exact {
    allowed := ⟨⟨hle, .inr hle⟩, fun _ _ _ h => absurd h nofun⟩
    awake := fun _ => rfl
    ok := {
      strong := rfl
      shared := fun _ => rfl
      implicit := fun _ => rfl
      weak_le := Nat.le_of_lt hlt
      weak := fun _ => rfl
      locked := fun h => absurd h (Nat.ne_of_lt hlt)
      freed := fun _ => rfl
      fates_le := zero_le 1
      freed_le := zero_le 1
      others := fun _ h => absurd h not_mem_nil }
    places := fun _ => trivial
    fits := fun _ => trivial
    apart := fun _ _ _ => ⟨nofun, nofun, nofun, nofun⟩
    owner := fun h => absurd h nofun
    locker := fun h => absurd h (Nat.ne_of_lt hlt)
    freer := fun h => absurd h nofun }

theorem inv (h : Run code Allowed init s) : Inv s :=
  h.inv (fun _ _ _ hs h hallowed => hs.step h hallowed) inv_init

end RustStd.Sync.Arc
