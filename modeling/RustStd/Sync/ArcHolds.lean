import RustStd.Sync.Arc

/-!
# What a thread holds of an allocation

What the places in the code of `Arc` mean for the others (`Hold`): a handle that is used, the lock
on the weak count, the value itself, the weak reference of the strong handles, or the memory. A step
changes what is held and the counts together (`Change`), and the counts stay what they should be
(`Ok`, `Fits`).
-/

namespace RustStd.Sync.Arc

open Threads List

inductive Handle
  | strong (h : ℕ)
  | weak (w : ℕ)
  deriving DecidableEq

/-- What a thread holds. -/
inductive Hold
  | nothing
  /-- A strong handle that is used, exclusively or not. -/
  | strong (h : ℕ) (exclusive : Bool)
  | weak (w : ℕ) (exclusive : Bool)
  /-- The lock on the weak count too. -/
  | lock (h : ℕ) (exclusive : Bool)
  /-- There is no other strong handle. -/
  | lock_unique (h : ℕ)
  /-- There is no other handle. -/
  | unique (h : ℕ)
  /-- The value, and the weak reference of the strong handles. -/
  | value
  /-- There is no handle at all. -/
  | value_unique (h : ℕ)
  /-- The weak reference of the strong handles. -/
  | implicit
  /-- The memory. -/
  | block

def Pc.hold : Pc → Hold
  | .idle | .aborted => .nothing
  | .deref h | .clone h | .downgrade h | .downgrade_exchange h _ => .strong h false
  | .is_unique h get_mut => .strong h get_mut
  | .is_unique_load h get_mut => .lock h get_mut
  | .is_unique_store h get_mut unique =>
    if get_mut && unique then .lock_unique h else .lock h get_mut
  | .mutating h => .unique h
  | .drop h _ | .try_unwrap h | .make_mut h | .make_mut_clone h => .strong h true
  | .drop_value | .read_value _ | .make_mut_weak _ | .make_mut_move => .value
  | .make_mut_restore h => .value_unique h
  | .dropping | .release => .implicit
  | .free => .block
  | .upgrade w | .upgrade_exchange w _ | .weak_clone w => .weak w false
  | .weak_drop w => .weak w true

/-- The handle that is used. -/
def Hold.handle : Hold → Option Handle
  | .strong h _ | .lock h _ | .lock_unique h | .unique h => some (.strong h)
  | .weak w _ => some (.weak w)
  | _ => none

def Hold.exclusive : Hold → Bool
  | .strong _ exclusive | .weak _ exclusive | .lock _ exclusive => exclusive
  | .lock_unique _ | .unique _ => true
  | _ => false

/-- Holding the weak reference of the strong handles. -/
def Hold.owner : Hold → Bool
  | .value | .value_unique _ | .implicit => true
  | _ => false

def Hold.locker : Hold → Bool
  | .lock _ _ | .lock_unique _ => true
  | _ => false

def Hold.freer : Hold → Bool
  | .block => true
  | _ => false

/-- **The counts.** -/
structure Mem.Ok (m : Mem) : Prop where
  strong : m.strong = m.strongs.length
  shared : m.strongs ≠ [] → m.fates = []
  implicit : m.fates = [] → m.implicit = true
  weak_le : m.weak ≤ LOCKED
  weak : m.weak ≠ LOCKED → m.weak = m.weaks.length + m.implicit.toNat
  locked : m.weak = LOCKED → m.strongs ≠ [] ∧ m.weaks = []
  freed : m.implicit = true ∨ m.weaks ≠ [] → m.freed = 0
  fates_le : m.fates.length ≤ 1
  freed_le : m.freed ≤ 1
  others : ∀ f ∈ m.fates, f ≠ .into_inner → m.others = true

/-- What holds of the counts while something is held. -/
def Hold.Fits (m : Mem) : Hold → Prop
  | .nothing => True
  | .strong h _ => h ∈ m.strongs
  | .weak w _ => w ∈ m.weaks
  | .lock h _ => h ∈ m.strongs ∧ m.weak = LOCKED
  | .lock_unique h => m.strongs = [h] ∧ m.weak = LOCKED
  | .unique h => m.strongs = [h] ∧ m.weaks = []
  | .value => m.strongs = [] ∧ m.fates = []
  | .value_unique _ => m.strongs = [] ∧ m.fates = [] ∧ m.weaks = []
  | .implicit => m.strongs = [] ∧ m.fates ≠ [] ∧ m.implicit = true
  | .block => m.strongs = [] ∧ m.weaks = [] ∧ m.implicit = false ∧ m.freed = 0

/-- What two threads cannot hold both. -/
structure Hold.Apart (a a' : Hold) : Prop where
  handle : a.exclusive = true → a.handle ≠ a'.handle
  owner : a.owner = true → a'.owner = false
  locker : a.locker = true → a'.locker = false
  freer : a.freer = true → a'.freer = false

/-- Behind the `fetch_sub` of the weak count. -/
def left (n : ℕ) : Hold := if n = 1 then .block else .nothing

/-- **What a step does** to the counts and to what its thread holds. -/
inductive Change (m : Mem) : Hold → Mem → Hold → Prop
  | same {a : Hold} : Change m a m a
  | borrow {h : ℕ} {exclusive : Bool} (hh : h ∈ m.strongs) :
      Change m .nothing m (.strong h exclusive)
  | borrow_weak {w : ℕ} {exclusive : Bool} (hw : w ∈ m.weaks) :
      Change m .nothing m (.weak w exclusive)
  | give_back {a : Hold} (h : a.owner = false ∧ a.locker = false ∧ a.freer = false) :
      Change m a m .nothing
  | clone {h : ℕ} : Change m (.strong h false)
      { m.push_strong with strong := m.strong + 1 } .nothing
  | downgrade {h : ℕ} (hweak : m.weak ≠ LOCKED) (hlt : m.weak + 1 ≠ LOCKED) :
      Change m (.strong h false) { m.push_weak with weak := m.weak + 1 } .nothing
  | lock {h : ℕ} {exclusive : Bool} (hweak : m.weak = 1) :
      Change m (.strong h exclusive) { m with weak := LOCKED } (.lock h exclusive)
  | look {h : ℕ} (hstrong : m.strong = 1) : Change m (.lock h true) m (.lock_unique h)
  | unlock {h : ℕ} {exclusive : Bool} : Change m (.lock h exclusive) { m with weak := 1 } .nothing
  | unlock_unique {h : ℕ} : Change m (.lock_unique h) { m with weak := 1 } (.unique h)
  | drop {h : ℕ} {others : Bool} (hstrong : m.strong ≠ 1) : Change m (.strong h true)
      { m with strong := m.strong - 1, strongs := m.strongs.erase h, others := others } .nothing
  /-- The last strong handle goes. -/
  | take {h : ℕ} {others : Bool} (hstrong : m.strong = 1) : Change m (.strong h true)
      { m with strong := 0, strongs := m.strongs.erase h, others := others } .value
  | examine {h : ℕ} (hweak : m.weak = 1) : Change m .value m (.value_unique h)
  | restore {h : ℕ} : Change m (.value_unique h)
      { m with strong := 1, strongs := h :: m.strongs } (.unique h)
  | consume {f : Fate} : Change m .value (m.push_fate f) .implicit
  | release : Change m .implicit { m with weak := m.weak - 1, implicit := false } (left m.weak)
  | free : Change m .block { m with freed := m.freed + 1 } .nothing
  | upgrade {w : ℕ} (hstrong : m.strong ≠ 0) : Change m (.weak w false)
      { m.push_strong with strong := m.strong + 1 } .nothing
  | weak_clone {w : ℕ} (hlt : m.weak + 1 ≠ LOCKED) : Change m (.weak w false)
      { m.push_weak with weak := m.weak + 1 } .nothing
  | weak_drop {w : ℕ} : Change m (.weak w true)
      { m with weak := m.weak - 1, weaks := m.weaks.erase w } (left m.weak)

/-! ## The counts -/

variable {m m' : Mem} {a a' b : Hold}

variable (h : m.Ok)
include h

theorem Mem.Ok.implicit_of_strong {n : ℕ} (hn : n ∈ m.strongs) : m.implicit = true :=
  h.implicit (h.shared (ne_nil_of_mem hn))

/-- While there is a weak handle the weak count is not locked. -/
theorem Mem.Ok.weak_of_mem {w : ℕ} (hw : w ∈ m.weaks) :
    m.weak ≠ LOCKED ∧ m.weak = m.weaks.length + m.implicit.toNat := by
  have hne : m.weak ≠ LOCKED := fun heq => ne_nil_of_mem hw (h.locked heq).2
  exact ⟨hne, h.weak hne⟩

theorem Mem.Ok.weak_of_none (hnone : m.strongs = []) :
    m.weak ≠ LOCKED ∧ m.weak = m.weaks.length + m.implicit.toNat := by
  have hne : m.weak ≠ LOCKED := fun heq => (h.locked heq).1 hnone
  exact ⟨hne, h.weak hne⟩

theorem Mem.Ok.push_strong (hne : m.strongs ≠ []) :
    { m.push_strong with strong := m.strong + 1 }.Ok :=
  { h with
    strong := congrArg (· + 1) h.strong
    shared := fun _ => h.shared hne
    locked := fun heq => ⟨nofun, (h.locked heq).2⟩ }

theorem Mem.Ok.push_weak (hweak : m.weak ≠ LOCKED) (hlt : m.weak + 1 ≠ LOCKED)
    (hfreed : m.freed = 0) : { m.push_weak with weak := m.weak + 1 }.Ok := by
  have hle := h.weak_le
  have hcount := h.weak hweak
  refine { h with weak_le := ?_, weak := fun _ => ?_, locked := fun heq => ?_, freed := ?_ }
  · show m.weak + 1 ≤ LOCKED
    omega
  · show m.weak + 1 = m.weaks.length + 1 + m.implicit.toNat
    omega
  · exact absurd heq hlt
  · exact fun _ => hfreed

theorem Mem.Ok.unlock (hshared : m.strongs ≠ []) (hlocked : m.weak = LOCKED) :
    { m with weak := 1 }.Ok := by
  have hle : 1 ≤ LOCKED := by decide
  have hne : 1 ≠ LOCKED := by decide
  refine { h with weak_le := hle, weak := fun _ => ?_, locked := fun heq => absurd heq hne }
  · show 1 = m.weaks.length + m.implicit.toNat
    rw [(h.locked hlocked).2, h.implicit (h.shared hshared)]
    rfl

omit h

/-- A change of the counts keeps them in step with the handles. -/
theorem Change.ok (h : Change m a m' a') (hok : m.Ok) (hfits : a.Fits m)
    (hlast : ∀ h, a = .strong h true → m.strong = 1 → m.weak ≠ LOCKED) : m'.Ok := by
  cases h with
  | same | borrow | borrow_weak | give_back | look | examine => exact hok
  | clone => exact hok.push_strong (ne_nil_of_mem hfits)
  | downgrade hweak hlt =>
    exact hok.push_weak hweak hlt (hok.freed (.inl (hok.implicit_of_strong hfits)))
  | lock hweak =>
    have hcount := hok.weak (by rw [hweak]; decide)
    rw [hok.implicit_of_strong hfits, hweak] at hcount
    have hnone : m.weaks = [] := length_eq_zero_iff.mp (Nat.succ.inj hcount).symm
    exact { hok with
      weak_le := Nat.le_refl _
      weak := fun h => absurd rfl h
      locked := fun _ => ⟨ne_nil_of_mem hfits, hnone⟩ }
  | unlock => exact hok.unlock (ne_nil_of_mem hfits.1) hfits.2
  | unlock_unique =>
    obtain ⟨hone, hlocked⟩ := hfits
    exact hok.unlock (by rw [hone]; nofun) hlocked
  | @drop h others hstrong =>
    have hlen := length_erase_of_mem hfits
    have hpos := length_pos_of_mem hfits
    have hcount := hok.strong
    have hnone := hok.shared (ne_nil_of_mem hfits)
    refine { hok with
      strong := ?_, shared := fun _ => hnone, locked := fun heq => ⟨?_, (hok.locked heq).2⟩,
      others := ?_ }
    · show m.strong - 1 = (m.strongs.erase h).length
      omega
    · refine ne_nil_of_length_pos ?_
      show 0 < (m.strongs.erase h).length
      omega
    · intro f hf
      exact absurd (hnone ▸ hf) not_mem_nil
  | @take h others hstrong =>
    have hlen := length_erase_of_mem hfits
    have hcount := hok.strong
    have hnone := hok.shared (ne_nil_of_mem hfits)
    refine { hok with
      strong := ?_, shared := fun _ => hnone, locked := fun heq => ?_, others := ?_ }
    · show 0 = (m.strongs.erase h).length
      omega
    · exact absurd heq (hlast h rfl hstrong)
    · intro f hf
      exact absurd (hnone ▸ hf) not_mem_nil
  | restore =>
    obtain ⟨hnone, hfates, hweaks⟩ := hfits
    exact { hok with
      strong := by rw [hnone]; rfl
      shared := fun _ => hfates
      locked := fun _ => ⟨nofun, hweaks⟩ }
  | @consume f =>
    obtain ⟨hnone, hfates⟩ := hfits
    refine { hok with
      shared := fun hne => absurd hnone hne, implicit := nofun, fates_le := ?_, others := ?_ }
    · show m.fates.length + 1 ≤ 1
      rw [hfates]
      exact Nat.le_refl 1
    · intro f' hf' hne
      rw [show (m.push_fate f).fates = [f] by rw [Mem.push_fate, hfates]] at hf'
      obtain rfl := mem_singleton.mp hf'
      exact Bool.or_eq_true_iff.mpr (.inr (bne_iff_ne.mpr hne))
  | release =>
    obtain ⟨hnone, hfates, himplicit⟩ := hfits
    have hle := hok.weak_le
    obtain ⟨hne, hcount⟩ := hok.weak_of_none hnone
    rw [himplicit] at hcount
    refine { hok with
      weak_le := ?_, weak := fun _ => ?_, locked := fun heq => ?_
      implicit := fun h => absurd h hfates, freed := fun _ => hok.freed (.inl himplicit) }
    · show m.weak - 1 ≤ LOCKED
      omega
    · show m.weak - 1 = m.weaks.length + 0
      rw [hcount]
      rfl
    · have heq' : m.weak - 1 = LOCKED := heq
      omega
  | free =>
    obtain ⟨-, hweaks, himplicit, hfreed⟩ := hfits
    refine { hok with freed := fun h => ?_, freed_le := ?_ }
    · rcases h with h | h
      · exact absurd (himplicit.symm.trans h) nofun
      · exact absurd hweaks h
    · show m.freed + 1 ≤ 1
      omega
  | upgrade hstrong =>
    refine hok.push_strong fun hnone => hstrong ?_
    rw [hok.strong, hnone]
    rfl
  | weak_clone hlt =>
    exact hok.push_weak (hok.weak_of_mem hfits).1 hlt (hok.freed (.inr (ne_nil_of_mem hfits)))
  | @weak_drop w =>
    have hlen := length_erase_of_mem hfits
    have hpos := length_pos_of_mem hfits
    have hle := hok.weak_le
    obtain ⟨hne, hcount⟩ := hok.weak_of_mem hfits
    refine { hok with
      weak_le := ?_, weak := fun _ => ?_, locked := fun heq => ?_
      freed := fun _ => hok.freed (.inr (ne_nil_of_mem hfits)) }
    · show m.weak - 1 ≤ LOCKED
      omega
    · show m.weak - 1 = (m.weaks.erase w).length + m.implicit.toNat
      omega
    · have heq' : m.weak - 1 = LOCKED := heq
      omega

/-- What the thread itself holds. -/
theorem Change.fits (h : Change m a m' a') (hok : m.Ok) (hfits : a.Fits m) : a'.Fits m' := by
  cases h with
  | same => exact hfits
  | borrow h | borrow_weak h => exact h
  | give_back | clone | downgrade | unlock | drop | free | upgrade | weak_clone => trivial
  | lock _ => exact ⟨hfits, rfl⟩
  | @look h hstrong =>
    obtain ⟨hmem, hlocked⟩ := hfits
    obtain ⟨h', hone⟩ := length_eq_one_iff.mp (hok.strong.symm.trans hstrong)
    rw [hone, mem_singleton] at hmem
    exact ⟨by rw [hone, hmem], hlocked⟩
  | unlock_unique =>
    obtain ⟨hone, hlocked⟩ := hfits
    exact ⟨hone, (hok.locked hlocked).2⟩
  | @take h others hstrong =>
    have hlen := length_erase_of_mem hfits
    have hcount := hok.strong
    refine ⟨length_eq_zero_iff.mp ?_, hok.shared (ne_nil_of_mem hfits)⟩
    show (m.strongs.erase h).length = 0
    omega
  | examine hweak =>
    obtain ⟨hnone, hfates⟩ := hfits
    obtain ⟨-, hcount⟩ := hok.weak_of_none hnone
    rw [hok.implicit hfates, hweak] at hcount
    exact ⟨hnone, hfates, length_eq_zero_iff.mp (Nat.succ.inj hcount).symm⟩
  | restore =>
    obtain ⟨hnone, -, hweaks⟩ := hfits
    exact ⟨by rw [hnone], hweaks⟩
  | consume => exact ⟨hfits.1, nofun, hok.implicit hfits.2⟩
  | release =>
    obtain ⟨hnone, hfates, himplicit⟩ := hfits
    obtain ⟨-, hcount⟩ := hok.weak_of_none hnone
    rw [left]
    split
    · next hone =>
      rw [himplicit, hone] at hcount
      exact ⟨hnone, length_eq_zero_iff.mp (Nat.succ.inj hcount).symm, rfl,
        hok.freed (.inl himplicit)⟩
    · trivial
  | @weak_drop w =>
    have hlen := length_erase_of_mem hfits
    have hpos := length_pos_of_mem hfits
    obtain ⟨-, hcount⟩ := hok.weak_of_mem hfits
    rw [left]
    split
    · next hone =>
      have himplicit : m.implicit = false := by
        cases h : m.implicit with
        | false => rfl
        | true =>
          rw [h, hone, Bool.toNat_true] at hcount
          omega
      have hnone : m.strongs = [] := by
        by_contra hne
        exact absurd (himplicit.symm.trans (hok.implicit (hok.shared hne))) nofun
      refine ⟨hnone, length_eq_zero_iff.mp ?_, himplicit, hok.freed (.inr (ne_nil_of_mem hfits))⟩
      show (m.weaks.erase w).length = 0
      omega
    · trivial

/-! ## The others -/

theorem ne_of_handle {h h' : ℕ} (hne : some (Handle.strong h) ≠ some (.strong h')) : h' ≠ h := by
  rintro rfl
  exact hne rfl

variable (hc : Change m a m' a')
include hc

theorem Change.mem_strongs {h : ℕ} (hmem : h ∈ m.strongs)
    (hne : a.exclusive = true → a.handle ≠ some (.strong h)) : h ∈ m'.strongs := by
  cases hc with
  | clone | upgrade | restore => exact mem_cons_of_mem _ hmem
  | drop | take => exact (mem_erase_of_ne (ne_of_handle (hne rfl))).mpr hmem
  | _ => exact hmem

theorem Change.mem_weaks {w : ℕ} (hmem : w ∈ m.weaks)
    (hne : a.exclusive = true → a.handle ≠ some (.weak w)) : w ∈ m'.weaks := by
  cases hc with
  | downgrade | weak_clone => exact mem_cons_of_mem _ hmem
  | @weak_drop w' =>
    have hne' : w ≠ w' := by
      rintro rfl
      exact hne rfl rfl
    exact (mem_erase_of_ne hne').mpr hmem
  | _ => exact hmem

/-- The weak count stays locked. -/
theorem Change.weak_eq (hok : m.Ok) (hfits : a.Fits m)
    (hlocked : m.weak = LOCKED) (hnot : a.locker = false) : m'.weak = LOCKED := by
  cases hc with
  | downgrade hne _ => exact absurd hlocked hne
  | lock hone => exact absurd (hone.symm.trans hlocked) (by decide)
  | unlock | unlock_unique => cases hnot
  | release => exact absurd hfits.1 (hok.locked hlocked).1
  | weak_clone | weak_drop => exact absurd (hok.locked hlocked).2 (ne_nil_of_mem hfits)
  | _ => exact hlocked

/-- A handle that is the only one stays the only one. -/
theorem Change.alone (hfits : a.Fits m) {h : ℕ} (hone : m.strongs = [h])
    (hweaks : m.weaks = []) (hne : a.handle ≠ some (.strong h)) :
    m'.strongs = [h] ∧ m'.weaks = [] := by
  have hstrong {h' : ℕ} (hmem : h' ∈ m.strongs) (heq : a.handle = some (.strong h')) : False := by
    rw [hone, mem_singleton] at hmem
    exact hne (by rw [heq, hmem])
  have hnone (hnone : m.strongs = []) : False := by
    rw [hone] at hnone
    cases hnone
  have hweak {w : ℕ} (hmem : w ∈ m.weaks) : False := ne_nil_of_mem hmem hweaks
  cases hc with
  | clone | downgrade | drop | take => exact absurd (hstrong hfits rfl) id
  | restore => exact absurd (hnone hfits.1) id
  | upgrade | weak_clone | weak_drop => exact absurd (hweak hfits) id
  | _ => exact ⟨hone, hweaks⟩

/-- Without strong handles only the owner changes what became of the value. -/
theorem Change.none (hok : m.Ok) (hfits : a.Fits m)
    (hnone : m.strongs = []) (hnot : a.owner = false) :
    m'.strongs = [] ∧ m'.fates = m.fates ∧ m'.implicit = m.implicit := by
  have hstrong {h : ℕ} (hmem : h ∈ m.strongs) : False := ne_nil_of_mem hmem hnone
  cases hc with
  | clone | drop | take => exact absurd (hstrong hfits) id
  | restore | consume | release => cases hnot
  | upgrade hne =>
    refine absurd ?_ hne
    rw [hok.strong, hnone]
    rfl
  | _ => exact ⟨hnone, rfl, rfl⟩

/-- Without handles there will be none. -/
theorem Change.no_weaks (hfits : a.Fits m) (hnone : m.strongs = [])
    (hweaks : m.weaks = []) : m'.weaks = [] := by
  cases hc with
  | downgrade _ _ => exact absurd hnone (ne_nil_of_mem hfits)
  | weak_clone | weak_drop => exact absurd hweaks (ne_nil_of_mem hfits)
  | _ => exact hweaks

theorem Change.freed_eq (hnot : a.freer = false) : m'.freed = m.freed := by
  cases hc with
  | free => cases hnot
  | _ => rfl

/-- **The others keep what they hold.** -/
theorem Change.fits_other (hok : m.Ok) (hfits : a.Fits m) (hb : b.Fits m)
    (hab : a.Apart b) (hba : b.Apart a) : b.Fits m' := by
  cases b with
  | nothing => trivial
  | strong h e => exact hc.mem_strongs hb hab.handle
  | weak w e => exact hc.mem_weaks hb hab.handle
  | lock h e =>
    exact ⟨hc.mem_strongs hb.1 hab.handle, hc.weak_eq hok hfits hb.2 (hba.locker rfl)⟩
  | lock_unique h =>
    obtain ⟨hone, hlocked⟩ := hb
    have halone := hc.alone hfits hone (hok.locked hlocked).2 (Ne.symm (hba.handle rfl))
    exact ⟨halone.1, hc.weak_eq hok hfits hlocked (hba.locker rfl)⟩
  | unique h => exact hc.alone hfits hb.1 hb.2 (Ne.symm (hba.handle rfl))
  | value =>
    obtain ⟨hnone, hfates⟩ := hb
    obtain ⟨hnone', hfates', -⟩ := hc.none hok hfits hnone (hba.owner rfl)
    exact ⟨hnone', hfates'.trans hfates⟩
  | value_unique h =>
    obtain ⟨hnone, hfates, hweaks⟩ := hb
    obtain ⟨hnone', hfates', -⟩ := hc.none hok hfits hnone (hba.owner rfl)
    exact ⟨hnone', hfates'.trans hfates, hc.no_weaks hfits hnone hweaks⟩
  | implicit =>
    obtain ⟨hnone, hfates, himplicit⟩ := hb
    obtain ⟨hnone', hfates', himplicit'⟩ := hc.none hok hfits hnone (hba.owner rfl)
    exact ⟨hnone', by rwa [hfates'], himplicit'.trans himplicit⟩
  | block =>
    obtain ⟨hnone, hweaks, himplicit, hfreed⟩ := hb
    have hnot : a.owner = false := by
      cases a with
      | value => exact absurd (himplicit.symm.trans (hok.implicit hfits.2)) nofun
      | value_unique h => exact absurd (himplicit.symm.trans (hok.implicit hfits.2.1)) nofun
      | implicit => exact absurd (himplicit.symm.trans hfits.2.2) nofun
      | _ => rfl
    obtain ⟨hnone', -, himplicit'⟩ := hc.none hok hfits hnone hnot
    exact ⟨hnone', hc.no_weaks hfits hnone hweaks, himplicit'.trans himplicit,
      (hc.freed_eq (hba.freer rfl)).trans hfreed⟩

end RustStd.Sync.Arc
