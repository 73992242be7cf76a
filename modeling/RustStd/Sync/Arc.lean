import RustStd.Foundations.Threads

/-!
# Atomic reference counts

`Arc` and `Weak` of `alloc/src/sync.rs` for one allocation, as the code of threads with atomic
accesses. The handles are numbered; a thread starts any call on any of them, and a destructor or a
`clone` that works on other handles is like another thread that does. After the two ways of
`make_mut` that leave the allocation, its reference points to one that nobody else knows. The counts
are words of 64 bits: `MAX_REFCOUNT`, `LOCKED`, `add` and `sub` are those of a `usize` of this
width.
-/

namespace RustStd.Sync.Arc

open Threads

/-- `isize::MAX`, of 64 bits -/
def MAX_REFCOUNT : ℕ := 2 ^ 63 - 1

/-- `usize::MAX`, of 64 bits: the weak count while it is locked. -/
def LOCKED : ℕ := 2 ^ 64 - 1

/-- `fetch_add(1)` -/
def add (n : ℕ) : ℕ := (n + 1) % 2 ^ 64

/-- `fetch_sub(1)` -/
def sub (n : ℕ) : ℕ := (n + (2 ^ 64 - 1)) % 2 ^ 64

/-- What became of the value. -/
inductive Fate
  | destroyed
  | unwrapped
  | into_inner
  /-- It was moved to another allocation. -/
  | relocated
  deriving DecidableEq

/-- The two counts of `ArcInner`, and what there is besides. -/
structure Mem where
  strong : ℕ
  weak : ℕ
  strongs : List ℕ
  weaks : List ℕ
  /-- The number of the next handle. -/
  next : ℕ
  /-- Whether the weak reference of the strong handles has not been released. -/
  implicit : Bool
  fates : List Fate
  freed : ℕ
  /-- Whether a strong handle was consumed by something else than `into_inner`. -/
  others : Bool

/-- Who drops a strong handle: `drop`, `into_inner`, or the assignment in `make_mut`. -/
inductive Consumer
  | drop
  | into_inner
  | make_mut
  deriving DecidableEq

/-- The places in the code, with the handles that are used. -/
inductive Pc
  | idle
  | aborted
  /-- Reading the value. -/
  | deref (h : ℕ)
  | clone (h : ℕ)
  | downgrade (h : ℕ)
  | downgrade_exchange (h : ℕ) (cur : ℕ)
  /-- `is_unique`, or the one of `get_mut`. -/
  | is_unique (h : ℕ) (get_mut : Bool)
  | is_unique_load (h : ℕ) (get_mut : Bool)
  | is_unique_store (h : ℕ) (get_mut unique : Bool)
  /-- While the reference of `get_mut` or of `make_mut` is used. -/
  | mutating (h : ℕ)
  | drop (h : ℕ) (c : Consumer)
  | try_unwrap (h : ℕ)
  /-- `drop_in_place` in `drop_slow` -/
  | drop_value
  /-- While the destructor runs. -/
  | dropping
  /-- `ptr::read` of the value. -/
  | read_value (f : Fate)
  /-- The drop of the weak reference of the strong handles. -/
  | release
  | free
  | make_mut (h : ℕ)
  /-- While the value is cloned. -/
  | make_mut_clone (h : ℕ)
  | make_mut_weak (h : ℕ)
  /-- Moving the value to another allocation. -/
  | make_mut_move
  | make_mut_restore (h : ℕ)
  | upgrade (w : ℕ)
  | upgrade_exchange (w : ℕ) (n : ℕ)
  | weak_clone (w : ℕ)
  | weak_drop (w : ℕ)

/-- A new strong handle. -/
def Mem.push_strong (m : Mem) : Mem := { m with strongs := m.next :: m.strongs, next := m.next + 1 }

/-- A new weak handle. -/
def Mem.push_weak (m : Mem) : Mem := { m with weaks := m.next :: m.weaks, next := m.next + 1 }

/-- The end of the value. -/
def Mem.push_fate (m : Mem) (f : Fate) : Mem :=
  { m with fates := f :: m.fates, others := m.others || f != .into_inner }

/-- The loop of `downgrade`. -/
def downgrade_loop (h cur : ℕ) : Pc :=
  if cur = LOCKED then .downgrade h
  else if cur ≤ MAX_REFCOUNT then .downgrade_exchange h cur
  else .idle

/-- The loop of `fetch_update` in `upgrade`. -/
def upgrade_loop (w n : ℕ) : Pc :=
  if n = 0 then .idle else if n ≤ MAX_REFCOUNT then .upgrade_exchange w n else .idle

/-- Behind the `fetch_sub` that leaves no strong handle. -/
def Consumer.last : Consumer → Pc
  | .into_inner => .read_value .into_inner
  | .drop | .make_mut => .drop_value

/-- The calls on a strong handle. -/
def strong_calls (h : ℕ) : List Pc :=
  [.deref h, .clone h, .downgrade h, .is_unique h false, .is_unique h true, .drop h .drop,
    .drop h .into_inner, .try_unwrap h, .make_mut h]

/-- The calls on a weak handle. -/
def weak_calls (w : ℕ) : List Pc := [.upgrade w, .weak_clone w, .weak_drop w]

def calls (m : Mem) : List Pc := m.strongs.flatMap strong_calls ++ m.weaks.flatMap weak_calls

/-- **The code.** -/
def code : Pc → Access Mem Empty Pc
  | .idle => .atomic fun m => (calls m).map fun pc => (m, pc)
  | .aborted => .choose []
  | .deref _ => .load fun _ => .idle
  | .clone _ => .rmw (fun m => { m.push_strong with strong := add m.strong }) fun m =>
      if MAX_REFCOUNT < m.strong then .aborted else .idle
  | .downgrade h => .load fun m => downgrade_loop h m.weak
  | .downgrade_exchange h cur =>
      .exchange_weak (fun m => m.weak = cur) (fun m => { m.push_weak with weak := add cur })
        (fun _ => .idle) fun m => downgrade_loop h m.weak
  | .is_unique h get_mut =>
      .exchange (fun m => m.weak = 1) (fun m => { m with weak := LOCKED })
        (fun _ => .is_unique_load h get_mut) fun _ => .idle
  | .is_unique_load h get_mut => .load fun m => .is_unique_store h get_mut (m.strong == 1)
  | .is_unique_store h get_mut unique => .rmw (fun m => { m with weak := 1 }) fun _ =>
      if get_mut && unique then .mutating h else .idle
  | .mutating _ => .load fun _ => .idle
  | .drop h c =>
      .rmw (fun m => { m with
        strong := sub m.strong
        strongs := m.strongs.erase h
        others := m.others || c != .into_inner }) fun m => if m.strong ≠ 1 then .idle else c.last
  | .try_unwrap h =>
      .exchange (fun m => m.strong = 1)
        (fun m => { m with strong := 0, strongs := m.strongs.erase h, others := true })
        (fun _ => .read_value .unwrapped) fun _ => .idle
  | .drop_value => .rmw (fun m => m.push_fate .destroyed) fun _ => .dropping
  | .dropping => .load fun _ => .release
  | .read_value f => .rmw (fun m => m.push_fate f) fun _ => .release
  | .release => .rmw (fun m => { m with weak := sub m.weak, implicit := false }) fun m =>
      if m.weak = 1 then .free else .idle
  | .free => .rmw (fun m => { m with freed := m.freed + 1 }) fun _ => .idle
  | .make_mut h =>
      .exchange (fun m => m.strong = 1)
        (fun m => { m with strong := 0, strongs := m.strongs.erase h })
        (fun _ => .make_mut_weak h) fun _ => .make_mut_clone h
  | .make_mut_clone h => .choose [.idle, .drop h .make_mut]
  | .make_mut_weak h => .load fun m =>
      if m.weak ≠ 1 then .make_mut_move else .make_mut_restore h
  | .make_mut_move => .rmw (fun m => m.push_fate .relocated) fun _ => .release
  | .make_mut_restore h =>
      .rmw (fun m => { m with strong := 1, strongs := h :: m.strongs }) fun _ => .mutating h
  | .upgrade w => .load fun m => upgrade_loop w m.strong
  | .upgrade_exchange w n =>
      .exchange_weak (fun m => m.strong = n) (fun m => { m.push_strong with strong := add n })
        (fun _ => .idle) fun m => upgrade_loop w m.strong
  | .weak_clone _ => .rmw (fun m => { m.push_weak with weak := add m.weak }) fun m =>
      if MAX_REFCOUNT < m.weak then .aborted else .idle
  | .weak_drop w => .rmw (fun m => { m with weak := sub m.weak, weaks := m.weaks.erase w }) fun m =>
      if m.weak = 1 then .free else .idle

/-- `Arc::new` -/
def init {Tid : Type} : State Tid Mem Pc :=
  ⟨⟨1, 1, [0], [], 1, true, [], 0, false⟩, fun _ => ⟨.idle, false⟩⟩

end RustStd.Sync.Arc
