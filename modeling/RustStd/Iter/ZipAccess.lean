import RustStd.Iter.Access
import RustStd.Iter.Zip

/-!
# Pairs by their indices

`Zip` over two iterators whose elements can be taken by their indices, after
`core/src/iter/adapters/zip.rs`. It takes the elements that make pairs by their indices from both
sides. It removes elements from the back of a side only to let them have their side effects, when
it is first asked from the back. A failed debug assertion is an error; it is only checked when
`debug_assertions` is set.
-/

namespace RustStd.Iter

open List Nat

variable {σ υ T U A : Type}

namespace Zip

section Methods

variable (ia : RandomAccess σ T) (ib : RandomAccess υ U)

/-- `new` -/
def of_sizes (a : σ) (b : υ) : Zip σ υ := ⟨a, b, 0, min (ia.size a) (ib.size b)⟩

/-- `self.a.__iterator_get_unchecked(i)` -/
def get_a (i : ℕ) (self : Zip σ υ) : Call T × Zip σ υ :=
  let (x, a) := ia.get_unchecked self.a i
  (x, { self with a })

/-- `self.b.__iterator_get_unchecked(i)` -/
def get_b (i : ℕ) (self : Zip σ υ) : Call U × Zip σ υ :=
  let (y, b) := ib.get_unchecked self.b i
  (y, { self with b })

/-- `(self.a.__iterator_get_unchecked(i), self.b.__iterator_get_unchecked(i))` -/
def get_pair (i : ℕ) (self : Zip σ υ) : Call (T × U) × Zip σ υ :=
  match get_a ia i self with
  | (.panics, self) => (.panics, self)
  | (.returns x, self) =>
    let (y, self) := get_b ib i self
    (y.map fun y => (x, y), self)

/-- `next` -/
def access_next (self : Zip σ υ) : Call (Option (T × U)) × Zip σ υ :=
  if self.index < self.len then
    let i := self.index
    let (p, self) := get_pair ia ib i { self with index := self.index + 1 }
    (p.map some, self)
  else (.returns none, self)

/-- `size_hint` -/
def access_size_hint (self : Zip σ υ) : ℕ × Option ℕ :=
  (self.len - self.index, some (self.len - self.index))

/-- `super_nth`, where a call may unwind. -/
def access_super_nth : Zip σ υ → ℕ → Call (Option (T × U)) × Zip σ υ
  | self, n =>
    match access_next ia ib self with
    | (.panics, self) => (.panics, self)
    | (.returns none, self) => (.returns none, self)
    | (.returns (some x), self) =>
      match n with
      | 0 => (.returns (some x), self)
      | n + 1 => access_super_nth self n

/-- The side effects of the pair that `nth` skips. -/
def skip_pair (i : ℕ) (self : Zip σ υ) : Call Unit × Zip σ υ :=
  let (x, self) := if ia.may_have_side_effect then (get_a ia i self).map (·.map fun _ => ()) id
    else (.returns (), self)
  match x with
  | .panics => (.panics, self)
  | .returns () =>
    if ib.may_have_side_effect then (get_b ib i self).map (·.map fun _ => ()) id
    else (.returns (), self)

/-- The loop of `nth`, which takes `delta` turns. -/
def skip_pairs : ℕ → Zip σ υ → Call Unit × Zip σ υ
  | 0, self => (.returns (), self)
  | delta + 1, self =>
    let i := self.index
    match skip_pair ia ib i { self with index := self.index + 1 } with
    | (.panics, self) => (.panics, self)
    | (.returns (), self) => skip_pairs delta self

/-- `nth` -/
def access_nth (self : Zip σ υ) (n : ℕ) : Call (Option (T × U)) × Zip σ υ :=
  let delta := min n (self.len - self.index)
  match skip_pairs ia ib delta self with
  | (.panics, self) => (.panics, self)
  | (.returns (), self) => access_super_nth ia ib self (n - delta)

/-- `for _ in 0..k { iter.next_back(); }` -/
def trim (it : RandomAccess σ T) : ℕ → σ → Call Unit × σ
  | 0, s => (.returns (), s)
  | k + 1, s =>
    match it.next_back s with
    | (.panics, s) => (.panics, s)
    | (.returns _, s) => trim it k s

/-- The side effects of the elements that have no partner. -/
def trim_side (it : RandomAccess σ T) (old_len : ℕ) (s : σ) : Call Unit × σ :=
  if it.may_have_side_effect ∧ old_len < it.size s then trim it (it.size s - old_len) s
  else (.returns (), s)

/-- Adjusting the sides to one length, in the first call of `next_back`. -/
def adjust (debug_assertions : Bool) (old_len : ℕ) (self : Zip σ υ) : Exec (Call Unit × Zip σ υ) :=
  if ia.may_have_side_effect ∨ ib.may_have_side_effect then
    let sz_a := ia.size self.a
    let sz_b := ib.size self.b
    if sz_a ≠ sz_b ∧ (old_len = sz_a ∨ old_len = sz_b) then
      match trim_side ia old_len self.a with
      | (.panics, a) => .ok (.panics, { self with a })
      | (.returns (), a) =>
        match trim_side ib old_len self.b with
        | (.panics, b) => .ok (.panics, { self with a, b })
        | (.returns (), b) =>
          if debug_assertions ∧ ia.size a ≠ ib.size b then .error .panic
          else .ok (.returns (), { self with a, b })
    else .ok (.returns (), self)
  else .ok (.returns (), self)

/-- `next_back` -/
def access_next_back (debug_assertions : Bool) (self : Zip σ υ) :
    Exec (Call (Option (T × U)) × Zip σ υ) :=
  if self.index < self.len then do
    let old_len := self.len
    let (r, self) ← adjust ia ib debug_assertions old_len { self with len := self.len - 1 }
    match r with
    | .panics => return (.panics, self)
    | .returns () =>
      let (p, self) := get_pair ia ib self.len self
      return (p.map some, self)
  else .ok (.returns none, self)

/-- The loop of `fold` over the pairs from `i` on, with a closure that may unwind. -/
def fold_pairs (f : A → T × U → Call A) : ℕ → ℕ → A → Zip σ υ → Call A × Zip σ υ
  | 0, _, accum, self => (.returns accum, self)
  | k + 1, i, accum, self =>
    match get_pair ia ib (self.index + i) self with
    | (.panics, self) => (.panics, self)
    | (.returns p, self) =>
      match f accum p with
      | .panics => (.panics, self)
      | .returns accum => fold_pairs f k (i + 1) accum self

/-- `fold` -/
def access_fold (f : A → T × U → Call A) (init : A) (self : Zip σ υ) : Call A × Zip σ υ :=
  fold_pairs ia ib f (access_size_hint self).1 0 init self

end Methods

/-! ## What a list of pairs answers -/

/-- A call of a zipped iterator. -/
inductive Op
  | next
  | nth (n : ℕ)
  | next_back

def Op.call (ia : RandomAccess σ T) (ib : RandomAccess υ U) (debug_assertions : Bool) :
    Op → Zip σ υ → Exec (Call (Option (T × U)) × Zip σ υ)
  | .next, self => .ok (access_next ia ib self)
  | .nth n, self => .ok (access_nth ia ib self n)
  | .next_back, self => access_next_back ia ib debug_assertions self

/-- Some calls; the caller goes on when one unwinds. -/
def run (ia : RandomAccess σ T) (ib : RandomAccess υ U) (debug_assertions : Bool) :
    List Op → Zip σ υ → Exec (List (Call (Option (T × U))) × Zip σ υ)
  | [], self => .ok ([], self)
  | op :: ops, self => do
    let (r, self) ← op.call ia ib debug_assertions self
    let (rs, self) ← run ia ib debug_assertions ops self
    return (r :: rs, self)

variable {P : Type}

/-- The answer of a list, and what is left of it. -/
def Op.reply : Op → List P → Option P × List P
  | .next, l => (l.head?, l.tail)
  | .nth n, l => (l[n]?, l.drop (n + 1))
  | .next_back, l => (l.getLast?, l.dropLast)

/-- What may be left when the code of an element unwinds: the element is lost, and with it those
that were skipped before. -/
def Op.Loses : Op → List P → List P → Prop
  | .next, l, rest => l ≠ [] ∧ rest = l.tail
  | .nth n, l, rest => ∃ k, 0 < k ∧ k ≤ n + 1 ∧ k ≤ l.length ∧ rest = l.drop k
  | .next_back, l, rest => l ≠ [] ∧ rest = l.dropLast

/-- A call answers as the list does, or unwinds. -/
def Op.Answers (op : Op) (l : List P) : Call (Option P) → List P → Prop
  | .returns x, rest => (x, rest) = op.reply l
  | .panics, rest => op.Loses l rest

/-- The answers to some calls. -/
inductive Agrees : List Op → List P → List (Call (Option P)) → List P → Prop
  | nil (l) : Agrees [] l [] l
  | cons {op ops l l' r rs rest} (h : Op.Answers op l r l') (hrest : Agrees ops l' rs rest) :
    Agrees (op :: ops) l (r :: rs) rest

/-- Folding with a closure that may unwind. -/
def foldCall (f : A → P → Call A) : A → List P → Call A
  | accum, [] => .returns accum
  | accum, x :: l =>
    match f accum x with
    | .panics => .panics
    | .returns accum => foldCall f accum l

/-! ## The sides -/

/-- One side of the `m` pairs: indices below `i` were taken, and from `k` on. Nothing was removed
when it is `full`. -/
def Side (V : σ → List T → List ℕ → Prop) (l : List T) (full : Prop) (m i k : ℕ) (s : σ) : Prop :=
  ∃ size taken, m ≤ size ∧ size ≤ l.length ∧ (full → size = l.length) ∧ V s (l.take size) taken ∧
    ∀ j ∈ taken, j < i ∨ (k ≤ j ∧ j < m)

variable {V : σ → List T → List ℕ → Prop} {it : RandomAccess σ T} {l : List T} {m i k u v j : ℕ}
  {s : σ} {full F : Prop}

theorem Side.mono (h : Side V l full m i k s) (hfull : F → full) (hi : i ≤ u) (hk : v ≤ k) :
    Side V l F m u v s := by
  obtain ⟨size, taken, hle, hlen, hall, hV, htaken⟩ := h
  refine ⟨size, taken, hle, hlen, hall ∘ hfull, hV, fun j hj => ?_⟩
  have := htaken j hj
  lia

variable (hit : Trusted it V)
include hit

/-- Taking an element between the two indices. -/
theorem Side.take (h : Side V l full m i k s) (hij : i ≤ j) (hjk : j < k)
    (hm : k ≤ m) (hfull : F → full) (hi : i ≤ u) (hk : v ≤ k) (hj : j < u ∨ v ≤ j) :
    Side V l F m u v (it.get_unchecked s j).2 ∧
      ∀ x, (it.get_unchecked s j).1 = .returns x → l[j]? = some x := by
  obtain ⟨size, taken, hle, hlen, hall, hV, htaken⟩ := h
  have hfree : j ∉ taken := fun hmem => by
    have := htaken j hmem
    lia
  obtain ⟨hV', hitem⟩ := hit.get_unchecked j hV (by rw [length_take]; lia) hfree
  refine ⟨⟨size, j :: taken, hle, hlen, hall ∘ hfull, hV', fun x hx => ?_⟩, fun x hx => ?_⟩
  · obtain rfl | hx := mem_cons.mp hx
    · lia
    · have := htaken x hx
      lia
  · rw [← hitem x hx, getElem?_take_of_lt (by lia)]

theorem trim_spec {size : ℕ} {taken : List ℕ} (hV : V s (l.take size) taken)
    (hsize : size ≤ l.length) (htaken : ∀ j ∈ taken, j < m) (n : ℕ) (hn : m + n = size) :
    ∃ size', m ≤ size' ∧ size' ≤ l.length ∧ V (trim it n s).2 (l.take size') taken ∧
      ((trim it n s).1 = .returns () → size' = m) := by
  induction n generalizing s size with
  | zero => exact ⟨size, by lia, hsize, hV, fun _ => hn.symm⟩
  | succ n ih =>
    have hlen : (l.take size).length = size := by rw [length_take, Nat.min_eq_left hsize]
    obtain ⟨hV', -⟩ := hit.next_back hV (by lia) fun i hi => by
      have := htaken i hi
      lia
    rw [dropLast_eq_take, hlen, take_take, Nat.min_eq_left (sub_le _ _)] at hV'
    rw [trim]
    cases hcall : it.next_back s with
    | mk r s' =>
      rw [hcall] at hV'
      cases r with
      | returns x => exact ih hV' (by lia) (by lia)
      | panics => exact ⟨size - 1, by lia, by lia, hV', nofun⟩

theorem Side.size_of_full (h : Side V l full m i k s) (hfull : full) : it.size s = l.length := by
  obtain ⟨size, taken, -, hlen, hall, hV, -⟩ := h
  rw [hit.size hV, length_take, hall hfull, Nat.min_self]

theorem Side.le_size (h : Side V l full m i k s) : m ≤ it.size s := by
  obtain ⟨size, taken, hle, hlen, -, hV, -⟩ := h
  rw [hit.size hV, length_take]
  lia

theorem trim_side_spec (h : Side V l full m i m s) (hfull : full) (hi : i ≤ m) :
    Side V l False m i m (trim_side it m s).2 ∧ ((trim_side it m s).1 = .returns () →
      it.size (trim_side it m s).2 = if it.may_have_side_effect then m else l.length) := by
  have hle := h.le_size hit
  have hsize := h.size_of_full hit hfull
  rw [trim_side]
  split
  · next htrim =>
    obtain ⟨size, taken, -, hlen, hall, hV, htaken⟩ := h
    have hbelow : ∀ j ∈ taken, j < i := fun j hj => by
      have := htaken j hj
      lia
    have hall := hall hfull
    obtain ⟨size', hle', hlen', hV', hreturns⟩ := trim_spec (m := m) hit hV hlen
      (fun j hj => Nat.lt_of_lt_of_le (hbelow j hj) hi) (it.size s - m) (by lia)
    refine ⟨⟨size', taken, hle', hlen', nofun, hV', fun j hj => .inl (hbelow j hj)⟩, fun hr => ?_⟩
    rw [hit.size hV', length_take, if_pos htrim.1, hreturns hr]
    lia
  · next htrim =>
    refine ⟨h.mono nofun (Nat.le_refl i) (Nat.le_refl m), fun _ => ?_⟩
    change it.size s = _
    by_cases hmay : it.may_have_side_effect
    · rw [if_pos hmay]
      lia
    · rw [if_neg hmay, hsize]

omit hit

/-- Both sides. -/
structure Sides (VA : σ → List T → List ℕ → Prop) (VB : υ → List U → List ℕ → Prop) (la : List T)
    (lb : List U) (full : Prop) (i k : ℕ) (z : Zip σ υ) : Prop where
  a : Side VA la full (min la.length lb.length) i k z.a
  b : Side VB lb full (min la.length lb.length) i k z.b

variable {VA : σ → List T → List ℕ → Prop} {VB : υ → List U → List ℕ → Prop} {la : List T}
  {lb : List U} {ia : RandomAccess σ T} {ib : RandomAccess υ U} {z : Zip σ υ}

theorem get_pair_spec (ha : Trusted ia VA) (hb : Trusted ib VB)
    (h : Sides VA VB la lb full i k z) (hij : i ≤ j) (hjk : j < k)
    (hm : k ≤ min la.length lb.length) (hfull : F → full) (hi : i ≤ u) (hk : v ≤ k)
    (hj : j < u ∨ v ≤ j) :
    ∃ r a b, get_pair ia ib j z = (r, { z with a, b }) ∧ Sides VA VB la lb F u v { z with a, b } ∧
      ∀ p, r = .returns p → (la.zip lb)[j]? = some p := by
  obtain ⟨hsa, hitema⟩ := h.a.take ha hij hjk hm hfull hi hk hj
  obtain ⟨hsb, hitemb⟩ := h.b.take hb hij hjk hm hfull hi hk hj
  rw [get_pair, get_a]
  cases hx : ia.get_unchecked z.a j with
  | mk x a =>
    rw [hx] at hsa hitema
    cases x with
    | panics => exact ⟨_, a, z.b, rfl, ⟨hsa, h.b.mono hfull hi hk⟩, nofun⟩
    | returns x =>
      cases hy : ib.get_unchecked z.b j with
      | mk y b =>
        rw [hy] at hsb hitemb
        refine ⟨y.map fun y => (x, y), a, b, ?_, ⟨hsa, hsb⟩, fun p hp => ?_⟩
        · simp only [get_b, hy]
        · cases y with
          | panics => cases hp
          | returns y =>
            cases hp
            exact getElem?_zip_eq_some.mpr ⟨hitema x rfl, hitemb y rfl⟩

theorem skip_pair_spec (ha : Trusted ia VA) (hb : Trusted ib VB)
    (h : Sides VA VB la lb full i k z) (hik : i < k) (hm : k ≤ min la.length lb.length) :
    ∃ r a b, skip_pair ia ib i z = (r, { z with a, b }) ∧
      Sides VA VB la lb full (i + 1) k { z with a, b } := by
  obtain ⟨hsa, -⟩ := h.a.take ha (Nat.le_refl i) hik hm id (le_succ i) (Nat.le_refl k)
    (.inl (lt_succ_self i))
  obtain ⟨hsb, -⟩ := h.b.take hb (Nat.le_refl i) hik hm id (le_succ i) (Nat.le_refl k)
    (.inl (lt_succ_self i))
  have hsa' := h.a.mono id (le_succ i) (Nat.le_refl k)
  have hsb' := h.b.mono id (le_succ i) (Nat.le_refl k)
  have hskipb {a : σ} (hside : Side VA la full (min la.length lb.length) (i + 1) k a) :
      ∃ r b, (if ib.may_have_side_effect then
          (get_b ib i { z with a }).map (·.map fun _ => ()) id
        else (.returns (), { z with a })) = (r, { z with a, b }) ∧
        Sides VA VB la lb full (i + 1) k { z with a, b } := by
    by_cases hmay : ib.may_have_side_effect
    · exact ⟨_, _, if_pos hmay, hside, hsb⟩
    · exact ⟨_, _, if_neg hmay, hside, hsb'⟩
  rw [skip_pair]
  by_cases hmay : ia.may_have_side_effect
  · rw [if_pos hmay, get_a]
    cases hx : ia.get_unchecked z.a i with
    | mk x a =>
      rw [hx] at hsa
      cases x with
      | panics => exact ⟨_, a, z.b, rfl, hsa, hsb'⟩
      | returns x =>
        obtain ⟨r, b, heq, hsides⟩ := hskipb hsa
        exact ⟨r, a, b, heq, hsides⟩
  · rw [if_neg hmay]
    obtain ⟨r, b, heq, hsides⟩ := hskipb hsa'
    exact ⟨r, z.a, b, heq, hsides⟩

/-! ## The methods -/

/-- The pairs that are left. -/
structure Paired (VA : σ → List T → List ℕ → Prop) (VB : υ → List U → List ℕ → Prop) (la : List T)
    (lb : List U) (z : Zip σ υ) (rest : List (T × U)) : Prop where
  index_le : z.index ≤ z.len
  len_le : z.len ≤ min la.length lb.length
  sides : Sides VA VB la lb (z.len = min la.length lb.length) z.index z.len z
  eq : rest = ((la.zip lb).take z.len).drop z.index

variable {rest : List (T × U)}

variable (h : Paired VA VB la lb z rest)
include h

theorem Paired.length : rest.length = z.len - z.index := by
  have := h.len_le
  rw [h.eq, length_drop, length_take, length_zip]
  lia

/-- The first pair that is left. -/
theorem Paired.front (hlt : z.index < z.len) :
    ∃ p, rest = p :: ((la.zip lb).take z.len).drop (z.index + 1) ∧
      (la.zip lb)[z.index]? = some p := by
  have hlen := h.len_le
  rw [← length_zip] at hlen
  refine ⟨(la.zip lb)[z.index], ?_, getElem?_eq_getElem (by lia)⟩
  rw [h.eq, drop_eq_getElem_cons (by rw [length_take]; lia), getElem_take]

/-- The last pair that is left. -/
theorem Paired.back (hlt : z.index < z.len) :
    ∃ p, rest = ((la.zip lb).take (z.len - 1)).drop z.index ++ [p] ∧
      (la.zip lb)[z.len - 1]? = some p := by
  have hlen := h.len_le
  rw [← length_zip] at hlen
  refine ⟨(la.zip lb)[z.len - 1], ?_, getElem?_eq_getElem (by lia)⟩
  rw [h.eq, ← drop_append_of_le_length (by rw [length_take]; lia),
    take_append_getElem, Nat.sub_add_cancel (by lia)]

theorem Paired.exhausted (hge : ¬ z.index < z.len) : rest = [] := by
  apply eq_nil_of_length_eq_zero
  rw [h.length]
  lia

omit h

section Methods

variable (ha : Trusted ia VA)
include ha

variable (hb : Trusted ib VB)
include hb

theorem access_next_spec (h : Paired VA VB la lb z rest) :
    ∃ r z' rest', access_next ia ib z = (r, z') ∧ Paired VA VB la lb z' rest' ∧
      Op.Answers .next rest r rest' := by
  rw [access_next]
  by_cases hlt : z.index < z.len
  · obtain ⟨p, hrest, hp⟩ := h.front hlt
    obtain ⟨r, a, b, hget, hsides, hitem⟩ :=
      get_pair_spec (z := { z with index := z.index + 1 }) ha hb ⟨h.sides.a, h.sides.b⟩
        (Nat.le_refl _) hlt h.len_le id (le_succ _) (Nat.le_refl _) (.inl (lt_succ_self _))
    refine ⟨r.map some, { z with a, b, index := z.index + 1 }, rest.tail, ?_,
      ⟨hlt, h.len_le, ⟨hsides.a, hsides.b⟩, ?_⟩, ?_⟩
    · rw [if_pos hlt]
      dsimp only
      rw [hget]
    · rw [hrest]
      rfl
    · cases r with
      | returns q =>
        have hq := hitem q rfl
        rw [hp, Option.some.injEq] at hq
        rw [hrest, hq]
        rfl
      | panics => exact ⟨by rw [hrest]; exact cons_ne_nil _ _, rfl⟩
  · obtain rfl := h.exhausted hlt
    exact ⟨.returns none, z, [], if_neg hlt, h, rfl⟩

omit ha hb in
/-- Asking for the pair `n` after skipping `d` pairs. -/
theorem Op.Answers.skip {l l' : List P} {n d : ℕ} {r : Call (Option P)}
    (h : Op.Answers (.nth n) (l.drop d) r l') :
    Op.Answers (.nth (n + d)) l r l' := by
  cases r with
  | returns x =>
    rw [Op.Answers, Op.reply, getElem?_drop, drop_drop] at h
    rw [Op.Answers, Op.reply, h, Nat.add_comm n d]
    rfl
  | panics =>
    obtain ⟨k, hpos, hk, hlen, rfl⟩ := h
    rw [length_drop] at hlen
    exact ⟨d + k, by lia, by lia, by lia, drop_drop⟩

theorem access_super_nth_spec (n : ℕ)
    (h : Paired VA VB la lb z rest) :
    ∃ r z' rest', access_super_nth ia ib z n = (r, z') ∧ Paired VA VB la lb z' rest' ∧
      Op.Answers (.nth n) rest r rest' := by
  induction n generalizing z rest with
  | zero =>
    obtain ⟨r, z', rest', hnext, hz', hanswers⟩ := access_next_spec ha hb h
    rw [access_super_nth, hnext]
    refine ⟨r, z', rest', ?_, hz', ?_⟩
    · obtain (_ | x) | _ := r <;> rfl
    · obtain x | _ := r
      · exact hanswers.trans (Prod.ext head?_eq_getElem? drop_one.symm)
      · obtain ⟨hne, rfl⟩ := hanswers
        exact ⟨1, Nat.one_pos, Nat.le_refl _, length_pos_iff.mpr hne, drop_one.symm⟩
  | succ n ih =>
    obtain ⟨r, z', rest', hnext, hz', hanswers⟩ := access_next_spec ha hb h
    rw [access_super_nth, hnext]
    obtain (_ | x) | _ := r
    · refine ⟨.returns none, z', rest', rfl, hz', ?_⟩
      obtain ⟨hnone, rfl⟩ := Prod.mk.inj hanswers
      obtain rfl := head?_eq_none_iff.mp hnone.symm
      rfl
    · obtain ⟨hsome, rfl⟩ := Prod.mk.inj hanswers
      obtain ⟨r, z'', rest'', hnth, hz'', hanswers'⟩ := ih hz'
      refine ⟨r, z'', rest'', hnth, hz'', ?_⟩
      rw [← drop_one] at hanswers'
      exact hanswers'.skip
    · obtain ⟨hne, rfl⟩ := hanswers
      exact ⟨.panics, z', rest.tail, rfl, hz', 1, Nat.one_pos, by lia,
        length_pos_iff.mpr hne, drop_one.symm⟩

theorem skip_pairs_spec (delta : ℕ)
    (h : Paired VA VB la lb z rest) (hdelta : delta ≤ rest.length) :
    ∃ r z' k, skip_pairs ia ib delta z = (r, z') ∧ k ≤ delta ∧
      Paired VA VB la lb z' (rest.drop k) ∧ (r = .returns () → k = delta) ∧
      (r = .panics → 0 < k) := by
  induction delta generalizing z rest with
  | zero => exact ⟨_, z, 0, rfl, Nat.le_refl 0, h, fun _ => rfl, nofun⟩
  | succ delta ih =>
    have hlen := h.length
    have hlt : z.index < z.len := by lia
    obtain ⟨p, hrest, -⟩ := h.front hlt
    obtain ⟨r, a, b, hskip, hsides⟩ :=
      skip_pair_spec (z := { z with index := z.index + 1 }) ha hb
        ⟨h.sides.a, h.sides.b⟩ hlt h.len_le
    have hself : Paired VA VB la lb { z with a, b, index := z.index + 1 } (rest.drop 1) :=
      ⟨hlt, h.len_le, ⟨hsides.a, hsides.b⟩, by rw [hrest]; rfl⟩
    rw [skip_pairs, hskip]
    obtain _ | _ := r
    · obtain ⟨r, z', k, hskips, hk, hz', hreturns, hpanics⟩ :=
        ih hself (by rw [length_drop]; lia)
      refine ⟨r, z', k + 1, hskips, by lia, ?_, fun hr => by rw [hreturns hr], fun _ => by lia⟩
      rwa [drop_drop, Nat.add_comm] at hz'
    · exact ⟨.panics, _, 1, rfl, by lia, hself, nofun, fun _ => Nat.one_pos⟩

theorem access_nth_spec (n : ℕ)
    (h : Paired VA VB la lb z rest) :
    ∃ r z' rest', access_nth ia ib z n = (r, z') ∧ Paired VA VB la lb z' rest' ∧
      Op.Answers (.nth n) rest r rest' := by
  have hlen := h.length
  obtain ⟨r, z', k, hskips, hk, hz', hreturns, hpanics⟩ :=
    skip_pairs_spec ha hb (min n (z.len - z.index)) h (by lia)
  rw [access_nth, hskips]
  obtain _ | _ := r
  · obtain rfl := hreturns rfl
    obtain ⟨r, z'', rest'', hnth, hz'', hanswers⟩ :=
      access_super_nth_spec ha hb (n - min n (z.len - z.index)) hz'
    refine ⟨r, z'', rest'', hnth, hz'', ?_⟩
    have hskip := hanswers.skip
    rwa [Nat.sub_add_cancel (Nat.min_le_left _ _)] at hskip
  · exact ⟨.panics, z', rest.drop k, rfl, hz', k, hpanics rfl, by lia, by lia, rfl⟩

end Methods

/-- Only the shorter side has side effects, so that the longer one is not adjusted to it. -/
def Uneven (ia : RandomAccess σ T) (ib : RandomAccess υ U) (n m : ℕ) : Prop :=
  0 < min n m ∧ ((n < m ∧ ia.may_have_side_effect = true ∧ ib.may_have_side_effect = false) ∨
      (m < n ∧ ia.may_have_side_effect = false ∧ ib.may_have_side_effect = true))

instance (ia : RandomAccess σ T) (ib : RandomAccess υ U) (n m : ℕ) : Decidable (Uneven ia ib n m) :=
  inferInstanceAs (Decidable (_ ∧ _))

variable {debug_assertions : Bool} {old_len : ℕ}

/-- The sizes of the sides once they are adjusted. -/
theorem sizes_ne_iff (hpos : 0 < min la.length lb.length)
    (hmay : ia.may_have_side_effect ∨ ib.may_have_side_effect) :
    (if ia.may_have_side_effect then min la.length lb.length else la.length) ≠
        (if ib.may_have_side_effect then min la.length lb.length else lb.length) ↔
      Uneven ia ib la.length lb.length := by
  rw [Uneven]
  cases ha : ia.may_have_side_effect <;> cases hb : ib.may_have_side_effect
  · simp [ha, hb] at hmay
  · simp
    lia
  · simp
    lia
  · simp

/-- Both sides are brought to their common length. -/
theorem adjust_spec (ha : Trusted ia VA) (hb : Trusted ib VB)
    (h : Sides VA VB la lb (old_len = min la.length lb.length) i old_len z) (hi : i < old_len)
    (hlen : old_len ≤ min la.length lb.length)
    (heven : debug_assertions = true → ¬ Uneven ia ib la.length lb.length) :
    ∃ r a b, adjust ia ib debug_assertions old_len z = .ok (r, { z with a, b }) ∧
      Sides VA VB la lb False i old_len { z with a, b } := by
  have hkeep : Sides VA VB la lb False i old_len z :=
    ⟨h.a.mono nofun (Nat.le_refl i) (Nat.le_refl _), h.b.mono nofun (Nat.le_refl i) (Nat.le_refl _)⟩
  rw [adjust]
  by_cases hmay : ia.may_have_side_effect ∨ ib.may_have_side_effect
  · rw [if_pos hmay]
    by_cases hguard : ia.size z.a ≠ ib.size z.b ∧ (old_len = ia.size z.a ∨ old_len = ib.size z.b)
    · rw [if_pos hguard]
      -- only the first call finds a side whose size is the number of pairs
      obtain rfl : old_len = min la.length lb.length := by
        have := h.a.le_size ha
        have := h.b.le_size hb
        lia
      obtain ⟨hsa, hsizea⟩ := trim_side_spec ha h.a rfl (Nat.le_of_lt hi)
      obtain ⟨hsb, hsizeb⟩ := trim_side_spec hb h.b rfl (Nat.le_of_lt hi)
      cases hx : trim_side ia (min la.length lb.length) z.a with
      | mk x a =>
        rw [hx] at hsa hsizea
        cases x with
        | panics => exact ⟨.panics, a, z.b, rfl, hsa, hkeep.b⟩
        | returns x =>
          cases hy : trim_side ib (min la.length lb.length) z.b with
          | mk y b =>
            rw [hy] at hsb hsizeb
            cases y with
            | panics => exact ⟨.panics, a, b, rfl, hsa, hsb⟩
            | returns y =>
              have hsizes := sizes_ne_iff (zero_lt_of_lt hi) hmay
              rw [← hsizea rfl, ← hsizeb rfl] at hsizes
              refine ⟨.returns (), a, b, ?_, hsa, hsb⟩
              exact if_neg fun hfails => heven hfails.1 (hsizes.mp hfails.2)
    · rw [if_neg hguard]
      exact ⟨.returns (), z.a, z.b, rfl, hkeep⟩
  · rw [if_neg hmay]
    exact ⟨.returns (), z.a, z.b, rfl, hkeep⟩

/-- The first call fails when it adjusts neither side. -/
theorem adjust_fails (ha : Trusted ia VA) (hb : Trusted ib VB)
    (h : Sides VA VB la lb True i k z) (huneven : Uneven ia ib la.length lb.length) :
    adjust ia ib true (min la.length lb.length) z = .error .panic := by
  have hsizea := h.a.size_of_full ha trivial
  have hsizeb := h.b.size_of_full hb trivial
  have hmay : ia.may_have_side_effect ∨ ib.may_have_side_effect := by
    obtain ⟨-, ⟨-, hmaya, -⟩ | ⟨-, -, hmayb⟩⟩ := huneven
    · exact .inl hmaya
    · exact .inr hmayb
  have hkeepa : ¬ (ia.may_have_side_effect ∧ min la.length lb.length < ia.size z.a) := by
    obtain ⟨-, ⟨hlt, -, -⟩ | ⟨-, hmaya, -⟩⟩ := huneven
    · lia
    · simp [hmaya]
  have hkeepb : ¬ (ib.may_have_side_effect ∧ min la.length lb.length < ib.size z.b) := by
    obtain ⟨-, ⟨-, -, hmayb⟩ | ⟨hlt, -, -⟩⟩ := huneven
    · simp [hmayb]
    · lia
  have hne : la.length ≠ lb.length := by
    obtain ⟨-, ⟨hlt, -⟩ | ⟨hlt, -⟩⟩ := huneven <;> lia
  rw [adjust, if_pos hmay]
  rw [if_pos (by lia), trim_side, trim_side, if_neg hkeepa, if_neg hkeepb]
  exact if_pos ⟨rfl, by lia⟩

/-- Unless an uneven side is trimmed, `next_back` takes the last pair. -/
theorem access_next_back_spec (ha : Trusted ia VA) (hb : Trusted ib VB)
    (h : Paired VA VB la lb z rest)
    (heven : debug_assertions = true → ¬ Uneven ia ib la.length lb.length) :
    ∃ r z' rest', access_next_back ia ib debug_assertions z = .ok (r, z') ∧
      Paired VA VB la lb z' rest' ∧ Op.Answers .next_back rest r rest' := by
  have hlen := h.len_le
  rw [access_next_back]
  by_cases hlt : z.index < z.len
  · obtain ⟨p, hrest, hp⟩ := h.back hlt
    obtain ⟨r, a, b, hadjust, hsides⟩ :=
      adjust_spec (z := { z with len := z.len - 1 }) ha hb ⟨h.sides.a, h.sides.b⟩ hlt hlen
        heven
    have hpaired {y : Zip σ υ} (hindex : y.index = z.index) (hlast : y.len = z.len - 1)
        (hsides : Sides VA VB la lb (z.len - 1 = min la.length lb.length) z.index
          (z.len - 1) y) : Paired VA VB la lb y rest.dropLast := by
      refine ⟨by lia, by lia, by rwa [hindex, hlast], ?_⟩
      rw [hrest, dropLast_concat, hindex, hlast]
    have hne : rest ≠ [] := by
      rw [hrest]
      exact append_ne_nil_of_right_ne_nil _ (cons_ne_nil _ _)
    rw [if_pos hlt]
    dsimp only
    rw [hadjust, Exec.bind_ok]
    obtain _ | _ := r
    · obtain ⟨r, a', b', hget, hsides', hitem⟩ :=
        get_pair_spec (u := z.index) (v := z.len - 1) (j := z.len - 1)
          (F := z.len - 1 = min la.length lb.length) ha hb hsides (by lia) (by lia) hlen
          (fun hfull => by lia) (Nat.le_refl _) (sub_le _ _) (.inr (Nat.le_refl _))
      refine ⟨r.map some, { z with a := a', b := b', len := z.len - 1 }, rest.dropLast, ?_,
        hpaired rfl rfl ⟨hsides'.a, hsides'.b⟩, ?_⟩
      · dsimp only
        rw [hget]
        rfl
      · cases r with
        | returns q =>
          have hq := hitem q rfl
          rw [hp, Option.some.injEq] at hq
          rw [hrest, hq, Call.map, Op.Answers, Op.reply, getLast?_concat]
        | panics => exact ⟨hne, rfl⟩
    · refine ⟨.panics, { z with a, b, len := z.len - 1 }, rest.dropLast, rfl,
        hpaired rfl rfl ⟨?_, ?_⟩, hne, rfl⟩
      · exact hsides.a.mono (fun hfull => by lia) (Nat.le_refl _) (sub_le _ _)
      · exact hsides.b.mono (fun hfull => by lia) (Nat.le_refl _) (sub_le _ _)
  · obtain rfl := h.exhausted hlt
    exact ⟨.returns none, z, [], if_neg hlt, h, rfl⟩

/-! ## Unwinding -/

section Unwinding

variable (ia : RandomAccess σ T) (ib : RandomAccess υ U)

/-- The number of calls of the code of the sides that unwound. -/
def unwound (z : Zip (σ × List Access) (υ × List Access)) : ℕ :=
  unwindings z.a.2 + unwindings z.b.2

/-- The code of the sides unwound as often in a call as the call did. -/
def Counts (z : Zip (σ × List Access) (υ × List Access))
    (c : Call P × Zip (σ × List Access) (υ × List Access)) : Prop :=
  unwound c.2 = unwound z + c.1.unwound.toNat

variable (z : Zip (σ × List Access) (υ × List Access))

theorem Counts.map {z' : Zip (σ × List Access) (υ × List Access)} {x : Call P} {f : P → A}
    (h : Counts z (x, z')) : Counts z (x.map f, z') := by
  rwa [Counts, Call.unwound_map]

theorem Counts.then {z' : Zip (σ × List Access) (υ × List Access)} {x : A}
    {c : Call P × Zip (σ × List Access) (υ × List Access)} (h : Counts z (.returns x, z'))
    (hc : Counts z' c) : Counts z c := hc.trans (congrArg (· + _) h)

theorem counts_get_a (i : ℕ) : Counts z (get_a ia.logged i z) := by
  have hlog := unwindings_concat z.a.2 (.get_unchecked i (ia.get_unchecked z.a.1 i).1.unwound)
  change unwindings (z.a.2 ++ [_]) + unwindings z.b.2 = unwindings z.a.2 + unwindings z.b.2 + _
  rw [hlog, Nat.add_right_comm]
  rfl

theorem counts_get_b (i : ℕ) : Counts z (get_b ib.logged i z) := by
  have hlog := unwindings_concat z.b.2 (.get_unchecked i (ib.get_unchecked z.b.1 i).1.unwound)
  change unwindings z.a.2 + unwindings (z.b.2 ++ [_]) = unwindings z.a.2 + unwindings z.b.2 + _
  rw [hlog, Nat.add_assoc]
  rfl

theorem counts_get_pair (i : ℕ) : Counts z (get_pair ia.logged ib.logged i z) := by
  have ha := counts_get_a ia z i
  rw [get_pair]
  rcases hx : get_a ia.logged i z with ⟨_ | _, z'⟩
  · rw [hx] at ha
    exact ha.then _ (counts_get_b ib z' i).map
  · rwa [hx] at ha

theorem counts_access_next : Counts z (access_next ia.logged ib.logged z) := by
  rw [access_next]
  split
  · exact (counts_get_pair ia ib { z with index := z.index + 1 } z.index).map
  · rfl

theorem counts_access_super_nth (n : ℕ) : Counts z (access_super_nth ia.logged ib.logged z n) := by
  induction n generalizing z with
  | zero =>
    have hnext := counts_access_next ia ib z
    rw [access_super_nth]
    rcases hx : access_next ia.logged ib.logged z with ⟨(_ | _) | _, z'⟩ <;> rwa [hx] at hnext
  | succ n ih =>
    have hnext := counts_access_next ia ib z
    rw [access_super_nth]
    rcases hx : access_next ia.logged ib.logged z with ⟨(_ | _) | _, z'⟩ <;> rw [hx] at hnext
    · exact hnext
    · exact hnext.then _ (ih z')
    · exact hnext

theorem counts_skip_pair (i : ℕ) : Counts z (skip_pair ia.logged ib.logged i z) := by
  have hb (z : Zip (σ × List Access) (υ × List Access)) :
      Counts z (if ib.logged.may_have_side_effect then
        (get_b ib.logged i z).map (·.map fun _ => ()) id else (.returns (), z)) := by
    split
    · exact (counts_get_b ib z i).map
    · rfl
  rw [skip_pair]
  by_cases hmay : ia.logged.may_have_side_effect
  · have ha := counts_get_a ia z i
    rw [if_pos hmay]
    rcases hx : get_a ia.logged i z with ⟨_ | _, z'⟩ <;> rw [hx] at ha
    · exact ha.then _ (hb z')
    · exact ha
  · rw [if_neg hmay]
    exact hb z

theorem counts_skip_pairs (delta : ℕ) : Counts z (skip_pairs ia.logged ib.logged delta z) := by
  induction delta generalizing z with
  | zero => rfl
  | succ delta ih =>
    have hskip := counts_skip_pair ia ib { z with index := z.index + 1 } z.index
    rw [skip_pairs]
    rcases hx : skip_pair ia.logged ib.logged z.index { z with index := z.index + 1 } with
      ⟨_ | _, z'⟩ <;> rw [hx] at hskip
    · exact hskip.then _ (ih z')
    · exact hskip

theorem counts_access_nth (n : ℕ) : Counts z (access_nth ia.logged ib.logged z n) := by
  have hskip := counts_skip_pairs ia ib z (min n (z.len - z.index))
  rw [access_nth]
  rcases hx : skip_pairs ia.logged ib.logged (min n (z.len - z.index)) z with
    ⟨_ | _, z'⟩ <;> rw [hx] at hskip
  · exact hskip.then _ (counts_access_super_nth ia ib z' _)
  · exact hskip

theorem unwindings_trim (it : RandomAccess σ T) (k : ℕ) (s : σ × List Access) :
    unwindings (trim it.logged k s).2.2 =
      unwindings s.2 + (trim it.logged k s).1.unwound.toNat := by
  induction k generalizing s with
  | zero => rfl
  | succ k ih =>
    have hlog : unwindings (it.logged.next_back s).2.2 =
        unwindings s.2 + (it.logged.next_back s).1.unwound.toNat := unwindings_concat _ _
    rw [trim]
    cases hx : it.logged.next_back s with
    | mk r s' =>
      rw [hx] at hlog
      cases r with
      | panics => exact hlog
      | returns x => exact (ih s').trans (congrArg (· + _) hlog)

theorem unwindings_trim_side (it : RandomAccess σ T) (old_len : ℕ) (s : σ × List Access) :
    unwindings (trim_side it.logged old_len s).2.2 =
      unwindings s.2 + (trim_side it.logged old_len s).1.unwound.toNat := by
  rw [trim_side]
  split
  · exact unwindings_trim _ _ _
  · rfl

variable {z} {z' : Zip (σ × List Access) (υ × List Access)}

theorem counts_adjust {r : Call Unit}
    (h : adjust ia.logged ib.logged debug_assertions old_len z = .ok (r, z')) :
    Counts z (r, z') := by
  have ha := unwindings_trim_side ia old_len z.a
  have hb := unwindings_trim_side ib old_len z.b
  rw [adjust] at h
  split at h
  · dsimp only at h
    split at h
    · split at h
      · next hx =>
        cases h
        rw [hx] at ha
        exact (congrArg (· + _) ha).trans (Nat.add_right_comm _ _ _)
      next hx =>
      rw [hx] at ha
      split at h
      · next hy =>
        cases h
        rw [hy] at hb
        change unwindings _ + unwindings _ = _
        rw [hb, ha]
        rfl
      · next hy =>
        rw [hy] at hb
        split at h
        · cases h
        · cases h
          change unwindings _ + unwindings _ = _
          rw [hb, ha]
          rfl
    · cases h
      rfl
  · cases h
    rfl

theorem counts_call {op : Op} {r : Call (Option (T × U))}
    (h : op.call ia.logged ib.logged debug_assertions z = .ok (r, z')) : Counts z (r, z') := by
  cases op with
  | next =>
    have hnext := counts_access_next ia ib z
    rwa [Except.ok.inj h] at hnext
  | nth n =>
    have hnth := counts_access_nth ia ib z n
    rwa [Except.ok.inj h] at hnth
  | next_back =>
    rw [Op.call, access_next_back] at h
    split at h
    · cases hadjust : adjust ia.logged ib.logged debug_assertions z.len
          { z with len := z.len - 1 } with
      | error e =>
        dsimp only at h
        rw [hadjust] at h
        cases h
      | ok p =>
        have hadjusted := counts_adjust ia ib hadjust
        dsimp only at h
        rw [hadjust, Exec.bind_ok] at h
        obtain ⟨_ | _, z1⟩ := p <;> cases h
        · exact hadjusted.then _ (counts_get_pair ia ib z1 z1.len).map
        · exact hadjusted
    · cases h
      rfl

/-- The number of calls that unwound. -/
def panics {P : Type} (rs : List (Call P)) : ℕ := rs.countP Call.unwound

/-- **A call unwinds** only when the code of a side does. -/
theorem unwound_run {ops : List Op} {rs : List (Call (Option (T × U)))}
    (h : run ia.logged ib.logged debug_assertions ops z = .ok (rs, z')) :
    unwound z' = unwound z + panics rs := by
  induction ops generalizing z rs with
  | nil =>
    cases h
    rfl
  | cons op ops ih =>
    rw [run] at h
    cases hcall : op.call ia.logged ib.logged debug_assertions z with
    | error e =>
      rw [hcall] at h
      cases h
    | ok p =>
      obtain ⟨r, z1⟩ := p
      rw [hcall, Exec.bind_ok] at h
      cases hrun : run ia.logged ib.logged debug_assertions ops z1 with
      | error e =>
        dsimp only at h
        rw [hrun] at h
        cases h
      | ok p =>
        dsimp only at h
        rw [hrun] at h
        cases h
        rw [ih hrun, counts_call ia ib hcall, panics, panics, countP_cons, Nat.add_assoc,
          Nat.add_comm r.unwound.toNat]
        cases r.unwound <;> rfl

end Unwinding

/-! ## Runs -/

variable (ha : Trusted ia VA)
include ha

variable (hb : Trusted ib VB)
include hb

/-- Folding over the pairs from `z.index + c` on; `w` counts the unwindings. -/
theorem fold_pairs_spec {w : Zip σ υ → ℕ}
    (hw : ∀ z i, w (get_pair ia ib i z).2 = w z + (get_pair ia ib i z).1.unwound.toNat)
    (f : A → T × U → Call A) (n c : ℕ) (accum : A)
    (h : Sides VA VB la lb full (z.index + c) k z) (hn : z.index + c + n = k)
    (hm : k ≤ min la.length lb.length) :
    ∃ r a b, fold_pairs ia ib f n c accum z = (r, { z with a, b }) ∧
      Sides VA VB la lb full k k { z with a, b } ∧
      (r = foldCall f accum (((la.zip lb).take k).drop (z.index + c)) ∨
        r = .panics ∧ w z < w { z with a, b }) := by
  induction n generalizing c accum z with
  | zero =>
    obtain rfl : z.index + c = k := hn
    refine ⟨.returns accum, z.a, z.b, rfl, ⟨h.a, h.b⟩, .inl ?_⟩
    rw [drop_eq_nil_of_le (by rw [length_take]; lia)]
    rfl
  | succ n ih =>
    have hwpair := hw z (z.index + c)
    obtain ⟨r, a, b, hget, hsides, hitem⟩ :=
      get_pair_spec (u := z.index + (c + 1)) ha hb h (Nat.le_refl _) (by lia) hm id (by lia)
        (Nat.le_refl k) (.inl (by lia))
    rw [hget] at hwpair
    have hend : Sides VA VB la lb full k k { z with a, b } :=
      ⟨hsides.a.mono id (by lia) (Nat.le_refl k), hsides.b.mono id (by lia) (Nat.le_refl k)⟩
    rw [fold_pairs, hget]
    cases r with
    | panics => exact ⟨.panics, a, b, rfl, hend, .inr ⟨rfl, by rw [hwpair]; exact lt_succ_self _⟩⟩
    | returns p =>
      obtain ⟨hlt, hp⟩ := List.getElem?_eq_some_iff.mp (hitem p rfl)
      rw [drop_eq_getElem_cons (by rw [length_take]; lia), getElem_take, hp,
        foldCall]
      dsimp only
      cases f accum p with
      | panics => exact ⟨.panics, a, b, rfl, hend, .inl rfl⟩
      | returns accum =>
        obtain ⟨r, a', b', hfold, hsides', hr⟩ :=
          ih (z := { z with a, b }) (c + 1) accum hsides (by dsimp only; lia)
        refine ⟨r, a', b', hfold, hsides', hr.imp_right fun hpanics => ⟨hpanics.1, ?_⟩⟩
        rw [hwpair] at hpanics
        exact hpanics.2

theorem run_spec (ops : List Op) (h : Paired VA VB la lb z rest)
    (heven : debug_assertions = true → ¬ Uneven ia ib la.length lb.length) :
    ∃ rs z' rest', run ia ib debug_assertions ops z = .ok (rs, z') ∧
      Paired VA VB la lb z' rest' ∧ Agrees ops rest rs rest' := by
  induction ops generalizing z rest with
  | nil => exact ⟨[], z, rest, rfl, h, .nil rest⟩
  | cons op ops ih =>
    have hcall : ∃ r z' rest', op.call ia ib debug_assertions z = .ok (r, z') ∧
        Paired VA VB la lb z' rest' ∧ Op.Answers op rest r rest' := by
      cases op with
      | next =>
        obtain ⟨r, z', rest', hnext, hz', hanswers⟩ := access_next_spec ha hb h
        exact ⟨r, z', rest', congrArg Except.ok hnext, hz', hanswers⟩
      | nth n =>
        obtain ⟨r, z', rest', hnth, hz', hanswers⟩ := access_nth_spec ha hb n h
        exact ⟨r, z', rest', congrArg Except.ok hnth, hz', hanswers⟩
      | next_back => exact access_next_back_spec ha hb h heven
    obtain ⟨r, z1, rest1, hcall, hz1, hanswers⟩ := hcall
    obtain ⟨rs, z', rest', hrun, hz', hagrees⟩ := ih hz1
    refine ⟨r :: rs, z', rest', ?_, hz', .cons hanswers hagrees⟩
    rw [run, hcall, Exec.bind_ok]
    dsimp only
    rw [hrun]
    rfl

theorem of_sizes_len {a : σ} {b : υ} (hla : VA a la [])
    (hlb : VB b lb []) : (of_sizes ia ib a b).len = min la.length lb.length := by
  rw [of_sizes, ha.size hla, hb.size hlb]

theorem of_sizes_paired {a : σ} {b : υ} (hla : VA a la [])
    (hlb : VB b lb []) : Paired VA VB la lb (of_sizes ia ib a b) (la.zip lb) := by
  have hlen := of_sizes_len ha hb hla hlb
  refine ⟨Nat.zero_le _, Nat.le_of_eq hlen, ⟨?_, ?_⟩, ?_⟩
  · exact ⟨la.length, [], Nat.min_le_left _ _, Nat.le_refl _, fun _ => rfl,
      by rwa [take_length], nofun⟩
  · exact ⟨lb.length, [], Nat.min_le_right _ _, Nat.le_refl _, fun _ => rfl,
      by rwa [take_length], nofun⟩
  · rw [hlen, ← length_zip, take_length]
    rfl

/-- The first call from the back fails. -/
theorem next_back_fails (h : Paired VA VB la lb z rest) (hindex : z.index = 0)
    (hlen : z.len = min la.length lb.length) (huneven : Uneven ia ib la.length lb.length) :
    access_next_back ia ib true z = .error .panic := by
  have hpos := huneven.1
  have hsides : Sides VA VB la lb True z.index z.len { z with len := z.len - 1 } :=
    ⟨h.sides.a.mono (fun _ => hlen) (Nat.le_refl _) (Nat.le_refl _),
      h.sides.b.mono (fun _ => hlen) (Nat.le_refl _) (Nat.le_refl _)⟩
  have hadjust := adjust_fails ha hb hsides huneven
  rw [← hlen] at hadjust
  rw [access_next_back, if_pos (by lia)]
  dsimp only
  rw [hadjust]
  rfl

omit hb

omit ha

theorem Side.legal {V : σ → List T → List ℕ → Prop} {n : ℕ} {s : σ × List Access}
    (h : Side (Logged V n) l full m i k s) : Legal n s.2 := by
  obtain ⟨size, taken, -, -, -, hV, -⟩ := h
  exact hV.legal

/-- What holds of a specialised `Zip` of `n` and `m` elements that has the pairs `rest` left: the
two numbers can be subtracted, the size hint is exact, and each side was called as it allows. Then
the final fold goes through the pairs, unless the code of a side unwinds. -/
structure Sound (ia : RandomAccess σ T) (ib : RandomAccess υ U) (n m : ℕ)
    (z : Zip (σ × List Access) (υ × List Access)) (rest : List (T × U)) : Prop where
  index_le : z.index ≤ z.len
  size_hint : access_size_hint z = (rest.length, some rest.length)
  legal_a : Legal n z.a.2
  legal_b : Legal m z.b.2
  fold : ∀ {A : Type} (f : A → T × U → Call A) (init : A),
    ∃ r z', access_fold ia.logged ib.logged f init z = (r, z') ∧ Legal n z'.a.2 ∧ Legal m z'.b.2 ∧
      (r = foldCall f init rest ∨ r = .panics ∧ unwound z < unwound z')

theorem Paired.sound (ha : Trusted ia VA) (hb : Trusted ib VB)
    {z : Zip (σ × List Access) (υ × List Access)}
    (h : Paired (Logged VA la.length) (Logged VB lb.length) la lb z rest) :
    Sound ia ib la.length lb.length z rest where
  index_le := h.index_le
  size_hint := by rw [h.length, access_size_hint]
  legal_a := h.sides.a.legal
  legal_b := h.sides.b.legal
  fold f init := by
    have hle := h.index_le
    obtain ⟨r, a, b, hfold, hsides, hr⟩ :=
      fold_pairs_spec (ha.logged _) (hb.logged _) (counts_get_pair ia ib) f (z.len - z.index) 0 init
        h.sides (by lia) h.len_le
    refine ⟨r, _, hfold, hsides.a.legal, hsides.b.legal, ?_⟩
    rwa [h.eq]

end Zip

open Zip in
/-- **The specialised `Zip`** over any two sides: every run of calls is answered as the list of the
pairs answers it, where a call unwinds only when the code of a side does, and each side is called as
it allows. Only the debug assertion fails, and exactly when the shorter side alone has side effects
and there is a pair. The general `Zip` answers as the same list. -/
theorem zip_access_sound {VA : σ → List T → List ℕ → Prop} {VB : υ → List U → List ℕ → Prop}
    {ia : RandomAccess σ T} {ib : RandomAccess υ U} {a : σ} {b : υ} {la : List T} {lb : List U}
    (ha : Trusted ia VA) (hb : Trusted ib VB) (hla : VA a la []) (hlb : VB b lb [])
    (debug_assertions : Bool) :
    ((∀ ops : List Op, ∃ rs z rest, run ia.logged ib.logged debug_assertions ops
            (of_sizes ia.logged ib.logged (a, []) (b, [])) = .ok (rs, z) ∧
          Agrees ops (la.zip lb) rs rest ∧ Zip.unwound z = Zip.panics rs ∧
          Sound ia ib la.length lb.length z rest) ↔
      (debug_assertions = true → ¬ Uneven ia ib la.length lb.length)) ∧
    ∀ {σ' υ' : Type} {RA : σ' → List T → Prop} {RB : υ' → List U → Prop} {usizeMax turns : ℕ}
      {ja : DoubleEndedIterator σ' T} {jb : DoubleEndedIterator υ' U} {a' : σ'} {b' : υ'}
      (trusted_len : Bool), ja.Lawful usizeMax RA → jb.Lawful usizeMax RB →
        ExactSize RA ja.size_hint → ExactSize RB jb.size_hint → RA a' la → RB b' lb →
          (la.zip lb).length < turns →
            (Zip.iterator usizeMax turns trusted_len ja jb).Agrees ExactHint usizeMax
              (Zip.new a' b') (la.zip lb) := by
  have hpaired : Paired (Logged VA la.length) (Logged VB lb.length) la lb
      (of_sizes ia.logged ib.logged (a, []) (b, [])) (la.zip lb) :=
    of_sizes_paired (ha.logged _) (hb.logged _) ⟨hla, fun _ => Iff.rfl, rfl, .nil⟩
      ⟨hlb, fun _ => Iff.rfl, rfl, .nil⟩
  refine ⟨⟨fun hsound hdebug huneven => ?_, fun heven ops => ?_⟩, ?_⟩
  · subst hdebug
    have hlen := of_sizes_len (a := (a, [])) (b := (b, [])) (ha.logged _) (hb.logged _)
      ⟨hla, fun _ => Iff.rfl, rfl, .nil⟩ ⟨hlb, fun _ => Iff.rfl, rfl, .nil⟩
    have hfails := next_back_fails (ha.logged _) (hb.logged _) hpaired rfl hlen huneven
    obtain ⟨rs, z, rest, hrun, -⟩ := hsound [.next_back]
    rw [run, Op.call, hfails] at hrun
    cases hrun
  · obtain ⟨rs, z, rest, hrun, hz, hagrees⟩ :=
      run_spec (ha.logged _) (hb.logged _) ops hpaired heven
    exact ⟨rs, z, rest, hrun, hagrees, (unwound_run ia ib hrun).trans (Nat.zero_add _),
      hz.sound ha hb⟩
  · intro σ' υ' RA RB usizeMax turns ja jb a' b' trusted_len hja hjb hexacta hexactb ha' hb' hturns
    exact (Zip.lawful hja hjb hexacta hexactb).agrees (V := ExactHint)
      (Zip.size_hint_exact hexacta hexactb) ⟨la, lb, ⟨ha', hb', hturns⟩, rfl⟩

open Zip in
/-- One element with side effects, and two without. -/
theorem zip_access_fails :
    run (readList true [0]).logged (readList false [1, 2]).logged true [.next_back]
        (of_sizes (readList true [0]).logged (readList false [1, 2]).logged (1, []) (2, [])) =
      .error .panic := by
  rfl

open Zip in
/-- Two elements with side effects and one without, asked from the back and then from the front. -/
theorem zip_access_sound_two : ∃ rs z rest,
      run (readList true [1, 2]).logged (readList false [0]).logged true [.next_back, .next]
          (of_sizes (readList true [1, 2]).logged (readList false [0]).logged (2, []) (1, [])) =
            .ok (rs, z) ∧
        Agrees [.next_back, .next] [(1, 0)] rs rest ∧ Zip.unwound z = Zip.panics rs ∧
        Sound (readList true [1, 2]) (readList false [0]) 2 1 z rest := by
  have hsound := zip_access_sound (readList_trusted true [1, 2]) (readList_trusted false [0])
    (a := 2) (b := 1) ⟨by decide, rfl⟩ ⟨by decide, rfl⟩ true
  exact hsound.1.mpr (fun _ => by decide) [.next_back, .next]

end RustStd.Iter
