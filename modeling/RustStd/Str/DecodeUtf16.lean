import RustStd.Foundations.Strided
import RustStd.Str.Wtf8Refine

/-!
# Decoding UTF-16

The iterator of `core/src/char/decode.rs` over its whole run: the items are the code points that
the units spell, a surrogate as an error, and at every call `size_hint` bounds the items that are
still to come.
-/

namespace RustStd

open Utf16 Wtf8 List Nat Option

/-! ## The code -/

def decode_utf16 (iter : List UInt16) : DecodeUtf16 := ⟨iter, none⟩

/-- `DecodeUtf16::size_hint`, from what the iterator of the units answers. -/
def DecodeUtf16.size_hint (t : Target) (self : DecodeUtf16) (inner : ℕ × Option ℕ) :
    Option (ℕ × Option ℕ) := do
  let (low, high) := inner
  let (low_buf, high_buf) := match self.buf with
    | none => (0, 0)
    | some u =>
      if ! is_utf16_surrogate u then (1, 1)
      else if high = some 0 then (1, 1)
      else (0, 1)
  let low ← t.checkedAdd (div_ceil low 2) low_buf
  some (low, high.bind fun h => t.checkedAdd h high_buf)

open DecodeUtf16

/-- The answers to the first calls of `next`. -/
def DecodeUtf16.nexts : ℕ → DecodeUtf16 → Option (List (Option (Except UInt16 Char)) × DecodeUtf16)
  | 0, self => some ([], self)
  | k + 1, self => do
    let (item, self) ← self.next
    let (items, self) ← nexts k self
    some (item :: items, self)

/-! ## What it yields -/

abbrev Item := Except UInt16 Char

/-- The code point of an item. -/
def Item.point : Item → CodePoint
  | .ok c => ofChar c
  | .error code => ofUnit code

/-- The units of an item: `encode_utf16` of a `char`, or the unit itself. -/
def Item.units : Item → List UInt16
  | .ok c => encode_utf16_raw c.toNat
  | .error code => [code]

/-- The items of a sequence of units: one for every code point that it spells, an error if it is a
surrogate. -/
structure Decodes (v : List UInt16) (items : List Item) : Prop where
  points : items.map Item.point = points v
  surrogate : ∀ code, .error code ∈ items → IsSurrogate code.toNat

variable {v : List UInt16} {items : List Item}

theorem Item.units_eq (item : Item) : item.units = Utf16.units item.point := by
  cases item with
  | ok c => exact encode_utf16_raw_eq (ofChar c)
  | error code => exact (units_ofUnit code).symm

/-- Nothing is lost. -/
theorem Decodes.units (h : Decodes v items) : items.flatMap Item.units = v := by
  have hunits : items.flatMap Item.units = (items.map Item.point).flatMap Utf16.units := by
    rw [flatMap_map]
    exact congrArg (items.flatMap ·) (funext Item.units_eq)
  rw [hunits, h.points, units_points]

theorem point_eq_ofChar {item : Item} {c : Char} (h : item.point = ofChar c)
    (hs : ∀ code, item = .error code → IsSurrogate code.toNat) : item = .ok c := by
  cases item with
  | ok d =>
    have hval := congrArg CodePoint.toNat h
    exact congrArg Except.ok (Char.toNat_inj.mp hval)
  | error code =>
    have hcode : IsSurrogate (ofUnit code).toNat := hs code rfl
    rw [show ofUnit code = ofChar c from h] at hcode
    exact absurd hcode (ofChar_not_surrogate c)

/-- The chars of a text come back. -/
theorem Decodes.chars {cs : List Char} (h : Decodes v items)
    (hv : v = cs.flatMap fun c => encode_utf16_raw c.toNat) : items = cs.map .ok := by
  have hpoints : items.map Item.point = cs.map ofChar := by
    have hunits : v = (cs.map ofChar).flatMap Utf16.units := by
      rw [hv, flatMap_map]
      exact congrArg (cs.flatMap ·) (funext fun c => encode_utf16_raw_eq (ofChar c))
    rw [h.points, hunits]
    apply points_units (unpaired_of_scalars _)
    intro c hc
    obtain ⟨d, -, rfl⟩ := mem_map.mp hc
    exact ofChar_not_surrogate d
  have hs := h.surrogate
  clear h hv
  induction items generalizing cs with
  | nil => rw [map_eq_nil_iff.mp hpoints.symm, map_nil]
  | cons item items ih =>
    cases cs with
    | nil => cases hpoints
    | cons c cs =>
      rw [map_cons, map_cons, cons.injEq] at hpoints
      rw [ih hpoints.2 fun code hmem => hs code (mem_cons_of_mem _ hmem), map_cons,
        point_eq_ofChar hpoints.1 fun code he => hs code (he ▸ mem_cons_self)]

/-! ## The run -/

theorem nexts_nil (k : ℕ) : nexts k ⟨[], none⟩ = some (replicate k none, ⟨[], none⟩) := by
  induction k with
  | zero => rfl
  | succ k ih =>
    rw [nexts, show DecodeUtf16.next ⟨[], none⟩ = some (none, ⟨[], none⟩) from rfl, some_bind]
    dsimp only
    rw [ih]
    rfl

/-- **Each call yields the next item**, and what is left are the items of the rest. -/
theorem nexts_spec (self : DecodeUtf16) : ∃ items, Decodes self.rest items ∧
    ∀ k, ∃ d, self.nexts k =
        some ((items.take k).map some ++ replicate (k - items.length) none, d) ∧
      (points d.rest).length = items.length - k := by
  induction hn : self.rest.length using Nat.strong_induction_on generalizing self with
  | _ n ih =>
    rcases self.next_spec with ⟨hrest, -⟩ | ⟨c, d, hpoints, hlt, hnext⟩
    · obtain ⟨iter, buf⟩ := self
      rw [rest, append_eq_nil_iff, Option.toList_eq_nil_iff] at hrest
      obtain ⟨rfl, rfl⟩ := hrest
      refine ⟨[], ⟨rfl, by simp⟩, fun k => ⟨⟨[], none⟩, ?_, (Nat.zero_sub k).symm⟩⟩
      rw [nexts_nil, take_nil, map_nil, nil_append, length_nil, Nat.sub_zero]
    obtain ⟨items, hitems, hrun⟩ := ih _ (hn ▸ hlt) d rfl
    obtain ⟨item, hpoint, hnext, hs⟩ : ∃ item : Item, item.point = c ∧
        self.next = some (some item, d) ∧ ∀ code, item = .error code → IsSurrogate code.toNat := by
      rcases hnext with ⟨ch, hc, hnext⟩ | ⟨hs, u, hc, hnext⟩
      · exact ⟨.ok ch, hc, hnext, by rintro _ ⟨⟩⟩
      · refine ⟨.error u, hc, hnext, ?_⟩
        rintro _ ⟨⟩
        rw [← hc] at hs
        exact hs
    refine ⟨item :: items, ⟨?_, fun code hmem => ?_⟩, fun k => ?_⟩
    · rw [map_cons, hpoint, hitems.points, hpoints]
    · rcases mem_cons.mp hmem with he | hmem
      · exact hs code he.symm
      · exact hitems.surrogate code hmem
    · cases k with
      | zero =>
        refine ⟨self, ?_, ?_⟩
        · rw [take_zero, Nat.zero_sub]
          rfl
        · rw [hpoints, ← hitems.points, length_cons, length_map, length_cons, Nat.sub_zero]
      | succ k =>
        obtain ⟨d', hrun, hlen⟩ := hrun k
        refine ⟨d', ?_, ?_⟩
        · rw [nexts, hnext, some_bind]
          dsimp only
          rw [hrun, some_bind, length_cons, Nat.add_sub_add_right]
          rfl
        · rw [hlen, length_cons, Nat.add_sub_add_right]

/-! ## The bounds -/

theorem length_points (v : List UInt16) :
    (points v).length ≤ v.length ∧ v.length ≤ 2 * (points v).length := by
  fun_induction points v with
  | case1 => exact ⟨le_rfl, zero_le _⟩
  | case2 u => exact ⟨le_rfl, le_of_lt one_lt_two⟩
  | case3 u w v h ih =>
    simp only [length_cons]
    omega
  | case4 u w v h ih =>
    simp only [length_cons] at ih ⊢
    omega

/-- **`size_hint`** is right where that of the units is. -/
theorem size_hint_spec (t : Target) (self : DecodeUtf16) {low : ℕ} {high : Option ℕ}
    (hmax : low < t.usizeCard) (hlow : low ≤ self.iter.length)
    (hhigh : ∀ h ∈ high, self.iter.length ≤ h) :
    ∃ low' high', self.size_hint t (low, high) = some (low', high') ∧
      low' ≤ (points self.rest).length ∧ ∀ h ∈ high', (points self.rest).length ≤ h := by
  obtain ⟨iter, buf⟩ := self
  have hcard : 4 ≤ t.usizeCard :=
    (show 4 ≤ 2 ^ 8 by decide).trans (Nat.pow_le_pow_right two_pos
      (Nat.le_mul_of_pos_right 8 t.usizeBytes_pos))
  have hdiv : div_ceil low 2 = (low + 1) / 2 := div_ceil_eq low 1
  have hrest := length_points iter
  -- The three cases for the buffer add `lo` and `hi`.
  obtain ⟨lo, hi, hsize, hle, hbounds⟩ : ∃ lo hi, size_hint t ⟨iter, buf⟩ (low, high) = (do
        let low ← t.checkedAdd (div_ceil low 2) lo
        some (low, high.bind fun h => t.checkedAdd h hi)) ∧ lo ≤ 1 ∧
      (low + 1) / 2 + lo ≤ (points (buf.toList ++ iter)).length ∧
      (points (buf.toList ++ iter)).length ≤ iter.length + hi := by
    cases buf with
    | none => exact ⟨0, 0, rfl, zero_le _, by dsimp only at hlow; simp; omega⟩
    | some u =>
      have hall := length_points (u :: iter)
      rw [length_cons] at hall
      by_cases hs : is_utf16_surrogate u = true
      · by_cases hzero : high = some 0
        · have hnil : iter = [] := length_eq_zero_iff.mp (le_zero.mp (hhigh 0 hzero))
          subst hnil
          refine ⟨1, 1, by simp only [size_hint, hs, hzero]; rfl, le_rfl, ?_⟩
          obtain rfl : low = 0 := le_zero.mp hlow
          exact ⟨le_rfl, le_rfl⟩
        · refine ⟨0, 1, by simp [size_hint, hs, hzero], zero_le _, ?_⟩
          dsimp only at hlow
          rw [toList_some, singleton_append]
          omega
      · refine ⟨1, 1, by simp [size_hint, hs], le_rfl, ?_⟩
        have hlead : ¬ IsLead u.toNat := fun h => hs ((is_utf16_surrogate_iff u).mpr h.surrogate)
        dsimp only at hlow
        rw [toList_some, singleton_append, points_cons_of_not_lead hlead, length_cons]
        omega
  rw [hsize, hdiv, Target.checkedAdd_eq (by omega), some_bind]
  refine ⟨_, _, rfl, hbounds.1, fun h hmem => ?_⟩
  obtain ⟨h', hh', hadd⟩ := bind_eq_some_iff.mp hmem
  have hle' := hhigh h' hh'
  rw [Target.checkedAdd] at hadd
  split at hadd
  · obtain rfl := some.inj hadd
    exact hbounds.2.trans (Nat.add_le_add_right hle' hi)
  · cases hadd

/-- **`decode_utf16`**: the calls yield one item for every code point that the units spell, and
then nothing; the items give back the units, those of a text its chars; and after any number of
calls `size_hint` overflows nowhere and bounds the items still to come, if the units are bounded
rightly. -/
theorem decode_utf16_spec (t : Target) (v : List UInt16) : ∃ items, Decodes v items ∧
    items.flatMap Item.units = v ∧
    (∀ cs : List Char, v = (cs.flatMap fun c => encode_utf16_raw c.toNat) → items = cs.map .ok) ∧
    ∀ k, ∃ d, (decode_utf16 v).nexts k =
        some ((items.take k).map some ++ replicate (k - items.length) none, d) ∧
      ∀ low high, low < t.usizeCard → low ≤ d.iter.length → (∀ h ∈ high, d.iter.length ≤ h) →
        ∃ low' high', d.size_hint t (low, high) = some (low', high') ∧
          low' ≤ items.length - k ∧ ∀ h ∈ high', items.length - k ≤ h := by
  obtain ⟨items, hitems, hrun⟩ := nexts_spec (decode_utf16 v)
  refine ⟨items, hitems, hitems.units, fun cs hv => hitems.chars hv, fun k => ?_⟩
  obtain ⟨d, hrun, hlen⟩ := hrun k
  refine ⟨d, hrun, fun low high hmax hlow hhigh => ?_⟩
  rw [← hlen]
  exact size_hint_spec t d hmax hlow hhigh

end RustStd
