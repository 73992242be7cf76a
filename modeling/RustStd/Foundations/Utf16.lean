import Mathlib.Data.List.Chain
import Mathlib.Data.UInt

/-!
# Ill-formed UTF-16

Sequences of 16-bit units, apart from any program that reads them. A unit is a lead surrogate, a
trail surrogate or a code point of its own, and a lead with a trail behind it is a code point past
`0xFFFF`. Every sequence of units is in this way the spelling of exactly one sequence of code points
in which no lead is directly followed by a trail (`units_points`, `points_units`), and it is UTF-16
if none of them is a surrogate (`hasUnpaired_iff`).
-/

namespace RustStd.Utf16

open List

/-- A code point: a scalar value or a surrogate. -/
structure CodePoint where
  toNat : ℕ
  lt : toNat < 0x110000
  deriving DecidableEq

/-- A lead surrogate. -/
def IsLead (n : ℕ) : Prop := 0xD800 ≤ n ∧ n ≤ 0xDBFF

/-- A trail surrogate. -/
def IsTrail (n : ℕ) : Prop := 0xDC00 ≤ n ∧ n ≤ 0xDFFF

/-- A surrogate. -/
def IsSurrogate (n : ℕ) : Prop := 0xD800 ≤ n ∧ n ≤ 0xDFFF

instance (n : ℕ) : Decidable (IsLead n) := inferInstanceAs (Decidable (_ ∧ _))

instance (n : ℕ) : Decidable (IsTrail n) := inferInstanceAs (Decidable (_ ∧ _))

instance (n : ℕ) : Decidable (IsSurrogate n) := inferInstanceAs (Decidable (_ ∧ _))

/-- The code point that is a unit. -/
def ofUnit (u : UInt16) : CodePoint := ⟨u.toNat, u.toNat_lt.trans (by decide)⟩

/-- The code point of a lead and a trail. -/
def pair (lead trail : UInt16) : CodePoint :=
  ⟨0x10000 + lead.toNat % 0x400 * 0x400 + trail.toNat % 0x400, by omega⟩

theorem pair_toNat (lead trail : UInt16) : (pair lead trail).toNat =
    0x10000 + lead.toNat % 0x400 * 0x400 + trail.toNat % 0x400 := rfl

/-- The units of a code point. -/
def units (c : CodePoint) : List UInt16 :=
  if c.toNat < 0x10000 then [UInt16.ofNat c.toNat]
  else [UInt16.ofNat (0xD800 + (c.toNat - 0x10000) / 0x400),
    UInt16.ofNat (0xDC00 + (c.toNat - 0x10000) % 0x400)]

/-- The code points that units spell. -/
def points : List UInt16 → List CodePoint
  | [] => []
  | [u] => [ofUnit u]
  | u :: w :: v =>
    if IsLead u.toNat ∧ IsTrail w.toNat then pair u w :: points v else ofUnit u :: points (w :: v)

/-- No lead is directly followed by a trail. -/
def Unpaired (l : List CodePoint) : Prop :=
  l.IsChain fun c d => ¬ (IsLead c.toNat ∧ IsTrail d.toNat)

theorem CodePoint.ext {c d : CodePoint} (h : c.toNat = d.toNat) : c = d := by
  obtain ⟨c, hc⟩ := c
  obtain rfl : c = d.toNat := h
  rfl

variable {n : ℕ}

theorem toNat_ofNat (h : n < 0x10000) : (UInt16.ofNat n).toNat = n := by
  rw [UInt16.toNat_ofNat']
  exact Nat.mod_eq_of_lt h

theorem units_ofUnit (u : UInt16) : units (ofUnit u) = [u] := by
  rw [units, if_pos (show (ofUnit u).toNat < 0x10000 from u.toNat_lt)]
  exact congrArg (fun u => [u]) UInt16.ofNat_toNat

theorem units_pair {lead trail : UInt16} (hlead : IsLead lead.toNat)
    (htrail : IsTrail trail.toNat) : units (pair lead trail) = [lead, trail] := by
  obtain ⟨hl, hl'⟩ := hlead
  obtain ⟨ht, ht'⟩ := htrail
  have hne : ¬ (pair lead trail).toNat < 0x10000 := by
    dsimp only [pair]
    omega
  have h₁ : 0xD800 + ((pair lead trail).toNat - 0x10000) / 0x400 = lead.toNat := by
    dsimp only [pair]
    omega
  have h₂ : 0xDC00 + ((pair lead trail).toNat - 0x10000) % 0x400 = trail.toNat := by
    dsimp only [pair]
    omega
  rw [units, if_neg hne, h₁, h₂, UInt16.ofNat_toNat, UInt16.ofNat_toNat]

/-- The two kinds of code points. -/
theorem eq_ofUnit_or_pair (c : CodePoint) : (∃ u, c = ofUnit u) ∨
      ∃ lead trail, IsLead lead.toNat ∧ IsTrail trail.toNat ∧ c = pair lead trail := by
  have hlt := c.lt
  by_cases h : c.toNat < 0x10000
  · exact .inl ⟨UInt16.ofNat c.toNat, CodePoint.ext (toNat_ofNat h).symm⟩
  have h₁ := toNat_ofNat (n := 0xD800 + (c.toNat - 0x10000) / 0x400) (by omega)
  have h₂ := toNat_ofNat (n := 0xDC00 + (c.toNat - 0x10000) % 0x400) (by omega)
  refine .inr ⟨UInt16.ofNat (0xD800 + (c.toNat - 0x10000) / 0x400),
    UInt16.ofNat (0xDC00 + (c.toNat - 0x10000) % 0x400), ?_, ?_, CodePoint.ext ?_⟩
  · rw [h₁, IsLead]
    omega
  · rw [h₂, IsTrail]
    omega
  · simp only [pair, h₁, h₂]
    omega

theorem not_surrogate_pair (lead trail : UInt16) : ¬ IsSurrogate (pair lead trail).toNat := by
  rintro ⟨-, hle⟩
  dsimp only [pair] at hle
  omega

theorem IsLead.surrogate (h : IsLead n) : IsSurrogate n := ⟨h.1, h.2.trans (by decide)⟩

theorem IsTrail.surrogate (h : IsTrail n) : IsSurrogate n :=
  ⟨Nat.le_trans (by decide) h.1, h.2⟩

theorem isSurrogate_iff (n : ℕ) : IsSurrogate n ↔ IsLead n ∨ IsTrail n := by
  rw [IsSurrogate, IsLead, IsTrail]
  omega

theorem IsLead.not_trail (h : IsLead n) : ¬ IsTrail n := by
  rw [IsTrail]
  have := h.2
  omega

/-! ## The bijection -/

/-- Decoding loses nothing. -/
theorem units_points (v : List UInt16) : (points v).flatMap units = v := by
  fun_induction points v with
  | case1 => rfl
  | case2 u => rw [flatMap_singleton, units_ofUnit]
  | case3 u w v h ih => rw [flatMap_cons, units_pair h.1 h.2, ih]; rfl
  | case4 u w v h ih => rw [flatMap_cons, units_ofUnit, ih]; rfl

/-- The first unit is a trail where the first code point is. -/
theorem exists_units_cons (c : CodePoint) (l : List CodePoint) :
    ∃ u v, (c :: l).flatMap units = u :: v ∧ (IsTrail u.toNat ↔ IsTrail c.toNat) := by
  rw [flatMap_cons]
  obtain ⟨u, rfl⟩ | ⟨lead, trail, hlead, htrail, rfl⟩ := eq_ofUnit_or_pair c
  · exact ⟨u, _, by rw [units_ofUnit]; rfl, Iff.rfl⟩
  · refine ⟨lead, _, by rw [units_pair hlead htrail]; rfl, fun h => absurd h hlead.not_trail,
      fun h => absurd h.surrogate (not_surrogate_pair lead trail)⟩

variable {l : List CodePoint}

/-- The code points are told by their units. -/
theorem points_units (h : Unpaired l) : points (l.flatMap units) = l := by
  induction l with
  | nil => rfl
  | cons c l ih =>
    have ih := ih h.tail
    obtain ⟨u, rfl⟩ | ⟨lead, trail, hlead, htrail, rfl⟩ := eq_ofUnit_or_pair c
    · rw [flatMap_cons, units_ofUnit]
      cases l with
      | nil => rfl
      | cons d l =>
        obtain ⟨w, v, hv, htrail⟩ := exists_units_cons d l
        rw [hv] at ih ⊢
        rw [cons_append, nil_append, points, if_neg, ih]
        exact fun hpair => (isChain_cons.mp h).1 d rfl ⟨hpair.1, htrail.mp hpair.2⟩
    · rw [flatMap_cons, units_pair hlead htrail]
      simp only [cons_append, nil_append]
      rw [points, if_pos ⟨hlead, htrail⟩, ih]

theorem unpaired_points (v : List UInt16) : Unpaired (points v) := by
  fun_induction points v with
  | case1 => exact List.IsChain.nil
  | case2 u => exact List.IsChain.singleton _
  | case3 u w v h ih =>
    refine isChain_cons.mpr ⟨fun d _ hlead => ?_, ih⟩
    exact not_surrogate_pair u w hlead.1.surrogate
  | case4 u w v h ih =>
    refine isChain_cons.mpr ⟨fun d hd hpair => h ⟨hpair.1, ?_⟩, ih⟩
    cases hl : points (w :: v) with
    | nil =>
      rw [hl] at hd
      cases hd
    | cons e l =>
      obtain ⟨x, v', hv', htrail⟩ := exists_units_cons e l
      rw [← hl, units_points] at hv'
      rw [hl] at hd
      cases hd
      cases hv'
      exact htrail.mpr hpair.2

/-! ## Concatenation -/

theorem Unpaired.append {l m : List CodePoint} (hl : Unpaired l) (hm : Unpaired m)
    (h : ∀ c ∈ l.getLast?, ∀ d ∈ m.head?, ¬ (IsLead c.toNat ∧ IsTrail d.toNat)) :
    Unpaired (l ++ m) :=
  List.IsChain.append hl hm h

/-- A scalar value pairs with nothing. -/
theorem Unpaired.insert {l m : List CodePoint} {c : CodePoint} (hl : Unpaired l) (hm : Unpaired m)
    (hc : ¬ IsSurrogate c.toNat) : Unpaired (l ++ c :: m) := by
  refine hl.append (isChain_cons.mpr ⟨fun d _ h => hc h.1.surrogate, hm⟩) ?_
  rintro d - _ ⟨⟩ h
  exact hc h.2.surrogate

theorem unpaired_of_scalars (h : ∀ c ∈ l, ¬ IsSurrogate c.toNat) : Unpaired l := by
  induction l with
  | nil => exact List.IsChain.nil
  | cons c l ih =>
    rw [forall_mem_cons] at h
    exact Unpaired.insert (l := []) List.IsChain.nil (ih h.2) h.1

/-- **The unpaired surrogates** of a sequence of units. -/
def HasUnpaired (v : List UInt16) : Prop :=
  ∃ a u b, v = a ++ u :: b ∧ (IsLead u.toNat ∧ (∀ w ∈ b.head?, ¬ IsTrail w.toNat) ∨
      IsTrail u.toNat ∧ ∀ w ∈ a.getLast?, ¬ IsLead w.toNat)

theorem not_hasUnpaired_of_scalars (h : ∀ c ∈ l, ¬ IsSurrogate c.toNat) :
    ¬ HasUnpaired (l.flatMap units) := by
  rintro ⟨a, u, b, hv, hu⟩
  induction l generalizing a with
  | nil => cases a <;> cases hv
  | cons c l ih =>
    rw [forall_mem_cons] at h
    rw [flatMap_cons] at hv
    obtain ⟨x, rfl⟩ | ⟨lead, trail, hlead, htrail, rfl⟩ := eq_ofUnit_or_pair c
    · rw [units_ofUnit] at hv
      cases a with
      | nil =>
        cases hv
        obtain ⟨hu, -⟩ | ⟨hu, -⟩ := hu
        · exact h.1 hu.surrogate
        · exact h.1 hu.surrogate
      | cons y a =>
        simp only [cons_append, nil_append, cons.injEq] at hv
        obtain ⟨rfl, hv⟩ := hv
        refine ih h.2 a hv (hu.imp_right (And.imp_right fun hlast w hw => hlast w ?_))
        rw [getLast?_cons, Option.mem_def.mp hw]
        rfl
    · rw [units_pair hlead htrail] at hv
      rcases a with _ | ⟨y, _ | ⟨z, a⟩⟩
      · cases hv
        obtain ⟨-, hb⟩ | ⟨hu, -⟩ := hu
        · exact hb trail rfl htrail
        · exact hlead.not_trail hu
      · cases hv
        obtain ⟨hu, -⟩ | ⟨-, ha⟩ := hu
        · exact hu.not_trail htrail
        · exact ha lead rfl hlead
      · simp only [cons_append, nil_append, cons.injEq] at hv
        obtain ⟨rfl, rfl, hv⟩ := hv
        refine ih h.2 a hv (hu.imp_right (And.imp_right fun hlast w hw => hlast w ?_))
        rw [getLast?_cons, getLast?_cons, Option.mem_def.mp hw]
        rfl

theorem hasUnpaired_of_surrogate (hl : Unpaired l) {c : CodePoint}
    (hc : c ∈ l) (h : IsSurrogate c.toNat) : HasUnpaired (l.flatMap units) := by
  obtain ⟨a, b, rfl⟩ := append_of_mem hc
  obtain ⟨ha, hcb, hab⟩ := isChain_append.mp hl
  obtain ⟨u, rfl⟩ | ⟨lead, trail, -, -, rfl⟩ := eq_ofUnit_or_pair c
  · refine ⟨a.flatMap units, u, b.flatMap units, ?_, ?_⟩
    · rw [flatMap_append, flatMap_cons, units_ofUnit]
      rfl
    refine ((isSurrogate_iff _).mp h).imp (fun hlead => ⟨hlead, fun w hw htrail => ?_⟩)
      fun htrail => ⟨htrail, fun w hw hlead => ?_⟩
    · cases b with
      | nil => cases hw
      | cons d b =>
        obtain ⟨x, v, hv, hx⟩ := exists_units_cons d b
        rw [hv] at hw
        cases hw
        exact (isChain_cons.mp hcb).1 d rfl ⟨hlead, hx.mp htrail⟩
    · cases a using reverseRecOn with
      | nil => cases hw
      | append_singleton a d =>
        rw [flatMap_append, flatMap_singleton] at hw
        refine hab d getLast?_concat _ rfl ⟨?_, htrail⟩
        obtain ⟨x, rfl⟩ | ⟨lead, trail, hlead', htrail', rfl⟩ := eq_ofUnit_or_pair d
        · rw [units_ofUnit, getLast?_concat] at hw
          cases hw
          exact hlead
        · rw [units_pair hlead' htrail', getLast?_append] at hw
          cases hw
          exact absurd htrail' hlead.not_trail
  · exact absurd h (not_surrogate_pair lead trail)

/-- **A sequence of units is UTF-16** if none of its code points is a surrogate. -/
theorem hasUnpaired_iff (hl : Unpaired l) :
    HasUnpaired (l.flatMap units) ↔ ∃ c ∈ l, IsSurrogate c.toNat := by
  constructor
  · intro h
    by_contra hno
    exact not_hasUnpaired_of_scalars (fun c hc hs => hno ⟨c, hc, hs⟩) h
  · rintro ⟨c, hc, hs⟩
    exact hasUnpaired_of_surrogate hl hc hs

end RustStd.Utf16
