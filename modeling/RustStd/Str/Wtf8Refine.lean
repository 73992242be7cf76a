import RustStd.Str.Wtf8Buf

/-!
# WTF-8 buffers are 16-bit strings

A buffer stands for a sequence of UTF-16 units: `from_wide` and `encode_wide` are inverse to each
other, pushing concatenates the units, and the flag of a buffer that the operations built is sound
(`wtf8_buffers`).
-/

namespace RustStd

open Utf16 Wtf8 List

/-- The bytes of a buffer are those of the code points. -/
def Wtf8Buf.Spells (self : Wtf8Buf) (l : List CodePoint) : Prop :=
  Unpaired l ∧ self.bytes = bytesOf l

/-- The flag of a buffer is sound. -/
def Wtf8Buf.Sound (self : Wtf8Buf) : Prop := self.is_known_utf8 = true → Utf8.WellFormed self.bytes

variable {l : List CodePoint} {self : Wtf8Buf}

theorem Wtf8Buf.sound_iff (h : self.bytes = bytesOf l) :
    self.Sound ↔ (self.is_known_utf8 = true → ∀ c ∈ l, ¬ IsSurrogate c.toNat) := by
  rw [Sound, h, wellFormed_iff_scalars]

/-! ## Chars and pairs -/

theorem from_u32_unchecked_ofChar (c : Char) : from_u32_unchecked (ofChar c).toNat = some c :=
  from_u32_unchecked_val c

/-- A scalar value is a char. -/
theorem exists_from_u32_unchecked {c : CodePoint} (h : ¬ IsSurrogate c.toNat) :
    ∃ d, ofChar d = c ∧ from_u32_unchecked c.toNat = some d := by
  obtain ⟨d, rfl⟩ := exists_ofChar h
  exact ⟨d, rfl, from_u32_unchecked_ofChar d⟩

theorem decode_surrogate_pair_eq {lead trail : UInt16} (hlead : IsLead lead.toNat)
    (htrail : IsTrail trail.toNat) :
    ∃ c, decode_surrogate_pair lead trail = some c ∧ ofChar c = pair lead trail := by
  obtain ⟨d, hd, hsome⟩ := exists_from_u32_unchecked (not_surrogate_pair lead trail)
  obtain ⟨hl, hl'⟩ := hlead
  obtain ⟨ht, ht'⟩ := htrail
  obtain ⟨high, hhigh⟩ : ∃ high, lead.toNat - 0xD800 = high := ⟨_, rfl⟩
  obtain ⟨low, hlow⟩ : ∃ low, trail.toNat - 0xDC00 = low := ⟨_, rfl⟩
  have hsub : checkedSub lead.toNat 0xD800 = some high := by rw [checkedSub, if_pos hl, hhigh]
  have hsub' : checkedSub trail.toNat 0xDC00 = some low := by rw [checkedSub, if_pos ht, hlow]
  have hvalue : 0x10000 + (high <<< 10 ||| low) = (pair lead trail).toNat := by
    rw [shiftLeft_or (show low < 2 ^ 10 by omega), pair_toNat]
    omega
  refine ⟨d, ?_, hd⟩
  rw [decode_surrogate_pair, hsub, hsub']
  simpa only [some_bind, hvalue] using hsome

/-- The code point that two surrogates at a seam make. -/
theorem ofUnit_ofNat {c : CodePoint} (h : IsSurrogate c.toNat) :
    ofUnit (UInt16.ofNat c.toNat) = c := by
  refine CodePoint.ext ?_
  exact toNat_ofNat (Nat.lt_of_le_of_lt h.2 (by decide))

/-! ## The operations -/

section Operations

variable {self : Wtf8Buf} {l m : List CodePoint}

theorem push_code_point_unchecked_bytes (h : self.bytes = bytesOf l) (c : CodePoint) :
    (self.push_code_point_unchecked c).bytes = bytesOf (l ++ [c]) := by
  rw [bytesOf_append, bytesOf_singleton, ← h, ← encode_utf8_raw_eq c.lt]
  rfl

/-- `push_char` -/
theorem push_char_spec (h : self.Spells l) (c : Char) :
    (self.push_char c).Spells (l ++ [ofChar c]) ∧ (self.Sound → (self.push_char c).Sound) := by
  have hbytes : (self.push_char c).bytes = bytesOf (l ++ [ofChar c]) :=
    push_code_point_unchecked_bytes h.2 (ofChar c)
  refine ⟨⟨h.1.insert List.IsChain.nil (ofChar_not_surrogate c), hbytes⟩, fun hsound => ?_⟩
  rw [Wtf8Buf.sound_iff h.2] at hsound
  rw [Wtf8Buf.sound_iff hbytes, forall_mem_append, forall_mem_singleton]
  exact fun hknown => ⟨hsound hknown, ofChar_not_surrogate c⟩

/-- `push_str` -/
theorem push_str_spec (h : self.Spells l) (other : Utf8Str) :
    ∃ cs : List Char, other.bytes = bytesOf (cs.map ofChar) ∧
      (self.push_str other).Spells (l ++ cs.map ofChar) ∧
      (self.Sound → (self.push_str other).Sound) := by
  obtain ⟨cs, hcs⟩ := other.valid
  rw [← bytesOf_chars] at hcs
  have hscalars : ∀ c ∈ cs.map ofChar, ¬ IsSurrogate c.toNat := by
    intro c hc
    obtain ⟨d, -, rfl⟩ := mem_map.mp hc
    exact ofChar_not_surrogate d
  have hbytes : (self.push_str other).bytes = bytesOf (l ++ cs.map ofChar) := by
    rw [bytesOf_append, hcs, ← h.2]
    rfl
  refine ⟨cs, hcs.symm, ⟨h.1.append (unpaired_of_scalars hscalars) ?_, hbytes⟩, fun hsound => ?_⟩
  · intro c _ d hd hpair
    exact hscalars d (mem_of_mem_head? hd) hpair.2.surrogate
  · rw [Wtf8Buf.sound_iff h.2] at hsound
    rw [Wtf8Buf.sound_iff hbytes, forall_mem_append]
    exact fun hknown => ⟨hsound hknown, hscalars⟩

/-- A buffer that ends in a lead. -/
theorem final_lead_surrogate_cases (l : List CodePoint) :
    (final_lead_surrogate (bytesOf l) = none ∧ ∀ c ∈ l.getLast?, ¬ IsLead c.toNat) ∨
      ∃ a lead, l = a ++ [ofUnit lead] ∧ IsLead lead.toNat ∧
        final_lead_surrogate (bytesOf l) = some lead := by
  cases l using reverseRecOn with
  | nil => exact .inl ⟨final_lead_surrogate_nil, by simp⟩
  | append_singleton a c =>
    rw [final_lead_surrogate_concat]
    by_cases hc : IsLead c.toNat
    · refine .inr ⟨a, UInt16.ofNat c.toNat, by rw [ofUnit_ofNat hc.surrogate], ?_, if_pos hc⟩
      rw [toNat_ofNat (Nat.lt_of_le_of_lt hc.2 (by decide))]
      exact hc
    · refine .inl ⟨if_neg hc, fun d hd => ?_⟩
      rw [getLast?_concat] at hd
      cases hd
      exact hc

/-- A slice that begins with a trail. -/
theorem initial_trail_surrogate_cases (l : List CodePoint) :
    (initial_trail_surrogate (bytesOf l) = none ∧ ∀ c ∈ l.head?, ¬ IsTrail c.toNat) ∨
      ∃ trail b, l = ofUnit trail :: b ∧ IsTrail trail.toNat ∧
        initial_trail_surrogate (bytesOf l) = some trail := by
  cases l with
  | nil => exact .inl ⟨rfl, by simp⟩
  | cons c b =>
    rw [initial_trail_surrogate_cons]
    by_cases hc : IsTrail c.toNat
    · refine .inr ⟨UInt16.ofNat c.toNat, b, by rw [ofUnit_ofNat hc.surrogate], ?_, if_pos hc⟩
      rw [toNat_ofNat (Nat.lt_of_le_of_lt hc.2 (by decide))]
      exact hc
    · refine .inl ⟨if_neg hc, fun d hd => ?_⟩
      cases hd
      exact hc

/-- The surrogate that a search finds. -/
theorem surrogateFrom_cases (l : List CodePoint) (pos : ℕ) :
    (surrogateFrom l pos = none ∧ ∀ c ∈ l, ¬ IsSurrogate c.toNat) ∨
      ∃ a c b, l = a ++ c :: b ∧ (∀ c ∈ a, ¬ IsSurrogate c.toNat) ∧ IsSurrogate c.toNat ∧
        surrogateFrom l pos = some (pos + (bytesOf a).length, UInt16.ofNat c.toNat) := by
  induction l generalizing pos with
  | nil => exact .inl ⟨rfl, by simp⟩
  | cons c l ih =>
    rw [surrogateFrom]
    by_cases hc : IsSurrogate c.toNat
    · exact .inr ⟨[], c, l, rfl, by simp, hc, if_pos hc⟩
    · rw [if_neg hc]
      obtain ⟨hnone, hall⟩ | ⟨a, d, b, rfl, ha, hd, hsome⟩ := ih (pos + (enc c.toNat).length)
      · exact .inl ⟨hnone, forall_mem_cons.mpr ⟨hc, hall⟩⟩
      · refine .inr ⟨c :: a, d, b, rfl, forall_mem_cons.mpr ⟨hc, ha⟩, hd, ?_⟩
        rw [hsome, bytesOf_cons, length_append, Nat.add_assoc]

theorem next_surrogate_zero (l : List CodePoint) :
    next_surrogate (bytesOf l) 0 = some (surrogateFrom l 0) := next_surrogate_eq [] l

/-- A lead and a trail become one code point. -/
theorem join_spec {a b : List CodePoint} {lead trail : UInt16}
    (h : self.Spells (a ++ [ofUnit lead])) (hlead : IsLead lead.toNat)
    (htrail : IsTrail trail.toNat) (hb : Unpaired (ofUnit trail :: b)) :
    checkedSub self.bytes.length 3 = some (bytesOf a).length ∧
      self.bytes.take (bytesOf a).length = bytesOf a ∧
      Unpaired (a ++ pair lead trail :: b) ∧
      (a ++ pair lead trail :: b).flatMap units =
        (a ++ [ofUnit lead]).flatMap units ++ (ofUnit trail :: b).flatMap units ∧
      (self.Sound → self.is_known_utf8 = false) := by
  have hlen : (enc (ofUnit lead).toNat).length = 3 := by
    obtain ⟨x, y, hm, -⟩ := (encoding_enc (ofUnit lead)).surrogate hlead.surrogate
    rw [hm]
    rfl
  have hbytes : self.bytes = bytesOf a ++ enc (ofUnit lead).toNat := by
    rw [h.2, bytesOf_append, bytesOf_singleton]
  refine ⟨?_, ?_, ?_, ?_, fun hsound => ?_⟩
  · rw [hbytes, length_append, hlen, checkedSub, if_pos (Nat.le_add_left _ _), Nat.add_sub_cancel]
  · rw [hbytes, take_left]
  · exact Unpaired.insert h.1.left_of_append hb.tail (not_surrogate_pair lead trail)
  · simp only [flatMap_append, flatMap_cons, flatMap_nil, units_ofUnit,
      units_pair hlead htrail, append_nil, append_assoc]
    rfl
  · refine Bool.eq_false_iff.mpr fun hknown => ?_
    rw [Wtf8Buf.sound_iff h.2, forall_mem_append, forall_mem_singleton] at hsound
    exact (hsound hknown).2 hlead.surrogate

/-- Without a pair at the seam the bytes are concatenated. -/
theorem push_wtf8_plain (h : self.Spells l) (other : Wtf8) (hm : Unpaired m)
    (hother : other.bytes = bytesOf m)
    (hseam : final_lead_surrogate self.bytes = none ∨ initial_trail_surrogate other.bytes = none)
    (hpair : ∀ c ∈ l.getLast?, ∀ d ∈ m.head?, ¬ (IsLead c.toNat ∧ IsTrail d.toNat)) :
    ∃ s, self.push_wtf8 other = some s ∧ s.Spells (l ++ m) ∧ (self.Sound → s.Sound) := by
  have hbytes : self.bytes ++ other.bytes = bytesOf (l ++ m) := by
    rw [bytesOf_append, h.2, hother]
  have hspells (known : Bool) : (⟨self.bytes ++ other.bytes, known⟩ : Wtf8Buf).Spells (l ++ m) :=
    ⟨h.1.append hm hpair, hbytes⟩
  have hsound := (Wtf8Buf.sound_iff h.2).mp
  have hmatch : self.push_wtf8 other = (do
      let surrogate ← (if self.is_known_utf8 then next_surrogate other.bytes 0 else some none)
      let self := if surrogate.isSome then { self with is_known_utf8 := false } else self
      return { self with bytes := self.bytes ++ other.bytes }) := by
    rw [Wtf8Buf.push_wtf8]
    split
    · next hlead htrail =>
      obtain hnone | hnone := hseam
      · rw [hnone] at hlead
        cases hlead
      · rw [hnone] at htrail
        cases htrail
    · rfl
  rw [hmatch]
  obtain ⟨bytes, known⟩ := self
  cases known with
  | false => exact ⟨⟨bytes ++ other.bytes, false⟩, rfl, hspells false, fun _ => nofun⟩
  | true =>
    rw [if_pos rfl, hother, next_surrogate_zero]
    simp only [some_bind, ← hother]
    obtain ⟨hnone, hall⟩ | ⟨a, c, b, -, -, -, hsome⟩ := surrogateFrom_cases m 0
    · refine ⟨⟨bytes ++ other.bytes, true⟩, by rw [hnone]; rfl, hspells true, fun hs => ?_⟩
      rw [Wtf8Buf.sound_iff hbytes, forall_mem_append]
      exact fun _ => ⟨hsound hs rfl, hall⟩
    · exact ⟨⟨bytes ++ other.bytes, false⟩, by rw [hsome]; rfl, hspells false, fun _ => nofun⟩

/-- **`push_wtf8`** concatenates the units. -/
theorem push_wtf8_spec (h : self.Spells l) (other : Wtf8) (hm : Unpaired m)
    (hother : other.bytes = bytesOf m) :
    ∃ s k, self.push_wtf8 other = some s ∧ s.Spells k ∧
      k.flatMap units = l.flatMap units ++ m.flatMap units ∧ (self.Sound → s.Sound) := by
  obtain ⟨hlast, hlead⟩ | ⟨a, lead, rfl, hlead, hsome⟩ := final_lead_surrogate_cases l
  · obtain ⟨s, hs, hspells, hsound⟩ := push_wtf8_plain h other hm hother
      (.inl (by rw [h.2, hlast])) fun c hc d _ hpair => hlead c hc hpair.1
    exact ⟨s, _, hs, hspells, flatMap_append, hsound⟩
  obtain ⟨hfirst, htrail⟩ | ⟨trail, b, rfl, htrail, hsome'⟩ := initial_trail_surrogate_cases m
  · obtain ⟨s, hs, hspells, hsound⟩ := push_wtf8_plain h other hm hother
      (.inr (by rw [hother, hfirst])) fun c _ d hd hpair => htrail d hd hpair.2
    exact ⟨s, _, hs, hspells, flatMap_append, hsound⟩
  obtain ⟨hlen, htake, hunpaired, hunits, hknown⟩ := join_spec h hlead htrail hm
  obtain ⟨c, hc, hpair⟩ := decode_surrogate_pair_eq hlead htrail
  have hrest : slice_from other.bytes 3 = some (bytesOf b) := by
    obtain ⟨x, y, henc, -⟩ := (encoding_enc (ofUnit trail)).surrogate htrail.surrogate
    rw [hother, bytesOf_cons, henc]
    exact slice_from_eq (Nat.le_add_left 3 _)
  have hbytes : (Wtf8Buf.push_char ⟨bytesOf a, self.is_known_utf8⟩ c).bytes ++ bytesOf b =
      bytesOf (a ++ pair lead trail :: b) := by
    have hpush : (Wtf8Buf.push_char ⟨bytesOf a, self.is_known_utf8⟩ c).bytes =
        bytesOf (a ++ [ofChar c]) := push_code_point_unchecked_bytes rfl (ofChar c)
    rw [hpush, hpair, ← bytesOf_append, append_assoc]
    rfl
  refine ⟨⟨bytesOf (a ++ pair lead trail :: b), self.is_known_utf8⟩, _, ?_, ⟨hunpaired, rfl⟩,
    hunits, fun hsound hk => absurd ((hknown hsound).symm.trans hk) Bool.false_ne_true⟩
  rw [Wtf8Buf.push_wtf8, show final_lead_surrogate self.bytes = some lead by rw [h.2, hsome],
    show initial_trail_surrogate other.bytes = some trail by rw [hother, hsome']]
  simp only [hlen, some_bind, htake, hrest, hc, hbytes]
  rfl

/-- A code point that pairs with nothing. -/
theorem push_plain (h : self.Spells l) (c : CodePoint)
    (hpair : ∀ d ∈ l.getLast?, ¬ (IsLead d.toNat ∧ IsTrail c.toNat)) (known : Bool)
    (hknown : known = true → self.is_known_utf8 = true ∧ ¬ IsSurrogate c.toNat) :
    (Wtf8Buf.push_code_point_unchecked { self with is_known_utf8 := known } c).Spells (l ++ [c]) ∧
      (self.Sound →
        (Wtf8Buf.push_code_point_unchecked { self with is_known_utf8 := known } c).Sound) := by
  have hbytes : (Wtf8Buf.push_code_point_unchecked { self with is_known_utf8 := known } c).bytes =
      bytesOf (l ++ [c]) := push_code_point_unchecked_bytes h.2 c
  refine ⟨⟨h.1.append (List.IsChain.singleton c) ?_, hbytes⟩, fun hsound => ?_⟩
  · rintro d hd _ ⟨⟩
    exact hpair d hd
  · rw [Wtf8Buf.sound_iff h.2] at hsound
    rw [Wtf8Buf.sound_iff hbytes, forall_mem_append, forall_mem_singleton]
    exact fun hk => ⟨hsound (hknown hk).1, (hknown hk).2⟩

/-- **`push`** appends the units of a code point. -/
theorem push_spec (h : self.Spells l) (c : CodePoint) :
    ∃ s k, self.push c = some s ∧ s.Spells k ∧ k.flatMap units = l.flatMap units ++ units c ∧
      (self.Sound → s.Sound) := by
  have hunits : (l ++ [c]).flatMap units = l.flatMap units ++ units c := by
    rw [flatMap_append, flatMap_singleton]
  by_cases htrail : IsTrail c.toNat
  · have hsome : to_trail_surrogate c = some (UInt16.ofNat c.toNat) := if_pos htrail
    obtain ⟨hlast, hlead⟩ | ⟨a, lead, rfl, hlead, hlast⟩ := final_lead_surrogate_cases l
    · obtain ⟨hspells, hsound⟩ := push_plain h c
        (fun d hd hpair => hlead d hd hpair.1) false nofun
      refine ⟨_, _, ?_, hspells, hunits, hsound⟩
      rw [Wtf8Buf.push, hsome]
      rw [h.2, hlast]
      rfl
    have hc := ofUnit_ofNat htrail.surrogate
    generalize UInt16.ofNat c.toNat = trail at hsome hc
    subst hc
    obtain ⟨hlen, htake, hunpaired, hunits, hknown⟩ :=
      join_spec h hlead htrail (List.IsChain.singleton _)
    obtain ⟨d, hd, hpair⟩ := decode_surrogate_pair_eq hlead htrail
    have hbytes : (Wtf8Buf.push_char ⟨bytesOf a, self.is_known_utf8⟩ d).bytes =
        bytesOf (a ++ [pair lead trail]) := by
      rw [← hpair]
      exact push_code_point_unchecked_bytes rfl _
    refine ⟨_, _, ?_, ⟨hunpaired, hbytes⟩, ?_, fun hsound hk =>
      absurd ((hknown hsound).symm.trans hk) Bool.false_ne_true⟩
    · rw [Wtf8Buf.push, hsome]
      rw [show final_lead_surrogate self.bytes = some lead by rw [h.2, hlast]]
      simp only [hlen, some_bind, htake, hd]
      rfl
    · rw [hunits, flatMap_singleton]
  · have hnone : to_trail_surrogate c = none := if_neg htrail
    have hpair : ∀ d ∈ l.getLast?, ¬ (IsLead d.toNat ∧ IsTrail c.toNat) :=
      fun _ _ hpair => htrail hpair.2
    rw [Wtf8Buf.push, hnone]
    by_cases hlead : IsLead c.toNat
    · obtain ⟨hspells, hsound⟩ := push_plain h c hpair false nofun
      refine ⟨_, _, ?_, hspells, hunits, hsound⟩
      rw [show to_lead_surrogate c = some (UInt16.ofNat c.toNat) from if_pos hlead]
      rfl
    · obtain ⟨hspells, hsound⟩ := push_plain h c hpair self.is_known_utf8 fun hk =>
        ⟨hk, fun hs => ((isSurrogate_iff _).mp hs).elim hlead htrail⟩
      refine ⟨_, _, ?_, hspells, hunits, hsound⟩
      rw [show to_lead_surrogate c = none from if_neg hlead]
      rfl

/-- **`extend`** appends the units of code points. -/
theorem extend_spec (h : self.Spells l) (iter : List CodePoint) :
    ∃ s k, self.extend iter = some s ∧ s.Spells k ∧
      k.flatMap units = l.flatMap units ++ iter.flatMap units ∧ (self.Sound → s.Sound) := by
  induction iter generalizing self l with
  | nil => exact ⟨self, l, rfl, h, (append_nil _).symm, id⟩
  | cons c iter ih =>
    obtain ⟨s, k, hs, hspells, hunits, hsound⟩ := push_spec h c
    obtain ⟨s', k', hs', hspells', hunits', hsound'⟩ := ih hspells
    refine ⟨s', k', ?_, hspells', ?_, hsound' ∘ hsound⟩
    · rw [Wtf8Buf.extend, foldlM_cons, hs]
      exact hs'
    · rw [hunits', hunits, append_assoc, flatMap_cons]

/-- **`truncate`** keeps whole code points, and fails between two boundaries. -/
theorem truncate_spec (h : self.Spells l) (new_len : ℕ) :
    (∃ a b, l = a ++ b ∧ new_len = (bytesOf a).length ∧
      ∃ s, self.truncate new_len = some s ∧ s.Spells a ∧ (self.Sound → s.Sound)) ∨
    self.truncate new_len = none ∧ ¬ ∃ a b, l = a ++ b ∧ new_len = (bytesOf a).length := by
  rw [Wtf8Buf.truncate, h.2]
  by_cases hb : is_code_point_boundary (bytesOf l) new_len = true
  · obtain ⟨a, b, rfl, rfl⟩ := (is_code_point_boundary_iff l new_len).mp hb
    have htake : (bytesOf (a ++ b)).take (bytesOf a).length = bytesOf a := by
      rw [bytesOf_append, take_left]
    refine .inl ⟨a, b, rfl, rfl, _, if_pos hb, ⟨h.1.left_of_append, htake⟩, fun hsound => ?_⟩
    rw [Wtf8Buf.sound_iff h.2] at hsound
    rw [Wtf8Buf.sound_iff htake]
    exact fun hk c hc => hsound hk c (mem_append_left b hc)
  · exact .inr ⟨if_neg hb, fun hex => hb ((is_code_point_boundary_iff l new_len).mpr hex)⟩

end Operations

/-! ## From UTF-16 -/

theorem is_utf16_surrogate_iff (u : UInt16) :
    is_utf16_surrogate u = true ↔ IsSurrogate u.toNat := by
  rw [is_utf16_surrogate, Bool.and_eq_true, decide_eq_true_eq, decide_eq_true_eq,
    UInt16.le_iff_toNat_le, UInt16.le_iff_toNat_le]
  rfl

theorem points_cons_of_not_lead {u : UInt16} (h : ¬ IsLead u.toNat) (v : List UInt16) :
    points (u :: v) = ofUnit u :: points v := by
  cases v with
  | nil => rfl
  | cons w v => rw [points, if_neg fun hpair => h hpair.1]

/-- The value of a pair in `DecodeUtf16::next`. -/
theorem paired_value (u w : UInt16) :
    ((u &&& 0x3ff).toNat <<< 10 ||| (w &&& 0x3ff).toNat) + 0x10000 = (pair u w).toNat := by
  have hmask (u : UInt16) : (u &&& 0x3ff).toNat = u.toNat % 0x400 := by
    rw [UInt16.toNat_and]
    exact Nat.and_two_pow_sub_one_eq_mod _ 10
  have hlt : w.toNat % 0x400 < 2 ^ 10 := Nat.mod_lt _ (by decide)
  rw [hmask, hmask, shiftLeft_or hlt, pair_toNat]
  omega

/-- The units that are not decoded. -/
def DecodeUtf16.rest (self : DecodeUtf16) : List UInt16 := self.buf.toList ++ self.iter

/-- **`DecodeUtf16::next`** yields the first code point, a surrogate as an error. -/
theorem DecodeUtf16.next_spec (self : DecodeUtf16) :
    self.rest = [] ∧ (∃ d, self.next = some (none, d)) ∨
      ∃ c d, points self.rest = c :: points d.rest ∧ d.rest.length < self.rest.length ∧
        ((∃ ch, ofChar ch = c ∧ self.next = some (some (.ok ch), d)) ∨
          IsSurrogate c.toNat ∧ ∃ u, ofUnit u = c ∧ self.next = some (some (.error u), d)) := by
  obtain ⟨iter, buf⟩ := self
  cases hrest : DecodeUtf16.rest ⟨iter, buf⟩ with
  | nil =>
    rw [rest, append_eq_nil_iff, Option.toList_eq_nil_iff] at hrest
    obtain ⟨rfl, rfl⟩ := hrest
    exact .inl ⟨rfl, _, rfl⟩
  | cons u v =>
    -- The buffered unit comes first.
    have hnext : DecodeUtf16.next ⟨iter, buf⟩ = DecodeUtf16.next ⟨v, some u⟩ := by
      cases buf with
      | none =>
        obtain rfl : iter = u :: v := hrest
        rfl
      | some b =>
        obtain ⟨rfl, rfl⟩ := cons.inj hrest
        rfl
    rw [hnext]
    refine .inr ?_
    rw [DecodeUtf16.next]
    by_cases hsurrogate : IsSurrogate u.toNat
    · have hs : is_utf16_surrogate u = true := (is_utf16_surrogate_iff u).mpr hsurrogate
      simp only [hs, Bool.not_true, Bool.false_eq_true, if_false]
      by_cases htrail : u ≥ 0xDC00
      · rw [if_pos htrail]
        have hnot : ¬ IsLead u.toNat := by
          have htrail : 0xDC00 ≤ u.toNat := UInt16.le_iff_toNat_le.mp htrail
          rw [IsLead]
          omega
        exact ⟨ofUnit u, ⟨v, none⟩, points_cons_of_not_lead hnot v, Nat.lt_succ_self _,
          .inr ⟨hsurrogate, u, rfl, rfl⟩⟩
      rw [if_neg htrail]
      have hlead : IsLead u.toNat := by
        have htrail : ¬ 0xDC00 ≤ u.toNat := fun h => htrail (UInt16.le_iff_toNat_le.mpr h)
        obtain ⟨hle, hle'⟩ := hsurrogate
        rw [IsLead]
        omega
      cases v with
      | nil =>
        exact ⟨ofUnit u, ⟨[], none⟩, rfl, Nat.lt_succ_self _, .inr ⟨hsurrogate, u, rfl, rfl⟩⟩
      | cons w v =>
        dsimp only
        by_cases htrail' : IsTrail w.toNat
        · have hrange : ¬ (w < 0xDC00 ∨ w > 0xDFFF) := by
            rw [gt_iff_lt, UInt16.lt_iff_toNat_lt, UInt16.lt_iff_toNat_lt, not_or, not_lt, not_lt]
            exact htrail'
          obtain ⟨ch, hch, hsome⟩ := exists_from_u32_unchecked (not_surrogate_pair u w)
          rw [if_neg hrange, paired_value, hsome]
          refine ⟨pair u w, ⟨v, none⟩, ?_, Nat.lt_add_of_pos_right (Nat.succ_pos 1),
            .inl ⟨ch, hch, rfl⟩⟩
          rw [points, if_pos ⟨hlead, htrail'⟩]
          rfl
        · have hrange : w < 0xDC00 ∨ w > 0xDFFF := by
            rw [gt_iff_lt, UInt16.lt_iff_toNat_lt, UInt16.lt_iff_toNat_lt, ← not_le, ← not_le,
              ← not_and_or]
            exact htrail'
          rw [if_pos hrange]
          refine ⟨ofUnit u, ⟨v, some w⟩, ?_, Nat.lt_succ_self _, .inr ⟨hsurrogate, u, rfl, rfl⟩⟩
          rw [points, if_neg fun hpair => htrail' hpair.2]
          rfl
    · have hs : is_utf16_surrogate u = false :=
        Bool.eq_false_iff.mpr fun h => hsurrogate ((is_utf16_surrogate_iff u).mp h)
      obtain ⟨ch, hch, hsome⟩ := exists_from_u32_unchecked (c := ofUnit u) hsurrogate
      have hnot : ¬ IsLead u.toNat := fun h => hsurrogate h.surrogate
      refine ⟨ofUnit u, ⟨v, none⟩, points_cons_of_not_lead hnot v, Nat.lt_succ_self _,
        .inl ⟨ch, hch, ?_⟩⟩
      simp only [hs, Bool.not_false, if_true]
      rw [show from_u32_unchecked u.toNat = some ch from hsome]
      rfl

/-- **`from_wide`** spells the code points of the units. -/
theorem from_wide_spec (v : List UInt16) : ∃ s, Wtf8Buf.from_wide v = some s ∧ s.Spells (points v) ∧
      (s.is_known_utf8 = true ↔ Utf8.WellFormed s.bytes) := by
  -- The string spells what is decoded, and its flag tells whether that has a surrogate.
  let Inv (s : DecodeUtf16 × Wtf8Buf) : Prop := ∃ l, l ++ points s.1.rest = points v ∧
    s.2.bytes = bytesOf l ∧ (s.2.is_known_utf8 = true ↔ ∀ c ∈ l, ¬ IsSurrogate c.toNat)
  have hturn : ∀ s, Inv s → TurnSpec Inv (fun s => s.1.rest.length)
      (fun string => string.bytes = bytesOf (points v) ∧
        (string.is_known_utf8 = true ↔ ∀ c ∈ points v, ¬ IsSurrogate c.toNat)) s
      (Wtf8Buf.from_wide_turn s) := by
    rintro ⟨decoder, string⟩ ⟨l, hall, hbytes, hknown⟩
    rw [Wtf8Buf.from_wide_turn]
    obtain ⟨hrest, d, hnext⟩ | ⟨c, d, hpoints, hlt, hitem⟩ := decoder.next_spec
    · rw [hnext]
      rw [hrest, points, append_nil] at hall
      subst hall
      exact ⟨hbytes, hknown⟩
    have hall' : (l ++ [c]) ++ points d.rest = points v := by
      rw [← hall, hpoints, append_assoc]
      rfl
    obtain ⟨ch, rfl, hnext⟩ | ⟨hc, u, rfl, hnext⟩ := hitem
    · rw [hnext]
      refine ⟨⟨l ++ [ofChar ch], hall', push_code_point_unchecked_bytes hbytes _, ?_⟩, hlt⟩
      rw [forall_mem_append, forall_mem_singleton]
      exact hknown.trans (iff_self_and.mpr fun _ => ofChar_not_surrogate ch)
    · rw [hnext]
      refine ⟨⟨l ++ [ofUnit u], hall', push_code_point_unchecked_bytes hbytes _, ?_⟩, hlt⟩
      exact iff_of_false Bool.false_ne_true fun hl => hl (ofUnit u) (by simp) hc
  obtain ⟨s, hrun, hbytes, hknown⟩ := runLoop_spec _ _ _ _ hturn (v.length + 1) (⟨v, none⟩, .new)
    ⟨[], rfl, rfl, by simp [Wtf8Buf.new]⟩ (Nat.lt_succ_self _)
  refine ⟨s, hrun, ⟨unpaired_points v, hbytes⟩, ?_⟩
  rw [hbytes, wellFormed_iff_scalars]
  exact hknown

/-! ## To strings -/

/-- The replacement character for a surrogate. -/
def lossy (c : CodePoint) : CodePoint := if IsSurrogate c.toNat then ofChar '\uFFFD' else c

theorem lossy_not_surrogate (c : CodePoint) : ¬ IsSurrogate (lossy c).toNat := by
  rw [lossy]
  split
  · exact ofChar_not_surrogate _
  · assumption

section Strings

variable {self : Wtf8Buf} {l : List CodePoint}

/-- **`into_string`** succeeds without surrogates. -/
theorem into_string_spec (h : self.Spells l) (hsound : self.Sound) :
    self.into_string = some (if ∃ c ∈ l, IsSurrogate c.toNat then .error self
      else .ok self.bytes) := by
  rw [Wtf8Buf.sound_iff h.2] at hsound
  rw [Wtf8Buf.into_string]
  by_cases hknown : self.is_known_utf8 = true
  · rw [if_pos hknown, if_neg fun ⟨c, hc, hs⟩ => hsound hknown c hc hs]
    rfl
  · rw [if_neg hknown, h.2, next_surrogate_zero]
    obtain ⟨hnone, hall⟩ | ⟨a, c, b, rfl, -, hc, hsome⟩ := surrogateFrom_cases l 0
    · rw [hnone, if_neg fun ⟨c, hc, hs⟩ => hall c hc hs]
      rfl
    · rw [hsome, if_pos ⟨c, by simp, hc⟩]
      rfl

theorem map_lossy_of_scalars (h : ∀ c ∈ l, ¬ IsSurrogate c.toNat) : l.map lossy = l := by
  have hid : l.map lossy = l.map id := map_congr_left fun c hc => if_neg (h c hc)
  rw [hid, map_id]

theorem lossy_of_surrogate {c : CodePoint} (h : IsSurrogate c.toNat) :
    lossy c = ofChar '\uFFFD' := if_pos h

/-- A turn replaces the next surrogate. -/
theorem into_string_lossy_turn_spec (a b : List CodePoint) :
    TurnSpec (fun s => ∃ k m, a ++ b.map lossy = k ++ m.map lossy ∧
        s = (bytesOf (k ++ m), (bytesOf k).length))
      (fun s => s.1.length - s.2) (fun r => r = bytesOf (a ++ b.map lossy))
      (bytesOf (a ++ b), (bytesOf a).length)
      (Wtf8Buf.into_string_lossy_turn (bytesOf (a ++ b), (bytesOf a).length)) := by
  rw [Wtf8Buf.into_string_lossy_turn]
  rw [next_surrogate_eq]
  obtain ⟨hnone, hall⟩ | ⟨k, c, m, rfl, hk, hc, hsome⟩ := surrogateFrom_cases b (bytesOf a).length
  · rw [hnone, map_lossy_of_scalars hall]
    rfl
  obtain ⟨x, y, henc, -⟩ := (encoding_enc c).surrogate hc
  have hpos : (bytesOf a).length + (bytesOf k).length = (bytesOf (a ++ k)).length := by
    rw [bytesOf_append, length_append]
  have hsplit : bytesOf (a ++ (k ++ c :: m)) =
      bytesOf (a ++ k) ++ ([0xED, x, y] ++ bytesOf m) := by
    rw [← append_assoc, bytesOf_append, bytesOf_cons, henc]
  have hhead : slice_to (bytesOf (a ++ (k ++ c :: m))) (bytesOf (a ++ k)).length =
      some (bytesOf (a ++ k)) := by
    rw [hsplit, slice_to_eq (by rw [length_append]; exact Nat.le_add_right _ _),
      take_left]
  have htail : slice_from (bytesOf (a ++ (k ++ c :: m))) ((bytesOf (a ++ k)).length + 3) =
      some (bytesOf m) := by
    rw [hsplit, slice_from_eq (by simp only [length_append, length_cons]; omega),
      ← drop_drop, drop_left]
    rfl
  have hnew : bytesOf (a ++ k ++ [lossy c]) = bytesOf (a ++ k) ++ [0xEF, 0xBF, 0xBD] := by
    rw [bytesOf_append, bytesOf_singleton, lossy_of_surrogate hc]
    rfl
  rw [hsome, hpos]
  simp only [some_bind, hhead, htail]
  refine ⟨⟨a ++ k ++ [lossy c], m, ?_, ?_⟩, ?_⟩
  · rw [map_append, map_cons, map_lossy_of_scalars hk]
    simp
  · refine Prod.ext ?_ ?_
    · rw [bytesOf_append _ m, hnew]
    · rw [hnew, length_append]
      rfl
  · dsimp only
    rw [hsplit]
    simp only [length_append, length_cons, length_nil, bytesOf_append]
    omega

/-- **`into_string_lossy`** replaces the surrogates. -/
theorem into_string_lossy_spec (h : self.Spells l) (hsound : self.Sound) :
    self.into_string_lossy = some (bytesOf (l.map lossy)) := by
  rw [Wtf8Buf.sound_iff h.2] at hsound
  rw [Wtf8Buf.into_string_lossy]
  by_cases hknown : self.is_known_utf8 = true
  · rw [hknown, map_lossy_of_scalars (hsound hknown), ← h.2]
    rfl
  rw [Bool.eq_false_iff.mpr hknown, Bool.not_false, if_pos rfl, h.2]
  obtain ⟨r, hrun, rfl⟩ := runLoop_spec Wtf8Buf.into_string_lossy_turn
    (fun s => ∃ k m, l.map lossy = k ++ m.map lossy ∧ s = (bytesOf (k ++ m), (bytesOf k).length))
    (fun s => s.1.length - s.2) (fun r => r = bytesOf (l.map lossy)) (fun s hs => by
      obtain ⟨k, m, hall, rfl⟩ := hs
      rw [hall]
      exact into_string_lossy_turn_spec k m)
    ((bytesOf l).length + 1) (bytesOf l, 0) ⟨[], l, rfl, rfl⟩ (Nat.lt_succ_self _)
  exact hrun

end Strings

/-! ## Runs -/

/-- Every operation keeps a buffer sound; only `truncate` between two boundaries fails. -/
theorem apply_spec (h : self.Spells l) (hsound : self.Sound) (op : Wtf8Buf.Op) :
    (∃ s k, op.apply self = some s ∧ s.Spells k ∧ s.Sound) ∨ op.apply self = none ∧
        ∃ n, op = .truncate n ∧ ¬ ∃ a b, l = a ++ b ∧ n = (bytesOf a).length := by
  cases op with
  | from_wide v =>
    obtain ⟨s, hs, hspells, hknown⟩ := from_wide_spec v
    exact .inl ⟨s, _, hs, hspells, hknown.mp⟩
  | push c =>
    obtain ⟨s, k, hs, hspells, -, hs'⟩ := push_spec h c
    exact .inl ⟨s, k, hs, hspells, hs' hsound⟩
  | push_char c =>
    obtain ⟨hspells, hs'⟩ := push_char_spec h c
    exact .inl ⟨_, _, rfl, hspells, hs' hsound⟩
  | push_str other =>
    obtain ⟨cs, -, hspells, hs'⟩ := push_str_spec h other
    exact .inl ⟨_, _, rfl, hspells, hs' hsound⟩
  | push_wtf8 other =>
    obtain ⟨m, hm, hother⟩ := other.valid
    obtain ⟨s, k, hs, hspells, -, hs'⟩ := push_wtf8_spec h other hm hother.symm
    exact .inl ⟨s, k, hs, hspells, hs' hsound⟩
  | extend iter =>
    obtain ⟨s, k, hs, hspells, -, hs'⟩ := extend_spec h iter
    exact .inl ⟨s, k, hs, hspells, hs' hsound⟩
  | truncate n =>
    obtain ⟨a, b, -, -, s, hs, hspells, hs'⟩ | ⟨hnone, hno⟩ := truncate_spec h n
    · exact .inl ⟨s, a, hs, hspells, hs' hsound⟩
    · exact .inr ⟨hnone, n, rfl, hno⟩

/-- **Runs** -/
theorem run_spec (ops : List Wtf8Buf.Op) {self s : Wtf8Buf}
    (h : self.Spells l) (hsound : self.Sound) (hrun : self.run ops = some s) :
    ∃ k, s.Spells k ∧ s.Sound := by
  induction ops generalizing self l with
  | nil =>
    cases hrun
    exact ⟨l, h, hsound⟩
  | cons op ops ih =>
    rw [Wtf8Buf.run, foldlM_cons] at hrun
    obtain ⟨t, ht, hrest⟩ := Option.bind_eq_some_iff.mp hrun
    obtain ⟨s', k, hs', hspells, hsound'⟩ | ⟨hnone, -⟩ := apply_spec h hsound op
    · obtain rfl : s' = t := Option.some.inj (hs'.symm.trans ht)
      exact ih hspells hsound' hrest
    · exact absurd (hnone.symm.trans ht) (by simp)

/-! ## Buffers and units -/

theorem spells_of_wellFormed (h : WellFormed self.bytes) : ∃ l, self.Spells l := by
  obtain ⟨l, hl, hbytes⟩ := h
  exact ⟨l, hl, hbytes.symm⟩

theorem Wtf8Buf.Spells.wellFormed (h : self.Spells l) : WellFormed self.bytes := ⟨l, h.1, h.2.symm⟩

theorem Wtf8Buf.Spells.encode_wide (h : self.Spells l) :
    encode_wide self.bytes = some (l.flatMap units) := by
  rw [h.2, encode_wide_eq]

/-- **What holds of a buffer** that the operations built. -/
structure Wtf8Buf.Good (self : Wtf8Buf) : Prop where
  wellFormed : WellFormed self.bytes
  known : self.is_known_utf8 = true → Utf8.WellFormed self.bytes
  into_string_eq : ∃ v r, encode_wide self.bytes = some v ∧ self.into_string = some r ∧
    ((∃ s, r = .ok s) ↔ ¬ HasUnpaired v) ∧
    (∀ s, r = .ok s → s = self.bytes ∧ Utf8.WellFormed s) ∧ ∀ s, r = .error s → s = self
  into_string_lossy_eq : ∃ l, bytesOf l = self.bytes ∧
    self.into_string_lossy = some (bytesOf (l.map lossy)) ∧ Utf8.WellFormed (bytesOf (l.map lossy))

theorem good_of_spells (h : self.Spells l) (hsound : self.Sound) : self.Good where
  wellFormed := h.wellFormed
  known := hsound
  into_string_eq := by
    refine ⟨_, _, h.encode_wide, into_string_spec h hsound, ?_⟩
    rw [hasUnpaired_iff h.1]
    by_cases hs : ∃ c ∈ l, IsSurrogate c.toNat
    · rw [if_pos hs]
      exact ⟨iff_of_false nofun (not_not.mpr hs), nofun, fun s hs' => (Except.error.inj hs').symm⟩
    · rw [if_neg hs]
      refine ⟨iff_of_true ⟨_, rfl⟩ hs, fun s hs' => ?_, nofun⟩
      obtain rfl := Except.ok.inj hs'
      refine ⟨rfl, ?_⟩
      rw [h.2, wellFormed_iff_scalars]
      exact fun c hc hsur => hs ⟨c, hc, hsur⟩
  into_string_lossy_eq := by
    refine ⟨l, h.2.symm, into_string_lossy_spec h hsound, ?_⟩
    rw [wellFormed_iff_scalars]
    intro c hc
    obtain ⟨d, -, rfl⟩ := mem_map.mp hc
    exact lossy_not_surrogate d

/-- **Buffers are 16-bit strings**: `from_wide` and `encode_wide` are inverse to each other, pushing
concatenates the units, and every run of the operations leaves a good buffer. -/
theorem wtf8_buffers : (∀ v, ∃ s, Wtf8Buf.from_wide v = some s ∧ WellFormed s.bytes ∧
      encode_wide s.bytes = some v ∧ (s.is_known_utf8 = true ↔ Utf8.WellFormed s.bytes)) ∧
    (∀ bytes, WellFormed bytes → ∃ v s, encode_wide bytes = some v ∧
      Wtf8Buf.from_wide v = some s ∧ s.bytes = bytes) ∧
    (∀ a : Wtf8Buf, WellFormed a.bytes → ∃ v, encode_wide a.bytes = some v ∧
      (∀ b : Wtf8, ∃ w s, encode_wide b.bytes = some w ∧ a.push_wtf8 b = some s ∧
        WellFormed s.bytes ∧ encode_wide s.bytes = some (v ++ w)) ∧
      (∀ c, ∃ s, a.push c = some s ∧ WellFormed s.bytes ∧
        encode_wide s.bytes = some (v ++ encode_utf16_raw c.toNat)) ∧
      ∀ cs, ∃ s, a.extend cs = some s ∧ WellFormed s.bytes ∧
        encode_wide s.bytes = some (v ++ cs.flatMap fun c => encode_utf16_raw c.toNat)) ∧
    ∀ ops s, Wtf8Buf.new.run ops = some s → s.Good ∧
      ∀ op, Wtf8Buf.Op.apply s op = none → ∃ n, op = .truncate n ∧
        ¬ ∃ l m, bytesOf (l ++ m) = s.bytes ∧ n = (bytesOf l).length := by
  refine ⟨fun v => ?_, fun bytes h => ?_, fun a ha => ?_, fun ops s hrun => ?_⟩
  · obtain ⟨s, hs, hspells, hknown⟩ := from_wide_spec v
    exact ⟨s, hs, hspells.wellFormed, by rw [hspells.encode_wide, units_points], hknown⟩
  · obtain ⟨l, hl, rfl⟩ := h
    obtain ⟨s, hs, hspells, -⟩ := from_wide_spec (l.flatMap units)
    refine ⟨_, s, encode_wide_eq l, hs, ?_⟩
    rw [hspells.2, points_units hl]
  · obtain ⟨l, hl⟩ := spells_of_wellFormed ha
    refine ⟨_, hl.encode_wide, fun b => ?_, fun c => ?_, fun cs => ?_⟩
    · obtain ⟨m, hm, hb⟩ := b.valid
      obtain ⟨s, k, hs, hspells, hunits, -⟩ := push_wtf8_spec hl b hm hb.symm
      refine ⟨m.flatMap units, s, ?_, hs, hspells.wellFormed, ?_⟩
      · rw [← hb, encode_wide_eq]
      · rw [hspells.encode_wide, hunits]
    · obtain ⟨s, k, hs, hspells, hunits, -⟩ := push_spec hl c
      refine ⟨s, hs, hspells.wellFormed, ?_⟩
      rw [hspells.encode_wide, hunits, encode_utf16_raw_eq]
    · obtain ⟨s, k, hs, hspells, hunits, -⟩ := extend_spec hl cs
      refine ⟨s, hs, hspells.wellFormed, ?_⟩
      rw [hspells.encode_wide, hunits]
      simp only [encode_utf16_raw_eq]
  · obtain ⟨k, hspells, hsound⟩ := run_spec ops (l := []) ⟨List.IsChain.nil, rfl⟩
      (fun _ => Utf8.wellFormed_nil) hrun
    refine ⟨good_of_spells hspells hsound, fun op hop => ?_⟩
    obtain ⟨t, -, ht, -⟩ | ⟨-, n, rfl, hno⟩ := apply_spec hspells hsound op
    · exact absurd (ht.symm.trans hop) (by simp)
    · refine ⟨n, rfl, ?_⟩
      rintro ⟨l, m, hbytes, rfl⟩
      exact hno ⟨l, m, bytesOf_inj (hspells.2.symm.trans hbytes.symm), rfl⟩

end RustStd
