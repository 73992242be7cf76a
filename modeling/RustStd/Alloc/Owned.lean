import RustStd.Alloc.RawVec

/-!
# The block of a vector

Between calls a vector has no block or the one block whose pointer it keeps, laid out as an array of
as many elements as its capacity tells (`Owns`). A call that needs more room either reaches it or
changes nothing (`Grown`).
-/

namespace RustStd.Alloc

open Nat Exec State RawVecInner

variable {t : Target} {σ : Type}

/-! ## Layouts of arrays -/

theorem layout_ext {l m : Layout t} (hsize : l.size = m.size) (halign : l.align = m.align) :
    l = m := by
  cases l
  cases m
  cases hsize
  cases halign
  rfl

/-- The layout of an element: its size is a multiple of its alignment. -/
structure ElemLayout (t : Target) extends Layout t where
  padded : align.value ∣ size

variable (elem : ElemLayout t)
include elem

theorem ElemLayout.stride_eq : elem.stride = elem.size :=
  roundUp_eq_self elem.align.pos elem.padded

theorem roundUp_mul (n : ℕ) : roundUp (elem.size * n) elem.align.value = elem.size * n :=
  roundUp_eq_self elem.align.pos (elem.padded.mul_right n)

theorem layout_array_spec (cap : ℕ) : (∃ layout, layout_array cap elem.toLayout = .ok (.ok layout) ∧
      layout.size = elem.size * cap ∧ layout.align = elem.align) ∨
    (layout_array cap elem.toLayout = .ok (.error .CapacityOverflow) ∧
      t.isizeMax < elem.size * cap) := by
  obtain ⟨r, hr, hdescribes⟩ := repeat_spec elem.toLayout cap
  rw [layout_array, hr, bind_ok]
  rw [elem.stride_eq] at hdescribes
  cases r with
  | ok p => exact .inl ⟨p.1, rfl, hdescribes.1⟩
  | error e =>
    rw [DescribesAt, Describes, roundUp_mul] at hdescribes
    exact .inr ⟨rfl, hdescribes⟩

variable {cap : ℕ} {layout : Layout t}

/-- An array that is not too large has the layout that `Layout::array` gives. -/
theorem array_eq
    (hsize : layout.size = elem.size * cap) (halign : layout.align = elem.align) :
    elem.array cap = .ok (.ok layout) := by
  obtain ⟨r, hr, hdescribes⟩ := array_spec elem.toLayout cap
  cases r with
  | ok l => rw [hr, layout_ext (hdescribes.1.trans hsize.symm) (hdescribes.2.trans halign.symm)]
  | error e =>
    rw [Describes, roundUp_mul] at hdescribes
    have := layout.size_le
    omega

omit elem

/-! ## Ownership -/

/-- **The blocks of a vector**: none, or the one that it points to, laid out as an array of its
capacity. -/
def Owns (elem : ElemLayout t) (s : State t σ) : Prop :=
  if elem.size = 0 ∨ s.vec.cap = 0 then s.memory.blocks = []
  else ∃ b : Block t, s.memory.blocks = [b] ∧ b.ptr = s.vec.ptr ∧
    b.layout.size = elem.size * s.vec.cap ∧ b.layout.align = elem.align

variable {elem : ElemLayout t} {s : State t σ}

theorem owns_of_nil (h : elem.size = 0 ∨ s.vec.cap = 0) (hblocks : s.memory.blocks = []) :
    Owns elem s := by
  rw [Owns, if_pos h]
  exact hblocks

/-- No block: the vector is empty or its elements take no room. -/
theorem Owns.nil (h : Owns elem s) (hempty : elem.size = 0 ∨ s.vec.cap = 0) :
    s.memory.blocks = [] := by
  rwa [Owns, if_pos hempty] at h

variable {s' : State t σ}

theorem Owns.congr (h : Owns elem s) (hvec : s'.vec = s.vec)
    (hblocks : s'.memory.blocks = s.memory.blocks) : Owns elem s' := by
  rwa [Owns, hvec, hblocks]

theorem take_block_single (b : Block t) : take_block b.ptr b.layout [b] = some [] :=
  if_pos ⟨rfl, rfl⟩

/-- **The current memory** is the block of the vector. -/
theorem Owns.current_memory (h : Owns elem s) :
    (s.vec.current_memory elem.toLayout = .ok none ∧ s.memory.blocks = [] ∧
      (elem.size = 0 ∨ s.vec.cap = 0)) ∨
    ∃ b : Block t, s.vec.current_memory elem.toLayout = .ok (some (b.ptr, b.layout)) ∧
      s.memory.blocks = [b] ∧ b.layout.size = elem.size * s.vec.cap ∧
      b.layout.align = elem.align ∧ elem.size ≠ 0 ∧ s.vec.cap ≠ 0 := by
  rw [RawVecInner.current_memory]
  by_cases hempty : elem.size = 0 ∨ s.vec.cap = 0
  · exact .inl ⟨if_pos hempty, h.nil hempty, hempty⟩
  rw [Owns, if_neg hempty] at h
  obtain ⟨b, hblocks, hptr, hsize, halign⟩ := h
  have hle := b.layout.size_le
  have hcard := isizeMax_lt_usizeCard t
  refine .inr ⟨b, ?_, hblocks, hsize, halign, fun h0 => hempty (.inl h0),
    fun h0 => hempty (.inr h0)⟩
  rw [if_neg hempty, unchecked_mul, if_pos (by omega), bind_ok,
    from_size_align_unchecked_layout hsize halign, bind_ok, hptr]
  rfl

theorem cap_le_isizeMax (hsize : layout.size = elem.size * cap)
    (hpos : elem.size ≠ 0) : cap ≤ t.isizeMax := by
  have hle := layout.size_le
  have hcap := Nat.le_mul_of_pos_left cap (Nat.pos_of_ne_zero hpos)
  omega

/-! ## Growing -/

/-- Pointer, capacity and blocks are what they were. -/
def Unchanged (s s' : State t σ) : Prop :=
  s'.vec = s.vec ∧ s'.memory.blocks = s.memory.blocks

/-- **A call for room** for `need` elements: there is room, or nothing changed. -/
def Grown (elem : ElemLayout t) (need : ℕ) (s : State t σ) : Outcome t × State t σ → Prop
  | (.returned, s') => Owns elem s' ∧ elem.size ≠ 0 ∧ need ≤ s'.vec.cap
  | (.failed _, s') => Unchanged s s'
  | _ => False

variable (A : Allocator t σ) {len additional : ℕ} {o : Outcome t}

/-- The allocator hands out the only block, which the vector owns, or refuses and no block
changed. -/
theorem answer_cases (m : Memory t σ) (r : Option (Slice layout.size) × σ)
    (hsize : layout.size = elem.size * cap) (halign : layout.align = elem.align)
    (hpos : elem.size ≠ 0) (hcap : cap ≠ 0) :
    (∃ ptr memory hle, m.answer [] r = (some ptr, memory) ∧ Owns elem ⟨⟨ptr, cap, hle⟩, memory⟩) ∨
    ∃ memory, m.answer [] r = (none, memory) ∧ memory.blocks = m.blocks := by
  obtain ⟨o, alloc⟩ := r
  cases o with
  | some slice =>
    have hle := cap_le_isizeMax hsize hpos
    refine .inl ⟨slice.ptr, ⟨alloc, [.of_slice layout slice]⟩, hle, rfl, ?_⟩
    rw [Owns, if_neg (not_or.mpr ⟨hpos, hcap⟩)]
    exact ⟨_, rfl, rfl, hsize, halign⟩
  | none => exact .inr ⟨⟨alloc, m.blocks⟩, rfl, rfl⟩

variable (h : Owns elem s)
include h

theorem finish_grow_spec (hpos : elem.size ≠ 0) (hcap : s.vec.cap < cap) :
    (∃ ptr memory hle, s.finish_grow A cap elem.toLayout = .ok (.ok ptr, memory) ∧
      Owns elem ⟨⟨ptr, cap, hle⟩, memory⟩) ∨
    ∃ e memory, s.finish_grow A cap elem.toLayout = .ok (.error e, memory) ∧
      memory.blocks = s.memory.blocks := by
  rw [finish_grow]
  rcases layout_array_spec elem cap with ⟨layout, hlayout, hsize, halign⟩ | ⟨hlayout, -⟩
  · have hne : cap ≠ 0 := ne_of_gt (zero_lt_of_lt hcap)
    rw [hlayout, bind_ok]
    dsimp only
    rcases h.current_memory with ⟨hmem, hblocks, -⟩ | ⟨b, hmem, hblocks, hbsize, hbalign, -⟩
    · -- There is no block yet.
      rw [hmem, bind_ok]
      simp only [Memory.allocate, hblocks]
      rcases answer_cases s.memory (A.allocate s.memory.alloc layout) hsize halign hpos hne with
        ⟨ptr, memory, hle, hanswer, howns⟩ | ⟨memory, hanswer, hsame⟩
      · exact .inl ⟨ptr, memory, hle, by rw [hanswer]; rfl, howns⟩
      · exact .inr ⟨.AllocError layout, memory, by rw [hanswer]; rfl, hsame.trans hblocks⟩
    -- The block grows.
    have hassume : b.layout.align = layout.align := hbalign.trans halign.symm
    have hgrow : b.layout.size ≤ layout.size := by
      rw [hbsize, hsize]
      exact mul_le_mul_left _ hcap.le
    rw [hmem, bind_ok]
    dsimp only
    rw [assume, if_pos hassume, bind_ok, Memory.grow, hblocks, take_block_single]
    dsimp only
    rw [if_pos hgrow, bind_ok]
    rcases answer_cases s.memory (A.grow s.memory.alloc b.ptr b.layout layout) hsize halign hpos
      hne with ⟨ptr, memory, hle, hanswer, howns⟩ | ⟨memory, hanswer, hsame⟩
    · exact .inl ⟨ptr, memory, hle, by rw [hanswer]; rfl, howns⟩
    · exact .inr ⟨.AllocError layout, memory, by rw [hanswer]; rfl, hsame.trans hblocks⟩
  · exact .inr ⟨.CapacityOverflow, s.memory, by rw [hlayout]; rfl, rfl⟩

theorem grow_to_spec (hpos : elem.size ≠ 0) {need : ℕ}
    (hcap : s.vec.cap < cap) (hneed : need ≤ cap) :
    ∃ r, s.grow_to A cap elem.toLayout = .ok r ∧ Grown elem need s r := by
  rw [grow_to]
  rcases finish_grow_spec A h hpos hcap with ⟨ptr, memory, hle, hrun, howns⟩ |
    ⟨e, memory, hrun, hblocks⟩
  · refine ⟨(.returned, ⟨⟨ptr, cap, hle⟩, memory⟩), ?_, howns, hpos, hneed⟩
    rw [hrun, bind_ok]
    dsimp only
    rw [of_parts, dif_pos hle]
    rfl
  · refine ⟨(.failed e, ⟨s.vec, memory⟩), ?_, rfl, hblocks⟩
    rw [hrun]
    rfl

/-- **Amortised growth.** -/
theorem grow_amortized_spec (hadd : 0 < additional)
    (hcap : elem.size ≠ 0 → s.vec.cap < len + additional) :
    ∃ r, s.grow_amortized A len additional elem.toLayout = .ok r ∧
      Grown elem (len + additional) s r := by
  rw [grow_amortized, assume, if_pos hadd, bind_ok]
  by_cases hzero : elem.size = 0
  · exact ⟨(.failed .CapacityOverflow, s), if_pos hzero, rfl, rfl⟩
  rw [if_neg hzero, checked_add]
  by_cases hover : len + additional < t.usizeCard
  · have hlt := hcap hzero
    have hle := s.vec.cap_le
    have hcard := t.two_mul_isizeMax
    rw [if_pos hover]
    dsimp only
    rw [unchecked_mul, if_pos (by omega), bind_ok]
    exact grow_to_spec A h hzero (by omega) (by omega)
  · rw [if_neg hover]
    exact ⟨(.failed .CapacityOverflow, s), rfl, rfl, rfl⟩

/-- **Exact growth.** -/
theorem grow_exact_spec (hcap : elem.size ≠ 0 → s.vec.cap < len + additional) :
    ∃ r, s.grow_exact A len additional elem.toLayout = .ok r ∧
      Grown elem (len + additional) s r := by
  rw [grow_exact]
  by_cases hzero : elem.size = 0
  · exact ⟨(.failed .CapacityOverflow, s), if_pos hzero, rfl, rfl⟩
  rw [if_neg hzero, checked_add]
  by_cases hover : len + additional < t.usizeCard
  · rw [if_pos hover]
    exact grow_to_spec A h hzero (hcap hzero) le_rfl
  · rw [if_neg hover]
    exact ⟨(.failed .CapacityOverflow, s), rfl, rfl, rfl⟩

omit h

/-! ## Reserving -/

theorem capacity_lt (s : State t σ) : s.vec.capacity elem.size < t.usizeCard := by
  have hle := s.vec.cap_le
  have hcard := t.two_mul_isizeMax
  rw [capacity, Target.usizeMax]
  split <;> omega

/-- The test for growth, where the length does not exceed the capacity. -/
theorem needs_to_grow_iff (hlen : len ≤ s.vec.capacity elem.size) :
    s.vec.needs_to_grow len additional elem.toLayout = true ↔
      s.vec.capacity elem.size < len + additional := by
  rw [needs_to_grow, decide_eq_true_iff, Target.wrappingSub_of_le hlen (capacity_lt s)]
  omega

/-- Growth is only tried where the request exceeds the capacity, also from a length past it. -/
theorem lt_of_needs_to_grow (h : s.vec.needs_to_grow len additional elem.toLayout = true) :
    0 < additional ∧ (elem.size ≠ 0 → s.vec.cap < len + additional) := by
  have hadd : 0 < additional := by
    rw [needs_to_grow, decide_eq_true_iff] at h
    omega
  refine ⟨hadd, fun hsize => ?_⟩
  have hcap : s.vec.capacity elem.size = s.vec.cap := if_neg hsize
  by_cases hlen : len ≤ s.vec.capacity elem.size
  · have := (needs_to_grow_iff hlen).mp h
    omega
  · omega

/-- **A call that reserves room** for more elements than the length tells: there is room, or nothing
changed. Nothing is promised from a length past the capacity but that the vector stays intact. -/
def Reserved (elem : ElemLayout t) (len additional : ℕ) (s : State t σ) (o : Outcome t)
    (s' : State t σ) : Prop :=
  Owns elem s' ∧
    (o = .returned → len ≤ s.vec.capacity elem.size →
      len + additional ≤ s'.vec.capacity elem.size) ∧
    (o ≠ .returned → Unchanged s s')

theorem Grown.reserved (h : Owns elem s)
    (hgrown : Grown elem (len + additional) s (o, s')) : Reserved elem len additional s o s' := by
  cases o with
  | returned =>
    refine ⟨hgrown.1, fun _ _ => ?_, fun hne => absurd rfl hne⟩
    rw [capacity, if_neg hgrown.2.1]
    exact hgrown.2.2
  | failed e => exact ⟨h.congr hgrown.1 hgrown.2, nofun, fun _ => hgrown⟩
  | panicked | aborted => exact hgrown.elim

/-- Nothing to do. -/
theorem reserved_self (h : Owns elem s)
    (hgrow : ¬ s.vec.needs_to_grow len additional elem.toLayout = true) :
    Reserved elem len additional s .returned s :=
  ⟨h, fun _ hlen => Nat.le_of_not_lt fun hlt => hgrow ((needs_to_grow_iff hlen).mpr hlt),
    fun hne => absurd rfl hne⟩

theorem handle_error_returned : o.handle_error = .returned ↔ o = .returned := by
  rcases o with _ | (_ | _) | _ | _ <;> simp [Outcome.handle_error]

theorem Reserved.handle_error (h : Reserved elem len additional s o s') :
    Reserved elem len additional s o.handle_error s' := by
  simpa only [Reserved, ne_eq, handle_error_returned] using h

/-- What the source assumes after a reservation holds. -/
theorem reserved_eq
    (h : o = .returned → ¬ s.vec.needs_to_grow len additional elem.toLayout = true) :
    State.reserved len additional elem.toLayout (o, s) = .ok (o, s) := by
  cases o with
  | returned =>
    rw [State.reserved, assume, if_pos (by simpa using h rfl)]
    rfl
  | failed | panicked | aborted => rfl

theorem Grown.reserved_eq (hgrown : Grown elem (len + additional) s (o, s')) :
    State.reserved len additional elem.toLayout (o, s') = .ok (o, s') := by
  refine Alloc.reserved_eq ?_
  rintro rfl hgrow
  have hcap : s'.vec.capacity elem.size = s'.vec.cap := if_neg hgrown.2.1
  have hle := hgrown.2.2
  have := (needs_to_grow_iff (by omega)).mp hgrow
  omega

include h

theorem reserve_spec (len additional : ℕ) :
    ∃ o s', s.reserve A len additional elem.toLayout = .ok (o, s') ∧
      Reserved elem len additional s o s' := by
  rw [reserve]
  by_cases hgrow : s.vec.needs_to_grow len additional elem.toLayout = true
  · obtain ⟨hadd, hcap⟩ := lt_of_needs_to_grow hgrow
    obtain ⟨⟨o, s'⟩, hrun, hgrown⟩ := grow_amortized_spec A h hadd hcap
    refine ⟨o.handle_error, s', ?_, (hgrown.reserved h).handle_error⟩
    rw [if_pos hgrow, hrun]
    rfl
  · exact ⟨.returned, s, if_neg hgrow, reserved_self h hgrow⟩

theorem try_reserve_spec (len additional : ℕ) :
    ∃ o s', s.try_reserve A len additional elem.toLayout = .ok (o, s') ∧
      Reserved elem len additional s o s' := by
  rw [State.try_reserve]
  by_cases hgrow : s.vec.needs_to_grow len additional elem.toLayout = true
  · obtain ⟨hadd, hcap⟩ := lt_of_needs_to_grow hgrow
    obtain ⟨⟨o, s'⟩, hrun, hgrown⟩ := grow_amortized_spec A h hadd hcap
    refine ⟨o, s', ?_, hgrown.reserved h⟩
    rw [if_pos hgrow, hrun, bind_ok, hgrown.reserved_eq]
  · refine ⟨.returned, s, ?_, reserved_self h hgrow⟩
    rw [if_neg hgrow, reserved_eq fun _ => hgrow]

theorem try_reserve_exact_spec (len additional : ℕ) :
    ∃ o s', s.try_reserve_exact A len additional elem.toLayout = .ok (o, s') ∧
      Reserved elem len additional s o s' := by
  rw [State.try_reserve_exact]
  by_cases hgrow : s.vec.needs_to_grow len additional elem.toLayout = true
  · obtain ⟨⟨o, s'⟩, hrun, hgrown⟩ := grow_exact_spec A h (lt_of_needs_to_grow hgrow).2
    refine ⟨o, s', ?_, hgrown.reserved h⟩
    rw [if_pos hgrow, hrun, bind_ok, hgrown.reserved_eq]
  · refine ⟨.returned, s, ?_, reserved_self h hgrow⟩
    rw [if_neg hgrow, reserved_eq fun _ => hgrow]

theorem reserve_exact_spec (len additional : ℕ) :
    ∃ o s', s.reserve_exact A len additional elem.toLayout = .ok (o, s') ∧
      Reserved elem len additional s o s' := by
  obtain ⟨o, s', hrun, hreserved⟩ := try_reserve_exact_spec A h len additional
  refine ⟨o.handle_error, s', ?_, hreserved.handle_error⟩
  rw [reserve_exact, hrun]
  rfl

/-- Growing by one at the least. -/
theorem grow_one_spec : ∃ o s', s.grow_one A elem.toLayout = .ok (o, s') ∧ Owns elem s' ∧
      (o = .returned → elem.size ≠ 0 ∧ s.vec.cap + 1 ≤ s'.vec.cap) ∧
      (o ≠ .returned → Unchanged s s') := by
  obtain ⟨⟨o, s'⟩, hrun, hgrown⟩ := grow_amortized_spec A h one_pos fun _ => lt_succ_self _
  refine ⟨o.handle_error, s', ?_, (hgrown.reserved h).1, fun ho => ?_,
    (hgrown.reserved h).handle_error.2.2⟩
  · rw [grow_one, hrun]
    rfl
  · rw [handle_error_returned] at ho
    subst ho
    exact hgrown.2

/-! ## Shrinking -/

/-- **A call that shrinks** to the capacity `cap`. -/
def Shrunk (elem : ElemLayout t) (cap : ℕ) (s : State t σ) (o : Outcome t) (s' : State t σ) :
    Prop :=
  Owns elem s' ∧
    (o = .returned → cap ≤ s'.vec.capacity elem.size ∧ (elem.size ≠ 0 → s'.vec.cap = cap)) ∧
    (o ≠ .returned → Unchanged s s')

/-- Shrinking to nothing frees the block; else the allocator shrinks it or fails. -/
theorem shrink_unchecked_spec (hcap : cap ≤ s.vec.capacity elem.size) :
    ∃ o s', s.shrink_unchecked A cap elem.toLayout = .ok (o, s') ∧ Shrunk elem cap s o s' := by
  rw [shrink_unchecked]
  rcases h.current_memory with ⟨hmem, -, hempty⟩ | ⟨b, hmem, hblocks, hsize, halign, hpos, hne⟩
  · refine ⟨.returned, s, by rw [hmem]; rfl, h, fun _ => ⟨hcap, fun hsize => ?_⟩,
      fun hne => absurd rfl hne⟩
    rw [capacity, if_neg hsize] at hcap
    omega
  rw [capacity, if_neg hpos] at hcap
  rw [hmem, bind_ok]
  dsimp only
  by_cases hzero : cap = 0
  · -- The block is given back.
    subst hzero
    rw [if_pos rfl, Memory.deallocate, hblocks, take_block_single]
    exact ⟨.returned, _, rfl, owns_of_nil (.inr rfl) rfl, fun _ => ⟨zero_le _, fun _ => rfl⟩,
      fun hne => absurd rfl hne⟩
  -- The block shrinks.
  have hle : elem.size * cap ≤ b.layout.size := by
    rw [hsize]
    exact mul_le_mul_left _ hcap
  have hmax := b.layout.size_le
  have hcard := isizeMax_lt_usizeCard t
  have hvalid : roundUp (elem.size * cap) elem.align.value ≤ t.isizeMax := by
    rw [roundUp_mul]
    omega
  rw [if_neg hzero, unchecked_mul, if_pos (by omega), bind_ok, halign,
    from_size_align_unchecked_eq hvalid, bind_ok, Memory.shrink, hblocks, take_block_single]
  dsimp only
  rw [if_pos hle, bind_ok]
  rcases answer_cases s.memory (A.shrink s.memory.alloc b.ptr b.layout
    ⟨elem.size * cap, elem.align, hvalid⟩) rfl (show elem.align = elem.align from rfl) hpos hzero
    with ⟨ptr, memory, hlecap, hanswer, howns⟩ | ⟨memory, hanswer, hsame⟩
  · refine ⟨.returned, ⟨⟨ptr, cap, hlecap⟩, memory⟩, ?_, howns, fun _ => ⟨?_, fun _ => rfl⟩,
      fun hne => absurd rfl hne⟩
    · rw [hanswer]
      dsimp only
      rw [of_parts, dif_pos hlecap]
      rfl
    · rw [capacity, if_neg hpos]
  · refine ⟨.failed (.AllocError ⟨elem.size * cap, elem.align, hvalid⟩), ⟨s.vec, memory⟩, ?_,
      h.congr rfl hsame, by rintro ⟨⟩, fun _ => ⟨rfl, hsame⟩⟩
    rw [hanswer]
    rfl

theorem shrink_to_fit_spec (cap : ℕ) :
    ∃ o s', s.shrink_to_fit A cap elem.toLayout = .ok (o, s') ∧ Shrunk elem cap s o s' := by
  rw [shrink_to_fit, shrink]
  by_cases hcap : cap ≤ s.vec.capacity elem.size
  · obtain ⟨o, s', hrun, hshrunk⟩ := shrink_unchecked_spec A h hcap
    refine ⟨o.handle_error, s', ?_, ?_⟩
    · rw [if_pos hcap, hrun]
      rfl
    · simpa only [Shrunk, ne_eq, handle_error_returned] using hshrunk
  · exact ⟨.panicked, s, by rw [if_neg hcap]; rfl, h, nofun, fun _ => ⟨rfl, rfl⟩⟩

/-! ## Dropping -/

/-- **Dropping a vector** gives its block back. -/
theorem Owns.deallocate :
    ∃ memory, s.deallocate A elem.toLayout = .ok memory ∧ memory.blocks = [] := by
  rw [State.deallocate]
  rcases h.current_memory with ⟨hmem, hblocks, -⟩ | ⟨b, hmem, hblocks, -⟩
  · exact ⟨s.memory, by rw [hmem]; rfl, hblocks⟩
  · refine ⟨⟨A.deallocate s.memory.alloc b.ptr b.layout, []⟩, ?_, rfl⟩
    rw [hmem, bind_ok]
    dsimp only
    rw [Memory.deallocate, hblocks, take_block_single]

end RustStd.Alloc
