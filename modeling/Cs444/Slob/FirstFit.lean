import Cs444.Slob.Contents

/-!
# Address-ordered first fit

What `slob_page_alloc` finds, said without its free list: a place for a block is an aligned address of
the page behind which enough units are in no live block (`Place`). The search of the free list finds the
lowest place of the page, and fails only when there is none (`PageOK.pageAlloc_isLeast`): the free blocks
are coalesced, so a place lies inside one of them, and in the first block that has room the aligned
start is the lowest place.

`firstFit_of_reachable`: a block that `slob_alloc` returns is the lowest place of its page, in every
reachable state.
-/

namespace Cs444.Slob

variable (A : Arch)

/-- The address `a` is a multiple of the alignment, which is none when it is `0`. -/
def AlignedAt (align a : ℕ) : Prop := align ≠ 0 → align ∣ A.SLOB_UNIT * a

/-- A block of `size` bytes can be put at `a` in the page `p`, beside the live blocks. -/
structure Place (live : List Live) (p size align a : ℕ) : Prop where
  aligned : AlignedAt A align a
  lo : A.pageAddress p ≤ a
  hi : a + A.SLOB_UNITS size ≤ A.pageEnd p
  free : ∀ x, a ≤ x → x < a + A.SLOB_UNITS size → cover (spans A live) x = 0

variable {A} {s s' : State} {live : List Live} {v : View} {p size align a cur : ℕ} {x : Span}
  {free : List Span}

/-! ## Alignment -/

/-- The aligned start of a block is aligned. -/
theorem alignedAt_alignDelta (halign : Aligning A align) (cur : ℕ) :
    AlignedAt A align (cur + alignDelta A cur align) := by
  intro hne
  rcases halign with rfl | ⟨k, rfl, -⟩
  · exact absurd rfl hne
  · exact dvd_of_alignDelta

/-- It is the lowest aligned address of the block. -/
theorem alignDelta_le (halign : Aligning A align) (ha : AlignedAt A align a) (hcur : cur ≤ a) :
    cur + alignDelta A cur align ≤ a := by
  rcases halign with rfl | ⟨k, rfl, -⟩
  · exact hcur
  have hpos : 0 < 2 ^ k := Nat.two_pow_pos k
  obtain ⟨c, hc⟩ := ha hpos.ne'
  have hle : A.SLOB_UNIT * cur ≤ 2 ^ k * c := hc ▸ Nat.mul_le_mul_left _ hcur
  -- rounding up gives the least multiple
  have hup : ALIGN (A.SLOB_UNIT * cur) (2 ^ k) ≤ A.SLOB_UNIT * a := by
    rw [ALIGN_two_pow, hc, Nat.mul_comm (2 ^ k) c]
    refine Nat.mul_le_mul_right _ (Nat.le_of_lt_succ ?_)
    rw [Nat.div_lt_iff_lt_mul hpos, Nat.succ_mul, Nat.mul_comm c]
    omega
  have hdiv : ALIGN (A.SLOB_UNIT * cur) (2 ^ k) / A.SLOB_UNIT ≤ a := by
    have := Nat.div_le_div_right (c := A.SLOB_UNIT) hup
    rwa [Nat.mul_div_cancel_left _ A.slobUnit_pos] at this
  unfold alignDelta
  rw [if_pos hpos.ne']
  omega

/-! ## Places are in free blocks -/

/-- The free block of a place. -/
theorem PageOK.exists_free_of_place (h : PageOK A s live p free) (hpos : 0 < size)
    (ha : Place A live p size align a) :
    ∃ x ∈ free, x.start ≤ a ∧ a + A.SLOB_UNITS size ≤ x.fin := by
  have hlo := ha.lo
  have hhi := ha.hi
  refine h.apart.exists_of_cover (A.units_pos hpos) fun y hy hy' => ?_
  have htile := h.tiles y (by omega) (by omega)
  have hno := ha.free y hy hy'
  omega

/-- A free block with room has a place at its aligned start. -/
theorem PageOK.place_of_hasRoom (h : PageOK A s live p free) (halign : Aligning A align)
    (hx : x ∈ free) (hroom : HasRoom A (A.SLOB_UNITS size) align x) :
    Place A live p size align (x.start + alignDelta A x.start align) := by
  obtain ⟨hlo, -, hhi⟩ := h.onPage.within x hx
  unfold HasRoom at hroom
  unfold Span.fin at hhi
  refine ⟨alignedAt_alignDelta halign _, by omega, by omega, fun y hy hy' => ?_⟩
  have hcov := one_le_cover hx (a := y) ⟨by omega, by unfold Span.fin; omega⟩
  have htile := h.tiles y (by omega) (by omega)
  omega

/-- A free block that holds a place has room. -/
theorem hasRoom_of_place (halign : Aligning A align) (ha : Place A live p size align a)
    (hlo : x.start ≤ a) (hhi : a + A.SLOB_UNITS size ≤ x.fin) :
    HasRoom A (A.SLOB_UNITS size) align x := by
  have hle := alignDelta_le halign ha.aligned hlo
  unfold HasRoom
  unfold Span.fin at hhi
  omega

/-- In the first free block with room the aligned start is the lowest place of the page. -/
theorem PageOK.isLeast_of_first {pre post : List Span} (h : PageOK A s live p (pre ++ x :: post))
    (hpos : 0 < size) (halign : Aligning A align) (hroom : HasRoom A (A.SLOB_UNITS size) align x)
    (hskip : ∀ c ∈ pre, ¬ HasRoom A (A.SLOB_UNITS size) align c) :
    IsLeast {a | Place A live p size align a} (x.start + alignDelta A x.start align) := by
  refine ⟨h.place_of_hasRoom halign (by simp) hroom, fun a ha => ?_⟩
  obtain ⟨y, hy, hlo, hhi⟩ := h.exists_free_of_place hpos ha
  rcases List.mem_append.mp hy with hy | hy
  · exact absurd (hasRoom_of_place halign ha hlo hhi) (hskip y hy)
  rcases List.mem_cons.mp hy with rfl | hy
  · exact alignDelta_le halign ha.aligned hlo
  · -- a place behind the block `x`
    have hafter := h.onPage.mid.after y hy
    unfold HasRoom at hroom
    omega

/-- **`slob_page_alloc` is exact**: it takes the lowest place of the page, and returns `NULL` only
when the page has none. -/
theorem PageOK.pageAlloc_isLeast (h : PageOK A s live p free) (hunits : 0 < (s.page p).units)
    (hpos : 0 < size) (halign : Aligning A align) :
    slobPageAlloc A s p size align = some (s, none) ∧ (∀ a, ¬ Place A live p size align a) ∨
      ∃ s' b, slobPageAlloc A s p size align = some (s', some b) ∧
        IsLeast {a | Place A live p size align a} b := by
  obtain ⟨hnull, hno⟩ | ⟨pre, x, post, m, fl, addr, rfl, hroom, hskip, htake, halloc⟩ :=
    slobPageAlloc_cases h.onPage (h.free_ne_nil.mpr hunits) size align
  · refine .inl ⟨hnull, fun a ha => ?_⟩
    obtain ⟨x, hx, hlo, hhi⟩ := h.exists_free_of_place hpos ha
    exact hno x hx (hasRoom_of_place halign ha hlo hhi)
  · obtain ⟨m', fl', htake', -⟩ := h.onPage.takeBlock (A.units_pos hpos) hroom
    obtain ⟨-, -, rfl⟩ : m = m' ∧ fl = fl' ∧ addr = x.start + alignDelta A x.start align := by
      simpa using htake.symm.trans htake'
    exact .inr ⟨_, _, halloc, h.isLeast_of_first hpos halign hroom hskip⟩

/-! ## `slob_alloc` -/

theorem Place.virtToPage_eq (h : Place A live p size align a) (hpos : 0 < size) :
    A.virtToPage a = p := by
  have hlo := h.lo
  have hhi := h.hi
  have hu := A.units_pos hpos
  exact A.virtToPage_eq hlo (by unfold Arch.pageEnd at hhi; omega)

/-- **Address-ordered first fit.** In every reachable state `slob_page_alloc` takes the lowest place of
a page of the lists, and returns `NULL` exactly when it has none; a block that `slob_alloc` returns is
the lowest place of its page. -/
theorem firstFit_of_reachable {y : Sys} (h : Reachable A y) (hpos : 0 < size)
    (halign : Aligning A align) :
    (∀ c, ∀ p ∈ pageList A y.st c, ∃ s' r, slobPageAlloc A y.st p size align = some (s', r) ∧
      (r = none → s' = y.st ∧ ∀ a, ¬ Place A y.live p size align a) ∧
      ∀ b ∈ r, IsLeast {a | Place A y.live p size align a} b) ∧
    ∀ gfp node src s' b, Legal A y (.alloc size gfp align node src) →
      slobAlloc A y.st size gfp align node src = some (s', some b) →
        IsLeast {a | Place A y.live (A.virtToPage b) size align a} b := by
  obtain ⟨v, hrep, -⟩ := reachable_inv h
  constructor
  · intro c p hp
    rw [hrep.pageList_eq] at hp
    obtain ⟨hheld, -, hunits⟩ := (hrep.onList c p).mp hp
    rcases (hrep.pageOK p hheld).pageAlloc_isLeast hunits hpos halign with
      ⟨hnull, hno⟩ | ⟨s', b, hb, hleast⟩
    · exact ⟨_, _, hnull, fun _ => ⟨rfl, hno⟩, by simp⟩
    · refine ⟨_, _, hb, by simp, ?_⟩
      rintro _ ⟨⟩
      exact hleast
  · rintro gfp node src s' b ⟨-, -, hfresh⟩ he
    suffices hp : ∃ p, IsLeast {a | Place A y.live p size align a} b by
      obtain ⟨p, hleast⟩ := hp
      rwa [hleast.1.virtToPage_eq hpos]
    have hpage : ∀ {s₀ s₁ : State} {p : ℕ} {free : List Span}, PageOK A s₀ y.live p free →
        0 < (s₀.page p).units → slobPageAlloc A s₀ p size align = some (s₁, some b) →
          IsLeast {a | Place A y.live p size align a} b := by
      intro s₀ s₁ p free hok hunits hall
      rcases hok.pageAlloc_isLeast hunits hpos halign with ⟨hnull, -⟩ | ⟨s₂, b', hb, hleast⟩
      · rw [hall] at hnull
        cases hnull
      · rw [hall] at hb
        cases hb
        exact hleast
    obtain ⟨s₁, -, ⟨p, hp, hall⟩ | ⟨p, hsrc, hall⟩⟩ := hrep.slobAlloc_block he
    · obtain ⟨hheld, -, hunits⟩ := (hrep.onList _ p).mp hp
      exact ⟨p, hpage (hrep.pageOK p hheld) hunits hall⟩
    · obtain ⟨hslab, hpfn⟩ := hfresh p hsrc
      have hadd := hrep.addPage (hrep.not_mem_held hslab) hpfn (slobList size)
      have hok := hadd.pageOK p (Finset.mem_insert_self ..)
      have hunits : 0 < ((addPage A y.st p (slobList size)).page p).units := by
        simp [addPage, setSlobPageFree, State.setPage, A.pageUnits_pos]
      exact ⟨p, hpage hok hunits hall⟩

/-- Three blocks of 1024 bytes, the middle one freed: the block of 64 bytes at an alignment of 64 goes
to the front of the gap. -/
theorem firstFit_gap : ∃ y, Reachable (i386 false) y ∧ y.live = [⟨3072, 1024⟩, ⟨2048, 1024⟩] ∧
    1 ∈ pageList (i386 false) y.st .large ∧
    ∃ s' r, slobPageAlloc (i386 false) y.st 1 64 64 = some (s', r) ∧ r = some 2560 ∧
      ∀ b ∈ r, IsLeast {a | Place (i386 false) y.live 1 64 64 a} b := by
  obtain ⟨y, hy, hP⟩ := exists_reachable (i386 false)
    [.alloc 1024 ⟨false⟩ 0 none ⟨some 1, fun _ => none⟩,
      .alloc 1024 ⟨false⟩ 0 none ⟨none, fun _ => none⟩,
      .alloc 1024 ⟨false⟩ 0 none ⟨none, fun _ => none⟩, .free ⟨2560, 1024⟩]
    (fun y => y.live = [⟨3072, 1024⟩, ⟨2048, 1024⟩] && 1 ∈ pageList (i386 false) y.st .large &&
      (slobPageAlloc (i386 false) y.st 1 64 64).any fun r => r.2 = some 2560) (by decide +kernel)
  simp only [Bool.and_eq_true, decide_eq_true_eq] at hP
  obtain ⟨⟨hlive, hlist⟩, hres⟩ := hP
  have hpos : 0 < 64 := by decide
  have halign : Aligning (i386 false) 64 := .inr ⟨6, rfl, by decide⟩
  obtain ⟨s', r, hr, -, hleast⟩ := (firstFit_of_reachable hy hpos halign).1 .large 1 hlist
  rw [hr] at hres
  exact ⟨y, hy, hlive, hlist, s', r, hr, by simpa using hres, hleast⟩

end Cs444.Slob
