import Cs444.Slob.WellFormed

/-!
# The order of frees does not matter

A slab page always has a live block (`occupied_of_reachable`): `slob_free` gives it back with its
last one. So the live blocks determine the slab pages and the class of each, and what they leave of
a page determines its free list, which is coalesced and in address order
(`SameHeap.of_perm`). Two orders of freeing the same blocks end with the same live blocks, and so
with the same heap (`freeAll_perm`).
-/

namespace Cs444.Slob

variable (A : Arch)

/-- Every slab page has a live block. -/
def Occupied (y : Sys) : Prop :=
  ∀ p, (y.st.page p).slab = true → ∃ b ∈ y.live, A.virtToPage b.addr = p

/-- `slob_free` of the blocks `bs`, one after the other. -/
def freeAll : State → List Live → Option State
  | s, [] => some s
  | s, b :: bs => (slobFree A s b.addr b.size).bind fun s => freeAll s bs

/-- The same slab pages are held, and each has the same free blocks and is on the same list. -/
structure SameHeap (s s' : State) : Prop where
  slab : ∀ p, (s.page p).slab = (s'.page p).slab
  pages : s.pages = s'.pages
  units : ∀ p, (s.page p).slab = true → (s.page p).units = (s'.page p).units
  freeBlocks : ∀ p, (s.page p).slab = true →
    ∃ free, freeBlocks A s p = some free ∧ freeBlocks A s' p = some free
  lists : ∀ c p, p ∈ pageList A s c ↔ p ∈ pageList A s' c

variable {A} {y y' : Sys} {s s' : State} {live live' : List Live} {v v' : View} {b : Live}

/-! ## Slab pages have live blocks -/

/-- The last block of a page takes the page with it. -/
theorem Rep.slobFree_last (h : Rep A s live v) (hb : b ∈ live)
    (hlast : (s.page (A.virtToPage b.addr)).units + A.SLOB_UNITS b.size = A.pageUnits) :
    Slob.slobFree A s b.addr b.size =
      some (decPages A (Slob.releasePage s (A.virtToPage b.addr))) := by
  have hsize : b.size ≠ 0 := Nat.pos_iff_ne_zero.mp (h.liveOK b hb).pos
  unfold Slob.slobFree Slob.lockedFree
  simp only [h.zeroOrNullPtr_eq hb, Bool.false_eq_true, if_false, hsize, if_pos hlast]
  rfl

/-- A page that is more than the block `b` and free units has another live block. -/
theorem Rep.exists_live_erase (h : Rep A s live v) (hb : b ∈ live)
    (hmore : (s.page (A.virtToPage b.addr)).units + A.SLOB_UNITS b.size ≠ A.pageUnits) :
    ∃ x ∈ live.erase b, A.virtToPage x.addr = A.virtToPage b.addr := by
  have hlive := h.liveOK b hb
  have hok := h.pageOK _ hlive.held
  have htot := hok.total_erase hlive hb
  rw [← hok.units] at htot
  obtain ⟨a, ha, hcov⟩ : ∃ a ∈ Finset.Ico (A.pageAddress (A.virtToPage b.addr))
      (A.pageEnd (A.virtToPage b.addr)), cover (spans A (live.erase b)) a ≠ 0 := by
    apply Finset.exists_ne_zero_of_sum_ne_zero
    omega
  rw [Ne, cover_eq_zero_iff] at hcov
  push Not at hcov
  obtain ⟨_, hmem, hxa⟩ := hcov
  obtain ⟨x, hx, rfl⟩ := List.mem_map.mp hmem
  obtain ⟨h₁, h₂⟩ := Finset.mem_Ico.mp ha
  refine ⟨x, hx, ?_⟩
  rw [← (h.liveOK_erase hx).page_of_has hxa]
  exact A.virtToPage_eq h₁ h₂

/-- `slob_free` leaves a live block on every page it does not give back. -/
theorem Occupied.free (hrep : Rep A y.st y.live v) (h : Occupied A y) (hb : b ∈ y.live)
    (he : slobFree A y.st b.addr b.size = some s') : Occupied A ⟨s', y.live.erase b⟩ := by
  obtain ⟨s₁, v', hfree, hrep', hheld⟩ := hrep.slobFree hb
  obtain rfl := Option.some.inj (hfree.symm.trans he)
  intro q hq
  by_cases hqb : q = A.virtToPage b.addr
  · subst hqb
    by_cases hlast : (y.st.page (A.virtToPage b.addr)).units + A.SLOB_UNITS b.size = A.pageUnits
    · -- the page would have gone back
      rw [hrep.slobFree_last hb hlast] at hfree
      cases hfree
      rw [decPages, releasePage_slab] at hq
      cases hq
    · exact hrep.exists_live_erase hb hlast
  · have hold : q ∈ v.held := by
      rw [← hrep'.held] at hq
      rcases hheld with ⟨h₁, -⟩ | ⟨-, h₁, -⟩
      · rwa [h₁] at hq
      · rw [h₁] at hq
        exact Finset.mem_of_mem_erase hq
    obtain ⟨x, hx, hpage⟩ := h q ((hrep.held q).mp hold)
    refine ⟨x, (List.mem_erase_of_ne ?_).mpr hx, hpage⟩
    rintro rfl
    exact hqb hpage.symm

theorem exec_occupied (hinv : Inv A y) (h : Occupied A y) (c : Call) (hlegal : Legal A y c)
    (he : exec A y c = some y') : Occupied A y' := by
  obtain ⟨v, hrep, -⟩ := hinv
  cases c with
  | alloc size gfp align node src =>
    obtain ⟨hpos, hlt, hfresh⟩ := hlegal
    obtain ⟨⟨s', r⟩, hall, rfl⟩ := Option.map_eq_some_iff.mp he
    rcases hrep.slobAlloc_cases hpos hlt hfresh hall with ⟨rfl, rfl⟩ | ⟨p, addr, v', rfl, hal, hheld⟩
    · exact h
    · intro q hq
      have hsub : q = p ∨ q ∈ v.held := by
        rw [← hal.rep.held] at hq
        rcases hheld with ⟨-, h₁, -⟩ | ⟨-, -, h₁, -⟩
        · exact .inr (h₁ ▸ hq)
        · exact Finset.mem_insert.mp (h₁ ▸ hq)
      rcases hsub with rfl | hold
      · exact ⟨⟨addr, size⟩, List.mem_cons_self .., hal.page⟩
      · obtain ⟨b, hb, hpage⟩ := h q ((hrep.held q).mp hold)
        exact ⟨b, List.mem_cons_of_mem _ hb, hpage⟩
  | free b =>
    obtain ⟨s', hfree, rfl⟩ := Option.map_eq_some_iff.mp he
    exact h.free hrep hlegal hfree

/-- **No slab page is idle** in a reachable state. -/
theorem occupied_of_reachable (h : Reachable A y) : Occupied A y := by
  obtain ⟨s₀, hinit, hrun⟩ := h
  induction hrun with
  | refl =>
    intro p hp
    rw [hinit.slab p] at hp
    cases hp
  | tail hrun hstep ih =>
    have hinv := reachable_inv ⟨s₀, hinit, hrun⟩
    cases hstep with
    | call c hlegal hexec => exact exec_occupied hinv ih c hlegal hexec
    | outside ho _ =>
      obtain ⟨v, hrep, -⟩ := hinv
      intro p hp
      rw [← (hrep.outside ho).held, hrep.held] at hp
      exact ih p hp

/-! ## The live blocks determine the heap -/

/-- The free blocks of a page are determined by what the live blocks leave of it. -/
theorem PageOK.free_unique {p : ℕ} {free free' : List Span} (h : PageOK A s live p free)
    (h' : PageOK A s' live' p free') (hperm : live.Perm live') : free = free' := by
  refine h.apart.eq_of_cover h'.apart (fun b hb => (h.onPage.within b hb).2.1)
    (fun b hb => (h'.onPage.within b hb).2.1) fun a => ?_
  by_cases ha : A.pageAddress p ≤ a ∧ a < A.pageEnd p
  · have h₁ := h.tiles a ha.1 ha.2
    have h₂ := h'.tiles a ha.1 ha.2
    have hlive : cover (spans A live) a = cover (spans A live') a := cover_perm (hperm.map _) a
    omega
  · have hoff : ∀ l, Within (A.pageAddress p) (A.pageEnd p) l → cover l a = 0 := by
      intro l hw
      rw [cover_eq_zero_iff]
      intro b hb hba
      obtain ⟨h₁, -, h₂⟩ := hw b hb
      unfold Span.Has at hba
      omega
    rw [hoff _ h.onPage.within, hoff _ h'.onPage.within]

theorem Rep.held_subset (h : Rep A s live v) (h' : Rep A s' live' v') (hocc : Occupied A ⟨s, live⟩)
    (hperm : live.Perm live') : v.held ⊆ v'.held := by
  intro p hp
  obtain ⟨b, hb, rfl⟩ := hocc p ((h.held p).mp hp)
  exact (h'.liveOK b (hperm.subset hb)).held

/-- **The heap is determined by the live blocks**, up to the order of the page lists. -/
theorem SameHeap.of_perm (h : Reachable A y) (h' : Reachable A y') (hperm : y.live.Perm y'.live) :
    SameHeap A y.st y'.st := by
  obtain ⟨v, hrep, hpages⟩ := reachable_inv h
  obtain ⟨v', hrep', hpages'⟩ := reachable_inv h'
  have hocc := occupied_of_reachable h
  have hheld : v.held = v'.held :=
    (hrep.held_subset hrep' hocc hperm).antisymm
      (hrep'.held_subset hrep (occupied_of_reachable h') hperm.symm)
  have hslab : ∀ p, (y.st.page p).slab = true ↔ (y'.st.page p).slab = true := by
    intro p
    rw [← hrep.held, ← hrep'.held, hheld]
  have hfree : ∀ p ∈ v.held, v.free p = v'.free p := fun p hp =>
    (hrep.pageOK p hp).free_unique (hrep'.pageOK p (hheld ▸ hp)) hperm
  have hunits : ∀ p ∈ v.held, (y.st.page p).units = (y'.st.page p).units := by
    intro p hp
    rw [(hrep.pageOK p hp).units, (hrep'.pageOK p (hheld ▸ hp)).units, hfree p hp]
  have hcls : ∀ p ∈ v.held, v.cls p = v'.cls p := by
    intro p hp
    obtain ⟨b, hb, rfl⟩ := hocc p ((hrep.held p).mp hp)
    rw [← (hrep.liveOK b hb).cls, ← (hrep'.liveOK b (hperm.subset hb)).cls]
  refine ⟨?_, ?_, ?_, ?_, ?_⟩
  · intro p
    exact Bool.eq_iff_iff.mpr (hslab p)
  · rw [hpages, hpages', hheld]
  · intro p hp
    exact hunits p ((hrep.held p).mpr hp)
  · intro p hp
    have hp := (hrep.held p).mpr hp
    refine ⟨v.free p, (hrep.pageOK p hp).freeBlocks_eq, ?_⟩
    rw [hfree p hp]
    exact (hrep'.pageOK p (hheld ▸ hp)).freeBlocks_eq
  · intro c p
    rw [hrep.pageList_eq, hrep'.pageList_eq, hrep.onList, hrep'.onList, ← hheld]
    refine and_congr_right fun hp => ?_
    rw [hcls p hp, hunits p hp]

/-! ## Freeing several blocks -/

/-- Freeing live blocks returns, and leaves the others. -/
theorem Reachable.freeAll (h : Reachable A y) {bs : List Live} (hnd : bs.Nodup)
    (hsub : ∀ b ∈ bs, b ∈ y.live) :
    ∃ s', freeAll A y.st bs = some s' ∧ Reachable A ⟨s', y.live.diff bs⟩ := by
  induction bs generalizing y with
  | nil => exact ⟨y.st, rfl, by simpa using h⟩
  | cons b bs ih =>
    obtain ⟨hb, hnd⟩ := List.nodup_cons.mp hnd
    have hlegal : Legal A y (.free b) := hsub b (by simp)
    obtain ⟨v, hrep, -⟩ := reachable_inv h
    obtain ⟨s₁, -, hfree, -⟩ := hrep.slobFree hlegal
    have hexec : exec A y (.free b) = some ⟨s₁, y.live.erase b⟩ := by
      simp only [exec, hfree, Option.map_some]
    obtain ⟨s₀, hinit, hrun⟩ := h
    obtain ⟨s', hs', hreach⟩ := @ih ⟨s₁, y.live.erase b⟩
      ⟨s₀, hinit, hrun.tail (.call _ hlegal hexec)⟩ hnd fun x hx => by
        refine (List.mem_erase_of_ne ?_).mpr (hsub x (List.mem_cons_of_mem _ hx))
        rintro rfl
        exact hb hx
    refine ⟨s', ?_, by simpa using hreach⟩
    simp only [Slob.freeAll, hfree, Option.bind_some]
    exact hs'

/-- **The order of frees does not matter.** Freeing a set of live blocks in any two orders returns and
leaves the same heap. -/
theorem freeAll_perm (h : Reachable A y) {l₁ l₂ : List Live} (hsub : ∀ b ∈ l₁, b ∈ y.live)
    (hnd : l₁.Nodup) (hperm : l₁.Perm l₂) :
    ∃ s₁ s₂, freeAll A y.st l₁ = some s₁ ∧ freeAll A y.st l₂ = some s₂ ∧ SameHeap A s₁ s₂ := by
  obtain ⟨s₁, hs₁, hreach₁⟩ := h.freeAll hnd hsub
  obtain ⟨s₂, hs₂, hreach₂⟩ := h.freeAll (hperm.nodup_iff.mp hnd)
    fun b hb => hsub b (hperm.mem_iff.mpr hb)
  refine ⟨s₁, s₂, hs₁, hs₂, SameHeap.of_perm hreach₁ hreach₂ ?_⟩
  show (y.live.diff l₁).Perm (y.live.diff l₂)
  rw [hperm.diff_left]

/-- Three blocks of 1024 bytes on a page; the two outer ones are freed from the left and from the
right. -/
theorem freeAll_perm_two :
    ∃ y, Reachable (i386 false) y ∧ y.live = [⟨3072, 1024⟩, ⟨2560, 1024⟩, ⟨2048, 1024⟩] ∧
      ∃ s₁ s₂, freeAll (i386 false) y.st [⟨2048, 1024⟩, ⟨3072, 1024⟩] = some s₁ ∧
        freeAll (i386 false) y.st [⟨3072, 1024⟩, ⟨2048, 1024⟩] = some s₂ ∧
        SameHeap (i386 false) s₁ s₂ := by
  obtain ⟨y, hy, hP⟩ := exists_reachable (i386 false)
    [.alloc 1024 ⟨false⟩ 0 none ⟨some 1, fun _ => none⟩,
      .alloc 1024 ⟨false⟩ 0 none ⟨none, fun _ => none⟩,
      .alloc 1024 ⟨false⟩ 0 none ⟨none, fun _ => none⟩]
    (fun y => y.live = [⟨3072, 1024⟩, ⟨2560, 1024⟩, ⟨2048, 1024⟩]) (by decide +kernel)
  have hlive : y.live = [⟨3072, 1024⟩, ⟨2560, 1024⟩, ⟨2048, 1024⟩] := of_decide_eq_true hP
  refine ⟨y, hy, hlive, freeAll_perm hy ?_ (by decide) (by decide)⟩
  rw [hlive]
  decide

end Cs444.Slob
