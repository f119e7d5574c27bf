import Cs444.Slob.Invariant

/-!
# `slob_free` keeps the representation

Freeing a live block with the size it was allocated with (`Rep.slobFree`) returns, and the heap it
leaves represents the remaining live blocks. The three branches of the code are the three cases:
the page becomes empty and goes back (`Rep.releasePage`), a full page becomes partially free
(`Rep.refile`), or the block joins the free list of its page (`Rep.rejoin`).
-/

namespace Cs444.Slob

variable {A : Arch} {s s' : State} {live : List Live} {v : View} {b : Live}

/-! ## Taking a block off the live blocks -/

theorem cover_erase (hb : b ∈ live) (a : ℕ) :
    cover (spans A live) a =
      (if (b.span A).Has a then 1 else 0) + cover (spans A (live.erase b)) a := by
  have hperm : (spans A live).Perm (spans A (b :: live.erase b)) :=
    (List.perm_cons_erase hb).map _
  rw [cover_perm hperm, spans_cons, cover_cons]

theorem Rep.cover_erase_off (h : Rep A s live v) (hb : b ∈ live) {a : ℕ}
    (ha : A.virtToPage a ≠ A.virtToPage b.addr) :
    cover (spans A (live.erase b)) a = cover (spans A live) a := by
  rw [cover_erase hb, if_neg, Nat.zero_add]
  exact fun e => ha ((h.liveOK b hb).page_of_has e)

theorem Rep.liveOK_erase (h : Rep A s live v) {y : Live} (hy : y ∈ live.erase b) : LiveOK A v y :=
  h.liveOK y (List.mem_of_mem_erase hy)

/-- The units of a live block are not free. -/
theorem PageOK.cover_free_eq_zero {free : List Span}
    (h : PageOK A s live (A.virtToPage b.addr) free) (hlive : LiveOK A v b) (hb : b ∈ live)
    {a : ℕ} (ha : (b.span A).Has a) : cover free a = 0 := by
  have hpage := hlive.page_of_has ha
  have htile := h.tiles a (hpage ▸ (mem_page a).1) (hpage ▸ (mem_page a).2)
  have := one_le_cover (List.mem_map_of_mem (f := Live.span A) hb) ha
  unfold spans at htile
  omega

/-- The units of a page after one of its live blocks is gone. -/
theorem PageOK.total_erase {free : List Span} (h : PageOK A s live (A.virtToPage b.addr) free)
    (hlive : LiveOK A v b) (hb : b ∈ live) :
    total free + (A.SLOB_UNITS b.size +
      ∑ a ∈ Finset.Ico (A.pageAddress (A.virtToPage b.addr)) (A.pageEnd (A.virtToPage b.addr)),
        cover (spans A (live.erase b)) a) = A.pageUnits := by
  have htot := h.total_add
  have hone := sum_cover hlive.within
  simp only [cover_cons, cover_nil, Nat.add_zero, total_cons, total_nil] at hone
  simp only [cover_erase hb, Finset.sum_add_distrib] at htot
  rw [hone] at htot
  exact htot

/-- A page whose last live block goes has no other. -/
theorem Rep.virtToPage_ne_of_last (h : Rep A s live v) (hb : b ∈ live)
    (hlast : (s.page (A.virtToPage b.addr)).units + A.SLOB_UNITS b.size = A.pageUnits)
    {y : Live} (hy : y ∈ live.erase b) : A.virtToPage y.addr ≠ A.virtToPage b.addr := by
  intro e
  have hok := h.pageOK _ (h.liveOK b hb).held
  have htot := hok.total_erase (h.liveOK b hb) hb
  rw [← hok.units] at htot
  have hzero : ∑ a ∈ Finset.Ico (A.pageAddress (A.virtToPage b.addr))
      (A.pageEnd (A.virtToPage b.addr)), cover (spans A (live.erase b)) a = 0 := by omega
  have hy₀ := Finset.sum_eq_zero_iff.mp hzero y.addr
    (by rw [← e]; exact Finset.mem_Ico.mpr (mem_page y.addr))
  have hone := one_le_cover (List.mem_map_of_mem (f := Live.span A) hy) (a := y.addr)
    ⟨le_rfl, Nat.lt_add_of_pos_right (A.units_pos (h.liveOK_erase hy).pos)⟩
  unfold spans at hy₀
  omega

/-! ## The three branches -/

theorem Rep.zeroOrNullPtr_eq (h : Rep A s live v) (hb : b ∈ live) :
    zeroOrNullPtr A b.addr = false := by
  have h₁ := (mem_page (A := A) b.addr).1
  have h₂ := A.pageUnits_mul
  have h₃ : 2 ^ 5 ≤ A.PAGE_SIZE := Nat.pow_le_pow_right (by norm_num) A.five_le
  have h₄ : A.pageUnits ≤ b.addr :=
    (Nat.le_mul_of_pos_left _ (h.frame _ (h.liveOK b hb).held).1).trans h₁
  have h₅ : A.SLOB_UNIT * A.pageUnits ≤ A.SLOB_UNIT * b.addr := Nat.mul_le_mul_left _ h₄
  rw [Nat.mul_comm, h₂] at h₅
  unfold zeroOrNullPtr
  rw [decide_eq_false_iff_not]
  omega

/-- The page `p` leaves the list it is on. -/
theorem Rep.unlinkPage (h : Rep A s live v) {p : ℕ} (hp : p ∈ v.held) :
    ∃ ls', Rings (if (s.page p).slobFree then clearSlobPageFree s p else s).links ls' ∧
      ∀ c q, q ∈ ls' c ↔ q ∈ v.ls c ∧ q ≠ p := by
  have hok := h.pageOK p hp
  by_cases hf : (s.page p).slobFree = true
  · obtain ⟨a, a', hl⟩ :=
      List.append_of_mem ((h.onList (v.cls p) p).mpr ⟨hp, rfl, hok.flag.mp hf⟩)
    refine ⟨Function.update v.ls (v.cls p) (a ++ a'), ?_, ?_⟩
    · rw [if_pos hf]
      exact h.rings.del hl
    · intro c q
      have hnot := h.not_mem hl
      by_cases hc : c = v.cls p
      · subst hc
        rw [Function.update_self, hl]
        by_cases e : q = p
        · simp_all
        · simp [e]
      · rw [Function.update_of_ne hc]
        refine ⟨fun hq => ⟨hq, ?_⟩, And.left⟩
        rintro rfl
        exact hc ((h.onList c q).mp hq).2.1.symm
  · refine ⟨v.ls, ?_, ?_⟩
    · rw [if_neg hf]
      exact h.rings
    · intro c q
      refine ⟨fun hq => ⟨hq, ?_⟩, And.left⟩
      rintro rfl
      exact hf (hok.flag.mpr ((h.onList c q).mp hq).2.2)

@[simp] theorem releasePage_mem (s : State) (p : ℕ) : (releasePage s p).mem = s.mem := by
  simp only [releasePage, State.setPage]
  split_ifs <;> rfl

@[simp] theorem releasePage_pages (s : State) (p : ℕ) : (releasePage s p).pages = s.pages := by
  simp only [releasePage, State.setPage]
  split_ifs <;> rfl

theorem releasePage_page_ne {p q : ℕ} (h : q ≠ p) : (releasePage s p).page q = s.page q := by
  simp only [releasePage, State.setPage]
  split_ifs <;> simp [clearSlobPageFree, State.setPage, h]

theorem releasePage_slab (s : State) (p : ℕ) : ((releasePage s p).page p).slab = false := by
  simp [releasePage, State.setPage]

/-- **The page goes back** to the page allocator when its last block is freed. -/
theorem Rep.releasePage (h : Rep A s live v) (hb : b ∈ live)
    (hlast : (s.page (A.virtToPage b.addr)).units + A.SLOB_UNITS b.size = A.pageUnits) :
    ∃ ls', Rep A (releasePage s (A.virtToPage b.addr)) (live.erase b)
      { v with held := v.held.erase (A.virtToPage b.addr), ls := ls' } := by
  obtain ⟨ls', hrings, hls⟩ := h.unlinkPage (h.liveOK b hb).held
  refine ⟨ls', ?_, ?_, hrings, ?_, ?_, ?_⟩
  · intro q
    by_cases e : q = A.virtToPage b.addr
    · subst e; simp [releasePage_slab]
    · simp [e, releasePage_page_ne e, h.held]
  · intro q hq
    exact h.frame q (Finset.mem_of_mem_erase hq)
  · intro c q
    rw [hls, h.onList]
    by_cases e : q = A.virtToPage b.addr
    · subst e; simp
    · simp [e, releasePage_page_ne e]
  · intro q hq
    obtain ⟨e, hq⟩ := Finset.mem_erase.mp hq
    refine (h.pageOK q hq).congr ?_ (releasePage_page_ne e) ?_
    · intro _ _ a _
      rw [releasePage_mem]
    · intro a ha
      exact h.cover_erase_off hb (by rw [ha]; exact e)
  · intro y hy
    obtain ⟨h₁, h₂, h₃, h₄, h₅⟩ := h.liveOK_erase hy
    exact ⟨Finset.mem_erase.mpr ⟨h.virtToPage_ne_of_last hb hlast hy, h₁⟩, h₂, h₃, h₄, h₅⟩

/-- **A full page** becomes partially free: the block is its free list. -/
theorem Rep.refilePage (h : Rep A s live v) (hb : b ∈ live)
    (hfull : (s.page (A.virtToPage b.addr)).slobFree = false) :
    Rep A (refilePage A s (A.virtToPage b.addr) b.addr b.size) (live.erase b)
      (v.put (A.virtToPage b.addr) (slobList b.size) [b.span A]
        (A.virtToPage b.addr :: v.ls (slobList b.size))) := by
  have hlive := h.liveOK b hb
  have hok := h.pageOK _ hlive.held
  have hw := hlive.within
  set p := A.virtToPage b.addr with hp
  have hnone : (s.page p).units = 0 := by
    by_contra e
    rw [hok.flag.mpr (Nat.pos_of_ne_zero e)] at hfull
    cases hfull
  have hfree : v.free p = [] := by
    by_contra e
    have := hok.free_ne_nil.mp e
    omega
  have hoff : ∀ d, p ∉ v.ls d := by
    intro d hd
    have := ((h.onList d p).mp hd).2.2
    omega
  have hnext : A.base (b.addr + A.pageUnits) = A.pageEnd p := by
    have hloc : A.pageAddress p ≤ b.addr ∧ b.addr < A.pageEnd p := mem_page b.addr
    have hsucc : A.pageAddress (p + 1) = A.pageEnd p := Nat.succ_mul p A.pageUnits
    have hend : A.pageEnd p = A.pageAddress p + A.pageUnits := rfl
    rw [← hsucc]
    exact A.base_eq (by omega) (by omega)
  refine h.filePage hoff (h.frame p hlive.held) hw ?_ (Function.update_idem ..) ⟨?_, rfl, ?_, ?_⟩
    (h.rings.add _ hoff) (fun a ha => h.cover_erase_off hb ha) ?_ ?_
  · rw [← hnext]
    rfl
  · simpa [State.setPage] using (h.held p).mp hlive.held
  · simp [State.setPage, Live.span]
  · simp [State.setPage, Live.span]
  · intro a ha ha'
    have htile := hok.tiles a ha ha'
    rw [hfree, cover_erase hb] at htile
    simp only [cover_cons, cover_nil] at htile ⊢
    omega
  · intro y hy
    exact (h.liveOK_erase hy).put _ _ fun _ => hlive.cls.symm

/-- **The block joins** the free list of its page. -/
theorem Rep.rejoinBlock (h : Rep A s live v) (hb : b ∈ live)
    (hpart : (s.page (A.virtToPage b.addr)).slobFree = true) :
    ∃ s' free, rejoinBlock A s (A.virtToPage b.addr) b.addr (A.SLOB_UNITS b.size) = some s' ∧
      Rep A s' (live.erase b) (v.put (A.virtToPage b.addr) (slobList b.size) free
        (v.ls (slobList b.size))) ∧ s'.pages = s.pages := by
  have hlive := h.liveOK b hb
  have hok := h.pageOK _ hlive.held
  have hpos := hok.flag.mp hpart
  set p := A.virtToPage b.addr with hp
  obtain ⟨m', fl', free, hins, hon, hap, hcov, hag⟩ := hok.onPage.insertBlock hok.apart
    (hok.free_ne_nil.mpr hpos) hlive.within fun a ha => hok.cover_free_eq_zero hlive hb ha
  have htotal : total free = (s.page p).units + A.SLOB_UNITS b.size := by
    rw [← sum_cover hon.within, Finset.sum_congr rfl fun a _ => hcov a,
      sum_cover (within_cons.mpr ⟨hlive.within _ (by simp [Live.span]), hok.onPage.within⟩),
      hok.units, total_cons, Nat.add_comm]
  refine ⟨{ s with mem := m' }.setPage p
    { s.page p with units := (s.page p).units + A.SLOB_UNITS b.size, freelist := fl' }, free, ?_,
    h.put ?_ ?_ ?_ (h.frame p hlive.held) ?_ ?_ ?_ ?_ ?_ ?_, rfl⟩
  · simp only [Slob.rejoinBlock]
    rw [hins]
  · intro a ha
    refine hag a fun y hy hya => ha ?_
    rcases List.mem_cons.mp hy with rfl | hy
    · exact hlive.page_of_has hya
    · exact virtToPage_of_within hok.onPage.within hy hya
  · intro q hq
    simp [State.setPage, hq]
  · simpa [State.setPage] using (h.held p).mp hlive.held
  · rw [Function.update_eq_self]
    exact h.rings
  · intro d hd hpd
    exact hd (((h.onList d p).mp hpd).2.1.symm.trans hlive.cls.symm)
  · intro q
    simp only [State.setPage, Function.update_self]
    by_cases e : q = p
    · subst e
      have hmem := (h.onList _ p).mpr ⟨hlive.held, hlive.cls.symm, hpos⟩
      simp [hmem, hpos]
    · simp [e]
  · intro a ha
    exact h.cover_erase_off hb ha
  · refine ⟨?_, hap, ?_, ?_, ?_⟩
    · simpa [State.setPage] using hon
    · simpa [State.setPage] using htotal.symm
    · simp only [State.setPage, Function.update_self, hpart, true_iff]
      omega
    · intro a ha ha'
      have htile := hok.tiles a ha ha'
      rw [cover_erase hb] at htile
      rw [hcov, cover_cons]
      unfold Live.span at htile
      omega
  · intro y hy
    exact (h.liveOK_erase hy).put _ _ fun _ => hlive.cls.symm

/-! ## `slob_free` -/

/-- **`slob_free` up to `pages--`** leaves the heap of the other blocks. -/
theorem Rep.lockedFree (h : Rep A s live v) (hb : b ∈ live) :
    ∃ s' back v', lockedFree A s b.addr b.size = some (s', back) ∧ Rep A s' (live.erase b) v' ∧
      s'.pages = s.pages ∧ A.virtToPage b.addr ∈ v.held ∧
      v'.held = if back then v.held.erase (A.virtToPage b.addr) else v.held := by
  have hlive := h.liveOK b hb
  have hheld : ∀ c free l, (v.put (A.virtToPage b.addr) c free l).held = v.held := by
    intro c free l
    exact Finset.insert_eq_self.mpr hlive.held
  simp only [Slob.lockedFree, h.zeroOrNullPtr_eq hb, Nat.pos_iff_ne_zero.mp hlive.pos, if_false,
    Bool.false_eq_true]
  by_cases hlast : (s.page (A.virtToPage b.addr)).units + A.SLOB_UNITS b.size = A.pageUnits
  · obtain ⟨ls', hrep⟩ := h.releasePage hb hlast
    rw [if_pos hlast]
    exact ⟨_, true, _, rfl, hrep, releasePage_pages s _, hlive.held, rfl⟩
  rw [if_neg hlast]
  by_cases hf : (s.page (A.virtToPage b.addr)).slobFree = true
  · obtain ⟨s', free, hs', hrep, hpages⟩ := h.rejoinBlock hb hf
    rw [hf, hs']
    exact ⟨s', false, _, rfl, hrep, hpages, hlive.held, hheld _ _ _⟩
  · rw [Bool.not_eq_true] at hf
    rw [hf]
    exact ⟨_, false, _, rfl, h.refilePage hb hf, rfl, hlive.held, hheld _ _ _⟩

/-- **`slob_free`** of a live block returns, and leaves the heap of the other blocks. The counter
goes down exactly when the page is given back. -/
theorem Rep.slobFree (h : Rep A s live v) (hb : b ∈ live) :
    ∃ s' v', slobFree A s b.addr b.size = some s' ∧ Rep A s' (live.erase b) v' ∧
      (v'.held = v.held ∧ s'.pages = s.pages ∨
        A.virtToPage b.addr ∈ v.held ∧ v'.held = v.held.erase (A.virtToPage b.addr) ∧
          s'.pages = (s.pages + 2 ^ A.wordBits - 1) % 2 ^ A.wordBits) := by
  obtain ⟨s', back, v', hfree, hrep, hpages, hp, hheld⟩ := h.lockedFree hb
  rw [Slob.slobFree, hfree]
  cases back with
  | true => exact ⟨_, v', rfl, hrep.setPages _, .inr ⟨hp, hheld, by rw [← hpages]; rfl⟩⟩
  | false => exact ⟨s', v', rfl, hrep, .inl ⟨hheld, hpages⟩⟩

end Cs444.Slob
