import Cs444.Slob.WellFormed

/-!
# The two system calls count right

`sys_slob_units_used` is `SLOB_UNITS(PAGE_SIZE) * pages` less the units of the pages on the three
lists, all in `unsigned long`. In every reachable state (`accounting_of_reachable`) it is the number
of units of the live blocks, `sys_slob_units_free` is the number of units of slab pages that no live
block covers, and `pages` is the number of slab pages.
-/

namespace Cs444.Slob

variable {A : Arch} {s : State} {live : List Live} {v : View}

/-! ## The sums over the lists -/

/-- `total += x` in `unsigned long` adds modulo the word. -/
theorem foldl_add_mod (M : ℕ) (f : ℕ → ℕ) (l : List ℕ) (t : ℕ) (ht : t < M) :
    l.foldl (fun t p => (t + f p) % M) t = (t + (l.map f).sum) % M := by
  induction l generalizing t with
  | nil => simp [Nat.mod_eq_of_lt ht]
  | cons p l ih =>
    rw [List.foldl_cons, ih _ (Nat.mod_lt _ (by omega)), Nat.mod_add_mod, List.map_cons,
      List.sum_cons, Nat.add_assoc]

/-- The pages on the list of class `c` have the free units of the pages of that class. -/
theorem Rep.sum_ls (h : Rep A s live v) (c : SizeClass) :
    ((v.ls c).map fun p => (s.page p).units).sum =
      ∑ p ∈ v.held, if v.cls p = c then (s.page p).units else 0 := by
  have hset : (v.ls c).toFinset =
      v.held.filter fun p => v.cls p = c ∧ 0 < (s.page p).units := by
    ext p
    rw [List.mem_toFinset, Finset.mem_filter]
    exact h.onList c p
  rw [← List.sum_toFinset _ (h.nodup_ls c), hset, Finset.sum_filter]
  refine Finset.sum_congr rfl fun p _ => ?_
  by_cases hc : v.cls p = c
  · by_cases hu : 0 < (s.page p).units
    · simp [hc, hu]
    · simp [hc, Nat.eq_zero_of_not_pos hu]
  · simp [hc]

/-- The lists together have the free units of all pages. -/
theorem Rep.sum_lists (h : Rep A s live v) :
    ((v.ls .small).map fun p => (s.page p).units).sum +
        ((v.ls .medium).map fun p => (s.page p).units).sum +
        ((v.ls .large).map fun p => (s.page p).units).sum =
      ∑ p ∈ v.held, (s.page p).units := by
  rw [h.sum_ls, h.sum_ls, h.sum_ls, ← Finset.sum_add_distrib, ← Finset.sum_add_distrib]
  refine Finset.sum_congr rfl fun p _ => ?_
  cases v.cls p <;> simp

theorem Rep.freeUnits_eq (h : Rep A s live v) :
    freeUnits A s = (∑ p ∈ v.held, (s.page p).units) % 2 ^ A.wordBits := by
  have hM : 0 < 2 ^ A.wordBits := Nat.two_pow_pos _
  unfold freeUnits sumUnits
  rw [h.pageList_eq, h.pageList_eq, h.pageList_eq, foldl_add_mod _ _ _ 0 hM,
    foldl_add_mod _ _ _ _ (Nat.mod_lt _ hM), foldl_add_mod _ _ _ _ (Nat.mod_lt _ hM),
    Nat.mod_add_mod, Nat.add_assoc, Nat.mod_add_mod, ← h.sum_lists, Nat.zero_add, Nat.add_assoc]

/-! ## Live and free units -/

/-- The live blocks cover their units, each on its page. -/
theorem sum_cover_live (hlive : ∀ b ∈ live, LiveOK A v b) :
    ∑ p ∈ v.held, ∑ a ∈ Finset.Ico (A.pageAddress p) (A.pageEnd p), cover (spans A live) a =
      (live.map fun b => A.SLOB_UNITS b.size).sum := by
  induction live with
  | nil => simp [spans]
  | cons b live ih =>
    have hb := hlive b (by simp)
    have hrest := ih fun c hc => hlive c (List.mem_cons_of_mem _ hc)
    have hone : ∑ p ∈ v.held, ∑ a ∈ Finset.Ico (A.pageAddress p) (A.pageEnd p),
        (if (b.span A).Has a then 1 else 0) = A.SLOB_UNITS b.size := by
      rw [Finset.sum_eq_single (A.virtToPage b.addr)]
      · have := sum_cover hb.within
        simp only [cover_cons, cover_nil, Nat.add_zero, total_cons, total_nil] at this
        exact this
      · intro p _ hp
        refine Finset.sum_eq_zero fun a ha => if_neg fun hba => hp ?_
        obtain ⟨h₁, h₂⟩ := Finset.mem_Ico.mp ha
        rw [← hb.page_of_has hba]
        exact (A.virtToPage_eq h₁ h₂).symm
      · exact fun hn => absurd hb.held hn
    simp only [spans_cons, cover_cons, Finset.sum_add_distrib, List.map_cons, List.sum_cons]
    rw [hone, hrest]

/-- Free and live units make up the pages. -/
theorem Rep.units_add_live (h : Rep A s live v) :
    ∑ p ∈ v.held, (s.page p).units + (live.map fun b => A.SLOB_UNITS b.size).sum =
      A.pageUnits * v.held.card := by
  rw [← sum_cover_live h.liveOK, ← Finset.sum_add_distrib, Finset.sum_const_nat (m := A.pageUnits),
    Nat.mul_comm]
  intro p hp
  rw [(h.pageOK p hp).units]
  exact (h.pageOK p hp).total_add

/-- All units together fit in a `long`. -/
theorem Rep.pageUnits_mul_card_lt (h : Rep A s live v) :
    2 * (A.pageUnits * v.held.card) < 2 ^ A.wordBits := by
  have hcard := h.card_held_le
  have hword : 2 ^ A.wordBits = A.pageUnits * A.SLOB_UNIT * (A.maxPfn + 1) := by
    have hpos : 0 < 2 ^ (A.wordBits - A.pageShift) := Nat.two_pow_pos _
    rw [A.pageUnits_mul]
    unfold Arch.maxPfn Arch.PAGE_SIZE
    rw [Nat.sub_add_cancel hpos, ← pow_add, Nat.add_sub_cancel' (Nat.le_of_lt A.lt_word)]
  have hunit : 2 ≤ A.SLOB_UNIT := by rcases A.slobUnit_cases with h | h <;> omega
  have hpos := A.pageUnits_pos
  calc 2 * (A.pageUnits * v.held.card) = A.pageUnits * 2 * v.held.card := by ring
    _ ≤ A.pageUnits * A.SLOB_UNIT * A.maxPfn := by gcongr
    _ < A.pageUnits * A.SLOB_UNIT * (A.maxPfn + 1) := by
      have : 0 < A.pageUnits * A.SLOB_UNIT := Nat.mul_pos hpos (by omega)
      exact Nat.mul_lt_mul_of_pos_left (Nat.lt_succ_self _) this
    _ = 2 ^ A.wordBits := hword.symm

/-- The units of slab pages that no live block covers. -/
def freeSet (A : Arch) (s : State) (live : List Live) : Set ℕ :=
  {a | (s.page (A.virtToPage a)).slab = true ∧ cover (spans A live) a = 0}

/-- The slab pages. -/
def slabPages (s : State) : Set ℕ := {p | (s.page p).slab = true}

theorem Rep.slabPages_eq (h : Rep A s live v) : slabPages s = v.held := by
  ext p
  exact (h.held p).symm

theorem Rep.freeSet_eq (h : Rep A s live v) :
    freeSet A s live = (v.held.biUnion fun p =>
      (Finset.Ico (A.pageAddress p) (A.pageEnd p)).filter fun a => cover (spans A live) a = 0) := by
  ext a
  simp only [freeSet, Set.mem_ofPred_eq, ← h.held, Finset.coe_biUnion, Finset.coe_filter,
    Finset.mem_Ico, Set.mem_iUnion, Finset.mem_coe, exists_prop]
  constructor
  · rintro ⟨hp, ha⟩
    exact ⟨_, hp, mem_page a, ha⟩
  · rintro ⟨p, hp, ⟨h₁, h₂⟩, ha⟩
    rw [A.virtToPage_eq h₁ h₂]
    exact ⟨hp, ha⟩

/-- The free units of a page are the units no live block covers. -/
theorem PageOK.card_free {p : ℕ} {free : List Span} (h : PageOK A s live p free) :
    ((Finset.Ico (A.pageAddress p) (A.pageEnd p)).filter
      fun a => cover (spans A live) a = 0).card = (s.page p).units := by
  rw [h.units, ← sum_cover h.onPage.within, Finset.card_filter]
  refine Finset.sum_congr rfl fun a ha => ?_
  obtain ⟨h₁, h₂⟩ := Finset.mem_Ico.mp ha
  have := h.tiles a h₁ h₂
  split_ifs <;> omega

theorem Rep.ncard_freeSet (h : Rep A s live v) :
    (freeSet A s live).ncard = ∑ p ∈ v.held, (s.page p).units := by
  rw [h.freeSet_eq, Set.ncard_coe_finset, Finset.card_biUnion]
  · exact Finset.sum_congr rfl fun p hp => (h.pageOK p hp).card_free
  · intro p _ q _ hpq
    refine Finset.disjoint_left.mpr fun a ha hb => hpq ?_
    obtain ⟨h₁, h₂⟩ := Finset.mem_Ico.mp (Finset.mem_filter.mp ha).1
    obtain ⟨h₃, h₄⟩ := Finset.mem_Ico.mp (Finset.mem_filter.mp hb).1
    rw [← A.virtToPage_eq h₁ h₂, A.virtToPage_eq h₃ h₄]

/-! ## The system calls -/

theorem toLong_eq {n : ℕ} (hn : 2 * n < 2 ^ A.wordBits) : A.toLong n = n := by
  have hn' : 2 * (n : ℤ) < (2 ^ A.wordBits : ℕ) := by exact_mod_cast hn
  unfold Arch.toLong
  apply Int.bmod_eq_of_le <;> omega

/-- **Accounting.** In every reachable state the system calls and `pages` count live units, free
units and slab pages, and a call that returns `NULL` changes nothing. -/
theorem accounting_of_reachable {y : Sys} (h : Reachable A y) :
    sysSlobUnitsUsed A y.st = ((y.live.map fun b => A.SLOB_UNITS b.size).sum : ℕ) ∧
      ((freeSet A y.st y.live).Finite ∧
        sysSlobUnitsFree A y.st = ((freeSet A y.st y.live).ncard : ℕ)) ∧
      ((slabPages y.st).Finite ∧ y.st.pages = (slabPages y.st).ncard) ∧
      ∀ size gfp align node src s', Legal A y (.alloc size gfp align node src) →
        slobAlloc A y.st size gfp align node src = some (s', none) → s' = y.st := by
  obtain ⟨v, hrep, hpages⟩ := reachable_inv h
  have hbound := hrep.pageUnits_mul_card_lt
  have hsum := hrep.units_add_live
  have hfree : freeUnits A y.st = ∑ p ∈ v.held, (y.st.page p).units := by
    rw [hrep.freeUnits_eq]
    exact Nat.mod_eq_of_lt (by omega)
  refine ⟨?_, ⟨?_, ?_⟩, ⟨?_, ?_⟩, ?_⟩
  · unfold sysSlobUnitsUsed
    have hused : ((A.SLOB_UNITS A.PAGE_SIZE * y.st.pages : ℕ) : ℤ) - (freeUnits A y.st : ℤ) =
        ((y.live.map fun b => A.SLOB_UNITS b.size).sum : ℕ) := by
      rw [hfree, hpages]
      change ((A.pageUnits * v.held.card : ℕ) : ℤ) - _ = _
      omega
    rw [hused]
    exact toLong_eq (by omega)
  · rw [hrep.freeSet_eq]
    exact Finset.finite_toSet _
  · unfold sysSlobUnitsFree
    rw [hrep.ncard_freeSet, hfree]
    exact toLong_eq (by omega)
  · rw [hrep.slabPages_eq]
    exact v.held.finite_toSet
  · rw [hrep.slabPages_eq, Set.ncard_coe_finset]
    exact hpages
  · rintro size gfp align node src s' ⟨hpos, hlt, hfresh⟩ hnull
    rcases hrep.slobAlloc_cases hpos hlt hfresh hnull with ⟨-, hs⟩ | ⟨p, addr, v', hr, -⟩
    · exact hs
    · cases hr

theorem accounting_sampleRun :
    (runCalls (i386 false) ⟨boot, []⟩ sampleRun).map (fun y => sysSlobUnitsUsed (i386 false) y.st) =
        some 4 ∧
      ∀ y ∈ runCalls (i386 false) ⟨boot, []⟩ sampleRun, y.st.pages = (slabPages y.st).ncard :=
  ⟨by decide +kernel, fun _ hy =>
    (accounting_of_reachable (reachable_boot.runCalls hy)).2.2.1.2⟩

end Cs444.Slob
