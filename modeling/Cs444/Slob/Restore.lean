import Cs444.Slob.FreeOrder

/-!
# Freeing restores the heap

The live blocks determine the heap (`SameHeap.of_perm`), so what a run has allocated and freed again
leaves no trace in it. `alloc_free_restores`: `slob_free` undoes the `slob_alloc` before it, also when
that took a new page. `freeAll_live`: when all blocks are freed, in any order, every page has gone back
to the page allocator and the system calls read `0`.
-/

namespace Cs444.Slob

variable {A : Arch} {y y' : Sys} {s s' : State} {live : List Live} {v : View}

/-- A call after a run. -/
theorem Reachable.call (h : Reachable A y) {c : Call} (hlegal : Legal A y c)
    (he : exec A y c = some y') : Reachable A y' := by
  obtain ⟨s₀, hinit, hrun⟩ := h
  exact ⟨s₀, hinit, hrun.tail (.call c hlegal he)⟩

/-- **`slob_free` undoes `slob_alloc`**: the slab pages, their free blocks, the lists and the counter are
what they were. -/
theorem alloc_free_restores (h : Reachable A y) {size align b : ℕ} {gfp : Gfp} {node : Option ℕ}
    {src : PageSource} (hlegal : Legal A y (.alloc size gfp align node src))
    (he : slobAlloc A y.st size gfp align node src = some (s, some b)) :
    ∃ s', slobFree A s b size = some s' ∧ SameHeap A y.st s' := by
  have hreach : Reachable A ⟨s, ⟨b, size⟩ :: y.live⟩ := by
    refine h.call hlegal ?_
    simp only [exec, he]
    rfl
  obtain ⟨v, hrep, -⟩ := reachable_inv hreach
  have hmem : (⟨b, size⟩ : Live) ∈ (⟨b, size⟩ :: y.live : List Live) := List.mem_cons_self ..
  obtain ⟨s', -, hfree, -⟩ := hrep.slobFree hmem
  have hback : Reachable A ⟨s', y.live⟩ := by
    refine @Reachable.call A _ _ hreach (.free ⟨b, size⟩) hmem ?_
    simp only [exec, hfree]
    rw [Option.map_some, List.erase_cons_head]
  exact ⟨s', hfree, SameHeap.of_perm h hback (.refl _)⟩

/-- A block of 1030 bytes, aligned to 64, is split off the page 1 and freed. -/
theorem alloc_free_restores_split : ∃ y s b s', Reachable (i386 false) y ∧
    pageList (i386 false) y.st (slobList 1030) = [1] ∧
      slobAlloc (i386 false) y.st 1030 ⟨true⟩ 64 none ⟨none, fun _ => none⟩ = some (s, some b) ∧
      (i386 false).virtToPage b = 1 ∧
      slobFree (i386 false) s b 1030 = some s' ∧ SameHeap (i386 false) y.st s' := by
  obtain ⟨y, hy, hP⟩ := exists_reachable (i386 false) [.alloc 1200 ⟨false⟩ 0 none ⟨some 1, fun _ => none⟩]
    (fun y => decide (pageList (i386 false) y.st (slobList 1030) = [1] ∧
      Legal (i386 false) y (.alloc 1030 ⟨true⟩ 64 none ⟨none, fun _ => none⟩) ∧
      (slobAlloc (i386 false) y.st 1030 ⟨true⟩ 64 none ⟨none, fun _ => none⟩).any
        fun r => r.2.any fun b => (i386 false).virtToPage b = 1)) (by decide +kernel)
  obtain ⟨hl, hlegal, halloc⟩ := of_decide_eq_true hP
  obtain ⟨⟨s, r⟩, he, hr⟩ := (Option.any_eq_true _ _).mp halloc
  obtain ⟨b, rfl, hpage⟩ := (Option.any_eq_true _ _).mp hr
  obtain ⟨s', hfree, hsame⟩ := alloc_free_restores hy hlegal he
  exact ⟨y, s, b, s', hy, hl, he, of_decide_eq_true hpage, hfree, hsame⟩

/-! ## No leak -/

/-- Live blocks do not repeat. -/
theorem Rep.live_nodup (h : Rep A s live v) : live.Nodup := by
  refine (List.pairwise_map.mp h.wellFormed.disjoint).imp_of_mem ?_
  rintro b _ hb - hdisj rfl
  have hself : (b.span A).Has b.addr :=
    ⟨le_rfl, Nat.lt_add_of_pos_right (A.units_pos (h.liveOK b hb).pos)⟩
  exact hdisj b.addr ⟨hself, hself⟩

theorem diff_self (l : List Live) : l.diff l = [] := by
  induction l with
  | nil => rfl
  | cons b l ih => rw [List.diff_cons, List.erase_cons_head, ih]

/-- A heap without live blocks has no page. -/
theorem Rep.held_eq_empty (h : Rep A s [] v) (hocc : Occupied A ⟨s, []⟩) : v.held = ∅ := by
  refine Finset.eq_empty_of_forall_notMem fun p hp => ?_
  obtain ⟨b, hb, -⟩ := hocc p ((h.held p).mp hp)
  cases hb

/-- Without live blocks all pages have gone back. -/
theorem Reachable.empty (h : Reachable A ⟨s, []⟩) :
    (∀ p, (s.page p).slab = false) ∧ (∀ c, pageList A s c = []) ∧ s.pages = 0 := by
  obtain ⟨v, hrep, hpages⟩ := reachable_inv h
  have hheld := hrep.held_eq_empty (occupied_of_reachable h)
  refine ⟨fun p => ?_, fun c => ?_, by rw [hpages, hheld, Finset.card_empty]⟩
  · rw [← Bool.not_eq_true, ← hrep.held, hheld]
    exact Finset.notMem_empty p
  · rw [hrep.pageList_eq]
    refine List.eq_nil_iff_forall_not_mem.mpr fun p hp => ?_
    have := ((hrep.onList c p).mp hp).1
    simp [hheld] at this

/-- **Nothing leaks.** Freeing the live blocks, in any order, gives every page back. -/
theorem freeAll_live (h : Reachable A y) {bs : List Live} (hperm : bs.Perm y.live) :
    ∃ s, freeAll A y.st bs = some s ∧ (∀ p, (s.page p).slab = false) ∧
      (∀ c, pageList A s c = []) ∧ s.pages = 0 ∧ sysSlobUnitsUsed A s = 0 ∧
      sysSlobUnitsFree A s = 0 := by
  obtain ⟨v, hrep, -⟩ := reachable_inv h
  obtain ⟨s, hs, hreach⟩ := h.freeAll (hperm.nodup_iff.mpr hrep.live_nodup) fun b hb =>
    hperm.subset hb
  have hnil : y.live.diff bs = [] := by
    rw [hperm.diff_left]
    exact diff_self y.live
  rw [hnil] at hreach
  obtain ⟨hslab, hlists, hpages⟩ := hreach.empty
  have hunits : freeUnits A s = 0 := by simp [freeUnits, sumUnits, hlists]
  refine ⟨s, hs, hslab, hlists, hpages, ?_, ?_⟩
  · simp [sysSlobUnitsUsed, hunits, hpages, Arch.toLong]
  · simp [sysSlobUnitsFree, hunits, Arch.toLong]

/-- Two blocks on one page, and one on a page of another list. -/
theorem freeAll_live_three : ∃ y, Reachable (i386 false) y ∧ y.live.length = 3 ∧
    ∃ s, freeAll (i386 false) y.st y.live.reverse = some s ∧ (∀ p, (s.page p).slab = false) ∧
      (∀ c, pageList (i386 false) s c = []) ∧ s.pages = 0 ∧ sysSlobUnitsUsed (i386 false) s = 0 ∧
      sysSlobUnitsFree (i386 false) s = 0 := by
  obtain ⟨y, hy, hP⟩ := exists_reachable (i386 false)
    [.alloc 1024 ⟨false⟩ 0 none ⟨some 1, fun _ => none⟩,
      .alloc 100 ⟨false⟩ 0 none ⟨some 2, fun _ => none⟩,
      .alloc 2000 ⟨false⟩ 0 none ⟨none, fun _ => none⟩]
    (fun y => y.live.length = 3) (by decide +kernel)
  exact ⟨y, hy, of_decide_eq_true hP, freeAll_live hy y.live.reverse_perm⟩

end Cs444.Slob
