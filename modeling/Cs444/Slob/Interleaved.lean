import Cs444.Slob.Concurrent
import Cs444.Slob.Contents

/-!
# The heap on several CPUs

What holds in every interleaving of the sections under `slob_lock`, whenever the CPUs make their
`pages++` and `pages--`.

* `interleaved_wellFormed`: the heap is well formed and its pages serve one size class each, and every
  section that a CPU may enter returns; no `BUG_ON` is hit.
* `interleaved_counts`: `sys_slob_units_free` is right at any time, and `sys_slob_units_used` is off by
  the pages whose `pages++` or `pages--` is outstanding.
* `interleaved_contents`: a block keeps its contents while nobody frees it or writes to it.
-/

namespace Cs444.Slob

/-! ## What a step keeps -/

section Step

variable {A : Arch} {cpu cpu' : Cpu} {x : Input} {y y' : Shared} {s s' : State} {live : List Live}
  {v : View} {size align p addr a : ℕ} {node r : Option ℕ} {b : Live}

/-- A CPU that waits for a page has been asked for a size that fits on one. -/
def Cpu.Fits (A : Arch) : Cpu → Prop
  | .newPage size _ _ => 0 < size ∧ size < A.PAGE_SIZE
  | _ => True

/-- A step leads from a heap to a heap, and the counter follows its pages as far as the CPU has counted
them. -/
theorem CpuStep.rep (h : CpuStep A y cpu x cpu' y') (hrep : Rep A y.st y.live v)
    (hlt : y.st.pages < 2 ^ A.wordBits) (hfits : cpu.Fits A) :
    cpu'.Fits A ∧ y'.st.pages < 2 ^ A.wordBits ∧ ∃ v', Rep A y'.st y'.live v' ∧
      y'.st.pages + (cpu'.counting.toNat + cpu.uncounting.toNat + v.held.card) ≡
        y.st.pages + (cpu.counting.toNat + cpu'.uncounting.toNat + v'.held.card)
          [MOD 2 ^ A.wordBits] := by
  have hpos : 0 < 2 ^ A.wordBits := Nat.two_pow_pos _
  cases h with
  | served hpos hlt' hsearch =>
    obtain ⟨hpages, v', hrep', hheld⟩ := hrep.lockedSearch_cases hpos hlt' hsearch
    exact ⟨trivial, hpages ▸ hlt, v', hrep', by rw [hpages, hheld]⟩
  | unserved hpos hlt' hsearch =>
    obtain ⟨hpages, v', hrep', hheld⟩ := hrep.lockedSearch_cases hpos hlt' hsearch
    exact ⟨⟨hpos, hlt'⟩, hpages ▸ hlt, v', hrep', by rw [hpages, hheld]; rfl⟩
  | null => exact ⟨trivial, hlt, v, hrep, .refl _⟩
  | filed hsrc hslab hpfn hall =>
    have hnew := hrep.not_mem_held hslab
    obtain ⟨v', hal, hheld, hpages⟩ := hrep.newPage hfits.1 hfits.2 hnew hpfn hall
    refine ⟨trivial, hpages ▸ hlt, v', hal.rep, ?_⟩
    have hcard : v'.held.card = v.held.card + 1 := by rw [hheld, Finset.card_insert_of_notMem hnew]
    have hone : 1 + 0 + v.held.card = 0 + 0 + v'.held.card := by omega
    rw [hpages]
    exact Nat.ModEq.add_left _ (congrArg (· % _) hone)
  | counted =>
    refine ⟨trivial, Nat.mod_lt _ hpos, v, hrep.setPages _, ?_⟩
    have hone : y.st.pages + (1 + 0 + v.held.card) = y.st.pages + 1 + (0 + 0 + v.held.card) := by omega
    show _ ≡ y.st.pages + (1 + 0 + v.held.card) [MOD _]
    rw [hone]
    exact (Nat.mod_modEq _ _).add_right _
  | @freed b s' back hb hfree =>
    obtain ⟨s₁, back₁, v', hfree', hrep', hpages, hp, hheld⟩ := hrep.lockedFree hb
    rw [hfree'] at hfree
    cases hfree
    cases back with
    | true =>
      refine ⟨trivial, hpages ▸ hlt, v', hrep', ?_⟩
      have hcard : v'.held.card + 1 = v.held.card := by
        rw [hheld]
        exact Finset.card_erase_add_one hp
      have hone : 0 + 0 + v.held.card = 0 + 1 + v'.held.card := by omega
      rw [hpages]
      exact Nat.ModEq.add_left _ (congrArg (· % _) hone)
    | false => exact ⟨trivial, hpages ▸ hlt, v', hrep', by rw [hpages, hheld]; rfl⟩
  | uncounted =>
    refine ⟨trivial, Nat.mod_lt _ hpos, v, hrep.setPages _, ?_⟩
    have hone : y.st.pages + 2 ^ A.wordBits - 1 + (0 + 1 + v.held.card) =
        y.st.pages + (0 + 0 + v.held.card) + 2 ^ A.wordBits := by omega
    refine ((Nat.mod_modEq _ _).add_right (0 + 1 + v.held.card)).trans ?_
    rw [hone]
    exact Nat.add_modEq_right
  | readPages | callFreeUnits => exact ⟨trivial, hlt, v, hrep, .refl _⟩
  | thenFreeUnits | thenPages | returned => exact ⟨trivial, hlt, v, hrep, .refl _⟩
  | outside ho hpages => exact ⟨trivial, hpages ▸ hlt, v, hrep.outside ho, by rw [hpages]⟩

/-! ### What is not written -/

/-- The search writes on free units only. -/
theorem Rep.lockedSearch_mem (h : Rep A s live v) (hpos : 0 < size)
    (hsearch : lockedSearch A s size align node = some (s', r))
    (ha : 0 < cover (spans A live) a) : s'.mem a = s.mem a := by
  rw [h.lockedSearch_eq] at hsearch
  split at hsearch
  next =>
    cases hsearch
    rfl
  next q hs =>
    obtain ⟨hmem, -⟩ := serve_mem hs
    split at hsearch
    next => cases hsearch
    next s₁ addr hall =>
      cases hsearch
      obtain ⟨hheld, -, hunits⟩ := (h.onList _ q).mp hmem
      show s₁.mem a = s.mem a
      rcases h.slobPageAlloc_cases hmem size align with ⟨-, h₁⟩ | ⟨-, -, s₂, addr', h₁⟩
      · rw [hall, Option.some.injEq, Prod.mk.injEq] at h₁
        rw [h₁.1]
      · rw [h₁, Option.some.injEq, Prod.mk.injEq] at hall
        rw [← hall.1]
        exact (h.pageOK q hheld).pageAlloc_mem hunits hpos h₁ fun _ => ha

/-- The section for a new page writes on that page only. -/
theorem Rep.lockedNewPage_mem (h : Rep A s live v) (hpos : 0 < size) (hnew : p ∉ v.held)
    (hpfn : 0 < p ∧ p < A.maxPfn) (hall : lockedNewPage A s p size align = some (s', some addr))
    (ha : 0 < cover (spans A live) a) : s'.mem a = s.mem a := by
  have hadd := h.addPage hnew hpfn (slobList size)
  have hok := hadd.pageOK p (Finset.mem_insert_self ..)
  have hunits : 0 < ((Slob.addPage A s p (slobList size)).page p).units := by
    simp [Slob.addPage, setSlobPageFree, State.setPage, A.pageUnits_pos]
  have hpage : A.virtToPage a ≠ p := by
    rintro rfl
    rw [h.cover_live_eq_zero hnew] at ha
    exact absurd ha (Nat.lt_irrefl 0)
  rw [hok.pageAlloc_mem hunits hpos hall fun e => absurd e hpage, addPage_mem s _ hpage]

/-- The step neither frees the block `b` nor writes to it. -/
def Spares (A : Arch) (b : Live) : Input → Prop
  | .free b' => b' ≠ b
  | .write a _ => ¬ (b.span A).Has a
  | _ => True

theorem idleStep_spares (h : idleStep A x y = some (cpu', y')) (hrep : Rep A y.st y.live v)
    (hx : Spares A b x) (hb : b ∈ y.live) (ha : (b.span A).Has a) :
    b ∈ y'.live ∧ y'.st.mem a = y.st.mem a := by
  cases x with
  | alloc size align node =>
    simp only [idleStep] at h
    split_ifs at h with hsize
    obtain ⟨⟨s', r⟩, hsearch, hq⟩ := Option.map_eq_some_iff.mp h
    have hmem := hrep.lockedSearch_mem hsize.1 hsearch (cover_pos_of_has hb ha)
    cases r with
    | none =>
      cases hq
      exact ⟨hb, hmem⟩
    | some b' =>
      cases hq
      exact ⟨List.mem_cons_of_mem _ hb, hmem⟩
  | free b' =>
    simp only [idleStep] at h
    split_ifs at h with hb'
    obtain ⟨⟨s', back⟩, hfree, hq⟩ := Option.map_eq_some_iff.mp h
    have hmem : b ∈ y.live.erase b' := (List.mem_erase_of_ne (Ne.symm hx)).mpr hb
    cases hq
    exact ⟨hmem, hrep.lockedFree_mem hb'.1 hfree (.inl (cover_pos_of_has hmem ha))⟩
  | write a' u =>
    simp only [idleStep] at h
    split_ifs at h with hw
    cases h
    refine ⟨hb, Function.update_of_ne ?_ _ _⟩
    rintro rfl
    exact hx ha
  | setPage | setLinks =>
    simp only [idleStep] at h
    split_ifs at h with hp
    cases h
    exact ⟨hb, rfl⟩
  | readPages | callFreeUnits =>
    cases h
    exact ⟨hb, rfl⟩
  | newPages | next => cases h

/-- Such a step keeps the block and its contents. -/
theorem cpus_spares {ι : Type*} {i : ι} (h : cpus A i x cpu y = some (cpu', y'))
    (hrep : Rep A y.st y.live v) (hfits : cpu.Fits A) (hx : Spares A b x) (hb : b ∈ y.live)
    (ha : (b.span A).Has a) : b ∈ y'.live ∧ y'.st.mem a = y.st.mem a := by
  cases cpu with
  | idle => exact idleStep_spares h hrep hx hb ha
  | newPage size align node =>
    cases x with
    | newPages src =>
      cases newPageStep_step h with
      | null => exact ⟨hb, rfl⟩
      | filed hsrc hslab hpfn hall =>
        exact ⟨List.mem_cons_of_mem _ hb, hrep.lockedNewPage_mem hfits.1 (hrep.not_mem_held hslab)
          hpfn hall (cover_pos_of_has hb ha)⟩
    | _ => cases h
  | _ =>
    cases h
    exact ⟨hb, rfl⟩

end Step

/-! ## Every interleaving -/

section Runs

variable {A : Arch} {ι : Type*} [Fintype ι] {c c' : Conf ι Cpu Shared} {i : ι}
  {x : Input} {v : View} {s : State} {live : List Live} {b : Live}

/-- The state is a heap, and `pages` counts its pages without the outstanding `pages++` and with the
outstanding `pages--`. -/
structure HeapInv (A : Arch) (c : Conf ι Cpu Shared) (v : View) : Prop where
  rep : Rep A c.sh.st c.sh.live v
  lt : c.sh.st.pages < 2 ^ A.wordBits
  pages : c.sh.st.pages + count (fun _ => Cpu.counting) c.loc ≡
    v.held.card + count (fun _ => Cpu.uncounting) c.loc [MOD 2 ^ A.wordBits]
  fits : ∀ i, (c.loc i).Fits A

theorem heapInv_of_booted (h : Booted c) : ∃ v, HeapInv A c v := by
  obtain ⟨v, hI⟩ := booted_inv (A := A) h
  refine ⟨v, hI.rep, hI.lt, hI.pages, fun i => ?_⟩
  rw [h.1 i]
  trivial

variable [DecidableEq ι]

theorem HeapInv.step (hI : HeapInv A c v) {cpu' : Cpu} {y' : Shared}
    (h : CpuStep A c.sh (c.loc i) x cpu' y') :
    ∃ v', HeapInv A ⟨Function.update c.loc i cpu', y'⟩ v' := by
  obtain ⟨hfits, hlt, v', hrep, hmod⟩ := h.rep hI.rep hI.lt (hI.fits i)
  refine ⟨v', hrep, hlt, ?_, ?_⟩
  · -- the counts of the others cancel
    have h₁ := count_update (fun _ => Cpu.counting) c.loc i cpu'
    have h₂ := count_update (fun _ => Cpu.uncounting) c.loc i cpu'
    simp only at h₁ h₂ ⊢
    apply Nat.ModEq.add_right_cancel' ((c.loc i).counting.toNat + (c.loc i).uncounting.toNat + v.held.card)
    have hleft : y'.st.pages + count (fun _ => Cpu.counting) (Function.update c.loc i cpu') +
          ((c.loc i).counting.toNat + (c.loc i).uncounting.toNat + v.held.card) =
        y'.st.pages + (cpu'.counting.toNat + (c.loc i).uncounting.toNat + v.held.card) +
          count (fun _ => Cpu.counting) c.loc := by omega
    have hright : c.sh.st.pages + ((c.loc i).counting.toNat + cpu'.uncounting.toNat + v'.held.card) +
          count (fun _ => Cpu.counting) c.loc =
        c.sh.st.pages + count (fun _ => Cpu.counting) c.loc +
          ((c.loc i).counting.toNat + cpu'.uncounting.toNat + v'.held.card) := by omega
    have hend : v.held.card + count (fun _ => Cpu.uncounting) c.loc +
          ((c.loc i).counting.toNat + cpu'.uncounting.toNat + v'.held.card) =
        v'.held.card + count (fun _ => Cpu.uncounting) (Function.update c.loc i cpu') +
          ((c.loc i).counting.toNat + (c.loc i).uncounting.toNat + v.held.card) := by omega
    rw [hleft, ← hend]
    refine (hmod.add_right _).trans ?_
    rw [hright]
    exact hI.pages.add_right _
  · exact (Function.forall_update_iff c.loc fun _ l => l.Fits A).mpr ⟨hfits, fun j _ => hI.fits j⟩

theorem heapInv_of_reach (h : Reach (cpus A) Booted anyMove c) : ∃ v, HeapInv A c v := by
  refine h.invariant (I := fun c => ∃ v, HeapInv A c v) (fun _ h => heapInv_of_booted h) ?_
  rintro c i x cpu' y' ⟨v, hI⟩ - hp
  exact hI.step (cpus_step hp)

/-! ### Every section returns -/

/-- What a CPU may be asked for, and what the page allocator may answer. -/
def Asked (A : Arch) (y : Shared) : Cpu → Input → Prop
  | .idle, .alloc size _ _ => 0 < size ∧ size < A.PAGE_SIZE
  | .idle, .free b => b ∈ y.live ∧ b ∉ y.unreturned
  | .idle, .readPages => True
  | .idle, .callFreeUnits => True
  | .idle, _ => False
  | .newPage _ align node, .newPages src => Aligning A align ∧ Fresh A y.st src node
  | .newPage _ _ _, _ => False
  | _, _ => True

/-- The search comes to an end. -/
theorem Rep.lockedSearch_returns (h : Rep A s live v) (size align : ℕ) (node : Option ℕ) :
    ∃ q, lockedSearch A s size align node = some q := by
  rw [h.lockedSearch_eq]
  cases hs : servedPage A s size align node (v.ls (slobList size)) with
  | none => exact ⟨_, rfl⟩
  | some p =>
    dsimp only
    obtain ⟨hmem, -⟩ := serve_mem hs
    rcases h.slobPageAlloc_cases hmem size align with ⟨-, hall⟩ | ⟨-, -, s₁, addr, hall⟩
    · rw [hall]
      exact ⟨_, rfl⟩
    · rw [hall]
      exact ⟨_, rfl⟩

theorem HeapInv.returns (hI : HeapInv A c v) (hx : Asked A c.sh (c.loc i) x) :
    ∃ c', c.move (cpus A) i x = some c' := by
  suffices h : ∃ q, cpus A i x (c.loc i) c.sh = some q by
    obtain ⟨q, hq⟩ := h
    exact ⟨_, Conf.move_eq_some_iff.mpr ⟨q.1, q.2, hq, rfl⟩⟩
  have hfits := hI.fits i
  generalize c.loc i = cpu at hx hfits ⊢
  cases cpu with
  | idle =>
    cases x with
    | alloc size align node =>
      obtain ⟨q, hq⟩ := hI.rep.lockedSearch_returns size align node
      show ∃ q, idleStep A (.alloc size align node) c.sh = some q
      simp only [idleStep]
      rw [if_pos ⟨hx.1, hx.2⟩, hq]
      exact ⟨_, rfl⟩
    | free b =>
      obtain ⟨s', back, -, hfree, -⟩ := hI.rep.lockedFree hx.1
      show ∃ q, idleStep A (.free b) c.sh = some q
      simp only [idleStep]
      rw [if_pos ⟨hx.1, hx.2⟩, hfree]
      exact ⟨_, rfl⟩
    | readPages | callFreeUnits => exact ⟨_, rfl⟩
    | _ => exact absurd hx id
  | newPage size align node =>
    cases x with
    | newPages src =>
      obtain ⟨halign, hfresh⟩ := hx
      show ∃ q, newPageStep A size align node src c.sh = some q
      unfold newPageStep
      cases hsrc : slobNewPages A src node with
      | none => exact ⟨_, rfl⟩
      | some p =>
        obtain ⟨hslab, hpfn⟩ := hfresh p hsrc
        obtain ⟨s', b, hall⟩ :=
          hI.rep.lockedNewPage_returns hfits.2 halign (hI.rep.not_mem_held hslab) hpfn
        dsimp only
        rw [if_pos ⟨hslab, hpfn⟩, hall]
        exact ⟨_, rfl⟩
    | _ => exact absurd hx id
  | _ => exact ⟨_, rfl⟩

/-- **The heap on several CPUs.** In every interleaving the heap is well formed, a slab page serves one
size class and is on no other list, and what a CPU is asked for returns. -/
theorem interleaved_wellFormed (h : Reach (cpus A) Booted anyMove c) :
    WellFormed A c.sh.st c.sh.live ∧
      (∀ p, (c.sh.st.page p).slab = true → ∃ k : SizeClass,
        (∀ b ∈ c.sh.live, A.virtToPage b.addr = p → k.Holds b.size) ∧
          ∀ d, p ∈ pageList A c.sh.st d → d = k) ∧
      ∀ i x, Asked A c.sh (c.loc i) x → ∃ c', c.move (cpus A) i x = some c' := by
  obtain ⟨v, hI⟩ := heapInv_of_reach h
  exact ⟨hI.rep.wellFormed, fun p _ => hI.rep.segregated p, fun _ _ hx => hI.returns hx⟩

/-- Two CPUs find the lists empty, and each files a page of its own. -/
def twoPages {ι : Type} (i j : ι) : List (ι × Input) :=
  [(i, .alloc 100 0 none), (j, .alloc 100 0 none), (i, .newPages (frame 1)), (j, .newPages (frame 2))]

theorem interleaved_wellFormed_twoPages : ∃ c : Conf (Fin 2) Cpu Shared,
    Reach (cpus (i386 false)) Booted anyMove c ∧ c.sh.live = [⟨4096, 100⟩, ⟨2048, 100⟩] ∧
      WellFormed (i386 false) c.sh.st c.sh.live := by
  obtain ⟨c, hc, hP⟩ := @exists_reach _ _ _ _ _ (cpus (i386 false)) Booted anyMove (bootConf 2) _
    (booted_bootConf 2) (twoPages 0 1) (fun c => c.sh.live = [⟨4096, 100⟩, ⟨2048, 100⟩]) (by decide +kernel)
  rw [decide_eq_true_eq] at hP
  exact ⟨c, hc, hP, (interleaved_wellFormed hc).1⟩

/-! ### The system calls -/

theorem toLong_congr {m n : ℤ} (h : ((2 ^ A.wordBits : ℕ) : ℤ) ∣ m - n) : A.toLong m = A.toLong n := by
  unfold Arch.toLong
  rw [← Int.emod_bmod, Int.emod_eq_emod_iff_emod_sub_eq_zero.mpr (Int.emod_eq_zero_of_dvd h),
    Int.emod_bmod]

/-- **The system calls on several CPUs.** In every interleaving `sys_slob_units_free` is the number of
free units, and `sys_slob_units_used` the number of live units, less those of the pages whose `pages++`
is outstanding and more those of the pages whose `pages--` is. -/
theorem interleaved_counts (h : Reach (cpus A) Booted anyMove c) :
    sysSlobUnitsFree A c.sh.st = ((freeSet A c.sh.st c.sh.live).ncard : ℕ) ∧
      sysSlobUnitsUsed A c.sh.st = A.toLong (((c.sh.live.map fun b => A.SLOB_UNITS b.size).sum : ℕ) +
        (A.SLOB_UNITS A.PAGE_SIZE : ℕ) * ((count (fun _ => Cpu.uncounting) c.loc : ℤ) -
          count (fun _ => Cpu.counting) c.loc)) ∧
      (count (fun _ => Cpu.counting) c.loc = 0 → count (fun _ => Cpu.uncounting) c.loc = 0 →
        c.sh.st.pages = (slabPages c.sh.st).ncard ∧
        sysSlobUnitsUsed A c.sh.st = ((c.sh.live.map fun b => A.SLOB_UNITS b.size).sum : ℕ)) := by
  obtain ⟨v, hI⟩ := heapInv_of_reach h
  have hbound := hI.rep.pageUnits_mul_card_lt
  have hsum := hI.rep.units_add_live
  have hfree : freeUnits A c.sh.st = ∑ p ∈ v.held, (c.sh.st.page p).units := by
    rw [hI.rep.freeUnits_eq]
    exact Nat.mod_eq_of_lt (by omega)
  have hused : sysSlobUnitsUsed A c.sh.st =
      A.toLong (((c.sh.live.map fun b => A.SLOB_UNITS b.size).sum : ℕ) +
        (A.SLOB_UNITS A.PAGE_SIZE : ℕ) * ((count (fun _ => Cpu.uncounting) c.loc : ℤ) -
          count (fun _ => Cpu.counting) c.loc)) := by
    apply toLong_congr
    obtain ⟨d, hd⟩ := hI.pages.symm.dvd
    refine ⟨A.pageUnits * d, ?_⟩
    have hsum' : (freeUnits A c.sh.st : ℤ) + ((c.sh.live.map fun b => A.SLOB_UNITS b.size).sum : ℕ) =
        A.pageUnits * v.held.card := by
      rw [hfree]
      exact_mod_cast hsum
    push_cast at hd hsum' ⊢
    show (A.pageUnits : ℤ) * _ - _ - (_ + (A.pageUnits : ℤ) * _) = _
    linear_combination A.pageUnits * hd - hsum'
  refine ⟨?_, hused, fun hcount huncount => ⟨?_, ?_⟩⟩
  · unfold sysSlobUnitsFree
    rw [hI.rep.ncard_freeSet, hfree]
    exact toLong_eq (by omega)
  · have hmod := hI.pages
    rw [hcount, huncount] at hmod
    rw [hI.rep.slabPages_eq, Set.ncard_coe_finset]
    exact hmod.eq_of_lt_of_lt hI.lt hI.rep.card_held_lt
  · rw [hused, hcount, huncount, sub_self, mul_zero, add_zero]
    exact toLong_eq (by omega)

/-- Both `pages++` are outstanding. -/
theorem interleaved_counts_twoPages : ∃ c : Conf (Fin 2) Cpu Shared,
    Reach (cpus (i386 false)) Booted anyMove c ∧ count (fun _ => Cpu.counting) c.loc = 2 ∧
      sysSlobUnitsUsed (i386 false) c.sh.st = 2 * 50 - 2 * 2048 := by
  obtain ⟨c, hc, hP⟩ := @exists_reach _ _ _ _ _ (cpus (i386 false)) Booted anyMove (bootConf 2) _
    (booted_bootConf 2) (twoPages 0 1) (fun c => c.sh.live = [⟨4096, 100⟩, ⟨2048, 100⟩] &&
      count (fun _ => Cpu.counting) c.loc = 2 && count (fun _ => Cpu.uncounting) c.loc = 0)
    (by decide +kernel)
  simp only [Bool.and_eq_true, decide_eq_true_eq] at hP
  obtain ⟨⟨hlive, hcount⟩, huncount⟩ := hP
  refine ⟨c, hc, hcount, ?_⟩
  rw [(interleaved_counts hc).2.1, hlive, hcount, huncount]
  decide

/-! ### The contents of the blocks -/

/-- A move after which the block `b` is as before. -/
def SparingMove (A : Arch) (b : Live) (c c' : Conf ι Cpu Shared) : Prop :=
  ∃ i x, Spares A b x ∧ c.move (cpus A) i x = some c'

/-- **The contents on several CPUs.** In every interleaving a block keeps its contents while no CPU
frees it or writes to it, whatever the CPUs allocate, free and write elsewhere. -/
theorem interleaved_contents (h : Reach (cpus A) Booted anyMove c) (hb : b ∈ c.sh.live)
    (hrun : Relation.ReflTransGen (SparingMove A b) c c') :
    b ∈ c'.sh.live ∧ ∀ a, (b.span A).Has a → c'.sh.st.mem a = c.sh.st.mem a := by
  suffices hall : Reach (cpus A) Booted anyMove c' ∧ b ∈ c'.sh.live ∧
      ∀ a, (b.span A).Has a → c'.sh.st.mem a = c.sh.st.mem a from hall.2
  induction hrun with
  | refl => exact ⟨h, hb, fun _ _ => rfl⟩
  | tail _ hstep ih =>
    obtain ⟨hreach, hmem, hkeep⟩ := ih
    obtain ⟨i, x, hx, hm⟩ := hstep
    obtain ⟨v, hI⟩ := heapInv_of_reach hreach
    obtain ⟨cpu', y', hp, rfl⟩ := Conf.move_eq_some_iff.mp hm
    have hspare : ∀ a, (b.span A).Has a → b ∈ y'.live ∧ y'.st.mem a = _ :=
      fun a ha => cpus_spares hp hI.rep (hI.fits i) hx hmem ha
    refine ⟨hreach.move i x trivial hm, ?_, fun a ha => (hspare a ha).2.trans (hkeep a ha)⟩
    have hpos := A.units_pos (hI.rep.liveOK b hmem).pos
    exact (hspare b.addr ⟨le_rfl, Nat.lt_add_of_pos_right hpos⟩).1

/-- The first CPU frees its block, and with it its page. -/
theorem interleaved_contents_twoPages : ∃ c c' : Conf (Fin 2) Cpu Shared,
    Reach (cpus (i386 false)) Booted anyMove c ∧
      c.move (cpus (i386 false)) 0 (.free ⟨2048, 100⟩) = some c' ∧ ⟨4096, 100⟩ ∈ c'.sh.live ∧
      ∀ a, (Live.span (i386 false) ⟨4096, 100⟩).Has a → c'.sh.st.mem a = c.sh.st.mem a := by
  obtain ⟨c, hc, hP⟩ := @exists_reach _ _ _ _ _ (cpus (i386 false)) Booted anyMove (bootConf 2) _
    (booted_bootConf 2) (twoPages 0 1 ++ [(0, .next)])
    (fun c => ⟨4096, 100⟩ ∈ c.sh.live && (c.move (cpus (i386 false)) 0 (.free ⟨2048, 100⟩)).isSome)
    (by decide +kernel)
  simp only [Bool.and_eq_true, decide_eq_true_eq] at hP
  obtain ⟨c', hm⟩ := Option.isSome_iff_exists.mp hP.2
  have hspare : Spares (i386 false) ⟨4096, 100⟩ (.free ⟨2048, 100⟩) :=
    show (⟨2048, 100⟩ : Live) ≠ ⟨4096, 100⟩ by decide
  exact ⟨c, c', hc, hm, interleaved_contents hc hP.1 (.single ⟨0, _, hspare, hm⟩)⟩

end Runs

end Cs444.Slob
