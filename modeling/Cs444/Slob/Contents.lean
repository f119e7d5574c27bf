import Cs444.Slob.FreeOrder

/-!
# The allocator keeps the contents of live blocks

`slob_alloc` and `slob_free` keep their bookkeeping inside the free memory: `set_slob` writes to free
blocks and to the block that is freed, and `memset` to the block that is returned. So the units of the
other live blocks, and all pages that are not slab pages, stay as they are (`Rep.slobAlloc_mem`,
`Rep.lockedFree_mem`).

`contents_kept`: whatever the rest of the kernel allocates, frees and writes to what it holds, a block
that its holder neither writes to nor frees keeps its contents, in every run.
-/

namespace Cs444.Slob

/-- A step of a run in which the holder of the block `b` neither frees it nor writes to it. -/
inductive Others (A : Arch) (b : Live) : Sys → Sys → Prop
  | call {y y' : Sys} (c : Call) (hlegal : Legal A y c) (hexec : exec A y c = some y')
      (hc : c ≠ .free b) : Others A b y y'
  | outside {y : Sys} {s' : State} (ho : Outside A y.st y.live s') (hpages : s'.pages = y.st.pages)
      (hb : ∀ a, (b.span A).Has a → s'.mem a = y.st.mem a) : Others A b y ⟨s', y.live⟩

variable {A : Arch} {y y' : Sys} {s s' : State} {live : List Live} {v : View} {p size align a addr : ℕ}
  {gfp : Gfp} {node : Option ℕ} {src : PageSource} {b : Live} {free : List Span}

/-- The page of a live block is a slab page. -/
theorem Rep.slab_of_live (h : Rep A s live v) (hb : b ∈ live) (ha : (b.span A).Has a) :
    (s.page (A.virtToPage a)).slab = true := by
  have hlive := h.liveOK b hb
  rw [hlive.page_of_has ha]
  exact (h.held _).mp hlive.held

/-! ## `slob_alloc` -/

/-- The block that `slob_alloc` returns is the one that `slob_page_alloc` took, from a page of the list
or from the new page. -/
theorem Rep.slobAlloc_block (h : Rep A s live v)
    (he : slobAlloc A s size gfp align node src = some (s', some addr)) :
    ∃ s₁, s'.mem = (clearBlock A s₁ gfp addr size).mem ∧
      ((∃ p ∈ v.ls (slobList size), slobPageAlloc A s p size align = some (s₁, some addr)) ∨
        ∃ p, slobNewPages A src node = some p ∧
          slobPageAlloc A (Slob.addPage A s p (slobList size)) p size align =
            some (s₁, some addr)) := by
  have hclear : ∀ s₁ s₂ : State, s₁.mem = s₂.mem →
      (clearBlock A s₁ gfp addr size).mem = (clearBlock A s₂ gfp addr size).mem := by
    intro s₁ s₂ hmem
    unfold clearBlock
    split_ifs
    · rw [hmem]
    · exact hmem
  cases hs : servedPage A s size align node (v.ls (slobList size)) with
  | some p =>
    obtain ⟨hmem, hfit⟩ := serve_mem hs
    have hsearch := h.lockedSearch_eq size align node
    rcases h.slobPageAlloc_cases hmem size align with ⟨h₁, -⟩ | ⟨-, -, s₁, addr', hall⟩
    · rw [hfit] at h₁
      cases h₁
    · rw [hs] at hsearch
      unfold slobAlloc at he
      simp only [hsearch, hall] at he
      cases he
      exact ⟨s₁, hclear _ _ rfl, .inl ⟨p, hmem, hall⟩⟩
  | none =>
    cases hsrc : slobNewPages A src node with
    | none =>
      rw [h.slobAlloc_null gfp hs hsrc] at he
      cases he
    | some p =>
      rw [h.slobAlloc_new_eq gfp hs hsrc] at he
      split at he
      next s₁ addr' hall =>
        cases he
        exact ⟨s₁, hclear _ _ rfl, .inr ⟨p, rfl, hall⟩⟩
      next => cases he

/-- `slob_page_alloc` writes on free units of its page only. -/
theorem PageOK.pageAlloc_mem (h : PageOK A s live p free) (hunits : 0 < (s.page p).units)
    (hpos : 0 < size) (he : slobPageAlloc A s p size align = some (s', some addr))
    (ha : A.virtToPage a = p → 0 < cover (spans A live) a) : s'.mem a = s.mem a := by
  obtain ⟨-, -, -, -, m, fl, free', rfl, hag, -⟩ := h.pageAlloc hunits hpos he
  rw [chargePage_mem]
  refine hag a fun x hx hxa => ?_
  have hpage := virtToPage_of_within h.onPage.within hx hxa
  have htile := h.tiles a (hpage ▸ (mem_page a).1) (hpage ▸ (mem_page a).2)
  have hcov := one_le_cover hx hxa
  have := ha hpage
  omega

/-- Clearing a block writes on its units only. -/
theorem clearBlock_mem (s : State) (ha : ¬ (Live.span A ⟨addr, size⟩).Has a) :
    (clearBlock A s gfp addr size).mem a = s.mem a := by
  unfold clearBlock
  split_ifs
  · refine memsetZero_frame s.mem ?_
    unfold Span.Has Live.span at ha
    simp only [Span.fin_mk] at ha
    omega
  · rfl

/-- Filing a new page writes on that page only. -/
theorem addPage_mem (s : State) (c : SizeClass) (ha : A.virtToPage a ≠ p) :
    (addPage A s p c).mem a = s.mem a := by
  have hw : Within (A.pageAddress p) (A.pageEnd p) [⟨A.pageAddress p, A.pageUnits⟩] :=
    within_cons.mpr ⟨⟨le_rfl, A.pageUnits_pos, le_rfl⟩, within_nil _ _⟩
  exact (onPage_setSlob s.mem hw).2 a fun x hx hxa => ha (virtToPage_of_within hw hx hxa)

/-- **`slob_alloc`** leaves the live blocks alone, and the pages that are no slab pages. -/
theorem Rep.slobAlloc_mem (h : Rep A s live v) {r : Option ℕ} (hpos : 0 < size)
    (hlt : size < A.PAGE_SIZE) (hfresh : Fresh A s src node)
    (he : slobAlloc A s size gfp align node src = some (s', r))
    (ha : 0 < cover (spans A live) a ∨
      (s.page (A.virtToPage a)).slab = false ∧ (s'.page (A.virtToPage a)).slab = false) :
    s'.mem a = s.mem a := by
  rcases h.slobAlloc_cases hpos hlt hfresh he with ⟨-, rfl⟩ | ⟨q, addr, v', rfl, hal, -⟩
  · rfl
  -- the unit is not in the new block
  have hnew : ¬ (Live.span A ⟨addr, size⟩).Has a := by
    intro hin
    rcases ha with ha | ⟨-, ha⟩
    · have hone := hal.rep.cover_live_le_one a
      rw [spans_cons, cover_cons, if_pos hin] at hone
      omega
    · rw [hal.rep.slab_of_live (List.mem_cons_self ..) hin] at ha
      cases ha
  obtain ⟨s₁, hmem, hblock⟩ := h.slobAlloc_block he
  rw [hmem, clearBlock_mem s₁ hnew]
  rcases hblock with ⟨p, hp, hall⟩ | ⟨p, hsrc, hall⟩
  · obtain ⟨hheld, -, hunits⟩ := (h.onList _ p).mp hp
    refine (h.pageOK p hheld).pageAlloc_mem hunits hpos hall ?_
    rintro rfl
    rcases ha with ha | ⟨ha, -⟩
    · exact ha
    · rw [(h.held _).mp hheld] at ha
      cases ha
  · obtain ⟨hslab, hpfn⟩ := hfresh p hsrc
    have hnot := h.not_mem_held hslab
    have hadd := h.addPage hnot hpfn (slobList size)
    have hok := hadd.pageOK p (Finset.mem_insert_self ..)
    have hunits : 0 < ((Slob.addPage A s p (slobList size)).page p).units := by
      simp [Slob.addPage, setSlobPageFree, State.setPage, A.pageUnits_pos]
    obtain ⟨v₁, hal₁, -⟩ := h.newPage hpos hlt hnot hpfn hall
    have hpage : A.virtToPage a ≠ p := by
      rintro rfl
      rcases ha with ha | ⟨-, ha⟩
      · rw [h.cover_live_eq_zero hnot] at ha
        omega
      · have hlive := hal.rep.liveOK ⟨addr, size⟩ (by simp)
        rw [← hal₁.page, (hal.rep.held _).mp hlive.held] at ha
        cases ha
    rw [hok.pageAlloc_mem hunits hpos hall fun e => absurd e hpage, addPage_mem s _ hpage]

/-! ## `slob_free` -/

/-- The freed block is none of the units that stay. -/
theorem Rep.not_has_of_kept (h : Rep A s live v) (hb : b ∈ live)
    (ha : 0 < cover (spans A (live.erase b)) a ∨ (s.page (A.virtToPage a)).slab = false) :
    ¬ (b.span A).Has a := by
  intro hin
  rcases ha with ha | ha
  · have hone := h.cover_live_le_one a
    rw [cover_erase hb, if_pos hin] at hone
    omega
  · rw [h.slab_of_live hb hin] at ha
    cases ha

/-- The free units of the page of a live block are none of the units that stay. -/
theorem Rep.not_free_of_kept (h : Rep A s live v) (hb : b ∈ live)
    (ha : 0 < cover (spans A (live.erase b)) a ∨ (s.page (A.virtToPage a)).slab = false)
    {x : Span} (hx : x ∈ v.free (A.virtToPage b.addr)) : ¬ x.Has a := by
  intro hin
  have hlive := h.liveOK b hb
  have hok := h.pageOK _ hlive.held
  have hpage := virtToPage_of_within hok.onPage.within hx hin
  rcases ha with ha | ha
  · have htile := hok.tiles a (hpage ▸ (mem_page a).1) (hpage ▸ (mem_page a).2)
    have hcov := one_le_cover hx hin
    rw [cover_erase hb] at htile
    omega
  · rw [hpage, (h.held _).mp hlive.held] at ha
    cases ha

/-- **`slob_free`** leaves the other live blocks alone, and the pages that are no slab pages. -/
theorem Rep.lockedFree_mem (h : Rep A s live v) (hb : b ∈ live) {back : Bool}
    (he : Slob.lockedFree A s b.addr b.size = some (s', back))
    (ha : 0 < cover (spans A (live.erase b)) a ∨ (s.page (A.virtToPage a)).slab = false) :
    s'.mem a = s.mem a := by
  have hlive := h.liveOK b hb
  have hok := h.pageOK _ hlive.held
  have hnot := h.not_has_of_kept hb ha
  simp only [Slob.lockedFree, h.zeroOrNullPtr_eq hb, Nat.pos_iff_ne_zero.mp hlive.pos, if_false,
    Bool.false_eq_true] at he
  split_ifs at he with hlast hfull
  · cases he
    rw [releasePage_mem]
  · cases he
    refine setSlob_frame s.mem _ (A.units_pos hlive.pos) (A.units_le hlive.lt.le) ?_
    unfold Span.Has Live.span at hnot
    simp only [Span.fin_mk] at hnot
    omega
  · have hpart : (s.page (A.virtToPage b.addr)).slobFree = true := by simpa using hfull
    obtain ⟨m, fl, free, hins, -, -, -, hag⟩ := hok.onPage.insertBlock hok.apart
      (hok.free_ne_nil.mpr (hok.flag.mp hpart)) hlive.within
      fun a ha => hok.cover_free_eq_zero hlive hb ha
    simp only [Slob.rejoinBlock, hins, Option.map_some] at he
    cases he
    refine hag a fun x hx => ?_
    rcases List.mem_cons.mp hx with rfl | hx
    · exact hnot
    · exact h.not_free_of_kept hb ha hx

theorem Rep.slobFree_mem (h : Rep A s live v) (hb : b ∈ live)
    (he : Slob.slobFree A s b.addr b.size = some s')
    (ha : 0 < cover (spans A (live.erase b)) a ∨ (s.page (A.virtToPage a)).slab = false) :
    s'.mem a = s.mem a := by
  obtain ⟨⟨s₁, back⟩, hfree, rfl⟩ := Option.map_eq_some_iff.mp he
  rw [← h.lockedFree_mem hb hfree ha]
  cases back <;> rfl

/-! ## Runs -/

theorem Others.step (h : Others A b y y') : Step A y y' := by
  cases h with
  | call c hlegal hexec => exact .call c hlegal hexec
  | outside ho hpages => exact .outside ho hpages

theorem cover_pos_of_has (hb : b ∈ live) (ha : (b.span A).Has a) : 0 < cover (spans A live) a :=
  one_le_cover (List.mem_map_of_mem (f := Live.span A) hb) ha

/-- A step of the others keeps the block and its contents. -/
theorem Others.keep (h : Others A b y y') (hinv : Inv A y) (hb : b ∈ y.live) :
    b ∈ y'.live ∧ ∀ a, (b.span A).Has a → y'.st.mem a = y.st.mem a := by
  obtain ⟨v, hrep, -⟩ := hinv
  cases h with
  | call c hlegal hexec hc =>
    cases c with
    | alloc size gfp align node src =>
      obtain ⟨hpos, hlt, hfresh⟩ := hlegal
      obtain ⟨⟨s', r⟩, hall, rfl⟩ := Option.map_eq_some_iff.mp hexec
      exact ⟨List.mem_append_right _ hb, fun a ha =>
        hrep.slobAlloc_mem hpos hlt hfresh hall (.inl (cover_pos_of_has hb ha))⟩
    | free b' =>
      obtain ⟨s', hfree, rfl⟩ := Option.map_eq_some_iff.mp hexec
      have hmem : b ∈ y.live.erase b' := by
        refine (List.mem_erase_of_ne ?_).mpr hb
        rintro rfl
        exact hc rfl
      exact ⟨hmem, fun a ha => hrep.slobFree_mem hlegal hfree (.inl (cover_pos_of_has hmem ha))⟩
  | outside ho hpages hkeep => exact ⟨hb, hkeep⟩

/-- **A block keeps its contents** while its holder neither frees it nor writes to it, whatever the
rest of the kernel allocates, frees and writes to what it holds. -/
theorem contents_kept (h : Reachable A y) (hb : b ∈ y.live)
    (hrun : Relation.ReflTransGen (Others A b) y y') :
    b ∈ y'.live ∧ ∀ a, (b.span A).Has a → y'.st.mem a = y.st.mem a := by
  suffices hall : Reachable A y' ∧ b ∈ y'.live ∧
      ∀ a, (b.span A).Has a → y'.st.mem a = y.st.mem a from hall.2
  induction hrun with
  | refl => exact ⟨h, hb, fun _ _ => rfl⟩
  | tail _ hstep ih =>
    obtain ⟨⟨s₀, hinit, hrun⟩, hmem, hkeep⟩ := ih
    obtain ⟨hmem', hkeep'⟩ := hstep.keep (reachable_inv ⟨s₀, hinit, hrun⟩) hmem
    exact ⟨⟨s₀, hinit, hrun.tail hstep.step⟩, hmem', fun a ha => (hkeep' a ha).trans (hkeep a ha)⟩

/-- A sequence of calls that are no free of `b` is a run of the others. -/
theorem others_runCalls {cs : List Call} (hr : runCalls A y cs = some y')
    (hcs : ∀ c ∈ cs, c ≠ .free b) : Relation.ReflTransGen (Others A b) y y' := by
  induction cs generalizing y with
  | nil =>
    cases hr
    exact .refl
  | cons c cs ih =>
    unfold runCalls at hr
    split_ifs at hr with hlegal
    obtain ⟨y₁, hexec, hr'⟩ := Option.bind_eq_some_iff.mp hr
    exact .head (.call c hlegal hexec (hcs c (by simp)))
      (ih hr' fun d hd => hcs d (List.mem_cons_of_mem _ hd))

/-- Two blocks share a page; the second one is freed and taken again, cleared. -/
theorem contents_kept_two : ∃ y, Reachable (i386 false) y ∧
    ∃ y', runCalls (i386 false) y [.free ⟨2560, 1024⟩,
        .alloc 1030 ⟨true⟩ 0 none ⟨none, fun _ => none⟩] = some y' ∧
      (⟨2048, 1024⟩ : Live) ∈ y'.live ∧
      ∀ a, (Live.span (i386 false) ⟨2048, 1024⟩).Has a → y'.st.mem a = y.st.mem a := by
  obtain ⟨y, hy, hP⟩ := exists_reachable (i386 false)
    [.alloc 1024 ⟨false⟩ 0 none ⟨some 1, fun _ => none⟩,
      .alloc 1024 ⟨false⟩ 0 none ⟨none, fun _ => none⟩]
    (fun y => (⟨2048, 1024⟩ : Live) ∈ y.live && (runCalls (i386 false) y [.free ⟨2560, 1024⟩,
      .alloc 1030 ⟨true⟩ 0 none ⟨none, fun _ => none⟩]).isSome) (by decide +kernel)
  simp only [Bool.and_eq_true, decide_eq_true_eq] at hP
  obtain ⟨y', hy'⟩ := Option.isSome_iff_exists.mp hP.2
  exact ⟨y, hy, y', hy', contents_kept hy hP.1 (others_runCalls hy' (by simp))⟩

end Cs444.Slob
