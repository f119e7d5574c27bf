import Cs444.Slob.Search

/-!
# `slob_alloc` keeps the representation

A call either is served from the page the search finds (`Rep.slobAlloc_served`), or returns `NULL`
and changes nothing (`Rep.slobAlloc_null`), or takes a new page (`Rep.slobAlloc_new`), which always
has room when the alignment is a power of two up to the page size (`Rep.slobAlloc_new_returns`).
`Allocated` is what the first and the last have in common.
-/

namespace Cs444.Slob

/-- The alignments callers ask for: none, or a power of two up to the page size. -/
def Aligning (A : Arch) (align : ℕ) : Prop := align = 0 ∨ ∃ k, align = 2 ^ k ∧ 2 ^ k ≤ A.PAGE_SIZE

/-- The result of a successful call: the block `addr` of `size` bytes was taken from the page `p`. -/
structure Allocated (A : Arch) (s : State) (live : List Live) (size align p addr : ℕ)
    (s' : State) (v' : View) : Prop where
  rep : Rep A s' (⟨addr, size⟩ :: live) v'
  page : A.virtToPage addr = p
  aligned : ∃ cur, addr = cur + alignDelta A cur align
  nid : ∀ q, (s'.page q).nid = (s.page q).nid

variable {A : Arch} {s s' : State} {live : List Live} {v : View} {p size align addr : ℕ}
  {node : Option ℕ}

/-! ## Clearing the block -/

/-- `memset` writes only units of the block. -/
theorem memsetZero_frame (m : Mem) {b size a : ℕ} (ha : a < b ∨ b + A.SLOB_UNITS size ≤ a) :
    memsetZero A m b size a = m a := by
  have hunit := A.slobUnit_cases
  have hdiv : size / A.SLOB_UNIT ≤ A.SLOB_UNITS size :=
    Nat.div_le_div_right (by have := A.slobUnit_pos; omega)
  unfold memsetZero
  rw [if_neg (by omega)]
  split_ifs with e
  · -- the last unit lies behind the block only when `size` is a multiple of the unit
    have hmod : size % A.SLOB_UNIT = 0 := by
      unfold Arch.SLOB_UNITS at ha
      rcases hunit with h | h
      · rw [h] at e ha ⊢; omega
      · rw [h] at e ha ⊢; omega
    rw [hmod]
    simp
  · rfl

@[simp] theorem clearBlock_page (s : State) (gfp : Gfp) (b size : ℕ) :
    (clearBlock A s gfp b size).page = s.page := by
  unfold clearBlock
  split_ifs <;> rfl

@[simp] theorem clearBlock_pages (s : State) (gfp : Gfp) (b size : ℕ) :
    (clearBlock A s gfp b size).pages = s.pages := by
  unfold clearBlock
  split_ifs <;> rfl

theorem clearBlock_links (s : State) (gfp : Gfp) (b size : ℕ) :
    (clearBlock A s gfp b size).links = s.links := by
  unfold clearBlock
  split_ifs <;> rfl

/-- Clearing a live block leaves the free memory alone. -/
theorem outside_clearBlock (s : State) (gfp : Gfp) (addr size : ℕ) (live : List Live) :
    Outside A s (⟨addr, size⟩ :: live) (clearBlock A s gfp addr size) := by
  refine ⟨?_, ?_, ?_, ?_, ?_⟩
  · intro a _ ha
    unfold clearBlock
    split_ifs
    · refine memsetZero_frame s.mem ?_
      rw [spans_cons, cover_cons] at ha
      by_contra hc
      rw [if_pos (show (Live.span A ⟨addr, size⟩).Has a from ?_)] at ha
      · omega
      · unfold Span.Has Live.span
        simp only [Span.fin_mk]
        omega
    · rfl
  · intro p _
    rw [clearBlock_page]
  · intro p
    rw [clearBlock_page]
  · intro p
    rw [clearBlock_page]
  · intro x _
    rw [clearBlock_links]
    exact ⟨rfl, rfl⟩

/-! ## The new page -/

theorem chargePage_nid (s : State) (p units : ℕ) (m : Mem) (fl q : ℕ) :
    ((chargePage s p units m fl).page q).nid = (s.page q).nid := by
  by_cases e : q = p
  · subst e
    rw [chargePage_page]
  · rw [chargePage_page_ne _ _ _ _ _ e]

/-- `slob_page_alloc` changes neither the counter nor the nodes of the pages. -/
theorem slobPageAlloc_frame {r : Option ℕ} (h : slobPageAlloc A s p size align = some (s', r)) :
    s'.pages = s.pages ∧ ∀ q, (s'.page q).nid = (s.page q).nid := by
  simp only [slobPageAlloc] at h
  split at h
  · cases h
  · cases h
    exact ⟨rfl, fun _ => rfl⟩
  · cases h
    exact ⟨chargePage_pages .., chargePage_nid _ _ _ _ _⟩

theorem addPage_nid (s : State) (p q : ℕ) (c : SizeClass) :
    ((addPage A s p c).page q).nid = (s.page q).nid := by
  by_cases e : q = p
  · subst e
    simp [addPage, setSlobPageFree, State.setPage]
  · simp [addPage, setSlobPageFree, State.setPage, e]

/-- The start of a page is aligned to every power of two up to the page size. -/
theorem alignDelta_pageAddress {k : ℕ} (hk : 2 ^ k ≤ A.PAGE_SIZE) (p : ℕ) :
    alignDelta A (A.pageAddress p) (2 ^ k) = 0 := by
  have hdvd : 2 ^ k ∣ A.SLOB_UNIT * A.pageAddress p := by
    have h₁ : 2 ^ k ∣ A.PAGE_SIZE :=
      pow_dvd_pow 2 ((Nat.pow_le_pow_iff_right (by norm_num)).mp hk)
    have h₂ : A.SLOB_UNIT * A.pageAddress p = A.PAGE_SIZE * p := by
      rw [← A.pageUnits_mul]
      unfold Arch.pageAddress
      ring
    rw [h₂]
    exact h₁.mul_right p
  unfold alignDelta
  rw [if_pos (by positivity), ALIGN_of_dvd hdvd, Nat.mul_div_cancel_left _ A.slobUnit_pos]
  omega

/-- An aligned block is aligned. -/
theorem dvd_of_alignDelta {k cur : ℕ} :
    2 ^ k ∣ A.SLOB_UNIT * (cur + alignDelta A cur (2 ^ k)) := by
  have hpos := A.slobUnit_pos
  have hle := le_ALIGN (A.SLOB_UNIT * cur) (2 ^ k)
  have hdvd := dvd_ALIGN_two_pow (A.SLOB_UNIT * cur) k
  obtain ⟨j, hj⟩ : ∃ j, A.SLOB_UNIT = 2 ^ j := by
    rcases A.slobUnit_cases with h | h
    · exact ⟨1, h⟩
    · exact ⟨2, h⟩
  have hcur : cur ≤ ALIGN (A.SLOB_UNIT * cur) (2 ^ k) / A.SLOB_UNIT :=
    (Nat.le_div_iff_mul_le hpos).mpr (by rw [Nat.mul_comm]; exact hle)
  unfold alignDelta
  rw [if_pos (by positivity), Nat.add_sub_cancel' hcur]
  rcases Nat.le_total j k with h | h
  · -- the unit divides the alignment
    have hunit : A.SLOB_UNIT ∣ ALIGN (A.SLOB_UNIT * cur) (2 ^ k) := by
      rw [hj]
      exact (pow_dvd_pow 2 h).trans (hj ▸ hdvd)
    rw [Nat.mul_div_cancel' hunit]
    exact hdvd
  · exact (hj ▸ pow_dvd_pow 2 h).mul_right _

/-! ## The three outcomes -/

theorem Rep.length_ls_le (h : Rep A s live v) (c : SizeClass) : (v.ls c).length ≤ A.maxPfn := by
  have hnd : (v.ls c).Nodup := (List.nodup_map_iff page_injective).mp (h.rings.circ c).nodup
  have hsub : (v.ls c).toFinset ⊆ Finset.range A.maxPfn := by
    intro p hp
    have hheld := ((h.onList c p).mp (List.mem_toFinset.mp hp)).1
    exact Finset.mem_range.mpr (h.frame p hheld).2
  have := Finset.card_le_card hsub
  rwa [List.toFinset_card_of_nodup hnd, Finset.card_range] at this

/-- The search of a call, on the pages of its list. -/
theorem Rep.lockedSearch_eq (h : Rep A s live v) (size align : ℕ) (node : Option ℕ) :
    lockedSearch A s size align node =
      match servedPage A s size align node (v.ls (slobList size)) with
      | none => some (s, none)
      | some q =>
        match slobPageAlloc A s q size align with
        | none => none
        | some (s', addr) =>
          some ({ s' with links := rotateTo s'.links (slobList size) (s.links.prev (.page q)) },
            addr) :=
  h.searchPages_eq (a := []) rfl (Nat.lt_succ_of_le (h.length_ls_le _)) size align node

/-- **A served call** takes its block from the page the search finds, and leaves the list starting
there. -/
theorem Rep.slobAlloc_served (h : Rep A s live v) (gfp : Gfp) (hpos : 0 < size)
    (hlt : size < A.PAGE_SIZE)
    (hs : servedPage A s size align node (v.ls (slobList size)) = some p) :
    ∃ s' addr v', (∀ src, slobAlloc A s size gfp align node src = some (s', some addr)) ∧
      Allocated A s live size align p addr s' v' ∧ v'.held = v.held ∧ s'.pages = s.pages ∧
      ∃ a b, v.ls (slobList size) = a ++ p :: b ∧
        v'.ls = Function.update v.ls (slobList size)
          ((if (s'.page p).units = 0 then b else p :: b) ++ a) := by
  obtain ⟨hmem, hfit⟩ := serve_mem hs
  obtain ⟨a, b, hl⟩ := List.append_of_mem hmem
  have hsearch := h.lockedSearch_eq size align node
  rcases h.slobPageAlloc_cases hmem size align with ⟨h₁, -⟩ | ⟨-, -, s₁, addr, hall⟩
  · rw [hfit] at h₁; cases h₁
  obtain ⟨free, hrep, hpage, x, -, -, haddr⟩ := h.pageAlloc hl hpos hlt hall
  obtain ⟨hpages, hnid⟩ := slobPageAlloc_frame hall
  have hrot := hrep.rotate (c := slobList size) (a := a) (Function.update_self ..)
  rw [hs] at hsearch
  simp only [hall, h.rings.prev_page hl] at hsearch
  set L := rotateTo s₁.links (slobList size) (lastNode (slobList size) a)
  refine ⟨clearBlock A { s₁ with links := L } gfp addr size, addr, _, ?_,
    ⟨hrot.outside (outside_clearBlock _ gfp addr size live), hpage, ⟨x.start, haddr⟩, ?_⟩, ?_, ?_,
    a, b, hl, ?_⟩
  · intro src
    unfold slobAlloc
    simp only [hsearch]
  · intro q
    rw [clearBlock_page]
    exact hnid q
  · exact Finset.insert_eq_self.mpr ((h.onList _ p).mp hmem).1
  · rw [clearBlock_pages]
    exact hpages
  · have hunits : (s₁.page p).units = total free := by
      have hok := (hrep.pageOK p (Finset.mem_insert_self ..)).units
      simpa only [View.put, Function.update_self] using hok
    rw [clearBlock_page]
    simp only [View.put, Function.update_idem, hunits]

/-- **A call that returns `NULL`** changes nothing. -/
theorem Rep.slobAlloc_null (h : Rep A s live v) (gfp : Gfp) {src : PageSource}
    (hs : servedPage A s size align node (v.ls (slobList size)) = none)
    (hsrc : slobNewPages A src node = none) :
    slobAlloc A s size gfp align node src = some (s, none) := by
  have hsearch := h.lockedSearch_eq size align node
  rw [hs] at hsearch
  unfold slobAlloc
  simp only [hsearch, hsrc]

/-- A call that takes a new page tries it with `slob_page_alloc`. -/
theorem Rep.slobAlloc_new_eq (h : Rep A s live v) (gfp : Gfp) {src : PageSource}
    (hs : servedPage A s size align node (v.ls (slobList size)) = none)
    (hsrc : slobNewPages A src node = some p) :
    slobAlloc A s size gfp align node src =
      match lockedNewPage A s p size align with
      | some (s, some b) => some (clearBlock A (incPages A s) gfp b size, some b)
      | _ => none := by
  have hsearch := h.lockedSearch_eq size align node
  rw [hs] at hsearch
  unfold slobAlloc
  rcases hpage : lockedNewPage A s p size align with _ | ⟨s₁, _ | b⟩ <;>
  simp only [hsearch, hsrc, hpage]

/-- A block taken from a page that has just been filed. -/
theorem Rep.newPage (h : Rep A s live v) (hpos : 0 < size) (hlt : size < A.PAGE_SIZE)
    (hnew : p ∉ v.held) (hpfn : 0 < p ∧ p < A.maxPfn)
    (hall : lockedNewPage A s p size align = some (s', some addr)) :
    ∃ v', Allocated A s live size align p addr s' v' ∧ v'.held = insert p v.held ∧
      s'.pages = s.pages := by
  have hadd := h.addPage hnew hpfn (slobList size)
  obtain ⟨free, hrep, hpage, x, -, -, haddr⟩ :=
    hadd.pageAlloc (a := []) (b := v.ls (slobList size)) (Function.update_self ..) hpos hlt hall
  obtain ⟨hpages, hnid⟩ := slobPageAlloc_frame hall
  refine ⟨_, ⟨hrep, hpage, ⟨x.start, haddr⟩, fun q => ?_⟩, ?_, hpages⟩
  · exact (hnid q).trans (addPage_nid s p q _)
  · simp [View.put]

/-- **A call that takes a new page** takes its block from it. -/
theorem Rep.slobAlloc_new (h : Rep A s live v) {gfp : Gfp} {src : PageSource} {r : Option ℕ}
    (hpos : 0 < size) (hlt : size < A.PAGE_SIZE)
    (hs : servedPage A s size align node (v.ls (slobList size)) = none)
    (hsrc : slobNewPages A src node = some p) (hnew : p ∉ v.held) (hpfn : 0 < p ∧ p < A.maxPfn)
    (he : slobAlloc A s size gfp align node src = some (s', r)) :
    ∃ addr v', r = some addr ∧ Allocated A s live size align p addr s' v' ∧
      v'.held = insert p v.held ∧ s'.pages = (s.pages + 1) % 2 ^ A.wordBits := by
  rw [h.slobAlloc_new_eq gfp hs hsrc] at he
  split at he
  case h_2 => cases he
  case h_1 s₁ addr hall =>
    obtain ⟨rfl, rfl⟩ : clearBlock A (incPages A s₁) gfp addr size = s' ∧ some addr = r := by
      simpa using he
    obtain ⟨v', hal, hheld, hpages⟩ := h.newPage hpos hlt hnew hpfn hall
    refine ⟨addr, v', rfl, ⟨(hal.rep.setPages _).outside (outside_clearBlock _ gfp addr size live),
      hal.page, hal.aligned, ?_⟩, hheld, ?_⟩
    · intro q
      rw [clearBlock_page]
      exact hal.nid q
    · rw [clearBlock_pages]
      show (s₁.pages + 1) % 2 ^ A.wordBits = _
      rw [hpages]

/-- **A new page has room** for every legal request. -/
theorem Rep.lockedNewPage_returns (h : Rep A s live v) (hlt : size < A.PAGE_SIZE)
    (halign : Aligning A align) (hnew : p ∉ v.held) (hpfn : 0 < p ∧ p < A.maxPfn) :
    ∃ s' b, lockedNewPage A s p size align = some (s', some b) := by
  have hadd := h.addPage hnew hpfn (slobList size)
  have hok := hadd.pageOK p (Finset.mem_insert_self ..)
  simp only [View.put, Function.update_self] at hok
  have hdelta : alignDelta A (A.pageAddress p) align = 0 := by
    rcases halign with rfl | ⟨k, rfl, hk⟩
    · rfl
    · exact alignDelta_pageAddress hk p
  rcases Slob.slobPageAlloc_cases hok.onPage (by simp) size align with
    ⟨-, hno⟩ | ⟨pre, x, post, m, fl, addr, -, -, -, -, hall⟩
  · refine absurd ?_ (hno _ (List.mem_singleton.mpr rfl))
    unfold HasRoom
    simp only [hdelta, Nat.add_zero]
    exact A.units_le hlt.le
  · exact ⟨_, _, hall⟩

/-- `BUG_ON(!b)` does not fire. -/
theorem Rep.slobAlloc_new_returns (h : Rep A s live v) (gfp : Gfp) {src : PageSource}
    (hlt : size < A.PAGE_SIZE) (halign : Aligning A align)
    (hs : servedPage A s size align node (v.ls (slobList size)) = none)
    (hsrc : slobNewPages A src node = some p) (hnew : p ∉ v.held) (hpfn : 0 < p ∧ p < A.maxPfn) :
    ∃ r, slobAlloc A s size gfp align node src = some r := by
  obtain ⟨s', b, hall⟩ := h.lockedNewPage_returns hlt halign hnew hpfn
  rw [h.slobAlloc_new_eq gfp hs hsrc, hall]
  exact ⟨_, rfl⟩

end Cs444.Slob
