import Cs444.Slob.Lists

/-!
# The heap representation

The abstract heap (`View`): the slab pages held, the free blocks of each, the size class each page
serves, and the pages of the three lists in list order. `Rep A s live v` says that the state `s`
represents `v` when `live` are the allocated blocks: the free blocks of a page are the ones its
`freelist` leads to, they are coalesced, they and the live blocks tile the page, `units` counts
them, and the page is on the list of its class exactly while it has free units.

`slob_page_alloc` (`Rep.pageAlloc`), filing a new page (`Rep.addPage`) and `slob_free`
(`Rep.slobFree`) take a represented heap to a represented heap.
-/

namespace Cs444.Slob

variable (A : Arch)

/-- An allocated block: its address and the size it was allocated with. -/
structure Live where
  addr : ℕ
  size : ℕ
  deriving DecidableEq, Repr

/-- The units of an allocated block. -/
def Live.span (b : Live) : Span := ⟨b.addr, A.SLOB_UNITS b.size⟩

/-- The spans of the allocated blocks. -/
def spans (live : List Live) : List Span := live.map (Live.span A)

/-- The abstract heap. -/
structure View where
  held : Finset ℕ
  free : ℕ → List Span
  cls : ℕ → SizeClass
  ls : SizeClass → List ℕ

/-- The slab page `p` with the free blocks `free`. -/
structure PageOK (s : State) (live : List Live) (p : ℕ) (free : List Span) : Prop where
  onPage : OnPage A s.mem p (s.page p).freelist free
  apart : Apart free
  units : (s.page p).units = total free
  flag : (s.page p).slobFree = true ↔ 0 < (s.page p).units
  tiles : ∀ a, A.pageAddress p ≤ a → a < A.pageEnd p →
    cover free a + cover (spans A live) a = 1

/-- The allocated block `b` lies in a held page of its class. -/
structure LiveOK (v : View) (b : Live) : Prop where
  held : A.virtToPage b.addr ∈ v.held
  pos : 0 < b.size
  lt : b.size < A.PAGE_SIZE
  fits : b.addr + A.SLOB_UNITS b.size ≤ A.pageEnd (A.virtToPage b.addr)
  cls : slobList b.size = v.cls (A.virtToPage b.addr)

/-- The state represents the abstract heap `v`. -/
structure Rep (s : State) (live : List Live) (v : View) : Prop where
  held : ∀ p, p ∈ v.held ↔ (s.page p).slab = true
  frame : ∀ p ∈ v.held, 0 < p ∧ p < A.maxPfn
  rings : Rings s.links v.ls
  onList : ∀ c p, p ∈ v.ls c ↔ p ∈ v.held ∧ v.cls p = c ∧ 0 < (s.page p).units
  pageOK : ∀ p ∈ v.held, PageOK A s live p (v.free p)
  liveOK : ∀ b ∈ live, LiveOK A v b

variable {A} {s s' : State} {live live' : List Live} {v : View} {p size : ℕ} {c : SizeClass}
  {pre post : List Span} {x : Span} {m : Mem} {fl delta : ℕ}

/-! ## Pages -/

/-- An address lies in the page `virtToPage` says. -/
theorem mem_page (a : ℕ) :
    A.pageAddress (A.virtToPage a) ≤ a ∧ a < A.pageEnd (A.virtToPage a) :=
  ⟨A.base_le a, A.lt_base_add a⟩

theorem LiveOK.within {b : Live} (h : LiveOK A v b) :
    Within (A.pageAddress (A.virtToPage b.addr)) (A.pageEnd (A.virtToPage b.addr)) [b.span A] := by
  intro x hx
  rw [List.mem_singleton.mp hx]
  exact ⟨(mem_page b.addr).1, A.units_pos h.pos, h.fits⟩

/-- A live block only covers addresses of its own page. -/
theorem LiveOK.page_of_has {b : Live} (h : LiveOK A v b) {a : ℕ} (ha : (b.span A).Has a) :
    A.virtToPage a = A.virtToPage b.addr := by
  have h₁ := mem_page (A := A) b.addr
  have h₂ := h.fits
  unfold Span.Has Live.span at ha
  simp only [Span.fin_mk] at ha
  exact A.virtToPage_eq (by omega) (by unfold Arch.pageEnd at h₂; omega)

/-- The fields of a page that is not touched. -/
theorem PageOK.congr {free : List Span} (h : PageOK A s live p free)
    (hmem : ∀ b ∈ free, ∀ a, b.Has a → s'.mem a = s.mem a) (hpage : s'.page p = s.page p)
    (hlive : ∀ a, A.virtToPage a = p → cover (spans A live') a = cover (spans A live) a) :
    PageOK A s' live' p free := by
  obtain ⟨⟨h₁, h₂, h₃, h₄⟩, h₅, h₆, h₇, h₈⟩ := h
  refine ⟨⟨h₁.congr hmem, by rw [hpage]; exact h₂, h₃, h₄⟩, h₅, by rw [hpage]; exact h₆,
    by rw [hpage]; exact h₇, ?_⟩
  intro a ha ha'
  rw [hlive a (A.virtToPage_eq ha ha')]
  exact h₈ a ha ha'

/-- The free units of a page and its live units make up the page. -/
theorem PageOK.total_add {free : List Span} (h : PageOK A s live p free) :
    total free + ∑ a ∈ Finset.Ico (A.pageAddress p) (A.pageEnd p), cover (spans A live) a =
      A.pageUnits := by
  rw [← sum_cover h.onPage.within, ← Finset.sum_add_distrib]
  rw [Finset.sum_congr rfl fun a ha => h.tiles a (Finset.mem_Ico.mp ha).1 (Finset.mem_Ico.mp ha).2]
  simp [Arch.pageEnd]

theorem total_pos_iff {l : List Span} {lo hi : ℕ} (h : Within lo hi l) : 0 < total l ↔ l ≠ [] := by
  cases l with
  | nil => simp
  | cons b l =>
    have := (within_cons.mp h).1.2.1
    simp only [total_cons, ne_eq, reduceCtorEq, not_false_eq_true, iff_true]
    omega

theorem PageOK.free_ne_nil {free : List Span} (h : PageOK A s live p free) :
    free ≠ [] ↔ 0 < (s.page p).units := by
  rw [h.units, total_pos_iff h.onPage.within]

/-! ## Changing one page -/

/-- The abstract heap after a change of one page: `p` is held, serves the class `c` and has the
free blocks `free`, and the list of the class is `l`. -/
def View.put (v : View) (p : ℕ) (c : SizeClass) (free : List Span) (l : List ℕ) : View where
  held := insert p v.held
  free := Function.update v.free p free
  cls := Function.update v.cls p c
  ls := Function.update v.ls c l

theorem LiveOK.put {b : Live} (h : LiveOK A v b) (free : List Span) (l : List ℕ)
    (hc : A.virtToPage b.addr = p → v.cls p = c) : LiveOK A (v.put p c free l) b := by
  refine ⟨Finset.mem_insert_of_mem h.held, h.pos, h.lt, h.fits, ?_⟩
  simp only [View.put]
  by_cases e : A.virtToPage b.addr = p
  · rw [e, Function.update_self, h.cls, e, hc e]
  · rw [Function.update_of_ne e, h.cls]

/-- An address of a block of the page `p` is on the page. -/
theorem virtToPage_of_within {free : List Span} (h : Within (A.pageAddress p) (A.pageEnd p) free)
    {b : Span} (hb : b ∈ free) {a : ℕ} (ha : b.Has a) : A.virtToPage a = p := by
  obtain ⟨h₁, -, h₂⟩ := h b hb
  unfold Span.Has at ha
  unfold Arch.pageEnd at h₂
  exact A.virtToPage_eq (by omega) (by omega)

/-- The heap after a change that stays inside the page `p`, its list and its blocks. -/
theorem Rep.put (h : Rep A s live v) {free : List Span} {l : List ℕ}
    (hmem : ∀ a, A.virtToPage a ≠ p → s'.mem a = s.mem a)
    (hpage : ∀ q ≠ p, s'.page q = s.page q)
    (hslab : (s'.page p).slab = true) (hpfn : 0 < p ∧ p < A.maxPfn)
    (hrings : Rings s'.links (Function.update v.ls c l))
    (hoff : ∀ d ≠ c, p ∉ v.ls d)
    (hl : ∀ q, q ∈ l ↔ q ≠ p ∧ q ∈ v.ls c ∨ q = p ∧ 0 < (s'.page p).units)
    (hcover : ∀ a, A.virtToPage a ≠ p → cover (spans A live') a = cover (spans A live) a)
    (hok : PageOK A s' live' p free) (hlive : ∀ b ∈ live', LiveOK A (v.put p c free l) b) :
    Rep A s' live' (v.put p c free l) := by
  refine ⟨?_, ?_, hrings, ?_, ?_, hlive⟩
  · intro q
    by_cases e : q = p
    · subst e; simp [View.put, hslab]
    · rw [hpage q e, ← h.held q]; simp [View.put, e]
  · intro q hq
    rcases Finset.mem_insert.mp hq with rfl | hq
    · exact hpfn
    · exact h.frame q hq
  · intro d q
    simp only [View.put, Finset.mem_insert]
    by_cases e : q = p
    · subst e
      rw [Function.update_self]
      by_cases ed : d = c
      · subst ed; simp [hl]
      · rw [Function.update_of_ne ed]
        simp [hoff d ed, Ne.symm ed]
    · rw [Function.update_of_ne e, hpage q e]
      by_cases ed : d = c
      · subst ed; simp [hl, e, h.onList]
      · rw [Function.update_of_ne ed, h.onList]
        simp [e]
  · intro q hq
    simp only [View.put]
    by_cases e : q = p
    · subst e; simpa using hok
    · have hold := h.pageOK q ((Finset.mem_insert.mp hq).resolve_left e)
      rw [Function.update_of_ne e]
      refine hold.congr ?_ (hpage q e) fun a ha => hcover a (by rw [ha]; exact e)
      intro b hb a ha
      exact hmem a (by rw [virtToPage_of_within hold.onPage.within hb ha]; exact e)

/-! ## `slob_page_alloc` -/

/-- `slob_page_alloc` fails when no block of the page has room, and takes the first that has. -/
theorem slobPageAlloc_cases {free : List Span} (h : OnPage A s.mem p (s.page p).freelist free)
    (hne : free ≠ []) (size align : ℕ) :
    (slobPageAlloc A s p size align = some (s, none) ∧
        ∀ b ∈ free, ¬ HasRoom A (A.SLOB_UNITS size) align b) ∨
      ∃ pre b post m fl addr, free = pre ++ b :: post ∧ HasRoom A (A.SLOB_UNITS size) align b ∧
        (∀ c ∈ pre, ¬ HasRoom A (A.SLOB_UNITS size) align c) ∧
        takeBlock A s.mem (s.page p).freelist (A.SLOB_UNITS size) (lastStart pre) b.start
          (alignDelta A b.start align) = (m, fl, addr) ∧
        slobPageAlloc A s p size align =
          some (chargePage s p (A.SLOB_UNITS size) m fl, some addr) := by
  have hlen : free.length ≤ A.pageUnits + 1 := by
    have := h.order.length_le h.within
    unfold Arch.pageEnd at this
    omega
  have hfind := @OnPage.findBlock_spec A s.mem p _ (A.SLOB_UNITS size) [] free align _ h hne hlen
  rw [← h.head, show lastStart [] = none from rfl] at hfind
  simp only [slobPageAlloc]
  rcases hfind with ⟨h₁, h₂⟩ | ⟨pre, b, post, h₁, h₂, hskip, h₃⟩
  · refine .inl ⟨?_, h₂⟩
    rw [h₁]
  · refine .inr ⟨pre, b, post, _, _, _, h₁, h₂, hskip, rfl, ?_⟩
    rw [h₃]
    rfl

section chargePage

variable (s p) (units : ℕ) (m : Mem) (fl : ℕ)

@[simp] theorem chargePage_mem : (chargePage s p units m fl).mem = m := by
  simp only [chargePage]
  split_ifs <;> rfl

@[simp] theorem chargePage_pages : (chargePage s p units m fl).pages = s.pages := by
  simp only [chargePage]
  split_ifs <;> rfl

theorem chargePage_page_ne {q : ℕ} (h : q ≠ p) : (chargePage s p units m fl).page q = s.page q := by
  simp only [chargePage]
  split_ifs <;> simp [clearSlobPageFree, State.setPage, h]

theorem chargePage_page : (chargePage s p units m fl).page p =
    { s.page p with
      units := (s.page p).units - units
      freelist := fl
      slobFree := if (s.page p).units - units = 0 then false else (s.page p).slobFree } := by
  simp only [chargePage]
  split_ifs with h <;> simp [clearSlobPageFree, State.setPage, h]

theorem chargePage_links : (chargePage s p units m fl).links =
    if (s.page p).units - units = 0 then s.links.listDel (.page p) .poison₁ .poison₂
    else s.links := by
  simp only [chargePage]
  split_ifs <;> rfl

end chargePage

theorem spans_cons (b : Live) (live : List Live) :
    spans A (b :: live) = b.span A :: spans A live := rfl

/-- The units of `x` taken at offset `delta` become a live block. -/
theorem PageOK.take (h : PageOK A s live p (pre ++ x :: post)) (hu : 0 < A.SLOB_UNITS size)
    (hle : A.SLOB_UNITS size + delta ≤ x.len)
    (hon : OnPage A m p fl (pre ++ (x.cut delta (A.SLOB_UNITS size) ++ post))) :
    PageOK A (chargePage s p (A.SLOB_UNITS size) m fl) (⟨x.start + delta, size⟩ :: live) p
      (pre ++ (x.cut delta (A.SLOB_UNITS size) ++ post)) := by
  have htot := total_replace_cut hle pre post
  have hunits : (s.page p).units - A.SLOB_UNITS size =
      total (pre ++ (x.cut delta (A.SLOB_UNITS size) ++ post)) := by
    rw [h.units]; omega
  refine ⟨?_, h.apart.replace_cut hle pre post hu, ?_, ?_, ?_⟩
  · rw [chargePage_mem, chargePage_page]; exact hon
  · rw [chargePage_page]; exact hunits
  · rw [chargePage_page]
    have hpos : 0 < (s.page p).units := by rw [h.units]; omega
    simp only [h.flag.mpr hpos]
    split_ifs with e
    · simp [e]
    · simpa using Nat.pos_of_ne_zero e
  · intro a ha ha'
    have h₁ := h.tiles a ha ha'
    rw [cover_replace_cut hle] at h₁
    rw [spans_cons, cover_cons]
    simp only [cover_cons, cover_nil] at h₁
    show _ + ((if (⟨x.start + delta, A.SLOB_UNITS size⟩ : Span).Has a then 1 else 0) + _) = 1
    omega

/-- A successful `slob_page_alloc` takes its block out of one with room, and writes on free blocks
only. -/
theorem PageOK.pageAlloc {free : List Span} {align addr : ℕ} (h : PageOK A s live p free)
    (hunits : 0 < (s.page p).units) (hpos : 0 < size)
    (he : slobPageAlloc A s p size align = some (s', some addr)) :
    ∃ x ∈ free, HasRoom A (A.SLOB_UNITS size) align x ∧
      addr = x.start + alignDelta A x.start align ∧
      ∃ m fl free', s' = chargePage s p (A.SLOB_UNITS size) m fl ∧ AgreeOff free s.mem m ∧
        PageOK A s' (⟨addr, size⟩ :: live) p free' := by
  obtain ⟨h₁, -⟩ | ⟨pre, x, post, m, fl, addr', rfl, hroom, -, htake, halloc⟩ :=
    slobPageAlloc_cases h.onPage (h.free_ne_nil.mpr hunits) size align
  · rw [he] at h₁
    simp at h₁
  · rw [he] at halloc
    obtain ⟨rfl, rfl⟩ : s' = chargePage s p (A.SLOB_UNITS size) m fl ∧ addr = addr' := by
      simpa using halloc
    have hu := A.units_pos hpos
    obtain ⟨m', fl', htake', hon, hag⟩ := h.onPage.takeBlock hu hroom
    rw [htake] at htake'
    obtain ⟨rfl, rfl, rfl⟩ : m = m' ∧ fl = fl' ∧ addr = x.start + alignDelta A x.start align := by
      simpa using htake'
    refine ⟨x, by simp, hroom, rfl, m, fl, _, rfl, hag.weaken fun a ha => ?_, h.take hu hroom hon⟩
    simp only [cover_append, cover_cons, cover_nil] at ha ⊢
    omega

/-- The pages of a list do not repeat. -/
theorem Rep.not_mem (h : Rep A s live v) {a b : List ℕ} (hl : v.ls c = a ++ p :: b) :
    p ∉ a ++ b := by
  have hnd := (h.rings.circ c).nodup
  rw [List.nodup_map_iff page_injective, hl] at hnd
  exact (List.nodup_cons.mp (List.nodup_middle.mp hnd)).1

/-- **`slob_page_alloc` keeps the representation**: the returned block becomes live, and a page
without free units leaves its list. -/
theorem Rep.pageAlloc (h : Rep A s live v) {a b : List ℕ} {align addr : ℕ}
    (hl : v.ls (slobList size) = a ++ p :: b) (hpos : 0 < size) (hlt : size < A.PAGE_SIZE)
    (he : slobPageAlloc A s p size align = some (s', some addr)) :
    ∃ free, Rep A s' (⟨addr, size⟩ :: live)
        (v.put p (slobList size) free (a ++ if total free = 0 then b else p :: b)) ∧
      A.virtToPage addr = p ∧
      ∃ x ∈ v.free p, HasRoom A (A.SLOB_UNITS size) align x ∧
        addr = x.start + alignDelta A x.start align := by
  obtain ⟨hheld, hcls, hunits⟩ := (h.onList _ p).mp (by rw [hl]; simp)
  have hok := h.pageOK p hheld
  have hnot := h.not_mem hl
  obtain ⟨x, hx, hroom, haddr, m, fl, free, rfl, hag, hok'⟩ := hok.pageAlloc hunits hpos he
  have hon : Within (A.pageAddress p) (A.pageEnd p) [⟨addr, A.SLOB_UNITS size⟩] := by
    obtain ⟨hlo, -, hhi⟩ := hok.onPage.within x hx
    have hu := A.units_pos hpos
    unfold HasRoom at hroom
    unfold Span.fin at hhi
    refine within_cons.mpr ⟨⟨?_, hu, ?_⟩, within_nil _ _⟩
    · show A.pageAddress p ≤ addr
      omega
    · show addr + A.SLOB_UNITS size ≤ A.pageEnd p
      omega
  have hblock : ∀ a, (⟨addr, A.SLOB_UNITS size⟩ : Span).Has a → A.virtToPage a = p :=
    fun a ha => virtToPage_of_within hon (List.mem_singleton.mpr rfl) ha
  obtain ⟨⟨-, hu, hfin⟩, -⟩ := within_cons.mp hon
  have hpg : A.virtToPage addr = p := hblock _ ⟨le_rfl, Nat.lt_add_of_pos_right hu⟩
  have hfull : (s.page p).units - A.SLOB_UNITS size = total free := by
    have := hok'.units
    rw [chargePage_page] at this
    exact this
  refine ⟨free, h.put ?_ ?_ ?_ (h.frame p hheld) ?_ ?_ ?_ ?_ hok' ?_, hpg, x, hx, hroom, haddr⟩
  · intro a ha
    rw [chargePage_mem]
    exact hag a fun y hy hya => ha (virtToPage_of_within hok.onPage.within hy hya)
  · exact fun q hq => chargePage_page_ne s p _ m fl hq
  · rw [chargePage_page]; exact (h.held p).mp hheld
  · rw [chargePage_links, hfull]
    split_ifs
    · exact h.rings.del hl
    · rw [← hl, Function.update_eq_self]; exact h.rings
  · intro d hd hp
    exact hd (hcls ▸ ((h.onList d p).mp hp).2.1.symm)
  · intro q
    rw [hok'.units, hl]
    by_cases e : q = p
    · subst e
      split_ifs with e <;> simp_all [Nat.pos_iff_ne_zero]
    · split_ifs <;> simp [e]
  · intro a ha
    have hno : ¬ (Live.span A ⟨addr, size⟩).Has a := fun e => ha (hblock a e)
    rw [spans_cons, cover_cons, if_neg hno, Nat.zero_add]
  · intro y hy
    rcases List.mem_cons.mp hy with rfl | hy
    · refine ⟨?_, hpos, hlt, ?_, ?_⟩
      · simp [View.put, hpg]
      · simpa [hpg] using hfin
      · simp [View.put, hpg]
    · exact (h.liveOK y hy).put _ _ fun _ => hcls

/-! ## Filing a new page -/

/-- No live block lies on a page that is not held. -/
theorem Rep.cover_live_eq_zero (h : Rep A s live v) {a : ℕ} (ha : A.virtToPage a ∉ v.held) :
    cover (spans A live) a = 0 := by
  refine cover_eq_zero_iff.mpr fun y hy e => ?_
  obtain ⟨b, hb, rfl⟩ := List.mem_map.mp hy
  rw [(h.liveOK b hb).page_of_has e] at ha
  exact ha (h.liveOK b hb).held

theorem Rep.not_mem_ls (h : Rep A s live v) (hp : p ∉ v.held) (c : SizeClass) : p ∉ v.ls c :=
  fun e => hp ((h.onList c p).mp e).1

/-- The page `p`, on no list so far, gets the single free block `d` and goes to the front of a list. -/
theorem Rep.filePage (h : Rep A s live v) {d : Span} {pg : Page} (hoff : ∀ c, p ∉ v.ls c)
    (hpfn : 0 < p ∧ p < A.maxPfn) (hd : Within (A.pageAddress p) (A.pageEnd p) [d])
    (hmem : s'.mem = setSlob A s.mem d.start d.len (A.pageEnd p))
    (hpage : s'.page = Function.update s.page p pg)
    (hpg : pg.slab = true ∧ pg.slobFree = true ∧ pg.units = d.len ∧ pg.freelist = d.start)
    (hrings : Rings s'.links (Function.update v.ls c (p :: v.ls c)))
    (hcover : ∀ a, A.virtToPage a ≠ p → cover (spans A live') a = cover (spans A live) a)
    (htiles : ∀ a, A.pageAddress p ≤ a → a < A.pageEnd p → cover [d] a + cover (spans A live') a = 1)
    (hlive : ∀ b ∈ live', LiveOK A (v.put p c [d] (p :: v.ls c)) b) :
    Rep A s' live' (v.put p c [d] (p :: v.ls c)) := by
  obtain ⟨hslab, hfree, hunits, hfl⟩ := hpg
  obtain ⟨hon, hag⟩ := onPage_setSlob s.mem hd
  have hpos : 0 < d.len := (hd d (by simp)).2.1
  have hpagep : s'.page p = pg := by rw [hpage, Function.update_self]
  refine h.put ?_ ?_ (by rw [hpagep]; exact hslab) hpfn hrings (fun c _ => hoff c) ?_ hcover ?_ hlive
  · intro a ha
    rw [hmem]
    exact hag a fun y hy hya => ha (virtToPage_of_within hd hy hya)
  · intro q hq
    rw [hpage, Function.update_of_ne hq]
  · intro q
    rw [hpagep, hunits]
    by_cases e : q = p
    · simp [e, hpos]
    · simp [e]
  · refine ⟨?_, List.pairwise_singleton _ _, ?_, ?_, htiles⟩
    · rw [hmem, hpagep, hfl]
      exact hon
    · rw [hpagep, hunits]
      simp
    · rw [hpagep, hfree, hunits]
      simpa using hpos

/-- **A new page** is one free block, at the front of its list. -/
theorem Rep.addPage (h : Rep A s live v) (hp : p ∉ v.held) (hpfn : 0 < p ∧ p < A.maxPfn)
    (c : SizeClass) :
    Rep A (addPage A s p c) live
      (v.put p c [⟨A.pageAddress p, A.pageUnits⟩] (p :: v.ls c)) := by
  have hw : Within (A.pageAddress p) (A.pageEnd p) [⟨A.pageAddress p, A.pageUnits⟩] :=
    within_cons.mpr ⟨⟨le_rfl, A.pageUnits_pos, le_rfl⟩, within_nil _ _⟩
  refine h.filePage (h.not_mem_ls hp) hpfn hw rfl (Function.update_idem ..) ⟨?_, rfl, ?_, ?_⟩ ?_
    (fun _ _ => rfl) ?_ ?_
  · simp [State.setPage]
  · simp [State.setPage]
  · simp [State.setPage]
  · refine Rings.add (h.rings.congr ?_) c (h.not_mem_ls hp)
    intro d x hx
    have hxp : x ≠ .page p := by
      rintro rfl
      exact h.not_mem_ls hp d (mem_ring_page.mp hx)
    simp [Links.initListHead, hxp]
  · intro a ha ha'
    rw [h.cover_live_eq_zero (by rw [A.virtToPage_eq ha ha']; exact hp), cover_cons,
      if_pos ⟨ha, ha'⟩]
    rfl
  · intro b hb
    refine (h.liveOK b hb).put _ _ fun e => absurd (h.liveOK b hb).held ?_
    rw [e]; exact hp

/-! ## Changes outside the free memory -/

/-- A change that leaves the free units of the slab pages, their `struct page`s and the links of
the lists alone. -/
structure Outside (A : Arch) (s : State) (live : List Live) (s' : State) : Prop where
  mem : ∀ a, (s.page (A.virtToPage a)).slab = true → cover (spans A live) a = 0 →
    s'.mem a = s.mem a
  page : ∀ p, (s.page p).slab = true → s'.page p = s.page p
  slab : ∀ p, (s'.page p).slab = (s.page p).slab
  nid : ∀ p, (s'.page p).nid = (s.page p).nid
  links : ∀ x, (∀ p, x = .page p → (s.page p).slab = true) →
    s'.links.next x = s.links.next x ∧ s'.links.prev x = s.links.prev x

theorem Rep.outside (h : Rep A s live v) (ho : Outside A s live s') : Rep A s' live v := by
  refine ⟨?_, h.frame, h.rings.congr ?_, ?_, ?_, h.liveOK⟩
  · intro p
    rw [h.held, ho.slab]
  · intro c x hx
    refine ho.links x fun p e => ?_
    subst e
    exact (h.held p).mp ((h.onList c p).mp (mem_ring_page.mp hx)).1
  · intro c p
    rw [h.onList]
    by_cases hp : p ∈ v.held
    · rw [ho.page p ((h.held p).mp hp)]
    · simp [hp]
  · intro p hp
    have hok := h.pageOK p hp
    have hslab := (h.held p).mp hp
    refine hok.congr ?_ (ho.page p hslab) fun _ _ => rfl
    intro b hb a ha
    have hpa := virtToPage_of_within hok.onPage.within hb ha
    have htile := hok.tiles a (hpa ▸ (mem_page a).1) (hpa ▸ (mem_page a).2)
    have := one_le_cover hb ha
    exact ho.mem a (by rw [hpa]; exact hslab) (by omega)

/-- The counter `pages` is no part of the heap. -/
theorem Rep.setPages (h : Rep A s live v) (n : ℕ) : Rep A { s with pages := n } live v :=
  h.outside ⟨fun _ _ _ => rfl, fun _ _ => rfl, fun _ => rfl, fun _ => rfl, fun _ _ => ⟨rfl, rfl⟩⟩

/-- The rotation of a list keeps the representation. -/
theorem Rep.rotate (h : Rep A s live v) {a b : List ℕ} (hl : v.ls c = a ++ b) :
    Rep A { s with links := rotateTo s.links c (lastNode c a) } live
      { v with ls := Function.update v.ls c (b ++ a) } := by
  refine ⟨h.held, h.frame, h.rings.rotateTo hl, ?_, ?_, ?_⟩
  · intro d p
    by_cases hd : d = c
    · subst hd
      have hmem : p ∈ b ++ a ↔ p ∈ v.ls d := by rw [hl]; simp [or_comm]
      simp only [Function.update_self, hmem]
      exact h.onList d p
    · simp only [Function.update_of_ne hd]
      exact h.onList d p
  · intro p hp
    exact (h.pageOK p hp).congr (fun _ _ _ _ => rfl) rfl fun _ _ => rfl
  · intro y hy
    obtain ⟨h₁, h₂, h₃, h₄, h₅⟩ := h.liveOK y hy
    exact ⟨h₁, h₂, h₃, h₄, h₅⟩

end Cs444.Slob
