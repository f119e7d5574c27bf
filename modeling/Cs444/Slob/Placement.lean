import Cs444.Slob.WellFormed

/-!
# Where `slob_alloc` places a block

The page a call is served from is the first choice of the best-fit scan that has room
(`servedPage`). The scan runs only over the pages in front of the page the loop stands at, counts
units and not the blocks they form, and does not look at nodes. Exactly what follows from that:

* `scan_best`: what the scan reads and what it chooses;
* `servedBestFit_iff`: when the call is served from the smallest page with room;
* `noNeedlessPage_iff`: when a page with room saves the call from taking a new one;
* `placedOnNode_iff`: when the block is on the node the caller asked for;
* `pageList_rotated`: where the list starts after the call.
-/

namespace Cs444.Slob

variable (A : Arch)

/-- A call without a node that is served from a page of its list is served from one with enough
units, and no other page of the list with room has fewer. -/
def ServedBestFit (s : State) (size : ℕ) (gfp : Gfp) (align : ℕ) (src : PageSource) : Prop :=
  ∀ s' b, slobAlloc A s size gfp align none src = some (s', some b) →
    A.virtToPage b ∈ pageList A s (slobList size) →
      A.SLOB_UNITS size ≤ (s.page (A.virtToPage b)).units ∧
        ∀ q ∈ pageList A s (slobList size), q ≠ A.virtToPage b → fits A s size align q →
          ¬ (s.page q).units < (s.page (A.virtToPage b)).units

/-- A call without a node that finds a page with room on its list is served from the list, whatever
the page allocator would return. -/
def NoNeedlessPage (s : State) (size : ℕ) (gfp : Gfp) (align : ℕ) : Prop :=
  (∃ p ∈ pageList A s (slobList size), fits A s size align p) →
    ∃ s' b, (∀ src, slobAlloc A s size gfp align none src = some (s', some b)) ∧
      A.virtToPage b ∈ pageList A s (slobList size) ∧ s'.pages = s.pages

/-- A call for the node `n` returns a block of that node. -/
def PlacedOnNode (s : State) (size : ℕ) (gfp : Gfp) (align n : ℕ) (src : PageSource) : Prop :=
  ∀ s' b, slobAlloc A s size gfp align (some n) src = some (s', some b) →
    (s'.page (A.virtToPage b)).nid = n

/-- The units of a page. -/
def State.units (s : State) (sp : ℕ) : ℕ := (s.page sp).units

variable {A} {y : Sys} {size align : ℕ} {gfp : Gfp} {src : PageSource}

theorem onNode_none (s : State) : onNode A s none = fun _ => true := by
  funext sp
  simp [onNode, nodeMismatch]

theorem onNode_some (hnuma : A.numa = true) (s : State) (n sp : ℕ) :
    onNode A s (some n) sp = true ↔ (s.page sp).nid = n := by
  simp [onNode, nodeMismatch, hnuma]

/-- Without a node every page of the list is a candidate. -/
theorem servedPage_none (s : State) (l : List ℕ) :
    servedPage A s size align none l =
      serve s.units (A.SLOB_UNITS size) 50 (fun _ => true) (fits A s size align) [] l := by
  unfold servedPage
  rw [onNode_none]
  rfl

theorem Rep.fits_units {s : State} {live : List Live} {v : View} (h : Rep A s live v)
    (c : SizeClass) (size align : ℕ) :
    ∀ p ∈ v.ls c, fits A s size align p → A.SLOB_UNITS size ≤ s.units p :=
  fun _ hp hf => h.units_of_fits hp hf

/-- A block on a page of the list was served from there: a new page is on no list. -/
theorem Rep.served_of_mem {s s' : State} {live : List Live} {v : View} (h : Rep A s live v)
    {node : Option ℕ} {b : ℕ} (hpos : 0 < size) (hlt : size < A.PAGE_SIZE)
    (hfresh : Fresh A s src node) (he : slobAlloc A s size gfp align node src = some (s', some b))
    (hmem : A.virtToPage b ∈ v.ls (slobList size)) :
    servedPage A s size align node (v.ls (slobList size)) = some (A.virtToPage b) := by
  rcases h.slobAlloc_cases hpos hlt hfresh he with ⟨h₁, -⟩ |
    ⟨p, addr, v', h₁, hal, ⟨hs, -⟩ | ⟨-, hnew, -⟩⟩
  · cases h₁
  · cases h₁
    rw [hal.page]
    exact hs
  · cases h₁
    rw [hal.page] at hmem
    exact absurd ((h.onList _ p).mp hmem).1 hnew

/-! ## Best fit -/

/-- **The best-fit scan** from the head of a list to its page `sp` takes only pages of the list for
pages, the first 50 up to `sp`, and chooses one with the least units among `sp` and those of them that
have enough. -/
theorem scan_best {s : State} {c : SizeClass} {a b : List ℕ} {sp : ℕ}
    (hlist : s.links.Circ (.head c) ((a ++ sp :: b).map .page))
    (hunits : A.SLOB_UNITS size ≤ (s.page sp).units) :
    scanned s (.page sp) 50 (.head c) = ((a ++ [sp]).take 50).map .page ∧
      ∃ best, scan s (A.SLOB_UNITS size) (.page sp) 50 (.head c) (.page sp) = .page best ∧
        best ∈ a ++ sp :: b ∧ best ∈ sp :: (a ++ [sp]).take 50 ∧
        A.SLOB_UNITS size ≤ (s.page best).units ∧
        ∀ q ∈ sp :: (a ++ [sp]).take 50, A.SLOB_UNITS size ≤ (s.page q).units →
          (s.page best).units ≤ (s.page q).units := by
  obtain ⟨hscan, hscanned⟩ := scan_eq (a := []) hlist (A.SLOB_UNITS size) 50 sp
  have hmem := bestOf_mem (fun sp => (s.page sp).units) (A.SLOB_UNITS size) sp ((a ++ [sp]).take 50)
  have hle : (s.page (bestOf (fun sp => (s.page sp).units) (A.SLOB_UNITS size) sp
      ((a ++ [sp]).take 50))).units ≤ (s.page sp).units :=
    bestOf_le (u := fun sp => (s.page sp).units) sp _
  obtain ⟨henough, hleast⟩ := bestOf_least (u := fun sp => (s.page sp).units)
    (a := (a ++ [sp]).take 50) hunits
  refine ⟨hscanned, _, hscan, ?_, hmem, henough, ?_⟩
  · rcases List.mem_cons.mp hmem with h | h
    · rw [h]
      simp
    · have hpre := List.mem_of_mem_take h
      simp only [List.mem_append, List.mem_singleton] at hpre
      simp only [List.mem_append, List.mem_cons]
      tauto
  · intro q hq hwant
    rcases List.mem_cons.mp hq with rfl | hq
    · exact hle
    · exact hleast q hq hwant

/-- **Best fit.** A call on at most 50 pages is served from the smallest page with room exactly when
every page with room that has a smaller one behind it on the list has one with enough units in
front of it, too. -/
theorem servedBestFit_iff (h : Reachable A y)
    (hlegal : Legal A y (.alloc size gfp align none src))
    (hlen : (pageList A y.st (slobList size)).length ≤ 50) :
    ServedBestFit A y.st size gfp align src ↔
      ∀ a p b, pageList A y.st (slobList size) = a ++ p :: b → fits A y.st size align p →
        ∀ q ∈ b, fits A y.st size align q → y.st.units q < y.st.units p →
          ∃ r ∈ a, A.SLOB_UNITS size ≤ y.st.units r ∧ y.st.units r < y.st.units p := by
  obtain ⟨v, hrep, -⟩ := reachable_inv h
  obtain ⟨hpos, hlt, hfresh⟩ := hlegal
  unfold ServedBestFit
  rw [hrep.pageList_eq] at hlen ⊢
  rw [← serve_smallest_iff (hrep.fits_units _ size align) hlen]
  constructor
  · intro hserved q hq r hr hne hf hless
    rw [← servedPage_none] at hq
    obtain ⟨s', addr, v', hall, hal, -⟩ := hrep.slobAlloc_served gfp hpos hlt hq
    obtain ⟨-, hbest⟩ := hserved s' addr (hall src) (by rw [hal.page]; exact (serve_mem hq).1)
    rw [hal.page] at hbest
    exact hbest r hr hne hf hless
  · intro hserve s' b hall hmem
    have hs := hrep.served_of_mem hpos hlt hfresh hall hmem
    rw [servedPage_none] at hs
    obtain ⟨-, -, -, hw, -⟩ := serve_cand hs rfl
    exact ⟨hw, hserve _ hs⟩

/-- A page allocator with the single page frame `p` left. -/
def onePage (p : ℕ) : PageSource := ⟨some p, fun _ => some p⟩

/-- A page allocator with nothing left. -/
def noPage : PageSource := ⟨none, fun _ => none⟩

/-- A call `slob_alloc(size, 0, 0, NUMA_NO_NODE)`, with `p` the next page frame. -/
def take (size p : ℕ) : Call := .alloc size ⟨false⟩ 0 none (onePage p)

/-- The pages 2 and 1 have 598 and 548 free units; from page 1 the scan chooses page 1. -/
theorem scan_best_second :
    ∃ y, Reachable (i386 false) y ∧ pageList (i386 false) y.st .large = [2, 1] ∧
      ∃ best, scan y.st ((i386 false).SLOB_UNITS 1024) (.page 1) 50 (.head .large) (.page 1) =
        .page best ∧ (y.st.page best).units ≤ 548 := by
  obtain ⟨y, hy, hP⟩ := exists_reachable (i386 false) [take 3000 1, take 2900 2]
    (fun y => decide (pageList (i386 false) y.st .large = [2, 1] ∧ (y.st.page 1).units = 548 ∧
      (i386 false).SLOB_UNITS 1024 = 512)) (by decide +kernel)
  obtain ⟨hl, hunits, hsize⟩ := of_decide_eq_true hP
  obtain ⟨v, hrep, -⟩ := reachable_inv hy
  have hlist := hrep.rings.circ .large
  rw [← hrep.pageList_eq, hl] at hlist
  have hwant : (i386 false).SLOB_UNITS 1024 ≤ (y.st.page 1).units := by omega
  obtain ⟨-, best, hscan, -, -, -, hleast⟩ := scan_best (a := [2]) (b := []) hlist hwant
  refine ⟨y, hy, hl, best, hscan, ?_⟩
  rw [← hunits]
  exact hleast 1 (by simp) hwant

/-- The places of a list of two. -/
theorem append_cons_eq_pair {a b : List ℕ} {p x z : ℕ} (h : a ++ p :: b = [x, z]) :
    a = [] ∧ p = x ∧ b = [z] ∨ a = [x] ∧ p = z ∧ b = [] := by
  rcases a with _ | ⟨w, _ | ⟨w', a⟩⟩
  · simpa using h
  · simpa using h
  · simp at h

/-- The pages 2 and 1 have 548 and 598 free units. A request for 1024 bytes, 512 units, takes page 2. -/
theorem servedBestFit_two_pages :
    ∃ y, Reachable (i386 false) y ∧ pageList (i386 false) y.st (slobList 1024) = [2, 1] ∧
      (y.st.units 2 = 548 ∧ y.st.units 1 = 598 ∧ fits (i386 false) y.st 1024 0 2 = true ∧
        fits (i386 false) y.st 1024 0 1 = true) ∧
      ServedBestFit (i386 false) y.st 1024 ⟨false⟩ 0 noPage := by
  obtain ⟨y, hy, hP⟩ := exists_reachable (i386 false) [take 2900 1, take 3000 2]
    (fun y => decide (pageList (i386 false) y.st (slobList 1024) = [2, 1] ∧
      (y.st.units 2 = 548 ∧ y.st.units 1 = 598 ∧ fits (i386 false) y.st 1024 0 2 = true ∧
        fits (i386 false) y.st 1024 0 1 = true) ∧
      Legal (i386 false) y (.alloc 1024 ⟨false⟩ 0 none noPage))) (by decide +kernel)
  obtain ⟨hl, hunits, hlegal⟩ := of_decide_eq_true hP
  refine ⟨y, hy, hl, hunits, (servedBestFit_iff hy hlegal (by rw [hl]; decide)).mpr ?_⟩
  intro a p b hab _ q hq _ hless
  rw [hl] at hab
  obtain ⟨rfl, rfl, rfl⟩ | ⟨rfl, rfl, rfl⟩ := append_cons_eq_pair hab.symm
  · -- the other page is larger
    obtain rfl := List.mem_singleton.mp hq
    rw [hunits.1, hunits.2.1] at hless
    exact absurd hless (by decide)
  · cases hq

/-- After allocations of 3000 and 2900 bytes the list is the page 2 with 598 free units and the page
1 with 548. A request for 1024 bytes, 512 units, takes page 2. -/
theorem servedBestFit_fails :
    ∃ y, Reachable (i386 false) y ∧ Legal (i386 false) y (.alloc 1024 ⟨false⟩ 0 none noPage) ∧
      (pageList (i386 false) y.st (slobList 1024)).length ≤ 50 ∧
      ¬ ServedBestFit (i386 false) y.st 1024 ⟨false⟩ 0 noPage := by
  obtain ⟨y, hy, hP⟩ := exists_reachable (i386 false) [take 3000 1, take 2900 2]
    (fun y => decide (Legal (i386 false) y (.alloc 1024 ⟨false⟩ 0 none noPage) ∧
      pageList (i386 false) y.st (slobList 1024) = [2, 1] ∧
      (y.st.page 1).units < (y.st.page 2).units ∧ fits (i386 false) y.st 1024 0 1 = true ∧
      (slobAlloc (i386 false) y.st 1024 ⟨false⟩ 0 none noPage).any
        fun r => r.2 = some 5546)) (by decide +kernel)
  obtain ⟨hlegal, hl, hlt, hfit, halloc⟩ := of_decide_eq_true hP
  refine ⟨y, hy, hlegal, by rw [hl]; decide, ?_⟩
  intro hbest
  obtain ⟨⟨s', r⟩, hr, hr'⟩ := (Option.any_eq_true _ _).mp halloc
  obtain rfl : r = some 5546 := of_decide_eq_true hr'
  have hpage : (i386 false).virtToPage 5546 = 2 := by decide
  obtain ⟨-, h⟩ := hbest s' 5546 hr (by rw [hl, hpage]; decide)
  rw [hpage, hl] at h
  exact h 1 (by decide) (by decide) hfit hlt

/-! ## New pages -/

/-- **No needless page.** A page with room on the list serves the call exactly when some page with
room has no smaller page with enough units among the first 50 in front of it. -/
theorem noNeedlessPage_iff (h : Reachable A y) (hpos : 0 < size) (hlt : size < A.PAGE_SIZE) :
    NoNeedlessPage A y.st size gfp align ↔
      ((∃ p ∈ pageList A y.st (slobList size), fits A y.st size align p) →
        ∃ a p b, pageList A y.st (slobList size) = a ++ p :: b ∧ fits A y.st size align p ∧
          ∀ r ∈ a.take 50, A.SLOB_UNITS size ≤ y.st.units r → y.st.units p ≤ y.st.units r) := by
  obtain ⟨v, hrep, -⟩ := reachable_inv h
  unfold NoNeedlessPage
  rw [hrep.pageList_eq]
  refine imp_congr_right fun _ => ?_
  have hsome := serve_isSome_iff (n := 50) (hrep.fits_units (slobList size) size align)
  unfold Record at hsome
  rw [← hsome, ← servedPage_none]
  constructor
  · rintro ⟨s', b, hall, -⟩
    by_contra hno
    rw [Bool.not_eq_true, Option.isSome_eq_false_iff, Option.isNone_iff_eq_none] at hno
    -- an empty page allocator would have made the call return `NULL`
    have hnull := hall ⟨none, fun _ => none⟩
    rw [hrep.slobAlloc_null gfp hno rfl] at hnull
    cases hnull
  · intro hs
    obtain ⟨p, hp⟩ := Option.isSome_iff_exists.mp hs
    obtain ⟨s', addr, v', hall, hal, -, hpages, -⟩ := hrep.slobAlloc_served gfp hpos hlt hp
    exact ⟨s', addr, hall, by rw [hal.page]; exact (serve_mem hp).1, hpages⟩

/-- The page 1 has two holes of 512 units and stands in front of the page 5 with 898 free units. A
request for 1200 bytes, 600 units, fails on page 1 and is served from page 5. -/
theorem noNeedlessPage_second_page :
    ∃ y, Reachable (i386 false) y ∧ pageList (i386 false) y.st (slobList 1200) = [1, 5] ∧
      (600 ≤ y.st.units 1 ∧ fits (i386 false) y.st 1200 0 1 = false ∧
        fits (i386 false) y.st 1200 0 5 = true) ∧
      NoNeedlessPage (i386 false) y.st 1200 ⟨false⟩ 0 := by
  obtain ⟨y, hy, hP⟩ := exists_reachable (i386 false)
    [take 1024 1, take 1024 2, take 1024 3, take 1024 4, take 2300 5, .free ⟨2048, 1024⟩,
      .free ⟨3072, 1024⟩]
    (fun y => decide (pageList (i386 false) y.st (slobList 1200) = [1, 5] ∧
      (600 ≤ y.st.units 1 ∧ fits (i386 false) y.st 1200 0 1 = false ∧
        fits (i386 false) y.st 1200 0 5 = true) ∧ y.st.units 5 ≤ y.st.units 1)) (by decide +kernel)
  obtain ⟨hl, hfit, hle⟩ := of_decide_eq_true hP
  refine ⟨y, hy, hl, hfit, (noNeedlessPage_iff hy (by decide) (by decide)).mpr ?_⟩
  intro _
  refine ⟨[1], 5, [], hl, hfit.2.2, ?_⟩
  intro r hr _
  obtain rfl := List.mem_singleton.mp hr
  exact hle

/-- Four blocks of 1024 bytes fill the page 1 and a fifth starts the page 5; freeing the first and
the third leaves page 1 with two holes of 512 units, in front of page 5 with 1536 free units. A
request for 1200 bytes, 600 units, tries page 1 twice and takes a new page. -/
theorem noNeedlessPage_fails :
    ∃ y, Reachable (i386 false) y ∧ ¬ NoNeedlessPage (i386 false) y.st 1200 ⟨false⟩ 0 := by
  obtain ⟨y, hy, hP⟩ := exists_reachable (i386 false)
    [take 1024 1, take 1024 2, take 1024 3, take 1024 4, take 1024 5, .free ⟨2048, 1024⟩,
      .free ⟨3072, 1024⟩]
    (fun y => decide (pageList (i386 false) y.st (slobList 1200) = [1, 5] ∧
      fits (i386 false) y.st 1200 0 5 = true ∧
      (slobAlloc (i386 false) y.st 1200 ⟨false⟩ 0 none (onePage 7)).any
        fun r => r.2 = some 14336)) (by decide +kernel)
  obtain ⟨hl, hfit, halloc⟩ := of_decide_eq_true hP
  refine ⟨y, hy, ?_⟩
  intro hno
  obtain ⟨⟨s', r⟩, hr, hr'⟩ := (Option.any_eq_true _ _).mp halloc
  obtain rfl : r = some 14336 := of_decide_eq_true hr'
  obtain ⟨s₁, b, hall, hb, -⟩ := hno ⟨5, by rw [hl]; decide, hfit⟩
  rw [hall] at hr
  obtain ⟨-, hb'⟩ : s₁ = s' ∧ b = 14336 := by simpa using hr
  rw [hb', hl] at hb
  exact absurd hb (by decide)

/-! ## Nodes -/

/-- **Node placement.** With `CONFIG_NUMA`, the block is on the node asked for exactly when every
page of another node that has room and that the scan prefers to a page of the node is behind a page
of the node that has room and that no page with enough units in front of it undercuts. -/
theorem placedOnNode_iff {n : ℕ} (hnuma : A.numa = true) (h : Reachable A y)
    (hlegal : Legal A y (.alloc size gfp align (some n) src))
    (hnode : ∀ p ∈ src.allocPagesExactNode n, (y.st.page p).nid = n) :
    PlacedOnNode A y.st size gfp align n src ↔
      ∀ a p b q, pageList A y.st (slobList size) = a ++ p :: b → (y.st.page p).nid = n →
        A.SLOB_UNITS size ≤ y.st.units p →
        FirstBest y.st.units (A.SLOB_UNITS size) (a.take 50) p q → fits A y.st size align q →
        (y.st.page q).nid ≠ n →
        ∃ c r d, a = c ++ r :: d ∧ (y.st.page r).nid = n ∧ fits A y.st size align r ∧
          Record y.st.units (A.SLOB_UNITS size) (c.take 50) r := by
  obtain ⟨v, hrep, -⟩ := reachable_inv h
  obtain ⟨hpos, hlt, hfresh⟩ := hlegal
  have hiff := serve_cand_iff (hrep.fits_units (slobList size) size align) 50
    (onNode A y.st (some n))
  simp only [onNode_some hnuma] at hiff
  rw [hrep.pageList_eq, ← hiff]
  constructor
  · intro hplaced q hq
    obtain ⟨s', addr, v', hall, hal, -⟩ := hrep.slobAlloc_served gfp hpos hlt hq
    rw [← hal.nid q, ← hal.page]
    exact hplaced s' addr (hall src)
  · intro hserve s' b hall
    rcases hrep.slobAlloc_cases hpos hlt hfresh hall with ⟨h₁, -⟩ |
      ⟨p, addr, v', h₁, hal, ⟨hs, -⟩ | ⟨hnew, -⟩⟩
    · cases h₁
    · cases h₁
      rw [hal.nid, hal.page]
      exact hserve p hs
    · cases h₁
      rw [hal.nid, hal.page]
      refine hnode p ?_
      simpa [slobNewPages, hnuma] using hnew

/-- The page 3 of node 1 has 1536 free units and stands in front of the page 2 of node 0, which has
1024. A request for 1024 bytes on node 0 is served from page 2. -/
theorem placedOnNode_two_nodes :
    ∃ y, Reachable (i386 true) y ∧ pageList (i386 true) y.st (slobList 1024) = [3, 2] ∧
      ((y.st.page 3).nid = 1 ∧ (y.st.page 2).nid = 0 ∧ (y.st.page 4).nid = 0 ∧
        (slobAlloc (i386 true) y.st 1024 ⟨false⟩ 0 (some 0) (onePage 4)).any
          fun r => r.2.any fun b => (i386 true).virtToPage b = 2) ∧
      PlacedOnNode (i386 true) y.st 1024 ⟨false⟩ 0 0 (onePage 4) := by
  obtain ⟨y, hy, hP⟩ := exists_reachable (i386 true)
    [.alloc 2048 ⟨false⟩ 0 (some 0) (onePage 2), .alloc 1024 ⟨false⟩ 0 (some 1) (onePage 3)]
    (fun y => decide (pageList (i386 true) y.st (slobList 1024) = [3, 2] ∧
      ((y.st.page 3).nid = 1 ∧ (y.st.page 2).nid = 0 ∧ (y.st.page 4).nid = 0 ∧
        (slobAlloc (i386 true) y.st 1024 ⟨false⟩ 0 (some 0) (onePage 4)).any
          fun r => r.2.any fun b => (i386 true).virtToPage b = 2) ∧
      y.st.units 2 ≤ y.st.units 3 ∧ Legal (i386 true) y (.alloc 1024 ⟨false⟩ 0 (some 0) (onePage 4))))
    (by decide +kernel)
  obtain ⟨hl, hnodes, hle, hlegal⟩ := of_decide_eq_true hP
  refine ⟨y, hy, hl, hnodes, (placedOnNode_iff rfl hy hlegal ?_).mpr ?_⟩
  · rintro p ⟨⟩
    exact hnodes.2.2.1
  · rintro a p b q hab hp _ ⟨a₁, a₂, ha, -, hless, -⟩ - -
    rw [hl] at hab
    obtain ⟨rfl, rfl, rfl⟩ | ⟨rfl, rfl, rfl⟩ := append_cons_eq_pair hab.symm
    · rw [hnodes.1] at hp
      cases hp
    · -- the scan does not prefer the page in front
      have hq : q ∈ [3].take 50 := by
        rw [ha]
        exact List.mem_append_right _ List.mem_cons_self
      obtain rfl := List.mem_singleton.mp hq
      exact absurd hless (Nat.not_lt.mpr hle)

/-- The page 3 of node 1 has 1024 free units and stands in front of the page 2 of node 0, which has
1536. A request for 1024 bytes on node 0 takes page 3. -/
theorem placedOnNode_fails :
    ∃ y, Reachable (i386 true) y ∧
      Legal (i386 true) y (.alloc 1024 ⟨false⟩ 0 (some 0) (onePage 4)) ∧
      (∀ p ∈ (onePage 4).allocPagesExactNode 0, (y.st.page p).nid = 0) ∧
      ¬ PlacedOnNode (i386 true) y.st 1024 ⟨false⟩ 0 0 (onePage 4) := by
  obtain ⟨y, hy, hP⟩ := exists_reachable (i386 true)
    [.alloc 1024 ⟨false⟩ 0 (some 0) (onePage 2), .alloc 2048 ⟨false⟩ 0 (some 1) (onePage 3)]
    (fun y => decide (Legal (i386 true) y (.alloc 1024 ⟨false⟩ 0 (some 0) (onePage 4)) ∧
      (y.st.page 4).nid = 0 ∧
      (slobAlloc (i386 true) y.st 1024 ⟨false⟩ 0 (some 0) (onePage 4)).any
        fun r => r.2 = some 7168 ∧ (r.1.page 3).nid = 1)) (by decide +kernel)
  obtain ⟨hlegal, hnid, halloc⟩ := of_decide_eq_true hP
  refine ⟨y, hy, hlegal, ?_, ?_⟩
  · rintro p ⟨⟩
    exact hnid
  · intro hplaced
    obtain ⟨⟨s', r⟩, hr, hr'⟩ := (Option.any_eq_true _ _).mp halloc
    obtain ⟨rfl, hnid'⟩ : r = some 7168 ∧ (s'.page 3).nid = 1 := of_decide_eq_true hr'
    have hpage : (i386 true).virtToPage 7168 = 3 := by decide
    have h := hplaced s' 7168 hr
    rw [hpage, hnid'] at h
    cases h

/-! ## Rotation -/

/-- **Rotation.** A call served from a page of its list leaves the list starting at that page, or at
the page behind it when nothing is left on it, with the cyclic order of the other pages and the other
two lists as they were. -/
theorem pageList_rotated {node : Option ℕ} {s' : State} {addr : ℕ} (h : Reachable A y)
    (hlegal : Legal A y (.alloc size gfp align node src))
    (he : slobAlloc A y.st size gfp align node src = some (s', some addr))
    (hmem : A.virtToPage addr ∈ pageList A y.st (slobList size)) :
    (∃ a b, pageList A y.st (slobList size) = a ++ A.virtToPage addr :: b ∧
        pageList A s' (slobList size) =
          (if (s'.page (A.virtToPage addr)).units = 0 then b ++ a
            else A.virtToPage addr :: (b ++ a))) ∧
      (∀ c ≠ slobList size, pageList A s' c = pageList A y.st c) ∧
      ∀ c, s'.links.Circ (.head c) ((pageList A s' c).map .page) := by
  obtain ⟨v, hrep, -⟩ := reachable_inv h
  obtain ⟨hpos, hlt, hfresh⟩ := hlegal
  rw [hrep.pageList_eq] at hmem
  have hs := hrep.served_of_mem hpos hlt hfresh he hmem
  obtain ⟨s₁, addr₁, v₁, hall, hal, -, -, a, b, hl, hls⟩ := hrep.slobAlloc_served gfp hpos hlt hs
  rw [hall src] at he
  obtain ⟨rfl, rfl⟩ : s₁ = s' ∧ addr₁ = addr := by simpa using he
  simp only [hrep.pageList_eq, hal.rep.pageList_eq]
  refine ⟨⟨a, b, hl, ?_⟩, ?_, fun c => hal.rep.rings.circ c⟩
  · rw [hls, Function.update_self]
    split_ifs <;> rfl
  · intro c hc
    rw [hls, Function.update_of_ne hc]

/-- The pages 2 and 1 have 548 and 598 free units; a request for 1190 bytes, 595 units, is served from
page 1 and the list starts there. -/
theorem pageList_rotated_second :
    ∃ y s' addr, Reachable (i386 false) y ∧ pageList (i386 false) y.st .large = [2, 1] ∧
      slobAlloc (i386 false) y.st 1190 ⟨false⟩ 0 none noPage = some (s', some addr) ∧
      pageList (i386 false) s' .large = [1, 2] := by
  obtain ⟨y, hy, hP⟩ := exists_reachable (i386 false) [take 2900 1, take 3000 2]
    (fun y => decide (Legal (i386 false) y (.alloc 1190 ⟨false⟩ 0 none noPage) ∧
      pageList (i386 false) y.st .large = [2, 1] ∧
      (slobAlloc (i386 false) y.st 1190 ⟨false⟩ 0 none noPage).any
        fun r => r.2 = some 3498 ∧ (r.1.page 1).units = 3)) (by decide +kernel)
  obtain ⟨hlegal, hl, halloc⟩ := of_decide_eq_true hP
  obtain ⟨⟨s', r⟩, hr, hr'⟩ := (Option.any_eq_true _ _).mp halloc
  obtain ⟨rfl, hunits⟩ : r = some 3498 ∧ (s'.page 1).units = 3 := of_decide_eq_true hr'
  have hpage : (i386 false).virtToPage 3498 = 1 := by decide
  have hlarge : slobList 1190 = .large := rfl
  obtain ⟨⟨a, b, hab, hrot⟩, -⟩ := pageList_rotated hy hlegal hr (by rw [hlarge, hl, hpage]; decide)
  rw [hlarge, hpage, hunits] at hrot
  rw [hlarge, hpage, hl] at hab
  obtain ⟨-, hp, -⟩ | ⟨rfl, -, rfl⟩ := append_cons_eq_pair hab.symm
  · cases hp
  exact ⟨y, s', 3498, hy, hl, hr, by simpa using hrot⟩

end Cs444.Slob
