import Cs444.Lib.Threads
import Cs444.Slob.Accounting

/-!
# The system call on several CPUs

CPUs run `slob_alloc`, `slob_free` and `sys_slob_units_used` at the same time. One step is a section
under `slob_lock`, a `pages++` or `pages--`, or the read of `pages`; `sys_slob_units_used` may take its
two values in either order. The counter is changed outside the lock, after the lists.

* `slobAlloc_moves`, `slobFree_moves`: a CPU that is alone does what `slobAlloc` and `slobFree` do.
* `Inv`: `pages` counts the slab pages without those whose `pages++` is outstanding and with those
  whose `pages--` is.
* `units_used_nonneg`: the call does not go below zero when no `pages++` is outstanding as it reads
  `pages`, and when between its two reads no page is filed, or no `pages--` is made, whichever could
  spoil what it has read first.
-/

namespace Cs444.Slob

/-! ## The code -/

/-- Where a CPU is. -/
inductive Cpu
  | idle
  /-- The lists have no room: `slob_new_pages` comes next. -/
  | newPage (size align : ℕ) (node : Option ℕ)
  /-- `pages++` comes next, then the block is returned. -/
  | count (b : Live)
  /-- `pages--` comes next. -/
  | uncount
  /-- `sys_slob_units_used` has read `pages`. -/
  | hasPages (pages : ℕ)
  /-- `sys_slob_units_used` has called `free_units`. -/
  | hasFree (free : ℕ)
  /-- `sys_slob_units_used` has both values. -/
  | used (pages free : ℕ)
  deriving DecidableEq, Repr

/-- What a CPU does next, where the code leaves it open. -/
inductive Input
  | alloc (size align : ℕ) (node : Option ℕ)
  | newPages (src : PageSource)
  | free (b : Live)
  | readPages
  | callFreeUnits
  /-- Write a unit that is not the allocator's, as `memset(b, 0, size)` does. -/
  | write (a : ℕ) (u : ℤ)
  /-- Change the `struct page` of a frame that is not a slab page. -/
  | setPage (p : ℕ) (units freelist : ℕ) (slobFree : Bool)
  /-- Change the list field of a frame that is not a slab page. -/
  | setLinks (p : ℕ) (next prev : Node)
  /-- Nothing is left open. -/
  | next

/-- The allocator, the live blocks, and those of them that `slob_alloc` has not returned yet. -/
structure Shared where
  st : State
  live : List Live
  unreturned : List Live

section Code

variable (A : Arch) {ι : Type*}

/-- A step of a CPU that is in none of the functions. Blocks are freed when they have been returned. -/
def idleStep (x : Input) (y : Shared) : Option (Cpu × Shared) :=
  match x with
  | .alloc size align node =>
    if 0 < size ∧ size < A.PAGE_SIZE then
      (lockedSearch A y.st size align node).map fun q =>
        match q.2 with
        | some b => (.idle, { y with st := q.1, live := ⟨b, size⟩ :: y.live })
        | none => (.newPage size align node, { y with st := q.1 })
    else none
  | .free b =>
    if b ∈ y.live ∧ b ∉ y.unreturned then
      (lockedFree A y.st b.addr b.size).map fun q =>
        (if q.2 then .uncount else .idle, { y with st := q.1, live := y.live.erase b })
    else none
  | .readPages => some (.hasPages y.st.pages, y)
  | .callFreeUnits => some (.hasFree (freeUnits A y.st), y)
  | .write a u =>
    if (y.st.page (A.virtToPage a)).slab = false ∨ 0 < cover (spans A y.live) a then
      some (.idle, { y with st := { y.st with mem := Function.update y.st.mem a u } })
    else none
  | .setPage p units freelist slobFree =>
    if (y.st.page p).slab = false then
      some (.idle, { y with st := y.st.setPage p ⟨units, freelist, false, slobFree, (y.st.page p).nid⟩ })
    else none
  | .setLinks p next prev =>
    if (y.st.page p).slab = false then
      some (.idle, { y with st := { y.st with
        links := ⟨Function.update y.st.links.next (.page p) next,
          Function.update y.st.links.prev (.page p) prev⟩ } })
    else none
  | _ => none

/-- The page allocator answers `slob_alloc`. -/
def newPageStep (size align : ℕ) (node : Option ℕ) (src : PageSource) (y : Shared) :
    Option (Cpu × Shared) :=
  match slobNewPages A src node with
  | none => some (.idle, y)
  | some p =>
    if (y.st.page p).slab = false ∧ 0 < p ∧ p < A.maxPfn then
      match lockedNewPage A y.st p size align with
      | some (s, some b) =>
        some (.count ⟨b, size⟩, ⟨s, ⟨b, size⟩ :: y.live, ⟨b, size⟩ :: y.unreturned⟩)
      | _ => none -- BUG_ON(!b)
    else none

/-- One step of a CPU. -/
def cpus : Prog ι Input Cpu Shared := fun _ x cpu y =>
  match cpu with
  | .idle => idleStep A x y
  | .newPage size align node =>
    match x with
    | .newPages src => newPageStep A size align node src y
    | _ => none
  | .count b =>
    some (.idle, { y with st := incPages A y.st, unreturned := y.unreturned.erase b })
  | .uncount => some (.idle, { y with st := decPages A y.st })
  | .hasPages pages => some (.used pages (freeUnits A y.st), y)
  | .hasFree free => some (.used y.st.pages free, y)
  | .used _ _ => some (.idle, y)

/-- What `sys_slob_units_used` returns. -/
def unitsUsed (pages free : ℕ) : ℤ := A.toLong ((A.SLOB_UNITS A.PAGE_SIZE * pages : ℕ) - (free : ℤ))

/-- All CPUs are idle and no block has been allocated. -/
def Booted (c : Conf ι Cpu Shared) : Prop :=
  (∀ i, c.loc i = .idle) ∧ Initial c.sh.st ∧ c.sh.live = [] ∧ c.sh.unreturned = []

end Code

/-! ## When the call reads the two values -/

def Cpu.counting : Cpu → Bool
  | .count _ => true
  | _ => false

def Cpu.uncounting : Cpu → Bool
  | .uncount => true
  | _ => false

def Cpu.hasReadPages : Cpu → Bool
  | .hasPages _ => true
  | _ => false

def Cpu.hasReadFree : Cpu → Bool
  | .hasFree _ => true
  | _ => false

/-- The step reads `pages` for `sys_slob_units_used`. -/
def Cpu.readsPages : Cpu → Input → Bool
  | .idle, .readPages => true
  | .hasFree _, _ => true
  | _, _ => false

/-- The step files a new page. -/
def Cpu.files (A : Arch) : Cpu → Input → Bool
  | .newPage _ _ node, .newPages src => (slobNewPages A src node).isSome
  | _, _ => false

section Condition

variable {ι : Type*} [Fintype ι]

/-- When `sys_slob_units_used` reads `pages`, no `pages++` is outstanding and the units of that many
pages fit in a `long` (fewer than half as many CPUs as a word can count are about to do `pages--`). After
it has read `pages` no page is filed, and after it has called `free_units` no `pages--` is made, until it
has the other value. -/
structure Settled (A : Arch) (c : Conf ι Cpu Shared) (i : ι) (x : Input) : Prop where
  counted : (c.loc i).readsPages x = true → count (fun _ => Cpu.counting) c.loc = 0
  fits : (c.loc i).readsPages x = true →
    2 * (A.pageUnits * c.sh.st.pages) < 2 ^ A.wordBits ∧
      2 * count (fun _ => Cpu.uncounting) c.loc < 2 ^ A.wordBits
  filed : (c.loc i).files A x = true → count (fun _ => Cpu.hasReadPages) c.loc = 0
  uncounted : (c.loc i).uncounting = true → count (fun _ => Cpu.hasReadFree) c.loc = 0

instance (A : Arch) (c : Conf ι Cpu Shared) (i : ι) (x : Input) : Decidable (Settled A c i x) :=
  decidable_of_iff (((c.loc i).readsPages x = true → count (fun _ => Cpu.counting) c.loc = 0) ∧
    ((c.loc i).readsPages x = true → 2 * (A.pageUnits * c.sh.st.pages) < 2 ^ A.wordBits ∧
      2 * count (fun _ => Cpu.uncounting) c.loc < 2 ^ A.wordBits) ∧
    ((c.loc i).files A x = true → count (fun _ => Cpu.hasReadPages) c.loc = 0) ∧
    ((c.loc i).uncounting = true → count (fun _ => Cpu.hasReadFree) c.loc = 0))
    ⟨fun ⟨h₁, h₂, h₃, h₄⟩ => ⟨h₁, h₂, h₃, h₄⟩, fun ⟨h₁, h₂, h₃, h₄⟩ => ⟨h₁, h₂, h₃, h₄⟩⟩

end Condition

/-! ## What a step can do -/

section Step

variable {A : Arch} {ι : Type*} {i : ι} {x : Input} {cpu cpu' : Cpu} {y y' : Shared} {s s' : State}
  {live : List Live} {v : View} {size align p : ℕ} {node r : Option ℕ}

/-- The steps of a CPU. -/
inductive CpuStep (A : Arch) (y : Shared) : Cpu → Input → Cpu → Shared → Prop
  | served {size align b : ℕ} {node : Option ℕ} {s' : State} (hpos : 0 < size)
      (hlt : size < A.PAGE_SIZE) (h : lockedSearch A y.st size align node = some (s', some b)) :
      CpuStep A y .idle (.alloc size align node) .idle { y with st := s', live := ⟨b, size⟩ :: y.live }
  | unserved {size align : ℕ} {node : Option ℕ} {s' : State} (hpos : 0 < size)
      (hlt : size < A.PAGE_SIZE) (h : lockedSearch A y.st size align node = some (s', none)) :
      CpuStep A y .idle (.alloc size align node) (.newPage size align node) { y with st := s' }
  | null {size align : ℕ} {node : Option ℕ} {src : PageSource} :
      CpuStep A y (.newPage size align node) (.newPages src) .idle y
  | filed {size align p b : ℕ} {node : Option ℕ} {src : PageSource} {s' : State}
      (hsrc : slobNewPages A src node = some p) (hslab : (y.st.page p).slab = false)
      (hpfn : 0 < p ∧ p < A.maxPfn) (h : lockedNewPage A y.st p size align = some (s', some b)) :
      CpuStep A y (.newPage size align node) (.newPages src) (.count ⟨b, size⟩)
        ⟨s', ⟨b, size⟩ :: y.live, ⟨b, size⟩ :: y.unreturned⟩
  | counted {b : Live} {x : Input} : CpuStep A y (.count b) x .idle
      { y with st := incPages A y.st, unreturned := y.unreturned.erase b }
  | freed {b : Live} {s' : State} {back : Bool} (hb : b ∈ y.live)
      (h : lockedFree A y.st b.addr b.size = some (s', back)) :
      CpuStep A y .idle (.free b) (if back then .uncount else .idle)
        { y with st := s', live := y.live.erase b }
  | uncounted {x : Input} : CpuStep A y .uncount x .idle { y with st := decPages A y.st }
  | readPages : CpuStep A y .idle .readPages (.hasPages y.st.pages) y
  | callFreeUnits : CpuStep A y .idle .callFreeUnits (.hasFree (freeUnits A y.st)) y
  | thenFreeUnits {pages : ℕ} {x : Input} :
      CpuStep A y (.hasPages pages) x (.used pages (freeUnits A y.st)) y
  | thenPages {free : ℕ} {x : Input} : CpuStep A y (.hasFree free) x (.used y.st.pages free) y
  | returned {pages free : ℕ} {x : Input} : CpuStep A y (.used pages free) x .idle y
  | outside {x : Input} {s' : State} (ho : Outside A y.st y.live s') (hpages : s'.pages = y.st.pages) :
      CpuStep A y .idle x .idle { y with st := s' }

theorem outside_write {a : ℕ} {u : ℤ}
    (h : (s.page (A.virtToPage a)).slab = false ∨ 0 < cover (spans A live) a) :
    Outside A s live { s with mem := Function.update s.mem a u } := by
  refine ⟨fun b hslab hcover => ?_, fun _ _ => rfl, fun _ => rfl, fun _ => rfl, fun _ _ => ⟨rfl, rfl⟩⟩
  refine Function.update_of_ne ?_ _ _
  rintro rfl
  rcases h with h | h
  · rw [h] at hslab
    cases hslab
  · omega

theorem outside_setPage {units freelist : ℕ} {slobFree : Bool} (h : (s.page p).slab = false) :
    Outside A s live (s.setPage p ⟨units, freelist, false, slobFree, (s.page p).nid⟩) := by
  refine ⟨fun _ _ _ => rfl, fun q hq => ?_, fun q => ?_, fun q => ?_, fun _ _ => ⟨rfl, rfl⟩⟩
  · refine Function.update_of_ne ?_ _ _
    rintro rfl
    rw [h] at hq
    cases hq
  · by_cases e : q = p
    · rw [e, h]
      simp [State.setPage]
    · simp [State.setPage, e]
  · by_cases e : q = p
    · rw [e]
      simp [State.setPage]
    · simp [State.setPage, e]

theorem outside_setLinks {next prev : Node} (h : (s.page p).slab = false) :
    Outside A s live { s with
      links := ⟨Function.update s.links.next (.page p) next,
        Function.update s.links.prev (.page p) prev⟩ } := by
  refine ⟨fun _ _ _ => rfl, fun _ _ => rfl, fun _ => rfl, fun _ => rfl, fun n hn => ?_⟩
  have hne : n ≠ .page p := by
    rintro rfl
    have hslab := hn p rfl
    rw [h] at hslab
    cases hslab
  exact ⟨Function.update_of_ne hne _ _, Function.update_of_ne hne _ _⟩

theorem idleStep_step (h : idleStep A x y = some (cpu', y')) : CpuStep A y .idle x cpu' y' := by
  cases x with
  | alloc size align node =>
    simp only [idleStep] at h
    split_ifs at h with hsize
    obtain ⟨⟨s', r⟩, hsearch, hq⟩ := Option.map_eq_some_iff.mp h
    cases r with
    | none =>
      cases hq
      exact .unserved hsize.1 hsize.2 hsearch
    | some b =>
      cases hq
      exact .served hsize.1 hsize.2 hsearch
  | free b =>
    simp only [idleStep] at h
    split_ifs at h with hb
    obtain ⟨⟨s', back⟩, hfree, hq⟩ := Option.map_eq_some_iff.mp h
    cases hq
    exact .freed hb.1 hfree
  | readPages =>
    cases h
    exact .readPages
  | callFreeUnits =>
    cases h
    exact .callFreeUnits
  | write a u =>
    simp only [idleStep] at h
    split_ifs at h with ha
    cases h
    exact .outside (outside_write ha) rfl
  | setPage p units freelist slobFree =>
    simp only [idleStep] at h
    split_ifs at h with hp
    cases h
    exact .outside (outside_setPage hp) rfl
  | setLinks p next prev =>
    simp only [idleStep] at h
    split_ifs at h with hp
    cases h
    exact .outside (outside_setLinks hp) rfl
  | newPages | next => cases h

theorem newPageStep_step {src : PageSource} (h : newPageStep A size align node src y = some (cpu', y')) :
    CpuStep A y (.newPage size align node) (.newPages src) cpu' y' := by
  unfold newPageStep at h
  split at h
  next =>
    cases h
    exact .null
  next p hsrc =>
    split_ifs at h with hp
    split at h
    next s' b hall =>
      cases h
      exact .filed hsrc hp.1 hp.2 hall
    next => cases h

theorem cpus_step (h : cpus A i x cpu y = some (cpu', y')) : CpuStep A y cpu x cpu' y' := by
  cases cpu with
  | idle => exact idleStep_step h
  | newPage size align node =>
    cases x with
    | newPages src => exact newPageStep_step h
    | _ => cases h
  | count =>
    cases h
    exact .counted
  | uncount =>
    cases h
    exact .uncounted
  | hasPages =>
    cases h
    exact .thenFreeUnits
  | hasFree =>
    cases h
    exact .thenPages
  | used =>
    cases h
    exact .returned

/-- The search either changes nothing or takes a block from a slab page. -/
theorem Rep.lockedSearch_cases (h : Rep A s live v) (hpos : 0 < size) (hlt : size < A.PAGE_SIZE)
    (hsearch : lockedSearch A s size align node = some (s', r)) :
    s'.pages = s.pages ∧ ∃ v', Rep A s' ((r.map fun b => ⟨b, size⟩).toList ++ live) v' ∧
      v'.held = v.held := by
  -- a call that does not clear the block and gets no new page does nothing more than the search
  have hnone : slobNewPages A ⟨none, fun _ => none⟩ node = none := by
    unfold slobNewPages
    cases node with
    | none => rfl
    | some n => split_ifs <;> rfl
  have hfresh : Fresh A s ⟨none, fun _ => none⟩ node := by
    intro p hp
    rw [hnone] at hp
    cases hp
  have hall : slobAlloc A s size ⟨false⟩ align node ⟨none, fun _ => none⟩ = some (s', r) := by
    cases r with
    | none => simp only [slobAlloc, hsearch, hnone]
    | some b =>
      simp only [slobAlloc, hsearch]
      rfl
  rcases h.slobAlloc_cases hpos hlt hfresh hall with ⟨rfl, rfl⟩ |
    ⟨p, b, v', rfl, hal, ⟨-, hheld, hpages⟩ | ⟨hsrc, -⟩⟩
  · exact ⟨rfl, v, h, rfl⟩
  · exact ⟨hpages, v', hal.rep, hheld⟩
  · rw [hnone] at hsrc
    cases hsrc

end Step

/-! ## One CPU alone -/

section Alone

variable {A : Arch} {ι : Type*} [DecidableEq ι] {c : Conf ι Cpu Shared} {i : ι} {s' : State}

/-- A CPU that is alone does what `slobAlloc` does; the `memset` at its end writes to a live block. -/
theorem slobAlloc_moves {size align : ℕ} {gfp : Gfp} {node r : Option ℕ} {src : PageSource}
    (hi : c.loc i = .idle) (hpos : 0 < size) (hlt : size < A.PAGE_SIZE)
    (hfresh : Fresh A c.sh.st src node) (hrep : ∃ v, Rep A c.sh.st c.sh.live v)
    (h : slobAlloc A c.sh.st size gfp align node src = some (s', r)) :
    ∃ as s, c.moves (cpus A) as =
        some ⟨c.loc, s, (r.map fun b => ⟨b, size⟩).toList ++ c.sh.live, c.sh.unreturned⟩ ∧
      s' = r.elim s fun b => clearBlock A s gfp b size := by
  have hself : Function.update c.loc i .idle = c.loc := by
    rw [← hi, Function.update_eq_self]
  have halloc : ∀ s₁ r₁, lockedSearch A c.sh.st size align node = some (s₁, r₁) →
      cpus A i (.alloc size align node) (c.loc i) c.sh =
        some (r₁.elim (.newPage size align node) fun _ => .idle,
          { c.sh with st := s₁, live := (r₁.map fun b => ⟨b, size⟩).toList ++ c.sh.live }) := by
    intro s₁ r₁ hsearch
    rw [hi]
    simp only [cpus, idleStep]
    rw [if_pos ⟨hpos, hlt⟩, hsearch]
    cases r₁ <;> rfl
  simp only [slobAlloc] at h
  split at h
  next => cases h
  next s₁ b hsearch =>
    cases h
    refine ⟨[(i, .alloc size align node)], s₁, ?_, rfl⟩
    rw [Conf.moves_cons (halloc s₁ _ hsearch), Option.elim_some, hself]
    rfl
  next s₁ hsearch =>
    have hfirst := halloc s₁ _ hsearch
    split at h
    next hsrc =>
      obtain ⟨rfl, rfl⟩ : s₁ = s' ∧ none = r := by simpa using h
      refine ⟨[(i, .alloc size align node), (i, .newPages src)], s₁, ?_, rfl⟩
      rw [Conf.moves_cons hfirst, Conf.moves_cons (i := i) (l := .idle)
        (s := { c.sh with st := s₁ })]
      · rw [Function.update_idem, hself]
        rfl
      · simp [cpus, newPageStep, hsrc]
    next p hsrc =>
      split at h
      next s₂ b hall =>
        cases h
        -- the search that found nothing has left the new page alone
        obtain ⟨v, hrep⟩ := hrep
        obtain ⟨-, v', hrep', hheld⟩ := hrep.lockedSearch_cases hpos hlt hsearch
        obtain ⟨hslab, hpfn⟩ := hfresh p hsrc
        have hslab₁ : (s₁.page p).slab = false := by
          by_contra hp
          refine hrep.not_mem_held hslab ?_
          rw [← hheld, hrep'.held]
          simpa using hp
        refine ⟨[(i, .alloc size align node), (i, .newPages src), (i, .next)], incPages A s₂, ?_, rfl⟩
        rw [Conf.moves_cons hfirst, Conf.moves_cons (i := i) (l := .count ⟨b, size⟩)
          (s := ⟨s₂, ⟨b, size⟩ :: c.sh.live, ⟨b, size⟩ :: c.sh.unreturned⟩), Conf.moves_cons (i := i)
          (l := .idle) (s := ⟨incPages A s₂, ⟨b, size⟩ :: c.sh.live, c.sh.unreturned⟩)]
        · rw [Function.update_idem, Function.update_idem, hself]
          rfl
        · simp [cpus]
        · simp [cpus, newPageStep, hsrc, hslab₁, hpfn, hall]
      next => cases h

/-- A CPU that is alone does what `slobFree` does. -/
theorem slobFree_moves {b : Live} (hi : c.loc i = .idle) (hb : b ∈ c.sh.live)
    (hret : b ∉ c.sh.unreturned) (h : slobFree A c.sh.st b.addr b.size = some s') :
    ∃ as, c.moves (cpus A) as = some ⟨c.loc, s', c.sh.live.erase b, c.sh.unreturned⟩ := by
  have hself : Function.update c.loc i .idle = c.loc := by
    rw [← hi, Function.update_eq_self]
  obtain ⟨⟨s₁, back⟩, hfree, rfl⟩ := Option.map_eq_some_iff.mp h
  have hstep : cpus A i (.free b) (c.loc i) c.sh =
      some (if back then .uncount else .idle, { c.sh with st := s₁, live := c.sh.live.erase b }) := by
    rw [hi]
    simp only [cpus, idleStep]
    rw [if_pos ⟨hb, hret⟩, hfree]
    rfl
  cases back with
  | true =>
    refine ⟨[(i, .free b), (i, .next)], ?_⟩
    rw [Conf.moves_cons hstep, Conf.moves_cons (i := i) (l := .idle)
      (s := ⟨decPages A s₁, c.sh.live.erase b, c.sh.unreturned⟩)]
    · rw [Function.update_idem, hself]
      rfl
    · simp [cpus]
  | false =>
    refine ⟨[(i, .free b)], ?_⟩
    rw [Conf.moves_cons hstep]
    simp only [Bool.false_eq_true, if_false, hself]
    rfl

/-- A CPU that is alone gets from its two reads, in either order, what `sysSlobUnitsUsed` returns. -/
theorem sysSlobUnitsUsed_moves {x : Input} (hi : c.loc i = .idle)
    (hx : x = .readPages ∨ x = .callFreeUnits) :
    ∃ pages free, c.moves (cpus A) [(i, x), (i, .next)] =
        some ⟨Function.update c.loc i (.used pages free), c.sh⟩ ∧
      unitsUsed A pages free = sysSlobUnitsUsed A c.sh.st := by
  refine ⟨c.sh.st.pages, freeUnits A c.sh.st, ?_, rfl⟩
  rcases hx with rfl | rfl
  · rw [Conf.moves_cons (l := .hasPages c.sh.st.pages) (s := c.sh) (by rw [hi]; rfl),
      Conf.moves_cons (l := .used c.sh.st.pages (freeUnits A c.sh.st)) (s := c.sh)
        (by simp [cpus]), Function.update_idem]
    rfl
  · rw [Conf.moves_cons (l := .hasFree (freeUnits A c.sh.st)) (s := c.sh) (by rw [hi]; rfl),
      Conf.moves_cons (l := .used c.sh.st.pages (freeUnits A c.sh.st)) (s := c.sh)
        (by simp [cpus]), Function.update_idem]
    rfl

end Alone

/-! ## What the counter counts -/

section Inv

variable {A : Arch} {ι : Type*} {H H' D D' : ℕ} {cpu cpu' : Cpu} {s : State} {live : List Live}
  {v : View}

/-- What the values of a system call are worth when there are `H` slab pages and `D` outstanding
`pages--`. -/
def Local (A : Arch) (H D : ℕ) : Cpu → Prop
  | .newPage size _ _ => 0 < size ∧ size < A.PAGE_SIZE
  | .hasPages pages => H ≤ pages ∧ 2 * (A.pageUnits * pages) < 2 ^ A.wordBits
  | .hasFree free => free ≤ A.pageUnits * (H + D)
  | .used pages free => free ≤ A.pageUnits * pages ∧ 2 * (A.pageUnits * pages) < 2 ^ A.wordBits
  | _ => True

theorem Local.mono (h : Local A H D cpu) (hpages : cpu.hasReadPages = true → H' ≤ H)
    (hfree : cpu.hasReadFree = true → H + D ≤ H' + D') : Local A H' D' cpu := by
  cases cpu with
  | hasPages => exact ⟨(hpages rfl).trans h.1, h.2⟩
  | hasFree => exact Nat.le_trans h (Nat.mul_le_mul_left _ (hfree rfl))
  | _ => exact h

variable [Fintype ι] {c : Conf ι Cpu Shared}

/-- The lists and the blocks represent a heap, and `pages` counts its pages without the outstanding
`pages++` and with the outstanding `pages--`. -/
structure CountInv (A : Arch) (c : Conf ι Cpu Shared) (v : View) : Prop where
  rep : Rep A c.sh.st c.sh.live v
  lt : c.sh.st.pages < 2 ^ A.wordBits
  pages : c.sh.st.pages + count (fun _ => Cpu.counting) c.loc ≡
    v.held.card + count (fun _ => Cpu.uncounting) c.loc [MOD 2 ^ A.wordBits]
  place : ∀ i, Local A v.held.card (count (fun _ => Cpu.uncounting) c.loc) (c.loc i)

theorem Rep.freeUnits_le (h : Rep A s live v) : freeUnits A s ≤ A.pageUnits * v.held.card := by
  have hsum := h.units_add_live
  rw [h.freeUnits_eq]
  exact (Nat.mod_le _ _).trans (by omega)

/-- When no `pages++` is outstanding, `pages` is the slab pages and those of the outstanding
`pages--`. -/
theorem CountInv.pages_eq (hI : CountInv A c v) (hcount : count (fun _ => Cpu.counting) c.loc = 0)
    (hfits : 2 * count (fun _ => Cpu.uncounting) c.loc < 2 ^ A.wordBits) :
    c.sh.st.pages = v.held.card + count (fun _ => Cpu.uncounting) c.loc := by
  have hunits := hI.rep.pageUnits_mul_card_lt
  have hcard : v.held.card ≤ A.pageUnits * v.held.card := Nat.le_mul_of_pos_left _ A.pageUnits_pos
  have hmod := hI.pages
  rw [hcount] at hmod
  exact hmod.eq_of_lt_of_lt hI.lt (by omega)

theorem booted_inv (h : Booted c) : ∃ v, CountInv A c v := by
  obtain ⟨hidle, hinit, hlive, -⟩ := h
  obtain ⟨v, hrep, hpages⟩ := hinit.inv (A := A)
  have hcount : ∀ P : Cpu → Bool, P .idle = false → count (fun _ => P) c.loc = 0 := by
    intro P hP
    exact count_eq_zero_iff.mpr fun i => by rw [hidle i, hP]
  refine ⟨v, ?_, ?_, ?_, fun i => ?_⟩
  · rw [hlive]
    exact hrep
  · rw [hinit.pages]
    exact Nat.two_pow_pos _
  · rw [hcount _ rfl, hcount _ rfl]
    exact congrArg (· % _) hpages
  · rw [hidle i]
    trivial

variable [DecidableEq ι] {i : ι} {x : Input} {y' : Shared} {v' : View}

/-- What a move has to show. -/
theorem CountInv.move (hI : CountInv A c v) (hrep : Rep A y'.st y'.live v')
    (hlt : y'.st.pages < 2 ^ A.wordBits)
    (hpages : y'.st.pages + count (fun _ => Cpu.counting) (Function.update c.loc i cpu') ≡
      v'.held.card + count (fun _ => Cpu.uncounting) (Function.update c.loc i cpu')
        [MOD 2 ^ A.wordBits])
    (hread : v'.held.card ≤ v.held.card ∨ count (fun _ => Cpu.hasReadPages) c.loc = 0)
    (hfree : v.held.card + count (fun _ => Cpu.uncounting) c.loc ≤
        v'.held.card + count (fun _ => Cpu.uncounting) (Function.update c.loc i cpu') ∨
      count (fun _ => Cpu.hasReadFree) c.loc = 0)
    (hplace : Local A v'.held.card
      (count (fun _ => Cpu.uncounting) (Function.update c.loc i cpu')) cpu') :
    CountInv A ⟨Function.update c.loc i cpu', y'⟩ v' where
  rep := hrep
  lt := hlt
  pages := hpages
  place := by
    refine (Function.forall_update_iff c.loc fun _ l => Local A v'.held.card
      (count (fun _ => Cpu.uncounting) (Function.update c.loc i cpu')) l).mpr ⟨hplace, fun j _ => ?_⟩
    refine (hI.place j).mono (fun hj => ?_) fun hj => ?_
    · rcases hread with h | h
      · exact h
      · rw [count_eq_zero_iff.mp h j] at hj
        cases hj
    · rcases hfree with h | h
      · exact h
      · rw [count_eq_zero_iff.mp h j] at hj
        cases hj

/-- A step that leaves the number of slab pages and the counter alone. -/
theorem CountInv.keep (hI : CountInv A c v) (hcpu : c.loc i = cpu)
    (hcounting : cpu'.counting = cpu.counting) (huncounting : cpu'.uncounting = cpu.uncounting)
    (hrep : Rep A y'.st y'.live v') (hpages : y'.st.pages = c.sh.st.pages) (hheld : v'.held = v.held)
    (hplace : Local A v.held.card (count (fun _ => Cpu.uncounting) c.loc) cpu') :
    CountInv A ⟨Function.update c.loc i cpu', y'⟩ v' := by
  subst hcpu
  have h₁ := count_update_of_eq (P := fun _ => Cpu.counting) hcounting
  have h₂ := count_update_of_eq (P := fun _ => Cpu.uncounting) huncounting
  refine hI.move hrep ?_ ?_ (.inl (by rw [hheld])) (.inl ?_) ?_
  · rw [hpages]
    exact hI.lt
  · rw [hpages, hheld, h₁, h₂]
    exact hI.pages
  · rw [hheld, h₂]
  · rw [hheld, h₂]
    exact hplace

/-- A page is filed: its `pages++` is outstanding. -/
theorem CountInv.filed (hI : CountInv A c v) {size align p : ℕ} {node : Option ℕ}
    (hcpu : c.loc i = .newPage size align node) (hrep : Rep A y'.st y'.live v')
    (hpages : y'.st.pages = c.sh.st.pages) (hp : p ∉ v.held) (hheld : v'.held = insert p v.held)
    (hread : count (fun _ => Cpu.hasReadPages) c.loc = 0) (b : Live) :
    CountInv A ⟨Function.update c.loc i (.count b), y'⟩ v' := by
  have h₁ := count_update (fun _ => Cpu.counting) c.loc i (.count b)
  have h₂ : count (fun _ => Cpu.uncounting) (Function.update c.loc i (.count b)) =
      count (fun _ => Cpu.uncounting) c.loc := count_update_of_eq (by rw [hcpu]; rfl)
  have hcard : v'.held.card = v.held.card + 1 := by rw [hheld, Finset.card_insert_of_notMem hp]
  rw [hcpu] at h₁
  simp only [Cpu.counting, Bool.toNat_false, Bool.toNat_true, Nat.add_zero] at h₁
  refine hI.move hrep (hpages ▸ hI.lt) ?_ (.inr hread) (.inl (by omega)) trivial
  rw [hpages, hcard, h₁, h₂, ← Nat.add_assoc, Nat.add_right_comm v.held.card]
  exact hI.pages.add_right 1

/-- `pages++`. -/
theorem CountInv.counted (hI : CountInv A c v) {b : Live} (hcpu : c.loc i = .count b)
    {unreturned : List Live} :
    CountInv A ⟨Function.update c.loc i .idle, incPages A c.sh.st, c.sh.live, unreturned⟩ v := by
  have h₁ := count_update (fun _ => Cpu.counting) c.loc i .idle
  have h₂ : count (fun _ => Cpu.uncounting) (Function.update c.loc i .idle) =
      count (fun _ => Cpu.uncounting) c.loc := count_update_of_eq (by rw [hcpu]; rfl)
  rw [hcpu] at h₁
  simp only [Cpu.counting, Bool.toNat_false, Bool.toNat_true, Nat.add_zero] at h₁
  refine hI.move (hI.rep.setPages _) (Nat.mod_lt _ (Nat.two_pow_pos _)) ?_ (.inl le_rfl)
    (.inl (by omega)) trivial
  have hmod := hI.pages
  rw [← h₁, ← Nat.add_assoc, Nat.add_right_comm] at hmod
  rw [h₂]
  exact ((Nat.mod_modEq _ _).add_right _).trans hmod

/-- A page leaves the lists for good: its `pages--` is outstanding. -/
theorem CountInv.released (hI : CountInv A c v) (hcpu : c.loc i = .idle) {p : ℕ}
    (hrep : Rep A y'.st y'.live v') (hpages : y'.st.pages = c.sh.st.pages) (hp : p ∈ v.held)
    (hheld : v'.held = v.held.erase p) : CountInv A ⟨Function.update c.loc i .uncount, y'⟩ v' := by
  have h₁ : count (fun _ => Cpu.counting) (Function.update c.loc i .uncount) =
      count (fun _ => Cpu.counting) c.loc := count_update_of_eq (by rw [hcpu]; rfl)
  have h₂ := count_update (fun _ => Cpu.uncounting) c.loc i .uncount
  have hcard : v'.held.card + 1 = v.held.card := by rw [hheld, Finset.card_erase_add_one hp]
  rw [hcpu] at h₂
  simp only [Cpu.uncounting, Bool.toNat_false, Bool.toNat_true, Nat.add_zero] at h₂
  refine hI.move hrep (hpages ▸ hI.lt) ?_ (.inl (by omega)) (.inl (by omega)) trivial
  have hmod := hI.pages
  rw [← hcard, Nat.add_right_comm, Nat.add_assoc, ← h₂] at hmod
  rw [hpages, h₁]
  exact hmod

/-- `pages--`. -/
theorem CountInv.uncounted (hI : CountInv A c v) (hcpu : c.loc i = .uncount)
    (hfree : count (fun _ => Cpu.hasReadFree) c.loc = 0) :
    CountInv A ⟨Function.update c.loc i .idle, { c.sh with st := decPages A c.sh.st }⟩ v := by
  have h₁ : count (fun _ => Cpu.counting) (Function.update c.loc i .idle) =
      count (fun _ => Cpu.counting) c.loc := count_update_of_eq (by rw [hcpu]; rfl)
  have h₂ := count_update (fun _ => Cpu.uncounting) c.loc i .idle
  rw [hcpu] at h₂
  simp only [Cpu.uncounting, Bool.toNat_false, Bool.toNat_true, Nat.add_zero] at h₂
  have hpos : 0 < 2 ^ A.wordBits := Nat.two_pow_pos _
  refine hI.move (hI.rep.setPages _) (Nat.mod_lt _ hpos) ?_ (.inl le_rfl) (.inr hfree) trivial
  have hmod := hI.pages
  rw [← h₂, ← Nat.add_assoc] at hmod
  rw [h₁]
  refine ((Nat.mod_modEq _ _).add_right _).trans (Nat.ModEq.add_right_cancel' 1 ?_)
  have hsum : c.sh.st.pages + 2 ^ A.wordBits - 1 + count (fun _ => Cpu.counting) c.loc + 1 =
      c.sh.st.pages + count (fun _ => Cpu.counting) c.loc + 2 ^ A.wordBits := by omega
  rw [hsum]
  exact (Nat.add_modEq_right).trans hmod

theorem CountInv.step (hI : CountInv A c v) (hok : Settled A c i x)
    (h : CpuStep A c.sh (c.loc i) x cpu' y') :
    ∃ v', CountInv A ⟨Function.update c.loc i cpu', y'⟩ v' := by
  generalize hcpu : c.loc i = cpu at h
  have hplace := hI.place i
  rw [hcpu] at hplace
  cases h with
  | served hpos hlt hsearch =>
    obtain ⟨hpages, v', hrep, hheld⟩ := hI.rep.lockedSearch_cases hpos hlt hsearch
    exact ⟨v', hI.keep hcpu rfl rfl hrep hpages hheld trivial⟩
  | unserved hpos hlt hsearch =>
    obtain ⟨hpages, v', hrep, hheld⟩ := hI.rep.lockedSearch_cases hpos hlt hsearch
    exact ⟨v', hI.keep hcpu rfl rfl hrep hpages hheld ⟨hpos, hlt⟩⟩
  | null => exact ⟨v, hI.keep hcpu rfl rfl hI.rep rfl rfl trivial⟩
  | filed hsrc hslab hpfn hall =>
    obtain ⟨v', hal, hheld, hpages⟩ := hI.rep.newPage hplace.1 hplace.2
      (hI.rep.not_mem_held hslab) hpfn hall
    refine ⟨v', hI.filed hcpu hal.rep hpages (hI.rep.not_mem_held hslab) hheld (hok.filed ?_) _⟩
    rw [hcpu]
    simp [Cpu.files, hsrc]
  | counted => exact ⟨v, hI.counted hcpu⟩
  | @freed b s' back hb hfree =>
    obtain ⟨s₁, back₁, v', hfree', hrep, hpages, hp, hheld⟩ := hI.rep.lockedFree hb
    rw [hfree'] at hfree
    cases hfree
    cases back with
    | true => exact ⟨v', hI.released hcpu hrep hpages hp hheld⟩
    | false => exact ⟨v', hI.keep hcpu rfl rfl hrep hpages hheld trivial⟩
  | uncounted => exact ⟨v, hI.uncounted hcpu (hok.uncounted (by rw [hcpu]; rfl))⟩
  | readPages =>
    have hreads : (c.loc i).readsPages .readPages = true := by
      rw [hcpu]
      rfl
    have hpages := hI.pages_eq (hok.counted hreads) (hok.fits hreads).2
    refine ⟨v, hI.keep hcpu rfl rfl hI.rep rfl rfl ⟨?_, (hok.fits hreads).1⟩⟩
    omega
  | callFreeUnits =>
    refine ⟨v, hI.keep hcpu rfl rfl hI.rep rfl rfl ?_⟩
    exact hI.rep.freeUnits_le.trans (Nat.mul_le_mul_left _ (Nat.le_add_right _ _))
  | thenFreeUnits =>
    refine ⟨v, hI.keep hcpu rfl rfl hI.rep rfl rfl ⟨?_, hplace.2⟩⟩
    exact hI.rep.freeUnits_le.trans (Nat.mul_le_mul_left _ hplace.1)
  | thenPages =>
    have hreads : (c.loc i).readsPages x = true := by
      rw [hcpu]
      rfl
    have hpages := hI.pages_eq (hok.counted hreads) (hok.fits hreads).2
    refine ⟨v, hI.keep hcpu rfl rfl hI.rep rfl rfl ⟨?_, (hok.fits hreads).1⟩⟩
    rw [hpages]
    exact hplace
  | returned => exact ⟨v, hI.keep hcpu rfl rfl hI.rep rfl rfl trivial⟩
  | outside ho hpages => exact ⟨v, hI.keep hcpu rfl rfl (hI.rep.outside ho) hpages rfl trivial⟩

theorem countInv_of_reach (h : Reach (cpus A) Booted (Settled A) c) : ∃ v, CountInv A c v := by
  refine h.invariant (I := fun c => ∃ v, CountInv A c v) (fun _ h => booted_inv h) ?_
  rintro c i x cpu' y' ⟨v, hI⟩ hok hp
  exact hI.step hok (cpus_step hp)

end Inv

/-- **The call does not underflow** in every run in which it reads `pages` when no `pages++` is
outstanding, and the value it has read first is not spoilt before it has the other. -/
theorem units_used_nonneg {A : Arch} {ι : Type*} [Fintype ι] [DecidableEq ι] {c : Conf ι Cpu Shared}
    (h : Reach (cpus A) Booted (Settled A) c) {i : ι} {pages free : ℕ}
    (hi : c.loc i = .used pages free) :
    free ≤ A.SLOB_UNITS A.PAGE_SIZE * pages ∧
      unitsUsed A pages free = (A.SLOB_UNITS A.PAGE_SIZE * pages - free : ℕ) := by
  obtain ⟨v, hI⟩ := countInv_of_reach h
  have hplace := hI.place i
  rw [hi] at hplace
  obtain ⟨hle, hfits⟩ : free ≤ A.SLOB_UNITS A.PAGE_SIZE * pages ∧
      2 * (A.SLOB_UNITS A.PAGE_SIZE * pages) < 2 ^ A.wordBits := hplace
  refine ⟨hle, ?_⟩
  unfold unitsUsed
  rw [← Nat.cast_sub hle]
  exact toLong_eq ((Nat.mul_le_mul_left 2 (Nat.sub_le _ _)).trans_lt hfits)

/-- All CPUs are idle at boot. -/
def bootConf (n : ℕ) : Conf (Fin n) Cpu Shared := ⟨fun _ => .idle, boot, [], []⟩

theorem booted_bootConf (n : ℕ) : Booted (bootConf n) := ⟨fun _ => rfl, initial_boot, rfl, rfl⟩

/-- The page allocator hands out the frame `p`. -/
def frame (p : ℕ) : PageSource := ⟨some p, fun _ => some p⟩

/-- The second CPU asks when the first has allocated a block of 100 bytes. -/
theorem units_used_nonneg_oneBlock : ∃ c : Conf (Fin 2) Cpu Shared,
    Reach (cpus (i386 false)) Booted (Settled (i386 false)) c ∧ c.loc 1 = .used 1 1998 ∧
      1998 ≤ (i386 false).SLOB_UNITS (i386 false).PAGE_SIZE * 1 ∧ unitsUsed (i386 false) 1 1998 = 50 := by
  obtain ⟨c, hc, hP⟩ := @exists_reach _ _ _ _ _ (cpus (i386 false)) Booted (Settled (i386 false))
    (bootConf 2) _ (booted_bootConf 2) [(0, .alloc 100 0 none), (0, .newPages (frame 1)), (0, .next),
      (1, .readPages), (1, .next)] (fun c => c.loc 1 = .used 1 1998) (by decide +kernel)
  rw [decide_eq_true_eq] at hP
  obtain ⟨hle, heq⟩ := units_used_nonneg hc hP
  exact ⟨c, hc, hP, hle, by rw [heq]; decide⟩

/-- The call reads `pages` when the first page is on its list and not yet counted. And it has the
free units of that page when it is given back, and reads `pages` when it is no longer counted. -/
theorem units_used_negative :
    (∃ c : Conf (Fin 2) Cpu Shared, Reach (cpus (i386 false)) Booted anyMove c ∧
      c.loc 0 = .count ⟨2048, 100⟩ ∧ c.loc 1 = .used 0 1998 ∧ unitsUsed (i386 false) 0 1998 < 0) ∧
    ∃ c : Conf (Fin 2) Cpu Shared, Reach (cpus (i386 false)) Booted anyMove c ∧
      c.loc 0 = .idle ∧ c.loc 1 = .used 0 1998 ∧ unitsUsed (i386 false) 0 1998 < 0 := by
  have hneg : unitsUsed (i386 false) 0 1998 < 0 := by decide
  constructor
  · obtain ⟨c, hc, hP⟩ := @exists_reach _ _ _ _ _ (cpus (i386 false)) Booted anyMove
      (bootConf 2) _ (booted_bootConf 2) [(0, .alloc 100 0 none), (0, .newPages (frame 1)),
        (1, .readPages), (1, .next)]
      (fun c => c.loc 0 = .count ⟨2048, 100⟩ && c.loc 1 = .used 0 1998) (by decide +kernel)
    simp only [Bool.and_eq_true, decide_eq_true_eq] at hP
    exact ⟨c, hc, hP.1, hP.2, hneg⟩
  · obtain ⟨c, hc, hP⟩ := @exists_reach _ _ _ _ _ (cpus (i386 false)) Booted anyMove
      (bootConf 2) _ (booted_bootConf 2) [(0, .alloc 100 0 none), (0, .newPages (frame 1)), (0, .next),
        (1, .callFreeUnits), (0, .free ⟨2048, 100⟩), (0, .next), (1, .next)]
      (fun c => c.loc 0 = .idle && c.loc 1 = .used 0 1998) (by decide +kernel)
    simp only [Bool.and_eq_true, decide_eq_true_eq] at hP
    exact ⟨c, hc, hP.1, hP.2, hneg⟩

end Cs444.Slob
