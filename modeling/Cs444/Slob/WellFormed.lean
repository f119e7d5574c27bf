import Cs444.Slob.Run

/-!
# The heap is well formed in every reachable state

`WellFormed` reads the heap as the code does: the free blocks of a page are decoded with
`slob_units` and `slob_next` from its `freelist` to the page end (`freeBlocks`), and the lists are
walked from their heads (`pageList`). `wellFormed_of_reachable` proves it of every reachable state,
together with what it gives the callers: legal calls return, and blocks are aligned as asked.
`segregated_of_reachable`: a page serves one size class, and is on no other list.
-/

namespace Cs444.Slob

variable (A : Arch)

/-- The free blocks from `cur` up to the page end `e`, decoded with `slob_units` and `slob_next`;
`none` when the walk does not end there. -/
def decodeFrom (m : Mem) (e : ℕ) : ℕ → ℕ → Option (List Span)
  | 0, _ => none
  | fuel + 1, cur =>
    if cur = e then some []
    else (decodeFrom m e fuel (slobNext A m cur)).map (⟨cur, slobUnits m cur⟩ :: ·)

/-- The free list of the page `p`. -/
def freeBlocks (s : State) (p : ℕ) : Option (List Span) :=
  decodeFrom A s.mem (A.pageEnd p) (A.pageUnits + 1) (s.page p).freelist

/-- The slab page `p` is well formed, with the free blocks `free`. -/
structure PageWF (s : State) (live : List Live) (p : ℕ) (free : List Span) : Prop where
  decoded : freeBlocks A s p = some free
  within : Within (A.pageAddress p) (A.pageEnd p) free
  /-- Increasing addresses, and no two blocks touch. -/
  apart : Apart free
  units : total free = (s.page p).units
  /-- Every unit of the page is in exactly one free or live block. -/
  partition : ∀ a, A.pageAddress p ≤ a → a < A.pageEnd p →
    cover free a + cover (spans A live) a = 1
  flag : (s.page p).slobFree = true ↔ 0 < (s.page p).units
  /-- The page occurs once on the three lists together while it has free units, else not. -/
  onLists : (pageList A s .small).count p + (pageList A s .medium).count p +
    (pageList A s .large).count p = if 0 < (s.page p).units then 1 else 0

/-- The heap is well formed. -/
structure WellFormed (s : State) (live : List Live) : Prop where
  pages : ∀ p, (s.page p).slab = true → ∃ free, PageWF A s live p free
  /-- Live blocks lie inside slab pages. -/
  placed : ∀ b ∈ live, (s.page (A.virtToPage b.addr)).slab = true ∧
    b.addr + A.SLOB_UNITS b.size ≤ A.pageEnd (A.virtToPage b.addr)
  /-- Live blocks do not overlap. -/
  disjoint : (spans A live).Pairwise fun b c => ∀ a, ¬ (b.Has a ∧ c.Has a)

variable {A} {s : State} {live : List Live} {v : View} {p : ℕ} {c : SizeClass}

/-! ## Reading the heap back -/

theorem Chain.decodeFrom {m : Mem} {e fuel : ℕ} {l : List Span} (h : Chain A m e l)
    (hlt : ∀ b ∈ l, b.start ≠ e) (hf : l.length < fuel) :
    decodeFrom A m e fuel (headOr e l) = some l := by
  induction l generalizing fuel with
  | nil =>
    obtain ⟨fuel, rfl⟩ : ∃ f, fuel = f + 1 := ⟨fuel - 1, by simp at hf; omega⟩
    exact if_pos rfl
  | cons b l ih =>
    obtain ⟨fuel, rfl⟩ : ∃ f, fuel = f + 1 := ⟨fuel - 1, by simp at hf; omega⟩
    have hrec := @ih fuel h.2 (fun c hc => hlt c (List.mem_cons_of_mem _ hc)) (by simpa using hf)
    show Slob.decodeFrom A m e (fuel + 1) b.start = _
    unfold Slob.decodeFrom
    rw [if_neg (hlt b (by simp)), h.1.slobNext_eq, hrec, h.1.slobUnits_eq]
    rfl

theorem PageOK.freeBlocks_eq {free : List Span} (h : PageOK A s live p free) :
    freeBlocks A s p = some free := by
  unfold freeBlocks
  rw [h.onPage.head]
  refine h.onPage.chain.decodeFrom ?_ ?_
  · intro b hb
    obtain ⟨-, h₁, h₂⟩ := h.onPage.within b hb
    unfold Span.fin at h₂
    omega
  · have := h.onPage.order.length_le h.onPage.within
    unfold Arch.pageEnd at this
    omega

/-- `list_for_each_entry` visits the pages of the list. -/
theorem Rep.pageList_eq (h : Rep A s live v) (c : SizeClass) : pageList A s c = v.ls c := by
  unfold pageList
  rw [(h.rings.circ c).entries_eq (by simpa using Nat.lt_succ_of_le (h.length_ls_le c)),
    List.filterMap_map]
  exact List.filterMap_some

theorem Rep.nodup_ls (h : Rep A s live v) (c : SizeClass) : (v.ls c).Nodup :=
  (List.nodup_map_iff page_injective).mp (h.rings.circ c).nodup

/-- A page occurs on the list of its class only, and there once. -/
theorem Rep.count_eq (h : Rep A s live v) (hp : p ∈ v.held) (c : SizeClass) :
    (pageList A s c).count p = if v.cls p = c ∧ 0 < (s.page p).units then 1 else 0 := by
  rw [h.pageList_eq]
  split_ifs with e
  · exact List.count_eq_one_of_mem (h.nodup_ls c) ((h.onList c p).mpr ⟨hp, e⟩)
  · exact List.count_eq_zero.mpr fun hm => e ((h.onList c p).mp hm).2

theorem Rep.pageWF (h : Rep A s live v) (hp : p ∈ v.held) : PageWF A s live p (v.free p) := by
  have hok := h.pageOK p hp
  refine ⟨hok.freeBlocks_eq, hok.onPage.within, hok.apart, hok.units.symm, hok.tiles, hok.flag, ?_⟩
  rw [h.count_eq hp, h.count_eq hp, h.count_eq hp]
  by_cases e : 0 < (s.page p).units
  · cases hc : v.cls p <;> simp [e]
  · simp [e]

/-- No address is in two live blocks. -/
theorem Rep.cover_live_le_one (h : Rep A s live v) (a : ℕ) : cover (spans A live) a ≤ 1 := by
  by_cases hp : A.virtToPage a ∈ v.held
  · have := (h.pageOK _ hp).tiles a (mem_page a).1 (mem_page a).2
    omega
  · rw [h.cover_live_eq_zero hp]
    omega

theorem Rep.wellFormed (h : Rep A s live v) : WellFormed A s live := by
  refine ⟨?_, ?_, pairwise_disjoint_of_cover_le h.cover_live_le_one⟩
  · intro p hp
    exact ⟨v.free p, h.pageWF ((h.held p).mpr hp)⟩
  · intro b hb
    have hlive := h.liveOK b hb
    exact ⟨(h.held _).mp hlive.held, hlive.fits⟩

/-- A returned block is aligned. -/
theorem Allocated.dvd {live : List Live} {size align addr : ℕ} {s' : State} {v' : View}
    (h : Allocated A s live size align p addr s' v') (ha : Aligning A align) (hne : align ≠ 0) :
    align ∣ A.SLOB_UNIT * addr := by
  obtain ⟨cur, rfl⟩ := h.aligned
  rcases ha with rfl | ⟨k, rfl, -⟩
  · exact absurd rfl hne
  · exact dvd_of_alignDelta

/-! ## Every reachable state -/

/-- **The heap invariant.** Every reachable state is well formed; there, a legal `slob_alloc`
returns, with a block aligned as asked, and `slob_free` of a live block returns. -/
theorem wellFormed_of_reachable {y : Sys} (h : Reachable A y) :
    WellFormed A y.st y.live ∧
      (∀ size gfp align node src, Legal A y (.alloc size gfp align node src) → Aligning A align →
        ∃ s' r, slobAlloc A y.st size gfp align node src = some (s', r) ∧
          ∀ addr ∈ r, align ≠ 0 → align ∣ A.SLOB_UNIT * addr) ∧
      ∀ b ∈ y.live, ∃ s', slobFree A y.st b.addr b.size = some s' := by
  obtain ⟨v, hrep, -⟩ := reachable_inv h
  refine ⟨hrep.wellFormed, ?_, ?_⟩
  · rintro size gfp align node src ⟨hpos, hlt, hfresh⟩ halign
    obtain ⟨⟨s', r⟩, hr⟩ := hrep.slobAlloc_returns gfp hpos hlt hfresh halign
    refine ⟨s', r, hr, ?_⟩
    rintro addr rfl hne
    rcases hrep.slobAlloc_cases hpos hlt hfresh hr with ⟨h₁, -⟩ | ⟨p, addr', v', h₁, hal, -⟩
    · cases h₁
    · cases h₁
      exact hal.dvd halign hne
  · intro b hb
    obtain ⟨s', -, hs', -⟩ := hrep.slobFree hb
    exact ⟨s', hs'⟩

/-- Two allocations on one page, and a free of the first block. -/
def sampleRun : List Call :=
  [.alloc 100 ⟨true⟩ 0 none ⟨some 1, fun _ => none⟩, .alloc 7 ⟨false⟩ 8 none ⟨none, fun _ => none⟩,
    .free ⟨2048, 100⟩]

theorem wellFormed_sampleRun :
    (runCalls (i386 false) ⟨boot, []⟩ sampleRun).map Sys.live = some [⟨2100, 7⟩] ∧
      ∀ y ∈ runCalls (i386 false) ⟨boot, []⟩ sampleRun, WellFormed (i386 false) y.st y.live :=
  ⟨by decide +kernel, fun _ hy => (wellFormed_of_reachable (reachable_boot.runCalls hy)).1⟩

/-! ## Size classes -/

/-- The sizes that the comment on top of `slob.c` gives to a list. -/
def SizeClass.Holds : SizeClass → ℕ → Prop
  | .small, size => size < 256
  | .medium, size => 256 ≤ size ∧ size < 1024
  | .large, size => 1024 ≤ size

theorem slobList_holds (size : ℕ) : (slobList size).Holds size := by
  unfold slobList SLOB_BREAK1 SLOB_BREAK2
  split_ifs with h₁ h₂
  · exact h₁
  · exact ⟨Nat.le_of_not_lt h₁, h₂⟩
  · exact Nat.le_of_not_lt h₂

theorem Rep.segregated {s : State} {live : List Live} {v : View} (h : Rep A s live v) (p : ℕ) :
    ∃ c : SizeClass, (∀ b ∈ live, A.virtToPage b.addr = p → c.Holds b.size) ∧
      ∀ d, p ∈ pageList A s d → d = c := by
  refine ⟨v.cls p, ?_, ?_⟩
  · rintro b hb rfl
    rw [← (h.liveOK b hb).cls]
    exact slobList_holds b.size
  · intro d hd
    rw [h.pageList_eq] at hd
    exact ((h.onList d p).mp hd).2.1.symm

/-- **Segregation.** In every reachable state the live blocks of a slab page are of one size class, and
the page is on no list but that of the class. -/
theorem segregated_of_reachable {y : Sys} (h : Reachable A y) {p : ℕ}
    (_hp : (y.st.page p).slab = true) :
    ∃ c : SizeClass, (∀ b ∈ y.live, A.virtToPage b.addr = p → c.Holds b.size) ∧
      ∀ d, p ∈ pageList A y.st d → d = c := by
  obtain ⟨v, hrep, -⟩ := reachable_inv h
  exact hrep.segregated p

/-- Two blocks fill a page, which leaves the lists and comes back with the free of the first. -/
def refileRun : List Call :=
  [.alloc 2048 ⟨false⟩ 0 none ⟨some 1, fun _ => none⟩,
    .alloc 2048 ⟨false⟩ 0 none ⟨none, fun _ => none⟩, .free ⟨2048, 2048⟩]

theorem segregated_refileRun :
    (runCalls (i386 false) ⟨boot, []⟩ (refileRun.take 2)).map
        (fun y => pageList (i386 false) y.st .large) = some [] ∧
      ∃ y, Reachable (i386 false) y ∧ y.live = [⟨3072, 2048⟩] ∧ (y.st.page 1).slab = true ∧
        pageList (i386 false) y.st .large = [1] ∧
        ∃ c : SizeClass, (∀ b ∈ y.live, (i386 false).virtToPage b.addr = 1 → c.Holds b.size) ∧
          ∀ d, 1 ∈ pageList (i386 false) y.st d → d = c := by
  refine ⟨by decide +kernel, ?_⟩
  obtain ⟨y, hy, hP⟩ := exists_reachable (i386 false) refileRun
    (fun y => y.live = [⟨3072, 2048⟩] && (y.st.page 1).slab &&
      pageList (i386 false) y.st .large = [1]) (by decide +kernel)
  simp only [Bool.and_eq_true, decide_eq_true_eq] at hP
  obtain ⟨⟨hlive, hslab⟩, hlist⟩ := hP
  exact ⟨y, hy, hlive, hslab, hlist, segregated_of_reachable hy hslab⟩

end Cs444.Slob
