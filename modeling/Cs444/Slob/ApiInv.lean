import Cs444.Slob.Api
import Cs444.Slob.Restore

/-!
# What the objects take of the memory

The invariant of the runs of the entry points (`ApiInv`): the objects in use lie in blocks that are live
in the allocator and in pages that the page allocator has handed out, in all of them and in nothing else;
no unit belongs to two objects (`ApiInv.cover_le_one`); and the fields in front of and behind the objects
are what the entry points left there (`Fine`, `Footer`).

It is kept by a write to an object (`ApiInv.poke`), when a block or pages become an object
(`ApiInv.giveBlock`, `ApiInv.givePages`), and when an object gives them back (`ApiInv.takeBlock`,
`ApiInv.takePages`).
-/

namespace Cs444.Slob

variable (T : Target)

/-! ## Bytes and units -/

section Units

variable {T} {A : Arch} {size d : ℕ}

theorem has_div {x : Span} {n a : ℕ} (hn : 0 < n) : x.Has (a / n) ↔ n * x.start ≤ a ∧ a < n * x.fin := by
  unfold Span.Has
  rw [Nat.le_div_iff_mul_le hn, Nat.div_lt_iff_lt_mul hn, Nat.mul_comm, Nat.mul_comm x.fin]

/-- The bytes of a unit outside a span are in front of those of the span or behind them. -/
theorem off_of_not_has {x : Span} {a : ℕ} (n : ℕ) (h : ¬ x.Has a) :
    n * a + n ≤ n * x.start ∨ n * x.fin ≤ n * a := by
  unfold Span.Has at h
  rcases Nat.lt_or_ge a x.start with hlt | hge
  · exact .inl (Nat.mul_le_mul_left n hlt)
  · exact .inr (Nat.mul_le_mul_left n (by omega))

theorem le_units (A : Arch) (size : ℕ) : size ≤ A.SLOB_UNIT * A.SLOB_UNITS size := by
  have hpos := A.slobUnit_pos
  have h := Nat.lt_mul_div_succ (size + A.SLOB_UNIT - 1) hpos
  unfold Arch.SLOB_UNITS
  rw [Nat.mul_add] at h
  omega

theorem units_add (h : A.SLOB_UNIT ∣ d) (size : ℕ) :
    A.SLOB_UNITS (size + d) = A.SLOB_UNITS size + d / A.SLOB_UNIT := by
  obtain ⟨c, rfl⟩ := h
  have hpos := A.slobUnit_pos
  unfold Arch.SLOB_UNITS
  rw [Nat.mul_div_cancel_left _ hpos, ← Nat.add_mul_div_left _ _ hpos]
  congr 1
  omega

theorem unit_pos (T : Target) : 0 < T.unit := T.slobUnit_pos

theorem unit_dvd_minAlign (T : Target) : T.unit ∣ T.minAlign := by
  obtain ⟨k, hk⟩ := T.minAlign_pow
  have hle := T.four_le
  have htwo : 2 ≤ k := by
    by_contra hlt
    have hpow : 2 ^ k ≤ 2 ^ 1 := Nat.pow_le_pow_right (by norm_num) (by omega)
    omega
  refine T.slobUnit_dvd_four.trans ?_
  rw [hk]
  exact pow_dvd_pow 2 htwo

theorem le_getOrder (A : Arch) (size : ℕ) : size ≤ A.PAGE_SIZE * 2 ^ A.getOrder size := by
  have hpos : 0 < A.PAGE_SIZE := Nat.two_pow_pos _
  have hlt : (size - 1) / A.PAGE_SIZE < 2 ^ A.getOrder size := Nat.lt_size_self _
  rw [Nat.div_lt_iff_lt_mul hpos, Nat.mul_comm] at hlt
  have : 0 < A.PAGE_SIZE * 2 ^ A.getOrder size := Nat.mul_pos hpos (Nat.two_pow_pos _)
  omega

end Units

/-! ## What the objects take of the memory -/

/-- The units of `2 ^ r.2` pages from `r.1` on. -/
def pagesSpan (A : Arch) (r : ℕ × ℕ) : Span := ⟨A.pageAddress r.1, 2 ^ r.2 * A.pageUnits⟩

/-- The units of an object, with what surrounds it. -/
def Obj.span (o : Obj) : Span := (o.storage T).elim (Live.span T.toArch) (pagesSpan T.toArch)

/-- The blocks of the objects. -/
def blocksOf (l : List Obj) : List Live := l.filterMap fun o => (o.storage T).getLeft?

/-- The pages of the objects. -/
def pagesOf (l : List Obj) : List (ℕ × ℕ) := l.filterMap fun o => (o.storage T).getRight?

/-- The objects in use: those held, and those whose callback waits. -/
def Api.all (y : Api) : List Obj := y.objs ++ y.rcu.map Prod.snd

/-- What `struct page` and the memory around an object say of it. -/
def Fine (k : Kernel) (o : Obj) : Prop :=
  match o.kind with
  | .kmalloc size =>
    if size < T.PAGE_SIZE - T.minAlign then
      0 < size ∧ T.minAlign ∣ o.ptr ∧ T.minAlign < o.ptr ∧ header T k.st.mem o.ptr = size
    else T.PAGE_SIZE ∣ o.ptr ∧ k.compoundOrder (o.ptr / T.PAGE_SIZE) = T.getOrder size
  | .cache c =>
    Created T c ∧ if c.size < T.PAGE_SIZE then T.unit ∣ o.ptr ∧ (c.align ≠ 0 → c.align ∣ o.ptr)
      else T.PAGE_SIZE ∣ o.ptr

/-- A callback that waits: its object comes from a cache with a footer, which keeps the size. -/
def Footer (k : Kernel) (r : ℕ × Obj) : Prop :=
  ∃ c, r.2.kind = .cache c ∧ c.destroyByRcu = true ∧ r.1 = r.2.ptr + (c.size - T.slobRcuSize) ∧
    wordAt T.unit k.st.mem (r.1 + T.rcuHeadSize) 4 = c.size

/-- The invariant of the runs. -/
structure ApiInv (y : Api) : Prop where
  heap : ∃ live, Reachable T.toArch ⟨y.k.st, live⟩ ∧ live.Perm (blocksOf T y.all)
  out : y.out.Perm (pagesOf T y.all)
  pages : ∀ r ∈ y.out, 0 < r.1 ∧ r.1 + 2 ^ r.2 ≤ T.maxPfn ∧
    ∀ q, InPages r q → (y.k.st.page q).slab = false
  once : ∀ a, cover (y.out.map (pagesSpan T.toArch)) a ≤ 1
  fine : ∀ o ∈ y.all, Fine T y.k o
  footer : ∀ r ∈ y.rcu, Footer T y.k r

variable {T} {y y' : Api} {k k' : Kernel} {o o' : Obj} {m : Mem} {a : ℕ} {l : List Obj}

theorem has_pagesSpan {A : Arch} {r : ℕ × ℕ} : (pagesSpan A r).Has a ↔ InPages r (A.virtToPage a) := by
  have hpos := A.pageUnits_pos
  unfold Span.Has InPages pagesSpan Span.fin Arch.virtToPage Arch.pageAddress
  rw [Nat.le_div_iff_mul_le hpos, Nat.div_lt_iff_lt_mul hpos, Nat.add_mul]

theorem span_of_inl {b : Live} (h : o.storage T = .inl b) : o.span T = b.span T.toArch := by
  unfold Obj.span
  rw [h]
  rfl

theorem span_of_inr {r : ℕ × ℕ} (h : o.storage T = .inr r) : o.span T = pagesSpan T.toArch r := by
  unfold Obj.span
  rw [h]
  rfl

theorem blocksOf_cons (o : Obj) (l : List Obj) :
    blocksOf T (o :: l) = (o.storage T).getLeft?.toList ++ blocksOf T l := by
  unfold blocksOf
  cases h : o.storage T <;> simp [h]

theorem pagesOf_cons (o : Obj) (l : List Obj) :
    pagesOf T (o :: l) = (o.storage T).getRight?.toList ++ pagesOf T l := by
  unfold pagesOf
  cases h : o.storage T <;> simp [h]

/-- The units of the objects are those of their blocks and their pages. -/
theorem cover_objs (l : List Obj) (a : ℕ) : cover (l.map (Obj.span T)) a =
    cover (spans T.toArch (blocksOf T l)) a + cover ((pagesOf T l).map (pagesSpan T.toArch)) a := by
  induction l with
  | nil => rfl
  | cons o l ih =>
    rw [List.map_cons, cover_cons, ih]
    cases hst : o.storage T with
    | inl b =>
      rw [span_of_inl hst]
      simp [blocksOf, pagesOf, hst, spans, cover_cons, Nat.add_assoc]
    | inr r =>
      rw [span_of_inr hst]
      simp [blocksOf, pagesOf, hst, cover_cons, Nat.add_left_comm]

theorem ApiInv.not_slab (h : ApiInv T y) {r : ℕ × ℕ} (hr : r ∈ y.out) (ha : (pagesSpan T.toArch r).Has a) :
    (y.k.st.page (T.virtToPage a)).slab = false :=
  (h.pages r hr).2.2 _ (has_pagesSpan.mp ha)

/-- **No unit belongs to two objects.** -/
theorem ApiInv.cover_le_one (h : ApiInv T y) (a : ℕ) : cover (y.all.map (Obj.span T)) a ≤ 1 := by
  obtain ⟨live, hreach, hperm⟩ := h.heap
  obtain ⟨v, hrep, -⟩ := reachable_inv hreach
  have hlives : cover (spans T.toArch (blocksOf T y.all)) a = cover (spans T.toArch live) a :=
    cover_perm (hperm.map _).symm a
  rw [cover_objs, hlives, ← cover_perm (h.out.map _)]
  by_cases hslab : (y.k.st.page (T.virtToPage a)).slab = true
  · have hout : cover (y.out.map (pagesSpan T.toArch)) a = 0 := by
      refine cover_eq_zero_iff.mpr fun x hx ha => ?_
      obtain ⟨r, hr, rfl⟩ := List.mem_map.mp hx
      rw [h.not_slab hr ha] at hslab
      cases hslab
    have hone : cover (spans T.toArch live) a ≤ 1 := hrep.cover_live_le_one a
    omega
  · have hlive : cover (spans T.toArch live) a = 0 :=
      hrep.cover_live_eq_zero fun e => hslab ((hrep.held _).mp e)
    have hone := h.once a
    omega

/-- Two objects in use share no unit. -/
theorem ApiInv.apart (h : ApiInv T y) (ho : o ∈ y.all) (ho' : o' ∈ y.all) (ha : (o.span T).Has a)
    (ha' : (o'.span T).Has a) : o = o' := by
  have hpair := pairwise_disjoint_of_cover_le h.cover_le_one
  rw [List.pairwise_map] at hpair
  by_contra hne
  have hsymm : Std.Symm fun o o' : Obj => ∀ a, ¬ ((o.span T).Has a ∧ (o'.span T).Has a) :=
    ⟨fun _ _ h a ha => h a ha.symm⟩
  exact hpair.forall ho ho' hne a ⟨ha, ha'⟩

/-! ## Objects in their units -/

/-- The bytes in front of an object. -/
def Obj.lead (T : Target) (o : Obj) : ℕ :=
  match o.kind with
  | .kmalloc size => if size < T.PAGE_SIZE - T.minAlign then T.minAlign else 0
  | .cache _ => 0

/-- The bytes of an object, with its footer. -/
def Obj.room (T : Target) (o : Obj) : ℕ :=
  match o.kind with
  | .kmalloc _ => o.usable T
  | .cache c => c.size

theorem unit_mul_pageUnits (A : Arch) : A.SLOB_UNIT * A.pageUnits = A.PAGE_SIZE := by
  rw [Nat.mul_comm]
  exact A.pageUnits_mul

theorem unit_mul_pagesSpan (A : Arch) (r : ℕ × ℕ) :
    A.SLOB_UNIT * (pagesSpan A r).start = A.PAGE_SIZE * r.1 ∧
      A.SLOB_UNIT * (pagesSpan A r).fin = A.PAGE_SIZE * r.1 + A.PAGE_SIZE * 2 ^ r.2 := by
  unfold pagesSpan Span.fin Arch.pageAddress
  rw [← unit_mul_pageUnits]
  constructor <;> ring

/-- The units of an object hold the bytes in front of it and its own. -/
theorem Fine.extent (h : Fine T k o) : T.unit * (o.span T).start + o.lead T = o.ptr ∧
    o.ptr + o.room T ≤ T.unit * (o.span T).fin := by
  obtain ⟨ptr, kind⟩ := o
  unfold Fine at h
  cases kind with
  | kmalloc size =>
    by_cases hs : size < T.PAGE_SIZE - T.minAlign
    · simp only [if_pos hs] at h
      obtain ⟨-, hdvd, hlt, -⟩ := h
      have hunit := unit_dvd_minAlign T
      have hback : T.unit * ((ptr - T.minAlign) / T.unit) = ptr - T.minAlign :=
        Nat.mul_div_cancel' (Nat.dvd_sub (hunit.trans hdvd) hunit)
      rw [span_of_inl (b := ⟨(ptr - T.minAlign) / T.unit, size + T.minAlign⟩)
        (by simp [Obj.storage, hs])]
      simp only [Obj.lead, Obj.room, Obj.usable, if_pos hs, Live.span, Span.fin_mk]
      rw [units_add hunit, Nat.mul_add, Nat.mul_add, hback, Nat.mul_div_cancel' hunit,
        Nat.mul_comm (T.SLOB_UNITS size)]
      omega
    · simp only [if_neg hs] at h
      have hback := Nat.mul_div_cancel' h.1
      rw [span_of_inr (r := (ptr / T.PAGE_SIZE, T.getOrder size)) (by simp [Obj.storage, hs]),
        (unit_mul_pagesSpan _ _).1, (unit_mul_pagesSpan _ _).2, hback]
      simp [Obj.lead, Obj.room, Obj.usable, hs]
  | cache c =>
    obtain ⟨-, h⟩ := h
    by_cases hs : c.size < T.PAGE_SIZE
    · rw [if_pos hs] at h
      have hback := Nat.mul_div_cancel' h.1
      have hle := le_units T.toArch c.size
      rw [span_of_inl (b := ⟨ptr / T.unit, c.size⟩) (by simp [Obj.storage, hs])]
      simp only [Obj.lead, Obj.room, Live.span, Span.fin_mk]
      rw [Nat.mul_add, hback]
      exact ⟨rfl, Nat.add_le_add_left hle ptr⟩
    · rw [if_neg hs] at h
      have hback := Nat.mul_div_cancel' h
      have hle := le_getOrder T.toArch c.size
      rw [span_of_inr (r := (ptr / T.PAGE_SIZE, T.getOrder c.size)) (by simp [Obj.storage, hs]),
        (unit_mul_pagesSpan _ _).1, (unit_mul_pagesSpan _ _).2, hback]
      exact ⟨rfl, Nat.add_le_add_left hle ptr⟩

/-- A byte of an object lies in its units. -/
theorem Fine.has (h : Fine T k o) (h₁ : o.ptr ≤ a + o.lead T) (h₂ : a < o.ptr + o.room T) :
    (o.span T).Has (a / T.unit) := by
  obtain ⟨hlo, hhi⟩ := h.extent
  rw [has_div (unit_pos T)]
  omega

theorem Created.objectSize_le {c : Cache} (h : Created T c) : c.objectSize ≤ c.size := by
  obtain ⟨c₀, rcu, rfl, hle, -⟩ := h
  unfold kmemCacheCreate
  split_ifs
  · exact hle.trans (Nat.le_add_right ..)
  · exact hle

theorem Fine.usable_le (h : Fine T k o) : o.usable T ≤ o.room T := by
  obtain ⟨ptr, kind⟩ := o
  cases kind with
  | kmalloc size => rfl
  | cache c => exact h.1.objectSize_le

/-- The footer lies behind the object, in its room. -/
theorem Created.footer {c : Cache} (h : Created T c) (hrcu : c.destroyByRcu = true) :
    c.objectSize + T.slobRcuSize ≤ c.size := by
  obtain ⟨c₀, rcu, rfl, hle, -⟩ := h
  obtain rfl : rcu = true := hrcu
  simpa [kmemCacheCreate] using hle

/-! ## Writing to an object -/

/-- The bytes of an object that is not written to. -/
theorem Fine.byteAt_eq (h : Fine T k o) (hm : ∀ a, (o.span T).Has a → m a = k.st.mem a)
    (h₁ : o.ptr ≤ a + o.lead T) (h₂ : a < o.ptr + o.room T) :
    byteAt T.unit m a = byteAt T.unit k.st.mem a :=
  byteAt_congr (hm _ (h.has h₁ h₂))

/-- An object stays fine while its header and the order of its pages stay. -/
theorem Fine.congr (h : Fine T k o)
    (hhead : ∀ a, o.ptr ≤ a + o.lead T → a < o.ptr →
      byteAt T.unit k'.st.mem a = byteAt T.unit k.st.mem a)
    (hord : ∀ r, o.storage T = .inr r → k'.compoundOrder r.1 = k.compoundOrder r.1) : Fine T k' o := by
  obtain ⟨ptr, kind⟩ := o
  unfold Fine at h ⊢
  cases kind with
  | kmalloc size =>
    by_cases hs : size < T.PAGE_SIZE - T.minAlign
    · simp only [if_pos hs] at h ⊢
      obtain ⟨hpos, hdvd, hlt, hsize⟩ := h
      refine ⟨hpos, hdvd, hlt, (wordAt_congr fun i hi => hhead _ ?_ ?_).trans hsize⟩
      · simp only [Obj.lead, if_pos hs]
        omega
      · have hfour := T.four_le
        show ptr - T.minAlign + i < ptr
        omega
    · simp only [if_neg hs] at h ⊢
      exact ⟨h.1, (hord (ptr / T.PAGE_SIZE, T.getOrder size) (by simp [Obj.storage, hs])).trans h.2⟩
  | cache c => exact h

/-- An object whose units stay stays fine. -/
theorem Fine.keep (h : Fine T k o) (hm : ∀ a, (o.span T).Has a → k'.st.mem a = k.st.mem a)
    (hord : ∀ r, o.storage T = .inr r → k'.compoundOrder r.1 = k.compoundOrder r.1) : Fine T k' o :=
  h.congr (fun _ h₁ h₂ => h.byteAt_eq hm h₁ (by omega)) hord

/-- A footer stays while its bytes stay. -/
theorem Footer.congr {r : ℕ × Obj} (h : Footer T k r)
    (hmem : ∀ a, r.1 + T.rcuHeadSize ≤ a → a < r.1 + T.rcuHeadSize + 4 →
      byteAt T.unit k'.st.mem a = byteAt T.unit k.st.mem a) : Footer T k' r := by
  obtain ⟨c, hkind, hrcu, hhead, hword⟩ := h
  exact ⟨c, hkind, hrcu, hhead, (wordAt_congr fun i hi => hmem _ (by omega) (by omega)).trans hword⟩

/-- The place of a footer: behind what the readers may use, and in the room of the object. -/
theorem Footer.place {r : ℕ × Obj} (h : Footer T k r) (hfine : Fine T k r.2) :
    r.2.ptr + r.2.usable T ≤ r.1 ∧ r.1 + T.rcuHeadSize + 4 ≤ r.2.ptr + r.2.room T := by
  obtain ⟨c, hkind, hrcu, hhead, -⟩ := h
  obtain ⟨head, ptr, kind⟩ := r
  obtain rfl : kind = .cache c := hkind
  have hfoot := Created.footer hfine.1 hrcu
  have hsize := T.slobRcuSize_le
  simp only at hhead
  simp only [Obj.usable, Obj.room]
  omega

/-- A footer stays while the units of its object stay. -/
theorem Footer.keep {r : ℕ × Obj} (h : Footer T k r) (hfine : Fine T k r.2)
    (hm : ∀ a, (r.2.span T).Has a → k'.st.mem a = k.st.mem a) : Footer T k' r := by
  have hplace := h.place hfine
  exact h.congr fun a _ _ => hfine.byteAt_eq hm (by omega) (by omega)

theorem ApiInv.mem_all_of_rcu {r : ℕ × Obj} (hr : r ∈ y.rcu) : r.2 ∈ y.all :=
  List.mem_append_right _ (List.mem_map_of_mem hr)

theorem ApiInv.place (h : ApiInv T y) {r : ℕ × Obj} (hr : r ∈ y.rcu) :
    r.2.ptr + r.2.usable T ≤ r.1 ∧ r.1 + T.rcuHeadSize + 4 ≤ r.2.ptr + r.2.room T :=
  (h.footer r hr).place (h.fine _ (ApiInv.mem_all_of_rcu hr))

theorem ApiInv.mem_blocks {live : List Live} {b : Live} (hperm : live.Perm (blocksOf T y.all))
    (ho : o ∈ y.all) (hst : o.storage T = .inl b) : b ∈ live :=
  hperm.mem_iff.mpr (List.mem_filterMap.mpr ⟨o, ho, by rw [hst]; rfl⟩)

theorem ApiInv.mem_out (h : ApiInv T y) {r : ℕ × ℕ} (ho : o ∈ y.all) (hst : o.storage T = .inr r) :
    r ∈ y.out :=
  h.out.mem_iff.mpr (List.mem_filterMap.mpr ⟨o, ho, by rw [hst]; rfl⟩)

/-- The page of an object in a block is a slab page. -/
theorem ApiInv.slab (h : ApiInv T y) (ho : o ∈ y.all) {b : Live} (hst : o.storage T = .inl b)
    (ha : (o.span T).Has a) : (y.k.st.page (T.virtToPage a)).slab = true := by
  obtain ⟨live, hreach, hperm⟩ := h.heap
  obtain ⟨v, hrep, -⟩ := reachable_inv hreach
  rw [span_of_inl hst] at ha
  exact hrep.slab_of_live (ApiInv.mem_blocks hperm ho hst) ha

/-- A write to the units of an object is a step outside the allocator. -/
theorem ApiInv.outside (h : ApiInv T y) {live : List Live} (hperm : live.Perm (blocksOf T y.all))
    (ho : o ∈ y.all) (hm : ∀ a, ¬ (o.span T).Has a → m a = y.k.st.mem a) :
    Outside T.toArch y.k.st live { y.k.st with mem := m } := by
  refine ⟨fun a hslab hcov => hm a fun ha => ?_, fun _ _ => rfl, fun _ => rfl, fun _ => rfl,
    fun _ _ => ⟨rfl, rfl⟩⟩
  cases hst : o.storage T with
  | inl b =>
    rw [span_of_inl hst] at ha
    have := cover_pos_of_has (ApiInv.mem_blocks hperm ho hst) ha
    omega
  | inr r =>
    rw [span_of_inr hst] at ha
    rw [h.not_slab (h.mem_out ho hst) ha] at hslab
    cases hslab

/-- **A write to the units of an object** keeps the invariant when it leaves its header and the footer
behind it alone. -/
theorem ApiInv.setMem (h : ApiInv T y) (ho : o ∈ y.all)
    (hm : ∀ a, ¬ (o.span T).Has a → m a = y.k.st.mem a)
    (hhead : ∀ a, o.ptr ≤ a + o.lead T → a < o.ptr → byteAt T.unit m a = byteAt T.unit y.k.st.mem a)
    (hfoot : ∀ r ∈ y.rcu, r.2 = o → Footer T (y.k.setMem m) r) :
    ApiInv T { y with k := y.k.setMem m } := by
  have hother : ∀ o' ∈ y.all, o' ≠ o → ∀ a, (o'.span T).Has a → m a = y.k.st.mem a :=
    fun o' ho' hne a ha => hm a fun ha' => hne (h.apart ho' ho ha ha')
  refine ⟨?_, h.out, h.pages, h.once, ?_, ?_⟩
  · obtain ⟨live, ⟨s₀, hinit, hrun⟩, hperm⟩ := h.heap
    exact ⟨live, ⟨s₀, hinit, hrun.tail (.outside (h.outside hperm ho hm) rfl)⟩, hperm⟩
  · intro o' ho'
    by_cases hne : o' = o
    · subst hne
      exact (h.fine o' ho').congr hhead fun _ _ => rfl
    · exact (h.fine o' ho').keep (hother o' ho' hne) fun _ _ => rfl
  · intro r hr
    by_cases hne : r.2 = o
    · exact hfoot r hr hne
    · have hall := ApiInv.mem_all_of_rcu hr
      exact (h.footer r hr).keep (h.fine _ hall) (hother _ hall hne)

/-- A byte written behind the header of an object and in front of the size in its footer. -/
theorem ApiInv.poke (h : ApiInv T y) (ho : o ∈ y.all) {x : ℕ} (hx : x < 256) (hlo : o.ptr ≤ a)
    (hhi : a < o.ptr + o.room T) (hfoot : ∀ r ∈ y.rcu, r.2 = o → a < r.1 + T.rcuHeadSize) :
    ApiInv T (y.poke T a x) := by
  have hunit := unit_pos T
  have hhas := (h.fine o ho).has (a := a) (by omega) hhi
  refine h.setMem ho ?_ ?_ ?_
  · intro u hu
    refine putByte_off _ _ fun e => hu ?_
    rw [e]
    exact hhas
  · intro b _ hb
    exact byteAt_putByte_ne hunit _ hx (by omega)
  · intro r hr hro
    have hlt := hfoot r hr hro
    exact (h.footer r hr).congr fun b h₁ _ => byteAt_putByte_ne hunit _ hx (by omega)

/-! ## Handing out an object -/

section Give

variable {node : Option ℕ} {src : PagesSource} {gfp : Gfp} {size align b : ℕ} {s : State}
  {r : Option ℕ}

theorem FreshPages.fresh (h : FreshPages T y node src) :
    Fresh T.toArch y.k.st (src.order 0) node := by
  intro p hp
  obtain ⟨hpos, hle, hq⟩ := h 0 p hp
  exact ⟨(hq p ⟨le_rfl, Nat.lt_succ_self p⟩).1, hpos, hle⟩

/-- `slob_alloc` makes a slab page of its new page only. -/
theorem Rep.slab_of_slobAlloc {A : Arch} {s₀ : State} {live : List Live} {v : View} {src : PageSource}
    (h : Rep A s₀ live v) (hpos : 0 < size) (hlt : size < A.PAGE_SIZE) (hfresh : Fresh A s₀ src node)
    (he : slobAlloc A s₀ size gfp align node src = some (s, r)) {q : ℕ}
    (hq : (s.page q).slab = true) : (s₀.page q).slab = true ∨ q ∈ slobNewPages A src node := by
  rcases h.slobAlloc_cases hpos hlt hfresh he with ⟨-, rfl⟩ | ⟨p, addr, v', -, hal, hheld⟩
  · exact .inl hq
  · rw [← hal.rep.held] at hq
    rcases hheld with ⟨-, h₁, -⟩ | ⟨hp, -, h₁, -⟩
    · exact .inl ((h.held q).mp (h₁ ▸ hq))
    · rcases Finset.mem_insert.mp (h₁ ▸ hq) with rfl | hold
      · exact .inr hp
      · exact .inl ((h.held q).mp hold)

/-- The pages handed out do not become slab pages. -/
theorem ApiInv.not_slab_of_alloc (h : ApiInv T y) (hfresh : FreshPages T y node src) (hpos : 0 < size)
    (hlt : size < T.PAGE_SIZE)
    (he : slobAlloc T.toArch y.k.st size gfp align node (src.order 0) = some (s, r)) {p : ℕ × ℕ}
    (hp : p ∈ y.out) {q : ℕ} (hq : InPages p q) : (s.page q).slab = false := by
  obtain ⟨live, hreach, -⟩ := h.heap
  obtain ⟨v, hrep, -⟩ := reachable_inv hreach
  rw [Bool.eq_false_iff]
  intro hslab
  rcases hrep.slab_of_slobAlloc hpos hlt hfresh.fresh he hslab with hold | hnew
  · rw [(h.pages p hp).2.2 q hq] at hold
    cases hold
  · exact ((hfresh 0 q hnew).2.2 q ⟨le_rfl, Nat.lt_succ_self q⟩).2 p hp hq

/-- `slob_alloc` leaves the objects alone. -/
theorem ApiInv.mem_of_alloc (h : ApiInv T y) (hfresh : FreshPages T y node src) (hpos : 0 < size)
    (hlt : size < T.PAGE_SIZE)
    (he : slobAlloc T.toArch y.k.st size gfp align node (src.order 0) = some (s, r)) (ho : o ∈ y.all)
    (ha : (o.span T).Has a) : s.mem a = y.k.st.mem a := by
  obtain ⟨live, hreach, hperm⟩ := h.heap
  obtain ⟨v, hrep, -⟩ := reachable_inv hreach
  refine hrep.slobAlloc_mem hpos hlt hfresh.fresh he ?_
  cases hst : o.storage T with
  | inl b =>
    rw [span_of_inl hst] at ha
    exact .inl (cover_pos_of_has (ApiInv.mem_blocks hperm ho hst) ha)
  | inr p =>
    rw [span_of_inr hst] at ha
    have hout := h.mem_out ho hst
    exact .inr ⟨h.not_slab hout ha,
      h.not_slab_of_alloc hfresh hpos hlt he hout (has_pagesSpan.mp ha)⟩

/-- **A block becomes an object**, with what is written to it; the objects in use keep their units. -/
theorem ApiInv.giveBlock (h : ApiInv T y) (hfresh : FreshPages T y node src) (hpos : 0 < size)
    (hlt : size < T.PAGE_SIZE)
    (he : slobAlloc T.toArch y.k.st size gfp align node (src.order 0) = some (s, some b))
    (hst : o.storage T = .inl ⟨b, size⟩) (hm : ∀ a, ¬ (o.span T).Has a → m a = s.mem a)
    (hfine : Fine T { y.k with st := { s with mem := m } } o) :
    ApiInv T { y with k := { y.k with st := { s with mem := m } }, objs := o :: y.objs } ∧
      ∀ o' ∈ y.all, ∀ a, (o'.span T).Has a → m a = y.k.st.mem a := by
  obtain ⟨live, hreach, hperm⟩ := h.heap
  have hlegal : Legal T.toArch ⟨y.k.st, live⟩ (.alloc size gfp align node (src.order 0)) :=
    ⟨hpos, hlt, hfresh.fresh⟩
  have hcall : Reachable T.toArch ⟨s, ⟨b, size⟩ :: live⟩ := by
    refine hreach.call hlegal ?_
    simp only [exec, he]
    rfl
  obtain ⟨v', hrep', -⟩ := reachable_inv hcall
  have hblock : ∀ a, cover (spans T.toArch (⟨b, size⟩ :: live)) a =
      (if (o.span T).Has a then 1 else 0) + cover (spans T.toArch live) a := by
    intro a
    rw [span_of_inl hst, spans_cons, cover_cons]
  -- the objects in use keep their units
  have hkept : ∀ o' ∈ y.all, ∀ a, (o'.span T).Has a → m a = y.k.st.mem a := by
    intro o' ho' a ha
    refine (hm a fun hin => ?_).trans (h.mem_of_alloc hfresh hpos hlt he ho' ha)
    cases hst' : o'.storage T with
    | inl b' =>
      rw [span_of_inl hst'] at ha
      have hone : cover (spans T.toArch (⟨b, size⟩ :: live)) a ≤ 1 := hrep'.cover_live_le_one a
      have hcov := cover_pos_of_has (ApiInv.mem_blocks hperm ho' hst') ha
      rw [hblock, if_pos hin] at hone
      omega
    | inr p =>
      rw [span_of_inr hst'] at ha
      rw [span_of_inl hst] at hin
      have hslab := hrep'.slab_of_live (List.mem_cons_self ..) hin
      rw [h.not_slab_of_alloc hfresh hpos hlt he (h.mem_out ho' hst') (has_pagesSpan.mp ha)] at hslab
      cases hslab
  refine ⟨⟨?_, ?_, ?_, h.once, ?_, ?_⟩, hkept⟩
  · obtain ⟨s₀, hinit, hrun⟩ := hcall
    refine ⟨⟨b, size⟩ :: live, ⟨s₀, hinit, hrun.tail (.outside ⟨fun a _ hcov => hm a fun hin => ?_,
      fun _ _ => rfl, fun _ => rfl, fun _ => rfl, fun _ _ => ⟨rfl, rfl⟩⟩ rfl)⟩, ?_⟩
    · simp only [hblock, if_pos hin] at hcov
      omega
    · show (⟨b, size⟩ :: live : List Live).Perm (blocksOf T (o :: y.all))
      rw [blocksOf_cons, hst]
      exact hperm.cons _
  · show y.out.Perm (pagesOf T (o :: y.all))
    rw [pagesOf_cons, hst]
    exact h.out
  · intro p hp
    obtain ⟨h₁, h₂, -⟩ := h.pages p hp
    exact ⟨h₁, h₂, fun q hq => h.not_slab_of_alloc hfresh hpos hlt he hp hq⟩
  · intro o' ho'
    rcases List.mem_cons.mp ho' with rfl | ho'
    · exact hfine
    · exact (h.fine o' ho').keep (hkept o' ho') fun _ _ => rfl
  · intro p hp
    have hall : p.2 ∈ y.all := ApiInv.mem_all_of_rcu hp
    exact (h.footer p hp).keep (h.fine _ hall) (hkept _ hall)

/-- **Pages become an object**, with what is written to them; the objects in use keep their units. -/
theorem ApiInv.givePages (h : ApiInv T y) (hfresh : FreshPages T y node src) {order p : ℕ}
    (hp : p ∈ slobNewPages T.toArch (src.order order) node) (hst : o.storage T = .inr (p, order))
    (hk : k.st = { y.k.st with mem := k.st.mem })
    (hm : ∀ a, ¬ (o.span T).Has a → k.st.mem a = y.k.st.mem a)
    (hord : ∀ q ≠ p, k.compoundOrder q = y.k.compoundOrder q) (hfine : Fine T k o) :
    ApiInv T { y with k := k, objs := o :: y.objs, out := (p, order) :: y.out } ∧
      ∀ o' ∈ y.all, ∀ a, (o'.span T).Has a → k.st.mem a = y.k.st.mem a := by
  obtain ⟨hpos, hle, hnew⟩ := hfresh order p hp
  obtain ⟨live, ⟨s₀, hinit, hrun⟩, hperm⟩ := h.heap
  have hspan := span_of_inr hst
  have hslab : ∀ a, (o.span T).Has a → (y.k.st.page (T.virtToPage a)).slab = false := by
    intro a ha
    rw [hspan, has_pagesSpan] at ha
    exact (hnew _ ha).1
  have hpage : k.st.page = y.k.st.page := by rw [hk]
  -- the objects in use keep their units
  have hkept : ∀ o' ∈ y.all, ∀ a, (o'.span T).Has a → k.st.mem a = y.k.st.mem a := by
    intro o' ho' a ha
    refine hm a fun hin => ?_
    cases hst' : o'.storage T with
    | inl b' =>
      have hheld := h.slab ho' hst' ha
      rw [hslab a hin] at hheld
      cases hheld
    | inr r =>
      rw [span_of_inr hst', has_pagesSpan] at ha
      rw [hspan, has_pagesSpan] at hin
      exact (hnew _ hin).2 r (h.mem_out ho' hst') ha
  have hcompound : ∀ o' ∈ y.all, ∀ r, o'.storage T = .inr r →
      k.compoundOrder r.1 = y.k.compoundOrder r.1 := by
    intro o' ho' r hr
    refine hord r.1 ?_
    rintro rfl
    exact (hnew r.1 ⟨le_rfl, Nat.lt_add_of_pos_right (Nat.two_pow_pos _)⟩).2 r (h.mem_out ho' hr)
      ⟨le_rfl, Nat.lt_add_of_pos_right (Nat.two_pow_pos _)⟩
  refine ⟨⟨⟨live, ⟨s₀, hinit, hrun.tail ?_⟩, ?_⟩, ?_, ?_, ?_, ?_, ?_⟩, hkept⟩
  · show Step T.toArch ⟨y.k.st, live⟩ ⟨k.st, live⟩
    rw [hk]
    refine .outside ⟨fun a ha _ => hm a fun hin => ?_, fun _ _ => rfl, fun _ => rfl, fun _ => rfl,
      fun _ _ => ⟨rfl, rfl⟩⟩ rfl
    simp only at ha
    rw [hslab a hin] at ha
    cases ha
  · show live.Perm (blocksOf T (o :: y.all))
    rw [blocksOf_cons, hst]
    exact hperm
  · show ((p, order) :: y.out).Perm (pagesOf T (o :: y.all))
    rw [pagesOf_cons, hst]
    exact h.out.cons _
  · intro r hr
    show 0 < r.1 ∧ r.1 + 2 ^ r.2 ≤ T.maxPfn ∧ ∀ q, InPages r q → (k.st.page q).slab = false
    rw [hpage]
    rcases List.mem_cons.mp hr with rfl | hr
    · exact ⟨hpos, hle, fun q hq => (hnew q hq).1⟩
    · exact h.pages r hr
  · intro a
    have hone := h.once a
    show cover (pagesSpan T.toArch (p, order) :: y.out.map (pagesSpan T.toArch)) a ≤ 1
    rw [cover_cons]
    split_ifs with hin
    · have hzero : cover (y.out.map (pagesSpan T.toArch)) a = 0 := by
        refine cover_eq_zero_iff.mpr fun x hx ha => ?_
        obtain ⟨r, hr, rfl⟩ := List.mem_map.mp hx
        exact (hnew _ (has_pagesSpan.mp hin)).2 r hr (has_pagesSpan.mp ha)
      omega
    · omega
  · intro o' ho'
    rcases List.mem_cons.mp ho' with rfl | ho'
    · exact hfine
    · exact (h.fine o' ho').keep (hkept o' ho') (hcompound o' ho')
  · intro r hr
    have hall : r.2 ∈ y.all := ApiInv.mem_all_of_rcu hr
    exact (h.footer r hr).keep (h.fine _ hall) (hkept _ hall)

end Give

/-! ## Taking an object back -/

section Take

variable {objs : List Obj} {rcu : List (ℕ × Obj)} {b : Live} {r : ℕ × ℕ}

theorem blocksOf_perm {l l' : List Obj} (h : l.Perm l') : (blocksOf T l).Perm (blocksOf T l') :=
  h.filterMap _

theorem pagesOf_perm {l l' : List Obj} (h : l.Perm l') : (pagesOf T l).Perm (pagesOf T l') :=
  h.filterMap _

/-- The objects in use may change hands. -/
theorem ApiInv.rearrange (h : ApiInv T y) (hperm : (objs ++ rcu.map Prod.snd).Perm y.all)
    (hfoot : ∀ r ∈ rcu, Footer T y.k r) : ApiInv T ⟨y.k, objs, rcu, y.out⟩ := by
  obtain ⟨live, hreach, hlive⟩ := h.heap
  exact ⟨⟨live, hreach, hlive.trans (blocksOf_perm hperm.symm)⟩, h.out.trans (pagesOf_perm hperm.symm),
    h.pages, h.once, fun o ho => h.fine o (hperm.mem_iff.mp ho), hfoot⟩

/-- **A block is freed**: `slob_free` returns, and the other objects keep their units. -/
theorem ApiInv.takeBlock (h : ApiInv T y) (hst : o.storage T = .inl b)
    (hperm : y.all.Perm (o :: (objs ++ rcu.map Prod.snd))) (hrcu : ∀ r ∈ rcu, r ∈ y.rcu) :
    ∃ s, slobFree T.toArch y.k.st b.addr b.size = some s ∧
      ApiInv T ⟨{ y.k with st := s }, objs, rcu, y.out⟩ ∧
      ∀ o' ∈ objs ++ rcu.map Prod.snd, ∀ a, (o'.span T).Has a → s.mem a = y.k.st.mem a := by
  obtain ⟨live, hreach, hlive⟩ := h.heap
  obtain ⟨v, hrep, -⟩ := reachable_inv hreach
  have hsub : ∀ o' ∈ objs ++ rcu.map Prod.snd, o' ∈ y.all := fun o' ho' =>
    hperm.mem_iff.mpr (List.mem_cons_of_mem _ ho')
  have hb : b ∈ live := ApiInv.mem_blocks hlive (hperm.mem_iff.mpr (List.mem_cons_self ..)) hst
  obtain ⟨s, v', hfree, hrep', hheld⟩ := hrep.slobFree hb
  have hlive' : (live.erase b).Perm (blocksOf T (objs ++ rcu.map Prod.snd)) := by
    have hcons := hlive.trans (blocksOf_perm hperm)
    rw [blocksOf_cons, hst] at hcons
    simpa using hcons.erase b
  have hslab : ∀ q, (s.page q).slab = true → (y.k.st.page q).slab = true := by
    intro q hq
    rw [← hrep'.held] at hq
    refine (hrep.held q).mp ?_
    rcases hheld with ⟨h₁, -⟩ | ⟨-, h₁, -⟩
    · exact h₁ ▸ hq
    · rw [h₁] at hq
      exact Finset.mem_of_mem_erase hq
  have hkept : ∀ o' ∈ objs ++ rcu.map Prod.snd, ∀ a, (o'.span T).Has a → s.mem a = y.k.st.mem a := by
    intro o' ho' a ha
    refine hrep.slobFree_mem hb hfree ?_
    cases hst' : o'.storage T with
    | inl b' =>
      rw [span_of_inl hst'] at ha
      refine .inl (cover_pos_of_has (hlive'.mem_iff.mpr ?_) ha)
      exact List.mem_filterMap.mpr ⟨o', ho', by rw [hst']; rfl⟩
    | inr r =>
      rw [span_of_inr hst'] at ha
      exact .inr (h.not_slab (h.mem_out (hsub o' ho') hst') ha)
  refine ⟨s, hfree, ⟨⟨live.erase b, hreach.call (c := .free b) hb ?_, hlive'⟩, ?_, ?_, h.once, ?_, ?_⟩,
    hkept⟩
  · simp only [exec, hfree]
    rfl
  · have hcons := h.out.trans (pagesOf_perm hperm)
    rw [pagesOf_cons, hst] at hcons
    exact hcons
  · intro r hr
    obtain ⟨h₁, h₂, h₃⟩ := h.pages r hr
    refine ⟨h₁, h₂, fun q hq => ?_⟩
    rw [Bool.eq_false_iff]
    intro hq'
    have hold := hslab q hq'
    rw [h₃ q hq] at hold
    cases hold
  · exact fun o' ho' => (h.fine o' (hsub o' ho')).keep (hkept o' ho') fun _ _ => rfl
  · intro r hr
    have hmem : r.2 ∈ objs ++ rcu.map Prod.snd := List.mem_append_right _ (List.mem_map_of_mem hr)
    exact (h.footer r (hrcu r hr)).keep (h.fine _ (hsub _ hmem)) (hkept _ hmem)

/-- **Pages are freed**: they are pages that the page allocator has handed out. -/
theorem ApiInv.takePages (h : ApiInv T y) (hst : o.storage T = .inr r)
    (hperm : y.all.Perm (o :: (objs ++ rcu.map Prod.snd))) (hrcu : ∀ r ∈ rcu, r ∈ y.rcu) :
    r ∈ y.out ∧ ApiInv T ⟨y.k, objs, rcu, y.out.erase r⟩ := by
  obtain ⟨live, hreach, hlive⟩ := h.heap
  have hr : r ∈ y.out := h.mem_out (hperm.mem_iff.mpr (List.mem_cons_self ..)) hst
  refine ⟨hr, ⟨live, hreach, ?_⟩, ?_, ?_, ?_, ?_, fun x hx => h.footer x (hrcu x hx)⟩
  · have hcons := hlive.trans (blocksOf_perm hperm)
    rw [blocksOf_cons, hst] at hcons
    exact hcons
  · have hcons := h.out.trans (pagesOf_perm hperm)
    rw [pagesOf_cons, hst] at hcons
    have herase := hcons.erase r
    rw [show (Sum.inr r : Live ⊕ (ℕ × ℕ)).getRight?.toList ++ pagesOf T (objs ++ rcu.map Prod.snd) =
      r :: pagesOf T (objs ++ rcu.map Prod.snd) from rfl, List.erase_cons_head] at herase
    exact herase
  · exact fun x hx => h.pages x (List.mem_of_mem_erase hx)
  · intro a
    exact (((List.erase_sublist ..).map _).countP_le ..).trans (h.once a)
  · exact fun o' ho' => h.fine o' (hperm.mem_iff.mpr (List.mem_cons_of_mem _ ho'))

end Take

end Cs444.Slob
