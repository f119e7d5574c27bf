import Cs444.Slob.ApiInv

/-!
# Runs of the entry points

The invariant holds in every run (`ApiRun.inv`), and every legal call of an entry point returns
(`ApiInv.exec`): the size that `kfree` reads in front of an object and the one that `kmem_rcu_free` reads
behind it are the ones the blocks were allocated with, and so `slob_free` gets its block back.
-/

namespace Cs444.Slob

variable {T : Target} {y y' : Api} {k k' : Kernel} {o : Obj} {m : Mem} {a b i n x : ℕ}

/-! ## What the entry points write -/

section Writes

variable {A : Arch} {size order p : ℕ} {f : ℕ → ℕ → Option ℕ}

/-- `memset` clears every byte of the block. -/
theorem byteAt_memsetZero (m : Mem) (h₁ : A.SLOB_UNIT * b ≤ a) (h₂ : a < A.SLOB_UNIT * b + size) :
    byteAt A.SLOB_UNIT (memsetZero A m b size) a = 0 := by
  have hpos := A.slobUnit_pos
  have hlo : b ≤ a / A.SLOB_UNIT := (Nat.le_div_iff_mul_le hpos).mpr (by rwa [Nat.mul_comm])
  have hdiv := Nat.div_add_mod a A.SLOB_UNIT
  have hsize := Nat.div_add_mod size A.SLOB_UNIT
  unfold byteAt memsetZero
  by_cases hin : a / A.SLOB_UNIT < b + size / A.SLOB_UNIT
  · rw [if_pos ⟨hlo, hin⟩, byteOf_zero]
  · -- the last unit, cleared in its low bytes
    have hmul : A.SLOB_UNIT * (b + size / A.SLOB_UNIT) ≤ A.SLOB_UNIT * (a / A.SLOB_UNIT) :=
      Nat.mul_le_mul_left _ (by omega)
    rw [Nat.mul_add] at hmul
    have hmod := Nat.mod_lt a hpos
    have hlt : a % A.SLOB_UNIT < size % A.SLOB_UNIT := by omega
    have heq : a / A.SLOB_UNIT = b + size / A.SLOB_UNIT := by
      refine Nat.le_antisymm ?_ (by omega)
      by_contra hgt
      have hmul' : A.SLOB_UNIT * (b + size / A.SLOB_UNIT + 1) ≤ A.SLOB_UNIT * (a / A.SLOB_UNIT) :=
        Nat.mul_le_mul_left _ (by omega)
      have hmod' := Nat.mod_lt size hpos
      rw [Nat.mul_add, Nat.mul_add, Nat.mul_one] at hmul'
      omega
    rw [if_neg (by omega), if_pos heq, ← byteOf_zero (a % A.SLOB_UNIT)]
    refine byteOf_congr ?_ hlt
    rw [pow_mul]
    exact Int.modEq_iff_dvd.mpr ⟨-(m (a / A.SLOB_UNIT) / (2 ^ 8) ^ (size % A.SLOB_UNIT)), by
      have := Int.mul_ediv_add_emod (m (a / A.SLOB_UNIT)) ((2 ^ 8) ^ (size % A.SLOB_UNIT))
      norm_num at this ⊢
      linarith⟩

/-- Cleared pages. -/
theorem clearPages_off (m : Mem) (ha : ¬ (pagesSpan A (p, order)).Has a) :
    clearPages A m p order a = m a := by
  rw [has_pagesSpan] at ha
  exact if_neg ha

theorem byteAt_clearPages (m : Mem) (h₁ : A.PAGE_SIZE * p ≤ a)
    (h₂ : a < A.PAGE_SIZE * p + A.PAGE_SIZE * 2 ^ order) :
    byteAt A.SLOB_UNIT (clearPages A m p order) a = 0 := by
  have hin : (pagesSpan A (p, order)).Has (a / A.SLOB_UNIT) := by
    rw [has_div A.slobUnit_pos, (unit_mul_pagesSpan _ _).1, (unit_mul_pagesSpan _ _).2]
    exact ⟨h₁, h₂⟩
  rw [has_pagesSpan] at hin
  have hzero : clearPages A m p order (a / A.SLOB_UNIT) = 0 := if_pos hin
  unfold byteAt
  rw [hzero, byteOf_zero]

/-- The constructor writes to its object only. -/
theorem runCtor_off (m : Mem) (hu : T.unit * a + T.unit ≤ b ∨ b + n ≤ T.unit * a) :
    runCtor T f b m n a = m a := by
  induction n with
  | zero => rfl
  | succ n ih =>
    unfold runCtor
    cases f b n with
    | none => exact ih (by omega)
    | some x =>
      refine (putByte_off _ _ ?_).trans (ih (by omega))
      rintro rfl
      have h₁ := Nat.mul_div_le (b + n) T.unit
      have h₂ := Nat.lt_mul_div_succ (b + n) (unit_pos T)
      rw [Nat.mul_add] at h₂
      omega

theorem byteAt_runCtor_off (m : Mem) (ha : a < b ∨ b + n ≤ a) :
    byteAt T.unit (runCtor T f b m n) a = byteAt T.unit m a := by
  induction n with
  | zero => rfl
  | succ n ih =>
    unfold runCtor
    cases f b n with
    | none => exact ih (by omega)
    | some x =>
      exact (byteAt_putByte_ne (unit_pos T) _ (Nat.mod_lt _ (by norm_num)) (by omega)).trans
        (ih (by omega))

/-- What the constructor leaves. -/
theorem byteAt_runCtor (m : Mem) (hi : i < n) : byteAt T.unit (runCtor T f b m n) (b + i) =
    ((f b i).map (· % 256)).getD (byteAt T.unit m (b + i)) := by
  induction n with
  | zero => omega
  | succ n ih =>
    unfold runCtor
    by_cases hin : i = n
    · subst hin
      cases f b i with
      | none => exact byteAt_runCtor_off m (.inr le_rfl)
      | some x => exact byteAt_putByte_self (unit_pos T) _ _ (Nat.mod_lt _ (by norm_num))
    · cases f b n with
      | none => exact ih (by omega)
      | some x =>
        exact (byteAt_putByte_ne (unit_pos T) _ (Nat.mod_lt _ (by norm_num)) (by omega)).trans
          (ih (by omega))

end Writes

/-! ## Handing out -/

section Give

variable {size align : ℕ} {gfp : Gfp} {node : Option ℕ} {src : PagesSource} {c : Cache}

/-- What a call that hands out an object at `b` leaves; it hands out none when `b` is `NULL` or
`ZERO_SIZE_PTR`. -/
structure Given (T : Target) (y : Api) (k : Kernel) (b : ℕ) (kind : Kind) (zero : Bool) : Prop where
  inv : ApiInv T (y.give T k b kind zero).1
  kept : ∀ o ∈ y.all, ∀ a, (o.span T).Has a → k.st.mem a = y.k.st.mem a
  init : ZERO_SIZE_PTR < b → ∀ i, ∀ x ∈ kind.init zero b i, byteAt T.unit k.st.mem (b + i) = x

/-- Nothing was handed out. -/
theorem ApiInv.givenNone (h : ApiInv T y) (hb : b ≤ ZERO_SIZE_PTR) (kind : Kind) (zero : Bool) :
    Given T y y.k b kind zero := by
  refine ⟨?_, fun _ _ _ _ => rfl, fun hlt => absurd hlt (by omega)⟩
  unfold Api.give
  rw [if_pos hb]
  exact h

/-- The answers of `slob_alloc`. -/
theorem ApiInv.slobAlloc (h : ApiInv T y) (hfresh : FreshPages T y node src) (hpos : 0 < size)
    (hlt : size < T.PAGE_SIZE) (halign : Aligning T.toArch align) (gfp : Gfp) :
    Slob.slobAlloc T.toArch y.k.st size gfp align node (src.order 0) = some (y.k.st, none) ∨
      ∃ s m, Slob.slobAlloc T.toArch y.k.st size gfp align node (src.order 0) = some (s, some m) ∧
        (align ≠ 0 → align ∣ T.unit * m) ∧ ZERO_SIZE_PTR < T.unit * m ∧
        (gfp.zero = true → ∀ a, T.unit * m ≤ a → a < T.unit * m + size →
          byteAt T.unit s.mem a = 0) := by
  obtain ⟨live, hreach, -⟩ := h.heap
  obtain ⟨v, hrep, -⟩ := reachable_inv hreach
  obtain ⟨⟨s, r⟩, he⟩ := hrep.slobAlloc_returns gfp hpos hlt hfresh.fresh halign
  rcases hrep.slobAlloc_cases hpos hlt hfresh.fresh he with ⟨rfl, rfl⟩ | ⟨p, m, v', rfl, hal, -⟩
  · exact .inl he
  refine .inr ⟨s, m, he, hal.dvd halign, ?_, fun hzero a h₁ h₂ => ?_⟩
  · have hnot := hal.rep.zeroOrNullPtr_eq (b := ⟨m, size⟩) (List.mem_cons_self ..)
    unfold zeroOrNullPtr at hnot
    simpa [ZERO_SIZE_PTR] using hnot
  · obtain ⟨s₁, hmem, -⟩ := hrep.slobAlloc_block he
    unfold clearBlock at hmem
    rw [if_pos hzero] at hmem
    rw [hmem]
    exact byteAt_memsetZero _ h₁ h₂

/-- The answers of `slob_new_pages`. -/
theorem newPages_cases (k : Kernel) (gfp : Gfp) (comp : Bool) (order : ℕ) (node : Option ℕ)
    (src : PagesSource) :
    newPages T k gfp comp order node src = (k, 0) ∨
      ∃ p ∈ slobNewPages T.toArch (src.order order) node,
        newPages T k gfp comp order node src =
          ({ st := { k.st with
               mem := if gfp.zero then clearPages T.toArch k.st.mem p order else k.st.mem }
             compoundOrder := Function.update k.compoundOrder p (if comp then order else 0) },
            T.PAGE_SIZE * p) := by
  unfold newPages
  cases hp : slobNewPages T.toArch (src.order order) node with
  | none => exact .inl rfl
  | some p => exact .inr ⟨p, rfl, rfl⟩

theorem pageSize_pos (T : Target) : 0 < T.PAGE_SIZE := Nat.two_pow_pos _

theorem zeroSizePtr_lt_page (T : Target) {p : ℕ} (hp : 0 < p) : ZERO_SIZE_PTR < T.PAGE_SIZE * p := by
  have h₁ : 2 ^ 5 ≤ T.PAGE_SIZE := Nat.pow_le_pow_right (by norm_num) T.five_le
  have h₂ := Nat.le_mul_of_pos_right T.PAGE_SIZE hp
  unfold ZERO_SIZE_PTR
  omega

theorem pageSize_lt (T : Target) : T.PAGE_SIZE < 256 ^ 4 := by
  have h : T.PAGE_SIZE ≤ 2 ^ 30 := Nat.pow_le_pow_right (by norm_num) T.le_thirty
  norm_num at h ⊢
  omega

/-- The object at `b` was handed out. -/
theorem given_of (hb : ZERO_SIZE_PTR < b) {kind : Kind} {zero : Bool}
    (hinv : ApiInv T { y with k := k, objs := ⟨b, kind⟩ :: y.objs
                              out := (Obj.storage T ⟨b, kind⟩).getRight?.toList ++ y.out } ∧
      ∀ o ∈ y.all, ∀ a, (o.span T).Has a → k.st.mem a = y.k.st.mem a)
    (hinit : ∀ i, ∀ x ∈ kind.init zero b i, byteAt T.unit k.st.mem (b + i) = x) :
    Given T y k b kind zero := by
  refine ⟨?_, hinv.2, fun _ => hinit⟩
  unfold Api.give
  rw [if_neg (by omega)]
  exact hinv.1

/-- The bytes of a span, from those of a unit outside it. -/
theorem span_bytes {l : Live} : T.unit * (l.span T.toArch).start = T.unit * l.addr ∧
    T.unit * (l.span T.toArch).fin = T.unit * l.addr + T.unit * T.SLOB_UNITS l.size :=
  ⟨rfl, Nat.mul_add ..⟩

/-- The header in front of a block of `kmalloc`. -/
theorem ApiInv.kmalloc_block (h : ApiInv T y) (hfresh : FreshPages T y node src)
    (hsmall : size < T.PAGE_SIZE - T.minAlign) (hpos : 0 < size) {s : State} {mm : ℕ}
    (he : Slob.slobAlloc T.toArch y.k.st (size + T.minAlign) gfp T.minAlign node (src.order 0) =
      some (s, some mm)) (hdvd : T.minAlign ∣ T.unit * mm) (hlow : ZERO_SIZE_PTR < T.unit * mm)
    (hclear : gfp.zero = true → ∀ a, T.unit * mm ≤ a → a < T.unit * mm + (size + T.minAlign) →
      byteAt T.unit s.mem a = 0) :
    Given T y { y.k with st := { s with mem := putWord T.unit s.mem (T.unit * mm) 4 size } }
      (T.unit * mm + T.minAlign) (.kmalloc size) gfp.zero := by
  have hfour := T.four_le
  have hlimit := pageSize_lt T
  have hst : Obj.storage T ⟨T.unit * mm + T.minAlign, .kmalloc size⟩ =
      .inl ⟨mm, size + T.minAlign⟩ := by
    simp [Obj.storage, hsmall, Nat.mul_div_cancel_left _ (unit_pos T)]
  refine given_of (by omega) ?_ ?_
  · rw [hst]
    refine h.giveBlock hfresh (by omega) (by omega) he hst (fun a ha => ?_) ?_
    · rw [span_of_inl hst] at ha
      have hle : size + T.minAlign ≤ T.unit * T.SLOB_UNITS (size + T.minAlign) := le_units ..
      obtain ⟨h₁, h₂⟩ := @span_bytes T ⟨mm, size + T.minAlign⟩
      simp only at h₁ h₂
      have hoff := off_of_not_has T.unit ha
      exact putWord_off (unit_pos T) _ _ (by omega)
    · unfold Fine
      simp only [if_pos hsmall]
      refine ⟨hpos, hdvd.add (dvd_refl _), by omega, ?_⟩
      unfold header
      rw [Nat.add_sub_cancel]
      exact wordAt_putWord (unit_pos T) _ _ (by omega)
  · intro i x hx
    simp only [Kind.init] at hx
    split_ifs at hx with hz
    · cases hx
      show byteAt T.unit (putWord T.unit s.mem (T.unit * mm) 4 size) _ = 0
      rw [byteAt_putWord_off (unit_pos T) _ _ (.inr (by omega))]
      exact hclear hz.1 _ (by omega) (by omega)
    · cases hx

/-- Pages of `kmalloc`. -/
theorem ApiInv.kmalloc_pages (h : ApiInv T y) (hfresh : FreshPages T y node src)
    (hlarge : ¬ size < T.PAGE_SIZE - T.minAlign) {p : ℕ}
    (hp : p ∈ slobNewPages T.toArch (src.order (T.getOrder size)) node) (k : Kernel)
    (hk : k = ⟨{ y.k.st with mem := if gfp.zero then clearPages T.toArch y.k.st.mem p (T.getOrder size)
        else y.k.st.mem }, Function.update y.k.compoundOrder p (T.getOrder size)⟩) :
    Given T y k (T.PAGE_SIZE * p) (.kmalloc size) gfp.zero := by
  have hdiv := Nat.mul_div_cancel_left p (pageSize_pos T)
  have hst : Obj.storage T ⟨T.PAGE_SIZE * p, .kmalloc size⟩ = .inr (p, T.getOrder size) := by
    simp [Obj.storage, hlarge, hdiv]
  subst hk
  refine given_of (zeroSizePtr_lt_page T (hfresh _ p hp).1) ?_ ?_
  · rw [hst]
    refine h.givePages hfresh hp hst rfl (fun a ha => ?_) (fun q hq => Function.update_of_ne hq _ _) ?_
    · rw [span_of_inr hst] at ha
      simp only
      split_ifs
      · exact clearPages_off _ ha
      · rfl
    · unfold Fine
      simp only [if_neg hlarge]
      exact ⟨dvd_mul_right .., by rw [hdiv, Function.update_self]⟩
  · intro i x hx
    simp only [Kind.init] at hx
    split_ifs at hx with hz
    · cases hx
      have hle := le_getOrder T.toArch size
      simp only [if_pos hz.1]
      exact byteAt_clearPages _ (by omega) (by omega)
    · cases hx

/-- **`kmalloc`** returns. -/
theorem ApiInv.kmalloc (h : ApiInv T y) (hfresh : FreshPages T y node src) (size : ℕ) (gfp : Gfp) :
    ∃ k b, doKmallocNode T y.k size gfp node src = some (k, b) ∧
      Given T y k b (.kmalloc size) gfp.zero := by
  unfold doKmallocNode
  by_cases hsmall : size < T.PAGE_SIZE - T.minAlign
  · rw [if_pos hsmall]
    by_cases hzero : size = 0
    · rw [if_pos hzero]
      exact ⟨_, _, rfl, h.givenNone le_rfl _ _⟩
    rw [if_neg hzero]
    have hpos := Nat.pos_of_ne_zero hzero
    have halign : Aligning T.toArch T.minAlign := by
      obtain ⟨j, hj⟩ := T.minAlign_pow
      exact .inr ⟨j, hj, hj ▸ T.minAlign_lt.le⟩
    rcases @ApiInv.slobAlloc T y (size + T.minAlign) T.minAlign node src h hfresh (by omega) (by omega)
      halign gfp with hnull | ⟨s, mm, he, hdvd, hlow, hclear⟩
    · rw [hnull]
      exact ⟨_, _, rfl, h.givenNone (Nat.zero_le _) _ _⟩
    · rw [he]
      have hne : T.minAlign ≠ 0 := by have := T.four_le; omega
      exact ⟨_, _, rfl, h.kmalloc_block hfresh hsmall hpos he (hdvd hne) hlow hclear⟩
  · rw [if_neg hsmall]
    rcases @newPages_cases T y.k gfp (T.getOrder size ≠ 0) (T.getOrder size) node src with
      hnull | ⟨p, hp, hnew⟩
    · exact ⟨_, _, congrArg some hnull, h.givenNone (Nat.zero_le _) _ _⟩
    · refine ⟨_, _, congrArg some hnew, h.kmalloc_pages hfresh hsmall hp _ ?_⟩
      congr 2
      by_cases hord : T.getOrder size = 0
      · simp [hord]
      · simp [hord]

/-- What `slob_alloc_node` does to a block it got. -/
theorem construct_spec (c : Cache) (k : Kernel) (hb : b ≠ 0) :
    ∃ m, construct T c k b = k.setMem m ∧
      (∀ a, T.unit * a + T.unit ≤ b ∨ b + c.objectSize ≤ T.unit * a → m a = k.st.mem a) ∧
      ∀ i < c.objectSize, byteAt T.unit m (b + i) =
        ((c.ctor.bind fun f => f b i).map (· % 256)).getD (byteAt T.unit k.st.mem (b + i)) := by
  unfold construct
  rw [if_neg hb]
  cases c.ctor with
  | none => exact ⟨k.st.mem, rfl, fun _ _ => rfl, fun _ _ => rfl⟩
  | some f => exact ⟨_, rfl, fun a ha => runCtor_off _ ha, fun i hi => byteAt_runCtor _ hi⟩

/-- The known bytes of a new object of a cache. -/
theorem init_of_construct {m m' : Mem} {zero : Bool}
    (hctor : ∀ i < c.objectSize, byteAt T.unit m' (b + i) =
      ((c.ctor.bind fun f => f b i).map (· % 256)).getD (byteAt T.unit m (b + i)))
    (hzero : zero = true → ∀ i < c.objectSize, byteAt T.unit m (b + i) = 0) :
    ∀ i, ∀ x ∈ (Kind.cache c).init zero b i, byteAt T.unit m' (b + i) = x := by
  intro i x hx
  simp only [Kind.init] at hx
  by_cases hi : i < c.objectSize
  · rw [if_pos hi] at hx
    rw [hctor i hi]
    cases hv : c.ctor.bind fun f => f b i with
    | some v =>
      rw [hv] at hx
      cases hx
      rfl
    | none =>
      rw [hv] at hx
      by_cases hz : zero = true
      · subst hz
        cases hx
        exact hzero rfl i hi
      · simp [hz] at hx
  · simp [hi] at hx

theorem Created.facts (hc : Created T c) : 0 < c.size ∧ Aligning T.toArch c.align ∧ c.size < 2 ^ 31 := by
  obtain ⟨c₀, rcu, rfl, -, hpos, halign, hlt⟩ := hc
  refine ⟨?_, halign, hlt⟩
  unfold kmemCacheCreate
  split_ifs
  · exact Nat.add_pos_left hpos _
  · exact hpos

/-- A block of a cache. -/
theorem ApiInv.cache_block (h : ApiInv T y) (hfresh : FreshPages T y node src) (hc : Created T c)
    (hsmall : c.size < T.PAGE_SIZE) {s : State} {mm : ℕ}
    (he : Slob.slobAlloc T.toArch y.k.st c.size gfp c.align node (src.order 0) = some (s, some mm))
    (hdvd : c.align ≠ 0 → c.align ∣ T.unit * mm) (hlow : ZERO_SIZE_PTR < T.unit * mm)
    (hclear : gfp.zero = true → ∀ a, T.unit * mm ≤ a → a < T.unit * mm + c.size →
      byteAt T.unit s.mem a = 0) :
    Given T y (construct T c { y.k with st := s } (T.unit * mm)) (T.unit * mm) (.cache c) gfp.zero := by
  have hobj := hc.objectSize_le
  have hst : Obj.storage T ⟨T.unit * mm, .cache c⟩ = .inl ⟨mm, c.size⟩ := by
    simp [Obj.storage, hsmall, Nat.mul_div_cancel_left _ (unit_pos T)]
  obtain ⟨m, hk, hoff, hctor⟩ := @construct_spec T (T.unit * mm) c { y.k with st := s } (by omega)
  rw [hk]
  refine given_of hlow ?_ (init_of_construct hctor fun hz i hi => hclear hz _ (by omega) (by omega))
  rw [hst]
  refine h.giveBlock hfresh hc.facts.1 hsmall he hst (fun a ha => hoff a ?_) ?_
  · rw [span_of_inl hst] at ha
    have hle : c.size ≤ T.unit * T.SLOB_UNITS c.size := le_units ..
    obtain ⟨h₁, h₂⟩ := @span_bytes T ⟨mm, c.size⟩
    simp only at h₁ h₂
    have hoff := off_of_not_has T.unit ha
    omega
  · unfold Fine
    simp only [if_pos hsmall]
    exact ⟨hc, dvd_mul_right .., hdvd⟩

/-- Pages of a cache. -/
theorem ApiInv.cache_pages (h : ApiInv T y) (hfresh : FreshPages T y node src) (hc : Created T c)
    (hlarge : ¬ c.size < T.PAGE_SIZE) {p : ℕ}
    (hp : p ∈ slobNewPages T.toArch (src.order (T.getOrder c.size)) node) (k : Kernel)
    (hk : k = ⟨{ y.k.st with mem := if gfp.zero then clearPages T.toArch y.k.st.mem p (T.getOrder c.size)
        else y.k.st.mem }, Function.update y.k.compoundOrder p 0⟩) :
    Given T y (construct T c k (T.PAGE_SIZE * p)) (T.PAGE_SIZE * p) (.cache c) gfp.zero := by
  have hobj := hc.objectSize_le
  have hle := le_getOrder T.toArch c.size
  have hdiv := Nat.mul_div_cancel_left p (pageSize_pos T)
  have hlow := zeroSizePtr_lt_page T (hfresh _ p hp).1
  have hst : Obj.storage T ⟨T.PAGE_SIZE * p, .cache c⟩ = .inr (p, T.getOrder c.size) := by
    simp [Obj.storage, hlarge, hdiv]
  obtain ⟨m, hk', hoff, hctor⟩ := @construct_spec T (T.PAGE_SIZE * p) c k (by omega)
  rw [hk']
  refine given_of hlow ?_ (init_of_construct hctor fun hz i hi => ?_)
  · rw [hst]
    refine h.givePages hfresh hp hst (by subst hk; rfl) (fun a ha => ?_) (fun q hq => ?_) ?_
    · rw [span_of_inr hst] at ha
      have hmem : k.st.mem a = y.k.st.mem a := by
        subst hk
        simp only
        split_ifs
        · exact clearPages_off _ ha
        · rfl
      refine (hoff a ?_).trans hmem
      have hoff := off_of_not_has T.unit ha
      rw [(unit_mul_pagesSpan _ _).1, (unit_mul_pagesSpan _ _).2] at hoff
      simp only at hoff
      omega
    · subst hk
      exact Function.update_of_ne hq _ _
    · unfold Fine
      simp only [if_neg hlarge]
      exact ⟨hc, dvd_mul_right ..⟩
  · subst hk
    simp only [if_pos hz]
    exact byteAt_clearPages _ (by omega) (by omega)

/-- **`kmem_cache_alloc`** returns. -/
theorem ApiInv.cacheAlloc (h : ApiInv T y) (hfresh : FreshPages T y node src) (hc : Created T c)
    (gfp : Gfp) : ∃ k b, slobAllocNode T y.k c gfp node src = some (k, b) ∧
      Given T y k b (.cache c) gfp.zero := by
  unfold slobAllocNode
  by_cases hsmall : c.size < T.PAGE_SIZE
  · rw [if_pos hsmall]
    obtain ⟨hpos, halign, -⟩ := hc.facts
    rcases @ApiInv.slobAlloc T y c.size c.align node src h hfresh hpos hsmall halign gfp with
      hnull | ⟨s, mm, he, hdvd, hlow, hclear⟩
    · rw [hnull]
      exact ⟨_, _, rfl, h.givenNone (Nat.zero_le _) _ _⟩
    · rw [he]
      exact ⟨_, _, rfl, h.cache_block hfresh hc hsmall he hdvd hlow hclear⟩
  · rw [if_neg hsmall]
    rcases @newPages_cases T y.k gfp false (T.getOrder c.size) node src with hnull | ⟨p, hp, hnew⟩
    · simp only [hnull]
      exact ⟨_, _, rfl, h.givenNone (Nat.zero_le _) _ _⟩
    · simp only [hnew]
      exact ⟨_, _, rfl, h.cache_pages hfresh hc hsmall hp _ rfl⟩

end Give

/-! ## Taking back -/

section Take

variable {size : ℕ} {c : Cache} {r : ℕ × Obj}

/-- What giving an object back means: `slob_free` of its block with the size it was allocated with, or
its pages with the order that was asked for. -/
def release (T : Target) (k : Kernel) (o : Obj) : Option (Kernel × Handed) :=
  match o.storage T with
  | .inl b => (slobFree T.toArch k.st b.addr b.size).map fun s => ({ k with st := s }, .nothing)
  | .inr r => some (k, .pages r.1 r.2)

theorem div_pageSize (a : ℕ) : a / T.PAGE_SIZE = T.virtToPage (a / T.unit) := by
  unfold Arch.virtToPage
  rw [Nat.div_div_eq_div_mul, unit_mul_pageUnits]

theorem Fine.room_pos (h : Fine T k o) : 0 < o.room T := by
  obtain ⟨ptr, kind⟩ := o
  cases kind with
  | kmalloc size =>
    simp only [Obj.room, Obj.usable]
    split_ifs with hs
    · unfold Fine at h
      simp only [if_pos hs] at h
      exact Nat.mul_pos (T.units_pos h.1) (unit_pos T)
    · exact Nat.mul_pos (pageSize_pos T) (Nat.two_pow_pos _)
  | cache c => exact h.1.facts.1

/-- The page of an object is a slab page when the object lies in a block. -/
theorem ApiInv.page_slab (h : ApiInv T y) (ho : o ∈ y.all) :
    (y.k.st.page (o.ptr / T.PAGE_SIZE)).slab = (o.storage T).isLeft := by
  have hfine := h.fine o ho
  have hhas := hfine.has (a := o.ptr) (by omega) (Nat.lt_add_of_pos_right hfine.room_pos)
  rw [div_pageSize]
  cases hst : o.storage T with
  | inl b => exact h.slab ho hst hhas
  | inr r =>
    rw [span_of_inr hst] at hhas
    exact h.not_slab (h.mem_out ho hst) hhas

/-- Objects are neither at `NULL` nor at `ZERO_SIZE_PTR`. -/
theorem ApiInv.lt_ptr (h : ApiInv T y) (ho : o ∈ y.all) : ZERO_SIZE_PTR < o.ptr := by
  obtain ⟨hlo, -⟩ := (h.fine o ho).extent
  cases hst : o.storage T with
  | inl b =>
    obtain ⟨live, hreach, hperm⟩ := h.heap
    obtain ⟨v, hrep, -⟩ := reachable_inv hreach
    have hnot := hrep.zeroOrNullPtr_eq (ApiInv.mem_blocks hperm ho hst)
    have hlow : ZERO_SIZE_PTR < T.unit * b.addr := by
      unfold zeroOrNullPtr at hnot
      simpa [ZERO_SIZE_PTR] using hnot
    rw [span_of_inl hst, show (b.span T.toArch).start = b.addr from rfl] at hlo
    omega
  | inr r =>
    have hpage := zeroSizePtr_lt_page T (h.pages r (h.mem_out ho hst)).1
    rw [span_of_inr hst, (unit_mul_pagesSpan _ _).1] at hlo
    omega

/-- **`kfree`** gives a `kmalloc` object back. -/
theorem ApiInv.kfree_eq (h : ApiInv T y) (ho : o ∈ y.all) (hkind : o.kind = .kmalloc size) :
    kfree T y.k o.ptr = release T y.k o := by
  have hslab := h.page_slab ho
  have hlow := h.lt_ptr ho
  have hfine := h.fine o ho
  have hlimit := pageSize_lt T
  obtain ⟨ptr, kind⟩ := o
  obtain rfl : kind = .kmalloc size := hkind
  simp only at hslab
  unfold kfree release
  rw [if_neg (Nat.not_le.mpr hlow)]
  simp only [hslab]
  by_cases hs : size < T.PAGE_SIZE - T.minAlign
  · have hst : Obj.storage T ⟨ptr, .kmalloc size⟩ =
        .inl ⟨(ptr - T.minAlign) / T.unit, size + T.minAlign⟩ := by simp [Obj.storage, hs]
    unfold Fine at hfine
    simp only [if_pos hs] at hfine
    rw [hst, hfine.2.2.2, Nat.mod_eq_of_lt (by norm_num at hlimit ⊢; omega)]
    simp only [Sum.isLeft_inl, if_true]
    cases slobFree T.toArch y.k.st ((ptr - T.minAlign) / T.unit) (size + T.minAlign) <;> rfl
  · have hst : Obj.storage T ⟨ptr, .kmalloc size⟩ = .inr (ptr / T.PAGE_SIZE, T.getOrder size) := by
      simp [Obj.storage, hs]
    unfold Fine at hfine
    simp only [if_neg hs] at hfine
    rw [hst, hfine.2]
    rfl

/-- **`__kmem_cache_free`** gives an object of a cache back, when it is called with the size of the
cache. -/
theorem kmemCacheFreeBlock_eq (k : Kernel) (hkind : o.kind = .cache c) :
    kmemCacheFreeBlock T k o.ptr c.size = release T k o := by
  obtain ⟨ptr, kind⟩ := o
  obtain rfl : kind = .cache c := hkind
  unfold kmemCacheFreeBlock release Obj.storage
  by_cases hs : c.size < T.PAGE_SIZE
  · simp only [if_pos hs]
    cases slobFree T.toArch k.st (ptr / T.unit) c.size <;> rfl
  · simp only [if_neg hs]

/-- **`kmem_rcu_free`** finds the object of its callback, and its size. -/
theorem ApiInv.kmemRcuFree_eq (h : ApiInv T y) (hr : r ∈ y.rcu) :
    kmemRcuFree T y.k r.1 = release T y.k r.2 := by
  obtain ⟨c, hkind, hrcu, hhead, hword⟩ := h.footer r hr
  unfold kmemRcuFree
  simp only
  rw [hword, hhead, Nat.add_sub_cancel, kmemCacheFreeBlock_eq y.k hkind]

variable {objs : List Obj} {rcu : List (ℕ × Obj)}

/-- **Giving an object back** returns, and pages go to the page allocator that handed them out; the other
objects keep their units. -/
theorem ApiInv.release (h : ApiInv T y) (hperm : y.all.Perm (o :: (objs ++ rcu.map Prod.snd)))
    (hrcu : ∀ r ∈ rcu, r ∈ y.rcu) :
    ∃ k hd, Slob.release T y.k o = some (k, hd) ∧ ApiInv T (Api.take ⟨y.k, objs, rcu, y.out⟩ k o hd) ∧
      (hd = .nothing ∨ ∃ r ∈ y.out, hd = .pages r.1 r.2) ∧
      ∀ o' ∈ objs ++ rcu.map Prod.snd, ∀ a, (o'.span T).Has a → k.st.mem a = y.k.st.mem a := by
  unfold Slob.release
  cases hst : o.storage T with
  | inl b =>
    obtain ⟨s, hs, hinv, hkept⟩ := h.takeBlock hst hperm hrcu
    exact ⟨{ y.k with st := s }, .nothing, by simp only [hs]; rfl, hinv, .inl rfl, hkept⟩
  | inr r =>
    obtain ⟨hr, hinv⟩ := h.takePages hst hperm hrcu
    exact ⟨y.k, .pages r.1 r.2, rfl, hinv, .inr ⟨r, hr, rfl⟩, fun _ _ _ _ => rfl⟩

/-- The first element of a list with a property that only one element has. -/
theorem perm_cons_eraseP {α : Type*} {l : List α} {p : α → Bool} {x : α} (hx : x ∈ l) (hp : p x = true)
    (huniq : ∀ z ∈ l, p z = true → z = x) : l.Perm (x :: l.eraseP p) := by
  obtain ⟨z, l₁, l₂, -, hz, rfl, herase⟩ := List.exists_of_eraseP hx hp
  obtain rfl := huniq z (by simp) hz
  rw [herase]
  exact List.perm_middle

/-- Objects in use have different addresses. -/
theorem ApiInv.ptr_inj (h : ApiInv T y) {o' : Obj} (ho : o ∈ y.all) (ho' : o' ∈ y.all)
    (heq : o'.ptr = o.ptr) : o' = o := by
  have hfine := h.fine o ho
  have hfine' := h.fine o' ho'
  refine h.apart ho' ho (a := o.ptr / T.unit) ?_ ?_
  · rw [← heq]
    exact hfine'.has (by omega) (Nat.lt_add_of_pos_right hfine'.room_pos)
  · exact hfine.has (by omega) (Nat.lt_add_of_pos_right hfine.room_pos)

theorem ApiInv.perm_of_free (h : ApiInv T y) (ho : o ∈ y.objs) :
    y.all.Perm (o :: (y.objs.eraseP (fun x => x.ptr = o.ptr) ++ y.rcu.map Prod.snd)) := by
  have hmem : ∀ x ∈ y.objs, x ∈ y.all := fun x hx => List.mem_append_left _ hx
  refine (perm_cons_eraseP ho (by simp) fun z hz hzp => ?_).append_right _
  exact h.ptr_inj (hmem o ho) (hmem z hz) (of_decide_eq_true hzp)

/-- Callbacks that wait have different addresses. -/
theorem ApiInv.rcu_inj (h : ApiInv T y) {r' : ℕ × Obj} (hr : r ∈ y.rcu) (hr' : r' ∈ y.rcu)
    (heq : r'.1 = r.1) : r' = r := by
  have hall := ApiInv.mem_all_of_rcu hr
  have hall' := ApiInv.mem_all_of_rcu hr'
  have hfine := h.fine _ hall
  have hfine' := h.fine _ hall'
  have hplace := (h.footer r hr).place hfine
  have hplace' := (h.footer r' hr').place hfine'
  refine Prod.ext heq (h.apart hall' hall (a := r.1 / T.unit) ?_ ?_)
  · rw [← heq]
    exact hfine'.has (by omega) (by omega)
  · exact hfine.has (by omega) (by omega)

theorem ApiInv.perm_of_gracePeriod (h : ApiInv T y) (hr : r ∈ y.rcu) :
    y.all.Perm (r.2 :: (y.objs ++ (y.rcu.eraseP fun x => x.1 = r.1).map Prod.snd)) := by
  have hperm : y.rcu.Perm (r :: y.rcu.eraseP fun x => x.1 = r.1) :=
    perm_cons_eraseP hr (by simp) fun z hz hzp => h.rcu_inj hr hz (of_decide_eq_true hzp)
  exact ((hperm.map Prod.snd).append_left _).trans List.perm_middle

/-- **`kmem_cache_free`** of an object with a footer stores the size there. -/
theorem ApiInv.callRcu (h : ApiInv T y) (ho : o ∈ y.objs) (hkind : o.kind = .cache c)
    (hrcu : c.destroyByRcu = true) :
    ∃ m, kmemCacheFree T y.k c o.ptr =
        some (y.k.setMem m, .callRcu (o.ptr + (c.size - T.slobRcuSize))) ∧
      ApiInv T ⟨y.k.setMem m, y.objs.eraseP fun x => x.ptr = o.ptr,
        (o.ptr + (c.size - T.slobRcuSize), o) :: y.rcu, y.out⟩ ∧
      ∀ a, ¬ (o.span T).Has a → m a = y.k.st.mem a := by
  have hall : o ∈ y.all := List.mem_append_left _ ho
  have hfine := h.fine o hall
  obtain ⟨hlo, hhi⟩ := hfine.extent
  have hcreated : Created T c := by
    unfold Fine at hfine
    rw [hkind] at hfine
    exact hfine.1
  have hfoot := hcreated.footer hrcu
  have hrcuSize := T.slobRcuSize_le
  have hroom : o.room T = c.size := by simp [Obj.room, hkind]
  have hlead : o.lead T = 0 := by simp [Obj.lead, hkind]
  set head := o.ptr + (c.size - T.slobRcuSize) with hhead
  have hword : ∀ m : Mem, wordAt T.unit (putWord T.unit m (head + T.rcuHeadSize) 4 c.size)
      (head + T.rcuHeadSize) 4 = c.size :=
    fun m => wordAt_putWord (unit_pos T) m _ (hcreated.facts.2.2.trans (by norm_num))
  have hoff : ∀ a, ¬ (o.span T).Has a →
      putWord T.unit y.k.st.mem (head + T.rcuHeadSize) 4 c.size a = y.k.st.mem a := by
    intro a ha
    have hbytes := off_of_not_has T.unit ha
    exact putWord_off (unit_pos T) _ _ (by omega)
  have hset := h.setMem hall hoff (fun a h₁ h₂ => by omega) fun r hr hro => by
    obtain ⟨c', hkind', hrcu', hhead', -⟩ := h.footer r hr
    rw [hro, hkind] at hkind'
    obtain rfl : c = c' := by
      cases hkind'
      rfl
    have hr₁ : r.1 = head := by rw [hhead', hro, hhead]
    exact ⟨c, by rw [hro, hkind], hrcu, hhead', by rw [hr₁]; exact hword _⟩
  refine ⟨_, by unfold kmemCacheFree; rw [if_pos hrcu], hset.rearrange ?_ ?_, hoff⟩
  · exact List.perm_middle.trans (h.perm_of_free ho).symm
  · intro r hr
    rcases List.mem_cons.mp hr with rfl | hr
    · exact ⟨c, hkind, hrcu, rfl, hword _⟩
    · exact hset.footer r hr

end Take

/-! ## Steps and runs -/

section Steps

variable {e : Option (Event ℕ ℕ)} {es : List (Event ℕ ℕ)}

/-- The objects `l` keep their units. -/
def Kept (T : Target) (y y' : Api) (l : List Obj) : Prop :=
  ∀ o ∈ l, ∀ a, (o.span T).Has a → y'.k.st.mem a = y.k.st.mem a

/-- What a step does to the objects held, by its event. -/
inductive Effect (T : Target) (y y' : Api) : Option (Event ℕ ℕ) → Prop
  | silent (hobjs : y'.objs = y.objs) (hkept : Kept T y y' y.objs) : Effect T y y' none
  | alloc {o : Obj} {init : ℕ → Option ℕ} (hobjs : y'.objs = o :: y.objs) (hkept : Kept T y y' y.objs)
      (hinit : ∀ i, ∀ x ∈ init i, i < o.usable T ∧ byteAt T.unit y'.k.st.mem (o.ptr + i) = x) :
      Effect T y y' (some (.alloc o.ptr init))
  | free {o : Obj} (ho : o ∈ y.objs) (hobjs : y'.objs = y.objs.eraseP fun x => x.ptr = o.ptr)
      (hkept : Kept T y y' y'.objs) : Effect T y y' (some (.free o.ptr))
  | write {o : Obj} {i x : ℕ} (ho : o ∈ y.objs) (hi : i < o.usable T) (hx : x < 256)
      (hobjs : y'.objs = y.objs)
      (hmem : y'.k.st.mem = putByte T.unit y.k.st.mem (o.ptr + i) x) :
      Effect T y y' (some (.write o.ptr i x))

theorem lt_usable_of_init {kind : Kind} {zero : Bool} (hx : x ∈ kind.init zero b i) :
    i < Obj.usable T ⟨b, kind⟩ := by
  cases kind with
  | kmalloc size =>
    simp only [Kind.init] at hx
    split_ifs at hx with hz
    · have hunits : size ≤ T.unit * T.SLOB_UNITS size := le_units ..
      have horder := le_getOrder T.toArch size
      simp only [Obj.usable]
      split_ifs
      · rw [Nat.mul_comm]
        omega
      · omega
    · cases hx
  | cache c =>
    simp only [Kind.init] at hx
    by_cases hi : i < c.objectSize
    · exact hi
    · simp [hi] at hx

/-- A call that hands out. -/
theorem Given.effect {kind : Kind} {zero : Bool} (h : Given T y k b kind zero) :
    Effect T y (y.give T k b kind zero).1 (y.give T k b kind zero).2 := by
  have hinit := h.init
  have hkept := h.kept
  unfold Api.give
  split_ifs with hb
  · exact .silent rfl fun o ho => hkept o (List.mem_append_left _ ho)
  · exact @Effect.alloc T y _ ⟨b, kind⟩ (kind.init zero b) rfl
      (fun o ho => hkept o (List.mem_append_left _ ho))
      fun i x hx => ⟨lt_usable_of_init hx, hinit (by omega) i x hx⟩

theorem Api.take_objs (y : Api) (k : Kernel) (o : Obj) (hd : Handed) :
    (y.take k o hd).objs = y.objs ∧ (y.take k o hd).k = k := by
  cases hd <;> exact ⟨rfl, rfl⟩

/-- An object shares no unit with the others. -/
theorem ApiInv.apart_of_perm (h : ApiInv T y) {l : List Obj} (hperm : y.all.Perm (o :: l)) {o' : Obj}
    (ho' : o' ∈ l) (ha : (o'.span T).Has a) : ¬ (o.span T).Has a := by
  intro hin
  have hone := h.cover_le_one a
  rw [cover_perm (hperm.map _), List.map_cons, cover_cons, if_pos hin] at hone
  have hcov := one_le_cover (List.mem_map_of_mem (f := Obj.span T) ho') ha
  omega

/-- **A free returns.** The object is given back, or waits for the end of its grace period. -/
theorem ApiInv.freeObj (h : ApiInv T y) (ho : o ∈ y.objs) :
    ∃ k hd, Slob.freeObj T y.k o = some (k, hd) ∧
      ApiInv T (Api.take { y with objs := y.objs.eraseP fun x => x.ptr = o.ptr } k o hd) ∧
      (∀ p order, hd = .pages p order → (p, order) ∈ y.out) ∧
      ∀ o' ∈ y.objs.eraseP fun x => x.ptr = o.ptr, ∀ a, (o'.span T).Has a →
        k.st.mem a = y.k.st.mem a := by
  have hall : o ∈ y.all := List.mem_append_left _ ho
  have hperm := h.perm_of_free ho
  obtain ⟨k, hd, hrel, hinv, hout, hkept⟩ := h.release hperm fun r hr => hr
  by_cases hwait : ∃ c, o.kind = .cache c ∧ c.destroyByRcu = true
  · obtain ⟨c, hkind, hrcu⟩ := hwait
    obtain ⟨m, hfree, hinv', hoff⟩ := h.callRcu ho hkind hrcu
    refine ⟨y.k.setMem m, .callRcu (o.ptr + (c.size - T.slobRcuSize)), ?_, hinv', by simp,
      fun o' ho' a ha => hoff a ?_⟩
    · unfold Slob.freeObj
      rw [hkind]
      exact hfree
    · exact h.apart_of_perm hperm (List.mem_append_left _ ho') ha
  · refine ⟨k, hd, ?_, hinv, ?_, fun o' ho' => hkept o' (List.mem_append_left _ ho')⟩
    · rw [← hrel]
      unfold Slob.freeObj
      cases hkind : o.kind with
      | kmalloc size => exact h.kfree_eq hall hkind
      | cache c =>
        have hrcu : c.destroyByRcu = false := by
          rw [Bool.eq_false_iff]
          exact fun hrcu => hwait ⟨c, hkind, hrcu⟩
        unfold kmemCacheFree
        simp only [hrcu]
        exact kmemCacheFreeBlock_eq y.k hkind
    · rintro p order rfl
      obtain hnothing | ⟨r, hr, heq⟩ := hout
      · cases hnothing
      · cases heq
        exact hr

/-- **Every legal call returns**, and keeps the invariant. -/
theorem ApiInv.exec (h : ApiInv T y) {c : ApiCall} (hlegal : y.Legal T c) :
    ∃ y' e, y.exec T c = some (y', e) ∧ ApiInv T y' ∧ Effect T y y' e := by
  cases c with
  | kmalloc size gfp node src =>
    obtain ⟨k, b, he, hgiven⟩ := h.kmalloc hlegal size gfp
    exact ⟨_, _, congrArg (Option.map _) he, hgiven.inv, hgiven.effect⟩
  | cacheAlloc c gfp node src =>
    obtain ⟨k, b, he, hgiven⟩ := h.cacheAlloc hlegal.2 hlegal.1 gfp
    exact ⟨_, _, congrArg (Option.map _) he, hgiven.inv, hgiven.effect⟩
  | free o =>
    obtain ⟨k, hd, he, hinv, -, hkept⟩ := h.freeObj hlegal
    refine ⟨_, _, congrArg (Option.map _) he, hinv, .free hlegal (Api.take_objs ..).1 ?_⟩
    unfold Kept
    rw [(Api.take_objs ..).1, (Api.take_objs ..).2]
    exact hkept
  | gracePeriod r =>
    obtain ⟨k, hd, hrel, hinv, -, hkept⟩ := h.release (h.perm_of_gracePeriod hlegal)
      fun r hr => List.mem_of_mem_eraseP hr
    have he := (h.kmemRcuFree_eq hlegal).trans hrel
    refine ⟨_, _, congrArg (Option.map _) he, hinv, .silent (Api.take_objs ..).1 ?_⟩
    unfold Kept
    rw [(Api.take_objs ..).2]
    exact fun o ho => hkept o (List.mem_append_left _ ho)

/-- The rest of the kernel leaves the objects alone. -/
theorem ApiInv.mem_of_elsewhere (h : ApiInv T y) (he : Elsewhere T y k) (ho : o ∈ y.all)
    (ha : (o.span T).Has a) : k.st.mem a = y.k.st.mem a := by
  refine he.mem a ?_
  cases hst : o.storage T with
  | inl b => exact .inl (h.slab ho hst ha)
  | inr r =>
    rw [span_of_inr hst] at ha
    exact .inr ⟨r, h.mem_out ho hst, has_pagesSpan.mp ha⟩

theorem ApiInv.elsewhere (h : ApiInv T y) (he : Elsewhere T y k) : ApiInv T { y with k := k } := by
  obtain ⟨live, ⟨s₀, hinit, hrun⟩, hperm⟩ := h.heap
  refine ⟨⟨live, ⟨s₀, hinit, hrun.tail (.outside ⟨fun a ha _ => he.mem a (.inl ha), he.page, he.slab,
    he.nid, he.links⟩ he.pages)⟩, hperm⟩, h.out, ?_, h.once, ?_, ?_⟩
  · intro r hr
    obtain ⟨h₁, h₂, h₃⟩ := h.pages r hr
    exact ⟨h₁, h₂, fun q hq => (he.slab q).trans (h₃ q hq)⟩
  · intro o ho
    exact (h.fine o ho).keep (fun _ ha => h.mem_of_elsewhere he ho ha)
      fun r hr => he.compoundOrder r (h.mem_out ho hr)
  · intro r hr
    have hall := ApiInv.mem_all_of_rcu hr
    exact (h.footer r hr).keep (h.fine _ hall) fun _ ha => h.mem_of_elsewhere he hall ha

/-- What is written to an object stays in its units. -/
theorem ApiInv.poke_kept (h : ApiInv T y) (ho : o ∈ y.all) (hlo : o.ptr ≤ a)
    (hhi : a < o.ptr + o.room T) {l : List Obj} (hperm : y.all.Perm (o :: l)) {o' : Obj} (ho' : o' ∈ l)
    {u : ℕ} (hu : (o'.span T).Has u) : putByte T.unit y.k.st.mem a x u = y.k.st.mem u := by
  refine putByte_off _ _ ?_
  rintro rfl
  exact h.apart_of_perm hperm ho' hu ((h.fine o ho).has (by omega) hhi)

/-- **Every step** keeps the invariant, and does to the objects what its event says. -/
theorem ApiInv.step (h : ApiInv T y) (hs : ApiStep T y e y') : ApiInv T y' ∧ Effect T y y' e := by
  cases hs with
  | call c hlegal hexec =>
    obtain ⟨y₁, e₁, he, hinv, heff⟩ := h.exec hlegal
    rw [hexec] at he
    cases he
    exact ⟨hinv, heff⟩
  | @write o i x ho hi hx =>
    have hall : o ∈ y.all := List.mem_append_left _ ho
    have hroom := (h.fine o hall).usable_le
    refine ⟨h.poke hall hx (by omega) (by omega) fun r hr hro => ?_, .write ho hi hx rfl rfl⟩
    have hplace := h.place hr
    rw [hro] at hplace
    omega
  | @reader r i x hr hi hx =>
    have hall := ApiInv.mem_all_of_rcu hr
    have hroom := (h.fine _ hall).usable_le
    refine ⟨h.poke hall hx (by omega) (by omega) fun r' hr' hro => ?_, .silent rfl fun o ho u hu => ?_⟩
    · have hplace := h.place hr'
      rw [hro] at hplace
      omega
    · exact h.poke_kept hall (by omega) (by omega) (h.perm_of_gracePeriod hr)
        (List.mem_append_left _ ho) hu
  | @rcuCore r i x hr hi hx =>
    have hall := ApiInv.mem_all_of_rcu hr
    have hplace := h.place hr
    refine ⟨h.poke hall hx (by omega) (by omega) fun r' hr' hro => ?_, .silent rfl fun o ho u hu => ?_⟩
    · obtain ⟨c, hkind, -, hhead, -⟩ := h.footer r hr
      obtain ⟨c', hkind', -, hhead', -⟩ := h.footer r' hr'
      rw [hro, hkind] at hkind'
      cases hkind'
      rw [hhead', hro, ← hhead]
      omega
    · exact h.poke_kept hall (by omega) (by omega) (h.perm_of_gracePeriod hr)
        (List.mem_append_left _ ho) hu
  | elsewhere he =>
    exact ⟨h.elsewhere he, .silent rfl fun o ho a ha =>
      h.mem_of_elsewhere he (List.mem_append_left _ ho) ha⟩

/-- **The invariant holds in every run.** -/
theorem ApiRun.inv (h : ApiRun T es y) : ApiInv T y := by
  induction h with
  | boot h =>
    exact ⟨⟨[], ⟨_, h, .refl⟩, .refl _⟩, .refl _, by simp, fun _ => Nat.zero_le _, by simp [Api.all],
      by simp⟩
  | step _ hs ih => exact (ih.step hs).1

end Steps

/-! ## A run -/

/-- A 32-bit machine whose `kmalloc` aligns to 8 bytes. -/
def i386Kernel : Target := ⟨i386 false, 8, 8, 12, ⟨3, rfl⟩, by decide, by decide, by decide⟩

/-- A page allocator with one page left. -/
def lastPage (p : ℕ) : PagesSource := ⟨fun order => if order = 0 then some p else none, fun _ _ => none⟩

def noPages : PagesSource := ⟨fun _ => none, fun _ _ => none⟩

def bootApi : Api := ⟨⟨boot, fun _ => 0⟩, [], [], []⟩

/-- A cache of objects of 20 bytes, with footers. -/
def sampleCache : Cache := kmemCacheCreate i386Kernel ⟨20, 20, 4, false, none⟩ true

theorem created_sampleCache : Created i386Kernel sampleCache :=
  ⟨_, true, rfl, le_rfl, by decide, .inr ⟨2, rfl, by decide⟩, by decide⟩

theorem freshPages_lastPage : FreshPages i386Kernel bootApi none (lastPage 1) := by
  intro order p hp
  simp only [slobNewPages, PagesSource.order, lastPage] at hp
  split_ifs at hp with hord
  · cases hp
    subst hord
    exact ⟨by decide, by decide, fun q _ => ⟨rfl, by simp [bootApi]⟩⟩
  · cases hp

theorem freshPages_noPages {T : Target} (y : Api) : FreshPages T y none noPages := by
  intro order p hp
  cases hp

/-- The object of the cache in the sample run, and its callback. -/
def sampleCallback : ℕ × Obj := (4224, ⟨4204, .cache sampleCache⟩)

/-- A run that takes an object from `kmalloc`, cleared, and one from the cache, and writes a byte of the
first. -/
theorem apiRun_sample : ∃ k, ApiRun i386Kernel
    [.write 4104 5 7, .alloc 4204 ((Kind.cache sampleCache).init false 4204),
      .alloc 4104 ((Kind.kmalloc 100).init true 4104)]
    ⟨k, [⟨4204, .cache sampleCache⟩, ⟨4104, .kmalloc 100⟩], [], []⟩ := by
  have hptrs : ((doKmallocNode i386Kernel bootApi.k 100 ⟨true⟩ none (lastPage 1)).bind fun r =>
      (slobAllocNode i386Kernel r.1 sampleCache ⟨false⟩ none noPages).map fun r' => (r.2, r'.2)) =
        some (4104, 4204) := by decide +kernel
  obtain ⟨⟨k₁, b₁⟩, he₁, hptrs⟩ := Option.bind_eq_some_iff.mp hptrs
  obtain ⟨⟨k₂, b₂⟩, he₂, hptrs⟩ := Option.map_eq_some_iff.mp hptrs
  cases hptrs
  have hcall₁ : bootApi.exec i386Kernel (.kmalloc 100 ⟨true⟩ none (lastPage 1)) =
      some (bootApi.give i386Kernel k₁ 4104 (.kmalloc 100) true) := by
    simp only [Api.exec, he₁, Option.map_some]
  have h₁ : ApiRun i386Kernel _ (bootApi.give i386Kernel k₁ 4104 (.kmalloc 100) true).1 :=
    .step (.boot initial_boot) (.call (.kmalloc 100 ⟨true⟩ none (lastPage 1)) freshPages_lastPage hcall₁)
  set y₁ := (bootApi.give i386Kernel k₁ 4104 (.kmalloc 100) true).1
  have hcall₂ : y₁.exec i386Kernel (.cacheAlloc sampleCache ⟨false⟩ none noPages) =
      some (y₁.give i386Kernel k₂ 4204 (.cache sampleCache) false) := by
    have he : slobAllocNode i386Kernel y₁.k sampleCache ⟨false⟩ none noPages = some (k₂, 4204) := he₂
    simp only [Api.exec, he, Option.map_some]
  have h₂ : ApiRun i386Kernel _ (y₁.give i386Kernel k₂ 4204 (.cache sampleCache) false).1 :=
    .step h₁ (.call (.cacheAlloc sampleCache ⟨false⟩ none noPages)
      ⟨created_sampleCache, freshPages_noPages _⟩ hcall₂)
  exact ⟨_, h₂.step (.write (List.mem_cons_of_mem _ (List.mem_cons_self ..)) (by decide) (by decide))⟩

/-- The run goes on: the object of the cache is freed, and waits for its grace period. -/
theorem apiRun_sample_free : ∃ es k,
    ApiRun i386Kernel es ⟨k, [⟨4104, .kmalloc 100⟩], [sampleCallback], []⟩ := by
  obtain ⟨k, h⟩ := apiRun_sample
  exact ⟨_, _, h.step (.call (.free ⟨4204, .cache sampleCache⟩) (List.mem_cons_self ..) rfl)⟩

end Cs444.Slob
