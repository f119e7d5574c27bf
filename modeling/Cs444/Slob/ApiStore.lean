import Cs444.Slob.ApiRun

/-!
# Objects are separate arrays

The objects in use, read as arrays of bytes, are a store (`storeOf`): a run of the entry points refines
the runs of `Store` (`ApiRun.refines`). So an object reads what its holder wrote to it last, whatever
else happens in between (`last_write_is_read`).

`frees_are_exact`, `calls_return`, `objects_apart` and `nothing_leaks` say what the invariant of the runs
means for the users of the entry points.
-/

namespace Cs444.Slob

variable {T : Target} {y y' : Api} {k k' : Kernel} {o : Obj} {e : Option (Event ℕ ℕ)}
  {es : List (Event ℕ ℕ)} {p : ℕ}

/-- The bytes of an object. -/
def contents (T : Target) (k : Kernel) (o : Obj) : List ℕ :=
  (List.range (o.usable T)).map fun i => byteAt T.unit k.st.mem (o.ptr + i)

/-- The objects held, as a store. -/
def storeOf (T : Target) (y : Api) : Store ℕ ℕ := fun p =>
  (y.objs.find? fun o => o.ptr = p).map (contents T y.k)

/-! ## Reading the store -/

theorem ApiInv.storeOf_mem (h : ApiInv T y) (ho : o ∈ y.objs) :
    storeOf T y o.ptr = some (contents T y.k o) := by
  unfold storeOf
  cases hfind : y.objs.find? fun x => x.ptr = o.ptr with
  | none => exact absurd (List.find?_eq_none.mp hfind o ho) (by simp)
  | some x =>
    have hx : x.ptr = o.ptr := by simpa using List.find?_some hfind
    rw [h.ptr_inj (List.mem_append_left _ ho)
      (List.mem_append_left _ (List.mem_of_find?_eq_some hfind)) hx]
    rfl

theorem storeOf_none (h : ∀ o ∈ y.objs, o.ptr ≠ p) : storeOf T y p = none := by
  unfold storeOf
  rw [List.find?_eq_none.mpr fun o ho => by simpa using h o ho]
  rfl

/-- An object that keeps its units keeps its contents. -/
theorem Fine.contents_eq (h : Fine T k o) (hkept : ∀ a, (o.span T).Has a → k'.st.mem a = k.st.mem a) :
    contents T k' o = contents T k o := by
  have hroom := h.usable_le
  refine List.map_congr_left fun i hi => ?_
  rw [List.mem_range] at hi
  exact h.byteAt_eq hkept (by omega) (by omega)

/-- Writing to an object. -/
theorem contents_putByte {i x : ℕ} (hx : x < 256)
    (hmem : k'.st.mem = putByte T.unit k.st.mem (o.ptr + i) x) :
    contents T k' o = (contents T k o).set i x := by
  refine List.ext_getElem (by simp [contents]) fun j h₁ h₂ => ?_
  simp only [contents, List.getElem_map, List.getElem_range, List.getElem_set, hmem]
  split_ifs with hij
  · subst hij
    exact byteAt_putByte_self (unit_pos T) _ _ hx
  · exact byteAt_putByte_ne (unit_pos T) _ hx (by omega)

/-! ## The refinement -/

/-- The store after a step in which the objects held keep their units. -/
theorem ApiInv.storeOf_kept (h : ApiInv T y) (h' : ApiInv T y') (hobjs : y'.objs = y.objs)
    (hkept : Kept T y y' y.objs) : storeOf T y' = storeOf T y := by
  funext p
  by_cases hp : ∃ o ∈ y.objs, o.ptr = p
  · obtain ⟨o, ho, rfl⟩ := hp
    rw [h'.storeOf_mem (hobjs ▸ ho), h.storeOf_mem ho,
      (h.fine o (List.mem_append_left _ ho)).contents_eq (hkept o ho)]
  · push Not at hp
    rw [storeOf_none hp, storeOf_none (hobjs ▸ hp)]

theorem ApiInv.storeOf_alloc (h : ApiInv T y) (h' : ApiInv T y') (hobjs : y'.objs = o :: y.objs)
    (hkept : Kept T y y' y.objs) : storeOf T y o.ptr = none ∧
      storeOf T y' = Function.update (storeOf T y) o.ptr (some (contents T y'.k o)) := by
  have hall' : ∀ x ∈ y'.objs, x ∈ y'.all := fun x hx => List.mem_append_left _ hx
  have ho : o ∈ y'.objs := by simp [hobjs]
  have hne : ∀ x ∈ y.objs, x.ptr ≠ o.ptr := by
    intro x hx heq
    have hfine := h'.fine o (hall' o ho)
    have hhas := hfine.has (a := o.ptr) (by omega) (Nat.lt_add_of_pos_right hfine.room_pos)
    have hperm : y'.all.Perm (o :: (y.objs ++ y'.rcu.map Prod.snd)) := by
      unfold Api.all
      rw [hobjs]
      exact .refl _
    have hx' : x = o := h'.ptr_inj (hall' o ho) (hall' x (by simp [hobjs, hx])) heq
    subst hx'
    exact h'.apart_of_perm hperm (List.mem_append_left _ hx) hhas hhas
  refine ⟨storeOf_none hne, ?_⟩
  funext p
  by_cases hp : p = o.ptr
  · subst hp
    rw [Function.update_self, h'.storeOf_mem ho]
  rw [Function.update_of_ne hp]
  by_cases hex : ∃ x ∈ y.objs, x.ptr = p
  · obtain ⟨x, hx, rfl⟩ := hex
    rw [h'.storeOf_mem (by simp [hobjs, hx]), h.storeOf_mem hx,
      (h.fine x (List.mem_append_left _ hx)).contents_eq (hkept x hx)]
  · push Not at hex
    rw [storeOf_none hex, storeOf_none]
    intro x hx
    rw [hobjs] at hx
    rcases List.mem_cons.mp hx with rfl | hx
    · exact fun heq => hp heq.symm
    · exact hex x hx

theorem ApiInv.storeOf_free (h : ApiInv T y) (h' : ApiInv T y') (ho : o ∈ y.objs)
    (hobjs : y'.objs = y.objs.eraseP fun x => x.ptr = o.ptr) (hkept : Kept T y y' y'.objs) :
    storeOf T y' = Function.update (storeOf T y) o.ptr none := by
  have hfine := h.fine o (List.mem_append_left _ ho)
  have hhas := hfine.has (a := o.ptr) (by omega) (Nat.lt_add_of_pos_right hfine.room_pos)
  have hsub : ∀ x ∈ y'.objs, x ∈ y.objs := fun x hx => List.mem_of_mem_eraseP (hobjs ▸ hx)
  funext p
  by_cases hp : p = o.ptr
  · subst hp
    rw [Function.update_self]
    refine storeOf_none fun x hx heq => ?_
    have hx' : x = o :=
      h.ptr_inj (List.mem_append_left _ ho) (List.mem_append_left _ (hsub x hx)) heq
    subst hx'
    exact h.apart_of_perm (h.perm_of_free ho) (List.mem_append_left _ (hobjs ▸ hx)) hhas hhas
  rw [Function.update_of_ne hp]
  by_cases hex : ∃ x ∈ y.objs, x.ptr = p
  · obtain ⟨x, hx, rfl⟩ := hex
    have hx' : x ∈ y'.objs := by
      rw [hobjs]
      exact (List.mem_eraseP_of_neg (by simpa using hp)).mpr hx
    rw [h'.storeOf_mem hx', h.storeOf_mem hx,
      (h.fine x (List.mem_append_left _ hx)).contents_eq (hkept x hx')]
  · push Not at hex
    rw [storeOf_none hex, storeOf_none fun x hx => hex x (hsub x hx)]

theorem ApiInv.storeOf_write (h : ApiInv T y) (h' : ApiInv T y') {i x : ℕ} (ho : o ∈ y.objs)
    (hi : i < o.usable T) (hx : x < 256) (hobjs : y'.objs = y.objs)
    (hmem : y'.k.st.mem = putByte T.unit y.k.st.mem (o.ptr + i) x) :
    storeOf T y' = Function.update (storeOf T y) o.ptr (some ((contents T y.k o).set i x)) := by
  have hall : o ∈ y.all := List.mem_append_left _ ho
  have hroom := (h.fine o hall).usable_le
  funext p
  by_cases hp : p = o.ptr
  · subst hp
    rw [Function.update_self, h'.storeOf_mem (hobjs ▸ ho), contents_putByte hx hmem]
  rw [Function.update_of_ne hp]
  by_cases hex : ∃ z ∈ y.objs, z.ptr = p
  · obtain ⟨z, hz, rfl⟩ := hex
    have hz' : z ∈ y.objs.eraseP fun x => x.ptr = o.ptr :=
      (List.mem_eraseP_of_neg (by simpa using hp)).mpr hz
    rw [h'.storeOf_mem (hobjs ▸ hz), h.storeOf_mem hz,
      (h.fine z (List.mem_append_left _ hz)).contents_eq fun u hu => ?_]
    rw [hmem]
    exact h.poke_kept hall (by omega) (by omega) (h.perm_of_free ho) (List.mem_append_left _ hz') hu
  · push Not at hex
    rw [storeOf_none hex, storeOf_none fun z hz => hex z (hobjs ▸ hz)]

/-- **A step refines** its event. -/
theorem Effect.refines (heff : Effect T y y' e) (h : ApiInv T y) (h' : ApiInv T y')
    (hrun : Store.Run es (storeOf T y)) : Store.Run (e.toList ++ es) (storeOf T y') := by
  cases heff with
  | silent hobjs hkept =>
    rw [h.storeOf_kept h' hobjs hkept]
    exact hrun
  | @alloc o init hobjs hkept hinit =>
    obtain ⟨hnew, hstore⟩ := h.storeOf_alloc h' hobjs hkept
    rw [hstore]
    refine .cons hrun (.alloc _ hnew fun i x hx => ?_)
    obtain ⟨hi, hbyte⟩ := hinit i x hx
    simp [contents, hi, hbyte]
  | free ho hobjs hkept =>
    rw [h.storeOf_free h' ho hobjs hkept]
    exact .cons hrun (.free (h.storeOf_mem ho))
  | write ho hi hx hobjs hmem =>
    rw [h.storeOf_write h' ho hi hx hobjs hmem]
    exact .cons hrun (.write (h.storeOf_mem ho) (by simpa [contents] using hi))

theorem ApiRun.refines (h : ApiRun T es y) : Store.Run es (storeOf T y) := by
  induction h with
  | boot h => exact .nil
  | step hrun hs ih =>
    obtain ⟨hinv, heff⟩ := hrun.inv.step hs
    exact heff.refines hrun.inv hinv ih

/-- **The last write is read.** In every run the objects held are a store of separate arrays: a byte of
an object is what its holder wrote there last, or what it was cleared to or its constructor left, whatever
else was allocated, freed, handed to `call_rcu` and written in between. -/
theorem last_write_is_read (h : ApiRun T es y) : Store.Run es (storeOf T y) ∧
    ∀ o ∈ y.objs, ∀ i x, Store.lastWritten es o.ptr i = some x →
      i < o.usable T ∧ byteAt T.unit y.k.st.mem (o.ptr + i) = x := by
  refine ⟨h.refines, fun o ho i x hlast => ?_⟩
  obtain ⟨bs, hbs, hx⟩ := h.refines.get hlast
  rw [h.inv.storeOf_mem ho] at hbs
  obtain rfl := Option.some.inj hbs
  obtain ⟨hi, hget⟩ := List.getElem?_eq_some_iff.mp hx
  simp only [contents, List.length_map, List.length_range] at hi
  refine ⟨hi, ?_⟩
  simpa [contents] using hget

/-- In the sample run, the byte written and one of those cleared. -/
theorem last_write_is_read_sample : ∃ es y, ApiRun i386Kernel es y ∧
    byteAt 2 y.k.st.mem 4109 = 7 ∧ byteAt 2 y.k.st.mem 4104 = 0 := by
  obtain ⟨k, h⟩ := apiRun_sample
  have hread := (last_write_is_read h).2 ⟨4104, .kmalloc 100⟩ (by simp)
  exact ⟨_, _, h, (hread 5 7 (by decide)).2, (hread 0 0 (by decide)).2⟩

/-! ## What users rely on -/

/-- **Calls return.** Every run of the entry points is a run of the allocator in which the blocks of the
objects in use are the live ones, and every legal call returns: no `BUG_ON` fires and no search is
endless. -/
theorem calls_return (h : ApiRun T es y) :
    (∃ live, Reachable T.toArch ⟨y.k.st, live⟩ ∧ live.Perm (blocksOf T y.all)) ∧
      ∀ c, y.Legal T c → ∃ r, y.exec T c = some r := by
  refine ⟨h.inv.heap, fun c hlegal => ?_⟩
  obtain ⟨y', e, he, -⟩ := h.inv.exec hlegal
  exact ⟨_, he⟩

/-- Freeing the object of the cache in the sample run. -/
theorem calls_return_sample : ∃ es y, ApiRun i386Kernel es y ∧
    ∃ r, y.exec i386Kernel (.free ⟨4204, .cache sampleCache⟩) = some r := by
  obtain ⟨k, h⟩ := apiRun_sample
  exact ⟨_, _, h, (calls_return h).2 (.free ⟨4204, .cache sampleCache⟩) (List.mem_cons_self ..)⟩

/-- **Frees are exact.** `kfree`, `kmem_cache_free` and `kmem_rcu_free` give back the block of the object
with the size it was allocated with, or pages that the page allocator handed out with their order. -/
theorem frees_are_exact (h : ApiRun T es y) :
    (∀ o ∈ y.objs, ∀ size, o.kind = .kmalloc size → kfree T y.k o.ptr = release T y.k o) ∧
      (∀ o ∈ y.objs, ∀ c, o.kind = .cache c → c.destroyByRcu = false →
        kmemCacheFree T y.k c o.ptr = release T y.k o) ∧
      (∀ r ∈ y.rcu, kmemRcuFree T y.k r.1 = release T y.k r.2) ∧
      ∀ o ∈ y.all, ∃ k hd, release T y.k o = some (k, hd) ∧
        ∀ p order, hd = .pages p order → (p, order) ∈ y.out := by
  refine ⟨fun o ho size hkind => h.inv.kfree_eq (List.mem_append_left _ ho) hkind,
    fun o _ c hkind hrcu => ?_, fun r hr => h.inv.kmemRcuFree_eq hr, fun o ho => ?_⟩
  · unfold kmemCacheFree
    simp only [hrcu]
    exact kmemCacheFreeBlock_eq y.k hkind
  · unfold release
    cases hst : o.storage T with
    | inl b =>
      obtain ⟨live, hreach, hperm⟩ := h.inv.heap
      obtain ⟨v, hrep, -⟩ := reachable_inv hreach
      obtain ⟨s, -, hs, -⟩ := hrep.slobFree (ApiInv.mem_blocks hperm ho hst)
      exact ⟨_, _, by simp only [hs]; rfl, by simp⟩
    | inr r =>
      refine ⟨_, _, rfl, ?_⟩
      rintro p order ⟨⟩
      exact h.inv.mem_out ho hst

theorem dvd_pageSize {n : ℕ} (h : Aligning T.toArch n) (hn : n ≠ 0) : n ∣ T.PAGE_SIZE := by
  obtain rfl | ⟨j, rfl, hle⟩ := h
  · exact absurd rfl hn
  · exact pow_dvd_pow 2 ((Nat.pow_le_pow_iff_right (by norm_num)).mp hle)

theorem minAlign_dvd_pageSize (T : Target) : T.minAlign ∣ T.PAGE_SIZE := by
  obtain ⟨j, hj⟩ := T.minAlign_pow
  have hfour := T.four_le
  exact dvd_pageSize (.inr ⟨j, hj, hj ▸ T.minAlign_lt.le⟩) (by omega)

/-- In the sample run, both `kfree` and the callback find their blocks. -/
theorem frees_are_exact_sample : ∃ es y, ApiRun i386Kernel es y ∧
    kfree i386Kernel y.k 4104 = release i386Kernel y.k ⟨4104, .kmalloc 100⟩ ∧
    kmemRcuFree i386Kernel y.k 4224 = release i386Kernel y.k ⟨4204, .cache sampleCache⟩ := by
  obtain ⟨es, k, h⟩ := apiRun_sample_free
  obtain ⟨hkfree, -, hrcu, -⟩ := frees_are_exact h
  exact ⟨_, _, h, hkfree ⟨4104, .kmalloc 100⟩ (by simp) 100 rfl, hrcu sampleCallback (by simp)⟩

/-- The pages of an object fit in the address space. -/
theorem ApiInv.pages_lt (h : ApiInv T y) {r : ℕ × ℕ} (hr : r ∈ y.out) :
    T.PAGE_SIZE * 2 ^ r.2 < 2 ^ T.wordBits := by
  have hle := (h.pages r hr).2.1
  have hpos : 0 < 2 ^ (T.wordBits - T.pageShift) := Nat.two_pow_pos _
  have hlt : 2 ^ r.2 < 2 ^ (T.wordBits - T.pageShift) := by
    unfold Arch.maxPfn at hle
    omega
  calc T.PAGE_SIZE * 2 ^ r.2 < T.PAGE_SIZE * 2 ^ (T.wordBits - T.pageShift) :=
        Nat.mul_lt_mul_of_pos_left hlt (pageSize_pos T)
    _ = 2 ^ T.wordBits := by
        unfold Arch.PAGE_SIZE
        rw [← pow_add, Nat.add_sub_cancel' T.lt_word.le]

theorem ApiInv.ksize_eq (h : ApiInv T y) (ho : o ∈ y.all) {size : ℕ} (hkind : o.kind = .kmalloc size) :
    ksize T y.k o.ptr = some (o.usable T) := by
  have hslab := h.page_slab ho
  have hlow := h.lt_ptr ho
  have hfine := h.fine o ho
  have hout := @ApiInv.mem_out T y o h
  obtain ⟨ptr, kind⟩ := o
  obtain rfl : kind = .kmalloc size := hkind
  simp only at hslab
  unfold ksize
  rw [if_neg (Nat.zero_lt_of_lt hlow).ne', if_neg hlow.ne']
  simp only [hslab]
  unfold Fine at hfine
  by_cases hs : size < T.PAGE_SIZE - T.minAlign
  · simp only [if_pos hs] at hfine
    rw [hfine.2.2.2]
    simp [Obj.storage, Obj.usable, hs]
  · simp only [if_neg hs] at hfine
    have hlt := h.pages_lt (@hout (ptr / T.PAGE_SIZE, T.getOrder size) ho (by simp [Obj.storage, hs]))
    rw [hfine.2]
    simp [Obj.storage, Obj.usable, hs, Nat.mod_eq_of_lt hlt]

/-- **Objects are apart.** In every run the bytes that the holders of two objects may use are different
ones, also up to `ksize`; objects are aligned as asked, and `ksize` is at least the size asked for. -/
theorem objects_apart (h : ApiRun T es y) :
    (∀ o ∈ y.objs, ∀ o' ∈ y.objs, o ≠ o' →
      o.ptr + o.usable T ≤ o'.ptr ∨ o'.ptr + o'.usable T ≤ o.ptr) ∧
      (∀ o ∈ y.objs, ∀ size, o.kind = .kmalloc size →
        T.minAlign ∣ o.ptr ∧ ksize T y.k o.ptr = some (o.usable T) ∧ size ≤ o.usable T) ∧
      ∀ o ∈ y.objs, ∀ c, o.kind = .cache c → c.align ≠ 0 → c.align ∣ o.ptr := by
  refine ⟨fun o ho o' ho' hne => ?_, fun o ho size hkind => ⟨?_, ?_, ?_⟩, fun o ho c hkind hne => ?_⟩
  · have hall : o ∈ y.all := List.mem_append_left _ ho
    have hall' : o' ∈ y.all := List.mem_append_left _ ho'
    have hfine := h.inv.fine o hall
    have hfine' := h.inv.fine o' hall'
    have hroom := hfine.usable_le
    have hroom' := hfine'.usable_le
    have hpos := hfine.room_pos
    have hpos' := hfine'.room_pos
    by_contra hover
    -- the later of the two addresses lies in both
    rcases Nat.le_total o.ptr o'.ptr with hle | hle
    · exact hne (h.inv.apart hall hall' (a := o'.ptr / T.unit) (hfine.has (by omega) (by omega))
        (hfine'.has (by omega) (by omega)))
    · exact hne (h.inv.apart hall hall' (a := o.ptr / T.unit) (hfine.has (by omega) (by omega))
        (hfine'.has (by omega) (by omega)))
  · have hfine := h.inv.fine o (List.mem_append_left _ ho)
    unfold Fine at hfine
    rw [hkind] at hfine
    simp only at hfine
    split_ifs at hfine
    · exact hfine.2.1
    · exact (minAlign_dvd_pageSize T).trans hfine.1
  · exact h.inv.ksize_eq (List.mem_append_left _ ho) hkind
  · have hunits : size ≤ T.unit * T.SLOB_UNITS size := le_units ..
    have horder := le_getOrder T.toArch size
    unfold Obj.usable
    rw [hkind]
    simp only
    split_ifs
    · rwa [Nat.mul_comm]
    · exact horder
  · have hfine := h.inv.fine o (List.mem_append_left _ ho)
    unfold Fine at hfine
    rw [hkind] at hfine
    obtain ⟨hcreated, hfine⟩ := hfine
    split_ifs at hfine
    · exact hfine.2 hne
    · exact (dvd_pageSize hcreated.facts.2.1 hne).trans hfine

/-- The two objects of the sample run. -/
theorem objects_apart_sample : ∃ es y, ApiRun i386Kernel es y ∧
    y.objs = [⟨4204, .cache sampleCache⟩, ⟨4104, .kmalloc 100⟩] ∧
    ksize i386Kernel y.k 4104 = some 100 ∧ 4 ∣ 4204 := by
  obtain ⟨k, h⟩ := apiRun_sample
  obtain ⟨-, hkmalloc, hcache⟩ := objects_apart h
  exact ⟨_, _, h, rfl, (hkmalloc ⟨4104, .kmalloc 100⟩ (by simp) 100 rfl).2.1,
    hcache ⟨4204, .cache sampleCache⟩ (by simp) _ rfl (by decide)⟩

/-- **Nothing leaks.** When all objects are freed and no callback waits, all memory is back with the page
allocator. -/
theorem nothing_leaks (h : ApiRun T es y) (hobjs : y.objs = []) (hrcu : y.rcu = []) :
    y.out = [] ∧ (∀ p, (y.k.st.page p).slab = false) ∧ (∀ c, pageList T.toArch y.k.st c = []) ∧
      y.k.st.pages = 0 := by
  have hall : y.all = [] := by simp [Api.all, hobjs, hrcu]
  obtain ⟨live, hreach, hperm⟩ := h.inv.heap
  have hout := h.inv.out
  rw [hall] at hperm hout
  obtain rfl := List.perm_nil.mp hperm
  exact ⟨List.perm_nil.mp hout, hreach.empty⟩

/-- An object is taken and freed. -/
theorem nothing_leaks_sample : ∃ es y, ApiRun i386Kernel es y ∧ es.length = 2 ∧
    y.out = [] ∧ (∀ p, (y.k.st.page p).slab = false) ∧
    (∀ c, pageList (i386 false) y.k.st c = []) ∧ y.k.st.pages = 0 := by
  have hcalls : ((doKmallocNode i386Kernel bootApi.k 100 ⟨true⟩ none (lastPage 1)).bind fun r =>
      (kfree i386Kernel r.1 4104).map fun r' => (r.2, r'.2)) = some (4104, .nothing) := by
    decide +kernel
  obtain ⟨⟨k₁, b₁⟩, he₁, hcalls⟩ := Option.bind_eq_some_iff.mp hcalls
  obtain ⟨⟨k₂, hd⟩, he₂, hcalls⟩ := Option.map_eq_some_iff.mp hcalls
  cases hcalls
  have hcall₁ : bootApi.exec i386Kernel (.kmalloc 100 ⟨true⟩ none (lastPage 1)) =
      some (bootApi.give i386Kernel k₁ 4104 (.kmalloc 100) true) := by
    simp only [Api.exec, he₁, Option.map_some]
  have h₁ : ApiRun i386Kernel _ (bootApi.give i386Kernel k₁ 4104 (.kmalloc 100) true).1 :=
    .step (.boot initial_boot) (.call (.kmalloc 100 ⟨true⟩ none (lastPage 1)) freshPages_lastPage hcall₁)
  have hcall₂ : Api.exec i386Kernel ⟨k₁, [⟨4104, .kmalloc 100⟩], [], []⟩ (.free ⟨4104, .kmalloc 100⟩) =
      some (⟨k₂, [], [], []⟩, some (.free 4104)) := by
    have he : freeObj i386Kernel k₁ ⟨4104, .kmalloc 100⟩ = some (k₂, .nothing) := he₂
    simp only [Api.exec, he, Option.map_some]
    rfl
  have h₂ : ApiRun i386Kernel _ ⟨k₂, [], [], []⟩ :=
    .step h₁ (.call (.free ⟨4104, .kmalloc 100⟩) (List.mem_cons_self ..) hcall₂)
  exact ⟨_, _, h₂, rfl, nothing_leaks h₂ rfl rfl⟩

end Cs444.Slob
