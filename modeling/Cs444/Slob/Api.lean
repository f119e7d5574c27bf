import Mathlib.Data.Nat.Size
import Cs444.Lib.Bytes
import Cs444.Lib.Store
import Cs444.Slob.Contents

/-!
# The entry points: `kmalloc`, `kfree`, `ksize` and the object caches

What `slob.c` puts on `slob_alloc` and `slob_free`. Pointers to objects are byte addresses, with `0`
for `NULL`; the bytes of the memory are those of its units (`byteAt`).

* `kmalloc` stores the size of an object in front of it, and `kfree` reads it back. An object that does
  not fit in a page is a compound page, whose order `struct page` keeps.
* A cache made with `SLAB_DESTROY_BY_RCU` has a footer behind its objects. `kmem_cache_free` stores the
  size there, and `kmem_rcu_free` finds the object from it after a grace period.

`Api` is the allocator with the objects its users hold, the callbacks that wait for their grace period,
and the pages the page allocator has handed out.
-/

namespace Cs444.Slob

/-- The constants of the target the entry points use. -/
structure Target extends Arch where
  /-- `max_t(size_t, ARCH_KMALLOC_MINALIGN, ARCH_SLAB_MINALIGN)` -/
  minAlign : ℕ
  /-- `sizeof(struct rcu_head)` -/
  rcuHeadSize : ℕ
  /-- `sizeof(struct slob_rcu)` -/
  slobRcuSize : ℕ
  minAlign_pow : ∃ k, minAlign = 2 ^ k
  four_le : 4 ≤ minAlign
  minAlign_lt : minAlign < 2 ^ pageShift
  slobRcuSize_le : rcuHeadSize + 4 ≤ slobRcuSize

variable (T : Target)

/-- The allocator, and the `compound_order` of the pages. -/
structure Kernel where
  st : State
  compoundOrder : ℕ → ℕ

def Kernel.setMem (k : Kernel) (m : Mem) : Kernel := { k with st := { k.st with mem := m } }

/-! ## Pages -/

/-- `get_order(size)`, `fls((size - 1) >> PAGE_SHIFT)`. -/
def Arch.getOrder (A : Arch) (size : ℕ) : ℕ := Nat.size ((size - 1) / A.PAGE_SIZE)

/-- What the page allocator returns, by the order that it is asked for. -/
structure PagesSource where
  allocPages : ℕ → Option ℕ
  allocPagesExactNode : ℕ → ℕ → Option ℕ

def PagesSource.order (src : PagesSource) (order : ℕ) : PageSource :=
  ⟨src.allocPages order, fun node => src.allocPagesExactNode node order⟩

/-- The memory with `2 ^ order` pages from `p` on cleared. -/
def clearPages (A : Arch) (m : Mem) (p order : ℕ) : Mem := fun a =>
  if p ≤ A.virtToPage a ∧ A.virtToPage a < p + 2 ^ order then 0 else m a

/-- `slob_new_pages(gfp, order, node)`, the address of the pages. The page allocator clears them for
`__GFP_ZERO`, and makes them a compound page for `__GFP_COMP`. -/
def newPages (k : Kernel) (gfp : Gfp) (comp : Bool) (order : ℕ) (node : Option ℕ)
    (src : PagesSource) : Kernel × ℕ :=
  match slobNewPages T.toArch (src.order order) node with
  | none => (k, 0)
  | some p =>
    ({ st := { k.st with mem := if gfp.zero then clearPages T.toArch k.st.mem p order else k.st.mem }
       compoundOrder := Function.update k.compoundOrder p (if comp then order else 0) },
      T.PAGE_SIZE * p)

/-- What a free hands on: pages to the page allocator, or the `rcu_head` of a callback to `call_rcu`.
The page that `slob_free` gives back is not told, its `PageSlab` is. -/
inductive Handed
  | nothing
  | pages (pfn order : ℕ)
  | callRcu (head : ℕ)
  deriving DecidableEq

/-! ## `kmalloc` -/

def ZERO_SIZE_PTR : ℕ := 16

/-- The bytes of a unit. -/
abbrev Target.unit : ℕ := T.SLOB_UNIT

/-- `__do_kmalloc_node` -/
def doKmallocNode (k : Kernel) (size : ℕ) (gfp : Gfp) (node : Option ℕ) (src : PagesSource) :
    Option (Kernel × ℕ) :=
  if size < T.PAGE_SIZE - T.minAlign then
    if size = 0 then some (k, ZERO_SIZE_PTR)
    else
      match slobAlloc T.toArch k.st (size + T.minAlign) gfp T.minAlign node (src.order 0) with
      | none => none
      | some (s, none) => some ({ k with st := s }, 0)
      | some (s, some m) =>
        -- *m = size
        let mem := putWord T.unit s.mem (T.unit * m) 4 size
        some ({ k with st := { s with mem := mem } }, T.unit * m + T.minAlign)
  else
    let order := T.getOrder size
    some (newPages T k gfp (order ≠ 0) order node src)

/-- The `unsigned int` in front of an object. -/
def header (m : Mem) (block : ℕ) : ℕ := wordAt T.unit m (block - T.minAlign) 4

/-- `kfree` -/
def kfree (k : Kernel) (block : ℕ) : Option (Kernel × Handed) :=
  if block ≤ ZERO_SIZE_PTR then some (k, .nothing)
  else
    let sp := block / T.PAGE_SIZE
    if (k.st.page sp).slab then
      let m := (block - T.minAlign) / T.unit
      match slobFree T.toArch k.st m ((header T k.st.mem block + T.minAlign) % 2 ^ 32) with
      | none => none
      | some s => some ({ k with st := s }, .nothing)
    else some (k, .pages sp (k.compoundOrder sp))

/-- `ksize` -/
def ksize (k : Kernel) (block : ℕ) : Option ℕ :=
  if block = 0 then none -- BUG_ON(!block)
  else if block = ZERO_SIZE_PTR then some 0
  else
    let sp := block / T.PAGE_SIZE
    if !(k.st.page sp).slab then some (T.PAGE_SIZE * 2 ^ k.compoundOrder sp % 2 ^ T.wordBits)
    else some (T.SLOB_UNITS (header T k.st.mem block) * T.unit)

/-! ## Object caches -/

/-- The fields of `struct kmem_cache` the allocator uses. The constructor, when there is one, is told
where the object is and leaves what it writes to each byte of it. -/
structure Cache where
  size : ℕ
  objectSize : ℕ
  align : ℕ
  /-- `flags & SLAB_DESTROY_BY_RCU` -/
  destroyByRcu : Bool
  ctor : Option (ℕ → ℕ → Option ℕ)

/-- `__kmem_cache_create` -/
def kmemCacheCreate (c : Cache) (destroyByRcu : Bool) : Cache :=
  { c with
    -- leave room for rcu footer at the end of object
    size := if destroyByRcu then c.size + T.slobRcuSize else c.size
    destroyByRcu := destroyByRcu }

/-- `c->ctor(b)`, on the first `n` bytes of the object. -/
def runCtor (f : ℕ → ℕ → Option ℕ) (b : ℕ) (m : Mem) : ℕ → Mem
  | 0 => m
  | n + 1 =>
    match f b n with
    | some x => putByte T.unit (runCtor f b m n) (b + n) (x % 256)
    | none => runCtor f b m n

/-- The end of `slob_alloc_node`. -/
def construct (c : Cache) (k : Kernel) (b : ℕ) : Kernel :=
  if b = 0 then k
  else
    match c.ctor with
    | some f => k.setMem (runCtor T f b k.st.mem c.objectSize)
    | none => k

/-- `slob_alloc_node` -/
def slobAllocNode (k : Kernel) (c : Cache) (gfp : Gfp) (node : Option ℕ) (src : PagesSource) :
    Option (Kernel × ℕ) :=
  if c.size < T.PAGE_SIZE then
    match slobAlloc T.toArch k.st c.size gfp c.align node (src.order 0) with
    | none => none
    | some (s, b) =>
      let b := (b.map fun b => T.unit * b).getD 0
      some (construct T c { k with st := s } b, b)
  else
    let (k, b) := newPages T k gfp false (T.getOrder c.size) node src
    some (construct T c k b, b)

/-- `__kmem_cache_free` -/
def kmemCacheFreeBlock (k : Kernel) (b size : ℕ) : Option (Kernel × Handed) :=
  if size < T.PAGE_SIZE then
    match slobFree T.toArch k.st (b / T.unit) size with
    | none => none
    | some s => some ({ k with st := s }, .nothing)
  else some (k, .pages (b / T.PAGE_SIZE) (T.getOrder size)) -- slob_free_pages

/-- `kmem_cache_free` -/
def kmemCacheFree (k : Kernel) (c : Cache) (b : ℕ) : Option (Kernel × Handed) :=
  if c.destroyByRcu then
    let slobRcu := b + (c.size - T.slobRcuSize)
    let mem := putWord T.unit k.st.mem (slobRcu + T.rcuHeadSize) 4 c.size
    some (k.setMem mem, .callRcu slobRcu)
  else kmemCacheFreeBlock T k b c.size

/-- `kmem_rcu_free` -/
def kmemRcuFree (k : Kernel) (head : ℕ) : Option (Kernel × Handed) :=
  let size := wordAt T.unit k.st.mem (head + T.rcuHeadSize) 4
  kmemCacheFreeBlock T k (head - (size - T.slobRcuSize)) size

/-! ## Objects -/

/-- Where an object comes from. -/
inductive Kind
  | kmalloc (size : ℕ)
  | cache (c : Cache)

/-- An object that was handed out: its address and where it comes from. -/
structure Obj where
  ptr : ℕ
  kind : Kind

namespace Obj

/-- The bytes the holder of an object may use. -/
def usable (o : Obj) : ℕ :=
  match o.kind with
  | .kmalloc size =>
    if size < T.PAGE_SIZE - T.minAlign then T.SLOB_UNITS size * T.unit
    else T.PAGE_SIZE * 2 ^ T.getOrder size
  | .cache c => c.objectSize

/-- What the object lies in: a block of `slob_alloc`, or pages, given by the first page frame and the
order. -/
def storage (o : Obj) : Live ⊕ (ℕ × ℕ) :=
  match o.kind with
  | .kmalloc size =>
    if size < T.PAGE_SIZE - T.minAlign then .inl ⟨(o.ptr - T.minAlign) / T.unit, size + T.minAlign⟩
    else .inr (o.ptr / T.PAGE_SIZE, T.getOrder size)
  | .cache c =>
    if c.size < T.PAGE_SIZE then .inl ⟨o.ptr / T.unit, c.size⟩
    else .inr (o.ptr / T.PAGE_SIZE, T.getOrder c.size)

end Obj

/-- A cache that `__kmem_cache_create` has made, with objects of at least a byte whose size is an
`int`. -/
def Created (c : Cache) : Prop :=
  ∃ c₀ rcu, c = kmemCacheCreate T c₀ rcu ∧ c₀.objectSize ≤ c₀.size ∧ 0 < c₀.size ∧
    Aligning T.toArch c₀.align ∧ c.size < 2 ^ 31

/-! ## The system -/

/-- The allocator with its users: the objects they hold, the callbacks given to `call_rcu` with their
objects, and the pages the page allocator has handed out for objects. -/
structure Api where
  k : Kernel
  objs : List Obj
  rcu : List (ℕ × Obj)
  out : List (ℕ × ℕ)

/-- A call of an entry point, with what the page allocator answers should it be asked. -/
inductive ApiCall
  | kmalloc (size : ℕ) (gfp : Gfp) (node : Option ℕ) (src : PagesSource)
  | cacheAlloc (c : Cache) (gfp : Gfp) (node : Option ℕ) (src : PagesSource)
  | free (o : Obj)
  /-- The grace period of a callback is over. -/
  | gracePeriod (r : ℕ × Obj)

/-- The bytes of a new object that are known: cleared ones, and what the constructor wrote. -/
def Kind.init (kind : Kind) (zero : Bool) (b i : ℕ) : Option ℕ :=
  match kind with
  | .kmalloc size => if zero ∧ i < size then some 0 else none
  | .cache c =>
    if i < c.objectSize then
      match c.ctor.bind fun f => f b i with
      | some x => some (x % 256)
      | none => if zero then some 0 else none
    else none

/-- The object at `b` was handed out. -/
def Api.give (y : Api) (k : Kernel) (b : ℕ) (kind : Kind) (zero : Bool) : Api × Option (Event ℕ ℕ) :=
  if b ≤ ZERO_SIZE_PTR then ({ y with k := k }, none)
  else
    ({ y with k := k, objs := ⟨b, kind⟩ :: y.objs
              out := (Obj.storage T ⟨b, kind⟩).getRight?.toList ++ y.out },
      some (.alloc b (kind.init zero b)))

/-- The object `o` was freed. -/
def Api.take (y : Api) (k : Kernel) (o : Obj) (h : Handed) : Api :=
  match h with
  | .nothing => { y with k := k }
  | .pages pfn order => { y with k := k, out := y.out.erase (pfn, order) }
  | .callRcu head => { y with k := k, rcu := (head, o) :: y.rcu }

/-- The free of an object, by where it comes from. -/
def freeObj (k : Kernel) (o : Obj) : Option (Kernel × Handed) :=
  match o.kind with
  | .kmalloc _ => kfree T k o.ptr
  | .cache c => kmemCacheFree T k c o.ptr

/-- The state after a call and what happened to the objects, `none` when the call does not return. -/
def Api.exec (y : Api) : ApiCall → Option (Api × Option (Event ℕ ℕ))
  | .kmalloc size gfp node src =>
    (doKmallocNode T y.k size gfp node src).map fun r => y.give T r.1 r.2 (.kmalloc size) gfp.zero
  | .cacheAlloc c gfp node src =>
    (slobAllocNode T y.k c gfp node src).map fun r => y.give T r.1 r.2 (.cache c) gfp.zero
  | .free o =>
    (freeObj T y.k o).map fun r =>
      ({ y with objs := y.objs.eraseP fun x => x.ptr = o.ptr }.take r.1 o r.2, some (.free o.ptr))
  | .gracePeriod cb =>
    (kmemRcuFree T y.k cb.1).map fun r =>
      ({ y with rcu := y.rcu.eraseP fun x => x.1 = cb.1 }.take r.1 cb.2 r.2, none)

/-- `2 ^ order` page frames from `p` on. -/
def InPages (r : ℕ × ℕ) (q : ℕ) : Prop := r.1 ≤ q ∧ q < r.1 + 2 ^ r.2

/-- The page allocator hands out page frames that are neither slab pages nor handed out already. -/
def FreshPages (y : Api) (node : Option ℕ) (src : PagesSource) : Prop :=
  ∀ order, ∀ p ∈ slobNewPages T.toArch (src.order order) node,
    0 < p ∧ p + 2 ^ order ≤ T.maxPfn ∧
      ∀ q, InPages (p, order) q → (y.k.st.page q).slab = false ∧ ∀ r ∈ y.out, ¬ InPages r q

/-- What users promise: caches are created, and frees are of objects they hold. -/
def Api.Legal (y : Api) : ApiCall → Prop
  | .kmalloc _ _ node src => FreshPages T y node src
  | .cacheAlloc c _ node src => Created T c ∧ FreshPages T y node src
  | .free o => o ∈ y.objs
  | .gracePeriod cb => cb ∈ y.rcu

/-- The rest of the kernel leaves slab pages alone, and pages that are handed out for objects. -/
structure Elsewhere (y : Api) (k : Kernel) : Prop where
  mem : ∀ a, (y.k.st.page (T.virtToPage a)).slab = true ∨ (∃ r ∈ y.out, InPages r (T.virtToPage a)) →
    k.st.mem a = y.k.st.mem a
  page : ∀ p, (y.k.st.page p).slab = true → k.st.page p = y.k.st.page p
  slab : ∀ p, (k.st.page p).slab = (y.k.st.page p).slab
  nid : ∀ p, (k.st.page p).nid = (y.k.st.page p).nid
  links : ∀ x, (∀ p, x = .page p → (y.k.st.page p).slab = true) →
    k.st.links.next x = y.k.st.links.next x ∧ k.st.links.prev x = y.k.st.links.prev x
  pages : k.st.pages = y.k.st.pages
  compoundOrder : ∀ r ∈ y.out, k.compoundOrder r.1 = y.k.compoundOrder r.1

/-- A byte is written. -/
def Api.poke (y : Api) (a x : ℕ) : Api := { y with k := y.k.setMem (putByte T.unit y.k.st.mem a x) }

/-- One step, and what happened to the objects. Readers may still write to an object whose callback
waits, and RCU keeps its own data in the `rcu_head`. -/
inductive ApiStep : Api → Option (Event ℕ ℕ) → Api → Prop
  | call {y y' : Api} {e : Option (Event ℕ ℕ)} (c : ApiCall) (hlegal : y.Legal T c)
      (hexec : y.exec T c = some (y', e)) : ApiStep y e y'
  | write {y : Api} {o : Obj} {i x : ℕ} (ho : o ∈ y.objs) (hi : i < o.usable T) (hx : x < 256) :
      ApiStep y (some (.write o.ptr i x)) (y.poke T (o.ptr + i) x)
  | reader {y : Api} {r : ℕ × Obj} {i x : ℕ} (hr : r ∈ y.rcu) (hi : i < r.2.usable T) (hx : x < 256) :
      ApiStep y none (y.poke T (r.2.ptr + i) x)
  | rcuCore {y : Api} {r : ℕ × Obj} {i x : ℕ} (hr : r ∈ y.rcu) (hi : i < T.rcuHeadSize) (hx : x < 256) :
      ApiStep y none (y.poke T (r.1 + i) x)
  | elsewhere {y : Api} {k : Kernel} (h : Elsewhere T y k) : ApiStep y none { y with k := k }

/-- The runs from boot, with their events, the latest first. -/
inductive ApiRun : List (Event ℕ ℕ) → Api → Prop
  | boot {k : Kernel} (h : Initial k.st) : ApiRun [] ⟨k, [], [], []⟩
  | step {es : List (Event ℕ ℕ)} {y y' : Api} {e : Option (Event ℕ ℕ)} (h : ApiRun es y)
      (hs : ApiStep T y e y') : ApiRun (e.toList ++ es) y'

end Cs444.Slob
