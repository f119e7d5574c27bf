import Cs444.Lib.CircList
import Cs444.Slob.Memory

/-!
# The slob heap: `slob_page_alloc`, `slob_alloc` and `slob_free`

The state of the allocator: the memory, the `struct page` of every page frame, the list links of
the three page lists and of the pages, and the counter `pages`. The functions follow `slob.c`
statement by statement.

* A function gives `none` when the code does not return: `BUG_ON` fires, a list head is used as a
  `struct page`, or a loop visits more blocks than a page has units, or more pages than the address
  space has, which happens only when it never ends.
* The page allocator is outside: a call of `slobAlloc` is given what `alloc_pages` and
  `alloc_pages_exact_node` return to it.
* A section between `spin_lock_irqsave` and `spin_unlock_irqrestore`, and a change of `pages`, is a
  definition of its own. Here the calls do not overlap; `Slob.Concurrent` makes each a step of a CPU.
-/

namespace Cs444.Slob

variable (A : Arch)

/-! ## The state -/

/-- The three lists of partially free pages. -/
inductive SizeClass
  | small
  | medium
  | large
  deriving DecidableEq, Repr

def SLOB_BREAK1 : ℕ := 256
def SLOB_BREAK2 : ℕ := 1024

/-- The list that serves a request of `size` bytes. -/
def slobList (size : ℕ) : SizeClass :=
  if size < SLOB_BREAK1 then .small
  else if size < SLOB_BREAK2 then .medium
  else .large

/-- The `struct list_head`s: `free_slob_small`, `free_slob_medium` and `free_slob_large`, the
`list` field of every `struct page`, and the two poison pointers of `list_del`. -/
inductive Node
  | head (c : SizeClass)
  | page (pfn : ℕ)
  | poison₁
  | poison₂
  deriving DecidableEq, Repr

/-- The fields of `struct page` the allocator uses. `units` never goes below zero. -/
structure Page where
  units : ℕ
  freelist : ℕ
  /-- `PageSlab` -/
  slab : Bool
  /-- `PageSlobFree` -/
  slobFree : Bool
  /-- `page_to_nid` -/
  nid : ℕ

structure State where
  mem : Mem
  page : ℕ → Page
  links : Links Node
  pages : ℕ
  /-- What is read as `units` where a node is not embedded in a `struct page`. -/
  strayUnits : Node → ℕ

/-- `list_entry(n, struct page, list)->units`. -/
def State.unitsAt (s : State) : Node → ℕ
  | .page pfn => (s.page pfn).units
  | n => s.strayUnits n

def State.setPage (s : State) (sp : ℕ) (pg : Page) : State :=
  { s with page := Function.update s.page sp pg }

/-- The page frames of the address space but the last, whose addresses are error pointers. -/
def Arch.maxPfn : ℕ := 2 ^ (A.wordBits - A.pageShift) - 1

def setSlobPageFree (s : State) (sp : ℕ) (list : SizeClass) : State :=
  { s.setPage sp { s.page sp with slobFree := true } with
    links := s.links.listAdd (.page sp) (.head list) }

def clearSlobPageFree (s : State) (sp : ℕ) : State :=
  { s.setPage sp { s.page sp with slobFree := false } with
    links := s.links.listDel (.page sp) .poison₁ .poison₂ }

/-! ## `slob_page_alloc` -/

/-- The units skipped at the front of the block `cur` to align it, `ALIGN(cur, align) - cur`. -/
def alignDelta (cur align : ℕ) : ℕ :=
  if align ≠ 0 then ALIGN (A.SLOB_UNIT * cur) align / A.SLOB_UNIT - cur else 0

/-- The search of `slob_page_alloc`: the first block with room for `units` and the block before
it, or `none` when the last block was passed. -/
def findBlock (m : Mem) (units align : ℕ) : ℕ → Option ℕ → ℕ → Option (Option (Option ℕ × ℕ))
  | 0, _, _ => none
  | fuel + 1, prev, cur =>
    if units + alignDelta A cur align ≤ slobUnits m cur then some (some (prev, cur))
    else if slobLast A m cur then some none
    else findBlock m units align fuel (some cur) (slobNext A m cur)

/-- Fragment the head of the block `cur` to align it: the memory after it, the block before the
aligned one, the aligned one and its size. -/
def splitHead (m : Mem) (prev : Option ℕ) (cur delta : ℕ) : Mem × Option ℕ × ℕ × ℕ :=
  let avail := slobUnits m cur
  if delta ≠ 0 then
    let aligned := cur + delta
    let next := slobNext A m cur
    let m := setSlob A m aligned (avail - delta) next
    let m := setSlob A m cur delta aligned
    (m, some cur, aligned, slobUnits m aligned)
  else (m, prev, cur, avail)

/-- Take the first `units` units of the block `cur` off the free list: the memory and the
`freelist` after it. -/
def carve (m : Mem) (freelist units : ℕ) (prev : Option ℕ) (cur avail : ℕ) : Mem × ℕ :=
  let next := slobNext A m cur
  if avail = units then -- exact fit? unlink.
    match prev with
    | some prev => (setSlob A m prev (slobUnits m prev) next, freelist)
    | none => (m, next)
  else -- fragment
    match prev with
    | some prev =>
      let m := setSlob A m prev (slobUnits m prev) (cur + units)
      (setSlob A m (cur + units) (avail - units) next, freelist)
    | none => (setSlob A m (cur + units) (avail - units) next, cur + units)

/-- The branch of `slob_page_alloc` that takes `units` units out of the block `cur`: the memory
and the `freelist` after it, and the allocated block. -/
def takeBlock (m : Mem) (freelist units : ℕ) (prev : Option ℕ) (cur delta : ℕ) : Mem × ℕ × ℕ :=
  let (m, prev, cur, avail) := splitHead A m prev cur delta
  let (m, freelist) := carve A m freelist units prev cur avail
  (m, freelist, cur)

/-- The end of a successful `slob_page_alloc`: charge the page, and unlink it when it is full. -/
def chargePage (s : State) (sp units : ℕ) (m : Mem) (freelist : ℕ) : State :=
  let pg := s.page sp
  let s := { s with mem := m }.setPage sp
    { pg with units := pg.units - units, freelist := freelist }
  if pg.units - units = 0 then clearSlobPageFree s sp else s

/-- Allocate a slob block within a given slob page `sp`. -/
def slobPageAlloc (s : State) (sp size align : ℕ) : Option (State × Option ℕ) :=
  let units := A.SLOB_UNITS size
  let pg := s.page sp
  match findBlock A s.mem units align (A.pageUnits + 1) none pg.freelist with
  | none => none
  | some none => some (s, none)
  | some (some (prev, cur)) =>
    let (m, freelist, b) :=
      takeBlock A s.mem pg.freelist units prev cur (alignDelta A cur align)
    some (chargePage s sp units m freelist, some b)

/-! ## `slob_alloc` -/

/-- What the page allocator returns to a call, as page frame numbers. -/
structure PageSource where
  allocPages : Option ℕ
  allocPagesExactNode : ℕ → Option ℕ

/-- `gfp_t`: `slob_alloc` reads only the bit `__GFP_ZERO`. -/
structure Gfp where
  zero : Bool

/-- `slob_new_pages(gfp, 0, node)`, with `none` for `NUMA_NO_NODE`. -/
def slobNewPages (src : PageSource) (node : Option ℕ) : Option ℕ :=
  match node with
  | some n => if A.numa then src.allocPagesExactNode n else src.allocPages
  | none => src.allocPages

/-- The best-fit scan: at most `i` more pages from `iter->next` on, until the page `cur`. -/
def scan (s : State) (want : ℕ) (cur : Node) : ℕ → Node → Node → Node
  | 0, _, best => best
  | i + 1, iter, best =>
    let units := s.unitsAt (s.links.next iter)
    let best := if want ≤ units ∧ units < s.unitsAt best then s.links.next iter else best
    -- break if we've circled back around
    if s.links.next iter = cur then best
    else scan s want cur i (s.links.next iter) best

/-- The node filter of `CONFIG_NUMA`. -/
def nodeMismatch (s : State) (node : Option ℕ) (sp : ℕ) : Bool :=
  A.numa && node.any fun n => (s.page sp).nid ≠ n

/-- The end of a successful attempt: start the next search at the page after `prev`. -/
def rotateTo (L : Links Node) (list : SizeClass) (prev : Node) : Links Node :=
  if prev ≠ L.prev (.head list) ∧ L.next (.head list) ≠ L.next prev then
    L.listMoveTail (.head list) (L.next prev)
  else L

/-- The loop of `slob_alloc` over the partially free pages, from `sp` on. -/
def searchPages (s : State) (list : SizeClass) (size align : ℕ) (node : Option ℕ) :
    ℕ → Node → Option (State × Option ℕ)
  | 0, _ => none
  | fuel + 1, sp =>
    if sp = .head list then some (s, none)
    else
      match sp with
      | .page pfn =>
        if nodeMismatch A s node pfn then
          searchPages s list size align node fuel (s.links.next sp)
        -- Enough room on this page?
        else if (s.page pfn).units < A.SLOB_UNITS size then
          searchPages s list size align node fuel (s.links.next sp)
        else
          match scan s (A.SLOB_UNITS size) sp 50 (.head list) sp with
          | .page best =>
            let prev := s.links.prev (.page best)
            match slobPageAlloc A s best size align with
            | none => none
            | some (_, none) => searchPages s list size align node fuel (s.links.next sp)
            | some (s, some b) => some ({ s with links := rotateTo s.links list prev }, some b)
          | _ => none
      | _ => none

/-- `memset(b, 0, size)`. The last unit keeps its upper bytes when `size` ends inside it. -/
def memsetZero (m : Mem) (b size : ℕ) : Mem := fun a =>
  if b ≤ a ∧ a < b + size / A.SLOB_UNIT then 0
  else if a = b + size / A.SLOB_UNIT then m a - m a % 2 ^ (8 * (size % A.SLOB_UNIT))
  else m a

/-- The last lines of `slob_alloc`. -/
def clearBlock (s : State) (gfp : Gfp) (b size : ℕ) : State :=
  if gfp.zero then { s with mem := memsetZero A s.mem b size } else s

/-- A page just obtained from the page allocator becomes a slob page of one free block. -/
def addPage (s : State) (sp : ℕ) (list : SizeClass) : State :=
  let b := A.pageAddress sp
  let pg := { s.page sp with slab := true, units := A.pageUnits, freelist := b }
  let s := { s.setPage sp pg with
    links := s.links.initListHead (.page sp)
    mem := setSlob A s.mem b A.pageUnits (b + A.pageUnits) }
  setSlobPageFree s sp list

/-- The first section of `slob_alloc` under the lock. -/
def lockedSearch (s : State) (size align : ℕ) (node : Option ℕ) : Option (State × Option ℕ) :=
  searchPages A s (slobList size) size align node (A.maxPfn + 1)
    (s.links.next (.head (slobList size)))

/-- The second section of `slob_alloc` under the lock, with the new page `sp`. -/
def lockedNewPage (s : State) (sp size align : ℕ) : Option (State × Option ℕ) :=
  slobPageAlloc A (addPage A s sp (slobList size)) sp size align

/-- `pages++`. -/
def incPages (s : State) : State := { s with pages := (s.pages + 1) % 2 ^ A.wordBits }

/-- `slob_alloc`: entry point into the slob allocator. -/
def slobAlloc (s : State) (size : ℕ) (gfp : Gfp) (align : ℕ) (node : Option ℕ)
    (src : PageSource) : Option (State × Option ℕ) :=
  match lockedSearch A s size align node with
  | none => none
  | some (s, some b) => some (clearBlock A s gfp b size, some b)
  | some (s, none) =>
    -- Not enough space: must allocate a new page
    match slobNewPages A src node with
    | none => some (s, none)
    | some sp =>
      match lockedNewPage A s sp size align with
      | some (s, some b) => some (clearBlock A (incPages A s) gfp b size, some b)
      | _ => none -- BUG_ON(!b)

/-! ## `slob_free` -/

/-- `while (b > next)`: the last free block before `b`. -/
def findPrev (m : Mem) (b : ℕ) : ℕ → ℕ → Option ℕ
  | 0, _ => none
  | fuel + 1, prev =>
    let next := slobNext A m prev
    if b > next then findPrev m b fuel next else some prev

/-- The reinsertion of `slob_free`: link the block `b` into the free list of its page and merge it
with its neighbours. -/
def insertBlock (m : Mem) (freelist b units : ℕ) : Option (Mem × ℕ) :=
  if b < freelist then
    if b + units = freelist then
      some (setSlob A m b (units + slobUnits m freelist) (slobNext A m freelist), b)
    else some (setSlob A m b units freelist, b)
  else
    match findPrev A m b (A.pageUnits + 1) freelist with
    | none => none
    | some prev =>
      let next := slobNext A m prev
      let m :=
        if !slobLast A m prev ∧ b + units = next then
          setSlob A m b (units + slobUnits m next) (slobNext A m next)
        else setSlob A m b units next
      let m :=
        if prev + slobUnits m prev = b then
          setSlob A m prev (slobUnits m b + slobUnits m prev) (slobNext A m b)
        else setSlob A m prev (slobUnits m prev) b
      some (m, freelist)

/-- `ZERO_OR_NULL_PTR(block)`: a pointer up to `ZERO_SIZE_PTR`, which is 16. -/
def zeroOrNullPtr (block : ℕ) : Bool := A.SLOB_UNIT * block ≤ 16

/-- Go directly to page allocator. Do not pass slob allocator. -/
def releasePage (s : State) (sp : ℕ) : State :=
  let s := if (s.page sp).slobFree then clearSlobPageFree s sp else s
  s.setPage sp { s.page sp with slab := false }

/-- This slob page is about to become partially free. Easy! -/
def refilePage (s : State) (sp b size : ℕ) : State :=
  let units := A.SLOB_UNITS size
  let s := s.setPage sp { s.page sp with units := units, freelist := b }
  let s := { s with mem := setSlob A s.mem b units (A.base (b + A.pageUnits)) }
  setSlobPageFree s sp (slobList size)

/-- Otherwise the page is already partially free, so find reinsertion point. -/
def rejoinBlock (s : State) (sp b units : ℕ) : Option State :=
  let pg := s.page sp
  match insertBlock A s.mem pg.freelist b units with
  | none => none
  | some (m, freelist) =>
    some ({ s with mem := m }.setPage sp
      { pg with units := pg.units + units, freelist := freelist })

/-- `slob_free` up to `pages--`: the state, and whether the page goes back to the page allocator. -/
def lockedFree (s : State) (b size : ℕ) : Option (State × Bool) :=
  if zeroOrNullPtr A b then some (s, false)
  else if size = 0 then none -- BUG_ON(!size)
  else
    let sp := A.virtToPage b
    let units := A.SLOB_UNITS size
    if (s.page sp).units + units = A.pageUnits then some (releasePage s sp, true)
    else if !(s.page sp).slobFree then some (refilePage A s sp b size, false)
    else (rejoinBlock A s sp b units).map fun s => (s, false)

/-- `pages--`. -/
def decPages (s : State) : State :=
  { s with pages := (s.pages + 2 ^ A.wordBits - 1) % 2 ^ A.wordBits }

/-- `slob_free`: entry point into the slob allocator. -/
def slobFree (s : State) (b size : ℕ) : Option State :=
  (lockedFree A s b size).map fun q => if q.2 then decPages A q.1 else q.1

/-! ## The system calls -/

/-- The pages of a list, as `list_for_each_entry` visits them. -/
def pageList (s : State) (list : SizeClass) : List ℕ :=
  (s.links.entries (A.maxPfn + 1) (.head list)).filterMap fun
    | .page pfn => some pfn
    | _ => none

/-- `total += sp->units` over one list. -/
def sumUnits (s : State) (list : SizeClass) (total : ℕ) : ℕ :=
  (pageList A s list).foldl (fun total sp => (total + (s.page sp).units) % 2 ^ A.wordBits) total

def freeUnits (s : State) : ℕ :=
  sumUnits A s .large (sumUnits A s .medium (sumUnits A s .small 0))

/-- Conversion of an `unsigned long` to `long`. -/
def Arch.toLong (x : ℤ) : ℤ := x.bmod (2 ^ A.wordBits)

def sysSlobUnitsUsed (s : State) : ℤ :=
  A.toLong ((A.SLOB_UNITS A.PAGE_SIZE * s.pages : ℕ) - (freeUnits A s : ℤ))

def sysSlobUnitsFree (s : State) : ℤ := A.toLong (freeUnits A s)

end Cs444.Slob
