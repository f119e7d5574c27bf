import Cs444.Lib.Threads

/-!
# The producers and consumers of `producer.c`

Any number of threads run `producer` and `consumer` on one buffer. `producer` tests for a full buffer
under the lock. `consumer` tests for an empty one without it, reads `last_item` again for every line it
prints, and takes the lock only to remove an entry; it does not look again whether there is one.

* The reads outside the lock are steps of their own. `pthread_cond_wait` may return at any time, as
  POSIX allows, and `pthread_cond_signal` therefore changes nothing.
* Produced entries are numbered, and the buffer remembers which entry each `Consumed` line is about and
  which entries were removed. The code has none of that.
* `inBounds_iff`: with pairs of threads that run at the same time the index stays in the buffer in every
  run exactly when there is at most one pair, and with any other mix of threads exactly when there are
  no two consumers or no producer (`inBounds_iff_roles`).
* `main` joins the threads of a pair, which never end, before it creates those of the next one. So its
  own runs stay in the buffer (`process_inBounds`).
-/

namespace Cs444.Producer

/-! ## The code -/

/-- `buff_item`, with the number of the entry. -/
structure BuffItem where
  item : ℕ
  wait : ℕ
  entry : ℕ
  deriving DecidableEq, Repr

/-- What a `Consumed` line prints, and the entries that the two values are of. -/
structure Line where
  item : ℕ
  wait : ℕ
  itemOf : ℕ
  waitOf : ℕ
  deriving DecidableEq, Repr

/-- `buffer_list`, with the number of entries produced so far, the `Consumed` lines and the entries
removed. -/
structure BufferList where
  items : ℤ → BuffItem
  locked : Bool
  lastItem : ℤ
  produced : ℕ
  lines : List Line
  removed : List ℕ

/-- `produce_item`, with the two values of `random_gen`. -/
def produceItem (entry : ℕ) (r : ℕ × ℕ) : BuffItem := ⟨r.2 % 50 + 1, r.1 % 8 + 2, entry⟩

/-- The places of `consumer`. Each use of `buffer.items[buffer.last_item]` outside the lock is two
steps: it reads the index, and then the entry. -/
inductive ConsumerPc
  | test
  | sleepIndex
  | sleepLine
  | waitIndex
  | sleep
  | itemIndex
  | itemRead
  | againIndex
  | waitRead
  | consumedLine
  | lock
  | clearItem
  | clearWait
  | decrement
  | signal
  | unlock
  deriving DecidableEq, Repr

/-- The places of `producer`. -/
inductive ProducerPc
  | sleep
  | lock
  | full
  | condWait
  | produce
  | increment
  | producedLine
  | unlock
  deriving DecidableEq, Repr

/-- A thread; a consumer has the index it read last and the line it is about to print. -/
inductive Thread
  | producer (pc : ProducerPc)
  | consumer (pc : ConsumerPc) (k : ℤ) (line : Line)
  deriving DecidableEq, Repr

def BufferList.setItem (b : BufferList) (k : ℤ) (e : BuffItem) : BufferList :=
  { b with items := Function.update b.items k e }

/-- `pthread_mutex_lock`. -/
def BufferList.acquire (b : BufferList) : Option BufferList :=
  if b.locked then none else some { b with locked := true }

/-- One step of `consumer`. -/
def consumer (pc : ConsumerPc) (k : ℤ) (line : Line) (b : BufferList) :
    Option (Thread × BufferList) :=
  match pc with
  | .test => some (.consumer (if b.lastItem > -1 then .sleepIndex else .test) k line, b)
  -- "Consumer sleeping"
  | .sleepIndex => some (.consumer .sleepLine b.lastItem line, b)
  | .sleepLine => some (.consumer .waitIndex k line, b)
  | .waitIndex => some (.consumer .sleep b.lastItem line, b)
  | .sleep => some (.consumer .itemIndex k line, b)
  -- "Consumed"
  | .itemIndex => some (.consumer .itemRead b.lastItem line, b)
  | .itemRead =>
    some (.consumer .againIndex k
      { line with item := (b.items k).item, itemOf := (b.items k).entry }, b)
  | .againIndex => some (.consumer .waitRead b.lastItem line, b)
  | .waitRead =>
    some (.consumer .consumedLine k
      { line with wait := (b.items k).wait, waitOf := (b.items k).entry }, b)
  | .consumedLine => some (.consumer .lock k line, { b with lines := b.lines ++ [line] })
  | .lock => b.acquire.map fun b => (.consumer .clearItem k line, b)
  | .clearItem =>
    some (.consumer .clearWait k line,
      b.setItem b.lastItem { b.items b.lastItem with item := 0 })
  | .clearWait =>
    some (.consumer .decrement k line,
      b.setItem b.lastItem { b.items b.lastItem with wait := 0 })
  | .decrement =>
    some (.consumer .signal k line,
      { b with lastItem := b.lastItem - 1, removed := b.removed ++ [(b.items b.lastItem).entry] })
  | .signal => some (.consumer .unlock k line, b)
  | .unlock => some (.consumer .test k line, { b with locked := false })

/-- One step of `producer`. -/
def producer (r : ℕ × ℕ) (pc : ProducerPc) (b : BufferList) : Option (Thread × BufferList) :=
  match pc with
  | .sleep => some (.producer .lock, b)
  | .lock => b.acquire.map fun b => (.producer .full, b)
  -- wait until buffer has available space
  | .full =>
    if b.lastItem = 31 then some (.producer .condWait, { b with locked := false })
    else some (.producer .produce, b)
  | .condWait => b.acquire.map fun b => (.producer .full, b)
  | .produce =>
    some (.producer .increment,
      { b.setItem (b.lastItem + 1) (produceItem b.produced r) with produced := b.produced + 1 })
  | .increment => some (.producer .producedLine, { b with lastItem := b.lastItem + 1 })
  | .producedLine => some (.producer .unlock, b)
  | .unlock => some (.producer .sleep, { b with locked := false })

/-- One step of a thread. -/
def thread {ι : Type*} : Prog ι (ℕ × ℕ) Thread BufferList := fun _ r t b =>
  match t with
  | .producer pc => producer r pc b
  | .consumer pc k line => consumer pc k line b

/-- Threads at the start of their functions, all running, and the buffer that `main` sets up. -/
def start {ι : Type*} (isConsumer : ι → Bool) : Conf ι Thread BufferList where
  loc i := if isConsumer i then .consumer .test 0 ⟨0, 0, 0, 0⟩ else .producer .sleep
  sh := ⟨fun _ => ⟨0, 0, 0⟩, false, -1, 0, [], []⟩

/-! ## Bounds -/

/-- The index at which the next step of the thread accesses `buffer.items`. -/
def Thread.index (b : BufferList) : Thread → Option ℤ
  | .consumer .sleepLine k _ | .consumer .sleep k _ | .consumer .itemRead k _
  | .consumer .waitRead k _ => some k
  | .consumer .clearItem _ _ | .consumer .clearWait _ _ => some b.lastItem
  | .producer .produce => some (b.lastItem + 1)
  | .producer .producedLine => some b.lastItem
  | _ => none

/-- `last_item` and all accesses are inside the buffer. -/
def InBounds {ι : Type*} (c : Conf ι Thread BufferList) : Prop :=
  -1 ≤ c.sh.lastItem ∧ c.sh.lastItem ≤ 31 ∧
    ∀ i, ∀ k ∈ (c.loc i).index c.sh, 0 ≤ k ∧ k ≤ 31

/-! ## One step -/

/-- Between the lock and the unlock. -/
def Thread.holds : Thread → Bool
  | .consumer pc _ _ =>
    match pc with
    | .clearItem | .clearWait | .decrement | .signal | .unlock => true
    | _ => false
  | .producer pc =>
    match pc with
    | .full | .produce | .increment | .producedLine | .unlock => true
    | _ => false

def Thread.isConsumer : Thread → Bool
  | .consumer .. => true
  | .producer _ => false

/-- What a thread relies on: a consumer past its test that there is an entry and that the index it
read is inside, a producer past its test that there is room. -/
def Thread.Ok (last : ℤ) : Thread → Prop
  | .consumer pc k _ =>
    match pc with
    | .test | .signal | .unlock => True
    | .sleepLine | .sleep | .itemRead | .waitRead => 0 ≤ last ∧ 0 ≤ k ∧ k ≤ 31
    | _ => 0 ≤ last
  | .producer pc =>
    match pc with
    | .produce | .increment => last ≤ 30
    | .producedLine => 0 ≤ last
    | _ => True

/-- The steps, with the tests that they passed. -/
inductive Step (r : ℕ × ℕ) (b : BufferList) : Thread → Thread → BufferList → Prop
  | empty {k : ℤ} {l : Line} (h : ¬ b.lastItem > -1) :
      Step r b (.consumer .test k l) (.consumer .test k l) b
  | found {k : ℤ} {l : Line} (h : b.lastItem > -1) :
      Step r b (.consumer .test k l) (.consumer .sleepIndex k l) b
  | sleepIndex {k : ℤ} {l : Line} :
      Step r b (.consumer .sleepIndex k l) (.consumer .sleepLine b.lastItem l) b
  | sleepLine {k : ℤ} {l : Line} : Step r b (.consumer .sleepLine k l) (.consumer .waitIndex k l) b
  | waitIndex {k : ℤ} {l : Line} :
      Step r b (.consumer .waitIndex k l) (.consumer .sleep b.lastItem l) b
  | sleep {k : ℤ} {l : Line} : Step r b (.consumer .sleep k l) (.consumer .itemIndex k l) b
  | itemIndex {k : ℤ} {l : Line} :
      Step r b (.consumer .itemIndex k l) (.consumer .itemRead b.lastItem l) b
  | itemRead {k : ℤ} {l : Line} :
      Step r b (.consumer .itemRead k l) (.consumer .againIndex k
        { l with item := (b.items k).item, itemOf := (b.items k).entry }) b
  | againIndex {k : ℤ} {l : Line} :
      Step r b (.consumer .againIndex k l) (.consumer .waitRead b.lastItem l) b
  | waitRead {k : ℤ} {l : Line} :
      Step r b (.consumer .waitRead k l) (.consumer .consumedLine k
        { l with wait := (b.items k).wait, waitOf := (b.items k).entry }) b
  | consumedLine {k : ℤ} {l : Line} :
      Step r b (.consumer .consumedLine k l) (.consumer .lock k l) { b with lines := b.lines ++ [l] }
  | lock {k : ℤ} {l : Line} (h : b.locked = false) :
      Step r b (.consumer .lock k l) (.consumer .clearItem k l) { b with locked := true }
  | clearItem {k : ℤ} {l : Line} :
      Step r b (.consumer .clearItem k l) (.consumer .clearWait k l)
        (b.setItem b.lastItem { b.items b.lastItem with item := 0 })
  | clearWait {k : ℤ} {l : Line} :
      Step r b (.consumer .clearWait k l) (.consumer .decrement k l)
        (b.setItem b.lastItem { b.items b.lastItem with wait := 0 })
  | decrement {k : ℤ} {l : Line} :
      Step r b (.consumer .decrement k l) (.consumer .signal k l)
        { b with
          lastItem := b.lastItem - 1
          removed := b.removed ++ [(b.items b.lastItem).entry] }
  | signal {k : ℤ} {l : Line} : Step r b (.consumer .signal k l) (.consumer .unlock k l) b
  | unlock {k : ℤ} {l : Line} :
      Step r b (.consumer .unlock k l) (.consumer .test k l) { b with locked := false }
  | prodSleep : Step r b (.producer .sleep) (.producer .lock) b
  | prodLock (h : b.locked = false) :
      Step r b (.producer .lock) (.producer .full) { b with locked := true }
  | full (h : b.lastItem = 31) :
      Step r b (.producer .full) (.producer .condWait) { b with locked := false }
  | room (h : b.lastItem ≠ 31) : Step r b (.producer .full) (.producer .produce) b
  | condWait (h : b.locked = false) :
      Step r b (.producer .condWait) (.producer .full) { b with locked := true }
  | produce :
      Step r b (.producer .produce) (.producer .increment)
        { b.setItem (b.lastItem + 1) (produceItem b.produced r) with produced := b.produced + 1 }
  | increment :
      Step r b (.producer .increment) (.producer .producedLine) { b with lastItem := b.lastItem + 1 }
  | producedLine : Step r b (.producer .producedLine) (.producer .unlock) b
  | prodUnlock : Step r b (.producer .unlock) (.producer .sleep) { b with locked := false }

section Step

variable {ι : Type*} {i : ι} {r : ℕ × ℕ} {t t' : Thread} {b b' : BufferList}

theorem BufferList.acquire_eq_some_iff :
    b.acquire = some b' ↔ b.locked = false ∧ { b with locked := true } = b' := by
  unfold BufferList.acquire
  split_ifs with h
  · simp [h]
  · simp [Bool.eq_false_of_not_eq_true h]

theorem consumer_step {pc : ConsumerPc} {k : ℤ} {line : Line}
    (h : consumer pc k line b = some (t', b')) : Step r b (.consumer pc k line) t' b' := by
  cases pc with
  | test =>
    cases h
    split_ifs with hlast
    · exact .found hlast
    · exact .empty hlast
  | lock =>
    obtain ⟨b₁, hacquire, h⟩ := Option.map_eq_some_iff.mp h
    obtain ⟨hfree, rfl⟩ := BufferList.acquire_eq_some_iff.mp hacquire
    cases h
    exact .lock hfree
  | _ =>
    cases h
    constructor

theorem producer_step {pc : ProducerPc} (h : producer r pc b = some (t', b')) :
    Step r b (.producer pc) t' b' := by
  cases pc with
  | full =>
    simp only [producer] at h
    split_ifs at h with hlast
    · cases h
      exact .full hlast
    · cases h
      exact .room hlast
  | lock =>
    obtain ⟨b₁, hacquire, h⟩ := Option.map_eq_some_iff.mp h
    obtain ⟨hfree, rfl⟩ := BufferList.acquire_eq_some_iff.mp hacquire
    cases h
    exact .prodLock hfree
  | condWait =>
    obtain ⟨b₁, hacquire, h⟩ := Option.map_eq_some_iff.mp h
    obtain ⟨hfree, rfl⟩ := BufferList.acquire_eq_some_iff.mp hacquire
    cases h
    exact .condWait hfree
  | _ =>
    cases h
    constructor

theorem thread_step (h : thread i r t b = some (t', b')) : Step r b t t' b' := by
  cases t with
  | producer pc => exact producer_step h
  | consumer pc k line => exact consumer_step h

/-- A step takes or leaves the lock as it enters or leaves the locked code. -/
theorem Step.locked (h : Step r b t t' b') (hl : t.holds = true → b.locked = true) :
    b'.locked.toNat + t.holds.toNat = b.locked.toNat + t'.holds.toNat := by
  cases h with
  | lock h | prodLock h | condWait h => simp [Thread.holds, h]
  | unlock | full | prodUnlock => simp [Thread.holds, hl rfl]
  | _ => rfl

theorem Step.isConsumer (h : Step r b t t' b') : t'.isConsumer = t.isConsumer := by
  cases h <;> rfl

/-- A step of a thread keeps what it relies on, and the bounds. -/
theorem Step.ok (h : Step r b t t' b') (hlo : -1 ≤ b.lastItem) (hhi : b.lastItem ≤ 31)
    (hok : t.Ok b.lastItem) : t'.Ok b'.lastItem ∧ -1 ≤ b'.lastItem ∧ b'.lastItem ≤ 31 := by
  cases h <;> simp only [Thread.Ok, BufferList.setItem, true_and] at hok ⊢ <;> omega

/-- Only two steps change `last_item`. -/
theorem Step.lastItem (h : Step r b t t' b') :
    b'.lastItem = b.lastItem ∨
      (t = .producer .increment ∧ b'.lastItem = b.lastItem + 1) ∨
      (t.isConsumer = true ∧ t.holds = true ∧ b'.lastItem = b.lastItem - 1) := by
  cases h with
  | increment => exact .inr (.inl ⟨rfl, rfl⟩)
  | decrement => exact .inr (.inr ⟨rfl, rfl, rfl⟩)
  | _ => exact .inl rfl

/-- One more entry does not disturb a thread outside the lock. -/
theorem Thread.Ok.succ {last : ℤ} (hok : t.Ok last) (hl : t.holds = false) : t.Ok (last + 1) := by
  cases t with
  | consumer pc k line => cases pc <;> simp only [Thread.Ok] at hok ⊢ <;> omega
  | producer pc => cases pc <;> simp_all [Thread.Ok, Thread.holds]

/-- A producer outside the lock relies on nothing. -/
theorem Thread.ok_of_not_holds {last : ℤ} (hc : t.isConsumer = false) (hl : t.holds = false) :
    t.Ok last := by
  cases t with
  | consumer pc k line => cases hc
  | producer pc => cases pc <;> simp_all [Thread.Ok, Thread.holds]

theorem Thread.Ok.index {k : ℤ} (hok : t.Ok b.lastItem) (hlo : -1 ≤ b.lastItem)
    (hhi : b.lastItem ≤ 31) (hk : k ∈ t.index b) : 0 ≤ k ∧ k ≤ 31 := by
  cases t with
  | consumer pc k line => cases pc <;> simp [Thread.index, Thread.Ok] at hk hok <;> omega
  | producer pc => cases pc <;> simp [Thread.index, Thread.Ok] at hk hok <;> omega

end Step

/-! ## All runs -/

section Runs

variable {ι : Type*} {isConsumer : ι → Bool} {c : Conf ι Thread BufferList}

section

variable [Fintype ι]

/-- The lock is taken by the thread in the locked code, and every thread has what it relies on. -/
structure Inv (isConsumer : ι → Bool) (c : Conf ι Thread BufferList) : Prop where
  role : ∀ i, (c.loc i).isConsumer = isConsumer i
  locked : c.sh.locked.toNat = count (fun _ => Thread.holds) c.loc
  lower : -1 ≤ c.sh.lastItem
  upper : c.sh.lastItem ≤ 31
  ok : ∀ i, (c.loc i).Ok c.sh.lastItem

theorem inv_start (isConsumer : ι → Bool) : Inv isConsumer (start isConsumer) := by
  refine ⟨?_, ?_, le_rfl, show (-1 : ℤ) ≤ 31 by decide, ?_⟩
  · intro i
    cases h : isConsumer i <;> simp [start, h, Thread.isConsumer]
  · rw [count_eq_zero_iff.mpr fun i => ?_]
    · rfl
    · cases h : isConsumer i <;> simp [start, h, Thread.holds]
  · intro i
    cases h : isConsumer i <;> simp [start, h, Thread.Ok]

theorem Inv.count_le_one (hI : Inv isConsumer c) : count (fun _ => Thread.holds) c.loc ≤ 1 := by
  rw [← hI.locked]
  exact Bool.toNat_le _

/-- A thread in the locked code has the lock. -/
theorem Inv.locked_of_holds (hI : Inv isConsumer c) {i : ι} (hi : (c.loc i).holds = true) :
    c.sh.locked = true :=
  eq_true_of_toNat_eq_count hI.locked hi

theorem Inv.not_holds (hI : Inv isConsumer c) {i j : ι} (hi : (c.loc i).holds = true) (hj : j ≠ i) :
    (c.loc j).holds = false :=
  eq_false_of_count_le_one hI.count_le_one hi hj

theorem Inv.inBounds (hI : Inv isConsumer c) : InBounds c :=
  ⟨hI.lower, hI.upper, fun i _ hk => (hI.ok i).index hI.lower hI.upper hk⟩

end

/-- With at most one consumer, every step keeps the invariant. -/
theorem Inv.step [Fintype ι] [DecidableEq ι]
    (hone : ∀ i j, isConsumer i = true → isConsumer j = true → i = j)
    (hI : Inv isConsumer c) {i : ι} {r : ℕ × ℕ} {t : Thread} {b : BufferList}
    (h : Step r c.sh (c.loc i) t b) : Inv isConsumer ⟨Function.update c.loc i t, b⟩ := by
  obtain ⟨hok, hlo, hhi⟩ := h.ok hI.lower hI.upper (hI.ok i)
  have hrole : t.isConsumer = isConsumer i := h.isConsumer.trans (hI.role i)
  have hlocked : b.locked.toNat = count (fun _ => Thread.holds) (Function.update c.loc i t) := by
    have hcount := count_update (fun _ => Thread.holds) c.loc i t
    have hlock := h.locked hI.locked_of_holds
    have hold := hI.locked
    omega
  refine ⟨?_, hlocked, hlo, hhi, ?_⟩
  · exact (Function.forall_update_iff c.loc fun j t => t.isConsumer = isConsumer j).mpr
      ⟨hrole, fun j _ => hI.role j⟩
  · refine (Function.forall_update_iff c.loc fun _ t => t.Ok b.lastItem).mpr ⟨hok, fun j hj => ?_⟩
    rcases h.lastItem with hlast | ⟨hi, hlast⟩ | ⟨hi, hholds, hlast⟩
    · rw [hlast]
      exact hI.ok j
    · rw [hlast]
      exact (hI.ok j).succ (hI.not_holds (by rw [hi]; rfl) hj)
    · -- the consumer that removes an entry is the only one
      refine Thread.ok_of_not_holds ?_ (hI.not_holds hholds hj)
      rw [hI.role] at hi ⊢
      by_contra hc
      exact hj (hone j i (by simpa using hc) hi)

theorem inv_of_reach [Fintype ι] [DecidableEq ι]
    (hone : ∀ i j, isConsumer i = true → isConsumer j = true → i = j)
    (h : Reach thread (· = start isConsumer) anyMove c) : Inv isConsumer c :=
  h.invariant (fun _ h => h ▸ inv_start isConsumer)
    fun _ _ _ _ _ hI _ hp => hI.step hone (thread_step hp)

/-- Without a producer nobody gets past the test. -/
theorem idle_of_reach [DecidableEq ι] (hall : ∀ i, isConsumer i = true)
    (h : Reach thread (· = start isConsumer) anyMove c) :
    c.sh.lastItem = -1 ∧ ∀ i, ∃ k line, c.loc i = .consumer .test k line := by
  refine h.invariant (I := fun c => c.sh.lastItem = -1 ∧ ∀ i, ∃ k line, c.loc i = .consumer .test k line)
    ?_ ?_
  · rintro _ rfl
    exact ⟨rfl, fun i => ⟨0, ⟨0, 0, 0, 0⟩, by simp [start, hall i]⟩⟩
  · rintro c i r t b ⟨hlast, hloc⟩ _ hp
    obtain ⟨k, line, hi⟩ := hloc i
    rw [hi] at hp
    cases thread_step hp with
    | found h => omega
    | empty _ =>
      refine ⟨hlast, (Function.forall_update_iff c.loc fun _ t => ∃ k line, t = .consumer .test k line).mpr
        ⟨⟨k, line, rfl⟩, fun j _ => hloc j⟩⟩

end Runs

/-! ## The loop of `main` -/

/-- The places of `main` in its loop over the pairs of threads, and behind it. -/
inductive MainPc
  | test (i : ℕ)
  | createConsumer (i : ℕ)
  | createProducer (i : ℕ)
  | joinProducer (i : ℕ)
  | joinConsumer (i : ℕ)
  | cleanUp
  deriving DecidableEq, Repr

/-- The buffer, and which threads were created and have ended. Of the pair `i`, the thread `(i, true)`
runs `consumer` and `(i, false)` runs `producer`. -/
structure Process where
  buffer : BufferList
  created : ℕ × Bool → Bool
  ended : ℕ × Bool → Bool

/-- `pthread_create`. -/
def Process.create (s : Process) (j : ℕ × Bool) : Process :=
  { s with created := Function.update s.created j true }

/-- One step of `main`. `pthread_join` waits until its thread has ended. -/
def main (numThreads : ℤ) (pc : MainPc) (s : Process) : Option (MainPc × Process) :=
  match pc with
  | .test i => some (if i < numThreads then .createConsumer i else .cleanUp, s)
  -- `producers[i]` is the thread that runs `consumer`, `consumers[i]` the one that runs `producer`
  | .createConsumer i => some (.createProducer i, s.create (i, true))
  | .createProducer i => some (.joinProducer i, s.create (i, false))
  | .joinProducer i => if s.ended (i, false) then some (.joinConsumer i, s) else none
  | .joinConsumer i => if s.ended (i, true) then some (.test (i + 1), s) else none
  | .cleanUp => none

/-- One step of `main`, or of a thread that was created. The loop of a thread is `while (1)`, so that no
step ends a thread. -/
def process (numThreads : ℤ) : Prog (Option (ℕ × Bool)) (ℕ × ℕ) (MainPc ⊕ Thread) Process :=
  fun a r l s =>
    match a, l with
    | none, .inl pc => (main numThreads pc s).map fun q => (.inl q.1, q.2)
    | some j, .inr t =>
      if s.created j then (thread j r t s.buffer).map fun q => (.inr q.1, { s with buffer := q.2 })
      else none
    | _, _ => none

/-- `main` before its loop. -/
def boot : Conf (Option (ℕ × Bool)) (MainPc ⊕ Thread) Process where
  loc a :=
    match a with
    | none => .inl (.test 0)
    | some j => .inr ((start Prod.snd).loc j)
  sh := ⟨(start (Prod.snd : ℕ × Bool → Bool)).sh, fun _ => false, fun _ => false⟩

/-- `last_item` and all accesses of the threads are inside the buffer. -/
def Process.InBounds (c : Conf (Option (ℕ × Bool)) (MainPc ⊕ Thread) Process) : Prop :=
  -1 ≤ c.sh.buffer.lastItem ∧ c.sh.buffer.lastItem ≤ 31 ∧
    ∀ j t, c.loc (some j) = .inr t → ∀ k ∈ t.index c.sh.buffer, 0 ≤ k ∧ k ≤ 31

section Main

variable {numThreads : ℤ} {m : Conf (Option (ℕ × Bool)) (MainPc ⊕ Thread) Process}
  {a : Conf Bool Thread BufferList}

/-- Only the first pair was created, and it runs as in `a`. -/
structure FirstPair (m : Conf (Option (ℕ × Bool)) (MainPc ⊕ Thread) Process)
    (a : Conf Bool Thread BufferList) : Prop where
  main : ∃ pc, m.loc none = .inl pc ∧
    (pc = .test 0 ∨ pc = .createConsumer 0 ∨ pc = .createProducer 0 ∨ pc = .joinProducer 0 ∨
      pc = .cleanUp)
  pair : ∀ b, m.loc (some (0, b)) = .inr (a.loc b)
  others : ∀ i b, i ≠ 0 → m.loc (some (i, b)) = .inr ((start Prod.snd).loc (i, b))
  created : ∀ i b, m.sh.created (i, b) = true → i = 0
  ended : ∀ j, m.sh.ended j = false
  buffer : m.sh.buffer = a.sh

theorem firstPair_boot : FirstPair boot (start id) :=
  ⟨⟨_, rfl, .inl rfl⟩, fun _ => rfl, fun _ _ _ => rfl, fun _ _ h => absurd h Bool.false_ne_true,
    fun _ => rfl, rfl⟩

/-- `main` creates the threads of the first pair and waits for the first of them. -/
theorem FirstPair.step_main (h : FirstPair m a) {pc pc' : MainPc} {s : Process}
    (hpc : m.loc none = .inl pc) (hs : Producer.main numThreads pc m.sh = some (pc', s)) :
    FirstPair ⟨Function.update m.loc none (.inl pc'), s⟩ a := by
  obtain ⟨pc₀, hpc₀, hplace⟩ := h.main
  obtain rfl : pc = pc₀ := Sum.inl.inj (hpc.symm.trans hpc₀)
  have hcreate : ∀ b₀ i b, (m.sh.create (0, b₀)).created (i, b) = true → i = 0 := by
    intro b₀ i b hc
    by_contra hi
    refine hi (h.created i b ?_)
    simpa [Process.create, hi] using hc
  rcases hplace with rfl | rfl | rfl | rfl | rfl
  · cases hs
    refine ⟨?_, h.pair, h.others, h.created, h.ended, h.buffer⟩
    split_ifs
    · exact ⟨.createConsumer 0, by simp, by simp⟩
    · exact ⟨.cleanUp, by simp, by simp⟩
  · cases hs
    exact ⟨⟨.createProducer 0, by simp, by simp⟩, h.pair, h.others, hcreate true, h.ended, h.buffer⟩
  · cases hs
    exact ⟨⟨.joinProducer 0, by simp, by simp⟩, h.pair, h.others, hcreate false, h.ended, h.buffer⟩
  · -- the producer never ends
    rw [Producer.main, h.ended, if_neg Bool.false_ne_true] at hs
    cases hs
  · cases hs

/-- A step of a thread is a step of the first pair. -/
theorem FirstPair.step_thread (h : FirstPair m a) {j : ℕ × Bool} {r : ℕ × ℕ} {t t' : Thread}
    {b' : BufferList} (hj : m.loc (some j) = .inr t) (hcreated : m.sh.created j = true)
    (ht : thread j r t m.sh.buffer = some (t', b')) :
    ∃ a', a.moves thread [(j.2, r)] = some a' ∧
      FirstPair ⟨Function.update m.loc (some j) (.inr t'), { m.sh with buffer := b' }⟩ a' := by
  obtain ⟨i, b⟩ := j
  obtain rfl := h.created i b hcreated
  obtain rfl : t = a.loc b := Sum.inr.inj (hj.symm.trans (h.pair b))
  rw [h.buffer] at ht
  refine ⟨⟨Function.update a.loc b t', b'⟩, Conf.moves_cons ht [], ?_⟩
  refine ⟨h.main, fun b₁ => ?_, fun i b₁ hi => ?_, h.created, h.ended, rfl⟩
  · by_cases hb : b₁ = b
    · subst hb
      simp
    · simp [hb, h.pair]
  · simp [hi, h.others]

theorem firstPair_simulation (numThreads : ℤ) :
    Simulation (process numThreads) (· = boot) anyMove thread (· = start id) FirstPair := by
  refine ⟨?_, ?_⟩
  · rintro _ rfl
    exact ⟨_, rfl, firstPair_boot⟩
  · intro m a j r m' h _ hm
    obtain ⟨l, s, hp, rfl⟩ := Conf.move_eq_some_iff.mp hm
    cases j with
    | none =>
      obtain ⟨pc, hpc, -⟩ := h.main
      rw [hpc] at hp
      obtain ⟨⟨pc', s'⟩, hs, heq⟩ := Option.map_eq_some_iff.mp hp
      cases heq
      exact ⟨[], a, rfl, h.step_main hpc hs⟩
    | some j =>
      cases hl : m.loc (some j) with
      | inl pc =>
        rw [hl] at hp
        cases hp
      | inr t =>
        rw [hl] at hp
        simp only [process] at hp
        split_ifs at hp with hcreated
        obtain ⟨⟨t', b'⟩, ht, heq⟩ := Option.map_eq_some_iff.mp hp
        cases heq
        obtain ⟨a', ha', h'⟩ := h.step_thread hl hcreated ht
        exact ⟨_, a', ha', h'⟩

/-- **The index stays in the buffer** in every run of the program: `main` never gets past the first
pair. -/
theorem process_inBounds (h : Reach (process numThreads) (· = boot) anyMove m) : Process.InBounds m := by
  obtain ⟨a, ha, hpair⟩ := (firstPair_simulation numThreads).reach h
  have hone : ∀ i j : Bool, id i = true → id j = true → i = j := by
    intro i j hi hj
    exact hi.trans hj.symm
  obtain ⟨hlo, hhi, hindex⟩ := (inv_of_reach hone ha).inBounds
  rw [← hpair.buffer] at hlo hhi hindex
  refine ⟨hlo, hhi, ?_⟩
  rintro ⟨i, b⟩ t ht k hk
  by_cases hi : i = 0
  · subst hi
    obtain rfl : t = a.loc b := Sum.inr.inj (ht.symm.trans (hpair.pair b))
    exact hindex b k hk
  · obtain rfl := Sum.inr.inj (ht.symm.trans (hpair.others i b hi))
    cases b <;> cases hk

end Main

/-! ## Two consumers -/

/-- The producer `p` puts one entry; the consumers `i` and `j` both find it; both remove it. -/
def twoRemovals {ι : Type*} (p i j : ι) : List (ι × ℕ × ℕ) :=
  List.replicate 7 (p, 0, 0) ++ [(i, 0, 0), (j, 0, 0)] ++ List.replicate 15 (i, 0, 0) ++
    List.replicate 13 (j, 0, 0)

theorem twoRemovals_lastItem :
    ∃ c, Reach thread (· = start ![false, true, true]) anyMove c ∧ c.sh.lastItem = -2 := by
  obtain ⟨c, hc, hP⟩ := @exists_reach _ _ _ _ _ thread (· = start ![false, true, true]) anyMove _ _ rfl
    (twoRemovals 0 1 2) (fun c => c.sh.lastItem = -2) (by decide +kernel)
  exact ⟨c, hc, by simpa using hP⟩

variable {ι : Type*} [DecidableEq ι] {isConsumer : ι → Bool}

/-- Two consumers and a producer can do so beside all other threads. -/
theorem exists_not_inBounds {p i j : ι} (hp : isConsumer p = false) (hi : isConsumer i = true)
    (hj : isConsumer j = true) (hij : i ≠ j) :
    ∃ c, Reach thread (· = start isConsumer) anyMove c ∧ ¬ InBounds c := by
  have hpi : p ≠ i := by
    rintro rfl
    simp [hp] at hi
  have hpj : p ≠ j := by
    rintro rfl
    simp [hp] at hj
  have hinj : Function.Injective ![p, i, j] := by
    intro a b hab
    fin_cases a <;> fin_cases b <;> simp_all
  obtain ⟨c, hc, hlast⟩ := twoRemovals_lastItem
  obtain ⟨d, hd, -, hsh⟩ := @Reach.embed _ _ _ _ _ thread _ _ _ thread _ hinj (fun _ _ => rfl) _
    (start isConsumer) (fun k => by fin_cases k <;> simp [start, hp, hi, hj]) rfl hc
  refine ⟨d, hd, fun hb => ?_⟩
  have hlower := hb.1
  rw [hsh, hlast] at hlower
  omega

/-- The index stays in the buffer in every run exactly when there are no two consumers, or no
producer. -/
theorem inBounds_iff_roles [Fintype ι] (isConsumer : ι → Bool) :
    (∀ c, Reach thread (· = start isConsumer) anyMove c → InBounds c) ↔
      (∀ i j, isConsumer i = true → isConsumer j = true → i = j) ∨ ∀ i, isConsumer i = true := by
  constructor
  · intro h
    by_contra hno
    push Not at hno
    obtain ⟨⟨i, j, hi, hj, hij⟩, p, hp⟩ := hno
    obtain ⟨c, hc, hb⟩ := exists_not_inBounds (by simpa using hp) hi hj hij
    exact hb (h c hc)
  · rintro (hone | hall) c hc
    · exact (inv_of_reach hone hc).inBounds
    · obtain ⟨hlast, hloc⟩ := idle_of_reach hall hc
      refine ⟨by omega, by omega, fun i k hk => ?_⟩
      obtain ⟨k', line, hi⟩ := hloc i
      rw [hi] at hk
      cases hk

/-- **The index stays in the buffer** in every run of `n` pairs of threads that run at the same time
exactly when there is at most one pair. In every run of `main` it does, as no two pairs run at the same
time. -/
theorem inBounds_iff (n : ℕ) :
    ((∀ c : Conf (Fin n × Bool) Thread BufferList,
      Reach thread (· = start Prod.snd) anyMove c → InBounds c) ↔ n ≤ 1) ∧
    ∀ numThreads m, Reach (process numThreads) (· = boot) anyMove m → Process.InBounds m := by
  refine ⟨?_, fun _ _ => process_inBounds⟩
  rw [inBounds_iff_roles]
  constructor
  · rintro (hone | hall)
    · by_contra hn
      have hpair := hone (⟨0, by omega⟩, true) (⟨1, by omega⟩, true) rfl rfl
      simp at hpair
    · by_contra hn
      exact absurd (hall (⟨0, by omega⟩, false)) (by simp)
  · intro hn
    refine .inl ?_
    rintro ⟨i, a⟩ ⟨j, b⟩ ha hb
    have hij : i = j := by
      apply Fin.ext
      omega
    cases ha
    cases hb
    rw [hij]

/-- Two pairs of threads that run at the same time. -/
theorem two_pairs_not_inBounds : ∃ c : Conf (Fin 2 × Bool) Thread BufferList,
    Reach thread (· = start Prod.snd) anyMove c ∧ ¬ InBounds c :=
  exists_not_inBounds (p := (0, false)) (i := (0, true)) (j := (1, true)) rfl rfl rfl (by decide)

end Cs444.Producer
