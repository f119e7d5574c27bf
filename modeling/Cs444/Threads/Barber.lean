import Cs444.Lib.Threads

/-!
# The barber shop of `concurrency4.c`

One barber and any number of customers. `current` counts the customers in the shop. The barber tests it
before he goes to sleep, and takes a customer off it before he signals one; he does both without the
mutexes of the customers, and no wait is in a loop.

* `current++` and `current--` are a read and a write. `pthread_cond_wait` gives its mutex back and
  enters the queue of the condition in one step; `pthread_cond_signal` takes one thread out of the queue
  if there is one; a wait may also end by itself, as POSIX allows.
* A customer that finds all chairs taken, and then, at the second test, a free one, returns without
  unlocking `queue_mutex`, and later waits for the mutex that it holds (`Pc.stranded`).
* `Undisturbed` names the moments at which wake-ups are lost. `no_lost_wakeup`: without them a barber
  sleeps only in an empty shop, and `current` counts the customers that wait.
-/

namespace Cs444.Barber

/-! ## The code -/

/-- The places of `barber_shop`, and of `waitingRoom` and `checkQueue`. -/
inductive Pc
  -- barber_shop
  | test
  | sleepLock
  | setSleeping
  | sleepWait
  | asleep
  | clearSleeping
  | sleepUnlock
  | cut
  | decRead
  | decWrite
  | signal
  -- waitingRoom and checkQueue
  | lockQueue
  | incRead
  | incWrite
  | ifSeat
  | ifSleeping
  | wakeBarber
  | unlockQueue
  | lockWait
  | activeWait
  | waiting
  | unlockWait
  | away
  | ifFull
  | leaveRead
  | leaveWrite
  | leaveUnlock
  | stranded
  deriving DecidableEq, Repr

/-- A thread, with the value of `current` that it read. -/
structure Thread where
  pc : Pc
  seen : ℤ
  deriving DecidableEq, Repr

/-- The globals: `current`, `sleeping`, the mutexes, and who is in the queues of `barberSleep_cond` and
`barber_active_cond` with no wake-up delivered. -/
structure Shop (κ : Type*) where
  current : ℤ
  sleeping : Bool
  queueMutex : Bool
  waitMutex : Bool
  sleepMutex : Bool
  barberWaits : Bool
  waits : κ → Bool

def seats : ℤ := 4

variable {κ : Type*}

/-- One step of `barber_shop`; a signal wakes the customer `x` out of those that wait. -/
def barberShop [Fintype κ] [DecidableEq κ] (x : Option κ) (t : Thread) (s : Shop κ) :
    Option (Thread × Shop κ) :=
  match t.pc with
  | .test => some ({ t with pc := if s.current = 0 then .sleepLock else .cut }, s)
  | .sleepLock =>
    if s.sleepMutex then none
    else some ({ t with pc := .setSleeping }, { s with sleepMutex := true })
  | .setSleeping => some ({ t with pc := .sleepWait }, { s with sleeping := true })
  | .sleepWait => some ({ t with pc := .asleep }, { s with sleepMutex := false, barberWaits := true })
  | .asleep =>
    -- a wake-up without a signal, or the end of the wait
    if s.barberWaits then some (t, { s with barberWaits := false })
    else if s.sleepMutex then none
    else some ({ t with pc := .clearSleeping }, { s with sleepMutex := true })
  | .clearSleeping => some ({ t with pc := .sleepUnlock }, { s with sleeping := false })
  | .sleepUnlock => some ({ t with pc := .test }, { s with sleepMutex := false })
  | .cut => some ({ t with pc := .decRead }, s)
  | .decRead => some ({ pc := .decWrite, seen := s.current }, s)
  | .decWrite => some ({ t with pc := .signal }, { s with current := t.seen - 1 })
  | .signal =>
    match x with
    | some j =>
      if s.waits j then
        some ({ t with pc := .test }, { s with waits := Function.update s.waits j false })
      else none
    | none => if ∀ j, s.waits j = false then some ({ t with pc := .test }, s) else none
  | _ => none

/-- One step of the customer `j` in `waitingRoom` and `checkQueue`. -/
def waitingRoom [DecidableEq κ] (j : κ) (t : Thread) (s : Shop κ) : Option (Thread × Shop κ) :=
  match t.pc with
  | .lockQueue =>
    if s.queueMutex then none else some ({ t with pc := .incRead }, { s with queueMutex := true })
  | .incRead => some ({ pc := .incWrite, seen := s.current }, s)
  | .incWrite => some ({ t with pc := .ifSeat }, { s with current := t.seen + 1 })
  | .ifSeat => some ({ t with pc := if s.current < seats then .ifSleeping else .ifFull }, s)
  | .ifSleeping => some ({ t with pc := if s.sleeping then .wakeBarber else .unlockQueue }, s)
  | .wakeBarber => some ({ t with pc := .unlockQueue }, { s with barberWaits := false })
  | .unlockQueue => some ({ t with pc := .lockWait }, { s with queueMutex := false })
  | .lockWait =>
    if s.waitMutex then none else some ({ t with pc := .activeWait }, { s with waitMutex := true })
  | .activeWait =>
    some ({ t with pc := .waiting },
      { s with waitMutex := false, waits := Function.update s.waits j true })
  | .waiting =>
    -- a wake-up without a signal, or the end of the wait
    if s.waits j then some (t, { s with waits := Function.update s.waits j false })
    else if s.waitMutex then none
    else some ({ t with pc := .unlockWait }, { s with waitMutex := true })
  | .unlockWait => some ({ t with pc := .away }, { s with waitMutex := false })
  | .away => some ({ t with pc := .lockQueue }, s)
  | .ifFull => some ({ t with pc := if s.current ≥ seats then .leaveRead else .stranded }, s)
  | .leaveRead => some ({ pc := .leaveWrite, seen := s.current }, s)
  | .leaveWrite => some ({ t with pc := .leaveUnlock }, { s with current := t.seen - 1 })
  | .leaveUnlock => some ({ t with pc := .away }, { s with queueMutex := false })
  | _ => none

/-- The barber (`none`) and the customers. -/
def thread [Fintype κ] [DecidableEq κ] : Prog (Option κ) (Option κ) Thread (Shop κ) := fun i x t s =>
  match i with
  | none => barberShop x t s
  | some j => waitingRoom j t s

/-- The globals as they are declared. -/
def start (κ : Type*) : Conf (Option κ) Thread (Shop κ) where
  loc i := ⟨if i.isNone then .test else .lockQueue, 0⟩
  sh := ⟨0, false, false, false, false, false, fun _ => false⟩

/-! ## What the shop should keep to -/

/-- Between `current++` and the end of the test of `sleeping`. -/
def Thread.checking (t : Thread) : Bool :=
  match t.pc with
  | .ifSeat | .ifSleeping | .wakeBarber => true
  | _ => false

/-- Counted in `current`, and not in a wait. -/
def Thread.counted (t : Thread) : Bool :=
  match t.pc with
  | .ifSeat | .ifSleeping | .wakeBarber | .unlockQueue | .lockWait | .activeWait | .ifFull | .leaveRead
  | .leaveWrite | .stranded => true
  | _ => false

/-- The barber sleeps only in an empty shop, up to a customer that is about to wake him; and no more
customers wait than `current` says. -/
structure Awake [Fintype κ] (c : Conf (Option κ) Thread (Shop κ)) : Prop where
  barber : c.sh.barberWaits = true → (∀ i, (c.loc i).checking = false) → c.sh.current = 0
  customers : (count (fun _ w => w) c.sh.waits : ℤ) ≤ c.sh.current

/-- The step loses no wake-up. -/
structure Undisturbed (c : Conf (Option κ) Thread (Shop κ)) (i : Option κ) (_ : Option κ) : Prop where
  /-- `current` still is what the `++` or `--` read. -/
  write : (c.loc i).pc = .incWrite ∨ (c.loc i).pc = .leaveWrite ∨ (c.loc i).pc = .decWrite →
    c.sh.current = (c.loc i).seen
  /-- No customer comes between the barber's test and his sleep. -/
  arrive : (c.loc i).pc = .incWrite → (c.loc none).pc ≠ .sleepLock ∧
    (c.loc none).pc ≠ .setSleeping ∧ (c.loc none).pc ≠ .sleepWait
  /-- From the barber's `current--` to his signal, a customer in the shop does not wait yet. -/
  covered : (c.loc i).pc = .decWrite ∨
      (c.loc none).pc = .signal ∧ ((c.loc i).pc = .activeWait ∨ (c.loc i).pc = .leaveWrite) →
    ∃ j ≠ i, (c.loc j).counted = true
  /-- The barber's signal finds a customer that waits. -/
  found : (c.loc i).pc = .signal → ∃ j, c.sh.waits j = true

/-! ## The barber's steps -/

/-- The steps of the barber that lose no wake-up. -/
inductive BarberStep [DecidableEq κ] (s : Shop κ) : Thread → Thread → Shop κ → Prop
  | empty {v : ℤ} (h : s.current = 0) : BarberStep s ⟨.test, v⟩ ⟨.sleepLock, v⟩ s
  | busy {v : ℤ} (h : s.current ≠ 0) : BarberStep s ⟨.test, v⟩ ⟨.cut, v⟩ s
  | sleepLock {v : ℤ} : BarberStep s ⟨.sleepLock, v⟩ ⟨.setSleeping, v⟩ { s with sleepMutex := true }
  | setSleeping {v : ℤ} : BarberStep s ⟨.setSleeping, v⟩ ⟨.sleepWait, v⟩ { s with sleeping := true }
  | sleepWait {v : ℤ} :
      BarberStep s ⟨.sleepWait, v⟩ ⟨.asleep, v⟩ { s with sleepMutex := false, barberWaits := true }
  | spurious {v : ℤ} : BarberStep s ⟨.asleep, v⟩ ⟨.asleep, v⟩ { s with barberWaits := false }
  | wake {v : ℤ} (h : s.barberWaits = false) :
      BarberStep s ⟨.asleep, v⟩ ⟨.clearSleeping, v⟩ { s with sleepMutex := true }
  | clearSleeping {v : ℤ} :
      BarberStep s ⟨.clearSleeping, v⟩ ⟨.sleepUnlock, v⟩ { s with sleeping := false }
  | sleepUnlock {v : ℤ} : BarberStep s ⟨.sleepUnlock, v⟩ ⟨.test, v⟩ { s with sleepMutex := false }
  | cut {v : ℤ} : BarberStep s ⟨.cut, v⟩ ⟨.decRead, v⟩ s
  | decRead {v : ℤ} : BarberStep s ⟨.decRead, v⟩ ⟨.decWrite, s.current⟩ s
  | decWrite {v : ℤ} (h : s.current = v) :
      BarberStep s ⟨.decWrite, v⟩ ⟨.signal, v⟩ { s with current := v - 1 }
  | signal {v : ℤ} {j : κ} (h : s.waits j = true) :
      BarberStep s ⟨.signal, v⟩ ⟨.test, v⟩ { s with waits := Function.update s.waits j false }

/-- The steps of the customer `j` that lose no wake-up. -/
inductive CustomerStep [DecidableEq κ] (j : κ) (s : Shop κ) : Thread → Thread → Shop κ → Prop
  | lockQueue {v : ℤ} (h : s.queueMutex = false) :
      CustomerStep j s ⟨.lockQueue, v⟩ ⟨.incRead, v⟩ { s with queueMutex := true }
  | incRead {v : ℤ} : CustomerStep j s ⟨.incRead, v⟩ ⟨.incWrite, s.current⟩ s
  | incWrite {v : ℤ} (h : s.current = v) :
      CustomerStep j s ⟨.incWrite, v⟩ ⟨.ifSeat, v⟩ { s with current := v + 1 }
  | seat {v : ℤ} : CustomerStep j s ⟨.ifSeat, v⟩ ⟨.ifSleeping, v⟩ s
  | noSeat {v : ℤ} (h : ¬ s.current < seats) : CustomerStep j s ⟨.ifSeat, v⟩ ⟨.ifFull, v⟩ s
  | sleeping {v : ℤ} : CustomerStep j s ⟨.ifSleeping, v⟩ ⟨.wakeBarber, v⟩ s
  | notSleeping {v : ℤ} (h : ¬ s.sleeping = true) :
      CustomerStep j s ⟨.ifSleeping, v⟩ ⟨.unlockQueue, v⟩ s
  | wakeBarber {v : ℤ} :
      CustomerStep j s ⟨.wakeBarber, v⟩ ⟨.unlockQueue, v⟩ { s with barberWaits := false }
  | unlockQueue {v : ℤ} :
      CustomerStep j s ⟨.unlockQueue, v⟩ ⟨.lockWait, v⟩ { s with queueMutex := false }
  | lockWait {v : ℤ} :
      CustomerStep j s ⟨.lockWait, v⟩ ⟨.activeWait, v⟩ { s with waitMutex := true }
  | activeWait {v : ℤ} :
      CustomerStep j s ⟨.activeWait, v⟩ ⟨.waiting, v⟩
        { s with waitMutex := false, waits := Function.update s.waits j true }
  | spurious {v : ℤ} :
      CustomerStep j s ⟨.waiting, v⟩ ⟨.waiting, v⟩
        { s with waits := Function.update s.waits j false }
  | wake {v : ℤ} :
      CustomerStep j s ⟨.waiting, v⟩ ⟨.unlockWait, v⟩ { s with waitMutex := true }
  | unlockWait {v : ℤ} :
      CustomerStep j s ⟨.unlockWait, v⟩ ⟨.away, v⟩ { s with waitMutex := false }
  | away {v : ℤ} : CustomerStep j s ⟨.away, v⟩ ⟨.lockQueue, v⟩ s
  | full {v : ℤ} : CustomerStep j s ⟨.ifFull, v⟩ ⟨.leaveRead, v⟩ s
  | notFull {v : ℤ} : CustomerStep j s ⟨.ifFull, v⟩ ⟨.stranded, v⟩ s
  | leaveRead {v : ℤ} : CustomerStep j s ⟨.leaveRead, v⟩ ⟨.leaveWrite, s.current⟩ s
  | leaveWrite {v : ℤ} (h : s.current = v) :
      CustomerStep j s ⟨.leaveWrite, v⟩ ⟨.leaveUnlock, v⟩ { s with current := v - 1 }
  | leaveUnlock {v : ℤ} :
      CustomerStep j s ⟨.leaveUnlock, v⟩ ⟨.away, v⟩ { s with queueMutex := false }

section Step

variable [DecidableEq κ] {x : Option κ} {j : κ} {t t' : Thread} {s s' : Shop κ}

theorem barberShop_step [Fintype κ] (h : barberShop x t s = some (t', s'))
    (hwrite : t.pc = .decWrite → s.current = t.seen)
    (hfound : t.pc = .signal → ∃ j, s.waits j = true) : BarberStep s t t' s' := by
  obtain ⟨pc, v⟩ := t
  cases pc with
  | test =>
    cases h
    split_ifs with hcurrent
    · exact .empty hcurrent
    · exact .busy hcurrent
  | sleepLock =>
    simp only [barberShop] at h
    split_ifs at h
    cases h
    exact .sleepLock
  | asleep =>
    simp only [barberShop] at h
    split_ifs at h with hwaits hmutex
    · cases h
      exact .spurious
    · cases h
      exact .wake (Bool.eq_false_of_not_eq_true hwaits)
  | decWrite =>
    cases h
    exact .decWrite (hwrite rfl)
  | signal =>
    simp only [barberShop] at h
    cases x with
    | some j =>
      simp only at h
      split_ifs at h with hwaits
      cases h
      exact .signal hwaits
    | none =>
      simp only at h
      split_ifs at h with hnone
      obtain ⟨j, hj⟩ := hfound rfl
      simp [hnone j] at hj
  | setSleeping | sleepWait | clearSleeping | sleepUnlock | cut | decRead =>
    cases h
    constructor
  | _ => cases h

theorem waitingRoom_step (h : waitingRoom j t s = some (t', s'))
    (hwrite : t.pc = .incWrite ∨ t.pc = .leaveWrite → s.current = t.seen) :
    CustomerStep j s t t' s' := by
  obtain ⟨pc, v⟩ := t
  cases pc with
  | lockQueue =>
    simp only [waitingRoom] at h
    split_ifs at h with hmutex
    cases h
    exact .lockQueue (Bool.eq_false_of_not_eq_true hmutex)
  | incWrite =>
    cases h
    exact .incWrite (hwrite (.inl rfl))
  | leaveWrite =>
    cases h
    exact .leaveWrite (hwrite (.inr rfl))
  | ifSeat =>
    cases h
    split_ifs with hseat
    · exact .seat
    · exact .noSeat hseat
  | ifSleeping =>
    cases h
    split_ifs with hsleeping
    · exact .sleeping
    · exact .notSleeping hsleeping
  | ifFull =>
    cases h
    split_ifs
    · exact .full
    · exact .notFull
  | lockWait =>
    simp only [waitingRoom] at h
    split_ifs at h
    cases h
    exact .lockWait
  | waiting =>
    simp only [waitingRoom] at h
    split_ifs at h
    · cases h
      exact .spurious
    · cases h
      exact .wake
  | incRead | wakeBarber | unlockQueue | activeWait | unlockWait | away | leaveRead | leaveUnlock =>
    cases h
    constructor
  | _ => cases h

/-- Between the lock of `queue_mutex` and the unlock. -/
def Thread.holdsQueue (t : Thread) : Bool :=
  match t.pc with
  | .incRead | .incWrite | .ifSeat | .ifSleeping | .wakeBarber | .unlockQueue | .ifFull | .leaveRead
  | .leaveWrite | .leaveUnlock | .stranded => true
  | _ => false

/-- The barber has taken a customer off `current` and not signalled one. -/
def Thread.owes (t : Thread) : Bool := t.pc = .signal

theorem Thread.holdsQueue_of_checking (h : t.checking = true) : t.holdsQueue = true := by
  obtain ⟨pc, v⟩ := t
  cases pc <;> first | rfl | cases h

section

variable [Fintype κ]

theorem count_waits_update (f : κ → Bool) (j : κ) (w : Bool) :
    count (fun _ w => w) (Function.update f j w) + (f j).toNat = count (fun _ w => w) f + w.toNat :=
  count_update (fun _ w => w) f j w

/-- The barber takes one customer off `current` for each one that he signals. -/
theorem BarberStep.owes (h : BarberStep s t t' s') :
    (count (fun _ w => w) s'.waits : ℤ) + s.current + t.owes.toNat ≤
      count (fun _ w => w) s.waits + s'.current + t'.owes.toNat := by
  cases h with
  | decWrite h =>
    subst h
    simp [Thread.owes]
    omega
  | @signal v j h =>
    have hcount := count_waits_update s.waits j false
    rw [h] at hcount
    simp [Thread.owes] at hcount ⊢
    omega
  | _ => simp [Thread.owes]

/-- A customer is counted before it waits, until it is woken or has left. -/
theorem CustomerStep.counted (h : CustomerStep j s t t' s') :
    (count (fun _ w => w) s'.waits : ℤ) + t'.counted.toNat + s.current ≤
      count (fun _ w => w) s.waits + t.counted.toNat + s'.current := by
  cases h with
  | incWrite h =>
    subst h
    simp [Thread.counted]
    omega
  | leaveWrite h =>
    subst h
    simp [Thread.counted]
  | activeWait =>
    have hcount := count_waits_update s.waits j true
    simp [Thread.counted] at hcount ⊢
    omega
  | spurious =>
    have hcount := count_waits_update s.waits j false
    simp [Thread.counted] at hcount ⊢
    omega
  | _ => simp [Thread.counted]

end

/-- The barber does not touch what the customers count. -/
theorem BarberStep.outside (h : BarberStep s t t' s') :
    (t.counted = false ∧ t'.counted = false) ∧ (t.checking = false ∧ t'.checking = false) ∧
      (t.holdsQueue = false ∧ t'.holdsQueue = false) ∧ s'.queueMutex = s.queueMutex := by
  cases h <;> exact ⟨⟨rfl, rfl⟩, ⟨rfl, rfl⟩, ⟨rfl, rfl⟩, rfl⟩

theorem CustomerStep.queue (h : CustomerStep j s t t' s')
    (hl : t.holdsQueue = true → s.queueMutex = true) :
    s'.queueMutex.toNat + t.holdsQueue.toNat = s.queueMutex.toNat + t'.holdsQueue.toNat := by
  cases h with
  | lockQueue h => simp [Thread.holdsQueue, h]
  | unlockQueue | leaveUnlock => simp [Thread.holdsQueue, hl rfl]
  | _ => rfl

/-- A customer is no longer counted by itself when it waits or leaves. -/
theorem CustomerStep.stops_counting (h : CustomerStep j s t t' s') (hc : t.counted = true)
    (hc' : t'.counted = false) : t.pc = .activeWait ∨ t.pc = .leaveWrite := by
  cases h <;> simp_all [Thread.counted]

/-- The customers do not touch what the barber does. -/
theorem CustomerStep.outside (h : CustomerStep j s t t' s') :
    s'.sleeping = s.sleeping ∧ (s'.barberWaits = true → s.barberWaits = true) := by
  cases h <;> simp

/-- With the barber at `b`, `n` customers on their way and `k` of them checking: `current` counts the
customers that wait and those on their way, up to one that the barber is about to signal; and the barber
goes to sleep in an empty shop. -/
structure Good [Fintype κ] (b : Thread) (n k : ℕ) (s : Shop κ) : Prop where
  counted : (count (fun _ w => w) s.waits : ℤ) + n ≤ s.current + b.owes.toNat
  covered : b.owes = true → 0 < n
  empty : b.pc = .sleepLock ∨ b.pc = .setSleeping ∨ b.pc = .sleepWait → s.current = 0
  sleeping : b.pc = .sleepWait ∨ b.pc = .asleep → s.sleeping = true
  waits : s.barberWaits = true → b.pc = .asleep
  alone : s.barberWaits = true → s.current = 0 ∨ s.current = 1 ∧ 0 < k

theorem BarberStep.good [Fintype κ] {n k : ℕ} (h : BarberStep s t t' s') (hG : Good t n k s)
    (hcovered : t.pc = .decWrite → 0 < n) : Good t' n k s' := by
  have howes := h.owes
  obtain ⟨h₁, h₂, h₃, h₄, h₅, h₆⟩ := hG
  refine ⟨by omega, ?_, ?_, ?_, ?_, ?_⟩
  · cases h with
    | decWrite _ => exact fun _ => hcovered rfl
    | _ => simp [Thread.owes]
  · cases h with
    | empty h => exact fun _ => h
    | sleepLock => exact fun _ => h₃ (.inl rfl)
    | setSleeping => exact fun _ => h₃ (.inr (.inl rfl))
    | _ => simp
  · cases h with
    | setSleeping => exact fun _ => rfl
    | sleepWait => exact fun _ => h₄ (.inl rfl)
    | spurious => exact fun _ => h₄ (.inr rfl)
    | _ => simp
  · cases h with
    | sleepWait => exact fun _ => rfl
    | spurious => simp
    | wake h => simp [h]
    | _ =>
      intro hwaits
      cases h₅ hwaits
  · cases h with
    | sleepWait => exact fun _ => .inl (h₃ (.inr (.inr rfl)))
    | spurious => simp
    | wake h => simp [h]
    | _ =>
      intro hwaits
      cases h₅ hwaits

/-- A customer that is not counted twice, with nobody else checking while it holds `queue_mutex`. -/
theorem CustomerStep.good [Fintype κ] {b : Thread} {n k n' k' : ℕ} (h : CustomerStep j s t t' s')
    (hG : Good b n k s) (hn : n' + t.counted.toNat = n + t'.counted.toNat)
    (hk : k' + t.checking.toNat = k + t'.checking.toNat) (hle : t.counted.toNat ≤ n)
    (halone : t.holdsQueue = true → k ≤ t.checking.toNat)
    (harrive : t.pc = .incWrite → b.pc ≠ .sleepLock ∧ b.pc ≠ .setSleeping ∧ b.pc ≠ .sleepWait)
    (hcovered : b.owes = true → 0 < n') : Good b n' k' s' := by
  have hcounted := h.counted
  obtain ⟨hsleep, hwoken⟩ := h.outside
  obtain ⟨h₁, h₂, h₃, h₄, h₅, h₆⟩ := hG
  refine ⟨by omega, hcovered, ?_, ?_, fun hw => h₅ (hwoken hw), ?_⟩
  · intro hb
    have hzero := h₃ hb
    have howes : b.owes = false := by
      rcases hb with hb | hb | hb <;> simp [Thread.owes, hb]
    cases h with
    | incWrite h =>
      obtain ⟨hne₁, hne₂, hne₃⟩ := harrive rfl
      rcases hb with hb | hb | hb
      · exact absurd hb hne₁
      · exact absurd hb hne₂
      · exact absurd hb hne₃
    | leaveWrite h =>
      -- a customer that leaves is counted, so the shop is not empty
      rw [howes] at h₁
      simp [Thread.counted] at hle h₁
      omega
    | _ => exact hzero
  · intro hb
    rw [hsleep]
    exact h₄ hb
  · intro hw
    have hasleep := h₅ (hwoken hw)
    have howes : b.owes = false := by simp [Thread.owes, hasleep]
    have hold := h₆ (hwoken hw)
    rw [howes] at h₁
    cases h with
    | incWrite h =>
      have hnone := halone rfl
      simp [Thread.checking] at hk hnone ⊢
      omega
    | noSeat h =>
      unfold seats at h
      omega
    | notSleeping h => exact absurd (h₄ (.inr hasleep)) h
    | wakeBarber => cases hw
    | leaveWrite h =>
      have hnone := halone rfl
      simp [Thread.checking, Thread.counted] at hle hnone h₁
      omega
    | _ =>
      simp [Thread.checking] at hk ⊢
      omega

end Step

/-! ## All runs -/

section Runs

variable [Fintype κ] {c : Conf (Option κ) Thread (Shop κ)}

/-- The mutex of the queue is taken by the customer in the locked code, and all is `Good`. -/
structure Inv (c : Conf (Option κ) Thread (Shop κ)) : Prop where
  queue : c.sh.queueMutex.toNat = count (fun _ => Thread.holdsQueue) c.loc
  good : Good (c.loc none) (count (fun _ => Thread.counted) c.loc)
    (count (fun _ => Thread.checking) c.loc) c.sh

theorem Inv.awake (hI : Inv c) : Awake c := by
  constructor
  · intro hwaits hchecking
    rcases hI.good.alone hwaits with h | ⟨-, h⟩
    · exact h
    · rw [count_eq_zero_iff.mpr hchecking] at h
      exact absurd h (lt_irrefl 0)
  · have hcounted := hI.good.counted
    cases howes : (c.loc none).owes with
    | false =>
      rw [howes, Bool.toNat_false] at hcounted
      omega
    | true =>
      have hcovered := hI.good.covered howes
      rw [howes, Bool.toNat_true] at hcounted
      omega

theorem inv_start : Inv (start κ) := by
  have hcount : ∀ P : Thread → Bool, P ⟨.test, 0⟩ = false → P ⟨.lockQueue, 0⟩ = false →
      count (fun _ => P) (start κ).loc = 0 := by
    intro P h₁ h₂
    refine count_eq_zero_iff.mpr fun i => ?_
    cases i with
    | none => exact h₁
    | some j => exact h₂
  have hwaits : count (fun _ w => w) (start κ).sh.waits = 0 := count_eq_zero_iff.mpr fun _ => rfl
  refine ⟨?_, ⟨?_, ?_, ?_, ?_, ?_, ?_⟩⟩
  · rw [hcount _ rfl rfl]
    rfl
  · rw [hcount _ rfl rfl, hwaits]
    rfl
  · intro h
    cases h
  · rintro (h | h | h) <;> cases h
  · rintro (h | h) <;> cases h
  · intro h
    cases h
  · intro h
    cases h

theorem Inv.count_queue_le (hI : Inv c) : count (fun _ => Thread.holdsQueue) c.loc ≤ 1 := by
  rw [← hI.queue]
  exact Bool.toNat_le _

theorem Inv.queueMutex (hI : Inv c) {i : Option κ} (hi : (c.loc i).holdsQueue = true) :
    c.sh.queueMutex = true :=
  eq_true_of_toNat_eq_count hI.queue hi

/-- Only a customer that holds `queue_mutex` can be checking. -/
theorem Inv.count_checking_le (hI : Inv c) {i : Option κ} (hi : (c.loc i).holdsQueue = true) :
    count (fun _ => Thread.checking) c.loc ≤ (c.loc i).checking.toNat := by
  cases hchecking : (c.loc i).checking with
  | true =>
    exact (count_le_count fun _ => Thread.holdsQueue_of_checking).trans hI.count_queue_le
  | false =>
    refine (count_eq_zero_iff.mpr fun k => ?_).le
    by_contra hk
    have hk : (c.loc k).checking = true := by simpa using hk
    obtain rfl := eq_of_count_le_one hI.count_queue_le hi (Thread.holdsQueue_of_checking hk)
    rw [hchecking] at hk
    cases hk

variable [DecidableEq κ] {t : Thread} {s : Shop κ}

theorem Inv.barberStep (hI : Inv c) (h : BarberStep c.sh (c.loc none) t s)
    (hcovered : (c.loc none).pc = .decWrite → ∃ j ≠ none, (c.loc j).counted = true) :
    Inv ⟨Function.update c.loc none t, s⟩ := by
  obtain ⟨⟨hc, hc'⟩, ⟨hk, hk'⟩, ⟨hq, hq'⟩, hmutex⟩ := h.outside
  have hgood := h.good hI.good fun hpc => count_pos_iff.mpr (by
    obtain ⟨j, -, hj⟩ := hcovered hpc
    exact ⟨j, hj⟩)
  -- the barber has no part in any of the three counts
  have hqueue := count_update_of_eq (P := fun _ => Thread.holdsQueue) (hq'.trans hq.symm)
  have hcounted := count_update_of_eq (P := fun _ => Thread.counted) (hc'.trans hc.symm)
  have hchecking := count_update_of_eq (P := fun _ => Thread.checking) (hk'.trans hk.symm)
  refine ⟨?_, ?_⟩
  · rw [hqueue, ← hI.queue]
    exact congrArg Bool.toNat hmutex
  · show Good (Function.update c.loc none t none) _ _ s
    rw [hcounted, hchecking, Function.update_self]
    exact hgood

theorem Inv.customerStep (hI : Inv c) {j : κ} (h : CustomerStep j c.sh (c.loc (some j)) t s)
    (harrive : (c.loc (some j)).pc = .incWrite → (c.loc none).pc ≠ .sleepLock ∧
      (c.loc none).pc ≠ .setSleeping ∧ (c.loc none).pc ≠ .sleepWait)
    (hcovered : (c.loc none).pc = .signal ∧
      ((c.loc (some j)).pc = .activeWait ∨ (c.loc (some j)).pc = .leaveWrite) →
      ∃ k ≠ some j, (c.loc k).counted = true) :
    Inv ⟨Function.update c.loc (some j) t, s⟩ := by
  have hcount := count_update (fun _ => Thread.counted) c.loc (some j) t
  have hchecking := count_update (fun _ => Thread.checking) c.loc (some j) t
  have hqueue := count_update (fun _ => Thread.holdsQueue) c.loc (some j) t
  refine ⟨?_, ?_⟩
  · have hstep := h.queue hI.queueMutex
    have hold := hI.queue
    show s.queueMutex.toNat = count (fun _ => Thread.holdsQueue) (Function.update c.loc (some j) t)
    omega
  · show Good (Function.update c.loc (some j) t none) _ _ s
    rw [Function.update_of_ne (by simp)]
    have hpart := toNat_le_count (fun _ => Thread.counted) c.loc (some j)
    refine h.good hI.good hcount hchecking hpart hI.count_checking_le harrive fun howes => ?_
    show 0 < count (fun _ => Thread.counted) (Function.update c.loc (some j) t)
    have hsignal : (c.loc none).pc = .signal := by simpa [Thread.owes] using howes
    have hold := hI.good.covered howes
    by_cases hstops : (c.loc (some j)).counted = true ∧ t.counted = false
    · obtain ⟨k, hk, hcounted⟩ := hcovered ⟨hsignal, h.stops_counting hstops.1 hstops.2⟩
      refine count_pos_iff.mpr ⟨k, ?_⟩
      rw [Function.update_of_ne hk]
      exact hcounted
    · have hle : (c.loc (some j)).counted.toNat ≤ t.counted.toNat := by
        cases hc : (c.loc (some j)).counted with
        | false => exact Nat.zero_le _
        | true =>
          cases ht : t.counted with
          | false => exact absurd ⟨hc, ht⟩ hstops
          | true => exact le_rfl
      omega

theorem Inv.step (hI : Inv c) {i x : Option κ} (hok : Undisturbed c i x)
    (h : thread i x (c.loc i) c.sh = some (t, s)) : Inv ⟨Function.update c.loc i t, s⟩ := by
  cases i with
  | none =>
    exact hI.barberStep (barberShop_step h (fun hpc => hok.write (.inr (.inr hpc))) hok.found)
      fun hpc => hok.covered (.inl hpc)
  | some j =>
    refine hI.customerStep (waitingRoom_step h fun hpc => hok.write ?_) hok.arrive
      fun hpc => hok.covered (.inr hpc)
    rcases hpc with hpc | hpc
    · exact .inl hpc
    · exact .inr (.inl hpc)

theorem inv_of_reach (h : Reach thread (· = start κ) Undisturbed c) : Inv c :=
  h.invariant (fun _ h => h ▸ inv_start) fun _ _ _ _ _ hI hok hp => hI.step hok hp

end Runs

/-- **No wake-up is lost** in every run whose steps are undisturbed. -/
theorem no_lost_wakeup [Fintype κ] [DecidableEq κ] {c : Conf (Option κ) Thread (Shop κ)}
    (h : Reach thread (· = start κ) Undisturbed c) : Awake c :=
  (inv_of_reach h).awake

instance [Fintype κ] [DecidableEq κ] (c : Conf (Option κ) Thread (Shop κ)) (i x : Option κ) :
    Decidable (Undisturbed c i x) :=
  decidable_of_iff
    (((c.loc i).pc = .incWrite ∨ (c.loc i).pc = .leaveWrite ∨ (c.loc i).pc = .decWrite →
        c.sh.current = (c.loc i).seen) ∧
      ((c.loc i).pc = .incWrite → (c.loc none).pc ≠ .sleepLock ∧ (c.loc none).pc ≠ .setSleeping ∧
        (c.loc none).pc ≠ .sleepWait) ∧
      ((c.loc i).pc = .decWrite ∨
          (c.loc none).pc = .signal ∧ ((c.loc i).pc = .activeWait ∨ (c.loc i).pc = .leaveWrite) →
        ∃ j ≠ i, (c.loc j).counted = true) ∧
      ((c.loc i).pc = .signal → ∃ j, c.sh.waits j = true))
    ⟨fun h => ⟨h.1, h.2.1, h.2.2.1, h.2.2.2⟩, fun h => ⟨h.write, h.arrive, h.covered, h.found⟩⟩

/-- Customer 0 waits, customer 1 has arrived, and the barber cuts hair and wakes customer 0. -/
def oneHaircut : List (Option (Fin 2) × Option (Fin 2)) :=
  List.replicate 8 (some 0, none) ++ List.replicate 3 (some 1, none) ++
    List.replicate 4 (none, none) ++ [(none, some 0)]

theorem no_lost_wakeup_oneHaircut : ∃ c : Conf (Option (Fin 2)) Thread (Shop (Fin 2)),
    Reach thread (· = start (Fin 2)) Undisturbed c ∧ (c.loc (some 0)).pc = .waiting ∧
      c.sh.waits 0 = false ∧ c.sh.current = 1 ∧ Awake c := by
  obtain ⟨c, hc, hP⟩ := @exists_reach _ _ _ _ _ thread (· = start (Fin 2)) Undisturbed _ _ rfl oneHaircut
    (fun c => (c.loc (some 0)).pc = .waiting && c.sh.waits 0 = false && c.sh.current = 1)
    (by decide +kernel)
  simp only [Bool.and_eq_true, decide_eq_true_eq] at hP
  exact ⟨c, hc, hP.1.1, hP.1.2, hP.2, no_lost_wakeup hc⟩

/-- The barber finds the shop empty; a customer comes, finds him awake and waits; the barber falls
asleep. -/
def missedArrival : List (Option (Fin 1) × Option (Fin 1)) :=
  [(none, none)] ++ List.replicate 8 (some 0, none) ++ List.replicate 3 (none, none)

/-- A customer has arrived and not yet sat down; the barber cuts hair and signals nobody; the customer
waits. -/
def missedSignal : List (Option (Fin 1) × Option (Fin 1)) :=
  List.replicate 6 (some 0, none) ++ List.replicate 5 (none, none) ++ List.replicate 2 (some 0, none)

theorem lost_wakeups :
    (∃ c : Conf (Option (Fin 1)) Thread (Shop (Fin 1)), Reach thread (· = start (Fin 1)) anyMove c ∧
      c.sh.barberWaits = true ∧ (∀ i, (c.loc i).checking = false) ∧ c.sh.current = 1 ∧ ¬ Awake c) ∧
    ∃ c : Conf (Option (Fin 1)) Thread (Shop (Fin 1)), Reach thread (· = start (Fin 1)) anyMove c ∧
      (c.loc none).pc = .test ∧ c.sh.waits 0 = true ∧ c.sh.current = 0 ∧ ¬ Awake c := by
  constructor
  · obtain ⟨c, hc, hP⟩ := @exists_reach _ _ _ _ _ thread (· = start (Fin 1)) anyMove _ _ rfl
      missedArrival (fun c => c.sh.barberWaits && (∀ i, (c.loc i).checking = false) &&
        c.sh.current = 1) (by decide +kernel)
    simp only [Bool.and_eq_true, decide_eq_true_eq] at hP
    obtain ⟨⟨hwaits, hchecking⟩, hcurrent⟩ := hP
    refine ⟨c, hc, hwaits, hchecking, hcurrent, fun hawake => ?_⟩
    have hzero := hawake.barber hwaits hchecking
    omega
  · obtain ⟨c, hc, hP⟩ := @exists_reach _ _ _ _ _ thread (· = start (Fin 1)) anyMove _ _ rfl
      missedSignal (fun c => (c.loc none).pc = .test && c.sh.waits 0 && c.sh.current = 0)
      (by decide +kernel)
    simp only [Bool.and_eq_true, decide_eq_true_eq] at hP
    obtain ⟨⟨htest, hwaits⟩, hcurrent⟩ := hP
    refine ⟨c, hc, htest, hwaits, hcurrent, fun hawake => ?_⟩
    have hpos : 0 < count (fun _ w => w) c.sh.waits := count_pos_iff.mpr ⟨0, hwaits⟩
    have hle := hawake.customers
    omega

end Cs444.Barber
