import Cs444.Lib.Threads

/-!
# The smokers of `concurrency5.cpp`

Agents put two of the three ingredients out, each by posting the semaphore of its admin; the admins put
what arrives first on the table, and post the smoker that needs both when the second arrives; the smoker
makes its cigarette and lets the next agent in.

A smoker waits with `sem_timedwait` and does not look at the result: after a timeout it makes a
cigarette of nothing and lets one more agent in.

* The table counts what was put out, posted and started, which the code does not.
* As long as no wait times out one round is under way: `Table.weight` and `Thread.weight` count where its
  two ingredients are, and they always sum to two (`Inv`).
* `smokers_fed_of_noTimeout`: then no cigarette is started without its ingredients, and no ingredient
  is lost.
-/

namespace Cs444.Smokers

/-! ## The code -/

/-- The places of `smoker`. -/
inductive SmokerPc
  | wait
  | make
  | post
  | smoke
  deriving DecidableEq, Repr

/-- The places of `agent`. -/
inductive AgentPc
  | sleep
  | lock
  | postFirst
  | postSecond
  deriving DecidableEq, Repr

/-- The places of `admin`, with the three branches of its test. -/
inductive AdminPc
  | wait
  | lock
  /-- `if (items_available[(admin_id + 1) % 3])` -/
  | ifNext
  | clearNext
  | postForNext
  /-- `else if (items_available[(admin_id + 2) % 3])` -/
  | ifAfter
  | clearAfter
  | postForAfter
  | setOwn
  | unlock
  deriving DecidableEq, Repr

/-- A thread: a smoker with its `object_num`, an agent and an admin with their numbers. -/
inductive Thread
  | smoker (k : Fin 3) (pc : SmokerPc)
  | agent (a : Fin 3) (pc : AgentPc)
  | admin (d : Fin 3) (pc : AdminPc)
  deriving DecidableEq, Repr

/-- The semaphores and the table, with the posts to smokers, the cigarettes started and the ingredients
put out so far. -/
structure Table where
  smokerSemaphors : Fin 3 → ℕ
  adminSemaphores : Fin 3 → ℕ
  agentLock : ℕ
  adminLock : ℕ
  itemsAvailable : Fin 3 → Bool
  posts : Fin 3 → ℕ
  started : Fin 3 → ℕ
  putOut : ℕ

/-- `f[k] += 1`. -/
def bump (f : Fin 3 → ℕ) (k : Fin 3) : Fin 3 → ℕ := Function.update f k (f k + 1)

/-- `sem_post(&smoker_semaphors[k])` by an admin. -/
def Table.postSmoker (s : Table) (k : Fin 3) : Table :=
  { s with smokerSemaphors := bump s.smokerSemaphors k, posts := bump s.posts k }

/-- `sem_post(&admin_semaphores[d])` by an agent, which puts the ingredient `d` out. -/
def Table.postAdmin (s : Table) (d : Fin 3) : Table :=
  { s with adminSemaphores := bump s.adminSemaphores d, putOut := s.putOut + 1 }

def Table.setItem (s : Table) (i : Fin 3) (v : Bool) : Table :=
  { s with itemsAvailable := Function.update s.itemsAvailable i v }

/-- One step of `smoker`. -/
def smoker (timeout : Bool) (k : Fin 3) (pc : SmokerPc) (s : Table) : Option (Thread × Table) :=
  match pc with
  | .wait =>
    if timeout then some (.smoker k .make, s)
    else (semWait (s.smokerSemaphors k)).map fun v =>
      (.smoker k .make, { s with smokerSemaphors := Function.update s.smokerSemaphors k v })
  -- "Now making the a cigarette"
  | .make => some (.smoker k .post, { s with started := bump s.started k })
  | .post => some (.smoker k .smoke, { s with agentLock := s.agentLock + 1 })
  | .smoke => some (.smoker k .wait, s)

/-- One step of `agent`. -/
def agent (a : Fin 3) (pc : AgentPc) (s : Table) : Option (Thread × Table) :=
  match pc with
  | .sleep => some (.agent a .lock, s)
  | .lock => (semWait s.agentLock).map fun v => (.agent a .postFirst, { s with agentLock := v })
  | .postFirst => some (.agent a .postSecond, s.postAdmin a)
  | .postSecond => some (.agent a .sleep, s.postAdmin (a + 1))

/-- One step of `admin`. -/
def admin (d : Fin 3) (pc : AdminPc) (s : Table) : Option (Thread × Table) :=
  match pc with
  | .wait =>
    (semWait (s.adminSemaphores d)).map fun v =>
      (.admin d .lock, { s with adminSemaphores := Function.update s.adminSemaphores d v })
  | .lock => (semWait s.adminLock).map fun v => (.admin d .ifNext, { s with adminLock := v })
  | .ifNext => some (.admin d (if s.itemsAvailable (d + 1) then .clearNext else .ifAfter), s)
  | .clearNext => some (.admin d .postForNext, s.setItem (d + 1) false)
  | .postForNext => some (.admin d .unlock, s.postSmoker (d + 2))
  | .ifAfter => some (.admin d (if s.itemsAvailable (d + 2) then .clearAfter else .setOwn), s)
  | .clearAfter => some (.admin d .postForAfter, s.setItem (d + 2) false)
  | .postForAfter => some (.admin d .unlock, s.postSmoker (d + 1))
  | .setOwn => some (.admin d .unlock, s.setItem d true)
  | .unlock => some (.admin d .wait, { s with adminLock := s.adminLock + 1 })

/-- One step of a thread; `timeout` says how a timed wait ends. -/
def thread {ι : Type*} : Prog ι Bool Thread Table := fun _ timeout t s =>
  match t with
  | .smoker k pc => smoker timeout k pc s
  | .agent a pc => agent a pc s
  | .admin d pc => admin d pc s

/-- What a thread runs. -/
inductive Role
  | smoker (k : Fin 3)
  | agent (a : Fin 3)
  | admin (d : Fin 3)
  deriving DecidableEq, Repr

def Role.begin : Role → Thread
  | .smoker k => .smoker k .wait
  | .agent a => .agent a .sleep
  | .admin d => .admin d .wait

/-- The semaphores that `main` sets up. -/
def start {ι : Type*} (role : ι → Role) : Conf ι Thread Table where
  loc i := (role i).begin
  sh := ⟨fun _ => 0, fun _ => 0, 1, 1, fun _ => false, fun _ => 0, fun _ => 0, 0⟩

/-- The threads that `main` creates: six smokers, three agents and three admins. -/
def mainRole : Fin 6 ⊕ Fin 3 ⊕ Fin 3 → Role
  | .inl smokerId => .smoker ⟨smokerId % 3, Nat.mod_lt _ (by decide)⟩
  | .inr (.inl a) => .agent a
  | .inr (.inr d) => .admin d

/-! ## What the smokers should keep to -/

/-- The ingredients that an admin has taken off its semaphore or off the table. -/
def Thread.handled : Thread → ℕ
  | .admin _ pc =>
    match pc with
    | .wait | .unlock => 0
    | .postForNext | .postForAfter => 2
    | _ => 1
  | _ => 0

/-- The ingredients on the table. -/
def Table.onTable (s : Table) : ℕ := ∑ i, (s.itemsAvailable i).toNat

section

variable {ι : Type*} [Fintype ι]

/-- No type starts more cigarettes than it was posted; no admin puts an ingredient where one lies; and
the ingredients put out are those in the posts, on the table, in the semaphores and with the admins. -/
structure Safe (c : Conf ι Thread Table) : Prop where
  started : ∀ k, c.sh.started k ≤ c.sh.posts k
  setOwn : ∀ i d, c.loc i = .admin d .setOwn → c.sh.itemsAvailable d = false
  accounts : 2 * ∑ k, c.sh.posts k + c.sh.onTable + ∑ d, c.sh.adminSemaphores d +
    ∑ i, (c.loc i).handled = c.sh.putOut

end

/-- If the step is the wait of a smoker, it does not time out. -/
def NoTimeout {ι : Type*} (c : Conf ι Thread Table) (i : ι) (timeout : Bool) : Prop :=
  ∀ k, c.loc i = .smoker k .wait → timeout = false

/-! ## One step -/

/-- The steps of a thread whose wait does not time out. -/
inductive Step (s : Table) : Thread → Thread → Table → Prop
  | wait {k : Fin 3} {v : ℕ} (h : s.smokerSemaphors k = v + 1) :
      Step s (.smoker k .wait) (.smoker k .make)
        { s with smokerSemaphors := Function.update s.smokerSemaphors k v }
  | make {k : Fin 3} :
      Step s (.smoker k .make) (.smoker k .post) { s with started := bump s.started k }
  | post {k : Fin 3} :
      Step s (.smoker k .post) (.smoker k .smoke) { s with agentLock := s.agentLock + 1 }
  | smoke {k : Fin 3} : Step s (.smoker k .smoke) (.smoker k .wait) s
  | agentSleep {a : Fin 3} : Step s (.agent a .sleep) (.agent a .lock) s
  | agentLock {a : Fin 3} {v : ℕ} (h : s.agentLock = v + 1) :
      Step s (.agent a .lock) (.agent a .postFirst) { s with agentLock := v }
  | postFirst {a : Fin 3} : Step s (.agent a .postFirst) (.agent a .postSecond) (s.postAdmin a)
  | postSecond {a : Fin 3} : Step s (.agent a .postSecond) (.agent a .sleep) (s.postAdmin (a + 1))
  | adminWait {d : Fin 3} {v : ℕ} (h : s.adminSemaphores d = v + 1) :
      Step s (.admin d .wait) (.admin d .lock)
        { s with adminSemaphores := Function.update s.adminSemaphores d v }
  | adminLock {d : Fin 3} {v : ℕ} (h : s.adminLock = v + 1) :
      Step s (.admin d .lock) (.admin d .ifNext) { s with adminLock := v }
  | next {d : Fin 3} (h : s.itemsAvailable (d + 1) = true) :
      Step s (.admin d .ifNext) (.admin d .clearNext) s
  | notNext {d : Fin 3} : Step s (.admin d .ifNext) (.admin d .ifAfter) s
  | clearNext {d : Fin 3} :
      Step s (.admin d .clearNext) (.admin d .postForNext) (s.setItem (d + 1) false)
  | postForNext {d : Fin 3} :
      Step s (.admin d .postForNext) (.admin d .unlock) (s.postSmoker (d + 2))
  | after {d : Fin 3} (h : s.itemsAvailable (d + 2) = true) :
      Step s (.admin d .ifAfter) (.admin d .clearAfter) s
  | notAfter {d : Fin 3} : Step s (.admin d .ifAfter) (.admin d .setOwn) s
  | clearAfter {d : Fin 3} :
      Step s (.admin d .clearAfter) (.admin d .postForAfter) (s.setItem (d + 2) false)
  | postForAfter {d : Fin 3} :
      Step s (.admin d .postForAfter) (.admin d .unlock) (s.postSmoker (d + 1))
  | setOwn {d : Fin 3} : Step s (.admin d .setOwn) (.admin d .unlock) (s.setItem d true)
  | unlock {d : Fin 3} :
      Step s (.admin d .unlock) (.admin d .wait) { s with adminLock := s.adminLock + 1 }

section Step

variable {t t' : Thread} {s s' : Table}

theorem smoker_step {k : Fin 3} {pc : SmokerPc} (h : smoker false k pc s = some (t', s')) :
    Step s (.smoker k pc) t' s' := by
  cases pc with
  | wait =>
    obtain ⟨v, hv, h⟩ := Option.map_eq_some_iff.mp h
    cases h
    exact .wait (semWait_eq_some_iff.mp hv)
  | _ =>
    cases h
    constructor

theorem agent_step {a : Fin 3} {pc : AgentPc} (h : agent a pc s = some (t', s')) :
    Step s (.agent a pc) t' s' := by
  cases pc with
  | lock =>
    obtain ⟨v, hv, h⟩ := Option.map_eq_some_iff.mp h
    cases h
    exact .agentLock (semWait_eq_some_iff.mp hv)
  | _ =>
    cases h
    constructor

theorem admin_step {d : Fin 3} {pc : AdminPc} (h : admin d pc s = some (t', s')) :
    Step s (.admin d pc) t' s' := by
  cases pc with
  | wait =>
    obtain ⟨v, hv, h⟩ := Option.map_eq_some_iff.mp h
    cases h
    exact .adminWait (semWait_eq_some_iff.mp hv)
  | lock =>
    obtain ⟨v, hv, h⟩ := Option.map_eq_some_iff.mp h
    cases h
    exact .adminLock (semWait_eq_some_iff.mp hv)
  | ifNext =>
    cases h
    split_ifs with hitem
    · exact .next hitem
    · exact .notNext
  | ifAfter =>
    cases h
    split_ifs with hitem
    · exact .after hitem
    · exact .notAfter
  | _ =>
    cases h
    constructor

theorem thread_step {ι : Type*} {c : Conf ι Thread Table} {i : ι} {timeout : Bool}
    (h : thread i timeout (c.loc i) c.sh = some (t', s')) (hok : NoTimeout c i timeout) :
    Step c.sh (c.loc i) t' s' := by
  unfold NoTimeout at hok
  generalize c.loc i = t at h hok ⊢
  cases t with
  | smoker k pc =>
    have hno : smoker timeout k pc c.sh = smoker false k pc c.sh := by
      cases pc with
      | wait => rw [hok k rfl]
      | _ => rfl
    exact smoker_step (hno ▸ h)
  | agent a pc => exact agent_step h
  | admin d pc => exact admin_step h

/-! ## Where the ingredients of a round are -/

/-- The ingredients of the round that a thread has: a smoker and an agent that enters have both. -/
def Thread.weight : Thread → ℕ
  | .smoker _ pc =>
    match pc with
    | .make | .post => 2
    | _ => 0
  | .agent _ pc =>
    match pc with
    | .postFirst => 2
    | .postSecond => 1
    | _ => 0
  | .admin d pc => (Thread.admin d pc).handled

/-- The ingredients of the round that are with no thread. -/
def Table.weight (s : Table) : ℕ :=
  2 * s.agentLock + ∑ d, s.adminSemaphores d + s.onTable + 2 * ∑ k, s.smokerSemaphors k

/-- How many of the ingredient `i` a thread has by itself or is about to put out. -/
def Thread.own (i : Fin 3) : Thread → ℕ
  | .smoker _ _ => 0
  | .agent a pc =>
    match pc with
    | .postFirst => (if i = a then 1 else 0) + if i = a + 1 then 1 else 0
    | .postSecond => if i = a + 1 then 1 else 0
    | _ => 0
  | .admin d pc =>
    match pc with
    | .wait | .unlock | .postForNext | .postForAfter => 0
    | _ => if i = d then 1 else 0

/-- Between the wait on `admin_lock` and the post. -/
def Thread.holdsLock : Thread → Bool
  | .admin _ pc =>
    match pc with
    | .wait | .lock => false
    | _ => true
  | _ => false

/-- What an admin found on the table is still there. -/
def Thread.Found (s : Table) : Thread → Prop
  | .admin d .clearNext => s.itemsAvailable (d + 1) = true
  | .admin d .clearAfter => s.itemsAvailable (d + 2) = true
  | _ => True

/-- A smoker of type `k` that has its token and has not started. -/
def Thread.making (k : Fin 3) : Thread → Bool
  | .smoker k' .make => k' = k
  | _ => false

theorem sum_bump (f : Fin 3 → ℕ) (k : Fin 3) : ∑ j, bump f k j = ∑ j, f j + 1 := by
  have h := sum_update (fun _ v => v) f k (f k + 1)
  unfold bump
  omega

theorem sum_wait {f : Fin 3 → ℕ} {k : Fin 3} {v : ℕ} (h : f k = v + 1) :
    ∑ j, Function.update f k v j + 1 = ∑ j, f j := by
  have hsum := sum_update (fun _ v => v) f k v
  omega

theorem onTable_setItem (s : Table) (i : Fin 3) (v : Bool) :
    (s.setItem i v).onTable + (s.itemsAvailable i).toNat = s.onTable + v.toNat :=
  sum_update (fun _ v => Bool.toNat v) s.itemsAvailable i v

theorem weight_setItem (s : Table) (i : Fin 3) (v : Bool) :
    (s.setItem i v).weight + (s.itemsAvailable i).toNat = s.weight + v.toNat := by
  have h := onTable_setItem s i v
  show 2 * s.agentLock + ∑ d, s.adminSemaphores d + (s.setItem i v).onTable +
    2 * ∑ k, s.smokerSemaphors k + _ = _
  unfold Table.weight
  omega

/-- A step moves the ingredients of the round, and loses none. -/
theorem Step.weight (h : Step s t t' s') (hfound : t.Found s)
    (hset : ∀ d, t = .admin d .setOwn → s.itemsAvailable d = false) :
    s'.weight + t'.weight = s.weight + t.weight := by
  cases h with
  | wait h =>
    have hsum := sum_wait h
    simp only [Table.weight, Thread.weight, Table.onTable]
    omega
  | agentLock h =>
    simp only [Table.weight, Thread.weight, h, Table.onTable]
    omega
  | post =>
    simp only [Table.weight, Thread.weight, Table.onTable]
    omega
  | postFirst | postSecond =>
    simp only [Table.weight, Thread.weight, Table.postAdmin, sum_bump, Table.onTable]
    omega
  | adminWait h =>
    have hsum := sum_wait h
    simp only [Table.weight, Thread.weight, Thread.handled, Table.onTable]
    omega
  | @clearNext d =>
    have hsum := weight_setItem s (d + 1) false
    rw [show s.itemsAvailable (d + 1) = true from hfound] at hsum
    exact congrArg Nat.succ hsum
  | @clearAfter d =>
    have hsum := weight_setItem s (d + 2) false
    rw [show s.itemsAvailable (d + 2) = true from hfound] at hsum
    exact congrArg Nat.succ hsum
  | @setOwn d =>
    have hsum := weight_setItem s d true
    rw [hset d rfl] at hsum
    exact hsum
  | postForNext | postForAfter =>
    simp only [Table.weight, Thread.weight, Thread.handled, Table.postSmoker, sum_bump, Table.onTable]
    omega
  | _ => rfl

/-- A step moves what was put out, and loses none. -/
theorem Step.accounts (h : Step s t t' s') (hfound : t.Found s)
    (hset : ∀ d, t = .admin d .setOwn → s.itemsAvailable d = false) :
    2 * ∑ k, s'.posts k + s'.onTable + ∑ d, s'.adminSemaphores d + t'.handled + s.putOut =
      2 * ∑ k, s.posts k + s.onTable + ∑ d, s.adminSemaphores d + t.handled + s'.putOut := by
  cases h with
  | postFirst | postSecond =>
    simp only [Thread.handled, Table.postAdmin, sum_bump, Table.onTable]
    omega
  | adminWait h =>
    have hsum := sum_wait h
    simp only [Thread.handled, Table.onTable]
    omega
  | @clearNext d =>
    have hsum := onTable_setItem s (d + 1) false
    rw [show s.itemsAvailable (d + 1) = true from hfound] at hsum
    simp only [Thread.handled, Bool.toNat_true, Bool.toNat_false] at hsum ⊢
    show 2 * ∑ k, s.posts k + _ + ∑ d, s.adminSemaphores d + 2 + s.putOut = _ + s.putOut
    omega
  | @clearAfter d =>
    have hsum := onTable_setItem s (d + 2) false
    rw [show s.itemsAvailable (d + 2) = true from hfound] at hsum
    simp only [Thread.handled, Bool.toNat_true, Bool.toNat_false] at hsum ⊢
    show 2 * ∑ k, s.posts k + _ + ∑ d, s.adminSemaphores d + 2 + s.putOut = _ + s.putOut
    omega
  | @setOwn d =>
    have hsum := onTable_setItem s d true
    rw [hset d rfl] at hsum
    simp only [Thread.handled, Bool.toNat_true, Bool.toNat_false] at hsum ⊢
    show 2 * ∑ k, s.posts k + _ + ∑ d, s.adminSemaphores d + 0 + s.putOut = _ + s.putOut
    omega
  | postForNext | postForAfter =>
    simp only [Thread.handled, Table.postSmoker, sum_bump, Table.onTable]
    omega
  | _ => rfl

/-- Unless an agent enters, a step makes no ingredient more. -/
theorem Step.own (h : Step s t t' s') (hfound : t.Found s)
    (hlock : ∀ a, t ≠ .agent a .lock) (i : Fin 3) :
    s'.adminSemaphores i + (s'.itemsAvailable i).toNat + t'.own i ≤
      s.adminSemaphores i + (s.itemsAvailable i).toNat + t.own i := by
  cases h with
  | @agentLock a v h => exact absurd rfl (hlock a)
  | @postFirst a =>
    by_cases hi : i = a
    · simp only [Thread.own, Table.postAdmin, bump, hi, Function.update_self, if_pos]
      omega
    · simp [Thread.own, Table.postAdmin, bump, hi]
  | @postSecond a =>
    by_cases hi : i = a + 1
    · simp only [Thread.own, Table.postAdmin, bump, hi, Function.update_self, if_pos]
      omega
    · simp [Thread.own, Table.postAdmin, bump, hi]
  | @adminWait d v h =>
    by_cases hi : i = d
    · simp only [Thread.own, hi, Function.update_self, if_pos, h]
      omega
    · simp [Thread.own, hi]
  | @clearNext d =>
    by_cases hi : i = d + 1
    · simp [Thread.own, Table.setItem, hi]
    · simp [Thread.own, Table.setItem, hi]
  | @clearAfter d =>
    by_cases hi : i = d + 2
    · simp [Thread.own, Table.setItem, hi]
    · simp [Thread.own, Table.setItem, hi]
  | @setOwn d =>
    by_cases hi : i = d
    · simp [Thread.own, Table.setItem, hi]
    · simp [Thread.own, Table.setItem, hi]
  | _ => exact le_rfl

/-- A step starts a cigarette with a token that was posted. -/
theorem Step.started (h : Step s t t' s') (k : Fin 3) :
    s'.smokerSemaphors k + s'.started k + (t'.making k).toNat + s.posts k =
      s.smokerSemaphors k + s.started k + (t.making k).toNat + s'.posts k := by
  cases h with
  | @wait k' v h =>
    by_cases hk : k = k'
    · subst hk
      simp [Thread.making, h]
      omega
    · simp [Thread.making, hk, Ne.symm hk]
  | @make k' =>
    by_cases hk : k = k'
    · subst hk
      simp [Thread.making, bump]
      omega
    · simp [Thread.making, bump, hk, Ne.symm hk]
  | @postForNext d =>
    by_cases hk : k = d + 2
    · subst hk
      simp [Thread.making, Table.postSmoker, bump]
      omega
    · simp [Thread.making, Table.postSmoker, bump, hk]
  | @postForAfter d =>
    by_cases hk : k = d + 1
    · subst hk
      simp [Thread.making, Table.postSmoker, bump]
      omega
    · simp [Thread.making, Table.postSmoker, bump, hk]
  | _ => rfl

theorem Step.lock_eq (h : Step s t t' s') :
    s'.adminLock + t'.holdsLock.toNat = s.adminLock + t.holdsLock.toNat := by
  cases h with
  | adminLock h => simp [Thread.holdsLock, h]
  | _ => rfl

theorem Step.found (h : Step s t t' s') : t'.Found s' := by
  cases h with
  | next h => exact h
  | after h => exact h
  | _ => trivial

theorem Thread.Found.congr (h : t.Found s)
    (hitems : t.holdsLock = true → s'.itemsAvailable = s.itemsAvailable) : t.Found s' := by
  cases t with
  | smoker k pc => trivial
  | agent a pc => trivial
  | admin d pc =>
    cases pc with
    | clearNext | clearAfter =>
      unfold Thread.Found
      rw [hitems rfl]
      exact h
    | _ => trivial

/-- Only an admin with the lock changes the table. -/
theorem Step.itemsAvailable (h : Step s t t' s') (hl : t.holdsLock = false) :
    s'.itemsAvailable = s.itemsAvailable := by
  cases h with
  | clearNext | clearAfter | setOwn => cases hl
  | _ => rfl

theorem Thread.own_le_weight (t : Thread) (i : Fin 3) : t.own i ≤ t.weight := by
  cases t with
  | smoker k pc => exact Nat.zero_le _
  | agent a pc => cases pc <;> revert a i <;> decide
  | admin d pc => cases pc <;> revert d i <;> decide

/-- The two ingredients of an agent are different. -/
theorem own_postFirst_le (a i : Fin 3) : (Thread.agent a .postFirst).own i ≤ 1 := by
  revert a i
  decide

end Step

/-! ## All runs -/

section Runs

variable {ι : Type*} [Fintype ι] {c : Conf ι Thread Table}

/-- One round is under way, with two different ingredients, and all counts agree. -/
structure Inv (c : Conf ι Thread Table) : Prop where
  lock : c.sh.adminLock + count (fun _ => Thread.holdsLock) c.loc = 1
  found : ∀ i, (c.loc i).Found c.sh
  weight : c.sh.weight + ∑ i, (c.loc i).weight = 2
  own : ∀ d, c.sh.adminSemaphores d + (c.sh.itemsAvailable d).toNat + ∑ i, (c.loc i).own d ≤ 1
  started : ∀ k, c.sh.smokerSemaphors k + c.sh.started k + count (fun _ => Thread.making k) c.loc =
    c.sh.posts k
  accounts : 2 * ∑ k, c.sh.posts k + c.sh.onTable + ∑ d, c.sh.adminSemaphores d +
    ∑ i, (c.loc i).handled = c.sh.putOut

theorem inv_start (role : ι → Role) : Inv (start role) := by
  have hzero : ∀ w : Thread → ℕ, (∀ r : Role, w r.begin = 0) → ∑ i, w ((start role).loc i) = 0 :=
    fun w hw => Finset.sum_eq_zero fun i _ => hw (role i)
  have hcount : ∀ P : Thread → Bool, (∀ r : Role, P r.begin = false) →
      count (fun _ => P) (start role).loc = 0 :=
    fun P hP => count_eq_zero_iff.mpr fun i => hP (role i)
  refine ⟨?_, ?_, ?_, fun d => ?_, fun k => ?_, ?_⟩
  · rw [hcount _ (by rintro (_ | _ | _) <;> rfl)]
    rfl
  · intro i
    show ((role i).begin).Found _
    cases role i <;> trivial
  · rw [hzero _ (by rintro (_ | _ | _) <;> rfl)]
    rfl
  · rw [hzero _ (by rintro (_ | _ | _) <;> rfl)]
    exact Nat.zero_le 1
  · rw [hcount _ (by rintro (_ | _ | _) <;> rfl)]
    rfl
  · rw [hzero _ (by rintro (_ | _ | _) <;> rfl)]
    rfl

theorem Inv.setOwn (hI : Inv c) {i : ι} {d : Fin 3} (hi : c.loc i = .admin d .setOwn) :
    c.sh.itemsAvailable d = false := by
  have hown := hI.own d
  have hle : (c.loc i).own d ≤ ∑ i, (c.loc i).own d :=
    Finset.single_le_sum (fun i _ => Nat.zero_le ((c.loc i).own d)) (Finset.mem_univ i)
  have hone : (c.loc i).own d = 1 := by simp [hi, Thread.own]
  cases hitem : c.sh.itemsAvailable d with
  | false => rfl
  | true =>
    rw [hitem, Bool.toNat_true] at hown
    omega

theorem Inv.safe (hI : Inv c) : Safe c := by
  refine ⟨fun k => ?_, fun i d hi => hI.setOwn hi, hI.accounts⟩
  have hstarted := hI.started k
  omega

variable [DecidableEq ι] {i : ι} {t : Thread} {s : Table}

/-- The ingredients stay different, also when an agent enters: then there were none. -/
theorem Inv.step_own (hI : Inv c) (h : Step c.sh (c.loc i) t s) (d : Fin 3) :
    s.adminSemaphores d + (s.itemsAvailable d).toNat +
      ∑ j, (Function.update c.loc i t j).own d ≤ 1 := by
  have hsum := sum_update (fun _ t => Thread.own d t) c.loc i t
  have hown := hI.own d
  by_cases hlock : ∃ a, c.loc i = .agent a .lock
  · obtain ⟨a, hi⟩ := hlock
    rw [hi] at h hsum
    cases h with
    | @agentLock _ v h =>
      have hweight := hI.weight
      have hle : ∑ j, (c.loc j).own d ≤ ∑ j, (c.loc j).weight :=
        Finset.sum_le_sum fun j _ => (c.loc j).own_le_weight d
      have hadmin : c.sh.adminSemaphores d ≤ ∑ d, c.sh.adminSemaphores d :=
        Finset.single_le_sum (fun d _ => Nat.zero_le (c.sh.adminSemaphores d)) (Finset.mem_univ d)
      have hitem : (c.sh.itemsAvailable d).toNat ≤ c.sh.onTable :=
        Finset.single_le_sum (fun d _ => Nat.zero_le (c.sh.itemsAvailable d).toNat)
          (Finset.mem_univ d)
      have hpair := own_postFirst_le a d
      unfold Table.weight at hweight
      show c.sh.adminSemaphores d + (c.sh.itemsAvailable d).toNat + _ ≤ 1
      omega
  · have hstep := h.own (hI.found i) (fun a ha => hlock ⟨a, ha⟩) d
    omega

theorem Inv.step (hI : Inv c) (h : Step c.sh (c.loc i) t s) :
    Inv ⟨Function.update c.loc i t, s⟩ := by
  have hset : ∀ d, c.loc i = .admin d .setOwn → c.sh.itemsAvailable d = false :=
    fun d hd => hI.setOwn hd
  refine ⟨add_count_update hI.lock h.lock_eq, ?_, ?_, hI.step_own h, fun k => ?_, ?_⟩
  · refine (Function.forall_update_iff c.loc fun _ t => t.Found s).mpr ⟨h.found, fun j hj => ?_⟩
    refine (hI.found j).congr fun hholds => h.itemsAvailable ?_
    by_contra hi
    have hle : count (fun _ => Thread.holdsLock) c.loc ≤ 1 := by
      have hlock := hI.lock
      omega
    exact hj (eq_of_count_le_one hle hholds (by simpa using hi))
  · have hsum := sum_update (fun _ => Thread.weight) c.loc i t
    have hweight := hI.weight
    have hstep := h.weight (hI.found i) hset
    show s.weight + ∑ j, (Function.update c.loc i t j).weight = 2
    omega
  · have hcount := count_update (fun _ => Thread.making k) c.loc i t
    have hstarted := hI.started k
    have hstep := h.started k
    show s.smokerSemaphors k + s.started k +
      count (fun _ => Thread.making k) (Function.update c.loc i t) = s.posts k
    omega
  · have hsum := sum_update (fun _ => Thread.handled) c.loc i t
    have haccounts := hI.accounts
    have hstep := h.accounts (hI.found i) hset
    show 2 * ∑ k, s.posts k + s.onTable + ∑ d, s.adminSemaphores d +
      ∑ j, (Function.update c.loc i t j).handled = s.putOut
    omega

theorem inv_of_reach {role : ι → Role} (h : Reach thread (· = start role) NoTimeout c) : Inv c :=
  h.invariant (fun _ h => h ▸ inv_start role)
    fun _ _ _ _ _ hI hok hp => hI.step (thread_step hp hok)

end Runs

/-- **Smokers smoke with ingredients, and none is lost**, for any threads and in every run in which no
wait times out. -/
theorem smokers_fed_of_noTimeout {ι : Type*} [Fintype ι] [DecidableEq ι] {role : ι → Role}
    {c : Conf ι Thread Table} (h : Reach thread (· = start role) NoTimeout c) : Safe c :=
  (inv_of_reach h).safe

instance {ι : Type*} (c : Conf ι Thread Table) (i : ι) (timeout : Bool) :
    Decidable (NoTimeout c i timeout) :=
  inferInstanceAs (Decidable (∀ k, c.loc i = .smoker k .wait → timeout = false))

/-- Agent 0 puts matches and tobacco out, admins 0 and 1 pass them on, and smoker 2 smokes. -/
def oneRound : List ((Fin 6 ⊕ Fin 3 ⊕ Fin 3) × Bool) :=
  List.replicate 4 (.inr (.inl 0), false) ++ List.replicate 6 (.inr (.inr 0), false) ++
    List.replicate 7 (.inr (.inr 1), false) ++ List.replicate 3 (.inl 2, false)

theorem smokers_fed_oneRound : ∃ c, Reach thread (· = start mainRole) NoTimeout c ∧
    c.sh.started 2 = 1 ∧ c.sh.putOut = 2 ∧ Safe c := by
  obtain ⟨c, hc, hP⟩ := @exists_reach _ _ _ _ _ thread (· = start mainRole) NoTimeout _ _ rfl oneRound
    (fun c => c.sh.started 2 = 1 && c.sh.putOut = 2) (by decide +kernel)
  simp only [Bool.and_eq_true, decide_eq_true_eq] at hP
  exact ⟨c, hc, hP.1, hP.2, smokers_fed_of_noTimeout hc⟩

/-- Smoker 0 times out, makes a cigarette and lets a second round begin: agent 0 puts its ingredients
out twice, and admin 0 puts an ingredient where one lies. -/
def timeoutRun : List ((Fin 6 ⊕ Fin 3 ⊕ Fin 3) × Bool) :=
  List.replicate 3 (.inl 0, true) ++ List.replicate 8 (.inr (.inl 0), false) ++
    List.replicate 10 (.inr (.inr 0), false)

theorem timeout_not_safe :
    (∃ c, Reach thread (· = start mainRole) anyMove c ∧ c.sh.posts 0 = 0 ∧ c.sh.started 0 = 1 ∧
      ¬ Safe c) ∧
    ∃ c, Reach thread (· = start mainRole) anyMove c ∧ c.loc (.inr (.inr 0)) = .admin 0 .setOwn ∧
      c.sh.itemsAvailable 0 = true ∧ ¬ Safe c := by
  constructor
  · obtain ⟨c, hc, hP⟩ := @exists_reach _ _ _ _ _ thread (· = start mainRole) anyMove _ _ rfl
      (timeoutRun.take 3) (fun c => c.sh.posts 0 = 0 && c.sh.started 0 = 1) (by decide +kernel)
    simp only [Bool.and_eq_true, decide_eq_true_eq] at hP
    refine ⟨c, hc, hP.1, hP.2, fun hsafe => ?_⟩
    have hstarted := hsafe.started 0
    omega
  · obtain ⟨c, hc, hP⟩ := @exists_reach _ _ _ _ _ thread (· = start mainRole) anyMove _ _ rfl
      timeoutRun (fun c => c.loc (.inr (.inr 0)) = .admin 0 .setOwn && c.sh.itemsAvailable 0)
      (by decide +kernel)
    simp only [Bool.and_eq_true, decide_eq_true_eq] at hP
    refine ⟨c, hc, hP.1, hP.2, fun hsafe => ?_⟩
    have hset := hsafe.setOwn _ 0 hP.1
    rw [hP.2] at hset
    cases hset

end Cs444.Smokers
