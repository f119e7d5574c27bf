import Cs444.Lib.Chain
import Cs444.Lib.Threads

/-!
# The shared list of `concurrency3.c`

Searchers, inserters and deleters work on one linked list. A step of the model makes at most one store
that others can see, with the loads it needs. A freed node keeps its words until `malloc` hands it out
again, so what a thread reads through an old pointer is what is there.

`find` and `remov` load `lst->head` before they wait for their semaphores, and start from it
afterwards; `create` loads it inside.

* `atomic` is what the list is for: each operation takes effect at one moment between the end of its
  last `sem_wait` and its first `sem_post`.
* `Agrees` and `VisitsList` say that the list in memory is that list, and that nobody leaves it;
  `FreshHead` that the walks start where the list starts.
* `SemInv`: each semaphore is `1` when nobody has it and `0` when one thread does.
* `semaphore_discipline`: who is inside together with whom, and that the threads are never all blocked.
-/

namespace Cs444.SharedList

/-! ## The code -/

/-- The three kinds of threads. -/
inductive Role
  | searcher
  | inserter
  | deleter
  deriving DecidableEq, Repr

instance : Fintype Role := ⟨{.searcher, .inserter, .deleter}, fun r => by cases r <;> decide⟩

/-- A call with the value it has drawn. -/
inductive Op
  | create (val : ℕ)
  | remov (val : ℕ)
  | find (val : ℕ)
  deriving DecidableEq, Repr

/-- A thread has its semaphores, or gives the first one back; `result` tells whether a `find` or a
`remov` has reported its value. -/
inductive Event (ι : Type)
  | enter (i : ι) (op : Op)
  | leave (i : ι) (result : Bool)
  deriving DecidableEq, Repr

/-- A pointer to a node. -/
abbrev Ptr := Option ℕ

/-- The places of the threads, with their local variables. -/
inductive Pc
  | remov
  /-- `sem_wait(&(lst->no_searcher))` -/
  | removWait1 (val : ℕ) (cur : Ptr)
  /-- `sem_wait(&(lst->no_inserter))` -/
  | removWait2 (val : ℕ) (cur : Ptr)
  /-- `lst->head != NULL && lst->head->data == val` -/
  | removTest (val : ℕ) (cur : Ptr)
  /-- `tmp = lst->head->next` -/
  | removNext (val : ℕ)
  /-- `free(lst->head)` -/
  | removFreeHead (val : ℕ) (tmp : Ptr)
  /-- `lst->head = tmp` -/
  | removSetHead (tmp : Ptr)
  /-- `while (cur != NULL)` and `if (cur->data == val)` -/
  | removLoop (val : ℕ) (prev cur : Ptr)
  /-- `prev->next = cur->next` -/
  | removUnlink (val : ℕ) (prev : Ptr) (cur : ℕ)
  /-- `if (lst->tail == cur)` -/
  | removTail (prev : Ptr) (cur : ℕ)
  /-- `free(cur)` -/
  | removFree (cur : ℕ)
  /-- `prev = cur; cur = cur->next` -/
  | removAdvance (val : ℕ) (cur : ℕ)
  | removReport
  /-- the loop of `print_list` -/
  | removPrint (cur : Ptr)
  /-- `sem_post(&(lst->no_searcher))` -/
  | removPost1 (found : Bool)
  /-- `sem_post(&(lst->no_inserter))` -/
  | removPost2
  | find
  /-- `sem_wait(&(lst->no_searcher))` -/
  | findWait (val : ℕ) (tmp : Ptr)
  /-- `while (tmp != NULL)` and `if (tmp->data == val)` -/
  | findLoop (val : ℕ) (tmp : Ptr)
  /-- `tmp = tmp->next` -/
  | findNext (val : ℕ) (tmp : ℕ)
  /-- `sem_post(&(lst->no_searcher))` -/
  | findPost (found : Bool)
  | create
  /-- `new_node->next = NULL` -/
  | createInit (newNode : ℕ)
  /-- `new_node->data = val` -/
  | createData (newNode val : ℕ)
  /-- `sem_wait(&(lst->no_inserter))` -/
  | createWait1 (newNode val : ℕ)
  /-- `sem_wait(&(lst->inserter))` -/
  | createWait2 (newNode val : ℕ)
  /-- `if (lst->head == NULL)` -/
  | createTest (newNode val : ℕ)
  /-- `lst->head = new_node` -/
  | createSetHead (newNode val : ℕ)
  /-- `while(cur->next != NULL)` -/
  | createWalk (newNode val cur : ℕ)
  /-- `cur->next = new_node` -/
  | createLink (newNode val cur : ℕ)
  | createReport
  /-- the loop of `print_list` -/
  | createPrint (cur : Ptr)
  /-- `sem_post(&(lst->inserter))` -/
  | createPost1
  /-- `sem_post(&(lst->no_inserter))` -/
  | createPost2
  deriving DecidableEq, Repr

/-- The list, the nodes in memory and the semaphores, with the history of the calls. -/
structure Shared (ι : Type) where
  head : Ptr
  tail : Ptr
  data : ℕ → ℕ
  next : ℕ → Ptr
  allocated : ℕ → Bool
  noSearcher : ℕ
  noInserter : ℕ
  inserter : ℕ
  history : List (Event ι)

/-- `random_gen`, from what `rand()` returns. -/
def randomGen (r : ℕ) : ℕ := r % 10 + 1

section Code

variable {ι : Type}

/-- `free`. -/
def Shared.free (s : Shared ι) (n : ℕ) : Shared ι :=
  { s with allocated := Function.update s.allocated n false }

def Shared.log (s : Shared ι) (e : Event ι) : Shared ι := { s with history := s.history ++ [e] }

/-- One step of `remov`, from `lst->head` to the last `sem_post`. -/
def remov (i : ι) (x : ℕ) (pc : Pc) (s : Shared ι) : Option (Pc × Shared ι) :=
  match pc with
  | .remov => some (.removWait1 (randomGen x) s.head, s)
  | .removWait1 val cur =>
    (semWait s.noSearcher).map fun v => (.removWait2 val cur, { s with noSearcher := v })
  | .removWait2 val cur =>
    (semWait s.noInserter).map fun v =>
      (.removTest val cur, { s with noInserter := v }.log (.enter i (.remov val)))
  | .removTest val cur =>
    match s.head with
    | none => some (.removLoop val cur cur, s)
    | some h => some (if s.data h = val then .removNext val else .removLoop val cur cur, s)
  | .removNext val => s.head.map fun h => (.removFreeHead val (s.next h), s)
  | .removFreeHead _ tmp => s.head.map fun h => (.removSetHead tmp, s.free h)
  | .removSetHead tmp => some (.removReport, { s with head := tmp })
  | .removLoop val prev cur =>
    match cur with
    | none => some (.removPost1 false, s)
    | some n => some (if s.data n = val then .removUnlink val prev n else .removAdvance val n, s)
  | .removUnlink _ prev cur =>
    prev.map fun p => (.removTail prev cur, { s with next := Function.update s.next p (s.next cur) })
  | .removTail prev cur =>
    some (.removFree cur, if s.tail = some cur then { s with tail := prev } else s)
  | .removFree cur => some (.removReport, s.free cur)
  | .removAdvance val cur => some (.removLoop val (some cur) (s.next cur), s)
  | .removReport => some (.removPrint s.head, s)
  | .removPrint cur =>
    match cur with
    | none => some (.removPost1 true, s)
    | some n => some (.removPrint (s.next n), s)
  | .removPost1 found =>
    some (.removPost2, { s with noSearcher := s.noSearcher + 1 }.log (.leave i found))
  | .removPost2 => some (.remov, { s with noInserter := s.noInserter + 1 })
  | _ => none

/-- One step of `find`. -/
def find (i : ι) (x : ℕ) (pc : Pc) (s : Shared ι) : Option (Pc × Shared ι) :=
  match pc with
  | .find => some (.findWait (randomGen x) s.head, s)
  | .findWait val tmp =>
    (semWait s.noSearcher).map fun v =>
      (.findLoop val tmp, { s with noSearcher := v }.log (.enter i (.find val)))
  | .findLoop val tmp =>
    match tmp with
    | none => some (.findPost false, s)
    | some n => some (if s.data n = val then .findPost true else .findNext val n, s)
  | .findNext val tmp => some (.findLoop val (s.next tmp), s)
  | .findPost found =>
    some (.find, { s with noSearcher := s.noSearcher + 1 }.log (.leave i found))
  | _ => none

/-- One step of `create`; the input of the first is the address that `malloc` finds. -/
def create (i : ι) (x : ℕ) (pc : Pc) (s : Shared ι) : Option (Pc × Shared ι) :=
  match pc with
  | .create =>
    if s.allocated x then none
    else some (.createInit x, { s with allocated := Function.update s.allocated x true })
  | .createInit newNode =>
    some (.createData newNode (randomGen x), { s with next := Function.update s.next newNode none })
  | .createData newNode val =>
    some (.createWait1 newNode val, { s with data := Function.update s.data newNode val })
  | .createWait1 newNode val =>
    (semWait s.noInserter).map fun v => (.createWait2 newNode val, { s with noInserter := v })
  | .createWait2 newNode val =>
    (semWait s.inserter).map fun v =>
      (.createTest newNode val, { s with inserter := v }.log (.enter i (.create val)))
  | .createTest newNode val =>
    match s.head with
    | none => some (.createSetHead newNode val, s)
    | some h => some (.createWalk newNode val h, s)
  | .createSetHead newNode _ => some (.createReport, { s with head := some newNode })
  | .createWalk newNode val cur =>
    match s.next cur with
    | none => some (.createLink newNode val cur, s)
    | some n => some (.createWalk newNode val n, s)
  | .createLink newNode _ cur =>
    some (.createReport, { s with next := Function.update s.next cur (some newNode) })
  | .createReport => some (.createPrint s.head, s)
  | .createPrint cur =>
    match cur with
    | none => some (.createPost1, s)
    | some n => some (.createPrint (s.next n), s)
  | .createPost1 => some (.createPost2, { s with inserter := s.inserter + 1 }.log (.leave i true))
  | .createPost2 => some (.create, { s with noInserter := s.noInserter + 1 })
  | _ => none

/-- `searcher`, `inserter` and `deleter` repeat their function for ever. -/
def threads (role : ι → Role) : Prog ι ℕ Pc (Shared ι) := fun i x pc s =>
  match role i with
  | .searcher => find i x pc s
  | .inserter => create i x pc s
  | .deleter => remov i x pc s

/-- Where a thread starts. -/
def Role.begin : Role → Pc
  | .searcher => .find
  | .inserter => .create
  | .deleter => .remov

/-- `initialize`. -/
def start (role : ι → Role) : Conf ι Pc (Shared ι) :=
  ⟨fun i => (role i).begin, none, none, fun _ => 0, fun _ => none, fun _ => false, 1, 1, 1, []⟩

end Code

/-! ## What the list is for -/

/-- The list after an operation. -/
def Op.apply : Op → List ℕ → List ℕ
  | .create val, l => l ++ [val]
  | .remov val, l => l.erase val
  | .find _, l => l

/-- What an operation reports. -/
def Op.result : Op → List ℕ → Bool
  | .create _, _ => true
  | .remov val, l => val ∈ l
  | .find val, l => val ∈ l

/-- How far the call of a thread is. -/
inductive Status
  | idle
  | pending (op : Op)
  | done (result : Bool)
  deriving DecidableEq, Repr

/-- A list of values with the history of the calls. -/
structure Atomic (ι : Type) where
  contents : List ℕ
  history : List (Event ι)

/-- A call takes effect at one moment between its two events. -/
def atomic {ι : Type} : Prog ι Op Status (Atomic ι) := fun i op st s =>
  match st with
  | .idle => some (.pending op, { s with history := s.history ++ [.enter i op] })
  | .pending op => some (.done (op.result s.contents), { s with contents := op.apply s.contents })
  | .done result => some (.idle, { s with history := s.history ++ [.leave i result] })

def atomicStart (ι : Type) : Conf ι Status (Atomic ι) := ⟨fun _ => .idle, [], []⟩

/-- The nodes that the next step reads or writes through a pointer. -/
def visits (head : Ptr) : Pc → List ℕ
  | .removTest _ _ | .removNext _ => head.toList
  | .removLoop _ _ cur | .removPrint cur | .createPrint cur => cur.toList
  | .removUnlink _ prev cur => prev.toList ++ [cur]
  | .removAdvance _ cur | .createWalk _ _ cur | .createLink _ _ cur => [cur]
  | .findLoop _ tmp => tmp.toList
  | .findNext _ tmp => [tmp]
  | _ => []

/-- Between `free(lst->head)` and `lst->head = tmp`. -/
def settingHead : Pc → Bool
  | .removSetHead _ => true
  | _ => false

section Spec

variable {ι : Type}

/-- The history is the same, and `lst->head` leads through the contents; between
`free(lst->head)` and `lst->head = tmp` it is `tmp` that does. -/
structure Agrees (c : Conf ι Pc (Shared ι)) (a : Conf ι Status (Atomic ι)) : Prop where
  history : a.sh.history = c.sh.history
  contents : (∀ i, settingHead (c.loc i) = false) →
    ∃ l, Chain c.sh.next c.sh.head l ∧ a.sh.contents = l.map c.sh.data
  setting : ∀ i tmp, c.loc i = .removSetHead tmp →
    ∃ l, Chain c.sh.next tmp l ∧ a.sh.contents = l.map c.sh.data

/-- Every node that a thread visits is in the list, and none has been freed. -/
def VisitsList (c : Conf ι Pc (Shared ι)) : Prop :=
  ∀ i, ∀ n ∈ visits c.sh.head (c.loc i),
    c.sh.allocated n = true ∧ ∃ l, Chain c.sh.next c.sh.head l ∧ n ∈ l

/-- `lst->head` has the value. -/
def Shared.headIs (s : Shared ι) (val : ℕ) : Bool := s.head.any fun h => s.data h = val

/-- A `find` that waits for its semaphore, and a `remov` that will go on to its loop, have loaded the
pointer that `lst->head` has now. -/
def Shared.fresh (s : Shared ι) : Pc → Bool
  | .findWait _ tmp => tmp = s.head
  | .removTest val cur => s.headIs val || cur = s.head
  | _ => true

/-- The walks start from the `lst->head` of the moment. -/
def FreshHead (c : Conf ι Pc (Shared ι)) (i : ι) (_ : ℕ) : Prop := c.sh.fresh (c.loc i) = true

instance (c : Conf ι Pc (Shared ι)) (i : ι) (x : ℕ) : Decidable (FreshHead c i x) :=
  inferInstanceAs (Decidable (_ = true))

end Spec

/-! ## The semaphores -/

/-- Between the second `sem_wait` and the first `sem_post` of `remov`. -/
def removing : Pc → Bool
  | .removTest _ _ | .removNext _ | .removFreeHead _ _ | .removSetHead _ | .removLoop _ _ _ => true
  | .removUnlink _ _ _ | .removTail _ _ | .removFree _ | .removAdvance _ _ => true
  | .removReport | .removPrint _ | .removPost1 _ => true
  | _ => false

/-- Between the `sem_wait` and the `sem_post` of `find`. -/
def finding : Pc → Bool
  | .findLoop _ _ | .findNext _ _ | .findPost _ => true
  | _ => false

/-- Between the second `sem_wait` and the first `sem_post` of `create`. -/
def creating : Pc → Bool
  | .createTest _ _ | .createSetHead _ _ | .createWalk _ _ _ | .createLink _ _ _ => true
  | .createReport | .createPrint _ | .createPost1 => true
  | _ => false

def hasNoSearcher : Pc → Bool
  | .removWait2 _ _ => true
  | pc => removing pc || finding pc

def hasNoInserter : Pc → Bool
  | .removPost2 | .createWait2 _ _ | .createPost2 => true
  | pc => removing pc || creating pc

theorem removing_has {pc : Pc} (h : removing pc = true) :
    hasNoSearcher pc = true ∧ hasNoInserter pc = true := by
  cases pc with
  | removWait2 | removPost2 | createWait2 | createPost2 => cases h
  | _ => exact ⟨by simp [hasNoSearcher, h], by simp [hasNoInserter, h]⟩

theorem visits_has {pc : Pc} {head : Ptr} {n : ℕ} (h : n ∈ visits head pc) :
    (hasNoSearcher pc = true ∨ hasNoInserter pc = true) ∧ settingHead pc = false := by
  cases pc with
  | removTest | removNext | removLoop | removUnlink | removAdvance | removPrint => exact ⟨.inl rfl, rfl⟩
  | findLoop | findNext => exact ⟨.inl rfl, rfl⟩
  | createWalk | createLink | createPrint => exact ⟨.inr rfl, rfl⟩
  | _ => cases h

section Semaphores

variable {ι : Type} {i : ι} {x : ℕ} {pc pc' : Pc} {s s' : Shared ι}

/-- What a step takes from the semaphores it has, and what it puts back it no longer has. -/
structure Balanced (pc : Pc) (s : Shared ι) (pc' : Pc) (s' : Shared ι) : Prop where
  noSearcher : s'.noSearcher + (hasNoSearcher pc').toNat = s.noSearcher + (hasNoSearcher pc).toNat
  noInserter : s'.noInserter + (hasNoInserter pc').toNat = s.noInserter + (hasNoInserter pc).toNat
  inserter : s'.inserter + (creating pc').toNat = s.inserter + (creating pc).toNat

theorem remov_balanced (h : remov i x pc s = some (pc', s')) : Balanced pc s pc' s' := by
  cases pc with
  | removWait1 | removWait2 =>
    obtain ⟨v, hv, hq⟩ := Option.map_eq_some_iff.mp h
    rw [semWait_eq_some_iff] at hv
    cases hq
    exact ⟨by simp [Shared.log, hasNoSearcher, removing, finding, hv],
      by simp [Shared.log, hasNoInserter, removing, creating, hv], rfl⟩
  | removNext | removFreeHead | removUnlink =>
    obtain ⟨v, -, hq⟩ := Option.map_eq_some_iff.mp h
    cases hq
    exact ⟨rfl, rfl, rfl⟩
  | removTest | removLoop =>
    simp only [remov] at h
    split at h
    · cases h
      exact ⟨rfl, rfl, rfl⟩
    · cases h
      split_ifs <;> exact ⟨rfl, rfl, rfl⟩
  | removTail =>
    cases h
    split_ifs <;> exact ⟨rfl, rfl, rfl⟩
  | removPrint =>
    simp only [remov] at h
    split at h <;> cases h <;> exact ⟨rfl, rfl, rfl⟩
  | _ =>
    cases h <;> exact ⟨rfl, rfl, rfl⟩

theorem find_balanced (h : find i x pc s = some (pc', s')) : Balanced pc s pc' s' := by
  cases pc with
  | findWait =>
    obtain ⟨v, hv, hq⟩ := Option.map_eq_some_iff.mp h
    rw [semWait_eq_some_iff] at hv
    cases hq
    exact ⟨by simp [Shared.log, hasNoSearcher, removing, finding, hv], rfl, rfl⟩
  | findLoop =>
    simp only [find] at h
    split at h
    · cases h
      exact ⟨rfl, rfl, rfl⟩
    · cases h
      split_ifs <;> exact ⟨rfl, rfl, rfl⟩
  | _ =>
    cases h <;> exact ⟨rfl, rfl, rfl⟩

theorem create_balanced (h : create i x pc s = some (pc', s')) : Balanced pc s pc' s' := by
  cases pc with
  | create =>
    simp only [create] at h
    split_ifs at h
    cases h
    exact ⟨rfl, rfl, rfl⟩
  | createWait1 | createWait2 =>
    obtain ⟨v, hv, hq⟩ := Option.map_eq_some_iff.mp h
    rw [semWait_eq_some_iff] at hv
    cases hq
    exact ⟨rfl, by simp [Shared.log, hasNoInserter, removing, creating, hv],
      by simp [Shared.log, creating, hv]⟩
  | createTest | createWalk | createPrint =>
    simp only [create] at h
    split at h <;> cases h <;> exact ⟨rfl, rfl, rfl⟩
  | _ =>
    cases h <;> exact ⟨rfl, rfl, rfl⟩

theorem threads_balanced {role : ι → Role} (h : threads role i x pc s = some (pc', s')) :
    Balanced pc s pc' s' := by
  unfold threads at h
  split at h
  · exact find_balanced h
  · exact create_balanced h
  · exact remov_balanced h

/-- Each semaphore is `1` less the number of threads that have it. -/
structure SemInv [Fintype ι] (c : Conf ι Pc (Shared ι)) : Prop where
  noSearcher : c.sh.noSearcher + count (fun _ => hasNoSearcher) c.loc = 1
  noInserter : c.sh.noInserter + count (fun _ => hasNoInserter) c.loc = 1
  inserter : c.sh.inserter + count (fun _ => creating) c.loc = 1

variable [Fintype ι] {c : Conf ι Pc (Shared ι)}

theorem semInv_start (role : ι → Role) : SemInv (start role) := by
  have hbegin : ∀ r : Role, hasNoSearcher r.begin = false ∧ hasNoInserter r.begin = false ∧
      creating r.begin = false := by
    intro r
    cases r <;> exact ⟨rfl, rfl, rfl⟩
  exact ⟨congrArg (1 + ·) (count_eq_zero_iff.mpr fun i => (hbegin (role i)).1),
    congrArg (1 + ·) (count_eq_zero_iff.mpr fun i => (hbegin (role i)).2.1),
    congrArg (1 + ·) (count_eq_zero_iff.mpr fun i => (hbegin (role i)).2.2)⟩

theorem SemInv.step [DecidableEq ι] (hS : SemInv c) (h : Balanced (c.loc i) c.sh pc' s') :
    SemInv ⟨Function.update c.loc i pc', s'⟩ :=
  ⟨add_count_update hS.noSearcher h.noSearcher, add_count_update hS.noInserter h.noInserter,
    add_count_update hS.inserter h.inserter⟩

variable {j : ι}

theorem SemInv.others_noSearcher (hS : SemInv c) (hi : hasNoSearcher (c.loc i) = true) :
    ∀ j, j ≠ i → hasNoSearcher (c.loc j) = false := by
  have hsum := hS.noSearcher
  have hle : count (fun _ => hasNoSearcher) c.loc ≤ 1 := by omega
  exact fun j hj => eq_false_of_count_le_one hle hi hj

theorem SemInv.others_noInserter (hS : SemInv c) (hi : hasNoInserter (c.loc i) = true) :
    ∀ j, j ≠ i → hasNoInserter (c.loc j) = false := by
  have hsum := hS.noInserter
  have hle : count (fun _ => hasNoInserter) c.loc ≤ 1 := by omega
  exact fun j hj => eq_false_of_count_le_one hle hi hj

theorem SemInv.settingHead_eq_false (hS : SemInv c)
    (hi : hasNoSearcher (c.loc i) = true ∨ hasNoInserter (c.loc i) = true) (hj : j ≠ i) :
    settingHead (c.loc j) = false := by
  by_contra hset
  rw [Bool.not_eq_false] at hset
  have hhas : hasNoSearcher (c.loc j) = true ∧ hasNoInserter (c.loc j) = true := by
    cases hpc : c.loc j with
    | removSetHead => exact ⟨rfl, rfl⟩
    | _ =>
      rw [hpc] at hset
      cases hset
  rcases hi with hi | hi
  · exact absurd hhas.1 (by simp [hS.others_noSearcher hi j hj])
  · exact absurd hhas.2 (by simp [hS.others_noInserter hi j hj])

/-- A thread that gets `no_searcher` is alone with it. -/
theorem SemInv.settingHead_of_free {v : ℕ} (hS : SemInv c) (hv : semWait c.sh.noSearcher = some v)
    (j : ι) : settingHead (c.loc j) = false := by
  have hnone : count (fun _ => hasNoSearcher) c.loc = 0 := by
    have hsem := hS.noSearcher
    rw [semWait_eq_some_iff] at hv
    omega
  have hj := count_eq_zero_iff.mp hnone j
  cases hpc : c.loc j with
  | removSetHead =>
    rw [hpc] at hj
    cases hj
  | _ => rfl

end Semaphores

/-! ## The semaphore discipline -/

/-- The kind of threads that have the place. -/
def Pc.role : Pc → Role
  | .find | .findWait _ _ | .findLoop _ _ | .findNext _ _ | .findPost _ => .searcher
  | .create | .createInit _ | .createData _ _ | .createWait1 _ _ | .createWait2 _ _ => .inserter
  | .createTest _ _ => .inserter
  | .createSetHead _ _ | .createWalk _ _ _ | .createLink _ _ _ | .createReport => .inserter
  | .createPrint _ | .createPost1 | .createPost2 => .inserter
  | _ => .deleter

/-- Between the last `sem_wait` and the first `sem_post` of a call. -/
def critical (pc : Pc) : Bool := removing pc || finding pc || creating pc

/-- At a `sem_wait`. -/
def waiting : Pc → Bool
  | .removWait1 _ _ | .removWait2 _ _ | .findWait _ _ | .createWait1 _ _ | .createWait2 _ _ => true
  | _ => false

section Discipline

variable {ι : Type} {role : ι → Role} {i j : ι} {x : ℕ} {pc pc' : Pc} {s s' : Shared ι}

theorem remov_role (h : remov i x pc s = some (pc', s')) : pc'.role = .deleter := by
  cases pc with
  | removWait1 | removWait2 | removNext | removFreeHead | removUnlink =>
    obtain ⟨v, -, hq⟩ := Option.map_eq_some_iff.mp h
    cases hq
    rfl
  | removTest | removLoop =>
    simp only [remov] at h
    split at h <;> cases h
    · rfl
    · split_ifs <;> rfl
  | removPrint =>
    simp only [remov] at h
    split at h <;> cases h <;> rfl
  | _ => cases h <;> rfl

theorem find_role (h : find i x pc s = some (pc', s')) : pc'.role = .searcher := by
  cases pc with
  | findWait =>
    obtain ⟨v, -, hq⟩ := Option.map_eq_some_iff.mp h
    cases hq
    rfl
  | findLoop =>
    simp only [find] at h
    split at h <;> cases h
    · rfl
    · split_ifs <;> rfl
  | _ => cases h <;> rfl

theorem create_role (h : create i x pc s = some (pc', s')) : pc'.role = .inserter := by
  cases pc with
  | create =>
    simp only [create] at h
    split_ifs at h
    cases h
    rfl
  | createWait1 | createWait2 =>
    obtain ⟨v, -, hq⟩ := Option.map_eq_some_iff.mp h
    cases hq
    rfl
  | createTest | createWalk | createPrint =>
    simp only [create] at h
    split at h <;> cases h <;> rfl
  | _ => cases h <;> rfl

theorem threads_role (h : threads role i x pc s = some (pc', s')) : pc'.role = role i := by
  unfold threads at h
  split at h
  next hrole => rw [hrole, find_role h]
  next hrole => rw [hrole, create_role h]
  next hrole => rw [hrole, remov_role h]

/-- The thread is blocked in `sem_wait`. -/
def Blocked [DecidableEq ι] (role : ι → Role) (c : Conf ι Pc (Shared ι)) (i : ι) : Prop :=
  waiting (c.loc i) = true ∧ ∀ x, c.move (threads role) i x = none

/-- Every thread is in its own function, and the semaphores are held by the threads they should be. -/
structure Disciplined [Fintype ι] (role : ι → Role) (c : Conf ι Pc (Shared ι)) : Prop where
  role : ∀ i, (c.loc i).role = role i
  sems : SemInv c

variable [Fintype ι] {c : Conf ι Pc (Shared ι)}

theorem disciplined_start (role : ι → Role) : Disciplined role (start role) := by
  refine ⟨fun i => ?_, semInv_start role⟩
  show (role i).begin.role = role i
  cases role i <;> rfl

theorem Disciplined.step [DecidableEq ι] (hD : Disciplined role c)
    (h : threads role i x (c.loc i) c.sh = some (pc', s')) :
    Disciplined role ⟨Function.update c.loc i pc', s'⟩ := by
  refine ⟨?_, hD.sems.step (threads_balanced h)⟩
  exact (Function.forall_update_iff c.loc fun j pc => pc.role = role j).mpr
    ⟨threads_role h, fun j _ => hD.role j⟩

theorem disciplined_of_reach [DecidableEq ι]
    (h : Reach (threads role) (· = start role) anyMove c) : Disciplined role c :=
  h.invariant (fun _ h => h ▸ disciplined_start role) fun _ _ _ _ _ hD _ hp => hD.step hp

theorem critical_has (h : critical pc = true) :
    hasNoSearcher pc = true ∨ hasNoInserter pc = true := by
  cases pc with
  | createTest | createSetHead | createWalk | createLink | createReport | createPrint | createPost1 =>
    exact .inr rfl
  | _ => first | exact .inl rfl | cases h

/-- A deleter inside excludes everybody else. -/
theorem SemInv.removing_excludes (hS : SemInv c) (hi : removing (c.loc i) = true) (hj : j ≠ i) :
    critical (c.loc j) = false := by
  have hsearcher := hS.others_noSearcher (removing_has hi).1 j hj
  have hinserter := hS.others_noInserter (removing_has hi).2 j hj
  by_contra hcrit
  rw [Bool.not_eq_false] at hcrit
  rcases critical_has hcrit with h | h
  · rw [hsearcher] at h
    cases h
  · rw [hinserter] at h
    cases h

theorem removing_of_role (hrole : pc.role = .deleter) (h : critical pc = true) :
    removing pc = true := by
  cases pc with
  | remov | removWait1 | removWait2 | removPost2 => cases h
  | _ => first | rfl | cases hrole

theorem creating_of_role (hrole : pc.role = .inserter) (h : critical pc = true) :
    creating pc = true := by
  cases pc with
  | create | createInit | createData | createWait1 | createWait2 | createPost2 => cases h
  | _ => first | rfl | cases hrole

/-- A thread that is blocked waits for a semaphore that is `0`. -/
theorem Disciplined.blocked_cases [DecidableEq ι] (hD : Disciplined role c) (h : Blocked role c i) :
    (hasNoSearcher (c.loc i) = false ∧ hasNoInserter (c.loc i) = false ∧
        (c.sh.noSearcher = 0 ∨ c.sh.noInserter = 0)) ∨
      (hasNoInserter (c.loc i) = false ∧ c.sh.noInserter = 0) ∨ c.sh.inserter = 0 := by
  obtain ⟨hwait, hmove⟩ := h
  have hnone : threads role i 0 (c.loc i) c.sh = none := Option.map_eq_none_iff.mp (hmove 0)
  have hrole := hD.role i
  cases hpc : c.loc i with
  | removWait1 val cur =>
    rw [hpc] at hrole hnone
    simp only [threads, ← hrole, Pc.role, remov, Option.map_eq_none_iff, semWait_eq_none_iff] at hnone
    exact .inl ⟨rfl, rfl, .inl hnone⟩
  | findWait val tmp =>
    rw [hpc] at hrole hnone
    simp only [threads, ← hrole, Pc.role, find, Option.map_eq_none_iff, semWait_eq_none_iff] at hnone
    exact .inl ⟨rfl, rfl, .inl hnone⟩
  | createWait1 newNode val =>
    rw [hpc] at hrole hnone
    simp only [threads, ← hrole, Pc.role, create, Option.map_eq_none_iff, semWait_eq_none_iff] at hnone
    exact .inl ⟨rfl, rfl, .inr hnone⟩
  | removWait2 val cur =>
    rw [hpc] at hrole hnone
    simp only [threads, ← hrole, Pc.role, remov, Option.map_eq_none_iff, semWait_eq_none_iff] at hnone
    exact .inr (.inl ⟨rfl, hnone⟩)
  | createWait2 newNode val =>
    rw [hpc] at hrole hnone
    simp only [threads, ← hrole, Pc.role, create, Option.map_eq_none_iff, semWait_eq_none_iff] at hnone
    exact .inr (.inr hnone)
  | _ =>
    rw [hpc] at hwait
    cases hwait

theorem creating_of_waiting (h : waiting pc = true) : creating pc = false := by
  cases pc <;> first | rfl | cases h

/-- A semaphore that is `0` or `1`, and `1` when no thread has it. -/
def Binary (v : ℕ) (has : ι → Bool) : Prop := (v = 0 ∨ v = 1) ∧ ((∀ i, has i = false) → v = 1)

theorem binary_of_count {v : ℕ} {P : Pc → Bool} (h : v + count (fun _ => P) c.loc = 1) :
    Binary v fun i => P (c.loc i) := by
  refine ⟨by omega, fun hnone => ?_⟩
  rw [count_eq_zero_iff.mpr hnone] at h
  exact h

/-- **No deadlock.** The inserter that has `inserter` is not waiting, so nobody waits for it; then nobody
who has `no_inserter` is waiting, then nobody who has `no_searcher`. -/
theorem Disciplined.not_all_blocked [DecidableEq ι] [Nonempty ι] (hD : Disciplined role c) :
    ¬ ∀ i, Blocked role c i := by
  intro hall
  have hinserter : c.sh.inserter = 1 :=
    (binary_of_count hD.sems.inserter).2 fun i => creating_of_waiting (hall i).1
  have hnoInserter : c.sh.noInserter = 1 := by
    refine (binary_of_count hD.sems.noInserter).2 fun i => ?_
    rcases hD.blocked_cases (hall i) with ⟨-, h, -⟩ | ⟨h, -⟩ | h
    · exact h
    · exact h
    · omega
  have hnoSearcher : c.sh.noSearcher = 1 := by
    refine (binary_of_count hD.sems.noSearcher).2 fun i => ?_
    rcases hD.blocked_cases (hall i) with ⟨h, -, -⟩ | ⟨-, h⟩ | h
    · exact h
    · omega
    · omega
  obtain ⟨i⟩ := ‹Nonempty ι›
  rcases hD.blocked_cases (hall i) with ⟨-, -, h | h⟩ | ⟨-, h⟩ | h <;> omega

/-- **The semaphore discipline.** A deleter inside excludes everybody else, and there is one inserter
inside at most; each semaphore is `0` or `1`, and `1` when no thread has it; and the threads are never
all blocked. -/
theorem semaphore_discipline [DecidableEq ι] [Nonempty ι]
    (h : Reach (threads role) (· = start role) anyMove c) :
    (∀ i j, role i = .deleter → critical (c.loc i) = true → j ≠ i → critical (c.loc j) = false) ∧
      (∀ i j, role i = .inserter → role j = .inserter → critical (c.loc i) = true →
        critical (c.loc j) = true → i = j) ∧
      Binary c.sh.noSearcher (fun i => hasNoSearcher (c.loc i)) ∧
      Binary c.sh.noInserter (fun i => hasNoInserter (c.loc i)) ∧
      Binary c.sh.inserter (fun i => creating (c.loc i)) ∧
      ¬ ∀ i, Blocked role c i := by
  have hD := disciplined_of_reach h
  refine ⟨?_, ?_, binary_of_count hD.sems.noSearcher, binary_of_count hD.sems.noInserter,
    binary_of_count hD.sems.inserter, hD.not_all_blocked⟩
  · intro i j hi hcrit hj
    exact hD.sems.removing_excludes (removing_of_role ((hD.role i).trans hi) hcrit) hj
  · intro i j hi hj hci hcj
    have hle : count (fun _ => creating) c.loc ≤ 1 := by
      have hsum := hD.sems.inserter
      omega
    exact eq_of_count_le_one hle (creating_of_role ((hD.role i).trans hi) hci)
      (creating_of_role ((hD.role j).trans hj) hcj)

/-- One thread of each kind; the deleter is inside, and the others are not. -/
theorem semaphore_discipline_deleter :
    ∃ c, Reach (threads (id : Role → Role)) (· = start id) anyMove c ∧
      critical (c.loc .deleter) = true ∧ critical (c.loc .inserter) = false ∧
      ¬ ∀ i, Blocked id c i := by
  have hne : Nonempty Role := ⟨.deleter⟩
  obtain ⟨c, hc, hcrit⟩ := @exists_reach _ _ _ _ _ (threads (id : Role → Role)) (· = start id)
    anyMove _ _ rfl [(.deleter, 0), (.deleter, 0), (.deleter, 0)]
    (fun c => critical (c.loc .deleter)) (by decide)
  have hall := semaphore_discipline hc
  exact ⟨c, hc, hcrit, hall.1 .deleter .inserter rfl hcrit (by decide), hall.2.2.2.2.2⟩

end Discipline

end Cs444.SharedList
