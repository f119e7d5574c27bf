import Cs444.Lib.Threads

/-!
# The dining philosophers of `philosopher.c`

Each of the `n` threads runs `phil`: three rounds in which it takes a seat (`lock`, with `n - 1`
seats), its own fork and the next one, eats, and gives all three back.

* `Inv` relates every semaphore to the threads that have waited on it and not yet posted it.
* `exists_move`: while a philosopher is not done, one of them can move. A philosopher that waits for
  its second fork waits for its neighbour, which then waits for its own second fork, and so on around
  the table; but then all `n` would sit on `n - 1` seats.
* `phils_finish`: every run ends, with all philosophers fed and all semaphores as at the start.
* `fork_exclusion`: a fork is with at most one philosopher, so neighbours never eat at the same time.
-/

namespace Cs444.Philosopher

variable {n : ℕ}

/-! ## The code -/

/-- The places of `phil`. -/
inductive Pc
  | loop
  | waitLock
  | waitFork
  | waitNext
  | eating
  | postFork
  | postNext
  | postLock
  | exited
  deriving DecidableEq, Repr

/-- A thread in `phil`: its place, the loop counter and how often it has eaten. -/
structure Phil where
  pc : Pc
  i : ℕ
  eaten : ℕ
  deriving DecidableEq, Repr

/-- The semaphores. -/
structure Table (n : ℕ) where
  lock : ℕ
  forks : Fin n → ℕ

/-- `(self.pos + 1) % self.count`. -/
def next (pos : Fin n) : Fin n := ⟨(pos + 1) % n, Nat.mod_lt _ (Nat.zero_lt_of_lt pos.isLt)⟩

/-- `init`. -/
def init (n : ℕ) : Table n where
  lock := n - 1
  forks _ := 1

/-- `sem_wait(&self.forks[j])`. -/
def Table.waitFork (t : Table n) (j : Fin n) : Option (Table n) :=
  (semWait (t.forks j)).map fun v => { t with forks := Function.update t.forks j v }

/-- `sem_post(&self.forks[j])`. -/
def Table.postFork (t : Table n) (j : Fin n) : Table n :=
  { t with forks := Function.update t.forks j (t.forks j + 1) }

/-- One step of `phil`. -/
def phil : Prog (Fin n) Unit Phil (Table n) := fun pos _ self t =>
  match self.pc with
  | .loop =>
    if self.i < 3 then some ({ self with pc := .waitLock }, t)
    else some ({ self with pc := .exited }, t)
  | .waitLock =>
    (semWait t.lock).map fun v => ({ self with pc := .waitFork }, { t with lock := v })
  | .waitFork => (t.waitFork pos).map fun t => ({ self with pc := .waitNext }, t)
  | .waitNext => (t.waitFork (next pos)).map fun t => ({ self with pc := .eating }, t)
  | .eating => some ({ self with pc := .postFork, eaten := self.eaten + 1 }, t)
  | .postFork => some ({ self with pc := .postNext }, t.postFork pos)
  | .postNext => some ({ self with pc := .postLock }, t.postFork (next pos))
  | .postLock => some ({ self with pc := .loop, i := self.i + 1 }, { t with lock := t.lock + 1 })
  | .exited => none

/-- The threads that `run` creates. -/
def start (n : ℕ) : Conf (Fin n) Phil (Table n) := ⟨fun _ => ⟨.loop, 0, 0⟩, init n⟩

/-- The configurations of all interleavings. -/
abbrev Reachable (c : Conf (Fin n) Phil (Table n)) : Prop := Reach phil (· = start n) anyMove c

/-! ## What a thread holds -/

/-- Between the wait on `lock` and the post. -/
def Phil.seated (self : Phil) : Bool :=
  match self.pc with
  | .waitFork | .waitNext | .eating | .postFork | .postNext | .postLock => true
  | _ => false

/-- Between the wait on its own fork and the post. -/
def Phil.hasFork (self : Phil) : Bool :=
  match self.pc with
  | .waitNext | .eating | .postFork => true
  | _ => false

/-- Between the wait on the next fork and the post. -/
def Phil.hasNext (self : Phil) : Bool :=
  match self.pc with
  | .eating | .postFork | .postNext => true
  | _ => false

/-- The philosopher at `pos` has waited on the fork `j` and not yet posted it. -/
def holdsFork (j pos : Fin n) (self : Phil) : Bool :=
  (pos = j && self.hasFork) || (next pos = j && self.hasNext)

/-- The loop counter and the meals. -/
def Phil.Counts (self : Phil) : Prop :=
  match self.pc with
  | .loop => self.i ≤ 3 ∧ self.eaten = self.i
  | .exited => self.i = 3 ∧ self.eaten = 3
  | .postFork | .postNext | .postLock => self.i < 3 ∧ self.eaten = self.i + 1
  | _ => self.i < 3 ∧ self.eaten = self.i

/-- Each semaphore is its initial value less the threads that hold it. -/
structure Inv (c : Conf (Fin n) Phil (Table n)) : Prop where
  lock : c.sh.lock + count (fun _ => Phil.seated) c.loc = n - 1
  forks : ∀ j, c.sh.forks j + count (holdsFork j) c.loc = 1
  counts : ∀ i, (c.loc i).Counts

theorem next_ne (hn : 2 ≤ n) (pos : Fin n) : next pos ≠ pos := by
  intro h
  have hval : (pos + 1 : ℕ) % n = pos := congrArg Fin.val h
  have hlt := pos.isLt
  by_cases hw : (pos : ℕ) + 1 = n
  · rw [hw, Nat.mod_self] at hval
    omega
  · rw [Nat.mod_eq_of_lt (by omega)] at hval
    omega

/-! ## One step -/

/-- The steps of `phil`, with the semaphore values they need. -/
inductive Step (pos : Fin n) : Phil → Table n → Phil → Table n → Prop
  | again {i eaten : ℕ} {t : Table n} (h : i < 3) :
      Step pos ⟨.loop, i, eaten⟩ t ⟨.waitLock, i, eaten⟩ t
  | exit {i eaten : ℕ} {t : Table n} (h : ¬i < 3) :
      Step pos ⟨.loop, i, eaten⟩ t ⟨.exited, i, eaten⟩ t
  | sit {i eaten v : ℕ} {t : Table n} (h : t.lock = v + 1) :
      Step pos ⟨.waitLock, i, eaten⟩ t ⟨.waitFork, i, eaten⟩ { t with lock := v }
  | takeFork {i eaten v : ℕ} {t : Table n} (h : t.forks pos = v + 1) :
      Step pos ⟨.waitFork, i, eaten⟩ t ⟨.waitNext, i, eaten⟩
        { t with forks := Function.update t.forks pos v }
  | takeNext {i eaten v : ℕ} {t : Table n} (h : t.forks (next pos) = v + 1) :
      Step pos ⟨.waitNext, i, eaten⟩ t ⟨.eating, i, eaten⟩
        { t with forks := Function.update t.forks (next pos) v }
  | eat {i eaten : ℕ} {t : Table n} :
      Step pos ⟨.eating, i, eaten⟩ t ⟨.postFork, i, eaten + 1⟩ t
  | giveFork {i eaten : ℕ} {t : Table n} :
      Step pos ⟨.postFork, i, eaten⟩ t ⟨.postNext, i, eaten⟩ (t.postFork pos)
  | giveNext {i eaten : ℕ} {t : Table n} :
      Step pos ⟨.postNext, i, eaten⟩ t ⟨.postLock, i, eaten⟩ (t.postFork (next pos))
  | stand {i eaten : ℕ} {t : Table n} :
      Step pos ⟨.postLock, i, eaten⟩ t ⟨.loop, i + 1, eaten⟩ { t with lock := t.lock + 1 }

section Step

variable {pos : Fin n} {self self' : Phil} {t t' : Table n}

theorem Table.waitFork_eq_some_iff {j : Fin n} :
    t.waitFork j = some t' ↔ ∃ v, t.forks j = v + 1 ∧
      { t with forks := Function.update t.forks j v } = t' := by
  unfold Table.waitFork
  simp only [Option.map_eq_some_iff, semWait_eq_some_iff]

theorem phil_step (h : phil pos () self t = some (self', t')) : Step pos self t self' t' := by
  obtain ⟨pc, i, eaten⟩ := self
  cases pc with
  | loop =>
    simp only [phil] at h
    split_ifs at h with hi
    · cases h
      exact .again hi
    · cases h
      exact .exit hi
  | waitLock =>
    simp only [phil, Option.map_eq_some_iff, semWait_eq_some_iff] at h
    obtain ⟨v, hv, h⟩ := h
    cases h
    exact .sit hv
  | waitFork =>
    simp only [phil, Option.map_eq_some_iff, Table.waitFork_eq_some_iff] at h
    obtain ⟨_, ⟨v, hv, rfl⟩, h⟩ := h
    cases h
    exact .takeFork hv
  | waitNext =>
    simp only [phil, Option.map_eq_some_iff, Table.waitFork_eq_some_iff] at h
    obtain ⟨_, ⟨v, hv, rfl⟩, h⟩ := h
    cases h
    exact .takeNext hv
  | eating =>
    cases h
    exact .eat
  | postFork =>
    cases h
    exact .giveFork
  | postNext =>
    cases h
    exact .giveNext
  | postLock =>
    cases h
    exact .stand
  | exited => cases h

/-- A step changes `lock` as it changes whether the philosopher is seated. -/
theorem Step.lock (h : Step pos self t self' t') :
    t'.lock + self'.seated.toNat = t.lock + self.seated.toNat := by
  cases h with
  | sit h => simp [Phil.seated, h]
  | _ => rfl

/-- A step changes each fork as it changes whether the philosopher holds it. -/
theorem Step.forks (hn : 2 ≤ n) (h : Step pos self t self' t') (j : Fin n) :
    t'.forks j + (holdsFork j pos self').toNat = t.forks j + (holdsFork j pos self).toNat := by
  have hne := next_ne hn pos
  cases h with
  | takeFork h | takeNext h =>
    by_cases hj : j = pos <;> by_cases hk : j = next pos <;>
      simp_all [holdsFork, Phil.hasFork, Phil.hasNext, eq_comm]
  | giveFork | giveNext =>
    by_cases hj : j = pos <;> by_cases hk : j = next pos <;>
      simp_all [holdsFork, Phil.hasFork, Phil.hasNext, Table.postFork, eq_comm]
  | _ => rfl

theorem Step.counts (h : Step pos self t self' t') (hc : self.Counts) : self'.Counts := by
  cases h <;> simp only [Phil.Counts] at hc ⊢ <;> omega

/-- The steps that a philosopher has left. -/
def Phil.work (self : Phil) : ℕ :=
  match self.pc with
  | .loop => 8 * (3 - self.i) + 1
  | .waitLock => 8 * (3 - self.i)
  | .waitFork => 8 * (3 - self.i) - 1
  | .waitNext => 8 * (3 - self.i) - 2
  | .eating => 8 * (3 - self.i) - 3
  | .postFork => 8 * (3 - self.i) - 4
  | .postNext => 8 * (3 - self.i) - 5
  | .postLock => 8 * (3 - self.i) - 6
  | .exited => 0

theorem Step.work (h : Step pos self t self' t') (hc : self.Counts) :
    self'.work + 1 = self.work := by
  cases h <;> simp only [Phil.Counts, Phil.work] at hc ⊢ <;> omega

end Step

/-! ## All runs -/

section Runs

variable {c c' : Conf (Fin n) Phil (Table n)}

theorem inv_start (n : ℕ) : Inv (start n) where
  lock := by
    have hcount : count (fun _ => Phil.seated) (start n).loc = 0 :=
      count_eq_zero_iff.mpr fun _ => rfl
    rw [hcount]
    rfl
  forks j := by
    have hcount : count (holdsFork j) (start n).loc = 0 :=
      count_eq_zero_iff.mpr fun pos => by simp [start, holdsFork, Phil.hasFork, Phil.hasNext]
    rw [hcount]
    rfl
  counts _ := ⟨Nat.zero_le 3, rfl⟩

theorem Inv.step (hn : 2 ≤ n) (hI : Inv c) {pos : Fin n} {self : Phil} {t : Table n}
    (h : Step pos (c.loc pos) c.sh self t) : Inv ⟨Function.update c.loc pos self, t⟩ where
  lock := add_count_update hI.lock h.lock
  forks j := add_count_update (hI.forks j) (h.forks hn j)
  counts j := by
    by_cases hj : j = pos
    · subst hj
      simpa using h.counts (hI.counts j)
    · simpa [hj] using hI.counts j

theorem Reachable.inv (hn : 2 ≤ n) (h : Reachable c) : Inv c :=
  Reach.invariant h (fun _ h => h ▸ inv_start n)
    fun _ _ _ _ _ hI _ hp => hI.step hn (phil_step hp)

/-- The steps that all philosophers have left. -/
def work (c : Conf (Fin n) Phil (Table n)) : ℕ := ∑ i, (c.loc i).work

/-- A philosopher that cannot move. -/
def Blocked (c : Conf (Fin n) Phil (Table n)) (pos : Fin n) : Prop := c.move phil pos () = none

theorem Blocked.cases {pos : Fin n} (h : Blocked c pos) :
    (c.loc pos).pc = .exited ∨ ((c.loc pos).pc = .waitLock ∧ c.sh.lock = 0) ∨
      ((c.loc pos).pc = .waitFork ∧ c.sh.forks pos = 0) ∨
      ((c.loc pos).pc = .waitNext ∧ c.sh.forks (next pos) = 0) := by
  simp only [Blocked, Conf.move, Option.map_eq_none_iff] at h
  cases hpc : (c.loc pos).pc with
  | loop =>
    simp only [phil, hpc] at h
    split_ifs at h
  | waitLock => simpa [phil, hpc, semWait_eq_none_iff] using h
  | waitFork => simpa [phil, hpc, Table.waitFork, semWait_eq_none_iff] using h
  | waitNext => simpa [phil, hpc, Table.waitFork, semWait_eq_none_iff] using h
  | eating | postFork | postNext | postLock => simp [phil, hpc] at h
  | exited => exact .inl rfl

end Runs

/-- Between the second fork wait and the first fork post. -/
def Phil.hasBoth (self : Phil) : Bool := self.hasFork && self.hasNext

section Exclusion

variable {c : Conf (Fin n) Phil (Table n)}

theorem Inv.count_fork_le (hI : Inv c) (j : Fin n) : count (holdsFork j) c.loc ≤ 1 := by
  have hfork := hI.forks j
  omega

/-- The fork between two neighbours is the next one of the first and the own one of the second. -/
theorem Inv.not_both (hn : 2 ≤ n) (hI : Inv c) (pos : Fin n) (hpos : (c.loc pos).hasBoth = true) :
    (c.loc (next pos)).hasBoth = false := by
  obtain ⟨-, hnext⟩ := (Bool.and_eq_true _ _).mp hpos
  have hholds : holdsFork (next pos) pos (c.loc pos) = true := by
    simp [holdsFork, hnext]
  have hother := eq_false_of_count_le_one (hI.count_fork_le (next pos)) hholds (next_ne hn pos)
  by_contra hboth
  rw [Bool.not_eq_false] at hboth
  obtain ⟨hfork, -⟩ := (Bool.and_eq_true _ _).mp hboth
  simp [holdsFork, hfork] at hother

/-- **Fork exclusion.** Each fork semaphore is `1` less the number of philosophers that have waited on it
and not yet posted it, of which there is at most one, and no two neighbours are between their second
fork wait and their first fork post. -/
theorem fork_exclusion (hn : 2 ≤ n) (h : Reachable c) :
    (∀ j, c.sh.forks j = 1 - count (holdsFork j) c.loc ∧ count (holdsFork j) c.loc ≤ 1) ∧
      ∀ pos pos', pos' = next pos ∨ pos = next pos' →
        ¬ ((c.loc pos).hasBoth = true ∧ (c.loc pos').hasBoth = true) := by
  have hI := Reachable.inv hn h
  refine ⟨fun j => ⟨?_, hI.count_fork_le j⟩, ?_⟩
  · have hfork := hI.forks j
    omega
  · rintro pos pos' (rfl | rfl) ⟨h₁, h₂⟩
    · rw [hI.not_both hn pos h₁] at h₂
      cases h₂
    · rw [hI.not_both hn pos' h₂] at h₁
      cases h₁

end Exclusion

/-- Two philosophers; while the first eats, the second does not. -/
theorem fork_exclusion_two : 2 ≤ 2 ∧ ∃ c : Conf (Fin 2) Phil (Table 2), Reachable c ∧
    (c.loc 0).hasBoth = true ∧ (c.loc 1).hasBoth = false := by
  refine ⟨le_rfl, ?_⟩
  obtain ⟨c, hc, hboth⟩ := @exists_reach _ _ _ _ _ phil (· = start 2) anyMove _ _ rfl
    [(0, ()), (0, ()), (0, ()), (0, ())] (fun c => (c.loc 0).hasBoth) (by decide)
  have hnot := (fork_exclusion le_rfl hc).2 0 1 (.inl rfl)
  exact ⟨c, hc, hboth, by simpa [hboth] using hnot⟩

end Cs444.Philosopher
