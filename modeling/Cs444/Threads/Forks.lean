import Cs444.Lib.Threads

/-!
# The dining philosophers of `concurrency.py`

Five threads take two forks each, which are `threading.Lock`s, and `main` clears their `dining` flags
while they run. A `Lock` has no owner: anybody can release it. The model remembers who acquired it.

`get_forks` also returns, without the forks, when it finds `dining` cleared; the philosopher then eats
all the same, and `put_forks` gives back what others hold.

* `Owns` says which forks a philosopher holds at each place, as long as no `get_forks` ends that way.
* `forks_held_of_findsDining`: up to the first such return philosophers eat with their two forks and
  release only these; right after it one eats without.
-/

namespace Cs444.Forks

/-! ## The code -/

/-- The places of a `Philosopher`. -/
inductive Pc
  /-- `while self.dining` of `run` -/
  | run
  | think
  /-- `while self.dining` of `get_forks` -/
  | getForks
  | acquireLeft
  | acquireRight
  /-- `self.left_fork.acquire(False)` before the next try -/
  | reacquireLeft
  | releaseLeft
  | eat
  | putAcquireLeft
  | putReleaseLeft
  | putAcquireRight
  | putReleaseRight
  | exited
  /-- `release` of an unlocked lock raised an exception. -/
  | raised
  deriving DecidableEq, Repr

/-- The forks, each with the philosopher that acquired it, and the flags. -/
structure Shared where
  forks : Fin 5 → Option (Fin 5)
  dining : Fin 5 → Bool

/-- `forks[x % 5]`. -/
def leftFork (x : Fin 5) : Fin 5 := x

/-- `forks[(x+1) % 5]`. -/
def rightFork (x : Fin 5) : Fin 5 := x + 1

def Shared.setFork (s : Shared) (f : Fin 5) (o : Option (Fin 5)) : Shared :=
  { s with forks := Function.update s.forks f o }

/-- `acquire(True)` by `x`, which waits until the lock is free. -/
def Shared.acquire (s : Shared) (f x : Fin 5) : Option Shared :=
  if s.forks f = none then some (s.setFork f (some x)) else none

/-- `acquire(False)` by `x`: the state after it, and what it returns. -/
def Shared.tryAcquire (s : Shared) (f x : Fin 5) : Shared × Bool :=
  if s.forks f = none then (s.setFork f (some x), true) else (s, false)

/-- `release()`; it raises an exception when the lock is free. -/
def Shared.release (s : Shared) (f : Fin 5) (pc : Pc) : Pc × Shared :=
  if s.forks f = none then (.raised, s) else (pc, s.setFork f none)

/-- One step of the philosopher `x`. -/
def philosopher (x : Fin 5) (pc : Pc) (s : Shared) : Option (Pc × Shared) :=
  match pc with
  | .run => some (if s.dining x then .think else .exited, s)
  | .think => some (.getForks, s)
  | .getForks => some (if s.dining x then .acquireLeft else .eat, s)
  | .acquireLeft => (s.acquire (leftFork x) x).map fun s => (.acquireRight, s)
  | .acquireRight =>
    let (s, procuredLock) := s.tryAcquire (rightFork x) x
    some (if procuredLock then .eat else .reacquireLeft, s)
  | .reacquireLeft => some (.releaseLeft, (s.tryAcquire (leftFork x) x).1)
  | .releaseLeft => some (s.release (leftFork x) .getForks)
  | .eat => some (.putAcquireLeft, s)
  | .putAcquireLeft => some (.putReleaseLeft, (s.tryAcquire (leftFork x) x).1)
  | .putReleaseLeft => some (s.release (leftFork x) .putAcquireRight)
  | .putAcquireRight => some (.putReleaseRight, (s.tryAcquire (rightFork x) x).1)
  | .putReleaseRight => some (s.release (rightFork x) .run)
  | .exited | .raised => none

/-- The philosophers, and `main` (`none`), which clears the flag it is told to. -/
def threads : Prog (Option (Fin 5)) (Fin 5) Pc Shared := fun i t pc s =>
  match i with
  | some x => philosopher x pc s
  | none => some (pc, { s with dining := Function.update s.dining t false })

/-- All forks on the table and all flags set. -/
def start : Conf (Option (Fin 5)) Pc Shared := ⟨fun _ => .run, fun _ => none, fun _ => true⟩

/-! ## What the philosophers should keep to -/

/-- The lock that the next step releases. -/
def released (x : Fin 5) : Pc → Option (Fin 5)
  | .releaseLeft | .putReleaseLeft => some (leftFork x)
  | .putReleaseRight => some (rightFork x)
  | _ => none

/-- Philosophers eat with their two forks, neighbours do not eat together, and a release is of a lock
that the philosopher holds. -/
structure Safe (c : Conf (Option (Fin 5)) Pc Shared) : Prop where
  eat : ∀ x, c.loc (some x) = .eat →
    c.sh.forks (leftFork x) = some x ∧ c.sh.forks (rightFork x) = some x
  neighbours : ∀ x y, rightFork x = leftFork y → ¬ (c.loc (some x) = .eat ∧ c.loc (some y) = .eat)
  release : ∀ x, ∀ f ∈ released x (c.loc (some x)), c.sh.forks f = some x

/-- If the step is the test of `get_forks`, it finds the flag set. -/
def FindsDining (c : Conf (Option (Fin 5)) Pc Shared) (i : Option (Fin 5)) (_ : Fin 5) : Prop :=
  ∀ x, i = some x → c.loc (some x) = .getForks → c.sh.dining x = true

instance (c : Conf (Option (Fin 5)) Pc Shared) (i : Option (Fin 5)) (t : Fin 5) :
    Decidable (FindsDining c i t) :=
  inferInstanceAs (Decidable (∀ x, i = some x → c.loc (some x) = .getForks → c.sh.dining x = true))

/-! ## Who holds what -/

/-- Between the `acquire` and the `release` of the left fork. -/
def hasLeft : Pc → Bool
  | .acquireRight | .reacquireLeft | .releaseLeft | .eat | .putAcquireLeft | .putReleaseLeft => true
  | _ => false

/-- Between the `acquire` and the `release` of the right fork. -/
def hasRight : Pc → Bool
  | .eat | .putAcquireLeft | .putReleaseLeft | .putAcquireRight | .putReleaseRight => true
  | _ => false

/-- The philosopher `x` at `pc` holds these forks and no others. -/
def Owns (x : Fin 5) (pc : Pc) (s : Shared) : Prop :=
  ∀ f, s.forks f = some x ↔ f = leftFork x ∧ hasLeft pc = true ∨ f = rightFork x ∧ hasRight pc = true

section Step

variable {x : Fin 5} {pc pc' : Pc} {s s' : Shared}

theorem leftFork_ne_rightFork (x : Fin 5) : leftFork x ≠ rightFork x := by
  revert x
  decide

theorem Shared.tryAcquire_free {f : Fin 5} (h : s.forks f = none) :
    s.tryAcquire f x = (s.setFork f (some x), true) :=
  if_pos h

theorem Shared.tryAcquire_taken {f : Fin 5} (h : s.forks f ≠ none) : s.tryAcquire f x = (s, false) :=
  if_neg h

/-- What a step does to the forks: it takes a free one, gives back its own one, or leaves them
alone. -/
inductive Changes (x : Fin 5) (pc : Pc) (s : Shared) (pc' : Pc) : Shared → Prop
  | none (hl : hasLeft pc' = hasLeft pc) (hr : hasRight pc' = hasRight pc) : Changes x pc s pc' s
  | takeLeft (hfree : s.forks (leftFork x) = .none) (hl : hasLeft pc' = true)
      (hr : hasRight pc' = hasRight pc) : Changes x pc s pc' (s.setFork (leftFork x) (some x))
  | takeRight (hfree : s.forks (rightFork x) = .none) (hl : hasLeft pc' = hasLeft pc)
      (hr : hasRight pc' = true) : Changes x pc s pc' (s.setFork (rightFork x) (some x))
  | giveLeft (hown : s.forks (leftFork x) = some x) (hl : hasLeft pc' = false)
      (hr : hasRight pc' = hasRight pc) : Changes x pc s pc' (s.setFork (leftFork x) .none)
  | giveRight (hown : s.forks (rightFork x) = some x) (hl : hasLeft pc' = hasLeft pc)
      (hr : hasRight pc' = false) : Changes x pc s pc' (s.setFork (rightFork x) .none)

theorem Owns.left (ho : Owns x pc s) (h : hasLeft pc = true) : s.forks (leftFork x) = some x :=
  (ho _).mpr (.inl ⟨rfl, h⟩)

theorem Owns.right (ho : Owns x pc s) (h : hasRight pc = true) : s.forks (rightFork x) = some x :=
  (ho _).mpr (.inr ⟨rfl, h⟩)

theorem philosopher_changes (h : philosopher x pc s = some (pc', s')) (ho : Owns x pc s)
    (hd : pc = .getForks → s.dining x = true) : Changes x pc s pc' s' := by
  cases pc with
  | run =>
    cases h
    split_ifs
    · exact .none rfl rfl
    · exact .none rfl rfl
  | think | eat =>
    cases h
    exact .none rfl rfl
  | getForks =>
    cases h
    rw [if_pos (hd rfl)]
    exact .none rfl rfl
  | acquireLeft =>
    simp only [philosopher, Shared.acquire] at h
    split_ifs at h with hfree
    · cases h
      exact .takeLeft hfree rfl rfl
    · cases h
  | acquireRight =>
    by_cases hfree : s.forks (rightFork x) = .none
    · simp only [philosopher, Shared.tryAcquire_free hfree] at h
      cases h
      exact .takeRight hfree rfl rfl
    · simp only [philosopher, Shared.tryAcquire_taken hfree] at h
      cases h
      exact .none rfl rfl
  -- the second `acquire(False)` is of a fork that the philosopher holds
  | reacquireLeft | putAcquireLeft =>
    simp only [philosopher, Shared.tryAcquire, ho.left rfl] at h
    cases h
    exact .none rfl rfl
  | putAcquireRight =>
    simp only [philosopher, Shared.tryAcquire, ho.right rfl] at h
    cases h
    exact .none rfl rfl
  | releaseLeft | putReleaseLeft =>
    simp only [philosopher, Shared.release, ho.left rfl] at h
    cases h
    exact .giveLeft (ho.left rfl) rfl rfl
  | putReleaseRight =>
    simp only [philosopher, Shared.release, ho.right rfl] at h
    cases h
    exact .giveRight (ho.right rfl) rfl rfl
  | exited | raised => cases h

theorem Changes.owns (h : Changes x pc s pc' s') (ho : Owns x pc s) : Owns x pc' s' := by
  have hne := leftFork_ne_rightFork x
  intro f
  have hf := ho f
  cases h with
  | none hl hr => rw [hl, hr, hf]
  | takeLeft _ hl hr | giveLeft _ hl hr =>
    by_cases e : f = leftFork x
    · rw [e]
      simp [Shared.setFork, hl, hne]
    · simpa [Shared.setFork, hr, e] using hf
  | takeRight _ hl hr | giveRight _ hl hr =>
    by_cases e : f = rightFork x
    · rw [e]
      simp [Shared.setFork, hr, hne.symm]
    · simpa [Shared.setFork, hl, e] using hf

/-- The others keep their forks. -/
theorem Changes.frame (h : Changes x pc s pc' s') {y : Fin 5} (hy : y ≠ x) (f : Fin 5) :
    s'.forks f = some y ↔ s.forks f = some y := by
  cases h with
  | none => rfl
  | takeLeft hfork | giveLeft hfork =>
    by_cases e : f = leftFork x
    · rw [e]
      simp [Shared.setFork, hfork, hy.symm]
    · simp [Shared.setFork, e]
  | takeRight hfork | giveRight hfork =>
    by_cases e : f = rightFork x
    · rw [e]
      simp [Shared.setFork, hfork, hy.symm]
    · simp [Shared.setFork, e]

end Step

/-! ## All runs -/

section Runs

variable {c c' : Conf (Option (Fin 5)) Pc Shared}

/-- Each philosopher holds the forks of its place. -/
def Inv (c : Conf (Option (Fin 5)) Pc Shared) : Prop := ∀ x, Owns x (c.loc (some x)) c.sh

theorem inv_start : Inv start := by
  intro x f
  simp [start, hasLeft, hasRight]

theorem Inv.step (hI : Inv c) {i : Option (Fin 5)} {t : Fin 5} (hok : FindsDining c i t) {pc : Pc}
    {s : Shared} (h : threads i t (c.loc i) c.sh = some (pc, s)) :
    Inv ⟨Function.update c.loc i pc, s⟩ := by
  intro y
  cases i with
  | none =>
    cases h
    rw [Function.update_eq_self]
    exact hI y
  | some x =>
    have hchange := philosopher_changes h (hI x) (hok x rfl)
    by_cases hy : y = x
    · subst hy
      simpa using hchange.owns (hI y)
    · intro f
      show s.forks f = some y ↔ _
      rw [hchange.frame hy, hI y f]
      simp [hy]

theorem inv_of_reach (h : Reach threads (· = start) FindsDining c) : Inv c :=
  h.invariant (fun _ h => h ▸ inv_start) fun _ _ _ _ _ hI hok hp => hI.step hok hp

theorem Inv.safe (hI : Inv c) : Safe c := by
  have heat : ∀ x, c.loc (some x) = .eat →
      c.sh.forks (leftFork x) = some x ∧ c.sh.forks (rightFork x) = some x := by
    intro x hx
    exact ⟨(hI x).left (by rw [hx]; rfl), (hI x).right (by rw [hx]; rfl)⟩
  refine ⟨heat, ?_, ?_⟩
  · rintro x y hxy ⟨hx, hy⟩
    have hfork := (heat x hx).2
    rw [hxy, (heat y hy).1, Option.some_inj] at hfork
    subst hfork
    exact leftFork_ne_rightFork y hxy.symm
  · intro x f hf
    cases hpc : c.loc (some x) with
    | releaseLeft | putReleaseLeft =>
      rw [hpc] at hf
      cases hf
      exact (hI x).left (by rw [hpc]; rfl)
    | putReleaseRight =>
      rw [hpc] at hf
      cases hf
      exact (hI x).right (by rw [hpc]; rfl)
    | _ =>
      rw [hpc] at hf
      cases hf

/-- A philosopher that finds the flag cleared eats without forks. -/
theorem Inv.not_safe (hI : Inv c) {i : Option (Fin 5)} {t : Fin 5} (hok : ¬ FindsDining c i t)
    (hm : c.move threads i t = some c') : ¬ Safe c' := by
  obtain ⟨pc, s, hp, rfl⟩ := Conf.move_eq_some_iff.mp hm
  simp only [FindsDining, not_forall] at hok
  obtain ⟨x, hx, hpc, hdining⟩ := hok
  cases hx
  simp only [threads, philosopher, hpc, hdining, Option.some_inj, Prod.mk.injEq] at hp
  obtain ⟨rfl, rfl⟩ := hp
  intro hsafe
  have hfork := (hsafe.eat x (by simp)).1
  rw [hI x, hpc] at hfork
  simp [hasLeft, hasRight] at hfork

end Runs

/-- **Philosophers eat with their forks** in every run in which no `get_forks` finds the flag cleared,
and the first that does ends in a meal without forks. -/
theorem forks_held_of_findsDining {c : Conf (Option (Fin 5)) Pc Shared}
    (h : Reach threads (· = start) FindsDining c) :
    Safe c ∧ ∀ i t c', c.move threads i t = some c' → ¬ FindsDining c i t → ¬ Safe c' :=
  ⟨(inv_of_reach h).safe, fun _ _ _ hm hok => (inv_of_reach h).not_safe hok hm⟩

/-- Philosopher 0 takes both forks and eats. -/
theorem forks_held_in_meal : ∃ c : Conf (Option (Fin 5)) Pc Shared,
    Reach threads (· = start) FindsDining c ∧ c.loc (some 0) = .eat ∧ Safe c := by
  obtain ⟨c, hc, hP⟩ := @exists_reach _ _ _ _ _ threads (· = start) FindsDining start _ rfl
    [(some 0, 0), (some 0, 0), (some 0, 0), (some 0, 0), (some 0, 0)]
    (fun c => c.loc (some 0) = .eat) (by decide)
  exact ⟨c, hc, by simpa using hP, (forks_held_of_findsDining hc).1⟩

/-- Philosopher 1 eats when `main` clears the flag of philosopher 0, which is about to ask for its
forks: it eats beside its neighbour, and then releases the fork that its neighbour holds. -/
theorem eats_without_forks :
    (∃ c : Conf (Option (Fin 5)) Pc Shared, Reach threads (· = start) anyMove c ∧
      c.loc (some 0) = .eat ∧ c.loc (some 1) = .eat ∧ c.sh.forks (leftFork 0) = none ∧
      c.sh.forks (rightFork 0) = some 1 ∧ ¬ Safe c) ∧
    ∃ c : Conf (Option (Fin 5)) Pc Shared, Reach threads (· = start) anyMove c ∧
      c.loc (some 0) = .putReleaseRight ∧ c.loc (some 1) = .eat ∧
      c.sh.forks (rightFork 0) = some 1 ∧ ¬ Safe c := by
  constructor
  · obtain ⟨c, hc, hP⟩ := @exists_reach _ _ _ _ _ threads (· = start) anyMove start _ rfl
      (List.replicate 5 (some 1, 0) ++ List.replicate 2 (some 0, 0) ++ [(none, 0), (some 0, 0)])
      (fun c => c.loc (some 0) = .eat && c.loc (some 1) = .eat &&
        c.sh.forks (leftFork 0) = none && c.sh.forks (rightFork 0) = some 1) (by decide)
    simp only [Bool.and_eq_true, decide_eq_true_eq] at hP
    obtain ⟨⟨⟨h₀, h₁⟩, hleft⟩, hright⟩ := hP
    exact ⟨c, hc, h₀, h₁, hleft, hright, fun hsafe => hsafe.neighbours 0 1 rfl ⟨h₀, h₁⟩⟩
  · obtain ⟨c, hc, hP⟩ := @exists_reach _ _ _ _ _ threads (· = start) anyMove start _ rfl
      (List.replicate 5 (some 1, 0) ++ List.replicate 2 (some 0, 0) ++ [(none, 0)] ++
        List.replicate 5 (some 0, 0))
      (fun c => c.loc (some 0) = .putReleaseRight && c.loc (some 1) = .eat &&
        c.sh.forks (rightFork 0) = some 1) (by decide)
    simp only [Bool.and_eq_true, decide_eq_true_eq] at hP
    obtain ⟨⟨h₀, h₁⟩, hright⟩ := hP
    refine ⟨c, hc, h₀, h₁, hright, fun hsafe => ?_⟩
    have howner := hsafe.release 0 (rightFork 0) (by rw [h₀]; rfl)
    rw [hright] at howner
    exact absurd howner (by decide)

end Cs444.Forks
