import Cs444.Threads.Smokers

/-!
# The smokers go on for ever

* `moves_potential`: every step but the start of a cigarette uses up potential, also a wait that times
  out. So a run can only be as long as its cigarettes allow.
* `exists_move`: without timeouts the threads never all wait. The ingredients of the round cannot both
  lie on the table, since an admin that puts one there has found the other two places empty
  (`Thread.Tested`).
* `smokers_go_on`: together, cigarettes are made for ever, without any fairness.
-/

namespace Cs444.Smokers

/-! ## Potential -/

/-- How many steps a thread can take by itself until it waits, each step of others that it enables
counted. -/
def Thread.potential : Thread → ℕ
  | .smoker _ pc =>
    match pc with
    | .make => 0
    | .wait => 1
    | .smoke => 2
    | .post => 21
  | .agent _ pc =>
    match pc with
    | .lock => 0
    | .sleep => 1
    | .postSecond => 9
    | .postFirst => 17
  | .admin _ pc =>
    match pc with
    | .wait => 0
    | .unlock => 1
    | .setOwn | .postForNext | .postForAfter => 2
    | .clearNext | .clearAfter => 3
    | .ifAfter => 4
    | .ifNext => 5
    | .lock => 6

/-- The potential of the semaphores. -/
def Table.potential (s : Table) : ℕ := 18 * s.agentLock + 7 * ∑ d, s.adminSemaphores d

def potential {ι : Type*} [Fintype ι] (c : Conf ι Thread Table) : ℕ :=
  c.sh.potential + ∑ i, (c.loc i).potential

/-- The cigarettes started. -/
def Table.cigarettes (s : Table) : ℕ := ∑ k, s.started k

section Potential

variable {ι : Type*} {i : ι} {timeout : Bool} {t t' : Thread} {s s' : Table}

theorem Step.potential (h : Step s t t' s') :
    s'.potential + t'.potential + 22 * s.cigarettes + 1 ≤
      s.potential + t.potential + 22 * s'.cigarettes := by
  unfold Table.potential Table.cigarettes
  cases h with
  | make | postFirst | postSecond =>
    simp only [Thread.potential, Table.postAdmin, sum_bump]
    omega
  | agentLock h =>
    simp only [Thread.potential, h]
    omega
  | adminWait h =>
    have hsum := sum_wait h
    simp only [Thread.potential]
    omega
  | _ =>
    simp only [Thread.potential, Table.setItem, Table.postSmoker]
    omega

/-- **One step**, which may be a wait that times out. -/
theorem thread_potential (h : thread i timeout t s = some (t', s')) :
    s'.potential + t'.potential + 22 * s.cigarettes + 1 ≤
      s.potential + t.potential + 22 * s'.cigarettes := by
  cases t with
  | agent a pc => exact (agent_step h).potential
  | admin d pc => exact (admin_step h).potential
  | smoker k pc =>
    by_cases hout : pc = .wait ∧ timeout = true
    · obtain ⟨rfl, rfl⟩ := hout
      cases h
      simp only [Thread.potential]
      omega
    · have hstep : smoker false k pc s = some (t', s') := by
        cases pc with
        | wait =>
          cases timeout with
          | false => exact h
          | true => exact absurd ⟨rfl, rfl⟩ hout
        | _ => exact h
      exact (smoker_step hstep).potential

variable [Fintype ι] [DecidableEq ι]

/-- **A run** is no longer than the potential at its start and 22 steps for each cigarette allow. -/
theorem moves_potential {c c' : Conf ι Thread Table} {as : List (ι × Bool)}
    (h : c.moves thread as = some c') :
    as.length + potential c' + 22 * c.sh.cigarettes ≤ potential c + 22 * c'.sh.cigarettes := by
  induction as generalizing c with
  | nil =>
    cases h
    simp
  | cons a as ih =>
    obtain ⟨c₁, h₁, h₂⟩ := Option.bind_eq_some_iff.mp h
    obtain ⟨t, s, hp, rfl⟩ := Conf.move_eq_some_iff.mp h₁
    have hstep := thread_potential hp
    have hrest := ih h₂
    have hsum := sum_update (fun _ => Thread.potential) c.loc a.1 t
    unfold potential at hrest ⊢
    rw [List.length_cons]
    dsimp only at hrest
    omega

end Potential

/-! ## Somebody can move -/

def Thread.role : Thread → Role
  | .smoker k _ => .smoker k
  | .agent a _ => .agent a
  | .admin d _ => .admin d

/-- The places of the table that an admin has found empty are empty. -/
structure Thread.Tested (s : Table) (t : Thread) : Prop where
  next : ∀ d, t = .admin d .ifAfter ∨ t = .admin d .setOwn → s.itemsAvailable (d + 1) = false
  after : ∀ d, t = .admin d .setOwn → s.itemsAvailable (d + 2) = false

section Table

variable {t t' : Thread} {s s' : Table}

theorem Step.role (h : Step s t t' s') : t'.role = t.role := by
  cases h <;> rfl

theorem tested_of_ne (h : ∀ d, t ≠ .admin d .ifAfter) (h' : ∀ d, t ≠ .admin d .setOwn) : t.Tested s :=
  ⟨fun d hd => (hd.elim (h d) (h' d)).elim, fun d hd => (h' d hd).elim⟩

theorem admin_tested {d : Fin 3} {pc : AdminPc} (h : admin d pc s = some (t', s'))
    (ht : (Thread.admin d pc).Tested s) : t'.Tested s' := by
  cases pc with
  | ifNext =>
    cases h
    split_ifs with hitem
    · exact tested_of_ne (by simp) (by simp)
    · refine ⟨?_, by simp⟩
      rintro d' (hd | hd)
      · cases hd
        exact Bool.eq_false_of_not_eq_true hitem
      · cases hd
  | ifAfter =>
    cases h
    split_ifs with hitem
    · exact tested_of_ne (by simp) (by simp)
    · refine ⟨?_, ?_⟩
      · rintro d' (hd | hd)
        · cases hd
        · cases hd
          exact ht.next d (.inl rfl)
      · rintro d' hd
        cases hd
        exact Bool.eq_false_of_not_eq_true hitem
  | wait | lock =>
    obtain ⟨v, -, h⟩ := Option.map_eq_some_iff.mp h
    cases h
    exact tested_of_ne (by simp) (by simp)
  | _ =>
    cases h
    exact tested_of_ne (by simp) (by simp)

theorem Step.tested (h : Step s t t' s') (hp : ∀ d pc, t = .admin d pc → admin d pc s = some (t', s'))
    (ht : t.Tested s) : t'.Tested s' := by
  have hrole := h.role
  cases t with
  | admin d pc => exact admin_tested (hp d pc rfl) ht
  | smoker | agent =>
    apply tested_of_ne
    · rintro d rfl
      cases hrole
    · rintro d rfl
      cases hrole

theorem Thread.Tested.congr (h : t.Tested s)
    (hitems : t.holdsLock = true → s'.itemsAvailable = s.itemsAvailable) : t.Tested s' := by
  refine ⟨fun d hd => ?_, fun d hd => ?_⟩
  · have hholds : t.holdsLock = true := by rcases hd with rfl | rfl <;> rfl
    rw [hitems hholds]
    exact h.next d hd
  · have hholds : t.holdsLock = true := by rw [hd]; rfl
    rw [hitems hholds]
    exact h.after d hd

theorem places (d i : Fin 3) : i = d ∨ i = d + 1 ∨ i = d + 2 := by
  revert d i
  decide

/-- At most one ingredient lies on the table. -/
theorem Step.onTable_le (h : Step s t t' s') (ht : t.Tested s)
    (hown : ∀ d, t = .admin d .setOwn → s.itemsAvailable d = false) (hle : s.onTable ≤ 1) :
    s'.onTable ≤ 1 := by
  cases h with
  | @clearNext d =>
    have hsum := onTable_setItem s (d + 1) false
    rw [Bool.toNat_false] at hsum
    omega
  | @clearAfter d =>
    have hsum := onTable_setItem s (d + 2) false
    rw [Bool.toNat_false] at hsum
    omega
  | @setOwn d =>
    have hsum := onTable_setItem s d true
    have hempty : s.onTable = 0 := by
      refine Finset.sum_eq_zero fun i _ => ?_
      rcases places d i with rfl | rfl | rfl
      · rw [hown _ rfl]
        rfl
      · rw [ht.next d (.inr rfl)]
        rfl
      · rw [ht.after d rfl]
        rfl
    rw [hempty, Bool.toNat_true] at hsum
    omega
  | _ => exact hle

end Table

/-! ## All runs -/

section Runs

variable {ι : Type*} [Fintype ι] {role : ι → Role} {c : Conf ι Thread Table}

/-- With the ingredients of the round, the table is accounted for. -/
structure Going (role : ι → Role) (c : Conf ι Thread Table) : Prop where
  inv : Inv c
  role : ∀ i, (c.loc i).role = role i
  tested : ∀ i, (c.loc i).Tested c.sh
  onTable : c.sh.onTable ≤ 1

theorem going_start (role : ι → Role) : Going role (start role) := by
  refine ⟨inv_start role, fun i => ?_, fun i => ?_, Nat.zero_le 1⟩
  · show (role i).begin.role = role i
    cases role i <;> rfl
  · show (role i).begin.Tested _
    cases role i <;> exact tested_of_ne (by simp [Role.begin]) (by simp [Role.begin])

theorem Inv.count_holdsLock (hI : Inv c) : count (fun _ => Thread.holdsLock) c.loc ≤ 1 := by
  have hlock := hI.lock
  omega

variable [DecidableEq ι]

theorem going_of_reach (h : Reach thread (· = start role) NoTimeout c) : Going role c := by
  refine h.invariant (fun _ h => h ▸ going_start role) fun c i x t s hI hok hp => ?_
  have hstep := thread_step hp hok
  refine ⟨hI.inv.step hstep, ?_, ?_, ?_⟩
  · exact (Function.forall_update_iff c.loc fun j t => t.role = role j).mpr
      ⟨hstep.role.trans (hI.role i), fun j _ => hI.role j⟩
  · refine (Function.forall_update_iff c.loc fun _ t => t.Tested s).mpr
      ⟨hstep.tested (fun d pc hd => by rw [hd] at hp; exact hp) (hI.tested i), fun j hj => ?_⟩
    refine (hI.tested j).congr fun hholds => hstep.itemsAvailable ?_
    by_contra hi
    exact hj (eq_of_count_le_one hI.inv.count_holdsLock hholds (by simpa using hi))
  · exact hstep.onTable_le (hI.tested i) (fun d hd => hI.inv.setOwn hd) hI.onTable

/-- The thread waits for a semaphore that is 0. -/
def Thread.Blocked (s : Table) : Thread → Prop
  | .smoker k .wait => s.smokerSemaphors k = 0
  | .agent _ .lock => s.agentLock = 0
  | .admin d .wait => s.adminSemaphores d = 0
  | .admin _ .lock => s.adminLock = 0
  | _ => False

omit [Fintype ι] [DecidableEq ι] in
theorem blocked_of_eq_none {i : ι} {t : Thread} {s : Table} (h : thread i false t s = none) :
    t.Blocked s := by
  cases t with
  | smoker k pc =>
    cases pc with
    | wait => exact semWait_eq_none_iff.mp (Option.map_eq_none_iff.mp h)
    | _ => cases h
  | agent a pc =>
    cases pc with
    | lock => exact semWait_eq_none_iff.mp (Option.map_eq_none_iff.mp h)
    | _ => cases h
  | admin d pc =>
    cases pc with
    | wait | lock => exact semWait_eq_none_iff.mp (Option.map_eq_none_iff.mp h)
    | _ => cases h

section

variable {t : Thread} {s : Table}

theorem Thread.Blocked.smoker {k : Fin 3} (h : t.Blocked s) (hr : t.role = .smoker k) :
    s.smokerSemaphors k = 0 := by
  cases t with
  | smoker k' pc =>
    cases hr
    cases pc <;> first | exact h | exact h.elim
  | _ => cases hr

theorem Thread.Blocked.agent {a : Fin 3} (h : t.Blocked s) (hr : t.role = .agent a) : s.agentLock = 0 := by
  cases t with
  | agent a' pc => cases pc <;> first | exact h | exact h.elim
  | _ => cases hr

theorem Thread.Blocked.admin {d : Fin 3} (h : t.Blocked s) (hr : t.role = .admin d)
    (hlock : s.adminLock = 1) : s.adminSemaphores d = 0 := by
  cases t with
  | admin d' pc =>
    cases hr
    cases pc with
    | wait => exact h
    | lock => exact absurd (hlock.symm.trans h) (by decide)
    | _ => exact h.elim
  | _ => cases hr

/-- A blocked thread has no ingredients and no lock, unless it is an admin that waits for the lock. -/
theorem Thread.Blocked.idle (h : t.Blocked s) :
    t.holdsLock = false ∧ (s.adminLock = 1 → t.weight = 0) := by
  cases t with
  | smoker k pc => cases pc <;> first | exact ⟨rfl, fun _ => rfl⟩ | exact h.elim
  | agent a pc => cases pc <;> first | exact ⟨rfl, fun _ => rfl⟩ | exact h.elim
  | admin d pc =>
    cases pc with
    | wait => exact ⟨rfl, fun _ => rfl⟩
    | lock => exact ⟨rfl, fun hlock => absurd (hlock.symm.trans h) (by decide)⟩
    | _ => exact h.elim

end

/-- There are smokers and admins of every kind, and an agent. -/
structure Staffed (role : ι → Role) : Prop where
  smoker : ∀ k, ∃ i, role i = .smoker k
  agent : ∃ i a, role i = .agent a
  admin : ∀ d, ∃ i, role i = .admin d

/-- **Somebody can move** without a timeout. -/
theorem Going.exists_move (hI : Going role c) (hr : Staffed role) :
    ∃ i c', c.move thread i false = some c' := by
  by_contra hno
  push Not at hno
  have hblocked : ∀ i, (c.loc i).Blocked c.sh := by
    intro i
    apply blocked_of_eq_none (i := i)
    rw [Option.eq_none_iff_forall_ne_some]
    rintro ⟨t, s⟩ hp
    exact hno i _ (Conf.move_eq_some_iff.mpr ⟨t, s, hp, rfl⟩)
  -- the lock is free, so no admin waits for it
  have hlock : c.sh.adminLock = 1 := by
    have hcount : count (fun _ => Thread.holdsLock) c.loc = 0 :=
      count_eq_zero_iff.mpr fun i => (hblocked i).idle.1
    have hinv := hI.inv.lock
    omega
  have hthreads : ∑ i, (c.loc i).weight = 0 :=
    Finset.sum_eq_zero fun i _ => (hblocked i).idle.2 hlock
  have hsmokers : ∑ k, c.sh.smokerSemaphors k = 0 := by
    refine Finset.sum_eq_zero fun k _ => ?_
    obtain ⟨i, hi⟩ := hr.smoker k
    exact (hblocked i).smoker ((hI.role i).trans hi)
  have hadmins : ∑ d, c.sh.adminSemaphores d = 0 := by
    refine Finset.sum_eq_zero fun d _ => ?_
    obtain ⟨i, hi⟩ := hr.admin d
    exact (hblocked i).admin ((hI.role i).trans hi) hlock
  have hagents : c.sh.agentLock = 0 := by
    obtain ⟨i, a, hi⟩ := hr.agent
    exact (hblocked i).agent ((hI.role i).trans hi)
  -- then both ingredients of the round lie on the table
  have hweight := hI.inv.weight
  have htable := hI.onTable
  unfold Table.weight at hweight
  omega

omit [DecidableEq ι] in
/-- A state of a round has little potential. -/
theorem Going.potential_le (hI : Going role c) : potential c ≤ 18 + 21 * Fintype.card ι := by
  have hthread : ∀ t : Thread, t.potential ≤ 21 := by
    rintro (⟨k, pc⟩ | ⟨a, pc⟩ | ⟨d, pc⟩) <;> cases pc <;> simp [Thread.potential]
  have hsum : ∑ i, (c.loc i).potential ≤ 21 * Fintype.card ι := by
    calc ∑ i, (c.loc i).potential ≤ ∑ _i : ι, 21 := Finset.sum_le_sum fun i _ => hthread _
      _ = 21 * Fintype.card ι := by simp [mul_comm]
  have hweight := hI.inv.weight
  unfold Table.weight at hweight
  unfold potential Table.potential
  omega

/-- **The smokers go on for ever**, with smokers and admins of every kind and an agent: in every state
reached without timeouts some thread can move, and every run from there of more than `18 + 21 * n` moves
of the `n` threads, with timeouts or without, starts cigarettes, one for every 22 moves more. -/
theorem smokers_go_on (hr : Staffed role) (h : Reach thread (· = start role) NoTimeout c) :
    (∃ i c', c.move thread i false = some c') ∧
      ∀ as c', c.moves thread as = some c' →
        as.length ≤ 18 + 21 * Fintype.card ι + 22 * (c'.sh.cigarettes - c.sh.cigarettes) := by
  have hI := going_of_reach h
  refine ⟨hI.exists_move hr, fun as c' hm => ?_⟩
  have hrun := moves_potential hm
  have hle := hI.potential_le
  omega

end Runs

theorem staffed_mainRole : Staffed mainRole := by
  refine ⟨?_, ⟨.inr (.inl 0), 0, rfl⟩, fun d => ⟨.inr (.inr d), rfl⟩⟩
  intro k
  have hk := k.isLt
  refine ⟨.inl ⟨k, by omega⟩, ?_⟩
  show Role.smoker ⟨k % 3, _⟩ = _
  congr 1
  exact Fin.ext (Nat.mod_eq_of_lt hk)

/-- The threads of `main`, after one round. -/
theorem smokers_go_on_oneRound : ∃ c, Reach thread (· = start mainRole) NoTimeout c ∧ c.sh.started 2 = 1 ∧
    ∃ i c', c.move thread i false = some c' := by
  obtain ⟨c, hc, hP⟩ := @exists_reach _ _ _ _ _ thread (· = start mainRole) NoTimeout _ _ rfl oneRound
    (fun c => c.sh.started 2 = 1) (by decide +kernel)
  exact ⟨c, hc, by simpa using hP, (smokers_go_on staffed_mainRole hc).1⟩

end Cs444.Smokers
