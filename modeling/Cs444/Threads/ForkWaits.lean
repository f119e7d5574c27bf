import Cs444.Threads.Forks

/-!
# A philosopher waits for one that eats

`get_forks` waits for the left fork only, and then holds nothing. So what a philosopher waits for is the
right fork of its neighbour, and a philosopher with its right fork has both of them, eats, and never
waits before it puts them back.

`fork_comes_back`: five moves of the neighbour give the fork back, whatever the others do in between.
There is no deadlock.
-/

namespace Cs444.Forks

/-- How many moves it is until the right fork is released. -/
def untilRight : Pc → ℕ
  | .eat => 5
  | .putAcquireLeft => 4
  | .putReleaseLeft => 3
  | .putAcquireRight => 2
  | .putReleaseRight => 1
  | _ => 0

variable {x y : Fin 5} {pc pc' : Pc} {s s' : Shared} {c c' : Conf (Option (Fin 5)) Pc Shared}
  {as : List (Option (Fin 5) × Fin 5)}

theorem untilRight_pos (h : hasRight pc = true) : 0 < untilRight pc ∧ untilRight pc ≤ 5 := by
  cases pc <;> simp [hasRight, untilRight] at h ⊢

/-- A philosopher with its right fork can move. -/
theorem philosopher_isSome (h : hasRight pc = true) (y : Fin 5) (s : Shared) :
    (philosopher y pc s).isSome = true := by
  cases pc <;> first | rfl | cases h

/-- A move of a philosopher with its right fork releases the fork, or brings the release nearer. -/
theorem philosopher_untilRight (h : philosopher y pc s = some (pc', s')) (ho : Owns y pc s)
    (hr : hasRight pc = true) :
    s'.forks (rightFork y) = none ∨ hasRight pc' = true ∧ untilRight pc' + 1 = untilRight pc := by
  cases pc with
  | eat | putAcquireLeft | putAcquireRight =>
    cases h
    exact .inr ⟨rfl, rfl⟩
  | putReleaseLeft =>
    simp only [philosopher, Shared.release, ho.left rfl] at h
    cases h
    exact .inr ⟨rfl, rfl⟩
  | putReleaseRight =>
    simp only [philosopher, Shared.release, ho.right rfl] at h
    cases h
    exact .inl (Function.update_self ..)
  | _ => cases hr

/-- The moves of `y` in a schedule. -/
def movesOf (y : Fin 5) (as : List (Option (Fin 5) × Fin 5)) : ℕ := as.countP fun a => a.1 = some y

theorem movesOf_cons (y : Fin 5) (a : Option (Fin 5) × Fin 5) (as : List (Option (Fin 5) × Fin 5)) :
    movesOf y (a :: as) = movesOf y as + if a.1 = some y then 1 else 0 := by
  unfold movesOf
  rw [List.countP_cons]
  simp only [decide_eq_true_eq]

/-- One move of anybody. -/
theorem Inv.move_untilRight (hI : Inv c) (hr : hasRight (c.loc (some y)) = true) {i : Option (Fin 5)}
    {t : Fin 5} (hm : c.move threads i t = some c') :
    c'.sh.forks (rightFork y) = none ∨ hasRight (c'.loc (some y)) = true ∧
      untilRight (c'.loc (some y)) + (if i = some y then 1 else 0) = untilRight (c.loc (some y)) := by
  obtain ⟨pc, s, hp, rfl⟩ := Conf.move_eq_some_iff.mp hm
  dsimp only
  by_cases hi : i = some y
  · subst hi
    rw [if_pos rfl, Function.update_self]
    exact philosopher_untilRight hp (hI y) hr
  · rw [if_neg hi, Function.update_of_ne (Ne.symm hi)]
    exact .inr ⟨hr, rfl⟩

theorem Inv.move (hI : Inv c) {i : Option (Fin 5)} {t : Fin 5} (hok : FindsDining c i t)
    (hm : c.move threads i t = some c') : Inv c' := by
  obtain ⟨pc, s, hp, rfl⟩ := Conf.move_eq_some_iff.mp hm
  exact hI.step hok hp

/-- After as many moves of its holder as it is away from the release, the fork is free. -/
theorem Inv.right_released (hI : Inv c) (hr : hasRight (c.loc (some y)) = true)
    (hm : c.movesIf threads FindsDining as = some c')
    (hcount : untilRight (c.loc (some y)) ≤ movesOf y as) :
    ∃ as₁ as₂ c₁, as = as₁ ++ as₂ ∧ c.movesIf threads FindsDining as₁ = some c₁ ∧
      c₁.sh.forks (rightFork y) = none := by
  induction as generalizing c with
  | nil =>
    have hpos := (untilRight_pos hr).1
    have hzero : movesOf y [] = 0 := rfl
    omega
  | cons a as ih =>
    rw [movesOf_cons] at hcount
    unfold Conf.movesIf at hm
    split_ifs at hm with hok
    obtain ⟨c₁, h₁, h₂⟩ := Option.bind_eq_some_iff.mp hm
    have hfirst : ∀ as₁, c.movesIf threads FindsDining (a :: as₁) =
        c₁.movesIf threads FindsDining as₁ := by
      intro as₁
      rw [Conf.movesIf, if_pos hok, h₁]
      rfl
    rcases hI.move_untilRight hr h₁ with hfree | ⟨hr₁, huntil⟩
    · exact ⟨[a], as, c₁, rfl, hfirst [], hfree⟩
    · -- the rest of the schedule frees the fork
      obtain ⟨as₁, as₂, c₂, rfl, hm₂, hfree⟩ := ih (hI.move hok h₁) hr₁ h₂ (by omega)
      exact ⟨a :: as₁, as₂, c₂, rfl, (hfirst as₁).trans hm₂, hfree⟩

theorem rightFork_of_holder (hI : Inv c) (hx : c.loc (some x) = .acquireLeft)
    (hy : c.sh.forks (leftFork x) = some y) :
    leftFork x = rightFork y ∧ hasRight (c.loc (some y)) = true := by
  rcases (hI y (leftFork x)).mp hy with ⟨hfork, hleft⟩ | h
  · -- the philosopher does not hold its own left fork
    obtain rfl : x = y := hfork
    rw [hx] at hleft
    cases hleft
  · exact h

/-- **No deadlock**: as long as no `get_forks` finds the flag cleared, a philosopher waits only for the
right fork of its neighbour, which can move, and which has put the fork back by its fifth move from then
on, whatever the others do in between. -/
theorem fork_comes_back (h : Reach threads (· = start) FindsDining c) (hx : c.loc (some x) = .acquireLeft)
    (hwait : philosopher x (c.loc (some x)) c.sh = none) :
    ∃ y, rightFork y = leftFork x ∧ c.sh.forks (leftFork x) = some y ∧
      (philosopher y (c.loc (some y)) c.sh).isSome = true ∧
      ∀ as c', c.movesIf threads FindsDining as = some c' → 5 ≤ movesOf y as →
        ∃ as₁ as₂ c₁, as = as₁ ++ as₂ ∧ c.movesIf threads FindsDining as₁ = some c₁ ∧
          c₁.sh.forks (leftFork x) = none := by
  have hI := inv_of_reach h
  obtain ⟨y, hy⟩ : ∃ y, c.sh.forks (leftFork x) = some y := by
    rw [← Option.ne_none_iff_exists']
    intro hfree
    rw [hx] at hwait
    simp only [philosopher, Shared.acquire, if_pos hfree] at hwait
    cases hwait
  obtain ⟨hfork, hr⟩ := rightFork_of_holder hI hx hy
  refine ⟨y, hfork.symm, hy, philosopher_isSome hr y _, fun as c' hm hcount => ?_⟩
  rw [hfork]
  exact hI.right_released hr hm ((untilRight_pos hr).2.trans hcount)

/-- Philosopher 0 eats, and philosopher 1 waits for its right fork. -/
theorem fork_comes_back_first : ∃ c : Conf (Option (Fin 5)) Pc Shared,
    Reach threads (· = start) FindsDining c ∧ c.loc (some 0) = .eat ∧ c.loc (some 1) = .acquireLeft ∧
      ∃ y, rightFork y = leftFork 1 ∧ c.sh.forks (leftFork 1) = some y ∧
        (philosopher y (c.loc (some y)) c.sh).isSome = true := by
  obtain ⟨c, hc, hP⟩ := @exists_reach _ _ _ _ _ threads (· = start) FindsDining start _ rfl
    (List.replicate 5 (some 0, 0) ++ List.replicate 3 (some 1, 0))
    (fun c => c.loc (some 0) = .eat && c.loc (some 1) = .acquireLeft &&
      (philosopher 1 (c.loc (some 1)) c.sh).isNone) (by decide)
  simp only [Bool.and_eq_true, decide_eq_true_eq, Option.isNone_iff_eq_none] at hP
  obtain ⟨⟨h₀, h₁⟩, hwait⟩ := hP
  obtain ⟨y, hfork, hy, hmove, -⟩ := fork_comes_back hc h₁ hwait
  exact ⟨c, hc, h₀, h₁, y, hfork, hy, hmove⟩

end Cs444.Forks
