import Mathlib

/-!
# Interleaved threads

A program says what a thread may do next, from its local state and the shared state (`Prog`). In a
configuration (`Conf`) one thread moves at a time (`Conf.move`), and `Reach p init ok` are the
configurations of all runs whose moves meet `ok`.

* `Reach.invariant`: what holds at the start and is kept by every move holds in every run.
* `Simulation`: the runs of one program are followed, move by move, by runs of another
  (`Simulation.reach`).
* `count P f`: how many threads satisfy `P`; `count_update` says what a move does to it. The value of a
  semaphore is described by such a count.
-/

namespace Cs444

variable {ι X L S : Type*}

/-! ## Programs and runs -/

/-- Threads `ι` with local states in `L` over a shared state in `S`. -/
structure Conf (ι L S : Type*) where
  loc : ι → L
  sh : S

/-- What thread `i` does next from its local state and the shared state, given the input `x` that the
step takes from outside; `none` when it cannot move. -/
abbrev Prog (ι X L S : Type*) := ι → X → L → S → Option (L × S)

section Runs

variable [DecidableEq ι]

/-- Thread `i` moves. -/
def Conf.move (p : Prog ι X L S) (c : Conf ι L S) (i : ι) (x : X) : Option (Conf ι L S) :=
  (p i x (c.loc i) c.sh).map fun q => ⟨Function.update c.loc i q.1, q.2⟩

/-- The moves of a schedule. -/
def Conf.moves (p : Prog ι X L S) : Conf ι L S → List (ι × X) → Option (Conf ι L S)
  | c, [] => some c
  | c, a :: as => (c.move p a.1 a.2).bind fun c' => c'.moves p as

/-- The moves of a schedule, as long as they meet `ok`. -/
def Conf.movesIf (p : Prog ι X L S) (ok : Conf ι L S → ι → X → Prop) [∀ c i x, Decidable (ok c i x)] :
    Conf ι L S → List (ι × X) → Option (Conf ι L S)
  | c, [] => some c
  | c, a :: as =>
    if ok c a.1 a.2 then (c.move p a.1 a.2).bind fun c' => c'.movesIf p ok as else none

/-- The configurations of all runs whose moves meet `ok`. -/
inductive Reach (p : Prog ι X L S) (init : Conf ι L S → Prop) (ok : Conf ι L S → ι → X → Prop) :
    Conf ι L S → Prop
  | init {c : Conf ι L S} (h : init c) : Reach p init ok c
  | move {c c' : Conf ι L S} (h : Reach p init ok c) (i : ι) (x : X) (hok : ok c i x)
      (hm : c.move p i x = some c') : Reach p init ok c'

/-- No condition on the moves. -/
def anyMove (_ : Conf ι L S) (_ : ι) (_ : X) : Prop := True

instance (c : Conf ι L S) (i : ι) (x : X) : Decidable (anyMove c i x) := inferInstanceAs (Decidable True)

variable {p : Prog ι X L S} {init : Conf ι L S → Prop} {ok : Conf ι L S → ι → X → Prop}
  {c c' : Conf ι L S} {i : ι} {x : X}

theorem Conf.move_eq_some_iff :
    c.move p i x = some c' ↔ ∃ l s, p i x (c.loc i) c.sh = some (l, s) ∧
      c' = ⟨Function.update c.loc i l, s⟩ := by
  unfold Conf.move
  rw [Option.map_eq_some_iff]
  constructor
  · rintro ⟨⟨l, s⟩, hp, rfl⟩
    exact ⟨l, s, hp, rfl⟩
  · rintro ⟨l, s, hp, rfl⟩
    exact ⟨(l, s), hp, rfl⟩

theorem Conf.moves_cons {l : L} {s : S} (h : p i x (c.loc i) c.sh = some (l, s))
    (as : List (ι × X)) :
    c.moves p ((i, x) :: as) = Conf.moves p ⟨Function.update c.loc i l, s⟩ as := by
  have hm : c.move p i x = some ⟨Function.update c.loc i l, s⟩ :=
    Conf.move_eq_some_iff.mpr ⟨l, s, h, rfl⟩
  rw [Conf.moves, hm]
  rfl

/-- **Invariants**: what holds at the start and is kept by every move holds in every run. -/
theorem Reach.invariant {I : Conf ι L S → Prop} (h : Reach p init ok c) (hinit : ∀ c, init c → I c)
    (hmove : ∀ c i x l s, I c → ok c i x → p i x (c.loc i) c.sh = some (l, s) →
      I ⟨Function.update c.loc i l, s⟩) : I c := by
  induction h with
  | init h => exact hinit _ h
  | move _ i x hok hm ih =>
    obtain ⟨l, s, hp, rfl⟩ := Conf.move_eq_some_iff.mp hm
    exact hmove _ i x l s ih hok hp

/-- A schedule leads to a reachable configuration. -/
theorem Reach.moves {as : List (ι × X)} (h : Reach p init anyMove c) (hm : c.moves p as = some c') :
    Reach p init anyMove c' := by
  induction as generalizing c with
  | nil =>
    cases hm
    exact h
  | cons a as ih =>
    obtain ⟨c₁, h₁, h₂⟩ := Option.bind_eq_some_iff.mp hm
    exact ih (h.move a.1 a.2 trivial h₁) h₂

/-- A run can be tested by evaluating it. -/
theorem exists_reach [∀ c i x, Decidable (ok c i x)] (hc : init c) (as : List (ι × X))
    (P : Conf ι L S → Bool) (h : (c.movesIf p ok as).any P = true) :
    ∃ c', Reach p init ok c' ∧ P c' = true := by
  suffices hrun : ∀ c₀, Reach p init ok c₀ → (c₀.movesIf p ok as).any P = true →
      ∃ c', Reach p init ok c' ∧ P c' = true from hrun c (.init hc) h
  clear h
  induction as with
  | nil =>
    intro c₀ h₀ h
    exact ⟨c₀, h₀, h⟩
  | cons a as ih =>
    intro c₀ h₀ h
    unfold Conf.movesIf at h
    split_ifs at h with hok
    · obtain ⟨c', hc', hP⟩ := (Option.any_eq_true P _).mp h
      obtain ⟨c₁, h₁, h₂⟩ := Option.bind_eq_some_iff.mp hc'
      exact ih c₁ (h₀.move a.1 a.2 hok h₁) ((Option.any_eq_true P _).mpr ⟨c', h₂, hP⟩)
    · simp at h

/-- A run of some of the threads is a run of all of them. -/
theorem Reach.embed {κ : Type*} [DecidableEq κ] {q : Prog κ X L S} {f : ι → κ}
    (hf : Function.Injective f) (hpq : ∀ i x, q (f i) x = p i x) {c₀ : Conf ι L S} {d₀ : Conf κ L S}
    (hloc : ∀ i, d₀.loc (f i) = c₀.loc i) (hsh : d₀.sh = c₀.sh) (h : Reach p (· = c₀) anyMove c) :
    ∃ d, Reach q (· = d₀) anyMove d ∧ (∀ i, d.loc (f i) = c.loc i) ∧ d.sh = c.sh := by
  induction h with
  | init h =>
    subst h
    exact ⟨d₀, .init rfl, hloc, hsh⟩
  | move _ i x _ hm ih =>
    obtain ⟨d, hd, hdloc, hdsh⟩ := ih
    obtain ⟨l, s, hp, rfl⟩ := Conf.move_eq_some_iff.mp hm
    refine ⟨⟨Function.update d.loc (f i) l, s⟩, hd.move (f i) x trivial ?_, fun j => ?_, rfl⟩
    · refine Conf.move_eq_some_iff.mpr ⟨l, s, ?_, rfl⟩
      rw [hpq, hdloc, hdsh]
      exact hp
    · by_cases hj : j = i
      · subst hj
        simp
      · simp [hf.ne hj, hj, hdloc]

/-- Along `R` every run of `p` with moves that meet `ok` is followed by a run of `q`, which makes any
number of moves for each move of `p`. -/
structure Simulation {κ Y M T : Type*} [DecidableEq κ] (p : Prog ι X L S) (init : Conf ι L S → Prop)
    (ok : Conf ι L S → ι → X → Prop) (q : Prog κ Y M T) (init' : Conf κ M T → Prop)
    (R : Conf ι L S → Conf κ M T → Prop) : Prop where
  init : ∀ c, init c → ∃ a, init' a ∧ R c a
  move : ∀ c a i x c', R c a → ok c i x → c.move p i x = some c' →
    ∃ as a', a.moves q as = some a' ∧ R c' a'

theorem Simulation.reach {κ Y M T : Type*} [DecidableEq κ] {q : Prog κ Y M T}
    {init' : Conf κ M T → Prop} {R : Conf ι L S → Conf κ M T → Prop}
    (hsim : Simulation p init ok q init' R) (h : Reach p init ok c) :
    ∃ a, Reach q init' anyMove a ∧ R c a := by
  induction h with
  | init h =>
    obtain ⟨a, ha, hR⟩ := hsim.init _ h
    exact ⟨a, .init ha, hR⟩
  | move _ i x hok hm ih =>
    obtain ⟨a, ha, hR⟩ := ih
    obtain ⟨as, a', has, hR'⟩ := hsim.move _ a i x _ hR hok hm
    exact ⟨a', ha.moves has, hR'⟩

end Runs

/-! ## Counting threads -/

section Count

variable [Fintype ι]

/-- How many threads satisfy `P`. -/
def count (P : ι → L → Bool) (f : ι → L) : ℕ := (Finset.univ.filter fun i => P i (f i) = true).card

variable {P : ι → L → Bool} {f : ι → L} {i j : ι}

/-- What a move of thread `i` does to a sum over the threads. -/
theorem sum_update [DecidableEq ι] (w : ι → L → ℕ) (f : ι → L) (i : ι) (l : L) :
    ∑ j, w j (Function.update f i l j) + w i (f i) = ∑ j, w j (f j) + w i l := by
  have hrest : ∑ j ∈ Finset.univ.erase i, w j (Function.update f i l j) =
      ∑ j ∈ Finset.univ.erase i, w j (f j) := by
    refine Finset.sum_congr rfl fun j hj => ?_
    rw [Function.update_of_ne (Finset.ne_of_mem_erase hj)]
  have hnew := Finset.sum_erase_add Finset.univ (fun j => w j (Function.update f i l j))
    (Finset.mem_univ i)
  have hold := Finset.sum_erase_add Finset.univ (fun j => w j (f j)) (Finset.mem_univ i)
  rw [hrest, Function.update_self] at hnew
  omega

theorem count_eq_sum (P : ι → L → Bool) (f : ι → L) : count P f = ∑ j, (P j (f j)).toNat := by
  unfold count
  rw [Finset.card_filter]
  refine Finset.sum_congr rfl fun j _ => ?_
  cases P j (f j) <;> rfl

/-- What a move of thread `i` does to a count. -/
theorem count_update [DecidableEq ι] (P : ι → L → Bool) (f : ι → L) (i : ι) (l : L) :
    count P (Function.update f i l) + (P i (f i)).toNat = count P f + (P i l).toNat := by
  rw [count_eq_sum, count_eq_sum]
  exact sum_update (fun j m => (P j m).toNat) f i l

theorem count_update_of_eq [DecidableEq ι] {l : L} (h : P i l = P i (f i)) :
    count P (Function.update f i l) = count P f := by
  have hcount := count_update P f i l
  rw [h] at hcount
  omega

/-- A value that changes as the part of thread `i` in a count does, the other way, keeps its sum with
the count. -/
theorem add_count_update [DecidableEq ι] {v v' k : ℕ} {l : L} (h : v + count P f = k)
    (hmove : v' + (P i l).toNat = v + (P i (f i)).toNat) : v' + count P (Function.update f i l) = k := by
  have hcount := count_update P f i l
  omega

theorem count_pos_iff : 0 < count P f ↔ ∃ i, P i (f i) = true := by
  unfold count
  rw [Finset.card_pos]
  simp [Finset.Nonempty]

theorem count_eq_zero_iff : count P f = 0 ↔ ∀ i, P i (f i) = false := by
  unfold count
  simp [Finset.filter_eq_empty_iff]

theorem toNat_le_count (P : ι → L → Bool) (f : ι → L) (i : ι) : (P i (f i)).toNat ≤ count P f := by
  rw [count_eq_sum]
  exact Finset.single_le_sum (fun j _ => Nat.zero_le (P j (f j)).toNat) (Finset.mem_univ i)

/-- Two threads counted once are the same. -/
theorem eq_of_count_le_one (h : count P f ≤ 1) (hi : P i (f i) = true) (hj : P j (f j) = true) :
    i = j :=
  Finset.card_le_one.mp h i (by simpa using hi) j (by simpa using hj)

theorem eq_false_of_count_le_one (h : count P f ≤ 1) (hi : P i (f i) = true) (hj : j ≠ i) :
    P j (f j) = false := by
  by_contra hP
  rw [Bool.not_eq_false] at hP
  exact hj (eq_of_count_le_one h hP hi)

/-- A lock that counts its holders is taken while a thread holds it. -/
theorem eq_true_of_toNat_eq_count {locked : Bool} (h : locked.toNat = count P f)
    (hi : P i (f i) = true) : locked = true := by
  have hle := toNat_le_count P f i
  rw [hi, ← h] at hle
  cases locked with
  | true => rfl
  | false => exact absurd hle (by decide)

theorem count_le_count {Q : ι → L → Bool} (h : ∀ i, P i (f i) = true → Q i (f i) = true) :
    count P f ≤ count Q f :=
  Finset.card_le_card fun i hi => by
    simp only [Finset.mem_filter, Finset.mem_univ, true_and] at hi ⊢
    exact h i hi

end Count

/-! ## Semaphores -/

/-- `sem_wait`: `none` while the value is `0`. -/
def semWait (v : ℕ) : Option ℕ := if 0 < v then some (v - 1) else none

theorem semWait_eq_some_iff {v w : ℕ} : semWait v = some w ↔ v = w + 1 := by
  unfold semWait
  split_ifs with h
  · rw [Option.some_inj]
    omega
  · simp only [false_iff]
    omega

theorem semWait_eq_none_iff {v : ℕ} : semWait v = none ↔ v = 0 := by
  unfold semWait
  split_ifs with h
  · simp [Nat.pos_iff_ne_zero.mp h]
  · simp [Nat.eq_zero_of_not_pos h]

end Cs444
