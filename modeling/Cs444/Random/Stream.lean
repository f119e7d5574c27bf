import Cs444.Random.Width

/-!
# The stream of the generator

Whatever was called before, the numbers after a seed are the tempered elements of one recurrence, from
place `N` on (`output_initGenrand`). `Ready` says which window of which recurrence the state is, and every
reachable state is `Ready` or not seeded yet.
-/

namespace Cs444.Random

variable {w : ℕ} {g g' : Gen} {x : ℕ → ℕ} {b : ℕ}

/-! ## The words -/

/-- The element of the state that a seed puts at a place. -/
def seedWord (s : ℕ) : ℕ → ℕ
  | 0 => s % 2 ^ 32
  | i + 1 => (1812433253 * (seedWord s i ^^^ (seedWord s i >>> 30)) + (i + 1)) % 2 ^ 32

theorem seedWord_lt (s i : ℕ) : seedWord s i < 2 ^ 32 := by
  cases i with
  | zero => exact Nat.mod_lt _ (by decide)
  | succ i => exact Nat.mod_lt _ (by decide)

theorem mag01_lt (i : ℕ) : mag01 i < 2 ^ 32 := by
  unfold mag01
  split
  · decide
  · decide

/-- The bits of the two words that are twisted together. -/
theorem twisted_lt (cur next : ℕ) : (cur &&& UPPER_MASK) ||| (next &&& LOWER_MASK) < 2 ^ 32 := by
  apply Nat.or_lt_two_pow
  · exact Nat.and_le_right.trans_lt (by decide)
  · exact Nat.and_le_right.trans_lt (by decide)

theorem twist_lt {mid : ℕ} (hmid : mid < 2 ^ 32) (cur next : ℕ) : twist cur next mid < 2 ^ 32 := by
  unfold twist
  apply Nat.xor_lt_two_pow
  · apply Nat.xor_lt_two_pow hmid
    exact (Nat.shiftRight_le ..).trans_lt (twisted_lt cur next)
  · exact mag01_lt _

theorem temper_injective (hw : 32 ≤ w) : Function.Injective (temper w) := by
  intro y z h
  rw [temper_eq hw, temper_eq hw] at h
  apply xor_shiftRight_injective (k := 11) (by decide)
  apply xor_shiftLeft_and_injective (k := 7) (by decide) 0x9d2c5680
  apply xor_shiftLeft_and_injective (k := 15) (by decide) 0xefc60000
  apply xor_shiftRight_injective (k := 18) (by decide)
  exact h

theorem temper_zero : temper w 0 = 0 := by
  unfold temper
  simp

/-! ## Seeding -/

/-- The loop of `init_genrand` stays inside `mt`, and the places that were passed hold the words of the
seed. -/
theorem foldlM_seedStep (hw : 32 ≤ w) (s : ℕ) {k : ℕ} (hk : k < N) (mt : ℕ → ℕ)
    (h0 : mt 0 = seedWord s 0) :
    ∃ mt', (List.range' 1 k).foldlM (seedStep w) mt = some mt' ∧ ∀ i ≤ k, mt' i = seedWord s i := by
  induction k with
  | zero =>
    refine ⟨mt, rfl, fun i hi => ?_⟩
    obtain rfl : i = 0 := by omega
    exact h0
  | succ k ih =>
    obtain ⟨mt', hfold, hmt'⟩ := ih (by omega)
    have hword : (1812433253 * (mt' k ^^^ (mt' k >>> 30)) + (k + 1)) % 2 ^ w &&& 0xffffffff =
        seedWord s (k + 1) := by
      rw [mod_mask hw, hmt' k le_rfl]
      rfl
    refine ⟨Function.update mt' (k + 1) (seedWord s (k + 1)), ?_, fun i hi => ?_⟩
    · rw [List.range'_1_concat, List.foldlM_append, hfold, Nat.add_comm 1 k]
      show (seedStep w mt' (k + 1)).bind some = _
      unfold seedStep
      rw [if_pos ⟨Nat.le_add_left .., hk⟩, Nat.add_sub_cancel, hword]
      rfl
    · by_cases hik : i = k + 1
      · rw [hik, Function.update_self]
      · rw [Function.update_of_ne hik]
        exact hmt' i (by omega)

theorem initGenrand_some (hw : 32 ≤ w) (g : Gen) (s : ℕ) :
    ∃ g', initGenrand w g s = some g' ∧ g'.mti = N ∧ ∀ i < N, g'.mt i = seedWord s i := by
  have h0 : Function.update g.mt 0 (s &&& 0xffffffff) 0 = seedWord s 0 := by
    rw [Function.update_self, mask_eq_mod]
    rfl
  obtain ⟨mt, hfold, hmt⟩ := foldlM_seedStep hw s (k := N - 1) (by decide) _ h0
  refine ⟨⟨mt, N⟩, ?_, rfl, fun i hi => hmt i (Nat.le_sub_one_of_lt hi)⟩
  unfold initGenrand
  rw [hfold]
  rfl

/-! ## Generating -/

/-- A loop in which no step touches an element outside is one without the tests. -/
theorem foldlM_some {α β : Type*} {f : β → α → Option β} {f' : β → α → β} {l : List α}
    (h : ∀ b, ∀ a ∈ l, f b a = some (f' b a)) (b : β) : l.foldlM f b = some (l.foldl f' b) := by
  induction l generalizing b with
  | nil => rfl
  | cons a l ih =>
    rw [List.foldlM_cons, h b a List.mem_cons_self]
    exact ih (fun b x hx => h b x (List.mem_cons_of_mem a hx)) _

theorem twistAt_left (a : ℕ → ℕ) {kk : ℕ} (h : kk < N - M) :
    twistAt a kk (kk + 1) (kk + M) = some (renew N M twist a kk) := by
  have hk : kk < 624 - 397 := h
  unfold renew twistAt N M
  rw [Nat.mod_eq_of_lt (by omega), Nat.mod_eq_of_lt (by omega), if_pos (by omega)]

theorem twistBack_right (a : ℕ → ℕ) {kk : ℕ} (h : N - M ≤ kk) (h' : kk < N - 1) :
    twistBack a kk = some (renew N M twist a kk) := by
  have hk : 624 - 397 ≤ kk ∧ kk < 624 - 1 := ⟨h, h'⟩
  unfold renew twistBack twistAt N M
  rw [Nat.mod_eq_of_lt (by omega), Nat.mod_eq_sub_mod (by omega), Nat.mod_eq_of_lt (by omega),
    if_pos (by omega), if_pos (by omega)]

theorem twistAt_last (a : ℕ → ℕ) :
    twistAt a (N - 1) 0 (M - 1) = some (renew N M twist a (N - 1)) := rfl

/-- The two loops and the statement after them stay inside `mt` and are one sweep. -/
theorem regenerate_eq_sweep (mt : ℕ → ℕ) : regenerate mt = some (sweep N M twist mt N) := by
  have hsplit : List.range N = List.range (N - M) ++ (List.range' (N - M) (M - 1) ++ [N - 1]) := by
    rw [List.range_eq_range', List.range_eq_range']
    exact (List.range'_append_1 (s := 0) (m := N - M) (n := M)).symm.trans
      (congrArg _ (List.range'_concat (s := N - M) (n := M - 1)))
  have hleft : ∀ a, ∀ kk ∈ List.range (N - M),
      twistAt a kk (kk + 1) (kk + M) = some (renew N M twist a kk) :=
    fun a kk hkk => twistAt_left a (List.mem_range.mp hkk)
  have hright : ∀ a, ∀ kk ∈ List.range' (N - M) (M - 1),
      twistBack a kk = some (renew N M twist a kk) := by
    intro a kk hkk
    have h := List.mem_range'_1.mp hkk
    exact twistBack_right a h.1 (h.2.trans_le (by decide))
  rw [sweep_eq_foldl, hsplit, List.foldl_append, List.foldl_append]
  unfold regenerate
  rw [foldlM_some hleft, Option.bind_some, foldlM_some hright, Option.bind_some, twistAt_last]
  rfl

/-! ## The state is a window -/

/-- The state is a window of a recurrence. -/
structure Ready (g : Gen) (x : ℕ → ℕ) (b : ℕ) : Prop where
  recurs : Recurs N M twist x
  mt : ∀ i < N, g.mt i = x (b + i)
  mti : g.mti ≤ N

theorem ready_extend (hmti : g.mti ≤ N) : Ready g (extend N M twist g.mt) 0 where
  recurs := recurs_extend (by decide) (by decide)
  mt i hi := by rw [Nat.zero_add, extend_of_lt hi]
  mti := hmti

theorem ready_initGenrand (hw : 32 ≤ w) (g : Gen) (s : ℕ) :
    ∃ g', initGenrand w g s = some g' ∧ g'.mti = N ∧ Ready g' (extend N M twist (seedWord s)) 0 := by
  obtain ⟨g', hg', hmti, hmt⟩ := initGenrand_some hw g s
  refine ⟨g', hg', hmti, recurs_extend (by decide) (by decide), fun i hi => ?_, hmti.le⟩
  rw [hmt i hi, Nat.zero_add, extend_of_lt hi]

/-- The next window. -/
theorem Ready.sweep (h : Ready g x b) {i : ℕ} (hi : i < N) :
    Cs444.sweep N M twist g.mt N i = x (b + N + i) := by
  rw [sweep_eq h.recurs (by decide) (by decide) h.mt le_rfl hi, if_pos hi]

theorem genrandInt32_of_lt (h : g.mti < N) :
    genrandInt32 w g = some ({ g with mti := g.mti + 1 }, temper w (g.mt g.mti)) := by
  unfold genrandInt32
  rw [if_neg (Nat.not_le.mpr h), Option.bind_some, if_pos h]

theorem genrandInt32_of_eq (h : g.mti = N) :
    genrandInt32 w g = some (⟨sweep N M twist g.mt N, 1⟩, temper w (sweep N M twist g.mt N 0)) := by
  unfold genrandInt32
  rw [if_pos h.ge, if_neg (by rw [h]; decide), Option.bind_some, regenerate_eq_sweep, Option.map_some,
    Option.bind_some, if_pos (show 0 < N by decide)]

/-- One number: the window may move, the place that is read next goes up by one. -/
theorem Ready.next (h : Ready g x b) :
    ∃ g' b', genrandInt32 w g = some (g', temper w (x (b + g.mti))) ∧ b ≤ b' ∧ Ready g' x b' ∧
      b' + g'.mti = b + g.mti + 1 := by
  rcases h.mti.lt_or_eq with hlt | heq
  · rw [genrandInt32_of_lt hlt, h.mt _ hlt]
    exact ⟨_, b, rfl, le_rfl, ⟨h.recurs, h.mt, hlt⟩, rfl⟩
  · rw [genrandInt32_of_eq heq, heq, h.sweep (by decide)]
    refine ⟨_, b + N, rfl, Nat.le_add_right .., ?_, rfl⟩
    exact ⟨h.recurs, fun i hi => h.sweep hi, show 1 ≤ N by decide⟩

theorem Ready.after (h : Ready g x b) (k : ℕ) :
    ∃ g' b', after w g k = some g' ∧ b ≤ b' ∧ Ready g' x b' ∧ b' + g'.mti = b + g.mti + k := by
  induction k with
  | zero => exact ⟨g, b, rfl, le_rfl, h, rfl⟩
  | succ k ih =>
    obtain ⟨g₁, b₁, hg₁, hb₁, h₁, hmti₁⟩ := ih
    obtain ⟨g₂, b₂, hg₂, hb₂, h₂, hmti₂⟩ := h₁.next (w := w)
    refine ⟨g₂, b₂, ?_, hb₁.trans hb₂, h₂, by rw [← Nat.add_assoc, ← hmti₁]; exact hmti₂⟩
    unfold Random.after
    rw [hg₁, Option.bind_some, hg₂]
    rfl

theorem Ready.output (h : Ready g x b) (k : ℕ) :
    output w g k = some (temper w (x (b + g.mti + k))) := by
  obtain ⟨g', b', hg', -, h', hmti⟩ := h.after (w := w) k
  obtain ⟨g₂, -, hg₂, -⟩ := h'.next (w := w)
  unfold Random.output
  rw [hg', Option.bind_some, hg₂, hmti]
  rfl

/-- A generator that was not seeded goes on as after the default seed. -/
theorem genrandInt32_not_seeded (hg : g.mti = N + 1) (hg' : initGenrand w g 5489 = some g')
    (hmti : g'.mti = N) : genrandInt32 w g = genrandInt32 w g' := by
  have hN : g.mti ≥ N := hg.ge.trans' (Nat.le_succ N)
  unfold genrandInt32
  rw [if_pos hN, if_pos hg, hg', if_pos hmti.ge, if_neg (by rw [hmti]; decide)]

theorem output_not_seeded (hg : g.mti = N + 1) (hg' : initGenrand w g 5489 = some g')
    (hmti : g'.mti = N) (k : ℕ) : output w g k = output w g' k := by
  have hnext := genrandInt32_not_seeded hg hg' hmti
  cases k with
  | zero => exact congrArg (Option.map Prod.snd) hnext
  | succ k =>
    have h : ∀ j, after w g (j + 1) = after w g' (j + 1) := by
      intro j
      induction j with
      | zero => exact congrArg (Option.map Prod.fst) hnext
      | succ j ih => exact congrArg (Option.bind · fun g => (genrandInt32 w g).map Prod.fst) ih
    exact congrArg (Option.bind · fun g => (genrandInt32 w g).map Prod.snd) (h k)

/-- The first number after a seed. -/
def firstNumber (s : ℕ) : ℕ := temper 32 (extend N M twist (seedWord s) N)

/-- Without `rdrand`, `random_gen` starts over every time: it gives the first number of what the variable
`seed` holds, whatever was called before. -/
theorem randomGen_none (hw : 32 ≤ w) (g : Gen) (seed : ℕ) :
    ∃ g₁ g₂, initGenrand w g seed = some g₁ ∧ genrandInt32 w g₁ = some (g₂, firstNumber seed) ∧
      randomGen w none seed g = (absInt (firstNumber seed)).map fun v => (g₂, v) := by
  obtain ⟨g₁, hg₁, hmti, hr⟩ := ready_initGenrand hw g seed
  obtain ⟨g₂, b, hnext, -⟩ := hr.next (w := w)
  rw [hmti, Nat.zero_add, temper_width hw] at hnext
  refine ⟨g₁, g₂, hg₁, hnext, ?_⟩
  unfold randomGen
  dsimp only
  rw [hg₁, Option.bind_some, hnext, Option.bind_some]
  rfl

end Cs444.Random
