import Cs444.Random.Stream

/-!
# What the numbers say about the state

From any call of the program on, `N` numbers determine all later ones (`outputs_determine`), they are not
all 0 (`exists_output_ne_zero`), and after `init_genrand` they determine the lowest 32 bits of the seed
(`seed_eq_of_outputs`). The twist can be undone as far as it uses its words (`twist_cancel`).
-/

namespace Cs444.Random

variable {w : ℕ} {g g' : Gen} {x y : ℕ → ℕ} {b k s s' : ℕ}

/-! ## Undoing the twist -/

/-- What the twist makes of the bits it has put together. -/
def shiftOut (y : ℕ) : ℕ := (y >>> 1) ^^^ mag01 (y &&& 1)

theorem twist_eq (cur next mid : ℕ) :
    twist cur next mid = mid ^^^ shiftOut ((cur &&& UPPER_MASK) ||| (next &&& LOWER_MASK)) := by
  unfold twist shiftOut
  rw [Nat.xor_assoc]

/-- The bit that was shifted out is the highest one of the result. -/
theorem testBit_shiftOut {y : ℕ} (hy : y < 2 ^ 32) : (shiftOut y).testBit 31 = y.testBit 0 := by
  have hhigh : (y >>> 1).testBit 31 = false := by
    rw [Nat.testBit_shiftRight]
    exact Nat.testBit_lt_two_pow hy
  have hmag : (mag01 (y &&& 1)).testBit 31 = y.testBit 0 := by
    rw [Nat.and_one_is_mod, Nat.testBit_zero]
    unfold mag01
    rcases Nat.mod_two_eq_zero_or_one y with h | h
    · rw [h]; decide
    · rw [h]; decide
  unfold shiftOut
  rw [Nat.testBit_xor, hhigh, hmag, Bool.false_xor]

theorem shiftOut_cancel {y z : ℕ} (hy : y < 2 ^ 32) (hz : z < 2 ^ 32) (h : shiftOut y = shiftOut z) :
    y = z := by
  have hbit : y.testBit 0 = z.testBit 0 := by
    rw [← testBit_shiftOut hy, ← testBit_shiftOut hz, h]
  have hlow : y % 2 = z % 2 := by
    rw [Nat.testBit_zero, Nat.testBit_zero, decide_eq_decide] at hbit
    omega
  have hshift : y >>> 1 = z >>> 1 := by
    unfold shiftOut at h
    rw [Nat.and_one_is_mod, Nat.and_one_is_mod, hlow] at h
    exact Nat.xor_left_injective h
  rw [Nat.shiftRight_one, Nat.shiftRight_one] at hshift
  omega

/-- A word is put together from its highest bit and the others. -/
theorem upper_or_lower {y : ℕ} (hy : y < 2 ^ 32) : (y &&& UPPER_MASK) ||| (y &&& LOWER_MASK) = y := by
  rw [← Nat.and_or_distrib_left, show UPPER_MASK ||| LOWER_MASK = 2 ^ 32 - 1 by decide,
    Nat.and_two_pow_sub_one_eq_mod, Nat.mod_eq_of_lt hy]

theorem upper_of_or (a b : ℕ) :
    ((a &&& UPPER_MASK) ||| (b &&& LOWER_MASK)) &&& UPPER_MASK = a &&& UPPER_MASK := by
  rw [Nat.and_or_distrib_right, Nat.and_assoc, Nat.and_assoc, Nat.and_self,
    show LOWER_MASK &&& UPPER_MASK = 0 by decide, Nat.and_zero, Nat.or_zero]

theorem lower_of_or (a b : ℕ) :
    ((a &&& UPPER_MASK) ||| (b &&& LOWER_MASK)) &&& LOWER_MASK = b &&& LOWER_MASK := by
  rw [Nat.and_or_distrib_right, Nat.and_assoc, Nat.and_assoc, Nat.and_self,
    show UPPER_MASK &&& LOWER_MASK = 0 by decide, Nat.and_zero, Nat.zero_or]

/-- The twist keeps the highest bit of the old word and the other bits of the next one. -/
theorem twist_cancel {cur cur' next next' mid : ℕ} (h : twist cur next mid = twist cur' next' mid) :
    cur &&& UPPER_MASK = cur' &&& UPPER_MASK ∧ next &&& LOWER_MASK = next' &&& LOWER_MASK := by
  rw [twist_eq, twist_eq] at h
  have hbits := shiftOut_cancel (twisted_lt _ _) (twisted_lt _ _) (Nat.xor_right_injective h)
  refine ⟨?_, ?_⟩
  · rw [← upper_of_or cur next, hbits, upper_of_or]
  · rw [← lower_of_or cur next, hbits, lower_of_or]

theorem twist_zero : twist 0 0 0 = 0 := by decide

/-! ## Words of 32 bits -/

theorem extend_lt {a : ℕ → ℕ} (ha : ∀ i < N, a i < 2 ^ 32) (i : ℕ) : extend N M twist a i < 2 ^ 32 := by
  induction i using Nat.strong_induction_on with
  | _ i ih =>
    rcases Nat.lt_or_ge i N with hlt | hge
    · rw [extend_of_lt hlt]
      exact ha i hlt
    · obtain ⟨j, rfl⟩ : ∃ j, i = j + N := ⟨i - N, by omega⟩
      rw [recurs_extend (by decide) (by decide) j]
      exact twist_lt (ih _ (Nat.add_lt_add_left (by decide) j)) _ _

/-! ## The state never dies out -/

/-- Of the bits that the recurrence uses from place `k` on, one is not 0. -/
def Alive (x : ℕ → ℕ) (k : ℕ) : Prop :=
  ¬(x k &&& UPPER_MASK = 0 ∧ ∀ i, 0 < i → i < N → x (k + i) = 0)

theorem Alive.succ (hx : Recurs N M twist x) (hlt : ∀ i, x i < 2 ^ 32) (h : Alive x k) :
    Alive x (k + 1) := by
  rintro ⟨hupper, hzero⟩
  have hmid : x (k + M) = 0 := hzero (M - 1) (by decide) (by decide)
  have hnew : x (k + N) = 0 := hzero (N - 1) (by decide) (by decide)
  have htwist : twist (x k) (x (k + 1)) 0 = twist 0 0 0 := by
    rw [hx k, hmid] at hnew
    rw [twist_zero, hnew]
  obtain ⟨hcur, hnext⟩ := twist_cancel htwist
  have hsucc : x (k + 1) = 0 := by
    rw [← upper_or_lower (hlt (k + 1)), hupper, hnext]
    rfl
  refine h ⟨hcur, fun i hpos hi => ?_⟩
  obtain rfl | hne := eq_or_ne i 1
  · exact hsucc
  · have := hzero (i - 1) (by omega) (by omega)
    rwa [Nat.add_assoc, Nat.add_sub_cancel' hpos] at this

theorem Alive.add (hx : Recurs N M twist x) (hlt : ∀ i, x i < 2 ^ 32) (h : Alive x k) (d : ℕ) :
    Alive x (k + d) := by
  induction d with
  | zero => exact h
  | succ d ih => exact ih.succ hx hlt

theorem Alive.exists_ne_zero (h : Alive x k) : ∃ i < N, x (k + i) ≠ 0 := by
  by_contra hall
  push Not at hall
  refine h ⟨?_, fun i _ hi => hall i hi⟩
  have h0 := hall 0 (by decide)
  rw [Nat.add_zero] at h0
  rw [h0]
  decide

/-- A seed does not give only zeros: the second word is 1 more than a multiple of the first. -/
theorem alive_seedWord (s : ℕ) : Alive (seedWord s) 0 := by
  rintro ⟨-, hzero⟩
  have h₁ : seedWord s 1 = 0 := hzero 1 (by decide) (by decide)
  have h₂ : seedWord s 2 = 0 := hzero 2 (by decide) (by decide)
  unfold seedWord at h₂
  rw [h₁] at h₂
  exact absurd h₂ (by decide)

theorem Alive.congr (h : Alive x k) (hxy : ∀ i < N, x (k + i) = y (k + i)) : Alive y k := by
  rintro ⟨hupper, hzero⟩
  refine h ⟨?_, fun i hpos hi => ?_⟩
  · have h0 : x k = y k := hxy 0 (by decide)
    rw [h0, hupper]
  · rw [hxy i hi, hzero i hpos hi]

/-! ## Reachable states -/

/-- The generator after some calls of the program. -/
def Reachable (w : ℕ) (g : Gen) : Prop := ∃ cs r, calls w cs start = some (g, r)

/-- The state is a window of a recurrence of 32-bit words that does not die out. -/
def Sound (g : Gen) : Prop :=
  ∃ x b, Ready g x b ∧ (∀ i, x i < 2 ^ 32) ∧ Alive x b

theorem sound_extend (hmti : g.mti ≤ N) (hlt : ∀ i < N, g.mt i < 2 ^ 32) (h : Alive g.mt 0) : Sound g := by
  refine ⟨_, 0, ready_extend hmti, extend_lt hlt, h.congr fun i hi => ?_⟩
  rw [Nat.zero_add, extend_of_lt hi]

theorem sound_initGenrand (hw : 32 ≤ w) (g : Gen) (s : ℕ) :
    ∃ g', initGenrand w g s = some g' ∧ g'.mti = N ∧ Sound g' := by
  obtain ⟨g', hg', hmti, hmt⟩ := initGenrand_some hw g s
  refine ⟨g', hg', hmti, sound_extend hmti.le (fun i hi => ?_) ?_⟩
  · rw [hmt i hi]
    exact seedWord_lt s i
  · refine (alive_seedWord s).congr fun i hi => ?_
    rw [Nat.zero_add, hmt i hi]

theorem temper_lt (hw : 32 ≤ w) {y : ℕ} (hy : y < 2 ^ 32) : temper w y < 2 ^ 32 := by
  rw [temper_eq hw]
  apply Nat.xor_lt_two_pow ?_ ((Nat.shiftRight_le ..).trans_lt ?_)
  all_goals
    apply Nat.xor_lt_two_pow ?_ (Nat.and_le_right.trans_lt (by decide))
    apply Nat.xor_lt_two_pow ?_ (Nat.and_le_right.trans_lt (by decide))
    exact Nat.xor_lt_two_pow hy ((Nat.shiftRight_le ..).trans_lt hy)

theorem Sound.next (hw : 32 ≤ w) (h : Sound g) :
    ∃ g' v, genrandInt32 w g = some (g', v) ∧ v < 2 ^ 32 ∧ Sound g' := by
  obtain ⟨x, b, hr, hlt, ha⟩ := h
  obtain ⟨g', b', hnext, hb, hr', -⟩ := hr.next (w := w)
  obtain ⟨d, rfl⟩ := Nat.exists_eq_add_of_le hb
  exact ⟨g', _, hnext, temper_lt hw (hlt _), x, b + d, hr', hlt, ha.add hr.recurs hlt d⟩

/-! ### `init_by_array` -/

section Times

variable {σ : Type} (body : σ → Option σ) (Inv : σ → Prop)

/-- A loop whose body keeps an invariant under which it returns. -/
theorem times_some (hbody : ∀ s, Inv s → ∃ s', body s = some s' ∧ Inv s') (k : ℕ) (s : σ) (hs : Inv s) :
    ∃ s', times body k s = some s' ∧ Inv s' := by
  induction k generalizing s with
  | zero => exact ⟨s, rfl, hs⟩
  | succ k ih =>
    obtain ⟨s₁, h₁, hs₁⟩ := hbody s hs
    obtain ⟨s₂, h₂, hs₂⟩ := ih s₁ hs₁
    refine ⟨s₂, ?_, hs₂⟩
    unfold times
    rw [h₁]
    exact h₂

end Times

/-- What both loops keep: the words have 32 bits, and the index is inside. -/
def Mixing (mt : ℕ → ℕ) (i : ℕ) : Prop := (∀ l < N, mt l < 2 ^ 32) ∧ 1 ≤ i ∧ i < N

theorem update_lt {mt : ℕ → ℕ} (h : ∀ l < N, mt l < 2 ^ 32) {v : ℕ} (hv : v < 2 ^ 32) (i : ℕ) :
    ∀ l < N, Function.update mt i v l < 2 ^ 32 := by
  intro l hl
  by_cases hli : l = i
  · rw [hli, Function.update_self]
    exact hv
  · rw [Function.update_of_ne hli]
    exact h l hl

theorem Mixing.store {mt : ℕ → ℕ} {i v : ℕ} (h : Mixing mt i) (hv : v < 2 ^ 32) :
    Mixing (wrapIndex (Function.update mt i v) (i + 1)).1 (wrapIndex (Function.update mt i v) (i + 1)).2 := by
  have hstore := update_lt h.1 hv i
  unfold wrapIndex
  by_cases hN : i + 1 ≥ N
  · rw [if_pos hN]
    exact ⟨update_lt hstore (hstore _ (by decide)) 0, le_rfl, show 1 < N by decide⟩
  · rw [if_neg hN]
    exact ⟨hstore, Nat.le_add_left .., Nat.lt_of_not_le hN⟩

theorem mixKey_some (hw : 32 ≤ w) {key : ℕ → ℕ} {len : ℕ} (hlen : 0 < len) {r : (ℕ → ℕ) × ℕ × ℕ}
    (h : Mixing r.1 r.2.1 ∧ r.2.2 < len) :
    ∃ r', mixKey w key len r = some r' ∧ Mixing r'.1 r'.2.1 ∧ r'.2.2 < len := by
  obtain ⟨mt, i, j⟩ := r
  obtain ⟨hm, hj⟩ := h
  unfold mixKey
  refine ⟨_, if_pos ⟨hm.2.1, hm.2.2, hj⟩, hm.store ?_, ?_⟩
  · rw [mod_mask hw]
    exact Nat.mod_lt _ (by decide)
  · dsimp only
    split <;> omega

theorem mixIndex_some (hw : 32 ≤ w) {r : (ℕ → ℕ) × ℕ} (h : Mixing r.1 r.2) :
    ∃ r', mixIndex w r = some r' ∧ Mixing r'.1 r'.2 := by
  obtain ⟨mt, i⟩ := r
  unfold mixIndex
  refine ⟨_, if_pos h.2, h.store ?_⟩
  rw [mod_mask hw]
  exact Nat.mod_lt _ (by decide)

/-- A key with an element keeps `init_by_array` inside its arrays. -/
theorem initByArray_some (hw : 32 ≤ w) (g : Gen) (key : ℕ → ℕ) {len : ℕ} (hlen : 0 < len) :
    ∃ g', initByArray w g key len = some g' ∧ Sound g' := by
  obtain ⟨g₀, hg₀, hmti, hmt⟩ := initGenrand_some hw g 19650218
  have hseed : Mixing g₀.mt 1 := by
    refine ⟨fun l hl => ?_, le_rfl, by decide⟩
    rw [hmt l hl]
    exact seedWord_lt ..
  unfold initByArray
  rw [hg₀, Option.bind_some]
  obtain ⟨r₁, h₁, hm₁, -⟩ := times_some (mixKey w key len)
    (fun r => Mixing r.1 r.2.1 ∧ r.2.2 < len) (fun r hr => mixKey_some hw hlen hr) (max N len)
    (g₀.mt, 1, 0) ⟨hseed, hlen⟩
  obtain ⟨r₂, h₂, hm₂⟩ := times_some (mixIndex w) (fun r => Mixing r.1 r.2)
    (fun r hr => mixIndex_some hw hr) (N - 1) (r₁.1, r₁.2.1) hm₁
  rw [h₁, Option.bind_some, h₂, Option.map_some]
  have htop : 0x80000000 < 2 ^ 32 := by decide
  refine ⟨_, rfl, sound_extend hmti.le (update_lt hm₂.1 htop 0) ?_⟩
  · -- the highest bit of the first word is set
    rintro ⟨hupper, -⟩
    dsimp only at hupper
    rw [Function.update_self] at hupper
    exact absurd hupper (by decide)

/-- Without one it reads outside the key. -/
theorem initByArray_none (hw : 32 ≤ w) (g : Gen) (key : ℕ → ℕ) : initByArray w g key 0 = none := by
  obtain ⟨g₀, hg₀, -⟩ := initGenrand_some hw g 19650218
  unfold initByArray
  rw [hg₀, Option.bind_some, show max N 0 = 623 + 1 from rfl]
  unfold times mixKey
  rfl

/-! ### Runs of calls -/

/-- Not seeded yet, or `Sound`. -/
def Usable (g : Gen) : Prop := g.mti = N + 1 ∨ Sound g

theorem Usable.next (hw : 32 ≤ w) (h : Usable g) :
    ∃ g' v, genrandInt32 w g = some (g', v) ∧ v < 2 ^ 32 ∧ Sound g' := by
  obtain h | h := h
  · obtain ⟨g₁, hg₁, hmti, hs⟩ := sound_initGenrand hw g 5489
    rw [genrandInt32_not_seeded h hg₁ hmti]
    exact hs.next hw
  · exact h.next hw

/-- `abs` of a number of 32 bits. -/
theorem absInt_cases {v : ℕ} (hv : v < 2 ^ 32) :
    v = 2 ^ 31 ∧ absInt v = none ∨ v ≠ 2 ^ 31 ∧ ∃ u, absInt v = some u ∧ u < 2 ^ 32 := by
  have hmod : (v : ℤ).bmod (2 ^ 32) = if v < 2 ^ 31 then (v : ℤ) else v - 2 ^ 32 := by
    rw [Int.bmod_def, Int.emod_eq_of_lt (by omega) (by omega)]
    split_ifs <;> omega
  unfold absInt
  dsimp only
  rw [hmod]
  by_cases hsmall : v < 2 ^ 31
  · rw [if_pos hsmall, if_neg (by omega)]
    exact .inr ⟨hsmall.ne, _, rfl, by omega⟩
  · rw [if_neg hsmall]
    by_cases hleast : v = 2 ^ 31
    · exact .inl ⟨hleast, if_pos (by omega)⟩
    · rw [if_neg (by omega)]
      exact .inr ⟨hleast, _, rfl, by omega⟩

/-- The call stays inside its arrays, and does not ask `abs` for what is no `int`. -/
def Call.Returns : Call → Prop
  | .array _ keyLength => 0 < keyLength
  | .random none s => firstNumber s ≠ 2 ^ 31
  | _ => True

theorem call_spec (hw : 32 ≤ w) (hg : Usable g) (c : Call) :
    ¬ c.Returns ∧ call w g c = none ∨
      c.Returns ∧ ∃ g' r, call w g c = some (g', r) ∧ Usable g' ∧ ∀ v ∈ r, v < 2 ^ 32 := by
  match c with
  | .seed s =>
    obtain ⟨g', hg', -, hs⟩ := sound_initGenrand hw g s
    refine .inr ⟨trivial, g', none, ?_, .inr hs, by simp⟩
    simp only [call, hg', Option.map_some]
  | .array key 0 =>
    refine .inl ⟨Nat.lt_irrefl 0, ?_⟩
    simp only [call, initByArray_none hw, Option.map_none]
  | .array key (len + 1) =>
    obtain ⟨g', hg', hs⟩ := initByArray_some hw g key (Nat.zero_lt_succ len)
    refine .inr ⟨Nat.zero_lt_succ len, g', none, ?_, .inr hs, by simp⟩
    simp only [call, hg', Option.map_some]
  | .next =>
    obtain ⟨g', v, hnext, hlt, hs⟩ := hg.next hw
    refine .inr ⟨trivial, g', some v, ?_, .inr hs, by simpa using hlt⟩
    simp only [call, hnext, Option.map_some]
  | .next31 =>
    obtain ⟨g', v, hnext, hlt, hs⟩ := hg.next hw
    refine .inr ⟨trivial, g', some (v >>> 1), ?_, .inr hs, ?_⟩
    · simp only [call, genrandInt31, hnext, Option.map_some]
    · simpa using (Nat.shiftRight_le v 1).trans_lt hlt
  | .random (some x) seed =>
    refine .inr ⟨trivial, g, some x.toNat, rfl, hg, ?_⟩
    simpa using x.toNat_lt
  | .random none seed =>
    obtain ⟨g₁, g₂, hg₁, hnext, hrandom⟩ := randomGen_none hw g seed
    obtain ⟨g₁', hg₁', -, hs⟩ := sound_initGenrand hw g seed
    obtain rfl := Option.some.inj (hg₁.symm.trans hg₁')
    obtain ⟨g₂', v, hnext', hlt, hs'⟩ := hs.next hw
    obtain ⟨rfl, rfl⟩ := Prod.mk.inj (Option.some.inj (hnext.symm.trans hnext'))
    rcases absInt_cases hlt with ⟨heq, hnone⟩ | ⟨hne, u, hu, hult⟩
    · refine .inl ⟨fun h => h heq, ?_⟩
      simp only [call, hrandom, hnone, Option.map_none]
    · refine .inr ⟨hne, g₂, some u, ?_, .inr hs', by simpa using hult⟩
      simp only [call, hrandom, hu, Option.map_some]

/-- A run of calls returns exactly when each of them does, with numbers of 32 bits. -/
theorem calls_spec (hw : 32 ≤ w) (hg : Usable g) (cs : List Call) :
    (∃ c ∈ cs, ¬ c.Returns) ∧ calls w cs g = none ∨
      (∀ c ∈ cs, c.Returns) ∧
        ∃ g' r, calls w cs g = some (g', r) ∧ Usable g' ∧ ∀ v ∈ r, v < 2 ^ 32 := by
  induction cs generalizing g with
  | nil => exact .inr ⟨by simp, g, [], rfl, hg, by simp⟩
  | cons c cs ih =>
    rcases call_spec hw hg c with ⟨hc, hnone⟩ | ⟨hc, g₁, r₁, h₁, hg₁, hr₁⟩
    · refine .inl ⟨⟨c, List.mem_cons_self, hc⟩, ?_⟩
      unfold calls
      rw [hnone]
      rfl
    · rcases ih hg₁ with ⟨⟨c', hc', hbad⟩, hnone⟩ | ⟨hcs, g₂, r₂, h₂, hg₂, hr₂⟩
      · refine .inl ⟨⟨c', List.mem_cons_of_mem _ hc', hbad⟩, ?_⟩
        unfold calls
        rw [h₁, Option.bind_some, hnone]
        rfl
      · refine .inr ⟨List.forall_mem_cons.mpr ⟨hc, hcs⟩, g₂, r₁.toList ++ r₂, ?_, hg₂, fun v hv => ?_⟩
        · unfold calls
          rw [h₁, Option.bind_some, h₂]
          rfl
        · rcases List.mem_append.mp hv with hv | hv
          · exact hr₁ v (Option.mem_toList.mp hv)
          · exact hr₂ v hv

theorem usable_start : Usable start := .inl rfl

theorem Reachable.usable (hw : 32 ≤ w) (hg : Reachable w g) : Usable g := by
  obtain ⟨cs, r, h⟩ := hg
  rcases calls_spec hw usable_start cs with ⟨-, hnone⟩ | ⟨-, g', r', h', hg', -⟩
  · rw [hnone] at h
    exact absurd h (by simp)
  · rw [h', Option.some.injEq, Prod.mk.injEq] at h
    exact h.1 ▸ hg'

/-! ## The numbers -/

/-- From any call on, the numbers are the tempered elements of a recurrence that does not die out. -/
theorem Usable.stream (hw : 32 ≤ w) (hg : Usable g) :
    ∃ x b, Recurs N M twist x ∧ (∀ i, x i < 2 ^ 32) ∧ Alive x b ∧
      ∀ k, output w g k = some (temper w (x (b + k))) := by
  obtain ⟨g', ⟨x, b, hr, hlt, ha⟩, hout⟩ : ∃ g', Sound g' ∧ ∀ k, output w g k = output w g' k := by
    obtain hg | hg := hg
    · obtain ⟨g₁, hg₁, hmti, hs⟩ := sound_initGenrand hw g 5489
      exact ⟨g₁, hs, output_not_seeded hg hg₁ hmti⟩
    · exact ⟨g, hg, fun k => rfl⟩
  refine ⟨x, b + g'.mti, hr.recurs, hlt, ha.add hr.recurs hlt _, fun k => ?_⟩
  rw [hout k]
  exact hr.output k

/-- The numbers after a seed. -/
theorem seeded_output (hw : 32 ≤ w) (g : Gen) (s k : ℕ) :
    (initGenrand w g s).bind (output w · k) =
      some (temper 32 (extend N M twist (seedWord s) (N + k))) := by
  obtain ⟨g', hg', hmti, hr⟩ := ready_initGenrand hw g s
  rw [hg', Option.bind_some, hr.output k, hmti, temper_width hw, Nat.zero_add]

/-- **The stream** after a seed, whatever was called before, and without a seed. -/
theorem output_initGenrand (hw : 32 ≤ w) (g : Gen) (s k : ℕ) :
    (initGenrand w g s).bind (output w · k) =
        some (temper 32 (extend N M twist (seedWord s) (N + k))) ∧
      output w start k = some (temper 32 (extend N M twist (seedWord 5489) (N + k))) := by
  refine ⟨seeded_output hw g s k, ?_⟩
  obtain ⟨g', hg', hmti, -⟩ := ready_initGenrand hw start 5489
  have hseed := seeded_output hw start 5489 k
  rw [hg', Option.bind_some] at hseed
  rw [output_not_seeded rfl hg' hmti, hseed]

theorem output_initGenrand_one :
    (initGenrand 64 start 1).bind (output 64 · 700) =
        some (temper 32 (extend N M twist (seedWord 1) (N + 700))) ∧
      output 64 start 700 = some (temper 32 (extend N M twist (seedWord 5489) (N + 700))) :=
  output_initGenrand (by decide) start 1 700

/-- **Bounds**: a run of calls stays inside `mt` and the keys, and returns, exactly when no key is empty
and `random_gen` never asks for the absolute value of the least `int`; and every number has 32 bits. -/
theorem runs_in_bounds (hw : 32 ≤ w) (cs : List Call) :
    ((∃ r, calls w cs start = some r) ↔ ∀ c ∈ cs, c.Returns) ∧
      ∀ r, calls w cs start = some r → ∀ v ∈ r.2, v < 2 ^ 32 := by
  rcases calls_spec hw usable_start cs with ⟨⟨c, hc, hbad⟩, hnone⟩ | ⟨hcs, g', r', h', -, hr'⟩
  · refine ⟨⟨?_, fun hcs => absurd (hcs c hc) hbad⟩, ?_⟩
    · rintro ⟨r, hr⟩
      rw [hnone] at hr
      cases hr
    · intro r hr
      rw [hnone] at hr
      cases hr
  · refine ⟨⟨fun _ => hcs, fun _ => ⟨_, h'⟩⟩, fun r hr => ?_⟩
    rw [h', Option.some.injEq] at hr
    exact hr ▸ hr'

theorem runs_in_bounds_one :
    ((∃ r, calls 64 [.array (fun _ => 7) 1, .next] start = some r) ↔
        ∀ c ∈ [.array (fun _ => 7) 1, Call.next], c.Returns) ∧
      ∀ r, calls 64 [.array (fun _ => 7) 1, .next] start = some r → ∀ v ∈ r.2, v < 2 ^ 32 :=
  runs_in_bounds (by decide) _

/-- **Prediction**: the next `N` numbers determine all numbers after them. -/
theorem outputs_determine (hw : 32 ≤ w) (hg : Reachable w g) (hg' : Reachable w g')
    (h : ∀ k < N, output w g k = output w g' k) (k : ℕ) : output w g k = output w g' k := by
  obtain ⟨x, b, hx, -, -, hout⟩ := (hg.usable hw).stream hw
  obtain ⟨y, c, hy, -, -, hout'⟩ := (hg'.usable hw).stream hw
  have hwindow : ∀ i < N, x (b + i) = y (c + i) := by
    intro i hi
    apply temper_injective hw
    rw [← Option.some.injEq, ← hout, ← hout', h i hi]
  rw [hout, hout', hx.eq_of_window hy (by decide) (by decide) hwindow k]

theorem reachable_start : Reachable w start := ⟨[], [], rfl⟩

theorem outputs_determine_start : ∃ g, initGenrand 32 start 5489 = some g ∧
    output 32 start 1000 = output 32 g 1000 := by
  obtain ⟨g, hg, hmti, -⟩ := ready_initGenrand (w := 32) le_rfl start 5489
  have hreach : Reachable 32 g := ⟨[.seed 5489], [], by simp only [calls, call, hg]; rfl⟩
  exact ⟨g, hg, outputs_determine (by decide) reachable_start hreach
    (fun k _ => output_not_seeded rfl hg hmti k) 1000⟩

/-- **The generator never dies out**: of any `N` numbers in a row, one is not 0. -/
theorem exists_output_ne_zero (hw : 32 ≤ w) (hg : Reachable w g) :
    ∃ k < N, ∃ v ≠ 0, output w g k = some v := by
  obtain ⟨x, b, -, -, ha, hout⟩ := (hg.usable hw).stream hw
  obtain ⟨i, hi, hne⟩ := ha.exists_ne_zero
  refine ⟨i, hi, _, fun h0 => hne (temper_injective hw ?_), hout i⟩
  rw [h0, temper_zero]

theorem exists_output_ne_zero_start : ∃ k < N, ∃ v ≠ 0, output 32 start k = some v :=
  exists_output_ne_zero (by decide) reachable_start

/-! ## The seed -/

/-- The recurrence can be run backwards, as far as it uses its elements. -/
theorem recurs_back (hx : Recurs N M twist x) (hy : Recurs N M twist y) (hxlt : ∀ i, x i < 2 ^ 32)
    (hylt : ∀ i, y i < 2 ^ 32)
    (h : x (k + 1) &&& UPPER_MASK = y (k + 1) &&& UPPER_MASK ∧ ∀ i, k + 1 < i → x i = y i) :
    x k &&& UPPER_MASK = y k &&& UPPER_MASK ∧ ∀ i, k < i → x i = y i := by
  obtain ⟨hupper, hlater⟩ := h
  have hmid : x (k + M) = y (k + M) := hlater _ (Nat.add_lt_add_left (by decide) k)
  have hnew : x (k + N) = y (k + N) := hlater _ (Nat.add_lt_add_left (by decide) k)
  rw [hx k, hy k, hmid] at hnew
  obtain ⟨hcur, hnext⟩ := twist_cancel hnew
  have hsucc : x (k + 1) = y (k + 1) := by
    rw [← upper_or_lower (hxlt (k + 1)), hupper, hnext, upper_or_lower (hylt (k + 1))]
  refine ⟨hcur, fun i hi => ?_⟩
  obtain rfl | hne := eq_or_ne i (k + 1)
  · exact hsucc
  · exact hlater i (by omega)

theorem recurs_back_to_start (hx : Recurs N M twist x) (hy : Recurs N M twist y)
    (hxlt : ∀ i, x i < 2 ^ 32) (hylt : ∀ i, y i < 2 ^ 32)
    (h : x k &&& UPPER_MASK = y k &&& UPPER_MASK ∧ ∀ i, k < i → x i = y i) :
    ∀ i, 0 < i → x i = y i := by
  induction k with
  | zero => exact h.2
  | succ k ih => exact ih (recurs_back hx hy hxlt hylt h)

/-- The second word that `init_genrand` stores determines the first. -/
theorem seedWord_one_cancel (h : seedWord s 1 = seedWord s' 1) : s ≡ s' [MOD 2 ^ 32] := by
  have hmul : 1812433253 * (seedWord s 0 ^^^ (seedWord s 0 >>> 30)) ≡
      1812433253 * (seedWord s' 0 ^^^ (seedWord s' 0 >>> 30)) [MOD 2 ^ 32] :=
    Nat.ModEq.add_right_cancel' 1 h
  have hmix := Nat.ModEq.cancel_left_of_coprime (by decide) hmul
  have hlt : ∀ s, seedWord s 0 ^^^ (seedWord s 0 >>> 30) < 2 ^ 32 := fun s =>
    Nat.xor_lt_two_pow (seedWord_lt s 0) ((Nat.shiftRight_le ..).trans_lt (seedWord_lt s 0))
  exact xor_shiftRight_injective (by decide) (hmix.eq_of_lt_of_lt (hlt s) (hlt s'))

/-- **The seed is in the numbers**: seeds whose first `N` numbers are the same have the same lowest 32
bits. -/
theorem seed_eq_of_outputs (hw : 32 ≤ w)
    (h : ∀ k < N, (initGenrand w g s).bind (output w · k) =
      (initGenrand w g' s').bind (output w · k)) : s ≡ s' [MOD 2 ^ 32] := by
  have hx : Recurs N M twist (extend N M twist (seedWord s)) := recurs_extend (by decide) (by decide)
  have hy : Recurs N M twist (extend N M twist (seedWord s')) := recurs_extend (by decide) (by decide)
  have hwindow : ∀ i < N,
      extend N M twist (seedWord s) (N + i) = extend N M twist (seedWord s') (N + i) := by
    intro i hi
    have hout := h i hi
    rw [seeded_output hw, seeded_output hw, Option.some.injEq] at hout
    exact temper_injective le_rfl hout
  have hlater : ∀ i, N ≤ i → extend N M twist (seedWord s) i = extend N M twist (seedWord s') i := by
    intro i hi
    have := hx.eq_of_window hy (by decide) (by decide) hwindow (i - N)
    rwa [Nat.add_sub_cancel' hi] at this
  have hstart := recurs_back_to_start hx hy (extend_lt fun i _ => seedWord_lt s i)
    (extend_lt fun i _ => seedWord_lt s' i)
    ⟨congrArg (· &&& UPPER_MASK) (hlater N le_rfl), fun i hi => hlater i hi.le⟩
  have hone := hstart 1 Nat.one_pos
  rw [extend_of_lt (by decide), extend_of_lt (by decide)] at hone
  exact seedWord_one_cancel hone

theorem seed_eq_of_outputs_wide :
    (∀ k < N, (initGenrand 64 start 1).bind (output 64 · k) =
        (initGenrand 64 start (1 + 2 ^ 32)).bind (output 64 · k)) ∧
      1 ≡ 1 + 2 ^ 32 [MOD 2 ^ 32] := by
  have hseed : 1 ≡ 1 + 2 ^ 32 [MOD 2 ^ 32] := by decide
  have hsame : initGenrand 64 start 1 = initGenrand 64 start (1 + 2 ^ 32) := by
    rw [initGenrand_width (by decide) start hseed]
    exact (initGenrand_width (by decide) start rfl).symm
  have hout : ∀ k < N, (initGenrand 64 start 1).bind (output 64 · k) =
      (initGenrand 64 start (1 + 2 ^ 32)).bind (output 64 · k) := fun k _ => by rw [hsame]
  exact ⟨hout, seed_eq_of_outputs (by decide) hout⟩

end Cs444.Random
