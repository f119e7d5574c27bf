import Cs444.Random.Generator

/-!
# The word size does not matter

The masks of `mt19937ar.c` are there "for >32 bit machines". With them each function computes the same
for every word of at least 32 bits, also when the seed or the keys are only the same in their lowest 32
(`calls_portable`).
-/

namespace Cs444.Random

variable {w : ℕ}

/-! ## Reading through the masks -/

theorem two_pow_dvd (hw : 32 ≤ w) : 2 ^ 32 ∣ 2 ^ w := pow_dvd_pow 2 hw

theorem mod_mask (hw : 32 ≤ w) (a : ℕ) : a % 2 ^ w &&& 0xffffffff = a % 2 ^ 32 := by
  rw [show (0xffffffff : ℕ) = 2 ^ 32 - 1 from rfl, Nat.and_two_pow_sub_one_eq_mod,
    Nat.mod_mod_of_dvd a (two_pow_dvd hw)]

theorem mask_eq_mod (a : ℕ) : a &&& 0xffffffff = a % 2 ^ 32 :=
  Nat.and_two_pow_sub_one_eq_mod a 32

/-- A mask of 32 bits makes the reduction of a wider word superfluous. -/
theorem mod_and_of_lt (hw : 32 ≤ w) {m : ℕ} (hm : m < 2 ^ 32) (a : ℕ) : a % 2 ^ w &&& m = a &&& m := by
  refine Nat.eq_of_testBit_eq fun i => ?_
  rw [Nat.testBit_and, Nat.testBit_and, Nat.testBit_mod_two_pow]
  by_cases hi : i < 32
  · rw [decide_eq_true (by omega : i < w), Bool.true_and]
  · rw [Nat.testBit_lt_two_pow (hm.trans_le (Nat.pow_le_pow_right (by decide) (by omega))),
      Bool.and_false, Bool.and_false]

theorem xor_mod_congr (hw : 32 ≤ w) (a b c : ℕ) :
    ((a ^^^ b % 2 ^ w) + c) % 2 ^ 32 = ((a ^^^ b) + c) % 2 ^ 32 := by
  rw [Nat.add_mod, Nat.xor_mod_two_pow, Nat.mod_mod_of_dvd b (two_pow_dvd hw), ← Nat.xor_mod_two_pow,
    ← Nat.add_mod]

/-- Subtracting a small number wraps around the same way. -/
theorem sub_mod_congr (hw : 32 ≤ w) {i : ℕ} (hi : i < N) (a : ℕ) :
    (a + (2 ^ w - i)) % 2 ^ 32 = (a + (2 ^ 32 - i)) % 2 ^ 32 := by
  obtain ⟨d, hd⟩ := two_pow_dvd hw
  have hpos : 0 < d := by
    rcases Nat.eq_zero_or_pos d with rfl | h
    · exact absurd hd (Nat.two_pow_pos w).ne'
    · exact h
  obtain ⟨d, rfl⟩ : ∃ e, d = e + 1 := ⟨d - 1, by omega⟩
  have hN : i < 624 := hi
  have h : 2 ^ w - i = 2 ^ 32 - i + 2 ^ 32 * d := by rw [hd, Nat.mul_succ]; omega
  rw [h, ← Nat.add_assoc, Nat.add_mul_mod_self_left]

/-! ## The functions -/

theorem seedStep_width (hw : 32 ≤ w) : seedStep w = seedStep 32 := by
  funext mt i
  unfold seedStep
  rw [mod_mask hw, mod_mask le_rfl]

theorem initGenrand_width (hw : 32 ≤ w) (g : Gen) {s s' : ℕ} (hs : s ≡ s' [MOD 2 ^ 32]) :
    initGenrand w g s = initGenrand 32 g s' := by
  unfold initGenrand
  rw [seedStep_width hw, mask_eq_mod, mask_eq_mod, hs]

theorem mixKey_width (hw : 32 ≤ w) {key key' : ℕ → ℕ} (hkey : ∀ j, key j ≡ key' j [MOD 2 ^ 32]) (len : ℕ) :
    mixKey w key len = mixKey 32 key' len := by
  funext ⟨mt, i, j⟩
  have hword : ∀ a b, (((a ^^^ b % 2 ^ w) + key j + j) % 2 ^ w &&& 0xffffffff) =
      (((a ^^^ b % 2 ^ 32) + key' j + j) % 2 ^ 32 &&& 0xffffffff) := by
    intro a b
    rw [mod_mask hw, mod_mask le_rfl, Nat.add_assoc, Nat.add_assoc, xor_mod_congr hw,
      xor_mod_congr le_rfl]
    exact Nat.ModEq.add_left _ ((hkey j).add_right j)
  simp only [mixKey, hword]

theorem mixIndex_width (hw : 32 ≤ w) : mixIndex w = mixIndex 32 := by
  funext ⟨mt, i⟩
  by_cases hi : 1 ≤ i ∧ i < N
  · simp only [mixIndex, if_pos hi, mod_mask hw, mod_mask le_rfl]
    rw [xor_mod_congr hw, sub_mod_congr hw hi.2, xor_mod_congr le_rfl]
  · simp only [mixIndex, if_neg hi]

theorem initByArray_width (hw : 32 ≤ w) (g : Gen) {key key' : ℕ → ℕ}
    (hkey : ∀ j, key j ≡ key' j [MOD 2 ^ 32]) (len : ℕ) :
    initByArray w g key len = initByArray 32 g key' len := by
  unfold initByArray
  rw [initGenrand_width hw g rfl, mixKey_width hw hkey, mixIndex_width hw]

/-- The tempering needs no more than 32 bits. -/
theorem temper_eq (hw : 32 ≤ w) (y : ℕ) :
    temper w y =
      (fun y => y ^^^ (y >>> 18)) ((fun y => y ^^^ ((y <<< 15) &&& 0xefc60000))
        ((fun y => y ^^^ ((y <<< 7) &&& 0x9d2c5680)) ((fun y => y ^^^ (y >>> 11)) y))) := by
  unfold temper
  simp only [mod_and_of_lt hw (m := 0x9d2c5680) (by decide),
    mod_and_of_lt hw (m := 0xefc60000) (by decide)]

theorem temper_width (hw : 32 ≤ w) : temper w = temper 32 := by
  funext y
  rw [temper_eq hw, temper_eq le_rfl]

theorem genrandInt32_width (hw : 32 ≤ w) : genrandInt32 w = genrandInt32 32 := by
  funext g
  unfold genrandInt32
  rw [temper_width hw, initGenrand_width hw g rfl]

theorem randomGen_width (hw : 32 ≤ w) (rdrand : Option UInt32) {s s' : ℕ} (hs : s ≡ s' [MOD 2 ^ 32])
    (g : Gen) : randomGen w rdrand s g = randomGen 32 rdrand s' g := by
  unfold randomGen
  rw [initGenrand_width hw g hs, genrandInt32_width hw]

/-! ## Runs -/

/-- The arguments of two calls are the same in their lowest 32 bits. -/
def Call.Agrees : Call → Call → Prop
  | .seed s, .seed s' => s ≡ s' [MOD 2 ^ 32]
  | .array key len, .array key' len' => (∀ j, key j ≡ key' j [MOD 2 ^ 32]) ∧ len = len'
  | .next, .next => True
  | .next31, .next31 => True
  | .random rdrand s, .random rdrand' s' => rdrand = rdrand' ∧ s ≡ s' [MOD 2 ^ 32]
  | _, _ => False

theorem call_width (hw : 32 ≤ w) (g : Gen) {c c' : Call} (h : c.Agrees c') :
    call w g c = call 32 g c' := by
  match c, c', h with
  | .seed _, .seed _, h => simp only [call, initGenrand_width hw g h]
  | .array .., .array .., ⟨h, rfl⟩ => simp only [call, initByArray_width hw g h _]
  | .next, .next, _ => simp only [call, genrandInt32_width hw]
  | .next31, .next31, _ => simp only [call, genrandInt31, genrandInt32_width hw]
  | .random .., .random .., ⟨rfl, h⟩ => simp only [call, randomGen_width hw _ h]

theorem calls_width (hw : 32 ≤ w) {cs cs' : List Call} (h : List.Forall₂ Call.Agrees cs cs') (g : Gen) :
    calls w cs g = calls 32 cs' g := by
  induction h generalizing g with
  | nil => rfl
  | cons hc _ ih =>
    unfold calls
    rw [call_width hw g hc]
    simp only [ih]

/-- **Two machines** with words of at least 32 bits compute the same numbers in every run, from arguments
that are the same in their lowest 32 bits. -/
theorem calls_portable {w' : ℕ} (hw : 32 ≤ w) (hw' : 32 ≤ w') {cs cs' : List Call}
    (h : List.Forall₂ Call.Agrees cs cs') (g : Gen) : calls w cs g = calls w' cs' g := by
  have hrefl : List.Forall₂ Call.Agrees cs' cs' := by
    rw [List.forall₂_same]
    rintro (s | ⟨key, len⟩ | _ | _ | ⟨rdrand, s⟩) -
    · exact Nat.ModEq.refl s
    · exact ⟨fun j => Nat.ModEq.refl _, rfl⟩
    · trivial
    · trivial
    · exact ⟨rfl, Nat.ModEq.refl s⟩
  rw [calls_width hw h, calls_width hw' hrefl]

theorem calls_portable_seed :
    calls 64 [.seed (5 + 2 ^ 32), .next] start = calls 32 [.seed 5, .next] start :=
  have hseed : Call.Agrees (.seed (5 + 2 ^ 32)) (.seed 5) :=
    show 5 + 2 ^ 32 ≡ 5 [MOD 2 ^ 32] by decide
  have hnext : Call.Agrees .next .next := trivial
  calls_portable (by decide) (by decide) (.cons hseed (.cons hnext .nil)) start

end Cs444.Random
