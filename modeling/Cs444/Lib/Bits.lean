import Mathlib.Data.Nat.Bitwise

/-!
# Exclusive or with a shifted copy

`y ^ g y` determines `y` when `g` respects exclusive or and fixes only `0`
(`xor_self_map_injective`). Shifts do, also when they are masked (`xor_shiftRight_injective`,
`xor_shiftLeft_and_injective`).
-/

namespace Cs444

variable {g : ℕ → ℕ} {k : ℕ}

theorem xor_self_map_injective (hxor : ∀ a b, g (a ^^^ b) = g a ^^^ g b)
    (hfix : ∀ d, g d = d → d = 0) : Function.Injective fun y => y ^^^ g y := by
  intro y z h
  have hd : g (y ^^^ z) = y ^^^ z := by
    rw [hxor]
    refine Nat.eq_of_testBit_eq fun i => ?_
    have hbit := congrArg (fun v => Nat.testBit v i) h
    simp only [Nat.testBit_xor] at hbit ⊢
    revert hbit
    cases y.testBit i <;> cases z.testBit i <;> cases (g y).testBit i <;>
      cases (g z).testBit i <;> decide
  by_contra hne
  exact Nat.xor_ne_zero_iff.mpr hne (hfix _ hd)

theorem xor_shiftRight_injective (hk : 0 < k) : Function.Injective fun y : ℕ => y ^^^ (y >>> k) := by
  refine xor_self_map_injective (g := fun y => y >>> k) (fun a b => Nat.shiftRight_xor_distrib)
    fun d hd => ?_
  by_contra hne
  have hlt : d / 2 ^ k < d := Nat.div_lt_self (Nat.pos_of_ne_zero hne) (Nat.one_lt_two_pow hk.ne')
  rw [← Nat.shiftRight_eq_div_pow, hd] at hlt
  exact Nat.lt_irrefl d hlt

theorem xor_shiftLeft_and_injective (hk : 0 < k) (m : ℕ) :
    Function.Injective fun y : ℕ => y ^^^ ((y <<< k) &&& m) := by
  refine xor_self_map_injective (g := fun y => (y <<< k) &&& m) (fun a b => ?_) fun d hd => ?_
  · rw [Nat.shiftLeft_xor_distrib, Nat.and_xor_distrib_right]
  · -- the lowest bit of `d` would come from a lower one
    refine Nat.eq_of_testBit_eq fun i => ?_
    rw [Nat.zero_testBit]
    induction i using Nat.strong_induction_on with
    | _ i ih =>
      have hbit := congrArg (fun v => Nat.testBit v i) hd
      simp only [Nat.testBit_and, Nat.testBit_shiftLeft] at hbit
      by_cases hik : k ≤ i
      · rw [ih (i - k) (by omega)] at hbit
        simpa using hbit.symm
      · simpa [hik] using hbit.symm

end Cs444
