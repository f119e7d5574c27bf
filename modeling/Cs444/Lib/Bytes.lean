import Mathlib.Algebra.Order.Group.Int
import Mathlib.Algebra.Order.Ring.Int
import Mathlib.Data.Int.ModEq
import Mathlib.Tactic.Ring
import Mathlib.Tactic.Linarith

/-!
# Bytes of a memory of signed words

A memory of `n`-byte words is a function to `ℤ`; a byte of it is read and written in little-endian
order, in two's complement (`byteAt`, `putByte`). Unsigned words of several bytes may lie across the
words of the memory (`wordAt`, `putWord`).

A write is read back (`byteAt_putByte_self`, `wordAt_putWord`), it leaves the other bytes as they are
(`byteAt_putByte_ne`, `byteAt_putWord_off`), and it stays in the words of its bytes
(`putByte_off`, `putWord_off`).
-/

namespace Cs444

/-! ## The bytes of an integer -/

/-- The byte `i` of an integer in two's complement. -/
def byteOf (w : ℤ) (i : ℕ) : ℕ := (w / 256 ^ i % 256).toNat

/-- The integer with the byte `i` replaced by `x`. -/
def setByteOf (w : ℤ) (i x : ℕ) : ℤ := w + ((x : ℤ) - byteOf w i) * 256 ^ i

variable {w w' : ℤ} {i j n x : ℕ}

theorem coe_byteOf (w : ℤ) (i : ℕ) : (byteOf w i : ℤ) = w / 256 ^ i % 256 :=
  Int.toNat_of_nonneg (Int.emod_nonneg _ (by norm_num))

theorem byteOf_zero (i : ℕ) : byteOf 0 i = 0 := by simp [byteOf]

/-- The low bytes of an integer depend on its remainder. -/
theorem byteOf_congr (h : w ≡ w' [ZMOD 256 ^ n]) (hi : i < n) : byteOf w i = byteOf w' i := by
  obtain ⟨c, hc⟩ := (Int.modEq_iff_dvd.mp h)
  obtain ⟨d, rfl⟩ : ∃ d, n = i + (d + 1) := ⟨n - i - 1, by omega⟩
  have hw' : w' = w + 256 ^ i * (256 * (256 ^ d * c)) := by
    rw [eq_add_of_sub_eq' hc]
    ring
  unfold byteOf
  rw [hw', Int.add_mul_ediv_left _ _ (by positivity), Int.add_mul_emod_self_left]

/-- The quotient that starts with the replaced byte. -/
theorem setByteOf_ediv (w : ℤ) (i x : ℕ) :
    setByteOf w i x / 256 ^ i = w / 256 ^ i + (x - w / 256 ^ i % 256) := by
  unfold setByteOf
  rw [Int.add_mul_ediv_right _ _ (by positivity), coe_byteOf]

theorem byteOf_setByteOf_self (w : ℤ) (i : ℕ) (hx : x < 256) : byteOf (setByteOf w i x) i = x := by
  unfold byteOf
  rw [setByteOf_ediv]
  omega

theorem byteOf_setByteOf_ne (w : ℤ) (hx : x < 256) (hij : j ≠ i) :
    byteOf (setByteOf w i x) j = byteOf w j := by
  rcases Nat.lt_or_gt_of_ne hij with h | h
  · -- the bytes below are those of the remainder
    refine @byteOf_congr _ _ j i ?_ h
    exact Int.modEq_iff_dvd.mpr ⟨byteOf w i - x, by unfold setByteOf; ring⟩
  · -- the bytes above are those of the quotient
    have hsplit : ∀ v : ℤ, v / 256 ^ j = v / 256 ^ i / 256 / 256 ^ (j - (i + 1)) := by
      intro v
      rw [Int.ediv_ediv_of_nonneg (by positivity), Int.ediv_ediv_of_nonneg (by positivity),
        ← mul_assoc, ← pow_succ, ← pow_add, Nat.add_sub_cancel' h]
    have hquot : setByteOf w i x / 256 ^ i / 256 = w / 256 ^ i / 256 := by
      rw [setByteOf_ediv]
      omega
    unfold byteOf
    rw [hsplit, hsplit w, hquot]

/-! ## Bytes of the memory -/

section Memory

variable (n)

/-- The byte at the byte address `a`. -/
def byteAt (m : ℕ → ℤ) (a : ℕ) : ℕ := byteOf (m (a / n)) (a % n)

/-- The memory with the byte `x` written at the byte address `a`. -/
def putByte (m : ℕ → ℤ) (a x : ℕ) : ℕ → ℤ :=
  Function.update m (a / n) ((setByteOf (m (a / n)) (a % n) x).bmod (256 ^ n))

/-- The unsigned word of `k` bytes at the byte address `a`. -/
def wordAt (m : ℕ → ℤ) (a : ℕ) : ℕ → ℕ
  | 0 => 0
  | k + 1 => byteAt n m a + 256 * wordAt m (a + 1) k

/-- The memory with the word `x` of `k` bytes written at the byte address `a`. -/
def putWord (m : ℕ → ℤ) (a : ℕ) : ℕ → ℕ → ℕ → ℤ
  | 0, _ => m
  | k + 1, x => putWord (putByte n m a (x % 256)) (a + 1) k (x / 256)

variable {n} {m m' : ℕ → ℤ} {a b k u : ℕ}

theorem byteAt_congr (h : m' (a / n) = m (a / n)) : byteAt n m' a = byteAt n m a := by
  unfold byteAt
  rw [h]

/-- A write stays in the word of its byte. -/
theorem putByte_off (m : ℕ → ℤ) (x : ℕ) (hu : u ≠ a / n) : putByte n m a x u = m u :=
  Function.update_of_ne hu _ _

/-- The bytes of the word that is written. -/
theorem byteAt_putByte_same (hn : 0 < n) (m : ℕ → ℤ) (x : ℕ) (hb : b / n = a / n) :
    byteAt n (putByte n m a x) b = byteOf (setByteOf (m (a / n)) (a % n) x) (b % n) := by
  unfold byteAt putByte
  rw [hb, Function.update_self]
  refine byteOf_congr ?_ (Nat.mod_lt _ hn)
  have h : (setByteOf (m (a / n)) (a % n) x).bmod (256 ^ n) ≡ setByteOf (m (a / n)) (a % n) x
      [ZMOD ((256 ^ n : ℕ) : ℤ)] := Int.bmod_emod
  exact_mod_cast h

/-- A byte that is written is read back. -/
theorem byteAt_putByte_self (hn : 0 < n) (m : ℕ → ℤ) (a : ℕ) (hx : x < 256) :
    byteAt n (putByte n m a x) a = x := by
  rw [byteAt_putByte_same hn m x rfl, byteOf_setByteOf_self _ _ hx]

/-- A write leaves the other bytes as they are. -/
theorem byteAt_putByte_ne (hn : 0 < n) (m : ℕ → ℤ) (hx : x < 256) (hb : b ≠ a) :
    byteAt n (putByte n m a x) b = byteAt n m b := by
  by_cases hword : b / n = a / n
  · rw [byteAt_putByte_same hn m x hword, byteOf_setByteOf_ne _ hx]
    · unfold byteAt
      rw [hword]
    · intro hmod
      exact hb (by rw [← Nat.div_add_mod b n, ← Nat.div_add_mod a n, hword, hmod])
  · exact byteAt_congr (putByte_off m x hword)

/-- A word is as wide as its bytes. -/
theorem wordAt_congr (h : ∀ i < k, byteAt n m' (a + i) = byteAt n m (a + i)) :
    wordAt n m' a k = wordAt n m a k := by
  induction k generalizing a with
  | zero => rfl
  | succ k ih =>
    unfold wordAt
    rw [ih fun i hi => by simpa only [Nat.add_assoc, Nat.add_comm 1] using h (i + 1) (by omega)]
    rw [show byteAt n m' a = byteAt n m a from h 0 (by omega)]

/-- Writing a word leaves the bytes outside it as they are. -/
theorem byteAt_putWord_off (hn : 0 < n) (m : ℕ → ℤ) (x : ℕ) (hb : b < a ∨ a + k ≤ b) :
    byteAt n (putWord n m a k x) b = byteAt n m b := by
  induction k generalizing m a x with
  | zero => rfl
  | succ k ih =>
    unfold putWord
    rw [ih _ _ (by omega), byteAt_putByte_ne hn m (Nat.mod_lt _ (by norm_num)) (by omega)]

/-- A word that is written is read back. -/
theorem wordAt_putWord (hn : 0 < n) (m : ℕ → ℤ) (a : ℕ) (hx : x < 256 ^ k) :
    wordAt n (putWord n m a k x) a k = x := by
  induction k generalizing m a x with
  | zero => simp at hx; simp [wordAt, hx]
  | succ k ih =>
    unfold wordAt putWord
    rw [byteAt_putWord_off hn _ _ (.inl (Nat.lt_succ_self a)),
      byteAt_putByte_self hn m a (Nat.mod_lt _ (by norm_num)),
      ih _ _ (Nat.div_lt_of_lt_mul (by rwa [pow_succ'] at hx))]
    omega

/-- Writing a word stays in the words of its bytes. -/
theorem putWord_off (hn : 0 < n) (m : ℕ → ℤ) (x : ℕ) (hu : n * u + n ≤ a ∨ a + k ≤ n * u) :
    putWord n m a k x u = m u := by
  induction k generalizing m a x with
  | zero => rfl
  | succ k ih =>
    unfold putWord
    rw [ih _ _ (by omega), putByte_off]
    rintro rfl
    have h₁ := Nat.div_mul_le_self a n
    have h₂ := Nat.lt_div_mul_add hn (a := a)
    rw [Nat.mul_comm] at h₁ h₂
    omega

end Memory

end Cs444
