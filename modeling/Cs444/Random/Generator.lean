import Cs444.Lib.Bits
import Cs444.Lib.Recurrence
import Mathlib.Data.List.Range
import Mathlib.Data.Nat.ModEq
import Mathlib.Data.Int.ModEq

/-!
# The random numbers of the producers: `mt19937ar.c` and `random_gen`

`genrand_int32` keeps the last 624 words of a recurrence in `mt`, moves them all on when they are used
up, and tempers the words it returns. `unsigned long` has `w` bits, at least 32. An access to `mt` or to a
key outside the array gives `none`: a function tests the indices it does not have as constants.
-/

namespace Cs444.Random

def N : ℕ := 624
def M : ℕ := 397
def MATRIX_A : ℕ := 0x9908b0df
def UPPER_MASK : ℕ := 0x80000000
def LOWER_MASK : ℕ := 0x7fffffff

/-- The static variables `mt` and `mti`. -/
structure Gen where
  mt : ℕ → ℕ
  mti : ℕ

variable (w : ℕ)

/-! ## Seeding -/

/-- The loop body of `init_genrand`. -/
def seedStep (mt : ℕ → ℕ) (mti : ℕ) : Option (ℕ → ℕ) :=
  if 1 ≤ mti ∧ mti < N then
    some (Function.update mt mti
      ((1812433253 * (mt (mti - 1) ^^^ (mt (mti - 1) >>> 30)) + mti) % 2 ^ w &&& 0xffffffff))
  else none

/-- `init_genrand` -/
def initGenrand (g : Gen) (s : ℕ) : Option Gen :=
  ((List.range' 1 (N - 1)).foldlM (seedStep w) (Function.update g.mt 0 (s &&& 0xffffffff))).map
    fun mt => ⟨mt, N⟩

/-- `if (i>=N) { mt[0] = mt[N-1]; i=1; }` -/
def wrapIndex (mt : ℕ → ℕ) (i : ℕ) : (ℕ → ℕ) × ℕ :=
  if i ≥ N then (Function.update mt 0 (mt (N - 1)), 1) else (mt, i)

/-- The body of the first loop of `init_by_array`, on `mt`, `i` and `j`. -/
def mixKey (key : ℕ → ℕ) (keyLength : ℕ) : (ℕ → ℕ) × ℕ × ℕ → Option ((ℕ → ℕ) × ℕ × ℕ)
  | (mt, i, j) =>
    if 1 ≤ i ∧ i < N ∧ j < keyLength then
      let mixed := (mt i ^^^ ((mt (i - 1) ^^^ (mt (i - 1) >>> 30)) * 1664525 % 2 ^ w)) + key j + j
      let r := wrapIndex (Function.update mt i (mixed % 2 ^ w &&& 0xffffffff)) (i + 1)
      some (r.1, r.2, if j + 1 ≥ keyLength then 0 else j + 1)
    else none

/-- The body of the second loop. -/
def mixIndex : (ℕ → ℕ) × ℕ → Option ((ℕ → ℕ) × ℕ)
  | (mt, i) =>
    if 1 ≤ i ∧ i < N then
      let mixed := (mt i ^^^ ((mt (i - 1) ^^^ (mt (i - 1) >>> 30)) * 1566083941 % 2 ^ w)) + (2 ^ w - i)
      some (wrapIndex (Function.update mt i (mixed % 2 ^ w &&& 0xffffffff)) (i + 1))
    else none

/-- A loop that runs `k` times. -/
def times {σ : Type} (body : σ → Option σ) : ℕ → σ → Option σ
  | 0, s => some s
  | k + 1, s => (body s).bind (times body k)

/-- `init_by_array` -/
def initByArray (g : Gen) (key : ℕ → ℕ) (keyLength : ℕ) : Option Gen :=
  (initGenrand w g 19650218).bind fun g =>
    (times (mixKey w key keyLength) (max N keyLength) (g.mt, 1, 0)).bind fun r =>
      (times (mixIndex w) (N - 1) (r.1, r.2.1)).map fun r =>
        { g with mt := Function.update r.1 0 0x80000000 }

/-! ## Generating -/

/-- `static unsigned long mag01[2]` -/
def mag01 (i : ℕ) : ℕ := if i = 0 then 0 else MATRIX_A

/-- The new word from the old one, the one after it and the one `M` places on. -/
def twist (cur next mid : ℕ) : ℕ :=
  let y := (cur &&& UPPER_MASK) ||| (next &&& LOWER_MASK)
  mid ^^^ (y >>> 1) ^^^ mag01 (y &&& 1)

/-- `y = (mt[kk]&UPPER_MASK)|(mt[next]&LOWER_MASK); mt[kk] = mt[mid] ^ (y >> 1) ^ mag01[y & 0x1UL];` -/
def twistAt (mt : ℕ → ℕ) (kk next mid : ℕ) : Option (ℕ → ℕ) :=
  if kk < N ∧ next < N ∧ mid < N then
    some (Function.update mt kk (twist (mt kk) (mt next) (mt mid)))
  else none

/-- The body of the second loop over `kk`, which reads `mt[kk+(M-N)]`. -/
def twistBack (mt : ℕ → ℕ) (kk : ℕ) : Option (ℕ → ℕ) :=
  if N ≤ kk + M then twistAt mt kk (kk + 1) (kk + M - N) else none

/-- Generate `N` words at one time. -/
def regenerate (mt : ℕ → ℕ) : Option (ℕ → ℕ) :=
  ((List.range (N - M)).foldlM (fun mt kk => twistAt mt kk (kk + 1) (kk + M)) mt).bind fun mt =>
    ((List.range' (N - M) (M - 1)).foldlM twistBack mt).bind fun mt =>
      twistAt mt (N - 1) 0 (M - 1)

/-- The tempering of `genrand_int32`. -/
def temper (y : ℕ) : ℕ :=
  let y := y ^^^ (y >>> 11)
  let y := y ^^^ ((y <<< 7) % 2 ^ w &&& 0x9d2c5680)
  let y := y ^^^ ((y <<< 15) % 2 ^ w &&& 0xefc60000)
  y ^^^ (y >>> 18)

/-- `genrand_int32` -/
def genrandInt32 (g : Gen) : Option (Gen × ℕ) :=
  let g :=
    if g.mti ≥ N then
      -- if init_genrand() has not been called, a default initial seed is used
      (if g.mti = N + 1 then initGenrand w g 5489 else some g).bind fun g =>
        (regenerate g.mt).map fun mt => ⟨mt, 0⟩
    else some g
  g.bind fun g =>
    if g.mti < N then some ({ g with mti := g.mti + 1 }, temper w (g.mt g.mti)) else none

/-- `genrand_int31` -/
def genrandInt31 (g : Gen) : Option (Gen × ℕ) :=
  (genrandInt32 w g).map fun r => (r.1, r.2 >>> 1)

/-- `abs`, of a value converted to `int`: the least `int` has no absolute value. -/
def absInt (x : ℕ) : Option ℕ :=
  let n := (x : ℤ).bmod (2 ^ 32)
  if n = -2 ^ 31 then none else some n.natAbs

/-- `random_gen`: what `rdrand` left in `x` where `cpuid` reports it, and the generator else. `seed` is
what the variable of this name holds, which is never set. -/
def randomGen (rdrand : Option UInt32) (seed : ℕ) (g : Gen) : Option (Gen × ℕ) :=
  match rdrand with
  | some x => some (g, x.toNat)
  | none =>
    (initGenrand w g seed).bind fun g => (genrandInt32 w g).bind fun r =>
      (absInt r.2).map fun x => (r.1, x)

/-! ## Runs -/

/-- A call of the program. -/
inductive Call
  | seed (s : ℕ)
  | array (key : ℕ → ℕ) (keyLength : ℕ)
  | next
  | next31
  | random (rdrand : Option UInt32) (seed : ℕ)

/-- The generator after a call, and the number that it returns. -/
def call (g : Gen) : Call → Option (Gen × Option ℕ)
  | .seed s => (initGenrand w g s).map fun g => (g, none)
  | .array key keyLength => (initByArray w g key keyLength).map fun g => (g, none)
  | .next => (genrandInt32 w g).map fun r => (r.1, some r.2)
  | .next31 => (genrandInt31 w g).map fun r => (r.1, some r.2)
  | .random rdrand seed => (randomGen w rdrand seed g).map fun r => (r.1, some r.2)

/-- The generator after a list of calls, and the numbers that they return. -/
def calls : List Call → Gen → Option (Gen × List ℕ)
  | [], g => some (g, [])
  | c :: cs, g =>
    (call w g c).bind fun r => (calls cs r.1).map fun r' => (r'.1, r.2.toList ++ r'.2)

/-- The variables as the program starts. -/
def start : Gen where
  mt := fun _ => 0
  mti := N + 1

/-- The generator after `k` numbers more. -/
def after (g : Gen) : ℕ → Option Gen
  | 0 => some g
  | k + 1 => (after g k).bind fun g => (genrandInt32 w g).map Prod.fst

/-- The number that `genrand_int32` returns after `k` others. -/
def output (g : Gen) (k : ℕ) : Option ℕ :=
  (after w g k).bind fun g => (genrandInt32 w g).map Prod.snd

end Cs444.Random
