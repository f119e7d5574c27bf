import Mathlib

/-!
# Memories cut into blocks

A memory is a function from addresses to values. `copy` moves a range of values from one memory to
another, and `mapInto` moves it block by block through a function `f` on blocks of `n` values.
`mapAll` reads a whole memory through `f`, with the blocks at the multiples of `n`.

When `g` undoes `f`, reading through `g` what was written through `f` is copying
(`mapAll_mapInto`), and reading a range through `g` is copying out of the memory read through `g`
(`mapInto_eq_copy`), both at aligned places.
-/

namespace Cs444

variable {α : Type*} {n : ℕ}

/-- The block of `n` values at `o`. -/
def block (n : ℕ) (m : ℕ → α) (o : ℕ) : Fin n → α := fun j => m (o + j)

/-- The block `b` stored at `o`. -/
def putBlock (m : ℕ → α) (o : ℕ) (b : Fin n → α) : ℕ → α := fun a =>
  if h : o ≤ a ∧ a < o + n then b ⟨a - o, by omega⟩ else m a

/-- `len` values moved from `so` in `src` to `o`. -/
def copy (m : ℕ → α) (o : ℕ) (src : ℕ → α) (so len : ℕ) : ℕ → α := fun a =>
  if o ≤ a ∧ a < o + len then src (so + (a - o)) else m a

/-! ## Storing blocks -/

section Store

variable {ι : Type*} {place : ι → ℕ} {b : ι → Fin n → α} {l : List ι} {a : ℕ}

/-- What the blocks do not cover stays. -/
theorem foldl_putBlock_of_outside (h : ∀ i ∈ l, ¬ (place i ≤ a ∧ a < place i + n)) (m : ℕ → α) :
    l.foldl (fun m i => putBlock m (place i) (b i)) m a = m a := by
  induction l generalizing m with
  | nil => rfl
  | cons i l ih =>
    obtain ⟨hi, hl⟩ := List.forall_mem_cons.mp h
    rw [List.foldl_cons, ih hl]
    exact dif_neg hi

/-- What they cover is theirs, whatever was there before. -/
theorem foldl_putBlock_of_covered (h : ∃ i ∈ l, place i ≤ a ∧ a < place i + n) (m m' : ℕ → α) :
    l.foldl (fun m i => putBlock m (place i) (b i)) m a =
      l.foldl (fun m i => putBlock m (place i) (b i)) m' a := by
  induction l generalizing m m' with
  | nil =>
    obtain ⟨i, hi, -⟩ := h
    cases hi
  | cons i l ih =>
    rw [List.foldl_cons, List.foldl_cons]
    by_cases hl : ∃ i ∈ l, place i ≤ a ∧ a < place i + n
    · exact ih hl _ _
    · -- the last block that covers the place is the first one
      have hout : ∀ i ∈ l, ¬ (place i ≤ a ∧ a < place i + n) := fun i hi hcov => hl ⟨i, hi, hcov⟩
      obtain ⟨i', hi', hcov⟩ := h
      obtain rfl : i' = i := (List.mem_cons.mp hi').resolve_right fun hmem => hout i' hmem hcov
      rw [foldl_putBlock_of_outside hout, foldl_putBlock_of_outside hout]
      unfold putBlock
      rw [dif_pos hcov, dif_pos hcov]

end Store

variable [NeZero n]

/-- `len` values moved from `so` in `src` to `o`, block by block through `f`. -/
def mapInto (f : (Fin n → α) → Fin n → α) (m : ℕ → α) (o : ℕ) (src : ℕ → α) (so len : ℕ) : ℕ → α :=
  fun a =>
    if o ≤ a ∧ a < o + len then f (block n src (so + (a - o) / n * n)) (Fin.ofNat n (a - o)) else m a

/-- The memory read through `f`. -/
def mapAll (f : (Fin n → α) → Fin n → α) (m : ℕ → α) : ℕ → α := fun a =>
  f (block n m (a / n * n)) (Fin.ofNat n a)

variable {f g : (Fin n → α) → Fin n → α} {m src : ℕ → α} {o so len : ℕ}

/-! ## Moving block by block -/

@[simp] theorem mapInto_zero : mapInto f m o src so 0 = m := by
  funext a
  unfold mapInto
  rw [if_neg (by omega)]

/-- One more block. -/
theorem mapInto_add_block (hlen : n ∣ len) :
    putBlock (mapInto f m o src so len) (o + len) (f (block n src (so + len))) =
      mapInto f m o src so (len + n) := by
  have hn : 0 < n := Nat.pos_of_ne_zero (NeZero.ne n)
  obtain ⟨k, rfl⟩ := hlen
  funext a
  unfold putBlock mapInto
  by_cases h : o + n * k ≤ a ∧ a < o + n * k + n
  · have hdiv : (a - o) / n = k := by
      refine Nat.div_eq_of_lt_le ?_ ?_
      · rw [Nat.mul_comm]; omega
      · rw [Nat.succ_mul, Nat.mul_comm]; omega
    have hfin : (⟨a - (o + n * k), by omega⟩ : Fin n) = Fin.ofNat n (a - o) := by
      ext
      have hmod := Nat.div_add_mod (a - o) n
      rw [hdiv] at hmod
      simp only [Fin.ofNat]
      omega
    rw [dif_pos h, if_pos (by omega), hdiv, Nat.mul_comm k n, hfin]
  · rw [dif_neg h]
    by_cases h' : o ≤ a ∧ a < o + n * k
    · rw [if_pos h', if_pos (by omega)]
    · rw [if_neg h', if_neg (by omega)]

/-- What is moved only depends on the `len` values of the source. -/
theorem mapInto_congr {src' : ℕ → α} (hlen : n ∣ len)
    (h : ∀ i < len, src' (so + i) = src (so + i)) :
    mapInto f m o src' so len = mapInto f m o src so len := by
  funext a
  unfold mapInto
  split_ifs with ha
  · have hblock : block n src' (so + (a - o) / n * n) = block n src (so + (a - o) / n * n) := by
      obtain ⟨k, rfl⟩ := hlen
      have hk : (a - o) / n + 1 ≤ k := Nat.div_lt_of_lt_mul (by omega)
      have hle : ((a - o) / n + 1) * n ≤ k * n := Nat.mul_le_mul_right n hk
      rw [Nat.succ_mul, Nat.mul_comm k n] at hle
      funext j
      have hj := j.isLt
      unfold block
      rw [Nat.add_assoc]
      exact h _ (by omega)
    rw [hblock]
  · rfl

/-- What a move does to every memory tells how long it is. -/
theorem le_of_mapInto_eq [Nontrivial α] {len' : ℕ}
    (h : ∀ m, mapInto f m o src so len = mapInto f m o src so len') : len' ≤ len := by
  by_contra hlt
  obtain ⟨v, hv⟩ := exists_ne (f (block n src (so + (o + len - o) / n * n)) (Fin.ofNat n (o + len - o)))
  have hval := congrFun (h fun _ => v) (o + len)
  unfold mapInto at hval
  rw [if_neg (by omega), if_pos (by omega)] at hval
  exact hv hval

/-! ## Reading through a function -/

theorem block_mapInto_of_mem (ho : n ∣ o) (hlen : n ∣ len) {a : ℕ} (h₁ : o ≤ a) (h₂ : a < o + len) :
    block n (mapInto f m o src so len) (a / n * n) = f (block n src (so + (a - o) / n * n)) := by
  have hn : 0 < n := Nat.pos_of_ne_zero (NeZero.ne n)
  obtain ⟨k, rfl⟩ := ho
  obtain ⟨l, rfl⟩ := hlen
  obtain ⟨i, rfl⟩ := Nat.exists_eq_add_of_le h₁
  have hdiv : (n * k + i) / n * n = n * k + i / n * n := by
    rw [Nat.mul_add_div hn, Nat.add_mul, Nat.mul_comm k n]
  have hil : i / n + 1 ≤ l := Nat.div_lt_of_lt_mul (by omega)
  have hle : (i / n + 1) * n ≤ l * n := Nat.mul_le_mul_right n hil
  rw [Nat.succ_mul, Nat.mul_comm l n] at hle
  funext j
  have hj := j.isLt
  have hjdiv : (n * k + i / n * n + j - n * k) / n = i / n := by
    rw [Nat.add_assoc, Nat.add_sub_cancel_left, Nat.mul_comm, Nat.mul_add_div hn,
      Nat.div_eq_of_lt hj, Nat.add_zero]
  have hjmod : Fin.ofNat n (n * k + i / n * n + j - n * k) = j := by
    ext
    rw [Nat.add_assoc, Nat.add_sub_cancel_left]
    simp only [Fin.ofNat, Nat.mul_add_mod_self_right, Nat.mod_eq_of_lt hj]
  unfold block
  rw [hdiv]
  unfold mapInto
  rw [if_pos (by omega), hjdiv, hjmod, Nat.add_sub_cancel_left]
  rfl

theorem block_mapInto_of_not_mem (ho : n ∣ o) (hlen : n ∣ len) {a : ℕ} (h : ¬ (o ≤ a ∧ a < o + len)) :
    block n (mapInto f m o src so len) (a / n * n) = block n m (a / n * n) := by
  have hn : 0 < n := Nat.pos_of_ne_zero (NeZero.ne n)
  obtain ⟨k, rfl⟩ := ho
  obtain ⟨l, rfl⟩ := hlen
  have hmod := Nat.div_add_mod a n
  have hlt := Nat.mod_lt a hn
  funext j
  have hj := j.isLt
  unfold block mapInto
  refine if_neg fun hc => h ?_
  -- the block of `a` lies on one side of the range
  rw [Nat.mul_comm (a / n) n] at hc
  have h₁ : k ≤ a / n := by
    by_contra hlt'
    have : n * (a / n + 1) ≤ n * k := Nat.mul_le_mul_left n (by omega)
    rw [Nat.mul_add] at this
    omega
  have h₂ : a / n + 1 ≤ k + l := by
    by_contra hge
    have : n * (k + l) ≤ n * (a / n) := Nat.mul_le_mul_left n (by omega)
    rw [Nat.mul_add] at this
    omega
  have h₃ : n * k ≤ n * (a / n) := Nat.mul_le_mul_left n h₁
  have h₄ : n * (a / n + 1) ≤ n * (k + l) := Nat.mul_le_mul_left n h₂
  rw [Nat.mul_add, Nat.mul_add] at h₄
  omega

/-- An aligned block of the memory read through `f`. -/
theorem block_mapAll {a : ℕ} (ha : n ∣ a) : block n (mapAll f m) a = f (block n m a) := by
  have hn : 0 < n := Nat.pos_of_ne_zero (NeZero.ne n)
  obtain ⟨k, rfl⟩ := ha
  funext j
  have hdiv : (n * k + j) / n * n = n * k := by
    rw [Nat.mul_add_div hn, Nat.div_eq_of_lt j.isLt, Nat.add_zero, Nat.mul_comm]
  have hfin : Fin.ofNat n (n * k + j) = j := by
    ext
    simp only [Fin.ofNat, Nat.mul_add_mod_self_left, Nat.mod_eq_of_lt j.isLt]
  unfold block mapAll
  rw [hdiv, hfin]
  rfl

/-- Reading through `f` what was read through `g`, when `f` undoes `g`. -/
theorem mapAll_mapAll (hfg : ∀ b, f (g b) = b) : mapAll f (mapAll g m) = m := by
  funext a
  show f (block n (mapAll g m) (a / n * n)) (Fin.ofNat n a) = m a
  rw [block_mapAll (Nat.dvd_mul_left n (a / n)), hfg]
  exact congrArg m (Nat.div_add_mod' a n)

/-- **Writing through `f` and reading through `g`** is copying. -/
theorem mapAll_mapInto (hgf : ∀ b, g (f b) = b) (ho : n ∣ o) (hlen : n ∣ len) :
    mapAll g (mapInto f m o src so len) = copy (mapAll g m) o src so len := by
  funext a
  unfold mapAll copy
  split_ifs with h
  · rw [block_mapInto_of_mem ho hlen h.1 h.2, hgf]
    obtain ⟨k, rfl⟩ := ho
    obtain ⟨i, rfl⟩ := Nat.exists_eq_add_of_le h.1
    have hmod := Nat.div_add_mod' i n
    unfold block
    simp only [Fin.ofNat, Nat.mul_add_mod_self_left, Nat.add_sub_cancel_left]
    rw [Nat.add_assoc, hmod]
  · rw [block_mapInto_of_not_mem ho hlen h]

/-- **Reading a range through `g`** is copying out of the memory read through `g`. -/
theorem mapInto_eq_copy (hso : n ∣ so) :
    mapInto g m o src so len = copy m o (mapAll g src) so len := by
  have hn : 0 < n := Nat.pos_of_ne_zero (NeZero.ne n)
  obtain ⟨k, rfl⟩ := hso
  funext a
  unfold mapInto copy mapAll
  split_ifs with h
  · have hdiv : (n * k + (a - o)) / n * n = n * k + (a - o) / n * n := by
      rw [Nat.mul_add_div hn, Nat.add_mul, Nat.mul_comm k n]
    have hfin : Fin.ofNat n (n * k + (a - o)) = Fin.ofNat n (a - o) := by
      ext
      simp [Fin.ofNat]
    rw [hdiv, hfin]
  · rfl

end Cs444
