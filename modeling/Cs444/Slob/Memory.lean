import Cs444.Lib.Spans

/-!
# Units, addresses and free blocks in memory

`slob.c` cuts pages into units of `sizeof(slob_t)` bytes. Pointers to `slob_t` are modelled by the
number of the unit they point at, so pointer arithmetic is arithmetic on `ℕ` and the byte address
of `p` is `SLOB_UNIT * p`. A unit holds one `slobidx_t`, a signed integer of `SLOB_UNIT` bytes.

A free block is encoded in the units it occupies (`setSlob`): one of several units stores its size
and the offset of the next free block in its first two units, one of a single unit stores the
negated offset. `Encodes m p n q` says that `m` holds such an encoding at `p`, for the size `n` and
the next block `q`; `slobUnits` and `slobNext` read it back, and it depends only on the units of
the block. `Chain m e l` is the address-linked list of the free blocks `l`, ended by `e`.
-/

namespace Cs444.Slob

/-! ## The architecture -/

/-- The constants of the target: `PAGE_SHIFT`, the width of `unsigned long`, and whether
`CONFIG_NUMA` is set. A page is larger than `ZERO_SIZE_PTR` and its offsets fit in an `int`. -/
structure Arch where
  pageShift : ℕ
  wordBits : ℕ
  numa : Bool
  five_le : 5 ≤ pageShift
  le_thirty : pageShift ≤ 30
  lt_word : pageShift < wordBits

variable (A : Arch)

def Arch.PAGE_SIZE : ℕ := 2 ^ A.pageShift

/-- `sizeof(slob_t)`: `slobidx_t` is `s16` when page offsets fit in it, and `s32` otherwise. -/
def Arch.SLOB_UNIT : ℕ := if A.PAGE_SIZE ≤ 32767 * 2 then 2 else 4

/-- `SLOB_UNITS(size) = DIV_ROUND_UP(size, SLOB_UNIT)`. -/
def Arch.SLOB_UNITS (size : ℕ) : ℕ := (size + A.SLOB_UNIT - 1) / A.SLOB_UNIT

/-- The units of a page, `SLOB_UNITS(PAGE_SIZE)`. -/
def Arch.pageUnits : ℕ := A.SLOB_UNITS A.PAGE_SIZE

/-- Conversion to `slobidx_t`. -/
def Arch.slobidx (x : ℤ) : ℤ := x.bmod (2 ^ (8 * A.SLOB_UNIT))

/-- `(slob_t *)((unsigned long)s & PAGE_MASK)`. -/
def Arch.base (s : ℕ) : ℕ := s / A.pageUnits * A.pageUnits

/-- `virt_to_page(s)`, as a page frame number. -/
def Arch.virtToPage (s : ℕ) : ℕ := s / A.pageUnits

/-- `page_address` of the page frame `pfn`. -/
def Arch.pageAddress (pfn : ℕ) : ℕ := pfn * A.pageUnits

/-- `ALIGN(x, a)`, i.e. `(x + (a - 1)) & ~(a - 1)`, with `y & ~mask` written `y - (y & mask)`. -/
def ALIGN (x a : ℕ) : ℕ := x + (a - 1) - ((x + (a - 1)) &&& (a - 1))

section Arch

theorem Arch.slobUnit_cases : A.SLOB_UNIT = 2 ∨ A.SLOB_UNIT = 4 := by
  unfold Arch.SLOB_UNIT; split_ifs <;> simp

theorem Arch.slobUnit_pos : 0 < A.SLOB_UNIT := by
  rcases A.slobUnit_cases with h | h <;> omega

theorem Arch.slobUnit_dvd_four : A.SLOB_UNIT ∣ 4 := by
  rcases A.slobUnit_cases with h | h
  · rw [h]; decide
  · rw [h]

theorem Arch.slobUnit_dvd_pageSize : A.SLOB_UNIT ∣ A.PAGE_SIZE :=
  A.slobUnit_dvd_four.trans (pow_dvd_pow 2 (by have := A.five_le; omega : 2 ≤ A.pageShift))

theorem Arch.pageUnits_mul : A.pageUnits * A.SLOB_UNIT = A.PAGE_SIZE := by
  obtain ⟨k, hk⟩ := A.slobUnit_dvd_pageSize
  have hpos := A.slobUnit_pos
  have : A.pageUnits = k := by
    unfold Arch.pageUnits Arch.SLOB_UNITS
    rw [hk, Nat.add_sub_assoc hpos, Nat.mul_add_div hpos, Nat.div_eq_of_lt (by omega)]
    omega
  rw [this, hk, Nat.mul_comm]

theorem Arch.pageUnits_pos : 0 < A.pageUnits := by
  have h := A.pageUnits_mul
  have : 0 < A.PAGE_SIZE := Nat.two_pow_pos _
  by_contra h0
  simp [Nat.eq_zero_of_not_pos h0] at h
  omega

/-- Page offsets fit in `slobidx_t`. -/
theorem Arch.pageUnits_lt : 2 * A.pageUnits < 2 ^ (8 * A.SLOB_UNIT) := by
  have h := A.pageUnits_mul
  by_cases hp : A.PAGE_SIZE ≤ 32767 * 2
  · have hu : A.SLOB_UNIT = 2 := if_pos hp
    rw [hu] at h ⊢
    norm_num; omega
  · have hu : A.SLOB_UNIT = 4 := if_neg hp
    have hmax : A.PAGE_SIZE ≤ 2 ^ 30 := Nat.pow_le_pow_right (by norm_num) A.le_thirty
    rw [hu] at h ⊢
    norm_num at hmax ⊢; omega

theorem Arch.slobidx_eq {x : ℤ} (h₁ : -(A.pageUnits : ℤ) ≤ x) (h₂ : x ≤ A.pageUnits) :
    A.slobidx x = x := by
  have h := A.pageUnits_lt
  zify at h
  unfold Arch.slobidx
  apply Int.bmod_eq_of_le <;> push_cast <;> omega

/-- A block smaller than a page takes at most the units of a page. -/
theorem Arch.units_le {size : ℕ} (h : size ≤ A.PAGE_SIZE) : A.SLOB_UNITS size ≤ A.pageUnits :=
  Nat.div_le_div_right (by omega)

theorem Arch.units_pos {size : ℕ} (h : 0 < size) : 0 < A.SLOB_UNITS size := by
  have := A.slobUnit_pos
  exact Nat.div_pos (by omega) this

theorem Arch.base_le (s : ℕ) : A.base s ≤ s := Nat.div_mul_le_self _ _

theorem Arch.lt_base_add (s : ℕ) : s < A.base s + A.pageUnits := by
  have := Nat.lt_div_mul_add A.pageUnits_pos (a := s)
  simpa [Arch.base] using this

/-- The units of a page share its base. -/
theorem Arch.base_eq {pfn s : ℕ} (h₁ : A.pageAddress pfn ≤ s)
    (h₂ : s < A.pageAddress pfn + A.pageUnits) : A.base s = A.pageAddress pfn := by
  have hd : s / A.pageUnits = pfn := by
    refine Nat.div_eq_of_lt_le h₁ ?_
    rw [Nat.succ_mul]; exact h₂
  unfold Arch.base Arch.pageAddress
  rw [hd]

theorem Arch.virtToPage_eq {pfn s : ℕ} (h₁ : A.pageAddress pfn ≤ s)
    (h₂ : s < A.pageAddress pfn + A.pageUnits) : A.virtToPage s = pfn := by
  refine Nat.div_eq_of_lt_le h₁ ?_
  rw [Nat.succ_mul]; exact h₂

theorem le_ALIGN (x a : ℕ) : x ≤ ALIGN x a := by
  unfold ALIGN
  have : (x + (a - 1)) &&& (a - 1) ≤ a - 1 := Nat.and_le_right
  omega

/-- For a power of two, `ALIGN` rounds up to a multiple. -/
theorem ALIGN_two_pow (x k : ℕ) : ALIGN x (2 ^ k) = (x + (2 ^ k - 1)) / 2 ^ k * 2 ^ k := by
  unfold ALIGN
  rw [Nat.and_two_pow_sub_one_eq_mod]
  have := Nat.div_add_mod' (x + (2 ^ k - 1)) (2 ^ k)
  omega

theorem dvd_ALIGN_two_pow (x k : ℕ) : 2 ^ k ∣ ALIGN x (2 ^ k) := by
  rw [ALIGN_two_pow]; exact Nat.dvd_mul_left _ _

theorem ALIGN_of_dvd {x k : ℕ} (h : 2 ^ k ∣ x) : ALIGN x (2 ^ k) = x := by
  obtain ⟨c, rfl⟩ := h
  have hpos : 0 < 2 ^ k := Nat.two_pow_pos k
  rw [ALIGN_two_pow, Nat.mul_add_div hpos, Nat.div_eq_of_lt (by omega), Nat.add_zero, Nat.mul_comm]

end Arch

/-! ## Free blocks in memory -/

/-- The `units` word of every unit. -/
abbrev Mem := ℕ → ℤ

/-- Encode the given size and next info into a free slob block `s`. -/
def setSlob (m : Mem) (s size next : ℕ) : Mem :=
  let base := A.base s
  let offset := A.slobidx ((next : ℤ) - base)
  let size := A.slobidx size
  if size > 1 then Function.update (Function.update m s size) (s + 1) offset
  else Function.update m s (A.slobidx (-offset))

/-- The size of a slob block. -/
def slobUnits (m : Mem) (s : ℕ) : ℕ := if m s > 0 then (m s).toNat else 1

/-- The next free slob block after this one. -/
def slobNext (m : Mem) (s : ℕ) : ℕ :=
  let next := if m s < 0 then A.slobidx (-m s) else m (s + 1)
  ((A.base s : ℤ) + next).toNat

/-- `s` is the last free block in its page. -/
def slobLast (m : Mem) (s : ℕ) : Bool := slobNext A m s % A.pageUnits = 0

/-- The units of the block at `p` encode the size `n` and the next block `q`. -/
def Encodes (m : Mem) (p n q : ℕ) : Prop :=
  (A.base p < q ∧ q ≤ A.base p + A.pageUnits) ∧
    (n = 1 ∧ m p = -((q : ℤ) - A.base p) ∨
      1 < n ∧ m p = n ∧ m (p + 1) = (q : ℤ) - A.base p)

section Encodes

variable {A} {m m' : Mem} {p n q : ℕ}

theorem Encodes.slobUnits_eq (h : Encodes A m p n q) : slobUnits m p = n := by
  unfold slobUnits
  obtain ⟨hq, ⟨rfl, hm⟩ | ⟨hn, hm, -⟩⟩ := h
  · rw [hm, if_neg (by omega)]
  · rw [hm, if_pos (by omega)]; simp

theorem Encodes.slobNext_eq (h : Encodes A m p n q) : slobNext A m p = q := by
  unfold slobNext
  obtain ⟨hq, ⟨rfl, hm⟩ | ⟨hn, hm, hm'⟩⟩ := h
  · have hneg : m p < 0 := by rw [hm]; omega
    simp only [if_pos hneg]
    rw [A.slobidx_eq (by rw [hm]; omega) (by rw [hm]; omega), hm]
    omega
  · have hnn : ¬ m p < 0 := by rw [hm]; omega
    simp only [if_neg hnn]
    rw [hm']; omega

/-- An encoding only depends on the units of its block. -/
theorem Encodes.congr (h : Encodes A m p n q) (hag : ∀ a, p ≤ a → a < p + n → m' a = m a) :
    Encodes A m' p n q := by
  refine ⟨h.1, ?_⟩
  obtain ⟨-, ⟨rfl, hm⟩ | ⟨hn, hm, hm'⟩⟩ := h
  · exact .inl ⟨rfl, by rw [hag p (by omega) (by omega)]; exact hm⟩
  · refine .inr ⟨hn, ?_, ?_⟩
    · rw [hag p (by omega) (by omega)]; exact hm
    · rw [hag (p + 1) (by omega) (by omega)]; exact hm'

variable (m) in
/-- `setSlob` encodes the block it is given. -/
theorem encodes_setSlob (hn : 0 < n) (hn' : n ≤ A.pageUnits) (hq : A.base p < q)
    (hq' : q ≤ A.base p + A.pageUnits) : Encodes A (setSlob A m p n q) p n q := by
  refine ⟨⟨hq, hq'⟩, ?_⟩
  have h₁ : A.slobidx ((q : ℤ) - A.base p) = (q : ℤ) - A.base p :=
    A.slobidx_eq (by omega) (by omega)
  have h₂ : A.slobidx n = n := A.slobidx_eq (by omega) (by omega)
  simp only [setSlob, h₁, h₂]
  by_cases h1 : n = 1
  · subst h1
    rw [if_neg (by norm_num), A.slobidx_eq (by omega) (by omega)]
    exact .inl ⟨rfl, by simp⟩
  · rw [if_pos (by omega)]
    exact .inr ⟨by omega, by simp, by simp⟩

variable (m q) in
/-- `setSlob` writes only units of its block. -/
theorem setSlob_frame {a : ℕ} (hn : 0 < n) (hn' : n ≤ A.pageUnits) (ha : a < p ∨ p + n ≤ a) :
    setSlob A m p n q a = m a := by
  have h₂ : A.slobidx n = n := A.slobidx_eq (by omega) (by omega)
  simp only [setSlob, h₂]
  by_cases h1 : n = 1
  · rw [if_neg (by omega), Function.update_of_ne (by omega)]
  · rw [if_pos (by omega), Function.update_of_ne (by omega), Function.update_of_ne (by omega)]

end Encodes

/-! ## Chains of free blocks -/

/-- The address of the first block of a list, `e` when there is none. -/
def headOr (e : ℕ) : List Span → ℕ
  | [] => e
  | b :: _ => b.start

/-- Each block of the list is encoded with the address of the one after it, the last with `e`. -/
def Chain (m : Mem) (e : ℕ) : List Span → Prop
  | [] => True
  | b :: l => Encodes A m b.start b.len (headOr e l) ∧ Chain m e l

section Chain

variable {A} {m m' : Mem} {e : ℕ} {l l' : List Span}

theorem headOr_append (e : ℕ) (l l' : List Span) : headOr e (l ++ l') = headOr (headOr e l') l := by
  cases l <;> rfl

theorem chain_append : Chain A m e (l ++ l') ↔ Chain A m (headOr e l') l ∧ Chain A m e l' := by
  induction l with
  | nil => simp [Chain]
  | cons b l ih => simp only [List.cons_append, Chain, ih, headOr_append, and_assoc]

/-- A chain survives any memory that agrees on the units of its blocks. -/
theorem Chain.congr (h : Chain A m e l) (hag : ∀ b ∈ l, ∀ a, b.Has a → m' a = m a) :
    Chain A m' e l := by
  induction l with
  | nil => trivial
  | cons b l ih =>
    refine ⟨h.1.congr ?_, ih h.2 fun c hc => hag c (List.mem_cons_of_mem _ hc)⟩
    intro a h₁ h₂
    exact hag b (by simp) a ⟨h₁, h₂⟩

end Chain

end Cs444.Slob
