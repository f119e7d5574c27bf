import Mathlib.Data.List.Range
import Mathlib.Logic.Function.Basic
import Mathlib.Tactic.Ring

/-!
# Recurrences computed in place

A sequence in which each element is computed from one `n` places back, from the one after that, and from
the one `m` places after it (`Recurs`). A window of `n` elements of it is moved on by `n` places when it
is swept once from the left, each element replaced in place from the ones the window holds at that
moment (`sweep_eq`): the elements that are read to the right are still the old ones, and the ones that
are read past the end are the new ones at its front.
-/

namespace Cs444

variable {α : Type*} (n m : ℕ) (f : α → α → α → α)

/-- Each element of the sequence is computed from three before it. -/
def Recurs (x : ℕ → α) : Prop := ∀ k, x (k + n) = f (x k) (x (k + 1)) (x (k + m))

/-- The element `k` of a window is replaced by the one `n` places on. -/
def renew (a : ℕ → α) (k : ℕ) : ℕ → α :=
  Function.update a k (f (a k) (a ((k + 1) % n)) (a ((k + m) % n)))

/-- The first `k` elements of a window are replaced, from the left. -/
def sweep (a : ℕ → α) : ℕ → ℕ → α
  | 0 => a
  | k + 1 => renew n m f (sweep a k) k

/-- The sequence that starts with the first `n` elements of `a`. -/
def extend (a : ℕ → α) (i : ℕ) : α :=
  if _h : 1 < n ∧ m < n ∧ n ≤ i then
    f (extend a (i - n)) (extend a (i - n + 1)) (extend a (i - n + m))
  else a i
termination_by i

variable {n m f} {x y a : ℕ → α} {b k i : ℕ}

theorem sweep_eq_foldl (a : ℕ → α) (k : ℕ) :
    sweep n m f a k = (List.range k).foldl (renew n m f) a := by
  induction k with
  | zero => rfl
  | succ k ih => rw [List.range_succ, List.foldl_append, ← ih]; rfl

theorem extend_of_lt (hi : i < n) : extend n m f a i = a i := by
  unfold extend
  rw [dif_neg (by omega)]

theorem recurs_extend (hm : m < n) (hn : 1 < n) : Recurs n m f (extend n m f a) := by
  intro k
  rw [extend, dif_pos ⟨hn, hm, Nat.le_add_left ..⟩, Nat.add_sub_cancel]

/-- What a window reads at a place, when its first `k` elements have been replaced. -/
theorem window_read (hw : ∀ i < n, a i = if i < k then x (b + n + i) else x (b + i)) (hk : k < n)
    {d : ℕ} (hd : d < n) (hpos : 0 < d) : a ((k + d) % n) = x (b + (k + d)) := by
  rcases Nat.lt_or_ge (k + d) n with hlt | hge
  · -- not replaced yet
    rw [Nat.mod_eq_of_lt hlt, hw _ hlt, if_neg (by omega)]
  · -- past the end: the front of the window, replaced before
    rw [Nat.mod_eq_sub_mod hge, Nat.mod_eq_of_lt (by omega), hw _ (by omega), if_pos (by omega)]
    congr 1
    omega

/-- One more element of the window is replaced. -/
theorem renew_eq (hx : Recurs n m f x) (hm : m < n) (hpos : 0 < m)
    (hw : ∀ i < n, a i = if i < k then x (b + n + i) else x (b + i)) (hk : k < n) (hi : i < n) :
    renew n m f a k i = if i < k + 1 then x (b + n + i) else x (b + i) := by
  unfold renew
  by_cases hik : i = k
  · subst hik
    have hcur := hw i hk
    rw [if_neg (Nat.lt_irrefl i)] at hcur
    rw [Function.update_self, if_pos (Nat.lt_succ_self i), hcur,
      window_read hw hk (by omega) Nat.one_pos, window_read hw hk hm hpos,
      show b + n + i = b + i + n by ring, hx (b + i), Nat.add_assoc, Nat.add_assoc]
  · rw [Function.update_of_ne hik, hw i hi]
    by_cases hlt : i < k
    · rw [if_pos hlt, if_pos (by omega)]
    · rw [if_neg hlt, if_neg (by omega)]

/-- **A sweep** of a window of the sequence moves it on, element by element. -/
theorem sweep_eq (hx : Recurs n m f x) (hm : m < n) (hpos : 0 < m) (ha : ∀ i < n, a i = x (b + i))
    (hk : k ≤ n) (hi : i < n) : sweep n m f a k i = if i < k then x (b + n + i) else x (b + i) := by
  induction k generalizing i with
  | zero => exact ha i hi
  | succ k ih => exact renew_eq hx hm hpos (fun j hj => ih (by omega) hj) hk hi

/-- A window determines what comes after it. -/
theorem Recurs.eq_of_window (hx : Recurs n m f x) (hy : Recurs n m f y) (hm : m < n) (hn : 1 < n)
    {c : ℕ} (h : ∀ i < n, x (b + i) = y (c + i)) (i : ℕ) : x (b + i) = y (c + i) := by
  induction i using Nat.strong_induction_on with
  | _ i ih =>
    rcases Nat.lt_or_ge i n with hlt | hge
    · exact h i hlt
    · obtain ⟨j, rfl⟩ : ∃ j, i = j + n := ⟨i - n, by omega⟩
      have h₀ := ih j (by omega)
      have h₁ := ih (j + 1) (by omega)
      have h₂ := ih (j + m) (by omega)
      rw [← Nat.add_assoc, ← Nat.add_assoc, hx (b + j), hy (c + j)]
      simp only [Nat.add_assoc] at h₀ h₁ h₂ ⊢
      rw [h₀, h₁, h₂]

end Cs444
