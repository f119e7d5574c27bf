import Mathlib.Algebra.Order.Ring.Abs
import Mathlib.Data.List.Basic
import Mathlib.Tactic.Abel
import Mathlib.Tactic.Linarith

/-!
# Tours of points on a line

`travel x l`: the way from `x` through the points `l`, in their order. No tour is shorter than the
distance of two points that it visits, so a tour that goes up and then down is at most three times as
long as any other tour of its points (`travel_up_down_le`).
-/

namespace Cs444

variable {α : Type*} [CommRing α] [LinearOrder α]

/-- The length of the way from `x` through the points of `l`. -/
def travel (x : α) : List α → α
  | [] => 0
  | y :: l => |y - x| + travel y l

theorem travel_append_cons (x y : α) (l m : List α) :
    travel x (l ++ y :: m) = travel x (l ++ [y]) + travel y m := by
  induction l generalizing x with
  | nil => simp [travel]
  | cons z l ih =>
    show |z - x| + travel z (l ++ y :: m) = |z - x| + travel z (l ++ [y]) + travel y m
    rw [ih, add_assoc]

theorem travel_concat (x y : α) (l : List α) :
    travel x (l ++ [y]) = travel x l + |y - (x :: l).getLast (List.cons_ne_nil x l)| := by
  induction l generalizing x with
  | nil => simp [travel]
  | cons z l ih =>
    rw [List.getLast_cons (List.cons_ne_nil z l)]
    show |z - x| + travel z (l ++ [y]) = |z - x| + travel z l + _
    rw [ih, add_assoc]

variable [IsStrictOrderedRing α] {x y z : α} {l m up down : List α}

theorem travel_nonneg (x : α) (l : List α) : 0 ≤ travel x l := by
  induction l generalizing x with
  | nil => exact le_rfl
  | cons y l ih => exact add_nonneg (abs_nonneg _) (ih y)

/-! ## No tour is shorter than a distance -/

theorem abs_sub_le_travel (hy : y ∈ l) : |y - x| ≤ travel x l := by
  induction l generalizing x with
  | nil => cases hy
  | cons w l ih =>
    rcases List.mem_cons.mp hy with rfl | hy
    · exact le_add_of_nonneg_right (travel_nonneg y l)
    · calc |y - x| ≤ |y - w| + |w - x| := abs_sub_le y w x
        _ ≤ travel w l + |w - x| := by
          gcongr
          exact ih hy
        _ = travel x (w :: l) := add_comm _ _

/-- Two points of a tour. -/
theorem sub_le_travel (hy : y ∈ l) (hz : z ∈ l) : y - z ≤ travel x l := by
  induction l generalizing x with
  | nil => cases hy
  | cons w l ih =>
    have hrest : travel w l ≤ travel x (w :: l) := le_add_of_nonneg_left (abs_nonneg _)
    rcases List.mem_cons.mp hy with rfl | hyl
    · rcases List.mem_cons.mp hz with rfl | hz
      · rw [sub_self]
        exact travel_nonneg _ _
      · have hdist : |z - y| ≤ travel y l := abs_sub_le_travel hz
        rw [abs_sub_comm] at hdist
        exact (le_abs_self _).trans (hdist.trans hrest)
    · rcases List.mem_cons.mp hz with rfl | hz
      · have hdist : |y - z| ≤ travel z l := abs_sub_le_travel hyl
        exact (le_abs_self _).trans (hdist.trans hrest)
      · exact (ih hyl hz).trans hrest

/-! ## Up and down -/

theorem travel_rising (h : (x :: l).Pairwise (· ≤ ·)) :
    travel x l = (x :: l).getLast (List.cons_ne_nil x l) - x := by
  induction l generalizing x with
  | nil => simp [travel]
  | cons y l ih =>
    obtain ⟨hx, hl⟩ := List.pairwise_cons.mp h
    have hxy : x ≤ y := hx y List.mem_cons_self
    rw [List.getLast_cons (List.cons_ne_nil y l), travel, ih hl, abs_of_nonneg (sub_nonneg.mpr hxy)]
    abel

theorem travel_falling (h : (x :: l).Pairwise (· ≥ ·)) :
    travel x l = x - (x :: l).getLast (List.cons_ne_nil x l) := by
  induction l generalizing x with
  | nil => simp [travel]
  | cons y l ih =>
    obtain ⟨hx, hl⟩ := List.pairwise_cons.mp h
    have hxy : y ≤ x := hx y List.mem_cons_self
    rw [List.getLast_cons (List.cons_ne_nil y l), travel, ih hl, abs_of_nonpos (sub_nonpos.mpr hxy)]
    abel

/-- **Up and then down** is at most three times as far as any other way through the points. -/
theorem travel_up_down_le (hup : up.Pairwise (· ≤ ·)) (hdown : down.Pairwise (· ≥ ·))
    (hm : ∀ y ∈ up ++ down, y ∈ m) (x : α) : travel x (up ++ down) ≤ 3 * travel x m := by
  have hnonneg := travel_nonneg x m
  -- the way to the first point, and between any two
  have hfirst : ∀ y ∈ up ++ down, |y - x| ≤ travel x m := fun y hy => abs_sub_le_travel (hm y hy)
  have hdist : ∀ y ∈ up ++ down, ∀ z ∈ up ++ down, y - z ≤ travel x m :=
    fun y hy z hz => sub_le_travel (hm y hy) (hm z hz)
  cases up with
  | nil =>
    cases down with
    | nil => simpa [travel] using hnonneg
    | cons d down =>
      have hlast := List.getLast_mem (List.cons_ne_nil d down)
      have h₁ := hfirst d List.mem_cons_self
      have h₂ := hdist d List.mem_cons_self _ hlast
      rw [List.nil_append, travel, travel_falling hdown]
      linarith
  | cons a up =>
    have hu : (a :: up).getLast (List.cons_ne_nil a up) ∈ (a :: up) ++ down :=
      List.mem_append_left _ (List.getLast_mem _)
    have h₁ := hfirst a List.mem_cons_self
    cases down with
    | nil =>
      have h₂ := hdist _ hu a List.mem_cons_self
      rw [List.append_nil, travel, travel_rising hup]
      linarith
    | cons d down =>
      have hd : d ∈ (a :: up) ++ d :: down := List.mem_append_right _ List.mem_cons_self
      have hw : (d :: down).getLast (List.cons_ne_nil d down) ∈ (a :: up) ++ d :: down :=
        List.mem_append_right _ (List.getLast_mem _)
      rw [travel_append_cons, travel_falling hdown, List.cons_append, travel, travel_concat,
        travel_rising hup]
      -- the tour turns at the higher of the two ends
      rcases le_total ((a :: up).getLast (List.cons_ne_nil a up)) d with hle | hle
      · have h₂ := hdist d hd a List.mem_cons_self
        have h₃ := hdist d hd _ hw
        rw [abs_of_nonneg (sub_nonneg.mpr hle)]
        linarith
      · have h₂ := hdist _ hu a List.mem_cons_self
        have h₃ := hdist _ hu _ hw
        rw [abs_of_nonpos (sub_nonpos.mpr hle)]
        linarith

end Cs444
