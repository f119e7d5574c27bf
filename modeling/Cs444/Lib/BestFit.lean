import Mathlib

/-!
# Best-fit search over a list

A list is walked from the front. At every candidate `p` that is large enough, the items before it
are scanned for a smaller one that is large enough too (`bestOf`), and the scan's choice is tried;
when it does not fit, the walk goes on (`serve`). The scan looks at the first `n` items only.

* `bestOf_cases`: the scan chooses `p` itself when `p` is a record, an item no larger than any
  large enough item before it, and else the first of the smallest items before it; when `p` is large
  enough, so is the choice, and no large enough item is smaller (`bestOf_least`).
* `serve_eq_some_iff`: what is served is the first choice that fits.
* `serve_isSome_iff`, `serve_smallest_iff`, `serve_cand_iff`: exactly when something is served, when
  it is the smallest item that fits, and when it is a candidate itself.
-/

namespace Cs444

variable {α β : Type*} [LinearOrder β] (u : α → β) (want : β)

/-! ## The scan -/

/-- The scan of `a` for something smaller than `p` that is large enough. -/
def bestOf (p : α) (a : List α) : α :=
  a.foldl (fun best q => if want ≤ u q ∧ u q < u best then q else best) p

/-- No large enough item of `a` is smaller than `p`. -/
def Record (a : List α) (p : α) : Prop := ∀ r ∈ a, want ≤ u r → u p ≤ u r

/-- The item `q` of `a` is the first of the smallest large enough ones, and smaller than `p`. -/
def FirstBest (a : List α) (p q : α) : Prop :=
  ∃ a₁ a₂, a = a₁ ++ q :: a₂ ∧ want ≤ u q ∧ u q < u p ∧
    (∀ r ∈ a₁, want ≤ u r → u q < u r) ∧ ∀ r ∈ a₂, want ≤ u r → u q ≤ u r

variable {u want} {a b l : List α} {p q : α}

theorem bestOf_append_singleton (p : α) (a : List α) (q : α) :
    bestOf u want p (a ++ [q]) =
      if want ≤ u q ∧ u q < u (bestOf u want p a) then q else bestOf u want p a := by
  unfold bestOf
  rw [List.foldl_append]
  rfl

variable (u want) in
/-- **The scan** keeps a record and otherwise chooses the first of the smallest. -/
theorem bestOf_cases (p : α) (a : List α) :
    Record u want a p ∧ bestOf u want p a = p ∨ FirstBest u want a p (bestOf u want p a) := by
  induction a using List.reverseRecOn with
  | nil => exact .inl ⟨by simp [Record], rfl⟩
  | append_singleton a q ih =>
    rw [bestOf_append_singleton]
    by_cases hq : want ≤ u q ∧ u q < u (bestOf u want p a)
    · rw [if_pos hq]
      refine .inr ⟨a, [], rfl, hq.1, ?_, ?_, by simp⟩
      · rcases ih with ⟨-, h⟩ | ⟨-, -, -, -, h, -⟩
        · rw [← h]; exact hq.2
        · exact hq.2.trans h
      · intro r hr hw
        rcases ih with ⟨h, h'⟩ | ⟨a₁, a₂, h, -, -, h₁, h₂⟩
        · rw [h'] at hq
          exact lt_of_lt_of_le hq.2 (h r hr hw)
        · rw [h] at hr
          rcases List.mem_append.mp hr with hr | hr
          · exact hq.2.trans (h₁ r hr hw)
          · rcases List.mem_cons.mp hr with rfl | hr
            · exact hq.2
            · exact lt_of_lt_of_le hq.2 (h₂ r hr hw)
    · rw [if_neg hq]
      rw [not_and, not_lt] at hq
      rcases ih with ⟨h, h'⟩ | ⟨a₁, a₂, h, h', h'', h₁, h₂⟩
      · refine .inl ⟨?_, h'⟩
        intro r hr hw
        rcases List.mem_append.mp hr with hr | hr
        · exact h r hr hw
        · rw [List.mem_singleton] at hr
          subst hr
          rw [← h']
          exact hq hw
      · refine .inr ⟨a₁, a₂ ++ [q], ?_, h', h'', h₁, ?_⟩
        · conv_lhs => rw [h]
          simp
        · intro r hr hw
          rcases List.mem_append.mp hr with hr | hr
          · exact h₂ r hr hw
          · rw [List.mem_singleton] at hr
            subst hr
            exact hq hw

theorem FirstBest.not_record (h : FirstBest u want a p q) : ¬ Record u want a p := by
  intro hr
  obtain ⟨a₁, a₂, rfl, hw, hlt, -, -⟩ := h
  exact absurd (hr q (by simp) hw) (not_le.mpr hlt)

theorem Record.bestOf_eq (h : Record u want a p) : bestOf u want p a = p := by
  rcases bestOf_cases u want p a with ⟨-, h'⟩ | h'
  · exact h'
  · exact absurd h h'.not_record

/-- The first of the smallest is unique. -/
theorem FirstBest.bestOf_eq (h : FirstBest u want a p q) : bestOf u want p a = q := by
  rcases bestOf_cases u want p a with ⟨h', -⟩ | h'
  · exact absurd h' h.not_record
  · generalize bestOf u want p a = x at h'
    obtain ⟨a₁, a₂, rfl, hw, -, h₁, h₂⟩ := h
    obtain ⟨b₁, b₂, hab, hw', -, h₁', h₂'⟩ := h'
    rcases List.append_eq_append_iff.mp hab with ⟨d, rfl, hd⟩ | ⟨d, rfl, hd⟩
    · cases d with
      | nil => simp at hd; exact hd.1.symm
      | cons y d =>
        obtain ⟨rfl, rfl⟩ : q = y ∧ a₂ = d ++ x :: b₂ := by simpa using hd
        exact absurd (h₂ x (by simp) hw') (not_le.mpr (h₁' q (by simp) hw))
    · cases d with
      | nil => simp at hd; exact hd.1
      | cons y d =>
        obtain ⟨rfl, rfl⟩ : x = y ∧ b₂ = d ++ q :: a₂ := by simpa using hd
        exact absurd (h₂' q (by simp) hw) (not_le.mpr (h₁ x (by simp) hw'))

theorem bestOf_le (p : α) (a : List α) : u (bestOf u want p a) ≤ u p := by
  rcases bestOf_cases u want p a with ⟨-, h⟩ | ⟨-, -, -, -, h, -⟩
  · rw [h]
  · exact le_of_lt h

/-- **The choice of the scan** is large enough, and no large enough item is smaller. -/
theorem bestOf_least (hp : want ≤ u p) :
    want ≤ u (bestOf u want p a) ∧ ∀ q ∈ a, want ≤ u q → u (bestOf u want p a) ≤ u q := by
  rcases bestOf_cases u want p a with ⟨hrec, h⟩ | ⟨a₁, a₂, ha, hw, -, h₁, h₂⟩
  · rw [h]
    exact ⟨hp, hrec⟩
  · refine ⟨hw, fun q hq hwq => ?_⟩
    rw [ha] at hq
    rcases List.mem_append.mp hq with hq | hq
    · exact le_of_lt (h₁ q hq hwq)
    · rcases List.mem_cons.mp hq with hq | hq
      · rw [hq]
      · exact h₂ q hq hwq

/-- Scanning `p` itself at the end changes nothing. -/
theorem bestOf_take_self (p : α) (a : List α) (n : ℕ) :
    bestOf u want p ((a ++ [p]).take n) = bestOf u want p (a.take n) := by
  by_cases h : n ≤ a.length
  · rw [List.take_append_of_le_length h]
  · have h₁ : (a ++ [p]).length ≤ n := by simp; omega
    rw [List.take_of_length_le h₁, List.take_of_length_le (by omega), bestOf_append_singleton,
      if_neg]
    exact fun e => absurd (bestOf_le p a) (not_le.mpr e.2)

variable (u want) in
theorem bestOf_mem (p : α) (a : List α) : bestOf u want p a ∈ p :: a := by
  rcases bestOf_cases u want p a with ⟨-, h⟩ | ⟨a₁, a₂, h, -⟩
  · rw [h]; simp
  · generalize bestOf u want p a = x at h
    rw [h]; simp

/-- What the scan chooses before `p` is a record where it stands. -/
theorem FirstBest.record {n : ℕ} (h : FirstBest u want (a.take n) p q) :
    ∃ a₁ a₂, a = a₁ ++ q :: a₂ ∧ want ≤ u q ∧ Record u want (a₁.take n) q := by
  obtain ⟨a₁, a₂, ha, hw, -, h₁, -⟩ := h
  refine ⟨a₁, a₂ ++ a.drop n, ?_, hw, ?_⟩
  · calc a = a.take n ++ a.drop n := (List.take_append_drop n a).symm
      _ = a₁ ++ q :: (a₂ ++ a.drop n) := by rw [ha]; simp
  · intro r hr hr'
    exact le_of_lt (h₁ r (List.mem_of_mem_take hr) hr')

/-! ## The search -/

section Serve

variable (u want) (n : ℕ) (cand fits : α → Bool)

/-- The walk over the list `b`, behind the items `a`. -/
def serve : List α → List α → Option α
  | _, [] => none
  | a, p :: b =>
    if cand p ∧ want ≤ u p ∧ fits (bestOf u want p (a.take n)) then
      some (bestOf u want p (a.take n))
    else serve (a ++ [p]) b

/-- The item `p` behind `a` is tried and the scan's choice fits. -/
def Served (a : List α) (p : α) : Prop :=
  cand p ∧ want ≤ u p ∧ fits (bestOf u want p (a.take n))

end Serve

variable {n : ℕ} {cand fits : α → Bool}

variable (u want n cand fits) in
theorem serve_append (a b : List α) :
    serve u want n cand fits a b = none ∧
        (∀ a' p b', b = a' ++ p :: b' → ¬ Served u want n cand fits (a ++ a') p) ∨
      ∃ a' p b', b = a' ++ p :: b' ∧ Served u want n cand fits (a ++ a') p ∧
        (∀ c q d, a' = c ++ q :: d → ¬ Served u want n cand fits (a ++ c) q) ∧
        serve u want n cand fits a b = some (bestOf u want p ((a ++ a').take n)) := by
  induction b generalizing a with
  | nil => exact .inl ⟨rfl, by simp⟩
  | cons p b ih =>
    unfold serve
    by_cases hp : Served u want n cand fits a p
    · refine .inr ⟨[], p, b, rfl, by rw [List.append_nil]; exact hp, by simp, ?_⟩
      unfold Served at hp
      rw [if_pos hp, List.append_nil]
    · have hp' := hp
      unfold Served at hp'
      rw [if_neg hp']
      have hcons : ∀ {c q d e}, p :: e = c ++ q :: d → c = [] ∧ q = p ∨
          ∃ c', c = p :: c' ∧ e = c' ++ q :: d := by
        intro c q d e h
        cases c with
        | nil => exact .inl ⟨rfl, by simpa using (List.cons.inj h).1.symm⟩
        | cons y c =>
          obtain ⟨rfl, h'⟩ := List.cons.inj h
          exact .inr ⟨c, rfl, h'⟩
      rcases ih (a ++ [p]) with ⟨h₁, h₂⟩ | ⟨a', q, b', rfl, h₁, h₂, h₃⟩
      · refine .inl ⟨h₁, ?_⟩
        intro c q d h
        rcases hcons h with ⟨rfl, rfl⟩ | ⟨c, rfl, h'⟩
        · rw [List.append_nil]; exact hp
        · simpa using h₂ c q d h'
      · refine .inr ⟨p :: a', q, b', rfl, by simpa using h₁, ?_, by simpa using h₃⟩
        intro c r d h
        rcases hcons h with ⟨rfl, rfl⟩ | ⟨c, rfl, h'⟩
        · rw [List.append_nil]; exact hp
        · simpa using h₂ c r d h'

/-- Two places of a list: one comes before the other, or they are the same. -/
theorem place_cases {a' b' : List α} (h : a ++ p :: b = a' ++ q :: b') :
    (∃ d, a' = a ++ p :: d) ∨ (a = a' ∧ p = q) ∨ ∃ d, a = a' ++ q :: d := by
  rcases List.append_eq_append_iff.mp h with ⟨d, rfl, hd⟩ | ⟨d, rfl, hd⟩
  · cases d with
    | nil =>
      obtain ⟨rfl, -⟩ := List.cons.inj hd
      exact .inr (.inl ⟨by simp, rfl⟩)
    | cons y d =>
      obtain ⟨rfl, -⟩ := List.cons.inj hd
      exact .inl ⟨d, rfl⟩
  · cases d with
    | nil =>
      obtain ⟨rfl, -⟩ := List.cons.inj hd
      exact .inr (.inl ⟨by simp, rfl⟩)
    | cons y d =>
      obtain ⟨rfl, -⟩ := List.cons.inj hd
      exact .inr (.inr ⟨d, rfl⟩)

/-- **What is served** is the first choice of the scan that fits. -/
theorem serve_eq_some_iff : serve u want n cand fits [] l = some q ↔
    ∃ a p b, l = a ++ p :: b ∧ Served u want n cand fits a p ∧
      (∀ c r d, a = c ++ r :: d → ¬ Served u want n cand fits c r) ∧
      bestOf u want p (a.take n) = q := by
  have h := serve_append u want n cand fits [] l
  simp only [List.nil_append] at h
  rcases h with ⟨h₁, h₂⟩ | ⟨a, p, b, h₁, h₂, h₃, h₄⟩
  · rw [h₁]
    refine ⟨by simp, ?_⟩
    rintro ⟨a, p, b, h, h', -⟩
    exact absurd h' (h₂ a p b h)
  · rw [h₄]
    constructor
    · intro e
      exact ⟨a, p, b, h₁, h₂, h₃, Option.some.inj e⟩
    · rintro ⟨a', p', b', h, hs, hf, rfl⟩
      -- the first served place is unique
      rw [h₁] at h
      rcases place_cases h with ⟨d, rfl⟩ | ⟨rfl, rfl⟩ | ⟨d, rfl⟩
      · exact absurd h₂ (hf a p d rfl)
      · rfl
      · exact absurd hs (h₃ a' p' d rfl)

theorem serve_eq_none_iff : serve u want n cand fits [] l = none ↔
    ∀ a p b, l = a ++ p :: b → ¬ Served u want n cand fits a p := by
  have h := serve_append u want n cand fits [] l
  simp only [List.nil_append] at h
  rcases h with ⟨h₁, h₂⟩ | ⟨a, p, b, h₁, h₂, -, h₄⟩
  · exact ⟨fun _ => h₂, fun _ => h₁⟩
  · rw [h₄]
    exact ⟨by simp, fun h => absurd h₂ (h a p b h₁)⟩

theorem serve_mem (h : serve u want n cand fits [] l = some q) : q ∈ l ∧ fits q = true := by
  obtain ⟨a, p, b, rfl, ⟨-, -, hf⟩, -, rfl⟩ := serve_eq_some_iff.mp h
  refine ⟨?_, hf⟩
  rcases List.mem_cons.mp (bestOf_mem u want p (a.take n)) with hm | hm
  · rw [hm]; simp
  · exact List.mem_append_left _ (List.mem_of_mem_take hm)

/-- A candidate that fits and is a record is served where it stands. -/
theorem Record.served (hr : Record u want (a.take n) p) (hc : cand p) (hw : want ≤ u p)
    (hf : fits p) : Served u want n cand fits a p := by
  unfold Served
  rw [hr.bestOf_eq]
  exact ⟨hc, hw, hf⟩

/-- A candidate is served at its own place, where it is a record. -/
theorem serve_cand (h : serve u want n cand fits [] l = some q) (hc : cand q) :
    ∃ a b, l = a ++ q :: b ∧ want ≤ u q ∧ Record u want (a.take n) q ∧
      ∀ c r d, a = c ++ r :: d → ¬ Served u want n cand fits c r := by
  obtain ⟨a, p, b, rfl, ⟨hp, hw, hf⟩, hfirst, rfl⟩ := serve_eq_some_iff.mp h
  rcases bestOf_cases u want p (a.take n) with ⟨hr, he⟩ | hb
  · rw [he]
    exact ⟨a, b, rfl, hw, hr, hfirst⟩
  · obtain ⟨c, d, ha, hw', hr⟩ := hb.record
    exact absurd (hr.served hc hw' hf) (hfirst c _ d ha)

section All

variable (hfit : ∀ p ∈ l, fits p → want ≤ u p)
include hfit

/-- **Something is served** exactly when a record fits, if every item is a candidate. -/
theorem serve_isSome_iff : (serve u want n (fun _ => true) fits [] l).isSome ↔
    ∃ a p b, l = a ++ p :: b ∧ fits p ∧ Record u want (a.take n) p := by
  constructor
  · intro h
    obtain ⟨q, hq⟩ := Option.isSome_iff_exists.mp h
    obtain ⟨a, b, hl, -, hr, -⟩ := serve_cand hq rfl
    exact ⟨a, q, b, hl, (serve_mem hq).2, hr⟩
  · rintro ⟨a, p, b, rfl, hf, hr⟩
    by_contra h
    rw [Bool.not_eq_true, Option.isSome_eq_false_iff, Option.isNone_iff_eq_none,
      serve_eq_none_iff] at h
    exact h a p b rfl (hr.served rfl (hfit p (by simp) hf) hf)

/-- **The smallest item that fits is served** exactly when no item that fits hides a smaller one
behind it. -/
theorem serve_smallest_iff (hn : l.length ≤ n) :
    (∀ q, serve u want n (fun _ => true) fits [] l = some q →
        ∀ r ∈ l, r ≠ q → fits r → ¬ u r < u q) ↔
      ∀ a p b, l = a ++ p :: b → fits p → ∀ q ∈ b, fits q → u q < u p →
        ∃ r ∈ a, want ≤ u r ∧ u r < u p := by
  have htake : ∀ {a p b}, l = a ++ p :: b → a.take n = a := by
    rintro a p b rfl
    exact List.take_of_length_le (by simp at hn; omega)
  constructor
  · intro h a p b hl hp q hq hfq hlt
    by_contra hno
    push Not at hno
    have hr : Record u want (a.take n) p := by
      rw [htake hl]
      exact hno
    obtain ⟨q₀, hq₀⟩ := Option.isSome_iff_exists.mp
      ((serve_isSome_iff hfit).mpr ⟨a, p, b, hl, hp, hr⟩)
    obtain ⟨a₀, b₀, hl₀, hw₀, -, hfirst⟩ := serve_cand hq₀ rfl
    have hle : u p ≤ u q₀ := by
      rcases place_cases (hl.symm.trans hl₀) with ⟨d, hd⟩ | ⟨-, rfl⟩ | ⟨d, rfl⟩
      · exact absurd (hr.served rfl (hfit p (by rw [hl]; simp) hp) hp) (hfirst a p d hd)
      · exact le_rfl
      · exact hno q₀ (by simp) hw₀
    have hlt₀ := lt_of_lt_of_le hlt hle
    refine h q₀ hq₀ q (by rw [hl]; simp [hq]) ?_ hfq hlt₀
    rintro rfl
    exact lt_irrefl _ hlt₀
  · intro h q hq r hr hne hfr hlt
    obtain ⟨a, b, hl, -, hrec, -⟩ := serve_cand hq rfl
    rw [htake hl] at hrec
    rw [hl] at hr
    rcases List.mem_append.mp hr with hr | hr
    · exact absurd (hrec r hr (hfit r (by rw [hl]; simp [hr]) hfr)) (not_le.mpr hlt)
    · rcases List.mem_cons.mp hr with rfl | hr
      · exact hne rfl
      · obtain ⟨x, hx, hw, hx'⟩ := h a q b hl (serve_mem hq).2 r hr hfr hlt
        exact absurd (hrec x hx hw) (not_le.mpr hx')

/-- **A candidate is served** exactly when an item that is none, and that the scan would choose,
has a candidate in front that fits. -/
theorem serve_cand_iff (n : ℕ) (cand : α → Bool) :
    (∀ q, serve u want n cand fits [] l = some q → cand q) ↔
      ∀ a p b q, l = a ++ p :: b → cand p → want ≤ u p → FirstBest u want (a.take n) p q →
        fits q → ¬ cand q → ∃ c r d, a = c ++ r :: d ∧ cand r ∧ fits r ∧
          Record u want (c.take n) r := by
  constructor
  · intro h a p b q hl hp hw hb hf hq
    have hs : Served u want n cand fits a p := ⟨hp, hw, by rw [hb.bestOf_eq]; exact hf⟩
    obtain ⟨x, hx⟩ : ∃ x, serve u want n cand fits [] l = some x := by
      by_contra hno
      rw [← Option.isSome_iff_exists, Bool.not_eq_true, Option.isSome_eq_false_iff,
        Option.isNone_iff_eq_none, serve_eq_none_iff] at hno
      exact hno a p b hl hs
    obtain ⟨c, d, hl', -, hrec, hfirst⟩ := serve_cand hx (h x hx)
    rcases place_cases (hl'.symm.trans hl) with ⟨e, rfl⟩ | ⟨rfl, rfl⟩ | ⟨e, rfl⟩
    · exact ⟨c, x, e, rfl, h x hx, (serve_mem hx).2, hrec⟩
    · exact absurd hrec hb.not_record
    · exact absurd hs (hfirst a p e rfl)
  · intro h q hq
    by_contra hc
    obtain ⟨a, p, b, hl, ⟨hp, hw, hf⟩, hfirst, rfl⟩ := serve_eq_some_iff.mp hq
    rcases bestOf_cases u want p (a.take n) with ⟨-, he⟩ | hb
    · rw [he] at hc
      exact hc hp
    · obtain ⟨c, r, d, ha, hr, hfr, hrec⟩ := h a p b _ hl hp hw hb hf hc
      exact hfirst c r d ha (hrec.served hr (hfit r (by rw [hl, ha]; simp) hfr) hfr)

end All

end Cs444
