import Mathlib

/-!
# Spans of consecutive addresses

A `Span` is a block of consecutive addresses. `cover l a` counts the spans of `l` that contain the
address `a`: a list tiles a range when `cover` is `1` on it. Splitting and merging spans keep
`cover`, so an operation on a free list is described by what it does to `cover`.

`Apart l`: the spans are in address order with a gap between any two of them, i.e. the list is
sorted and fully coalesced. Such a list is determined by the addresses it covers
(`Apart.eq_of_cover`).
-/

namespace Cs444

/-- The addresses `start, …, start + len - 1`. -/
@[ext]
structure Span where
  start : ℕ
  len : ℕ
  deriving DecidableEq, Repr

/-- The first address after the span. -/
def Span.fin (b : Span) : ℕ := b.start + b.len

@[simp] theorem Span.fin_mk (s n : ℕ) : (⟨s, n⟩ : Span).fin = s + n := rfl

/-- The span contains the address `a`. -/
def Span.Has (b : Span) (a : ℕ) : Prop := b.start ≤ a ∧ a < b.fin

instance (b : Span) (a : ℕ) : Decidable (b.Has a) := inferInstanceAs (Decidable (_ ∧ _))

/-- How many spans of `l` contain `a`. -/
def cover (l : List Span) (a : ℕ) : ℕ := l.countP fun b => b.Has a

/-- The number of addresses in the spans of `l`. -/
def total (l : List Span) : ℕ := (l.map Span.len).sum

/-- The spans of `l` are nonempty and lie between `lo` and `hi`. -/
def Within (lo hi : ℕ) (l : List Span) : Prop :=
  ∀ b ∈ l, lo ≤ b.start ∧ 0 < b.len ∧ b.fin ≤ hi

/-- Address order with a gap between any two spans. -/
def Apart (l : List Span) : Prop := l.Pairwise fun b c => b.fin < c.start

/-! ## `cover` and `total` -/

@[simp] theorem cover_nil (a : ℕ) : cover [] a = 0 := rfl

theorem cover_cons (b : Span) (l : List Span) (a : ℕ) :
    cover (b :: l) a = (if b.Has a then 1 else 0) + cover l a := by
  unfold cover
  rw [List.countP_cons, Nat.add_comm]
  simp

@[simp] theorem cover_append (l l' : List Span) (a : ℕ) :
    cover (l ++ l') a = cover l a + cover l' a := List.countP_append

theorem cover_perm {l l' : List Span} (h : l.Perm l') (a : ℕ) : cover l a = cover l' a :=
  h.countP_eq _

/-- Cutting a span in two. -/
theorem cover_split (s m n a : ℕ) (l : List Span) :
    cover (⟨s, m + n⟩ :: l) a = cover (⟨s, m⟩ :: ⟨s + m, n⟩ :: l) a := by
  simp only [cover_cons, Span.Has, Span.fin_mk]
  by_cases h : a < s + m
  · have h' : ¬ s + m ≤ a := by omega
    have h'' : a < s + (m + n) := by omega
    simp [h, h', h'']
  · have h' : s + m ≤ a := by omega
    have h'' : s ≤ a := by omega
    simp [h, h', h'', Nat.add_assoc]

@[simp] theorem cover_empty_span (s a : ℕ) (l : List Span) : cover (⟨s, 0⟩ :: l) a = cover l a := by
  have : ¬ (s ≤ a ∧ a < s) := by omega
  simp [cover_cons, Span.Has, this]

@[simp] theorem total_nil : total [] = 0 := rfl

@[simp] theorem total_cons (b : Span) (l : List Span) : total (b :: l) = b.len + total l := by
  simp [total]

@[simp] theorem total_append (l l' : List Span) : total (l ++ l') = total l + total l' := by
  simp [total]

theorem cover_eq_zero_iff {l : List Span} {a : ℕ} : cover l a = 0 ↔ ∀ b ∈ l, ¬ b.Has a := by
  simp [cover, List.countP_eq_zero]

theorem one_le_cover {l : List Span} {b : Span} {a : ℕ} (hb : b ∈ l) (ha : b.Has a) :
    1 ≤ cover l a := List.countP_pos_iff.mpr ⟨b, hb, by simpa using ha⟩

/-- `total` counts the addresses of the range with their multiplicity. -/
theorem sum_cover {lo hi : ℕ} {l : List Span} (h : Within lo hi l) :
    ∑ a ∈ Finset.Ico lo hi, cover l a = total l := by
  induction l with
  | nil => simp
  | cons b l ih =>
    have hb := h b (by simp)
    have hrest : Within lo hi l := fun c hc => h c (List.mem_cons_of_mem _ hc)
    simp only [cover_cons, Finset.sum_add_distrib, ih hrest, total_cons]
    congr 1
    rw [Finset.sum_boole]
    have : (Finset.Ico lo hi).filter b.Has = Finset.Ico b.start b.fin := by
      ext a; simp only [Finset.mem_filter, Finset.mem_Ico, Span.Has]; omega
    rw [this]
    simp [Span.fin]

/-- Spans that cover no address twice do not overlap. -/
theorem pairwise_disjoint_of_cover_le {l : List Span} (h : ∀ a, cover l a ≤ 1) :
    l.Pairwise fun b c => ∀ a, ¬ (b.Has a ∧ c.Has a) := by
  induction l with
  | nil => exact List.Pairwise.nil
  | cons b l ih =>
    refine List.pairwise_cons.mpr ⟨fun c hc a ⟨hb, hca⟩ => ?_, ih fun a => ?_⟩
    · have h₁ := h a
      have h₂ := one_le_cover hc hca
      rw [cover_cons, if_pos hb] at h₁
      omega
    · have := h a
      rw [cover_cons] at this
      omega

/-! ## Ranges and gaps -/

theorem within_append {lo hi : ℕ} {l l' : List Span} :
    Within lo hi (l ++ l') ↔ Within lo hi l ∧ Within lo hi l' := by
  simp only [Within, List.mem_append]
  exact ⟨fun h => ⟨fun b hb => h b (.inl hb), fun b hb => h b (.inr hb)⟩,
    fun h b hb => hb.elim (h.1 b) (h.2 b)⟩

theorem within_cons {lo hi : ℕ} {b : Span} {l : List Span} :
    Within lo hi (b :: l) ↔ (lo ≤ b.start ∧ 0 < b.len ∧ b.fin ≤ hi) ∧ Within lo hi l := by
  simp [Within]

@[simp] theorem within_nil (lo hi : ℕ) : Within lo hi [] := by simp [Within]

/-- The span from `s` of length `n`, as a list without empty spans. -/
def piece (s n : ℕ) : List Span := if n = 0 then [] else [⟨s, n⟩]

theorem mem_piece {s n : ℕ} {b : Span} : b ∈ piece s n ↔ 0 < n ∧ b = ⟨s, n⟩ := by
  unfold piece; split_ifs with h
  · simp [h]
  · simp [Nat.pos_of_ne_zero h]

@[simp] theorem cover_piece (s n a : ℕ) : cover (piece s n) a = cover [⟨s, n⟩] a := by
  unfold piece; split_ifs with h
  · subst h; simp
  · rfl

@[simp] theorem total_piece (s n : ℕ) : total (piece s n) = n := by
  unfold piece; split_ifs with h <;> simp [h]

/-- Cutting `n` addresses out of the middle of a span. -/
theorem cover_cut (s d n r a : ℕ) :
    cover [⟨s, d + n + r⟩] a =
      cover [⟨s + d, n⟩] a + (cover (piece s d) a + cover (piece (s + d + n) r) a) := by
  rw [Nat.add_assoc, cover_split, cover_piece, cover_piece,
    show (⟨s, d⟩ :: ⟨s + d, n + r⟩ :: [] : List Span) = [⟨s, d⟩] ++ [⟨s + d, n + r⟩] from rfl,
    cover_append, cover_split,
    show (⟨s + d, n⟩ :: ⟨s + d + n, r⟩ :: [] : List Span) = [⟨s + d, n⟩] ++ [⟨s + d + n, r⟩] from rfl,
    cover_append]
  omega

theorem Within.mono {lo hi : ℕ} {pre post X : List Span} {b : Span}
    (h : Within lo hi (pre ++ b :: post))
    (hX : ∀ x ∈ X, b.start ≤ x.start ∧ 0 < x.len ∧ x.fin ≤ b.fin) :
    Within lo hi (pre ++ (X ++ post)) := by
  obtain ⟨h₁, h₂⟩ := within_append.mp h
  obtain ⟨hb, h₃⟩ := within_cons.mp h₂
  refine within_append.mpr ⟨h₁, within_append.mpr ⟨fun x hx => ?_, h₃⟩⟩
  have := hX x hx
  omega

/-- Replacing a span by spans inside it, for an order that looks at the facing ends. -/
theorem pairwise_replace {R : ℕ → ℕ → Prop} {pre post X : List Span} {b : Span}
    (hR : ∀ x y x' y', x' ≤ x → y ≤ y' → R x y → R x' y')
    (h : (pre ++ b :: post).Pairwise fun b c => R b.fin c.start)
    (hX : X.Pairwise fun b c => R b.fin c.start)
    (hin : ∀ x ∈ X, b.start ≤ x.start ∧ x.fin ≤ b.fin) :
    (pre ++ (X ++ post)).Pairwise fun b c => R b.fin c.start := by
  rw [List.pairwise_append, List.pairwise_cons] at h
  obtain ⟨h₁, ⟨h₂, h₃⟩, h₄⟩ := h
  rw [List.pairwise_append, List.pairwise_append]
  refine ⟨h₁, ⟨hX, h₃, ?_⟩, ?_⟩
  · intro x hx c hc
    exact hR _ _ _ _ (hin x hx).2 le_rfl (h₂ c hc)
  · intro c hc x hx
    rcases List.mem_append.mp hx with hx | hx
    · exact hR _ _ _ _ le_rfl (hin x hx).1 (h₄ c hc b (by simp))
    · exact h₄ c hc x (by simp [hx])

/-! ## Cutting a span -/

/-- What is left of the span `b` after the `n` addresses at offset `d` are cut out. -/
def Span.cut (b : Span) (d n : ℕ) : List Span :=
  piece b.start d ++ piece (b.start + d + n) (b.len - d - n)

section Cut

variable {b : Span} {d n : ℕ} (h : n + d ≤ b.len) (pre post : List Span)
include h

theorem Span.mem_cut {x : Span} (hx : x ∈ b.cut d n) :
    b.start ≤ x.start ∧ 0 < x.len ∧ x.fin ≤ b.fin := by
  unfold Span.fin
  rcases List.mem_append.mp hx with hx | hx
  · obtain ⟨h₁, rfl⟩ := mem_piece.mp hx
    simp only; omega
  · obtain ⟨h₁, rfl⟩ := mem_piece.mp hx
    simp only; omega

theorem cover_replace_cut (a : ℕ) :
    cover (pre ++ b :: post) a =
      cover [⟨b.start + d, n⟩] a + cover (pre ++ (b.cut d n ++ post)) a := by
  have hb : b = ⟨b.start, d + n + (b.len - d - n)⟩ := by
    ext
    · rfl
    · show b.len = d + n + (b.len - d - n); omega
  have hcut := cover_cut b.start d n (b.len - d - n) a
  rw [← hb] at hcut
  rw [show pre ++ b :: post = pre ++ ([b] ++ post) from rfl]
  simp only [cover_append, hcut, Span.cut]
  omega

theorem total_replace_cut : total (pre ++ b :: post) = n + total (pre ++ (b.cut d n ++ post)) := by
  simp only [Span.cut, total_append, total_cons, total_piece]
  omega

theorem Apart.replace_cut (hn : 0 < n) (hap : Apart (pre ++ b :: post)) :
    Apart (pre ++ (b.cut d n ++ post)) := by
  refine pairwise_replace (R := (· < ·)) (by omega) hap ?_ fun x hx => ?_
  · refine List.pairwise_append.mpr ⟨?_, ?_, ?_⟩
    · unfold piece; split_ifs <;> simp
    · unfold piece; split_ifs <;> simp
    · intro x hx y hy
      obtain ⟨-, rfl⟩ := mem_piece.mp hx
      obtain ⟨-, rfl⟩ := mem_piece.mp hy
      simp only [Span.fin_mk]; omega
  · have := Span.mem_cut h hx
    exact ⟨this.1, this.2.2⟩

end Cut

/-! ## Fusing a span with the one after it -/

/-- The span `b` in front of `l`, as one span with the first of `l` when the two touch. -/
def fuse (b : Span) : List Span → List Span
  | [] => [b]
  | c :: l => if b.fin = c.start then ⟨b.start, b.len + c.len⟩ :: l else b :: c :: l

section Fuse

variable {b : Span} {l pre : List Span}

theorem fuse_cons (b c : Span) (l : List Span) :
    fuse b (c :: l) = if b.fin = c.start then ⟨b.start, b.len + c.len⟩ :: l else b :: c :: l := rfl

theorem fuse_eq_cons (b : Span) (l : List Span) : ∃ n l', fuse b l = ⟨b.start, n⟩ :: l' := by
  cases l with
  | nil => exact ⟨b.len, [], rfl⟩
  | cons c l =>
    rw [fuse_cons]
    split_ifs
    · exact ⟨b.len + c.len, l, rfl⟩
    · exact ⟨b.len, c :: l, rfl⟩

@[simp] theorem cover_fuse (b : Span) (l : List Span) (a : ℕ) : cover (fuse b l) a = cover (b :: l) a := by
  cases l with
  | nil => rfl
  | cons c l =>
    rw [fuse_cons]
    split_ifs with h
    · rw [cover_split, show (⟨b.start + b.len, c.len⟩ : Span) = c from Span.ext h rfl]
    · rfl

theorem Within.fuse {lo hi : ℕ} (h : Within lo hi (b :: l)) : Within lo hi (fuse b l) := by
  cases l with
  | nil => exact h
  | cons c l =>
    rw [fuse_cons]
    split_ifs with hbc
    · obtain ⟨⟨hb₁, hb₂, -⟩, hcl⟩ := within_cons.mp h
      obtain ⟨⟨-, -, hc₃⟩, hl⟩ := within_cons.mp hcl
      unfold Span.fin at hbc hc₃
      refine within_cons.mpr ⟨⟨hb₁, ?_, ?_⟩, hl⟩
      · show 0 < b.len + c.len
        omega
      · show b.start + (b.len + c.len) ≤ hi
        omega
    · exact h

/-- Fusing closes the gap that `b` may leave. -/
theorem Apart.fuse (hpre : Apart (pre ++ [b])) (hl : Apart l) (h : ∀ c ∈ l, b.fin ≤ c.start) :
    Apart (pre ++ fuse b l) := by
  obtain ⟨h₁, -, h₂⟩ := List.pairwise_append.mp hpre
  have hbefore : ∀ c ∈ pre, c.fin < b.start := fun c hc => h₂ c hc b (by simp)
  have hafter : ∀ c ∈ pre, ∀ y ∈ l, c.fin < y.start := by
    intro c hc y hy
    have hcb := hbefore c hc
    have hby := h y hy
    unfold Span.fin at hby
    omega
  cases l with
  | nil => exact hpre
  | cons c l =>
    obtain ⟨hc, hl⟩ := List.pairwise_cons.mp hl
    have hbc := h c (by simp)
    rw [fuse_cons]
    split_ifs with heq
    · refine List.pairwise_append.mpr ⟨h₁, List.pairwise_cons.mpr ⟨?_, hl⟩, ?_⟩
      · intro y hy
        have hcy := hc y hy
        unfold Span.fin at heq hcy
        show b.start + (b.len + c.len) < y.start
        omega
      · intro x hx y hy
        cases List.mem_cons.mp hy with
        | inl e => subst e; exact hbefore x hx
        | inr hy => exact hafter x hx y (by simp [hy])
    · refine List.pairwise_append.mpr ⟨h₁, List.pairwise_cons.mpr ⟨?_, List.pairwise_cons.mpr ⟨hc, hl⟩⟩, ?_⟩
      · intro y hy
        cases List.mem_cons.mp hy with
        | inl e => subst e; omega
        | inr hy =>
          have hcy := hc y hy
          unfold Span.fin at hbc heq hcy ⊢
          omega
      · intro x hx y hy
        cases List.mem_cons.mp hy with
        | inl e => subst e; exact hbefore x hx
        | inr hy => exact hafter x hx y hy

/-- The spans after fusing start no earlier than `b`. -/
theorem le_of_mem_fuse (h : ∀ c ∈ l, b.fin ≤ c.start) {x : Span} (hx : x ∈ fuse b l) :
    b.start ≤ x.start := by
  have hl : ∀ c ∈ l, b.start ≤ c.start := fun c hc => (Nat.le_add_right _ _).trans (h c hc)
  cases l with
  | nil =>
    rw [List.mem_singleton.mp hx]
  | cons c l =>
    rw [fuse_cons] at hx
    split_ifs at hx
    · cases List.mem_cons.mp hx with
      | inl e => subst e; exact le_rfl
      | inr hx => exact hl x (by simp [hx])
    · cases List.mem_cons.mp hx with
      | inl e => subst e; exact le_rfl
      | inr hx => exact hl x hx

end Fuse

/-! ## Address order -/

/-- Address order without overlaps. -/
def InOrder (l : List Span) : Prop := l.Pairwise fun b c => b.fin ≤ c.start

theorem Apart.inOrder {l : List Span} (h : Apart l) : InOrder l :=
  List.Pairwise.imp (fun h => Nat.le_of_lt h) h

theorem InOrder.cover_le_one {l : List Span} (h : InOrder l) (a : ℕ) : cover l a ≤ 1 := by
  induction l with
  | nil => simp
  | cons b l ih =>
    obtain ⟨h₁, h₂⟩ := List.pairwise_cons.mp h
    rw [cover_cons]
    split_ifs with hb
    · have : cover l a = 0 := by
        refine cover_eq_zero_iff.mpr fun c hc => ?_
        have := h₁ c hc
        unfold Span.Has at *
        omega
      omega
    · have := ih h₂; omega

/-- A list of spans in order has at most as many spans as its range has addresses. -/
theorem InOrder.length_le {lo hi : ℕ} {l : List Span} (h : InOrder l) (hw : Within lo hi l) :
    l.length ≤ hi - lo := by
  have h₁ : l.length ≤ total l := by
    clear h
    induction l with
    | nil => simp
    | cons b l ih =>
      obtain ⟨hb, hw⟩ := within_cons.mp hw
      have := ih hw
      simp only [List.length_cons, total_cons]
      omega
  have h₂ : total l ≤ hi - lo := by
    rw [← sum_cover hw]
    calc ∑ a ∈ Finset.Ico lo hi, cover l a ≤ ∑ _a ∈ Finset.Ico lo hi, 1 :=
          Finset.sum_le_sum fun a _ => h.cover_le_one a
      _ = hi - lo := by simp
  omega

/-- A block outside the spans of an ordered list lies between two of them. -/
theorem InOrder.split_at {l : List Span} {b : Span} (h : InOrder l) (hl : ∀ c ∈ l, 0 < c.len) (hb : 0 < b.len)
    (hdis : ∀ a, b.Has a → cover l a = 0) :
    ∃ pre post, l = pre ++ post ∧ (∀ c ∈ pre, c.fin ≤ b.start) ∧ ∀ c ∈ post, b.fin ≤ c.start := by
  induction l with
  | nil => exact ⟨[], [], rfl, by simp, by simp⟩
  | cons c l ih =>
    obtain ⟨h₁, h₂⟩ := List.pairwise_cons.mp h
    have hc : c.fin ≤ b.start ∨ b.fin ≤ c.start := by
      by_contra hno
      -- the larger of the two starts would be covered
      have hpos := hl c (by simp)
      have hmax : b.Has (max b.start c.start) := by
        unfold Span.Has Span.fin at *; omega
      have hmax' : c.Has (max b.start c.start) := by
        unfold Span.Has Span.fin at *; omega
      have := hdis _ hmax
      have := one_le_cover (l := c :: l) (by simp) hmax'
      omega
    rcases hc with hc | hc
    · obtain ⟨pre, post, rfl, h₃, h₄⟩ := ih h₂ (fun x hx => hl x (List.mem_cons_of_mem _ hx))
        fun a ha => by have := hdis a ha; rw [cover_cons] at this; omega
      refine ⟨c :: pre, post, rfl, ?_, h₄⟩
      intro x hx
      rcases List.mem_cons.mp hx with rfl | hx
      · exact hc
      · exact h₃ x hx
    · refine ⟨[], c :: l, rfl, by simp, ?_⟩
      intro x hx
      rcases List.mem_cons.mp hx with rfl | hx
      · exact hc
      · have := h₁ x hx
        have := hl c (by simp)
        unfold Span.fin at *; omega

/-! ## Coalesced lists are canonical -/

/-- The first span starts at the first address covered. -/
theorem Apart.start_le {b : Span} {l : List Span} (h : Apart (b :: l)) {a : ℕ}
    (ha : 1 ≤ cover (b :: l) a) : b.start ≤ a := by
  obtain ⟨h₁, -⟩ := List.pairwise_cons.mp h
  by_contra hlt
  have hzero : cover (b :: l) a = 0 := by
    rw [cover_eq_zero_iff]
    intro c hc hca
    unfold Span.Has at hca
    rcases List.mem_cons.mp hc with rfl | hc
    · omega
    · have := h₁ c hc
      unfold Span.fin at this
      omega
  omega

/-- Nothing covers the address behind the first span. -/
theorem Apart.cover_fin {b : Span} {l : List Span} (h : Apart (b :: l)) : cover (b :: l) b.fin = 0 := by
  obtain ⟨h₁, -⟩ := List.pairwise_cons.mp h
  rw [cover_eq_zero_iff]
  intro c hc hca
  unfold Span.Has at hca
  rcases List.mem_cons.mp hc with rfl | hc
  · omega
  · have := h₁ c hc
    omega

/-- A run of covered addresses is inside one span. -/
theorem Apart.exists_of_cover {l : List Span} (h : Apart l) {a n : ℕ} (hn : 0 < n)
    (hrun : ∀ x, a ≤ x → x < a + n → 1 ≤ cover l x) : ∃ b ∈ l, b.start ≤ a ∧ a + n ≤ b.fin := by
  induction l with
  | nil =>
    have h₁ := hrun a le_rfl (by omega)
    rw [cover_nil] at h₁
    omega
  | cons b l ih =>
    have hstart := h.start_le (hrun a le_rfl (by omega))
    by_cases ha : a < b.fin
    · refine ⟨b, by simp, hstart, ?_⟩
      -- the address behind `b` would be covered
      by_contra hlt
      have h₁ := hrun b.fin (by omega) (by omega)
      rw [h.cover_fin] at h₁
      omega
    · obtain ⟨c, hc, hrest⟩ := ih (List.pairwise_cons.mp h).2 fun x hx hx' => by
        have h₁ := hrun x hx hx'
        rw [cover_cons, if_neg (fun e => by unfold Span.Has at e; omega)] at h₁
        omega
      exact ⟨c, List.mem_cons_of_mem _ hc, hrest⟩

/-- **Canonical form.** Two lists of nonempty spans in address order, with a gap between any two, are
equal when they cover the same addresses. -/
theorem Apart.eq_of_cover {l l' : List Span} (h : Apart l) (h' : Apart l')
    (hpos : ∀ b ∈ l, 0 < b.len) (hpos' : ∀ b ∈ l', 0 < b.len)
    (hc : ∀ a, cover l a = cover l' a) : l = l' := by
  have hself : ∀ {b : Span} {l : List Span}, (∀ c ∈ b :: l, 0 < c.len) →
      1 ≤ cover (b :: l) b.start := fun {b l} hb =>
    one_le_cover (by simp) ⟨le_rfl, Nat.lt_add_of_pos_right (hb b (by simp))⟩
  induction l generalizing l' with
  | nil =>
    cases l' with
    | nil => rfl
    | cons c l' =>
      have h₁ := hself hpos'
      rw [← hc, cover_nil] at h₁
      omega
  | cons b l ih =>
    cases l' with
    | nil =>
      have h₁ := hself hpos
      rw [hc, cover_nil] at h₁
      omega
    | cons c l' =>
      have hstart : b.start = c.start :=
        Nat.le_antisymm (h.start_le (by rw [hc]; exact hself hpos'))
          (h'.start_le (by rw [← hc]; exact hself hpos))
      -- neither span goes on behind the end of the other
      have hfin : b.fin = c.fin := by
        have hb := h.cover_fin
        have hc' := h'.cover_fin
        rw [hc, cover_eq_zero_iff] at hb
        rw [← hc, cover_eq_zero_iff] at hc'
        have h₁ := hb c (by simp)
        have h₂ := hc' b (by simp)
        unfold Span.Has Span.fin at h₁ h₂
        unfold Span.fin
        omega
      obtain rfl : b = c := by
        unfold Span.fin at hfin
        ext
        · exact hstart
        · omega
      congr 1
      refine ih (List.pairwise_cons.mp h).2 (List.pairwise_cons.mp h').2
        (fun d hd => hpos d (List.mem_cons_of_mem _ hd))
        (fun d hd => hpos' d (List.mem_cons_of_mem _ hd)) fun a => ?_
      have := hc a
      rw [cover_cons, cover_cons] at this
      omega

end Cs444
