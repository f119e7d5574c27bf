import Cs444.Lib.BestFit
import Cs444.Slob.Invariant

/-!
# The search of `slob_alloc` over a page list

On a represented heap the two nested walks of `slob_alloc` are the best-fit search of
`Cs444.Lib.BestFit` over the pages of the list: `scan_eq` for the inner scan, with the nodes it reads
(`scanned`), and `Rep.searchPages_eq` for the loop. A page is tried with `slob_page_alloc` (`fits`), and
the state is the old one until a try succeeds.
-/

namespace Cs444.Slob

variable (A : Arch)

/-- `slob_page_alloc(sp, size, align) != NULL`. -/
def fits (s : State) (size align sp : ℕ) : Bool :=
  (slobPageAlloc A s sp size align).any fun r => r.2.isSome

/-- The page is not filtered out by the node. -/
def onNode (s : State) (node : Option ℕ) (sp : ℕ) : Bool := !nodeMismatch A s node sp

variable {A} {s s' : State} {live : List Live} {v : View} {p size align : ℕ} {c : SizeClass}
  {a b : List ℕ}

/-! ## One page -/

/-- A page of a list is tried with `slob_page_alloc`, which returns. -/
theorem Rep.slobPageAlloc_cases (h : Rep A s live v) (hp : p ∈ v.ls c) (size align : ℕ) :
    fits A s size align p = false ∧ slobPageAlloc A s p size align = some (s, none) ∨
      fits A s size align p = true ∧ A.SLOB_UNITS size ≤ (s.page p).units ∧
        ∃ s' addr, slobPageAlloc A s p size align = some (s', some addr) := by
  obtain ⟨hheld, -, hpos⟩ := (h.onList c p).mp hp
  have hok := h.pageOK p hheld
  unfold fits
  rcases Slob.slobPageAlloc_cases hok.onPage (hok.free_ne_nil.mpr hpos) size align with
    ⟨h₁, -⟩ | ⟨pre, x, post, m, fl, addr, hfree, hroom, -, -, h₁⟩
  · refine .inl ⟨?_, h₁⟩
    rw [h₁]; rfl
  · refine .inr ⟨?_, ?_, _, addr, h₁⟩
    · rw [h₁]; rfl
    · rw [hok.units, hfree, total_append, total_cons]
      unfold HasRoom at hroom
      omega

theorem Rep.units_of_fits (h : Rep A s live v) (hp : p ∈ v.ls c)
    (hf : fits A s size align p = true) : A.SLOB_UNITS size ≤ (s.page p).units := by
  rcases h.slobPageAlloc_cases hp size align with ⟨h₁, -⟩ | ⟨-, h₁, -⟩
  · rw [h₁] at hf; cases hf
  · exact h₁

/-! ## The walks -/

theorem scan_succ {iter : Node} {y : ℕ} (hnext : s.links.next iter = .page y) (want i p q : ℕ) :
    scan s want (.page p) (i + 1) iter (.page q) =
      let best := bestOf (fun sp => (s.page sp).units) want q [y]
      if y = p then .page best else scan s want (.page p) i (.page y) (.page best) := by
  have hbest : (if want ≤ s.unitsAt (Node.page y) ∧
        s.unitsAt (Node.page y) < s.unitsAt (Node.page q) then Node.page y else Node.page q) =
      Node.page (bestOf (fun sp => (s.page sp).units) want q [y]) := by
    unfold bestOf
    rw [List.foldl_cons, List.foldl_nil, apply_ite Node.page]
    rfl
  rw [scan, hnext, hbest]
  by_cases e : y = p
  · subst e
    rw [if_pos rfl, if_pos rfl]
  · rw [if_neg e, if_neg fun h => e (page_injective h)]

/-- The nodes that the scan takes for pages: `iter->next` in every turn. -/
def scanned (s : State) (cur : Node) : ℕ → Node → List Node
  | 0, _ => []
  | i + 1, iter =>
    s.links.next iter ::
      if s.links.next iter = cur then [] else scanned s cur i (s.links.next iter)

section Scan

variable {a₁ : List ℕ} (hlist : s.links.Circ (.head c) ((a ++ (a₁ ++ p :: b)).map .page))
include hlist

/-- A page comes once on its list. -/
theorem ne_of_circ {y : ℕ} (hy : y ∈ a₁) : y ≠ p := by
  rintro rfl
  have hnd := (List.nodup_map_iff page_injective).mp hlist.nodup
  have hnd₁ := (List.nodup_append.mp hnd).2.1
  exact (List.nodup_append.mp hnd₁).2.2 y hy y (by simp) rfl

/-- **The scan** behind the pages `a`, up to the page `p`. -/
theorem scan_eq (want i q : ℕ) :
    scan s want (.page p) i (lastNode c a) (.page q) =
        .page (bestOf (fun sp => (s.page sp).units) want q ((a₁ ++ [p]).take i)) ∧
      scanned s (.page p) i (lastNode c a) = ((a₁ ++ [p]).take i).map .page := by
  induction a₁ generalizing a i q with
  | nil =>
    cases i with
    | zero => exact ⟨rfl, rfl⟩
    | succ i =>
      have hnext : s.links.next (lastNode c a) = .page p := next_lastNode hlist
      rw [scan_succ hnext, if_pos rfl, scanned, hnext, if_pos rfl]
      simp
  | cons y a₁ ih =>
    cases i with
    | zero => exact ⟨rfl, rfl⟩
    | succ i =>
      have hnext : s.links.next (lastNode c a) = .page y := next_lastNode hlist
      have hyp : y ≠ p := ne_of_circ hlist (by simp)
      obtain ⟨hscan, hscanned⟩ := @ih (a ++ [y]) (by simpa using hlist) i
        (bestOf (fun sp => (s.page sp).units) want q [y])
      rw [lastNode_concat] at hscan hscanned
      rw [scan_succ hnext, if_neg hyp, hscan, scanned, hnext, if_neg fun e => hyp (page_injective e),
        hscanned]
      exact ⟨rfl, rfl⟩

end Scan

/-- The best page the scan chooses at `p`, with the pages `a` before it. -/
theorem Rep.scan_head (h : Rep A s live v) (hl : v.ls c = a ++ p :: b) (want : ℕ) :
    scan s want (.page p) 50 (.head c) (.page p) =
      .page (bestOf (fun sp => (s.page sp).units) want p (a.take 50)) := by
  have hscan := (scan_eq (a := []) (hl ▸ h.rings.circ c) want 50 p).1
  rw [bestOf_take_self] at hscan
  exact hscan

/-- The page of the list `l` that the search serves from. -/
def servedPage (A : Arch) (s : State) (size align : ℕ) (node : Option ℕ) (l : List ℕ) : Option ℕ :=
  serve (fun sp => (s.page sp).units) (A.SLOB_UNITS size) 50 (onNode A s node)
    (fits A s size align) [] l

/-- **The loop** of `slob_alloc` behind the pages `a`. -/
theorem Rep.searchPages_eq (h : Rep A s live v) (hl : v.ls c = a ++ b) {fuel : ℕ}
    (hf : b.length < fuel) (size align : ℕ) (node : Option ℕ) :
    searchPages A s c size align node fuel (s.links.next (lastNode c a)) =
      match serve (fun sp => (s.page sp).units) (A.SLOB_UNITS size) 50 (onNode A s node)
        (fits A s size align) a b with
      | none => some (s, none)
      | some q =>
        match slobPageAlloc A s q size align with
        | none => none
        | some (s', addr) =>
          some ({ s' with links := rotateTo s'.links c (s.links.prev (.page q)) }, addr) := by
  rw [h.rings.next_lastNode hl]
  induction b generalizing a fuel with
  | nil =>
    obtain ⟨fuel, rfl⟩ : ∃ f, fuel = f + 1 := ⟨fuel - 1, by simp at hf; omega⟩
    simp [searchPages, serve]
  | cons p b ih =>
    obtain ⟨fuel, rfl⟩ : ∃ f, fuel = f + 1 := ⟨fuel - 1, by simp at hf; omega⟩
    have hnext : s.links.next (.page p) = (b.map Node.page ++ [Node.head c]).head (by simp) := by
      have := h.rings.next_lastNode (a := a ++ [p]) (b := b) (by rw [hl]; simp)
      rwa [lastNode_concat] at this
    have hrec := @ih (a ++ [p]) (by rw [hl]; simp) fuel (by simpa using hf)
    have hscan := h.scan_head hl (A.SLOB_UNITS size)
    set best := bestOf (fun sp => (s.page sp).units) (A.SLOB_UNITS size) p (a.take 50) with hbest
    have hmem : best ∈ v.ls c := by
      rw [hl]
      rcases List.mem_cons.mp (bestOf_mem (fun sp => (s.page sp).units) (A.SLOB_UNITS size) p
        (a.take 50)) with e | e
      · rw [hbest, e]; simp
      · exact List.mem_append_left _ (List.mem_of_mem_take e)
    simp only [List.map_cons, List.cons_append, List.head_cons]
    unfold searchPages serve
    rw [← hbest]
    simp only [reduceCtorEq, if_false, hnext, hscan]
    by_cases hnode : nodeMismatch A s node p = true
    · rw [if_pos hnode, if_neg (by simp [onNode, hnode]), hrec]
    rw [if_neg hnode]
    by_cases hunits : (s.page p).units < A.SLOB_UNITS size
    · rw [if_pos hunits, if_neg (by omega), hrec]
    rw [if_neg hunits]
    rcases h.slobPageAlloc_cases hmem size align with ⟨hfit, hall⟩ | ⟨hfit, -, s', addr, hall⟩
    · rw [if_neg (by simp [hfit]), hall, hrec]
    · rw [if_pos ⟨by simp [onNode, hnode], by omega, hfit⟩]
      simp only [hall]

end Cs444.Slob
