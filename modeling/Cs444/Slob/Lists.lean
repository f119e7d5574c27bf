import Cs444.Slob.FreeList

/-!
# The three page lists

`Rings L ls`: the links `L` hold the three circular lists of partially free pages, with the pages
`ls c` on the list of class `c`, and no page on two lists. The edits of `slob.c` keep this:
`Rings.add` (`set_slob_page_free`), `Rings.del` (`clear_slob_page_free`) and `Rings.rotateTo`, the
rotation at the end of a successful search.
-/

namespace Cs444.Slob

/-- The page lists `ls` are linked in `L`. -/
structure Rings (L : Links Node) (ls : SizeClass → List ℕ) : Prop where
  circ : ∀ c, L.Circ (.head c) ((ls c).map .page)
  disj : ∀ c c' p, p ∈ ls c → p ∈ ls c' → c = c'

variable {L L' : Links Node} {ls : SizeClass → List ℕ} {c : SizeClass} {p : ℕ} {a b : List ℕ}

/-- The nodes of the list of class `c`. -/
def ring (ls : SizeClass → List ℕ) (c : SizeClass) : List Node := .head c :: (ls c).map .page

@[simp] theorem mem_ring_page : Node.page p ∈ ring ls c ↔ p ∈ ls c := by simp [ring]

@[simp] theorem mem_ring_head {c' : SizeClass} : Node.head c' ∈ ring ls c ↔ c' = c := by
  simp [ring]

theorem page_injective : Function.Injective Node.page := fun _ _ h => by cases h; rfl

theorem Rings.ring_disjoint (h : Rings L ls) {c c' : SizeClass} (hne : c ≠ c') {x : Node}
    (hx : x ∈ ring ls c) : x ∉ ring ls c' := by
  intro hx'
  cases x with
  | head d => exact hne ((mem_ring_head.mp hx).symm.trans (mem_ring_head.mp hx'))
  | page p => exact hne (h.disj c c' p (mem_ring_page.mp hx) (mem_ring_page.mp hx'))
  | poison₁ => simp [ring] at hx
  | poison₂ => simp [ring] at hx

/-- Lists only read the links of their heads and their pages. -/
theorem Rings.congr (h : Rings L ls)
    (hag : ∀ c, ∀ x ∈ ring ls c, L'.next x = L.next x ∧ L'.prev x = L.prev x) : Rings L' ls :=
  ⟨fun c => (h.circ c).congr (hag c), h.disj⟩

/-- An edit of one list that leaves the nodes of the others alone. -/
theorem Rings.update (h : Rings L ls) {l : List ℕ} (hc : L'.Circ (.head c) (l.map .page))
    (hag : ∀ c' ≠ c, ∀ x ∈ ring ls c', L'.next x = L.next x ∧ L'.prev x = L.prev x)
    (hl : ∀ p ∈ l, ∀ c' ≠ c, p ∉ ls c') : Rings L' (Function.update ls c l) := by
  refine ⟨fun c' => ?_, fun c₁ c₂ p h₁ h₂ => ?_⟩
  · by_cases e : c' = c
    · subst e; simpa using hc
    · rw [Function.update_of_ne e]
      exact (h.circ c').congr (hag c' e)
  · by_cases e₁ : c₁ = c <;> by_cases e₂ : c₂ = c
    · rw [e₁, e₂]
    · subst e₁
      rw [Function.update_self] at h₁
      rw [Function.update_of_ne e₂] at h₂
      exact absurd h₂ (hl p h₁ c₂ e₂)
    · subst e₂
      rw [Function.update_self] at h₂
      rw [Function.update_of_ne e₁] at h₁
      exact absurd h₁ (hl p h₂ c₁ e₁)
    · rw [Function.update_of_ne e₁] at h₁
      rw [Function.update_of_ne e₂] at h₂
      exact h.disj c₁ c₂ p h₁ h₂

/-- `list_add(&sp->list, list)`. -/
theorem Rings.add (h : Rings L ls) (c : SizeClass) (hp : ∀ c, p ∉ ls c) :
    Rings (L.listAdd (.page p) (.head c)) (Function.update ls c (p :: ls c)) := by
  have hnot : Node.page p ∉ ring ls c := fun e => hp c (mem_ring_page.mp e)
  obtain ⟨l', hl', hc'⟩ := (h.circ c).listAdd (a := []) rfl hnot
  obtain rfl : l' = (p :: ls c).map .page := by simpa using hl'
  refine h.update hc' ?_ ?_
  · intro c' hne x hx
    refine (h.circ c).listAdd_frame (by simp) (h.ring_disjoint hne hx) ?_
    rintro rfl
    exact hp c' (mem_ring_page.mp hx)
  · intro q hq c' hne
    rcases List.mem_cons.mp hq with rfl | hq
    · exact hp c'
    · exact fun hq' => hne (h.disj c' c q hq' hq)

/-- `list_del(&sp->list)`. -/
theorem Rings.del (h : Rings L ls) (hl : ls c = a ++ p :: b) :
    Rings (L.listDel (.page p) .poison₁ .poison₂) (Function.update ls c (a ++ b)) := by
  have hc := h.circ c
  rw [hl, List.map_append, List.map_cons] at hc
  refine h.update (by rw [List.map_append]; exact hc.listDel _ _) ?_ ?_
  · intro c' hne x hx
    have hx' : x ∉ Node.head c :: (a.map Node.page ++ Node.page p :: b.map Node.page) := by
      have := h.ring_disjoint hne hx
      simpa [ring, hl] using this
    have hxp : x ≠ .page p := by rintro rfl; exact hx' (by simp)
    have hfr := hc.unlink_frame (x := .page p) (by simp) hx'
    simpa [Links.listDel, hxp] using hfr
  · intro q hq c' hne hq'
    refine hne (h.disj c' c q hq' ?_)
    rw [hl]
    rcases List.mem_append.mp hq with hq | hq
    · simp [hq]
    · simp [hq]

theorem Rings.move {n : ℕ} (h : Rings L ls) (hl : ls c = a ++ n :: b) (ha : a ≠ []) :
    Rings (L.listMoveTail (.head c) (.page n)) (Function.update ls c (n :: b ++ a)) := by
  have hc := h.circ c
  rw [hl, List.map_append, List.map_cons] at hc
  refine h.update ?_ ?_ ?_
  · have := hc.listMoveTail_head (by simpa using ha)
    simpa using this
  · intro c' hne x hx
    refine hc.listMoveTail_frame (by simp) ?_
    have := h.ring_disjoint hne hx
    simpa [ring, hl] using this
  · intro q hq c' hne hq'
    refine hne (h.disj c' c q hq' ?_)
    rw [hl]
    simp at hq ⊢
    tauto

/-! ## The node before a place of a list -/

/-- The last node of the list head and the pages `a`. -/
def lastNode (c : SizeClass) (a : List ℕ) : Node :=
  (Node.head c :: a.map Node.page).getLast (by simp)

@[simp] theorem lastNode_nil : lastNode c [] = .head c := rfl

@[simp] theorem lastNode_concat (a : List ℕ) (p : ℕ) : lastNode c (a ++ [p]) = .page p := by
  simp [lastNode]

/-- The node behind the pages `a` of a list. -/
theorem next_lastNode (hc : L.Circ (.head c) ((a ++ b).map .page)) :
    L.next (lastNode c a) = (b.map Node.page ++ [Node.head c]).head (by simp) := by
  rw [List.map_append] at hc
  rcases List.eq_nil_or_concat' a with rfl | ⟨a, z, rfl⟩
  · exact hc.next_eq (a := []) rfl
  · have := hc.next_eq (a := .head c :: a.map Node.page) (p := .page z) (b := b.map Node.page)
      (by simp)
    rw [lastNode_concat]
    exact this

theorem Rings.next_lastNode (h : Rings L ls) (hl : ls c = a ++ b) :
    L.next (lastNode c a) = (b.map Node.page ++ [Node.head c]).head (by simp) :=
  Slob.next_lastNode (hl ▸ h.circ c)

theorem Rings.prev_page (h : Rings L ls) (hl : ls c = a ++ p :: b) :
    L.prev (.page p) = lastNode c a := by
  have hc := h.circ c
  rw [hl, List.map_append] at hc
  exact hc.prev_eq

/-- **Rotation.** After an allocation from the page behind `prev`, the list starts there. -/
theorem Rings.rotateTo (h : Rings L ls) (hl : ls c = a ++ b) :
    Rings (rotateTo L c (lastNode c a)) (Function.update ls c (b ++ a)) := by
  have hc := h.circ c
  rw [hl] at hc
  have hsame : b = [] ∨ a = [] → Rings L (Function.update ls c (b ++ a)) := by
    intro hba
    have : b ++ a = ls c := by rcases hba with rfl | rfl <;> simp [hl]
    rw [this, Function.update_eq_self]
    exact h
  have hnext := h.next_lastNode hl
  unfold Slob.rotateTo
  rcases b with _ | ⟨n, b⟩
  · -- nothing left behind the last node
    have h₁ : lastNode c a = L.prev (.head c) := by rw [hc.prev_head, List.append_nil]; rfl
    rw [if_neg fun e => e.1 h₁]
    exact hsame (.inl rfl)
  rcases List.eq_nil_or_concat' a with rfl | ⟨a, z, rfl⟩
  · -- the list starts there already
    rw [if_neg fun e => e.2 rfl]
    exact hsame (.inr rfl)
  · have hnd : (a ++ [z] ++ n :: b).Nodup := (List.nodup_map_iff page_injective).mp hc.nodup
    have hcond : lastNode c (a ++ [z]) ≠ L.prev (.head c) ∧
        L.next (.head c) ≠ L.next (lastNode c (a ++ [z])) := by
      constructor
      · rw [lastNode_concat, hc.prev_head]
        intro e
        have hlast : Node.page z ∈ (n :: b).map Node.page := by
          rw [e]
          simp only [List.map_append, List.map_cons]
          rw [List.getLast_cons (by simp), List.getLast_append_of_ne_nil (by simp) (by simp)]
          exact List.getLast_mem _
        have hz : z ∈ n :: b := by simpa using hlast
        exact (List.disjoint_of_nodup_append hnd) (by simp) hz
      · rw [hnext, hc.next_eq (a := []) (b := (a ++ [z] ++ n :: b).map Node.page) rfl]
        intro e
        have hn : n ∈ a ++ [z] := by
          rcases a with _ | ⟨y, a⟩
          · simp at e; simp [e]
          · simp at e; simp [e]
        exact (List.disjoint_of_nodup_append hnd) hn (by simp)
    rw [if_pos hcond, hnext]
    exact h.move hl (by simp)

end Cs444.Slob
