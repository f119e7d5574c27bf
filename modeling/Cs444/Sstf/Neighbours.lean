import Cs444.Sstf.Order

/-!
# The neighbours of a request

`sstf_former_request` and `sstf_latter_request`, which the block layer asks for a request that `rq`
could be merged with: one that ends where `rq` starts, or starts where `rq` ends.

The queue falls, so the request behind `rq` starts no later than `rq` does: no request ever starts where
the one in front of it ends (`neighbours_apart`), and nothing is merged.
-/

namespace Cs444.Sstf

variable {ρ : Type*} [DecidableEq ρ]

/-- `sstf_former_request`, `none` for `NULL`. -/
def formerRequest (s : State ρ) (rq : ρ) : Option ρ :=
  match s.links.prev (some rq) with
  | none => none
  | some prev => some prev

/-- `sstf_latter_request`, `none` for `NULL`. -/
def latterRequest (s : State ρ) (rq : ρ) : Option ρ :=
  match s.links.next (some rq) with
  | none => none
  | some next => some next

/-- `r'` is behind `r`, for both functions. -/
structure Neighbours (s : State ρ) (r r' : ρ) : Prop where
  latter : latterRequest s r = some r'
  former : formerRequest s r' = some r

variable {D : Disk ρ} {ok : State ρ → ρ → Prop} {hist : List (Event ρ)} {s : State ρ} {a b l : List ρ}
  {r r' : ρ}

omit [DecidableEq ρ] in
theorem formerRequest_eq (s : State ρ) (r : ρ) : formerRequest s r = s.links.prev (some r) := by
  unfold formerRequest
  split <;> simp [*]

omit [DecidableEq ρ] in
theorem latterRequest_eq (s : State ρ) (r : ρ) : latterRequest s r = s.links.next (some r) := by
  unfold latterRequest
  split <;> simp [*]

omit [DecidableEq ρ] in
theorem Queue.latterRequest (h : Queue s.links (a ++ r :: b)) : latterRequest s r = b.head? := by
  rw [latterRequest_eq]
  exact h.next_some

omit [DecidableEq ρ] in
theorem Queue.formerRequest (h : Queue s.links (a ++ r :: b)) : formerRequest s r = a.getLast? := by
  rw [formerRequest_eq]
  exact h.prev_eq (b := r :: b)

omit [DecidableEq ρ] in
/-- **The two functions** lead through the queue, one way and the other. -/
theorem Queue.neighbours (h : Queue s.links l) : l.IsChain (Neighbours s) ∧
    (∀ r ∈ l.head?, Sstf.formerRequest s r = none) ∧ ∀ r ∈ l.getLast?, Sstf.latterRequest s r = none := by
  refine ⟨?_, ?_, ?_⟩
  · rw [List.isChain_iff_forall_rel_of_append_cons_cons]
    rintro r r' a b rfl
    have h' : Queue s.links ((a ++ [r]) ++ r' :: b) := by rwa [← List.append_cons]
    exact ⟨h.latterRequest, by rw [h'.formerRequest, List.getLast?_concat]⟩
  · intro r hr
    cases l with
    | nil => cases hr
    | cons x l =>
      cases hr
      exact Queue.formerRequest (a := []) h
  · intro r hr
    rcases List.eq_nil_or_concat' l with rfl | ⟨l, z, rfl⟩
    · cases hr
    · rw [List.getLast?_concat] at hr
      cases hr
      exact h.latterRequest

/-- **No request starts where its neighbour in front ends**, while every added request is outside the
ends. In every run `sstf_latter_request` and `sstf_former_request` lead through the pending requests,
one way and the other. -/
theorem neighbours_apart (h : Run D (OutsideEnds D) hist s) :
    ∃ l : List ρ, l.Nodup ∧ (∀ r, r ∈ l ↔ r ∈ pending hist) ∧
      (∀ r ∈ l.head?, formerRequest s r = none) ∧ (∀ r ∈ l.getLast?, latterRequest s r = none) ∧
      l.IsChain fun r r' => Neighbours s r r' ∧ (0 < D.sectors r → D.pos r + D.sectors r ≠ D.pos r') := by
  obtain ⟨l, hl, hfall⟩ := h.falling
  obtain ⟨hchain, hfirst, hlast⟩ := hl.queue.neighbours
  refine ⟨l, hl.queue.nodup, hl.mem, hfirst, hlast, ?_⟩
  have hapart : l.IsChain fun r r' => D.pos r' ≤ D.pos r := hfall.isChain
  refine List.isChain_iff_forall_rel_of_append_cons_cons.mpr fun r r' a b e => ?_
  have hnext := List.isChain_iff_forall_rel_of_append_cons_cons.mp hchain e
  have hle := List.isChain_iff_forall_rel_of_append_cons_cons.mp hapart e
  exact ⟨hnext, by omega⟩

theorem neighbours_apart_two :
    ∃ s, Run sampleDisk (OutsideEnds sampleDisk) [.added 10, .added 5] s ∧ latterRequest s 10 = some 5 ∧
      ∃ l : List ℕ, (∀ r, r ∈ l ↔ r ∈ ({10, 5} : Finset ℕ)) ∧ l.IsChain (Neighbours s) := by
  have h₁ := (Run.init ⟨id, id⟩ : Run sampleDisk (OutsideEnds sampleDisk) [] _).add 10 id 1
    (by decide) (by rintro _ _ ⟨⟩) rfl
  have h₂ := h₁.add 5 id 1 (by decide) (by rintro _ _ ⟨⟩ ⟨⟩; decide) rfl
  obtain ⟨l, -, hmem, -, -, hchain⟩ := neighbours_apart h₂
  refine ⟨_, h₂, rfl, l, fun r => ?_, hchain.imp fun _ _ h => h.1⟩
  rw [hmem]
  exact iff_of_eq (congrArg (r ∈ ·) (by decide))

end Cs444.Sstf
