import Cs444.Sstf.Run

/-!
# Where the search of `sstf_add_request` stops

The loop has no test for the list head: it stops at the first request at a higher position than the
new one, and when there is none it goes on to read `blk_rq_pos` at the list head and around the
queue again. `searchStops_iff`: it stops at a request, having read only requests, exactly when some
pending request is at a higher position.
-/

namespace Cs444.Sstf

variable {ρ : Type*} [DecidableEq ρ]

/-- The nodes whose `blk_rq_pos` the loop of `sstf_add_request` reads in its first `fuel` turns, from
the front cursor `next` on. -/
def readNodes (D : Disk ρ) (L : Links (Option ρ)) (junk : ℕ → ℕ) (rq : ρ) :
    ℕ → Option ρ → List (Option ρ)
  | 0, _ => []
  | fuel + 1, next =>
    next :: if rqPos D (junk fuel) next ≤ D.pos rq then readNodes D L junk rq fuel (L.next next)
      else []

/-- The search for the place of `rq`, should it be made, ends and does not take the list head for a
request, whatever would be read there. -/
def SearchStops (D : Disk ρ) (s : State ρ) (rq : ρ) : Prop :=
  s.links.listEmpty none = false → ∀ junk, ∃ fuel,
    (findPlace D s.links junk rq fuel (s.links.prev none) (s.links.next none)).isSome ∧
      none ∉ readNodes D s.links junk rq fuel (s.links.next none)

variable {D : Disk ρ} {ok : State ρ → ρ → Prop} {hist : List (Event ρ)} {s : State ρ}
  {L : Links (Option ρ)} {a b l : List ρ} {r : ρ} {junk : ℕ → ℕ}

omit [DecidableEq ρ] in
/-- The search stops at the first request at a higher position. -/
theorem Queue.findPlace_isSome (h : Queue L (a ++ b)) (hhigh : ∃ e ∈ b, D.pos r < D.pos e)
    (junk : ℕ → ℕ) (prev : Option ρ) :
    (Sstf.findPlace D L junk r b.length prev b.head?).isSome ∧
      none ∉ readNodes D L junk r b.length b.head? := by
  induction b generalizing a prev with
  | nil =>
    obtain ⟨e, he, -⟩ := hhigh
    cases he
  | cons x b ih =>
    rw [List.length_cons, List.head?_cons, Sstf.findPlace, readNodes]
    by_cases hle : rqPos D (junk b.length) (some x) ≤ D.pos r
    · rw [if_pos hle, if_pos hle, h.next_some]
      change D.pos x ≤ D.pos r at hle
      have hrest : ∃ e ∈ b, D.pos r < D.pos e := by
        obtain ⟨e, he, hlt⟩ := hhigh
        rcases List.mem_cons.mp he with rfl | he
        · omega
        · exact ⟨e, he, hlt⟩
      obtain ⟨h₁, h₂⟩ := ih (a := a ++ [x]) (by rw [← List.append_cons]; exact h) hrest (L.prev prev)
      exact ⟨h₁, by simpa using h₂⟩
    · rw [if_neg hle, if_neg hle]
      simp

omit [DecidableEq ρ] in
/-- Without a higher request the search reads the list head. -/
theorem Queue.none_mem_readNodes (h : Queue L (a ++ b)) (hlow : ∀ e ∈ b, D.pos e ≤ D.pos r) {fuel : ℕ}
    (hf : b.length < fuel) : none ∈ readNodes D L junk r fuel b.head? := by
  induction b generalizing a fuel with
  | nil =>
    obtain ⟨fuel, rfl⟩ : ∃ f, fuel = f + 1 := ⟨fuel - 1, by simp at hf; omega⟩
    simp [readNodes]
  | cons x b ih =>
    obtain ⟨fuel, rfl⟩ : ∃ f, fuel = f + 1 := ⟨fuel - 1, by simp at hf; omega⟩
    have hrest := ih (a := a ++ [x]) (by rw [← List.append_cons]; exact h)
      (fun e he => hlow e (List.mem_cons_of_mem _ he)) (by simpa using hf)
    rw [List.head?_cons, readNodes, if_pos (show rqPos D _ (some x) ≤ _ from hlow x (by simp)),
      h.next_some]
    exact List.mem_cons_of_mem _ hrest

omit [DecidableEq ρ] in
/-- Without a higher request, and with a low position read at the list head, the search goes around
for ever. -/
theorem Queue.findPlace_eq_none (h : Queue L l) (hlow : ∀ e ∈ l, D.pos e ≤ D.pos r)
    (hjunk : ∀ n, junk n ≤ D.pos r) (fuel : ℕ) (prev : Option ρ) {next : Option ρ}
    (hnext : next ∈ none :: l.map some) : Sstf.findPlace D L junk r fuel prev next = none := by
  induction fuel generalizing prev next with
  | zero => rfl
  | succ fuel ih =>
    have hle : rqPos D (junk fuel) next ≤ D.pos r := by
      rcases List.mem_cons.mp hnext with rfl | hmem
      · exact hjunk fuel
      · obtain ⟨e, he, rfl⟩ := List.mem_map.mp hmem
        exact hlow e he
    unfold Sstf.findPlace
    rw [if_pos hle]
    exact ih _ (Links.Circ.next_mem h hnext)

/-- **The search stops** at a pending request exactly when there is one at a higher position, if there
is any. -/
theorem searchStops_iff (h : Run D ok hist s) (r : ρ) :
    SearchStops D s r ↔ pending hist = ∅ ∨ ∃ e ∈ pending hist, D.pos r < D.pos e := by
  obtain ⟨l, hl⟩ := h.holds
  have hq := hl.queue
  unfold SearchStops
  rw [hq.next_none, ← hl.nil_iff, ← Bool.not_eq_true, hq.listEmpty_iff]
  simp only [← hl.mem]
  constructor
  · intro hstops
    by_contra hno
    push Not at hno
    obtain ⟨hne, hlow⟩ := hno
    have hfirst : l.head? ∈ none :: l.map some := by
      rw [← hq.next_none]
      exact Links.Circ.next_mem hq (by simp)
    obtain ⟨fuel, hsome, -⟩ := hstops hne fun _ => 0
    rw [hq.findPlace_eq_none hlow (fun _ => Nat.zero_le _) fuel _ hfirst] at hsome
    cases hsome
  · rintro (hnil | hhigh) hne junk
    · exact absurd hnil hne
    · exact ⟨l.length, Queue.findPlace_isSome (a := []) hq hhigh junk _⟩

/-- Requests at 10 and 5 are pending; the search for a place at 7 stops at the one at 10. -/
theorem searchStops_below :
    ∃ s, Run sampleDisk anyRequest [.added 10, .added 5] s ∧ SearchStops sampleDisk s 7 := by
  have h₁ := (Run.init ⟨id, id⟩ : Run sampleDisk anyRequest [] _).add 10 id 1 (by decide) trivial rfl
  have h₂ := h₁.add 5 id 1 (by decide) trivial rfl
  exact ⟨_, h₂, (searchStops_iff h₂ 7).mpr (.inr ⟨10, by decide, by decide⟩)⟩

/-- A request at 5 is pending, and a new one at 10 is searched a place for: the second turn reads the
list head, and while a position up to 10 is read there the search does not end. -/
theorem searchStops_fails :
    ∃ s, Run sampleDisk anyRequest [.added 5] s ∧ 10 ∉ pending [Event.added 5] ∧
      (∀ junk, none ∈ readNodes sampleDisk s.links junk 10 2 (s.links.next none)) ∧
      (∀ fuel, findPlace sampleDisk s.links (fun _ => 0) 10 fuel (s.links.prev none)
        (s.links.next none) = none) ∧ ¬ SearchStops sampleDisk s 10 := by
  have h₁ := (Run.init ⟨id, id⟩ : Run sampleDisk anyRequest [] _).add 5 id 1 (by decide) trivial rfl
  obtain ⟨l, hl⟩ := h₁.holds
  have hlow : ∀ e ∈ l, sampleDisk.pos e ≤ sampleDisk.pos 10 := by
    intro e he
    obtain rfl : e = 5 := by simpa [pending, Event.apply] using (hl.mem e).mp he
    decide
  have hlen : l.length < 2 := by
    rw [← hl.card]
    decide
  have hnever : ∀ fuel prev, findPlace sampleDisk _ (fun _ => 0) 10 fuel prev _ = none :=
    fun fuel prev => hl.queue.findPlace_eq_none hlow (fun _ => Nat.zero_le _) fuel prev
      (Links.Circ.next_mem hl.queue (List.mem_cons_self ..))
  refine ⟨_, h₁, by decide, ?_, fun fuel => hnever fuel _, ?_⟩
  · intro junk
    rw [hl.queue.next_none]
    exact Queue.none_mem_readNodes (a := []) hl.queue hlow hlen
  · intro hstops
    obtain ⟨fuel, hsome, -⟩ := hstops rfl fun _ => 0
    rw [hnever] at hsome
    cases hsome

end Cs444.Sstf
