import Cs444.Lib.CircList

/-!
# The sstf elevator

The functions of `sstf-iosched.c` over the queue of pending requests, an intrusive circular list
whose head `&nd->queue` is the node `none` and whose entries are the requests.

`Queue L l`: the queue holds the requests `l`, from `nd->queue.next` to `nd->queue.prev`. On such
queues the pointer code is described by

* `Queue.addRequest`: `sstf_add_request` walks one cursor from the front and one from the back, and
  inserts as many places from the back as it passed requests from the front (`addPlace`);
* `Queue.dispatch`: `sstf_dispatch` removes the request `selectEnd` chooses, the first or the last;
* `Queue.mergedRequests`: `sstf_merged_requests` removes its request.
-/

namespace Cs444.Sstf

variable {ρ : Type*} [DecidableEq ρ]

/-! ## The code -/

/-- What the block layer says of requests: `blk_rq_pos`, `blk_rq_sectors` and the width of
`sector_t`. -/
structure Disk (ρ : Type*) where
  pos : ρ → ℕ
  sectors : ρ → ℕ
  bits : ℕ

/-- `nd->direction`, `'F'` or `'B'`. -/
inductive Direction
  | F
  | B
  deriving DecidableEq, Repr

/-- `struct sstf_data`, with the links of all requests, and the requests passed on to
`elv_dispatch_add_tail` so far. -/
structure State (ρ : Type*) where
  links : Links (Option ρ)
  direction : Direction
  sector : ℕ
  dispatched : List ρ

/-- `sstf_init_queue`, once the allocations succeeded. -/
def initQueue (L : Links (Option ρ)) : State ρ where
  links := L.initListHead none
  direction := .F
  sector := 0
  dispatched := []

/-- `sstf_merged_requests(q, rq, next)`. -/
def mergedRequests (s : State ρ) (next : ρ) : State ρ :=
  { s with links := s.links.listDelInit (some next) }

/-- The request to dispatch, from the last request `prev` and the first `next`, and the direction
after it. -/
def selectEnd (D : Disk ρ) (direction : Direction) (sector : ℕ) (prev next : ρ) : ρ × Direction :=
  if prev ≠ next then
    if direction = .B then
      -- if prev position is less than nd, dispatch prev
      if D.pos prev ≤ sector then (prev, .B) else (next, .F)
    else
      -- if next position is less than nd, dispatch next
      if D.pos next ≤ sector then (next, direction) else (prev, .B)
  -- just use next if there's only one request
  else (next, direction)

/-- `sstf_dispatch`: the state and the return value. It gives `none` when the list head is used as a
request. -/
def dispatch (D : Disk ρ) (s : State ρ) : Option (State ρ × ℕ) :=
  if !s.links.listEmpty none then
    match s.links.prev none, s.links.next none with
    | some prev, some next =>
      let (rq, direction) := selectEnd D s.direction s.sector prev next
      some ({ links := s.links.listDelInit (some rq)
              direction := direction
              sector := (D.sectors rq + D.pos rq) % 2 ^ D.bits
              dispatched := s.dispatched ++ [rq] }, 1)
    | _, _ => none
  else some (s, 0)

/-- `blk_rq_pos` of a node; `junk` is what is read where the list head is taken for a request. -/
def rqPos (D : Disk ρ) (junk : ℕ) : Option ρ → ℕ
  | some rq => D.pos rq
  | none => junk

/-- The loop of `sstf_add_request`: the node to insert behind, `none` when the loop is still going
after `fuel` turns. `junk` is what each turn reads from the list head, should it get there. -/
def findPlace (D : Disk ρ) (L : Links (Option ρ)) (junk : ℕ → ℕ) (rq : ρ) :
    ℕ → Option ρ → Option ρ → Option (Option ρ)
  | 0, _, _ => none
  | fuel + 1, prev, next =>
    if rqPos D (junk fuel) next ≤ D.pos rq then
      findPlace D L junk rq fuel (L.prev prev) (L.next next)
    else some prev

/-- `sstf_add_request`. -/
def addRequest (D : Disk ρ) (junk : ℕ → ℕ) (fuel : ℕ) (s : State ρ) (rq : ρ) : Option (State ρ) :=
  if !s.links.listEmpty none then
    match findPlace D s.links junk rq fuel (s.links.prev none) (s.links.next none) with
    | none => none
    | some prev => some { s with links := s.links.listAdd (some rq) prev }
  else some { s with links := s.links.listAdd (some rq) none }

/-- `sstf_exit_queue`, `none` when its `BUG_ON` fires. -/
def exitQueue (s : State ρ) : Option Unit := if s.links.listEmpty none then some () else none

/-! ## Queues -/

/-- The queue holds the requests `l`. -/
def Queue (L : Links (Option ρ)) (l : List ρ) : Prop := L.Circ none (l.map some)

section Queue

variable {L : Links (Option ρ)} {a b l : List ρ} {r : ρ}

omit [DecidableEq ρ] in
theorem Queue.nodup (h : Queue L l) : l.Nodup :=
  (List.nodup_map_iff (Option.some_injective ρ)).mp (Links.Circ.nodup h)

omit [DecidableEq ρ] in
/-- The node behind the requests `a`. -/
theorem Queue.next_eq (h : Queue L (a ++ b)) : L.next a.getLast? = b.head? := by
  have hc : L.Circ none (a.map some ++ b.map some) := by simpa [Queue] using h
  rcases List.eq_nil_or_concat' a with rfl | ⟨a, z, rfl⟩
  · have := hc.next_eq (a := []) (p := none) rfl
    cases b <;> simpa using this
  · have := hc.next_eq (a := none :: a.map some) (p := some z) (b := b.map some) (by simp)
    cases b <;> simpa using this

omit [DecidableEq ρ] in
/-- The node in front of the requests `b`. -/
theorem Queue.prev_eq (h : Queue L (a ++ b)) : L.prev b.head? = a.getLast? := by
  have hc : L.Circ none (a.map some ++ b.map some) := by simpa [Queue] using h
  have hlast : ∀ a : List ρ, (none :: a.map some).getLast (by simp) = a.getLast? := by
    intro a
    rcases List.eq_nil_or_concat' a with rfl | ⟨a, z, rfl⟩ <;> simp
  cases b with
  | nil =>
    have := hc.prev_head
    simpa [hlast] using this
  | cons y b =>
    have := hc.prev_eq (x := some y) (b := b.map some)
    simpa [hlast] using this

omit [DecidableEq ρ] in
theorem Queue.next_some {e : ρ} (h : Queue L (a ++ e :: b)) : L.next (some e) = b.head? := by
  have := Queue.next_eq (a := a ++ [e]) (b := b) (by rw [← List.append_cons]; exact h)
  simpa using this

omit [DecidableEq ρ] in
theorem Queue.next_none (h : Queue L l) : L.next none = l.head? := by
  simpa using h.next_eq (a := [])

omit [DecidableEq ρ] in
theorem Queue.prev_none (h : Queue L l) : L.prev none = l.getLast? := by
  have := Queue.prev_eq (a := l) (b := []) (by simpa using h)
  simpa using this

omit [DecidableEq ρ] in
/-- One request back from the end of the first `i + 1` requests. -/
theorem Queue.prev_take (h : Queue L l) {i : ℕ} (hi : i < l.length) :
    L.prev (l.take (i + 1)).getLast? = (l.take i).getLast? := by
  have hsplit : l.take i ++ l[i] :: l.drop (i + 1) = l := by
    rw [← List.drop_eq_getElem_cons hi, List.take_append_drop]
  rw [List.take_succ_eq_append_getElem hi, List.getLast?_concat]
  rw [← hsplit] at h
  exact h.prev_eq

theorem Queue.listEmpty_iff (h : Queue L l) : L.listEmpty none = true ↔ l = [] := by
  unfold Links.listEmpty
  rw [decide_eq_true_eq, h.next_head_eq_iff, List.map_eq_nil_iff]

theorem Queue.listAdd (h : Queue L (a ++ b)) (hr : r ∉ a ++ b) :
    Queue (L.listAdd (some r) a.getLast?) (a ++ r :: b) := by
  have hx : some r ∉ none :: (a ++ b).map some := by simpa using hr
  obtain ⟨c, hc⟩ : ∃ c, none :: a.map some = c ++ [a.getLast?] := by
    rcases List.eq_nil_or_concat' a with rfl | ⟨a, z, rfl⟩
    · exact ⟨[], by simp⟩
    · exact ⟨none :: a.map some, by simp⟩
  have hl : none :: (a ++ b).map some = c ++ a.getLast? :: b.map some := by
    rw [List.map_append, ← List.cons_append, hc, List.append_assoc]
    rfl
  obtain ⟨l', hl', hcirc⟩ := Links.Circ.listAdd h hl hx
  have he : none :: l' = none :: (a ++ r :: b).map some := by
    rw [hl', List.map_append, List.map_cons, ← List.cons_append, hc, List.append_assoc]
    rfl
  unfold Queue
  rw [← (List.cons.inj he).2]
  exact hcirc

theorem Queue.listDelInit (h : Queue L (a ++ r :: b)) :
    Queue (L.listDelInit (some r)) (a ++ b) := by
  unfold Queue at *
  rw [List.map_append, List.map_cons] at h
  rw [List.map_append]
  exact Links.Circ.listDelInit h

end Queue

/-! ## The calls on queues -/

section Calls

variable {D : Disk ρ} {s s' : State ρ} {a b l : List ρ} {r : ρ} {junk : ℕ → ℕ} {fuel : ℕ}

/-- How many requests from the front stay in front of a new request `r` put behind them:
the search passes the leading requests at positions up to that of `r`, and goes back from the end
as many places. -/
def addPlace (D : Disk ρ) (l : List ρ) (r : ρ) : ℕ :=
  l.length - (l.takeWhile fun e => D.pos e ≤ D.pos r).length

omit [DecidableEq ρ] in
theorem takeWhile_of_prefix {P : ρ → Bool} (ha : ∀ e ∈ a, P e) (hb : ∀ e ∈ b.head?, ¬ P e) :
    (a ++ b).takeWhile P = a := by
  rw [List.takeWhile_append_of_pos ha]
  cases b with
  | nil => simp
  | cons e b =>
    rw [List.takeWhile_cons_of_neg (hb e rfl), List.append_nil]

omit [DecidableEq ρ] in
/-- **The search** ends `addPlace` places into the queue, if it ends. -/
theorem Queue.findPlace {L : Links (Option ρ)} {p : Option ρ} (h : Queue L l) (hl : l = a ++ b)
    (ha : ∀ e ∈ a, D.pos e ≤ D.pos r)
    (he : findPlace D L junk r fuel (l.take (l.length - a.length)).getLast? b.head? = some p) :
    p = (l.take (addPlace D l r)).getLast? := by
  induction fuel generalizing a b with
  | zero => cases he
  | succ fuel ih =>
    unfold Sstf.findPlace at he
    have hdone : ∀ {q : Option ρ}, (∀ e ∈ b.head?, ¬ D.pos e ≤ D.pos r) →
        (l.take (l.length - a.length)).getLast? = q → q = (l.take (addPlace D l r)).getLast? := by
      intro q hb hq
      have htake : (l.takeWhile fun e => D.pos e ≤ D.pos r) = a := by
        rw [hl]
        exact takeWhile_of_prefix (by simpa using ha) (by simpa using hb)
      rw [← hq, addPlace, htake]
    cases b with
    | nil =>
      -- the front cursor is at the list head, and the back cursor too
      have ha' : a.length = l.length := by rw [hl]; simp
      split_ifs at he with hj
      · refine @ih [] l rfl (by simp) ?_
        simpa [ha', h.next_none, h.prev_none] using he
      · exact hdone (by simp) (Option.some.inj he)
    | cons e b =>
      split_ifs at he with hj
      · -- both cursors move on
        have hlen : l.length = a.length + b.length + 1 := by rw [hl]; simp; omega
        have hnext : L.next (some e) = b.head? := Queue.next_some (hl ▸ h)
        have hprev : L.prev (l.take (l.length - a.length)).getLast? =
            (l.take (l.length - (a ++ [e]).length)).getLast? := by
          have hi : l.length - a.length = l.length - (a ++ [e]).length + 1 := by
            rw [List.length_append, List.length_singleton]
            omega
          rw [hi]
          exact h.prev_take (by simp; omega)
        refine @ih (a ++ [e]) b (by rw [hl]; simp) ?_ ?_
        · intro x hx
          rcases List.mem_append.mp hx with hx | hx
          · exact ha x hx
          · rw [List.mem_singleton.mp hx]
            exact hj
        · rw [← hprev, ← hnext]
          exact he
      · refine hdone ?_ (Option.some.inj he)
        rintro x ⟨⟩
        exact hj

/-- **`sstf_add_request`** puts the request `addPlace` places into the queue, when it returns. -/
theorem Queue.addRequest (h : Queue s.links l) (hr : r ∉ l)
    (he : addRequest D junk fuel s r = some s') :
    Queue s'.links (l.take (addPlace D l r) ++ r :: l.drop (addPlace D l r)) ∧
      s'.direction = s.direction ∧ s'.sector = s.sector ∧ s'.dispatched = s.dispatched := by
  have hadd : Queue (s.links.listAdd (some r) (l.take (addPlace D l r)).getLast?)
      (l.take (addPlace D l r) ++ r :: l.drop (addPlace D l r)) := by
    have h' : Queue s.links (l.take (addPlace D l r) ++ l.drop (addPlace D l r)) := by
      rw [List.take_append_drop]
      exact h
    exact h'.listAdd (by rw [List.take_append_drop]; exact hr)
  unfold Sstf.addRequest at he
  by_cases hemp : s.links.listEmpty none = true
  · obtain rfl := h.listEmpty_iff.mp hemp
    rw [hemp] at he
    cases he
    exact ⟨by simpa using hadd, rfl, rfl, rfl⟩
  · rw [Bool.not_eq_true] at hemp
    rw [hemp] at he
    simp only [Bool.not_false, if_true] at he
    split at he
    · cases he
    case h_2 p hp =>
      cases he
      rw [h.next_none, h.prev_none] at hp
      obtain rfl := h.findPlace (a := []) rfl (by simp) (by simpa using hp)
      exact ⟨hadd, rfl, rfl, rfl⟩

theorem selectEnd_mem (D : Disk ρ) (direction : Direction) (sector : ℕ) (prev next : ρ) :
    (selectEnd D direction sector prev next).1 = prev ∨
      (selectEnd D direction sector prev next).1 = next := by
  unfold selectEnd
  split_ifs <;> simp

/-- `sstf_dispatch` on an empty queue. -/
theorem Queue.dispatch_nil (h : Queue s.links []) : dispatch D s = some (s, 0) := by
  unfold dispatch
  rw [h.listEmpty_iff.mpr rfl]
  rfl

/-- `sstf_dispatch` on a queue with the ends `first` and `last`. -/
theorem Queue.dispatch_eq {first last : ρ} (h : Queue s.links l) (hfirst : l.head? = some first)
    (hlast : l.getLast? = some last) :
    dispatch D s =
      let (rq, direction) := selectEnd D s.direction s.sector last first
      some ({ links := s.links.listDelInit (some rq)
              direction := direction
              sector := (D.sectors rq + D.pos rq) % 2 ^ D.bits
              dispatched := s.dispatched ++ [rq] }, 1) := by
  have hemp : s.links.listEmpty none = false := by
    rw [← Bool.not_eq_true, h.listEmpty_iff]
    rintro rfl
    cases hfirst
  unfold Sstf.dispatch
  rw [hemp, h.prev_none, h.next_none, hfirst, hlast]
  rfl

/-- **`sstf_dispatch`** takes the first or the last request off the queue. -/
theorem Queue.dispatch (h : Queue s.links l) (hne : l ≠ []) :
    ∃ first last rq s' a b, l.head? = some first ∧ l.getLast? = some last ∧
      (rq, s'.direction) = selectEnd D s.direction s.sector last first ∧ l = a ++ rq :: b ∧
      Queue s'.links (a ++ b) ∧ s'.dispatched = s.dispatched ++ [rq] ∧
      dispatch D s = some (s', 1) := by
  obtain ⟨first, hfirst⟩ : ∃ first, l.head? = some first := ⟨_, List.head?_eq_some_head hne⟩
  obtain ⟨last, hlast⟩ : ∃ last, l.getLast? = some last := ⟨_, List.getLast?_eq_some_getLast hne⟩
  have hmem : (selectEnd D s.direction s.sector last first).1 ∈ l := by
    rcases selectEnd_mem D s.direction s.sector last first with e | e
    · rw [e]
      exact List.mem_of_getLast? hlast
    · rw [e]
      exact List.mem_of_head? hfirst
  obtain ⟨a, b, hl⟩ := List.append_of_mem hmem
  have hdisp := h.dispatch_eq (D := D) hfirst hlast
  rw [hl] at h
  exact ⟨first, last, _, _, a, b, hfirst, hlast, rfl, hl, h.listDelInit, rfl, hdisp⟩

theorem Queue.mergedRequests (h : Queue s.links (a ++ r :: b)) :
    Queue (mergedRequests s r).links (a ++ b) :=
  h.listDelInit

theorem Queue.exitQueue_iff (h : Queue s.links l) : exitQueue s = some () ↔ l = [] := by
  unfold exitQueue
  rw [← h.listEmpty_iff]
  split_ifs with e <;> simp [e]

theorem queue_initQueue (L : Links (Option ρ)) : Queue (initQueue L).links [] :=
  Links.circ_initListHead L none

end Calls

end Cs444.Sstf
