import Cs444.Lib.Travel
import Cs444.Sstf.Sweep

/-!
# How well the elevator serves

* `drain_travel_le`: a drain moves the head from request to request at most three times as far as any
  other order of the same requests would.
* `starves`: while requests keep coming at one position, a request above it may wait for ever.
-/

namespace Cs444.Sstf

variable {ρ : Type*} [DecidableEq ρ] {D : Disk ρ} {hist : List (Event ρ)} {s : State ρ} {l : List ρ}
  {r y : ρ} {p : ℕ}

/-! ## The way of the head -/

/-- The positions where the requests start. -/
def positions (D : Disk ρ) (e : List ρ) : List ℤ := e.map fun r => (D.pos r : ℤ)

/-- **A drain** goes at most three times as far as any other order `e'` of the pending requests, while
every added request is outside the ends and no end of a request wraps. -/
theorem drain_travel_le (h : Run D (OutsideEnds D) hist s)
    (hw : ∀ r ∈ pending hist, D.sectors r + D.pos r < 2 ^ D.bits) :
    ∃ s' e, drain D (pending hist).card s = some s' ∧ dispatch D s' = some (s', 0) ∧
      s'.dispatched = s.dispatched ++ e ∧ e.Nodup ∧ e.toFinset = pending hist ∧
      ∀ e' : List ρ, pending hist ⊆ e'.toFinset →
        travel (s.sector : ℤ) (positions D e) ≤ 3 * travel (s.sector : ℤ) (positions D e') := by
  obtain ⟨l, hl, hfall⟩ := h.falling
  -- from its low end the queue is the reversed list
  have hlined : Lined .B s l.reverse := by
    show Queue s.links l.reverse.reverse
    rw [List.reverse_reverse]
    exact hl.queue
  obtain ⟨s', up, down, hdrain, hdisp, hend, hperm, hup, hdown⟩ :=
    hlined.drain (List.pairwise_reverse.mpr hfall)
      fun r hr => hw r ((hl.mem r).mp (List.mem_reverse.mp hr))
  have hperm' : (up ++ down).Perm l := hperm.trans (List.reverse_perm l)
  have hset : (up ++ down).toFinset = pending hist := by
    ext r
    rw [List.mem_toFinset, hperm'.mem_iff, hl.mem]
  rw [List.length_reverse, ← hl.card] at hdrain
  refine ⟨s', up ++ down, hdrain, Queue.dispatch_nil hend, hdisp,
    hperm'.nodup_iff.mpr hl.queue.nodup, hset, ?_⟩
  intro e' he'
  rw [positions, List.map_append]
  apply travel_up_down_le
  · exact List.pairwise_map.mpr (hup.imp fun h => by exact_mod_cast h)
  · exact List.pairwise_map.mpr (hdown.imp fun h => by exact_mod_cast h)
  · intro z hz
    rw [← List.map_append] at hz
    obtain ⟨r, hr, rfl⟩ := List.mem_map.mp hz
    have hr' : r ∈ e'.toFinset := he' (hset ▸ List.mem_toFinset.mpr hr)
    exact List.mem_map_of_mem (List.mem_toFinset.mp hr')

/-- Requests at 10 and 5, served from 0. -/
theorem drain_travel_le_two :
    ∃ s, Run sampleDisk (OutsideEnds sampleDisk) [.added 10, .added 5] s ∧
      ∃ s' e, drain sampleDisk 2 s = some s' ∧ s'.dispatched = s.dispatched ++ e ∧
        travel (s.sector : ℤ) (positions sampleDisk e) ≤
          3 * travel (s.sector : ℤ) (positions sampleDisk [5, 10]) := by
  obtain ⟨s, hs⟩ := run_added_twice
  have hpend : pending [Event.added 10, .added 5] = {10, 5} := by decide
  obtain ⟨s', e, hdrain, -, hdisp, -, -, hle⟩ := drain_travel_le hs (by rw [hpend]; decide)
  rw [hpend] at hdrain hle
  exact ⟨s, hs, s', e, hdrain, hdisp, hle [5, 10] (by decide)⟩

/-! ## Starvation -/

/-- `r` comes, and after it, one by one, `x 0` to `x (n - 1)`, each served at once. -/
def bypassed (r : ρ) (x : ℕ → ρ) : ℕ → List (Event ρ)
  | 0 => [.added r]
  | n + 1 => bypassed r x n ++ [.added (x n), .dispatched (x n)]

/-- The request `r` waits alone; the elevator is as it started, or goes backward past `p`. -/
structure Waits (r : ρ) (p : ℕ) (s : State ρ) : Prop where
  queue : Queue s.links [r]
  head : s.direction = .F ∧ s.sector = 0 ∨ s.direction = .B ∧ p ≤ s.sector

/-- The first request. -/
theorem exists_waits (D : Disk ρ) (r : ρ) (p : ℕ) :
    ∃ s, Run D (OutsideEnds D) [.added r] s ∧ Waits r p s ∧ s.dispatched = [] := by
  have hq : Queue (initQueue ⟨id, id⟩ : State ρ).links [] := queue_initQueue ⟨id, id⟩
  have hout : OutsideEnds D (initQueue ⟨id, id⟩) r := by
    rintro first _ hfirst - -
    rw [hq.next_none] at hfirst
    cases hfirst
  have hempty : (initQueue ⟨id, id⟩ : State ρ).links.listEmpty none = true := hq.listEmpty_iff.mpr rfl
  obtain ⟨s, hs⟩ : ∃ s, addRequest D id 0 (initQueue ⟨id, id⟩) r = some s := by
    unfold addRequest
    rw [hempty]
    exact ⟨_, rfl⟩
  obtain ⟨hqueue, hdir, hsect, hdisp⟩ := hq.addRequest (by simp) hs
  exact ⟨s, (Run.init ⟨id, id⟩).add r id 0 (by simp) hout hs, ⟨hqueue, .inl ⟨hdir, hsect⟩⟩, hdisp⟩

/-- A request at `p` is put behind `r`; the search stops at `r`. -/
theorem Waits.add (h : Waits r p s) (hpos : D.pos y = p) (hlt : p < D.pos r) :
    OutsideEnds D s y ∧ ∃ s', addRequest D id 1 s y = some s' ∧ Queue s'.links [r, y] ∧
      s'.direction = s.direction ∧ s'.sector = s.sector ∧ s'.dispatched = s.dispatched := by
  have hnext : s.links.next none = some r := h.queue.next_none
  have hprev : s.links.prev none = some r := h.queue.prev_none
  have hy : y ≠ r := by
    rintro rfl
    omega
  constructor
  · rintro first last hfirst hlast ⟨h₁, h₂⟩
    rw [hnext] at hfirst
    rw [hprev] at hlast
    cases hfirst
    cases hlast
    omega
  have hempty : s.links.listEmpty none = false := by
    rw [← Bool.not_eq_true, h.queue.listEmpty_iff]
    exact List.cons_ne_nil r []
  obtain ⟨s', hs'⟩ : ∃ s', addRequest D id 1 s y = some s' := by
    unfold addRequest findPlace
    simp only [hempty, Bool.not_false, if_true, hnext, hprev, rqPos, hpos, Nat.not_le.mpr hlt, if_false]
    exact ⟨_, rfl⟩
  obtain ⟨hqueue, hrest⟩ := h.queue.addRequest (by simpa using hy) hs'
  have hplace : addPlace D [r] y = 1 := by simp [addPlace, hpos, hlt]
  rw [hplace] at hqueue
  exact ⟨s', hs', hqueue, hrest⟩

/-- It is served before `r`. -/
theorem dispatch_bypass (hqueue : Queue s.links [r, y])
    (hhead : s.direction = .F ∧ s.sector = 0 ∨ s.direction = .B ∧ p ≤ s.sector) (hpos : D.pos y = p)
    (hlt : p < D.pos r) (hw : D.sectors y + p < 2 ^ D.bits) :
    ∃ s', dispatch D s = some (s', 1) ∧ s'.dispatched = s.dispatched ++ [y] ∧ Waits r p s' := by
  have hy : y ≠ r := by
    rintro rfl
    omega
  have hsel : selectEnd D s.direction s.sector y r = (y, .B) := by
    unfold selectEnd
    rw [if_pos hy]
    rcases hhead with ⟨hdir, hsect⟩ | ⟨hdir, hsect⟩
    · rw [hdir, if_neg (by decide), if_neg (by omega)]
    · rw [hdir, if_pos rfl, if_pos (by omega)]
  have hlast : [r, y].getLast? = some y := rfl
  obtain ⟨s', htook, hdir, hq⟩ := Queue.took (a := [r]) (b := []) hqueue rfl hlast hsel
  refine ⟨s', htook.call, htook.dispatched, hq, .inr ⟨hdir, ?_⟩⟩
  rw [htook.sector, hpos, Nat.mod_eq_of_lt hw]
  exact Nat.le_add_left _ _

/-- **Starvation**: however many requests are served after `r` came, `r` may still be waiting, when they
come one by one at a position below it. -/
theorem starves {x : ℕ → ρ} (hpos : ∀ i, D.pos (x i) = p) (hlt : p < D.pos r)
    (hw : ∀ i, D.sectors (x i) + p < 2 ^ D.bits) (n : ℕ) :
    ∃ s, Run D (OutsideEnds D) (bypassed r x n) s ∧ s.dispatched = (List.range n).map x ∧
      pending (bypassed r x n) = {r} ∧ Queue s.links [r] := by
  suffices hrun : ∃ s, Run D (OutsideEnds D) (bypassed r x n) s ∧ Waits r p s ∧
      s.dispatched = (List.range n).map x by
    obtain ⟨s, hs, hwait, hdisp⟩ := hrun
    obtain ⟨l, hl⟩ := hs.holds
    obtain rfl := hl.queue.unique hwait.queue
    refine ⟨s, hs, hdisp, ?_, hwait.queue⟩
    ext y
    rw [← hl.mem, List.mem_singleton, Finset.mem_singleton]
  induction n with
  | zero => exact exists_waits D r p
  | succ n ih =>
    obtain ⟨s, hs, hwait, hdone⟩ := ih
    obtain ⟨l, hl⟩ := hs.holds
    obtain rfl := hl.queue.unique hwait.queue
    obtain ⟨hout, s₁, hadd, hq, hdir, hsect, hsame⟩ := hwait.add (hpos n) hlt
    have hnew : x n ∉ pending (bypassed r x n) := by
      rw [← hl.mem, List.mem_singleton]
      rintro rfl
      exact absurd (hpos n) hlt.ne'
    obtain ⟨s₂, hdisp, htook, hwait₂⟩ :=
      dispatch_bypass hq (by rw [hdir, hsect]; exact hwait.head) (hpos n) hlt (hw n)
    have h₂ := (hs.add _ _ _ hnew hout hadd).dispatch (e := [x n]) hdisp htook
    rw [List.append_assoc] at h₂
    refine ⟨s₂, h₂, hwait₂, ?_⟩
    rw [htook, hsame, hdone, List.range_succ, List.map_append]
    rfl

/-- A request at 10 waits while three others at 5 are served. -/
theorem starves_three :
    ∃ s, Run sampleDisk (OutsideEnds sampleDisk) (bypassed 10 (fun _ => 5) 3) s ∧
      s.dispatched = [5, 5, 5] ∧ Queue s.links [10] := by
  have hlt : 5 < sampleDisk.pos 10 := by decide
  obtain ⟨s, hs, hdone, -, hq⟩ :=
    starves (D := sampleDisk) (x := fun _ => 5) (fun _ => rfl) hlt (fun _ => by decide) 3
  exact ⟨s, hs, hdone, hq⟩

end Cs444.Sstf
