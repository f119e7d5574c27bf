import Cs444.Sstf.Elevator

/-!
# Runs of the elevator

A run is a sequence of calls that return, with its history of events: a request is pending from the
call that adds it to the call that merges it away or dispatches it (`pending`). `ok` restricts the
requests that are added; without a restriction it is `anyRequest`.

`queue_conserved`: in every run the queue is a well-formed list of exactly the pending requests,
`sstf_dispatch` returns `0` exactly when there are none, and that many dispatches drain it.
-/

namespace Cs444.Sstf

variable {ρ : Type*} [DecidableEq ρ]

/-! ## Histories -/

/-- What happens to a request. -/
inductive Event (ρ : Type*)
  | added (r : ρ)
  | merged (r : ρ)
  | dispatched (r : ρ)
  deriving DecidableEq, Repr

def Event.apply (pending : Finset ρ) : Event ρ → Finset ρ
  | .added r => insert r pending
  | .merged r => pending.erase r
  | .dispatched r => pending.erase r

/-- The requests added and neither merged away nor dispatched since. -/
def pending (hist : List (Event ρ)) : Finset ρ := hist.foldl Event.apply ∅

@[simp] theorem pending_nil : pending ([] : List (Event ρ)) = ∅ := rfl

@[simp] theorem pending_concat (hist : List (Event ρ)) (e : Event ρ) :
    pending (hist ++ [e]) = e.apply (pending hist) := by
  simp [pending]

/-- The runs from `sstf_init_queue`, over any links the requests start with and whatever is read
from the list head. A request is added when it is not pending, and merged away when it is. -/
inductive Run (D : Disk ρ) (ok : State ρ → ρ → Prop) : List (Event ρ) → State ρ → Prop
  | init (L : Links (Option ρ)) : Run D ok [] (initQueue L)
  | add {hist : List (Event ρ)} {s s' : State ρ} (h : Run D ok hist s) (r : ρ) (junk : ℕ → ℕ)
      (fuel : ℕ) (hr : r ∉ pending hist) (hok : ok s r)
      (he : addRequest D junk fuel s r = some s') : Run D ok (hist ++ [.added r]) s'
  | merge {hist : List (Event ρ)} {s : State ρ} (h : Run D ok hist s) (r : ρ)
      (hr : r ∈ pending hist) : Run D ok (hist ++ [.merged r]) (mergedRequests s r)
  | dispatch {hist : List (Event ρ)} {s s' : State ρ} {ret : ℕ} {e : List ρ}
      (h : Run D ok hist s) (he : dispatch D s = some (s', ret))
      (hd : s'.dispatched = s.dispatched ++ e) : Run D ok (hist ++ e.map .dispatched) s'

/-- No restriction on the requests that are added. -/
def anyRequest (_ : State ρ) (_ : ρ) : Prop := True

variable {D : Disk ρ} {ok : State ρ → ρ → Prop} {hist : List (Event ρ)} {s s' : State ρ}
  {a b l : List ρ} {r : ρ}

/-! ## The queue holds the pending requests -/

/-- The queue holds the pending requests, in the order `l`. -/
structure Holds (s : State ρ) (l : List ρ) (hist : List (Event ρ)) : Prop where
  queue : Queue s.links l
  mem : ∀ r, r ∈ l ↔ r ∈ pending hist

theorem Holds.remove (h : Holds s (a ++ r :: b) hist) {e : Event ρ} (he : e = .merged r ∨
    e = .dispatched r) (hq : Queue s'.links (a ++ b)) : Holds s' (a ++ b) (hist ++ [e]) := by
  refine ⟨hq, fun x => ?_⟩
  have hnd := h.queue.nodup
  have hr : r ∉ a ++ b := (List.nodup_cons.mp (List.nodup_middle.mp hnd)).1
  have hpend : pending (hist ++ [e]) = (pending hist).erase r := by
    rcases he with rfl | rfl <;> simp [Event.apply]
  rw [hpend, Finset.mem_erase, ← h.mem]
  constructor
  · intro hx
    refine ⟨?_, ?_⟩
    · rintro rfl
      exact hr hx
    · simp at hx ⊢
      tauto
  · rintro ⟨hne, hx⟩
    simpa [hne] using hx

theorem Holds.nil_iff (h : Holds s l hist) : l = [] ↔ pending hist = ∅ := by
  rw [List.eq_nil_iff_forall_not_mem, Finset.eq_empty_iff_forall_notMem]
  exact forall_congr' fun r => not_congr (h.mem r)

theorem Holds.card (h : Holds s l hist) : (pending hist).card = l.length := by
  have : pending hist = l.toFinset := by
    ext r
    rw [List.mem_toFinset, h.mem]
  rw [this, List.toFinset_card_of_nodup h.queue.nodup]

/-- One dispatch takes one pending request. -/
theorem Holds.dispatch (h : Holds s l hist) (D : Disk ρ) (hne : l ≠ []) :
    ∃ first last rq s' a b, l.head? = some first ∧ l.getLast? = some last ∧
      (rq, s'.direction) = selectEnd D s.direction s.sector last first ∧ l = a ++ rq :: b ∧
      Holds s' (a ++ b) (hist ++ [.dispatched rq]) ∧ s'.dispatched = s.dispatched ++ [rq] ∧
      dispatch D s = some (s', 1) := by
  obtain ⟨first, last, rq, s', a, b, h₁, h₂, h₃, rfl, h₄, h₅, h₆⟩ := h.queue.dispatch (D := D) hne
  exact ⟨first, last, rq, s', a, b, h₁, h₂, h₃, rfl, h.remove (.inr rfl) h₄, h₅, h₆⟩

/-- **In every run the queue holds the pending requests.** -/
theorem Run.holds (h : Run D ok hist s) : ∃ l, Holds s l hist := by
  induction h with
  | init L => exact ⟨[], queue_initQueue L, by simp⟩
  | add _ r junk fuel hr _ he ih =>
    obtain ⟨l, hq, hmem⟩ := ih
    obtain ⟨hq', -⟩ := hq.addRequest (fun hl => hr ((hmem r).mp hl)) he
    refine ⟨_, hq', fun x => ?_⟩
    rw [pending_concat, Event.apply, Finset.mem_insert, ← hmem]
    conv_rhs => rw [← List.take_append_drop (addPlace D l r) l]
    simp only [List.mem_append, List.mem_cons]
    tauto
  | merge _ r hr ih =>
    obtain ⟨l, hl⟩ := ih
    obtain ⟨a, b, rfl⟩ := List.append_of_mem ((hl.mem r).mpr hr)
    exact ⟨a ++ b, hl.remove (.inl rfl) hl.queue.mergedRequests⟩
  | dispatch _ he hd ih =>
    obtain ⟨l, hl⟩ := ih
    by_cases hne : l = []
    · subst hne
      rw [hl.queue.dispatch_nil] at he
      cases he
      obtain rfl := List.self_eq_append_right.mp hd
      exact ⟨[], by simpa using hl⟩
    · obtain ⟨-, -, rq, s₁, a, b, -, -, -, -, hl', hdisp, he'⟩ := hl.dispatch D hne
      rw [he'] at he
      cases he
      obtain rfl := List.append_cancel_left (hdisp.symm.trans hd)
      exact ⟨a ++ b, hl'⟩

/-! ## Draining the queue -/

/-- `n` successive calls of `sstf_dispatch`, each returning `1`. -/
def drain (D : Disk ρ) : ℕ → State ρ → Option (State ρ)
  | 0, s => some s
  | n + 1, s =>
    match dispatch D s with
    | some (s', 1) => drain D n s'
    | _ => none

/-- As many dispatches as there are pending requests emit each of them once. -/
theorem Holds.drain (h : Holds s l hist) (D : Disk ρ) :
    ∃ s' e, drain D l.length s = some s' ∧ s'.dispatched = s.dispatched ++ e ∧ e.Perm l ∧
      Queue s'.links [] := by
  induction hn : l.length generalizing s l hist with
  | zero =>
    obtain rfl := List.length_eq_zero_iff.mp hn
    exact ⟨s, [], rfl, by simp, .refl _, h.queue⟩
  | succ n ih =>
    have hne : l ≠ [] := by
      rintro rfl
      cases hn
    obtain ⟨-, -, rq, s₁, a, b, -, -, -, rfl, h₁, hd, he⟩ := h.dispatch D hne
    obtain ⟨s', e, hdrain, hd', hperm, hq⟩ := ih h₁ (by simp at hn ⊢; omega)
    refine ⟨s', rq :: e, ?_, ?_, ?_, hq⟩
    · unfold Sstf.drain
      rw [he]
      exact hdrain
    · rw [hd', hd, List.append_assoc]
      rfl
    · exact (hperm.cons rq).trans List.perm_middle.symm

/-- **No request is lost or duplicated.** -/
theorem queue_conserved (h : Run D ok hist s) :
    ∃ l : List ρ, (l.Nodup ∧ ∀ r, r ∈ l ↔ r ∈ pending hist) ∧
      (∀ fuel, l.length < fuel → s.links.entries fuel none = l.map some ∧
        s.links.flip.entries fuel none = (l.map some).reverse) ∧
      s.links.Circ none (l.map some) ∧
      (∃ s' ret, dispatch D s = some (s', ret) ∧ (ret = 0 ↔ pending hist = ∅)) ∧
      ∃ s' e, drain D (pending hist).card s = some s' ∧ s'.dispatched = s.dispatched ++ e ∧
        e.Perm l ∧ dispatch D s' = some (s', 0) ∧ exitQueue s' = some () := by
  obtain ⟨l, hl⟩ := h.holds
  refine ⟨l, ⟨hl.queue.nodup, hl.mem⟩, ?_, hl.queue, ?_, ?_⟩
  · intro fuel hf
    exact ⟨hl.queue.entries_eq (by simpa using hf), hl.queue.flip.entries_eq (by simpa using hf)⟩
  · rw [← hl.nil_iff]
    by_cases hne : l = []
    · subst hne
      exact ⟨s, 0, hl.queue.dispatch_nil, by simp⟩
    · obtain ⟨-, -, -, s', -, -, -, -, -, -, -, -, he⟩ := hl.dispatch D hne
      exact ⟨s', 1, he, by simp [hne]⟩
  · obtain ⟨s', e, hdrain, hd, hperm, hq⟩ := hl.drain D
    rw [hl.card]
    exact ⟨s', e, hdrain, hd, hperm, hq.dispatch_nil, hq.exitQueue_iff.mpr rfl⟩

/-- Requests of 8 sectors, named by their positions. -/
def sampleDisk : Disk ℕ := ⟨id, fun _ => 8, 32⟩

theorem queue_conserved_sample :
    ∃ s, Run sampleDisk anyRequest [.added 10, .added 5, .dispatched 5] s ∧
      ∃ l : List ℕ, s.links.Circ none (l.map some) ∧ ∀ r, r ∈ l ↔ r ∈ ({10} : Finset ℕ) := by
  have h₁ := (Run.init ⟨id, id⟩ : Run sampleDisk anyRequest [] _).add 10 id 1 (by decide) trivial rfl
  have h₂ := h₁.add 5 id 1 (by decide) trivial rfl
  have h₃ := h₂.dispatch (e := [5]) rfl rfl
  obtain ⟨l, ⟨-, hmem⟩, -, hcirc, -⟩ := queue_conserved h₃
  exact ⟨_, h₃, l, hcirc, hmem⟩

end Cs444.Sstf
