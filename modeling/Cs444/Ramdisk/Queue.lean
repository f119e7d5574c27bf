import Cs444.Ramdisk.Request
import Cs444.Ramdisk.Simulation

/-!
# The request loops of the two drivers

`sbd_request` of `sbd.c` looks at the first request with `elv_next_request` and completes its current
segment with `end_request`, which takes the request off the queue after the last one.

* `Sbd.reaches_end`: it always ends, with every segment of every request transferred, if it is to be,
  and then completed (`Sbd.handles_all`). The loop of `ramdisk.c` does so on fewer queues
  (`handlesAll_iff`).
* `Sim`: on queues of requests of type `REQ_TYPE_FS` inside the device both loops go in step, the
  encrypting one over the device that is read through the cipher (`queue_refines_plain`).
-/

namespace Cs444

open StateTransition (Reaches)

namespace Sbd

open Ramdisk (Rq Segment placed located)

/-! ## The code of `sbd.c` -/

/-- The loop: the device, the requests on the queue, what each request holds, the buffers of the
transfers so far, and the log. -/
structure Loop (ρ : Type*) where
  dev : Device
  queue : List ρ
  rq : ρ → Rq
  buffers : List Bytes
  log : List (Ramdisk.Event ρ)

variable {ρ : Type*} [DecidableEq ρ]

/-- `end_request(req, uptodate)`, for the first request of the queue. -/
def endRequest (stale : ρ → Rq) (s : Loop ρ) (r : ρ) (uptodate : Bool) : Loop ρ :=
  let q := s.rq r
  let more := !q.segments.tail.isEmpty
  { s with
    queue := if more then s.queue else s.queue.tail
    rq := Function.update s.rq r
      (if more then { q with pos := q.pos + q.curSectors, segments := q.segments.tail } else stale r)
    log := s.log ++ [.endCur r q.pos q.curSectors (if uptodate then 0 else - Ramdisk.EIO) more] }

variable (w hardsectSize : ℕ)

/-- A turn of the loop of `sbd_request`, `none` when `elv_next_request` finds nothing. -/
def turn (stale : ρ → Rq) (s : Loop ρ) : Option (Loop ρ) :=
  match s.queue with
  | [] => none
  | r :: _ =>
    let s := { s with log := s.log ++ [.readType r] }
    let q := s.rq r
    if q.cmdType ≠ .REQ_TYPE_FS then
      -- Skip non-CMD request, and continue
      some (endRequest stale s r false)
    else
      let p := sbdTransfer w hardsectSize s.dev q.pos q.curSectors q.buffer q.write
      some (endRequest stale { s with
        dev := p.1
        buffers := s.buffers ++ [p.2]
        log := s.log ++ [.transfer r q.pos q.curSectors] } r true)

/-- `sbd_request` before its loop. -/
def sbdRequest (dev : Device) (queue : List ρ) (rq : ρ → Rq) : Loop ρ := ⟨dev, queue, rq, [], []⟩

/-! ## What the loop should do -/

/-- The segment an event completes, with the status. -/
def ended : Ramdisk.Event ρ → Option (ρ × ℕ × ℕ × ℤ)
  | .endCur r pos nsect error _ => some (r, pos, nsect, error)
  | _ => none

/-- The events of a request, from the segments that start at `pos` on: a look at the type, the transfer
of the segment if the type is `REQ_TYPE_FS`, then its completion. -/
def steps (fs : Bool) (r : ρ) : ℕ → List Segment → List (Ramdisk.Event ρ)
  | _, [] => []
  | pos, seg :: rest =>
    .readType r :: ((if fs then [.transfer r pos seg.nsect] else []) ++
      .endCur r pos seg.nsect (if fs then 0 else - Ramdisk.EIO) (!rest.isEmpty) ::
        steps fs r (pos + seg.nsect) rest)

/-- Segments transferred one after the other: the device and the buffers after them. -/
def transferAll (dev : Device) : List (ℕ × Segment × Bool) → Device × List Bytes
  | [] => (dev, [])
  | (pos, seg, write) :: l =>
    let r := sbdTransfer w hardsectSize dev pos seg.nsect seg.buffer write
    let r' := transferAll r.1 l
    (r'.1, r.2 :: r'.2)

/-- The log of a loop that handles every request of the queue once. -/
structure Handled (queue : List ρ) (rq : ρ → Rq) (log : List (Ramdisk.Event ρ)) : Prop where
  /-- The events of the requests in queue order, and no others. -/
  events : log = queue.flatMap fun r =>
    steps ((rq r).cmdType = .REQ_TYPE_FS) r (rq r).pos (rq r).segments
  /-- Each segment of each request of type `REQ_TYPE_FS` is transferred once, in queue order. -/
  transfers : log.filterMap Ramdisk.Event.transferred =
    (queue.filter fun r => (rq r).cmdType = .REQ_TYPE_FS).flatMap fun r =>
      (placed (rq r).pos (rq r).segments).map fun x => (r, x)
  /-- Each segment of each request is completed once, with the status of its type. -/
  ended : log.filterMap ended =
    queue.flatMap fun r => (placed (rq r).pos (rq r).segments).map fun x =>
      (r, x.1, x.2, if (rq r).cmdType = .REQ_TYPE_FS then 0 else - Ramdisk.EIO)
  /-- No request is touched after it was completed. -/
  untouched : log.Pairwise fun e e' => e.Completes → e'.req ≠ e.req

variable {w hardsectSize} {stale : ρ → Rq} {s s' : Loop ρ} {r : ρ} {l : List ρ} {pos : ℕ}
  {write : Bool} {seg : Segment} {rest : List Segment}

/-! ## One turn -/

theorem turn_nil (h : s.queue = []) : turn w hardsectSize stale s = none := by
  unfold turn
  rw [h]

/-- The transfers of `ts` lead from the device of `s` to that of `s'`, with their buffers. -/
def Transfers (w hardsectSize : ℕ) (s s' : Loop ρ) (ts : List (ℕ × Segment × Bool)) : Prop :=
  s'.dev = (transferAll w hardsectSize s.dev ts).1 ∧
    s'.buffers = s.buffers ++ (transferAll w hardsectSize s.dev ts).2

theorem transferAll_append (dev : Device) (ts ts' : List (ℕ × Segment × Bool)) :
    transferAll w hardsectSize dev (ts ++ ts') =
      ((transferAll w hardsectSize (transferAll w hardsectSize dev ts).1 ts').1,
        (transferAll w hardsectSize dev ts).2 ++
          (transferAll w hardsectSize (transferAll w hardsectSize dev ts).1 ts').2) := by
  induction ts generalizing dev with
  | nil => rfl
  | cons x ts ih =>
    rw [List.cons_append, transferAll, ih]
    rfl

omit [DecidableEq ρ] in
theorem Transfers.trans {s'' : Loop ρ} {ts ts' : List (ℕ × Segment × Bool)}
    (h : Transfers w hardsectSize s s' ts) (h' : Transfers w hardsectSize s' s'' ts') :
    Transfers w hardsectSize s s'' (ts ++ ts') := by
  obtain ⟨hdev, hbuffers⟩ := h
  obtain ⟨hdev', hbuffers'⟩ := h'
  rw [hdev] at hdev' hbuffers'
  unfold Transfers
  rw [transferAll_append]
  exact ⟨hdev', by rw [hbuffers', hbuffers, List.append_assoc]⟩

/-- From `s` the loop gets to `s'`, and does only what is in `es`, to the request `r`, and transfers
`ts`. -/
structure Passes (w hardsectSize : ℕ) (stale : ρ → Rq) (s s' : Loop ρ) (r : ρ) (es : List (Ramdisk.Event ρ))
    (ts : List (ℕ × Segment × Bool)) : Prop where
  reaches : Reaches (turn w hardsectSize stale) s s'
  rq : ∀ r' ≠ r, s'.rq r' = s.rq r'
  log : s'.log = s.log ++ es
  transfers : Transfers w hardsectSize s s' ts

theorem Passes.trans {s'' : Loop ρ} {es es' : List (Ramdisk.Event ρ)}
    {ts ts' : List (ℕ × Segment × Bool)} (h : Passes w hardsectSize stale s s' r es ts)
    (h' : Passes w hardsectSize stale s' s'' r es' ts') :
    Passes w hardsectSize stale s s'' r (es ++ es') (ts ++ ts') := by
  refine ⟨h.reaches.trans h'.reaches, ?_, ?_, h.transfers.trans h'.transfers⟩
  · intro r' hr'
    rw [h'.rq r' hr', h.rq r' hr']
  · rw [h'.log, h.log, List.append_assoc]

/-- A turn transfers the current segment of the first request, if it is to be, and completes it. -/
theorem turn_eq (w hardsectSize : ℕ) (stale : ρ → Rq) {t : Ramdisk.CmdType} (hqueue : s.queue = r :: l)
    (hq : s.rq r = ⟨t, pos, write, seg :: rest⟩) :
    ∃ s₁, turn w hardsectSize stale s = some (endRequest stale s₁ r (t = .REQ_TYPE_FS)) ∧
      s₁.queue = s.queue ∧ s₁.rq = s.rq ∧
      s₁.log = s.log ++
        .readType r :: (if t = .REQ_TYPE_FS then [.transfer r pos seg.nsect] else []) ∧
      Transfers w hardsectSize s s₁ (if t = .REQ_TYPE_FS then [(pos, seg, write)] else []) := by
  have hpos : (s.rq r).pos = pos := by rw [hq]
  have hsect : (s.rq r).curSectors = seg.nsect := by rw [hq]; rfl
  have hbuffer : (s.rq r).buffer = seg.buffer := by rw [hq]; rfl
  have hwrite : (s.rq r).write = write := by rw [hq]
  have htype : (s.rq r).cmdType = t := by rw [hq]
  unfold turn
  simp only [hqueue, htype, hpos, hsect, hbuffer, hwrite]
  by_cases ht : t = .REQ_TYPE_FS
  · rw [if_neg (not_not.mpr ht), if_pos ht, if_pos ht, decide_eq_true ht]
    exact ⟨_, rfl, rfl, rfl, List.append_assoc .., rfl, rfl⟩
  · rw [if_pos ht, if_neg ht, if_neg ht, decide_eq_false ht]
    exact ⟨_, rfl, rfl, rfl, rfl, rfl, (List.append_nil _).symm⟩

/-- A turn completes the current segment of the first request. -/
theorem passes_turn (w hardsectSize : ℕ) (stale : ρ → Rq) {t : Ramdisk.CmdType} (hqueue : s.queue = r :: l)
    (hq : s.rq r = ⟨t, pos, write, seg :: rest⟩) :
    ∃ s', Passes w hardsectSize stale s s' r
        (.readType r :: ((if t = .REQ_TYPE_FS then [.transfer r pos seg.nsect] else []) ++
          [.endCur r pos seg.nsect (if t = .REQ_TYPE_FS then 0 else - Ramdisk.EIO) (!rest.isEmpty)]))
        (if t = .REQ_TYPE_FS then [(pos, seg, write)] else []) ∧
      (rest = [] → s'.queue = l) ∧
      (rest ≠ [] → s'.queue = r :: l ∧ s'.rq r = ⟨t, pos + seg.nsect, write, rest⟩) := by
  obtain ⟨s₁, hturn, hqueue₁, hrq₁, hlog₁, htransfers⟩ := turn_eq w hardsectSize stale hqueue hq
  rw [hqueue] at hqueue₁
  refine ⟨_, ⟨.single hturn, ?_, ?_, htransfers⟩, ?_, ?_⟩
  · intro r' hr'
    rw [← hrq₁]
    exact Function.update_of_ne hr' _ _
  · simp [endRequest, hrq₁, hq, hlog₁, Rq.curSectors]
  · rintro rfl
    simp [endRequest, hrq₁, hq, hqueue₁]
  · intro hrest
    have hmore : rest.isEmpty = false := by simpa using hrest
    simp [endRequest, hrq₁, hq, hqueue₁, hmore, Rq.curSectors]

/-- **A request** is passed, segment by segment. -/
theorem passes_request (w hardsectSize : ℕ) (stale : ρ → Rq) {t : Ramdisk.CmdType} {segs : List Segment}
    (hqueue : s.queue = r :: l) (hq : s.rq r = ⟨t, pos, write, segs⟩) (hne : segs ≠ []) :
    ∃ s', Passes w hardsectSize stale s s' r (steps (t = .REQ_TYPE_FS) r pos segs)
        (Rq.toTransfer ⟨t, pos, write, segs⟩) ∧ s'.queue = l := by
  induction segs generalizing s pos with
  | nil => exact absurd rfl hne
  | cons seg rest ih =>
    obtain ⟨s₁, hpass, hlast, hmore⟩ := passes_turn w hardsectSize stale hqueue hq
    have hsteps : steps (t = .REQ_TYPE_FS) r pos (seg :: rest) =
        (.readType r :: ((if t = .REQ_TYPE_FS then [.transfer r pos seg.nsect] else []) ++
          [.endCur r pos seg.nsect (if t = .REQ_TYPE_FS then 0 else - Ramdisk.EIO) (!rest.isEmpty)])) ++
          steps (t = .REQ_TYPE_FS) r (pos + seg.nsect) rest := by
      simp [steps]
    have htransfers : Rq.toTransfer ⟨t, pos, write, seg :: rest⟩ =
        (if t = .REQ_TYPE_FS then [(pos, seg, write)] else []) ++
          Rq.toTransfer ⟨t, pos + seg.nsect, write, rest⟩ := by
      unfold Rq.toTransfer
      by_cases ht : t = .REQ_TYPE_FS
      · simp [ht, located]
      · simp [ht]
    rw [hsteps, htransfers]
    by_cases hrest : rest = []
    · refine ⟨s₁, ?_, hlast hrest⟩
      rw [hrest] at hpass ⊢
      simpa [steps, Rq.toTransfer, located] using hpass
    · obtain ⟨hqueue₁, hq₁⟩ := hmore hrest
      obtain ⟨s', hpass', hqueue'⟩ := ih hqueue₁ hq₁ hrest
      exact ⟨s', hpass.trans hpass', hqueue'⟩

/-! ## The queue -/

/-- **The loop ends**, whatever the types of the requests are. -/
theorem reaches_end (w hardsectSize : ℕ) (stale : ρ → Rq) (hqueue : s.queue = l) (hnd : l.Nodup)
    (hne : ∀ r ∈ l, (s.rq r).segments ≠ []) :
    ∃ s', Reaches (turn w hardsectSize stale) s s' ∧ s'.queue = [] ∧
      s'.log = s.log ++ (l.flatMap fun r =>
        steps ((s.rq r).cmdType = .REQ_TYPE_FS) r (s.rq r).pos (s.rq r).segments) ∧
      Transfers w hardsectSize s s' (l.flatMap fun r => (s.rq r).toTransfer) := by
  induction l generalizing s with
  | nil => exact ⟨s, .refl, hqueue, by simp, rfl, (List.append_nil _).symm⟩
  | cons r l ih =>
    obtain ⟨hr, hnd⟩ := List.nodup_cons.mp hnd
    obtain ⟨s₁, hp, hqueue₁⟩ := passes_request w hardsectSize stale hqueue rfl (hne r (by simp))
    have hsame : ∀ x ∈ l, s₁.rq x = s.rq x := by
      intro x hx
      apply hp.rq
      rintro rfl
      exact hr hx
    obtain ⟨s', hs', hend, hlog, htransfers⟩ := ih hqueue₁ hnd
      fun x hx => by rw [hsame x hx]; exact hne x (List.mem_cons_of_mem _ hx)
    refine ⟨s', hp.reaches.trans hs', hend, ?_, ?_⟩
    · rw [hlog, hp.log, List.flatMap_cons, List.append_assoc]
      congr 2
      exact List.flatMap_congr fun x hx => by rw [hsame x hx]
    · have hsegs : (l.flatMap fun r => (s₁.rq r).toTransfer) = l.flatMap fun r => (s.rq r).toTransfer :=
        List.flatMap_congr fun x hx => by rw [hsame x hx]
      rw [hsegs] at htransfers
      rw [List.flatMap_cons]
      exact hp.transfers.trans htransfers

/-! ### Every segment once -/

omit [DecidableEq ρ] in
theorem steps_transferred (fs : Bool) (r : ρ) (pos : ℕ) (segs : List Segment) :
    (steps fs r pos segs).filterMap Ramdisk.Event.transferred =
      if fs then (placed pos segs).map fun x => (r, x) else [] := by
  induction segs generalizing pos with
  | nil => cases fs <;> rfl
  | cons seg rest ih =>
    have hih := ih (pos + seg.nsect)
    cases fs with
    | true => simpa [steps, placed, Ramdisk.Event.transferred, List.filterMap_cons] using hih
    | false => simpa [steps, placed, Ramdisk.Event.transferred, List.filterMap_cons] using hih

omit [DecidableEq ρ] in
theorem steps_ended (fs : Bool) (r : ρ) (pos : ℕ) (segs : List Segment) :
    (steps fs r pos segs).filterMap ended =
      (placed pos segs).map fun x => (r, x.1, x.2, if fs then 0 else - Ramdisk.EIO) := by
  induction segs generalizing pos with
  | nil => rfl
  | cons seg rest ih =>
    have hih := ih (pos + seg.nsect)
    cases fs with
    | true => simpa [steps, placed, ended, List.filterMap_cons] using hih
    | false => simpa [steps, placed, ended, List.filterMap_cons] using hih

omit [DecidableEq ρ] in
theorem steps_req {fs : Bool} {segs : List Segment} {e : Ramdisk.Event ρ} (h : e ∈ steps fs r pos segs) :
    e.req = r := by
  induction segs generalizing pos with
  | nil => cases h
  | cons seg rest ih =>
    rw [steps, List.mem_cons, List.mem_append, List.mem_cons] at h
    rcases h with rfl | h | rfl | h
    · rfl
    · cases fs with
      | true =>
        obtain rfl := List.mem_singleton.mp h
        rfl
      | false => cases h
    · rfl
    · exact ih h

omit [DecidableEq ρ] in
/-- Only the last event of a request completes it. -/
theorem steps_untouched (fs : Bool) (r : ρ) (pos : ℕ) (segs : List Segment) :
    (steps fs r pos segs).Pairwise fun e e' => e.Completes → e'.req ≠ e.req := by
  induction segs generalizing pos with
  | nil => exact .nil
  | cons seg rest ih =>
    have hlast : (Ramdisk.Event.endCur r pos seg.nsect (if fs then 0 else - Ramdisk.EIO) (!rest.isEmpty) ::
        steps fs r (pos + seg.nsect) rest).Pairwise fun e e' => e.Completes → e'.req ≠ e.req := by
      refine .cons ?_ (ih _)
      intro e he hlast
      obtain rfl : rest = [] := by simpa [Ramdisk.Event.Completes] using hlast
      cases he
    refine .cons (fun _ _ h => h.elim) ?_
    cases fs with
    | true => exact .cons (fun _ _ h => h.elim) hlast
    | false => exact hlast

/-- **`sbd_request` of `sbd.c` handles every queue**: it ends, with each segment of each request
completed once, those of the requests of type `REQ_TYPE_FS` transferred just before, and no request
touched after it was completed; the device and the buffers are what the transfers in queue order make
of them. -/
theorem handles_all (w hardsectSize : ℕ) (stale : ρ → Rq) (dev : Device) {queue : List ρ} {rq : ρ → Rq}
    (hnd : queue.Nodup) (hne : ∀ r ∈ queue, (rq r).segments ≠ []) :
    ∃ s, Reaches (turn w hardsectSize stale) (sbdRequest dev queue rq) s ∧
      turn w hardsectSize stale s = none ∧ Handled queue rq s.log ∧
      transferAll w hardsectSize dev (queue.flatMap fun r => (rq r).toTransfer) = (s.dev, s.buffers) := by
  obtain ⟨s, hs, hend, hlog, hdev, hbuffers⟩ :=
    reaches_end w hardsectSize stale (s := sbdRequest dev queue rq) rfl hnd hne
  refine ⟨s, hs, turn_nil hend, ?_, by rw [hdev, hbuffers]; rfl⟩
  rw [hlog]
  refine ⟨rfl, ?_, ?_, ?_⟩
  · rw [sbdRequest, List.nil_append, List.filterMap_flatMap]
    simp only [steps_transferred]
    clear hlog hs hend hnd hne hdev hbuffers
    induction queue with
    | nil => rfl
    | cons r l ih =>
      rw [List.flatMap_cons, ih]
      by_cases ht : (rq r).cmdType = .REQ_TYPE_FS
      · simp [ht]
      · simp [ht]
  · rw [sbdRequest, List.nil_append, List.filterMap_flatMap]
    simp only [steps_ended, decide_eq_true_eq]
  · rw [sbdRequest, List.nil_append]
    refine List.pairwise_flatMap.mpr ⟨fun r _ => steps_untouched .., ?_⟩
    refine hnd.imp fun {r r'} hne e he e' he' _ => ?_
    rw [steps_req he, steps_req he']
    exact hne.symm

/-- A request of another type with two segments, and a write. -/
theorem handles_all_two :
    let rq : ℕ → Rq := fun r =>
      if r = 0 then ⟨.other, 0, false, [⟨1, fun _ => 1⟩, ⟨1, fun _ => 2⟩]⟩
      else ⟨.REQ_TYPE_FS, 1, true, [⟨1, fun _ => 0⟩]⟩
    ∃ s, Reaches (turn 32 512 rq) (sbdRequest ⟨1024, fun _ => 7⟩ [0, 1] rq) s ∧
      turn 32 512 rq s = none ∧ Handled [0, 1] rq s.log ∧
      transferAll 32 512 ⟨1024, fun _ => 7⟩ ([0, 1].flatMap fun r => (rq r).toTransfer) =
        (s.dev, s.buffers) := by
  intro rq
  refine handles_all 32 512 rq ⟨1024, fun _ => 7⟩ (by decide) fun r _ => ?_
  by_cases h : r = 0 <;> simp [rq, h]

end Sbd

namespace Ramdisk

/-! ## The two loops in step -/

variable {κ ρ : Type*} [DecidableEq ρ] {C : Cipher κ} {P : Config} {stale : ρ → Rq} {s : Loop κ ρ}
  {t : Sbd.Loop ρ} {rq : ρ → Rq} {r : ρ} {l : List ρ} {size pos : ℕ} {write : Bool} {seg : Segment}
  {rest : List Segment}

/-- The requests are of type `REQ_TYPE_FS`, and their segments are inside the device. -/
structure Fine (P : Config) (size : ℕ) (rq : ρ → Rq) (l : List ρ) : Prop where
  nodup : l.Nodup
  fs : ∀ r ∈ l, (rq r).cmdType = .REQ_TYPE_FS
  segments : ∀ r ∈ l, (rq r).segments ≠ []
  inside : ∀ r ∈ l, ∀ x ∈ placed (rq r).pos (rq r).segments, InRange P size x.1 x.2

omit [DecidableEq ρ] in
/-- The first request, with its current segment. -/
theorem Fine.first (h : Fine P size rq (r :: l)) :
    ∃ pos write seg rest, rq r = ⟨.REQ_TYPE_FS, pos, write, seg :: rest⟩ ∧
      InRange P size pos seg.nsect ∧ ∀ x ∈ placed (pos + seg.nsect) rest, InRange P size x.1 x.2 := by
  have hfs := h.fs r (by simp)
  have hinside := h.inside r (by simp)
  obtain ⟨seg, rest, hsegs⟩ := List.exists_cons_of_ne_nil (h.segments r (by simp))
  rw [hsegs] at hinside
  obtain ⟨hseg, hrest⟩ := List.forall_mem_cons.mp hinside
  exact ⟨(rq r).pos, (rq r).write, seg, rest, by rw [← hfs, ← hsegs], hseg, hrest⟩

/-- The requests after the first one. -/
theorem Fine.tail (h : Fine P size rq (r :: l)) (q : Rq) : Fine P size (Function.update rq r q) l := by
  obtain ⟨hr, hnd⟩ := List.nodup_cons.mp h.nodup
  have hsame : ∀ x ∈ l, Function.update rq r q x = rq x := by
    intro x hx
    apply Function.update_of_ne
    rintro rfl
    exact hr hx
  refine ⟨hnd, fun x hx => ?_, fun x hx => ?_, fun x hx => ?_⟩
  · rw [hsame x hx]
    exact h.fs x (List.mem_cons_of_mem _ hx)
  · rw [hsame x hx]
    exact h.segments x (List.mem_cons_of_mem _ hx)
  · rw [hsame x hx]
    exact h.inside x (List.mem_cons_of_mem _ hx)

/-- The first request without its current segment. -/
theorem Fine.next (h : Fine P size rq (r :: l)) (hrest : rest ≠ [])
    (hinside : ∀ x ∈ placed pos rest, InRange P size x.1 x.2) :
    Fine P size (Function.update rq r ⟨.REQ_TYPE_FS, pos, write, rest⟩) (r :: l) := by
  have htail := h.tail ⟨.REQ_TYPE_FS, pos, write, rest⟩
  refine ⟨h.nodup, ?_, ?_, ?_⟩
  · refine List.forall_mem_cons.mpr ⟨?_, htail.fs⟩
    rw [Function.update_self]
  · refine List.forall_mem_cons.mpr ⟨?_, htail.segments⟩
    rw [Function.update_self]
    exact hrest
  · refine List.forall_mem_cons.mpr ⟨?_, htail.inside⟩
    rw [Function.update_self]
    exact hinside

/-- The loop of `ramdisk.c` is at the same place as that of `sbd.c`, on the device read through the
cipher. -/
structure Sim (C : Cipher κ) (P : Config) (s : Loop κ ρ) (t : Sbd.Loop ρ) : Prop where
  queue : t.queue = s.req.toList ++ s.queue
  fetched : s.req = none → s.queue = []
  rq : t.rq = s.rq
  dev : t.dev = plainOf C P s.dev
  buffers : t.buffers = s.buffers
  log : t.log = s.log
  key : RoundTrip C P s.dev.crypto

omit [DecidableEq ρ] in
theorem Sim.req_eq (h : Sim C P s t) (hqueue : t.queue = r :: l) : s.req = some r ∧ s.queue = l := by
  have hq := h.queue
  rw [hqueue] at hq
  cases hreq : s.req with
  | none =>
    rw [hreq, h.fetched hreq] at hq
    cases hq
  | some r' =>
    rw [hreq, Option.toList_some, List.singleton_append, List.cons.injEq] at hq
    exact ⟨by rw [hq.1], hq.2.symm⟩

/-- How many segments there are still to transfer. -/
def left (rq : ρ → Rq) (l : List ρ) : ℕ := (l.map fun r => (rq r).segments.length).sum

omit [DecidableEq ρ] in
theorem left_cons (rq : ρ → Rq) (r : ρ) (l : List ρ) :
    left rq (r :: l) = (rq r).segments.length + left rq l := by
  unfold left
  rw [List.map_cons, List.sum_cons]

theorem left_update (hr : r ∉ l) (q : Rq) : left (Function.update rq r q) l = left rq l := by
  unfold left
  refine congrArg List.sum (List.map_congr_left fun x hx => ?_)
  rw [Function.update_of_ne]
  rintro rfl
  exact hr hx

/-- The request after its current segment was completed. -/
def completed (stale : ρ → Rq) (r : ρ) (pos : ℕ) (write : Bool) (seg : Segment) (rest : List Segment) : Rq :=
  if rest.isEmpty then stale r else ⟨.REQ_TYPE_FS, pos + seg.nsect, write, rest⟩

theorem turn_transfer (stale : ρ → Rq) (hreq : s.req = some r)
    (hq : s.rq r = ⟨.REQ_TYPE_FS, pos, write, seg :: rest⟩) {dev : Device κ} {buffer : Bytes}
    (h : sbdTransfer C P s.dev pos seg.nsect seg.buffer write = some (dev, buffer)) :
    turn C P stale s = some
      { dev := dev
        queue := if rest.isEmpty then s.queue.tail else s.queue
        rq := Function.update s.rq r (completed stale r pos write seg rest)
        req := if rest.isEmpty then s.queue.head? else some r
        buffers := s.buffers ++ [buffer]
        log := s.log ++ [.readType r, .transfer r pos seg.nsect,
          .endCur r pos seg.nsect 0 (!rest.isEmpty)] } := by
  unfold turn
  simp only [hreq, hq, Rq.curSectors, Rq.buffer, List.head?_cons, Option.map_some, Option.getD_some, h]
  cases rest with
  | nil => simp [blkEndRequestCur, blkFetchRequest, hq, completed, Rq.curSectors]
  | cons seg' rest => simp [blkEndRequestCur, hq, completed, Rq.curSectors]

theorem turn_plain (stale : ρ → Rq) (hqueue : t.queue = r :: l)
    (hq : t.rq r = ⟨.REQ_TYPE_FS, pos, write, seg :: rest⟩) {dev : Sbd.Device} {buffer : Bytes}
    (h : Sbd.sbdTransfer P.wordBits P.logicalBlockSize t.dev pos seg.nsect seg.buffer write =
      (dev, buffer)) :
    Sbd.turn P.wordBits P.logicalBlockSize stale t = some
      { dev := dev
        queue := if rest.isEmpty then l else r :: l
        rq := Function.update t.rq r (completed stale r pos write seg rest)
        buffers := t.buffers ++ [buffer]
        log := t.log ++ [.readType r, .transfer r pos seg.nsect,
          .endCur r pos seg.nsect 0 (!rest.isEmpty)] } := by
  unfold Sbd.turn
  simp only [hqueue, hq, Rq.curSectors, Rq.buffer, List.head?_cons, Option.map_some, Option.getD_some, h]
  cases rest with
  | nil => simp [Sbd.endRequest, hq, completed, Rq.curSectors]
  | cons seg' rest => simp [Sbd.endRequest, hq, completed, Rq.curSectors]

/-- A turn of both loops. -/
theorem Sim.turn (stale : ρ → Rq) (h : Sim C P s t) (hblock : C.blocksize ∣ P.logicalBlockSize)
    (hfine : Fine P s.dev.size t.rq t.queue) (hqueue : t.queue = r :: l) :
    ∃ s' t', Ramdisk.turn C P stale s = some s' ∧
      Sbd.turn P.wordBits P.logicalBlockSize stale t = some t' ∧ Sim C P s' t' ∧
      s'.dev.size = s.dev.size ∧ Fine P s.dev.size t'.rq t'.queue ∧
      left t'.rq t'.queue < left t.rq t.queue := by
  obtain ⟨hreq, hl⟩ := h.req_eq hqueue
  rw [hqueue] at hfine
  obtain ⟨pos, write, seg, rest, hq, hseg, hinside⟩ := hfine.first
  obtain ⟨hr, -⟩ := List.nodup_cons.mp hfine.nodup
  -- the transfer of the current segment
  obtain ⟨dev, buffer, htransfer, hsize, hcrypto, hplain⟩ :=
    sbdTransfer_plainOf (r := ⟨pos, seg.nsect, seg.buffer, write⟩) hblock h.key hseg
  rw [← h.dev] at hplain
  have hkey : RoundTrip C P dev.crypto := hcrypto ▸ h.key.setkey
  refine ⟨_, _, turn_transfer stale hreq (h.rq ▸ hq) htransfer, turn_plain stale hqueue hq hplain, ?_⟩
  have hleft : left t.rq t.queue = rest.length + 1 + left t.rq l := by
    rw [hqueue, left_cons, hq]
    rfl
  cases rest with
  | nil =>
    refine ⟨⟨?_, ?_, ?_, rfl, ?_, ?_, hkey⟩, hsize, hfine.tail _, ?_⟩
    · show l = s.queue.head?.toList ++ s.queue.tail
      rw [hl]
      cases l <;> rfl
    · show s.queue.head? = none → s.queue.tail = []
      cases s.queue with
      | nil => exact fun _ => rfl
      | cons => exact fun h => by cases h
    · rw [h.rq]
    · rw [h.buffers]
    · rw [h.log]
    · rw [hleft]
      show left _ l < _
      rw [left_update hr]
      exact Nat.lt_add_of_pos_left (Nat.succ_pos _)
  | cons seg' rest =>
    refine ⟨⟨?_, ?_, ?_, rfl, ?_, ?_, hkey⟩, hsize, hfine.next (by simp) hinside, ?_⟩
    · show r :: l = _
      rw [hl]
      rfl
    · exact fun h => by cases h
    · rw [h.rq]
    · rw [h.buffers]
    · rw [h.log]
    · rw [hleft]
      show left (Function.update t.rq r ⟨.REQ_TYPE_FS, pos + seg.nsect, write, seg' :: rest⟩) (r :: l) < _
      rw [left_cons, left_update hr, Function.update_self]
      exact Nat.add_lt_add_right (Nat.lt_succ_self _) _

/-- **Both loops work a queue off**, in step. -/
theorem Sim.reaches (stale : ρ → Rq) (h : Sim C P s t) (hblock : C.blocksize ∣ P.logicalBlockSize)
    (hfine : Fine P s.dev.size t.rq t.queue) :
    ∃ s' t', Reaches (Ramdisk.turn C P stale) s s' ∧
      Reaches (Sbd.turn P.wordBits P.logicalBlockSize stale) t t' ∧ Sim C P s' t' ∧ t'.queue = [] := by
  induction hn : left t.rq t.queue using Nat.strong_induction_on generalizing s t with
  | _ n ih =>
    cases hqueue : t.queue with
    | nil => exact ⟨s, t, .refl, .refl, h, hqueue⟩
    | cons r l =>
      obtain ⟨s₁, t₁, hs, ht, hsim, hsize, hfine₁, hlt⟩ := h.turn stale hblock hfine hqueue
      obtain ⟨s', t', hs', ht', hsim', hend⟩ := ih _ (hn ▸ hlt) hsim (hsize ▸ hfine₁) rfl
      exact ⟨s', t', .head hs hs', .head ht ht', hsim', hend⟩

/-- **The encrypting driver serves a queue as the plain driver does**: on every queue of requests inside
the device both request loops end, having made the same transfers and given the same statuses in the
same order, with the same buffers; and the device read through the cipher is the plain device. -/
theorem queue_refines_plain (stale : ρ → Rq) (hblock : C.blocksize ∣ P.logicalBlockSize) {dev : Device κ}
    (hkey : RoundTrip C P dev.crypto) {queue : List ρ} (hfine : Fine P dev.size rq queue) :
    ∃ s t, Reaches (turn C P stale) (sbdRequest dev queue rq) s ∧ s.req = none ∧
      Reaches (Sbd.turn P.wordBits P.logicalBlockSize stale) (Sbd.sbdRequest (plainOf C P dev) queue rq) t ∧
      t.queue = [] ∧ t.log = s.log ∧ t.buffers = s.buffers ∧ t.dev = plainOf C P s.dev := by
  have hstart : Sim C P (sbdRequest dev queue rq) (Sbd.sbdRequest (plainOf C P dev) queue rq) := by
    refine ⟨?_, ?_, rfl, rfl, rfl, rfl, hkey⟩
    · show queue = queue.head?.toList ++ queue.tail
      cases queue <;> rfl
    · show queue.head? = none → queue.tail = []
      cases queue with
      | nil => exact fun _ => rfl
      | cons => exact fun h => by cases h
  obtain ⟨s, t, hs, ht, hsim, hend⟩ := hstart.reaches stale hblock hfine
  refine ⟨s, t, hs, ?_, ht, hend, hsim.log, hsim.buffers, hsim.dev⟩
  have hq := hsim.queue
  rw [hend] at hq
  cases hreq : s.req with
  | none => rfl
  | some r =>
    rw [hreq] at hq
    cases hq

/-- A write of two segments and a read, on a device of two sectors. -/
theorem queue_refines_plain_two :
    let P : Config := ⟨32, le_rfl, 512, 2, "cs444hw3".toUTF8.toList, 8⟩
    let rq : ℕ → Rq := fun r =>
      if r = 0 then ⟨.REQ_TYPE_FS, 0, true, [⟨1, fun _ => 1⟩, ⟨1, fun _ => 2⟩]⟩
      else ⟨.REQ_TYPE_FS, 1, false, [⟨1, fun _ => 0⟩]⟩
    ∃ s t, Reaches (turn xorCipher P rq) (sbdRequest ⟨1024, fun _ => 0, []⟩ [0, 1] rq) s ∧ s.req = none ∧
      Reaches (Sbd.turn 32 512 rq)
        (Sbd.sbdRequest (plainOf xorCipher P ⟨1024, fun _ => 0, []⟩) [0, 1] rq) t ∧
      t.queue = [] ∧ t.log = s.log ∧ t.buffers = s.buffers ∧ t.dev = plainOf xorCipher P s.dev := by
  intro P rq
  have hfine : Fine P 1024 rq [0, 1] := by
    refine ⟨by decide, ?_, ?_, ?_⟩
    · exact fun r _ => by by_cases h : r = 0 <;> simp [rq, h]
    · exact fun r _ => by by_cases h : r = 0 <;> simp [rq, h]
    · intro r hr x hx
      have hplace : x = (0, 1) ∨ x = (1, 1) := by
        by_cases h : r = 0
        · simpa [rq, h, placed] using hx
        · exact .inr (by simpa [rq, h, placed] using hx)
      rcases hplace with rfl | rfl
      · exact ⟨by decide, by decide⟩
      · exact ⟨by decide, by decide⟩
  have hblock : xorCipher.blocksize ∣ P.logicalBlockSize := by decide
  exact @queue_refines_plain _ ℕ _ xorCipher P rq rq hblock ⟨1024, fun _ => 0, []⟩
    (xorCipher_roundTrip P []) _ hfine

end Ramdisk

end Cs444
