import Cs444.Ramdisk.Range

/-!
# The request loop of `ramdisk.c`

`sbd_request` takes requests off the queue and completes them, segment by segment. A turn of its loop is
`turn`, over the requests the block layer holds and a log of what the driver does to each. The block
layer is modelled by what the driver relies on: `blk_fetch_request` takes the next request off the queue,
`__blk_end_request_cur` completes the current segment and tells whether there are more, and
`__blk_end_request_all` completes the request. The memory of a completed request holds whatever `stale`
says.

* `handlesAll_iff`: the loop ends, with every request handled once, exactly when there are only requests
  of type `REQ_TYPE_FS` and every transfer ends: after a request of another type the loop goes on with
  the request it has just completed.
* `truthful_iff`: the status `0` says the truth exactly when every segment passes the range check and
  has fewer bytes than an `unsigned long` counts.
-/

namespace Cs444.Ramdisk

open StateTransition (Reaches)

/-! ## The code -/

/-- `req->cmd_type`. -/
inductive CmdType
  | REQ_TYPE_FS
  | other
  deriving DecidableEq, Repr

/-- A segment of a request: its sectors and its buffer. -/
structure Segment where
  nsect : ℕ
  buffer : Bytes

/-- What the driver reads of a `struct request`: `cmd_type`, `blk_rq_pos(req)`, `rq_data_dir(req)`, and
the segments that are not completed, the current one first. -/
structure Rq where
  cmdType : CmdType
  pos : ℕ
  write : Bool
  segments : List Segment

/-- `blk_rq_cur_sectors(req)`. -/
def Rq.curSectors (q : Rq) : ℕ := (q.segments.head?.map Segment.nsect).getD 0

/-- `req->buffer`. -/
def Rq.buffer (q : Rq) : Bytes := (q.segments.head?.map Segment.buffer).getD fun _ => 0

/-- What the driver does to a request. -/
inductive Event (ρ : Type*)
  /-- It reads `req->cmd_type`. -/
  | readType (r : ρ)
  /-- It calls `sbd_transfer`, with this position and these sectors. -/
  | transfer (r : ρ) (pos nsect : ℕ)
  /-- It calls `__blk_end_request_cur`, for the segment at this position, which returns `more`. -/
  | endCur (r : ρ) (pos nsect : ℕ) (error : ℤ) (more : Bool)
  /-- It calls `__blk_end_request_all`. -/
  | endAll (r : ρ) (error : ℤ)
  deriving DecidableEq, Repr

/-- The loop: the device, the requests on the queue, what each request holds, the variable `req`, the
buffers of the transfers so far, and the log. -/
structure Loop (κ ρ : Type*) where
  dev : Device κ
  queue : List ρ
  rq : ρ → Rq
  req : Option ρ
  buffers : List Bytes
  log : List (Event ρ)

def EIO : ℤ := 5

variable {κ ρ : Type*} [DecidableEq ρ]

/-- `req = blk_fetch_request(q)`. -/
def blkFetchRequest (s : Loop κ ρ) : Loop κ ρ := { s with req := s.queue.head?, queue := s.queue.tail }

/-- `__blk_end_request_cur(req, error)`. -/
def blkEndRequestCur (stale : ρ → Rq) (s : Loop κ ρ) (r : ρ) (error : ℤ) : Loop κ ρ × Bool :=
  let q := s.rq r
  let more := !q.segments.tail.isEmpty
  ({ s with
      rq := Function.update s.rq r
        (if more then { q with pos := q.pos + q.curSectors, segments := q.segments.tail } else stale r)
      log := s.log ++ [.endCur r q.pos q.curSectors error more] }, more)

/-- `__blk_end_request_all(req, error)`. -/
def blkEndRequestAll (stale : ρ → Rq) (s : Loop κ ρ) (r : ρ) (error : ℤ) : Loop κ ρ :=
  { s with rq := Function.update s.rq r (stale r), log := s.log ++ [.endAll r error] }

variable (C : Cipher κ) (P : Config)

/-- A turn of the loop of `sbd_request`. It gives `none` when the loop is over, and when `sbd_transfer`
does not return. -/
def turn (stale : ρ → Rq) (s : Loop κ ρ) : Option (Loop κ ρ) :=
  match s.req with
  | none => none
  | some r =>
    let s := { s with log := s.log ++ [.readType r] }
    let q := s.rq r
    if q.cmdType ≠ .REQ_TYPE_FS then
      -- Skip non-CMD request, and continue
      some (blkEndRequestAll stale s r (- EIO))
    else
      match sbdTransfer C P s.dev q.pos q.curSectors q.buffer q.write with
      | none => none
      | some (dev, buffer) =>
        let s := { s with
          dev := dev
          buffers := s.buffers ++ [buffer]
          log := s.log ++ [.transfer r q.pos q.curSectors] }
        let (s, more) := blkEndRequestCur stale s r 0
        some (if !more then blkFetchRequest s else s)

/-- `sbd_request` before its loop. -/
def sbdRequest (dev : Device κ) (queue : List ρ) (rq : ρ → Rq) : Loop κ ρ :=
  blkFetchRequest ⟨dev, queue, rq, none, [], []⟩

/-! ## What the loop should do -/

/-- The request an event is about. -/
def Event.req : Event ρ → ρ
  | .readType r => r
  | .transfer r _ _ => r
  | .endCur r _ _ _ _ => r
  | .endAll r _ => r

/-- The event completes its request. -/
def Event.Completes : Event ρ → Prop
  | .endCur _ _ _ _ more => more = false
  | .endAll _ _ => True
  | _ => False

/-- The segment an event transfers. -/
def Event.transferred : Event ρ → Option (ρ × ℕ × ℕ)
  | .transfer r pos nsect => some (r, pos, nsect)
  | _ => none

/-- The request an event completes as a whole, and the status. -/
def Event.endedAll : Event ρ → Option (ρ × ℤ)
  | .endAll r error => some (r, error)
  | _ => none

/-- The positions and sectors of segments that start at `pos`. -/
def placed : ℕ → List Segment → List (ℕ × ℕ)
  | _, [] => []
  | pos, seg :: rest => (pos, seg.nsect) :: placed (pos + seg.nsect) rest

/-- The segments that start at `pos`, each with its position and the direction of its request. -/
def located (write : Bool) : ℕ → List Segment → List (ℕ × Segment × Bool)
  | _, [] => []
  | pos, seg :: rest => (pos, seg, write) :: located write (pos + seg.nsect) rest

/-- The segments of a request that are to be transferred. -/
def Rq.toTransfer (q : Rq) : List (ℕ × Segment × Bool) :=
  if q.cmdType = .REQ_TYPE_FS then located q.write q.pos q.segments else []

/-- Segments transferred one after the other: the device and the buffers after them. -/
def transferAll (dev : Device κ) : List (ℕ × Segment × Bool) → Option (Device κ × List Bytes)
  | [] => some (dev, [])
  | (pos, seg, write) :: l =>
    (sbdTransfer C P dev pos seg.nsect seg.buffer write).bind fun r =>
      (transferAll r.1 l).map fun r' => (r'.1, r.2 :: r'.2)

/-- The log of a loop that handles every request of the queue once. -/
structure Handled (queue : List ρ) (rq : ρ → Rq) (log : List (Event ρ)) : Prop where
  /-- Each segment of each request of type `REQ_TYPE_FS` is transferred once, in queue order. -/
  transfers : log.filterMap Event.transferred =
    (queue.filter fun r => (rq r).cmdType = .REQ_TYPE_FS).flatMap fun r =>
      (placed (rq r).pos (rq r).segments).map fun x => (r, x)
  /-- Each other request is completed once, with `-EIO`. -/
  errors : log.filterMap Event.endedAll =
    (queue.filter fun r => (rq r).cmdType ≠ .REQ_TYPE_FS).map fun r => (r, - EIO)
  /-- No request is touched after it was completed. -/
  untouched : log.Pairwise fun e e' => e.Completes → e'.req ≠ e.req

/-- `sbd_request` ends, having handled every request of the queue once: the device and the buffers are
what the transfers of the segments in queue order make of them. -/
def HandlesAll (stale : ρ → Rq) (dev : Device κ) (queue : List ρ) (rq : ρ → Rq) : Prop :=
  ∃ s, Reaches (turn C P stale) (sbdRequest dev queue rq) s ∧ s.req = none ∧ Handled queue rq s.log ∧
    transferAll C P dev (queue.flatMap fun r => (rq r).toTransfer) = some (s.dev, s.buffers)

/-- The status of an event says the truth: a segment is completed with `0` only when all its bytes were
moved, over whatever lay at their places, and with an error when it was sent back. -/
def Event.Truthful (size : ℕ) : Event ρ → Prop
  | .endCur _ pos nsect error _ =>
    (error = 0 → ∀ j < nsect * P.logicalBlockSize,
      Moves C P size pos nsect j ∧ Overwrites C P size pos nsect j) ∧
    (BeyondEnd P size pos nsect → error ≠ 0)
  | _ => True

variable {C P} {stale : ρ → Rq} {s s' : Loop κ ρ} {r : ρ} {pos : ℕ} {write : Bool} {seg : Segment}
  {rest : List Segment}

/-! ## One turn -/

theorem turn_of_none (h : s.req = none) : turn C P stale s = none := by
  unfold turn
  rw [h]

theorem turn_other (hreq : s.req = some r) (htype : (s.rq r).cmdType ≠ .REQ_TYPE_FS) :
    turn C P stale s = some { s with
      rq := Function.update s.rq r (stale r)
      log := s.log ++ [.readType r, .endAll r (- EIO)] } := by
  unfold turn
  simp only [hreq]
  rw [if_pos htype]
  simp [blkEndRequestAll]

omit [DecidableEq ρ] in
theorem sbdTransfer_size {dev dev' : Device κ} {sector nsect : ℕ} {buffer buffer' : Bytes}
    (h : sbdTransfer C P dev sector nsect buffer write = some (dev', buffer')) :
    dev'.size = dev.size := by
  rw [sbdTransfer_eq] at h
  split_ifs at h
  · cases h
    rfl
  · obtain ⟨data, -, hres⟩ := Option.map_eq_some_iff.mp h
    cases hres
    rfl
  · obtain ⟨data, -, hres⟩ := Option.map_eq_some_iff.mp h
    cases hres
    rfl

/-- A turn on a request of type `REQ_TYPE_FS` transfers and completes its current segment. -/
theorem turn_fs (stale : ρ → Rq) (hreq : s.req = some r) (htype : (s.rq r).cmdType = .REQ_TYPE_FS)
    (hends : TransferEnds C P s.dev.size (s.rq r).pos (s.rq r).curSectors) :
    ∃ dev buffer, dev.size = s.dev.size ∧
      sbdTransfer C P s.dev (s.rq r).pos (s.rq r).curSectors (s.rq r).buffer (s.rq r).write =
        some (dev, buffer) ∧
      turn C P stale s = some
        (let t := (blkEndRequestCur stale { s with
          dev := dev
          buffers := s.buffers ++ [buffer]
          log := s.log ++ [.readType r, .transfer r (s.rq r).pos (s.rq r).curSectors] } r 0).1
        if (s.rq r).segments.tail.isEmpty then blkFetchRequest t else t) := by
  have hsome := (sbdTransfer_isSome_iff (s.rq r).buffer (s.rq r).write).mpr hends
  obtain ⟨⟨dev, buffer⟩, htransfer⟩ := Option.isSome_iff_exists.mp hsome
  refine ⟨dev, buffer, sbdTransfer_size htransfer, htransfer, ?_⟩
  unfold turn
  simp only [hreq]
  rw [if_neg (by simpa using htype), htransfer]
  simp [blkEndRequestCur]

theorem turn_stuck (hreq : s.req = some r) (htype : (s.rq r).cmdType = .REQ_TYPE_FS)
    (hends : ¬ TransferEnds C P s.dev.size (s.rq r).pos (s.rq r).curSectors) :
    turn C P stale s = none := by
  have hnone : sbdTransfer C P s.dev (s.rq r).pos (s.rq r).curSectors (s.rq r).buffer
      (s.rq r).write = none := by
    rw [← Option.not_isSome_iff_eq_none, sbdTransfer_isSome_iff]
    exact hends
  unfold turn
  simp only [hreq]
  rw [if_neg (by simpa using htype), hnone]

/-- What a turn can do. -/
theorem turn_cases (h : turn C P stale s = some s') :
    ∃ r, s.req = some r ∧ s'.dev.size = s.dev.size ∧
      ((s.rq r).cmdType ≠ .REQ_TYPE_FS ∧ s'.log = s.log ++ [.readType r, .endAll r (- EIO)] ∨
        (s.rq r).cmdType = .REQ_TYPE_FS ∧
          TransferEnds C P s.dev.size (s.rq r).pos (s.rq r).curSectors ∧
          s'.log = s.log ++ [.readType r, .transfer r (s.rq r).pos (s.rq r).curSectors,
            .endCur r (s.rq r).pos (s.rq r).curSectors 0 (!(s.rq r).segments.tail.isEmpty)]) := by
  cases hreq : s.req with
  | none =>
    rw [turn_of_none hreq] at h
    cases h
  | some r =>
    refine ⟨r, rfl, ?_⟩
    by_cases htype : (s.rq r).cmdType = .REQ_TYPE_FS
    · by_cases hends : TransferEnds C P s.dev.size (s.rq r).pos (s.rq r).curSectors
      · obtain ⟨dev, buffer, hsize, -, hturn⟩ := turn_fs stale hreq htype hends
        rw [hturn] at h
        cases h
        constructor
        · split_ifs <;> exact hsize
        · refine .inr ⟨htype, hends, ?_⟩
          split_ifs <;> simp [blkEndRequestCur, blkFetchRequest]
      · rw [turn_stuck hreq htype hends] at h
        cases h
    · rw [turn_other hreq htype] at h
      cases h
      exact ⟨rfl, .inl ⟨htype, rfl⟩⟩

/-- The events of a request of type `REQ_TYPE_FS`, from the segments that start at `pos` on. -/
def events (r : ρ) : ℕ → List Segment → List (Event ρ)
  | _, [] => []
  | pos, seg :: rest =>
    .readType r :: .transfer r pos seg.nsect :: .endCur r pos seg.nsect 0 (!rest.isEmpty) ::
      events r (pos + seg.nsect) rest

/-- The transfers of `ts` lead from the device of `s` to that of `s'`, with their buffers. -/
def Transfers (C : Cipher κ) (P : Config) (s s' : Loop κ ρ) (ts : List (ℕ × Segment × Bool)) : Prop :=
  ∃ buffers, transferAll C P s.dev ts = some (s'.dev, buffers) ∧ s'.buffers = s.buffers ++ buffers

omit [DecidableEq ρ] in
theorem Transfers.nil (s : Loop κ ρ) : Transfers C P s s [] := ⟨[], rfl, by simp⟩

omit [DecidableEq ρ] in
theorem Transfers.trans {s'' : Loop κ ρ} {ts ts' : List (ℕ × Segment × Bool)}
    (h : Transfers C P s s' ts) (h' : Transfers C P s' s'' ts') : Transfers C P s s'' (ts ++ ts') := by
  obtain ⟨bs, hts, hbs⟩ := h
  obtain ⟨bs', hts', hbs'⟩ := h'
  refine ⟨bs ++ bs', ?_, by rw [hbs', hbs, List.append_assoc]⟩
  clear hbs hbs'
  generalize s.dev = dev at hts
  induction ts generalizing dev bs with
  | nil =>
    cases hts
    exact hts'
  | cons x ts ih =>
    obtain ⟨pos, seg, write⟩ := x
    rw [transferAll] at hts
    obtain ⟨r, hr, hts⟩ := Option.bind_eq_some_iff.mp hts
    obtain ⟨r', hr', heq⟩ := Option.map_eq_some_iff.mp hts
    obtain ⟨hdev, rfl⟩ := Prod.mk.inj heq
    have hr'' : transferAll C P r.1 ts = some (s'.dev, r'.2) := by
      rw [hr', ← hdev]
    rw [List.cons_append, transferAll, hr, Option.bind_some, ih _ _ hr'']
    rfl

/-- From `s` the loop gets to `s'`, and does only what is in `es`, to the request `r`, and transfers
`ts`. -/
structure Passes (stale : ρ → Rq) (C : Cipher κ) (P : Config) (s s' : Loop κ ρ) (r : ρ)
    (es : List (Event ρ)) (ts : List (ℕ × Segment × Bool)) : Prop where
  reaches : Reaches (turn C P stale) s s'
  size : s'.dev.size = s.dev.size
  rq : ∀ r' ≠ r, s'.rq r' = s.rq r'
  log : s'.log = s.log ++ es
  transfers : Transfers C P s s' ts

variable {es es' : List (Event ρ)} {ts ts' : List (ℕ × Segment × Bool)}

theorem Passes.trans {s'' : Loop κ ρ} (h : Passes stale C P s s' r es ts)
    (h' : Passes stale C P s' s'' r es' ts') : Passes stale C P s s'' r (es ++ es') (ts ++ ts') := by
  refine ⟨h.reaches.trans h'.reaches, h'.size.trans h.size, ?_, ?_, h.transfers.trans h'.transfers⟩
  · intro r' hr'
    rw [h'.rq r' hr', h.rq r' hr']
  · rw [h'.log, h.log, List.append_assoc]

/-- The other requests of a list stay as they are. -/
theorem Passes.rq_of_mem (h : Passes stale C P s s' r es ts) {l : List ρ} (hr : r ∉ l) :
    ∀ x ∈ l, s'.rq x = s.rq x := by
  intro x hx
  apply h.rq
  rintro rfl
  exact hr hx

omit [DecidableEq ρ] in
/-- The transfer of the current segment. -/
theorem transfers_single {dev : Device κ} {buffer : Bytes}
    (hq : s.rq r = ⟨.REQ_TYPE_FS, pos, write, seg :: rest⟩)
    (h : sbdTransfer C P s.dev (s.rq r).pos (s.rq r).curSectors (s.rq r).buffer (s.rq r).write =
      some (dev, buffer)) (hdev : s'.dev = dev) (hbuffers : s'.buffers = s.buffers ++ [buffer]) :
    Transfers C P s s' [(pos, seg, write)] := by
  rw [hq] at h
  refine ⟨[buffer], ?_, hbuffers⟩
  rw [transferAll, show sbdTransfer C P s.dev pos seg.nsect seg.buffer write = _ from h, hdev]
  rfl

/-- The turn on the last segment of a request fetches the next one. -/
theorem passes_last (stale : ρ → Rq) (hreq : s.req = some r)
    (hq : s.rq r = ⟨.REQ_TYPE_FS, pos, write, [seg]⟩)
    (hends : TransferEnds C P s.dev.size pos seg.nsect) :
    ∃ s', Passes stale C P s s' r (events r pos [seg]) [(pos, seg, write)] ∧ s'.req = s.queue.head? ∧
      s'.queue = s.queue.tail := by
  obtain ⟨dev, buffer, hsize, htransfer, hturn⟩ := turn_fs stale hreq (by rw [hq])
    (by rw [hq]; exact hends)
  simp only [hq] at hturn
  refine ⟨_, ⟨.single hturn, ?_, ?_, ?_, transfers_single hq htransfer ?_ ?_⟩, ?_, ?_⟩
  · simpa [blkEndRequestCur, blkFetchRequest] using hsize
  · intro r' hr'
    simp [blkEndRequestCur, blkFetchRequest, hr']
  · simp [blkEndRequestCur, blkFetchRequest, hq, events, Rq.curSectors]
  · simp [blkEndRequestCur, blkFetchRequest]
  · simp [blkEndRequestCur, blkFetchRequest]
  · simp [blkEndRequestCur, blkFetchRequest]
  · simp [blkEndRequestCur, blkFetchRequest]

/-- The turn on another segment goes on to the next segment. -/
theorem passes_segment (stale : ρ → Rq) (hreq : s.req = some r)
    (hq : s.rq r = ⟨.REQ_TYPE_FS, pos, write, seg :: rest⟩) (hrest : rest ≠ [])
    (hends : TransferEnds C P s.dev.size pos seg.nsect) :
    ∃ s', Passes stale C P s s' r
        [.readType r, .transfer r pos seg.nsect, .endCur r pos seg.nsect 0 (!rest.isEmpty)]
        [(pos, seg, write)] ∧
      s'.req = some r ∧ s'.queue = s.queue ∧
      s'.rq r = ⟨.REQ_TYPE_FS, pos + seg.nsect, write, rest⟩ := by
  obtain ⟨dev, buffer, hsize, htransfer, hturn⟩ := turn_fs stale hreq (by rw [hq])
    (by rw [hq]; exact hends)
  have hmore : rest.isEmpty = false := by simpa using hrest
  simp only [hq, List.tail_cons, hmore] at hturn
  refine ⟨_, ⟨.single hturn, ?_, ?_, ?_, transfers_single hq htransfer ?_ ?_⟩, ?_, ?_, ?_⟩
  · simpa [blkEndRequestCur] using hsize
  · intro r' hr'
    simp [blkEndRequestCur, hr']
  · simp [blkEndRequestCur, hq, Rq.curSectors]
  · simp [blkEndRequestCur]
  · simp [blkEndRequestCur]
  · simpa [blkEndRequestCur] using hreq
  · simp [blkEndRequestCur]
  · simp [blkEndRequestCur, hq, hmore, Rq.curSectors]

/-! ## One request -/

/-- Every transfer of the segments that start at `pos` ends. -/
def AllEnd (C : Cipher κ) (P : Config) (size pos : ℕ) (segs : List Segment) : Prop :=
  ∀ x ∈ placed pos segs, TransferEnds C P size x.1 x.2

/-- **A request whose transfers end** is passed. -/
theorem passes_request (stale : ρ → Rq) {segs : List Segment} (hreq : s.req = some r)
    (hq : s.rq r = ⟨.REQ_TYPE_FS, pos, write, segs⟩) (hne : segs ≠ [])
    (hends : AllEnd C P s.dev.size pos segs) :
    ∃ s', Passes stale C P s s' r (events r pos segs) (located write pos segs) ∧
      s'.req = s.queue.head? ∧ s'.queue = s.queue.tail := by
  induction segs generalizing s pos with
  | nil => exact absurd rfl hne
  | cons seg rest ih =>
    obtain ⟨hseg, hrest⟩ := List.forall_mem_cons.mp hends
    by_cases hlast : rest = []
    · subst hlast
      exact passes_last stale hreq hq hseg
    · obtain ⟨s₁, hpass, hreq₁, hqueue, hq₁⟩ := passes_segment stale hreq hq hlast hseg
      obtain ⟨s', hpass', hreq', hqueue'⟩ := ih hreq₁ hq₁ hlast (by rw [hpass.size]; exact hrest)
      rw [hqueue] at hreq' hqueue'
      exact ⟨s', hpass.trans hpass', hreq', hqueue'⟩

/-- **A request with a transfer that does not end** holds the loop up. -/
theorem stuck_request (stale : ρ → Rq) {segs : List Segment} (hreq : s.req = some r)
    (hq : s.rq r = ⟨.REQ_TYPE_FS, pos, write, segs⟩) (hends : ¬ AllEnd C P s.dev.size pos segs) :
    ∃ s', Reaches (turn C P stale) s s' ∧ s'.req = some r ∧ turn C P stale s' = none := by
  induction segs generalizing s pos with
  | nil => exact absurd (by simp [AllEnd, placed]) hends
  | cons seg rest ih =>
    by_cases hseg : TransferEnds C P s.dev.size pos seg.nsect
    · have hrest : ¬ AllEnd C P s.dev.size (pos + seg.nsect) rest := fun h =>
        hends (List.forall_mem_cons.mpr ⟨hseg, h⟩)
      have hne : rest ≠ [] := by
        rintro rfl
        exact hrest (by simp [AllEnd, placed])
      obtain ⟨s₁, hpass, hreq₁, -, hq₁⟩ := passes_segment stale hreq hq hne hseg
      obtain ⟨s', hs', hreq', hstuck⟩ := ih hreq₁ hq₁ (by rw [hpass.size]; exact hrest)
      exact ⟨s', hpass.reaches.trans hs', hreq', hstuck⟩
    · exact ⟨s, .refl, hreq, turn_stuck hreq (by rw [hq]) (by rw [hq]; exact hseg)⟩

/-! ## The queue -/

/-- The request is of type `REQ_TYPE_FS` and its transfers end. -/
def Passable (C : Cipher κ) (P : Config) (size : ℕ) (q : Rq) : Prop :=
  q.cmdType = .REQ_TYPE_FS ∧ AllEnd C P size q.pos q.segments

theorem Rq.eq_of_cmdType {q : Rq} (h : q.cmdType = .REQ_TYPE_FS) :
    q = ⟨.REQ_TYPE_FS, q.pos, q.write, q.segments⟩ := by
  rw [← h]

/-- Passing the first request of a list. -/
theorem passes_first (stale : ρ → Rq) {l : List ρ} (hreq : s.req = some r) (hqueue : s.queue = l)
    (hne : (s.rq r).segments ≠ []) (hpass : Passable C P s.dev.size (s.rq r)) :
    ∃ s', Passes stale C P s s' r (events r (s.rq r).pos (s.rq r).segments) (s.rq r).toTransfer ∧
      s'.req = l.head? ∧ s'.queue = l.tail := by
  obtain ⟨htype, hends⟩ := hpass
  rw [← hqueue, Rq.toTransfer, if_pos htype]
  exact passes_request stale hreq (Rq.eq_of_cmdType htype) hne hends

/-- **A queue of requests that can be passed** is worked off. -/
theorem reaches_end (stale : ρ → Rq) {l : List ρ} (hreq : s.req = l.head?)
    (hqueue : s.queue = l.tail) (hnd : l.Nodup) (hne : ∀ r ∈ l, (s.rq r).segments ≠ [])
    (hpass : ∀ r ∈ l, Passable C P s.dev.size (s.rq r)) :
    ∃ s', Reaches (turn C P stale) s s' ∧ s'.req = none ∧
      s'.log = s.log ++ (l.flatMap fun r => events r (s.rq r).pos (s.rq r).segments) ∧
      Transfers C P s s' (l.flatMap fun r => (s.rq r).toTransfer) := by
  induction l generalizing s with
  | nil => exact ⟨s, .refl, hreq, by simp, .nil s⟩
  | cons r l ih =>
    obtain ⟨hr, hnd⟩ := List.nodup_cons.mp hnd
    obtain ⟨s₁, hp, hreq₁, hqueue₁⟩ := passes_first stale hreq hqueue (hne r (by simp))
      (hpass r (by simp))
    have hsame := hp.rq_of_mem hr
    obtain ⟨s', hs', hend, hlog, htransfers⟩ := ih hreq₁ hqueue₁ hnd
      (fun x hx => by rw [hsame x hx]; exact hne x (List.mem_cons_of_mem _ hx))
      (fun x hx => by rw [hsame x hx, hp.size]; exact hpass x (List.mem_cons_of_mem _ hx))
    refine ⟨s', hp.reaches.trans hs', hend, ?_, ?_⟩
    · rw [hlog, hp.log, List.flatMap_cons, List.append_assoc]
      congr 2
      exact List.flatMap_congr fun x hx => by rw [hsame x hx]
    · have hsegs : (l.flatMap fun r => (s₁.rq r).toTransfer) = l.flatMap fun r => (s.rq r).toTransfer :=
        List.flatMap_congr fun x hx => by rw [hsame x hx]
      rw [hsegs] at htransfers
      rw [List.flatMap_cons]
      exact hp.transfers.trans htransfers

/-- The loop gets to the first request that cannot be passed. -/
theorem reaches_stuck (stale : ρ → Rq) {l : List ρ} (hreq : s.req = l.head?)
    (hqueue : s.queue = l.tail) (hnd : l.Nodup)
    (hne : ∀ r ∈ l, (s.rq r).cmdType = .REQ_TYPE_FS → (s.rq r).segments ≠ [])
    (hbad : ∃ r ∈ l, ¬ Passable C P s.dev.size (s.rq r)) :
    ∃ s' r, Reaches (turn C P stale) s s' ∧ s'.req = some r ∧
      (turn C P stale s' = none ∨ (s'.rq r).cmdType ≠ .REQ_TYPE_FS) := by
  induction l generalizing s with
  | nil =>
    obtain ⟨r, hr, -⟩ := hbad
    cases hr
  | cons r l ih =>
    obtain ⟨hr, hnd⟩ := List.nodup_cons.mp hnd
    by_cases hpass : Passable C P s.dev.size (s.rq r)
    · obtain ⟨s₁, hp, hreq₁, hqueue₁⟩ := passes_first stale hreq hqueue
        (hne r (by simp) hpass.1) hpass
      have hsame := hp.rq_of_mem hr
      obtain ⟨x, hx, hbad⟩ := hbad
      have hxl : x ∈ l := by
        rcases List.mem_cons.mp hx with rfl | hxl
        · exact absurd hpass hbad
        · exact hxl
      obtain ⟨s', r', hs', hrest⟩ := ih hreq₁ hqueue₁ hnd
        (fun x hx => by rw [hsame x hx]; exact hne x (List.mem_cons_of_mem _ hx))
        ⟨x, hxl, by rw [hsame x hxl, hp.size]; exact hbad⟩
      exact ⟨s', r', hp.reaches.trans hs', hrest⟩
    · by_cases htype : (s.rq r).cmdType = .REQ_TYPE_FS
      · obtain ⟨s', hs', hreq', hstuck⟩ := stuck_request stale hreq (Rq.eq_of_cmdType htype)
          fun h => hpass ⟨htype, h⟩
        exact ⟨s', r, hs', hreq', .inl hstuck⟩
      · exact ⟨s, r, .refl, hreq, .inr htype⟩

/-! ## Every request once -/

omit [DecidableEq ρ] in
theorem events_transferred (r : ρ) (pos : ℕ) (segs : List Segment) :
    (events r pos segs).filterMap Event.transferred = (placed pos segs).map fun x => (r, x) := by
  induction segs generalizing pos with
  | nil => rfl
  | cons seg rest ih =>
    have hsome : (Event.transfer r pos seg.nsect).transferred = some (r, pos, seg.nsect) := rfl
    rw [events, placed, List.filterMap_cons_none rfl, List.filterMap_cons_some hsome,
      List.filterMap_cons_none rfl, ih]
    rfl

omit [DecidableEq ρ] in
theorem events_endedAll (r : ρ) (pos : ℕ) (segs : List Segment) :
    (events r pos segs).filterMap Event.endedAll = [] := by
  induction segs generalizing pos with
  | nil => rfl
  | cons seg rest ih =>
    rw [events, List.filterMap_cons_none rfl, List.filterMap_cons_none rfl,
      List.filterMap_cons_none rfl, ih]

omit [DecidableEq ρ] in
theorem events_req {pos : ℕ} {segs : List Segment} {e : Event ρ} (h : e ∈ events r pos segs) :
    e.req = r := by
  induction segs generalizing pos with
  | nil => cases h
  | cons seg rest ih =>
    simp only [events, List.mem_cons] at h
    rcases h with rfl | rfl | rfl | h
    · rfl
    · rfl
    · rfl
    · exact ih h

omit [DecidableEq ρ] in
/-- Only the last event of a request completes it. -/
theorem events_untouched (r : ρ) (pos : ℕ) (segs : List Segment) :
    (events r pos segs).Pairwise fun e e' => e.Completes → e'.req ≠ e.req := by
  induction segs generalizing pos with
  | nil => exact .nil
  | cons seg rest ih =>
    refine .cons (fun _ _ h => h.elim) (.cons (fun _ _ h => h.elim) (.cons ?_ (ih _)))
    intro e he hlast
    obtain rfl : rest = [] := by simpa [Event.Completes] using hlast
    cases he

omit [DecidableEq ρ] in
theorem handled_events {l : List ρ} {rq : ρ → Rq} (hnd : l.Nodup)
    (hfs : ∀ r ∈ l, (rq r).cmdType = .REQ_TYPE_FS) :
    Handled l rq (l.flatMap fun r => events r (rq r).pos (rq r).segments) := by
  have hall : (l.filter fun r => (rq r).cmdType = .REQ_TYPE_FS) = l :=
    List.filter_eq_self.mpr fun r hr => by simpa using hfs r hr
  have hnone : (l.filter fun r => (rq r).cmdType ≠ .REQ_TYPE_FS) = [] :=
    List.filter_eq_nil_iff.mpr fun r hr => by simpa using hfs r hr
  refine ⟨?_, ?_, ?_⟩
  · rw [hall, List.filterMap_flatMap]
    congr 1
    funext r
    exact events_transferred ..
  · rw [hnone, List.filterMap_flatMap, List.map_nil, List.flatMap_eq_nil_iff]
    intro r _
    exact events_endedAll ..
  · refine List.pairwise_flatMap.mpr ⟨fun r _ => events_untouched .., ?_⟩
    refine hnd.imp fun {r r'} hne e he e' he' _ => ?_
    rw [events_req he, events_req he']
    exact hne.symm

/-- A turn starts with a look at the type of its request. -/
theorem log_of_turn (h : turn C P stale s = some s') :
    ∃ r es, s.req = some r ∧ s'.log = s.log ++ .readType r :: es := by
  obtain ⟨r, hreq, -, ⟨-, hlog⟩ | ⟨-, -, hlog⟩⟩ := turn_cases h
  · exact ⟨r, _, hreq, hlog⟩
  · exact ⟨r, _, hreq, hlog⟩

/-- The log only grows. -/
theorem log_of_reaches (h : Reaches (turn C P stale) s s') : ∃ es, s'.log = s.log ++ es := by
  induction h with
  | refl => exact ⟨[], by simp⟩
  | tail _ hturn ih =>
    obtain ⟨es, hlog⟩ := ih
    obtain ⟨r, es', -, hlog'⟩ := log_of_turn hturn
    exact ⟨es ++ .readType r :: es', by rw [hlog', hlog, List.append_assoc]⟩

theorem eq_of_reaches_halted (h : Reaches (turn C P stale) s s') (hhalt : turn C P stale s = none) :
    s = s' := by
  rcases h.cases_head with rfl | ⟨s₁, hs₁, -⟩
  · rfl
  · rw [Option.mem_def, hhalt] at hs₁
    cases hs₁

/-- After a request that cannot be passed the loop does not end without touching a completed request. -/
theorem not_ends_of_stuck {c : Loop κ ρ} (hc : Reaches (turn C P stale) s c) (hreq : c.req = some r)
    (hbad : turn C P stale c = none ∨ (c.rq r).cmdType ≠ .REQ_TYPE_FS)
    (hs' : Reaches (turn C P stale) s s') (hend : s'.req = none) :
    ¬ s'.log.Pairwise fun e e' => e.Completes → e'.req ≠ e.req := by
  intro hpair
  have hne : ∀ {t : Loop κ ρ}, t.req = some r → t ≠ s' := by
    rintro t ht rfl
    rw [hend] at ht
    cases ht
  have hcs : Reaches (turn C P stale) c s' := by
    rcases StateTransition.reaches_total hc hs' with h | h
    · exact h
    · exact absurd (eq_of_reaches_halted h (turn_of_none hend)).symm (hne hreq)
  rcases hbad with hstuck | htype
  · exact hne hreq (eq_of_reaches_halted hcs hstuck)
  -- the request is completed, and the next turn reads its type
  have hturn : turn C P stale c = some _ := turn_other hreq htype
  rcases hcs.cases_head with rfl | ⟨c₁, hc₁, hc₁s⟩
  · exact hne hreq rfl
  rw [Option.mem_def, hturn] at hc₁
  cases hc₁
  rcases hc₁s.cases_head with heq | ⟨c₂, hc₂, hc₂s⟩
  · exact absurd heq (hne hreq)
  obtain ⟨r', es, hr', hlog⟩ := log_of_turn hc₂
  obtain rfl : r = r' := Option.some.inj (hreq.symm.trans hr')
  obtain ⟨es', hlog'⟩ := log_of_reaches hc₂s
  have hread : s'.log =
      (c.log ++ [.readType r]) ++ (.endAll r (- EIO) :: ((.readType r :: es) ++ es')) := by
    rw [hlog', hlog]
    simp
  rw [hread] at hpair
  have htail := (List.pairwise_append.mp hpair).2.1
  exact (List.pairwise_cons.mp htail).1 (.readType r) (by simp) trivial rfl

/-- **Every request is handled once, and the loop ends**, exactly when all requests are of type
`REQ_TYPE_FS` and all their transfers end. -/
theorem handlesAll_iff {dev : Device κ} {queue : List ρ} {rq : ρ → Rq} (hnd : queue.Nodup)
    (hne : ∀ r ∈ queue, (rq r).cmdType = .REQ_TYPE_FS → (rq r).segments ≠ []) :
    HandlesAll C P stale dev queue rq ↔
      ∀ r ∈ queue, (rq r).cmdType = .REQ_TYPE_FS ∧
        ∀ x ∈ placed (rq r).pos (rq r).segments, TransferEnds C P dev.size x.1 x.2 := by
  constructor
  · rintro ⟨s, hs, hend, hhandled, -⟩
    by_contra hbad
    push Not at hbad
    obtain ⟨r, hr, hbad⟩ := hbad
    obtain ⟨c, r', hc, hreq, hstuck⟩ := reaches_stuck (C := C) (P := P) stale
      (s := sbdRequest dev queue rq) rfl rfl hnd hne
      ⟨r, hr, fun ⟨htype, hends⟩ => by
        obtain ⟨x, hx, hno⟩ := hbad htype
        exact hno (hends x hx)⟩
    exact not_ends_of_stuck hc hreq hstuck hs hend hhandled.untouched
  · intro hpass
    obtain ⟨s, hs, hend, hlog, buffers, htransfers, hbuffers⟩ := reaches_end (C := C) (P := P) stale
      (s := sbdRequest dev queue rq) rfl rfl hnd (fun r hr => hne r hr (hpass r hr).1) hpass
    refine ⟨s, hs, hend, ?_, ?_⟩
    · rw [hlog]
      exact handled_events hnd fun r hr => (hpass r hr).1
    · rw [hbuffers]
      exact htransfers

/-- A write of two segments and a read, on a device of two sectors. -/
theorem handlesAll_two :
    let P : Config := ⟨32, le_rfl, 512, 2, "cs444hw3".toUTF8.toList, 8⟩
    let rq : ℕ → Rq := fun r =>
      if r = 0 then ⟨.REQ_TYPE_FS, 0, true, [⟨1, fun _ => 1⟩, ⟨1, fun _ => 2⟩]⟩
      else ⟨.REQ_TYPE_FS, 1, false, [⟨1, fun _ => 0⟩]⟩
    HandlesAll xorCipher P (fun _ => ⟨.other, 0, false, []⟩) ⟨1024, fun _ => 0, []⟩ [0, 1] rq := by
  intro P rq
  have hends : ∀ pos, TransferEnds xorCipher P 1024 pos 1 := fun pos => .inr ⟨32, by decide⟩
  refine (handlesAll_iff (by decide) ?_).mpr ?_
  · intro r _ _
    by_cases h : r = 0 <;> simp [rq, h]
  · intro r hr
    rcases List.mem_cons.mp hr with rfl | hr
    · refine ⟨rfl, ?_⟩
      rintro x hx
      obtain rfl | rfl : x = (0, 1) ∨ x = (1, 1) := by simpa [rq, placed] using hx
      · exact hends 0
      · exact hends 1
    · obtain rfl := List.mem_singleton.mp hr
      refine ⟨rfl, ?_⟩
      rintro x hx
      obtain rfl : x = (1, 1) := by simpa [rq, placed] using hx
      exact hends 1

/-- A request of another type, whose memory stays as it is when it is completed: the loop completes it
again and again. -/
theorem handlesAll_fails :
    let P : Config := ⟨32, le_rfl, 512, 2, "cs444hw3".toUTF8.toList, 8⟩
    let rq : ℕ → Rq := fun _ => ⟨.other, 0, false, []⟩
    (∀ s, Reaches (turn xorCipher P rq) (sbdRequest ⟨1024, fun _ => 0, []⟩ [0] rq) s →
      (turn xorCipher P rq s).isSome) ∧
    ¬ HandlesAll xorCipher P rq ⟨1024, fun _ => 0, []⟩ [0] rq := by
  intro P rq
  have hinv : ∀ s, Reaches (turn xorCipher P rq) (sbdRequest ⟨1024, fun _ => 0, []⟩ [0] rq) s →
      s.req = some 0 ∧ s.rq = rq := by
    intro s hs
    induction hs with
    | refl => exact ⟨rfl, rfl⟩
    | tail _ hturn ih =>
      obtain ⟨hreq, hrq⟩ := ih
      rw [Option.mem_def, turn_other hreq (by rw [hrq]; decide)] at hturn
      cases hturn
      exact ⟨hreq, by rw [hrq]; exact Function.update_eq_self ..⟩
  constructor
  · intro s hs
    obtain ⟨hreq, hrq⟩ := hinv s hs
    rw [turn_other hreq (by rw [hrq]; decide)]
    rfl
  · rintro ⟨s, hs, hend, -⟩
    rw [(hinv s hs).1] at hend
    cases hend

/-! ## The status of a segment -/

/-- The segment passes the range check, and an `unsigned long` counts its bytes. -/
def SegmentPasses (P : Config) (size pos nsect : ℕ) : Prop :=
  ¬ BeyondEnd P size pos nsect ∧ nsect * P.logicalBlockSize < 2 ^ P.wordBits

/-- When the number of bytes has wrapped, the last one is not moved. -/
theorem not_moves_last {size nsect : ℕ} (hblock : C.blocksize < 2 ^ 32)
    (hwrap : 2 ^ P.wordBits ≤ nsect * P.logicalBlockSize) :
    ¬ Moves C P size pos nsect (nsect * P.logicalBlockSize - 1) := by
  rintro ⟨-, fuel, i, hi, -, hlast⟩
  have hlt := lt_of_mem_turns hi
  have hword : 2 ^ 32 ≤ 2 ^ P.wordBits := Nat.pow_le_pow_right (by omega) P.le_wordBits
  have hmod : P.nbytes nsect + 2 ^ P.wordBits ≤ nsect * P.logicalBlockSize := by
    have hdiv := Nat.div_add_mod (nsect * P.logicalBlockSize) (2 ^ P.wordBits)
    have hone : 2 ^ P.wordBits * 1 ≤ 2 ^ P.wordBits * (nsect * P.logicalBlockSize / 2 ^ P.wordBits) :=
      Nat.mul_le_mul_left _ (Nat.div_pos hwrap (Nat.two_pow_pos _))
    unfold Config.nbytes
    omega
  omega

omit [DecidableEq ρ] in
/-- The status `0` says the truth of the segments that pass only. -/
theorem truthful_endCur_iff (key : κ) {size nsect : ℕ} {more : Bool} (hblock : C.blocksize < 2 ^ 32)
    (hends : TransferEnds C P size pos nsect) :
    (Event.endCur r pos nsect 0 more).Truthful C P size ↔ SegmentPasses P size pos nsect := by
  constructor
  · rintro ⟨hmoved, hback⟩
    refine ⟨fun h => hback h rfl, ?_⟩
    by_contra hwrap
    have hpos := Nat.two_pow_pos P.wordBits
    exact not_moves_last hblock (Nat.le_of_not_lt hwrap) (hmoved rfl _ (by omega)).1
  · rintro ⟨hin, hlt⟩
    refine ⟨fun _ j hj => ?_, fun h => absurd h hin⟩
    have hbytes : P.nbytes nsect = nsect * P.logicalBlockSize := Nat.mod_eq_of_lt hlt
    have hblocks := nbytes_le_blockBytes C P nsect
    have hmoves : Moves C P size pos nsect j := moves_of_lt hin (by omega)
    exact ⟨hmoves, (moves_iff_overwrites key hends).mp hmoves⟩

theorem size_of_reaches (h : Reaches (turn C P stale) s s') : s'.dev.size = s.dev.size := by
  induction h with
  | refl => rfl
  | tail _ hturn ih =>
    obtain ⟨r, -, hsize, -⟩ := turn_cases hturn
    exact hsize.trans ih

/-- **The status says the truth** along every run exactly when the segments that the loop transfers pass
the range check and an `unsigned long` counts their bytes. -/
theorem truthful_iff {dev : Device κ} {queue : List ρ} {rq : ρ → Rq} (hblock : C.blocksize < 2 ^ 32) :
    (∀ s, Reaches (turn C P stale) (sbdRequest dev queue rq) s →
        ∀ e ∈ s.log, e.Truthful C P dev.size) ↔
      ∀ s r, Reaches (turn C P stale) (sbdRequest dev queue rq) s → s.req = some r →
        (s.rq r).cmdType = .REQ_TYPE_FS →
        TransferEnds C P dev.size (s.rq r).pos (s.rq r).curSectors →
          SegmentPasses P dev.size (s.rq r).pos (s.rq r).curSectors := by
  constructor
  · intro htrue s r hs hreq htype hends
    have hdev : s.dev.size = dev.size := size_of_reaches hs
    obtain ⟨s₁, hturn⟩ : ∃ s₁, turn C P stale s = some s₁ := by
      obtain ⟨dev', buffer, -, -, hturn⟩ := turn_fs stale hreq htype (by rw [hdev]; exact hends)
      exact ⟨_, hturn⟩
    obtain ⟨r', hr', -, ⟨hno, -⟩ | ⟨-, -, hlog⟩⟩ := turn_cases hturn
    · obtain rfl := Option.some.inj (hreq.symm.trans hr')
      exact absurd htype hno
    · obtain rfl := Option.some.inj (hreq.symm.trans hr')
      have hmem : Event.endCur r (s.rq r).pos (s.rq r).curSectors 0
          (!(s.rq r).segments.tail.isEmpty) ∈ s₁.log := by
        rw [hlog]
        simp
      exact (truthful_endCur_iff dev.crypto hblock hends).mp (htrue _ (hs.tail hturn) _ hmem)
  · intro hpasses s hs
    induction hs with
    | refl =>
      intro e he
      cases he
    | tail hs hturn ih =>
      have hdev := size_of_reaches hs
      obtain ⟨r, hreq, -, ⟨-, hlog⟩ | ⟨htype, hends, hlog⟩⟩ := turn_cases hturn
      · intro e he
        rw [hlog, List.mem_append] at he
        rcases he with he | he
        · exact ih e he
        · simp only [List.mem_cons, List.not_mem_nil, or_false] at he
          rcases he with rfl | rfl <;> trivial
      · replace hends : TransferEnds C P dev.size _ _ := hdev ▸ hends
        have hseg := hpasses _ r hs hreq htype hends
        intro e he
        rw [hlog, List.mem_append] at he
        rcases he with he | he
        · exact ih e he
        · simp only [List.mem_cons, List.not_mem_nil, or_false] at he
          rcases he with rfl | rfl | rfl
          · trivial
          · trivial
          · exact (truthful_endCur_iff dev.crypto hblock hends).mpr hseg

/-- A write of the last sector of the device. -/
theorem truthful_last_sector :
    let P : Config := ⟨32, le_rfl, 512, 2, "cs444hw3".toUTF8.toList, 8⟩
    let rq : ℕ → Rq := fun _ => ⟨.REQ_TYPE_FS, 1, true, [⟨1, fun _ => 1⟩]⟩
    ∀ s, Reaches (turn xorCipher P rq) (sbdRequest ⟨1024, fun _ => 0, []⟩ [0] rq) s →
      ∀ e ∈ s.log, e.Truthful xorCipher P 1024 := by
  intro P rq
  refine (truthful_iff (by decide)).mpr ?_
  intro s r hs hreq _ _
  rcases hs.cases_head with rfl | ⟨s₁, hs₁, hrest⟩
  · exact ⟨show ¬ BeyondEnd P 1024 1 1 by decide, show 1 * 512 < 2 ^ 32 by decide⟩
  · -- after one turn the loop is over
    obtain ⟨dev, buffer, -, -, hturn⟩ := turn_fs (C := xorCipher) (P := P) rq (r := 0)
      (s := sbdRequest ⟨1024, fun _ => 0, []⟩ [0] rq) rfl rfl (.inr ⟨32, by decide⟩)
    rw [Option.mem_def, hturn] at hs₁
    cases hs₁
    obtain rfl := eq_of_reaches_halted hrest (turn_of_none rfl)
    cases hreq

/-- With one sector more than 2^32 bytes hold, `Device.size` is 512 on a 32-bit machine. A write of the
second sector, which is below the capacity, is sent back and completed with the status `0`. -/
theorem truthful_fails :
    let P : Config := ⟨32, le_rfl, 512, 8388609, "cs444hw3".toUTF8.toList, 8⟩
    let rq : ℕ → Rq := fun _ => ⟨.REQ_TYPE_FS, 1, true, [⟨1, fun _ => 1⟩]⟩
    P.deviceSize = 512 ∧ 1 + 1 ≤ P.capacity ∧ BeyondEnd P 512 1 1 ∧
      ∃ s, Reaches (turn xorCipher P rq) (sbdRequest ⟨512, fun _ => 0, []⟩ [0] rq) s ∧
        ∃ e ∈ s.log, ¬ e.Truthful xorCipher P 512 := by
  intro P rq
  have hbeyond : BeyondEnd P 512 1 1 := by decide
  refine ⟨by decide, by decide, hbeyond, ?_⟩
  obtain ⟨s, hpass, -⟩ := passes_last (C := xorCipher) (P := P) rq (r := 0)
    (s := sbdRequest ⟨512, fun _ => 0, []⟩ [0] rq) rfl rfl (.inl hbeyond)
  refine ⟨s, hpass.reaches, .endCur 0 1 1 0 false, ?_, ?_⟩
  · rw [hpass.log]
    simp [events]
  · rintro ⟨-, hback⟩
    exact hback hbeyond rfl

end Cs444.Ramdisk
