import Cs444.Sstf.Run

/-!
# The order of the queue and of the sweep

`sstf_add_request` keeps a queue sorted, by falling positions from the front, exactly when the new
request does not belong strictly between the two ends (`OutsideEnds`): it compares the requests from
the front but counts places from the back, so a request that belongs inside goes to the end
(`monotone_iff`).

On a sorted queue `sstf_dispatch` jumps over no request in direction `'F'`. In direction `'B'` it
takes the lowest request when the head has passed it, and so jumps over every other pending request
that the head has passed (`noJump_iff`).
-/

namespace Cs444.Sstf

variable {ρ : Type*} [DecidableEq ρ]

/-! ## The order of the queue -/

/-- The positions fall along the queue. -/
def Falling (D : Disk ρ) (l : List ρ) : Prop := l.Pairwise fun a b => D.pos b ≤ D.pos a

/-- The positions rise or fall along the queue. -/
def Monotone (D : Disk ρ) (l : List ρ) : Prop :=
  (l.Pairwise fun a b => D.pos a ≤ D.pos b) ∨ Falling D l

/-- The position of `r` is not strictly between those of the last and the first request. -/
def OutsideEnds (D : Disk ρ) (s : State ρ) (r : ρ) : Prop :=
  ∀ first last, s.links.next none = some first → s.links.prev none = some last →
    ¬ (D.pos last < D.pos r ∧ D.pos r < D.pos first)

variable {D : Disk ρ} {hist : List (Event ρ)} {s s' : State ρ} {a b l : List ρ} {r first last : ρ}

omit [DecidableEq ρ] in
theorem Queue.outsideEnds_iff (h : Queue s.links l) : OutsideEnds D s r ↔
    ∀ first last, l.head? = some first → l.getLast? = some last →
      ¬ (D.pos last < D.pos r ∧ D.pos r < D.pos first) := by
  unfold OutsideEnds
  rw [h.next_none, h.prev_none]

omit [DecidableEq ρ] in
theorem Falling.le_first (h : Falling D l) (hf : l.head? = some first) :
    ∀ e ∈ l, D.pos e ≤ D.pos first := by
  intro e he
  cases l with
  | nil => cases hf
  | cons y l =>
    cases hf
    rcases List.mem_cons.mp he with rfl | he
    · exact le_rfl
    · exact (List.pairwise_cons.mp h).1 e he

omit [DecidableEq ρ] in
theorem Falling.last_le (h : Falling D l) (hl : l.getLast? = some last) :
    ∀ e ∈ l, D.pos last ≤ D.pos e := by
  intro e he
  rcases List.eq_nil_or_concat' l with rfl | ⟨l, z, rfl⟩
  · cases hl
  · obtain rfl : z = last := by simpa using hl
    rcases List.mem_append.mp he with he | he
    · exact (List.pairwise_append.mp h).2.2 e he z (by simp)
    · rw [List.mem_singleton.mp he]

omit [DecidableEq ρ] in
/-- Where a request goes in a sorted queue: to the front, or to the end. -/
theorem Falling.addPlace (h : Falling D l) (hf : l.head? = some first) :
    addPlace D l r = if D.pos first ≤ D.pos r then 0 else l.length := by
  cases l with
  | nil => cases hf
  | cons y l =>
    cases hf
    unfold Sstf.addPlace
    split_ifs with hle
    · have hall : ∀ e ∈ first :: l, decide (D.pos e ≤ D.pos r) = true := by
        intro e he
        exact decide_eq_true ((h.le_first rfl e he).trans hle)
      rw [List.takeWhile_eq_self_iff.mpr hall]
      omega
    · rw [List.takeWhile_cons_of_neg (by simpa using hle)]
      rfl

/-- The queue after an add, when it was sorted. -/
theorem Queue.addRequest_falling {junk : ℕ → ℕ} {fuel : ℕ} (h : Queue s.links l) (hf : Falling D l)
    (hr : r ∉ l) (he : Sstf.addRequest D junk fuel s r = some s') :
    Queue s'.links (r :: l) ∧ (∀ e ∈ l, D.pos e ≤ D.pos r) ∨
      ∃ first, l.head? = some first ∧ D.pos r < D.pos first ∧ Queue s'.links (l ++ [r]) := by
  obtain ⟨hq, -⟩ := h.addRequest hr he
  cases l with
  | nil => exact .inl ⟨by simpa using hq, by simp⟩
  | cons first l =>
    rw [hf.addPlace rfl] at hq
    split_ifs at hq with hle
    · refine .inl ⟨by simpa using hq, ?_⟩
      intro e he
      exact (hf.le_first rfl e he).trans hle
    · exact .inr ⟨first, rfl, Nat.lt_of_not_le hle, by simpa using hq⟩

theorem Queue.unique {L : Links (Option ρ)} {l' : List ρ} (h : Queue L l) (h' : Queue L l') :
    l = l' := by
  have h₁ : L.entries (l.length + l'.length + 1) none = l.map some :=
    Links.Circ.entries_eq h (by rw [List.length_map]; omega)
  have h₂ : L.entries (l.length + l'.length + 1) none = l'.map some :=
    Links.Circ.entries_eq h' (by rw [List.length_map]; omega)
  exact List.map_injective_iff.mpr (Option.some_injective ρ) (h₁.symm.trans h₂)

/-- **An add keeps a sorted queue monotone** exactly when the request is outside the ends, and then
the queue stays sorted the same way. -/
theorem Queue.add_monotone_iff {junk : ℕ → ℕ} {fuel : ℕ} (h : Queue s.links l) (hf : Falling D l)
    (hr : r ∉ l) (he : Sstf.addRequest D junk fuel s r = some s') :
    ∃ l', Queue s'.links l' ∧ (OutsideEnds D s r → Falling D l') ∧
      (Monotone D l' → OutsideEnds D s r) := by
  rw [h.outsideEnds_iff]
  rcases h.addRequest_falling hf hr he with ⟨hq, hle⟩ | ⟨first, hfirst, hlt, hq⟩
  · refine ⟨r :: l, hq, fun _ => List.pairwise_cons.mpr ⟨hle, hf⟩, ?_⟩
    rintro - first last hfirst - ⟨-, hlt⟩
    exact absurd (hle first (List.mem_of_head? hfirst)) (Nat.not_le.mpr hlt)
  · have hne : l ≠ [] := by
      rintro rfl
      cases hfirst
    obtain ⟨last, hlast⟩ : ∃ last, l.getLast? = some last :=
      ⟨_, List.getLast?_eq_some_getLast hne⟩
    refine ⟨l ++ [r], hq, ?_, ?_⟩
    · intro hout
      refine List.pairwise_append.mpr ⟨hf, List.pairwise_singleton _ _, ?_⟩
      intro e he x hx
      rw [List.mem_singleton.mp hx]
      have hle : D.pos r ≤ D.pos last :=
        Nat.le_of_not_lt fun hlt' => hout first last hfirst hlast ⟨hlt', hlt⟩
      exact hle.trans (hf.last_le hlast e he)
    · rintro hmono first' last' hfirst' hlast' ⟨h₁, h₂⟩
      rcases hmono with hrise | hfall
      · have := (List.pairwise_append.mp hrise).2.2 first' (List.mem_of_head? hfirst') r (by simp)
        omega
      · have := (List.pairwise_append.mp hfall).2.2 last' (List.mem_of_getLast? hlast') r (by simp)
        omega

/-- While every added request is outside the ends, the queue is sorted. -/
theorem Run.falling (h : Run D (OutsideEnds D) hist s) : ∃ l, Holds s l hist ∧ Falling D l := by
  obtain ⟨l₀, hl₀⟩ := h.holds
  suffices hs : ∃ l, Queue s.links l ∧ Falling D l by
    obtain ⟨l, hq, hf⟩ := hs
    obtain rfl := hl₀.queue.unique hq
    exact ⟨l₀, hl₀, hf⟩
  clear hl₀ l₀
  induction h with
  | init L => exact ⟨[], queue_initQueue L, List.Pairwise.nil⟩
  | add h r junk fuel hr hok he ih =>
    obtain ⟨l, hq, hf⟩ := ih
    obtain ⟨l₁, hl₁⟩ := h.holds
    obtain rfl := hl₁.queue.unique hq
    obtain ⟨l', hq', hf', -⟩ := hq.add_monotone_iff hf (fun e => hr ((hl₁.mem r).mp e)) he
    exact ⟨l', hq', hf' hok⟩
  | merge h r hr ih =>
    obtain ⟨l, hq, hf⟩ := ih
    obtain ⟨l₁, hl₁⟩ := h.holds
    obtain rfl := hl₁.queue.unique hq
    obtain ⟨a, b, rfl⟩ := List.append_of_mem ((hl₁.mem r).mpr hr)
    exact ⟨a ++ b, hq.mergedRequests, hf.sublist (by simp)⟩
  | @dispatch _ _ _ ret e _ he _ ih =>
    obtain ⟨l, hq, hf⟩ := ih
    by_cases hne : l = []
    · subst hne
      rw [hq.dispatch_nil] at he
      cases he
      exact ⟨[], hq, hf⟩
    · obtain ⟨-, -, rq, s₁, a, b, -, -, -, rfl, hq', -, he'⟩ := hq.dispatch (D := D) hne
      rw [he'] at he
      cases he
      exact ⟨a ++ b, hq', hf.sublist (by simp)⟩

/-- **The queue stays monotone** while every added request is outside the ends; the first request
added strictly between them breaks it. -/
theorem monotone_iff (h : Run D (OutsideEnds D) hist s) :
    (∃ l, Queue s.links l ∧ Monotone D l) ∧
      ∀ r junk fuel s', r ∉ pending hist → addRequest D junk fuel s r = some s' →
        ((∃ l', Queue s'.links l' ∧ Monotone D l') ↔ OutsideEnds D s r) := by
  obtain ⟨l, hl, hf⟩ := h.falling
  refine ⟨⟨l, hl.queue, .inr hf⟩, ?_⟩
  intro r junk fuel s' hr he
  obtain ⟨l', hq', h₁, h₂⟩ := hl.queue.add_monotone_iff hf (fun e => hr ((hl.mem r).mp e)) he
  constructor
  · rintro ⟨l'', hq'', hm⟩
    obtain rfl := hq'.unique hq''
    exact h₂ hm
  · intro hout
    exact ⟨l', hq', .inr (h₁ hout)⟩

theorem run_added_twice : ∃ s, Run sampleDisk (OutsideEnds sampleDisk) [.added 10, .added 5] s := by
  have h₁ := (Run.init ⟨id, id⟩ : Run sampleDisk (OutsideEnds sampleDisk) [] _).add 10 id 1
    (by decide) (by rintro _ _ ⟨⟩) rfl
  have h₂ := h₁.add 5 id 1 (by decide) (by rintro _ _ ⟨⟩ ⟨⟩; decide) rfl
  exact ⟨_, h₂⟩

theorem monotone_added_twice :
    ∃ s, Run sampleDisk (OutsideEnds sampleDisk) [.added 10, .added 5] s ∧
      ∃ l, Queue s.links l ∧ Monotone sampleDisk l := by
  obtain ⟨s, hs⟩ := run_added_twice
  exact ⟨s, hs, (monotone_iff hs).1⟩

/-- Adding requests at 10, 5 and 7 gives a queue that neither rises nor falls. -/
theorem monotone_fails :
    ∃ s l, Run sampleDisk anyRequest [.added 10, .added 5, .added 7] s ∧ Queue s.links l ∧
      ¬ Monotone sampleDisk l := by
  have h₁ := (Run.init ⟨id, id⟩ : Run sampleDisk anyRequest [] _).add 10 id 1 (by decide) trivial rfl
  have h₂ := h₁.add 5 id 1 (by decide) trivial rfl
  have h₃ := h₂.add 7 id 1 (by decide) trivial rfl
  refine ⟨_, [10, 5, 7], h₃, ?_, ?_⟩
  · simp only [Queue, Links.Circ, Links.Loop, Links.Adj, List.map_cons, List.map_nil,
      List.cons_append, List.nil_append, List.isChain_cons_cons, List.isChain_singleton]
    decide
  · simp [Monotone, Falling, sampleDisk]

/-! ## The sweep -/

/-- A dispatch of `rq` with at least two pending requests that keeps the direction leaves no other
pending request strictly between the head position and `rq`. -/
def NoJump (D : Disk ρ) (hist : List (Event ρ)) (s : State ρ) : Prop :=
  ∀ s' rq, 2 ≤ (pending hist).card → dispatch D s = some (s', 1) →
    s'.dispatched = s.dispatched ++ [rq] → s'.direction = s.direction →
      ∀ r ∈ pending hist, r ≠ rq →
        ¬ (s.sector < D.pos r ∧ D.pos r < D.pos rq ∨ D.pos rq < D.pos r ∧ D.pos r < s.sector)

/-- Two pending requests at different positions lie below the head position. -/
def TwoPassed (D : Disk ρ) (hist : List (Event ρ)) (s : State ρ) : Prop :=
  ∃ r ∈ pending hist, ∃ r' ∈ pending hist, D.pos r < D.pos r' ∧ D.pos r' < s.sector

omit [DecidableEq ρ] in
theorem ends_ne (hnd : l.Nodup) (hlen : 2 ≤ l.length) (hf : l.head? = some first)
    (hl : l.getLast? = some last) : last ≠ first := by
  cases l with
  | nil => cases hf
  | cons y l =>
    cases hf
    have hne : l ≠ [] := by
      rintro rfl
      simp at hlen
    rw [List.getLast?_cons, List.getLast?_eq_some_getLast hne] at hl
    obtain rfl := Option.some.inj hl
    rintro e
    exact (List.nodup_cons.mp hnd).1 (e ▸ List.getLast_mem hne)

/-- When a dispatch from a sorted queue keeps the direction, it takes the highest request in
direction `'F'` and the lowest in direction `'B'`, and the head has passed it. -/
theorem selectEnd_keeps {rq : ρ} (hne : last ≠ first)
    (hsel : (rq, s.direction) = selectEnd D s.direction s.sector last first) :
    D.pos rq ≤ s.sector ∧ (s.direction = .F ∧ rq = first ∨ s.direction = .B ∧ rq = last) := by
  unfold selectEnd at hsel
  rw [if_pos hne] at hsel
  cases hd : s.direction with
  | B =>
    simp only [hd, if_true] at hsel
    split_ifs at hsel with hle
    · cases hsel
      exact ⟨hle, .inr ⟨rfl, rfl⟩⟩
    · cases hsel
  | F =>
    simp only [hd, reduceCtorEq, if_false] at hsel
    split_ifs at hsel with hle
    · cases hsel
      exact ⟨hle, .inl ⟨rfl, rfl⟩⟩
    · cases hsel

/-- In direction `'B'` a dispatch takes the last request when the head has passed it. -/
theorem selectEnd_backward (hne : last ≠ first) (hd : s.direction = .B)
    (hle : D.pos last ≤ s.sector) :
    selectEnd D s.direction s.sector last first = (last, .B) := by
  unfold selectEnd
  rw [if_pos hne, if_pos hd, if_pos hle]

/-- **The sweep jumps over no request**, while every added request is outside the ends, exactly
when it is not going backward past two pending requests at different positions. -/
theorem noJump_iff (h : Run D (OutsideEnds D) hist s) :
    NoJump D hist s ↔ ¬ (s.direction = .B ∧ TwoPassed D hist s) := by
  obtain ⟨l, hl, hf⟩ := h.falling
  constructor
  · rintro hno ⟨hd, r, hr, r', hr', hlt, hlt'⟩
    have hmem := (hl.mem r).mpr hr
    have hne : l ≠ [] := List.ne_nil_of_mem hmem
    have hcard : 2 ≤ (pending hist).card :=
      Finset.one_lt_card.mpr ⟨r, hr, r', hr', by rintro rfl; omega⟩
    obtain ⟨first, last, rq, s', a, b, hfirst, hlast, hsel, -, -, hdisp, he⟩ := hl.dispatch D hne
    have hends := ends_ne hl.queue.nodup (hl.card ▸ hcard) hfirst hlast
    have hlow := hf.last_le hlast r hmem
    rw [selectEnd_backward hends hd (by omega)] at hsel
    obtain ⟨rfl, hd'⟩ := Prod.mk.inj hsel
    refine hno s' rq hcard he hdisp (hd'.trans hd.symm) r' hr' ?_ (.inr ⟨by omega, hlt'⟩)
    rintro rfl
    omega
  · rintro hno s' rq hcard he hdisp hdir r hr hne hbetween
    have hlen : 2 ≤ l.length := hl.card ▸ hcard
    obtain ⟨first, last, rq', s₁, a, b, hfirst, hlast, hsel, hl', -, hdisp', he'⟩ :=
      hl.dispatch D (by rintro rfl; simp at hlen)
    rw [he'] at he
    cases he
    obtain rfl : rq' = rq := by
      have := List.append_cancel_left (hdisp'.symm.trans hdisp)
      simpa using this
    have hends := ends_ne hl.queue.nodup hlen hfirst hlast
    rw [hdir] at hsel
    obtain ⟨hle, ⟨-, rfl⟩ | ⟨hd, rfl⟩⟩ := selectEnd_keeps hends hsel
    · -- forward: the first request is the highest
      have := hf.le_first hfirst r ((hl.mem r).mpr hr)
      omega
    · -- backward: the last request is the lowest
      have := hf.last_le hlast r ((hl.mem r).mpr hr)
      have hrq := (hl.mem rq').mp (List.mem_of_getLast? hlast)
      exact hno ⟨hd, rq', hrq, r, hr, by omega, by omega⟩

/-- Requests at 100 and 50; the dispatch of 50 turns the sweep backward and puts the head at 58; then a
request at 20 arrives. The next dispatch keeps the direction and takes 20. -/
theorem noJump_backward :
    ∃ s, Run sampleDisk (OutsideEnds sampleDisk)
        [.added 100, .added 50, .dispatched 50, .added 20] s ∧
      (pending [Event.added 100, .added 50, .dispatched 50, .added 20]).card = 2 ∧
      (∃ s', dispatch sampleDisk s = some (s', 1) ∧ s'.dispatched = s.dispatched ++ [20] ∧
        s'.direction = s.direction) ∧
      NoJump sampleDisk [.added 100, .added 50, .dispatched 50, .added 20] s := by
  have h₁ := (Run.init ⟨id, id⟩ : Run sampleDisk (OutsideEnds sampleDisk) [] _).add 100 id 1
    (by decide) (by rintro _ _ ⟨⟩) rfl
  have h₂ := h₁.add 50 id 1 (by decide) (by rintro _ _ ⟨⟩ ⟨⟩; decide) rfl
  have h₃ := h₂.dispatch (e := [50]) rfl rfl
  have h₄ := h₃.add 20 id 1 (by decide) (by rintro _ _ ⟨⟩ ⟨⟩; decide) rfl
  refine ⟨_, h₄, by decide, ⟨_, rfl, rfl, rfl⟩, (noJump_iff h₄).mpr ?_⟩
  -- only one request is below the head
  rintro ⟨-, r, hr, r', hr', hlt, hlt'⟩
  have hpending : ∀ x ∈ pending [Event.added 100, .added 50, .dispatched 50, .added 20],
      sampleDisk.pos x < 58 → x = 20 := by decide
  rw [hpending r hr (hlt.trans hlt'), hpending r' hr' hlt'] at hlt
  exact Nat.lt_irrefl _ hlt

/-- Requests at 100 and 50; the dispatch of 50 turns the sweep backward and puts the head at 58; then
requests at 20 and 10 arrive. The next dispatch takes 10 and jumps over 20. -/
theorem noJump_fails :
    ∃ s, Run sampleDisk anyRequest
        [.added 100, .added 50, .dispatched 50, .added 20, .added 10] s ∧
      ¬ NoJump sampleDisk [.added 100, .added 50, .dispatched 50, .added 20, .added 10] s := by
  have h₁ := (Run.init ⟨id, id⟩ : Run sampleDisk anyRequest [] _).add 100 id 1 (by decide) trivial rfl
  have h₂ := h₁.add 50 id 1 (by decide) trivial rfl
  have h₃ := h₂.dispatch (e := [50]) rfl rfl
  have h₄ := h₃.add 20 id 1 (by decide) trivial rfl
  have h₅ := h₄.add 10 id 1 (by decide) trivial rfl
  refine ⟨_, h₅, ?_⟩
  intro hno
  exact hno _ 10 (by decide) rfl rfl rfl 20 (by decide) (by decide) (.inr (by decide))

end Cs444.Sstf
