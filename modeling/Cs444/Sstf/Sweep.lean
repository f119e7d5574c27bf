import Cs444.Sstf.Order

/-!
# A drain of a sorted queue turns at most once

Read from its low end, a sorted queue is the requests `m` in rising order (`Lined`). A dispatch takes
the lowest request, or it takes the highest and from then on goes down: the head is past everything
that is left, and while it is, the direction stays (`Lined.drain_falling`). So a drain goes up and
then down (`drain_turns_once`), whichever way the queue is sorted and whatever the direction and the
head position at its start.
-/

namespace Cs444.Sstf

variable {ρ : Type*} [DecidableEq ρ]

/-- The positions rise along the requests. -/
def Rising (D : Disk ρ) (m : List ρ) : Prop := m.Pairwise fun a b => D.pos a ≤ D.pos b

/-- Read from its low end, the queue is `m`; `low` is the direction that takes requests there. -/
def Lined (low : Direction) (s : State ρ) (m : List ρ) : Prop :=
  match low with
  | .F => Queue s.links m
  | .B => Queue s.links m.reverse

/-- `sstf_dispatch` takes the request `rq`. -/
structure Took (D : Disk ρ) (s s' : State ρ) (rq : ρ) : Prop where
  call : dispatch D s = some (s', 1)
  dispatched : s'.dispatched = s.dispatched ++ [rq]
  sector : s'.sector = (D.sectors rq + D.pos rq) % 2 ^ D.bits

/-- The end of every request fits in a `sector_t`. -/
def NoWrap (D : Disk ρ) (l : List ρ) : Prop := ∀ r ∈ l, D.sectors r + D.pos r < 2 ^ D.bits

variable {D : Disk ρ} {s s' : State ρ} {a b l m : List ρ} {x first last : ρ} {low d : Direction}

/-! ## One dispatch -/

theorem Queue.took (h : Queue s.links (a ++ x :: b)) (hfirst : (a ++ x :: b).head? = some first)
    (hlast : (a ++ x :: b).getLast? = some last)
    (hsel : selectEnd D s.direction s.sector last first = (x, d)) :
    ∃ s', Took D s s' x ∧ s'.direction = d ∧ Queue s'.links (a ++ b) := by
  have hdisp := h.dispatch_eq (D := D) hfirst hlast
  simp only [hsel] at hdisp
  exact ⟨_, ⟨hdisp, rfl, rfl⟩, rfl, h.listDelInit⟩

/-- The end `sstf_dispatch` takes, in terms of the low and the high end. -/
theorem selectEnd_rising {lo hi : ρ} (hne : hi ≠ lo) (D : Disk ρ) (d : Direction) (sector : ℕ) :
    selectEnd D d sector hi lo = (lo, .F) ∧ (d = .B → sector < D.pos hi) ∨
      selectEnd D d sector hi lo = (hi, .B) := by
  unfold selectEnd
  rw [if_pos hne]
  cases d with
  | F =>
    by_cases hle : D.pos lo ≤ sector
    · simp [hle]
    · simp [hle]
  | B =>
    by_cases hle : D.pos hi ≤ sector
    · simp [hle]
    · simp [hle, Nat.lt_of_not_le hle]

theorem selectEnd_falling {lo hi : ρ} (hne : lo ≠ hi) (D : Disk ρ) (d : Direction) (sector : ℕ) :
    selectEnd D d sector lo hi = (lo, .B) ∧ (d = .F → sector < D.pos hi) ∨
      selectEnd D d sector lo hi = (hi, .F) := by
  unfold selectEnd
  rw [if_pos hne]
  cases d with
  | F =>
    by_cases hle : D.pos hi ≤ sector
    · simp [hle]
    · simp [hle, Nat.lt_of_not_le hle]
  | B =>
    by_cases hle : D.pos lo ≤ sector
    · simp [hle]
    · simp [hle]

/-- **One dispatch** takes the lowest request, or the highest and turns toward the high end. It takes
the highest when it goes toward it and the head is past it. -/
theorem Lined.dispatch (h : Lined low s m) (hne : m ≠ []) :
    ∃ s' x m', Took D s s' x ∧ Lined low s' m' ∧
      (m = x :: m' ∧ (s.direction ≠ low → ∀ hi ∈ m'.getLast?, s.sector < D.pos hi) ∨
        m = m' ++ [x] ∧ s'.direction ≠ low) := by
  obtain ⟨lo, m, rfl⟩ := List.exists_cons_of_ne_nil hne
  rcases List.eq_nil_or_concat' m with rfl | ⟨mid, hi, rfl⟩
  · -- a single request
    have hq : Queue s.links ([] ++ lo :: []) := by cases low <;> exact h
    obtain ⟨s', ht, -, hq'⟩ := hq.took (D := D) rfl rfl (if_neg (by simp))
    refine ⟨s', lo, [], ht, ?_, .inl ⟨rfl, by simp⟩⟩
    cases low <;> exact hq'
  have hlast : (lo :: (mid ++ [hi])).getLast? = some hi := List.getLast?_concat (l := lo :: mid)
  have hpast : ∀ {d : Direction}, (s.direction = d → s.sector < D.pos hi) → s.direction = d →
      ∀ y ∈ (mid ++ [hi]).getLast?, s.sector < D.pos y := by
    intro d hlt hd y hy
    rw [List.getLast?_concat] at hy
    cases hy
    exact hlt hd
  cases low with
  | F =>
    have hends : hi ≠ lo := by
      rintro rfl
      simpa using Queue.nodup h
    rcases selectEnd_rising hends D s.direction s.sector with ⟨hsel, hlt⟩ | hsel
    · obtain ⟨s', ht, -, hq⟩ := Queue.took (a := []) h rfl hlast hsel
      refine ⟨s', lo, mid ++ [hi], ht, hq, .inl ⟨rfl, fun hd => hpast hlt ?_⟩⟩
      cases hs : s.direction with
      | F => exact absurd hs hd
      | B => rfl
    · obtain ⟨s', ht, hd, hq⟩ := Queue.took (a := lo :: mid) (b := []) h rfl hlast hsel
      refine ⟨s', hi, lo :: mid, ht, ?_, .inr ⟨rfl, by rw [hd]; simp⟩⟩
      simpa [Lined] using hq
  | B =>
    have hrev : (lo :: (mid ++ [hi])).reverse = hi :: mid.reverse ++ [lo] := by simp
    have hq₀ : Queue s.links (hi :: mid.reverse ++ [lo]) := hrev ▸ h
    have hends : lo ≠ hi := by
      rintro rfl
      simpa using hq₀.nodup
    have hlow : (hi :: mid.reverse ++ [lo]).getLast? = some lo := List.getLast?_concat
    rcases selectEnd_falling hends D s.direction s.sector with ⟨hsel, hlt⟩ | hsel
    · obtain ⟨s', ht, -, hq⟩ := Queue.took (b := []) hq₀ rfl hlow hsel
      refine ⟨s', lo, mid ++ [hi], ht, ?_, .inl ⟨rfl, fun hd => hpast hlt ?_⟩⟩
      · simpa [Lined] using hq
      · cases hs : s.direction with
        | F => rfl
        | B => exact absurd hs hd
    · obtain ⟨s', ht, hd, hq⟩ := Queue.took (a := []) hq₀ rfl hlow hsel
      refine ⟨s', hi, lo :: mid, ht, ?_, .inr ⟨rfl, by rw [hd]; simp⟩⟩
      simpa [Lined] using hq

/-! ## The drain -/

theorem Took.drain_succ (h : Took D s s' x) (n : ℕ) : drain D (n + 1) s = drain D n s' := by
  simp only [Sstf.drain, h.call]

/-- Behind the end of a request that ends a rising list. -/
theorem Took.past (h : Took D s s' x) (hr : Rising D (m ++ [x])) (hw : NoWrap D (m ++ [x])) :
    ∀ r ∈ m, D.pos r ≤ s'.sector := by
  intro r hrm
  have hle := (List.pairwise_append.mp hr).2.2 r hrm x (by simp)
  rw [h.sector, Nat.mod_eq_of_lt (hw x (by simp))]
  omega

/-- **Going down.** With the head past all requests and the direction toward the high end, the drain
takes them from the highest to the lowest. -/
theorem Lined.drain_falling (h : Lined low s m) (hr : Rising D m) (hw : NoWrap D m)
    (hd : s.direction ≠ low) (hpast : ∀ r ∈ m, D.pos r ≤ s.sector) :
    ∃ s', drain D m.length s = some s' ∧ s'.dispatched = s.dispatched ++ m.reverse ∧
      Lined low s' [] := by
  induction hn : m.length generalizing s m with
  | zero =>
    obtain rfl := List.length_eq_zero_iff.mp hn
    exact ⟨s, rfl, by simp, h⟩
  | succ n ih =>
    obtain ⟨s₁, x, m', ht, h₁, ⟨rfl, hlow⟩ | ⟨rfl, hd₁⟩⟩ := h.dispatch (D := D) (by rintro rfl; cases hn)
    · -- the lowest request is taken when it is the last one
      obtain rfl : m' = [] := by
        by_contra hne
        have hlast := List.getLast?_eq_some_getLast hne
        have hlt := hlow hd _ hlast
        have hle := hpast _ (List.mem_cons_of_mem _ (List.mem_of_getLast? hlast))
        omega
      obtain rfl : n = 0 := by simpa using hn.symm
      exact ⟨s₁, ht.drain_succ 0, by simpa using ht.dispatched, h₁⟩
    · obtain ⟨s', hdrain, hdisp, hend⟩ := ih h₁ (List.pairwise_append.mp hr).1
        (fun r hrm => hw r (List.mem_append_left _ hrm)) hd₁ (ht.past hr hw) (by simpa using hn)
      refine ⟨s', (ht.drain_succ n).trans hdrain, ?_, hend⟩
      rw [hdisp, ht.dispatched, List.reverse_append, List.append_assoc]
      rfl

/-- **Up and then down.** -/
theorem Lined.drain (h : Lined low s m) (hr : Rising D m) (hw : NoWrap D m) :
    ∃ s' up down, drain D m.length s = some s' ∧ s'.dispatched = s.dispatched ++ (up ++ down) ∧
      Lined low s' [] ∧ (up ++ down).Perm m ∧ Rising D up ∧ Falling D down := by
  induction hn : m.length generalizing s m with
  | zero =>
    obtain rfl := List.length_eq_zero_iff.mp hn
    exact ⟨s, [], [], rfl, by simp, h, .refl _, .nil, .nil⟩
  | succ n ih =>
    obtain ⟨s₁, x, m', ht, h₁, ⟨rfl, -⟩ | ⟨rfl, hd₁⟩⟩ := h.dispatch (D := D) (by rintro rfl; cases hn)
    · -- the lowest request: it comes in front of what the rest of the drain does
      obtain ⟨hlow, hr'⟩ := List.pairwise_cons.mp hr
      obtain ⟨s', up, down, hdrain, hdisp, hend, hperm, hup, hdown⟩ :=
        ih h₁ hr' (fun r hrm => hw r (List.mem_cons_of_mem _ hrm)) (by simpa using hn)
      refine ⟨s', x :: up, down, (ht.drain_succ n).trans hdrain, ?_, hend, hperm.cons x, ?_, hdown⟩
      · rw [hdisp, ht.dispatched, List.append_assoc]
        rfl
      · refine List.pairwise_cons.mpr ⟨fun r hru => hlow r ?_, hup⟩
        exact hperm.subset (List.mem_append_left _ hru)
    · -- the highest request: the rest is a way down
      have hr' : Rising D m' := (List.pairwise_append.mp hr).1
      obtain ⟨s', hdrain, hdisp, hend⟩ := h₁.drain_falling hr'
        (fun r hrm => hw r (List.mem_append_left _ hrm)) hd₁ (ht.past hr hw)
      have hlen : m'.length = n := by simpa using hn
      rw [hlen] at hdrain
      refine ⟨s', [], x :: m'.reverse, (ht.drain_succ n).trans hdrain, ?_, hend, ?_, .nil, ?_⟩
      · rw [hdisp, ht.dispatched, List.append_assoc]
        rfl
      · have hrev : (m' ++ [x]).reverse = x :: m'.reverse := by simp
        rw [List.nil_append, ← hrev]
        exact List.reverse_perm _
      · have hrev : (m' ++ [x]).reverse = x :: m'.reverse := by simp
        rw [← hrev]
        exact List.pairwise_reverse.mpr hr

/-- **A drain turns at most once.** From a sorted queue, the dispatches until one returns `0` emit every
request once, at positions that first rise and then fall. -/
theorem drain_turns_once (hq : Queue s.links l) (hm : Monotone D l) (hw : NoWrap D l) :
    ∃ s' e, drain D l.length s = some s' ∧ dispatch D s' = some (s', 0) ∧
      s'.dispatched = s.dispatched ++ e ∧ e.Perm l ∧
      ∃ up down, e = up ++ down ∧ Rising D up ∧ Falling D down := by
  rcases hm with hrise | hfall
  · have hl : Lined .F s l := hq
    obtain ⟨s', up, down, hdrain, hdisp, hend, hperm, hup, hdown⟩ := hl.drain hrise hw
    exact ⟨s', up ++ down, hdrain, Queue.dispatch_nil hend, hdisp, hperm, up, down, rfl, hup, hdown⟩
  · have hl : Lined .B s l.reverse := by
      show Queue s.links l.reverse.reverse
      rwa [List.reverse_reverse]
    obtain ⟨s', up, down, hdrain, hdisp, hend, hperm, hup, hdown⟩ :=
      hl.drain (List.pairwise_reverse.mpr hfall) fun r hr => hw r (List.mem_reverse.mp hr)
    rw [List.length_reverse] at hdrain
    exact ⟨s', up ++ down, hdrain, Queue.dispatch_nil hend, hdisp,
      hperm.trans (List.reverse_perm l), up, down, rfl, hup, hdown⟩

theorem drain_turns_once_two :
    ∃ s l, Run sampleDisk (OutsideEnds sampleDisk) [.added 10, .added 5] s ∧ Queue s.links l ∧
      ∃ s' e, drain sampleDisk l.length s = some s' ∧ s'.dispatched = s.dispatched ++ e ∧
        e.Perm l ∧ ∃ up down, e = up ++ down ∧ Rising sampleDisk up ∧ Falling sampleDisk down := by
  obtain ⟨s, hs⟩ := run_added_twice
  obtain ⟨l, hl, hf⟩ := hs.falling
  have hw : NoWrap sampleDisk l := by
    intro r hr
    have hmem : r = 5 ∨ r = 10 := by simpa [pending, Event.apply] using (hl.mem r).mp hr
    rcases hmem with rfl | rfl <;> decide
  obtain ⟨s', e, hdrain, -, hdisp, hperm, hturn⟩ := drain_turns_once hl.queue (.inr hf) hw
  exact ⟨s, l, hs, hl.queue, s', e, hdrain, hdisp, hperm, hturn⟩

end Cs444.Sstf
