import Cs444.Threads.Producer

/-!
# Producers that wait for room

`producer.c` with the threads that wait for `prod_cond`. A producer that finds the buffer full gives the
lock back and waits; `pthread_cond_signal` wakes one of those that wait, if there is one, and a wait may
also end by itself.

* `project`: without what waits, these are runs of the threads of `Cs444.Producer` (`reach_project`), so
  all that holds there holds here.
* `room_is_expected`: a producer waits only for room that somebody is about to use or to signal. No
  wake-up is lost.
* `exists_move`: there is always a thread that can move without a wake-up from nowhere.
-/

namespace Cs444.Producer

/-! ## The code -/

/-- The buffer, and which threads wait for `prod_cond`. -/
structure Waiting (ι : Type*) where
  buffer : BufferList
  waits : ι → Bool

variable {ι : Type*} [DecidableEq ι]

/-- The thread `i` waits from now on, or waits no longer. -/
def Waiting.setWaits (s : Waiting ι) (i : ι) (w : Bool) : Waiting ι :=
  { s with waits := Function.update s.waits i w }

/-- One step of a thread, with what `random_gen` returns and the thread that a signal wakes. -/
def condThread [Fintype ι] : Prog ι ((ℕ × ℕ) × Option ι) Thread (Waiting ι) := fun i x t s =>
  match t with
  | .producer .full =>
    if s.buffer.lastItem = 31 then
      some (.producer .condWait,
        Waiting.setWaits { s with buffer := { s.buffer with locked := false } } i true)
    else some (.producer .produce, s)
  | .producer .condWait =>
    -- a wake-up without a signal, or the end of the wait
    if s.waits i then some (t, s.setWaits i false)
    else s.buffer.acquire.map fun b => (.producer .full, { s with buffer := b })
  | .consumer .signal k line =>
    match x.2 with
    | some j => if s.waits j then some (.consumer .unlock k line, s.setWaits j false) else none
    | none => if ∀ j, s.waits j = false then some (.consumer .unlock k line, s) else none
  | _ => (thread i x.1 t s.buffer).map fun q => (q.1, { s with buffer := q.2 })

/-- Nobody waits. -/
def condStart (isConsumer : ι → Bool) : Conf ι Thread (Waiting ι) where
  loc := (start isConsumer).loc
  sh := ⟨(start isConsumer).sh, fun _ => false⟩

/-- The threads and the buffer. -/
def project (c : Conf ι Thread (Waiting ι)) : Conf ι Thread BufferList := ⟨c.loc, c.sh.buffer⟩

/-! ## One step -/

variable {i j : ι} {r : ℕ × ℕ} {t t' : Thread} {s s' : Waiting ι} {b : BufferList}

/-- The steps: that of the buffer, and who starts and who stops waiting. -/
inductive CondStep (i : ι) (r : ℕ × ℕ) (s : Waiting ι) : Thread → Thread → Waiting ι → Prop
  | wait (h : s.buffer.lastItem = 31) :
      CondStep i r s (.producer .full) (.producer .condWait)
        (Waiting.setWaits { s with buffer := { s.buffer with locked := false } } i true)
  | wake (h : s.waits i = true) :
      CondStep i r s (.producer .condWait) (.producer .condWait) (s.setWaits i false)
  | signal {j : ι} {k : ℤ} {line : Line} (h : s.waits j = true) :
      CondStep i r s (.consumer .signal k line) (.consumer .unlock k line) (s.setWaits j false)
  | signalNobody {k : ℤ} {line : Line} (h : ∀ j, s.waits j = false) :
      CondStep i r s (.consumer .signal k line) (.consumer .unlock k line) s
  | other {t t' : Thread} {b : BufferList} (h : Step r s.buffer t t' b) (hwait : t' ≠ .producer .condWait)
      (hsignal : ∀ k line, t ≠ .consumer .signal k line)
      (hwoken : t = .producer .condWait → s.waits i = false) :
      CondStep i r s t t' { s with buffer := b }

theorem condThread_step [Fintype ι] {x : (ℕ × ℕ) × Option ι} (h : condThread i x t s = some (t', s')) :
    CondStep i x.1 s t t' s' := by
  have hother : (∀ k line, t ≠ .consumer .signal k line) → t ≠ .producer .full → t ≠ .producer .condWait →
      (thread i x.1 t s.buffer).map (fun q => (q.1, { s with buffer := q.2 })) = some (t', s') →
      CondStep i x.1 s t t' s' := by
    intro hsignal hfull hwoken h
    obtain ⟨⟨t₁, b⟩, hp, h⟩ := Option.map_eq_some_iff.mp h
    cases h
    have hstep := thread_step hp
    refine .other hstep ?_ hsignal fun h => absurd h hwoken
    rintro rfl
    cases hstep
    exact hfull rfl
  cases t with
  | producer pc =>
    cases pc with
    | full =>
      simp only [condThread] at h
      split_ifs at h with hlast
      · cases h
        exact .wait hlast
      · cases h
        exact .other (.room hlast) (by simp) (by simp) (by simp)
    | condWait =>
      simp only [condThread] at h
      split_ifs at h with hwaits
      · cases h
        exact .wake hwaits
      · obtain ⟨b, hacquire, h⟩ := Option.map_eq_some_iff.mp h
        obtain ⟨hfree, rfl⟩ := BufferList.acquire_eq_some_iff.mp hacquire
        cases h
        exact .other (.condWait hfree) (by simp) (by simp) fun _ => Bool.eq_false_of_not_eq_true hwaits
    | _ => exact hother (by simp) (by simp) (by simp) h
  | consumer pc k line =>
    cases pc with
    | signal =>
      obtain ⟨r, wake⟩ := x
      cases wake with
      | some j =>
        simp only [condThread] at h
        split_ifs at h with hwaits
        cases h
        exact .signal hwaits
      | none =>
        simp only [condThread] at h
        split_ifs at h with hwaits
        cases h
        exact .signalNobody hwaits
    | _ => exact hother (by simp) (by simp) (by simp) h

omit [DecidableEq ι] in
/-- A step with its tests passed is one that the thread makes. -/
theorem thread_of_step {b' : BufferList} (h : Step r b t t' b') : thread i r t b = some (t', b') := by
  cases h with
  | found h | empty h => simp [thread, consumer, h]
  | lock h => simp [thread, consumer, BufferList.acquire, h]
  | full h | room h => simp [thread, producer, h]
  | prodLock h | condWait h => simp [thread, producer, BufferList.acquire, h]
  | _ => rfl

/-- The buffer makes the same step, or none when a wait ends by itself. -/
theorem CondStep.project (h : CondStep i r s t t' s') :
    thread i r t s.buffer = some (t', s'.buffer) ∨ t' = t ∧ s'.buffer = s.buffer := by
  cases h with
  | wait h => exact .inl (thread_of_step (.full h))
  | wake h => exact .inr ⟨rfl, rfl⟩
  | signal h => exact .inl rfl
  | signalNobody h => exact .inl rfl
  | other h => exact .inl (thread_of_step h)

section Runs

variable [Fintype ι] {isConsumer : ι → Bool} {c : Conf ι Thread (Waiting ι)}

/-- **The runs with waiting producers** are runs of the threads. -/
theorem reach_project (h : Reach condThread (· = condStart isConsumer) anyMove c) :
    Reach thread (· = start isConsumer) anyMove (project c) := by
  induction h with
  | init h =>
    subst h
    exact .init rfl
  | move _ i x _ hm ih =>
    obtain ⟨t, s, hp, rfl⟩ := Conf.move_eq_some_iff.mp hm
    rcases (condThread_step hp).project with hstep | ⟨rfl, hbuffer⟩
    · exact ih.move i x.1 trivial (Conf.move_eq_some_iff.mpr ⟨t, s.buffer, hstep, rfl⟩)
    · unfold Producer.project at ih ⊢
      rw [Function.update_eq_self, hbuffer]
      exact ih

/-! ## Who waits and who is woken -/

/-- Somebody on the way to use the room in the buffer or to signal it: a producer that is woken or has
the lock and has not filled it, and a consumer that is about to signal. -/
def onTheWay : Thread × Bool → Bool
  | (.producer .condWait, waits) => !waits
  | (.producer .full, _) | (.producer .produce, _) | (.producer .increment, _) => true
  | (.consumer .signal _ _, _) => true
  | _ => false

/-- The threads, each with whether it waits. -/
def places (c : Conf ι Thread (Waiting ι)) (i : ι) : Thread × Bool := (c.loc i, c.sh.waits i)

/-- Only a producer in `pthread_cond_wait` waits; and while one does, each free place of the buffer has
somebody on the way. -/
structure Expected (c : Conf ι Thread (Waiting ι)) : Prop where
  waits : ∀ i, c.sh.waits i = true → c.loc i = .producer .condWait
  room : ∀ i, c.sh.waits i = true →
    31 - c.sh.buffer.lastItem ≤ (count (fun _ => onTheWay) (places c) : ℤ)

omit [DecidableEq ι] in
theorem expected_condStart (isConsumer : ι → Bool) : Expected (condStart isConsumer) := by
  refine ⟨?_, ?_⟩
  · rintro i ⟨⟩
  · rintro i ⟨⟩

omit [DecidableEq ι] [Fintype ι] in
/-- Room is made by a consumer that will signal it, and used by a producer that was on the way. -/
theorem Step.room_le {b' : BufferList} {w : Bool} (h : Step r b t t' b') (hwait : t' ≠ .producer .condWait)
    (hsignal : ∀ k line, t ≠ .consumer .signal k line) (hwoken : t = .producer .condWait → w = false) :
    b.lastItem + (onTheWay (t, w)).toNat ≤ b'.lastItem + (onTheWay (t', w)).toNat := by
  cases h with
  | full => exact absurd rfl hwait
  | @signal k line => exact absurd rfl (hsignal k line)
  | condWait =>
    rw [hwoken rfl]
    exact le_rfl
  | _ => simp [onTheWay, BufferList.setItem]

omit [Fintype ι] in
theorem places_update (c : Conf ι Thread (Waiting ι)) (t : Thread)
    (hrest : ∀ j, j ≠ i → s.waits j = c.sh.waits j) :
    places ⟨Function.update c.loc i t, s⟩ = Function.update (places c) i (t, s.waits i) := by
  funext j
  by_cases hj : j = i
  · subst hj
    simp [places]
  · simp [places, hj, hrest j hj]

/-- When `i` moves, those that wait after it waited before, and somebody comes for the room it makes. -/
theorem Expected.update (hE : Expected c) (hrest : ∀ j, j ≠ i → s.waits j = c.sh.waits j)
    (hi : s.waits i = true → t = .producer .condWait ∧ c.sh.waits i = true)
    (hroom : c.sh.buffer.lastItem + (onTheWay (places c i)).toNat ≤
      s.buffer.lastItem + (onTheWay (t, s.waits i)).toNat) :
    Expected ⟨Function.update c.loc i t, s⟩ := by
  refine ⟨fun j hj => ?_, fun j hj => ?_⟩
  · by_cases hji : j = i
    · subst hji
      simpa using (hi hj).1
    · have hloc := hE.waits j ((hrest j hji).symm.trans hj)
      simpa [hji] using hloc
  · have hold : c.sh.waits j = true := by
      by_cases hji : j = i
      · subst hji
        exact (hi hj).2
      · exact (hrest j hji).symm.trans hj
    have hle := hE.room j hold
    have hcount := count_update (fun _ => onTheWay) (places c) i (t, s.waits i)
    rw [places_update c t hrest]
    dsimp only at hcount ⊢
    omega

/-- A signal: the consumer `i` has signalled, and the producer `j` is on the way in its place. -/
theorem Expected.signal (hE : Expected c) {k : ℤ} {line : Line} (hi : c.loc i = .consumer .signal k line)
    (hj : c.sh.waits j = true) :
    Expected ⟨Function.update c.loc i (.consumer .unlock k line), c.sh.setWaits j false⟩ := by
  have hloc := hE.waits j hj
  have hji : j ≠ i := by
    rintro rfl
    rw [hi] at hloc
    cases hloc
  have hold : ∀ {m}, (c.sh.setWaits j false).waits m = true → m ≠ j ∧ c.sh.waits m = true := by
    intro m hm
    by_cases hmj : m = j
    · simp [Waiting.setWaits, hmj] at hm
    · exact ⟨hmj, by simpa [Waiting.setWaits, hmj] using hm⟩
  refine ⟨fun m hm => ?_, fun m hm => ?_⟩
  · have hwait := hE.waits m (hold hm).2
    have hmi : m ≠ i := by
      rintro rfl
      rw [hi] at hwait
      cases hwait
    simpa [hmi] using hwait
  · have hle := hE.room m (hold hm).2
    have hsent := count_update (fun _ => onTheWay) (places c) i (.consumer .unlock k line, c.sh.waits i)
    have hwoken := count_update (fun _ => onTheWay)
      (places ⟨Function.update c.loc i (.consumer .unlock k line), c.sh⟩) j (.producer .condWait, false)
    have hplaces : places ⟨Function.update c.loc i (.consumer .unlock k line), c.sh.setWaits j false⟩ =
        Function.update (places ⟨Function.update c.loc i (.consumer .unlock k line), c.sh⟩) j
          (.producer .condWait, false) := by
      have h := places_update (i := j) (s := c.sh.setWaits j false)
        ⟨Function.update c.loc i (.consumer .unlock k line), c.sh⟩ (.producer .condWait)
        fun m hm => Function.update_of_ne hm _ _
      rw [Function.update_eq_self_iff.mpr] at h
      · simpa [Waiting.setWaits] using h
      · simpa [hji] using hloc.symm
    rw [hplaces]
    rw [places_update c _ fun _ _ => rfl] at hwoken ⊢
    simp only [places, hi, hloc, hj, hji, onTheWay, Function.update_of_ne, ne_eq, not_false_eq_true,
      Bool.toNat_true, Bool.toNat_false, Bool.not_true, Bool.not_false] at hsent hwoken
    show 31 - c.sh.buffer.lastItem ≤ _
    omega

theorem Expected.step (hE : Expected c) (h : CondStep i r c.sh (c.loc i) t s) :
    Expected ⟨Function.update c.loc i t, s⟩ := by
  generalize hl : c.loc i = l at h
  cases h with
  | wait hfull =>
    refine ⟨fun j hj => ?_, fun j _ => ?_⟩
    · by_cases hji : j = i
      · subst hji
        simp
      · have hold : c.sh.waits j = true := by simpa [Waiting.setWaits, hji] using hj
        simpa [hji] using hE.waits j hold
    · show 31 - c.sh.buffer.lastItem ≤ _
      omega
  | wake hwaits =>
    refine hE.update (fun j hj => Function.update_of_ne hj _ _) ?_ ?_
    · intro hi
      simp [Waiting.setWaits] at hi
    · simp [places, hl, onTheWay, hwaits, Waiting.setWaits]
  | signal hwaits => exact hE.signal hl hwaits
  | signalNobody hnobody =>
    refine ⟨fun j hj => ?_, fun j hj => ?_⟩
    · rw [hnobody j] at hj
      cases hj
    · rw [hnobody j] at hj
      cases hj
  | other hstep hwait hsignal hwoken =>
    refine hE.update (fun _ _ => rfl) ?_ ?_
    · intro hi
      have hloc := hE.waits i hi
      rw [hwoken (hl.symm.trans hloc)] at hi
      cases hi
    · have hle := hstep.room_le (w := c.sh.waits i) hwait hsignal hwoken
      simpa [places, hl] using hle

theorem expected_of_reach (h : Reach condThread (· = condStart isConsumer) anyMove c) : Expected c :=
  h.invariant (fun _ h => h ▸ expected_condStart isConsumer)
    fun _ _ _ _ _ hE _ hp => hE.step (condThread_step hp)

/-! ## Somebody can move -/

/-- The lock is taken by the thread in the locked code, whatever threads there are. -/
theorem locked_of_reach {c : Conf ι Thread BufferList} (h : Reach thread (· = start isConsumer) anyMove c) :
    c.sh.locked.toNat = count (fun _ => Thread.holds) c.loc ∧ ∀ i, (c.loc i).isConsumer = isConsumer i := by
  refine h.invariant
    (I := fun c => c.sh.locked.toNat = count (fun _ => Thread.holds) c.loc ∧
      ∀ i, (c.loc i).isConsumer = isConsumer i)
    (fun _ h => h ▸ ⟨(inv_start isConsumer).locked, (inv_start isConsumer).role⟩) ?_
  rintro c i r t b ⟨hlocked, hrole⟩ _ hp
  have hstep := thread_step hp
  have hlock := hstep.locked fun hi => eq_true_of_toNat_eq_count hlocked hi
  have hcount := count_update (fun _ => Thread.holds) c.loc i t
  refine ⟨by dsimp only; omega, ?_⟩
  exact (Function.forall_update_iff c.loc fun j t => t.isConsumer = isConsumer j).mpr
    ⟨hstep.isConsumer.trans (hrole i), fun j _ => hrole j⟩

/-- A consumer waits only for the lock, and whoever has the lock does not wait. -/
theorem exists_condThread (i : ι) (t : Thread) (s : Waiting ι)
    (h : t.holds = true ∨ t.isConsumer = true ∧ s.buffer.locked = false) :
    ∃ x t' s', condThread i x t s = some (t', s') := by
  cases t with
  | producer pc =>
    have hholds : (Thread.producer pc).holds = true := h.resolve_right fun h => by cases h.1
    cases pc with
    | full =>
      by_cases hlast : s.buffer.lastItem = 31
      · exact ⟨((0, 0), none), _, _, if_pos hlast⟩
      · exact ⟨((0, 0), none), _, _, if_neg hlast⟩
    | produce | increment | producedLine | unlock => exact ⟨((0, 0), none), _, _, rfl⟩
    | _ => cases hholds
  | consumer pc k line =>
    cases pc with
    | signal =>
      by_cases hwaits : ∃ j, s.waits j = true
      · obtain ⟨j, hj⟩ := hwaits
        exact ⟨((0, 0), some j), _, _, if_pos hj⟩
      · push Not at hwaits
        exact ⟨((0, 0), none), _, _, if_pos fun j => Bool.eq_false_of_not_eq_true (hwaits j)⟩
    | lock =>
      have hfree : s.buffer.locked = false := (h.resolve_left (by simp [Thread.holds])).2
      refine ⟨((0, 0), none), .consumer .clearItem k line, ⟨{ s.buffer with locked := true }, s.waits⟩, ?_⟩
      simp [condThread, thread, consumer, BufferList.acquire, hfree]
    | _ => exact ⟨((0, 0), none), _, _, rfl⟩

/-- **Waiting producers are not forgotten**, for any number of producers and consumers: while a producer
waits without having been woken, each free place of the buffer has somebody on the way to use or to
signal it, so with room and nobody on the way nobody waits; and as long as there is a consumer, some
thread can move without a wake-up from nowhere. -/
theorem room_is_expected (h : Reach condThread (· = condStart isConsumer) anyMove c) :
    (∀ i, c.sh.waits i = true → c.loc i = .producer .condWait ∧
      31 - c.sh.buffer.lastItem ≤ (count (fun _ => onTheWay) (places c) : ℤ)) ∧
      (c.sh.buffer.lastItem < 31 → (∀ i, onTheWay (places c i) = false) → ∀ i, c.sh.waits i = false) ∧
      ((∃ i, isConsumer i = true) → ∃ i x c', c.sh.waits i = false ∧ c.move condThread i x = some c') := by
  have hE := expected_of_reach h
  obtain ⟨hlocked, hrole⟩ := locked_of_reach (reach_project h)
  refine ⟨fun i hi => ⟨hE.waits i hi, hE.room i hi⟩, fun hlast hnone i => ?_, ?_⟩
  · by_contra hi
    have hle := hE.room i (Bool.eq_true_of_not_eq_false hi)
    rw [count_eq_zero_iff.mpr hnone] at hle
    simp only [Nat.cast_zero] at hle
    omega
  · intro hr
    -- the thread that has the lock, or a consumer
    obtain ⟨i, hi⟩ : ∃ i,
        (c.loc i).holds = true ∨ (c.loc i).isConsumer = true ∧ c.sh.buffer.locked = false := by
      cases hbuffer : c.sh.buffer.locked with
      | true =>
        have hpos : 0 < count (fun _ => Thread.holds) c.loc := by
          rw [← show _ = count (fun _ => Thread.holds) c.loc from hlocked]
          show 0 < c.sh.buffer.locked.toNat
          rw [hbuffer]
          exact Nat.one_pos
        obtain ⟨i, hi⟩ := count_pos_iff.mp hpos
        exact ⟨i, .inl hi⟩
      | false =>
        obtain ⟨i, hi⟩ := hr
        exact ⟨i, .inr ⟨(hrole i).trans hi, rfl⟩⟩
    obtain ⟨x, t, s, hp⟩ := exists_condThread i (c.loc i) c.sh hi
    refine ⟨i, x, _, ?_, Conf.move_eq_some_iff.mpr ⟨t, s, hp, rfl⟩⟩
    by_contra hwaits
    have hloc := hE.waits i (Bool.eq_true_of_not_eq_false hwaits)
    rw [hloc] at hi
    rcases hi with h | ⟨h, -⟩
    · cases h
    · cases h

end Runs

/-- The producer fills the buffer and waits. -/
theorem room_is_expected_full : ∃ c : Conf (Fin 2) Thread (Waiting (Fin 2)),
    Reach condThread (· = condStart ![false, true]) anyMove c ∧ c.sh.waits 0 = true ∧
      c.sh.buffer.lastItem = 31 ∧ ∃ i x c', c.sh.waits i = false ∧ c.move condThread i x = some c' := by
  obtain ⟨c, hc, hP⟩ := @exists_reach _ _ _ _ _ condThread (· = condStart ![false, true]) anyMove _ _ rfl
    (List.replicate 227 (0, (0, 0), none)) (fun c => c.sh.waits 0 && c.sh.buffer.lastItem = 31)
    (by decide +kernel)
  simp only [Bool.and_eq_true, decide_eq_true_eq] at hP
  exact ⟨c, hc, hP.1, hP.2, (room_is_expected hc).2.2 ⟨1, rfl⟩⟩

end Cs444.Producer
