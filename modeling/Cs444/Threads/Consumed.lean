import Cs444.Threads.Producer

/-!
# The `Consumed` lines of `producer.c`

One producer and one consumer. The consumer prints what is at `last_item`, and later, under the lock,
removes what is at `last_item` then. The producer prints its line under the lock.

* `Matched`: the `Consumed` lines are, in order, about the entries removed, each of them once.
* `Undisturbed`: the producer does not raise `last_item` while the consumer is between the first index
  it reads for the line and the lock.
* `consumed_matched`: in runs where it never does, the lines match.
-/

namespace Cs444.Producer

/-! ## Lines and removals -/

/-- The number of the entry at `k`. -/
def BufferList.entry (b : BufferList) (k : ℤ) : ℕ := (b.items k).entry

/-- The lines are about the entries removed and those of `pending`, in this order. -/
def BufferList.Paired (b : BufferList) (pending : List ℕ) : Prop :=
  b.lines.map (fun l => (l.itemOf, l.waitOf)) = (b.removed ++ pending).map fun e => (e, e)

/-- The consumer is removing the entry at `last_item`. -/
def Thread.removing : Thread → Bool
  | .consumer .clearItem _ _ | .consumer .clearWait _ _ | .consumer .decrement _ _ => true
  | _ => false

/-- The `Consumed` lines are about the entries removed, and about at most one more that is removed next;
no entry is reported or removed twice; and what the consumer removes was reported last. -/
def Matched (c : Conf Bool Thread BufferList) : Prop :=
  ∃ pending : List ℕ, c.sh.Paired pending ∧ pending.length ≤ 1 ∧
    (c.sh.removed ++ pending).Nodup ∧ (∀ e ∈ c.sh.removed ++ pending, e < c.sh.produced) ∧
    ((c.loc true).removing = true → pending = [c.sh.entry c.sh.lastItem])

/-- Between the first read of the index for the `Consumed` line and the lock. -/
def Thread.reporting : Thread → Bool
  | .consumer pc _ _ =>
    match pc with
    | .itemRead | .againIndex | .waitRead | .consumedLine | .lock => true
    | _ => false
  | .producer _ => false

/-- The producer does not raise `last_item` while the consumer reports. -/
def Undisturbed (c : Conf Bool Thread BufferList) (i : Bool) (_ : ℕ × ℕ) : Prop :=
  c.loc i = .producer .increment → (c.loc true).reporting = false

instance (c : Conf Bool Thread BufferList) (i : Bool) (r : ℕ × ℕ) : Decidable (Undisturbed c i r) :=
  inferInstanceAs (Decidable (_ → _))

/-! ## The entries -/

/-- The entries in the buffer are different, and none of them was removed. -/
structure Entries (b : BufferList) : Prop where
  lt : ∀ k, 0 ≤ k → k ≤ b.lastItem → b.entry k < b.produced
  inj : ∀ j k, 0 ≤ j → j ≤ b.lastItem → 0 ≤ k → k ≤ b.lastItem → b.entry j = b.entry k → j = k
  present : ∀ k, 0 ≤ k → k ≤ b.lastItem → b.entry k ∉ b.removed
  removed_lt : ∀ e ∈ b.removed, e < b.produced
  nodup : b.removed.Nodup

/-- The entry above the last one is new. -/
structure Fresh (b : BufferList) : Prop where
  lt : b.entry (b.lastItem + 1) < b.produced
  ne : ∀ k, 0 ≤ k → k ≤ b.lastItem → b.entry k ≠ b.entry (b.lastItem + 1)
  notMem : b.entry (b.lastItem + 1) ∉ b.removed

/-- What a thread has read or put is what is there. -/
def Thread.Reports (b : BufferList) : Thread → Prop
  | .consumer pc k l =>
    match pc with
    | .itemRead => b.Paired [] ∧ k = b.lastItem
    | .againIndex => b.Paired [] ∧ l.itemOf = b.entry b.lastItem
    | .waitRead => b.Paired [] ∧ l.itemOf = b.entry b.lastItem ∧ k = b.lastItem
    | .consumedLine =>
      b.Paired [] ∧ l.itemOf = b.entry b.lastItem ∧ l.waitOf = b.entry b.lastItem
    | .lock | .clearItem | .clearWait | .decrement => b.Paired [b.entry b.lastItem]
    | _ => b.Paired []
  | .producer pc =>
    match pc with
    | .increment => Fresh b
    | _ => True

section Step

variable {r : ℕ × ℕ} {t t' : Thread} {b b' : BufferList}

theorem entry_setItem (k j : ℤ) (e : BuffItem) :
    (b.setItem k e).entry j = if j = k then e.entry else b.entry j := by
  by_cases h : j = k
  · subst h
    simp [BufferList.setItem, BufferList.entry]
  · simp [BufferList.setItem, BufferList.entry, h]

/-- Clearing a slot keeps the number of its entry. -/
theorem entry_clear (k : ℤ) (e : BuffItem) (he : e.entry = b.entry k) :
    (b.setItem k e).entry = b.entry := by
  funext j
  rw [entry_setItem]
  split_ifs with h
  · rw [he, h]
  · rfl

theorem Entries.congr (h : Entries b) (hentry : b'.entry = b.entry) (hlast : b'.lastItem = b.lastItem)
    (hproduced : b'.produced = b.produced) (hremoved : b'.removed = b.removed) : Entries b' := by
  obtain ⟨h₁, h₂, h₃, h₄, h₅⟩ := h
  refine ⟨?_, ?_, ?_, ?_, ?_⟩
  · rwa [hentry, hlast, hproduced]
  · rwa [hentry, hlast]
  · rwa [hentry, hlast, hremoved]
  · rwa [hremoved, hproduced]
  · rwa [hremoved]

theorem Step.entries (h : Step r b t t' b') (hE : Entries b) (hok : t.Ok b.lastItem)
    (hrep : t.Reports b) : Entries b' := by
  cases h with
  | clearItem | clearWait => exact hE.congr (entry_clear _ _ rfl) rfl rfl rfl
  | decrement =>
    have hlast : 0 ≤ b.lastItem := hok
    refine ⟨?_, ?_, ?_, ?_, ?_⟩
    · intro k h₀ h₁
      exact hE.lt k h₀ (by simp at h₁; omega)
    · intro j k h₀ h₁ h₂ h₃
      exact hE.inj j k h₀ (by simp at h₁; omega) h₂ (by simp at h₃; omega)
    · intro k h₀ h₁ hmem
      simp at h₁
      rcases List.mem_append.mp hmem with hmem | hmem
      · exact hE.present k h₀ (by omega) hmem
      · have heq := hE.inj k b.lastItem h₀ (by omega) hlast le_rfl (List.mem_singleton.mp hmem)
        omega
    · intro e he
      rcases List.mem_append.mp he with he | he
      · exact hE.removed_lt e he
      · rw [List.mem_singleton.mp he]
        exact hE.lt _ hlast le_rfl
    · refine List.nodup_append.mpr ⟨hE.nodup, List.nodup_singleton _, ?_⟩
      rintro a ha e he rfl
      rw [List.mem_singleton.mp he] at ha
      exact hE.present _ hlast le_rfl ha
  | produce =>
    -- the slot above the last entry is not part of the buffer yet
    have hentry : ∀ k ≤ b.lastItem,
        (b.setItem (b.lastItem + 1) (produceItem b.produced r)).entry k = b.entry k := by
      intro k hk
      rw [entry_setItem, if_neg (by omega)]
    refine ⟨?_, ?_, ?_, ?_, hE.nodup⟩
    · intro k h₀ h₁
      exact (hentry k h₁).trans_lt (Nat.lt_succ_of_lt (hE.lt k h₀ h₁))
    · intro j k h₀ h₁ h₂ h₃ heq
      exact hE.inj j k h₀ h₁ h₂ h₃ ((hentry j h₁).symm.trans (heq.trans (hentry k h₃)))
    · intro k h₀ h₁ hmem
      exact hE.present k h₀ h₁ (hentry k h₁ ▸ hmem)
    · exact fun e he => Nat.lt_succ_of_lt (hE.removed_lt e he)
  | increment =>
    have hfresh : Fresh b := hrep
    refine ⟨?_, ?_, ?_, hE.removed_lt, hE.nodup⟩
    · intro k h₀ h₁
      rcases Int.lt_or_eq_of_le h₁ with h₁ | rfl
      · exact hE.lt k h₀ (Int.lt_add_one_iff.mp h₁)
      · exact hfresh.lt
    · intro j k h₀ h₁ h₂ h₃ heq
      rcases Int.lt_or_eq_of_le h₁ with h₁ | rfl <;> rcases Int.lt_or_eq_of_le h₃ with h₃ | rfl
      · exact hE.inj j k h₀ (Int.lt_add_one_iff.mp h₁) h₂ (Int.lt_add_one_iff.mp h₃) heq
      · exact absurd heq (hfresh.ne j h₀ (Int.lt_add_one_iff.mp h₁))
      · exact absurd heq.symm (hfresh.ne k h₂ (Int.lt_add_one_iff.mp h₃))
      · rfl
    · intro k h₀ h₁
      rcases Int.lt_or_eq_of_le h₁ with h₁ | rfl
      · exact hE.present k h₀ (Int.lt_add_one_iff.mp h₁)
      · exact hfresh.notMem
  | _ => exact hE.congr rfl rfl rfl rfl

theorem BufferList.Paired.congr {pending : List ℕ} (h : b.Paired pending) (hlines : b'.lines = b.lines)
    (hremoved : b'.removed = b.removed) : b'.Paired pending := by
  unfold BufferList.Paired
  rwa [hlines, hremoved]

/-- A step of a thread keeps what it has read or put. -/
theorem Step.reports (h : Step r b t t' b') (hE : Entries b) (hrep : t.Reports b) :
    t'.Reports b' := by
  cases h with
  | itemIndex => exact ⟨hrep, rfl⟩
  | itemRead =>
    obtain ⟨hpaired, rfl⟩ := hrep
    exact ⟨hpaired, rfl⟩
  | againIndex => exact ⟨hrep.1, hrep.2, rfl⟩
  | waitRead =>
    obtain ⟨hpaired, hitem, rfl⟩ := hrep
    exact ⟨hpaired, hitem, rfl⟩
  | @consumedLine k l =>
    obtain ⟨hpaired, hitem, hwait⟩ := hrep
    have hpaired : b.lines.map (fun l => (l.itemOf, l.waitOf)) =
        (b.removed ++ []).map fun e => (e, e) := hpaired
    show (b.lines ++ [l]).map (fun l => (l.itemOf, l.waitOf)) =
      (b.removed ++ [b.entry b.lastItem]).map fun e => (e, e)
    rw [List.map_append, hpaired, List.append_nil, List.map_append]
    simp [hitem, hwait]
  | clearItem | clearWait =>
    show BufferList.Paired _ [BufferList.entry _ b.lastItem]
    rw [entry_setItem, if_pos rfl]
    exact BufferList.Paired.congr hrep rfl rfl
  | decrement =>
    show b.lines.map (fun l => (l.itemOf, l.waitOf)) =
      ((b.removed ++ [b.entry b.lastItem]) ++ []).map fun e => (e, e)
    rw [List.append_nil]
    exact hrep
  | produce =>
    refine ⟨?_, ?_, ?_⟩
    · show (b.setItem (b.lastItem + 1) (produceItem b.produced r)).entry (b.lastItem + 1) < _
      rw [entry_setItem, if_pos rfl]
      exact Nat.lt_succ_self _
    · intro k h₀ h₁
      show (b.setItem (b.lastItem + 1) (produceItem b.produced r)).entry k ≠
        (b.setItem (b.lastItem + 1) (produceItem b.produced r)).entry (b.lastItem + 1)
      rw [entry_setItem, entry_setItem, if_pos rfl, if_neg (by simp [BufferList.setItem] at h₁; omega)]
      exact (hE.lt k h₀ h₁).ne
    · show (b.setItem (b.lastItem + 1) (produceItem b.produced r)).entry (b.lastItem + 1) ∉ b.removed
      rw [entry_setItem, if_pos rfl]
      exact fun hmem => (hE.removed_lt _ hmem).ne rfl
  | empty _ | found _ | sleepIndex | sleepLine | waitIndex | sleep | lock _ | signal | unlock =>
    exact hrep
  | _ => trivial

theorem Thread.Reports.congr {u : Thread} (hrep : u.Reports b) (hc : u.isConsumer = true)
    (hlines : b'.lines = b.lines) (hremoved : b'.removed = b.removed)
    (hlast : b'.lastItem = b.lastItem) (hentry : b'.entry b.lastItem = b.entry b.lastItem) :
    u.Reports b' := by
  cases u with
  | producer pc => cases hc
  | consumer pc k l =>
    cases pc <;>
      simpa only [Thread.Reports, BufferList.Paired, hlines, hremoved, hlast, hentry] using hrep

/-- A producer does not disturb the consumer, unless it raises `last_item`. -/
theorem Step.reports_consumer (h : Step r b t t' b') (hp : t.isConsumer = false) {u : Thread}
    (hc : u.isConsumer = true) (hrep : u.Reports b)
    (hquiet : t = .producer .increment → u.reporting = false ∧ u.holds = false) : u.Reports b' := by
  cases h with
  | prodSleep | prodLock _ | full _ | room _ | condWait _ | producedLine | prodUnlock =>
    exact hrep.congr hc rfl rfl rfl rfl
  | produce =>
    refine hrep.congr hc rfl rfl rfl ?_
    show (b.setItem (b.lastItem + 1) (produceItem b.produced r)).entry b.lastItem = _
    rw [entry_setItem, if_neg (by omega)]
  | increment =>
    obtain ⟨hreporting, hholds⟩ := hquiet rfl
    cases u with
    | producer pc => cases hc
    | consumer pc k l =>
      cases pc with
      | itemRead | againIndex | waitRead | consumedLine | lock => cases hreporting
      | clearItem | clearWait | decrement => cases hholds
      | _ => exact hrep
  | _ => cases hp

/-- A consumer outside the lock does not disturb the producer. -/
theorem Step.reports_producer (h : Step r b t t' b') (hc : t.isConsumer = true) {u : Thread}
    (hp : u.isConsumer = false) (hrep : u.Reports b) (hlock : u.holds = true → t.holds = false) :
    u.Reports b' := by
  cases u with
  | consumer pc k l => cases hp
  | producer pc =>
    cases pc with
    | increment =>
      have hunlocked := hlock rfl
      have hfresh : Fresh b := hrep
      cases h with
      | clearItem | clearWait | decrement | unlock => cases hunlocked
      | consumedLine | lock _ => exact ⟨hfresh.lt, hfresh.ne, hfresh.notMem⟩
      | empty _ | found _ | sleepIndex | sleepLine | waitIndex | sleep | itemIndex | itemRead
      | againIndex | waitRead | signal => exact hrep
      | _ => cases hc
    | _ => trivial

end Step

/-! ## All runs -/

section Runs

variable {c : Conf Bool Thread BufferList}

/-- The entries are in order, and both threads have read or put what is there. -/
structure Reported (c : Conf Bool Thread BufferList) : Prop where
  inv : Inv id c
  entries : Entries c.sh
  reports : ∀ i, (c.loc i).Reports c.sh

theorem one_consumer : ∀ i j : Bool, id i = true → id j = true → i = j := by
  rintro i j rfl rfl
  rfl

theorem reported_start : Reported (start id) := by
  refine ⟨inv_start id, ⟨?_, ?_, ?_, ?_, ?_⟩, ?_⟩
  · intro k h₀ h₁
    exact absurd (h₀.trans h₁) (by decide)
  · intro j k h₀ h₁
    exact absurd (h₀.trans h₁) (by decide)
  · intro k _ _
    exact List.not_mem_nil
  · intro e he
    cases he
  · exact List.nodup_nil
  · intro i
    cases i with
    | true => rfl
    | false => trivial

theorem Reported.step (hR : Reported c) {i : Bool} {r : ℕ × ℕ} {t : Thread} {b : BufferList}
    (hok : Undisturbed c i r) (h : Step r c.sh (c.loc i) t b) :
    Reported ⟨Function.update c.loc i t, b⟩ := by
  obtain ⟨hI, hE, hrep⟩ := hR
  refine ⟨hI.step one_consumer h, h.entries hE (hI.ok i) (hrep i), ?_⟩
  refine (Function.forall_update_iff c.loc fun _ t => t.Reports b).mpr
    ⟨h.reports hE (hrep i), fun j hj => ?_⟩
  cases i with
  | false =>
    obtain rfl : j = true := by simpa using hj
    refine h.reports_consumer (hI.role false) (hI.role true) (hrep true) fun ht => ⟨hok ht, ?_⟩
    exact hI.not_holds (by rw [ht]; rfl) hj
  | true =>
    obtain rfl : j = false := by simpa using hj
    refine h.reports_producer (hI.role true) (hI.role false) (hrep false) fun hholds => ?_
    exact hI.not_holds hholds hj.symm

theorem reported_of_reach (h : Reach thread (· = start id) Undisturbed c) : Reported c :=
  h.invariant (fun _ h => h ▸ reported_start) fun _ _ _ _ _ hR hok hp => hR.step hok (thread_step hp)

/-- An entry that was reported and is still there can be removed next. -/
theorem Entries.matched (hE : Entries c.sh) (hlast : 0 ≤ c.sh.lastItem)
    (hpaired : c.sh.Paired [c.sh.entry c.sh.lastItem]) : Matched c := by
  refine ⟨_, hpaired, le_rfl, ?_, ?_, fun _ => rfl⟩
  · refine List.nodup_append.mpr ⟨hE.nodup, List.nodup_singleton _, ?_⟩
    rintro a ha e he rfl
    rw [List.mem_singleton.mp he] at ha
    exact hE.present _ hlast le_rfl ha
  · intro e he
    rcases List.mem_append.mp he with he | he
    · exact hE.removed_lt e he
    · rw [List.mem_singleton.mp he]
      exact hE.lt _ hlast le_rfl

theorem Reported.matched (hR : Reported c) : Matched c := by
  obtain ⟨hI, hE, hrep⟩ := hR
  have hrep := hrep true
  have hok := hI.ok true
  have hnone : c.sh.Paired [] → (c.loc true).removing = false → Matched c := by
    intro hpaired hremoving
    refine ⟨[], hpaired, Nat.zero_le _, ?_, ?_, fun h => ?_⟩
    · rw [List.append_nil]
      exact hE.nodup
    · rw [List.append_nil]
      exact hE.removed_lt
    · rw [hremoving] at h
      cases h
  have hrole := hI.role true
  cases hloc : c.loc true with
  | producer pc =>
    rw [hloc] at hrole
    cases hrole
  | consumer pc k l =>
    rw [hloc] at hrep hok hnone
    cases pc with
    | lock | clearItem | clearWait | decrement => exact hE.matched hok hrep
    | itemRead | againIndex | waitRead | consumedLine => exact hnone hrep.1 rfl
    | _ => exact hnone hrep rfl

end Runs

/-- **Each entry is consumed as it was reported** in every run in which the producer does not raise
`last_item` between the reads for a `Consumed` line and the lock. -/
theorem consumed_matched {c : Conf Bool Thread BufferList}
    (h : Reach thread (· = start id) Undisturbed c) : Matched c :=
  (reported_of_reach h).matched

/-- Two entries, and the removal of the second. -/
def quietRun : List (Bool × ℕ × ℕ) :=
  List.replicate 14 (false, 0, 0) ++ List.replicate 14 (true, 0, 0)

theorem consumed_matched_quietRun : ∃ c : Conf Bool Thread BufferList,
    Reach thread (· = start id) Undisturbed c ∧ c.sh.removed = [1] ∧ Matched c := by
  obtain ⟨c, hc, hP⟩ := @exists_reach _ _ _ _ _ thread (· = start id) Undisturbed _ _ rfl
    quietRun (fun c => c.sh.removed = [1]) (by decide +kernel)
  exact ⟨c, hc, by simpa using hP, consumed_matched hc⟩

/-- The consumer prints its line about entry 0; the producer puts entry 1; the consumer removes
entry 1. -/
def pushRun : List (Bool × ℕ × ℕ) :=
  List.replicate 7 (false, 0, 0) ++ List.replicate 10 (true, 0, 0) ++ List.replicate 7 (false, 0, 0) ++
    List.replicate 4 (true, 0, 0)

theorem removed_not_reported : ∃ c : Conf Bool Thread BufferList,
    Reach thread (· = start id) anyMove c ∧
      c.sh.lines.map (fun l => (l.itemOf, l.waitOf)) = [(0, 0)] ∧ c.sh.removed = [1] ∧
      ¬ Matched c := by
  obtain ⟨c, hc, hP⟩ := @exists_reach _ _ _ _ _ thread (· = start id) anyMove _ _ rfl pushRun
    (fun c => c.sh.lines.map (fun l => (l.itemOf, l.waitOf)) = [(0, 0)] && c.sh.removed = [1])
    (by decide +kernel)
  simp only [Bool.and_eq_true, decide_eq_true_eq] at hP
  obtain ⟨hlines, hremoved⟩ := hP
  refine ⟨c, hc, hlines, hremoved, ?_⟩
  rintro ⟨pending, hpaired, -⟩
  unfold BufferList.Paired at hpaired
  rw [hlines, hremoved] at hpaired
  simp at hpaired

end Cs444.Producer
