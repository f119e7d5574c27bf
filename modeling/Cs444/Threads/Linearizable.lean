import Cs444.Threads.SharedList

/-!
# The shared list of `concurrency3.c` behaves like an atomic one

As long as `find` and `remov` start from the `lst->head` of the moment (`FreshHead`).

* `Local`: what a thread at each place knows about the list, and how far its call is.
* `Matches`: the list in memory, with everybody where `Local` says; `Matches.quiet`, `Matches.append`,
  `Matches.unlink`, … say what each store does to it.
* `related_simulation`: the atomic list follows the code step by step. A `create` takes effect when it
  links its node, a `remov` when it frees the head or unlinks a node, a `find` when it sees the value or
  the end of the list.
* `linearizable_of_freshHead` puts this together.
-/

namespace Cs444.SharedList

/-! ## Where the threads are in the list -/

/-- `n` is in the list, and no node before it has the value. -/
def NotBefore (data : ℕ → ℕ) (l : List ℕ) (val n : ℕ) : Prop :=
  ∃ pre post, l = pre ++ n :: post ∧ ∀ m ∈ pre, data m ≠ val

/-- `prev` points at the node before `n`, and no node up to it has the value. -/
def Preceded (data : ℕ → ℕ) (l : List ℕ) (val : ℕ) (prev : Ptr) (n : ℕ) : Prop :=
  ∃ pre p post, prev = some p ∧ l = pre ++ p :: n :: post ∧ ∀ m ∈ pre ++ [p], data m ≠ val

/-- The node that only this thread knows: `create` has not linked it yet, or `remov` no longer. -/
def owns : Pc → Ptr
  | .createInit n | .createData n _ | .createWait1 n _ | .createWait2 n _ | .createTest n _ => some n
  | .createSetHead n _ | .createWalk n _ _ | .createLink n _ _ => some n
  | .removTail _ n | .removFree n => some n
  | _ => none

/-- What a thread at this place knows about the list `l`, which starts at `root`, and how far its call
is. -/
def Local (data : ℕ → ℕ) (next : ℕ → Ptr) (l : List ℕ) (root : Ptr) (st : Status) : Pc → Prop
  | .removTest val _ => st = .pending (.remov val)
  | .removNext val => st = .pending (.remov val) ∧ ∃ h rest, l = h :: rest ∧ data h = val
  | .removFreeHead val tmp =>
    st = .pending (.remov val) ∧ ∃ h rest, l = h :: rest ∧ data h = val ∧ tmp = rest.head?
  | .removSetHead tmp => st = .done true ∧ root = tmp
  | .removLoop val _ none => st = .pending (.remov val) ∧ ∀ m ∈ l, data m ≠ val
  | .removLoop val prev (some n) =>
    st = .pending (.remov val) ∧
      (l.head? = some n ∧ data n ≠ val ∨ Preceded data l val prev n)
  | .removUnlink val prev n =>
    st = .pending (.remov val) ∧ Preceded data l val prev n ∧ data n = val
  | .removAdvance val n => st = .pending (.remov val) ∧ NotBefore data l val n ∧ data n ≠ val
  | .removTail _ _ | .removFree _ | .removReport | .createReport | .createPost1 => st = .done true
  | .removPrint cur | .createPrint cur => st = .done true ∧ ∀ n ∈ cur, n ∈ l
  | .removPost1 found | .findPost found => st = .done found
  | .findLoop _ none => st = .done false
  | .findLoop val (some n) => st = .pending (.find val) ∧ NotBefore data l val n
  | .findNext val n => st = .pending (.find val) ∧ NotBefore data l val n ∧ data n ≠ val
  | .createData n _ => st = .idle ∧ next n = none
  | .createWait1 n val | .createWait2 n val => st = .idle ∧ data n = val ∧ next n = none
  | .createTest n val => st = .pending (.create val) ∧ data n = val ∧ next n = none
  | .createSetHead n val =>
    (st = .pending (.create val) ∧ data n = val ∧ next n = none) ∧ l = []
  | .createWalk n val cur =>
    (st = .pending (.create val) ∧ data n = val ∧ next n = none) ∧ cur ∈ l
  | .createLink n val cur =>
    (st = .pending (.create val) ∧ data n = val ∧ next n = none) ∧ ∃ pre, l = pre ++ [cur]
  | _ => st = .idle

section Local

variable {data data' : ℕ → ℕ} {next next' : ℕ → Ptr} {l l' : List ℕ} {root root' : Ptr} {st : Status}
  {pc : Pc} {val n m : ℕ} {prev : Ptr}

theorem NotBefore.mem (h : NotBefore data l val n) : n ∈ l := by
  obtain ⟨pre, post, rfl, -⟩ := h
  simp

theorem NotBefore.congr (h : NotBefore data l val n) (hdata : ∀ m ∈ l, data' m = data m) :
    NotBefore data' l val n := by
  obtain ⟨pre, post, rfl, hpre⟩ := h
  refine ⟨pre, post, rfl, fun m hm => ?_⟩
  rw [hdata m (List.mem_append_left _ hm)]
  exact hpre m hm

theorem NotBefore.append (h : NotBefore data l val n) (m : ℕ) : NotBefore data (l ++ [m]) val n := by
  obtain ⟨pre, post, rfl, hpre⟩ := h
  exact ⟨pre, post ++ [m], by simp, hpre⟩

theorem notBefore_of_head? (h : l.head? = some n) : NotBefore data l val n := by
  obtain ⟨rest, rfl⟩ := List.head?_eq_some_iff.mp h
  exact ⟨[], rest, rfl, by simp⟩

theorem Preceded.notBefore (h : Preceded data l val prev n) : NotBefore data l val n := by
  obtain ⟨pre, p, post, -, rfl, hpre⟩ := h
  exact ⟨pre ++ [p], post, by simp, hpre⟩

theorem Preceded.congr (h : Preceded data l val prev n) (hdata : ∀ m ∈ l, data' m = data m) :
    Preceded data' l val prev n := by
  obtain ⟨pre, p, post, rfl, rfl, hpre⟩ := h
  refine ⟨pre, p, post, rfl, rfl, fun m hm => ?_⟩
  rw [hdata m (by simp only [List.mem_append, List.mem_cons] at hm ⊢; tauto)]
  exact hpre m hm

/-- One node further: the value is not in the list, or not before the next node. -/
theorem NotBefore.advance (h : NotBefore data l val n) (hn : data n ≠ val) (hc : Chain next root l) :
    next n = none ∧ (∀ m ∈ l, data m ≠ val) ∨
      ∃ d, next n = some d ∧ Preceded data l val (some n) d := by
  obtain ⟨pre, post, rfl, hpre⟩ := h
  have hseen : ∀ m ∈ pre ++ [n], data m ≠ val := by
    intro m hm
    rcases List.mem_append.mp hm with hm | hm
    · exact hpre m hm
    · rw [List.mem_singleton.mp hm]
      exact hn
  rw [hc.next_eq]
  cases post with
  | nil => exact .inl ⟨rfl, hseen⟩
  | cons d post => exact .inr ⟨d, rfl, pre, n, post, rfl, rfl, hseen⟩

/-- The place of a thread when the nodes of the list and its own node are as they were. -/
theorem Local.congr (h : Local data next l root st pc) (hdata : ∀ m ∈ l, data' m = data m)
    (hown : ∀ m, owns pc = some m → data' m = data m ∧ next' m = next m) :
    Local data' next' l root st pc := by
  cases pc with
  | removNext | removFreeHead =>
    obtain ⟨hst, h, rest, rfl, hh⟩ := h
    refine ⟨hst, h, rest, rfl, ?_⟩
    rw [hdata h List.mem_cons_self]
    exact hh
  | removLoop val prev cur =>
    cases cur with
    | none => exact ⟨h.1, fun m hm => by rw [hdata m hm]; exact h.2 m hm⟩
    | some n =>
      refine ⟨h.1, ?_⟩
      rcases h.2 with ⟨hhead, hn⟩ | hprec
      · refine .inl ⟨hhead, ?_⟩
        rw [hdata n (List.mem_of_mem_head? hhead)]
        exact hn
      · exact .inr (hprec.congr hdata)
  | removUnlink =>
    refine ⟨h.1, h.2.1.congr hdata, ?_⟩
    rw [hdata _ h.2.1.notBefore.mem]
    exact h.2.2
  | removAdvance | findNext =>
    refine ⟨h.1, h.2.1.congr hdata, ?_⟩
    rw [hdata _ h.2.1.mem]
    exact h.2.2
  | findLoop val tmp =>
    cases tmp with
    | none => exact h
    | some n => exact ⟨h.1, h.2.congr hdata⟩
  | createData n => exact ⟨h.1, (hown n rfl).2.trans h.2⟩
  | createWait1 n | createWait2 n | createTest n =>
    obtain ⟨hd, hn⟩ := hown n rfl
    exact ⟨h.1, hd.trans h.2.1, hn.trans h.2.2⟩
  | createSetHead n | createWalk n | createLink n =>
    obtain ⟨hd, hn⟩ := hown n rfl
    exact ⟨⟨h.1.1, hd.trans h.1.2.1, hn.trans h.1.2.2⟩, h.2⟩
  | _ => exact h

/-- The list may change in any way for a thread outside. -/
theorem Local.outside (h : Local data next l root st pc) (hS : hasNoSearcher pc = false)
    (hI : hasNoInserter pc = false) (hown : ∀ m, owns pc = some m → next' m = next m) :
    Local data next' l' root' st pc := by
  cases pc with
  | createData n => exact ⟨h.1, (hown n rfl).trans h.2⟩
  | createWait1 n => exact ⟨h.1, h.2.1, (hown n rfl).trans h.2.2⟩
  | remov | removWait1 | find | findWait | create | createInit => exact h
  | removWait2 | findLoop | findNext | findPost => cases hS
  | _ => cases hI

/-- A new last node is nothing to a `find`. -/
theorem Local.append (h : Local data next l root st pc) (hI : hasNoInserter pc = false)
    (hown : ∀ m, owns pc = some m → next' m = next m) (n : ℕ) :
    Local data next' (l ++ [n]) root' st pc := by
  cases pc with
  | findLoop val tmp =>
    cases tmp with
    | none => exact h
    | some n => exact ⟨h.1, h.2.append _⟩
  | findNext => exact ⟨h.1, h.2.1.append _, h.2.2⟩
  | createData n => exact ⟨h.1, (hown n rfl).trans h.2⟩
  | createWait1 n => exact ⟨h.1, h.2.1, (hown n rfl).trans h.2.2⟩
  | remov | removWait1 | removWait2 | find | findWait | findPost | create | createInit => exact h
  | _ => cases hI

/-- A thread visits nodes of the list. -/
theorem Local.visits_mem (h : Local data next l root st pc) (hc : Chain next root l) :
    ∀ m ∈ visits root pc, m ∈ l := by
  have hroot : ∀ m ∈ root.toList, m ∈ l := by
    intro m hm
    rw [hc.eq_head?] at hm
    exact List.mem_of_mem_head? (Option.mem_toList.mp hm)
  intro m hm
  cases pc with
  | removTest | removNext => exact hroot m hm
  | removLoop val prev cur =>
    obtain rfl := Option.mem_toList.mp hm
    rcases h.2 with ⟨hfirst, -⟩ | hprec
    · exact List.mem_of_mem_head? hfirst
    · exact hprec.notBefore.mem
  | removUnlink val prev n =>
    obtain ⟨-, ⟨pre, p, post, rfl, rfl, -⟩, -⟩ := h
    simp only [visits, Option.toList_some, List.cons_append, List.nil_append, List.mem_cons,
      List.not_mem_nil, or_false] at hm
    simp only [List.mem_append, List.mem_cons]
    tauto
  | removAdvance | findNext =>
    rw [List.mem_singleton.mp hm]
    exact h.2.1.mem
  | removPrint | createPrint => exact h.2 m (Option.mem_toList.mp hm)
  | findLoop val tmp =>
    obtain rfl := Option.mem_toList.mp hm
    exact h.2.mem
  | createWalk =>
    rw [List.mem_singleton.mp hm]
    exact h.2
  | createLink =>
    obtain ⟨-, pre, rfl⟩ := h
    rw [List.mem_singleton.mp hm]
    simp
  | _ => cases hm

end Local

/-! ## What a step does to the list -/

section Matches

variable {ι : Type}

/-- From `root` the list leads through `l`, which nobody owns, and everybody is where `Local` says.
`root` is `lst->head`, unless that is about to be stored. -/
structure Matches (c : Conf ι Pc (Shared ι)) (A : ι → Status) (l : List ℕ) (root : Ptr) : Prop where
  chain : Chain c.sh.next root l
  allocated : ∀ n ∈ l, c.sh.allocated n = true
  owned : ∀ i n, owns (c.loc i) = some n → c.sh.allocated n = true ∧ n ∉ l
  apart : ∀ i j n, owns (c.loc i) = some n → owns (c.loc j) = some n → i = j
  place : ∀ i, Local c.sh.data c.sh.next l root (A i) (c.loc i)
  root : (∀ i, settingHead (c.loc i) = false) → root = c.sh.head

variable {c : Conf ι Pc (Shared ι)} {A : ι → Status} {l l' : List ℕ} {root root' : Ptr} {i : ι}
  {pc pc' : Pc} {s' : Shared ι} {st : Status} {n : ℕ}

theorem Matches.ne_of_owns (hM : Matches c A l root) (hi : owns (c.loc i) = some n) {j : ι} (hj : j ≠ i)
    {m : ℕ} (hm : owns (c.loc j) = some m) : m ≠ n := fun e => hj (hM.apart j i n (e ▸ hm) hi)

theorem Matches.ne_of_mem (hM : Matches c A l root) (hn : n ∈ l) {j : ι} {m : ℕ}
    (hm : owns (c.loc j) = some m) : m ≠ n := fun e => (hM.owned j m hm).2 (e ▸ hn)

theorem Matches.root_eq (hM : Matches c A l root) (hset : settingHead (c.loc i) = false)
    (hothers : ∀ j, j ≠ i → settingHead (c.loc j) = false) : root = c.sh.head := by
  refine hM.root fun j => ?_
  by_cases hj : j = i
  · rw [hj]
    exact hset
  · exact hothers j hj

/-- A thread with its semaphores finds `lst->head` where the list starts. -/
theorem Matches.root_eq_head [Fintype ι] (hM : Matches c A l root) (hS : SemInv c)
    (hi : hasNoSearcher (c.loc i) = true ∨ hasNoInserter (c.loc i) = true)
    (hset : settingHead (c.loc i) = false) : root = c.sh.head :=
  hM.root_eq hset fun _ hj => hS.settingHead_eq_false hi hj

variable [DecidableEq ι]

/-- What a move has to show. -/
theorem Matches.move (hM : Matches c A l root) (hchain : Chain s'.next root' l')
    (hallocated : ∀ n ∈ l', s'.allocated n = true)
    (hmine : ∀ n, owns pc' = some n → s'.allocated n = true ∧ n ∉ l')
    (hapart : ∀ n, owns pc' = some n → ∀ j, j ≠ i → owns (c.loc j) ≠ some n)
    (howned : ∀ j, j ≠ i → ∀ n, owns (c.loc j) = some n → s'.allocated n = true ∧ n ∉ l')
    (hplace : Local s'.data s'.next l' root' st pc')
    (hothers : ∀ j, j ≠ i → Local s'.data s'.next l' root' (A j) (c.loc j))
    (hroot : (∀ j, j ≠ i → settingHead (c.loc j) = false) → settingHead pc' = false →
      root' = s'.head) :
    Matches ⟨Function.update c.loc i pc', s'⟩ (Function.update A i st) l' root' where
  chain := hchain
  allocated := hallocated
  owned := by
    exact (Function.forall_update_iff c.loc fun _ pc =>
      ∀ n, owns pc = some n → s'.allocated n = true ∧ n ∉ l').mpr ⟨hmine, howned⟩
  apart := by
    intro j k n hj hk
    by_cases hji : j = i
    · subst hji
      by_cases hkj : k = j
      · exact hkj.symm
      · simp only [Function.update_self, Function.update_of_ne hkj] at hj hk
        exact absurd hk (hapart n hj k hkj)
    · by_cases hki : k = i
      · subst hki
        simp only [Function.update_self, Function.update_of_ne hji] at hj hk
        exact absurd hj (hapart n hk j hji)
      · simp only [Function.update_of_ne hji, Function.update_of_ne hki] at hj hk
        exact hM.apart j k n hj hk
  place := by
    intro j
    by_cases hji : j = i
    · subst hji
      simpa using hplace
    · simpa [hji] using hothers j hji
  root := by
    intro h
    rw [Function.forall_update_iff c.loc fun _ pc => settingHead pc = false] at h
    exact hroot h.2 h.1

/-- A step that leaves the list and the nodes alone. -/
theorem Matches.quiet (hM : Matches c A l root) (hpc : c.loc i = pc) (hhead : s'.head = c.sh.head)
    (hdata : s'.data = c.sh.data) (hnext : s'.next = c.sh.next)
    (hallocated : s'.allocated = c.sh.allocated) (hown : owns pc' = owns pc)
    (hset : settingHead pc = false) (hplace : Local c.sh.data c.sh.next l root st pc') :
    Matches ⟨Function.update c.loc i pc', s'⟩ (Function.update A i st) l root := by
  rw [← hpc] at hown hset
  refine hM.move ?_ ?_ ?_ ?_ ?_ ?_ ?_ ?_
  · rw [hnext]
    exact hM.chain
  · rw [hallocated]
    exact hM.allocated
  · rw [hown, hallocated]
    exact hM.owned i
  · intro n hn j hj hjn
    exact hj (hM.apart j i n hjn (hown ▸ hn))
  · intro j _
    rw [hallocated]
    exact hM.owned j
  · rw [hdata, hnext]
    exact hplace
  · intro j _
    rw [hdata, hnext]
    exact hM.place j
  · intro hothers _
    rw [hhead]
    exact hM.root_eq hset hothers

/-- `malloc`. -/
theorem Matches.malloc (hM : Matches c A l root) (hpc : c.loc i = .create)
    (hn : c.sh.allocated n = false) :
    Matches ⟨Function.update c.loc i (.createInit n),
      { c.sh with allocated := Function.update c.sh.allocated n true }⟩ (Function.update A i .idle)
      l root := by
  have hkeep : ∀ m, c.sh.allocated m = true → Function.update c.sh.allocated n true m = true := by
    intro m hm
    by_cases e : m = n
    · simp [e]
    · simpa [e] using hm
  have hfree : ∀ m, c.sh.allocated m = true → m ≠ n := by
    rintro m hm rfl
    rw [hn] at hm
    cases hm
  refine hM.move hM.chain (fun m hm => hkeep m (hM.allocated m hm)) ?_ ?_ ?_ rfl (fun j _ => hM.place j)
    ?_
  · rintro m ⟨⟩
    exact ⟨Function.update_self .., fun hm => hfree n (hM.allocated n hm) rfl⟩
  · rintro m ⟨⟩ j _ hj
    exact hfree n (hM.owned j n hj).1 rfl
  · intro j _ m hm
    exact ⟨hkeep m (hM.owned j m hm).1, (hM.owned j m hm).2⟩
  · intro hothers _
    exact hM.root_eq (by rw [hpc]; rfl) hothers

/-- A store to a node that only this thread knows. -/
theorem Matches.store (hM : Matches c A l root) (hi : owns (c.loc i) = some n)
    (hset : settingHead (c.loc i) = false) {next' : ℕ → Ptr} {data' : ℕ → ℕ} {pc' : Pc}
    (hnext : ∀ m ≠ n, next' m = c.sh.next m) (hdata : ∀ m ≠ n, data' m = c.sh.data m)
    (howns : owns pc' = some n) (hplace : Local data' next' l root .idle pc') :
    Matches ⟨Function.update c.loc i pc', { c.sh with next := next', data := data' }⟩
      (Function.update A i .idle) l root := by
  obtain ⟨halloc, hn⟩ := hM.owned i n hi
  have hlist : ∀ m ∈ l, m ≠ n := fun m hm => ne_of_mem_of_not_mem hm hn
  refine hM.move (hM.chain.congr fun m hm => hnext m (hlist m hm)) hM.allocated ?_ ?_
    (fun j _ => hM.owned j) hplace ?_ ?_
  · intro m hm
    obtain rfl : n = m := Option.some.inj (howns.symm.trans hm)
    exact ⟨halloc, hn⟩
  · intro m hm j hj hjn
    obtain rfl : n = m := Option.some.inj (howns.symm.trans hm)
    exact hj (hM.apart j i n hjn hi)
  · intro j hj
    refine (hM.place j).congr (fun m hm => hdata m (hlist m hm)) fun m hm => ?_
    exact ⟨hdata m (hM.ne_of_owns hi hj hm), hnext m (hM.ne_of_owns hi hj hm)⟩
  · intro hothers _
    exact hM.root_eq hset hothers

/-- The new node becomes the last one: what `create` stores leads from `root'` through it. -/
theorem Matches.append (hM : Matches c A l root) (hi : owns (c.loc i) = some n)
    (hI : ∀ j, j ≠ i → hasNoInserter (c.loc j) = false) (hchain : Chain s'.next root' (l ++ [n]))
    (hdata : s'.data = c.sh.data) (hallocated : s'.allocated = c.sh.allocated)
    (hnext : ∀ m, m ∉ l → s'.next m = c.sh.next m) (hhead : root' = s'.head) :
    Matches ⟨Function.update c.loc i .createReport, s'⟩ (Function.update A i (.done true))
      (l ++ [n]) root' := by
  refine hM.move hchain ?_ (by rintro m ⟨⟩) (by rintro m ⟨⟩) ?_ rfl ?_ fun _ _ => hhead
  · intro m hm
    rw [hallocated]
    rcases List.mem_append.mp hm with hm | hm
    · exact hM.allocated m hm
    · rw [List.mem_singleton.mp hm]
      exact (hM.owned i n hi).1
  · intro j hj m hm
    obtain ⟨halloc, hml⟩ := hM.owned j m hm
    rw [hallocated]
    refine ⟨halloc, fun hmem => ?_⟩
    rcases List.mem_append.mp hmem with hmem | hmem
    · exact hml hmem
    · exact hM.ne_of_owns hi hj hm (List.mem_singleton.mp hmem)
  · intro j hj
    rw [hdata]
    exact (hM.place j).append (hI j hj) (fun m hm => hnext m (hM.owned j m hm).2) n

variable {h p : ℕ} {rest pre post : List ℕ} {tmp prev : Ptr}

/-- `free(lst->head)`. -/
theorem Matches.freeHead (hM : Matches c A (h :: rest) root) (htmp : tmp = rest.head?)
    (hS : ∀ j, j ≠ i → hasNoSearcher (c.loc j) = false)
    (hI : ∀ j, j ≠ i → hasNoInserter (c.loc j) = false) :
    Matches ⟨Function.update c.loc i (.removSetHead tmp), c.sh.free h⟩
      (Function.update A i (.done true)) rest tmp := by
  have hrest : Chain c.sh.next tmp rest := by
    rw [htmp, ← hM.chain.2.eq_head?]
    exact hM.chain.2
  have hh : h ∉ rest := (List.nodup_cons.mp hM.chain.nodup).1
  refine hM.move hrest ?_ (by rintro m ⟨⟩) (by rintro m ⟨⟩) ?_ ⟨rfl, rfl⟩ ?_ (fun _ e => by cases e)
  · intro m hm
    refine (Function.update_of_ne (ne_of_mem_of_not_mem hm hh) _ _).trans ?_
    exact hM.allocated m (List.mem_cons_of_mem h hm)
  · intro j _ m hm
    obtain ⟨halloc, hml⟩ := hM.owned j m hm
    refine ⟨(Function.update_of_ne ?_ _ _).trans halloc, fun hmem => hml (List.mem_cons_of_mem h hmem)⟩
    exact hM.ne_of_mem List.mem_cons_self hm
  · intro j hj
    exact (hM.place j).outside (hS j hj) (hI j hj) fun _ _ => rfl

/-- `lst->head = tmp`. -/
theorem Matches.setHead (hM : Matches c A l root) (hpc : c.loc i = .removSetHead tmp) :
    Matches ⟨Function.update c.loc i .removReport, { c.sh with head := tmp }⟩
      (Function.update A i (.done true)) l root := by
  have hplace := hM.place i
  rw [hpc] at hplace
  exact hM.move hM.chain hM.allocated (by rintro m ⟨⟩) (by rintro m ⟨⟩) (fun j _ => hM.owned j) rfl
    (fun j _ => hM.place j) fun _ _ => hplace.2

/-- `prev->next = cur->next`. -/
theorem Matches.unlink (hM : Matches c A (pre ++ p :: n :: post) root)
    (hset : settingHead (c.loc i) = false) (hS : ∀ j, j ≠ i → hasNoSearcher (c.loc j) = false)
    (hI : ∀ j, j ≠ i → hasNoInserter (c.loc j) = false) :
    Matches ⟨Function.update c.loc i (.removTail (some p) n),
      { c.sh with next := Function.update c.sh.next p (c.sh.next n) }⟩
      (Function.update A i (.done true)) (pre ++ p :: post) root := by
  have hsub : ∀ m ∈ pre ++ p :: post, m ∈ pre ++ p :: n :: post := by
    intro m hm
    simp only [List.mem_append, List.mem_cons] at hm ⊢
    tauto
  have hn : n ∉ pre ++ p :: post := by
    have hnodup := hM.chain.nodup
    rw [List.append_cons, List.nodup_middle] at hnodup
    simpa using (List.nodup_cons.mp hnodup).1
  refine hM.move hM.chain.unlink (fun m hm => hM.allocated m (hsub m hm)) ?_ ?_ ?_ rfl ?_ ?_
  · rintro m ⟨⟩
    exact ⟨hM.allocated n (by simp), hn⟩
  · rintro m ⟨⟩ j _ hj
    exact hM.ne_of_mem (n := n) (by simp) hj rfl
  · intro j _ m hm
    exact ⟨(hM.owned j m hm).1, fun hmem => (hM.owned j m hm).2 (hsub m hmem)⟩
  · intro j hj
    refine (hM.place j).outside (hS j hj) (hI j hj) fun m hm => ?_
    exact Function.update_of_ne (hM.ne_of_mem (by simp) hm) _ _
  · intro hothers _
    exact hM.root_eq hset hothers

/-- `free(cur)`. -/
theorem Matches.free (hM : Matches c A l root) (hpc : c.loc i = .removFree n) :
    Matches ⟨Function.update c.loc i .removReport, c.sh.free n⟩ (Function.update A i (.done true)) l
      root := by
  have hi : owns (c.loc i) = some n := by
    rw [hpc]
    rfl
  refine hM.move hM.chain ?_ (by rintro m ⟨⟩) (by rintro m ⟨⟩) ?_ rfl (fun j _ => hM.place j) ?_
  · intro m hm
    refine (Function.update_of_ne ?_ _ _).trans (hM.allocated m hm)
    exact ne_of_mem_of_not_mem hm (hM.owned i n hi).2
  · intro j hj m hm
    refine ⟨(Function.update_of_ne ?_ _ _).trans (hM.owned j m hm).1, (hM.owned j m hm).2⟩
    exact hM.ne_of_owns hi hj hm
  · intro hothers _
    exact hM.root_eq (by rw [hpc]; rfl) hothers

end Matches

/-! ## The atomic list follows the code -/

section Follows

variable {ι : Type} {c : Conf ι Pc (Shared ι)} {a a₁ : Conf ι Status (Atomic ι)} {A : ι → Status}
  {l : List ℕ} {root : Ptr} {i : ι} {x val n : ℕ} {pc' : Pc} {s' : Shared ι} {op : Op} {r : Bool}
  {st : Status}

/-- The atomic list has the contents of the list in memory, and the same history. -/
def View (c : Conf ι Pc (Shared ι)) (a : Conf ι Status (Atomic ι)) : Prop :=
  ∃ l root, Matches c a.loc l root ∧ a.sh.contents = l.map c.sh.data ∧ a.sh.history = c.sh.history

variable [DecidableEq ι]

/-- Some moves take the atomic list to where the code is. -/
def CatchesUp (a : Conf ι Status (Atomic ι)) (c : Conf ι Pc (Shared ι)) : Prop :=
  ∃ as a', a.moves atomic as = some a' ∧ View c a'

theorem CatchesUp.after (hm : a.move atomic i op = some a₁) (h : CatchesUp a₁ c) : CatchesUp a c := by
  obtain ⟨as, a', has, hV⟩ := h
  refine ⟨(i, op) :: as, a', ?_, hV⟩
  rw [Conf.moves, hm]
  exact has

theorem catchesUp_stay (hst : a.loc i = st) (hM : Matches c (Function.update a.loc i st) l root)
    (hcontents : a.sh.contents = l.map c.sh.data) (hhistory : a.sh.history = c.sh.history) :
    CatchesUp a c := by
  rw [← hst, Function.update_eq_self] at hM
  exact ⟨[], a, rfl, l, root, hM, hcontents, hhistory⟩

theorem catchesUp_effect (hst : a.loc i = .pending op) (hresult : op.result a.sh.contents = r)
    (hM : Matches c (Function.update a.loc i (.done r)) l root)
    (hcontents : op.apply a.sh.contents = l.map c.sh.data) (hhistory : a.sh.history = c.sh.history) :
    CatchesUp a c := by
  have hmove : a.move atomic i op =
      some ⟨Function.update a.loc i (.done r), op.apply a.sh.contents, a.sh.history⟩ :=
    Conf.move_eq_some_iff.mpr ⟨_, _, by rw [hst, ← hresult]; rfl, rfl⟩
  exact CatchesUp.after hmove ⟨[], _, rfl, l, root, hM, hcontents, hhistory⟩

theorem atomic_enter (hst : a.loc i = .idle) (op : Op) :
    a.move atomic i op = some ⟨Function.update a.loc i (.pending op), a.sh.contents,
      a.sh.history ++ [.enter i op]⟩ :=
  Conf.move_eq_some_iff.mpr ⟨_, _, by rw [hst]; rfl, rfl⟩

theorem catchesUp_enter (op : Op) (hst : a.loc i = .idle)
    (hM : Matches c (Function.update a.loc i (.pending op)) l root)
    (hcontents : a.sh.contents = l.map c.sh.data)
    (hhistory : a.sh.history ++ [.enter i op] = c.sh.history) : CatchesUp a c :=
  CatchesUp.after (atomic_enter hst op) ⟨[], _, rfl, l, root, hM, hcontents, hhistory⟩

/-- The call takes effect at once. -/
theorem catchesUp_enter_effect (op : Op) (hst : a.loc i = .idle) (hresult : op.result a.sh.contents = r)
    (hM : Matches c (Function.update a.loc i (.done r)) l root)
    (hcontents : op.apply a.sh.contents = l.map c.sh.data)
    (hhistory : a.sh.history ++ [.enter i op] = c.sh.history) : CatchesUp a c := by
  rw [← Function.update_idem (.pending op)] at hM
  exact CatchesUp.after (atomic_enter hst op)
    (catchesUp_effect (Function.update_self ..) hresult hM hcontents hhistory)

theorem catchesUp_leave (hst : a.loc i = .done r)
    (hM : Matches c (Function.update a.loc i .idle) l root)
    (hcontents : a.sh.contents = l.map c.sh.data)
    (hhistory : a.sh.history ++ [.leave i r] = c.sh.history) : CatchesUp a c := by
  have hmove : a.move atomic i (.find 0) =
      some ⟨Function.update a.loc i .idle, a.sh.contents, a.sh.history ++ [.leave i r]⟩ :=
    Conf.move_eq_some_iff.mpr ⟨_, _, by rw [hst]; rfl, rfl⟩
  exact CatchesUp.after hmove ⟨[], _, rfl, l, root, hM, hcontents, hhistory⟩

variable [Fintype ι]

theorem find_catchesUp (hS : SemInv c) (hV : View c a) (hok : c.sh.fresh (c.loc i) = true)
    (h : find i x (c.loc i) c.sh = some (pc', s')) :
    CatchesUp a ⟨Function.update c.loc i pc', s'⟩ := by
  obtain ⟨l, root, hM, hcontents, hhistory⟩ := hV
  have hplace := hM.place i
  cases hpc : c.loc i with
  | find =>
    rw [hpc] at h hplace
    cases h
    exact catchesUp_stay hplace (hM.quiet hpc rfl rfl rfl rfl rfl rfl rfl)
      hcontents hhistory
  | findWait val tmp =>
    rw [hpc] at h hplace hok
    obtain ⟨v, hv, hq⟩ := Option.map_eq_some_iff.mp h
    cases hq
    have hhead : tmp = l.head? := by
      rw [← hM.chain.eq_head?, hM.root (hS.settingHead_of_free hv)]
      exact of_decide_eq_true hok
    cases tmp with
    | none =>
      have hnil : l = [] := List.head?_eq_none_iff.mp hhead.symm
      refine catchesUp_enter_effect (.find val) hplace ?_
        (hM.quiet hpc rfl rfl rfl rfl rfl rfl rfl) hcontents ?_
      · rw [hcontents, hnil]
        rfl
      · rw [hhistory]
        rfl
    | some n =>
      refine catchesUp_enter (.find val) hplace
        (hM.quiet hpc rfl rfl rfl rfl rfl rfl ⟨rfl, notBefore_of_head? hhead.symm⟩) hcontents ?_
      rw [hhistory]
      rfl
  | findLoop val tmp =>
    rw [hpc] at h hplace
    cases tmp with
    | none =>
      cases h
      exact catchesUp_stay hplace (hM.quiet hpc rfl rfl rfl rfl rfl rfl rfl)
        hcontents hhistory
    | some n =>
      obtain ⟨hst, hn⟩ := hplace
      by_cases hval : c.sh.data n = val
      · simp only [find, if_pos hval] at h
        cases h
        refine catchesUp_effect hst ?_
          (hM.quiet hpc rfl rfl rfl rfl rfl rfl rfl) hcontents hhistory
        simpa [Op.result, hcontents] using ⟨n, hn.mem, hval⟩
      · simp only [find, if_neg hval] at h
        cases h
        exact catchesUp_stay hst (hM.quiet hpc rfl rfl rfl rfl rfl rfl
          ⟨rfl, hn, hval⟩) hcontents hhistory
  | findNext val n =>
    rw [hpc] at h hplace
    cases h
    obtain ⟨hst, hn, hval⟩ := hplace
    rcases hn.advance hval hM.chain with ⟨hnext, hall⟩ | ⟨d, hnext, hd⟩
    · rw [hnext]
      refine catchesUp_effect hst ?_
        (hM.quiet hpc rfl rfl rfl rfl rfl rfl rfl) hcontents hhistory
      simpa [Op.result, hcontents] using hall
    · rw [hnext]
      exact catchesUp_stay hst (hM.quiet hpc rfl rfl rfl rfl rfl rfl
        ⟨rfl, hd.notBefore⟩) hcontents hhistory
  | findPost found =>
    rw [hpc] at h hplace
    cases h
    refine catchesUp_leave hplace
      (hM.quiet hpc rfl rfl rfl rfl rfl rfl rfl) hcontents ?_
    rw [hhistory]
    rfl
  | _ =>
    rw [hpc] at h
    cases h

theorem create_catchesUp (hS : SemInv c) (hV : View c a)
    (h : create i x (c.loc i) c.sh = some (pc', s')) :
    CatchesUp a ⟨Function.update c.loc i pc', s'⟩ := by
  obtain ⟨l, root, hM, hcontents, hhistory⟩ := hV
  have hplace := hM.place i
  cases hpc : c.loc i with
  | create =>
    rw [hpc] at h hplace
    simp only [create] at h
    split_ifs at h with halloc
    cases h
    exact catchesUp_stay hplace (hM.malloc hpc (by simpa using halloc)) hcontents hhistory
  | createInit n =>
    rw [hpc] at h hplace
    cases h
    refine catchesUp_stay hplace (hM.store (n := n) (by rw [hpc]; rfl) (by rw [hpc]; rfl) ?_
      (fun _ _ => rfl) rfl ⟨rfl, Function.update_self ..⟩) hcontents hhistory
    exact fun m hm => Function.update_of_ne hm _ _
  | createData n val =>
    rw [hpc] at h hplace
    cases h
    refine catchesUp_stay hplace.1 (hM.store (n := n) (by rw [hpc]; rfl) (by rw [hpc]; rfl)
      (fun _ _ => rfl) ?_ rfl ⟨rfl, Function.update_self .., hplace.2⟩) ?_ hhistory
    · exact fun m hm => Function.update_of_ne hm _ _
    -- the new node is not in the list
    rw [hcontents]
    refine List.map_congr_left fun m hm => ?_
    have hn := (hM.owned i n (by rw [hpc]; rfl)).2
    exact (Function.update_of_ne (ne_of_mem_of_not_mem hm hn) _ _).symm
  | createWait1 n val =>
    rw [hpc] at h hplace
    obtain ⟨v, -, hq⟩ := Option.map_eq_some_iff.mp h
    cases hq
    exact catchesUp_stay hplace.1 (hM.quiet hpc rfl rfl rfl rfl rfl rfl
      ⟨rfl, hplace.2⟩) hcontents hhistory
  | createWait2 n val =>
    rw [hpc] at h hplace
    obtain ⟨v, -, hq⟩ := Option.map_eq_some_iff.mp h
    cases hq
    refine catchesUp_enter (.create val) hplace.1
      (hM.quiet hpc rfl rfl rfl rfl rfl rfl ⟨rfl, hplace.2⟩) hcontents ?_
    rw [hhistory]
    rfl
  | createTest n val =>
    have hroot := hM.root_eq_head hS (i := i) (by rw [hpc]; exact .inr rfl) (by rw [hpc]; rfl)
    have hhead : c.sh.head = l.head? := hroot ▸ hM.chain.eq_head?
    rw [hpc] at h hplace
    cases l with
    | nil =>
      simp only [create, hhead, List.head?_nil] at h
      cases h
      exact catchesUp_stay hplace.1 (hM.quiet hpc rfl rfl rfl rfl rfl rfl
        ⟨⟨rfl, hplace.2⟩, rfl⟩) hcontents hhistory
    | cons first rest =>
      simp only [create, hhead, List.head?_cons] at h
      cases h
      exact catchesUp_stay hplace.1 (hM.quiet hpc rfl rfl rfl rfl rfl rfl
        ⟨⟨rfl, hplace.2⟩, List.mem_cons_self⟩) hcontents hhistory
  | createSetHead n val =>
    have hI := hS.others_noInserter (i := i) (by rw [hpc]; rfl)
    have hown : owns (c.loc i) = some n := by
      rw [hpc]
      rfl
    rw [hpc] at h hplace
    cases h
    obtain ⟨⟨hst, hval, hnext⟩, rfl⟩ := hplace
    refine catchesUp_effect hst rfl (hM.append hown hI ⟨rfl, hnext⟩ rfl rfl (fun _ _ => rfl) rfl) ?_
      hhistory
    simp [Op.apply, hcontents, hval]
  | createWalk n val cur =>
    rw [hpc] at h hplace
    obtain ⟨⟨hst, hnew⟩, hcur⟩ := hplace
    obtain ⟨pre, post, rfl⟩ := List.append_of_mem hcur
    have hnext := hM.chain.next_eq
    cases post with
    | nil =>
      simp only [create, hnext, List.head?_nil] at h
      cases h
      exact catchesUp_stay hst (hM.quiet hpc rfl rfl rfl rfl rfl rfl
        ⟨⟨rfl, hnew⟩, pre, rfl⟩) hcontents hhistory
    | cons d post =>
      simp only [create, hnext, List.head?_cons] at h
      cases h
      exact catchesUp_stay hst (hM.quiet hpc rfl rfl rfl rfl rfl rfl
        ⟨⟨rfl, hnew⟩, by simp⟩) hcontents hhistory
  | createLink n val cur =>
    have hI := hS.others_noInserter (i := i) (by rw [hpc]; rfl)
    have hroot := hM.root_eq_head hS (i := i) (by rw [hpc]; exact .inr rfl) (by rw [hpc]; rfl)
    have hown : owns (c.loc i) = some n := by
      rw [hpc]
      rfl
    rw [hpc] at h hplace
    cases h
    obtain ⟨⟨hst, hval, hnext⟩, pre, rfl⟩ := hplace
    refine catchesUp_effect hst rfl (hM.append hown hI (hM.chain.link (hM.owned i n hown).2 hnext) rfl
      rfl (fun m hm => ?_) hroot) ?_ hhistory
    · exact Function.update_of_ne (ne_of_mem_of_not_mem (List.mem_append_right _ List.mem_cons_self)
        hm).symm _ _
    · simp [Op.apply, hcontents, hval]
  | createReport =>
    have hroot := hM.root_eq_head hS (i := i) (by rw [hpc]; exact .inr rfl) (by rw [hpc]; rfl)
    have hhead : c.sh.head = l.head? := hroot ▸ hM.chain.eq_head?
    rw [hpc] at h hplace
    cases h
    exact catchesUp_stay hplace (hM.quiet hpc rfl rfl rfl rfl rfl rfl
      ⟨rfl, fun m hm => List.mem_of_mem_head? (hhead ▸ hm)⟩) hcontents hhistory
  | createPrint cur =>
    rw [hpc] at h hplace
    cases cur with
    | none =>
      cases h
      exact catchesUp_stay hplace.1 (hM.quiet hpc rfl rfl rfl rfl rfl rfl
        rfl) hcontents hhistory
    | some n =>
      cases h
      exact catchesUp_stay hplace.1 (hM.quiet hpc rfl rfl rfl rfl rfl rfl
        ⟨rfl, hM.chain.next_mem (hplace.2 n rfl)⟩) hcontents hhistory
  | createPost1 =>
    rw [hpc] at h hplace
    cases h
    refine catchesUp_leave hplace
      (hM.quiet hpc rfl rfl rfl rfl rfl rfl rfl) hcontents ?_
    rw [hhistory]
    rfl
  | createPost2 =>
    rw [hpc] at h hplace
    cases h
    exact catchesUp_stay hplace (hM.quiet hpc rfl rfl rfl rfl rfl rfl rfl)
      hcontents hhistory
  | _ =>
    rw [hpc] at h
    cases h

/-- `remov` takes the first of the nodes with the value out of the list. -/
theorem erase_map_data {data : ℕ → ℕ} {pre : List ℕ} (hpre : ∀ m ∈ pre, data m ≠ val)
    (hn : data n = val) (post : List ℕ) :
    ((pre ++ n :: post).map data).erase val = (pre ++ post).map data := by
  have hnot : val ∉ pre.map data := by simpa using hpre
  rw [List.map_append, List.erase_append_right _ hnot, List.map_cons, hn, List.erase_cons_head,
    List.map_append]

theorem remov_catchesUp (hS : SemInv c) (hV : View c a) (hok : c.sh.fresh (c.loc i) = true)
    (h : remov i x (c.loc i) c.sh = some (pc', s')) :
    CatchesUp a ⟨Function.update c.loc i pc', s'⟩ := by
  obtain ⟨l, root, hM, hcontents, hhistory⟩ := hV
  have hplace := hM.place i
  have hhead : removing (c.loc i) = true → settingHead (c.loc i) = false → c.sh.head = l.head? := by
    intro hr hset
    rw [← hM.root_eq_head hS (.inl (removing_has hr).1) hset]
    exact hM.chain.eq_head?
  cases hpc : c.loc i with
  | remov =>
    rw [hpc] at h hplace
    cases h
    exact catchesUp_stay hplace (hM.quiet hpc rfl rfl rfl rfl rfl rfl rfl) hcontents hhistory
  | removWait1 val cur =>
    rw [hpc] at h hplace
    obtain ⟨v, -, hq⟩ := Option.map_eq_some_iff.mp h
    cases hq
    exact catchesUp_stay hplace (hM.quiet hpc rfl rfl rfl rfl rfl rfl rfl) hcontents hhistory
  | removWait2 val cur =>
    rw [hpc] at h hplace
    obtain ⟨v, -, hq⟩ := Option.map_eq_some_iff.mp h
    cases hq
    refine catchesUp_enter (.remov val) hplace (hM.quiet hpc rfl rfl rfl rfl rfl rfl rfl) hcontents ?_
    rw [hhistory]
    rfl
  | removTest val cur =>
    rw [hpc] at h hplace hok hhead
    replace hhead := hhead rfl rfl
    cases l with
    | nil =>
      simp only [remov, hhead, List.head?_nil] at h
      cases h
      have hcur : cur = none := by simpa [Shared.fresh, Shared.headIs, hhead] using hok
      rw [hcur]
      exact catchesUp_stay hplace (hM.quiet hpc rfl rfl rfl rfl rfl rfl ⟨rfl, by simp⟩) hcontents
        hhistory
    | cons first rest =>
      simp only [remov, hhead, List.head?_cons] at h
      by_cases hval : c.sh.data first = val
      · rw [if_pos hval] at h
        cases h
        exact catchesUp_stay hplace (hM.quiet hpc rfl rfl rfl rfl rfl rfl
          ⟨rfl, first, rest, rfl, hval⟩) hcontents hhistory
      · rw [if_neg hval] at h
        cases h
        have hcur : cur = some first := by
          simpa [Shared.fresh, Shared.headIs, hhead, hval] using hok
        rw [hcur]
        exact catchesUp_stay hplace (hM.quiet hpc rfl rfl rfl rfl rfl rfl ⟨rfl, .inl ⟨rfl, hval⟩⟩)
          hcontents hhistory
  | removNext val =>
    rw [hpc] at h hplace hhead
    replace hhead := hhead rfl rfl
    obtain ⟨hst, first, rest, rfl, hval⟩ := hplace
    simp only [remov, hhead, List.head?_cons, Option.map_some] at h
    cases h
    exact catchesUp_stay hst (hM.quiet hpc rfl rfl rfl rfl rfl rfl
      ⟨rfl, first, rest, rfl, hval, hM.chain.2.eq_head?⟩) hcontents hhistory
  | removFreeHead val tmp =>
    have hS' := hS.others_noSearcher (i := i) (by rw [hpc]; rfl)
    have hI' := hS.others_noInserter (i := i) (by rw [hpc]; rfl)
    rw [hpc] at h hplace hhead
    replace hhead := hhead rfl rfl
    obtain ⟨hst, first, rest, rfl, hval, htmp⟩ := hplace
    simp only [remov, hhead, List.head?_cons, Option.map_some] at h
    cases h
    refine catchesUp_effect hst ?_ (hM.freeHead htmp hS' hI') ?_ hhistory
    · simp [Op.result, hcontents, hval]
    · rw [hcontents]
      exact erase_map_data (List.forall_mem_nil _) hval rest
  | removSetHead tmp =>
    rw [hpc] at h hplace
    cases h
    exact catchesUp_stay hplace.1 (hM.setHead hpc) hcontents hhistory
  | removLoop val prev cur =>
    rw [hpc] at h hplace
    cases cur with
    | none =>
      cases h
      have hnot : val ∉ a.sh.contents := by
        rw [hcontents]
        simpa using hplace.2
      refine catchesUp_effect hplace.1 ?_ (hM.quiet hpc rfl rfl rfl rfl rfl rfl rfl) ?_ hhistory
      · simpa [Op.result] using hnot
      · rw [← hcontents]
        exact List.erase_of_not_mem hnot
    | some n =>
      obtain ⟨hst, hn⟩ := hplace
      by_cases hval : c.sh.data n = val
      · simp only [remov, if_pos hval] at h
        cases h
        -- the first node has been tested before the loop
        have hprec : Preceded c.sh.data l val prev n := by
          rcases hn with ⟨-, hne⟩ | hprec
          · exact absurd hval hne
          · exact hprec
        exact catchesUp_stay hst (hM.quiet hpc rfl rfl rfl rfl rfl rfl ⟨rfl, hprec, hval⟩) hcontents
          hhistory
      · simp only [remov, if_neg hval] at h
        cases h
        have hnb : NotBefore c.sh.data l val n := by
          rcases hn with ⟨hfirst, -⟩ | hprec
          · exact notBefore_of_head? hfirst
          · exact hprec.notBefore
        exact catchesUp_stay hst (hM.quiet hpc rfl rfl rfl rfl rfl rfl ⟨rfl, hnb, hval⟩) hcontents
          hhistory
  | removUnlink val prev n =>
    have hS' := hS.others_noSearcher (i := i) (by rw [hpc]; rfl)
    have hI' := hS.others_noInserter (i := i) (by rw [hpc]; rfl)
    have hset : settingHead (c.loc i) = false := by
      rw [hpc]
      rfl
    rw [hpc] at h hplace
    obtain ⟨hst, ⟨pre, p, post, rfl, rfl, hpre⟩, hval⟩ := hplace
    cases h
    refine catchesUp_effect hst ?_ (hM.unlink hset hS' hI') ?_ hhistory
    · simp [Op.result, hcontents, hval]
    · have herase := erase_map_data hpre hval post
      simp only [List.append_assoc, List.singleton_append] at herase
      rw [hcontents]
      exact herase
  | removTail prev n =>
    rw [hpc] at h hplace
    cases h
    refine catchesUp_stay hplace (hM.quiet hpc ?_ ?_ ?_ ?_ rfl rfl rfl) ?_ ?_
    all_goals split_ifs <;> first | rfl | assumption
  | removFree n =>
    rw [hpc] at h hplace
    cases h
    exact catchesUp_stay hplace (hM.free hpc) hcontents hhistory
  | removAdvance val n =>
    rw [hpc] at h hplace
    cases h
    obtain ⟨hst, hn, hval⟩ := hplace
    rcases hn.advance hval hM.chain with ⟨hnext, hall⟩ | ⟨d, hnext, hd⟩
    · rw [hnext]
      exact catchesUp_stay hst (hM.quiet hpc rfl rfl rfl rfl rfl rfl ⟨rfl, hall⟩) hcontents hhistory
    · rw [hnext]
      exact catchesUp_stay hst (hM.quiet hpc rfl rfl rfl rfl rfl rfl ⟨rfl, .inr hd⟩) hcontents hhistory
  | removReport =>
    rw [hpc] at h hplace hhead
    cases h
    exact catchesUp_stay hplace (hM.quiet hpc rfl rfl rfl rfl rfl rfl
      ⟨rfl, fun m hm => List.mem_of_mem_head? (hhead rfl rfl ▸ hm)⟩) hcontents hhistory
  | removPrint cur =>
    rw [hpc] at h hplace
    cases cur with
    | none =>
      cases h
      exact catchesUp_stay hplace.1 (hM.quiet hpc rfl rfl rfl rfl rfl rfl rfl) hcontents hhistory
    | some n =>
      cases h
      exact catchesUp_stay hplace.1 (hM.quiet hpc rfl rfl rfl rfl rfl rfl
        ⟨rfl, hM.chain.next_mem (hplace.2 n rfl)⟩) hcontents hhistory
  | removPost1 found =>
    rw [hpc] at h hplace
    cases h
    refine catchesUp_leave hplace (hM.quiet hpc rfl rfl rfl rfl rfl rfl rfl) hcontents ?_
    rw [hhistory]
    rfl
  | removPost2 =>
    rw [hpc] at h hplace
    cases h
    exact catchesUp_stay hplace (hM.quiet hpc rfl rfl rfl rfl rfl rfl rfl) hcontents hhistory
  | _ =>
    rw [hpc] at h
    cases h

theorem threads_catchesUp {role : ι → Role} (hS : SemInv c) (hV : View c a)
    (hok : c.sh.fresh (c.loc i) = true) (h : threads role i x (c.loc i) c.sh = some (pc', s')) :
    CatchesUp a ⟨Function.update c.loc i pc', s'⟩ := by
  unfold threads at h
  split at h
  · exact find_catchesUp hS hV hok h
  · exact create_catchesUp hS hV h
  · exact remov_catchesUp hS hV hok h

end Follows

/-! ## Linearizability -/

section Linearizable

variable {ι : Type} [Fintype ι] {c : Conf ι Pc (Shared ι)} {a : Conf ι Status (Atomic ι)}

/-- The semaphores are in order, and the atomic list is the one in memory. -/
def Related (c : Conf ι Pc (Shared ι)) (a : Conf ι Status (Atomic ι)) : Prop := SemInv c ∧ View c a

theorem related_start (role : ι → Role) : Related (start role) (atomicStart ι) := by
  have hbegin : ∀ r : Role, owns r.begin = none ∧
      Local (fun _ => 0) (fun _ => none) [] none .idle r.begin := by
    intro r
    cases r <;> exact ⟨rfl, rfl⟩
  have hnone : ∀ (i : ι) (n : ℕ), owns (role i).begin ≠ some n := by
    intro i n h
    rw [(hbegin (role i)).1] at h
    cases h
  refine ⟨semInv_start role, [], none, ⟨rfl, by simp, ?_, ?_, ?_, fun _ => rfl⟩, rfl, rfl⟩
  · exact fun i n h => absurd h (hnone i n)
  · exact fun i _ n h _ => absurd h (hnone i n)
  · exact fun i => (hbegin (role i)).2

theorem related_simulation [DecidableEq ι] (role : ι → Role) :
    Simulation (threads role) (· = start role) FreshHead atomic (· = atomicStart ι) Related where
  init := by
    rintro c rfl
    exact ⟨atomicStart ι, rfl, related_start role⟩
  move := by
    rintro c a i x c' ⟨hS, hV⟩ hok hm
    obtain ⟨pc', s', hp, rfl⟩ := Conf.move_eq_some_iff.mp hm
    obtain ⟨as, a', has, hV'⟩ := threads_catchesUp hS hV hok hp
    exact ⟨as, a', has, hS.step (threads_balanced hp), hV'⟩

theorem Related.agrees (h : Related c a) : Agrees c a := by
  obtain ⟨-, l, root, hM, hcontents, hhistory⟩ := h
  refine ⟨hhistory, fun hset => ⟨l, ?_, hcontents⟩, fun i tmp hpc => ⟨l, ?_, hcontents⟩⟩
  · rw [← hM.root hset]
    exact hM.chain
  · have hplace := hM.place i
    rw [hpc] at hplace
    rw [← hplace.2]
    exact hM.chain

theorem Related.visitsList (h : Related c a) : VisitsList c := by
  obtain ⟨hS, l, root, hM, -, -⟩ := h
  intro i n hn
  obtain ⟨hhas, hset⟩ := visits_has hn
  have hroot := hM.root_eq_head hS hhas hset
  rw [← hroot] at hn ⊢
  have hmem := (hM.place i).visits_mem hM.chain n hn
  exact ⟨hM.allocated n hmem, l, hM.chain, hmem⟩

end Linearizable

/-- **Linearizability**: in every run in which the walks start from the `lst->head` of the moment, the
atomic list follows the code step by step, with the contents of the list and the same history, and
every node that a thread visits is in the list and has not been freed. -/
theorem linearizable_of_freshHead {ι : Type} [Fintype ι] [DecidableEq ι] (role : ι → Role) :
    ∃ R, Simulation (threads role) (· = start role) FreshHead atomic (· = atomicStart ι) R ∧
      (∀ c, Reach (threads role) (· = start role) FreshHead c →
        ∃ a, Reach atomic (· = atomicStart ι) anyMove a ∧ R c a) ∧
      ∀ c a, R c a → Agrees c a ∧ VisitsList c :=
  ⟨Related, related_simulation role, fun _ h => (related_simulation role).reach h,
    fun _ _ h => ⟨h.agrees, h.visitsList⟩⟩

/-- The inserter puts the value `5` in node `0`. -/
def createFive : List (Role × ℕ) :=
  (.inserter, 0) :: (.inserter, 4) :: List.replicate 10 (.inserter, 0)

/-- One call after the other, the value is found and removed; so it is in the atomic list, which is
empty at the end. -/
theorem linearizable_one_value : ∃ c a, Reach (threads (id : Role → Role)) (· = start id) FreshHead c ∧
    Reach atomic (· = atomicStart Role) anyMove a ∧ c.sh.head = none ∧ a.sh.contents = [] ∧
    a.sh.history = [.enter .inserter (.create 5), .leave .inserter true,
      .enter .searcher (.find 5), .leave .searcher true,
      .enter .deleter (.remov 5), .leave .deleter true] := by
  obtain ⟨c, hc, hP⟩ := @exists_reach _ _ _ _ _ (threads id) (· = start id) FreshHead
    (start id) _ rfl (createFive ++ (.searcher, 4) :: List.replicate 3 (.searcher, 0) ++
      (.deleter, 4) :: List.replicate 10 (.deleter, 0))
    (fun c => c.sh.head = none ∧ (∀ i, settingHead (c.loc i) = false) ∧
      c.sh.history = [.enter .inserter (.create 5), .leave .inserter true,
        .enter .searcher (.find 5), .leave .searcher true,
        .enter .deleter (.remov 5), .leave .deleter true]) (by decide +kernel)
  obtain ⟨hhead, hset, hhistory⟩ := of_decide_eq_true hP
  obtain ⟨R, -, hreach, hR⟩ := linearizable_of_freshHead (id : Role → Role)
  obtain ⟨a, ha, hca⟩ := hreach c hc
  obtain ⟨hagrees, -⟩ := hR c a hca
  obtain ⟨l, hl, hcontents⟩ := hagrees.contents hset
  obtain rfl : l = [] := by
    rw [hhead] at hl
    exact List.head?_eq_none_iff.mp hl.eq_head?.symm
  exact ⟨c, a, hc, ha, hhead, hcontents, hagrees.history.trans hhistory⟩

/-- With one thread of each kind, the searcher loads the head before the deleter frees it, and then
walks into the freed node. And it loads the null pointer before the inserter puts `5` in the list, and
then reports that `5` is not there, although the only call before its own has inserted it. -/
theorem stale_head_not_linearizable :
    (¬ ∃ R, Simulation (threads (id : Role → Role)) (· = start id) anyMove atomic
      (· = atomicStart Role) R ∧ ∀ c a, R c a → Agrees c a ∧ VisitsList c) ∧
    ∃ c, Reach (threads (id : Role → Role)) (· = start id) anyMove c ∧ c.sh.head = some 0 ∧
      c.sh.data 0 = 5 ∧ c.sh.history = [.enter .inserter (.create 5), .leave .inserter true,
        .enter .searcher (.find 5), .leave .searcher false] := by
  constructor
  · rintro ⟨R, hsim, hR⟩
    obtain ⟨c, hc, hP⟩ := @exists_reach _ _ _ _ _ (threads id) (· = start id) anyMove
      (start id) _ rfl (createFive ++ (.searcher, 4) :: (.deleter, 4) ::
        List.replicate 10 (.deleter, 0) ++ [(.searcher, 0)])
      (fun c => c.loc .searcher = .findLoop 5 (some 0) && c.sh.allocated 0 = false) (by decide +kernel)
    simp only [Bool.and_eq_true, decide_eq_true_eq] at hP
    obtain ⟨a, -, ha⟩ := hsim.reach hc
    have hvisit := ((hR c a ha).2 .searcher 0 (by rw [hP.1]; exact List.mem_cons_self)).1
    rw [hP.2] at hvisit
    cases hvisit
  · obtain ⟨c, hc, hP⟩ := @exists_reach _ _ _ _ _ (threads id) (· = start id) anyMove
      (start id) _ rfl ((.searcher, 4) :: createFive ++ List.replicate 3 (.searcher, 0))
      (fun c => c.sh.head = some 0 && c.sh.data 0 = 5 && c.sh.history =
        [.enter .inserter (.create 5), .leave .inserter true, .enter .searcher (.find 5),
          .leave .searcher false]) (by decide +kernel)
    simp only [Bool.and_eq_true, decide_eq_true_eq] at hP
    exact ⟨c, hc, hP.1.1, hP.1.2, hP.2⟩

end Cs444.SharedList
