import Cs444.Slob.Alloc
import Cs444.Slob.Free

/-!
# Runs of the allocator

The allocator together with the blocks its callers hold (`Sys`). A step is a call of `slob_alloc`
or `slob_free` (`exec`, legal calls only), or anything the rest of the kernel does between two
calls (`Outside`): it writes to the blocks it holds and to pages that are not slab pages.

`reachable_inv`: every reachable state represents a heap, and `pages` counts its pages.
-/

namespace Cs444.Slob

variable (A : Arch)

/-- The allocator and the live blocks. -/
structure Sys where
  st : State
  live : List Live

/-- A call, with what the page allocator answers should it be asked. -/
inductive Call
  | alloc (size : ℕ) (gfp : Gfp) (align : ℕ) (node : Option ℕ) (src : PageSource)
  | free (b : Live)

/-- The page allocator hands out page frames that are not slab pages. -/
def Fresh (s : State) (src : PageSource) (node : Option ℕ) : Prop :=
  ∀ p ∈ slobNewPages A src node, (s.page p).slab = false ∧ 0 < p ∧ p < A.maxPfn

/-- What callers promise: sizes below a page, and frees of live blocks with their own size. -/
def Legal (y : Sys) : Call → Prop
  | .alloc size _ _ node src => 0 < size ∧ size < A.PAGE_SIZE ∧ Fresh A y.st src node
  | .free b => b ∈ y.live

/-- The state after a call, `none` when the call does not return. -/
def exec (y : Sys) : Call → Option Sys
  | .alloc size gfp align node src =>
    (slobAlloc A y.st size gfp align node src).map fun r =>
      ⟨r.1, (r.2.map fun addr => ⟨addr, size⟩).toList ++ y.live⟩
  | .free b => (slobFree A y.st b.addr b.size).map fun s => ⟨s, y.live.erase b⟩

/-- One step of the system. -/
inductive Step : Sys → Sys → Prop
  | call {y y' : Sys} (c : Call) (hlegal : Legal A y c) (hexec : exec A y c = some y') : Step y y'
  | outside {y : Sys} {s' : State} (ho : Outside A y.st y.live s')
      (hpages : s'.pages = y.st.pages) : Step y ⟨s', y.live⟩

/-- The state at boot: empty lists and no slab page. -/
structure Initial (s : State) : Prop where
  slab : ∀ p, (s.page p).slab = false
  heads : ∀ c, s.links.next (.head c) = .head c ∧ s.links.prev (.head c) = .head c
  pages : s.pages = 0

/-- The states of all runs. -/
def Reachable (y : Sys) : Prop :=
  ∃ s₀, Initial s₀ ∧ Relation.ReflTransGen (Step A) ⟨s₀, []⟩ y

/-- The state represents a heap, and `pages` counts its pages. -/
def Inv (y : Sys) : Prop := ∃ v, Rep A y.st y.live v ∧ y.st.pages = v.held.card

variable {A} {y y' : Sys} {s s' : State} {live : List Live} {v : View}

/-! ## One call -/

theorem Rep.card_held_le (h : Rep A s live v) : v.held.card ≤ A.maxPfn := by
  have hsub : v.held ⊆ Finset.range A.maxPfn := by
    intro p hp
    exact Finset.mem_range.mpr (h.frame p hp).2
  simpa using Finset.card_le_card hsub

/-- There are fewer pages than the counter can count. -/
theorem Rep.card_held_lt (h : Rep A s live v) : v.held.card < 2 ^ A.wordBits := by
  have h₁ := h.card_held_le
  have h₂ : 2 ^ (A.wordBits - A.pageShift) ≤ 2 ^ A.wordBits :=
    Nat.pow_le_pow_right (by norm_num) (Nat.sub_le ..)
  have h₃ : 0 < 2 ^ (A.wordBits - A.pageShift) := Nat.two_pow_pos _
  unfold Arch.maxPfn at h₁
  omega

theorem Rep.not_mem_held (h : Rep A s live v) {p : ℕ} (hp : (s.page p).slab = false) :
    p ∉ v.held := by
  rw [h.held, hp]
  exact Bool.false_ne_true

/-- What a legal `slob_alloc` that returns can have done. -/
theorem Rep.slobAlloc_cases (h : Rep A s live v) {size align : ℕ} {gfp : Gfp} {node : Option ℕ}
    {src : PageSource} {r : Option ℕ} (hpos : 0 < size) (hlt : size < A.PAGE_SIZE)
    (hfresh : Fresh A s src node) (he : slobAlloc A s size gfp align node src = some (s', r)) :
    (r = none ∧ s' = s) ∨
      ∃ p addr v', r = some addr ∧ Allocated A s live size align p addr s' v' ∧
        (servedPage A s size align node (v.ls (slobList size)) = some p ∧
            v'.held = v.held ∧ s'.pages = s.pages ∨
          slobNewPages A src node = some p ∧ p ∉ v.held ∧
            v'.held = insert p v.held ∧ s'.pages = (s.pages + 1) % 2 ^ A.wordBits) := by
  cases hs : servedPage A s size align node (v.ls (slobList size)) with
  | some p =>
    obtain ⟨s₁, addr, v', hall, hal, hheld, hpages, -⟩ := h.slobAlloc_served gfp hpos hlt hs
    rw [hall src] at he
    cases he
    exact .inr ⟨p, addr, v', rfl, hal, .inl ⟨rfl, hheld, hpages⟩⟩
  | none =>
    cases hsrc : slobNewPages A src node with
    | none =>
      rw [h.slobAlloc_null gfp hs hsrc] at he
      cases he
      exact .inl ⟨rfl, rfl⟩
    | some p =>
      obtain ⟨hslab, hpfn⟩ := hfresh p hsrc
      have hnew := h.not_mem_held hslab
      obtain ⟨addr, v', hr, hal, hheld, hpages⟩ := h.slobAlloc_new hpos hlt hs hsrc hnew hpfn he
      exact .inr ⟨p, addr, v', hr, hal, .inr ⟨rfl, hnew, hheld, hpages⟩⟩

/-- **Calls keep the invariant.** -/
theorem exec_inv (h : Inv A y) (c : Call) (hlegal : Legal A y c) (he : exec A y c = some y') :
    Inv A y' := by
  obtain ⟨v, hrep, hpages⟩ := h
  cases c with
  | alloc size gfp align node src =>
    obtain ⟨hpos, hlt, hfresh⟩ := hlegal
    obtain ⟨⟨s', r⟩, hall, rfl⟩ := Option.map_eq_some_iff.mp he
    rcases hrep.slobAlloc_cases hpos hlt hfresh hall with ⟨rfl, rfl⟩ |
      ⟨p, addr, v', rfl, hal, ⟨-, h₁, h₂⟩ | ⟨-, hnew, h₁, h₂⟩⟩
    · exact ⟨v, hrep, hpages⟩
    · refine ⟨v', hal.rep, ?_⟩
      rw [h₁, h₂, hpages]
    · have hlt' := hal.rep.card_held_lt
      refine ⟨v', hal.rep, ?_⟩
      rw [h₁, Finset.card_insert_of_notMem hnew] at hlt' ⊢
      rw [h₂, hpages, Nat.mod_eq_of_lt hlt']
  | free b =>
    obtain ⟨s', hfree, rfl⟩ := Option.map_eq_some_iff.mp he
    obtain ⟨s₁, v', hfree', hrep', hcount⟩ := hrep.slobFree hlegal
    rw [hfree'] at hfree
    cases hfree
    refine ⟨v', hrep', ?_⟩
    rcases hcount with ⟨h₁, h₂⟩ | ⟨hp, h₁, h₂⟩
    · rw [h₁, h₂, hpages]
    · have hlt := hrep.card_held_lt
      have hcard := Finset.card_erase_add_one hp
      have hsub : v.held.card + 2 ^ A.wordBits - 1 =
          (v.held.erase (A.virtToPage b.addr)).card + 2 ^ A.wordBits := by omega
      rw [h₁, h₂, hpages, hsub, Nat.add_mod_right, Nat.mod_eq_of_lt (by omega)]

/-- **A legal `slob_alloc` returns**, for the alignments the callers use. -/
theorem Rep.slobAlloc_returns (h : Rep A s live v) {size align : ℕ} (gfp : Gfp) {node : Option ℕ}
    {src : PageSource} (hpos : 0 < size) (hlt : size < A.PAGE_SIZE) (hfresh : Fresh A s src node)
    (halign : Aligning A align) : ∃ r, slobAlloc A s size gfp align node src = some r := by
  cases hs : servedPage A s size align node (v.ls (slobList size)) with
  | some p =>
    obtain ⟨s₁, addr, v', hall, -⟩ := h.slobAlloc_served gfp hpos hlt hs
    exact ⟨_, hall src⟩
  | none =>
    cases hsrc : slobNewPages A src node with
    | none => exact ⟨_, h.slobAlloc_null gfp hs hsrc⟩
    | some p =>
      obtain ⟨hslab, hpfn⟩ := hfresh p hsrc
      exact h.slobAlloc_new_returns gfp hlt halign hs hsrc (h.not_mem_held hslab) hpfn

/-! ## Runs -/

theorem Initial.inv (h : Initial s) : Inv A ⟨s, []⟩ := by
  refine ⟨⟨∅, fun _ => [], fun _ => .small, fun _ => []⟩, ⟨?_, by simp, ⟨?_, by simp⟩, by simp,
    by simp, by simp⟩, h.pages⟩
  · intro p
    simp [h.slab p]
  · intro c
    exact ⟨Links.loop_singleton.mpr (h.heads c), List.nodup_singleton _⟩

theorem Step.inv (h : Step A y y') (hinv : Inv A y) : Inv A y' := by
  cases h with
  | call c hlegal hexec => exact exec_inv hinv c hlegal hexec
  | outside ho hpages =>
    obtain ⟨v, hrep, hcard⟩ := hinv
    exact ⟨v, hrep.outside ho, hpages.trans hcard⟩

/-- **The invariant holds in every reachable state.** -/
theorem reachable_inv (h : Reachable A y) : Inv A y := by
  obtain ⟨s₀, hinit, hrun⟩ := h
  induction hrun with
  | refl => exact hinit.inv
  | tail _ hstep ih => exact hstep.inv ih

/-! ## Sequences of calls -/

instance (y : Sys) (c : Call) : Decidable (Legal A y c) :=
  match c with
  | .alloc size _ _ node src =>
    inferInstanceAs (Decidable (0 < size ∧ size < A.PAGE_SIZE ∧
      ∀ p ∈ slobNewPages A src node, (y.st.page p).slab = false ∧ 0 < p ∧ p < A.maxPfn))
  | .free b => inferInstanceAs (Decidable (b ∈ y.live))

variable (A) in
/-- A sequence of legal calls. -/
def runCalls : Sys → List Call → Option Sys
  | y, [] => some y
  | y, c :: cs => if Legal A y c then (exec A y c).bind fun y' => runCalls y' cs else none

theorem Reachable.runCalls (h : Reachable A y) {cs : List Call} (hr : runCalls A y cs = some y') :
    Reachable A y' := by
  induction cs generalizing y with
  | nil =>
    cases hr
    exact h
  | cons c cs ih =>
    unfold Slob.runCalls at hr
    split_ifs at hr with hlegal
    obtain ⟨y₁, hexec, hr'⟩ := Option.bind_eq_some_iff.mp hr
    obtain ⟨s₀, hinit, hrun⟩ := h
    exact ih ⟨s₀, hinit, hrun.tail (.call c hlegal hexec)⟩ hr'

/-- A 32-bit machine with pages of 4 KiB. -/
def i386 (numa : Bool) : Arch := ⟨12, 32, numa, by decide, by decide, by decide⟩

/-- The state at boot, with the page frames spread over two nodes. -/
def boot : State where
  mem _ := 0
  page p := ⟨0, 0, false, false, p % 2⟩
  links := ⟨id, id⟩
  pages := 0
  strayUnits _ := 0

theorem initial_boot : Initial boot := ⟨fun _ => rfl, fun _ => ⟨rfl, rfl⟩, rfl⟩

theorem reachable_boot : Reachable A ⟨boot, []⟩ := ⟨boot, initial_boot, .refl⟩

/-- A run from boot can be tested by evaluating it. -/
theorem exists_reachable (A : Arch) (cs : List Call) (P : Sys → Bool)
    (h : (runCalls A ⟨boot, []⟩ cs).any P = true) : ∃ y, Reachable A y ∧ P y = true := by
  obtain ⟨y, hy, hP⟩ := (Option.any_eq_true P _).mp h
  exact ⟨y, reachable_boot.runCalls hy, hP⟩

end Cs444.Slob
