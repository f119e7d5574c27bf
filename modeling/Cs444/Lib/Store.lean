import Mathlib.Data.List.Basic
import Mathlib.Logic.Function.Basic

/-!
# A store of arrays

The abstract memory that an allocator provides: arrays at the addresses in use, each changed by the
writes to it and by nothing else (`Store.Step`). Runs are traces of events, the latest first.

`Store.Run.get`: in every run, an element that was written, or was set when its array was allocated, is
the last value it got (`lastWritten`).
-/

namespace Cs444

variable {ι β : Type*}

/-- What happens to a store. `init` is what is known of the elements of a new array. -/
inductive Event (ι β : Type*)
  | alloc (p : ι) (init : ℕ → Option β)
  | write (p : ι) (i : ℕ) (x : β)
  | free (p : ι)

/-- The arrays in use. -/
abbrev Store (ι β : Type*) := ι → Option (List β)

namespace Store

variable [DecidableEq ι]

/-- One event. -/
inductive Step (σ : Store ι β) : Event ι β → Store ι β → Prop
  | alloc {p : ι} {init : ℕ → Option β} (bs : List β) (hnew : σ p = none)
      (hinit : ∀ i, ∀ x ∈ init i, bs[i]? = some x) :
      Step σ (.alloc p init) (Function.update σ p (some bs))
  | write {p : ι} {i : ℕ} {x : β} {bs : List β} (hp : σ p = some bs) (hi : i < bs.length) :
      Step σ (.write p i x) (Function.update σ p (some (bs.set i x)))
  | free {p : ι} {bs : List β} (hp : σ p = some bs) : Step σ (.free p) (Function.update σ p none)

/-- The runs from the empty store. -/
inductive Run : List (Event ι β) → Store ι β → Prop
  | nil : Run [] fun _ => none
  | cons {es : List (Event ι β)} {e : Event ι β} {σ σ' : Store ι β} (hrun : Run es σ)
      (hstep : Step σ e σ') : Run (e :: es) σ'

/-- The last value of an element, as far as the trace tells. -/
def lastWritten : List (Event ι β) → ι → ℕ → Option β
  | [], _, _ => none
  | .alloc q init :: es, p, i => if q = p then init i else lastWritten es p i
  | .write q j x :: es, p, i => if q = p ∧ j = i then some x else lastWritten es p i
  | .free q :: es, p, i => if q = p then none else lastWritten es p i

variable {σ σ' : Store ι β} {e : Event ι β} {es : List (Event ι β)} {p : ι} {i : ℕ} {x : β}

/-- An event keeps the elements it does not set. -/
theorem Step.get (h : Step σ e σ') (hlast : lastWritten (e :: es) p i = some x)
    (ih : lastWritten es p i = some x → ∃ bs, σ p = some bs ∧ bs[i]? = some x) :
    ∃ bs, σ' p = some bs ∧ bs[i]? = some x := by
  cases h with
  | @alloc q init bs hnew hinit =>
    unfold lastWritten at hlast
    split_ifs at hlast with hq
    · subst hq
      exact ⟨bs, Function.update_self .., hinit i x hlast⟩
    · rw [Function.update_of_ne (Ne.symm hq)]
      exact ih hlast
  | @write q j y bs hp hj =>
    unfold lastWritten at hlast
    split_ifs at hlast with hq
    · obtain ⟨rfl, rfl⟩ := hq
      cases hlast
      exact ⟨_, Function.update_self .., by rw [List.getElem?_set_self hj]⟩
    · obtain ⟨bs', hbs', hx⟩ := ih hlast
      by_cases hqp : q = p
      · subst hqp
        obtain rfl := Option.some.inj (hp.symm.trans hbs')
        refine ⟨_, Function.update_self .., ?_⟩
        rw [List.getElem?_set_ne fun hji => hq ⟨rfl, hji⟩]
        exact hx
      · rw [Function.update_of_ne (Ne.symm hqp)]
        exact ⟨bs', hbs', hx⟩
  | @free q bs hp =>
    unfold lastWritten at hlast
    split_ifs at hlast with hq
    rw [Function.update_of_ne (Ne.symm hq)]
    exact ih hlast

/-- **The last write is read.** -/
theorem Run.get (h : Run es σ) (hlast : lastWritten es p i = some x) :
    ∃ bs, σ p = some bs ∧ bs[i]? = some x := by
  induction h with
  | nil => cases hlast
  | cons _ hstep ih => exact hstep.get hlast ih

end Store

end Cs444
