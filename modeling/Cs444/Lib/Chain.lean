import Mathlib

/-!
# Singly linked lists

`Chain next p l`: from the pointer `p` the `next` fields lead through the nodes `l`, in this order, to
the null pointer. What a pointer leads to is determined (`Chain.unique`), so a chain passes no node
twice (`Chain.nodup`).

A store to the `next` field of one node keeps what comes before it and replaces what comes after
(`Chain.replace`); `Chain.link` and `Chain.unlink` are the two uses of it.
-/

namespace Cs444

variable {α : Type*} {next next' : α → Option α} {p : Option α} {l l' pre post : List α} {a b : α}

/-- From `p` the `next` fields lead through `l` to the null pointer. -/
def Chain (next : α → Option α) : Option α → List α → Prop
  | p, [] => p = none
  | p, a :: l => p = some a ∧ Chain next (next a) l

theorem Chain.eq_head? (h : Chain next p l) : p = l.head? := by
  cases l with
  | nil => exact h
  | cons a l => exact h.1

/-- What comes after a node of the chain. -/
theorem Chain.after (h : Chain next p (pre ++ a :: post)) : Chain next (next a) post := by
  induction pre generalizing p with
  | nil => exact h.2
  | cons b pre ih => exact ih h.2

theorem Chain.next_eq (h : Chain next p (pre ++ a :: post)) : next a = post.head? :=
  h.after.eq_head?

theorem Chain.next_mem (h : Chain next p l) (ha : a ∈ l) : ∀ b ∈ next a, b ∈ l := by
  obtain ⟨pre, post, rfl⟩ := List.append_of_mem ha
  intro b hb
  rw [h.next_eq] at hb
  exact List.mem_append_right _ (List.mem_cons_of_mem a (List.mem_of_mem_head? hb))

theorem Chain.unique (h : Chain next p l) (h' : Chain next p l') : l = l' := by
  induction l generalizing p l' with
  | nil =>
    cases l' with
    | nil => rfl
    | cons b l' =>
      cases h
      cases h'.1
  | cons a l ih =>
    cases l' with
    | nil =>
      cases h'
      cases h.1
    | cons b l' =>
      obtain ⟨rfl, h⟩ := h
      obtain ⟨hb, h'⟩ := h'
      cases hb
      rw [ih h h']

theorem Chain.nodup (h : Chain next p l) : l.Nodup := by
  induction l generalizing p with
  | nil => exact List.nodup_nil
  | cons a l ih =>
    refine List.nodup_cons.mpr ⟨fun hmem => ?_, ih h.2⟩
    -- a node that comes back would be followed by two different lists
    obtain ⟨pre, post, rfl⟩ := List.append_of_mem hmem
    have hlen := congrArg List.length (h.2.unique h.2.after)
    simp only [List.length_append, List.length_cons] at hlen
    omega

theorem Chain.congr (h : Chain next p l) (hnext : ∀ a ∈ l, next' a = next a) : Chain next' p l := by
  induction l generalizing p with
  | nil => exact h
  | cons a l ih =>
    refine ⟨h.1, ?_⟩
    rw [hnext a List.mem_cons_self]
    exact ih h.2 fun b hb => hnext b (List.mem_cons_of_mem a hb)

/-- A store to the `next` field of `a` replaces what comes after `a`. -/
theorem Chain.replace (h : Chain next p (pre ++ a :: post)) (hnext : ∀ b ∈ pre, next' b = next b)
    (hpost : Chain next' (next' a) l) : Chain next' p (pre ++ a :: l) := by
  induction pre generalizing p with
  | nil => exact ⟨h.1, hpost⟩
  | cons b pre ih =>
    refine ⟨h.1, ?_⟩
    rw [hnext b List.mem_cons_self]
    exact ih h.2 fun c hc => hnext c (List.mem_cons_of_mem b hc)

variable [DecidableEq α]

theorem Chain.update_of_notMem (h : Chain next p l) (ha : a ∉ l) (q : Option α) :
    Chain (Function.update next a q) p l :=
  h.congr fun _ hb => Function.update_of_ne (ne_of_mem_of_not_mem hb ha) _ _

/-- Append the node `b` after the last node. -/
theorem Chain.link (h : Chain next p (pre ++ [a])) (hb : b ∉ pre ++ [a]) (hnext : next b = none) :
    Chain (Function.update next a (some b)) p (pre ++ [a] ++ [b]) := by
  have hpre : a ∉ pre := by
    have hnodup := h.nodup
    rw [List.nodup_append] at hnodup
    exact fun ha => hnodup.2.2 a ha a List.mem_cons_self rfl
  have hba : b ≠ a := fun e => hb (by simp [e])
  rw [List.append_assoc]
  refine h.replace (fun c hc => Function.update_of_ne (ne_of_mem_of_not_mem hc hpre) _ _) ?_
  rw [Function.update_self]
  refine ⟨rfl, ?_⟩
  rw [Function.update_of_ne hba, hnext]
  rfl

/-- Make the node before `b` point at the node after it. -/
theorem Chain.unlink (h : Chain next p (pre ++ a :: b :: post)) :
    Chain (Function.update next a (next b)) p (pre ++ a :: post) := by
  have hnodup := h.nodup
  rw [List.nodup_append, List.nodup_cons] at hnodup
  have hpre : a ∉ pre := fun ha => hnodup.2.2 a ha a List.mem_cons_self rfl
  have hpost : a ∉ post := fun ha => hnodup.2.1.1 (List.mem_cons_of_mem b ha)
  refine h.replace (fun c hc => Function.update_of_ne (ne_of_mem_of_not_mem hc hpre) _ _) ?_
  rw [Function.update_self]
  exact h.after.2.update_of_notMem hpost _

end Cs444
