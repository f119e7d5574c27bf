import Mathlib

/-!
# Circular doubly linked lists

The `next` and `prev` fields of a set of nodes, the pointer updates of intrusive circular lists
(`list_add`, `list_del`, `list_move_tail`, …), and the predicate `Circ L h l`: the list with head
`h` has the entries `l`, in `next` order.

`Loop L c` says that the nodes `c`, in this order, form a closed ring. It is invariant under
rotation (`Loop.rotate`), so every edit is proved once, at the front of a ring (`Loop.insert`,
`Loop.unlink`), and moved to where it happens. An edit leaves the links of every ring it does not
touch alone (`Circ.congr`). Read backwards, a list has its entries in reverse order (`Circ.flip`).
-/

namespace Cs444

/-- The `next` and `prev` fields of every node. -/
structure Links (ν : Type*) where
  next : ν → ν
  prev : ν → ν

namespace Links

variable {ν : Type*} [DecidableEq ν]

/-! ## Pointer updates -/

/-- `INIT_LIST_HEAD(x)`. -/
def initListHead (L : Links ν) (x : ν) : Links ν :=
  ⟨Function.update L.next x x, Function.update L.prev x x⟩

/-- `__list_add(x, p, n)`: link `x` between `p` and `n`. -/
def insert (L : Links ν) (x p n : ν) : Links ν :=
  ⟨Function.update (Function.update L.next x n) p x,
    Function.update (Function.update L.prev n x) x p⟩

/-- `list_add(x, h)`: link `x` after `h`. -/
def listAdd (L : Links ν) (x h : ν) : Links ν := L.insert x h (L.next h)

/-- `list_add_tail(x, h)`: link `x` before `h`. -/
def listAddTail (L : Links ν) (x h : ν) : Links ν := L.insert x (L.prev h) h

/-- `__list_del_entry(x)`: make the neighbours of `x` point at each other. -/
def unlink (L : Links ν) (x : ν) : Links ν :=
  ⟨Function.update L.next (L.prev x) (L.next x), Function.update L.prev (L.next x) (L.prev x)⟩

/-- `list_del(x)`: unlink `x` and poison its links. -/
def listDel (L : Links ν) (x poison₁ poison₂ : ν) : Links ν :=
  ⟨Function.update (L.unlink x).next x poison₁, Function.update (L.unlink x).prev x poison₂⟩

/-- `list_del_init(x)`. -/
def listDelInit (L : Links ν) (x : ν) : Links ν := (L.unlink x).initListHead x

/-- `list_move_tail(x, h)`: unlink `x` and link it before `h`. -/
def listMoveTail (L : Links ν) (x h : ν) : Links ν := (L.unlink x).listAddTail x h

/-- `list_empty(h)`. -/
def listEmpty (L : Links ν) (h : ν) : Bool := L.next h = h

/-- The entries `list_for_each` visits from `x` on, until it meets `h`. It gives up when there
are more than `fuel` of them. -/
def entriesFrom (L : Links ν) (h : ν) : ℕ → ν → List ν
  | 0, _ => []
  | fuel + 1, x => if x = h then [] else x :: L.entriesFrom h fuel (L.next x)

/-- The entries of the list with head `h`. -/
def entries (L : Links ν) (fuel : ℕ) (h : ν) : List ν := L.entriesFrom h fuel (L.next h)

/-- The links read backwards. -/
def flip (L : Links ν) : Links ν := ⟨L.prev, L.next⟩

/-! ## Rings -/

/-- `y` follows `x`. -/
def Adj (L : Links ν) (x y : ν) : Prop := L.next x = y ∧ L.prev y = x

/-- The nodes `c` form a closed ring, in this order. -/
def Loop (L : Links ν) : List ν → Prop
  | [] => True
  | x :: m => List.IsChain L.Adj (x :: m ++ [x])

/-- The list with head `h` has the entries `l`. -/
def Circ (L : Links ν) (h : ν) (l : List ν) : Prop := L.Loop (h :: l) ∧ (h :: l).Nodup

omit [DecidableEq ν] in
theorem Loop.rotate {L : Links ν} {a b : List ν} (h : L.Loop (a ++ b)) : L.Loop (b ++ a) := by
  rcases a with _ | ⟨x, a⟩
  · simpa using h
  rcases b with _ | ⟨y, b⟩
  · simpa using h
  have h' : List.IsChain L.Adj ((x :: a) ++ y :: (b ++ [x])) := by simpa [Loop] using h
  obtain ⟨h₁, h₂⟩ := List.isChain_split.mp h'
  show List.IsChain L.Adj (y :: (b ++ x :: a) ++ [y])
  have : List.IsChain L.Adj ((y :: b) ++ x :: (a ++ [y])) :=
    List.isChain_split.mpr ⟨by simpa using h₂, by simpa using h₁⟩
  simpa using this

omit [DecidableEq ν] in
theorem Loop.next_eq {L : Links ν} {x y : ν} {m : List ν} (h : L.Loop (x :: y :: m)) :
    L.next x = y := (List.isChain_cons_cons.mp h).1.1

omit [DecidableEq ν] in
theorem Loop.prev_eq {L : Links ν} {x y : ν} {m : List ν} (h : L.Loop (x :: y :: m)) :
    L.prev y = x := (List.isChain_cons_cons.mp h).1.2

omit [DecidableEq ν] in
theorem loop_singleton {L : Links ν} {x : ν} : L.Loop [x] ↔ L.next x = x ∧ L.prev x = x := by
  simp [Loop, Adj]

omit [DecidableEq ν] in
/-- A ring only reads the links of its own nodes. -/
theorem Loop.congr {L L' : Links ν} {c : List ν} (h : L.Loop c)
    (hag : ∀ x ∈ c, L'.next x = L.next x ∧ L'.prev x = L.prev x) : L'.Loop c := by
  rcases c with _ | ⟨x, m⟩
  · trivial
  refine List.IsChain.imp_of_mem_imp ?_ h
  rintro u v hu hv ⟨h₁, h₂⟩
  have hu' : u ∈ x :: m := by simpa [or_comm] using hu
  have hv' : v ∈ x :: m := by simpa [or_comm] using hv
  exact ⟨(hag u hu').1.trans h₁, (hag v hv').2.trans h₂⟩

omit [DecidableEq ν] in
/-- The pairs of a chain `x :: m ++ [p]` start in `x :: m` and end in `m ++ [p]`. -/
theorem isChain_imp_pairs {R S : ν → ν → Prop} {x p : ν} {m : List ν}
    (h : List.IsChain R (x :: m ++ [p]))
    (hRS : ∀ u v, u ∈ x :: m → v ∈ m ++ [p] → R u v → S u v) :
    List.IsChain S (x :: m ++ [p]) := by
  induction m generalizing x with
  | nil =>
    obtain ⟨h₁, -⟩ := List.isChain_cons_cons.mp h
    exact List.isChain_pair.mpr (hRS x p (by simp) (by simp) h₁)
  | cons y m ih =>
    obtain ⟨h₁, h₂⟩ := List.isChain_cons_cons.mp h
    refine .cons_cons (hRS x y (by simp) (by simp) h₁) (ih h₂ fun u v hu hv => ?_)
    exact hRS u v (List.mem_cons_of_mem _ hu) (List.mem_cons_of_mem _ hv)

/-- Linking `x` in after the first node of a ring. -/
theorem Loop.insert {L : Links ν} {p x : ν} {m : List ν} (h : L.Loop (p :: m))
    (hnd : (p :: m).Nodup) (hx : x ∉ p :: m) : (L.insert x p (L.next p)).Loop (p :: x :: m) := by
  have hxp : x ≠ p := fun e => hx (by simp [e])
  rcases m with _ | ⟨n, m⟩
  · obtain ⟨h₁, h₂⟩ := loop_singleton.mp h
    simp [Loop, Adj, Links.insert, h₁, hxp, hxp.symm]
  · have hn : L.next p = n := h.next_eq
    have hrest : List.IsChain L.Adj (n :: m ++ [p]) := (List.isChain_cons_cons.mp h).2
    have hxn : x ≠ n := fun e => hx (by simp [e])
    rw [hn]
    show List.IsChain _ (p :: x :: (n :: m ++ [p]))
    refine .cons_cons ⟨by simp [Links.insert], by simp [Links.insert]⟩
      (.cons_cons ⟨by simp [Links.insert, hxp], by simp [Links.insert, hxn.symm]⟩ ?_)
    -- the remaining pairs start in `n :: m` and end past `n`, where no link has changed
    refine isChain_imp_pairs hrest fun u v hu hv huv => ?_
    have hup : u ≠ p := by rintro rfl; exact (List.nodup_cons.mp hnd).1 hu
    have hux : u ≠ x := by rintro rfl; exact hx (List.mem_cons_of_mem _ hu)
    have hvx : v ≠ x := by
      rintro rfl
      rcases List.mem_append.mp hv with hv | hv
      · exact hx (List.mem_cons_of_mem _ (List.mem_cons_of_mem _ hv))
      · exact hxp (by simpa using hv)
    have hvn : v ≠ n := by
      rintro rfl
      rcases List.mem_append.mp hv with hv | hv
      · exact (List.nodup_cons.mp (List.nodup_cons.mp hnd).2).1 hv
      · simp at hv; subst hv; simp at hnd
    simpa [Adj, Links.insert, hup, hux, hvx, hvn] using huv

/-- Unlinking the second node of a ring. -/
theorem Loop.unlink {L : Links ν} {p x : ν} {m : List ν} (h : L.Loop (p :: x :: m))
    (hnd : (p :: x :: m).Nodup) : (L.unlink x).Loop (p :: m) := by
  have hpx : L.prev x = p := h.prev_eq
  have hrest : List.IsChain L.Adj (x :: (m ++ [p])) := (List.isChain_cons_cons.mp h).2
  rcases m with _ | ⟨n, m⟩
  · have hxp : L.next x = p := (List.isChain_pair.mp hrest).1
    exact loop_singleton.mpr ⟨by simp [Links.unlink, hpx, hxp], by simp [Links.unlink, hpx, hxp]⟩
  · obtain ⟨⟨hxn, -⟩, hrest'⟩ := List.isChain_cons_cons.mp hrest
    show List.IsChain _ (p :: (n :: m ++ [p]))
    refine .cons_cons ⟨by simp [Links.unlink, hpx, hxn], by simp [Links.unlink, hpx, hxn]⟩ ?_
    refine isChain_imp_pairs hrest' fun u v hu hv huv => ?_
    have hup : u ≠ p := by
      rintro rfl; exact (List.nodup_cons.mp hnd).1 (List.mem_cons_of_mem _ hu)
    have hvn : v ≠ n := by
      rintro rfl
      rcases List.mem_append.mp hv with hv | hv
      · exact (List.nodup_cons.mp (List.nodup_cons.mp (List.nodup_cons.mp hnd).2).2).1 hv
      · simp at hv; subst hv; simp at hnd
    simpa [Adj, Links.unlink, hpx, hxn, hup, hvn] using huv

/-! ## Circular lists -/

section Circ

variable {L L' : Links ν} {h x p : ν} {l a b : List ν}

omit [DecidableEq ν] in
theorem Circ.congr (hc : L.Circ h l)
    (hag : ∀ x ∈ h :: l, L'.next x = L.next x ∧ L'.prev x = L.prev x) : L'.Circ h l :=
  ⟨hc.1.congr hag, hc.2⟩

omit [DecidableEq ν] in
theorem Circ.nodup (hc : L.Circ h l) : l.Nodup := (List.nodup_cons.mp hc.2).2

omit [DecidableEq ν] in
theorem Circ.head_not_mem (hc : L.Circ h l) : h ∉ l := (List.nodup_cons.mp hc.2).1

omit [DecidableEq ν] in
/-- The ring of a circular list, seen from a node `p`. -/
theorem Circ.loop_at (hc : L.Circ h l) (hl : h :: l = a ++ p :: b) :
    L.Loop (p :: (b ++ a)) ∧ (p :: (b ++ a)).Nodup := by
  obtain ⟨h₁, h₂⟩ := hc
  rw [hl] at h₁ h₂
  exact ⟨h₁.rotate, (List.perm_append_comm.nodup_iff).mp h₂⟩

theorem circ_initListHead (L : Links ν) (h : ν) : (L.initListHead h).Circ h [] := by
  refine ⟨loop_singleton.mpr ⟨?_, ?_⟩, List.nodup_singleton h⟩
  · simp [initListHead]
  · simp [initListHead]

/-- **Linking in.** `list_add(x, p)` puts `x` after the node `p` of the list, the head included. -/
theorem Circ.listAdd (hc : L.Circ h l) (hl : h :: l = a ++ p :: b) (hx : x ∉ h :: l) :
    ∃ l', h :: l' = a ++ p :: x :: b ∧ (L.listAdd x p).Circ h l' := by
  obtain ⟨h₁, h₂⟩ := hc.loop_at hl
  have hx' : x ∉ p :: (b ++ a) := by
    intro hm; apply hx; rw [hl]; simp at hm ⊢; tauto
  have h₃ : (L.listAdd x p).Loop ((p :: x :: b) ++ a) := h₁.insert h₂ hx'
  have h₄ : (a ++ p :: x :: b).Nodup := by
    rw [List.perm_append_comm.nodup_iff]
    have : ((p :: x :: b) ++ a).Perm (x :: (p :: (b ++ a))) := List.Perm.swap _ _ _
    exact this.nodup_iff.mpr (List.nodup_cons.mpr ⟨hx', h₂⟩)
  rcases a with _ | ⟨y, a⟩
  · obtain ⟨rfl, rfl⟩ : h = p ∧ l = b := by simpa using hl
    exact ⟨x :: l, rfl, by simpa using h₃, h₄⟩
  · obtain ⟨rfl, rfl⟩ : h = y ∧ l = a ++ p :: b := by simpa using hl
    exact ⟨a ++ p :: x :: b, rfl, h₃.rotate, h₄⟩

/-- **Unlinking** an entry. -/
theorem Circ.unlink (hc : L.Circ h (a ++ x :: b)) : (L.unlink x).Circ h (a ++ b) := by
  have hl : h :: (a ++ x :: b) = (h :: a) ++ x :: b := rfl
  -- the ring from the predecessor of `x` on
  rcases List.eq_nil_or_concat' a with rfl | ⟨a, y, rfl⟩
  · exact ⟨hc.1.unlink hc.2, hc.2.sublist (by simp)⟩
  · obtain ⟨h₁, h₂⟩ := hc.loop_at (a := h :: a) (p := y) (b := x :: b) (by simp)
    refine ⟨?_, hc.2.sublist (by simp)⟩
    have h₃ : (L.unlink x).Loop ((y :: b) ++ (h :: a)) := h₁.unlink h₂
    simpa using h₃.rotate

omit [DecidableEq ν] in
theorem Circ.next_eq (hc : L.Circ h l) (hl : h :: l = a ++ p :: b) :
    L.next p = (b ++ [h]).head (by simp) := by
  have h₁ := (hc.loop_at hl).1
  rcases b with _ | ⟨y, b⟩
  · rcases a with _ | ⟨y, a⟩
    · obtain ⟨rfl, rfl⟩ : h = p ∧ l = [] := by simpa using hl
      exact (loop_singleton.mp h₁).1
    · obtain ⟨rfl, -⟩ : h = y ∧ l = a ++ [p] := by simpa using hl
      exact h₁.next_eq
  · exact h₁.next_eq

omit [DecidableEq ν] in
theorem Circ.prev_eq (hc : L.Circ h (a ++ x :: b)) :
    L.prev x = (h :: a).getLast (by simp) := by
  rcases List.eq_nil_or_concat' a with rfl | ⟨a, y, rfl⟩
  · exact hc.1.prev_eq
  · have h₁ := (hc.loop_at (a := h :: a) (p := y) (b := x :: b) (by simp)).1
    simpa using h₁.prev_eq

omit [DecidableEq ν] in
theorem Circ.prev_head (hc : L.Circ h l) : L.prev h = (h :: l).getLast (by simp) := by
  rcases List.eq_nil_or_concat' l with rfl | ⟨l, y, rfl⟩
  · exact (loop_singleton.mp hc.1).2
  · have h₁ := (hc.loop_at (a := h :: l) (p := y) (b := []) (by simp)).1
    simpa using h₁.prev_eq

omit [DecidableEq ν] in
theorem Circ.next_mem (hc : L.Circ h l) (hp : p ∈ h :: l) : L.next p ∈ h :: l := by
  obtain ⟨a, b, hl⟩ := List.append_of_mem hp
  rw [hc.next_eq hl]
  have hm := List.head_mem (l := b ++ [h]) (by simp)
  rcases List.mem_append.mp hm with hm | hm
  · rw [hl]; simp [hm]
  · rw [List.mem_singleton.mp hm]; simp

omit [DecidableEq ν] in
theorem Circ.prev_mem (hc : L.Circ h l) (hp : p ∈ l) : L.prev p ∈ h :: l := by
  obtain ⟨a, b, rfl⟩ := List.append_of_mem hp
  rw [hc.prev_eq]
  have hm := List.getLast_mem (l := h :: a) (by simp)
  rcases List.mem_cons.mp hm with hm | hm
  · rw [hm]; simp
  · exact List.mem_cons_of_mem _ (List.mem_append_left _ hm)

/-! ### Frames: the nodes an edit leaves alone -/

theorem insert_frame (L : Links ν) {n y : ν} (hx : y ≠ x) (hp : y ≠ p) (hn : y ≠ n) :
    (L.insert x p n).next y = L.next y ∧ (L.insert x p n).prev y = L.prev y := by
  simp [Links.insert, hx, hp, hn]

theorem Circ.listAdd_frame (hc : L.Circ h l) (hp : p ∈ h :: l) {y : ν} (hy : y ∉ h :: l)
    (hyx : y ≠ x) : (L.listAdd x p).next y = L.next y ∧ (L.listAdd x p).prev y = L.prev y := by
  refine insert_frame L hyx (fun e => hy (e ▸ hp)) fun e => hy (e ▸ hc.next_mem hp)

theorem Circ.unlink_frame (hc : L.Circ h l) (hx : x ∈ l) {y : ν} (hy : y ∉ h :: l) :
    (L.unlink x).next y = L.next y ∧ (L.unlink x).prev y = L.prev y := by
  have h₁ : y ≠ L.prev x := fun e => hy (e ▸ hc.prev_mem hx)
  have h₂ : y ≠ L.next x := fun e => hy (e ▸ hc.next_mem (List.mem_cons_of_mem _ hx))
  simp [Links.unlink, h₁, h₂]

theorem Circ.listDel (hc : L.Circ h (a ++ x :: b)) (q₁ q₂ : ν) :
    (L.listDel x q₁ q₂).Circ h (a ++ b) := by
  have hx : ∀ y ∈ h :: (a ++ b), y ≠ x := by
    rintro y hy rfl
    have hnd : (y :: (h :: (a ++ b))).Nodup :=
      (List.perm_middle : ((h :: a) ++ y :: b).Perm _).nodup_iff.mp hc.2
    exact (List.nodup_cons.mp hnd).1 hy
  refine hc.unlink.congr fun y hy => ?_
  simp [Links.listDel, hx y hy]

theorem Circ.listDelInit (hc : L.Circ h (a ++ x :: b)) : (L.listDelInit x).Circ h (a ++ b) :=
  hc.listDel x x

/-! ### Moving the head -/

/-- **Rotation.** Moving the head of a list before the entry `n` makes the list start at `n`. -/
theorem Circ.listMoveTail_head {n : ν} (hc : L.Circ h (a ++ n :: b)) (ha : a ≠ []) :
    (L.listMoveTail h n).Circ h (n :: b ++ a) := by
  obtain ⟨a, p, rfl⟩ := (List.eq_nil_or_concat' a).resolve_left ha
  obtain ⟨b', z, hz⟩ : ∃ b' z, n :: b = b' ++ [z] :=
    ⟨_, _, (List.dropLast_append_getLast (l := n :: b) (by simp)).symm⟩
  have hnd : (h :: (n :: b ++ (a ++ [p]))).Nodup :=
    (List.Perm.cons h List.perm_append_comm).nodup_iff.mp hc.2
  -- the ring from the last entry `z` on, where `h` is second
  have h₁ : L.Loop (z :: h :: (a ++ [p] ++ b')) := by
    have := hc.1
    rw [show h :: (a ++ [p] ++ n :: b) = (h :: (a ++ [p] ++ b')) ++ [z] by simp [hz]] at this
    exact this.rotate
  have h₂ : (z :: h :: (a ++ [p] ++ b')).Nodup := by
    have := hc.2
    rw [show h :: (a ++ [p] ++ n :: b) = (h :: (a ++ [p] ++ b')) ++ [z] by simp [hz]] at this
    exact List.perm_append_comm.nodup_iff.mp this
  -- without `h`, from `p` on
  have h₃ : (L.unlink h).Loop (p :: (n :: b ++ a)) := by
    have := h₁.unlink h₂
    rw [show z :: (a ++ [p] ++ b') = (z :: a) ++ (p :: b') by simp] at this
    simpa [hz] using this.rotate
  have h₄ : (p :: (n :: b ++ a)).Nodup := by
    have : (n :: b ++ (a ++ [p])).Nodup := (List.nodup_cons.mp hnd).2
    rw [← List.append_assoc] at this
    exact List.perm_append_comm.nodup_iff.mp this
  have hh : h ∉ p :: (n :: b ++ a) := by
    intro hm
    apply (List.nodup_cons.mp hnd).1
    simp at hm ⊢; tauto
  refine ⟨?_, hnd⟩
  have h₅ := h₃.insert h₄ hh
  rw [show (L.unlink h).next p = n from h₃.next_eq] at h₅
  have h₆ : (L.listMoveTail h n).Loop ([p] ++ (h :: (n :: b ++ a))) := by
    rw [Links.listMoveTail, Links.listAddTail, show (L.unlink h).prev n = p from h₃.prev_eq]
    exact h₅
  simpa using h₆.rotate

theorem Circ.listMoveTail_frame {n y : ν} (hc : L.Circ h l) (hn : n ∈ l) (hy : y ∉ h :: l) :
    (L.listMoveTail h n).next y = L.next y ∧ (L.listMoveTail h n).prev y = L.prev y := by
  have hmem : ∀ z ∈ h :: l, y ≠ z := fun z hz e => hy (e ▸ hz)
  have hlast : L.prev h ∈ h :: l := by rw [hc.prev_head]; exact List.getLast_mem _
  have hnext : L.next h ∈ h :: l := hc.next_mem (by simp)
  have hprev : (L.unlink h).prev n ∈ h :: l := by
    by_cases e : n = L.next h
    · simp [Links.unlink, e, hlast]
    · simpa [Links.unlink, e] using hc.prev_mem hn
  have hun : (L.unlink h).next y = L.next y ∧ (L.unlink h).prev y = L.prev y := by
    simp [Links.unlink, hmem _ hlast, hmem _ hnext]
  obtain ⟨h₁, h₂⟩ := insert_frame (L.unlink h) (hmem h (by simp)) (hmem _ hprev)
    (hmem n (List.mem_cons_of_mem _ hn))
  exact ⟨h₁.trans hun.1, h₂.trans hun.2⟩

/-! ### Traversal -/

theorem Circ.entriesFrom (hc : L.Circ h (a ++ b)) {fuel : ℕ} (hf : b.length < fuel) :
    L.entriesFrom h fuel ((b ++ [h]).head (by simp)) = b := by
  induction b generalizing a fuel with
  | nil =>
    obtain ⟨fuel, rfl⟩ : ∃ f, fuel = f + 1 := ⟨fuel - 1, by omega⟩
    simp [Links.entriesFrom]
  | cons y b ih =>
    obtain ⟨fuel, rfl⟩ : ∃ f, fuel = f + 1 := ⟨fuel - 1, by omega⟩
    have hy : y ≠ h := by rintro rfl; exact hc.head_not_mem (by simp)
    have hnext : L.next y = (b ++ [h]).head (by simp) := hc.next_eq (a := h :: a) (by simp)
    have hrec := @ih (a ++ [y]) (by simpa using hc) fuel (by simpa using hf)
    simp only [List.cons_append, List.head_cons, Links.entriesFrom, if_neg hy, hnext, hrec]

/-- A traversal visits the entries of the list. -/
theorem Circ.entries_eq (hc : L.Circ h l) {fuel : ℕ} (hf : l.length < fuel) :
    L.entries fuel h = l := by
  unfold Links.entries
  rw [hc.next_eq (a := []) (b := l) rfl]
  exact hc.entriesFrom (a := []) hf

omit [DecidableEq ν] in
theorem Circ.next_head_eq_iff (hc : L.Circ h l) : L.next h = h ↔ l = [] := by
  rw [hc.next_eq (a := []) (b := l) rfl]
  rcases l with _ | ⟨y, l⟩
  · simp
  · have : y ≠ h := by rintro rfl; exact hc.head_not_mem (by simp)
    simpa using this

end Circ

omit [DecidableEq ν] in
/-- Following `prev` gives the entries in reverse order. -/
theorem Circ.flip {L : Links ν} {h : ν} {l : List ν} (hc : L.Circ h l) : L.flip.Circ h l.reverse := by
  obtain ⟨hloop, hnd⟩ := hc
  constructor
  · have hrev : h :: l.reverse ++ [h] = (h :: l ++ [h]).reverse := by simp
    show List.IsChain L.flip.Adj (h :: l.reverse ++ [h])
    rw [hrev, List.isChain_reverse]
    exact List.IsChain.imp (fun x y hxy => ⟨hxy.2, hxy.1⟩) hloop
  · rw [List.nodup_cons] at hnd ⊢
    simpa using hnd

end Links

end Cs444
