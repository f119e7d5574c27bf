import Mathlib.Data.Int.Notation
import Mathlib.Data.List.Count
import Mathlib.Data.List.Infix
import Mathlib.Order.Defs.PartialOrder
import Mathlib.Tactic.Common

/-!
# Loading and unloading the two drivers

`sbd_init` and `sbd_exit` of `ramdisk.c` and `sbd.c`, with what the module holds of the kernel (`Held`).
The answers of the kernel are an input. `register_blkdev` returns a free major for `0` and `0` for a
major that was asked for; both drivers keep this result in `major_num`. `crypto_alloc_cipher` returns an
error pointer when there is no cipher, which `sbd_init` of `ramdisk.c` does not look at; following it is
a fault, and gives `none`.

* `attempts_eq_iff`: when a list of loads, each with the unload that follows if it worked, gives
  everything back, and when one of them ends in a fault
* `asked_once`: a major that was asked for is never given back, so no later load gets it
-/

namespace Cs444.Ramdisk

/-! ## The code -/

inductive Driver
  | ramdisk
  | sbd
  deriving DecidableEq, Repr

/-- A load of the module: the parameter `major_num`, and what the kernel answers. -/
structure Load where
  major : ℕ
  /-- `crypto_alloc_cipher` finds the cipher, and does not return an `ERR_PTR`. -/
  cipher : Bool
  /-- `vmalloc` does not return `NULL`. -/
  vmalloc : Bool
  /-- `blk_init_queue` does not return `NULL`. -/
  queue : Bool
  /-- `register_blkdev` works, and the free major it would choose, less 1. -/
  register : Option ℕ
  /-- `alloc_disk` does not return `NULL`. -/
  disk : Bool
  deriving DecidableEq, Repr

/-- What the kernel has handed out: ciphers, memory areas, request queues, majors and disks. -/
structure Held where
  ciphers : ℕ
  areas : ℕ
  queues : ℕ
  majors : List ℕ
  disks : ℕ
  deriving DecidableEq, Repr

def EBUSY : ℤ := 16

/-- `register_blkdev(major_num, "sbd")`: the result, and the majors after it. -/
def registerBlkdev (x : Load) (majors : List ℕ) : ℤ × List ℕ :=
  match x.register with
  | none => (- EBUSY, majors)
  | some m =>
    if x.major = 0 then (m + 1, (m + 1) :: majors)
    else if x.major ∈ majors then (- EBUSY, majors)
    else (0, x.major :: majors)

/-- `unregister_blkdev(major_num, "sbd")`: no driver has the major 0. -/
def unregisterBlkdev (majorNum : ℤ) (majors : List ℕ) : List ℕ :=
  if majorNum = 0 then majors else majors.erase majorNum.toNat

/-- `major_num < 0` in `ramdisk.c`, `major_num <= 0` in `sbd.c`. -/
def Driver.noMajor (d : Driver) (majorNum : ℤ) : Bool :=
  match d with
  | .ramdisk => majorNum < 0
  | .sbd => majorNum ≤ 0

/-- `crypto_alloc_cipher("aes", 0, 0)`, which is not in `sbd.c`: the ciphers it hands out. -/
def cryptoAllocCipher (d : Driver) (x : Load) : ℕ := if d = .ramdisk ∧ x.cipher then 1 else 0

/-- `crypto_free_cipher(crypto)`, which is not in `sbd.c`. It follows the pointer, as `sbd_transfer` does. -/
def cryptoFreeCipher (d : Driver) (x : Load) (h : Held) : Option Held :=
  match d with
  | .sbd => some h
  | .ramdisk => if x.cipher then some { h with ciphers := h.ciphers - 1 } else none

/-- `vfree(Device.data)` -/
def vfree (h : Held) : Held := { h with areas := h.areas - 1 }

/-- `sbd_init`: what is held after it, and `major_num` when it returns 0. -/
def sbdInit (d : Driver) (x : Load) (h : Held) : Held × Option ℤ :=
  let h := { h with ciphers := h.ciphers + cryptoAllocCipher d x }
  if !x.vmalloc then (h, none)
  else
    let h := { h with areas := h.areas + 1 }
    if !x.queue then (vfree h, none) -- out
    else
      let r := registerBlkdev x h.majors
      let h := { h with queues := h.queues + 1, majors := r.2 }
      if d.noMajor r.1 then (vfree h, none) -- out
      else if !x.disk then (vfree { h with majors := unregisterBlkdev r.1 h.majors }, none) -- out_unregister
      else ({ h with disks := h.disks + 1 }, some r.1)

/-- `sbd_exit` -/
def sbdExit (d : Driver) (x : Load) (majorNum : ℤ) (h : Held) : Option Held :=
  cryptoFreeCipher d x { h with
    disks := h.disks - 1
    majors := unregisterBlkdev majorNum h.majors
    queues := h.queues - 1
    areas := h.areas - 1 }

/-- A load, and the unload of what was loaded. -/
def attempt (d : Driver) (h : Held) (x : Load) : Option Held :=
  match sbdInit d x h with
  | (h, none) => some h
  | (h, some majorNum) => sbdExit d x majorNum h

/-- Loads one after the other. -/
def attempts (d : Driver) (h : Held) (xs : List Load) : Option Held := xs.foldlM (attempt d) h

/-! ## What stays behind -/

variable {d : Driver} {x : Load} {h h' : Held}

/-- The module gets a major. -/
def Load.Registers (h : Held) (x : Load) : Prop :=
  x.vmalloc ∧ x.queue ∧ x.register.isSome ∧ (x.major ≠ 0 → x.major ∉ h.majors)

instance : Decidable (x.Registers h) := inferInstanceAs (Decidable (_ ∧ _ ∧ _ ∧ _))

/-- The module is loaded. `sbd.c` takes the 0 it gets for a given major for an error. -/
def Load.Loads (d : Driver) (h : Held) (x : Load) : Prop :=
  x.Registers h ∧ x.disk ∧ (d = .sbd → x.major = 0)

instance : Decidable (x.Loads d h) := inferInstanceAs (Decidable (_ ∧ _ ∧ _))

/-- `ramdisk.c` is loaded without a cipher. -/
def Load.Faults (d : Driver) (h : Held) (x : Load) : Prop :=
  d = .ramdisk ∧ x.cipher = false ∧ x.Loads d h

instance : Decidable (x.Faults d h) := inferInstanceAs (Decidable (_ ∧ _ ∧ _))

/-- What a load and its unload leave behind: the cipher and the queue when the module is not loaded, as
no exit of `sbd_init` gives them back, and a major that was asked for, as `major_num` is 0 then. -/
def Held.leave (d : Driver) (h : Held) (x : Load) : Held where
  ciphers := if x.Loads d h then h.ciphers else h.ciphers + cryptoAllocCipher d x
  areas := h.areas
  queues := if x.vmalloc ∧ x.queue ∧ ¬ x.Loads d h then h.queues + 1 else h.queues
  majors := if x.Registers h ∧ x.major ≠ 0 then x.major :: h.majors else h.majors
  disks := h.disks

theorem unregisterBlkdev_cons (m : ℕ) (majors : List ℕ) :
    unregisterBlkdev (m + 1) ((m + 1) :: majors) = majors := by
  unfold unregisterBlkdev
  rw [if_neg (by omega)]
  exact List.erase_cons_head ..

/-- `register_blkdev` fails, chooses a major, or gives the one that was asked for. -/
theorem registerBlkdev_cases (x : Load) (majors : List ℕ) :
    (registerBlkdev x majors = (- EBUSY, majors) ∧
        ¬ (x.register.isSome ∧ (x.major ≠ 0 → x.major ∉ majors))) ∨
      (∃ m : ℕ, registerBlkdev x majors = ((m : ℤ) + 1, (m + 1) :: majors) ∧
        x.register.isSome ∧ x.major = 0) ∨
      registerBlkdev x majors = (0, x.major :: majors) ∧
        x.register.isSome ∧ x.major ≠ 0 ∧ x.major ∉ majors := by
  unfold registerBlkdev
  obtain hm | ⟨m, hm⟩ := Option.eq_none_or_eq_some x.register
  · rw [hm]
    exact .inl ⟨rfl, by simp⟩
  rw [hm]
  by_cases hmajor : x.major = 0
  · exact .inr (.inl ⟨m, if_pos hmajor, rfl, hmajor⟩)
  by_cases hheld : x.major ∈ majors
  · exact .inl ⟨(if_neg hmajor).trans (if_pos hheld), fun h => h.2 hmajor hheld⟩
  · exact .inr (.inr ⟨(if_neg hmajor).trans (if_neg hheld), rfl, hmajor, hheld⟩)

/-- **One load** and its unload. -/
theorem attempt_eq (d : Driver) (h : Held) (x : Load) :
    attempt d h x = if x.Faults d h then none else some (h.leave d x) := by
  unfold attempt sbdInit Held.leave Load.Faults Load.Loads Load.Registers
  by_cases hvmalloc : x.vmalloc = true
  case neg => simp [hvmalloc]
  by_cases hqueue : x.queue = true
  case neg => simp [hvmalloc, hqueue, vfree]
  -- from here on the queue is there, and both labels leave it behind
  obtain ⟨hr, hno⟩ | ⟨m, hr, hsome, hmajor⟩ | ⟨hr, hsome, hmajor, hheld⟩ := registerBlkdev_cases x h.majors
  · have hneg : d.noMajor (- EBUSY) = true := by cases d <;> rfl
    simp [hvmalloc, hqueue, hr, hno, hneg, vfree]
  · have hpos : d.noMajor ((m : ℤ) + 1) = false := by
      cases d <;> simp only [Driver.noMajor, decide_eq_false_iff_not] <;> omega
    by_cases hdisk : x.disk = true <;> by_cases hc : x.cipher = true <;> cases d <;>
      simp [hvmalloc, hqueue, hr, hsome, hmajor, hdisk, hpos, hc, unregisterBlkdev_cons, sbdExit,
        cryptoFreeCipher, cryptoAllocCipher, vfree]
  · cases d with
    | sbd => simp [hvmalloc, hqueue, hr, hsome, hmajor, hheld, Driver.noMajor, vfree]
    | ramdisk =>
      by_cases hdisk : x.disk = true <;> by_cases hc : x.cipher = true <;>
        simp [hvmalloc, hqueue, hr, hsome, hmajor, hheld, hdisk, hc, Driver.noMajor, unregisterBlkdev,
          sbdExit, cryptoFreeCipher, cryptoAllocCipher, vfree]

/-! ## Runs of loads -/

/-- More is held: the memory and the disks are the same. -/
instance : PartialOrder Held where
  le h k := h.ciphers ≤ k.ciphers ∧ h.areas = k.areas ∧ h.queues ≤ k.queues ∧ h.majors <:+ k.majors ∧
    h.disks = k.disks
  le_refl _ := ⟨le_rfl, rfl, le_rfl, List.suffix_rfl, rfl⟩
  le_trans _ _ _ h h' := ⟨h.1.trans h'.1, h.2.1.trans h'.2.1, h.2.2.1.trans h'.2.2.1,
    h.2.2.2.1.trans h'.2.2.2.1, h.2.2.2.2.trans h'.2.2.2.2⟩
  le_antisymm := by
    rintro ⟨⟩ ⟨⟩ ⟨hc, ha, hq, hm, hd⟩ ⟨hc', -, hq', hm', -⟩
    have hmajors := hm.eq_of_length (hm.length_le.antisymm hm'.length_le)
    simp only [Held.mk.injEq]
    exact ⟨hc.antisymm hc', ha, hq.antisymm hq', hmajors, hd⟩

theorem Held.le_leave (d : Driver) (h : Held) (x : Load) : h ≤ h.leave d x := by
  refine ⟨?_, rfl, ?_, ?_, rfl⟩
  · show _ ≤ ite _ _ _
    split_ifs <;> omega
  · show _ ≤ ite _ _ _
    split_ifs <;> omega
  · show _ <:+ ite _ _ _
    split_ifs
    exacts [List.suffix_cons .., List.suffix_rfl]

theorem attempts_cons (d : Driver) (h : Held) (x : Load) (xs : List Load) :
    attempts d h (x :: xs) = (attempt d h x).bind fun h => attempts d h xs :=
  List.foldlM_cons

theorem leave_of_attempt (hx : attempt d h x = some h') : h' = h.leave d x := by
  rw [attempt_eq] at hx
  split_ifs at hx
  exact (Option.some.inj hx).symm

theorem le_of_attempts {xs : List Load} (hxs : attempts d h xs = some h') : h ≤ h' := by
  induction xs generalizing h with
  | nil => exact (Option.some.inj hxs).le
  | cons x xs ih =>
    rw [attempts_cons] at hxs
    obtain ⟨h₁, hx, hxs⟩ := Option.bind_eq_some_iff.mp hxs
    rw [leave_of_attempt hx] at hxs
    exact (h.le_leave d x).trans (ih hxs)

/-- The kernel chooses the major and the module is loaded, with a cipher in `ramdisk.c`; or the load fails
before there is a queue and without a cipher. -/
def Load.Clean (d : Driver) (x : Load) : Prop :=
  (x.major = 0 ∧ x.vmalloc ∧ x.queue ∧ x.register.isSome ∧ x.disk ∧ (d = .ramdisk → x.cipher)) ∨
    ¬ (x.vmalloc ∧ x.queue) ∧ cryptoAllocCipher d x = 0

theorem Held.leave_eq_iff (d : Driver) (h : Held) (x : Load) :
    h.leave d x = h ↔ (x.Loads d h ∨ cryptoAllocCipher d x = 0) ∧
      ¬ (x.vmalloc ∧ x.queue ∧ ¬ x.Loads d h) ∧ ¬ (x.Registers h ∧ x.major ≠ 0) := by
  cases h
  simp only [Held.leave, Held.mk.injEq, ite_eq_left_iff, ite_eq_right_iff, true_and, and_true,
    List.cons_ne_self, imp_false, Nat.add_eq_left, Nat.succ_ne_self, not_and, or_iff_not_imp_left]

theorem attempt_eq_some_iff (d : Driver) (h : Held) (x : Load) :
    attempt d h x = some h ↔ x.Clean d := by
  have hattempt : attempt d h x = some h ↔ ¬ x.Faults d h ∧ h.leave d x = h := by
    rw [attempt_eq]
    by_cases hf : x.Faults d h
    · simp [hf]
    · simp [hf]
  rw [hattempt, h.leave_eq_iff d x]
  by_cases hx : x.Loads d h
  · obtain ⟨⟨hv, hq, hr, hh⟩, hd, -⟩ := id hx
    have hreg : x.Registers h := ⟨hv, hq, hr, hh⟩
    by_cases hc : x.cipher = true
    · simp [Load.Faults, hx, hreg, Load.Clean, hv, hq, hr, hd, hc]
    · simp [Load.Faults, hx, hreg, Load.Clean, hv, hq, hr, hd, hc, and_comm]
  · constructor
    · rintro ⟨-, hc, hq, -⟩
      exact .inr ⟨fun h => hq ⟨h.1, h.2, hx⟩, hc.resolve_left hx⟩
    · rintro (⟨hm, hv, hq, hr, hd, -⟩ | ⟨hq, hc⟩)
      · exact absurd ⟨⟨hv, hq, hr, fun h => absurd hm h⟩, hd, fun _ => hm⟩ hx
      · exact ⟨fun h => hx h.2.2, .inr hc, fun h => hq ⟨h.1, h.2.1⟩, fun h => hq ⟨h.1.1, h.1.2.1⟩⟩

theorem attempts_eq_some_iff (d : Driver) (h : Held) (xs : List Load) :
    attempts d h xs = some h ↔ ∀ x ∈ xs, x.Clean d := by
  induction xs with
  | nil => exact iff_of_true rfl (by simp)
  | cons x xs ih =>
    rw [attempts_cons, List.forall_mem_cons, ← ih, ← attempt_eq_some_iff d h x]
    constructor
    · intro hrun
      obtain ⟨h₁, hx, hxs⟩ := Option.bind_eq_some_iff.mp hrun
      -- the state after the first load is between the start and the end of the run
      have hle := h.le_leave d x
      rw [← leave_of_attempt hx] at hle
      obtain rfl := (le_of_attempts hxs).antisymm hle
      exact ⟨hx, hxs⟩
    · rintro ⟨hx, hxs⟩
      rw [hx]
      exact hxs

/-- A run ends in a fault exactly at a load without a cipher. -/
theorem attempts_eq_none_iff (d : Driver) (h : Held) (xs : List Load) :
    attempts d h xs = none ↔
      ∃ pre x post h', xs = pre ++ x :: post ∧ attempts d h pre = some h' ∧ x.Faults d h' := by
  induction xs generalizing h with
  | nil => exact iff_of_false (by simp [attempts]) (by simp)
  | cons x xs ih =>
    rw [attempts_cons, attempt_eq]
    by_cases hf : x.Faults d h
    · rw [if_pos hf]
      exact iff_of_true rfl ⟨[], x, xs, h, rfl, rfl, hf⟩
    have hfirst : ∀ pre, attempts d h (x :: pre) = attempts d (h.leave d x) pre := by
      intro pre
      rw [attempts_cons, attempt_eq, if_neg hf, Option.bind_some]
    rw [if_neg hf, Option.bind_some, ih]
    constructor
    · rintro ⟨pre, y, post, h', rfl, hpre, hy⟩
      exact ⟨x :: pre, y, post, h', rfl, (hfirst pre).trans hpre, hy⟩
    · rintro ⟨_ | ⟨z, pre⟩, y, post, h', heq, hpre, hy⟩
      · obtain ⟨rfl, -⟩ := List.cons.inj heq
        cases hpre
        exact absurd hy hf
      · obtain ⟨rfl, rfl⟩ := List.cons.inj heq
        exact ⟨pre, y, post, h', rfl, (hfirst pre).symm.trans hpre, hy⟩

/-- **Leaks of the drivers**: in any run of loads and unloads the memory and the disks are given back,
and all the rest is if and only if every load is clean; the run does not end if and only if `ramdisk.c`
is loaded without a cipher. -/
theorem attempts_eq_iff (d : Driver) (h : Held) (xs : List Load) :
    (∀ h', attempts d h xs = some h' → h'.areas = h.areas ∧ h'.disks = h.disks) ∧
      (attempts d h xs = some h ↔ ∀ x ∈ xs, x.Clean d) ∧
      (attempts d h xs = none ↔
        ∃ pre x post h', xs = pre ++ x :: post ∧ attempts d h pre = some h' ∧ x.Faults d h') := by
  refine ⟨fun h' hxs => ?_, attempts_eq_some_iff d h xs, attempts_eq_none_iff d h xs⟩
  have hle := le_of_attempts hxs
  exact ⟨hle.2.1.symm, hle.2.2.2.2.symm⟩

/-- **A major that was asked for** is never given back: when a load got it, no later load that asks for
it works. -/
theorem asked_once (d : Driver) (h : Held) (x y : Load) (xs : List Load) (hx : x.Registers h)
    (hmajor : x.major ≠ 0) (hy : y.major = x.major) (hrun : attempts d h (x :: xs) = some h') :
    (sbdInit d y h').2 = none := by
  rw [attempts_cons] at hrun
  obtain ⟨h₁, hfirst, hrun⟩ := Option.bind_eq_some_iff.mp hrun
  have hmem : x.major ∈ h'.majors := by
    refine (le_of_attempts hrun).2.2.2.1.subset ?_
    rw [leave_of_attempt hfirst]
    show _ ∈ ite _ _ _
    rw [if_pos ⟨hx, hmajor⟩]
    exact List.mem_cons_self
  have hfail : (registerBlkdev y h'.majors).1 = - EBUSY := by
    obtain ⟨hr, -⟩ | ⟨m, -, -, hm⟩ | ⟨-, -, -, hm⟩ := registerBlkdev_cases y h'.majors
    · rw [hr]
    · exact absurd (hy ▸ hm) hmajor
    · exact absurd (hy ▸ hmem) hm
  have hneg : d.noMajor (- EBUSY) = true := by cases d <;> rfl
  unfold sbdInit
  simp only [hfail, hneg, if_true]
  split_ifs <;> rfl

/-- `major_num=240`, twice. -/
theorem asked_once_twice :
    attempts .ramdisk ⟨0, 0, 0, [], 0⟩ [⟨240, true, true, true, some 250, true⟩] =
        some ⟨0, 0, 0, [240], 0⟩ ∧
      (sbdInit .ramdisk ⟨240, true, true, true, some 250, true⟩ ⟨0, 0, 0, [240], 0⟩).2 = none :=
  ⟨rfl, asked_once .ramdisk ⟨0, 0, 0, [], 0⟩ ⟨240, true, true, true, some 250, true⟩
    ⟨240, true, true, true, some 250, true⟩ [] (by decide) (by decide) rfl rfl⟩

end Cs444.Ramdisk
