import Cs444.Ramdisk.Driver

/-!
# Sectors of the kernel and sectors of the driver

The kernel talks to a driver in sectors of `KERNEL_SECTOR_SIZE` bytes, and `sbd_transfer` counts in
sectors of `logical_block_size` bytes. `UnitsAgree` says that the driver moves the bytes the kernel asks
for; it holds for one logical block size only (`unitsAgree_iff`).
-/

namespace Cs444.Ramdisk

variable {κ : Type*} (C : Cipher κ) (P : Config)

/-- Each request below the capacity moves its `nsect * 512` bytes to or from the device bytes that start
at `sector * 512`, and nothing else. -/
def MovesSectors : Prop :=
  ∀ (dev : Device κ) (buffer : Bytes) (sector nsect : ℕ),
    dev.size = P.deviceSize → sector + nsect ≤ P.capacity →
    sbdTransfer C P dev sector nsect buffer true =
      some (⟨dev.size,
        mapInto (C.encryptOne (C.setkey dev.crypto P.key P.keyLen)) dev.data
          (sector * KERNEL_SECTOR_SIZE) buffer 0 (nsect * KERNEL_SECTOR_SIZE),
        C.setkey dev.crypto P.key P.keyLen⟩, buffer) ∧
    sbdTransfer C P dev sector nsect buffer false =
      some (⟨dev.size, dev.data, C.setkey dev.crypto P.key P.keyLen⟩,
        mapInto (C.decryptOne (C.setkey dev.crypto P.key P.keyLen)) buffer 0 dev.data
          (sector * KERNEL_SECTOR_SIZE) (nsect * KERNEL_SECTOR_SIZE))

/-- A write leaves the device bytes of every other sector alone. -/
def DisjointSectors : Prop :=
  ∀ (dev dev' : Device κ) (buffer buffer' : Bytes) (sector nsect : ℕ),
    dev.size = P.deviceSize → sector + nsect ≤ P.capacity →
    sbdTransfer C P dev sector nsect buffer true = some (dev', buffer') →
    ∀ other, other < sector ∨ sector + nsect ≤ other → ∀ i < KERNEL_SECTOR_SIZE,
      dev'.data (other * KERNEL_SECTOR_SIZE + i) = dev.data (other * KERNEL_SECTOR_SIZE + i)

/-- A transfer neither depends on nor changes what is behind the `nsect * 512` bytes of its buffer. -/
def WithinBuffer : Prop :=
  ∀ (dev : Device κ) (buffer : Bytes) (sector nsect : ℕ),
    dev.size = P.deviceSize → sector + nsect ≤ P.capacity →
    (∀ buffer', (∀ i < nsect * KERNEL_SECTOR_SIZE, buffer' i = buffer i) →
      (sbdTransfer C P dev sector nsect buffer' true).map Prod.fst =
        (sbdTransfer C P dev sector nsect buffer true).map Prod.fst) ∧
    ∀ dev' buffer', sbdTransfer C P dev sector nsect buffer false = some (dev', buffer') →
      ∀ i, nsect * KERNEL_SECTOR_SIZE ≤ i → buffer' i = buffer i

/-- The driver and the kernel count in the same unit. -/
structure UnitsAgree : Prop where
  size : P.capacity * KERNEL_SECTOR_SIZE = P.deviceSize
  moves : MovesSectors C P
  disjoint : DisjointSectors C P
  buffer : WithinBuffer C P

/-- The module parameters in question: sectors there are, the logical block size is a power of two that is
at least a kernel sector, and `nsectors * logical_block_size` fits in an `int`. -/
structure Config.Sane : Prop where
  nsectors_pos : 0 < P.nsectors
  pow : ∃ j, P.logicalBlockSize = 2 ^ j
  le : KERNEL_SECTOR_SIZE ≤ P.logicalBlockSize
  fits : P.nsectors * P.logicalBlockSize < 2 ^ 31

variable {C P}

/-! ## Sizes -/

theorem two_pow_lt (P : Config) : 2 ^ 31 < 2 ^ P.wordBits :=
  Nat.pow_lt_pow_right (by decide) P.le_wordBits

theorem Config.Sane.deviceSize_eq (h : P.Sane) : P.deviceSize = P.nsectors * P.logicalBlockSize := by
  obtain ⟨-, -, -, hfits⟩ := h
  have hw := two_pow_lt P
  unfold Config.deviceSize
  rw [Int.bmod_eq_of_le (by omega) (by omega), Int.emod_eq_of_lt (by omega) ?_]
  · rfl
  · exact_mod_cast hfits.trans hw

theorem Config.Sane.size_iff (h : P.Sane) :
    P.capacity * KERNEL_SECTOR_SIZE = P.deviceSize ↔ P.logicalBlockSize = KERNEL_SECTOR_SIZE := by
  rw [h.deviceSize_eq]
  unfold Config.capacity
  rw [Nat.mul_right_inj (Nat.pos_iff_ne_zero.mp h.nsectors_pos)]
  exact eq_comm

/-- A request below the capacity is inside the device, in the units of the driver. -/
theorem Config.Sane.inRange (h : P.Sane) {size sector nsect : ℕ} (hsize : size = P.deviceSize)
    (hcap : sector + nsect ≤ P.capacity) : InRange P size sector nsect := by
  have hle : sector * P.logicalBlockSize + nsect * P.logicalBlockSize ≤
      P.nsectors * P.logicalBlockSize := by
    rw [← Nat.add_mul]
    exact Nat.mul_le_mul_right _ hcap
  have hw := two_pow_lt P
  have hfits := h.fits
  constructor
  · omega
  · rw [hsize, h.deviceSize_eq]
    exact hle

theorem Config.Sane.sector_dvd (h : P.Sane) : KERNEL_SECTOR_SIZE ∣ P.logicalBlockSize := by
  obtain ⟨j, hj⟩ := h.pow
  have hle := h.le
  rw [hj] at hle ⊢
  have hpow : KERNEL_SECTOR_SIZE = 2 ^ 9 := rfl
  rw [hpow] at hle ⊢
  exact Nat.pow_dvd_pow 2 ((Nat.pow_le_pow_iff_right (by decide)).mp hle)

/-! ## Transfers -/

/-- With kernel sectors for logical blocks, the driver moves what it is asked to. -/
theorem movesSectors_of_eq (h : P.Sane) (hblock : C.blocksize ∣ KERNEL_SECTOR_SIZE)
    (heq : P.logicalBlockSize = KERNEL_SECTOR_SIZE) : MovesSectors C P := by
  intro dev buffer sector nsect hsize hcap
  have hin : InRange P dev.size sector nsect := h.inRange hsize hcap
  rw [← heq] at hblock ⊢
  exact ⟨sbdTransfer_write hblock hin buffer, sbdTransfer_read hblock hin buffer⟩

/-- With larger logical blocks, the write of the first kernel sector runs into the second one. -/
theorem eq_of_movesSectors [Nonempty κ] (h : P.Sane) (hblock : C.blocksize ∣ KERNEL_SECTOR_SIZE)
    (hmoves : MovesSectors C P) : P.logicalBlockSize = KERNEL_SECTOR_SIZE := by
  have hcap : 0 + 1 ≤ P.capacity := h.nsectors_pos
  obtain ⟨k⟩ := ‹Nonempty κ›
  obtain ⟨size, hsize⟩ : ∃ size, size = P.deviceSize := ⟨_, rfl⟩
  have hwrite : ∀ data : Bytes,
      mapInto (C.encryptOne (C.setkey k P.key P.keyLen)) data 0 (fun _ => 0) 0 KERNEL_SECTOR_SIZE =
        mapInto (C.encryptOne (C.setkey k P.key P.keyLen)) data 0 (fun _ => 0) 0
          P.logicalBlockSize := by
    intro data
    let dev : Device κ := ⟨size, data, k⟩
    have hin : InRange P dev.size 0 1 := h.inRange hsize hcap
    have hdriver := sbdTransfer_write (hblock.trans h.sector_dvd) hin fun _ => 0
    rw [(hmoves dev _ 0 1 hsize hcap).1, Option.some_inj, Prod.mk.injEq, Device.mk.injEq] at hdriver
    simpa only [Nat.zero_mul, Nat.one_mul] using hdriver.1.2.1
  have hnontrivial : Nontrivial UInt8 := ⟨0, 1, by decide⟩
  exact Nat.le_antisymm (le_of_mapInto_eq hwrite) h.le

/-! ## What follows from moving the sectors -/

theorem MovesSectors.disjoint (h : MovesSectors C P) : DisjointSectors C P := by
  intro dev dev' buffer buffer' sector nsect hsize hcap htransfer other hother i hi
  rw [(h dev buffer sector nsect hsize hcap).1, Option.some_inj, Prod.mk.injEq] at htransfer
  rw [← htransfer.1]
  apply if_neg
  unfold KERNEL_SECTOR_SIZE at hi ⊢
  omega

theorem MovesSectors.withinBuffer (h : MovesSectors C P) (hblock : C.blocksize ∣ KERNEL_SECTOR_SIZE) :
    WithinBuffer C P := by
  intro dev buffer sector nsect hsize hcap
  constructor
  · intro buffer' hbuffer
    have hcongr : ∀ i < nsect * KERNEL_SECTOR_SIZE, buffer' (0 + i) = buffer (0 + i) := by
      intro i hi
      rw [Nat.zero_add]
      exact hbuffer i hi
    rw [(h dev buffer' sector nsect hsize hcap).1, (h dev buffer sector nsect hsize hcap).1,
      mapInto_congr (Dvd.dvd.mul_left hblock nsect) hcongr]
    rfl
  · intro dev' buffer' htransfer i hi
    rw [(h dev buffer sector nsect hsize hcap).2, Option.some_inj, Prod.mk.injEq] at htransfer
    rw [← htransfer.2]
    apply if_neg
    omega

/-! ## The units agree for one block size -/

/-- **The unit of the driver** is the kernel's exactly when the logical blocks are kernel sectors. -/
theorem unitsAgree_iff [Nonempty κ] (h : P.Sane) (hblock : C.blocksize ∣ KERNEL_SECTOR_SIZE) :
    UnitsAgree C P ↔ P.logicalBlockSize = KERNEL_SECTOR_SIZE := by
  constructor
  · intro hunits
    exact eq_of_movesSectors h hblock hunits.moves
  · intro heq
    have hmoves : MovesSectors C P := movesSectors_of_eq h hblock heq
    exact ⟨h.size_iff.mpr heq, hmoves, hmoves.disjoint, hmoves.withinBuffer hblock⟩

/-- The default parameters. -/
theorem unitsAgree_default :
    UnitsAgree xorCipher ⟨32, le_rfl, 512, 1024, "cs444hw3".toUTF8.toList, 8⟩ :=
  (unitsAgree_iff ⟨by decide, ⟨9, rfl⟩, le_rfl, by decide⟩ (by decide)).mpr rfl

/-- Four sectors with 1024-byte blocks: the capacity is half of the device, and a read of the first two
kernel sectors, which is one block, fills 2048 bytes of its 1024-byte buffer. -/
theorem unitsAgree_fails :
    let P : Config := ⟨32, le_rfl, 1024, 4, "cs444hw3".toUTF8.toList, 8⟩
    P.Sane ∧ P.capacity * KERNEL_SECTOR_SIZE = 2048 ∧ P.deviceSize = 4096 ∧ 0 + 2 ≤ P.capacity ∧
      (∃ dev' buffer', sbdTransfer xorCipher P ⟨P.deviceSize, fun _ => 0, []⟩ 0 2 (fun _ => 0) false =
        some (dev', buffer') ∧ buffer' (2 * KERNEL_SECTOR_SIZE) = 0x5a) ∧
      ¬ UnitsAgree xorCipher P := by
  intro P
  have hsane : P.Sane := ⟨by decide, ⟨10, rfl⟩, by decide, by decide⟩
  have hsize : P.deviceSize = 4096 := by
    rw [hsane.deviceSize_eq]
    decide
  have hblock : xorCipher.blocksize ∣ P.logicalBlockSize := by decide
  refine ⟨hsane, by decide, hsize, by decide, ?_, fun hunits => ?_⟩
  · rw [hsize]
    let dev : Device (List UInt8) := ⟨4096, fun _ => 0, []⟩
    have hin : InRange P dev.size 0 2 := ⟨by decide, by decide⟩
    exact ⟨_, _, sbdTransfer_read hblock hin _, by decide⟩
  · have hne : ¬ P.logicalBlockSize = KERNEL_SECTOR_SIZE := by decide
    exact hne (hsane.size_iff.mp hunits.size)

end Cs444.Ramdisk
