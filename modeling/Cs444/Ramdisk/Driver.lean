import Cs444.Lib.Blocks

/-!
# The two block drivers

`sbd_transfer` and the sizes `sbd_init` sets up, of the encrypting driver `ramdisk.c` and of the plain
driver `sbd.c`. The cipher behind the kernel's crypto API is a parameter.

* A transfer of `ramdisk.c` gives `none` when its loop over the blocks does not end: the counter is an
  `unsigned long`, so a loop that makes more turns than it has values never ends.
* On a whole number of blocks the loop is `mapInto` (`cryptLoop_eq`), which gives what a transfer
  inside the device does (`sbdTransfer_write`, `sbdTransfer_read`).
-/

namespace Cs444

/-- `u8` memory. -/
abbrev Bytes := ℕ → UInt8

namespace Ramdisk

/-! ## `ramdisk.c` -/

/-- `struct crypto_cipher`: the block size, and what `crypto_cipher_setkey`,
`crypto_cipher_encrypt_one` and `crypto_cipher_decrypt_one` do to the key state and to a block. -/
structure Cipher (κ : Type*) where
  blocksize : ℕ
  blocksize_pos : 0 < blocksize
  setkey : κ → List UInt8 → ℕ → κ
  encryptOne : κ → (Fin blocksize → UInt8) → Fin blocksize → UInt8
  decryptOne : κ → (Fin blocksize → UInt8) → Fin blocksize → UInt8

instance {κ : Type*} (C : Cipher κ) : NeZero C.blocksize := ⟨Nat.pos_iff_ne_zero.mp C.blocksize_pos⟩

/-- The width of `unsigned long` and the module parameters. -/
structure Config where
  wordBits : ℕ
  le_wordBits : 32 ≤ wordBits
  logicalBlockSize : ℕ
  nsectors : ℕ
  key : List UInt8
  keyLen : ℕ

def KERNEL_SECTOR_SIZE : ℕ := 512

/-- `Device.size` after `sbd_init`: a product of `int`s, stored as `unsigned long`. -/
def Config.deviceSize (P : Config) : ℕ :=
  (((P.nsectors * P.logicalBlockSize : ℕ) : ℤ).bmod (2 ^ 32) % 2 ^ P.wordBits).toNat

/-- What `sbd_init` passes to `set_capacity`. -/
def Config.capacity (P : Config) : ℕ := P.nsectors

/-- `struct sbd_device` and the key state of `crypto`. -/
structure Device (κ : Type*) where
  size : ℕ
  data : Bytes
  crypto : κ

/-- The loop `for (i = 0; i < nbytes; i += crypto_cipher_blocksize(crypto))`, which sends the blocks
of `src` from `so` on through `f` to `o`. -/
def cryptLoop (w : ℕ) {n : ℕ} (f : (Fin n → UInt8) → Fin n → UInt8) (o : ℕ) (src : Bytes)
    (so nbytes : ℕ) : ℕ → ℕ → Bytes → Option Bytes
  | 0, _, _ => none
  | fuel + 1, i, m =>
    if i < nbytes then
      cryptLoop w f o src so nbytes fuel ((i + n) % 2 ^ w)
        (putBlock m (o + i) (f (block n src (so + i))))
    else some m

variable {κ : Type*} (C : Cipher κ) (P : Config)

/-- Handle an I/O request: the device and the buffer after it. -/
def sbdTransfer (dev : Device κ) (sector nsect : ℕ) (buffer : Bytes) (write : Bool) :
    Option (Device κ × Bytes) :=
  let offset := sector * P.logicalBlockSize % 2 ^ P.wordBits
  let nbytes := nsect * P.logicalBlockSize % 2 ^ P.wordBits
  let dev := { dev with crypto := C.setkey dev.crypto P.key P.keyLen }
  if (offset + nbytes) % 2 ^ P.wordBits > dev.size then some (dev, buffer) -- Beyond-end write
  else if write then
    (cryptLoop P.wordBits (C.encryptOne dev.crypto) offset buffer 0 nbytes (2 ^ P.wordBits + 1) 0
      dev.data).map fun data => ({ dev with data := data }, buffer)
  else
    (cryptLoop P.wordBits (C.decryptOne dev.crypto) 0 dev.data offset nbytes (2 ^ P.wordBits + 1) 0
      buffer).map fun buffer => (dev, buffer)

/-- A cipher on 16-byte blocks that takes the keys AES takes, for examples: a key of another length
leaves the key state as it is. -/
def xorCipher : Cipher (List UInt8) where
  blocksize := 16
  blocksize_pos := by decide
  setkey k key len := if len = 16 ∨ len = 24 ∨ len = 32 then key.take len else k
  encryptOne k b j := b j ^^^ k.getD j 0x5a
  decryptOne k b j := b j ^^^ k.getD j 0x5a

end Ramdisk

/-! ## `sbd.c` -/

namespace Sbd

/-- `struct sbd_device`. -/
structure Device where
  size : ℕ
  data : Bytes

/-- Handle an I/O request, with `w` the width of `unsigned long`. -/
def sbdTransfer (w hardsectSize : ℕ) (dev : Device) (sector nsect : ℕ) (buffer : Bytes)
    (write : Bool) : Device × Bytes :=
  let offset := sector * hardsectSize % 2 ^ w
  let nbytes := nsect * hardsectSize % 2 ^ w
  if (offset + nbytes) % 2 ^ w > dev.size then (dev, buffer)
  else if write then ({ dev with data := copy dev.data offset buffer 0 nbytes }, buffer)
  else (dev, copy buffer 0 dev.data offset nbytes)

end Sbd

/-! ## Transfers inside the device -/

namespace Ramdisk

/-- On a whole number of blocks the loop ends and moves them all. -/
theorem cryptLoop_eq {w n : ℕ} [NeZero n] (f : (Fin n → UInt8) → Fin n → UInt8) (o : ℕ)
    (src : Bytes) (so : ℕ) {nbytes i fuel : ℕ} (m : Bytes) (hn : n ∣ nbytes) (hi : n ∣ i)
    (hle : i ≤ nbytes) (hw : nbytes < 2 ^ w) (hf : nbytes - i < fuel) :
    cryptLoop w f o src so nbytes fuel i (mapInto f m o src so i) =
      some (mapInto f m o src so nbytes) := by
  have hpos : 0 < n := Nat.pos_of_ne_zero (NeZero.ne n)
  induction fuel generalizing i with
  | zero => omega
  | succ fuel ih =>
    unfold cryptLoop
    by_cases hlt : i < nbytes
    · have hstep : i + n ≤ nbytes := by
        obtain ⟨k, rfl⟩ := hn
        obtain ⟨j, rfl⟩ := hi
        have hjk : j + 1 ≤ k := Nat.lt_of_mul_lt_mul_left hlt
        have := Nat.mul_le_mul_left n hjk
        rw [Nat.mul_add] at this
        omega
      rw [if_pos hlt, mapInto_add_block hi, Nat.mod_eq_of_lt (by omega)]
      exact ih (Nat.dvd_add hi dvd_rfl) hstep (by omega)
    · rw [if_neg hlt, show i = nbytes by omega]

/-- A transfer that stays inside a device of `size` bytes, without overflow. -/
structure InRange (P : Config) (size sector nsect : ℕ) : Prop where
  nowrap : sector * P.logicalBlockSize + nsect * P.logicalBlockSize < 2 ^ P.wordBits
  inside : sector * P.logicalBlockSize + nsect * P.logicalBlockSize ≤ size

variable {κ : Type*} {C : Cipher κ} {P : Config} {dev : Device κ} {sector nsect : ℕ}

section

variable (hblock : C.blocksize ∣ P.logicalBlockSize) (h : InRange P dev.size sector nsect)
  (buffer : Bytes)
include hblock h

/-- A write encrypts the buffer into its sectors. -/
theorem sbdTransfer_write :
    sbdTransfer C P dev sector nsect buffer true =
      some (⟨dev.size,
        mapInto (C.encryptOne (C.setkey dev.crypto P.key P.keyLen)) dev.data
          (sector * P.logicalBlockSize) buffer 0 (nsect * P.logicalBlockSize),
        C.setkey dev.crypto P.key P.keyLen⟩, buffer) := by
  obtain ⟨hnowrap, hinside⟩ := h
  have hloop := cryptLoop_eq (C.encryptOne (C.setkey dev.crypto P.key P.keyLen))
    (sector * P.logicalBlockSize) buffer 0 dev.data (Dvd.dvd.mul_left hblock nsect)
    (Nat.dvd_zero _) (Nat.zero_le _)
    (by omega : nsect * P.logicalBlockSize < 2 ^ P.wordBits)
    (by omega : nsect * P.logicalBlockSize - 0 < 2 ^ P.wordBits + 1)
  rw [mapInto_zero] at hloop
  simp only [sbdTransfer]
  rw [Nat.mod_eq_of_lt (by omega : sector * P.logicalBlockSize < 2 ^ P.wordBits),
    Nat.mod_eq_of_lt (by omega : nsect * P.logicalBlockSize < 2 ^ P.wordBits),
    Nat.mod_eq_of_lt hnowrap, if_neg (by omega), if_pos trivial, hloop]
  rfl

/-- A read decrypts its sectors into the buffer. -/
theorem sbdTransfer_read :
    sbdTransfer C P dev sector nsect buffer false =
      some (⟨dev.size, dev.data, C.setkey dev.crypto P.key P.keyLen⟩,
        mapInto (C.decryptOne (C.setkey dev.crypto P.key P.keyLen)) buffer 0 dev.data
          (sector * P.logicalBlockSize) (nsect * P.logicalBlockSize)) := by
  obtain ⟨hnowrap, hinside⟩ := h
  have hloop := cryptLoop_eq (C.decryptOne (C.setkey dev.crypto P.key P.keyLen)) 0 dev.data
    (sector * P.logicalBlockSize) buffer (Dvd.dvd.mul_left hblock nsect) (Nat.dvd_zero _)
    (Nat.zero_le _)
    (by omega : nsect * P.logicalBlockSize < 2 ^ P.wordBits)
    (by omega : nsect * P.logicalBlockSize - 0 < 2 ^ P.wordBits + 1)
  rw [mapInto_zero] at hloop
  simp only [sbdTransfer]
  rw [Nat.mod_eq_of_lt (by omega : sector * P.logicalBlockSize < 2 ^ P.wordBits),
    Nat.mod_eq_of_lt (by omega : nsect * P.logicalBlockSize < 2 ^ P.wordBits),
    Nat.mod_eq_of_lt hnowrap, if_neg (by omega), if_neg Bool.false_ne_true, hloop]
  rfl

end

/-- The plain driver on the same transfer. -/
theorem sbdTransfer_plain {plain : Sbd.Device} (h : InRange P plain.size sector nsect)
    (buffer : Bytes) (write : Bool) :
    Sbd.sbdTransfer P.wordBits P.logicalBlockSize plain sector nsect buffer write =
      if write then
        (⟨plain.size, copy plain.data (sector * P.logicalBlockSize) buffer 0
          (nsect * P.logicalBlockSize)⟩, buffer)
      else
        (plain, copy buffer 0 plain.data (sector * P.logicalBlockSize)
          (nsect * P.logicalBlockSize)) := by
  obtain ⟨hnowrap, hinside⟩ := h
  simp only [Sbd.sbdTransfer]
  rw [Nat.mod_eq_of_lt (by omega : sector * P.logicalBlockSize < 2 ^ P.wordBits),
    Nat.mod_eq_of_lt (by omega : nsect * P.logicalBlockSize < 2 ^ P.wordBits),
    Nat.mod_eq_of_lt hnowrap, if_neg (by omega)]

end Ramdisk

end Cs444
