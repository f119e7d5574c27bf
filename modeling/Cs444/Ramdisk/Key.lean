import Cs444.Ramdisk.Simulation

/-!
# The key of the encrypting disk

`sbd_transfer` sets the key again on every transfer, with the length `key_len`, which is 8 and not a
module parameter. AES takes keys of 16, 24 and 32 bytes, and `crypto_cipher_setkey` leaves the key
state alone when it fails; its result is not looked at.

* `run_withKey`: a run does the same under every key.
* `stored_noKey`: what a write stores is the encryption of the cipher without a key. That it is also the
  one under the configured key is a coincidence of the blocks (`storedUnderKey_iff`).
* `key_never_used`: so for any two keys that encrypt a block differently, the device does not hold the
  encryption under one of them.
-/

namespace Cs444.Ramdisk

/-- A block of AES. -/
abbrev AesBlock := Fin 16 → UInt8

/-- The cipher `"aes"` of the crypto API, under a key and before a key was set. -/
structure Aes where
  encrypt : List UInt8 → AesBlock → AesBlock
  decrypt : List UInt8 → AesBlock → AesBlock
  encryptNoKey : AesBlock → AesBlock
  decryptNoKey : AesBlock → AesBlock

theorem aesBlock_pos : 0 < 16 := by decide

/-- The key state is the key that was set, if any; `crypto_cipher_setkey` fails and leaves it alone
when the length is not one of AES. -/
def Aes.cipher (E : Aes) : Cipher (Option (List UInt8)) where
  blocksize := 16
  blocksize_pos := aesBlock_pos
  setkey k key len := if len = 16 ∨ len = 24 ∨ len = 32 then some (key.take len) else k
  encryptOne k := k.elim E.encryptNoKey E.encrypt
  decryptOne k := k.elim E.decryptNoKey E.decrypt

/-- `static int key_len = 8`. -/
def keyLen : ℕ := 8

/-- The module loaded with the parameter `key`. -/
def Config.withKey (P : Config) (key : List UInt8) : Config :=
  { P with key := key, keyLen := Ramdisk.keyLen }

/-- The device bytes after `sbd_init`, the run `rs` and the write `r`, with `data` what `vmalloc`
returned. -/
def afterWrite (E : Aes) (P : Config) (data : Bytes) (rs : List Request) (r : Request) :
    Option Bytes := do
  let p ← run E.cipher P ⟨P.deviceSize, data, none⟩ rs
  let q ← sbdTransfer E.cipher P p.1 r.sector r.nsect r.buffer true
  some q.1.data

/-- Block `j` of the sectors of `r` is the image of block `j` of its buffer under `f`. -/
def BlockStored (s : ℕ) (r : Request) (f : AesBlock → AesBlock) (data : Bytes) (j : ℕ) : Prop :=
  block 16 data (r.sector * s + 16 * j) = f (block 16 r.buffer (16 * j))

/-- After the run `rs` the write `r` stores every block encrypted under the configured key. -/
def StoredUnderKey (E : Aes) (P : Config) (data : Bytes) (rs : List Request) (r : Request) : Prop :=
  ∃ d, afterWrite E P data rs r = some d ∧ ∀ j, 16 * (j + 1) ≤ r.nsect * P.logicalBlockSize →
    BlockStored P.logicalBlockSize r (E.encrypt P.key) d j

variable {E : Aes} {P : Config} {data : Bytes} {rs : List Request} {r : Request}

theorem deviceSize_withKey (P : Config) (key : List UInt8) :
    (P.withKey key).deviceSize = P.deviceSize := by
  unfold Config.deviceSize
  rfl

/-! ## The key state -/

theorem setkey_keyLen (E : Aes) (k : Option (List UInt8)) (key : List UInt8) :
    E.cipher.setkey k key keyLen = k := by
  simp [Aes.cipher, keyLen]

theorem sbdTransfer_withKey (k₁ k₂ : List UInt8) (dev : Device (Option (List UInt8)))
    (sector nsect : ℕ) (buffer : Bytes) (write : Bool) :
    sbdTransfer E.cipher (P.withKey k₁) dev sector nsect buffer write =
      sbdTransfer E.cipher (P.withKey k₂) dev sector nsect buffer write := by
  simp only [sbdTransfer, Config.withKey, setkey_keyLen]

/-- **A run does the same under every key.** -/
theorem run_withKey (k₁ k₂ : List UInt8) (dev : Device (Option (List UInt8))) (rs : List Request) :
    run E.cipher (P.withKey k₁) dev rs = run E.cipher (P.withKey k₂) dev rs := by
  induction rs generalizing dev with
  | nil => rfl
  | cons r rs ih =>
    unfold run
    rw [sbdTransfer_withKey k₁ k₂]
    simp only [ih]

theorem afterWrite_withKey (k₁ k₂ : List UInt8) :
    afterWrite E (P.withKey k₁) data rs r = afterWrite E (P.withKey k₂) data rs r := by
  unfold afterWrite
  rw [deviceSize_withKey, deviceSize_withKey, run_withKey k₁ k₂]
  simp only [sbdTransfer_withKey k₁ k₂]

/-! ## What is stored -/

section

variable (hblock : 16 ∣ P.logicalBlockSize) (key : List UInt8) {size : ℕ}
include hblock

/-- A write without a key. -/
theorem sbdTransfer_noKey_write (h : InRange P size r.sector r.nsect) (data : Bytes) :
    sbdTransfer E.cipher (P.withKey key) ⟨size, data, none⟩ r.sector r.nsect r.buffer true =
      some (⟨size, @mapInto _ 16 _ E.encryptNoKey data (r.sector * P.logicalBlockSize) r.buffer 0
        (r.nsect * P.logicalBlockSize), none⟩, r.buffer) := by
  have hin : InRange (P.withKey key) size r.sector r.nsect := ⟨h.nowrap, h.inside⟩
  have hset := setkey_keyLen E none key
  have hwrite := @sbdTransfer_write _ E.cipher (P.withKey key) ⟨size, data, none⟩ _ _ hblock hin
    r.buffer
  rw [show (P.withKey key).keyLen = keyLen from rfl, show (P.withKey key).key = key from rfl,
    hset] at hwrite
  exact hwrite

/-- A run inside the device ends without a key. -/
theorem run_noKey (h : ∀ r ∈ rs, InRange P size r.sector r.nsect) (data : Bytes) :
    ∃ data' buffers, run E.cipher (P.withKey key) ⟨size, data, none⟩ rs =
      some (⟨size, data', none⟩, buffers) := by
  induction rs generalizing data with
  | nil => exact ⟨data, [], rfl⟩
  | cons r rs ih =>
    obtain ⟨hr, hrs⟩ := List.forall_mem_cons.mp h
    have hstep : ∃ data' buffer,
        sbdTransfer E.cipher (P.withKey key) ⟨size, data, none⟩ r.sector r.nsect r.buffer r.write =
          some (⟨size, data', none⟩, buffer) := by
      cases r.write with
      | true => exact ⟨_, _, sbdTransfer_noKey_write hblock key hr data⟩
      | false =>
        have hin : InRange (P.withKey key) size r.sector r.nsect := ⟨hr.nowrap, hr.inside⟩
        have hread := @sbdTransfer_read _ E.cipher (P.withKey key) ⟨size, data, none⟩ _ _ hblock hin
          r.buffer
        rw [show (P.withKey key).keyLen = keyLen from rfl, setkey_keyLen] at hread
        exact ⟨_, _, hread⟩
    obtain ⟨data₁, buffer, htransfer⟩ := hstep
    obtain ⟨data₂, buffers, hrun⟩ := ih hrs data₁
    refine ⟨data₂, buffer :: buffers, ?_⟩
    unfold run
    rw [htransfer]
    show (run E.cipher (P.withKey key) ⟨size, data₁, none⟩ rs).bind _ = _
    rw [hrun]
    rfl

/-- **What a write stores** is the encryption without a key. -/
theorem stored_noKey (h : ∀ r' ∈ r :: rs, InRange P P.deviceSize r'.sector r'.nsect) :
    ∃ d, afterWrite E (P.withKey key) data rs r = some d ∧
      ∀ j, 16 * (j + 1) ≤ r.nsect * P.logicalBlockSize →
        BlockStored P.logicalBlockSize r E.encryptNoKey d j := by
  unfold afterWrite
  rw [deviceSize_withKey]
  generalize P.deviceSize = size at h ⊢
  obtain ⟨hr, hrs⟩ := List.forall_mem_cons.mp h
  obtain ⟨data', buffers, hrun⟩ := @run_noKey E P rs hblock key _ hrs data
  refine ⟨@mapInto _ 16 _ E.encryptNoKey data' (r.sector * P.logicalBlockSize) r.buffer 0
    (r.nsect * P.logicalBlockSize), ?_, ?_⟩
  · have hwrite := @sbdTransfer_noKey_write E P r hblock key size hr data'
    rw [hrun]
    -- the transfer is only rewritten, never unfolded
    generalize sbdTransfer E.cipher (P.withKey key) = transfer at hwrite ⊢
    rw [Option.bind_eq_bind, Option.bind_some, hwrite]
    rfl
  · intro j hj
    have hoff : 16 ∣ r.sector * P.logicalBlockSize := Dvd.dvd.mul_left hblock r.sector
    have hlen : 16 ∣ r.nsect * P.logicalBlockSize := Dvd.dvd.mul_left hblock r.nsect
    have hmem := @block_mapInto_of_mem UInt8 16 _ E.encryptNoKey data' r.buffer
      (r.sector * P.logicalBlockSize) 0 (r.nsect * P.logicalBlockSize) hoff hlen
      (r.sector * P.logicalBlockSize + 16 * j) (by omega) (by omega)
    rw [show (r.sector * P.logicalBlockSize + 16 * j) / 16 * 16 =
        r.sector * P.logicalBlockSize + 16 * j by omega,
      show 0 + (r.sector * P.logicalBlockSize + 16 * j - r.sector * P.logicalBlockSize) / 16 * 16 =
        16 * j by omega] at hmem
    exact hmem

/-- A write is stored under the key exactly when no block of it tells the key from none. -/
theorem storedUnderKey_iff (h : ∀ r' ∈ r :: rs, InRange P P.deviceSize r'.sector r'.nsect) :
    StoredUnderKey E (P.withKey key) data rs r ↔
      ∀ j, 16 * (j + 1) ≤ r.nsect * P.logicalBlockSize →
        E.encrypt key (block 16 r.buffer (16 * j)) = E.encryptNoKey (block 16 r.buffer (16 * j)) := by
  obtain ⟨d, hd, hnoKey⟩ := @stored_noKey E P data rs r hblock key h
  constructor
  · rintro ⟨d', hd', hkey⟩ j hj
    obtain rfl : d = d' := Option.some_inj.mp (hd.symm.trans hd')
    exact (hkey j hj).symm.trans (hnoKey j hj)
  · intro hsame
    exact ⟨d, hd, fun j hj => (hnoKey j hj).trans (hsame j hj).symm⟩

end

/-! ## Two keys -/

/-- A block that two keys encrypt differently is not stored under both. -/
theorem not_storedUnderKey_both {k₁ k₂ : List UInt8} {j : ℕ}
    (hj : 16 * (j + 1) ≤ r.nsect * P.logicalBlockSize)
    (hne : E.encrypt k₁ (block 16 r.buffer (16 * j)) ≠ E.encrypt k₂ (block 16 r.buffer (16 * j))) :
    ¬ (StoredUnderKey E (P.withKey k₁) data rs r ∧ StoredUnderKey E (P.withKey k₂) data rs r) := by
  rintro ⟨⟨d₁, h₁, hd₁⟩, ⟨d₂, h₂, hd₂⟩⟩
  rw [afterWrite_withKey k₁ k₂, h₂, Option.some_inj] at h₁
  subst h₁
  exact hne ((hd₁ j hj).symm.trans (hd₂ j hj))

/-- **The key is never used.** After every run and write the device bytes are the same under any two
keys; if the keys encrypt a block of the write differently, they are not stored under both; and inside
the device every write ends, with every block encrypted by the cipher without a key. -/
theorem key_never_used (E : Aes) (P : Config) (data : Bytes) (rs : List Request) (r : Request) :
    (∀ k₁ k₂, afterWrite E (P.withKey k₁) data rs r = afterWrite E (P.withKey k₂) data rs r) ∧
    (∀ k₁ k₂ j, 16 * (j + 1) ≤ r.nsect * P.logicalBlockSize →
      E.encrypt k₁ (block 16 r.buffer (16 * j)) ≠ E.encrypt k₂ (block 16 r.buffer (16 * j)) →
      ¬ (StoredUnderKey E (P.withKey k₁) data rs r ∧ StoredUnderKey E (P.withKey k₂) data rs r)) ∧
    (16 ∣ P.logicalBlockSize → (∀ r' ∈ r :: rs, InRange P P.deviceSize r'.sector r'.nsect) →
      ∀ key, ∃ d, afterWrite E (P.withKey key) data rs r = some d ∧
        ∀ j, 16 * (j + 1) ≤ r.nsect * P.logicalBlockSize →
          BlockStored P.logicalBlockSize r E.encryptNoKey d j) :=
  ⟨afterWrite_withKey, fun _ _ _ => not_storedUnderKey_both, fun hblock h key =>
    stored_noKey hblock key h⟩

/-- What AES does to a block of zeros under two keys and without one, when all its round keys are
zero. -/
def aesOnZeros : Aes where
  encrypt key _ j :=
    if key = "cs444hw3cs444hw3".toUTF8.toList then
      [0x6b, 0x7f, 0xd3, 0x68, 0x95, 0xd6, 0xc8, 0xd8, 0x54, 0x8c, 0xa0, 0xb0, 0x3a, 0xb9, 0x0c,
        0x33].getD j 0
    else
      [0x0a, 0x75, 0x85, 0xb5, 0x23, 0x4c, 0xd3, 0xff, 0x1b, 0x50, 0x93, 0xbf, 0xa6, 0x7e, 0xd6,
        0x47].getD j 0
  decrypt _ _ _ := 0
  encryptNoKey _ _ := 0x36
  decryptNoKey _ _ := 0

/-- The default parameters with a key of 16 bytes. -/
def sampleKey (key : String) : Config :=
  Config.withKey ⟨32, le_rfl, 512, 1024, [], 0⟩ key.toUTF8.toList

/-- A sector of zeros. -/
def writeZeros : Request := ⟨0, 1, fun _ => 0, true⟩

theorem key_never_used_zeros :
    ¬ (StoredUnderKey aesOnZeros (sampleKey "cs444hw3cs444hw3") (fun _ => 0) [] writeZeros ∧
      StoredUnderKey aesOnZeros (sampleKey "cs444hw4cs444hw4") (fun _ => 0) [] writeZeros) ∧
    ∃ d, afterWrite aesOnZeros (sampleKey "cs444hw3cs444hw3") (fun _ => 0) [] writeZeros = some d ∧
      BlockStored 512 writeZeros aesOnZeros.encryptNoKey d 0 := by
  obtain ⟨-, htwo, hstored⟩ :=
    key_never_used aesOnZeros ⟨32, le_rfl, 512, 1024, [], 0⟩ (fun _ => 0) [] writeZeros
  refine ⟨htwo _ _ 0 (by decide) fun h => ?_, ?_⟩
  · exact absurd (congrFun h 0) (by decide +kernel)
  · obtain ⟨d, hd, hall⟩ := hstored (by decide)
      (by
        intro r hr
        rw [List.mem_singleton.mp hr]
        exact ⟨by decide, by decide +kernel⟩) "cs444hw3cs444hw3".toUTF8.toList
    exact ⟨d, hd, hall 0 (by decide)⟩

/-- The sector of zeros is not stored under the first key: it holds `0x36`, and AES under that key
gives `0x6b`. Under the second key, which encrypts it differently, the device bytes are the same. -/
theorem zeros_not_stored_under_key :
    InRange (sampleKey "cs444hw3cs444hw3") (sampleKey "cs444hw3cs444hw3").deviceSize
        writeZeros.sector writeZeros.nsect ∧
      aesOnZeros.encrypt "cs444hw3cs444hw3".toUTF8.toList (fun _ => 0) 0 ≠
        aesOnZeros.encrypt "cs444hw4cs444hw4".toUTF8.toList (fun _ => 0) 0 ∧
      afterWrite aesOnZeros (sampleKey "cs444hw3cs444hw3") (fun _ => 0) [] writeZeros =
        afterWrite aesOnZeros (sampleKey "cs444hw4cs444hw4") (fun _ => 0) [] writeZeros ∧
      ¬ StoredUnderKey aesOnZeros (sampleKey "cs444hw3cs444hw3") (fun _ => 0) [] writeZeros := by
  have hin : InRange (sampleKey "cs444hw3cs444hw3") (sampleKey "cs444hw3cs444hw3").deviceSize
      writeZeros.sector writeZeros.nsect := ⟨by decide, by decide +kernel⟩
  refine ⟨hin, by decide +kernel, afterWrite_withKey _ _, ?_⟩
  intro hkey
  have hsame := (@storedUnderKey_iff aesOnZeros ⟨32, le_rfl, 512, 1024, [], 0⟩ (fun _ => 0) []
    writeZeros (by decide) "cs444hw3cs444hw3".toUTF8.toList (by
      intro r hr
      rw [List.mem_singleton.mp hr]
      exact ⟨hin.nowrap, hin.inside⟩)).mp hkey
  exact absurd (congrFun (hsame 0 (by decide)) 0) (by decide +kernel)

end Cs444.Ramdisk
