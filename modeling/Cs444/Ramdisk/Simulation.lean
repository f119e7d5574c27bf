import Cs444.Ramdisk.Driver

/-!
# The encrypting disk is a plain disk

The device of `ramdisk.c`, read through the cipher, is a device of `sbd.c`: `plainOf`. Every transfer
inside the device keeps this (`sbdTransfer_plainOf`), so a whole run of transfers returns what the
plain driver returns (`run_plainOf`), and what it returns is the last value written
(`Sbd.run_data`).

The cipher has to undo itself under the key states that the transfers run under. `setkey` is called
again on every transfer, so these are the iterates of it (`keyAt`, `RoundTrip`).
-/

namespace Cs444

/-- The arguments of a call of `sbd_transfer`. -/
structure Request where
  sector : ℕ
  nsect : ℕ
  buffer : Bytes
  write : Bool

/-- The device byte `a` is in the sectors of `r`, of `s` bytes each. -/
abbrev Request.Covers (s : ℕ) (r : Request) (a : ℕ) : Prop :=
  r.sector * s ≤ a ∧ a < r.sector * s + r.nsect * s

/-! ## Runs -/

/-- The calls of a run on the plain device, with the buffers after each. -/
def Sbd.run (w s : ℕ) : Sbd.Device → List Request → Sbd.Device × List Bytes
  | dev, [] => (dev, [])
  | dev, r :: rs =>
    let p := Sbd.sbdTransfer w s dev r.sector r.nsect r.buffer r.write
    let q := Sbd.run w s p.1 rs
    (q.1, p.2 :: q.2)

/-- The byte at `a` after `rs`: what the last write there put, else `init`. -/
def lastWritten (s : ℕ) (init : Bytes) (rs : List Request) : Bytes := fun a =>
  match rs.reverse.find? fun r => r.write ∧ r.Covers s a with
  | some r => r.buffer (a - r.sector * s)
  | none => init a

namespace Ramdisk

variable {κ : Type*}

/-- The calls of a run on the encrypting device, with the buffers after each. -/
def run (C : Cipher κ) (P : Config) : Device κ → List Request → Option (Device κ × List Bytes)
  | dev, [] => some (dev, [])
  | dev, r :: rs => do
    let p ← sbdTransfer C P dev r.sector r.nsect r.buffer r.write
    let q ← run C P p.1 rs
    some (q.1, p.2 :: q.2)

variable (C : Cipher κ) (P : Config)

/-- The key state in force during transfer `i` of a run that starts with key state `k`. -/
def keyAt (k : κ) (i : ℕ) : κ := (fun k => C.setkey k P.key P.keyLen)^[i + 1] k

/-- What is encrypted in one transfer of the run is decrypted in any other. -/
def RoundTrip (k : κ) : Prop :=
  ∀ i j b, C.decryptOne (keyAt C P k i) (C.encryptOne (keyAt C P k j) b) = b

/-- The device read through the cipher. -/
def plainOf (dev : Device κ) : Sbd.Device :=
  ⟨dev.size, mapAll (C.decryptOne (C.setkey dev.crypto P.key P.keyLen)) dev.data⟩

variable {C P} {k : κ}

/-! ## Key states -/

/-- A cipher whose `setkey` gives the same state when it sets the same key again has a single key
state. -/
theorem RoundTrip.of_setkey
    (hset : C.setkey (C.setkey k P.key P.keyLen) P.key P.keyLen = C.setkey k P.key P.keyLen)
    (h : ∀ b, C.decryptOne (C.setkey k P.key P.keyLen)
      (C.encryptOne (C.setkey k P.key P.keyLen) b) = b) : RoundTrip C P k := by
  have hkey : ∀ i, keyAt C P k i = C.setkey k P.key P.keyLen := by
    intro i
    exact Function.iterate_fixed hset i
  intro i j b
  rw [hkey, hkey, h]

theorem xorCipher_roundTrip (P : Config) (k : List UInt8) : RoundTrip xorCipher P k := by
  apply RoundTrip.of_setkey
  · simp only [xorCipher]
    split_ifs <;> rfl
  · intro b
    funext j
    simp only [xorCipher, UInt8.xor_assoc, UInt8.xor_self, UInt8.xor_zero]

theorem RoundTrip.decrypt_encrypt (h : RoundTrip C P k) (b : Fin C.blocksize → UInt8) :
    C.decryptOne (C.setkey k P.key P.keyLen) (C.encryptOne (C.setkey k P.key P.keyLen) b) = b :=
  h 0 0 b

theorem RoundTrip.setkey (h : RoundTrip C P k) : RoundTrip C P (C.setkey k P.key P.keyLen) :=
  fun i j => h (i + 1) (j + 1)

/-- All the key states decrypt alike: each undoes the first encryption, which is onto. -/
theorem RoundTrip.decryptOne_eq (h : RoundTrip C P k) :
    C.decryptOne (C.setkey (C.setkey k P.key P.keyLen) P.key P.keyLen) =
      C.decryptOne (C.setkey k P.key P.keyLen) := by
  have hinj : Function.Injective (C.encryptOne (keyAt C P k 0)) :=
    Function.LeftInverse.injective (h 0 0)
  have hsurj := Finite.surjective_of_injective hinj
  funext b
  obtain ⟨b, rfl⟩ := hsurj b
  exact (h 1 0 b).trans (h 0 0 b).symm

/-! ## One transfer -/

section

variable {dev : Device κ} {r : Request} (hblock : C.blocksize ∣ P.logicalBlockSize)
  (hkey : RoundTrip C P dev.crypto) (h : InRange P dev.size r.sector r.nsect)
include hblock hkey h

/-- **One transfer**: it ends, and the device read through the cipher does what the plain driver
does. -/
theorem sbdTransfer_plainOf :
    ∃ dev' buffer', sbdTransfer C P dev r.sector r.nsect r.buffer r.write = some (dev', buffer') ∧
      dev'.size = dev.size ∧ dev'.crypto = C.setkey dev.crypto P.key P.keyLen ∧
      Sbd.sbdTransfer P.wordBits P.logicalBlockSize (plainOf C P dev) r.sector r.nsect r.buffer
        r.write = (plainOf C P dev', buffer') := by
  have hoff : C.blocksize ∣ r.sector * P.logicalBlockSize := Dvd.dvd.mul_left hblock r.sector
  have hlen : C.blocksize ∣ r.nsect * P.logicalBlockSize := Dvd.dvd.mul_left hblock r.nsect
  have hsize : InRange P (plainOf C P dev).size r.sector r.nsect := h
  have hplain := sbdTransfer_plain hsize r.buffer r.write
  cases hwrite : r.write with
  | true =>
    refine ⟨_, _, sbdTransfer_write hblock h r.buffer, rfl, rfl, ?_⟩
    rw [hwrite, if_pos rfl] at hplain
    rw [hplain]
    simp only [plainOf]
    rw [hkey.decryptOne_eq, mapAll_mapInto hkey.decrypt_encrypt hoff hlen]
  | false =>
    refine ⟨_, _, sbdTransfer_read hblock h r.buffer, rfl, rfl, ?_⟩
    rw [hwrite, if_neg Bool.false_ne_true] at hplain
    rw [hplain, mapInto_eq_copy hoff]
    simp only [plainOf]
    rw [hkey.decryptOne_eq]

end

/-! ## Runs of transfers -/

/-- **Runs**: every run inside the device ends, with the buffers of the plain driver's run. -/
theorem run_plainOf (hblock : C.blocksize ∣ P.logicalBlockSize) {dev : Device κ}
    (hkey : RoundTrip C P dev.crypto) {rs : List Request}
    (h : ∀ r ∈ rs, InRange P dev.size r.sector r.nsect) :
    ∃ dev' buffers, run C P dev rs = some (dev', buffers) ∧ dev'.size = dev.size ∧
      RoundTrip C P dev'.crypto ∧
      Sbd.run P.wordBits P.logicalBlockSize (plainOf C P dev) rs = (plainOf C P dev', buffers) := by
  induction rs generalizing dev with
  | nil => exact ⟨dev, [], rfl, rfl, hkey, rfl⟩
  | cons r rs ih =>
    obtain ⟨hr, hrs⟩ := List.forall_mem_cons.mp h
    obtain ⟨dev₁, buffer, hstep, hsize, hcrypto, hplain⟩ := sbdTransfer_plainOf hblock hkey hr
    have hkey₁ : RoundTrip C P dev₁.crypto := hcrypto ▸ hkey.setkey
    obtain ⟨dev₂, buffers, hrun, hsize₂, hkey₂, hplains⟩ := ih hkey₁ (hsize ▸ hrs)
    refine ⟨dev₂, buffer :: buffers, ?_, hsize₂.trans hsize, hkey₂, ?_⟩
    · unfold run
      rw [hstep]
      show (run C P dev₁ rs).bind _ = _
      rw [hrun]
      rfl
    · simp only [Sbd.run, hplain, hplains]

end Ramdisk

/-! ## The plain driver gives the last value written -/

theorem lastWritten_cons (s : ℕ) (init : Bytes) (r : Request) (rs : List Request) :
    lastWritten s init (r :: rs) =
      lastWritten s (if r.write then copy init (r.sector * s) r.buffer 0 (r.nsect * s) else init) rs := by
  funext a
  unfold lastWritten
  rw [List.reverse_cons, List.find?_append]
  cases hfind : rs.reverse.find? fun r => r.write ∧ r.Covers s a with
  | some r' => rfl
  | none =>
    rw [Option.none_or, List.find?_singleton]
    cases hwrite : r.write with
    | false => simp
    | true =>
      by_cases hcover : r.Covers s a
      · simp [hcover, copy]
      · simp [hcover, copy]

open Ramdisk in
theorem Sbd.run_data (P : Config) {plain : Sbd.Device} {rs : List Request}
    (h : ∀ r ∈ rs, InRange P plain.size r.sector r.nsect) :
    (Sbd.run P.wordBits P.logicalBlockSize plain rs).1.data =
      lastWritten P.logicalBlockSize plain.data rs := by
  induction rs generalizing plain with
  | nil => rfl
  | cons r rs ih =>
    obtain ⟨hr, hrs⟩ := List.forall_mem_cons.mp h
    unfold Sbd.run
    rw [lastWritten_cons, sbdTransfer_plain hr]
    cases hwrite : r.write with
    | true => exact ih hrs
    | false => exact ih hrs

namespace Ramdisk

/-! ## The two drivers -/

variable {κ : Type*} {C : Cipher κ} {P : Config}

/-- **The encrypting disk behaves as a plain disk.** After every run inside the device the buffers are
those of the plain driver, which starts from the device read through the cipher; the next read gives
the last values written, and the next transfer changes no device byte but those it writes. -/
theorem run_refines_plain (hblock : C.blocksize ∣ P.logicalBlockSize) {dev : Device κ}
    (hkey : RoundTrip C P dev.crypto) {rs : List Request}
    (h : ∀ r ∈ rs, InRange P dev.size r.sector r.nsect) :
    ∃ dev' buffers, run C P dev rs = some (dev', buffers) ∧
      Sbd.run P.wordBits P.logicalBlockSize (plainOf C P dev) rs = (plainOf C P dev', buffers) ∧
      ∀ r : Request, InRange P dev.size r.sector r.nsect →
        ∃ dev'' buffer,
          sbdTransfer C P dev' r.sector r.nsect r.buffer r.write = some (dev'', buffer) ∧
          (r.write = false → ∀ i < r.nsect * P.logicalBlockSize,
            buffer i = lastWritten P.logicalBlockSize (plainOf C P dev).data rs
              (r.sector * P.logicalBlockSize + i)) ∧
          ∀ a, ¬ (r.write ∧ r.Covers P.logicalBlockSize a) → dev''.data a = dev'.data a := by
  obtain ⟨dev', buffers, hrun, hsize, hkey', hplain⟩ := run_plainOf hblock hkey h
  have hdata : (plainOf C P dev').data =
      lastWritten P.logicalBlockSize (plainOf C P dev).data rs := by
    rw [← Sbd.run_data P h, hplain]
  refine ⟨dev', buffers, hrun, hplain, fun r hr => ?_⟩
  rw [← hsize] at hr
  cases hwrite : r.write with
  | true =>
    refine ⟨_, _, sbdTransfer_write hblock hr r.buffer, fun hread => by contradiction, ?_⟩
    intro a ha
    exact if_neg fun hcover => ha ⟨rfl, hcover⟩
  | false =>
    refine ⟨_, _, sbdTransfer_read hblock hr r.buffer, fun _ i hi => ?_, fun a _ => rfl⟩
    rw [mapInto_eq_copy (Dvd.dvd.mul_left hblock r.sector)]
    show copy r.buffer 0 (plainOf C P dev').data _ _ i = _
    rw [hdata]
    unfold copy
    rw [if_pos (by omega), Nat.sub_zero]

/-- A device of two 512-byte sectors with the module's own key, under `xorCipher`. -/
theorem run_refines_plain_xor :
    let P : Config := ⟨32, le_rfl, 512, 2, "cs444hw3".toUTF8.toList, 8⟩
    let rs : List Request := [⟨1, 1, fun i => UInt8.ofNat i, true⟩, ⟨0, 2, fun _ => 0, false⟩]
    ∃ dev' buffers, run xorCipher P ⟨1024, fun _ => 7, []⟩ rs = some (dev', buffers) ∧
      Sbd.run 32 512 (plainOf xorCipher P ⟨1024, fun _ => 7, []⟩) rs =
        (plainOf xorCipher P dev', buffers) := by
  intro P rs
  have hrange : ∀ r ∈ rs, InRange P 1024 r.sector r.nsect := by
    intro r hr
    simp only [rs, List.mem_cons, List.not_mem_nil, or_false] at hr
    obtain rfl | rfl := hr
    · exact ⟨by decide, by decide⟩
    · exact ⟨by decide, by decide⟩
  have hkey : RoundTrip xorCipher P [] := xorCipher_roundTrip P []
  have hblock : xorCipher.blocksize ∣ P.logicalBlockSize := by decide
  obtain ⟨dev', buffers, hrun, hplain, -⟩ :=
    @run_refines_plain _ xorCipher P hblock ⟨1024, fun _ => 7, []⟩ hkey rs hrange
  exact ⟨dev', buffers, hrun, hplain⟩

end Ramdisk

end Cs444
