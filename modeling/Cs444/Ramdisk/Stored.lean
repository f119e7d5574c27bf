import Cs444.Ramdisk.Simulation

/-!
# What is at rest on the encrypting disk

`sbd_transfer` encrypts every block on its own, under one key. So after every run the device is, block
for block, the encryption of the values last written (`stored_encrypted`), and two blocks of it are the
same exactly when the values last written there are (`stored_eq_iff`).
-/

namespace Cs444.Ramdisk

variable {κ : Type*} {C : Cipher κ} {P : Config} {dev dev' : Device κ} {rs : List Request}
  {buffers : List Bytes} {k : κ} {a b : ℕ}

/-! ## The key state after a run -/

/-- A transfer sets the key, also when it is sent back. -/
theorem sbdTransfer_crypto {sector nsect : ℕ} {buffer buffer' : Bytes} {write : Bool}
    (h : sbdTransfer C P dev sector nsect buffer write = some (dev', buffer')) :
    dev'.crypto = C.setkey dev.crypto P.key P.keyLen := by
  simp only [sbdTransfer] at h
  split_ifs at h
  · cases h
    rfl
  · obtain ⟨data, -, hres⟩ := Option.map_eq_some_iff.mp h
    cases hres
    rfl
  · obtain ⟨data, -, hres⟩ := Option.map_eq_some_iff.mp h
    cases hres
    rfl

theorem run_crypto (h : run C P dev rs = some (dev', buffers)) :
    dev'.crypto = (fun k => C.setkey k P.key P.keyLen)^[rs.length] dev.crypto := by
  induction rs generalizing dev buffers with
  | nil =>
    cases h
    rfl
  | cons r rs ih =>
    obtain ⟨p, hp, hrest⟩ := Option.bind_eq_some_iff.mp h
    obtain ⟨q, hq, hres⟩ := Option.bind_eq_some_iff.mp hrest
    cases hres
    rw [ih hq, sbdTransfer_crypto hp, List.length_cons, Function.iterate_succ_apply]

/-- What a key state of the run decrypts is encrypted again by the first one. -/
theorem RoundTrip.encrypt_decrypt (h : RoundTrip C P k) (i : ℕ) (v : Fin C.blocksize → UInt8) :
    C.encryptOne (keyAt C P k 0) (C.decryptOne (keyAt C P k i) v) = v := by
  have hinj : Function.Injective (C.encryptOne (keyAt C P k 0)) :=
    Function.LeftInverse.injective (h 0 0)
  obtain ⟨u, rfl⟩ := Finite.surjective_of_injective hinj v
  rw [h i 0]

theorem RoundTrip.encryptOne_injective (h : RoundTrip C P k) :
    Function.Injective (C.encryptOne (keyAt C P k 0)) :=
  Function.LeftInverse.injective (h 0 0)

/-! ## At rest -/

/-- **What is stored** after a run is the encryption, block for block, of the values last written. -/
theorem stored_encrypted (hblock : C.blocksize ∣ P.logicalBlockSize) (hkey : RoundTrip C P dev.crypto)
    (h : ∀ r ∈ rs, InRange P dev.size r.sector r.nsect) :
    ∃ dev' buffers, run C P dev rs = some (dev', buffers) ∧
      dev'.data = mapAll (C.encryptOne (keyAt C P dev.crypto 0))
        (lastWritten P.logicalBlockSize (plainOf C P dev).data rs) := by
  obtain ⟨dev', buffers, hrun, -, -, hplain⟩ := run_plainOf hblock hkey h
  refine ⟨dev', buffers, hrun, ?_⟩
  have hdata : (plainOf C P dev').data =
      lastWritten P.logicalBlockSize (plainOf C P dev).data rs := by
    rw [← Sbd.run_data P h, hplain]
  have hstate : C.setkey dev'.crypto P.key P.keyLen = keyAt C P dev.crypto rs.length := by
    rw [run_crypto hrun]
    exact (Function.iterate_succ_apply' (fun k => C.setkey k P.key P.keyLen) _ _).symm
  rw [← hdata]
  show _ = mapAll _ (mapAll (C.decryptOne (C.setkey dev'.crypto P.key P.keyLen)) dev'.data)
  rw [hstate, mapAll_mapAll (hkey.encrypt_decrypt rs.length)]

/-- **Equal blocks show**: after every run two blocks at rest are the same exactly when the values last
written there are. -/
theorem stored_eq_iff (hblock : C.blocksize ∣ P.logicalBlockSize) (hkey : RoundTrip C P dev.crypto)
    (h : ∀ r ∈ rs, InRange P dev.size r.sector r.nsect) :
    ∃ dev' buffers, run C P dev rs = some (dev', buffers) ∧
      (dev'.data = mapAll (C.encryptOne (keyAt C P dev.crypto 0))
        (lastWritten P.logicalBlockSize (plainOf C P dev).data rs)) ∧
      ∀ a b, C.blocksize ∣ a → C.blocksize ∣ b →
        (block C.blocksize dev'.data a = block C.blocksize dev'.data b ↔
          block C.blocksize (lastWritten P.logicalBlockSize (plainOf C P dev).data rs) a =
            block C.blocksize (lastWritten P.logicalBlockSize (plainOf C P dev).data rs) b) := by
  obtain ⟨dev', buffers, hrun, hdata⟩ := stored_encrypted hblock hkey h
  refine ⟨dev', buffers, hrun, hdata, fun a b ha hb => ?_⟩
  rw [hdata, block_mapAll ha, block_mapAll hb]
  exact hkey.encryptOne_injective.eq_iff

/-- The same text written at two places. -/
theorem stored_eq_iff_twice :
    let P : Config := ⟨32, le_rfl, 512, 2, "cs444hw3".toUTF8.toList, 8⟩
    let rs : List Request := [⟨0, 1, fun i => UInt8.ofNat (i % 16), true⟩]
    ∃ dev' buffers, run xorCipher P ⟨1024, fun _ => 7, []⟩ rs = some (dev', buffers) ∧
      block 16 dev'.data 0 = block 16 dev'.data 16 := by
  intro P rs
  have hrange : ∀ r ∈ rs, InRange P 1024 r.sector r.nsect := by
    intro r hr
    rw [List.mem_singleton.mp hr]
    exact ⟨by decide, by decide⟩
  have hblock : xorCipher.blocksize ∣ P.logicalBlockSize := by decide
  obtain ⟨dev', buffers, hrun, -, heq⟩ :=
    @stored_eq_iff _ xorCipher P ⟨1024, fun _ => 7, []⟩ rs hblock (xorCipher_roundTrip P []) hrange
  refine ⟨dev', buffers, hrun, (heq 0 16 (by decide) (by decide)).mpr ?_⟩
  funext j
  have hj := j.isLt
  have hcover : ∀ x < 512, lastWritten 512 (plainOf xorCipher P ⟨1024, fun _ => 7, []⟩).data rs x =
      UInt8.ofNat (x % 16) := by
    intro x hx
    simp [lastWritten, rs, Request.Covers, hx]
  show lastWritten 512 _ rs (0 + j) = lastWritten 512 _ rs (16 + j)
  rw [hcover _ (show 0 + (j : ℕ) < 512 by have : (j : ℕ) < 16 := hj; omega),
    hcover _ (show 16 + (j : ℕ) < 512 by have : (j : ℕ) < 16 := hj; omega), Nat.zero_add,
    Nat.add_mod_left]

end Cs444.Ramdisk
