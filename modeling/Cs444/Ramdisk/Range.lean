import Cs444.Ramdisk.Driver

/-!
# The bytes a transfer moves

The loop of `sbd_transfer` moves a block of the cipher at every value of its counter below `nbytes`
(`turns`, `cryptLoop_eq_foldl`). The offset, `nbytes`, their sum and the counter are `unsigned long`,
so a transfer may pass the range check after a product has wrapped, and the last block may go past
`nbytes`.

* `moves_iff_overwrites`: the bytes of these blocks are the ones that the transfer overwrites;
* `rangeChecked_iff`: when a transfer stays in the device and in the sectors and the buffer it was
  asked for;
* `sbdTransfer_isSome_iff`: when it ends.
-/

namespace Cs444.Ramdisk

/-- The values of the counter with which the first `fuel` turns of the loop move a block, from `i`
on. -/
def turns (w n nbytes : ℕ) : ℕ → ℕ → List ℕ
  | 0, _ => []
  | fuel + 1, i => if i < nbytes then i :: turns w n nbytes fuel ((i + n) % 2 ^ w) else []

/-- `unsigned long offset = sector * logical_block_size`. -/
def Config.offset (P : Config) (sector : ℕ) : ℕ := sector * P.logicalBlockSize % 2 ^ P.wordBits

/-- `unsigned long nbytes = nsect * logical_block_size`. -/
def Config.nbytes (P : Config) (nsect : ℕ) : ℕ := nsect * P.logicalBlockSize % 2 ^ P.wordBits

/-- The range check sends the transfer back. -/
def BeyondEnd (P : Config) (size sector nsect : ℕ) : Prop :=
  size < (P.offset sector + P.nbytes nsect) % 2 ^ P.wordBits

instance (P : Config) (size sector nsect : ℕ) : Decidable (BeyondEnd P size sector nsect) :=
  inferInstanceAs (Decidable (_ < _))

variable {κ : Type*} (C : Cipher κ) (P : Config)

/-- The transfer moves the byte `j` of the buffer, to or from the byte `offset + j` of the device. -/
def Moves (size sector nsect j : ℕ) : Prop :=
  ¬ BeyondEnd P size sector nsect ∧
    ∃ fuel, ∃ i ∈ turns P.wordBits C.blocksize (P.nbytes nsect) fuel 0, i ≤ j ∧ j < i + C.blocksize

/-- What lies at the byte `j` of the target after the transfer, of a write to the device and of a read to
the buffer, does not depend on what lay there before. -/
def Overwrites (size sector nsect j : ℕ) : Prop :=
  (∀ key data data' buffer r r',
    sbdTransfer C P ⟨size, data, key⟩ sector nsect buffer true = some r →
    sbdTransfer C P ⟨size, data', key⟩ sector nsect buffer true = some r' →
      r.1.data (P.offset sector + j) = r'.1.data (P.offset sector + j)) ∧
  ∀ key data buffer buffer' r r',
    sbdTransfer C P ⟨size, data, key⟩ sector nsect buffer false = some r →
    sbdTransfer C P ⟨size, data, key⟩ sector nsect buffer' false = some r' → r.2 j = r'.2 j

/-- A transfer that is sent back changes neither the device data nor the buffer. Every byte that another
one moves is in the device, in the sectors asked for, and in their part of the buffer, and nothing else
changes. -/
def RangeChecked (dev : Device κ) (sector nsect : ℕ) : Prop :=
  (BeyondEnd P dev.size sector nsect → ∀ buffer write, ∃ dev',
    sbdTransfer C P dev sector nsect buffer write = some (dev', buffer) ∧ dev'.data = dev.data) ∧
  (¬ BeyondEnd P dev.size sector nsect →
    (∀ j, Moves C P dev.size sector nsect j →
      P.offset sector + j < dev.size ∧ sector * P.logicalBlockSize ≤ P.offset sector + j ∧
        P.offset sector + j < (sector + nsect) * P.logicalBlockSize ∧
        j < nsect * P.logicalBlockSize) ∧
    ∀ buffer write dev' buffer',
      sbdTransfer C P dev sector nsect buffer write = some (dev', buffer') →
        (∀ a, dev'.data a ≠ dev.data a → a < dev.size ∧ sector * P.logicalBlockSize ≤ a ∧
          a < (sector + nsect) * P.logicalBlockSize) ∧
        ∀ a, buffer' a ≠ buffer a → a < nsect * P.logicalBlockSize)

/-- The bytes of the blocks that the first pass of the loop moves: `nbytes`, rounded up to a multiple
of the block size. -/
def blockBytes (nsect : ℕ) : ℕ := C.blocksize * (P.nbytes nsect ⌈/⌉ C.blocksize)

variable {C P} {w n nbytes fuel i j : ℕ} {dev dev' : Device κ} {sector nsect size : ℕ}

/-! ## The turns of the loop -/

/-- **The loop moves the blocks at its turns.** -/
theorem cryptLoop_eq_foldl {f : (Fin n → UInt8) → Fin n → UInt8} {o so : ℕ} {src m m' : Bytes}
    (h : cryptLoop w f o src so nbytes fuel i m = some m') :
    m' = (turns w n nbytes fuel i).foldl
      (fun m i => putBlock m (o + i) (f (block n src (so + i)))) m := by
  induction fuel generalizing i m with
  | zero => cases h
  | succ fuel ih =>
    unfold cryptLoop at h
    unfold turns
    split_ifs at h ⊢ with hlt
    · exact ih h
    · cases h
      rfl

/-- A transfer, with its range check named. -/
theorem sbdTransfer_eq (C : Cipher κ) (P : Config) (dev : Device κ) (sector nsect : ℕ) (buffer : Bytes)
    (write : Bool) :
    sbdTransfer C P dev sector nsect buffer write =
      if BeyondEnd P dev.size sector nsect then
        some ({ dev with crypto := C.setkey dev.crypto P.key P.keyLen }, buffer)
      else if write then
        (cryptLoop P.wordBits (C.encryptOne (C.setkey dev.crypto P.key P.keyLen)) (P.offset sector)
          buffer 0 (P.nbytes nsect) (2 ^ P.wordBits + 1) 0 dev.data).map fun data =>
            (⟨dev.size, data, C.setkey dev.crypto P.key P.keyLen⟩, buffer)
      else
        (cryptLoop P.wordBits (C.decryptOne (C.setkey dev.crypto P.key P.keyLen)) 0 dev.data
          (P.offset sector) (P.nbytes nsect) (2 ^ P.wordBits + 1) 0 buffer).map fun buffer =>
            ({ dev with crypto := C.setkey dev.crypto P.key P.keyLen }, buffer) :=
  rfl

/-- A transfer that passes the range check and ends has moved the blocks at the turns of its loop. -/
theorem sbdTransfer_eq_foldl {buffer : Bytes} {write : Bool} {r : Device κ × Bytes}
    (hin : ¬ BeyondEnd P dev.size sector nsect)
    (h : sbdTransfer C P dev sector nsect buffer write = some r) :
    if write then
      r.2 = buffer ∧ r.1.data = (turns P.wordBits C.blocksize (P.nbytes nsect)
        (2 ^ P.wordBits + 1) 0).foldl (fun m i => putBlock m (P.offset sector + i)
          (C.encryptOne (C.setkey dev.crypto P.key P.keyLen) (block C.blocksize buffer (0 + i))))
          dev.data
    else
      r.1.data = dev.data ∧ r.2 = (turns P.wordBits C.blocksize (P.nbytes nsect)
        (2 ^ P.wordBits + 1) 0).foldl (fun m i => putBlock m (0 + i)
          (C.decryptOne (C.setkey dev.crypto P.key P.keyLen)
            (block C.blocksize dev.data (P.offset sector + i)))) buffer := by
  rw [sbdTransfer_eq, if_neg hin] at h
  cases write with
  | true =>
    obtain ⟨data, hloop, hres⟩ := Option.map_eq_some_iff.mp h
    cases hres
    exact ⟨rfl, cryptLoop_eq_foldl hloop⟩
  | false =>
    obtain ⟨data, hloop, hres⟩ := Option.map_eq_some_iff.mp h
    cases hres
    exact ⟨rfl, cryptLoop_eq_foldl hloop⟩

/-- A loop that ends makes no further turns. -/
theorem mem_turns_of_ends {f : (Fin n → UInt8) → Fin n → UInt8} {o so fuel' x : ℕ} {src m m' : Bytes}
    (h : cryptLoop w f o src so nbytes fuel i m = some m') (hx : x ∈ turns w n nbytes fuel' i) :
    x ∈ turns w n nbytes fuel i := by
  induction fuel generalizing fuel' i m with
  | zero => cases h
  | succ fuel ih =>
    cases fuel' with
    | zero => cases hx
    | succ fuel' =>
      unfold cryptLoop at h
      unfold turns at hx ⊢
      split_ifs at h hx ⊢ with hlt
      · rcases List.mem_cons.mp hx with rfl | hx
        · exact List.mem_cons_self
        · exact List.mem_cons_of_mem _ (ih h hx)
      · exact hx

/-- The bytes that a transfer moves are in the blocks at the turns of its loop. -/
theorem moves_iff_covered {buffer : Bytes} {write : Bool} {r : Device κ × Bytes}
    (hin : ¬ BeyondEnd P dev.size sector nsect)
    (h : sbdTransfer C P dev sector nsect buffer write = some r) :
    Moves C P dev.size sector nsect j ↔
      ∃ i ∈ turns P.wordBits C.blocksize (P.nbytes nsect) (2 ^ P.wordBits + 1) 0,
        i ≤ j ∧ j < i + C.blocksize := by
  constructor
  · rintro ⟨-, fuel, i, hi, hcov⟩
    rw [sbdTransfer_eq, if_neg hin] at h
    cases write with
    | true =>
      obtain ⟨data, hloop, -⟩ := Option.map_eq_some_iff.mp h
      exact ⟨i, mem_turns_of_ends hloop hi, hcov⟩
    | false =>
      obtain ⟨data, hloop, -⟩ := Option.map_eq_some_iff.mp h
      exact ⟨i, mem_turns_of_ends hloop hi, hcov⟩
  · rintro ⟨i, hi, hcov⟩
    exact ⟨hin, _, i, hi, hcov⟩

/-- **What a transfer changes** are bytes that it moves. -/
theorem sbdTransfer_changes {buffer : Bytes} {write : Bool} {r : Device κ × Bytes}
    (h : sbdTransfer C P dev sector nsect buffer write = some r) :
    (∀ a, r.1.data a ≠ dev.data a → ∃ j, Moves C P dev.size sector nsect j ∧ a = P.offset sector + j) ∧
      ∀ a, r.2 a ≠ buffer a → Moves C P dev.size sector nsect a := by
  by_cases hin : BeyondEnd P dev.size sector nsect
  · rw [sbdTransfer_eq, if_pos hin] at h
    cases h
    exact ⟨fun a ha => absurd rfl ha, fun a ha => absurd rfl ha⟩
  have heffect := sbdTransfer_eq_foldl hin h
  have hcov := fun j => moves_iff_covered (j := j) hin h
  cases write with
  | true =>
    obtain ⟨hbuffer, hdata⟩ := heffect
    refine ⟨fun a ha => ?_, fun a ha => absurd (congrFun hbuffer a) ha⟩
    by_contra hno
    refine ha ((congrFun hdata a).trans (foldl_putBlock_of_outside ?_ _))
    intro i hi hia
    exact hno ⟨a - P.offset sector, (hcov _).mpr ⟨i, hi, by omega⟩, by omega⟩
  | false =>
    obtain ⟨hdata, hbuffer⟩ := heffect
    refine ⟨fun a ha => absurd (congrFun hdata a) ha, fun a ha => ?_⟩
    by_contra hno
    refine ha ((congrFun hbuffer a).trans (foldl_putBlock_of_outside ?_ _))
    intro i hi hia
    exact hno ((hcov a).mpr ⟨i, hi, by omega⟩)

/-- The counter is below `nbytes` at every turn. -/
theorem lt_of_mem_turns {x : ℕ} (h : x ∈ turns w n nbytes fuel i) : x < nbytes := by
  induction fuel generalizing i with
  | zero => cases h
  | succ fuel ih =>
    unfold turns at h
    split_ifs at h with hlt
    · rcases List.mem_cons.mp h with rfl | h
      · exact hlt
      · exact ih h
    · cases h

/-- The loop gets to every multiple of the block size below `nbytes`. -/
theorem mem_turns (hw : nbytes ≤ 2 ^ w) {s t : ℕ} (hst : s ≤ t) (ht : n * t < nbytes) :
    n * t ∈ turns w n nbytes (t - s + 1) (n * s) := by
  obtain ⟨d, rfl⟩ := Nat.exists_eq_add_of_le hst
  rw [Nat.add_sub_cancel_left]
  induction d generalizing s with
  | zero =>
    unfold turns
    rw [if_pos (by simpa using ht)]
    simp
  | succ d ih =>
    have hle : n * (s + 1) ≤ n * (s + (d + 1)) := Nat.mul_le_mul_left n (by omega)
    rw [Nat.mul_succ] at hle
    unfold turns
    rw [if_pos (by omega), Nat.mod_eq_of_lt (by omega), ← Nat.mul_succ]
    have hshift : s + (d + 1) = s + 1 + d := by omega
    rw [hshift] at ht ⊢
    exact List.mem_cons_of_mem _ (ih (by omega) ht)

theorem blockBytes_le (C : Cipher κ) (P : Config) {nsect t : ℕ} (h : P.nbytes nsect ≤ C.blocksize * t) :
    blockBytes C P nsect ≤ C.blocksize * t :=
  Nat.mul_le_mul_left _ ((ceilDiv_le_iff_le_mul C.blocksize_pos).mpr h)

/-- A pass that does not wrap moves whole blocks up to `blockBytes`. -/
theorem turns_bound (hw : blockBytes C P nsect < 2 ^ P.wordBits) (hi : C.blocksize ∣ i) {x : ℕ}
    (hx : x ∈ turns P.wordBits C.blocksize (P.nbytes nsect) fuel i) :
    x + C.blocksize ≤ blockBytes C P nsect := by
  induction fuel generalizing i with
  | zero => cases hx
  | succ fuel ih =>
    unfold turns at hx
    split_ifs at hx with hlt
    · have hnext : i + C.blocksize ≤ blockBytes C P nsect := by
        obtain ⟨t, rfl⟩ := hi
        have hceil : t < P.nbytes nsect ⌈/⌉ C.blocksize := by
          by_contra hle
          have := (ceilDiv_le_iff_le_mul C.blocksize_pos).mp (Nat.le_of_not_lt hle)
          omega
        exact Nat.mul_le_mul_left C.blocksize hceil
      rcases List.mem_cons.mp hx with rfl | hx
      · exact hnext
      · rw [Nat.mod_eq_of_lt (by omega)] at hx
        exact ih (Nat.dvd_add hi dvd_rfl) hx
    · cases hx

theorem nbytes_lt (P : Config) (nsect : ℕ) : P.nbytes nsect < 2 ^ P.wordBits :=
  Nat.mod_lt _ (Nat.two_pow_pos _)

/-- Every byte of the blocks of the first pass is moved. -/
theorem moves_of_lt (hin : ¬ BeyondEnd P size sector nsect) (hj : j < blockBytes C P nsect) :
    Moves C P size sector nsect j := by
  have hmod := Nat.div_add_mod j C.blocksize
  have hlt := Nat.mod_lt j C.blocksize_pos
  have hstart : C.blocksize * (j / C.blocksize) < P.nbytes nsect := by
    by_contra hle
    have := blockBytes_le C P (Nat.le_of_not_lt hle)
    omega
  have hmem := mem_turns (Nat.le_of_lt (nbytes_lt P nsect)) (Nat.zero_le _) hstart
  exact ⟨hin, _, _, hmem, by omega, by omega⟩

theorem Moves.lt_blockBytes (h : Moves C P size sector nsect j)
    (hw : blockBytes C P nsect < 2 ^ P.wordBits) : j < blockBytes C P nsect := by
  obtain ⟨-, fuel, i, hi, -, hj⟩ := h
  have := turns_bound hw (Nat.dvd_zero _) hi
  omega

theorem nbytes_le_blockBytes (C : Cipher κ) (P : Config) (nsect : ℕ) :
    P.nbytes nsect ≤ blockBytes C P nsect :=
  (ceilDiv_le_iff_le_mul C.blocksize_pos).mp le_rfl

theorem blockBytes_pos_iff (C : Cipher κ) (P : Config) (nsect : ℕ) :
    0 < blockBytes C P nsect ↔ 0 < P.nbytes nsect := by
  have hle := nbytes_le_blockBytes C P nsect
  constructor
  · intro h
    by_contra hz
    have := blockBytes_le (t := 0) C P (show P.nbytes nsect ≤ _ by omega)
    omega
  · omega

/-! ## The range check -/

/-- **The range check** does its work exactly when it sends the transfer back, or there is nothing to
move, or the sectors asked for are inside the device and their bytes are a whole number of blocks, or
have wrapped to fewer. -/
theorem rangeChecked_iff (hsize : dev.size < 2 ^ P.wordBits) :
    RangeChecked C P dev sector nsect ↔
      dev.size < (sector * P.logicalBlockSize + nsect * P.logicalBlockSize) % 2 ^ P.wordBits ∨
        nsect * P.logicalBlockSize % 2 ^ P.wordBits = 0 ∨
        sector * P.logicalBlockSize + blockBytes C P nsect ≤ dev.size ∧
          blockBytes C P nsect ≤ nsect * P.logicalBlockSize := by
  have hpos := blockBytes_pos_iff C P nsect
  have hbeyond : BeyondEnd P dev.size sector nsect ↔
      dev.size < (sector * P.logicalBlockSize + nsect * P.logicalBlockSize) % 2 ^ P.wordBits := by
    unfold BeyondEnd Config.offset Config.nbytes
    rw [← Nat.add_mod]
  rw [← hbeyond, show nsect * P.logicalBlockSize % 2 ^ P.wordBits = P.nbytes nsect from rfl]
  constructor
  · rintro ⟨-, hpass⟩
    by_cases hb : BeyondEnd P dev.size sector nsect
    · exact .inl hb
    by_cases hz : P.nbytes nsect = 0
    · exact .inr (.inl hz)
    -- the first and the last byte of the first pass
    obtain ⟨hinside, -⟩ := hpass hb
    obtain ⟨-, hfirst, -⟩ := hinside 0 (moves_of_lt hb (by omega))
    obtain ⟨hlast, -, -, hbuf⟩ := hinside (blockBytes C P nsect - 1) (moves_of_lt hb (by omega))
    have hoff : P.offset sector ≤ sector * P.logicalBlockSize := Nat.mod_le _ _
    exact .inr (.inr ⟨by omega, by omega⟩)
  · intro hcond
    refine ⟨fun hb buffer write => ?_, fun hin => ?_⟩
    · rw [sbdTransfer_eq, if_pos hb]
      exact ⟨_, rfl, rfl⟩
    have hinside : ∀ j, Moves C P dev.size sector nsect j →
        P.offset sector + j < dev.size ∧ sector * P.logicalBlockSize ≤ P.offset sector + j ∧
          P.offset sector + j < (sector + nsect) * P.logicalBlockSize ∧
          j < nsect * P.logicalBlockSize := by
      intro j hj
      rcases hcond with hb | hz | ⟨hdev, hbuf⟩
      · exact absurd hb hin
      · have := hj.lt_blockBytes (by omega)
        omega
      · have hoff : P.offset sector = sector * P.logicalBlockSize := Nat.mod_eq_of_lt (by omega)
        have hlt := hj.lt_blockBytes (by omega)
        rw [hoff, Nat.add_mul]
        exact ⟨by omega, by omega, by omega, by omega⟩
    refine ⟨hinside, fun buffer write dev' buffer' htransfer => ?_⟩
    obtain ⟨hdata, hbuffer⟩ := sbdTransfer_changes htransfer
    refine ⟨fun a ha => ?_, fun a ha => (hinside a (hbuffer a ha)).2.2.2⟩
    obtain ⟨j, hj, rfl⟩ := hdata a ha
    obtain ⟨h₁, h₂, h₃, -⟩ := hinside j hj
    exact ⟨h₁, h₂, h₃⟩

/-- The default parameters, and the last sector. -/
theorem rangeChecked_default :
    RangeChecked xorCipher ⟨32, le_rfl, 512, 1024, "cs444hw3".toUTF8.toList, 8⟩
      ⟨524288, fun _ => 0, []⟩ 1023 1 := by
  apply (rangeChecked_iff (by decide)).mpr
  decide

/-- With one sector more than 2^32 bytes hold, `Device.size` is 512 on a 32-bit machine. The last
sector is below the capacity; its offset wraps to 0, and the transfer moves the first sector. -/
theorem rangeChecked_fails :
    let P : Config := ⟨32, le_rfl, 512, 8388609, "cs444hw3".toUTF8.toList, 8⟩
    P.deviceSize = 512 ∧ 8388608 + 1 ≤ P.capacity ∧
      ¬ RangeChecked xorCipher P ⟨512, fun _ => 0, []⟩ 8388608 1 := by
  intro P
  refine ⟨by decide, by decide, ?_⟩
  have hin : ¬ BeyondEnd P 512 8388608 1 := by decide
  rintro ⟨-, hpass⟩
  obtain ⟨-, hfirst, -⟩ := (hpass hin).1 0 (moves_of_lt hin (by decide))
  exact absurd hfirst (by decide)

/-! ## Transfers that end -/

/-- The loop ends exactly when its counter gets to `nbytes`. -/
theorem cryptLoop_isSome_iff {f : (Fin n → UInt8) → Fin n → UInt8} {o so : ℕ} {src m : Bytes}
    (hi : i < 2 ^ w) :
    (cryptLoop w f o src so nbytes fuel i m).isSome ↔ ∃ t < fuel, nbytes ≤ (i + t * n) % 2 ^ w := by
  induction fuel generalizing i m with
  | zero => simp [cryptLoop]
  | succ fuel ih =>
    have hstep : ∀ t, ((i + n) % 2 ^ w + t * n) % 2 ^ w = (i + (t + 1) * n) % 2 ^ w := by
      intro t
      rw [Nat.mod_add_mod, Nat.succ_mul]
      congr 1
      omega
    unfold cryptLoop
    by_cases hlt : i < nbytes
    · rw [if_pos hlt, ih (Nat.mod_lt _ (Nat.two_pow_pos w))]
      constructor
      · rintro ⟨t, ht, hle⟩
        rw [hstep] at hle
        exact ⟨t + 1, by omega, hle⟩
      · rintro ⟨t, ht, hle⟩
        cases t with
        | zero =>
          rw [Nat.zero_mul, Nat.add_zero, Nat.mod_eq_of_lt hi] at hle
          omega
        | succ t => exact ⟨t, by omega, by rw [hstep]; exact hle⟩
    · rw [if_neg hlt]
      refine iff_of_true rfl ⟨0, by omega, ?_⟩
      rw [Nat.zero_mul, Nat.add_zero, Nat.mod_eq_of_lt hi]
      omega

/-- The range check sends the transfer back, or its counter gets to `nbytes` on the way around the
values of an `unsigned long`. -/
def TransferEnds (C : Cipher κ) (P : Config) (size sector nsect : ℕ) : Prop :=
  BeyondEnd P size sector nsect ∨ ∃ t, P.nbytes nsect ≤ t * C.blocksize % 2 ^ P.wordBits

/-- **When a transfer ends.** -/
theorem sbdTransfer_isSome_iff (buffer : Bytes) (write : Bool) :
    (sbdTransfer C P dev sector nsect buffer write).isSome ↔
      TransferEnds C P dev.size sector nsect := by
  have hloop : (∃ t < 2 ^ P.wordBits + 1,
      P.nbytes nsect ≤ (0 + t * C.blocksize) % 2 ^ P.wordBits) ↔
        ∃ t, P.nbytes nsect ≤ t * C.blocksize % 2 ^ P.wordBits := by
    simp only [Nat.zero_add]
    constructor
    · rintro ⟨t, -, hle⟩
      exact ⟨t, hle⟩
    · rintro ⟨t, hle⟩
      refine ⟨t % 2 ^ P.wordBits, ?_, by rwa [Nat.mod_mul_mod]⟩
      exact Nat.lt_succ_of_lt (Nat.mod_lt _ (Nat.two_pow_pos _))
  unfold TransferEnds
  rw [sbdTransfer_eq, ← hloop]
  by_cases hb : BeyondEnd P dev.size sector nsect
  · rw [if_pos hb]
    exact iff_of_true rfl (.inl hb)
  rw [if_neg hb, or_iff_right hb]
  cases write with
  | true =>
    rw [if_pos rfl, Option.isSome_map, cryptLoop_isSome_iff (Nat.two_pow_pos _)]
  | false =>
    rw [if_neg Bool.false_ne_true, Option.isSome_map, cryptLoop_isSome_iff (Nat.two_pow_pos _)]

/-- The bytes that a transfer moves are the ones that it overwrites. -/
theorem moves_iff_overwrites (key : κ) (hends : TransferEnds C P size sector nsect) :
    Moves C P size sector nsect j ↔ Overwrites C P size sector nsect j := by
  constructor
  · intro hmoves
    have hin := hmoves.1
    constructor
    · intro key data data' buffer r r' hr hr'
      obtain ⟨-, hdata⟩ := sbdTransfer_eq_foldl hin hr
      obtain ⟨-, hdata'⟩ := sbdTransfer_eq_foldl hin hr'
      obtain ⟨i, hi, hij⟩ := (moves_iff_covered hin hr).mp hmoves
      rw [hdata, hdata']
      exact foldl_putBlock_of_covered ⟨i, hi, by omega⟩ _ _
    · intro key data buffer buffer' r r' hr hr'
      obtain ⟨-, hbuf⟩ := sbdTransfer_eq_foldl hin hr
      obtain ⟨-, hbuf'⟩ := sbdTransfer_eq_foldl hin hr'
      obtain ⟨i, hi, hij⟩ := (moves_iff_covered hin hr).mp hmoves
      rw [hbuf, hbuf']
      exact foldl_putBlock_of_covered ⟨i, hi, by omega⟩ _ _
  · intro hover
    by_contra hno
    have hstays : ∀ {data : Bytes} {r}, sbdTransfer C P ⟨size, data, key⟩ sector nsect (fun _ => 0) true =
        some r → r.1.data (P.offset sector + j) = data (P.offset sector + j) := by
      intro data r hr
      by_contra hne
      obtain ⟨j', hj', heq⟩ := (sbdTransfer_changes hr).1 _ hne
      exact hno (Nat.add_left_cancel heq ▸ hj')
    -- a write to a device of zeros, and to one of ones
    have hsome : ∀ data, (sbdTransfer C P ⟨size, data, key⟩ sector nsect (fun _ => 0) true).isSome :=
      fun data => (sbdTransfer_isSome_iff _ _).mpr hends
    obtain ⟨r, hr⟩ := Option.isSome_iff_exists.mp (hsome fun _ => 0)
    obtain ⟨r', hr'⟩ := Option.isSome_iff_exists.mp (hsome fun _ => 1)
    have hsame := hover.1 key _ _ _ r r' hr hr'
    rw [hstays hr, hstays hr'] at hsame
    exact absurd hsame (by decide)

end Cs444.Ramdisk
