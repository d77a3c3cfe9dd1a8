import HcOs.Device.Disk
import HcOs.Lib.Bytes

/-!
# Sectors (`ide_read` and `ide_write` of `device/ide.c`)

What the two calls do to the data: a disk is the memory of its bytes, sector `l` being the bytes
`512 * l, …, 512 * l + 511`.  The disk honours the address and count registers, a count of 0 being
256 sectors, and always becomes ready, so the `PANIC` behind `busy_wait` is not reached.  The
handshake with the interrupt handler is the subject of `HcOs.Device.Disk`.

* `ideRead_eq`, `ideWrite_eq`: a transfer inside the disk is one `copy`.
-/

namespace HcOs.Sectors

open HcOs.Lib
open HcOs.Disk (maxLba secsOp)

def sectorSize : ℕ := 512

/-- The registers of a channel that `select_sector` writes. -/
structure Regs where
  sectCnt : BitVec 8
  lbaL : BitVec 8
  lbaM : BitVec 8
  lbaH : BitVec 8
  dev : BitVec 8

/-- The sector the disk is asked for: 28 bits, the high four in the device register. -/
def Regs.lba (r : Regs) : ℕ :=
  r.lbaL.toNat + 2 ^ 8 * r.lbaM.toNat + 2 ^ 16 * r.lbaH.toNat + 2 ^ 24 * (r.dev.toNat % 16)

/-- `select_sector`; `secCnt` and the values of the ports are `uint8_t`. -/
def selectSector (devNo lba secCnt : ℕ) : Except Halt Regs := do
  assert (lba ≤ maxLba) "select_sector" "lba <= max_lba"
  .ok {
    sectCnt := BitVec.ofNat 8 secCnt
    lbaL := BitVec.ofNat 8 lba
    lbaM := BitVec.ofNat 8 (lba / 2 ^ 8)
    lbaH := BitVec.ofNat 8 (lba / 2 ^ 16)
    dev := 0xa0#8 ||| 0x40#8 ||| (if devNo = 1 then 0x10#8 else 0#8) ||| BitVec.ofNat 8 (lba / 2 ^ 24) }

/-- `size_in_byte` of `read_from_sector` and `write2sector`, and the bytes the disk moves. -/
def sizeInByte (secCnt : BitVec 8) : ℕ :=
  if secCnt = 0#8 then 256 * 512 else secCnt.toNat * 512

/-- `read_from_sector`, into the buffer from `a` on. -/
def readFromSector (disk : Bytes) (r : Regs) (buf : Bytes) (a : ℕ) : Bytes :=
  buf.copy a disk (r.lba * 512) (sizeInByte r.sectCnt)

/-- `write2sector`, from the buffer from `a` on. -/
def write2sector (disk : Bytes) (r : Regs) (buf : Bytes) (a : ℕ) : Bytes :=
  disk.copy (r.lba * 512) buf a (sizeInByte r.sectCnt)

/-- The loop of `ide_read` and `ide_write` over what the chunks change. -/
def chunkLoop (move : Bytes → Regs → ℕ → Bytes) (devNo lba secCnt : ℕ) :
    ℕ → ℕ → Bytes → Except Halt Bytes
  | 0, _, _ => .error .noReturn
  | fuel + 1, secsDone, x =>
    if secsDone < secCnt then do
      let r ← selectSector devNo ((lba + secsDone) % 2 ^ 32) (secsOp secsDone secCnt)
      chunkLoop move devNo lba secCnt fuel ((secsDone + secsOp secsDone secCnt) % 2 ^ 32)
        (move x r secsDone)
    else .ok x

/-- `ide_read` into the buffer from `a` on; the result is the buffer. -/
def ideRead (disk : Bytes) (devNo lba : ℕ) (buf : Bytes) (a secCnt : ℕ) : Except Halt Bytes := do
  assert (lba ≤ maxLba) "ide_read" "lba <= max_lba"
  assert (secCnt > 0) "ide_read" "sec_cnt > 0"
  chunkLoop (fun buf r secsDone => readFromSector disk r buf (a + secsDone * 512))
    devNo lba secCnt (secCnt + 1) 0 buf

/-- `ide_write` from the buffer from `a` on; the result is the disk. -/
def ideWrite (disk : Bytes) (devNo lba : ℕ) (buf : Bytes) (a secCnt : ℕ) : Except Halt Bytes := do
  assert (lba ≤ maxLba) "ide_write" "lba <= max_lba"
  assert (secCnt > 0) "ide_write" "sec_cnt > 0"
  chunkLoop (fun disk r secsDone => write2sector disk r buf (a + secsDone * 512))
    devNo lba secCnt (secCnt + 1) 0 disk

/-! ## One chunk -/

variable {devNo lba secCnt : ℕ}

theorem dev_toNat (hlba : lba ≤ maxLba) :
    (0xa0#8 ||| 0x40#8 ||| (if devNo = 1 then 0x10#8 else 0#8) |||
      BitVec.ofNat 8 (lba / 2 ^ 24)).toNat % 16 = 0 := by
  have hzero : lba / 2 ^ 24 = 0 := by
    unfold maxLba at hlba
    omega
  rw [hzero]
  split <;> decide

/-- The registers name the sector and the count that were asked for. -/
theorem selectSector_eq (devNo : ℕ) (hlba : lba ≤ maxLba) (hpos : 1 ≤ secCnt) (hle : secCnt ≤ 256) :
    ∃ r, selectSector devNo lba secCnt = .ok r ∧ r.lba = lba ∧
      sizeInByte r.sectCnt = secCnt * 512 := by
  refine ⟨_, assert_bind_of hlba _, ?_, ?_⟩
  · unfold Regs.lba
    simp only [dev_toNat hlba, BitVec.toNat_ofNat]
    unfold maxLba at hlba
    omega
  · unfold sizeInByte
    by_cases h256 : secCnt = 256
    · subst h256
      rfl
    · have hsmall : secCnt % 2 ^ 8 = secCnt := Nat.mod_eq_of_lt (by omega)
      have hne : BitVec.ofNat 8 secCnt ≠ 0#8 := by
        intro h0
        have := congrArg BitVec.toNat h0
        rw [BitVec.toNat_ofNat, hsmall] at this
        simp at this
        omega
      rw [if_neg hne, BitVec.toNat_ofNat, hsmall]

theorem secsOp_spec {secsDone : ℕ} (hlt : secsDone < secCnt) (hcnt : secCnt + 256 < 2 ^ 32) :
    1 ≤ secsOp secsDone secCnt ∧ secsOp secsDone secCnt ≤ 256 ∧
      secsDone + secsOp secsDone secCnt ≤ secCnt := by
  unfold secsOp
  rw [Nat.mod_eq_of_lt (by omega)]
  split
  · omega
  · omega

/-! ## The loop -/

/-- The chunks of a transfer inside the disk add up: if a chunk appends `512` bytes for each of its
sectors to what is moved, the loop moves `secCnt` sectors. -/
theorem chunkLoop_eq (move : Bytes → Regs → ℕ → Bytes) (moved : ℕ → Bytes) (devNo : ℕ)
    (hpos : 1 ≤ secCnt) (hend : lba + secCnt ≤ maxLba + 1)
    (hmove : ∀ r secsDone n, r.lba = lba + secsDone → sizeInByte r.sectCnt = n * 512 →
      move (moved secsDone) r secsDone = moved (secsDone + n))
    (fuel secsDone : ℕ) (hle : secsDone ≤ secCnt) (hfuel : secCnt < secsDone + fuel) :
    chunkLoop move devNo lba secCnt fuel secsDone (moved secsDone) = .ok (moved secCnt) := by
  induction fuel generalizing secsDone with
  | zero => omega
  | succ fuel ih =>
    unfold chunkLoop
    by_cases hlt : secsDone < secCnt
    · have hmax : maxLba = 163839 := rfl
      obtain ⟨h1, h256, hop⟩ := secsOp_spec hlt (by omega)
      have hlba : lba + secsDone ≤ maxLba := by omega
      obtain ⟨r, hr, hreg, hsize⟩ := selectSector_eq devNo hlba h1 h256
      rw [if_pos hlt, Nat.mod_eq_of_lt (a := lba + secsDone) (by omega), hr, ok_bind,
        hmove r secsDone _ hreg hsize, Nat.mod_eq_of_lt (by omega)]
      exact ih _ hop (by omega)
    · rw [if_neg hlt, show secsDone = secCnt by omega]

/-- A read inside the disk fills the buffer with the sectors asked for. -/
theorem ideRead_eq {disk buf : Bytes} {a : ℕ} (hpos : 1 ≤ secCnt)
    (hend : lba + secCnt ≤ maxLba + 1) :
    ideRead disk devNo lba buf a secCnt = .ok (buf.copy a disk (lba * 512) (secCnt * 512)) := by
  unfold ideRead
  rw [assert_bind_of (by omega), assert_bind_of (by omega)]
  have hmove : ∀ r secsDone n, r.lba = lba + secsDone → sizeInByte r.sectCnt = n * 512 →
      readFromSector disk r (buf.copy a disk (lba * 512) (secsDone * 512)) (a + secsDone * 512) =
        buf.copy a disk (lba * 512) ((secsDone + n) * 512) := by
    intro r secsDone n hlba hsize
    unfold readFromSector
    rw [hlba, hsize, Nat.add_mul, Bytes.copy_append, ← Nat.add_mul]
  have hloop := chunkLoop_eq (fun buf r secsDone => readFromSector disk r buf (a + secsDone * 512))
    (fun n => buf.copy a disk (lba * 512) (n * 512)) devNo hpos hend hmove (secCnt + 1) 0
    (Nat.zero_le _) (by omega)
  rw [Nat.zero_mul, Bytes.copy_zero] at hloop
  exact hloop

/-- A write inside the disk puts the buffer into the sectors asked for, and into no other. -/
theorem ideWrite_eq {disk buf : Bytes} {a : ℕ} (hpos : 1 ≤ secCnt)
    (hend : lba + secCnt ≤ maxLba + 1) :
    ideWrite disk devNo lba buf a secCnt = .ok (disk.copy (lba * 512) buf a (secCnt * 512)) := by
  unfold ideWrite
  rw [assert_bind_of (by omega), assert_bind_of (by omega)]
  have hmove : ∀ r secsDone n, r.lba = lba + secsDone → sizeInByte r.sectCnt = n * 512 →
      write2sector (disk.copy (lba * 512) buf a (secsDone * 512)) r buf (a + secsDone * 512) =
        disk.copy (lba * 512) buf a ((secsDone + n) * 512) := by
    intro r secsDone n hlba hsize
    unfold write2sector
    rw [hlba, hsize, Nat.add_mul, Bytes.copy_append, ← Nat.add_mul]
  have hloop := chunkLoop_eq (fun disk r secsDone => write2sector disk r buf (a + secsDone * 512))
    (fun n => disk.copy (lba * 512) buf a (n * 512)) devNo hpos hend hmove (secCnt + 1) 0
    (Nat.zero_le _) (by omega)
  rw [Nat.zero_mul, Bytes.copy_zero] at hloop
  exact hloop

end HcOs.Sectors
