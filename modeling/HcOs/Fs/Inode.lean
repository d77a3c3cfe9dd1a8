import HcOs.Fs.Format

/-!
# Inodes on disk (`fs/inode.c`)

An inode in memory is the bytes it occupies: `i_no` at 0, `i_size` at 4, `i_open_cnts` at 8,
`write_deny` at 12 (padded to a word), the thirteen words of `i_sectors` from 16 on, and the two
links of `inode_tag` at 68 and 72.

The inode table is an array of 76-byte slots that take no notice of sector boundaries, but
`inode_sync` and `inode_open` move whole sectors.  `inodeSync_eq` and `inodeRead_eq`: their effect
is that of a copy of one slot.

`inode_sync` keeps the number of the inode in a `uint8_t`, so the slot it writes is that of
`i_no % 256`; `roundTrip_iff` says what this means for the persistence of inodes.
-/

namespace HcOs.Fs

open HcOs.Lib HcOs.Sectors
open HcOs.Disk (maxLba)

/-! ## `struct inode` -/

abbrev Inode := Bytes

namespace Inode

def iNo (inode : Inode) : ℕ := inode.getWord 0
def iSize (inode : Inode) : ℕ := inode.getWord 4
def iOpenCnts (inode : Inode) : ℕ := inode.getWord 8
def iSectors (inode : Inode) (idx : ℕ) : ℕ := inode.getWord (16 + 4 * idx)

def setSize (inode : Inode) (v : ℕ) : Inode := inode.putWord 4 v
def setOpenCnts (inode : Inode) (v : ℕ) : Inode := inode.putWord 8 v
def setWriteDeny (inode : Inode) (v : Bool) : Inode :=
  Function.update inode 12 (if v then 1#8 else 0#8)
def setSectors (inode : Inode) (idx v : ℕ) : Inode := inode.putWord (16 + 4 * idx) v
def setTag (inode : Inode) (prev next : ℕ) : Inode := (inode.putWord 72 next).putWord 68 prev

variable (inode : Inode) (idx k v : ℕ)

theorem iSectors_lt : inode.iSectors idx < 2 ^ 32 := Bytes.getWord_lt _ _

@[simp] theorem iSize_setSize : (inode.setSize v).iSize = v % 2 ^ 32 := Bytes.getWord_putWord _ _ _

@[simp] theorem iSize_setSectors : (inode.setSectors idx v).iSize = inode.iSize :=
  Bytes.getWord_putWord_of_apart (by omega)

@[simp] theorem iSectors_setSize : (inode.setSize v).iSectors idx = inode.iSectors idx :=
  Bytes.getWord_putWord_of_apart (by omega)

@[simp] theorem iNo_setOpenCnts : (inode.setOpenCnts v).iNo = inode.iNo :=
  Bytes.getWord_putWord_of_apart (by omega)

@[simp] theorem iOpenCnts_setOpenCnts : (inode.setOpenCnts v).iOpenCnts = v % 2 ^ 32 :=
  Bytes.getWord_putWord _ _ _

theorem iOpenCnts_lt : inode.iOpenCnts < 2 ^ 32 := Bytes.getWord_lt _ _

theorem iSectors_setSectors :
    (inode.setSectors idx v).iSectors k = if k = idx then v % 2 ^ 32 else inode.iSectors k := by
  split
  · next h =>
    subst h
    exact Bytes.getWord_putWord _ _ _
  · exact Bytes.getWord_putWord_of_apart (by omega)

end Inode

/-- `struct inode_position`. -/
structure InodePosition where
  twoSec : Bool
  secLba : ℕ
  offSize : ℕ
  deriving DecidableEq, Repr

/-- `inode_locate`. -/
def inodeLocate (part : Mounted) (inodeNo : ℕ) : Except Halt InodePosition := do
  assert (inodeNo < 4096) "inode_locate" "inode_no < 4096"
  let offSize := inodeNo * inodeSize
  let offSec := offSize / 512
  let offSizeInSec := offSize % 512
  let leftInSec := 512 - offSizeInSec
  .ok {
    twoSec := decide (leftInSec < inodeSize)
    secLba := (part.sb.inodeTableLba + offSec) % 2 ^ 32
    offSize := offSizeInSec }

/-- The number of sectors that are moved for an inode. -/
def InodePosition.sects (pos : InodePosition) : ℕ := if pos.twoSec = true then 2 else 1

/-- `pure_inode`: the inode without what has a meaning only in memory. -/
def pureInode (inode : Inode) : Inode :=
  let pure : Inode := zeros.copy 0 inode 0 inodeSize
  ((pure.setOpenCnts 0).setWriteDeny false).setTag 0 0

/-- `inode_sync`; the results are the disk and `io_buf`. -/
def inodeSync (part : Mounted) (inode : Inode) (ioBuf disk : Bytes) : Except Halt (Bytes × Bytes) := do
  -- the variable is a `uint8_t`
  let inodeNo := inode.iNo % 2 ^ 8
  let pos ← inodeLocate part inodeNo
  assert (pos.secLba ≤ (part.startLba + part.secCnt) % 2 ^ 32) "inode_sync"
    "inode_pos.sec_lba <= (part->start_lba + part->sec_cnt)"
  let inodeBuf ← ideRead disk part.devNo pos.secLba ioBuf 0 pos.sects
  let inodeBuf := inodeBuf.copy pos.offSize (pureInode inode) 0 inodeSize
  let disk ← ideWrite disk part.devNo pos.secLba inodeBuf 0 pos.sects
  .ok (disk, inodeBuf)

/-! ## `inode_open` -/

/-- The inodes in memory: `open_inodes` from its head on, and what the pointers point to. -/
structure OpenInodes where
  list : List ℕ
  inode : ℕ → Inode

/-- The search in `open_inodes`. -/
def OpenInodes.find (s : OpenInodes) (inodeNo : ℕ) : Option ℕ :=
  s.list.find? fun p => (s.inode p).iNo = inodeNo

/-- Another opening of an inode in memory. -/
def OpenInodes.hit (s : OpenInodes) (p : ℕ) : OpenInodes :=
  let inode := (s.inode p).setOpenCnts (((s.inode p).iOpenCnts + 1) % 2 ^ 32)
  { s with inode := Function.update s.inode p inode }

/-- `list_push` of a new inode, which is open once. -/
def OpenInodes.push (s : OpenInodes) (new : ℕ) (inode : Inode) : OpenInodes where
  list := new :: s.list
  inode := Function.update s.inode new (inode.setOpenCnts 1)

/-- `inode_close` up to `sys_free`; the flag says whether it is called. -/
def OpenInodes.drop (s : OpenInodes) (p : ℕ) : Bool × OpenInodes :=
  let inode := (s.inode p).setOpenCnts (((s.inode p).iOpenCnts + 2 ^ 32 - 1) % 2 ^ 32)
  let s := { s with inode := Function.update s.inode p inode }
  if inode.iOpenCnts = 0 then (true, { s with list := s.list.erase p }) else (false, s)

/-- What `inode_open` reads from the disk into a new inode. -/
def inodeRead (part : Mounted) (inodeNo : ℕ) (disk : Bytes) : Except Halt Inode := do
  let pos ← inodeLocate part inodeNo
  let inodeBuf ← ideRead disk part.devNo pos.secLba zeros 0 pos.sects
  .ok (zeros.copy 0 inodeBuf pos.offSize inodeSize)

/-- `inode_open`, the allocations being granted; `new` is the address of a new inode. -/
def inodeOpen (part : Mounted) (inodeNo new : ℕ) (s : OpenInodes) (disk : Bytes) :
    Except Halt (ℕ × OpenInodes) :=
  match s.find inodeNo with
  | some p => .ok (p, s.hit p)
  | none => do
    let inode ← inodeRead part inodeNo disk
    .ok (new, s.push new inode)

/-! ## The slots of the inode table -/

variable {part : Mounted} {inode : Inode} {disk ioBuf : Bytes} {n : ℕ}

/-- The first byte of a slot. -/
def slot (part : Mounted) (n : ℕ) : ℕ := part.sb.inodeTableLba * 512 + n * inodeSize

/-- The inode table lies in the partition and on the disk. -/
structure TableOnDisk (part : Mounted) : Prop where
  inPart : part.sb.inodeTableLba + 608 ≤ part.startLba + part.secCnt
  onDisk : part.startLba + part.secCnt ≤ maxLba + 1

/-- Mounting a partition that was formatted gives such a table. -/
theorem mounted_tableOnDisk {p : Partition} (h : Fits p) : TableOnDisk (mounted p) := by
  obtain ⟨-, -, -, -, -, hroom⟩ := blockBitmap_bounds h
  have hlarge := h.large
  have hdisk := h.onDisk
  have htable : (mounted p).sb.inodeTableLba = p.startLba + 3 + blockBitmapSects p := by
    show (superBlock p).inodeTableLba = _
    rw [superBlock_eq h]
  refine ⟨?_, ?_⟩
  · show (mounted p).sb.inodeTableLba + 608 ≤ p.startLba + p.secCnt
    rw [htable]
    omega
  · show p.startLba + p.secCnt ≤ maxLba + 1
    omega

/-- The sectors of an inode cover its slot and lie in the table. -/
theorem inodeLocate_spec (h : TableOnDisk part) (hn : n < 4096) :
    ∃ pos, inodeLocate part n = .ok pos ∧ pos.secLba * 512 + pos.offSize = slot part n ∧
      pos.offSize + inodeSize ≤ pos.sects * 512 ∧
      pos.secLba + pos.sects ≤ part.sb.inodeTableLba + 608 ∧ 1 ≤ pos.sects := by
  have hin := h.inPart
  have hon := h.onDisk
  unfold maxLba at hon
  refine ⟨_, assert_bind_of hn _, ?_⟩
  have hoff : n * inodeSize / 512 ≤ 607 := by
    unfold inodeSize
    omega
  dsimp only
  rw [Nat.mod_eq_of_lt (by omega)]
  unfold slot InodePosition.sects inodeSize at *
  dsimp only
  by_cases htwo : 512 - n * 76 % 512 < 76
  · rw [decide_eq_true htwo, if_pos rfl]
    omega
  · rw [decide_eq_false htwo, if_neg (by decide)]
    omega

/-- `inode_sync` writes the slot of `i_no % 256` and nothing else. -/
theorem inodeSync_eq (h : TableOnDisk part) (inode : Inode) (ioBuf disk : Bytes) :
    ∃ buf, inodeSync part inode ioBuf disk =
      .ok (disk.copy (slot part (inode.iNo % 2 ^ 8)) (pureInode inode) 0 inodeSize, buf) := by
  have hin := h.inPart
  have hon := h.onDisk
  have hmax : maxLba = 163839 := rfl
  obtain ⟨pos, hpos, hslot, hfit, hend, h1⟩ := inodeLocate_spec h (n := inode.iNo % 2 ^ 8) (by omega)
  unfold inodeSync
  dsimp only
  rw [hpos, ok_bind, assert_bind_of (by omega), ideRead_eq h1 (by omega), ok_bind,
    ideWrite_eq h1 (by omega), ok_bind, Bytes.copy_modify hfit, hslot]
  exact ⟨_, rfl⟩

/-- `inode_open` reads the slot of its argument. -/
theorem inodeRead_eq (h : TableOnDisk part) (hn : n < 4096) (disk : Bytes) :
    inodeRead part n disk = .ok (zeros.copy 0 disk (slot part n) inodeSize) := by
  have hin := h.inPart
  have hon := h.onDisk
  obtain ⟨pos, hpos, hslot, hfit, hend, h1⟩ := inodeLocate_spec h hn
  unfold inodeRead
  rw [hpos, ok_bind, ideRead_eq h1 (by omega), ok_bind]
  congr 1
  funext i
  by_cases hi : i < inodeSize
  · rw [Bytes.copy_of_mem (Nat.zero_le i) (by omega), Bytes.copy_of_mem (Nat.zero_le _) (by omega),
      Bytes.copy_of_mem (Nat.zero_le i) (by omega), ← hslot, Nat.sub_zero, Nat.sub_zero,
      Nat.add_assoc]
  · rw [Bytes.copy_of_not_mem (by omega), Bytes.copy_of_not_mem (by omega)]

/-! ## The round trip -/

/-- What the callers of `inode_sync` rely on: it returns; a later `inode_open` of an inode that is
not in memory gives back the number, the size and the pointers; and no other inode on the disk has
changed. -/
def RoundTrip (part : Mounted) (inode : Inode) : Prop :=
  ∀ disk ioBuf : Bytes, ∃ disk' buf, inodeSync part inode ioBuf disk = .ok (disk', buf) ∧
    (∀ (s : OpenInodes) (new : ℕ), s.find inode.iNo = none →
      ∃ s', inodeOpen part inode.iNo new s disk' = .ok (new, s') ∧
        (s'.inode new).iNo = inode.iNo ∧ (s'.inode new).iSize = inode.iSize ∧
        ∀ idx, idx < 13 → (s'.inode new).iSectors idx = inode.iSectors idx) ∧
    ∀ n, n < 4096 → n ≠ inode.iNo → ∀ i, i < inodeSize →
      disk' (slot part n + i) = disk (slot part n + i)

/-- The cleaned inode keeps every word that matters on disk. -/
theorem pureInode_word {a : ℕ} (ha : a + 4 ≤ 8 ∨ 16 ≤ a ∧ a + 4 ≤ 68) :
    (pureInode inode).getWord a = inode.getWord a := by
  refine Bytes.getWord_congr fun k hk => ?_
  unfold pureInode Inode.setTag Inode.setWriteDeny Inode.setOpenCnts inodeSize
  rw [Bytes.putWord_of_not_mem (by omega), Bytes.putWord_of_not_mem (by omega),
    Function.update_of_ne (by omega), Bytes.putWord_of_not_mem (by omega),
    Bytes.copy_of_mem (Nat.zero_le _) (by omega), Nat.sub_zero, Nat.zero_add]

/-- The words of an inode that `inode_open` has read. -/
theorem inodeOpen_word {s : OpenInodes} (h : TableOnDisk part) (hn : n < 4096)
    (hmiss : s.find n = none) (new : ℕ) (disk : Bytes) :
    ∃ s', inodeOpen part n new s disk = .ok (new, s') ∧
      ∀ a, a + 4 ≤ 8 ∨ 16 ≤ a ∧ a + 4 ≤ 68 →
        (s'.inode new).getWord a = disk.getWord (slot part n + a) := by
  unfold inodeOpen
  rw [hmiss]
  dsimp only
  rw [inodeRead_eq h hn, ok_bind]
  refine ⟨_, rfl, fun a ha => ?_⟩
  unfold OpenInodes.push
  dsimp only
  rw [Function.update_self]
  unfold Inode.setOpenCnts inodeSize
  rw [Bytes.getWord_putWord_of_apart (by omega), Bytes.getWord_copy_of_mem (Nat.zero_le a) (by omega),
    Nat.sub_zero]

theorem slot_apart {n k : ℕ} (hne : n ≠ k) {i : ℕ} (hi : i < inodeSize) :
    slot part n + i < slot part k ∨ slot part k + inodeSize ≤ slot part n + i := by
  unfold slot inodeSize at *
  omega

/-- The slot that `inode_sync` writes is the one that `inode_open` reads. -/
theorem roundTrip_of_lt (h : TableOnDisk part) (hno : inode.iNo < 256) : RoundTrip part inode := by
  intro disk ioBuf
  obtain ⟨buf, hsync⟩ := inodeSync_eq h inode ioBuf disk
  rw [Nat.mod_eq_of_lt (by omega)] at hsync
  refine ⟨_, buf, hsync, fun s new hmiss => ?_, fun n _ hne i hi => ?_⟩
  · obtain ⟨s', hopen, hword⟩ := inodeOpen_word h (by omega) hmiss new
      (disk.copy (slot part inode.iNo) (pureInode inode) 0 inodeSize)
    have hkeep : ∀ a, a + 4 ≤ 8 ∨ 16 ≤ a ∧ a + 4 ≤ 68 →
        (s'.inode new).getWord a = inode.getWord a := by
      intro a ha
      rw [hword a ha, Bytes.getWord_copy_of_mem (Nat.le_add_right _ _) (by unfold inodeSize; omega),
        Nat.zero_add, Nat.add_sub_cancel_left]
      exact pureInode_word ha
    refine ⟨s', hopen, hkeep 0 (by omega), hkeep 4 (by omega), fun idx hidx => ?_⟩
    exact hkeep (16 + 4 * idx) (by omega)
  · exact Bytes.copy_of_not_mem (slot_apart hne hi)

/-- From 256 on it is another one: on a blank disk the inode that is opened has the number 0. -/
theorem not_roundTrip_of_le (h : TableOnDisk part) (hlt : inode.iNo < 4096)
    (hno : 256 ≤ inode.iNo) : ¬RoundTrip part inode := by
  intro htrip
  obtain ⟨disk', buf', hsync', hopens, -⟩ := htrip zeros zeros
  obtain ⟨buf, hsync⟩ := inodeSync_eq h inode zeros zeros
  have hdisk : zeros.copy (slot part (inode.iNo % 2 ^ 8)) (pureInode inode) 0 inodeSize = disk' := by
    rw [hsync'] at hsync
    exact (Prod.mk.inj (Except.ok.inj hsync)).1.symm
  have hmiss : OpenInodes.find ⟨[], fun _ => zeros⟩ inode.iNo = none := rfl
  obtain ⟨s₁, hopen₁, hno₁, -, -⟩ := hopens _ 0 hmiss
  obtain ⟨s₂, hopen₂, hword⟩ := inodeOpen_word h hlt hmiss 0 disk'
  have hs : s₁ = s₂ := by
    rw [hopen₁] at hopen₂
    exact (Prod.mk.inj (Except.ok.inj hopen₂)).2
  have hne : inode.iNo ≠ inode.iNo % 2 ^ 8 := by omega
  have hzero : disk'.getWord (slot part inode.iNo + 0) = Bytes.getWord zeros 0 := by
    refine Bytes.getWord_congr fun k hk => ?_
    rw [← hdisk, Nat.add_zero,
      Bytes.copy_of_not_mem (slot_apart hne (by unfold inodeSize; omega))]
    rfl
  have hread : (s₁.inode 0).getWord 0 = 0 := by
    rw [hs, hword 0 (by omega), hzero]
    rfl
  have : inode.iNo = 0 := by
    rw [← hno₁]
    exact hread
  omega

/-- **Persistence.**  An inode survives `inode_sync` and `inode_open` exactly when its number fits
into the `uint8_t` of `inode_sync`. -/
theorem roundTrip_iff (part : Mounted) (inode : Inode) (htable : TableOnDisk part)
    (hno : inode.iNo < 4096) : RoundTrip part inode ↔ inode.iNo < 256 := by
  constructor
  · intro htrip
    by_contra hge
    exact not_roundTrip_of_le htable hno (by omega) htrip
  · exact roundTrip_of_lt htable

/-- The inode 6 of a file of three sectors; its slot goes over the end of a sector. -/
def sampleInode : Inode := Bytes.putWords zeros 0 [6, 1536, 1, 0, 2106, 2107, 2108]

theorem roundTrip_six :
    (inodeLocate (mounted ⟨63, 4708, 1, "sdb1"⟩) 6).toOption.map InodePosition.twoSec = some true ∧
      sampleInode.iSize = 1536 ∧ sampleInode.iSectors 2 = 2108 ∧
      RoundTrip (mounted ⟨63, 4708, 1, "sdb1"⟩) sampleInode :=
  ⟨by decide, by decide, by decide,
    (roundTrip_iff _ sampleInode (mounted_tableOnDisk ⟨by decide, by decide⟩) (by decide)).mpr
      (by decide)⟩

/-- The inode 256 is written over the inode 0. -/
theorem not_roundTrip_256 :
    Inode.iNo (Bytes.putWord zeros 0 256) = 256 ∧
      ¬RoundTrip (mounted ⟨63, 4708, 1, "sdb1"⟩) (Bytes.putWord zeros 0 256) :=
  ⟨by decide, not_roundTrip_of_le (mounted_tableOnDisk ⟨by decide, by decide⟩) (by decide) (by decide)⟩

end HcOs.Fs
