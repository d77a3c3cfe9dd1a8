import HcOs.Device.Sectors
import HcOs.Kernel.Bitmap
import HcOs.Kernel.Heap

/-!
# Formatting and mounting (`fs/fs.c`)

`partition_format` writes the five regions of a file system, `mount_partition` reads the super
block and the two bitmaps back.  The disk is its bytes, and so is every buffer.  What `sys_malloc`
returns is zeroed; whether it is granted is a parameter of the calls, and the bytes of the stack
that the padding of the super block holds are another.

* `partitionFormat_eq`: on a partition that fits, formatting is five block copies.
* `mountPartition_eq`: mounting finds the super block and the bitmaps that were written.
-/

namespace HcOs.Fs

open HcOs.Lib HcOs.Sectors
open HcOs.Disk (maxLba)
open HcOs.Heap (divRoundUp)

def maxFilesPerPart : ℕ := 4096
def bitsPerSector : ℕ := 4096

/-- `sizeof(struct inode)`: four words (`write_deny` is padded), `i_sectors` and `inode_tag`. -/
def inodeSize : ℕ := 76

/-- `sizeof(struct dir_entry)`: the name, `i_no` and `f_type`. -/
def dirEntrySize : ℕ := 24

/-- `enum file_types`. -/
inductive FileType where
  | unknown
  | regular
  | directory
  deriving DecidableEq, Repr

def FileType.toNat : FileType → ℕ
  | .unknown => 0
  | .regular => 1
  | .directory => 2

/-- `struct super_block` up to its padding. -/
structure SuperBlock where
  magic : ℕ
  secCnt : ℕ
  inodeCnt : ℕ
  partLbaBase : ℕ
  blockBitmapLba : ℕ
  blockBitmapSects : ℕ
  inodeBitmapLba : ℕ
  inodeBitmapSects : ℕ
  inodeTableLba : ℕ
  inodeTableSects : ℕ
  dataStartLba : ℕ
  rootInodeNo : ℕ
  dirEntrySize : ℕ
  deriving DecidableEq, Repr

/-- The words of a super block in memory. -/
def SuperBlock.words (sb : SuperBlock) : List ℕ :=
  [sb.magic, sb.secCnt, sb.inodeCnt, sb.partLbaBase, sb.blockBitmapLba, sb.blockBitmapSects,
    sb.inodeBitmapLba, sb.inodeBitmapSects, sb.inodeTableLba, sb.inodeTableSects, sb.dataStartLba,
    sb.rootInodeNo, sb.dirEntrySize]

/-- A super block in memory, over the bytes `pad`. -/
def SuperBlock.toBytes (sb : SuperBlock) (pad : Bytes) : Bytes := pad.putWords 0 sb.words

/-- The super block at the start of a buffer. -/
def SuperBlock.ofBytes (m : Bytes) : SuperBlock where
  magic := m.getWord 0
  secCnt := m.getWord 4
  inodeCnt := m.getWord 8
  partLbaBase := m.getWord 12
  blockBitmapLba := m.getWord 16
  blockBitmapSects := m.getWord 20
  inodeBitmapLba := m.getWord 24
  inodeBitmapSects := m.getWord 28
  inodeTableLba := m.getWord 32
  inodeTableSects := m.getWord 36
  dataStartLba := m.getWord 40
  rootInodeNo := m.getWord 44
  dirEntrySize := m.getWord 48

/-- `struct partition` before it is mounted; `devNo` is `my_disk->dev_no`. -/
structure Partition where
  startLba : ℕ
  secCnt : ℕ
  devNo : ℕ
  name : String
  deriving DecidableEq, Repr

/-- What mounting adds to a partition, its list of open inodes apart. -/
structure Mounted extends Partition where
  sb : SuperBlock
  blockBitmap : Bitmap
  inodeBitmap : Bitmap

/-! ## `partition_format` -/

def bootSectorSects : ℕ := 1
def superBlockSects : ℕ := 1
def inodeBitmapSects : ℕ := divRoundUp maxFilesPerPart bitsPerSector
def inodeTableSects : ℕ := divRoundUp (inodeSize * maxFilesPerPart) sectorSize
def usedSects : ℕ := bootSectorSects + superBlockSects + inodeBitmapSects + inodeTableSects

def freeSects (part : Partition) : ℕ := (part.secCnt + 2 ^ 32 - usedSects) % 2 ^ 32

def blockBitmapBitLen (part : Partition) : ℕ :=
  (freeSects part + 2 ^ 32 - divRoundUp (freeSects part) bitsPerSector) % 2 ^ 32

def blockBitmapSects (part : Partition) : ℕ := divRoundUp (blockBitmapBitLen part) bitsPerSector

/-- The super block that `partition_format` fills in. -/
def superBlock (part : Partition) : SuperBlock :=
  let blockBitmapLba := (part.startLba + 2) % 2 ^ 32
  let inodeBitmapLba := (blockBitmapLba + blockBitmapSects part) % 2 ^ 32
  let inodeTableLba := (inodeBitmapLba + inodeBitmapSects) % 2 ^ 32
  { magic := 0x19590318
    secCnt := part.secCnt
    inodeCnt := maxFilesPerPart
    partLbaBase := part.startLba
    blockBitmapLba
    blockBitmapSects := blockBitmapSects part
    inodeBitmapLba
    inodeBitmapSects
    inodeTableLba
    inodeTableSects
    dataStartLba := (inodeTableLba + inodeTableSects) % 2 ^ 32
    rootInodeNo := 0
    dirEntrySize }

/-- The loop `while(bit_idx <= block_bitmap_last_bit)`, with `left` rounds to go. -/
def clearBits (byte : BitVec 8) : ℕ → ℕ → BitVec 8
  | 0, _ => byte
  | left + 1, bitIdx => clearBits (byte &&& ~~~bitmapMask bitIdx) left (bitIdx + 1)

/-- The buffer after step 2. -/
def blockBitmapBuf (part : Partition) (buf : Bytes) : Bytes :=
  let buf : Bytes := Function.update buf 0 (buf 0 ||| 0x01#8)
  let blockBitmapLastByte := blockBitmapBitLen part / 8
  let blockBitmapLastBit := blockBitmapBitLen part % 8
  let lastSize := sectorSize - blockBitmapLastByte % sectorSize
  let buf := buf.fill blockBitmapLastByte 0xff#8 lastSize
  Function.update buf blockBitmapLastByte
    (clearBits (buf blockBitmapLastByte) (blockBitmapLastBit + 1) 0)

/-- The buffer after step 3, from a cleared one. -/
def inodeBitmapBuf (buf : Bytes) : Bytes := Function.update buf 0 (buf 0 ||| 0x1#8)

/-- The buffer after step 4: the inode of the root directory. -/
def inodeTableBuf (sb : SuperBlock) (buf : Bytes) : Bytes :=
  let buf := buf.putWord 4 (sb.dirEntrySize * 2)
  let buf := buf.putWord 0 0
  buf.putWord 16 sb.dataStartLba

/-- A name in a buffer, as `memcpy` from a string constant leaves it. -/
def putName (buf : Bytes) (a : ℕ) (name : List (BitVec 8)) : Bytes :=
  buf.copy a (fun i => name.getD i 0#8) 0 name.length

/-- The buffer after step 5: the entries `.` and `..`. -/
def rootDirBuf (buf : Bytes) : Bytes :=
  let buf := putName buf 0 [46#8]
  let buf := buf.putWord 16 0
  let buf := buf.putWord 20 FileType.directory.toNat
  let buf := putName buf dirEntrySize [46#8, 46#8]
  let buf := buf.putWord (dirEntrySize + 16) 0
  buf.putWord (dirEntrySize + 20) FileType.directory.toNat

def zeros : Bytes := fun _ => 0#8

/-- `partition_format`; the result is the disk.  Writing through a `NULL` buffer faults. -/
def partitionFormat (part : Partition) (pad : Bytes) (granted : Bool) (disk : Bytes) :
    Except Halt Bytes := do
  let sb := superBlock part
  let disk ← ideWrite disk part.devNo ((part.startLba + 1) % 2 ^ 32) (sb.toBytes pad) 0 1
  let bufSize := max (max sb.blockBitmapSects sb.inodeBitmapSects) sb.inodeTableSects * sectorSize
  if granted then
    let disk ← ideWrite disk part.devNo sb.blockBitmapLba (blockBitmapBuf part zeros) 0
      sb.blockBitmapSects
    let buf := (blockBitmapBuf part zeros).fill 0 0#8 bufSize
    let disk ← ideWrite disk part.devNo sb.inodeBitmapLba (inodeBitmapBuf buf) 0 sb.inodeBitmapSects
    let buf := (inodeBitmapBuf buf).fill 0 0#8 bufSize
    let disk ← ideWrite disk part.devNo sb.inodeTableLba (inodeTableBuf sb buf) 0 sb.inodeTableSects
    let buf := (inodeTableBuf sb buf).fill 0 0#8 bufSize
    ideWrite disk part.devNo sb.dataStartLba (rootDirBuf buf) 0 1
  else .error .nullDeref

/-! ## `mount_partition` -/

/-- The result of the `k`-th `sys_malloc` of `mount_partition`, where it is checked. -/
def allocChecked (granted : ℕ → Bool) (k : ℕ) : Except Halt Unit :=
  if granted k then .ok () else .error (.panic "mount_partition" "alloc memory failed!")

/-- `mount_partition`; `none` is the result `false`. -/
def mountPartition (part : Partition) (partName : String) (granted : ℕ → Bool) (disk : Bytes) :
    Except Halt (Option Mounted) :=
  if part.name = partName then do
    allocChecked granted 1
    -- `sb_buf` is first used by `memset`
    assert (granted 0 = true) "memset" "dst_ != NULL"
    let sbBuf ← ideRead disk part.devNo ((part.startLba + 1) % 2 ^ 32) zeros 0 1
    let sb := SuperBlock.ofBytes sbBuf
    allocChecked granted 2
    let blockBits ← ideRead disk part.devNo sb.blockBitmapLba zeros 0 sb.blockBitmapSects
    allocChecked granted 3
    let inodeBits ← ideRead disk part.devNo sb.inodeBitmapLba zeros 0 sb.inodeBitmapSects
    .ok (some {
      part with
      sb
      blockBitmap := ⟨sb.blockBitmapSects * sectorSize % 2 ^ 32, blockBits⟩
      inodeBitmap := ⟨sb.inodeBitmapSects * sectorSize % 2 ^ 32, inodeBits⟩ })
  else .ok none

/-! ## Allocation (`fs/file.c`) -/

/-- `inode_bitmap_alloc`; `none` is the result -1. -/
def inodeBitmapAlloc (part : Mounted) : Except Halt (Option ℕ × Mounted) := do
  match ← bitmapScan part.inodeBitmap 1 with
  | none => .ok (none, part)
  | some bitIdx =>
    .ok (some bitIdx, { part with inodeBitmap := bitmapSet part.inodeBitmap bitIdx true })

/-- `block_bitmap_alloc`; `none` is the result -1. -/
def blockBitmapAlloc (part : Mounted) : Except Halt (Option ℕ × Mounted) := do
  match ← bitmapScan part.blockBitmap 1 with
  | none => .ok (none, part)
  | some bitIdx =>
    .ok (some ((part.sb.dataStartLba + bitIdx) % 2 ^ 32),
      { part with blockBitmap := bitmapSet part.blockBitmap bitIdx true })

inductive BitmapType where
  | inodeBitmap
  | blockBitmap
  deriving DecidableEq, Repr

/-- `bitmap_sync`; the result is the disk. -/
def bitmapSync (part : Mounted) (bitIdx : ℕ) (btmp : BitmapType) (disk : Bytes) :
    Except Halt Bytes :=
  let offSec := bitIdx / 4096
  let offSize := offSec * 512
  match btmp with
  | .inodeBitmap =>
    ideWrite disk part.devNo ((part.sb.inodeBitmapLba + offSec) % 2 ^ 32) part.inodeBitmap.bits offSize 1
  | .blockBitmap =>
    ideWrite disk part.devNo ((part.sb.blockBitmapLba + offSec) % 2 ^ 32) part.blockBitmap.bits offSize 1

/-! ## The layout -/

variable {part : Partition} {pad disk : Bytes}

/-- The partitions a file system can be made on: room for the metadata, the root directory and one
more block, and all of it on the disk. -/
structure Fits (part : Partition) : Prop where
  large : 613 ≤ part.secCnt
  onDisk : part.startLba + part.secCnt - 1 ≤ maxLba

theorem Fits.bounds (h : Fits part) :
    613 ≤ part.secCnt ∧ part.startLba + part.secCnt ≤ 163840 := by
  have hlarge := h.large
  have hdisk : part.startLba + part.secCnt - 1 ≤ 163839 := h.onDisk
  exact ⟨hlarge, by omega⟩

theorem usedSects_eq : usedSects = 611 := by decide

theorem freeSects_eq (h : Fits part) : freeSects part = part.secCnt - 611 := by
  obtain ⟨hlarge, hdisk⟩ := h.bounds
  unfold freeSects
  rw [usedSects_eq]
  omega

theorem blockBitmapBitLen_eq (h : Fits part) :
    blockBitmapBitLen part = freeSects part - (freeSects part + 4095) / 4096 := by
  have hfree := freeSects_eq h
  obtain ⟨hlarge, hdisk⟩ := h.bounds
  unfold blockBitmapBitLen divRoundUp bitsPerSector
  omega

theorem blockBitmapSects_eq (h : Fits part) :
    blockBitmapSects part = (blockBitmapBitLen part + 4095) / 4096 := by
  have hfree := freeSects_eq h
  have hlen := blockBitmapBitLen_eq h
  obtain ⟨hlarge, hdisk⟩ := h.bounds
  unfold blockBitmapSects divRoundUp bitsPerSector
  omega

/-- There is a block besides the bitmap's own sectors, and the bitmap has a bit for each. -/
theorem blockBitmap_bounds (h : Fits part) :
    1 ≤ blockBitmapBitLen part ∧ 1 ≤ blockBitmapSects part ∧ blockBitmapSects part ≤ 40 ∧
      blockBitmapBitLen part ≤ blockBitmapSects part * 4096 ∧
      blockBitmapSects part * 4096 < blockBitmapBitLen part + 4096 ∧
      611 + blockBitmapSects part + blockBitmapBitLen part ≤ part.secCnt := by
  have hfree := freeSects_eq h
  have hlen := blockBitmapBitLen_eq h
  have hsects := blockBitmapSects_eq h
  obtain ⟨hlarge, hdisk⟩ := h.bounds
  omega

/-- The regions follow each other without a gap. -/
theorem superBlock_eq (h : Fits part) :
    superBlock part = {
      magic := 0x19590318
      secCnt := part.secCnt
      inodeCnt := 4096
      partLbaBase := part.startLba
      blockBitmapLba := part.startLba + 2
      blockBitmapSects := blockBitmapSects part
      inodeBitmapLba := part.startLba + 2 + blockBitmapSects part
      inodeBitmapSects := 1
      inodeTableLba := part.startLba + 3 + blockBitmapSects part
      inodeTableSects := 608
      dataStartLba := part.startLba + 611 + blockBitmapSects part
      rootInodeNo := 0
      dirEntrySize := 24 } := by
  obtain ⟨-, -, hsects, -, -, -⟩ := blockBitmap_bounds h
  obtain ⟨hlarge, hdisk⟩ := h.bounds
  have hib : inodeBitmapSects = 1 := by decide
  have hit : inodeTableSects = 608 := by decide
  unfold superBlock
  simp only [hib, hit, SuperBlock.mk.injEq, true_and]
  refine ⟨rfl, ?_, ?_, ?_, ?_, rfl⟩ <;> omega

/-- The super block survives its way through memory. -/
theorem SuperBlock.ofBytes_toBytes (sb : SuperBlock) (h : ∀ w ∈ sb.words, w < 2 ^ 32) :
    SuperBlock.ofBytes (sb.toBytes pad) = sb := by
  have hword : ∀ k, k < 13 → (sb.toBytes pad).getWord (4 * k) = sb.words.getD k 0 := by
    intro k hk
    have hget := Bytes.getWord_putWords pad 0 sb.words k hk
    rw [Nat.zero_add] at hget
    unfold SuperBlock.toBytes
    rw [hget]
    refine Nat.mod_eq_of_lt (h _ ?_)
    rw [List.getD_eq_getElem _ _ hk]
    exact List.getElem_mem hk
  unfold SuperBlock.ofBytes
  rw [hword 0 (by decide), hword 1 (by decide), hword 2 (by decide), hword 3 (by decide),
    hword 4 (by decide), hword 5 (by decide), hword 6 (by decide), hword 7 (by decide),
    hword 8 (by decide), hword 9 (by decide), hword 10 (by decide), hword 11 (by decide),
    hword 12 (by decide)]
  rfl

theorem superBlock_words_lt (h : Fits part) : ∀ w ∈ (superBlock part).words, w < 2 ^ 32 := by
  obtain ⟨-, -, hsects, -, -, -⟩ := blockBitmap_bounds h
  obtain ⟨hlarge, hdisk⟩ := h.bounds
  rw [superBlock_eq h]
  intro w hw
  simp only [SuperBlock.words, List.mem_cons, List.not_mem_nil, or_false] at hw
  omega

/-! ## What formatting writes -/

/-- The disk after `partition_format`. -/
def formatted (part : Partition) (pad disk : Bytes) : Bytes :=
  let sb := superBlock part
  let disk := disk.copy ((part.startLba + 1) * 512) (sb.toBytes pad) 0 512
  let disk := disk.copy (sb.blockBitmapLba * 512) (blockBitmapBuf part zeros) 0
    (sb.blockBitmapSects * 512)
  let disk := disk.copy (sb.inodeBitmapLba * 512) (inodeBitmapBuf zeros) 0 (sb.inodeBitmapSects * 512)
  let disk := disk.copy (sb.inodeTableLba * 512) (inodeTableBuf sb zeros) 0 (sb.inodeTableSects * 512)
  disk.copy (sb.dataStartLba * 512) (rootDirBuf zeros) 0 512

/-- `memset` of a buffer that is clear past the end of what is set. -/
theorem fill_eq_zeros {buf : Bytes} {n : ℕ} (h : ∀ i, n ≤ i → buf i = 0#8) :
    buf.fill 0 0#8 n = zeros := by
  funext i
  by_cases hi : i < n
  · exact Bytes.fill_of_mem (Nat.zero_le i) (by omega)
  · rw [Bytes.fill_of_not_mem (by omega)]
    exact h i (by omega)

theorem blockBitmapBuf_beyond (h : Fits part) {i : ℕ} (hi : 608 * 512 ≤ i) :
    blockBitmapBuf part zeros i = 0#8 := by
  obtain ⟨-, -, h40, hlen, -, -⟩ := blockBitmap_bounds h
  unfold blockBitmapBuf sectorSize
  rw [Function.update_of_ne (by omega), Bytes.fill_of_not_mem (by omega),
    Function.update_of_ne (by omega)]
  rfl

theorem inodeTableBuf_beyond {sb : SuperBlock} {i : ℕ} (hi : 608 * 512 ≤ i) :
    inodeTableBuf sb zeros i = 0#8 := by
  unfold inodeTableBuf
  rw [Bytes.putWord_of_not_mem (by omega), Bytes.putWord_of_not_mem (by omega),
    Bytes.putWord_of_not_mem (by omega)]
  rfl

/-- On a partition that fits, `partition_format` returns, and all it does is five block copies. -/
theorem partitionFormat_eq (h : Fits part) (pad disk : Bytes) :
    partitionFormat part pad true disk = .ok (formatted part pad disk) := by
  obtain ⟨hlen, h1, h40, -, -, hroom⟩ := blockBitmap_bounds h
  have hlarge := h.large
  have hdisk := h.onDisk
  have hmax : maxLba = 163839 := rfl
  have hsb := superBlock_eq h
  have hclear := fill_eq_zeros fun i hi => blockBitmapBuf_beyond h hi
  have hclear' : (inodeBitmapBuf zeros).fill 0 0#8 (608 * 512) = zeros := by
    refine fill_eq_zeros fun i hi => ?_
    unfold inodeBitmapBuf
    rw [Function.update_of_ne (by omega)]
    rfl
  have hclear'' : (inodeTableBuf (superBlock part) zeros).fill 0 0#8 (608 * 512) = zeros :=
    fill_eq_zeros fun i hi => inodeTableBuf_beyond hi
  have hbuf : max (max (superBlock part).blockBitmapSects (superBlock part).inodeBitmapSects)
      (superBlock part).inodeTableSects * sectorSize = 608 * 512 := by
    rw [hsb]
    dsimp only
    unfold sectorSize
    omega
  unfold partitionFormat formatted
  dsimp only
  rw [hbuf, Nat.mod_eq_of_lt (by omega), ideWrite_eq (by omega) (by omega), ok_bind, if_pos rfl,
    ideWrite_eq (by rw [hsb]; exact h1) (by rw [hsb]; dsimp only; omega), ok_bind, hclear,
    ideWrite_eq (by rw [hsb]) (by rw [hsb]; dsimp only; omega), ok_bind, hclear',
    ideWrite_eq (by rw [hsb]; dsimp only; omega) (by rw [hsb]; dsimp only; omega), ok_bind, hclear'',
    ideWrite_eq (by omega) (by rw [hsb]; dsimp only; omega)]

/-! ## What a formatted disk holds -/

section Formatted

variable (h : Fits part) (pad disk : Bytes) {i : ℕ}
include h

theorem formatted_superBlock (hi : i < 512) :
    formatted part pad disk ((part.startLba + 1) * 512 + i) = (superBlock part).toBytes pad i := by
  unfold formatted
  rw [superBlock_eq h]
  dsimp only
  rw [Bytes.copy_of_not_mem (by omega), Bytes.copy_of_not_mem (by omega),
    Bytes.copy_of_not_mem (by omega), Bytes.copy_of_not_mem (by omega),
    Bytes.copy_of_mem (by omega) (by omega), Nat.zero_add, Nat.add_sub_cancel_left]

theorem formatted_blockBitmap (hi : i < blockBitmapSects part * 512) :
    formatted part pad disk ((part.startLba + 2) * 512 + i) = blockBitmapBuf part zeros i := by
  unfold formatted
  rw [superBlock_eq h]
  dsimp only
  rw [Bytes.copy_of_not_mem (by omega), Bytes.copy_of_not_mem (by omega),
    Bytes.copy_of_not_mem (by omega), Bytes.copy_of_mem (by omega) (by omega), Nat.zero_add,
    Nat.add_sub_cancel_left]

theorem formatted_inodeBitmap (hi : i < 512) :
    formatted part pad disk ((part.startLba + 2 + blockBitmapSects part) * 512 + i) =
      inodeBitmapBuf zeros i := by
  unfold formatted
  rw [superBlock_eq h]
  dsimp only
  rw [Bytes.copy_of_not_mem (by omega), Bytes.copy_of_not_mem (by omega),
    Bytes.copy_of_mem (by omega) (by omega), Nat.zero_add, Nat.add_sub_cancel_left]

theorem formatted_inodeTable (hi : i < 608 * 512) :
    formatted part pad disk ((part.startLba + 3 + blockBitmapSects part) * 512 + i) =
      inodeTableBuf (superBlock part) zeros i := by
  unfold formatted
  rw [superBlock_eq h]
  dsimp only
  rw [Bytes.copy_of_not_mem (by omega), Bytes.copy_of_mem (by omega) (by omega), Nat.zero_add,
    Nat.add_sub_cancel_left]

theorem formatted_rootDir (hi : i < 512) :
    formatted part pad disk ((part.startLba + 611 + blockBitmapSects part) * 512 + i) =
      rootDirBuf zeros i := by
  unfold formatted
  rw [superBlock_eq h]
  dsimp only
  rw [Bytes.copy_of_mem (by omega) (by omega), Nat.zero_add, Nat.add_sub_cancel_left]

/-- Before the super block and after the root directory nothing is written. -/
theorem formatted_other (hi : i / 512 ≤ part.startLba ∨
    part.startLba + 611 + blockBitmapSects part < i / 512) :
    formatted part pad disk i = disk i := by
  unfold formatted
  rw [superBlock_eq h]
  dsimp only
  rw [Bytes.copy_of_not_mem (by omega), Bytes.copy_of_not_mem (by omega),
    Bytes.copy_of_not_mem (by omega), Bytes.copy_of_not_mem (by omega),
    Bytes.copy_of_not_mem (by omega)]

end Formatted

/-- The partition as mounting a formatted disk leaves it. -/
def mounted (part : Partition) : Mounted where
  toPartition := part
  sb := superBlock part
  blockBitmap := ⟨blockBitmapSects part * 512, zeros.copy 0 (blockBitmapBuf part zeros) 0
    (blockBitmapSects part * 512)⟩
  inodeBitmap := ⟨512, zeros.copy 0 (inodeBitmapBuf zeros) 0 512⟩

/-- A buffer read from a disk holds what the disk holds there. -/
theorem copy_disk_congr {src : Bytes} {a n : ℕ} (hread : ∀ i, i < n → disk (a + i) = src i) :
    zeros.copy 0 disk a n = zeros.copy 0 src 0 n := by
  funext i
  by_cases hi : i < n
  · rw [Bytes.copy_of_mem (Nat.zero_le i) (by omega), Bytes.copy_of_mem (Nat.zero_le i) (by omega),
      Nat.sub_zero, Nat.zero_add]
    exact hread i hi
  · rw [Bytes.copy_of_not_mem (by omega), Bytes.copy_of_not_mem (by omega)]

theorem SuperBlock.ofBytes_congr {m m' : Bytes} (h : ∀ i, i < 512 → m i = m' i) :
    SuperBlock.ofBytes m = SuperBlock.ofBytes m' := by
  have hword : ∀ a, a + 4 ≤ 512 → m.getWord a = m'.getWord a :=
    fun a ha => Bytes.getWord_congr fun k hk => h (a + k) (by omega)
  unfold SuperBlock.ofBytes
  rw [hword 0 (by omega), hword 4 (by omega), hword 8 (by omega), hword 12 (by omega),
    hword 16 (by omega), hword 20 (by omega), hword 24 (by omega), hword 28 (by omega),
    hword 32 (by omega), hword 36 (by omega), hword 40 (by omega), hword 44 (by omega),
    hword 48 (by omega)]

/-- Mounting a formatted disk finds the super block and the bitmaps that were written. -/
theorem mountPartition_formatted (h : Fits part) (pad disk : Bytes) :
    mountPartition part part.name (fun _ => true) (formatted part pad disk) =
      .ok (some (mounted part)) := by
  obtain ⟨hlen, h1, h40, -, -, hroom⟩ := blockBitmap_bounds h
  have hlarge := h.large
  have hdisk := h.onDisk
  have hmax : maxLba = 163839 := rfl
  have hsb : SuperBlock.ofBytes (zeros.copy 0 (formatted part pad disk)
      ((part.startLba + 1) * 512) 512) = superBlock part := by
    rw [copy_disk_congr fun i hi => formatted_superBlock h pad disk hi]
    have hcopy : ∀ i, i < 512 →
        zeros.copy 0 ((superBlock part).toBytes pad) 0 512 i = (superBlock part).toBytes pad i := by
      intro i hi
      rw [Bytes.copy_of_mem (Nat.zero_le i) (by omega), Nat.sub_zero, Nat.zero_add]
    rw [SuperBlock.ofBytes_congr hcopy]
    exact SuperBlock.ofBytes_toBytes _ (superBlock_words_lt h)
  have hblock : zeros.copy 0 (formatted part pad disk) ((part.startLba + 2) * 512)
      (blockBitmapSects part * 512) = (mounted part).blockBitmap.bits :=
    copy_disk_congr fun i hi => formatted_blockBitmap h pad disk hi
  have hinode : zeros.copy 0 (formatted part pad disk)
      ((part.startLba + 2 + blockBitmapSects part) * 512) 512 = (mounted part).inodeBitmap.bits :=
    copy_disk_congr fun i hi => formatted_inodeBitmap h pad disk hi
  have halloc : ∀ k, allocChecked (fun _ => true) k = .ok () := fun _ => rfl
  have hbb : ideRead (formatted part pad disk) part.devNo (superBlock part).blockBitmapLba zeros 0
      (superBlock part).blockBitmapSects = .ok (mounted part).blockBitmap.bits := by
    rw [superBlock_eq h, ← hblock]
    dsimp only
    rw [ideRead_eq h1 (by omega)]
  have hib : ideRead (formatted part pad disk) part.devNo (superBlock part).inodeBitmapLba zeros 0
      (superBlock part).inodeBitmapSects = .ok (mounted part).inodeBitmap.bits := by
    rw [superBlock_eq h, ← hinode]
    dsimp only
    rw [ideRead_eq (Nat.le_refl 1) (by omega), Nat.one_mul]
  have hlens : (superBlock part).blockBitmapSects * sectorSize % 2 ^ 32 =
      blockBitmapSects part * 512 ∧ (superBlock part).inodeBitmapSects * sectorSize % 2 ^ 32 = 512 := by
    rw [superBlock_eq h]
    dsimp only
    unfold sectorSize
    omega
  unfold mountPartition
  rw [if_pos rfl, halloc, ok_bind, assert_bind_of rfl, Nat.mod_eq_of_lt (by omega),
    ideRead_eq (by omega) (by omega), ok_bind, Nat.one_mul, hsb]
  dsimp only
  rw [halloc, ok_bind, hbb, ok_bind, halloc, ok_bind, hib, ok_bind, hlens.1, hlens.2]
  rfl

/-- What mounting returns does not depend on the allocator, as long as it returns. -/
theorem mountPartition_granted {partName : String} {granted : ℕ → Bool} {r : Option Mounted}
    (h : mountPartition part partName granted disk = .ok r) :
    mountPartition part partName (fun _ => true) disk = .ok r := by
  unfold mountPartition at h ⊢
  split at h
  · next hname =>
    rw [if_pos hname]
    have halloc : ∀ k, allocChecked (fun _ => true) k = .ok () := fun _ => rfl
    obtain ⟨-, -, h⟩ := bind_eq_ok.mp h
    obtain ⟨-, h⟩ := assert_bind_eq_ok.mp h
    obtain ⟨sbBuf, hsb, h⟩ := bind_eq_ok.mp h
    obtain ⟨-, -, h⟩ := bind_eq_ok.mp h
    obtain ⟨blockBits, hblock, h⟩ := bind_eq_ok.mp h
    obtain ⟨-, -, h⟩ := bind_eq_ok.mp h
    obtain ⟨inodeBits, hinode, h⟩ := bind_eq_ok.mp h
    rw [halloc, ok_bind, assert_bind_of rfl, hsb, ok_bind, halloc, ok_bind, hblock, ok_bind, halloc,
      ok_bind, hinode, ok_bind]
    exact h
  · next hname =>
    rw [if_neg hname]
    exact h

end HcOs.Fs
