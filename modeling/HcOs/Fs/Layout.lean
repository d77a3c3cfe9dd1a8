import HcOs.Fs.Format

/-!
# The layout of a file system

The super block that `partition_format` computes describes six regions of the partition, from the
boot sector to the data area.  The size of the block bitmap depends on the space that is left, and
that on the size of the bitmap; the code rounds twice, and at worst loses one sector.

* `format_layout`: the regions, the bitmaps and the writes of `partition_format` on every partition
  that a file system fits on.
-/

namespace HcOs.Fs

open HcOs.Lib HcOs.Sectors
open HcOs.Disk (maxLba)

variable {part : Partition}

/-! ## The regions -/

/-- Consecutive sectors. -/
structure Region where
  lba : ℕ
  sects : ℕ

def Region.stop (r : Region) : ℕ := r.lba + r.sects

/-- What a super block describes: the boot sector, the super block itself, the block bitmap, the
inode bitmap, the inode table, and a data area of `blocks` sectors. -/
def SuperBlock.regions (sb : SuperBlock) (blocks : ℕ) : List Region :=
  [⟨sb.partLbaBase, 1⟩, ⟨sb.partLbaBase + 1, 1⟩, ⟨sb.blockBitmapLba, sb.blockBitmapSects⟩,
    ⟨sb.inodeBitmapLba, sb.inodeBitmapSects⟩, ⟨sb.inodeTableLba, sb.inodeTableSects⟩,
    ⟨sb.dataStartLba, blocks⟩]

/-- The size of the buffer of `partition_format`. -/
def bufSize (part : Partition) : ℕ :=
  let sb := superBlock part
  max (max sb.blockBitmapSects sb.inodeBitmapSects) sb.inodeTableSects * sectorSize

theorem superBlock_inodeBitmapSects : (superBlock part).inodeBitmapSects = 1 := rfl

theorem superBlock_inodeTableSects : (superBlock part).inodeTableSects = 608 := rfl

theorem superBlock_dataStartLba (h : Fits part) :
    (superBlock part).dataStartLba = part.startLba + 611 + blockBitmapSects part := by
  rw [superBlock_eq h]

/-- The second region starts where the first one stops. -/
def Consecutive (a b : Region) : Prop := a.stop = b.lba

theorem regions_consecutive (h : Fits part) :
    ((superBlock part).regions (blockBitmapBitLen part)).IsChain Consecutive := by
  rw [superBlock_eq h]
  unfold SuperBlock.regions
  simp only [List.isChain_cons_cons, List.isChain_singleton, Consecutive, Region.stop, true_and,
    and_true]
  constructor <;> omega

/-- Consecutive regions do not overlap. -/
theorem pairwise_of_consecutive {rs : List Region} (h : rs.IsChain Consecutive) :
    rs.Pairwise fun a b => a.stop ≤ b.lba := by
  induction rs with
  | nil => exact List.Pairwise.nil
  | cons a rs ih =>
    cases rs with
    | nil => exact List.pairwise_singleton _ a
    | cons b rs =>
      obtain ⟨hab, hrs⟩ := List.isChain_cons_cons.mp h
      have hrest := ih hrs
      refine List.pairwise_cons.mpr ⟨fun c hc => ?_, hrest⟩
      rcases List.mem_cons.mp hc with rfl | hc
      · exact Nat.le_of_eq hab
      · have hbc := (List.pairwise_cons.mp hrest).1 c hc
        unfold Consecutive at hab
        unfold Region.stop at hab hbc ⊢
        omega

theorem regions_inside (h : Fits part) :
    ∀ r ∈ (superBlock part).regions (blockBitmapBitLen part),
      part.startLba ≤ r.lba ∧ r.stop ≤ part.startLba + part.secCnt := by
  obtain ⟨-, -, -, -, -, hroom⟩ := blockBitmap_bounds h
  rw [superBlock_eq h]
  intro r hr
  simp only [SuperBlock.regions, List.mem_cons, List.not_mem_nil, or_false] at hr
  rcases hr with rfl | rfl | rfl | rfl | rfl | rfl <;> simp only [Region.stop] <;> omega

/-- The two roundings lose at most one sector. -/
theorem blockBitmap_managed (h : Fits part) :
    part.secCnt ≤ 611 + blockBitmapSects part + blockBitmapBitLen part + 1 := by
  have hfree := freeSects_eq h
  have hlen := blockBitmapBitLen_eq h
  have hsects := blockBitmapSects_eq h
  obtain ⟨hlarge, hdisk⟩ := h.bounds
  omega

/-! ## The writes -/

theorem bufSize_eq (h : Fits part) : bufSize part = 608 * 512 := by
  obtain ⟨-, -, h40, -, -, -⟩ := blockBitmap_bounds h
  unfold bufSize
  rw [superBlock_eq h]
  dsimp only
  unfold sectorSize
  omega

/-- What follows the buffer stays as it is, whatever it holds. -/
def InBuffer (size : ℕ) (f : Bytes → Bytes) : Prop := ∀ buf i, size ≤ i → f buf i = buf i

theorem blockBitmapBuf_inBuffer (h : Fits part) :
    InBuffer (bufSize part) (blockBitmapBuf part) := by
  obtain ⟨-, -, h40, hlen, -, -⟩ := blockBitmap_bounds h
  rw [bufSize_eq h]
  intro buf i hi
  unfold blockBitmapBuf sectorSize
  rw [Function.update_of_ne (by omega), Bytes.fill_of_not_mem (by omega),
    Function.update_of_ne (by omega)]

theorem inodeBitmapBuf_inBuffer (h : Fits part) : InBuffer (bufSize part) inodeBitmapBuf := by
  rw [bufSize_eq h]
  intro buf i hi
  exact Function.update_of_ne (by omega) ..

theorem inodeTableBuf_inBuffer (h : Fits part) (sb : SuperBlock) :
    InBuffer (bufSize part) (inodeTableBuf sb) := by
  rw [bufSize_eq h]
  intro buf i hi
  unfold inodeTableBuf
  rw [Bytes.putWord_of_not_mem (by omega), Bytes.putWord_of_not_mem (by omega),
    Bytes.putWord_of_not_mem (by omega)]

theorem rootDirBuf_inBuffer (h : Fits part) : InBuffer (bufSize part) rootDirBuf := by
  rw [bufSize_eq h]
  intro buf i hi
  unfold rootDirBuf putName dirEntrySize
  simp only [List.length_cons, List.length_nil]
  rw [Bytes.putWord_of_not_mem (by omega), Bytes.putWord_of_not_mem (by omega),
    Bytes.copy_of_not_mem (by omega), Bytes.putWord_of_not_mem (by omega),
    Bytes.putWord_of_not_mem (by omega), Bytes.copy_of_not_mem (by omega)]

theorem clear_inBuffer (size : ℕ) : InBuffer size fun buf => buf.fill 0 0#8 size := by
  intro buf i hi
  exact Bytes.fill_of_not_mem (by omega)

/-- Every region on the disk holds what was meant for it, and nothing else has changed. -/
structure Written (part : Partition) (pad disk disk' : Bytes) : Prop where
  superBlock : ∀ i, i < 512 →
    disk' ((part.startLba + 1) * 512 + i) = (superBlock part).toBytes pad i
  blockBitmap : ∀ i, i < (Fs.superBlock part).blockBitmapSects * 512 →
    disk' ((Fs.superBlock part).blockBitmapLba * 512 + i) = blockBitmapBuf part zeros i
  inodeBitmap : ∀ i, i < (Fs.superBlock part).inodeBitmapSects * 512 →
    disk' ((Fs.superBlock part).inodeBitmapLba * 512 + i) = inodeBitmapBuf zeros i
  inodeTable : ∀ i, i < (Fs.superBlock part).inodeTableSects * 512 →
    disk' ((Fs.superBlock part).inodeTableLba * 512 + i) =
      inodeTableBuf (Fs.superBlock part) zeros i
  rootDir : ∀ i, i < 512 → disk' ((Fs.superBlock part).dataStartLba * 512 + i) = rootDirBuf zeros i
  other : ∀ i, i / 512 ≤ part.startLba ∨ (Fs.superBlock part).dataStartLba < i / 512 →
    disk' i = disk i

theorem formatted_written (h : Fits part) (pad disk : Bytes) :
    Written part pad disk (formatted part pad disk) := by
  have hbits : (superBlock part).blockBitmapLba = part.startLba + 2 := by rw [superBlock_eq h]
  have hib : (superBlock part).inodeBitmapLba = part.startLba + 2 + blockBitmapSects part := by
    rw [superBlock_eq h]
  have hit : (superBlock part).inodeTableLba = part.startLba + 3 + blockBitmapSects part := by
    rw [superBlock_eq h]
  constructor
  · intro i hi
    exact formatted_superBlock h pad disk hi
  · rw [hbits]
    intro i hi
    exact formatted_blockBitmap h pad disk hi
  · rw [hib, superBlock_inodeBitmapSects, Nat.one_mul]
    intro i hi
    exact formatted_inodeBitmap h pad disk hi
  · rw [hit, superBlock_inodeTableSects]
    intro i hi
    exact formatted_inodeTable h pad disk hi
  · rw [superBlock_dataStartLba h]
    intro i hi
    exact formatted_rootDir h pad disk hi
  · rw [superBlock_dataStartLba h]
    intro i hi
    exact formatted_other h pad disk hi

/-! ## The layout -/

/-- The layout of a file system on `part`. -/
structure DiskLayout (part : Partition) (sb : SuperBlock) : Prop where
  start : sb.partLbaBase = part.startLba
  consecutive : (sb.regions (blockBitmapBitLen part)).IsChain Consecutive
  disjoint : (sb.regions (blockBitmapBitLen part)).Pairwise fun a b => a.stop ≤ b.lba
  inside : ∀ r ∈ sb.regions (blockBitmapBitLen part),
    part.startLba ≤ r.lba ∧ r.stop ≤ part.startLba + part.secCnt
  inodes : sb.inodeCnt = 4096
  inodeTable : sb.inodeCnt * inodeSize ≤ sb.inodeTableSects * 512
  inodeBits : sb.inodeCnt ≤ sb.inodeBitmapSects * 4096
  blockBits : blockBitmapBitLen part ≤ sb.blockBitmapSects * 4096
  blocks : ∀ i, i < blockBitmapBitLen part →
    part.startLba ≤ sb.dataStartLba + i ∧ sb.dataStartLba + i < part.startLba + part.secCnt
  managed : part.startLba + part.secCnt ≤ sb.dataStartLba + blockBitmapBitLen part + 1

/-- The buffer of `partition_format` is large enough for what is written to it and from it. -/
structure BufferOk (part : Partition) (sb : SuperBlock) : Prop where
  blockBitmap : InBuffer (bufSize part) (blockBitmapBuf part)
  inodeBitmap : InBuffer (bufSize part) inodeBitmapBuf
  inodeTable : InBuffer (bufSize part) (inodeTableBuf sb)
  rootDir : InBuffer (bufSize part) rootDirBuf
  clear : InBuffer (bufSize part) fun buf => buf.fill 0 0#8 (bufSize part)
  source : ∀ n ∈ [sb.blockBitmapSects, sb.inodeBitmapSects, sb.inodeTableSects, 1],
    n * 512 ≤ bufSize part

theorem diskLayout (h : Fits part) : DiskLayout part (superBlock part) := by
  obtain ⟨-, -, -, hbits, -, hroom⟩ := blockBitmap_bounds h
  have hmanaged := blockBitmap_managed h
  have hchain := regions_consecutive h
  have hcnt : (superBlock part).inodeCnt = 4096 := rfl
  constructor
  · rfl
  · exact hchain
  · exact pairwise_of_consecutive hchain
  · exact regions_inside h
  · exact hcnt
  · rw [hcnt, superBlock_inodeTableSects]
    decide
  · rw [hcnt, superBlock_inodeBitmapSects]
  · exact hbits
  · intro i hi
    rw [superBlock_dataStartLba h]
    omega
  · rw [superBlock_dataStartLba h]
    omega

theorem bufferOk (h : Fits part) : BufferOk part (superBlock part) := by
  obtain ⟨-, -, h40, -, -, -⟩ := blockBitmap_bounds h
  constructor
  · exact blockBitmapBuf_inBuffer h
  · exact inodeBitmapBuf_inBuffer h
  · exact inodeTableBuf_inBuffer h _
  · exact rootDirBuf_inBuffer h
  · exact clear_inBuffer _
  · rw [bufSize_eq h, superBlock_eq h]
    simp only [List.forall_mem_cons, List.not_mem_nil, false_implies, implies_true, and_true]
    omega

/-- **Layout.**  On every partition that is large enough and on the disk, the super block describes
consecutive, disjoint regions inside the partition with a bit for every inode and every block, at
most one sector is lost, and what `partition_format` writes stays inside its buffer and goes to the
region it is meant for. -/
theorem format_layout (h : Fits part) :
    DiskLayout part (superBlock part) ∧ BufferOk part (superBlock part) ∧
      ∀ pad disk, ∃ disk', partitionFormat part pad true disk = .ok disk' ∧
        Written part pad disk disk' :=
  ⟨diskLayout h, bufferOk h, fun pad disk =>
    ⟨formatted part pad disk, partitionFormat_eq h pad disk, formatted_written h pad disk⟩⟩

/-- A partition where the two roundings differ: of its 4097 free sectors the first one keeps two for
the bitmap, the second needs only one. -/
def oddPart : Partition := ⟨63, 4708, 1, "sdb1"⟩

theorem format_layout_oddPart :
    Fits oddPart ∧ blockBitmapSects oddPart = 1 ∧ blockBitmapBitLen oddPart = 4095 ∧
      DiskLayout oddPart (superBlock oddPart) ∧ BufferOk oddPart (superBlock oddPart) ∧
      ∀ pad disk, ∃ disk', partitionFormat oddPart pad true disk = .ok disk' ∧
        Written oddPart pad disk disk' := by
  have h : Fits oddPart := ⟨by decide, by decide⟩
  exact ⟨h, by decide, by decide, format_layout h⟩

end HcOs.Fs
