import HcOs.Fs.DirRun

/-!
# A fresh file system

`partition_format`, `mount_partition` and `open_root_dir` one after the other: what the first one
lays out is what the other two, and then `search_dir_entry`, find again.

* `fresh_consistent`: for every partition that is large enough and lies on the disk.
-/

namespace HcOs.Fs

open HcOs.Lib HcOs.Sectors
open HcOs.Disk (maxLba)

/-- `root_dir`, as far as it is used. -/
structure RootDir where
  inode : ℕ
  dirPos : ℕ

def openRootDir (part : Mounted) (new : ℕ) (s : OpenInodes) (disk : Bytes) :
    Except Halt (RootDir × OpenInodes) := do
  let (inode, s) ← inodeOpen part part.sb.rootInodeNo new s disk
  .ok (⟨inode, 0⟩, s)

/-- What is on the disk and in memory agrees, and the root directory holds `.` and `..` only. -/
structure Consistent (part : Partition) (pad disk : Bytes) (m : Mounted) (root : Inode) : Prop where
  superBlock : m.sb = superBlock part
  written : ∀ i, i < 512 → disk ((part.startLba + 1) * 512 + i) = (Fs.superBlock part).toBytes pad i
  blockLen : m.blockBitmap.btmpBytesLen = m.sb.blockBitmapSects * 512
  blockBitmap : ∀ i, i < m.blockBitmap.btmpBytesLen →
    m.blockBitmap.bits i = disk (m.sb.blockBitmapLba * 512 + i)
  inodeLen : m.inodeBitmap.btmpBytesLen = m.sb.inodeBitmapSects * 512
  inodeBitmap : ∀ i, i < m.inodeBitmap.btmpBytesLen →
    m.inodeBitmap.bits i = disk (m.sb.inodeBitmapLba * 512 + i)
  rootNo : root.iNo = 0
  rootSize : root.iSize = 2 * m.sb.dirEntrySize
  search : ∀ name dirE, IsName name → ∃ r, searchDirEntry m root disk name dirE = .ok r ∧
    (r.isSome = true ↔ name = [46#8] ∨ name = [46#8, 46#8]) ∧
    ∀ e ∈ r, e.getWord 16 = 0 ∧ e.getWord 20 = FileType.directory.toNat

variable {part : Partition} {pad disk : Bytes}

/-! ## The bitmaps -/

theorem mounted_blockBitmap (h : Fits part) {i : ℕ} (hi : i < blockBitmapSects part * 512) :
    (mounted part).blockBitmap.bits i =
      formatted part pad disk ((mounted part).sb.blockBitmapLba * 512 + i) := by
  have hlba : (mounted part).sb.blockBitmapLba = part.startLba + 2 := by
    show (superBlock part).blockBitmapLba = _
    rw [superBlock_eq h]
  rw [hlba, formatted_blockBitmap h pad disk hi]
  show zeros.copy 0 (blockBitmapBuf part zeros) 0 (blockBitmapSects part * 512) i = _
  rw [Bytes.copy_of_mem (Nat.zero_le i) (by omega), Nat.sub_zero, Nat.zero_add]

theorem mounted_inodeBitmap (h : Fits part) {i : ℕ} (hi : i < 512) :
    (mounted part).inodeBitmap.bits i =
      formatted part pad disk ((mounted part).sb.inodeBitmapLba * 512 + i) := by
  have hlba : (mounted part).sb.inodeBitmapLba = part.startLba + 2 + blockBitmapSects part := by
    show (superBlock part).inodeBitmapLba = _
    rw [superBlock_eq h]
  rw [hlba, formatted_inodeBitmap h pad disk hi]
  show zeros.copy 0 (inodeBitmapBuf zeros) 0 512 i = _
  rw [Bytes.copy_of_mem (Nat.zero_le i) (by omega), Nat.sub_zero, Nat.zero_add]

/-! ## The root directory -/

/-- The directory that `open_root_dir` finds has one block, with the two entries. -/
theorem root_found (h : Fits part) {d : Dir} (hpart : d.part = mounted part)
    (hdisk : d.disk = formatted part pad disk)
    (hsects : ∀ k, k < 13 → d.inode.iSectors k =
      if k = 0 then part.startLba + 611 + blockBitmapSects part else 0) (name : Str) (dirE : Bytes)
    (hname : IsName name) :
    ∃ r, searchDirEntry d.part d.inode d.disk name dirE = .ok r ∧
      (r.isSome = true ↔ name = [46#8] ∨ name = [46#8, 46#8]) ∧
      ∀ e ∈ r, e.getWord 16 = 0 ∧ e.getWord 20 = FileType.directory.toNat := by
  have hgeo := mounted_geometry h
  have hdata := mounted_dataStartLba h
  have hon := hgeo.onDisk
  rw [hdata] at hon
  have hholds : Holds d.disk ((part.startLba + 611 + blockBitmapSects part) * 512) dots 0 := by
    intro i hi
    have hroot := rootDirBuf_holds i hi
    rw [hdisk, formatted_rootDir h pad disk (by omega), ← hroot, Nat.zero_add]
  rw [← hpart] at hgeo hdata
  have hlayout : Layout d [part.startLba + 611 + blockBitmapSects part] dots :=
    root_layout hdata.symm (by omega) hon hsects hholds
  rcases search_spec hgeo hlayout hname dirE with
    ⟨e, he, hen, r, hr, hno, htype⟩ | ⟨hnone, hmiss⟩
  · obtain ⟨hdot, h0, h2⟩ := dots_data e he
    rw [hen] at hdot
    refine ⟨some r, hr, iff_of_true rfl hdot, fun x hx => ?_⟩
    cases hx
    rw [hno, htype, h0, h2]
    exact ⟨rfl, rfl⟩
  · refine ⟨none, hnone, iff_of_false Bool.false_ne_true ?_, nofun⟩
    rintro (rfl | rfl)
    · exact hmiss _ List.mem_cons_self rfl
    · exact hmiss _ (List.mem_cons_of_mem _ List.mem_cons_self) rfl

/-- The mounted bitmaps have whole sectors. -/
theorem mounted_lengths (h : Fits part) :
    (mounted part).blockBitmap.btmpBytesLen = (mounted part).sb.blockBitmapSects * 512 ∧
      (mounted part).inodeBitmap.btmpBytesLen = (mounted part).sb.inodeBitmapSects * 512 ∧
      (mounted part).sb.dirEntrySize = 24 := by
  simp only [mounted, superBlock_eq h, Nat.one_mul, and_self]

/-! ## Main result -/

/-- **A fresh file system.**  On a partition of at least 613 sectors that lies on the disk, whatever
the disk held before, the three functions return, and what they leave is consistent: the mounted
super block and bitmaps are those on the disk, and in the root directory `.` and `..` are found and
no other name. -/
theorem fresh_consistent (part : Partition) (hlarge : 613 ≤ part.secCnt)
    (hdisk : part.startLba + part.secCnt - 1 ≤ maxLba) (pad disk : Bytes) (mem : ℕ → Inode)
    (new : ℕ) :
    ∃ disk' m root inodes, partitionFormat part pad true disk = .ok disk' ∧
      mountPartition part part.name (fun _ => true) disk' = .ok (some m) ∧
      openRootDir m new ⟨[], mem⟩ disk' = .ok (root, inodes) ∧
      Consistent part pad disk' m (inodes.inode root.inode) := by
  have h : Fits part := ⟨hlarge, hdisk⟩
  have hno : (mounted part).sb.rootInodeNo < 4096 := Nat.zero_lt_succ _
  obtain ⟨hblock, hinode, hentry⟩ := mounted_lengths h
  obtain ⟨inodes, hopen, -⟩ := inodeOpen_word (s := ⟨[], mem⟩) (mounted_tableOnDisk h) hno rfl new
    (formatted part pad disk)
  obtain ⟨hno, hsize, hsects⟩ := root_inode h hopen
  have hroot : openRootDir (mounted part) new ⟨[], mem⟩ (formatted part pad disk) =
      .ok (⟨new, 0⟩, inodes) := by
    unfold openRootDir
    rw [hopen]
    rfl
  have hfound := @root_found part pad disk h
    ⟨mounted part, inodes.inode new, formatted part pad disk, zeros⟩ (by dsimp only) (by dsimp only)
  dsimp only at hfound
  refine ⟨_, _, _, _, partitionFormat_eq h pad disk, mountPartition_formatted h pad disk, hroot, ?_⟩
  exact {
    superBlock := rfl
    written := fun i hi => formatted_superBlock h pad disk hi
    blockLen := hblock
    blockBitmap := fun i hi => mounted_blockBitmap h hi
    inodeLen := hinode
    inodeBitmap := fun i hi => mounted_inodeBitmap h hi
    rootNo := hno
    rootSize := by rw [hentry]; exact hsize
    search := hfound hsects }

theorem fresh_consistent_small : ∃ disk m root inodes,
    partitionFormat ⟨63, 613, 1, "sdb1"⟩ zeros true zeros = .ok disk ∧
      mountPartition ⟨63, 613, 1, "sdb1"⟩ "sdb1" (fun _ => true) disk = .ok (some m) ∧
      openRootDir m 0 ⟨[], fun _ => zeros⟩ disk = .ok (root, inodes) ∧
      Consistent ⟨63, 613, 1, "sdb1"⟩ zeros disk m (inodes.inode root.inode) :=
  fresh_consistent ⟨63, 613, 1, "sdb1"⟩ (by decide) (by decide) zeros zeros (fun _ => zeros) 0

end HcOs.Fs
