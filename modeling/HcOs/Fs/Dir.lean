import HcOs.Fs.Inode

/-!
# Directories (`fs/dir.c`)

The misspelt identifiers of `dir.c` and `dir.h` are read as what they stand for, `btmap` of
`file.c` as its parameter `btmp`, and the call `ASSERT(cur_part, block_bitmap_idx, BLOCK_BITMAP)` as
an assertion of `cur_part`, which holds.

A directory entry is 24 bytes: the name at 0, `i_no` at 16 and `f_type` at 20.  The allocations of
`search_dir_entry` are granted, and so its two buffers start cleared.
-/

namespace HcOs.Fs

open HcOs.Lib HcOs.Sectors
open HcOs.Disk (maxLba)

def maxFileNameLen : ℕ := 16

/-- A string of C without its terminator. -/
abbrev Str := List (BitVec 8)

/-- `strcmp(m + a, name)`; the characters are signed. -/
def strcmp (m : Bytes) : ℕ → Str → ℤ
  | a, [] => if m a = 0#8 then 0 else if (m a).slt 0#8 then -1 else 1
  | a, c :: name =>
    if m a ≠ 0#8 ∧ m a = c then strcmp m (a + 1) name
    else if (m a).slt c then -1 else if c.slt (m a) then 1 else 0

/-- `create_dir_entry`; the result is the entry. -/
def createDirEntry (filename : Str) (inodeNo : ℕ) (fileType : BitVec 8) (pDe : Bytes) :
    Except Halt Bytes := do
  assert (filename.length ≤ maxFileNameLen) "create_dir_entry"
    "strlen(filename) <= MAX_FILE_NAME_LEN"
  let pDe := putName pDe 0 filename
  let pDe := pDe.putWord 16 inodeNo
  .ok (pDe.putWord 20 fileType.toNat)

/-! ## `search_dir_entry` -/

/-- The twelve direct pointers at the start of `all_blocks`. -/
def directBlocks (inode : Inode) : Bytes := zeros.putWords 0 ((List.range 12).map inode.iSectors)

/-- The loop over the entries of a sector, with `left` entries to go. -/
def searchSector (buf : Bytes) (name : Str) : ℕ → ℕ → Option ℕ
  | 0, _ => none
  | left + 1, dirEntryIdx =>
    if strcmp buf (dirEntryIdx * dirEntrySize) name = 0 then some dirEntryIdx
    else searchSector buf name left (dirEntryIdx + 1)

/-- The loop over the blocks, with `left` blocks to go. -/
def searchBlocks (part : Mounted) (disk allBlocks : Bytes) (name : Str) (dirE : Bytes) :
    ℕ → ℕ → Except Halt (Option Bytes)
  | 0, _ => .ok none
  | left + 1, blockIdx =>
    let lba := allBlocks.getWord (4 * blockIdx)
    if lba = 0 then searchBlocks part disk allBlocks name dirE left (blockIdx + 1)
    else do
      let buf ← ideRead disk part.devNo lba zeros 0 1
      match searchSector buf name (sectorSize / part.sb.dirEntrySize) 0 with
      | some idx => .ok (some (dirE.copy 0 buf (idx * dirEntrySize) part.sb.dirEntrySize))
      | none => searchBlocks part disk allBlocks name dirE left (blockIdx + 1)

/-- The table `all_blocks` of `search_dir_entry`. -/
def allBlocks (part : Mounted) (inode : Inode) (disk : Bytes) : Except Halt Bytes :=
  if inode.iSectors 12 ≠ 0 then
    ideRead disk part.devNo (inode.iSectors 12) (directBlocks inode) 48 1
  else .ok (directBlocks inode)

/-- `search_dir_entry`; the result is `dir_e` if the name is found. -/
def searchDirEntry (part : Mounted) (inode : Inode) (disk : Bytes) (name : Str) (dirE : Bytes) :
    Except Halt (Option Bytes) := do
  let all ← allBlocks part inode disk
  searchBlocks part disk all name dirE 140 0

/-! ## `sync_dir_entry` -/

/-- What `sync_dir_entry` works on: `cur_part`, the inode of the directory in memory, the disk and
`io_buf`. -/
structure Dir where
  part : Mounted
  inode : Inode
  disk : Bytes
  ioBuf : Bytes

/-- `dir_inode->i_size += dir_entry_size`. -/
def Dir.grow (d : Dir) : Inode :=
  d.inode.setSize ((d.inode.iSize + d.part.sb.dirEntrySize) % 2 ^ 32)

/-- The end of the branch that allocates: the entry alone in the new block. -/
def firstEntry (d : Dir) (pDe : Bytes) (lba : ℕ) : Except Halt (Bool × Dir) := do
  let ioBuf := (d.ioBuf.fill 0 0#8 512).copy 0 pDe 0 d.part.sb.dirEntrySize
  let disk ← ideWrite d.disk d.part.devNo lba ioBuf 0 1
  .ok (true, { d with inode := d.grow, disk, ioBuf })

/-- The branch `block_idx == 12`: the block `table` for the pointers has just been allocated. -/
def firstIndirect (d : Dir) (pDe allBlocks : Bytes) (table : ℕ) : Except Halt (Bool × Dir) := do
  let d := { d with inode := d.inode.setSectors 12 table }
  let (lba, part) ← blockBitmapAlloc d.part
  match lba with
  | none =>
    let blockBitmapIdx := (d.inode.iSectors 12 + 2 ^ 32 - d.part.sb.dataStartLba) % 2 ^ 32
    .ok (false, { d with
      part := { part with blockBitmap := bitmapSet part.blockBitmap blockBitmapIdx false }
      inode := d.inode.setSectors 12 0 })
  | some lba =>
    let blockBitmapIdx := (lba + 2 ^ 32 - part.sb.dataStartLba) % 2 ^ 32
    let disk ← bitmapSync part blockBitmapIdx .blockBitmap d.disk
    let allBlocks := allBlocks.putWord (4 * 12) lba
    let disk ← ideWrite disk part.devNo (d.inode.iSectors 12) allBlocks 48 1
    firstEntry { d with part, disk } pDe lba

/-- The branch `all_blocks[block_idx] == 0`. -/
def newBlock (d : Dir) (pDe allBlocks : Bytes) (blockIdx : ℕ) : Except Halt (Bool × Dir) := do
  let (lba, part) ← blockBitmapAlloc d.part
  let d := { d with part }
  match lba with
  | none => .ok (false, d)
  | some lba =>
    if blockIdx < 12 then
      firstEntry { d with inode := d.inode.setSectors blockIdx lba } pDe lba
    else if blockIdx = 12 then firstIndirect d pDe allBlocks lba
    else do
      let allBlocks := allBlocks.putWord (4 * blockIdx) lba
      let disk ← ideWrite d.disk d.part.devNo (d.inode.iSectors 12) allBlocks 48 1
      firstEntry { d with disk } pDe lba

/-- The search for an entry of type `FT_UNKNOWN`, with `left` entries to go. -/
def findFree (buf : Bytes) : ℕ → ℕ → Option ℕ
  | 0, _ => none
  | left + 1, dirEntryIdx =>
    if buf.getWord (dirEntryIdx * dirEntrySize + 20) = FileType.unknown.toNat then some dirEntryIdx
    else findFree buf left (dirEntryIdx + 1)

/-- The loop over the blocks, with `left` blocks to go. -/
def syncLoop (pDe allBlocks : Bytes) : ℕ → ℕ → Dir → Except Halt (Bool × Dir)
  | 0, _, d => .ok (false, d)
  | left + 1, blockIdx, d =>
    let lba := allBlocks.getWord (4 * blockIdx)
    if lba = 0 then newBlock d pDe allBlocks blockIdx
    else do
      let ioBuf ← ideRead d.disk d.part.devNo lba d.ioBuf 0 1
      match findFree ioBuf (512 / d.part.sb.dirEntrySize) 0 with
      | some idx =>
        let ioBuf := ioBuf.copy (idx * dirEntrySize) pDe 0 d.part.sb.dirEntrySize
        let disk ← ideWrite d.disk d.part.devNo lba ioBuf 0 1
        .ok (true, { d with inode := d.grow, disk, ioBuf })
      | none => syncLoop pDe allBlocks left (blockIdx + 1) { d with ioBuf }

/-- `sync_dir_entry`. -/
def syncDirEntry (d : Dir) (pDe : Bytes) : Except Halt (Bool × Dir) := do
  assert (d.inode.iSize % d.part.sb.dirEntrySize = 0) "sync_dir_entry"
    "dir_size % dir_entry_size == 0"
  syncLoop pDe (directBlocks d.inode) 140 0 d

end HcOs.Fs
