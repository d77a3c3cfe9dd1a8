import HcOs.Fs.DirName
import HcOs.Fs.Fresh

/-!
# The block bitmap on the disk

`sync_dir_entry` takes up to two blocks, which changes the block bitmap in memory.  It writes the
bitmap back in one place only, after the second block: where the first one has been taken, the
source has an assertion with the arguments of `bitmap_sync`.

* `sync_cases`: what a call that returns has done.
* `sync_inStep_iff`: the bitmap on the disk is still the one in memory exactly if no block was
  needed, or two were and both their bits are in the sector that is written.
-/

namespace HcOs.Fs

open HcOs.Lib HcOs.Sectors
open HcOs.Disk (maxLba)

/-- The block bitmap on the disk is the one in memory. -/
def InStep (d : Dir) : Prop :=
  ∀ i, i < d.part.blockBitmap.btmpBytesLen →
    d.disk (d.part.sb.blockBitmapLba * 512 + i) = d.part.blockBitmap.bits i

/-- The direct blocks lie in the data area. -/
def InData (d : Dir) : Prop :=
  ∀ k, k < 12 → d.inode.iSectors k ≠ 0 → d.part.sb.dataStartLba ≤ d.inode.iSectors k

/-- The entry goes into a direct block that is there. -/
def NeedsNoBlock (d : Dir) : Prop :=
  ∃ k q, k < 12 ∧ q < 21 ∧ FullTo d k ∧ d.inode.iSectors k ≠ 0 ∧
    slotType d.disk (d.inode.iSectors k) q = FileType.unknown.toNat

/-- The lowest clear bit. -/
structure FirstClear (b : Bitmap) (bit : ℕ) : Prop where
  inside : bit < 8 * b.btmpBytesLen
  clear : bitmapScanTest b bit = false
  lowest : ∀ i, i < bit → bitmapScanTest b i = true

/-- All direct blocks are full, and the bits of the next two blocks are in one sector. -/
def OneSector (d : Dir) : Prop :=
  FullTo d 12 ∧ ∃ bit bit', FirstClear d.part.blockBitmap bit ∧
    FirstClear (bitmapSet d.part.blockBitmap bit true) bit' ∧ bit / 4096 = bit' / 4096

variable {d d' : Dir} {pDe : Bytes} {ok : Bool} {k q bit bit' : ℕ}

theorem FirstClear.unique {b : Bitmap} (h : FirstClear b bit) (h' : FirstClear b bit') :
    bit = bit' := by
  rcases Nat.lt_trichotomy bit bit' with hlt | heq | hgt
  · have hset := h'.lowest bit hlt
    rw [h.clear] at hset
    cases hset
  · exact heq
  · have hset := h.lowest bit' hgt
    rw [h'.clear] at hset
    cases hset

/-! ## What a call does -/

theorem ideWrite_ok {disk buf r : Bytes} {devNo p b : ℕ}
    (h : ideWrite disk devNo p buf b 1 = .ok r) : r = disk.copy (p * 512) buf b 512 := by
  have hmax : p ≤ maxLba := by
    unfold ideWrite at h
    exact (assert_bind_eq_ok.mp h).1
  rw [ideWrite_sector hmax] at h
  exact (Except.ok.inj h).symm

theorem firstEntry_ok {lba : ℕ} (h : firstEntry d pDe lba = .ok (ok, d')) :
    ok = true ∧ d'.part = d.part ∧ ∃ buf, d'.disk = d.disk.copy (lba * 512) buf 0 512 := by
  unfold firstEntry at h
  obtain ⟨disk, hwrite, h⟩ := bind_eq_ok.mp h
  cases h
  exact ⟨rfl, rfl, _, ideWrite_ok hwrite⟩

/-- A new direct block: its bit is set in memory, and only there. -/
theorem newBlock_direct (hgeo : Geometry d.part) {all : Bytes} (hk : k < 12)
    (h : newBlock d pDe all k = .ok (ok, d')) :
    ok = true ∧ ∃ bit buf, FirstClear d.part.blockBitmap bit ∧ d'.part = d.part.mark bit ∧
      d'.disk = d.disk.copy ((d.part.sb.dataStartLba + bit) * 512) buf 0 512 := by
  rcases blockBitmapAlloc_cases d.part with ⟨bit, halloc, hbit, hclear, hfirst⟩ | ⟨herr, -⟩
  · rw [newBlock_direct_eq hgeo halloc hbit hk] at h
    obtain ⟨hok, hpart, buf, hdisk⟩ := firstEntry_ok h
    exact ⟨hok, bit, buf, ⟨hbit, hclear, hfirst⟩, hpart, hdisk⟩
  · rw [newBlock_full herr] at h
    cases h

/-- A new table and a new block behind it: one sector of the bitmap is written. -/
theorem newBlock_table (hgeo : Geometry d.part) {all : Bytes}
    (h : newBlock d pDe all 12 = .ok (ok, d')) :
    ok = true ∧ ∃ bit bit' buf buf', FirstClear d.part.blockBitmap bit ∧
      FirstClear (bitmapSet d.part.blockBitmap bit true) bit' ∧
      d'.part = (d.part.mark bit).mark bit' ∧
      d'.disk = ((d.disk.copy ((d.part.sb.blockBitmapLba + bit' / 4096) * 512)
        ((d.part.mark bit).mark bit').blockBitmap.bits (bit' / 4096 * 512) 512).copy
          ((d.part.sb.dataStartLba + bit) * 512) buf 48 512).copy
          ((d.part.sb.dataStartLba + bit') * 512) buf' 0 512 := by
  have hon := hgeo.onDisk
  have hsmall := hgeo.small
  have hmaxv : maxLba = 163839 := rfl
  rcases blockBitmapAlloc_cases d.part with ⟨bit, halloc, hbit, hclear, hfirst⟩ | ⟨herr, -⟩
  · rw [newBlock_indirect_eq hgeo halloc hbit] at h
    rcases blockBitmapAlloc_cases (d.part.mark bit) with
      ⟨bit', halloc', hbit', hclear', hfirst'⟩ | ⟨herr, -⟩
    · have hindirect := firstIndirect_eq (d := { d with part := d.part.mark bit }) hgeo.mark
        (d.part.sb.dataStartLba + bit) (by omega) halloc' hbit' pDe all
      rw [hindirect] at h
      obtain ⟨disk, hwrite, h⟩ := bind_eq_ok.mp h
      obtain ⟨hok, hpart, buf', hdisk⟩ := firstEntry_ok h
      rw [ideWrite_ok hwrite] at hdisk
      exact ⟨hok, bit, bit', _, buf', ⟨hbit, hclear, hfirst⟩, ⟨hbit', hclear', hfirst'⟩, hpart,
        hdisk⟩
    · rw [firstIndirect_full (d := { d with part := d.part.mark bit }) herr] at h
      cases h
  · rw [newBlock_full herr] at h
    cases h

/-- The loop writes into the first block with a free slot, or takes a block at the first missing
one. -/
theorem syncLoop_cases (hsize : d.part.sb.dirEntrySize = 24) (left idx : ℕ)
    (hidx : idx + left = 140) (h12 : idx ≤ 12) (hfull : FullTo d idx) (ioBuf : Bytes)
    (h : syncLoop pDe (directBlocks d.inode) left idx { d with ioBuf } = .ok (ok, d')) :
    (ok = true ∧ ∃ k q, FullTo d k ∧ Wrote d d' pDe k q) ∨
      ∃ k ioBuf, k ≤ 12 ∧ FullTo d k ∧ (k < 12 → d.inode.iSectors k = 0) ∧
        newBlock { d with ioBuf } pDe (directBlocks d.inode) k = .ok (ok, d') := by
  induction left generalizing idx ioBuf with
  | zero => omega
  | succ left ih =>
    have hlba := directBlocks_word d.inode (k := idx) (by omega)
    by_cases h0 : (directBlocks d.inode).getWord (4 * idx) = 0
    · rw [syncLoop] at h
      dsimp only at h
      rw [if_pos h0] at h
      refine Or.inr ⟨idx, ioBuf, h12, hfull, fun hlt => ?_, h⟩
      rw [if_pos hlt] at hlba
      exact hlba.symm.trans h0
    · have hlt : idx < 12 := by
        by_contra hge
        rw [if_neg hge] at hlba
        exact h0 hlba
      rw [if_pos hlt] at hlba
      have hmax : d.inode.iSectors idx ≤ maxLba := by
        rw [syncLoop] at h
        dsimp only at h
        rw [if_neg h0, hlba] at h
        obtain ⟨buf, hread, -⟩ := bind_eq_ok.mp h
        exact ideRead_ok hread
      rw [hlba] at h0
      rcases syncLoop_pass hsize pDe hlt h0 hmax left ioBuf with
        ⟨d₁, q, hloop, hwrote⟩ | ⟨⟨buf, hloop⟩, hmiss⟩
      · rw [hloop] at h
        cases h
        exact Or.inl ⟨rfl, idx, q, hfull, hwrote⟩
      · rw [hloop] at h
        refine ih (idx + 1) (by omega) (by omega) (fun k hk => ?_) buf h
        by_cases hki : k = idx
        · rw [hki]
          exact ⟨h0, hmiss⟩
        · exact hfull k (by omega)

theorem sync_cases (hgeo : Geometry d.part) (h : syncDirEntry d pDe = .ok (ok, d')) :
    (ok = true ∧ ∃ k q, FullTo d k ∧ Wrote d d' pDe k q) ∨
      ∃ k ioBuf, k ≤ 12 ∧ FullTo d k ∧ (k < 12 → d.inode.iSectors k = 0) ∧
        newBlock { d with ioBuf } pDe (directBlocks d.inode) k = .ok (ok, d') := by
  unfold syncDirEntry at h
  obtain ⟨-, h⟩ := assert_bind_eq_ok.mp h
  exact syncLoop_cases hgeo.entrySize 140 0 rfl (Nat.zero_le _) (fun k hk => by omega) d.ioBuf h

/-! ## The two bitmaps -/

/-- The bitmap lies before the data area. -/
theorem Geometry.bitmap_before {part : Mounted} (h : Geometry part) {i p : ℕ}
    (hi : i < part.blockBitmap.btmpBytesLen) (hp : part.sb.dataStartLba ≤ p) :
    part.sb.blockBitmapLba * 512 + i < p * 512 := by
  have hwhole := h.whole
  have hbefore := h.before
  omega

/-- Two bitmaps that differ in a bit differ in its byte. -/
theorem bits_ne {b b' : Bitmap} (h : bitmapScanTest b bit ≠ bitmapScanTest b' bit) :
    b.bits (bit / 8) ≠ b'.bits (bit / 8) := by
  intro heq
  apply h
  rw [bitmapScanTest_eq, bitmapScanTest_eq, heq]

theorem mark_bits {part : Mounted} {i : ℕ} (h : i ≠ bit / 8) :
    (part.mark bit).blockBitmap.bits i = part.blockBitmap.bits i :=
  Function.update_of_ne h ..

/-- Byte `i` of a bitmap is in sector `i / 512` of it. -/
theorem sector_offset {i n : ℕ} (lba : ℕ) (h : i / 512 = n) :
    (lba + n) * 512 ≤ lba * 512 + i ∧ lba * 512 + i < (lba + n) * 512 + 512 ∧
      n * 512 + (lba * 512 + i - (lba + n) * 512) = i := by
  omega

theorem sector_outside {i n : ℕ} (lba : ℕ) (h : i / 512 ≠ n) :
    lba * 512 + i < (lba + n) * 512 ∨ (lba + n) * 512 + 512 ≤ lba * 512 + i := by
  omega

/-- A free slot: the bitmap is not concerned. -/
theorem Wrote.inStep (hgeo : Geometry d.part) (hdata : InData d) (hstep : InStep d)
    (hw : Wrote d d' pDe k q) : InStep d' := by
  intro i hi
  rw [hw.part] at hi ⊢
  have hbefore := hgeo.bitmap_before hi (hdata k hw.direct hw.inUse)
  rw [hw.disk, Bytes.copy_of_not_mem (Or.inl (Nat.lt_add_right _ hbefore))]
  exact hstep i hi

/-- A new direct block: its bit is missing on the disk. -/
theorem not_inStep_direct (hgeo : Geometry d.part) (hstep : InStep d)
    (hbit : FirstClear d.part.blockBitmap bit) {buf : Bytes} (hpart : d'.part = d.part.mark bit)
    (hdisk : d'.disk = d.disk.copy ((d.part.sb.dataStartLba + bit) * 512) buf 0 512) :
    ¬InStep d' := by
  intro hstep'
  have hin : bit / 8 < d.part.blockBitmap.btmpBytesLen := by
    have := hbit.inside
    omega
  have hbyte := hstep' (bit / 8) (by rw [hpart]; exact hin)
  have hbefore := hgeo.bitmap_before hin (Nat.le_add_right _ bit)
  rw [hdisk, hpart, Mounted.mark_sb, Bytes.copy_of_not_mem (Or.inl hbefore), hstep _ hin] at hbyte
  refine bits_ne ?_ hbyte
  show bitmapScanTest d.part.blockBitmap bit ≠
    bitmapScanTest (bitmapSet d.part.blockBitmap bit true) bit
  rw [bitmapScanTest_set, if_pos rfl, hbit.clear]
  exact Bool.false_ne_true

/-- A new table and a new block: the sector of the second bit is written, and that of the first one
only if it is the same. -/
theorem inStep_table_iff (hgeo : Geometry d.part) (hstep : InStep d)
    (hbit : FirstClear d.part.blockBitmap bit) {buf buf' : Bytes}
    (hpart : d'.part = (d.part.mark bit).mark bit')
    (hdisk : d'.disk = ((d.disk.copy ((d.part.sb.blockBitmapLba + bit' / 4096) * 512)
      ((d.part.mark bit).mark bit').blockBitmap.bits (bit' / 4096 * 512) 512).copy
        ((d.part.sb.dataStartLba + bit) * 512) buf 48 512).copy
        ((d.part.sb.dataStartLba + bit') * 512) buf' 0 512) :
    InStep d' ↔ bit / 4096 = bit' / 4096 := by
  have hread : ∀ i, i < d.part.blockBitmap.btmpBytesLen →
      d'.disk (d.part.sb.blockBitmapLba * 512 + i) =
        if i / 512 = bit' / 4096 then ((d.part.mark bit).mark bit').blockBitmap.bits i
        else d.part.blockBitmap.bits i := by
    intro i hi
    have hbefore := hgeo.bitmap_before hi (Nat.le_add_right _ bit)
    have hbefore' := hgeo.bitmap_before hi (Nat.le_add_right _ bit')
    rw [hdisk, Bytes.copy_of_not_mem (Or.inl hbefore'), Bytes.copy_of_not_mem (Or.inl hbefore)]
    split
    · next hsec =>
      obtain ⟨hlo, hhi, hoff⟩ := sector_offset d.part.sb.blockBitmapLba hsec
      rw [Bytes.copy_of_mem hlo hhi, hoff]
    · next hsec =>
      rw [Bytes.copy_of_not_mem (sector_outside d.part.sb.blockBitmapLba hsec)]
      exact hstep i hi
  have hin := hbit.inside
  constructor
  · intro hstep'
    by_contra hne
    have hlt : bit / 8 < d.part.blockBitmap.btmpBytesLen := by omega
    have hbyte := hstep' (bit / 8) (by rw [hpart]; exact hlt)
    rw [hpart, Mounted.mark_sb, Mounted.mark_sb, hread _ hlt, if_neg (by omega)] at hbyte
    refine bits_ne ?_ hbyte
    show bitmapScanTest d.part.blockBitmap bit ≠
      bitmapScanTest (bitmapSet (bitmapSet d.part.blockBitmap bit true) bit' true) bit
    rw [bitmapScanTest_set, bitmapScanTest_set, if_pos rfl, ite_self, hbit.clear]
    exact Bool.false_ne_true
  · intro heq i hi
    rw [hpart] at hi ⊢
    rw [Mounted.mark_sb, Mounted.mark_sb, hread i hi]
    split
    · rfl
    · next hsec =>
      rw [mark_bits (by omega), mark_bits (by omega)]

/-! ## Main result -/

/-- What is expected of a call that has returned `ok`. -/
structure SyncOk (d d' : Dir) (ok : Bool) : Prop where
  inStep : InStep d'
  bitmap : ok = false → d'.part.blockBitmap = d.part.blockBitmap
  inode : ok = false → d'.inode = d.inode

theorem syncOk_true_iff : SyncOk d d' true ↔ InStep d' :=
  ⟨fun h => h.inStep, fun h => ⟨h, fun h => Bool.noConfusion h, fun h => Bool.noConfusion h⟩⟩

theorem FullTo.not_needsNoBlock (hfull : FullTo d k) (hmissing : k < 12 → d.inode.iSectors k = 0) :
    ¬NeedsNoBlock d := by
  rintro ⟨j, q, hj, hq, hbelow, h0, htype⟩
  by_cases hjk : j < k
  · exact (hfull j hjk).2 q hq htype
  · by_cases hkj : k = j
    · exact h0 (hkj ▸ hmissing (by omega))
    · exact (hbelow k (by omega)).1 (hmissing (by omega))

/-- The blocks before the first missing one are full: the bit of the new block is not written. -/
theorem not_inStep_of_missing (hgeo : Geometry d.part) (hstep : InStep d) (hfull : FullTo d k)
    (hlt : k < 12) (hmissing : d.inode.iSectors k = 0) (h : syncDirEntry d pDe = .ok (ok, d')) :
    ¬InStep d' := by
  rcases sync_cases hgeo h with ⟨-, j, q, hfull', hw⟩ | ⟨j, ioBuf, hj, hfull', -, hnew⟩
  · refine absurd ?_ (hfull.not_needsNoBlock fun _ => hmissing)
    exact ⟨j, q, hw.direct, hw.slot, hfull', hw.inUse, hw.free⟩
  · by_cases hj12 : j < 12
    · obtain ⟨-, bit, buf, hbit, hpart, hdisk⟩ :=
        newBlock_direct (d := { d with ioBuf }) hgeo hj12 hnew
      exact not_inStep_direct hgeo hstep hbit hpart hdisk
    · exact absurd hmissing (hfull' k (by omega)).1

/-- **The bitmap on the disk.**  Whenever `sync_dir_entry` returns on a partition whose block bitmap
is in step, it is so again exactly if the entry went into a block that was there, or the direct
blocks were full and the bits of the two new blocks are in one sector of the bitmap. -/
theorem sync_inStep_iff (hgeo : Geometry d.part) (hdata : InData d) (hstep : InStep d)
    (h : syncDirEntry d pDe = .ok (ok, d')) : SyncOk d d' ok ↔ NeedsNoBlock d ∨ OneSector d := by
  rcases sync_cases hgeo h with ⟨rfl, k, q, hfull, hw⟩ | ⟨k, ioBuf, hk, hfull, hmissing, hnew⟩
  · rw [syncOk_true_iff]
    exact iff_of_true (hw.inStep hgeo hdata hstep)
      (Or.inl ⟨k, q, hw.direct, hw.slot, hfull, hw.inUse, hw.free⟩)
  · have hno := hfull.not_needsNoBlock hmissing
    by_cases hlt : k < 12
    · have hout := not_inStep_of_missing hgeo hstep hfull hlt (hmissing hlt) h
      exact iff_of_false (fun hok => hout hok.inStep)
        (not_or_intro hno fun hone => (hone.1 k hlt).1 (hmissing hlt))
    · obtain rfl : k = 12 := by omega
      obtain ⟨rfl, bit, bit', buf, buf', hbit, hbit', hpart, hdisk⟩ :=
        newBlock_table (d := { d with ioBuf }) hgeo hnew
      have hiff := inStep_table_iff hgeo hstep hbit hpart hdisk
      rw [syncOk_true_iff, hiff]
      constructor
      · intro heq
        exact Or.inr ⟨hfull, bit, bit', hbit, hbit', heq⟩
      · rintro (hslot | ⟨-, b, b', hb, hb', heq⟩)
        · exact absurd hslot hno
        · obtain rfl := hbit.unique hb
          obtain rfl := hbit'.unique hb'
          exact heq

/-! ## Directories of the small partition -/

section

variable {ptrs : List ℕ} {es : List DirEntry}

theorem Layout.inData (hl : Layout d ptrs es) : InData d := by
  intro k hk h0
  rw [hl.direct k hk] at h0 ⊢
  rcases hl.marked _ (List.mem_of_getElem? (getD_ne_zero h0)) with heq | hmark
  · exact Nat.le_of_eq heq.symm
  · exact hmark.lo

/-- A sector with the entries `es`. -/
def entrySector (es : List DirEntry) : Bytes := fun i => slotBytes es (i / 24) (i % 24)

/-- A directory of one block with other entries in it. -/
theorem Layout.refill {p n : ℕ} (hl : Layout d [p] es) {es' : List DirEntry}
    (hnames : ∀ e ∈ es', NameOk e.name) (hpos : 0 < es'.length) (hle : es'.length ≤ 21) :
    Layout { d with
      disk := d.disk.copy (p * 512) (entrySector es') 0 512
      inode := d.inode.setSize n } [p] es' := by
  obtain ⟨h0, hmax, -⟩ := hl.stored.blocks 0 p rfl
  refine ⟨⟨hnames, by simpa using hle, fun k p' hk => ?_⟩, by simpa using hpos, hl.few,
    fun k hk => ?_, hl.nodup, hl.marked, fun hlen => ?_, fun hlen => ?_⟩
  · obtain ⟨rfl, rfl⟩ : k = 0 ∧ p = p' := by
      cases k with
      | zero => exact ⟨rfl, Option.some.inj hk⟩
      | succ k => cases hk
    refine ⟨h0, hmax, fun i hi => ?_⟩
    dsimp only
    rw [Bytes.copy_of_mem (by omega) (by omega), Nat.add_sub_cancel_left, Nat.zero_add,
      Nat.mul_zero, Nat.zero_add]
    rfl
  · exact (Inode.iSectors_setSize ..).trans (hl.direct k hk)
  · exact (Inode.iSectors_setSize ..).trans (hl.noTable hlen)
  · rw [List.length_singleton] at hlen
    omega

end

/-- What the root directory holds when its block is full. -/
def fullEntries : List DirEntry := dots ++ plainEntries 19

theorem fullEntries_plain : ∀ e ∈ fullEntries, NameOk e.name ∧ e.fType ≠ 0#8 := by
  intro e he
  rcases List.mem_append.mp he with he | he
  · have hdots : ∀ x ∈ dots, NameOk x.name ∧ x.fType ≠ 0#8 := by decide
    exact hdots e he
  · have hplain := plainEntries_plain (by omega) e he
    exact ⟨hplain.name, hplain.type⟩

/-- A file system that has just been mounted is in step. -/
theorem mounted_inStep {part : Partition} (h : Fits part) {pad disk : Bytes}
    (hpart : d.part = mounted part) (hdisk : d.disk = formatted part pad disk) : InStep d := by
  have hlen : (mounted part).blockBitmap.btmpBytesLen = blockBitmapSects part * 512 := rfl
  intro i hi
  rw [hpart, hlen] at hi
  rw [hpart, hdisk]
  exact (mounted_blockBitmap h hi).symm

theorem rootRun_inStep {part : Partition} (h : Fits part) (pad disk ioBuf : Bytes) :
    InStep (rootRun part pad disk ioBuf).dir := by
  unfold rootRun
  exact mounted_inStep h (by dsimp only) (by dsimp only)

theorem smallRoot_inStep : InStep smallRoot := by
  unfold smallRoot
  exact rootRun_inStep smallPartition_fits zeros zeros zeros

theorem smallRoot_block : Layout smallRoot [smallRoot.inode.iSectors 0] dots := by
  obtain ⟨-, -, ptrs, hl⟩ := smallRoot_layout
  have hroom := hl.stored.room
  have hlast := hl.last
  have hdots : dots.length = 2 := rfl
  obtain ⟨p, rfl⟩ := List.length_eq_one_iff.mp (show ptrs.length = 1 by omega)
  rw [hl.direct 0 (by omega)]
  exact hl

/-- The root directory of the small partition with these entries. -/
def fullRoot : Dir :=
  { smallRoot with
    disk := smallRoot.disk.copy (smallRoot.inode.iSectors 0 * 512) (entrySector fullEntries) 0 512
    inode := smallRoot.inode.setSize 504 }

theorem fullRoot_layout : Layout fullRoot [smallRoot.inode.iSectors 0] fullEntries :=
  smallRoot_block.refill (fun e he => (fullEntries_plain e he).1) (by decide) (by decide)

theorem fullRoot_inStep : InStep fullRoot := by
  obtain ⟨hgeo, -, -⟩ := smallRoot_layout
  have h0 := (smallRoot_block.stored.blocks 0 _ rfl).1
  have hdata := smallRoot_block.inData 0 (by omega) h0
  intro i hi
  have hstep := smallRoot_inStep i hi
  have hbefore := hgeo.bitmap_before hi hdata
  unfold fullRoot
  dsimp only
  rw [Bytes.copy_of_not_mem (Or.inl hbefore)]
  exact hstep

theorem fullRoot_full : FullTo fullRoot 1 ∧ fullRoot.inode.iSectors 1 = 0 := by
  have hl := fullRoot_layout
  have hlen : fullEntries.length = 21 := by decide
  obtain ⟨h0, -, hholds⟩ := hl.stored.blocks 0 _ rfl
  have hblock : fullRoot.inode.iSectors 0 = smallRoot.inode.iSectors 0 := hl.direct 0 (by omega)
  refine ⟨fun k hk => ?_, hl.direct 1 (by omega)⟩
  obtain rfl : k = 0 := by omega
  rw [hblock]
  refine ⟨h0, fun q hq htype => ?_⟩
  have hfree := (hholds.free_iff (fun e he => (fullEntries_plain e he).2) hq).mp htype
  omega

/-- One block is free and on the disk, and the root directory's own one is marked. -/
theorem smallRoot_room : ∃ bit, blockBitmapAlloc smallRoot.part =
      .ok (some ((smallRoot.part.sb.dataStartLba + bit) % 2 ^ 32), smallRoot.part.mark bit) ∧
    FirstClear smallRoot.part.blockBitmap bit ∧ smallRoot.part.sb.dataStartLba + bit ≤ maxLba ∧
    Marked smallRoot.part smallRoot.part.sb.dataStartLba := by
  obtain ⟨hgeo, -, -⟩ := smallRoot_layout
  have hpos := hgeo.nonempty
  have hmarked : Marked smallRoot.part smallRoot.part.sb.dataStartLba := by
    refine ⟨Nat.le_refl _, by omega, ?_⟩
    rw [Nat.sub_self]
    exact smallPartition_root
  have hroom : RoomFor (503 + 1) smallRoot.part := smallPartition_room
  rcases blockBitmapAlloc_cases smallRoot.part with ⟨bit, halloc, hbit, hclear, hfirst⟩ | ⟨-, hfull⟩
  · exact ⟨bit, halloc, ⟨hbit, hclear, hfirst⟩, (hroom.mark hbit hclear hfirst).1, hmarked⟩
  · exact absurd hfull fun h => hroom.not_full h

theorem sync_inStep_smallRoot : ∃ d', syncDirEntry smallRoot (plainEntry 0).bytes = .ok (true, d') ∧
    (SyncOk smallRoot d' true ↔ NeedsNoBlock smallRoot ∨ OneSector smallRoot) := by
  obtain ⟨hgeo, -, -⟩ := smallRoot_layout
  obtain ⟨d', k, q, hsync, -⟩ := smallRoot_sync (plainEntry 0).bytes
  exact ⟨d', hsync, sync_inStep_iff hgeo smallRoot_block.inData smallRoot_inStep hsync⟩

/-- The first entry behind a full block: the bit of the new block is not written. -/
theorem sync_out_of_step : Geometry fullRoot.part ∧ InData fullRoot ∧ InStep fullRoot ∧
    ∃ d', syncDirEntry fullRoot (plainEntry 19).bytes = .ok (true, d') ∧ ¬InStep d' := by
  obtain ⟨hgeo, -, -⟩ := smallRoot_layout
  obtain ⟨bit, halloc, hbit, hmax, hmarked⟩ := smallRoot_room
  have hl := fullRoot_layout
  have hlen : fullEntries.length = 21 := by decide
  have hname := (plainEntry_plain (k := 19) (by omega)).name
  have hsize : fullRoot.inode.iSize % 24 = 0 := by
    unfold fullRoot
    rw [Inode.iSize_setSize]
    decide
  obtain ⟨d', hsync, hpart, -⟩ := sync_direct (d := fullRoot) hgeo hl
    (fun e he => (fullEntries_plain e he).2) hname hsize (by rw [hlen]) (by omega) hmarked halloc
    hbit.inside hbit.clear hmax
  refine ⟨hgeo, hl.inData, fullRoot_inStep, d', hsync, ?_⟩
  obtain ⟨hfull, hmissing⟩ := fullRoot_full
  exact not_inStep_of_missing (d := fullRoot) hgeo fullRoot_inStep hfull (by decide) hmissing hsync

end HcOs.Fs
