import HcOs.Fs.Fresh

/-!
# The bitmaps on the disk over whole runs

A caller that changes one bit of a bitmap of a mounted partition hands the index of the bit to
`bitmap_sync`, which writes the sector the bit is in.  For a block the index comes from the address
that `block_bitmap_alloc` returned.

* `bitmapStep_cases`: a change and the call after it, or the failed assertion of `bitmap_scan`.
* `bitmaps_kept`: after any sequence of changes both bitmaps on the disk are those in memory, and
  each change writes one sector of its own bitmap only.
* `mount_synced`: a partition that has just been mounted is where such a sequence starts.
-/

namespace HcOs.Fs

open HcOs.Lib HcOs.Sectors
open HcOs.Disk (maxLba)

/-! ## The two bitmaps of a partition -/

def Mounted.bitmap (part : Mounted) : BitmapType → Bitmap
  | .inodeBitmap => part.inodeBitmap
  | .blockBitmap => part.blockBitmap

/-- The first sector of a bitmap. -/
def SuperBlock.bitmapLba (sb : SuperBlock) : BitmapType → ℕ
  | .inodeBitmap => sb.inodeBitmapLba
  | .blockBitmap => sb.blockBitmapLba

def SuperBlock.bitmapSects (sb : SuperBlock) : BitmapType → ℕ
  | .inodeBitmap => sb.inodeBitmapSects
  | .blockBitmap => sb.blockBitmapSects

/-- `bitmap_set` on one of the bitmaps. -/
def Mounted.setBit (part : Mounted) (btmp : BitmapType) (bitIdx : ℕ) (value : Bool) : Mounted :=
  match btmp with
  | .inodeBitmap => { part with inodeBitmap := bitmapSet part.inodeBitmap bitIdx value }
  | .blockBitmap => { part with blockBitmap := bitmapSet part.blockBitmap bitIdx value }

/-! ## Runs -/

/-- A mounted partition and the disk it is on. -/
structure MountedDisk where
  part : Mounted
  disk : Bytes

/-- A change of one bit. -/
inductive BitmapCall where
  | inodeAlloc
  | blockAlloc
  | clear (btmp : BitmapType) (bitIdx : ℕ)

def BitmapCall.btmp : BitmapCall → BitmapType
  | .inodeAlloc => .inodeBitmap
  | .blockAlloc => .blockBitmap
  | .clear btmp _ => btmp

/-- `bitmap_sync`, after the partition has been changed in memory. -/
def syncStep (disk : Bytes) (part : Mounted) (bitIdx : ℕ) (btmp : BitmapType) :
    Except Halt MountedDisk := do
  let disk ← bitmapSync part bitIdx btmp disk
  .ok ⟨part, disk⟩

/-- A change and the call of `bitmap_sync` after it.  An allocation that returns -1 has changed no
bit. -/
def bitmapStep (s : MountedDisk) : BitmapCall → Option (Except Halt MountedDisk)
  | .inodeAlloc => some do
    match ← inodeBitmapAlloc s.part with
    | (none, part) => .ok ⟨part, s.disk⟩
    | (some bitIdx, part) => syncStep s.disk part bitIdx .inodeBitmap
  | .blockAlloc => some do
    match ← blockBitmapAlloc s.part with
    | (none, part) => .ok ⟨part, s.disk⟩
    | (some lba, part) =>
      syncStep s.disk part ((lba + 2 ^ 32 - part.sb.dataStartLba) % 2 ^ 32) .blockBitmap
  | .clear btmp bitIdx =>
    if bitIdx < 8 * (s.part.bitmap btmp).btmpBytesLen then
      some (syncStep s.disk (s.part.setBit btmp bitIdx false) bitIdx btmp)
    else none

def bitmapMachine : Machine MountedDisk BitmapCall Halt := ⟨bitmapStep⟩

/-! ## What is kept -/

/-- The bitmaps are where `partition_format` puts them: whole sectors of the disk, and no sector
belongs to both. -/
structure BitmapsLaid (part : Mounted) : Prop where
  whole : ∀ btmp, (part.bitmap btmp).btmpBytesLen = part.sb.bitmapSects btmp * 512
  onDisk : ∀ btmp, part.sb.bitmapLba btmp + part.sb.bitmapSects btmp ≤ maxLba + 1
  apart : part.sb.inodeBitmapLba + part.sb.inodeBitmapSects ≤ part.sb.blockBitmapLba ∨
    part.sb.blockBitmapLba + part.sb.blockBitmapSects ≤ part.sb.inodeBitmapLba
  /-- `data_start_lba` is a `uint32_t`. -/
  word : part.sb.dataStartLba < 2 ^ 32

/-- Both bitmaps on the disk are those in memory. -/
def BitmapsSynced (s : MountedDisk) : Prop :=
  ∀ btmp, s.disk.Mirrors (s.part.sb.bitmapLba btmp * 512) (s.part.bitmap btmp).bits
    (s.part.bitmap btmp).btmpBytesLen

/-- What a change does: one bit in memory, and on the disk the sector of its bitmap that holds the
bit. -/
structure Changed (s s' : MountedDisk) (btmp : BitmapType) (bitIdx : ℕ) (value : Bool) : Prop where
  inside : bitIdx < 8 * (s.part.bitmap btmp).btmpBytesLen
  part : s'.part = s.part.setBit btmp bitIdx value
  disk : s'.disk = s.disk.copy ((s.part.sb.bitmapLba btmp + bitIdx / 4096) * 512)
    (s'.part.bitmap btmp).bits (bitIdx / 4096 * 512) 512

variable {part : Mounted} {s s' : MountedDisk} {e : BitmapCall} {btmp btmp' : BitmapType}
  {bitIdx : ℕ} {value : Bool} {disk : Bytes}

/-! ## One bit in memory -/

@[simp] theorem Mounted.setBit_sb : (part.setBit btmp bitIdx value).sb = part.sb := by
  cases btmp <;> rfl

theorem Mounted.bitmap_setBit :
    (part.setBit btmp bitIdx value).bitmap btmp = bitmapSet (part.bitmap btmp) bitIdx value := by
  cases btmp <;> rfl

theorem Mounted.bitmap_setBit_of_ne (h : btmp' ≠ btmp) :
    (part.setBit btmp bitIdx value).bitmap btmp' = part.bitmap btmp' := by
  cases btmp <;> cases btmp' <;> first | rfl | exact absurd rfl h

@[simp] theorem Mounted.bitmap_setBit_len :
    ((part.setBit btmp bitIdx value).bitmap btmp').btmpBytesLen =
      (part.bitmap btmp').btmpBytesLen := by
  cases btmp <;> cases btmp' <;> rfl

theorem BitmapsLaid.setBit (h : BitmapsLaid part) :
    BitmapsLaid (part.setBit btmp bitIdx value) where
  whole := by
    intro btmp'
    rw [Mounted.bitmap_setBit_len, Mounted.setBit_sb]
    exact h.whole btmp'
  onDisk := by
    rw [Mounted.setBit_sb]
    exact h.onDisk
  apart := by
    rw [Mounted.setBit_sb]
    exact h.apart
  word := by
    rw [Mounted.setBit_sb]
    exact h.word

/-- The two regions, in either order. -/
theorem BitmapsLaid.apart_of_ne (h : BitmapsLaid part) (hne : btmp' ≠ btmp) :
    part.sb.bitmapLba btmp' + part.sb.bitmapSects btmp' ≤ part.sb.bitmapLba btmp ∨
      part.sb.bitmapLba btmp + part.sb.bitmapSects btmp ≤ part.sb.bitmapLba btmp' := by
  cases btmp with
  | inodeBitmap =>
    cases btmp' with
    | inodeBitmap => exact absurd rfl hne
    | blockBitmap => exact h.apart.symm
  | blockBitmap =>
    cases btmp' with
    | inodeBitmap => exact h.apart
    | blockBitmap => exact absurd rfl hne

/-- The sector of a bit is one of its bitmap. -/
theorem BitmapsLaid.sector_lt (h : BitmapsLaid part)
    (hbit : bitIdx < 8 * (part.bitmap btmp).btmpBytesLen) :
    bitIdx / 4096 < part.sb.bitmapSects btmp := by
  have hwhole := h.whole btmp
  omega

/-- `bitmap_set` does not touch the bytes outside the sector of its bit. -/
theorem bitmapSet_bits_of_sector {b : Bitmap} {i : ℕ}
    (h : i < bitIdx / 4096 * 512 ∨ bitIdx / 4096 * 512 + 512 ≤ i) :
    (bitmapSet b bitIdx value).bits i = b.bits i := by
  have hne : i ≠ bitIdx / 8 := by omega
  exact Function.update_of_ne hne ..

/-! ## One sector on the disk -/

theorem bitmapSync_eq : bitmapSync part bitIdx btmp disk =
    ideWrite disk part.devNo ((part.sb.bitmapLba btmp + bitIdx / 4096) % 2 ^ 32)
      (part.bitmap btmp).bits (bitIdx / 4096 * 512) 1 := by
  cases btmp <;> rfl

theorem syncStep_eq (h : BitmapsLaid part) (hbit : bitIdx < 8 * (part.bitmap btmp).btmpBytesLen) :
    syncStep disk part bitIdx btmp = .ok ⟨part,
      disk.copy ((part.sb.bitmapLba btmp + bitIdx / 4096) * 512) (part.bitmap btmp).bits
        (bitIdx / 4096 * 512) 512⟩ := by
  have hsect := h.sector_lt hbit
  have hdisk := h.onDisk btmp
  have hmax : maxLba = 163839 := rfl
  unfold syncStep
  rw [bitmapSync_eq, Nat.mod_eq_of_lt (by omega), ideWrite_sector (by omega), ok_bind]

/-- A bit that is set or cleared in memory and then handed to `bitmap_sync`. -/
theorem syncStep_changed (h : BitmapsLaid s.part) (btmp : BitmapType) (value : Bool)
    (hbit : bitIdx < 8 * (s.part.bitmap btmp).btmpBytesLen) :
    ∃ s', syncStep s.disk (s.part.setBit btmp bitIdx value) bitIdx btmp = .ok s' ∧
      Changed s s' btmp bitIdx value := by
  have hbit' : bitIdx < 8 * ((s.part.setBit btmp bitIdx value).bitmap btmp).btmpBytesLen := by
    rw [Mounted.bitmap_setBit_len]
    exact hbit
  refine ⟨_, syncStep_eq h.setBit hbit', hbit, rfl, ?_⟩
  rw [Mounted.setBit_sb]

theorem Changed.synced (hl : BitmapsLaid s.part) (hs : BitmapsSynced s)
    (h : Changed s s' btmp bitIdx value) : BitmapsSynced s' := by
  have hdisk := h.disk
  intro btmp'
  have hmirrors := hs btmp'
  rw [h.part] at hdisk ⊢
  rw [Mounted.setBit_sb, Mounted.bitmap_setBit_len, hdisk]
  by_cases heq : btmp' = btmp
  · subst heq
    rw [Mounted.bitmap_setBit, Nat.add_mul]
    exact hmirrors.copy_block fun i hi => bitmapSet_bits_of_sector hi
  · -- the sector is in the other region
    have hwhole := hl.whole btmp'
    have hsect := hl.sector_lt h.inside
    have hapart := hl.apart_of_ne heq
    rw [Mounted.bitmap_setBit_of_ne heq]
    exact hmirrors.copy_apart (by omega)

/-- The other sectors of the disk keep their bytes. -/
theorem Changed.frame (h : Changed s s' btmp bitIdx value) {i : ℕ}
    (hi : i / 512 ≠ s.part.sb.bitmapLba btmp + bitIdx / 4096) : s'.disk i = s.disk i := by
  rw [h.disk]
  exact Bytes.copy_of_not_mem (by omega)

/-! ## One call -/

/-- The failed assertion of `bitmap_scan`. -/
def bitmapFull : Halt := .panic "bitmap_scan" "idx_byte < btmp->btmp_bytes_len"

theorem inodeBitmapAlloc_cases (part : Mounted) :
    (∃ bit, inodeBitmapAlloc part = .ok (some bit, part.setBit .inodeBitmap bit true) ∧
        bit < 8 * part.inodeBitmap.btmpBytesLen) ∨
      (inodeBitmapAlloc part = .error bitmapFull ∧
        ∀ i, i < 8 * part.inodeBitmap.btmpBytesLen → bitmapScanTest part.inodeBitmap i = true) := by
  unfold inodeBitmapAlloc
  rcases bitmapScan_one part.inodeBitmap with ⟨bit, hscan, hbit, -⟩ | ⟨herr, hfull⟩
  · exact Or.inl ⟨bit, by rw [hscan, ok_bind]; rfl, hbit⟩
  · exact Or.inr ⟨by rw [herr, error_bind]; rfl, hfull⟩

/-- The bits of a bitmap that is on the disk have indices of 32 bits. -/
theorem BitmapsLaid.bit_lt (h : BitmapsLaid part) (btmp : BitmapType)
    (hbit : bitIdx < 8 * (part.bitmap btmp).btmpBytesLen) : bitIdx < 2 ^ 32 := by
  have hdisk := h.onDisk btmp
  have hwhole := h.whole btmp
  have hmax : maxLba = 163839 := rfl
  omega

/-- The index of a block's bit is got back from its address. -/
theorem lba_index {lba bit : ℕ} (hlba : lba < 2 ^ 32) (hbit : bit < 2 ^ 32) :
    ((lba + bit) % 2 ^ 32 + 2 ^ 32 - lba) % 2 ^ 32 = bit := by
  omega

/-- A call changes a bit of its bitmap and writes the sector of that bit, or finds no clear bit. -/
theorem bitmapStep_cases (hl : BitmapsLaid s.part) {r : Except Halt MountedDisk}
    (hstep : bitmapMachine.step s e = some r) :
    (∃ s' bit value, r = .ok s' ∧ Changed s s' e.btmp bit value) ∨
      (r = .error bitmapFull ∧ (∀ bit, e ≠ .clear e.btmp bit) ∧
        ∀ i, i < 8 * (s.part.bitmap e.btmp).btmpBytesLen →
          bitmapScanTest (s.part.bitmap e.btmp) i = true) := by
  cases e with
  | inodeAlloc =>
    obtain rfl := Option.some.inj hstep
    rcases inodeBitmapAlloc_cases s.part with ⟨bit, halloc, hbit⟩ | ⟨herr, hfull⟩
    · obtain ⟨s', hsync, hchanged⟩ := syncStep_changed hl .inodeBitmap true hbit
      exact Or.inl ⟨s', bit, true, by rw [halloc, ok_bind]; exact hsync, hchanged⟩
    · exact Or.inr ⟨by rw [herr, error_bind], nofun, hfull⟩
  | blockAlloc =>
    obtain rfl := Option.some.inj hstep
    rcases blockBitmapAlloc_cases s.part with ⟨bit, halloc, hbit, -⟩ | ⟨herr, hfull⟩
    · obtain ⟨s', hsync, hchanged⟩ := syncStep_changed hl .blockBitmap true hbit
      have hindex := lba_index hl.word (hl.bit_lt .blockBitmap hbit)
      refine Or.inl ⟨s', bit, true, ?_, hchanged⟩
      rw [halloc, ok_bind]
      dsimp only
      rw [Mounted.mark_sb, hindex]
      exact hsync
    · exact Or.inr ⟨by rw [herr, error_bind]; rfl, nofun, hfull⟩
  | clear btmp bitIdx =>
    unfold bitmapMachine bitmapStep at hstep
    dsimp only at hstep
    split at hstep
    · next hbit =>
      obtain rfl := Option.some.inj hstep
      obtain ⟨s', hsync, hchanged⟩ := syncStep_changed hl btmp false hbit
      exact Or.inl ⟨s', bitIdx, false, hsync, hchanged⟩
    · cases hstep

/-! ## Whole runs -/

/-- What holds after every step from `s`. -/
structure BitmapInv (s s' : MountedDisk) : Prop where
  laid : BitmapsLaid s'.part
  synced : BitmapsSynced s'
  superBlock : s'.part.sb = s.part.sb

theorem BitmapInv.changed {s₀ : MountedDisk} (hi : BitmapInv s₀ s)
    (h : Changed s s' btmp bitIdx value) : BitmapInv s₀ s' where
  laid := by
    rw [h.part]
    exact hi.laid.setBit
  synced := h.synced hi.laid hi.synced
  superBlock := by
    rw [h.part, Mounted.setBit_sb]
    exact hi.superBlock

theorem BitmapInv.run {es : List BitmapCall} (hl : BitmapsLaid s.part) (hs : BitmapsSynced s)
    (hrun : bitmapMachine.run s es = some (.ok s')) : BitmapInv s s' := by
  refine Machine.run_ok (fun s₁ e s₂ hi hstep => ?_) ⟨hl, hs, rfl⟩ hrun
  rcases bitmapStep_cases hi.laid hstep with ⟨s₃, bit, value, hok, hchanged⟩ | ⟨herr, -⟩
  · cases hok
    exact hi.changed hchanged
  · cases herr

/-- **Disk and memory.**  From a partition whose bitmaps on the disk are those in memory, after any
sequence of changes, the next change leaves both bitmaps on the disk equal to those in memory again,
and of the disk it writes one sector of the bitmap it changes; or it is an allocation in a full
bitmap, which fails the assertion of `bitmap_scan`. -/
theorem bitmaps_kept {es : List BitmapCall} {r : Except Halt MountedDisk}
    (hl : BitmapsLaid s.part) (hs : BitmapsSynced s)
    (hrun : bitmapMachine.run s es = some (.ok s')) (hstep : bitmapMachine.step s' e = some r) :
    (∃ s'', r = .ok s'' ∧ BitmapsSynced s'' ∧ s''.part.sb = s.part.sb ∧
        ∃ k, k < s.part.sb.bitmapSects e.btmp ∧
          ∀ i, i / 512 ≠ s.part.sb.bitmapLba e.btmp + k → s''.disk i = s'.disk i) ∨
      (r = .error bitmapFull ∧ (∀ bit, e ≠ .clear e.btmp bit) ∧
        ∀ i, i < 8 * (s'.part.bitmap e.btmp).btmpBytesLen →
          bitmapScanTest (s'.part.bitmap e.btmp) i = true) := by
  have hi := BitmapInv.run hl hs hrun
  rcases bitmapStep_cases hi.laid hstep with ⟨s'', bit, value, rfl, hchanged⟩ | hfull
  · have hi' := hi.changed hchanged
    have hsect := hi.laid.sector_lt hchanged.inside
    rw [hi.superBlock] at hsect
    refine Or.inl ⟨s'', rfl, hi'.synced, hi'.superBlock, bit / 4096, hsect, fun i hne => ?_⟩
    rw [← hi.superBlock] at hne
    exact hchanged.frame hne
  · exact Or.inr hfull

/-! ## A mounted partition -/

variable {p : Partition}

/-- Where the two bitmaps are. -/
theorem mounted_bitmapLba (h : Fits p) :
    (mounted p).sb.blockBitmapLba = p.startLba + 2 ∧
      (mounted p).sb.blockBitmapSects = blockBitmapSects p ∧
      (mounted p).sb.inodeBitmapLba = p.startLba + 2 + blockBitmapSects p ∧
      (mounted p).sb.inodeBitmapSects = 1 := by
  simp only [mounted, superBlock_eq h, and_self]

/-- `partition_format` and `mount_partition` lay the bitmaps out so. -/
theorem mounted_laid (h : Fits p) : BitmapsLaid (mounted p) := by
  obtain ⟨-, -, h40, -, -, hroom⟩ := blockBitmap_bounds h
  obtain ⟨hlarge, hdisk⟩ := h.bounds
  obtain ⟨hblock, hinode, -⟩ := mounted_lengths h
  obtain ⟨hblockLba, hblockSects, hinodeLba, hinodeSects⟩ := mounted_bitmapLba h
  have hmax : maxLba = 163839 := rfl
  refine ⟨fun btmp => ?_, fun btmp => ?_, Or.inr ?_, ?_⟩
  · unfold Mounted.bitmap SuperBlock.bitmapSects
    cases btmp with
    | inodeBitmap => exact hinode
    | blockBitmap => exact hblock
  · unfold SuperBlock.bitmapLba SuperBlock.bitmapSects
    cases btmp with
    | inodeBitmap =>
      dsimp only
      omega
    | blockBitmap =>
      dsimp only
      omega
  · omega
  · rw [mounted_dataStartLba h]
    omega

/-- A read of sectors of the disk that returns has put them into the buffer. -/
theorem mirrors_of_ideRead {devNo lba n : ℕ} {buf : Bytes} (hend : lba + n ≤ maxLba + 1)
    (h : ideRead disk devNo lba zeros 0 n = .ok buf) : disk.Mirrors (lba * 512) buf (n * 512) := by
  have hpos : 1 ≤ n := by
    unfold ideRead at h
    exact (assert_bind_eq_ok.mp (assert_bind_eq_ok.mp h).2).1
  rw [ideRead_eq hpos hend] at h
  obtain rfl := Except.ok.inj h
  intro i hi
  rw [Bytes.copy_of_mem (Nat.zero_le i) (by omega), Nat.sub_zero]

/-- Mounting has read both bitmaps. -/
theorem mountPartition_bitmap {partName : String} {granted : ℕ → Bool}
    (h : mountPartition p partName granted disk = .ok (some part)) (btmp : BitmapType) :
    (part.bitmap btmp).btmpBytesLen = part.sb.bitmapSects btmp * 512 % 2 ^ 32 ∧
      ideRead disk p.devNo (part.sb.bitmapLba btmp) zeros 0 (part.sb.bitmapSects btmp) =
        .ok (part.bitmap btmp).bits := by
  unfold mountPartition at h
  split at h
  · obtain ⟨-, -, h⟩ := bind_eq_ok.mp h
    obtain ⟨-, h⟩ := assert_bind_eq_ok.mp h
    obtain ⟨sbBuf, -, h⟩ := bind_eq_ok.mp h
    obtain ⟨-, -, h⟩ := bind_eq_ok.mp h
    obtain ⟨blockBits, hblock, h⟩ := bind_eq_ok.mp h
    obtain ⟨-, -, h⟩ := bind_eq_ok.mp h
    obtain ⟨inodeBits, hinode, h⟩ := bind_eq_ok.mp h
    obtain rfl := Option.some.inj (Except.ok.inj h)
    cases btmp with
    | inodeBitmap => exact ⟨rfl, hinode⟩
    | blockBitmap => exact ⟨rfl, hblock⟩
  · cases h

/-- Whatever is mounted, the bitmaps in memory are those on the disk if they lie inside it. -/
theorem mount_synced {partName : String} {granted : ℕ → Bool}
    (h : mountPartition p partName granted disk = .ok (some part))
    (hend : ∀ btmp, part.sb.bitmapLba btmp + part.sb.bitmapSects btmp ≤ maxLba + 1) :
    BitmapsSynced ⟨part, disk⟩ := by
  intro btmp
  obtain ⟨hlen, hread⟩ := mountPartition_bitmap h btmp
  have hin := hend btmp
  have hmax : maxLba = 163839 := rfl
  rw [hlen, Nat.mod_eq_of_lt (by omega)]
  exact mirrors_of_ideRead hin hread

theorem mounted_synced (h : Fits p) (pad disk : Bytes) :
    BitmapsSynced ⟨mounted p, formatted p pad disk⟩ :=
  mount_synced (mountPartition_formatted h pad disk) (mounted_laid h).onDisk

/-- The small partition, just mounted. -/
def smallMounted : MountedDisk := ⟨mounted smallPartition, formatted smallPartition zeros zeros⟩

theorem smallMounted_blockAlloc :
    ∃ s', bitmapMachine.run smallMounted [.blockAlloc] = some (.ok s') := by
  have hroom : RoomFor (503 + 1) (mounted smallPartition) := smallPartition_room
  have hl : BitmapsLaid smallMounted.part := mounted_laid smallPartition_fits
  obtain ⟨r, hstep⟩ : ∃ r, bitmapMachine.step smallMounted .blockAlloc = some r := ⟨_, rfl⟩
  rcases bitmapStep_cases hl hstep with
    ⟨s', bit, value, rfl, -⟩ | ⟨-, -, hfull⟩
  · exact ⟨s', bitmapMachine.run_cons_ok hstep []⟩
  · exact absurd hfull fun h => hroom.not_full h

/-- A block is taken, and then the first inode given back. -/
theorem bitmaps_kept_smallMounted : ∃ s' s'',
    bitmapMachine.run smallMounted [.blockAlloc] = some (.ok s') ∧
    bitmapMachine.step s' (.clear .inodeBitmap 0) = some (.ok s'') ∧ BitmapsSynced s'' ∧
    ∃ k, k < smallMounted.part.sb.inodeBitmapSects ∧
      ∀ i, i / 512 ≠ smallMounted.part.sb.inodeBitmapLba + k → s''.disk i = s'.disk i := by
  have hl : BitmapsLaid smallMounted.part := mounted_laid smallPartition_fits
  have hs : BitmapsSynced smallMounted := mounted_synced smallPartition_fits zeros zeros
  obtain ⟨s', hrun⟩ := smallMounted_blockAlloc
  have hi := BitmapInv.run hl hs hrun
  have hinside : 0 < 8 * (s'.part.bitmap .inodeBitmap).btmpBytesLen := by
    rw [hi.laid.whole, hi.superBlock]
    show 0 < 8 * ((mounted smallPartition).sb.inodeBitmapSects * 512)
    rw [(mounted_bitmapLba smallPartition_fits).2.2.2]
    omega
  have hstep : bitmapMachine.step s' (.clear .inodeBitmap 0) = some _ := if_pos hinside
  rcases bitmaps_kept hl hs hrun hstep with ⟨s'', hok, hsync, -, hframe⟩ | ⟨-, hne, -⟩
  · rw [hok] at hstep
    exact ⟨s', s'', hrun, hstep, hsync, hframe⟩
  · exact absurd rfl (hne 0)

end HcOs.Fs
