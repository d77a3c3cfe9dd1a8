import HcOs.Fs.Format

/-!
# The blocks of a fresh file system

`partition_format` clears the bits of the last byte of the block bitmap with
`while(bit_idx <= block_bitmap_last_bit)`, one round too many: the bit after the last block stays
clear, and with fewer than eight blocks the bit of the root directory is cleared again.  So the
free bits of the mounted bitmap are those from `firstFree` up to `endFree`
(`mounted_freeBits`), and successive calls of `block_bitmap_alloc` hand them out in order
(`allocBlocks_eq`).

The extra bit is harmless only where the two roundings of `partition_format` differ and leave one
sector of the partition unmanaged; `allocsInside_iff` says when.
-/

namespace HcOs.Fs

open HcOs.Lib HcOs.Sectors
open HcOs.Disk (maxLba)

variable {part : Partition}

/-! ## The bits of the bitmap -/

theorem getLsbD_clearBits (byte : BitVec 8) (left bitIdx : ℕ) (h8 : bitIdx + left ≤ 8) {k : ℕ}
    (hk : k < 8) :
    (clearBits byte left bitIdx).getLsbD k =
      (byte.getLsbD k && !decide (bitIdx ≤ k ∧ k < bitIdx + left)) := by
  induction left generalizing byte bitIdx with
  | zero =>
    have hnot : ¬(bitIdx ≤ k ∧ k < bitIdx + 0) := by omega
    unfold clearBits
    rw [decide_eq_false hnot, Bool.not_false, Bool.and_true]
  | succ left ih =>
    unfold clearBits
    rw [ih _ _ (by omega), BitVec.getLsbD_and, BitVec.getLsbD_not, getLsbD_bitmapMask (by omega),
      Bool.and_assoc]
    congr 1
    by_cases hki : k = bitIdx
    · have hin : bitIdx ≤ k ∧ k < bitIdx + (left + 1) := by omega
      rw [decide_eq_true hki, decide_eq_true hin]
      simp
    · have hrange : decide (bitIdx + 1 ≤ k ∧ k < bitIdx + 1 + left) =
          decide (bitIdx ≤ k ∧ k < bitIdx + (left + 1)) := by
        rw [decide_eq_decide]
        omega
      rw [decide_eq_false hki, decide_eq_true hk, hrange]
      simp

/-- The first clear bit of the mounted bitmap. -/
def firstFree (part : Partition) : ℕ := if blockBitmapBitLen part < 8 then 0 else 1

/-- The end of the clear bits: one past the bit after the last block, or the end of the bitmap. -/
def endFree (part : Partition) : ℕ :=
  min (blockBitmapBitLen part + 1) (blockBitmapSects part * 4096)

theorem firstFree_cases (part : Partition) :
    (blockBitmapBitLen part < 8 ∧ firstFree part = 0) ∨
      (8 ≤ blockBitmapBitLen part ∧ firstFree part = 1) := by
  unfold firstFree
  split
  · next hlt => exact Or.inl ⟨hlt, rfl⟩
  · next hge => exact Or.inr ⟨by omega, rfl⟩

theorem endFree_cases (part : Partition) :
    (blockBitmapBitLen part + 1 ≤ blockBitmapSects part * 4096 ∧
        endFree part = blockBitmapBitLen part + 1) ∨
      (blockBitmapSects part * 4096 ≤ blockBitmapBitLen part + 1 ∧
        endFree part = blockBitmapSects part * 4096) := by
  unfold endFree
  rcases Nat.le_total (blockBitmapBitLen part + 1) (blockBitmapSects part * 4096) with hle | hle
  · exact Or.inl ⟨hle, Nat.min_eq_left hle⟩
  · exact Or.inr ⟨hle, Nat.min_eq_right hle⟩

/-- The bits that `partition_format` leaves clear. -/
theorem getLsbD_blockBitmapBuf {i : ℕ} (hi : i / 8 < (blockBitmapBitLen part / 8 / 512 + 1) * 512) :
    (blockBitmapBuf part zeros (i / 8)).getLsbD (i % 8) =
      !decide (firstFree part ≤ i ∧ i ≤ blockBitmapBitLen part) := by
  have hk : i % 8 < 8 := Nat.mod_lt i (by decide)
  have hfirst := firstFree_cases part
  unfold blockBitmapBuf sectorSize
  by_cases hlast : i / 8 = blockBitmapBitLen part / 8
  · -- the byte that the loop works on
    rw [hlast, Function.update_self, getLsbD_clearBits _ _ _ (by omega) hk,
      Bytes.fill_of_mem (Nat.le_refl _) (by omega), getLsbD_full hk, Bool.true_and]
    congr 1
    rw [decide_eq_decide]
    omega
  · rw [Function.update_of_ne hlast]
    by_cases hbefore : i / 8 < blockBitmapBitLen part / 8
    · rw [Bytes.fill_of_not_mem (Or.inl hbefore)]
      by_cases h0 : i / 8 = 0
      · rw [h0, Function.update_self]
        have hbit : (zeros 0 ||| 1#8).getLsbD (i % 8) = decide (i % 8 = 0) := by
          rw [BitVec.getLsbD_or]
          show ((0#8).getLsbD (i % 8) || (bitmapMask 0).getLsbD (i % 8)) = _
          rw [getLsbD_bitmapMask (by decide), BitVec.getLsbD_zero, Bool.false_or]
        rw [hbit, ← decide_not, decide_eq_decide]
        omega
      · have hin : firstFree part ≤ i ∧ i ≤ blockBitmapBitLen part := by omega
        rw [Function.update_of_ne h0, decide_eq_true hin]
        exact BitVec.getLsbD_zero
    · have hout : ¬(firstFree part ≤ i ∧ i ≤ blockBitmapBitLen part) := by omega
      rw [Bytes.fill_of_mem (by omega) (by omega), getLsbD_full hk, decide_eq_false hout]
      rfl

/-- The clear bits of a bitmap are those from `k` up to `top`, exclusive. -/
def FreeBits (b : Bitmap) (k top : ℕ) : Prop :=
  ∀ i, i < 8 * b.btmpBytesLen → (bitmapScanTest b i = false ↔ k ≤ i ∧ i < top)

/-- The mounted bitmap has one clear bit too many. -/
theorem mounted_freeBits (h : Fits part) :
    FreeBits (mounted part).blockBitmap (firstFree part) (endFree part) := by
  obtain ⟨-, -, -, -, hpad, -⟩ := blockBitmap_bounds h
  intro i hi
  replace hi : i < 8 * (blockBitmapSects part * 512) := hi
  have hbyte : (mounted part).blockBitmap.bits (i / 8) = blockBitmapBuf part zeros (i / 8) := by
    show zeros.copy 0 (blockBitmapBuf part zeros) 0 (blockBitmapSects part * 512) (i / 8) = _
    rw [Bytes.copy_of_mem (Nat.zero_le _) (by omega), Nat.sub_zero, Nat.zero_add]
  rw [bitmapScanTest_eq, hbyte, getLsbD_blockBitmapBuf (by omega), Bool.not_eq_false',
    decide_eq_true_eq]
  have hend := endFree_cases part
  omega

/-! ## Successive allocations -/

/-- `n` calls of `block_bitmap_alloc`. -/
def allocBlocks : ℕ → Mounted → Except Halt (List (Option ℕ) × Mounted)
  | 0, part => .ok ([], part)
  | n + 1, part => do
    let (lba, part) ← blockBitmapAlloc part
    let (lbas, part) ← allocBlocks n part
    .ok (lba :: lbas, part)

variable {m : Mounted} {k top : ℕ}

/-- The partition with one more block taken. -/
def Mounted.mark (part : Mounted) (bitIdx : ℕ) : Mounted :=
  { part with blockBitmap := bitmapSet part.blockBitmap bitIdx true }

theorem Mounted.mark_sb (part : Mounted) (bitIdx : ℕ) : (part.mark bitIdx).sb = part.sb := rfl

/-- One call takes the first clear bit, or fails the assertion of `bitmap_scan`. -/
theorem blockBitmapAlloc_cases (m : Mounted) :
    (∃ bit, blockBitmapAlloc m = .ok (some ((m.sb.dataStartLba + bit) % 2 ^ 32), m.mark bit) ∧
        bit < 8 * m.blockBitmap.btmpBytesLen ∧ bitmapScanTest m.blockBitmap bit = false ∧
        ∀ i, i < bit → bitmapScanTest m.blockBitmap i = true) ∨
      (blockBitmapAlloc m = .error (.panic "bitmap_scan" "idx_byte < btmp->btmp_bytes_len") ∧
        ∀ i, i < 8 * m.blockBitmap.btmpBytesLen → bitmapScanTest m.blockBitmap i = true) := by
  unfold blockBitmapAlloc
  rcases bitmapScan_one m.blockBitmap with ⟨bit, hscan, hbit, hclear, hfirst⟩ | ⟨herr, hfull⟩
  · exact Or.inl ⟨bit, by rw [hscan, ok_bind]; rfl, hbit, hclear, hfirst⟩
  · exact Or.inr ⟨by rw [herr, error_bind], hfull⟩

/-- Where the clear bits are an interval, a call takes its first one. -/
theorem FreeBits.first (hfree : FreeBits m.blockBitmap k top) {bit : ℕ}
    (hlt : bit < 8 * m.blockBitmap.btmpBytesLen) (hclear : bitmapScanTest m.blockBitmap bit = false)
    (hfirst : ∀ i, i < bit → bitmapScanTest m.blockBitmap i = true) :
    bit = k ∧ k < top ∧ FreeBits (m.mark bit).blockBitmap (k + 1) top := by
  have hrange := (hfree bit hlt).mp hclear
  have hle : bit ≤ k := by
    by_contra hgt
    have hset := hfirst k (by omega)
    rw [(hfree k (by omega)).mpr ⟨Nat.le_refl k, by omega⟩] at hset
    cases hset
  obtain rfl : bit = k := by omega
  refine ⟨rfl, hrange.2, fun i hi => ?_⟩
  have hold := hfree i hi
  show bitmapScanTest (bitmapSet m.blockBitmap bit true) i = false ↔ _
  rw [bitmapScanTest_set]
  split
  · next hit =>
    subst hit
    refine ⟨fun hset => ?_, fun hrange' => by omega⟩
    cases hset
  · next hne =>
    rw [hold]
    omega

/-- A run of calls hands out the clear bits in order, and halts when there are none left. -/
theorem allocBlocks_eq (hfree : FreeBits m.blockBitmap k top) (hk : k ≤ top)
    (htop : top ≤ 8 * m.blockBitmap.btmpBytesLen) (hsmall : m.sb.dataStartLba + top ≤ 2 ^ 32)
    (n : ℕ) :
    (n ≤ top - k ∧ ∃ m', allocBlocks n m =
        .ok ((List.range' k n).map fun i => some (m.sb.dataStartLba + i), m')) ∨
      (top - k < n ∧ ∃ e, allocBlocks n m = .error e) := by
  induction n generalizing m k with
  | zero => exact Or.inl ⟨Nat.zero_le _, m, rfl⟩
  | succ n ih =>
    unfold allocBlocks
    rcases blockBitmapAlloc_cases m with ⟨bit, hcall, hbit, hclear, hfirst⟩ | ⟨herr, hfull⟩
    · obtain ⟨rfl, hlt, hfree'⟩ := hfree.first hbit hclear hfirst
      rw [hcall, ok_bind, Nat.mod_eq_of_lt (by omega)]
      rcases ih hfree' hlt htop hsmall with ⟨hn, m', hrun⟩ | ⟨hn, e, hrun⟩
      · refine Or.inl ⟨by omega, m', ?_⟩
        dsimp only
        rw [hrun, ok_bind, List.range'_succ, List.map_cons]
        rfl
      · refine Or.inr ⟨by omega, e, ?_⟩
        dsimp only
        rw [hrun, error_bind]
    · refine Or.inr ⟨?_, _, by rw [herr, error_bind]⟩
      by_contra hn
      have hset := hfull k (by omega)
      rw [(hfree k (by omega)).mpr ⟨Nat.le_refl k, by omega⟩] at hset
      cases hset

/-! ## Inside the partition -/

/-- What the users of `block_bitmap_alloc` rely on, for every number of calls that all return an
address on a partition that was formatted and mounted. -/
def AllocsInside (part : Partition) (pad disk : Bytes) : Prop :=
  ∀ granted granted' disk' m n (lbas : List ℕ) m',
    partitionFormat part pad granted disk = .ok disk' →
    mountPartition part part.name granted' disk' = .ok (some m) →
    allocBlocks n m = .ok (lbas.map some, m') →
      lbas.Nodup ∧ m.sb.dataStartLba ∉ lbas ∧
        ∀ lba ∈ lbas, m.sb.dataStartLba ≤ lba ∧ lba < part.startLba + part.secCnt

/-- What formatting leads to, whatever the allocator does. -/
theorem disk_of_format (h : Fits part) {pad disk disk' : Bytes} {granted : Bool}
    (hformat : partitionFormat part pad granted disk = .ok disk') :
    disk' = formatted part pad disk := by
  have htrue : granted = true := by
    by_contra hfalse
    unfold partitionFormat at hformat
    obtain ⟨_, _, hrest⟩ := bind_eq_ok.mp hformat
    rw [if_neg hfalse] at hrest
    cases hrest
  rw [htrue, partitionFormat_eq h] at hformat
  exact (Except.ok.inj hformat).symm

/-- What mounting after it leads to. -/
theorem mount_of_format (h : Fits part) {pad disk disk' : Bytes} {granted : Bool}
    {granted' : ℕ → Bool} (hformat : partitionFormat part pad granted disk = .ok disk')
    (hmount : mountPartition part part.name granted' disk' = .ok (some m)) : m = mounted part := by
  have hall := mountPartition_granted hmount
  rw [disk_of_format h hformat, mountPartition_formatted h] at hall
  exact (Option.some.inj (Except.ok.inj hall)).symm

theorem mounted_dataStartLba (h : Fits part) :
    (mounted part).sb.dataStartLba = part.startLba + 611 + blockBitmapSects part := by
  show (superBlock part).dataStartLba = _
  rw [superBlock_eq h]

theorem firstFree_le_endFree (h : Fits part) : firstFree part ≤ endFree part := by
  have hbounds := blockBitmap_bounds h
  have hfirst := firstFree_cases part
  have hend := endFree_cases part
  omega

/-- The calls on a fresh file system. -/
theorem allocBlocks_mounted (h : Fits part) (n : ℕ) :
    (n ≤ endFree part - firstFree part ∧ ∃ m', allocBlocks n (mounted part) =
        .ok ((List.range' (firstFree part) n).map fun i =>
          some (part.startLba + 611 + blockBitmapSects part + i), m')) ∨
      (endFree part - firstFree part < n ∧ ∃ e, allocBlocks n (mounted part) = .error e) := by
  have hbounds := blockBitmap_bounds h
  have hlarge := h.large
  have hdisk := h.onDisk
  have hmax : maxLba = 163839 := rfl
  have hdata := mounted_dataStartLba h
  have hlen : (mounted part).blockBitmap.btmpBytesLen = blockBitmapSects part * 512 := rfl
  have hend := endFree_cases part
  have hrun := allocBlocks_eq (mounted_freeBits h) (firstFree_le_endFree h) (by omega) (by omega) n
  rw [hdata] at hrun
  exact hrun

/-- When the two roundings of `partition_format` differ. -/
theorem sects_lt_iff (h : Fits part) :
    blockBitmapSects part < (freeSects part + 4095) / 4096 ↔
      1 ≤ freeSects part % 4096 ∧ freeSects part % 4096 ≤ freeSects part / 4096 + 1 := by
  have hfree := freeSects_eq h
  have hlen := blockBitmapBitLen_eq h
  have hsects := blockBitmapSects_eq h
  obtain ⟨hlarge, hdisk⟩ := h.bounds
  rw [hsects, hlen]
  generalize freeSects part = free at *
  obtain ⟨q, r, hr, rfl⟩ : ∃ q r, r < 4096 ∧ free = 4096 * q + r :=
    ⟨free / 4096, free % 4096, Nat.mod_lt _ (by decide), (Nat.div_add_mod _ _).symm⟩
  rw [show (4096 * q + r) % 4096 = r by omega, show (4096 * q + r) / 4096 = q by omega]
  by_cases h0 : r = 0
  · rw [show (4096 * q + r + 4095) / 4096 = q by omega]
    omega
  · rw [show (4096 * q + r + 4095) / 4096 = q + 1 by omega]
    omega

/-- The free bits are the blocks of the partition, the root directory's apart. -/
theorem inside_iff (h : Fits part) :
    (1 ≤ firstFree part ∧ endFree part ≤ part.secCnt - 611 - blockBitmapSects part) ↔
      1 ≤ (part.secCnt - 611) % 4096 ∧
        (part.secCnt - 611) % 4096 ≤ (part.secCnt - 611) / 4096 + 1 := by
  have hlt := sects_lt_iff h
  have hbounds := blockBitmap_bounds h
  have hfree := freeSects_eq h
  have hlen := blockBitmapBitLen_eq h
  have hlarge := h.large
  rw [hfree] at hlt hlen
  rw [← hlt]
  clear hlt
  have hfirst : 4096 * ((part.secCnt - 611 + 4095) / 4096) < part.secCnt - 611 + 4096 ∧
      part.secCnt - 611 ≤ 4096 * ((part.secCnt - 611 + 4095) / 4096) := by omega
  generalize (part.secCnt - 611 + 4095) / 4096 = first at *
  have hff := firstFree_cases part
  have hef := endFree_cases part
  constructor
  · rintro ⟨-, hend⟩
    omega
  · intro hlt
    omega

/-- Allocations stay inside when the free bits do. -/
theorem allocsInside_of_bits (h : Fits part) (pad disk : Bytes) (hfirst : 1 ≤ firstFree part)
    (hend : endFree part ≤ part.secCnt - 611 - blockBitmapSects part) :
    AllocsInside part pad disk := by
  intro granted granted' disk' m n lbas m' hformat hmount hrun
  obtain rfl := mount_of_format h hformat hmount
  rcases allocBlocks_mounted h n with ⟨hn, m'', hok⟩ | ⟨-, e, herr⟩
  · rw [hok] at hrun
    have hlist : (List.range' (firstFree part) n).map
        (fun i => some (part.startLba + 611 + blockBitmapSects part + i)) = lbas.map some := by
      injection hrun with hpair
      exact (Prod.mk.inj hpair).1
    have hlbas : lbas = (List.range' (firstFree part) n).map
        fun i => part.startLba + 611 + blockBitmapSects part + i := by
      have hinj : Function.Injective (List.map (some : ℕ → Option ℕ)) :=
        List.map_injective_iff.mpr fun i j hij => Option.some.inj hij
      apply hinj
      rw [← hlist, List.map_map]
      rfl
    have hmem : ∀ lba ∈ lbas, part.startLba + 611 + blockBitmapSects part + 1 ≤ lba ∧
        lba < part.startLba + part.secCnt := by
      intro lba hlba
      rw [hlbas, List.mem_map] at hlba
      obtain ⟨i, hi, rfl⟩ := hlba
      rw [List.mem_range'_1] at hi
      omega
    rw [mounted_dataStartLba h]
    refine ⟨?_, fun hroot => ?_, fun lba hlba => ?_⟩
    · rw [hlbas]
      refine List.Nodup.map (fun i j hij => ?_) (List.nodup_range' ..)
      omega
    · have := hmem _ hroot
      omega
    · have := hmem lba hlba
      omega
  · rw [herr] at hrun
    cases hrun

/-- If they do not, some number of calls returns the root directory's block or leaves the
partition. -/
theorem not_allocsInside_of_bits (h : Fits part) (pad disk : Bytes)
    (hbits : ¬(1 ≤ firstFree part ∧ endFree part ≤ part.secCnt - 611 - blockBitmapSects part)) :
    ¬AllocsInside part pad disk := by
  intro hinside
  have hbounds := blockBitmap_bounds h
  have hff := firstFree_cases part
  have hef := endFree_cases part
  have hsome : firstFree part < endFree part := by omega
  rcases allocBlocks_mounted h (endFree part - firstFree part) with ⟨-, m', hok⟩ | ⟨hlt, -⟩
  · have hmap : (List.range' (firstFree part) (endFree part - firstFree part)).map
        (fun i => some (part.startLba + 611 + blockBitmapSects part + i)) =
        ((List.range' (firstFree part) (endFree part - firstFree part)).map
          fun i => part.startLba + 611 + blockBitmapSects part + i).map some := by
      rw [List.map_map]
      rfl
    rw [hmap] at hok
    obtain ⟨-, hroot, hrange⟩ := hinside true (fun _ => true) _ _ _ _ _
      (partitionFormat_eq h pad disk) (mountPartition_formatted h pad disk) hok
    rw [mounted_dataStartLba h] at hroot hrange
    generalize hdata : part.startLba + 611 + blockBitmapSects part = dataStart at *
    have hmem : ∀ lba, dataStart + firstFree part ≤ lba → lba < dataStart + endFree part →
        lba ∈ (List.range' (firstFree part) (endFree part - firstFree part)).map
          fun i => dataStart + i := by
      intro lba hlo hhi
      refine List.mem_map.mpr ⟨lba - dataStart, List.mem_range'_1.mpr ?_, ?_⟩
      · omega
      · omega
    have hlast := (hrange _ (hmem (dataStart + (endFree part - 1)) (by omega) (by omega))).2
    refine hbits ⟨?_, by omega⟩
    by_contra h0
    exact hroot (hmem dataStart (by omega) (by omega))
  · omega

/-- **Block allocation.**  On a partition that fits, the calls of `block_bitmap_alloc` stay inside
exactly when the sectors left by the metadata, a little more than a multiple of `4096`, make the
second rounding of `partition_format` smaller than the first. -/
theorem allocsInside_iff (part : Partition) (pad disk : Bytes) (hlarge : 613 ≤ part.secCnt)
    (hdisk : part.startLba + part.secCnt - 1 ≤ maxLba) :
    AllocsInside part pad disk ↔
      1 ≤ (part.secCnt - 611) % 4096 ∧
        (part.secCnt - 611) % 4096 ≤ (part.secCnt - 611) / 4096 + 1 := by
  have h : Fits part := ⟨hlarge, hdisk⟩
  rw [← inside_iff h]
  constructor
  · intro hinside
    by_contra hbits
    exact not_allocsInside_of_bits h pad disk hbits hinside
  · rintro ⟨hfirst, hend⟩
    exact allocsInside_of_bits h pad disk hfirst hend

/-- A partition with one sector to spare. -/
theorem allocsInside_4708 : AllocsInside ⟨63, 4708, 1, "sdb1"⟩ zeros zeros :=
  (allocsInside_iff ⟨63, 4708, 1, "sdb1"⟩ zeros zeros (by decide) (by decide)).mpr (by decide)

/-- On a partition of 1 MiB the last block handed out is the first sector after it. -/
theorem not_allocsInside_2048 :
    613 ≤ (⟨2048, 2048, 1, "sdb1"⟩ : Partition).secCnt ∧ 2048 + 2048 - 1 ≤ maxLba ∧
      ¬AllocsInside ⟨2048, 2048, 1, "sdb1"⟩ zeros zeros := by
  have h : Fits ⟨2048, 2048, 1, "sdb1"⟩ := ⟨by decide, by decide⟩
  refine ⟨h.large, h.onDisk, not_allocsInside_of_bits h zeros zeros ?_⟩
  rw [inside_iff h]
  decide

end HcOs.Fs
