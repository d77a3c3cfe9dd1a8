import HcOs.Fs.BlockAlloc
import HcOs.Fs.DirLayout

/-!
# Inserting an entry

What `sync_dir_entry` makes of a directory that is laid out as it should be.  It skips the full
direct blocks, and then

* puts the entry into the first free slot of a direct block (`sync_slot`),
* or into a new direct block (`sync_direct`),
* or, the twelve direct blocks being full, into a new block behind a new table of pointers
  (`sync_indirect`).

It never looks at the table of pointers that may be there already.  So the last case keeps the
first 252 entries only: `sync_spec` has `es.take 252` where one would expect `es`.
-/

namespace HcOs.Fs

open HcOs.Lib HcOs.Sectors
open HcOs.Disk (maxLba)

/-! ## Blocks and their bits -/

/-- The part of a mounted partition that directories rely on. -/
structure Geometry (part : Mounted) : Prop where
  entrySize : part.sb.dirEntrySize = 24
  /-- The block bitmap is whole sectors and lies before the data. -/
  whole : part.blockBitmap.btmpBytesLen % 512 = 0
  before : part.sb.blockBitmapLba + part.blockBitmap.btmpBytesLen / 512 ≤ part.sb.dataStartLba
  onDisk : part.sb.dataStartLba ≤ maxLba
  nonempty : 1 ≤ part.blockBitmap.btmpBytesLen
  small : part.blockBitmap.btmpBytesLen ≤ 512 * 40

/-- The block is in the data area and its bit is set. -/
structure Marked (part : Mounted) (p : ℕ) : Prop where
  lo : part.sb.dataStartLba ≤ p
  hi : p < part.sb.dataStartLba + 8 * part.blockBitmap.btmpBytesLen
  bit : bitmapScanTest part.blockBitmap (p - part.sb.dataStartLba) = true

variable {part : Mounted} {bit p : ℕ}

theorem Geometry.mark (h : Geometry part) : Geometry (part.mark bit) :=
  ⟨h.entrySize, h.whole, h.before, h.onDisk, h.nonempty, h.small⟩

theorem Marked.mark (h : Marked part p) : Marked (part.mark bit) p := by
  refine ⟨h.lo, h.hi, ?_⟩
  show bitmapScanTest (bitmapSet part.blockBitmap bit true) (p - part.sb.dataStartLba) = true
  rw [bitmapScanTest_set, h.bit, ite_self]

theorem Marked.of_mark (hbit : bit < 8 * part.blockBitmap.btmpBytesLen) :
    Marked (part.mark bit) (part.sb.dataStartLba + bit) := by
  refine ⟨Nat.le_add_right _ _, Nat.add_lt_add_left hbit _, ?_⟩
  show bitmapScanTest (bitmapSet part.blockBitmap bit true)
    (part.sb.dataStartLba + bit - part.sb.dataStartLba) = true
  rw [bitmapScanTest_set, Nat.add_sub_cancel_left, if_pos rfl]

theorem Marked.ne (h : Marked part p) (hclear : bitmapScanTest part.blockBitmap bit = false) :
    part.sb.dataStartLba + bit ≠ p := by
  rintro rfl
  have hset := h.bit
  rw [Nat.add_sub_cancel_left, hclear] at hset
  cases hset

/-- A block that a call hands out, as a number of a sector. -/
theorem Geometry.lba_eq (h : Geometry part) (hbit : bit < 8 * part.blockBitmap.btmpBytesLen) :
    (part.sb.dataStartLba + bit) % 2 ^ 32 = part.sb.dataStartLba + bit := by
  have hon := h.onDisk
  have hsmall := h.small
  unfold maxLba at hon
  exact Nat.mod_eq_of_lt (by omega)

/-! ## Directories -/

/-- The pointers of a directory are `ptrs`, and its entries `es`. -/
structure Layout (d : Dir) (ptrs : List ℕ) (es : List DirEntry) : Prop where
  stored : Stored d.disk ptrs es
  last : 21 * (ptrs.length - 1) < es.length
  few : ptrs.length ≤ 13
  direct : ∀ k, k < 12 → d.inode.iSectors k = ptrs.getD k 0
  nodup : ptrs.Nodup
  marked : ∀ p ∈ ptrs, p = d.part.sb.dataStartLba ∨ Marked d.part p
  noTable : ptrs.length ≤ 12 → d.inode.iSectors 12 = 0
  table : 12 < ptrs.length → d.inode.iSectors 12 ≠ 0 ∧ d.inode.iSectors 12 ≤ maxLba ∧
    d.inode.iSectors 12 ∉ ptrs ∧ ∀ k, k < 128 →
      d.disk.getWord (d.inode.iSectors 12 * 512 + 4 * k) = ptrs.getD (12 + k) 0

variable {d : Dir} {ptrs : List ℕ} {es : List DirEntry} {e : DirEntry} {n : ℕ}

theorem directBlocks_word (inode : Inode) {k : ℕ} (hk : k < 140) :
    (directBlocks inode).getWord (4 * k) = if k < 12 then inode.iSectors k else 0 := by
  unfold directBlocks
  split
  · next h =>
    have hget := Bytes.getWord_putWords zeros 0 ((List.range 12).map inode.iSectors) k
      (by rw [List.length_map, List.length_range]; exact h)
    rw [Nat.zero_add] at hget
    rw [hget, List.getD_eq_getElem _ _ (by rw [List.length_map, List.length_range]; exact h),
      List.getElem_map, List.getElem_range]
    exact Nat.mod_eq_of_lt (inode.iSectors_lt k)
  · next h =>
    have hzero : Bytes.getWord zeros (4 * k) = 0 := rfl
    rw [← hzero]
    refine Bytes.getWord_congr fun i hi => Bytes.putWords_of_not_mem _ (Or.inr ?_)
    rw [List.length_map, List.length_range]
    omega

/-- The first `n` entries stay and `e` follows them. -/
theorem slotBytes_take_append (hn : n ≤ es.length) (j : ℕ) :
    slotBytes (es.take n ++ [e]) j =
      if j < n then slotBytes es j else if j = n then e.bytes else zeros := by
  have hlen : (es.take n).length = n := by rw [List.length_take]; omega
  split
  · next hlt =>
    unfold slotBytes
    rw [List.getElem?_append_left (by omega), List.getElem?_take_of_lt hlt]
  · split
    · next heq =>
      subst heq
      refine slotBytes_some ?_
      rw [List.getElem?_append_right (by omega), hlen, Nat.sub_self]
      rfl
    · next hlt hne =>
      refine slotBytes_none (List.getElem?_eq_none_iff.mpr ?_)
      rw [List.length_append, hlen, List.length_singleton]
      omega

/-- A block of entries that stay. -/
theorem Holds.keep {m m' : Bytes} {a j : ℕ} (h : Holds m a es j)
    (hsame : ∀ i, i < 504 → m' (a + i) = m (a + i)) (hj : j + 21 ≤ n) (hn : n ≤ es.length) :
    Holds m' a (es.take n ++ [e]) j := by
  intro i hi
  rw [hsame i hi, h i hi, slotBytes_take_append hn, if_pos (by omega)]

/-- A block with a free slot, after the entry has been written into it. -/
theorem Holds.put {m : Bytes} {a j : ℕ} (h : Holds m a es j) (hlo : j ≤ es.length)
    (hhi : es.length < j + 21) :
    Holds (m.copy (a + (es.length - j) * dirEntrySize) e.bytes 0 24) a (es.take es.length ++ [e]) j := by
  intro i hi
  unfold dirEntrySize
  rw [slotBytes_take_append (Nat.le_refl _)]
  by_cases hslot : i / 24 = es.length - j
  · rw [Bytes.copy_of_mem (by omega) (by omega), if_neg (by omega), if_pos (by omega),
      show 0 + (a + i - (a + (es.length - j) * 24)) = i % 24 by omega]
  · rw [Bytes.copy_of_not_mem (by omega), h i hi]
    split
    · rfl
    · rw [if_neg (by omega)]
      rw [slotBytes_none (List.getElem?_eq_none_iff.mpr (by omega))]

/-- A new block with the entry alone. -/
theorem Holds.fresh {buf disk : Bytes} {a : ℕ} (hn : n ≤ es.length) :
    Holds (disk.copy a ((buf.fill 0 0#8 512).copy 0 e.bytes 0 24) 0 512) a (es.take n ++ [e]) n := by
  intro i hi
  rw [Bytes.copy_of_mem (by omega) (by omega), slotBytes_take_append hn, if_neg (by omega),
    Nat.add_sub_cancel_left, Nat.zero_add]
  by_cases hfirst : i < 24
  · rw [Bytes.copy_of_mem (Nat.zero_le i) (by omega), if_pos (by omega), Nat.zero_add, Nat.sub_zero,
      Nat.mod_eq_of_lt hfirst]
  · rw [Bytes.copy_of_not_mem (by omega), Bytes.fill_of_mem (Nat.zero_le i) (by omega),
      if_neg (by omega)]
    rfl

/-! ## The loops -/

/-- The type of a slot as `sync_dir_entry` reads it. -/
theorem Holds.free_iff {m : Bytes} {a j q : ℕ} (h : Holds m a es j)
    (hknown : ∀ x ∈ es, x.fType ≠ 0#8) (hq : q < 21) :
    m.getWord (a + q * dirEntrySize + 20) = FileType.unknown.toNat ↔ es.length ≤ j + q := by
  rw [h.word hq (by omega)]
  by_cases hlt : j + q < es.length
  · obtain ⟨x, hx⟩ : ∃ x, es[j + q]? = some x := ⟨_, List.getElem?_eq_getElem hlt⟩
    have hne : x.fType.toNat ≠ 0 := by
      intro h0
      exact hknown x (List.mem_of_getElem? hx) (BitVec.eq_of_toNat_eq h0)
    rw [slotBytes_some hx, DirEntry.bytes_fType]
    exact ⟨fun h0 => absurd h0 hne, fun hle => by omega⟩
  · rw [slotBytes_none (List.getElem?_eq_none_iff.mpr (by omega))]
    exact ⟨fun _ => by omega, fun _ => rfl⟩

theorem findFree_none {buf : Bytes} (left idx : ℕ)
    (h : ∀ q, idx ≤ q → q < idx + left →
      buf.getWord (q * dirEntrySize + 20) ≠ FileType.unknown.toNat) :
    findFree buf left idx = none := by
  induction left generalizing idx with
  | zero => rfl
  | succ left ih =>
    unfold findFree
    rw [if_neg (h idx (Nat.le_refl _) (by omega))]
    exact ih (idx + 1) fun q hq hq' => h q (by omega) (by omega)

theorem findFree_some {buf : Bytes} {q : ℕ} (left idx : ℕ) (hlo : idx ≤ q) (hhi : q < idx + left)
    (hfree : buf.getWord (q * dirEntrySize + 20) = FileType.unknown.toNat)
    (h : ∀ q', idx ≤ q' → q' < q →
      buf.getWord (q' * dirEntrySize + 20) ≠ FileType.unknown.toNat) :
    findFree buf left idx = some q := by
  induction left generalizing idx with
  | zero => omega
  | succ left ih =>
    unfold findFree
    by_cases hq : idx = q
    · rw [hq, if_pos hfree]
    · rw [if_neg (h idx (Nat.le_refl _) (by omega))]
      exact ih (idx + 1) (by omega) (by omega) fun q' hq' hq'' => h q' (by omega) hq''

/-- The loop passes over the full blocks; only `io_buf` changes. -/
theorem syncLoop_skip (hgeo : Geometry d.part) (hl : Layout d ptrs es)
    (hknown : ∀ x ∈ es, x.fType ≠ 0#8) (pDe : Bytes) (k : ℕ) (hk : k ≤ 12) (hfull : 21 * k ≤ es.length) :
    ∃ ioBuf, syncLoop pDe (directBlocks d.inode) 140 0 d =
      syncLoop pDe (directBlocks d.inode) (140 - k) k { d with ioBuf } := by
  induction k with
  | zero => exact ⟨d.ioBuf, rfl⟩
  | succ k ih =>
    obtain ⟨ioBuf, hloop⟩ := ih (by omega) (by omega)
    have hlen : k < ptrs.length := by
      have := hl.stored.room
      omega
    obtain ⟨h0, hmax, hholds⟩ := hl.stored.blocks k ptrs[k] (List.getElem?_eq_getElem hlen)
    have hlba : (directBlocks d.inode).getWord (4 * k) = ptrs[k] := by
      rw [directBlocks_word _ (by omega), if_pos (by omega), hl.direct k (by omega),
        List.getD_eq_getElem _ _ hlen]
    have hnone : findFree (ioBuf.copy 0 d.disk (ptrs[k] * 512) 512) (512 / d.part.sb.dirEntrySize) 0 =
        none := by
      rw [hgeo.entrySize]
      refine findFree_none _ _ fun q _ hq => ?_
      rw [← Nat.zero_add (q * dirEntrySize), Ne, (hholds.read ioBuf).free_iff hknown (by omega)]
      omega
    refine ⟨ioBuf.copy 0 d.disk (ptrs[k] * 512) 512, ?_⟩
    rw [hloop, show 140 - k = 140 - (k + 1) + 1 by omega]
    conv_lhs => unfold syncLoop
    dsimp only
    rw [hlba, if_neg h0, ideRead_sector hmax, ok_bind, hnone]

/-! ## The three cases -/

theorem Stored.append_names (hs : ∀ x ∈ es, NameOk x.name) (he : NameOk e.name) :
    ∀ x ∈ es.take n ++ [e], NameOk x.name := by
  intro x hx
  rcases List.mem_append.mp hx with hx | hx
  · exact hs x (List.mem_of_mem_take hx)
  · rw [List.mem_singleton.mp hx]
    exact he

theorem length_take_append (hn : n ≤ es.length) : (es.take n ++ [e]).length = n + 1 := by
  rw [List.length_append, List.length_take, List.length_singleton]
  omega

/-- The bytes of two different sectors are apart. -/
theorem sector_apart {p p' : ℕ} (hne : p ≠ p') {i : ℕ} (hi : i < 512) :
    p' * 512 + i < p * 512 ∨ p * 512 + 512 ≤ p' * 512 + i := by
  omega

theorem ptrs_ne {k k' p p' : ℕ} (hnodup : ptrs.Nodup) (hk : ptrs[k]? = some p)
    (hk' : ptrs[k']? = some p') (hne : k ≠ k') : p ≠ p' := by
  rintro rfl
  obtain ⟨hlt, -⟩ := List.getElem?_eq_some_iff.mp hk
  exact hne ((List.getElem?_inj hlt hnodup).mp (hk.trans hk'.symm))

/-- A block whose bit is clear is not one of the directory. -/
theorem Layout.fresh (hl : Layout d ptrs es) (hroot : Marked d.part d.part.sb.dataStartLba)
    (hclear : bitmapScanTest d.part.blockBitmap bit = false) :
    d.part.sb.dataStartLba + bit ∉ ptrs ∧ d.part.sb.dataStartLba + bit ≠ 0 := by
  have hne := hroot.ne hclear
  refine ⟨fun hmem => ?_, by omega⟩
  rcases hl.marked _ hmem with heq | hmark
  · exact hne heq
  · exact hmark.ne hclear rfl

theorem nodup_take_ptrs {q lba : ℕ} (hnodup : ptrs.Nodup) (hfresh : lba ∉ ptrs) :
    (ptrs.take q ++ [lba]).Nodup := by
  have htake : (ptrs.take q).Nodup := hnodup.sublist (List.take_sublist q ptrs)
  refine List.nodup_append.mpr ⟨htake, List.nodup_singleton lba, fun x hx y hy hxy => ?_⟩
  rw [List.mem_singleton] at hy
  subst hy
  subst hxy
  exact hfresh (List.mem_of_mem_take hx)

/-! A new block comes after the first `q` ones, which are full. -/

section Extend

variable {q lba : ℕ} (hq : q ≤ ptrs.length)
include hq

theorem length_take_ptrs : (ptrs.take q ++ [lba]).length = q + 1 := by
  rw [List.length_append, List.length_take, List.length_singleton]
  omega

theorem getD_take_ptrs (k : ℕ) :
    (ptrs.take q ++ [lba]).getD k 0 = if k < q then ptrs.getD k 0 else if k = q then lba else 0 := by
  have hlen : (ptrs.take q).length = q := by rw [List.length_take]; omega
  rw [List.getD_eq_getElem?_getD, List.getD_eq_getElem?_getD]
  split
  · next hlt => rw [List.getElem?_append_left (by omega), List.getElem?_take_of_lt hlt]
  · split
    · next heq =>
      subst heq
      rw [List.getElem?_append_right (by omega), hlen, Nat.sub_self]
      rfl
    · next hlt hne =>
      rw [List.getElem?_eq_none_iff.mpr (by rw [List.length_append, hlen, List.length_singleton]; omega)]
      rfl

theorem Stored.extend {disk disk' : Bytes} (hs : Stored disk ptrs es) (hn : 21 * q ≤ es.length)
    (hname : NameOk e.name) (h0 : lba ≠ 0) (hmax : lba ≤ maxLba)
    (hkeep : ∀ p ∈ ptrs, ∀ i, i < 504 → disk' (p * 512 + i) = disk (p * 512 + i))
    (hnew : Holds disk' (lba * 512) (es.take (21 * q) ++ [e]) (21 * q)) :
    Stored disk' (ptrs.take q ++ [lba]) (es.take (21 * q) ++ [e]) := by
  refine ⟨Stored.append_names hs.names hname, ?_, fun k p hk => ?_⟩
  · rw [length_take_append hn, length_take_ptrs hq]
    omega
  · obtain ⟨hlt, -⟩ := List.getElem?_eq_some_iff.mp hk
    rw [length_take_ptrs hq] at hlt
    have hget : (ptrs.take q ++ [lba]).getD k 0 = _ := getD_take_ptrs hq k
    rw [List.getD_eq_getElem?_getD, hk, Option.getD_some] at hget
    by_cases hkq : k < q
    · have hk' : ptrs[k]? = some p := by
        rw [hget, if_pos hkq, List.getElem?_eq_getElem (by omega), List.getD_eq_getElem _ _ (by omega)]
      obtain ⟨h0', hmax', hholds⟩ := hs.blocks k p hk'
      exact ⟨h0', hmax', hholds.keep (hkeep p (List.mem_of_getElem? hk')) (by omega) hn⟩
    · obtain rfl : k = q := by omega
      rw [if_neg hkq, if_pos rfl] at hget
      subst hget
      exact ⟨h0, hmax, hnew⟩

end Extend

theorem newBlock_full {pDe allBlocks : Bytes} {q : ℕ} {x : Halt}
    (h : blockBitmapAlloc d.part = .error x) : newBlock d pDe allBlocks q = .error x := by
  unfold newBlock
  rw [h, error_bind]

/-- The branch `block_idx < 12`, once a block is granted. -/
theorem newBlock_direct_eq (hgeo : Geometry d.part) (halloc : blockBitmapAlloc d.part =
      .ok (some ((d.part.sb.dataStartLba + bit) % 2 ^ 32), d.part.mark bit))
    (hbit : bit < 8 * d.part.blockBitmap.btmpBytesLen) {q : ℕ} (hq : q < 12)
    (pDe allBlocks : Bytes) :
    newBlock d pDe allBlocks q = firstEntry { d with
      part := d.part.mark bit
      inode := d.inode.setSectors q (d.part.sb.dataStartLba + bit) }
      pDe (d.part.sb.dataStartLba + bit) := by
  unfold newBlock
  rw [halloc, ok_bind, hgeo.lba_eq hbit]
  dsimp only
  rw [if_pos hq]

/-- The branch `block_idx == 12`, once a block is granted. -/
theorem newBlock_indirect_eq (hgeo : Geometry d.part) (halloc : blockBitmapAlloc d.part =
      .ok (some ((d.part.sb.dataStartLba + bit) % 2 ^ 32), d.part.mark bit))
    (hbit : bit < 8 * d.part.blockBitmap.btmpBytesLen) (pDe allBlocks : Bytes) :
    newBlock d pDe allBlocks 12 = firstIndirect { d with part := d.part.mark bit } pDe allBlocks
      (d.part.sb.dataStartLba + bit) := by
  unfold newBlock
  rw [halloc, ok_bind, hgeo.lba_eq hbit]
  dsimp only
  rw [if_neg (by omega), if_pos rfl]

theorem firstIndirect_full {pDe allBlocks : Bytes} {table : ℕ} {x : Halt}
    (h : blockBitmapAlloc d.part = .error x) : firstIndirect d pDe allBlocks table = .error x := by
  unfold firstIndirect
  dsimp only
  rw [h, error_bind]

/-- The branch `block_idx == 12` up to its two writes of data. -/
theorem firstIndirect_eq (hgeo : Geometry d.part) (table : ℕ) (htable : table < 2 ^ 32)
    (halloc : blockBitmapAlloc d.part =
      .ok (some ((d.part.sb.dataStartLba + bit) % 2 ^ 32), d.part.mark bit))
    (hbit : bit < 8 * d.part.blockBitmap.btmpBytesLen) (pDe allBlocks : Bytes) :
    firstIndirect d pDe allBlocks table =
      (ideWrite (d.disk.copy ((d.part.sb.blockBitmapLba + bit / 4096) * 512)
        (d.part.mark bit).blockBitmap.bits (bit / 4096 * 512) 512) d.part.devNo table
        (allBlocks.putWord 48 (d.part.sb.dataStartLba + bit)) 48 1 >>= fun disk =>
          firstEntry { d with
            part := d.part.mark bit
            inode := d.inode.setSectors 12 table
            disk } pDe (d.part.sb.dataStartLba + bit)) := by
  have hbefore := hgeo.before
  have hwhole := hgeo.whole
  have hon := hgeo.onDisk
  have hsmall := hgeo.small
  have hmaxv : maxLba = 163839 := rfl
  have hidx : (d.part.sb.dataStartLba + bit + 2 ^ 32 - (d.part.mark bit).sb.dataStartLba) % 2 ^ 32 =
      bit := by
    show (d.part.sb.dataStartLba + bit + 2 ^ 32 - d.part.sb.dataStartLba) % 2 ^ 32 = bit
    omega
  have hsector : ((d.part.mark bit).sb.blockBitmapLba + bit / 4096) % 2 ^ 32 =
      d.part.sb.blockBitmapLba + bit / 4096 := by
    show (d.part.sb.blockBitmapLba + bit / 4096) % 2 ^ 32 = _
    exact Nat.mod_eq_of_lt (by omega)
  have hinode : (d.inode.setSectors 12 table).iSectors 12 = table := by
    rw [Inode.iSectors_setSectors, if_pos rfl]
    exact Nat.mod_eq_of_lt htable
  have hbitmap : d.part.sb.blockBitmapLba + bit / 4096 ≤ maxLba := by omega
  unfold firstIndirect
  dsimp only
  rw [halloc, ok_bind, hgeo.lba_eq hbit]
  dsimp only
  rw [hidx, hinode]
  unfold bitmapSync
  dsimp only
  rw [hsector, ideWrite_sector hbitmap, ok_bind]
  rfl

section Cases

variable (hgeo : Geometry d.part) (hl : Layout d ptrs es) (hknown : ∀ x ∈ es, x.fType ≠ 0#8)
  (hname : NameOk e.name) (hsize : d.inode.iSize % 24 = 0)
include hgeo hl hknown hname hsize

/-- A direct block has a free slot. -/
theorem sync_slot (hmod : es.length % 21 ≠ 0) (hlt : es.length < 252) :
    ∃ d', syncDirEntry d e.bytes = .ok (true, d') ∧ d'.part = d.part ∧ d'.inode = d.grow ∧
      Layout d' ptrs (es.take es.length ++ [e]) := by
  have hroom := hl.stored.room
  have hlast := hl.last
  obtain ⟨ioBuf, hloop⟩ := syncLoop_skip hgeo hl hknown e.bytes (es.length / 21) (by omega) (by omega)
  have hlen : es.length / 21 < ptrs.length := by omega
  obtain ⟨h0, hmax, hholds⟩ := hl.stored.blocks _ _ (List.getElem?_eq_getElem hlen)
  have hlba : (directBlocks d.inode).getWord (4 * (es.length / 21)) = ptrs[es.length / 21] := by
    rw [directBlocks_word _ (by omega), if_pos (by omega), hl.direct _ (by omega),
      List.getD_eq_getElem _ _ hlen]
  have hnodup := hl.nodup
  set p := ptrs[es.length / 21] with hp
  have hfind : findFree (ioBuf.copy 0 d.disk (p * 512) 512) (512 / d.part.sb.dirEntrySize) 0 =
      some (es.length % 21) := by
    have hread := hholds.read ioBuf
    rw [hgeo.entrySize]
    refine findFree_some _ _ (Nat.zero_le _) (by omega) ?_ fun q _ hq => ?_
    · rw [← Nat.zero_add (_ * dirEntrySize), hread.free_iff hknown (by omega)]
      omega
    · rw [← Nat.zero_add (_ * dirEntrySize), Ne, hread.free_iff hknown (by omega)]
      omega
  have hsync : syncDirEntry d e.bytes = .ok (true, { d with
      inode := d.grow
      disk := d.disk.copy (p * 512 + es.length % 21 * dirEntrySize) e.bytes 0 24
      ioBuf :=
        (ioBuf.copy 0 d.disk (p * 512) 512).copy (es.length % 21 * dirEntrySize) e.bytes 0 24 }) := by
    unfold syncDirEntry
    rw [hgeo.entrySize, assert_bind_of hsize, hloop,
      show 140 - es.length / 21 = 139 - es.length / 21 + 1 by omega]
    unfold syncLoop
    dsimp only
    rw [hlba, if_neg h0, ideRead_sector hmax, ok_bind, hfind]
    dsimp only
    rw [ideWrite_sector hmax, ok_bind, hgeo.entrySize,
      Bytes.copy_modify (by unfold dirEntrySize; omega)]
    rfl
  refine ⟨_, hsync, rfl, rfl, ?_⟩
  refine ⟨⟨Stored.append_names hl.stored.names hname, ?_, fun k p' hk => ?_⟩, ?_, hl.few,
    fun k hk => ?_, hl.nodup, hl.marked, fun hle => ?_, fun hgt => by omega⟩
  · rw [length_take_append (Nat.le_refl _)]
    omega
  · obtain ⟨h0', hmax', hholds'⟩ := hl.stored.blocks k p' hk
    refine ⟨h0', hmax', ?_⟩
    by_cases hkk : k = es.length / 21
    · obtain rfl : p' = p := by
        rw [hkk, List.getElem?_eq_getElem hlen] at hk
        exact (Option.some.inj hk).symm
      have hput := hholds.put (e := e) (by omega) (by omega)
      rw [show es.length - 21 * (es.length / 21) = es.length % 21 by omega, ← hkk] at hput
      exact hput
    · obtain ⟨hklen, -⟩ := List.getElem?_eq_some_iff.mp hk
      have hne := ptrs_ne hl.nodup (List.getElem?_eq_getElem hlen) hk (Ne.symm hkk)
      refine hholds'.keep (fun i hi => Bytes.copy_of_not_mem ?_) (by omega) (Nat.le_refl _)
      unfold dirEntrySize
      omega
  · rw [length_take_append (Nat.le_refl _)]
    omega
  · exact (Inode.iSectors_setSize _ _ _).trans (hl.direct k hk)
  · exact (Inode.iSectors_setSize _ _ _).trans (hl.noTable hle)

omit hname in
/-- The first `q` blocks are full, and there is no pointer to another one. -/
theorem sync_eq_newBlock {q : ℕ} (hq : q ≤ 12) (hfull : 21 * q ≤ es.length)
    (hnone : q = 12 ∨ ptrs.length = q) :
    ∃ ioBuf, syncDirEntry d e.bytes = newBlock { d with ioBuf } e.bytes (directBlocks d.inode) q := by
  obtain ⟨ioBuf, hloop⟩ := syncLoop_skip hgeo hl hknown e.bytes q hq hfull
  have hzero : (directBlocks d.inode).getWord (4 * q) = 0 := by
    rw [directBlocks_word _ (by omega)]
    split
    · rw [hl.direct q (by omega), List.getD_eq_default _ _ (by omega)]
    · rfl
  refine ⟨ioBuf, ?_⟩
  unfold syncDirEntry
  rw [hgeo.entrySize, assert_bind_of hsize, hloop, show 140 - q = 139 - q + 1 by omega]
  unfold syncLoop
  dsimp only
  rw [hzero, if_pos rfl]

/-- The direct blocks are full, and there is room for a pointer to another one. -/
theorem sync_direct (hmod : es.length % 21 = 0) (hlt : es.length < 252)
    (hroot : Marked d.part d.part.sb.dataStartLba)
    (halloc : blockBitmapAlloc d.part =
      .ok (some ((d.part.sb.dataStartLba + bit) % 2 ^ 32), d.part.mark bit))
    (hbit : bit < 8 * d.part.blockBitmap.btmpBytesLen)
    (hclear : bitmapScanTest d.part.blockBitmap bit = false)
    (hmax : d.part.sb.dataStartLba + bit ≤ maxLba) :
    ∃ d', syncDirEntry d e.bytes = .ok (true, d') ∧ d'.part = d.part.mark bit ∧
      d'.inode.iSize = d.grow.iSize ∧
      Layout d' (ptrs.take (es.length / 21) ++ [d.part.sb.dataStartLba + bit])
        (es.take (21 * (es.length / 21)) ++ [e]) := by
  have hroom := hl.stored.room
  have hlast := hl.last
  obtain ⟨hfresh, h0⟩ := hl.fresh hroot hclear
  obtain ⟨ioBuf, hnew⟩ := sync_eq_newBlock (e := e) hgeo hl hknown hsize (q := es.length / 21)
    (by omega) (by omega) (by omega)
  set lba := d.part.sb.dataStartLba + bit with hlba
  have hsync : syncDirEntry d e.bytes = .ok (true, {
      part := d.part.mark bit
      inode := (d.inode.setSectors (es.length / 21) lba).setSize
        (((d.inode.setSectors (es.length / 21) lba).iSize + 24) % 2 ^ 32)
      disk := d.disk.copy (lba * 512) ((ioBuf.fill 0 0#8 512).copy 0 e.bytes 0 24) 0 512
      ioBuf := (ioBuf.fill 0 0#8 512).copy 0 e.bytes 0 24 }) := by
    have hdirect := newBlock_direct_eq (d := { d with ioBuf }) hgeo halloc hbit
      (show es.length / 21 < 12 by omega) e.bytes (directBlocks d.inode)
    rw [hnew, hdirect]
    unfold firstEntry Dir.grow
    dsimp only
    rw [ideWrite_sector hmax, ok_bind, hgeo.mark.entrySize]
  have hqlen : es.length / 21 ≤ ptrs.length := by omega
  have hn : 21 * (es.length / 21) = es.length := by omega
  refine ⟨_, hsync, rfl, ?_, ?_⟩
  · unfold Dir.grow
    rw [Inode.iSize_setSize, Inode.iSize_setSize, Inode.iSize_setSectors, hgeo.entrySize]
  refine ⟨hl.stored.extend hqlen (by omega) hname h0 hmax (fun p hp i hi => ?_) ?_, ?_, ?_,
    fun k hk => ?_, nodup_take_ptrs hl.nodup hfresh, fun p hp => ?_, fun hle => ?_, fun hgt => ?_⟩
  · refine Bytes.copy_of_not_mem (sector_apart ?_ (by omega))
    rintro rfl
    exact hfresh hp
  · exact Holds.fresh (by omega)
  · rw [length_take_append (by omega), length_take_ptrs hqlen]
    omega
  · rw [length_take_ptrs hqlen]
    omega
  · rw [Inode.iSectors_setSize, Inode.iSectors_setSectors, getD_take_ptrs hqlen,
      Nat.mod_eq_of_lt (by unfold maxLba at hmax; omega)]
    by_cases hkq : k < es.length / 21
    · rw [if_neg (by omega), if_pos hkq]
      exact hl.direct k hk
    · rw [if_neg hkq]
      split
      · rfl
      · rw [hl.direct k hk, List.getD_eq_default _ _ (by omega)]
  · rcases List.mem_append.mp hp with hp | hp
    · exact (hl.marked p (List.mem_of_mem_take hp)).imp id Marked.mark
    · rw [List.mem_singleton.mp hp]
      exact Or.inr (Marked.of_mark hbit)
  · rw [Inode.iSectors_setSize, Inode.iSectors_setSectors, if_neg (by omega)]
    exact hl.noTable (by omega)
  · rw [length_take_ptrs hqlen] at hgt
    omega

/-- The direct blocks are full for good: a new table with a pointer to a new block. -/
theorem sync_indirect {bit' : ℕ} (hge : 252 ≤ es.length)
    (hroot : Marked d.part d.part.sb.dataStartLba)
    (halloc : blockBitmapAlloc d.part =
      .ok (some ((d.part.sb.dataStartLba + bit) % 2 ^ 32), d.part.mark bit))
    (hbit : bit < 8 * d.part.blockBitmap.btmpBytesLen)
    (hclear : bitmapScanTest d.part.blockBitmap bit = false)
    (hmax : d.part.sb.dataStartLba + bit ≤ maxLba)
    (halloc' : blockBitmapAlloc (d.part.mark bit) =
      .ok (some ((d.part.sb.dataStartLba + bit') % 2 ^ 32), (d.part.mark bit).mark bit'))
    (hbit' : bit' < 8 * d.part.blockBitmap.btmpBytesLen)
    (hclear' : bitmapScanTest (d.part.mark bit).blockBitmap bit' = false)
    (hmax' : d.part.sb.dataStartLba + bit' ≤ maxLba) :
    ∃ d', syncDirEntry d e.bytes = .ok (true, d') ∧ d'.part = (d.part.mark bit).mark bit' ∧
      d'.inode.iSize = d.grow.iSize ∧
      Layout d' (ptrs.take 12 ++ [d.part.sb.dataStartLba + bit']) (es.take (21 * 12) ++ [e]) := by
  have hroom := hl.stored.room
  have hqlen : 12 ≤ ptrs.length := by omega
  have hbefore := hgeo.before
  have hwhole := hgeo.whole
  have hon := hgeo.onDisk
  have hmaxv : maxLba = 163839 := rfl
  -- neither of the two blocks is one of the directory, and they differ
  obtain ⟨hfresh, h0⟩ := hl.fresh hroot hclear
  have hne : d.part.sb.dataStartLba + bit' ≠ d.part.sb.dataStartLba + bit :=
    (Marked.of_mark hbit).ne hclear'
  have hclearOld : bitmapScanTest d.part.blockBitmap bit' = false := by
    have hset : bitmapScanTest (bitmapSet d.part.blockBitmap bit true) bit' = false := hclear'
    rw [bitmapScanTest_set, if_neg (by omega)] at hset
    exact hset
  obtain ⟨hfresh', h0'⟩ := hl.fresh hroot hclearOld
  obtain ⟨ioBuf, hnew⟩ := sync_eq_newBlock (e := e) hgeo hl hknown hsize (Nat.le_refl 12) (by omega)
    (Or.inl rfl)
  have hlo : ∀ p ∈ ptrs, d.part.sb.dataStartLba ≤ p := by
    intro p hp
    rcases hl.marked p hp with rfl | hmark
    · exact Nat.le_refl _
    · exact hmark.lo
  set table := d.part.sb.dataStartLba + bit with htable
  set lba := d.part.sb.dataStartLba + bit' with hlba
  have hbits : bit' / 4096 < d.part.blockBitmap.btmpBytesLen / 512 := by omega
  have hinode : (d.inode.setSectors 12 table).iSectors 12 = table := by
    rw [Inode.iSectors_setSectors, if_pos rfl]
    exact Nat.mod_eq_of_lt (by omega)
  have hsync : syncDirEntry d e.bytes = .ok (true, {
      part := (d.part.mark bit).mark bit'
      inode := (d.inode.setSectors 12 table).setSize
        (((d.inode.setSectors 12 table).iSize + 24) % 2 ^ 32)
      disk := ((d.disk.copy ((d.part.sb.blockBitmapLba + bit' / 4096) * 512)
          ((d.part.mark bit).mark bit').blockBitmap.bits (bit' / 4096 * 512) 512).copy (table * 512)
          ((directBlocks d.inode).putWord 48 lba) 48 512).copy (lba * 512)
          ((ioBuf.fill 0 0#8 512).copy 0 e.bytes 0 24) 0 512
      ioBuf := (ioBuf.fill 0 0#8 512).copy 0 e.bytes 0 24 }) := by
    have hblock := newBlock_indirect_eq (d := { d with ioBuf }) hgeo halloc hbit e.bytes
      (directBlocks d.inode)
    rw [hnew, hblock]
    have hindirect := firstIndirect_eq (d := { d with part := d.part.mark bit, ioBuf }) hgeo.mark
      table (by omega) halloc' hbit' e.bytes (directBlocks d.inode)
    rw [hindirect]
    dsimp only [Mounted.mark_sb]
    rw [← hlba, ideWrite_sector hmax, ok_bind]
    unfold firstEntry Dir.grow
    dsimp only
    rw [ideWrite_sector hmax', ok_bind, hgeo.mark.mark.entrySize]
  refine ⟨_, hsync, rfl, ?_, ?_⟩
  · unfold Dir.grow
    rw [Inode.iSize_setSize, Inode.iSize_setSize, Inode.iSize_setSectors, hgeo.entrySize]
  refine ⟨hl.stored.extend hqlen (by omega) hname h0' hmax' (fun p hp i hi => ?_) ?_, ?_, ?_,
    fun k hk => ?_, nodup_take_ptrs hl.nodup hfresh', fun p hp => ?_, fun hle => ?_, fun hgt => ?_⟩
  · have hpl := hlo p hp
    have hpt : table ≠ p := fun h => hfresh (h ▸ hp)
    have hpb : lba ≠ p := fun h => hfresh' (h ▸ hp)
    dsimp only
    rw [Bytes.copy_of_not_mem (sector_apart hpb (by omega)),
      Bytes.copy_of_not_mem (sector_apart hpt (by omega)), Bytes.copy_of_not_mem (by omega)]
  · exact Holds.fresh (by omega)
  · rw [length_take_append (by omega), length_take_ptrs hqlen]
    omega
  · rw [length_take_ptrs hqlen]
  · rw [Inode.iSectors_setSize, Inode.iSectors_setSectors, if_neg (by omega), getD_take_ptrs hqlen,
      if_pos hk]
    exact hl.direct k hk
  · rcases List.mem_append.mp hp with hp | hp
    · exact (hl.marked p (List.mem_of_mem_take hp)).imp id fun h => h.mark.mark
    · rw [List.mem_singleton.mp hp]
      exact Or.inr (Marked.of_mark hbit')
  · rw [length_take_ptrs hqlen] at hle
    omega
  · rw [Inode.iSectors_setSize, hinode]
    refine ⟨h0, hmax, fun hmem => ?_, fun k hk => ?_⟩
    · rcases List.mem_append.mp hmem with hmem | hmem
      · exact hfresh (List.mem_of_mem_take hmem)
      · exact hne (List.mem_singleton.mp hmem).symm
    · rw [getD_take_ptrs hqlen, if_neg (by omega), Bytes.getWord_copy_of_apart (by omega),
        Bytes.getWord_copy_of_mem (by omega) (by omega), Nat.add_sub_cancel_left]
      by_cases hk0 : k = 0
      · rw [hk0, if_pos rfl, Nat.mul_zero, Nat.add_zero, Bytes.getWord_putWord]
        exact Nat.mod_eq_of_lt (by omega)
      · rw [if_neg (by omega), Bytes.getWord_putWord_of_apart (by omega),
          show 48 + 4 * k = 4 * (12 + k) by omega, directBlocks_word _ (by omega), if_neg (by omega)]

end Cases

/-! ## All cases -/

/-- `n` blocks are free, and all of them on the disk. -/
def RoomFor (n : ℕ) (part : Mounted) : Prop :=
  ∃ k top, FreeBits part.blockBitmap k top ∧ k + n ≤ top ∧
    top ≤ 8 * part.blockBitmap.btmpBytesLen ∧ part.sb.dataStartLba + top ≤ maxLba + 1

theorem RoomFor.not_full (h : RoomFor (n + 1) part)
    (hfull : ∀ i, i < 8 * part.blockBitmap.btmpBytesLen → bitmapScanTest part.blockBitmap i = true) :
    False := by
  obtain ⟨k, top, hfree, hk, htop, -⟩ := h
  have hset := hfull k (by omega)
  rw [(hfree k (by omega)).mpr ⟨Nat.le_refl k, by omega⟩] at hset
  cases hset

theorem RoomFor.mark (h : RoomFor (n + 1) part) (hbit : bit < 8 * part.blockBitmap.btmpBytesLen)
    (hclear : bitmapScanTest part.blockBitmap bit = false)
    (hfirst : ∀ i, i < bit → bitmapScanTest part.blockBitmap i = true) :
    part.sb.dataStartLba + bit ≤ maxLba ∧ RoomFor n (part.mark bit) := by
  obtain ⟨k, top, hfree, hk, htop, hon⟩ := h
  obtain ⟨rfl, hlt, hfree'⟩ := hfree.first hbit hclear hfirst
  exact ⟨by omega, bit + 1, top, hfree', by omega, htop, hon⟩

/-- At most `n` blocks have been taken. -/
structure Taken (n : ℕ) (part part' : Mounted) : Prop where
  sb : part'.sb = part.sb
  len : part'.blockBitmap.btmpBytesLen = part.blockBitmap.btmpBytesLen
  keep : ∀ i, bitmapScanTest part.blockBitmap i = true → bitmapScanTest part'.blockBitmap i = true
  free : ∀ k top, FreeBits part.blockBitmap k top →
    ∃ k', k' ≤ k + n ∧ FreeBits part'.blockBitmap k' top

theorem Taken.mark {part' : Mounted} (h : Taken n part part')
    (hbit : bit < 8 * part'.blockBitmap.btmpBytesLen)
    (hclear : bitmapScanTest part'.blockBitmap bit = false)
    (hfirst : ∀ i, i < bit → bitmapScanTest part'.blockBitmap i = true) :
    Taken (n + 1) part (part'.mark bit) := by
  refine ⟨h.sb, h.len, fun i hi => ?_, fun k top hfree => ?_⟩
  · show bitmapScanTest (bitmapSet part'.blockBitmap bit true) i = true
    rw [bitmapScanTest_set, h.keep i hi, ite_self]
  · obtain ⟨k', hk', hfree'⟩ := h.free k top hfree
    exact ⟨k' + 1, by omega, (hfree'.first hbit hclear hfirst).2.2⟩

theorem Taken.refl (part : Mounted) : Taken 0 part part :=
  ⟨rfl, rfl, fun _ hi => hi, fun k _ hfree => ⟨k, by omega, hfree⟩⟩

theorem Taken.mono {k : ℕ} {part' : Mounted} (h : Taken n part part') (hnk : n ≤ k) :
    Taken k part part' := by
  refine ⟨h.sb, h.len, h.keep, fun i top hfree => ?_⟩
  obtain ⟨i', hi', hfree'⟩ := h.free i top hfree
  exact ⟨i', by omega, hfree'⟩

/-- A block that is not on the disk cannot be written. -/
theorem firstEntry_beyond {pDe : Bytes} {lba : ℕ} (d : Dir) (hlba : ¬lba ≤ maxLba) :
    ∃ h, firstEntry d pDe lba = .error h := by
  refine ⟨.panic "ide_write" "lba <= max_lba", ?_⟩
  unfold firstEntry ideWrite
  dsimp only
  rw [assert_bind_of_not hlba, error_bind]

/-- The outcome of an insertion: it halts for want of a block, or the entry is put after the first
252 ones. -/
def Inserted (d : Dir) (es : List DirEntry) (e : DirEntry) : Prop :=
  (∃ h, syncDirEntry d e.bytes = .error h ∧ ¬RoomFor 2 d.part) ∨
    ∃ d' ptrs', syncDirEntry d e.bytes = .ok (true, d') ∧ Geometry d'.part ∧ Taken 2 d.part d'.part ∧
      d'.inode.iSize = d.grow.iSize ∧ Layout d' ptrs' (es.take (min es.length 252) ++ [e])

section All

variable (hgeo : Geometry d.part) (hl : Layout d ptrs es) (hknown : ∀ x ∈ es, x.fType ≠ 0#8)
  (hname : NameOk e.name) (hsize : d.inode.iSize % 24 = 0)
include hgeo hl hknown hname hsize

theorem inserted_direct (hmod : es.length % 21 = 0) (hlt : es.length < 252)
    (hroot : Marked d.part d.part.sb.dataStartLba) : Inserted d es e := by
  have hroom := hl.stored.room
  have hlast := hl.last
  obtain ⟨ioBuf, hnew⟩ := sync_eq_newBlock (e := e) hgeo hl hknown hsize (q := es.length / 21)
    (by omega) (by omega) (by omega)
  rcases blockBitmapAlloc_cases d.part with ⟨bit, halloc, hbit, hclear, hfirst⟩ | ⟨herr, hfull⟩
  · by_cases hmax : d.part.sb.dataStartLba + bit ≤ maxLba
    · obtain ⟨d', hsync, hpart, hsz, hl'⟩ :=
        sync_direct hgeo hl hknown hname hsize hmod hlt hroot halloc hbit hclear hmax
      have htaken : Taken 2 d.part d'.part := by
        rw [hpart]
        exact ((Taken.refl d.part).mark hbit hclear hfirst).mono (by omega)
      rw [show 21 * (es.length / 21) = min es.length 252 by omega] at hl'
      exact Or.inr ⟨d', _, hsync, hpart ▸ hgeo.mark, htaken, hsz, hl'⟩
    · have hbeyond : ∃ h, syncDirEntry d e.bytes = .error h := by
        have hdirect := newBlock_direct_eq (d := { d with ioBuf }) hgeo halloc hbit
          (show es.length / 21 < 12 by omega) e.bytes (directBlocks d.inode)
        rw [hnew, hdirect]
        exact firstEntry_beyond _ hmax
      obtain ⟨h, herr⟩ := hbeyond
      exact Or.inl ⟨h, herr, fun hroom2 => hmax (hroom2.mark hbit hclear hfirst).1⟩
  · exact Or.inl ⟨_, hnew.trans (newBlock_full herr), fun hroom2 => hroom2.not_full hfull⟩

theorem inserted_indirect (hge : 252 ≤ es.length)
    (hroot : Marked d.part d.part.sb.dataStartLba) : Inserted d es e := by
  have hon := hgeo.onDisk
  have hsmall := hgeo.small
  have hmaxv : maxLba = 163839 := rfl
  obtain ⟨ioBuf, hnew⟩ := sync_eq_newBlock (e := e) hgeo hl hknown hsize (Nat.le_refl 12) (by omega)
    (Or.inl rfl)
  rcases blockBitmapAlloc_cases d.part with ⟨bit, halloc, hbit, hclear, hfirst⟩ | ⟨herr, hfull⟩
  · have htable : d.part.sb.dataStartLba + bit < 2 ^ 32 := by omega
    have hstep : syncDirEntry d e.bytes = firstIndirect { d with part := d.part.mark bit, ioBuf }
        e.bytes (directBlocks d.inode) (d.part.sb.dataStartLba + bit) :=
      hnew.trans (newBlock_indirect_eq (d := { d with ioBuf }) hgeo halloc hbit _ _)
    rcases blockBitmapAlloc_cases (d.part.mark bit) with
      ⟨bit', halloc', hbit', hclear', hfirst'⟩ | ⟨herr, hfull⟩
    · by_cases hmax : d.part.sb.dataStartLba + bit ≤ maxLba ∧ d.part.sb.dataStartLba + bit' ≤ maxLba
      · obtain ⟨d', hsync, hpart, hsz, hl'⟩ := sync_indirect hgeo hl hknown hname hsize hge hroot
          halloc hbit hclear hmax.1 halloc' hbit' hclear' hmax.2
        have htaken : Taken 2 d.part d'.part := by
          rw [hpart]
          exact ((Taken.refl d.part).mark hbit hclear hfirst).mark hbit' hclear' hfirst'
        rw [show 21 * 12 = min es.length 252 by omega] at hl'
        exact Or.inr ⟨d', _, hsync, hpart ▸ hgeo.mark.mark, htaken, hsz, hl'⟩
      · have hbeyond : ∃ h, syncDirEntry d e.bytes = .error h := by
          have hindirect := firstIndirect_eq (d := { d with part := d.part.mark bit, ioBuf }) hgeo.mark
            _ htable halloc' hbit' e.bytes (directBlocks d.inode)
          rw [hstep, hindirect]
          dsimp only
          by_cases hfit : d.part.sb.dataStartLba + bit ≤ maxLba
          · rw [ideWrite_sector hfit, ok_bind]
            exact firstEntry_beyond _ fun hfit' => hmax ⟨hfit, hfit'⟩
          · unfold ideWrite
            rw [assert_bind_of_not hfit, error_bind]
            exact ⟨_, rfl⟩
        obtain ⟨h, herr⟩ := hbeyond
        refine Or.inl ⟨h, herr, fun hroom2 => hmax ?_⟩
        obtain ⟨hfit, hroom1⟩ := hroom2.mark hbit hclear hfirst
        exact ⟨hfit, (hroom1.mark hbit' hclear' hfirst').1⟩
    · exact Or.inl ⟨_, hstep.trans (firstIndirect_full herr), fun hroom2 =>
        (hroom2.mark hbit hclear hfirst).2.not_full hfull⟩
  · exact Or.inl ⟨_, hnew.trans (newBlock_full herr), fun hroom2 => hroom2.not_full hfull⟩

/-- **Insertion.**  On a directory whose entries all have a type, `sync_dir_entry` halts because the
blocks have run out, or returns `true` with the entry behind the first 252 ones. -/
theorem sync_spec (hroot : es.length % 21 ≠ 0 ∧ es.length < 252 ∨
    Marked d.part d.part.sb.dataStartLba) : Inserted d es e := by
  by_cases hge : 252 ≤ es.length
  · exact inserted_indirect hgeo hl hknown hname hsize hge (hroot.resolve_left (by omega))
  · by_cases hmod : es.length % 21 = 0
    · exact inserted_direct hgeo hl hknown hname hsize hmod (by omega) (hroot.resolve_left (by omega))
    · obtain ⟨d', hsync, hpart, hinode, hl'⟩ :=
        sync_slot hgeo hl hknown hname hsize hmod (by omega)
      have htaken : Taken 2 d.part d'.part := by
        rw [hpart]
        exact (Taken.refl d.part).mono (by omega)
      rw [show es.length = min es.length 252 by omega] at hl'
      exact Or.inr ⟨d', _, hsync, hpart ▸ hgeo, htaken, by rw [hinode], hl'⟩

end All

end HcOs.Fs
