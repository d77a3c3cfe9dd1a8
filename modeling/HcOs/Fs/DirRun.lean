import HcOs.Fs.DirSync
import HcOs.Lib.Machine

/-!
# Directories over whole runs

From the root directory of a partition that was formatted and mounted, any number of insertions,
each a `create_dir_entry` and a `sync_dir_entry`.  `Kept` is what a user of the directory expects:
all names are found with their data, no block is referenced twice, and `i_size` counts the entries.

`sync_dir_entry` takes a slot of type `FT_UNKNOWN` for free and never reads the table of indirect
pointers, and on a partition of fewer than eight blocks the root directory's own block is not marked
as used.  `directory_kept`: these are the only ways in which an entry gets lost.
`directory_loses_252`: the second entry behind the table of pointers replaces the first one.
-/

namespace HcOs.Fs

open HcOs.Lib HcOs.Sectors
open HcOs.Disk (maxLba)

instance (name : Str) : Decidable (NameOk name) :=
  decidable_of_iff (name ≠ [] ∧ name.length < maxFileNameLen ∧ ∀ c ∈ name, c ≠ 0#8)
    ⟨fun h => ⟨h.1, h.2.1, h.2.2⟩, fun h => ⟨h.nonempty, h.short, h.noNul⟩⟩

/-! ## Runs -/

/-- The directory and what has been inserted into it. -/
structure DirRun where
  dir : Dir
  inserted : List DirEntry

/-- One insertion, of a name that has not been inserted before. -/
def insertStep (s : DirRun) (e : DirEntry) : Option (Except Halt DirRun) :=
  if NameOk e.name ∧ ∀ x ∈ s.inserted, x.name ≠ e.name then
    some do
      let pDe ← createDirEntry e.name e.iNo.toNat e.fType zeros
      let (ok, dir) ← syncDirEntry s.dir pDe
      .ok { dir, inserted := if ok then s.inserted ++ [e] else s.inserted }
  else none

def dirMachine : Machine DirRun DirEntry Halt := ⟨insertStep⟩

/-- The root directory of a fresh file system, opened by `inode_open`. -/
def RootStart (part : Partition) (s : DirRun) : Prop :=
  ∃ pad disk granted granted' mem new inodes,
    partitionFormat part pad granted disk = .ok s.dir.disk ∧
    mountPartition part part.name granted' s.dir.disk = .ok (some s.dir.part) ∧
    inodeOpen s.dir.part s.dir.part.sb.rootInodeNo new ⟨[], mem⟩ s.dir.disk = .ok (new, inodes) ∧
    s.dir.inode = inodes.inode new ∧ s.inserted = []

/-- The pointers of a directory: the thirteen of its inode, then those of the table. -/
def blockPtr (d : Dir) (i : ℕ) : ℕ :=
  if i < 13 then d.inode.iSectors i
  else if d.inode.iSectors 12 ≠ 0 then d.disk.getWord (d.inode.iSectors 12 * 512 + 4 * (i - 13))
  else 0

/-- Nothing is lost: every name is found with its data, no block is referenced twice, and the size
counts the entries, `.` and `..` included. -/
structure Kept (s : DirRun) : Prop where
  found : ∀ e ∈ s.inserted, ∀ dirE, ∃ r,
    searchDirEntry s.dir.part s.dir.inode s.dir.disk e.name dirE = .ok (some r) ∧
      r.getWord 16 = e.iNo.toNat ∧ r.getWord 20 = e.fType.toNat
  apart : ∀ i j, i < 141 → j < 141 → blockPtr s.dir i ≠ 0 → blockPtr s.dir i = blockPtr s.dir j → i = j
  size : s.dir.inode.iSize = dirEntrySize * (s.inserted.length + 2)

/-- The condition on an insertion: no table of indirect pointers yet; no entry of type `FT_UNKNOWN`
so far; not another `.` or `..`; and if a new block is needed, the root directory's own one is
marked as used. -/
def InsertOk (s : DirRun) (e : DirEntry) : Prop :=
  s.dir.inode.iSectors 12 = 0 ∧ (∀ x ∈ s.inserted, x.fType ≠ 0#8) ∧
    (e.name = [46#8] ∨ e.name = [46#8, 46#8] → e.iNo = 0#32 ∧ e.fType = 2#8) ∧
    (s.dir.inode.iSize % 504 ≠ 0 ∨ bitmapScanTest s.dir.part.blockBitmap 0 = true)

instance (s : DirRun) (e : DirEntry) : Decidable (InsertOk s e) :=
  inferInstanceAs (Decidable (_ ∧ _ ∧ _ ∧ _))

/-! ## Searching -/

variable {d : Dir} {ptrs : List ℕ} {es : List DirEntry} {name : Str}

/-- The table that `search_dir_entry` builds has the pointers of the directory. -/
theorem Layout.pointers (hl : Layout d ptrs es) :
    ∃ all, allBlocks d.part d.inode d.disk = .ok all ∧ Pointers all ptrs := by
  unfold allBlocks
  by_cases hlen : ptrs.length ≤ 12
  · rw [if_neg (not_not_intro (hl.noTable hlen))]
    refine ⟨_, rfl, fun k hk => ?_⟩
    rw [directBlocks_word _ hk]
    split
    · next h12 => exact hl.direct k h12
    · rw [List.getD_eq_default _ _ (by omega)]
  · obtain ⟨h0, hmax, -, hwords⟩ := hl.table (by omega)
    rw [if_pos h0, ideRead_sector hmax]
    refine ⟨_, rfl, fun k hk => ?_⟩
    by_cases h12 : k < 12
    · rw [Bytes.getWord_copy_of_apart (by omega), directBlocks_word _ hk, if_pos h12]
      exact hl.direct k h12
    · rw [Bytes.getWord_copy_of_mem (by omega) (by omega),
        show 4 * k - 48 = 4 * (k - 12) by omega, hwords (k - 12) (by omega),
        show 12 + (k - 12) = k by omega]

theorem search_spec (hgeo : Geometry d.part) (hl : Layout d ptrs es) (hname : IsName name)
    (dirE : Bytes) :
    (∃ e ∈ es, e.name = name ∧ ∃ r, searchDirEntry d.part d.inode d.disk name dirE = .ok (some r) ∧
        r.getWord 16 = e.iNo.toNat ∧ r.getWord 20 = e.fType.toNat) ∨
      (searchDirEntry d.part d.inode d.disk name dirE = .ok none ∧ ∀ e ∈ es, e.name ≠ name) := by
  obtain ⟨all, hall, hptr⟩ := hl.pointers
  unfold searchDirEntry
  rw [hall, ok_bind]
  rcases searchBlocks_spec hgeo.entrySize hl.stored hptr hname dirE 140 0 rfl with
    ⟨e, he, hen, r, hr, hbytes⟩ | ⟨hnone, hmiss⟩
  · refine Or.inl ⟨e, he, hen, r, hr, ?_, ?_⟩
    · rw [← DirEntry.bytes_iNo]
      exact Bytes.getWord_congr fun k hk => hbytes _ (by omega)
    · rw [← DirEntry.bytes_fType]
      exact Bytes.getWord_congr fun k hk => hbytes _ (by omega)
  · refine Or.inr ⟨hnone, fun e he => ?_⟩
    obtain ⟨j, hj, rfl⟩ := List.mem_iff_getElem.mp he
    have hroom := hl.stored.room
    have hfew := hl.few
    exact hmiss j _ (by omega) (by omega) (List.getElem?_eq_getElem hj)

/-! ## The invariant -/

/-- The entries `partition_format` puts into the root directory. -/
def dots : List DirEntry := [⟨[46#8], 0#32, 2#8⟩, ⟨[46#8, 46#8], 0#32, 2#8⟩]

theorem dots_data : ∀ x ∈ dots, (x.name = [46#8] ∨ x.name = [46#8, 46#8]) ∧ x.iNo = 0#32 ∧
    x.fType = 2#8 := by decide

theorem dots_unique : ∀ x ∈ dots ++ [], ∀ y ∈ dots ++ [], x.name = y.name → x = y := by decide

/-- The directory holds `.`, `..` and what has been inserted. -/
structure DirInv (s : DirRun) : Prop where
  geo : Geometry s.dir.part
  layout : ∃ ptrs, Layout s.dir ptrs (dots ++ s.inserted)
  size : s.dir.inode.iSize = dirEntrySize * (s.inserted.length + 2)
  /-- A name determines its entry. -/
  unique : ∀ x ∈ dots ++ s.inserted, ∀ y ∈ dots ++ s.inserted, x.name = y.name → x = y

variable {s s' : DirRun} {e : DirEntry}

theorem blockPtr_table (d : Dir) : blockPtr d 12 = d.inode.iSectors 12 := if_pos (by omega)

/-- The other pointers are those of the layout. -/
theorem Layout.blockPtr_of_ne (hl : Layout d ptrs es) {i : ℕ} (hi : i < 141) (hne : i ≠ 12) :
    blockPtr d i = ptrs.getD (if i < 12 then i else i - 1) 0 := by
  unfold blockPtr
  by_cases h12 : i < 12
  · rw [if_pos (by omega), if_pos h12]
    exact hl.direct i h12
  · rw [if_neg (by omega), if_neg h12]
    by_cases hlen : ptrs.length ≤ 12
    · rw [if_neg (not_not_intro (hl.noTable hlen)), List.getD_eq_default _ _ (by omega)]
    · obtain ⟨h0, -, -, hwords⟩ := hl.table (by omega)
      rw [if_pos h0, hwords (i - 13) (by omega), show 12 + (i - 13) = i - 1 by omega]

theorem getD_ne_zero {k : ℕ} (h : ptrs.getD k 0 ≠ 0) : ptrs[k]? = some (ptrs.getD k 0) := by
  rw [List.getD_eq_getElem?_getD] at h ⊢
  cases hk : ptrs[k]? with
  | none =>
    rw [hk] at h
    exact absurd rfl h
  | some p => rfl

theorem getD_inj (hnodup : ptrs.Nodup) {k k' : ℕ} (h : ptrs.getD k 0 ≠ 0)
    (heq : ptrs.getD k 0 = ptrs.getD k' 0) : k = k' := by
  by_contra hne
  exact ptrs_ne hnodup (getD_ne_zero h) (getD_ne_zero (heq ▸ h)) hne heq

/-- No other pointer names the table. -/
theorem Layout.ne_table (hl : Layout d ptrs es) {i : ℕ} (hi : i < 141) (hne : i ≠ 12)
    (h0 : d.inode.iSectors 12 ≠ 0) : blockPtr d i ≠ d.inode.iSectors 12 := by
  intro heq
  have hlen : 12 < ptrs.length := by
    by_contra hle
    exact h0 (hl.noTable (by omega))
  rw [hl.blockPtr_of_ne hi hne] at heq
  have hmem := List.mem_of_getElem? (getD_ne_zero (heq ▸ h0))
  exact (hl.table hlen).2.2.1 (heq ▸ hmem)

/-- No block is referenced twice. -/
theorem Layout.apart (hl : Layout d ptrs es) {i j : ℕ} (hi : i < 141) (hj : j < 141)
    (h0 : blockPtr d i ≠ 0) (heq : blockPtr d i = blockPtr d j) : i = j := by
  by_cases hi12 : i = 12
  · by_contra hij
    rw [hi12, blockPtr_table] at h0 heq
    exact hl.ne_table hj (by omega) h0 heq.symm
  · by_cases hj12 : j = 12
    · rw [hj12, blockPtr_table] at heq
      exact absurd heq (hl.ne_table hi hi12 (heq ▸ h0))
    · rw [hl.blockPtr_of_ne hi hi12] at h0 heq
      rw [hl.blockPtr_of_ne hj hj12] at heq
      have hidx := getD_inj hl.nodup h0 heq
      split at hidx <;> split at hidx <;> omega

/-- The invariant says that nothing is lost. -/
theorem DirInv.kept (h : DirInv s) : Kept s := by
  obtain ⟨ptrs, hl⟩ := h.layout
  refine ⟨fun e he dirE => ?_, fun i j hi hj h0 heq => hl.apart hi hj h0 heq, h.size⟩
  have hmem : e ∈ dots ++ s.inserted := List.mem_append_right _ he
  rcases search_spec h.geo hl (hl.stored.names e hmem).isName dirE with ⟨x, hx, hname, r, hr⟩ | ⟨-, hmiss⟩
  · obtain rfl := h.unique x hx e hmem hname
    exact ⟨r, hr⟩
  · exact absurd rfl (hmiss e hmem)

/-- A step of the machine is an insertion. -/
theorem dirMachine_step {r : Except Halt DirRun} (h : dirMachine.step s e = some r) :
    NameOk e.name ∧ (∀ x ∈ s.inserted, x.name ≠ e.name) ∧
      r = (syncDirEntry s.dir e.bytes >>= fun p =>
        .ok { dir := p.2, inserted := if p.1 then s.inserted ++ [e] else s.inserted }) := by
  unfold dirMachine insertStep at h
  dsimp only at h
  split at h
  · next hnew =>
    refine ⟨hnew.1, hnew.2, ?_⟩
    rw [← Option.some.inj h, createDirEntry_eq (Nat.le_of_lt hnew.1.short), ok_bind]
  · cases h

/-- What the insertion of an entry with a name of its own does to the invariant. -/
theorem DirInv.insert (h : DirInv s) (hc : InsertOk s e) (hname : NameOk e.name)
    (hnew : ∀ x ∈ s.inserted, x.name ≠ e.name) :
    (∃ x, syncDirEntry s.dir e.bytes = .error x ∧ ¬RoomFor 2 s.dir.part) ∨
      ∃ dir, syncDirEntry s.dir e.bytes = .ok (true, dir) ∧ Taken 2 s.dir.part dir.part ∧
        DirInv ⟨dir, s.inserted ++ [e]⟩ := by
  obtain ⟨ptrs, hl⟩ := h.layout
  obtain ⟨htable, hknown, hdots, hroot⟩ := hc
  have hsize := h.size
  have hroom := hl.stored.room
  have hlen : (dots ++ s.inserted).length = s.inserted.length + 2 := by
    rw [List.length_append, Nat.add_comm]
    rfl
  have hle : (dots ++ s.inserted).length ≤ 252 := by
    by_contra hgt
    exact (hl.table (by omega)).1 htable
  have hknown' : ∀ x ∈ dots ++ s.inserted, x.fType ≠ 0#8 := by
    intro x hx
    rcases List.mem_append.mp hx with hx | hx
    · rw [(dots_data x hx).2.2]
      decide
    · exact hknown x hx
  have hmarked : (dots ++ s.inserted).length % 21 ≠ 0 ∧ (dots ++ s.inserted).length < 252 ∨
      Marked s.dir.part s.dir.part.sb.dataStartLba := by
    have hpos := h.geo.nonempty
    rcases hroot with hmod | hbit
    · unfold dirEntrySize at hsize
      exact Or.inl (by omega)
    · refine Or.inr ⟨Nat.le_refl _, by omega, ?_⟩
      rw [Nat.sub_self]
      exact hbit
  have hsize24 : s.dir.inode.iSize % 24 = 0 := by
    unfold dirEntrySize at hsize
    omega
  rcases sync_spec h.geo hl hknown' hname hsize24 hmarked with
    herr | ⟨d', ptrs', hsync, hgeo, htaken, hsz, hl'⟩
  · exact Or.inl herr
  · rw [Nat.min_eq_left hle, List.take_length, List.append_assoc] at hl'
    refine Or.inr ⟨d', hsync, htaken, hgeo, ⟨ptrs', hl'⟩, ?_, ?_⟩
    · rw [hsz, Dir.grow, Inode.iSize_setSize, h.geo.entrySize, hsize, List.length_append,
        List.length_singleton]
      unfold dirEntrySize
      omega
    · -- a name that is taken is `.` or `..`, with the same data
      have hsame : ∀ x ∈ dots ++ s.inserted, x.name = e.name → x = e := by
        intro x hx hxe
        rcases List.mem_append.mp hx with hx | hx
        · obtain ⟨hdot, hno, htype⟩ := dots_data x hx
          obtain ⟨hno', htype'⟩ := hdots (hxe ▸ hdot)
          cases x
          cases e
          simp only [DirEntry.mk.injEq] at *
          exact ⟨hxe, hno.trans hno'.symm, htype.trans htype'.symm⟩
        · exact absurd hxe (hnew x hx)
      intro x hx y hy hxy
      dsimp only at hx hy
      rw [← List.append_assoc, List.mem_append, List.mem_singleton] at hx hy
      rcases hx with hx | rfl
      · rcases hy with hy | rfl
        · exact h.unique x hx y hy hxy
        · exact hsame x hx hxy
      · rcases hy with hy | rfl
        · exact (hsame y hy hxy.symm).symm
        · rfl

/-- A step that meets the condition keeps the invariant. -/
theorem dirInv_step (h : DirInv s) (hc : InsertOk s e)
    (hstep : dirMachine.step s e = some (.ok s')) : DirInv s' := by
  obtain ⟨hname, hnew, hr⟩ := dirMachine_step hstep
  rcases h.insert hc hname hnew with ⟨x, herr, -⟩ | ⟨dir, hsync, -, hinv⟩
  · rw [herr, error_bind] at hr
    cases hr
  · rw [hsync, ok_bind] at hr
    cases hr
    exact hinv

/-! ## The root directory -/

variable {part : Partition}

theorem mounted_geometry (h : Fits part) : Geometry (mounted part) := by
  have hbounds := blockBitmap_bounds h
  have hlarge := h.large
  have hdisk := h.onDisk
  have hdata := mounted_dataStartLba h
  have hbitmap : (mounted part).sb.blockBitmapLba = part.startLba + 2 := by
    show (superBlock part).blockBitmapLba = _
    rw [superBlock_eq h]
  have hlen : (mounted part).blockBitmap.btmpBytesLen = blockBitmapSects part * 512 := rfl
  refine ⟨?_, by omega, by omega, by omega, by omega, by omega⟩
  show (superBlock part).dirEntrySize = 24
  rw [superBlock_eq h]

/-- The words of the inode that `partition_format` writes for the root directory. -/
theorem inodeTableBuf_word (sb : SuperBlock) :
    Bytes.getWord (inodeTableBuf sb zeros) 0 = 0 ∧
      Bytes.getWord (inodeTableBuf sb zeros) 4 = sb.dirEntrySize * 2 % 2 ^ 32 ∧
      ∀ k, Bytes.getWord (inodeTableBuf sb zeros) (16 + 4 * k) =
        if k = 0 then sb.dataStartLba % 2 ^ 32 else 0 := by
  unfold inodeTableBuf
  refine ⟨?_, ?_, fun k => ?_⟩
  · rw [Bytes.getWord_putWord_of_apart (by omega), Bytes.getWord_putWord, Nat.zero_mod]
  · rw [Bytes.getWord_putWord_of_apart (by omega), Bytes.getWord_putWord_of_apart (by omega),
      Bytes.getWord_putWord]
  · split
    · next h0 =>
      rw [h0]
      exact Bytes.getWord_putWord _ _ _
    · rw [Bytes.getWord_putWord_of_apart (by omega), Bytes.getWord_putWord_of_apart (by omega),
        Bytes.getWord_putWord_of_apart (by omega)]
      rfl

theorem rootDirBuf_holds : Holds (rootDirBuf zeros) 0 dots 0 := by
  have hdots : ∀ i, i < 48 → rootDirBuf zeros (0 + i) = slotBytes dots (0 + i / 24) (i % 24) := by
    decide +kernel
  intro i hi
  by_cases h48 : i < 48
  · exact hdots i h48
  · -- behind the two entries both are blank
    have hlen : dots.length = 2 := rfl
    rw [slotBytes_none (List.getElem?_eq_none (by omega))]
    unfold rootDirBuf putName dirEntrySize
    rw [Bytes.putWord_of_not_mem (by omega), Bytes.putWord_of_not_mem (by omega),
      Bytes.copy_of_not_mem (Or.inr (by simp only [List.length_cons, List.length_nil]; omega)),
      Bytes.putWord_of_not_mem (by omega), Bytes.putWord_of_not_mem (by omega),
      Bytes.copy_of_not_mem (Or.inr (by simp only [List.length_cons, List.length_nil]; omega))]
    rfl

/-- A directory of one block with the entries `.` and `..`. -/
theorem root_layout {p : ℕ} (hp : p = d.part.sb.dataStartLba) (h0 : p ≠ 0) (hmax : p ≤ maxLba)
    (hsects : ∀ k, k < 13 → d.inode.iSectors k = if k = 0 then p else 0)
    (hholds : Holds d.disk (p * 512) dots 0) : Layout d [p] dots := by
  have hlen : [p].length = 1 := List.length_singleton
  have hdots : dots.length = 2 := rfl
  refine ⟨⟨by decide, by omega, fun k p' hk => ?_⟩, by omega, by omega, fun k hk => ?_,
    List.nodup_singleton p, fun p' hp' => ?_, fun _ => ?_, fun hgt => by omega⟩
  · cases k with
    | zero =>
      obtain rfl := Option.some.inj hk
      exact ⟨h0, hmax, hholds⟩
    | succ k => cases hk
  · rw [hsects k (by omega)]
    cases k with
    | zero => rfl
    | succ k => rw [if_neg (by omega), List.getD_cons_succ, List.getD_nil]
  · exact Or.inl ((List.mem_singleton.mp hp').trans hp)
  · rw [hsects 12 (by omega), if_neg (by omega)]

/-- The words of the root directory's inode on a formatted disk. -/
theorem root_slot (h : Fits part) (pad disk : Bytes) {a : ℕ} (ha : a + 4 ≤ inodeSize) :
    (formatted part pad disk).getWord (slot (mounted part) 0 + a) =
      Bytes.getWord (inodeTableBuf (superBlock part) zeros) a := by
  have hbase : slot (mounted part) 0 = (part.startLba + 3 + blockBitmapSects part) * 512 := by
    unfold slot
    rw [Nat.zero_mul, Nat.add_zero]
    show (superBlock part).inodeTableLba * 512 = _
    rw [superBlock_eq h]
  unfold inodeSize at ha
  refine Bytes.getWord_congr fun k hk => ?_
  rw [hbase, Nat.add_assoc]
  exact formatted_inodeTable h pad disk (by omega)

/-- The root directory's inode after `inode_open`. -/
theorem root_inode (h : Fits part) {pad disk : Bytes} {mem : ℕ → Inode} {new : ℕ} {inodes : OpenInodes}
    (hopen : inodeOpen (mounted part) (mounted part).sb.rootInodeNo new ⟨[], mem⟩
      (formatted part pad disk) = .ok (new, inodes)) :
    (inodes.inode new).iNo = 0 ∧ (inodes.inode new).iSize = 48 ∧
      ∀ k, k < 13 → (inodes.inode new).iSectors k =
        if k = 0 then part.startLba + 611 + blockBitmapSects part else 0 := by
  have hgeo := mounted_geometry h
  have hon := hgeo.onDisk
  rw [mounted_dataStartLba h] at hon
  have hmax : maxLba = 163839 := rfl
  have hroot : (mounted part).sb.rootInodeNo = 0 := rfl
  rw [hroot] at hopen
  obtain ⟨inodes', hopen', hword⟩ := inodeOpen_word (s := ⟨[], mem⟩) (n := 0) (mounted_tableOnDisk h)
    (by omega) rfl new (formatted part pad disk)
  obtain rfl : inodes' = inodes := by
    rw [hopen] at hopen'
    exact (Prod.mk.inj (Except.ok.inj hopen')).2.symm
  obtain ⟨hno, hsize, hsects⟩ := inodeTableBuf_word (superBlock part)
  rw [superBlock_eq h] at hsize hsects
  refine ⟨?_, ?_, fun k hk => ?_⟩
  · unfold Inode.iNo
    rw [hword 0 (by omega), root_slot h pad disk (by unfold inodeSize; omega), hno]
  · unfold Inode.iSize
    rw [hword 4 (by omega), root_slot h pad disk (by unfold inodeSize; omega), superBlock_eq h, hsize]
    rfl
  · unfold Inode.iSectors
    rw [hword (16 + 4 * k) (by omega), root_slot h pad disk (by unfold inodeSize; omega),
      superBlock_eq h, hsects k]
    dsimp only
    rw [Nat.mod_eq_of_lt (by omega)]

theorem rootStart_inv (h : Fits part) (hs : RootStart part s) : DirInv s := by
  obtain ⟨pad, disk, granted, granted', mem, new, inodes, hformat, hmount, hopen, hinode, hnil⟩ := hs
  have hdisk := disk_of_format h hformat
  have hpart := mount_of_format h hformat hmount
  have hgeo := mounted_geometry h
  have hdata := mounted_dataStartLba h
  rw [hpart, hdisk] at hopen
  obtain ⟨-, hsize, hsects⟩ := root_inode h hopen
  rw [← hinode] at hsize hsects
  have hholds : Holds s.dir.disk ((part.startLba + 611 + blockBitmapSects part) * 512) dots 0 := by
    intro i hi
    have hroot := rootDirBuf_holds i hi
    rw [hdisk, formatted_rootDir h pad disk (by omega), ← hroot, Nat.zero_add]
  have hon := hgeo.onDisk
  rw [← hpart] at hgeo hdata
  rw [mounted_dataStartLba h] at hon
  have hlayout := root_layout hdata.symm (by omega) hon hsects hholds
  refine ⟨hgeo, ⟨_, by rw [hnil, List.append_nil]; exact hlayout⟩, ?_, ?_⟩
  · rw [hsize, hnil]
    rfl
  · rw [hnil]
    exact dots_unique

/-! ## Runs that return -/

/-- The root directory's inode as `inode_open` reads it. -/
def rootInode (part : Partition) (disk : Bytes) : Inode :=
  Inode.setOpenCnts (zeros.copy 0 disk (slot (mounted part) 0) inodeSize) 1

/-- A root directory after `partition_format`, `mount_partition` and `open_root_dir`. -/
def rootRun (part : Partition) (pad disk ioBuf : Bytes) : DirRun where
  dir := {
    part := mounted part
    inode := rootInode part (formatted part pad disk)
    disk := formatted part pad disk
    ioBuf }
  inserted := []

theorem rootRun_start (h : Fits part) (pad disk ioBuf : Bytes) :
    RootStart part (rootRun part pad disk ioBuf) := by
  have hroot : (mounted part).sb.rootInodeNo = 0 := rfl
  have hopen : inodeOpen (mounted part) (mounted part).sb.rootInodeNo 0 ⟨[], fun _ => zeros⟩
      (formatted part pad disk) =
      .ok (0, ⟨[0], Function.update (fun _ => zeros) 0 (rootInode part (formatted part pad disk))⟩) := by
    unfold inodeOpen OpenInodes.find
    rw [List.find?_nil, hroot]
    dsimp only
    rw [inodeRead_eq (mounted_tableOnDisk h) (by omega), ok_bind, OpenInodes.push, rootInode]
  unfold RootStart rootRun
  dsimp only
  refine ⟨pad, disk, true, fun _ => true, fun _ => zeros, 0, _, partitionFormat_eq h pad disk,
    mountPartition_formatted h pad disk, hopen, ?_, rfl⟩
  dsimp only
  rw [Function.update_self]

theorem RoomFor.taken {n k : ℕ} {part part' : Mounted} (h : RoomFor (n + k) part)
    (ht : Taken k part part') : RoomFor n part' := by
  obtain ⟨i, top, hfree, hi, htop, hon⟩ := h
  obtain ⟨i', hi', hfree'⟩ := ht.free i top hfree
  exact ⟨i', top, hfree', by omega, by rw [ht.len]; exact htop, by rw [ht.sb]; exact hon⟩

/-- An entry that meets the condition wherever its turn comes. -/
structure Plain (e : DirEntry) : Prop where
  name : NameOk e.name
  type : e.fType ≠ 0#8
  notDot : e.name ≠ [46#8] ∧ e.name ≠ [46#8, 46#8]

/-- As long as the direct blocks have a free slot there is no table. -/
theorem DirInv.noTable (h : DirInv s) (hlen : s.inserted.length < 251) :
    s.dir.inode.iSectors 12 = 0 := by
  obtain ⟨ptrs, hl⟩ := h.layout
  have hlast := hl.last
  rw [List.length_append, show dots.length = 2 from rfl] at hlast
  exact hl.noTable (by omega)

/-- Up to 251 plain entries can be inserted one after the other, given the room. -/
theorem run_plain (es : List DirEntry) (n : ℕ) (hinv : DirInv s)
    (hknown : ∀ x ∈ s.inserted, x.fType ≠ 0#8)
    (hroot : bitmapScanTest s.dir.part.blockBitmap 0 = true) (hplain : ∀ e ∈ es, Plain e)
    (hnodup : ((s.inserted ++ es).map DirEntry.name).Nodup)
    (hlen : s.inserted.length + es.length ≤ 251) (hroom : RoomFor (n + 2 * es.length) s.dir.part) :
    ∃ s', (dirMachine.guard InsertOk).run s es = some (.ok s') ∧ DirInv s' ∧
      s'.inserted = s.inserted ++ es ∧ bitmapScanTest s'.dir.part.blockBitmap 0 = true ∧
      RoomFor n s'.dir.part := by
  induction es generalizing s with
  | nil => exact ⟨s, rfl, hinv, (List.append_nil _).symm, hroot, hroom⟩
  | cons e es ih =>
    have he := hplain e List.mem_cons_self
    rw [List.length_cons] at hlen hroom
    have hok : InsertOk s e := by
      refine ⟨hinv.noTable (by omega), hknown, fun hdot => ?_, Or.inr hroot⟩
      exact absurd hdot (not_or_intro he.notDot.1 he.notDot.2)
    have hnew : ∀ x ∈ s.inserted, x.name ≠ e.name := by
      intro x hx hxe
      rw [List.map_append, List.nodup_append] at hnodup
      exact hnodup.2.2 _ (List.mem_map_of_mem hx) _ (List.mem_map_of_mem List.mem_cons_self) hxe
    have hroom' : RoomFor (n + 2 * es.length + 2) s.dir.part := hroom
    rcases hinv.insert hok he.name hnew with ⟨x, -, hno⟩ | ⟨dir, hsync, htaken, hinv'⟩
    · obtain ⟨k, top, hfree, hk, htop⟩ := hroom'
      exact absurd ⟨k, top, hfree, by omega, htop⟩ hno
    · have hstep : (dirMachine.guard InsertOk).step s e = some (.ok ⟨dir, s.inserted ++ [e]⟩) := by
        show (if InsertOk s e then insertStep s e else none) = _
        rw [if_pos hok, insertStep, if_pos ⟨he.name, hnew⟩,
          createDirEntry_eq (Nat.le_of_lt he.name.short), ok_bind, hsync, ok_bind]
        rfl
      have hcons : s.inserted ++ [e] ++ es = s.inserted ++ e :: es := by
        rw [List.append_assoc]
        rfl
      obtain ⟨s', hrun, hinv'', hins, hroot', hleft⟩ := ih hinv'
        (fun x hx => by
          rcases List.mem_append.mp hx with hx | hx
          · exact hknown x hx
          · rw [List.mem_singleton.mp hx]
            exact he.type)
        (htaken.keep 0 hroot) (fun x hx => hplain x (List.mem_cons_of_mem e hx))
        (by rw [hcons]; exact hnodup)
        (by rw [List.length_append, List.length_singleton]; omega) (hroom'.taken htaken)
      refine ⟨s', ?_, hinv'', by rw [hins, hcons], hroot', hleft⟩
      rw [Machine.run_cons_ok _ hstep]
      exact hrun

/-- Once the table is there, the next insertion loses the entry behind it. -/
theorem DirInv.loses (h : DirInv s) (hknown : ∀ x ∈ s.inserted, x.fType ≠ 0#8)
    (hroot : bitmapScanTest s.dir.part.blockBitmap 0 = true) (hroom : RoomFor 2 s.dir.part)
    {init : List DirEntry} {x : DirEntry} (hins : s.inserted = init ++ [x]) (hlen : init.length = 250)
    (hx : ∀ y ∈ dots ++ init, y.name ≠ x.name) (hname : NameOk e.name) (hne : e.name ≠ x.name)
    (hnew : ∀ y ∈ s.inserted, y.name ≠ e.name) :
    ∃ s', dirMachine.step s e = some (.ok s') ∧ ¬Kept s' := by
  obtain ⟨ptrs, hl⟩ := h.layout
  have hsize := h.size
  have hpos := h.geo.nonempty
  have hinit : (dots ++ init).length = 252 := by
    rw [List.length_append, hlen]
    rfl
  have hes : dots ++ s.inserted = (dots ++ init) ++ [x] := by rw [hins, List.append_assoc]
  have htake : (dots ++ s.inserted).take (min (dots ++ s.inserted).length 252) = dots ++ init := by
    rw [hes, List.length_append, hinit, List.length_singleton]
    exact List.take_left' hinit
  have hknown' : ∀ y ∈ dots ++ s.inserted, y.fType ≠ 0#8 := by
    intro y hy
    rcases List.mem_append.mp hy with hy | hy
    · rw [(dots_data y hy).2.2]
      decide
    · exact hknown y hy
  have hmarked : Marked s.dir.part s.dir.part.sb.dataStartLba := by
    refine ⟨Nat.le_refl _, by omega, ?_⟩
    rw [Nat.sub_self]
    exact hroot
  have hsize24 : s.dir.inode.iSize % 24 = 0 := by
    unfold dirEntrySize at hsize
    omega
  rcases sync_spec h.geo hl hknown' hname hsize24 (Or.inr hmarked) with
    ⟨_, -, hno⟩ | ⟨d', ptrs', hsync, hgeo, -, -, hl'⟩
  · exact absurd hroom hno
  · refine ⟨⟨d', s.inserted ++ [e]⟩, ?_, fun hkept => ?_⟩
    · show insertStep s e = _
      rw [insertStep, if_pos ⟨hname, hnew⟩, createDirEntry_eq (Nat.le_of_lt hname.short), ok_bind,
        hsync, ok_bind]
      rfl
    · have hmem : x ∈ s.inserted := hins ▸ List.mem_append_right _ (List.mem_singleton_self x)
      obtain ⟨r, hr, -, -⟩ := hkept.found x (List.mem_append_left _ hmem) zeros
      rw [htake] at hl'
      have hxname := hl.stored.names x (List.mem_append_right _ hmem)
      rcases search_spec hgeo hl' hxname.isName zeros with ⟨y, hy, hyx, -⟩ | ⟨hnone, -⟩
      · rcases List.mem_append.mp hy with hy | hy
        · exact hx y hy hyx
        · rw [List.mem_singleton.mp hy] at hyx
          exact hne hyx
      · rw [hnone] at hr
        cases hr

/-- **Directories.**  In every run of insertions that all meet the condition, from the root directory
of a fresh file system, nothing is lost. -/
theorem directory_kept (part : Partition) (hlarge : 613 ≤ part.secCnt)
    (hdisk : part.startLba + part.secCnt - 1 ≤ maxLba) (s₀ s : DirRun) (hs : RootStart part s₀)
    (es : List DirEntry) (hrun : (dirMachine.guard InsertOk).run s₀ es = some (.ok s)) : Kept s := by
  have hinv : DirInv s := Machine.run_guard_ok (fun _ _ _ hinv hok h => dirInv_step hinv hok h)
    (rootStart_inv ⟨hlarge, hdisk⟩ hs) hrun
  exact hinv.kept

/-- A partition of 4708 sectors, and regular files with the names `aa`, `ab`, … in it. -/
def smallPartition : Partition := ⟨63, 4708, 1, "sdb1"⟩

theorem smallPartition_fits : Fits smallPartition := ⟨by decide, by decide⟩

def plainEntry (k : ℕ) : DirEntry where
  name := [BitVec.ofNat 8 (97 + k / 16), BitVec.ofNat 8 (97 + k % 16)]
  iNo := BitVec.ofNat 32 (k + 1)
  fType := 1#8

def plainEntries (n : ℕ) : List DirEntry := (List.range n).map plainEntry

theorem toNat_letter {c : ℕ} (hc : c < 16) : (BitVec.ofNat 8 (97 + c)).toNat = 97 + c := by
  rw [BitVec.toNat_ofNat]
  omega

theorem plainEntry_plain {k : ℕ} (hk : k < 256) : Plain (plainEntry k) := by
  have hhi := toNat_letter (c := k / 16) (by omega)
  have hlo := toNat_letter (c := k % 16) (by omega)
  refine ⟨⟨by simp [plainEntry], by simp [plainEntry, maxFileNameLen], fun c hc h0 => ?_⟩,
    by simp [plainEntry], by simp [plainEntry], fun hdots => ?_⟩
  · simp only [plainEntry, List.mem_cons, List.not_mem_nil, or_false] at hc
    rcases hc with rfl | rfl
    · rw [h0] at hhi
      simp only [BitVec.toNat_ofNat] at hhi
      omega
    · rw [h0] at hlo
      simp only [BitVec.toNat_ofNat] at hlo
      omega
  · simp only [plainEntry, List.cons.injEq] at hdots
    rw [hdots.1] at hhi
    simp only [BitVec.toNat_ofNat] at hhi
    omega

theorem plainEntry_name_inj {k k' : ℕ} (hk : k < 256) (hk' : k' < 256)
    (h : (plainEntry k).name = (plainEntry k').name) : k = k' := by
  simp only [plainEntry, List.cons.injEq] at h
  have hhi := congrArg BitVec.toNat h.1
  have hlo := congrArg BitVec.toNat h.2.1
  rw [toNat_letter (by omega), toNat_letter (by omega)] at hhi hlo
  omega

theorem plainEntries_plain {n : ℕ} (hn : n ≤ 256) : ∀ e ∈ plainEntries n, Plain e := by
  intro e he
  obtain ⟨k, hk, rfl⟩ := List.mem_map.mp he
  exact plainEntry_plain (by rw [List.mem_range] at hk; omega)

theorem plainEntries_nodup {n : ℕ} (hn : n ≤ 256) : ((plainEntries n).map DirEntry.name).Nodup := by
  unfold plainEntries
  rw [List.map_map]
  refine List.Nodup.map_on (fun k hk k' hk' h => ?_) List.nodup_range
  rw [List.mem_range] at hk hk'
  exact plainEntry_name_inj (by omega) (by omega) h

/-- The file system on the small partition has room for all of them. -/
theorem smallPartition_room : RoomFor (2 + 2 * 251) (mounted smallPartition) := by
  have hfree := mounted_freeBits smallPartition_fits
  have hdata := mounted_dataStartLba smallPartition_fits
  have hfirst : firstFree smallPartition = 1 := by decide
  have hend : endFree smallPartition = 4096 := by decide
  have hsects : blockBitmapSects smallPartition = 1 := by decide
  rw [hsects] at hdata
  rw [hfirst, hend] at hfree
  refine ⟨1, 4096, hfree, by omega, ?_, ?_⟩
  · show 4096 ≤ 8 * (blockBitmapSects smallPartition * 512)
    rw [hsects]
  · rw [hdata]
    decide

theorem smallPartition_root : bitmapScanTest (mounted smallPartition).blockBitmap 0 = true := by
  have hfree := mounted_freeBits smallPartition_fits 0 (by decide)
  have hfirst : firstFree smallPartition = 1 := by decide
  rw [hfirst] at hfree
  by_contra hclear
  have := hfree.mp (eq_false_of_ne_true hclear)
  omega

/-- 251 insertions, up to the first one behind the table of pointers. -/
theorem run_251 : ∃ s, (dirMachine.guard InsertOk).run (rootRun smallPartition zeros zeros zeros)
    (plainEntries 251) = some (.ok s) ∧ DirInv s ∧ s.inserted = plainEntries 251 ∧
      bitmapScanTest s.dir.part.blockBitmap 0 = true ∧ RoomFor 2 s.dir.part := by
  have hstart := rootRun_start smallPartition_fits zeros zeros zeros
  have hlen : (plainEntries 251).length = 251 := by rw [plainEntries, List.length_map, List.length_range]
  have hrun := run_plain (plainEntries 251) 2 (rootStart_inv smallPartition_fits hstart)
    (fun x hx => by cases hx) smallPartition_root (plainEntries_plain (by omega))
    (plainEntries_nodup (by omega)) (by rw [hlen]; exact Nat.le_refl _)
    (by rw [hlen]; exact smallPartition_room)
  exact hrun

theorem directory_kept_251 : ∃ s, (dirMachine.guard InsertOk).run
    (rootRun smallPartition zeros zeros zeros) (plainEntries 251) = some (.ok s) ∧ Kept s := by
  obtain ⟨s, hrun, -⟩ := run_251
  exact ⟨s, hrun, directory_kept smallPartition (by decide) (by decide) _ s
    (rootRun_start smallPartition_fits zeros zeros zeros) _ hrun⟩

/-- The 252nd insertion returns `true` and loses the 251st entry. -/
theorem directory_loses_252 : RootStart smallPartition (rootRun smallPartition zeros zeros zeros) ∧
    ∃ s, dirMachine.run (rootRun smallPartition zeros zeros zeros) (plainEntries 252) = some (.ok s) ∧
      ¬Kept s := by
  refine ⟨rootRun_start smallPartition_fits zeros zeros zeros, ?_⟩
  obtain ⟨s, hrun, hinv, hins, hroot, hroom⟩ := run_251
  have hsplit : ∀ n, plainEntries (n + 1) = plainEntries n ++ [plainEntry n] := by
    intro n
    unfold plainEntries
    rw [List.range_succ, List.map_append]
    rfl
  have hfresh : ∀ n, n < 256 → ∀ y ∈ plainEntries n, y.name ≠ (plainEntry n).name := by
    intro n hn y hy hname
    obtain ⟨k, hk, rfl⟩ := List.mem_map.mp hy
    rw [List.mem_range] at hk
    have := plainEntry_name_inj (by omega) hn hname
    omega
  have hdots : ∀ y ∈ dots, y.name ≠ (plainEntry 250).name := by decide
  obtain ⟨s', hstep, hlost⟩ := hinv.loses (e := plainEntry 251)
    (fun x hx => (plainEntries_plain (n := 251) (by omega) x (hins ▸ hx)).type) hroot hroom
    (hins.trans (hsplit 250)) (by rw [plainEntries, List.length_map, List.length_range])
    (fun y hy => (List.mem_append.mp hy).elim (hdots y) (hfresh 250 (by omega) y))
    (plainEntry_plain (by omega)).name (by decide) (hins ▸ hfresh 251 (by omega))
  refine ⟨s', ?_, hlost⟩
  rw [hsplit 251, Machine.run_append _ (Machine.run_of_guard hrun), Machine.run_cons_ok _ hstep]
  rfl

end HcOs.Fs
