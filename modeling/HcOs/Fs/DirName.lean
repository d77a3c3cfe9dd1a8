import HcOs.Fs.DirRun
import Mathlib.Data.List.Find

/-!
# Names of the full length

`create_dir_entry` accepts names of up to 16 characters and copies them without the terminator.
In a shorter name the cleared entry supplies it.  A name of 16 characters fills its field, and
`strcmp` reads on into `i_no`, which follows the field: the name ends there only if the low byte of
`i_no` is 0.

`sync_dir_entry` takes a slot for free by its type, and `search_dir_entry` does not look at the
type.  So a slot of type `FT_UNKNOWN` can be found under a name, until it is overwritten.

* `searchDirEntry_eq`: what is found is the first slot with the name.
* `sync_free`: `sync_dir_entry` overwrites the first free slot in a direct block and nothing else,
  and `Wrote.directory`: what it leaves is a directory again.
* `search_after_sync`: the exact condition for the new name to be found and the others to be found
  as before.
-/

namespace HcOs.Fs

open HcOs.Lib HcOs.Sectors
open HcOs.Disk (maxLba)

variable {m disk all : Bytes} {part : Mounted} {d : Dir} {e : DirEntry} {name : Str}
  {p q k : ℕ}

/-! ## What `strcmp` sees of an entry -/

/-- A name that `create_dir_entry` accepts. -/
structure Accepted (name : Str) : Prop extends IsName name where
  short : name.length ≤ maxFileNameLen

/-- What follows the name. -/
theorem DirEntry.bytes_after (e : DirEntry) : e.bytes 16 = 0#8 ↔ e.iNo.toNat % 256 = 0 := by
  have hbyte : e.bytes 16 = BitVec.ofNat 8 e.iNo.toNat := by
    unfold bytes
    rw [Bytes.putWord_of_not_mem (by omega), Bytes.putWord_of_mem (by omega) (by omega)]
    show BitVec.ofNat 8 (e.iNo.toNat / 1) = _
    rw [Nat.div_one]
  rw [hbyte, ← BitVec.toNat_inj, BitVec.toNat_ofNat, BitVec.toNat_ofNat]

/-- The name of the entry has its terminator. -/
def DirEntry.Terminated (e : DirEntry) : Prop := e.name.length < 16 ∨ e.iNo.toNat % 256 = 0

/-- An entry is found under its own name only, and under that if it ends. -/
theorem DirEntry.strcmp_bytes (he : Accepted e.name) (hname : Accepted name) {a : ℕ}
    (hbytes : ∀ i, i < 24 → m (a + i) = e.bytes i) :
    strcmp m a name = 0 ↔ name = e.name ∧ e.Terminated := by
  have hshort := he.short
  have hshort' := hname.short
  unfold maxFileNameLen at hshort hshort'
  rw [strcmp_eq_zero_iff hname.noNul]
  constructor
  · intro hall
    have hsame : ∀ i, i < 16 → i ≤ name.length → e.name.getD i 0#8 = name.getD i 0#8 := by
      intro i hi hle
      rw [← hall i hle, hbytes i (by omega), e.bytes_field hi]
    by_cases hlen : name.length < 16
    · have heq : e.name = name :=
        name_eq_of_getD he.toIsName hname.toIsName fun i hi => hsame i (by omega) hi
      exact ⟨heq.symm, Or.inl (heq ▸ hlen)⟩
    · -- all 16 characters agree, and then comes the low byte of `i_no`
      have hend := hall 16 (by omega)
      rw [hbytes 16 (by omega), List.getD_eq_default _ _ (by omega)] at hend
      have heq : e.name = name := by
        refine name_eq_of_getD he.toIsName hname.toIsName fun i hi => ?_
        by_cases hi16 : i < 16
        · exact hsame i hi16 hi
        · rw [List.getD_eq_default _ _ (by omega), List.getD_eq_default _ _ (by omega)]
      exact ⟨heq.symm, Or.inr (e.bytes_after.mp hend)⟩
  · rintro ⟨rfl, hterm⟩ i hi
    rw [hbytes i (by omega)]
    by_cases hi16 : i < 16
    · exact e.bytes_field hi16
    · obtain rfl : i = 16 := by omega
      rw [List.getD_eq_default _ _ (by omega)]
      exact e.bytes_after.mpr (hterm.resolve_left (by omega))

/-- A slot that is clear has no name. -/
theorem strcmp_clear (hname : IsName name) {a : ℕ} (hclear : m a = 0#8) : strcmp m a name ≠ 0 := by
  rw [Ne, strcmp_eq_zero_iff hname.noNul]
  intro hall
  have h0 := hall 0 (Nat.zero_le _)
  obtain ⟨c, tail, rfl⟩ := List.exists_cons_of_ne_nil hname.nonempty
  rw [Nat.add_zero, hclear] at h0
  exact hname.noNul c List.mem_cons_self h0.symm

/-! ## Searching -/

/-- A slot of a directory: its sector and its index there. -/
abbrev Slot : Type := ℕ × ℕ

/-- Where the slot begins on the disk. -/
def slotPos (x : Slot) : ℕ := x.1 * 512 + x.2 * dirEntrySize

/-- The slot is found under the name. -/
def Match (disk : Bytes) (name : Str) (x : Slot) : Prop := strcmp disk (slotPos x) name = 0

instance (disk : Bytes) (name : Str) : DecidablePred (Match disk name) := fun x =>
  inferInstanceAs (Decidable (strcmp disk (slotPos x) name = 0))

/-- The two slots have the same 24 bytes. -/
def SameEntry (disk disk' : Bytes) (x y : Slot) : Prop :=
  ∀ i, i < 24 → disk' (slotPos y + i) = disk (slotPos x + i)

/-- The slots in the order in which `search_dir_entry` looks at them, from block `idx` on. -/
def slotsFrom (all : Bytes) : ℕ → ℕ → List Slot
  | 0, _ => []
  | left + 1, idx =>
    (if all.getWord (4 * idx) = 0 then []
      else (List.range' 0 21).map fun q => (all.getWord (4 * idx), q)) ++
      slotsFrom all left (idx + 1)

def slots (all : Bytes) : List Slot := slotsFrom all 140 0

variable {x y w : Slot}

theorem mem_slotsFrom {left idx : ℕ} :
    x ∈ slotsFrom all left idx ↔ x.2 < 21 ∧
      ∃ k, idx ≤ k ∧ k < idx + left ∧ all.getWord (4 * k) ≠ 0 ∧ all.getWord (4 * k) = x.1 := by
  induction left generalizing idx with
  | zero =>
    refine iff_of_false (fun h => by cases h) ?_
    rintro ⟨-, k, hk, hk', -⟩
    omega
  | succ left ih =>
    rw [slotsFrom, List.mem_append, ih]
    constructor
    · rintro (hx | ⟨hq, k, hk, hk', hrest⟩)
      · split_ifs at hx with h0
        · cases hx
        · obtain ⟨q, hq, rfl⟩ := List.mem_map.mp hx
          exact ⟨by simpa using List.mem_range'_1.mp hq, idx, Nat.le_refl idx, by omega, h0, rfl⟩
      · exact ⟨hq, k, by omega, by omega, hrest⟩
    · rintro ⟨hq, k, hk, hk', h0, hx⟩
      by_cases hki : k = idx
      · subst hki
        rw [if_neg h0]
        refine Or.inl (List.mem_map.mpr ⟨x.2, ?_, Prod.ext hx rfl⟩)
        exact List.mem_range'_1.mpr ⟨Nat.zero_le _, by omega⟩
      · exact Or.inr ⟨hq, k, by omega, by omega, h0, hx⟩

theorem mem_slots : x ∈ slots all ↔ x.2 < 21 ∧
    ∃ k, k < 140 ∧ all.getWord (4 * k) ≠ 0 ∧ all.getWord (4 * k) = x.1 := by
  unfold slots
  rw [mem_slotsFrom]
  refine and_congr_right fun _ => exists_congr fun k => ?_
  exact ⟨fun h => ⟨by omega, h.2.2⟩, fun h => ⟨Nat.zero_le k, by omega, h.2⟩⟩

theorem strcmp_congr {m' : Bytes} {a b : ℕ} (hname : Accepted name)
    (h : ∀ i, i < 24 → m' (b + i) = m (a + i)) :
    strcmp m' b name = 0 ↔ strcmp m a name = 0 := by
  have hshort := hname.short
  unfold maxFileNameLen at hshort
  rw [strcmp_eq_zero_iff hname.noNul, strcmp_eq_zero_iff hname.noNul]
  constructor
  · intro hall i hi
    rw [← h i (by omega)]
    exact hall i hi
  · intro hall i hi
    rw [h i (by omega)]
    exact hall i hi

theorem match_congr {disk' : Bytes} (hname : Accepted name) (h : SameEntry disk disk' x y) :
    Match disk' name y ↔ Match disk name x :=
  strcmp_congr hname h

/-- The buffer of `search_dir_entry` holds the sector. -/
theorem strcmp_read (hname : Accepted name) (hq : q < 21) :
    strcmp (zeros.copy 0 disk (p * 512) 512) (q * dirEntrySize) name = 0 ↔
      Match disk name (p, q) := by
  apply strcmp_congr hname
  intro i hi
  unfold slotPos dirEntrySize
  rw [Bytes.copy_of_mem (Nat.zero_le _) (by omega), Nat.sub_zero, Nat.add_assoc]

theorem searchSector_eq (buf : Bytes) (name : Str) (left idx : ℕ) :
    searchSector buf name left idx =
      (List.range' idx left).find? fun q => decide (strcmp buf (q * dirEntrySize) name = 0) := by
  induction left generalizing idx with
  | zero => rfl
  | succ left ih =>
    rw [searchSector, List.range'_succ, List.find?_cons, ih]
    by_cases h : strcmp buf (idx * dirEntrySize) name = 0
    · rw [if_pos h, decide_eq_true h]
    · rw [if_neg h, decide_eq_false h]

/-- What is copied out of a slot. -/
def entryOf (disk dirE : Bytes) (x : Slot) : Bytes := dirE.copy 0 disk (slotPos x) 24

theorem entryOf_read (disk dirE : Bytes) (hq : q < 21) :
    dirE.copy 0 (zeros.copy 0 disk (p * 512) 512) (q * dirEntrySize) 24 =
      entryOf disk dirE (p, q) := by
  funext i
  unfold entryOf slotPos dirEntrySize
  by_cases hi : i < 24
  · rw [Bytes.copy_of_mem (Nat.zero_le i) (by omega), Bytes.copy_of_mem (Nat.zero_le i) (by omega),
      Bytes.copy_of_mem (Nat.zero_le _) (by omega), Nat.sub_zero, Nat.sub_zero, ← Nat.add_assoc]
  · rw [Bytes.copy_of_not_mem (by omega), Bytes.copy_of_not_mem (by omega)]

theorem entryOf_eq_iff {disk' : Bytes} :
    (∀ dirE, entryOf disk' dirE y = entryOf disk dirE x) ↔ SameEntry disk disk' x y := by
  constructor
  · intro h i hi
    have hbyte := congrFun (h zeros) i
    unfold entryOf at hbyte
    rw [Bytes.copy_of_mem (Nat.zero_le i) (by omega), Bytes.copy_of_mem (Nat.zero_le i) (by omega),
      Nat.sub_zero] at hbyte
    exact hbyte
  · intro h dirE
    funext i
    unfold entryOf
    by_cases hi : i < 24
    · rw [Bytes.copy_of_mem (Nat.zero_le i) (by omega),
        Bytes.copy_of_mem (Nat.zero_le i) (by omega), Nat.sub_zero]
      exact h i hi
    · rw [Bytes.copy_of_not_mem (by omega), Bytes.copy_of_not_mem (by omega)]

/-- All blocks can be read. -/
def Readable (all : Bytes) : Prop := ∀ k, k < 140 → all.getWord (4 * k) ≤ maxLba

/-- The search in one block and the ones after it. -/
theorem searchBlocks_block (hsize : part.sb.dirEntrySize = 24) {left idx : ℕ} {dirE : Bytes}
    (h0 : all.getWord (4 * idx) ≠ 0) (hmax : all.getWord (4 * idx) ≤ maxLba)
    (hname : Accepted name) :
    searchBlocks part disk all name dirE (left + 1) idx =
      match ((List.range' 0 21).map fun q => (all.getWord (4 * idx), q)).find?
          fun x => decide (Match disk name x) with
      | some x => .ok (some (entryOf disk dirE x))
      | none => searchBlocks part disk all name dirE left (idx + 1) := by
  have hsector : searchSector (zeros.copy 0 disk (all.getWord (4 * idx) * 512) 512) name
      (sectorSize / 24) 0 = (List.range' 0 21).find?
        ((fun x => decide (Match disk name x)) ∘ fun q => (all.getWord (4 * idx), q)) := by
    rw [searchSector_eq]
    apply List.find?_congr
    intro q hq
    have hlt := (List.mem_range'_1.mp hq).2
    have hq21 : q < 21 := by
      unfold sectorSize at hlt
      omega
    exact decide_eq_decide.mpr (strcmp_read hname hq21)
  rw [searchBlocks, if_neg h0, ideRead_sector hmax, ok_bind, hsize, hsector, List.find?_map]
  cases hfind : (List.range' 0 21).find?
      ((fun x => decide (Match disk name x)) ∘ fun q => (all.getWord (4 * idx), q)) with
  | none => rfl
  | some q =>
    have hq21 : q < 21 := by simpa using List.mem_of_find?_eq_some hfind
    dsimp only [Option.map_some]
    rw [entryOf_read disk dirE hq21]

theorem searchBlocks_skip {left idx : ℕ} {dirE : Bytes} (h0 : all.getWord (4 * idx) = 0) :
    searchBlocks part disk all name dirE (left + 1) idx =
      searchBlocks part disk all name dirE left (idx + 1) := by
  rw [searchBlocks]
  exact if_pos h0

theorem searchBlocks_eq (hsize : part.sb.dirEntrySize = 24) (hname : Accepted name)
    (hread : Readable all) (dirE : Bytes) (left idx : ℕ) (hidx : idx + left = 140) :
    searchBlocks part disk all name dirE left idx =
      .ok (((slotsFrom all left idx).find? fun x => decide (Match disk name x)).map
        (entryOf disk dirE)) := by
  induction left generalizing idx with
  | zero => rfl
  | succ left ih =>
    have hnext := ih (idx + 1) (by omega)
    rw [slotsFrom, List.find?_append]
    by_cases h0 : all.getWord (4 * idx) = 0
    · rw [searchBlocks_skip h0, hnext, if_pos h0]
      rfl
    · rw [searchBlocks_block hsize h0 (hread idx (by omega)) hname, hnext, if_neg h0]
      cases ((List.range' 0 21).map fun q => (all.getWord (4 * idx), q)).find?
        fun x => decide (Match disk name x) <;> rfl

theorem ideRead_ok {devNo n b : ℕ} {buf r : Bytes} (h : ideRead disk devNo p buf b n = .ok r) :
    p ≤ maxLba := by
  unfold ideRead at h
  exact (assert_bind_eq_ok.mp h).1

/-- A search that finds nothing has read all blocks. -/
theorem readable_of_none (hsize : part.sb.dirEntrySize = 24) (hname : Accepted name)
    {dirE : Bytes} (left idx : ℕ)
    (h : searchBlocks part disk all name dirE left idx = .ok none) :
    ∀ k, idx ≤ k → k < idx + left → all.getWord (4 * k) ≤ maxLba := by
  induction left generalizing idx with
  | zero => exact fun k hk hk' => by omega
  | succ left ih =>
    have hboth : all.getWord (4 * idx) ≤ maxLba ∧
        searchBlocks part disk all name dirE left (idx + 1) = .ok none := by
      by_cases h0 : all.getWord (4 * idx) = 0
      · rw [searchBlocks_skip h0] at h
        exact ⟨by rw [h0]; exact Nat.zero_le _, h⟩
      · have hmax : all.getWord (4 * idx) ≤ maxLba := by
          rw [searchBlocks, if_neg h0] at h
          obtain ⟨buf, hread, -⟩ := bind_eq_ok.mp h
          exact ideRead_ok hread
        rw [searchBlocks_block hsize h0 hmax hname] at h
        split at h
        · cases h
        · exact ⟨hmax, h⟩
    intro k hk hk'
    by_cases hki : k = idx
    · rw [hki]
      exact hboth.1
    · exact ih (idx + 1) hboth.2 k (by omega) (by omega)

/-- **`search_dir_entry`** copies the first slot with the name. -/
theorem searchDirEntry_eq {inode : Inode} (hsize : part.sb.dirEntrySize = 24)
    (hname : Accepted name) (hall : allBlocks part inode disk = .ok all) (hread : Readable all)
    (dirE : Bytes) :
    searchDirEntry part inode disk name dirE =
      .ok (((slots all).find? fun x => decide (Match disk name x)).map (entryOf disk dirE)) := by
  unfold searchDirEntry
  rw [hall, ok_bind]
  exact searchBlocks_eq hsize hname hread dirE 140 0 rfl

/-! ## Directories -/

/-- The type that `sync_dir_entry` reads in slot `q` of sector `p`. -/
def slotType (disk : Bytes) (p q : ℕ) : ℕ := disk.getWord (p * 512 + q * dirEntrySize + 20)

/-- A directory as the code leaves it: entries of 24 bytes, and direct pointers that are in use come
first and are not that of the table. -/
structure Directory (d : Dir) : Prop where
  entrySize : d.part.sb.dirEntrySize = 24
  first : ∀ j k, j ≤ k → k < 12 → d.inode.iSectors k ≠ 0 → d.inode.iSectors j ≠ 0
  table : ∀ k, k < 12 → d.inode.iSectors k ≠ 0 → d.inode.iSectors k ≠ d.inode.iSectors 12

/-- A direct block has a free slot. -/
def HasFreeSlot (d : Dir) : Prop :=
  ∃ k q, k < 12 ∧ d.inode.iSectors k ≠ 0 ∧ q < 21 ∧
    slotType d.disk (d.inode.iSectors k) q = FileType.unknown.toNat

/-- The first `n` direct blocks are in use and have no free slot. -/
def FullTo (d : Dir) (n : ℕ) : Prop :=
  ∀ k, k < n → d.inode.iSectors k ≠ 0 ∧
    ∀ q, q < 21 → slotType d.disk (d.inode.iSectors k) q ≠ FileType.unknown.toNat

/-- The first free slot of the direct blocks: slot `q` of block `k`. -/
structure FirstFree (d : Dir) (k q : ℕ) : Prop where
  direct : k < 12
  inUse : d.inode.iSectors k ≠ 0
  slot : q < 21
  free : slotType d.disk (d.inode.iSectors k) q = FileType.unknown.toNat
  full : FullTo d k
  before : ∀ q', q' < q → slotType d.disk (d.inode.iSectors k) q' ≠ FileType.unknown.toNat

theorem FirstFree.unique {k' q' : ℕ} (h : FirstFree d k q) (h' : FirstFree d k' q') :
    k' = k ∧ q' = q := by
  have hk : k' = k := by
    rcases Nat.lt_trichotomy k' k with hlt | heq | hgt
    · exact absurd h'.free ((h.full k' hlt).2 q' h'.slot)
    · exact heq
    · exact absurd h.free ((h'.full k hgt).2 q h.slot)
  subst hk
  refine ⟨rfl, ?_⟩
  rcases Nat.lt_trichotomy q' q with hlt | heq | hgt
  · exact absurd h'.free (h.before q' hlt)
  · exact heq
  · exact absurd h.free (h'.before q hgt)

/-- `search_dir_entry` finds under no name what is in the slot, or the next slot with that name has
the same content. -/
def Unseen (d : Dir) (w : Slot) : Prop :=
  ∀ all name, allBlocks d.part d.inode d.disk = .ok all → Accepted name →
    ((slots all).find? fun x => decide (Match d.disk name x)) = some w →
    ∃ y, ((slots all).find? fun x => decide (x ≠ w) && decide (Match d.disk name x)) = some y ∧
      SameEntry d.disk d.disk w y

/-- The name is not in the directory. -/
def NotIn (d : Dir) (name : Str) : Prop :=
  ∀ dirE, searchDirEntry d.part d.inode d.disk name dirE = .ok none

theorem findFree_spec (buf : Bytes) (left idx : ℕ) :
    (∃ q, findFree buf left idx = some q ∧ q < idx + left ∧
        buf.getWord (q * dirEntrySize + 20) = FileType.unknown.toNat) ∨
      (findFree buf left idx = none ∧ ∀ q, idx ≤ q → q < idx + left →
        buf.getWord (q * dirEntrySize + 20) ≠ FileType.unknown.toNat) :=
  firstIndex_spec (fun _ => rfl) (fun _ _ => rfl) left idx

theorem findFree_first {buf : Bytes} (left idx : ℕ) (h : findFree buf left idx = some q) :
    ∀ q', idx ≤ q' → q' < q → buf.getWord (q' * dirEntrySize + 20) ≠ FileType.unknown.toNat := by
  induction left generalizing idx with
  | zero => cases h
  | succ left ih =>
    rw [findFree] at h
    split at h
    · cases h
      exact fun q' hq' hlt => by omega
    · next hno =>
      intro q' hq' hlt
      by_cases hqi : q' = idx
      · rw [hqi]
        exact hno
      · exact ih (idx + 1) h q' (by omega) hlt

theorem slotType_read (buf : Bytes) (hq : q < 21) :
    (buf.copy 0 disk (p * 512) 512).getWord (q * dirEntrySize + 20) = slotType disk p q := by
  unfold slotType dirEntrySize
  rw [Bytes.getWord_copy_of_mem (Nat.zero_le _) (by omega), Nat.sub_zero, Nat.add_assoc]

/-- The slot that `sync_dir_entry` has written. -/
structure Wrote (d d' : Dir) (pDe : Bytes) (k q : ℕ) : Prop where
  direct : k < 12
  inUse : d.inode.iSectors k ≠ 0
  slot : q < 21
  free : slotType d.disk (d.inode.iSectors k) q = FileType.unknown.toNat
  before : ∀ q', q' < q → slotType d.disk (d.inode.iSectors k) q' ≠ FileType.unknown.toNat
  part : d'.part = d.part
  sectors : ∀ i, d'.inode.iSectors i = d.inode.iSectors i
  disk : d'.disk = d.disk.copy (d.inode.iSectors k * 512 + q * dirEntrySize) pDe 0 24

/-- One pass of the loop over a block in use: it writes into a free slot, or the block has none. -/
theorem syncLoop_pass {idx : ℕ} (hsize : d.part.sb.dirEntrySize = 24) (pDe : Bytes)
    (hidx : idx < 12) (h0 : d.inode.iSectors idx ≠ 0) (hmax : d.inode.iSectors idx ≤ maxLba)
    (left : ℕ) (ioBuf : Bytes) :
    (∃ d' q, syncLoop pDe (directBlocks d.inode) (left + 1) idx { d with ioBuf } = .ok (true, d') ∧
      Wrote d d' pDe idx q) ∨
    (∃ buf, syncLoop pDe (directBlocks d.inode) (left + 1) idx { d with ioBuf } =
      syncLoop pDe (directBlocks d.inode) left (idx + 1) { d with ioBuf := buf }) ∧
    ∀ q, q < 21 → slotType d.disk (d.inode.iSectors idx) q ≠ FileType.unknown.toNat := by
  have hlba : (directBlocks d.inode).getWord (4 * idx) = d.inode.iSectors idx := by
    rw [directBlocks_word _ (by omega), if_pos hidx]
  rw [syncLoop]
  dsimp only
  rw [hlba, if_neg h0, ideRead_sector hmax, ok_bind, hsize]
  rcases findFree_spec (ioBuf.copy 0 d.disk (d.inode.iSectors idx * 512) 512) (512 / 24) 0 with
    ⟨q, hsome, hlt, htype⟩ | ⟨hnone, hmiss⟩
  · have hq : q < 21 := hlt
    rw [slotType_read _ hq] at htype
    rw [hsome]
    dsimp only
    rw [ideWrite_sector hmax, ok_bind, Bytes.copy_modify (by unfold dirEntrySize; omega)]
    refine Or.inl ⟨_, q, rfl, hidx, h0, hq, htype, fun q' hq' => ?_, rfl,
      fun i => Inode.iSectors_setSize _ _ _, rfl⟩
    rw [← slotType_read ioBuf (Nat.lt_trans hq' hq)]
    exact findFree_first _ _ hsome q' (Nat.zero_le q') hq'
  · rw [hnone]
    refine Or.inr ⟨⟨_, rfl⟩, fun q hq => ?_⟩
    rw [← slotType_read ioBuf hq]
    exact hmiss q (Nat.zero_le q) (by omega)

/-- The loop stops at the first block with a free slot. -/
theorem syncLoop_free (hsize : d.part.sb.dirEntrySize = 24) (pDe : Bytes) (hk : k < 12)
    (huse : ∀ j, j ≤ k → d.inode.iSectors j ≠ 0 ∧ d.inode.iSectors j ≤ maxLba) (hq : q < 21)
    (hfree : slotType d.disk (d.inode.iSectors k) q = FileType.unknown.toNat) (left idx : ℕ)
    (hidx : idx ≤ k) (hleft : k < idx + left) (hfull : FullTo d idx) (ioBuf : Bytes) :
    ∃ d' j q', syncLoop pDe (directBlocks d.inode) left idx { d with ioBuf } = .ok (true, d') ∧
      Wrote d d' pDe j q' ∧ FullTo d j := by
  induction left generalizing idx ioBuf with
  | zero => omega
  | succ left ih =>
    obtain ⟨h0, hmax⟩ := huse idx hidx
    rcases syncLoop_pass hsize pDe (by omega) h0 hmax left ioBuf with
      ⟨d', q', hloop, hwrote⟩ | ⟨⟨buf, hloop⟩, hmiss⟩
    · exact ⟨d', idx, q', hloop, hwrote, hfull⟩
    · have hne : idx ≠ k := by
        rintro rfl
        exact hmiss q hq hfree
      rw [hloop]
      refine ih (idx + 1) (by omega) (by omega) (fun j hj => ?_) buf
      by_cases hji : j = idx
      · rw [hji]
        exact ⟨h0, hmiss⟩
      · exact hfull j (by omega)

theorem Wrote.firstFree {d' : Dir} {pDe : Bytes} (hw : Wrote d d' pDe k q) (hfull : FullTo d k) :
    FirstFree d k q :=
  ⟨hw.direct, hw.inUse, hw.slot, hw.free, hfull, hw.before⟩

/-- With a free slot in a direct block, `sync_dir_entry` returns `true` and changes the first of
them. -/
theorem sync_free (hd : Directory d) (hfree : HasFreeSlot d)
    (hread : ∀ k, k < 12 → d.inode.iSectors k ≤ maxLba) (hsize : d.inode.iSize % 24 = 0)
    (pDe : Bytes) :
    ∃ d' k q, syncDirEntry d pDe = .ok (true, d') ∧ Wrote d d' pDe k q ∧ FirstFree d k q := by
  obtain ⟨k, q, hk, h0, hq, htype⟩ := hfree
  have huse : ∀ j, j ≤ k → d.inode.iSectors j ≠ 0 ∧ d.inode.iSectors j ≤ maxLba :=
    fun j hj => ⟨hd.first j k hj hk h0, hread j (by omega)⟩
  obtain ⟨d', j, q', hloop, hwrote, hfull⟩ := syncLoop_free hd.entrySize pDe hk huse hq htype 140 0
    (Nat.zero_le k) (by omega) (fun j hj => by omega) d.ioBuf
  refine ⟨d', j, q', ?_, hwrote, hwrote.firstFree hfull⟩
  unfold syncDirEntry
  rw [hd.entrySize, assert_bind_of hsize]
  exact hloop

/-! ## The table of pointers -/

theorem ideRead_congr {disk' buf : Bytes} {devNo b : ℕ}
    (h : ∀ i, i < 512 → disk' (p * 512 + i) = disk (p * 512 + i)) :
    ideRead disk' devNo p buf b 1 = ideRead disk devNo p buf b 1 := by
  by_cases hmax : p ≤ maxLba
  · have hcopy : buf.copy b disk' (p * 512) 512 = buf.copy b disk (p * 512) 512 := by
      funext i
      by_cases hi : b ≤ i ∧ i < b + 512
      · rw [Bytes.copy_of_mem hi.1 hi.2, Bytes.copy_of_mem hi.1 hi.2]
        exact h _ (by omega)
      · rw [Bytes.copy_of_not_mem (by omega), Bytes.copy_of_not_mem (by omega)]
    rw [ideRead_sector hmax, ideRead_sector hmax, hcopy]
  · unfold ideRead
    rw [assert_bind_of_not hmax, assert_bind_of_not hmax]

theorem allBlocks_direct {inode : Inode} (h : allBlocks part inode disk = .ok all)
    (hk : k < 12) : all.getWord (4 * k) = inode.iSectors k := by
  have hdirect : (directBlocks inode).getWord (4 * k) = inode.iSectors k := by
    rw [directBlocks_word _ (by omega), if_pos hk]
  unfold allBlocks at h
  split at h
  · have hmax := ideRead_ok h
    rw [ideRead_sector hmax] at h
    rw [← Except.ok.inj h, Bytes.getWord_copy_of_apart (by omega), hdirect]
  · rw [← Except.ok.inj h, hdirect]

variable {d' : Dir}

/-- The pointers are as they were. -/
theorem Wrote.allBlocks_eq (hd : Directory d) {pDe : Bytes} (hw : Wrote d d' pDe k q) :
    allBlocks d'.part d'.inode d'.disk = allBlocks d.part d.inode d.disk := by
  have hdirect : directBlocks d'.inode = directBlocks d.inode := by
    unfold directBlocks
    rw [show d'.inode.iSectors = d.inode.iSectors from funext hw.sectors]
  have hne := hd.table k hw.direct hw.inUse
  have hq := hw.slot
  have hkeep : ∀ i, i < 512 →
      d'.disk (d.inode.iSectors 12 * 512 + i) = d.disk (d.inode.iSectors 12 * 512 + i) := by
    intro i hi
    rw [hw.disk]
    unfold dirEntrySize
    exact Bytes.copy_of_not_mem (by omega)
  unfold allBlocks
  rw [hw.sectors, hw.part, hdirect, ideRead_congr hkeep]

/-- A name that is not in the directory is in none of its slots, and they can all be read. -/
theorem NotIn.absent (hd : Directory d) (hname : Accepted name) (h : NotIn d name) :
    ∃ all, allBlocks d.part d.inode d.disk = .ok all ∧ Readable all ∧
      ∀ x ∈ slots all, ¬Match d.disk name x := by
  have hsearch := h zeros
  unfold searchDirEntry at hsearch
  obtain ⟨all, hall, hblocks⟩ := bind_eq_ok.mp hsearch
  have hread : Readable all := fun k hk =>
    readable_of_none hd.entrySize hname 140 0 hblocks k (Nat.zero_le k) (by omega)
  have heq := h zeros
  rw [searchDirEntry_eq hd.entrySize hname hall hread, Except.ok.injEq, Option.map_eq_none_iff,
    List.find?_eq_none] at heq
  exact ⟨all, hall, hread, fun x hx => by simpa using heq x hx⟩

/-! ## The new slot -/

/-- Without the element that is not found first, the same one is found. -/
theorem find?_ne {A : Type} [DecidableEq A] {f : A → Bool} {w : A} {l : List A}
    (h : l.find? f ≠ some w) : (l.find? fun x => decide (x ≠ w) && f x) = l.find? f := by
  induction l with
  | nil => rfl
  | cons a l ih =>
    rw [List.find?_cons] at h
    rw [List.find?_cons, List.find?_cons]
    cases hfa : f a with
    | true =>
      rw [hfa] at h
      have hne : a ≠ w := fun heq => h (congrArg some heq)
      rw [decide_eq_true hne]
      rfl
    | false =>
      rw [hfa] at h
      rw [Bool.and_false]
      exact ih h

section

variable (hd : Directory d) (he : Accepted e.name) (hw : Wrote d d' e.bytes k q)
include hw

/-- The slot holds the entry. -/
theorem Wrote.bytes {i : ℕ} (hi : i < 24) :
    d'.disk (slotPos (d.inode.iSectors k, q) + i) = e.bytes i := by
  unfold slotPos
  dsimp only
  rw [hw.disk, Bytes.copy_of_mem (by omega) (by omega), Nat.zero_add, Nat.add_sub_cancel_left]

/-- The other slots are as they were. -/
theorem Wrote.other {x : Slot} (hx : x.2 < 21) (hne : x ≠ (d.inode.iSectors k, q)) :
    SameEntry d.disk d'.disk x x := by
  intro i hi
  have hq := hw.slot
  rw [hw.disk]
  apply Bytes.copy_of_not_mem
  unfold slotPos dirEntrySize
  by_cases hp : x.1 = d.inode.iSectors k
  · have hqq : x.2 ≠ q := fun h => hne (Prod.ext hp h)
    rw [hp]
    omega
  · omega

include he

theorem Wrote.match_iff (hname : Accepted name) :
    Match d'.disk name (d.inode.iSectors k, q) ↔ name = e.name ∧ e.Terminated :=
  DirEntry.strcmp_bytes he hname fun _ hi => hw.bytes hi

/-- A name that does not match the new entry is found in the other slots only. -/
theorem Wrote.find_eq (hname : Accepted name) (hno : ¬(name = e.name ∧ e.Terminated)) :
    ((slots all).find? fun x => decide (Match d'.disk name x)) =
      (slots all).find? fun x =>
        decide (x ≠ (d.inode.iSectors k, q)) && decide (Match d.disk name x) := by
  apply List.find?_congr
  intro x hx
  by_cases hslot : x = (d.inode.iSectors k, q)
  · rw [hslot, decide_eq_false fun h => hno ((hw.match_iff he hname).mp h),
      decide_eq_false (not_not_intro rfl), Bool.false_and]
  · rw [decide_eq_true hslot, Bool.true_and]
    exact decide_eq_decide.mpr (match_congr hname (hw.other (mem_slots.mp hx).1 hslot))

include hd

theorem Wrote.search_eq (hname : Accepted name) (hno : ¬(name = e.name ∧ e.Terminated))
    (hall : allBlocks d.part d.inode d.disk = .ok all) (hread : Readable all) (dirE : Bytes) :
    searchDirEntry d'.part d'.inode d'.disk name dirE =
      .ok (((slots all).find? fun x =>
        decide (x ≠ (d.inode.iSectors k, q)) && decide (Match d.disk name x)).map
          (entryOf d.disk dirE)) := by
  have hsize : d'.part.sb.dirEntrySize = 24 := hw.part ▸ hd.entrySize
  rw [searchDirEntry_eq hsize hname ((hw.allBlocks_eq hd).trans hall) hread,
    hw.find_eq he hname hno]
  cases hfind : (slots all).find? fun x =>
      decide (x ≠ (d.inode.iSectors k, q)) && decide (Match d.disk name x) with
  | none => rfl
  | some y =>
    have hy := (mem_slots.mp (List.mem_of_find?_eq_some hfind)).1
    have hne : y ≠ (d.inode.iSectors k, q) := by
      have hboth := List.find?_some hfind
      rw [Bool.and_eq_true, decide_eq_true_iff] at hboth
      exact hboth.1
    rw [Option.map_some, Option.map_some, entryOf_eq_iff.mpr (hw.other hy hne) dirE]

/-- If its name ends, the new entry is found. -/
theorem Wrote.search_new (habsent : NotIn d e.name) (hterm : e.Terminated) (dirE : Bytes) :
    ∃ r, searchDirEntry d'.part d'.inode d'.disk e.name dirE = .ok (some r) ∧
      r.getWord 16 = e.iNo.toNat ∧ r.getWord 20 = e.fType.toNat := by
  obtain ⟨all, hall, hread, hmiss⟩ := habsent.absent hd he
  have hsize : d'.part.sb.dirEntrySize = 24 := hw.part ▸ hd.entrySize
  have hhere : Match d'.disk e.name (d.inode.iSectors k, q) := (hw.match_iff he he).mpr ⟨rfl, hterm⟩
  have hk := hw.direct
  have hmem : (d.inode.iSectors k, q) ∈ slots all := by
    refine mem_slots.mpr ⟨hw.slot, k, by omega, ?_⟩
    rw [allBlocks_direct hall hk]
    exact ⟨hw.inUse, rfl⟩
  rw [searchDirEntry_eq hsize he ((hw.allBlocks_eq hd).trans hall) hread]
  cases hfind : (slots all).find? fun x => decide (Match d'.disk e.name x) with
  | none =>
    have hno := List.find?_eq_none.mp hfind _ hmem
    exact absurd (decide_eq_true hhere) hno
  | some x =>
    -- no other slot is found under the name
    have hx := List.mem_of_find?_eq_some hfind
    have hslot : x = (d.inode.iSectors k, q) := by
      by_contra hne
      have hhit : Match d'.disk e.name x := by simpa using List.find?_some hfind
      exact hmiss x hx ((match_congr he (hw.other (mem_slots.mp hx).1 hne)).mp hhit)
    subst hslot
    have hentry : ∀ i, i < 24 → entryOf d'.disk dirE (d.inode.iSectors k, q) i = e.bytes i := by
      intro i hi
      unfold entryOf
      rw [Bytes.copy_of_mem (Nat.zero_le i) (by omega), Nat.sub_zero]
      exact hw.bytes hi
    refine ⟨_, rfl, ?_, ?_⟩
    · rw [← e.bytes_iNo]
      exact Bytes.getWord_congr fun k hk => hentry _ (by omega)
    · rw [← e.bytes_fType]
      exact Bytes.getWord_congr fun k hk => hentry _ (by omega)

/-- Other names are found as before, if the slot was not found under any of them. -/
theorem Wrote.others_iff (habsent : NotIn d e.name) :
    (∀ name dirE, Accepted name → name ≠ e.name →
        searchDirEntry d'.part d'.inode d'.disk name dirE =
          searchDirEntry d.part d.inode d.disk name dirE) ↔
      Unseen d (d.inode.iSectors k, q) := by
  obtain ⟨all, hall, hread, hmiss⟩ := habsent.absent hd he
  have hnew : ∀ {name : Str}, name ≠ e.name → ¬(name = e.name ∧ e.Terminated) :=
    fun hne h => hne h.1
  constructor
  · intro h all' name hall' hname hfind
    rw [hall] at hall'
    cases hall'
    have hne : name ≠ e.name := by
      rintro rfl
      have hhit : Match d.disk e.name (d.inode.iSectors k, q) := by simpa using List.find?_some hfind
      exact hmiss _ (List.mem_of_find?_eq_some hfind) hhit
    have hsame : ∀ dirE, (((slots all).find? fun x => decide (x ≠ (d.inode.iSectors k, q)) &&
        decide (Match d.disk name x)).map (entryOf d.disk dirE)) =
          some (entryOf d.disk dirE (d.inode.iSectors k, q)) := by
      intro dirE
      have heq := h name dirE hname hne
      rw [hw.search_eq hd he hname (hnew hne) hall hread,
        searchDirEntry_eq hd.entrySize hname hall hread, hfind] at heq
      exact Except.ok.inj heq
    obtain ⟨y, hy, -⟩ := Option.map_eq_some_iff.mp (hsame zeros)
    refine ⟨y, hy, entryOf_eq_iff.mp fun dirE => ?_⟩
    have heq := hsame dirE
    rw [hy] at heq
    exact Option.some.inj heq
  · intro h name dirE hname hne
    rw [hw.search_eq hd he hname (hnew hne) hall hread,
      searchDirEntry_eq hd.entrySize hname hall hread]
    by_cases hfind : ((slots all).find? fun x => decide (Match d.disk name x)) =
        some (d.inode.iSectors k, q)
    · obtain ⟨y, hy, hsame⟩ := h all name hall hname hfind
      rw [hfind, hy, Option.map_some, Option.map_some, entryOf_eq_iff.mpr hsame dirE]
    · rw [find?_ne hfind]

omit he in
/-- What is left is a directory again. -/
theorem Wrote.directory : Directory d' := by
  refine ⟨hw.part ▸ hd.entrySize, fun j i hji hi => ?_, fun i hi => ?_⟩
  · rw [hw.sectors, hw.sectors]
    exact hd.first j i hji hi
  · rw [hw.sectors, hw.sectors]
    exact hd.table i hi

end

/-! ## Main result -/

theorem NotIn.readable (hd : Directory d) (hname : Accepted name) (h : NotIn d name) (hk : k < 12) :
    d.inode.iSectors k ≤ maxLba := by
  obtain ⟨all, hall, hread, -⟩ := h.absent hd hname
  rw [← allBlocks_direct hall hk]
  exact hread k (by omega)

/-- The new name is found with its data, and all others as before. -/
structure Survives (d d' : Dir) (e : DirEntry) : Prop where
  found : ∀ dirE, ∃ r, searchDirEntry d'.part d'.inode d'.disk e.name dirE = .ok (some r) ∧
    r.getWord 16 = e.iNo.toNat ∧ r.getWord 20 = e.fType.toNat
  others : ∀ name dirE, Accepted name → name ≠ e.name →
    searchDirEntry d'.part d'.inode d'.disk name dirE =
      searchDirEntry d.part d.inode d.disk name dirE

/-- If its name does not end, the new entry is not found. -/
theorem Wrote.notIn (hd : Directory d) (he : Accepted e.name) (habsent : NotIn d e.name)
    (hw : Wrote d d' e.bytes k q) (hno : ¬e.Terminated) : NotIn d' e.name := by
  obtain ⟨all, hall, hread, hmiss⟩ := habsent.absent hd he
  intro dirE
  rw [hw.search_eq hd he he (fun h => hno h.2) hall hread]
  have hnone : ((slots all).find? fun x => decide (x ≠ (d.inode.iSectors k, q)) &&
      decide (Match d.disk e.name x)) = none := by
    rw [List.find?_eq_none]
    intro x hx
    rw [decide_eq_false (hmiss x hx), Bool.and_false]
    exact Bool.false_ne_true
  rw [hnone]
  rfl

theorem Wrote.survives_iff (hd : Directory d) (he : Accepted e.name) (habsent : NotIn d e.name)
    (hw : Wrote d d' e.bytes k q) :
    Survives d d' e ↔ e.Terminated ∧ Unseen d (d.inode.iSectors k, q) := by
  constructor
  · intro h
    refine ⟨?_, (hw.others_iff hd he habsent).mp h.others⟩
    by_contra hno
    obtain ⟨r, hr, -⟩ := h.found zeros
    rw [hw.notIn hd he habsent hno zeros] at hr
    cases hr
  · rintro ⟨hterm, hunseen⟩
    exact ⟨hw.search_new hd he habsent hterm, (hw.others_iff hd he habsent).mpr hunseen⟩

/-- **Names.**  After `create_dir_entry` into a cleared entry and a `sync_dir_entry` that returns
`true` into a directory with a free slot in a direct block, the name is found with its data and
other names are found as before, exactly if the name has fewer than 16 characters or the low byte
of `i_no` is 0, and the first free slot was not found under any name (or there was the same entry
once more behind it). -/
theorem search_after_sync {pDe : Bytes} (hd : Directory d) (hfree : HasFreeSlot d)
    (he : Accepted e.name) (habsent : NotIn d e.name)
    (hcreate : createDirEntry e.name e.iNo.toNat e.fType zeros = .ok pDe)
    (hsync : syncDirEntry d pDe = .ok (true, d')) :
    Survives d d' e ↔ (e.name.length < 16 ∨ e.iNo.toNat % 256 = 0) ∧
      ∀ k q, FirstFree d k q → Unseen d (d.inode.iSectors k, q) := by
  have hbytes : e.bytes = pDe := by
    rw [createDirEntry_eq he.short] at hcreate
    exact Except.ok.inj hcreate
  have hsize : d.inode.iSize % 24 = 0 := by
    unfold syncDirEntry at hsync
    rw [hd.entrySize] at hsync
    exact (assert_bind_eq_ok.mp hsync).1
  obtain ⟨d₁, k, q, hsync₁, hw, hslot⟩ :=
    sync_free hd hfree (fun k hk => habsent.readable hd he hk) hsize pDe
  obtain rfl : d₁ = d' := by
    rw [hsync₁] at hsync
    exact (Prod.mk.inj (Except.ok.inj hsync)).2
  rw [← hbytes] at hw
  rw [hw.survives_iff hd he habsent]
  refine and_congr_right fun _ => ⟨fun h k' q' hslot' => ?_, fun h => h k q hslot⟩
  obtain ⟨rfl, rfl⟩ := hslot.unique hslot'
  exact h

/-! ## The root directory -/

section

variable {ptrs : List ℕ} {es : List DirEntry} (hl : Layout d ptrs es)
include hl

theorem Layout.direct_eq (hk : k < 12) (h0 : d.inode.iSectors k ≠ 0) :
    ptrs[k]? = some (d.inode.iSectors k) := by
  rw [hl.direct k hk] at h0 ⊢
  exact getD_ne_zero h0

theorem Layout.directory (hgeo : Geometry d.part) : Directory d := by
  refine ⟨hgeo.entrySize, fun j k hjk hk h0 => ?_, fun k hk h0 => ?_⟩
  · obtain ⟨hlen, -⟩ := List.getElem?_eq_some_iff.mp (hl.direct_eq hk h0)
    rw [hl.direct j (by omega), List.getD_eq_getElem _ _ (by omega)]
    exact (hl.stored.blocks j _ (List.getElem?_eq_getElem (by omega))).1
  · by_cases hlen : ptrs.length ≤ 12
    · rw [hl.noTable hlen]
      exact h0
    · intro heq
      exact (hl.table (by omega)).2.2.1 (heq ▸ List.mem_of_getElem? (hl.direct_eq hk h0))

/-- Where all entries have a type, a free slot is clear, and is found under no name. -/
theorem Layout.unseen (hknown : ∀ x ∈ es, x.fType ≠ 0#8) (hslot : FirstFree d k q) :
    Unseen d (d.inode.iSectors k, q) := by
  intro all name _ hname hfind
  obtain ⟨-, -, hholds⟩ := hl.stored.blocks k _ (hl.direct_eq hslot.direct hslot.inUse)
  have hfree := (hholds.free_iff hknown hslot.slot).mp hslot.free
  have hbyte := hholds.byte hslot.slot (show 0 < 24 by omega)
  rw [slotBytes_none (List.getElem?_eq_none_iff.mpr hfree), Nat.add_zero] at hbyte
  have hhit : Match d.disk name (d.inode.iSectors k, q) := by simpa using List.find?_some hfind
  exact absurd hhit (strcmp_clear hname.toIsName hbyte)

end

/-- The root directory of a fresh file system on the small partition. -/
def smallRoot : Dir := (rootRun smallPartition zeros zeros zeros).dir

theorem smallRoot_layout : Geometry smallRoot.part ∧ smallRoot.inode.iSize = 48 ∧
    ∃ ptrs, Layout smallRoot ptrs dots := by
  have hstart := rootRun_start smallPartition_fits zeros zeros zeros
  have hinv := rootStart_inv smallPartition_fits hstart
  exact ⟨hinv.geo, hinv.size, hinv.layout⟩

theorem smallRoot_directory : Directory smallRoot ∧ HasFreeSlot smallRoot := by
  obtain ⟨hgeo, -, ptrs, hl⟩ := smallRoot_layout
  have hknown : ∀ x ∈ dots, x.fType ≠ 0#8 := by decide
  have hlen : 0 < ptrs.length := by
    have hroom := hl.stored.room
    have hdots : dots.length = 2 := rfl
    omega
  obtain ⟨h0, -, hholds⟩ := hl.stored.blocks 0 _ (List.getElem?_eq_getElem hlen)
  have hdirect := hl.direct 0 (by omega)
  rw [List.getD_eq_getElem _ _ hlen] at hdirect
  refine ⟨hl.directory hgeo, 0, 2, by omega, ?_, by omega, ?_⟩
  · rw [hdirect]
    exact h0
  · rw [hdirect]
    exact (hholds.free_iff hknown (by omega)).mpr (Nat.le_refl 2)

theorem smallRoot_notIn (hname : IsName name) (hdot : name ≠ [46#8]) (hdots : name ≠ [46#8, 46#8]) :
    NotIn smallRoot name := by
  obtain ⟨hgeo, -, ptrs, hl⟩ := smallRoot_layout
  intro dirE
  rcases search_spec hgeo hl hname dirE with ⟨x, hx, hxn, -⟩ | ⟨hnone, -⟩
  · rcases (dots_data x hx).1 with h | h
    · exact absurd (hxn.symm.trans h) hdot
    · exact absurd (hxn.symm.trans h) hdots
  · exact hnone

theorem smallRoot_sync (pDe : Bytes) :
    ∃ d' k q, syncDirEntry smallRoot pDe = .ok (true, d') ∧ Wrote smallRoot d' pDe k q := by
  obtain ⟨hd, hfree⟩ := smallRoot_directory
  obtain ⟨-, hsize, -⟩ := smallRoot_layout
  have hname : Accepted [97#8] := ⟨⟨by decide, by decide⟩, by decide⟩
  have hnot := smallRoot_notIn hname.toIsName (by decide) (by decide)
  obtain ⟨d', k, q, hsync, hw, -⟩ :=
    sync_free hd hfree (fun k hk => hnot.readable hd hname hk) (by rw [hsize]) pDe
  exact ⟨d', k, q, hsync, hw⟩

/-- A name of 16 characters, and a file with that name. -/
def longName : Str := List.replicate 16 97#8

def longEntry (iNo : BitVec 32) : DirEntry := ⟨longName, iNo, 1#8⟩

theorem longName_accepted : Accepted longName := ⟨⟨by decide, by decide⟩, by decide⟩

theorem longName_notIn : NotIn smallRoot longName :=
  smallRoot_notIn longName_accepted.toIsName (by decide) (by decide)

theorem search_after_sync_256 : ∃ d',
    syncDirEntry smallRoot (longEntry 256#32).bytes = .ok (true, d') ∧
    (Survives smallRoot d' (longEntry 256#32) ↔
      (longName.length < 16 ∨ (256#32).toNat % 256 = 0) ∧
        ∀ k q, FirstFree smallRoot k q → Unseen smallRoot (smallRoot.inode.iSectors k, q)) := by
  obtain ⟨hd, hfree⟩ := smallRoot_directory
  obtain ⟨d', k, q, hsync, -⟩ := smallRoot_sync (longEntry 256#32).bytes
  have hcreate := createDirEntry_eq (e := longEntry 256#32) longName_accepted.short
  exact ⟨d', hsync, search_after_sync hd hfree longName_accepted longName_notIn hcreate hsync⟩

/-- With `i_no` 1 the name is lost. -/
theorem long_name_lost : Directory smallRoot ∧ HasFreeSlot smallRoot ∧ Accepted longName ∧
    NotIn smallRoot longName ∧ ∃ pDe d', createDirEntry longName 1 1#8 zeros = .ok pDe ∧
      syncDirEntry smallRoot pDe = .ok (true, d') ∧ NotIn d' longName := by
  obtain ⟨hd, hfree⟩ := smallRoot_directory
  obtain ⟨d', k, q, hsync, hw⟩ := smallRoot_sync (longEntry 1#32).bytes
  have hcreate := createDirEntry_eq (e := longEntry 1#32) longName_accepted.short
  have hno : ¬(longEntry 1#32).Terminated := by
    unfold DirEntry.Terminated
    decide
  refine ⟨hd, hfree, longName_accepted, longName_notIn, _, d', hcreate, hsync, ?_⟩
  exact Wrote.notIn (e := longEntry 1#32) hd longName_accepted longName_notIn hw hno

end HcOs.Fs
