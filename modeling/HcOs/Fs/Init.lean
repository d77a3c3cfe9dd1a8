import HcOs.Device.PartitionScan

/-!
# Looking for file systems (`filesys_init` of `fs/fs.c`)

`filesys_init` walks over the channels, over the disks of a channel and over the twelve partitions
of a slave disk, and formats the partitions without a file system.  The index of the partition is
set to 0 before the first of these loops and nowhere else, so on the second channel the inner loop
is not entered.

All allocations are granted.  The master disks are neither read nor written, so a channel stands for
its slave disk.

* `filesysInit_iff`: the partitions of all channels carry the magic number afterwards exactly with
  one channel, or when those of the second one carried it before.
-/

namespace HcOs.Fs

open HcOs.Lib HcOs.Sectors
open HcOs.Disk (maxLba)
open HcOs.Ide (Hd Tag)

/-! ## The program -/

/-- The pointer `part`: an index into `prim_parts` or `logic_parts`. -/
structure PartPtr where
  logic : Bool
  idx : ℕ

def partAt (hd : Hd) (p : PartPtr) : Partition :=
  if p.logic then hd.logicParts p.idx else hd.primParts p.idx

/-- The body of the loop over the partitions. -/
def checkPart (part : Partition) (pad disk : Bytes) : Except Halt Bytes :=
  if part.secCnt ≠ 0 then do
    let sbBuf ← ideRead disk 1 ((part.startLba + 1) % 2 ^ 32) zeros 0 1
    if (SuperBlock.ofBytes sbBuf).magic = 0x19590318 then .ok disk
    else partitionFormat part pad true disk
  else .ok disk

/-- `while(part_idx < 12)`; the result is `part_idx` and the disk. -/
def partLoop (hd : Hd) (pad : ℕ → Bytes) : ℕ → ℕ → PartPtr → Bytes → Except Halt (ℕ × Bytes)
  | 0, _, _, _ => .error .noReturn
  | fuel + 1, partIdx, part, disk =>
    if partIdx < 12 then do
      let part := if partIdx = 4 then ⟨true, 0⟩ else part
      let disk ← checkPart (partAt hd part) (pad partIdx) disk
      partLoop hd pad fuel ((partIdx + 1) % 2 ^ 8) { part with idx := part.idx + 1 } disk
    else .ok (partIdx, disk)

/-- The loop over the disks of a channel, with `left` of them to go; the first one is skipped. -/
def diskLoop (hd : Hd) (pad : ℕ → Bytes) : ℕ → ℕ → ℕ → Bytes → Except Halt (ℕ × Bytes)
  | 0, _, partIdx, disk => .ok (partIdx, disk)
  | left + 1, devNo, partIdx, disk =>
    if devNo = 0 then diskLoop hd pad left (devNo + 1) partIdx disk
    else do
      let (partIdx, disk) ← partLoop hd pad 13 partIdx ⟨false, 0⟩ disk
      diskLoop hd pad left (devNo + 1) partIdx disk

/-- The loop over the channels, with `left` of them to go. -/
def searchLoop (hds : ℕ → Hd) (pad : ℕ → ℕ → Bytes) :
    ℕ → ℕ → ℕ → (ℕ → Bytes) → Except Halt (ℕ → Bytes)
  | 0, _, _, disks => .ok disks
  | left + 1, channelNo, partIdx, disks => do
    let (partIdx, disk) ← diskLoop (hds channelNo) (pad channelNo) 2 0 partIdx (disks channelNo)
    searchLoop hds pad left (channelNo + 1) partIdx (Function.update disks channelNo disk)

/-- `list_traversal` with `mount_partition`: up to the first partition of that name. -/
def mountFirst (hds : ℕ → Hd) (disks : ℕ → Bytes) (name : String) :
    List Tag → Except Halt (Option Mounted)
  | [] => .ok none
  | t :: ts => do
    match ← mountPartition (partAt (hds t.channel) ⟨t.logic, t.idx⟩) name (fun _ => true)
        (disks t.channel) with
    | some m => .ok (some m)
    | none => mountFirst hds disks name ts

/-- `filesys_init`: the disks, and what mounting the default partition returns.  Mounting only reads
the disks, so they are final also where it panics. -/
def filesysInit (channelCnt : ℕ) (hds : ℕ → Hd) (partitionList : List Tag) (pad : ℕ → ℕ → Bytes)
    (disks : ℕ → Bytes) : Except Halt ((ℕ → Bytes) × Except Halt (Option Mounted)) := do
  let disks ← searchLoop hds pad channelCnt 0 0 disks
  .ok (disks, mountFirst hds disks "sdb1" partitionList)

/-! ## One partition -/

variable {part part' : Partition} {pad disk disk' : Bytes}

/-- The super block of the partition carries the magic number. -/
def HasMagic (disk : Bytes) (part : Partition) : Prop :=
  disk.getWord ((part.startLba + 1) * 512) = 0x19590318

instance : Decidable (HasMagic disk part) := inferInstanceAs (Decidable (_ = _))

/-- The byte `a` of the disk lies in the partition. -/
def InPart (part : Partition) (a : ℕ) : Prop :=
  part.startLba * 512 ≤ a ∧ a < (part.startLba + part.secCnt) * 512

/-- The disk after one round of the loop. -/
def checked (part : Partition) (pad disk : Bytes) : Bytes :=
  if part.secCnt = 0 ∨ HasMagic disk part then disk else formatted part pad disk

theorem formatted_outside (h : Fits part) {a : ℕ} (ha : ¬ InPart part a) :
    formatted part pad disk a = disk a := by
  obtain ⟨hlen, -, -, -, -, hroom⟩ := blockBitmap_bounds h
  unfold InPart at ha
  exact formatted_other h pad disk (by omega)

theorem formatted_hasMagic (h : Fits part) : HasMagic (formatted part pad disk) part := by
  have hsb : SuperBlock.ofBytes ((superBlock part).toBytes pad) = superBlock part :=
    SuperBlock.ofBytes_toBytes _ (superBlock_words_lt h)
  have hword : (formatted part pad disk).getWord ((part.startLba + 1) * 512) =
      ((superBlock part).toBytes pad).getWord 0 :=
    Bytes.getWord_congr fun k hk => by
      rw [formatted_superBlock h pad disk (by omega), Nat.zero_add]
  unfold HasMagic
  rw [hword]
  exact congrArg SuperBlock.magic hsb

/-- The magic number is inside the partition. -/
theorem HasMagic.congr (h : Fits part) (heq : ∀ a, InPart part a → disk' a = disk a) :
    HasMagic disk' part ↔ HasMagic disk part := by
  have hlarge := h.large
  have hword : disk'.getWord ((part.startLba + 1) * 512) = disk.getWord ((part.startLba + 1) * 512) :=
    Bytes.getWord_congr fun k hk => heq _ ⟨by omega, by omega⟩
  unfold HasMagic
  rw [hword]

theorem checkPart_eq (h : part.secCnt ≠ 0 → Fits part) :
    checkPart part pad disk = .ok (checked part pad disk) := by
  unfold checkPart checked
  by_cases h0 : part.secCnt = 0
  · rw [if_neg (not_not_intro h0), if_pos (Or.inl h0)]
  · have hfits := h h0
    have hlarge := hfits.large
    have hdisk := hfits.onDisk
    have hmax : maxLba = 163839 := rfl
    have hmagic : (SuperBlock.ofBytes (zeros.copy 0 disk ((part.startLba + 1) * 512) (1 * 512))).magic =
        disk.getWord ((part.startLba + 1) * 512) := by
      unfold SuperBlock.ofBytes
      dsimp only
      rw [Bytes.getWord_copy_of_mem (Nat.le_refl 0) (by omega), Nat.sub_self, Nat.add_zero]
    rw [if_pos h0, Nat.mod_eq_of_lt (by omega), ideRead_eq (Nat.le_refl 1) (by omega), ok_bind, hmagic]
    by_cases hm : HasMagic disk part
    · rw [if_pos (Or.inr hm)]
      exact if_pos hm
    · rw [if_neg (not_or_intro h0 hm), ← partitionFormat_eq hfits pad disk]
      exact if_neg hm

theorem checked_outside (h : part.secCnt ≠ 0 → Fits part) {a : ℕ}
    (ha : part.secCnt ≠ 0 → ¬ InPart part a) : checked part pad disk a = disk a := by
  unfold checked
  split
  · rfl
  · next hne =>
    have h0 : part.secCnt ≠ 0 := fun h0 => hne (Or.inl h0)
    exact formatted_outside (h h0) (ha h0)

theorem checked_hasMagic (h : part.secCnt ≠ 0 → Fits part) (h0 : part.secCnt ≠ 0) :
    HasMagic (checked part pad disk) part := by
  unfold checked
  split
  · next hor => exact hor.resolve_left h0
  · exact formatted_hasMagic (h h0)

theorem checked_of_hasMagic (hm : HasMagic disk part) : checked part pad disk = disk :=
  if_pos (Or.inr hm)

/-! ## The partitions of a disk -/

variable {hd : Hd} {pads : ℕ → Bytes} {k : ℕ}

/-- The partitions in the order of the loop. -/
def parts (hd : Hd) (i : ℕ) : Partition := if i < 4 then hd.primParts i else hd.logicParts (i - 4)

/-- The recorded partitions fit, and no two of them overlap. -/
structure PartsOk (hd : Hd) : Prop where
  fits : ∀ i, i < 12 → (parts hd i).secCnt ≠ 0 → Fits (parts hd i)
  disjoint : ∀ i j, i < 12 → j < 12 → i ≠ j → (parts hd i).secCnt ≠ 0 → (parts hd j).secCnt ≠ 0 →
    ∀ a, InPart (parts hd i) a → ¬ InPart (parts hd j) a

/-- What the loop has done to the disk after `k` rounds. -/
structure Searched (hd : Hd) (disk : Bytes) (k : ℕ) (disk' : Bytes) : Prop where
  magic : ∀ i, i < k → (parts hd i).secCnt ≠ 0 → HasMagic disk' (parts hd i)
  later : ∀ i, k ≤ i → i < 12 → (parts hd i).secCnt ≠ 0 → ∀ a, InPart (parts hd i) a → disk' a = disk a
  kept : ∀ i, i < 12 → (parts hd i).secCnt ≠ 0 → HasMagic disk (parts hd i) →
    ∀ a, InPart (parts hd i) a → disk' a = disk a
  outside : ∀ a, (∀ i, i < 12 → (parts hd i).secCnt ≠ 0 → ¬ InPart (parts hd i) a) → disk' a = disk a

theorem Searched.start (hd : Hd) (disk : Bytes) : Searched hd disk 0 disk where
  magic _ hi := absurd hi (Nat.not_lt_zero _)
  later _ _ _ _ _ _ := rfl
  kept _ _ _ _ _ _ := rfl
  outside _ _ := rfl

/-- A round changes no other partition. -/
theorem checked_other (hok : PartsOk hd) (hk : k < 12) {i : ℕ} (hi : i < 12) (hne : i ≠ k)
    (h0 : (parts hd i).secCnt ≠ 0) {a : ℕ} (ha : InPart (parts hd i) a) :
    checked (parts hd k) pad disk a = disk a :=
  checked_outside (hok.fits k hk) fun hk0 => hok.disjoint i k hi hk hne h0 hk0 a ha

theorem Searched.step (hok : PartsOk hd) (hk : k < 12) (h : Searched hd disk k disk') :
    Searched hd disk (k + 1) (checked (parts hd k) pad disk') where
  magic i hi h0 := by
    by_cases hik : i = k
    · rw [hik] at h0 ⊢
      exact checked_hasMagic (hok.fits k hk) h0
    · have hi12 : i < 12 := by omega
      rw [HasMagic.congr (hok.fits i hi12 h0) fun a ha => checked_other hok hk hi12 hik h0 ha]
      exact h.magic i (by omega) h0
  later i hi hi12 h0 a ha := by
    rw [checked_other hok hk hi12 (by omega) h0 ha]
    exact h.later i (by omega) hi12 h0 a ha
  kept i hi h0 hm a ha := by
    by_cases hik : i = k
    · -- the round finds the magic number of the original disk
      have hm' : HasMagic disk' (parts hd i) :=
        (HasMagic.congr (hok.fits i hi h0) (h.later i (by omega) hi h0)).mpr hm
      rw [hik] at hm'
      rw [checked_of_hasMagic hm']
      exact h.kept i hi h0 hm a ha
    · rw [checked_other hok hk hi hik h0 ha]
      exact h.kept i hi h0 hm a ha
  outside a ha := by
    rw [checked_outside (hok.fits k hk) fun h0 => ha k hk h0]
    exact h.outside a ha

/-! ## The loops -/

/-- The pointer at the start of a round. -/
def ptrAt (k : ℕ) : PartPtr := if k ≤ 4 then ⟨false, k⟩ else ⟨true, k - 4⟩

theorem partAt_ptrAt :
    partAt hd (if k = 4 then ⟨true, 0⟩ else ptrAt k) = parts hd k := by
  unfold ptrAt parts
  by_cases h4 : k = 4
  · rw [if_pos h4, if_neg (by omega), h4]
    rfl
  · rw [if_neg h4]
    by_cases hlt : k < 4
    · rw [if_pos (by omega), if_pos hlt]
      rfl
    · rw [if_neg (by omega), if_neg hlt]
      rfl

theorem ptrAt_succ :
    { (if k = 4 then ⟨true, 0⟩ else ptrAt k : PartPtr) with
      idx := (if k = 4 then ⟨true, 0⟩ else ptrAt k : PartPtr).idx + 1 } = ptrAt (k + 1) := by
  unfold ptrAt
  by_cases h4 : k = 4
  · subst h4
    rfl
  · rw [if_neg h4]
    by_cases hlt : k < 4
    · rw [if_pos (by omega), if_pos (by omega)]
    · rw [if_neg (by omega), if_neg (by omega), show k + 1 - 4 = k - 4 + 1 by omega]

/-- The loop over the partitions gets to the end. -/
theorem partLoop_spec (hok : PartsOk hd) (pads : ℕ → Bytes) (fuel : ℕ) (hk : k ≤ 12)
    (hfuel : 12 < k + fuel) (h : Searched hd disk k disk') :
    ∃ disk'', partLoop hd pads fuel k (ptrAt k) disk' = .ok (12, disk'') ∧
      Searched hd disk 12 disk'' := by
  induction fuel generalizing k disk' with
  | zero => omega
  | succ fuel ih =>
    unfold partLoop
    by_cases hlt : k < 12
    · rw [if_pos hlt]
      dsimp only
      rw [partAt_ptrAt, checkPart_eq (hok.fits k hlt), ok_bind, ptrAt_succ,
        Nat.mod_eq_of_lt (by omega)]
      exact ih (by omega) (by omega) (h.step hok hlt)
    · obtain rfl : k = 12 := by omega
      exact ⟨disk', if_neg hlt, h⟩

/-- With the index at its end nothing is looked at. -/
theorem diskLoop_end : diskLoop hd pads 2 0 12 disk = .ok (12, disk) := rfl

theorem diskLoop_spec (hok : PartsOk hd) (pads : ℕ → Bytes) (disk : Bytes) :
    ∃ disk', diskLoop hd pads 2 0 0 disk = .ok (12, disk') ∧ Searched hd disk 12 disk' := by
  obtain ⟨disk', hloop, hdisk'⟩ := partLoop_spec hok pads 13 (Nat.zero_le 12) (by omega)
    (Searched.start hd disk)
  refine ⟨disk', ?_, hdisk'⟩
  exact bind_eq_ok.mpr ⟨_, hloop, rfl⟩

variable {hds : ℕ → Hd} {pad : ℕ → ℕ → Bytes} {disks disks' : ℕ → Bytes} {left c channelCnt : ℕ}

theorem searchLoop_end : searchLoop hds pad left c 12 disks = .ok disks := by
  induction left generalizing c with
  | zero => rfl
  | succ left ih =>
    unfold searchLoop
    rw [diskLoop_end, ok_bind]
    dsimp only
    rw [Function.update_eq_self]
    exact ih

/-- Only the first channel is searched. -/
theorem searchLoop_spec (hpos : 1 ≤ channelCnt) (hok : PartsOk (hds 0)) (pad : ℕ → ℕ → Bytes)
    (disks : ℕ → Bytes) :
    ∃ disk, searchLoop hds pad channelCnt 0 0 disks = .ok (Function.update disks 0 disk) ∧
      Searched (hds 0) (disks 0) 12 disk := by
  obtain ⟨left, rfl⟩ : ∃ left, channelCnt = left + 1 := ⟨channelCnt - 1, by omega⟩
  obtain ⟨disk, hloop, hdisk⟩ := diskLoop_spec hok (pad 0) (disks 0)
  refine ⟨disk, ?_, hdisk⟩
  unfold searchLoop
  rw [hloop, ok_bind]
  exact searchLoop_end

/-! ## Main result -/

/-- What `filesys_init` is for: every recorded partition of every channel carries the magic number,
and neither a partition that carried it before nor anything outside the recorded partitions has
changed. -/
structure Initialised (channelCnt : ℕ) (hds : ℕ → Hd) (disks disks' : ℕ → Bytes) : Prop where
  magic : ∀ c, c < channelCnt → ∀ i, i < 12 → (parts (hds c) i).secCnt ≠ 0 →
    HasMagic (disks' c) (parts (hds c) i)
  kept : ∀ c, c < channelCnt → ∀ i, i < 12 → (parts (hds c) i).secCnt ≠ 0 →
    HasMagic (disks c) (parts (hds c) i) → ∀ a, InPart (parts (hds c) i) a → disks' c a = disks c a
  outside : ∀ c, c < channelCnt → ∀ a,
    (∀ i, i < 12 → (parts (hds c) i).secCnt ≠ 0 → ¬ InPart (parts (hds c) i) a) →
    disks' c a = disks c a

/-- Every recorded partition of the disk carries the magic number. -/
def AllMagic (hd : Hd) (disk : Bytes) : Prop :=
  ∀ i, i < 12 → (parts hd i).secCnt ≠ 0 → HasMagic disk (parts hd i)

theorem initialised_of_first {disk : Bytes} (hdisk : Searched (hds 0) (disks 0) 12 disk)
    (hrest : ∀ c, c < channelCnt → c ≠ 0 → AllMagic (hds c) (disks c)) :
    Initialised channelCnt hds disks (Function.update disks 0 disk) where
  magic c hc := by
    by_cases h0 : c = 0
    · subst h0
      rw [Function.update_self]
      exact hdisk.magic
    · rw [Function.update_of_ne h0]
      exact hrest c hc h0
  kept c hc := by
    by_cases h0 : c = 0
    · subst h0
      rw [Function.update_self]
      exact hdisk.kept
    · rw [Function.update_of_ne h0]
      exact fun _ _ _ _ _ _ => rfl
  outside c hc := by
    by_cases h0 : c = 0
    · subst h0
      rw [Function.update_self]
      exact hdisk.outside
    · rw [Function.update_of_ne h0]
      exact fun _ _ => rfl

/-- **Formatting what needs it.**  With one channel `filesys_init` does what it is for.  With two it
does so exactly when there is nothing to do on the second one. -/
theorem filesysInit_iff (hcnt : channelCnt = 1 ∨ channelCnt = 2)
    (hok : ∀ c, c < channelCnt → PartsOk (hds c)) (partitionList : List Tag) (pad : ℕ → ℕ → Bytes)
    (disks : ℕ → Bytes) :
    (∃ disks' cur, filesysInit channelCnt hds partitionList pad disks = .ok (disks', cur) ∧
      Initialised channelCnt hds disks disks') ↔
    channelCnt = 1 ∨ AllMagic (hds 1) (disks 1) := by
  obtain ⟨disk, hloop, hdisk⟩ := searchLoop_spec (show 1 ≤ channelCnt by omega)
    (hok 0 (by omega)) pad disks
  constructor
  · rintro ⟨disks', cur, hinit, h⟩
    rcases hcnt with h1 | h2
    · exact Or.inl h1
    · refine Or.inr ?_
      obtain ⟨disks₁, hdisks₁, hinit⟩ := bind_eq_ok.mp hinit
      cases hinit
      cases hloop.symm.trans hdisks₁
      have hmagic := h.magic 1 (by omega)
      rw [Function.update_of_ne (by decide)] at hmagic
      exact hmagic
  · intro h
    refine ⟨_, _, bind_eq_ok.mpr ⟨_, hloop, rfl⟩, initialised_of_first hdisk fun c hc h0 => ?_⟩
    rcases h with h1 | h1
    · omega
    · obtain rfl : c = 1 := by omega
      exact h1

/-- A disk with one partition, in `prim_parts[0]`. -/
def smallHd : Hd where
  name := "sdb"
  primParts := Function.update (fun _ => ⟨0, 0, 0, ""⟩) 0 ⟨63, 613, 1, "sdb1"⟩
  logicParts _ := ⟨0, 0, 0, ""⟩

theorem smallHd_ok : PartsOk smallHd := by
  have honly : ∀ i, i < 12 → (parts smallHd i).secCnt ≠ 0 → i = 0 := by decide
  constructor
  · intro i hi h0
    rw [honly i hi h0]
    exact ⟨by decide, by decide⟩
  · intro i j hi hj hne hi0 hj0
    exact absurd ((honly i hi hi0).trans (honly j hj hj0).symm) hne

theorem filesysInit_iff_small :
    (∃ disks' cur, filesysInit 1 (fun _ => smallHd) [⟨0, false, 0⟩] (fun _ _ => zeros)
        (fun _ => zeros) = .ok (disks', cur) ∧
      Initialised 1 (fun _ => smallHd) (fun _ => zeros) disks') ↔
    (1 : ℕ) = 1 ∨ AllMagic smallHd zeros :=
  filesysInit_iff (Or.inl rfl) (fun _ _ => smallHd_ok) [⟨0, false, 0⟩] (fun _ _ => zeros)
    (fun _ => zeros)

/-- Two channels, a small partition on each slave disk, and no file system: the one of the second
channel is not formatted. -/
theorem second_not_formatted :
    (∀ c, c < 2 → PartsOk ((fun _ => smallHd : ℕ → Hd) c)) ∧
      ∃ disks' cur, filesysInit 2 (fun _ => smallHd) [⟨1, false, 0⟩] (fun _ _ => zeros)
          (fun _ => zeros) = .ok (disks', cur) ∧
        (parts smallHd 0).secCnt ≠ 0 ∧ ¬ HasMagic (disks' 1) (parts smallHd 0) ∧
        ¬ Initialised 2 (fun _ => smallHd) (fun _ => zeros) disks' := by
  obtain ⟨disk, hloop, -⟩ := @searchLoop_spec (fun _ => smallHd) 2 (Nat.le_succ 1) smallHd_ok
    (fun _ _ => zeros) (fun _ => zeros)
  have hno : ¬ HasMagic (Function.update (fun _ => zeros) 0 disk 1) (parts smallHd 0) := by
    rw [Function.update_of_ne (by decide)]
    decide
  refine ⟨fun _ _ => smallHd_ok, _, _, bind_eq_ok.mpr ⟨_, hloop, rfl⟩, by decide, hno, fun h => ?_⟩
  exact hno (h.magic 1 (by decide) 0 (by decide) (by decide))

end HcOs.Fs
