import HcOs.Fs.Format

/-!
# Scanning the partition tables (`partition_scan` and `ide_init` of `device/ide.c`)

`partition_scan` reads a boot sector and follows its extended partitions by calling itself.  It
works on globals: `ext_lba_base`, which is set when the first extended partition is seen, the
counters `p_no` and `l_no`, and `partition_list`.  `ide_init` scans the slave disk of each channel;
between two disks it resets the counters, but not `ext_lba_base`, and it initialises
`partition_list` once for each channel.

The buffer of `partition_scan` is granted here (`memScan` asks for it); a write behind the end of
`logic_parts` is an access to no object.

* `independent_iff`: what becomes of one disk is its own business exactly with one channel, or
  when the first disk has no partition table entries and the second one no extended partition.
-/

namespace HcOs.Ide

open HcOs.Lib HcOs.Sectors HcOs.Fs
open HcOs.Disk (maxLba)

/-! ## The partition table -/

/-- An entry of the table of a boot sector, as far as it is read. -/
structure TableEntry where
  fsType : BitVec 8
  startLba : ℕ
  secCnt : ℕ

def tableEntry (bs : Bytes) (i : ℕ) : TableEntry where
  fsType := bs (446 + 16 * i + 4)
  startLba := bs.getWord (446 + 16 * i + 8)
  secCnt := bs.getWord (446 + 16 * i + 12)

/-! ## The recorded partitions -/

/-- The `part_tag` of `prim_parts[idx]` or `logic_parts[idx]` of the slave disk of a channel. -/
structure Tag where
  channel : ℕ
  logic : Bool
  idx : ℕ
deriving DecidableEq

/-- `struct disk`. -/
structure Hd where
  name : String
  primParts : ℕ → Partition
  logicParts : ℕ → Partition

/-- The globals of `ide.c`. -/
structure Globals where
  extLbaBase : ℕ
  pNo : ℕ
  lNo : ℕ
  partitionList : List Tag

structure Scan extends Globals where
  hd : Hd

/-- An entry of `prim_parts` is filled in. -/
def recordPrim (c : ℕ) (e : TableEntry) (s : Scan) : Scan :=
  let part : Partition := ⟨e.startLba, e.secCnt, 1, s.hd.name ++ toString (s.pNo + 1)⟩
  { s with
    pNo := (s.pNo + 1) % 2 ^ 8
    partitionList := s.partitionList ++ [⟨c, false, s.pNo⟩]
    hd := { s.hd with primParts := Function.update s.hd.primParts s.pNo part } }

/-- An entry of `logic_parts` is filled in. -/
def recordLogic (c extLba : ℕ) (e : TableEntry) (s : Scan) : Scan :=
  let part : Partition :=
    ⟨(extLba + e.startLba) % 2 ^ 32, e.secCnt, 1, s.hd.name ++ toString (s.lNo + 5)⟩
  { s with
    lNo := (s.lNo + 1) % 2 ^ 8
    partitionList := s.partitionList ++ [⟨c, true, s.lNo⟩]
    hd := { s.hd with logicParts := Function.update s.hd.logicParts s.lNo part } }

/-! ## `partition_scan` -/

/-- One round of the loop, with `scan` for the calls of `partition_scan`; the flag says that the
function returns. -/
def scanEntry (c extLba : ℕ) (scan : ℕ → Scan → Except Halt Scan) (e : TableEntry) (s : Scan) :
    Except Halt (Bool × Scan) :=
  if e.fsType = 5#8 then
    if s.extLbaBase ≠ 0 then do
      let s ← scan ((e.startLba + s.extLbaBase) % 2 ^ 32) s
      .ok (false, s)
    else do
      let s ← scan e.startLba { s with extLbaBase := e.startLba }
      .ok (false, s)
  else if e.fsType ≠ 0#8 then
    if extLba = 0 then do
      assert ((recordPrim c e s).pNo < 4) "partition_scan" "p_no < 4"
      .ok (false, recordPrim c e s)
    else if 8 ≤ s.lNo then .error .nullDeref
    else .ok (decide (8 ≤ (recordLogic c extLba e s).lNo), recordLogic c extLba e s)
  else .ok (false, s)

/-- The loop over the entries, with `left` of them to go. -/
def scanEntries (c extLba : ℕ) (scan : ℕ → Scan → Except Halt Scan) (bs : Bytes) :
    ℕ → ℕ → Scan → Except Halt Scan
  | 0, _, s => .ok s
  | left + 1, i, s => do
    let (done, s) ← scanEntry c extLba scan (tableEntry bs i) s
    if done then .ok s else scanEntries c extLba scan bs left (i + 1) s

/-- `partition_scan` of the slave disk of the channel `c`, with a bound on the depth of the calls. -/
def partitionScan (c : ℕ) (disk : Bytes) : ℕ → ℕ → Scan → Except Halt Scan
  | 0, _, _ => .error .noReturn
  | fuel + 1, extLba, s => do
    let bs ← ideRead disk 1 extLba zeros 0 1
    scanEntries c extLba (partitionScan c disk fuel) bs 4 0 s

/-! ## `ide_init` -/

structure State where
  globals : Globals
  /-- The slave disk of each channel. -/
  hds : ℕ → Hd

/-- A disk without partitions. -/
def blankHd (name : String) : Hd where
  name := name
  primParts _ := ⟨0, 0, 0, ""⟩
  logicParts _ := ⟨0, 0, 0, ""⟩

/-- The name that `ide_init` gives to a disk. -/
def diskName (channelNo devNo : ℕ) : String :=
  "sd".push (Char.ofNat ('a'.toNat + channelNo * 2 + devNo))

/-- The globals and the disks when the kernel starts. -/
def initState : State where
  globals := ⟨0, 0, 0, []⟩
  hds _ := blankHd ""

/-- The loop over the disks of a channel; `disk` is its slave disk. -/
def devLoop (fuel : ℕ) (disk : Bytes) (channelNo : ℕ) : ℕ → ℕ → State → Except Halt State
  | 0, _, s => .ok s
  | left + 1, devNo, s => do
    let s ← (if devNo ≠ 0 then do
        let hd := { s.hds channelNo with name := diskName channelNo devNo }
        let r ← partitionScan channelNo disk fuel 0 ⟨s.globals, hd⟩
        .ok ⟨r.toGlobals, Function.update s.hds channelNo r.hd⟩
      else .ok s : Except Halt State)
    devLoop fuel disk channelNo left (devNo + 1)
      { s with globals := { s.globals with pNo := 0, lNo := 0 } }

/-- The loop over the channels. -/
def channelLoop (fuel : ℕ) (disks : ℕ → Bytes) : ℕ → ℕ → State → Except Halt State
  | 0, _, s => .ok s
  | left + 1, channelNo, s => do
    let s := { s with globals := { s.globals with partitionList := [] } }
    let s ← devLoop fuel (disks channelNo) channelNo 2 0 s
    channelLoop fuel disks left (channelNo + 1) s

/-- `ide_init`, as far as it concerns the partitions. -/
def ideInit (fuel channelCnt : ℕ) (disks : ℕ → Bytes) : Except Halt State :=
  channelLoop fuel disks channelCnt 0 initState

/-! ## One entry -/

variable {c fuel extLba left i : ℕ} {disk bs : Bytes} {scan scan' : ℕ → Scan → Except Halt Scan}
variable {e : TableEntry} {s s' r : Scan} {done : Bool}

/-- What one round can do. -/
inductive EntryStep (c extLba : ℕ) (scan : ℕ → Scan → Except Halt Scan) (e : TableEntry) (s : Scan) :
    Bool → Scan → Prop
  | next {s' : Scan} (he : e.fsType = 5#8) (hb : s.extLbaBase ≠ 0)
    (h : scan ((e.startLba + s.extLbaBase) % 2 ^ 32) s = .ok s') : EntryStep c extLba scan e s false s'
  | first {s' : Scan} (he : e.fsType = 5#8) (hb : s.extLbaBase = 0)
    (h : scan e.startLba { s with extLbaBase := e.startLba } = .ok s') :
    EntryStep c extLba scan e s false s'
  | prim (h5 : e.fsType ≠ 5#8) (h0 : e.fsType ≠ 0#8) (hext : extLba = 0)
    (hp : (recordPrim c e s).pNo < 4) : EntryStep c extLba scan e s false (recordPrim c e s)
  | logic (h5 : e.fsType ≠ 5#8) (h0 : e.fsType ≠ 0#8) (hext : extLba ≠ 0) (hl : s.lNo < 8) :
    EntryStep c extLba scan e s (decide (8 ≤ (recordLogic c extLba e s).lNo)) (recordLogic c extLba e s)
  | empty (h0 : e.fsType = 0#8) : EntryStep c extLba scan e s false s

theorem scanEntry_iff :
    scanEntry c extLba scan e s = .ok (done, s') ↔ EntryStep c extLba scan e s done s' := by
  constructor
  · intro h
    unfold scanEntry at h
    split at h
    · next he =>
      split at h
      · next hb =>
        obtain ⟨s₁, hs₁, h⟩ := bind_eq_ok.mp h
        cases h
        exact .next he hb hs₁
      · next hb =>
        obtain ⟨s₁, hs₁, h⟩ := bind_eq_ok.mp h
        cases h
        exact .first he (not_not.mp hb) hs₁
    · next h5 =>
      split at h
      · next h0 =>
        split at h
        · next hext =>
          obtain ⟨hp, h⟩ := assert_bind_eq_ok.mp h
          cases h
          exact .prim h5 h0 hext hp
        · next hext =>
          split at h
          · cases h
          · next hl =>
            cases h
            exact .logic h5 h0 hext (by omega)
      · next h0 =>
        cases h
        exact .empty (not_not.mp h0)
  · intro h
    unfold scanEntry
    cases h with
    | next he hb h =>
      rw [if_pos he, if_pos hb, h]
      rfl
    | first he hb h =>
      rw [if_pos he, if_neg (not_not_intro hb), h]
      rfl
    | prim h5 h0 hext hp => rw [if_neg h5, if_pos h0, if_pos hext, assert_bind_of hp]
    | logic h5 h0 hext hl => rw [if_neg h5, if_pos h0, if_neg hext, if_neg (by omega)]
    | empty h0 =>
      rw [if_neg, if_neg (not_not_intro h0)]
      rw [h0]
      decide

/-- The loop, entry by entry. -/
theorem scanEntries_succ :
    scanEntries c extLba scan bs (left + 1) i s = .ok r ↔
      ∃ done s', EntryStep c extLba scan (tableEntry bs i) s done s' ∧
        (if done then .ok s' else scanEntries c extLba scan bs left (i + 1) s') = .ok r := by
  constructor
  · intro h
    obtain ⟨⟨done, s'⟩, hstep, h⟩ := bind_eq_ok.mp h
    exact ⟨done, s', scanEntry_iff.mp hstep, h⟩
  · rintro ⟨done, s', hstep, h⟩
    exact bind_eq_ok.mpr ⟨(done, s'), scanEntry_iff.mpr hstep, h⟩

/-! ## The depth of the calls -/

theorem EntryStep.mono (hscan : ∀ a s r, scan a s = .ok r → scan' a s = .ok r)
    (h : EntryStep c extLba scan e s done s') : EntryStep c extLba scan' e s done s' := by
  cases h with
  | next he hb h => exact .next he hb (hscan _ _ _ h)
  | first he hb h => exact .first he hb (hscan _ _ _ h)
  | prim h5 h0 hext hp => exact .prim h5 h0 hext hp
  | logic h5 h0 hext hl => exact .logic h5 h0 hext hl
  | empty h0 => exact .empty h0

theorem scanEntries_mono (hscan : ∀ a s r, scan a s = .ok r → scan' a s = .ok r)
    (h : scanEntries c extLba scan bs left i s = .ok r) :
    scanEntries c extLba scan' bs left i s = .ok r := by
  induction left generalizing i s with
  | zero => exact h
  | succ left ih =>
    obtain ⟨done, s', hstep, h⟩ := scanEntries_succ.mp h
    refine scanEntries_succ.mpr ⟨done, s', hstep.mono hscan, ?_⟩
    cases done with
    | true => exact h
    | false => exact ih h

theorem partitionScan_succ (h : partitionScan c disk fuel extLba s = .ok r) :
    partitionScan c disk (fuel + 1) extLba s = .ok r := by
  induction fuel generalizing extLba s r with
  | zero => cases h
  | succ fuel ih =>
    obtain ⟨bs, hread, h⟩ := bind_eq_ok.mp h
    refine bind_eq_ok.mpr ⟨bs, hread, ?_⟩
    exact scanEntries_mono (fun a s r h => ih h) h

theorem partitionScan_le {fuel' : ℕ} (hle : fuel ≤ fuel')
    (h : partitionScan c disk fuel extLba s = .ok r) : partitionScan c disk fuel' extLba s = .ok r := by
  induction hle with
  | refl => exact h
  | step _ ih => exact partitionScan_succ ih

/-- The outcome does not depend on the bound. -/
theorem partitionScan_unique {fuel' : ℕ} {r' : Scan} (h : partitionScan c disk fuel extLba s = .ok r)
    (h' : partitionScan c disk fuel' extLba s = .ok r') : r = r' := by
  have h₁ := partitionScan_le (Nat.le_max_left fuel fuel') h
  have h₂ := partitionScan_le (Nat.le_max_right fuel fuel') h'
  exact Except.ok.inj (h₁.symm.trans h₂)

/-! ## The list -/

/-- The partition has been recorded: its index is below the counter. -/
def Recorded (c : ℕ) (g : Globals) (t : Tag) : Prop :=
  t.channel = c ∧ t.idx < if t.logic then g.lNo else g.pNo

/-- The list holds what has been recorded, each partition once. -/
structure ListOk (c : ℕ) (g : Globals) : Prop where
  few : g.pNo < 4 ∧ g.lNo ≤ 8
  nodup : g.partitionList.Nodup
  mem_iff : ∀ t, t ∈ g.partitionList ↔ Recorded c g t

/-- The partition that is recorded next is not in the list yet. -/
theorem ListOk.nodup_snoc {g : Globals} (h : ListOk c g) (lg : Bool) :
    (g.partitionList ++ [Tag.mk c lg (if lg then g.lNo else g.pNo)]).Nodup := by
  refine List.nodup_append.mpr ⟨h.nodup, List.nodup_singleton _, fun t ht t' ht' heq => ?_⟩
  rw [List.mem_singleton] at ht'
  subst heq
  have hlt := ((h.mem_iff t).mp ht).2
  rw [ht'] at hlt
  exact absurd hlt (Nat.lt_irrefl _)

theorem ListOk.prim (h : ListOk c s.toGlobals) (hp : (recordPrim c e s).pNo < 4) :
    ListOk c (recordPrim c e s).toGlobals := by
  have hfew := h.few
  have hpNo : (recordPrim c e s).pNo = s.pNo + 1 := Nat.mod_eq_of_lt (by omega)
  refine ⟨⟨hp, hfew.2⟩, ?_, fun t => ?_⟩
  · exact h.nodup_snoc false
  · show t ∈ s.partitionList ++ [⟨c, false, s.pNo⟩] ↔ _
    rw [List.mem_append, List.mem_singleton, h.mem_iff, Recorded, Recorded, hpNo]
    obtain ⟨ch, lg, ix⟩ := t
    cases lg <;> simp only [Tag.mk.injEq, Bool.false_eq_true, if_false, if_true, reduceCtorEq, false_and,
      and_false, or_false, true_and, recordPrim]
    omega

theorem ListOk.logic (h : ListOk c s.toGlobals) (hl : s.lNo < 8) :
    ListOk c (recordLogic c extLba e s).toGlobals := by
  have hfew := h.few
  have hlNo : (recordLogic c extLba e s).lNo = s.lNo + 1 := Nat.mod_eq_of_lt (by omega)
  refine ⟨⟨hfew.1, by omega⟩, ?_, fun t => ?_⟩
  · exact h.nodup_snoc true
  · show t ∈ s.partitionList ++ [⟨c, true, s.lNo⟩] ↔ _
    rw [List.mem_append, List.mem_singleton, h.mem_iff, Recorded, Recorded, hlNo]
    obtain ⟨ch, lg, ix⟩ := t
    cases lg <;> simp only [Tag.mk.injEq, Bool.false_eq_true, if_false, if_true, false_and, and_false,
      or_false, true_and, recordLogic]
    omega

theorem ListOk.entry (hscan : ∀ a s r, ListOk c s.toGlobals → scan a s = .ok r → ListOk c r.toGlobals)
    (h : ListOk c s.toGlobals) (hstep : EntryStep c extLba scan e s done s') :
    ListOk c s'.toGlobals := by
  cases hstep with
  | next he hb hrec => exact hscan _ _ _ h hrec
  | first he hb hrec =>
    exact hscan _ { s with extLbaBase := e.startLba } _ ⟨h.few, h.nodup, h.mem_iff⟩ hrec
  | prim h5 h0 hext hp => exact h.prim hp
  | logic h5 h0 hext hl => exact h.logic hl
  | empty h0 => exact h

theorem ListOk.entries
    (hscan : ∀ a s r, ListOk c s.toGlobals → scan a s = .ok r → ListOk c r.toGlobals)
    (h : ListOk c s.toGlobals) (hr : scanEntries c extLba scan bs left i s = .ok r) :
    ListOk c r.toGlobals := by
  induction left generalizing i s with
  | zero =>
    cases hr
    exact h
  | succ left ih =>
    obtain ⟨done, s', hstep, hr⟩ := scanEntries_succ.mp hr
    have h' := h.entry hscan hstep
    cases done with
    | true =>
      cases hr
      exact h'
    | false => exact ih h' hr

theorem ListOk.run (h : ListOk c s.toGlobals) (hr : partitionScan c disk fuel extLba s = .ok r) :
    ListOk c r.toGlobals := by
  induction fuel generalizing extLba s r with
  | zero => cases hr
  | succ fuel ih =>
    obtain ⟨bs, -, hr⟩ := bind_eq_ok.mp hr
    exact h.entries (fun a s r h hr => ih h hr) hr

theorem listOk_start (b : ℕ) : ListOk c ⟨b, 0, 0, []⟩ := by
  refine ⟨⟨Nat.succ_pos 3, Nat.zero_le 8⟩, List.nodup_nil, fun t => ?_⟩
  simp [Recorded]

/-! ## Boot sectors without extended partitions -/

/-- The entry `i` of the master boot record. -/
def mbrEntry (disk : Bytes) (i : ℕ) : TableEntry := tableEntry disk i

/-- No entry of the master boot record is an extended partition. -/
def NoExtended (disk : Bytes) : Prop := ∀ i, i < 4 → (mbrEntry disk i).fsType ≠ 5#8

/-- The partition table of the master boot record is empty. -/
def NoEntries (disk : Bytes) : Prop := ∀ i, i < 4 → (mbrEntry disk i).fsType = 0#8

/-- The buffer of the first call holds the master boot record. -/
theorem read_mbr : ∃ bs, ideRead disk 1 0 zeros 0 1 = .ok bs ∧
    ∀ i, i < 4 → tableEntry bs i = mbrEntry disk i := by
  refine ⟨_, ideRead_eq (Nat.le_refl 1) (by decide), fun i hi => ?_⟩
  unfold mbrEntry tableEntry
  rw [Bytes.copy_of_mem (by omega) (by omega), Bytes.getWord_copy_of_mem (by omega) (by omega),
    Bytes.getWord_copy_of_mem (by omega) (by omega), Nat.zero_mul, Nat.zero_add, Nat.zero_add,
    Nat.zero_add, Nat.sub_zero, Nat.sub_zero, Nat.sub_zero]

/-- The first call of `partition_scan`, entry by entry. -/
theorem scan_mbr : ∃ bs, (∀ i, i < 4 → tableEntry bs i = mbrEntry disk i) ∧
    ∀ fuel s, partitionScan c disk (fuel + 1) 0 s =
      scanEntries c 0 (partitionScan c disk fuel) bs 4 0 s := by
  obtain ⟨bs, hread, hentry⟩ := @read_mbr disk
  refine ⟨bs, hentry, fun fuel s => ?_⟩
  rw [partitionScan, hread]
  rfl

/-- Without an extended partition, `ext_lba_base` is neither used nor changed. -/
theorem scanEntries_base (h5 : ∀ j, i ≤ j → j < i + left → (tableEntry bs j).fsType ≠ 5#8)
    (hr : scanEntries c 0 scan bs left i s = .ok r) :
    r.extLbaBase = s.extLbaBase ∧ ∀ b, scanEntries c 0 scan' bs left i { s with extLbaBase := b } =
      .ok { r with extLbaBase := b } := by
  induction left generalizing i s with
  | zero =>
    cases hr
    exact ⟨rfl, fun b => rfl⟩
  | succ left ih =>
    obtain ⟨done, s', hstep, hr⟩ := scanEntries_succ.mp hr
    have hrest := fun s' hr => @ih (i + 1) s' (fun j h1 h2 => h5 j (by omega) (by omega)) hr
    cases hstep with
    | next he hb h => exact absurd he (h5 i (Nat.le_refl i) (by omega))
    | first he hb h => exact absurd he (h5 i (Nat.le_refl i) (by omega))
    | prim h5' h0 hext hp =>
      obtain ⟨hbase, hb⟩ := hrest _ hr
      exact ⟨hbase, fun b => scanEntries_succ.mpr ⟨_, _, .prim h5' h0 hext hp, hb b⟩⟩
    | logic h5' h0 hext hl => exact absurd rfl hext
    | empty h0 =>
      obtain ⟨hbase, hb⟩ := hrest _ hr
      exact ⟨hbase, fun b => scanEntries_succ.mpr ⟨_, _, .empty h0, hb b⟩⟩

theorem scan_noExtended (h5 : NoExtended disk) (hr : partitionScan c disk fuel 0 s = .ok r) :
    r.extLbaBase = s.extLbaBase ∧ ∀ b, partitionScan c disk fuel 0 { s with extLbaBase := b } =
      .ok { r with extLbaBase := b } := by
  cases fuel with
  | zero => cases hr
  | succ fuel =>
    obtain ⟨bs, hentry, hscan⟩ := @scan_mbr c disk
    rw [hscan] at hr
    obtain ⟨hbase, hb⟩ := scanEntries_base (fun j _ hj => by
      rw [hentry j (by omega)]
      exact h5 j (by omega)) hr
    exact ⟨hbase, fun b => (hscan _ _).trans (hb b)⟩

/-- An empty boot sector. -/
theorem scanEntries_empty (h0 : ∀ j, i ≤ j → j < i + left → (tableEntry bs j).fsType = 0#8) :
    scanEntries c extLba scan bs left i s = .ok s := by
  induction left generalizing i with
  | zero => rfl
  | succ left ih =>
    refine scanEntries_succ.mpr ⟨false, s, .empty (h0 i (Nat.le_refl i) (by omega)), ?_⟩
    exact ih fun j h1 h2 => h0 j (by omega) (by omega)

theorem scan_noEntries (h0 : NoEntries disk) : partitionScan c disk (fuel + 1) 0 s = .ok s := by
  obtain ⟨bs, hentry, hscan⟩ := @scan_mbr c disk
  rw [hscan]
  refine scanEntries_empty fun j _ hj => ?_
  rw [hentry j (by omega)]
  exact h0 j (by omega)

/-- A primary partition is counted. -/
theorem scanEntries_counted (h5 : ∀ j, i ≤ j → j < i + left → (tableEntry bs j).fsType ≠ 5#8)
    (hp : s.pNo < 4) (hr : scanEntries c 0 scan bs left i s = .ok r) :
    s.pNo ≤ r.pNo ∧ ∀ j, i ≤ j → j < i + left → (tableEntry bs j).fsType ≠ 0#8 → s.pNo < r.pNo := by
  induction left generalizing i s with
  | zero =>
    cases hr
    exact ⟨Nat.le_refl _, fun j h1 h2 => by omega⟩
  | succ left ih =>
    obtain ⟨done, s', hstep, hr⟩ := scanEntries_succ.mp hr
    have hrest := fun s' hp hr => @ih (i + 1) s' (fun j h1 h2 => h5 j (by omega) (by omega)) hp hr
    cases hstep with
    | next he hb h => exact absurd he (h5 i (Nat.le_refl i) (by omega))
    | first he hb h => exact absurd he (h5 i (Nat.le_refl i) (by omega))
    | prim h5' h0 hext hp' =>
      have hpNo : (recordPrim c (tableEntry bs i) s).pNo = s.pNo + 1 := Nat.mod_eq_of_lt (by omega)
      obtain ⟨hle, -⟩ := hrest _ hp' hr
      exact ⟨by omega, fun _ _ _ _ => by omega⟩
    | logic h5' h0 hext hl => exact absurd rfl hext
    | empty h0 =>
      obtain ⟨hle, hlt⟩ := hrest _ hp hr
      refine ⟨hle, fun j h1 h2 hj => ?_⟩
      by_cases hji : j = i
      · rw [hji] at hj
        exact absurd h0 hj
      · exact hlt j (by omega) (by omega) hj

theorem scan_counted (h5 : NoExtended disk) (h0 : ¬NoEntries disk) (hp : s.pNo < 4)
    (hr : partitionScan c disk fuel 0 s = .ok r) : s.pNo < r.pNo := by
  cases fuel with
  | zero => cases hr
  | succ fuel =>
    obtain ⟨bs, hentry, hscan⟩ := @scan_mbr c disk
    rw [hscan] at hr
    obtain ⟨k, hk, hne⟩ : ∃ k, k < 4 ∧ (mbrEntry disk k).fsType ≠ 0#8 := by
      by_contra hall
      push Not at hall
      exact h0 hall
    rw [← hentry k hk] at hne
    refine (scanEntries_counted (fun j _ hj => ?_) hp hr).2 k (Nat.zero_le k) (by omega) hne
    rw [hentry j (by omega)]
    exact h5 j (by omega)

/-! ## Boot sectors with an extended partition -/

/-- `partition_scan` reads the boot sector first. -/
theorem scan_lba (h : partitionScan c disk fuel extLba s = .ok r) : extLba ≤ maxLba := by
  cases fuel with
  | zero => cases h
  | succ fuel =>
    obtain ⟨bs, hread, -⟩ := bind_eq_ok.mp h
    exact (assert_bind_eq_ok.mp hread).1

/-- Once it is set, `ext_lba_base` stays. -/
theorem scanEntries_keeps
    (hscan : ∀ a s r, s.extLbaBase ≠ 0 → scan a s = .ok r → r.extLbaBase = s.extLbaBase)
    (hb : s.extLbaBase ≠ 0) (hr : scanEntries c extLba scan bs left i s = .ok r) :
    r.extLbaBase = s.extLbaBase := by
  induction left generalizing i s with
  | zero =>
    cases hr
    rfl
  | succ left ih =>
    obtain ⟨done, s', hstep, hr⟩ := scanEntries_succ.mp hr
    have hs' : s'.extLbaBase = s.extLbaBase := by
      cases hstep with
      | next he _ h => exact hscan _ _ _ hb h
      | first he h0 h => exact absurd h0 hb
      | prim | logic | empty => rfl
    cases done with
    | true =>
      cases hr
      exact hs'
    | false => exact (ih (by rw [hs']; exact hb) hr).trans hs'

theorem scan_keeps (hb : s.extLbaBase ≠ 0) (hr : partitionScan c disk fuel extLba s = .ok r) :
    r.extLbaBase = s.extLbaBase := by
  induction fuel generalizing extLba s r with
  | zero => cases hr
  | succ fuel ih =>
    obtain ⟨bs, -, hr⟩ := bind_eq_ok.mp hr
    exact scanEntries_keeps (fun a s r hb hr => ih hb hr) hb hr

/-- An extended partition is followed. -/
def Follows (scan : ℕ → Scan → Except Halt Scan) (e : TableEntry) (s s' : Scan) : Prop :=
  s.extLbaBase ≠ 0 ∧ scan ((e.startLba + s.extLbaBase) % 2 ^ 32) s = .ok s' ∨
    s.extLbaBase = 0 ∧ scan e.startLba { s with extLbaBase := e.startLba } = .ok s'

theorem EntryStep.follows (he : e.fsType = 5#8) (h : EntryStep c extLba scan e s done s') :
    done = false ∧ Follows scan e s s' := by
  cases h with
  | next _ hb h => exact ⟨rfl, Or.inl ⟨hb, h⟩⟩
  | first _ hb h => exact ⟨rfl, Or.inr ⟨hb, h⟩⟩
  | prim h5 => exact absurd he h5
  | logic h5 => exact absurd he h5
  | empty h0 =>
    rw [he] at h0
    cases h0

/-- The first extended partition of the master boot record is reached. -/
theorem scanEntries_reach {k : ℕ} (hk : (tableEntry bs k).fsType = 5#8) (hlo : i ≤ k)
    (hhi : k < i + left) (hbefore : ∀ j, i ≤ j → j < k → (tableEntry bs j).fsType ≠ 5#8)
    (hr : scanEntries c 0 scan bs left i s = .ok r) :
    ∃ s₁ s₂ left', s₁.extLbaBase = s.extLbaBase ∧ Follows scan (tableEntry bs k) s₁ s₂ ∧
      scanEntries c 0 scan bs left' (k + 1) s₂ = .ok r := by
  induction left generalizing i s with
  | zero => omega
  | succ left ih =>
    obtain ⟨done, s', hstep, hr⟩ := scanEntries_succ.mp hr
    by_cases hik : i = k
    · subst hik
      obtain ⟨rfl, hfollow⟩ := hstep.follows hk
      exact ⟨s, s', left, rfl, hfollow, hr⟩
    · have hs' : done = false ∧ s'.extLbaBase = s.extLbaBase := by
        cases hstep with
        | next he => exact absurd he (hbefore i (Nat.le_refl i) (by omega))
        | first he => exact absurd he (hbefore i (Nat.le_refl i) (by omega))
        | prim => exact ⟨rfl, rfl⟩
        | logic _ _ hext => exact absurd rfl hext
        | empty => exact ⟨rfl, rfl⟩
      rw [hs'.1] at hr
      obtain ⟨s₁, s₂, left', hs₁, hnext⟩ := ih (i := i + 1) (by omega) (by omega)
        (fun j h1 h2 => hbefore j (by omega) h2) hr
      exact ⟨s₁, s₂, left', hs₁.trans hs'.2, hnext⟩

/-- The first extended partition in the master boot record. -/
structure FirstExtended (disk : Bytes) (k : ℕ) : Prop where
  lt : k < 4
  ext : (mbrEntry disk k).fsType = 5#8
  before : ∀ j, j < k → (mbrEntry disk j).fsType ≠ 5#8

theorem exists_firstExtended (h5 : ¬NoExtended disk) : ∃ k, FirstExtended disk k := by
  have hex : ∃ k, k < 4 ∧ (mbrEntry disk k).fsType = 5#8 := by
    by_contra hall
    push Not at hall
    exact h5 hall
  obtain ⟨hlt, hk⟩ := Nat.find_spec hex
  exact ⟨Nat.find hex, hlt, hk, fun j hj h5j => Nat.find_min hex hj ⟨by omega, h5j⟩⟩

section

variable {k : ℕ} (hk : FirstExtended disk k)
include hk

theorem scan_reach (hr : partitionScan c disk (fuel + 1) 0 s = .ok r) :
    ∃ s₁ s₂ bs left', s₁.extLbaBase = s.extLbaBase ∧
      Follows (partitionScan c disk fuel) (mbrEntry disk k) s₁ s₂ ∧
      scanEntries c 0 (partitionScan c disk fuel) bs left' (k + 1) s₂ = .ok r := by
  have hlt := hk.lt
  obtain ⟨bs, hentry, hscan⟩ := @scan_mbr c disk
  rw [hscan] at hr
  have hext : (tableEntry bs k).fsType = 5#8 := by
    rw [hentry k hlt]
    exact hk.ext
  obtain ⟨s₁, s₂, left', hs₁, hfollow, hrest⟩ := scanEntries_reach hext (Nat.zero_le k) (by omega)
    (fun j _ hj => by
      rw [hentry j (by omega)]
      exact hk.before j hj) hr
  rw [hentry k hlt] at hfollow
  exact ⟨s₁, s₂, bs, left', hs₁, hfollow, hrest⟩

/-- A scan with `ext_lba_base` clear sets it to the start of the extended partition. -/
theorem scan_first (hb : s.extLbaBase = 0) (hr : partitionScan c disk (fuel + 1) 0 s = .ok r) :
    ∃ (s₁ s₂ : Scan) (bs : Bytes) (left' : ℕ), partitionScan c disk fuel (mbrEntry disk k).startLba
        { s₁ with extLbaBase := (mbrEntry disk k).startLba } = .ok s₂ ∧
      scanEntries c 0 (partitionScan c disk fuel) bs left' (k + 1) s₂ = .ok r := by
  obtain ⟨s₁, s₂, bs, left', hs₁, ⟨hb₁, -⟩ | ⟨-, h⟩, hrest⟩ := scan_reach hk hr
  · exact absurd (hs₁.trans hb) hb₁
  · exact ⟨s₁, s₂, bs, left', h, hrest⟩

/-- An extended partition that starts at the master boot record leads to the same call again and
again. -/
theorem scan_loops (h0 : (mbrEntry disk k).startLba = 0) (hb : s.extLbaBase = 0) :
    partitionScan c disk fuel 0 s ≠ .ok r := by
  induction fuel generalizing s r with
  | zero => nofun
  | succ fuel ih =>
    intro hr
    obtain ⟨s₁, s₂, bs, left', h, -⟩ := scan_first hk hb hr
    rw [h0] at h
    exact ih rfl h

/-- A disk with an extended partition, scanned alone, leaves its start behind. -/
theorem scan_extended (hb : s.extLbaBase = 0) (hr : partitionScan c disk fuel 0 s = .ok r) :
    1 ≤ (mbrEntry disk k).startLba ∧ (mbrEntry disk k).startLba ≤ maxLba ∧
      r.extLbaBase = (mbrEntry disk k).startLba := by
  have hne : (mbrEntry disk k).startLba ≠ 0 := fun h0 => scan_loops hk h0 hb hr
  cases fuel with
  | zero => cases hr
  | succ fuel =>
    obtain ⟨s₁, s₂, bs, left', h, hrest⟩ := scan_first hk hb hr
    have hs₂ : s₂.extLbaBase = (mbrEntry disk k).startLba := scan_keeps hne h
    refine ⟨by omega, scan_lba h, ?_⟩
    exact (scanEntries_keeps (fun a s r hb hr => scan_keeps hb hr) (by rw [hs₂]; exact hne)
      hrest).trans hs₂

/-- With another base, the wrong sector is read; behind the end of the disk that is a panic. -/
theorem scan_far (hb : s.extLbaBase ≠ 0)
    (hfar : maxLba < ((mbrEntry disk k).startLba + s.extLbaBase) % 2 ^ 32) :
    partitionScan c disk fuel 0 s ≠ .ok r := by
  intro hr
  cases fuel with
  | zero => cases hr
  | succ fuel =>
    obtain ⟨s₁, s₂, bs, left', hs₁, ⟨-, h⟩ | ⟨hb₁, -⟩, -⟩ := scan_reach hk hr
    · have hlba := scan_lba h
      rw [hs₁] at hlba
      exact absurd hlba (Nat.not_le.mpr hfar)
    · exact hb (hs₁.symm.trans hb₁)

end

/-! ## The channels -/

variable {channelCnt : ℕ} {disks : ℕ → Bytes} {st st' : State}

/-- The disk of a channel before its scan. -/
def aloneStart (c : ℕ) : Scan := ⟨⟨0, 0, 0, []⟩, blankHd (diskName c 1)⟩

/-- `partition_scan` of a disk from the initial globals, and nothing else. -/
def Alone (c : ℕ) (disk : Bytes) (r : Scan) : Prop :=
  ∃ fuel, partitionScan c disk fuel 0 (aloneStart c) = .ok r

/-- The boot records of the disk are well formed: the scan of the disk alone returns. -/
def WellFormed (c : ℕ) (disk : Bytes) : Prop := ∃ r, Alone c disk r

theorem Alone.unique {r' : Scan} (h : Alone c disk r) (h' : Alone c disk r') : r = r' := by
  obtain ⟨fuel, hr⟩ := h
  obtain ⟨fuel', hr'⟩ := h'
  exact partitionScan_unique hr hr'

/-- What is left after the scan of a channel. -/
def afterChannel (c : ℕ) (st : State) (r : Scan) : State :=
  ⟨{ r.toGlobals with pNo := 0, lNo := 0 }, Function.update st.hds c r.hd⟩

theorem afterChannel_self : (afterChannel c st r).hds c = r.hd := by
  unfold afterChannel
  exact Function.update_self c r.hd st.hds

theorem afterChannel_of_ne {k : ℕ} (h : k ≠ c) : (afterChannel c st r).hds k = st.hds k := by
  unfold afterChannel
  exact Function.update_of_ne h r.hd st.hds

theorem channelLoop_succ :
    channelLoop fuel disks (left + 1) c st = .ok st' ↔
      ∃ r, partitionScan c (disks c) fuel 0 ⟨⟨st.globals.extLbaBase, 0, 0, []⟩,
          { st.hds c with name := diskName c 1 }⟩ = .ok r ∧
        channelLoop fuel disks left (c + 1) (afterChannel c st r) = .ok st' := by
  constructor
  · intro h
    obtain ⟨st₁, hdev, h⟩ := bind_eq_ok.mp h
    obtain ⟨st₂, hst₂, hdev⟩ := bind_eq_ok.mp hdev
    cases hst₂
    obtain ⟨st₃, hst₃, hdev⟩ := bind_eq_ok.mp hdev
    cases hdev
    obtain ⟨r, hr, hst₃⟩ := bind_eq_ok.mp hst₃
    cases hst₃
    exact ⟨r, hr, h⟩
  · rintro ⟨r, hr, h⟩
    refine bind_eq_ok.mpr ⟨afterChannel c st r, ?_, h⟩
    refine bind_eq_ok.mpr ⟨_, rfl, ?_⟩
    exact bind_eq_ok.mpr ⟨_, bind_eq_ok.mpr ⟨r, hr, rfl⟩, rfl⟩

theorem ideInit_one :
    ideInit fuel 1 disks = .ok st ↔ ∃ r, partitionScan 0 (disks 0) fuel 0 (aloneStart 0) = .ok r ∧
      st = afterChannel 0 initState r := by
  refine channelLoop_succ.trans (exists_congr fun r => and_congr_right fun _ => ?_)
  constructor
  · rintro ⟨⟩
    rfl
  · rintro rfl
    rfl

theorem ideInit_two :
    ideInit fuel 2 disks = .ok st ↔ ∃ r₀ r₁,
      partitionScan 0 (disks 0) fuel 0 (aloneStart 0) = .ok r₀ ∧
      partitionScan 1 (disks 1) fuel 0 { aloneStart 1 with extLbaBase := r₀.extLbaBase } = .ok r₁ ∧
      st = afterChannel 1 (afterChannel 0 initState r₀) r₁ := by
  refine channelLoop_succ.trans (exists_congr fun r₀ => ?_)
  constructor
  · rintro ⟨hr₀, h⟩
    obtain ⟨r₁, hr₁, h⟩ := channelLoop_succ.mp h
    cases h
    exact ⟨r₁, hr₀, hr₁, rfl⟩
  · rintro ⟨r₁, hr₀, hr₁, rfl⟩
    exact ⟨hr₀, channelLoop_succ.mpr ⟨r₁, hr₁, rfl⟩⟩

/-! ## Independence -/

/-- `ide_init` returns, and it records for the disk of the channel what a scan of that disk alone
records. -/
def RecordsOwn (channelCnt : ℕ) (disks : ℕ → Bytes) (c : ℕ) : Prop :=
  ∃ fuel st, ideInit fuel channelCnt disks = .ok st ∧ ∀ r, Alone c (disks c) r → st.hds c = r.hd

/-- The list holds the recorded partitions of all channels, each of them once. -/
def ListComplete (channelCnt : ℕ) (disks : ℕ → Bytes) : Prop :=
  ∃ fuel st, ideInit fuel channelCnt disks = .ok st ∧ st.globals.partitionList.Nodup ∧
    ∀ t, t ∈ st.globals.partitionList ↔ t.channel < channelCnt ∧
      ∃ r, Alone t.channel (disks t.channel) r ∧ Recorded t.channel r.toGlobals t

/-- The disks do not depend on each other: what is recorded for a disk is its own, whatever the
others contain, and nothing is lost from the list. -/
structure Independent (channelCnt : ℕ) (disks : ℕ → Bytes) : Prop where
  records : ∀ c, c < channelCnt → ∀ disks', (∀ k, k < channelCnt → WellFormed k (disks' k)) →
    disks' c = disks c → RecordsOwn channelCnt disks' c
  list : ListComplete channelCnt disks

/-- A disk with an extended partition in its last sector, which is empty. -/
def farDisk : Bytes := Function.update (zeros.putWord 454 maxLba) 450 5#8

theorem farDisk_first : FirstExtended farDisk 0 := ⟨by decide, by decide, nofun⟩

theorem farDisk_start : (mbrEntry farDisk 0).startLba = maxLba := by decide

theorem farDisk_alone (c : ℕ) : Alone c farDisk { aloneStart c with extLbaBase := maxLba } := by
  have hempty : ∀ fuel s, partitionScan c farDisk (fuel + 1) maxLba s = .ok s := by
    intro fuel s
    rw [partitionScan, ideRead_eq (Nat.le_refl 1) (Nat.le_refl _), ok_bind]
    refine scanEntries_empty fun j _ hj => ?_
    have hmax : maxLba = 163839 := rfl
    unfold tableEntry farDisk
    rw [Bytes.copy_of_mem (by omega) (by omega), Function.update_of_ne (by omega),
      Bytes.putWord_of_not_mem (by omega)]
    rfl
  obtain ⟨bs, hentry, hscan⟩ := @scan_mbr c farDisk
  refine ⟨2, (hscan 1 _).trans ?_⟩
  refine scanEntries_succ.mpr ⟨false, { aloneStart c with extLbaBase := maxLba }, ?_, ?_⟩
  · rw [hentry 0 (by decide)]
    refine .first farDisk_first.ext rfl ?_
    rw [farDisk_start]
    exact hempty 0 _
  · refine scanEntries_empty fun j h1 h2 => ?_
    rw [hentry j (by omega)]
    have h123 : ∀ j, 1 ≤ j → j < 4 → (mbrEntry farDisk j).fsType = 0#8 := by decide
    exact h123 j (by omega) (by omega)

/-! ## One channel -/

theorem Alone.listOk (h : Alone c disk r) : ListOk c r.toGlobals := by
  obtain ⟨fuel, hr⟩ := h
  exact ListOk.run (listOk_start 0) hr

theorem independent_one (hwf : WellFormed 0 (disks 0)) : Independent 1 disks := by
  refine ⟨fun c hc disks' hwf' heq => ?_, ?_⟩
  · obtain rfl : c = 0 := by omega
    obtain ⟨r, fuel, hr⟩ := hwf' 0 (by decide)
    refine ⟨fuel, _, ideInit_one.mpr ⟨r, hr, rfl⟩, fun r' hr' => ?_⟩
    rw [Alone.unique hr' ⟨fuel, hr⟩]
    exact afterChannel_self
  · obtain ⟨r, fuel, hr⟩ := hwf
    have halone : Alone 0 (disks 0) r := ⟨fuel, hr⟩
    refine ⟨fuel, _, ideInit_one.mpr ⟨r, hr, rfl⟩, halone.listOk.nodup, fun t => ?_⟩
    show t ∈ r.partitionList ↔ _
    rw [halone.listOk.mem_iff]
    constructor
    · intro hrec
      have hc := hrec.1
      refine ⟨by omega, ?_⟩
      rw [hc]
      exact ⟨r, halone, hrec⟩
    · rintro ⟨hlt, r', hr', hrec⟩
      have hc : t.channel = 0 := by omega
      rw [hc] at hr' hrec
      rw [halone.unique hr']
      exact hrec

/-! ## Two channels -/

/-- A scan of the first disk, and a scan of the second one from the base it leaves. -/
theorem ideInit_of_scans {r₀ r₁ : Scan} (h₀ : Alone 0 (disks 0) r₀)
    (h₁ : ∃ fuel, partitionScan 1 (disks 1) fuel 0
      { aloneStart 1 with extLbaBase := r₀.extLbaBase } = .ok r₁) :
    ∃ fuel, ideInit fuel 2 disks = .ok (afterChannel 1 (afterChannel 0 initState r₀) r₁) := by
  obtain ⟨f₀, hr₀⟩ := h₀
  obtain ⟨f₁, hr₁⟩ := h₁
  exact ⟨max f₀ f₁, ideInit_two.mpr ⟨r₀, r₁, partitionScan_le (Nat.le_max_left f₀ f₁) hr₀,
    partitionScan_le (Nat.le_max_right f₀ f₁) hr₁, rfl⟩⟩

theorem alone_noEntries (h0 : NoEntries disk) : Alone c disk (aloneStart c) :=
  ⟨1, scan_noEntries h0⟩

theorem independent_two (h0 : NoEntries (disks 0)) (h1 : NoExtended (disks 1))
    (hwf : WellFormed 1 (disks 1)) : Independent 2 disks := by
  refine ⟨fun c hc disks' hwf' heq => ?_, ?_⟩
  · obtain ⟨r₀, hr₀⟩ := hwf' 0 (by decide)
    obtain ⟨r₁, f₁, hr₁⟩ := hwf' 1 (by decide)
    by_cases hc0 : c = 0
    · -- the first disk leaves the base clear
      subst hc0
      rw [heq] at hr₀
      have hr₀' := alone_noEntries (c := 0) h0
      rw [← heq] at hr₀'
      obtain ⟨fuel, hinit⟩ := ideInit_of_scans hr₀' ⟨f₁, hr₁⟩
      refine ⟨fuel, _, hinit, fun r hr => ?_⟩
      rw [hr.unique hr₀', afterChannel_of_ne (by decide), afterChannel_self]
    · -- the second disk does not look at it
      obtain rfl : c = 1 := by omega
      rw [← heq] at h1
      have hbase := (scan_noExtended h1 hr₁).2 r₀.extLbaBase
      obtain ⟨fuel, hinit⟩ := ideInit_of_scans hr₀ ⟨f₁, hbase⟩
      refine ⟨fuel, _, hinit, fun r hr => ?_⟩
      rw [hr.unique ⟨f₁, hr₁⟩]
      exact afterChannel_self
  · obtain ⟨r₁, f₁, hr₁⟩ := hwf
    have hr₀ := alone_noEntries (c := 0) h0
    have halone : Alone 1 (disks 1) r₁ := ⟨f₁, hr₁⟩
    obtain ⟨fuel, hinit⟩ := ideInit_of_scans hr₀ ⟨f₁, hr₁⟩
    refine ⟨fuel, _, hinit, halone.listOk.nodup, fun t => ?_⟩
    show t ∈ r₁.partitionList ↔ _
    rw [halone.listOk.mem_iff]
    constructor
    · intro hrec
      have hc := hrec.1
      refine ⟨by omega, ?_⟩
      rw [hc]
      exact ⟨r₁, halone, hrec⟩
    · rintro ⟨hlt, r', hr', hrec⟩
      by_cases hc : t.channel = 0
      · rw [hc] at hr' hrec
        rw [hr'.unique hr₀] at hrec
        have hidx := hrec.2
        simp [aloneStart] at hidx
      · have hc : t.channel = 1 := by omega
        rw [hc] at hr' hrec
        rw [halone.unique hr']
        exact hrec

/-- What a run of `ide_init` says about the two scans. -/
theorem scans_of_ideInit (h : ideInit fuel 2 disks = .ok st) :
    ∃ r₀ r₁, Alone 0 (disks 0) r₀ ∧
      partitionScan 1 (disks 1) fuel 0 { aloneStart 1 with extLbaBase := r₀.extLbaBase } = .ok r₁ ∧
      st = afterChannel 1 (afterChannel 0 initState r₀) r₁ := by
  obtain ⟨r₀, r₁, hr₀, hr₁, hst⟩ := ideInit_two.mp h
  exact ⟨r₀, r₁, ⟨fuel, hr₀⟩, hr₁, hst⟩

theorem wellFormed_pair {d₀ d₁ : Bytes} (h₀ : WellFormed 0 d₀) (h₁ : WellFormed 1 d₁) :
    ∀ k, k < 2 → WellFormed k (if k = 0 then d₀ else d₁) := by
  intro k hk
  by_cases hk0 : k = 0
  · rw [hk0]
    exact h₀
  · obtain rfl : k = 1 := by omega
    exact h₁

/-- An extended partition on the first disk spoils the scan of the second one. -/
theorem noExtended_first (h : Independent 2 disks) (hwf : WellFormed 0 (disks 0)) :
    NoExtended (disks 0) := by
  by_contra h5
  obtain ⟨k, hk⟩ := exists_firstExtended h5
  obtain ⟨fuel, st, hinit, -⟩ := h.records 0 (by decide) (fun k => if k = 0 then disks 0 else farDisk)
    (wellFormed_pair hwf ⟨_, farDisk_alone 1⟩) rfl
  obtain ⟨r₀, r₁, ⟨f₀, hr₀⟩, hr₁, -⟩ := scans_of_ideInit hinit
  obtain ⟨h1, hmax, hbase⟩ := scan_extended hk rfl hr₀
  refine scan_far farDisk_first ?_ ?_ hr₁
  · show r₀.extLbaBase ≠ 0
    omega
  · show maxLba < ((mbrEntry farDisk 0).startLba + r₀.extLbaBase) % 2 ^ 32
    rw [farDisk_start, hbase]
    have hm : maxLba = 163839 := rfl
    omega

/-- An extended partition on the second disk is looked for in the wrong place. -/
theorem noExtended_second (h : Independent 2 disks) (hwf : WellFormed 1 (disks 1)) :
    NoExtended (disks 1) := by
  by_contra h5
  obtain ⟨k, hk⟩ := exists_firstExtended h5
  obtain ⟨r, f, hr⟩ := hwf
  obtain ⟨h1, hmax, -⟩ := scan_extended hk rfl hr
  obtain ⟨fuel, st, hinit, -⟩ := h.records 1 (by decide) (fun k => if k = 0 then farDisk else disks 1)
    (wellFormed_pair ⟨_, farDisk_alone 0⟩ ⟨r, f, hr⟩) rfl
  obtain ⟨r₀, r₁, hr₀, hr₁, -⟩ := scans_of_ideInit hinit
  have hbase : r₀.extLbaBase = maxLba := by rw [hr₀.unique (farDisk_alone 0)]
  have hm : maxLba = 163839 := rfl
  refine scan_far hk ?_ ?_ hr₁
  · show r₀.extLbaBase ≠ 0
    omega
  · show maxLba < ((mbrEntry (disks 1) k).startLba + r₀.extLbaBase) % 2 ^ 32
    omega

/-- A partition of the first disk is lost when the list is initialised again. -/
theorem noEntries_first (h : ListComplete 2 disks) (h5 : NoExtended (disks 0)) :
    NoEntries (disks 0) := by
  by_contra h0
  obtain ⟨fuel, st, hinit, -, hmem⟩ := h
  obtain ⟨r₀, r₁, ⟨f₀, hr₀⟩, hr₁, rfl⟩ := scans_of_ideInit hinit
  have hpos := scan_counted h5 h0 (s := aloneStart 0) (Nat.succ_pos 3) hr₀
  have hlost : (⟨0, false, 0⟩ : Tag) ∈ r₁.partitionList :=
    (hmem ⟨0, false, 0⟩).mpr ⟨by decide, r₀, ⟨f₀, hr₀⟩, rfl, hpos⟩
  have hother := ((ListOk.run (listOk_start r₀.extLbaBase) hr₁).mem_iff _).mp hlost
  exact absurd hother.1 (by decide)

/-! ## Main result -/

/-- **Independence of the disks.**  With one channel the scan is that of the disk alone.  With two
channels what is recorded for one disk depends on the other, or partitions are missing from
`partition_list`, unless the partition table of the first disk is empty and the second disk has no
extended partition. -/
theorem independent_iff (hcnt : channelCnt = 1 ∨ channelCnt = 2)
    (hwf : ∀ k, k < channelCnt → WellFormed k (disks k)) :
    Independent channelCnt disks ↔
      channelCnt = 1 ∨ NoEntries (disks 0) ∧ NoExtended (disks 1) := by
  constructor
  · intro h
    rcases hcnt with h1 | rfl
    · exact Or.inl h1
    · have h5 := noExtended_first h (hwf 0 (by decide))
      exact Or.inr ⟨noEntries_first h.list h5, noExtended_second h (hwf 1 (by decide))⟩
  · intro h
    rcases hcnt with rfl | rfl
    · exact independent_one (hwf 0 (by decide))
    · rcases h with h2 | ⟨h0, h1⟩
      · cases h2
      · exact independent_two h0 h1 (hwf 1 (by decide))

/-- A disk with one primary partition. -/
def oneDisk : Bytes := Function.update ((zeros.putWord 454 63).putWord 458 4708) 450 0x83#8

theorem oneDisk_wellFormed : WellFormed c oneDisk := by
  obtain ⟨bs, hentry, hscan⟩ := @scan_mbr c oneDisk
  refine ⟨recordPrim c (mbrEntry oneDisk 0) (aloneStart c), 1, (hscan 0 _).trans ?_⟩
  refine scanEntries_succ.mpr ⟨false, recordPrim c (mbrEntry oneDisk 0) (aloneStart c), ?_, ?_⟩
  · rw [hentry 0 (by decide)]
    exact .prim (by decide) (by decide) rfl (show (0 + 1) % 2 ^ 8 < 4 by decide)
  · refine scanEntries_empty fun j h1 h2 => ?_
    rw [hentry j (by omega)]
    have h123 : ∀ j, 1 ≤ j → j < 4 → (mbrEntry oneDisk j).fsType = 0#8 := by decide
    exact h123 j (by omega) (by omega)

/-- The first disk is empty, and the second one has one primary partition. -/
theorem independent_iff_one :
    Independent 2 (fun k => if k = 0 then zeros else oneDisk) ↔
      (2 : ℕ) = 1 ∨ NoEntries zeros ∧ NoExtended oneDisk :=
  independent_iff (Or.inr rfl)
    (wellFormed_pair ⟨_, alone_noEntries fun _ _ => rfl⟩ oneDisk_wellFormed)

/-- The first disk has one primary partition, and the second one is empty: the partition is recorded,
and the list forgets it. -/
theorem partition_forgotten :
    (∀ k, k < 2 → WellFormed k (if k = 0 then oneDisk else zeros)) ∧
      ¬ ListComplete 2 (fun k => if k = 0 then oneDisk else zeros) ∧
      ¬ Independent 2 (fun k => if k = 0 then oneDisk else zeros) := by
  have hlist : ¬ ListComplete 2 (fun k => if k = 0 then oneDisk else zeros) := by
    intro h
    have hno : NoExtended oneDisk := by
      unfold NoExtended
      decide
    have hentry := noEntries_first h hno 0 (by decide)
    exact absurd hentry (by decide)
  exact ⟨wellFormed_pair oneDisk_wellFormed ⟨_, alone_noEntries fun _ _ => rfl⟩, hlist,
    fun h => hlist h.list⟩

end HcOs.Ide
