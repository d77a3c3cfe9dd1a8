import HcOs.Device.PartitionScan

/-!
# The partitions of a well-formed disk

The tables of a disk are lists of four entries, and `partition_scan` goes through them entry by
entry (`partitionScan_table`).  The extended partition of a well-formed disk holds a chain of boot
sectors, each with one logical partition and at most one link to the next.

* `scan_wellFormed`: `partition_scan` records the ordinary entries of the master boot record and
  the logical partitions of the chain, each once, and nothing else.
-/

namespace HcOs.Ide

open HcOs.Lib HcOs.Sectors HcOs.Fs
open HcOs.Disk (maxLba)

variable {c fuel lba base : ℕ} {disk : Bytes} {scan : ℕ → Scan → Except Halt Scan}
variable {e : TableEntry} {es : List TableEntry} {s r : Scan}

/-! ## Tables as lists -/

deriving instance DecidableEq for TableEntry

/-- The entry holds a partition. -/
def TableEntry.Ordinary (e : TableEntry) : Prop := e.fsType ≠ 0#8 ∧ e.fsType ≠ 5#8

instance (e : TableEntry) : Decidable e.Ordinary := inferInstanceAs (Decidable (_ ∧ _))

/-- The entry is an extended partition, or a link in one. -/
def TableEntry.Extended (e : TableEntry) : Prop := e.fsType = 5#8

instance (e : TableEntry) : Decidable e.Extended := inferInstanceAs (Decidable (_ = _))

/-- The table of the boot sector at `lba`. -/
def table (disk : Bytes) (lba : ℕ) : List TableEntry :=
  (List.range 4).map fun i => tableEntry (fun a => disk (lba * 512 + a)) i

/-- The loop of `partition_scan` over a list of entries. -/
def scanList (c extLba : ℕ) (scan : ℕ → Scan → Except Halt Scan) :
    List TableEntry → Scan → Except Halt Scan
  | [], s => .ok s
  | e :: es, s => do
    let (done, s) ← scanEntry c extLba scan e s
    if done then .ok s else scanList c extLba scan es s

theorem scanEntries_eq (bs : Bytes) (left i : ℕ) :
    scanEntries c lba scan bs left i s =
      scanList c lba scan ((List.range' i left).map (tableEntry bs)) s := by
  induction left generalizing i s with
  | zero => rfl
  | succ left ih =>
    simp only [scanEntries, List.range'_succ, List.map_cons, scanList, ih]

/-- What is read from `lba` holds its table. -/
theorem table_copy :
    (List.range 4).map (tableEntry (zeros.copy 0 disk (lba * 512) (1 * 512))) = table disk lba := by
  apply List.map_congr_left
  intro i hi
  have hlt := List.mem_range.mp hi
  unfold tableEntry
  rw [Bytes.copy_of_mem (by omega) (by omega), Bytes.getWord_copy_of_mem (by omega) (by omega),
    Bytes.getWord_copy_of_mem (by omega) (by omega)]
  simp only [Bytes.getWord, Nat.sub_zero, Nat.add_assoc]

/-- Inside the disk, a call goes through the table of its sector. -/
theorem partitionScan_table (hlba : lba ≤ maxLba) :
    partitionScan c disk (fuel + 1) lba s =
      scanList c lba (partitionScan c disk fuel) (table disk lba) s := by
  rw [partitionScan, ideRead_eq (Nat.le_refl 1) (by omega), ok_bind, scanEntries_eq,
    ← List.range_eq_range', table_copy]

theorem scanList_cons_of {s' : Scan} (h : EntryStep c lba scan e s false s') :
    scanList c lba scan (e :: es) s = scanList c lba scan es s' := by
  rw [scanList, scanEntry_iff.mpr h, ok_bind]
  rfl

/-- Empty entries are skipped. -/
theorem scanList_filter :
    scanList c lba scan es s = scanList c lba scan (es.filter (·.fsType ≠ 0#8)) s := by
  induction es generalizing s with
  | nil => rfl
  | cons e es ih =>
    by_cases h0 : e.fsType = 0#8
    · rw [scanList_cons_of (.empty h0), List.filter_cons_of_neg (by simpa using h0)]
      exact ih
    · rw [List.filter_cons_of_pos (by simpa using h0)]
      simp only [scanList, ih]

/-! ## Recording -/

/-- The entry `p.2` of the table at `p.1` is recorded. -/
def record (c : ℕ) (s : Scan) (p : ℕ × TableEntry) : Scan :=
  if p.1 = 0 then recordPrim c p.2 s else recordLogic c p.1 p.2 s

/-- The entries are recorded one after the other. -/
def recordAll (c : ℕ) (ms : List (ℕ × TableEntry)) (s : Scan) : Scan := ms.foldl (record c) s

/-- The partition an entry of `prim_parts` describes. -/
def primPart (s : Scan) (i : ℕ) (e : TableEntry) : Partition :=
  ⟨e.startLba, e.secCnt, 1, s.hd.name ++ toString (i + 1)⟩

/-- The partition an entry of `logic_parts` describes; its start is relative to its own boot
sector. -/
def logicPart (s : Scan) (i : ℕ) (p : ℕ × TableEntry) : Partition :=
  ⟨(p.1 + p.2.startLba) % 2 ^ 32, p.2.secCnt, 1, s.hd.name ++ toString (i + 5)⟩

/-- The ordinary entries of the master boot record among the recorded ones. -/
def prims (ms : List (ℕ × TableEntry)) : List TableEntry :=
  (ms.filter (·.1 = 0)).map Prod.snd

def logics (ms : List (ℕ × TableEntry)) : List (ℕ × TableEntry) := ms.filter (·.1 ≠ 0)

/-- `r` is `s` with the entries `ps` in `prim_parts` and `ls` in `logic_parts`, from the counters of
`s` on. -/
structure Records (c : ℕ) (s : Scan) (ps : List TableEntry) (ls : List (ℕ × TableEntry))
    (r : Scan) : Prop where
  pNo : r.pNo = s.pNo + ps.length
  lNo : r.lNo = s.lNo + ls.length
  name : r.hd.name = s.hd.name
  prim : ∀ i e, ps[i]? = some e → r.hd.primParts (s.pNo + i) = primPart s (s.pNo + i) e
  logic : ∀ i p, ls[i]? = some p → r.hd.logicParts (s.lNo + i) = logicPart s (s.lNo + i) p
  prim_other : ∀ i, (∀ j, j < ps.length → i ≠ s.pNo + j) → r.hd.primParts i = s.hd.primParts i
  logic_other : ∀ i, (∀ j, j < ls.length → i ≠ s.lNo + j) → r.hd.logicParts i = s.hd.logicParts i
  list : ∃ tags, r.partitionList = s.partitionList ++ tags ∧
    tags.Perm ((List.range ps.length).map (fun i => ⟨c, false, s.pNo + i⟩) ++
      (List.range ls.length).map fun i => ⟨c, true, s.lNo + i⟩)

theorem Records.nil : Records c s [] [] s where
  pNo := rfl
  lNo := rfl
  name := rfl
  prim _ _ h := by cases h
  logic _ _ h := by cases h
  prim_other _ _ := rfl
  logic_other _ _ := rfl
  list := ⟨[], (List.append_nil _).symm, List.Perm.refl _⟩

variable {ps : List TableEntry} {ls ms : List (ℕ × TableEntry)} {p : ℕ × TableEntry}

/-- An element of a list with one more is an old one, or the new one at the end. -/
theorem getElem?_snoc {α : Type} {xs : List α} {a x : α} {i : ℕ} (hi : (xs ++ [a])[i]? = some x) :
    (i < xs.length ∧ xs[i]? = some x) ∨ (i = xs.length ∧ x = a) := by
  by_cases hlt : i < xs.length
  · rw [List.getElem?_append_left hlt] at hi
    exact Or.inl ⟨hlt, hi⟩
  · have hlen := (List.getElem?_eq_some_iff.mp hi).1
    rw [List.length_append, List.length_singleton] at hlen
    have heq : i = xs.length := by omega
    rw [heq, List.getElem?_concat_length] at hi
    exact Or.inr ⟨heq, (Option.some.inj hi).symm⟩

/-- One more primary partition. -/
theorem Records.snoc_prim (h : Records c s ps ls r) (hp : r.pNo + 1 < 2 ^ 8) :
    Records c s (ps ++ [e]) ls (recordPrim c e r) where
  pNo := by
    have := h.pNo
    simp only [recordPrim, List.length_append, List.length_singleton]
    omega
  lNo := h.lNo
  name := h.name
  prim i e' hi := by
    rw [recordPrim]
    rcases getElem?_snoc hi with ⟨hlt, hi⟩ | ⟨rfl, rfl⟩
    · simp only
      rw [Function.update_of_ne (by have := h.pNo; omega)]
      exact h.prim i e' hi
    · simp only [← h.pNo, Function.update_self, primPart, h.name]
  logic := h.logic
  prim_other i hi := by
    simp only [List.length_append, List.length_singleton] at hi
    rw [recordPrim]
    simp only
    rw [Function.update_of_ne (by rw [h.pNo]; exact hi ps.length (by omega))]
    exact h.prim_other i fun j hj => hi j (by omega)
  logic_other := h.logic_other
  list := by
    obtain ⟨tags, hlist, hperm⟩ := h.list
    refine ⟨tags ++ [⟨c, false, r.pNo⟩], ?_, ?_⟩
    · simp only [recordPrim, hlist, List.append_assoc]
    · rw [List.length_append, List.length_singleton, List.range_succ, List.map_append, h.pNo]
      refine (hperm.append_right _).trans ?_
      rw [List.append_assoc, List.append_assoc]
      exact List.perm_append_comm.append_left _

/-- One more logical partition. -/
theorem Records.snoc_logic (h : Records c s ps ls r) (hl : r.lNo + 1 < 2 ^ 8) :
    Records c s ps (ls ++ [p]) (recordLogic c p.1 p.2 r) where
  pNo := h.pNo
  lNo := by
    have := h.lNo
    simp only [recordLogic, List.length_append, List.length_singleton]
    omega
  name := h.name
  prim := h.prim
  logic i p' hi := by
    rw [recordLogic]
    rcases getElem?_snoc hi with ⟨hlt, hi⟩ | ⟨rfl, rfl⟩
    · simp only
      rw [Function.update_of_ne (by have := h.lNo; omega)]
      exact h.logic i p' hi
    · simp only [← h.lNo, Function.update_self, logicPart, h.name]
  prim_other := h.prim_other
  logic_other i hi := by
    simp only [List.length_append, List.length_singleton] at hi
    rw [recordLogic]
    simp only
    rw [Function.update_of_ne (by rw [h.lNo]; exact hi ls.length (by omega))]
    exact h.logic_other i fun j hj => hi j (by omega)
  list := by
    obtain ⟨tags, hlist, hperm⟩ := h.list
    refine ⟨tags ++ [⟨c, true, r.lNo⟩], ?_, ?_⟩
    · simp only [recordLogic, hlist, List.append_assoc]
    · rw [List.length_append, List.length_singleton, List.range_succ, List.map_append, h.lNo,
        ← List.append_assoc]
      exact hperm.append_right _

/-- Entries recorded one after the other fill the slots from the counters on, in their order. -/
theorem records_recordAll (hp : s.pNo + (prims ms).length < 2 ^ 8)
    (hl : s.lNo + (logics ms).length < 2 ^ 8) :
    Records c s (prims ms) (logics ms) (recordAll c ms s) := by
  induction ms using List.reverseRecOn with
  | nil => exact Records.nil
  | append_singleton ms p ih =>
    rw [recordAll, List.foldl_append, List.foldl_cons, List.foldl_nil, ← recordAll]
    by_cases h0 : p.1 = 0
    · have hprims : prims (ms ++ [p]) = prims ms ++ [p.2] := by
        simp [prims, h0]
      have hlogics : logics (ms ++ [p]) = logics ms := by
        simp [logics, h0]
      rw [hprims, List.length_append, List.length_singleton] at hp
      rw [hlogics] at hl
      rw [hprims, hlogics, record, if_pos h0]
      have hms := ih (by omega) hl
      exact hms.snoc_prim (by have := hms.pNo; omega)
    · have hprims : prims (ms ++ [p]) = prims ms := by
        simp [prims, h0]
      have hlogics : logics (ms ++ [p]) = logics ms ++ [p] := by
        simp [logics, h0]
      rw [hprims] at hp
      rw [hlogics, List.length_append, List.length_singleton] at hl
      rw [hprims, hlogics, record, if_neg h0]
      have hms := ih hp (by omega)
      exact hms.snoc_logic (by have := hms.lNo; omega)

/-! ## The chain of the extended partition -/

/-- The boot sectors from `lba` on, each with its logical partition: the used entries of a table are
an ordinary one and at most one link, which is relative to the extended partition. -/
inductive Chain (disk : Bytes) (base : ℕ) : ℕ → List (ℕ × TableEntry) → Prop
  | last {lba : ℕ} {e : TableEntry} : (table disk lba).filter (·.fsType ≠ 0#8) = [e] → e.Ordinary →
      Chain disk base lba [(lba, e)]
  | link {lba : ℕ} {e l : TableEntry} {ls : List (ℕ × TableEntry)} :
      (table disk lba).filter (·.fsType ≠ 0#8) = [e, l] → e.Ordinary → l.Extended →
      Chain disk base ((l.startLba + base) % 2 ^ 32) ls → Chain disk base lba ((lba, e) :: ls)

theorem Chain.length_pos (h : Chain disk base lba ls) : 0 < ls.length := by
  cases h <;> exact Nat.succ_pos _

/-- A logical partition is recorded; the eighth one ends the call. -/
theorem scanList_logic (he : e.Ordinary) (hlba : lba ≠ 0) (hl : s.lNo < 8) :
    scanList c lba scan (e :: es) s =
      if 8 ≤ s.lNo + 1 then .ok (recordLogic c lba e s)
      else scanList c lba scan es (recordLogic c lba e s) := by
  have hstep : scanEntry c lba scan e s =
      .ok (decide (8 ≤ (recordLogic c lba e s).lNo), recordLogic c lba e s) :=
    scanEntry_iff.mpr (.logic he.2 he.1 hlba hl)
  have hlNo : (recordLogic c lba e s).lNo = s.lNo + 1 := Nat.mod_eq_of_lt (by omega)
  rw [scanList, hstep, ok_bind, hlNo]
  simp only [decide_eq_true_eq]

/-- The chain is recorded in its order. -/
theorem scan_chain (h : Chain disk base lba ls) (hbase : base ≠ 0) (hs : s.extLbaBase = base)
    (hsec : ∀ p ∈ ls, p.1 ≠ 0 ∧ p.1 ≤ maxLba) (hl : s.lNo + ls.length ≤ 8)
    (hfuel : ls.length ≤ fuel) : partitionScan c disk fuel lba s = .ok (recordAll c ls s) := by
  induction h generalizing fuel s with
  | @last lba e hused he =>
    obtain ⟨hne, hle⟩ := hsec _ List.mem_cons_self
    obtain ⟨fuel, rfl⟩ := Nat.exists_eq_add_of_le' (show 1 ≤ fuel from hfuel)
    rw [partitionScan_table hle, scanList_filter, hused,
      scanList_logic he hne (Nat.lt_of_succ_le hl), recordAll, List.foldl_cons, record, if_neg hne]
    split <;> rfl
  | @link lba e l ls hused he hlink hchain ih =>
    obtain ⟨hne, hle⟩ := hsec _ List.mem_cons_self
    have hpos := hchain.length_pos
    rw [List.length_cons] at hl hfuel
    obtain ⟨fuel, rfl⟩ := Nat.exists_eq_add_of_le' (show 1 ≤ fuel by omega)
    have hlNo : (recordLogic c lba e s).lNo = s.lNo + 1 := Nat.mod_eq_of_lt (by omega)
    have hrest : partitionScan c disk fuel ((l.startLba + base) % 2 ^ 32) (recordLogic c lba e s) =
        .ok (recordAll c ls (recordLogic c lba e s)) := by
      apply ih
      · exact hs
      · exact fun p hp => hsec p (List.mem_cons_of_mem _ hp)
      · omega
      · omega
    have hnext : EntryStep c lba (partitionScan c disk fuel) l (recordLogic c lba e s) false
        (recordAll c ls (recordLogic c lba e s)) := by
      apply EntryStep.next hlink
      · rw [show (recordLogic c lba e s).extLbaBase = base from hs]
        exact hbase
      · rw [show (recordLogic c lba e s).extLbaBase = base from hs]
        exact hrest
    rw [partitionScan_table hle, scanList_filter, hused, scanList_logic he hne (by omega),
      if_neg (by omega), scanList_cons_of hnext, scanList, recordAll, recordAll, List.foldl_cons,
      record, if_neg hne]

/-! ## The master boot record -/

theorem recordAll_base (b : ℕ) :
    recordAll c ms { s with extLbaBase := b } = { recordAll c ms s with extLbaBase := b } := by
  induction ms generalizing s with
  | nil => rfl
  | cons p ms ih =>
    have hrecord : record c { s with extLbaBase := b } p =
        { record c s p with extLbaBase := b } := by
      unfold record
      split <;> rfl
    simp only [recordAll, List.foldl_cons, hrecord]
    exact ih

theorem recordAll_pNo (hms : ∀ p ∈ ms, p.1 ≠ 0) : (recordAll c ms s).pNo = s.pNo := by
  induction ms generalizing s with
  | nil => rfl
  | cons p ms ih =>
    rw [recordAll, List.foldl_cons, record, if_neg (hms p List.mem_cons_self)]
    exact ih fun q hq => hms q (List.mem_cons_of_mem p hq)

/-- A primary partition is recorded. -/
theorem scanList_prim (he : e.Ordinary) (hp : s.pNo + 1 < 4) :
    scanList c 0 scan (e :: es) s = scanList c 0 scan es (recordPrim c e s) := by
  apply scanList_cons_of (.prim he.2 he.1 rfl ?_)
  rw [show (recordPrim c e s).pNo = s.pNo + 1 from Nat.mod_eq_of_lt (by omega)]
  exact hp

theorem ordinary_or (e : TableEntry) : e.fsType = 0#8 ∨ e.Ordinary ∨ e.Extended := by
  by_cases h0 : e.fsType = 0#8
  · exact Or.inl h0
  · by_cases h5 : e.fsType = 5#8
    · exact Or.inr (Or.inr h5)
    · exact Or.inr (Or.inl ⟨h0, h5⟩)

theorem not_ordinary_of_empty (h0 : e.fsType = 0#8) : ¬e.Ordinary ∧ ¬e.Extended := by
  refine ⟨fun h => h.1 h0, fun h => ?_⟩
  rw [TableEntry.Extended, h0] at h
  exact absurd h (by decide)

/-- Entries of the master boot record without an extended partition. -/
theorem scanList_prims (hext : es.filter (·.Extended) = [])
    (hp : s.pNo + (es.filter (·.Ordinary)).length < 4) :
    scanList c 0 scan es s = .ok (recordAll c ((es.filter (·.Ordinary)).map (0, ·)) s) := by
  induction es generalizing s with
  | nil => rfl
  | cons e es ih =>
    rcases ordinary_or e with h0 | he | he
    · obtain ⟨hno, hne⟩ := not_ordinary_of_empty h0
      rw [List.filter_cons_of_neg (by simpa using hne)] at hext
      rw [List.filter_cons_of_neg (by simpa using hno)] at hp ⊢
      rw [scanList_cons_of (.empty h0)]
      exact ih hext hp
    · have hne : ¬e.Extended := he.2
      rw [List.filter_cons_of_neg (by simpa using hne)] at hext
      rw [List.filter_cons_of_pos (by simpa using he)] at hp ⊢
      rw [List.length_cons] at hp
      have hpNo : (recordPrim c e s).pNo = s.pNo + 1 := Nat.mod_eq_of_lt (by omega)
      rw [scanList_prim he (by omega), ih hext (by omega), recordAll, recordAll, List.map_cons,
        List.foldl_cons, record, if_pos rfl]
    · rw [List.filter_cons_of_pos (by simpa using he)] at hext
      cases hext

/-- What is recorded, in this order, when the extended partition among the entries of the master
boot record holds the logical partitions `ls`. -/
def mbrMarks (ls : List (ℕ × TableEntry)) : List TableEntry → List (ℕ × TableEntry)
  | [] => []
  | e :: es =>
    if e.Extended then ls ++ mbrMarks ls es
    else if e.Ordinary then (0, e) :: mbrMarks ls es
    else mbrMarks ls es

theorem mbrMarks_of_none (hext : es.filter (·.Extended) = []) :
    mbrMarks ls es = (es.filter (·.Ordinary)).map (0, ·) := by
  induction es with
  | nil => rfl
  | cons e es ih =>
    by_cases he : e.Extended
    · rw [List.filter_cons_of_pos (by simpa using he)] at hext
      cases hext
    · rw [List.filter_cons_of_neg (by simpa using he)] at hext
      rw [mbrMarks, if_neg he, ih hext]
      by_cases ho : e.Ordinary
      · rw [if_pos ho, List.filter_cons_of_pos (by simpa using ho), List.map_cons]
      · rw [if_neg ho, List.filter_cons_of_neg (by simpa using ho)]

/-- Entries of the master boot record with one extended partition. -/
theorem scanList_mbr {x : TableEntry} (hext : es.filter (·.Extended) = [x])
    (hb : s.extLbaBase = 0) (hp : s.pNo + (es.filter (·.Ordinary)).length < 4)
    (hls : ∀ p ∈ ls, p.1 ≠ 0)
    (hscan : ∀ s', s'.extLbaBase = x.startLba → s'.lNo = s.lNo →
      scan x.startLba s' = .ok (recordAll c ls s')) :
    scanList c 0 scan es s =
      .ok (recordAll c (mbrMarks ls es) { s with extLbaBase := x.startLba }) := by
  induction es generalizing s with
  | nil => cases hext
  | cons e es ih =>
    rcases ordinary_or e with h0 | he | he
    · obtain ⟨hno, hne⟩ := not_ordinary_of_empty h0
      rw [List.filter_cons_of_neg (by simpa using hne)] at hext
      rw [List.filter_cons_of_neg (by simpa using hno)] at hp
      rw [scanList_cons_of (.empty h0), mbrMarks, if_neg hne, if_neg hno]
      exact ih hext hb hp hscan
    · have hne : ¬e.Extended := he.2
      rw [List.filter_cons_of_neg (by simpa using hne)] at hext
      rw [List.filter_cons_of_pos (by simpa using he), List.length_cons] at hp
      have hpNo : (recordPrim c e s).pNo = s.pNo + 1 := Nat.mod_eq_of_lt (by omega)
      rw [scanList_prim he (by omega), mbrMarks, if_neg hne, if_pos he]
      exact ih (s := recordPrim c e s) hext hb (by omega) hscan
    · rw [List.filter_cons_of_pos (by simpa using he)] at hext
      obtain ⟨rfl, hnone⟩ := List.cons.inj hext
      have hno : ¬e.Ordinary := fun h => h.2 he
      rw [List.filter_cons_of_neg (by simpa using hno)] at hp
      have hpNo : (recordAll c ls { s with extLbaBase := e.startLba }).pNo = s.pNo :=
        recordAll_pNo hls
      rw [scanList_cons_of (.first he hb (hscan _ rfl rfl)), scanList_prims hnone (by omega),
        mbrMarks, if_pos he, mbrMarks_of_none hnone, recordAll, recordAll, recordAll,
        List.foldl_append]

theorem prims_mbrMarks (hls : ∀ p ∈ ls, p.1 ≠ 0) :
    prims (mbrMarks ls es) = es.filter (·.Ordinary) := by
  have hnone : prims ls = [] := by
    rw [prims, List.filter_eq_nil_iff.mpr fun p hp => by simpa using hls p hp, List.map_nil]
  induction es with
  | nil => rfl
  | cons e es ih =>
    rw [mbrMarks]
    by_cases he : e.Extended
    · have hno : ¬e.Ordinary := fun h => h.2 he
      rw [if_pos he, List.filter_cons_of_neg (by simpa using hno), ← ih]
      simp only [prims, List.filter_append, List.map_append] at hnone ⊢
      rw [hnone, List.nil_append]
    · rw [if_neg he]
      by_cases ho : e.Ordinary
      · rw [if_pos ho, List.filter_cons_of_pos (by simpa using ho), ← ih]
        simp [prims]
      · rw [if_neg ho, List.filter_cons_of_neg (by simpa using ho), ih]

theorem logics_mbrMarks {x : TableEntry} (hls : ∀ p ∈ ls, p.1 ≠ 0)
    (hext : es.filter (·.Extended) = [x]) : logics (mbrMarks ls es) = ls := by
  induction es with
  | nil => cases hext
  | cons e es ih =>
    rw [mbrMarks]
    by_cases he : e.Extended
    · rw [List.filter_cons_of_pos (by simpa using he)] at hext
      obtain ⟨-, hnone⟩ := List.cons.inj hext
      have hprims : logics ((es.filter (·.Ordinary)).map (0, ·)) = [] := by
        rw [logics, List.filter_eq_nil_iff]
        intro p hp
        obtain ⟨e', -, rfl⟩ := List.mem_map.mp hp
        simp
      have hself : logics ls = ls := List.filter_eq_self.mpr fun p hp => by simpa using hls p hp
      rw [if_pos he, mbrMarks_of_none hnone]
      simp only [logics, List.filter_append] at hprims hself ⊢
      rw [hprims, hself, List.append_nil]
    · rw [List.filter_cons_of_neg (by simpa using he)] at hext
      rw [if_neg he]
      by_cases ho : e.Ordinary
      · rw [if_pos ho]
        simpa [logics] using ih hext
      · rw [if_neg ho, ih hext]

/-- The tables of a well-formed disk: the ordinary entries `ps` of the master boot record, and the
logical partitions `ls` of its extended partition, each with the sector of its table.  A finite
chain does not come back to a sector. -/
structure Tables (disk : Bytes) (ps : List TableEntry) (ls : List (ℕ × TableEntry)) : Prop where
  prims : (table disk 0).filter (·.Ordinary) = ps
  three : ps.length ≤ 3
  chain : (table disk 0).filter (·.Extended) = [] ∧ ls = [] ∨
    ∃ x, (table disk 0).filter (·.Extended) = [x] ∧ Chain disk x.startLba x.startLba ls
  sectors : ∀ p ∈ ls, p.1 ≠ 0 ∧ p.1 ≤ maxLba
  eight : ls.length ≤ 8

theorem Chain.head (h : Chain disk base lba ls) : ∃ e ls', ls = (lba, e) :: ls' := by
  cases h with
  | last => exact ⟨_, _, rfl⟩
  | link => exact ⟨_, _, rfl⟩

/-- **The partitions of a well-formed disk.**  `partition_scan` returns; it has filled `prim_parts`
with the ordinary entries of the master boot record in their order and `logic_parts` with the
logical partitions in the order of the chain, appended each to `partition_list` once, and touched no
other slot. -/
theorem scan_wellFormed (h : Tables disk ps ls) (hb : s.extLbaBase = 0) (hp : s.pNo = 0)
    (hl : s.lNo = 0) (hfuel : ls.length < fuel) :
    ∃ r, partitionScan c disk fuel 0 s = .ok r ∧ Records c s ps ls r := by
  have hne : ∀ p ∈ ls, p.1 ≠ 0 := fun p hp => (h.sectors p hp).1
  have hthree := h.three
  have h8 := h.eight
  obtain ⟨fuel, rfl⟩ := Nat.exists_eq_add_of_le' (show 1 ≤ fuel by omega)
  rw [partitionScan_table (Nat.zero_le maxLba)]
  rcases h.chain with ⟨hext, rfl⟩ | ⟨x, hext, hchain⟩
  · refine ⟨_, scanList_prims hext (by rw [h.prims]; omega), ?_⟩
    rw [h.prims]
    have hprims : prims (ps.map (0, ·)) = ps := by
      have hmarks : mbrMarks [] (table disk 0) = _ := mbrMarks_of_none hext
      rw [← h.prims, ← hmarks, prims_mbrMarks (fun p hp => by cases hp)]
    have hlogics : logics (ps.map (0, ·)) = [] := by
      rw [logics, List.filter_eq_nil_iff]
      intro p hp
      obtain ⟨e', -, rfl⟩ := List.mem_map.mp hp
      simp
    have hrec : Records c s (prims (ps.map (0, ·))) (logics (ps.map (0, ·)))
        (recordAll c (ps.map (0, ·)) s) :=
      records_recordAll (by rw [hprims]; omega) (by rw [hlogics]; simp [hl])
    rw [hprims, hlogics] at hrec
    exact hrec
  · obtain ⟨e, ls', hls⟩ := hchain.head
    have hbase : x.startLba ≠ 0 := hne (x.startLba, e) (by rw [hls]; exact List.mem_cons_self)
    have hscan : ∀ s', s'.extLbaBase = x.startLba → s'.lNo = s.lNo →
        partitionScan c disk fuel x.startLba s' = .ok (recordAll c ls s') := by
      intro s' hs' hl'
      exact scan_chain hchain hbase hs' h.sectors (by omega) (by omega)
    refine ⟨_, scanList_mbr hext hb (by rw [h.prims]; omega) hne hscan, ?_⟩
    have hprims : prims (mbrMarks ls (table disk 0)) = ps := (prims_mbrMarks hne).trans h.prims
    have hlogics := logics_mbrMarks hne hext
    have hrec : Records c { s with extLbaBase := x.startLba } (prims (mbrMarks ls (table disk 0)))
        (logics (mbrMarks ls (table disk 0)))
        (recordAll c (mbrMarks ls (table disk 0)) { s with extLbaBase := x.startLba }) :=
      records_recordAll (by rw [hprims]; simp only; omega) (by rw [hlogics]; simp only; omega)
    rw [hprims, hlogics] at hrec
    exact ⟨hrec.pNo, hrec.lNo, hrec.name, hrec.prim, hrec.logic, hrec.prim_other,
      hrec.logic_other, hrec.list⟩

/-- The disk with the entry `i` of the table at `lba` written. -/
def putEntry (disk : Bytes) (lba i : ℕ) (e : TableEntry) : Bytes :=
  let p := lba * 512 + (446 + 16 * i)
  Function.update ((disk.putWord (p + 8) e.startLba).putWord (p + 12) e.secCnt) (p + 4) e.fsType

/-- A primary partition, and an extended partition with two logical ones. -/
def chainDisk : Bytes :=
  let ebr₂ := putEntry zeros 2300 0 ⟨0x83#8, 63, 200⟩
  let ebr₁ := putEntry (putEntry ebr₂ 2000 0 ⟨0x83#8, 63, 100⟩) 2000 1 ⟨5#8, 300, 263⟩
  putEntry (putEntry ebr₁ 0 0 ⟨5#8, 2000, 563⟩) 0 1 ⟨0x83#8, 63, 1900⟩

theorem chainDisk_tables :
    Tables chainDisk [⟨0x83#8, 63, 1900⟩]
      [(2000, ⟨0x83#8, 63, 100⟩), (2300, ⟨0x83#8, 63, 200⟩)] where
  prims := by decide +kernel
  three := by decide
  chain := by
    refine Or.inr ⟨⟨5#8, 2000, 563⟩, by decide +kernel, ?_⟩
    refine .link (l := ⟨5#8, 300, 263⟩) (by decide +kernel) (by decide) (by decide) ?_
    exact .last (by decide +kernel) (by decide)
  sectors := by decide
  eight := by decide

theorem scan_wellFormed_chain :
    ∃ r, partitionScan 0 chainDisk 3 0 (aloneStart 0) = .ok r ∧
      Records 0 (aloneStart 0) [⟨0x83#8, 63, 1900⟩]
        [(2000, ⟨0x83#8, 63, 100⟩), (2300, ⟨0x83#8, 63, 200⟩)] r :=
  scan_wellFormed chainDisk_tables rfl rfl rfl (by decide)

end HcOs.Ide
