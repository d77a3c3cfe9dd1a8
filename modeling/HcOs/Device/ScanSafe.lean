import HcOs.Device.PartitionChain

/-!
# `partition_scan` on any disk

The tables of a disk may link to each other in any way.  `partition_scan` follows every link; each
call has a buffer for its boot sector, which it frees at its end, but not when it returns with the
eighth logical partition.

* `scan_safe_iff`: when the recursion ends, it has been safe exactly when the tables that the links
  lead to hold few enough partitions.
-/

namespace HcOs.Ide

open HcOs.Lib HcOs.Sectors HcOs.Fs
open HcOs.Disk (maxLba)

/-! ## The buffers -/

/-- The state of a scan with what it holds of the memory. -/
structure MemScan (H : Type) extends Scan where
  held : H

/-- The state with the number of buffers that have been allocated and not freed. -/
abbrev BufScan := MemScan ℕ

variable {H : Type}

/-- One round of the loop.  Without a call it is the round of `scanEntry`. -/
def bufEntry (c extLba : ℕ) (scan : ℕ → MemScan H → Except Halt (MemScan H)) (e : TableEntry)
    (s : MemScan H) : Except Halt (Bool × MemScan H) :=
  if e.fsType = 5#8 then
    if s.extLbaBase ≠ 0 then do
      let s ← scan ((e.startLba + s.extLbaBase) % 2 ^ 32) s
      .ok (false, s)
    else do
      let s ← scan e.startLba { s with extLbaBase := e.startLba }
      .ok (false, s)
  else do
    let (done, r) ← scanEntry c extLba (fun _ _ => .error .noReturn) e s.toScan
    .ok (done, ⟨r, s.held⟩)

/-- The loop; the flag says that the function has returned in it. -/
def bufList (c extLba : ℕ) (scan : ℕ → MemScan H → Except Halt (MemScan H)) :
    List TableEntry → MemScan H → Except Halt (Bool × MemScan H)
  | [], s => .ok (false, s)
  | e :: es, s => do
    let (done, s) ← bufEntry c extLba scan e s
    if done then .ok (true, s) else bufList c extLba scan es s

/-- `partition_scan` with `sys_malloc` and `sys_free` of the boot sector. -/
def bufScan (c : ℕ) (disk : Bytes) : ℕ → ℕ → BufScan → Except Halt BufScan
  | 0, _, _ => .error .noReturn
  | fuel + 1, extLba, s => do
    let s := { s with held := s.held + 1 }
    let bs ← ideRead disk 1 extLba zeros 0 1
    let (done, s) ← bufList c extLba (bufScan c disk fuel) ((List.range 4).map (tableEntry bs)) s
    .ok (if done then s else { s with held := s.held - 1 })

/-! ## The loop, entry by entry -/

/-- The recursion ends within the bound. -/
def Ends {α : Type} (o : Except Halt α) : Prop := o ≠ .error .noReturn

theorem ends_ok {α : Type} {o : Except Halt α} {r : α} (h : o = .ok r) : Ends o := by
  rw [h]
  exact nofun

theorem Ends.of_bind {α β : Type} {x : Except Halt α} {k : α → Except Halt β}
    (h : Ends (x >>= k)) : Ends x := by
  rintro rfl
  exact h rfl

section Loop

variable {c lba : ℕ} {scan scan' : ℕ → MemScan H → Except Halt (MemScan H)}
variable {e : TableEntry} {es : List TableEntry} {s r : MemScan H} {done : Bool}

/-- The call that a link leads to. -/
def callOf (e : TableEntry) (s : MemScan H) : ℕ × MemScan H :=
  if s.extLbaBase ≠ 0 then ((e.startLba + s.extLbaBase) % 2 ^ 32, s)
  else (e.startLba, { s with extLbaBase := e.startLba })

theorem bufEntry_extended (he : e.Extended) :
    bufEntry c lba scan e s = (do
      let r ← scan (callOf e s).1 (callOf e s).2
      .ok (false, r)) := by
  have h5 : e.fsType = 5#8 := he
  rw [bufEntry, if_pos h5, callOf]
  split <;> rfl

/-- What a round without a call does. -/
inductive Plain (c lba : ℕ) (e : TableEntry) (s : MemScan H) : Bool → MemScan H → Prop
  | prim (he : e.Ordinary) (hlba : lba = 0) (hp : (recordPrim c e s.toScan).pNo < 4) :
    Plain c lba e s false ⟨recordPrim c e s.toScan, s.held⟩
  | logic (he : e.Ordinary) (hlba : lba ≠ 0) (hl : s.lNo < 8) :
    Plain c lba e s (decide (8 ≤ s.lNo + 1)) ⟨recordLogic c lba e s.toScan, s.held⟩
  | empty (h0 : e.fsType = 0#8) : Plain c lba e s false s

/-- How `partition_scan` itself fails. -/
def OwnFault (x : Halt) : Prop :=
  x = .panic "partition_scan" "p_no < 4" ∨ x = .nullDeref

theorem recordLogic_lNo (hl : s.lNo < 8) : (recordLogic c lba e s.toScan).lNo = s.lNo + 1 :=
  Nat.mod_eq_of_lt (by omega)

theorem bufEntry_plain (h : Plain c lba e s done r) :
    bufEntry c lba scan e s = .ok (done, r) := by
  have hentry : ∀ {done r}, ¬e.Extended →
      EntryStep c lba (fun _ _ => .error .noReturn) e s.toScan done r →
      bufEntry c lba scan e s = .ok (done, ⟨r, s.held⟩) := by
    intro done r he hstep
    have h5 : ¬e.fsType = 5#8 := he
    rw [bufEntry, if_neg h5, scanEntry_iff.mpr hstep, ok_bind]
  cases h with
  | prim he hlba hp => exact hentry he.2 (.prim he.2 he.1 hlba hp)
  | logic he hlba hl =>
    rw [hentry he.2 (.logic he.2 he.1 hlba hl), recordLogic_lNo hl]
  | empty h0 => exact hentry (not_ordinary_of_empty h0).2 (.empty h0)

/-- A round without a call does its work, or fails. -/
theorem plain_or_fault (c lba : ℕ) (s : MemScan H) (he : ¬e.Extended) :
    (∃ done r, Plain c lba e s done r) ∨
      ∃ x, OwnFault x ∧ ∀ scan, bufEntry c lba scan e s = .error x := by
  have h5 : ¬e.fsType = 5#8 := he
  rcases ordinary_or e with h0 | ho | h5
  · exact Or.inl ⟨_, _, .empty h0⟩
  · by_cases hlba : lba = 0
    · by_cases hp : (recordPrim c e s.toScan).pNo < 4
      · exact Or.inl ⟨_, _, .prim ho hlba hp⟩
      · refine Or.inr ⟨_, Or.inl rfl, fun scan => ?_⟩
        rw [bufEntry, if_neg h5, scanEntry, if_neg h5, if_pos ho.1, if_pos hlba,
          assert_bind_of_not hp, error_bind]
    · by_cases hl : s.lNo < 8
      · exact Or.inl ⟨_, _, .logic ho hlba hl⟩
      · refine Or.inr ⟨_, Or.inr rfl, fun scan => ?_⟩
        rw [bufEntry, if_neg h5, scanEntry, if_neg h5, if_pos ho.1, if_neg hlba, if_pos (by omega),
          error_bind]
  · exact absurd h5 he

theorem bufList_call (he : e.Extended) :
    bufList c lba scan (e :: es) s =
      scan (callOf e s).1 (callOf e s).2 >>= bufList c lba scan es := by
  rw [bufList, bufEntry_extended he]
  cases scan (callOf e s).1 (callOf e s).2 <;> rfl

theorem bufList_plain (h : Plain c lba e s done r) :
    bufList c lba scan (e :: es) s = if done then .ok (true, r) else bufList c lba scan es r := by
  rw [bufList, bufEntry_plain h, ok_bind]

theorem bufList_fault {x : Halt} (h : ∀ scan, bufEntry c lba scan e s = .error x) :
    bufList c lba scan (e :: es) s = .error x := by
  rw [bufList, h, error_bind]

theorem bufList_mono (hscan : ∀ a s, Ends (scan a s) → scan' a s = scan a s)
    (h : Ends (bufList c lba scan es s)) :
    bufList c lba scan' es s = bufList c lba scan es s := by
  induction es generalizing s with
  | nil => rfl
  | cons e es ih =>
    by_cases he : e.Extended
    · rw [bufList_call he] at h ⊢
      rw [bufList_call he, hscan _ _ h.of_bind]
      cases hcall : scan (callOf e s).1 (callOf e s).2 with
      | error x => rfl
      | ok r =>
        rw [hcall, ok_bind] at h
        exact ih h
    · rcases plain_or_fault c lba s he with ⟨done, r, hp⟩ | ⟨x, -, hx⟩
      · rw [bufList_plain hp] at h ⊢
        rw [bufList_plain hp]
        cases done with
        | true => rfl
        | false => exact ih h
      · rw [bufList_fault hx, bufList_fault hx]

/-! Without the memory, the loop is that of `HcOs.Device.PartitionScan`. -/

variable {scan₀ : ℕ → Scan → Except Halt Scan}

theorem scanList_call (he : e.Extended) :
    scanList c lba scan₀ (e :: es) s.toScan =
      scan₀ (callOf e s).1 (callOf e s).2.toScan >>= scanList c lba scan₀ es := by
  have h5 : e.fsType = 5#8 := he
  have hcall : scanEntry c lba scan₀ e s.toScan = (do
      let r ← scan₀ (callOf e s).1 (callOf e s).2.toScan
      .ok (false, r)) := by
    rw [scanEntry, if_pos h5, callOf]
    split <;> rfl
  rw [scanList, hcall]
  cases scan₀ (callOf e s).1 (callOf e s).2.toScan <;> rfl

theorem scanEntry_plain (he : ¬e.Extended) (t : Scan) :
    scanEntry c lba (fun _ _ => .error .noReturn) e t = scanEntry c lba scan₀ e t := by
  have h5 : ¬e.fsType = 5#8 := he
  rw [scanEntry, scanEntry, if_neg h5, if_neg h5]

theorem bufList_erase (hscan : ∀ a s, (scan a s).map (·.toScan) = scan₀ a s.toScan) :
    (bufList c lba scan es s).map (·.2.toScan) = scanList c lba scan₀ es s.toScan := by
  induction es generalizing s with
  | nil => rfl
  | cons e es ih =>
    by_cases he : e.Extended
    · rw [bufList_call he, scanList_call he, ← hscan]
      cases scan (callOf e s).1 (callOf e s).2 with
      | error x => rfl
      | ok r => exact ih
    · have h5 : ¬e.fsType = 5#8 := he
      rw [bufList, bufEntry, if_neg h5, scanList, scanEntry_plain he]
      cases scanEntry c lba scan₀ e s.toScan with
      | error x => rfl
      | ok p =>
        obtain ⟨done, r⟩ := p
        cases done with
        | true => rfl
        | false => exact ih (s := ⟨r, s.held⟩)

end Loop

variable {c fuel fuel' lba : ℕ} {disk : Bytes} {scan scan' : ℕ → BufScan → Except Halt BufScan}
variable {e : TableEntry} {es : List TableEntry} {s s' r : BufScan} {done : Bool}

/-! ## The depth of the calls -/

/-- Inside the disk, a call goes through the table of its sector. -/
theorem bufScan_table (hlba : lba ≤ maxLba) :
    bufScan c disk (fuel + 1) lba s = (do
      let (done, r) ← bufList c lba (bufScan c disk fuel) (table disk lba)
        { s with held := s.held + 1 }
      .ok (if done then r else { r with held := r.held - 1 })) := by
  rw [bufScan, ideRead_eq (Nat.le_refl 1) (by omega), ok_bind, table_copy]

theorem bufScan_far (hlba : maxLba < lba) :
    bufScan c disk (fuel + 1) lba s = .error (.panic "ide_read" "lba <= max_lba") := by
  rw [bufScan, ideRead, assert_bind_of_not (Nat.not_le.mpr hlba)]
  rfl

theorem bufScan_succ (h : Ends (bufScan c disk fuel lba s)) :
    bufScan c disk (fuel + 1) lba s = bufScan c disk fuel lba s := by
  induction fuel generalizing lba s with
  | zero => exact absurd rfl h
  | succ fuel ih =>
    by_cases hlba : lba ≤ maxLba
    · rw [bufScan_table hlba] at h ⊢
      rw [bufScan_table hlba, bufList_mono (fun a s h => ih h) h.of_bind]
    · rw [bufScan_far (by omega), bufScan_far (by omega)]

theorem bufScan_le (hle : fuel ≤ fuel') (h : Ends (bufScan c disk fuel lba s)) :
    bufScan c disk fuel' lba s = bufScan c disk fuel lba s := by
  induction hle with
  | refl => rfl
  | step _ ih => rw [bufScan_succ (by rw [ih]; exact h), ih]

/-- Without the buffers, `bufScan` is the function of `HcOs.Device.PartitionScan`. -/
theorem bufScan_erase (s : BufScan) :
    (bufScan c disk fuel lba s).map (·.toScan) = partitionScan c disk fuel lba s.toScan := by
  induction fuel generalizing lba s with
  | zero => rfl
  | succ fuel ih =>
    by_cases hlba : lba ≤ maxLba
    · have hlist : (bufList c lba (bufScan c disk fuel) (table disk lba)
          { s with held := s.held + 1 }).map (·.2.toScan) =
          scanList c lba (partitionScan c disk fuel) (table disk lba) s.toScan :=
        bufList_erase fun a s => ih s
      rw [bufScan_table hlba, partitionScan_table hlba, ← hlist]
      cases bufList c lba (bufScan c disk fuel) (table disk lba) { s with held := s.held + 1 } with
      | error x => rfl
      | ok p =>
        obtain ⟨done, r⟩ := p
        cases done <;> rfl
    · rw [bufScan_far (by omega), partitionScan, ideRead,
        assert_bind_of_not hlba]
      rfl

/-! ## The entries that the links lead to -/

/-- Where a link leads, and `ext_lba_base` there. -/
def target (e : TableEntry) (base : ℕ) : ℕ × ℕ :=
  if base ≠ 0 then ((e.startLba + base) % 2 ^ 32, base) else (e.startLba, e.startLba)

theorem callOf_eq :
    callOf e s =
      ((target e s.extLbaBase).1, { s with extLbaBase := (target e s.extLbaBase).2 }) := by
  unfold callOf target
  split <;> rfl

/-- The ordinary entries of a table and of all tables its links lead to, in the order of the
entries, each with the sector of its table; `walk` is for the tables that are linked to. -/
def walkList (lba : ℕ) (walk : ℕ → ℕ → Option (List (ℕ × TableEntry) × ℕ)) :
    List TableEntry → ℕ → Option (List (ℕ × TableEntry) × ℕ)
  | [], base => some ([], base)
  | e :: es, base =>
    if e.Extended then do
      let (ms, base) ← walk (target e base).1 (target e base).2
      let (ms', base) ← walkList lba walk es base
      some (ms ++ ms', base)
    else do
      let (ms, base) ← walkList lba walk es base
      some (if e.Ordinary then (lba, e) :: ms else ms, base)

/-- The ordinary entries that are found from the table at `lba` on, if the links end on the disk and
are at most `fuel` deep. -/
def walk (disk : Bytes) : ℕ → ℕ → ℕ → Option (List (ℕ × TableEntry) × ℕ)
  | 0, _, _ => none
  | fuel + 1, lba, base =>
    if lba ≤ maxLba then walkList lba (walk disk fuel) (table disk lba) base else none

/-- The links from the master boot record on end, and lead to at most three ordinary entries in
sector 0 and at most seven elsewhere. -/
def FewEntries (disk : Bytes) (base : ℕ) : Prop :=
  ∃ fuel ms b, walk disk fuel 0 base = some (ms, b) ∧ (prims ms).length ≤ 3 ∧
    (logics ms).length ≤ 7

/-- The counters of `s` leave room for the entries. -/
def Room (s : Scan) (ms : List (ℕ × TableEntry)) : Prop :=
  s.pNo + (prims ms).length ≤ 3 ∧ s.lNo + (logics ms).length ≤ 7

/-- The entries recorded, and `ext_lba_base`, with the same buffers. -/
def recorded (c : ℕ) (s : BufScan) (ms : List (ℕ × TableEntry)) (b : ℕ) : BufScan :=
  ⟨{ recordAll c ms s.toScan with extLbaBase := b }, s.held⟩

variable {ms ms' : List (ℕ × TableEntry)} {b b' base : ℕ}
variable {next : ℕ → ℕ → Option (List (ℕ × TableEntry) × ℕ)}

theorem prims_append : prims (ms ++ ms') = prims ms ++ prims ms' := by
  simp only [prims, List.filter_append, List.map_append]

theorem logics_append : logics (ms ++ ms') = logics ms ++ logics ms' := by
  simp only [logics, List.filter_append]

theorem room_recorded (h : Room s.toScan ms) :
    (recorded c s ms b).pNo = s.pNo + (prims ms).length ∧
      (recorded c s ms b).lNo = s.lNo + (logics ms).length := by
  have hrec : Records c s.toScan (prims ms) (logics ms) (recordAll c ms s.toScan) :=
    records_recordAll (by have := h.1; omega) (by have := h.2; omega)
  exact ⟨hrec.pNo, hrec.lNo⟩

theorem room_append :
    Room s.toScan (ms ++ ms') ↔
      Room s.toScan ms ∧ Room (recorded c s ms b).toScan ms' := by
  constructor
  · intro h
    have hms : Room s.toScan ms := by
      unfold Room at h ⊢
      rw [prims_append, logics_append, List.length_append, List.length_append] at h
      omega
    refine ⟨hms, ?_⟩
    obtain ⟨hp, hl⟩ := room_recorded (c := c) (b := b) hms
    unfold Room at h ⊢
    rw [prims_append, logics_append, List.length_append, List.length_append] at h
    rw [hp, hl]
    omega
  · rintro ⟨hms, h⟩
    obtain ⟨hp, hl⟩ := room_recorded (c := c) (b := b) hms
    unfold Room at h ⊢
    rw [hp, hl] at h
    rw [prims_append, logics_append, List.length_append, List.length_append]
    omega

theorem recorded_append :
    recorded c (recorded c s ms b) ms' b' = recorded c s (ms ++ ms') b' := by
  simp only [recorded, recordAll_base]
  rw [recordAll, recordAll, recordAll, List.foldl_append]

theorem room_singleton : Room s.toScan [(lba, e)] ↔
    (lba = 0 → s.pNo + 1 ≤ 3 ∧ s.lNo ≤ 7) ∧ (lba ≠ 0 → s.pNo ≤ 3 ∧ s.lNo + 1 ≤ 7) := by
  by_cases h : lba = 0 <;> simp [Room, prims, logics, h]

theorem recorded_singleton :
    recorded c s [(lba, e)] s.extLbaBase = ⟨record c s.toScan (lba, e), s.held⟩ := by
  rw [recorded, recordAll, List.foldl_cons, List.foldl_nil]
  unfold record
  split <;> rfl

theorem Plain.eq_recorded (he : e.Ordinary) (h : Plain c lba e s done r) :
    r = recorded c s [(lba, e)] s.extLbaBase := by
  rw [recorded_singleton, record]
  cases h with
  | prim _ hlba _ => rw [if_pos hlba]
  | logic _ hlba _ => rw [if_neg hlba]
  | empty h0 => exact absurd h0 he.1

/-- An ordinary entry that there is room for. -/
theorem bufList_ordinary (he : e.Ordinary) (hroom : Room s.toScan [(lba, e)]) :
    bufList c lba scan (e :: es) s =
      bufList c lba scan es (recorded c s [(lba, e)] s.extLbaBase) := by
  obtain ⟨h0, h1⟩ := room_singleton.mp hroom
  rw [recorded_singleton, record]
  by_cases hlba : lba = 0
  · have hp := (h0 hlba).1
    have hpNo : (recordPrim c e s.toScan).pNo = s.pNo + 1 := Nat.mod_eq_of_lt (by omega)
    rw [bufList_plain (.prim he hlba (by omega)), if_pos hlba]
    rfl
  · have hl := (h1 hlba).2
    rw [bufList_plain (.logic he hlba (by omega)), if_neg hlba, if_neg (by simp; omega)]

theorem bufList_empty (h0 : e.fsType = 0#8) :
    bufList c lba scan (e :: es) s = bufList c lba scan es s :=
  bufList_plain (.empty h0)

/-- A call that returns at the end of its loop had room for the entry. -/
theorem room_of_bufList (he : e.Ordinary) (hp : s.pNo ≤ 3) (hl : s.lNo ≤ 7)
    (h : bufList c lba scan (e :: es) s = .ok (false, r)) : Room s.toScan [(lba, e)] := by
  rw [room_singleton]
  rcases plain_or_fault c lba s he.2 with ⟨done, r', hplain⟩ | ⟨x, -, hx⟩
  · rw [bufList_plain hplain] at h
    cases hplain with
    | prim _ hlba hp' =>
      have hpNo : (recordPrim c e s.toScan).pNo = s.pNo + 1 := Nat.mod_eq_of_lt (by omega)
      exact ⟨fun _ => ⟨by omega, hl⟩, fun hne => absurd hlba hne⟩
    | logic _ hlba hl' =>
      refine ⟨fun h0 => absurd h0 hlba, fun _ => ⟨hp, ?_⟩⟩
      by_contra h8
      rw [if_pos (by simp; omega)] at h
      cases h
    | empty h0 => exact absurd h0 he.1
  · rw [bufList_fault hx] at h
    cases h

/-- With room for all entries, a call records them and frees its buffer. -/
theorem bufList_of_walk
    (hscan : ∀ a s ms b, next a s.extLbaBase = some (ms, b) → Room s.toScan ms →
      scan a s = .ok (recorded c s ms b))
    (hwalk : walkList lba next es s.extLbaBase = some (ms, b)) (hroom : Room s.toScan ms) :
    bufList c lba scan es s = .ok (false, recorded c s ms b) := by
  induction es generalizing s ms with
  | nil =>
    cases hwalk
    rfl
  | cons e es ih =>
    rw [walkList] at hwalk
    split at hwalk
    · next he =>
      obtain ⟨⟨ms₁, b₁⟩, h₁, hwalk⟩ := Option.bind_eq_some_iff.mp hwalk
      obtain ⟨⟨ms₂, b₂⟩, h₂, hwalk⟩ := Option.bind_eq_some_iff.mp hwalk
      cases hwalk
      obtain ⟨hroom₁, hroom₂⟩ := (room_append (c := c) (b := b₁)).mp hroom
      have hcall := hscan _ { s with extLbaBase := (target e s.extLbaBase).2 } ms₁ b₁ h₁ hroom₁
      rw [bufList_call he, callOf_eq, hcall, ok_bind]
      have hsame : recorded c { s with extLbaBase := (target e s.extLbaBase).2 } ms₁ b₁ =
          recorded c s ms₁ b₁ := by
        simp only [recorded, recordAll_base]
      rw [hsame, ih h₂ hroom₂, recorded_append]
    · next he =>
      obtain ⟨⟨ms₁, b₁⟩, h₁, hwalk⟩ := Option.bind_eq_some_iff.mp hwalk
      cases hwalk
      rcases ordinary_or e with h0 | ho | h5
      · rw [if_neg (not_ordinary_of_empty h0).1] at hroom ⊢
        rw [bufList_empty h0]
        exact ih h₁ hroom
      · rw [if_pos ho] at hroom ⊢
        obtain ⟨hroom₁, hroom₂⟩ : Room s.toScan [(lba, e)] ∧
            Room (recorded c s [(lba, e)] s.extLbaBase).toScan ms₁ := room_append.mp hroom
        rw [bufList_ordinary ho hroom₁,
          ih (s := recorded c s [(lba, e)] s.extLbaBase) h₁ hroom₂, recorded_append]
        rfl
      · exact absurd h5 he

theorem bufScan_of_walk (hwalk : walk disk fuel lba s.extLbaBase = some (ms, b))
    (hroom : Room s.toScan ms) : bufScan c disk fuel lba s = .ok (recorded c s ms b) := by
  induction fuel generalizing lba s ms b with
  | zero => cases hwalk
  | succ fuel ih =>
    rw [walk] at hwalk
    split at hwalk
    · next hlba =>
      have hscan : ∀ a s ms b, walk disk fuel a s.extLbaBase = some (ms, b) → Room s.toScan ms →
          bufScan c disk fuel a s = .ok (recorded c s ms b) := fun a s ms b h₁ h₂ => ih h₁ h₂
      have hlist := bufList_of_walk (s := { s with held := s.held + 1 }) hscan hwalk hroom
      rw [bufScan_table hlba, hlist]
      rfl
    · cases hwalk

/-- What a call that returned has done to the buffers, and what it has found when they are all
freed. -/
def Returned (c : ℕ) (walked : Option (List (ℕ × TableEntry) × ℕ)) (s r : BufScan) : Prop :=
  s.held ≤ r.held ∧ (r.held = s.held → s.pNo ≤ 3 → s.lNo ≤ 7 →
    ∃ ms b, walked = some (ms, b) ∧ Room s.toScan ms ∧ r = recorded c s ms b)

theorem walk_of_bufList
    (hscan : ∀ a s r, scan a s = .ok r → Returned c (next a s.extLbaBase) s r)
    (h : bufList c lba scan es s = .ok (done, r)) :
    s.held ≤ r.held ∧ (done = false → r.held = s.held → s.pNo ≤ 3 → s.lNo ≤ 7 →
      ∃ ms b, walkList lba next es s.extLbaBase = some (ms, b) ∧ Room s.toScan ms ∧
        r = recorded c s ms b) := by
  induction es generalizing s with
  | nil =>
    cases h
    exact ⟨Nat.le_refl _, fun _ _ hp hl => ⟨[], _, rfl, ⟨hp, hl⟩, rfl⟩⟩
  | cons e es ih =>
    rw [walkList]
    by_cases he : e.Extended
    · rw [bufList_call he, callOf_eq] at h
      obtain ⟨r₁, h₁, h⟩ := bind_eq_ok.mp h
      obtain ⟨hle₁, hwalk₁⟩ := hscan _ _ _ h₁
      obtain ⟨hle, hwalk⟩ := ih h
      refine ⟨Nat.le_trans hle₁ hle, fun hdone hheld hp hl => ?_⟩
      have hheld₁ : r₁.held = s.held := Nat.le_antisymm (hheld ▸ hle) hle₁
      obtain ⟨ms₁, b₁, hms₁, hroom₁, hr₁⟩ := hwalk₁ hheld₁ hp hl
      have hr₁' : r₁ = recorded c s ms₁ b₁ := by
        rw [hr₁]
        simp only [recorded, recordAll_base]
      obtain ⟨hp₁, hl₁⟩ := room_recorded (c := c) (s := s) (b := b₁) hroom₁
      have hfew := hroom₁.1
      have hfew' := hroom₁.2
      simp only at hfew hfew'
      obtain ⟨ms₂, b₂, hms₂, hroom₂, hr⟩ := hwalk hdone (hheld.trans hheld₁.symm)
        (by rw [hr₁']; omega) (by rw [hr₁']; omega)
      rw [hr₁'] at hms₂ hroom₂ hr
      refine ⟨ms₁ ++ ms₂, b₂, ?_, room_append.mpr ⟨hroom₁, hroom₂⟩, hr.trans recorded_append⟩
      rw [if_pos he]
      exact Option.bind_eq_some_iff.mpr ⟨(ms₁, b₁), hms₁,
        Option.bind_eq_some_iff.mpr ⟨(ms₂, b₂), hms₂, rfl⟩⟩
    · rw [if_neg he]
      rcases plain_or_fault c lba s he with ⟨done', r', hplain⟩ | ⟨x, -, hx⟩
      · have hlist := h
        rw [bufList_plain hplain] at h
        rcases ordinary_or e with h0 | ho | h5
        · rw [bufList_empty h0] at hlist
          obtain ⟨hle, hwalk⟩ := ih hlist
          refine ⟨hle, fun hdone hheld hp hl => ?_⟩
          obtain ⟨ms, b, hms, hroom, hr⟩ := hwalk hdone hheld hp hl
          refine ⟨ms, b, ?_, hroom, hr⟩
          refine Option.bind_eq_some_iff.mpr ⟨(ms, b), hms, ?_⟩
          simp only [(not_ordinary_of_empty h0).1, if_false]
        · have hr' := hplain.eq_recorded ho
          cases done' with
          | true =>
            cases h
            exact ⟨by rw [hr']; exact Nat.le_refl _, fun hdone => by cases hdone⟩
          | false =>
            obtain ⟨hle, hwalk⟩ := ih h
            rw [hr'] at hle
            refine ⟨hle, fun hdone hheld hp hl => ?_⟩
            have hroom := room_of_bufList ho hp hl (hdone ▸ hlist)
            obtain ⟨hp', hl'⟩ := room_recorded (c := c) (b := s.extLbaBase) hroom
            have hfew := hroom.1
            have hfew' := hroom.2
            obtain ⟨ms, b, hms, hroom', hr⟩ := hwalk hdone (by rw [hr']; exact hheld)
              (by rw [hr']; omega) (by rw [hr']; omega)
            rw [hr'] at hms hroom' hr
            refine ⟨[(lba, e)] ++ ms, b, ?_, room_append.mpr ⟨hroom, hroom'⟩,
              hr.trans recorded_append⟩
            refine Option.bind_eq_some_iff.mpr ⟨(ms, b), hms, ?_⟩
            simp only [ho, if_true, List.singleton_append]
        · exact absurd h5 he
      · rw [bufList_fault hx] at h
        cases h

theorem walk_of_bufScan (h : bufScan c disk fuel lba s = .ok r) :
    Returned c (walk disk fuel lba s.extLbaBase) s r := by
  induction fuel generalizing lba s r with
  | zero => cases h
  | succ fuel ih =>
    by_cases hlba : lba ≤ maxLba
    · rw [bufScan_table hlba] at h
      obtain ⟨⟨done, r'⟩, hlist, h⟩ := bind_eq_ok.mp h
      obtain ⟨hle, hwalk⟩ := walk_of_bufList (fun a s r h => ih h) hlist
      rw [walk, if_pos hlba]
      simp only at hle
      cases done with
      | true =>
        obtain rfl : r' = r := Except.ok.inj h
        exact ⟨by omega, fun hheld => by omega⟩
      | false =>
        obtain rfl : { r' with held := r'.held - 1 } = r := Except.ok.inj h
        refine ⟨Nat.le_sub_of_add_le hle, fun hheld hp hl => ?_⟩
        have hheld' : r'.held = s.held + 1 := by
          have : r'.held - 1 = s.held := hheld
          omega
        obtain ⟨ms, b, hms, hroom, rfl⟩ := hwalk rfl hheld' hp hl
        exact ⟨ms, b, hms, hroom, rfl⟩
    · rw [bufScan_far (by omega)] at h
      cases h

/-! ## Safety -/

/-- The call returned, no store was outside `prim_parts` and `logic_parts` and no assertion of
`partition_scan` failed on the way, and all its buffers are freed. -/
def Safe (s : BufScan) (o : Except Halt BufScan) : Prop := ∃ r, o = .ok r ∧ r.held = s.held

/-- The recursion ends, and does not leave the disk. -/
def Completes (o : Except Halt BufScan) : Prop :=
  Ends o ∧ o ≠ .error (.panic "ide_read" "lba <= max_lba")

/-- **Safety on any disk.**  When the recursion ends on the disk, `partition_scan` has been safe if
and only if the links from the master boot record on lead to at most three ordinary entries in
sector 0 and at most seven in other tables. -/
theorem scan_safe_iff (hp : s.pNo = 0) (hl : s.lNo = 0)
    (hend : Completes (bufScan c disk fuel 0 s)) :
    Safe s (bufScan c disk fuel 0 s) ↔ FewEntries disk s.extLbaBase := by
  constructor
  · rintro ⟨r, hr, hheld⟩
    obtain ⟨-, hwalk⟩ := walk_of_bufScan hr
    obtain ⟨ms, b, hms, ⟨hroom, hroom'⟩, -⟩ := hwalk hheld (by omega) (by omega)
    exact ⟨fuel, ms, b, hms, by omega, by omega⟩
  · rintro ⟨fuel', ms, b, hms, hprims, hlogics⟩
    have hroom : Room s.toScan ms := ⟨by omega, by omega⟩
    have hok := bufScan_of_walk (c := c) hms hroom
    refine ⟨recorded c s ms b, ?_, rfl⟩
    rcases Nat.le_total fuel fuel' with hle | hle
    · rw [← bufScan_le hle hend.1, hok]
    · rw [bufScan_le hle (ends_ok hok), hok]

/-- The start of a scan, with no buffer allocated. -/
def start (c : ℕ) : BufScan := ⟨aloneStart c, 0⟩

theorem scan_safe_iff_chain :
    Completes (bufScan 0 chainDisk 3 0 (start 0)) ∧
      Safe (start 0) (bufScan 0 chainDisk 3 0 (start 0)) := by
  have hok : (bufScan 0 chainDisk 3 0 (start 0)).toOption.isSome = true := by decide +kernel
  have hend : Completes (bufScan 0 chainDisk 3 0 (start 0)) := by
    constructor
    · intro h
      rw [h] at hok
      cases hok
    · intro h
      rw [h] at hok
      cases hok
  have hwalk : walk chainDisk 3 0 0 = some ([(2000, ⟨0x83#8, 63, 100⟩), (2300, ⟨0x83#8, 63, 200⟩),
      (0, ⟨0x83#8, 63, 1900⟩)], 2000) := by decide +kernel
  exact ⟨hend, (scan_safe_iff rfl rfl hend).mpr ⟨3, _, _, hwalk, by decide, by decide⟩⟩

/-- The table at `lba` with four ordinary entries. -/
def putFour (disk : Bytes) (lba : ℕ) : Bytes :=
  (List.range 4).foldl (fun disk i => putEntry disk lba i ⟨0x83#8, 1 + i, 1⟩) disk

/-- An extended partition with two tables of four logical partitions each. -/
def eightDisk : Bytes :=
  putEntry (putEntry (putEntry (putFour (putFour zeros 2300) 2600) 2000 0 ⟨5#8, 300, 10⟩)
    2000 1 ⟨5#8, 600, 10⟩) 0 0 ⟨5#8, 2000, 610⟩

/-- A fourth primary partition fails the assertion; with the eighth logical partition the buffer
of its table is not freed; a ninth one, in a table that goes on, is stored behind `logic_parts`. -/
theorem scan_faults :
    bufScan 0 (putFour zeros 0) 1 0 (start 0) = .error (.panic "partition_scan" "p_no < 4") ∧
      (∃ r, bufScan 0 eightDisk 3 0 (start 0) = .ok r ∧ r.held = 1) ∧
      bufScan 0 (putEntry eightDisk 2000 2 ⟨0x83#8, 100, 1⟩) 3 0 (start 0) = .error .nullDeref := by
  refine ⟨Option.some.inj (Machine.eq_of_halted (by decide +kernel)), ?_,
    Option.some.inj (Machine.eq_of_halted (by decide +kernel))⟩
  have hheld : (bufScan 0 eightDisk 3 0 (start 0)).toOption.map (·.held) = some 1 := by
    decide +kernel
  cases hr : bufScan 0 eightDisk 3 0 (start 0) with
  | error x =>
    rw [hr] at hheld
    cases hheld
  | ok r =>
    rw [hr] at hheld
    exact ⟨r, rfl, Option.some.inj hheld⟩

end HcOs.Ide
