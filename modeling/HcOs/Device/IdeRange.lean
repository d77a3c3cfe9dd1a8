import HcOs.Device.Transfer

/-!
# The sectors a request reaches (`ide_read` and `ide_write` of `device/ide.c`)

The two functions by the commands they send.  The first sector of a request is checked at the entry
and the first sector of each chunk in `select_sector`; nobody checks the last one.

* `onDisk_iff`: the driver stays on the disk exactly for the requests that end on it, and for those
  that the entry rejects.
* `ideRead_outcome`, `ideWrite_outcome`: the functions of `HcOs.Device.Transfer` end as these do.
-/

namespace HcOs.IdeRange

open HcOs.Lib
open HcOs.Disk (maxLba secsOp)
open HcOs.Sectors (Regs)
open HcOs.Ata (Hd Channel)

/-! ## The driver -/

inductive Op where
  | read
  | write
deriving DecidableEq

def Op.func : Op → String
  | .read => "ide_read"
  | .write => "ide_write"

/-- `CMD_READ_SECTOR` or `CMD_WRITE_SECTOR`. -/
def Op.cmd : Op → BitVec 8
  | .read => 0x20#8
  | .write => 0x30#8

/-- The text of the `PANIC`. -/
def Op.failed (op : Op) (hd : Hd) (lba : ℕ) : String :=
  match op with
  | .read => hd.name ++ " read sector " ++ toString lba ++ " failed!!!\n"
  | .write => hd.name ++ " write sector " ++ toString lba ++ " failed!!!\n"

/-- A command, with the registers as the disk finds them. -/
structure Cmd where
  regs : Regs
  cmd : BitVec 8

/-- The command is for the sector `l`, among others. -/
def Cmd.Covers (c : Cmd) (l : ℕ) : Prop := c.regs.lba ≤ l ∧ l < c.regs.lba + Ata.sectors c.regs

/-- The commands of a call, and how it ends. -/
abbrev Outcome := List Cmd × Except Halt Unit

/-- The loop; `ready k` is the answer of `busy_wait` for the command `k`. -/
def ideLoop (op : Op) (hd : Hd) (ready : ℕ → Bool) (lba secCnt : ℕ) : ℕ → ℕ → ℕ → Outcome
  | 0, _, _ => ([], .error .noReturn)
  | fuel + 1, secsDone, k =>
    if secsDone < secCnt then
      match Sectors.selectSector hd.devNo ((lba + secsDone) % 2 ^ 32) (secsOp secsDone secCnt) with
      | .error x => ([], .error x)
      | .ok regs =>
        if ready k = true then
          let rest := ideLoop op hd ready lba secCnt fuel
            ((secsDone + secsOp secsDone secCnt) % 2 ^ 32) (k + 1)
          (⟨regs, op.cmd⟩ :: rest.1, rest.2)
        else ([⟨regs, op.cmd⟩], .error (.panic op.func (op.failed hd lba)))
    else ([], .ok ())

/-- The assertions at the entry. -/
def enter (op : Op) (lba secCnt : ℕ) : Except Halt Unit := do
  assert (lba ≤ maxLba) op.func "lba <= max_lba"
  assert (secCnt > 0) op.func "sec_cnt > 0"

/-- `ide_read` or `ide_write`. -/
def ide (op : Op) (hd : Hd) (ready : ℕ → Bool) (lba secCnt : ℕ) : Outcome :=
  match enter op lba secCnt with
  | .error x => ([], .error x)
  | .ok () => ideLoop op hd ready lba secCnt (secCnt + 1) 0 0

/-- The driver stays on the disk. -/
structure OnDisk (op : Op) (hd : Hd) (lba secCnt : ℕ) : Prop where
  /-- A request that passes the entry is completed, unless the disk is not ready for a command, and
  all commands are for sectors of the disk. -/
  inside : lba ≤ maxLba → 0 < secCnt → ∀ ready,
    (∀ c ∈ (ide op hd ready lba secCnt).1, ∀ l, c.Covers l → l ≤ maxLba) ∧
    ((ide op hd ready lba secCnt).2 = .ok () ∨
      (∃ k, ready k = false) ∧
        (ide op hd ready lba secCnt).2 = .error (.panic op.func (op.failed hd lba)))
  /-- Any other request ends at the entry. -/
  rejected : ¬(lba ≤ maxLba ∧ 0 < secCnt) → ∀ ready,
    ∃ x, enter op lba secCnt = .error x ∧ ide op hd ready lba secCnt = ([], .error x)

/-! ## A chunk -/

variable {op : Op} {hd : Hd} {ready : ℕ → Bool} {lba secCnt secsDone fuel k : ℕ}

theorem secsOp_bounds (hlt : secsDone < secCnt) (hsmall : secsDone + 256 < 2 ^ 32) :
    1 ≤ secsOp secsDone secCnt ∧ secsOp secsDone secCnt ≤ 256 ∧
      secsDone + secsOp secsDone secCnt ≤ secCnt := by
  unfold secsOp
  rw [Nat.mod_eq_of_lt hsmall]
  split <;> omega

/-- A chunk that begins on the disk. -/
theorem ideLoop_chunk (op : Op) (hd : Hd) (ready : ℕ → Bool) (fuel k : ℕ) (hlt : secsDone < secCnt)
    (hlba : lba + secsDone ≤ maxLba) :
    ∃ c : Cmd, (∀ l, c.Covers l ↔ lba + secsDone ≤ l ∧
        l < lba + secsDone + secsOp secsDone secCnt) ∧
      ideLoop op hd ready lba secCnt (fuel + 1) secsDone k =
        if ready k = true then
          (c :: (ideLoop op hd ready lba secCnt fuel (secsDone + secsOp secsDone secCnt) (k + 1)).1,
            (ideLoop op hd ready lba secCnt fuel (secsDone + secsOp secsDone secCnt) (k + 1)).2)
        else ([c], .error (.panic op.func (op.failed hd lba))) := by
  have hmax : maxLba = 163839 := rfl
  obtain ⟨h1, h256, -⟩ := secsOp_bounds hlt (by omega)
  obtain ⟨hreg, -, hsect, -⟩ := Ata.regsFor_spec hd hlba h1 h256
  have hsel : Sectors.selectSector hd.devNo (lba + secsDone) (secsOp secsDone secCnt) =
      .ok (Ata.regsFor hd (lba + secsDone) (secsOp secsDone secCnt)) := assert_bind_of hlba _
  refine ⟨⟨Ata.regsFor hd (lba + secsDone) (secsOp secsDone secCnt), op.cmd⟩, fun l => ?_, ?_⟩
  · unfold Cmd.Covers
    rw [hreg, hsect]
  · rw [ideLoop, if_pos hlt, Nat.mod_eq_of_lt (a := lba + secsDone) (by omega), hsel,
      Nat.mod_eq_of_lt (by omega)]

/-- A chunk that does not. -/
theorem ideLoop_beyond (hlt : secsDone < secCnt) (hlba : maxLba < lba + secsDone)
    (hsmall : lba + secsDone < 2 ^ 32) :
    ideLoop op hd ready lba secCnt (fuel + 1) secsDone k =
      ([], .error (.panic "select_sector" "lba <= max_lba")) := by
  have hsel : Sectors.selectSector hd.devNo (lba + secsDone) (secsOp secsDone secCnt) =
      .error (.panic "select_sector" "lba <= max_lba") := assert_bind_of_not (by omega) _
  rw [ideLoop, if_pos hlt, Nat.mod_eq_of_lt hsmall, hsel]

/-! ## The loop -/

/-- A request that ends on the disk. -/
theorem ideLoop_inside (hend : lba + secCnt ≤ maxLba + 1) (hle : secsDone ≤ secCnt)
    (hfuel : secCnt < secsDone + fuel) :
    (∀ c ∈ (ideLoop op hd ready lba secCnt fuel secsDone k).1, ∀ l, c.Covers l → l ≤ maxLba) ∧
    ((ideLoop op hd ready lba secCnt fuel secsDone k).2 = .ok () ∨
      (∃ k, ready k = false) ∧ (ideLoop op hd ready lba secCnt fuel secsDone k).2 =
        .error (.panic op.func (op.failed hd lba))) := by
  induction fuel generalizing secsDone k with
  | zero => omega
  | succ fuel ih =>
    by_cases hlt : secsDone < secCnt
    · have hmax : maxLba = 163839 := rfl
      obtain ⟨h1, -, hop⟩ := secsOp_bounds hlt (by omega)
      obtain ⟨c, hc, heq⟩ := @ideLoop_chunk lba secCnt secsDone op hd ready fuel k hlt (by omega)
      have hcov : ∀ l, c.Covers l → l ≤ maxLba := fun l hl => by
        have := (hc l).mp hl
        omega
      rw [heq]
      split
      · obtain ⟨hrest, hout⟩ := @ih (secsDone + secsOp secsDone secCnt) (k + 1) hop (by omega)
        exact ⟨List.forall_mem_cons.mpr ⟨hcov, hrest⟩, hout⟩
      · next hready =>
        exact ⟨List.forall_mem_singleton.mpr hcov,
          Or.inr ⟨⟨k, Bool.eq_false_iff.mpr hready⟩, rfl⟩⟩
    · rw [ideLoop, if_neg hlt]
      exact ⟨nofun, Or.inl rfl⟩

/-- A request that does not: with a disk that is always ready, a command goes too far, or the
assertion of a later chunk fails. -/
theorem ideLoop_outside (hend : maxLba + 1 < lba + secCnt) (hle : lba + secsDone ≤ maxLba + 1)
    (hfuel : maxLba + 1 < lba + secsDone + fuel) :
    (∃ c ∈ (ideLoop op hd (fun _ => true) lba secCnt fuel secsDone k).1, ∃ l, c.Covers l ∧
      maxLba < l) ∨
    (ideLoop op hd (fun _ => true) lba secCnt fuel secsDone k).2 =
      .error (.panic "select_sector" "lba <= max_lba") := by
  have hmax : maxLba = 163839 := rfl
  induction fuel generalizing secsDone k with
  | zero => omega
  | succ fuel ih =>
    have hlt : secsDone < secCnt := by omega
    by_cases hedge : lba + secsDone = maxLba + 1
    · rw [ideLoop_beyond hlt (by omega) (by omega)]
      exact Or.inr rfl
    · obtain ⟨h1, -, hop⟩ := secsOp_bounds hlt (by omega)
      obtain ⟨c, hc, heq⟩ := @ideLoop_chunk lba secCnt secsDone op hd (fun _ => true) fuel k hlt
        (by omega)
      rw [heq, if_pos rfl]
      by_cases hcross : maxLba + 1 < lba + secsDone + secsOp secsDone secCnt
      · exact Or.inl ⟨c, List.mem_cons_self, maxLba + 1, (hc _).mpr (by omega), Nat.lt_succ_self _⟩
      · rcases @ih (secsDone + secsOp secsDone secCnt) (k + 1) (by omega) (by omega) with
          ⟨c', hc', hl⟩ | hout
        · exact Or.inl ⟨c', List.mem_cons_of_mem _ hc', hl⟩
        · exact Or.inr hout

/-! ## Main result -/

theorem enter_ok (hlba : lba ≤ maxLba) (hpos : 0 < secCnt) : enter op lba secCnt = .ok () := by
  rw [enter, assert_bind_of hlba, assert_ok hpos]

theorem enter_error (op : Op) (h : ¬(lba ≤ maxLba ∧ 0 < secCnt)) :
    ∃ x, enter op lba secCnt = .error x := by
  unfold enter
  by_cases hlba : lba ≤ maxLba
  · rw [assert_bind_of hlba]
    exact ⟨_, if_neg fun hpos => h ⟨hlba, hpos⟩⟩
  · exact ⟨_, assert_bind_of_not hlba _⟩

theorem ide_eq (hlba : lba ≤ maxLba) (hpos : 0 < secCnt) :
    ide op hd ready lba secCnt = ideLoop op hd ready lba secCnt (secCnt + 1) 0 0 := by
  rw [ide, enter_ok hlba hpos]

theorem not_onDisk (op : Op) (hd : Hd) (hlba : lba ≤ maxLba) (hend : maxLba + 1 < lba + secCnt) :
    ¬OnDisk op hd lba secCnt := by
  intro h
  obtain ⟨hcov, hout⟩ := h.inside hlba (by omega) fun _ => true
  rw [ide_eq hlba (by omega)] at hcov hout
  have hloop := @ideLoop_outside op hd lba secCnt 0 (secCnt + 1) 0 hend (by omega) (by omega)
  rcases hloop with ⟨c, hc, l, hl, hlt⟩ | herr
  · exact absurd (hcov c hc l hl) (Nat.not_le.mpr hlt)
  · rcases hout with hok | ⟨⟨k, hk⟩, -⟩
    · rw [herr] at hok
      cases hok
    · cases hk

/-- **The sectors of a request.**  For every request, the driver stays on the disk if and only if
the request is rejected at the entry or ends on the disk. -/
theorem onDisk_iff (op : Op) (hd : Hd) (lba secCnt : ℕ) :
    OnDisk op hd lba secCnt ↔ maxLba < lba ∨ secCnt = 0 ∨ lba + secCnt ≤ maxLba + 1 := by
  constructor
  · intro h
    by_contra hno
    exact not_onDisk op hd (by omega) (by omega) h
  · intro h
    refine ⟨fun hlba hpos ready => ?_, fun hno ready => ?_⟩
    · rw [ide_eq hlba hpos]
      exact ideLoop_inside (by omega) (Nat.zero_le _) (by omega)
    · obtain ⟨x, hx⟩ := enter_error op hno
      refine ⟨x, hx, ?_⟩
      rw [ide, hx]

/-- The last sector of the disk and one more. -/
theorem not_onDisk_last : ¬OnDisk .read ⟨"sdb", 1⟩ 163839 2 :=
  not_onDisk _ _ (by decide) (by decide)

/-! ## The ports -/

section Ports

variable {c c' : Channel} {buf : Bytes}

/-- The controller is ready for the command `k` before `busy_wait` gives up. -/
def readyFor (c : Channel) (k : ℕ) : Bool := decide (c.delay (c.cmds + k) < 30 * 1000 - 1)

theorem readyFor_congr (hdelay : c'.delay = c.delay) (hcmds : c'.cmds = c.cmds + 1) (k : ℕ) :
    readyFor c' k = readyFor c (k + 1) := by
  unfold readyFor
  rw [hdelay, hcmds, Nat.add_assoc, Nat.add_comm 1 k]

theorem busyWaitLoop_gives_up (limit : ℕ) (hbusy : limit ≤ c.busy) :
    (Ata.busyWaitLoop limit c).1 = false := by
  induction limit generalizing c with
  | zero => rfl
  | succ limit ih =>
    unfold Ata.busyWaitLoop Ata.inStatus
    dsimp only
    rw [if_pos (show 0 < c.busy by omega), if_neg (by decide)]
    exact ih (by dsimp only; omega)

/-- `busy_wait` after a command. -/
theorem busyWait_outCmd (op : Op) (c : Channel) :
    (Ata.busyWait (Ata.outCmd c op.cmd)).1 = readyFor c 0 ∧
      ((Ata.busyWait (Ata.outCmd c op.cmd)).1 = true →
        (Ata.busyWait (Ata.outCmd c op.cmd)).2.delay = c.delay ∧
        (Ata.busyWait (Ata.outCmd c op.cmd)).2.cmds = c.cmds + 1) := by
  have hx : (Ata.outCmd c op.cmd).xfer.isSome = true := by cases op <;> rfl
  by_cases hlt : c.delay c.cmds < 30 * 1000 - 1
  · have heq := Ata.busyWaitLoop_eq (c := Ata.outCmd c op.cmd) (30 * 1000 - 1) hlt hx
    rw [Ata.busyWait, heq]
    exact ⟨(decide_eq_true hlt).symm, fun _ => ⟨rfl, rfl⟩⟩
  · have hno := busyWaitLoop_gives_up (c := Ata.outCmd c op.cmd) (30 * 1000 - 1) (Nat.not_lt.mp hlt)
    rw [Ata.busyWait, hno]
    exact ⟨(decide_eq_false hlt).symm, nofun⟩

theorem insw_keeps (c : Channel) (buf : Bytes) (a n : ℕ) :
    (Ata.insw c buf a n).1.delay = c.delay ∧ (Ata.insw c buf a n).1.cmds = c.cmds := by
  induction n generalizing c buf a with
  | zero => exact ⟨rfl, rfl⟩
  | succ n ih =>
    have hword : (Ata.inWord c).2.2.delay = c.delay ∧ (Ata.inWord c).2.2.cmds = c.cmds := by
      unfold Ata.inWord
      split <;> exact ⟨rfl, rfl⟩
    obtain ⟨hdelay, hcmds⟩ := ih (Ata.inWord c).2.2
      (Function.update (Function.update buf a (Ata.inWord c).1) (a + 1) (Ata.inWord c).2.1) (a + 2)
    exact ⟨hdelay.trans hword.1, hcmds.trans hword.2⟩

theorem outsw_keeps (c : Channel) (buf : Bytes) (a n : ℕ) :
    (Ata.outsw c buf a n).delay = c.delay ∧ (Ata.outsw c buf a n).cmds = c.cmds := by
  induction n generalizing c a with
  | zero => exact ⟨rfl, rfl⟩
  | succ n ih =>
    have hword : (Ata.outWord c (buf a) (buf (a + 1))).delay = c.delay ∧
        (Ata.outWord c (buf a) (buf (a + 1))).cmds = c.cmds := by
      unfold Ata.outWord
      split <;> exact ⟨rfl, rfl⟩
    obtain ⟨hdelay, hcmds⟩ := ih (Ata.outWord c (buf a) (buf (a + 1))) (a + 2)
    exact ⟨hdelay.trans hword.1, hcmds.trans hword.2⟩

theorem selectSector_map (c : Channel) (hd : Hd) (l n : ℕ) :
    Ata.selectSector c hd l (BitVec.ofNat 8 n) =
      (Sectors.selectSector hd.devNo l n).map fun r => { c with regs := r } := by
  unfold Ata.selectSector Sectors.selectSector
  by_cases hl : l ≤ maxLba
  · rw [assert_bind_of hl, assert_bind_of hl]
    rfl
  · rw [assert_bind_of_not hl, assert_bind_of_not hl]
    rfl

/-- The answers of `busy_wait` from the next command on. -/
theorem ready_next (h : ∀ j, ready (k + j) = readyFor c j) (hdelay : c'.delay = c.delay)
    (hcmds : c'.cmds = c.cmds + 1) (j : ℕ) : ready (k + 1 + j) = readyFor c' j := by
  rw [readyFor_congr hdelay hcmds, Nat.add_right_comm, Nat.add_assoc, h]

/-- A chunk, whatever follows it. -/
theorem chunk_outcome {α : Type} (op : Op) (h : ∀ j, ready (k + j) = readyFor c j) (l n : ℕ)
    (next : Channel → Except Halt α) {x : Halt} (rest : Outcome)
    (hnext : ∀ c', c'.delay = c.delay → c'.cmds = c.cmds + 1 →
      (next c').map (fun _ => ()) = rest.2) :
    (Ata.selectSector c hd l (BitVec.ofNat 8 n) >>= fun c =>
        if (Ata.busyWait (Ata.outCmd c op.cmd)).1 = true then
          next (Ata.busyWait (Ata.outCmd c op.cmd)).2
        else .error x).map (fun _ => ()) =
      (match Sectors.selectSector hd.devNo l n with
        | .error x => (([], .error x) : Outcome)
        | .ok regs =>
          if ready k = true then (⟨regs, op.cmd⟩ :: rest.1, rest.2)
          else ([⟨regs, op.cmd⟩], .error x)).2 := by
  rw [selectSector_map]
  cases Sectors.selectSector hd.devNo l n with
  | error y => rfl
  | ok regs =>
    obtain ⟨hwait, hkeep⟩ := busyWait_outCmd op { c with regs := regs }
    rw [show ready k = readyFor { c with regs := regs } 0 from h 0, ← hwait]
    by_cases hready : (Ata.busyWait (Ata.outCmd { c with regs := regs } op.cmd)).1 = true
    · change Except.map _ (if _ then _ else _) = Prod.snd (if _ then _ else _)
      rw [if_pos hready, if_pos hready]
      exact hnext _ (hkeep hready).1 (hkeep hready).2
    · change Except.map _ (if _ then _ else _) = Prod.snd (if _ then _ else _)
      rw [if_neg hready, if_neg hready]
      rfl

theorem readLoop_outcome (h : ∀ j, ready (k + j) = readyFor c j) :
    (Ata.readLoop hd lba secCnt fuel secsDone c buf).map (fun _ => ()) =
      (ideLoop .read hd ready lba secCnt fuel secsDone k).2 := by
  induction fuel generalizing secsDone c buf k with
  | zero => rfl
  | succ fuel ih =>
    unfold Ata.readLoop ideLoop
    by_cases hlt : secsDone < secCnt
    · rw [if_pos hlt, if_pos hlt]
      let moved (c : Channel) := Ata.readFromSector c buf (secsDone * 512 % 2 ^ 32)
        (BitVec.ofNat 8 (secsOp secsDone secCnt))
      refine chunk_outcome .read h ((lba + secsDone) % 2 ^ 32) (secsOp secsDone secCnt)
        (fun c => Ata.readLoop hd lba secCnt fuel
          ((secsDone + secsOp secsDone secCnt) % 2 ^ 32) (moved c).1 (moved c).2)
        (ideLoop .read hd ready lba secCnt fuel
          ((secsDone + secsOp secsDone secCnt) % 2 ^ 32) (k + 1)) fun c₁ hdelay hcmds => ?_
      obtain ⟨hdelay', hcmds'⟩ := insw_keeps c₁ buf (secsDone * 512 % 2 ^ 32)
        (Sectors.sizeInByte (BitVec.ofNat 8 (secsOp secsDone secCnt)) / 2)
      exact ih (ready_next h (hdelay'.trans hdelay) (hcmds'.trans hcmds))
    · rw [if_neg hlt, if_neg hlt]
      rfl

theorem writeLoop_outcome (h : ∀ j, ready (k + j) = readyFor c j) :
    (Ata.writeLoop hd lba buf secCnt fuel secsDone c).map (fun _ => ()) =
      (ideLoop .write hd ready lba secCnt fuel secsDone k).2 := by
  induction fuel generalizing secsDone c k with
  | zero => rfl
  | succ fuel ih =>
    unfold Ata.writeLoop ideLoop
    by_cases hlt : secsDone < secCnt
    · rw [if_pos hlt, if_pos hlt]
      let moved (c : Channel) := Ata.write2sector c buf (secsDone * 512 % 2 ^ 32)
        (BitVec.ofNat 8 (secsOp secsDone secCnt))
      refine chunk_outcome .write h ((lba + secsDone) % 2 ^ 32) (secsOp secsDone secCnt)
        (fun c => Ata.writeLoop hd lba buf secCnt fuel
          ((secsDone + secsOp secsDone secCnt) % 2 ^ 32) (moved c))
        (ideLoop .write hd ready lba secCnt fuel
          ((secsDone + secsOp secsDone secCnt) % 2 ^ 32) (k + 1)) fun c₁ hdelay hcmds => ?_
      obtain ⟨hdelay', hcmds'⟩ := outsw_keeps c₁ buf (secsDone * 512 % 2 ^ 32)
        (Sectors.sizeInByte (BitVec.ofNat 8 (secsOp secsDone secCnt)) / 2)
      exact ih (ready_next h (hdelay'.trans hdelay) (hcmds'.trans hcmds))
    · rw [if_neg hlt, if_neg hlt]
      rfl

/-- The assertions at the entry, whatever follows them. -/
theorem enter_outcome {α : Type} (op : Op) (hd : Hd) (next : Except Halt α)
    (hnext : next.map (fun _ => ()) = (ideLoop op hd ready lba secCnt (secCnt + 1) 0 0).2) :
    (assert (lba ≤ maxLba) op.func "lba <= max_lba" >>= fun _ =>
      assert (secCnt > 0) op.func "sec_cnt > 0" >>= fun _ => next).map (fun _ => ()) =
      (ide op hd ready lba secCnt).2 := by
  by_cases hlba : lba ≤ maxLba
  · by_cases hpos : secCnt > 0
    · rw [assert_bind_of hlba, assert_bind_of hpos, ide_eq hlba hpos]
      exact hnext
    · rw [assert_bind_of hlba, assert_bind_of_not hpos, ide, enter, assert_bind_of hlba, assert,
        if_neg hpos]
      rfl
  · rw [assert_bind_of_not hlba, ide, enter, assert_bind_of_not hlba]
    rfl

/-- `ide_read` of `Transfer` ends as the one here. -/
theorem ideRead_outcome (c : Channel) (hd : Hd) (lba : ℕ) (buf : Bytes) (secCnt : ℕ) :
    (Ata.ideRead c hd lba buf secCnt).map (fun _ => ()) =
      (ide .read hd (readyFor c) lba secCnt).2 := by
  apply enter_outcome .read hd (Ata.readLoop hd lba secCnt (secCnt + 1) 0 (Ata.selectDisk c hd) buf)
  apply readLoop_outcome
  intro j
  rw [Nat.zero_add]
  rfl

/-- `ide_write` of `Transfer` ends as the one here. -/
theorem ideWrite_outcome (c : Channel) (hd : Hd) (lba : ℕ) (buf : Bytes) (secCnt : ℕ) :
    (Ata.ideWrite c hd lba buf secCnt).map (fun _ => ()) =
      (ide .write hd (readyFor c) lba secCnt).2 := by
  apply enter_outcome .write hd
    (Ata.writeLoop hd lba buf secCnt (secCnt + 1) 0 (Ata.selectDisk c hd))
  apply writeLoop_outcome
  intro j
  rw [Nat.zero_add]
  rfl

end Ports

end HcOs.IdeRange
