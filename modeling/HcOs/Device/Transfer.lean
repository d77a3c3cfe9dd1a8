import HcOs.Device.Sectors

/-!
# Transfers through the ports of a channel (`device/ide.c`)

`HcOs.Device.Sectors` says what `ide_read` and `ide_write` do to the bytes.  Here the two functions
run against the ports: the controller of a channel has two disks, the registers that
`select_sector` writes, and a transfer that a command starts and that the data port moves forward,
a word at a time.  The controller decodes the address and the count by itself, so that the driver
and the controller have to agree on both.

A command keeps the controller busy for some polls of the status port; `delay` is any function.  The
handshake of a command with its interrupt (`expecting_intr`, `disk_done` and `intr_hd_handler`) is
left out here: it is the subject of `HcOs.Device.Disk`, and its assertion can fail.

* `transfer_round_trip`: what is written is what is read, sector by sector, and nothing else changes.
* `ideRead_refines`, `ideWrite_refines`: the functions of `Sectors` are these ones.
-/

namespace HcOs.Ata

open HcOs.Lib
open HcOs.Disk (maxLba secsOp)
open HcOs.Sectors (Regs sizeInByte)

/-! ## The controller -/

/-- A transfer in progress. -/
structure Xfer where
  slave : Bool
  /-- From the host to the disk. -/
  toDisk : Bool
  /-- The next byte on the disk. -/
  pos : ℕ
  /-- The bytes left. -/
  left : ℕ

structure Channel where
  /-- The disks, the slave being `true`. -/
  disk : Bool → Bytes
  regs : Regs
  xfer : Option Xfer
  /-- The polls for which the controller stays busy. -/
  busy : ℕ
  /-- How long each command keeps it busy. -/
  delay : ℕ → ℕ
  cmds : ℕ
  /-- What the data port gives when there is nothing to read. -/
  bus : BitVec 16

inductive Reg where
  | sectCnt
  | lbaL
  | lbaM
  | lbaH
  | dev

/-- `outb` to one of the registers. -/
def outb (c : Channel) (reg : Reg) (data : BitVec 8) : Channel :=
  match reg with
  | .sectCnt => { c with regs := { c.regs with sectCnt := data } }
  | .lbaL => { c with regs := { c.regs with lbaL := data } }
  | .lbaM => { c with regs := { c.regs with lbaM := data } }
  | .lbaH => { c with regs := { c.regs with lbaH := data } }
  | .dev => { c with regs := { c.regs with dev := data } }

/-- The sectors that the controller is asked for. -/
def sectors (r : Regs) : ℕ := if r.sectCnt.toNat = 0 then 256 else r.sectCnt.toNat

/-- A command arrives. -/
def outCmd (c : Channel) (cmd : BitVec 8) : Channel :=
  let xfer (toDisk : Bool) : Xfer :=
    ⟨c.regs.dev.getLsbD 4, toDisk, c.regs.lba * 512, sectors c.regs * 512⟩
  { c with
    xfer := if cmd = 0x20#8 then some (xfer false) else if cmd = 0x30#8 then some (xfer true) else none
    busy := c.delay c.cmds
    cmds := c.cmds + 1 }

/-- `inb` of the status port: `BSY`, or `DRDY` and with data to move `DRQ`. -/
def inStatus (c : Channel) : BitVec 8 × Channel :=
  (if 0 < c.busy then 0x80#8 else if c.xfer.isSome then 0x48#8 else 0x40#8,
    { c with busy := c.busy - 1 })

/-- The transfer after a word. -/
def advance (x : Xfer) : Option Xfer :=
  if x.left ≤ 2 then none else some { x with pos := x.pos + 2, left := x.left - 2 }

/-- A word from the data port, its low byte first. -/
def inWord (c : Channel) : BitVec 8 × BitVec 8 × Channel :=
  match c.xfer with
  | some ⟨slave, false, pos, left⟩ =>
    (c.disk slave pos, c.disk slave (pos + 1),
      { c with xfer := advance ⟨slave, false, pos, left⟩ })
  | some ⟨_, true, _, _⟩ | none => (c.bus.setWidth 8, (c.bus >>> 8).setWidth 8, c)

/-- A word to the data port. -/
def outWord (c : Channel) (lo hi : BitVec 8) : Channel :=
  match c.xfer with
  | some ⟨slave, true, pos, left⟩ =>
    { c with
      disk := Function.update c.disk slave
        (Function.update (Function.update (c.disk slave) pos lo) (pos + 1) hi)
      xfer := advance ⟨slave, true, pos, left⟩ }
  | some ⟨_, false, _, _⟩ | none => c

/-! ## The driver -/

/-- `insw`, into the buffer from `a` on. -/
def insw (c : Channel) (buf : Bytes) (a : ℕ) : ℕ → Channel × Bytes
  | 0 => (c, buf)
  | wordCnt + 1 =>
    let (lo, hi, c) := inWord c
    insw c (Function.update (Function.update buf a lo) (a + 1) hi) (a + 2) wordCnt

/-- `outsw`, from the buffer from `a` on. -/
def outsw (c : Channel) (buf : Bytes) (a : ℕ) : ℕ → Channel
  | 0 => c
  | wordCnt + 1 => outsw (outWord c (buf a) (buf (a + 1))) buf (a + 2) wordCnt

/-- `struct disk`, as far as the two functions read it. -/
structure Hd where
  name : String
  devNo : ℕ

def Hd.slave (hd : Hd) : Bool := decide (hd.devNo = 1)

def selectDisk (c : Channel) (hd : Hd) : Channel :=
  outb c .dev (0xa0#8 ||| 0x40#8 ||| if hd.devNo = 1 then 0x10#8 else 0#8)

def selectSector (c : Channel) (hd : Hd) (lba : ℕ) (secCnt : BitVec 8) : Except Halt Channel := do
  assert (lba ≤ maxLba) "select_sector" "lba <= max_lba"
  let c := outb c .sectCnt secCnt
  let c := outb c .lbaL (BitVec.ofNat 8 lba)
  let c := outb c .lbaM (BitVec.ofNat 8 (lba / 2 ^ 8))
  let c := outb c .lbaH (BitVec.ofNat 8 (lba / 2 ^ 16))
  .ok (outb c .dev (0xa0#8 ||| 0x40#8 ||| (if hd.devNo = 1 then 0x10#8 else 0#8) |||
    BitVec.ofNat 8 (lba / 2 ^ 24)))

/-- The loop of `busy_wait`, with the limit after its decrement: `time_limit -= 10 >= 0` takes 1. -/
def busyWaitLoop : ℕ → Channel → Bool × Channel
  | 0, c => (false, c)
  | timeLimit + 1, c =>
    let (status, c) := inStatus c
    if status &&& 0x80#8 = 0#8 then
      let (status, c) := inStatus c
      (decide (status &&& 0x8#8 ≠ 0#8), c)
    else busyWaitLoop timeLimit c

def busyWait (c : Channel) : Bool × Channel := busyWaitLoop (30 * 1000 - 1) c

def readFromSector (c : Channel) (buf : Bytes) (a : ℕ) (secCnt : BitVec 8) : Channel × Bytes :=
  insw c buf a (sizeInByte secCnt / 2)

def write2sector (c : Channel) (buf : Bytes) (a : ℕ) (secCnt : BitVec 8) : Channel :=
  outsw c buf a (sizeInByte secCnt / 2)

/-- The loop of `ide_read`, without the `sema_down` of `disk_done`. -/
def readLoop (hd : Hd) (lba secCnt : ℕ) : ℕ → ℕ → Channel → Bytes → Except Halt (Channel × Bytes)
  | 0, _, _, _ => .error .noReturn
  | fuel + 1, secsDone, c, buf =>
    if secsDone < secCnt then do
      let op := secsOp secsDone secCnt
      let c ← selectSector c hd ((lba + secsDone) % 2 ^ 32) (BitVec.ofNat 8 op)
      let (ready, c) := busyWait (outCmd c 0x20#8)
      if ready = true then
        let (c, buf) := readFromSector c buf (secsDone * 512 % 2 ^ 32) (BitVec.ofNat 8 op)
        readLoop hd lba secCnt fuel ((secsDone + op) % 2 ^ 32) c buf
      else .error (.panic "ide_read" (hd.name ++ " read sector " ++ toString lba ++ " failed!!!\n"))
    else .ok (c, buf)

def ideRead (c : Channel) (hd : Hd) (lba : ℕ) (buf : Bytes) (secCnt : ℕ) :
    Except Halt (Channel × Bytes) := do
  assert (lba ≤ maxLba) "ide_read" "lba <= max_lba"
  assert (secCnt > 0) "ide_read" "sec_cnt > 0"
  readLoop hd lba secCnt (secCnt + 1) 0 (selectDisk c hd) buf

/-- The loop of `ide_write`, without the `sema_down` of `disk_done`. -/
def writeLoop (hd : Hd) (lba : ℕ) (buf : Bytes) (secCnt : ℕ) : ℕ → ℕ → Channel → Except Halt Channel
  | 0, _, _ => .error .noReturn
  | fuel + 1, secsDone, c =>
    if secsDone < secCnt then do
      let op := secsOp secsDone secCnt
      let c ← selectSector c hd ((lba + secsDone) % 2 ^ 32) (BitVec.ofNat 8 op)
      let (ready, c) := busyWait (outCmd c 0x30#8)
      if ready = true then
        let c := write2sector c buf (secsDone * 512 % 2 ^ 32) (BitVec.ofNat 8 op)
        writeLoop hd lba buf secCnt fuel ((secsDone + op) % 2 ^ 32) c
      else .error (.panic "ide_write" (hd.name ++ " write sector " ++ toString lba ++ " failed!!!\n"))
    else .ok c

def ideWrite (c : Channel) (hd : Hd) (lba : ℕ) (buf : Bytes) (secCnt : ℕ) : Except Halt Channel := do
  assert (lba ≤ maxLba) "ide_write" "lba <= max_lba"
  assert (secCnt > 0) "ide_write" "sec_cnt > 0"
  writeLoop hd lba buf secCnt (secCnt + 1) 0 (selectDisk c hd)

/-! ## Words -/

variable {c c' : Channel} {hd : Hd} {buf : Bytes} {a pos left lba secCnt : ℕ} {slave : Bool}

theorem update_pair (m : Bytes) (a : ℕ) (src : Bytes) (b : ℕ) :
    Function.update (Function.update m a (src b)) (a + 1) (src (b + 1)) = m.copy a src b 2 := by
  funext i
  by_cases h1 : i = a + 1
  · rw [h1, Function.update_self, Bytes.copy_of_mem (by omega) (by omega),
      show b + (a + 1 - a) = b + 1 by omega]
  · rw [Function.update_of_ne h1]
    by_cases h0 : i = a
    · rw [h0, Function.update_self, Bytes.copy_of_mem (by omega) (by omega),
        show b + (a - a) = b by omega]
    · rw [Function.update_of_ne h0, Bytes.copy_of_not_mem (by omega)]

/-- `insw` of as many words as the transfer has left, or fewer. -/
theorem insw_eq (n : ℕ) (hx : c.xfer = some ⟨slave, false, pos, left⟩) (hn : 2 * n ≤ left) :
    ∃ c', insw c buf a n = (c', buf.copy a (c.disk slave) pos (2 * n)) ∧ c'.disk = c.disk ∧
      c'.delay = c.delay := by
  induction n generalizing c buf a pos left with
  | zero =>
    refine ⟨c, ?_, rfl, rfl⟩
    rw [Nat.mul_zero, Bytes.copy_zero]
    rfl
  | succ n ih =>
    unfold insw inWord
    rw [hx]
    dsimp only
    rw [update_pair]
    by_cases hlast : n = 0
    · subst hlast
      exact ⟨_, rfl, rfl, rfl⟩
    · have hadv : advance ⟨slave, false, pos, left⟩ = some ⟨slave, false, pos + 2, left - 2⟩ :=
        if_neg (by simp only; omega)
      rw [hadv]
      obtain ⟨c', hc', hdisk, hdelay⟩ := @ih
        { c with xfer := some ⟨slave, false, pos + 2, left - 2⟩ } (buf.copy a (c.disk slave) pos 2)
        (a + 2) _ _ rfl (by omega)
      refine ⟨c', ?_, hdisk, hdelay⟩
      rw [hc', Bytes.copy_append, show 2 + 2 * n = 2 * (n + 1) by omega]

/-- The channel with the bytes of a buffer on one of its disks. -/
def stored (c : Channel) (slave : Bool) (pos : ℕ) (buf : Bytes) (a n : ℕ) : Bool → Bytes :=
  Function.update c.disk slave ((c.disk slave).copy pos buf a n)

theorem outsw_eq (n : ℕ) (hx : c.xfer = some ⟨slave, true, pos, left⟩) (hn : 2 * n ≤ left) :
    (outsw c buf a n).disk = stored c slave pos buf a (2 * n) ∧
      (outsw c buf a n).delay = c.delay := by
  induction n generalizing c a pos left with
  | zero =>
    refine ⟨?_, rfl⟩
    rw [stored, Nat.mul_zero, Bytes.copy_zero, Function.update_eq_self]
    rfl
  | succ n ih =>
    unfold outsw outWord
    rw [hx]
    dsimp only
    rw [update_pair]
    by_cases hlast : n = 0
    · subst hlast
      exact ⟨rfl, rfl⟩
    · have hadv : advance ⟨slave, true, pos, left⟩ = some ⟨slave, true, pos + 2, left - 2⟩ :=
        if_neg (by simp only; omega)
      rw [hadv]
      obtain ⟨hdisk, hdelay⟩ := @ih
        { c with
          disk := Function.update c.disk slave ((c.disk slave).copy pos buf a 2)
          xfer := some ⟨slave, true, pos + 2, left - 2⟩ } (a + 2) _ _ rfl (by omega)
      refine ⟨?_, hdelay⟩
      rw [hdisk]
      unfold stored
      dsimp only
      rw [Function.update_self, Function.update_idem, Bytes.copy_append,
        show 2 + 2 * n = 2 * (n + 1) by omega]

/-! ## A request -/

/-- `busy_wait` returns when the controller is ready in time. -/
theorem busyWaitLoop_eq (limit : ℕ) (hbusy : c.busy < limit) (hx : c.xfer.isSome = true) :
    busyWaitLoop limit c = (true, { c with busy := 0 }) := by
  induction limit generalizing c with
  | zero => omega
  | succ limit ih =>
    unfold busyWaitLoop inStatus
    dsimp only
    by_cases h0 : 0 < c.busy
    · rw [if_pos h0, if_neg (by decide)]
      exact @ih { c with busy := c.busy - 1 } (by simp only; omega) hx
    · have hzero : c.busy = 0 := by omega
      rw [hzero]
      simp [hx]

/-- The registers for a sector of a disk and a count. -/
def regsFor (hd : Hd) (lba secCnt : ℕ) : Regs where
  sectCnt := BitVec.ofNat 8 secCnt
  lbaL := BitVec.ofNat 8 lba
  lbaM := BitVec.ofNat 8 (lba / 2 ^ 8)
  lbaH := BitVec.ofNat 8 (lba / 2 ^ 16)
  dev := 0xa0#8 ||| 0x40#8 ||| (if hd.devNo = 1 then 0x10#8 else 0#8) ||| BitVec.ofNat 8 (lba / 2 ^ 24)

/-- The controller reads the registers as they are meant. -/
theorem regsFor_spec (hd : Hd) {n : ℕ} (hlba : lba ≤ maxLba) (hpos : 1 ≤ n) (hle : n ≤ 256) :
    (regsFor hd lba n).lba = lba ∧ sizeInByte (BitVec.ofNat 8 n) = n * 512 ∧
      sectors (regsFor hd lba n) = n ∧ (regsFor hd lba n).dev.getLsbD 4 = hd.slave := by
  obtain ⟨r, hr, hreg, hsize⟩ := Sectors.selectSector_eq hd.devNo hlba hpos hle
  have hsel : Sectors.selectSector hd.devNo lba n = .ok (regsFor hd lba n) := assert_bind_of hlba _
  rw [hr] at hsel
  have heq : r = regsFor hd lba n := Except.ok.inj hsel
  subst heq
  refine ⟨hreg, hsize, ?_, ?_⟩
  · unfold sectors
    simp only [regsFor, BitVec.toNat_ofNat]
    split <;> omega
  · have hzero : lba / 2 ^ 24 = 0 := by
      unfold maxLba at hlba
      omega
    simp only [regsFor, hzero, Hd.slave]
    by_cases hdev : hd.devNo = 1
    · rw [if_pos hdev]
      simp [hdev]
    · rw [if_neg hdev]
      simp [hdev]

/-- A request for sectors: the controller is ready to move exactly these. -/
theorem request_spec (hd : Hd) (toDisk : Bool) {n : ℕ} (hready : ∀ k, c.delay k < 30 * 1000 - 1)
    (hlba : lba ≤ maxLba) (hpos : 1 ≤ n) (hle : n ≤ 256) :
    ∃ c₁ c₂, selectSector c hd lba (BitVec.ofNat 8 n) = .ok c₁ ∧
      busyWait (outCmd c₁ (if toDisk then 0x30#8 else 0x20#8)) = (true, c₂) ∧ c₂.disk = c.disk ∧
      c₂.delay = c.delay ∧ c₂.xfer = some ⟨hd.slave, toDisk, lba * 512, n * 512⟩ := by
  obtain ⟨hreg, -, hsect, hdev⟩ := regsFor_spec hd hlba hpos hle
  have hxfer : (outCmd { c with regs := regsFor hd lba n } (if toDisk then 0x30#8 else 0x20#8)).xfer =
      some ⟨hd.slave, toDisk, lba * 512, n * 512⟩ := by
    unfold outCmd
    simp only [hreg, hsect, hdev]
    cases toDisk <;> rfl
  refine ⟨{ c with regs := regsFor hd lba n }, _, assert_bind_of hlba _,
    busyWaitLoop_eq _ (hready c.cmds) ?_, rfl, rfl, hxfer⟩
  rw [hxfer]
  rfl

/-! ## The loops -/

section

variable (hready : ∀ k, c.delay k < 30 * 1000 - 1) (hend : lba + secCnt ≤ maxLba + 1)
include hready hend

/-- A chunk of `ide_read`. -/
theorem readLoop_step {fuel secsDone : ℕ} (hlt : secsDone < secCnt) :
    ∃ c', readLoop hd lba secCnt (fuel + 1) secsDone c buf =
        readLoop hd lba secCnt fuel (secsDone + secsOp secsDone secCnt) c'
          (buf.copy (secsDone * 512) (c.disk hd.slave) ((lba + secsDone) * 512)
            (secsOp secsDone secCnt * 512)) ∧
      c'.disk = c.disk ∧ c'.delay = c.delay := by
  have hmax : maxLba = 163839 := rfl
  obtain ⟨h1, h256, hop⟩ := Sectors.secsOp_spec hlt (by omega)
  have hlba : lba + secsDone ≤ maxLba := by omega
  have hmod : (secsDone + secsOp secsDone secCnt) % 2 ^ 32 = secsDone + secsOp secsDone secCnt :=
    Nat.mod_eq_of_lt (by omega)
  obtain ⟨c₁, c₂, hsel, hwait, hdisk, hdelay, hx⟩ := request_spec hd false hready hlba h1 h256
  obtain ⟨-, hsize, -⟩ := regsFor_spec hd hlba h1 h256
  obtain ⟨c₃, hin, hdisk₃, hdelay₃⟩ := @insw_eq c₂ buf (secsDone * 512) _ _ _
    (secsOp secsDone secCnt * 512 / 2) hx (by omega)
  rw [show 2 * (secsOp secsDone secCnt * 512 / 2) = secsOp secsDone secCnt * 512 by omega] at hin
  refine ⟨c₃, ?_, hdisk₃.trans hdisk, hdelay₃.trans hdelay⟩
  simp only [Bool.false_eq_true, if_false] at hwait
  rw [readLoop, if_pos hlt, Nat.mod_eq_of_lt (a := lba + secsDone) (by omega),
    Nat.mod_eq_of_lt (a := secsDone * 512) (by omega)]
  simp only [hmod, hsel, ok_bind, hwait, if_true, readFromSector, hsize, hin, hdisk]

theorem readLoop_eq (fuel secsDone : ℕ) (hle : secsDone ≤ secCnt)
    (hfuel : secCnt < secsDone + fuel) :
    ∃ c', readLoop hd lba secCnt fuel secsDone c
        (buf.copy 0 (c.disk hd.slave) (lba * 512) (secsDone * 512)) =
      .ok (c', buf.copy 0 (c.disk hd.slave) (lba * 512) (secCnt * 512)) ∧ c'.disk = c.disk ∧
      c'.delay = c.delay := by
  induction fuel generalizing c secsDone with
  | zero => omega
  | succ fuel ih =>
    by_cases hlt : secsDone < secCnt
    · have hmax : maxLba = 163839 := rfl
      obtain ⟨h1, -, hop⟩ := Sectors.secsOp_spec hlt (by omega)
      obtain ⟨c₁, hstep, hdisk, hdelay⟩ := @readLoop_step c hd
        (buf.copy 0 (c.disk hd.slave) (lba * 512) (secsDone * 512)) lba secCnt hready hend fuel
        secsDone hlt
      obtain ⟨c', hrun, hdisk', hdelay'⟩ := @ih c₁ (by rw [hdelay]; exact hready)
        (secsDone + secsOp secsDone secCnt) hop (by omega)
      refine ⟨c', ?_, hdisk'.trans hdisk, hdelay'.trans hdelay⟩
      -- the bytes of this chunk follow those of the chunks before
      have happ := @Bytes.copy_append buf (c.disk hd.slave) 0 (lba * 512) (secsDone * 512)
        (secsOp secsDone secCnt * 512)
      rw [Nat.zero_add, ← Nat.add_mul, ← Nat.add_mul] at happ
      rw [hstep, happ, ← hdisk, hrun]
    · rw [readLoop, if_neg hlt, show secsDone = secCnt by omega]
      exact ⟨c, rfl, rfl, rfl⟩

/-- A chunk of `ide_write`. -/
theorem writeLoop_step {fuel secsDone : ℕ} (hlt : secsDone < secCnt) :
    ∃ c', writeLoop hd lba buf secCnt (fuel + 1) secsDone c =
        writeLoop hd lba buf secCnt fuel (secsDone + secsOp secsDone secCnt) c' ∧
      c'.disk = stored c hd.slave ((lba + secsDone) * 512) buf (secsDone * 512)
        (secsOp secsDone secCnt * 512) ∧ c'.delay = c.delay := by
  have hmax : maxLba = 163839 := rfl
  obtain ⟨h1, h256, hop⟩ := Sectors.secsOp_spec hlt (by omega)
  have hlba : lba + secsDone ≤ maxLba := by omega
  have hmod : (secsDone + secsOp secsDone secCnt) % 2 ^ 32 = secsDone + secsOp secsDone secCnt :=
    Nat.mod_eq_of_lt (by omega)
  obtain ⟨c₁, c₂, hsel, hwait, hdisk, hdelay, hx⟩ := request_spec hd true hready hlba h1 h256
  obtain ⟨-, hsize, -⟩ := regsFor_spec hd hlba h1 h256
  obtain ⟨hout, hdelay₃⟩ := @outsw_eq c₂ buf (secsDone * 512) _ _ _
    (secsOp secsDone secCnt * 512 / 2) hx (by omega)
  rw [show 2 * (secsOp secsDone secCnt * 512 / 2) = secsOp secsDone secCnt * 512 by omega, stored,
    hdisk] at hout
  refine ⟨_, ?_, hout, hdelay₃.trans hdelay⟩
  simp only [if_true] at hwait
  rw [writeLoop, if_pos hlt, Nat.mod_eq_of_lt (a := lba + secsDone) (by omega),
    Nat.mod_eq_of_lt (a := secsDone * 512) (by omega)]
  simp only [hmod, hsel, ok_bind, hwait, if_true, write2sector, hsize]

theorem writeLoop_eq {disk : Bool → Bytes} (fuel secsDone : ℕ) (hle : secsDone ≤ secCnt)
    (hfuel : secCnt < secsDone + fuel)
    (hdisk : c.disk = Function.update disk hd.slave
      ((disk hd.slave).copy (lba * 512) buf 0 (secsDone * 512))) :
    ∃ c', writeLoop hd lba buf secCnt fuel secsDone c = .ok c' ∧
      c'.disk = Function.update disk hd.slave
        ((disk hd.slave).copy (lba * 512) buf 0 (secCnt * 512)) ∧ c'.delay = c.delay := by
  induction fuel generalizing c secsDone with
  | zero => omega
  | succ fuel ih =>
    by_cases hlt : secsDone < secCnt
    · have hmax : maxLba = 163839 := rfl
      obtain ⟨h1, -, hop⟩ := Sectors.secsOp_spec hlt (by omega)
      obtain ⟨c₁, hstep, hdisk₁, hdelay⟩ := @writeLoop_step c hd buf lba secCnt hready hend fuel
        secsDone hlt
      have happ := @Bytes.copy_append (disk hd.slave) buf (lba * 512) 0 (secsDone * 512)
        (secsOp secsDone secCnt * 512)
      rw [Nat.zero_add, ← Nat.add_mul, ← Nat.add_mul] at happ
      rw [stored, hdisk, Function.update_self, Function.update_idem, happ] at hdisk₁
      obtain ⟨c', hrun, hdisk', hdelay'⟩ := @ih c₁ (by rw [hdelay]; exact hready)
        (secsDone + secsOp secsDone secCnt) hop (by omega) hdisk₁
      exact ⟨c', hstep.trans hrun, hdisk', hdelay'.trans hdelay⟩
    · rw [writeLoop, if_neg hlt]
      rw [show secsDone = secCnt by omega] at hdisk
      exact ⟨c, rfl, hdisk, rfl⟩

/-- **`ide_read`** of sectors of the disk. -/
theorem ideRead_spec (hpos : 1 ≤ secCnt) :
    ∃ c', ideRead c hd lba buf secCnt =
        .ok (c', buf.copy 0 (c.disk hd.slave) (lba * 512) (secCnt * 512)) ∧ c'.disk = c.disk ∧
      c'.delay = c.delay := by
  unfold ideRead
  rw [assert_bind_of (by omega), assert_bind_of (by omega)]
  obtain ⟨c', hrun, hdisk, hdelay⟩ := @readLoop_eq (selectDisk c hd) hd buf lba secCnt hready hend
    (secCnt + 1) 0 (Nat.zero_le _) (by omega)
  rw [Nat.zero_mul, Bytes.copy_zero] at hrun
  exact ⟨c', hrun, hdisk, hdelay⟩

/-- **`ide_write`** to sectors of the disk. -/
theorem ideWrite_spec (hpos : 1 ≤ secCnt) :
    ∃ c', ideWrite c hd lba buf secCnt = .ok c' ∧
      c'.disk = stored c hd.slave (lba * 512) buf 0 (secCnt * 512) ∧ c'.delay = c.delay := by
  unfold ideWrite
  rw [assert_bind_of (by omega), assert_bind_of (by omega)]
  refine @writeLoop_eq (selectDisk c hd) hd buf lba secCnt hready hend c.disk (secCnt + 1) 0
    (Nat.zero_le _) (by omega) ?_
  rw [Nat.zero_mul, Bytes.copy_zero, Function.update_eq_self]
  rfl

/-- `ide_read` of `Sectors` is the one of the ports. -/
theorem ideRead_refines (hpos : 1 ≤ secCnt) :
    (ideRead c hd lba buf secCnt).map Prod.snd =
      Sectors.ideRead (c.disk hd.slave) hd.devNo lba buf 0 secCnt := by
  obtain ⟨c', hread, -⟩ := @ideRead_spec c hd buf lba secCnt hready hend hpos
  rw [hread, Sectors.ideRead_eq hpos hend]
  rfl

/-- `ide_write` of `Sectors` is the one of the ports. -/
theorem ideWrite_refines (hpos : 1 ≤ secCnt) :
    (ideWrite c hd lba buf secCnt).map (fun c' => c'.disk hd.slave) =
      Sectors.ideWrite (c.disk hd.slave) hd.devNo lba buf 0 secCnt := by
  obtain ⟨c', hwrite, hdisk, -⟩ := @ideWrite_spec c hd buf lba secCnt hready hend hpos
  rw [hwrite, Sectors.ideWrite_eq hpos hend, Except.map, hdisk, stored, Function.update_self]

end

/-! ## Main result -/

/-- What the two functions do to sectors `lba, …, lba + secCnt - 1` and to a buffer; byte `k` of
sector `l` is byte `l * 512 + k` of the disk. -/
structure RoundTrip (c : Channel) (hd : Hd) (lba : ℕ) (buf : Bytes) (secCnt : ℕ) : Prop where
  write : ∃ c', ideWrite c hd lba buf secCnt = .ok c' ∧
    (∀ i k, i < secCnt → k < 512 → c'.disk hd.slave ((lba + i) * 512 + k) = buf (512 * i + k)) ∧
    (∀ l k, l < lba ∨ lba + secCnt ≤ l → k < 512 →
      c'.disk hd.slave (l * 512 + k) = c.disk hd.slave (l * 512 + k)) ∧
    c'.disk (!hd.slave) = c.disk (!hd.slave)
  read : ∃ c' buf', ideRead c hd lba buf secCnt = .ok (c', buf') ∧ c'.disk = c.disk ∧
    (∀ i k, i < secCnt → k < 512 → buf' (512 * i + k) = c.disk hd.slave ((lba + i) * 512 + k)) ∧
    ∀ j, 512 * secCnt ≤ j → buf' j = buf j
  readBack : ∀ c' buf₀, ideWrite c hd lba buf secCnt = .ok c' →
    ∃ c'' buf', ideRead c' hd lba buf₀ secCnt = .ok (c'', buf') ∧ ∀ j, j < 512 * secCnt → buf' j = buf j

/-- **Transfers.**  When the controller is ready before `busy_wait` gives up, `ide_write` stores the
buffer in the sectors asked for and in no other, `ide_read` fills the buffer with exactly these
sectors and leaves the disks alone, and what was written is read back: for every disk, every
position on it and every number of sectors. -/
theorem transfer_round_trip (hready : ∀ k, c.delay k < 30 * 1000 - 1) (hpos : 1 ≤ secCnt)
    (hend : lba + secCnt - 1 ≤ maxLba) : RoundTrip c hd lba buf secCnt := by
  have hend' : lba + secCnt ≤ maxLba + 1 := by omega
  obtain ⟨c₁, hwrite, hdisk₁, hdelay₁⟩ := @ideWrite_spec c hd buf lba secCnt hready hend' hpos
  refine ⟨⟨c₁, hwrite, fun i k hi hk => ?_, fun l k hl hk => ?_, ?_⟩, ?_, fun c' buf₀ hc' => ?_⟩
  · rw [hdisk₁, stored, Function.update_self, Bytes.copy_of_mem (by omega) (by omega),
      show 0 + ((lba + i) * 512 + k - lba * 512) = 512 * i + k by omega]
  · rw [hdisk₁, stored, Function.update_self, Bytes.copy_of_not_mem (by omega)]
  · rw [hdisk₁, stored, Function.update_of_ne (by cases hd.slave <;> decide)]
  · obtain ⟨c', hread, hdisk, -⟩ := @ideRead_spec c hd buf lba secCnt hready hend' hpos
    refine ⟨c', _, hread, hdisk, fun i k hi hk => ?_, fun j hj => ?_⟩
    · rw [Bytes.copy_of_mem (by omega) (by omega),
        show lba * 512 + (512 * i + k - 0) = (lba + i) * 512 + k by omega]
    · exact Bytes.copy_of_not_mem (by omega)
  · rw [hwrite] at hc'
    cases hc'
    obtain ⟨c'', hread, -⟩ := @ideRead_spec c₁ hd buf₀ lba secCnt (by rw [hdelay₁]; exact hready)
      hend' hpos
    refine ⟨c'', _, hread, fun j hj => ?_⟩
    rw [hdisk₁, stored, Function.update_self, Bytes.copy_of_mem (by omega) (by omega),
      Bytes.copy_of_mem (by omega) (by omega),
      show 0 + (lba * 512 + (j - 0) - lba * 512) = j by omega]

/-- A channel with two empty disks that is busy for the first polls of each command. -/
def emptyChannel : Channel where
  disk _ _ := 0
  regs := ⟨0, 0, 0, 0, 0⟩
  xfer := none
  busy := 0
  delay k := k % 7
  cmds := 0
  bus := 0xffff

/-- Two chunks of 256 sectors and one of 88, up to the last sector of the disk. -/
theorem transfer_round_trip_600 :
    RoundTrip emptyChannel ⟨"sdb", 1⟩ 163240 (fun j => BitVec.ofNat 8 (j / 512)) 600 := by
  refine transfer_round_trip (fun k => ?_) (by decide) (by decide)
  simp only [emptyChannel]
  omega

end HcOs.Ata
