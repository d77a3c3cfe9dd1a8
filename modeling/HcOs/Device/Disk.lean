import HcOs.Lib.Machine
import HcOs.Thread.Sync

/-!
# The disk command handshake (`device/ide.c`)

One IDE channel, a driver that runs any sequence of `identify_disk`, `ide_read` and `ide_write`,
and a device that raises one completion interrupt for every command, at any later moment.  The
commands are numbered in the order `cmd_out` sends them.

A step of the driver is one of: taking up the next call; `select_sector` and the store to
`expecting_intr`; the `outb` of the command; a pass of the loop of `sema_down`; `busy_wait` with
the transfer that follows it.  `intr_hd_handler` runs between any two of these.

`ide_init` gives `disk_done` the value 1, so the first `sema_down` does not wait, and a first
interrupt that arrives before it finds `value` at 1.  `handshake_iff`: the handshake is kept
exactly by the runs that end before both.  `handshake_of_value_zero`: with the value 0 every
interleaving keeps it.
-/

namespace HcOs.Disk

open HcOs.Lib

def maxLba : ℕ := 80 * 1024 * 1024 / 512 - 1

/-- The fields of `struct ide_channel` that the handshake uses; the driver is the only thread. -/
structure Channel where
  irqNo : ℕ
  lock : Lock Unit
  expectingIntr : Bool
  diskDone : Semaphore Unit

/-- The set-up of a channel, with the initial value of `disk_done` left open. -/
def channelInit (channelNo : Fin 2) (value : ℕ) : Channel where
  irqNo := if channelNo = 0 then 0x20 + 14 else 0x20 + 15
  lock := lockInit
  expectingIntr := false
  diskDone := semaInit value

/-- The calls of the driver. -/
inductive Op where
  | identify
  | read (lba secCnt : ℕ)
  | write (lba secCnt : ℕ)

/-- A call in progress and the number of sectors it has moved. -/
structure Xfer where
  op : Op
  secsDone : ℕ

/-- Where the driver is. -/
inductive Pc where
  | idle
  /-- Before `select_sector` and `expecting_intr = true`. -/
  | expect (x : Xfer)
  /-- Before the `outb` of `cmd_out`. -/
  | out (x : Xfer)
  /-- At the loop test of `sema_down`, or blocked behind it. -/
  | down (x : Xfer)
  /-- Before `busy_wait`. -/
  | busy (x : Xfer)

structure State where
  chan : Channel
  st : Statuses Unit
  pc : Pc
  /-- The number of commands sent. -/
  issued : ℕ
  /-- The commands whose interrupt has not been delivered. -/
  pending : List ℕ
  /-- The commands whose interrupt `intr_hd_handler` has processed. -/
  processed : List ℕ
  /-- The commands whose `sema_down` has returned. -/
  completed : List ℕ

def initState (channelNo : Fin 2) (value : ℕ) : State where
  chan := channelInit channelNo value
  st _ := .ready
  pc := .idle
  issued := 0
  pending := []
  processed := []
  completed := []

/-- The channel as `ide_init` leaves it. -/
def ideInit (channelNo : Fin 2) : State := initState channelNo 1

inductive Event where
  | start (op : Op)
  | expect
  | out
  | down
  | busy (ready : Bool)
  | intr (cmd : ℕ)

/-! ## The driver -/

/-- The entry of `identify_disk`, `ide_read` and `ide_write`. -/
def start (s : State) (op : Op) : Except Halt State :=
  match op with
  | .identify => .ok { s with pc := .expect ⟨op, 0⟩ }
  | .read lba secCnt => enter lba secCnt "ide_read"
  | .write lba secCnt => enter lba secCnt "ide_write"
where
  enter (lba secCnt : ℕ) (func : String) : Except Halt State := do
    assert (lba ≤ maxLba) func "lba <= max_lba"
    assert (secCnt > 0) func "sec_cnt > 0"
    let (taken, st, lock) ← lockAcquire s.st s.chan.lock ()
    if taken then .ok { s with st, chan := { s.chan with lock }, pc := .expect ⟨op, 0⟩ }
    else .error .noReturn

/-- The assertion of `select_sector` for the next chunk of a call. -/
def selectSector (x : Xfer) : Except Halt Unit :=
  match x.op with
  | .identify => .ok ()
  | .read lba _ | .write lba _ =>
    assert ((lba + x.secsDone) % 2 ^ 32 ≤ maxLba) "select_sector" "lba <= max_lba"

/-- The number of sectors of the next chunk. -/
def secsOp (secsDone secCnt : ℕ) : ℕ :=
  if (secsDone + 256) % 2 ^ 32 ≤ secCnt then 256 else secCnt - secsDone

/-- The end of a chunk: the next chunk of the call, or `lock_release` and its return. -/
def endChunk (s : State) (x : Xfer) : Except Halt State :=
  match x.op with
  | .identify => .ok { s with pc := .idle }
  | .read _ secCnt | .write _ secCnt => do
    let done := (x.secsDone + secsOp x.secsDone secCnt) % 2 ^ 32
    if done < secCnt then .ok { s with pc := .expect ⟨x.op, done⟩ }
    else do
      let (st, lock) ← lockRelease s.st s.chan.lock ()
      .ok { s with st, chan := { s.chan with lock }, pc := .idle }

/-- The command is on its way; a write transfers its data first, the others wait at once. -/
def afterOut (x : Xfer) : Pc :=
  match x.op with
  | .write _ _ => .busy x
  | _ => .down x

/-- `sema_down` returned: a write is done with its chunk, the others wait for the disk. -/
def afterDown (s : State) (x : Xfer) : Except Halt State :=
  match x.op with
  | .write _ _ => endChunk s x
  | _ => .ok { s with pc := .busy x }

/-- A pass of the loop of `sema_down(&channel->disk_done)`. -/
def down (s : State) (x : Xfer) : Except Halt State := do
  let (taken, st, sem) ← semaDownPass s.st s.chan.diskDone ()
  let s := { s with st, chan := { s.chan with diskDone := sem } }
  if taken then afterDown { s with completed := s.completed ++ [s.issued - 1] } x else .ok s

/-- `busy_wait` with the answer `ready`, and the transfer. -/
def busy (s : State) (x : Xfer) (ready : Bool) : Except Halt State :=
  if ready then
    match x.op with
    | .write _ _ => .ok { s with pc := .down x }
    | _ => endChunk s x
  else
    match x.op with
    | .identify => .error (.panic "identify_disk" "%s identify failed!!!\n")
    | .read _ _ => .error (.panic "ide_read" "%s read sector %d failed!!!\n")
    | .write _ _ => .error (.panic "ide_write" "%s write sector %d failed!!!\n")

/-- `intr_hd_handler` for the interrupt of the command `k`. -/
def intrHdHandler (s : State) (irqNo k : ℕ) : Except Halt State := do
  assert (irqNo = 0x2e ∨ irqNo = 0x2f) "intr_hd_handler" "irq_no == 0x2e || irq_no == 0x2f"
  assert (s.chan.irqNo = irqNo) "intr_hd_handler" "channel->irq_no == irq_no"
  if s.chan.expectingIntr then do
    let chan := { s.chan with expectingIntr := false }
    let (st, sem) ← semaUp s.st chan.diskDone
    .ok { s with st, chan := { chan with diskDone := sem }, pending := s.pending.erase k
                 processed := s.processed ++ [k] }
  else .ok { s with pending := s.pending.erase k, processed := s.processed ++ [k] }

/-- The driver's next step or the delivery of a raised interrupt: channel 0 interrupts through
vector 0x2e, channel 1 through 0x2f. -/
def machine (channelNo : Fin 2) : Machine State Event Halt where
  step s e :=
    match e, s.pc with
    | .start op, .idle => some (start s op)
    | .expect, .expect x => some (do
        selectSector x
        .ok { s with chan := { s.chan with expectingIntr := true }, pc := .out x })
    | .out, .out x => some (.ok { s with issued := s.issued + 1
                                         pending := s.pending ++ [s.issued], pc := afterOut x })
    | .down, .down x => if s.st () = .ready then some (down s x) else none
    | .busy ready, .busy x => some (busy s x ready)
    | .intr k, _ =>
      if k ∈ s.pending then some (intrHdHandler s (0x2e + channelNo) k) else none
    | _, _ => none

/-- A failing `ASSERT` of `sema_down` or `sema_up`. -/
def SemaAssert : Halt → Prop
  | .panic func _ => func = "sema_down" ∨ func = "sema_up"
  | _ => False

/-- Every `sema_down` that returned did so after the interrupt of its command was processed, and
no assertion of the semaphore failed. -/
def Handshake : Except Halt State → Prop
  | .ok s => ∀ k ∈ s.completed, k ∈ s.processed
  | .error x => ¬SemaAssert x

/-! ## The lock of the channel

Only one driver uses the channel, so its lock is free between calls and held during a read or a
write; `identify_disk` does not take it. -/

/-- The lock of the channel during a call. -/
def Op.lock : Op → Lock Unit
  | .identify => lockInit
  | _ => ⟨some (), ⟨0, []⟩, 1⟩

def Pc.lock : Pc → Lock Unit
  | .idle => lockInit
  | .expect x | .out x | .down x | .busy x => x.op.lock

theorem lockAcquire_init {st : Statuses Unit} :
    lockAcquire st lockInit () = .ok (true, st, ⟨some (), ⟨0, []⟩, 1⟩) := rfl

theorem lockRelease_held {st : Statuses Unit} :
    lockRelease st ⟨some (), ⟨0, []⟩, 1⟩ () = .ok (st, lockInit) := rfl

variable {channelNo : Fin 2} {s : State} {x : Xfer}

/-- The end of a chunk touches the lock and the program counter only. -/
theorem endChunk_eq (h : s.chan.lock = x.op.lock) :
    ∃ pc, (pc = .idle ∨ ∃ d, pc = .expect ⟨x.op, d⟩) ∧
      endChunk s x = .ok { s with chan := { s.chan with lock := pc.lock }, pc := pc } := by
  obtain ⟨op, n⟩ := x
  cases op with
  | identify =>
    refine ⟨.idle, Or.inl rfl, ?_⟩
    rw [show Pc.idle.lock = s.chan.lock from h.symm]
    rfl
  | read lba secCnt | write lba secCnt =>
    simp only [endChunk]
    split
    · refine ⟨.expect ⟨_, (n + secsOp n secCnt) % 2 ^ 32⟩, Or.inr ⟨_, rfl⟩, ?_⟩
      simp only [Pc.lock, ← h]
    · refine ⟨.idle, Or.inl rfl, ?_⟩
      rw [h, Op.lock, lockRelease_held]
      · rfl
      · nofun

/-- Taking up a call touches the lock and the program counter only. -/
theorem start_cases (h : s.chan.lock = lockInit) (op : Op) :
    start s op =
        .ok { s with chan := { s.chan with lock := op.lock }, pc := .expect ⟨op, 0⟩ } ∨
      ∃ func m, start s op = .error (.panic func m) ∧ (func = "ide_read" ∨ func = "ide_write") := by
  have enter : ∀ lba secCnt func, op.lock = ⟨some (), ⟨0, []⟩, 1⟩ →
      start.enter s op lba secCnt func =
        .ok { s with chan := { s.chan with lock := op.lock }, pc := .expect ⟨op, 0⟩ } ∨
      ∃ m, start.enter s op lba secCnt func = .error (.panic func m) := by
    intro lba secCnt func hop
    unfold start.enter
    by_cases h1 : lba ≤ maxLba
    · rw [assert_bind_of h1]
      by_cases h2 : secCnt > 0
      · rw [assert_bind_of h2, h, lockAcquire_init, hop]
        exact Or.inl rfl
      · rw [assert_bind_of_not h2]
        exact Or.inr ⟨_, rfl⟩
    · rw [assert_bind_of_not h1]
      exact Or.inr ⟨_, rfl⟩
  cases op with
  | identify =>
    refine Or.inl ?_
    unfold Op.lock
    rw [← h]
    rfl
  | read lba secCnt =>
    rcases enter lba secCnt "ide_read" rfl with h | ⟨m, h⟩
    · exact Or.inl h
    · exact Or.inr ⟨_, m, h, Or.inl rfl⟩
  | write lba secCnt =>
    rcases enter lba secCnt "ide_write" rfl with h | ⟨m, h⟩
    · exact Or.inl h
    · exact Or.inr ⟨_, m, h, Or.inr rfl⟩

theorem selectSector_cases (x : Xfer) :
    selectSector x = .ok () ∨ selectSector x = .error (.panic "select_sector" "lba <= max_lba") := by
  unfold selectSector assert
  split
  · exact Or.inl rfl
  all_goals
    split_ifs
    · exact Or.inl rfl
    · exact Or.inr rfl

/-! ## The first `sema_down` and the first interrupt -/

/-- No `sema_down` has been executed and no interrupt delivered. -/
structure Fresh (channelNo : Fin 2) (s : State) : Prop where
  irq : s.chan.irqNo = 0x2e + channelNo
  sem : s.chan.diskDone = ⟨1, []⟩
  lock : s.chan.lock = s.pc.lock
  processed : s.processed = []
  completed : s.completed = []
  expecting : s.pending ≠ [] → s.chan.expectingIntr = true
  out : ∀ x, s.pc = .out x → s.chan.expectingIntr = true
  /-- A read or an identification reaches `busy_wait` only through `sema_down`. -/
  busy : ∀ x, s.pc = .busy x → ∃ lba secCnt, x.op = .write lba secCnt

theorem irqNo_init (channelNo : Fin 2) (v : ℕ) :
    (initState channelNo v).chan.irqNo = 0x2e + channelNo := by
  obtain rfl | rfl : channelNo = 0 ∨ channelNo = 1 := by omega
  · rfl
  · rfl

theorem fresh_ideInit (channelNo : Fin 2) : Fresh channelNo (ideInit channelNo) where
  irq := irqNo_init channelNo 1
  sem := rfl
  lock := rfl
  processed := rfl
  completed := rfl
  expecting h := absurd rfl h
  out _ h := by cases h
  busy _ h := by cases h

/-- What a step may end in without breaking the handshake before the first `sema_down`. -/
def FreshOr (channelNo : Fin 2) (r : Except Halt State) : Prop :=
  (∃ s, r = .ok s ∧ Fresh channelNo s) ∨ ∃ x, r = .error x ∧ ¬SemaAssert x

theorem fresh_out (hf : Fresh channelNo s) (hpc : s.pc = .out x) :
    Fresh channelNo { s with issued := s.issued + 1
                             pending := s.pending ++ [s.issued], pc := afterOut x } := by
  have hlock := hf.lock
  rw [hpc] at hlock
  refine ⟨hf.irq, hf.sem, ?_, hf.processed, hf.completed, fun _ => hf.out x hpc, ?_, ?_⟩
  all_goals
    unfold afterOut
    split
  · exact hlock
  · exact hlock
  · nofun
  · nofun
  · next lba secCnt hx =>
    rintro y hy
    cases hy
    exact ⟨lba, secCnt, hx⟩
  · nofun

/-- A step other than `sema_down` and the interrupt keeps the first state of affairs. -/
theorem fresh_step (hf : Fresh channelNo s) {e : Event} (hd : e ≠ .down) (hi : ∀ k, e ≠ .intr k)
    {r : Except Halt State} (h : (machine channelNo).step s e = some r) :
    FreshOr channelNo r := by
  have hlock := hf.lock
  simp only [machine] at h
  split at h
  · next op hpc =>
    rw [hpc] at hlock
    rw [← Option.some.inj h]
    rcases start_cases hlock op with hs | ⟨func, m, hs, hfunc⟩
    · exact Or.inl ⟨_, hs, hf.irq, hf.sem, rfl, hf.processed, hf.completed, hf.expecting,
        nofun, nofun⟩
    · refine Or.inr ⟨_, hs, ?_⟩
      rcases hfunc with rfl | rfl <;> simp [SemaAssert]
  · next x hpc =>
    rw [hpc] at hlock
    rw [← Option.some.inj h]
    rcases selectSector_cases x with hx | hx
    · rw [hx, ok_bind]
      exact Or.inl ⟨_, rfl, hf.irq, hf.sem, hlock, hf.processed, hf.completed, fun _ => rfl,
        fun _ _ => rfl, nofun⟩
    · rw [hx]
      exact Or.inr ⟨_, rfl, by simp [SemaAssert]⟩
  · next x hpc =>
    rw [← Option.some.inj h]
    exact Or.inl ⟨_, rfl, fresh_out hf hpc⟩
  · exact absurd rfl hd
  · next ready x hpc =>
    obtain ⟨lba, secCnt, hx⟩ := hf.busy x hpc
    rw [hpc] at hlock
    rw [← Option.some.inj h]
    simp only [busy, hx]
    split
    · exact Or.inl ⟨_, rfl, hf.irq, hf.sem, hlock, hf.processed, hf.completed, hf.expecting,
        nofun, nofun⟩
    · exact Or.inr ⟨_, rfl, by simp [SemaAssert]⟩
  · exact absurd rfl (hi _)
  · cases h

/-- `sema_down` of a state with `value` 1 returns at once. -/
theorem down_taken (hsem : s.chan.diskDone = ⟨1, []⟩) (hlock : s.chan.lock = x.op.lock) :
    ∃ s', down s x = .ok s' ∧ s'.completed = s.completed ++ [s.issued - 1] ∧
      s'.processed = s.processed := by
  unfold down
  rw [hsem, semaDownPass_one rfl]
  simp only [ok_bind, if_true, afterDown]
  split
  · obtain ⟨pc, -, hc⟩ := endChunk_eq (s := { s with
      chan := { s.chan with diskDone := ⟨0, []⟩ }
      completed := s.completed ++ [s.issued - 1] }) hlock
    exact ⟨_, hc, rfl, rfl⟩
  · exact ⟨_, rfl, rfl, rfl⟩

/-- The first `sema_down` returns at once: its command has no interrupt behind it. -/
theorem fresh_down (hf : Fresh channelNo s) {r : Except Halt State}
    (h : (machine channelNo).step s .down = some r) : ¬Handshake r := by
  cases hpc : s.pc with
  | down x =>
    simp only [machine, hpc] at h
    split at h
    · have hlock := hf.lock
      rw [hpc] at hlock
      obtain ⟨s', hs', hc, hp⟩ := down_taken (x := x) hf.sem hlock
      rw [← Option.some.inj h, hs']
      simp [Handshake, hc, hp, hf.processed, hf.completed]
    · cases h
  | _ => simp [machine, hpc] at h

/-- The first interrupt finds `value` at 1. -/
theorem fresh_intr (hf : Fresh channelNo s) {k : ℕ} {r : Except Halt State}
    (h : (machine channelNo).step s (.intr k) = some r) : ¬Handshake r := by
  simp only [machine] at h
  split at h
  · next hk =>
    have hne : s.pending ≠ [] := List.ne_nil_of_mem hk
    have hirq : (0x2e + (channelNo : ℕ) = 0x2e ∨ 0x2e + (channelNo : ℕ) = 0x2f) := by omega
    have hup : semaUp s.st s.chan.diskDone = .error (.panic "sema_up" "psema->value == 0") := by
      rw [hf.sem]
      rfl
    rw [← Option.some.inj h, intrHdHandler, assert_bind_of hirq, assert_bind_of hf.irq,
      if_pos (hf.expecting hne)]
    simp only [hup, error_bind]
    simp [Handshake, SemaAssert]
  · cases h

/-- Without `sema_down` and interrupts the handshake is kept. -/
theorem handshake_of_none {s : State} (hf : Fresh channelNo s) {es : List Event}
    (hes : ∀ e ∈ es, e ≠ .down ∧ ∀ k, e ≠ .intr k) {r : Except Halt State}
    (h : (machine channelNo).run s es = some r) : Handshake r := by
  induction es generalizing s with
  | nil =>
    cases h
    simp [Handshake, hf.completed]
  | cons e es ih =>
    obtain ⟨hd, hi⟩ := hes e List.mem_cons_self
    rcases (machine channelNo).run_cons_cases h with ⟨s₁, hs, hr⟩ | ⟨x, hx, -, rfl⟩
    · rcases fresh_step hf hd hi hs with ⟨s₂, h₂, hf₂⟩ | ⟨x, hx, -⟩
      · cases h₂
        exact ih hf₂ (fun e he => hes e (List.mem_cons_of_mem _ he)) hr
      · cases hx
    · rcases fresh_step hf hd hi hx with ⟨s₂, h₂, -⟩ | ⟨y, hy, hn⟩
      · cases h₂
      · cases hy
        exact hn

/-- The first `sema_down` or interrupt of a run breaks the handshake. -/
theorem exists_broken {s : State} (hf : Fresh channelNo s) {es : List Event}
    (hes : ∃ e ∈ es, e = .down ∨ ∃ k, e = .intr k) {r : Except Halt State}
    (h : (machine channelNo).run s es = some r) :
    ∃ fs r', fs <+: es ∧ (machine channelNo).run s fs = some r' ∧ ¬Handshake r' := by
  induction es generalizing s with
  | nil => simp at hes
  | cons e es ih =>
    have single : ∀ r', (machine channelNo).step s e = some r' →
        (machine channelNo).run s [e] = some r' := by
      intro r' hr'
      cases r' <;> simp [Machine.run, hr']
    obtain ⟨r₁, hr₁⟩ : ∃ r₁, (machine channelNo).step s e = some r₁ := by
      rcases (machine channelNo).run_cons_cases h with ⟨s₁, hs, -⟩ | ⟨x, hx, -, -⟩
      · exact ⟨_, hs⟩
      · exact ⟨_, hx⟩
    have hpre : [e] <+: e :: es := ⟨es, rfl⟩
    by_cases hd : e = .down
    · subst hd
      exact ⟨_, _, hpre, single _ hr₁, fresh_down hf hr₁⟩
    by_cases hi : ∃ k, e = .intr k
    · obtain ⟨k, rfl⟩ := hi
      exact ⟨_, _, hpre, single _ hr₁, fresh_intr hf hr₁⟩
    -- an earlier step of the driver: the break is further on
    have htl : ∃ e ∈ es, e = .down ∨ ∃ k, e = .intr k := by
      obtain ⟨e', he', hk⟩ := hes
      rcases List.mem_cons.mp he' with rfl | he'
      · exact (hk.elim hd hi).elim
      · exact ⟨e', he', hk⟩
    rcases (machine channelNo).run_cons_cases h with ⟨s₁, hs, hr⟩ | ⟨x, -, rfl, -⟩
    · rcases fresh_step hf hd (fun k hk => hi ⟨k, hk⟩) hs with ⟨s₂, h₂, hf₂⟩ | ⟨x, hx, -⟩
      · cases h₂
        obtain ⟨fs, r', hfs, hr', hb⟩ := ih hf₂ htl hr
        refine ⟨e :: fs, r', List.cons_prefix_cons.mpr ⟨rfl, hfs⟩, ?_, hb⟩
        rw [Machine.run_cons_ok _ hs]
        exact hr'
      · cases hx
    · simp at htl

/-- **The handshake fails from the first command on.**  A run of a channel as `ide_init` sets it up
keeps the handshake at all its moments if and only if it executes no `sema_down` and delivers no
interrupt. -/
theorem handshake_iff (channelNo : Fin 2) (es : List Event) {r : Except Halt State}
    (h : (machine channelNo).run (ideInit channelNo) es = some r) :
    (∀ fs r', fs <+: es → (machine channelNo).run (ideInit channelNo) fs = some r' →
        Handshake r') ↔
      ∀ e ∈ es, e ≠ .down ∧ ∀ k, e ≠ .intr k := by
  constructor
  · intro hall
    by_contra hne
    have hex : ∃ e ∈ es, e = .down ∨ ∃ k, e = .intr k := by
      by_contra hno
      refine hne fun e he => ⟨fun hd => hno ⟨e, he, Or.inl hd⟩, fun k hk => ?_⟩
      exact hno ⟨e, he, Or.inr ⟨k, hk⟩⟩
    obtain ⟨fs, r', hfs, hr', hb⟩ := exists_broken (fresh_ideInit channelNo) hex h
    exact hb (hall fs r' hfs hr')
  · intro hes fs r' hfs hr'
    exact handshake_of_none (fresh_ideInit channelNo) (fun e he => hes e (hfs.subset he)) hr'

theorem handshake_kept_by_cmd_out :
    (∃ s, (machine 0).run (ideInit 0) [.start .identify, .expect, .out] = some (.ok s) ∧
        s.pending = [0]) ∧
      ∀ fs r, fs <+: [.start .identify, .expect, .out] →
        (machine 0).run (ideInit 0) fs = some r → Handshake r :=
  ⟨⟨_, rfl, rfl⟩, (handshake_iff 0 [.start .identify, .expect, .out] rfl).mpr (by simp)⟩

/-- The `sema_down` of the very first command returns with no interrupt processed, and an interrupt
delivered before it fails the assertion of `sema_up`. -/
theorem handshake_broken_identify :
    (∃ s, (machine 0).run (ideInit 0) [.start .identify, .expect, .out, .down] = some (.ok s) ∧
        s.completed = [0] ∧ s.processed = [] ∧ ¬Handshake (.ok s)) ∧
      (machine 0).run (ideInit 0) [.start .identify, .expect, .out, .intr 0] =
        some (.error (.panic "sema_up" "psema->value == 0")) := by
  refine ⟨⟨_, rfl, rfl, rfl, fun h => ?_⟩, rfl⟩
  exact absurd (h 0 (List.mem_singleton.mpr rfl)) (by decide)

/-! ## The value 0

With `disk_done` at 0 the semaphore counts the interrupt of the command in flight. -/

/-- A command has been sent whose `sema_down` has not returned. -/
def Pc.sent : Pc → Bool
  | .down _ => true
  | .busy ⟨.write _ _, _⟩ => true
  | _ => false

/-- No command in flight. -/
structure Quiet (s : State) : Prop where
  sem : s.chan.diskDone = ⟨0, []⟩
  pending : s.pending = []
  ready : s.st () = .ready

/-- The interrupt of the last command has not been delivered. -/
structure Raised (s : State) : Prop where
  value : s.chan.diskDone.value = 0
  pending : s.pending = [s.issued - 1]
  expecting : s.chan.expectingIntr = true
  waiters : s.chan.diskDone.waiters = [] ∧ s.st () = .ready ∨
    s.chan.diskDone.waiters = [()] ∧ s.st () = .blocked

/-- The interrupt of the last command has been processed. -/
structure Served (s : State) : Prop where
  sem : s.chan.diskDone = ⟨1, []⟩
  pending : s.pending = []
  processed : s.issued - 1 ∈ s.processed
  ready : s.st () = .ready

structure Sound (channelNo : Fin 2) (s : State) : Prop where
  irq : s.chan.irqNo = 0x2e + channelNo
  lock : s.chan.lock = s.pc.lock
  completed : ∀ k ∈ s.completed, k ∈ s.processed
  out : ∀ x, s.pc = .out x → s.chan.expectingIntr = true
  quiet : s.pc.sent = false → Quiet s
  sent : s.pc.sent = true → Raised s ∨ Served s

theorem sound_init (channelNo : Fin 2) : Sound channelNo (initState channelNo 0) where
  irq := irqNo_init channelNo 0
  lock := rfl
  completed _ h := by cases h
  out _ h := by cases h
  quiet _ := ⟨rfl, rfl, rfl⟩
  sent h := by cases h

/-- What a step of a sound state may end in. -/
def SoundOr (channelNo : Fin 2) (r : Except Halt State) : Prop :=
  (∃ s, r = .ok s ∧ Sound channelNo s) ∨ ∃ x, r = .error x ∧ ¬SemaAssert x

/-- The end of a chunk with no command in flight. -/
theorem sound_endChunk (hirq : s.chan.irqNo = 0x2e + channelNo) (hlock : s.chan.lock = x.op.lock)
    (hc : ∀ k ∈ s.completed, k ∈ s.processed) (hq : Quiet s) :
    SoundOr channelNo (endChunk s x) := by
  obtain ⟨pc, hpc, he⟩ := endChunk_eq hlock
  have hout : ∀ y, pc ≠ .out y := by
    rcases hpc with rfl | ⟨d, rfl⟩ <;> nofun
  have hsent : pc.sent = false := by
    rcases hpc with rfl | ⟨d, rfl⟩ <;> rfl
  exact Or.inl ⟨_, he, hirq, rfl, hc, fun y hy => absurd hy (hout y),
    fun _ => ⟨hq.sem, hq.pending, hq.ready⟩, fun h => by simp [hsent] at h⟩

theorem sound_out (hs : Sound channelNo s) (hpc : s.pc = .out x) :
    Sound channelNo { s with issued := s.issued + 1
                             pending := s.pending ++ [s.issued], pc := afterOut x } := by
  have hq := hs.quiet (by rw [hpc]; rfl)
  have hlock := hs.lock
  rw [hpc] at hlock
  have hpc' : (afterOut x).lock = x.op.lock ∧ (afterOut x).sent = true ∧
      ∀ y, afterOut x ≠ .out y := by
    obtain ⟨op, n⟩ := x
    cases op <;> exact ⟨rfl, rfl, nofun⟩
  refine ⟨hs.irq, hlock.trans hpc'.1.symm, hs.completed, fun y hy => absurd hy (hpc'.2.2 y),
    fun h => ?_, fun _ => Or.inl ⟨?_, ?_, hs.out x hpc, Or.inl ⟨?_, hq.ready⟩⟩⟩
  · simp [hpc'.2.1] at h
  · simp only [hq.sem]
  · simp only [hq.pending, List.nil_append, Nat.add_sub_cancel]
  · simp only [hq.sem]

/-- A pass of `sema_down`: it blocks until the interrupt of its command has been processed. -/
theorem sound_down (hs : Sound channelNo s) (hpc : s.pc = .down x) (hr : s.st () = .ready) :
    SoundOr channelNo (down s x) := by
  have hlock := hs.lock
  rw [hpc] at hlock
  rcases hs.sent (by rw [hpc]; rfl) with hra | hse
  · have hw : s.chan.diskDone.waiters = [] := by
      rcases hra.waiters with h | h
      · exact h.1
      · exact absurd (hr.symm.trans h.2) (by decide)
    unfold down
    rw [semaDownPass_zero hra.value (by rw [hw]; simp)]
    refine Or.inl ⟨_, rfl, hs.irq, hs.lock, hs.completed, hs.out, fun h => ?_, fun _ => Or.inl
      ⟨hra.value, hra.pending, hra.expecting, Or.inr ⟨?_, ?_⟩⟩⟩
    · simp only [hpc] at h
      cases h
    · simp only [hw, List.nil_append]
    · simp
  · unfold down
    rw [hse.sem, semaDownPass_one rfl]
    simp only [ok_bind, if_true, afterDown]
    have hc : ∀ k ∈ s.completed ++ [s.issued - 1], k ∈ s.processed := by
      intro k hk
      rcases List.mem_append.mp hk with hk | hk
      · exact hs.completed k hk
      · rw [List.mem_singleton.mp hk]
        exact hse.processed
    split
    · exact sound_endChunk hs.irq hlock hc ⟨rfl, hse.pending, hr⟩
    · next hop =>
      refine Or.inl ⟨_, rfl, hs.irq, hlock, hc, nofun, fun _ => ⟨rfl, hse.pending, hr⟩, fun h => ?_⟩
      obtain ⟨op, n⟩ := x
      cases op with
      | write lba secCnt => exact (hop lba secCnt rfl).elim
      | identify => cases h
      | read lba secCnt => cases h

theorem sound_busy (hs : Sound channelNo s) (hpc : s.pc = .busy x) (ready : Bool) :
    SoundOr channelNo (busy s x ready) := by
  have hlock := hs.lock
  rw [hpc] at hlock
  obtain ⟨op, n⟩ := x
  cases ready with
  | false =>
    cases op <;> exact Or.inr ⟨_, rfl, by simp [SemaAssert]⟩
  | true =>
    cases op with
    | write lba secCnt =>
      have hf := hs.sent (by rw [hpc]; rfl)
      exact Or.inl ⟨_, rfl, hs.irq, hlock, hs.completed, nofun, nofun, fun _ =>
        hf.imp (fun h => ⟨h.1, h.2, h.3, h.4⟩) (fun h => ⟨h.1, h.2, h.3, h.4⟩)⟩
    | identify =>
      exact sound_endChunk (x := ⟨.identify, n⟩) hs.irq hlock hs.completed
        (hs.quiet (by rw [hpc]; rfl))
    | read lba secCnt =>
      exact sound_endChunk (x := ⟨.read lba secCnt, n⟩) hs.irq hlock hs.completed
        (hs.quiet (by rw [hpc]; rfl))

/-- The interrupt that is delivered is the one of the command in flight. -/
theorem sound_intr (hs : Sound channelNo s) {k : ℕ} (hk : k ∈ s.pending) :
    SoundOr channelNo (intrHdHandler s (0x2e + channelNo) k) := by
  have hirq : (0x2e + (channelNo : ℕ) = 0x2e ∨ 0x2e + (channelNo : ℕ) = 0x2f) := by omega
  have hsent : s.pc.sent = true := by
    by_contra h
    rw [Bool.not_eq_true] at h
    rw [(hs.quiet h).pending] at hk
    cases hk
  have hra : Raised s := by
    rcases hs.sent hsent with h | h
    · exact h
    · rw [h.pending] at hk
      cases hk
  have hk' : k = s.issued - 1 := by
    rw [hra.pending] at hk
    exact List.mem_singleton.mp hk
  have hup : ∃ st, semaUp s.st s.chan.diskDone = .ok (st, ⟨1, []⟩) ∧ st () = .ready := by
    rcases hra.waiters with ⟨hw, hr⟩ | ⟨hw, hb⟩
    · exact ⟨_, semaUp_nil hra.value hw, hr⟩
    · exact ⟨_, semaUp_cons hra.value hw hb, by simp⟩
  obtain ⟨st, hup, hst⟩ := hup
  unfold intrHdHandler
  rw [assert_bind_of hirq, assert_bind_of hs.irq, if_pos hra.expecting]
  simp only [hup, ok_bind]
  refine Or.inl ⟨_, rfl, hs.irq, hs.lock, ?_, fun x hx => ?_, fun h => ?_, fun _ => Or.inr
    ⟨rfl, ?_, ?_, hst⟩⟩
  · intro j hj
    exact List.mem_append_left _ (hs.completed j hj)
  · simp only at hx
    rw [hx] at hsent
    cases hsent
  · rw [hsent] at h
    cases h
  · simp [hra.pending, hk']
  · simp [hk']

theorem sound_step (hs : Sound channelNo s) {e : Event} {r : Except Halt State}
    (h : (machine channelNo).step s e = some r) : SoundOr channelNo r := by
  have hlock := hs.lock
  simp only [machine] at h
  split at h
  · next op hpc =>
    rw [hpc] at hlock
    have hq := hs.quiet (by rw [hpc]; rfl)
    rw [← Option.some.inj h]
    rcases start_cases hlock op with hst | ⟨func, m, hst, hfunc⟩
    · exact Or.inl ⟨_, hst, hs.irq, rfl, hs.completed, nofun,
        fun _ => ⟨hq.sem, hq.pending, hq.ready⟩, nofun⟩
    · refine Or.inr ⟨_, hst, ?_⟩
      rcases hfunc with rfl | rfl <;> simp [SemaAssert]
  · next x hpc =>
    rw [hpc] at hlock
    have hq := hs.quiet (by rw [hpc]; rfl)
    rw [← Option.some.inj h]
    rcases selectSector_cases x with hx | hx
    · rw [hx, ok_bind]
      exact Or.inl ⟨_, rfl, hs.irq, hlock, hs.completed, fun _ _ => rfl,
        fun _ => ⟨hq.sem, hq.pending, hq.ready⟩, nofun⟩
    · rw [hx]
      exact Or.inr ⟨_, rfl, by simp [SemaAssert]⟩
  · next x hpc =>
    rw [← Option.some.inj h]
    exact Or.inl ⟨_, rfl, sound_out hs hpc⟩
  · next x hpc =>
    split at h
    · next hr =>
      rw [← Option.some.inj h]
      exact sound_down hs hpc hr
    · cases h
  · next ready x hpc =>
    rw [← Option.some.inj h]
    exact sound_busy hs hpc ready
  · split at h
    · next hk =>
      rw [← Option.some.inj h]
      exact sound_intr hs hk
    · cases h
  · cases h

/-- With the initial value 0, every interleaving keeps the handshake. -/
theorem handshake_of_value_zero (channelNo : Fin 2) {es : List Event} {r : Except Halt State}
    (h : (machine channelNo).run (initState channelNo 0) es = some r) : Handshake r := by
  rcases Machine.run_cases (Q := fun x => ¬SemaAssert x) (fun s e r hs hr => sound_step hs hr)
    (sound_init channelNo) h with ⟨s, rfl, hs⟩ | ⟨x, rfl, hx⟩
  · exact hs.completed
  · exact hx

end HcOs.Disk
