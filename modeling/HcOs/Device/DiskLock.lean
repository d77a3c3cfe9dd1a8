import Mathlib.Data.List.Induction
import HcOs.Device.Transfer
import HcOs.Thread.Locked

/-!
# Requests of many threads to the disks of a channel (`device/ide.c`)

The two disks of a channel share its registers and its data port.  `ide_read` and `ide_write` use
them between `lock_acquire` and `lock_release` of the lock of the channel, and a thread can be
preempted between any two accesses to the ports.  As in `HcOs.Device.Transfer`, the handshake of a
command with its interrupt is left out, and so is the assertion of `sema_up` that fails there.

* `disk_threads`: each read gets what the last writes before it have stored, on the disk it asks,
  and a disk holds what the last writes to it have stored.
-/

namespace HcOs.DiskLock

open HcOs.Lib HcOs.Ata
open HcOs.Disk (maxLba)
open HcOs.Locked (Event)

/-- A request, with the buffer as it is at the call. -/
inductive Request where
  | read (hd : Hd) (lba : ℕ) (buf : Bytes) (secCnt : ℕ)
  | write (hd : Hd) (lba : ℕ) (buf : Bytes) (secCnt : ℕ)

/-- The sectors are on the disk. -/
def Request.OnDisk : Request → Prop
  | read _ lba _ secCnt | write _ lba _ secCnt => 1 ≤ secCnt ∧ lba + secCnt ≤ maxLba + 1

instance : ∀ req : Request, Decidable req.OnDisk
  | .read _ lba _ secCnt | .write _ lba _ secCnt =>
    inferInstanceAs (Decidable (1 ≤ secCnt ∧ lba + secCnt ≤ maxLba + 1))

/-- The channel, and the buffers of the requests that are done, from the first one on. -/
structure Io where
  chan : Channel
  bufs : List Bytes

/-- A request without interruption. -/
def serve : Request → Io → Except Halt Io
  | .read hd lba buf secCnt, io => do
    let (chan, buf) ← ideRead io.chan hd lba buf secCnt
    .ok ⟨chan, io.bufs ++ [buf]⟩
  | .write hd lba buf secCnt, io => do
    let chan ← ideWrite io.chan hd lba buf secCnt
    .ok ⟨chan, io.bufs ++ [buf]⟩

/-- The requests are on the disks, and nothing else uses the channel. -/
def Promise {T : Type} (_ : Locked.State T Io Request) : Event T Request → Prop
  | .call _ req => req.OnDisk
  | .step _ => True
  | .other _ => False

instance {T : Type} (s : Locked.State T Io Request) : ∀ e, Decidable (Promise s e)
  | .call _ req => inferInstanceAs (Decidable req.OnDisk)
  | .step _ => inferInstanceAs (Decidable True)
  | .other _ => inferInstanceAs (Decidable False)

/-! ## What the disks are for -/

/-- The byte that a request stores at a place of a disk. -/
def Request.stored (slave : Bool) (pos : ℕ) : Request → Option (BitVec 8)
  | read _ _ _ _ => none
  | write hd lba buf secCnt =>
    if hd.slave = slave ∧ lba * 512 ≤ pos ∧ pos < lba * 512 + secCnt * 512 then
      some (buf (pos - lba * 512))
    else none

/-- The byte that the last of the requests has stored there. -/
def lastStored (disk₀ : Bool → Bytes) (reqs : List Request) (slave : Bool) (pos : ℕ) : BitVec 8 :=
  (reqs.reverse.findSome? (Request.stored slave pos)).getD (disk₀ slave pos)

/-- The requests have been served in this order. -/
structure Served (disk₀ : Bool → Bytes) (reqs : List Request) (io : Io) : Prop where
  disk : ∀ slave pos, io.chan.disk slave pos = lastStored disk₀ reqs slave pos
  bufs : io.bufs.length = reqs.length
  reads : ∀ i hd lba buf secCnt, reqs[i]? = some (.read hd lba buf secCnt) →
    ∃ buf', io.bufs[i]? = some buf' ∧
      (∀ j, j < secCnt * 512 → buf' j = lastStored disk₀ (reqs.take i) hd.slave (lba * 512 + j)) ∧
      ∀ j, secCnt * 512 ≤ j → buf' j = buf j

/-! ## One request -/

variable {disk₀ : Bool → Bytes} {reqs : List Request} {io : Io} {req : Request} {slave : Bool}

theorem lastStored_append (pos : ℕ) :
    lastStored disk₀ (reqs ++ [req]) slave pos =
      (req.stored slave pos).getD (lastStored disk₀ reqs slave pos) := by
  unfold lastStored
  rw [List.reverse_append, List.reverse_singleton, List.singleton_append, List.findSome?_cons]
  cases req.stored slave pos <;> rfl

/-- A request more, whose buffer ends up as `buf'`. -/
theorem Served.append (h : Served disk₀ reqs io) {chan : Channel} {buf' : Bytes}
    (hdisk : ∀ slave pos, chan.disk slave pos =
      (req.stored slave pos).getD (io.chan.disk slave pos))
    (hread : ∀ hd lba buf secCnt, req = .read hd lba buf secCnt →
      buf' = buf.copy 0 (io.chan.disk hd.slave) (lba * 512) (secCnt * 512)) :
    Served disk₀ (reqs ++ [req]) ⟨chan, io.bufs ++ [buf']⟩ where
  disk slave pos := by
    rw [lastStored_append, ← h.disk]
    exact hdisk slave pos
  bufs := by
    simp only [List.length_append, List.length_singleton, h.bufs]
  reads i hd lba buf secCnt hi := by
    by_cases hlt : i < reqs.length
    · rw [List.getElem?_append_left hlt] at hi
      rw [List.getElem?_append_left (by rw [h.bufs]; exact hlt),
        List.take_append_of_le_length (Nat.le_of_lt hlt)]
      exact h.reads i hd lba buf secCnt hi
    · have hlast : i = reqs.length := by
        have hlen := (List.getElem?_eq_some_iff.mp hi).1
        rw [List.length_append, List.length_singleton] at hlen
        omega
      subst hlast
      rw [List.getElem?_concat_length, Option.some.injEq] at hi
      rw [List.take_left, ← h.bufs, List.getElem?_concat_length]
      refine ⟨buf', rfl, fun j hj => ?_, fun j hj => ?_⟩
      · rw [hread hd lba buf secCnt hi, Bytes.copy_of_mem (by omega) (by omega), Nat.sub_zero,
          h.disk]
      · rw [hread hd lba buf secCnt hi, Bytes.copy_of_not_mem (by omega)]

theorem serve_spec (h : Served disk₀ reqs io) (hready : ∀ k, io.chan.delay k < 30 * 1000 - 1)
    (hreq : req.OnDisk) :
    ∃ io', serve req io = .ok io' ∧ Served disk₀ (reqs ++ [req]) io' ∧
      io'.chan.delay = io.chan.delay := by
  cases req with
  | read hd lba buf secCnt =>
    obtain ⟨c', hc', hdisk, hdelay⟩ := @ideRead_spec io.chan hd buf lba secCnt hready hreq.2 hreq.1
    refine ⟨⟨c', _⟩, by rw [serve, hc']; rfl, h.append (fun slave pos => ?_) ?_, hdelay⟩
    · rw [hdisk]
      rfl
    · intro hd' lba' buf' secCnt' heq
      cases heq
      rfl
  | write hd lba buf secCnt =>
    obtain ⟨c', hc', hdisk, hdelay⟩ := @ideWrite_spec io.chan hd buf lba secCnt hready hreq.2 hreq.1
    refine ⟨⟨c', _⟩, by rw [serve, hc']; rfl, h.append (fun slave pos => ?_) ?_, hdelay⟩
    · rw [hdisk, Ata.stored]
      by_cases hs : slave = hd.slave
      · rw [hs, Function.update_self]
        by_cases hin : lba * 512 ≤ pos ∧ pos < lba * 512 + secCnt * 512
        · rw [Request.stored, if_pos ⟨rfl, hin⟩, Bytes.copy_of_mem hin.1 hin.2, Nat.zero_add]
          rfl
        · rw [Request.stored, if_neg fun hc => hin hc.2, Bytes.copy_of_not_mem (by omega)]
          rfl
      · rw [Function.update_of_ne hs, Request.stored, if_neg fun hc => hs hc.1.symm]
        rfl
    · intro hd' lba' buf' secCnt' heq
      cases heq

/-! ## Requests one after the other -/

variable {T : Type} {code : Request → Code Io Halt} {c₀ : Channel}

theorem all_served (hcode : ∀ req io, (code req).run io = serve req io)
    (hready : ∀ k, c₀.delay k < 30 * 1000 - 1) (hreqs : ∀ req ∈ reqs, req.OnDisk) :
    ∃ io, Locked.all code reqs ⟨c₀, []⟩ = .ok io ∧ Served c₀.disk reqs io ∧
      io.chan.delay = c₀.delay := by
  induction reqs using List.reverseRecOn with
  | nil =>
    refine ⟨⟨c₀, []⟩, rfl, ⟨fun _ _ => rfl, rfl, fun i hd lba buf secCnt hi => ?_⟩, rfl⟩
    cases hi
  | append_singleton reqs req ih =>
    obtain ⟨io, hall, hserved, hdelay⟩ := ih fun r hr => hreqs r (List.mem_append_left _ hr)
    obtain ⟨io', hio', hserved', hdelay'⟩ := serve_spec hserved (by rw [hdelay]; exact hready)
      (hreqs req (List.mem_append_right _ List.mem_cons_self))
    refine ⟨io', ?_, hserved', hdelay'.trans hdelay⟩
    rw [Locked.all_append, hall]
    exact (hcode req io).trans hio'

/-! ## Main result -/

/-- **The disks of a channel.**  Any number of threads call `ide_read` and `ide_write` for sectors
of the two disks, the two functions being cut into pieces anyhow, and are preempted between any two
of the pieces.  If the controller is always ready before `busy_wait` gives up, no assertion of the
two functions fails and no thread finds a disk that is not ready, and what is left of the request that
is going on leaves the channel as if the requests had been served one after the other, in the order in
which their threads got the lock: each read gets the bytes that were stored last before it, and no
request changes the sectors or the disk of another one. -/
theorem disk_threads [DecidableEq T] (hcode : ∀ req io, (code req).run io = serve req io)
    (hready : ∀ k, c₀.delay k < 30 * 1000 - 1) {es : List (Event T Request)}
    {r : Except Halt (Locked.State T Io Request)}
    (h : ((Locked.machine code).guard Promise).run (Locked.init ⟨c₀, []⟩) es = some r) :
    ∃ s io, r = .ok s ∧ s.rest.run s.data = .ok io ∧ (s.writer = none → io = s.data) ∧
      Served c₀.disk s.log io := by
  have hrun := Machine.run_cases
    (I := fun s => Locked.Inv code ⟨c₀, []⟩ s ∧ Locked.Meets Request.OnDisk s) (Q := fun _ => False)
    (fun s e r hi hs => ?_) ⟨Locked.inv_init code _, Locked.meets_init _ _⟩ h
  · rcases hrun with ⟨s, rfl, hinv, hmeets⟩ | ⟨x, -, hx⟩
    · obtain ⟨io, hall, hserved, -⟩ := all_served hcode hready hmeets.log
      refine ⟨s, io, rfl, hinv.data.trans hall, fun hw => ?_, hserved⟩
      have hdata := hinv.data_of_none hw
      rw [hall] at hdata
      exact Except.ok.inj hdata
    · exact hx.elim
  · obtain ⟨hpromise, hs⟩ := Machine.guard_step hs
    have hother : ∀ req, e ≠ .other req := by
      rintro req rfl
      exact hpromise
    rcases Locked.step_alone hi.1 hs hother with ⟨s', rfl, hinv⟩ | ⟨x, rfl, hx⟩
    · refine Or.inl ⟨s', rfl, hinv, hi.2.step hs hother fun t req he => ?_⟩
      subst he
      exact hpromise
    · obtain ⟨io, hall, -⟩ := all_served hcode hready hi.2.log
      rw [hall] at hx
      cases hx

/-- A thread writes a sector of the slave, and the other one reads it, waiting for the lock. -/
def sampleEvents : List (Event Bool Request) :=
  .call false (.write ⟨"sdb", 1⟩ 5 (fun _ => 0x41) 1) :: List.replicate 5 (.step false) ++
    .call true (.read ⟨"sdb", 1⟩ 5 (fun _ => 0) 1) :: List.replicate 2 (.step true) ++
    List.replicate 8 (.step false) ++ List.replicate 6 (.step true)

/-- The two functions in one piece. -/
def sampleCode (req : Request) : Code Io Halt := .piece (serve req) fun _ => .done

theorem run_sampleCode (req : Request) (io : Io) : (sampleCode req).run io = serve req io := by
  show (serve req io).bind Except.ok = serve req io
  cases serve req io <;> rfl

theorem disk_threads_two : ∃ s : Locked.State Bool Io Request,
    ((Locked.machine sampleCode).guard Promise).run (Locked.init ⟨emptyChannel, []⟩) sampleEvents =
        some (.ok s) ∧
      s.log.length = 2 ∧ Served emptyChannel.disk s.log s.data := by
  have hready : ∀ k, emptyChannel.delay k < 30 * 1000 - 1 := fun k => by
    simp only [emptyChannel]
    omega
  have htest : ((((Locked.machine sampleCode).guard Promise).run
      (Locked.init ⟨emptyChannel, []⟩) sampleEvents).any fun r => r.toOption.any fun s =>
        decide (s.log.length = 2 ∧ s.writer = none)) = true := by
    decide +kernel
  obtain ⟨s, hrun, hs⟩ := Machine.run_of_test _ htest
  obtain ⟨hlen, hw⟩ := of_decide_eq_true hs
  obtain ⟨s', io, hs', -, hdata, hserved⟩ := disk_threads run_sampleCode hready hrun
  cases hs'
  exact ⟨s, hrun, hlen, hdata hw ▸ hserved⟩

end HcOs.DiskLock
