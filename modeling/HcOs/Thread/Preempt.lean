import HcOs.Kernel.Entry
import HcOs.Thread.Switch

/-!
# Preemption

The two levels of a context switch together: a program is interrupted, the handler calls `schedule`,
which calls `switch_to`, other threads run, are interrupted and switch among themselves, and at last
one of them switches back.

* `switch_own`: for the handler, all this is one step of the kernel that keeps the frame.
* `preempted_resumes`: the program goes on with all its registers, wherever its handlers, and the
  handlers of the interrupts that arrive in them, are switched away.
-/

namespace HcOs.Preempt

open HcOs.Lib HcOs.Switch HcOs.Entry
open Relation (ReflTransGen)

/-- The registers that `switch_to` knows. -/
def toSwitch (c : X86.Cpu) : Switch.Cpu where
  reg
    | .eax => c.gpr .eax
    | .ebx => c.gpr .ebx
    | .esi => c.gpr .esi
    | .edi => c.gpr .edi
    | .ebp => c.gpr .ebp
    | .esp => c.gpr .esp
  eip := c.eip
  mem := c.mem

variable {kernelThread q next ret ret' : BitVec 32} {s s' s₀ s₁ s₂ : Sys} {m m' m'' : Bytes}

theorem Untouched.trans (h : Untouched q m m') (h' : Untouched q m' m'') : Untouched q m m'' :=
  ⟨fun i hlo hhi => (h'.1 i hlo hhi).trans (h.1 i hlo hhi),
    fun i hlo hhi => (h'.2 i hlo hhi).trans (h.2 i hlo hhi)⟩

/-- No step touches the stack of a thread that is not running. -/
theorem step_untouched (h : Step kernelThread s s') (hinv : Inv s) (hq : q ∈ s.threads)
    (hne : q ≠ s.cur) : Untouched q s.cpu.mem s'.cpu.mem := by
  have hpage := hinv.pages q hq
  cases h with
  | @create p hc function funcArg =>
    have hqp : p ≠ q := fun heq => hc.new (heq ▸ hq)
    have hframe := (threadCreate_spec hc.page kernelThread function funcArg s.cpu.mem).2
    exact untouched_of_page hc.page hpage hqp hframe
  | own cpu h => exact h q hq hne
  | switch hs ret =>
    have hframe := (switched_spec kernelThread hinv hs ret).2.1
    exact untouched_of_page (hinv.pages _ hinv.running) hpage hne.symm hframe

/-- The stack of a thread survives until the thread runs again. -/
theorem away_untouched (h : Away kernelThread q s s') (hinv : Inv s) (hq : q ∈ s.threads) :
    Inv s' ∧ q ∈ s'.threads ∧ s'.cur ≠ q ∧ Untouched q s.cpu.mem s'.cpu.mem := by
  obtain ⟨hne, h⟩ := h
  induction h with
  | refl => exact ⟨hinv, hq, hne, fun _ _ _ => rfl, fun _ _ _ => rfl⟩
  | tail _ hstep ih =>
    obtain ⟨hinv, hq, hne, hu⟩ := ih
    refine ⟨hstep.1.inv hinv, hstep.1.threads hq, hstep.2, ?_⟩
    exact Untouched.trans hu (step_untouched hstep.1 hinv hq hne.symm)

/-- A call of `switch_to` leaves the stack above the stack pointer alone. -/
theorem switched_stack (hinv : Inv s) (h : CanSwitch s next) (ret : BitVec 32) {i : ℕ}
    (hi : (s.cpu.reg .esp).toNat ≤ i) : (switched s next ret).cpu.mem i = s.cpu.mem i := by
  have hpage := hinv.pages _ hinv.running
  have hroom := h.room
  unfold pcbSize at hroom
  have hcur : runningThread s.cpu = s.cur := runningThread_eq hpage (by omega) h.own
  obtain ⟨a, ha⟩ : ∃ a, (s.cpu.reg .esp).toNat = a + 28 := ⟨(s.cpu.reg .esp).toNat - 28, by omega⟩
  obtain ⟨m, k, -, -, hframe, hmem, -⟩ :=
    @callSwitchTo_spec s.cpu a s.cur next ret ha (by omega)
  have hmem' : (switched s next ret).cpu.mem = put m s.cur k := by
    unfold switched
    dsimp only
    rw [hcur]
    exact hmem
  rw [hmem', put_of_apart (by omega)]
  exact hframe i (by omega)

/-- From a call of `switch_to` to its return: the thread keeps its stack above the stack pointer,
and the stack pointer. -/
theorem switch_stack (hinv : Inv s₁) (hcall : CanSwitch s₁ next)
    (haway : Away kernelThread s₁.cur (switched s₁ next ret) s₂) (hback : CanSwitch s₂ s₁.cur)
    {i : ℕ} (hlo : (s₁.cpu.reg .esp).toNat ≤ i) (hhi : i < s₁.cur.toNat + 4096) :
    (switched s₂ s₁.cur ret').cpu.mem i = s₁.cpu.mem i := by
  have hroom := hcall.room
  have hstep : Step kernelThread s₁ (switched s₁ next ret) := Step.switch hcall ret
  obtain ⟨hinv₂, hq₂, hne, hu⟩ := away_untouched haway (hstep.inv hinv) hinv.running
  have hstep' : Step kernelThread s₂ (switched s₂ s₁.cur ret') := Step.switch hback ret'
  have hu' : Untouched s₁.cur s₂.cpu.mem (switched s₂ s₁.cur ret').cpu.mem :=
    step_untouched hstep' hinv₂ hq₂ hne.symm
  rw [hu'.2 i (by omega) hhi, hu.2 i (by omega) hhi]
  exact switched_stack hinv hcall ret hlo

/-! ## The handler that is switched away -/

variable {c c₁ c₂ : X86.Cpu} {lo : ℕ}

/-- The processor after a `switch_to` that returned; the segment registers are those of every
kernel stack. -/
structure Back (c₁ c₂ : X86.Cpu) (s : Sys) : Prop where
  cpu : toSwitch c₂ = s.cpu
  cs : c₂.seg .cs = c₁.seg .cs
  ss : c₂.seg .ss = c₁.seg .ss

theorem switch_own (hinv : Inv s₁) (hcpu : toSwitch c₁ = s₁.cpu) (hcall : CanSwitch s₁ next)
    (haway : Away kernelThread s₁.cur (switched s₁ next ret) s₂) (hback : CanSwitch s₂ s₁.cur)
    (hc₂ : Back c₁ c₂ (switched s₂ s₁.cur ret')) (hlo : (c₁.gpr .esp).toNat ≤ lo) :
    Own lo (s₁.cur.toNat + 4096) c₁ c₂ := by
  refine ⟨fun i hi hhi => ?_, hc₂.cs, hc₂.ss⟩
  have hesp : s₁.cpu.reg .esp = c₁.gpr .esp := by
    rw [← hcpu]
    rfl
  have hmem : (switched s₂ s₁.cur ret').cpu.mem i = s₁.cpu.mem i :=
    switch_stack hinv hcall haway hback (by rw [hesp]; exact Nat.le_trans hlo hi) hhi
  rw [← hc₂.cpu, ← hcpu] at hmem
  exact hmem

/-- The thread `q` calls `switch_to` in `c₁`, and `c₂` is where this call returns, in the system that
was booted as `s₀`. -/
def SwitchedAway (kernelThread q : BitVec 32) (s₀ : Sys) (c₁ c₂ : X86.Cpu) : Prop :=
  ∃ s₁ s₂ next ret ret', ReflTransGen (Step kernelThread) s₀ s₁ ∧ s₁.cur = q ∧
    toSwitch c₁ = s₁.cpu ∧ CanSwitch s₁ next ∧ Away kernelThread q (switched s₁ next ret) s₂ ∧
    CanSwitch s₂ q ∧ Back c₁ c₂ (switched s₂ q ret')

/-- A whole interrupt of `c` on the stack of the thread `q`, during which the thread may be switched
away at any point of a handler. -/
def PreemptibleTrap (k : Kernel) (kernelThread q : BitVec 32) (s₀ : Sys) :
    ℕ → Source → X86.Cpu → X86.Cpu → Prop
  | 0 => fun _ _ _ => False
  | n + 1 => fun src c c' => Arrives k (q.toNat + 4096) c ∧ ∃ s,
      ReflTransGen (fun s s' =>
        Own (((k.enter src c).gpr .esp).toNat + src.args) (q.toNat + 4096) s s' ∨
          ((s.gpr .esp).toNat ≤ ((k.enter src c).gpr .esp).toNat + src.args ∧
            SwitchedAway kernelThread q s₀ s s') ∨
          ∃ src', src'.Aligned ∧
            (s.gpr .esp).toNat ≤ ((k.enter src c).gpr .esp).toNat + src.args ∧
            PreemptibleTrap k kernelThread q s₀ n src' s s') (k.enter src c) s ∧
      Returned (k.enter src c) s ∧ c' = k.leave src s

variable {k : Kernel} {src : Source} {c' : X86.Cpu}

theorem SwitchedAway.own (hboot : Boot s₀) (h : SwitchedAway kernelThread q s₀ c₁ c₂)
    (hlo : (c₁.gpr .esp).toNat ≤ lo) : Own lo (q.toNat + 4096) c₁ c₂ := by
  obtain ⟨s₁, s₂, next, ret, ret', hrun, rfl, hcpu, hcall, haway, hback, hc₂⟩ := h
  exact switch_own (run_invariant hrun hboot.inv) hcpu hcall haway hback hc₂ hlo

theorem PreemptibleTrap.trap (hboot : Boot s₀) {n : ℕ}
    (h : PreemptibleTrap k kernelThread q s₀ n src c c') :
    Trap k (q.toNat + 4096) n src c c' := by
  induction n generalizing src c c' with
  | zero => exact h
  | succ n ih =>
    obtain ⟨harr, s, hrun, hret, hleave⟩ := h
    have hserve : Serves k (q.toNat + 4096) (Trap k (q.toNat + 4096) n) src c s := by
      refine ReflTransGen.mono (fun s s' hstep => ?_) _ _ hrun
      rcases hstep with hown | ⟨hlo, haway⟩ | ⟨src', hal, hlo, htrap⟩
      · exact Or.inl hown
      · exact Or.inl (haway.own hboot hlo)
      · exact Or.inr ⟨src', hal, hlo, ih htrap⟩
    exact ⟨harr, s, hserve, hret, hleave⟩

/-- **Preemption is transparent.**  A program that is interrupted, whose handlers let other threads
run, goes on with all its registers and its stack. -/
theorem preempted_resumes {s₀ : Sys} (hboot : Boot s₀) (k : Kernel) (kernelThread q : BitVec 32)
    (n : ℕ) (src : Source) (c c' : X86.Cpu) (hal : src.Aligned)
    (h : PreemptibleTrap k kernelThread q s₀ n src c c') :
    Resumed (q.toNat + 4096) src c c' :=
  trap_resumes k _ n src c c' hal (h.trap hboot)

/-- The registers that `switch_to` knows are those of `d`. -/
def withSwitch (c : X86.Cpu) (d : Switch.Cpu) : X86.Cpu :=
  { c with
    gpr := fun
      | .eax => d.reg .eax
      | .ebx => d.reg .ebx
      | .esi => d.reg .esi
      | .edi => d.reg .edi
      | .ebp => d.reg .ebp
      | .esp => d.reg .esp
      | r => c.gpr r
    eip := d.eip
    mem := d.mem }

theorem toSwitch_withSwitch (c : X86.Cpu) (d : Switch.Cpu) : toSwitch (withSwitch c d) = d := by
  unfold toSwitch withSwitch
  congr 1
  funext r
  cases r <;> rfl

theorem withSwitch_mem (c : X86.Cpu) (d : Switch.Cpu) : (withSwitch c d).mem = d.mem := rfl

/-! ## An interrupt with a switch -/

/-- A thread calls `switch_to` for another one, which runs and switches back. -/
theorem exists_switchedAway {p : BitVec 32} (hboot : Boot s₀)
    (hrun : ReflTransGen (Step kernelThread) s₀ s) (hcpu : toSwitch c₁ = s.cpu)
    (hcall : CanSwitch s p) (hne : p ≠ s.cur) :
    ∃ c₂, SwitchedAway kernelThread s.cur s₀ c₁ c₂ ∧
      ∀ i, i < s.cur.toNat → i < p.toNat → c₂.mem i = c₁.mem i := by
  have hinv := run_invariant hrun hboot.inv
  have hout := (switched_spec kernelThread hinv hcall 0#32).2.1
  obtain ⟨w, haway, hback, hinvw, hcur, hmem⟩ := exists_away kernelThread 0#32 hinv hcall hne
  have hout' := (switched_spec kernelThread hinvw hback 0#32).2.1
  refine ⟨withSwitch c₁ (switched w s.cur 0#32).cpu, ⟨s, w, p, 0#32, 0#32, hrun, rfl, hcpu, hcall,
    haway, hback, toSwitch_withSwitch _ _, rfl, rfl⟩, fun i hi hi' => ?_⟩
  have hc₁ : c₁.mem i = s.cpu.mem i := by
    rw [← hcpu]
    rfl
  rw [withSwitch_mem, hout' i (Or.inl (by rw [hcur]; exact hi')), hmem, hout i (Or.inl hi), hc₁]

/-- The main thread makes a thread on the page `p`, which runs for a while. -/
theorem exists_switchedNew {e : X86.Cpu} {p : BitVec 32} (hq : IsPage q) (hp : IsPage p) (hne : p ≠ q)
    (kernelThread function funcArg : BitVec 32) (hroom : q.toNat + pcbSize + 28 ≤ (e.gpr .esp).toNat)
    (hesp : (e.gpr .esp).toNat < q.toNat + 4096) :
    ∃ m c₂, SwitchedAway kernelThread q ⟨toSwitch e, q, [q]⟩ { e with mem := m } c₂ ∧
      (∀ i, i < p.toNat ∨ p.toNat + 4096 ≤ i → m i = e.mem i) ∧
      ∀ i, i < q.toNat → i < p.toNat → c₂.mem i = e.mem i := by
  have hboot : Boot ⟨toSwitch e, q, [q]⟩ := ⟨hq, rfl⟩
  have hcreate : CanCreate ⟨toSwitch e, q, [q]⟩ p := ⟨hp, fun h => hne (List.mem_singleton.mp h)⟩
  have hstep : Step kernelThread ⟨toSwitch e, q, [q]⟩
      (created kernelThread ⟨toSwitch e, q, [q]⟩ p function funcArg) :=
    Step.create hcreate function funcArg
  have hmade := (threadCreate_spec hp kernelThread function funcArg e.mem).2
  have hcall : CanSwitch (created kernelThread ⟨toSwitch e, q, [q]⟩ p function funcArg) p :=
    ⟨List.mem_cons_self, hroom, hesp⟩
  obtain ⟨m, hm⟩ : ∃ m, m = threadCreate kernelThread p function funcArg (initKstack p e.mem) :=
    ⟨_, rfl⟩
  have hcpu : toSwitch { e with mem := m } =
      (created kernelThread ⟨toSwitch e, q, [q]⟩ p function funcArg).cpu := by
    rw [hm]
    rfl
  rw [← hm] at hmade
  obtain ⟨c₂, haway, hsame⟩ := exists_switchedAway hboot (ReflTransGen.single hstep) hcpu hcall hne
  exact ⟨m, c₂, haway, hmade, fun i hi hi' => (hsame i hi hi').trans (hmade i (Or.inl hi'))⟩

/-- A handler that calls `switch_to` once, and then returns. -/
theorem PreemptibleTrap.of_switch (hboot : Boot s₀) (n : ℕ) (harr : Arrives k (q.toNat + 4096) c)
    (hbefore : Own (((k.enter src c).gpr .esp).toNat + src.args) (q.toNat + 4096) (k.enter src c) c₁)
    (hesp : (c₁.gpr .esp).toNat ≤ ((k.enter src c).gpr .esp).toNat)
    (haway : SwitchedAway kernelThread q s₀ c₁ c₂) :
    PreemptibleTrap k kernelThread q s₀ (n + 1) src c
      (k.leave src { Entry.ret (k.enter src c) with mem := c₂.mem }) := by
  have hlo := Nat.le_trans hesp (Nat.le_add_right _ src.args)
  have hown := haway.own hboot hlo
  have hlast : Own (((k.enter src c).gpr .esp).toNat + src.args) (q.toNat + 4096) c₂
      { Entry.ret (k.enter src c) with mem := c₂.mem } :=
    ⟨fun _ _ _ => rfl, (hown.cs.trans hbefore.cs).symm, (hown.ss.trans hbefore.ss).symm⟩
  refine ⟨harr, { Entry.ret (k.enter src c) with mem := c₂.mem }, ?_,
    ⟨(returned_ret _).esp, (returned_ret _).eip⟩, rfl⟩
  refine ReflTransGen.head (Or.inl hbefore) (ReflTransGen.head (Or.inr (Or.inl ⟨hlo, haway⟩)) ?_)
  exact ReflTransGen.single (Or.inl hlast)

/-- The clock interrupt of a program on another level begins at the top of its page. -/
theorem enter_timer {top : ℕ} (harr : Arrives k top c) (hcpl : c.cpl ≠ 0) :
    ((k.enter (.vector 0x20 none) c).gpr .esp).toNat + 80 = top ∧
      ∀ i, i + 80 < top → (k.enter (.vector 0x20 none) c).mem i = c.mem i := by
  obtain ⟨dummy, a, hent⟩ := enter_vector k 0x20 none (Nat.le_trans (by omega) harr.room)
  have htop := hent.top
  have hesp := hent.esp
  have hbase : ((k.base c).gpr .esp).toNat = top := by
    unfold Kernel.base
    rw [if_neg hcpl]
    show (Function.update c.gpr .esp k.esp0 .esp).toNat = _
    rw [Function.update_self]
    exact (harr.top.resolve_left fun h => hcpl h.1).2
  have hlen : (vectorWords k 0x20 none dummy c).length = 20 := by
    unfold vectorWords backWords outer
    rw [if_neg hcpl]
    rfl
  rw [hbase, hlen] at htop
  exact ⟨by omega, fun i hi => hent.frame i (Or.inl (by omega))⟩

/-- The timer interrupts a program on the level 3, a new thread is made, and runs before the program
goes on. -/
theorem exists_trap (harr : Arrives k 0xc0101000 c) (hcpl : c.cpl ≠ 0) :
    ∃ s₀ c', Boot s₀ ∧ PreemptibleTrap k 0xc0001200#32 0xc0100000#32 s₀ 1 (.vector 0x20 none) c c' ∧
      ∀ i, i < 0xc0100000 → c'.mem i = c.mem i := by
  obtain ⟨hesp, hframe⟩ := enter_timer harr hcpl
  have hq : IsPage 0xc0100000#32 := ⟨by decide⟩
  have hroom : 0xc0100000 + pcbSize + 28 ≤ ((k.enter (.vector 0x20 none) c).gpr .esp).toNat := by
    unfold pcbSize
    omega
  obtain ⟨m, c₂, haway, hmade, hsame⟩ := exists_switchedNew hq (p := 0xc0200000#32) ⟨by decide⟩
    (by decide) 0xc0001200#32 0xc0001000#32 7#32 hroom (show _ < 0xc0100000 + 4096 by omega)
  have hboot : Boot ⟨toSwitch (k.enter (.vector 0x20 none) c), 0xc0100000#32, [0xc0100000#32]⟩ :=
    ⟨hq, rfl⟩
  have hbefore : Own (((k.enter (.vector 0x20 none) c).gpr .esp).toNat + 4) 0xc0101000
      (k.enter (.vector 0x20 none) c) { k.enter (.vector 0x20 none) c with mem := m } :=
    ⟨fun i _ hhi => hmade i (Or.inl (Nat.lt_trans hhi (by decide))), rfl, rfl⟩
  refine ⟨_, _, hboot, PreemptibleTrap.of_switch hboot 0 harr hbefore (Nat.le_refl _) haway,
    fun i hi => ?_⟩
  have hleave : (k.leave (.vector 0x20 none)
      { Entry.ret (k.enter (.vector 0x20 none) c) with mem := c₂.mem }).mem = c₂.mem :=
    intrExit_mem k _
  rw [hleave, hsame i hi (Nat.lt_trans hi (by decide))]
  exact hframe i (by omega)

/-- The timer interrupts a program, and another thread runs before it goes on. -/
theorem preempted_resumes_switch :
    ∃ s₀ c', PreemptibleTrap sampleKernel 0xc0001200#32 0xc0100000#32 s₀ 1 (.vector 0x20 none)
        sampleProgram c' ∧ Resumed 0xc0101000 (.vector 0x20 none) sampleProgram c' := by
  have hal : (Source.vector 0x20 none).Aligned := ⟨fun _ => by decide, fun _ => rfl⟩
  obtain ⟨s₀, c', hboot, htrap, -⟩ := exists_trap sampleProgram_arrives (by decide)
  exact ⟨s₀, c', htrap, preempted_resumes hboot _ _ _ _ _ _ _ hal htrap⟩

end HcOs.Preempt
