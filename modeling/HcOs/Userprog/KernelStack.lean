import HcOs.Userprog.Process

/-!
# The stack for interrupts (`userprog/process.c`, `userprog/tss.c`)

`process_activate` puts the end of the page of a thread into the TSS, but not for a thread whose
`pgdir` is `NULL`.  A process that is given the CPU while `inode_open` or `inode_close` has cleared
its `pgdir` keeps the stack of another process, with which it then returns to its program: the next
interrupt overwrites the stack of that process.

* `kernel_stack_iff`: in a run the TSS always has the stack of the process that runs, if and only if
  no process is given the CPU in such a moment while the TSS has another stack.
-/

namespace HcOs.KernelStack

open HcOs.Lib HcOs.Process
open HcOs.Page (pgSize)

/-- The address spaces, and `esp0` of the TSS. -/
structure State (T S : Type) where
  proc : Process.State T S
  esp0 : ℕ

variable {T S : Type}

/-- `update_tss_esp0`; `page` gives the PCB of a thread. -/
def updateTssEsp0 (page : T → ℕ) (pthread : T) : ℕ := page pthread + pgSize

/-- `esp0` after `process_activate` of a thread. -/
def activated (page : T → ℕ) (proc : Process.State T S) (pThread : T) (esp0 : ℕ) : ℕ :=
  if (proc.pgdir pThread).isSome then updateTssEsp0 page pThread else esp0

/-- Does the step call `schedule`? -/
def activates (s : State T S) [DecidableEq T] : Event T S → Bool
  | .sched e => reschedules s.proc.sched e
  | .execute _ _ | .clearPgdir _ | .restorePgdir | .pageTableAdd => false

variable [DecidableEq T] [DecidableEq S]

/-- `esp0` after a step that leads to `proc`. -/
def State.after (page : T → ℕ) (s : State T S) (e : Event T S) (proc : Process.State T S) :
    State T S where
  proc
  esp0 := if activates s e then activated page proc proc.sched.cur s.esp0 else s.esp0

def machine (page : T → ℕ) : Machine (State T S) (Event T S) Halt where
  step s e := ((Process.machine T S).step s.proc e).map (Except.map (s.after page e))

/-- The TSS has the stack of the process that runs. -/
def OwnStack (page : T → ℕ) (s : State T S) : Prop :=
  ∀ p, s.proc.home s.proc.sched.cur = some p → s.esp0 = page s.proc.sched.cur + pgSize

/-- The step does not give the CPU to a process whose `pgdir` is `NULL` for the moment, unless the
TSS has its stack. -/
def InPlace (page : T → ℕ) (s : State T S) : Event T S → Prop
  | .sched e =>
    reschedules s.proc.sched e = true → ∀ r ∈ (Sched.machine T S).step s.proc.sched e,
      ∀ sched ∈ r.toOption, ∀ w ∈ s.proc.window sched.cur, w.curPagedirBak ≠ none →
        s.esp0 = page sched.cur + pgSize
  | .execute _ _ | .clearPgdir _ | .restorePgdir | .pageTableAdd => True

instance (page : T → ℕ) (s : State T S) : ∀ e, Decidable (InPlace page s e)
  | .sched e => inferInstanceAs (Decidable
      (reschedules s.proc.sched e = true → ∀ r ∈ (Sched.machine T S).step s.proc.sched e,
        ∀ sched ∈ r.toOption, ∀ w ∈ s.proc.window sched.cur, w.curPagedirBak ≠ none →
          s.esp0 = page sched.cur + pgSize))
  | .execute _ _ | .clearPgdir _ | .restorePgdir | .pageTableAdd => inferInstanceAs (Decidable True)

/-! ## The invariant -/

variable {s s' : State T S} {v : S → ℕ} {page : T → ℕ}

structure Inv (page : T → ℕ) (v : S → ℕ) (s : State T S) : Prop where
  sched : Sched.Inv v s.proc.sched
  cleared : ∀ t w, s.proc.window t = some w → s.proc.pgdir t = none
  own : OwnStack page s

theorem step_cases {e : Event T S} (h : (machine page).step s e = some (.ok s')) :
    ∃ proc, (Process.machine T S).step s.proc e = some (.ok proc) ∧ s' = s.after page e proc := by
  obtain ⟨proc, hproc, rfl⟩ := Machine.ok_of_map h
  exact ⟨proc, hproc, rfl⟩

omit [DecidableEq T] [DecidableEq S] in
/-- A step that does not change the thread that runs, and gives it no other directory. -/
theorem own_of_home {proc : Process.State T S} (h : OwnStack page s)
    (hcur : proc.sched.cur = s.proc.sched.cur)
    (hhome : ∀ p, proc.home s.proc.sched.cur = some p → s.proc.home s.proc.sched.cur = some p) :
    OwnStack page ⟨proc, s.esp0⟩ := by
  intro p hp
  dsimp only at hp ⊢
  rw [hcur] at hp ⊢
  exact h p (hhome p hp)

omit [DecidableEq T] [DecidableEq S] in
theorem processActivate_same (proc : Process.State T S) (t : T) :
    (proc.processActivate t).sched = proc.sched ∧ (proc.processActivate t).pgdir = proc.pgdir ∧
      (proc.processActivate t).window = proc.window := by
  unfold State.processActivate State.pageDirActivate
  split <;> exact ⟨rfl, rfl, rfl⟩

omit [DecidableEq T] [DecidableEq S] in
theorem home_congr {proc proc' : Process.State T S} (hpgdir : proc'.pgdir = proc.pgdir)
    (hwindow : proc'.window = proc.window) (t : T) : proc'.home t = proc.home t := by
  unfold State.home
  rw [hpgdir, hwindow]

/-- The step of the scheduler that `Process.machine` makes. -/
theorem sched_cases {e : Sched.Event T S} {proc : Process.State T S}
    (h : (Process.machine T S).step s.proc (.sched e) = some (.ok proc)) :
    ∃ sched, (Sched.machine T S).step s.proc.sched e = some (.ok sched) ∧
      proc = s.proc.follow e sched := by
  simp only [Process.machine] at h
  split at h
  · obtain ⟨sched, hsched, rfl⟩ := Machine.ok_of_map h
    exact ⟨sched, hsched, rfl⟩
  · cases h

/-- The CPU goes to another thread: when the stack in the TSS is its own. -/
theorem switch_own_iff {e : Sched.Event T S} {sched : Sched.State T S} (h : Inv page v s)
    (hr : reschedules s.proc.sched e = true) :
    OwnStack page (s.after page (.sched e) (s.proc.follow e sched)) ↔
      ∀ w ∈ s.proc.window sched.cur, w.curPagedirBak ≠ none → s.esp0 = page sched.cur + pgSize := by
  obtain ⟨hsched, hpgdir, hwindow⟩ :=
    processActivate_same ({ s.proc with sched } : Process.State T S) sched.cur
  rw [follow_of_reschedules sched hr]
  have hafter : s.after page (.sched e)
      (({ s.proc with sched } : Process.State T S).processActivate sched.cur) =
      ⟨({ s.proc with sched } : Process.State T S).processActivate sched.cur,
        if (s.proc.pgdir sched.cur).isSome then page sched.cur + pgSize else s.esp0⟩ := by
    unfold State.after activates activated updateTssEsp0
    rw [if_pos hr, hsched, hpgdir]
  have hhome : (({ s.proc with sched } : Process.State T S).processActivate sched.cur).home
      sched.cur = s.proc.home sched.cur := home_congr hpgdir hwindow sched.cur
  rw [hafter]
  unfold OwnStack
  dsimp only
  rw [hsched]
  dsimp only
  rw [hhome]
  cases hw : s.proc.window sched.cur with
  | some w =>
    have hnull := h.cleared _ w hw
    unfold State.home
    rw [hw, hnull]
    constructor
    · intro hown w' hw' hbak
      cases hw'
      obtain ⟨p, hp⟩ := Option.ne_none_iff_exists'.mp hbak
      exact hown p hp
    · intro hown p hp
      exact hown w rfl (by rw [show w.curPagedirBak = some p from hp]; nofun)
  | none =>
    unfold State.home
    rw [hw]
    refine ⟨fun _ => nofun, fun _ p hp => ?_⟩
    rw [if_pos (by rw [show s.proc.pgdir sched.cur = some p from hp]; rfl)]

theorem switch_cleared {e : Sched.Event T S} {sched : Sched.State T S} (h : Inv page v s)
    (hr : reschedules s.proc.sched e = true) (t : T) (w : Window)
    (hw : (s.proc.follow e sched).window t = some w) : (s.proc.follow e sched).pgdir t = none := by
  obtain ⟨-, hpgdir, hwindow⟩ :=
    processActivate_same ({ s.proc with sched } : Process.State T S) sched.cur
  rw [follow_of_reschedules sched hr] at hw ⊢
  rw [hwindow] at hw
  rw [hpgdir]
  exact h.cleared t w hw

omit [DecidableEq S] in
/-- A new task has no window. -/
theorem create_cleared {proc : Process.State T S} {t : T} {dir : Option ℕ}
    (h : ∀ t w, proc.window t = some w → proc.pgdir t = none) (t' : T) (w : Window)
    (hw : (proc.create t dir).window t' = some w) : (proc.create t dir).pgdir t' = none := by
  unfold State.create at hw ⊢
  dsimp only at hw ⊢
  rcases eq_or_ne t' t with rfl | hne
  · rw [Function.update_self] at hw
    cases hw
  · rw [Function.update_of_ne hne] at hw ⊢
    exact h t' w hw

/-- A step of the scheduler without `schedule`. -/
theorem Inv.stay {e : Sched.Event T S} {sched : Sched.State T S} (h : Inv page v s)
    (hstep : (Sched.machine T S).step s.proc.sched e = some (.ok sched))
    (hr : reschedules s.proc.sched e = false) :
    Inv page v (s.after page (.sched e) (s.proc.follow e sched)) := by
  obtain ⟨-, hexec, hsched⟩ := sched_step h.sched hstep
  have hcur : sched.cur = s.proc.sched.cur := exec_cur hr hexec
  have hafter : s.after page (.sched e) (s.proc.follow e sched) =
      ⟨s.proc.follow e sched, s.esp0⟩ := by
    have hact : activates s (.sched e) = false := hr
    unfold State.after
    rw [if_neg (by rw [hact]; nofun)]
  rw [hafter]
  rcases follow_of_not_reschedules sched hr with heq | ⟨t, heq⟩
  · rw [heq]
    exact ⟨hsched, h.cleared, own_of_home h.own hcur fun p hp => hp⟩
  · rw [heq]
    refine ⟨hsched, create_cleared h.cleared, own_of_home h.own hcur fun p hp => ?_⟩
    rcases home_create hp with ⟨-, hnone⟩ | ⟨-, hp⟩
    · cases hnone
    · exact hp

/-- `process_execute`. -/
theorem Inv.execute {t : T} {new : Option (ℕ × ℕ)} {proc : Process.State T S} (h : Inv page v s)
    (hstep : (Process.machine T S).step s.proc (.execute t new) = some (.ok proc)) :
    Inv page v ⟨proc, s.esp0⟩ := by
  simp only [Process.machine] at hstep
  split at hstep
  · obtain ⟨sched, hsched, rfl⟩ := Machine.ok_of_map hstep
    obtain ⟨henabled, hexec, hinv⟩ := sched_step h.sched hsched
    obtain ⟨-, -, -, hpgdir, hwindow⟩ := createPageDir_same s.proc new
    have hcur : sched.cur = s.proc.sched.cur := exec_cur rfl hexec
    have hcleared : ∀ t w, (s.proc.createPageDir new).1.window t = some w →
        (s.proc.createPageDir new).1.pgdir t = none := by
      rw [hpgdir, hwindow]
      exact h.cleared
    refine ⟨hinv, create_cleared hcleared, own_of_home h.own hcur fun p hp => ?_⟩
    rcases home_create hp with ⟨heq, -⟩ | ⟨-, hp⟩
    · exfalso
      unfold Sched.Enabled at henabled
      split at henabled
      · exact henabled
      · exact henabled.2 (heq ▸ cur_mem_threads h.sched)
    · rw [← home_congr hpgdir hwindow]
      exact hp
  · cases hstep

/-- `cur->pgdir = NULL` and `cur->pgdir = cur_pagedir_bak`. -/
theorem Inv.setPgdir {dir : Option ℕ} {w : Option Window} (h : Inv page v s)
    (hhome : (match w with | some w => w.curPagedirBak | none => dir) =
      s.proc.home s.proc.sched.cur)
    (hw : w.isSome → dir = none) :
    Inv page v ⟨{ s.proc with
      pgdir := Function.update s.proc.pgdir s.proc.sched.cur dir
      window := Function.update s.proc.window s.proc.sched.cur w }, s.esp0⟩ := by
  refine ⟨h.sched, fun t w' hw' => ?_, own_of_home h.own rfl fun p hp => ?_⟩
  · dsimp only at hw' ⊢
    rcases eq_or_ne t s.proc.sched.cur with rfl | hne
    · rw [Function.update_self] at hw' ⊢
      exact hw (hw' ▸ rfl)
    · rw [Function.update_of_ne hne] at hw' ⊢
      exact h.cleared t w' hw'
  · rw [← hhome]
    simp only [State.home, Function.update_self] at hp
    exact hp

theorem inv_step {e : Event T S} (h : Inv page v s) (hc : InPlace page s e)
    (hstep : (machine page).step s e = some (.ok s')) : Inv page v s' := by
  obtain ⟨proc, hproc, rfl⟩ := step_cases hstep
  cases e with
  | sched e =>
    obtain ⟨sched, hsched, rfl⟩ := sched_cases hproc
    by_cases hr : reschedules s.proc.sched e = true
    · have hinv := (sched_step h.sched hsched).2.2
      refine ⟨?_, switch_cleared h hr, (switch_own_iff h hr).mpr (hc hr _ hsched sched rfl)⟩
      show Sched.Inv v (s.proc.follow e sched).sched
      rw [follow_of_reschedules sched hr, (processActivate_same _ _).1]
      exact hinv
    · exact h.stay hsched (by simpa using hr)
  | execute t new => exact h.execute hproc
  | clearPgdir caller =>
    simp only [Process.machine] at hproc
    split at hproc
    · next hnone =>
      cases hproc
      refine h.setPgdir ?_ fun _ => rfl
      simp only [State.home, Option.isNone_iff_eq_none.mp hnone.2]
    · cases hproc
  | restorePgdir =>
    simp only [Process.machine] at hproc
    split at hproc
    · next w hw =>
      split at hproc
      · cases hproc
        refine h.setPgdir ?_ fun hsome => absurd hsome Bool.false_ne_true
        simp only [State.home, hw]
      · cases hproc
    · cases hproc
  | pageTableAdd =>
    simp only [Process.machine] at hproc
    split at hproc
    · split at hproc
      · cases hproc
        exact ⟨h.sched, h.cleared, h.own⟩
      · cases hproc
    · cases hproc

/-- A process that is given the CPU at the wrong moment runs with another stack. -/
theorem bad_step {e : Event T S} (h : Inv page v s) (hc : ¬InPlace page s e)
    (hstep : (machine page).step s e = some (.ok s')) : ¬OwnStack page s' := by
  obtain ⟨proc, hproc, rfl⟩ := step_cases hstep
  cases e with
  | sched e =>
    obtain ⟨sched, hsched, rfl⟩ := sched_cases hproc
    unfold InPlace at hc
    intro hown
    apply hc
    intro hr r hmem sched' hr' w hw hbak
    have heq : r = .ok sched := by
      rw [hsched] at hmem
      exact (Option.some.inj hmem).symm
    subst heq
    cases hr'
    exact (switch_own_iff h hr).mp hown w hw hbak
  | execute t new => exact absurd trivial hc
  | clearPgdir caller => exact absurd trivial hc
  | restorePgdir => exact absurd trivial hc
  | pageTableAdd => exact absurd trivial hc

/-! ## Runs -/

/-- **The stack for interrupts.**  In a run of the kernel, the stack in the TSS is at every moment
that of the process that runs, if and only if no process is given the CPU between
`cur->pgdir = NULL` and `cur->pgdir = cur_pagedir_bak` while the TSS has another stack. -/
theorem kernel_stack_iff {main idle : T} (hne : main ≠ idle) (v : S → ℕ) (task : T → Sched.Task)
    (frame : ℕ → ℕ) (page : T → ℕ) (esp0 : ℕ) :
    ∃ s₀, Sched.threadInit (Sched.boot main v task) idle = .ok s₀ ∧
      ∀ es s, (machine page).run ⟨init s₀ frame, esp0⟩ es = some (.ok s) →
        ((∀ fs s', fs <+: es → (machine page).run ⟨init s₀ frame, esp0⟩ fs = some (.ok s') →
            OwnStack page s') ↔
          ∀ fs e s', fs ++ [e] <+: es →
            (machine page).run ⟨init s₀ frame, esp0⟩ fs = some (.ok s') → InPlace page s' e) := by
  obtain ⟨s₀, hinit, hcur, hval, hc₀⟩ := Sched.threadInit_core hne v task
  refine ⟨s₀, hinit, fun es s hrun => ?_⟩
  have hsched : Sched.Inv v s₀ := ⟨⟨_, _, hcur ▸ hc₀⟩, by rw [hval]; exact fun k hk => hk⟩
  have hinv₀ : Inv page v ⟨init s₀ frame, esp0⟩ := {
    sched := hsched
    cleared := fun _ _ hw => absurd hw.symm (Option.some_ne_none _)
    own := fun _ hp => absurd hp.symm (Option.some_ne_none _) }
  exact Machine.run_ok_iff_guard (I := Inv page v) (fun _ h => h.own)
    (fun _ _ _ h hc hstep => inv_step h hc hstep) (fun _ _ _ h hc hstep => bad_step h hc hstep)
    hinv₀ hrun

/-- The process 2 waits for the kernel's pool while it opens an inode, and meanwhile the process 3
runs. -/
def otherProcess : List (Event ℕ Unit) :=
  [.sched (.down ()), .execute 2 (some (0xc0105, 0x205000)), .execute 3 (some (0xc0106, 0x206000)),
    .sched .yield, .sched (.block .blocked), .clearPgdir .inodeOpen, .sched (.down ()),
    .sched .yield, .sched (.up ()), .sched .yield, .sched .resume, .sched (.up ()), .restorePgdir]

/-- The process 2 then runs with the stack of the process 3. -/
theorem kernel_stack_iff_other :
    ∃ s₀ s, Sched.threadInit (Sched.boot (0 : ℕ) (fun _ : Unit => 1) fun _ => ⟨.died, 0, 0, 0, 0⟩)
        1 = .ok s₀ ∧
      (machine fun t => 0xc0200000 + 4096 * t).run ⟨init s₀ fun _ => 0, 0⟩ otherProcess =
        some (.ok s) ∧
      s.proc.sched.cur = 2 ∧ s.esp0 = 0xc0200000 + 4096 * 3 + 4096 ∧
      ¬∀ fs e s', fs ++ [e] <+: otherProcess →
        (machine fun t => 0xc0200000 + 4096 * t).run ⟨init s₀ fun _ => 0, 0⟩ fs =
          some (.ok s') → InPlace (fun t => 0xc0200000 + 4096 * t) s' e := by
  obtain ⟨s₀, hinit, hall⟩ := kernel_stack_iff (show (0 : ℕ) ≠ 1 by decide) (fun _ : Unit => 1)
    (fun _ => ⟨.died, 0, 0, 0, 0⟩) (fun _ => 0) (fun t => 0xc0200000 + 4096 * t) 0
  have htest : ((Sched.threadInit (Sched.boot (0 : ℕ) (fun _ : Unit => 1)
      fun _ => ⟨.died, 0, 0, 0, 0⟩) 1).toOption.any fun s₀ =>
        ((machine fun t => 0xc0200000 + 4096 * t).run ⟨init s₀ fun _ => 0, 0⟩ otherProcess).any
          fun r => r.toOption.any fun s => decide (s.proc.sched.cur = 2 ∧
            s.esp0 = 0xc0200000 + 4096 * 3 + 4096 ∧ s.proc.home 2 = some 0xc0105000)) = true := by
    decide +kernel
  rw [hinit] at htest
  obtain ⟨s, hrun, hs⟩ := Machine.run_of_test _ htest
  obtain ⟨hcur, hesp0, hhome⟩ := of_decide_eq_true hs
  refine ⟨s₀, s, hinit, hrun, hcur, hesp0, fun hplace => ?_⟩
  have hown := (hall otherProcess s hrun).mpr hplace otherProcess s (List.prefix_refl _) hrun
  have heq := hown 0xc0105000 (by rw [hcur]; exact hhome)
  rw [hesp0, hcur] at heq
  exact absurd heq (by decide)

end HcOs.KernelStack
