import HcOs.Kernel.Page
import HcOs.Thread.ScheduleInv

/-!
# Address spaces and the scheduler (`userprog/process.c`, `fs/inode.c`)

`pgdir` of a task says two things: which heap its `sys_malloc` and `sys_free` use, and which
directory `process_activate` loads into CR3.  `inode_open` and `inode_close` set it to `NULL` around
a call of the heap, so that the inode comes from the kernel's heap, and then set it back.  A process
that is given the CPU between the two gets the directory of the kernel, and keeps it when its
`pgdir` is back.

`address_space`: as long as `schedule` gives the CPU to no process in such a window, CR3 holds the
directory of the process that runs, and the user pages of a process are mapped in its own directory.

The steps of the scheduler are those of `Sched.machine`.  `reschedules` says which of them call
`schedule`, which runs `process_activate` also when it goes on with the same thread.
-/

namespace HcOs.Process

open HcOs.Lib
open HcOs.Page (pgSize)

/-- The two functions that clear `pgdir`; `inode_close` does so with interrupts disabled. -/
inductive Caller where
  | inodeOpen
  | inodeClose
deriving DecidableEq

/-- A thread between `cur->pgdir = NULL` and `cur->pgdir = cur_pagedir_bak`. -/
structure Window where
  caller : Caller
  curPagedirBak : Option ℕ

structure State (T S : Type) where
  sched : Sched.State T S
  /-- `pgdir` of every task; `none` is `NULL`. -/
  pgdir : T → Option ℕ
  window : T → Option Window
  /-- The frames of the kernel's pages, by page number.  All directories share the page tables of
  the kernel. -/
  frame : ℕ → ℕ
  /-- The results of `create_page_dir`. -/
  dirs : List ℕ
  cr3 : ℕ
  /-- The calls of `page_table_add` for user pages: the directory of the process, and the address
  of the directory that was edited. -/
  added : List (ℕ × ℕ)

variable {T S : Type}

/-- After `thread_init`: there are only kernel threads. -/
def init (sched : Sched.State T S) (frame : ℕ → ℕ) : State T S where
  sched
  pgdir _ := none
  window _ := none
  frame
  dirs := []
  cr3 := 0x100000
  added := []

namespace State

variable (s : State T S)

/-- `addr_v2p` of an address of the kernel. -/
def addrV2p (vaddr : ℕ) : ℕ := s.frame (vaddr / pgSize) + vaddr % pgSize

/-- `page_dir_activate`. -/
def pageDirActivate (t : T) : State T S :=
  match s.pgdir t with
  | none => { s with cr3 := 0x100000 }
  | some p => { s with cr3 := s.addrV2p p }

/-- `process_activate`, without the stack in the TSS. -/
def processActivate (t : T) : State T S := s.pageDirActivate t

variable [DecidableEq T]

/-- A new task, with the directory it gets. -/
def create (t : T) (dir : Option ℕ) : State T S :=
  { s with pgdir := Function.update s.pgdir t dir, window := Function.update s.window t none }

/-- `create_page_dir`, on a page with its frame; `none` when there is no page. -/
def createPageDir : Option (ℕ × ℕ) → State T S × Option ℕ
  | none => (s, none)
  | some (page, f) =>
    ({ s with frame := Function.update s.frame page f, dirs := page * pgSize :: s.dirs },
      some (page * pgSize))

end State

inductive Event (T S : Type) where
  /-- A step of the scheduler, which is not `process_execute`. -/
  | sched (e : Sched.Event T S)
  /-- `process_execute`, with the page of the directory and its frame. -/
  | execute (t : T) (page : Option (ℕ × ℕ))
  | clearPgdir (caller : Caller)
  | restorePgdir
  /-- `page_table_add` for a user page of the process that runs. -/
  | pageTableAdd

variable [DecidableEq T] [DecidableEq S]

/-- Does the step call `schedule`? -/
def reschedules (s : Sched.State T S) : Sched.Event T S → Bool
  | .timer => (s.task s.cur).ticks = 0
  | .block _ | .yield => true
  | .down k => s.value k = 0
  | .resume => match s.pc s.cur with
    | .down k => s.value k = 0
    | .normal => false
  | .start _ _ | .execute _ | .unblock _ | .up _ => false

/-- A step of the scheduler for the address spaces. -/
def State.follow (s : State T S) (e : Sched.Event T S) (sched : Sched.State T S) : State T S :=
  let s' := match e with
    | .start t _ => s.create t none
    | _ => s
  let s' := { s' with sched }
  if reschedules s.sched e then s'.processActivate sched.cur else s'

/-- A timer interrupt comes only while interrupts are enabled; new processes have an event of their
own. -/
def Possible (s : State T S) : Sched.Event T S → Prop
  | .timer => ∀ w ∈ s.window s.sched.cur, w.caller ≠ .inodeClose
  | .execute _ => False
  | _ => True

instance (s : State T S) : ∀ e, Decidable (Possible s e)
  | .timer => inferInstanceAs (Decidable (∀ w ∈ s.window s.sched.cur, w.caller ≠ .inodeClose))
  | .execute _ => inferInstanceAs (Decidable False)
  | .start _ _ | .block _ | .unblock _ | .yield | .down _ | .up _ | .resume =>
    inferInstanceAs (Decidable True)

/-- The thread that runs is at a call of its own program. -/
def InProgram (s : State T S) : Prop :=
  s.sched.pc s.sched.cur = .normal ∧ s.sched.cur ≠ s.sched.idleThread

instance (s : State T S) : Decidable (InProgram s) :=
  inferInstanceAs (Decidable (s.sched.pc s.sched.cur = .normal ∧ s.sched.cur ≠ s.sched.idleThread))

def machine (T S : Type) [DecidableEq T] [DecidableEq S] :
    Machine (State T S) (Event T S) Halt where
  step s
    | .sched e =>
      if Possible s e then
        ((Sched.machine T S).step s.sched e).map (Except.map (s.follow e))
      else none
    | .execute t page =>
      -- the page is a new one
      if ∀ p ∈ page, p.1 * pgSize ∉ s.dirs then
        ((Sched.machine T S).step s.sched (.execute t)).map (Except.map fun sched =>
          let (s, dir) := s.createPageDir page
          { s.create t dir with sched })
      else none
    | .clearPgdir caller =>
      let cur := s.sched.cur
      if InProgram s ∧ (s.window cur).isNone then
        some (.ok { s with
          pgdir := Function.update s.pgdir cur none
          window := Function.update s.window cur (some ⟨caller, s.pgdir cur⟩) })
      else none
    | .restorePgdir =>
      let cur := s.sched.cur
      match s.window cur with
      | some w =>
        if InProgram s then
          some (.ok { s with
            pgdir := Function.update s.pgdir cur w.curPagedirBak
            window := Function.update s.window cur none })
        else none
      | none => none
    | .pageTableAdd =>
      match s.pgdir s.sched.cur with
      | some p => if InProgram s then some (.ok { s with added := (p, s.cr3) :: s.added }) else none
      | none => none

/-- CR3 holds the directory of the process that runs, and every user page was mapped in the
directory of its process. -/
structure Agrees (s : State T S) : Prop where
  cr3 : ∀ p, s.pgdir s.sched.cur = some p → s.cr3 = s.addrV2p p
  added : ∀ p d, (p, d) ∈ s.added → d = s.addrV2p p

/-- The step does not give the CPU to a process whose `pgdir` is `NULL` for the moment. -/
def Outside (s : State T S) : Event T S → Prop
  | .sched e =>
    reschedules s.sched e = true → ∀ r ∈ (Sched.machine T S).step s.sched e,
      ∀ sched ∈ r.toOption, ∀ w ∈ s.window sched.cur, w.curPagedirBak = none
  | _ => True

instance (s : State T S) : ∀ e, Decidable (Outside s e)
  | .sched e => inferInstanceAs (Decidable
      (reschedules s.sched e = true → ∀ r ∈ (Sched.machine T S).step s.sched e,
        ∀ sched ∈ r.toOption, ∀ w ∈ s.window sched.cur, w.curPagedirBak = none))
  | .execute _ _ | .clearPgdir _ | .restorePgdir | .pageTableAdd => inferInstanceAs (Decidable True)

/-! ## The thread that runs -/

section Cur

variable {s s' : Sched.State T S} {t : T} {k : S}

theorem enlistReady_cur {func : String} (h : Sched.enlistReady s t func = .ok s') :
    s'.cur = s.cur := by
  unfold Sched.enlistReady at h
  obtain ⟨_, -, h⟩ := bind_eq_ok.mp h
  obtain ⟨-, h⟩ := assert_bind_eq_ok.mp h
  obtain ⟨_, -, h⟩ := bind_eq_ok.mp h
  cases h
  rfl

theorem enlistAll_cur {func tag : String} (h : Sched.enlistAll s t func tag = .ok s') :
    s'.cur = s.cur := by
  unfold Sched.enlistAll at h
  obtain ⟨_, -, h⟩ := bind_eq_ok.mp h
  obtain ⟨-, h⟩ := assert_bind_eq_ok.mp h
  obtain ⟨_, -, h⟩ := bind_eq_ok.mp h
  cases h
  rfl

theorem threadUnblock_cur (h : Sched.threadUnblock s t = .ok s') : s'.cur = s.cur := by
  unfold Sched.threadUnblock at h
  obtain ⟨-, h⟩ := assert_bind_eq_ok.mp h
  split at h
  · obtain ⟨_, -, h⟩ := bind_eq_ok.mp h
    obtain ⟨-, h⟩ := assert_bind_eq_ok.mp h
    obtain ⟨_, -, h⟩ := bind_eq_ok.mp h
    split at h
    · cases h
    · obtain ⟨_, -, h⟩ := bind_eq_ok.mp h
      cases h
      rfl
  · cases h
    rfl

theorem semaUp_cur (h : Sched.semaUp s k = .ok s') : s'.cur = s.cur := by
  unfold Sched.semaUp at h
  obtain ⟨-, h⟩ := assert_bind_eq_ok.mp h
  obtain ⟨_, -, h⟩ := bind_eq_ok.mp h
  obtain ⟨s₁, h₁, h⟩ := bind_eq_ok.mp h
  obtain ⟨-, h⟩ := assert_bind_eq_ok.mp h
  cases h
  show s₁.cur = s.cur
  split at h₁
  · obtain ⟨_, -, h₁⟩ := bind_eq_ok.mp h₁
    obtain ⟨_, -, h₁⟩ := bind_eq_ok.mp h₁
    have hcur := threadUnblock_cur h₁
    exact hcur
  · cases h₁
    rfl

theorem semaDown_cur (hk : s.value k ≠ 0) (h : Sched.semaDown s k = .ok s') : s'.cur = s.cur := by
  unfold Sched.semaDown at h
  rw [if_neg hk] at h
  obtain ⟨-, h⟩ := assert_bind_eq_ok.mp h
  cases h
  rfl

/-- Only `schedule` changes the thread that runs. -/
theorem exec_cur {e : Sched.Event T S} (hr : reschedules s e = false)
    (h : Sched.exec s e = .ok s') : s'.cur = s.cur := by
  cases e with
  | start t prio =>
    obtain ⟨s₁, h₁, h⟩ := bind_eq_ok.mp h
    obtain ⟨_, -, h⟩ := bind_eq_ok.mp h
    obtain ⟨-, h⟩ := assert_bind_eq_ok.mp h
    have hcur := enlistReady_cur h₁
    exact (enlistAll_cur h).trans hcur
  | execute t =>
    obtain ⟨s₁, h₁, h⟩ := bind_eq_ok.mp h
    have hcur := enlistReady_cur h₁
    exact (enlistAll_cur h).trans hcur
  | timer =>
    obtain ⟨-, h⟩ := assert_bind_eq_ok.mp h
    rw [if_neg (of_decide_eq_false hr)] at h
    cases h
    rfl
  | block stat => cases hr
  | unblock t => exact threadUnblock_cur h
  | yield => cases hr
  | down k => exact semaDown_cur (of_decide_eq_false hr) h
  | up k => exact semaUp_cur h
  | resume =>
    simp only [Sched.exec] at h
    simp only [reschedules] at hr
    split at h
    · next k hpc =>
      rw [hpc] at hr
      exact semaDown_cur (of_decide_eq_false hr) h
    · cases h
      rfl

end Cur

/-! ## The invariant -/

variable {s s' : State T S} {v : S → ℕ}

/-- The directory of a task, which `inode_open` and `inode_close` keep for it. -/
def State.home (s : State T S) (t : T) : Option ℕ :=
  match s.window t with
  | some w => w.curPagedirBak
  | none => s.pgdir t

structure Inv (v : S → ℕ) (s : State T S) : Prop where
  sched : Sched.Inv v s.sched
  cleared : ∀ t w, s.window t = some w → s.pgdir t = none
  cr3 : ∀ p, s.home s.sched.cur = some p → s.cr3 = s.addrV2p p
  dirs : ∀ t p, s.home t = some p → p ∈ s.dirs
  aligned : ∀ p ∈ s.dirs, p % pgSize = 0
  added : ∀ p d, (p, d) ∈ s.added → p ∈ s.dirs ∧ d = s.addrV2p p

theorem home_of_pgdir (h : Inv v s) {t : T} {p : ℕ} (hp : s.pgdir t = some p) :
    s.home t = some p := by
  unfold State.home
  split
  · next w hw =>
    rw [h.cleared t w hw] at hp
    cases hp
  · exact hp

theorem Inv.agrees (h : Inv v s) : Agrees s where
  cr3 p hp := h.cr3 p (home_of_pgdir h hp)
  added p d hpd := (h.added p d hpd).2

theorem cur_mem_threads {s : Sched.State T S} (h : Sched.Inv v s) : s.cur ∈ s.threads := by
  obtain ⟨⟨ready, waiters, hc⟩, -⟩ := h
  exact ((hc.running s.cur).mp rfl).1

omit [DecidableEq T] [DecidableEq S] in
/-- `process_activate` of a thread that is not in a window loads its directory. -/
theorem processActivate_cr3 {t : T} (hclear : ∀ w ∈ s.window t, w.curPagedirBak = none) {p : ℕ}
    (hp : s.home t = some p) : (s.processActivate t).cr3 = s.addrV2p p := by
  have hdir : s.pgdir t = some p := by
    unfold State.home at hp
    split at hp
    · next w hw =>
      rw [hclear w hw] at hp
      cases hp
    · exact hp
  unfold State.processActivate State.pageDirActivate
  rw [hdir]

omit [DecidableEq S] in
theorem home_create {t t' : T} {dir : Option ℕ} {p : ℕ} (hp : (s.create t dir).home t' = some p) :
    t' = t ∧ dir = some p ∨ t' ≠ t ∧ s.home t' = some p := by
  unfold State.home State.create at hp
  dsimp only at hp
  rcases eq_or_ne t' t with rfl | hne
  · rw [Function.update_self, Function.update_self] at hp
    exact Or.inl ⟨rfl, hp⟩
  · rw [Function.update_of_ne hne, Function.update_of_ne hne] at hp
    exact Or.inr ⟨hne, hp⟩

omit [DecidableEq S] in
/-- A step that calls `schedule` changes nothing else for the address spaces. -/
theorem follow_of_reschedules {e : Sched.Event T S} (sched : Sched.State T S)
    (hr : reschedules s.sched e = true) :
    s.follow e sched = ({ s with sched } : State T S).processActivate sched.cur := by
  unfold State.follow
  rw [hr]
  cases e with
  | start t prio => cases hr
  | _ => rfl

omit [DecidableEq S] in
theorem follow_of_not_reschedules {e : Sched.Event T S} (sched : Sched.State T S)
    (hr : reschedules s.sched e = false) :
    s.follow e sched = { s with sched } ∨ ∃ t, s.follow e sched = { s.create t none with sched } := by
  unfold State.follow
  rw [hr]
  cases e with
  | start t prio => exact Or.inr ⟨t, rfl⟩
  | _ => exact Or.inl rfl

theorem Inv.create {t : T} (h : Inv v s) : Inv v (s.create t none) where
  sched := h.sched
  cleared t' w hw := by
    unfold State.create at hw ⊢
    dsimp only at hw ⊢
    rcases eq_or_ne t' t with rfl | hne
    · rw [Function.update_self]
    · rw [Function.update_of_ne hne] at hw ⊢
      exact h.cleared t' w hw
  cr3 p hp := by
    rcases home_create hp with ⟨-, hnone⟩ | ⟨-, hp⟩
    · cases hnone
    · exact h.cr3 p hp
  dirs t' p hp := by
    rcases home_create hp with ⟨-, hnone⟩ | ⟨-, hp⟩
    · cases hnone
    · exact h.dirs t' p hp
  aligned := h.aligned
  added := h.added

/-- The CPU goes to a thread that is not in a window. -/
theorem Inv.switch {sched : Sched.State T S} (h : Inv v s) (hsched : Sched.Inv v sched)
    (hclear : ∀ w ∈ s.window sched.cur, w.curPagedirBak = none) :
    Inv v (({ s with sched } : State T S).processActivate sched.cur) := by
  have hcr3 := @processActivate_cr3 T S { s with sched } sched.cur hclear
  unfold State.processActivate State.pageDirActivate at hcr3 ⊢
  split at hcr3 <;> exact {
    sched := hsched
    cleared := h.cleared
    cr3 := fun p hp => hcr3 hp
    dirs := h.dirs
    aligned := h.aligned
    added := h.added }

theorem sched_step {s s' : Sched.State T S} {e : Sched.Event T S} (h : Sched.Inv v s)
    (hstep : (Sched.machine T S).step s e = some (.ok s')) :
    Sched.Enabled s e ∧ Sched.exec s e = .ok s' ∧ Sched.Inv v s' := by
  simp only [Sched.machine] at hstep
  split at hstep
  · next henabled =>
    have hexec : Sched.exec s e = .ok s' := Option.some.inj hstep
    refine ⟨henabled, hexec, ?_⟩
    rcases Sched.exec_inv h henabled with ⟨s₁, h₁, hinv⟩ | ⟨x, hx, -⟩
    · rw [hexec] at h₁
      cases h₁
      exact hinv
    · rw [hexec] at hx
      cases hx
  · cases hstep

/-- A step of the scheduler. -/
theorem Inv.follow {e : Sched.Event T S} {sched : Sched.State T S} (h : Inv v s)
    (hstep : (Sched.machine T S).step s.sched e = some (.ok sched))
    (hout : Outside s (.sched e)) : Inv v (s.follow e sched) := by
  obtain ⟨-, hexec, hsched⟩ := sched_step h.sched hstep
  by_cases hr : reschedules s.sched e = true
  · rw [follow_of_reschedules sched hr]
    exact h.switch hsched (hout hr (.ok sched) hstep sched rfl)
  · have hr : reschedules s.sched e = false := by simpa using hr
    have hcur : sched.cur = s.sched.cur := exec_cur hr hexec
    have hkeep : ∀ s₁ : State T S, Inv v s₁ → s₁.sched = s.sched → Inv v { s₁ with sched } := by
      intro s₁ h₁ hs₁
      refine { h₁ with sched := hsched, cr3 := fun p hp => ?_ }
      apply h₁.cr3 p
      rw [hs₁, ← hcur]
      exact hp
    rcases follow_of_not_reschedules sched hr with heq | ⟨t, heq⟩
    · rw [heq]
      exact hkeep s h rfl
    · rw [heq]
      exact hkeep (s.create t none) h.create rfl

/-- The page of a new directory is none of those of the other directories. -/
theorem createPageDir_addrV2p (h : Inv v s) {page : Option (ℕ × ℕ)}
    (hnew : ∀ p ∈ page, p.1 * pgSize ∉ s.dirs) {p : ℕ} (hp : p ∈ s.dirs) :
    (s.createPageDir page).1.addrV2p p = s.addrV2p p := by
  cases page with
  | none => rfl
  | some pf =>
    have hne : p / pgSize ≠ pf.1 := by
      intro heq
      have hal := h.aligned p hp
      have hmul : pf.1 * pgSize = p := by
        rw [← heq]
        exact Nat.div_mul_cancel (Nat.dvd_of_mod_eq_zero hal)
      exact hnew pf rfl (hmul ▸ hp)
    unfold State.createPageDir State.addrV2p
    dsimp only
    rw [Function.update_of_ne hne]

omit [DecidableEq T] [DecidableEq S] in
theorem createPageDir_dirs (s : State T S) (page : Option (ℕ × ℕ)) {p : ℕ}
    (hp : p ∈ (s.createPageDir page).1.dirs) :
    p ∈ s.dirs ∨ (s.createPageDir page).2 = some p ∧ p % pgSize = 0 := by
  cases page with
  | none => exact Or.inl hp
  | some pf =>
    rcases List.mem_cons.mp hp with rfl | hp
    · exact Or.inr ⟨rfl, Nat.mul_mod_left _ _⟩
    · exact Or.inl hp

omit [DecidableEq T] [DecidableEq S] in
theorem mem_createPageDir (s : State T S) (page : Option (ℕ × ℕ)) {p : ℕ}
    (hp : p ∈ s.dirs ∨ (s.createPageDir page).2 = some p) : p ∈ (s.createPageDir page).1.dirs := by
  cases page with
  | none =>
    rcases hp with hp | hp
    · exact hp
    · cases hp
  | some pf =>
    rcases hp with hp | hp
    · exact List.mem_cons_of_mem _ hp
    · cases hp
      exact List.mem_cons_self

omit [DecidableEq T] [DecidableEq S] in
theorem createPageDir_same (s : State T S) (page : Option (ℕ × ℕ)) :
    (s.createPageDir page).1.sched = s.sched ∧ (s.createPageDir page).1.cr3 = s.cr3 ∧
      (s.createPageDir page).1.added = s.added ∧ (s.createPageDir page).1.pgdir = s.pgdir ∧
      (s.createPageDir page).1.window = s.window := by
  cases page <;> exact ⟨rfl, rfl, rfl, rfl, rfl⟩

/-- `process_execute`. -/
theorem Inv.execute {t : T} {page : Option (ℕ × ℕ)} {sched : Sched.State T S} (h : Inv v s)
    (hnew : ∀ p ∈ page, p.1 * pgSize ∉ s.dirs)
    (hstep : (Sched.machine T S).step s.sched (.execute t) = some (.ok sched)) :
    Inv v { (s.createPageDir page).1.create t (s.createPageDir page).2 with sched } := by
  obtain ⟨henabled, hexec, hsched⟩ := sched_step h.sched hstep
  obtain ⟨-, hcr3, hadded, hpgdir, hwindow⟩ := createPageDir_same s page
  have hcur : sched.cur = s.sched.cur := exec_cur rfl hexec
  have hcreated : t ≠ s.sched.cur := by
    rintro rfl
    unfold Sched.Enabled at henabled
    split at henabled
    · exact henabled
    · exact henabled.2 (cur_mem_threads h.sched)
  have hhome : ∀ t', (s.createPageDir page).1.home t' = s.home t' := by
    intro t'
    unfold State.home
    rw [hpgdir, hwindow]
  exact {
    sched := hsched
    cleared := by
      intro t' w hw
      change Function.update (s.createPageDir page).1.window t none t' = some w at hw
      show Function.update (s.createPageDir page).1.pgdir t _ t' = none
      rw [hwindow] at hw
      rw [hpgdir]
      rcases eq_or_ne t' t with rfl | hne
      · rw [Function.update_self] at hw
        cases hw
      · rw [Function.update_of_ne hne] at hw ⊢
        exact h.cleared t' w hw
    cr3 := by
      intro p hp
      show (s.createPageDir page).1.cr3 = (s.createPageDir page).1.addrV2p p
      rcases home_create hp with ⟨heq, -⟩ | ⟨-, hp⟩
      · exact absurd (hcur.symm.trans heq).symm hcreated
      · have hp' : s.home s.sched.cur = some p := by
          rw [← hcur, ← hhome]
          exact hp
        rw [hcr3, createPageDir_addrV2p h hnew (h.dirs _ p hp')]
        exact h.cr3 p hp'
    dirs := by
      intro t' p hp
      rcases home_create hp with ⟨-, hdir⟩ | ⟨-, hp⟩
      · exact mem_createPageDir s page (Or.inr hdir)
      · exact mem_createPageDir s page (Or.inl (h.dirs t' p ((hhome t').symm.trans hp)))
    aligned := by
      intro p hp
      rcases createPageDir_dirs s page hp with hp | hp
      · exact h.aligned p hp
      · exact hp.2
    added := by
      intro p d hpd
      change (p, d) ∈ (s.createPageDir page).1.added at hpd
      rw [hadded] at hpd
      obtain ⟨hp, hd⟩ := h.added p d hpd
      exact ⟨mem_createPageDir s page (Or.inl hp), hd.trans (createPageDir_addrV2p h hnew hp).symm⟩ }

/-- `cur->pgdir = NULL` and `cur->pgdir = cur_pagedir_bak` leave the task its directory. -/
theorem Inv.setPgdir {dir : Option ℕ} {w : Option Window} (h : Inv v s)
    (hhome : (match w with | some w => w.curPagedirBak | none => dir) = s.home s.sched.cur)
    (hw : w.isSome → dir = none) :
    Inv v { s with
      pgdir := Function.update s.pgdir s.sched.cur dir
      window := Function.update s.window s.sched.cur w } := by
  have hsame : ∀ t, State.home { s with
      pgdir := Function.update s.pgdir s.sched.cur dir
      window := Function.update s.window s.sched.cur w } t = s.home t := by
    intro t
    rcases eq_or_ne t s.sched.cur with rfl | hne
    · rw [← hhome]
      simp only [State.home, Function.update_self]
    · simp only [State.home, Function.update_of_ne hne]
  exact {
    sched := h.sched
    cleared := by
      intro t w' hw'
      dsimp only at hw' ⊢
      rcases eq_or_ne t s.sched.cur with rfl | hne
      · rw [Function.update_self] at hw' ⊢
        exact hw (hw' ▸ rfl)
      · rw [Function.update_of_ne hne] at hw' ⊢
        exact h.cleared t w' hw'
    cr3 := fun p hp => h.cr3 p ((hsame _).symm.trans hp)
    dirs := fun t p hp => h.dirs t p ((hsame t).symm.trans hp)
    aligned := h.aligned
    added := h.added }

/-- `page_table_add` for a user page. -/
theorem Inv.pageTableAdd {p : ℕ} (h : Inv v s) (hp : s.pgdir s.sched.cur = some p) :
    Inv v { s with added := (p, s.cr3) :: s.added } := by
  have hhome := home_of_pgdir h hp
  refine { h with added := fun q d hqd => ?_ }
  rcases List.mem_cons.mp hqd with heq | hqd
  · cases heq
    exact ⟨h.dirs _ p hhome, h.cr3 p hhome⟩
  · exact h.added q d hqd

theorem inv_step {e : Event T S} (h : Inv v s) (hout : Outside s e)
    (hstep : (machine T S).step s e = some (.ok s')) : Inv v s' := by
  cases e with
  | sched e =>
    simp only [machine] at hstep
    split at hstep
    · obtain ⟨sched, hsched, rfl⟩ := Machine.ok_of_map hstep
      exact h.follow hsched hout
    · cases hstep
  | execute t page =>
    simp only [machine] at hstep
    split at hstep
    · next hnew =>
      obtain ⟨sched, hsched, rfl⟩ := Machine.ok_of_map hstep
      exact h.execute hnew hsched
    · cases hstep
  | clearPgdir caller =>
    simp only [machine] at hstep
    split at hstep
    · next hnone =>
      cases hstep
      refine h.setPgdir ?_ fun _ => rfl
      simp only [State.home, Option.isNone_iff_eq_none.mp hnone.2]
    · cases hstep
  | restorePgdir =>
    simp only [machine] at hstep
    split at hstep
    · next w hw =>
      split at hstep
      · cases hstep
        refine h.setPgdir ?_ fun hsome => absurd hsome Bool.false_ne_true
        simp only [State.home, hw]
      · cases hstep
    · cases hstep
  | pageTableAdd =>
    simp only [machine] at hstep
    split at hstep
    · next p hp =>
      split at hstep
      · cases hstep
        exact h.pageTableAdd hp
      · cases hstep
    · cases hstep

/-- **Address spaces.**  In every run in which the CPU is given to no process whose `pgdir` is
`NULL` for the moment, CR3 and `pgdir` of the thread that runs agree at every moment, and all user
pages are mapped where they belong. -/
theorem address_space {main idle : T} (hne : main ≠ idle) (v : S → ℕ) (task : T → Sched.Task)
    (frame : ℕ → ℕ) :
    ∃ s₀, Sched.threadInit (Sched.boot main v task) idle = .ok s₀ ∧
      ∀ es s, ((machine T S).guard Outside).run (init s₀ frame) es = some (.ok s) → Agrees s := by
  obtain ⟨s₀, hinit, hcur, hval, hc₀⟩ := Sched.threadInit_core hne v task
  refine ⟨s₀, hinit, fun es s hrun => ?_⟩
  have hsched : Sched.Inv v s₀ := ⟨⟨_, _, hcur ▸ hc₀⟩, by rw [hval]; exact fun k hk => hk⟩
  have hinv₀ : Inv v (init s₀ frame) := {
    sched := hsched
    cleared := fun _ _ hw => absurd hw.symm (Option.some_ne_none _)
    cr3 := fun _ hp => absurd hp.symm (Option.some_ne_none _)
    dirs := fun _ _ hp => absurd hp.symm (Option.some_ne_none _)
    aligned := fun _ hp => absurd hp List.not_mem_nil
    added := fun _ _ hp => absurd hp List.not_mem_nil }
  have hinv : Inv v s :=
    Machine.run_guard_ok (fun _ _ _ hs hc hstep => inv_step hs hc hstep) hinv₀ hrun
  exact hinv.agrees

/-- A kernel with the main thread 0 and the idle thread 1, and a lock that is free. -/
def boot₀ : Sched.State (Fin 3) Unit := Sched.boot 0 (fun _ => 1) fun _ => ⟨.died, 0, 0, 0, 0⟩

/-- The process 2 opens an inode while the lock of the kernel's pool is free. -/
def quietOpen : List (Event (Fin 3) Unit) :=
  [.execute 2 (some (0xc0105, 0x205000)), .sched .yield, .sched (.block .blocked),
    .clearPgdir .inodeOpen, .sched (.down ()), .sched (.up ()), .restorePgdir, .pageTableAdd]

theorem address_space_quietOpen :
    ∃ s₀ s, Sched.threadInit boot₀ 1 = .ok s₀ ∧
      ((machine (Fin 3) Unit).guard Outside).run (init s₀ fun _ => 0) quietOpen = some (.ok s) ∧
      s.pgdir s.sched.cur = some 0xc0105000 ∧ s.added = [(0xc0105000, 0x205000)] ∧ Agrees s := by
  obtain ⟨s₀, hinit, hall⟩ := address_space (show (0 : Fin 3) ≠ 1 by decide) (fun _ : Unit => 1)
    (fun _ => ⟨.died, 0, 0, 0, 0⟩) fun _ => 0
  have htest : ((Sched.threadInit boot₀ 1).toOption.any fun s₀ =>
      (((machine (Fin 3) Unit).guard Outside).run (init s₀ fun _ => 0) quietOpen).any fun r =>
        r.toOption.any fun s => decide
          (s.pgdir s.sched.cur = some 0xc0105000 ∧ s.added = [(0xc0105000, 0x205000)])) = true := by
    decide +kernel
  rw [show Sched.threadInit boot₀ 1 = .ok s₀ from hinit] at htest
  obtain ⟨s, hrun, hs⟩ := ((machine (Fin 3) Unit).guard Outside).run_of_test htest
  obtain ⟨hpgdir, hadded⟩ := of_decide_eq_true hs
  exact ⟨s₀, s, hinit, hrun, hpgdir, hadded, hall quietOpen s hrun⟩

/-- The process 2 finds the lock of the kernel's pool taken by the main thread, sleeps in its
window, and comes back from it in the kernel's directory. -/
def blockedOpen : List (Event (Fin 3) Unit) :=
  [.sched (.down ()), .execute 2 (some (0xc0105, 0x205000)), .sched .yield,
    .sched (.block .blocked), .clearPgdir .inodeOpen, .sched (.down ()), .sched (.up ()),
    .sched .yield, .sched .resume, .sched (.up ()), .restorePgdir, .pageTableAdd]

theorem not_agrees_blockedOpen :
    ∃ s₀ s, Sched.threadInit boot₀ 1 = .ok s₀ ∧
      (machine (Fin 3) Unit).run (init s₀ fun _ => 0) blockedOpen = some (.ok s) ∧
      s.pgdir s.sched.cur = some 0xc0105000 ∧ s.addrV2p 0xc0105000 = 0x205000 ∧
      s.cr3 = 0x100000 ∧ s.added = [(0xc0105000, 0x100000)] ∧ ¬Agrees s := by
  obtain ⟨s₀, hinit, -⟩ := Sched.threadInit_core (show (0 : Fin 3) ≠ 1 by decide)
    (fun _ : Unit => 1) fun _ => ⟨.died, 0, 0, 0, 0⟩
  have htest : ((Sched.threadInit boot₀ 1).toOption.any fun s₀ =>
      ((machine (Fin 3) Unit).run (init s₀ fun _ => 0) blockedOpen).any fun r =>
        r.toOption.any fun s => decide
          (s.pgdir s.sched.cur = some 0xc0105000 ∧ s.addrV2p 0xc0105000 = 0x205000 ∧
            s.cr3 = 0x100000 ∧ s.added = [(0xc0105000, 0x100000)])) = true := by
    decide +kernel
  rw [show Sched.threadInit boot₀ 1 = .ok s₀ from hinit] at htest
  obtain ⟨s, hrun, hs⟩ := (machine (Fin 3) Unit).run_of_test htest
  obtain ⟨hpgdir, hframe, hcr3, hadded⟩ := of_decide_eq_true hs
  refine ⟨s₀, s, hinit, hrun, hpgdir, hframe, hcr3, hadded, fun hagrees => ?_⟩
  have heq := hagrees.cr3 _ hpgdir
  rw [hframe, hcr3] at heq
  exact absurd heq (by decide)

end HcOs.Process
