import Mathlib.Logic.Function.Basic
import HcOs.Kernel.Debug

/-!
# Semaphores and locks (`thread/sync.c`)

`sema_down` and `sema_up` run with interrupts disabled, so the only point at which another thread
can run inside them is the `thread_block` of `sema_down`.  They are therefore translated in parts
that run without a switch: `semaDownPass` is one pass of the loop of `sema_down`, from a test of
`value` to the next `thread_block` or to the end of the function; `semaUp` is the whole function.

A thread is blocked or it is not; which of the threads that are not blocked runs next is left to
the scheduler, so `TASK_READY` stands here for ready or running.
-/

namespace HcOs

/-- `enum task_status`. -/
inductive TaskStatus where
  | running | ready | blocked | waiting | hanging | died
  deriving DecidableEq, Repr

/-- The three statuses `thread_block` accepts and `thread_unblock` asserts. -/
def TaskStatus.IsBlocked (s : TaskStatus) : Prop := s = .blocked ∨ s = .waiting ∨ s = .hanging

instance (s : TaskStatus) : Decidable s.IsBlocked := by unfold TaskStatus.IsBlocked; infer_instance

/-- `struct semaphore`; `value` is a `uint8_t`, `waiters` lists the threads by their `general_tag`. -/
structure Semaphore (T : Type) where
  value : ℕ
  waiters : List T
  deriving DecidableEq

/-- `struct lock`; `holderRepeatNr` is a `uint32_t`. -/
structure Lock (T : Type) where
  holder : Option T
  semaphore : Semaphore T
  holderRepeatNr : ℕ
  deriving DecidableEq

variable {T : Type}

def semaInit (value : ℕ) : Semaphore T := ⟨value, []⟩

def lockInit : Lock T := ⟨none, semaInit 1, 0⟩

/-- The statuses of all threads. -/
abbrev Statuses (T : Type) := T → TaskStatus

variable [DecidableEq T]

/-- `thread_block`, up to the switch to another thread. -/
def threadBlock (st : Statuses T) (t : T) (stat : TaskStatus) : Except Halt (Statuses T) := do
  assert stat.IsBlocked "thread_block"
    "((stat == TASK_BLOCKED) || (stat == TASK_WAITING) || (stat == TASK_HANGING))"
  .ok (Function.update st t stat)

/-- `thread_unblock`. -/
def threadUnblock (st : Statuses T) (t : T) : Except Halt (Statuses T) := do
  assert (st t).IsBlocked "thread_unblock"
    "((pthread->status == TASK_BLOCKED) || (pthread->status== TASK_WAITING) || (pthread->status == TASK_HANGING))"
  if st t ≠ .ready then .ok (Function.update st t .ready) else .ok st

/-- One pass of the loop of `sema_down` by the running thread `t`: `true` when `value` was taken,
`false` when `t` went to the waiters and was blocked. -/
def semaDownPass (st : Statuses T) (s : Semaphore T) (t : T) :
    Except Halt (Bool × Statuses T × Semaphore T) :=
  if s.value = 0 then do
    assert (t ∉ s.waiters) "sema_down"
      "!elem_find(&psema->waiters, &running_thread()->general_tag)"
    if t ∈ s.waiters then
      .error (.panic "sema_down" "sema_down: thread blocked has been in waiters_list\n")
    else do
      let st ← threadBlock st t .blocked
      .ok (false, st, { s with waiters := s.waiters ++ [t] })
  else do
    let s := { s with value := s.value - 1 }
    assert (s.value = 0) "sema_down" "psema->value == 0"
    .ok (true, st, s)

/-- `sema_up`. -/
def semaUp (st : Statuses T) (s : Semaphore T) : Except Halt (Statuses T × Semaphore T) := do
  assert (s.value = 0) "sema_up" "psema->value == 0"
  let (st, s) ← (match s.waiters with
    | [] => .ok (st, s)
    | t :: ws => do
      let st ← threadUnblock st t
      .ok (st, { s with waiters := ws }) : Except Halt (Statuses T × Semaphore T))
  let s := { s with value := (s.value + 1) % 2 ^ 8 }
  assert (s.value = 1) "sema_up" "psema->value == 1"
  .ok (st, s)

/-! ## What the semaphore operations do -/

section Sema

variable {st : Statuses T} {s : Semaphore T} {t : T}

theorem isBlocked_blocked : TaskStatus.blocked.IsBlocked := Or.inl rfl

theorem threadBlock_blocked : threadBlock st t .blocked = .ok (Function.update st t .blocked) :=
  assert_bind_of isBlocked_blocked _

theorem threadUnblock_blocked (h : st t = .blocked) :
    threadUnblock st t = .ok (Function.update st t .ready) := by
  have hb : (st t).IsBlocked := h ▸ isBlocked_blocked
  unfold threadUnblock
  rw [assert_bind_of hb, if_pos (by rw [h]; decide)]

/-- With `value` 0 the thread goes to the end of the waiters and is blocked. -/
theorem semaDownPass_zero (hv : s.value = 0) (ht : t ∉ s.waiters) :
    semaDownPass st s t =
      .ok (false, Function.update st t .blocked, { s with waiters := s.waiters ++ [t] }) := by
  unfold semaDownPass
  rw [if_pos hv, assert_bind_of ht, if_neg ht, threadBlock_blocked]
  rfl

/-- With `value` 1 the thread takes it. -/
theorem semaDownPass_one (hv : s.value = 1) :
    semaDownPass st s t = .ok (true, st, { s with value := 0 }) := by
  have h0 : s.value - 1 = 0 := by omega
  unfold semaDownPass
  rw [if_neg (by omega), assert_bind_of h0, h0]

theorem semaUp_nil (hv : s.value = 0) (hw : s.waiters = []) :
    semaUp st s = .ok (st, ⟨1, []⟩) := by
  obtain ⟨v, ws⟩ := s
  subst hv hw
  rfl

/-- A `sema_up` that finds waiters makes the first one ready. -/
theorem semaUp_cons {ws : List T} (hv : s.value = 0) (hw : s.waiters = t :: ws)
    (hb : st t = .blocked) :
    semaUp st s = .ok (Function.update st t .ready, ⟨1, ws⟩) := by
  obtain ⟨v, ws'⟩ := s
  subst hv hw
  unfold semaUp
  rw [assert_bind_of rfl]
  simp only [threadUnblock_blocked hb, ok_bind]
  rfl

end Sema

/-! ## Locks -/

/-- `lock_acquire` after its `sema_down` returned. -/
def lockAcquireTaken (lk : Lock T) (t : T) : Except Halt (Lock T) := do
  let lk := { lk with holder := some t }
  assert (lk.holderRepeatNr = 0) "lock_acquire" "plock->holder_repeat_nr == 0"
  .ok { lk with holderRepeatNr := 1 }

/-- `lock_acquire` from a test of the semaphore's `value` on: `false` when `t` was blocked. -/
def lockAcquireDown (st : Statuses T) (lk : Lock T) (t : T) :
    Except Halt (Bool × Statuses T × Lock T) := do
  let (taken, st, sem) ← semaDownPass st lk.semaphore t
  let lk := { lk with semaphore := sem }
  if taken then do
    let lk ← lockAcquireTaken lk t
    .ok (true, st, lk)
  else .ok (false, st, lk)

/-- `lock_acquire` called with interrupts disabled, up to its return or to its `thread_block`. -/
def lockAcquire (st : Statuses T) (lk : Lock T) (t : T) : Except Halt (Bool × Statuses T × Lock T) :=
  if lk.holder ≠ some t then lockAcquireDown st lk t
  else .ok (true, st, { lk with holderRepeatNr := (lk.holderRepeatNr + 1) % 2 ^ 32 })

/-- `lock_release` called with interrupts disabled. -/
def lockRelease (st : Statuses T) (lk : Lock T) (t : T) : Except Halt (Statuses T × Lock T) := do
  assert (lk.holder = some t) "lock_release" "plock->holder == running_thread()"
  if lk.holderRepeatNr > 1 then .ok (st, { lk with holderRepeatNr := lk.holderRepeatNr - 1 })
  else do
    assert (lk.holderRepeatNr = 1) "lock_release" "plock->holder_repeat_nr == 1"
    let lk := { lk with holder := none, holderRepeatNr := 0 }
    let (st, sem) ← semaUp st lk.semaphore
    .ok (st, { lk with semaphore := sem })
/-! ## What the lock operations do -/

section Lock

variable {st : Statuses T} {lk : Lock T} {t : T}

theorem lockAcquireDown_zero (hv : lk.semaphore.value = 0) (ht : t ∉ lk.semaphore.waiters) :
    lockAcquireDown st lk t = .ok (false, Function.update st t .blocked,
      { lk with semaphore := { lk.semaphore with waiters := lk.semaphore.waiters ++ [t] } }) := by
  unfold lockAcquireDown
  rw [semaDownPass_zero hv ht]
  rfl

theorem lockAcquireDown_one (hv : lk.semaphore.value = 1) (hn : lk.holderRepeatNr = 0) :
    lockAcquireDown st lk t = .ok (true, st, ⟨some t, { lk.semaphore with value := 0 }, 1⟩) := by
  unfold lockAcquireDown
  rw [semaDownPass_one hv]
  simp only [ok_bind, if_true, lockAcquireTaken, assert_bind_of hn]

theorem lockRelease_eq (hh : lk.holder = some t) (hn : lk.holderRepeatNr = 1)
    {st' : Statuses T} {sem : Semaphore T} (hup : semaUp st lk.semaphore = .ok (st', sem)) :
    lockRelease st lk t = .ok (st', ⟨none, sem, 0⟩) := by
  unfold lockRelease
  rw [assert_bind_of hh, if_neg (by omega), assert_bind_of hn]
  simp only [hup, ok_bind]

end Lock

end HcOs
