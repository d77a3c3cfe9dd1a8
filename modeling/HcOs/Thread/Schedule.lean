import HcOs.Kernel.List
import HcOs.Lib.Machine
import HcOs.Thread.Sync

/-!
# The scheduler (`thread/thread.c`, `device/timer.c`, `thread/sync.c`)

The lists of the kernel are the intrusive lists of `kernel/list.c`: `thread_ready_list`,
`thread_all_list` and the `waiters` of every semaphore.  Their nodes are the two tags in the
`task_struct` of a thread and the two sentinels of a list.

A step runs with interrupts disabled until it ends or until it has switched to another thread.  A
thread that is switched out inside `sema_down` goes on there, with interrupts still disabled, when
it gets the CPU back; its `pc` says so.
-/

namespace HcOs.Sched

open HcOs.Lib

variable {T S : Type}

/-- The lists, with `S` for the semaphores. -/
inductive ListId (S : Type) where
  | ready
  | all
  | waiters (k : S)
deriving DecidableEq

/-- The values a `struct list_elem*` has. -/
inductive Node (T S : Type) where
  | null
  | generalTag (t : T)
  | allListTag (t : T)
  | head (l : ListId S)
  | tail (l : ListId S)
deriving DecidableEq

/-- The fields `prev` and `next` of all nodes. -/
structure Links (T S : Type) where
  prev : Node T S → Node T S
  next : Node T S → Node T S

def plist (l : ListId S) : Sentinels (Node T S) := ⟨.head l, .tail l⟩

/-- The fields of `struct task_struct` that the scheduler uses, but for the two tags. -/
structure Task where
  status : TaskStatus
  priority : ℕ
  ticks : ℕ
  elapsedTicks : ℕ
  stackMagic : ℕ
deriving DecidableEq

/-- Where a thread goes on when it gets the CPU. -/
inductive Pc (S : Type) where
  | normal
  /-- In the loop of `sema_down`, after its `thread_block`. -/
  | down (k : S)
deriving DecidableEq

structure State (T S : Type) where
  links : Links T S
  task : T → Task
  /-- `running_thread()`. -/
  cur : T
  idleThread : T
  /-- `value` of every semaphore. -/
  value : S → ℕ
  pc : T → Pc S
  ticks : ℕ
  /-- The threads that have been created. -/
  threads : List T

variable [DecidableEq T] [DecidableEq S]

def linkHeap : LinkHeap (Links T S) (Node T S) where
  null := .null
  prev h n := h.prev n
  next h n := h.next n
  setPrev h n v := { h with prev := Function.update h.prev n v }
  setNext h n v := { h with next := Function.update h.next n v }

/-- `elem2entry(struct task_struct, general_tag, elem)`. -/
def elem2entry : Node T S → Except Halt T
  | .generalTag t => .ok t
  | _ => .error .nullDeref

def State.setStatus (s : State T S) (t : T) (stat : TaskStatus) : State T S :=
  { s with task := Function.update s.task t { s.task t with status := stat } }

/-- `elem_find`; no list has more nodes than there are threads. -/
def State.elemFind (s : State T S) (l : ListId S) (n : Node T S) : Except Halt Bool :=
  HcOs.elemFind linkHeap s.links (plist l) s.threads.length n

/-! ## `thread/thread.c` -/

/-- `init_thread`. -/
def initThread (s : State T S) (t : T) (status : TaskStatus) (prio : ℕ) : State T S :=
  { s with
    task := Function.update s.task t ⟨status, prio % 2 ^ 8, prio % 2 ^ 8, 0, 0x12345678⟩
    pc := Function.update s.pc t .normal
    threads := s.threads ++ [t] }

/-- The new thread goes on the ready list. -/
def enlistReady (s : State T S) (t : T) (func : String) : Except Halt (State T S) := do
  let found ← s.elemFind .ready (.generalTag t)
  assert (found = false) func "!elem_find(&thread_ready_list, &thread->general_tag)"
  let links ← listAppend linkHeap s.links (plist .ready) (.generalTag t)
  .ok { s with links }

/-- The new thread goes on the list of all threads. -/
def enlistAll (s : State T S) (t : T) (func tag : String) : Except Halt (State T S) := do
  let found ← s.elemFind .all (.allListTag t)
  assert (found = false) func s!"!elem_find(&thread_all_list, &{tag}->all_list_tag)"
  let links ← listAppend linkHeap s.links (plist .all) (.allListTag t)
  .ok { s with links }

/-- `thread_start`; `t` is the page it got for the new thread. -/
def threadStart (s : State T S) (t : T) (prio : ℕ) : Except Halt (State T S) := do
  let s := initThread s t .ready prio
  let s ← enlistReady s t "thread_start"
  let found ← s.elemFind .ready (.generalTag t)
  assert (found = true) "thread_start" "elem_find(&thread_ready_list, &thread->general_tag)"
  enlistAll s t "thread_start" "thread"

def defaultPrio : ℕ := 10

/-- `process_execute`, as far as the scheduler is concerned. -/
def processExecute (s : State T S) (t : T) : Except Halt (State T S) := do
  let s := initThread s t .ready defaultPrio
  let s ← enlistReady s t "process_execute"
  enlistAll s t "process_execute" "thread"

/-- `make_main_thread`. -/
def makeMainThread (s : State T S) : Except Halt (State T S) :=
  enlistAll (initThread s s.cur .running 31) s.cur "make_main_thread" "main_thread"

/-- `thread_init`, run by the thread `s.cur`; `idle` is the page for the idle thread. -/
def threadInit (s : State T S) (idle : T) : Except Halt (State T S) := do
  let links ← listInit linkHeap s.links (plist .ready)
  let links ← listInit linkHeap links (plist .all)
  let s ← makeMainThread { s with links }
  let s ← threadStart s idle 10
  .ok { s with idleThread := idle }

/-- `thread_unblock`. -/
def threadUnblock (s : State T S) (t : T) : Except Halt (State T S) := do
  assert (s.task t).status.IsBlocked "thread_unblock"
    "((pthread->status == TASK_BLOCKED) || (pthread->status== TASK_WAITING) || (pthread->status == TASK_HANGING))"
  if (s.task t).status ≠ .ready then do
    let found ← s.elemFind .ready (.generalTag t)
    assert (found = false) "thread_unblock"
      "!elem_find(&thread_ready_list, &pthread->general_tag)"
    let found ← s.elemFind .ready (.generalTag t)
    if found then
      .error (.panic "thread_unblock" "thread_unblock: blocked thread in ready_list\n")
    else do
      let links ← listPush linkHeap s.links (plist .ready) (.generalTag t)
      .ok ({ s with links }.setStatus t .ready)
  else .ok s

/-- The first half of `schedule`: a thread that is still running goes to the end of the ready
list. -/
def requeue (s : State T S) : Except Halt (State T S) :=
  if (s.task s.cur).status = .running then do
    let found ← s.elemFind .ready (.generalTag s.cur)
    assert (found = false) "schedule" "!elem_find(&thread_ready_list, &cur->general_tag)"
    let links ← listAppend linkHeap s.links (plist .ready) (.generalTag s.cur)
    let cur := s.task s.cur
    .ok { s with
      links
      task := Function.update s.task s.cur { cur with ticks := cur.priority, status := .ready } }
  else .ok s

/-- The end of `schedule`: the first thread of the ready list gets the CPU. -/
def takeNext (s : State T S) : Except Halt (State T S) := do
  let (links, threadTag) ← listPop linkHeap s.links (plist .ready)
  let next ← elem2entry threadTag
  .ok { { s with links }.setStatus next .running with cur := next }

/-- The second half of `schedule`: the idle thread fills an empty ready list. -/
def dispatch (s : State T S) : Except Halt (State T S) := do
  let empty ← listEmpty linkHeap s.links (plist .ready)
  let s ← if empty then threadUnblock s s.idleThread else .ok s
  takeNext s

def schedule (s : State T S) : Except Halt (State T S) := do
  let s ← requeue s
  dispatch s

/-- `thread_block`. -/
def threadBlock (s : State T S) (stat : TaskStatus) : Except Halt (State T S) := do
  assert stat.IsBlocked "thread_block"
    "((stat == TASK_BLOCKED) || (stat == TASK_WAITING) || (stat == TASK_HANGING))"
  schedule (s.setStatus s.cur stat)

/-- `thread_yield`. -/
def threadYield (s : State T S) : Except Halt (State T S) := do
  let found ← s.elemFind .ready (.generalTag s.cur)
  assert (found = false) "thread_yield" "!elem_find(&thread_ready_list, &cur->general_tag)"
  let links ← listAppend linkHeap s.links (plist .ready) (.generalTag s.cur)
  schedule ({ s with links }.setStatus s.cur .ready)

/-! ## `thread/sync.c` and `device/timer.c` -/

/-- One pass of the loop of `sema_down`, up to the next switch or to the end of the function. -/
def semaDown (s : State T S) (k : S) : Except Halt (State T S) :=
  if s.value k = 0 then do
    let found ← s.elemFind (.waiters k) (.generalTag s.cur)
    assert (found = false) "sema_down"
      "!elem_find(&psema->waiters, &running_thread()->general_tag)"
    let found ← s.elemFind (.waiters k) (.generalTag s.cur)
    if found then
      .error (.panic "sema_down" "sema_down: thread blocked has been in waiters_list\n")
    else do
      let links ← listAppend linkHeap s.links (plist (.waiters k)) (.generalTag s.cur)
      threadBlock { s with links, pc := Function.update s.pc s.cur (.down k) } .blocked
  else do
    let s := { s with value := Function.update s.value k (s.value k - 1) }
    assert (s.value k = 0) "sema_down" "psema->value == 0"
    .ok { s with pc := Function.update s.pc s.cur .normal }

/-- `sema_up`. -/
def semaUp (s : State T S) (k : S) : Except Halt (State T S) := do
  assert (s.value k = 0) "sema_up" "psema->value == 0"
  let empty ← listEmpty linkHeap s.links (plist (.waiters k))
  let s ← (if ¬empty then do
      let (links, elem) ← listPop linkHeap s.links (plist (.waiters k))
      let threadBlocked ← elem2entry elem
      threadUnblock { s with links } threadBlocked
    else .ok s : Except Halt (State T S))
  let s := { s with value := Function.update s.value k ((s.value k + 1) % 2 ^ 8) }
  assert (s.value k = 1) "sema_up" "psema->value == 1"
  .ok s

/-- `intr_timer_handler`. -/
def intrTimerHandler (s : State T S) : Except Halt (State T S) := do
  let cur := s.task s.cur
  assert (cur.stackMagic = 0x12345678) "intr_timer_handler" "cur_thread->stack_magic == 0x12345678"
  let cur := { cur with elapsedTicks := (cur.elapsedTicks + 1) % 2 ^ 32 }
  let s := { s with ticks := (s.ticks + 1) % 2 ^ 32, task := Function.update s.task s.cur cur }
  if cur.ticks = 0 then schedule s
  else .ok { s with task := Function.update s.task s.cur { cur with ticks := cur.ticks - 1 } }

/-! ## The kernel -/

inductive Event (T S : Type) where
  /-- `thread_start`, on a page that was free. -/
  | start (t : T) (prio : ℕ)
  /-- `process_execute`, on a page that was free. -/
  | execute (t : T)
  | timer
  | block (stat : TaskStatus)
  | unblock (t : T)
  | yield
  | down (k : S)
  | up (k : S)
  /-- The running thread goes on in `sema_down`. -/
  | resume

/-- The steps that are not made by an interrupt handler. -/
def Event.byThread : Event T S → Bool
  | .timer | .unblock _ | .up _ => false
  | _ => true

/-- Which steps can be made.  A thread in `sema_down` has interrupts disabled and goes on there.
The idle thread only blocks itself. -/
def Enabled (s : State T S) (e : Event T S) : Prop :=
  match s.pc s.cur with
  | .down _ => match e with
    | .resume => True
    | _ => False
  | .normal =>
    (s.cur = s.idleThread → e.byThread = true → match e with
      | .block stat => stat = .blocked
      | _ => False) ∧
    match e with
    | .start t _ => t ∉ s.threads
    | .execute t => t ∉ s.threads
    | .block stat => stat.IsBlocked
    | .unblock t => t ∈ s.threads ∧ t ≠ s.idleThread ∧ (s.task t).status.IsBlocked ∧
        s.pc t = .normal
    | .up k => s.value k = 0
    | .timer | .yield | .down _ => True
    | .resume => False

instance (s : State T S) (e : Event T S) : Decidable (Enabled s e) := by
  unfold Enabled
  cases s.pc s.cur <;> cases e <;> infer_instance

def exec (s : State T S) : Event T S → Except Halt (State T S)
  | .start t prio => threadStart s t prio
  | .execute t => processExecute s t
  | .timer => intrTimerHandler s
  | .block stat => threadBlock s stat
  | .unblock t => threadUnblock s t
  | .yield => threadYield s
  | .down k => semaDown s k
  | .up k => semaUp s k
  | .resume => match s.pc s.cur with
    | .down k => semaDown s k
    | .normal => .ok s

def machine (T S : Type) [DecidableEq T] [DecidableEq S] :
    Machine (State T S) (Event T S) Halt where
  step s e := if Enabled s e then some (exec s e) else none

/-- Before `thread_init`: the semaphores are initialised with the values `v`, the thread `main`
runs, and no thread has been created. -/
def boot (main : T) (v : S → ℕ) (task : T → Task) : State T S where
  links :=
    { prev := fun
        | .tail (.waiters k) => .head (.waiters k)
        | _ => .null
      next := fun
        | .head (.waiters k) => .tail (.waiters k)
        | _ => .null }
  task := task
  cur := main
  idleThread := main
  value := v
  pc _ := .normal
  ticks := 0
  threads := []

end HcOs.Sched
