import HcOs.Thread.Schedule

/-!
# The interrupt flag (`kernel/interrupt.c` and the functions that disable interrupts)

The interrupt flag is one bit of the CPU.  `switch_to` does not save it: a function that disables
interrupts keeps the flag of its caller in a local variable, across a switch of any length.

Each thread has a stack of entries: the calls it is in, the interrupt handlers it has been
interrupted by, and at the bottom its own code, which is arbitrary.  A function is the list of its
statements; those between `intr_disable` and `intr_set_status` may call other functions.  An
interrupt may strike before any statement while the flag is set.

* `flag_restored`: every call returns with the flag as it was at the call, and `schedule` is entered
  with interrupts disabled only.
-/

namespace HcOs.IntrFlag

open HcOs.Lib HcOs.Sched

variable {T S : Type}

/-- The functions that disable interrupts, `schedule` and the handler of the timer. -/
inductive Fn (T S : Type) where
  | listInsertBefore (before elem : Node T S)
  | listRemove (pelem : Node T S)
  | schedule
  | threadBlock (stat : TaskStatus)
  | threadUnblock (pthread : T)
  | threadYield
  | semaDown (psema : S)
  | semaUp (psema : S)
  | intrTimerHandler

/-- A statement that neither reads nor writes the flag.  The first argument of `setTask` and `call`
is the local variable that holds the result of `list_pop`. -/
inductive Simple (T S : Type) where
  /-- An `ASSERT` or a `PANIC` on the data. -/
  | check (c : Sched.State T S → Except Halt Unit)
  | setLinks (f : Sched.State T S → Except Halt (Links T S))
  | setTask (f : Node T S → Sched.State T S → Except Halt (T → Task))
  | setValue (f : Sched.State T S → S → ℕ)
  /-- `ticks++`. -/
  | tick
  /-- `elem = plist->head.next` of `list_pop`. -/
  | loadFirst (l : ListId S)
  | call (f : Node T S → Sched.State T S → Except Halt (Fn T S))

inductive Stmt (T S : Type) where
  | simple (x : Simple T S)
  | ite (c : Sched.State T S → Except Halt Bool) (yes no : List (Simple T S))
  | while (c : Sched.State T S → Except Halt Bool) (block : List (Simple T S))
  /-- `old_status = intr_disable()`. -/
  | disable
  /-- The `cli` of `intr_disable`, after it has found the flag set. -/
  | cli
  /-- `intr_set_status(old_status)`. -/
  | restore
  /-- `ASSERT(intr_get_status() == INTR_OFF)`. -/
  | assertOff
  | switchTo

/-- A call that has not returned yet. -/
structure Frame (T S : Type) where
  fn : Fn T S
  /-- The flag at the call. -/
  entry : Bool
  /-- The local variable `old_status`. -/
  oldStatus : Bool
  /-- The result of `list_pop`. -/
  elem : Node T S
  /-- The statements to come. -/
  todo : List (Stmt T S)

inductive Entry (T S : Type) where
  | call (f : Frame T S)
  /-- A handler, with the flag its `iret` restores; its own code is arbitrary. -/
  | handler (saved : Bool)
  /-- A new thread, before the `intr_enable` of `kernel_thread`. -/
  | start

structure State (T S : Type) where
  /-- The lists, the tasks, the semaphores, and `running_thread()`. -/
  data : Sched.State T S
  intr : Bool
  stack : T → List (Entry T S)

inductive Event (T S : Type) where
  /-- The running thread executes its next statement, or returns. -/
  | step
  /-- The own code of a thread or of a handler calls a function. -/
  | call (fn : Fn T S)
  /-- Own code executes `sti` or `cli`. -/
  | setIntr (b : Bool)
  /-- Own code changes the data. -/
  | own (d : Sched.State T S)
  /-- Own code makes the stack of a new thread in a free page (`thread_create`). -/
  | create (t : T)
  | timer
  /-- Another interrupt of a device. -/
  | interrupt
  /-- `int 0x80`. -/
  | syscall
  | iret

/-! ## The functions -/

variable [DecidableEq T] [DecidableEq S]

/-- `ASSERT(!elem_find(...))`. -/
def notFound (l : ListId S) (t : Sched.State T S → T) (func condition : String) : Simple T S :=
  .check fun d => do
    let found ← d.elemFind l (.generalTag (t d))
    assert (found = false) func condition

/-- `list_append(plist, &t->general_tag)`. -/
def append (l : ListId S) (t : Sched.State T S → T) : Simple T S :=
  .call fun _ d => .ok (.listInsertBefore (.tail l) (.generalTag (t d)))

/-- `list_push(plist, &t->general_tag)`. -/
def push (l : ListId S) (t : T) : Simple T S :=
  .call fun _ d => do
    let first ← liftFault (linkHeap.getNext d.links (.head l))
    .ok (.listInsertBefore first (.generalTag t))

/-- `list_remove(elem)` of `list_pop`. -/
def popRemove : Simple T S := .call fun elem _ => .ok (.listRemove elem)

/-- A change of the `task_struct` of one thread. -/
def modifyTask (t : Sched.State T S → T) (f : Task → Task) : Simple T S :=
  .setTask fun _ d => .ok (Function.update d.task (t d) (f (d.task (t d))))

/-- The statements of a function; the running thread is `cur` of the data whenever they are
executed. -/
def body : Fn T S → List (Stmt T S)
  | .listInsertBefore before elem =>
    [.disable,
      .simple (.setLinks fun d => liftFault (linkHeap.insertBefore d.links before elem)),
      .restore]
  | .listRemove pelem =>
    [.disable, .simple (.setLinks fun d => listRemove linkHeap d.links pelem), .restore]
  | .schedule =>
    [.assertOff,
      .ite (fun d => .ok ((d.task d.cur).status = .running))
        [notFound .ready (·.cur) "schedule" "!elem_find(&thread_ready_list, &cur->general_tag)",
          append .ready (·.cur),
          modifyTask (·.cur) fun cur => { cur with ticks := cur.priority },
          modifyTask (·.cur) fun cur => { cur with status := .ready }] [],
      .ite (fun d => listEmpty linkHeap d.links (plist .ready))
        [.call fun _ d => .ok (.threadUnblock d.idleThread)] [],
      .simple (.loadFirst .ready),
      .simple popRemove,
      .simple (.setTask fun elem d => do
        let next ← elem2entry elem
        .ok (d.setStatus next .running).task),
      .switchTo]
  | .threadBlock stat =>
    [.simple (.check fun _ => assert stat.IsBlocked "thread_block"
        "((stat == TASK_BLOCKED) || (stat == TASK_WAITING) || (stat == TASK_HANGING))"),
      .disable,
      .simple (modifyTask (·.cur) fun cur => { cur with status := stat }),
      .simple (.call fun _ _ => .ok .schedule),
      .restore]
  | .threadUnblock pthread =>
    [.disable,
      .simple (.check fun d => assert (d.task pthread).status.IsBlocked "thread_unblock"
        "((pthread->status == TASK_BLOCKED) || (pthread->status== TASK_WAITING) || (pthread->status == TASK_HANGING))"),
      .ite (fun d => .ok ((d.task pthread).status ≠ .ready))
        [notFound .ready (fun _ => pthread) "thread_unblock"
            "!elem_find(&thread_ready_list, &pthread->general_tag)",
          notFound .ready (fun _ => pthread) "thread_unblock"
            "thread_unblock: blocked thread in ready_list\n",
          push .ready pthread,
          modifyTask (fun _ => pthread) fun task => { task with status := .ready }] [],
      .restore]
  | .threadYield =>
    [.disable,
      .simple (notFound .ready (·.cur) "thread_yield"
        "!elem_find(&thread_ready_list, &cur->general_tag)"),
      .simple (append .ready (·.cur)),
      .simple (modifyTask (·.cur) fun cur => { cur with status := .ready }),
      .simple (.call fun _ _ => .ok .schedule),
      .restore]
  | .semaDown psema =>
    [.disable,
      .while (fun d => .ok (d.value psema = 0))
        [notFound (.waiters psema) (·.cur) "sema_down"
            "!elem_find(&psema->waiters, &running_thread()->general_tag)",
          notFound (.waiters psema) (·.cur) "sema_down"
            "sema_down: thread blocked has been in waiters_list\n",
          append (.waiters psema) (·.cur),
          .call fun _ _ => .ok (.threadBlock .blocked)],
      .simple (.setValue fun d => Function.update d.value psema (d.value psema - 1)),
      .simple (.check fun d => assert (d.value psema = 0) "sema_down" "psema->value == 0"),
      .restore]
  | .semaUp psema =>
    [.disable,
      .simple (.check fun d => assert (d.value psema = 0) "sema_up" "psema->value == 0"),
      .ite (fun d => do
          let empty ← listEmpty linkHeap d.links (plist (.waiters psema))
          .ok !empty)
        [.loadFirst (.waiters psema),
          popRemove,
          .call fun elem _ => do
            let threadBlocked ← elem2entry elem
            .ok (.threadUnblock threadBlocked)] [],
      .simple (.setValue fun d => Function.update d.value psema ((d.value psema + 1) % 2 ^ 8)),
      .simple (.check fun d => assert (d.value psema = 1) "sema_up" "psema->value == 1"),
      .restore]
  | .intrTimerHandler =>
    [.simple (.check fun d => assert ((d.task d.cur).stackMagic = 0x12345678) "intr_timer_handler"
        "cur_thread->stack_magic == 0x12345678"),
      .simple (modifyTask (·.cur) fun cur =>
        { cur with elapsedTicks := (cur.elapsedTicks + 1) % 2 ^ 32 }),
      .simple .tick,
      .ite (fun d => .ok ((d.task d.cur).ticks = 0))
        [.call fun _ _ => .ok .schedule]
        [modifyTask (·.cur) fun cur => { cur with ticks := cur.ticks - 1 }]]

/-! ## The machine -/

/-- A simple statement: the data and the local variable after it, and the function it calls. -/
def Simple.run (d : Sched.State T S) (elem : Node T S) :
    Simple T S → Except Halt (Sched.State T S × Node T S × Option (Fn T S))
  | .check c => do
    c d
    .ok (d, elem, none)
  | .setLinks f => do
    let links ← f d
    .ok ({ d with links }, elem, none)
  | .setTask f => do
    let task ← f elem d
    .ok ({ d with task }, elem, none)
  | .setValue f => .ok ({ d with value := f d }, elem, none)
  | .tick => .ok ({ d with ticks := (d.ticks + 1) % 2 ^ 32 }, elem, none)
  | .loadFirst l => do
    let first ← liftFault (linkHeap.getNext d.links (.head l))
    .ok (d, first, none)
  | .call f => do
    let fn ← f elem d
    .ok (d, elem, some fn)

/-- The entry of a call made with the flag `b`. -/
def enter (fn : Fn T S) (b : Bool) : Entry T S := .call ⟨fn, b, false, .null, body fn⟩

def State.setStack (s : State T S) (es : List (Entry T S)) : State T S :=
  { s with stack := Function.update s.stack s.data.cur es }

/-- The next statement of the call `f`, with the entries `es` below it. -/
def stmt (s : State T S) (f : Frame T S) (es : List (Entry T S)) : Except Halt (State T S) :=
  match f.todo with
  | [] => .ok (s.setStack es)
  | .simple x :: rest => do
    let (d, elem, fn) ← x.run s.data f.elem
    let es := .call { f with elem, todo := rest } :: es
    .ok ({ s with data := d }.setStack ((fn.map (enter · s.intr)).toList ++ es))
  | .ite c yes no :: rest => do
    let b ← c s.data
    .ok (s.setStack (.call { f with todo := (if b then yes else no).map .simple ++ rest } :: es))
  | .while c block :: rest => do
    let b ← c s.data
    let todo := if b then block.map .simple ++ .while c block :: rest else rest
    .ok (s.setStack (.call { f with todo } :: es))
  | .disable :: rest =>
    let todo := if s.intr then .cli :: rest else rest
    .ok (s.setStack (.call { f with oldStatus := s.intr, todo } :: es))
  | .cli :: rest => .ok ({ s with intr := false }.setStack (.call { f with todo := rest } :: es))
  | .restore :: rest =>
    if f.oldStatus then
      .ok ({ s with intr := true }.setStack (.call { f with todo := rest } :: es))
    else
      let todo := if s.intr then .cli :: rest else rest
      .ok (s.setStack (.call { f with todo } :: es))
  | .assertOff :: rest => do
    assert (s.intr = false) "schedule" "intr_get_status() == INTR_OFF"
    .ok (s.setStack (.call { f with todo := rest } :: es))
  | .switchTo :: rest => do
    let next ← elem2entry f.elem
    let s := s.setStack (.call { f with todo := rest } :: es)
    .ok { s with data := { s.data with cur := next } }

/-- The functions that own code calls. -/
def Fn.Callable : Fn T S → Prop
  | .schedule | .intrTimerHandler => False
  | _ => True

instance (fn : Fn T S) : Decidable fn.Callable :=
  match fn with
  | .schedule | .intrTimerHandler => isFalse id
  | .listInsertBefore .. | .listRemove _ | .threadBlock _ | .threadUnblock _ | .threadYield
  | .semaDown _ | .semaUp _ => isTrue trivial

/-- The own code of the thread, or of a handler it is in, runs. -/
def Own : List (Entry T S) → Prop
  | [] | .handler _ :: _ => True
  | _ => False

instance (es : List (Entry T S)) : Decidable (Own es) :=
  match es with
  | [] | .handler _ :: _ => isTrue trivial
  | .call _ :: _ | .start :: _ => isFalse id

/-- What the own code of a thread or of a handler does, or the next statement of a call; interrupts
of devices strike while the flag is set. -/
def machine (T S : Type) [DecidableEq T] [DecidableEq S] :
    Machine (State T S) (Event T S) Halt where
  step s e :=
    let es := s.stack s.data.cur
    match e with
    | .step =>
      match es with
      | .call f :: es => some (stmt s f es)
      | .start :: es => some (.ok ({ s with intr := true }.setStack es))
      | _ => none
    | .call fn =>
      if Own es ∧ fn.Callable then some (.ok (s.setStack (enter fn s.intr :: es))) else none
    | .setIntr b => if Own es then some (.ok { s with intr := b }) else none
    | .own d => if Own es then some (.ok { s with data := { d with cur := s.data.cur } }) else none
    | .create t =>
      if Own es ∧ t ≠ s.data.cur ∧ (s.stack t).isEmpty then
        some (.ok { s with stack := Function.update s.stack t [.start] })
      else none
    | .timer =>
      if s.intr then
        some (.ok ({ s with intr := false }.setStack
          (enter .intrTimerHandler false :: .handler true :: es)))
      else none
    | .interrupt =>
      if s.intr then some (.ok ({ s with intr := false }.setStack (.handler true :: es))) else none
    | .syscall =>
      if Own es then some (.ok ({ s with intr := false }.setStack (.handler s.intr :: es)))
      else none
    | .iret =>
      match es with
      | .handler saved :: es => some (.ok ({ s with intr := saved }.setStack es))
      | _ => none

/-- The own code of the thread `d.cur` runs with the flag `b`, and there is no other thread yet. -/
def init (d : Sched.State T S) (b : Bool) : State T S := ⟨d, b, fun _ => []⟩

/-! ## The invariant -/

/-- A statement that leaves the flag and the thread that runs alone. -/
def Stmt.Neutral : Stmt T S → Prop
  | .simple _ | .ite .. | .while .. => True
  | _ => False

/-- What follows `intr_disable`. -/
inductive Guarded : List (Stmt T S) → Prop
  | restore : Guarded [.restore]
  | cons {x rest} : x.Neutral → Guarded rest → Guarded (x :: rest)

/-- A function up to its `intr_disable`: it makes no call before. -/
inductive Unguarded : List (Stmt T S) → Prop
  | disable {rest} : Guarded rest → Unguarded (.disable :: rest)
  | check {c rest} : Unguarded rest → Unguarded (.simple (.check c) :: rest)

/-- The statements of the functions that run with interrupts disabled from the start. -/
inductive Off : List (Stmt T S) → Prop
  | nil : Off []
  | cons {x rest} : x.Neutral → Off rest → Off (x :: rest)
  | assertOff {rest} : Off rest → Off (.assertOff :: rest)
  | switchTo {rest} : Off rest → Off (.switchTo :: rest)

/-- How far the call is, and the flag it has then. -/
inductive Stage (b : Bool) (f : Frame T S) : Prop
  | before : Unguarded f.todo → b = f.entry → Stage b f
  /-- Between the test and the `cli` of `intr_disable`. -/
  | disabling {rest} : f.todo = .cli :: rest → Guarded rest → f.entry = true →
      f.oldStatus = true → Stage b f
  | guarded : Guarded f.todo → f.oldStatus = f.entry → b = false → Stage b f
  | returns : f.todo = [] → b = f.entry → Stage b f
  | off : Off f.todo → f.entry = false → b = false → Stage b f

/-- The entries are in order for the flag `b`: each call is, and what is below it is for the flag
the call returns with. -/
def StackOk : Bool → List (Entry T S) → Prop
  | _, [] => True
  | b, .call f :: es => Stage b f ∧ (f.fn = .schedule → f.entry = false) ∧ StackOk f.entry es
  | _, .handler saved :: es => StackOk saved es
  | _, .start :: es => es = []

/-- A thread that does not run goes on with interrupts disabled. -/
structure Inv (s : State T S) : Prop where
  running : StackOk s.intr (s.stack s.data.cur)
  suspended : ∀ t, t ≠ s.data.cur → StackOk false (s.stack t)

omit [DecidableEq T] [DecidableEq S] in
theorem inv_init (d : Sched.State T S) (b : Bool) : Inv (init d b) := ⟨trivial, fun _ _ => trivial⟩

variable {s s' : State T S} {f : Frame T S} {es : List (Entry T S)} {b : Bool}

omit [DecidableEq T] [DecidableEq S] in
theorem Guarded.append {xs rest : List (Stmt T S)} (hxs : ∀ x ∈ xs, x.Neutral)
    (h : Guarded rest) : Guarded (xs ++ rest) := by
  induction xs with
  | nil => exact h
  | cons x xs ih =>
    exact .cons (hxs x List.mem_cons_self) (ih fun y hy => hxs y (List.mem_cons_of_mem x hy))

omit [DecidableEq T] [DecidableEq S] in
theorem Off.append {xs rest : List (Stmt T S)} (hxs : ∀ x ∈ xs, x.Neutral) (h : Off rest) :
    Off (xs ++ rest) := by
  induction xs with
  | nil => exact h
  | cons x xs ih =>
    exact .cons (hxs x List.mem_cons_self) (ih fun y hy => hxs y (List.mem_cons_of_mem x hy))

/-- The functions that own code calls disable interrupts and restore the flag. -/
theorem unguarded_body {fn : Fn T S} (h : fn.Callable) : Unguarded (body fn) := by
  cases fn with
  | schedule => exact h.elim
  | intrTimerHandler => exact h.elim
  | threadBlock stat =>
    exact .check (.disable (.cons trivial (.cons trivial .restore)))
  | listInsertBefore before elem => exact .disable (.cons trivial .restore)
  | listRemove pelem => exact .disable (.cons trivial .restore)
  | threadUnblock pthread => exact .disable (.cons trivial (.cons trivial .restore))
  | threadYield =>
    exact .disable (.cons trivial (.cons trivial (.cons trivial (.cons trivial .restore))))
  | semaDown psema => exact .disable (.cons trivial (.cons trivial (.cons trivial .restore)))
  | semaUp psema =>
    exact .disable (.cons trivial (.cons trivial (.cons trivial (.cons trivial .restore))))

theorem off_body {fn : Fn T S} (h : ¬fn.Callable) : Off (body fn) := by
  cases fn with
  | schedule =>
    exact .assertOff (.cons trivial (.cons trivial (.cons trivial (.cons trivial
      (.cons trivial (.switchTo .nil))))))
  | intrTimerHandler =>
    exact .cons trivial (.cons trivial (.cons trivial (.cons trivial .nil)))
  | _ => exact absurd trivial h

/-- A call by own code. -/
theorem stackOk_enter {fn : Fn T S} (h : fn.Callable) (hes : StackOk b es) :
    StackOk b (enter fn b :: es) := by
  refine ⟨.before (unguarded_body h) rfl, ?_, hes⟩
  rintro rfl
  exact h.elim

/-- With interrupts disabled every function can be called. -/
theorem stackOk_enter_off (fn : Fn T S) (hes : StackOk false es) :
    StackOk false (enter fn false :: es) := by
  by_cases h : fn.Callable
  · exact stackOk_enter h hes
  · exact ⟨.off (off_body h) rfl rfl, fun _ => rfl, hes⟩

/-! ## One step -/

omit [DecidableEq S] in
/-- A step that changes the entries of the running thread. -/
theorem Inv.update (hi : Inv s) {d : Sched.State T S} (hcur : d.cur = s.data.cur)
    (hes : StackOk b es) : Inv ⟨d, b, Function.update s.stack d.cur es⟩ where
  running := by simpa only [Function.update_self] using hes
  suspended t ht := by
    have hne : t ≠ d.cur := ht
    simpa only [Function.update_of_ne hne] using hi.suspended t (hcur ▸ hne)

omit [DecidableEq S] in
/-- `switch_to`: interrupts are disabled, so any thread can go on. -/
theorem Inv.switch (hi : Inv s) (hes : StackOk false es) (next : T) :
    Inv ⟨{ s.data with cur := next }, false, Function.update s.stack s.data.cur es⟩ := by
  have hall : ∀ t, StackOk false (Function.update s.stack s.data.cur es t) := by
    intro t
    by_cases ht : t = s.data.cur
    · rw [ht, Function.update_self]
      exact hes
    · rw [Function.update_of_ne ht]
      exact hi.suspended t ht
  exact ⟨hall next, fun t _ => hall t⟩

theorem Simple.run_cur {x : Simple T S} {d d' : Sched.State T S} {elem elem' : Node T S}
    {fn : Option (Fn T S)} (h : x.run d elem = .ok (d', elem', fn)) : d'.cur = d.cur := by
  cases x <;> simp only [Simple.run, bind_eq_ok, Except.ok.injEq, Prod.mk.injEq] at h
  case setValue => rw [← h.1]
  case tick => rw [← h.1]
  all_goals
    obtain ⟨_, -, h, -⟩ := h
    rw [← h]

/-- A statement that is neutral puts at most a call before what follows it. -/
theorem stmt_neutral {x : Stmt T S} {rest : List (Stmt T S)} (htodo : f.todo = x :: rest)
    (hx : x.Neutral) (h : stmt s f es = .ok s') :
    ∃ d elem ys fn, d.cur = s.data.cur ∧ (∀ y ∈ ys, Stmt.Neutral y) ∧
      s' = ⟨d, s.intr, Function.update s.stack d.cur ((Option.map (enter · s.intr) fn).toList ++
        .call { f with elem, todo := ys ++ rest } :: es)⟩ := by
  have hsimple : ∀ (xs : List (Simple T S)), ∀ y ∈ xs.map Stmt.simple, Stmt.Neutral y := by
    intro xs y hy
    obtain ⟨x, -, rfl⟩ := List.mem_map.mp hy
    trivial
  simp only [stmt, htodo] at h
  cases x with
  | simple x =>
    obtain ⟨⟨d, elem, fn⟩, hrun, h⟩ := bind_eq_ok.mp h
    cases h
    exact ⟨d, elem, [], fn, Simple.run_cur hrun, by simp, rfl⟩
  | ite c yes no =>
    obtain ⟨b, -, h⟩ := bind_eq_ok.mp h
    cases h
    exact ⟨s.data, f.elem, _, none, rfl, hsimple _, rfl⟩
  | «while» c block =>
    obtain ⟨b, -, h⟩ := bind_eq_ok.mp h
    cases h
    cases b with
    | false => exact ⟨s.data, f.elem, [], none, rfl, by simp, rfl⟩
    | true =>
      refine ⟨s.data, f.elem, block.map .simple ++ [.while c block], none, rfl, fun y hy => ?_, ?_⟩
      · rcases List.mem_append.mp hy with hy | hy
        · exact hsimple _ y hy
        · rw [List.mem_singleton.mp hy]
          trivial
      · rw [List.append_assoc]
        rfl
  | _ => exact hx.elim

/-- The next statement of a call of the running thread. -/
theorem stmt_inv (hi : Inv s) (hstack : s.stack s.data.cur = .call f :: es)
    (h : stmt s f es = .ok s') : Inv s' := by
  have hok := hi.running
  rw [hstack] at hok
  obtain ⟨hstage, hsched, hes⟩ := hok
  -- A neutral statement with interrupts disabled; `P` says that the call is as far as before it.
  have hneutral : ∀ {P : List (Stmt T S) → Prop} {x rest}, s.intr = false → f.todo = x :: rest →
      x.Neutral → P rest → (∀ xs rest, (∀ y ∈ xs, Stmt.Neutral y) → P rest → P (xs ++ rest)) →
      (∀ elem todo, P todo → Stage false { f with elem, todo }) → Inv s' := by
    intro P x rest hoff htodo hx hrest happend hP
    obtain ⟨d, elem, ys, fn, hcur, hys, rfl⟩ := stmt_neutral htodo hx h
    apply hi.update hcur
    have hbelow : StackOk false (.call { f with elem, todo := ys ++ rest } :: es) :=
      ⟨hP elem _ (happend ys rest hys hrest), hsched, hes⟩
    rw [hoff]
    cases fn with
    | none => exact hbelow
    | some fn => exact stackOk_enter_off fn hbelow
  cases hstage with
  | before hun hb =>
    generalize htodo : f.todo = todo at hun
    cases hun with
    | disable hrest =>
      simp only [stmt, htodo] at h
      cases h
      cases hintr : s.intr with
      | true => exact hi.update rfl ⟨.disabling rfl hrest (hb.symm.trans hintr) rfl, hsched, hes⟩
      | false => exact hi.update rfl ⟨.guarded hrest (hintr.symm.trans hb) hintr, hsched, hes⟩
    | check hrest =>
      simp only [stmt, htodo, Simple.run] at h
      obtain ⟨⟨d, elem, fn⟩, hrun, h⟩ := bind_eq_ok.mp h
      obtain ⟨-, -, hrun⟩ := bind_eq_ok.mp hrun
      cases hrun
      cases h
      exact hi.update rfl ⟨.before hrest hb, hsched, hes⟩
  | disabling htodo hrest hentry hold =>
    simp only [stmt, htodo] at h
    cases h
    exact hi.update rfl ⟨.guarded hrest (hold.trans hentry.symm) rfl, hsched, hes⟩
  | guarded hg hold hb =>
    generalize htodo : f.todo = todo at hg
    cases hg with
    | restore =>
      simp only [stmt, htodo, hb] at h
      cases hold' : f.oldStatus with
      | true =>
        rw [hold'] at h
        cases h
        exact hi.update rfl ⟨.returns rfl (hold'.symm.trans hold), hsched, hes⟩
      | false =>
        rw [hold'] at h
        cases h
        exact hi.update rfl ⟨.returns rfl (hb.trans (hold'.symm.trans hold)), hsched, hes⟩
    | cons hx hrest =>
      exact hneutral hb htodo hx hrest (fun xs rest hxs h => h.append hxs)
        fun elem todo htodo => .guarded htodo hold rfl
  | returns htodo hb =>
    simp only [stmt, htodo] at h
    cases h
    exact hi.update rfl (hb ▸ hes)
  | off hoff hentry hb =>
    generalize htodo : f.todo = todo at hoff
    cases hoff with
    | nil =>
      simp only [stmt, htodo] at h
      cases h
      exact hi.update rfl (hb.trans hentry.symm ▸ hes)
    | cons hx hrest =>
      exact hneutral hb htodo hx hrest (fun xs rest hxs h => h.append hxs)
        fun elem todo htodo => .off htodo hentry rfl
    | assertOff hrest =>
      simp only [stmt, htodo] at h
      obtain ⟨-, -, h⟩ := bind_eq_ok.mp h
      cases h
      exact hi.update rfl ⟨.off hrest hentry hb, hsched, hes⟩
    | switchTo hrest =>
      simp only [stmt, htodo] at h
      obtain ⟨next, -, h⟩ := bind_eq_ok.mp h
      cases h
      have hbelow : StackOk false (.call { f with todo := _ } :: es) :=
        ⟨.off hrest hentry rfl, hsched, hes⟩
      have hswitch := hi.switch hbelow next
      rw [← hb] at hswitch
      exact hswitch

omit [DecidableEq T] [DecidableEq S] in
/-- Own code may run with any flag. -/
theorem StackOk.own (hes : StackOk b es) (hown : Own es) (b' : Bool) : StackOk b' es := by
  cases es with
  | nil => trivial
  | cons e es =>
    cases e with
    | handler saved => exact hes
    | call f => exact hown.elim
    | start => exact hown.elim

theorem step_inv (hi : Inv s) {e : Event T S} (h : (machine T S).step s e = some (.ok s')) :
    Inv s' := by
  have hrun := hi.running
  cases e with simp only [machine] at h
  | step =>
    split at h
    · next hstack => exact stmt_inv hi hstack (Option.some.inj h)
    · next es hstack =>
      cases h
      rw [hstack] at hrun
      cases hrun
      exact hi.update rfl trivial
    · cases h
  | call fn =>
    split at h
    · next hc =>
      cases h
      exact hi.update rfl (stackOk_enter hc.2 hrun)
    · cases h
  | setIntr b =>
    split at h
    · next hown =>
      cases h
      exact ⟨hrun.own hown b, hi.suspended⟩
    · cases h
  | own d =>
    split at h
    · cases h
      exact ⟨hrun, hi.suspended⟩
    · cases h
  | create t =>
    split at h
    · next hc =>
      obtain ⟨-, hne, -⟩ := hc
      cases h
      refine ⟨?_, fun u hu => ?_⟩
      · simpa only [Function.update_of_ne hne.symm] using hrun
      · by_cases hut : u = t
        · simp only [hut, Function.update_self, StackOk]
        · simpa only [Function.update_of_ne hut] using hi.suspended u hu
    · cases h
  | timer =>
    split at h
    · next hintr =>
      cases h
      exact hi.update rfl (stackOk_enter_off .intrTimerHandler (hintr ▸ hrun))
    · cases h
  | interrupt =>
    split at h
    · next hintr =>
      cases h
      exact hi.update rfl (hintr ▸ hrun)
    · cases h
  | syscall =>
    split at h
    · cases h
      exact hi.update rfl hrun
    · cases h
  | iret =>
    split at h
    · next saved es hstack =>
      cases h
      rw [hstack] at hrun
      exact hi.update rfl hrun
    · cases h

/-! ## Every call -/

omit [DecidableEq T] [DecidableEq S] in
theorem StackOk.schedule (hes : StackOk b es) (hf : .call f ∈ es) (hfn : f.fn = .schedule) :
    f.entry = false := by
  induction es generalizing b with
  | nil => cases hf
  | cons e es ih =>
    cases e with
    | call f' =>
      obtain ⟨-, hsched, hes⟩ := hes
      rcases List.mem_cons.mp hf with h | h
      · cases h
        exact hsched hfn
      · exact ih hes h
    | handler saved =>
      rcases List.mem_cons.mp hf with h | h
      · cases h
      · exact ih hes h
    | start =>
      rw [show es = [] from hes] at hf
      simp at hf

/-- **The interrupt flag is restored.**  In every state that any interleaving of threads and
interrupts reaches: a call of the running thread that is about to return has the flag it was called
with, and every call of `schedule` was made with interrupts disabled. -/
theorem flag_restored {d : Sched.State T S} {evs : List (Event T S)}
    (h : (machine T S).run (init d b) evs = some (.ok s)) :
    (∀ f es, s.stack s.data.cur = .call f :: es → f.todo = [] → s.intr = f.entry) ∧
      ∀ t f, .call f ∈ s.stack t → f.fn = .schedule → f.entry = false := by
  have hi : Inv s := Machine.run_ok (fun _ _ _ hi hs => step_inv hi hs) (inv_init d b) h
  refine ⟨fun f es hstack htodo => ?_, fun t f hf hfn => ?_⟩
  · have hok := hi.running
    rw [hstack] at hok
    obtain ⟨hstage, -, -⟩ := hok
    cases hstage with
    | before hun hb => exact hb
    | disabling hcli =>
      rw [htodo] at hcli
      cases hcli
    | guarded hg =>
      rw [htodo] at hg
      cases hg
    | returns _ hb => exact hb
    | off _ hentry hb => exact hb.trans hentry.symm
  · by_cases ht : t = s.data.cur
    · exact (ht ▸ hi.running).schedule hf hfn
    · exact (hi.suspended t ht).schedule hf hfn

/-- After `thread_init`: the thread `false` runs, the thread `true` is on the ready list. -/
def booted : Sched.State Bool Unit :=
  let d := boot false (fun _ => 1) fun _ => ⟨.died, 0, 0, 0, 0⟩
  (threadInit d true).toOption.getD d

/-- The running thread calls `thread_yield`, with interrupts enabled; the new thread enables
interrupts in `kernel_thread` and yields too. -/
def yields : List (Event Bool Unit) :=
  List.flatten [[.create true, .call .threadYield], List.replicate 22 .step, [.call .threadYield],
    List.replicate 23 .step]

theorem flag_restored_yield :
    ∃ s f, (machine Bool Unit).run (init booted true) yields = some (.ok s) ∧
      s.stack s.data.cur = [.call f] ∧ s.data.cur = false ∧ f.entry = true ∧
      s.intr = f.entry := by
  have htest : (((machine Bool Unit).run (init booted true) yields).any fun r => r.toOption.any
      fun s => !s.data.cur && match s.stack s.data.cur with
        | [.call f] => f.todo.isEmpty && f.entry
        | _ => false) = true := by decide +kernel
  obtain ⟨s, hrun, hs⟩ := (machine Bool Unit).run_of_test htest
  have hall := (flag_restored hrun).1
  simp only [Bool.and_eq_true, Bool.not_eq_true'] at hs
  obtain ⟨hcur, hs⟩ := hs
  split at hs
  · next f hstack =>
    obtain ⟨htodo, hentry⟩ := Bool.and_eq_true_iff.mp hs
    exact ⟨s, f, hrun, hstack, hcur, hentry, hall f [] hstack (List.isEmpty_iff.mp htodo)⟩
  · cases hs

end HcOs.IntrFlag
