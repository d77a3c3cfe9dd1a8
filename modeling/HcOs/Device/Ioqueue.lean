import Mathlib.Data.List.Nodup
import HcOs.Lib.Machine
import HcOs.Thread.Sync

/-!
# The I/O queue (`device/ioqueue.c`)

`ioq_getchar` and `ioq_putchar` are called with interrupts disabled, so a thread gives up the CPU
inside them at two points only: the `thread_block` of `sema_down` inside `lock_acquire`, and the
`thread_block` of `ioq_wait`.  A step of a thread is a call, or the continuation of a call, up to
its next `thread_block` or its return.
-/

namespace HcOs.Ioq

open HcOs.Lib

def bufsize : ℕ := 64

variable {T B : Type}

/-- `struct ioqueue`. -/
structure Ioqueue (T B : Type) where
  lock : Lock T
  producer : Option T
  consumer : Option T
  buf : ℕ → B
  head : ℕ
  tail : ℕ

/-- `ioqueue_init`; it leaves the buffer as it is. -/
def ioqueueInit (buf : ℕ → B) : Ioqueue T B := ⟨lockInit, none, none, buf, 0, 0⟩

def nextPos (pos : ℕ) : ℕ := (pos + 1) % bufsize

def ioqFull (q : Ioqueue T B) : Bool := nextPos q.head = q.tail

def ioqEmpty (q : Ioqueue T B) : Bool := q.head = q.tail

/-- The two calls. -/
inductive Op (B : Type) where
  | getchar
  | putchar (byte : B)

/-- The condition of the waiting loop of a call. -/
def Op.mustWait : Op B → Ioqueue T B → Bool
  | .getchar, q => ioqEmpty q
  | .putchar _, q => ioqFull q

/-- The slot a call waits in: `&ioq->consumer` or `&ioq->producer`. -/
def Op.waiter : Op B → Ioqueue T B → Option T
  | .getchar, q => q.consumer
  | .putchar _, q => q.producer

def Op.setWaiter : Op B → Ioqueue T B → Option T → Ioqueue T B
  | .getchar, q, w => { q with consumer := w }
  | .putchar _, q, w => { q with producer := w }

/-- Where a thread is. -/
inductive Pc (B : Type) where
  | out
  /-- Inside `lock_acquire`, at the `thread_block` of `sema_down`. -/
  | lock (op : Op B)
  /-- At the `thread_block` of `ioq_wait`. -/
  | wait (op : Op B)

structure State (T B : Type) where
  q : Ioqueue T B
  st : Statuses T
  pc : T → Pc B
  /-- The bytes of the completed calls of `ioq_putchar`, in the order of completion. -/
  stored : List B
  /-- The bytes the completed calls of `ioq_getchar` returned, in the order of completion. -/
  fetched : List B

def init (buf : ℕ → B) : State T B where
  q := ioqueueInit buf
  st _ := .ready
  pc _ := .out
  stored := []
  fetched := []

variable [DecidableEq T]

def State.goto (s : State T B) (t : T) (pc : Pc B) : State T B :=
  { s with pc := Function.update s.pc t pc }

/-- `wakeup`, for the slot of the call `op`. -/
def wakeup (s : State T B) (op : Op B) : Except Halt (State T B) := do
  match op.waiter s.q with
  | none => .error (.panic "wakeup" "*waiter != NULL")
  | some w => do
    let st ← threadUnblock s.st w
    .ok { s with st, q := op.setWaiter s.q none }

/-- `ioq_wait` by the thread `t`, up to its `thread_block`. -/
def ioqWait (s : State T B) (t : T) (op : Op B) : Except Halt (State T B) := do
  assert (op.waiter s.q = none) "ioq_wait" "*waiter == NULL && waiter != NULL"
  let s := { s with q := op.setWaiter s.q (some t) }
  let st ← threadBlock s.st t .blocked
  .ok ({ s with st }.goto t (.wait op))

/-- The end of `ioq_getchar`, once the queue is not empty. -/
def fetch (s : State T B) (t : T) : Except Halt (State T B) := do
  let byte := s.q.buf s.q.tail
  let s := { s with q := { s.q with tail := nextPos s.q.tail } }
  let s ← if s.q.producer ≠ none then wakeup s (.putchar byte) else .ok s
  .ok ({ s with fetched := s.fetched ++ [byte] }.goto t .out)

/-- The end of `ioq_putchar`, once the queue is not full. -/
def store (s : State T B) (t : T) (byte : B) : Except Halt (State T B) := do
  let q := { s.q with buf := Function.update s.q.buf s.q.head byte }
  let s := { s with q := { q with head := nextPos q.head } }
  let s ← if s.q.consumer ≠ none then wakeup s .getchar else .ok s
  .ok ({ s with stored := s.stored ++ [byte] }.goto t .out)

/-- The end of a call, once it need not wait. -/
def finish (s : State T B) (t : T) : Op B → Except Halt (State T B)
  | .getchar => fetch s t
  | .putchar byte => store s t byte

/-- The body of the waiting loop from `lock_acquire` on, with the answer of `lock_acquire`. -/
def afterLock (s : State T B) (t : T) (op : Op B) (r : Bool × Statuses T × Lock T) :
    Except Halt (State T B) :=
  let s := { s with st := r.2.1, q := { s.q with lock := r.2.2 } }
  if r.1 then ioqWait s t op else .ok (s.goto t (.lock op))

/-- `ioq_getchar` or `ioq_putchar` from the test of its waiting loop on. -/
def loop (s : State T B) (t : T) (op : Op B) : Except Halt (State T B) :=
  if op.mustWait s.q then do
    let r ← lockAcquire s.st s.q.lock t
    afterLock s t op r
  else finish s t op

def ioqGetchar (s : State T B) (t : T) : Except Halt (State T B) := loop s t .getchar

def ioqPutchar (s : State T B) (t : T) (byte : B) : Except Halt (State T B) :=
  loop s t (.putchar byte)

/-- The continuation of a call after its `thread_block`. -/
def resume (s : State T B) (t : T) : Option (Except Halt (State T B)) :=
  match s.pc t with
  | .out => none
  | .lock op => some (do
      let r ← lockAcquireDown s.st s.q.lock t
      afterLock s t op r)
  | .wait op => some (do
      let (st, lock) ← lockRelease s.st s.q.lock t
      -- while it runs, the place of the thread is not recorded
      loop ({ s with st, q := { s.q with lock } }.goto t .out) t op)

inductive Event (T B : Type) where
  /-- The thread calls `ioq_getchar` or `ioq_putchar`. -/
  | call (t : T) (op : Op B)
  /-- The thread, made ready again, continues its call. -/
  | resume (t : T)

/-- Any thread that is not blocked calls, or continues its call. -/
def machine (T B : Type) [DecidableEq T] : Machine (State T B) (Event T B) Halt where
  step s
    | .call t op =>
      match s.pc t with
      | .out =>
        if s.st t = .ready then
          some (match op with
            | .getchar => ioqGetchar s t
            | .putchar byte => ioqPutchar s t byte)
        else none
      | _ => none
    | .resume t => if s.st t = .ready then resume s t else none

/-! ## Who holds the lock

Between steps the lock is free, or it is held by one thread, which sleeps in `ioq_wait` or has been
woken there and has not run since. -/

/-- The other slot. -/
def Op.otherWaiter : Op B → Ioqueue T B → Option T
  | .getchar, q => q.producer
  | .putchar _, q => q.consumer

/-- The slots while `t` holds the lock in the call `op`. -/
def Slots (s : State T B) (t : T) (op : Op B) : Prop :=
  op.otherWaiter s.q = none ∧
    (s.st t = .ready ∧ op.waiter s.q = none ∨ s.st t = .blocked ∧ op.waiter s.q = some t)

def Owned (s : State T B) : Option T → Prop
  | none => s.q.lock.semaphore.value = 1 ∧ s.q.lock.holder = none ∧
      s.q.lock.holderRepeatNr = 0 ∧ s.q.producer = none ∧ s.q.consumer = none
  | some t => s.q.lock.semaphore.value = 0 ∧ s.q.lock.holder = some t ∧
      s.q.lock.holderRepeatNr = 1 ∧ ∃ op, s.pc t = .wait op ∧ Slots s t op

/-- The lock and the threads, with the thread `o` that holds the lock. -/
structure Sync (o : Option T) (s : State T B) : Prop where
  owned : Owned s o
  idle : ∀ t, o ≠ some t → s.pc t = .out ∨ ∃ op, s.pc t = .lock op
  nodup : s.q.lock.semaphore.waiters.Nodup
  mem_waiters : ∀ t, t ∈ s.q.lock.semaphore.waiters ↔ s.st t = .blocked ∧ ∃ op, s.pc t = .lock op
  status : ∀ t, s.st t = .ready ∨ s.st t = .blocked ∧ s.pc t ≠ .out

omit [DecidableEq T] in
theorem sync_init (buf : ℕ → B) : Sync none (init buf : State T B) where
  owned := ⟨rfl, rfl, rfl, rfl, rfl⟩
  idle _ _ := Or.inl rfl
  nodup := List.nodup_nil
  mem_waiters t := by simp [init, ioqueueInit, lockInit, semaInit]
  status _ := Or.inl rfl

variable {o : Option T} {s : State T B} {t : T}

omit [DecidableEq T] in
theorem not_mem_waiters (hs : Sync o s) (hr : s.st t = .ready) :
    t ∉ s.q.lock.semaphore.waiters := by
  rw [hs.mem_waiters, hr]
  rintro ⟨h, -⟩
  cases h

omit [DecidableEq T] in
/-- The lock is held by the thread that is in `ioq_wait`. -/
theorem owner_iff (hs : Sync o s) : o = some t ↔ ∃ op, s.pc t = .wait op := by
  constructor
  · rintro rfl
    obtain ⟨-, -, -, op, hpc, -⟩ := hs.owned
    exact ⟨op, hpc⟩
  · rintro ⟨op, hpc⟩
    by_contra ho
    rcases hs.idle t ho with hpc' | ⟨op', hpc'⟩
    · rw [hpc] at hpc'
      cases hpc'
    · rw [hpc] at hpc'
      cases hpc'

omit [DecidableEq T] in
theorem owner_ne (hs : Sync o s) (hpc : ∀ op, s.pc t ≠ .wait op) : o ≠ some t := by
  intro ho
  obtain ⟨op, hop⟩ := (owner_iff hs).mp ho
  exact hpc op hop

omit [DecidableEq T] in
theorem holder_ne (hs : Sync o s) (ho : o ≠ some t) : s.q.lock.holder ≠ some t := by
  cases o with
  | none =>
    rw [hs.owned.2.1]
    nofun
  | some w =>
    rw [hs.owned.2.1]
    exact ho

omit [DecidableEq T] in
/-- A change of the queue's data that leaves the slots and the lock as they were. -/
theorem sync_data (hs : Sync o s) {q : Ioqueue T B} (hl : q.lock = s.q.lock)
    (hp : q.producer = s.q.producer) (hc : q.consumer = s.q.consumer) {stored fetched : List B} :
    Sync o { s with q := q, stored := stored, fetched := fetched } := by
  refine ⟨?_, hs.idle, by simpa only [hl] using hs.nodup, by simpa only [hl] using hs.mem_waiters,
    hs.status⟩
  cases o with
  | none => simpa only [Owned, hl, hp, hc] using hs.owned
  | some w =>
    obtain ⟨hv, hh, hn, op, hpc, hsl⟩ := hs.owned
    refine ⟨by simpa only [hl] using hv, by simpa only [hl] using hh, by simpa only [hl] using hn,
      op, hpc, ?_⟩
    cases op <;> simpa only [Slots, Op.otherWaiter, Op.waiter, hp, hc] using hsl

/-- A ready thread that does not hold the lock returns from its call. -/
theorem sync_out (hs : Sync o s) (ho : o ≠ some t) (hr : s.st t = .ready) :
    Sync o (s.goto t .out) := by
  have hnw := not_mem_waiters hs hr
  refine ⟨?_, fun u hu => ?_, hs.nodup, fun u => ?_, fun u => ?_⟩
  · cases o with
    | none => exact hs.owned
    | some w =>
      have hwt : w ≠ t := fun h => ho (by rw [h])
      obtain ⟨hv, hh, hn, op, hpc, hsl⟩ := hs.owned
      exact ⟨hv, hh, hn, op, by simpa [State.goto, hwt] using hpc, hsl⟩
  · by_cases hut : u = t
    · exact Or.inl (by simp [State.goto, hut])
    · simpa [State.goto, hut] using hs.idle u hu
  · by_cases hut : u = t
    · simp [State.goto, hut, hnw]
    · simpa [State.goto, hut] using hs.mem_waiters u
  · by_cases hut : u = t
    · exact Or.inl (by rw [hut]; exact hr)
    · simpa [State.goto, hut] using hs.status u

omit [DecidableEq T] in
/-- A slot that is set names the thread that holds the lock, which sleeps in it. -/
theorem waiter_owner (hs : Sync o s) (op : Op B) {w : T} (hw : op.waiter s.q = some w) :
    o = some w ∧ s.st w = .blocked ∧ op.otherWaiter s.q = none := by
  cases o with
  | none =>
    obtain ⟨-, -, -, hp, hc⟩ := hs.owned
    cases op <;> simp_all [Op.waiter]
  | some u =>
    obtain ⟨-, -, -, op', -, hsl⟩ := hs.owned
    cases op <;> cases op' <;> simp_all [Slots, Op.waiter, Op.otherWaiter]

/-! ## What a step does

Each outcome of a step is a state written out; `loop_eq` and its companions say which one a call
ends in. -/

/-- The sleeper of a slot, if there is one, becomes ready. -/
def wake (st : Statuses T) : Option T → Statuses T
  | none => st
  | some w => Function.update st w .ready

/-- `t` is put among the waiters of the lock and blocked. -/
def State.queued (s : State T B) (t : T) (op : Op B) : State T B :=
  { s with
    q := { s.q with lock := { s.q.lock with semaphore :=
      { s.q.lock.semaphore with waiters := s.q.lock.semaphore.waiters ++ [t] } } }
    st := Function.update s.st t .blocked
    pc := Function.update s.pc t (.lock op) }

/-- `t` takes the lock and sleeps in its slot. -/
def State.asleep (s : State T B) (t : T) (op : Op B) : State T B :=
  { s with
    q := op.setWaiter { s.q with lock := ⟨some t, { s.q.lock.semaphore with value := 0 }, 1⟩ }
      (some t)
    st := Function.update s.st t .blocked
    pc := Function.update s.pc t (.wait op) }

/-- `t` completes its call and wakes the sleeper of the other side. -/
def State.done (s : State T B) (t : T) : Op B → State T B
  | .getchar =>
    { s with
      q := { s.q with tail := nextPos s.q.tail, producer := none }
      st := wake s.st s.q.producer
      pc := Function.update s.pc t .out
      fetched := s.fetched ++ [s.q.buf s.q.tail] }
  | .putchar byte =>
    { s with
      q := { s.q with buf := Function.update s.q.buf s.q.head byte, head := nextPos s.q.head
                      consumer := none }
      st := wake s.st s.q.consumer
      pc := Function.update s.pc t .out
      stored := s.stored ++ [byte] }

theorem lock_eq_queued (hs : Sync o s) (hr : s.st t = .ready)
    (hv : s.q.lock.semaphore.value = 0) (op : Op B) :
    (do let r ← lockAcquireDown s.st s.q.lock t; afterLock s t op r) = .ok (s.queued t op) := by
  rw [lockAcquireDown_zero hv (not_mem_waiters hs hr)]
  rfl

theorem lock_eq_asleep (hs : Sync none s) (op : Op B) :
    (do let r ← lockAcquireDown s.st s.q.lock t; afterLock s t op r) = .ok (s.asleep t op) := by
  obtain ⟨hv, hh, hn, hp, hc⟩ := hs.owned
  rw [lockAcquireDown_one hv hn, ok_bind]
  have hslot : ∀ lk, op.waiter { s.q with lock := lk } = none := by
    intro lk
    cases op <;> simp_all [Op.waiter]
  simp only [afterLock, if_true, ioqWait, assert_bind_of (hslot _), threadBlock_blocked, ok_bind,
    State.goto, State.asleep]

theorem finish_eq_done (hs : Sync o s) (op : Op B) : finish s t op = .ok (s.done t op) := by
  cases op with
  | getchar =>
    simp only [finish, fetch, State.done]
    cases hw : s.q.producer with
    | none =>
      simp [wake, State.goto, ok_bind, ← hw]
    | some w =>
      have hb := (waiter_owner hs (.putchar (s.q.buf s.q.tail)) hw).2.1
      simp [wakeup, Op.waiter, Op.setWaiter, threadUnblock_blocked hb, ok_bind, wake, State.goto]
  | putchar byte =>
    simp only [finish, store, State.done]
    cases hw : s.q.consumer with
    | none =>
      simp [wake, State.goto, ok_bind, ← hw]
    | some w =>
      have hb := (waiter_owner hs .getchar hw).2.1
      simp [wakeup, Op.waiter, Op.setWaiter, threadUnblock_blocked hb, ok_bind, wake, State.goto]

/-- A call from the test of its waiting loop on, by a ready thread that does not hold the lock. -/
theorem loop_eq (hs : Sync o s) (ho : o ≠ some t) (hr : s.st t = .ready) (op : Op B) :
    loop s t op = .ok (if op.mustWait s.q then (if o = none then s.asleep t op else s.queued t op)
      else s.done t op) := by
  unfold loop
  by_cases hm : op.mustWait s.q = true
  · rw [if_pos hm, if_pos hm, lockAcquire, if_pos (holder_ne hs ho)]
    cases o with
    | none =>
      rw [if_pos rfl]
      exact lock_eq_asleep hs op
    | some w =>
      rw [if_neg nofun]
      exact lock_eq_queued hs hr hs.owned.1 op
  · rw [if_neg hm, if_neg hm]
    exact finish_eq_done hs op

/-! ## The lock is kept -/

theorem sync_queued (hs : Sync o s) (ho : o ≠ some t) (hn : o ≠ none) (hr : s.st t = .ready)
    (op : Op B) : Sync o (s.queued t op) := by
  have hnw := not_mem_waiters hs hr
  refine ⟨?_, fun u hu => ?_, ?_, fun u => ?_, fun u => ?_⟩
  · cases o with
    | none => exact absurd rfl hn
    | some w =>
      have hwt : w ≠ t := fun h => ho (by rw [h])
      obtain ⟨hv, hh, hnr, op', hpc, hsl⟩ := hs.owned
      refine ⟨hv, hh, hnr, op', by simpa [State.queued, hwt] using hpc, ?_⟩
      cases op' <;> simpa [Slots, Op.waiter, Op.otherWaiter, State.queued, hwt] using hsl
  · by_cases hut : u = t
    · exact Or.inr ⟨op, by simp [State.queued, hut]⟩
    · simpa [State.queued, hut] using hs.idle u hu
  · refine List.nodup_append.mpr ⟨hs.nodup, List.nodup_singleton t, ?_⟩
    intro a ha b hb hab
    rw [List.mem_singleton] at hb
    exact hnw (hb ▸ hab ▸ ha)
  · by_cases hut : u = t
    · simp [State.queued, hut]
    · simpa [State.queued, hut] using hs.mem_waiters u
  · by_cases hut : u = t
    · exact Or.inr (by simp [State.queued, hut])
    · simpa [State.queued, hut] using hs.status u

theorem sync_asleep (hs : Sync none s) (hr : s.st t = .ready) (op : Op B) :
    Sync (some t) (s.asleep t op) := by
  obtain ⟨hv, hh, hn, hp, hc⟩ := hs.owned
  have hnw := not_mem_waiters hs hr
  have hlock : (s.asleep t op).q.lock = ⟨some t, { s.q.lock.semaphore with value := 0 }, 1⟩ := by
    cases op <;> rfl
  refine ⟨⟨by rw [hlock], by rw [hlock], by rw [hlock], op, by simp [State.asleep], ?_⟩,
    fun u hu => ?_, by rw [hlock]; exact hs.nodup, fun u => ?_, fun u => ?_⟩
  · cases op <;> simp [Slots, Op.waiter, Op.otherWaiter, State.asleep, Op.setWaiter, hp, hc]
  · have hut : u ≠ t := fun h => hu (by rw [h])
    simpa [State.asleep, hut] using hs.idle u nofun
  · simp only [hlock]
    by_cases hut : u = t
    · simp [State.asleep, hut, hnw]
    · simpa [State.asleep, hut] using hs.mem_waiters u
  · by_cases hut : u = t
    · exact Or.inr (by simp [State.asleep, hut])
    · simpa [State.asleep, hut] using hs.status u

/-- Waking the sleeper of a slot and clearing the slot keeps the lock with the sleeper. -/
theorem sync_wake (hs : Sync o s) (op : Op B) :
    Sync o { s with st := wake s.st (op.waiter s.q), q := op.setWaiter s.q none } := by
  cases hw : op.waiter s.q with
  | none =>
    have hq : op.setWaiter s.q none = s.q := by
      cases op <;> simp only [Op.waiter] at hw <;> simp only [Op.setWaiter, ← hw]
    rw [hq]
    exact hs
  | some w =>
    obtain ⟨rfl, hb, hoth⟩ := waiter_owner hs op hw
    obtain ⟨hv, hh, hn, op', hpc, hsl⟩ := hs.owned
    have hlock : (op.setWaiter s.q none).lock = s.q.lock := by cases op <;> rfl
    have hslots : op'.waiter (op.setWaiter s.q none) = none ∧
        op'.otherWaiter (op.setWaiter s.q none) = none := by
      cases op <;> cases op' <;>
        simp_all [Op.waiter, Op.otherWaiter, Op.setWaiter, Slots]
    refine ⟨⟨by rw [hlock]; exact hv, by rw [hlock]; exact hh, by rw [hlock]; exact hn, op', hpc,
      hslots.2, Or.inl ⟨by simp [wake], hslots.1⟩⟩, hs.idle, by rw [hlock]; exact hs.nodup,
      fun u => ?_, fun u => ?_⟩
    · simp only [hlock, wake]
      by_cases huw : u = w
      · simp [huw, hs.mem_waiters w, hpc]
      · simpa [huw] using hs.mem_waiters u
    · by_cases huw : u = w
      · simp [huw, wake]
      · simpa [huw, wake] using hs.status u

theorem wake_ready (hr : s.st t = .ready) (w : Option T) : wake s.st w t = .ready := by
  cases w with
  | none => exact hr
  | some w => by_cases htw : t = w <;> simp [wake, htw, hr]

theorem sync_done (hs : Sync o s) (ho : o ≠ some t) (hr : s.st t = .ready) (op : Op B) :
    Sync o (s.done t op) := by
  cases op with
  | getchar =>
    have h := sync_out (sync_wake hs (.putchar (s.q.buf s.q.tail))) ho (wake_ready hr _)
    exact sync_data h (q := { s.q with tail := nextPos s.q.tail, producer := none }) rfl rfl rfl
  | putchar byte =>
    have h := sync_out (sync_wake hs .getchar) ho (wake_ready hr _)
    exact sync_data h (q := { s.q with
      buf := Function.update s.q.buf s.q.head byte, head := nextPos s.q.head, consumer := none })
      rfl rfl rfl

/-- The thread that was woken in `ioq_wait` releases the lock. -/
theorem sync_release (hs : Sync (some t) s) (hr : s.st t = .ready) :
    ∃ st sem, lockRelease s.st s.q.lock t = .ok (st, ⟨none, sem, 0⟩) ∧ st t = .ready ∧
      st = wake s.st s.q.lock.semaphore.waiters.head? ∧
      Sync none ({ s with st := st, q := { s.q with lock := ⟨none, sem, 0⟩ } }.goto t .out) := by
  obtain ⟨hv, hh, hn, op, hpc, hoth, hsl⟩ := hs.owned
  have hslot : op.waiter s.q = none := by
    rcases hsl with h | h
    · exact h.2
    · exact absurd (hr.symm.trans h.1) (by decide)
  have hslots : s.q.producer = none ∧ s.q.consumer = none := by
    cases op <;> simp_all [Op.waiter, Op.otherWaiter]
  cases hws : s.q.lock.semaphore.waiters with
  | nil =>
    refine ⟨_, _, lockRelease_eq hh hn (semaUp_nil hv hws), hr, rfl, ⟨rfl, rfl, rfl, hslots⟩,
      fun u hu => ?_, List.nodup_nil, fun u => ?_, fun u => ?_⟩
    · by_cases hut : u = t
      · exact Or.inl (by simp [State.goto, hut])
      · simpa [State.goto, hut] using hs.idle u (by simpa using Ne.symm hut)
    · by_cases hut : u = t
      · simp [State.goto, hut, hr]
      · have := hs.mem_waiters u
        rw [hws] at this
        simpa [State.goto, hut] using this
    · by_cases hut : u = t
      · exact Or.inl (by rw [hut]; exact hr)
      · simpa [State.goto, hut] using hs.status u
  | cons w ws =>
    have hw : s.st w = .blocked ∧ ∃ op, s.pc w = .lock op := by
      rw [← hs.mem_waiters, hws]
      exact List.mem_cons_self
    have hnd := hs.nodup
    rw [hws, List.nodup_cons] at hnd
    have hwt : w ≠ t := by
      intro h
      have := hw.1
      rw [h, hr] at this
      cases this
    refine ⟨_, _, lockRelease_eq hh hn (semaUp_cons hv hws hw.1), by simp [hwt.symm, hr], rfl,
      ⟨rfl, rfl, rfl, hslots⟩, fun u hu => ?_, hnd.2, fun u => ?_, fun u => ?_⟩
    · by_cases hut : u = t
      · exact Or.inl (by simp [State.goto, hut])
      · simpa [State.goto, hut] using hs.idle u (by simpa using Ne.symm hut)
    · have := hs.mem_waiters u
      rw [hws, List.mem_cons] at this
      by_cases huw : u = w
      · simp [State.goto, huw, hnd.1]
      · by_cases hut : u = t
        · have hnw := not_mem_waiters hs hr
          rw [hws, List.mem_cons, not_or] at hnw
          simp [State.goto, hut, hwt.symm, hr, hnw.2]
        · simpa [State.goto, huw, hut] using this
    · by_cases huw : u = w
      · exact Or.inl (by simp [State.goto, huw])
      · by_cases hut : u = t
        · exact Or.inl (by simp [State.goto, hut, hwt.symm, hr])
        · simpa [State.goto, huw, hut] using hs.status u

/-- What a call from its loop test on keeps: the lock, and every property its three outcomes
have. -/
theorem loop_rule {P : Option T → State T B → Prop} (hs : Sync o s) (ho : o ≠ some t)
    (hr : s.st t = .ready) (op : Op B)
    (ha : op.mustWait s.q = true → o = none → P (some t) (s.asleep t op))
    (hq : op.mustWait s.q = true → o ≠ none → P o (s.queued t op))
    (hd : op.mustWait s.q = false → P o (s.done t op)) :
    ∃ o' s', loop s t op = .ok s' ∧ Sync o' s' ∧ P o' s' := by
  rw [loop_eq hs ho hr op]
  by_cases hm : op.mustWait s.q = true
  · rw [if_pos hm]
    by_cases hn : o = none
    · rw [if_pos hn]
      subst hn
      exact ⟨some t, _, rfl, sync_asleep hs hr op, ha hm rfl⟩
    · rw [if_neg hn]
      exact ⟨o, _, rfl, sync_queued hs ho hn hr op, hq hm hn⟩
  · rw [if_neg hm]
    exact ⟨o, _, rfl, sync_done hs ho hr op, hd (by simpa using hm)⟩

/-- What the threads can do: call, or continue a call where it was left. -/
theorem machine_cases {e : Event T B} {r : Except Halt (State T B)}
    (h : (machine T B).step s e = some r) :
    ∃ t op, s.st t = .ready ∧
      (e = .call t op ∧ s.pc t = .out ∧ r = loop s t op ∨
        e = .resume t ∧ s.pc t = .lock op ∧
          r = (do let r ← lockAcquireDown s.st s.q.lock t; afterLock s t op r) ∨
        e = .resume t ∧ s.pc t = .wait op ∧ r = (do
          let (st, lock) ← lockRelease s.st s.q.lock t
          loop ({ s with st, q := { s.q with lock } }.goto t .out) t op)) := by
  cases e with
  | call t op =>
    simp only [machine] at h
    split at h
    · next hpc =>
      split at h
      · next hr =>
        refine ⟨t, op, hr, Or.inl ⟨rfl, hpc, ?_⟩⟩
        rw [← Option.some.inj h]
        cases op <;> rfl
      · cases h
    · cases h
  | resume t =>
    simp only [machine] at h
    split at h
    · next hr =>
      unfold resume at h
      cases hpc : s.pc t with
      | out => simp [hpc] at h
      | lock op =>
        simp only [hpc, Option.some.injEq] at h
        exact ⟨t, op, hr, Or.inr (Or.inl ⟨rfl, hpc, h.symm⟩)⟩
      | wait op =>
        simp only [hpc, Option.some.injEq] at h
        exact ⟨t, op, hr, Or.inr (Or.inr ⟨rfl, hpc, h.symm⟩)⟩
    · cases h

/-! ## First in, first out -/

/-- The buffer holds the bytes stored and not yet fetched. -/
structure Content (s : State T B) : Prop where
  head : s.q.head = s.stored.length % bufsize
  tail : s.q.tail = s.fetched.length % bufsize
  fetched : s.fetched <+: s.stored
  room : s.stored.length < s.fetched.length + bufsize
  buf : ∀ i (h : i < s.stored.length), s.fetched.length ≤ i →
    s.q.buf (i % bufsize) = s.stored[i]

omit [DecidableEq T]

theorem content_init (buf : ℕ → B) : Content (init buf : State T B) where
  head := rfl
  tail := rfl
  fetched := List.prefix_rfl
  room := by simp [init, bufsize]
  buf i h := absurd h (Nat.not_lt_zero i)

/-- The indices tell empty and full apart, because one slot stays unused. -/
theorem empty_iff (hc : Content s) : ioqEmpty s.q = true ↔ s.stored.length = s.fetched.length := by
  have hle := hc.fetched.length_le
  have hroom := hc.room
  unfold bufsize at hroom
  simp only [ioqEmpty, decide_eq_true_eq, hc.head, hc.tail, bufsize]
  omega

theorem full_iff (hc : Content s) :
    ioqFull s.q = true ↔ s.stored.length + 1 = s.fetched.length + bufsize := by
  have hle := hc.fetched.length_le
  have hroom := hc.room
  unfold bufsize at hroom
  simp only [ioqFull, nextPos, decide_eq_true_eq, hc.head, hc.tail, bufsize]
  omega

/-- A property of the data alone. -/
theorem content_congr (hc : Content s) {s' : State T B} (hb : s'.q.buf = s.q.buf)
    (hh : s'.q.head = s.q.head) (ht : s'.q.tail = s.q.tail) (hst : s'.stored = s.stored)
    (hf : s'.fetched = s.fetched) : Content s' := by
  refine ⟨?_, ?_, ?_, ?_, fun i h hi => ?_⟩
  · rw [hh, hst]
    exact hc.head
  · rw [ht, hf]
    exact hc.tail
  · rw [hf, hst]
    exact hc.fetched
  · rw [hf, hst]
    exact hc.room
  · rw [hf] at hi
    simp only [hb, hst]
    exact hc.buf i (hst ▸ h) hi

/-- The event is, or continues, the call `op`. -/
def Event.runs (s : State T B) (op : Op B) : Event T B → Prop
  | .call _ op' => op' = op
  | .resume t => s.pc t = .lock op ∨ s.pc t = .wait op

/-- The state in which the test of the waiting loop is made: the queue is as it was, and the thread
that runs has no place. -/
structure Same (s s₁ : State T B) : Prop where
  buf : s₁.q.buf = s.q.buf
  head : s₁.q.head = s.q.head
  tail : s₁.q.tail = s.q.tail
  stored : s₁.stored = s.stored
  fetched : s₁.fetched = s.fetched
  pc : ∀ t, s₁.pc t = s.pc t ∨ s₁.pc t = .out

theorem Same.refl (s : State T B) : Same s s := ⟨rfl, rfl, rfl, rfl, rfl, fun _ => Or.inl rfl⟩

variable [DecidableEq T]

theorem content_getchar (hc : Content s) (he : ioqEmpty s.q = false) :
    Content (s.done t .getchar) := by
  have hne : s.stored.length ≠ s.fetched.length := by
    rw [ne_eq, ← empty_iff hc, he]
    simp
  have hle := hc.fetched.length_le
  have hlt : s.fetched.length < s.stored.length := by omega
  have hroom := hc.room
  have hbyte : s.q.buf s.q.tail = s.stored[s.fetched.length] := by
    rw [hc.tail]
    exact hc.buf _ hlt (Nat.le_refl _)
  refine ⟨hc.head, ?_, ?_, ?_, fun i h hi => ?_⟩
  · simp only [State.done, nextPos, hc.tail, List.length_append, List.length_singleton]
    exact Nat.mod_add_mod _ _ _
  · simp only [State.done, hbyte]
    have htake := List.prefix_iff_eq_take.mp hc.fetched
    have hsucc : s.stored.take (s.fetched.length + 1) =
        s.fetched ++ [s.stored[s.fetched.length]] := by
      rw [← List.take_append_getElem hlt, ← htake]
    rw [← hsucc]
    exact List.take_prefix _ _
  · simp only [State.done, List.length_append, List.length_singleton]
    omega
  · simp only [State.done, List.length_append, List.length_singleton] at hi
    exact hc.buf i h (by omega)

theorem content_putchar (hc : Content s) {byte : B} (hf : ioqFull s.q = false) :
    Content (s.done t (.putchar byte)) := by
  have hne : s.stored.length + 1 ≠ s.fetched.length + bufsize := by
    rw [ne_eq, ← full_iff hc, hf]
    simp
  have hroom := hc.room
  refine ⟨?_, hc.tail, hc.fetched.trans (List.prefix_append _ _), ?_, fun i h hi => ?_⟩
  · simp only [State.done, nextPos, hc.head, List.length_append, List.length_singleton]
    exact Nat.mod_add_mod _ _ _
  · simp only [State.done, List.length_append, List.length_singleton]
    omega
  · simp only [State.done, List.length_append, List.length_singleton] at h hi ⊢
    by_cases hi' : i = s.stored.length
    · subst hi'
      rw [hc.head, Function.update_self, List.getElem_append_right (Nat.le_refl _)]
      simp
    · have hlt : i < s.stored.length := by omega
      have hpos : i % bufsize ≠ s.q.head := by
        rw [hc.head]
        unfold bufsize at *
        omega
      rw [Function.update_of_ne hpos, hc.buf i hlt hi, List.getElem_append_left hlt]

theorem content_done (hc : Content s) {op : Op B} (hm : op.mustWait s.q = false) :
    Content (s.done t op) := by
  cases op with
  | getchar => exact content_getchar hc hm
  | putchar byte => exact content_putchar hc hm

theorem same_goto (s : State T B) (st : Statuses T) (lock : Lock T) (t : T) :
    Same s ({ s with st := st, q := { s.q with lock := lock } }.goto t .out) := by
  refine ⟨rfl, rfl, rfl, rfl, rfl, fun u => ?_⟩
  by_cases hu : u = t
  · exact Or.inr (by simp [State.goto, hu])
  · exact Or.inl (by simp [State.goto, hu])

/-- **What a step does.**  Every step that can happen returns, keeps the lock, and ends in one of
the three outcomes of the call that it is or continues. -/
theorem step_rule {P : State T B → Prop} (hs : Sync o s) {e : Event T B}
    {r : Except Halt (State T B)} (h : (machine T B).step s e = some r)
    (ha : ∀ s₁ t op, Same s s₁ → e.runs s op → P (s₁.asleep t op))
    (hq : ∀ s₁ t op, Same s s₁ → e.runs s op → P (s₁.queued t op))
    (hd : ∀ s₁ t op, Same s s₁ → e.runs s op → op.mustWait s₁.q = false → P (s₁.done t op)) :
    ∃ o' s', r = .ok s' ∧ Sync o' s' ∧ P s' := by
  have hloop : ∀ {o s₁ t op}, Sync o s₁ → o ≠ some t → s₁.st t = .ready → Same s s₁ →
      e.runs s op → ∃ o' s', loop s₁ t op = .ok s' ∧ Sync o' s' ∧ P s' :=
    fun hs₁ ho hr hsame hop => loop_rule (P := fun _ s => P s) hs₁ ho hr _
      (fun _ _ => ha _ _ _ hsame hop) (fun _ _ => hq _ _ _ hsame hop)
      (fun hm => hd _ _ _ hsame hop hm)
  obtain ⟨t, op, hr, ⟨rfl, hpc, rfl⟩ | ⟨rfl, hpc, rfl⟩ | ⟨rfl, hpc, rfl⟩⟩ := machine_cases h
  · exact @hloop o s t op hs (owner_ne hs (by rw [hpc]; exact nofun)) hr (Same.refl s) rfl
  · have ho : o ≠ some t := owner_ne hs (by rw [hpc]; exact nofun)
    cases o with
    | none =>
      exact ⟨some t, _, lock_eq_asleep hs op, sync_asleep hs hr op,
        ha s t op (Same.refl s) (Or.inl hpc)⟩
    | some w =>
      exact ⟨some w, _, lock_eq_queued hs hr hs.owned.1 op, sync_queued hs ho nofun hr op,
        hq s t op (Same.refl s) (Or.inl hpc)⟩
  · obtain rfl := (owner_iff hs).mpr ⟨op, hpc⟩
    obtain ⟨st, sem, hrel, hst, -, hs'⟩ := sync_release hs hr
    rw [hrel, ok_bind]
    exact @hloop none _ t op hs' nofun hst (same_goto s st ⟨none, sem, 0⟩ t) (Or.inr hpc)

/-- Every step that can happen keeps the lock and the content. -/
theorem step_inv (hs : Sync o s) (hc : Content s) {e : Event T B} {r : Except Halt (State T B)}
    (h : (machine T B).step s e = some r) : ∃ o' s', r = .ok s' ∧ Sync o' s' ∧ Content s' := by
  have hsame : ∀ {s₁ : State T B}, Same s s₁ → Content s₁ := fun hs₁ =>
    content_congr hc hs₁.buf hs₁.head hs₁.tail hs₁.stored hs₁.fetched
  exact step_rule hs h
    (fun s₁ t op hs₁ _ => by cases op <;> exact content_congr (hsame hs₁) rfl rfl rfl rfl rfl)
    (fun s₁ t op hs₁ _ => content_congr (hsame hs₁) rfl rfl rfl rfl rfl)
    (fun s₁ t op hs₁ _ hm => content_done (hsame hs₁) hm)

theorem run_inv {buf : ℕ → B} {es : List (Event T B)} {r : Except Halt (State T B)}
    (h : (machine T B).run (init buf) es = some r) :
    ∃ s, r = .ok s ∧ (∃ o, Sync o s) ∧ Content s := by
  refine Machine.run_safe (I := fun s => (∃ o, Sync o s) ∧ Content s)
    (fun s e s' ⟨⟨o, hs⟩, hc⟩ hr => ?_) (fun s e x ⟨⟨o, hs⟩, hc⟩ hx => ?_)
    ⟨⟨none, sync_init buf⟩, content_init buf⟩ h
  · obtain ⟨o', s₁, h₁, hs₁, hc₁⟩ := step_inv hs hc hr
    cases h₁
    exact ⟨⟨o', hs₁⟩, hc₁⟩
  · obtain ⟨o', s₁, h₁, -⟩ := step_inv hs hc hx
    cases h₁

/-- **First in, first out.**  For any number of threads and every interleaving of their calls: no
assertion fails, the bytes fetched are a prefix of the bytes stored, the indices stay in range, and
their difference counts the bytes in the queue, of which there are at most `bufsize - 1`. -/
theorem fifo {buf : ℕ → B} {es : List (Event T B)} {r : Except Halt (State T B)}
    (h : (machine T B).run (init buf) es = some r) :
    ∃ s, r = .ok s ∧ s.fetched <+: s.stored ∧ s.q.head < bufsize ∧ s.q.tail < bufsize ∧
      ((s.q.head : Int) - s.q.tail) % bufsize = (s.stored.length : Int) - s.fetched.length ∧
      s.stored.length - s.fetched.length ≤ bufsize - 1 := by
  obtain ⟨s, rfl, -, hc⟩ := run_inv h
  have hle := hc.fetched.length_le
  have hroom := hc.room
  refine ⟨s, rfl, hc.fetched, ?_, ?_, ?_, ?_⟩
  · rw [hc.head]
    exact Nat.mod_lt _ (by decide)
  · rw [hc.tail]
    exact Nat.mod_lt _ (by decide)
  · rw [hc.head, hc.tail]
    unfold bufsize at *
    omega
  · omega

/-- A consumer that waits for the second of two bytes. -/
theorem fifo_two_threads :
    ∃ s : State Bool ℕ, (machine Bool ℕ).run (init fun _ => 0)
        [.call true (.putchar 97), .call false .getchar, .call false .getchar,
          .call true (.putchar 98), .resume false] = some (.ok s) ∧
      s.fetched = [97, 98] ∧ s.fetched <+: s.stored := by
  obtain ⟨s, hs, hp, -⟩ := fifo (show (machine Bool ℕ).run (init fun _ => 0)
    [.call true (.putchar 97), .call false .getchar, .call false .getchar,
      .call true (.putchar 98), .resume false] = some _ from rfl)
  cases hs
  exact ⟨_, rfl, rfl, hp⟩

end HcOs.Ioq
