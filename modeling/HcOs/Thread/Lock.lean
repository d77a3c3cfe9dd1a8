import Mathlib.Data.List.Nodup
import HcOs.Lib.Machine
import HcOs.Thread.Sync

/-!
# Mutual exclusion of the re-entrant lock

One `struct lock` and any number of threads that call `lock_acquire` and `lock_release` on it,
properly nested, with interrupts enabled: a thread can be preempted between any two accesses to
the lock.  Only the passes of `sema_down` and the whole of `sema_up` run without interruption, so
a step is one access of a thread outside the semaphore, or one such uninterrupted part; in
particular `holder_repeat_nr++` is a read and a write with a preemption point between them.

`holder_repeat_nr` is a `uint32_t` and wraps around at the nesting depth `2 ^ 32`
(`holder_repeat_nr_wraps`).  Below it, `mutual_exclusion` holds for every interleaving.
-/

namespace HcOs.LockRun

open HcOs.Lib

/-- Where a thread is in the code of the lock; the constructors follow the statements. -/
inductive Pc where
  /-- Between calls. -/
  | out
  /-- `lock_acquire`, before the test of `holder`. -/
  | acquire
  /-- At the loop test of `sema_down`, or blocked behind it. -/
  | down
  /-- Before `plock->holder = running_thread()`. -/
  | setHolder
  /-- Before `ASSERT(plock->holder_repeat_nr == 0)`. -/
  | assertZero
  /-- Before `plock->holder_repeat_nr = 1`. -/
  | setOne
  /-- Before the read of `plock->holder_repeat_nr++`. -/
  | incRead
  /-- Before the write of `plock->holder_repeat_nr++`, with the value read. -/
  | incWrite (n : ℕ)
  /-- `lock_release`, before `ASSERT(plock->holder == running_thread())`. -/
  | release
  /-- Before the test `plock->holder_repeat_nr > 1`. -/
  | test
  | decRead
  | decWrite (n : ℕ)
  /-- Before `ASSERT(plock->holder_repeat_nr == 1)`. -/
  | assertOne
  /-- Before `plock->holder = NULL`. -/
  | clearHolder
  /-- Before `plock->holder_repeat_nr = 0`. -/
  | clearNr
  /-- Before `sema_up`. -/
  | up
  deriving DecidableEq

variable {T : Type}

structure State (T : Type) where
  st : Statuses T
  lk : Lock T
  pc : T → Pc
  /-- The completed calls of `lock_acquire` of the thread minus its completed calls of
  `lock_release`. -/
  depth : T → ℕ

def init : State T where
  st _ := .ready
  lk := lockInit
  pc _ := .out
  depth _ := 0

inductive Event (T : Type) where
  | acquire (t : T)
  | release (t : T)
  /-- The thread executes its next statement. -/
  | step (t : T)

variable [DecidableEq T]

def State.goto (s : State T) (t : T) (pc : Pc) : State T :=
  { s with pc := Function.update s.pc t pc }

/-- The thread returns from the call with the nesting depth `d`. -/
def State.ret (s : State T) (t : T) (d : ℕ) : State T :=
  { s with pc := Function.update s.pc t .out, depth := Function.update s.depth t d }

/-- The next statement of the thread `t` inside a call. -/
def stmt (s : State T) (t : T) : Option (Except Halt (State T)) :=
  match s.pc t with
  | .out => none
  | .acquire => some (.ok (s.goto t (if s.lk.holder ≠ some t then .down else .incRead)))
  | .down => some (do
      let (taken, st, sem) ← semaDownPass s.st s.lk.semaphore t
      let s := { s with st, lk := { s.lk with semaphore := sem } }
      .ok (if taken then s.goto t .setHolder else s))
  | .setHolder => some (.ok ({ s with lk := { s.lk with holder := some t } }.goto t .assertZero))
  | .assertZero => some (do
      assert (s.lk.holderRepeatNr = 0) "lock_acquire" "plock->holder_repeat_nr == 0"
      .ok (s.goto t .setOne))
  | .setOne =>
      some (.ok ({ s with lk := { s.lk with holderRepeatNr := 1 } }.ret t (s.depth t + 1)))
  | .incRead => some (.ok (s.goto t (.incWrite s.lk.holderRepeatNr)))
  | .incWrite n =>
      some (.ok ({ s with lk := { s.lk with holderRepeatNr := (n + 1) % 2 ^ 32 } }.ret t
        (s.depth t + 1)))
  | .release => some (do
      assert (s.lk.holder = some t) "lock_release" "plock->holder == running_thread()"
      .ok (s.goto t .test))
  | .test => some (.ok (s.goto t (if s.lk.holderRepeatNr > 1 then .decRead else .assertOne)))
  | .decRead => some (.ok (s.goto t (.decWrite s.lk.holderRepeatNr)))
  | .decWrite n =>
      some (.ok ({ s with lk := { s.lk with holderRepeatNr := (n + (2 ^ 32 - 1)) % 2 ^ 32 } }.ret t
        (s.depth t - 1)))
  | .assertOne => some (do
      assert (s.lk.holderRepeatNr = 1) "lock_release" "plock->holder_repeat_nr == 1"
      .ok (s.goto t .clearHolder))
  | .clearHolder => some (.ok ({ s with lk := { s.lk with holder := none } }.goto t .clearNr))
  | .clearNr => some (.ok ({ s with lk := { s.lk with holderRepeatNr := 0 } }.goto t .up))
  | .up => some (do
      let (st, sem) ← semaUp s.st s.lk.semaphore
      .ok ({ s with st, lk := { s.lk with semaphore := sem } }.ret t (s.depth t - 1)))

/-- Threads that are not blocked start properly nested calls and execute their statements. -/
def machine (T : Type) [DecidableEq T] : Machine (State T) (Event T) Halt where
  step s
    | .acquire t =>
      if s.pc t = .out ∧ s.st t = .ready then some (.ok (s.goto t .acquire)) else none
    | .release t =>
      if s.pc t = .out ∧ s.st t = .ready ∧ 0 < s.depth t then some (.ok (s.goto t .release))
      else none
    | .step t => if s.st t = .ready then stmt s t else none

/-- The statements of `lock_release`. -/
def Pc.InRelease : Pc → Prop
  | .release | .test | .decRead | .decWrite _ | .assertOne | .clearHolder | .clearNr | .up => True
  | _ => False

/-- The thread is between the completion of its outermost `lock_acquire` and the start of the
matching outermost `lock_release`. -/
def Inside (s : State T) (t : T) : Prop :=
  0 < s.depth t ∧ ((s.pc t).InRelease → 1 < s.depth t)

/-- No call is nested deeper than `holder_repeat_nr` can count. -/
def Shallow (s : State T) : Event T → Prop
  | .acquire t => s.depth t + 1 < 2 ^ 32
  | _ => True

instance (s : State T) (e : Event T) : Decidable (Shallow s e) := by
  cases e <;> unfold Shallow <;> infer_instance

/-! ## The invariant -/

/-- A thread that does not hold the semaphore. -/
def Idle (s : State T) (t : T) : Prop :=
  s.depth t = 0 ∧ (s.pc t = .out ∨ s.pc t = .acquire ∨ s.pc t = .down)

/-- What the lock looks like at each statement of the thread that holds the semaphore. -/
def OwnerAt (lk : Lock T) (t : T) (d : ℕ) : Pc → Prop
  | .out | .release | .test => 0 < d ∧ d < 2 ^ 32 ∧ lk.holder = some t ∧ lk.holderRepeatNr = d
  | .acquire | .incRead => 0 < d ∧ d + 1 < 2 ^ 32 ∧ lk.holder = some t ∧ lk.holderRepeatNr = d
  | .incWrite n =>
    0 < d ∧ d + 1 < 2 ^ 32 ∧ lk.holder = some t ∧ lk.holderRepeatNr = d ∧ n = d
  | .down => False
  | .setHolder => d = 0 ∧ lk.holder = none ∧ lk.holderRepeatNr = 0
  | .assertZero | .setOne => d = 0 ∧ lk.holder = some t ∧ lk.holderRepeatNr = 0
  | .decRead => 1 < d ∧ d < 2 ^ 32 ∧ lk.holder = some t ∧ lk.holderRepeatNr = d
  | .decWrite n => 1 < d ∧ d < 2 ^ 32 ∧ lk.holder = some t ∧ lk.holderRepeatNr = d ∧ n = d
  | .assertOne | .clearHolder => d = 1 ∧ lk.holder = some t ∧ lk.holderRepeatNr = 1
  | .clearNr => d = 1 ∧ lk.holder = none ∧ lk.holderRepeatNr = 1
  | .up => d = 1 ∧ lk.holder = none ∧ lk.holderRepeatNr = 0

/-- The semaphore is free, or one thread holds it. -/
def Owned (s : State T) : Option T → Prop
  | none => s.lk.semaphore.value = 1 ∧ s.lk.holder = none ∧ s.lk.holderRepeatNr = 0
  | some t => s.lk.semaphore.value = 0 ∧ OwnerAt s.lk t (s.depth t) (s.pc t)

/-- The invariant, with the thread `o` that holds the semaphore. -/
structure Inv (o : Option T) (s : State T) : Prop where
  owned : Owned s o
  idle : ∀ t, o ≠ some t → Idle s t
  nodup : s.lk.semaphore.waiters.Nodup
  /-- The waiters are the threads blocked in `sema_down`. -/
  mem_waiters : ∀ t, t ∈ s.lk.semaphore.waiters ↔ s.pc t = .down ∧ s.st t = .blocked
  status : ∀ t, s.st t = .ready ∨ s.st t = .blocked ∧ s.pc t = .down

omit [DecidableEq T] in
theorem inv_init : Inv none (init : State T) where
  owned := ⟨rfl, rfl, rfl⟩
  idle _ _ := ⟨rfl, Or.inl rfl⟩
  nodup := List.nodup_nil
  mem_waiters t := by simp [init, lockInit, semaInit]
  status _ := Or.inl rfl

variable {o : Option T} {s : State T} {t : T}

omit [DecidableEq T] in
/-- A thread that is ready is not a waiter. -/
theorem not_mem_waiters (hi : Inv o s) (hr : s.st t = .ready) : t ∉ s.lk.semaphore.waiters := by
  rw [hi.mem_waiters, hr]
  rintro ⟨-, h⟩
  cases h

/-- A step of the ready thread `t` that leaves the semaphore alone: it gives `t` the statement `pc`
outside `sema_down`, the depth `d`, and the lock new fields. -/
theorem inv_move (hi : Inv o s) (hr : s.st t = .ready) (pc : Pc) (d : ℕ) (lk : Lock T)
    (hpc : s.pc t ≠ .down) (hpc' : pc ≠ .down) {h : Option T} {nr : ℕ}
    (hlk : lk = { s.lk with holder := h, holderRepeatNr := nr })
    (howned : Owned { s with lk := lk, pc := Function.update s.pc t pc
                             depth := Function.update s.depth t d } o)
    (hidle : o ≠ some t → Idle { s with lk := lk, pc := Function.update s.pc t pc
                                        depth := Function.update s.depth t d } t) :
    Inv o { s with lk := lk, pc := Function.update s.pc t pc
                   depth := Function.update s.depth t d } := by
  subst hlk
  refine ⟨howned, fun u hu => ?_, hi.nodup, fun u => ?_, fun u => ?_⟩
  · by_cases hut : u = t
    · subst hut
      exact hidle hu
    · simpa [Idle, hut] using hi.idle u hu
  · by_cases hut : u = t
    · subst hut
      simp [hi.mem_waiters u, hpc, hpc']
    · simpa [hut] using hi.mem_waiters u
  · by_cases hut : u = t
    · subst hut
      exact Or.inl hr
    · simpa [hut] using hi.status u

theorem update_depth_self (s : State T) (t : T) :
    Function.update s.depth t (s.depth t) = s.depth := Function.update_eq_self t s.depth

omit [DecidableEq T] in
theorem pc_ne_down (hi : Inv (some t) s) : s.pc t ≠ .down := by
  intro hpc
  have := hi.owned.2
  rw [hpc] at this
  exact this

/-- The thread that holds the semaphore returns from a call, still holding it. -/
theorem owner_ret (hi : Inv (some t) s) (hr : s.st t = .ready) {d nr : ℕ} {h : Option T}
    (hown : OwnerAt { s.lk with holder := h, holderRepeatNr := nr } t d .out) :
    Inv (some t) ({ s with lk := { s.lk with holder := h, holderRepeatNr := nr } }.ret t d) :=
  inv_move hi hr .out d { s.lk with holder := h, holderRepeatNr := nr } (pc_ne_down hi) nofun rfl
    ⟨hi.owned.1, by simpa using hown⟩ (fun hne => absurd rfl hne)

/-- The thread that holds the semaphore goes on to the statement `pc`. -/
theorem owner_goto (hi : Inv (some t) s) (hr : s.st t = .ready) {pc : Pc} {nr : ℕ} {h : Option T}
    (hpc : pc ≠ .down)
    (hown : OwnerAt { s.lk with holder := h, holderRepeatNr := nr } t (s.depth t) pc) :
    Inv (some t) ({ s with lk := { s.lk with holder := h, holderRepeatNr := nr } }.goto t pc) := by
  have key := inv_move hi hr pc (s.depth t) { s.lk with holder := h, holderRepeatNr := nr }
    (pc_ne_down hi) hpc rfl
    ⟨hi.owned.1, by simpa using hown⟩ (fun hne => absurd rfl hne)
  simpa only [State.goto, update_depth_self] using key

/-- A thread that does not hold the semaphore goes on outside `sema_down`. -/
theorem idle_goto (hi : Inv o s) (ho : o ≠ some t) (hr : s.st t = .ready) (hpc : s.pc t = .out) :
    Inv o (s.goto t .acquire) := by
  have howned : Owned (s.goto t .acquire) o := by
    cases o with
    | none => exact hi.owned
    | some u =>
      have hut : u ≠ t := fun h => ho (by rw [h])
      refine ⟨hi.owned.1, ?_⟩
      simpa [State.goto, hut] using hi.owned.2
  have key := inv_move hi hr .acquire (s.depth t) s.lk (by rw [hpc]; nofun) nofun rfl
    (by simpa only [State.goto, update_depth_self] using howned)
    (fun _ => ⟨by simpa using (hi.idle t ho).1, Or.inr (Or.inl (by simp))⟩)
  simpa only [State.goto, update_depth_self] using key

/-- The outermost `lock_release` gives the semaphore back. -/
theorem inv_up (hi : Inv (some t) s) (hpc : s.pc t = .up) :
    ∃ st sem, semaUp s.st s.lk.semaphore = .ok (st, sem) ∧
      Inv none ({ s with st := st, lk := { s.lk with semaphore := sem } }.ret t (s.depth t - 1)) := by
  obtain ⟨hv, hown⟩ := hi.owned
  rw [hpc] at hown
  obtain ⟨hd, hh, hnr⟩ := hown
  have hidle : ∀ u, ∀ st sem, Idle ({ s with st := st, lk := { s.lk with semaphore := sem } }.ret t
      (s.depth t - 1)) u := by
    intro u st sem
    by_cases hut : u = t
    · simp [Idle, State.ret, hut, hd]
    · simpa [Idle, State.ret, hut] using hi.idle u (by simpa using Ne.symm hut)
  have hpcd : ∀ u, Function.update s.pc t .out u = .down ↔ s.pc u = .down := by
    intro u
    by_cases hut : u = t
    · simp [hut, hpc]
    · simp [hut]
  cases hws : s.lk.semaphore.waiters with
  | nil =>
    refine ⟨_, _, semaUp_nil hv hws, ⟨rfl, hh, hnr⟩, fun u _ => hidle u _ _, List.nodup_nil,
      fun u => ?_, fun u => ?_⟩
    · have := hi.mem_waiters u
      rw [hws] at this
      simpa only [State.ret, hpcd] using this
    · simpa only [State.ret, hpcd] using hi.status u
  | cons w ws =>
    have hw : s.pc w = .down ∧ s.st w = .blocked := by
      rw [← hi.mem_waiters, hws]
      exact List.mem_cons_self
    have hnd := hi.nodup
    rw [hws, List.nodup_cons] at hnd
    refine ⟨_, _, semaUp_cons hv hws hw.2, ⟨rfl, hh, hnr⟩, fun u _ => hidle u _ _, hnd.2,
      fun u => ?_, fun u => ?_⟩
    · have := hi.mem_waiters u
      rw [hws, List.mem_cons] at this
      simp only [State.ret, hpcd]
      by_cases huw : u = w
      · simp [huw, hnd.1]
      · simpa [huw] using this
    · simp only [State.ret, hpcd]
      by_cases huw : u = w
      · simp [huw]
      · simpa [huw] using hi.status u

/-- The thread that holds the semaphore executes a statement. -/
theorem inv_stmt_owner (hi : Inv (some t) s) (hr : s.st t = .ready) {r : Except Halt (State T)}
    (h : stmt s t = some r) : ∃ o' s', r = .ok s' ∧ Inv o' s' := by
  have hown := hi.owned.2
  unfold stmt at h
  cases hpc : s.pc t with
  | out => simp [hpc] at h
  | acquire =>
    rw [hpc] at hown h
    obtain ⟨h0, hd, hh, hnr⟩ := hown
    simp only [hh, ne_eq, not_true_eq_false, if_false, Option.some.injEq] at h
    exact ⟨some t, _, h.symm, owner_goto hi hr (by simp) ⟨h0, hd, hh, hnr⟩⟩
  | down => exact absurd hpc (pc_ne_down hi)
  | setHolder =>
    rw [hpc] at hown h
    obtain ⟨hd, hh, hnr⟩ := hown
    exact ⟨some t, _, (Option.some.inj h).symm, owner_goto hi hr (by simp) ⟨hd, rfl, hnr⟩⟩
  | assertZero =>
    rw [hpc] at hown h
    obtain ⟨hd, hh, hnr⟩ := hown
    simp only [assert_bind_of hnr] at h
    exact ⟨some t, _, (Option.some.inj h).symm, owner_goto hi hr (by simp) ⟨hd, hh, hnr⟩⟩
  | setOne =>
    rw [hpc] at hown h
    obtain ⟨hd, hh, hnr⟩ := hown
    rw [hd] at h
    exact ⟨some t, _, (Option.some.inj h).symm,
      owner_ret hi hr ⟨Nat.one_pos, by decide, hh, rfl⟩⟩
  | incRead =>
    rw [hpc] at hown h
    obtain ⟨h0, hd, hh, hnr⟩ := hown
    exact ⟨some t, _, (Option.some.inj h).symm,
      owner_goto hi hr (by simp) ⟨h0, hd, hh, hnr, hnr⟩⟩
  | incWrite n =>
    rw [hpc] at hown h
    obtain ⟨h0, hd, hh, hnr, hn⟩ := hown
    refine ⟨some t, _, (Option.some.inj h).symm, owner_ret hi hr ⟨Nat.succ_pos _, hd, hh, ?_⟩⟩
    rw [hn, Nat.mod_eq_of_lt hd]
  | release =>
    rw [hpc] at hown h
    obtain ⟨h0, hd, hh, hnr⟩ := hown
    simp only [assert_bind_of hh] at h
    exact ⟨some t, _, (Option.some.inj h).symm, owner_goto hi hr (by simp) ⟨h0, hd, hh, hnr⟩⟩
  | test =>
    rw [hpc] at hown h
    obtain ⟨h0, hd, hh, hnr⟩ := hown
    refine ⟨some t, _, (Option.some.inj h).symm, ?_⟩
    by_cases h1 : s.lk.holderRepeatNr > 1
    · rw [if_pos h1]
      exact owner_goto hi hr (by simp) ⟨by omega, hd, hh, hnr⟩
    · rw [if_neg h1]
      have hone : s.lk.holderRepeatNr = 1 := by omega
      exact owner_goto hi hr (by simp) ⟨hnr.symm.trans hone, hh, hone⟩
  | decRead =>
    rw [hpc] at hown h
    obtain ⟨h1, hd, hh, hnr⟩ := hown
    exact ⟨some t, _, (Option.some.inj h).symm,
      owner_goto hi hr (by simp) ⟨h1, hd, hh, hnr, hnr⟩⟩
  | decWrite n =>
    rw [hpc] at hown h
    obtain ⟨h1, hd, hh, hnr, hn⟩ := hown
    have hdec : (n + (2 ^ 32 - 1)) % 2 ^ 32 = s.depth t - 1 := by omega
    refine ⟨some t, _, (Option.some.inj h).symm, owner_ret hi hr ⟨?_, ?_, hh, hdec⟩⟩
    all_goals omega
  | assertOne =>
    rw [hpc] at hown h
    obtain ⟨hd, hh, hnr⟩ := hown
    simp only [assert_bind_of hnr] at h
    exact ⟨some t, _, (Option.some.inj h).symm, owner_goto hi hr (by simp) ⟨hd, hh, hnr⟩⟩
  | clearHolder =>
    rw [hpc] at hown h
    obtain ⟨hd, hh, hnr⟩ := hown
    exact ⟨some t, _, (Option.some.inj h).symm, owner_goto hi hr (by simp) ⟨hd, rfl, hnr⟩⟩
  | clearNr =>
    rw [hpc] at hown h
    obtain ⟨hd, hh, hnr⟩ := hown
    exact ⟨some t, _, (Option.some.inj h).symm, owner_goto hi hr (by simp) ⟨hd, hh, rfl⟩⟩
  | up =>
    rw [hpc] at h
    obtain ⟨st, sem, hup, hi'⟩ := inv_up hi hpc
    simp only [hup, ok_bind] at h
    exact ⟨none, _, (Option.some.inj h).symm, hi'⟩

/-- A pass of `sema_down` by a thread that does not hold the semaphore. -/
theorem inv_down (hi : Inv o s) (ho : o ≠ some t) (hr : s.st t = .ready) (hpc : s.pc t = .down) :
    ∃ taken st sem, semaDownPass s.st s.lk.semaphore t = .ok (taken, st, sem) ∧
      ∃ o', Inv o' (if taken then
          ({ s with st := st, lk := { s.lk with semaphore := sem } } : State T).goto t .setHolder
        else { s with st := st, lk := { s.lk with semaphore := sem } }) := by
  have hnw := not_mem_waiters hi hr
  cases o with
  | none =>
    obtain ⟨hv, hh, hnr⟩ := hi.owned
    have hd := (hi.idle t nofun).1
    refine ⟨_, _, _, semaDownPass_one hv, some t, ?_⟩
    rw [if_pos rfl]
    refine ⟨⟨rfl, by simpa [State.goto, OwnerAt] using ⟨hd, hh, hnr⟩⟩, fun u hu => ?_, hi.nodup,
      fun u => ?_, fun u => ?_⟩
    · have hut : u ≠ t := fun h => hu (by rw [h])
      simpa [Idle, State.goto, hut] using hi.idle u nofun
    · by_cases hut : u = t
      · simp [State.goto, hut, hnw]
      · simpa [State.goto, hut] using hi.mem_waiters u
    · by_cases hut : u = t
      · exact Or.inl (by rw [hut]; exact hr)
      · simpa [State.goto, hut] using hi.status u
  | some w =>
    have hwt : w ≠ t := fun h => ho (by rw [h])
    refine ⟨_, _, _, semaDownPass_zero hi.owned.1 hnw, some w, ?_⟩
    rw [if_neg nofun]
    refine ⟨⟨hi.owned.1, hi.owned.2⟩, hi.idle, ?_, fun u => ?_, fun u => ?_⟩
    · refine List.nodup_append.mpr ⟨hi.nodup, List.nodup_singleton t, ?_⟩
      intro a ha b hb hab
      rw [List.mem_singleton] at hb
      exact hnw (hb ▸ hab ▸ ha)
    · by_cases hut : u = t
      · simp [hut, hpc]
      · simpa [hut] using hi.mem_waiters u
    · by_cases hut : u = t
      · simp [hut, hpc]
      · simpa [hut] using hi.status u

omit [DecidableEq T] in
/-- `holder` is `NULL` or the thread that holds the semaphore. -/
theorem holder_ne (hi : Inv o s) (ho : o ≠ some t) : s.lk.holder ≠ some t := by
  intro hh
  cases o with
  | none => exact absurd (hi.owned.2.1.symm.trans hh) nofun
  | some w =>
    refine ho ?_
    have hown := hi.owned.2
    cases hw : s.pc w <;> simp only [hw, OwnerAt] at hown <;> simp_all

/-- A thread that does not hold the semaphore executes a statement. -/
theorem inv_stmt_idle (hi : Inv o s) (ho : o ≠ some t) (hr : s.st t = .ready)
    {r : Except Halt (State T)} (h : stmt s t = some r) : ∃ o' s', r = .ok s' ∧ Inv o' s' := by
  unfold stmt at h
  rcases (hi.idle t ho).2 with hpc | hpc | hpc
  · simp [hpc] at h
  · have hh := holder_ne hi ho
    simp only [hpc, hh, ne_eq, not_false_eq_true, if_true, Option.some.injEq] at h
    refine ⟨o, _, h.symm, ?_, fun u hu => ?_, hi.nodup, fun u => ?_, fun u => ?_⟩
    · cases o with
      | none => exact hi.owned
      | some w =>
        have hwt : w ≠ t := fun h => ho (by rw [h])
        exact ⟨hi.owned.1, by simpa [State.goto, hwt] using hi.owned.2⟩
    · by_cases hut : u = t
      · simpa [Idle, State.goto, hut] using (hi.idle t ho).1
      · simpa [Idle, State.goto, hut] using hi.idle u hu
    · by_cases hut : u = t
      · simp [State.goto, hut, not_mem_waiters hi hr, hr]
      · simpa [State.goto, hut] using hi.mem_waiters u
    · by_cases hut : u = t
      · exact Or.inl (by rw [hut]; exact hr)
      · simpa [State.goto, hut] using hi.status u
  · obtain ⟨taken, st, sem, hdown, o', hi'⟩ := inv_down hi ho hr hpc
    simp only [hpc, hdown, ok_bind, Option.some.injEq] at h
    exact ⟨o', _, h.symm, hi'⟩

/-- Every step of a shallow run leads to a state with the invariant. -/
theorem step_inv (hi : Inv o s) {e : Event T} {r : Except Halt (State T)}
    (h : ((machine T).guard Shallow).step s e = some r) : ∃ o' s', r = .ok s' ∧ Inv o' s' := by
  obtain ⟨hsh, h⟩ := Machine.guard_step h
  cases e with
  | acquire t =>
    simp only [machine] at h
    split at h
    · next hc =>
      refine ⟨o, _, (Option.some.inj h).symm, ?_⟩
      by_cases ho : o = some t
      · subst ho
        have hown := hi.owned.2
        rw [hc.1] at hown
        exact owner_goto hi hc.2 nofun ⟨hown.1, hsh, hown.2.2⟩
      · exact idle_goto hi ho hc.2 hc.1
    · cases h
  | release t =>
    simp only [machine] at h
    split at h
    · next hc =>
      refine ⟨o, _, (Option.some.inj h).symm, ?_⟩
      by_cases ho : o = some t
      · subst ho
        have hown := hi.owned.2
        rw [hc.1] at hown
        exact owner_goto hi hc.2.1 nofun hown
      · exact absurd (hi.idle t ho).1 (by omega)
    · cases h
  | step t =>
    simp only [machine] at h
    split at h
    · next hr =>
      by_cases ho : o = some t
      · subst ho
        exact inv_stmt_owner hi hr h
      · exact inv_stmt_idle hi ho hr h
    · cases h

theorem run_inv {es : List (Event T)} {r : Except Halt (State T)}
    (h : ((machine T).guard Shallow).run init es = some r) : ∃ s, r = .ok s ∧ ∃ o, Inv o s := by
  refine Machine.run_safe (I := fun s => ∃ o, Inv o s) (fun s e s' ⟨o, hi⟩ hs => ?_)
    (fun s e x ⟨o, hi⟩ hx => ?_) ⟨none, inv_init⟩ h
  · obtain ⟨o', s₁, h₁, hi₁⟩ := step_inv hi hs
    cases h₁
    exact ⟨o', hi₁⟩
  · obtain ⟨o', s₁, h₁, -⟩ := step_inv hi hx
    cases h₁

omit [DecidableEq T] in
/-- A thread inside is the one that holds the semaphore, and the lock says so. -/
theorem inside_owner (hi : Inv o s) (ht : Inside s t) :
    o = some t ∧ s.lk.holder = some t ∧ s.lk.holderRepeatNr = s.depth t := by
  have ho : o = some t := by
    by_contra ho
    have := (hi.idle t ho).1
    have := ht.1
    omega
  subst ho
  have hown := hi.owned.2
  obtain ⟨h0, h1⟩ := ht
  refine ⟨rfl, ?_⟩
  cases hpc : s.pc t <;> simp only [hpc, OwnerAt, Pc.InRelease, forall_const] at hown h1
  all_goals first
    | exact ⟨hown.2.2.1, hown.2.2.2⟩
    | exact ⟨hown.2.2.1, hown.2.2.2.1⟩
    | omega

/-- **Mutual exclusion.**  After every interleaving of properly nested calls whose nesting depth
stays below `2 ^ 32`: no assertion has failed, at most one thread is inside, and while a thread is
inside `holder` is that thread and `holder_repeat_nr` its nesting depth. -/
theorem mutual_exclusion {es : List (Event T)} {r : Except Halt (State T)}
    (h : ((machine T).guard Shallow).run init es = some r) :
    ∃ s, r = .ok s ∧ (∀ t u, Inside s t → Inside s u → t = u) ∧
      ∀ t, Inside s t → s.lk.holder = some t ∧ s.lk.holderRepeatNr = s.depth t := by
  obtain ⟨s, rfl, o, hi⟩ := run_inv h
  refine ⟨s, rfl, fun t u ht hu => ?_, fun t ht => (inside_owner hi ht).2⟩
  have h₁ := (inside_owner hi ht).1
  have h₂ := (inside_owner hi hu).1
  exact Option.some.inj (h₁.symm.trans h₂)

/-- Two threads: while the first is inside, the second waits. -/
theorem mutual_exclusion_two_threads :
    ∃ s : State Bool,
      ((machine Bool).guard Shallow).run init
        ([.acquire false] ++ List.replicate 5 (.step false) ++
          [.acquire true, .step true, .step true]) = some (.ok s) ∧
      Inside s false ∧ s.lk.semaphore.waiters = [true] ∧
      s.lk.holder = some false ∧ s.lk.holderRepeatNr = s.depth false := by
  have h : ((machine Bool).guard Shallow).run init
      ([.acquire false] ++ List.replicate 5 (.step false) ++
        [.acquire true, .step true, .step true]) = some (.ok _) := rfl
  obtain ⟨s, hs, -, hin⟩ := mutual_exclusion h
  cases hs
  exact ⟨_, h, ⟨Nat.one_pos, False.elim⟩, rfl, hin false ⟨Nat.one_pos, False.elim⟩⟩

/-! ## The course of a call -/

/-- The statements of `lock_acquire`. -/
def Pc.InAcquire : Pc → Prop
  | .acquire | .down | .setHolder | .assertZero | .setOne | .incRead | .incWrite _ => True
  | _ => False

/-- A statement moves the thread that executes it only; the call goes on, or it returns. -/
theorem stmt_moves {s' : State T} (h : stmt s t = some (.ok s')) :
    ∃ p d, s'.pc = Function.update s.pc t p ∧ s'.depth = Function.update s.depth t d ∧
      ((s.pc t).InAcquire → p.InAcquire ∧ d = s.depth t ∨ p = .out ∧ d = s.depth t + 1) ∧
      ((s.pc t).InRelease → p.InRelease ∧ d = s.depth t ∨ p = .out ∧ d = s.depth t - 1) := by
  have hdepth : s.depth = Function.update s.depth t (s.depth t) := (update_depth_self s t).symm
  unfold stmt at h
  cases hpc : s.pc t <;> simp only [hpc, Option.some.injEq, Except.ok.injEq, reduceCtorEq,
    bind_eq_ok, assert_eq_ok] at h
  case down =>
    obtain ⟨⟨taken, st, sem⟩, -, rfl⟩ := h
    cases taken with
    | false =>
      have hsame : s.pc = Function.update s.pc t .down := by rw [← hpc, Function.update_eq_self]
      exact ⟨.down, _, hsame, hdepth, by simp [Pc.InAcquire], by simp [Pc.InRelease]⟩
    | true => exact ⟨.setHolder, _, rfl, hdepth, by simp [Pc.InAcquire], by simp [Pc.InRelease]⟩
  case acquire =>
    subst h
    refine ⟨_, _, rfl, hdepth, fun _ => Or.inl ⟨?_, rfl⟩, by simp [Pc.InRelease]⟩
    split <;> trivial
  case test =>
    subst h
    refine ⟨_, _, rfl, hdepth, by simp [Pc.InAcquire], fun _ => Or.inl ⟨?_, rfl⟩⟩
    split <;> trivial
  case assertZero | release | assertOne | up =>
    obtain ⟨_, -, rfl⟩ := h
    first
      | exact ⟨_, _, rfl, rfl, by simp [Pc.InAcquire], by simp [Pc.InRelease]⟩
      | exact ⟨_, _, rfl, hdepth, by simp [Pc.InAcquire], by simp [Pc.InRelease]⟩
  all_goals
    subst h
    first
      | exact ⟨_, _, rfl, rfl, by simp [Pc.InAcquire], by simp [Pc.InRelease]⟩
      | exact ⟨_, _, rfl, hdepth, by simp [Pc.InAcquire], by simp [Pc.InRelease]⟩

/-! ## The wrap-around of `holder_repeat_nr` -/

/-- The thread holds the lock with the nesting depth `n` and is between calls. -/
structure Nested (t : T) (n : ℕ) (s : State T) : Prop where
  pc : s.pc t = .out
  ready : s.st t = .ready
  holder : s.lk.holder = some t
  depth : s.depth t = n
  nr : s.lk.holderRepeatNr = n % 2 ^ 32

theorem nested_one (t : T) :
    ∃ s, (machine T).run init (.acquire t :: List.replicate 5 (.step t)) = some (.ok s) ∧
      Nested t 1 s := by
  have hdown : semaDownPass (fun _ : T => .ready) (semaInit 1) t =
      .ok (true, fun _ => .ready, ⟨0, []⟩) := semaDownPass_one rfl
  refine ⟨_, by
    simp [Machine.run, machine, stmt, State.goto, State.ret, init, lockInit, List.replicate,
      hdown, ok_bind, assert_bind_of]
    rfl, ?_⟩
  constructor <;> simp

/-- A nested `lock_acquire` counts modulo `2 ^ 32`. -/
theorem nested_succ {t : T} {n : ℕ} {s : State T} (hn : Nested t n s) :
    ∃ s', (machine T).run s (.acquire t :: List.replicate 3 (.step t)) = some (.ok s') ∧
      Nested t (n + 1) s' := by
  refine ⟨_, by
    simp [Machine.run, machine, stmt, State.goto, State.ret, List.replicate, hn.pc, hn.ready,
      hn.holder]
    rfl, ?_⟩
  constructor
  · simp
  · exact hn.ready
  · simp
  · simp [hn.depth]
  · simp only [hn.nr]
    omega

/-- Any nesting depth can be reached. -/
theorem exists_nested (t : T) (n : ℕ) :
    ∃ es s, (machine T).run init es = some (.ok s) ∧ Nested t (n + 1) s := by
  induction n with
  | zero =>
    obtain ⟨s, hs, hn⟩ := nested_one t
    exact ⟨_, s, hs, hn⟩
  | succ n ih =>
    obtain ⟨es, s, hs, hn⟩ := ih
    obtain ⟨s', hs', hn'⟩ := nested_succ hn
    exact ⟨es ++ _, s', by rw [Machine.run_append _ hs]; exact hs', hn'⟩

/-- At the nesting depth `2 ^ 32` the count is 0, and the next `lock_release` fails its assertion. -/
theorem holder_repeat_nr_wraps :
    ∃ es s, (machine Unit).run init es = some (.ok s) ∧ Inside s () ∧ s.depth () = 2 ^ 32 ∧
      s.lk.holderRepeatNr = 0 ∧
      (machine Unit).run init (es ++ .release () :: List.replicate 3 (.step ())) =
        some (.error (.panic "lock_release" "plock->holder_repeat_nr == 1")) := by
  obtain ⟨es, s, hs, hn⟩ := exists_nested () (2 ^ 32 - 1)
  have hnr : s.lk.holderRepeatNr = 0 := hn.nr
  refine ⟨es, s, hs, ⟨?_, fun h => ?_⟩, hn.depth, hnr, ?_⟩
  · rw [hn.depth]
    omega
  · rw [hn.pc] at h
    exact h.elim
  · rw [Machine.run_append _ hs]
    simp [Machine.run, machine, stmt, State.goto, List.replicate, hn.pc, hn.ready, hn.depth,
      hn.holder, hnr, assert_bind_of, assert_bind_of_not]

end HcOs.LockRun
