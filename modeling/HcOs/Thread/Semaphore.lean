import Mathlib.Data.List.Nodup
import HcOs.Lib.Machine
import HcOs.Thread.Sync

/-!
# No wakeup of a semaphore is lost

One semaphore, initialised with 0 or 1, and any number of threads that call `sema_down` and
`sema_up` on it.  Interrupts are disabled inside both functions, so a step is a call up to its
return or its `thread_block`, or the continuation of a `sema_down` after its `thread_block`.

`sema_up` wakes one waiter and raises `value`, but the woken thread has to test `value` again and
may find it taken by a third thread.  The invariant `Inv` ties the waiters, the counter and the
threads in flight (`woken`): the waiters cannot grow while `value` is 1, so a `value` of 1 beside
waiters means that the `sema_up` that raised it also woke a thread, which is still in flight.
-/

namespace HcOs.Sema

open HcOs.Lib

variable {T : Type} [DecidableEq T]

/-- The semaphore, the threads, and what has happened so far. -/
structure State (T : Type) where
  st : Statuses T
  sem : Semaphore T
  /-- The thread is inside `sema_down`, at its `thread_block`. -/
  inDown : T → Bool
  /-- The threads `sema_up` removed from `waiters` that have not tested `value` again. -/
  woken : List T
  /-- The number of completed calls of `sema_down`. -/
  downs : ℕ
  /-- The number of completed calls of `sema_up`. -/
  ups : ℕ

def init (value : ℕ) : State T where
  st _ := .ready
  sem := semaInit value
  inDown _ := false
  woken := []
  downs := 0
  ups := 0

inductive Event (T : Type) where
  /-- The thread calls `sema_down`. -/
  | down (t : T)
  /-- The thread continues its `sema_down` after `thread_block`. -/
  | resume (t : T)
  /-- Some thread or interrupt handler calls `sema_up`. -/
  | up

/-- A pass of the loop of `sema_down` by `t`. -/
def pass (s : State T) (t : T) : Except Halt (State T) := do
  let (taken, st, sem) ← semaDownPass s.st s.sem t
  .ok { s with st, sem, inDown := Function.update s.inDown t !taken
               downs := if taken then s.downs + 1 else s.downs }

/-- The calls and continuations a thread that is not blocked can make; `sema_up` is called only
when `value` is 0. -/
def machine (T : Type) [DecidableEq T] : Machine (State T) (Event T) Halt where
  step s
    | .down t => if s.inDown t = false ∧ s.st t = .ready then some (pass s t) else none
    | .resume t =>
      if s.inDown t = true ∧ s.st t = .ready then
        some (pass { s with woken := s.woken.erase t } t)
      else none
    | .up =>
      if s.sem.value = 0 then
        some (do
          let (st, sem) ← semaUp s.st s.sem
          .ok { s with st, sem, ups := s.ups + 1
                       woken := s.sem.waiters.head?.toList ++ s.woken })
      else none

/-- The semaphore invariant for the initial value `v`. -/
structure Inv (v : ℕ) (s : State T) : Prop where
  value_le : s.sem.value ≤ 1
  nodup : s.sem.waiters.Nodup
  /-- The waiters are the threads blocked in `sema_down`. -/
  mem_waiters : ∀ t, t ∈ s.sem.waiters ↔ s.inDown t = true ∧ s.st t = .blocked
  status : ∀ t, s.st t = .ready ∨ s.st t = .blocked ∧ s.inDown t = true
  woken_nodup : s.woken.Nodup
  mem_woken : ∀ t, t ∈ s.woken ↔ s.inDown t = true ∧ s.st t = .ready
  in_flight : s.sem.value = 1 → s.sem.waiters ≠ [] → s.woken ≠ []
  balance : s.downs + s.sem.value = v + s.ups

omit [DecidableEq T] in
theorem inv_init {v : ℕ} (hv : v ≤ 1) : Inv v (init v : State T) where
  value_le := hv
  nodup := List.nodup_nil
  mem_waiters t := by simp [init, semaInit]
  status _ := Or.inl rfl
  woken_nodup := List.nodup_nil
  mem_woken t := by simp [init]
  in_flight _ h := absurd rfl h
  balance := by simp [init, semaInit]

variable {v : ℕ} {s : State T} {t : T}

omit [DecidableEq T] in
theorem value_cases (hi : Inv v s) : s.sem.value = 0 ∨ s.sem.value = 1 := by
  have := hi.value_le
  omega

omit [DecidableEq T] in
theorem not_mem_waiters (hi : Inv v s) (hr : s.st t = .ready) : t ∉ s.sem.waiters := by
  rw [hi.mem_waiters, hr]
  rintro ⟨-, h⟩
  cases h

/-- A ready thread that makes a pass keeps the invariant; before the pass it is taken out of the
threads in flight. -/
theorem inv_pass (hi : Inv v s) (hr : s.st t = .ready) :
    ∃ s', pass { s with woken := s.woken.erase t } t = .ok s' ∧ Inv v s' := by
  have hnw := not_mem_waiters hi hr
  have hw : ∀ u, u ∈ s.woken.erase t ↔ u ≠ t ∧ u ∈ s.woken := fun u => hi.woken_nodup.mem_erase_iff
  rcases value_cases hi with h0 | h1
  · refine ⟨_, by rw [pass, semaDownPass_zero h0 hnw]; rfl, ?_⟩
    constructor
    · exact hi.value_le
    · exact List.nodup_append.mpr ⟨hi.nodup, List.nodup_singleton t, by
        intro a ha b hb hab
        rw [List.mem_singleton] at hb
        exact hnw (hb ▸ hab ▸ ha)⟩
    · intro u
      by_cases hu : u = t
      · simp [hu]
      · simp [hu, hi.mem_waiters u]
    · intro u
      by_cases hu : u = t
      · simp [hu]
      · simpa [hu] using hi.status u
    · exact hi.woken_nodup.erase t
    · intro u
      by_cases hu : u = t
      · simp [hu, hi.woken_nodup.not_mem_erase]
      · simp [hw, hu, hi.mem_woken u]
    · intro h
      exact absurd (h0.symm.trans h) (by decide)
    · exact hi.balance
  · refine ⟨_, by rw [pass, semaDownPass_one h1]; rfl, ?_⟩
    constructor
    · exact Nat.zero_le 1
    · exact hi.nodup
    · intro u
      by_cases hu : u = t
      · simp [hu, hnw]
      · simp [hu, hi.mem_waiters u]
    · intro u
      by_cases hu : u = t
      · simp [hu, hr]
      · simpa [hu] using hi.status u
    · exact hi.woken_nodup.erase t
    · intro u
      by_cases hu : u = t
      · simp [hu, hi.woken_nodup.not_mem_erase]
      · simp [hw, hu, hi.mem_woken u]
    · intro h
      cases h
    · have := hi.balance
      simp only [if_true]
      omega

theorem inv_up (hi : Inv v s) (h0 : s.sem.value = 0) :
    ∃ st sem, semaUp s.st s.sem = .ok (st, sem) ∧
      Inv v { s with st := st, sem := sem, ups := s.ups + 1,
                     woken := s.sem.waiters.head?.toList ++ s.woken } := by
  cases hws : s.sem.waiters with
  | nil =>
    refine ⟨_, _, semaUp_nil h0 hws, ?_⟩
    have hnone : ∀ u, ¬(s.inDown u = true ∧ s.st u = .blocked) := by
      intro u hu
      have := (hi.mem_waiters u).mpr hu
      rw [hws] at this
      cases this
    constructor
    · exact Nat.le_refl 1
    · exact List.nodup_nil
    · intro u
      simpa using hnone u
    · exact hi.status
    · simpa using hi.woken_nodup
    · simpa using hi.mem_woken
    · intro _ h
      exact absurd rfl h
    · have := hi.balance
      simp only
      omega
  | cons t ws =>
    have ht : s.inDown t = true ∧ s.st t = .blocked := by
      rw [← hi.mem_waiters, hws]
      exact List.mem_cons_self
    have hnd := hi.nodup
    rw [hws, List.nodup_cons] at hnd
    have hnw : t ∉ s.woken := by
      rw [hi.mem_woken, ht.2]
      rintro ⟨-, h⟩
      cases h
    refine ⟨_, _, semaUp_cons h0 hws ht.2, ?_⟩
    constructor
    · exact Nat.le_refl 1
    · exact hnd.2
    · intro u
      by_cases hu : u = t
      · simp [hu, hnd.1]
      · have := hi.mem_waiters u
        rw [hws, List.mem_cons] at this
        simpa [hu] using this
    · intro u
      by_cases hu : u = t
      · simp [hu]
      · simpa [hu] using hi.status u
    · simpa using ⟨hnw, hi.woken_nodup⟩
    · intro u
      by_cases hu : u = t
      · simp [hu, ht.1]
      · simpa [hu] using hi.mem_woken u
    · simp
    · have := hi.balance
      simp only
      omega

/-- A pass of a thread that is not inside `sema_down` is a pass with nothing to take out. -/
theorem erase_woken (hi : Inv v s) (hd : s.inDown t = false) : s.woken.erase t = s.woken := by
  apply List.erase_of_not_mem
  rw [hi.mem_woken, hd]
  simp

/-- Every step that can happen leads to a state with the invariant. -/
theorem step_inv (hi : Inv v s) {e : Event T} {r : Except Halt (State T)}
    (h : (machine T).step s e = some r) : ∃ s', r = .ok s' ∧ Inv v s' := by
  cases e with
  | down t =>
    simp only [machine] at h
    split at h
    · next hc =>
      obtain ⟨s', hs', hi'⟩ := inv_pass hi hc.2
      rw [erase_woken hi hc.1] at hs'
      exact ⟨s', by rw [← Option.some.inj h]; exact hs', hi'⟩
    · cases h
  | resume t =>
    simp only [machine] at h
    split at h
    · next hc =>
      obtain ⟨s', hs', hi'⟩ := inv_pass hi hc.2
      exact ⟨s', by rw [← Option.some.inj h]; exact hs', hi'⟩
    · cases h
  | up =>
    simp only [machine] at h
    split at h
    · next h0 =>
      obtain ⟨st, sem, hup, hi'⟩ := inv_up hi h0
      refine ⟨_, ?_, hi'⟩
      rw [← Option.some.inj h, hup]
      rfl
    · cases h

/-- The invariant holds after every run. -/
theorem run_inv (hv : v ≤ 1) {es : List (Event T)} {r : Except Halt (State T)}
    (h : (machine T).run (init v) es = some r) : ∃ s, r = .ok s ∧ Inv v s := by
  refine Machine.run_safe (fun s e s' hi hs => ?_) (fun s e x hi hx => ?_) (inv_init hv) h
  · obtain ⟨s₁, h₁, hi₁⟩ := step_inv hi hs
    cases h₁
    exact hi₁
  · obtain ⟨s₁, h₁, -⟩ := step_inv hi hx
    cases h₁

/-- **No wakeup is lost.**  After every interleaving of calls of `sema_down` and `sema_up`: no
assertion has failed; a `value` of 1 beside waiting threads comes with a woken thread that has yet
to test it; a thread blocked inside `sema_down` is on `waiters` exactly once; and the completed
calls balance. -/
theorem no_lost_wakeup {v : ℕ} (hv : v = 0 ∨ v = 1) {es : List (Event T)}
    {r : Except Halt (State T)} (h : (machine T).run (init v) es = some r) :
    ∃ s, r = .ok s ∧
      (s.sem.value = 1 → s.sem.waiters ≠ [] →
        ∃ t ∈ s.woken, t ∉ s.sem.waiters ∧ s.inDown t = true ∧ s.st t = .ready) ∧
      (∀ t, s.inDown t = true → (s.st t).IsBlocked → s.sem.waiters.count t = 1) ∧
      s.downs + s.sem.value = v + s.ups := by
  obtain ⟨s, rfl, hi⟩ := run_inv (by omega) h
  refine ⟨s, rfl, fun h1 hne => ?_, fun t hd hb => ?_, hi.balance⟩
  · obtain ⟨t, ht⟩ := List.exists_mem_of_ne_nil _ (hi.in_flight h1 hne)
    have hf := (hi.mem_woken t).mp ht
    exact ⟨t, ht, not_mem_waiters hi hf.2, hf⟩
  · refine List.count_eq_one_of_mem hi.nodup ((hi.mem_waiters t).mpr ⟨hd, ?_⟩)
    rcases hi.status t with hr | hbl
    · rw [hr] at hb
      rcases hb with h | h | h <;> cases h
    · exact hbl.1

/-- Two threads compete for the value 1; the second is blocked and then woken. -/
theorem no_lost_wakeup_two_threads :
    ∃ s : State Bool,
      (machine Bool).run (init 1) [.down false, .down true, .up] = some (.ok s) ∧
        s.woken = [true] ∧ s.downs + s.sem.value = 1 + s.ups := by
  have h : (machine Bool).run (init 1) [.down false, .down true, .up] = some (.ok _) := rfl
  obtain ⟨s, hs, -, -, hb⟩ := no_lost_wakeup (Or.inr rfl) h
  exact ⟨_, h, rfl, by cases hs; exact hb⟩

end HcOs.Sema
