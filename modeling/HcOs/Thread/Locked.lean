import HcOs.Lib.Code
import HcOs.Thread.Lock

/-!
# Routines under a lock (`thread/sync.c`)

Any number of threads that run routines over common data, each between `lock_acquire` and
`lock_release` of one lock.  A thread can be preempted between any two statements of the lock and
between any two pieces of a routine.

* `serial`: as long as code that does not take the lock keeps away while a routine is going on, the
  data is what the routines make of it one after the other, in the order in which their threads got
  the lock.
-/

namespace HcOs.Locked

open HcOs.Lib
open HcOs.LockRun (Inside Shallow)

variable {T D Op : Type}

/-- What a thread is doing. -/
inductive Job (D Op : Type) where
  | idle
  /-- In `lock_acquire`. -/
  | acquiring (op : Op)
  /-- Between the two calls; the pieces that are left. -/
  | inside (code : Code D Halt)
  /-- In `lock_release`. -/
  | releasing

structure State (T D Op : Type) where
  lock : LockRun.State T
  data : D
  job : T → Job D Op
  /-- The thread that is between the two calls. -/
  writer : Option T
  /-- The routines, from the first that got the lock on. -/
  log : List Op

def init (d₀ : D) : State T D Op where
  lock := LockRun.init
  data := d₀
  job _ := .idle
  writer := none
  log := []

inductive Event (T Op : Type) where
  | call (t : T) (op : Op)
  /-- The next statement of the thread. -/
  | step (t : T)
  /-- A routine without the lock and without interruption: an interrupt handler. -/
  | other (op : Op)

variable [DecidableEq T] (code : Op → Code D Halt)

def State.setJob (s : State T D Op) (t : T) (job : Job D Op) : State T D Op :=
  { s with job := Function.update s.job t job }

/-- The thread `t` has `lock_acquire` behind it, or not yet. -/
def State.acquired (s : State T D Op) (t : T) (op : Op) (lock : LockRun.State T) : State T D Op :=
  if lock.pc t = .out then
    { s with lock, writer := some t, log := s.log ++ [op] }.setJob t (.inside (code op))
  else { s with lock }

/-- The thread `t` has `lock_release` behind it, or not yet. -/
def State.released (s : State T D Op) (t : T) (lock : LockRun.State T) : State T D Op :=
  if lock.pc t = .out then { s with lock }.setJob t .idle else { s with lock }

def stepThread (s : State T D Op) (t : T) : Option (Except Halt (State T D Op)) :=
  match s.job t with
  | .idle => none
  | .acquiring op =>
    ((LockRun.machine T).step s.lock (.step t)).map (Except.map (s.acquired code t op))
  | .inside .done =>
    ((LockRun.machine T).step s.lock (.release t)).map (Except.map fun lock =>
      { s with lock, writer := none }.setJob t .releasing)
  | .inside (.piece act rest) =>
    some ((act s.data).map fun data => { s with data }.setJob t (.inside (rest s.data)))
  | .releasing => ((LockRun.machine T).step s.lock (.step t)).map (Except.map (s.released t))

def machine : Machine (State T D Op) (Event T Op) Halt where
  step s
    | .call t op =>
      match s.job t with
      | .idle => ((LockRun.machine T).step s.lock (.acquire t)).map (Except.map fun lock =>
          { s with lock }.setJob t (.acquiring op))
      | .acquiring _ => none
      | .inside _ => none
      | .releasing => none
    | .step t => stepThread code s t
    | .other op =>
      some (((code op).run s.data).map fun data => { s with data, log := s.log ++ [op] })

/-- No code without the lock runs while a routine is going on. -/
def Quiet (s : State T D Op) : Event T Op → Prop
  | .other _ => s.writer = none
  | .call _ _ | .step _ => True

instance (s : State T D Op) : ∀ e, Decidable (Quiet s e)
  | .other _ => inferInstanceAs (Decidable (s.writer = none))
  | .call _ _ | .step _ => inferInstanceAs (Decidable True)

/-- The routines one after the other. -/
def all (ops : List Op) (d : D) : Except Halt D := ops.foldlM (fun d op => (code op).run d) d

/-! ## The invariant -/

/-- Where a thread is in the code of the lock. -/
def At (lock : LockRun.State T) (t : T) : Job D Op → Prop
  | .idle => lock.pc t = .out ∧ lock.depth t = 0
  | .acquiring _ => (lock.pc t).InAcquire ∧ lock.depth t = 0
  | .inside _ => lock.pc t = .out ∧ lock.depth t = 1
  | .releasing => (lock.pc t).InRelease ∧ lock.depth t = 1

/-- The pieces that are left of the routine that is going on. -/
def State.rest (s : State T D Op) : Code D Halt :=
  match s.writer with
  | none => .done
  | some t =>
    match s.job t with
    | .inside c => c
    | .idle => .done
    | .acquiring _ => .done
    | .releasing => .done

structure Inv (d₀ : D) (s : State T D Op) : Prop where
  lock : ∃ o, LockRun.Inv o s.lock
  at_ : ∀ t, At s.lock t (s.job t)
  writer : ∀ t, s.writer = some t ↔ ∃ c, s.job t = .inside c
  data : s.rest.run s.data = all code s.log d₀

variable {code} {d₀ : D} {s : State T D Op} {t u : T} {lock lock' : LockRun.State T}

/-! ## Steps of the lock -/

theorem lock_step (hi : ∃ o, LockRun.Inv o lock) {e : LockRun.Event T} (hsh : Shallow lock e)
    {r : Except Halt (LockRun.State T)} (h : (LockRun.machine T).step lock e = some r) :
    ∃ lock', r = .ok lock' ∧ ∃ o, LockRun.Inv o lock' := by
  obtain ⟨o, hi⟩ := hi
  have hguard : ((LockRun.machine T).guard Shallow).step lock e = some r := (if_pos hsh).trans h
  obtain ⟨o', lock', hr, hi'⟩ := LockRun.step_inv hi hguard
  exact ⟨lock', hr, o', hi'⟩

theorem acquire_step (h : (LockRun.machine T).step lock (.acquire t) = some (.ok lock')) :
    lock' = lock.goto t .acquire := by
  simp only [LockRun.machine] at h
  split_ifs at h
  cases h
  rfl

theorem release_step (h : (LockRun.machine T).step lock (.release t) = some (.ok lock')) :
    lock' = lock.goto t .release := by
  simp only [LockRun.machine] at h
  split_ifs at h
  cases h
  rfl

theorem stmt_step (h : (LockRun.machine T).step lock (.step t) = some (.ok lock')) :
    LockRun.stmt lock t = some (.ok lock') := by
  simp only [LockRun.machine] at h
  split_ifs at h
  exact h

/-- A step of the lock moves the thread that makes it only. -/
theorem At.other {p : LockRun.Pc} {d : ℕ} (hpc : lock'.pc = Function.update lock.pc t p)
    (hdepth : lock'.depth = Function.update lock.depth t d) (hne : u ≠ t) {job : Job D Op}
    (h : At lock u job) : At lock' u job := by
  have hpcu : lock'.pc u = lock.pc u := by rw [hpc, Function.update_of_ne hne]
  have hdepthu : lock'.depth u = lock.depth u := by rw [hdepth, Function.update_of_ne hne]
  cases job with
  | idle => exact ⟨hpcu.trans h.1, hdepthu.trans h.2⟩
  | acquiring op => exact ⟨hpcu ▸ h.1, hdepthu.trans h.2⟩
  | inside c => exact ⟨hpcu.trans h.1, hdepthu.trans h.2⟩
  | releasing => exact ⟨hpcu ▸ h.1, hdepthu.trans h.2⟩

theorem At.goto {job : Job D Op} (h : At lock u job) (hne : u ≠ t) (p : LockRun.Pc) :
    At (lock.goto t p) u job := by
  have hpc : (lock.goto t p).pc = Function.update lock.pc t p := rfl
  exact h.other hpc (LockRun.update_depth_self lock t).symm hne

/-- `lock_acquire` goes on, or it returns. -/
theorem acquiring_step {op : Op} (hat : At lock t (.acquiring op : Job D Op))
    (h : LockRun.stmt lock t = some (.ok lock')) :
    (∀ u job, u ≠ t → At lock u (job : Job D Op) → At lock' u job) ∧
      (lock'.pc t ≠ .out → At lock' t (.acquiring op : Job D Op)) ∧
      ∀ c, lock'.pc t = .out → At lock' t (.inside c : Job D Op) := by
  obtain ⟨p, d, hpc, hdepth, hacq, -⟩ := LockRun.stmt_moves h
  have hpct : lock'.pc t = p := by rw [hpc, Function.update_self]
  have hdeptht : lock'.depth t = d := by rw [hdepth, Function.update_self]
  have hcases := hacq hat.1
  rw [hat.2] at hcases
  refine ⟨fun u job hne hu => hu.other hpc hdepth hne, fun hout => ?_, fun c hout => ?_⟩
  · rcases hcases with ⟨hin, hd⟩ | ⟨hp, -⟩
    · exact ⟨hpct ▸ hin, hdeptht.trans hd⟩
    · exact absurd (hpct.trans hp) hout
  · rcases hcases with ⟨hin, -⟩ | ⟨-, hd⟩
    · rw [← hpct, hout] at hin
      exact hin.elim
    · exact ⟨hout, hdeptht.trans hd⟩

/-- `lock_release` goes on, or it returns. -/
theorem releasing_step (hat : At lock t (.releasing : Job D Op))
    (h : LockRun.stmt lock t = some (.ok lock')) :
    (∀ u job, u ≠ t → At lock u (job : Job D Op) → At lock' u job) ∧
      (lock'.pc t ≠ .out → At lock' t (.releasing : Job D Op)) ∧
      (lock'.pc t = .out → At lock' t (.idle : Job D Op)) := by
  obtain ⟨p, d, hpc, hdepth, -, hrel⟩ := LockRun.stmt_moves h
  have hpct : lock'.pc t = p := by rw [hpc, Function.update_self]
  have hdeptht : lock'.depth t = d := by rw [hdepth, Function.update_self]
  have hcases := hrel hat.1
  rw [hat.2] at hcases
  refine ⟨fun u job hne hu => hu.other hpc hdepth hne, fun hout => ?_, fun hout => ?_⟩
  · rcases hcases with ⟨hin, hd⟩ | ⟨hp, -⟩
    · exact ⟨hpct ▸ hin, hdeptht.trans hd⟩
    · exact absurd (hpct.trans hp) hout
  · rcases hcases with ⟨hin, -⟩ | ⟨-, hd⟩
    · rw [← hpct, hout] at hin
      exact hin.elim
    · exact ⟨hout, hdeptht.trans hd⟩

omit [DecidableEq T] in
/-- Only one thread is between the two calls. -/
theorem inside_unique (hi : ∃ o, LockRun.Inv o lock) {c c' : Code D Halt}
    (ht : At lock t (.inside c : Job D Op)) (hu : At lock u (.inside c' : Job D Op)) : u = t := by
  obtain ⟨o, hi⟩ := hi
  have hinside : ∀ {v : T}, lock.pc v = .out → lock.depth v = 1 → Inside lock v := fun hpc hd =>
    ⟨by omega, fun hrel => by rw [hpc] at hrel; exact hrel.elim⟩
  have ht' := (LockRun.inside_owner hi (hinside ht.1 ht.2)).1
  have hu' := (LockRun.inside_owner hi (hinside hu.1 hu.2)).1
  exact Option.some.inj (hu'.symm.trans ht')

/-! ## Steps of the threads -/

omit [DecidableEq T] in
theorem Inv.job_of_writer (h : Inv code d₀ s) (hw : s.writer = some t) : ∃ c, s.job t = .inside c :=
  (h.writer t).mp hw

omit [DecidableEq T] in
theorem Inv.not_writer (h : Inv code d₀ s) (hjob : ∀ c, s.job t ≠ .inside c) : s.writer ≠ some t :=
  fun hw => (h.writer t).mp hw |>.elim hjob

/-- Where the threads are after the thread `t` has another job. -/
theorem Inv.at_setJob (h : Inv code d₀ s) {job : Job D Op}
    (hother : ∀ u job, u ≠ t → At s.lock u (job : Job D Op) → At lock' u job)
    (hat : At lock' t job) (u : T) : At lock' u (Function.update s.job t job u) := by
  by_cases hu : u = t
  · rw [hu, Function.update_self]
    exact hat
  · rw [Function.update_of_ne hu]
    exact hother u _ hu (h.at_ u)

/-- The invariant after the thread `t`, which is not the writer before and after, has another
job. -/
theorem Inv.setJob (h : Inv code d₀ s) (hlock : ∃ o, LockRun.Inv o lock') {job : Job D Op}
    (hother : ∀ u job, u ≠ t → At s.lock u (job : Job D Op) → At lock' u job)
    (hat : At lock' t job) (hold : ∀ c, s.job t ≠ .inside c) (hnew : ∀ c, job ≠ .inside c) :
    Inv code d₀ ({ s with lock := lock' }.setJob t job) := by
  have hw := h.not_writer hold
  have hne : ∀ u, u ≠ t → Function.update s.job t job u = s.job u := fun u hu =>
    Function.update_of_ne hu _ _
  refine ⟨hlock, h.at_setJob hother hat, fun u => ?_, ?_⟩
  · show s.writer = some u ↔ ∃ c, Function.update s.job t job u = .inside c
    by_cases hu : u = t
    · rw [hu, Function.update_self]
      exact ⟨fun heq => absurd heq hw, fun ⟨c, hc⟩ => absurd hc (hnew c)⟩
    · rw [hne u hu]
      exact h.writer u
  · have hrest : ({ s with lock := lock' }.setJob t job).rest = s.rest := by
      unfold State.rest State.setJob
      dsimp only
      cases hwr : s.writer with
      | none => rfl
      | some u =>
        have hu : u ≠ t := fun heq => hw (heq ▸ hwr)
        dsimp only
        rw [hne u hu]
    rw [hrest]
    exact h.data

omit [DecidableEq T] in
theorem rest_of_writer {c : Code D Halt} (hw : s.writer = some t) (hjob : s.job t = .inside c) :
    s.rest = c := by
  unfold State.rest
  rw [hw]
  dsimp only
  rw [hjob]

omit [DecidableEq T] in
theorem Inv.data_of_none (h : Inv code d₀ s) (hw : s.writer = none) :
    all code s.log d₀ = .ok s.data := by
  have hrest : s.rest = .done := by
    unfold State.rest
    rw [hw]
  rw [← h.data, hrest]
  rfl

theorem all_append (ops : List Op) (op : Op) (d : D) :
    all code (ops ++ [op]) d = (all code ops d).bind (code op).run := by
  unfold all
  rw [List.foldlM_append]
  refine congrArg (Except.bind _) (funext fun d' => ?_)
  rw [List.foldlM_cons]
  cases (code op).run d' <;> rfl

/-- The thread gets the lock. -/
theorem Inv.enter (h : Inv code d₀ s) (hlock : ∃ o, LockRun.Inv o lock') {op : Op}
    (hother : ∀ u job, u ≠ t → At s.lock u (job : Job D Op) → At lock' u job)
    (hat : ∀ c, At lock' t (.inside c : Job D Op)) (hold : ∀ c, s.job t ≠ .inside c) :
    Inv code d₀ ({ s with lock := lock', writer := some t, log := s.log ++ [op] }.setJob t
      (.inside (code op))) := by
  have hnone : s.writer = none := by
    cases hw : s.writer with
    | none => rfl
    | some u =>
      obtain ⟨c, hc⟩ := h.job_of_writer hw
      have hu : u ≠ t := fun heq => hold c (heq ▸ hc)
      have hatu := hother u _ hu (h.at_ u)
      rw [hc] at hatu
      exact absurd (inside_unique hlock (hat c) hatu) hu
  refine ⟨hlock, h.at_setJob hother (hat _), fun u => ?_, ?_⟩
  · show some t = some u ↔ ∃ c, Function.update s.job t (.inside (code op)) u = .inside c
    by_cases hu : u = t
    · rw [hu, Function.update_self]
      exact ⟨fun _ => ⟨_, rfl⟩, fun _ => rfl⟩
    · rw [Function.update_of_ne hu]
      refine ⟨fun heq => absurd (Option.some.inj heq).symm hu, fun hc => ?_⟩
      rw [(h.writer u).mpr hc] at hnone
      cases hnone
  · rw [rest_of_writer (t := t) (c := code op) rfl (Function.update_self t _ s.job)]
    show (code op).run s.data = all code (s.log ++ [op]) d₀
    rw [all_append, h.data_of_none hnone]
    rfl

/-- The routine is done. -/
theorem Inv.leave (h : Inv code d₀ s) (hlock : ∃ o, LockRun.Inv o lock')
    (hother : ∀ u job, u ≠ t → At s.lock u (job : Job D Op) → At lock' u job)
    (hat : At lock' t (.releasing : Job D Op)) (hjob : s.job t = .inside .done) :
    Inv code d₀ ({ s with lock := lock', writer := none }.setJob t .releasing) := by
  have hw : s.writer = some t := (h.writer t).mpr ⟨_, hjob⟩
  refine ⟨hlock, h.at_setJob hother hat, fun u => ?_, ?_⟩
  · show none = some u ↔ ∃ c, Function.update s.job t .releasing u = .inside c
    by_cases hu : u = t
    · rw [hu, Function.update_self]
      refine ⟨fun heq => ?_, fun ⟨c, hc⟩ => ?_⟩
      · cases heq
      · cases hc
    · rw [Function.update_of_ne hu]
      refine ⟨fun heq => ?_, fun hc => ?_⟩
      · cases heq
      · rw [← h.writer u, hw] at hc
        exact absurd (Option.some.inj hc).symm hu
  · have hdata := h.data
    rw [rest_of_writer hw hjob] at hdata
    exact hdata

/-- A piece of the routine. -/
theorem Inv.piece (h : Inv code d₀ s) {act : D → Except Halt D} {rest : D → Code D Halt} {data : D}
    (hjob : s.job t = .inside (.piece act rest)) (hact : act s.data = .ok data) :
    Inv code d₀ ({ s with data }.setJob t (.inside (rest s.data))) := by
  have hw : s.writer = some t := (h.writer t).mpr ⟨_, hjob⟩
  have hat := h.at_ t
  rw [hjob] at hat
  refine ⟨h.lock, h.at_setJob (fun _ _ _ hu => hu) hat, fun u => ?_, ?_⟩
  · show s.writer = some u ↔ ∃ c, Function.update s.job t (.inside (rest s.data)) u = .inside c
    by_cases hu : u = t
    · rw [hu, Function.update_self]
      exact ⟨fun _ => ⟨_, rfl⟩, fun _ => hw⟩
    · rw [Function.update_of_ne hu]
      exact h.writer u
  · have hdata := h.data
    rw [rest_of_writer hw hjob, Code.run, hact] at hdata
    have hrest : ({ s with data }.setJob t (.inside (rest s.data))).rest = rest s.data :=
      rest_of_writer hw (Function.update_self t _ s.job)
    rw [hrest]
    exact hdata

theorem call_cases {op : Op} {r : Except Halt (State T D Op)}
    (hs : (machine code).step s (.call t op) = some r) :
    s.job t = .idle ∧ ∃ r', (LockRun.machine T).step s.lock (.acquire t) = some r' ∧
      r = r'.map fun lock => { s with lock }.setJob t (.acquiring op) := by
  simp only [machine] at hs
  cases hjob : s.job t with
  | idle =>
    rw [hjob] at hs
    obtain ⟨r', hr', rfl⟩ := Option.map_eq_some_iff.mp hs
    exact ⟨rfl, r', hr', rfl⟩
  | acquiring op' => rw [hjob] at hs; cases hs
  | inside c => rw [hjob] at hs; cases hs
  | releasing => rw [hjob] at hs; cases hs

/-- What the next statement of a thread can be. -/
theorem stepThread_cases {r : Except Halt (State T D Op)} (hs : stepThread code s t = some r) :
    (∃ op r', s.job t = .acquiring op ∧ (LockRun.machine T).step s.lock (.step t) = some r' ∧
        r = r'.map (s.acquired code t op)) ∨
      (∃ r', s.job t = .inside .done ∧ (LockRun.machine T).step s.lock (.release t) = some r' ∧
        r = r'.map fun lock => { s with lock, writer := none }.setJob t .releasing) ∨
      (∃ act rest, s.job t = .inside (.piece act rest) ∧
        r = (act s.data).map fun data => { s with data }.setJob t (.inside (rest s.data))) ∨
      ∃ r', s.job t = .releasing ∧ (LockRun.machine T).step s.lock (.step t) = some r' ∧
        r = r'.map (s.released t) := by
  unfold stepThread at hs
  cases hjob : s.job t with
  | idle =>
    rw [hjob] at hs
    cases hs
  | acquiring op =>
    rw [hjob] at hs
    obtain ⟨r', hr', rfl⟩ := Option.map_eq_some_iff.mp hs
    exact Or.inl ⟨op, r', rfl, hr', rfl⟩
  | inside c =>
    rw [hjob] at hs
    cases c with
    | done =>
      obtain ⟨r', hr', rfl⟩ := Option.map_eq_some_iff.mp hs
      exact Or.inr (Or.inl ⟨r', rfl, hr', rfl⟩)
    | piece act rest =>
      cases hs
      exact Or.inr (Or.inr (Or.inl ⟨act, rest, rfl, rfl⟩))
  | releasing =>
    rw [hjob] at hs
    obtain ⟨r', hr', rfl⟩ := Option.map_eq_some_iff.mp hs
    exact Or.inr (Or.inr (Or.inr ⟨r', rfl, hr', rfl⟩))

theorem stepThread_inv (h : Inv code d₀ s) {r : Except Halt (State T D Op)}
    (hs : stepThread code s t = some r) :
    (∃ s', r = .ok s' ∧ Inv code d₀ s') ∨ ∃ x, r = .error x ∧ all code s.log d₀ = .error x := by
  have hat := h.at_ t
  rcases stepThread_cases hs with ⟨op, r', hjob, hr', rfl⟩ | ⟨r', hjob, hr', rfl⟩ |
    ⟨act, rest, hjob, rfl⟩ | ⟨r', hjob, hr', rfl⟩
  · rw [hjob] at hat
    obtain ⟨lock', rfl, hlock⟩ := lock_step (e := .step t) h.lock trivial hr'
    obtain ⟨hother, hstay, henter⟩ := acquiring_step hat (stmt_step hr')
    have hold : ∀ c, s.job t ≠ .inside c := fun c hc => by
      rw [hjob] at hc
      cases hc
    refine Or.inl ⟨_, rfl, ?_⟩
    unfold State.acquired
    split_ifs with hout
    · exact h.enter hlock hother (fun c => henter c hout) hold
    · have hsame := h.setJob hlock hother (hstay hout) hold fun c hc => by cases hc
      rwa [State.setJob, ← hjob, Function.update_eq_self] at hsame
  · rw [hjob] at hat
    obtain ⟨lock', rfl, hlock⟩ := lock_step (e := .release t) h.lock trivial hr'
    have hgoto := release_step hr'
    subst hgoto
    refine Or.inl ⟨_, rfl, h.leave hlock (fun u job hne hu => hu.goto hne .release) ⟨?_, hat.2⟩
      hjob⟩
    show (Function.update s.lock.pc t .release t).InRelease
    rw [Function.update_self]
    trivial
  · cases hact : act s.data with
    | ok data => exact Or.inl ⟨_, rfl, h.piece hjob hact⟩
    | error x =>
      refine Or.inr ⟨x, rfl, ?_⟩
      rw [← h.data, rest_of_writer ((h.writer t).mpr ⟨_, hjob⟩) hjob, Code.run, hact]
      rfl
  · rw [hjob] at hat
    obtain ⟨lock', rfl, hlock⟩ := lock_step (e := .step t) h.lock trivial hr'
    obtain ⟨hother, hstay, hleave⟩ := releasing_step hat (stmt_step hr')
    have hold : ∀ c, s.job t ≠ .inside c := fun c hc => by
      rw [hjob] at hc
      cases hc
    refine Or.inl ⟨_, rfl, ?_⟩
    unfold State.released
    split_ifs with hout
    · exact h.setJob hlock hother (hleave hout) hold fun c hc => by cases hc
    · have hsame := h.setJob hlock hother (hstay hout) hold fun c hc => by cases hc
      rwa [State.setJob, ← hjob, Function.update_eq_self] at hsame

theorem call_inv {op : Op} (h : Inv code d₀ s) {r : Except Halt (State T D Op)}
    (hs : (machine code).step s (.call t op) = some r) : ∃ s', r = .ok s' ∧ Inv code d₀ s' := by
  obtain ⟨hjob, r', hr', rfl⟩ := call_cases hs
  have hat := h.at_ t
  rw [hjob] at hat
  have hshallow : Shallow s.lock (.acquire t) := by
    show s.lock.depth t + 1 < 2 ^ 32
    rw [hat.2]
    omega
  obtain ⟨lock', rfl, hlock⟩ := lock_step h.lock hshallow hr'
  have hgoto := acquire_step hr'
  subst hgoto
  refine ⟨_, rfl, h.setJob hlock (fun u job hne hu => hu.goto hne .acquire)
    ⟨?_, hat.2⟩ (fun c hc => ?_) fun c hc => by cases hc⟩
  · show (Function.update s.lock.pc t .acquire t).InAcquire
    rw [Function.update_self]
    trivial
  · rw [hjob] at hc
    cases hc

/-- A step of a thread; if it stops the machine, so do the routines one after the other. -/
theorem step_alone {e : Event T Op} (h : Inv code d₀ s) {r : Except Halt (State T D Op)}
    (hs : (machine code).step s e = some r) (hne : ∀ op, e ≠ .other op) :
    (∃ s', r = .ok s' ∧ Inv code d₀ s') ∨ ∃ x, r = .error x ∧ all code s.log d₀ = .error x := by
  cases e with
  | call t op => exact Or.inl (call_inv h hs)
  | step t => exact stepThread_inv h hs
  | other op => exact absurd rfl (hne op)

/-- The routines fail one after the other as well. -/
def Fails (code : Op → Code D Halt) (d₀ : D) (x : Halt) : Prop := ∃ ops, all code ops d₀ = .error x

theorem step_inv {e : Event T Op} (h : Inv code d₀ s) {r : Except Halt (State T D Op)}
    (hs : ((machine (T := T) code).guard Quiet).step s e = some r) :
    (∃ s', r = .ok s' ∧ Inv code d₀ s') ∨ ∃ x, r = .error x ∧ Fails code d₀ x := by
  obtain ⟨hquiet, hs⟩ := Machine.guard_step hs
  cases e with
  | call t op => exact Or.inl (call_inv h hs)
  | step t =>
    rcases stepThread_inv h hs with hok | ⟨x, hr, hx⟩
    · exact Or.inl hok
    · exact Or.inr ⟨x, hr, s.log, hx⟩
  | other op =>
    cases hs
    have hdata := h.data_of_none hquiet
    have hlog : all code (s.log ++ [op]) d₀ = (code op).run s.data := by
      rw [all_append, hdata]
      rfl
    cases hrun : (code op).run s.data with
    | error x => exact Or.inr ⟨x, rfl, _, hlog.trans hrun⟩
    | ok data =>
      refine Or.inl ⟨_, rfl, h.lock, h.at_, h.writer, ?_⟩
      have hrest : State.rest { s with data, log := s.log ++ [op] } = .done := by
        unfold State.rest
        dsimp only
        rw [show s.writer = none from hquiet]
      rw [hrest]
      exact (hlog.trans hrun).symm

/-! ## The order of the calls -/

/-- The routine of a thread that waits for the lock. -/
theorem setJob_acquiring {job : Job D Op} {op : Op}
    (hjob : (s.setJob t job).job u = .acquiring op) :
    s.job u = .acquiring op ∨ u = t ∧ job = .acquiring op := by
  have hupdate : Function.update s.job t job u = .acquiring op := hjob
  by_cases hu : u = t
  · rw [hu, Function.update_self] at hupdate
    exact Or.inr ⟨hu, hupdate⟩
  · rw [Function.update_of_ne hu] at hupdate
    exact Or.inl hupdate

theorem acquiring_of_setJob {job : Job D Op} {op : Op}
    (hjob : (s.setJob t job).job u = .acquiring op) (hne : ∀ op, job ≠ .acquiring op) :
    s.job u = .acquiring op :=
  (setJob_acquiring hjob).resolve_right fun ⟨_, hnew⟩ => hne op hnew

omit [DecidableEq T] in
theorem ok_map {A : Type} {r : Except Halt A} {f : A → State T D Op} {s' : State T D Op}
    (h : r.map f = .ok s') : ∃ a, r = .ok a ∧ f a = s' := by
  cases r with
  | error x => cases h
  | ok a => exact ⟨a, rfl, Except.ok.inj h⟩

/-- A step leaves the order of the routines as it is, and only a call makes a thread wait for the
lock; or a thread that waits gets the lock, and its routine is the next one. -/
theorem step_log {e : Event T Op} {s' : State T D Op}
    (hs : (machine code).step s e = some (.ok s')) (hne : ∀ op, e ≠ .other op) :
    (s'.log = s.log ∧
        ∀ u op, s'.job u = .acquiring op → s.job u = .acquiring op ∨ e = .call u op) ∨
      ∃ t op, s.job t = .acquiring op ∧ s'.log = s.log ++ [op] ∧
        ∀ u op', s'.job u = .acquiring op' → u ≠ t ∧ s.job u = .acquiring op' := by
  cases e with
  | call t op =>
    obtain ⟨-, r', -, hr⟩ := call_cases hs
    obtain ⟨lock', -, rfl⟩ := ok_map hr.symm
    refine Or.inl ⟨rfl, fun u op' hu => ?_⟩
    rcases setJob_acquiring hu with hold | ⟨rfl, hnew⟩
    · exact Or.inl hold
    · cases hnew
      exact Or.inr rfl
  | step t =>
    rcases stepThread_cases hs with ⟨op, r', hjob, -, hr⟩ | ⟨r', -, -, hr⟩ | ⟨act, rest, -, hr⟩ |
      ⟨r', -, -, hr⟩
    · obtain ⟨lock', -, rfl⟩ := ok_map hr.symm
      unfold State.acquired
      split_ifs with hout
      · refine Or.inr ⟨t, op, hjob, rfl, fun u op' hu => ?_⟩
        have hupdate : Function.update s.job t (.inside (code op)) u = .acquiring op' := hu
        have hut : u ≠ t := by
          rintro rfl
          rw [Function.update_self] at hupdate
          cases hupdate
        rw [Function.update_of_ne hut] at hupdate
        exact ⟨hut, hupdate⟩
      · exact Or.inl ⟨rfl, fun u op' hu => Or.inl hu⟩
    · obtain ⟨lock', -, rfl⟩ := ok_map hr.symm
      exact Or.inl ⟨rfl, fun u op hu => Or.inl (acquiring_of_setJob hu fun op' hop => by cases hop)⟩
    · obtain ⟨data, -, rfl⟩ := ok_map hr.symm
      exact Or.inl ⟨rfl, fun u op hu => Or.inl (acquiring_of_setJob hu fun op' hop => by cases hop)⟩
    · obtain ⟨lock', -, rfl⟩ := ok_map hr.symm
      unfold State.released
      split_ifs with hout
      · exact Or.inl ⟨rfl, fun u op hu => Or.inl (acquiring_of_setJob hu fun op' hop => by cases hop)⟩
      · exact Or.inl ⟨rfl, fun u op hu => Or.inl hu⟩
  | other op => exact absurd rfl (hne op)

/-- All routines with which the threads have been called so far are among those of `V`. -/
structure Meets (V : Op → Prop) (s : State T D Op) : Prop where
  log : ∀ op ∈ s.log, V op
  job : ∀ t op, s.job t = .acquiring op → V op

theorem Meets.step {V : Op → Prop} {e : Event T Op} {s' : State T D Op} (h : Meets V s)
    (hs : (machine code).step s e = some (.ok s')) (hne : ∀ op, e ≠ .other op)
    (hcall : ∀ t op, e = .call t op → V op) : Meets V s' := by
  rcases step_log hs hne with ⟨hlog, hjobs⟩ | ⟨t, op, hjob, hlog, hjobs⟩
  · refine ⟨fun op hop => h.log op (hlog ▸ hop), fun u op hu => ?_⟩
    rcases hjobs u op hu with hold | he
    · exact h.job u op hold
    · exact hcall u op he
  · refine ⟨fun op' hop => ?_, fun u op' hu => h.job u op' (hjobs u op' hu).2⟩
    rw [hlog, List.mem_append, List.mem_singleton] at hop
    rcases hop with hop | rfl
    · exact h.log op' hop
    · exact h.job t op' hjob

omit [DecidableEq T] in
theorem meets_init (V : Op → Prop) (d₀ : D) : Meets V (init d₀ : State T D Op) where
  log op hop := by cases hop
  job t op hjob := by cases hjob

/-! ## Main result -/

omit [DecidableEq T] in
theorem inv_init (code : Op → Code D Halt) (d₀ : D) : Inv code d₀ (init d₀ : State T D Op) where
  lock := ⟨none, LockRun.inv_init⟩
  at_ _ := ⟨rfl, rfl⟩
  writer t := by
    refine ⟨fun hw => ?_, fun hc => ?_⟩
    · cases hw
    · obtain ⟨c, hc⟩ := hc
      cases hc
  data := rfl

/-- **Routines under a lock.**  In every interleaving in which code without the lock keeps away
while a routine is going on, the assertions of the lock hold; what is left of the routine that is
going on, if there is one, makes of the data what the routines so far make of it one after the
other; and a routine that stops the machine stops it without the other threads as well. -/
theorem serial {es : List (Event T Op)} {r : Except Halt (State T D Op)}
    (h : ((machine (T := T) code).guard Quiet).run (init d₀) es = some r) :
    (∃ s, r = .ok s ∧ s.rest.run s.data = all code s.log d₀ ∧
        (s.writer = none → all code s.log d₀ = .ok s.data)) ∨
      ∃ x, r = .error x ∧ Fails code d₀ x := by
  rcases Machine.run_cases (I := Inv code d₀) (Q := Fails code d₀)
    (fun s e r hi hs => step_inv hi hs) (inv_init code d₀) h with ⟨s, hr, hi⟩ | herr
  · exact Or.inl ⟨s, hr, hi.data, hi.data_of_none⟩
  · exact Or.inr herr

end HcOs.Locked
