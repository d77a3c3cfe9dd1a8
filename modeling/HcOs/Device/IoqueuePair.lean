import HcOs.Device.Ioqueue

/-!
# One producer and one consumer

A side that waits sleeps in `ioq_wait` with the lock of the queue in its hands, and the test of the
waiting loop is made before the lock is asked for.  The other side wakes the sleeper when it
completes a call, and may call again, as often as it likes, before the sleeper runs.  Once it has
filled (or emptied) the queue in this way it asks for the lock the sleeper still holds and is put on
the waiters of the semaphore.  From there its test is out of date: when it continues, it takes the
lock and sleeps on a queue that is not full (not empty) any more, or it finds the lock with the
sleeper of the next round and both threads are blocked.

`alive_iff`: these are the only runs that go wrong.
-/

namespace HcOs.Ioq

open HcOs.Lib

inductive Role where
  | producer
  | consumer
deriving DecidableEq

def Role.other : Role → Role
  | .producer => .consumer
  | .consumer => .producer

/-- The producer only calls `ioq_putchar`, the consumer only `ioq_getchar`. -/
def Role.fits {B : Type} : Role → Op B → Bool
  | .producer, .putchar _ => true
  | .consumer, .getchar => true
  | _, _ => false

variable {B : Type}

def Roles (_ : State Role B) : Event Role B → Prop
  | .call t op => t.fits op = true
  | .resume _ => True

instance (s : State Role B) : ∀ e, Decidable (Roles s e)
  | .call t op => inferInstanceAs (Decidable (t.fits op = true))
  | .resume _ => inferInstanceAs (Decidable True)

/-- The two threads. -/
def pair (B : Type) : Machine (State Role B) (Event Role B) Halt := (machine Role B).guard Roles

/-- The two threads are not blocked both, and a thread blocked in `ioq_wait` has a reason to be. -/
structure Alive (s : State Role B) : Prop where
  notBoth : ¬(s.st .producer = .blocked ∧ s.st .consumer = .blocked)
  consumer : ∀ op, s.pc .consumer = .wait op → s.st .consumer = .blocked → ioqEmpty s.q = true
  producer : ∀ op, s.pc .producer = .wait op → s.st .producer = .blocked → ioqFull s.q = true

/-- The thread is inside `lock_acquire`. -/
def Pc.queuing : Pc B → Bool
  | .lock _ => true
  | _ => false

/-- The step is not the continuation of a thread that had to queue for the lock. -/
def Direct (s : State Role B) : Event Role B → Prop
  | .call _ _ => True
  | .resume t => (s.pc t).queuing = false

instance (s : State Role B) : ∀ e, Decidable (Direct s e)
  | .call _ _ => inferInstanceAs (Decidable True)
  | .resume t => inferInstanceAs (Decidable ((s.pc t).queuing = false))

/-! ## Two sides of a queue -/

theorem Role.other_ne (t : Role) : t.other ≠ t := by
  cases t <;> nofun

theorem Role.eq_other {t u : Role} (h : u ≠ t) : u = t.other := by
  cases t <;> cases u <;> first | rfl | exact absurd rfl h

variable {o : Option Role} {s : State Role B} {t u : Role} {op : Op B}

theorem mustWait_opposite (hc : Content s) {p : Op B} (ht : t.fits op = true)
    (hp : t.other.fits p = true) (hm : op.mustWait s.q = true) : p.mustWait s.q = false := by
  have hempty := empty_iff hc
  have hfull := full_iff hc
  have hroom := hc.room
  unfold bufsize at hfull hroom
  cases t <;> cases op <;> cases p <;> simp only [Role.fits, Role.other, reduceCtorEq] at ht hp
  · simp only [Op.mustWait] at hm ⊢
    rw [Bool.eq_false_iff, ne_eq, hempty]
    have := hfull.mp hm
    omega
  · simp only [Op.mustWait] at hm ⊢
    rw [Bool.eq_false_iff, ne_eq, hfull]
    have := hempty.mp hm
    omega

/-- After a call of one side the other side need not wait. -/
theorem mustWait_done (hc : Content s) (hm : op.mustWait s.q = false) {p : Op B}
    (ht : t.fits op = true) (hp : t.other.fits p = true) :
    p.mustWait (s.done t op).q = false := by
  have hc' := content_done (t := t) hc hm
  have hempty := empty_iff hc'
  have hfull := full_iff hc'
  have hroom := hc.room
  have hle := hc.fetched.length_le
  unfold bufsize at hfull hroom
  cases t <;> cases op <;> cases p <;> simp only [Role.fits, Role.other, reduceCtorEq] at ht hp
  · unfold Op.mustWait
    rw [Bool.eq_false_iff, ne_eq, hempty]
    simp only [State.done, List.length_append, List.length_singleton]
    omega
  · unfold Op.mustWait
    rw [Bool.eq_false_iff, ne_eq, hfull]
    simp only [State.done, List.length_append, List.length_singleton]
    omega

/-! ## Runs in which no queued thread continues -/

/-- The threads, with the one `o` that holds the lock.  A thread in `ioq_wait` is blocked exactly as
long as its reason lasts.  A thread that queued for the lock is blocked while the other side, already
woken, holds it; made ready, it must not continue. -/
structure Apart (o : Option Role) (s : State Role B) : Prop where
  fits : ∀ t op, s.pc t = .lock op ∨ s.pc t = .wait op → t.fits op = true
  wait : ∀ t op, s.pc t = .wait op → (s.st t = .blocked ↔ op.mustWait s.q = true)
  lock : ∀ t op, s.pc t = .lock op →
    (s.st t = .blocked ∧ o = some t.other ∧ s.st t.other = .ready) ∨
    (s.st t = .ready ∧ (o = none ∧ op.mustWait s.q = false ∨
      o = some t.other ∧ s.st t.other = .blocked))

theorem apart_init (buf : ℕ → B) : Apart none (init buf) where
  fits t op h := by rcases h with h | h <;> cases h
  wait t op h := by cases h
  lock t op h := by cases h

/-- A full queue is not empty, so both sides cannot sleep. -/
theorem alive_of_apart (hs : Sync o s) (ha : Apart o s) : Alive s where
  notBoth := by
    rintro ⟨hp, hc⟩
    have hblocked : ∀ t, s.st t = .blocked := fun t => by cases t <;> assumption
    have hwait : ∀ t, ∃ op, s.pc t = .wait op := by
      intro t
      cases hpc : s.pc t with
      | out =>
        rcases hs.status t with h | h
        · exact absurd ((hblocked t).symm.trans h) (by decide)
        · exact absurd hpc h.2
      | lock op =>
        rcases ha.lock t op hpc with ⟨-, -, h⟩ | ⟨h, -⟩
        · exact absurd ((hblocked _).symm.trans h) (by decide)
        · exact absurd ((hblocked _).symm.trans h) (by decide)
      | wait op => exact ⟨op, rfl⟩
    obtain ⟨p, hp⟩ := hwait .producer
    obtain ⟨c, hc⟩ := hwait .consumer
    have := ((owner_iff hs).mpr ⟨_, hp⟩).symm.trans ((owner_iff hs).mpr ⟨_, hc⟩)
    cases this
  consumer op hpc hb := by
    have hf := ha.fits _ op (Or.inr hpc)
    cases op with
    | getchar => exact (ha.wait _ _ hpc).mp hb
    | putchar byte => cases hf
  producer op hpc hb := by
    have hf := ha.fits _ op (Or.inr hpc)
    cases op with
    | getchar => cases hf
    | putchar byte => exact (ha.wait _ _ hpc).mp hb

theorem apart_asleep (ha : Apart none s) (ht : t.fits op = true) (hm : op.mustWait s.q = true) :
    Apart (some t) (s.asleep t op) := by
  have hdata : ∀ p : Op B, p.mustWait (s.asleep t op).q = p.mustWait s.q := by
    intro p
    cases op <;> cases p <;> rfl
  refine ⟨fun u p h => ?_, fun u p h => ?_, fun u p h => ?_⟩
  · by_cases hut : u = t
    · subst hut
      simp only [State.asleep, Function.update_self, reduceCtorEq, false_or, Pc.wait.injEq] at h
      exact h ▸ ht
    · simp only [State.asleep, Function.update_of_ne hut] at h
      exact ha.fits u p h
  · by_cases hut : u = t
    · subst hut
      simp only [State.asleep, Function.update_self, Pc.wait.injEq] at h
      subst h
      rw [hdata, hm]
      simp only [State.asleep, Function.update_self]
    · rw [hdata]
      simp only [State.asleep, Function.update_of_ne hut] at h ⊢
      exact ha.wait u p h
  · have hut : u ≠ t := by
      rintro rfl
      simp [State.asleep] at h
    simp only [State.asleep, Function.update_of_ne hut] at h
    rcases ha.lock u p h with ⟨-, ho, -⟩ | ⟨hr, -⟩
    · cases ho
    · rw [← Role.eq_other hut.symm]
      exact Or.inr ⟨by simpa [State.asleep, hut] using hr, Or.inr ⟨rfl, by simp [State.asleep]⟩⟩

theorem apart_queued (hs : Sync o s) (hc : Content s) (ha : Apart o s) (ho : o ≠ some t)
    (hn : o ≠ none) (ht : t.fits op = true) (hm : op.mustWait s.q = true) :
    Apart o (s.queued t op) := by
  obtain ⟨u, rfl⟩ := Option.ne_none_iff_exists'.mp hn
  obtain rfl : u = t.other := Role.eq_other fun h => ho (by rw [h])
  obtain ⟨-, -, -, p, hpc, -⟩ := hs.owned
  -- the other side, at `ioq_wait`, has lost its reason, since this side has one
  have hready : s.st t.other = .ready := by
    have hnot := mustWait_opposite hc ht (ha.fits _ p (Or.inr hpc)) hm
    rcases hs.status t.other with h | ⟨h, -⟩
    · exact h
    · rw [(ha.wait _ p hpc).mp h] at hnot
      cases hnot
  refine ⟨fun v q h => ?_, fun v q h => ?_, fun v q h => ?_⟩
  · by_cases hvt : v = t
    · subst hvt
      simp only [State.queued, Function.update_self, reduceCtorEq, or_false, Pc.lock.injEq] at h
      exact h ▸ ht
    · simp only [State.queued, Function.update_of_ne hvt] at h
      exact ha.fits v q h
  · have hvt : v ≠ t := by
      rintro rfl
      simp [State.queued] at h
    simp only [State.queued, Function.update_of_ne hvt] at h ⊢
    have hwait := ha.wait v q h
    cases q <;> exact hwait
  · by_cases hvt : v = t
    · subst hvt
      refine Or.inl ⟨by simp [State.queued], rfl, ?_⟩
      simpa [State.queued, Role.other_ne] using hready
    · obtain rfl := Role.eq_other hvt
      simp only [State.queued, Function.update_of_ne hvt, hpc] at h
      cases h

theorem done_pc (hut : u ≠ t) : (s.done t op).pc u = s.pc u := by
  cases op <;> exact Function.update_of_ne hut _ _

theorem done_pc_self : (s.done t op).pc t = .out := by
  cases op <;> exact Function.update_self _ _ _

/-- A call of one side wakes the sleeper of the other. -/
theorem done_wakes (hs : Sync (some u) s) (hut : u ≠ t) {p : Op B} (hpc : s.pc u = .wait p)
    (ht : t.fits op = true) (hp : u.fits p = true) : (s.done t op).st u = .ready := by
  obtain ⟨-, -, -, p', hpc', hsl⟩ := hs.owned
  obtain rfl : p = p' := Pc.wait.inj (hpc.symm.trans hpc')
  obtain rfl := Role.eq_other hut
  cases t <;> cases op <;> cases p <;> simp only [Role.fits, Role.other, reduceCtorEq] at ht hp
  all_goals
    rcases hsl.2 with ⟨hr, hw⟩ | ⟨-, hw⟩
    · unfold Op.waiter at hw
      simpa [State.done, hw, wake, Role.other] using hr
    · unfold Op.waiter at hw
      simp [State.done, hw, wake, Role.other]

/-- A call that completes, by a side that does not hold the lock.  A thread of the other side that
queued for the lock is ready. -/
theorem apart_done (hs : Sync o s) (hc : Content s) (hm : op.mustWait s.q = false)
    (ht : t.fits op = true) (ho : o ≠ some t)
    (hfits : ∀ p, s.pc t.other = .lock p ∨ s.pc t.other = .wait p → t.other.fits p = true)
    (hlock : ∀ p, s.pc t.other = .lock p → s.st t.other = .ready) : Apart o (s.done t op) := by
  have hother : ∀ {u p}, (s.done t op).pc u = .lock p ∨ (s.done t op).pc u = .wait p →
      u = t.other ∧ (s.pc t.other = .lock p ∨ s.pc t.other = .wait p) := by
    intro u p h
    have hut : u ≠ t := by
      rintro rfl
      rw [done_pc_self] at h
      rcases h with h | h <;> cases h
    obtain rfl := Role.eq_other hut
    rw [done_pc hut] at h
    exact ⟨rfl, h⟩
  refine ⟨fun u p h => ?_, fun u p h => ?_, fun u p h => ?_⟩
  · obtain ⟨rfl, h'⟩ := hother h
    exact hfits p h'
  · obtain ⟨rfl, h'⟩ := hother (Or.inr h)
    have hp := hfits p h'
    rw [done_pc t.other_ne] at h
    obtain rfl := (owner_iff hs).mpr ⟨_, h⟩
    rw [done_wakes hs t.other_ne h ht hp, mustWait_done hc hm ht hp]
    decide
  · obtain ⟨rfl, h'⟩ := hother (Or.inl h)
    have hp := hfits p h'
    rw [done_pc t.other_ne] at h
    have hn : o = none := by
      cases o with
      | none => rfl
      | some u =>
        obtain ⟨q, hpc⟩ := (owner_iff hs).mp rfl
        obtain rfl : u = t.other := Role.eq_other fun hut => ho (by rw [hut])
        rw [h] at hpc
        cases hpc
    have hr := hlock p h
    refine Or.inr ⟨?_, Or.inl ⟨hn, mustWait_done hc hm ht hp⟩⟩
    cases op <;> exact wake_ready hr _

theorem apart_call (hs : Sync o s) (hc : Content s) (ha : Apart o s) (hpc : s.pc t = .out)
    (hr : s.st t = .ready) (ht : t.fits op = true) :
    ∃ o' s', loop s t op = .ok s' ∧ Sync o' s' ∧ Content s' ∧ Apart o' s' := by
  have ho : o ≠ some t := owner_ne hs (by rw [hpc]; exact nofun)
  refine loop_rule (P := fun o s => Content s ∧ Apart o s) hs ho hr op ?_ ?_ ?_
  · rintro hm rfl
    refine ⟨?_, apart_asleep ha ht hm⟩
    cases op <;> exact content_congr hc rfl rfl rfl rfl rfl
  · intro hm hn
    exact ⟨content_congr hc rfl rfl rfl rfl rfl, apart_queued hs hc ha ho hn ht hm⟩
  · intro hm
    refine ⟨content_done hc hm, apart_done hs hc hm ht ho (fun p => ha.fits _ p) fun p hp => ?_⟩
    rcases ha.lock _ p hp with ⟨-, ho', -⟩ | ⟨hr', -⟩
    · cases t <;> exact absurd ho' ho
    · exact hr'

/-- The sleeper that has been woken releases the lock, wakes the thread that queued for it and
completes its call. -/
theorem apart_continue (hs : Sync o s) (hc : Content s) (ha : Apart o s) (hpc : s.pc t = .wait op)
    (hr : s.st t = .ready) :
    ∃ o' s', (do
        let (st, lock) ← lockRelease s.st s.q.lock t
        loop (State.goto { s with st, q := { s.q with lock } } t .out) t op) = .ok s' ∧
      Sync o' s' ∧ Content s' ∧ Apart o' s' := by
  obtain rfl := (owner_iff hs).mpr ⟨op, hpc⟩
  have hm : op.mustWait s.q = false := by
    rw [Bool.eq_false_iff, ne_eq, ← ha.wait t op hpc, hr]
    decide
  have ht := ha.fits t op (Or.inr hpc)
  obtain ⟨st, sem, hrel, hst, hwake, hs'⟩ := sync_release hs hr
  set s₁ := State.goto { s with st := st, q := { s.q with lock := ⟨none, sem, 0⟩ } } t .out with hs₁
  have hc₁ : Content s₁ := content_congr hc rfl rfl rfl rfl rfl
  have hm₁ : op.mustWait s₁.q = false := by cases op <;> exact hm
  have hpc₁ : s₁.pc t.other = s.pc t.other := Function.update_of_ne t.other_ne _ _
  have hloop : loop s₁ t op = .ok (s₁.done t op) := by
    rw [loop_eq hs' nofun hst op, if_neg (by simp [hm₁])]
  refine ⟨none, s₁.done t op, ?_, sync_done hs' nofun hst op, content_done hc₁ hm₁, ?_⟩
  · rw [hrel, ok_bind]
    exact hloop
  · refine apart_done hs' hc₁ hm₁ ht nofun (fun p => ?_) fun p hp => ?_
    · rw [hpc₁]
      exact ha.fits _ p
    · rw [hpc₁] at hp
      show st t.other = .ready
      rw [hwake]
      rcases ha.lock _ p hp with ⟨hb, -, -⟩ | ⟨hr', -⟩
      · -- the only waiter of the semaphore
        have hmem := (hs.mem_waiters t.other).mpr ⟨hb, p, hp⟩
        have hnt := not_mem_waiters hs hr
        cases hws : s.q.lock.semaphore.waiters with
        | nil => simp [hws] at hmem
        | cons w ws =>
          have hwt : w ≠ t := fun h => hnt (by rw [hws, h]; exact List.mem_cons_self)
          obtain rfl := Role.eq_other hwt
          simp [wake]
      · exact wake_ready hr' _

theorem apart_step (hs : Sync o s) (hc : Content s) (ha : Apart o s) {e : Event Role B}
    {r : Except Halt (State Role B)} (hd : Direct s e) (h : (pair B).step s e = some r) :
    ∃ o' s', r = .ok s' ∧ Sync o' s' ∧ Content s' ∧ Apart o' s' := by
  obtain ⟨hf, h⟩ := Machine.guard_step h
  obtain ⟨t, op, hr, ⟨rfl, hpc, rfl⟩ | ⟨rfl, hpc, rfl⟩ | ⟨rfl, hpc, rfl⟩⟩ := machine_cases h
  · exact apart_call hs hc ha hpc hr hf
  · rw [Direct, hpc] at hd
    cases hd
  · exact apart_continue hs hc ha hpc hr

/-- A thread that queued for the lock continues: it sleeps without a reason, or both threads are
blocked. -/
theorem not_alive_of_queuing (hs : Sync o s) (ha : Apart o s) {e : Event Role B}
    {r : Except Halt (State Role B)} (h : (pair B).step s e = some r) (hd : ¬Direct s e) :
    ∃ s', r = .ok s' ∧ ¬Alive s' := by
  obtain ⟨-, h⟩ := Machine.guard_step h
  obtain ⟨t, op, hr, ⟨rfl, hpc, rfl⟩ | ⟨rfl, hpc, rfl⟩ | ⟨rfl, hpc, rfl⟩⟩ := machine_cases h
  · exact absurd trivial hd
  · rcases ha.lock t op hpc with ⟨hb, -⟩ | ⟨-, ⟨rfl, hm⟩ | ⟨rfl, hb⟩⟩
    · exact absurd (hb.symm.trans hr) (by decide)
    · refine ⟨_, lock_eq_asleep hs op, fun hal => ?_⟩
      have hpc' : (s.asleep t op).pc t = .wait op := Function.update_self _ _ _
      have hb : (s.asleep t op).st t = .blocked := Function.update_self _ _ _
      have hf := ha.fits t op (Or.inl hpc)
      cases t <;> cases op <;> simp only [Role.fits, reduceCtorEq] at hf
      · exact absurd (hm.symm.trans (hal.producer _ hpc' hb)) (by decide)
      · exact absurd (hm.symm.trans (hal.consumer _ hpc' hb)) (by decide)
    · refine ⟨_, lock_eq_queued hs hr hs.owned.1 op, fun hal => ?_⟩
      have hb₁ : (s.queued t op).st t = .blocked := Function.update_self _ _ _
      have hb₂ : (s.queued t op).st t.other = .blocked := by
        simpa [State.queued, Role.other_ne] using hb
      cases t
      · exact hal.notBoth ⟨hb₁, hb₂⟩
      · exact hal.notBoth ⟨hb₂, hb₁⟩
  · simp [Direct, hpc, Pc.queuing] at hd

/-- **When the queue stays alive.**  A run of one producer and one consumer, under any scheduling,
has at all its moments at most one thread blocked, the consumer blocked in `ioq_wait` only on an
empty queue and the producer only on a full one, if and only if no step of it continues a thread
that had to queue for the lock. -/
theorem alive_iff {buf : ℕ → B} {es : List (Event Role B)} {r : Except Halt (State Role B)}
    (h : (pair B).run (init buf) es = some r) :
    (∀ fs r', fs <+: es → (pair B).run (init buf) fs = some r' → ∃ s, r' = .ok s ∧ Alive s) ↔
      ∀ fs e s, fs ++ [e] <+: es → (pair B).run (init buf) fs = some (.ok s) → Direct s e := by
  refine Machine.run_iff_guard (I := fun s => ∃ o, Sync o s ∧ Content s ∧ Apart o s)
    (fun s ⟨o, hs, _, ha⟩ => alive_of_apart hs ha) (fun s e r ⟨o, hs, hc, ha⟩ hd hstep => ?_)
    (fun s e r ⟨o, hs, hc, ha⟩ hd hstep => ?_)
    ⟨none, sync_init buf, content_init buf, apart_init buf⟩ h
  · obtain ⟨o', s', hr, hinv⟩ := apart_step hs hc ha hd hstep
    exact ⟨s', hr, o', hinv⟩
  · rintro ⟨s', rfl, hal⟩
    obtain ⟨s₁, hs₁, hna⟩ := not_alive_of_queuing hs ha hstep hd
    cases hs₁
    exact hna hal

/-- The consumer sleeps, is woken by a first byte, and runs again. -/
theorem alive_of_one_byte :
    (∃ r, (pair ℕ).run (init fun _ => 0)
        [.call .consumer .getchar, .call .producer (.putchar 97), .resume .consumer] = some r) ∧
      ∀ fs r, fs <+: [.call .consumer .getchar, .call .producer (.putchar 97), .resume .consumer] →
        (pair ℕ).run (init fun _ => 0) fs = some r → ∃ s, r = .ok s ∧ Alive s := by
  refine ⟨⟨_, rfl⟩, (alive_iff rfl).mpr fun fs e s hfs hr => ?_⟩
  obtain ⟨es', hes⟩ := hfs
  rcases fs with _ | ⟨_, _ | ⟨_, _ | ⟨_, fs⟩⟩⟩
  all_goals
    simp only [List.nil_append, List.cons_append, List.cons.injEq] at hes
  · obtain ⟨rfl, -⟩ := hes
    trivial
  · obtain ⟨-, rfl, -⟩ := hes
    trivial
  · obtain ⟨rfl, rfl, rfl, -⟩ := hes
    cases hr
    rfl
  · simp at hes

/-- The consumer sleeps on the empty queue.  The producer wakes it, fills the queue before the
consumer runs, and queues for the lock.  The consumer continues, drains the queue and sleeps again
with the lock.  When the producer continues, the lock is taken and it is blocked again. -/
def deadlockSchedule : List (Event Role ℕ) :=
  [.call .consumer .getchar] ++ List.replicate 64 (.call .producer (.putchar 97)) ++
    [.resume .consumer] ++ List.replicate 63 (.call .consumer .getchar) ++ [.resume .producer]

theorem both_blocked : ∃ s, (pair ℕ).run (init fun _ => 0) deadlockSchedule = some (.ok s) ∧
    s.st .producer = .blocked ∧ s.st .consumer = .blocked ∧ ¬Alive s := by
  obtain ⟨s, hs, hb⟩ := (pair ℕ).run_of_test
    (p := fun s => decide (s.st .producer = .blocked ∧ s.st .consumer = .blocked))
    (show ((pair ℕ).run (init fun _ => 0) deadlockSchedule).any _ = true by decide +kernel)
  rw [decide_eq_true_eq] at hb
  exact ⟨s, hs, hb.1, hb.2, fun hal => hal.notBoth hb⟩

end HcOs.Ioq
