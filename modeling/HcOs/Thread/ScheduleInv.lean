import Mathlib.Data.List.Perm.Subperm
import HcOs.Thread.Schedule

/-!
# The scheduler's invariant

`Core o s ready waiters`: the ready list holds `ready`, the waiters of a semaphore `k` are
`waiters k`, the list of all threads holds all threads, each list once, and the statuses agree with
the lists; `o` is the thread that has the status `TASK_RUNNING`, if there is one.  Between steps it
is the thread on the CPU; in the middle of `schedule` there is none (`dispatch_core`).

`one_running` puts the pieces together for a whole run.
-/

namespace HcOs.Sched

open HcOs.Lib LinkHeap

variable {T S : Type}

/-! ## The lists of the kernel -/

/-- The nodes of every list. -/
def seqs (ready all : List T) (waiters : S → List T) : ListId S → List (Node T S)
  | .ready => ready.map .generalTag
  | .all => all.map .allListTag
  | .waiters k => (waiters k).map .generalTag

variable {h : Links T S} {ready all : List T} {waiters : S → List T} {t u : T} {k : S}

theorem generalTag_notMem (hr : t ∉ ready) (hw : ∀ k, t ∉ waiters k) (l : ListId S) :
    Node.generalTag t ∉ nodes (plist l) (seqs ready all waiters l) := by
  cases l <;> simp [mem_nodes, plist, seqs, hr, hw]

theorem allListTag_notMem (ha : t ∉ all) (l : ListId S) :
    Node.allListTag t ∉ nodes (plist l) (seqs ready all waiters l) := by
  cases l <;> simp [mem_nodes, plist, seqs, ha]

variable [DecidableEq S]

theorem update_seqs_ready (r : List T) :
    Function.update (seqs ready all waiters) .ready (r.map .generalTag) = seqs r all waiters := by
  funext l
  cases l <;> simp [seqs]

theorem update_seqs_all (a : List T) :
    Function.update (seqs ready all waiters) .all (a.map .allListTag) = seqs ready a waiters := by
  funext l
  cases l <;> simp [seqs]

theorem update_seqs_waiters (w : List T) :
    Function.update (seqs ready all waiters) (.waiters k) (w.map .generalTag) =
      seqs ready all (Function.update waiters k w) := by
  funext l
  cases l with
  | ready => simp [seqs]
  | all => simp [seqs]
  | waiters j => by_cases hjk : j = k <;> simp [seqs, hjk]

variable [DecidableEq T]

theorem lawful : (linkHeap : LinkHeap (Links T S) (Node T S)).Lawful (· ≠ .null) where
  ne_null h := h
  prev_setPrev _ _ _ _ := Function.update_self ..
  next_setNext _ _ _ _ := Function.update_self ..
  prev_setPrev_ne _ _ _ _ _ _ hne := Function.update_of_ne hne ..
  next_setNext_ne _ _ _ _ _ _ hne := Function.update_of_ne hne ..
  prev_setNext _ _ _ _ _ _ := rfl
  next_setPrev _ _ _ _ _ _ := rfl

/-- The lists hold these threads, in this order. -/
def Lists (h : Links T S) (ready all : List T) (waiters : S → List T) : Prop :=
  linkHeap.Family (· ≠ .null) h plist (seqs ready all waiters)

theorem append_ready (hl : Lists h ready all waiters) (hr : t ∉ ready) (hw : ∀ k, t ∉ waiters k) :
    ∃ h', listAppend linkHeap h (plist .ready) (.generalTag t) = .ok h' ∧
      Lists h' (ready ++ [t]) all waiters := by
  obtain ⟨h', hok, hf, -⟩ := Family.append (e := .generalTag t) lawful hl .ready nofun
    (generalTag_notMem hr hw)
  refine ⟨h', liftFault_ok hok, ?_⟩
  have hseq : seqs ready all waiters .ready ++ [.generalTag t] = (ready ++ [t]).map .generalTag := by
    simp [seqs]
  rw [hseq, update_seqs_ready] at hf
  exact hf

theorem push_ready (hl : Lists h ready all waiters) (hr : t ∉ ready) (hw : ∀ k, t ∉ waiters k) :
    ∃ h', listPush linkHeap h (plist .ready) (.generalTag t) = .ok h' ∧
      Lists h' (t :: ready) all waiters := by
  obtain ⟨h', hok, hf, -⟩ := Family.push (e := .generalTag t) lawful hl .ready nofun
    (generalTag_notMem hr hw)
  refine ⟨h', liftFault_ok hok, ?_⟩
  have hseq : .generalTag t :: seqs ready all waiters .ready = (t :: ready).map .generalTag := by
    simp [seqs]
  rw [hseq, update_seqs_ready] at hf
  exact hf

theorem append_all (hl : Lists h ready all waiters) (ha : t ∉ all) :
    ∃ h', listAppend linkHeap h (plist .all) (.allListTag t) = .ok h' ∧
      Lists h' ready (all ++ [t]) waiters := by
  obtain ⟨h', hok, hf, -⟩ := Family.append (e := .allListTag t) lawful hl .all nofun
    (allListTag_notMem ha)
  refine ⟨h', liftFault_ok hok, ?_⟩
  have hseq : seqs ready all waiters .all ++ [.allListTag t] = (all ++ [t]).map .allListTag := by
    simp [seqs]
  rw [hseq, update_seqs_all] at hf
  exact hf

theorem append_waiters (hl : Lists h ready all waiters) (hr : t ∉ ready)
    (hw : ∀ k, t ∉ waiters k) (k : S) :
    ∃ h', listAppend linkHeap h (plist (.waiters k)) (.generalTag t) = .ok h' ∧
      Lists h' ready all (Function.update waiters k (waiters k ++ [t])) := by
  obtain ⟨h', hok, hf, -⟩ := Family.append (e := .generalTag t) lawful hl (.waiters k) nofun
    (generalTag_notMem hr hw)
  refine ⟨h', liftFault_ok hok, ?_⟩
  have hseq : seqs ready all waiters (.waiters k) ++ [.generalTag t] =
      (waiters k ++ [t]).map .generalTag := by
    simp [seqs]
  rw [hseq, update_seqs_waiters] at hf
  exact hf

theorem pop_ready (hl : Lists h (t :: ready) all waiters) :
    ∃ h', listPop linkHeap h (plist .ready) = .ok (h', .generalTag t) ∧
      Lists h' ready all waiters := by
  obtain ⟨h', hok, hf, -⟩ := Family.pop (i := .ready) lawful hl rfl
  refine ⟨h', liftFault_ok hok, ?_⟩
  rw [update_seqs_ready] at hf
  exact hf

theorem pop_waiters (hl : Lists h ready all waiters) {ws : List T} (hk : waiters k = t :: ws) :
    ∃ h', listPop linkHeap h (plist (.waiters k)) = .ok (h', .generalTag t) ∧
      Lists h' ready all (Function.update waiters k ws) := by
  have hseq : seqs ready all waiters (.waiters k) = .generalTag t :: ws.map .generalTag := by
    simp [seqs, hk]
  obtain ⟨h', hok, hf, -⟩ := Family.pop lawful hl hseq
  refine ⟨h', liftFault_ok hok, ?_⟩
  rw [update_seqs_waiters] at hf
  exact hf

theorem listEmpty_eq (hl : Lists h ready all waiters) (l : ListId S) :
    listEmpty linkHeap h (plist l) = .ok (decide (seqs ready all waiters l = [])) :=
  listEmpty_isList lawful (hl.isList l)

theorem elemFind_eq (hl : Lists h ready all waiters) (l : ListId S) (n : Node T S) {bound : ℕ}
    (hb : (seqs ready all waiters l).length ≤ bound) :
    elemFind linkHeap h (plist l) bound n = .ok (decide (n ∈ seqs ready all waiters l)) :=
  elemFind_isList lawful (hl.isList l) hb n

theorem seqs_nodup (hl : Lists h ready all waiters) (l : ListId S) :
    (seqs ready all waiters l).Nodup := by
  have := (hl.isList l).nodup
  simp only [nodes, List.nodup_cons, List.nodup_append] at this
  exact this.2.1

/-! ## The invariant -/

/-- The statuses agree with the ready list and the waiters, and the list of all threads holds `all`;
`o` is the thread with the status `TASK_RUNNING`. -/
structure CoreOn (all : List T) (o : Option T) (s : State T S) (ready : List T)
    (waiters : S → List T) : Prop where
  lists : Lists s.links ready all waiters
  mem_ready : ∀ t, t ∈ ready ↔ t ∈ s.threads ∧ (s.task t).status = .ready
  running : ∀ t, o = some t ↔ t ∈ s.threads ∧ (s.task t).status = .running
  mem_waiters : ∀ k t, t ∈ waiters k ↔
    t ∈ s.threads ∧ (s.task t).status.IsBlocked ∧ s.pc t = .down k
  kinds : ∀ t ∈ s.threads, (s.task t).status = .running ∨ (s.task t).status = .ready ∨
    (s.task t).status.IsBlocked
  magic : ∀ t ∈ s.threads, (s.task t).stackMagic = 0x12345678
  idle_mem : s.idleThread ∈ s.threads
  idle_pc : s.pc s.idleThread = .normal

/-- The lists and the statuses agree; `o` is the thread with the status `TASK_RUNNING`. -/
structure Core (o : Option T) (s : State T S) (ready : List T) (waiters : S → List T) : Prop where
  lists : Lists s.links ready s.threads waiters
  mem_ready : ∀ t, t ∈ ready ↔ t ∈ s.threads ∧ (s.task t).status = .ready
  running : ∀ t, o = some t ↔ t ∈ s.threads ∧ (s.task t).status = .running
  mem_waiters : ∀ k t, t ∈ waiters k ↔
    t ∈ s.threads ∧ (s.task t).status.IsBlocked ∧ s.pc t = .down k
  kinds : ∀ t ∈ s.threads, (s.task t).status = .running ∨ (s.task t).status = .ready ∨
    (s.task t).status.IsBlocked
  magic : ∀ t ∈ s.threads, (s.task t).stackMagic = 0x12345678
  idle_mem : s.idleThread ∈ s.threads
  idle_pc : s.pc s.idleThread = .normal

variable {o o' : Option T} {s s' : State T S} {ready' : List T} {waiters' : S → List T}

theorem Core.on (hc : Core o s ready waiters) : CoreOn s.threads o s ready waiters :=
  ⟨hc.lists, hc.mem_ready, hc.running, hc.mem_waiters, hc.kinds, hc.magic, hc.idle_mem, hc.idle_pc⟩

theorem CoreOn.core (hc : CoreOn s.threads o s ready waiters) : Core o s ready waiters :=
  ⟨hc.lists, hc.mem_ready, hc.running, hc.mem_waiters, hc.kinds, hc.magic, hc.idle_mem, hc.idle_pc⟩

/-- A step that moves one thread: the invariant is to be shown for that thread only. -/
theorem CoreOn.change (hc : CoreOn all o s ready waiters) (t : T) (ht : t ∈ s.threads)
    (hthreads : s'.threads = s.threads) (hidle : s'.idleThread = s.idleThread)
    (htask : ∀ u, u ≠ t → s'.task u = s.task u) (hpc : ∀ u, u ≠ t → s'.pc u = s.pc u)
    (hmagic : (s'.task t).stackMagic = (s.task t).stackMagic)
    (hl : Lists s'.links ready' all waiters')
    (hr : ∀ u, u ≠ t → (u ∈ ready' ↔ u ∈ ready))
    (hw : ∀ k u, u ≠ t → (u ∈ waiters' k ↔ u ∈ waiters k))
    (ho : ∀ u, u ≠ t → (o' = some u ↔ o = some u))
    (hrt : t ∈ ready' ↔ (s'.task t).status = .ready)
    (hot : o' = some t ↔ (s'.task t).status = .running)
    (hwt : ∀ k, t ∈ waiters' k ↔ (s'.task t).status.IsBlocked ∧ s'.pc t = .down k)
    (hk : (s'.task t).status = .running ∨ (s'.task t).status = .ready ∨
      (s'.task t).status.IsBlocked)
    (hi : t = s.idleThread → s'.pc t = .normal) : CoreOn all o' s' ready' waiters' := by
  refine ⟨hl, fun u => ?_, fun u => ?_, fun k u => ?_, fun u hu => ?_,
    fun u hu => ?_, by rw [hthreads, hidle]; exact hc.idle_mem, ?_⟩
  · by_cases hut : u = t
    · subst hut
      simp only [hrt, hthreads, ht, true_and]
    · rw [hr u hut, hc.mem_ready, hthreads, htask u hut]
  · by_cases hut : u = t
    · subst hut
      simp only [hot, hthreads, ht, true_and]
    · rw [ho u hut, hc.running, hthreads, htask u hut]
  · by_cases hut : u = t
    · subst hut
      simp only [hwt, hthreads, ht, true_and]
    · rw [hw k u hut, hc.mem_waiters, hthreads, htask u hut, hpc u hut]
  · by_cases hut : u = t
    · subst hut
      exact hk
    · rw [htask u hut]
      exact hc.kinds u (hthreads ▸ hu)
  · by_cases hut : u = t
    · subst hut
      rw [hmagic]
      exact hc.magic u ht
    · rw [htask u hut]
      exact hc.magic u (hthreads ▸ hu)
  · rw [hidle]
    by_cases hit : s.idleThread = t
    · rw [hit]
      exact hi hit.symm
    · rw [hpc _ hit]
      exact hc.idle_pc

theorem CoreOn.ready_nodup (hc : CoreOn all o s ready waiters) : ready.Nodup :=
  List.Nodup.of_map _ (seqs_nodup hc.lists .ready)

theorem CoreOn.waiters_nodup (hc : CoreOn all o s ready waiters) (k : S) : (waiters k).Nodup :=
  List.Nodup.of_map _ (seqs_nodup hc.lists (.waiters k))

theorem CoreOn.all_nodup (hc : CoreOn all o s ready waiters) : all.Nodup :=
  List.Nodup.of_map _ (seqs_nodup hc.lists .all)

omit [DecidableEq T] [DecidableEq S] in
theorem length_le_of_subset {xs ys : List T} (hnd : xs.Nodup) (hsub : ∀ t ∈ xs, t ∈ ys) :
    xs.length ≤ ys.length :=
  (List.subperm_of_subset hnd fun _ ht => hsub _ ht).length_le

theorem CoreOn.find_ready (hc : CoreOn all o s ready waiters) (t : T) :
    s.elemFind .ready (.generalTag t) = .ok (decide (t ∈ ready)) := by
  have hlen := length_le_of_subset hc.ready_nodup fun t ht => ((hc.mem_ready t).mp ht).1
  unfold State.elemFind
  rw [elemFind_eq hc.lists .ready (.generalTag t) (by simpa [seqs] using hlen)]
  simp [seqs]

theorem CoreOn.find_waiters (hc : CoreOn all o s ready waiters) (k : S) (t : T) :
    s.elemFind (.waiters k) (.generalTag t) = .ok (decide (t ∈ waiters k)) := by
  have hlen := length_le_of_subset (hc.waiters_nodup k) fun t ht => ((hc.mem_waiters k t).mp ht).1
  rw [State.elemFind, elemFind_eq hc.lists (.waiters k) (.generalTag t)
    (by simpa [seqs] using hlen)]
  simp [seqs]

theorem not_isBlocked_running : ¬TaskStatus.running.IsBlocked := by decide

theorem not_isBlocked_ready : ¬TaskStatus.ready.IsBlocked := by decide

theorem CoreOn.running_mem (hc : CoreOn all (some t) s ready waiters) :
    t ∈ s.threads ∧ (s.task t).status = .running := (hc.running t).mp rfl

/-- The running thread is on none of the lists its tag could be on. -/
theorem CoreOn.running_notMem (hc : CoreOn all (some t) s ready waiters) :
    t ∉ ready ∧ ∀ k, t ∉ waiters k := by
  obtain ⟨-, hrun⟩ := hc.running_mem
  refine ⟨fun hr => ?_, fun k hw => ?_⟩
  · have := ((hc.mem_ready t).mp hr).2
    rw [hrun] at this
    cases this
  · have := ((hc.mem_waiters k t).mp hw).2.1
    rw [hrun] at this
    exact not_isBlocked_running this

/-- What the functions below leave alone. -/
structure Leaves (s s' : State T S) : Prop where
  value : s'.value = s.value
  pc : s'.pc = s.pc
  threads : s'.threads = s.threads
  idle : s'.idleThread = s.idleThread
  /-- A page that is no thread yet. -/
  task : ∀ u, u ∉ s.threads → s'.task u = s.task u

omit [DecidableEq T] [DecidableEq S] in
theorem Leaves.trans {s'' : State T S} (h : Leaves s s') (h' : Leaves s' s'') : Leaves s s'' where
  value := h'.value.trans h.value
  pc := h'.pc.trans h.pc
  threads := h'.threads.trans h.threads
  idle := h'.idle.trans h.idle
  task u hu := (h'.task u (by rwa [h.threads])).trans (h.task u hu)

omit [DecidableEq S] in
/-- A step that writes to the `task_struct` of one thread. -/
theorem leaves_update (ht : t ∈ s.threads) (h : Links T S) (c : T) (n : ℕ) (new : Task) :
    Leaves s { s with links := h, cur := c, ticks := n, task := Function.update s.task t new } where
  value := rfl
  pc := rfl
  threads := rfl
  idle := rfl
  task u hu := Function.update_of_ne (fun hut => hu (by rw [hut]; exact ht)) ..

/-! ## One lemma for each function -/

omit [DecidableEq S] in
@[simp] theorem setStatus_self (stat : TaskStatus) :
    (s.setStatus t stat).task t = { s.task t with status := stat } := Function.update_self ..

omit [DecidableEq S] in
theorem setStatus_of_ne {stat : TaskStatus} (h : u ≠ t) : (s.setStatus t stat).task u = s.task u :=
  Function.update_of_ne h ..

theorem CoreOn.length_ready (hc : CoreOn all o s ready waiters) : ready.length ≤ s.threads.length :=
  length_le_of_subset hc.ready_nodup fun t ht => ((hc.mem_ready t).mp ht).1

theorem threadUnblock_eq (hl : Lists s.links ready all waiters)
    (hlen : ready.length ≤ s.threads.length) (hr : t ∉ ready) (hw : ∀ k, t ∉ waiters k)
    (hb : (s.task t).status.IsBlocked) :
    ∃ h', threadUnblock s t = .ok ({ s with links := h' }.setStatus t .ready) ∧
      Lists h' (t :: ready) all waiters := by
  have hne : (s.task t).status ≠ .ready := fun h => not_isBlocked_ready (h ▸ hb)
  have hfind : s.elemFind .ready (.generalTag t) = .ok false := by
    unfold State.elemFind
    rw [elemFind_eq hl .ready (.generalTag t) (by simpa [seqs] using hlen)]
    simp [seqs, hr]
  obtain ⟨h', hok, hl'⟩ := push_ready hl hr hw
  refine ⟨h', ?_, hl'⟩
  rw [threadUnblock, assert_bind_of hb, if_pos hne, hfind, ok_bind, assert_bind_of rfl, ok_bind,
    if_neg nofun, hok]
  rfl

/-- `thread_unblock` of a blocked thread that is not in `sema_down`. -/
theorem threadUnblock_core (hc : CoreOn all o s ready waiters) (ht : t ∈ s.threads)
    (hb : (s.task t).status.IsBlocked) (hpc : s.pc t = .normal) :
    ∃ h', threadUnblock s t = .ok ({ s with links := h' }.setStatus t .ready) ∧
      CoreOn all o ({ s with links := h' }.setStatus t .ready) (t :: ready) waiters := by
  have hr : t ∉ ready := fun h => not_isBlocked_ready (((hc.mem_ready t).mp h).2 ▸ hb)
  have hw : ∀ k, t ∉ waiters k := by
    intro k h
    have := ((hc.mem_waiters k t).mp h).2.2
    rw [hpc] at this
    cases this
  have ho : o ≠ some t := fun h => not_isBlocked_running (((hc.running t).mp h).2 ▸ hb)
  obtain ⟨h', hok, hl⟩ := threadUnblock_eq hc.lists hc.length_ready hr hw hb
  refine ⟨h', hok, hc.change t ht rfl rfl (fun u hu => setStatus_of_ne hu) (fun u _ => rfl)
    (by simp) hl (fun u hu => by simp [hu]) (fun k u _ => Iff.rfl) (fun u _ => Iff.rfl)
    (by simp) (by simp [ho]) (fun k => ?_) (by simp) (fun _ => hpc)⟩
  simp [hw k, not_isBlocked_ready]

theorem takeNext_core (hc : CoreOn all none s (t :: ready) waiters) :
    ∃ s', takeNext s = .ok s' ∧ s'.cur = t ∧ Leaves s s' ∧
      CoreOn all (some t) s' ready waiters := by
  have hmem := (hc.mem_ready t).mp List.mem_cons_self
  have hnd := List.nodup_cons.mp hc.ready_nodup
  have hw : ∀ k, t ∉ waiters k := fun k h =>
    not_isBlocked_ready (hmem.2 ▸ ((hc.mem_waiters k t).mp h).2.1)
  obtain ⟨h', hpop, hl⟩ := pop_ready hc.lists
  refine ⟨{ { s with links := h' }.setStatus t .running with cur := t }, ?_, rfl,
    leaves_update hmem.1 h' t s.ticks _, ?_⟩
  · unfold takeNext
    rw [hpop]
    rfl
  · refine hc.change t hmem.1 rfl rfl (fun u hu => setStatus_of_ne hu) (fun u _ => rfl) (by simp) hl
      (fun u hu => by simp [hu]) (fun k u _ => Iff.rfl) (fun u hu => by simp [Ne.symm hu])
      (by simp [hnd.1]) (by simp) (fun k => ?_) (by simp) fun h => ?_
    · simp [hw k, not_isBlocked_running]
    · rw [h]
      exact hc.idle_pc

/-- **The CPU always finds a thread.**  When no thread is running, the ready list is not empty, or
the idle thread is blocked and fills it. -/
theorem dispatch_core (hc : CoreOn all none s ready waiters) :
    ∃ s' ready', dispatch s = .ok s' ∧ Leaves s s' ∧
      CoreOn all (some s'.cur) s' ready' waiters ∧
      ∀ t rest, ready = t :: rest → s'.cur = t ∧ ready' = rest := by
  unfold dispatch
  rw [listEmpty_eq hc.lists .ready, ok_bind]
  cases ready with
  | nil =>
    have hidle := hc.idle_mem
    have hb : (s.task s.idleThread).status.IsBlocked := by
      rcases hc.kinds _ hidle with h | h | h
      · exact absurd ((hc.running _).mpr ⟨hidle, h⟩) nofun
      · exact absurd ((hc.mem_ready _).mpr ⟨hidle, h⟩) List.not_mem_nil
      · exact h
    obtain ⟨h₁, hok, hc₁⟩ := threadUnblock_core hc hidle hb hc.idle_pc
    obtain ⟨s', hs', hcur, hv, hc'⟩ := takeNext_core hc₁
    rw [if_pos (by simp [seqs]), hok, ok_bind]
    exact ⟨s', [], hs', (leaves_update hidle h₁ s.cur s.ticks _).trans hv, hcur ▸ hc', nofun⟩
  | cons t ready =>
    obtain ⟨s', hs', hcur, hv, hc'⟩ := takeNext_core hc
    rw [if_neg (by simp [seqs]), ok_bind]
    refine ⟨s', ready, hs', hv, hcur ▸ hc', fun u rest h => ?_⟩
    cases h
    exact ⟨hcur, rfl⟩

/-- `schedule` once the calling thread has given up the status `TASK_RUNNING`. -/
theorem schedule_core (hc : CoreOn all none s ready waiters) (hcur : s.cur ∈ s.threads) :
    ∃ s' ready', schedule s = .ok s' ∧ Leaves s s' ∧
      CoreOn all (some s'.cur) s' ready' waiters := by
  have hne : (s.task s.cur).status ≠ .running := fun h =>
    absurd ((hc.running _).mpr ⟨hcur, h⟩) nofun
  unfold schedule
  rw [requeue, if_neg hne, ok_bind]
  obtain ⟨s', ready', hs', hl, hc', -⟩ := dispatch_core hc
  exact ⟨s', ready', hs', hl, hc'⟩

/-- `schedule` called by the timer, for a thread that is still running; it goes on when no other
thread is ready. -/
theorem schedule_running (hc : CoreOn all (some s.cur) s ready waiters) :
    ∃ s' ready', schedule s = .ok s' ∧ Leaves s s' ∧
      CoreOn all (some s'.cur) s' ready' waiters ∧
      (ready = [] → s'.cur = s.cur ∧ ready' = ready) := by
  obtain ⟨hmem, hrun⟩ := hc.running_mem
  obtain ⟨hr, hw⟩ := hc.running_notMem
  obtain ⟨h', hok, hl⟩ := append_ready hc.lists hr hw
  have hc' : CoreOn all none { s with
      links := h'
      task := Function.update s.task s.cur
        { s.task s.cur with ticks := (s.task s.cur).priority, status := .ready } }
      (ready ++ [s.cur]) waiters := by
    refine hc.change s.cur hmem rfl rfl (fun u hu => Function.update_of_ne hu ..) (fun u _ => rfl)
      (by simp) hl (fun u hu => by simp [hu]) (fun k u _ => Iff.rfl)
      (fun u hu => by simp [Ne.symm hu]) (by simp) (by simp) (fun k => ?_) (by simp) fun h => ?_
    · simp [hw k, not_isBlocked_ready]
    · rw [h]
      exact hc.idle_pc
  obtain ⟨s', ready', hs', hl', hc'', hfirst⟩ := dispatch_core hc'
  refine ⟨s', ready', ?_, (leaves_update hmem h' s.cur s.ticks _).trans hl', hc'', fun h => ?_⟩
  · rw [schedule, requeue, if_pos hrun, hc.find_ready, ok_bind, assert_bind_of (by simp [hr]), hok,
      ok_bind]
    exact hs'
  · rw [h] at hfirst ⊢
    exact hfirst s.cur [] rfl

theorem threadBlock_core (hc : CoreOn all (some s.cur) s ready waiters) (hpc : s.pc s.cur = .normal)
    {stat : TaskStatus} (hb : stat.IsBlocked) :
    ∃ s' ready', threadBlock s stat = .ok s' ∧ Leaves s s' ∧
      CoreOn all (some s'.cur) s' ready' waiters := by
  obtain ⟨hmem, -⟩ := hc.running_mem
  obtain ⟨hr, hw⟩ := hc.running_notMem
  have hne : stat ≠ .ready ∧ stat ≠ .running :=
    ⟨fun h => not_isBlocked_ready (h ▸ hb), fun h => not_isBlocked_running (h ▸ hb)⟩
  have hc' : CoreOn all none (s.setStatus s.cur stat) ready waiters :=
    hc.change s.cur hmem rfl rfl (fun u hu => setStatus_of_ne hu) (fun u _ => rfl) (by simp)
      hc.lists (fun u _ => Iff.rfl) (fun k u _ => Iff.rfl) (fun u hu => by simp [Ne.symm hu])
      (by simp [hr, hne.1]) (by simp [hne.2])
      (fun k => by simp [hw k, show (s.setStatus s.cur stat).pc = s.pc from rfl, hpc])
      (by simp [hb]) (fun _ => hpc)
  obtain ⟨s', ready', hs', hl', hc''⟩ := schedule_core hc' hmem
  refine ⟨s', ready', ?_, (leaves_update hmem s.links s.cur s.ticks _).trans hl', hc''⟩
  rw [threadBlock, assert_bind_of hb]
  exact hs'

theorem threadYield_core (hc : CoreOn all (some s.cur) s ready waiters)
    (hpc : s.pc s.cur = .normal) :
    ∃ s' ready', threadYield s = .ok s' ∧ Leaves s s' ∧
      CoreOn all (some s'.cur) s' ready' waiters := by
  obtain ⟨hmem, -⟩ := hc.running_mem
  obtain ⟨hr, hw⟩ := hc.running_notMem
  obtain ⟨h', hok, hl⟩ := append_ready hc.lists hr hw
  have hc' : CoreOn all none ({ s with links := h' }.setStatus s.cur .ready) (ready ++ [s.cur])
      waiters :=
    hc.change s.cur hmem rfl rfl (fun u hu => setStatus_of_ne hu) (fun u _ => rfl) (by simp)
      hl (fun u hu => by simp [hu]) (fun k u _ => Iff.rfl) (fun u hu => by simp [Ne.symm hu])
      (by simp) (by simp) (fun k => by simp [hw k, not_isBlocked_ready]) (by simp) (fun _ => hpc)
  obtain ⟨s', ready', hs', hl', hc''⟩ := schedule_core hc' hmem
  refine ⟨s', ready', ?_, (leaves_update hmem h' s.cur s.ticks _).trans hl', hc''⟩
  rw [threadYield, hc.find_ready, ok_bind, assert_bind_of (by simp [hr]), hok, ok_bind]
  exact hs'

/-- One pass of `sema_down`: the thread takes the value, or it goes to the waiters and is blocked;
a value above 1 fails the assertion. -/
theorem semaDown_core (hc : CoreOn all (some s.cur) s ready waiters) (hidle : s.cur ≠ s.idleThread)
    (k : S) :
    (∃ s' ready' waiters', semaDown s k = .ok s' ∧ CoreOn all (some s'.cur) s' ready' waiters' ∧
      (∀ j, s'.value j ≤ s.value j) ∧ (∀ u, u ≠ s.cur → s'.pc u = s.pc u) ∧
      s'.threads = s.threads ∧ s'.idleThread = s.idleThread ∧
      ∀ u, u ∉ s.threads → s'.task u = s.task u) ∨
    (semaDown s k = .error (.panic "sema_down" "psema->value == 0") ∧ 2 ≤ s.value k) := by
  obtain ⟨hmem, -⟩ := hc.running_mem
  obtain ⟨hr, hw⟩ := hc.running_notMem
  unfold semaDown
  by_cases hv : s.value k = 0
  · refine Or.inl ?_
    obtain ⟨h', hok, hl⟩ := append_waiters hc.lists hr hw k
    have hc' : CoreOn all none ({ s with
        links := h', pc := Function.update s.pc s.cur (.down k) }.setStatus s.cur .blocked) ready
        (Function.update waiters k (waiters k ++ [s.cur])) := by
      refine hc.change s.cur hmem rfl rfl (fun u hu => setStatus_of_ne hu)
        (fun u hu => Function.update_of_ne hu ..) (by simp) hl (fun u _ => Iff.rfl)
        (fun j u hu => ?_) (fun u hu => by simp [Ne.symm hu]) (by simp [hr]) (by simp)
        (fun j => ?_) (Or.inr (Or.inr (by simp [isBlocked_blocked]))) (fun h => absurd h hidle)
      · by_cases hjk : j = k
        · subst hjk
          simp [hu]
        · simp [hjk]
      · by_cases hjk : j = k
        · subst hjk
          simp [State.setStatus, isBlocked_blocked]
        · simp [State.setStatus, hjk, hw j, Ne.symm hjk]
    obtain ⟨s', ready', hs', hl', hc''⟩ := schedule_core hc' hmem
    refine ⟨s', ready', _, ?_, hc'', fun j => by rw [hl'.value]; exact Nat.le_refl _,
      fun u hu => ?_, hl'.threads, hl'.idle, fun u hu => ?_⟩
    rotate_left
    · rw [hl'.pc]
      exact Function.update_of_ne hu ..
    · rw [hl'.task u hu]
      exact setStatus_of_ne fun h => hu (by rw [h]; exact hmem)
    rw [if_pos hv, hc.find_waiters, ok_bind, assert_bind_of (by simp [hw k]), ok_bind,
      if_neg (by simp [hw k]), hok, ok_bind, threadBlock, assert_bind_of isBlocked_blocked]
    exact hs'
  · rw [if_neg hv]
    by_cases h1 : s.value k = 1
    · refine Or.inl ⟨{ s with
        value := Function.update s.value k (s.value k - 1)
        pc := Function.update s.pc s.cur .normal }, ready, waiters, ?_, ?_, fun j => ?_,
        fun u hu => Function.update_of_ne hu .., rfl, rfl, fun u _ => rfl⟩
      · rw [assert_bind_of (by simp [h1])]
      · refine hc.change s.cur hmem rfl rfl (fun u _ => rfl)
          (fun u hu => Function.update_of_ne hu ..) rfl hc.lists (fun u _ => Iff.rfl)
          (fun j u _ => Iff.rfl) (fun u _ => Iff.rfl) ?_ ?_ (fun j => ?_) ?_ (fun _ => by simp)
        · simpa [hmem] using hc.mem_ready s.cur
        · simpa [hmem] using hc.running s.cur
        · simp [hw j]
        · exact hc.kinds _ hmem
      · by_cases hjk : j = k <;> simp [hjk]
    · refine Or.inr ⟨?_, by omega⟩
      rw [assert_bind_of_not]
      simp
      omega

theorem one_byte : (0 + 1) % 2 ^ 8 = 1 := rfl

/-- `sema_up` wakes the first waiter. -/
theorem semaUp_core (hc : CoreOn all o s ready waiters) (hv : s.value k = 0) :
    ∃ s' ready' waiters', semaUp s k = .ok s' ∧ s'.cur = s.cur ∧ CoreOn all o s' ready' waiters' ∧
      s'.value = Function.update s.value k 1 ∧ s'.pc = s.pc ∧ s'.threads = s.threads ∧
      s'.idleThread = s.idleThread ∧ (∀ u, u ∉ s.threads → s'.task u = s.task u) ∧
      ready <:+ ready' := by
  unfold semaUp
  rw [assert_bind_of hv, listEmpty_eq hc.lists (.waiters k), ok_bind]
  cases hk : waiters k with
  | nil =>
    refine ⟨{ s with value := Function.update s.value k 1 }, ready, waiters, ?_, rfl, ?_, rfl, rfl,
      rfl, rfl, fun u _ => rfl, List.suffix_rfl⟩
    · rw [if_neg (by simp [seqs, hk]), ok_bind, hv, assert_bind_of (by simp), one_byte]
    · exact ⟨hc.lists, hc.mem_ready, hc.running, hc.mem_waiters, hc.kinds, hc.magic, hc.idle_mem,
        hc.idle_pc⟩
  | cons w ws =>
    have hw := (hc.mem_waiters k w).mp (by rw [hk]; exact List.mem_cons_self)
    have hnd := hc.waiters_nodup k
    rw [hk, List.nodup_cons] at hnd
    have hr : w ∉ ready := fun h => not_isBlocked_ready (((hc.mem_ready w).mp h).2 ▸ hw.2.1)
    have ho : o ≠ some w := fun h => not_isBlocked_running (((hc.running w).mp h).2 ▸ hw.2.1)
    have hoff : ∀ j, w ∉ Function.update waiters k ws j := by
      intro j
      by_cases hjk : j = k
      · subst hjk
        simpa using hnd.1
      · rw [Function.update_of_ne hjk]
        intro h
        have := ((hc.mem_waiters j w).mp h).2.2
        rw [hw.2.2] at this
        exact hjk (Pc.down.inj this).symm
    obtain ⟨h₁, hpop, hl₁⟩ := pop_waiters hc.lists hk
    obtain ⟨h₂, hun, hl₂⟩ := threadUnblock_eq (s := { s with links := h₁ }) hl₁ hc.length_ready hr
      hoff hw.2.1
    refine ⟨{ { s with links := h₂ }.setStatus w .ready with
      value := Function.update s.value k 1 }, w :: ready, Function.update waiters k ws, ?_, rfl, ?_,
      rfl, rfl, rfl, rfl, fun u hu => ?_, List.suffix_cons w ready⟩
    · rw [if_pos (by simp [seqs, hk]), hpop]
      change (threadUnblock { s with links := h₁ } w >>= _) = _
      rw [hun, ok_bind]
      simp only [State.setStatus, hv]
      rw [assert_bind_of (by simp), one_byte]
    · refine hc.change w hw.1 rfl rfl (fun u hu => setStatus_of_ne hu) (fun u _ => rfl) ?_ hl₂
        (fun u hu => by simp [hu]) (fun j u hu => ?_) (fun u _ => Iff.rfl) ?_ ?_ (fun j => ?_) ?_
        (fun h => by rw [h]; exact hc.idle_pc)
      · simp [State.setStatus]
      · by_cases hjk : j = k
        · subst hjk
          simp [hk, hu]
        · rw [Function.update_of_ne hjk]
      · simp [State.setStatus]
      · simp [State.setStatus, ho]
      · simp [State.setStatus, hoff j, not_isBlocked_ready]
      · simp [State.setStatus]
    · exact setStatus_of_ne fun h => hu (by rw [h]; exact hw.1)

/-- A change of the counters of the running thread. -/
theorem tick_core (hc : CoreOn all (some s.cur) s ready waiters) {c : Task} {n : ℕ}
    (hs : c.status = (s.task s.cur).status) (hm : c.stackMagic = (s.task s.cur).stackMagic) :
    CoreOn all (some s.cur) { s with ticks := n, task := Function.update s.task s.cur c } ready
      waiters := by
  obtain ⟨hmem, hrun⟩ := hc.running_mem
  obtain ⟨hr, hw⟩ := hc.running_notMem
  refine hc.change s.cur hmem rfl rfl (fun u hu => Function.update_of_ne hu ..) (fun u _ => rfl)
    (by simp [hm]) hc.lists (fun u _ => Iff.rfl) (fun j u _ => Iff.rfl) (fun u _ => Iff.rfl) ?_ ?_
    (fun j => ?_) ?_ (fun h => by rw [h]; exact hc.idle_pc)
  · simp [hr, hs, hrun]
  · simp [hs, hrun]
  · simp [hw j, hs, hrun, not_isBlocked_running]
  · simp [hs, hrun]

theorem intrTimerHandler_core (hc : CoreOn all (some s.cur) s ready waiters) :
    ∃ s' ready', intrTimerHandler s = .ok s' ∧ Leaves s s' ∧
      CoreOn all (some s'.cur) s' ready' waiters ∧
      ((s.task s.cur).ticks ≠ 0 ∨ ready = [] → s'.cur = s.cur ∧ ready' = ready) := by
  obtain ⟨hmem, -⟩ := hc.running_mem
  unfold intrTimerHandler
  rw [assert_bind_of (hc.magic _ hmem)]
  set c : Task := { s.task s.cur with
    elapsedTicks := ((s.task s.cur).elapsedTicks + 1) % 2 ^ 32 } with hcdef
  set s₁ : State T S := { s with
    ticks := (s.ticks + 1) % 2 ^ 32, task := Function.update s.task s.cur c } with hs₁
  have hc₁ : CoreOn all (some s₁.cur) s₁ ready waiters := tick_core hc rfl rfl
  have hl₁ : Leaves s s₁ := leaves_update hmem s.links s.cur _ c
  have hcur : s₁.task s₁.cur = c := Function.update_self ..
  by_cases ht : c.ticks = 0
  · obtain ⟨s', ready', hs', hl', hc', halone⟩ := schedule_running hc₁
    refine ⟨s', ready', (if_pos ht).trans hs', hl₁.trans hl', hc', fun h => ?_⟩
    exact halone (h.resolve_left fun hne => hne ht)
  · refine ⟨_, ready, if_neg ht,
      hl₁.trans (leaves_update (s := s₁) hmem s₁.links s₁.cur s₁.ticks _), ?_, fun _ => ⟨rfl, rfl⟩⟩
    exact tick_core (s := s₁) (n := s₁.ticks) hc₁ (by rw [hcur]) (by rw [hcur])

/-! ## New threads -/

/-- A new thread goes on the ready list and on the list of all threads. -/
theorem enlist_core {all' : List T} (hc : CoreOn all o s ready waiters) (ht : t ∉ s.threads)
    {task : Task} (hs : task.status = .ready) (hm : task.stackMagic = 0x12345678)
    (hl : Lists h (ready ++ [t]) all' waiters) :
    CoreOn all' o { s with
      links := h, task := Function.update s.task t task, pc := Function.update s.pc t .normal
      threads := s.threads ++ [t] } (ready ++ [t]) waiters := by
  have hr : t ∉ ready := fun h => ht ((hc.mem_ready t).mp h).1
  have hw : ∀ k, t ∉ waiters k := fun k h => ht ((hc.mem_waiters k t).mp h).1
  have ho : o ≠ some t := fun h => ht ((hc.running t).mp h).1
  have hidle : s.idleThread ≠ t := fun h => ht (h ▸ hc.idle_mem)
  refine ⟨hl, fun u => ?_, fun u => ?_, fun k u => ?_, fun u hu => ?_, fun u hu => ?_, ?_, ?_⟩
  · by_cases hut : u = t
    · subst hut
      simp [hs]
    · simpa [hut] using hc.mem_ready u
  · by_cases hut : u = t
    · subst hut
      simp [hs, ho]
    · simpa [hut] using hc.running u
  · by_cases hut : u = t
    · subst hut
      simp [hs, hw, not_isBlocked_ready]
    · simpa [hut] using hc.mem_waiters k u
  · by_cases hut : u = t
    · subst hut
      simp [hs]
    · simpa [hut] using hc.kinds u (by simpa [hut] using hu)
  · by_cases hut : u = t
    · subst hut
      simp [hm]
    · simpa [hut] using hc.magic u (by simpa [hut] using hu)
  · exact List.mem_append_left _ hc.idle_mem
  · simpa [hidle] using hc.idle_pc

theorem enlistReady_eq (hl : Lists s.links ready all waiters)
    (hlen : ready.length ≤ s.threads.length) (hr : t ∉ ready) (hw : ∀ k, t ∉ waiters k)
    (func : String) :
    ∃ h', enlistReady s t func = .ok { s with links := h' } ∧
      Lists h' (ready ++ [t]) all waiters := by
  obtain ⟨h', hok, hl'⟩ := append_ready hl hr hw
  refine ⟨h', ?_, hl'⟩
  rw [enlistReady, State.elemFind,
    elemFind_eq hl .ready (.generalTag t) (by simpa [seqs] using hlen), ok_bind,
    assert_bind_of (by simp [seqs, hr]), hok]
  rfl

theorem enlistAll_eq (hl : Lists s.links ready all waiters) (hlen : all.length ≤ s.threads.length)
    (ha : t ∉ all) (func tag : String) :
    ∃ h', enlistAll s t func tag = .ok { s with links := h' } ∧
      Lists h' ready (all ++ [t]) waiters := by
  obtain ⟨h', hok, hl'⟩ := append_all hl ha
  refine ⟨h', ?_, hl'⟩
  rw [enlistAll, State.elemFind,
    elemFind_eq hl .all (.allListTag t) (by simpa [seqs] using hlen), ok_bind,
    assert_bind_of (by simp [seqs, ha]), hok]
  rfl

/-- The lists after a thread has been initialised and enlisted. -/
theorem enlist_eq (hc : CoreOn all o s ready waiters) (hall : all.length ≤ s.threads.length)
    (ht : t ∉ s.threads) (hta : t ∉ all) (prio : ℕ) (func : String) :
    ∃ h₁ h₂,
      enlistReady (initThread s t .ready prio) t func =
        .ok { initThread s t .ready prio with links := h₁ } ∧
      State.elemFind { initThread s t .ready prio with links := h₁ } .ready (.generalTag t) =
        .ok true ∧
      enlistAll { initThread s t .ready prio with links := h₁ } t func "thread" =
        .ok { initThread s t .ready prio with links := h₂ } ∧
      CoreOn (all ++ [t]) o { initThread s t .ready prio with links := h₂ } (ready ++ [t])
        waiters := by
  have hr : t ∉ ready := fun h => ht ((hc.mem_ready t).mp h).1
  have hw : ∀ k, t ∉ waiters k := fun k h => ht ((hc.mem_waiters k t).mp h).1
  have hlen := hc.length_ready
  obtain ⟨h₁, hok₁, hl₁⟩ := enlistReady_eq (s := initThread s t .ready prio) hc.lists
    (by simp only [initThread, List.length_append]; omega) hr hw func
  obtain ⟨h₂, hok₂, hl₂⟩ := enlistAll_eq (s := { initThread s t .ready prio with links := h₁ }) hl₁
    (by simp only [initThread, List.length_append]; omega) hta func "thread"
  refine ⟨h₁, h₂, hok₁, ?_, hok₂, enlist_core hc ht rfl rfl hl₂⟩
  unfold State.elemFind
  rw [elemFind_eq hl₁ .ready (.generalTag t) ?_]
  · simp [seqs]
  · simp only [seqs, initThread, List.length_map, List.length_append, List.length_singleton]
    omega

theorem threadStart_core (hc : CoreOn all o s ready waiters)
    (hall : all.length ≤ s.threads.length) (ht : t ∉ s.threads) (hta : t ∉ all) (prio : ℕ) :
    ∃ h', threadStart s t prio = .ok { initThread s t .ready prio with links := h' } ∧
      CoreOn (all ++ [t]) o { initThread s t .ready prio with links := h' } (ready ++ [t])
        waiters := by
  obtain ⟨h₁, h₂, hok₁, hfind, hok₂, hc'⟩ := enlist_eq hc hall ht hta prio "thread_start"
  refine ⟨h₂, ?_, hc'⟩
  rw [threadStart, hok₁, ok_bind, hfind, ok_bind, assert_bind_of rfl, hok₂]

theorem processExecute_core (hc : CoreOn all o s ready waiters)
    (hall : all.length ≤ s.threads.length) (ht : t ∉ s.threads) (hta : t ∉ all) :
    ∃ h', processExecute s t = .ok { initThread s t .ready defaultPrio with links := h' } ∧
      CoreOn (all ++ [t]) o { initThread s t .ready defaultPrio with links := h' } (ready ++ [t])
        waiters := by
  obtain ⟨h₁, h₂, hok₁, -, hok₂, hc'⟩ := enlist_eq hc hall ht hta defaultPrio "process_execute"
  refine ⟨h₂, ?_, hc'⟩
  rw [processExecute, hok₁, ok_bind, hok₂]

/-- `list_init` of the two lists of `thread/thread.c`. -/
theorem lists_init (main : T) (v : S → ℕ) (task : T → Task) :
    ∃ h₁ h₂, listInit linkHeap (boot main v task).links (plist .ready) = .ok h₁ ∧
      listInit linkHeap h₁ (plist .all) = .ok h₂ ∧ Lists h₂ [] [] fun _ => [] := by
  obtain ⟨h₁, hok₁, hl₁, he₁⟩ := isList_init (l := plist .ready) (h := (boot main v task).links)
    lawful nofun nofun nofun
  obtain ⟨h₂, hok₂, hl₂, he₂⟩ := isList_init (l := plist .all) (h := h₁) lawful nofun nofun nofun
  refine ⟨h₁, h₂, liftFault_ok hok₁, liftFault_ok hok₂, ?_, ?_⟩
  · have hnull : ∀ {l : ListId S} (n : Node T S), n = (plist l).head ∨ n = (plist l).tail →
        n ≠ .null := by
      rintro l n (rfl | rfl) <;> nofun
    intro l
    cases l with
    | ready =>
      exact IsList.frame lawful hl₁ he₂ hnull (by simp [seqs, nodes, plist])
    | all => exact hl₂
    | waiters k =>
      have hk : linkHeap.IsList (· ≠ .null) (boot main v task).links (plist (.waiters k)) [] :=
        ⟨by simp [nodes, plist, Linked, linkHeap, boot], by simp [nodes, plist],
          by simp [nodes, plist], rfl, rfl⟩
      have hk₁ := IsList.frame lawful hk he₁ hnull (by simp [nodes, plist])
      exact IsList.frame lawful hk₁ he₂ hnull (by simp [nodes, plist, seqs])
  · intro l j hlj n hn
    cases l <;> cases j <;> simp_all [nodes, plist, seqs]
    all_goals rcases hn with rfl | rfl <;> simp_all

/-- `thread_init` leaves the main thread running and the idle thread ready. -/
theorem threadInit_core {main idle : T} (hne : main ≠ idle) (v : S → ℕ) (task : T → Task) :
    ∃ s, threadInit (boot main v task) idle = .ok s ∧ s.cur = main ∧ s.value = v ∧
      Core (some main) s [idle] fun _ => [] := by
  obtain ⟨h₁, h₂, hok₁, hok₂, hl₂⟩ := lists_init main v task
  set s₀ : State T S := initThread { boot main v task with links := h₂ } main .running 31 with hs₀
  obtain ⟨h₃, hok₃, hl₃⟩ := enlistAll_eq (s := s₀) hl₂ (Nat.zero_le _) List.not_mem_nil
    "make_main_thread" "main_thread"
  have hc₃ : Core (some main) { s₀ with links := h₃ } [] fun _ => [] := by
    refine ⟨hl₃, ?_, ?_, ?_, ?_, ?_, ?_, ?_⟩
    all_goals simp only [hs₀, initThread, boot, List.nil_append]
    · intro t
      by_cases ht : t = main <;> simp [ht]
    · intro t
      by_cases ht : t = main
      · simp [ht]
      · simp [ht, Ne.symm ht]
    · intro k t
      by_cases ht : t = main <;> simp [ht, not_isBlocked_running]
    · simp
    · simp
    · simp
    · simp
  have hnew : idle ∉ State.threads { s₀ with links := h₃ } := by
    simpa [hs₀, initThread, boot] using Ne.symm hne
  obtain ⟨h₄, hok₄, hc₄⟩ := threadStart_core hc₃.on (Nat.le_refl _) hnew hnew 10
  refine ⟨{ { initThread { s₀ with links := h₃ } idle .ready 10 with links := h₄ } with
    idleThread := idle }, ?_, rfl, rfl, ?_⟩
  · unfold threadInit
    rw [hok₁, ok_bind, hok₂, ok_bind, makeMainThread]
    change (enlistAll s₀ main _ _ >>= _) = _
    rw [hok₃, ok_bind, hok₄]
    rfl
  · exact ⟨hc₄.lists, hc₄.mem_ready, hc₄.running, hc₄.mem_waiters, hc₄.kinds, hc₄.magic,
      by simp [initThread], by simp [initThread]⟩

/-! ## Whole runs -/

/-- The invariant between steps; a semaphore that started with 0 or 1 stays there. -/
def Inv (v : S → ℕ) (s : State T S) : Prop :=
  (∃ ready waiters, Core (some s.cur) s ready waiters) ∧ ∀ k, v k ≤ 1 → s.value k ≤ 1

/-- The one assertion that can fail: `sema_down` of a semaphore initialised with more than 1. -/
def Overfull (v : S → ℕ) (x : Halt) : Prop :=
  x = .panic "sema_down" "psema->value == 0" ∧ ∃ k, 2 ≤ v k

variable {v : S → ℕ}

/-- The thread that a step creates. -/
def Event.adds : Event T S → List T
  | .start t _ => [t]
  | .execute t => [t]
  | _ => []

/-- What a step does besides moving threads between the lists. -/
structure Did (e : Event T S) (s s' : State T S) : Prop where
  threads : s'.threads = s.threads ++ e.adds
  idle : s'.idleThread = s.idleThread
  pc : ∀ u, u ∉ e.adds → (u = s.cur → e.byThread = false) → s'.pc u = s.pc u
  task : ∀ u, u ∉ s.threads → u ∉ e.adds → s'.task u = s.task u
  value : ∀ k, s'.value k ≤ max (s.value k) 1

/-- The interrupts after which the running thread goes on. -/
def Stays (s : State T S) : Event T S → Prop
  | .timer => (s.task s.cur).ticks ≠ 0
  | e => e.byThread = false

omit [DecidableEq T] [DecidableEq S] in
theorem Leaves.did (h : Leaves s s') {e : Event T S} (he : e.adds = []) : Did e s s' := by
  refine ⟨?_, h.idle, fun u _ _ => by rw [h.pc], fun u hu _ => h.task u hu, fun k => ?_⟩
  · rw [he, List.append_nil]
    exact h.threads
  · rw [h.value]
    exact Nat.le_max_left _ _

theorem semaDown_did (hc : CoreOn all (some s.cur) s ready waiters) (hidle : s.cur ≠ s.idleThread)
    (k : S) {e : Event T S} (he : e.adds = []) (hby : e.byThread = true) (hns : ¬Stays s e) :
    (∃ s' ready' waiters', semaDown s k = .ok s' ∧
      CoreOn (all ++ e.adds) (some s'.cur) s' ready' waiters' ∧ Did e s s' ∧
      (Stays s e → s'.cur = s.cur ∧ ready <:+ ready')) ∨
    semaDown s k = .error (.panic "sema_down" "psema->value == 0") ∧ ∃ k, 2 ≤ s.value k := by
  rw [he, List.append_nil]
  rcases semaDown_core hc hidle k with
    ⟨s', ready', waiters', hok, hc', hle, hpc, hthreads, hid, htask⟩ | ⟨herr, h2⟩
  · refine Or.inl ⟨s', ready', waiters', hok, hc',
      ⟨?_, hid, fun u _ hu => hpc u ?_, fun u hu _ => htask u hu, fun j => ?_⟩,
      fun h => absurd h hns⟩
    · rw [he, List.append_nil]
      exact hthreads
    · intro h
      rw [hu h] at hby
      cases hby
    · exact (hle j).trans (Nat.le_max_left _ _)
  · exact Or.inr ⟨herr, k, h2⟩

omit [DecidableEq S] in
theorem new_did (t : T) (prio : ℕ) {h : Links T S} {e : Event T S} (he : e.adds = [t]) :
    Did e s { initThread s t .ready prio with links := h } := by
  have hne : ∀ u, u ∉ e.adds → u ≠ t := fun u hu hut =>
    hu (by rw [he, hut]; exact List.mem_cons_self)
  refine ⟨?_, rfl, fun u hu _ => ?_, fun u _ hu => ?_, fun k => Nat.le_max_left _ _⟩
  · rw [he]
    rfl
  · exact Function.update_of_ne (hne u hu) ..
  · exact Function.update_of_ne (hne u hu) ..

/-- Every step keeps the lists in order; the one assertion that can fail is that of `sema_down`. -/
theorem exec_core (hc : CoreOn all (some s.cur) s ready waiters)
    (hall : all.length ≤ s.threads.length) {e : Event T S} (hnew : ∀ t ∈ e.adds, t ∉ all)
    (he : Enabled s e) :
    (∃ s' ready' waiters', exec s e = .ok s' ∧
      CoreOn (all ++ e.adds) (some s'.cur) s' ready' waiters' ∧ Did e s s' ∧
      (Stays s e → s'.cur = s.cur ∧ ready <:+ ready')) ∨
    exec s e = .error (.panic "sema_down" "psema->value == 0") ∧ ∃ k, 2 ≤ s.value k := by
  -- the steps that leave the semaphores alone
  have keep : ∀ {x : Except Halt (State T S)}, e.adds = [] →
      (∃ s' ready', x = .ok s' ∧ Leaves s s' ∧ CoreOn all (some s'.cur) s' ready' waiters ∧
        (Stays s e → s'.cur = s.cur ∧ ready <:+ ready')) →
        ∃ s' ready' waiters', x = .ok s' ∧
          CoreOn (all ++ e.adds) (some s'.cur) s' ready' waiters' ∧ Did e s s' ∧
          (Stays s e → s'.cur = s.cur ∧ ready <:+ ready') := by
    rintro x hadds ⟨s', ready', hok, hl, hc', hst⟩
    refine ⟨s', ready', waiters, hok, ?_, hl.did hadds, hst⟩
    rw [hadds, List.append_nil]
    exact hc'
  cases hpc : s.pc s.cur with
  | down k =>
    have hidle : s.cur ≠ s.idleThread := by
      intro h
      rw [h, hc.idle_pc] at hpc
      cases hpc
    simp only [Enabled, hpc] at he
    cases e with
    | resume =>
      simp only [exec, hpc]
      exact semaDown_did hc hidle k rfl rfl nofun
    | _ => exact he.elim
  | normal =>
    simp only [Enabled, hpc] at he
    obtain ⟨hidle, he⟩ := he
    cases e with
    | start t prio =>
      obtain ⟨h', hok, hc'⟩ := threadStart_core hc hall he (hnew t List.mem_cons_self) prio
      refine Or.inl ⟨_, _, _, hok, hc', new_did t prio rfl, fun h => absurd h nofun⟩
    | execute t =>
      obtain ⟨h', hok, hc'⟩ := processExecute_core hc hall he (hnew t List.mem_cons_self)
      refine Or.inl ⟨_, _, _, hok, hc', new_did t defaultPrio rfl, fun h => absurd h nofun⟩
    | timer =>
      obtain ⟨s', ready', hok, hl, hc', hst⟩ := intrTimerHandler_core hc
      refine Or.inl (keep rfl ⟨s', ready', hok, hl, hc', fun h => ?_⟩)
      obtain ⟨hcur, rfl⟩ := hst (Or.inl h)
      exact ⟨hcur, List.suffix_rfl⟩
    | block stat =>
      obtain ⟨s', ready', hok, hl, hc'⟩ := threadBlock_core hc hpc he
      exact Or.inl (keep rfl ⟨s', ready', hok, hl, hc', nofun⟩)
    | unblock t =>
      obtain ⟨h', hok, hc'⟩ := threadUnblock_core hc he.1 he.2.2.1 he.2.2.2
      exact Or.inl (keep rfl ⟨_, _, hok, leaves_update he.1 h' s.cur s.ticks _, hc',
        fun _ => ⟨rfl, List.suffix_cons t ready⟩⟩)
    | yield =>
      obtain ⟨s', ready', hok, hl, hc'⟩ := threadYield_core hc hpc
      exact Or.inl (keep rfl ⟨s', ready', hok, hl, hc', nofun⟩)
    | down k => exact semaDown_did hc (fun h => hidle h rfl) k rfl rfl nofun
    | up k =>
      obtain ⟨s', ready', waiters', hok, hcur, hc', hval, hpc', hthreads, hid, htask, hsuf⟩ :=
        semaUp_core hc he
      refine Or.inl ⟨s', ready', waiters', hok, ?_,
        ⟨?_, hid, fun u _ _ => by rw [hpc'], fun u hu _ => htask u hu, fun j => ?_⟩,
        fun _ => ⟨hcur, hsuf⟩⟩
      · simp only [Event.adds, List.append_nil]
        exact hcur ▸ hc'
      · simp only [Event.adds, List.append_nil]
        exact hthreads
      · rw [hval]
        by_cases hjk : j = k
        · rw [hjk, Function.update_self]
          exact Nat.le_max_right _ _
        · rw [Function.update_of_ne hjk]
          exact Nat.le_max_left _ _
    | resume => exact he.elim

omit [DecidableEq T] [DecidableEq S] in
/-- A page that a new thread gets was free. -/
theorem Enabled.new {e : Event T S} (he : Enabled s e) : ∀ t ∈ e.adds, t ∉ s.threads := by
  intro t ht
  unfold Enabled at he
  cases e with
  | start u prio =>
    cases hpc : s.pc s.cur with
    | down k => simp only [hpc] at he
    | normal =>
      simp only [hpc] at he
      rw [List.mem_singleton.mp ht]
      exact he.2
  | execute u =>
    cases hpc : s.pc s.cur with
    | down k => simp only [hpc] at he
    | normal =>
      simp only [hpc] at he
      rw [List.mem_singleton.mp ht]
      exact he.2
  | _ => cases ht

/-- Every step keeps the invariant. -/
theorem exec_inv (hi : Inv v s) {e : Event T S} (he : Enabled s e) :
    (∃ s', exec s e = .ok s' ∧ Inv v s') ∨ ∃ x, exec s e = .error x ∧ Overfull v x := by
  obtain ⟨⟨ready, waiters, hc⟩, hv⟩ := hi
  rcases exec_core hc.on (Nat.le_refl _) he.new he with
    ⟨s', ready', waiters', hok, hc', hd, -⟩ | ⟨herr, k, h2⟩
  · refine Or.inl ⟨s', hok, ⟨ready', waiters', ?_⟩, fun k hk => (hd.value k).trans ?_⟩
    · rw [← hd.threads] at hc'
      exact hc'.core
    · exact Nat.max_le.mpr ⟨hv k hk, Nat.le_refl 1⟩
  · refine Or.inr ⟨_, herr, rfl, k, ?_⟩
    by_contra hk
    have := hv k (by omega)
    omega

/-- Every run keeps the invariant. -/
theorem run_inv (hi : Inv v s) {es : List (Event T S)} {r : Except Halt (State T S)}
    (hr : (machine T S).run s es = some r) :
    (∃ s', r = .ok s' ∧ Inv v s') ∨ ∃ x, r = .error x ∧ Overfull v x := by
  refine Machine.run_cases (fun s e r hi hs => ?_) hi hr
  simp only [machine] at hs
  split at hs
  · next he =>
    rw [← Option.some.inj hs]
    exact exec_inv hi he
  · cases hs

/-- What the lists and the statuses look like between steps. -/
structure WellScheduled (s : State T S) (ready : List T) (waiters : S → List T) : Prop where
  /-- The ready list, the list of all threads and the waiters of every semaphore are well-formed
  lists of these threads' tags. -/
  readyList : linkHeap.IsList (· ≠ .null) s.links (plist .ready) (ready.map .generalTag)
  allList : linkHeap.IsList (· ≠ .null) s.links (plist .all) (s.threads.map .allListTag)
  waitersList : ∀ k,
    linkHeap.IsList (· ≠ .null) s.links (plist (.waiters k)) ((waiters k).map .generalTag)
  /-- Exactly the thread on the CPU is running. -/
  running : ∀ t, t ∈ s.threads ∧ (s.task t).status = .running ↔ t = s.cur
  ready_iff : ∀ t, t ∈ ready ↔ t ∈ s.threads ∧ (s.task t).status = .ready
  ready_once : ready.Nodup
  blocked : ∀ t ∈ s.threads, (s.task t).status.IsBlocked → t ∉ ready ∧
    ∀ j k, t ∈ waiters j → t ∈ waiters k → j = k
  waiters_once : ∀ k, (waiters k).Nodup
  all_once : s.threads.Nodup
  /-- The idle thread is there for the next `schedule`. -/
  idle : ready = [] → s.cur ≠ s.idleThread → (s.task s.idleThread).status.IsBlocked

theorem wellScheduled (hc : Core (some s.cur) s ready waiters) : WellScheduled s ready waiters where
  readyList := hc.lists.isList .ready
  allList := hc.lists.isList .all
  waitersList k := hc.lists.isList (.waiters k)
  running t := by rw [← hc.running, Option.some.injEq, eq_comm]
  ready_iff := hc.mem_ready
  ready_once := hc.on.ready_nodup
  blocked t ht hb := by
    refine ⟨fun hr => not_isBlocked_ready (((hc.mem_ready t).mp hr).2 ▸ hb), fun j k hj hk => ?_⟩
    have hj' := ((hc.mem_waiters j t).mp hj).2.2
    have hk' := ((hc.mem_waiters k t).mp hk).2.2
    exact Pc.down.inj (hj'.symm.trans hk')
  waiters_once := hc.on.waiters_nodup
  all_once := hc.on.all_nodup
  idle hr hne := by
    rcases hc.kinds _ hc.idle_mem with h | h | h
    · exact absurd (Option.some.inj ((hc.running _).mpr ⟨hc.idle_mem, h⟩)) hne
    · have := (hc.mem_ready _).mpr ⟨hc.idle_mem, h⟩
      rw [hr] at this
      cases this
    · exact h

/-- **The scheduler.**  From the state `thread_init` leaves, every sequence of kernel steps ends in
a state in which the lists and the statuses agree.  In particular `schedule` never takes a thread
from an empty ready list, and no assertion fails but that of `sema_down`, on a semaphore that was
initialised with more than 1. -/
theorem scheduler_safe {main idle : T} (hne : main ≠ idle) (v : S → ℕ) (task : T → Task) :
    ∃ s₀, threadInit (boot main v task) idle = .ok s₀ ∧
      ∀ es r, (machine T S).run s₀ es = some r →
        (∃ s ready waiters, r = .ok s ∧ WellScheduled s ready waiters) ∨
          ∃ x, r = .error x ∧ Overfull v x := by
  obtain ⟨s₀, hinit, hcur, hval, hc₀⟩ := threadInit_core hne v task
  refine ⟨s₀, hinit, fun es r hr => ?_⟩
  have hinv₀ : Inv v s₀ := ⟨⟨_, _, hcur ▸ hc₀⟩, by rw [hval]; exact fun k hk => hk⟩
  refine (run_inv hinv₀ hr).imp_left ?_
  rintro ⟨s, rfl, ⟨ready, waiters, hc⟩, -⟩
  exact ⟨s, ready, waiters, rfl, wellScheduled hc⟩

/-- The main thread 0 waits for a semaphore it has taken, the idle thread 1 gives up the CPU, and
the new thread 2 makes the main thread ready again. -/
theorem scheduler_safe_three_threads :
    ∃ s₀ s : State (Fin 3) Unit, ∃ ready waiters,
      threadInit (boot 0 (fun _ => 1) fun _ => ⟨.died, 0, 0, 0, 0⟩) 1 = .ok s₀ ∧
      (machine (Fin 3) Unit).run s₀
        [.start 2 5, .down (), .down (), .block .blocked, .up ()] = some (.ok s) ∧
      s.cur = 2 ∧ WellScheduled s ready waiters := by
  obtain ⟨s₀, hinit, hall⟩ := scheduler_safe (show (0 : Fin 3) ≠ 1 by decide) (fun _ : Unit => 1)
    fun _ => ⟨.died, 0, 0, 0, 0⟩
  have htest : ((threadInit (boot (0 : Fin 3) (fun _ : Unit => 1)
      fun _ => ⟨.died, 0, 0, 0, 0⟩) 1).toOption.any fun s₀ =>
        ((machine (Fin 3) Unit).run s₀
          [.start 2 5, .down (), .down (), .block .blocked, .up ()]).any fun r =>
            r.toOption.any fun s => decide (s.cur = 2)) = true := by
    decide +kernel
  rw [hinit] at htest
  obtain ⟨s, hrun, hcur⟩ := (machine (Fin 3) Unit).run_of_test htest
  rcases hall _ _ hrun with ⟨s', ready, waiters, hs', hw⟩ | ⟨x, hx, -⟩
  · cases hs'
    exact ⟨s₀, s, ready, waiters, hinit, hrun, of_decide_eq_true hcur, hw⟩
  · cases hx

end HcOs.Sched
