import Mathlib.Data.Fintype.Basic
import HcOs.Thread.Lock

/-!
# Process identifiers (`allocate_pid` of `thread/thread.c`)

`allocate_pid` increments `next_pid` under `pid_lock`, releases the lock and returns what `next_pid`
is then.  A step is one access: those of `lock_acquire` and `lock_release` are the steps of
`HcOs.LockRun`, and `next_pid++` is a read and a write.

* `pid_unique`: the values returned are distinct as long as nobody increments `next_pid` while a
  thread is between its `lock_release` and its `return`.
* `same_pid_twice`: otherwise two calls may return the same value.
-/

namespace HcOs.Pid

open HcOs.Lib

/-- Where a thread is in `allocate_pid`. -/
inductive Pc where
  /-- Between calls. -/
  | out
  /-- In `lock_acquire`, or behind it and before the read of `next_pid++`. -/
  | acquire
  /-- Before the write of `next_pid++`, with the value read. -/
  | write (n : BitVec 16)
  /-- Before `lock_release`. -/
  | written
  /-- In `lock_release`, or behind it and before the read of `return next_pid`. -/
  | release

variable {T : Type}

structure State (T : Type) where
  /-- `pid_lock` and the threads' places in its functions. -/
  lock : LockRun.State T
  nextPid : BitVec 16
  pc : T → Pc
  /-- The values returned so far. -/
  returned : List (BitVec 16)
  /-- The number of calls begun so far. -/
  calls : ℕ

def init : State T where
  lock := LockRun.init
  nextPid := 0
  pc _ := .out
  returned := []
  calls := 0

inductive Event (T : Type) where
  | call (t : T)
  /-- The thread executes its next statement. -/
  | step (t : T)

variable [DecidableEq T]

def State.goto (s : State T) (t : T) (pc : Pc) : State T :=
  { s with pc := Function.update s.pc t pc }

/-- A step of the functions of the lock. -/
def State.onLock (s : State T) (e : LockRun.Event T) : Option (Except Halt (State T)) :=
  ((LockRun.machine T).step s.lock e).map (Except.map fun lock => { s with lock })

/-- The next statement of the thread `t` inside `allocate_pid`. -/
def stmt (s : State T) (t : T) : Option (Except Halt (State T)) :=
  match s.pc t with
  | .out => none
  | .acquire =>
    if s.lock.pc t = .out then some (.ok (s.goto t (.write s.nextPid))) else s.onLock (.step t)
  | .write n => some (.ok ({ s with nextPid := n + 1 }.goto t .written))
  | .written => (s.goto t .release).onLock (.release t)
  | .release =>
    if s.lock.pc t = .out then
      some (.ok ({ s with returned := s.returned ++ [s.nextPid] }.goto t .out))
    else s.onLock (.step t)

def machine (T : Type) [DecidableEq T] : Machine (State T) (Event T) Halt where
  step s
    | .call t =>
      match s.pc t with
      | .out => ({ s with calls := s.calls + 1 }.goto t .acquire).onLock (.acquire t)
      | _ => none
    | .step t => stmt s t

/-- The increment is made and the value is not returned yet. -/
def Pc.Due : Pc → Prop
  | .written | .release => True
  | _ => False

/-- The next statement is the write of the increment. -/
def Pc.Writes : Pc → Prop
  | .write _ => True
  | _ => False

/-- The step does not increment `next_pid` while a thread has yet to return the value before. -/
def Careful (s : State T) : Event T → Prop
  | .step t => (s.pc t).Writes → ∀ u, ¬(s.pc u).Due
  | .call _ => True

/-! ## The invariant -/

/-- Where the thread is in the functions of the lock. -/
def At (lock : LockRun.State T) (t : T) : Pc → Prop
  | .out => lock.pc t = .out ∧ lock.depth t = 0
  | .acquire => (lock.pc t).InAcquire ∧ lock.depth t = 0 ∨ lock.pc t = .out ∧ lock.depth t = 1
  | .write _ | .written => lock.pc t = .out ∧ lock.depth t = 1
  | .release => (lock.pc t).InRelease ∧ lock.depth t = 1 ∨ lock.pc t = .out ∧ lock.depth t = 0

/-- The call has not incremented `next_pid` yet. -/
def Pc.Early : Pc → Prop
  | .acquire | .write _ => True
  | _ => False

/-- The invariant after `k` increments, of which the `rs` have been returned; `early` are the calls
that have yet to make theirs. -/
structure Inv (s : State T) (k : ℕ) (rs : List ℕ) (early : List T) : Prop where
  lock : ∃ o, LockRun.Inv o s.lock
  at_lock : ∀ t, At s.lock t (s.pc t)
  next : s.nextPid = BitVec.ofNat 16 k
  write : ∀ t n, s.pc t = .write n → n = s.nextPid
  returned : s.returned = rs.map (BitVec.ofNat 16)
  nodup : rs.Nodup
  range : ∀ i ∈ rs, 1 ≤ i ∧ i ≤ k
  due : ∀ t, (s.pc t).Due → k ∉ rs ∧ 1 ≤ k
  due_one : ∀ t u, (s.pc t).Due → (s.pc u).Due → t = u
  early_nodup : early.Nodup
  mem_early : ∀ t, t ∈ early ↔ (s.pc t).Early
  count : k + early.length = s.calls

omit [DecidableEq T] in
theorem inv_init : Inv (init : State T) 0 [] [] where
  lock := ⟨none, LockRun.inv_init⟩
  at_lock _ := ⟨rfl, rfl⟩
  next := rfl
  write _ _ h := by cases h
  returned := rfl
  nodup := List.nodup_nil
  range _ h := by cases h
  due _ h := h.elim
  due_one _ _ h := h.elim
  early_nodup := List.nodup_nil
  mem_early t := by simp [init, Pc.Early]
  count := rfl

variable {s : State T} {t : T} {k : ℕ} {rs : List ℕ} {early : List T}

omit [DecidableEq T] in
theorem At.congr {lock lock' : LockRun.State T} {p : Pc} (h : At lock t p)
    (hpc : lock'.pc t = lock.pc t) (hdepth : lock'.depth t = lock.depth t) : At lock' t p := by
  cases p <;> simpa only [At, hpc, hdepth] using h

omit [DecidableEq T] in
/-- A thread that has acquired the lock and not begun to release it is alone. -/
theorem Inv.alone (hi : Inv s k rs early) {u : T} (ht : s.lock.depth t = 1)
    (hu : s.lock.depth u = 1) : t = u := by
  obtain ⟨o, hl⟩ := hi.lock
  have howner : ∀ {w}, s.lock.depth w = 1 → o = some w := by
    intro w hw
    by_contra ho
    have := (hl.idle w ho).1
    omega
  exact Option.some.inj ((howner ht).symm.trans (howner hu))

/-- A step of the functions of the lock. -/
theorem onLock_step (hl : ∃ o, LockRun.Inv o s.lock) {e : LockRun.Event T}
    (hsh : LockRun.Shallow s.lock e) {r : Except Halt (State T)} (h : s.onLock e = some r) :
    ∃ lock, (LockRun.machine T).step s.lock e = some (.ok lock) ∧ r = .ok { s with lock } ∧
      ∃ o, LockRun.Inv o lock := by
  obtain ⟨o, hl⟩ := hl
  obtain ⟨r', hr', hr⟩ := Option.map_eq_some_iff.mp h
  have hguard : ((LockRun.machine T).guard LockRun.Shallow).step s.lock e = some r' :=
    (if_pos hsh).trans hr'
  obtain ⟨o', lock, rfl, hl'⟩ := LockRun.step_inv hl hguard
  exact ⟨lock, hr', hr.symm, o', hl'⟩

/-- What a step of the thread `t` has to keep. -/
theorem Inv.move (hi : Inv s k rs early) {s' : State T} {p : Pc} {k' : ℕ} {rs' : List ℕ}
    {early' : List T} (hpc : s'.pc = Function.update s.pc t p)
    (hlock : ∃ o, LockRun.Inv o s'.lock)
    (hframe : ∀ u, u ≠ t → s'.lock.pc u = s.lock.pc u ∧ s'.lock.depth u = s.lock.depth u)
    (hat : At s'.lock t p) (hnext : s'.nextPid = BitVec.ofNat 16 k')
    (hwrite : ∀ n, p = .write n → n = s'.nextPid)
    (hothers : s'.nextPid = s.nextPid ∨ ∀ u n, u ≠ t → s.pc u ≠ .write n)
    (hret : s'.returned = rs'.map (BitVec.ofNat 16)) (hnodup : rs'.Nodup)
    (hrange : ∀ i ∈ rs', 1 ≤ i ∧ i ≤ k')
    (hdue : p.Due → (k' ∉ rs' ∧ 1 ≤ k') ∧ ∀ u, u ≠ t → ¬(s.pc u).Due)
    (hdue' : ∀ u, u ≠ t → (s.pc u).Due → k' ∉ rs' ∧ 1 ≤ k')
    (hearly : early'.Nodup)
    (hmem : ∀ u, u ≠ t → (u ∈ early' ↔ u ∈ early)) (hmem' : t ∈ early' ↔ p.Early)
    (hcount : k' + early'.length = s'.calls) : Inv s' k' rs' early' := by
  have hself : s'.pc t = p := by rw [hpc, Function.update_self]
  have hne : ∀ u, u ≠ t → s'.pc u = s.pc u := fun u hu => by rw [hpc, Function.update_of_ne hu]
  refine ⟨hlock, fun u => ?_, hnext, fun u n hu => ?_, hret, hnodup, hrange, fun u hu => ?_,
    fun u w hu hw => ?_, hearly, fun u => ?_, hcount⟩
  · by_cases hut : u = t
    · rw [hut, hself]
      exact hat
    · rw [hne u hut]
      exact (hi.at_lock u).congr (hframe u hut).1 (hframe u hut).2
  · by_cases hut : u = t
    · rw [hut, hself] at hu
      exact hwrite n hu
    · rw [hne u hut] at hu
      rcases hothers with h | h
      · rw [h]
        exact hi.write u n hu
      · exact absurd hu (h u n hut)
  · by_cases hut : u = t
    · rw [hut, hself] at hu
      exact (hdue hu).1
    · rw [hne u hut] at hu
      exact hdue' u hut hu
  · by_cases hut : u = t
    · by_contra huw
      have hwt : w ≠ t := fun h => huw (hut.trans h.symm)
      rw [hut, hself] at hu
      rw [hne w hwt] at hw
      exact (hdue hu).2 w hwt hw
    · rw [hne u hut] at hu
      by_cases hwt : w = t
      · rw [hwt, hself] at hw
        exact absurd hu ((hdue hw).2 u hut)
      · rw [hne w hwt] at hw
        exact hi.due_one u w hu hw
  · by_cases hut : u = t
    · rw [hut, hself]
      exact hmem'
    · rw [hne u hut, hmem u hut]
      exact hi.mem_early u

/-- A step that neither increments `next_pid` nor returns it. -/
theorem Inv.same (hi : Inv s k rs early) {p : Pc} {lock : LockRun.State T}
    (hlock : ∃ o, LockRun.Inv o lock)
    (hframe : ∀ u, u ≠ t → lock.pc u = s.lock.pc u ∧ lock.depth u = s.lock.depth u)
    (hat : At lock t p) (hwrite : ∀ n, p = .write n → n = s.nextPid)
    (hdue : p.Due → (s.pc t).Due) (hearly : p.Early ↔ (s.pc t).Early) :
    Inv { s with lock, pc := Function.update s.pc t p } k rs early := by
  refine hi.move (p := p) rfl hlock hframe hat hi.next hwrite (Or.inl rfl) hi.returned hi.nodup
    hi.range (fun h => ⟨hi.due t (hdue h), fun u hu hu' => ?_⟩) (fun u _ hu => hi.due u hu)
    hi.early_nodup (fun u _ => Iff.rfl) ?_ hi.count
  · exact hu (hi.due_one u t hu' (hdue h))
  · rw [hi.mem_early, hearly]

/-- A step inside `lock_acquire` or `lock_release`. -/
theorem Inv.onLock (hi : Inv s k rs early) {r : Except Halt (State T)}
    (hat : ∀ lock, LockRun.stmt s.lock t = some (.ok lock) → At lock t (s.pc t))
    (h : s.onLock (.step t) = some r) : ∃ s', r = .ok s' ∧ Inv s' k rs early := by
  obtain ⟨lock, hstep, rfl, hl⟩ := onLock_step (e := .step t) hi.lock trivial h
  have hstmt : LockRun.stmt s.lock t = some (.ok lock) := by
    simp only [LockRun.machine] at hstep
    split at hstep
    · exact hstep
    · cases hstep
  obtain ⟨p, d, hp, hd, -, -⟩ := LockRun.stmt_moves hstmt
  have hframe : ∀ u, u ≠ t → lock.pc u = s.lock.pc u ∧ lock.depth u = s.lock.depth u :=
    fun u hu => ⟨by rw [hp, Function.update_of_ne hu], by rw [hd, Function.update_of_ne hu]⟩
  have key := hi.same (p := s.pc t) hl hframe (hat lock hstmt) (fun n hn => hi.write t n hn) id
    Iff.rfl
  rw [Function.update_eq_self] at key
  exact ⟨_, rfl, key⟩

theorem call_inv (hi : Inv s k rs early) (hpc : s.pc t = .out) {r : Except Halt (State T)}
    (h : (({ s with calls := s.calls + 1 } : State T).goto t .acquire).onLock (.acquire t) =
      some r) : ∃ s', r = .ok s' ∧ Inv s' k rs (t :: early) := by
  have hat := hi.at_lock t
  rw [hpc] at hat
  have hshallow : LockRun.Shallow s.lock (.acquire t) := by
    have := hat.2
    unfold LockRun.Shallow
    omega
  obtain ⟨lock, hstep, rfl, hl⟩ := onLock_step
    (s := ({ s with calls := s.calls + 1 } : State T).goto t .acquire) hi.lock hshallow h
  simp only [LockRun.machine] at hstep
  split at hstep
  · cases hstep
    have hnot : t ∉ early := by
      rw [hi.mem_early, hpc]
      exact id
    refine ⟨_, rfl, hi.move (p := .acquire) (t := t) rfl hl (fun u hu => ⟨?_, rfl⟩)
      (Or.inl ⟨?_, hat.2⟩) hi.next (fun n h => by cases h) (Or.inl rfl) hi.returned hi.nodup
      hi.range (fun h => h.elim) (fun u _ hu => hi.due u hu) (List.nodup_cons.mpr ⟨hnot, hi.early_nodup⟩)
      (fun u hu => by simp [hu]) (by simp [Pc.Early]) ?_⟩
    · exact Function.update_of_ne hu ..
    · simp [State.goto, LockRun.State.goto, LockRun.Pc.InAcquire]
    · simp only [State.goto, List.length_cons, ← hi.count]
      omega
  · cases hstep

theorem stmt_inv (hi : Inv s k rs early) (hc : Careful s (.step t)) {r : Except Halt (State T)}
    (h : stmt s t = some r) : ∃ s' k' rs' early', r = .ok s' ∧ Inv s' k' rs' early' := by
  have hat := hi.at_lock t
  unfold stmt at h
  cases hpc : s.pc t with
  | out => simp [hpc] at h
  | acquire =>
    simp only [hpc] at h hat
    split at h
    · next hout =>
      refine ⟨_, k, rs, early, (Option.some.inj h).symm, hi.same (p := .write s.nextPid) hi.lock
        (fun u _ => ⟨rfl, rfl⟩) ⟨hout, ?_⟩ (fun n hn => (Pc.write.inj hn).symm) False.elim ?_⟩
      · rcases hat with ⟨hin, -⟩ | ⟨-, hd⟩
        · rw [hout] at hin
          exact hin.elim
        · exact hd
      · simp only [hpc, Pc.Early]
    · next hin =>
      have hat' : ∀ lock, LockRun.stmt s.lock t = some (.ok lock) → At lock t (s.pc t) := by
        intro lock hstmt
        rcases hat with ⟨hacq, hd⟩ | ⟨hout, -⟩
        · obtain ⟨p, d, hp, hd', hmove, -⟩ := LockRun.stmt_moves hstmt
          rw [hpc]
          simp only [At, hp, hd', Function.update_self]
          rw [hd] at hmove
          exact hmove hacq
        · exact absurd hout hin
      obtain ⟨s', hr, hi'⟩ := hi.onLock hat' h
      exact ⟨s', k, rs, early, hr, hi'⟩
  | write n =>
    simp only [hpc] at h hat
    have hn := hi.write t n hpc
    have hmem : t ∈ early := by
      rw [hi.mem_early, hpc]
      trivial
    simp only [Careful, hpc, Pc.Writes, forall_const] at hc
    have hlen := List.length_erase_of_mem hmem
    have hpos := List.length_pos_of_mem hmem
    refine ⟨_, k + 1, rs, early.erase t, (Option.some.inj h).symm, hi.move (p := .written) rfl
      hi.lock (fun u _ => ⟨rfl, rfl⟩) hat ?_ (fun m hm => by cases hm) (Or.inr fun u m hu hum => ?_)
      hi.returned hi.nodup (fun i hi' => ?_) (fun _ => ⟨⟨fun hk => ?_, by omega⟩, fun u _ => hc u⟩)
      (fun u _ hu => absurd hu (hc u)) (hi.early_nodup.erase t) (fun u hu => ?_) ?_ ?_⟩
    · show n + 1 = _
      rw [hn, hi.next, BitVec.ofNat_add]
      rfl
    · have hu' := hi.at_lock u
      rw [hum] at hu'
      exact hu (hi.alone hu'.2 hat.2)
    · have := hi.range i hi'
      omega
    · have := (hi.range _ hk).2
      omega
    · exact List.mem_erase_of_ne hu
    · exact iff_of_false (hi.early_nodup.not_mem_erase) id
    · show k + 1 + (early.erase t).length = s.calls
      rw [hlen, ← hi.count]
      omega
  | written =>
    simp only [hpc] at h hat
    obtain ⟨lock, hstep, rfl, hl⟩ := onLock_step (s := s.goto t .release)
      (e := .release t) hi.lock trivial h
    simp only [LockRun.machine] at hstep
    split at hstep
    · cases hstep
      refine ⟨_, k, rs, early, rfl, hi.same (p := .release) hl (fun u hu => ⟨?_, rfl⟩)
        (Or.inl ⟨?_, hat.2⟩) (fun n hn => by cases hn) (fun _ => ?_) ?_⟩
      · exact Function.update_of_ne hu ..
      · simp [State.goto, LockRun.State.goto, LockRun.Pc.InRelease]
      · rw [hpc]
        trivial
      · rw [hpc]
        exact Iff.rfl
    · cases hstep
  | release =>
    simp only [hpc] at h hat
    split at h
    · next hout =>
      have hdue : (s.pc t).Due := by
        rw [hpc]
        trivial
      have hnone : ∀ u, u ≠ t → ¬(s.pc u).Due := fun u hu hu' => hu (hi.due_one u t hu' hdue)
      refine ⟨_, k, rs ++ [k], early, (Option.some.inj h).symm, hi.move (p := .out) rfl hi.lock
        (fun u _ => ⟨rfl, rfl⟩) ⟨hout, ?_⟩ hi.next (fun m hm => by cases hm) (Or.inl rfl) ?_ ?_
        (fun i hmem => ?_) False.elim (fun u hu hu' => absurd hu' (hnone u hu)) hi.early_nodup
        (fun u _ => Iff.rfl) ?_ hi.count⟩
      · rcases hat with ⟨hin, -⟩ | ⟨-, hd⟩
        · rw [hout] at hin
          exact hin.elim
        · exact hd
      · simp [State.goto, hi.returned, hi.next]
      · refine List.nodup_append.mpr ⟨hi.nodup, List.nodup_singleton k, fun a ha b hb hab => ?_⟩
        rw [List.mem_singleton] at hb
        exact (hi.due t hdue).1 (hb ▸ hab ▸ ha)
      · rcases List.mem_append.mp hmem with hmem | hmem
        · exact hi.range i hmem
        · rw [List.mem_singleton.mp hmem]
          exact ⟨(hi.due t hdue).2, Nat.le_refl k⟩
      · simp only [hi.mem_early, hpc, Pc.Early]
    · next hin =>
      have hat' : ∀ lock, LockRun.stmt s.lock t = some (.ok lock) → At lock t (s.pc t) := by
        intro lock hstmt
        rcases hat with ⟨hrel, hd⟩ | ⟨hout, -⟩
        · obtain ⟨p, d, hp, hd', -, hmove⟩ := LockRun.stmt_moves hstmt
          rw [hpc]
          simp only [At, hp, hd', Function.update_self]
          rw [hd] at hmove
          exact hmove hrel
        · exact absurd hout hin
      obtain ⟨s', hr, hi'⟩ := hi.onLock hat' h
      exact ⟨s', k, rs, early, hr, hi'⟩

theorem step_inv (hi : Inv s k rs early) {e : Event T} (hc : Careful s e)
    {r : Except Halt (State T)} (h : (machine T).step s e = some r) :
    ∃ s' k' rs' early', r = .ok s' ∧ Inv s' k' rs' early' := by
  cases e with
  | call t =>
    simp only [machine] at h
    split at h
    · next hpc =>
      obtain ⟨s', hr, hi'⟩ := call_inv hi hpc h
      exact ⟨s', k, rs, t :: early, hr, hi'⟩
    · cases h
  | step t => exact stmt_inv hi hc h

/-! ## The values returned -/

/-- The first 32767 increments give distinct positive values. -/
theorem ofNat_pid {i : ℕ} (h₁ : 1 ≤ i) (h₂ : i ≤ 32767) :
    (BitVec.ofNat 16 i).toNat = i ∧ 0 < (BitVec.ofNat 16 i).toInt := by
  have hnat : (BitVec.ofNat 16 i).toNat = i := by
    rw [BitVec.toNat_ofNat]
    omega
  refine ⟨hnat, ?_⟩
  rw [BitVec.toInt_eq_toNat_cond, hnat]
  split <;> omega

/-- **Process identifiers are unique.**  Whatever the interleaving, as long as no thread increments
`next_pid` while another one is between its increment and its `return next_pid`: no assertion has
failed, and of at most 32767 calls the values returned are pairwise distinct and positive. -/
theorem pid_unique [∀ (s : State T) e, Decidable (Careful s e)] {es : List (Event T)}
    {r : Except Halt (State T)} (h : ((machine T).guard Careful).run init es = some r) :
    ∃ s, r = .ok s ∧
      (s.calls ≤ 32767 → s.returned.Nodup ∧ ∀ pid ∈ s.returned, 0 < pid.toInt) := by
  have hrun := Machine.run_cases (I := fun s : State T => ∃ k rs early, Inv s k rs early)
    (Q := fun _ => False) (fun s e r hi hr => ?_) ⟨0, [], [], inv_init⟩ h
  · obtain ⟨s, rfl, k, rs, early, hi⟩ | ⟨x, -, hx⟩ := hrun
    · refine ⟨s, rfl, fun hcalls => ?_⟩
      have hk : k ≤ 32767 := by
        have := hi.count
        omega
      have hpid : ∀ i ∈ rs,
          (BitVec.ofNat 16 i).toNat = i ∧ 0 < (BitVec.ofNat 16 i).toInt := fun i hmem =>
        ofNat_pid (hi.range i hmem).1 (Nat.le_trans (hi.range i hmem).2 hk)
      rw [hi.returned]
      constructor
      · apply hi.nodup.map_on
        intro i hmem j hmem' hij
        rw [← (hpid i hmem).1, ← (hpid j hmem').1, hij]
      · intro pid hmem
        obtain ⟨i, hi', rfl⟩ := List.mem_map.mp hmem
        exact (hpid i hi').2
    · exact hx.elim
  · obtain ⟨k, rs, early, hi⟩ := hi
    obtain ⟨hc, hr'⟩ := Machine.guard_step hr
    obtain ⟨s', k', rs', early', rfl, hi'⟩ := step_inv hi hc hr'
    exact Or.inl ⟨s', rfl, k', rs', early', hi'⟩

instance (p : Pc) : Decidable p.Due :=
  match p with
  | .written | .release => isTrue trivial
  | .out | .acquire | .write _ => isFalse id

instance (p : Pc) : Decidable p.Writes :=
  match p with
  | .write _ => isTrue trivial
  | .out | .acquire | .written | .release => isFalse id

instance [Fintype T] (s : State T) (e : Event T) : Decidable (Careful s e) :=
  match e with
  | .call _ => isTrue trivial
  | .step t => inferInstanceAs (Decidable ((s.pc t).Writes → ∀ u, ¬(s.pc u).Due))

/-- A call by the thread `t`, up to and with its `lock_release`. -/
def upToReturn (t : T) : List (Event T) := .call t :: List.replicate 14 (.step t)

/-- Two threads one after the other. -/
theorem pid_unique_two_threads :
    ∃ s : State Bool,
      ((machine Bool).guard Careful).run init
        (upToReturn false ++ .step false :: (upToReturn true ++ [.step true])) = some (.ok s) ∧
      s.returned = [1, 2] ∧ s.returned.Nodup ∧ ∀ pid ∈ s.returned, 0 < pid.toInt := by
  have h : ((machine Bool).guard Careful).run init
      (upToReturn false ++ .step false :: (upToReturn true ++ [.step true])) = some (.ok _) := rfl
  obtain ⟨s, hs, hpid⟩ := pid_unique h
  cases hs
  exact ⟨_, h, rfl, hpid (by decide)⟩

/-- The second thread makes its call while the first is between its `lock_release` and its
`return next_pid`: both calls return 2. -/
theorem same_pid_twice :
    ∃ s : State Bool,
      (machine Bool).run init
        (upToReturn false ++ upToReturn true ++ [.step true, .step false]) = some (.ok s) ∧
      s.calls = 2 ∧ s.returned = [2, 2] :=
  ⟨_, rfl, rfl, rfl⟩

end HcOs.Pid
