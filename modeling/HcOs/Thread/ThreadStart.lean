import HcOs.Thread.ScheduleInv

/-!
# `thread_start` with interrupts enabled (`thread/thread.c`)

`thread_start` does not disable interrupts; only `list_append` does, each time for itself.  Here the
function is cut at every access to memory that other threads write: the reads of `elem_find`, one
for each node it visits, and the two calls of `list_append`.  Between any two of them an interrupt
can strike, and the handler of the timer can switch to another thread, which makes steps of its own
until this one gets the CPU back.  Several threads can be in `thread_start` at the same time.

The steps of the scheduler are those of `HcOs.Sched`.

* `goes_threadStart`: without interrupts the accesses make up `Sched.threadStart`.
* `thread_start_safe`: as long as no switch falls into the traversals of `thread_ready_list` or
  between the `list_append` and the check that follows it, every traversal stays in its list and
  every assertion holds.
* `preempted`: a switch before that check, during which the new thread blocks, fails it, and a
  switch in a traversal can send it into another list.
-/

namespace HcOs.ThreadStart

open HcOs.Lib HcOs.Lib.LinkHeap HcOs.Sched

variable {T S : Type}

/-! ## The function, one access at a time -/

/-- Where a thread is in `thread_start`. -/
inductive Phase (T S : Type) where
  /-- In `init_thread`, on the page from `get_kernel_pages`. -/
  | init (prio : ℕ)
  | check
  /-- In the first `elem_find`; `elem` is its local variable. -/
  | findReady (elem : Node T S)
  | append
  | checkAgain
  | findAgain (elem : Node T S)
  | checkAll
  | findAll (elem : Node T S)
  | appendAll

/-- A call of `thread_start` and the page it got for the new thread. -/
structure Job (T S : Type) where
  thread : T
  phase : Phase T S

/-- `sched.threads` are the threads that have been on a list of the scheduler. -/
structure State (T S : Type) where
  sched : Sched.State T S
  /-- The call of `thread_start` that a thread is in. -/
  job : T → Option (Job T S)
  /-- The pages that `get_kernel_pages` has handed out. -/
  pages : List T

variable [DecidableEq T] [DecidableEq S]

/-- One round of the loop of `elem_find`: its answer, or `elem` for the next round. -/
def findRound (links : Links T S) (l : ListId S) (objElem elem : Node T S) :
    Except Halt (Bool ⊕ Node T S) :=
  if elem = .tail l then .ok (.inl false)
  else if elem = objElem then .ok (.inl true)
  else do
    let next ← liftFault (linkHeap.getNext links elem)
    .ok (.inr next)

/-- One round of an `elem_find` inside an `ASSERT`. -/
def assertRound (links : Links T S) (l : ListId S) (objElem elem : Node T S) (want : Bool)
    (condition : String) (again : Node T S → Phase T S) (done : Phase T S) :
    Except Halt (Phase T S) := do
  match ← findRound links l objElem elem with
  | .inr next => .ok (again next)
  | .inl found => do
    assert (found = want) "thread_start" condition
    .ok done

/-- The next access of `thread_start`, and where the thread is after it. -/
def advance (s : Sched.State T S) (t : T) :
    Phase T S → Except Halt (Sched.State T S × Option (Phase T S))
  | .init prio => .ok ({ initThread s t .ready prio with threads := s.threads }, some .check)
  | .check => .ok (s, some (.findReady (s.links.next (.head .ready))))
  | .findReady elem => do
    let phase ← assertRound s.links .ready (.generalTag t) elem false
      "!elem_find(&thread_ready_list, &thread->general_tag)" .findReady .append
    .ok (s, some phase)
  | .append => do
    let links ← listAppend linkHeap s.links (plist .ready) (.generalTag t)
    .ok ({ s with links, threads := s.threads ++ [t] }, some .checkAgain)
  | .checkAgain => .ok (s, some (.findAgain (s.links.next (.head .ready))))
  | .findAgain elem => do
    let phase ← assertRound s.links .ready (.generalTag t) elem true
      "elem_find(&thread_ready_list, &thread->general_tag)" .findAgain .checkAll
    .ok (s, some phase)
  | .checkAll => .ok (s, some (.findAll (s.links.next (.head .all))))
  | .findAll elem => do
    let phase ← assertRound s.links .all (.allListTag t) elem false
      "!elem_find(&thread_all_list, &thread->all_list_tag)" .findAll .appendAll
    .ok (s, some phase)
  | .appendAll => do
    let links ← listAppend linkHeap s.links (plist .all) (.allListTag t)
    .ok ({ s with links }, none)

/-! ## The kernel -/

inductive Event (T S : Type) where
  /-- A step of the scheduler: an interrupt, or a step of a thread that is not in `thread_start`. -/
  | sched (e : Sched.Event T S)
  /-- The running thread calls `thread_start` and gets the page `t`. -/
  | call (t : T) (prio : ℕ)
  /-- The running thread goes on in `thread_start`. -/
  | go

/-- The steps of the scheduler that can be made while the running thread is at `job`.  A thread in
`init_thread` waits for the lock of `allocate_pid`. -/
def Allows (job : Option (Job T S)) (e : Sched.Event T S) : Prop :=
  match e with
  | .start _ _ => False
  | .down _ | .resume => match job with
    | none | some ⟨_, .init _⟩ => True
    | some _ => False
  | e => job.isNone ∨ e.byThread = false

instance (job : Option (Job T S)) : (e : Sched.Event T S) → Decidable (Allows job e)
  | .start _ _ => isFalse id
  | .down _ | .resume => match job with
    | none | some ⟨_, .init _⟩ => isTrue trivial
    | some ⟨_, .check⟩ | some ⟨_, .findReady _⟩ | some ⟨_, .append⟩ | some ⟨_, .checkAgain⟩
    | some ⟨_, .findAgain _⟩ | some ⟨_, .checkAll⟩ | some ⟨_, .findAll _⟩ | some ⟨_, .appendAll⟩ =>
      isFalse id
  | .execute _ | .timer | .block _ | .unblock _ | .yield | .up _ =>
    inferInstanceAs (Decidable (_ ∨ _))

def machine (T S : Type) [DecidableEq T] [DecidableEq S] :
    Machine (State T S) (Event T S) Halt where
  step s
    | .sched e =>
      if Enabled s.sched e ∧ Allows (s.job s.sched.cur) e ∧ ∀ t ∈ e.adds, t ∉ s.pages then
        some do
          let sched ← exec s.sched e
          .ok { s with sched, pages := s.pages ++ e.adds }
      else none
    | .call t prio =>
      if Enabled s.sched (.start t prio) ∧ (s.job s.sched.cur).isNone ∧ t ∉ s.pages then
        some (.ok { s with
          job := Function.update s.job s.sched.cur (some ⟨t, .init prio⟩)
          pages := s.pages ++ [t] })
      else none
    | .go => match s.job s.sched.cur with
      | none => none
      | some j =>
        if s.sched.pc s.sched.cur = .normal then
          some do
            let (sched, phase) ← advance s.sched j.thread j.phase
            .ok { s with
              sched
              job := Function.update s.job s.sched.cur (phase.map fun phase => ⟨j.thread, phase⟩) }
        else none

/-- After `thread_init` and with interrupts enabled. -/
def start (s : Sched.State T S) : State T S where
  sched := s
  job _ := none
  pages := s.threads

/-- The places in `thread_start` at which it relies on `thread_ready_list` staying as it is: in the
first `elem_find`, until it has reached the tail, and from the `list_append` to the end of the
second `elem_find`. -/
def Phase.Exposed : Phase T S → Prop
  | .findReady elem => elem ≠ .tail .ready
  | .checkAgain => True
  | .findAgain _ => True
  | _ => False

instance : (p : Phase T S) → Decidable p.Exposed
  | .findReady elem => inferInstanceAs (Decidable (elem ≠ .tail .ready))
  | .checkAgain | .findAgain _ => isTrue trivial
  | .init _ | .check | .append | .checkAll | .findAll _ | .appendAll => isFalse id

/-- The step is no timer interrupt that calls `schedule` at one of these places. -/
def Unswitched (s : State T S) (e : Event T S) : Prop :=
  match e, s.job s.sched.cur with
  | .sched .timer, some j => j.phase.Exposed → (s.sched.task s.sched.cur).ticks ≠ 0
  | _, _ => True

instance (s : State T S) (e : Event T S) : Decidable (Unswitched s e) := by
  unfold Unswitched
  split <;> infer_instance

/-- `elem` is a node of a list, or its tail. -/
def OnList (h : Links T S) (l : ListId S) (elem : Node T S) : Prop :=
  ∃ xs, linkHeap.IsList (· ≠ .null) h (plist l) xs ∧ (elem ∈ xs ∨ elem = .tail l)

/-- The traversal a thread is in has not left its list. -/
def Phase.Inside (h : Links T S) : Phase T S → Prop
  | .findReady elem => OnList h .ready elem
  | .findAgain elem => OnList h .ready elem
  | .findAll elem => OnList h .all elem
  | _ => True

section Round

variable {links : Links T S} {l : ListId S} {objElem elem next : Node T S} {want : Bool}
  {condition : String} {again : Node T S → Phase T S} {done : Phase T S}

theorem assertRound_found (h : findRound links l objElem elem = .ok (.inl want)) :
    assertRound links l objElem elem want condition again done = .ok done := by
  rw [assertRound, h, ok_bind]
  exact assert_bind_of rfl _

theorem assertRound_next (h : findRound links l objElem elem = .ok (.inr next)) :
    assertRound links l objElem elem want condition again done = .ok (again next) := by
  rw [assertRound, h, ok_bind]

end Round

/-! ## Without interrupts -/

/-- The running thread is at `p` in the call that makes a thread of `t`. -/
def State.goAt (s : State T S) (t : T) (sched : Sched.State T S) (p : Option (Phase T S)) :
    State T S :=
  { s with sched, job := Function.update s.job s.sched.cur (p.map fun phase => ⟨t, phase⟩) }

/-- The running thread goes on in `thread_start` from one state to the other. -/
def Goes (s s' : State T S) : Prop :=
  ∃ n, (machine T S).run s (List.replicate n .go) = some (.ok s')

section Goes

variable {s s₁ s₂ : State T S} {t : T} {sched sched' : Sched.State T S}

theorem Goes.trans (h₁ : Goes s s₁) (h₂ : Goes s₁ s₂) : Goes s s₂ := by
  obtain ⟨n, hn⟩ := h₁
  obtain ⟨m, hm⟩ := h₂
  refine ⟨n + m, ?_⟩
  rw [List.replicate_add, Machine.run_append _ hn]
  exact hm

theorem goes_advance {p : Phase T S} {p' : Option (Phase T S)} (hcur : sched.cur = s.sched.cur)
    (hpc : sched.pc sched.cur = .normal) (hadv : advance sched t p = .ok (sched', p')) :
    Goes (s.goAt t sched (some p)) (s.goAt t sched' p') := by
  have hjob : (s.goAt t sched (some p)).job sched.cur = some ⟨t, p⟩ := by
    rw [hcur]
    exact Function.update_self ..
  have hstep : (machine T S).step (s.goAt t sched (some p)) .go =
      some (.ok (s.goAt t sched' p')) := by
    simp only [machine]
    rw [show (s.goAt t sched (some p)).sched = sched from rfl, hjob]
    simp only [if_pos hpc, hadv, ok_bind]
    simp only [State.goAt, hcur, Function.update_idem]
  exact ⟨1, by rw [List.replicate_one, Machine.run_cons_ok _ hstep, Machine.run_nil]⟩

/-- A whole `elem_find` inside an `ASSERT` that holds. -/
theorem goes_walk (hcur : sched.cur = s.sched.cur) (hpc : sched.pc sched.cur = .normal)
    {l : ListId S} {obj : Node T S} {want : Bool} {condition : String}
    (again : Node T S → Phase T S) {done : Phase T S}
    (hadv : ∀ elem, advance sched t (again elem) =
      assertRound sched.links l obj elem want condition again done >>= fun p =>
        .ok (sched, some p))
    {fuel : ℕ} {elem : Node T S}
    (hw : linkHeap.walk sched.links (plist l).tail obj fuel elem = .ok want) :
    Goes (s.goAt t sched (some (again elem))) (s.goAt t sched (some done)) := by
  induction fuel generalizing elem with
  | zero => cases hw
  | succ fuel ih =>
    rw [walk] at hw
    by_cases htail : elem = .tail l
    · rw [if_pos (show elem = (plist l).tail from htail)] at hw
      have hfind : findRound sched.links l obj elem = .ok (.inl want) := by
        rw [findRound, if_pos htail, Except.ok.inj hw]
      exact goes_advance hcur hpc (by rw [hadv, assertRound_found hfind, ok_bind])
    · rw [if_neg (show elem ≠ (plist l).tail from htail)] at hw
      by_cases hobj : elem = obj
      · rw [if_pos hobj] at hw
        have hfind : findRound sched.links l obj elem = .ok (.inl want) := by
          rw [findRound, if_neg htail, if_pos hobj, Except.ok.inj hw]
        exact goes_advance hcur hpc (by rw [hadv, assertRound_found hfind, ok_bind])
      · rw [if_neg hobj] at hw
        cases hnext : linkHeap.getNext sched.links elem with
        | error x =>
          rw [hnext] at hw
          cases hw
        | ok next =>
          rw [hnext] at hw
          have hfind : findRound sched.links l obj elem = .ok (.inr next) := by
            rw [findRound, if_neg htail, if_neg hobj, hnext]
            rfl
          have hgo : advance sched t (again elem) = .ok (sched, some (again next)) := by
            rw [hadv, assertRound_next hfind, ok_bind]
          exact (goes_advance hcur hpc hgo).trans (ih hw)

theorem head_ne_null (l : ListId S) :
    (plist l).head ≠ (linkHeap : LinkHeap (Links T S) (Node T S)).null := by
  intro h
  cases h

/-- The walk of an `elem_find` that returns. -/
theorem walk_of_elemFind {l : ListId S} {obj : Node T S} {found : Bool}
    (h : sched.elemFind l obj = .ok found) :
    linkHeap.walk sched.links (plist l).tail obj (sched.threads.length + 1)
      (sched.links.next (.head l)) = .ok found := by
  unfold State.elemFind elemFind LinkHeap.find getNext at h
  rw [if_neg (head_ne_null l)] at h
  change liftFault (linkHeap.walk sched.links (plist l).tail obj (sched.threads.length + 1)
    (sched.links.next (.head l))) = _ at h
  cases hw : linkHeap.walk sched.links (plist l).tail obj (sched.threads.length + 1)
      (sched.links.next (.head l)) with
  | error x =>
    rw [hw] at h
    cases h
  | ok b =>
    rw [hw] at h
    rw [Except.ok.inj h]

/-- **Without interrupts** the accesses make up `threadStart`, the function as one step of the
scheduler. -/
theorem goes_threadStart {prio : ℕ} (hpc : s.sched.pc s.sched.cur = .normal)
    (hok : threadStart s.sched t prio = .ok sched') :
    Goes (s.goAt t s.sched (some (.init prio))) (s.goAt t sched' none) := by
  simp only [threadStart, enlistReady, enlistAll, bind_eq_ok, assert_eq_ok] at hok
  obtain ⟨s₂, ⟨_, hfind, _, rfl, links, happend, hs₂⟩, _, hagain, _, rfl, _, hfindAll, _, rfl,
    links', happendAll, hsched'⟩ := hok
  -- the new thread is none of the threads until the first `list_append`
  set s₀ := initThread s.sched t .ready prio with hs₀
  have hpc₀ : s₀.pc s₀.cur = .normal := by
    simp only [hs₀, initThread, Function.update_apply]
    split
    · rfl
    · exact hpc
  set s₁ : Sched.State T S := { s₀ with threads := s.sched.threads }
  have hcur₁ : s₁.cur = s.sched.cur := rfl
  have hwalk := walk_of_elemFind hfind
  have hinit : Goes (s.goAt t s.sched (some (.init prio))) (s.goAt t s₁ (some .check)) :=
    goes_advance rfl hpc rfl
  have hcheck : Goes (s.goAt t s₁ (some .check))
      (s.goAt t s₁ (some (.findReady (s₁.links.next (.head .ready))))) :=
    goes_advance hcur₁ hpc₀ rfl
  have hfound : Goes (s.goAt t s₁ (some (.findReady (s₁.links.next (.head .ready)))))
      (s.goAt t s₁ (some .append)) :=
    goes_walk hcur₁ hpc₀ .findReady (fun elem => rfl) hwalk
  cases hs₂
  have happended : Goes (s.goAt t s₁ (some .append))
      (s.goAt t { s₀ with links } (some .checkAgain)) := by
    refine goes_advance hcur₁ hpc₀ ?_
    change (listAppend linkHeap s₀.links (plist .ready) (.generalTag t) >>= _) = _
    rw [happend]
    rfl
  generalize hs₂ : ({ s₀ with links } : Sched.State T S) = s₂ at *
  have hcur₂ : s₂.cur = s.sched.cur := by rw [← hs₂]; rfl
  have hpc₂ : s₂.pc s₂.cur = .normal := by rw [← hs₂]; exact hpc₀
  have hcheckAgain : Goes (s.goAt t s₂ (some .checkAgain))
      (s.goAt t s₂ (some (.findAgain (s₂.links.next (.head .ready))))) :=
    goes_advance hcur₂ hpc₂ rfl
  have hfoundAgain : Goes (s.goAt t s₂ (some (.findAgain (s₂.links.next (.head .ready)))))
      (s.goAt t s₂ (some .checkAll)) :=
    goes_walk hcur₂ hpc₂ .findAgain (fun elem => rfl) (walk_of_elemFind hagain)
  have hcheckAll : Goes (s.goAt t s₂ (some .checkAll))
      (s.goAt t s₂ (some (.findAll (s₂.links.next (.head .all))))) :=
    goes_advance hcur₂ hpc₂ rfl
  have hfoundAll : Goes (s.goAt t s₂ (some (.findAll (s₂.links.next (.head .all)))))
      (s.goAt t s₂ (some .appendAll)) :=
    goes_walk hcur₂ hpc₂ .findAll (fun elem => rfl) (walk_of_elemFind hfindAll)
  have happendedAll : Goes (s.goAt t s₂ (some .appendAll)) (s.goAt t sched' none) := by
    refine goes_advance hcur₂ hpc₂ ?_
    rw [advance, happendAll, ← Except.ok.inj hsched']
    rfl
  exact hinit.trans (hcheck.trans (hfound.trans (happended.trans (hcheckAgain.trans
    (hfoundAgain.trans (hcheckAll.trans (hfoundAll.trans happendedAll)))))))

end Goes

/-! ## One round of a traversal -/

variable {h : Links T S} {ready ready' all all' : List T} {waiters waiters' : S → List T}
variable {s s' : Sched.State T S} {t : T} {v : S → ℕ}

theorem next_head (hl : Lists h ready all waiters) (l : ListId S) :
    h.next (.head l) = (seqs ready all waiters l ++ [Node.tail l]).head (by simp) := by
  have hnext := (hl.isList l).getNext_head lawful
  rw [getNext, if_neg (head_ne_null l)] at hnext
  exact Except.ok.inj hnext

/-- At a node that is not the one it looks for, `elem_find` goes on to the next node. -/
theorem findRound_eq (hl : Lists h ready all waiters) {l : ListId S} {pre post : List (Node T S)}
    {obj n : Node T S} (hseq : seqs ready all waiters l = pre ++ n :: post) (hn : n ≠ obj) :
    findRound h l obj n = .ok (.inr ((post ++ [Node.tail l]).head (by simp))) := by
  have hlist := hl.isList l
  rw [hseq] at hlist
  have htail : n ≠ .tail l := by
    rintro rfl
    have hmem : Node.tail l ∈ seqs ready all waiters l := by rw [hseq]; simp
    cases l <;> simp [seqs] at hmem
  rw [findRound, if_neg htail, if_neg hn, hlist.getNext_mem lawful]
  rfl

/-- A traversal of a list that does not hold the node ends at the tail. -/
theorem assertRound_false (hl : Lists h ready all waiters) {l : ListId S} (obj : Node T S)
    {n : Node T S} (hobj : obj ∉ seqs ready all waiters l)
    (hn : n ∈ seqs ready all waiters l ∨ n = .tail l) (condition : String)
    (again : Node T S → Phase T S) (done : Phase T S) :
    assertRound h l obj n false condition again done = .ok done ∨
      ∃ n', (n' ∈ seqs ready all waiters l ∨ n' = .tail l) ∧
        assertRound h l obj n false condition again done = .ok (again n') := by
  rcases hn with hn | rfl
  · obtain ⟨pre, post, hseq⟩ := List.append_of_mem hn
    have hne : n ≠ obj := fun h => hobj (h ▸ hn)
    refine Or.inr ⟨(post ++ [Node.tail l]).head (by simp), ?_, ?_⟩
    · cases post with
      | nil => exact Or.inr rfl
      | cons y post =>
        refine Or.inl ?_
        rw [hseq]
        simp
    · exact assertRound_next (findRound_eq hl hseq hne)
  · refine Or.inl (assertRound_found ?_)
    rw [findRound, if_pos rfl]

/-! ## The invariant -/

/-- The page has been initialised and is not a thread yet. -/
structure Prepared (s : Sched.State T S) (t : T) : Prop where
  new : t ∉ s.threads
  status : (s.task t).status = .ready
  magic : (s.task t).stackMagic = 0x12345678
  pc : s.pc t = .normal

/-- What the thread `u` can rely on while it makes `t` a thread. -/
def PhaseOk (s : Sched.State T S) (ready all : List T) (u t : T) : Phase T S → Prop
  | .init _ => t ∉ s.threads
  | .check => Prepared s t
  | .findReady elem => Prepared s t ∧
      (elem = .tail .ready ∨ s.cur = u ∧ ∃ x ∈ ready, elem = .generalTag x)
  | .append => Prepared s t
  | .checkAgain => s.cur = u ∧ t ∈ ready
  | .findAgain elem => s.cur = u ∧
      ∃ x xs, elem = .generalTag x ∧ x :: xs <:+ ready ∧ t ∈ x :: xs
  | .checkAll => t ∈ s.threads
  | .findAll elem => t ∈ s.threads ∧ (elem = .tail .all ∨ ∃ x ∈ all, elem = .allListTag x)
  | .appendAll => t ∈ s.threads

structure Inv (v : S → ℕ) (s : State T S) (ready all : List T) (waiters : S → List T) : Prop where
  core : CoreOn all (some s.sched.cur) s.sched ready waiters
  all_sub : ∀ t ∈ all, t ∈ s.sched.threads
  threads_sub : ∀ t ∈ s.sched.threads, t ∈ s.pages
  job_page : ∀ u j, s.job u = some j → j.thread ∈ s.pages
  job_all : ∀ u j, s.job u = some j → j.thread ∉ all
  job_phase : ∀ u j, s.job u = some j → PhaseOk s.sched ready all u j.thread j.phase
  /-- No two calls have the same page. -/
  apart : ∀ u u' j j', s.job u = some j → s.job u' = some j' → j.thread = j'.thread → u = u'
  value : ∀ k, v k ≤ 1 → s.sched.value k ≤ 1

/-- The accesses of `thread_start` touch the page of the new thread only, besides the lists. -/
structure Touches (t : T) (s s' : Sched.State T S) : Prop where
  cur : s'.cur = s.cur
  value : s'.value = s.value
  threads : ∀ u, u ∈ s'.threads → u ∈ s.threads ∨ u = t
  keeps : ∀ u, u ∈ s.threads → u ∈ s'.threads
  task : ∀ u, u ≠ t → s'.task u = s.task u
  pc : ∀ u, u ≠ t → s'.pc u = s.pc u

omit [DecidableEq T] [DecidableEq S] in
theorem Touches.refl (t : T) (s : Sched.State T S) : Touches t s s :=
  ⟨rfl, rfl, fun _ hu => Or.inl hu, fun _ hu => hu, fun _ _ => rfl, fun _ _ => rfl⟩

omit [DecidableEq T] [DecidableEq S] in
theorem Prepared.touches (hp : Prepared s t) {t' : T} (hm : Touches t' s s') (hne : t ≠ t') :
    Prepared s' t := by
  refine ⟨fun ht => ?_, ?_, ?_, ?_⟩
  · exact (hm.threads t ht).elim hp.new hne
  · rw [hm.task t hne]
    exact hp.status
  · rw [hm.task t hne]
    exact hp.magic
  · rw [hm.pc t hne]
    exact hp.pc

omit [DecidableEq T] [DecidableEq S] in
/-- A thread that is not on the CPU relies on nothing that the call of another thread changes. -/
theorem PhaseOk.touches {u t' : T} {p : Phase T S} (hp : PhaseOk s ready all u t p)
    (hm : Touches t' s s') (hne : t ≠ t') (hu : u ≠ s.cur) (hsub : ∀ x ∈ all, x ∈ all') :
    PhaseOk s' ready' all' u t p := by
  cases p with
  | init prio => exact fun ht => (hm.threads t ht).elim hp hne
  | check => exact Prepared.touches hp hm hne
  | findReady elem =>
    refine ⟨hp.1.touches hm hne, Or.inl ?_⟩
    exact hp.2.resolve_right fun h => hu h.1.symm
  | append => exact Prepared.touches hp hm hne
  | checkAgain => exact absurd hp.1.symm hu
  | findAgain elem => exact absurd hp.1.symm hu
  | checkAll => exact hm.keeps t hp
  | findAll elem =>
    exact ⟨hm.keeps t hp.1, hp.2.imp_right fun ⟨x, hx, he⟩ => ⟨x, hsub x hx, he⟩⟩
  | appendAll => exact hm.keeps t hp

/-- A step of the running thread in `thread_start` keeps the invariant if it leaves the scheduler's
lists in order and the thread at a place it can rely on. -/
theorem Inv.touches {s : State T S} {j : Job T S} {s' : Sched.State T S} {p : Option (Phase T S)}
    (hi : Inv v s ready all waiters) (hj : s.job s.sched.cur = some j)
    (hm : Touches j.thread s.sched s') (hc : CoreOn all' (some s'.cur) s' ready' waiters')
    (hsub : ∀ x ∈ all, x ∈ all') (hall : ∀ x ∈ all', x ∈ all ∨ x = j.thread)
    (hthreads : ∀ x ∈ all', x ∈ s'.threads)
    (hp : ∀ phase, p = some phase →
      j.thread ∉ all' ∧ PhaseOk s' ready' all' s.sched.cur j.thread phase) :
    Inv v { s with
      sched := s'
      job := Function.update s.job s.sched.cur (p.map fun phase => ⟨j.thread, phase⟩) }
      ready' all' waiters' := by
  -- a call after the step: that of the running thread, or another one
  have hjob : ∀ u j', Function.update s.job s.sched.cur
      (p.map fun phase => (⟨j.thread, phase⟩ : Job T S)) u = some j' →
        (u = s.sched.cur ∧ j'.thread = j.thread ∧ p = some j'.phase) ∨
          (u ≠ s.sched.cur ∧ s.job u = some j' ∧ j'.thread ≠ j.thread) := by
    intro u j' hu
    by_cases hcur : u = s.sched.cur
    · rw [hcur, Function.update_self] at hu
      obtain ⟨phase, hphase, rfl⟩ := Option.map_eq_some_iff.mp hu
      exact Or.inl ⟨hcur, rfl, hphase⟩
    · rw [Function.update_of_ne hcur] at hu
      exact Or.inr ⟨hcur, hu, fun h => hcur (hi.apart u _ j' j hu hj h)⟩
  refine ⟨hc, hthreads, fun x hx => ?_, fun u j' hu => ?_, fun u j' hu => ?_, fun u j' hu => ?_,
    fun u u' j₁ j₂ h₁ h₂ heq => ?_, fun k hk => ?_⟩
  · rcases hm.threads x hx with h | rfl
    · exact hi.threads_sub x h
    · exact hi.job_page _ j hj
  · rcases hjob u j' hu with ⟨-, ht, -⟩ | ⟨-, hu', -⟩
    · rw [ht]
      exact hi.job_page _ j hj
    · exact hi.job_page u j' hu'
  · rcases hjob u j' hu with ⟨-, ht, hphase⟩ | ⟨-, hu', hne⟩
    · rw [ht]
      exact (hp _ hphase).1
    · exact fun h => (hall _ h).elim (hi.job_all u j' hu') hne
  · rcases hjob u j' hu with ⟨rfl, ht, hphase⟩ | ⟨hcur, hu', hne⟩
    · rw [ht]
      exact (hp _ hphase).2
    · exact (hi.job_phase u j' hu').touches hm hne hcur hsub
  · rcases hjob u j₁ h₁ with ⟨rfl, ht₁, -⟩ | ⟨-, hu₁, hne₁⟩
    · rcases hjob u' j₂ h₂ with ⟨rfl, -, -⟩ | ⟨-, -, hne₂⟩
      · rfl
      · exact absurd (heq.symm.trans ht₁) hne₂
    · rcases hjob u' j₂ h₂ with ⟨rfl, ht₂, -⟩ | ⟨-, hu₂, -⟩
      · exact absurd (heq.trans ht₂) hne₁
      · exact hi.apart u u' j₁ j₂ hu₁ hu₂ heq
  · rw [hm.value]
    exact hi.value k hk

/-- `init_thread` writes to a page that is on no list. -/
theorem initThread_core {o : Option T} (hc : CoreOn all o s ready waiters) (ht : t ∉ s.threads)
    (prio : ℕ) :
    CoreOn all o { initThread s t .ready prio with threads := s.threads } ready waiters := by
  have htask : ∀ u, u ∈ s.threads → (initThread s t .ready prio).task u = s.task u := fun u hu =>
    Function.update_of_ne (fun hut => ht (by rwa [hut] at hu)) ..
  have hpc : ∀ u, u ∈ s.threads → (initThread s t .ready prio).pc u = s.pc u := fun u hu =>
    Function.update_of_ne (fun hut => ht (by rwa [hut] at hu)) ..
  refine ⟨hc.lists, fun u => ?_, fun u => ?_, fun k u => ?_, fun u hu => ?_, fun u hu => ?_,
    hc.idle_mem, ?_⟩
  · rw [hc.mem_ready]
    exact and_congr_right fun hu => by rw [htask u hu]
  · rw [hc.running]
    exact and_congr_right fun hu => by rw [htask u hu]
  · rw [hc.mem_waiters]
    exact and_congr_right fun hu => by rw [htask u hu, hpc u hu]
  · rw [htask u hu]
    exact hc.kinds u hu
  · rw [htask u hu]
    exact hc.magic u hu
  · exact (hpc _ hc.idle_mem).trans hc.idle_pc

/-- `list_append(&thread_ready_list, &thread->general_tag)` makes the page a thread. -/
theorem append_core {o : Option T} (hc : CoreOn all o s ready waiters) (hp : Prepared s t) :
    ∃ h', listAppend linkHeap s.links (plist .ready) (.generalTag t) = .ok h' ∧
      CoreOn all o { s with links := h', threads := s.threads ++ [t] } (ready ++ [t]) waiters := by
  have hr : t ∉ ready := fun h => hp.new ((hc.mem_ready t).mp h).1
  have hw : ∀ k, t ∉ waiters k := fun k h => hp.new ((hc.mem_waiters k t).mp h).1
  obtain ⟨h', hok, hl⟩ := append_ready hc.lists hr hw
  have hc' := enlist_core hc hp.new hp.status hp.magic hl
  rw [Function.update_eq_self, ← hp.pc, Function.update_eq_self] at hc'
  exact ⟨h', hok, hc'⟩

/-- Every access of `thread_start` succeeds. -/
theorem advance_inv {s : State T S} {j : Job T S} (hi : Inv v s ready all waiters)
    (hj : s.job s.sched.cur = some j) :
    ∃ s' p ready' all', advance s.sched j.thread j.phase = .ok (s', p) ∧
      Inv v { s with
        sched := s'
        job := Function.update s.job s.sched.cur (p.map fun phase => ⟨j.thread, phase⟩) }
        ready' all' waiters := by
  obtain ⟨t, p⟩ := j
  have hc := hi.core
  have hta : t ∉ all := hi.job_all _ _ hj
  have hp : PhaseOk s.sched ready all s.sched.cur t p := hi.job_phase _ _ hj
  -- the accesses that only read
  have stay : ∀ p', PhaseOk s.sched ready all s.sched.cur t p' →
      advance s.sched t p = .ok (s.sched, some p') →
        ∃ s' p₁ ready' all', advance s.sched t p = .ok (s', p₁) ∧
          Inv v { s with
            sched := s'
            job := Function.update s.job s.sched.cur (p₁.map fun phase => ⟨t, phase⟩) }
            ready' all' waiters := by
    intro p' hp' hok
    refine ⟨s.sched, some p', ready, all, hok, ?_⟩
    refine hi.touches hj (Touches.refl t s.sched) hc (fun x hx => hx) (fun x hx => Or.inl hx)
      hi.all_sub fun phase h => ?_
    cases h
    exact ⟨hta, hp'⟩
  cases p with
  | init prio =>
    refine ⟨_, _, ready, all, rfl, hi.touches hj ?_ (initThread_core hc hp prio) (fun x hx => hx)
      (fun x hx => Or.inl hx) hi.all_sub fun phase h => ?_⟩
    · exact ⟨rfl, rfl, fun u hu => Or.inl hu, fun u hu => hu,
        fun u hu => Function.update_of_ne hu .., fun u hu => Function.update_of_ne hu ..⟩
    · cases h
      refine ⟨hta, hp, ?_, ?_, Function.update_self ..⟩
      · simp [initThread]
      · simp [initThread]
  | check =>
    refine stay (.findReady (s.sched.links.next (.head .ready))) ⟨hp, ?_⟩ rfl
    rw [next_head hc.lists]
    cases ready with
    | nil => exact Or.inl rfl
    | cons x xs => exact Or.inr ⟨rfl, x, List.mem_cons_self, rfl⟩
  | findReady elem =>
    have hr : t ∉ ready := fun h => hp.1.new ((hc.mem_ready t).mp h).1
    have hn : elem ∈ seqs ready all waiters .ready ∨ elem = .tail .ready := by
      rcases hp.2 with h | ⟨-, x, hx, rfl⟩
      · exact Or.inr h
      · exact Or.inl (List.mem_map_of_mem hx)
    rcases assertRound_false hc.lists (.generalTag t) (by simpa [seqs] using hr) hn
      "!elem_find(&thread_ready_list, &thread->general_tag)" .findReady .append with
      hok | ⟨n', hn', hok⟩
    · refine stay .append hp.1 ?_
      rw [advance, hok, ok_bind]
    · refine stay (.findReady n') ⟨hp.1, ?_⟩ ?_
      · rcases hn' with h | h
        · obtain ⟨x, hx, rfl⟩ := List.mem_map.mp h
          exact Or.inr ⟨rfl, x, hx, rfl⟩
        · exact Or.inl h
      · rw [advance, hok, ok_bind]
  | append =>
    obtain ⟨h', hok, hc'⟩ := append_core hc hp
    refine ⟨{ s.sched with links := h', threads := s.sched.threads ++ [t] }, some .checkAgain,
      ready ++ [t], all, ?_, hi.touches hj ?_ hc' (fun x hx => hx) (fun x hx => Or.inl hx)
      (fun x hx => List.mem_append_left _ (hi.all_sub x hx)) fun phase h => ?_⟩
    · rw [advance, hok, ok_bind]
    · refine ⟨rfl, rfl, fun u hu => ?_, fun u hu => List.mem_append_left _ hu, fun u _ => rfl,
        fun u _ => rfl⟩
      simpa using hu
    · cases h
      exact ⟨hta, rfl, by simp⟩
  | checkAgain =>
    obtain ⟨-, hmem⟩ := hp
    refine stay (.findAgain (s.sched.links.next (.head .ready))) ⟨rfl, ?_⟩ rfl
    rw [next_head hc.lists]
    cases ready with
    | nil => cases hmem
    | cons x xs => exact ⟨x, xs, rfl, List.suffix_rfl, hmem⟩
  | findAgain elem =>
    obtain ⟨-, x, xs, rfl, hsuf, hmem⟩ := hp
    by_cases hxt : x = t
    · refine stay .checkAll ((hc.mem_ready t).mp (hsuf.subset hmem)).1 ?_
      have hfind : findRound s.sched.links .ready (.generalTag t) (.generalTag x) =
          .ok (.inl true) := by
        rw [findRound, if_neg (by simp), if_pos (by rw [hxt])]
      rw [advance, assertRound_found hfind, ok_bind]
    · obtain ⟨pre, hpre⟩ := hsuf
      cases xs with
      | nil => exact absurd (List.mem_singleton.mp hmem).symm hxt
      | cons y ys =>
        have hseq : seqs ready all waiters .ready =
            pre.map .generalTag ++ .generalTag x :: (y :: ys).map .generalTag := by
          simp [seqs, ← hpre]
        have hfind := findRound_eq hc.lists hseq
          (show Node.generalTag x ≠ Node.generalTag t from fun h => hxt (Node.generalTag.inj h))
        refine stay (.findAgain (.generalTag y)) ⟨rfl, y, ys, rfl, ?_, ?_⟩ ?_
        · exact ⟨pre ++ [x], by simpa using hpre⟩
        · exact (List.mem_cons.mp hmem).resolve_left (Ne.symm hxt)
        · rw [advance, assertRound_next hfind, ok_bind]
          rfl
  | checkAll =>
    refine stay (.findAll (s.sched.links.next (.head .all))) ⟨hp, ?_⟩ rfl
    rw [next_head hc.lists]
    cases all with
    | nil => exact Or.inl rfl
    | cons x xs => exact Or.inr ⟨x, List.mem_cons_self, rfl⟩
  | findAll elem =>
    have hn : elem ∈ seqs ready all waiters .all ∨ elem = .tail .all := by
      rcases hp.2 with h | ⟨x, hx, rfl⟩
      · exact Or.inr h
      · exact Or.inl (List.mem_map_of_mem hx)
    rcases assertRound_false hc.lists (.allListTag t) (by simpa [seqs] using hta) hn
      "!elem_find(&thread_all_list, &thread->all_list_tag)" .findAll .appendAll with
      hok | ⟨n', hn', hok⟩
    · refine stay .appendAll hp.1 ?_
      rw [advance, hok, ok_bind]
    · refine stay (.findAll n') ⟨hp.1, ?_⟩ ?_
      · rcases hn' with h | h
        · obtain ⟨x, hx, rfl⟩ := List.mem_map.mp h
          exact Or.inr ⟨x, hx, rfl⟩
        · exact Or.inl h
      · rw [advance, hok, ok_bind]
  | appendAll =>
    obtain ⟨h', hok, hl⟩ := append_all hc.lists hta
    refine ⟨{ s.sched with links := h' }, none, ready, all ++ [t], ?_, hi.touches hj ?_ ?_
      (fun x hx => List.mem_append_left _ hx) (fun x hx => by simpa using hx)
      (fun x hx => ?_) fun phase h => ?_⟩
    · rw [advance, hok, ok_bind]
    · exact ⟨rfl, rfl, fun u hu => Or.inl hu, fun u hu => hu, fun u _ => rfl, fun u _ => rfl⟩
    · exact ⟨hl, hc.mem_ready, hc.running, hc.mem_waiters, hc.kinds, hc.magic, hc.idle_mem,
        hc.idle_pc⟩
    · rcases List.mem_append.mp hx with h | h
      · exact hi.all_sub x h
      · rw [List.mem_singleton.mp h]
        exact hp
    · cases h

/-! ## Steps of the scheduler -/

omit [DecidableEq T] [DecidableEq S] in
/-- At the places that rely on the ready list the running thread keeps the CPU. -/
theorem stays {s : State T S} {j : Job T S} {e : Sched.Event T S} (hj : s.job s.sched.cur = some j)
    (hx : j.phase.Exposed) (ha : Allows (s.job s.sched.cur) e) (hu : Unswitched s (.sched e)) :
    Stays s.sched e := by
  rw [hj] at ha
  simp only [Unswitched, hj] at hu
  obtain ⟨t, p⟩ := j
  cases e with
  | timer => exact hu hx
  | unblock t => rfl
  | up k => rfl
  | start t prio => exact ha.elim
  | down k => cases p <;> first | exact hx.elim | exact ha.elim
  | resume => cases p <;> first | exact hx.elim | exact ha.elim
  | _ => exact absurd ha (by simp [Allows, Sched.Event.byThread])

variable {e : Sched.Event T S}

omit [DecidableEq T] [DecidableEq S] in
theorem Prepared.exec (hp : Prepared s t) (hd : Did e s s') (hcur : s.cur ∈ s.threads)
    (ht : t ∉ e.adds) : Prepared s' t := by
  have htask := hd.task t hp.new ht
  have hne : t ≠ s.cur := fun h => hp.new (by rw [h]; exact hcur)
  refine ⟨?_, ?_, ?_, ?_⟩
  · rw [hd.threads, List.mem_append]
    exact fun h => h.elim hp.new ht
  · rw [htask]
    exact hp.status
  · rw [htask]
    exact hp.magic
  · rw [hd.pc t ht fun h => absurd h hne]
    exact hp.pc

omit [DecidableEq T] [DecidableEq S] in
theorem PhaseOk.exec {u : T} {p : Phase T S} (hp : PhaseOk s ready all u t p) (hd : Did e s s')
    (hcur : s.cur ∈ s.threads) (ht : t ∉ e.adds)
    (hst : p.Exposed → s.cur = u → s'.cur = s.cur ∧ ready <:+ ready') :
    PhaseOk s' ready' (all ++ e.adds) u t p := by
  have hkeep : t ∈ s.threads → t ∈ s'.threads := fun h => by
    rw [hd.threads]
    exact List.mem_append_left _ h
  cases p with
  | init prio =>
    unfold PhaseOk
    rw [hd.threads, List.mem_append]
    exact fun h => h.elim hp ht
  | check => exact Prepared.exec hp hd hcur ht
  | findReady elem =>
    refine ⟨hp.1.exec hd hcur ht, ?_⟩
    rcases hp.2 with h | ⟨hu, x, hx, rfl⟩
    · exact Or.inl h
    · obtain ⟨hcur', hsuf⟩ := hst nofun hu
      exact Or.inr ⟨hcur'.trans hu, x, hsuf.subset hx, rfl⟩
  | append => exact Prepared.exec hp hd hcur ht
  | checkAgain =>
    obtain ⟨hcur', hsuf⟩ := hst trivial hp.1
    exact ⟨hcur'.trans hp.1, hsuf.subset hp.2⟩
  | findAgain elem =>
    obtain ⟨hu, x, xs, rfl, hxs, hmem⟩ := hp
    obtain ⟨hcur', hsuf⟩ := hst trivial hu
    exact ⟨hcur'.trans hu, x, xs, rfl, hxs.trans hsuf, hmem⟩
  | checkAll => exact hkeep hp
  | findAll elem =>
    exact ⟨hkeep hp.1, hp.2.imp_right fun ⟨x, hx, he⟩ => ⟨x, List.mem_append_left _ hx, he⟩⟩
  | appendAll => exact hkeep hp

theorem exec_inv {s : State T S} (hi : Inv v s ready all waiters) (he : Enabled s.sched e)
    (ha : Allows (s.job s.sched.cur) e) (hnew : ∀ t ∈ e.adds, t ∉ s.pages)
    (hu : Unswitched s (.sched e)) :
    (∃ s' ready' waiters', exec s.sched e = .ok s' ∧
      Inv v { s with sched := s', pages := s.pages ++ e.adds } ready' (all ++ e.adds) waiters') ∨
    ∃ x, exec s.sched e = .error x ∧ Overfull v x := by
  have hall : all.length ≤ s.sched.threads.length :=
    length_le_of_subset hi.core.all_nodup hi.all_sub
  have hfresh : ∀ t ∈ e.adds, t ∉ all := fun t ht h =>
    hnew t ht (hi.threads_sub t (hi.all_sub t h))
  have hadds : ∀ u j, s.job u = some j → j.thread ∉ e.adds := fun u j hj h =>
    hnew _ h (hi.job_page u j hj)
  rcases exec_core hi.core hall hfresh he with
    ⟨s', ready', waiters', hok, hc', hd, hst⟩ | ⟨herr, k, h2⟩
  · refine Or.inl ⟨s', ready', waiters', hok, hc', fun t ht => ?_, fun t ht => ?_,
      fun u j hj => List.mem_append_left _ (hi.job_page u j hj), fun u j hj h => ?_,
      fun u j hj => ?_, hi.apart, fun k hk => ?_⟩
    · rw [hd.threads]
      exact List.mem_append.mpr ((List.mem_append.mp ht).imp_left (hi.all_sub t))
    · rw [hd.threads] at ht
      exact List.mem_append.mpr ((List.mem_append.mp ht).imp_left (hi.threads_sub t))
    · exact (List.mem_append.mp h).elim (hi.job_all u j hj) (hadds u j hj)
    · refine (hi.job_phase u j hj).exec hd hi.core.running_mem.1 (hadds u j hj) fun hx hcur => ?_
      subst hcur
      exact hst (stays hj hx ha hu)
    · exact (hd.value k).trans (Nat.max_le.mpr ⟨hi.value k hk, Nat.le_refl 1⟩)
  · refine Or.inr ⟨_, herr, rfl, k, ?_⟩
    by_contra hk
    have := hi.value k (by omega)
    omega

/-- A call of `thread_start` begins. -/
theorem call_inv {s : State T S} (hi : Inv v s ready all waiters) (ht : t ∉ s.pages) (prio : ℕ) :
    Inv v { s with
      job := Function.update s.job s.sched.cur (some ⟨t, .init prio⟩)
      pages := s.pages ++ [t] } ready all waiters := by
  have hjob : ∀ u j,
      Function.update s.job s.sched.cur (some (⟨t, .init prio⟩ : Job T S)) u = some j →
        (u = s.sched.cur ∧ j = ⟨t, .init prio⟩) ∨ (s.job u = some j ∧ j.thread ≠ t) := by
    intro u j hu
    by_cases hcur : u = s.sched.cur
    · rw [hcur, Function.update_self] at hu
      exact Or.inl ⟨hcur, (Option.some.inj hu).symm⟩
    · rw [Function.update_of_ne hcur] at hu
      exact Or.inr ⟨hu, fun h => ht (h ▸ hi.job_page u j hu)⟩
  refine ⟨hi.core, hi.all_sub, fun x hx => List.mem_append_left _ (hi.threads_sub x hx),
    fun u j hu => ?_, fun u j hu => ?_, fun u j hu => ?_, fun u u' j j' hu hu' heq => ?_, hi.value⟩
  · rcases hjob u j hu with ⟨-, rfl⟩ | ⟨hu', -⟩
    · exact List.mem_append_right _ List.mem_cons_self
    · exact List.mem_append_left _ (hi.job_page u j hu')
  · rcases hjob u j hu with ⟨-, rfl⟩ | ⟨hu', -⟩
    · exact fun h => ht (hi.threads_sub t (hi.all_sub t h))
    · exact hi.job_all u j hu'
  · rcases hjob u j hu with ⟨-, rfl⟩ | ⟨hu', -⟩
    · exact fun h => ht (hi.threads_sub t h)
    · exact hi.job_phase u j hu'
  · rcases hjob u j hu with ⟨rfl, rfl⟩ | ⟨h, hne⟩
    · rcases hjob u' j' hu' with ⟨rfl, -⟩ | ⟨-, hne⟩
      · rfl
      · exact absurd heq.symm hne
    · rcases hjob u' j' hu' with ⟨rfl, rfl⟩ | ⟨h', -⟩
      · exact absurd heq hne
      · exact hi.apart u u' j j' h h' heq

/-! ## Whole runs -/

/-- Every step that the condition admits keeps the invariant, or fails the assertion of
`sema_down`. -/
theorem step_inv {s : State T S} {e : Event T S} {r : Except Halt (State T S)}
    (hi : Inv v s ready all waiters) (hu : Unswitched s e)
    (hr : (machine T S).step s e = some r) :
    (∃ s' ready' all' waiters', r = .ok s' ∧ Inv v s' ready' all' waiters') ∨
      ∃ x, r = .error x ∧ Overfull v x := by
  cases e with
  | sched e =>
    simp only [machine] at hr
    split at hr
    · next h =>
      obtain ⟨he, ha, hnew⟩ := h
      rw [← Option.some.inj hr]
      rcases exec_inv hi he ha hnew hu with ⟨s', ready', waiters', hok, hi'⟩ | ⟨x, herr, hx⟩
      · rw [hok]
        exact Or.inl ⟨_, ready', _, waiters', rfl, hi'⟩
      · rw [herr]
        exact Or.inr ⟨x, rfl, hx⟩
    · cases hr
  | call t prio =>
    simp only [machine] at hr
    split at hr
    · next h =>
      rw [← Option.some.inj hr]
      exact Or.inl ⟨_, _, _, _, rfl, call_inv hi h.2.2 prio⟩
    · cases hr
  | go =>
    simp only [machine] at hr
    cases hj : s.job s.sched.cur with
    | none => simp only [hj, reduceCtorEq] at hr
    | some j =>
      simp only [hj] at hr
      split at hr
      · obtain ⟨s', p, ready', all', hok, hi'⟩ := advance_inv hi hj
        rw [← Option.some.inj hr, hok]
        exact Or.inl ⟨_, ready', all', waiters, rfl, hi'⟩
      · cases hr

theorem start_inv (hc : Core (some s.cur) s ready waiters)
    (hv : ∀ k, v k ≤ 1 → s.value k ≤ 1) : Inv v (start s) ready s.threads waiters := by
  have hjob : ∀ u j, (start s).job u ≠ some j := fun u j hj => by cases hj
  exact ⟨hc.on, fun _ h => h, fun _ h => h, fun u j hj => absurd hj (hjob u j),
    fun u j hj => absurd hj (hjob u j), fun u j hj => absurd hj (hjob u j),
    fun u _ j _ hj => absurd hj (hjob u j), hv⟩

/-- The traversals of a state with the invariant are in their lists. -/
theorem Inv.inside {s : State T S} (hi : Inv v s ready all waiters) {u : T} {j : Job T S}
    (hj : s.job u = some j) : j.phase.Inside s.sched.links := by
  have hp := hi.job_phase u j hj
  have hready := hi.core.lists.isList .ready
  obtain ⟨t, p⟩ := j
  cases p with
  | findReady elem =>
    refine ⟨_, hready, ?_⟩
    rcases hp.2 with h | ⟨-, x, hx, rfl⟩
    · exact Or.inr h
    · exact Or.inl (List.mem_map_of_mem hx)
  | findAgain elem =>
    obtain ⟨-, x, xs, rfl, hxs, -⟩ := hp
    exact ⟨_, hready, Or.inl (List.mem_map_of_mem (hxs.subset List.mem_cons_self))⟩
  | findAll elem =>
    refine ⟨_, hi.core.lists.isList .all, ?_⟩
    rcases hp.2 with h | ⟨x, hx, rfl⟩
    · exact Or.inr h
    · exact Or.inl (List.mem_map_of_mem hx)
  | _ => trivial

/-- **`thread_start` under preemption.**  In every run in which no timer interrupt calls `schedule`
while the running thread is in the first `elem_find` of `thread_start`, or between its
`list_append` to the ready list and the end of its second `elem_find`, no assertion of
`thread_start` fails and every traversal stays in the list it started in, whatever other threads and
interrupts do.  The only assertion that can fail at all is that of `sema_down`. -/
theorem thread_start_safe {main idle : T} (hne : main ≠ idle) (v : S → ℕ) (task : T → Task) :
    ∃ s₀, threadInit (boot main v task) idle = .ok s₀ ∧
      ∀ es r, ((machine T S).guard Unswitched).run (start s₀) es = some r →
        (∃ s, r = .ok s ∧ ∀ u j, s.job u = some j → j.phase.Inside s.sched.links) ∨
          ∃ x, r = .error x ∧ Overfull v x := by
  obtain ⟨s₀, hinit, hcur, hval, hc₀⟩ := threadInit_core hne v task
  refine ⟨s₀, hinit, fun es r hr => ?_⟩
  have hinv₀ : Inv v (start s₀) [idle] s₀.threads fun _ => [] :=
    start_inv (hcur ▸ hc₀) (by rw [hval]; exact fun k hk => hk)
  have hrun := Machine.run_cases
    (I := fun s : State T S => ∃ ready all waiters, Inv v s ready all waiters) (Q := Overfull v)
    (fun s e r hi hs => ?_) ⟨_, _, _, hinv₀⟩ hr
  · refine hrun.imp_left ?_
    rintro ⟨s, rfl, ready, all, waiters, hi⟩
    exact ⟨s, rfl, fun u j hj => hi.inside hj⟩
  · obtain ⟨ready, all, waiters, hi⟩ := hi
    obtain ⟨hu, hs⟩ := Machine.guard_step hs
    refine (step_inv hi hu hs).imp_left ?_
    rintro ⟨s₁, ready', all', waiters', h₁, hi₁⟩
    exact ⟨s₁, h₁, ready', all', waiters', hi₁⟩

/-- The main thread 0 makes a thread of page 2 and is preempted before it looks at the list of all
threads; the idle thread 1 and the new thread block themselves, and the main thread goes on. -/
def switched : List (Event (Fin 4) Unit) :=
  List.flatten [[.call 2 5, .go, .go, .sched .timer], List.replicate 6 .go,
    List.replicate 31 (.sched .timer),
    [.sched (.block .blocked), .sched (.block .blocked), .go, .go]]

theorem thread_start_safe_switched :
    ∃ (s₀ : Sched.State (Fin 4) Unit) (s : State (Fin 4) Unit) (j : Job (Fin 4) Unit),
      threadInit (boot 0 (fun _ => 1) fun _ => ⟨.died, 0, 0, 0, 0⟩) 1 = .ok s₀ ∧
      ((machine (Fin 4) Unit).guard Unswitched).run (start s₀) switched = some (.ok s) ∧
      s.job 0 = some j ∧ j.phase.Inside s.sched.links := by
  obtain ⟨s₀, hinit, hall⟩ := thread_start_safe (show (0 : Fin 4) ≠ 1 by decide) (fun _ : Unit => 1)
    fun _ => ⟨.died, 0, 0, 0, 0⟩
  have htest : ((threadInit (boot (0 : Fin 4) (fun _ : Unit => 1)
      fun _ => ⟨.died, 0, 0, 0, 0⟩) 1).toOption.any fun s₀ =>
        (((machine (Fin 4) Unit).guard Unswitched).run (start s₀) switched).any fun r =>
          r.toOption.any fun s => (s.job 0).isSome) = true := by
    decide +kernel
  rw [hinit] at htest
  obtain ⟨s, hrun, hjob⟩ := Machine.run_of_test _ htest
  obtain ⟨j, hj⟩ := Option.isSome_iff_exists.mp hjob
  rcases hall _ _ hrun with ⟨s', hs', hin⟩ | ⟨x, hx, -⟩
  · cases hs'
    exact ⟨s₀, s, j, hinit, hrun, hj, hin 0 j hj⟩
  · cases hx

/-- The main thread 0 is preempted after it has put the new thread 2 on the ready list; the idle
thread 1 and the new thread block themselves, and `elem_find` does not find the new thread. -/
def lost : List (Event (Fin 4) Unit) :=
  List.flatten [[.call 2 5], List.replicate 5 .go, List.replicate 32 (.sched .timer),
    [.sched (.block .blocked), .sched (.block .blocked), .go, .go]]

/-- The main thread 0 is preempted while `elem_find` is at the tag of the ready thread 2, which then
waits for a semaphore: the traversal goes on in the list of the waiters and leaves it at its end. -/
def strayed : List (Event (Fin 4) Unit) :=
  List.flatten [[.sched (.execute 2), .call 3 5, .go, .go, .go],
    List.replicate 32 (.sched .timer),
    [.sched (.block .blocked), .sched (.down ()), .sched (.down ()), .go, .go, .go]]

/-- `thread_start` is not safe under preemption. -/
theorem preempted :
    ∃ s₀ : Sched.State (Fin 4) Unit,
      threadInit (boot 0 (fun _ => 1) fun _ => ⟨.died, 0, 0, 0, 0⟩) 1 = .ok s₀ ∧
      (machine (Fin 4) Unit).run (start s₀) lost = some (.error (.panic "thread_start"
        "elem_find(&thread_ready_list, &thread->general_tag)")) ∧
      (machine (Fin 4) Unit).run (start s₀) strayed = some (.error .nullDeref) := by
  obtain ⟨s₀, hinit, -⟩ := threadInit_core (show (0 : Fin 4) ≠ 1 by decide) (fun _ : Unit => 1)
    fun _ => ⟨.died, 0, 0, 0, 0⟩
  have htest : ((threadInit (boot (0 : Fin 4) (fun _ : Unit => 1)
      fun _ => ⟨.died, 0, 0, 0, 0⟩) 1).toOption.any fun s₀ => decide
        (Machine.halted ((machine (Fin 4) Unit).run (start s₀) lost) = some (.panic "thread_start"
          "elem_find(&thread_ready_list, &thread->general_tag)") ∧
        Machine.halted ((machine (Fin 4) Unit).run (start s₀) strayed) = some .nullDeref)) =
          true := by
    decide +kernel
  rw [hinit] at htest
  obtain ⟨hlost, hstrayed⟩ := of_decide_eq_true htest
  exact ⟨s₀, hinit, Machine.eq_of_halted hlost, Machine.eq_of_halted hstrayed⟩

end HcOs.ThreadStart
