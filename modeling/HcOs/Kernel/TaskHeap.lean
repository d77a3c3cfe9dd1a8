import HcOs.Kernel.HeapRun
import HcOs.Kernel.PageRun

/-!
# The heap of a task over its pages

The page functions of `kernel/memory.c` meet the contract that the heap asks for, so the results of
`HeapRun` hold for kernel threads and processes: `free_lists_exact`.  And since the pages of a heap
are known exactly, a task that has freed all it got leaves nothing behind: `no_leak`.
-/

namespace HcOs.Heap

open HcOs.Lib HcOs.Page

variable {P : Type} [DecidableEq P]

/-- `malloc_page` and `mfree_page` as the task `cur` calls them. -/
def taskLayer (cur : Option P) : PageLayer (St P) where
  poolSize s := (s.mem.pool (pfOf cur)).poolSize
  mallocPage s n := do
    let (m, vaddr) ← mallocPage s.mem cur (pfOf cur) n
    match vaddr with
    | none => .ok ({ s with mem := m }, none)
    | some v => .ok (⟨m, ⟨cur, v, n⟩ :: s.runs⟩, some v)
  mfreePage s a n := do
    let m ← mfreePage s.mem cur (pfOf cur) a n
    .ok ⟨m, s.runs.erase ⟨cur, a, n⟩⟩
  runs s r := ⟨cur, r.1, r.2⟩ ∈ s.runs

/-- Where the descriptors are: those of the kernel in its image, below its heap, those of a process
in its PCB, above all pages of the process. -/
def DescsAt : Option P → ℕ → Prop
  | none, descs => descs + 168 ≤ kHeapStart
  | some _, descs => 0xc0000000 ≤ descs

variable {cur : Option P} {descs : ℕ} {stuck : Option P × ℕ → Prop} {s s' : St P} {n a : ℕ}
variable {r : ℕ × ℕ}

/-! ## The contract -/

omit [DecidableEq P] in
theorem runs_nodup {m : Mem P} {runs : List (Run P)} (h : RunsOk m runs) : runs.Nodup := by
  refine h.disjoint.imp_of_mem fun {r r'} hr _ hdisj => ?_
  rintro rfl
  obtain ⟨⟨st, hst⟩, hn, -⟩ := h.mapped r hr
  have hfirst : r.Has (r.pool, st) :=
    (r.has_iff hst).mpr ⟨rfl, Nat.le_refl _, by simp only; omega⟩
  exact hdisj _ hfirst hfirst

omit [DecidableEq P] in
/-- A run of pages of a pool, as addresses. -/
theorem vaddrOf_bounds {m : Mem P} {st : ℕ} (hg : Geo m) (hd : DescsAt cur descs) (hn : 1 ≤ n)
    (hend : st + n ≤ limit m cur) :
    0 < vaddrOf (cur, st) ∧ poolStart cur ≤ vaddrOf (cur, st) ∧
      vaddrOf (cur, st) + n * 4096 ≤ 2 ^ 32 ∧ Apart (vaddrOf (cur, st)) (n * 4096) descs 168 := by
  have hlast : (cur, st + n - 1).2 < limit m (cur, st + n - 1).1 := by
    simp only
    omega
  have hle := limit_le hg hlast
  cases cur with
  | none =>
    have hi : st + n - 1 < 2 ^ 15 := by
      rcases hle with ⟨-, hi⟩ | ⟨⟨p, hp⟩, -⟩
      · exact hi
      · cases hp
    simp only [DescsAt, kHeapStart] at hd
    simp only [vaddrOf, poolStart, kHeapStart, pgSize]
    refine ⟨by omega, by omega, by omega, Or.inr (by omega)⟩
  | some p =>
    have hi : st + n - 1 < 753592 := by
      rcases hle with ⟨hp, -⟩ | ⟨-, hi⟩
      · cases hp
      · exact hi
    unfold DescsAt at hd
    simp only [vaddrOf, poolStart, userVaddrStart, pgSize]
    refine ⟨by omega, by omega, by omega, Or.inl (by omega)⟩

/-- What `malloc_page` does for the heap of a task. -/
theorem layer_malloc (hi : PageInv s stuck) :
    (∃ x, (taskLayer cur).mallocPage s n = .error x ∧ MallocHalt x) ∨
    (taskLayer cur).mallocPage s n = .ok (s, none) ∨
    ∃ m' st, (taskLayer cur).mallocPage s n =
        .ok (⟨m', ⟨cur, vaddrOf (cur, st), n⟩ :: s.runs⟩, some (vaddrOf (cur, st))) ∧ 1 ≤ n ∧
      st + n ≤ limit s.mem cur ∧ (∀ q, InRun cur st n q → holds s.mem (.page q) = none) ∧
      Keeps (InRun cur st n) s.mem m' ∧
      PageInv ⟨m', ⟨cur, vaddrOf (cur, st), n⟩ :: s.runs⟩ stuck := by
  simp only [taskLayer]
  rcases mallocPage_spec (n := n) hi.settled (Or.inr rfl) with
    ⟨x, herr, hx, -⟩ | hnull | ⟨m', st, hok, hn, -, hend, hfree, hk, hall, hi'⟩
  · exact Or.inl ⟨x, by rw [herr]; rfl, hx⟩
  · exact Or.inr (Or.inl (by rw [hnull]; rfl))
  · exact Or.inr (Or.inr ⟨m', st, by rw [hok]; rfl, hn, hend, hfree, hk, hi',
      hi.runs.add hn hfree hk hall⟩)

theorem layer_malloc_null (hi : PageInv s stuck)
    (hm : (taskLayer cur).mallocPage s n = .ok (s', none)) : s' = s := by
  rcases layer_malloc (n := n) hi with ⟨x, herr, -⟩ | hnull | ⟨m', st, hok, -⟩
  · rw [herr] at hm
    cases hm
  · rw [hnull] at hm
    cases hm
    rfl
  · rw [hok] at hm
    cases hm

theorem layer_malloc_some (hi : PageInv s stuck)
    (hm : (taskLayer cur).mallocPage s n = .ok (s', some a)) :
    ∃ m' st, a = vaddrOf (cur, st) ∧ s' = ⟨m', ⟨cur, vaddrOf (cur, st), n⟩ :: s.runs⟩ ∧
      st + n ≤ limit s.mem cur ∧ (∀ q, InRun cur st n q → holds s.mem (.page q) = none) ∧
      Keeps (InRun cur st n) s.mem m' ∧
      PageInv ⟨m', ⟨cur, vaddrOf (cur, st), n⟩ :: s.runs⟩ stuck := by
  rcases layer_malloc (n := n) hi with ⟨x, herr, -⟩ | hnull | ⟨m', st, hok, -, hrest⟩
  · rw [herr] at hm
    cases hm
  · rw [hnull] at hm
    cases hm
  · rw [hok] at hm
    cases hm
    exact ⟨m', st, rfl, rfl, hrest⟩

/-- What `mfree_page` does for the heap of a task. -/
theorem layer_mfree (hi : PageInv s stuck) (hr : (taskLayer cur).runs s r) :
    ∃ m' st, r.1 = vaddrOf (cur, st) ∧
      (taskLayer cur).mfreePage s r.1 r.2 = .ok ⟨m', s.runs.erase ⟨cur, r.1, r.2⟩⟩ ∧
      Keeps (InRun cur st r.2) s.mem m' ∧ (∀ q, InRun cur st r.2 q → holds m' (.page q) = none) ∧
      PageInv ⟨m', s.runs.erase ⟨cur, r.1, r.2⟩⟩ stuck := by
  obtain ⟨⟨st, hst⟩, hn, hall⟩ := hi.runs.mapped _ hr
  simp only at hst hn
  have hhas : ∀ q, Run.Has ⟨cur, r.1, r.2⟩ q ↔ InRun cur st r.2 q := fun q =>
    Run.has_iff (r := ⟨cur, r.1, r.2⟩) hst
  obtain ⟨m', hok, hk, hnone, hi'⟩ := mfreePage_spec hi.settled (Or.inr rfl)
    hn fun q hq => hall q ((hhas q).mpr hq)
  refine ⟨m', st, hst, ?_, hk, hnone, hi', hi.runs.erase hr hst hk⟩
  simp only [taskLayer]
  rw [hst, hok]
  rfl

theorem taskLayer_contract (hd : DescsAt cur descs) :
    Contract (taskLayer cur) descs (poolStart cur) fun s => PageInv s stuck where
  poolSize s hi := hi.settled.geo.poolSizes _
  malloc s n s' a hi hn hm := by
    obtain ⟨m', st, rfl, rfl, hend, hfree, hk, hi'⟩ := layer_malloc_some hi hm
    obtain ⟨hpos, hlow, htop, haway⟩ := vaddrOf_bounds hi.settled.geo hd hn hend
    refine ⟨hi', vaddrOf_mod, hpos, hlow, htop, haway, fun r hr => ?_, fun r => ?_⟩
    · -- a common page would be mapped already
      obtain ⟨⟨st', hst'⟩, hn', hall⟩ := hi.runs.mapped _ hr
      simp only at hst' hn'
      have hcommon : ¬(st < st' + r.2 ∧ st' < st + n) := by
        intro hc
        have hnew : InRun cur st n (cur, max st st') := ⟨rfl, by simp, by simp only; omega⟩
        have hold : InRun cur st' r.2 (cur, max st st') := ⟨rfl, by simp, by simp only; omega⟩
        exact hall _ ((Run.has_iff (r := ⟨cur, r.1, r.2⟩) hst').mpr hold) (hfree _ hnew)
      rw [hst']
      simp only [vaddrOf, pgSize]
      by_cases hle : st + n ≤ st'
      · exact Or.inl (by omega)
      · exact Or.inr (by omega)
    · simp only [taskLayer, List.mem_cons, Run.mk.injEq, true_and]
      rw [Prod.ext_iff]
  null s n s' hi hm := by
    obtain rfl := layer_malloc_null hi hm
    exact ⟨hi, fun _ => Iff.rfl⟩
  mfree s r s' hi hr hm := by
    obtain ⟨m', st, -, hok, -, -, hi'⟩ := layer_mfree hi hr
    rw [hok] at hm
    cases hm
    refine ⟨hi', fun r' => ?_⟩
    simp only [taskLayer]
    rw [(runs_nodup hi.runs).mem_erase_iff, and_comm]
    refine and_congr_right fun _ => ?_
    rw [Ne, Ne, Run.mk.injEq, Prod.ext_iff]
    simp

/-- A page call of the heap is a page call of the task. -/
theorem pageStep_of_layer {n : ℕ} {a : Option ℕ}
    (h : (taskLayer cur).mallocPage s n = .ok (s', a)) :
    pageStep s (.mallocPage cur (pfOf cur) n) = some (.ok s') := by
  have hpool : poolOf cur (pfOf cur) = cur := by cases cur <;> rfl
  simp only [taskLayer] at h
  obtain ⟨⟨m, v⟩, hm, h⟩ := bind_eq_ok.mp h
  simp only [pageStep]
  rw [hm, ok_bind, hpool]
  cases v with
  | none =>
    cases h
    rfl
  | some v =>
    cases h
    rfl

/-! ## The machine of a task -/

/-- The calls of one task. -/
def taskMachine (cur : Option P) (descs : ℕ) : Machine (HeapSt (St P)) HeapCall Halt :=
  heapMachine (taskLayer cur) descs cur.isNone

/-- A task before its first call: the descriptors are set up in `mem₀`, the pages are in the state
`m`, and none of them belongs to the heap yet. -/
def taskStart (mem₀ : Words) (m : Mem P) : HeapSt (St P) := ⟨⟨mem₀, ⟨m, []⟩⟩, []⟩

/-- The invariant of a task between two calls. -/
abbrev TaskInv (cur : Option P) (descs : ℕ) (stuck : Option P × ℕ → Prop) (s : HeapSt (St P)) :
    Prop :=
  HeapInv (taskLayer cur) descs (poolStart cur) (fun s => PageInv s stuck) s.task s.live

omit [DecidableEq P] in
theorem isNone_low (h : cur.isNone = true) : kHeapStart ≤ poolStart cur := by
  cases cur with
  | none => exact Nat.le_refl _
  | some p => cases h

variable {t t₀ t₁ : HeapSt (St P)} {es : List HeapCall} {m m₀ : Mem P} {mem mem₀ : Words}
variable {ps : List (Call P)} {sp : St P}

theorem taskInv_start (hm : Start m₀) (hp : pageMachine.run ⟨m₀, []⟩ ps = some (.ok sp))
    (hmem : blockDescInit mem descs = .ok mem₀) :
    TaskInv cur descs (stuckAt m₀) (taskStart mem₀ sp.mem) :=
  heapInv_start hmem ⟨(page_run hm hp).settled, nofun, List.Pairwise.nil⟩ fun _ => List.not_mem_nil

theorem task_step (hd : DescsAt cur descs) (h : TaskInv cur descs stuck t) {c : HeapCall}
    {r : Except Halt (HeapSt (St P))} (hs : (taskMachine cur descs).step t c = some r) :
    (∃ x, r = .error x ∧ MallocHalt x) ∨ ∃ t', r = .ok t' ∧ TaskInv cur descs stuck t' ∧
      PageStep (taskLayer cur) t.task.pages t'.task.pages := by
  rcases heap_step (taskLayer_contract hd) isNone_low h hs with ⟨x, hx, hhalt⟩ | hok
  · refine Or.inl ⟨x, hx, ?_⟩
    cases hhalt with
    | @malloc n herr =>
      rcases layer_malloc (n := n) h.pages with
        ⟨y, hy, hm⟩ | hnull | ⟨m', st, hok, -⟩
      · rw [hy] at herr
        cases herr
        exact hm
      · rw [hnull] at herr
        cases herr
      · rw [hok] at herr
        cases herr
    | mfree hr herr =>
      obtain ⟨m', st, -, hok, -⟩ := layer_mfree h.pages hr
      rw [hok] at herr
      cases herr
  · exact Or.inr hok

theorem task_run (hd : DescsAt cur descs) (h : TaskInv cur descs stuck t)
    {r : Except Halt (HeapSt (St P))} (hr : (taskMachine cur descs).run t es = some r) :
    (∀ t', r = .ok t' → TaskInv cur descs stuck t') ∧ ∀ x, r = .error x → MallocHalt x := by
  refine Machine.run_inv (fun t c t' hi hs => ?_) (fun t c x hi hs => ?_) h hr
  · rcases task_step hd hi hs with ⟨x, hx, -⟩ | ⟨t₁, ht₁, hinv, -⟩
    · cases hx
    · cases ht₁
      exact hinv
  · rcases task_step hd hi hs with ⟨y, hy, hm⟩ | ⟨t₁, ht₁, -⟩
    · cases hy
      exact hm
    · cases ht₁

/-! ## A kernel thread -/

/-- A place for `k_block_descs` in the kernel image. -/
def kBlockDescs : ℕ := 0xc0005000

theorem kBlockDescs_at : DescsAt (none : Option Unit) kBlockDescs := by
  simp only [DescsAt, kBlockDescs, kHeapStart]
  decide

def descsMem : Words := (blockDescInit (fun _ => 0) kBlockDescs).toOption.getD fun _ => 0

theorem descsMem_init : blockDescInit (fun _ => 0) kBlockDescs = .ok descsMem := by
  obtain ⟨mem', hinit, -⟩ := blockDescInit_spec (fun _ => 0) kBlockDescs
  unfold descsMem
  rw [hinit]
  rfl

/-- A kernel thread on a machine with little memory. -/
def threadStart : HeapSt (St Unit) := taskStart descsMem (bootMem Unit 0x240000)

/-- The requests of `k_thread_a` and a large one; the second block is freed. -/
def threadCalls : List HeapCall :=
  [.malloc 256, .malloc 255, .malloc 254, .malloc 5000, .free 0xc010010c]

theorem threadCalls_run : ∃ t,
    (taskMachine (none : Option Unit) kBlockDescs).run threadStart threadCalls = some (.ok t) ∧
      decide (t.live = [⟨0xc010100c, 5000⟩, ⟨0xc010020c, 254⟩, ⟨0xc010000c, 256⟩]) = true :=
  Machine.run_of_test _ (by decide +kernel)

theorem blocks_disjoint_thread : ∃ t,
    (taskMachine (none : Option Unit) kBlockDescs).run threadStart threadCalls = some (.ok t) ∧
      t.live.length = 3 ∧ BlocksOk (taskLayer none) kBlockDescs t := by
  obtain ⟨t, hrun, hlive⟩ := threadCalls_run
  have hI : PageInv ⟨bootMem Unit 0x240000, []⟩ (stuckAt (bootMem Unit 0x240000)) :=
    ⟨(bootMem_start _).settled, nofun, List.Pairwise.nil⟩
  refine ⟨t, hrun, by rw [of_decide_eq_true hlive]; rfl, ?_⟩
  exact (blocks_disjoint (taskLayer_contract kBlockDescs_at) isNone_low descsMem_init hI
    (fun _ => List.not_mem_nil) hrun).1

/-! ## Free lists -/

/-- **The free lists of a task.**  Between any two calls each free list holds exactly the
unallocated blocks of the small arenas of its descriptor, and each header counts its own; a block is
never popped from an empty list, and only `malloc_page` can fail. -/
theorem free_lists_exact (hm : Start m₀) (hp : pageMachine.run ⟨m₀, []⟩ ps = some (.ok sp))
    (hd : DescsAt cur descs) (hmem : blockDescInit mem descs = .ok mem₀)
    {r : Except Halt (HeapSt (St P))}
    (hr : (taskMachine cur descs).run (taskStart mem₀ sp.mem) es = some r) :
    (∀ t, r = .ok t → (∃ free, FreeListsOk (taskLayer cur) descs t free) ∧
      ∀ size t', size ≤ 1024 →
        AtPop (taskLayer cur) t.task (descs + matchDesc t.task.mem descs size descCnt 0 * descSize)
          t' →
        listEmpty elems t'.mem
          (freeList (descs + matchDesc t.task.mem descs size descCnt 0 * descSize)) = .ok false) ∧
      ∀ x, r = .error x → MallocHalt x := by
  obtain ⟨hok, herr⟩ := task_run hd (taskInv_start hm hp hmem) hr
  refine ⟨fun t ht => ⟨freeListsOk_of_inv (hok t ht), fun size t' hsize hpop => ?_⟩, herr⟩
  exact not_empty_at_pop (taskLayer_contract hd) (hok t ht) hsize hpop

theorem free_lists_exact_thread : ∃ t free,
    (taskMachine (none : Option Unit) kBlockDescs).run threadStart threadCalls = some (.ok t) ∧
      FreeListsOk (taskLayer none) kBlockDescs t free := by
  obtain ⟨t, hrun, -⟩ := threadCalls_run
  have hpages : pageMachine.run ⟨bootMem Unit 0x240000, []⟩ [] =
      some (.ok ⟨bootMem Unit 0x240000, []⟩) := rfl
  obtain ⟨⟨free, hfree⟩, -⟩ := (free_lists_exact (bootMem_start 0x240000) hpages kBlockDescs_at
    descsMem_init hrun).1 t rfl
  exact ⟨t, free, hrun, hfree⟩

/-! ## What the owners say about the bitmaps -/

omit [DecidableEq P] in
theorem vbit_iff_holds {pg : Option P × ℕ} (hi : Settled m stuck) (hv : pg.2 < limit m pg.1) :
    vbit m pg = true ↔ holds m (.page pg) ≠ none ∨ stuck pg := by
  rw [hi.bit_iff pg hv, false_or, holds]
  by_cases hp : present m pg = true
  · simp [hp, hv]
  · simp [hp]

omit [DecidableEq P] in
theorem frameBit_iff_holds {k : PoolFlags} {j : ℕ} (hi : Settled m stuck) (hj : j < frames m k) :
    bitmapScanTest (m.pool k).poolBitmap j = true ↔ ∃ o, holds m o = some (frameAt m k j) := by
  have hused := hi.owns.used_iff (frameAt m k j)
  rw [false_or] at hused
  rw [← hused]
  constructor
  · exact fun hbit => ⟨k, j, hj, rfl, hbit⟩
  · rintro ⟨l, i, hil, hf, hbit⟩
    obtain ⟨rfl, rfl⟩ := frameAt_inj hi.geo hj hil hf
    exact hbit

/-! ## Pages since a moment -/

/-- The page belongs to a run of the task that was not there at the moment `s₀`. -/
def Extra (cur : Option P) (s₀ s : St P) (q : Option P × ℕ) : Prop :=
  ∃ r : Run P, r.pool = cur ∧ r ∈ s.runs ∧ r ∉ s₀.runs ∧ r.Has q

/-- Since the moment `s₀` no run was freed, and only pages of new runs changed, which were free. -/
structure Since (cur : Option P) (s₀ s : St P) : Prop where
  kept : ∀ r ∈ s₀.runs, r ∈ s.runs
  keeps : Keeps (Extra cur s₀ s) s₀.mem s.mem
  fresh : ∀ q, Extra cur s₀ s q → holds s₀.mem (.page q) = none

variable {s₀ : St P}

omit [DecidableEq P] in
theorem Since.refl (s : St P) : Since cur s s :=
  ⟨fun _ h => h, Keeps.refl s.mem, fun _ ⟨_, _, hr, hn, _⟩ => absurd hr hn⟩

omit [DecidableEq P] in
/-- A run of free pages is mapped. -/
theorem Since.malloc {m' : Mem P} {st : ℕ} (h : Since cur s₀ s) (hi : RunsOk s.mem s.runs)
    (hn : 1 ≤ n) (hfree : ∀ q, InRun cur st n q → holds s.mem (.page q) = none)
    (hk : Keeps (InRun cur st n) s.mem m') :
    Since cur s₀ ⟨m', ⟨cur, vaddrOf (cur, st), n⟩ :: s.runs⟩ := by
  set run : Run P := ⟨cur, vaddrOf (cur, st), n⟩ with hrun
  have hhas : ∀ q, run.Has q ↔ InRun cur st n q := fun q => Run.has_iff (r := run) rfl
  have hnew : run ∉ s₀.runs := by
    intro hr
    have hfirst : InRun cur st n (cur, st) := ⟨rfl, Nat.le_refl st, by simp only; omega⟩
    exact (hi.mapped run (h.kept run hr)).2.2 _ ((hhas _).mpr hfirst) (hfree _ hfirst)
  have hold : ∀ q, Extra cur s₀ s q → Extra cur s₀ ⟨m', run :: s.runs⟩ q :=
    fun q ⟨r, hd, hr, hn, hq⟩ => ⟨r, hd, List.mem_cons_of_mem _ hr, hn, hq⟩
  have hrunq : ∀ q, InRun cur st n q → Extra cur s₀ ⟨m', run :: s.runs⟩ q := fun q hq =>
    ⟨run, rfl, List.mem_cons_self, hnew, (hhas q).mpr hq⟩
  refine ⟨fun r hr => List.mem_cons_of_mem _ (h.kept r hr),
    (h.keeps.mono hold).trans (hk.mono hrunq), fun q hq => ?_⟩
  by_cases hq' : Extra cur s₀ s q
  · exact h.fresh q hq'
  · obtain ⟨r, hd, hr, hn, hrq⟩ := hq
    rcases List.mem_cons.mp hr with rfl | hr
    · rw [← h.keeps.pages q hq']
      exact hfree q ((hhas q).mp hrq)
    · exact absurd ⟨r, hd, hr, hn, hrq⟩ hq'

/-- A run that is not one of `s₀` is unmapped. -/
theorem Since.mfree {m' : Mem P} {st : ℕ} (h : Since cur s₀ s) {run : Run P} (hd : run.pool = cur)
    (hr : run ∈ s.runs) (hnew : run ∉ s₀.runs) (hst : run.vaddr = vaddrOf (run.pool, st))
    (hk : Keeps (InRun run.pool st run.pgCnt) s.mem m')
    (hnone : ∀ q, InRun run.pool st run.pgCnt q → holds m' (.page q) = none) :
    Since cur s₀ ⟨m', s.runs.erase run⟩ := by
  have hold : ∀ q, Extra cur s₀ ⟨m', s.runs.erase run⟩ q → Extra cur s₀ s q :=
    fun q ⟨r, hd, hr, hn, hq⟩ => ⟨r, hd, List.mem_of_mem_erase hr, hn, hq⟩
  have hrunq : ∀ q, InRun run.pool st run.pgCnt q → Extra cur s₀ s q := fun q hq =>
    ⟨run, hd, hr, hnew, (run.has_iff hst).mpr hq⟩
  have hall : Keeps (Extra cur s₀ s) s₀.mem m' := h.keeps.trans (hk.mono hrunq)
  refine ⟨fun r hr' => ?_, { hall with pages := fun q hq => ?_ }, fun q hq => h.fresh q (hold q hq)⟩
  · refine (List.mem_erase_of_ne ?_).mpr (h.kept r hr')
    rintro rfl
    exact hnew hr'
  · by_cases hrq : InRun run.pool st run.pgCnt q
    · rw [hnone q hrq, h.fresh q (hrunq q hrq)]
    · refine hall.pages q fun ⟨r, hd', hr', hn, hrq'⟩ => hq ⟨r, hd', ?_, hn, hrq'⟩
      refine (List.mem_erase_of_ne ?_).mpr hr'
      rintro rfl
      exact hrq ((r.has_iff hst).mp hrq')

/-- A call of the heap frees no run of `s₀`, when these are runs of the heap after it. -/
theorem since_step (hi : PageInv s stuck) (h : Since cur s₀ s)
    (hkeep : ∀ r, (taskLayer cur).runs s₀ r → (taskLayer cur).runs s' r)
    (hp : PageStep (taskLayer cur) s s') : Since cur s₀ s' := by
  cases hp with
  | same => exact h
  | @null n _ hm =>
    obtain rfl := layer_malloc_null hi hm
    exact h
  | @malloc n a _ hn hm =>
    obtain ⟨m', st, -, rfl, -, hfree, hk, -⟩ := layer_malloc_some hi hm
    exact h.malloc hi.runs hn hfree hk
  | @mfree r _ hr hm =>
    obtain ⟨m', st, hst, hok, hk, hnone, hi'⟩ := layer_mfree hi hr
    rw [hok] at hm
    cases hm
    refine h.mfree rfl hr (fun hr₀ => ?_) hst hk hnone
    exact (runs_nodup hi.runs).not_mem_erase (hkeep r hr₀)

/-- What holds since the moment `t₀` of a run that frees no block of `t₀`. -/
structure TaskSince (cur : Option P) (descs : ℕ) (stuck : Option P × ℕ → Prop)
    (t₀ t : HeapSt (St P)) : Prop where
  inv : TaskInv cur descs stuck t
  live : ∀ b ∈ t₀.live, b ∈ t.live
  pages : Since cur t₀.task.pages t.task.pages

theorem taskSince_step (hd : DescsAt cur descs) (h₀ : TaskInv cur descs stuck t₀)
    (h : TaskSince cur descs stuck t₀ t) {c : HeapCall} (hc : ∀ b ∈ t₀.live, c ≠ .free b.ptr)
    (hs : (taskMachine cur descs).step t c = some (.ok t₁)) :
    TaskSince cur descs stuck t₀ t₁ := by
  rcases task_step hd h.inv hs with ⟨x, hx, -⟩ | ⟨t', ht', hinv, hp⟩
  · cases hx
  · cases ht'
    have hlive : ∀ b ∈ t₀.live, b ∈ t₁.live := fun b hb => live_kept hs (h.live b hb) (hc b hb)
    refine ⟨hinv, hlive, since_step h.inv.pages h.pages (fun r hr => ?_) hp⟩
    obtain ⟨b, hb, hbase⟩ := live_of_arena h₀ hr
    exact arena_kept (taskLayer_contract hd) h.inv hinv hp (hlive b hb)
      (h.pages.kept _ hr) hbase

theorem taskSince_run (hd : DescsAt cur descs) (h₀ : TaskInv cur descs stuck t₀)
    (h : TaskSince cur descs stuck t₀ t) (hfree : ∀ b ∈ t₀.live, .free b.ptr ∉ es)
    (hr : (taskMachine cur descs).run t es = some (.ok t₁)) : TaskSince cur descs stuck t₀ t₁ := by
  induction es generalizing t with
  | nil =>
    cases hr
    exact h
  | cons c es ih =>
    rcases Machine.run_cons_cases _ hr with ⟨t', hs, hr'⟩ | ⟨x, -, -, hx⟩
    · refine ih (taskSince_step hd h₀ h (fun b hb => ?_) hs) (fun b hb => ?_) hr'
      · rintro rfl
        exact hfree b hb List.mem_cons_self
      · exact fun hmem => hfree b hb (List.mem_cons_of_mem c hmem)
    · cases hx

/-- When all blocks since `t₀` are freed, the runs are those of `t₀`. -/
theorem runs_of_freed (h₀ : TaskInv cur descs stuck t₀) (h : TaskSince cur descs stuck t₀ t)
    (hend : ∀ b ∈ t.live, b ∈ t₀.live) {r : ℕ × ℕ} (hr : (taskLayer cur).runs t.task.pages r) :
    (taskLayer cur).runs t₀.task.pages r := by
  obtain ⟨b, hb, hbase⟩ := live_of_arena h.inv hr
  obtain ⟨r₀, hr₀, hbase₀⟩ := arena_of_live h₀ (hend b hb)
  rw [arena_eq h.inv hr (h.pages.kept _ hr₀) (hbase.symm.trans hbase₀)]
  exact hr₀

/-- The frame became a page table between `m` and `m'`. -/
def NewTable (m m' : Mem P) (f : ℕ) : Prop :=
  ∃ p j, holds m (.table p j) = none ∧ holds m' (.table p j) = some f

/-- A run of calls leaves nothing behind: `t₀` and `t₁` have the same bitmaps, but for new page
tables, and empty free lists. -/
structure NoLeak (cur : Option P) (descs : ℕ) (t₀ t₁ : HeapSt (St P)) : Prop where
  lists : ListsEmpty descs t₁.task.mem
  vaddrLen : (vbitmap t₁.task.pages.mem cur).btmpBytesLen =
    (vbitmap t₀.task.pages.mem cur).btmpBytesLen
  vaddr : ∀ i, i < 8 * (vbitmap t₀.task.pages.mem cur).btmpBytesLen →
    vbit t₁.task.pages.mem (cur, i) = vbit t₀.task.pages.mem (cur, i)
  poolLen : ∀ k, frames t₁.task.pages.mem k = frames t₀.task.pages.mem k
  pool : ∀ k j, j < frames t₀.task.pages.mem k →
    (bitmapScanTest (t₁.task.pages.mem.pool k).poolBitmap j = true ↔
      bitmapScanTest (t₀.task.pages.mem.pool k).poolBitmap j = true ∨
        k = .kernel ∧ NewTable t₀.task.pages.mem t₁.task.pages.mem
          (frameAt t₀.task.pages.mem .kernel j))

section

variable {m₁ : Mem P} (hi : Settled m stuck) (hi₁ : Settled m₁ stuck)
  (hk : Keeps (fun _ => False) m m₁)

include hi hi₁ hk

omit [DecidableEq P] in
theorem vbit_same {pg : Option P × ℕ} (hv : pg.2 < limit m pg.1) : vbit m₁ pg = vbit m pg := by
  have hv₁ : pg.2 < limit m₁ pg.1 := by
    rw [hk.limits]
    exact hv
  rw [Bool.eq_iff_iff, vbit_iff_holds hi hv, vbit_iff_holds hi₁ hv₁, hk.pages pg id]

omit [DecidableEq P] in
theorem btmpBytesLen_same (d : Option P) :
    (vbitmap m₁ d).btmpBytesLen = (vbitmap m d).btmpBytesLen := by
  have hl := hk.limits d
  rcases limit_eq hi.geo d with ⟨h, rfl⟩ | ⟨h, -, p, rfl⟩
  · rcases limit_eq hi₁.geo (none : Option P) with ⟨h₁, -⟩ | ⟨-, -, p, hp⟩
    · omega
    · cases hp
  · rcases limit_eq hi₁.geo (some p) with ⟨-, hp⟩ | ⟨h₁, -⟩
    · cases hp
    · omega

omit [DecidableEq P] in
/-- The frames that are used now were used before, or they are page tables now. -/
theorem frameBit_same {k : PoolFlags} {j : ℕ} (hj : j < frames m k) :
    bitmapScanTest (m₁.pool k).poolBitmap j = true ↔
      bitmapScanTest (m.pool k).poolBitmap j = true ∨
        k = .kernel ∧ NewTable m m₁ (frameAt m .kernel j) := by
  have hj₁ : j < frames m₁ k := by
    rw [hk.frames]
    exact hj
  rw [frameBit_iff_holds hi hj, frameBit_iff_holds hi₁ hj₁, hk.frameAt_eq]
  constructor
  · rintro ⟨o, ho⟩
    cases o with
    | page q =>
      rw [hk.pages q id] at ho
      exact Or.inl ⟨_, ho⟩
    | table p i =>
      cases hold : holds m (.table p i) with
      | some g =>
        have hg := hk.tables p i g hold
        rw [ho] at hg
        cases hg
        exact Or.inl ⟨_, hold⟩
      | none =>
        -- a new table lies in the kernel's pool
        obtain ⟨j', hj', hf⟩ := hi₁.kind _ _ ho
        rw [← hk.frameAt_eq] at hf
        obtain ⟨rfl, -⟩ := frameAt_inj hi₁.geo hj₁ hj' hf
        exact Or.inr ⟨rfl, p, i, hold, ho⟩
  · rintro (⟨o, ho⟩ | ⟨rfl, p, i, -, ho⟩)
    · cases o with
      | page q =>
        rw [← hk.pages q id] at ho
        exact ⟨_, ho⟩
      | table p i => exact ⟨_, hk.tables p i _ ho⟩
    · exact ⟨_, ho⟩

end

/-- **No leak.**  A task whose free lists are empty makes any calls; when it has freed all the blocks
that they returned, and no other block, nothing is left of them: the lists are empty, the bitmaps are
what they were but for new page tables, and no page that was used is mapped. -/
theorem no_leak (hm : Start m₀) (hp : pageMachine.run ⟨m₀, []⟩ ps = some (.ok sp))
    (hd : DescsAt cur descs) (hmem : blockDescInit mem descs = .ok mem₀) {es₀ : List HeapCall}
    (hr₀ : (taskMachine cur descs).run (taskStart mem₀ sp.mem) es₀ = some (.ok t₀))
    (hempty : ListsEmpty descs t₀.task.mem)
    (hr : (taskMachine cur descs).run t₀ es = some (.ok t₁))
    (hold : ∀ b ∈ t₀.live, .free b.ptr ∉ es) (hend : ∀ b ∈ t₁.live, b ∈ t₀.live) :
    NoLeak cur descs t₀ t₁ ∧
      ∀ fs t, fs <+: es → (taskMachine cur descs).run t₀ fs = some (.ok t) →
        ∀ r, (taskLayer cur).runs t.task.pages r → ¬(taskLayer cur).runs t₀.task.pages r →
          ∀ q, Run.Has ⟨cur, r.1, r.2⟩ q → present t₁.task.pages.mem q = false := by
  have h₀ := (task_run hd (taskInv_start hm hp hmem) hr₀).1 t₀ rfl
  have hself : TaskSince cur descs (stuckAt m₀) t₀ t₀ := ⟨h₀, fun _ hb => hb, Since.refl _⟩
  have h₁ := taskSince_run hd h₀ hself hold hr
  have hruns : ∀ r, (taskLayer cur).runs t₁.task.pages r → (taskLayer cur).runs t₀.task.pages r :=
    fun r hr => runs_of_freed h₀ h₁ hend hr
  have hk : Keeps (fun _ => False) t₀.task.pages.mem t₁.task.pages.mem := by
    refine h₁.pages.keeps.mono ?_
    rintro q ⟨⟨d, a, n⟩, rfl, hr, hn, -⟩
    exact hn (hruns (a, n) hr)
  have hi₀ := h₀.pages.settled
  have hi₁ := h₁.inv.pages.settled
  refine ⟨⟨?_, ?_, fun i hi => ?_, hk.frames, fun k j hj => frameBit_same hi₀ hi₁ hk hj⟩,
    fun fs t hfs ht r hr hn q hq => ?_⟩
  · exact listsEmpty_of_same h₀ h₁.inv hruns (fun b => ⟨hend b, h₁.live b⟩) hempty
  · exact btmpBytesLen_same hi₀ hi₁ hk cur
  · refine vbit_same hi₀ hi₁ hk ?_
    rcases limit_eq hi₀.geo cur with ⟨hl, -⟩ | ⟨hl, -⟩ <;> simp only [hl] <;> omega
  · -- a page of a run given out since `t₀` was free then, so it is now
    have ht := taskSince_run hd h₀ hself (fun b hb hmem => hold b hb (hfs.subset hmem)) ht
    have hmapped := (ht.inv.pages.runs.mapped _ hr).2.2 q hq
    have hlimit : q.2 < limit t₁.task.pages.mem q.1 := by
      rw [hk.limits, ← ht.pages.keeps.limits]
      exact (holds_page hmapped).1
    have hnone : holds t₁.task.pages.mem (.page q) = none := by
      rw [hk.pages q id]
      exact ht.pages.fresh q ⟨_, rfl, hr, hn, hq⟩
    rw [holds] at hnone
    by_contra hpres
    rw [Bool.not_eq_false] at hpres
    rw [if_pos ⟨hlimit, hpres⟩] at hnone
    cases hnone

/-- A kernel thread with one large block. -/
def largeThread : HeapSt (St Unit) :=
  (((taskMachine none kBlockDescs).run threadStart [.malloc 5000]).bind Except.toOption).getD
    threadStart

theorem largeThread_run :
    (taskMachine none kBlockDescs).run threadStart [.malloc 5000] = some (.ok largeThread) := by
  obtain ⟨t, hrun, -⟩ : ∃ t,
      (taskMachine (none : Option Unit) kBlockDescs).run threadStart [.malloc 5000] =
        some (.ok t) ∧ true = true := Machine.run_of_test _ (by decide +kernel)
  unfold largeThread
  rw [hrun]
  rfl

theorem largeThread_live : largeThread.live = [⟨0xc010000c, 5000⟩] := by
  decide +kernel

/-- A small block, a large one and a request that fails; the two blocks are freed. -/
def freedCalls : List HeapCall :=
  [.malloc 1000, .malloc 2000, .malloc 0, .free 0xc010200c, .free 0xc010300c]

theorem no_leak_thread : ∃ t,
    (taskMachine none kBlockDescs).run largeThread freedCalls = some (.ok t) ∧
      NoLeak none kBlockDescs largeThread t := by
  obtain ⟨t, hrun, hlive⟩ : ∃ t,
      (taskMachine none kBlockDescs).run threadStart ([.malloc 5000] ++ freedCalls) =
        some (.ok t) ∧ decide (t.live = [⟨0xc010000c, 5000⟩]) = true :=
    Machine.run_of_test _ (by decide +kernel)
  rw [Machine.run_append _ largeThread_run] at hrun
  have hpages : pageMachine.run ⟨bootMem Unit 0x240000, []⟩ [] =
      some (.ok ⟨bootMem Unit 0x240000, []⟩) := rfl
  have hempty : ListsEmpty kBlockDescs largeThread.task.mem := by
    unfold ListsEmpty
    decide +kernel
  refine ⟨t, hrun, (no_leak (bootMem_start 0x240000) hpages kBlockDescs_at descsMem_init
    largeThread_run hempty hrun (fun b hb => ?_) fun b hb => ?_).1⟩
  · rw [largeThread_live, List.mem_singleton] at hb
    subst hb
    simp [freedCalls]
  · rw [largeThread_live, ← of_decide_eq_true hlive]
    exact hb

end HcOs.Heap
