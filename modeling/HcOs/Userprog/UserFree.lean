import HcOs.Kernel.TaskHeap
import HcOs.Userprog.PageDir

/-!
# What a process can do to the kernel by `free`

The system call `free` hands its argument to `sys_free` as it is.  For a kernel thread `sys_free`
asserts that the pointer is not below the heap of the kernel; for a process it asserts nothing, and
it finds the header of the arena by masking the pointer.

The machine of this module is one process in a system that is open: the process calls `malloc` and
`free` with any argument and writes to any word of its own memory, the kernel writes to any word of
its memory but the descriptors of the process, and all other tasks make any page calls.

* `kernel_kept`: as long as the process frees blocks that it has and keeps its hands off the headers
  and the free blocks of its arenas, a `free` changes nothing of the kernel.
* `kernel_block_freed`: the pointer of another task's block is freed as well.
-/

namespace HcOs.UserFree

open HcOs.Lib HcOs.Page HcOs.Heap HcOs.PageDir

variable {P : Type} [DecidableEq P]

/-! ## The machine -/

/-- The first address of the kernel. -/
def kernelBase : ℕ := 0xc0000000

inductive Event (P : Type) where
  | malloc (size : ℕ)
  | free (ptr : ℕ)
  /-- The process writes a word of its own memory. -/
  | write (addr val : ℕ)
  /-- The kernel writes a word, for whatever task. -/
  | kernelWrite (addr val : ℕ)
  /-- A page call for another virtual pool. -/
  | pageCall (c : Call P)

def setWord (t : HeapSt (St P)) (addr val : ℕ) : HeapSt (St P) :=
  { t with task := { t.task with mem := Function.update t.task.mem addr (val % 2 ^ 32) } }

/-- The blocks without the one that is freed, if there is one. -/
def freeBlock (live : List Block) (ptr : ℕ) : List Block :=
  match live.find? fun b => b.ptr = ptr with
  | none => live
  | some b => live.erase b

/-- The process `p` with its descriptors at `descs`, which are a part of its PCB. -/
def userMachine (p : P) (descs : ℕ) : Machine (HeapSt (St P)) (Event P) Halt where
  step t
    | .malloc size => heapStep (taskLayer (some p)) descs false t (.malloc size)
    | .free ptr => some (do
        let t' ← sysFree (taskLayer (some p)) false t.task ptr
        .ok ⟨t', freeBlock t.live ptr⟩)
    | .write addr val =>
      if addr % 4 = 0 ∧ addr < kernelBase then some (.ok (setWord t addr val)) else none
    | .kernelWrite addr val =>
      if addr % 4 = 0 ∧ kernelBase ≤ addr ∧ (addr < descs ∨ descs + 168 ≤ addr) then
        some (.ok (setWord t addr val))
      else none
    | .pageCall c =>
      if poolOfCall c ≠ some p then
        (pageStep t.task.pages c).map (Except.map fun k => ⟨{ t.task with pages := k }, t.live⟩)
      else none

/-- The process frees only blocks it has, and it writes to its blocks or outside its arenas. -/
def Proper (p : P) (t : HeapSt (St P)) : Event P → Prop
  | .free ptr => ∃ b ∈ t.live, b.ptr = ptr
  | .write addr _ => (∃ b ∈ t.live, b.ptr ≤ addr ∧ addr < b.ptr + b.size) ∨
      ∀ r ∈ t.task.pages.runs, r.pool = some p → addr < r.vaddr ∨ r.vaddr + r.pgCnt * 4096 ≤ addr
  | .malloc _ | .kernelWrite _ _ | .pageCall _ => True

instance (p : P) (t : HeapSt (St P)) (e : Event P) : Decidable (Proper p t e) :=
  match e with
  | .free ptr => inferInstanceAs (Decidable (∃ b ∈ t.live, b.ptr = ptr))
  | .write addr _ => inferInstanceAs (Decidable (
      (∃ b ∈ t.live, b.ptr ≤ addr ∧ addr < b.ptr + b.size) ∨
        ∀ r ∈ t.task.pages.runs, r.pool = some p → addr < r.vaddr ∨ r.vaddr + r.pgCnt * 4096 ≤ addr))
  | .malloc _ | .kernelWrite _ _ | .pageCall _ => inferInstanceAs (Decidable True)

/-- A process before its first call: pages that it got before, such as its stack, are not pages of
its heap. -/
def userStart (p : P) (mem₀ : Words) (s : St P) : HeapSt (St P) :=
  ⟨⟨mem₀, ⟨s.mem, s.runs.filter fun r => r.pool ≠ some p⟩⟩, []⟩

/-- The call leaves the memory of the kernel alone, with `k_block_descs`, its free lists and all its
arenas, and the kernel's physical and virtual pool; the descriptors of the process itself are the
exception. -/
structure KernelKept (descs : ℕ) (t t' : Heap.Task (St P)) : Prop where
  words : ∀ w, kernelBase ≤ w → (w < descs ∨ descs + 168 ≤ w) → t'.mem w = t.mem w
  pool : t'.pages.mem.kernelPool = t.pages.mem.kernelPool
  vaddr : t'.pages.mem.kernelVaddr = t.pages.mem.kernelVaddr

variable {p : P} {cur : Option P} {descs : ℕ} {stuck : Option P × ℕ → Prop} {m m' : Mem P}
variable {s s' : St P} {t t' : HeapSt (St P)}

/-! ## Freeing pages of a process -/

omit [DecidableEq P] in
/-- `pfree` of a frame of the user pool. -/
theorem pfree_kernelPool {f : ℕ} (hf : m.userPool.phyAddrStart ≤ f) :
    (pfree m f).kernelPool = m.kernelPool ∧ (pfree m f).kernelVaddr = m.kernelVaddr := by
  unfold pfree
  rw [if_pos hf]
  exact ⟨rfl, rfl⟩

omit [DecidableEq P] in
/-- The loop checks each frame before it frees it. -/
theorem mfreeLoop_user {condition : String} {n vaddr : ℕ}
    (h : mfreeLoop cur (fun m a => decide (m.userPool.phyAddrStart ≤ a)) condition n vaddr m =
      .ok m') : m'.kernelPool = m.kernelPool ∧ m'.kernelVaddr = m.kernelVaddr := by
  induction n generalizing vaddr m with
  | zero =>
    cases h
    exact ⟨rfl, rfl⟩
  | succ n ih =>
    unfold mfreeLoop at h
    obtain ⟨f, -, h⟩ := bind_eq_ok.mp h
    obtain ⟨⟨-, hpool⟩, h⟩ := assert_bind_eq_ok.mp h
    obtain ⟨hp, hv⟩ := pfree_kernelPool (of_decide_eq_true hpool)
    obtain ⟨hp', hv'⟩ := ih h
    exact ⟨hp'.trans hp, hv'.trans hv⟩

/-- **`mfree_page`** of a run of a process. -/
theorem mfree_kept (hi : PageInv s stuck) {r : ℕ × ℕ} (hr : (taskLayer (some p)).runs s r)
    (h : (taskLayer (some p)).mfreePage s r.1 r.2 = .ok s') :
    s'.mem.kernelPool = s.mem.kernelPool ∧ s'.mem.kernelVaddr = s.mem.kernelVaddr := by
  obtain ⟨⟨st, hst⟩, hn, hall⟩ := hi.runs.mapped _ hr
  simp only at hst hn
  have hfirst : Run.Has ⟨some p, r.1, r.2⟩ (some p, st) :=
    (Run.has_iff (r := ⟨some p, r.1, r.2⟩) hst).mpr ⟨rfl, Nat.le_refl _, by simp only; omega⟩
  obtain ⟨j, hj, hv2p, -⟩ := addrV2p_spec hi.settled (Or.inr rfl) (hall _ hfirst)
  -- the first frame is one of the user pool, so the loop is that of user pages
  have huser := (frameAt_range hi.settled.geo hj).2.2.2.2.mpr rfl
  simp only [taskLayer] at h
  obtain ⟨m', hfree, hs'⟩ := bind_eq_ok.mp h
  cases hs'
  unfold mfreePage at hfree
  obtain ⟨-, hfree⟩ := assert_bind_eq_ok.mp hfree
  rw [hst, hv2p, ok_bind] at hfree
  obtain ⟨-, hfree⟩ := assert_bind_eq_ok.mp hfree
  rw [if_pos huser] at hfree
  obtain ⟨m₁, hloop, hremove⟩ := bind_eq_ok.mp hfree
  cases hremove
  show m₁.kernelPool = s.mem.kernelPool ∧ m₁.kernelVaddr = s.mem.kernelVaddr
  exact mfreeLoop_user hloop

/-! ## The invariant -/

/-- All arenas of a process lie below the kernel. -/
theorem arena_below (hi : PageInv s stuck) {r : ℕ × ℕ} (hr : (taskLayer (some p)).runs s r) :
    r.1 + r.2 * 4096 ≤ kernelBase := by
  obtain ⟨⟨st, hst⟩, hn, hall⟩ := hi.runs.mapped _ hr
  simp only at hst hn
  have hlast : Run.Has ⟨some p, r.1, r.2⟩ (some p, st + r.2 - 1) :=
    (Run.has_iff (r := ⟨some p, r.1, r.2⟩) hst).mpr ⟨rfl, by simp only; omega, by simp only; omega⟩
  have hlimit := (holds_page (hall _ hlast)).1
  have hlt : st + r.2 - 1 < 753592 := by
    rcases limit_le hi.settled.geo hlimit with ⟨hp, -⟩ | ⟨-, hlt⟩
    · cases hp
    · exact hlt
  rw [hst]
  simp only [vaddrOf, poolStart, userVaddrStart, pgSize, kernelBase]
  omega

/-- A page call for another pool leaves the runs of the process as they are. -/
theorem pageCall_runs {c : Call P} (hc : poolOfCall c ≠ some p)
    (hs : pageStep s c = some (.ok s')) (r : ℕ × ℕ) :
    (taskLayer (some p)).runs s' r ↔ (taskLayer (some p)).runs s r := by
  simp only [taskLayer]
  cases c with
  | mallocPage cur pf n =>
    simp only [pageStep, Option.some.injEq] at hs
    obtain ⟨⟨m', v⟩, -, hs⟩ := bind_eq_ok.mp hs
    cases v with
    | none =>
      cases hs
      exact Iff.rfl
    | some v =>
      cases hs
      rw [List.mem_cons]
      refine or_iff_right fun heq => hc ?_
      rw [Run.mk.injEq] at heq
      exact heq.1.symm
  | mfreePage cur r' =>
    simp only [pageStep] at hs
    split at hs
    · obtain ⟨m', -, hs⟩ := bind_eq_ok.mp (Option.some.inj hs)
      cases hs
      refine List.mem_erase_of_ne ?_
      rintro rfl
      exact hc rfl
    · cases hs
  | getAPage cur pf vaddr =>
    simp only [pageStep] at hs
    split at hs
    · obtain ⟨⟨m', v⟩, -, hs⟩ := bind_eq_ok.mp (Option.some.inj hs)
      cases hs
      exact Iff.rfl
    · cases hs

/-- The step of a proper `free` is that of the heap. -/
theorem free_eq {b : Block} {ptr : ℕ} (hb : b ∈ t.live) (hptr : b.ptr = ptr) :
    (userMachine p descs).step t (.free ptr) =
      heapStep (taskLayer (some p)) descs false t (.free ptr) := by
  simp only [userMachine, heapStep, freeBlock]
  cases hf : t.live.find? fun b => b.ptr = ptr with
  | none => simpa [hptr] using List.find?_eq_none.mp hf b hb
  | some b' => rfl

theorem user_step {e : Event P} (hd : kernelBase ≤ descs) (h : TaskInv (some p) descs stuck t)
    (hp : Proper p t e) (hs : (userMachine p descs).step t e = some (.ok t')) :
    TaskInv (some p) descs stuck t' := by
  have hC : Contract (taskLayer (some p)) descs (poolStart (some p)) fun s => PageInv s stuck :=
    taskLayer_contract hd
  have hheap : ∀ c, heapStep (taskLayer (some p)) descs false t c = some (.ok t') →
      TaskInv (some p) descs stuck t' := by
    intro c hs
    rcases heap_step hC Bool.noConfusion h hs with ⟨x, hx, -⟩ | ⟨t₁, ht₁, hinv, -⟩
    · cases hx
    · cases ht₁
      exact hinv
  cases e with
  | malloc size => exact hheap (.malloc size) hs
  | free ptr =>
    obtain ⟨b, hb, hptr⟩ := hp
    rw [free_eq hb hptr] at hs
    exact hheap _ hs
  | write addr val =>
    simp only [userMachine] at hs
    split at hs
    · next hc =>
      cases hs
      rcases hp with ⟨b, hb, hlo, hhi⟩ | hout
      · exact write_inv h hb hlo hhi _
      · refine write_outside h ⟨Or.inl ?_, fun r hr => hout _ hr rfl⟩ _
        omega
    · cases hs
  | kernelWrite addr val =>
    simp only [userMachine] at hs
    split at hs
    · next hc =>
      cases hs
      refine write_outside h ⟨hc.2.2, fun r hr => Or.inr ?_⟩ _
      have := arena_below h.pages hr
      omega
    · cases hs
  | pageCall c =>
    simp only [userMachine] at hs
    split at hs
    · next hc =>
      obtain ⟨k, hk, rfl⟩ := Machine.ok_of_map hs
      refine h.congr ?_ (pageCall_runs hc hk)
      rcases page_step h.pages hk with ⟨x, hx, -⟩ | ⟨k', hk', hinv⟩
      · cases hx
      · cases hk'
        exact hinv
    · cases hs

theorem user_run (hd : kernelBase ≤ descs) (h : TaskInv (some p) descs stuck t) {es : List (Event P)}
    (hr : ((userMachine p descs).guard (Proper p)).run t es = some (.ok t')) :
    TaskInv (some p) descs stuck t' :=
  Machine.run_guard_ok (fun _ _ _ hi hp hs => user_step hd hi hp hs) h hr

theorem userStart_inv {m₀ : Mem P} {ps : List (Call P)} {mem mem₀ : Words} (hm : Start m₀)
    (hp : pageMachine.run ⟨m₀, []⟩ ps = some (.ok s)) (hmem : blockDescInit mem descs = .ok mem₀) :
    TaskInv (some p) descs (stuckAt m₀) (userStart p mem₀ s) := by
  have hi := page_run hm hp
  refine heapInv_start hmem ⟨hi.settled, fun r hr => ?_, ?_⟩ fun r hr => ?_
  · exact hi.runs.mapped r (List.mem_of_mem_filter hr)
  · exact hi.runs.disjoint.filter _
  · simp [taskLayer] at hr

/-! ## Main result -/

/-- A `free` of a live block. -/
theorem free_kept (hd : kernelBase ≤ descs) (h : TaskInv (some p) descs stuck t) {b : Block}
    (hb : b ∈ t.live) :
    ∃ t', sysFree (taskLayer (some p)) false t.task b.ptr = .ok t' ∧ KernelKept descs t.task t' := by
  have hC : Contract (taskLayer (some p)) descs (poolStart (some p)) fun s => PageInv s stuck :=
    taskLayer_contract hd
  have hspec := sysFree_spec hC h (show false = true → _ from nofun) hb
  have hwords : ∀ t', sysFree (taskLayer (some p)) false t.task b.ptr = .ok t' →
      ∀ w, kernelBase ≤ w → (w < descs ∨ descs + 168 ≤ w) → t'.mem w = t.task.mem w := by
    intro t' hfree w hlo hw
    refine sysFree_words h hb hfree ⟨hw, fun r hr => Or.inr ?_⟩
    exact (arena_below h.pages hr).trans hlo
  cases hfree : sysFree (taskLayer (some p)) false t.task b.ptr with
  | error x =>
    rw [hfree] at hspec
    cases hspec with
    | halt hr hx =>
      obtain ⟨m', st, -, hok, -⟩ := layer_mfree h.pages hr
      rw [hok] at hx
      cases hx
  | ok t' =>
    rw [hfree] at hspec
    refine ⟨t', rfl, ?_⟩
    cases hspec with
    | keep hinv hp =>
      refine ⟨hwords t' hfree, ?_, ?_⟩ <;> rw [hp]
    | release hinv hr hp =>
      obtain ⟨hpool, hvaddr⟩ := mfree_kept h.pages hr hp
      exact ⟨hwords t' hfree, hpool, hvaddr⟩

/-- **`free` and the kernel.**  In every run in which the process frees only blocks that it has, and
writes to no header and no free block of its arenas, each such `free` returns and changes nothing of
the kernel, whatever the kernel and the other tasks do in between. -/
theorem kernel_kept {m₀ : Mem P} {ps : List (Call P)} {mem mem₀ : Words} {es : List (Event P)}
    {ptr : ℕ} (hm : Start m₀) (hp : pageMachine.run ⟨m₀, []⟩ ps = some (.ok s))
    (hd : kernelBase ≤ descs) (hmem : blockDescInit mem descs = .ok mem₀)
    (hr : ((userMachine p descs).guard (Proper p)).run (userStart p mem₀ s) es = some (.ok t))
    (hptr : Proper p t (.free ptr)) :
    ∃ t', (userMachine p descs).step t (.free ptr) = some (.ok t') ∧
      KernelKept descs t.task t'.task := by
  obtain ⟨b, hb, rfl⟩ := hptr
  obtain ⟨t', hfree, hkept⟩ := free_kept hd (user_run hd (userStart_inv hm hp hmem) hr) hb
  refine ⟨⟨t', freeBlock t.live b.ptr⟩, ?_, hkept⟩
  simp only [userMachine]
  rw [hfree]
  rfl

/-! ## A block of the kernel -/

/-- A place for `u_block_desc` in a PCB that `get_kernel_pages` returned. -/
def uBlockDesc : ℕ := 0xc0102100

/-- The pages when a kernel thread has its large block and a process has its PCB. -/
def pcbPages : St Unit :=
  ((pageMachine.run largeThread.task.pages [.mallocPage none .kernel 1]).bind
    Except.toOption).getD largeThread.task.pages

theorem pcbPages_run :
    pageMachine.run largeThread.task.pages [.mallocPage none .kernel 1] = some (.ok pcbPages) := by
  obtain ⟨s, hrun, -⟩ : ∃ s, pageMachine.run largeThread.task.pages [.mallocPage none .kernel 1] =
      some (.ok s) ∧ true = true := Machine.run_of_test _ (by decide +kernel)
  unfold pcbPages
  rw [hrun]
  rfl

/-- A large block is one page call. -/
theorem mallocLarge_pages {K : Type} {L : PageLayer K} {t t' : Heap.Task K} {size : ℕ}
    {ptr : Option ℕ} (h : mallocLarge L t size = .ok (t', ptr)) :
    ∃ a, L.mallocPage t.pages (divRoundUp (size + arenaSize) pgSize) = .ok (t'.pages, a) := by
  obtain ⟨⟨k, a⟩, hpage, h⟩ := bind_eq_ok.mp h
  cases a with
  | none =>
    cases h
    exact ⟨none, hpage⟩
  | some a =>
    obtain ⟨mem, -, h⟩ := bind_eq_ok.mp h
    cases h
    exact ⟨some a, hpage⟩

theorem largeThread_pages :
    pageMachine.run ⟨bootMem Unit 0x240000, []⟩ [.mallocPage none .kernel 2] =
      some (.ok largeThread.task.pages) := by
  rcases Machine.run_cons_cases _ largeThread_run with ⟨t, hs, hnil⟩ | ⟨x, -, -, hx⟩
  · cases hnil
    simp only [taskMachine, heapMachine, heapStep, Option.some.injEq] at hs
    obtain ⟨⟨t, ptr⟩, hmalloc, hs⟩ := bind_eq_ok.mp hs
    have hlarge : mallocLarge (taskLayer none) threadStart.task 5000 = .ok (t, ptr) := by
      rw [← hmalloc]
      rfl
    obtain ⟨a, hpage⟩ := mallocLarge_pages hlarge
    have ht : largeThread.task = t := by
      cases ptr <;> rw [← Except.ok.inj hs]
    rw [ht]
    exact Machine.run_cons_ok _ (pageStep_of_layer hpage) []
  · cases hx

def userMem : Words := (blockDescInit largeThread.task.mem uBlockDesc).toOption.getD fun _ => 0

theorem userMem_init : blockDescInit largeThread.task.mem uBlockDesc = .ok userMem := by
  obtain ⟨mem', hinit, -⟩ := blockDescInit_spec largeThread.task.mem uBlockDesc
  unfold userMem
  rw [hinit]
  rfl

/-- A block, words of the block and of the stack, and a page of the kernel. -/
def userEvents : List (Event Unit) :=
  [.malloc 100, .write 0x804800c 7, .write 0xbffff000 7, .kernelWrite 0xc0100000 7,
    .pageCall (.mallocPage none .kernel 1), .malloc 2000]

theorem kernel_kept_block : ∃ t t',
    ((userMachine () uBlockDesc).guard (Proper ())).run (userStart () userMem pcbPages) userEvents =
        some (.ok t) ∧
      (userMachine () uBlockDesc).step t (.free 0x804800c) = some (.ok t') ∧
      KernelKept uBlockDesc t.task t'.task := by
  obtain ⟨t, hrun, hlive⟩ : ∃ t,
      ((userMachine () uBlockDesc).guard (Proper ())).run (userStart () userMem pcbPages) userEvents =
        some (.ok t) ∧ decide (t.live = [⟨0x804900c, 2000⟩, ⟨0x804800c, 100⟩]) = true :=
    Machine.run_of_test _ (by decide +kernel)
  have hpages : pageMachine.run ⟨bootMem Unit 0x240000, []⟩
      ([.mallocPage none .kernel 2] ++ [.mallocPage none .kernel 1]) = some (.ok pcbPages) := by
    rw [Machine.run_append _ largeThread_pages]
    exact pcbPages_run
  have hptr : Proper () t (.free 0x804800c) := by
    refine ⟨⟨0x804800c, 100⟩, ?_, rfl⟩
    rw [of_decide_eq_true hlive]
    exact List.mem_cons_of_mem _ List.mem_cons_self
  obtain ⟨t', hfree, hkept⟩ := kernel_kept (bootMem_start 0x240000) hpages (by decide) userMem_init
    hrun hptr
  exact ⟨t, t', hrun, hfree, hkept⟩

/-- A kernel thread has a block of 5000 bytes, and a process that has made no call yet frees it: the
frames of the kernel are given back to the kernel's pool. -/
theorem kernel_block_freed : ∃ t',
    (taskMachine none kBlockDescs).run threadStart [.malloc 5000] = some (.ok largeThread) ∧
      largeThread.live = [⟨0xc010000c, 5000⟩] ∧
      pageMachine.run largeThread.task.pages [.mallocPage none .kernel 1] = some (.ok pcbPages) ∧
      blockDescInit largeThread.task.mem uBlockDesc = .ok userMem ∧
      (userMachine () uBlockDesc).step (userStart () userMem pcbPages) (.free 0xc010000c) =
        some (.ok t') ∧
      ¬KernelKept uBlockDesc (userStart () userMem pcbPages).task t'.task := by
  obtain ⟨t', hrun, hbit⟩ : ∃ t',
      (userMachine () uBlockDesc).run (userStart () userMem pcbPages) [.free 0xc010000c] =
        some (.ok t') ∧
      decide (bitmapScanTest t'.task.pages.mem.kernelPool.poolBitmap 0 = false) = true :=
    Machine.run_of_test _ (by decide +kernel)
  have hset : bitmapScanTest pcbPages.mem.kernelPool.poolBitmap 0 = true := by decide +kernel
  refine ⟨t', largeThread_run, largeThread_live, pcbPages_run, userMem_init, ?_, fun hkept => ?_⟩
  · rcases Machine.run_cons_cases _ hrun with ⟨t₁, hs, hnil⟩ | ⟨x, -, -, hx⟩
    · cases hnil
      exact hs
    · cases hx
  · have hclear := of_decide_eq_true hbit
    rw [hkept.pool] at hclear
    exact Bool.false_ne_true (hclear.symm.trans hset)

end HcOs.UserFree
