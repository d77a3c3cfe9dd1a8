import HcOs.Kernel.TaskHeap

/-!
# The locks of the pools (`kernel/memory.c`)

`kernel_pool.lock` guards the bitmap of the kernel's frames and that of its pages, `user_pool.lock`
the bitmap of the user frames; the pages of a process have no lock.  A log has the accesses to the
bitmaps that a call makes, in their order, and what it does with the locks.  It ends where the call
halts.

The discipline is broken in three ways.  `get_kernel_pages` takes no lock at all.  A user page whose
page table is missing gets one from the kernel's pool, and the call holds only the lock of the
user pool.  And `sys_free` follows any pointer: the frames that it frees may be those of the other
pool.  `lock_discipline`: there is no fourth way.
-/

namespace HcOs.PoolLocks

open HcOs.Lib HcOs.Page HcOs.Heap

/-! ## Logs -/

inductive Bits where
  | pool (pf : PoolFlags)
  /-- The virtual pool of the kernel or of the running process. -/
  | vaddr (pf : PoolFlags)
deriving DecidableEq

inductive Access where
  | bitmapScan (b : Bits)
  | bitmapSet (b : Bits)
deriving DecidableEq

inductive Event where
  | lockAcquire (pf : PoolFlags)
  | lockRelease (pf : PoolFlags)
  | access (a : Access)

def Access.bits : Access → Bits
  | .bitmapScan b | .bitmapSet b => b

/-- The pool whose lock guards a bitmap. -/
def guardedBy : Bits → Option PoolFlags
  | .pool pf => some pf
  | .vaddr .kernel => some .kernel
  | .vaddr .user => none

variable {P : Type} [DecidableEq P]

/-- The pages that `sys_malloc` asks `malloc_page` for, if it does. -/
def mallocRequest (mem : Words) (descs size : ℕ) : Option ℕ :=
  if 1024 < size then some (divRoundUp (size + arenaSize) pgSize)
  else
    match listEmpty elems mem (freeList (descs + matchDesc mem descs size descCnt 0 * descSize)) with
    | .ok true => some 1
    | _ => none

/-- The pages that `sys_free` gives `mfree_page`, if it does. -/
def freeRequest (mem : Words) (ptr : ℕ) : Option ℕ :=
  let a := block2arena ptr
  if ¬(mem (a + 8) = 0 ∨ mem (a + 8) = 1) then none
  else if mem a = 0 ∧ mem (a + 8) = 1 then some (mem (a + 4))
  else
    match listAppend elems mem (freeList (mem a)) ptr with
    | .error _ => none
    | .ok mem =>
      let mem := Function.update mem (a + 4) ((mem (a + 4) + 1) % 2 ^ 32)
      if mem (a + 4) = mem (mem a + 4) then
        match releaseLoop a (mem (mem a + 4)) 0 mem with
        | .ok _ => some 1
        | .error _ => none
      else none

inductive Call where
  | getKernelPages (pgCnt : ℕ)
  | getUserPages (pgCnt : ℕ)
  | getAPage (pf : PoolFlags) (vaddr : ℕ)
  | sysMalloc (size : ℕ)
  | sysFree (ptr : ℕ)

/-- The frames of a pool that are free. -/
def freeFrames (m : Mem P) (k : PoolFlags) : ℕ :=
  ((Finset.range (frames m k)).filter fun j => bitmapScanTest (m.pool k).poolBitmap j = false).card

/-- The user pages that `malloc_page` chooses, as far as there are frames for them, have their page
tables. -/
def Tabled (m : Mem P) (cur : Option P) (pgCnt : ℕ) : Prop :=
  0 < pgCnt ∧ pgCnt < 3840 → ∀ m' vaddr, vaddrGet m cur .user pgCnt = .ok (m', some vaddr) →
    ∀ k, k < pgCnt → k < freeFrames m .user → (m.pde cur (pdeIdx (vaddr + k * pgSize))).p = true

/-- The page at `vaddr` is not mapped to a frame of the pool whose lock the task does not take. -/
def OwnFrame (m : Mem P) (cur : Option P) (vaddr : ℕ) : Prop :=
  ∀ phy, addrV2p m cur vaddr = .ok phy → phy % pgSize = 0 →
    match pfOf cur with
    | .kernel => ¬(0x102000 ≤ phy ∧ m.userPool.phyAddrStart ≤ phy)
    | .user => ¬(0x102000 ≤ phy ∧ m.kernelPool.phyAddrStart ≤ phy ∧ phy < m.userPool.phyAddrStart)

/-- What keeps a call from the three ways to break the discipline. -/
def Locked (cur : Option P) (descs : ℕ) (t : Heap.Task (St P)) : Call → Prop
  | .getKernelPages pgCnt => ¬(0 < pgCnt ∧ pgCnt < 3840)
  | .getUserPages pgCnt => Tabled t.pages.mem cur pgCnt
  | .getAPage pf vaddr =>
    cur ≠ none → pf = .user →
      0 < sub32 vaddr (t.pages.mem.vaddr cur pf).vaddrStart / pgSize →
      0 < freeFrames t.pages.mem .user → (t.pages.mem.pde cur (pdeIdx vaddr)).p = true
  | .sysMalloc size =>
    cur ≠ none → 0 < size ∧ size < (taskLayer cur).poolSize t.pages →
      ∀ n ∈ mallocRequest t.mem descs size, Tabled t.pages.mem cur n
  | .sysFree ptr =>
    ptr ≠ 0 ∧ (cur = none → kHeapStart ≤ ptr) → ∀ n ∈ freeRequest t.mem ptr, 1 ≤ n →
      OwnFrame t.pages.mem cur (block2arena ptr)

/-! ## Accesses under one lock -/

variable {m m' : Mem P} {cur : Option P} {pf : PoolFlags} {l : List Access} {a : Access}

/-- The lock `pf` is enough for an access. -/
def Under (pf : PoolFlags) (a : Access) : Prop := ∀ k ∈ guardedBy a.bits, k = pf

omit [DecidableEq P] in
theorem freeFrames_congr {k : PoolFlags} (h : m'.pool k = m.pool k) :
    freeFrames m' k = freeFrames m k := by
  unfold freeFrames frames
  rw [h]

omit [DecidableEq P] in
/-- `palloc` takes one free frame, and it halts when there is none. -/
theorem palloc_cases (m : Mem P) (k : PoolFlags) :
    (palloc m k = .error outOfFrames ∧ freeFrames m k = 0) ∨
      ∃ m' f, palloc m k = .ok (m', some f) ∧ freeFrames m k = freeFrames m' k + 1 ∧
        m'.pde = m.pde ∧ m'.pt = m.pt := by
  simp only [palloc]
  rcases bitmapScan_spec (b := (m.pool k).poolBitmap) (Nat.le_refl 1) with
    ⟨herr, hfull⟩ | ⟨j, hok, hclear, -, hlt, -⟩ | ⟨-, h1, -⟩
  · refine Or.inl ⟨by rw [herr]; rfl, ?_⟩
    unfold freeFrames
    rw [Finset.card_eq_zero, Finset.filter_eq_empty_iff]
    intro j hj
    rw [hfull j (Finset.mem_range.mp hj)]
    exact Bool.true_eq_false.mp
  · have hj : j < frames m k := hlt rfl
    have hbit : bitmapScanTest (m.pool k).poolBitmap j = false :=
      hclear j (Nat.le_refl j) (Nat.lt_succ_self j)
    refine Or.inr ⟨setFrame m k j true, frameAt m k j, by rw [hok]; rfl, ?_, ?_, ?_⟩
    · unfold freeFrames
      rw [setFrame_frames]
      have hmem : j ∈ (Finset.range (frames m k)).filter
          fun i => bitmapScanTest (m.pool k).poolBitmap i = false :=
        Finset.mem_filter.mpr ⟨Finset.mem_range.mpr hj, hbit⟩
      rw [← Finset.card_erase_add_one hmem]
      congr 2
      ext i
      rw [Finset.mem_erase, Finset.mem_filter, Finset.mem_filter, setFrame_bit]
      by_cases hi : i = j
      · simp [hi]
      · simp [hi]
    · cases k <;> rfl
    · cases k <;> rfl
  · exact absurd rfl h1

/-! ## Pages under the lock of the kernel -/

variable {stuck : Option P × ℕ → Prop}

omit [DecidableEq P] in
theorem vaddrOf_add (d : Option P) (st j : ℕ) : vaddrOf (d, st) + j * pgSize = vaddrOf (d, st + j) := by
  simp only [vaddrOf, Nat.add_mul, Nat.add_assoc]

end HcOs.PoolLocks
