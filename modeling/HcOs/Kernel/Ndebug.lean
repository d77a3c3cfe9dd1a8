import HcOs.Kernel.BitmapScan
import HcOs.Kernel.PoolLocks

/-!
# Page allocation without assertions

With `NDEBUG` the macro `ASSERT` expands to nothing, while `PANIC` stays.  A pool that is exhausted
is then reported: `bitmap_scan` returns -1, and `palloc`, `vaddr_get`, `malloc_page` and
`get_a_page` return `NULL`.  `page_table_add` does not look at the result of its `palloc` and takes
the frame 0 for a page table.

The machine has any number of threads, which allocate and free pages with any arguments and take and
release the locks of the pools.  Of a lock the threads that wait for it are left out; a call that
has to wait takes place when the lock is free.

* `atomic_iff`: a call that returns leaves everything as it was whenever its result is `NULL`,
  exactly when it does not run out of frames: `malloc_page` has no rollback, and `get_a_page` keeps
  the lock as well.
-/

namespace HcOs.Ndebug

open HcOs.Lib HcOs.Page HcOs.PoolLocks

/-! ## The functions -/

/-- `bitmap_scan`; `none` is the result -1. -/
def bitmapScan (btmp : Bitmap) (cnt : ℕ) : Option ℕ :=
  let idxByte := scanByte btmp btmp.btmpBytesLen 0
  if idxByte = btmp.btmpBytesLen then none
  else
    let idxBit := scanBit (btmp.bits idxByte) 8 0
    let bitIdxStart := idxByte * 8 + idxBit
    if cnt = 1 then some bitIdxStart
    else scanRun btmp cnt (btmp.btmpBytesLen * 8 - bitIdxStart) (bitIdxStart + 1) 1

variable {P : Type} [DecidableEq P]

/-- `vaddr_get`; `none` is `NULL`. -/
def vaddrGet (m : Mem P) (cur : Option P) (pf : PoolFlags) (pgCnt : ℕ) : Mem P × Option ℕ :=
  let v := m.vaddr cur pf
  match bitmapScan v.vaddrBitmap pgCnt with
  | none => (m, none)
  | some start =>
    (m.setVaddr cur { v with vaddrBitmap := bitmapSetRun v.vaddrBitmap start true pgCnt } pf,
      some (v.vaddrStart + start * pgSize))

/-- `palloc`; `none` is `NULL`. -/
def palloc (m : Mem P) (pf : PoolFlags) : Mem P × Option ℕ :=
  let pool := m.pool pf
  match bitmapScan pool.poolBitmap 1 with
  | none => (m, none)
  | some i =>
    (m.setPool { pool with poolBitmap := bitmapSet pool.poolBitmap i true } pf,
      some (i * pgSize + pool.phyAddrStart))

/-- `page_table_add`. -/
def pageTableAdd (m : Mem P) (cur : Option P) (vaddr pagePhyaddr : ℕ) : Except Halt (Mem P) :=
  if (m.pde cur (pdeIdx vaddr)).p then
    if (m.pte cur vaddr).p = false then .ok (m.setPte cur vaddr ⟨pagePhyaddr, true⟩)
    else .error (.panic "page_table_add" "pte repeat")
  else
    let (m, pdePhyaddr) := palloc m .kernel
    let table := pdePhyaddr.getD 0
    let m := { m with
      pde := Function.update m.pde cur (Function.update (m.pde cur) (pdeIdx vaddr) ⟨table, true⟩)
      pt := Function.update m.pt table fun _ => ⟨0, false⟩ }
    .ok (m.setPte cur vaddr ⟨pagePhyaddr, true⟩)

/-- The loop of `malloc_page`; `false` when a frame is missing. -/
def mallocLoop (cur : Option P) (pf : PoolFlags) : ℕ → ℕ → Mem P → Except Halt (Mem P × Bool)
  | 0, _, m => .ok (m, true)
  | cnt + 1, vaddr, m =>
    match palloc m pf with
    | (m, none) => .ok (m, false)
    | (m, some f) => do
      let m ← pageTableAdd m cur vaddr f
      mallocLoop cur pf cnt (vaddr + pgSize) m

/-- `malloc_page`; `none` is `NULL`. -/
def mallocPage (m : Mem P) (cur : Option P) (pf : PoolFlags) (pgCnt : ℕ) :
    Except Halt (Mem P × Option ℕ) :=
  match vaddrGet m cur pf pgCnt with
  | (m, none) => .ok (m, none)
  | (m, some vaddr) => do
    let (m, done) ← mallocLoop cur pf pgCnt vaddr m
    .ok (m, if done then some vaddr else none)

/-- The loop of `mfree_page`; its two branches differ in their assertions only. -/
def mfreeLoop (cur : Option P) : ℕ → ℕ → Mem P → Except Halt (Mem P)
  | 0, _, m => .ok m
  | cnt + 1, vaddr, m => do
    let pgPhyAddr ← addrV2p m cur vaddr
    let m := pfree m pgPhyAddr
    let m := pageTablePteRemove m cur vaddr
    mfreeLoop cur cnt (vaddr + pgSize) m

/-- `mfree_page`. -/
def mfreePage (m : Mem P) (cur : Option P) (pf : PoolFlags) (vaddr pgCnt : ℕ) :
    Except Halt (Mem P) := do
  let _ ← addrV2p m cur vaddr
  let m ← mfreeLoop cur pgCnt vaddr m
  .ok (vaddrRemove m cur pf vaddr pgCnt)

/-! ## The locks of the pools -/

/-- `struct lock`; `value` is that of its semaphore. -/
structure PoolLock (T : Type) where
  holder : Option T
  holderRepeatNr : ℕ
  value : ℕ

variable {T : Type} [DecidableEq T]

/-- `lock_acquire`; `none` as long as it waits. -/
def lockAcquire (plock : PoolLock T) (t : T) : Option (PoolLock T) :=
  if plock.holder ≠ some t then
    if plock.value = 0 then none else some ⟨some t, 1, plock.value - 1⟩
  else some { plock with holderRepeatNr := (plock.holderRepeatNr + 1) % 2 ^ 32 }

/-- `lock_release`. -/
def lockRelease (plock : PoolLock T) : PoolLock T :=
  if 1 < plock.holderRepeatNr then { plock with holderRepeatNr := plock.holderRepeatNr - 1 }
  else ⟨none, 0, (plock.value + 1) % 2 ^ 8⟩

structure State (P T : Type) where
  mem : Mem P
  lock : PoolFlags → PoolLock T

/-- `get_a_page` by the thread `t` of the task `cur`, with `none` for `NULL`; there is no outcome as
long as the call waits for the lock. -/
def getAPage (s : State P T) (t : T) (cur : Option P) (pf : PoolFlags) (vaddr : ℕ) :
    Option (Except Halt (State P T × Option ℕ)) :=
  match lockAcquire (s.lock pf) t with
  | none => none
  | some plock =>
    let v := s.mem.vaddr cur pf
    let bitIdx := sub32 vaddr v.vaddrStart / pgSize
    some (
      if (cur ≠ none ∧ pf = .user) ∨ (cur = none ∧ pf = .kernel) then
        let m := s.mem.setVaddr cur { v with vaddrBitmap := bitmapSet v.vaddrBitmap bitIdx true } pf
        match palloc m pf with
        | (m, none) => .ok (⟨m, Function.update s.lock pf plock⟩, none)
        | (m, some f) => do
          let m ← pageTableAdd m cur vaddr f
          .ok (⟨m, Function.update s.lock pf (lockRelease plock)⟩, some vaddr)
      else
        .error (.panic "get_a_page"
          "get_a_page: not allow kernel alloc userspace or user alloc kernelspace by get_a_page."))

/-! ## The machine -/

inductive Call (T : Type) where
  | mallocPage (t : T) (pf : PoolFlags) (pgCnt : ℕ)
  | getAPage (t : T) (pf : PoolFlags) (vaddr : ℕ)

inductive Event (T : Type) where
  | alloc (c : Call T)
  | mfreePage (t : T) (pf : PoolFlags) (vaddr pgCnt : ℕ)
  | lockAcquire (t : T) (pf : PoolFlags)
  | lockRelease (pf : PoolFlags)

section

variable (pgdir : T → Option P)

/-- An allocation, with its result; `pgdir` gives the task of a thread. -/
def alloc (s : State P T) : Call T → Option (Except Halt (State P T × Option ℕ))
  | .mallocPage t pf pgCnt =>
    some ((mallocPage s.mem (pgdir t) pf pgCnt).map fun r => (⟨r.1, s.lock⟩, r.2))
  | .getAPage t pf vaddr => getAPage s t (pgdir t) pf vaddr

def machine : Machine (State P T) (Event T) Halt where
  step s
    | .alloc c => (alloc pgdir s c).map (Except.map Prod.fst)
    | .mfreePage t pf vaddr pgCnt =>
      some ((mfreePage s.mem (pgdir t) pf vaddr pgCnt).map fun m => ⟨m, s.lock⟩)
    | .lockAcquire t pf =>
      (lockAcquire (s.lock pf) t).map fun l => .ok ⟨s.mem, Function.update s.lock pf l⟩
    | .lockRelease pf => some (.ok ⟨s.mem, Function.update s.lock pf (lockRelease (s.lock pf))⟩)

end

/-- The locks after `mem_pool_init`. -/
def start (m : Mem P) : State P T := ⟨m, fun _ => ⟨none, 0, 1⟩⟩

/-- Nothing that the allocator keeps has changed. -/
structure Same (s s' : State P T) : Prop where
  frames : ∀ k j, j < frames s.mem k →
    bitmapScanTest (s'.mem.pool k).poolBitmap j = bitmapScanTest (s.mem.pool k).poolBitmap j
  pages : ∀ d pf i, i < 8 * (s.mem.vaddr d pf).vaddrBitmap.btmpBytesLen →
    bitmapScanTest (s'.mem.vaddr d pf).vaddrBitmap i =
      bitmapScanTest (s.mem.vaddr d pf).vaddrBitmap i
  pde : s'.mem.pde = s.mem.pde
  pt : s'.mem.pt = s.mem.pt
  holder : ∀ k, (s'.lock k).holder = (s.lock k).holder
  repeats : ∀ k, (s'.lock k).holderRepeatNr = (s.lock k).holderRepeatNr

/-- A run of `cnt` clear bits, one bit past the end at most. -/
def HasRun (b : Bitmap) (cnt : ℕ) : Prop :=
  ∃ st, st < 8 * b.btmpBytesLen ∧ st + cnt ≤ 8 * b.btmpBytesLen + 1 ∧ Clear b st cnt

/-- The call does not run out of frames: the pool has them, or `malloc_page` finds no pages. -/
def Enough (pgdir : T → Option P) (s : State P T) : Call T → Prop
  | .mallocPage t pf pgCnt =>
    HasRun (s.mem.vaddr (pgdir t) pf).vaddrBitmap pgCnt → pgCnt ≤ freeFrames s.mem pf
  | .getAPage _ pf _ => 0 < freeFrames s.mem pf

/-! ## The search -/

variable {b : Bitmap} {m m' m₁ : Mem P} {cur : Option P} {pf k : PoolFlags} {n cnt v f : ℕ}

/-- Without the assertion the search ends the same way, and a full bitmap is reported. -/
theorem bitmapScan_or (b : Bitmap) (cnt : ℕ) :
    HcOs.bitmapScan b cnt = .ok (bitmapScan b cnt) ∨
      HcOs.bitmapScan b cnt = .error outOfFrames ∧ bitmapScan b cnt = none := by
  unfold HcOs.bitmapScan bitmapScan
  by_cases h : scanByte b b.btmpBytesLen 0 < b.btmpBytesLen
  · refine Or.inl ?_
    rw [assert_bind_of h, if_neg (Nat.ne_of_lt h), if_neg (Nat.ne_of_lt h)]
    dsimp only
    split <;> rfl
  · refine Or.inr ⟨assert_bind_of_not h _, if_pos ?_⟩
    have hle := (scanByte_spec b b.btmpBytesLen 0).2.1
    omega

theorem bitmapScan_cases (hcnt : 1 ≤ cnt) :
    (∃ st, bitmapScan b cnt = some st ∧ Clear b st cnt ∧ st < 8 * b.btmpBytesLen ∧
      st + cnt ≤ 8 * b.btmpBytesLen + 1) ∨
    bitmapScan b cnt = none ∧ ¬HasRun b cnt := by
  have hor := bitmapScan_or b cnt
  rcases bitmapScan_spec hcnt with ⟨herr, hfull⟩ | ⟨st, hst, hclear, hend, hone, -⟩ | ⟨hst, -, hno⟩
  · rw [herr] at hor
    obtain h | ⟨-, hnone⟩ := hor
    · cases h
    · refine Or.inr ⟨hnone, fun ⟨st, hst, _, hclear⟩ => ?_⟩
      have hbit := hclear st (Nat.le_refl _) (by omega)
      rw [hfull st hst] at hbit
      cases hbit
  · rw [hst] at hor
    obtain h | ⟨h, -⟩ := hor
    · refine Or.inl ⟨st, (Except.ok.inj h).symm, hclear, ?_, hend⟩
      omega
    · cases h
  · rw [hst] at hor
    obtain h | ⟨h, -⟩ := hor
    · exact Or.inr ⟨(Except.ok.inj h).symm, fun ⟨st, _, hend, hclear⟩ => hno st hend hclear⟩
    · cases h

/-! ## What the functions keep -/

/-- The virtual pools are the same, and no page table is gone. -/
structure Grows (m m' : Mem P) : Prop where
  vaddr : ∀ d pf, m'.vaddr d pf = m.vaddr d pf
  pde : ∀ d j, (m.pde d j).p = true → (m'.pde d j).p = true

omit [DecidableEq P] in
theorem Grows.refl (m : Mem P) : Grows m m := ⟨fun _ _ => rfl, fun _ _ h => h⟩

omit [DecidableEq P] in
theorem Grows.trans (h₁ : Grows m m₁) (h₂ : Grows m₁ m') : Grows m m' :=
  ⟨fun d pf => (h₂.vaddr d pf).trans (h₁.vaddr d pf), fun d j h => h₂.pde d j (h₁.pde d j h)⟩

omit [DecidableEq P] in
theorem setPool_grows (pool : Pool) : Grows m (m.setPool pool k) := by
  cases k
  · exact ⟨fun _ pf => by cases pf <;> rfl, fun _ _ h => h⟩
  · exact ⟨fun _ pf => by cases pf <;> rfl, fun _ _ h => h⟩

omit [DecidableEq P] in
theorem setPte_grows (e : Entry) : Grows m (m.setPte cur v e) :=
  ⟨fun _ pf => by cases pf <;> rfl, fun _ _ h => h⟩

omit [DecidableEq P] in
/-- `palloc` takes one free frame, and it returns `NULL` when there is none. -/
theorem palloc_cases (m : Mem P) (k : PoolFlags) :
    (palloc m k = (m, none) ∧ freeFrames m k = 0) ∨
      ∃ m' f, palloc m k = (m', some f) ∧ freeFrames m k = freeFrames m' k + 1 ∧
        (∀ l, l ≠ k → freeFrames m' l = freeFrames m l) ∧ m'.pde = m.pde ∧ Grows m m' := by
  have hcases := PoolLocks.palloc_cases m k
  unfold Page.palloc at hcases
  unfold palloc
  rcases bitmapScan_or (m.pool k).poolBitmap 1 with hok | ⟨herr, hnone⟩
  · dsimp only at hcases ⊢
    rw [hok, ok_bind] at hcases
    cases hscan : bitmapScan (m.pool k).poolBitmap 1 with
    | none =>
      rw [hscan] at hcases
      obtain ⟨h, -⟩ | ⟨_, _, h, -⟩ := hcases
      · cases h
      · cases h
    | some i =>
      rw [hscan] at hcases
      obtain ⟨h, -⟩ | ⟨_, _, h, hfree, hpde, -⟩ := hcases
      · cases h
      · cases h
        refine Or.inr ⟨_, _, rfl, hfree, fun l hl => freeFrames_congr ?_, hpde, setPool_grows _⟩
        cases k <;> cases l <;> first | rfl | exact absurd rfl hl
  · dsimp only at hcases ⊢
    rw [herr, error_bind] at hcases
    rw [hnone]
    obtain ⟨-, hzero⟩ | ⟨_, _, h, -⟩ := hcases
    · exact Or.inl ⟨rfl, hzero⟩
    · cases h

theorem pageTableAdd_spec (h : pageTableAdd m cur v f = .ok m') :
    Grows m m' ∧ freeFrames m' .user = freeFrames m .user ∧
      ((m.pde cur (pdeIdx v)).p = true → freeFrames m' .kernel = freeFrames m .kernel) := by
  unfold pageTableAdd at h
  split at h
  · split at h
    · cases h
      exact ⟨setPte_grows _, freeFrames_congr rfl, fun _ => freeFrames_congr rfl⟩
    · cases h
  · next hne =>
    have hpalloc : Grows m (palloc m .kernel).1 ∧
        freeFrames (palloc m .kernel).1 .user = freeFrames m .user := by
      rcases palloc_cases m .kernel with ⟨hnull, -⟩ | ⟨m₁, g, hok, -, hother, -, hgrows⟩
      · rw [hnull]
        exact ⟨Grows.refl m, rfl⟩
      · rw [hok]
        exact ⟨hgrows, hother .user nofun⟩
    dsimp only at h
    generalize palloc m .kernel = r at h hpalloc
    cases h
    refine ⟨?_, hpalloc.2, fun ht => absurd ht hne⟩
    refine (hpalloc.1.trans ⟨fun _ pf => by cases pf <;> rfl, fun d j hp => ?_⟩).trans
      (setPte_grows _)
    dsimp only
    by_cases hd : d = cur
    · subst hd
      rw [Function.update_self]
      by_cases hj : j = pdeIdx v
      · rw [hj, Function.update_self]
      · rw [Function.update_of_ne hj]
        exact hp
    · rw [Function.update_of_ne hd]
      exact hp

theorem mallocLoop_grows {done : Bool} (h : mallocLoop cur pf n v m = .ok (m', done)) :
    Grows m m' := by
  induction n generalizing v m with
  | zero =>
    cases h
    exact Grows.refl _
  | succ n ih =>
    rw [mallocLoop] at h
    rcases palloc_cases m pf with ⟨hnull, -⟩ | ⟨m₁, f, hok, -, -, -, hgrows⟩
    · rw [hnull] at h
      cases h
      exact Grows.refl _
    · rw [hok] at h
      obtain ⟨m₂, hadd, h⟩ := bind_eq_ok.mp h
      exact (hgrows.trans (pageTableAdd_spec hadd).1).trans (ih h)

/-- The loop of `malloc_page` comes to its end when the pool has a frame for every page; for pages
of the kernel no frame goes to a page table. -/
theorem mallocLoop_done {done : Bool}
    (hk : pf = .kernel → ∀ k, k < n → (m.pde cur (pdeIdx (v + k * pgSize))).p = true)
    (h : mallocLoop cur pf n v m = .ok (m', done)) : done = true ↔ n ≤ freeFrames m pf := by
  induction n generalizing v m with
  | zero =>
    cases h
    exact iff_of_true rfl (Nat.zero_le _)
  | succ n ih =>
    rw [mallocLoop] at h
    rcases palloc_cases m pf with ⟨hnull, hzero⟩ | ⟨m₁, f, hok, hfree, -, hpde, hgrows⟩
    · rw [hnull] at h
      cases h
      rw [hzero]
      exact iff_of_false Bool.false_ne_true (Nat.not_succ_le_zero n)
    · rw [hok] at h
      obtain ⟨m₂, hadd, h⟩ := bind_eq_ok.mp h
      obtain ⟨hgrows₂, huser, hkernel⟩ := pageTableAdd_spec hadd
      have hframes : freeFrames m₂ pf = freeFrames m₁ pf := by
        cases pf with
        | user => exact huser
        | kernel =>
          refine hkernel ?_
          have hfirst := hk rfl 0 (Nat.succ_pos n)
          rwa [Nat.zero_mul, Nat.add_zero, ← hpde] at hfirst
      have hnext : pf = .kernel → ∀ k, k < n →
          (m₂.pde cur (pdeIdx (v + pgSize + k * pgSize))).p = true := by
        intro hpf k hkn
        have hp := hk hpf (k + 1) (Nat.succ_lt_succ hkn)
        rw [Nat.succ_mul, Nat.add_comm (k * pgSize), ← Nat.add_assoc] at hp
        exact (hgrows.trans hgrows₂).pde _ _ hp
      rw [ih hnext h, hframes, hfree]
      omega

/-- The page tables of the kernel's virtual pool are there. -/
structure KernelTables (m : Mem P) : Prop where
  vstart : m.kernelVaddr.vaddrStart = kHeapStart
  vlen : m.kernelVaddr.vaddrBitmap.btmpBytesLen < 2 ^ 12
  pde : ∀ d j, 768 ≤ j → j < 1023 → (m.pde d j).p = true

omit [DecidableEq P] in
theorem KernelTables.grows (h : KernelTables m) (hg : Grows m m') : KernelTables m' := by
  have hv : m'.kernelVaddr = m.kernelVaddr := hg.vaddr none .kernel
  refine ⟨?_, ?_, fun d j h1 h2 => hg.pde d j (h.pde d j h1 h2)⟩
  · rw [hv]
    exact h.vstart
  · rw [hv]
    exact h.vlen

theorem KernelTables.setVaddr (h : KernelTables m) {bits : Bitmap}
    (hb : bits.btmpBytesLen = (m.vaddr cur pf).vaddrBitmap.btmpBytesLen) :
    KernelTables (m.setVaddr cur { m.vaddr cur pf with vaddrBitmap := bits } pf) := by
  have htables : ∀ d j, 768 ≤ j → j < 1023 →
      ((m.setVaddr cur { m.vaddr cur pf with vaddrBitmap := bits } pf).pde d j).p = true := by
    rw [(setVaddr_tables _).1]
    exact h.pde
  cases pf with
  | kernel =>
    refine ⟨h.vstart, ?_, htables⟩
    exact hb.trans_lt h.vlen
  | user => exact ⟨h.vstart, h.vlen, htables⟩

theorem vaddrGet_tables (h : KernelTables m) : KernelTables (vaddrGet m cur pf n).1 := by
  unfold vaddrGet
  dsimp only
  cases bitmapScan (m.vaddr cur pf).vaddrBitmap n with
  | none => exact h
  | some st => exact h.setVaddr (bitmapSetRun_len true)

omit [DecidableEq P] in
/-- The page tables that a run of `vaddr_get` needs, when it is one of the kernel's. -/
theorem run_tables {st : ℕ} (h : KernelTables m) (hpf : pf = .kernel)
    (hend : st + n ≤ 8 * (m.vaddr cur pf).vaddrBitmap.btmpBytesLen + 1) (j : ℕ) (hj : j < n) :
    (m.pde cur (pdeIdx ((m.vaddr cur pf).vaddrStart + st * pgSize + j * pgSize))).p = true := by
  subst hpf
  have hlen := h.vlen
  change st + n ≤ 8 * m.kernelVaddr.vaddrBitmap.btmpBytesLen + 1 at hend
  have haddr : (m.vaddr cur .kernel).vaddrStart + st * pgSize + j * pgSize =
      vaddrOf ((none : Option P), st + j) := by
    rw [← vaddrOf_add]
    exact congrArg (· + j * pgSize) (congrArg (· + st * pgSize) h.vstart)
  rw [haddr, pdeIdx_kernel (by omega)]
  exact h.pde _ _ (by omega) (by omega)

theorem mallocPage_tables {r : Mem P × Option ℕ} (hi : KernelTables m)
    (h : mallocPage m cur pf n = .ok r) : KernelTables r.1 := by
  have hget : KernelTables (vaddrGet m cur pf n).1 := vaddrGet_tables hi
  unfold mallocPage at h
  generalize vaddrGet m cur pf n = g at h hget
  obtain ⟨m₁, vaddr⟩ := g
  cases vaddr with
  | none =>
    cases h
    exact hget
  | some vaddr =>
    obtain ⟨⟨m₂, done⟩, hloop, h⟩ := bind_eq_ok.mp h
    cases h
    exact hget.grows (mallocLoop_grows hloop)

omit [DecidableEq P] in
theorem mfreeLoop_grows (h : mfreeLoop cur n v m = .ok m') : Grows m m' := by
  induction n generalizing v m with
  | zero =>
    cases h
    exact Grows.refl _
  | succ n ih =>
    obtain ⟨phy, -, h⟩ := bind_eq_ok.mp h
    refine Grows.trans ?_ (ih h)
    exact (setPool_grows _).trans (setPte_grows _)

theorem mfreePage_tables (hi : KernelTables m) (h : mfreePage m cur pf v n = .ok m') :
    KernelTables m' := by
  obtain ⟨-, -, h⟩ := bind_eq_ok.mp h
  obtain ⟨m₁, hloop, h⟩ := bind_eq_ok.mp h
  cases h
  exact (hi.grows (mfreeLoop_grows hloop)).setVaddr (bitmapSetRun_len false)

variable {s s' : State P T} {t : T} {r : Option ℕ} {c : Call T} {pgdir : T → Option P}
variable {plock plock' : PoolLock T}

/-- `get_a_page` with the lock that it has got. -/
theorem getAPage_cases (h : getAPage s t cur pf v = some (.ok (s', r))) :
    ∃ plock bits, lockAcquire (s.lock pf) t = some plock ∧
      bits.btmpBytesLen = (s.mem.vaddr cur pf).vaddrBitmap.btmpBytesLen ∧
      ((freeFrames s.mem pf = 0 ∧ r = none ∧
          s' = ⟨s.mem.setVaddr cur { s.mem.vaddr cur pf with vaddrBitmap := bits } pf,
            Function.update s.lock pf plock⟩) ∨
        (0 < freeFrames s.mem pf ∧ r ≠ none ∧
          Grows (s.mem.setVaddr cur { s.mem.vaddr cur pf with vaddrBitmap := bits } pf)
            s'.mem)) := by
  unfold getAPage at h
  cases hacq : lockAcquire (s.lock pf) t with
  | none =>
    rw [hacq] at h
    cases h
  | some plock =>
    rw [hacq] at h
    simp only [Option.some.injEq] at h
    refine ⟨plock, bitmapSet (s.mem.vaddr cur pf).vaddrBitmap
      (sub32 v (s.mem.vaddr cur pf).vaddrStart / pgSize) true, rfl, rfl, ?_⟩
    generalize hm : s.mem.setVaddr cur { s.mem.vaddr cur pf with
      vaddrBitmap := bitmapSet (s.mem.vaddr cur pf).vaddrBitmap
        (sub32 v (s.mem.vaddr cur pf).vaddrStart / pgSize) true } pf = m at h ⊢
    have hfree : freeFrames m pf = freeFrames s.mem pf := by
      rw [← hm]
      exact freeFrames_congr ((setVaddr_tables _).2.2 pf)
    split at h
    · rcases palloc_cases m pf with ⟨hnull, hzero⟩ | ⟨m₁, f, hok, hone, -, -, hgrows⟩
      · rw [hnull] at h
        cases h
        exact Or.inl ⟨hfree.symm.trans hzero, rfl, rfl⟩
      · rw [hok] at h
        obtain ⟨m₂, hadd, h⟩ := bind_eq_ok.mp h
        cases h
        refine Or.inr ⟨by omega, nofun, hgrows.trans (pageTableAdd_spec hadd).1⟩
    · cases h

theorem alloc_tables (hi : KernelTables s.mem) (h : alloc pgdir s c = some (.ok (s', r))) :
    KernelTables s'.mem := by
  cases c with
  | mallocPage t pf n =>
    simp only [alloc, Option.some.injEq] at h
    cases hm : mallocPage s.mem (pgdir t) pf n with
    | error x =>
      rw [hm] at h
      cases h
    | ok res =>
      rw [hm] at h
      cases h
      exact mallocPage_tables hi hm
  | getAPage t pf v =>
    obtain ⟨plock, bits, -, hlen, ⟨-, -, rfl⟩ | ⟨-, -, hgrows⟩⟩ := getAPage_cases h
    · exact hi.setVaddr hlen
    · exact (hi.setVaddr hlen).grows hgrows

theorem step_tables {e : Event T} (hi : KernelTables s.mem)
    (h : (machine pgdir).step s e = some (.ok s')) : KernelTables s'.mem := by
  cases e with
  | alloc c =>
    obtain ⟨⟨s₁, r⟩, hc, rfl⟩ := Machine.ok_of_map h
    exact alloc_tables hi hc
  | mfreePage t pf v n =>
    simp only [machine, Option.some.injEq] at h
    cases hm : mfreePage s.mem (pgdir t) pf v n with
    | error x =>
      rw [hm] at h
      cases h
    | ok m' =>
      rw [hm] at h
      cases h
      exact mfreePage_tables hi hm
  | lockAcquire t pf =>
    obtain ⟨l, -, h⟩ := Option.map_eq_some_iff.mp h
    cases h
    exact hi
  | lockRelease pf =>
    cases h
    exact hi

theorem run_kernelTables {m₀ : Mem P} {es : List (Event T)} (hm : Start m₀)
    (hr : (machine pgdir).run (start m₀) es = some (.ok s)) : KernelTables s.mem := by
  have hg := hm.geo
  have hstart : KernelTables (start (T := T) m₀).mem :=
    ⟨hg.kernelVaddr, hg.kernelPages, fun d j h1 h2 => congrArg Entry.p (hg.kernelPde d j h1 h2)⟩
  exact Machine.run_ok (I := fun s => KernelTables s.mem) (fun _ _ _ hi hs => step_tables hi hs)
    hstart hr

/-! ## Main result -/

omit [DecidableEq P] [DecidableEq T] in
theorem Same.refl (s : State P T) : Same s s :=
  ⟨fun _ _ _ => rfl, fun _ _ _ _ => rfl, rfl, rfl, fun _ => rfl, fun _ => rfl⟩

theorem setVaddr_self (v : VirtualAddr) : (m.setVaddr cur v pf).vaddr cur pf = v := by
  cases pf with
  | kernel => rfl
  | user => exact Function.update_self _ _ _

omit [DecidableEq T] in
/-- `malloc_page` that finds pages but not all the frames returns `NULL` with the pages marked. -/
theorem mallocPage_atomic {lk : PoolFlags → PoolLock T} (hi : KernelTables m) (hn : 1 ≤ n)
    (h : mallocPage m cur pf n = .ok (m', r)) :
    (r = none → Same ⟨m, lk⟩ ⟨m', lk⟩) ↔
      (HasRun (m.vaddr cur pf).vaddrBitmap n → n ≤ freeFrames m pf) := by
  unfold mallocPage vaddrGet at h
  dsimp only at h
  rcases @bitmapScan_cases (m.vaddr cur pf).vaddrBitmap n hn with
    ⟨st, hscan, hclear, hst, hend⟩ | ⟨hscan, hno⟩
  · rw [hscan] at h
    obtain ⟨⟨m₁, done⟩, hloop, h⟩ := bind_eq_ok.mp h
    cases h
    have hdone := mallocLoop_done (fun hpf j hj => by
      rw [(setVaddr_tables _).1]
      exact run_tables hi hpf hend j hj) hloop
    rw [freeFrames_congr ((setVaddr_tables _).2.2 pf)] at hdone
    have hrun : HasRun (m.vaddr cur pf).vaddrBitmap n := ⟨st, hst, hend, hclear⟩
    by_cases hfree : n ≤ freeFrames m pf
    · rw [hdone.mpr hfree]
      exact iff_of_true nofun fun _ => hfree
    · have hfalse : done = false := by
        rw [← Bool.not_eq_true, hdone]
        exact hfree
      refine iff_of_false (fun hsame => ?_) fun himp => hfree (himp hrun)
      -- the first of the pages was free and is marked now
      have hbit := (hsame (by rw [hfalse]; rfl)).pages cur pf st hst
      rw [(mallocLoop_grows hloop).vaddr cur pf, setVaddr_self, bitmapScanTest_setRun,
        if_pos (by omega), hclear st (Nat.le_refl _) (by omega)] at hbit
      cases hbit
  · rw [hscan] at h
    cases h
    exact iff_of_true (fun _ => Same.refl _) fun hrun => absurd hrun hno

/-- A lock that is acquired once more has another holder or another count. -/
theorem lockAcquire_ne (h : lockAcquire plock t = some plock')
    (hh : plock'.holder = plock.holder) : plock'.holderRepeatNr ≠ plock.holderRepeatNr := by
  unfold lockAcquire at h
  split at h
  · next hne =>
    split at h
    · cases h
    · cases h
      exact absurd hh.symm hne
  · cases h
    dsimp only
    omega

/-- **Failed allocations.**  In every state that is reached without assertions, an allocation that
returns leaves the pools, the page tables and the locks as they were whenever the result is `NULL`
exactly when it does not run out of frames. -/
theorem atomic_iff {m₀ : Mem P} {es : List (Event T)} {res : State P T × Option ℕ} (hm : Start m₀)
    (hr : (machine pgdir).run (start m₀) es = some (.ok s))
    (hpages : ∀ t pf pgCnt, c = .mallocPage t pf pgCnt → 1 ≤ pgCnt)
    (hret : alloc pgdir s c = some (.ok res)) :
    (res.2 = none → Same s res.1) ↔ Enough pgdir s c := by
  have hi := run_kernelTables hm hr
  obtain ⟨s', r⟩ := res
  cases c with
  | mallocPage t pf n =>
    simp only [alloc, Option.some.injEq] at hret
    cases h : mallocPage s.mem (pgdir t) pf n with
    | error x =>
      rw [h] at hret
      cases hret
    | ok res =>
      rw [h] at hret
      cases hret
      exact mallocPage_atomic hi (hpages t pf n rfl) h
  | getAPage t pf v =>
    obtain ⟨plock, bits, hacq, -, ⟨hzero, rfl, rfl⟩ | ⟨hfree, hsome, -⟩⟩ := getAPage_cases hret
    · refine iff_of_false (fun hsame => ?_) fun hfree => ?_
      · have hholder := (hsame rfl).holder pf
        have hrepeat := (hsame rfl).repeats pf
        dsimp only at hholder hrepeat
        rw [Function.update_self] at hholder hrepeat
        exact lockAcquire_ne hacq hholder hrepeat
      · exact absurd hzero (Nat.ne_of_gt hfree)
    · exact iff_of_true (fun hnone => absurd hnone hsome) hfree

/-- A kernel thread and a process. -/
def taskOf : Bool → Option Unit
  | false => none
  | true => some ()

/-- The call returns `NULL` although bits of `kernel_vaddr` are clear: 29 of its 32 bits are, from
bit 3 on. -/
def failsEarly (s : State Unit Bool) : Bool :=
  match alloc taskOf s (.mallocPage false .kernel 31) with
  | some (.ok (_, none)) => bitmapScanTest s.mem.kernelVaddr.vaddrBitmap 2 &&
      !bitmapScanTest s.mem.kernelVaddr.vaddrBitmap 3 &&
      decide (s.mem.kernelVaddr.vaddrBitmap.btmpBytesLen = 4)
  | _ => false

/-- The kernel thread has three pages and asks for 31 more. -/
theorem atomic_iff_noPages : ∃ s s',
    (machine taskOf).run (start (bootMem Unit 0x240000)) [.alloc (.mallocPage false .kernel 3)] =
        some (.ok s) ∧
      alloc taskOf s (.mallocPage false .kernel 31) = some (.ok (s', none)) ∧ Same s s' := by
  have hlast : (((machine taskOf).run (start (bootMem Unit 0x240000))
      [.alloc (.mallocPage false .kernel 3)]).any fun r => r.toOption.any failsEarly) = true := by
    decide +kernel
  obtain ⟨s, hrun, htest⟩ := (machine taskOf).run_of_test hlast
  unfold failsEarly at htest
  split at htest
  · next s' halloc =>
    simp only [Bool.and_eq_true, decide_eq_true_eq] at htest
    obtain ⟨⟨hset, -⟩, hlen⟩ := htest
    have hno : ¬ HasRun s.mem.kernelVaddr.vaddrBitmap 31 := by
      rintro ⟨st, -, hend, hclear⟩
      rw [hclear 2 (by omega) (by omega)] at hset
      cases hset
    have hpages : ∀ t pf pgCnt,
        (.mallocPage false .kernel 31 : Call Bool) = .mallocPage t pf pgCnt → 1 ≤ pgCnt := by
      intro t pf pgCnt heq
      cases heq
      decide
    exact ⟨s, s', hrun, halloc, (atomic_iff (bootMem_start 0x240000) hrun hpages halloc).mpr
      (fun h => absurd h hno) rfl⟩
  · cases htest

/-- The process leaves the kernel thread a page without a frame: 31 of the 32 frames of the kernel
are taken by the thread and one by the page table of the process. -/
def lastFrame : List (Event Bool) :=
  [.alloc (.mallocPage false .kernel 31), .alloc (.mallocPage true .user 1)]

/-- The call returns `NULL`, and bit 31 of `kernel_vaddr` is set. -/
def failsMarked (s : State Unit Bool) : Bool :=
  match alloc taskOf s (.mallocPage false .kernel 1) with
  | some (.ok (s', none)) => bitmapScanTest s'.mem.kernelVaddr.vaddrBitmap 31 &&
      !bitmapScanTest s.mem.kernelVaddr.vaddrBitmap 31 &&
      decide (31 < 8 * s.mem.kernelVaddr.vaddrBitmap.btmpBytesLen)
  | _ => false

theorem not_atomic : Start (bootMem Unit 0x240000) ∧ ∃ s s',
    (machine taskOf).run (start (bootMem Unit 0x240000)) lastFrame = some (.ok s) ∧
      alloc taskOf s (.mallocPage false .kernel 1) = some (.ok (s', none)) ∧ ¬Same s s' := by
  have hlast : (((machine taskOf).run (start (bootMem Unit 0x240000)) lastFrame).any
      fun r => r.toOption.any failsMarked) = true := by decide +kernel
  obtain ⟨s, hrun, htest⟩ := (machine taskOf).run_of_test hlast
  unfold failsMarked at htest
  split at htest
  · next s' halloc =>
    simp only [Bool.and_eq_true, Bool.not_eq_true', decide_eq_true_eq] at htest
    obtain ⟨⟨hset, hclear⟩, hlt⟩ := htest
    refine ⟨bootMem_start _, s, s', hrun, halloc, fun hsame => ?_⟩
    have hbit := hsame.pages none .kernel 31 hlt
    change bitmapScanTest s'.mem.kernelVaddr.vaddrBitmap 31 =
      bitmapScanTest s.mem.kernelVaddr.vaddrBitmap 31 at hbit
    rw [hset, hclear] at hbit
    cases hbit
  · cases htest

end HcOs.Ndebug
