import HcOs.Kernel.Bitmap

/-!
# Pages (`kernel/memory.c`)

The two physical pools, the virtual pools, the page directories and the page tables.  A task is
`none` for a kernel thread, which runs under the page directory of the kernel (`pgdir == NULL`), and
`some p` for the process `p`.

A page table is physical memory; `pt` gives its entries by the physical address of its frame.  Of an
entry only the address and the bit `P` are kept; the flags `US` and `RW` are always written as 1 and
never read.

The functions run one call at a time, so the locks of the pools are left out.
-/

namespace HcOs.Page

def pgSize : ℕ := 4096
def kHeapStart : ℕ := 0xc0100000
def userVaddrStart : ℕ := 0x8048000

inductive PoolFlags where
  | kernel
  | user
deriving DecidableEq

structure Pool where
  poolBitmap : Bitmap
  phyAddrStart : ℕ
  poolSize : ℕ

structure VirtualAddr where
  vaddrBitmap : Bitmap
  vaddrStart : ℕ

/-- An entry of a page directory or a page table. -/
structure Entry where
  base : ℕ
  p : Bool

structure Mem (P : Type) where
  kernelPool : Pool
  userPool : Pool
  kernelVaddr : VirtualAddr
  /-- `userprog_vaddr` of a task. -/
  userprogVaddr : Option P → VirtualAddr
  /-- The page directory of a task. -/
  pde : Option P → ℕ → Entry
  pt : ℕ → ℕ → Entry

def pdeIdx (vaddr : ℕ) : ℕ := vaddr / 2 ^ 22 % 1024

def pteIdx (vaddr : ℕ) : ℕ := vaddr / 2 ^ 12 % 1024

/-- A difference of two `uint32_t`. -/
def sub32 (a b : ℕ) : ℕ := (a + 2 ^ 32 - b) % 2 ^ 32

theorem sub32_eq {a b : ℕ} (h : b ≤ a) (ha : a < 2 ^ 32) : sub32 a b = a - b := by
  unfold sub32
  omega

variable {P : Type} [DecidableEq P]

def Mem.pool (m : Mem P) : PoolFlags → Pool
  | .kernel => m.kernelPool
  | .user => m.userPool

def Mem.setPool (m : Mem P) (pool : Pool) : PoolFlags → Mem P
  | .kernel => { m with kernelPool := pool }
  | .user => { m with userPool := pool }

omit [DecidableEq P] in
theorem pool_setPool (m : Mem P) (pool : Pool) (pf pf' : PoolFlags) :
    (m.setPool pool pf).pool pf' = if pf' = pf then pool else m.pool pf' := by
  cases pf <;> cases pf' <;> rfl

/-- The virtual pool `pf` of the task `cur`. -/
def Mem.vaddr (m : Mem P) (cur : Option P) : PoolFlags → VirtualAddr
  | .kernel => m.kernelVaddr
  | .user => m.userprogVaddr cur

def Mem.setVaddr (m : Mem P) (cur : Option P) (v : VirtualAddr) : PoolFlags → Mem P
  | .kernel => { m with kernelVaddr := v }
  | .user => { m with userprogVaddr := Function.update m.userprogVaddr cur v }

/-- `bitmap_set` of `cnt` bits from `start` on, as the loops of `vaddr_get` and `vaddr_remove` do. -/
def bitmapSetRun (btmp : Bitmap) (start : ℕ) (value : Bool) : ℕ → Bitmap
  | 0 => btmp
  | cnt + 1 => bitmapSet (bitmapSetRun btmp start value cnt) (start + cnt) value

/-! ## Allocation -/

/-- `vaddr_get`; `none` is `NULL`. -/
def vaddrGet (m : Mem P) (cur : Option P) (pf : PoolFlags) (pgCnt : ℕ) :
    Except Halt (Mem P × Option ℕ) := do
  let v := m.vaddr cur pf
  let bitIdxStart ← bitmapScan v.vaddrBitmap pgCnt
  match bitIdxStart with
  | none => .ok (m, none)
  | some start =>
    let v' := { v with vaddrBitmap := bitmapSetRun v.vaddrBitmap start true pgCnt }
    let vaddrStart := v.vaddrStart + start * pgSize
    match pf with
    | .kernel => .ok (m.setVaddr cur v' pf, some vaddrStart)
    | .user => do
      assert (vaddrStart < 0xc0000000 - pgSize) "vaddr_get"
        "(uint32_t)vaddr_start < (0xc0000000 - PG_SIZE)"
      .ok (m.setVaddr cur v' pf, some vaddrStart)

/-- `palloc`; `none` is `NULL`. -/
def palloc (m : Mem P) (pf : PoolFlags) : Except Halt (Mem P × Option ℕ) := do
  let pool := m.pool pf
  let bitIdx ← bitmapScan pool.poolBitmap 1
  match bitIdx with
  | none => .ok (m, none)
  | some i =>
    .ok (m.setPool { pool with poolBitmap := bitmapSet pool.poolBitmap i true } pf,
      some (i * pgSize + pool.phyAddrStart))

/-- A write to the page table entry of `vaddr`. -/
def Mem.setPte (m : Mem P) (cur : Option P) (vaddr : ℕ) (e : Entry) : Mem P :=
  let table := (m.pde cur (pdeIdx vaddr)).base
  { m with pt := Function.update m.pt table (Function.update (m.pt table) (pteIdx vaddr) e) }

/-- The page table entry of `vaddr`. -/
def Mem.pte (m : Mem P) (cur : Option P) (vaddr : ℕ) : Entry :=
  m.pt (m.pde cur (pdeIdx vaddr)).base (pteIdx vaddr)

/-- `page_table_add`, in the page directory of the task `cur`. -/
def pageTableAdd (m : Mem P) (cur : Option P) (vaddr pagePhyaddr : ℕ) : Except Halt (Mem P) :=
  if (m.pde cur (pdeIdx vaddr)).p then
    if (m.pte cur vaddr).p = false then .ok (m.setPte cur vaddr ⟨pagePhyaddr, true⟩)
    else .error (.panic "page_table_add" "pte repeat")
  else do
    let (m, pdePhyaddr) ← palloc m .kernel
    let table := pdePhyaddr.getD 0
    let m := { m with
      pde := Function.update m.pde cur (Function.update (m.pde cur) (pdeIdx vaddr) ⟨table, true⟩)
      pt := Function.update m.pt table fun _ => ⟨0, false⟩ }
    assert ((m.pte cur vaddr).p = false) "page_table_add" "!(*pte & 0x00000001)"
    .ok (m.setPte cur vaddr ⟨pagePhyaddr, true⟩)

/-- The loop of `malloc_page`; `false` when a frame is missing. -/
def mallocLoop (cur : Option P) (pf : PoolFlags) : ℕ → ℕ → Mem P → Except Halt (Mem P × Bool)
  | 0, _, m => .ok (m, true)
  | cnt + 1, vaddr, m => do
    let (m, pagePhyaddr) ← palloc m pf
    match pagePhyaddr with
    | none => .ok (m, false)
    | some f => do
      let m ← pageTableAdd m cur vaddr f
      mallocLoop cur pf cnt (vaddr + pgSize) m

/-- `malloc_page`; `none` is `NULL`. -/
def mallocPage (m : Mem P) (cur : Option P) (pf : PoolFlags) (pgCnt : ℕ) :
    Except Halt (Mem P × Option ℕ) := do
  assert (0 < pgCnt ∧ pgCnt < 3840) "malloc_page" "pg_cnt > 0 && pg_cnt < 3840"
  let (m, vaddrStart) ← vaddrGet m cur pf pgCnt
  match vaddrStart with
  | none => .ok (m, none)
  | some vaddr => do
    let (m, done) ← mallocLoop cur pf pgCnt vaddr m
    .ok (m, if done then some vaddr else none)

/-- `get_a_page`; `none` is `NULL`. -/
def getAPage (m : Mem P) (cur : Option P) (pf : PoolFlags) (vaddr : ℕ) :
    Except Halt (Mem P × Option ℕ) := do
  let v := m.vaddr cur pf
  let bitIdx := sub32 vaddr v.vaddrStart / pgSize
  if (cur ≠ none ∧ pf = .user) ∨ (cur = none ∧ pf = .kernel) then do
    assert (0 < bitIdx) "get_a_page" "bit_idx > 0"
    let m := m.setVaddr cur { v with vaddrBitmap := bitmapSet v.vaddrBitmap bitIdx true } pf
    let (m, pagePhyaddr) ← palloc m pf
    match pagePhyaddr with
    | none => .ok (m, none)
    | some f => do
      let m ← pageTableAdd m cur vaddr f
      .ok (m, some vaddr)
  else
    .error (.panic "get_a_page"
      "get_a_page: not allow kernel alloc userspace or user alloc kernelspace by get_a_page.")

/-! ## Release -/

/-- `addr_v2p`; without a page table the access to the entry faults. -/
def addrV2p (m : Mem P) (cur : Option P) (vaddr : ℕ) : Except Halt ℕ :=
  if (m.pde cur (pdeIdx vaddr)).p then .ok ((m.pte cur vaddr).base + vaddr % pgSize)
  else .error .nullDeref

/-- `pfree`. -/
def pfree (m : Mem P) (pgPhyAddr : ℕ) : Mem P :=
  let pf : PoolFlags := if m.userPool.phyAddrStart ≤ pgPhyAddr then .user else .kernel
  let pool := m.pool pf
  let bitIdx := sub32 pgPhyAddr pool.phyAddrStart / pgSize
  m.setPool { pool with poolBitmap := bitmapSet pool.poolBitmap bitIdx false } pf

/-- `page_table_pte_remove`. -/
def pageTablePteRemove (m : Mem P) (cur : Option P) (vaddr : ℕ) : Mem P :=
  m.setPte cur vaddr ⟨(m.pte cur vaddr).base, false⟩

/-- `vaddr_remove`. -/
def vaddrRemove (m : Mem P) (cur : Option P) (pf : PoolFlags) (vaddr pgCnt : ℕ) : Mem P :=
  let v := m.vaddr cur pf
  let bitIdxStart := sub32 vaddr v.vaddrStart / pgSize
  m.setVaddr cur { v with vaddrBitmap := bitmapSetRun v.vaddrBitmap bitIdxStart false pgCnt } pf

/-- The loop of `mfree_page`, with the assertion of its branch. -/
def mfreeLoop (cur : Option P) (inPool : Mem P → ℕ → Bool) (condition : String) :
    ℕ → ℕ → Mem P → Except Halt (Mem P)
  | 0, _, m => .ok m
  | cnt + 1, vaddr, m => do
    let pgPhyAddr ← addrV2p m cur vaddr
    assert (pgPhyAddr % pgSize = 0 ∧ inPool m pgPhyAddr = true) "mfree_page" condition
    let m := pfree m pgPhyAddr
    let m := pageTablePteRemove m cur vaddr
    mfreeLoop cur inPool condition cnt (vaddr + pgSize) m

/-- `mfree_page`. -/
def mfreePage (m : Mem P) (cur : Option P) (pf : PoolFlags) (vaddr pgCnt : ℕ) :
    Except Halt (Mem P) := do
  assert (1 ≤ pgCnt ∧ vaddr % pgSize = 0) "mfree_page" "pg_cnt >= 1 && vaddr % PG_SIZE == 0"
  let pgPhyAddr ← addrV2p m cur vaddr
  assert (pgPhyAddr % pgSize = 0 ∧ 0x102000 ≤ pgPhyAddr) "mfree_page"
    "(pg_phy_addr % PG_SIZE) == 0 && pg_phy_addr >= 0x102000"
  let m ← (if m.userPool.phyAddrStart ≤ pgPhyAddr then
      mfreeLoop cur (fun m a => decide (m.userPool.phyAddrStart ≤ a))
        "(pg_phy_addr % PG_SIZE) == 0 && pg_phy_addr >= user_pool.phy_addr_start" pgCnt vaddr m
    else
      mfreeLoop cur
        (fun m a => decide (m.kernelPool.phyAddrStart ≤ a ∧ a < m.userPool.phyAddrStart))
        "(pg_phy_addr % PG_SIZE) == 0 && pg_phy_addr >= kernel_pool.phy_addr_start && pg_phy_addr < user_pool.phy_addr_start"
        pgCnt vaddr m : Except Halt (Mem P))
  .ok (vaddrRemove m cur pf vaddr pgCnt)

/-! ## Set-up -/

/-- `mem_pool_init`; the page counts are `uint16_t`. -/
def memPoolInit (m : Mem P) (allMem : ℕ) : Mem P :=
  let usedMem := pgSize * 256 + 0x100000
  let freeMem := sub32 allMem usedMem
  let allFreePage := freeMem / pgSize % 2 ^ 16
  let kernelFreePages := allFreePage / 2
  let userFreePages := allFreePage - kernelFreePages
  let kbmLength := kernelFreePages / 8
  let ubmLength := userFreePages / 8
  { m with
    kernelPool :=
      { poolBitmap := bitmapInit ⟨kbmLength, m.kernelPool.poolBitmap.bits⟩
        phyAddrStart := usedMem
        poolSize := kernelFreePages * pgSize }
    userPool :=
      { poolBitmap := bitmapInit ⟨ubmLength, m.userPool.poolBitmap.bits⟩
        phyAddrStart := usedMem + kernelFreePages * pgSize
        poolSize := userFreePages * pgSize }
    kernelVaddr :=
      { vaddrBitmap := bitmapInit ⟨kbmLength, m.kernelVaddr.vaddrBitmap.bits⟩
        vaddrStart := kHeapStart } }

/-- `create_user_vaddr_bitmap`, with the memory the bitmap gets. -/
def createUserVaddrBitmap (bits : ℕ → BitVec 8) : VirtualAddr where
  vaddrBitmap := bitmapInit ⟨(0xc0000000 - userVaddrStart) / pgSize / 8, bits⟩
  vaddrStart := userVaddrStart

end HcOs.Page
