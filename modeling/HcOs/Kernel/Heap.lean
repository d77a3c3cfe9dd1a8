import HcOs.Kernel.List
import HcOs.Kernel.Page

/-!
# The heap (`sys_malloc` and `sys_free` of `kernel/memory.c`)

The memory of a task is a function from addresses to words.  All pointers and all fields here are
words at addresses divisible by 4:

* `struct arena` at `a`: `desc` at `a`, `cnt` at `a + 4`, `large` at `a + 8`; 12 bytes.
* `struct list_elem` at `e`: `prev` at `e`, `next` at `e + 4`.
* `struct mem_block_desc` at `d`: `block_size` at `d`, `blocks_per_arena` at `d + 4`, the head of
  `free_list` at `d + 8` and its tail at `d + 16`; 24 bytes.

`malloc_page` and `mfree_page` are a parameter, the page layer below the heap.  What a page holds
when it is mapped does not matter, since `sys_malloc` clears it before anything else.
-/

namespace HcOs.Heap

open HcOs.Lib HcOs.Page

abbrev Words := ℕ → ℕ

def descCnt : ℕ := 7

/-- `sizeof(struct arena)`. -/
def arenaSize : ℕ := 12

/-- `sizeof(struct mem_block_desc)`. -/
def descSize : ℕ := 24

/-- `struct list_elem` in memory. -/
def elems : LinkHeap Words ℕ where
  null := 0
  prev mem e := mem e
  next mem e := mem (e + 4)
  setPrev mem e v := Function.update mem e v
  setNext mem e v := Function.update mem (e + 4) v

/-- The `free_list` of a descriptor. -/
def freeList (desc : ℕ) : Sentinels ℕ := ⟨desc + 8, desc + 16⟩

/-- `memset(dst, 0, size)`. -/
def memset (mem : Words) (dst size : ℕ) : Except Halt Words := do
  assert (dst ≠ 0) "memset" "dst_ != NULL"
  .ok fun w => if dst ≤ w ∧ w < dst + size then 0 else mem w

/-- `elem_find`; a list has fewer than `2 ^ 32` elements. -/
def find (mem : Words) (desc elem : ℕ) : Except Halt Bool :=
  elemFind elems mem (freeList desc) (2 ^ 32) elem

/-- The macro `DIV_ROUND_UP` on `uint32_t`. -/
def divRoundUp (x step : ℕ) : ℕ := (x + step - 1) % 2 ^ 32 / step

/-! ## Descriptors -/

/-- The loop of `block_desc_init`; `block_size` is a `uint16_t`. -/
def blockDescLoop (descs : ℕ) : ℕ → ℕ → ℕ → Words → Except Halt Words
  | 0, _, _, mem => .ok mem
  | left + 1, descIdx, blockSize, mem => do
    let desc := descs + descIdx * descSize
    let mem := Function.update mem desc blockSize
    let mem := Function.update mem (desc + 4) ((pgSize - arenaSize) / blockSize)
    let mem ← listInit elems mem (freeList desc)
    blockDescLoop descs left (descIdx + 1) (blockSize * 2 % 2 ^ 16) mem

def blockDescInit (mem : Words) (descs : ℕ) : Except Halt Words :=
  blockDescLoop descs descCnt 0 16 mem

/-- The address of the block number `idx` of an arena. -/
def arena2block (mem : Words) (a idx : ℕ) : ℕ := a + arenaSize + idx * mem (mem a)

/-- The arena of a block: `b & 0xfffff000`. -/
def block2arena (b : ℕ) : ℕ := b / pgSize * pgSize

/-! ## The page layer -/

/-- `malloc_page` and `mfree_page` for one task, and the runs of pages that are not freed. -/
structure PageLayer (K : Type) where
  poolSize : K → ℕ
  mallocPage : K → ℕ → Except Halt (K × Option ℕ)
  mfreePage : K → ℕ → ℕ → Except Halt K
  runs : K → ℕ × ℕ → Prop

/-- What a task sees of the heap. -/
structure Task (K : Type) where
  mem : Words
  pages : K

variable {K : Type} (L : PageLayer K)

/-! ## `sys_malloc` -/

/-- The search for a descriptor, from `descIdx` on. -/
def matchDesc (mem : Words) (descs size : ℕ) : ℕ → ℕ → ℕ
  | 0, descIdx => descIdx
  | left + 1, descIdx =>
    if size ≤ mem (descs + descIdx * descSize) then descIdx
    else matchDesc mem descs size left (descIdx + 1)

/-- The loop that splits a new arena, from the block number `blockIdx` on. -/
def splitLoop (a : ℕ) : ℕ → ℕ → Words → Except Halt Words
  | 0, _, mem => .ok mem
  | left + 1, blockIdx, mem => do
    let b := arena2block mem a blockIdx
    let found ← find mem (mem a) b
    assert (¬found = true) "sys_malloc" "!elem_find(&a->desc->free_list, &b->free_elem)"
    let mem ← listAppend elems mem (freeList (mem a)) b
    splitLoop a left (blockIdx + 1) mem

/-- A request for more than 1024 bytes. -/
def mallocLarge (t : Task K) (size : ℕ) : Except Halt (Task K × Option ℕ) := do
  let pageCnt := divRoundUp (size + arenaSize) pgSize
  let (k, a) ← L.mallocPage t.pages pageCnt
  match a with
  | none => .ok ({ t with pages := k }, none)
  | some a => do
    let mem ← memset t.mem a (pageCnt * pgSize % 2 ^ 32)
    let mem := Function.update mem a 0
    let mem := Function.update mem (a + 4) pageCnt
    let mem := Function.update mem (a + 8) 1
    .ok (⟨mem, k⟩, some (a + arenaSize))

/-- A new arena for an empty free list; `false` without one. -/
def newArena (t : Task K) (desc : ℕ) : Except Halt (Task K × Bool) := do
  let (k, a) ← L.mallocPage t.pages 1
  match a with
  | none => .ok ({ t with pages := k }, false)
  | some a => do
    let mem ← memset t.mem a pgSize
    let mem := Function.update mem a desc
    let mem := Function.update mem (a + 8) 0
    let mem := Function.update mem (a + 4) (mem (desc + 4))
    let mem ← splitLoop a (mem (desc + 4)) 0 mem
    .ok (⟨mem, k⟩, true)

/-- A block is taken from the free list. -/
def takeBlock (mem : Words) (desc : ℕ) : Except Halt (Words × ℕ) := do
  let (mem, b) ← listPop elems mem (freeList desc)
  let mem ← memset mem b (mem desc)
  let a := block2arena b
  .ok (Function.update mem (a + 4) (sub32 (mem (a + 4)) 1), b)

/-- A request for at most 1024 bytes. -/
def mallocSmall (descs : ℕ) (t : Task K) (size : ℕ) : Except Halt (Task K × Option ℕ) := do
  let desc := descs + matchDesc t.mem descs size descCnt 0 * descSize
  let isEmpty ← listEmpty elems t.mem (freeList desc)
  let (t, more) ← (if isEmpty = true then newArena L t desc else .ok (t, true) :
    Except Halt (Task K × Bool))
  if more then do
    let (mem, b) ← takeBlock t.mem desc
    .ok ({ t with mem }, some b)
  else .ok (t, none)

/-- `sys_malloc`, with the address of the task's descriptors; `none` is `NULL`. -/
def sysMalloc (descs : ℕ) (t : Task K) (size : ℕ) : Except Halt (Task K × Option ℕ) :=
  if ¬(0 < size ∧ size < L.poolSize t.pages) then .ok (t, none)
  else if 1024 < size then mallocLarge L t size
  else mallocSmall L descs t size

/-! ## `sys_free` -/

/-- The loop that takes the blocks of a free arena off the free list. -/
def releaseLoop (a : ℕ) : ℕ → ℕ → Words → Except Halt Words
  | 0, _, mem => .ok mem
  | left + 1, blockIdx, mem => do
    let b := arena2block mem a blockIdx
    let found ← find mem (mem a) b
    assert (found = true) "sys_free" "elem_find(&a->desc->free_list, &b->free_elem)"
    let mem ← listRemove elems mem b
    releaseLoop a left (blockIdx + 1) mem

/-- A block of a small arena is freed. -/
def freeSmall (t : Task K) (a b : ℕ) : Except Halt (Task K) := do
  let mem ← listAppend elems t.mem (freeList (t.mem a)) b
  let mem := Function.update mem (a + 4) ((mem (a + 4) + 1) % 2 ^ 32)
  if mem (a + 4) = mem (mem a + 4) then do
    let mem ← releaseLoop a (mem (mem a + 4)) 0 mem
    let k ← L.mfreePage t.pages a 1
    .ok ⟨mem, k⟩
  else .ok { t with mem }

/-- `sys_free`; `isThread` when the caller is a kernel thread. -/
def sysFree (isThread : Bool) (t : Task K) (ptr : ℕ) : Except Halt (Task K) := do
  assert (ptr ≠ 0) "sys_free" "ptr != NULL"
  assert (isThread = true → kHeapStart ≤ ptr) "sys_free" "(uint32_t)ptr >= K_HEAP_START"
  let a := block2arena ptr
  assert (t.mem (a + 8) = 0 ∨ t.mem (a + 8) = 1) "sys_free" "a->large == false || a->large == true"
  if t.mem a = 0 ∧ t.mem (a + 8) = 1 then do
    let k ← L.mfreePage t.pages a (t.mem (a + 4))
    .ok { t with pages := k }
  else freeSmall L t a ptr

end HcOs.Heap
