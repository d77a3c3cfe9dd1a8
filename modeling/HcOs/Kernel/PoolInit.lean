import HcOs.Kernel.Page
import HcOs.Lib.Bytes

/-!
# Where the pools and their bitmaps are (`kernel/memory.c`)

`mem_pool_init` divides the memory above the first 2 MiB into two pools, and puts the three bitmaps
one behind the other at `MEM_BITMAP_BASE`.  Here the bitmaps are what they are in the code, pointers
into one memory; `Page` has the same functions over bitmaps that are separate from each other, and
`palloc_refines` and `pfree_refines` say that this makes no difference.

`pools_laid`: whatever the size of the memory, the pools and the bitmaps are where they should be,
and `pfree` finds the pool and the bit of a frame by its address.

`managed_iff`: the pools have all of the memory only below 258 MiB.
-/

namespace HcOs.PoolInit

open HcOs.Lib HcOs.Page

/-- `MEM_BITMAP_BASE`. -/
def memBitmapBase : ℕ := 0xc009a000

/-- The PCB of the main thread. -/
def mainPcb : ℕ := 0xc009e000

/-- `struct bitmap`. -/
structure BitmapPtr where
  btmpBytesLen : ℕ
  bits : ℕ

namespace BitmapPtr

/-- The bitmap with its bytes. -/
def load (btmp : BitmapPtr) (mem : Bytes) : Bitmap where
  btmpBytesLen := btmp.btmpBytesLen
  bits i := mem (btmp.bits + i)

/-- `bitmap_init`. -/
def init (btmp : BitmapPtr) (mem : Bytes) : Bytes := mem.fill btmp.bits 0#8 btmp.btmpBytesLen

/-- `bitmap_set`. -/
def set (btmp : BitmapPtr) (mem : Bytes) (bitIdx : ℕ) (value : Bool) : Bytes :=
  Function.update mem (btmp.bits + bitIdx / 8)
    ((bitmapSet (btmp.load mem) bitIdx value).bits (bitIdx / 8))

end BitmapPtr

/-- `struct pool`. -/
structure PoolPtr where
  poolBitmap : BitmapPtr
  phyAddrStart : ℕ
  poolSize : ℕ

/-- The three pools and the memory of their bitmaps. -/
structure Pools where
  mem : Bytes
  kernelPool : PoolPtr
  userPool : PoolPtr
  kernelVaddrBitmap : BitmapPtr
  kernelVaddrStart : ℕ

def Pools.pool (s : Pools) : PoolFlags → PoolPtr
  | .kernel => s.kernelPool
  | .user => s.userPool

/-- `mem_pool_init`; the page counts are `uint16_t`. -/
def memPoolInit (mem : Bytes) (allMem : ℕ) : Pools :=
  let usedMem := pgSize * 256 + 0x100000
  let freeMem := sub32 allMem usedMem
  let allFreePage := freeMem / pgSize % 2 ^ 16
  let kernelFreePages := allFreePage / 2
  let userFreePages := allFreePage - kernelFreePages
  let kbmLength := kernelFreePages / 8
  let ubmLength := userFreePages / 8
  let kernelBitmap : BitmapPtr := ⟨kbmLength, memBitmapBase⟩
  let userBitmap : BitmapPtr := ⟨ubmLength, memBitmapBase + kbmLength⟩
  let vaddrBitmap : BitmapPtr := ⟨kbmLength, memBitmapBase + kbmLength + ubmLength⟩
  { mem := vaddrBitmap.init (userBitmap.init (kernelBitmap.init mem))
    kernelPool := ⟨kernelBitmap, usedMem, kernelFreePages * pgSize⟩
    userPool := ⟨userBitmap, usedMem + kernelFreePages * pgSize, userFreePages * pgSize⟩
    kernelVaddrBitmap := vaddrBitmap
    kernelVaddrStart := kHeapStart }

/-- `palloc`; `none` is `NULL`. -/
def palloc (s : Pools) (pf : PoolFlags) : Except Halt (Pools × Option ℕ) := do
  let pool := s.pool pf
  let bitIdx ← bitmapScan (pool.poolBitmap.load s.mem) 1
  match bitIdx with
  | none => .ok (s, none)
  | some i =>
    .ok ({ s with mem := pool.poolBitmap.set s.mem i true },
      some ((i * pgSize + pool.phyAddrStart) % 2 ^ 32))

/-- `pfree`. -/
def pfree (s : Pools) (pgPhyAddr : ℕ) : Pools :=
  let pf : PoolFlags := if s.userPool.phyAddrStart ≤ pgPhyAddr then .user else .kernel
  let pool := s.pool pf
  let bitIdx := sub32 pgPhyAddr pool.phyAddrStart / pgSize
  { s with mem := pool.poolBitmap.set s.mem bitIdx false }

/-! ## The layout -/

/-- The three bitmaps. -/
inductive Map where
  | pool (pf : PoolFlags)
  | vaddr
  deriving DecidableEq

def Pools.bitmap (s : Pools) : Map → BitmapPtr
  | .pool pf => (s.pool pf).poolBitmap
  | .vaddr => s.kernelVaddrBitmap

/-- The pools and bitmaps of a machine with `allMem` bytes of memory. -/
structure Laid (allMem : ℕ) (s : Pools) : Prop where
  aligned : ∀ pf, (s.pool pf).phyAddrStart % pgSize = 0 ∧ (s.pool pf).poolSize % pgSize = 0
  inside : ∀ pf, 0x200000 ≤ (s.pool pf).phyAddrStart ∧
    (s.pool pf).phyAddrStart + (s.pool pf).poolSize ≤ allMem
  apart : s.kernelPool.phyAddrStart + s.kernelPool.poolSize ≤ s.userPool.phyAddrStart
  /-- A bit of a pool stands for a page of the pool. -/
  page : ∀ pf i, i < 8 * (s.pool pf).poolBitmap.btmpBytesLen →
    (s.pool pf).phyAddrStart + i * pgSize + pgSize ≤ (s.pool pf).phyAddrStart + (s.pool pf).poolSize
  /-- The bitmaps are below the PCB of the main thread. -/
  bits : ∀ map, memBitmapBase ≤ (s.bitmap map).bits ∧
    (s.bitmap map).bits + (s.bitmap map).btmpBytesLen ≤ mainPcb
  /-- No byte belongs to two bitmaps. -/
  disjoint : ∀ map map' k k', map ≠ map' → k < (s.bitmap map).btmpBytesLen →
    k' < (s.bitmap map').btmpBytesLen → (s.bitmap map).bits + k ≠ (s.bitmap map').bits + k'

/-- The pools and the bitmaps are in the same places, whatever the bits. -/
def SamePlaces (s t : Pools) : Prop := t = { s with mem := t.mem }

def Pools.test (s : Pools) (map : Map) (i : ℕ) : Bool :=
  bitmapScanTest ((s.bitmap map).load s.mem) i

/-- `s'` is `s` with one bit set to `value`. -/
structure SetsBit (s : Pools) (map : Map) (i : ℕ) (value : Bool) (s' : Pools) : Prop where
  places : SamePlaces s s'
  bit : ∀ map' j, j < 8 * (s.bitmap map').btmpBytesLen →
    s'.test map' j = if map' = map ∧ j = i then value else s.test map' j
  rest : ∀ x, x ≠ (s.bitmap map).bits + i / 8 → s'.mem x = s.mem x

variable {s s' t : Pools} {pf : PoolFlags} {map map' : Map} {allMem i j a : ℕ} {v : Bool}

theorem SamePlaces.pool (h : SamePlaces s t) (pf : PoolFlags) : t.pool pf = s.pool pf := by
  rw [h]
  cases pf <;> rfl

theorem SamePlaces.bitmap (h : SamePlaces s t) (map : Map) : t.bitmap map = s.bitmap map := by
  rw [h]
  cases map with
  | pool pf => cases pf <;> rfl
  | vaddr => rfl

/-- The number of pages in the pools. -/
theorem freePages_bounds (hlo : 0x200000 ≤ allMem) (hhi : allMem < 2 ^ 32) :
    sub32 allMem (pgSize * 256 + 0x100000) / pgSize % 2 ^ 16 < 2 ^ 16 ∧
      0x200000 + sub32 allMem (pgSize * 256 + 0x100000) / pgSize % 2 ^ 16 * 4096 ≤ allMem := by
  have hused : pgSize * 256 + 0x100000 = 0x200000 := rfl
  rw [hused, sub32_eq hlo hhi]
  unfold pgSize
  omega

/-- `mem_pool_init` for every size of the memory. -/
theorem laid_memPoolInit (mem : Bytes) (hlo : 0x200000 ≤ allMem) (hhi : allMem < 2 ^ 32) :
    Laid allMem (memPoolInit mem allMem) := by
  obtain ⟨hpages, hend⟩ := freePages_bounds hlo hhi
  unfold memPoolInit
  dsimp only
  generalize sub32 allMem (pgSize * 256 + 0x100000) / pgSize % 2 ^ 16 = pages at hpages hend ⊢
  refine ⟨fun pf => ?_, fun pf => ?_, ?_, fun pf i hi => ?_, fun map => ?_, fun map map' k k' => ?_⟩
  · constructor <;> cases pf <;> simp only [Pools.pool, pgSize] <;> omega
  · cases pf <;> simp only [Pools.pool, pgSize] <;> omega
  · exact Nat.le_refl _
  · cases pf <;> simp only [Pools.pool, pgSize] at hi ⊢ <;> omega
  · rcases map with (_ | _) | _ <;> simp only [Pools.bitmap, Pools.pool, memBitmapBase, mainPcb] <;>
      omega
  · rcases map with (_ | _) | _ <;> rcases map' with (_ | _) | _ <;> intro hne hk hk' <;>
      simp only [Pools.bitmap, Pools.pool] at hk hk' ⊢ <;>
        first | exact absurd rfl hne | omega

/-! ## `palloc` and `pfree` -/

theorem load_set (btmp : BitmapPtr) (mem : Bytes) (i : ℕ) (v : Bool) :
    btmp.load (btmp.set mem i v) = bitmapSet (btmp.load mem) i v := by
  have hbits : (fun k => btmp.set mem i v (btmp.bits + k)) =
      (bitmapSet (btmp.load mem) i v).bits := by
    funext k
    unfold BitmapPtr.set
    rcases eq_or_ne k (i / 8) with rfl | hne
    · rw [Function.update_self]
    · rw [Function.update_of_ne (by omega)]
      unfold bitmapSet
      dsimp only
      rw [Function.update_of_ne hne]
      rfl
  unfold BitmapPtr.load at hbits ⊢
  rw [hbits]
  rfl

theorem SamePlaces.laid (h : SamePlaces s t) (hs : Laid allMem s) : Laid allMem t where
  aligned pf := by
    rw [h.pool]
    exact hs.aligned pf
  inside pf := by
    rw [h.pool]
    exact hs.inside pf
  apart := by
    have hk : t.kernelPool = s.kernelPool := h.pool .kernel
    have hu : t.userPool = s.userPool := h.pool .user
    rw [hk, hu]
    exact hs.apart
  page pf := by
    rw [h.pool]
    exact hs.page pf
  bits map := by
    rw [h.bitmap]
    exact hs.bits map
  disjoint map map' := by
    rw [h.bitmap, h.bitmap]
    exact hs.disjoint map map'

/-- `bitmap_set` inside a bitmap leaves the other bitmaps. -/
theorem Laid.setsBit (hs : Laid allMem s) (hi : i < 8 * (s.bitmap map).btmpBytesLen) (v : Bool) :
    SetsBit s map i v { s with mem := (s.bitmap map).set s.mem i v } where
  places := rfl
  bit map' j hj := by
    show bitmapScanTest ((s.bitmap map').load ((s.bitmap map).set s.mem i v)) j = _
    by_cases hmap : map' = map
    · subst hmap
      rw [load_set, bitmapScanTest_set]
      simp only [true_and]
      rfl
    · rw [if_neg fun h => hmap h.1]
      unfold Pools.test
      rw [bitmapScanTest_eq, bitmapScanTest_eq]
      have hne := hs.disjoint map' map (j / 8) (i / 8) hmap (by omega) (by omega)
      unfold BitmapPtr.load BitmapPtr.set
      dsimp only
      rw [Function.update_of_ne hne]
  rest x hx := Function.update_of_ne hx _ _

/-- The pool of a frame is found by a comparison of its address with the start of the user pool. -/
theorem Laid.frame_pool (hs : Laid allMem s) (hi : i < 8 * (s.pool pf).poolBitmap.btmpBytesLen) :
    (if s.userPool.phyAddrStart ≤ (s.pool pf).phyAddrStart + i * pgSize then PoolFlags.user
      else .kernel) = pf := by
  have hpage := hs.page pf i hi
  have hapart := hs.apart
  cases pf with
  | kernel =>
    have hsize : 0 < pgSize := by decide
    simp only [Pools.pool] at hpage ⊢
    exact if_neg (by omega)
  | user => exact if_pos (Nat.le_add_right _ _)

theorem Laid.frame_bit (hs : Laid allMem s) (hhi : allMem < 2 ^ 32)
    (hi : i < 8 * (s.pool pf).poolBitmap.btmpBytesLen) :
    sub32 ((s.pool pf).phyAddrStart + i * pgSize) (s.pool pf).phyAddrStart / pgSize = i := by
  have hpage := hs.page pf i hi
  have hend := (hs.inside pf).2
  rw [sub32_eq (Nat.le_add_right _ _) (by omega), Nat.add_sub_cancel_left]
  exact Nat.mul_div_cancel i (by decide)

theorem Laid.pfree_eq (hs : Laid allMem s) (hhi : allMem < 2 ^ 32)
    (hi : i < 8 * (s.pool pf).poolBitmap.btmpBytesLen) :
    pfree s ((s.pool pf).phyAddrStart + i * pgSize) =
      { s with mem := (s.bitmap (.pool pf)).set s.mem i false } := by
  unfold pfree
  dsimp only
  rw [hs.frame_pool hi, hs.frame_bit hhi hi]
  rfl

/-- The frame of the bit that `bitmap_scan` has found. -/
theorem Laid.palloc_eq (hs : Laid allMem s) (hhi : allMem < 2 ^ 32)
    (hi : i < 8 * (s.pool pf).poolBitmap.btmpBytesLen)
    (hscan : bitmapScan ((s.pool pf).poolBitmap.load s.mem) 1 = .ok (some i)) :
    palloc s pf = .ok ({ s with mem := (s.bitmap (.pool pf)).set s.mem i true },
      some ((s.pool pf).phyAddrStart + i * pgSize)) := by
  have hpage := hs.page pf i hi
  have hend := (hs.inside pf).2
  have hsum : (i * pgSize + (s.pool pf).phyAddrStart) % 2 ^ 32 =
      (s.pool pf).phyAddrStart + i * pgSize := by
    rw [Nat.add_comm]
    exact Nat.mod_eq_of_lt (by omega)
  unfold palloc
  dsimp only
  rw [hscan, ok_bind]
  dsimp only
  rw [hsum]
  rfl

theorem palloc_error {x : Halt}
    (hscan : bitmapScan ((s.pool pf).poolBitmap.load s.mem) 1 = .error x) :
    palloc s pf = .error x := by
  unfold palloc
  dsimp only
  rw [hscan]
  rfl

/-- The outcome of `bitmap_scan` for one bit: a clear bit, or the failure of its assertion. -/
theorem scan_cases (b : Bitmap) :
    bitmapScan b 1 = .error (.panic "bitmap_scan" "idx_byte < btmp->btmp_bytes_len") ∨
    ∃ i, bitmapScan b 1 = .ok (some i) ∧ i < 8 * b.btmpBytesLen ∧ bitmapScanTest b i = false := by
  rcases bitmapScan_spec (b := b) (Nat.le_refl 1) with
    ⟨herr, -⟩ | ⟨i, hok, hclear, -, hlt, -⟩ | ⟨-, hne, -⟩
  · exact Or.inl herr
  · exact Or.inr ⟨i, hok, hlt rfl, hclear i (Nat.le_refl i) (Nat.lt_succ_self i)⟩
  · exact absurd rfl hne

/-- **The pools.**  For every size of the memory the pools and their bitmaps are in place, and in
whatever order pages are taken and given back, `pfree` of what `palloc` has returned clears the bit
that `palloc` has set, and no other. -/
theorem pools_laid (mem : Bytes) (allMem : ℕ) (hlo : 0x200000 ≤ allMem) (hhi : allMem < 2 ^ 32) :
    Laid allMem (memPoolInit mem allMem) ∧
    ∀ s, SamePlaces (memPoolInit mem allMem) s → ∀ pf s' a, palloc s pf = .ok (s', some a) →
      ∃ i, i < 8 * (s.pool pf).poolBitmap.btmpBytesLen ∧ s.test (.pool pf) i = false ∧
        a = (s.pool pf).phyAddrStart + i * pgSize ∧ SetsBit s (.pool pf) i true s' ∧
        ∀ t, SamePlaces (memPoolInit mem allMem) t → SetsBit t (.pool pf) i false (pfree t a) := by
  have hinit := laid_memPoolInit mem hlo hhi
  refine ⟨hinit, fun s hs pf s' a hpalloc => ?_⟩
  have hlaid := hs.laid hinit
  rcases scan_cases ((s.pool pf).poolBitmap.load s.mem) with herr | ⟨i, hok, hi, hclear⟩
  · rw [palloc_error herr] at hpalloc
    cases hpalloc
  · rw [hlaid.palloc_eq hhi hi hok] at hpalloc
    cases hpalloc
    refine ⟨i, hi, hclear, rfl, hlaid.setsBit hi true, fun t ht => ?_⟩
    rw [hs.pool] at hi ⊢
    rw [← ht.pool] at hi ⊢
    rw [(ht.laid hinit).pfree_eq hhi hi]
    exact (ht.laid hinit).setsBit hi false

/-- The pools of a machine with 32 MiB. -/
def smallPools : Pools := memPoolInit (fun _ => 0#8) 0x2000000

/-- The first page of the user pool. -/
theorem pools_laid_user :
    Laid 0x2000000 smallPools ∧
    ∃ s', palloc smallPools .user = .ok (s', some 0x1100000) ∧
      SetsBit s' (.pool .user) 0 false (pfree s' 0x1100000) := by
  obtain ⟨hlaid, hfree⟩ := pools_laid (fun _ => 0#8) 0x2000000 (by decide) (by decide)
  refine ⟨hlaid, ?_⟩
  have haddr : (palloc smallPools .user).toOption.bind Prod.snd = some 0x1100000 := by
    decide +kernel
  cases hpalloc : palloc smallPools .user with
  | error x =>
    rw [hpalloc] at haddr
    cases haddr
  | ok r =>
    obtain ⟨s', a⟩ := r
    rw [hpalloc] at haddr
    obtain rfl : a = some 0x1100000 := haddr
    obtain ⟨i, hi, -, ha, hset, hclear⟩ := hfree smallPools rfl .user s' 0x1100000 hpalloc
    have hzero : i = 0 := by
      have hstart : (smallPools.pool .user).phyAddrStart = 0x1100000 := by decide
      rw [hstart] at ha
      unfold pgSize at ha
      omega
    subst hzero
    exact ⟨s', rfl, hclear s' hset.places⟩

/-! ## The size of the pools -/

/-- The pages that the two pools can hand out. -/
def Pools.pages (s : Pools) : ℕ :=
  8 * s.kernelPool.poolBitmap.btmpBytesLen + 8 * s.userPool.poolBitmap.btmpBytesLen

/-- All pages above the first 2 MiB are in the pools, up to those that the two divisions by 8 leave
out. -/
def Managed (allMem : ℕ) (s : Pools) : Prop := (allMem - 0x200000) / pgSize - 14 ≤ s.pages

instance (allMem : ℕ) (s : Pools) : Decidable (Managed allMem s) :=
  inferInstanceAs (Decidable (_ ≤ _))

/-- The divisions lose at most 7 pages each. -/
theorem pages_memPoolInit (mem : Bytes) (hlo : 0x200000 ≤ allMem) (hhi : allMem < 2 ^ 32) :
    (memPoolInit mem allMem).pages ≤ (allMem - 0x200000) / pgSize % 2 ^ 16 ∧
      (allMem - 0x200000) / pgSize % 2 ^ 16 ≤ (memPoolInit mem allMem).pages + 14 := by
  have hused : pgSize * 256 + 0x100000 = 0x200000 := rfl
  unfold Pools.pages memPoolInit
  dsimp only
  rw [hused, sub32_eq hlo hhi]
  generalize (allMem - 0x200000) / pgSize % 2 ^ 16 = pages
  omega

/-- **The memory that is managed.**  The bitmaps have room for 512 MiB, but the number of the free
pages is kept in 16 bits: the pools have the free pages if and only if there are fewer than `2 ^ 16`
of them. -/
theorem managed_iff (mem : Bytes) (allMem : ℕ) (hlo : 0x200000 ≤ allMem)
    (hhi : allMem ≤ 512 * 2 ^ 20) :
    Managed allMem (memPoolInit mem allMem) ↔ allMem < 258 * 2 ^ 20 := by
  obtain ⟨hle, hge⟩ := pages_memPoolInit mem hlo (by omega)
  unfold Managed
  unfold pgSize at hle hge ⊢
  omega

/-- The last size for which it works, and the next page. -/
theorem managed_iff_edge :
    Managed (258 * 2 ^ 20 - 1) (memPoolInit (fun _ => 0#8) (258 * 2 ^ 20 - 1)) ∧
      ¬Managed (258 * 2 ^ 20) (memPoolInit (fun _ => 0#8) (258 * 2 ^ 20)) :=
  ⟨(managed_iff _ _ (by decide) (by decide)).mpr (by decide),
    fun h => absurd ((managed_iff _ _ (by decide) (by decide)).mp h) (by decide)⟩

/-- With 512 MiB half of the pages are lost. -/
theorem not_managed_512 :
    ¬Managed (512 * 2 ^ 20) (memPoolInit (fun _ => 0#8) (512 * 2 ^ 20)) := by
  decide

/-! ## The bitmaps of `Page` -/

/-- Two bitmaps with the same bits. -/
structure SameBits (b b' : Bitmap) : Prop where
  len : b.btmpBytesLen = b'.btmpBytesLen
  bits : ∀ k, k < b.btmpBytesLen → b.bits k = b'.bits k

theorem scanByte_congr {b b' : Bitmap} {n : ℕ} (h : ∀ k, k < n → b.bits k = b'.bits k)
    (left idx : ℕ) (hend : idx + left ≤ n) : scanByte b left idx = scanByte b' left idx := by
  induction left generalizing idx with
  | zero => rfl
  | succ left ih =>
    unfold scanByte
    rw [h idx (by omega), ih (idx + 1) (by omega)]

/-- `bitmap_scan` for one bit looks at nothing else. -/
theorem SameBits.bitmapScan {b b' : Bitmap} (h : SameBits b b') :
    HcOs.bitmapScan b 1 = HcOs.bitmapScan b' 1 := by
  have hbyte : scanByte b b.btmpBytesLen 0 = scanByte b' b'.btmpBytesLen 0 := by
    rw [scanByte_congr h.bits _ _ (by omega), h.len]
  unfold HcOs.bitmapScan
  dsimp only
  rw [hbyte, h.len]
  by_cases hlt : scanByte b' b'.btmpBytesLen 0 < b'.btmpBytesLen
  · rw [assert_bind_of hlt, assert_bind_of hlt, h.bits _ (by rw [h.len]; exact hlt)]
    rfl
  · rw [assert_bind_of_not hlt, assert_bind_of_not hlt]

theorem SameBits.bitmapSet {b b' : Bitmap} (h : SameBits b b') {i : ℕ} (hi : i < 8 * b.btmpBytesLen)
    (v : Bool) : SameBits (bitmapSet b i v) (bitmapSet b' i v) where
  len := h.len
  bits k hk := by
    unfold HcOs.bitmapSet
    dsimp only
    rw [h.bits (i / 8) (by omega)]
    rcases eq_or_ne k (i / 8) with rfl | hne
    · rw [Function.update_self, Function.update_self]
    · rw [Function.update_of_ne hne, Function.update_of_ne hne]
      exact h.bits k hk

variable {P : Type} {m : Mem P}

/-- The pools of `m` are those of `s`. -/
structure Agree (s : Pools) (m : Mem P) : Prop where
  places : ∀ pf, (m.pool pf).phyAddrStart = (s.pool pf).phyAddrStart ∧
    (m.pool pf).poolSize = (s.pool pf).poolSize
  pools : ∀ pf, SameBits (m.pool pf).poolBitmap ((s.pool pf).poolBitmap.load s.mem)
  vaddr : SameBits m.kernelVaddr.vaddrBitmap (s.kernelVaddrBitmap.load s.mem)

theorem init_of_mem (btmp : BitmapPtr) (mem : Bytes) {k : ℕ} (hk : k < btmp.btmpBytesLen) :
    btmp.init mem (btmp.bits + k) = 0#8 :=
  Bytes.fill_of_mem (Nat.le_add_right _ _) (Nat.add_lt_add_left hk _)

/-- What is clear stays clear when a bitmap is cleared. -/
theorem init_of_zero (btmp : BitmapPtr) {mem : Bytes} {x : ℕ} (hx : mem x = 0#8) :
    btmp.init mem x = 0#8 := by
  unfold BitmapPtr.init
  by_cases hin : btmp.bits ≤ x ∧ x < btmp.bits + btmp.btmpBytesLen
  · exact Bytes.fill_of_mem hin.1 hin.2
  · rw [Bytes.fill_of_not_mem (by omega), hx]

/-- `bitmap_init` in both models. -/
theorem sameBits_init (btmp : BitmapPtr) (bits : ℕ → BitVec 8) {mem : Bytes}
    (h : ∀ k, k < btmp.btmpBytesLen → mem (btmp.bits + k) = 0#8) :
    SameBits (bitmapInit ⟨btmp.btmpBytesLen, bits⟩) (btmp.load mem) :=
  ⟨rfl, fun k hk => (if_pos hk).trans (h k hk).symm⟩

/-- `mem_pool_init` clears the three bitmaps. -/
theorem agree_memPoolInit (mem : Bytes) (m : Mem P) (allMem : ℕ) :
    Agree (memPoolInit mem allMem) (Page.memPoolInit m allMem) where
  places pf := by cases pf <;> exact ⟨rfl, rfl⟩
  pools pf := by
    cases pf with
    | kernel =>
      exact sameBits_init (memPoolInit mem allMem).kernelPool.poolBitmap _
        fun k hk => init_of_zero _ (init_of_zero _ (init_of_mem _ _ hk))
    | user =>
      exact sameBits_init (memPoolInit mem allMem).userPool.poolBitmap _
        fun k hk => init_of_zero _ (init_of_mem _ _ hk)
  vaddr := sameBits_init (memPoolInit mem allMem).kernelVaddrBitmap _
    fun k hk => init_of_mem _ _ hk

theorem SameBits.trans {b b' b'' : Bitmap} (h : SameBits b b') (h' : SameBits b' b'') :
    SameBits b b'' :=
  ⟨h.len.trans h'.len, fun k hk => (h.bits k hk).trans (h'.bits k (h.len ▸ hk))⟩

/-- A write to the bitmap of a pool does not show in the others. -/
theorem Laid.sameBits_set (hs : Laid allMem s) (hi : i < 8 * (s.bitmap map).btmpBytesLen)
    (hne : map' ≠ map) (v : Bool) :
    SameBits ((s.bitmap map').load s.mem)
      ((s.bitmap map').load ((s.bitmap map).set s.mem i v)) := by
  refine ⟨rfl, fun k hk => ?_⟩
  have hbyte := hs.disjoint map' map k (i / 8) hne hk (by omega)
  unfold BitmapPtr.load BitmapPtr.set
  dsimp only
  rw [Function.update_of_ne hbyte]

theorem Agree.set (h : Agree s m) (hs : Laid allMem s) (pf : PoolFlags)
    (hi : i < 8 * (s.bitmap (.pool pf)).btmpBytesLen) (v : Bool) :
    Agree { s with mem := (s.bitmap (.pool pf)).set s.mem i v }
      (m.setPool { m.pool pf with poolBitmap := bitmapSet (m.pool pf).poolBitmap i v } pf) := by
  have hself : SameBits (bitmapSet (m.pool pf).poolBitmap i v)
      ((s.pool pf).poolBitmap.load ((s.bitmap (.pool pf)).set s.mem i v)) := by
    have hload := load_set (s.pool pf).poolBitmap s.mem i v
    have hlen := (h.pools pf).len
    refine hload.symm ▸ (h.pools pf).bitmapSet ?_ v
    rw [hlen]
    exact hi
  have hother : ∀ pf', pf' ≠ pf → SameBits (m.pool pf').poolBitmap
      ((s.pool pf').poolBitmap.load ((s.bitmap (.pool pf)).set s.mem i v)) := by
    intro pf' hne
    exact (h.pools pf').trans (hs.sameBits_set hi (fun heq => hne (Map.pool.inj heq)) v)
  have hne : Map.vaddr ≠ .pool pf := nofun
  have hvaddr := h.vaddr.trans (hs.sameBits_set hi hne v)
  refine ⟨fun pf' => ?_, fun pf' => ?_, ?_⟩
  · rw [pool_setPool]
    split
    · next heq =>
      rw [heq]
      exact h.places pf
    · exact h.places pf'
  · rw [pool_setPool]
    split
    · next heq =>
      rw [heq]
      exact hself
    · next hpf => exact hother pf' hpf
  · cases pf <;> exact hvaddr

/-- `palloc` in both models. -/
theorem palloc_refines (h : Agree s m) (hs : Laid allMem s) (hhi : allMem < 2 ^ 32)
    (pf : PoolFlags) :
    (∃ x, palloc s pf = .error x ∧ Page.palloc m pf = .error x) ∨
      ∃ s' m' a, palloc s pf = .ok (s', some a) ∧ Page.palloc m pf = .ok (m', some a) ∧
        SamePlaces s s' ∧ Agree s' m' := by
  have hscan := (h.pools pf).bitmapScan
  rcases scan_cases ((s.pool pf).poolBitmap.load s.mem) with herr | ⟨i, hok, hi, -⟩
  · refine Or.inl ⟨_, palloc_error herr, ?_⟩
    unfold Page.palloc
    dsimp only
    rw [hscan, herr]
    rfl
  · refine Or.inr ⟨_, _, _, hs.palloc_eq hhi hi hok, ?_, rfl, h.set hs pf hi true⟩
    unfold Page.palloc
    dsimp only
    rw [hscan, hok, ok_bind]
    dsimp only
    rw [(h.places pf).1, Nat.add_comm]

/-- `pfree` of a frame of a pool in both models. -/
theorem pfree_refines (h : Agree s m) (hs : Laid allMem s) (hhi : allMem < 2 ^ 32)
    (hi : i < 8 * (s.pool pf).poolBitmap.btmpBytesLen) :
    Agree (pfree s ((s.pool pf).phyAddrStart + i * pgSize))
      (Page.pfree m ((s.pool pf).phyAddrStart + i * pgSize)) := by
  have hstart : m.userPool.phyAddrStart = s.userPool.phyAddrStart := (h.places .user).1
  have hbit := hs.frame_bit hhi hi
  rw [← (h.places pf).1] at hbit
  rw [hs.pfree_eq hhi hi]
  unfold Page.pfree
  dsimp only
  rw [hstart, hs.frame_pool hi, ← (h.places pf).1, hbit]
  exact h.set hs pf hi false

end HcOs.PoolInit
