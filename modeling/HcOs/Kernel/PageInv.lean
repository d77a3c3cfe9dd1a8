import HcOs.Kernel.Page
import HcOs.Lib.Ownership

/-!
# Who owns a frame

A heap page is a pair `(d, i)`: the page number `i` of the kernel's virtual pool for `d = none`, of
the pool of the process `p` for `d = some p`.  A frame of a physical pool is held by a heap page
that is mapped to it, or by a page directory entry of a process that uses it as a page table.

The operations of `kernel/memory.c` are made of seven small steps: a frame is taken from its pool or
returned to it, a page table is created, a page is mapped or unmapped, a bit of a virtual pool is set
or cleared.  `Inv m pend stuck flight` is kept by each of them: `pend` are the pages whose bit is set
but that are not mapped, `flight` the frames that are taken but not held.  Between two calls both
are empty.

The kernel's pool has one page more than its bitmap has bits, since `bitmap_scan` looks one bit too
far.  When that bit of memory happens to be set the page is `stuck`.
-/

namespace HcOs.Page

open HcOs.Lib

variable {P : Type}

/-! ## Pages, frames and owners -/

def pfOf : Option P → PoolFlags
  | none => .kernel
  | some _ => .user

def poolStart : Option P → ℕ
  | none => kHeapStart
  | some _ => userVaddrStart

/-- The virtual address of a heap page. -/
def vaddrOf (pg : Option P × ℕ) : ℕ := poolStart pg.1 + pg.2 * pgSize

/-- The number of pages a pool can give out. -/
def limit (m : Mem P) : Option P → ℕ
  | none => 8 * m.kernelVaddr.vaddrBitmap.btmpBytesLen + 1
  | some p => 8 * (m.userprogVaddr (some p)).vaddrBitmap.btmpBytesLen

/-- The bit of a page in its virtual pool. -/
def vbit (m : Mem P) (pg : Option P × ℕ) : Bool :=
  bitmapScanTest (m.vaddr pg.1 (pfOf pg.1)).vaddrBitmap pg.2

def hasTable (m : Mem P) (pg : Option P × ℕ) : Bool := (m.pde pg.1 (pdeIdx (vaddrOf pg))).p

/-- The page is mapped in its directory. -/
def present (m : Mem P) (pg : Option P × ℕ) : Bool :=
  hasTable m pg && (m.pte pg.1 (vaddrOf pg)).p

inductive Owner (P : Type) where
  | page (pg : Option P × ℕ)
  /-- The entry `j` of the page directory of a process. -/
  | table (p : P) (j : ℕ)
deriving DecidableEq

theorem Owner.page_ne_table (pg : Option P × ℕ) (p : P) (j : ℕ) :
    Owner.page pg ≠ .table p j := nofun

def Owner.kind : Owner P → PoolFlags
  | .page pg => pfOf pg.1
  | .table _ _ => .kernel

/-- The frame an owner holds. -/
def holds (m : Mem P) : Owner P → Option ℕ
  | .page pg =>
    if pg.2 < limit m pg.1 ∧ present m pg = true then some (m.pte pg.1 (vaddrOf pg)).base else none
  | .table p j =>
    if j < 768 ∧ (m.pde (some p) j).p = true then some (m.pde (some p) j).base else none

/-- The frame number `j` of a pool. -/
def frameAt (m : Mem P) (k : PoolFlags) (j : ℕ) : ℕ := j * pgSize + (m.pool k).phyAddrStart

def frames (m : Mem P) (k : PoolFlags) : ℕ := 8 * (m.pool k).poolBitmap.btmpBytesLen

def InPool (m : Mem P) (k : PoolFlags) (f : ℕ) : Prop := ∃ j, j < frames m k ∧ f = frameAt m k j

/-- The frame is marked as used in its pool. -/
def used (m : Mem P) (f : ℕ) : Prop :=
  ∃ k j, j < frames m k ∧ f = frameAt m k j ∧ bitmapScanTest (m.pool k).poolBitmap j = true

/-- What never changes: the pools lie one after the other, and the upper quarter of every page
directory is that of the kernel. -/
structure Geo (m : Mem P) : Prop where
  kernelStart : m.kernelPool.phyAddrStart = 0x200000
  userStart : ∃ n, 8 * m.kernelPool.poolBitmap.btmpBytesLen ≤ n ∧ n < 2 ^ 15 ∧
    m.userPool.phyAddrStart = 0x200000 + n * pgSize
  userFrames : m.userPool.poolBitmap.btmpBytesLen ≤ 2 ^ 12
  kernelVaddr : m.kernelVaddr.vaddrStart = kHeapStart
  kernelPages : m.kernelVaddr.vaddrBitmap.btmpBytesLen < 2 ^ 12
  userVaddr : ∀ p, (m.userprogVaddr (some p)).vaddrStart = userVaddrStart
  userPages : ∀ p, (m.userprogVaddr (some p)).vaddrBitmap.btmpBytesLen = 94199
  threadPages : (m.userprogVaddr none).vaddrBitmap.btmpBytesLen = 0
  kernelPde : ∀ d j, 768 ≤ j → j < 1023 → m.pde d j = ⟨0x101000 + 0x1000 * (j - 768), true⟩
  lowPte : (m.pt 0x101000 0).p = true
  poolSizes : ∀ k, (m.pool k).poolSize < 2 ^ 28

/-- The invariant in the middle of a call. -/
structure Inv (m : Mem P) (pend stuck : Option P × ℕ → Prop) (flight : ℕ → Prop) : Prop where
  geo : Geo m
  bit_iff : ∀ pg, pg.2 < limit m pg.1 →
    (vbit m pg = true ↔ present m pg = true ∨ pend pg ∨ stuck pg)
  pend_spec : ∀ pg, pend pg → pg.2 < limit m pg.1 ∧ present m pg = false
  stuck_spec : ∀ pg, stuck pg →
    pg.1 = none ∧ pg.2 + 1 = limit m none ∧ present m pg = false ∧ ¬pend pg
  kind : ∀ o f, holds m o = some f → InPool m o.kind f
  owns : Owns (used m) flight (holds m)

variable {m m' : Mem P} {pend pend' stuck : Option P × ℕ → Prop} {flight flight' : ℕ → Prop}
variable {pg q : Option P × ℕ} {k : PoolFlags} {i j f : ℕ} {d cur : Option P} {p : P}

/-! ## Where the entry of a page is -/

theorem limit_le (hg : Geo m) (hv : pg.2 < limit m pg.1) :
    (pg.1 = none ∧ pg.2 < 2 ^ 15) ∨ ((∃ p, pg.1 = some p) ∧ pg.2 < 753592) := by
  obtain ⟨d, i⟩ := pg
  cases d with
  | none =>
    have := hg.kernelPages
    simp only [limit] at hv
    exact Or.inl ⟨rfl, by simp only; omega⟩
  | some p =>
    have := hg.userPages p
    simp only [limit] at hv
    exact Or.inr ⟨⟨p, rfl⟩, by simp only; omega⟩

theorem pdeIdx_kernel (hi : i < 2 ^ 15) :
    pdeIdx (vaddrOf ((none : Option P), i)) = 768 + (256 + i) / 1024 := by
  simp only [pdeIdx, vaddrOf, poolStart, kHeapStart, pgSize]
  omega

theorem pteIdx_kernel : pteIdx (vaddrOf ((none : Option P), i)) = (256 + i) % 1024 := by
  simp only [pteIdx, vaddrOf, poolStart, kHeapStart, pgSize]
  omega

theorem pdeIdx_user (hi : i < 753592) : pdeIdx (vaddrOf (some p, i)) = (0x8048 + i) / 1024 := by
  simp only [pdeIdx, vaddrOf, poolStart, userVaddrStart, pgSize]
  omega

theorem pteIdx_user : pteIdx (vaddrOf (some p, i)) = (0x8048 + i) % 1024 := by
  simp only [pteIdx, vaddrOf, poolStart, userVaddrStart, pgSize]
  omega

theorem pde_kernel (hg : Geo m) (d : Option P) (hi : i < 2 ^ 15) :
    m.pde d (pdeIdx (vaddrOf ((none : Option P), i))) =
      ⟨0x101000 + 0x1000 * ((256 + i) / 1024), true⟩ := by
  rw [pdeIdx_kernel hi, hg.kernelPde d _ (by omega) (by omega), Nat.add_sub_cancel_left]

/-- Kernel pages have the same entries in every directory. -/
theorem pde_eq (hg : Geo m) (hv : pg.2 < limit m pg.1) (hd : pg.1 = none ∨ pg.1 = cur) :
    m.pde cur (pdeIdx (vaddrOf pg)) = m.pde pg.1 (pdeIdx (vaddrOf pg)) := by
  rcases hd with hd | hd
  · obtain ⟨d, i⟩ := pg
    simp only at hd
    subst hd
    rcases limit_le hg hv with ⟨-, hi⟩ | ⟨⟨p, hp⟩, -⟩
    · rw [pde_kernel hg _ hi, pde_kernel hg _ hi]
    · cases hp
  · rw [hd]

theorem pte_eq (hg : Geo m) (hv : pg.2 < limit m pg.1) (hd : pg.1 = none ∨ pg.1 = cur) :
    m.pte cur (vaddrOf pg) = m.pte pg.1 (vaddrOf pg) := by
  rw [Mem.pte, Mem.pte, pde_eq hg hv hd]

theorem setPte_eq (hg : Geo m) (hv : pg.2 < limit m pg.1) (hd : pg.1 = none ∨ pg.1 = cur)
    (e : Entry) : m.setPte cur (vaddrOf pg) e = m.setPte pg.1 (vaddrOf pg) e := by
  rw [Mem.setPte, Mem.setPte, pde_eq hg hv hd]

/-- The table of a process page is a frame of the kernel's pool, held by its directory entry. -/
theorem holds_table (hi : i < 753592) (ht : hasTable m (some p, i) = true) :
    holds m (.table p ((0x8048 + i) / 1024)) =
      some (m.pde (some p) (pdeIdx (vaddrOf (some p, i)))).base := by
  have hj : (0x8048 + i) / 1024 < 768 := by omega
  unfold hasTable at ht
  rw [pdeIdx_user hi] at ht ⊢
  rw [holds, if_pos ⟨hj, ht⟩]

theorem le_of_inPool_kernel (hg : Geo m) (hf : InPool m .kernel f) : 0x200000 ≤ f := by
  obtain ⟨j, -, rfl⟩ := hf
  simp only [frameAt, Mem.pool, hg.kernelStart]
  omega

/-- Two pages with a page table do not share their entry. -/
theorem loc_inj (hi : Inv m pend stuck flight) (hv : pg.2 < limit m pg.1)
    (hq : q.2 < limit m q.1) (htp : hasTable m pg = true) (htq : hasTable m q = true)
    (hb : (m.pde pg.1 (pdeIdx (vaddrOf pg))).base = (m.pde q.1 (pdeIdx (vaddrOf q))).base)
    (hx : pteIdx (vaddrOf pg) = pteIdx (vaddrOf q)) : pg = q := by
  obtain ⟨d, i⟩ := pg
  obtain ⟨e, j⟩ := q
  rcases limit_le hi.geo hv with ⟨hd, hi'⟩ | ⟨⟨p, hd⟩, hi'⟩ <;>
    rcases limit_le hi.geo hq with ⟨he, hj'⟩ | ⟨⟨p', he⟩, hj'⟩ <;>
    simp only at hd he hi' hj' <;> subst hd <;> subst he
  · rw [pde_kernel hi.geo _ hi', pde_kernel hi.geo _ hj'] at hb
    rw [pteIdx_kernel, pteIdx_kernel] at hx
    simp only at hb
    congr 1
    omega
  · have hframe := hi.kind _ _ (holds_table hj' htq)
    have hle := le_of_inPool_kernel hi.geo hframe
    simp only at hb
    rw [← hb, pde_kernel hi.geo _ hi'] at hle
    simp only at hle
    omega
  · have hframe := hi.kind _ _ (holds_table hi' htp)
    have hle := le_of_inPool_kernel hi.geo hframe
    simp only at hb
    rw [hb, pde_kernel hi.geo _ hj'] at hle
    simp only at hle
    omega
  · have hp := holds_table hi' htp
    have hp' := holds_table hj' htq
    simp only at hb
    rw [hb] at hp
    have hown := hi.owns.inj hp hp'
    rw [pteIdx_user, pteIdx_user] at hx
    simp only [Owner.table.injEq] at hown
    obtain ⟨rfl, hdiv⟩ := hown
    congr 1
    omega

/-! ## Frames of the pools -/

/-- The bit of the frame number `j` of a pool is set to `v`. -/
def setFrame (m : Mem P) (k : PoolFlags) (j : ℕ) (v : Bool) : Mem P :=
  m.setPool { m.pool k with poolBitmap := bitmapSet (m.pool k).poolBitmap j v } k

theorem frameAt_inj (hg : Geo m) {l : PoolFlags} (hi : i < frames m k) (hj : j < frames m l)
    (h : frameAt m k i = frameAt m l j) : k = l ∧ i = j := by
  obtain ⟨n, hn, -, hs⟩ := hg.userStart
  have hk := hg.kernelStart
  cases k <;> cases l <;>
    simp only [frames, frameAt, Mem.pool, hk, hs, pgSize] at hi hj h <;>
    first | exact ⟨rfl, by omega⟩ | omega

theorem setFrame_holds (v : Bool) : holds (setFrame m k j v) = holds m := by
  cases k <;> rfl

theorem setFrame_frames (v : Bool) {l : PoolFlags} : frames (setFrame m k j v) l = frames m l := by
  cases k <;> cases l <;> rfl

theorem setFrame_frameAt (v : Bool) {l : PoolFlags} :
    frameAt (setFrame m k j v) l i = frameAt m l i := by
  cases k <;> cases l <;> rfl

theorem setFrame_bit (v : Bool) {l : PoolFlags} :
    bitmapScanTest ((setFrame m k j v).pool l).poolBitmap i =
      if l = k ∧ i = j then v else bitmapScanTest (m.pool l).poolBitmap i := by
  cases k <;> cases l <;> simp [setFrame, Mem.setPool, Mem.pool, bitmapScanTest_set]

theorem setFrame_geo (hg : Geo m) (v : Bool) : Geo (setFrame m k j v) := by
  have hsize : ∀ l, ((setFrame m k j v).pool l).poolSize = (m.pool l).poolSize := by
    intro l
    cases k <;> cases l <;> rfl
  have hsizes : ∀ l, ((setFrame m k j v).pool l).poolSize < 2 ^ 28 := by
    intro l
    rw [hsize]
    exact hg.poolSizes l
  cases k <;> exact ⟨hg.kernelStart, hg.userStart, hg.userFrames, hg.kernelVaddr, hg.kernelPages,
    hg.userVaddr, hg.userPages, hg.threadPages, hg.kernelPde, hg.lowPte, hsizes⟩

theorem setFrame_used (hg : Geo m) (hj : j < frames m k) (v : Bool) :
    used (setFrame m k j v) f ↔
      (f = frameAt m k j ∧ v = true) ∨ (f ≠ frameAt m k j ∧ used m f) := by
  simp only [used, setFrame_frames, setFrame_frameAt, setFrame_bit]
  constructor
  · rintro ⟨l, i, hi, rfl, hbit⟩
    by_cases hli : l = k ∧ i = j
    · rw [if_pos hli] at hbit
      obtain ⟨rfl, rfl⟩ := hli
      exact Or.inl ⟨rfl, hbit⟩
    · rw [if_neg hli] at hbit
      exact Or.inr ⟨fun h => hli (frameAt_inj hg hi hj h), l, i, hi, rfl, hbit⟩
  · rintro (⟨rfl, hv⟩ | ⟨hne, l, i, hi, rfl, hbit⟩)
    · exact ⟨k, j, hj, rfl, by rw [if_pos ⟨rfl, rfl⟩, hv]⟩
    · refine ⟨l, i, hi, rfl, ?_⟩
      rw [if_neg, hbit]
      rintro ⟨rfl, rfl⟩
      exact hne rfl

theorem setFrame_inPool (v : Bool) {l : PoolFlags} :
    InPool (setFrame m k j v) l f ↔ InPool m l f := by
  simp only [InPool, setFrame_frames, setFrame_frameAt]

/-- A change of a frame's bit, once the ledger is known. -/
theorem inv_setFrame (hi : Inv m pend stuck flight) (v : Bool)
    (ho : Owns (used (setFrame m k j v)) flight' (holds m)) :
    Inv (setFrame m k j v) pend stuck flight' := by
  have hl : limit (setFrame m k j v) = limit m := by cases k <;> rfl
  have hv : vbit (setFrame m k j v) = vbit m := by cases k <;> rfl
  have hp : present (setFrame m k j v) = present m := by cases k <;> rfl
  refine ⟨setFrame_geo hi.geo v, ?_, ?_, ?_, fun o f hf => ?_, ?_⟩
  · rw [hl, hv, hp]
    exact hi.bit_iff
  · rw [hl, hp]
    exact hi.pend_spec
  · rw [hl, hp]
    exact hi.stuck_spec
  · rw [setFrame_inPool]
    rw [setFrame_holds] at hf
    exact hi.kind o f hf
  · rw [setFrame_holds]
    exact ho

/-- A free frame is taken from its pool. -/
theorem inv_alloc (hi : Inv m pend stuck flight) (hj : j < frames m k)
    (hbit : bitmapScanTest (m.pool k).poolBitmap j = false) :
    Inv (setFrame m k j true) pend stuck fun g => g = frameAt m k j ∨ flight g := by
  refine inv_setFrame hi true ?_
  have hfree : ¬used m (frameAt m k j) := by
    rintro ⟨l, i, hil, hf, hb⟩
    obtain ⟨rfl, rfl⟩ := frameAt_inj hi.geo hj hil hf
    rw [hbit] at hb
    cases hb
  refine (hi.owns.alloc hfree).congr (fun f => ?_) (fun f => Iff.rfl) fun o => rfl
  rw [setFrame_used hi.geo hj]
  by_cases hf : f = frameAt m k j <;> simp [hf]

/-- A frame that is not held is returned to its pool. -/
theorem inv_free (hi : Inv m pend stuck flight) (hj : j < frames m k)
    (hf : flight (frameAt m k j)) :
    Inv (setFrame m k j false) pend stuck fun g => g ≠ frameAt m k j ∧ flight g := by
  refine inv_setFrame hi false ?_
  refine (hi.owns.free hf).congr (fun f => ?_) (fun f => Iff.rfl) fun o => rfl
  rw [setFrame_used hi.geo hj]
  by_cases h : f = frameAt m k j <;> simp [h]

/-! ## Bits of the virtual pools -/

variable [DecidableEq P]

/-- The bit of a page in its virtual pool is set to `v`. -/
def setVbit (m : Mem P) (pg : Option P × ℕ) (v : Bool) : Mem P :=
  let va := m.vaddr pg.1 (pfOf pg.1)
  m.setVaddr pg.1 { va with vaddrBitmap := bitmapSet va.vaddrBitmap pg.2 v } (pfOf pg.1)

theorem setVbit_vbit (v : Bool) : vbit (setVbit m pg v) q = if q = pg then v else vbit m q := by
  obtain ⟨d, i⟩ := pg
  obtain ⟨e, j⟩ := q
  cases d with
  | none =>
    cases e with
    | none => simp [vbit, setVbit, Mem.vaddr, Mem.setVaddr, pfOf, bitmapScanTest_set]
    | some p => simp [vbit, setVbit, Mem.vaddr, Mem.setVaddr, pfOf]
  | some p =>
    cases e with
    | none => simp [vbit, setVbit, Mem.vaddr, Mem.setVaddr, pfOf]
    | some p' =>
      by_cases hp : p' = p
      · subst hp
        simp [vbit, setVbit, Mem.vaddr, Mem.setVaddr, pfOf, bitmapScanTest_set]
      · simp [vbit, setVbit, Mem.vaddr, Mem.setVaddr, pfOf, hp]

theorem setVbit_limit (v : Bool) : limit (setVbit m pg v) d = limit m d := by
  obtain ⟨e, i⟩ := pg
  cases e with
  | none => cases d <;> rfl
  | some p =>
    cases d with
    | none => rfl
    | some p' => by_cases hp : p' = p <;> simp [limit, setVbit, Mem.vaddr, Mem.setVaddr, pfOf, hp]

theorem setVbit_present (v : Bool) : present (setVbit m pg v) = present m := by
  obtain ⟨e, i⟩ := pg
  cases e <;> rfl

theorem setVbit_holds (v : Bool) : holds (setVbit m pg v) = holds m := by
  have hpte : ∀ d a, (setVbit m pg v).pte d a = m.pte d a := by
    obtain ⟨e, i⟩ := pg
    cases e <;> exact fun _ _ => rfl
  have hpde : (setVbit m pg v).pde = m.pde := by
    obtain ⟨e, i⟩ := pg
    cases e <;> rfl
  funext o
  cases o with
  | page q => simp only [holds, setVbit_limit, setVbit_present, hpte]
  | table p j => simp only [holds, hpde]

theorem setVbit_geo (hg : Geo m) (v : Bool) : Geo (setVbit m pg v) := by
  obtain ⟨e, i⟩ := pg
  cases e with
  | none => exact ⟨hg.kernelStart, hg.userStart, hg.userFrames, hg.kernelVaddr, hg.kernelPages,
      hg.userVaddr, hg.userPages, hg.threadPages, hg.kernelPde, hg.lowPte, hg.poolSizes⟩
  | some p =>
    refine ⟨hg.kernelStart, hg.userStart, hg.userFrames, hg.kernelVaddr, hg.kernelPages,
      fun p' => ?_, fun p' => ?_, ?_, hg.kernelPde, hg.lowPte, hg.poolSizes⟩
    · by_cases hp : p' = p
      · subst hp
        simpa [setVbit, Mem.vaddr, Mem.setVaddr, pfOf] using hg.userVaddr p'
      · simpa [setVbit, Mem.vaddr, Mem.setVaddr, pfOf, hp] using hg.userVaddr p'
    · by_cases hp : p' = p
      · subst hp
        simpa [setVbit, Mem.vaddr, Mem.setVaddr, pfOf] using hg.userPages p'
      · simpa [setVbit, Mem.vaddr, Mem.setVaddr, pfOf, hp] using hg.userPages p'
    · simpa [setVbit, Mem.vaddr, Mem.setVaddr, pfOf] using hg.threadPages

theorem setVbit_used (v : Bool) : used (setVbit m pg v) = used m := by
  obtain ⟨e, i⟩ := pg
  cases e <;> rfl

theorem setVbit_inPool (v : Bool) : InPool (setVbit m pg v) = InPool m := by
  obtain ⟨e, i⟩ := pg
  cases e <;> rfl

/-- The bit of a page that is not mapped is set. -/
theorem inv_mark (hi : Inv m pend stuck flight) (hv : pg.2 < limit m pg.1)
    (hbit : vbit m pg = false) :
    Inv (setVbit m pg true) (fun q => q = pg ∨ pend q) stuck flight := by
  have hnot : ¬(present m pg = true ∨ pend pg ∨ stuck pg) := by
    rw [← hi.bit_iff pg hv, hbit]
    nofun
  rw [not_or, not_or] at hnot
  refine ⟨setVbit_geo hi.geo true, fun q hq => ?_, fun q hq => ?_, fun q hq => ?_, ?_, ?_⟩
  · rw [setVbit_limit] at hq
    rw [setVbit_vbit, setVbit_present]
    by_cases hqp : q = pg
    · simp [hqp]
    · simpa [hqp] using hi.bit_iff q hq
  · rw [setVbit_limit, setVbit_present]
    rcases hq with rfl | hq
    · exact ⟨hv, by simpa using hnot.1⟩
    · exact hi.pend_spec q hq
  · rw [setVbit_limit, setVbit_present]
    obtain ⟨h1, h2, h3, h4⟩ := hi.stuck_spec q hq
    refine ⟨h1, h2, h3, ?_⟩
    rintro (rfl | hp)
    · exact hnot.2.2 hq
    · exact h4 hp
  · rw [setVbit_holds, setVbit_inPool]
    exact hi.kind
  · rw [setVbit_used, setVbit_holds]
    exact hi.owns

/-- The bit of a page that is not mapped is cleared. -/
theorem inv_unmark (hi : Inv m pend stuck flight) (hp : pend pg) :
    Inv (setVbit m pg false) (fun q => q ≠ pg ∧ pend q) stuck flight := by
  have hstuck : ¬stuck pg := fun h => (hi.stuck_spec pg h).2.2.2 hp
  have hpres := (hi.pend_spec pg hp).2
  refine ⟨setVbit_geo hi.geo false, fun q hq => ?_, fun q hq => ?_, fun q hq => ?_, ?_, ?_⟩
  · rw [setVbit_limit] at hq
    rw [setVbit_vbit, setVbit_present]
    by_cases hqp : q = pg
    · simp [hqp, hpres, hstuck]
    · simpa [hqp] using hi.bit_iff q hq
  · rw [setVbit_limit, setVbit_present]
    exact hi.pend_spec q hq.2
  · rw [setVbit_limit, setVbit_present]
    obtain ⟨h1, h2, h3, h4⟩ := hi.stuck_spec q hq
    exact ⟨h1, h2, h3, fun h => h4 h.2⟩
  · rw [setVbit_holds, setVbit_inPool]
    exact hi.kind
  · rw [setVbit_used, setVbit_holds]
    exact hi.owns

/-! ## Entries of the page tables -/

omit [DecidableEq P] in
theorem pte_setPte_self {v : ℕ} {e : Entry} : (m.setPte d v e).pte d v = e := by
  simp [Mem.setPte, Mem.pte]

omit [DecidableEq P] in
/-- A write to the entry of one page leaves the entries of the others alone. -/
theorem pte_setPte (hi : Inv m pend stuck flight) (hv : pg.2 < limit m pg.1)
    (hq : q.2 < limit m q.1) (htp : hasTable m pg = true) (htq : hasTable m q = true)
    (hne : q ≠ pg) (e : Entry) :
    (m.setPte pg.1 (vaddrOf pg) e).pte q.1 (vaddrOf q) = m.pte q.1 (vaddrOf q) := by
  simp only [Mem.setPte, Mem.pte]
  by_cases hb : (m.pde q.1 (pdeIdx (vaddrOf q))).base = (m.pde pg.1 (pdeIdx (vaddrOf pg))).base
  · rw [hb, Function.update_self]
    by_cases hx : pteIdx (vaddrOf q) = pteIdx (vaddrOf pg)
    · exact absurd (loc_inj hi hq hv htq htp hb hx) hne
    · rw [Function.update_of_ne hx]
  · rw [Function.update_of_ne hb]

theorem present_setPte (hi : Inv m pend stuck flight) (hv : pg.2 < limit m pg.1)
    (hq : q.2 < limit m q.1) (htp : hasTable m pg = true) (e : Entry) :
    present (m.setPte pg.1 (vaddrOf pg) e) q = if q = pg then e.p else present m q := by
  have htable : hasTable (m.setPte pg.1 (vaddrOf pg) e) q = hasTable m q := rfl
  rw [present, htable]
  by_cases hqp : q = pg
  · subst hqp
    rw [if_pos rfl, htp, pte_setPte_self, Bool.true_and]
  · rw [if_neg hqp, present]
    cases htq : hasTable m q with
    | false => rfl
    | true => rw [pte_setPte hi hv hq htp htq hqp]

theorem holds_setPte (hi : Inv m pend stuck flight) (hv : pg.2 < limit m pg.1)
    (htp : hasTable m pg = true) (e : Entry) :
    holds (m.setPte pg.1 (vaddrOf pg) e) =
      Function.update (holds m) (.page pg) (if e.p = true then some e.base else none) := by
  funext o
  cases o with
  | table p j =>
    rw [Function.update_of_ne (Owner.page_ne_table pg p j).symm]
    rfl
  | page q =>
    have hl : limit (m.setPte pg.1 (vaddrOf pg) e) q.1 = limit m q.1 := by
      cases q.1 <;> rfl
    by_cases hqv : q.2 < limit m q.1
    · rw [holds, hl, present_setPte hi hv hqv htp]
      by_cases hqp : q = pg
      · subst hqp
        rw [if_pos rfl, Function.update_self, pte_setPte_self]
        simp only [hqv, true_and]
      · have hne : (Owner.page q : Owner P) ≠ .page pg := fun h => hqp (Owner.page.inj h)
        rw [if_neg hqp, Function.update_of_ne hne, holds]
        by_cases hpq : present m q = true
        · have htq : hasTable m q = true := by
            rw [present, Bool.and_eq_true] at hpq
            exact hpq.1
          rw [pte_setPte hi hv hqv htp htq hqp]
        · rw [if_neg fun h => hpq h.2, if_neg fun h => hpq h.2]
    · have hne : (Owner.page q : Owner P) ≠ .page pg := by
        rintro h
        rw [Owner.page.inj h] at hqv
        exact hqv hv
      rw [Function.update_of_ne hne, holds, holds, hl]
      simp only [hqv, false_and, if_false]

omit [DecidableEq P] in
theorem setPte_geo (hi : Inv m pend stuck flight) (hv : pg.2 < limit m pg.1)
    (htp : hasTable m pg = true) (e : Entry) : Geo (m.setPte pg.1 (vaddrOf pg) e) := by
  have hg := hi.geo
  refine ⟨hg.kernelStart, hg.userStart, hg.userFrames, hg.kernelVaddr, hg.kernelPages, hg.userVaddr,
    hg.userPages, hg.threadPages, hg.kernelPde, ?_, hg.poolSizes⟩
  obtain ⟨d, i⟩ := pg
  simp only [Mem.setPte]
  rcases limit_le hg hv with ⟨hd, hi'⟩ | ⟨⟨p, hd⟩, hi'⟩ <;> simp only at hd hi' <;> subst hd
  · rw [pde_kernel hg _ hi', pteIdx_kernel]
    by_cases hb : (0x101000 : ℕ) = 0x101000 + 0x1000 * ((256 + i) / 1024)
    · rw [← hb, Function.update_self, Function.update_of_ne (by omega)]
      exact hg.lowPte
    · rw [Function.update_of_ne hb]
      exact hg.lowPte
  · have hle := le_of_inPool_kernel hg (hi.kind _ _ (holds_table hi' htp))
    rw [Function.update_of_ne (by omega)]
    exact hg.lowPte

/-- A write to the entry of a page, once the ledger is known. -/
theorem inv_setPte (hi : Inv m pend stuck flight) (hv : pg.2 < limit m pg.1)
    (htp : hasTable m pg = true) {e : Entry} (hnot : ¬stuck pg)
    (hvb : vbit m pg = true) (hrest : ∀ q, q ≠ pg → (pend' q ↔ pend q))
    (hpend : pend' pg ↔ e.p = false) (hkind : e.p = true → InPool m (pfOf pg.1) e.base)
    (ho : Owns (used m) flight'
      (Function.update (holds m) (.page pg) (if e.p = true then some e.base else none))) :
    Inv (m.setPte pg.1 (vaddrOf pg) e) pend' stuck flight' := by
  have hlim : ∀ d, limit (m.setPte pg.1 (vaddrOf pg) e) d = limit m d := by
    intro d
    cases d <;> rfl
  refine ⟨setPte_geo hi hv htp e, fun q hq => ?_, fun q hq => ?_, fun q hq => ?_,
    fun o f hf => ?_, ?_⟩
  · rw [hlim] at hq
    have hvbit : vbit (m.setPte pg.1 (vaddrOf pg) e) q = vbit m q := rfl
    rw [hvbit, present_setPte hi hv hq htp]
    by_cases hqp : q = pg
    · subst hqp
      rw [if_pos rfl, hvb, hpend]
      cases e.p <;> simp
    · rw [if_neg hqp, hrest q hqp]
      exact hi.bit_iff q hq
  · by_cases hqp : q = pg
    · subst hqp
      rw [hlim, present_setPte hi hv hv htp, if_pos rfl]
      exact ⟨hv, hpend.mp hq⟩
    · obtain ⟨h1, h2⟩ := hi.pend_spec q ((hrest q hqp).mp hq)
      rw [hlim, present_setPte hi hv h1 htp, if_neg hqp]
      exact ⟨h1, h2⟩
  · have hqp : q ≠ pg := fun h => hnot (h ▸ hq)
    obtain ⟨h1, h2, h3, h4⟩ := hi.stuck_spec q hq
    have hqv : q.2 < limit m q.1 := by rw [h1]; omega
    rw [hlim, present_setPte hi hv hqv htp, if_neg hqp, hrest q hqp]
    exact ⟨h1, h2, h3, h4⟩
  · rw [holds_setPte hi hv htp] at hf
    have hin : InPool (m.setPte pg.1 (vaddrOf pg) e) = InPool m := rfl
    rw [hin]
    by_cases hop : o = .page pg
    · subst hop
      rw [Function.update_self] at hf
      by_cases hep : e.p = true
      · rw [if_pos hep, Option.some.injEq] at hf
        exact hf ▸ hkind hep
      · rw [if_neg hep] at hf
        cases hf
    · rw [Function.update_of_ne hop] at hf
      exact hi.kind o f hf
  · rw [holds_setPte hi hv htp]
    exact ho

/-- A page whose bit is set is mapped to a frame in flight. -/
theorem inv_map (hi : Inv m pend stuck flight) (hp : pend pg) (htp : hasTable m pg = true)
    (hf : flight f) (hk : InPool m (pfOf pg.1) f) :
    Inv (m.setPte pg.1 (vaddrOf pg) ⟨f, true⟩) (fun q => q ≠ pg ∧ pend q) stuck
      fun g => g ≠ f ∧ flight g := by
  obtain ⟨hv, hpres⟩ := hi.pend_spec pg hp
  have hnone : holds m (.page pg) = none := by
    rw [holds, if_neg]
    rw [hpres]
    exact fun h => by cases h.2
  refine inv_setPte hi hv htp (fun h => (hi.stuck_spec pg h).2.2.2 hp)
    ((hi.bit_iff pg hv).mpr (Or.inr (Or.inl hp))) (fun q hq => by simp [hq]) (by simp)
    (fun _ => hk) ?_
  exact hi.owns.give hf hnone

/-- A mapped page is unmapped. -/
theorem inv_unmap (hi : Inv m pend stuck flight) (hv : pg.2 < limit m pg.1)
    (hp : present m pg = true) :
    Inv (m.setPte pg.1 (vaddrOf pg) ⟨(m.pte pg.1 (vaddrOf pg)).base, false⟩)
      (fun q => q = pg ∨ pend q) stuck
      fun g => g = (m.pte pg.1 (vaddrOf pg)).base ∨ flight g := by
  have htp : hasTable m pg = true := by
    rw [present, Bool.and_eq_true] at hp
    exact hp.1
  have hheld : holds m (.page pg) = some (m.pte pg.1 (vaddrOf pg)).base := by
    rw [holds, if_pos ⟨hv, hp⟩]
  refine inv_setPte hi hv htp (fun h => ?_) ((hi.bit_iff pg hv).mpr (Or.inl hp))
    (fun q hq => by simp [hq]) (by simp) nofun ?_
  · rw [(hi.stuck_spec pg h).2.2.1] at hp
    cases hp
  · exact hi.owns.take hheld

/-! ## New page tables -/

/-- The frame `g` becomes the page table of the entry `j` of a process's directory. -/
def newTable (m : Mem P) (p : P) (j g : ℕ) : Mem P :=
  { m with
    pde := Function.update m.pde (some p) (Function.update (m.pde (some p)) j ⟨g, true⟩)
    pt := Function.update m.pt g fun _ => ⟨0, false⟩ }

theorem newTable_pde {j' : ℕ} (h : ¬(d = some p ∧ j' = j)) :
    (newTable m p j i).pde d j' = m.pde d j' := by
  by_cases hd : d = some p
  · subst hd
    have hj : j' ≠ j := fun hj => h ⟨rfl, hj⟩
    simp [newTable, hj]
  · simp [newTable, hd]

theorem newTable_pde_self : (newTable m p j i).pde (some p) j = ⟨i, true⟩ := by
  simp [newTable]

omit [DecidableEq P] in
/-- A page has a frame as its page table only if the frame is held, or is one of the kernel's. -/
theorem table_ne_of_flight (hi : Inv m pend stuck flight) (hf : flight f)
    (hk : InPool m .kernel f) (hq : q.2 < limit m q.1) (htq : hasTable m q = true) :
    (m.pde q.1 (pdeIdx (vaddrOf q))).base ≠ f := by
  obtain ⟨e, i⟩ := q
  rcases limit_le hi.geo hq with ⟨he, hi'⟩ | ⟨⟨p', he⟩, hi'⟩ <;> simp only at he hi' <;> subst he
  · have hle := le_of_inPool_kernel hi.geo hk
    rw [pde_kernel hi.geo _ hi']
    simp only
    omega
  · intro h
    have hheld := holds_table hi' htq
    simp only at h
    rw [h] at hheld
    exact hi.owns.flight_free hf hheld

theorem newTable_present (hi : Inv m pend stuck flight) (hf : flight f)
    (hk : InPool m .kernel f) (habs : (m.pde (some p) j).p = false) (hq : q.2 < limit m q.1) :
    present (newTable m p j f) q = present m q ∧
      (present m q = true → (newTable m p j f).pte q.1 (vaddrOf q) = m.pte q.1 (vaddrOf q)) := by
  by_cases h : q.1 = some p ∧ pdeIdx (vaddrOf q) = j
  · have hold : present m q = false := by
      rw [present, hasTable, h.1, h.2, habs, Bool.false_and]
    refine ⟨?_, fun h => by rw [hold] at h; cases h⟩
    rw [hold, present, Mem.pte, h.1, h.2, newTable_pde_self]
    simp [newTable]
  · have hpde := newTable_pde (m := m) (i := f) h
    have hpte : hasTable m q = true →
        (newTable m p j f).pte q.1 (vaddrOf q) = m.pte q.1 (vaddrOf q) := by
      intro htq
      rw [Mem.pte, Mem.pte, hpde]
      have hne := table_ne_of_flight hi hf hk hq htq
      simp only [newTable]
      rw [Function.update_of_ne hne]
    refine ⟨?_, fun hp => ?_⟩
    · have htab : hasTable (newTable m p j f) q = hasTable m q := by
        rw [hasTable, hasTable, hpde]
      rw [present, present, htab]
      cases htq : hasTable m q with
      | false => rfl
      | true => rw [hpte htq]
    · rw [present, Bool.and_eq_true] at hp
      exact hpte hp.1

theorem newTable_holds (hi : Inv m pend stuck flight) (hf : flight f)
    (hk : InPool m .kernel f) (hj : j < 768) (habs : (m.pde (some p) j).p = false) :
    holds (newTable m p j f) = Function.update (holds m) (.table p j) (some f) := by
  funext o
  cases o with
  | table p' j' =>
    by_cases h : p' = p ∧ j' = j
    · obtain ⟨rfl, rfl⟩ := h
      rw [Function.update_self, holds, newTable_pde_self, if_pos ⟨hj, rfl⟩]
    · have hne : Owner.table p' j' ≠ Owner.table p j := fun e => h (Owner.table.inj e)
      rw [Function.update_of_ne hne, holds, holds,
        newTable_pde fun hd => h ⟨Option.some.inj hd.1, hd.2⟩]
  | page q =>
    have hl : limit (newTable m p j f) q.1 = limit m q.1 := by cases q.1 <;> rfl
    rw [Function.update_of_ne (Owner.page_ne_table q p j), holds, holds, hl]
    by_cases hq : q.2 < limit m q.1
    · obtain ⟨hpres, hpte⟩ := newTable_present hi hf hk habs hq
      rw [hpres]
      by_cases hp : present m q = true
      · rw [hpte hp]
      · rw [if_neg fun h => hp h.2, if_neg fun h => hp h.2]
    · rw [if_neg fun h => hq h.1, if_neg fun h => hq h.1]

/-- A frame in flight becomes a page table. -/
theorem inv_newTable (hi : Inv m pend stuck flight) (hf : flight f) (hk : InPool m .kernel f)
    (hj : j < 768) (habs : (m.pde (some p) j).p = false) :
    Inv (newTable m p j f) pend stuck fun g => g ≠ f ∧ flight g := by
  have hg := hi.geo
  have hlim : ∀ d, limit (newTable m p j f) d = limit m d := fun d => by cases d <;> rfl
  have hpres : ∀ q : Option P × ℕ, q.2 < limit m q.1 →
      present (newTable m p j f) q = present m q := fun q hq =>
    (newTable_present hi hf hk habs hq).1
  refine ⟨⟨hg.kernelStart, hg.userStart, hg.userFrames, hg.kernelVaddr, hg.kernelPages,
    hg.userVaddr, hg.userPages, hg.threadPages, fun d j' h1 h2 => ?_, ?_, hg.poolSizes⟩, fun q hq => ?_,
    fun q hq => ?_, fun q hq => ?_, fun o g hg' => ?_, ?_⟩
  · rw [newTable_pde (by omega)]
    exact hg.kernelPde d j' h1 h2
  · have hle := le_of_inPool_kernel hg hk
    simp only [newTable]
    rw [Function.update_of_ne (by omega)]
    exact hg.lowPte
  · rw [hlim] at hq
    rw [hpres q hq]
    exact hi.bit_iff q hq
  · obtain ⟨h1, h2⟩ := hi.pend_spec q hq
    rw [hlim, hpres q h1]
    exact ⟨h1, h2⟩
  · obtain ⟨h1, h2, h3, h4⟩ := hi.stuck_spec q hq
    have hqv : q.2 < limit m q.1 := by rw [h1]; omega
    rw [hlim, hpres q hqv]
    exact ⟨h1, h2, h3, h4⟩
  · rw [newTable_holds hi hf hk hj habs] at hg'
    have hin : InPool (newTable m p j f) = InPool m := rfl
    rw [hin]
    by_cases ho : o = .table p j
    · subst ho
      rw [Function.update_self, Option.some.injEq] at hg'
      exact hg' ▸ hk
    · rw [Function.update_of_ne ho] at hg'
      exact hi.kind o g hg'
  · rw [newTable_holds hi hf hk hj habs]
    refine hi.owns.give hf ?_
    rw [holds, if_neg]
    rw [habs]
    exact fun h => by cases h.2

end HcOs.Page
