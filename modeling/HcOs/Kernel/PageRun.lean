import HcOs.Kernel.PageOps
import HcOs.Lib.Machine

/-!
# Page ownership over whole runs

Kernel threads and processes call `malloc_page`, `mfree_page` and `get_a_page` one call at a time, in
any order.  The main result, `ownership`, says who owns which frame in every state such a run
reaches, and that "pte repeat" is not reached as long as no `malloc_page` of a process searches past
the end of its pool.  There `bitmap_scan` returns a run that sticks out by one page, and that page is
the first one of the kernel: `pte_repeat_reachable`.

Page directories and the bitmaps of the processes are kept apart from the pages they are stored in,
so a process is there from the start, with an empty pool, until it makes its first call.
-/

namespace HcOs.Page

open HcOs.Lib

variable {P : Type}

/-! ## The machine -/

/-- A run of pages that `malloc_page` returned; `pool` is `none` for the kernel's pool. -/
structure Run (P : Type) where
  pool : Option P
  vaddr : ℕ
  pgCnt : ℕ
deriving DecidableEq

instance [DecidableEq P] : LawfulBEq (Run P) := inferInstance

inductive Call (P : Type) where
  | mallocPage (cur : Option P) (pf : PoolFlags) (pgCnt : ℕ)
  | mfreePage (cur : Option P) (r : Run P)
  | getAPage (cur : Option P) (pf : PoolFlags) (vaddr : ℕ)

/-- The memory, and the runs that are not freed yet. -/
structure St (P : Type) where
  mem : Mem P
  runs : List (Run P)

/-- Whose pool `pf` means for the task `cur`. -/
def poolOf (cur : Option P) : PoolFlags → Option P
  | .kernel => none
  | .user => cur

/-- The address lies in a page of the virtual pool whose bit is clear. -/
def FreePage (m : Mem P) (cur : Option P) (pf : PoolFlags) (vaddr : ℕ) : Prop :=
  let v := m.vaddr cur pf
  v.vaddrStart ≤ vaddr ∧ (vaddr - v.vaddrStart) / pgSize < 8 * v.vaddrBitmap.btmpBytesLen ∧
    bitmapScanTest v.vaddrBitmap ((vaddr - v.vaddrStart) / pgSize) = false

instance (m : Mem P) (cur : Option P) (pf : PoolFlags) (vaddr : ℕ) :
    Decidable (FreePage m cur pf vaddr) :=
  inferInstanceAs (Decidable (_ ∧ _ ∧ _))

variable [DecidableEq P]

def pageStep (s : St P) : Call P → Option (Except Halt (St P))
  | .mallocPage cur pf pgCnt => some (do
      let (m, vaddr) ← mallocPage s.mem cur pf pgCnt
      match vaddr with
      | none => .ok { s with mem := m }
      | some v => .ok ⟨m, ⟨poolOf cur pf, v, pgCnt⟩ :: s.runs⟩)
  | .mfreePage cur r =>
    if r ∈ s.runs ∧ (r.pool = none ∨ r.pool = cur) then some (do
      let m ← mfreePage s.mem cur (pfOf r.pool) r.vaddr r.pgCnt
      .ok ⟨m, s.runs.erase r⟩)
    else none
  | .getAPage cur pf vaddr =>
    if FreePage s.mem cur pf vaddr then some (do
      let (m, _) ← getAPage s.mem cur pf vaddr
      .ok { s with mem := m })
    else none

def pageMachine : Machine (St P) (Call P) Halt where
  step := pageStep

/-- The memory after `mem_pool_init`: the kernel's page tables are set up, nothing is mapped in a
heap, and the processes have fresh page directories and empty pools. -/
structure Start (m : Mem P) : Prop where
  pools : ∃ (m₀ : Mem P) (allMem : ℕ), m = memPoolInit m₀ allMem
  process : ∀ p, ∃ bits, m.userprogVaddr (some p) = createUserVaddrBitmap bits
  thread : (m.userprogVaddr none).vaddrBitmap.btmpBytesLen = 0
  kernelPde : ∀ d j, 768 ≤ j → j < 1023 → m.pde d j = ⟨0x101000 + 0x1000 * (j - 768), true⟩
  lowPte : (m.pt 0x101000 0).p = true
  kernelPte : ∀ i, i < limit m none → present m (none, i) = false
  userPde : ∀ p j, j < 768 → (m.pde (some p) j).p = false

/-- The frame is the page table of a process page or of a kernel page. -/
def IsTable (m : Mem P) (f : ℕ) : Prop :=
  ∃ d j, (j < 768 ∧ d ≠ none ∨ 768 ≤ j ∧ j < 1023) ∧ (m.pde d j).p = true ∧ (m.pde d j).base = f

/-- The page is one of the pool of `pg.1`, and it is mapped. -/
def Mapped (m : Mem P) (pg : Option P × ℕ) : Prop :=
  pg.2 < limit m pg.1 ∧ present m pg = true

/-- The frame a page is mapped to. -/
def frameOf (m : Mem P) (pg : Option P × ℕ) : ℕ := (m.pte pg.1 (vaddrOf pg)).base

structure Ownership (m : Mem P) : Prop where
  /-- A page is marked as used iff it is mapped. -/
  marked : ∀ d i, i < 8 * (vbitmap m d).btmpBytesLen →
    (vbit m (d, i) = true ↔ present m (d, i) = true)
  distinct : ∀ pg q, Mapped m pg → Mapped m q → frameOf m pg = frameOf m q → pg = q
  /-- The frame of a page lies in its pool and is marked there. -/
  frame : ∀ pg, Mapped m pg → ∃ j, j < frames m (pfOf pg.1) ∧
    frameOf m pg = frameAt m (pfOf pg.1) j ∧
    bitmapScanTest (m.pool (pfOf pg.1)).poolBitmap j = true
  noTable : ∀ pg, Mapped m pg → ¬IsTable m (frameOf m pg)

variable {m m' : Mem P} {stuck : Option P × ℕ → Prop} {s s' : St P} {e : Call P}

/-! ## The start -/

/-- The bit after the kernel's pool, if it happens to be set. -/
def stuckAt (m : Mem P) (pg : Option P × ℕ) : Prop :=
  pg = (none, 8 * m.kernelVaddr.vaddrBitmap.btmpBytesLen) ∧ vbit m pg = true

omit [DecidableEq P] in
theorem Start.geo (h : Start m) : Geo m := by
  obtain ⟨m₀, allMem, rfl⟩ := h.pools
  refine ⟨rfl, ⟨_, ?_, ?_, rfl⟩, ?_, rfl, ?_, fun p => ?_, fun p => ?_, h.thread, h.kernelPde,
    h.lowPte, fun k => ?_⟩
  · exact Nat.mul_div_le _ 8
  · omega
  · simp only [memPoolInit, bitmapInit]
    omega
  · simp only [memPoolInit, bitmapInit]
    omega
  · obtain ⟨bits, hbits⟩ := h.process p
    rw [hbits]
    rfl
  · obtain ⟨bits, hbits⟩ := h.process p
    rw [hbits]
    rfl
  · cases k <;> simp only [Mem.pool, memPoolInit, pgSize] <;> omega

omit [DecidableEq P] in
theorem Start.not_present (h : Start m) {pg : Option P × ℕ} (hv : pg.2 < limit m pg.1) :
    present m pg = false := by
  obtain ⟨d, i⟩ := pg
  rcases limit_le h.geo hv with ⟨hd, -⟩ | ⟨⟨p, hd⟩, hi⟩ <;> simp only at hd <;> subst hd
  · exact h.kernelPte i hv
  · have hj : pdeIdx (vaddrOf (some p, i)) < 768 := by
      rw [pdeIdx_user hi]
      simp only at hi
      omega
    unfold present
    rw [hasTable, h.userPde p _ hj, Bool.false_and]

omit [DecidableEq P] in
theorem Start.holds_none (h : Start m) (o : Owner P) : holds m o = none := by
  cases o with
  | page pg =>
    rw [holds, if_neg]
    rintro ⟨hv, hp⟩
    rw [h.not_present hv] at hp
    cases hp
  | table p j =>
    rw [holds, if_neg]
    rintro ⟨hj, hp⟩
    rw [h.userPde p j hj] at hp
    cases hp

omit [DecidableEq P] in
theorem Start.vbit_false (h : Start m) {d : Option P} {i : ℕ}
    (hi : i < 8 * (vbitmap m d).btmpBytesLen) : vbit m (d, i) = false := by
  cases d with
  | none =>
    obtain ⟨m₀, allMem, rfl⟩ := h.pools
    exact bitmapScanTest_init hi
  | some p =>
    obtain ⟨bits, hbits⟩ := h.process p
    simp only [vbitmap, vbit, pfOf, Mem.vaddr, hbits] at hi ⊢
    exact bitmapScanTest_init hi

omit [DecidableEq P] in
theorem Start.not_used (h : Start m) (f : ℕ) : ¬used m f := by
  obtain ⟨m₀, allMem, rfl⟩ := h.pools
  rintro ⟨k, j, hj, -, hbit⟩
  have hclear : bitmapScanTest ((memPoolInit m₀ allMem).pool k).poolBitmap j = false := by
    cases k <;> exact bitmapScanTest_init hj
  rw [hclear] at hbit
  cases hbit

omit [DecidableEq P] in
theorem Start.settled (h : Start m) : Settled m (stuckAt m) := by
  refine ⟨h.geo, fun pg hv => ?_, fun _ hf => hf.elim, fun pg hs => ?_, fun o f ho => ?_, ?_⟩
  · rw [h.not_present hv]
    obtain ⟨d, i⟩ := pg
    by_cases hi : i < 8 * (vbitmap m d).btmpBytesLen
    · rw [h.vbit_false hi]
      constructor
      · nofun
      · rintro (hf | hf | ⟨-, hf⟩)
        · cases hf
        · exact hf.elim
        · rw [h.vbit_false hi] at hf
          cases hf
    · -- only the kernel's pool has a page past its bitmap
      rcases limit_eq h.geo d with ⟨hl, rfl⟩ | ⟨hl, -⟩
      · simp only [hl] at hv
        have hlen : (vbitmap m none).btmpBytesLen = m.kernelVaddr.vaddrBitmap.btmpBytesLen := rfl
        have hpg : ((none : Option P), i) = (none, 8 * m.kernelVaddr.vaddrBitmap.btmpBytesLen) := by
          congr 1
          omega
        constructor
        · exact fun hb => Or.inr (Or.inr ⟨hpg, hb⟩)
        · rintro (hf | hf | hf)
          · cases hf
          · exact hf.elim
          · exact hf.2
      · simp only [hl] at hv
        exact absurd hv hi
  · obtain ⟨rfl, -⟩ := hs
    have hv : 8 * m.kernelVaddr.vaddrBitmap.btmpBytesLen < limit m none := Nat.lt_succ_self _
    exact ⟨rfl, rfl, h.not_present hv, id⟩
  · rw [h.holds_none] at ho
    cases ho
  · refine ⟨fun f => ?_, fun ho => ?_, fun hf => hf.elim⟩
    · constructor
      · exact fun hf => absurd hf (h.not_used f)
      · rintro (hf | ⟨o, ho⟩)
        · exact hf.elim
        · rw [h.holds_none] at ho
          cases ho
    · rw [h.holds_none] at ho
      cases ho

/-- The memory of a machine that has just booted. -/
def bootMem (P : Type) (allMem : ℕ) : Mem P :=
  memPoolInit
    { kernelPool := ⟨⟨0, fun _ => 0#8⟩, 0, 0⟩
      userPool := ⟨⟨0, fun _ => 0#8⟩, 0, 0⟩
      kernelVaddr := ⟨⟨0, fun _ => 0#8⟩, 0⟩
      userprogVaddr := fun
        | none => ⟨⟨0, fun _ => 0#8⟩, 0⟩
        | some _ => createUserVaddrBitmap fun _ => 0#8
      pde := fun _ j => if 768 ≤ j then ⟨0x101000 + 0x1000 * (j - 768), true⟩ else ⟨0, false⟩
      pt := fun t i => if t = 0x101000 ∧ i < 256 then ⟨i * 0x1000, true⟩ else ⟨0, false⟩ }
    allMem

omit [DecidableEq P] in
theorem bootMem_start (allMem : ℕ) : Start (bootMem P allMem) where
  pools := ⟨_, allMem, rfl⟩
  process p := ⟨fun _ => 0#8, rfl⟩
  thread := rfl
  kernelPde d j hlo hhi := if_pos hlo
  lowPte := rfl
  kernelPte i hi := by
    have hlt : i < 2 ^ 15 := by
      simp only [limit, bootMem, memPoolInit, bitmapInit] at hi
      omega
    have hpde : (bootMem P allMem).pde none (pdeIdx (vaddrOf ((none : Option P), i))) =
        ⟨0x101000 + 0x1000 * ((256 + i) / 1024), true⟩ := by
      rw [pdeIdx_kernel hlt]
      simp only [bootMem, memPoolInit]
      rw [if_pos (Nat.le_add_right _ _), Nat.add_sub_cancel_left]
    have hpte : ((bootMem P allMem).pt (0x101000 + 0x1000 * ((256 + i) / 1024))
        ((256 + i) % 1024)).p = false := by
      simp only [bootMem, memPoolInit]
      rw [if_neg]
      omega
    unfold present
    rw [Mem.pte, hasTable, hpde, pteIdx_kernel, hpte, Bool.and_false]
  userPde p j hj := by
    simp only [bootMem, memPoolInit]
    rw [if_neg (Nat.not_le.mpr hj)]

/-! ## What a call keeps -/

/-- The pages of a run. -/
def Run.Has (r : Run P) (q : Option P × ℕ) : Prop :=
  q.1 = r.pool ∧ r.vaddr ≤ vaddrOf q ∧ vaddrOf q < r.vaddr + r.pgCnt * pgSize

omit [DecidableEq P] in
theorem Run.has_iff {r : Run P} {st : ℕ} (hr : r.vaddr = vaddrOf (r.pool, st))
    {q : Option P × ℕ} : r.Has q ↔ InRun r.pool st r.pgCnt q := by
  obtain ⟨d, i⟩ := q
  simp only [Has, InRun, hr]
  refine and_congr_right fun hd => ?_
  subst hd
  simp only [vaddrOf, pgSize]
  omega

/-- The runs that are not freed are mapped, and no two of them share a page. -/
structure RunsOk (m : Mem P) (runs : List (Run P)) : Prop where
  mapped : ∀ r ∈ runs, (∃ st, r.vaddr = vaddrOf (r.pool, st)) ∧ 1 ≤ r.pgCnt ∧
    ∀ q, r.Has q → holds m (.page q) ≠ none
  disjoint : runs.Pairwise fun r r' => ∀ q, r.Has q → ¬r'.Has q

omit [DecidableEq P] in
/-- A call that leaves the pages of all runs alone. -/
theorem RunsOk.keeps {runs : List (Run P)} {S : Option P × ℕ → Prop} (h : RunsOk m runs)
    (hk : Keeps S m m') (hS : ∀ r ∈ runs, ∀ q, r.Has q → ¬S q) : RunsOk m' runs := by
  refine ⟨fun r hr => ?_, h.disjoint⟩
  obtain ⟨hst, hn, hall⟩ := h.mapped r hr
  refine ⟨hst, hn, fun q hq => ?_⟩
  rw [hk.pages q (hS r hr q hq)]
  exact hall q hq

omit [DecidableEq P] in
/-- A run of pages that were free and are mapped now. -/
theorem RunsOk.add {runs : List (Run P)} {d : Option P} {st n : ℕ} (h : RunsOk m runs) (hn : 1 ≤ n)
    (hfree : ∀ q, InRun d st n q → holds m (.page q) = none) (hk : Keeps (InRun d st n) m m')
    (hall : ∀ q, InRun d st n q → holds m' (.page q) ≠ none) :
    RunsOk m' (⟨d, vaddrOf (d, st), n⟩ :: runs) := by
  have hnew : ∀ q, Run.Has ⟨d, vaddrOf (d, st), n⟩ q ↔ InRun d st n q := fun q =>
    Run.has_iff (r := ⟨d, vaddrOf (d, st), n⟩) rfl
  have hdisj : ∀ r ∈ runs, ∀ q, r.Has q → ¬InRun d st n q := fun r hr q hq hq' =>
    (h.mapped r hr).2.2 q hq (hfree q hq')
  have hold := h.keeps hk hdisj
  refine ⟨fun r hr => ?_, List.pairwise_cons.mpr ⟨fun r hr q hq hq' => ?_, hold.disjoint⟩⟩
  · rcases List.mem_cons.mp hr with rfl | hr
    · exact ⟨⟨st, rfl⟩, hn, fun q hq => hall q ((hnew q).mp hq)⟩
    · exact hold.mapped r hr
  · exact hdisj r hr q hq' ((hnew q).mp hq)

/-- A run that is unmapped. -/
theorem RunsOk.erase {runs : List (Run P)} {r : Run P} {st : ℕ} (h : RunsOk m runs) (hr : r ∈ runs)
    (hst : r.vaddr = vaddrOf (r.pool, st)) (hk : Keeps (InRun r.pool st r.pgCnt) m m') :
    RunsOk m' (runs.erase r) := by
  have hperm := List.perm_cons_erase hr
  have hpair := (hperm.pairwise_iff fun {r r'} h q hq hq' => h q hq' hq).mp h.disjoint
  obtain ⟨hne, hpair⟩ := List.pairwise_cons.mp hpair
  have hrest : RunsOk m (runs.erase r) :=
    ⟨fun r' hr' => h.mapped r' (List.mem_of_mem_erase hr'), hpair⟩
  exact hrest.keeps hk fun r' hr' q hq hq' => hne r' hr' q ((r.has_iff hst).mpr hq') hq

/-- The invariant between two calls. -/
structure PageInv (s : St P) (stuck : Option P × ℕ → Prop) : Prop where
  settled : Settled s.mem stuck
  runs : RunsOk s.mem s.runs

/-- The `malloc_page` of a process does not search past the end of its pool. -/
def InsidePool (s : St P) : Call P → Prop
  | .mallocPage (some p) .user pgCnt => ¬PastEnd (vbitmap s.mem (some p)) pgCnt
  | _ => True

omit [DecidableEq P] in
theorem poolOf_cases (cur : Option P) (pf : PoolFlags) :
    (pfOf (poolOf cur pf) = pf ∧ (poolOf cur pf = none ∨ poolOf cur pf = cur)) ∨
      (cur = none ∧ pf = .user) := by
  cases pf with
  | kernel => exact Or.inl ⟨rfl, Or.inl rfl⟩
  | user =>
    cases cur with
    | none => exact Or.inr ⟨rfl, rfl⟩
    | some p => exact Or.inl ⟨rfl, Or.inr rfl⟩

theorem malloc_step {cur : Option P} {pf : PoolFlags} {n : ℕ} (hi : PageInv s stuck) :
    (∃ x, pageStep s (.mallocPage cur pf n) = some (.error x) ∧
      (x = pteRepeat → ¬InsidePool s (.mallocPage cur pf n))) ∨
    ∃ s', pageStep s (.mallocPage cur pf n) = some (.ok s') ∧ PageInv s' stuck := by
  simp only [pageStep]
  rcases poolOf_cases cur pf with ⟨hpf, hd⟩ | ⟨rfl, rfl⟩
  · set d := poolOf cur pf with hpool
    rw [← hpf]
    rcases mallocPage_spec (n := n) hi.settled hd with
      ⟨x, herr, -, hx⟩ | hnull | ⟨m', st, hok, hn, -, -, hfree, hk, hall, hi'⟩
    · refine Or.inl ⟨x, by rw [herr]; rfl, fun hxr => ?_⟩
      obtain ⟨⟨p, hp⟩, hpast⟩ := hx hxr
      rw [hp] at hd hpast ⊢
      obtain rfl : some p = cur := hd.resolve_left (Option.some_ne_none p)
      exact fun h => h hpast
    · refine Or.inr ⟨s, by rw [hnull]; rfl, hi⟩
    · exact Or.inr ⟨⟨m', ⟨d, vaddrOf (d, st), n⟩ :: s.runs⟩, by rw [hok]; rfl, hi',
        hi.runs.add hn hfree hk hall⟩
  · obtain ⟨x, herr, -, hx⟩ := mallocPage_thread (n := n) hi.settled.geo
    exact Or.inl ⟨x, by rw [herr]; rfl, fun h => absurd h hx⟩

theorem mfree_step {cur : Option P} {r : Run P} (hi : PageInv s stuck)
    (hr : r ∈ s.runs) (hd : r.pool = none ∨ r.pool = cur) :
    ∃ s', pageStep s (.mfreePage cur r) = some (.ok s') ∧ PageInv s' stuck := by
  obtain ⟨⟨st, hst⟩, hn, hall⟩ := hi.runs.mapped r hr
  have hhas : ∀ q, r.Has q ↔ InRun r.pool st r.pgCnt q := fun q => r.has_iff hst
  obtain ⟨m', hok, hk, -, hi'⟩ := mfreePage_spec hi.settled hd hn fun q hq =>
    hall q ((hhas q).mpr hq)
  refine ⟨⟨m', s.runs.erase r⟩, ?_, hi', hi.runs.erase hr hst hk⟩
  simp only [pageStep]
  rw [if_pos ⟨hr, hd⟩, hst, hok]
  rfl

omit [DecidableEq P] in
/-- The page an address in a pool lies in. -/
theorem freePage_cases {cur : Option P} {pf : PoolFlags} {vaddr : ℕ} (hg : Geo m)
    (h : FreePage m cur pf vaddr) :
    pfOf (poolOf cur pf) = pf ∧ ∃ j i, vaddr = vaddrOf (poolOf cur pf, j) + i ∧ i < pgSize ∧
      j < limit m (poolOf cur pf) ∧ vbit m (poolOf cur pf, j) = false := by
  rcases poolOf_cases cur pf with ⟨hpf, hd⟩ | ⟨rfl, rfl⟩
  · refine ⟨hpf, ?_⟩
    set d := poolOf cur pf
    obtain ⟨hlo, hin, hbit⟩ := h
    rw [← hpf, vaddr_eq hd, vaddrStart_eq hg] at hlo hin hbit
    refine ⟨(vaddr - poolStart d) / pgSize, (vaddr - poolStart d) % pgSize, ?_, ?_, ?_, hbit⟩
    · have hdiv := Nat.div_add_mod (vaddr - poolStart d) pgSize
      rw [Nat.mul_comm] at hdiv
      simp only [vaddrOf]
      omega
    · exact Nat.mod_lt _ (by decide)
    · rcases limit_eq hg d with ⟨hl, -⟩ | ⟨hl, -⟩
      · rw [hl]
        exact Nat.lt_succ_of_lt hin
      · rw [hl]
        exact hin
  · have hin := h.2.1
    simp only [Mem.vaddr, hg.threadPages] at hin
    exact absurd hin (Nat.not_lt_zero _)

theorem getAPage_step {cur : Option P} {pf : PoolFlags} {vaddr : ℕ} (hi : PageInv s stuck)
    (hf : FreePage s.mem cur pf vaddr) :
    (∃ x, pageStep s (.getAPage cur pf vaddr) = some (.error x) ∧ x ≠ pteRepeat) ∨
    ∃ s', pageStep s (.getAPage cur pf vaddr) = some (.ok s') ∧ PageInv s' stuck := by
  simp only [pageStep]
  rw [if_pos hf]
  obtain ⟨hpf, j, i, hvaddr, hlt, hj, hbit⟩ := freePage_cases hi.settled.geo hf
  by_cases hown : (cur ≠ none ∧ pf = .user) ∨ (cur = none ∧ pf = .kernel)
  · obtain ⟨hpool, hpf'⟩ : poolOf cur pf = cur ∧ pf = pfOf cur := by
      rcases hown with ⟨hc, rfl⟩ | ⟨rfl, rfl⟩
      · exact ⟨rfl, hpf.symm⟩
      · exact ⟨rfl, rfl⟩
    rw [hpool] at hvaddr hj hbit
    rw [hvaddr, hpf']
    by_cases h0 : j = 0
    · subst h0
      refine Or.inl ⟨.panic "get_a_page" "bit_idx > 0", ?_, by decide⟩
      rw [getAPage_first hi.settled.geo hj hlt]
      rfl
    · rcases getAPage_spec hi.settled hj hbit h0 hlt with
        herr | ⟨m', hok, hk, hi'⟩
      · exact Or.inl ⟨outOfFrames, by rw [herr]; rfl, by decide⟩
      · refine Or.inr ⟨{ s with mem := m' }, by rw [hok]; rfl, hi', hi.runs.keeps hk ?_⟩
        rintro r hr q hq rfl
        exact (hi.runs.mapped r hr).2.2 _ hq (holds_none_of_bit hi.settled hbit)
  · refine Or.inl ⟨.panic "get_a_page"
      "get_a_page: not allow kernel alloc userspace or user alloc kernelspace by get_a_page.", ?_,
      by decide⟩
    simp only [getAPage, if_neg hown, error_bind]

/-- A call keeps the invariant or panics; with "pte repeat" only when it searches past the end. -/
theorem page_step {r : Except Halt (St P)} (hi : PageInv s stuck) (hs : pageStep s e = some r) :
    (∃ x, r = .error x ∧ (x = pteRepeat → ¬InsidePool s e)) ∨ ∃ s', r = .ok s' ∧ PageInv s' stuck := by
  cases e with
  | mallocPage cur pf n =>
    rcases malloc_step (n := n) hi with ⟨x, herr, hx⟩ | ⟨s', hok, hi'⟩
    · rw [herr, Option.some.injEq] at hs
      exact Or.inl ⟨x, hs.symm, hx⟩
    · rw [hok, Option.some.injEq] at hs
      exact Or.inr ⟨s', hs.symm, hi'⟩
  | mfreePage cur r' =>
    by_cases hc : r' ∈ s.runs ∧ (r'.pool = none ∨ r'.pool = cur)
    · obtain ⟨s', hok, hi'⟩ := mfree_step hi hc.1 hc.2
      rw [hok, Option.some.injEq] at hs
      exact Or.inr ⟨s', hs.symm, hi'⟩
    · rw [pageStep, if_neg hc] at hs
      cases hs
  | getAPage cur pf vaddr =>
    by_cases hc : FreePage s.mem cur pf vaddr
    · rcases getAPage_step hi hc with ⟨x, herr, hx⟩ | ⟨s', hok, hi'⟩
      · rw [herr, Option.some.injEq] at hs
        exact Or.inl ⟨x, hs.symm, fun h => absurd h hx⟩
      · rw [hok, Option.some.injEq] at hs
        exact Or.inr ⟨s', hs.symm, hi'⟩
    · rw [pageStep, if_neg hc] at hs
      cases hs

/-- The invariant holds in every state that page calls reach. -/
theorem page_run (hm : Start m) {es : List (Call P)}
    (hr : pageMachine.run ⟨m, []⟩ es = some (.ok s)) : PageInv s (stuckAt m) := by
  have hstart : PageInv ⟨m, []⟩ (stuckAt m) := ⟨hm.settled, nofun, List.Pairwise.nil⟩
  refine Machine.run_ok (I := fun s => PageInv s (stuckAt m)) (fun s e s' hi hs => ?_) hstart hr
  rcases page_step hi hs with ⟨x, hx, -⟩ | ⟨s₁, hs₁, hi'⟩
  · cases hx
  · cases hs₁
    exact hi'

/-! ## Main result -/

omit [DecidableEq P] in
theorem holds_of_mapped {pg : Option P × ℕ} (h : Mapped m pg) :
    holds m (.page pg) = some (frameOf m pg) := if_pos h

omit [DecidableEq P] in
/-- The frame of an owner lies in the pool of its kind and is marked there. -/
theorem frame_marked (hi : Settled m stuck) {o : Owner P} {f : ℕ} (ho : holds m o = some f) :
    ∃ j, j < frames m o.kind ∧ f = frameAt m o.kind j ∧
      bitmapScanTest (m.pool o.kind).poolBitmap j = true := by
  obtain ⟨j, hj, hf⟩ := hi.kind o f ho
  obtain ⟨k, i, hik, hf', hbit⟩ := (hi.owns.used_iff f).mpr (Or.inr ⟨o, ho⟩)
  obtain ⟨rfl, rfl⟩ := frameAt_inj hi.geo hj hik (hf.symm.trans hf')
  exact ⟨j, hj, hf, hbit⟩

omit [DecidableEq P] in
theorem ownership_of_settled (hi : Settled m stuck) : Ownership m where
  marked d i hlt := by
    have hl : i < limit m d := by
      rcases limit_eq hi.geo d with ⟨hl, -⟩ | ⟨hl, -⟩ <;> omega
    have hnot : ¬stuck (d, i) := by
      intro h
      obtain ⟨rfl, hend, -⟩ := hi.stuck_spec _ h
      have hlen : limit m none = 8 * (vbitmap m none).btmpBytesLen + 1 := rfl
      simp only at hend
      omega
    rw [hi.bit_iff (d, i) hl]
    simp [hnot]
  distinct pg q hp hq h := by
    have hpg := holds_of_mapped hp
    rw [h] at hpg
    exact Owner.page.inj (hi.owns.inj hpg (holds_of_mapped hq))
  frame pg hp := frame_marked hi (holds_of_mapped hp)
  noTable pg hp := by
    rintro ⟨d, j, hj, hpres, hbase⟩
    rcases hj with ⟨hj, hd⟩ | ⟨hlo, hhi⟩
    · obtain ⟨p, rfl⟩ := Option.ne_none_iff_exists'.mp hd
      have ht : holds m (.table p j) = some (frameOf m pg) := by
        rw [holds, if_pos ⟨hj, hpres⟩, hbase]
      exact Owner.page_ne_table pg p j (hi.owns.inj (holds_of_mapped hp) ht)
    · obtain ⟨i, hi', hf, -⟩ := frame_marked hi (holds_of_mapped hp)
      have hle := (frameAt_range hi.geo hi').2.2.2.1
      rw [hi.geo.kernelPde d j hlo hhi] at hbase
      simp only at hbase
      omega

open Classical in
/-- **Page ownership.**  Every state that page calls reach has the ownership properties.  In a run in
which no `malloc_page` of a process searches past the end of its pool, `page_table_add` never finds
its entry in use. -/
theorem ownership (hm : Start m) {es : List (Call P)} {r : Except Halt (St P)}
    (hr : pageMachine.run ⟨m, []⟩ es = some r) :
    (∀ s, r = .ok s → Ownership s.mem) ∧
      ((pageMachine.guard InsidePool).run ⟨m, []⟩ es = some r → r ≠ .error pteRepeat) := by
  constructor
  · rintro s rfl
    exact ownership_of_settled (page_run hm hr).settled
  · rintro hg rfl
    have hstart : PageInv ⟨m, []⟩ (stuckAt m) := ⟨hm.settled, nofun, List.Pairwise.nil⟩
    refine (Machine.run_inv (M := pageMachine.guard InsidePool)
      (I := fun s => PageInv s (stuckAt m)) (Q := (· ≠ pteRepeat)) (fun s e s' hi hs => ?_)
      (fun s e x hi hs => ?_) hstart hg).2 pteRepeat rfl rfl
    · rcases page_step hi (Machine.guard_step hs).2 with ⟨x, hx, -⟩ | ⟨s₁, hs₁, hi'⟩
      · cases hx
      · cases hs₁
        exact hi'
    · obtain ⟨hin, hs⟩ := Machine.guard_step hs
      rcases page_step hi hs with ⟨y, hy, hne⟩ | ⟨s₁, hs₁, -⟩
      · cases hy
        exact fun h => hne h hin
      · cases hs₁

/-- Four calls of a process and a kernel thread. -/
def fourCalls : List (Call Unit) :=
  [.mallocPage (some ()) .user 2, .getAPage (some ()) .user 0x8060000, .mallocPage none .kernel 1,
    .mfreePage (some ()) ⟨some (), 0x8048000, 2⟩]

open Classical in
theorem ownership_four_calls :
    ∃ s, (pageMachine.guard InsidePool).run ⟨bootMem Unit 0x240000, []⟩ fourCalls = some (.ok s) ∧
      vbit s.mem (some (), 24) = true ∧ Ownership s.mem := by
  obtain ⟨s, hrun, hbit⟩ : ∃ s,
      pageMachine.run ⟨bootMem Unit 0x240000, []⟩ fourCalls = some (.ok s) ∧
        vbit s.mem (some (), 24) = true :=
    pageMachine.run_of_test (p := fun s => vbit s.mem (some (), 24)) (by decide +kernel)
  have hin : ∀ (s : St Unit), ∀ e ∈ fourCalls, InsidePool s e := by
    intro s e he
    simp only [fourCalls, List.mem_cons, List.not_mem_nil, or_false] at he
    rcases he with rfl | rfl | rfl | rfl
    · exact fun h => absurd h.1 (by decide)
    all_goals trivial
  rcases Machine.run_guard_or (C := InsidePool) hrun with hg | ⟨fs, e, s', hfs, -, hnot⟩
  · exact ⟨s, hg, hbit, (ownership (bootMem_start _) hrun).1 s rfl⟩
  · exact absurd (hin s' e (hfs.subset (by simp))) hnot

/-! ## Past the end -/

/-- The last `n` frames of a pool are free. -/
def Room (m : Mem P) (k : PoolFlags) (n : ℕ) : Prop :=
  n ≤ frames m k ∧
    ∀ j, frames m k ≤ j + n → j < frames m k → bitmapScanTest (m.pool k).poolBitmap j = false

omit [DecidableEq P] in
theorem Room.congr {k : PoolFlags} {n : ℕ} (h : Room m k n) (hp : m'.pool k = m.pool k) :
    Room m' k n := by
  simp only [Room, frames, hp]
  exact h

omit [DecidableEq P] in
theorem Room.mono {k : PoolFlags} {n n' : ℕ} (h : Room m k n) (hn : n' ≤ n) : Room m k n' :=
  ⟨Nat.le_trans hn h.1, fun j hj hlt => h.2 j (by omega) hlt⟩

omit [DecidableEq P] in
theorem palloc_room {k : PoolFlags} {n : ℕ} (h : Room m k (n + 1)) :
    ∃ m' f, palloc m k = .ok (m', some f) ∧ Room m' k n ∧
      (∀ l, l ≠ k → m'.pool l = m.pool l) ∧ m'.userprogVaddr = m.userprogVaddr := by
  have hclear : bitmapScanTest (m.pool k).poolBitmap (frames m k - (n + 1)) = false :=
    h.2 _ (by omega) (by have := h.1; omega)
  simp only [palloc]
  rcases bitmapScan_one (m.pool k).poolBitmap with ⟨j, hok, -, -, hfirst⟩ | ⟨-, hfull⟩
  · refine ⟨setFrame m k j true, frameAt m k j, by rw [hok]; rfl, ⟨?_, fun i hi hlt => ?_⟩, ?_, ?_⟩
    · rw [setFrame_frames]
      exact Nat.le_of_succ_le h.1
    · rw [setFrame_frames] at hi hlt
      rw [setFrame_bit, if_neg, h.2 i (by omega) hlt]
      rintro ⟨-, rfl⟩
      have hn := h.1
      rw [hfirst (frames m k - (n + 1)) (by omega)] at hclear
      cases hclear
    · intro l hl
      cases k <;> cases l <;> first | exact absurd rfl hl | rfl
    · cases k <;> rfl
  · rw [hfull (frames m k - (n + 1)) (by have := h.1; simp only [frames] at this ⊢; omega)] at hclear
    cases hclear

theorem pageTableAdd_room (cur : Option P) (v f : ℕ) {n : ℕ} (h : Room m .kernel (n + 1)) :
    pageTableAdd m cur v f ≠ .error outOfFrames ∧
      ∀ m', pageTableAdd m cur v f = .ok m' →
        Room m' .kernel n ∧ m'.userPool = m.userPool ∧ m'.userprogVaddr = m.userprogVaddr := by
  unfold pageTableAdd
  split
  · split
    · refine ⟨by simp, fun m' hm' => ?_⟩
      cases hm'
      exact ⟨(h.mono (Nat.le_succ n)).congr rfl, rfl, rfl⟩
    · exact ⟨fun h => absurd (Except.error.inj h) (by decide), by simp⟩
  · obtain ⟨m₁, g, hok, hroom, hrest, huser⟩ := palloc_room h
    rw [hok, ok_bind]
    simp only
    constructor
    · intro he
      rcases bind_eq_error.mp he with he | ⟨u, -, he⟩
      · rw [assert] at he
        split at he
        · cases he
        · exact absurd he (by decide)
      · cases he
    · intro m' hm'
      obtain ⟨-, hm'⟩ := assert_bind_eq_ok.mp hm'
      cases hm'
      exact ⟨hroom.congr rfl, hrest .user (by decide), huser⟩

theorem mallocLoop_room {p : P} {n v : ℕ} (hu : Room m .user n) (hk : Room m .kernel n) :
    mallocLoop (some p) .user n v m ≠ .error outOfFrames := by
  induction n generalizing v m with
  | zero => nofun
  | succ n ih =>
    obtain ⟨m₁, f, hok, hu₁, hk₁, -⟩ := palloc_room hu
    obtain ⟨hne, hadd⟩ := pageTableAdd_room (some p) v f (hk.congr (hk₁ .kernel nofun))
    unfold mallocLoop
    rw [hok, ok_bind]
    simp only
    cases hm : pageTableAdd m₁ (some p) v f with
    | error x =>
      rw [hm] at hne
      rw [error_bind]
      exact fun h => hne (by rw [Except.error.inj h])
    | ok m₂ =>
      obtain ⟨hk₂, hu₂, -⟩ := hadd m₂ hm
      rw [ok_bind]
      exact ih (hu₁.congr hu₂) hk₂

theorem getAPage_room {p : P} {v n : ℕ} (hu : Room m .user (n + 1)) (hk : Room m .kernel (n + 1)) :
    getAPage m (some p) .user v ≠ .error outOfFrames ∧
      ∀ m' o, getAPage m (some p) .user v = .ok (m', o) → Room m' .user n ∧ Room m' .kernel n ∧
        m'.userprogVaddr (some p) = { m.userprogVaddr (some p) with
          vaddrBitmap := bitmapSet (m.userprogVaddr (some p)).vaddrBitmap
            (sub32 v (m.userprogVaddr (some p)).vaddrStart / pgSize) true } := by
  simp only [getAPage]
  rw [if_pos (by simp)]
  by_cases h0 : 0 < sub32 v (m.vaddr (some p) .user).vaddrStart / pgSize
  · rw [assert_bind_of h0]
    set m₀ := m.setVaddr (some p) { m.vaddr (some p) .user with
      vaddrBitmap := bitmapSet (m.vaddr (some p) .user).vaddrBitmap
        (sub32 v (m.vaddr (some p) .user).vaddrStart / pgSize) true } .user with hm₀
    have hu₀ : Room m₀ .user (n + 1) := hu.congr rfl
    obtain ⟨m₁, f, hok, hu₁, hk₁, hv₁⟩ := palloc_room hu₀
    obtain ⟨hne, hadd⟩ := pageTableAdd_room (some p) v f (hk.congr (hk₁ .kernel (by decide)))
    rw [hok, ok_bind]
    simp only
    cases hm : pageTableAdd m₁ (some p) v f with
    | error x =>
      rw [hm] at hne
      rw [error_bind]
      exact ⟨fun h => hne (by rw [Except.error.inj h]), by simp⟩
    | ok m₂ =>
      obtain ⟨hk₂, hu₂, hv₂⟩ := hadd m₂ hm
      rw [ok_bind]
      refine ⟨by simp, fun m' o h => ?_⟩
      cases h
      refine ⟨hu₁.congr hu₂, hk₂, ?_⟩
      rw [hv₂, hv₁, hm₀]
      simp [Mem.setVaddr, Mem.vaddr]
  · rw [assert_bind_of_not h0]
    exact ⟨fun h => absurd (Except.error.inj h) (by decide), by simp⟩

/-! A process takes every 3839th page with `get_a_page`, so that the only gap of 3839 pages is the one
that ends right past its pool. -/

def pick (k : ℕ) : ℕ := 1148 + 3839 * k

def pickCalls (n : ℕ) : List (Call Unit) :=
  (List.range n).map fun k => .getAPage (some ()) .user (vaddrOf (some (), pick k))

theorem picks_run {n : ℕ} (hn : n ≤ 196) :
    ∃ s : St Unit, pageMachine.run ⟨bootMem Unit 0x4000000, []⟩ (pickCalls n) = some (.ok s) ∧
      PageInv s (stuckAt (bootMem Unit 0x4000000)) ∧
      (∀ i, vbit s.mem (some (), i) = true ↔ ∃ k, k < n ∧ i = pick k) ∧
      Room s.mem .user (7936 - n) ∧ Room s.mem .kernel (7936 - n) := by
  induction n with
  | zero =>
    have hm := bootMem_start (P := Unit) 0x4000000
    have hroom : ∀ k, Room (bootMem Unit 0x4000000) k 7936 := by
      intro k
      refine ⟨by cases k <;> decide, fun j _ hj => ?_⟩
      cases k <;> exact bitmapScanTest_init hj
    refine ⟨_, rfl, ⟨hm.settled, nofun, List.Pairwise.nil⟩, fun i => ?_, hroom _, hroom _⟩
    simp [vbit, pfOf, Mem.vaddr, bootMem, memPoolInit, createUserVaddrBitmap, bitmapInit,
      bitmapScanTest]
  | succ n ih =>
    obtain ⟨s, hrun, hi, hbits, hu, hk⟩ := ih (by omega)
    have hlim : limit s.mem (some ()) = 753592 := by
      rcases limit_eq hi.settled.geo (some ()) with ⟨-, h⟩ | ⟨-, h, -⟩
      · cases h
      · exact h
    have hv : pick n < limit s.mem (some ()) := by
      rw [hlim, pick]
      omega
    have hbit : vbit s.mem (some (), pick n) = false := by
      rw [← Bool.not_eq_true, hbits]
      rintro ⟨k, hk, h⟩
      unfold pick at h
      omega
    have hstart := hi.settled.geo.userVaddr ()
    have hfree : FreePage s.mem (some ()) .user (vaddrOf (some (), pick n)) := by
      have hpage : (vaddrOf (some (), pick n) - userVaddrStart) / pgSize = pick n := by
        unfold vaddrOf
        rw [poolStart, Nat.add_sub_cancel_left]
        exact Nat.mul_div_cancel _ (by decide)
      simp only [FreePage, Mem.vaddr, hstart, hpage]
      exact ⟨Nat.le_add_right _ _, hv, hbit⟩
    have hroom : 7936 - n = 7936 - (n + 1) + 1 := by omega
    rw [hroom] at hu hk
    obtain ⟨hne, hafter⟩ := getAPage_room (p := ()) (v := vaddrOf (some (), pick n)) hu hk
    rcases getAPage_spec (i := 0) hi.settled hv hbit
      (by simp [pick]) (by decide) with herr | ⟨m', hok, hkeep, hi'⟩
    · exact absurd herr hne
    · obtain ⟨hu', hk', hva⟩ := hafter m' _ hok
      have hidx : sub32 (vaddrOf (some (), pick n)) (s.mem.userprogVaddr (some ())).vaddrStart /
          pgSize = pick n := pageIdx_eq hi.settled.geo hv
      rw [hidx] at hva
      refine ⟨{ s with mem := m' }, ?_, ⟨hi', hi.runs.keeps hkeep ?_⟩, fun i => ?_, hu', hk'⟩
      · unfold pickCalls
        rw [List.range_succ, List.map_append, ← pickCalls, Machine.run_append _ hrun]
        have hstep : pageMachine.step s (.getAPage (some ()) .user (vaddrOf (some (), pick n))) =
            some (.ok { s with mem := m' }) := by
          simp only [pageMachine, pageStep]
          rw [if_pos hfree]
          exact congrArg some (congrArg (· >>= _) hok)
        rw [List.map_cons, Machine.run_cons_ok _ hstep]
        rfl
      · rintro r hr q hq rfl
        exact (hi.runs.mapped r hr).2.2 _ hq (holds_none_of_bit hi.settled hbit)
      · have hold := hbits i
        simp only [vbit, pfOf, Mem.vaddr] at hold ⊢
        rw [hva, bitmapScanTest_set]
        constructor
        · intro h
          split at h
          · next hin => exact ⟨n, Nat.lt_succ_self n, hin⟩
          · obtain ⟨k, hk, hik⟩ := hold.mp h
            exact ⟨k, Nat.lt_succ_of_lt hk, hik⟩
        · rintro ⟨k, hk, rfl⟩
          split
          · rfl
          · next hne =>
            refine hold.mpr ⟨k, Nat.lt_of_le_of_ne (Nat.le_of_lt_succ hk) ?_, rfl⟩
            rintro rfl
            exact hne rfl

/-- **The run past the end.**  After 196 pages a process asks for 3839 pages, gets the gap that sticks
out of its pool, and `page_table_add` finds the entry of the kernel's first page in use. -/
theorem pte_repeat_reachable :
    Start (bootMem Unit 0x4000000) ∧
      pageMachine.run ⟨bootMem Unit 0x4000000, []⟩
        (pickCalls 196 ++ [.mallocPage (some ()) .user 3839]) = some (.error pteRepeat) := by
  refine ⟨bootMem_start _, ?_⟩
  obtain ⟨s, hrun, hi, hbits, hu, hk⟩ := picks_run (Nat.le_refl 196)
  have hg := hi.settled.geo
  have hlen : (vbitmap s.mem (some ())).btmpBytesLen = 94199 := hg.userPages ()
  have hclear : Clear (vbitmap s.mem (some ())) 749754 3839 := by
    intro i h1 h2
    have hnot : ¬vbit s.mem (some (), i) = true := by
      rw [hbits]
      rintro ⟨k, hk, rfl⟩
      unfold pick at h1
      omega
    simpa [vbit, vbitmap] using hnot
  -- every earlier gap of that size holds one of the pages taken
  have hfirst : ∀ st, st < 749754 → ¬Clear (vbitmap s.mem (some ())) st 3839 := by
    intro st hst hc
    have hpick : ∃ k, k < 196 ∧ st ≤ pick k ∧ pick k < st + 3839 := by
      refine ⟨(st - 1148 + 3838) / 3839, by omega, ?_, ?_⟩ <;> simp only [pick] <;> omega
    obtain ⟨k, hk, h1, h2⟩ := hpick
    have hset := (hbits (pick k)).mpr ⟨k, hk, rfl⟩
    rw [vbit] at hset
    have := hc (pick k) h1 h2
    rw [vbitmap, hset] at this
    cases this
  have hscan : bitmapScan (vbitmap s.mem (some ())) 3839 = .ok (some 749754) := by
    have hcnt : 1 ≤ 3839 := by decide
    rcases bitmapScan_spec (b := vbitmap s.mem (some ())) hcnt with
      ⟨-, hfull⟩ | ⟨st, hok, hc, hend, -, hmin⟩ | ⟨-, -, hno⟩
    · have := hclear 749754 (Nat.le_refl _) (by decide)
      rw [hfull 749754 (by rw [hlen]; decide)] at this
      cases this
    · rcases Nat.lt_trichotomy st 749754 with hlt | rfl | hgt
      · exact absurd hc (hfirst st hlt)
      · exact hok
      · exact absurd hclear (hmin _ hgt)
    · exact absurd hclear (hno _ (by rw [hlen]))
  have hget := vaddrGet_eq hg (Or.inr rfl) hscan
  rw [if_pos (Or.inr (by decide))] at hget
  have hlimit : limit s.mem (some ()) = 753592 := by
    rw [limit, hg.userPages ()]
  have hloop := mallocLoop_pastEnd (n := 3838) hi.settled rfl rfl
    (by rw [hlimit]) hclear
  have hroom : ∀ k, Room s.mem k 7740 → Room (markRun s.mem (some ()) 749754 true 3839) k 3839 :=
    fun k h => (h.mono (by decide)).congr (markRun_pool true k)
  have hstep : pageMachine.step s (.mallocPage (some ()) .user 3839) = some (.error pteRepeat) := by
    have hcount : 0 < 3839 ∧ 3839 < 3840 := by decide
    simp only [pageMachine, pageStep, mallocPage]
    rw [assert_bind_of hcount]
    rw [pfOf] at hget
    rw [hget, ok_bind]
    simp only
    rcases hloop with herr | herr
    · exact absurd herr (mallocLoop_room (hroom _ hu) (hroom _ hk))
    · rw [pfOf] at herr
      rw [herr]
      rfl
  rw [Machine.run_append _ hrun, Machine.run, hstep]
  rfl

end HcOs.Page
