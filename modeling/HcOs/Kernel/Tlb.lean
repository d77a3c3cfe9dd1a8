import HcOs.Kernel.TaskHeap

/-!
# The TLB (`page_table_pte_remove` of `kernel/memory.c`)

One task calls `malloc_page`, `mfree_page`, `sys_malloc` and `sys_free` and accesses what it has got.
An access looks into the TLB first; it may leave the translation of its page there.

After it has cleared the bit `P`, `page_table_pte_remove` executes `invlpg` with the operand
`"m"(vaddr)`.  The operand of the instruction is then the variable `vaddr`, which is on the kernel's
stack, and not the address it holds, so the entry of the page that is freed stays.  It does no harm
until `malloc_page` gives that page out again with another frame.

`tlb_coherent`: as long as no page is given out while the TLB has an entry of a page that is not
mapped, every access to an allocation reaches the frame of its page table entry.
-/

namespace HcOs.Tlb

open HcOs.Lib HcOs.Page HcOs.Heap

/-- The entries of the TLB: the number of a virtual page and a frame. -/
abbrev Entries := List (ℕ × ℕ)

/-- `invlpg` of an address. -/
def invlpg (tlb : Entries) (addr : ℕ) : Entries := tlb.filter fun e => e.1 ≠ addr / pgSize

/-- One `invlpg` for every page that `mfree_page` removes. -/
def invlpgLoop (tlb : Entries) (addr : ℕ) : ℕ → Entries
  | 0 => tlb
  | cnt + 1 => invlpg (invlpgLoop tlb addr cnt) addr

variable {P : Type}

/-- The frame the page tables give for an address. -/
def walk (m : Mem P) (cur : Option P) (vaddr : ℕ) : Option ℕ :=
  if (m.pde cur (pdeIdx vaddr)).p = true ∧ (m.pte cur vaddr).p = true then
    some (m.pte cur vaddr).base
  else none

/-- The frame an access to an address reaches. -/
def translate (m : Mem P) (cur : Option P) (tlb : Entries) (vaddr : ℕ) : Option ℕ :=
  match tlb.lookup (vaddr / pgSize) with
  | some f => some f
  | none => walk m cur vaddr

/-- The pages of the task and the TLB.  The runs in `raw` are those that the task got from
`malloc_page` itself; the other runs are arenas of its heap. -/
structure Core (P : Type) where
  pages : St P
  raw : List (Run P)
  tlb : Entries

variable [DecidableEq P]

/-- The page functions of the task `cur`; `addr` is the address of the variable `vaddr` in
`page_table_pte_remove`. -/
def tlbLayer (cur : Option P) (addr : ℕ) : PageLayer (Core P) where
  poolSize c := (taskLayer cur).poolSize c.pages
  mallocPage c n := do
    let (pages, a) ← (taskLayer cur).mallocPage c.pages n
    .ok ({ c with pages }, a)
  mfreePage c a n := do
    let pages ← (taskLayer cur).mfreePage c.pages a n
    .ok { c with pages, tlb := invlpgLoop c.tlb addr n }
  runs c r := (taskLayer cur).runs c.pages r ∧ ⟨cur, r.1, r.2⟩ ∉ c.raw

inductive Event (P : Type) where
  | mallocPage (pf : PoolFlags) (pgCnt : ℕ)
  | mfreePage (r : Run P)
  /-- `sys_malloc`, `sys_free` or a write to a block. -/
  | heap (c : HeapCall)
  /-- An access to an address, after which the TLB may have its translation. -/
  | access (vaddr : ℕ) (cached : Bool)
  | loadCr3

/-- The address lies in an allocation that is not freed. -/
def Allocated (runs : List (Run P)) (vaddr : ℕ) : Prop :=
  ∃ r ∈ runs, r.vaddr ≤ vaddr ∧ vaddr < r.vaddr + r.pgCnt * pgSize

instance (runs : List (Run P)) (vaddr : ℕ) : Decidable (Allocated runs vaddr) :=
  inferInstanceAs (Decidable (∃ r ∈ runs, _))

def coreStep (cur : Option P) (addr : ℕ) (c : Core P) : Event P → Option (Except Halt (Core P))
  | .mallocPage pf pgCnt => some (do
      let (m, vaddr) ← mallocPage c.pages.mem cur pf pgCnt
      match vaddr with
      | none => .ok { c with pages := { c.pages with mem := m } }
      | some v =>
        let r : Run P := ⟨poolOf cur pf, v, pgCnt⟩
        .ok { c with pages := ⟨m, r :: c.pages.runs⟩, raw := r :: c.raw })
  | .mfreePage r =>
    if r ∈ c.raw then some (do
      let m ← mfreePage c.pages.mem cur (pfOf r.pool) r.vaddr r.pgCnt
      .ok {
        pages := ⟨m, c.pages.runs.erase r⟩
        raw := c.raw.erase r
        tlb := invlpgLoop c.tlb addr r.pgCnt })
    else none
  | .access vaddr cached =>
    if Allocated c.pages.runs vaddr then
      match translate c.pages.mem cur c.tlb vaddr with
      | none => some (.error .nullDeref)
      | some f =>
        if cached = true ∧ c.tlb.lookup (vaddr / pgSize) = none then
          some (.ok { c with tlb := (vaddr / pgSize, f) :: c.tlb })
        else some (.ok c)
    else none
  | .loadCr3 => some (.ok { c with tlb := [] })
  | .heap _ => none

/-- One task, with the address of its descriptors. -/
def machine (cur : Option P) (addr descs : ℕ) : Machine (HeapSt (Core P)) (Event P) Halt where
  step s
    | .heap c => heapStep (tlbLayer cur addr) descs cur.isNone s c
    | e => (coreStep cur addr s.task.pages e).map (Except.map fun c =>
        { s with task := { s.task with pages := c } })

/-- Every access to an allocation reaches the frame that its page table entry names. -/
def Coherent (cur : Option P) (c : Core P) : Prop :=
  ∀ vaddr, Allocated c.pages.runs vaddr →
    translate c.pages.mem cur c.tlb vaddr = some (c.pages.mem.pte cur vaddr).base

/-- The TLB has no entry of a page that is not mapped. -/
def NoStale (cur : Option P) (c : Core P) : Prop :=
  ∀ e ∈ c.tlb, (walk c.pages.mem cur (e.1 * pgSize)).isSome

/-- Pages are given out only while there is no such entry. -/
def Fresh (cur : Option P) (s : HeapSt (Core P)) : Event P → Prop
  | .mallocPage _ _ | .heap (.malloc _) => NoStale cur s.task.pages
  | _ => True

instance (cur : Option P) (s : HeapSt (Core P)) : ∀ e, Decidable (Fresh cur s e)
  | .mallocPage _ _ | .heap (.malloc _) =>
    inferInstanceAs (Decidable (∀ e ∈ s.task.pages.tlb,
      (walk s.task.pages.pages.mem cur (e.1 * pgSize)).isSome))
  | .heap (.free _) | .heap (.write _ _) | .mfreePage _ | .access _ _ | .loadCr3 =>
    inferInstanceAs (Decidable True)

/-! ## The invariant -/

/-- The runs of the task are mapped and lie in the pools of its address space. -/
structure CoreInv (cur : Option P) (stuck : Option P × ℕ → Prop) (c : Core P) : Prop where
  pages : PageInv c.pages stuck
  raw : ∀ r ∈ c.raw, r ∈ c.pages.runs
  once : c.raw.Nodup
  own : ∀ r ∈ c.pages.runs, r.pool = none ∨ r.pool = cur

/-- An entry of the TLB agrees with the page table when the page is mapped. -/
def TlbOk (cur : Option P) (m : Mem P) (tlb : Entries) : Prop :=
  ∀ e ∈ tlb, ∀ q : Option P × ℕ, (q.1 = none ∨ q.1 = cur) → vaddrOf q / pgSize = e.1 →
    ∀ f, holds m (.page q) = some f → e.2 = f

variable {cur : Option P} {stuck : Option P × ℕ → Prop} {m m' : Mem P} {q q' : Option P × ℕ}
variable {c c' : Core P} {addr descs n : ℕ}

section Walk

omit [DecidableEq P]

theorem walk_congr {v w : ℕ} (h : v / pgSize = w / pgSize) :
    walk m cur v = walk m cur w ∧ m.pte cur v = m.pte cur w := by
  have hpde : pdeIdx v = pdeIdx w := by
    simp only [pdeIdx, pgSize] at h ⊢
    omega
  have hpte : pteIdx v = pteIdx w := by
    simp only [pteIdx, pgSize] at h ⊢
    omega
  unfold walk Mem.pte
  rw [hpde, hpte]
  exact ⟨rfl, rfl⟩

/-- The page tables agree with the owners of the frames. -/
theorem walk_eq_holds (hg : Geo m) (hd : q.1 = none ∨ q.1 = cur) (hv : q.2 < limit m q.1) :
    walk m cur (vaddrOf q) = holds m (.page q) := by
  rw [walk, pte_eq hg hv hd, pde_eq hg hv hd]
  simp only [holds, present, hasTable, Bool.and_eq_true, hv, true_and]

theorem pte_of_holds {f : ℕ} (hg : Geo m) (hd : q.1 = none ∨ q.1 = cur)
    (hf : holds m (.page q) = some f) : (m.pte cur (vaddrOf q)).base = f := by
  obtain ⟨hv, -, heq⟩ := holds_page (hf ▸ Option.some_ne_none f)
  rw [pte_eq hg hv hd]
  exact Option.some.inj (heq.symm.trans hf)

end Walk

/-! ## What a step keeps -/

theorem invlpgLoop_subset (tlb : Entries) (addr cnt : ℕ) {e : ℕ × ℕ}
    (he : e ∈ invlpgLoop tlb addr cnt) : e ∈ tlb := by
  induction cnt with
  | zero => exact he
  | succ cnt ih => exact ih (List.mem_filter.mp he).1

section Keeps

omit [DecidableEq P]

/-- Pages are unmapped; the TLB only loses entries. -/
theorem TlbOk.unmap {tlb tlb' : Entries} {S : Option P × ℕ → Prop} (h : TlbOk cur m tlb)
    (hsub : ∀ e ∈ tlb', e ∈ tlb) (hk : Keeps S m m')
    (hnone : ∀ q, S q → holds m' (.page q) = none) : TlbOk cur m' tlb' := by
  intro e he q hd hpage f hf
  have hq : ¬S q := by
    intro hS
    rw [hnone q hS] at hf
    cases hf
  rw [hk.pages q hq] at hf
  exact h e (hsub e he) q hd hpage f hf

/-- Pages are mapped that the TLB has no entry of. -/
theorem TlbOk.map {tlb : Entries} {S : Option P × ℕ → Prop} (h : TlbOk cur m tlb) (hg : Geo m)
    (hfresh : ∀ e ∈ tlb, (walk m cur (e.1 * pgSize)).isSome) (hk : Keeps S m m')
    (hlim : ∀ q, S q → q.2 < limit m q.1)
    (hfree : ∀ q, S q → holds m (.page q) = none) : TlbOk cur m' tlb := by
  intro e he q hd hpage f hf
  have hq : ¬S q := by
    intro hS
    have hmapped := hfresh e he
    have hsame : e.1 * pgSize / pgSize = vaddrOf q / pgSize := by
      rw [← hpage]
      exact Nat.mul_div_cancel _ (by decide)
    rw [(walk_congr hsame).1, walk_eq_holds hg hd (hlim q hS), hfree q hS] at hmapped
    cases hmapped
  rw [hk.pages q hq] at hf
  exact h e he q hd hpage f hf

/-- A page of an allocation. -/
theorem page_of_allocated {vaddr : ℕ} (h : CoreInv cur stuck c)
    (ha : Allocated c.pages.runs vaddr) :
    ∃ q f, (q.1 = none ∨ q.1 = cur) ∧ vaddr / pgSize = vaddrOf q / pgSize ∧
      holds c.pages.mem (.page q) = some f := by
  obtain ⟨r, hr, hlo, hhi⟩ := ha
  obtain ⟨⟨st, hst⟩, -, hall⟩ := h.pages.runs.mapped r hr
  have hmul : vaddrOf (r.pool, st) % pgSize = 0 := vaddrOf_mod
  have hq : r.Has (r.pool, st + (vaddr - r.vaddr) / pgSize) := by
    refine ⟨rfl, ?_, ?_⟩ <;> simp only [hst, vaddrOf, pgSize] at hlo hhi ⊢ <;> omega
  obtain ⟨f, hf⟩ := Option.ne_none_iff_exists'.mp (hall _ hq)
  refine ⟨_, f, h.own r hr, ?_, hf⟩
  simp only [hst, vaddrOf, pgSize] at hlo hhi hmul ⊢
  omega

/-- The translation of an allocation by the TLB or by the page tables. -/
theorem TlbOk.translate {vaddr : ℕ} (h : TlbOk cur c.pages.mem c.tlb) (hc : CoreInv cur stuck c)
    (ha : Allocated c.pages.runs vaddr) :
    translate c.pages.mem cur c.tlb vaddr = some (c.pages.mem.pte cur vaddr).base := by
  obtain ⟨q, f, hd, hpage, hf⟩ := page_of_allocated hc ha
  have hg := hc.pages.settled.geo
  have hv := (holds_page (hf ▸ Option.some_ne_none f)).1
  have hpte : (c.pages.mem.pte cur vaddr).base = f := by
    rw [(walk_congr hpage).2]
    exact pte_of_holds hg hd hf
  unfold Tlb.translate
  split
  · next g hg' =>
    obtain ⟨l₁, l₂, heq, -⟩ := List.lookup_eq_some_iff.mp hg'
    have hmem : (vaddr / pgSize, g) ∈ c.tlb := by
      rw [heq]
      exact List.mem_append_right _ List.mem_cons_self
    rw [hpte]
    exact congrArg some (h _ hmem q hd hpage.symm f hf)
  · rw [(walk_congr hpage).1, walk_eq_holds hg hd hv, hf, hpte]

/-- The TLB takes up the translation of an allocation. -/
theorem TlbOk.fill {vaddr f : ℕ} (h : TlbOk cur c.pages.mem c.tlb) (hc : CoreInv cur stuck c)
    (ha : Allocated c.pages.runs vaddr)
    (hf : Tlb.translate c.pages.mem cur c.tlb vaddr = some f) :
    TlbOk cur c.pages.mem ((vaddr / pgSize, f) :: c.tlb) := by
  intro e he q hd hpage g hg
  rcases List.mem_cons.mp he with rfl | he
  · have hbase := h.translate hc ha
    rw [hf, (walk_congr hpage.symm).2, pte_of_holds hc.pages.settled.geo hd hg] at hbase
    exact Option.some.inj hbase
  · exact h e he q hd hpage g hg

end Keeps

/-! ## The heap over the TLB -/

theorem tlbLayer_malloc_ok {a : Option ℕ}
    (h : (tlbLayer cur addr).mallocPage c n = .ok (c', a)) :
    ∃ pages, c' = { c with pages } ∧ (taskLayer cur).mallocPage c.pages n = .ok (pages, a) := by
  simp only [tlbLayer] at h
  obtain ⟨⟨pages, b⟩, hm, hc⟩ := bind_eq_ok.mp h
  cases hc
  exact ⟨pages, rfl, hm⟩

theorem tlbLayer_mfree_ok {a : ℕ} (h : (tlbLayer cur addr).mfreePage c a n = .ok c') :
    ∃ pages, c' = { c with pages, tlb := invlpgLoop c.tlb addr n } ∧
      (taskLayer cur).mfreePage c.pages a n = .ok pages := by
  simp only [tlbLayer] at h
  obtain ⟨pages, hm, hc⟩ := bind_eq_ok.mp h
  cases hc
  exact ⟨pages, rfl, hm⟩

/-- `malloc_page` for the heap. -/
theorem CoreInv.malloc {a : ℕ} {pages : St P} (hc : CoreInv cur stuck c)
    (hm : (taskLayer cur).mallocPage c.pages n = .ok (pages, some a)) :
    CoreInv cur stuck { c with pages } ∧ (⟨cur, a, n⟩ : Run P) ∉ c.raw ∧
      ∃ st, Keeps (InRun cur st n) c.pages.mem pages.mem ∧
        ∀ q, InRun cur st n q → q.2 < limit c.pages.mem q.1 ∧
          holds c.pages.mem (.page q) = none := by
  obtain ⟨m', st, rfl, rfl, hend, hfree, hk, hi'⟩ := layer_malloc_some hc.pages hm
  have hnew := (List.nodup_cons.mp (runs_nodup hi'.runs)).1
  refine ⟨⟨hi', fun r hr => List.mem_cons_of_mem _ (hc.raw r hr), hc.once, fun r hr => ?_⟩,
    fun hraw => hnew (hc.raw _ hraw), st, hk, fun q hq => ⟨?_, hfree q hq⟩⟩
  · rcases List.mem_cons.mp hr with rfl | hr
    · exact Or.inr rfl
    · exact hc.own r hr
  · obtain ⟨hq, -, hlt⟩ := hq
    rw [hq]
    omega

/-- `mfree_page` for the heap. -/
theorem CoreInv.mfree {r : ℕ × ℕ} {pages : St P} (tlb : Entries) (hc : CoreInv cur stuck c)
    (hr : (tlbLayer cur addr).runs c r)
    (hm : (taskLayer cur).mfreePage c.pages r.1 r.2 = .ok pages) :
    CoreInv cur stuck { c with pages, tlb } ∧
      ∃ st, Keeps (InRun cur st r.2) c.pages.mem pages.mem ∧
        ∀ q, InRun cur st r.2 q → holds pages.mem (.page q) = none := by
  obtain ⟨m', st, -, hok, hk, hnone, hi'⟩ := layer_mfree hc.pages hr.1
  rw [hok] at hm
  cases hm
  refine ⟨⟨hi', fun r' hr' => ?_, hc.once, fun r' hr' => hc.own r' (List.mem_of_mem_erase hr')⟩,
    st, hk, hnone⟩
  refine (List.mem_erase_of_ne ?_).mpr (hc.raw r' hr')
  rintro rfl
  exact hr.2 hr'

theorem tlbLayer_contract (hd : DescsAt cur descs) :
    Contract (tlbLayer cur addr) descs (poolStart cur) (CoreInv cur stuck) where
  poolSize c hc := (taskLayer_contract hd).poolSize c.pages hc.pages
  malloc c n c' a hc hn hm := by
    obtain ⟨pages, rfl, hpages⟩ := tlbLayer_malloc_ok hm
    obtain ⟨-, hmod, hpos, hlow, htop, haway, hapart, hruns⟩ :=
      (taskLayer_contract hd).malloc c.pages n pages a hc.pages hn hpages
    obtain ⟨hc', hraw, -⟩ := hc.malloc hpages
    refine ⟨hc', hmod, hpos, hlow, htop, haway, fun r hr => hapart r hr.1, fun r => ?_⟩
    simp only [tlbLayer, hruns r]
    constructor
    · rintro ⟨h | h, hn⟩
      · exact Or.inl h
      · exact Or.inr ⟨h, hn⟩
    · rintro (rfl | ⟨h, hn⟩)
      · exact ⟨Or.inl rfl, hraw⟩
      · exact ⟨Or.inr h, hn⟩
  null c n c' hc hm := by
    obtain ⟨pages, rfl, hpages⟩ := tlbLayer_malloc_ok hm
    obtain rfl := layer_malloc_null hc.pages hpages
    exact ⟨hc, fun _ => Iff.rfl⟩
  mfree c r c' hc hr hm := by
    obtain ⟨pages, rfl, hpages⟩ := tlbLayer_mfree_ok hm
    obtain ⟨-, hruns⟩ := (taskLayer_contract hd).mfree c.pages r pages hc.pages hr.1 hpages
    refine ⟨(hc.mfree _ hr hpages).1, fun r' => ?_⟩
    simp only [tlbLayer, hruns r']
    constructor
    · rintro ⟨⟨h, hne⟩, hn⟩
      exact ⟨⟨h, hn⟩, hne⟩
    · rintro ⟨⟨h, hn⟩, hne⟩
      exact ⟨⟨h, hne⟩, hn⟩

/-! ## Calls of the page functions -/

/-- What holds between two steps. -/
structure TlbInv (cur : Option P) (addr descs : ℕ) (stuck : Option P × ℕ → Prop)
    (s : HeapSt (Core P)) : Prop where
  heap : HeapInv (tlbLayer cur addr) descs (poolStart cur) (CoreInv cur stuck) s.task s.live
  tlb : TlbOk cur s.task.pages.pages.mem s.task.pages.tlb

theorem TlbInv.coherent {s : HeapSt (Core P)} (h : TlbInv cur addr descs stuck s) :
    Coherent cur s.task.pages :=
  fun _ ha => h.tlb.translate h.heap.pages ha

/-- The task calls `malloc_page` itself. -/
theorem mallocPage_step {pf : PoolFlags} (hc : CoreInv cur stuck c)
    (ht : TlbOk cur c.pages.mem c.tlb) (hfresh : NoStale cur c)
    (hs : coreStep cur addr c (.mallocPage pf n) = some (.ok c')) :
    CoreInv cur stuck c' ∧ TlbOk cur c'.pages.mem c'.tlb ∧
      ∀ r, (tlbLayer cur addr).runs c' r ↔ (tlbLayer cur addr).runs c r := by
  simp only [coreStep, Option.some.injEq] at hs
  rcases poolOf_cases cur pf with ⟨hpf, hd⟩ | ⟨rfl, rfl⟩
  · set d := poolOf cur pf with hpool
    rw [← hpf] at hs
    rcases mallocPage_spec (n := n) hc.pages.settled hd with
      ⟨x, herr, -⟩ | hnull | ⟨m', st, hok, hn, -, hend, hfree, hk, hall, hi'⟩
    · rw [herr] at hs
      cases hs
    · rw [hnull] at hs
      cases hs
      exact ⟨hc, ht, fun _ => Iff.rfl⟩
    · rw [hok] at hs
      cases hs
      have hruns := hc.pages.runs.add hn hfree hk hall
      have hnew := (List.nodup_cons.mp (runs_nodup hruns)).1
      refine ⟨⟨⟨hi', hruns⟩, fun r hr => ?_, ?_, fun r hr => ?_⟩, ?_, fun r => ?_⟩
      · rcases List.mem_cons.mp hr with rfl | hr
        · exact List.mem_cons_self
        · exact List.mem_cons_of_mem _ (hc.raw r hr)
      · exact List.nodup_cons.mpr ⟨fun hr => hnew (hc.raw _ hr), hc.once⟩
      · rcases List.mem_cons.mp hr with rfl | hr
        · exact hd
        · exact hc.own r hr
      · refine ht.map hc.pages.settled.geo hfresh hk (fun q hq => ?_) hfree
        obtain ⟨hq, -, hlt⟩ := hq
        rw [hq]
        omega
      · simp only [tlbLayer, taskLayer, List.mem_cons, not_or]
        constructor
        · rintro ⟨h | h, hne, hn⟩
          · exact absurd h hne
          · exact ⟨h, hn⟩
        · rintro ⟨h, hn⟩
          refine ⟨Or.inr h, fun heq => hnew (heq ▸ h), hn⟩
  · obtain ⟨x, herr, -⟩ := mallocPage_thread (n := n) hc.pages.settled.geo
    rw [herr] at hs
    cases hs

/-- The task calls `mfree_page` itself. -/
theorem mfreePage_step {r : Run P} (hc : CoreInv cur stuck c) (ht : TlbOk cur c.pages.mem c.tlb)
    (hs : coreStep cur addr c (.mfreePage r) = some (.ok c')) :
    CoreInv cur stuck c' ∧ TlbOk cur c'.pages.mem c'.tlb ∧
      ∀ r, (tlbLayer cur addr).runs c' r ↔ (tlbLayer cur addr).runs c r := by
  simp only [coreStep] at hs
  split at hs
  · next hraw =>
    have hr := hc.raw r hraw
    obtain ⟨⟨st, hst⟩, hn, hall⟩ := hc.pages.runs.mapped r hr
    have hhas : ∀ q, r.Has q ↔ InRun r.pool st r.pgCnt q := fun q => r.has_iff hst
    obtain ⟨m', hok, hk, hnone, hi'⟩ := mfreePage_spec hc.pages.settled (hc.own r hr) hn
      fun q hq => hall q ((hhas q).mpr hq)
    rw [hst, hok] at hs
    cases hs
    have hnodup := runs_nodup hc.pages.runs
    refine ⟨⟨⟨hi', hc.pages.runs.erase hr hst hk⟩, fun r' hr' => ?_, hc.once.erase r,
      fun r' hr' => hc.own r' (List.mem_of_mem_erase hr')⟩, ?_, fun r' => ?_⟩
    · obtain ⟨hne, hr'⟩ := hc.once.mem_erase_iff.mp hr'
      exact hnodup.mem_erase_iff.mpr ⟨hne, hc.raw r' hr'⟩
    · exact ht.unmap (fun e he => invlpgLoop_subset _ _ _ he) hk hnone
    · simp only [tlbLayer, taskLayer, hnodup.mem_erase_iff, hc.once.mem_erase_iff]
      constructor
      · rintro ⟨⟨hne, h⟩, hn⟩
        exact ⟨h, fun hraw' => hn ⟨hne, hraw'⟩⟩
      · rintro ⟨h, hn⟩
        exact ⟨⟨fun heq => hn (heq ▸ hraw), h⟩, fun hraw' => hn hraw'.2⟩
  · cases hs

/-- An access, or a CR3 load. -/
theorem access_step {vaddr : ℕ} {cached : Bool} (hc : CoreInv cur stuck c)
    (ht : TlbOk cur c.pages.mem c.tlb)
    (hs : coreStep cur addr c (.access vaddr cached) = some (.ok c')) :
    TlbOk cur c.pages.mem c'.tlb ∧ c' = { c with tlb := c'.tlb } := by
  simp only [coreStep] at hs
  split at hs
  · next ha =>
    split at hs
    · cases hs
    · next f hf =>
      split at hs
      · cases hs
        exact ⟨ht.fill hc ha hf, rfl⟩
      · cases hs
        exact ⟨ht, rfl⟩
  · cases hs

/-! ## Calls of the heap -/

/-- `mfree_page` for the heap leaves entries of pages that are no longer mapped. -/
theorem TlbOk.heapMfree {r : ℕ × ℕ} (hc : CoreInv cur stuck c) (ht : TlbOk cur c.pages.mem c.tlb)
    (hr : (tlbLayer cur addr).runs c r) (hm : (tlbLayer cur addr).mfreePage c r.1 r.2 = .ok c') :
    TlbOk cur c'.pages.mem c'.tlb := by
  obtain ⟨pages, rfl, hpages⟩ := tlbLayer_mfree_ok hm
  obtain ⟨-, st, hk, hnone⟩ := CoreInv.mfree [] hc hr hpages
  exact ht.unmap (fun e he => invlpgLoop_subset _ _ _ he) hk hnone

theorem TlbOk.heapMalloc {a : Option ℕ} (hc : CoreInv cur stuck c)
    (ht : TlbOk cur c.pages.mem c.tlb) (hfresh : NoStale cur c)
    (hm : (tlbLayer cur addr).mallocPage c n = .ok (c', a)) : TlbOk cur c'.pages.mem c'.tlb := by
  obtain ⟨pages, rfl, hpages⟩ := tlbLayer_malloc_ok hm
  cases a with
  | none =>
    obtain rfl := layer_malloc_null hc.pages hpages
    exact ht
  | some a =>
    obtain ⟨-, -, st, hk, hnew⟩ := hc.malloc hpages
    exact ht.map hc.pages.settled.geo hfresh hk (fun q hq => (hnew q hq).1) fun q hq => (hnew q hq).2

variable {s s' : HeapSt (Core P)}

theorem heap_step_tlb {call : HeapCall} (hd : DescsAt cur descs)
    (h : TlbInv cur addr descs stuck s) (hf : Fresh cur s (.heap call))
    (hs : heapStep (tlbLayer cur addr) descs cur.isNone s call = some (.ok s')) :
    TlbInv cur addr descs stuck s' := by
  have hC : Contract (tlbLayer cur addr) descs (poolStart cur) (CoreInv cur stuck) :=
    tlbLayer_contract hd
  have hheap : HeapInv (tlbLayer cur addr) descs (poolStart cur) (CoreInv cur stuck) s'.task
      s'.live := by
    rcases heap_step hC isNone_low h.heap hs with ⟨x, hx, -⟩ | ⟨s₁, hs₁, hinv, -⟩
    · cases hx
    · cases hs₁
      exact hinv
  refine ⟨hheap, ?_⟩
  cases call with
  | malloc size =>
    rcases @malloc_step _ _ _ _ _ cur.isNone s hC h.heap size with
      ⟨x, herr, -⟩ | ⟨s₁, hok, -, hp, -⟩
    · rw [herr] at hs
      cases hs
    · rw [hok] at hs
      cases hs
      generalize s'.task.pages = c' at hp ⊢
      cases hp with
      | same => exact h.tlb
      | null hm => exact TlbOk.heapMalloc h.heap.pages h.tlb hf hm
      | malloc _ hm => exact TlbOk.heapMalloc h.heap.pages h.tlb hf hm
      | mfree hr hm => exact TlbOk.heapMfree h.heap.pages h.tlb hr hm
  | free ptr =>
    simp only [heapStep] at hs
    split at hs
    · cases hs
    · next b hfind =>
      have hb := List.mem_of_find?_eq_some hfind
      have hptr : b.ptr = ptr := by simpa using List.find?_some hfind
      subst hptr
      have hspec := sysFree_spec hC h.heap isNone_low hb
      obtain ⟨t, ht, hok⟩ := bind_eq_ok.mp (Option.some.inj hs)
      cases hok
      rw [ht] at hspec
      cases hspec with
      | keep _ hp =>
        rw [hp]
        exact h.tlb
      | release _ hr hm => exact TlbOk.heapMfree h.heap.pages h.tlb hr hm
  | write a v =>
    simp only [heapStep] at hs
    split at hs
    · cases hs
      exact h.tlb
    · cases hs

/-! ## Runs -/

/-- A step of the page functions leaves the heap as it is. -/
theorem TlbInv.pages (h : TlbInv cur addr descs stuck s) (hc : CoreInv cur stuck c)
    (ht : TlbOk cur c.pages.mem c.tlb)
    (hruns : ∀ r, (tlbLayer cur addr).runs c r ↔ (tlbLayer cur addr).runs s.task.pages r) :
    TlbInv cur addr descs stuck { s with task := { s.task with pages := c } } :=
  ⟨h.heap.congr hc hruns, ht⟩

theorem tlbInv_step {e : Event P} (hd : DescsAt cur descs) (h : TlbInv cur addr descs stuck s)
    (hf : Fresh cur s e) (hs : (machine cur addr descs).step s e = some (.ok s')) :
    TlbInv cur addr descs stuck s' := by
  cases e with
  | heap call => exact heap_step_tlb hd h hf hs
  | mallocPage pf n =>
    simp only [machine] at hs
    obtain ⟨c', hc', rfl⟩ := Machine.ok_of_map hs
    obtain ⟨hc, ht, hruns⟩ := mallocPage_step h.heap.pages h.tlb hf hc'
    exact h.pages hc ht hruns
  | mfreePage r =>
    simp only [machine] at hs
    obtain ⟨c', hc', rfl⟩ := Machine.ok_of_map hs
    obtain ⟨hc, ht, hruns⟩ := mfreePage_step h.heap.pages h.tlb hc'
    exact h.pages hc ht hruns
  | access vaddr cached =>
    simp only [machine] at hs
    obtain ⟨c', hc', rfl⟩ := Machine.ok_of_map hs
    obtain ⟨ht, heq⟩ := access_step h.heap.pages h.tlb hc'
    rw [heq]
    have hc := h.heap.pages
    exact h.pages ⟨hc.pages, hc.raw, hc.once, hc.own⟩ ht fun _ => Iff.rfl
  | loadCr3 =>
    simp only [machine] at hs
    obtain ⟨c', hc', rfl⟩ := Machine.ok_of_map hs
    cases hc'
    have hc := h.heap.pages
    exact h.pages ⟨hc.pages, hc.raw, hc.once, hc.own⟩ (fun e he => absurd he List.not_mem_nil)
      fun _ => Iff.rfl

/-- A task before its first call, after CR3 has been loaded. -/
def start (mem₀ : Words) (m : Mem P) : HeapSt (Core P) := ⟨⟨mem₀, ⟨⟨m, []⟩, [], []⟩⟩, []⟩

/-- **TLB coherence.**  In every run that gives out pages only while the TLB has no entry of a page
that is not mapped, every access to an allocation reaches the frame of its page table entry. -/
theorem tlb_coherent {m₀ : Mem P} {ps : List (Call P)} {sp : St P} {mem mem₀ : Words}
    {es : List (Event P)} (hm : Start m₀) (hp : pageMachine.run ⟨m₀, []⟩ ps = some (.ok sp))
    (hd : DescsAt cur descs) (hmem : blockDescInit mem descs = .ok mem₀)
    (hr : ((machine cur addr descs).guard (Fresh cur)).run (start mem₀ sp.mem) es = some (.ok s)) :
    Coherent cur s.task.pages := by
  have hcore : CoreInv cur (stuckAt m₀) ⟨⟨sp.mem, []⟩, [], []⟩ :=
    ⟨⟨(page_run hm hp).settled, fun r hr => absurd hr List.not_mem_nil, List.Pairwise.nil⟩,
      fun r hr => absurd hr List.not_mem_nil, List.nodup_nil,
      fun r hr => absurd hr List.not_mem_nil⟩
  have hstart : TlbInv cur addr descs (stuckAt m₀) (start mem₀ sp.mem) :=
    ⟨heapInv_start hmem hcore fun r hr => absurd hr.1 List.not_mem_nil,
      fun e he => absurd he List.not_mem_nil⟩
  have hinv : TlbInv cur addr descs (stuckAt m₀) s :=
    Machine.run_guard_ok (fun _ _ _ hs hc hstep => tlbInv_step hd hs hc hstep) hstart hr
  exact hinv.coherent

/-! ## A kernel thread -/

/-- A kernel thread on a machine with little memory, with the stack of the main thread. -/
abbrev thread : Machine (HeapSt (Core Unit)) (Event Unit) Halt := machine none 0xc009eff0 kBlockDescs

def thread₀ : HeapSt (Core Unit) := start descsMem (bootMem Unit 0x240000)

/-- The blocks and the runs are accessed only after the last page has been given out. -/
def lateAccess : List (Event Unit) :=
  [.mallocPage .kernel 2, .heap (.malloc 5000), .mfreePage ⟨none, 0xc0100000, 2⟩,
    .mallocPage .kernel 1, .access 0xc0100008 true, .access 0xc010200c true,
    .heap (.free 0xc010200c)]

theorem tlb_coherent_lateAccess : ∃ s,
    (thread.guard (Fresh none)).run thread₀ lateAccess = some (.ok s) ∧
      s.task.pages.tlb = [(0xc0102, 0x202000), (0xc0100, 0x200000)] ∧
      Coherent none s.task.pages := by
  have htest : ∃ s, (thread.guard (Fresh none)).run thread₀ lateAccess = some (.ok s) ∧
      decide (s.task.pages.tlb = [(0xc0102, 0x202000), (0xc0100, 0x200000)]) = true :=
    Machine.run_of_test _ (by decide +kernel)
  obtain ⟨s, hrun, htlb⟩ := htest
  have hpages : pageMachine.run ⟨bootMem Unit 0x240000, []⟩ [] =
      some (.ok ⟨bootMem Unit 0x240000, []⟩) := rfl
  exact ⟨s, hrun, of_decide_eq_true htlb,
    tlb_coherent (bootMem_start 0x240000) hpages kBlockDescs_at descsMem_init hrun⟩

/-- A page is accessed, freed, and given out again with another frame. -/
def reuse : List (Event Unit) :=
  [.mallocPage .kernel 2, .mallocPage .kernel 1, .access 0xc0100000 true,
    .mfreePage ⟨none, 0xc0100000, 2⟩, .mallocPage .kernel 3, .mallocPage .kernel 1]

/-- The new page has the frame `0x204000`; the access goes to `0x200000`, the first frame of the run
of three pages. -/
theorem not_coherent_reuse : ∃ s, thread.run thread₀ reuse = some (.ok s) ∧
    Allocated s.task.pages.pages.runs 0xc0100000 ∧
    translate s.task.pages.pages.mem none s.task.pages.tlb 0xc0100000 = some 0x200000 ∧
    (s.task.pages.pages.mem.pte none 0xc0100000).base = 0x204000 ∧
    (s.task.pages.pages.mem.pte none 0xc0103000).base = 0x200000 ∧
    ¬Coherent none s.task.pages := by
  have htest : ∃ s, thread.run thread₀ reuse = some (.ok s) ∧
      decide (Allocated s.task.pages.pages.runs 0xc0100000 ∧
        translate s.task.pages.pages.mem none s.task.pages.tlb 0xc0100000 = some 0x200000 ∧
        (s.task.pages.pages.mem.pte none 0xc0100000).base = 0x204000 ∧
        (s.task.pages.pages.mem.pte none 0xc0103000).base = 0x200000) = true :=
    Machine.run_of_test _ (by decide +kernel)
  obtain ⟨s, hrun, hall⟩ := htest
  obtain ⟨ha, htr, hpte, hother⟩ := of_decide_eq_true hall
  refine ⟨s, hrun, ha, htr, hpte, hother, fun hcoh => ?_⟩
  have heq := hcoh _ ha
  rw [htr, hpte] at heq
  exact absurd heq (by decide)

end HcOs.Tlb
