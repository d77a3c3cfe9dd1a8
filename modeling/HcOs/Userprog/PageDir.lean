import HcOs.Kernel.Tlb

/-!
# Page directories (`boot/loader.S`, `userprog/process.c`)

`setup_page` of the loader builds the directory of the kernel with an entry for every page table of
the upper quarter, and `create_page_dir` copies this quarter from the directory that is active when
a process is created.  The copies stay equal because `page_table_add` writes a directory entry only
when its bit `P` is clear, and `setup_page` has left no such entry in the upper quarter.

The memory that `setup_page` does not write, and the page of a directory before `create_page_dir`,
hold any values.  The calls of `malloc_page`, `mfree_page` and `get_a_page` are those of
`PageRun`; the results about them are stated for a memory in which every process has a directory
and no page of the kernel's heap is mapped at the start.  `view` is such a memory: the calls that
return do there what they do here (`pageStep_view`).

`directories`: the upper quarter of all directories is the same at all times, and the user pages of
a process are its own.
-/

namespace HcOs.PageDir

open HcOs.Lib HcOs.Page
open HcOs.Tlb (walk)

/-! ## The loader -/

/-- The first entries of the first page table map the low megabyte. -/
def createPte (pt : ℕ → ℕ → Entry) : ℕ → ℕ → ℕ → Entry
  | 0 => pt
  | ecx + 1 =>
    let pt := createPte pt ecx
    Function.update pt 0x101000 (Function.update (pt 0x101000) ecx ⟨ecx * 0x1000, true⟩)

/-- The entries from 769 on name the page tables from `0x102000` on. -/
def createKernelPde (pde : ℕ → Entry) : ℕ → ℕ → Entry
  | 0 => pde
  | ecx + 1 => Function.update (createKernelPde pde ecx) (769 + ecx) ⟨0x102000 + ecx * 0x1000, true⟩

/-- `setup_page`: the directory at `0x100000` and the page tables. -/
def setupPage (pt : ℕ → ℕ → Entry) : (ℕ → Entry) × (ℕ → ℕ → Entry) :=
  let pde : ℕ → Entry := fun _ => ⟨0, false⟩
  let pde := Function.update pde 0 ⟨0x101000, true⟩
  let pde := Function.update pde 768 ⟨0x101000, true⟩
  let pde := Function.update pde 1023 ⟨0x100000, true⟩
  (createKernelPde pde 254, createPte pt 256)

theorem createPte_eq (pt : ℕ → ℕ → Entry) (n t i : ℕ) :
    createPte pt n t i = if t = 0x101000 ∧ i < n then ⟨i * 0x1000, true⟩ else pt t i := by
  induction n with
  | zero => rw [if_neg (by omega), createPte]
  | succ n ih =>
    simp only [createPte]
    by_cases ht : t = 0x101000
    · subst ht
      rw [Function.update_self]
      by_cases hi : i = n
      · subst hi
        rw [Function.update_self, if_pos ⟨rfl, by omega⟩]
      · rw [Function.update_of_ne hi, ih]
        by_cases hlt : i < n
        · rw [if_pos ⟨rfl, hlt⟩, if_pos ⟨rfl, by omega⟩]
        · rw [if_neg (by omega), if_neg (by omega)]
    · rw [Function.update_of_ne ht, ih, if_neg (by omega), if_neg (by omega)]

theorem createKernelPde_of_lt (pde : ℕ → Entry) {n j : ℕ} (hj : j < n) :
    createKernelPde pde n (769 + j) = ⟨0x102000 + j * 0x1000, true⟩ := by
  induction n with
  | zero => omega
  | succ n ih =>
    simp only [createKernelPde]
    by_cases h : j = n
    · subst h
      rw [Function.update_self]
    · rw [Function.update_of_ne (by omega), ih (by omega)]

theorem createKernelPde_of_not (pde : ℕ → Entry) {n j : ℕ} (hj : j < 769 ∨ 769 + n ≤ j) :
    createKernelPde pde n j = pde j := by
  induction n with
  | zero => rfl
  | succ n ih =>
    simp only [createKernelPde]
    rw [Function.update_of_ne (by omega), ih (by omega)]

/-- The upper quarter after `setup_page`. -/
theorem setupPage_kernel (pt : ℕ → ℕ → Entry) {j : ℕ} (hlo : 768 ≤ j) (hhi : j < 1023) :
    (setupPage pt).1 j = ⟨0x101000 + 0x1000 * (j - 768), true⟩ := by
  simp only [setupPage]
  by_cases h : j = 768
  · subst h
    rw [createKernelPde_of_not _ (by omega), Function.update_of_ne (by omega), Function.update_self]
  · obtain ⟨k, rfl⟩ : ∃ k, j = 769 + k := ⟨j - 769, by omega⟩
    have hbase : 0x102000 + k * 0x1000 = 0x101000 + 0x1000 * (769 + k - 768) := by omega
    rw [createKernelPde_of_lt _ (by omega), hbase]

/-- The entries of the lower three quarters after `setup_page`, but for the first one. -/
theorem setupPage_user (pt : ℕ → ℕ → Entry) {j : ℕ} (hlo : 1 ≤ j) (hhi : j < 768) :
    ((setupPage pt).1 j).p = false := by
  simp only [setupPage]
  rw [createKernelPde_of_not _ (by omega), Function.update_of_ne (by omega),
    Function.update_of_ne (by omega), Function.update_of_ne (by omega)]

theorem setupPage_pt (pt : ℕ → ℕ → Entry) (t i : ℕ) :
    (setupPage pt).2 t i = if t = 0x101000 ∧ i < 256 then ⟨i * 0x1000, true⟩ else pt t i := by
  simp only [setupPage]
  exact createPte_eq pt 256 t i

/-! ## The machine -/

variable {P : Type}

/-- The memory after `mem_pool_init`: the directory of the kernel and the pools are set up.  Nothing
is said about the directories of the processes and about the page tables that the loader has not
written. -/
structure Boot (m : Mem P) : Prop where
  pools : ∃ (m₀ : Mem P) (allMem : ℕ), m = memPoolInit m₀ allMem
  process : ∀ p, ∃ bits, m.userprogVaddr (some p) = createUserVaddrBitmap bits
  thread : (m.userprogVaddr none).vaddrBitmap.btmpBytesLen = 0
  loader : ∃ pt, m.pde none = (setupPage pt).1 ∧ m.pt = (setupPage pt).2

variable [DecidableEq P]

/-- `create_page_dir` for the process `p`, called by the task `cur`. -/
def createPageDir (m : Mem P) (cur : Option P) (p : P) : Except Halt (Mem P × Option ℕ) := do
  let (m, pageDirVaddr) ← mallocPage m cur .kernel 1
  match pageDirVaddr with
  | none => .ok (m, none)
  | some v => do
    -- `get_kernel_pages` clears the page
    let dir : ℕ → Entry := fun _ => ⟨0, false⟩
    let dir : ℕ → Entry := fun j => if 768 ≤ j then m.pde cur j else dir j
    let newPageDirPhyAddr ← addrV2p m cur v
    let dir := Function.update dir 1023 ⟨newPageDirPhyAddr, true⟩
    .ok ({ m with pde := Function.update m.pde (some p) dir }, some v)

structure State (P : Type) where
  st : St P
  /-- The processes that have a directory, and where it is. -/
  dirs : List (P × ℕ)

def State.created (s : State P) : List P := s.dirs.map Prod.fst

/-- The task runs under a directory that has been built. -/
def Active (L : List P) (d : Option P) : Prop := ∀ p ∈ d, p ∈ L

instance (L : List P) (d : Option P) : Decidable (Active L d) :=
  inferInstanceAs (Decidable (∀ p ∈ d, p ∈ L))

inductive Event (P : Type) where
  | createPageDir (cur : Option P) (p : P)
  | call (c : Call P)

/-- The task that makes a call. -/
def caller : Call P → Option P
  | .mallocPage cur _ _ | .mfreePage cur _ | .getAPage cur _ _ => cur

/-- The virtual pool a call works on. -/
def poolOfCall : Call P → Option P
  | .mallocPage cur pf _ | .getAPage cur pf _ => poolOf cur pf
  | .mfreePage _ r => r.pool

/-- The run that a call frees. -/
def freed : Call P → Option (Run P)
  | .mfreePage _ r => some r
  | .mallocPage _ _ _ | .getAPage _ _ _ => none

/-- Any task creates directories and makes calls; nobody frees a directory. -/
def machine (P : Type) [DecidableEq P] : Machine (State P) (Event P) Halt where
  step s
    | .createPageDir cur p =>
      if Active s.created cur ∧ p ∉ s.created then some (do
        let (m, v) ← createPageDir s.st.mem cur p
        match v with
        | none => .ok { s with st := { s.st with mem := m } }
        | some v => .ok ⟨⟨m, ⟨none, v, 1⟩ :: s.st.runs⟩, (p, v) :: s.dirs⟩)
      else none
    | .call c =>
      if Active s.created (caller c) ∧ ∀ r ∈ freed c, r.vaddr ∉ s.dirs.map Prod.snd then
        (pageStep s.st c).map (Except.map fun st => { s with st })
      else none

/-! ## The view -/

/-- A directory as `create_page_dir` leaves it, without its last entry. -/
def freshDir (j : ℕ) : Entry := if 768 ≤ j then ⟨0x101000 + 0x1000 * (j - 768), true⟩ else ⟨0, false⟩

/-- The memory in which the processes outside `L` have a fresh directory too, and the entries `G`
are not present. -/
def view (L : List P) (G : ℕ → ℕ → Bool) (m : Mem P) : Mem P :=
  { m with
    pde := fun d => if Active L d then m.pde d else freshDir
    pt := fun t i => if G t i = true then ⟨0, false⟩ else m.pt t i }

/-- The entries `G` lie in page tables of the kernel, and they are present: no `page_table_add`
gets past them. -/
structure Stale (G : ℕ → ℕ → Bool) (m : Mem P) : Prop where
  low : ∀ t i, G t i = true → 0x101000 ≤ t ∧ t < 0x200000
  stays : ∀ t i, G t i = true → (m.pt t i).p = true
  start : m.kernelPool.phyAddrStart = 0x200000

variable {L : List P} {G : ℕ → ℕ → Bool} {m m' : Mem P} {cur : Option P} {pf : PoolFlags}

section View

theorem view_pde (hcur : Active L cur) : (view L G m).pde cur = m.pde cur := if_pos hcur

theorem view_pde_of_not (hcur : ¬Active L cur) : (view L G m).pde cur = freshDir := if_neg hcur

theorem view_pool : (view L G m).pool pf = m.pool pf := by
  cases pf <;> rfl

theorem view_vaddr : (view L G m).vaddr cur pf = m.vaddr cur pf := by
  cases pf <;> rfl

theorem view_setPool (pool : Pool) : view L G (m.setPool pool pf) = (view L G m).setPool pool pf := by
  cases pf <;> rfl

theorem view_setVaddr (v : VirtualAddr) :
    view L G (m.setVaddr cur v pf) = (view L G m).setVaddr cur v pf := by
  cases pf <;> rfl

theorem view_pte (hcur : Active L cur) {v : ℕ}
    (hG : G (m.pde cur (pdeIdx v)).base (pteIdx v) ≠ true) :
    (view L G m).pte cur v = m.pte cur v := by
  rw [Mem.pte, view_pde hcur]
  exact if_neg hG

theorem view_setPte (hcur : Active L cur) {v : ℕ} {e : Entry}
    (hG : G (m.pde cur (pdeIdx v)).base (pteIdx v) ≠ true) :
    view L G (m.setPte cur v e) = (view L G m).setPte cur v e := by
  unfold Mem.setPte
  simp only [view_pde hcur]
  unfold view
  congr 1
  funext t i
  dsimp only
  by_cases ht : t = (m.pde cur (pdeIdx v)).base
  · subst ht
    rw [Function.update_self, Function.update_self]
    by_cases hi : i = pteIdx v
    · subst hi
      rw [Function.update_self, Function.update_self, if_neg hG]
    · rw [Function.update_of_ne hi, Function.update_of_ne hi]
  · rw [Function.update_of_ne ht, Function.update_of_ne ht]

omit [DecidableEq P] in
/-- What the edits keep that do not touch the entries `G`. -/
theorem Stale.setPte (h : Stale G m) {v : ℕ} {e : Entry}
    (hG : G (m.pde cur (pdeIdx v)).base (pteIdx v) ≠ true) : Stale G (m.setPte cur v e) := by
  refine ⟨h.low, fun t i hti => ?_, h.start⟩
  have hne : ¬(t = (m.pde cur (pdeIdx v)).base ∧ i = pteIdx v) := by
    rintro ⟨rfl, rfl⟩
    exact hG hti
  unfold Mem.setPte
  dsimp only
  by_cases ht : t = (m.pde cur (pdeIdx v)).base
  · subst ht
    rw [Function.update_self, Function.update_of_ne fun hi => hne ⟨rfl, hi⟩]
    exact h.stays _ _ hti
  · rw [Function.update_of_ne ht]
    exact h.stays _ _ hti

end View

/-! ## The page functions in the view -/

theorem vaddrGet_view {n : ℕ} {r : Option ℕ} (h : vaddrGet m cur pf n = .ok (m', r)) :
    vaddrGet (view L G m) cur pf n = .ok (view L G m', r) ∧ (Stale G m → Stale G m') := by
  unfold vaddrGet at h ⊢
  dsimp only at h ⊢
  rw [view_vaddr]
  obtain ⟨start, hscan, h⟩ := bind_eq_ok.mp h
  rw [hscan, ok_bind]
  cases start with
  | none =>
    cases h
    exact ⟨rfl, id⟩
  | some start =>
    have hstale : ∀ v, Stale G m → Stale G (m.setVaddr cur v pf) := by
      intro v hm
      cases pf <;> exact ⟨hm.low, hm.stays, hm.start⟩
    cases pf with
    | kernel =>
      cases h
      exact ⟨rfl, hstale _⟩
    | user =>
      obtain ⟨hlow, h⟩ := assert_bind_eq_ok.mp h
      dsimp only
      rw [assert_bind_of hlow]
      cases h
      exact ⟨rfl, hstale _⟩

theorem palloc_view {r : Option ℕ} (h : palloc m pf = .ok (m', r)) :
    palloc (view L G m) pf = .ok (view L G m', r) ∧ (Stale G m → Stale G m') ∧
      m'.pde = m.pde ∧ m'.pt = m.pt ∧ ∀ f, r = some f → (m.pool pf).phyAddrStart ≤ f := by
  unfold palloc at h ⊢
  dsimp only at h ⊢
  rw [view_pool]
  obtain ⟨idx, hscan, h⟩ := bind_eq_ok.mp h
  rw [hscan, ok_bind]
  cases idx with
  | none =>
    cases h
    exact ⟨rfl, id, rfl, rfl, fun f hf => by cases hf⟩
  | some i =>
    cases h
    refine ⟨by rw [view_setPool], fun hm => ?_, ?_, ?_, fun f hf => ?_⟩
    · cases pf <;> exact ⟨hm.low, hm.stays, hm.start⟩
    · cases pf <;> rfl
    · cases pf <;> rfl
    · cases hf
      exact Nat.le_add_left _ _

omit [DecidableEq P] in
/-- An entry that is not present is none of `G`. -/
theorem Stale.not_mem (h : Stale G m) {v : ℕ} (hpte : (m.pte cur v).p = false) :
    G (m.pde cur (pdeIdx v)).base (pteIdx v) ≠ true := by
  intro hG
  have hp := h.stays _ _ hG
  rw [Mem.pte, hp] at hpte
  cases hpte

/-- A new, empty page table. -/
def withTable (m : Mem P) (cur : Option P) (j table : ℕ) : Mem P :=
  { m with
    pde := Function.update m.pde cur (Function.update (m.pde cur) j ⟨table, true⟩)
    pt := Function.update m.pt table fun _ => ⟨0, false⟩ }

theorem withTable_view (hcur : Active L cur) (h : Stale G m) (j : ℕ) {table : ℕ}
    (htable : table = 0 ∨ 0x200000 ≤ table) :
    view L G (withTable m cur j table) = withTable (view L G m) cur j table ∧
      Stale G (withTable m cur j table) := by
  have hG : ∀ i, G table i ≠ true := by
    intro i hi
    have := h.low _ _ hi
    omega
  refine ⟨?_, h.low, fun t i hti => ?_, h.start⟩
  · unfold withTable view
    simp only [if_pos hcur]
    congr 1
    · funext d
      by_cases hd : d = cur
      · subst hd
        rw [Function.update_self, Function.update_self, if_pos hcur]
      · rw [Function.update_of_ne hd, Function.update_of_ne hd]
    · funext t i
      by_cases ht : t = table
      · subst ht
        rw [Function.update_self, Function.update_self, if_neg (hG i)]
      · rw [Function.update_of_ne ht, Function.update_of_ne ht]
  · have ht : t ≠ table := by
      rintro rfl
      exact hG i hti
    simp only [withTable]
    rw [Function.update_of_ne ht]
    exact h.stays t i hti

theorem pageTableAdd_view {v f : ℕ} (hcur : Active L cur) (hm : Stale G m)
    (h : pageTableAdd m cur v f = .ok m') :
    pageTableAdd (view L G m) cur v f = .ok (view L G m') ∧ Stale G m' := by
  unfold pageTableAdd at h ⊢
  rw [view_pde hcur]
  by_cases hpde : (m.pde cur (pdeIdx v)).p = true
  · rw [if_pos hpde] at h ⊢
    split at h
    · next hpte =>
      have hG := hm.not_mem hpte
      cases h
      rw [view_pte hcur hG, if_pos hpte, view_setPte hcur hG]
      exact ⟨rfl, hm.setPte hG⟩
    · cases h
  · rw [if_neg hpde] at h ⊢
    obtain ⟨⟨m₁, phy⟩, hpalloc, h⟩ := bind_eq_ok.mp h
    obtain ⟨hview, hstale, -, -, hstart⟩ := palloc_view (L := L) (G := G) hpalloc
    rw [hview, ok_bind]
    have htable : phy.getD 0 = 0 ∨ 0x200000 ≤ phy.getD 0 := by
      cases phy with
      | none => exact Or.inl rfl
      | some g =>
        have hle := hstart g rfl
        rw [show m.pool .kernel = m.kernelPool from rfl, hm.start] at hle
        exact Or.inr hle
    obtain ⟨hview₂, hstale₂⟩ := withTable_view hcur (hstale hm) (pdeIdx v) htable
    obtain ⟨hpte, h⟩ := assert_bind_eq_ok.mp h
    cases h
    change ((withTable m₁ cur (pdeIdx v) (phy.getD 0)).pte cur v).p = false at hpte
    have hG := hstale₂.not_mem hpte
    refine ⟨?_, hstale₂.setPte hG⟩
    have hpte' : ((withTable (view L G m₁) cur (pdeIdx v) (phy.getD 0)).pte cur v).p = false := by
      rw [← hview₂, view_pte hcur hG]
      exact hpte
    refine (assert_bind_of hpte' _).trans (congrArg Except.ok ?_)
    show (withTable (view L G m₁) cur (pdeIdx v) (phy.getD 0)).setPte cur v ⟨f, true⟩ = _
    rw [← hview₂, ← view_setPte hcur hG]
    rfl

theorem mallocLoop_view {n v : ℕ} {r : Bool} (hcur : Active L cur) (hm : Stale G m)
    (h : mallocLoop cur pf n v m = .ok (m', r)) :
    mallocLoop cur pf n v (view L G m) = .ok (view L G m', r) ∧ Stale G m' := by
  induction n generalizing v m with
  | zero =>
    cases h
    exact ⟨rfl, hm⟩
  | succ n ih =>
    unfold mallocLoop at h ⊢
    obtain ⟨⟨m₁, phy⟩, hpalloc, h⟩ := bind_eq_ok.mp h
    obtain ⟨hview, hstale, -⟩ := palloc_view (L := L) (G := G) hpalloc
    rw [hview, ok_bind]
    cases phy with
    | none =>
      cases h
      exact ⟨rfl, hstale hm⟩
    | some f =>
      obtain ⟨m₂, hadd, h⟩ := bind_eq_ok.mp h
      obtain ⟨hview₂, hstale₂⟩ := pageTableAdd_view hcur (hstale hm) hadd
      obtain ⟨hview₃, hstale₃⟩ := ih hstale₂ h
      refine ⟨?_, hstale₃⟩
      dsimp only
      rw [hview₂, ok_bind]
      exact hview₃

theorem mallocPage_view {n : ℕ} {r : Option ℕ} (hcur : Active L cur) (hm : Stale G m)
    (h : mallocPage m cur pf n = .ok (m', r)) :
    mallocPage (view L G m) cur pf n = .ok (view L G m', r) ∧ Stale G m' := by
  unfold mallocPage at h ⊢
  obtain ⟨hn, h⟩ := assert_bind_eq_ok.mp h
  rw [assert_bind_of hn]
  obtain ⟨⟨m₁, v⟩, hget, h⟩ := bind_eq_ok.mp h
  obtain ⟨hview, hstale⟩ := vaddrGet_view (L := L) (G := G) hget
  rw [hview, ok_bind]
  cases v with
  | none =>
    cases h
    exact ⟨rfl, hstale hm⟩
  | some v =>
    obtain ⟨⟨m₂, done⟩, hloop, h⟩ := bind_eq_ok.mp h
    obtain ⟨hview₂, hstale₂⟩ := mallocLoop_view hcur (hstale hm) hloop
    dsimp only
    rw [hview₂, ok_bind]
    cases h
    exact ⟨rfl, hstale₂⟩

theorem getAPage_view {v : ℕ} {r : Option ℕ} (hcur : Active L cur) (hm : Stale G m)
    (h : getAPage m cur pf v = .ok (m', r)) :
    getAPage (view L G m) cur pf v = .ok (view L G m', r) ∧ Stale G m' := by
  unfold getAPage at h ⊢
  dsimp only at h ⊢
  split at h
  · next hown =>
    rw [if_pos hown, view_vaddr]
    obtain ⟨hidx, h⟩ := assert_bind_eq_ok.mp h
    rw [assert_bind_of hidx, ← view_setVaddr]
    obtain ⟨⟨m₁, phy⟩, hpalloc, h⟩ := bind_eq_ok.mp h
    obtain ⟨hview, hstale, -⟩ := palloc_view (L := L) (G := G) hpalloc
    have hm₁ : Stale G m₁ := by
      apply hstale
      cases pf <;> exact ⟨hm.low, hm.stays, hm.start⟩
    rw [hview, ok_bind]
    cases phy with
    | none =>
      cases h
      exact ⟨rfl, hm₁⟩
    | some f =>
      obtain ⟨m₂, hadd, h⟩ := bind_eq_ok.mp h
      obtain ⟨hview₂, hstale₂⟩ := pageTableAdd_view hcur hm₁ hadd
      dsimp only
      rw [hview₂, ok_bind]
      cases h
      exact ⟨rfl, hstale₂⟩
  · cases h

theorem pfree_view (a : ℕ) :
    view L G (pfree m a) = pfree (view L G m) a ∧ (pfree m a).pde = m.pde ∧
      (Stale G m → Stale G (pfree m a)) := by
  unfold pfree
  dsimp only
  have huser : (view L G m).userPool = m.userPool := rfl
  rw [huser, view_pool, view_setPool]
  refine ⟨rfl, ?_, fun hm => ?_⟩
  · split <;> rfl
  · split <;> exact ⟨hm.low, hm.stays, hm.start⟩

theorem mfreeLoop_view {inPool : Mem P → ℕ → Bool} {condition : String} {n v : ℕ}
    (hin : ∀ m a, inPool (view L G m) a = inPool m a) (hcur : Active L cur) (hm : Stale G m)
    (hG : ∀ k, k < n →
      G (m.pde cur (pdeIdx (v + k * pgSize))).base (pteIdx (v + k * pgSize)) ≠ true)
    (h : mfreeLoop cur inPool condition n v m = .ok m') :
    mfreeLoop cur inPool condition n v (view L G m) = .ok (view L G m') ∧ Stale G m' := by
  induction n generalizing v m with
  | zero =>
    cases h
    exact ⟨rfl, hm⟩
  | succ n ih =>
    have hG₀ : G (m.pde cur (pdeIdx v)).base (pteIdx v) ≠ true := by
      simpa using hG 0 (Nat.succ_pos n)
    unfold mfreeLoop at h ⊢
    obtain ⟨phy, hv2p, h⟩ := bind_eq_ok.mp h
    obtain ⟨hassert, h⟩ := assert_bind_eq_ok.mp h
    obtain ⟨hview, hpde, hstale⟩ := pfree_view (L := L) (G := G) (m := m) phy
    have hv2p' : addrV2p (view L G m) cur v = .ok phy := by
      rw [← hv2p, addrV2p, addrV2p, view_pde hcur, view_pte hcur hG₀]
    rw [hv2p', ok_bind, assert_bind_of ⟨hassert.1, (hin m phy).trans hassert.2⟩]
    have hG₁ : G ((pfree m phy).pde cur (pdeIdx v)).base (pteIdx v) ≠ true := by
      rw [hpde]
      exact hG₀
    have hremove : view L G (pageTablePteRemove (pfree m phy) cur v) =
        pageTablePteRemove (pfree (view L G m) phy) cur v := by
      unfold pageTablePteRemove
      rw [view_setPte hcur hG₁, ← hview, view_pte hcur hG₁]
    have hG₂ : ∀ k, k < n → G ((pageTablePteRemove (pfree m phy) cur v).pde cur
        (pdeIdx (v + pgSize + k * pgSize))).base (pteIdx (v + pgSize + k * pgSize)) ≠ true := by
      intro k hk
      have hk' := hG (k + 1) (Nat.succ_lt_succ hk)
      have haddr : v + (k + 1) * pgSize = v + pgSize + k * pgSize := by
        rw [Nat.add_mul, Nat.one_mul]
        omega
      rw [haddr] at hk'
      show G ((pfree m phy).pde cur _).base _ ≠ true
      rw [hpde]
      exact hk'
    have hstale₁ : Stale G (pageTablePteRemove (pfree m phy) cur v) := (hstale hm).setPte hG₁
    obtain ⟨hview₂, hstale₂⟩ := ih hstale₁ hG₂ h
    refine ⟨?_, hstale₂⟩
    rw [hremove] at hview₂
    exact hview₂

theorem mfreePage_view {v n : ℕ} (hcur : Active L cur) (hm : Stale G m)
    (hG : ∀ k, k < n →
      G (m.pde cur (pdeIdx (v + k * pgSize))).base (pteIdx (v + k * pgSize)) ≠ true)
    (h : mfreePage m cur pf v n = .ok m') :
    mfreePage (view L G m) cur pf v n = .ok (view L G m') ∧ Stale G m' := by
  unfold mfreePage at h ⊢
  obtain ⟨hn, h⟩ := assert_bind_eq_ok.mp h
  obtain ⟨phy, hv2p, h⟩ := bind_eq_ok.mp h
  obtain ⟨hphy, h⟩ := assert_bind_eq_ok.mp h
  obtain ⟨m₁, hloop, h⟩ := bind_eq_ok.mp h
  have hG₀ : G (m.pde cur (pdeIdx v)).base (pteIdx v) ≠ true := by
    simpa using hG 0 hn.1
  have hv2p' : addrV2p (view L G m) cur v = .ok phy := by
    rw [← hv2p, addrV2p, addrV2p, view_pde hcur, view_pte hcur hG₀]
  have hview : (if (view L G m).userPool.phyAddrStart ≤ phy then
      mfreeLoop cur (fun m a => decide (m.userPool.phyAddrStart ≤ a))
        "(pg_phy_addr % PG_SIZE) == 0 && pg_phy_addr >= user_pool.phy_addr_start" n v (view L G m)
    else
      mfreeLoop cur
        (fun m a => decide (m.kernelPool.phyAddrStart ≤ a ∧ a < m.userPool.phyAddrStart))
        "(pg_phy_addr % PG_SIZE) == 0 && pg_phy_addr >= kernel_pool.phy_addr_start && pg_phy_addr < user_pool.phy_addr_start"
        n v (view L G m) : Except Halt (Mem P)) = .ok (view L G m₁) ∧ Stale G m₁ := by
    have huser : (view L G m).userPool = m.userPool := rfl
    rw [huser]
    split at hloop
    · next hle =>
      rw [if_pos hle]
      exact mfreeLoop_view (fun _ _ => rfl) hcur hm hG hloop
    · next hlt =>
      rw [if_neg hlt]
      exact mfreeLoop_view (fun _ _ => rfl) hcur hm hG hloop
  rw [assert_bind_of hn, hv2p', ok_bind, assert_bind_of hphy, hview.1, ok_bind]
  cases h
  unfold vaddrRemove
  dsimp only
  rw [view_vaddr, view_setVaddr]
  refine ⟨rfl, ?_⟩
  have hm₁ := hview.2
  cases pf <;> exact ⟨hm₁.low, hm₁.stays, hm₁.start⟩

/-! ## The calls in the view -/

variable {s s' : St P} {stuck : Option P × ℕ → Prop}

/-- The view of the pages that are in use. -/
def viewSt (L : List P) (G : ℕ → ℕ → Bool) (s : St P) : St P := ⟨view L G s.mem, s.runs⟩

theorem freePage_view {v : ℕ} : FreePage (view L G m) cur pf v ↔ FreePage m cur pf v := by
  unfold FreePage
  rw [view_vaddr]

/-- The entries of a run that is in use are none of `G`. -/
theorem run_not_mem {r : Run P} (hcur : Active L cur) (hi : PageInv (viewSt L G s) stuck)
    (hr : r ∈ s.runs) (hd : r.pool = none ∨ r.pool = cur) {k : ℕ} (hk : k < r.pgCnt) :
    G (s.mem.pde cur (pdeIdx (r.vaddr + k * pgSize))).base (pteIdx (r.vaddr + k * pgSize)) ≠ true := by
  intro hG
  obtain ⟨⟨st, hst⟩, -, hall⟩ := hi.runs.mapped r hr
  have haddr : r.vaddr + k * pgSize = vaddrOf (r.pool, st + k) := by
    rw [hst]
    simp only [vaddrOf, Nat.add_mul]
    omega
  have hpage := hall (r.pool, st + k) ((r.has_iff hst).mpr ⟨rfl, by simp, by simpa using hk⟩)
  obtain ⟨hv, hpres, -⟩ := holds_page hpage
  rw [present, Bool.and_eq_true] at hpres
  have hp : ((view L G s.mem).pte cur (vaddrOf (r.pool, st + k))).p = true := by
    have hpte := pte_eq hi.settled.geo hv hd
    exact (congrArg Entry.p hpte).trans hpres.2
  rw [haddr] at hG
  rw [Mem.pte, view_pde hcur] at hp
  simp only [view, if_pos hG] at hp
  cases hp

/-- A call that returns does the same in the view. -/
theorem pageStep_view {c : Call P} (hcur : Active L (caller c)) (hm : Stale G s.mem)
    (hi : PageInv (viewSt L G s) stuck) (h : pageStep s c = some (.ok s')) :
    pageStep (viewSt L G s) c = some (.ok (viewSt L G s')) ∧ Stale G s'.mem := by
  cases c with
  | mallocPage cur pf n =>
    simp only [pageStep, viewSt, Option.some.injEq] at h ⊢
    obtain ⟨⟨m', v⟩, hmalloc, h⟩ := bind_eq_ok.mp h
    have hact : Active L cur := hcur
    obtain ⟨hview, hstale⟩ := mallocPage_view hact hm hmalloc
    rw [hview, ok_bind]
    cases v with
    | none =>
      cases h
      exact ⟨rfl, hstale⟩
    | some v =>
      cases h
      exact ⟨rfl, hstale⟩
  | mfreePage cur r =>
    simp only [pageStep] at h
    split at h
    · next hr =>
      have hact : Active L cur := hcur
      have hstep : pageStep (viewSt L G s) (.mfreePage cur r) = some (do
          let m ← mfreePage (view L G s.mem) cur (pfOf r.pool) r.vaddr r.pgCnt
          .ok ⟨m, s.runs.erase r⟩) := if_pos hr
      obtain ⟨m', hmfree, h⟩ := bind_eq_ok.mp (Option.some.inj h)
      obtain ⟨hview, hstale⟩ := mfreePage_view hact hm
        (fun k hk => run_not_mem hact hi hr.1 hr.2 hk) hmfree
      rw [hstep, hview, ok_bind]
      cases h
      exact ⟨rfl, hstale⟩
    · cases h
  | getAPage cur pf v =>
    simp only [pageStep] at h
    split at h
    · next hfree =>
      have hact : Active L cur := hcur
      have hstep : pageStep (viewSt L G s) (.getAPage cur pf v) = some (do
          let (m, _) ← getAPage (view L G s.mem) cur pf v
          .ok ⟨m, s.runs⟩) := if_pos (freePage_view.mpr hfree)
      obtain ⟨⟨m', r⟩, hget, h⟩ := bind_eq_ok.mp (Option.some.inj h)
      obtain ⟨hview, hstale⟩ := getAPage_view hact hm hget
      rw [hstep, hview, ok_bind]
      cases h
      exact ⟨rfl, hstale⟩
    · cases h

/-! ## What a call keeps -/

variable {q : Option P × ℕ} {pend : Option P × ℕ → Prop} {flight : ℕ → Prop}

section Congr

omit [DecidableEq P]

theorem pdeIdx_lt (hg : Geo m) (hv : q.2 < limit m q.1) : pdeIdx (vaddrOf q) < 1023 := by
  obtain ⟨d, i⟩ := q
  rcases limit_le hg hv with ⟨hd, hi⟩ | ⟨⟨p, hd⟩, hi⟩ <;> simp only at hd hi <;> subst hd
  · rw [pdeIdx_kernel hi]
    omega
  · rw [pdeIdx_user hi]
    omega

variable {pde : Option P → ℕ → Entry}

theorem present_setPde (hg : Geo m) (h : ∀ d j, j < 1023 → pde d j = m.pde d j)
    (hv : q.2 < limit m q.1) :
    present { m with pde := pde } q = present m q ∧
      Mem.pte { m with pde := pde } q.1 (vaddrOf q) = m.pte q.1 (vaddrOf q) := by
  have hj := h q.1 _ (pdeIdx_lt hg hv)
  simp only [present, hasTable, Mem.pte, hj, and_self]

theorem holds_setPde (hg : Geo m) (h : ∀ d j, j < 1023 → pde d j = m.pde d j) :
    holds { m with pde := pde } = holds m := by
  funext o
  cases o with
  | page q =>
    by_cases hq : q.2 < limit m q.1
    · obtain ⟨hpres, hpte⟩ := present_setPde hg h hq
      simp only [holds]
      rw [hpres, hpte]
      rfl
    · have hq' : ¬q.2 < limit { m with pde := pde } q.1 := hq
      simp only [holds]
      rw [if_neg fun hc => hq hc.1, if_neg fun hc => hq' hc.1]
  | table p j =>
    by_cases hj : j < 768
    · simp only [holds, h (some p) j (by omega)]
    · simp only [holds]
      rw [if_neg fun hc => hj hc.1, if_neg fun hc => hj hc.1]

/-- The last entry of a directory is of no account to the pages. -/
theorem inv_setPde (hi : Inv m pend stuck flight) (h : ∀ d j, j < 1023 → pde d j = m.pde d j) :
    Inv { m with pde := pde } pend stuck flight := by
  have hg := hi.geo
  have hkernel : ∀ d j, 768 ≤ j → j < 1023 → pde d j = ⟨0x101000 + 0x1000 * (j - 768), true⟩ := by
    intro d j hlo hhi
    rw [h d j hhi]
    exact hg.kernelPde d j hlo hhi
  refine ⟨⟨hg.kernelStart, hg.userStart, hg.userFrames, hg.kernelVaddr, hg.kernelPages,
    hg.userVaddr, hg.userPages, hg.threadPages, hkernel, hg.lowPte, hg.poolSizes⟩,
    fun q hq => ?_, fun q hq => ?_, fun q hq => ?_, ?_, ?_⟩
  · rw [(present_setPde hg h hq).1]
    exact hi.bit_iff q hq
  · obtain ⟨hv, hpres⟩ := hi.pend_spec q hq
    exact ⟨hv, (present_setPde hg h hv).1.trans hpres⟩
  · obtain ⟨hd, hlim, hpres, hnot⟩ := hi.stuck_spec q hq
    have hv : q.2 < limit m q.1 := by
      rw [hd]
      omega
    exact ⟨hd, hlim, (present_setPde hg h hv).1.trans hpres, hnot⟩
  · rw [holds_setPde hg h]
    exact hi.kind
  · rw [holds_setPde hg h]
    exact hi.owns

/-- The entries of a directory that may change: those with the bit `P` clear, among the entries `J`
of the directory of `cur`. -/
def Grows (cur : Option P) (J : ℕ → Prop) (m m' : Mem P) : Prop :=
  ∀ d j, m'.pde d j = m.pde d j ∨ (d = cur ∧ J j ∧ (m.pde d j).p = false)

variable {J J' : ℕ → Prop} {m'' : Mem P}

theorem Grows.of_eq (h : m'.pde = m.pde) : Grows cur J m m' := fun d j => Or.inl (by rw [h])

theorem Grows.trans (h₁ : Grows cur J m m') (h₂ : Grows cur J m' m'') : Grows cur J m m'' := by
  intro d j
  rcases h₁ d j with h | h
  · rw [← h]
    exact h₂ d j
  · exact Or.inr h

theorem Grows.mono (h : Grows cur J m m') (hJ : ∀ j, J j → J' j) : Grows cur J' m m' := by
  intro d j
  rcases h d j with h | ⟨hd, hj, hp⟩
  · exact Or.inl h
  · exact Or.inr ⟨hd, hJ j hj, hp⟩

end Congr

theorem pageTableAdd_grows {v f : ℕ} (h : pageTableAdd m cur v f = .ok m') :
    Grows cur (· = pdeIdx v) m m' := by
  unfold pageTableAdd at h
  by_cases hpde : (m.pde cur (pdeIdx v)).p = true
  · rw [if_pos hpde] at h
    split at h
    · cases h
      exact Grows.of_eq rfl
    · cases h
  · rw [if_neg hpde] at h
    obtain ⟨⟨m₁, phy⟩, hpalloc, h⟩ := bind_eq_ok.mp h
    obtain ⟨-, -, hpde₁, -⟩ := palloc_view (L := []) (G := fun _ _ => false) hpalloc
    obtain ⟨-, h⟩ := assert_bind_eq_ok.mp h
    cases h
    intro d j
    by_cases hd : d = cur ∧ j = pdeIdx v
    · obtain ⟨rfl, rfl⟩ := hd
      exact Or.inr ⟨rfl, rfl, Bool.not_eq_true _ ▸ hpde⟩
    · refine Or.inl ?_
      simp only [Mem.setPte, hpde₁]
      by_cases hc : d = cur
      · subst hc
        rw [Function.update_self, Function.update_of_ne fun hj => hd ⟨rfl, hj⟩]
      · rw [Function.update_of_ne hc]

/-- The directory entries of a run of pages. -/
def RunPde (v n : ℕ) (j : ℕ) : Prop := ∃ k, k < n ∧ j = pdeIdx (v + k * pgSize)

theorem mallocLoop_grows {n v : ℕ} {r : Bool} (h : mallocLoop cur pf n v m = .ok (m', r)) :
    Grows cur (RunPde v n) m m' := by
  induction n generalizing v m with
  | zero =>
    cases h
    exact Grows.of_eq rfl
  | succ n ih =>
    unfold mallocLoop at h
    obtain ⟨⟨m₁, phy⟩, hpalloc, h⟩ := bind_eq_ok.mp h
    obtain ⟨-, -, hpde, -⟩ := palloc_view (L := []) (G := fun _ _ => false) hpalloc
    have h₁ : Grows cur (RunPde v (n + 1)) m m₁ := Grows.of_eq hpde
    cases phy with
    | none =>
      cases h
      exact h₁
    | some f =>
      obtain ⟨m₂, hadd, h⟩ := bind_eq_ok.mp h
      have h₂ : Grows cur (RunPde v (n + 1)) m₁ m₂ := by
        refine (pageTableAdd_grows hadd).mono fun j hj => ⟨0, Nat.succ_pos n, ?_⟩
        rw [hj, Nat.zero_mul, Nat.add_zero]
      have h₃ : Grows cur (RunPde v (n + 1)) m₂ m' := by
        refine (ih h).mono fun j hj => ?_
        obtain ⟨k, hk, rfl⟩ := hj
        refine ⟨k + 1, Nat.succ_lt_succ hk, ?_⟩
        congr 1
        rw [Nat.add_mul, Nat.one_mul]
        omega
      exact (h₁.trans h₂).trans h₃

theorem mallocPage_grows {n : ℕ} {r : Option ℕ} (h : mallocPage m cur pf n = .ok (m', r)) :
    ∃ v, Grows cur (RunPde v n) m m' ∧ ∀ w, r = some w → w = v := by
  unfold mallocPage at h
  obtain ⟨-, h⟩ := assert_bind_eq_ok.mp h
  obtain ⟨⟨m₁, v⟩, hget, h⟩ := bind_eq_ok.mp h
  have hpde : m₁.pde = m.pde := (vaddrGet_tables hget).1
  cases v with
  | none =>
    cases h
    exact ⟨0, Grows.of_eq hpde, fun w hw => by cases hw⟩
  | some v =>
    obtain ⟨⟨m₂, done⟩, hloop, h⟩ := bind_eq_ok.mp h
    cases h
    refine ⟨v, (Grows.of_eq hpde).trans (mallocLoop_grows hloop), fun w hw => ?_⟩
    cases done with
    | false => cases hw
    | true =>
      cases hw
      rfl

theorem getAPage_grows {v : ℕ} {r : Option ℕ} (h : getAPage m cur pf v = .ok (m', r)) :
    Grows cur (· = pdeIdx v) m m' := by
  unfold getAPage at h
  dsimp only at h
  split at h
  · obtain ⟨-, h⟩ := assert_bind_eq_ok.mp h
    obtain ⟨⟨m₁, phy⟩, hpalloc, h⟩ := bind_eq_ok.mp h
    obtain ⟨-, -, hpde, -⟩ := palloc_view (L := []) (G := fun _ _ => false) hpalloc
    have h₁ : Grows cur (· = pdeIdx v) m m₁ := Grows.of_eq (hpde.trans (setVaddr_tables _).1)
    cases phy with
    | none =>
      cases h
      exact h₁
    | some f =>
      obtain ⟨m₂, hadd, h⟩ := bind_eq_ok.mp h
      cases h
      exact h₁.trans (pageTableAdd_grows hadd)
  · cases h

theorem mfreeLoop_pde {inPool : Mem P → ℕ → Bool} {condition : String} {n v : ℕ}
    (h : mfreeLoop cur inPool condition n v m = .ok m') : m'.pde = m.pde := by
  induction n generalizing v m with
  | zero =>
    cases h
    rfl
  | succ n ih =>
    unfold mfreeLoop at h
    obtain ⟨phy, -, h⟩ := bind_eq_ok.mp h
    obtain ⟨-, h⟩ := assert_bind_eq_ok.mp h
    obtain ⟨-, hpde, -⟩ := pfree_view (L := []) (G := fun _ _ => false) (m := m) phy
    exact (ih h).trans hpde

theorem mfreePage_pde {v n : ℕ} (h : mfreePage m cur pf v n = .ok m') : m'.pde = m.pde := by
  unfold mfreePage at h
  obtain ⟨-, h⟩ := assert_bind_eq_ok.mp h
  obtain ⟨phy, -, h⟩ := bind_eq_ok.mp h
  obtain ⟨-, h⟩ := assert_bind_eq_ok.mp h
  obtain ⟨m₁, hloop, h⟩ := bind_eq_ok.mp h
  cases h
  refine (setVaddr_tables _).1.trans ?_
  split at hloop
  · exact mfreeLoop_pde hloop
  · exact mfreeLoop_pde hloop

/-- What a call leaves alone: the pages outside `S`, the runs that it does not free, the entries of
other directories, the entries that are present, and the last one. -/
structure CallKeeps (c : Call P) (s s' : St P) : Prop where
  pages : ∃ S : Option P × ℕ → Prop, Keeps S s.mem s'.mem ∧
    (∀ q, S q → q.1 = poolOfCall c) ∧
    ∀ r ∈ s.runs, r ∉ freed c → r ∈ s'.runs ∧ ∀ q, r.Has q → ¬S q
  grows : Grows (caller c) (fun j => caller c ≠ none ∧ j < 1023) s.mem s'.mem

omit [DecidableEq P] in
/-- The entries of the kernel's pages are present. -/
theorem grows_kernel {J J' : ℕ → Prop} (hg : Geo m) (h : Grows cur J m m')
    (hJ : ∀ j, J j → 768 ≤ j ∧ j < 1023) : Grows cur J' m m' := by
  intro d j
  rcases h d j with h | ⟨-, hj, hp⟩
  · exact Or.inl h
  · obtain ⟨hlo, hhi⟩ := hJ j hj
    rw [hg.kernelPde d j hlo hhi] at hp
    cases hp

omit [DecidableEq P] in
theorem grows_pages {J : ℕ → Prop} {d : Option P} (hg : Geo m) (h : Grows cur J m m')
    (hd : d = none ∨ d = cur) (hJ : ∀ j, J j → ∃ i, i < limit m d ∧ j = pdeIdx (vaddrOf (d, i))) :
    Grows cur (fun j => cur ≠ none ∧ j < 1023) m m' := by
  cases d with
  | none =>
    refine grows_kernel hg h fun j hj => ?_
    obtain ⟨i, hi, rfl⟩ := hJ j hj
    have hv : ((none : Option P), i).2 < limit m ((none : Option P), i).1 := hi
    refine ⟨?_, pdeIdx_lt hg hv⟩
    rcases limit_le hg hv with ⟨-, hi'⟩ | ⟨⟨p, hp⟩, -⟩
    · rw [pdeIdx_kernel hi']
      exact Nat.le_add_right _ _
    · cases hp
  | some p =>
    refine h.mono fun j hj => ?_
    obtain ⟨i, hi, rfl⟩ := hJ j hj
    refine ⟨?_, pdeIdx_lt hg hi⟩
    rw [← hd.resolve_left (Option.some_ne_none p)]
    exact Option.some_ne_none p

theorem mallocPage_keeps {n : ℕ} (hi : PageInv s stuck)
    (h : pageStep s (.mallocPage cur pf n) = some (.ok s')) :
    CallKeeps (.mallocPage cur pf n) s s' := by
  simp only [pageStep, Option.some.injEq] at h
  rcases poolOf_cases cur pf with ⟨hpf, hd⟩ | ⟨rfl, rfl⟩
  · set d := poolOf cur pf with hpool
    rcases mallocPage_spec (n := n) hi.settled hd with
      ⟨x, herr, -, -⟩ | hnull | ⟨m', st, hok, hn, -, hlim, hfree, hk, -, -⟩
    · rw [hpf] at herr
      rw [herr] at h
      cases h
    · rw [hpf] at hnull
      rw [hnull] at h
      cases h
      exact ⟨⟨fun _ => False, Keeps.refl _, fun q hq => hq.elim, fun r hr _ => ⟨hr, fun _ _ => id⟩⟩,
        Grows.of_eq rfl⟩
    · rw [hpf] at hok
      obtain ⟨v, hgrows, hv⟩ := mallocPage_grows hok
      rw [hok] at h
      cases h
      refine ⟨⟨InRun d st n, hk, fun q hq => hq.1, fun r hr _ => ⟨List.mem_cons_of_mem _ hr, ?_⟩⟩, ?_⟩
      · exact fun q hq hS => (hi.runs.mapped r hr).2.2 q hq (hfree q hS)
      · refine grows_pages hi.settled.geo hgrows hd fun j hj => ?_
        obtain ⟨k, hlt, rfl⟩ := hj
        refine ⟨st + k, by omega, ?_⟩
        rw [← hv _ rfl]
        simp only [vaddrOf, Nat.add_mul, Nat.add_assoc]
  · obtain ⟨x, herr, -⟩ := mallocPage_thread (n := n) hi.settled.geo
    rw [herr] at h
    cases h

theorem mfreePage_keeps {r : Run P} (hi : PageInv s stuck)
    (h : pageStep s (.mfreePage cur r) = some (.ok s')) : CallKeeps (.mfreePage cur r) s s' := by
  simp only [pageStep] at h
  split at h
  · next hr =>
    obtain ⟨m', hmfree, h⟩ := bind_eq_ok.mp (Option.some.inj h)
    cases h
    obtain ⟨⟨st, hst⟩, hn, hall⟩ := hi.runs.mapped r hr.1
    have hhas : ∀ q, r.Has q ↔ InRun r.pool st r.pgCnt q := fun q => r.has_iff hst
    obtain ⟨m₁, hok, hk, -, -⟩ := mfreePage_spec hi.settled hr.2 hn fun q hq =>
      hall q ((hhas q).mpr hq)
    rw [← hst, hmfree] at hok
    cases hok
    refine ⟨⟨InRun r.pool st r.pgCnt, hk, fun q hq => hq.1, fun r' hr' hne => ?_⟩,
      Grows.of_eq (mfreePage_pde hmfree)⟩
    have hne : r' ≠ r := by
      rintro rfl
      exact hne rfl
    have hmem : r' ∈ s.runs.erase r := (List.mem_erase_of_ne hne).mpr hr'
    refine ⟨hmem, fun q hq hS => ?_⟩
    have hperm := List.perm_cons_erase hr.1
    have hpair := (hperm.pairwise_iff fun {r r'} h q hq hq' => h q hq' hq).mp hi.runs.disjoint
    exact (List.pairwise_cons.mp hpair).1 r' hmem q ((hhas q).mpr hS) hq
  · cases h

theorem getAPage_keeps {vaddr : ℕ} (hi : PageInv s stuck)
    (h : pageStep s (.getAPage cur pf vaddr) = some (.ok s')) :
    CallKeeps (.getAPage cur pf vaddr) s s' := by
  simp only [pageStep] at h
  split at h
  · next hfree =>
    obtain ⟨⟨m', r⟩, hget, h⟩ := bind_eq_ok.mp (Option.some.inj h)
    cases h
    obtain ⟨hpf, j, i, rfl, hlt, hj, hbit⟩ := freePage_cases hi.settled.geo hfree
    have hown : (cur ≠ none ∧ pf = .user) ∨ (cur = none ∧ pf = .kernel) := by
      by_contra hnot
      simp only [getAPage, if_neg hnot] at hget
      cases hget
    obtain ⟨hpool, hpf'⟩ : poolOf cur pf = cur ∧ pf = pfOf cur := by
      rcases hown with ⟨hc, rfl⟩ | ⟨rfl, rfl⟩
      · exact ⟨rfl, hpf.symm⟩
      · exact ⟨rfl, rfl⟩
    rw [hpool] at hget hj hbit
    have hgrows := getAPage_grows hget
    rw [hpf'] at hget
    have h0 : j ≠ 0 := by
      rintro rfl
      rw [getAPage_first hi.settled.geo hj hlt] at hget
      cases hget
    rcases getAPage_spec hi.settled hj hbit h0 hlt with herr | ⟨m₁, hok, hk, -⟩
    · rw [hget] at herr
      cases herr
    · rw [hget] at hok
      cases hok
      refine ⟨⟨(· = (cur, j)), hk, fun q hq => ?_, fun r hr _ => ⟨hr, ?_⟩⟩, ?_⟩
      · subst hq
        exact hpool.symm
      · rintro q hq rfl
        exact (hi.runs.mapped r hr).2.2 _ hq (holds_none_of_bit hi.settled hbit)
      · show Grows cur (fun j => cur ≠ none ∧ j < 1023) s.mem m'
        refine grows_pages hi.settled.geo hgrows (Or.inr rfl) fun l hl => ⟨j, hj, ?_⟩
        have hmod : vaddrOf (cur, j) % pgSize = 0 := vaddrOf_mod
        rw [hl]
        simp only [pdeIdx, pgSize] at hlt hmod ⊢
        omega
  · cases h

/-- A call that returns keeps the invariant. -/
theorem call_keeps {c : Call P} (hi : PageInv s stuck) (h : pageStep s c = some (.ok s')) :
    PageInv s' stuck ∧ CallKeeps c s s' := by
  constructor
  · rcases page_step hi h with ⟨x, hx, -⟩ | ⟨s₁, hs₁, hi'⟩
    · cases hx
    · cases hs₁
      exact hi'
  · cases c with
    | mallocPage cur pf n => exact mallocPage_keeps hi h
    | mfreePage cur r => exact mfreePage_keeps hi h
    | getAPage cur pf v => exact getAPage_keeps hi h

/-! ## The invariant -/

/-- The view of the pages is in order; every directory is in a page of its own, which its last entry
names, and the kernel has no user pages. -/
structure DirInv (G : ℕ → ℕ → Bool) (stuck : Option P × ℕ → Prop) (s : State P) : Prop where
  pages : PageInv (viewSt s.created G s.st) stuck
  stale : Stale G s.st.mem
  own : ∀ x ∈ s.dirs, ⟨none, x.2, 1⟩ ∈ s.st.runs ∧ ∃ st f, x.2 = vaddrOf ((none : Option P), st) ∧
    holds (view s.created G s.st.mem) (.page (none, st)) = some f ∧
    s.st.mem.pde (some x.1) 1023 = ⟨f, true⟩
  kernel : ∀ j, 1 ≤ j → j < 768 → (s.st.mem.pde none j).p = false

variable {t t' : State P} {p : P}

omit [DecidableEq P] in
theorem active_none : Active L (none : Option P) := fun p hp => by cases hp

omit [DecidableEq P] in
theorem active_of_mem {x : P × ℕ} (hx : x ∈ t.dirs) : Active t.created (some x.1) := by
  intro p hp
  cases hp
  exact List.mem_map_of_mem hx

theorem dirInv_call {c : Call P} {st' : St P} (hi : DirInv G stuck t)
    (hact : Active t.created (caller c)) (hfree : ∀ r ∈ freed c, r.vaddr ∉ t.dirs.map Prod.snd)
    (h : pageStep t.st c = some (.ok st')) :
    DirInv G stuck { t with st := st' } ∧
      CallKeeps c (viewSt t.created G t.st) (viewSt t.created G st') := by
  obtain ⟨hview, hstale⟩ := pageStep_view hact hi.stale hi.pages h
  obtain ⟨hpages, hkeeps⟩ := call_keeps hi.pages hview
  refine ⟨⟨hpages, hstale, fun x hx => ?_, fun j hlo hhi => ?_⟩, hkeeps⟩
  · obtain ⟨hrun, st, f, hst, hf, hpde⟩ := hi.own x hx
    obtain ⟨S, hk, -, hruns⟩ := hkeeps.pages
    have hnot : (⟨none, x.2, 1⟩ : Run P) ∉ freed c := by
      intro hmem
      exact hfree _ hmem (List.mem_map_of_mem hx)
    obtain ⟨hrun', hS⟩ := hruns _ hrun hnot
    have hhas : Run.Has ⟨none, x.2, 1⟩ ((none : Option P), st) := by
      refine ⟨rfl, ?_, ?_⟩ <;> simp only [hst, pgSize] <;> omega
    refine ⟨hrun', st, f, hst, ?_, ?_⟩
    · exact (hk.pages _ (hS _ hhas)).trans hf
    · have hd : Active t.created (some x.1) := active_of_mem hx
      have hgrow := hkeeps.grows (some x.1) 1023
      simp only [viewSt, view_pde hd, hpde] at hgrow
      rcases hgrow with heq | ⟨-, -, hp⟩
      · exact heq
      · cases hp
  · have hgrow := hkeeps.grows none j
    simp only [viewSt, view_pde active_none] at hgrow
    rcases hgrow with heq | ⟨hd, hne, -⟩
    · show (st'.mem.pde none j).p = false
      rw [heq]
      exact hi.kernel j hlo hhi
    · exact absurd hd.symm hne.1

/-- The directory that `create_page_dir` writes into its page. -/
def copyDir (m : Mem P) (cur : Option P) (phy : ℕ) : ℕ → Entry :=
  Function.update (fun j => if 768 ≤ j then m.pde cur j else ⟨0, false⟩) 1023 ⟨phy, true⟩

theorem view_setDir (hp : p ∉ L) (dir : ℕ → Entry) :
    view (p :: L) G { m with pde := Function.update m.pde (some p) dir } =
      { view L G m with pde := Function.update (view L G m).pde (some p) dir } := by
  unfold view
  dsimp only
  congr 1
  funext d
  by_cases hd : d = some p
  · subst hd
    have hact : Active (p :: L) (some p) := by
      intro q hq
      cases hq
      exact List.mem_cons_self
    rw [if_pos hact, Function.update_self, Function.update_self]
  · have hact : Active (p :: L) d ↔ Active L d := by
      refine forall₂_congr fun q hq => ?_
      rw [List.mem_cons]
      refine or_iff_right ?_
      rintro rfl
      exact hd hq
    rw [Function.update_of_ne hd, Function.update_of_ne hd]
    simp only [hact]

omit [DecidableEq P] in
theorem copyDir_fresh {phy j : ℕ} (hg : Geo m) (hj : j < 1023) :
    copyDir m cur phy j = freshDir j := by
  unfold copyDir freshDir
  rw [Function.update_of_ne (Nat.ne_of_lt hj)]
  split
  · next hlo => exact hg.kernelPde cur j hlo hj
  · rfl

/-- The physical address of a page of the kernel that is in use. -/
theorem addrV2p_own {v phy : ℕ} (hi : PageInv (viewSt L G s) stuck) (hcur : Active L cur)
    (hrun : ⟨none, v, 1⟩ ∈ s.runs) (h : addrV2p s.mem cur v = .ok phy) :
    ∃ st, v = vaddrOf ((none : Option P), st) ∧
      holds (view L G s.mem) (.page (none, st)) = some phy := by
  obtain ⟨⟨st, hst⟩, -, hall⟩ := hi.runs.mapped _ hrun
  have hst : v = vaddrOf ((none : Option P), st) := hst
  have hhas : Run.Has ⟨none, v, 1⟩ ((none : Option P), st) := by
    refine ⟨rfl, ?_, ?_⟩ <;> simp only [hst, pgSize] <;> omega
  have hnone : ((none : Option P), st).1 = none ∨ ((none : Option P), st).1 = cur := Or.inl rfl
  obtain ⟨j, -, hv2p, hbase⟩ := addrV2p_spec hi.settled hnone (hall _ hhas)
  obtain ⟨-, -, hf⟩ := holds_page (hall _ hhas)
  have hG : G (s.mem.pde cur (pdeIdx v)).base (pteIdx v) ≠ true := by
    simpa using run_not_mem hcur hi hrun (Or.inl rfl) (Nat.zero_lt_one)
  refine ⟨st, hst, ?_⟩
  have heq : addrV2p (view L G s.mem) cur v = .ok phy := by
    rw [← h, addrV2p, addrV2p, view_pde hcur, view_pte hcur hG]
  rw [hst] at heq
  have hphy : frameAt (view L G s.mem) (pfOf (none : Option P)) j = phy :=
    Except.ok.inj (hv2p.symm.trans heq)
  rw [← hphy]
  exact hf.trans (congrArg some hbase)

theorem dirInv_dir {v phy : ℕ} (hi : DirInv G stuck t) (hcur : Active t.created cur)
    (hp : p ∉ t.created) (hrun : ⟨none, v, 1⟩ ∈ t.st.runs)
    (h : addrV2p t.st.mem cur v = .ok phy) :
    DirInv G stuck ⟨⟨{ t.st.mem with
      pde := Function.update t.st.mem.pde (some p) (copyDir t.st.mem cur phy) }, t.st.runs⟩,
      (p, v) :: t.dirs⟩ ∧
    holds (view (p :: t.created) G { t.st.mem with
      pde := Function.update t.st.mem.pde (some p) (copyDir t.st.mem cur phy) }) =
      holds (view t.created G t.st.mem) := by
  set V := view t.created G t.st.mem with hV
  have hg : Geo V := hi.pages.settled.geo
  have hcopy : copyDir t.st.mem cur phy = copyDir V cur phy := by
    unfold copyDir
    rw [hV, view_pde hcur]
  have hnot : ¬Active t.created (some p) := fun hact => hp (hact p rfl)
  have hagree : ∀ d j, j < 1023 →
      Function.update V.pde (some p) (copyDir t.st.mem cur phy) d j = V.pde d j := by
    intro d j hj
    by_cases hd : d = some p
    · subst hd
      rw [Function.update_self, hcopy, copyDir_fresh hg hj]
      rw [hV, view_pde_of_not hnot]
    · rw [Function.update_of_ne hd]
  have hview := view_setDir (G := G) (m := t.st.mem) hp (copyDir t.st.mem cur phy)
  rw [← hV] at hview
  have hholds : holds (view (p :: t.created) G { t.st.mem with
      pde := Function.update t.st.mem.pde (some p) (copyDir t.st.mem cur phy) }) = holds V := by
    rw [hview]
    exact holds_setPde hg hagree
  refine ⟨⟨⟨?_, ⟨?_, hi.pages.runs.disjoint⟩⟩, ⟨hi.stale.low, hi.stale.stays, hi.stale.start⟩, ?_,
    ?_⟩, hholds⟩
  · show Inv (view (p :: t.created) G _) _ _ _
    rw [hview]
    exact inv_setPde hi.pages.settled hagree
  · intro r hr
    obtain ⟨hst, hn, hall⟩ := hi.pages.runs.mapped r hr
    refine ⟨hst, hn, fun q hq => ?_⟩
    show holds (view (p :: t.created) G _) _ ≠ none
    rw [hholds]
    exact hall q hq
  · intro x hx
    rcases List.mem_cons.mp hx with rfl | hx
    · obtain ⟨st, hst, hf⟩ := addrV2p_own hi.pages hcur hrun h
      refine ⟨hrun, st, phy, hst, ?_, ?_⟩
      · exact (congrFun hholds _).trans hf
      · show Function.update t.st.mem.pde (some p) (copyDir t.st.mem cur phy) (some p) 1023 = _
        rw [Function.update_self, copyDir, Function.update_self]
    · obtain ⟨hrun', st, f, hst, hf, hpde⟩ := hi.own x hx
      refine ⟨hrun', st, f, hst, ?_, ?_⟩
      · exact (congrFun hholds _).trans hf
      · have hmem : x.1 ∈ t.created := List.mem_map_of_mem hx
        have hne : some x.1 ≠ some p := fun heq => hp (Option.some.inj heq ▸ hmem)
        show Function.update t.st.mem.pde (some p) (copyDir t.st.mem cur phy) (some x.1) 1023 = _
        rw [Function.update_of_ne hne]
        exact hpde
  · intro j hlo hhi
    show (Function.update t.st.mem.pde (some p) (copyDir t.st.mem cur phy) none j).p = false
    rw [Function.update_of_ne (Option.some_ne_none p).symm]
    exact hi.kernel j hlo hhi

/-- The task whose user pages a step changes. -/
def edits : Event P → Option P
  | .createPageDir _ _ => none
  | .call c => poolOfCall c

/-- A step keeps the invariant, and it leaves the user pages of all other tasks alone. -/
theorem dir_step {e : Event P} (hi : DirInv G stuck t)
    (h : (machine P).step t e = some (.ok t')) :
    DirInv G stuck t' ∧ (∀ q, q.1 ≠ none → q.1 ≠ edits e →
      holds (view t'.created G t'.st.mem) (.page q) =
        holds (view t.created G t.st.mem) (.page q)) ∧ ∀ d, Active t.created d → Active t'.created d := by
  cases e with
  | createPageDir cur p =>
    simp only [machine] at h
    split at h
    · next hc =>
      obtain ⟨hcur, hp⟩ := hc
      obtain ⟨⟨m', r⟩, hcreate, h⟩ := bind_eq_ok.mp (Option.some.inj h)
      unfold createPageDir at hcreate
      obtain ⟨⟨m₁, v⟩, hmalloc, hcreate⟩ := bind_eq_ok.mp hcreate
      -- the page first, as any call of `malloc_page`
      have hcall : pageStep t.st (.mallocPage cur .kernel 1) = some (do
          match v with
          | none => .ok { t.st with mem := m₁ }
          | some v => .ok ⟨m₁, ⟨none, v, 1⟩ :: t.st.runs⟩) := by
        simp only [pageStep]
        rw [hmalloc]
        rfl
      have hpage : ∀ st', pageStep t.st (.mallocPage cur .kernel 1) = some (.ok st') →
          DirInv G stuck { t with st := st' } ∧ ∀ q, q.1 ≠ none →
            holds (view t.created G st'.mem) (.page q) =
              holds (view t.created G t.st.mem) (.page q) := by
        intro st' hst'
        obtain ⟨hi', hkeeps⟩ := dirInv_call hi (c := .mallocPage cur .kernel 1) hcur
          (fun r hr => by cases hr) hst'
        obtain ⟨S, hk, hS, -⟩ := hkeeps.pages
        exact ⟨hi', fun q hq => hk.pages q fun hSq => hq (hS q hSq)⟩
      cases v with
      | none =>
        cases hcreate
        cases h
        obtain ⟨hi', hk⟩ := hpage _ hcall
        exact ⟨hi', fun q hq _ => hk q hq, fun d hd => hd⟩
      | some v =>
        obtain ⟨phy, hv2p, hcreate⟩ := bind_eq_ok.mp hcreate
        cases hcreate
        cases h
        obtain ⟨hi', hk⟩ := hpage _ hcall
        obtain ⟨hi'', hholds⟩ := dirInv_dir hi' hcur hp List.mem_cons_self hv2p
        refine ⟨hi'', fun q hq _ => ?_, fun d hd q hq => List.mem_cons_of_mem _ (hd q hq)⟩
        exact (congrFun hholds _).trans (hk q hq)
    · cases h
  | call c =>
    simp only [machine] at h
    split at h
    · next hc =>
      obtain ⟨st', hst', rfl⟩ := Machine.ok_of_map h
      obtain ⟨hi', hkeeps⟩ := dirInv_call hi hc.1 hc.2 hst'
      obtain ⟨S, hk, hS, -⟩ := hkeeps.pages
      exact ⟨hi', fun q _ hne => hk.pages q fun hSq => hne (hS q hSq), fun d hd => hd⟩
    · cases h

/-! ## The start -/

/-- What the memory of the kernel's page tables happens to hold where `setup_page` has not written. -/
def garbage (m : Mem P) (t i : ℕ) : Bool :=
  (m.pt t i).p && decide (0x101000 ≤ t ∧ t < 0x200000 ∧ ¬(t = 0x101000 ∧ i < 256))

theorem Boot.view (h : Boot m) : Start (view [] (garbage m) m) := by
  obtain ⟨pt, hpde, hpt⟩ := h.loader
  have hkernel : ∀ d j, 768 ≤ j → j < 1023 →
      (PageDir.view [] (garbage m) m).pde d j = ⟨0x101000 + 0x1000 * (j - 768), true⟩ := by
    intro d j hlo hhi
    cases d with
    | none =>
      rw [view_pde active_none, hpde]
      exact setupPage_kernel pt hlo hhi
    | some p =>
      have hnot : ¬Active [] (some p) := fun hact => List.not_mem_nil (hact p rfl)
      rw [view_pde_of_not hnot]
      exact if_pos hlo
  refine ⟨?_, h.process, h.thread, hkernel, ?_, fun i hi => ?_, fun p j hj => ?_⟩
  · obtain ⟨m₀, allMem, hm⟩ := h.pools
    refine ⟨PageDir.view [] (garbage m) m₀, allMem, ?_⟩
    rw [show PageDir.view [] (garbage m) m = PageDir.view [] (garbage m) (memPoolInit m₀ allMem) by
      rw [← hm]]
    rfl
  · have hlow : garbage m 0x101000 0 = false := by
      unfold garbage
      simp
    have hpte : m.pt 0x101000 0 = ⟨0, true⟩ := by
      rw [hpt, setupPage_pt, if_pos ⟨rfl, by decide⟩]
    show (if garbage m 0x101000 0 = true then (⟨0, false⟩ : Entry) else m.pt 0x101000 0).p = true
    rw [hlow, if_neg Bool.false_ne_true, hpte]
  · have hlt : i < 2 ^ 15 := by
      obtain ⟨m₀, allMem, hm⟩ := h.pools
      have hlim : limit m none ≤ 2 ^ 15 := by
        rw [hm]
        simp only [limit, memPoolInit, bitmapInit]
        omega
      exact Nat.lt_of_lt_of_le hi hlim
    have hdir : (PageDir.view [] (garbage m) m).pde none
        (pdeIdx (vaddrOf ((none : Option P), i))) =
        ⟨0x101000 + 0x1000 * ((256 + i) / 1024), true⟩ := by
      rw [pdeIdx_kernel hlt, hkernel _ _ (Nat.le_add_right _ _) (by omega), Nat.add_sub_cancel_left]
    have hpte : ((PageDir.view [] (garbage m) m).pt (0x101000 + 0x1000 * ((256 + i) / 1024))
        ((256 + i) % 1024)).p = false := by
      simp only [PageDir.view]
      split
      · rfl
      · next hG =>
        have hin : 0x101000 ≤ 0x101000 + 0x1000 * ((256 + i) / 1024) ∧
            0x101000 + 0x1000 * ((256 + i) / 1024) < 0x200000 ∧
            ¬(0x101000 + 0x1000 * ((256 + i) / 1024) = 0x101000 ∧ (256 + i) % 1024 < 256) := by
          omega
        unfold garbage at hG
        rw [decide_eq_true hin, Bool.and_true, Bool.not_eq_true] at hG
        exact hG
    unfold present
    rw [Mem.pte, hasTable, hdir, pteIdx_kernel, hpte, Bool.and_false]
  · have hnot : ¬Active [] (some p) := fun hact => List.not_mem_nil (hact p rfl)
    rw [view_pde_of_not hnot, freshDir, if_neg (Nat.not_le.mpr hj)]

theorem Boot.dirInv (h : Boot m) :
    DirInv (garbage m) (stuckAt (PageDir.view [] (garbage m) m)) ⟨⟨m, []⟩, []⟩ := by
  refine ⟨⟨h.view.settled, nofun, List.Pairwise.nil⟩, ⟨fun t i hG => ?_, fun t i hG => ?_, ?_⟩,
    fun x hx => ?_, fun j hlo hhi => ?_⟩
  · rw [garbage, Bool.and_eq_true, decide_eq_true_eq] at hG
    exact ⟨hG.2.1, hG.2.2.1⟩
  · rw [garbage, Bool.and_eq_true] at hG
    exact hG.1
  · obtain ⟨m₀, allMem, rfl⟩ := h.pools
    rfl
  · cases hx
  · obtain ⟨pt, hpde, -⟩ := h.loader
    show (m.pde none j).p = false
    rw [hpde]
    exact setupPage_user pt hlo hhi

/-! ## Main result -/

/-- The address is one of a user page. -/
def UserAddr (v : ℕ) : Prop := userVaddrStart ≤ v ∧ v < 0xc0000000

instance (v : ℕ) : Decidable (UserAddr v) := inferInstanceAs (Decidable (_ ∧ _))

/-- Neither the kernel nor a process that has a directory has a page of another one. -/
structure Shared (s : State P) : Prop where
  kernelPde : ∀ p ∈ s.created, ∀ j, 768 ≤ j → j ≤ 1022 →
    s.st.mem.pde (some p) j = s.st.mem.pde none j
  /-- The last entry names the frame of the page that the directory is in. -/
  own : ∀ p ∈ s.created, ∃ v f, (p, v) ∈ s.dirs ∧ walk s.st.mem none v = some f ∧
    s.st.mem.pde (some p) 1023 = ⟨f, true⟩
  same : ∀ d d', Active s.created d → Active s.created d' → ∀ v, 0xc0000000 ≤ v → v < 0xffc00000 →
    walk s.st.mem d v = walk s.st.mem d' v
  apart : ∀ d d', Active s.created d → Active s.created d' → d ≠ d' → ∀ v v' f, UserAddr v →
    UserAddr v' → walk s.st.mem d v = some f → walk s.st.mem d' v' ≠ some f

/-- The kernel's directory has no user pages. -/
theorem walk_none {v : ℕ} (hi : DirInv G stuck t) (hv : UserAddr v) : walk t.st.mem none v = none := by
  obtain ⟨hlo, hhi⟩ := hv
  have hj : 1 ≤ pdeIdx v ∧ pdeIdx v < 768 := by
    simp only [pdeIdx, userVaddrStart] at hlo ⊢
    omega
  have hp := hi.kernel _ hj.1 hj.2
  unfold walk
  rw [if_neg]
  rintro ⟨hpres, -⟩
  rw [hp] at hpres
  cases hpres

/-- The user pages of a process are those it holds in the view. -/
theorem walk_user {v : ℕ} (hi : DirInv G stuck t) (hp : p ∈ t.created) (hv : UserAddr v) :
    walk t.st.mem (some p) v =
      holds (view t.created G t.st.mem) (.page (some p, (v - userVaddrStart) / pgSize)) := by
  set i := (v - userVaddrStart) / pgSize with hidx
  have hg : Geo (view t.created G t.st.mem) := hi.pages.settled.geo
  have hact : Active t.created (some p) := by
    intro q hq
    cases hq
    exact hp
  obtain ⟨hlo, hhi⟩ := hv
  have hlt : i < 753592 := by
    rw [hidx]
    simp only [pgSize, userVaddrStart] at hlo ⊢
    omega
  have hlim : (some p, i).2 < limit (view t.created G t.st.mem) (some p, i).1 := by
    simp only [limit, hg.userPages p]
    omega
  have hpage : v / pgSize = vaddrOf (some p, i) / pgSize := by
    simp only [hidx, vaddrOf, poolStart, pgSize, userVaddrStart] at hlo ⊢
    omega
  rw [(Tlb.walk_congr hpage).1, ← Tlb.walk_eq_holds hg (Or.inr rfl) hlim]
  unfold walk
  rw [view_pde hact]
  by_cases htab : (t.st.mem.pde (some p) (pdeIdx (vaddrOf (some p, i)))).p = true
  · have hG : G (t.st.mem.pde (some p) (pdeIdx (vaddrOf (some p, i)))).base
        (pteIdx (vaddrOf (some p, i))) ≠ true := by
      intro hG
      have htab' : hasTable (view t.created G t.st.mem) (some p, i) = true := by
        unfold hasTable
        rw [view_pde hact]
        exact htab
      have hle : 0x200000 ≤ ((view t.created G t.st.mem).pde (some p)
          (pdeIdx (vaddrOf (some p, i)))).base :=
        le_of_inPool_kernel hg (hi.pages.settled.kind _ _ (holds_table hlt htab'))
      rw [view_pde hact] at hle
      have := (hi.stale.low _ _ hG).2
      omega
    rw [view_pte hact hG]
  · rw [if_neg fun hc => htab hc.1, if_neg fun hc => htab hc.1]

theorem DirInv.shared (hi : DirInv G stuck t) : Shared t := by
  have hg : Geo (PageDir.view t.created G t.st.mem) := hi.pages.settled.geo
  have hkernel : ∀ d, Active t.created d → ∀ j, 768 ≤ j → j < 1023 →
      t.st.mem.pde d j = ⟨0x101000 + 0x1000 * (j - 768), true⟩ := by
    intro d hd j hlo hhi
    rw [← view_pde (G := G) hd]
    exact hg.kernelPde d j hlo hhi
  have hact : ∀ p ∈ t.created, Active t.created (some p) := by
    intro p hp q hq
    cases hq
    exact hp
  refine ⟨fun p hp j hlo hhi => ?_, fun p hp => ?_, fun d d' hd hd' v hlo hhi => ?_,
    fun d d' hd hd' hne v v' f hv hv' hf hf' => ?_⟩
  · rw [hkernel _ (hact p hp) j hlo (by omega), hkernel _ active_none j hlo (by omega)]
  · obtain ⟨x, hx, rfl⟩ := List.mem_map.mp hp
    obtain ⟨hrun, st, f, hst, hf, hpde⟩ := hi.own x hx
    refine ⟨x.2, f, hx, ?_, hpde⟩
    have hv := (holds_page (hf ▸ Option.some_ne_none f)).1
    have hG : G (t.st.mem.pde none (pdeIdx x.2)).base (pteIdx x.2) ≠ true := by
      simpa using run_not_mem active_none hi.pages hrun (Or.inl rfl) Nat.zero_lt_one
    rw [← hf, ← Tlb.walk_eq_holds hg (Or.inl rfl) hv, ← hst]
    unfold walk
    rw [view_pde active_none, view_pte active_none hG]
  · have hj : 768 ≤ pdeIdx v ∧ pdeIdx v < 1023 := by
      unfold pdeIdx
      omega
    have hpde : t.st.mem.pde d (pdeIdx v) = t.st.mem.pde d' (pdeIdx v) := by
      rw [hkernel d hd _ hj.1 hj.2, hkernel d' hd' _ hj.1 hj.2]
    unfold walk Mem.pte
    rw [hpde]
  · cases d with
    | none =>
      rw [walk_none hi hv] at hf
      cases hf
    | some p =>
      cases d' with
      | none =>
        rw [walk_none hi hv'] at hf'
        cases hf'
      | some p' =>
        rw [walk_user hi (hd p rfl) hv] at hf
        rw [walk_user hi (hd' p' rfl) hv'] at hf'
        have heq := Owner.page.inj (hi.pages.settled.owns.inj hf hf')
        exact hne (congrArg Prod.fst heq)

/-- **The directories.**  In every state that is reached the directories share their upper quarter,
and no user page of a process is present in another directory.  A step leaves the user pages of all
directories alone but those of the process that makes the call. -/
theorem directories (hm : Boot m) {es : List (Event P)}
    (hr : (machine P).run ⟨⟨m, []⟩, []⟩ es = some (.ok t)) :
    Shared t ∧ ∀ e t', (machine P).step t e = some (.ok t') →
      ∀ d, Active t.created d → d ≠ edits e → ∀ v, UserAddr v →
        walk t'.st.mem d v = walk t.st.mem d v := by
  have hi : DirInv (garbage m) (stuckAt (view [] (garbage m) m)) t :=
    Machine.run_ok (I := DirInv (garbage m) (stuckAt (view [] (garbage m) m)))
      (fun _ _ _ hi hs => (dir_step hi hs).1) hm.dirInv hr
  refine ⟨hi.shared, fun e t' hs d hd hne v hv => ?_⟩
  obtain ⟨hi', hholds, hact⟩ := dir_step hi hs
  cases d with
  | none => rw [walk_none hi' hv, walk_none hi hv]
  | some p =>
    rw [walk_user hi' (hact _ hd p rfl) hv, walk_user hi (hd p rfl) hv]
    exact hholds _ (Option.some_ne_none p) hne

/-- A machine that has just booted, with two processes to come. -/
def loaderMem : Mem Bool :=
  let tables := setupPage fun _ _ => ⟨0, false⟩
  memPoolInit
    { kernelPool := ⟨⟨0, fun _ => 0#8⟩, 0, 0⟩
      userPool := ⟨⟨0, fun _ => 0#8⟩, 0, 0⟩
      kernelVaddr := ⟨⟨0, fun _ => 0#8⟩, 0⟩
      userprogVaddr := fun
        | none => ⟨⟨0, fun _ => 0#8⟩, 0⟩
        | some _ => createUserVaddrBitmap fun _ => 0#8
      pde := fun
        | none => tables.1
        | some _ => fun _ => ⟨0x5a5a5000, true⟩
      pt := tables.2 }
    0x240000

theorem loaderMem_boot : Boot loaderMem where
  pools := ⟨_, 0x240000, rfl⟩
  process _ := ⟨fun _ => 0#8, rfl⟩
  thread := rfl
  loader := ⟨fun _ _ => ⟨0, false⟩, rfl, rfl⟩

/-- The second process is created while the first one runs. -/
def twoProcesses : List (Event Bool) :=
  [.createPageDir none true, .call (.mallocPage (some true) .user 1),
    .createPageDir (some true) false, .call (.mallocPage (some false) .user 1),
    .call (.mallocPage (some false) .kernel 1)]

theorem directories_two :
    ∃ t, (machine Bool).run ⟨⟨loaderMem, []⟩, []⟩ twoProcesses = some (.ok t) ∧
      ((walk t.st.mem (some true) 0x8048000).isSome && (walk t.st.mem (some false) 0x8048000).isSome
        && (walk t.st.mem none 0xc0102000).isSome) = true ∧ Shared t := by
  obtain ⟨t, hrun, hmapped⟩ : ∃ t,
      (machine Bool).run ⟨⟨loaderMem, []⟩, []⟩ twoProcesses = some (.ok t) ∧
        ((walk t.st.mem (some true) 0x8048000).isSome && (walk t.st.mem (some false) 0x8048000).isSome
          && (walk t.st.mem none 0xc0102000).isSome) = true :=
    (machine Bool).run_of_test (p := fun t => (walk t.st.mem (some true) 0x8048000).isSome
      && (walk t.st.mem (some false) 0x8048000).isSome
      && (walk t.st.mem none 0xc0102000).isSome) (by decide +kernel)
  exact ⟨t, hrun, hmapped, (directories loaderMem_boot hrun).1⟩

end HcOs.PageDir
