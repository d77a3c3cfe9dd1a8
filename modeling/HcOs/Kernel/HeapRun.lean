import HcOs.Kernel.HeapOps
import HcOs.Lib.Machine

/-!
# The heap over whole runs

A task calls `sys_malloc` and `sys_free` in any order, with any sizes, and writes to the blocks it
has.  For any page layer that meets the contract, `blocks_disjoint` says what its blocks are worth
and `freeListsOk_of_inv` what the free lists hold between two calls.
-/

namespace HcOs.Heap

open HcOs.Lib HcOs.Page

variable {descs low : ℕ} {mem mem' : Words}

/-! ## Setting up the descriptors -/

/-- The descriptor number `i` is set up, with an empty free list. -/
def DescReady (descs : ℕ) (mem : Words) (i : ℕ) : Prop :=
  mem (descs + i * descSize) = blockSize i ∧ mem (descs + i * descSize + 4) = blocksPerArena i ∧
    elems.IsList (Node descs) mem (freeList (descs + i * descSize)) []

theorem blockSize_double {i : ℕ} (h : i < 7) : blockSize i * 2 % 2 ^ 16 = blockSize (i + 1) := by
  revert i
  decide

/-- One descriptor is set up; the others keep their words. -/
theorem blockDesc_step (descs : ℕ) (mem : Words) {idx : ℕ} (hidx : idx < 7) :
    ∃ mem', listInit elems (Function.update (Function.update mem (descs + idx * descSize)
        (blockSize idx)) (descs + idx * descSize + 4) ((pgSize - arenaSize) / blockSize idx))
        (freeList (descs + idx * descSize)) = .ok mem' ∧
      DescReady descs mem' idx ∧
      ∀ w, ¬(descs + idx * descSize ≤ w ∧ w < descs + idx * descSize + 24) → mem' w = mem w := by
  set desc := descs + idx * descSize with hd
  set mem₁ := Function.update (Function.update mem desc (blockSize idx)) (desc + 4)
    ((pgSize - arenaSize) / blockSize idx) with hmem₁
  have hhead : Node descs (freeList desc).head :=
    ⟨Nat.succ_ne_zero _, Or.inl ⟨idx, hidx, Or.inl rfl⟩⟩
  have htail : Node descs (freeList desc).tail :=
    ⟨Nat.succ_ne_zero _, Or.inl ⟨idx, hidx, Or.inr rfl⟩⟩
  obtain ⟨mem', hinit, hl, hed⟩ := LinkHeap.isList_init (elems_lawful descs) (h := mem₁) hhead htail
    (by simp [freeList])
  have hout : ∀ w, ¬(desc + 8 ≤ w ∧ w < desc + 24) → mem' w = mem₁ w := by
    intro w hw
    refine edits_word hed ?_
    rintro n (rfl | rfl) <;> simp only [freeList] <;> omega
  refine ⟨mem', liftFault_ok hinit, ⟨?_, ?_, hl⟩, fun w hw => ?_⟩
  · rw [hout _ (by omega), hmem₁, Function.update_of_ne (by omega), Function.update_self]
  · rw [hout _ (by omega), hmem₁, Function.update_self]
    rfl
  · rw [hout _ (by omega), hmem₁, Function.update_of_ne (by omega), Function.update_of_ne (by omega)]

theorem DescReady.congr {i : ℕ} (h : DescReady descs mem i)
    (hw : ∀ w, descs + i * descSize ≤ w → w < descs + i * descSize + 24 → mem' w = mem w) :
    DescReady descs mem' i := by
  obtain ⟨h1, h2, hl⟩ := h
  refine ⟨?_, ?_, hl.congr (fun n hn => ?_) fun n hn => ?_⟩
  · rw [hw _ (by omega) (by omega), h1]
  · rw [hw _ (by omega) (by omega), h2]
  · simp only [LinkHeap.mem_nodes, List.not_mem_nil, false_or, freeList] at hn
    exact hw _ (by omega) (by omega)
  · simp only [LinkHeap.mem_nodes, List.not_mem_nil, false_or, freeList] at hn
    exact hw _ (by omega) (by omega)

theorem blockDescLoop_spec {left idx : ℕ} (hend : idx + left = 7)
    (hold : ∀ i, i < idx → DescReady descs mem i) :
    ∃ mem', blockDescLoop descs left idx (blockSize idx) mem = .ok mem' ∧
      ∀ i, i < 7 → DescReady descs mem' i := by
  induction left generalizing idx mem with
  | zero => exact ⟨mem, rfl, fun i hi => hold i (by omega)⟩
  | succ left ih =>
    have hidx : idx < 7 := by omega
    obtain ⟨mem₁, hinit, hready, hrest⟩ := blockDesc_step descs mem hidx
    have hold₁ : ∀ i, i < idx + 1 → DescReady descs mem₁ i := by
      intro i hi
      by_cases hii : i = idx
      · rw [hii]
        exact hready
      · refine (hold i (by omega)).congr fun w h1 h2 => hrest w ?_
        simp only [descSize] at h1 h2 ⊢
        omega
    obtain ⟨mem', hloop, hall⟩ := ih (by omega) hold₁
    refine ⟨mem', ?_, hall⟩
    rw [blockDescLoop, hinit, ok_bind, blockSize_double (by omega)]
    exact hloop

/-- `block_desc_init` sets up the seven descriptors. -/
theorem blockDescInit_spec (mem : Words) (descs : ℕ) :
    ∃ mem', blockDescInit mem descs = .ok mem' ∧ ∀ kind,
      Stored descs mem' (fun _ => False) kind fun _ => [] := by
  have hend : 0 + 7 = 7 := rfl
  have hnone : ∀ i, i < 0 → DescReady descs mem i := fun i hi => absurd hi (Nat.not_lt_zero i)
  obtain ⟨mem', hloop, hall⟩ := blockDescLoop_spec hend hnone
  refine ⟨mem', hloop, fun kind => ⟨fun i => ?_, ⟨fun i => (hall i i.isLt).2.2, ?_⟩,
    fun _ h => h.elim⟩⟩
  · exact ⟨(hall i i.isLt).1, (hall i i.isLt).2.1⟩
  · intro i j hij n hn hn'
    have hne : (i : ℕ) ≠ j := fun h => hij (Fin.ext h)
    simp only [LinkHeap.mem_nodes, List.not_mem_nil, false_or, freeListOf, freeList,
      descSize] at hn hn'
    omega

/-! ## The machine -/

inductive HeapCall where
  | malloc (size : ℕ)
  | free (ptr : ℕ)
  /-- The task writes a word of one of its blocks. -/
  | write (addr val : ℕ)

/-- A task, and the blocks it has. -/
structure HeapSt (K : Type) where
  task : Task K
  live : List Block

variable {K : Type}

def heapStep (L : PageLayer K) (descs : ℕ) (isThread : Bool) (s : HeapSt K) :
    HeapCall → Option (Except Halt (HeapSt K))
  | .malloc size => some (do
      let (t, ptr) ← sysMalloc L descs s.task size
      match ptr with
      | none => .ok { s with task := t }
      | some p => .ok ⟨t, ⟨p, size⟩ :: s.live⟩)
  | .free ptr =>
    match s.live.find? fun b => b.ptr = ptr with
    | none => none
    | some b => some (do
        let t ← sysFree L isThread s.task ptr
        .ok ⟨t, s.live.erase b⟩)
  | .write addr val =>
    if addr % 4 = 0 ∧ ∃ b ∈ s.live, b.ptr ≤ addr ∧ addr < b.ptr + b.size then
      some (.ok { s with
        task := { s.task with mem := Function.update s.task.mem addr (val % 2 ^ 32) } })
    else none

def heapMachine (L : PageLayer K) (descs : ℕ) (isThread : Bool) :
    Machine (HeapSt K) HeapCall Halt where
  step := heapStep L descs isThread

/-! ## What a call keeps -/

section

variable {L : PageLayer K} {I : K → Prop} {isThread : Bool} {s s' : HeapSt K}

/-- What a call does to the pages: nothing, or one call of `malloc_page` or `mfree_page`. -/
inductive PageStep (L : PageLayer K) (k : K) : K → Prop
  | same : PageStep L k k
  | null {n : ℕ} {k' : K} (h : L.mallocPage k n = .ok (k', none)) : PageStep L k k'
  | malloc {n a : ℕ} {k' : K} (hn : 1 ≤ n) (h : L.mallocPage k n = .ok (k', some a)) : PageStep L k k'
  | mfree {r : ℕ × ℕ} {k' : K} (hr : L.runs k r) (h : L.mfreePage k r.1 r.2 = .ok k') :
    PageStep L k k'

/-- The page layer itself fails. -/
inductive PageHalt (L : PageLayer K) (k : K) (x : Halt) : Prop
  | malloc {n : ℕ} (h : L.mallocPage k n = .error x) : PageHalt L k x
  | mfree {r : ℕ × ℕ} (hr : L.runs k r) (h : L.mfreePage k r.1 r.2 = .error x) : PageHalt L k x

theorem malloc_step (hC : Contract L descs low I) (h : HeapInv L descs low I s.task s.live)
    (size : ℕ) :
    (∃ x, heapStep L descs isThread s (.malloc size) = some (.error x) ∧
      PageHalt L s.task.pages x) ∨
    ∃ s', heapStep L descs isThread s (.malloc size) = some (.ok s') ∧
      HeapInv L descs low I s'.task s'.live ∧ PageStep L s.task.pages s'.task.pages ∧
      (s'.live = s.live ∨ ∃ p, s'.live = ⟨p, size⟩ :: s.live ∧
        ∀ w, p ≤ w → w < p + owned s'.task.mem p → s'.task.mem w = 0) := by
  have hspec := sysMalloc_spec hC h size
  simp only [heapStep]
  cases hm : sysMalloc L descs s.task size with
  | error x =>
    rw [hm] at hspec
    cases hspec with
    | halt hx => exact Or.inl ⟨x, rfl, .malloc hx⟩
  | ok res =>
    obtain ⟨t, ptr⟩ := res
    rw [hm] at hspec
    refine Or.inr ?_
    cases hspec with
    | null hinv hp =>
      refine ⟨{ s with task := t }, rfl, hinv, ?_, Or.inl rfl⟩
      rcases hp with hp | ⟨n, hp⟩
      · rw [hp]
        exact .same
      · exact .null hp
    | @block _ p hinv hzero hp =>
      refine ⟨⟨t, ⟨p, size⟩ :: s.live⟩, rfl, hinv, ?_, Or.inr ⟨p, rfl, hzero⟩⟩
      rcases hp with hp | ⟨n, a, hn, hp⟩
      · rw [hp]
        exact .same
      · exact .malloc hn hp

theorem free_step (hC : Contract L descs low I) (hlow : isThread = true → kHeapStart ≤ low)
    (h : HeapInv L descs low I s.task s.live) {b : Block} (hb : b ∈ s.live)
    (hf : (s.live.find? fun b' => b'.ptr = b.ptr) = some b) :
    (∃ x, heapStep L descs isThread s (.free b.ptr) = some (.error x) ∧
      PageHalt L s.task.pages x) ∨
    ∃ s', heapStep L descs isThread s (.free b.ptr) = some (.ok s') ∧
      HeapInv L descs low I s'.task s'.live ∧ PageStep L s.task.pages s'.task.pages ∧
      s'.live = s.live.erase b := by
  have hspec := sysFree_spec hC h hlow hb
  simp only [heapStep, hf]
  cases hm : sysFree L isThread s.task b.ptr with
  | error x =>
    rw [hm] at hspec
    cases hspec with
    | halt hr hx => exact Or.inl ⟨x, rfl, .mfree hr hx⟩
  | ok t =>
    rw [hm] at hspec
    refine Or.inr ⟨⟨t, s.live.erase b⟩, rfl, ?_⟩
    cases hspec with
    | keep hinv hp =>
      refine ⟨hinv, ?_, rfl⟩
      simp only
      rw [hp]
      exact .same
    | release hinv hr hp => exact ⟨hinv, .mfree hr hp, rfl⟩

/-- A write to a live block changes nothing that is stored outside the blocks. -/
theorem write_inv (h : HeapInv L descs low I s.task s.live) {b : Block} {addr : ℕ} (hb : b ∈ s.live)
    (hlo : b.ptr ≤ addr) (hhi : addr < b.ptr + b.size) (val : ℕ) :
    HeapInv L descs low I { s.task with mem := Function.update s.task.mem addr val } s.live := by
  obtain ⟨kind, free, hshape, hst, hocc⟩ := h.heap
  obtain ⟨r, hr, hin⟩ := hshape.live_mem b hb
  have hspan := (hshape.inArena_range hr hin).2.2
  refine ⟨h.pages, h.low, kind, free, hshape, hst.congr (fun w h1 h2 => ?_) (fun r' hr' w h1 h2 => ?_)
    fun i e he => ?_, hocc⟩
  · refine Function.update_of_ne ?_ _ _
    rcases hshape.live_descs hr hin with h3 | h3 <;> omega
  · refine Function.update_of_ne ?_ _ _
    rcases hshape.live_header hr hr' hin with h3 | h3 <;> omega
  · have hpos := blockSize_pos i
    refine ⟨Function.update_of_ne ?_ _ _, Function.update_of_ne ?_ _ _⟩ <;>
      rcases hshape.live_free hb hr hin he with h3 | h3 <;> omega

/-- A write outside the descriptors and the arenas is nothing to the heap. -/
theorem write_outside {t : Task K} {live : List Block} {addr : ℕ} (h : HeapInv L descs low I t live)
    (hw : Outside descs (L.runs t.pages) addr) (val : ℕ) :
    HeapInv L descs low I { t with mem := Function.update t.mem addr val } live := by
  obtain ⟨kind, free, hshape, hst, hocc⟩ := h.heap
  refine ⟨h.pages, h.low, kind, free, hshape, hst.congr (fun w h1 h2 => ?_) (fun r hr w h1 h2 => ?_)
    fun i e he => ?_, hocc⟩
  · refine Function.update_of_ne ?_ _ _
    have hdesc := hw.1
    omega
  · refine Function.update_of_ne ?_ _ _
    have hone := (hshape.layout.run r hr).2.2.1
    have hrun := hw.2 r hr
    omega
  · have hnode := hshape.outside_ne_node hw.1 hw.2 (LinkHeap.mem_nodes.mpr (Or.inr (Or.inl he)))
    exact ⟨Function.update_of_ne hnode.1.symm _ _, Function.update_of_ne hnode.2.symm _ _⟩

/-- Every call keeps the invariant, or the page layer fails. -/
theorem heap_step (hC : Contract L descs low I) (hlow : isThread = true → kHeapStart ≤ low)
    (h : HeapInv L descs low I s.task s.live) {c : HeapCall} {r : Except Halt (HeapSt K)}
    (hs : heapStep L descs isThread s c = some r) :
    (∃ x, r = .error x ∧ PageHalt L s.task.pages x) ∨
      ∃ s', r = .ok s' ∧ HeapInv L descs low I s'.task s'.live ∧
        PageStep L s.task.pages s'.task.pages := by
  cases c with
  | malloc size =>
    rcases malloc_step hC h size with
      ⟨x, herr, hx⟩ | ⟨s', hok, hinv, hp, -⟩
    · rw [herr, Option.some.injEq] at hs
      exact Or.inl ⟨x, hs.symm, hx⟩
    · rw [hok, Option.some.injEq] at hs
      exact Or.inr ⟨s', hs.symm, hinv, hp⟩
  | free ptr =>
    cases hf : s.live.find? fun b => b.ptr = ptr with
    | none =>
      simp only [heapStep, hf] at hs
      cases hs
    | some b =>
      have hb := List.mem_of_find?_eq_some hf
      have hptr : b.ptr = ptr := by simpa using List.find?_some hf
      subst hptr
      rcases free_step hC hlow h hb hf with ⟨x, herr, hx⟩ | ⟨s', hok, hinv, hp, -⟩
      · rw [herr, Option.some.injEq] at hs
        exact Or.inl ⟨x, hs.symm, hx⟩
      · rw [hok, Option.some.injEq] at hs
        exact Or.inr ⟨s', hs.symm, hinv, hp⟩
  | write addr val =>
    simp only [heapStep] at hs
    split at hs
    · next hc =>
      obtain ⟨-, b, hb, hlo, hhi⟩ := hc
      cases hs
      exact Or.inr ⟨_, rfl, write_inv h hb hlo hhi _, .same⟩
    · cases hs

/-- The heap of a task after `block_desc_init`. -/
theorem heapInv_start {k : K} {mem₀ : Words} (hmem : blockDescInit mem descs = .ok mem₀) (hI : I k)
    (hruns : ∀ r, ¬L.runs k r) : HeapInv L descs low I ⟨mem₀, k⟩ [] := by
  obtain ⟨mem', hinit, hst⟩ := blockDescInit_spec mem descs
  rw [hmem] at hinit
  cases hinit
  have hnone : L.runs k = fun _ => False := funext fun r => eq_false (hruns r)
  refine ⟨hI, fun r hr => absurd hr (hruns r), fun _ => none, fun _ => [], ?_, ?_,
    fun r hr => absurd hr (hruns r)⟩
  · refine ⟨⟨fun r hr => absurd hr (hruns r), fun r _ hr => absurd hr (hruns r)⟩,
      fun r _ hr => absurd hr (hruns r), fun i e => ?_, nofun, List.nodup_nil⟩
    simp only [List.not_mem_nil, false_iff]
    rintro ⟨r, -, hr, -⟩
    exact hruns r hr
  · rw [hnone]
    exact hst _

theorem heap_run (hC : Contract L descs low I) (hlow : isThread = true → kHeapStart ≤ low)
    (h : HeapInv L descs low I s.task s.live) {es : List HeapCall}
    (hr : (heapMachine L descs isThread).run s es = some (.ok s')) :
    HeapInv L descs low I s'.task s'.live := by
  refine Machine.run_ok (I := fun s => HeapInv L descs low I s.task s.live)
    (fun s c s' hi hs => ?_) h hr
  rcases heap_step hC hlow hi hs with ⟨x, hx, -⟩ | ⟨s₁, hs₁, hinv, -⟩
  · cases hx
  · cases hs₁
    exact hinv

/-! ## Arenas and live blocks -/

theorem arena_of_live (h : HeapInv L descs low I s.task s.live) {b : Block} (hb : b ∈ s.live) :
    ∃ r, L.runs s.task.pages r ∧ block2arena b.ptr = r.1 := by
  obtain ⟨kind, free, hshape, -, -⟩ := h.heap
  obtain ⟨r, hr, hin⟩ := hshape.live_mem b hb
  exact ⟨r, hr, hshape.block2arena_live hr hin⟩

theorem live_of_arena (h : HeapInv L descs low I s.task s.live) {r : ℕ × ℕ}
    (hr : L.runs s.task.pages r) : ∃ b ∈ s.live, block2arena b.ptr = r.1 := by
  obtain ⟨kind, free, hshape, -, hocc⟩ := h.heap
  obtain ⟨b, hb, hin⟩ := hocc r hr
  exact ⟨b, hb, hshape.block2arena_live hr hin⟩

theorem arena_eq (h : HeapInv L descs low I s.task s.live) {r r' : ℕ × ℕ}
    (hr : L.runs s.task.pages r) (hr' : L.runs s.task.pages r') (hbase : r.1 = r'.1) : r = r' := by
  obtain ⟨kind, free, hshape, -, -⟩ := h.heap
  exact hshape.layout.eq_of_base hr hr' hbase

/-- A call gives out runs or takes them back, not both. -/
theorem PageStep.runs_mono {k k' : K} (hC : Contract L descs low I) (hI : I k)
    (h : PageStep L k k') :
    (∀ r, L.runs k r → L.runs k' r) ∨ ∀ r, L.runs k' r → L.runs k r := by
  cases h with
  | same => exact Or.inl fun _ h => h
  | null hm => exact Or.inl fun r => ((hC.null _ _ _ hI hm).2 r).mpr
  | malloc hn hm =>
    obtain ⟨-, -, -, -, -, -, -, hruns⟩ := hC.malloc _ _ _ _ hI hn hm
    exact Or.inl fun r hr => (hruns r).mpr (Or.inr hr)
  | mfree hr hm => exact Or.inr fun r hr' => (((hC.mfree _ _ _ hI hr hm).2 r).mp hr').1

/-- The arena of a block that stays live stays. -/
theorem arena_kept (hC : Contract L descs low I) (h : HeapInv L descs low I s.task s.live)
    (h' : HeapInv L descs low I s'.task s'.live) (hp : PageStep L s.task.pages s'.task.pages)
    {b : Block} {r : ℕ × ℕ} (hb : b ∈ s'.live) (hr : L.runs s.task.pages r)
    (hbase : block2arena b.ptr = r.1) : L.runs s'.task.pages r := by
  rcases hp.runs_mono hC h.pages with hmono | hmono
  · exact hmono r hr
  · obtain ⟨r', hr', hbase'⟩ := arena_of_live h' hb
    rw [arena_eq h hr (hmono r' hr') (hbase.symm.trans hbase')]
    exact hr'

/-- A block is live until it is freed. -/
theorem live_kept {c : HeapCall} (hs : heapStep L descs isThread s c = some (.ok s')) {b : Block}
    (hb : b ∈ s.live) (hc : c ≠ .free b.ptr) : b ∈ s'.live := by
  cases c with
  | malloc size =>
    simp only [heapStep, Option.some.injEq] at hs
    obtain ⟨⟨t, ptr⟩, -, hs⟩ := bind_eq_ok.mp hs
    cases ptr with
    | none =>
      cases hs
      exact hb
    | some p =>
      cases hs
      exact List.mem_cons_of_mem _ hb
  | free ptr =>
    cases hf : s.live.find? fun b => b.ptr = ptr with
    | none =>
      simp only [heapStep, hf] at hs
      cases hs
    | some b' =>
      have hptr : b'.ptr = ptr := by simpa using List.find?_some hf
      have hne : b ≠ b' := fun h => hc (by rw [← hptr, h])
      simp only [heapStep, hf, Option.some.injEq] at hs
      obtain ⟨t, -, hs⟩ := bind_eq_ok.mp hs
      cases hs
      exact (List.mem_erase_of_ne hne).mpr hb
  | write addr val =>
    simp only [heapStep] at hs
    split at hs
    · cases hs
      exact hb
    · cases hs

/-! ## Blocks -/

/-- What the live blocks of a task are worth. -/
structure BlocksOk (L : PageLayer K) (descs : ℕ) (s : HeapSt K) : Prop where
  size : ∀ b ∈ s.live, b.size ≤ owned s.task.mem b.ptr
  apart : s.live.Pairwise fun b b' =>
    Apart b.ptr (owned s.task.mem b.ptr) b'.ptr (owned s.task.mem b'.ptr)
  header : ∀ b ∈ s.live, ∀ r, L.runs s.task.pages r →
    Apart b.ptr (owned s.task.mem b.ptr) r.1 arenaSize
  freeBlock : ∃ free : Fin 7 → List ℕ,
    (∀ i, elems.IsList (Node descs) s.task.mem (freeListOf descs i) (free i)) ∧
    ∀ b ∈ s.live, ∀ i, ∀ e ∈ free i,
      Apart b.ptr (owned s.task.mem b.ptr) e (s.task.mem (descs + i * descSize))

theorem blocksOk_of_inv (h : HeapInv L descs low I s.task s.live) : BlocksOk L descs s := by
  obtain ⟨kind, free, hshape, hst, -⟩ := h.heap
  have hown : ∀ b ∈ s.live, ∃ r, L.runs s.task.pages r ∧ InArena r (kind r.1) b ∧
      owned s.task.mem b.ptr = span r (kind r.1) := by
    intro b hb
    obtain ⟨r, hr, hin⟩ := hshape.live_mem b hb
    exact ⟨r, hr, hin, owned_eq hshape hst hr hin⟩
  refine ⟨fun b hb => ?_, ?_, fun b hb r' hr' => ?_, free, hst.lists.isList, fun b hb i e he => ?_⟩
  · obtain ⟨r, hr, hin, ho⟩ := hown b hb
    rw [ho]
    exact (hshape.inArena_range hr hin).2.2
  · refine List.Nodup.pairwise_of_forall_ne (List.Nodup.of_map _ hshape.nodup) ?_
    intro b hb b' hb' hne
    obtain ⟨r, hr, hin, ho⟩ := hown b hb
    obtain ⟨r', hr', hin', ho'⟩ := hown b' hb'
    rw [ho, ho']
    refine hshape.live_apart hr hr' hin hin' fun hptr => hne ?_
    exact List.inj_on_of_nodup_map hshape.nodup hb hb' hptr
  · obtain ⟨r, hr, hin, ho⟩ := hown b hb
    rw [ho]
    exact hshape.live_header hr hr' hin
  · obtain ⟨r, hr, hin, ho⟩ := hown b hb
    rw [ho, (hst.desc i).1]
    exact hshape.live_free hb hr hin he

/-- **Blocks of the heap.**  In every state a task reaches, each live block owns the bytes it was
asked for, it overlaps no other live block, no arena header and no free block, and the block that
the next `sys_malloc` returns is all zero. -/
theorem blocks_disjoint (hC : Contract L descs low I) (hlow : isThread = true → kHeapStart ≤ low)
    {mem₀ : Words} {k : K} (hmem : blockDescInit mem descs = .ok mem₀) (hI : I k)
    (hruns : ∀ r, ¬L.runs k r) {es : List HeapCall}
    (hr : (heapMachine L descs isThread).run ⟨⟨mem₀, k⟩, []⟩ es = some (.ok s)) :
    BlocksOk L descs s ∧
      ∀ size s', (heapMachine L descs isThread).step s (.malloc size) = some (.ok s') →
        s'.live = s.live ∨ ∃ p, s'.live = ⟨p, size⟩ :: s.live ∧
          ∀ w, p ≤ w → w < p + owned s'.task.mem p → s'.task.mem w = 0 := by
  have hinv := heap_run hC hlow (heapInv_start hmem hI hruns) hr
  refine ⟨blocksOk_of_inv hinv, fun size s' hs => ?_⟩
  simp only [heapMachine] at hs
  rcases malloc_step hC hinv size with ⟨x, herr, -⟩ | ⟨s₁, hok, -, -, hz⟩
  · rw [herr] at hs
    cases hs
  · rw [hok] at hs
    cases hs
    exact hz

/-! ## Free lists -/

/-- The small arena at `a` belongs to the descriptor number `i`. -/
def SmallArena (L : PageLayer K) (descs : ℕ) (s : HeapSt K) (i : Fin 7) (a : ℕ) : Prop :=
  L.runs s.task.pages (a, 1) ∧ s.task.mem a = descs + i * descSize ∧ s.task.mem (a + 8) = 0

/-- The free lists hold exactly the unallocated blocks, and the headers count them. -/
structure FreeListsOk (L : PageLayer K) (descs : ℕ) (s : HeapSt K) (free : Fin 7 → List ℕ) :
    Prop where
  isList : ∀ i, elems.IsList (Node descs) s.task.mem (freeListOf descs i) (free i)
  nodup : ∀ i, (free i).Nodup
  mem_iff : ∀ i e, e ∈ free i ↔ ∃ a idx, SmallArena L descs s i a ∧
    idx < s.task.mem (descs + i * descSize + 4) ∧ e = arena2block s.task.mem a idx ∧
    ¬IsLive s.live e
  cnt : ∀ i a, SmallArena L descs s i a → s.task.mem (a + 4) =
    ((Finset.range (s.task.mem (descs + i * descSize + 4))).filter fun idx =>
      arena2block s.task.mem a idx ∈ free i).card
  cnt_lt : ∀ i a, SmallArena L descs s i a →
    s.task.mem (a + 4) < s.task.mem (descs + i * descSize + 4)
  /-- The arena of a live block is not released. -/
  kept : ∀ b ∈ s.live, ∃ r, L.runs s.task.pages r ∧ block2arena b.ptr = r.1

theorem freeListsOk_of_inv (h : HeapInv L descs low I s.task s.live) :
    ∃ free, FreeListsOk L descs s free := by
  obtain ⟨kind, free, hshape, hst, hocc⟩ := h.heap
  have hsmall : ∀ i a, SmallArena L descs s i a ↔
      L.runs s.task.pages (a, 1) ∧ kind a = some i := by
    intro i a
    refine and_congr_right fun hr => ?_
    have hhead := hst.header (a, 1) hr
    simp only at hhead
    cases hk : kind a with
    | none =>
      rw [hk] at hhead
      simp [hhead.2.2]
    | some i' =>
      rw [hk] at hhead
      rw [hhead.1, hhead.2.1]
      constructor
      · rintro ⟨heq, -⟩
        simp only [descSize] at heq
        rw [Fin.ext (show (i' : ℕ) = i by omega)]
      · intro heq
        rw [Option.some.inj heq]
        exact ⟨rfl, rfl⟩
  have hblock : ∀ i a, SmallArena L descs s i a → ∀ idx,
      arena2block s.task.mem a idx = blockAt a i idx := fun i a ha idx =>
    arena2block_eq ha.2.1 (hst.desc i).1 idx
  refine ⟨free, hst.lists.isList, free_nodup hst.lists, fun i e => ?_, fun i a ha => ?_,
    fun i a ha => ?_, fun b hb => ?_⟩
  · rw [hshape.free_iff, (hst.desc i).2]
    constructor
    · rintro ⟨r, idx, hr, hk, hlt, he, hnl⟩
      have hone := hshape.onePage r i hr hk
      have ha : SmallArena L descs s i r.1 := (hsmall i r.1).mpr ⟨by rw [← hone]; exact hr, hk⟩
      exact ⟨r.1, idx, ha, hlt, by rw [hblock i _ ha]; exact he, hnl⟩
    · rintro ⟨a, idx, ha, hlt, he, hnl⟩
      obtain ⟨hr, hk⟩ := (hsmall i a).mp ha
      exact ⟨(a, 1), idx, hr, hk, hlt, by rw [← hblock i a ha]; exact he, hnl⟩
  · obtain ⟨hr, hk⟩ := (hsmall i a).mp ha
    have hhead := hst.header (a, 1) hr
    simp only [hk] at hhead
    rw [hhead.2.2, (hst.desc i).2]
    simp only [hblock i a ha]
    rfl
  · obtain ⟨hr, hk⟩ := (hsmall i a).mp ha
    have hhead := hst.header (a, 1) hr
    simp only [hk] at hhead
    rw [hhead.2.2, (hst.desc i).2]
    exact (hshape.occupied_iff hr hk).mp (hocc _ hr)
  · exact arena_of_live h hb

/-- All free lists are empty. -/
def ListsEmpty (descs : ℕ) (mem : Words) : Prop :=
  ∀ i : Fin 7, listEmpty elems mem (freeListOf descs i) = .ok true

/-- With the same arenas and the same live blocks, there are as few free blocks. -/
theorem listsEmpty_of_same (h : HeapInv L descs low I s.task s.live)
    (h' : HeapInv L descs low I s'.task s'.live)
    (hruns : ∀ r, L.runs s'.task.pages r → L.runs s.task.pages r)
    (hlive : ∀ b, b ∈ s'.live ↔ b ∈ s.live) (he : ListsEmpty descs s.task.mem) :
    ListsEmpty descs s'.task.mem := by
  obtain ⟨kind, free, hshape, hst, -⟩ := h.heap
  obtain ⟨kind', free', hshape', hst', hocc'⟩ := h'.heap
  intro i
  have hnil : free i = [] := by
    have hi := he i
    rw [freeListOf, listEmpty_eq hst, Except.ok.injEq, decide_eq_true_eq] at hi
    exact hi
  unfold freeListOf
  rw [listEmpty_eq hst', Except.ok.injEq, decide_eq_true_eq]
  refine List.eq_nil_iff_forall_not_mem.mpr fun e hmem => ?_
  obtain ⟨r, k, hr, hk, hlt, hblock, hnl⟩ := (hshape'.free_iff i e).mp hmem
  -- a live block tells the kind of the arena
  obtain ⟨b, hb, hin'⟩ := hocc' r hr
  obtain ⟨r₀, hr₀, hin⟩ := hshape.live_mem b ((hlive b).mp hb)
  have hbase : r₀.1 = r.1 :=
    (hshape.block2arena_live hr₀ hin).symm.trans (hshape'.block2arena_live hr hin')
  have hkind : kind r.1 = some i := by
    rw [← hk, ← hin.fits.unique hin'.fits, hbase]
  have hfree : e ∈ free i := by
    refine (hshape.free_iff i e).mpr ⟨r, k, hruns r hr, hkind, hlt, hblock, ?_⟩
    rintro ⟨b', hb', hptr⟩
    exact hnl ⟨b', (hlive b').mpr hb', hptr⟩
  rw [hnil] at hfree
  cases hfree

end

end HcOs.Heap
