import HcOs.Kernel.PoolLocks

/-!
# When `sys_malloc` returns

`sys_malloc` compares a request with the size of the pool and hands it on; the functions below it
assert what it does not check.  `malloc_page` asserts that it is asked for fewer than 3840 pages,
and `bitmap_scan` asserts that the bitmap is not full, so a pool that runs out of frames or of pages
is not reported but stops the kernel.

The state is that of one heap in an open system: its tasks make any requests and free the blocks
they have, words outside its arenas change in any way, and other page calls happen in between.

* `returns_iff`: in every state that is reached, a request returns exactly when the pages that it
  needs are there.
-/

namespace HcOs.MallocTotal

open HcOs.Lib HcOs.Page HcOs.Heap HcOs.PoolLocks

variable {P : Type}

/-! ## What is needed -/

/-- The run that `bitmap_scan` finds: the first one, one bit past the end at most. -/
structure FirstFit (b : Bitmap) (cnt st : ℕ) : Prop where
  clear : Clear b st cnt
  reach : st + cnt ≤ 8 * b.btmpBytesLen + 1
  single : cnt = 1 → st < 8 * b.btmpBytesLen
  first : ∀ st', st' < st → ¬ Clear b st' cnt

/-- The page tables that are missing for the pages `st`, …, `st + n - 1` of a task. -/
def newTables (m : Mem P) (cur : Option P) (st n : ℕ) : ℕ :=
  (((Finset.range n).image fun k => pdeIdx (vaddrOf (cur, st + k))).filter
    fun j => (m.pde cur j).p = false).card

/-- There are frames for the pages `st`, …, `st + n - 1` and for the page tables they miss. -/
def FramesFor (m : Mem P) (cur : Option P) (st n : ℕ) : Prop :=
  n ≤ freeFrames m (pfOf cur) ∧ newTables m cur st n ≤ freeFrames m .kernel

/-- There are pages and frames for `n` pages of the task, or the lack of them is noticed. -/
structure Served (m : Mem P) (cur : Option P) (n : ℕ) : Prop where
  few : n < 3840
  /-- The virtual pool is not full. -/
  room : ∃ i, i < 8 * (vbitmap m cur).btmpBytesLen ∧ bitmapScanTest (vbitmap m cur) i = false
  /-- The pages that are found belong to the pool and have frames. -/
  run : ∀ st, FirstFit (vbitmap m cur) n st →
    st + n ≤ limit m cur ∧ (cur = none ∨ vaddrOf (cur, st) < 0xc0000000 - pgSize) ∧
      FramesFor m cur st n

variable {m m' m₁ : Mem P} {cur : Option P} {n st v f : ℕ} {b : Bitmap} {k : PoolFlags}
variable {stuck : Option P × ℕ → Prop}

theorem FirstFit.unique {st' : ℕ} (h : FirstFit b n st) (h' : FirstFit b n st') : st = st' := by
  apply Nat.le_antisymm
  · exact Nat.le_of_not_lt fun hlt => h.first _ hlt h'.clear
  · exact Nat.le_of_not_lt fun hlt => h'.first _ hlt h.clear

theorem bitmapScan_cases (hn : 1 ≤ n) :
    (bitmapScan b n = .error outOfFrames ∧
      ¬∃ i, i < 8 * b.btmpBytesLen ∧ bitmapScanTest b i = false) ∨
    ((∃ i, i < 8 * b.btmpBytesLen ∧ bitmapScanTest b i = false) ∧
      ((∃ st, bitmapScan b n = .ok (some st) ∧ FirstFit b n st) ∨
        (bitmapScan b n = .ok none ∧ ∀ st, ¬ FirstFit b n st))) := by
  by_cases hfull : ∃ i, i < 8 * b.btmpBytesLen ∧ bitmapScanTest b i = false
  · refine Or.inr ⟨hfull, ?_⟩
    rcases bitmapScan_spec (b := b) hn with
      ⟨-, hones⟩ | ⟨st, hok, hclear, hend, hone, hfirst⟩ | ⟨hok, -, hno⟩
    · obtain ⟨i, hi, hbit⟩ := hfull
      rw [hones i hi] at hbit
      cases hbit
    · exact Or.inl ⟨st, hok, hclear, hend, hone, hfirst⟩
    · exact Or.inr ⟨hok, fun st h => hno st h.reach h.clear⟩
  · refine Or.inl ⟨assert_bind_of_not (fun hlt => ?_) _, hfull⟩
    obtain ⟨hstart, hzero, -⟩ := firstClear_spec hlt
    exact hfull ⟨_, hstart, hzero⟩

/-! ## Frames -/

theorem palloc_other {r : Option ℕ} {l : PoolFlags} (h : palloc m k = .ok (m', r)) (hl : l ≠ k) :
    freeFrames m' l = freeFrames m l := by
  apply freeFrames_congr
  unfold palloc at h
  obtain ⟨i, -, h⟩ := bind_eq_ok.mp h
  cases i with
  | none =>
    cases h
    rfl
  | some i =>
    cases h
    cases k <;> cases l <;> first | rfl | exact absurd rfl hl

/-! ## Missing page tables -/

theorem newTables_zero : newTables m cur st 0 = 0 := rfl

theorem image_range_succ (g : ℕ → ℕ) (st n : ℕ) :
    ((Finset.range (n + 1)).image fun k => g (st + k)) =
      insert (g st) ((Finset.range n).image fun k => g (st + 1 + k)) := by
  ext j
  simp only [Finset.mem_image, Finset.mem_insert, Finset.mem_range]
  constructor
  · rintro ⟨k, hk, rfl⟩
    cases k with
    | zero => exact Or.inl rfl
    | succ k => exact Or.inr ⟨k, by omega, by rw [Nat.add_assoc, Nat.add_comm 1 k]⟩
  · rintro (rfl | ⟨k, hk, rfl⟩)
    · exact ⟨0, by omega, rfl⟩
    · exact ⟨k + 1, by omega, by rw [Nat.add_assoc, Nat.add_comm 1 k]⟩

/-- The first page is looked at by itself. -/
theorem newTables_succ : newTables m cur st (n + 1) =
    ((insert (pdeIdx (vaddrOf (cur, st)))
      ((Finset.range n).image fun k => pdeIdx (vaddrOf (cur, st + 1 + k)))).filter
        fun j => (m.pde cur j).p = false).card := by
  unfold newTables
  rw [image_range_succ fun i => pdeIdx (vaddrOf (cur, i))]

theorem newTables_present (ht : (m.pde cur (pdeIdx (vaddrOf (cur, st)))).p = true)
    (hpde : m'.pde = m.pde) : newTables m cur st (n + 1) = newTables m' cur (st + 1) n := by
  rw [newTables_succ, Finset.filter_insert, if_neg (by rw [ht]; exact Bool.true_eq_false.mp)]
  unfold newTables
  rw [hpde]

theorem newTables_absent (ht : (m.pde cur (pdeIdx (vaddrOf (cur, st)))).p = false)
    (hpde : ∀ j, (m'.pde cur j).p =
      if j = pdeIdx (vaddrOf (cur, st)) then true else (m.pde cur j).p) :
    newTables m cur st (n + 1) = newTables m' cur (st + 1) n + 1 := by
  rw [newTables_succ, Finset.filter_insert, if_pos ht,
    ← Finset.card_erase_add_one (Finset.mem_insert_self _ _), Finset.erase_insert_eq_erase]
  unfold newTables
  congr 2
  ext j
  rw [Finset.mem_erase, Finset.mem_filter, Finset.mem_filter, hpde]
  by_cases hj : j = pdeIdx (vaddrOf (cur, st))
  · simp [hj]
  · simp [hj]

/-- The page tables of the kernel are there from the start. -/
theorem newTables_kernel (hg : Geo m) (hlim : st + n ≤ limit m none) :
    newTables m none st n = 0 := by
  unfold newTables
  rw [Finset.card_eq_zero, Finset.filter_eq_empty_iff]
  intro j hj
  obtain ⟨k, hk, rfl⟩ := Finset.mem_image.mp hj
  rw [Finset.mem_range] at hk
  have hlt : st + k < limit m none := by omega
  have ht : hasTable m (none, st + k) = true := hasTable_of_kernel hg hlt rfl
  rw [hasTable] at ht
  rw [ht]
  exact Bool.true_eq_false.mp

variable [DecidableEq P]

/-- `page_table_add` for a page whose table is there. -/
theorem pageTableAdd_present (ht : (m.pde cur (pdeIdx v)).p = true) :
    pageTableAdd m cur v f ≠ .error outOfFrames ∧
    ∀ m', pageTableAdd m cur v f = .ok m' →
      m'.pde = m.pde ∧ ∀ l, freeFrames m' l = freeFrames m l := by
  unfold pageTableAdd
  rw [if_pos ht]
  split
  · refine ⟨nofun, fun m' h => ?_⟩
    cases h
    exact ⟨rfl, fun l => freeFrames_congr (by cases l <;> rfl)⟩
  · exact ⟨fun h => absurd (Except.error.inj h) (by decide), nofun⟩

/-- `page_table_add` for a page without one. -/
theorem pageTableAdd_absent (ht : (m.pde cur (pdeIdx v)).p = false) :
    (pageTableAdd m cur v f = .error outOfFrames → freeFrames m .kernel = 0) ∧
    ∀ m', pageTableAdd m cur v f = .ok m' →
      freeFrames m .kernel = freeFrames m' .kernel + 1 ∧
      freeFrames m' .user = freeFrames m .user ∧
      ∀ j, (m'.pde cur j).p = if j = pdeIdx v then true else (m.pde cur j).p := by
  have hne : ¬(m.pde cur (pdeIdx v)).p = true := by
    rw [ht]
    exact Bool.false_ne_true
  unfold pageTableAdd
  rw [if_neg hne]
  rcases palloc_cases m .kernel with ⟨herr, hzero⟩ | ⟨m₁, g, hok, hfree, hpde, -⟩
  · rw [herr]
    exact ⟨fun _ => hzero, nofun⟩
  · have huser := palloc_other hok (l := .user) nofun
    rw [hok, ok_bind]
    refine ⟨fun h => ?_, fun m' h => ?_⟩
    · dsimp only at h
      rcases bind_eq_error.mp h with h | ⟨_, -, h⟩
      · unfold assert at h
        split at h
        · cases h
        · exact absurd (Except.error.inj h) (by decide)
      · cases h
    · obtain ⟨-, h⟩ := assert_bind_eq_ok.mp h
      cases h
      refine ⟨hfree, huser, fun j => ?_⟩
      show (Function.update m₁.pde cur _ cur j).p = _
      rw [Function.update_self, hpde]
      by_cases hj : j = pdeIdx v
      · rw [hj, Function.update_self, if_pos rfl]
      · rw [Function.update_of_ne hj, if_neg hj]

/-! ## The loop of `malloc_page` -/

omit [DecidableEq P] in
theorem table_of_thread {flight : ℕ → Prop} (hi : Inv m (InRun none st (n + 1)) stuck flight) :
    (m.pde none (pdeIdx (vaddrOf ((none : Option P), st)))).p = true :=
  have hfirst := (hi.pend_spec (none, st) (inRun_succ.mpr (Or.inl rfl))).1
  hasTable_of_kernel hi.geo hfirst rfl

omit [DecidableEq P] in
theorem last_lt_limit {flight : ℕ → Prop} (hi : Inv m (InRun cur st (n + 1)) stuck flight) :
    st + (n + 1) ≤ limit m cur :=
  (hi.pend_spec (cur, st + n) ⟨rfl, by simp, by simp⟩).1

theorem framesFor_next (hi : Inv m (InRun cur st (n + 1)) stuck fun _ => False)
    (hok : palloc m (pfOf cur) = .ok (m₁, some f))
    (hadd : pageTableAdd m₁ cur (vaddrOf (cur, st)) f = .ok m') :
    FramesFor m cur st (n + 1) ↔ FramesFor m' cur (st + 1) n := by
  have hcase := palloc_cases m (pfOf cur)
  rw [hok] at hcase
  obtain ⟨herr, -⟩ | ⟨_, _, h, hfree, hpde, -⟩ := hcase
  · cases herr
  cases h
  unfold FramesFor
  cases ht : (m₁.pde cur (pdeIdx (vaddrOf (cur, st)))).p with
  | true =>
    obtain ⟨hpde', hfree'⟩ := (pageTableAdd_present ht).2 m' hadd
    rw [hpde] at ht hpde'
    rw [newTables_present ht hpde', hfree' (pfOf cur), hfree' .kernel, hfree]
    cases cur with
    | none =>
      have hnew := newTables_kernel hi.geo (last_lt_limit hi)
      rw [newTables_present ht hpde'] at hnew
      rw [hnew]
      omega
    | some p =>
      rw [palloc_other hok (l := .kernel) nofun]
      omega
  | false =>
    obtain ⟨hk, hu, hpde'⟩ := (pageTableAdd_absent ht).2 m' hadd
    cases cur with
    | none =>
      rw [hpde, table_of_thread hi] at ht
      cases ht
    | some p =>
      rw [hpde] at ht hpde'
      rw [palloc_other hok (l := .kernel) nofun] at hk
      simp only [pfOf] at hfree ⊢
      rw [newTables_absent ht hpde', hu, hk, hfree]
      omega

theorem not_framesFor (hi : Inv m (InRun cur st (n + 1)) stuck fun _ => False)
    (hok : palloc m (pfOf cur) = .ok (m₁, some f))
    (hadd : pageTableAdd m₁ cur (vaddrOf (cur, st)) f = .error outOfFrames) :
    ¬FramesFor m cur st (n + 1) := by
  have hcase := palloc_cases m (pfOf cur)
  rw [hok] at hcase
  obtain ⟨herr, -⟩ | ⟨_, _, h, hfree, hpde, -⟩ := hcase
  · cases herr
  cases h
  cases ht : (m₁.pde cur (pdeIdx (vaddrOf (cur, st)))).p with
  | true => exact absurd hadd (pageTableAdd_present ht).1
  | false =>
    have hzero := (pageTableAdd_absent ht).1 hadd
    rw [hpde] at ht
    cases cur with
    | none =>
      rw [table_of_thread hi] at ht
      cases ht
    | some p =>
      rw [palloc_other hok (l := .kernel) nofun] at hzero
      rintro ⟨-, hnew⟩
      rw [newTables_succ, Finset.filter_insert, if_pos ht, hzero, Nat.le_zero,
        Finset.card_eq_zero] at hnew
      exact Finset.insert_ne_empty _ _ hnew

/-- The loop of `malloc_page` comes to its end when there are frames enough. -/
theorem mallocLoop_iff (hi : Inv m (InRun cur st n) stuck fun _ => False) :
    (∃ r, mallocLoop cur (pfOf cur) n (vaddrOf (cur, st)) m = .ok r) ↔ FramesFor m cur st n := by
  induction n generalizing st m with
  | zero => exact iff_of_true ⟨_, rfl⟩ ⟨Nat.zero_le _, by rw [newTables_zero]; exact Nat.zero_le _⟩
  | succ n ih =>
    rw [mallocLoop]
    rcases mapPage_spec hi (inRun_succ.mpr (Or.inl rfl)) (Or.inr rfl) with
      herr | ⟨m₁, f, hok, herr | ⟨m₂, hok₂, -, -, hi₂⟩⟩
    · have hcase := palloc_cases m (pfOf cur)
      rw [herr] at hcase ⊢
      refine iff_of_false (not_error_eq_ok _) fun h => ?_
      obtain ⟨-, hzero⟩ | ⟨_, _, h, -⟩ := hcase
      · have := h.1
        omega
      · cases h
    · rw [hok, ok_bind]
      simp only [herr, error_bind]
      exact iff_of_false (not_error_eq_ok _) (not_framesFor hi hok herr)
    · rw [hok, ok_bind, framesFor_next hi hok hok₂, ← ih hi₂.next, ← vaddrOf_succ]
      simp only [hok₂, ok_bind]

/-! ## `malloc_page` -/

theorem framesFor_markRun :
    FramesFor (markRun m cur st true n) cur st n ↔ FramesFor m cur st n := by
  have hpde : (markRun m cur st true n).pde = m.pde := markRun_pde true
  unfold FramesFor newTables
  rw [hpde, freeFrames_congr (markRun_pool true _), freeFrames_congr (markRun_pool true _)]

/-- The loop of `malloc_page` on the pages that `vaddr_get` marked. -/
theorem mallocRun_iff (hi : Settled m stuck) (hn : 1 ≤ n) (hfit : FirstFit (vbitmap m cur) n st) :
    (∃ r, mallocLoop cur (pfOf cur) n (vaddrOf (cur, st)) (markRun m cur st true n) = .ok r) ↔
      st + n ≤ limit m cur ∧ FramesFor m cur st n := by
  by_cases hin : st + n ≤ limit m cur
  · have hi₁ : Inv (markRun m cur st true n) (InRun cur st n) stuck fun _ => False :=
      (inv_markRun hi hin hfit.clear).congr (fun q => by simp) fun _ => Iff.rfl
    rw [mallocLoop_iff hi₁, framesFor_markRun]
    exact ⟨fun h => ⟨hin, h⟩, fun h => h.2⟩
  · refine iff_of_false (fun ⟨r, h⟩ => ?_) fun h => hin h.1
    have hreach := hfit.reach
    -- only the pool of a process ends at its last bit
    rcases limit_eq hi.geo cur with ⟨hlim, -⟩ | ⟨hlim, -, p, hp⟩
    · omega
    · obtain ⟨k, rfl⟩ : ∃ k, n = k + 1 := ⟨n - 1, by omega⟩
      rcases mallocLoop_pastEnd hi rfl hp (by omega) hfit.clear with herr | herr
      · rw [herr] at h
        cases h
      · rw [herr] at h
        cases h

theorem mallocPage_iff (hi : Settled m stuck) :
    (∃ r, mallocPage m cur (pfOf cur) n = .ok r) ↔ 1 ≤ n ∧ Served m cur n := by
  unfold mallocPage
  by_cases hn : 0 < n ∧ n < 3840
  · rw [assert_bind_of hn]
    rcases bitmapScan_cases (b := vbitmap m cur) hn.1 with
      ⟨herr, hfull⟩ | ⟨hroom, ⟨st, hok, hfit⟩ | ⟨hok, hno⟩⟩
    · rw [vaddrGet_of_error (Or.inr rfl) herr, error_bind]
      exact iff_of_false (not_error_eq_ok _) fun h => hfull h.2.room
    · rw [vaddrGet_eq hi.geo (Or.inr rfl) hok]
      by_cases hlow : cur = none ∨ vaddrOf (cur, st) < 0xc0000000 - pgSize
      · rw [if_pos hlow, ok_bind]
        dsimp only
        have hrun := mallocRun_iff hi hn.1 hfit
        constructor
        · rintro ⟨r, h⟩
          obtain ⟨a, hloop, -⟩ := bind_eq_ok.mp h
          obtain ⟨hin, hframes⟩ := hrun.mp ⟨a, hloop⟩
          refine ⟨hn.1, hn.2, hroom, fun st' hfit' => ?_⟩
          rw [hfit'.unique hfit]
          exact ⟨hin, hlow, hframes⟩
        · rintro ⟨-, h⟩
          obtain ⟨hin, -, hframes⟩ := h.run st hfit
          obtain ⟨r, hr⟩ := hrun.mpr ⟨hin, hframes⟩
          rw [hr, ok_bind]
          exact ⟨_, rfl⟩
      · rw [if_neg hlow, error_bind]
        exact iff_of_false (not_error_eq_ok _) fun h => hlow (h.2.run st hfit).2.1
    · rw [vaddrGet_of_none (Or.inr rfl) hok, ok_bind]
      exact iff_of_true ⟨_, rfl⟩ ⟨hn.1, hn.2, hroom, fun st h => absurd h (hno st)⟩
  · rw [assert_bind_of_not hn]
    exact iff_of_false (not_error_eq_ok _) fun h => hn ⟨h.1, h.2.few⟩

/-! ## `sys_malloc` -/

section

variable {K : Type} {L : PageLayer K} {descs low size : ℕ} {I : K → Prop} {t : Heap.Task K}
variable {live : List Block}

omit [DecidableEq P] in
theorem mallocLarge_iff (hC : Contract L descs low I) (hI : I t.pages) (hsize : size < 2 ^ 28) :
    (∃ r, mallocLarge L t size = .ok r) ↔
      ∃ r, L.mallocPage t.pages (divRoundUp (size + arenaSize) pgSize) = .ok r := by
  unfold mallocLarge
  constructor
  · rintro ⟨r, h⟩
    obtain ⟨a, hpage, -⟩ := bind_eq_ok.mp h
    exact ⟨a, hpage⟩
  · rintro ⟨⟨k, a⟩, hpage⟩
    dsimp only
    rw [hpage, ok_bind]
    cases a with
    | none => exact ⟨_, rfl⟩
    | some a =>
      obtain ⟨-, -, h0, -⟩ := hC.malloc _ _ _ _ hI (pageCnt_spec hsize).1 hpage
      dsimp only
      rw [memset_eq _ (by omega), ok_bind]
      exact ⟨_, rfl⟩

theorem mallocSmall_iff (hC : Contract L descs low I) (h : HeapInv L descs low I t live)
    (hsize : size ≤ 1024) :
    (∃ r, mallocSmall L descs t size = .ok r) ↔
      (listEmpty elems t.mem (freeList (descs + matchDesc t.mem descs size descCnt 0 * descSize)) =
        .ok true → ∃ r, L.mallocPage t.pages 1 = .ok r) := by
  obtain ⟨kind, free, hshape, hst, hocc⟩ := h.heap
  obtain ⟨j, hj, hfit⟩ := matchDesc_stored hst hsize
  rw [mallocSmall, hj, listEmpty_eq hst, ok_bind]
  cases hfree : free j with
  | nil =>
    rw [if_pos (decide_eq_true rfl)]
    constructor
    · rintro ⟨r, hr⟩ -
      obtain ⟨a, hnew, -⟩ := bind_eq_ok.mp hr
      obtain ⟨b, hpage, -⟩ := bind_eq_ok.mp hnew
      exact ⟨b, hpage⟩
    · intro himp
      obtain ⟨⟨k', a⟩, hpage⟩ := himp (by rw [decide_eq_true rfl])
      cases a with
      | none =>
        unfold newArena
        rw [hpage]
        exact ⟨_, rfl⟩
      | some a =>
        obtain ⟨mem₁, kind₁, free₁, e, xs, hok, hI, hlow, hshape₁, hst₁, hcons, hocc₁⟩ :=
          grow_spec hC h hshape hst hocc hfree hpage
        obtain ⟨mem₂, htake, -⟩ := takeBlock_inv (t := ⟨mem₁, k'⟩) hI hlow hshape₁ hst₁ hcons hocc₁
          hfit
        rw [hok, ok_bind]
        simp only [if_true]
        rw [htake]
        exact ⟨_, rfl⟩
  | cons e xs =>
    rw [if_neg (by simp), ok_bind]
    obtain ⟨mem', htake, -⟩ := takeBlock_inv h.pages h.low hshape hst hfree
      (fun r hr => Or.inl (hocc r hr)) hfit
    simp only [if_true]
    rw [htake]
    refine iff_of_true ⟨_, rfl⟩ fun hempty => ?_
    simp at hempty

/-- A request returns when the call of `malloc_page` that it makes, if any, returns. -/
theorem sysMalloc_iff (hC : Contract L descs low I) (h : HeapInv L descs low I t live) :
    (∃ r, sysMalloc L descs t size = .ok r) ↔
      (0 < size ∧ size < L.poolSize t.pages →
        ∀ n ∈ mallocRequest t.mem descs size, ∃ r, L.mallocPage t.pages n = .ok r) := by
  unfold sysMalloc mallocRequest
  by_cases hsize : 0 < size ∧ size < L.poolSize t.pages
  · rw [if_neg (not_not.mpr hsize), forall_prop_of_true hsize]
    by_cases hlarge : 1024 < size
    · rw [if_pos hlarge, if_pos hlarge,
        mallocLarge_iff hC h.pages (Nat.lt_trans hsize.2 (hC.poolSize _ h.pages))]
      simp only [Option.mem_some_iff, forall_eq']
    · rw [if_neg hlarge, if_neg hlarge, mallocSmall_iff hC h (Nat.le_of_not_lt hlarge)]
      cases listEmpty elems t.mem
          (freeList (descs + matchDesc t.mem descs size descCnt 0 * descSize)) with
      | error x => simp
      | ok isEmpty => cases isEmpty <;> simp
  · rw [if_pos hsize]
    exact iff_of_true ⟨_, rfl⟩ fun hpos => absurd hpos hsize

end

/-! ## The system around a heap -/

/-- The heap of a process or of the kernel threads, and the other runs of pages. -/
structure Open (P : Type) where
  heap : HeapSt (St P)
  others : List (Run P)

inductive Event (P : Type) where
  /-- A task of the heap allocates, frees a block that it has, or writes to one. -/
  | call (c : HeapCall)
  /-- A write outside the descriptors and the arenas. -/
  | write (addr val : ℕ)
  /-- A page call for anything but the heap. -/
  | page (c : Page.Call P)

def openStep (cur : Option P) (descs : ℕ) (s : Open P) : Event P → Option (Except Halt (Open P))
  | .call c => (heapStep (taskLayer cur) descs cur.isNone s.heap c).map
      (Except.map fun t => { s with heap := t })
  | .write addr val =>
    if (addr < descs ∨ descs + 168 ≤ addr) ∧ ∀ r ∈ s.heap.task.pages.runs, r.pool = cur →
        addr < r.vaddr ∨ r.vaddr + r.pgCnt * 4096 ≤ addr then
      some (.ok { s with heap := ⟨{ s.heap.task with
        mem := Function.update s.heap.task.mem addr val }, s.heap.live⟩ })
    else none
  | .page c => (pageStep ⟨s.heap.task.pages.mem, s.others⟩ c).map (Except.map fun k =>
      ⟨⟨{ s.heap.task with pages := ⟨k.mem, s.heap.task.pages.runs⟩ }, s.heap.live⟩, k.runs⟩)

def openMachine (cur : Option P) (descs : ℕ) : Machine (Open P) (Event P) Halt where
  step := openStep cur descs

/-- The heap is in order, and its pages are no other's. -/
structure OpenInv (cur : Option P) (descs : ℕ) (stuck : Option P × ℕ → Prop) (s : Open P) :
    Prop where
  heap : TaskInv cur descs stuck s.heap
  runs : RunsOk s.heap.task.pages.mem (s.heap.task.pages.runs ++ s.others)

variable {descs size : ℕ} {s s' : Open P} {hs hs' os os' : List (Run P)}

omit [DecidableEq P] in
theorem runsOk_comm (h : RunsOk m (hs ++ os)) : RunsOk m (os ++ hs) := by
  refine ⟨fun r hr => h.mapped r ?_, ?_⟩
  · exact List.perm_append_comm.mem_iff.mp hr
  · exact (List.perm_append_comm.pairwise_iff fun {r r'} h q hq hq' => h q hq' hq).mp h.disjoint

omit [DecidableEq P] in
theorem runsOk_left (h : RunsOk m (hs ++ os)) : RunsOk m hs :=
  ⟨fun r hr => h.mapped r (List.mem_append_left os hr), (List.pairwise_append.mp h.disjoint).1⟩

/-- The page calls of the heap leave the other runs alone. -/
theorem pageStep_others (hd : DescsAt cur descs) (hi : PageInv ⟨m, hs ++ os⟩ stuck)
    (h : PageStep (taskLayer cur) ⟨m, hs⟩ ⟨m', hs'⟩) : PageInv ⟨m', hs' ++ os⟩ stuck := by
  have hC : Contract (taskLayer cur) descs (poolStart cur) fun s => PageInv s stuck :=
    taskLayer_contract hd
  cases h with
  | same => exact hi
  | @null n _ h =>
    refine (hC.null ⟨m, hs ++ os⟩ n _ hi ?_).1
    simp only [taskLayer] at h ⊢
    obtain ⟨⟨m₁, v⟩, hm, h⟩ := bind_eq_ok.mp h
    rw [hm, ok_bind]
    cases v with
    | none =>
      cases h
      rfl
    | some v => cases h
  | @malloc n a _ hn h =>
    refine (hC.malloc ⟨m, hs ++ os⟩ n _ a hi hn ?_).1
    simp only [taskLayer] at h ⊢
    obtain ⟨⟨m₁, v⟩, hm, h⟩ := bind_eq_ok.mp h
    rw [hm, ok_bind]
    cases v with
    | none => cases h
    | some v =>
      cases h
      rfl
  | @mfree r _ hr h =>
    have hmem : (⟨cur, r.1, r.2⟩ : Run P) ∈ hs := hr
    refine (hC.mfree ⟨m, hs ++ os⟩ r _ hi (List.mem_append_left os hmem) ?_).1
    simp only [taskLayer] at h ⊢
    obtain ⟨m₁, hm, h⟩ := bind_eq_ok.mp h
    rw [hm, ok_bind, List.erase_append_left _ hmem]
    cases h
    rfl

/-- Other page calls leave the runs of the heap alone. -/
theorem pageStep_heap {c : Page.Call P} (h : pageStep ⟨m, os⟩ c = some (.ok ⟨m', os'⟩)) :
    pageStep ⟨m, os ++ hs⟩ c = some (.ok ⟨m', os' ++ hs⟩) := by
  cases c with
  | mallocPage d pf n =>
    simp only [pageStep, Option.some.injEq] at h ⊢
    obtain ⟨⟨m₁, v⟩, hm, h⟩ := bind_eq_ok.mp h
    rw [hm, ok_bind]
    cases v with
    | none =>
      cases h
      rfl
    | some v =>
      cases h
      rfl
  | mfreePage d r =>
    simp only [pageStep] at h ⊢
    split at h
    · next hc =>
      rw [if_pos ⟨List.mem_append_left hs hc.1, hc.2⟩]
      simp only [Option.some.injEq] at h ⊢
      obtain ⟨m₁, hm, h⟩ := bind_eq_ok.mp h
      rw [hm, ok_bind, List.erase_append_left _ hc.1]
      cases h
      rfl
    · cases h
  | getAPage d pf v =>
    simp only [pageStep] at h ⊢
    split at h
    · next hc =>
      rw [if_pos hc]
      simp only [Option.some.injEq] at h ⊢
      obtain ⟨⟨m₁, v⟩, hm, h⟩ := bind_eq_ok.mp h
      rw [hm, ok_bind]
      cases h
      rfl
    · cases h

theorem open_step (hd : DescsAt cur descs) (hi : OpenInv cur descs stuck s) {e : Event P}
    (hs : (openMachine cur descs).step s e = some (.ok s')) : OpenInv cur descs stuck s' := by
  have hall : PageInv ⟨s.heap.task.pages.mem, s.heap.task.pages.runs ++ s.others⟩ stuck :=
    ⟨hi.heap.pages.settled, hi.runs⟩
  cases e with
  | call c =>
    obtain ⟨t, hstep, rfl⟩ := Machine.ok_of_map hs
    rcases task_step hd hi.heap hstep with ⟨x, hx, -⟩ | ⟨t₁, ht₁, hinv, hp⟩
    · cases hx
    · cases ht₁
      exact ⟨hinv, (pageStep_others hd hall hp).runs⟩
  | write addr val =>
    simp only [openMachine, openStep] at hs
    split at hs
    · next hc =>
      cases hs
      exact ⟨write_outside hi.heap ⟨hc.1, fun r hr => hc.2 _ hr rfl⟩ _, hi.runs⟩
    · cases hs
  | page c =>
    obtain ⟨k, hstep, rfl⟩ := Machine.ok_of_map hs
    have hnext : PageInv ⟨k.mem, k.runs ++ s.heap.task.pages.runs⟩ stuck := by
      have hother : PageInv ⟨s.heap.task.pages.mem, s.others ++ s.heap.task.pages.runs⟩ stuck :=
        ⟨hall.settled, runsOk_comm hi.runs⟩
      rcases page_step hother (pageStep_heap hstep) with
        ⟨x, hx, -⟩ | ⟨k', hk', hinv⟩
      · cases hx
      · cases hk'
        exact hinv
    have hruns := runsOk_comm hnext.runs
    exact ⟨hi.heap.congr ⟨hnext.settled, runsOk_left hruns⟩ fun r => Iff.rfl, hruns⟩

/-- The state when the descriptors of the heap are set up. -/
def openStart (mem₀ : Words) (sp : St P) : Open P := ⟨taskStart mem₀ sp.mem, sp.runs⟩

variable {m₀ : Mem P} {ps : List (Page.Call P)} {sp : St P} {mem mem₀ : Words} {es : List (Event P)}

theorem open_run (hm : Start m₀) (hp : pageMachine.run ⟨m₀, []⟩ ps = some (.ok sp))
    (hd : DescsAt cur descs) (hmem : blockDescInit mem descs = .ok mem₀)
    (hr : (openMachine cur descs).run (openStart mem₀ sp) es = some (.ok s)) :
    OpenInv cur descs (stuckAt m₀) s := by
  have hstart : OpenInv cur descs (stuckAt m₀) (openStart mem₀ sp) :=
    ⟨taskInv_start hm hp hmem, (page_run hm hp).runs⟩
  exact Machine.run_ok (fun _ _ _ hi hs => open_step hd hi hs) hstart hr

/-! ## Main result -/

/-- `sys_malloc` returns `NULL` or a block of the size asked for. -/
def Returns (cur : Option P) (descs : ℕ) (t : HeapSt (St P)) (size : ℕ) : Prop :=
  ∃ t' r, sysMalloc (taskLayer cur) descs t.task size = .ok (t', r) ∧
    ∀ p, r = some p → size ≤ owned t'.mem p ∧
      BlocksOk (taskLayer cur) descs ⟨t', ⟨p, size⟩ :: t.live⟩

/-- The pages that the request needs, if any, are there. -/
def Granted (cur : Option P) (descs : ℕ) (t : HeapSt (St P)) (size : ℕ) : Prop :=
  0 < size ∧ size < (t.task.pages.mem.pool (pfOf cur)).poolSize →
    ∀ n ∈ mallocRequest t.task.mem descs size, Served t.task.pages.mem cur n

theorem layer_iff {t : St P} (hi : Settled t.mem stuck) :
    (∃ r, (taskLayer cur).mallocPage t n = .ok r) ↔ 1 ≤ n ∧ Served t.mem cur n := by
  rw [← mallocPage_iff hi]
  simp only [taskLayer]
  constructor
  · rintro ⟨r, h⟩
    obtain ⟨a, hm, -⟩ := bind_eq_ok.mp h
    exact ⟨a, hm⟩
  · rintro ⟨⟨m', v⟩, hm⟩
    rw [hm, ok_bind]
    cases v with
    | none => exact ⟨_, rfl⟩
    | some v => exact ⟨_, rfl⟩

theorem mallocRequest_pos {mem : Words} (hsize : size < 2 ^ 28)
    (hn : n ∈ mallocRequest mem descs size) : 1 ≤ n := by
  unfold mallocRequest at hn
  split at hn
  · rw [Option.mem_some_iff] at hn
    rw [← hn]
    exact (pageCnt_spec hsize).1
  · split at hn
    · rw [Option.mem_some_iff] at hn
      omega
    · cases hn

/-- Whatever `sys_malloc` returns is `NULL` or a block. -/
theorem returns_iff_ok {t : HeapSt (St P)} (hd : DescsAt cur descs)
    (hi : TaskInv cur descs stuck t) :
    Returns cur descs t size ↔ ∃ r, sysMalloc (taskLayer cur) descs t.task size = .ok r := by
  refine ⟨fun ⟨t', r, h, _⟩ => ⟨_, h⟩, fun ⟨⟨t', r⟩, h⟩ => ⟨t', r, h, fun p hp => ?_⟩⟩
  subst hp
  have hspec := sysMalloc_spec (taskLayer_contract hd) hi size
  rw [h] at hspec
  cases hspec with
  | block hinv _ _ =>
    have hblocks := blocksOk_of_inv (s := ⟨t', ⟨p, size⟩ :: t.live⟩) hinv
    exact ⟨hblocks.size ⟨p, size⟩ List.mem_cons_self, hblocks⟩

/-- **When `sys_malloc` returns.**  In every state that is reached, a request returns exactly when
it is refused by its size, or a free block of its class is there, or the pages that it needs are:
fewer than 3840, in a virtual pool that is not full, and, where there is room for them, with a frame
for each page and for each page table that is missing. -/
theorem returns_iff (hm : Start m₀) (hp : pageMachine.run ⟨m₀, []⟩ ps = some (.ok sp))
    (hd : DescsAt cur descs) (hmem : blockDescInit mem descs = .ok mem₀)
    (hr : (openMachine cur descs).run (openStart mem₀ sp) es = some (.ok s)) (size : ℕ) :
    Returns cur descs s.heap size ↔ Granted cur descs s.heap size := by
  have hi := (open_run hm hp hd hmem hr).heap
  have hC : Contract (taskLayer cur) descs (poolStart cur) fun s => PageInv s (stuckAt m₀) :=
    taskLayer_contract hd
  rw [returns_iff_ok hd hi, sysMalloc_iff hC hi]
  refine forall_congr' fun hsize => forall₂_congr fun n hn => ?_
  rw [layer_iff hi.pages.settled]
  have hpos := mallocRequest_pos (Nat.lt_trans hsize.2 (hC.poolSize _ hi.pages)) hn
  exact ⟨fun h => h.2, fun h => ⟨hpos, h⟩⟩

theorem returns_iff_thread :
    Returns none kBlockDescs threadStart 5000 ∧ Granted none kBlockDescs threadStart 5000 := by
  have hrun : (openMachine none kBlockDescs).run
      (openStart descsMem ⟨bootMem Unit 0x240000, []⟩) [] =
        some (.ok ⟨threadStart, []⟩) := rfl
  have hboot : pageMachine.run ⟨bootMem Unit 0x240000, []⟩ [] =
      some (.ok ⟨bootMem Unit 0x240000, []⟩) := rfl
  have hiff := returns_iff (bootMem_start 0x240000) hboot kBlockDescs_at descsMem_init hrun 5000
  have hinv : TaskInv none kBlockDescs _ threadStart :=
    taskInv_start (bootMem_start 0x240000) hboot descsMem_init
  have hret : Returns none kBlockDescs threadStart 5000 := by
    refine (returns_iff_ok kBlockDescs_at hinv).mpr ?_
    have hok :
        (sysMalloc (taskLayer none) kBlockDescs threadStart.task 5000).toOption.isSome = true := by
      decide +kernel
    cases h : sysMalloc (taskLayer none) kBlockDescs threadStart.task 5000 with
    | ok r => exact ⟨r, rfl⟩
    | error x =>
      rw [h] at hok
      cases hok
  exact ⟨hret, hiff.mp hret⟩

/-- A kernel thread of a machine with 32 MiB of memory asks for almost all of the kernel's pool. -/
theorem large_request :
    Start (bootMem Unit 0x2000000) ∧ DescsAt (none : Option Unit) kBlockDescs ∧
      blockDescInit (fun _ => 0) kBlockDescs = .ok descsMem ∧
      (openMachine none kBlockDescs).run
        (openStart descsMem ⟨bootMem Unit 0x2000000, []⟩) [] =
          some (.ok (openStart descsMem ⟨bootMem Unit 0x2000000, []⟩)) ∧
      sysMalloc (taskLayer none) kBlockDescs
        (openStart descsMem ⟨bootMem Unit 0x2000000, []⟩).heap.task 15728000 =
          .error (.panic "malloc_page" "pg_cnt > 0 && pg_cnt < 3840") := by
  exact ⟨bootMem_start _, kBlockDescs_at, descsMem_init, rfl, rfl⟩

end HcOs.MallocTotal
