import HcOs.Kernel.PageInv

/-!
# What the page functions do

One lemma for each function of `kernel/memory.c`, from the small steps of `PageInv`: `palloc`,
`page_table_add`, `vaddr_get`, `malloc_page`, `get_a_page` and `mfree_page` keep the invariant, and
`Keeps` says what they leave alone.
-/

namespace HcOs.Page

open HcOs.Lib

variable {P : Type} {m m' m'' : Mem P} {pend pend' stuck : Option P × ℕ → Prop}
variable {flight flight' : ℕ → Prop} {pg q : Option P × ℕ} {k pf : PoolFlags} {i j f n st : ℕ}
variable {d cur : Option P} {p : P}

/-- The pages outside `S` hold what they held, page tables stay, and so do the sizes. -/
structure Keeps (S : Option P × ℕ → Prop) (m m' : Mem P) : Prop where
  pages : ∀ pg, ¬S pg → holds m' (.page pg) = holds m (.page pg)
  tables : ∀ p j g, holds m (.table p j) = some g → holds m' (.table p j) = some g
  limits : ∀ d, limit m' d = limit m d
  frames : ∀ k, frames m' k = frames m k
  starts : ∀ k, (m'.pool k).phyAddrStart = (m.pool k).phyAddrStart
  sizes : ∀ k, (m'.pool k).poolSize = (m.pool k).poolSize

variable {S T : Option P × ℕ → Prop}

namespace Keeps

theorem refl (m : Mem P) : Keeps S m m :=
  ⟨fun _ _ => rfl, fun _ _ _ h => h, fun _ => rfl, fun _ => rfl, fun _ => rfl, fun _ => rfl⟩

theorem mono (h : Keeps S m m') (hST : ∀ pg, S pg → T pg) : Keeps T m m' :=
  ⟨fun pg hpg => h.pages pg fun hS => hpg (hST pg hS), h.tables, h.limits, h.frames, h.starts,
    h.sizes⟩

theorem trans (h₁ : Keeps S m m') (h₂ : Keeps S m' m'') : Keeps S m m'' :=
  ⟨fun pg hpg => (h₂.pages pg hpg).trans (h₁.pages pg hpg),
    fun p j g h => h₂.tables p j g (h₁.tables p j g h),
    fun d => (h₂.limits d).trans (h₁.limits d), fun k => (h₂.frames k).trans (h₁.frames k),
    fun k => (h₂.starts k).trans (h₁.starts k), fun k => (h₂.sizes k).trans (h₁.sizes k)⟩

theorem frameAt_eq (h : Keeps S m m') (k : PoolFlags) (j : ℕ) : frameAt m' k j = frameAt m k j := by
  rw [frameAt, frameAt, h.starts]

theorem inPool_iff (h : Keeps S m m') : InPool m' k f ↔ InPool m k f := by
  simp only [InPool, h.frames, h.frameAt_eq]

theorem setFrame (j : ℕ) (v : Bool) : Keeps S m (setFrame m k j v) where
  pages pg _ := by rw [setFrame_holds]
  tables p j g h := by rwa [setFrame_holds]
  limits d := by cases k <;> rfl
  frames l := setFrame_frames v
  starts l := by cases k <;> cases l <;> rfl
  sizes l := by cases k <;> cases l <;> rfl

variable [DecidableEq P]

theorem setVbit (pg : Option P × ℕ) (v : Bool) : Keeps S m (setVbit m pg v) where
  pages q _ := by rw [setVbit_holds]
  tables p j g h := by rwa [setVbit_holds]
  limits d := setVbit_limit v
  frames l := by
    obtain ⟨d, i⟩ := pg
    cases d <;> cases l <;> rfl
  starts l := by
    obtain ⟨d, i⟩ := pg
    cases d <;> cases l <;> rfl
  sizes l := by
    obtain ⟨d, i⟩ := pg
    cases d <;> cases l <;> rfl

theorem setPte (hi : Inv m pend stuck flight) (hv : pg.2 < limit m pg.1)
    (htp : hasTable m pg = true) (e : Entry) :
    Keeps (· = pg) m (m.setPte pg.1 (vaddrOf pg) e) where
  pages q hq := by
    rw [holds_setPte hi hv htp, Function.update_of_ne fun h => hq (Owner.page.inj h)]
  tables p j g h := by
    rwa [holds_setPte hi hv htp, Function.update_of_ne (Owner.page_ne_table pg p j).symm]
  limits d := by cases d <;> rfl
  frames l := by cases l <;> rfl
  starts l := by cases l <;> rfl
  sizes l := by cases l <;> rfl

theorem newTable (hi : Inv m pend stuck flight) (hf : flight f) (hk : InPool m .kernel f)
    (hj : j < 768) (habs : (m.pde (some p) j).p = false) : Keeps S m (newTable m p j f) where
  pages q _ := by
    rw [newTable_holds hi hf hk hj habs, Function.update_of_ne (Owner.page_ne_table q p j)]
  tables p' j' g h := by
    rw [newTable_holds hi hf hk hj habs]
    rw [Function.update_of_ne, h]
    intro he
    rw [he, holds, if_neg fun h => by rw [habs] at h; cases h.2] at h
    cases h
  limits d := by cases d <;> rfl
  frames l := by cases l <;> rfl
  starts l := by cases l <;> rfl
  sizes l := by cases l <;> rfl

end Keeps

theorem Inv.congr (hi : Inv m pend stuck flight) (hp : ∀ q, pend' q ↔ pend q)
    (hf : ∀ f, flight' f ↔ flight f) : Inv m pend' stuck flight' := by
  have hp' : pend' = pend := funext fun q => propext (hp q)
  have hf' : flight' = flight := funext fun f => propext (hf f)
  rw [hp', hf']
  exact hi

/-- A page whose bit is clear is not mapped. -/
theorem holds_none_of_bit (hi : Inv m pend stuck flight) (hbit : vbit m pg = false) :
    holds m (.page pg) = none := by
  rw [holds, if_neg]
  rintro ⟨hv, hp⟩
  have := (hi.bit_iff pg hv).mpr (Or.inl hp)
  rw [hbit] at this
  cases this

/-! ## Allocation -/

/-- The pool has no free frame left. -/
def outOfFrames : Halt := .panic "bitmap_scan" "idx_byte < btmp->btmp_bytes_len"

/-- `palloc` takes a free frame, or fails the assertion of `bitmap_scan`. -/
theorem palloc_spec (hi : Inv m pend stuck flight) (k : PoolFlags) :
    palloc m k = .error outOfFrames ∨
      ∃ m' f, palloc m k = .ok (m', some f) ∧ InPool m k f ∧ ¬used m f ∧ holds m' = holds m ∧
        m'.pde = m.pde ∧ m'.pt = m.pt ∧ Keeps S m m' ∧
        Inv m' pend stuck fun g => g = f ∨ flight g := by
  simp only [palloc]
  rcases bitmapScan_one (m.pool k).poolBitmap with ⟨j, hok, hlt, hbit, -⟩ | ⟨herr, -⟩
  · have hj : j < frames m k := hlt
    refine Or.inr ⟨setFrame m k j true, frameAt m k j, ?_, ⟨j, hj, rfl⟩, ?_, setFrame_holds true,
      ?_, ?_, Keeps.setFrame j true, inv_alloc hi hj hbit⟩
    · rw [hok]
      rfl
    · rintro ⟨l, i, hil, hf, hb⟩
      obtain ⟨rfl, rfl⟩ := frameAt_inj hi.geo hj hil hf
      rw [hbit] at hb
      cases hb
    · cases k <;> rfl
    · cases k <;> rfl
  · rw [herr]
    exact Or.inl rfl

theorem hasTable_of_kernel (hg : Geo m) (hv : pg.2 < limit m pg.1) (hd : pg.1 = none) :
    hasTable m pg = true := by
  obtain ⟨d, i⟩ := pg
  simp only at hd
  subst hd
  rcases limit_le hg hv with ⟨-, hi'⟩ | ⟨⟨p, hp⟩, -⟩
  · unfold hasTable
    rw [pde_kernel hg _ hi']
  · cases hp

variable [DecidableEq P]

/-- `page_table_add` maps a page whose bit is set to a frame in flight. -/
theorem pageTableAdd_spec (hi : Inv m pend stuck flight) (hp : pend pg)
    (hd : pg.1 = none ∨ pg.1 = cur) (hf : flight f) (hk : InPool m (pfOf pg.1) f) :
    pageTableAdd m cur (vaddrOf pg) f = .error outOfFrames ∨
      ∃ m', pageTableAdd m cur (vaddrOf pg) f = .ok m' ∧ Keeps (· = pg) m m' ∧
        holds m' (.page pg) = some f ∧
        Inv m' (fun q => q ≠ pg ∧ pend q) stuck fun g => g ≠ f ∧ flight g := by
  obtain ⟨hv, hpres⟩ := hi.pend_spec pg hp
  unfold pageTableAdd
  rw [pde_eq hi.geo hv hd]
  by_cases ht : hasTable m pg = true
  · have hpte : (m.pte pg.1 (vaddrOf pg)).p = false := by
      rw [present, ht, Bool.true_and] at hpres
      exact hpres
    have hpde : (m.pde pg.1 (pdeIdx (vaddrOf pg))).p = true := ht
    rw [if_pos hpde, pte_eq hi.geo hv hd, if_pos hpte, setPte_eq hi.geo hv hd]
    refine Or.inr ⟨_, rfl, Keeps.setPte hi hv ht _, ?_, inv_map hi hp ht hf hk⟩
    rw [holds_setPte hi hv ht, Function.update_self, if_pos rfl]
  · -- the page is one of a process, and its page table has to be created
    have hpde : ¬(m.pde pg.1 (pdeIdx (vaddrOf pg))).p = true := ht
    rw [if_neg hpde]
    obtain ⟨d, i⟩ := pg
    cases d with
    | none => exact absurd (hasTable_of_kernel hi.geo hv rfl) ht
    | some p =>
      obtain rfl : cur = some p := by
        rcases hd with h | h
        · cases h
        · exact h.symm
      have hidx : i < 753592 := by
        rcases limit_le hi.geo hv with ⟨h, -⟩ | ⟨-, h⟩
        · cases h
        · exact h
      have hj : pdeIdx (vaddrOf (some p, i)) < 768 := by
        rw [pdeIdx_user hidx]
        omega
      rcases palloc_spec (S := (· = (some p, i))) hi .kernel with
        herr | ⟨m₁, g, hok, hg, hgu, hh₁, hpde₁, hpt₁, hk₁, hi₁⟩
      · rw [herr]
        exact Or.inl rfl
      · have habs : (m₁.pde (some p) (pdeIdx (vaddrOf (some p, i)))).p = false := by
          rw [hpde₁]
          simpa using hpde
        have hg₁ : InPool m₁ .kernel g := hk₁.inPool_iff.mpr hg
        have hi₂ := inv_newTable hi₁ (Or.inl rfl) hg₁ hj habs
        have hk₂ := Keeps.newTable (S := (· = (some p, i))) hi₁ (Or.inl rfl) hg₁ hj habs
        set m₂ := newTable m₁ p (pdeIdx (vaddrOf (some p, i))) g with hm₂
        have ht₂ : hasTable m₂ (some p, i) = true := by
          unfold hasTable
          rw [hm₂, newTable_pde_self]
        have hfg : f ≠ g := by
          rintro rfl
          exact hi.owns.not_flight_of_not_used hgu hf
        have hk' : InPool m₂ (pfOf (some p)) f := hk₂.inPool_iff.mpr (hk₁.inPool_iff.mpr hk)
        have hv₂ := (hi₂.pend_spec _ hp).1
        have hpte : (m₂.pte (some p) (vaddrOf (some p, i))).p = false := by
          unfold Mem.pte
          rw [hm₂, newTable_pde_self]
          simp [newTable]
        refine Or.inr ⟨m₂.setPte (some p) (vaddrOf (some p, i)) ⟨f, true⟩, ?_, ?_, ?_, ?_⟩
        · rw [hok]
          exact assert_bind_of hpte _
        · exact (hk₁.trans hk₂).trans (Keeps.setPte hi₂ hv₂ ht₂ _)
        · have := holds_setPte hi₂ hv₂ ht₂ ⟨f, true⟩
          rw [this, Function.update_self, if_pos rfl]
        · refine (inv_map hi₂ hp ht₂ ⟨hfg, Or.inr hf⟩ hk').congr (fun q => Iff.rfl) fun h => ?_
          constructor
          · rintro ⟨hhf, hfl⟩
            refine ⟨hhf, ?_, Or.inr hfl⟩
            rintro rfl
            exact hi.owns.not_flight_of_not_used hgu hfl
          · rintro ⟨hhf, hhg, hfl⟩
            exact ⟨hhf, hfl.resolve_left hhg⟩

/-- The pages `st`, …, `st + n - 1` of the pool of `d`. -/
def InRun (d : Option P) (st n : ℕ) (q : Option P × ℕ) : Prop := q.1 = d ∧ st ≤ q.2 ∧ q.2 < st + n

/-- No page is pending and no frame is in flight. -/
abbrev Settled (m : Mem P) (stuck : Option P × ℕ → Prop) : Prop :=
  Inv m (fun _ => False) stuck fun _ => False

omit [DecidableEq P] in
theorem inRun_succ : InRun d st (n + 1) q ↔ q = (d, st) ∨ InRun d (st + 1) n q := by
  obtain ⟨e, i⟩ := q
  simp only [InRun, Prod.mk.injEq]
  constructor
  · rintro ⟨rfl, h1, h2⟩
    by_cases hi : i = st
    · exact Or.inl ⟨rfl, hi⟩
    · exact Or.inr ⟨rfl, by omega, by omega⟩
  · rintro (⟨rfl, rfl⟩ | ⟨rfl, h1, h2⟩)
    · exact ⟨rfl, by omega, by omega⟩
    · exact ⟨rfl, by omega, by omega⟩

omit [DecidableEq P] in
theorem vaddrOf_succ : vaddrOf (d, st) + pgSize = vaddrOf (d, st + 1) := by
  simp only [vaddrOf, pgSize]
  omega

omit [DecidableEq P] in
/-- Without its first page a run goes on at the next one. -/
theorem Inv.next (hi : Inv m (fun q => q ≠ (d, st) ∧ InRun d st (n + 1) q) stuck flight) :
    Inv m (InRun d (st + 1) n) stuck flight := by
  refine hi.congr (fun q => ?_) fun _ => Iff.rfl
  rw [inRun_succ]
  constructor
  · intro h
    refine ⟨?_, Or.inr h⟩
    rintro rfl
    have := h.2
    simp only at this
    omega
  · rintro ⟨hne, h⟩
    exact h.resolve_left hne

/-- A page is given a frame, as the loop of `malloc_page` and `get_a_page` do. -/
theorem mapPage_spec (hi : Inv m pend stuck fun _ => False) (hp : pend pg)
    (hd : pg.1 = none ∨ pg.1 = cur) :
    palloc m (pfOf pg.1) = .error outOfFrames ∨
      ∃ m₁ f, palloc m (pfOf pg.1) = .ok (m₁, some f) ∧
        (pageTableAdd m₁ cur (vaddrOf pg) f = .error outOfFrames ∨
          ∃ m', pageTableAdd m₁ cur (vaddrOf pg) f = .ok m' ∧ Keeps (· = pg) m m' ∧
            holds m' (.page pg) = some f ∧
            Inv m' (fun q => q ≠ pg ∧ pend q) stuck fun _ => False) := by
  rcases palloc_spec (S := (· = pg)) hi (pfOf pg.1) with
    herr | ⟨m₁, f, hok, hk, -, -, -, -, hk₁, hi₁⟩
  · exact Or.inl herr
  · refine Or.inr ⟨m₁, f, hok, ?_⟩
    rcases pageTableAdd_spec hi₁ hp hd (Or.inl rfl) (hk₁.inPool_iff.mpr hk) with
      herr | ⟨m', hok', hk', hh', hi'⟩
    · exact Or.inl herr
    · refine Or.inr ⟨m', hok', hk₁.trans hk', hh', hi'.congr (fun q => Iff.rfl) fun g => ?_⟩
      simp

/-- The loop of `malloc_page` maps every page of a run. -/
theorem mallocLoop_spec (hd : d = none ∨ d = cur) (hi : Inv m (InRun d st n) stuck fun _ => False) :
    mallocLoop cur (pfOf d) n (vaddrOf (d, st)) m = .error outOfFrames ∨
      ∃ m', mallocLoop cur (pfOf d) n (vaddrOf (d, st)) m = .ok (m', true) ∧
        Keeps (InRun d st n) m m' ∧ (∀ q, InRun d st n q → holds m' (.page q) ≠ none) ∧
        Settled m' stuck := by
  induction n generalizing st m with
  | zero =>
    refine Or.inr ⟨m, rfl, Keeps.refl m, fun q hq => ?_, hi.congr (fun q => ?_) fun _ => Iff.rfl⟩
    · have := hq.2
      omega
    · simp only [InRun, false_iff]
      omega
  | succ n ih =>
    rcases mapPage_spec hi (inRun_succ.mpr (Or.inl rfl)) hd with
      herr | ⟨m₁, f, hok, herr | ⟨m₂, hok₂, hk₂, hh₂, hi₂⟩⟩
    · refine Or.inl ?_
      simp only [mallocLoop]
      rw [herr]
      rfl
    · refine Or.inl ?_
      simp only [mallocLoop]
      rw [hok, ok_bind]
      simp only [herr, error_bind]
    · have hstep : mallocLoop cur (pfOf d) (n + 1) (vaddrOf (d, st)) m =
          mallocLoop cur (pfOf d) n (vaddrOf (d, st + 1)) m₂ := by
        simp only [mallocLoop]
        rw [hok, ok_bind]
        simp only [hok₂, ok_bind, vaddrOf_succ]
      rw [hstep]
      rcases ih hi₂.next with herr | ⟨m', hok', hk', hall, hi'⟩
      · exact Or.inl herr
      · refine Or.inr ⟨m', hok', ?_, fun q hq => ?_, hi'⟩
        · refine (hk₂.mono fun q hq => ?_).trans (hk'.mono fun q hq => ?_)
          · exact inRun_succ.mpr (Or.inl hq)
          · exact inRun_succ.mpr (Or.inr hq)
        · rcases inRun_succ.mp hq with rfl | hq
          · rw [hk'.pages, hh₂]
            · nofun
            · intro h
              have := h.2
              simp only at this
              omega
          · exact hall q hq

/-! ## Runs of bits -/

/-- The bits of the pages `st`, …, `st + n - 1` are set to `v`. -/
def markRun (m : Mem P) (d : Option P) (st : ℕ) (v : Bool) : ℕ → Mem P
  | 0 => m
  | n + 1 => setVbit (markRun m d st v n) (d, st + n) v

omit [DecidableEq P] in
theorem vaddr_eq (hd : d = none ∨ d = cur) : m.vaddr cur (pfOf d) = m.vaddr d (pfOf d) := by
  rcases hd with rfl | rfl <;> rfl

/-- The loops of `vaddr_get` and `vaddr_remove`. -/
theorem setVaddr_run (hd : d = none ∨ d = cur) (st n : ℕ) (v : Bool) :
    m.setVaddr cur { m.vaddr cur (pfOf d) with
      vaddrBitmap := bitmapSetRun (m.vaddr cur (pfOf d)).vaddrBitmap st v n } (pfOf d) =
        markRun m d st v n := by
  induction n with
  | zero =>
    cases d with
    | none => rfl
    | some p =>
      obtain rfl : cur = some p := by
        rcases hd with h | h
        · cases h
        · exact h.symm
      simp only [bitmapSetRun, markRun, pfOf, Mem.setVaddr, Mem.vaddr, Function.update_eq_self]
  | succ n ih =>
    unfold markRun
    rw [← ih]
    cases d with
    | none => rfl
    | some p =>
      obtain rfl : cur = some p := by
        rcases hd with h | h
        · cases h
        · exact h.symm
      simp only [setVbit, bitmapSetRun, pfOf, Mem.setVaddr, Mem.vaddr, Function.update_self,
        Function.update_idem]

theorem markRun_keeps (v : Bool) : Keeps S m (markRun m d st v n) := by
  induction n with
  | zero => exact Keeps.refl m
  | succ n ih => exact ih.trans (Keeps.setVbit _ v)

theorem markRun_vbit (v : Bool) (hq : ¬InRun d st n q) :
    vbit (markRun m d st v n) q = vbit m q := by
  induction n with
  | zero => rfl
  | succ n ih =>
    unfold markRun
    rw [setVbit_vbit, if_neg, ih]
    · exact fun h => hq ⟨h.1, h.2.1, by have := h.2.2; omega⟩
    · rintro rfl
      exact hq ⟨rfl, Nat.le_add_right st n, by simp⟩

theorem markRun_pde (v : Bool) : (markRun m d st v n).pde = m.pde := by
  induction n with
  | zero => rfl
  | succ n ih =>
    unfold markRun
    rw [← ih]
    cases d <;> rfl

theorem markRun_pool (v : Bool) (k : PoolFlags) : (markRun m d st v n).pool k = m.pool k := by
  induction n with
  | zero => rfl
  | succ n ih =>
    unfold markRun
    rw [← ih]
    cases d <;> cases k <;> rfl

omit [DecidableEq P] in
theorem inRun_snoc : InRun d st (n + 1) q ↔ q = (d, st + n) ∨ InRun d st n q := by
  obtain ⟨e, i⟩ := q
  simp only [InRun, Prod.mk.injEq]
  constructor
  · rintro ⟨rfl, h1, h2⟩
    by_cases hi : i = st + n
    · exact Or.inl ⟨rfl, hi⟩
    · exact Or.inr ⟨rfl, h1, by omega⟩
  · rintro (⟨rfl, rfl⟩ | ⟨rfl, h1, h2⟩)
    · exact ⟨rfl, by omega, by omega⟩
    · exact ⟨rfl, by omega, by omega⟩

omit [DecidableEq P] in
theorem not_inRun_end : ¬InRun d st n (d, st + n) := by
  intro h
  have := h.2.2
  simp only at this
  omega

/-- A run of free pages is marked. -/
theorem inv_markRun (hi : Inv m pend stuck flight) (hl : st + n ≤ limit m d)
    (hfree : ∀ i, st ≤ i → i < st + n → vbit m (d, i) = false) :
    Inv (markRun m d st true n) (fun q => InRun d st n q ∨ pend q) stuck flight := by
  induction n with
  | zero =>
    refine hi.congr (fun q => ?_) fun _ => Iff.rfl
    unfold InRun
    constructor
    · rintro (h | h)
      · omega
      · exact h
    · exact Or.inr
  | succ n ih =>
    have hi' := ih (by omega) fun i h1 h2 => hfree i h1 (by omega)
    have hlim : st + n < limit (markRun m d st true n) d := by
      rw [(markRun_keeps (S := fun _ => True) true).limits]
      omega
    have hbit : vbit (markRun m d st true n) (d, st + n) = false := by
      rw [markRun_vbit true not_inRun_end]
      exact hfree _ (by omega) (by omega)
    refine (inv_mark hi' hlim hbit).congr (fun q => ?_) fun _ => Iff.rfl
    rw [inRun_snoc, or_assoc]

/-- A run of unmapped pages is unmarked. -/
theorem inv_unmarkRun (hi : Inv m (fun q => InRun d st n q ∨ pend q) stuck flight)
    (hp : ∀ q, pend q → ¬InRun d st n q) : Inv (markRun m d st false n) pend stuck flight := by
  have hall : ∀ k, k ≤ n → Inv (markRun m d st false k)
      (fun q => (InRun d st n q ∧ ¬InRun d st k q) ∨ pend q) stuck flight := by
    intro k hk
    induction k with
    | zero =>
      refine hi.congr (fun q => ?_) fun _ => Iff.rfl
      have : ¬InRun d st 0 q := fun h => by have := h.2; omega
      simp [this]
    | succ k ih =>
      have hrun : InRun d st n (d, st + k) := ⟨rfl, by simp, by simp only; omega⟩
      refine (inv_unmark (ih (by omega)) (Or.inl ⟨hrun, not_inRun_end⟩)).congr (fun q => ?_)
        fun _ => Iff.rfl
      rw [inRun_snoc, not_or]
      constructor
      · rintro (⟨h1, h2, h3⟩ | h)
        · exact ⟨h2, Or.inl ⟨h1, h3⟩⟩
        · exact ⟨fun he => hp q h (he ▸ hrun), Or.inr h⟩
      · rintro ⟨h1, ⟨h2, h3⟩ | h⟩
        · exact Or.inl ⟨h2, h1, h3⟩
        · exact Or.inr h
  refine (hall n (Nat.le_refl n)).congr (fun q => ?_) fun _ => Iff.rfl
  constructor
  · exact Or.inr
  · rintro (⟨h1, h2⟩ | h)
    · exact absurd h1 h2
    · exact h

/-! ## `malloc_page` -/

def vaddrTooHigh : Halt :=
  .panic "vaddr_get" "(uint32_t)vaddr_start < (0xc0000000 - PG_SIZE)"

def pteRepeat : Halt := .panic "page_table_add" "pte repeat"

/-- The search for `cnt` pages runs past the end of the bitmap: no run of `cnt` clear bits lies
inside, but the last `cnt - 1` bits and the one after them are clear.  (For `cnt = 2` the assertion
of `vaddr_get` stops such a run.) -/
def PastEnd (b : Bitmap) (cnt : ℕ) : Prop :=
  3 ≤ cnt ∧ Clear b (8 * b.btmpBytesLen + 1 - cnt) cnt ∧
    ∀ st, st + cnt ≤ 8 * b.btmpBytesLen → ¬Clear b st cnt

/-- The bitmap of the pool of `d`. -/
def vbitmap (m : Mem P) (d : Option P) : Bitmap := (m.vaddr d (pfOf d)).vaddrBitmap

omit [DecidableEq P] in
theorem vaddrStart_eq (hg : Geo m) (d : Option P) : (m.vaddr d (pfOf d)).vaddrStart = poolStart d := by
  cases d with
  | none => exact hg.kernelVaddr
  | some p => exact hg.userVaddr p

omit [DecidableEq P] in
theorem limit_eq (hg : Geo m) (d : Option P) :
    limit m d = 8 * (vbitmap m d).btmpBytesLen + 1 ∧ d = none ∨
      (limit m d = 8 * (vbitmap m d).btmpBytesLen ∧ limit m d = 753592 ∧ ∃ p, d = some p) := by
  cases d with
  | none => exact Or.inl ⟨rfl, rfl⟩
  | some p =>
    refine Or.inr ⟨rfl, ?_, p, rfl⟩
    rw [limit, hg.userPages p]

theorem vaddrGet_of_error {x : Halt} (hd : d = none ∨ d = cur)
    (hscan : bitmapScan (vbitmap m d) n = .error x) : vaddrGet m cur (pfOf d) n = .error x := by
  rw [vbitmap] at hscan
  simp only [vaddrGet, vaddr_eq hd]
  rw [hscan]
  rfl

theorem vaddrGet_of_none (hd : d = none ∨ d = cur)
    (hscan : bitmapScan (vbitmap m d) n = .ok none) :
    vaddrGet m cur (pfOf d) n = .ok (m, none) := by
  rw [vbitmap] at hscan
  simp only [vaddrGet, vaddr_eq hd]
  rw [hscan]
  rfl

/-- `vaddr_get` marks the run that `bitmap_scan` finds. -/
theorem vaddrGet_eq (hg : Geo m) (hd : d = none ∨ d = cur)
    (hscan : bitmapScan (vbitmap m d) n = .ok (some st)) :
    vaddrGet m cur (pfOf d) n =
      if d = none ∨ vaddrOf (d, st) < 0xc0000000 - pgSize then
        .ok (markRun m d st true n, some (vaddrOf (d, st)))
      else .error vaddrTooHigh := by
  have hrun := setVaddr_run (m := m) hd st n true
  rw [vaddr_eq hd] at hrun
  have hstart : (m.vaddr d (pfOf d)).vaddrStart + st * pgSize = vaddrOf (d, st) := by
    rw [vaddrStart_eq hg, vaddrOf]
  rw [vbitmap] at hscan
  simp only [vaddrGet, vaddr_eq hd]
  rw [hscan, ok_bind]
  simp only [hrun, hstart]
  cases d with
  | none => rfl
  | some p =>
    by_cases hlow : vaddrOf (some p, st) < 0xc0000000 - pgSize
    · rw [if_pos (Or.inr hlow)]
      exact assert_bind_of hlow _
    · rw [if_neg (by simp [hlow])]
      exact assert_bind_of_not hlow _

/-- `vaddr_get` marks the first run of free pages.  For a process the run may stick out of the pool
by one page. -/
theorem vaddrGet_spec (hg : Geo m) (hd : d = none ∨ d = cur) (hn : 1 ≤ n) :
    (∃ x, vaddrGet m cur (pfOf d) n = .error x ∧ (x = outOfFrames ∨ x = vaddrTooHigh)) ∨
    vaddrGet m cur (pfOf d) n = .ok (m, none) ∨
    ∃ st, vaddrGet m cur (pfOf d) n = .ok (markRun m d st true n, some (vaddrOf (d, st))) ∧
      Clear (vbitmap m d) st n ∧
      (st + n ≤ limit m d ∨
        (∃ p, d = some p) ∧ st + n = limit m d + 1 ∧ PastEnd (vbitmap m d) n) := by
  rcases bitmapScan_spec (b := vbitmap m d) hn with
    ⟨herr, -⟩ | ⟨st, hok, hclear, hend, hone, hfirst⟩ | ⟨hok, -, -⟩
  · exact Or.inl ⟨outOfFrames, vaddrGet_of_error hd herr, Or.inl rfl⟩
  · have hget := vaddrGet_eq hg hd hok
    by_cases hlow : d = none ∨ vaddrOf (d, st) < 0xc0000000 - pgSize
    · rw [if_pos hlow] at hget
      refine Or.inr (Or.inr ⟨st, hget, hclear, ?_⟩)
      rcases limit_eq hg d with ⟨hlim, rfl⟩ | ⟨hlim, hsize, p, rfl⟩
      · exact Or.inl (by rw [hlim]; exact hend)
      · by_cases hin : st + n ≤ limit m (some p)
        · exact Or.inl hin
        · have hout : st + n = limit m (some p) + 1 := by omega
          have hthree : 3 ≤ n := by
            have hlow := hlow.resolve_left (Option.some_ne_none p)
            simp only [vaddrOf, poolStart, userVaddrStart, pgSize] at hlow
            omega
          refine Or.inr ⟨⟨p, rfl⟩, hout, hthree, ?_, fun st' hst' => hfirst st' (by omega)⟩
          rw [show 8 * (vbitmap m (some p)).btmpBytesLen + 1 - n = st by omega]
          exact hclear
    · rw [if_neg hlow] at hget
      exact Or.inl ⟨vaddrTooHigh, hget, Or.inr rfl⟩
  · exact Or.inr (Or.inl (vaddrGet_of_none hd hok))

/-- An update of a virtual pool leaves the page tables and the frames alone. -/
theorem setVaddr_tables (v : VirtualAddr) :
    (m.setVaddr cur v pf).pde = m.pde ∧ (m.setVaddr cur v pf).pt = m.pt ∧
      ∀ k, (m.setVaddr cur v pf).pool k = m.pool k := by
  refine ⟨?_, ?_, fun k => ?_⟩
  · cases pf <;> rfl
  · cases pf <;> rfl
  · cases pf <;> cases k <;> rfl

theorem vaddrGet_tables {r : Option ℕ} (h : vaddrGet m cur pf n = .ok (m', r)) :
    m'.pde = m.pde ∧ m'.pt = m.pt ∧ ∀ k, m'.pool k = m.pool k := by
  unfold vaddrGet at h
  dsimp only at h
  obtain ⟨start, -, h⟩ := bind_eq_ok.mp h
  cases start with
  | none =>
    cases h
    exact ⟨rfl, rfl, fun _ => rfl⟩
  | some start =>
    cases pf with
    | kernel =>
      cases h
      exact setVaddr_tables _
    | user =>
      obtain ⟨-, h⟩ := assert_bind_eq_ok.mp h
      cases h
      exact setVaddr_tables _

/-- A page past the end of a process's pool has the address of the kernel's first page. -/
theorem pageTableAdd_pastEnd (hg : Geo m) (d : Option P) (hf : st = 753592) :
    pageTableAdd m d (vaddrOf (some p, st)) f = .error pteRepeat := by
  have haddr : vaddrOf (some p, st) = 0xc0000000 := by
    simp only [vaddrOf, poolStart, userVaddrStart, pgSize]
    omega
  have hpde : m.pde d (pdeIdx (vaddrOf (some p, st))) = ⟨0x101000, true⟩ := by
    rw [haddr]
    exact hg.kernelPde d 768 (Nat.le_refl _) (by decide)
  have hpte : (m.pte d (vaddrOf (some p, st))).p = true := by
    unfold Mem.pte
    rw [hpde, haddr]
    exact hg.lowPte
  unfold pageTableAdd
  rw [hpde, if_pos rfl, if_neg (by simp [hpte])]
  rfl

theorem mallocLoop_snoc (v : ℕ) :
    mallocLoop cur pf (n + 1) v m = (do
      let (m, done) ← mallocLoop cur pf n v m
      if done then mallocLoop cur pf 1 (v + n * pgSize) m else .ok (m, false)) := by
  induction n generalizing v m with
  | zero =>
    rw [Nat.zero_mul, Nat.add_zero]
    rfl
  | succ n ih =>
    rw [mallocLoop]
    conv_rhs => rw [mallocLoop]
    cases hp : palloc m pf with
    | error x => rfl
    | ok r =>
      obtain ⟨m₁, phy⟩ := r
      cases phy with
      | none => rfl
      | some f =>
        simp only [ok_bind]
        cases ht : pageTableAdd m₁ cur v f with
        | error x => rfl
        | ok m₂ =>
          simp only [ok_bind]
          rw [ih]
          rw [show v + pgSize + n * pgSize = v + (n + 1) * pgSize by rw [Nat.add_mul]; omega]

/-- A bit past the end of a pool is no page's. -/
theorem inv_setVbit_out (hi : Inv m pend stuck flight) (hout : limit m pg.1 ≤ pg.2) (v : Bool) :
    Inv (setVbit m pg v) pend stuck flight := by
  refine ⟨setVbit_geo hi.geo v, fun q hq => ?_, fun q hq => ?_, fun q hq => ?_, ?_, ?_⟩
  · rw [setVbit_limit] at hq
    have hqp : q ≠ pg := by
      rintro rfl
      omega
    rw [setVbit_vbit, setVbit_present, if_neg hqp]
    exact hi.bit_iff q hq
  · rw [setVbit_limit, setVbit_present]
    exact hi.pend_spec q hq
  · rw [setVbit_limit, setVbit_present]
    exact hi.stuck_spec q hq
  · rw [setVbit_holds, setVbit_inPool]
    exact hi.kind
  · rw [setVbit_used, setVbit_holds]
    exact hi.owns

/-- The loop of `malloc_page` on a run that sticks out of a process's pool ends in a panic. -/
theorem mallocLoop_pastEnd (hi : Settled m stuck) (hd : d = cur) (hp : d = some p)
    (hend : st + n = limit m d) (hclear : Clear (vbitmap m d) st (n + 1)) :
    mallocLoop cur (pfOf d) (n + 1) (vaddrOf (d, st)) (markRun m d st true (n + 1)) =
        .error outOfFrames ∨
      mallocLoop cur (pfOf d) (n + 1) (vaddrOf (d, st)) (markRun m d st true (n + 1)) =
        .error pteRepeat := by
  subst hd hp
  have hlimit : limit m (some p) = 753592 := by
    rcases limit_eq hi.geo (some p) with ⟨-, h⟩ | ⟨-, h, -⟩
    · cases h
    · exact h
  have hmark := inv_markRun hi (d := some p) (n := n) (by omega) fun i h1 h2 =>
    hclear i h1 (by omega)
  have hi₁ : Inv (markRun m (some p) st true (n + 1)) (InRun (some p) st n) stuck
      fun _ => False := by
    refine (inv_setVbit_out hmark ?_ true).congr (fun q => by simp)
      fun _ => Iff.rfl
    rw [(markRun_keeps (S := fun _ => True) true).limits]
    simp only
    omega
  rw [mallocLoop_snoc]
  rcases mallocLoop_spec (Or.inr rfl) hi₁ with herr | ⟨m₂, hok, -, -, hi₂⟩
  · exact Or.inl (by rw [herr]; rfl)
  · rw [hok, ok_bind]
    have haddr : vaddrOf (some p, st) + n * pgSize = vaddrOf (some p, st + n) := by
      simp only [vaddrOf, pgSize]
      omega
    simp only [if_true, haddr, mallocLoop]
    rcases palloc_spec (S := fun _ => True) hi₂ (pfOf (some p)) with
      herr | ⟨m₃, f, hok₃, -, -, -, -, -, -, hi₃⟩
    · exact Or.inl (by rw [herr]; rfl)
    · refine Or.inr ?_
      rw [hok₃, ok_bind]
      simp only [pageTableAdd_pastEnd hi₃.geo (some p) (hend.trans hlimit), error_bind]

/-- The ways `malloc_page` fails. -/
inductive MallocHalt : Halt → Prop
  | count : MallocHalt (.panic "malloc_page" "pg_cnt > 0 && pg_cnt < 3840")
  | frames : MallocHalt outOfFrames
  | high : MallocHalt vaddrTooHigh
  | repeat : MallocHalt pteRepeat

/-- **`malloc_page`.**  It fails, or it returns `NULL` and changes nothing, or it returns a run of
pages that were free and are mapped now. -/
theorem mallocPage_spec (hi : Settled m stuck) (hd : d = none ∨ d = cur) :
    (∃ x, mallocPage m cur (pfOf d) n = .error x ∧ MallocHalt x ∧
      (x = pteRepeat → (∃ p, d = some p) ∧ PastEnd (vbitmap m d) n)) ∨
    mallocPage m cur (pfOf d) n = .ok (m, none) ∨
    ∃ m' st, mallocPage m cur (pfOf d) n = .ok (m', some (vaddrOf (d, st))) ∧ 1 ≤ n ∧ n < 3840 ∧
      st + n ≤ limit m d ∧ (∀ q, InRun d st n q → holds m (.page q) = none) ∧
      Keeps (InRun d st n) m m' ∧ (∀ q, InRun d st n q → holds m' (.page q) ≠ none) ∧
      Settled m' stuck := by
  unfold mallocPage
  by_cases hn : 0 < n ∧ n < 3840
  · rw [assert_bind_of hn]
    rcases vaddrGet_spec hi.geo hd hn.1 with
      ⟨x, herr, hx⟩ | hnull | ⟨st, hok, hclear, hin | ⟨⟨p, hp⟩, hend, hpast⟩⟩
    · refine Or.inl ⟨x, by rw [herr]; rfl, ?_, ?_⟩
      · rcases hx with rfl | rfl
        · exact .frames
        · exact .high
      · rcases hx with rfl | rfl <;> nofun
    · refine Or.inr (Or.inl ?_)
      rw [hnull]
      rfl
    · have hfree : ∀ i, st ≤ i → i < st + n → vbit m (d, i) = false := hclear
      have hi₁ : Inv (markRun m d st true n) (InRun d st n) stuck fun _ => False :=
        (inv_markRun hi hin hfree).congr (fun q => by simp) fun _ => Iff.rfl
      rw [hok, ok_bind]
      simp only
      rcases mallocLoop_spec hd hi₁ with herr | ⟨m', hok', hk, hall, hi'⟩
      · exact Or.inl ⟨_, by rw [herr]; rfl, .frames, nofun⟩
      · refine Or.inr (Or.inr ⟨m', st, by rw [hok']; rfl, hn.1, hn.2, hin, fun q hq => ?_,
          (markRun_keeps true).trans hk, hall, hi'⟩)
        obtain ⟨e, i⟩ := q
        obtain ⟨rfl, h1, h2⟩ := hq
        exact holds_none_of_bit hi (hfree i h1 h2)
    · refine Or.inl ?_
      have hcur : d = cur := by
        rcases hd with h | h
        · rw [hp] at h
          cases h
        · exact h
      obtain ⟨k, rfl⟩ : ∃ k, n = k + 1 := ⟨n - 1, by omega⟩
      rw [hok, ok_bind]
      simp only
      rcases mallocLoop_pastEnd hi hcur hp (by omega) hclear with herr | herr
      · exact ⟨_, by rw [herr]; rfl, .frames, nofun⟩
      · exact ⟨_, by rw [herr]; rfl, .repeat, fun _ => ⟨⟨p, hp⟩, hpast⟩⟩
  · exact Or.inl ⟨_, assert_bind_of_not hn _, .count, nofun⟩

/-- A kernel thread has no pool of its own, so `malloc_page(PF_USER, …)` fails. -/
theorem mallocPage_thread (hg : Geo m) :
    ∃ x, mallocPage m none .user n = .error x ∧ MallocHalt x ∧ x ≠ pteRepeat := by
  unfold mallocPage
  by_cases hn : 0 < n ∧ n < 3840
  · rw [assert_bind_of hn]
    refine ⟨outOfFrames, ?_, .frames, by decide⟩
    simp only [vaddrGet, Mem.vaddr]
    rcases bitmapScan_spec (b := (m.userprogVaddr none).vaddrBitmap) hn.1 with
      ⟨herr, -⟩ | ⟨st, hok, -⟩ | ⟨hok, -⟩
    · rw [herr]
      rfl
    · simp [bitmapScan, hg.threadPages, scanByte, assert, error_bind] at hok
    · simp [bitmapScan, hg.threadPages, scanByte, assert, error_bind] at hok
  · exact ⟨_, assert_bind_of_not hn _, .count, by decide⟩

/-! ## `get_a_page` -/

omit [DecidableEq P] in
theorem pageIdx_offset (hg : Geo m) (hv : pg.2 < limit m pg.1) (hr : i < pgSize) :
    sub32 (vaddrOf pg + i) (m.vaddr pg.1 (pfOf pg.1)).vaddrStart / pgSize = pg.2 := by
  obtain ⟨d, j⟩ := pg
  rw [vaddrStart_eq hg]
  rcases limit_le hg hv with ⟨hd, hj⟩ | ⟨⟨p, hd⟩, hj⟩ <;> simp only at hd hj <;> subst hd <;>
    simp only [vaddrOf, poolStart, kHeapStart, userVaddrStart, pgSize] at hr ⊢ <;>
    rw [sub32_eq (by omega) (by omega)] <;> omega

omit [DecidableEq P] in
/-- The page number of an address in a pool. -/
theorem pageIdx_eq (hg : Geo m) (hv : pg.2 < limit m pg.1) :
    sub32 (vaddrOf pg) (m.vaddr pg.1 (pfOf pg.1)).vaddrStart / pgSize = pg.2 :=
  pageIdx_offset (i := 0) hg hv (by decide)

omit [DecidableEq P] in
theorem vaddrOf_mod : vaddrOf pg % pgSize = 0 := by
  obtain ⟨d, i⟩ := pg
  cases d <;> simp only [vaddrOf, poolStart, kHeapStart, userVaddrStart, pgSize] <;> omega

/-- `page_table_add` looks at the page of an address only. -/
theorem pageTableAdd_offset (hr : i < pgSize) :
    pageTableAdd m cur (vaddrOf pg + i) f = pageTableAdd m cur (vaddrOf pg) f := by
  have hmod : vaddrOf pg % pgSize = 0 := vaddrOf_mod
  simp only [pgSize] at hr hmod
  have hidx : pdeIdx (vaddrOf pg + i) = pdeIdx (vaddrOf pg) := by
    unfold pdeIdx
    omega
  have hpte : ∀ m : Mem P, m.pte cur (vaddrOf pg + i) = m.pte cur (vaddrOf pg) := by
    intro m
    simp only [Mem.pte, pteIdx, hidx]
    congr 1
    omega
  have hset : ∀ (m : Mem P) e, m.setPte cur (vaddrOf pg + i) e = m.setPte cur (vaddrOf pg) e := by
    intro m e
    have hx : pteIdx (vaddrOf pg + i) = pteIdx (vaddrOf pg) := by
      unfold pteIdx
      omega
    simp only [Mem.setPte, hidx, hx]
  unfold pageTableAdd
  rw [hidx, hpte, hset]
  congr 1
  refine bind_congr fun r => ?_
  simp only [hset]
  congr 1
  rw [hpte]

omit [DecidableEq P] in
theorem pfOf_own (d : Option P) : (d ≠ none ∧ pfOf d = .user) ∨ (d = none ∧ pfOf d = .kernel) := by
  cases d <;> simp [pfOf]

/-- The first page of a pool is refused by `get_a_page`. -/
theorem getAPage_first (hg : Geo m) (hv : 0 < limit m d) (hr : i < pgSize) :
    getAPage m d (pfOf d) (vaddrOf (d, 0) + i) = .error (.panic "get_a_page" "bit_idx > 0") := by
  have hidx : sub32 (vaddrOf (d, 0) + i) (m.vaddr d (pfOf d)).vaddrStart / pgSize = 0 :=
    pageIdx_offset hg hv hr
  simp only [getAPage, hidx]
  rw [if_pos (pfOf_own d)]
  exact assert_bind_of_not (Nat.lt_irrefl 0) _

/-- `get_a_page` on an address in a free page of the caller's own pool, the first page excepted. -/
theorem getAPage_spec (hi : Settled m stuck) (hv : pg.2 < limit m pg.1) (hbit : vbit m pg = false)
    (h0 : pg.2 ≠ 0) (hr : i < pgSize) :
    getAPage m pg.1 (pfOf pg.1) (vaddrOf pg + i) = .error outOfFrames ∨
    ∃ m', getAPage m pg.1 (pfOf pg.1) (vaddrOf pg + i) = .ok (m', some (vaddrOf pg + i)) ∧
      Keeps (· = pg) m m' ∧ Settled m' stuck := by
  simp only [getAPage, pageIdx_offset hi.geo hv hr, pageTableAdd_offset hr]
  rw [if_pos (pfOf_own pg.1), assert_bind_of (Nat.pos_of_ne_zero h0)]
  have hi₁ := inv_mark hi hv hbit
  change (palloc (setVbit m pg true) (pfOf pg.1) >>= _) = _ ∨
    ∃ m', (palloc (setVbit m pg true) (pfOf pg.1) >>= _) = _ ∧ _
  rcases mapPage_spec hi₁ (Or.inl rfl) (Or.inr rfl) with
    herr | ⟨m₁, f, hok, herr | ⟨m₂, hok₂, hk₂, -, hi₂⟩⟩
  · exact Or.inl (by rw [herr]; rfl)
  · refine Or.inl ?_
    rw [hok, ok_bind]
    simp only [herr, error_bind]
  · refine Or.inr ⟨m₂, ?_, (Keeps.setVbit pg true).trans hk₂, hi₂.congr (fun q => by simp)
      fun _ => Iff.rfl⟩
    rw [hok, ok_bind]
    simp only [hok₂, ok_bind]

/-! ## `mfree_page` -/

omit [DecidableEq P] in
theorem holds_page (h : holds m (.page pg) ≠ none) :
    pg.2 < limit m pg.1 ∧ present m pg = true ∧
      holds m (.page pg) = some (m.pte pg.1 (vaddrOf pg)).base := by
  rw [holds] at h ⊢
  split at h
  · next hc => exact ⟨hc.1, hc.2, if_pos hc⟩
  · exact absurd rfl h

omit [DecidableEq P] in
/-- The frame of a mapped page, and the pool it lies in. -/
theorem addrV2p_spec (hi : Inv m pend stuck flight) (hd : pg.1 = none ∨ pg.1 = cur)
    (hh : holds m (.page pg) ≠ none) :
    ∃ j, j < frames m (pfOf pg.1) ∧
      addrV2p m cur (vaddrOf pg) = .ok (frameAt m (pfOf pg.1) j) ∧
      (m.pte pg.1 (vaddrOf pg)).base = frameAt m (pfOf pg.1) j := by
  obtain ⟨hv, hp, hheld⟩ := holds_page hh
  obtain ⟨j, hj, hbase⟩ := hi.kind _ _ hheld
  refine ⟨j, hj, ?_, hbase⟩
  have ht : (m.pde cur (pdeIdx (vaddrOf pg))).p = true := by
    rw [pde_eq hi.geo hv hd]
    rw [present, Bool.and_eq_true] at hp
    exact hp.1
  unfold addrV2p
  rw [if_pos ht, pte_eq hi.geo hv hd, hbase, vaddrOf_mod, Nat.add_zero]
  rfl

omit [DecidableEq P] in
/-- The frames of the two pools are told apart by their addresses. -/
theorem frameAt_range (hg : Geo m) (hj : j < frames m k) :
    frameAt m k j % pgSize = 0 ∧ frameAt m k j < 2 ^ 32 ∧
      m.kernelPool.phyAddrStart ≤ frameAt m k j ∧ 0x200000 ≤ frameAt m k j ∧
      (m.userPool.phyAddrStart ≤ frameAt m k j ↔ k = .user) := by
  obtain ⟨n, hn, hn', hs⟩ := hg.userStart
  have hk := hg.kernelStart
  have hu := hg.userFrames
  cases k <;> simp only [frames, frameAt, Mem.pool, hk, hs, pgSize, reduceCtorEq, iff_false,
    iff_true] at hj ⊢ <;> refine ⟨?_, ?_, ?_, ?_, ?_⟩ <;> omega

omit [DecidableEq P] in
/-- `pfree` clears the bit of the frame. -/
theorem pfree_eq (hg : Geo m) (hj : j < frames m k) :
    pfree m (frameAt m k j) = setFrame m k j false := by
  obtain ⟨-, hlt, hlo, -, hpool⟩ := frameAt_range hg hj
  have hidx : sub32 (frameAt m k j) (m.pool k).phyAddrStart / pgSize = j := by
    have hle : (m.pool k).phyAddrStart ≤ frameAt m k j := Nat.le_add_left _ _
    rw [sub32_eq hle hlt, frameAt, Nat.add_sub_cancel, pgSize]
    omega
  have hif : (if m.userPool.phyAddrStart ≤ frameAt m k j then PoolFlags.user else .kernel) = k := by
    cases k with
    | kernel => exact if_neg fun h => by cases hpool.mp h
    | user => exact if_pos (hpool.mpr rfl)
  simp only [pfree, hif, hidx]
  rfl

/-- One page is given back: its frame returns to the pool and its entry is cleared. -/
theorem freePage_spec (hi : Inv m pend stuck fun _ => False) (hd : pg.1 = none ∨ pg.1 = cur)
    (hj : j < frames m (pfOf pg.1)) (hh : holds m (.page pg) ≠ none)
    (hbase : (m.pte pg.1 (vaddrOf pg)).base = frameAt m (pfOf pg.1) j) :
    Keeps (· = pg) m
        (pageTablePteRemove (pfree m (frameAt m (pfOf pg.1) j)) cur (vaddrOf pg)) ∧
      holds (pageTablePteRemove (pfree m (frameAt m (pfOf pg.1) j)) cur (vaddrOf pg)) (.page pg) =
        none ∧
      Inv (pageTablePteRemove (pfree m (frameAt m (pfOf pg.1) j)) cur (vaddrOf pg))
        (fun q => q = pg ∨ pend q) stuck fun _ => False := by
  obtain ⟨hv, hp, -⟩ := holds_page hh
  have ht : hasTable m pg = true := by
    rw [present, Bool.and_eq_true] at hp
    exact hp.1
  have hi₁ := inv_unmap hi hv hp
  rw [hbase] at hi₁
  set e : Entry := ⟨frameAt m (pfOf pg.1) j, false⟩ with he
  -- the two writes are to different parts of the state
  have hcomm : pageTablePteRemove (pfree m (frameAt m (pfOf pg.1) j)) cur (vaddrOf pg) =
      setFrame (m.setPte pg.1 (vaddrOf pg) e) (pfOf pg.1) j false := by
    rw [pfree_eq hi.geo hj, pageTablePteRemove]
    have hg' := setFrame_geo (k := pfOf pg.1) (j := j) hi.geo false
    have hv' : pg.2 < limit (setFrame m (pfOf pg.1) j false) pg.1 := by
      rw [(Keeps.setFrame (S := fun _ => True) j false).limits]
      exact hv
    have hpte : (setFrame m (pfOf pg.1) j false).pte pg.1 (vaddrOf pg) =
        m.pte pg.1 (vaddrOf pg) := by
      cases pfOf pg.1 <;> rfl
    rw [pte_eq hg' hv' hd, setPte_eq hg' hv' hd, hpte, hbase, ← he]
    clear_value e
    cases pfOf pg.1 <;> rfl
  have hk₁ := Keeps.setPte hi hv ht e
  have hj₁ : j < frames (m.setPte pg.1 (vaddrOf pg) e) (pfOf pg.1) := by
    rw [hk₁.frames]
    exact hj
  have hframe : frameAt (m.setPte pg.1 (vaddrOf pg) e) (pfOf pg.1) j = frameAt m (pfOf pg.1) j :=
    hk₁.frameAt_eq _ _
  have hi₂ := inv_free hi₁ hj₁ (Or.inl hframe)
  rw [hcomm]
  refine ⟨hk₁.trans (Keeps.setFrame j false), ?_, hi₂.congr (fun q => Iff.rfl) fun g => ?_⟩
  · rw [setFrame_holds, holds_setPte hi hv ht, Function.update_self, if_neg (by simp)]
  · rw [hframe]
    simp

omit [DecidableEq P] in
theorem not_inRun_start : ¬InRun d (st + 1) n (d, st) := by
  intro h
  have := h.2.1
  simp only at this
  omega

/-- The loop of `mfree_page` unmaps every page of a run. -/
theorem mfreeLoop_spec {inPool : Mem P → ℕ → Bool} {condition : String}
    (hpool : ∀ m j, Geo m → j < frames m (pfOf d) → inPool m (frameAt m (pfOf d) j) = true)
    (hd : d = none ∨ d = cur) (hi : Inv m pend stuck fun _ => False)
    (hall : ∀ q, InRun d st n q → holds m (.page q) ≠ none) :
    ∃ m', mfreeLoop cur inPool condition n (vaddrOf (d, st)) m = .ok m' ∧
      Keeps (InRun d st n) m m' ∧ (∀ q, InRun d st n q → holds m' (.page q) = none) ∧
      Inv m' (fun q => InRun d st n q ∨ pend q) stuck fun _ => False := by
  induction n generalizing st m pend with
  | zero =>
    have hempty : ∀ q, ¬InRun d st 0 q := by
      intro q hq
      have := hq.2
      omega
    exact ⟨m, rfl, Keeps.refl m, fun q hq => absurd hq (hempty q),
      hi.congr (fun q => by simp [hempty q]) fun _ => Iff.rfl⟩
  | succ n ih =>
    have hheld := hall (d, st) (inRun_succ.mpr (Or.inl rfl))
    obtain ⟨j, hj, hv2p, hbase⟩ := addrV2p_spec hi hd hheld
    obtain ⟨hk₁, hnone, hi₁⟩ := freePage_spec hi hd hj hheld hbase
    set m₁ := pageTablePteRemove (pfree m (frameAt m (pfOf d) j)) cur (vaddrOf (d, st)) with hm₁
    have hall₁ : ∀ q, InRun d (st + 1) n q → holds m₁ (.page q) ≠ none := by
      intro q hq
      rw [hk₁.pages q]
      · exact hall q (inRun_succ.mpr (Or.inr hq))
      · rintro rfl
        exact not_inRun_start hq
    obtain ⟨m', hok, hk', hnone', hi'⟩ := ih hi₁ hall₁
    have hassert : frameAt m (pfOf d) j % pgSize = 0 ∧
        inPool m (frameAt m (pfOf d) j) = true :=
      ⟨(frameAt_range hi.geo hj).1, hpool m j hi.geo hj⟩
    refine ⟨m', ?_, ?_, fun q hq => ?_, hi'.congr (fun q => ?_) fun _ => Iff.rfl⟩
    · simp only [mfreeLoop]
      rw [hv2p, ok_bind, assert_bind_of hassert, ← hm₁, vaddrOf_succ]
      exact hok
    · exact (hk₁.mono fun q hq => inRun_succ.mpr (Or.inl hq)).trans
        (hk'.mono fun q hq => inRun_succ.mpr (Or.inr hq))
    · rcases inRun_succ.mp hq with rfl | hq
      · rw [hk'.pages _ not_inRun_start]
        exact hnone
      · exact hnone' q hq
    · rw [inRun_succ]
      tauto

/-- `vaddr_remove` clears the bits of a run. -/
theorem vaddrRemove_eq (hg : Geo m) (hd : d = none ∨ d = cur) (hst : st < limit m d) :
    vaddrRemove m cur (pfOf d) (vaddrOf (d, st)) n = markRun m d st false n := by
  have hidx : sub32 (vaddrOf (d, st)) (m.vaddr d (pfOf d)).vaddrStart / pgSize = st :=
    pageIdx_eq hg hst
  simp only [vaddrRemove]
  rw [← vaddr_eq hd] at hidx
  rw [hidx]
  exact setVaddr_run hd st n false

/-- **`mfree_page`.**  A run that is mapped is given back. -/
theorem mfreePage_spec (hi : Settled m stuck) (hd : d = none ∨ d = cur) (hn : 1 ≤ n)
    (hall : ∀ q, InRun d st n q → holds m (.page q) ≠ none) :
    ∃ m', mfreePage m cur (pfOf d) (vaddrOf (d, st)) n = .ok m' ∧ Keeps (InRun d st n) m m' ∧
      (∀ q, InRun d st n q → holds m' (.page q) = none) ∧ Settled m' stuck := by
  have hfirst : InRun d st n (d, st) := ⟨rfl, Nat.le_refl st, by simp only; omega⟩
  obtain ⟨j, hj, hv2p, -⟩ := addrV2p_spec hi hd (hall _ hfirst)
  obtain ⟨hmod, -, -, hlow, huser⟩ := frameAt_range hi.geo hj
  have hv := (holds_page (hall _ hfirst)).1
  -- the pool is chosen from the first frame, and every frame of the run lies in it
  obtain ⟨m₁, hok, hk₁, hnone, hi₁⟩ : ∃ m₁,
      (if m.userPool.phyAddrStart ≤ frameAt m (pfOf d) j then
        mfreeLoop cur (fun m a => decide (m.userPool.phyAddrStart ≤ a))
          "(pg_phy_addr % PG_SIZE) == 0 && pg_phy_addr >= user_pool.phy_addr_start" n
          (vaddrOf (d, st)) m
      else
        mfreeLoop cur
          (fun m a => decide (m.kernelPool.phyAddrStart ≤ a ∧ a < m.userPool.phyAddrStart))
          "(pg_phy_addr % PG_SIZE) == 0 && pg_phy_addr >= kernel_pool.phy_addr_start && pg_phy_addr < user_pool.phy_addr_start"
          n (vaddrOf (d, st)) m) = .ok m₁ ∧
      Keeps (InRun d st n) m m₁ ∧ (∀ q, InRun d st n q → holds m₁ (.page q) = none) ∧
      Inv m₁ (fun q => InRun d st n q ∨ False) stuck fun _ => False := by
    by_cases hu : m.userPool.phyAddrStart ≤ frameAt m (pfOf d) j
    · rw [if_pos hu]
      refine mfreeLoop_spec (fun m' i hg hi' => ?_) hd hi hall
      exact decide_eq_true ((frameAt_range hg hi').2.2.2.2.mpr (huser.mp hu))
    · rw [if_neg hu]
      refine mfreeLoop_spec (fun m' i hg hi' => ?_) hd hi hall
      obtain ⟨-, -, hlo, -, hiff⟩ := frameAt_range hg hi'
      exact decide_eq_true ⟨hlo, Nat.lt_of_not_le fun h => hu (huser.mpr (hiff.mp h))⟩
  have hst : st < limit m₁ d := by
    rw [hk₁.limits]
    exact hv
  refine ⟨markRun m₁ d st false n, ?_, hk₁.trans (markRun_keeps false), fun q hq => ?_,
    inv_unmarkRun hi₁ fun _ h => h.elim⟩
  · have hrun : 1 ≤ n ∧ vaddrOf (d, st) % pgSize = 0 := ⟨hn, vaddrOf_mod⟩
    have hframe : frameAt m (pfOf d) j % pgSize = 0 ∧ 0x102000 ≤ frameAt m (pfOf d) j :=
      ⟨hmod, Nat.le_trans (by decide) hlow⟩
    rw [mfreePage, assert_bind_of hrun, hv2p, ok_bind, assert_bind_of hframe, hok, ok_bind,
      vaddrRemove_eq hi₁.geo hd hst]
  · rw [← hnone q hq]
    exact (markRun_keeps (S := fun _ => False) false).pages q id

end HcOs.Page
