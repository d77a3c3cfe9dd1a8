import HcOs.Kernel.Page
import HcOs.Lib.Bytes

/-!
# Page tables in memory (`kernel/memory.c`)

The page directory and the page tables are words of physical memory, and `kernel/memory.c` reaches
them through virtual addresses: the last entry of the directory names the directory itself, so the
walk of an address in the last four megabytes takes the directory for a page table.

`translate` is the walk of the processor.  `load` and `store` go through it, as every access of the
kernel does; the TLB is left out here (see `Tlb`).

`page_table_access`: `pde_ptr` and `pte_ptr` give the entries that the walk reads, `addr_v2p` gives
what the walk gives, and `page_table_add` maps one page.  Another address is mapped along with it
when its walk reads the entry that was written: the loader has two entries name one page table.
-/

namespace HcOs.PageTable

open HcOs.Lib

/-- Physical memory, by the addresses of its words. -/
abbrev Phys := ℕ → ℕ

/-! ## The walk of the processor -/

def Present (e : ℕ) : Prop := e % 2 = 1

instance (e : ℕ) : Decidable (Present e) := inferInstanceAs (Decidable (_ = _))

/-- The frame an entry names. -/
def frame (e : ℕ) : ℕ := e / 2 ^ 12 % 2 ^ 20 * 2 ^ 12

/-- Where the directory entry of an address is. -/
def pdeAddr (dir vaddr : ℕ) : ℕ := dir + vaddr / 2 ^ 22 * 4

/-- Where the page table entry of an address is. -/
def pteAddr (mem : Phys) (dir vaddr : ℕ) : ℕ :=
  frame (mem (pdeAddr dir vaddr)) + vaddr / 2 ^ 12 % 2 ^ 10 * 4

def translate (mem : Phys) (dir vaddr : ℕ) : Option ℕ :=
  if Present (mem (pdeAddr dir vaddr)) ∧ Present (mem (pteAddr mem dir vaddr)) then
    some (frame (mem (pteAddr mem dir vaddr)) + vaddr % 2 ^ 12)
  else none

/-- A read through a virtual address. -/
def load (mem : Phys) (dir ptr : ℕ) : Except Halt ℕ :=
  match translate mem dir ptr with
  | none => .error .nullDeref
  | some a => .ok (mem a)

/-- A write through a virtual address. -/
def store (mem : Phys) (dir ptr x : ℕ) : Except Halt Phys :=
  match translate mem dir ptr with
  | none => .error .nullDeref
  | some a => .ok (Function.update mem a x)

/-! ## The source -/

def pdeIdx (addr : ℕ) : ℕ := (addr &&& 0xffc00000) >>> 22

def pteIdx (addr : ℕ) : ℕ := (addr &&& 0x003ff000) >>> 12

/-- `pte_ptr`. -/
def ptePtr (vaddr : ℕ) : ℕ := 0xffc00000 + ((vaddr &&& 0xffc00000) >>> 10) + pteIdx vaddr * 4

/-- `pde_ptr`. -/
def pdePtr (vaddr : ℕ) : ℕ := 0xfffff000 + pdeIdx vaddr * 4

/-- `addr_v2p`. -/
def addrV2p (mem : Phys) (dir vaddr : ℕ) : Except Halt ℕ := do
  let pte ← load mem dir (ptePtr vaddr)
  .ok ((pte &&& 0xfffff000) + (vaddr &&& 0x00000fff))

/-- `memset` to zero, of `cnt` words. -/
def memset (mem : Phys) (dir ptr : ℕ) : ℕ → Except Halt Phys
  | 0 => .ok mem
  | cnt + 1 => do
    let mem ← memset mem dir ptr cnt
    store mem dir (ptr + cnt * 4) 0

/-- The entry for a frame, with the bits `PG_US_U`, `PG_RW_W` and `PG_P_1`. -/
def entry (phyaddr : ℕ) : ℕ := phyaddr ||| 4 ||| 2 ||| 1

/-- `page_table_add`; `pdePhyaddr` is what `palloc(&kernel_pool)` returns. -/
def pageTableAdd (mem : Phys) (dir pdePhyaddr vaddr pagePhyaddr : ℕ) : Except Halt Phys := do
  let pde := pdePtr vaddr
  let pte := ptePtr vaddr
  let e ← load mem dir pde
  if e &&& 0x00000001 ≠ 0 then
    let e ← load mem dir pte
    if e &&& 0x00000001 = 0 then store mem dir pte (entry pagePhyaddr)
    else .error (.panic "page_table_add" "pte repeat")
  else
    let mem ← store mem dir pde (entry pdePhyaddr)
    let mem ← memset mem dir (pte &&& 0xfffff000) 1024
    let e ← load mem dir pte
    assert (e &&& 0x00000001 = 0) "page_table_add" "!(*pte & 0x00000001)"
    store mem dir pte (entry pagePhyaddr)

/-! ## Masks -/

theorem frame_eq_and (e : ℕ) : e &&& 0xfffff000 = frame e := and_mask e 20 12

theorem pdeIdx_eq {vaddr : ℕ} (h : vaddr < 2 ^ 32) : pdeIdx vaddr = vaddr / 2 ^ 22 := by
  have hmask : vaddr &&& 0xffc00000 = vaddr / 2 ^ 22 % 2 ^ 10 * 2 ^ 22 := and_mask vaddr 10 22
  rw [pdeIdx, hmask, Nat.shiftRight_eq_div_pow]
  omega

theorem pteIdx_eq (vaddr : ℕ) : pteIdx vaddr = vaddr / 2 ^ 12 % 2 ^ 10 := by
  have hmask : vaddr &&& 0x003ff000 = vaddr / 2 ^ 12 % 2 ^ 10 * 2 ^ 12 := and_mask vaddr 10 12
  rw [pteIdx, hmask, Nat.shiftRight_eq_div_pow]
  omega

theorem and_one_eq (e : ℕ) : e &&& 0x00000001 = e % 2 := by
  simp

/-- The fields of `pde_ptr`. -/
theorem pdePtr_fields {vaddr : ℕ} (h : vaddr < 2 ^ 32) :
    pdePtr vaddr / 2 ^ 22 = 1023 ∧ pdePtr vaddr / 2 ^ 12 % 2 ^ 10 = 1023 ∧
      pdePtr vaddr % 2 ^ 12 = vaddr / 2 ^ 22 * 4 := by
  rw [pdePtr, pdeIdx_eq h]
  omega

/-- The fields of `pte_ptr`. -/
theorem ptePtr_fields {vaddr : ℕ} (h : vaddr < 2 ^ 32) :
    ptePtr vaddr / 2 ^ 22 = 1023 ∧ ptePtr vaddr / 2 ^ 12 % 2 ^ 10 = vaddr / 2 ^ 22 ∧
      ptePtr vaddr % 2 ^ 12 = vaddr / 2 ^ 12 % 2 ^ 10 * 4 := by
  have hmask : vaddr &&& 0xffc00000 = vaddr / 2 ^ 22 % 2 ^ 10 * 2 ^ 22 := and_mask vaddr 10 22
  rw [ptePtr, pteIdx_eq, hmask, Nat.shiftRight_eq_div_pow]
  omega

theorem entry_eq {a : ℕ} (h : a % 2 ^ 12 = 0) : entry a = a + 7 := by
  have hor : 2 ^ 12 * (a / 2 ^ 12) + 7 = 2 ^ 12 * (a / 2 ^ 12) ||| 7 :=
    Nat.two_pow_add_eq_or_of_lt (by decide) _
  have ha : 2 ^ 12 * (a / 2 ^ 12) = a := by omega
  rw [ha] at hor
  rw [hor, entry, Nat.or_assoc, Nat.or_assoc]
  rfl

/-- An entry for a frame names it. -/
theorem entry_spec {a : ℕ} (h : a % 2 ^ 12 = 0) (ha : a < 2 ^ 32) :
    Present (entry a) ∧ frame (entry a) = a := by
  rw [entry_eq h, Present, frame]
  omega

/-! ## The entries through the last entry -/

/-- The last entry of the directory is present and names the directory. -/
structure Own (mem : Phys) (dir : ℕ) : Prop where
  present : Present (mem (dir + 1023 * 4))
  names : frame (mem (dir + 1023 * 4)) = dir

variable {mem mem' : Phys} {dir vaddr v a x : ℕ}

theorem Own.aligned (h : Own mem dir) : dir % 2 ^ 12 = 0 ∧ dir < 2 ^ 32 := by
  rw [← h.names, frame]
  omega

/-- Frames are apart. -/
theorem frame_mod (e : ℕ) : frame e % 2 ^ 12 = 0 := by
  unfold frame
  omega

/-- The walk of an address in the last four megabytes takes the directory for a page table. -/
theorem translate_last (h : Own mem dir) (hv : v / 2 ^ 22 = 1023)
    (hp : Present (mem (dir + v / 2 ^ 12 % 2 ^ 10 * 4))) :
    translate mem dir v = some (frame (mem (dir + v / 2 ^ 12 % 2 ^ 10 * 4)) + v % 2 ^ 12) := by
  have hpde : pdeAddr dir v = dir + 1023 * 4 := by rw [pdeAddr, hv]
  have hpte : pteAddr mem dir v = dir + v / 2 ^ 12 % 2 ^ 10 * 4 := by
    rw [pteAddr, hpde, h.names]
  unfold translate
  rw [hpde, hpte, if_pos ⟨h.present, hp⟩]

theorem translate_pdePtr (h : Own mem dir) (hv : vaddr < 2 ^ 32) :
    translate mem dir (pdePtr vaddr) = some (pdeAddr dir vaddr) := by
  obtain ⟨hhigh, hmid, hlow⟩ := pdePtr_fields hv
  rw [translate_last h hhigh (by rw [hmid]; exact h.present), hmid, hlow, h.names, pdeAddr]

theorem translate_ptePtr (h : Own mem dir) (hv : vaddr < 2 ^ 32)
    (hp : Present (mem (pdeAddr dir vaddr))) :
    translate mem dir (ptePtr vaddr) = some (pteAddr mem dir vaddr) := by
  obtain ⟨hhigh, hmid, hlow⟩ := ptePtr_fields hv
  rw [translate_last h hhigh (by rw [hmid]; exact hp), hmid, hlow, pteAddr, pdeAddr]

theorem load_of (h : translate mem dir v = some a) : load mem dir v = .ok (mem a) := by
  rw [load, h]

theorem store_of (h : translate mem dir v = some a) :
    store mem dir v x = .ok (Function.update mem a x) := by
  rw [store, h]

theorem addrV2p_of (h : Own mem dir) (hv : vaddr < 2 ^ 32) (ha : translate mem dir vaddr = some a) :
    addrV2p mem dir vaddr = .ok a := by
  unfold translate at ha
  split at ha
  · next hp =>
    have hlow : vaddr &&& 0x00000fff = vaddr % 2 ^ 12 := Nat.and_two_pow_sub_one_eq_mod vaddr 12
    unfold addrV2p
    rw [load_of (translate_ptePtr h hv hp.1), ok_bind, frame_eq_and, hlow, Option.some.inj ha]
  · cases ha

/-! ## `page_table_add` -/

/-- The walk of `v` reads an entry that `page_table_add` writes for `vaddr`, and `v` is not of the
page table that is created. -/
def Shares (mem : Phys) (dir vaddr v : ℕ) : Prop :=
  if Present (mem (pdeAddr dir vaddr)) then
    pdeAddr dir v = pteAddr mem dir vaddr ∨
      Present (mem (pdeAddr dir v)) ∧ pteAddr mem dir v = pteAddr mem dir vaddr
  else Present (mem (pdeAddr dir v)) ∧ pteAddr mem dir v = pdeAddr dir vaddr

/-- The frame is not a page table of the directory; the last entry makes the directory one. -/
def Unused (mem : Phys) (dir f : ℕ) : Prop :=
  f % 2 ^ 12 = 0 ∧ f < 2 ^ 32 ∧
    ∀ j, j < 1024 → Present (mem (dir + j * 4)) → frame (mem (dir + j * 4)) ≠ f

theorem translate_eq (hpde : mem' (pdeAddr dir v) = mem (pdeAddr dir v))
    (hpte : Present (mem (pdeAddr dir v)) →
      mem' (pteAddr mem dir v) = mem (pteAddr mem dir v)) :
    translate mem' dir v = translate mem dir v := by
  have haddr : pteAddr mem' dir v = pteAddr mem dir v := by rw [pteAddr, hpde, pteAddr]
  unfold translate
  rw [haddr, hpde]
  by_cases hp : Present (mem (pdeAddr dir v))
  · rw [hpte hp]
  · rw [if_neg fun hc => hp hc.1, if_neg fun hc => hp hc.1]

/-- The walk of an address once its entries are known. -/
theorem translate_of {t f : ℕ} (hpde : Present (mem (pdeAddr dir v)))
    (ht : frame (mem (pdeAddr dir v)) = t)
    (hpte : mem (t + v / 2 ^ 12 % 2 ^ 10 * 4) = entry f) (hf : f % 2 ^ 12 = 0) (hlt : f < 2 ^ 32) :
    translate mem dir v = some (f + v % 2 ^ 12) := by
  obtain ⟨hp, hframe⟩ := entry_spec hf hlt
  have haddr : pteAddr mem dir v = t + v / 2 ^ 12 % 2 ^ 10 * 4 := by rw [pteAddr, ht]
  unfold translate
  rw [haddr, hpte, if_pos ⟨hpde, hp⟩, hframe]

/-- Addresses of one page have the same entries. -/
theorem same_page (dir : ℕ) (h : v / 2 ^ 12 = vaddr / 2 ^ 12) :
    pdeAddr dir v = pdeAddr dir vaddr ∧ v / 2 ^ 12 % 2 ^ 10 = vaddr / 2 ^ 12 % 2 ^ 10 := by
  unfold pdeAddr
  omega

/-- The page table of the address exists. -/
theorem pageTableAdd_present {pa phy : ℕ} (h : Own mem dir) (hv : vaddr < 2 ^ 32)
    (hpde : Present (mem (pdeAddr dir vaddr))) (hpte : ¬Present (mem (pteAddr mem dir vaddr))) :
    pageTableAdd mem dir phy vaddr pa =
      .ok (Function.update mem (pteAddr mem dir vaddr) (entry pa)) := by
  have hone : mem (pdeAddr dir vaddr) &&& 0x00000001 ≠ 0 := by
    rw [and_one_eq]
    unfold Present at hpde
    omega
  have hzero : mem (pteAddr mem dir vaddr) &&& 0x00000001 = 0 := by
    rw [and_one_eq]
    unfold Present at hpte
    omega
  have hptr := translate_ptePtr h hv hpde
  unfold pageTableAdd
  dsimp only
  rw [load_of (translate_pdePtr h hv), ok_bind, if_pos hone, load_of hptr, ok_bind, if_pos hzero,
    store_of hptr]

/-- The memory with `cnt` words set to zero. -/
def cleared (mem : Phys) (f cnt : ℕ) : Phys :=
  fun a => if f ≤ a ∧ a < f + cnt * 4 ∧ (a - f) % 4 = 0 then 0 else mem a

theorem cleared_succ (mem : Phys) (f cnt : ℕ) :
    Function.update (cleared mem f cnt) (f + cnt * 4) 0 = cleared mem f (cnt + 1) := by
  funext a
  by_cases ha : a = f + cnt * 4
  · subst ha
    rw [Function.update_self, cleared, if_pos (by omega)]
  · rw [Function.update_of_ne ha, cleared, cleared]
    by_cases hc : f ≤ a ∧ a < f + cnt * 4 ∧ (a - f) % 4 = 0
    · rw [if_pos hc, if_pos (by omega)]
    · rw [if_neg hc, if_neg (by omega)]

/-- The words of another frame. -/
theorem cleared_of_ne {f g cnt k : ℕ} (hf : f % 2 ^ 12 = 0) (hg : g % 2 ^ 12 = 0) (hne : g ≠ f)
    (hcnt : cnt ≤ 1024) (hk : k < 1024) : cleared mem f cnt (g + k * 4) = mem (g + k * 4) := by
  rw [cleared, if_neg]
  omega

/-- `memset` of a page table through the last entry. -/
theorem memset_table {f cnt : ℕ} (h : Own mem dir) (hf : f % 2 ^ 12 = 0) (hlt : f < 2 ^ 32)
    (hne : dir ≠ f) (hv : v / 2 ^ 22 = 1023) (hlow : v % 2 ^ 12 = 0)
    (hentry : mem (dir + v / 2 ^ 12 % 2 ^ 10 * 4) = entry f) (hcnt : cnt ≤ 1024) :
    memset mem dir v cnt = .ok (cleared mem f cnt) := by
  have hdir := h.aligned.1
  induction cnt with
  | zero =>
    rw [memset]
    congr 1
    funext a
    rw [cleared, if_neg (by omega)]
  | succ cnt ih =>
    have hword : ∀ k, k < 1024 → cleared mem f cnt (dir + k * 4) = mem (dir + k * 4) :=
      fun k hk => cleared_of_ne hf hdir hne (by omega) hk
    have hown : Own (cleared mem f cnt) dir := by
      refine ⟨?_, ?_⟩ <;> rw [hword 1023 (by decide)]
      · exact h.present
      · exact h.names
    obtain ⟨hp, hframe⟩ := entry_spec hf hlt
    have hmid : (v + cnt * 4) / 2 ^ 12 % 2 ^ 10 = v / 2 ^ 12 % 2 ^ 10 := by omega
    have hword' : cleared mem f cnt (dir + (v + cnt * 4) / 2 ^ 12 % 2 ^ 10 * 4) = entry f := by
      rw [hmid, hword (v / 2 ^ 12 % 2 ^ 10) (by omega), hentry]
    have htrans := translate_last (v := v + cnt * 4) hown (by omega) (by rw [hword']; exact hp)
    have haddr : f + (v + cnt * 4) % 2 ^ 12 = f + cnt * 4 := by omega
    rw [hword', hframe, haddr] at htrans
    rw [memset, ih (by omega), ok_bind, store_of htrans, cleared_succ]

/-- The memory after `page_table_add` has created a page table. -/
def withTable (mem : Phys) (dir f vaddr pa : ℕ) : Phys :=
  Function.update (cleared (Function.update mem (pdeAddr dir vaddr) (entry f)) f 1024)
    (f + vaddr / 2 ^ 12 % 2 ^ 10 * 4) (entry pa)

/-- The page table of the address is created. -/
theorem pageTableAdd_absent {pa f : ℕ} (h : Own mem dir) (hv : vaddr < 0xffc00000)
    (hpde : ¬Present (mem (pdeAddr dir vaddr))) (hf : f % 2 ^ 12 = 0) (hlt : f < 2 ^ 32)
    (hne : dir ≠ f) : pageTableAdd mem dir f vaddr pa = .ok (withTable mem dir f vaddr pa) := by
  have hv' : vaddr < 2 ^ 32 := by omega
  have hzero : ¬mem (pdeAddr dir vaddr) &&& 0x00000001 ≠ 0 := by
    rw [and_one_eq]
    unfold Present at hpde
    omega
  set mem₁ := Function.update mem (pdeAddr dir vaddr) (entry f) with hmem₁
  have hlast : dir + 1023 * 4 ≠ pdeAddr dir vaddr := by
    unfold pdeAddr
    omega
  have hown₁ : Own mem₁ dir := by
    refine ⟨?_, ?_⟩ <;> rw [hmem₁, Function.update_of_ne hlast]
    · exact h.present
    · exact h.names
  obtain ⟨hhigh, hmid, hlow⟩ := ptePtr_fields hv'
  obtain ⟨hp, hframe⟩ := entry_spec hf hlt
  have hself : mem₁ (pdeAddr dir vaddr) = entry f := Function.update_self _ _ _
  -- the page that is cleared is the page of `pte_ptr`
  have hpage : ptePtr vaddr &&& 0xfffff000 = frame (ptePtr vaddr) := frame_eq_and _
  have hclear : memset mem₁ dir (frame (ptePtr vaddr)) 1024 = .ok (cleared mem₁ f 1024) := by
    have hmid' : frame (ptePtr vaddr) / 2 ^ 12 % 2 ^ 10 = vaddr / 2 ^ 22 := by
      rw [← hmid, frame]
      omega
    refine memset_table hown₁ hf hlt hne ?_ (frame_mod _) ?_ (Nat.le_refl _)
    · unfold frame
      omega
    · rw [hmid']
      exact hself
  set mem₂ := cleared mem₁ f 1024 with hmem₂
  have hdir := h.aligned.1
  have hword : ∀ k, k < 1024 → mem₂ (dir + k * 4) = mem₁ (dir + k * 4) :=
    fun k hk => cleared_of_ne hf hdir hne (Nat.le_refl _) hk
  have hown₂ : Own mem₂ dir := by
    refine ⟨?_, ?_⟩ <;> rw [hword 1023 (by decide)]
    · exact hown₁.present
    · exact hown₁.names
  have hpde₂ : mem₂ (pdeAddr dir vaddr) = entry f := by
    rw [pdeAddr, hword _ (by omega), ← pdeAddr, hself]
  have hpte₂ : pteAddr mem₂ dir vaddr = f + vaddr / 2 ^ 12 % 2 ^ 10 * 4 := by
    rw [pteAddr, hpde₂, hframe]
  have hptr : translate mem₂ dir (ptePtr vaddr) = some (f + vaddr / 2 ^ 12 % 2 ^ 10 * 4) := by
    rw [translate_ptePtr hown₂ hv' (by rw [hpde₂]; exact hp), hpte₂]
  have hnull : mem₂ (f + vaddr / 2 ^ 12 % 2 ^ 10 * 4) &&& 0x00000001 = 0 := by
    rw [hmem₂, cleared, if_pos (by omega)]
    rfl
  have hstore : store mem dir (pdePtr vaddr) (entry f) = .ok mem₁ :=
    store_of (translate_pdePtr h hv')
  unfold pageTableAdd
  dsimp only
  rw [load_of (translate_pdePtr h hv'), ok_bind, if_neg hzero, hstore, ok_bind, hpage, hclear,
    ok_bind, load_of hptr, ok_bind, assert_bind_of hnull, store_of hptr]
  rfl

/-! ## Main result -/

/-- What a mapping adds and what it leaves alone. -/
def Maps (mem mem' : Phys) (dir vaddr pa : ℕ) : Prop :=
  (∀ v, v / 2 ^ 12 = vaddr / 2 ^ 12 → translate mem' dir v = some (pa + v % 2 ^ 12)) ∧
    ∀ v, v < 0xffc00000 → v / 2 ^ 12 ≠ vaddr / 2 ^ 12 → ¬Shares mem dir vaddr v →
      translate mem' dir v = translate mem dir v

theorem maps_present {pa : ℕ} (hpa : pa % 2 ^ 12 = 0) (hlt : pa < 2 ^ 32)
    (hpde : Present (mem (pdeAddr dir vaddr))) (hpte : ¬Present (mem (pteAddr mem dir vaddr))) :
    Maps mem (Function.update mem (pteAddr mem dir vaddr) (entry pa)) dir vaddr pa := by
  have hne : pdeAddr dir vaddr ≠ pteAddr mem dir vaddr := by
    intro heq
    rw [← heq] at hpte
    exact hpte hpde
  refine ⟨fun v hv => ?_, fun v hlim hv hshare => ?_⟩
  · obtain ⟨hsame, hidx⟩ := same_page dir hv
    have hword : Function.update mem (pteAddr mem dir vaddr) (entry pa) (pdeAddr dir v) =
        mem (pdeAddr dir vaddr) := by
      rw [hsame, Function.update_of_ne hne]
    refine translate_of (t := frame (mem (pdeAddr dir vaddr))) ?_ ?_ ?_ hpa hlt
    · rw [hword]
      exact hpde
    · rw [hword]
    · rw [hidx, ← pteAddr, Function.update_self]
  · rw [Shares, if_pos hpde, not_or, not_and] at hshare
    refine translate_eq (Function.update_of_ne hshare.1 _ _) fun hp => ?_
    rw [Function.update_of_ne (hshare.2 hp)]

theorem maps_absent {pa f : ℕ} (h : Own mem dir) (hvaddr : vaddr < 0xffc00000)
    (hpa : pa % 2 ^ 12 = 0) (hlt : pa < 2 ^ 32)
    (hpde : ¬Present (mem (pdeAddr dir vaddr))) (hf : Unused mem dir f) :
    Maps mem (withTable mem dir f vaddr pa) dir vaddr pa := by
  obtain ⟨hmod, hflt, huse⟩ := hf
  have hdir := h.aligned.1
  have hne : dir ≠ f := by
    rw [← h.names]
    exact huse 1023 (by decide) h.present
  obtain ⟨hp, hframe⟩ := entry_spec hmod hflt
  have hidx : vaddr / 2 ^ 12 % 2 ^ 10 < 1024 := by omega
  -- the words of other frames, and those of the new page table
  have hother : ∀ g k, g % 2 ^ 12 = 0 → g ≠ f → k < 1024 →
      withTable mem dir f vaddr pa (g + k * 4) =
        Function.update mem (pdeAddr dir vaddr) (entry f) (g + k * 4) := by
    intro g k hg hgf hk
    have hloc : g + k * 4 ≠ f + vaddr / 2 ^ 12 % 2 ^ 10 * 4 := by omega
    rw [withTable, Function.update_of_ne hloc, cleared_of_ne hmod hg hgf (Nat.le_refl _) hk]
  have htable : ∀ k, k < 1024 → k ≠ vaddr / 2 ^ 12 % 2 ^ 10 →
      withTable mem dir f vaddr pa (f + k * 4) = 0 := by
    intro k hk hkne
    have hloc : f + k * 4 ≠ f + vaddr / 2 ^ 12 % 2 ^ 10 * 4 := by omega
    rw [withTable, Function.update_of_ne hloc, cleared, if_pos (by omega)]
  have hself : withTable mem dir f vaddr pa (pdeAddr dir vaddr) = entry f := by
    have hword := hother dir (vaddr / 2 ^ 22) hdir hne (by omega)
    rw [← pdeAddr, Function.update_self] at hword
    exact hword
  refine ⟨fun v hv => ?_, fun v hlim hv hshare => ?_⟩
  · obtain ⟨hsame, hmid⟩ := same_page dir hv
    refine translate_of (t := f) ?_ ?_ ?_ hpa hlt
    · rw [hsame, hself]
      exact hp
    · rw [hsame, hself, hframe]
    · rw [hmid, withTable, Function.update_self]
  · by_cases hj : v / 2 ^ 22 = vaddr / 2 ^ 22
    · -- an address of the new page table
      have hsame : pdeAddr dir v = pdeAddr dir vaddr := by rw [pdeAddr, hj, pdeAddr]
      have hpte : withTable mem dir f vaddr pa (pteAddr (withTable mem dir f vaddr pa) dir v) = 0 := by
        rw [pteAddr, hsame, hself, hframe]
        exact htable _ (by omega) (by omega)
      unfold translate
      rw [hpte, if_neg (by simp [Present]), hsame, if_neg fun hc => hpde hc.1]
    · have hloc : pdeAddr dir v ≠ pdeAddr dir vaddr := by
        unfold pdeAddr
        omega
      rw [Shares, if_neg hpde, not_and] at hshare
      refine translate_eq ?_ fun hpv => ?_
      · rw [pdeAddr, hother dir _ hdir hne (by omega), ← pdeAddr, Function.update_of_ne hloc]
      · have hfne : frame (mem (pdeAddr dir v)) ≠ f := huse (v / 2 ^ 22) (by omega) hpv
        rw [pteAddr, hother _ _ (frame_mod _) hfne (by omega), ← pteAddr,
          Function.update_of_ne (hshare hpv)]

/-- **Access to the page tables.**  Through the last entry of the directory the kernel reaches the
entries that the processor reads, and `page_table_add` maps the page of `vaddr` and no other page
whose walk does not read the entry that it writes. -/
theorem page_table_access (h : Own mem dir) (hv : vaddr < 0xffc00000) :
    translate mem dir (pdePtr vaddr) = some (pdeAddr dir vaddr) ∧
    (Present (mem (pdeAddr dir vaddr)) →
      translate mem dir (ptePtr vaddr) = some (pteAddr mem dir vaddr)) ∧
    (∀ a, translate mem dir vaddr = some a → addrV2p mem dir vaddr = .ok a) ∧
    ∀ pa phy, pa % 2 ^ 12 = 0 → pa < 2 ^ 32 →
      (Present (mem (pdeAddr dir vaddr)) → ¬Present (mem (pteAddr mem dir vaddr))) →
      (¬Present (mem (pdeAddr dir vaddr)) → Unused mem dir phy) →
      ∃ mem', pageTableAdd mem dir phy vaddr pa = .ok mem' ∧ Maps mem mem' dir vaddr pa := by
  have hv' : vaddr < 2 ^ 32 := by omega
  refine ⟨translate_pdePtr h hv', translate_ptePtr h hv', fun a => addrV2p_of h hv',
    fun pa phy hpa hlt habsent hunused => ?_⟩
  by_cases hpde : Present (mem (pdeAddr dir vaddr))
  · exact ⟨_, pageTableAdd_present h hv' hpde (habsent hpde), maps_present hpa hlt hpde (habsent hpde)⟩
  · have hphy := hunused hpde
    have hne : dir ≠ phy := by
      rw [← h.names]
      exact hphy.2.2 1023 (by decide) h.present
    exact ⟨_, pageTableAdd_absent h hv hpde hphy.1 hphy.2.1 hne,
      maps_absent h hv hpa hlt hpde hphy⟩

/-- The directory of the loader at `0x100000`: the entries 0 and 768 name one page table. -/
def loaderPhys : Phys := fun a =>
  if a = 0x100000 ∨ a = 0x100000 + 768 * 4 then 0x101007
  else if a = 0x100000 + 1023 * 4 then 0x100007
  else 0

theorem loaderPhys_cases (a : ℕ) :
    loaderPhys a = 0x101007 ∨ loaderPhys a = 0x100007 ∨ loaderPhys a = 0 := by
  unfold loaderPhys
  split_ifs
  · exact Or.inl rfl
  · exact Or.inr (Or.inl rfl)
  · exact Or.inr (Or.inr rfl)

theorem loaderPhys_own : Own loaderPhys 0x100000 := ⟨by decide, by decide⟩

/-- The first user page: its page table is created. -/
theorem page_table_access_user :
    ∃ mem', pageTableAdd loaderPhys 0x100000 0x200000 0x8048000 0x300000 = .ok mem' ∧
      translate mem' 0x100000 0x8048123 = some 0x300123 := by
  have hunused : Unused loaderPhys 0x100000 0x200000 := by
    refine ⟨by decide, by decide, fun j _ _ => ?_⟩
    rcases loaderPhys_cases (0x100000 + j * 4) with h | h | h <;> rw [h] <;> decide
  have hv : 0x8048000 < 0xffc00000 := by decide
  obtain ⟨mem', hok, hmap, -⟩ := (page_table_access loaderPhys_own hv).2.2.2 0x300000 0x200000
    (by decide) (by decide) (by decide) fun _ => hunused
  exact ⟨mem', hok, hmap 0x8048123 (by decide)⟩

/-- The first page of the kernel's heap is mapped, and one at `0x100000` along with it. -/
theorem low_alias_mapped :
    Own loaderPhys 0x100000 ∧
      ¬Present (loaderPhys (pteAddr loaderPhys 0x100000 0xc0100000)) ∧
      translate loaderPhys 0x100000 0x100000 = none ∧
      ∃ mem', pageTableAdd loaderPhys 0x100000 0 0xc0100000 0x200000 = .ok mem' ∧
        translate mem' 0x100000 0x100000 = some 0x200000 := by
  have hpte : ¬Present (loaderPhys (pteAddr loaderPhys 0x100000 0xc0100000)) := by decide
  have hadd : pageTableAdd loaderPhys 0x100000 0 0xc0100000 0x200000 =
      .ok (Function.update loaderPhys (pteAddr loaderPhys 0x100000 0xc0100000) (entry 0x200000)) :=
    pageTableAdd_present loaderPhys_own (by decide) (by decide) hpte
  exact ⟨loaderPhys_own, hpte, by decide, _, hadd, by decide⟩

end HcOs.PageTable
