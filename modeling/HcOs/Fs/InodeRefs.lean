import HcOs.Fs.InodeList

/-!
# Reference counts of open inodes

`inode_refs`: as long as the slots on disk carry their numbers and no counter wraps around, the
list has exactly the inodes that are open, once each and with the right count, and the inodes in
the kernel's heap are those of the list, whoever called.
-/

namespace HcOs.InodeRefs

open HcOs.Lib HcOs.Fs HcOs.Sectors HcOs.Page
open HcOs.InodeCache (Numbered)

variable {T P : Type}

/-! ## The invariant -/

/-- The inodes `ps` of the list are those that someone has open, and the kernel's heap has them
over what it had in `s₀`. -/
structure Inv (l : Sentinels Ptr) (s₀ s : State T P) (ps : List Ptr) : Prop where
  cache : IsCache l s.mem ps
  numbers : (ps.map fun p => (s.mem.inode p).iNo).Nodup
  counts : ∀ p ∈ ps, (s.mem.inode p).iOpenCnts = s.held.countP fun h => h.2 = p
  isHeld : ∀ p ∈ ps, ∃ n, (n, p) ∈ s.held
  held : ∀ n p, (n, p) ∈ s.held → p ∈ ps ∧ (s.mem.inode p).iNo = n
  ledger : ∀ n, s.opens n = s.closes n + s.held.countP fun h => h.1 = n
  kernel : (s.live none).Perm (ps ++ s₀.live none)
  heaps : ∀ q, s.live (some q) = s₀.live (some q)
  pgdir : s.pgdir = s₀.pgdir

section Steps

variable {l : Sentinels Ptr} {part : Mounted} {disk : Bytes} {s₀ s s' : State T P} {cur : T} {n : ℕ}
  {new buf p : Ptr} {ps : List Ptr}

theorem iNo_setOpenCnts (m : Memory) (p q : Ptr) (v : ℕ) :
    ((m.setInode p ((m.inode p).setOpenCnts v)).inode q).iNo = (m.inode q).iNo := by
  rcases eq_or_ne q p with rfl | hne
  · rw [setInode_self, Inode.iNo_setOpenCnts]
  · rw [setInode_of_ne m hne]

theorem Inv.ledger_open (h : Inv l s₀ s ps) (n : ℕ) (p : Ptr) (k : ℕ) :
    Function.update s.opens n (s.opens n + 1) k =
      s.closes k + ((n, p) :: s.held).countP fun h => h.1 = k := by
  rw [List.countP_cons]
  rcases eq_or_ne k n with rfl | hne
  · rw [Function.update_self, h.ledger, decide_eq_true rfl, if_pos rfl, Nat.add_assoc]
  · rw [Function.update_of_ne hne, h.ledger, decide_eq_false hne.symm, if_neg Bool.false_ne_true]
    rfl

theorem Inv.ledger_close (h : Inv l s₀ s ps) (hheld : (n, p) ∈ s.held) (k : ℕ) :
    s.opens k = Function.update s.closes n (s.closes n + 1) k +
      (s.held.erase (n, p)).countP fun h => h.1 = k := by
  rw [h.ledger, InodeCache.countP_erase hheld Prod.fst]
  rcases eq_or_ne k n with rfl | hne
  · rw [Function.update_self, if_pos rfl, Nat.add_right_comm, Nat.add_assoc]
  · rw [Function.update_of_ne hne, if_neg hne.symm, Nat.add_zero]

/-- The counts without one opening of `p`. -/
theorem Inv.counts_erase (h : Inv l s₀ s ps) (hheld : (n, p) ∈ s.held) :
    (s.mem.inode p).iOpenCnts = (s.held.erase (n, p)).countP (fun h => h.2 = p) + 1 ∧
      ∀ q ∈ ps, q ≠ p →
        (s.mem.inode q).iOpenCnts = (s.held.erase (n, p)).countP fun h => h.2 = q := by
  refine ⟨?_, fun q hq hne => ?_⟩
  · rw [h.counts p (h.held n p hheld).1, InodeCache.countP_erase hheld Prod.snd, if_pos rfl]
  · rw [h.counts q hq, InodeCache.countP_erase hheld Prod.snd, if_neg hne.symm, Nat.add_zero]

theorem Inv.hit (h : Inv l s₀ s ps) (hp : p ∈ ps) (hno : (s.mem.inode p).iNo = n)
    (hcnt : (s.mem.inode p).iOpenCnts + 1 < 2 ^ 32) :
    Inv l s₀ { s.setInode p
        ((s.mem.inode p).setOpenCnts (((s.mem.inode p).iOpenCnts + 1) % 2 ^ 32)) with
      held := (n, p) :: s.held
      opens := Function.update s.opens n (s.opens n + 1) } ps where
  cache := h.cache.setOpenCnts p _
  numbers := by
    simp only [State.setInode, iNo_setOpenCnts]
    exact h.numbers
  counts := by
    intro q hq
    dsimp only [State.setInode]
    rw [List.countP_cons, ← h.counts q hq]
    rcases eq_or_ne q p with rfl | hne
    · rw [setInode_self, Inode.iOpenCnts_setOpenCnts, Nat.mod_mod, Nat.mod_eq_of_lt hcnt,
        decide_eq_true rfl, if_pos rfl]
    · rw [setInode_of_ne _ hne, decide_eq_false hne.symm, if_neg Bool.false_ne_true]
      rfl
  isHeld := by
    intro q hq
    obtain ⟨k, hk⟩ := h.isHeld q hq
    exact ⟨k, List.mem_cons_of_mem _ hk⟩
  held := by
    intro k q hq
    dsimp only [State.setInode]
    rw [iNo_setOpenCnts]
    rcases List.mem_cons.mp hq with heq | hq
    · cases heq
      exact ⟨hp, hno⟩
    · exact h.held k q hq
  ledger := h.ledger_open n p
  kernel := h.kernel
  heaps := h.heaps
  pgdir := h.pgdir

theorem Inv.miss [DecidableEq P] {mem : Memory} (h : Inv l s₀ s ps)
    (hcache : IsCache l mem (new :: ps))
    (hcnt : (mem.inode new).iOpenCnts = 1) (hno : (mem.inode new).iNo = n)
    (hsame : SameBut new s.mem mem) (hmiss : ∀ q ∈ ps, (s.mem.inode q).iNo ≠ n) :
    Inv l s₀ { s with
      mem := mem
      live := Function.update s.live none (new :: s.live none)
      held := (n, new) :: s.held
      opens := Function.update s.opens n (s.opens n + 1) } (new :: ps) := by
  have hnew : new ∉ ps := (List.nodup_cons.mp hcache.nodup).1
  have hne : ∀ q ∈ ps, q ≠ new := by
    rintro q hq rfl
    exact hnew hq
  have hold : (ps.map fun q => (mem.inode q).iNo) = ps.map fun q => (s.mem.inode q).iNo :=
    List.map_congr_left fun q hq => (hsame q (hne q hq)).1
  exact {
    cache := hcache
    numbers := by
      rw [List.map_cons, List.nodup_cons]
      refine ⟨fun hmem => ?_, hold.symm ▸ h.numbers⟩
      rw [hold, hno] at hmem
      obtain ⟨q, hq, hqn⟩ := List.mem_map.mp hmem
      exact hmiss q hq hqn
    counts := by
      intro q hq
      rw [List.countP_cons]
      rcases List.mem_cons.mp hq with rfl | hq
      · have hzero : (s.held.countP fun h => h.2 = q) = 0 := by
          refine List.countP_eq_zero.mpr fun x hx heq => hnew ?_
          rw [← of_decide_eq_true heq]
          exact (h.held x.1 x.2 hx).1
        rw [hcnt, hzero, decide_eq_true rfl, if_pos rfl]
      · rw [(hsame q (hne q hq)).2, h.counts q hq, decide_eq_false (hne q hq).symm,
          if_neg Bool.false_ne_true]
        rfl
    isHeld := by
      intro q hq
      rcases List.mem_cons.mp hq with rfl | hq
      · exact ⟨n, List.mem_cons_self⟩
      · obtain ⟨k, hk⟩ := h.isHeld q hq
        exact ⟨k, List.mem_cons_of_mem _ hk⟩
    held := by
      intro k q hq
      rcases List.mem_cons.mp hq with heq | hq
      · cases heq
        exact ⟨List.mem_cons_self, hno⟩
      · obtain ⟨hmem, hk⟩ := h.held k q hq
        exact ⟨List.mem_cons_of_mem _ hmem, (hsame q (hne q hmem)).1.trans hk⟩
    ledger := h.ledger_open n new
    kernel := by
      dsimp only
      rw [Function.update_self]
      exact h.kernel.cons new
    heaps := by
      intro q
      dsimp only
      rw [Function.update_of_ne (Option.some_ne_none q)]
      exact h.heaps q
    pgdir := h.pgdir }

theorem Inv.more (h : Inv l s₀ s ps) (hheld : (n, p) ∈ s.held)
    (hcnt : 1 < (s.mem.inode p).iOpenCnts) :
    Inv l s₀ { s.setInode p
        ((s.mem.inode p).setOpenCnts ((s.mem.inode p).iOpenCnts - 1)) with
      held := s.held.erase (n, p)
      closes := Function.update s.closes n (s.closes n + 1) } ps := by
  obtain ⟨hself, hother⟩ := h.counts_erase hheld
  have hlt := (s.mem.inode p).iOpenCnts_lt
  have hcounts : ∀ q ∈ ps, ((s.mem.setInode p
      ((s.mem.inode p).setOpenCnts ((s.mem.inode p).iOpenCnts - 1))).inode q).iOpenCnts =
        (s.held.erase (n, p)).countP fun h => h.2 = q := by
    intro q hq
    rcases eq_or_ne q p with rfl | hne
    · rw [setInode_self, Inode.iOpenCnts_setOpenCnts, Nat.mod_eq_of_lt (by omega), hself,
        Nat.add_sub_cancel]
    · rw [setInode_of_ne _ hne]
      exact hother q hq hne
  exact {
    cache := h.cache.setOpenCnts p _
    numbers := by
      simp only [State.setInode, iNo_setOpenCnts]
      exact h.numbers
    counts := hcounts
    isHeld := by
      intro q hq
      rcases eq_or_ne q p with rfl | hne
      · have hpos : 0 < (s.held.erase (n, q)).countP fun h => h.2 = q := by omega
        obtain ⟨⟨k, r⟩, hx, hxq⟩ := List.countP_pos_iff.mp hpos
        obtain rfl : r = q := of_decide_eq_true hxq
        exact ⟨k, hx⟩
      · obtain ⟨k, hk⟩ := h.isHeld q hq
        have hpair : (k, q) ≠ (n, p) := fun heq => hne (Prod.mk.inj heq).2
        exact ⟨k, (List.mem_erase_of_ne hpair).mpr hk⟩
    held := by
      intro k q hq
      dsimp only [State.setInode]
      rw [iNo_setOpenCnts]
      exact h.held k q (List.mem_of_mem_erase hq)
    ledger := h.ledger_close hheld
    kernel := h.kernel
    heaps := h.heaps
    pgdir := h.pgdir }

theorem Inv.last [DecidableEq P] {mem : Memory} {pre post : List Ptr}
    (h : Inv l s₀ s (pre ++ p :: post)) (hheld : (n, p) ∈ s.held)
    (hcnt : (s.mem.inode p).iOpenCnts = 1)
    (hcache : IsCache l mem (pre ++ post)) (hsame : SameBut p s.mem mem) :
    Inv l s₀ { s with
      mem := mem
      live := Function.update s.live none ((s.live none).erase p)
      held := s.held.erase (n, p)
      closes := Function.update s.closes n (s.closes n + 1) } (pre ++ post) := by
  obtain ⟨hself, hother⟩ := h.counts_erase hheld
  have hmiddle : (pre ++ p :: post).Perm (p :: (pre ++ post)) := List.perm_middle
  have hnodup := List.nodup_cons.mp (hmiddle.nodup_iff.mp h.cache.nodup)
  have hne : ∀ q ∈ pre ++ post, q ≠ p := by
    rintro q hq rfl
    exact hnodup.1 hq
  have hmem : ∀ q ∈ pre ++ post, q ∈ pre ++ p :: post := fun q hq =>
    hmiddle.mem_iff.mpr (List.mem_cons_of_mem p hq)
  -- nobody else has the inode open
  have hnone : ∀ x ∈ s.held.erase (n, p), x.2 ≠ p := by
    have hzero : ((s.held.erase (n, p)).countP fun h => h.2 = p) = 0 := by omega
    intro x hx heq
    exact List.countP_eq_zero.mp hzero x hx (decide_eq_true heq)
  exact {
    cache := hcache
    numbers := by
      have hold : ((pre ++ post).map fun q => (mem.inode q).iNo) =
          (pre ++ post).map fun q => (s.mem.inode q).iNo :=
        List.map_congr_left fun q hq => (hsame q (hne q hq)).1
      show ((pre ++ post).map fun q => (mem.inode q).iNo).Nodup
      rw [hold]
      exact h.numbers.sublist (((List.sublist_cons_self p post).append_left pre).map _)
    counts := by
      intro q hq
      show (mem.inode q).iOpenCnts = _
      rw [(hsame q (hne q hq)).2]
      exact hother q (hmem q hq) (hne q hq)
    isHeld := by
      intro q hq
      obtain ⟨k, hk⟩ := h.isHeld q (hmem q hq)
      have hpair : (k, q) ≠ (n, p) := fun heq => hne q hq (Prod.mk.inj heq).2
      exact ⟨k, (List.mem_erase_of_ne hpair).mpr hk⟩
    held := by
      intro k q hq
      have hqp : q ≠ p := hnone (k, q) hq
      obtain ⟨hin, hk⟩ := h.held k q (List.mem_of_mem_erase hq)
      exact ⟨List.mem_of_ne_of_mem hqp (hmiddle.mem_iff.mp hin), (hsame q hqp).1.trans hk⟩
    ledger := h.ledger_close hheld
    kernel := by
      dsimp only
      rw [Function.update_self]
      have hperm := (h.kernel.trans (hmiddle.append_right _)).erase p
      rwa [List.cons_append, List.erase_cons_head] at hperm
    heaps := by
      intro q
      dsimp only
      rw [Function.update_of_ne (Option.some_ne_none q)]
      exact h.heaps q
    pgdir := h.pgdir }

end Steps

/-! ## Runs -/

/-- The list of a partition is in the image of the kernel, below its heap. -/
def Static (a : Ptr) : Prop := 0 < a.toNat ∧ a.toNat + 16 ≤ kHeapStart

instance (a : Ptr) : Decidable (Static a) := inferInstanceAs (Decidable (_ ∧ _))

/-- The slot of the number on disk carries it, and its count does not wrap around. -/
def Careful (part : Mounted) (disk : Bytes) (s : State T P) : Event T → Prop
  | .inodeOpen _ n _ _ => Numbered part disk n ∧ s.opens n + 1 < s.closes n + 2 ^ 32
  | .inodeClose _ _ _ => True

instance (part : Mounted) (disk : Bytes) (s : State T P) :
    (e : Event T) → Decidable (Careful part disk s e)
  | .inodeOpen _ _ _ _ => inferInstanceAs (Decidable (_ ∧ _))
  | .inodeClose _ _ _ => inferInstanceAs (Decidable True)

/-- What the callers rely on in a state `s` reached from `s₀`. -/
structure RefCounted [DecidableEq T] [DecidableEq P] (l : Sentinels Ptr) (part : Mounted)
    (disk : Bytes) (s₀ s : State T P) : Prop where
  /-- The inodes with more openings than closings are in the list, once each, with the difference
  as their count, and no other inode is in the list or in the heap. -/
  cache : ∃ ps, IsCache l s.mem ps ∧ (ps.map fun p => (s.mem.inode p).iNo).Nodup ∧
    (∀ n, (n ∈ ps.map fun p => (s.mem.inode p).iNo) ↔ s.closes n < s.opens n) ∧
    (∀ p ∈ ps, (s.mem.inode p).iOpenCnts + s.closes (s.mem.inode p).iNo =
      s.opens (s.mem.inode p).iNo) ∧
    (s.live none).Perm (ps ++ s₀.live none)
  /-- All who have an inode open have one pointer, and the next one gets it too. -/
  shared : ∀ n, s.closes n < s.opens n → ∃ p, (n, p) ∈ s.held ∧ (∀ q, (n, q) ∈ s.held → q = p) ∧
    ∀ cur new buf, ∃ s', inodeOpen l part disk s cur n new buf = .ok (s', p)
  closed : (∀ n, s.closes n = s.opens n) →
    listEmpty (tags l) s.mem l = .ok true ∧ (s.live none).Perm (s₀.live none)
  heaps : ∀ q, s.live (some q) = s₀.live (some q)
  pgdir : s.pgdir = s₀.pgdir

section Run

variable {l : Sentinels Ptr} {a : Ptr} {part : Mounted} {disk : Bytes} {s₀ s : State T P}
  {cur : T} {n : ℕ} {new buf p : Ptr} {ps : List Ptr}

/-- The count of an inode is the number of its openings that are not closed. -/
theorem Inv.count_eq (h : Inv l s₀ s ps) (hp : p ∈ ps) :
    (s.mem.inode p).iOpenCnts + s.closes (s.mem.inode p).iNo = s.opens (s.mem.inode p).iNo := by
  rw [h.counts p hp, h.ledger, Nat.add_comm]
  congr 1
  refine List.countP_congr fun x hx => ?_
  obtain ⟨hmem, hno⟩ := h.held x.1 x.2 hx
  rw [decide_eq_true_iff, decide_eq_true_iff]
  constructor
  · rintro rfl
    exact hno.symm
  · intro heq
    exact List.inj_on_of_nodup_map h.numbers hmem hp (hno.trans heq)

theorem Inv.mem_iff (h : Inv l s₀ s ps) (n : ℕ) :
    (n ∈ ps.map fun p => (s.mem.inode p).iNo) ↔ s.closes n < s.opens n := by
  constructor
  · intro hn
    obtain ⟨p, hp, rfl⟩ := List.mem_map.mp hn
    have hcount := h.count_eq hp
    obtain ⟨k, hk⟩ := h.isHeld p hp
    have hpos : 0 < s.held.countP fun h => h.2 = p :=
      List.countP_pos_iff.mpr ⟨_, hk, decide_eq_true rfl⟩
    have := h.counts p hp
    omega
  · intro hlt
    have hledger := h.ledger n
    have hpos : 0 < s.held.countP fun h => h.1 = n := by omega
    obtain ⟨⟨k, p⟩, hx, hk⟩ := List.countP_pos_iff.mp hpos
    obtain rfl : k = n := of_decide_eq_true hk
    obtain ⟨hmem, hno⟩ := h.held k p hx
    exact List.mem_map.mpr ⟨p, hmem, hno⟩

theorem Inv.find_some (h : Inv l s₀ s ps) (hp : p ∈ ps) (hno : (s.mem.inode p).iNo = n) :
    (ps.find? fun p => (s.mem.inode p).iNo = n) = some p := by
  cases hfind : ps.find? fun p => (s.mem.inode p).iNo = n with
  | none => exact absurd (decide_eq_true hno) (List.find?_eq_none.mp hfind p hp)
  | some q =>
    have hq : (s.mem.inode q).iNo = n := by simpa using List.find?_some hfind
    rw [List.inj_on_of_nodup_map h.numbers (List.mem_of_find?_eq_some hfind) hp (hq.trans hno.symm)]

theorem Inv.refCounted [DecidableEq T] [DecidableEq P] (h : Inv l s₀ s ps) :
    RefCounted l part disk s₀ s where
  cache := ⟨ps, h.cache, h.numbers, h.mem_iff, fun _ hp => h.count_eq hp, h.kernel⟩
  shared := by
    intro n hn
    obtain ⟨p, hp, hno⟩ := List.mem_map.mp ((h.mem_iff n).mpr hn)
    obtain ⟨k, hk⟩ := h.isHeld p hp
    have hkn : k = n := (h.held k p hk).2.symm.trans hno
    refine ⟨p, hkn ▸ hk, fun q hq => ?_, fun cur new buf => ?_⟩
    · obtain ⟨hmem, hqn⟩ := h.held n q hq
      exact List.inj_on_of_nodup_map h.numbers hmem hp (hqn.trans hno.symm)
    · exact ⟨_, inodeOpen_hit h.cache (h.find_some hp hno)⟩
  closed := by
    intro hall
    have hps : ps = [] := by
      refine List.eq_nil_iff_forall_not_mem.mpr fun p hp => ?_
      have := (h.mem_iff _).mp (List.mem_map_of_mem (f := fun p => (s.mem.inode p).iNo) hp)
      exact absurd (hall _) (Nat.ne_of_lt this)
    subst hps
    refine ⟨?_, h.kernel⟩
    exact listEmpty_isList (tags_lawful l) h.cache
  heaps := h.heaps
  pgdir := h.pgdir

/-- An element of the heap is no sentinel. -/
theorem tag_bounds (ha : Static a) (hnew : InHeap new) :
    tag new ≠ 0#32 ∧ tag new ≠ (openInodes a).head ∧ tag new ≠ (openInodes a).tail := by
  unfold Static kHeapStart at ha
  unfold InHeap kHeapStart inodeSize at hnew
  unfold tag openInodes
  refine ⟨?_, ?_, ?_⟩ <;> bv_omega

theorem openInodes_bounds (ha : Static a) :
    (openInodes a).head ≠ 0#32 ∧ (openInodes a).tail ≠ 0#32 ∧
      (openInodes a).head ≠ (openInodes a).tail := by
  unfold Static kHeapStart at ha
  unfold openInodes
  refine ⟨?_, ?_, ?_⟩ <;> bv_omega

/-- `list_init` gives the list of `init`, whatever was in its place. -/
theorem listInit_eq (ha : Static a) (m : Memory) (pgdir : T → Option P)
    (live : Option P → List Ptr) :
    listInit (tags (openInodes a)) m (openInodes a) =
      .ok (init (openInodes a) m.inode pgdir live).mem := by
  obtain ⟨hhead, htail, hne⟩ := openInodes_bounds ha
  simp [listInit, LinkHeap.init, LinkHeap.putPrev, LinkHeap.putNext, tags, hhead, htail, hne.symm,
    bind, Except.bind, liftFault, init]

theorem inv_init (ha : Static a) (inode : Ptr → Inode) (pgdir : T → Option P)
    (live : Option P → List Ptr) :
    Inv (openInodes a) (init (openInodes a) inode pgdir live) (init (openInodes a) inode pgdir live)
      [] where
  cache := by
    obtain ⟨hhead, htail, hne⟩ := openInodes_bounds ha
    have hinit := listInit_eq ha ⟨⟨0#32, 0#32⟩, ⟨0#32, 0#32⟩, inode⟩ pgdir live
    obtain ⟨m, hok, hlist, -⟩ := LinkHeap.isList_init (tags_lawful (openInodes a))
      (h := ⟨⟨0#32, 0#32⟩, ⟨0#32, 0#32⟩, inode⟩) hhead htail hne
    unfold listInit at hinit
    rw [hok] at hinit
    rw [← Except.ok.inj hinit]
    exact hlist
  numbers := List.nodup_nil
  counts _ hp := absurd hp List.not_mem_nil
  isHeld _ hp := absurd hp List.not_mem_nil
  held _ _ hp := absurd hp List.not_mem_nil
  ledger _ := rfl
  kernel := List.Perm.refl _
  heaps _ := rfl
  pgdir := rfl

variable [DecidableEq T] [DecidableEq P]

theorem Inv.open_step {r : Except Halt (State T P)} (h : Inv (openInodes a) s₀ s ps) (ha : Static a)
    (htable : TableOnDisk part) (hc : Careful part disk s (.inodeOpen cur n new buf))
    (hstep : (machine T P (openInodes a) part disk).step s (.inodeOpen cur n new buf) = some r) :
    (∃ s', r = .ok s' ∧ ∃ ps', Inv (openInodes a) s₀ s' ps') ∨
      r = .error (.panic "inode_locate" "inode_no < 4096") := by
  obtain ⟨hnum, hwrap⟩ := hc
  simp only [machine] at hstep
  split at hstep
  · next hgrants =>
    obtain ⟨hheap, hfree, -⟩ := hgrants
    rw [Option.some.injEq] at hstep
    cases hfind : ps.find? fun p => (s.mem.inode p).iNo = n with
    | some p =>
      have hp := List.mem_of_find?_eq_some hfind
      have hno : (s.mem.inode p).iNo = n := by simpa using List.find?_some hfind
      have hcount := h.count_eq hp
      rw [hno] at hcount
      rw [inodeOpen_hit h.cache hfind, ok_bind] at hstep
      exact Or.inl ⟨_, hstep.symm, ps, h.hit hp hno (by omega)⟩
    | none =>
      by_cases hn : n < 4096
      · obtain ⟨hnull, hhead, htail⟩ := tag_bounds ha hheap
        have hout : tag new ∉ LinkHeap.nodes (openInodes a) (ps.map tag) := by
          rw [LinkHeap.mem_nodes]
          rintro (heq | hmem | heq)
          · exact hhead heq
          · obtain ⟨q, hq, hqn⟩ := List.mem_map.mp hmem
            exact hfree (h.kernel.mem_iff.mpr (List.mem_append_left _ (tag_inj hqn ▸ hq)))
          · exact htail heq
        obtain ⟨mem, hopen, hcache, hcnt, hsame, hread⟩ :=
          inodeOpen_miss disk cur buf h.cache htable hfind hn hnull hout
        have hnew : (mem.inode new).iNo = n := by
          rw [hread _ (inodeRead_eq htable hn disk)]
          refine hnum _ ?_
          rw [inodeRead_eq htable hn disk]
          rfl
        rw [hopen, ok_bind] at hstep
        refine Or.inl ⟨_, hstep.symm, new :: ps, h.miss hcache hcnt hnew hsame fun q hq => ?_⟩
        simpa using List.find?_eq_none.mp hfind q hq
      · rw [inodeOpen_panic h.cache hfind hn] at hstep
        exact Or.inr hstep.symm
  · cases hstep

theorem Inv.close_step {r : Except Halt (State T P)} (h : Inv l s₀ s ps)
    (hstep : (machine T P l part disk).step s (.inodeClose cur n p) = some r) :
    ∃ s', r = .ok s' ∧ ∃ ps', Inv l s₀ s' ps' := by
  simp only [machine] at hstep
  split at hstep
  · next hheld =>
    rw [Option.some.injEq] at hstep
    obtain ⟨hself, -⟩ := h.counts_erase hheld
    by_cases hcnt : (s.mem.inode p).iOpenCnts = 1
    · obtain ⟨pre, post, rfl⟩ := List.append_of_mem (h.held n p hheld).1
      obtain ⟨mem, hclose, hcache, hsame⟩ := inodeClose_last cur h.cache hcnt
      rw [hclose, ok_bind] at hstep
      exact ⟨_, hstep.symm, pre ++ post, h.last hheld hcnt hcache hsame⟩
    · have hmore : 1 < (s.mem.inode p).iOpenCnts := by omega
      rw [inodeClose_more hmore, ok_bind] at hstep
      exact ⟨_, hstep.symm, ps, h.more hheld hmore⟩
  · cases hstep

/-- **Reference counting.**  In every run of calls in which the slots on disk carry their numbers
and no count wraps around, by kernel threads or processes, each call returns, unless it opens a
number that no inode has, and every state is as the callers rely on. -/
theorem inode_refs (T P : Type) [DecidableEq T] [DecidableEq P] (a : Ptr) (ha : Static a)
    (part : Mounted) (htable : TableOnDisk part) (disk : Bytes) (inode : Ptr → Inode)
    (pgdir : T → Option P) (live : Option P → List Ptr) (es : List (Event T))
    (r : Except Halt (State T P))
    (hrun : ((machine T P (openInodes a) part disk).guard (Careful part disk)).run
      (init (openInodes a) inode pgdir live) es = some r) :
    (∃ s, r = .ok s ∧
      RefCounted (openInodes a) part disk (init (openInodes a) inode pgdir live) s) ∨
    r = .error (.panic "inode_locate" "inode_no < 4096") := by
  have key := Machine.run_cases
    (I := fun s => ∃ ps, Inv (openInodes a) (init (openInodes a) inode pgdir live) s ps)
    (Q := fun x => x = .panic "inode_locate" "inode_no < 4096")
    (fun s e r hs hstep => ?_) ⟨[], inv_init ha inode pgdir live⟩ hrun
  · rcases key with ⟨s, hr, ps, hs⟩ | ⟨x, hr, hx⟩
    · exact Or.inl ⟨s, hr, hs.refCounted⟩
    · exact Or.inr (hr.trans (congrArg _ hx))
  · obtain ⟨ps, hs⟩ := hs
    obtain ⟨hc, hstep⟩ := Machine.guard_step hstep
    cases e with
    | inodeOpen cur n new buf =>
      exact (hs.open_step ha htable hc hstep).imp_right fun h => ⟨_, h, rfl⟩
    | inodeClose cur n p => exact Or.inl (hs.close_step hstep)

end Run

/-- The disk after `partition_format` of the partition. -/
def freshDisk : Bytes := formatted ⟨63, 4708, 1, "sdb1"⟩ zeros zeros

/-- The inode 0 is opened by the process 7 and again by a kernel thread, and closed by both. -/
def shareRoot : List (Event Bool) :=
  [.inodeOpen true 0 0xc0101000#32 0x8048000#32, .inodeOpen false 0 0xc0102000#32 0xc0103000#32,
    .inodeClose true 0 0xc0101000#32, .inodeClose false 0 0xc0101000#32]

/-- `true` is the process, and the kernel has a block in use. -/
def shareInit : State Bool ℕ :=
  init (openInodes 0xc0008000#32) (fun _ => zeros) (fun t => if t = true then some 7 else none)
    fun heap => if heap = none then [0xc0100000#32] else []

theorem inode_refs_shareRoot : ∃ s : State Bool ℕ,
    ((machine Bool ℕ (openInodes 0xc0008000#32) InodeCache.part₀ freshDisk).guard
        (Careful InodeCache.part₀ freshDisk)).run shareInit shareRoot = some (.ok s) ∧
      s.opens 0 = 2 ∧ s.closes 0 = 2 ∧
      RefCounted (openInodes 0xc0008000#32) InodeCache.part₀ freshDisk shareInit s := by
  have htest : ∃ s : State Bool ℕ,
      ((machine Bool ℕ (openInodes 0xc0008000#32) InodeCache.part₀ freshDisk).guard
          (Careful InodeCache.part₀ freshDisk)).run shareInit shareRoot = some (.ok s) ∧
        decide (s.opens 0 = 2 ∧ s.closes 0 = 2) = true :=
    Machine.run_of_test _ (by decide +kernel)
  obtain ⟨s, hrun, hcounts⟩ := htest
  obtain ⟨hopens, hcloses⟩ := of_decide_eq_true hcounts
  refine ⟨s, hrun, hopens, hcloses, ?_⟩
  rcases inode_refs Bool ℕ 0xc0008000#32 (by decide) InodeCache.part₀
      (mounted_tableOnDisk ⟨by decide, by decide⟩) freshDisk _ _ _ shareRoot (.ok s) hrun with
    ⟨s', hs, h⟩ | hpanic
  · cases hs
    exact h
  · cases hpanic

/-- The inode 5 is opened twice. -/
def openTwice : List (Event Bool) :=
  [.inodeOpen false 5 0xc0101000#32 0xc0102000#32, .inodeOpen false 5 0xc0103000#32 0xc0104000#32]

/-- `partition_format` leaves all inodes but the first blank, so the one in the slot 5 has the
number 0. -/
theorem not_refCounted_openTwice : ∃ s : State Bool ℕ,
    (machine Bool ℕ (openInodes 0xc0008000#32) InodeCache.part₀ freshDisk).run shareInit
        openTwice = some (.ok s) ∧
      ¬RefCounted (openInodes 0xc0008000#32) InodeCache.part₀ freshDisk shareInit s := by
  have htest : ∃ s : State Bool ℕ,
      (machine Bool ℕ (openInodes 0xc0008000#32) InodeCache.part₀ freshDisk).run shareInit
          openTwice = some (.ok s) ∧
        decide (s.held = [(5, 0xc0103000#32), (5, 0xc0101000#32)] ∧
          s.closes 5 < s.opens 5) = true :=
    Machine.run_of_test _ (by decide +kernel)
  obtain ⟨s, hrun, htest⟩ := htest
  obtain ⟨hheld, hopen⟩ := of_decide_eq_true htest
  refine ⟨s, hrun, fun h => ?_⟩
  obtain ⟨p, -, hsame, -⟩ := h.shared 5 hopen
  have hfirst := hsame 0xc0101000#32 (by rw [hheld]; decide)
  have hsecond := hsame 0xc0103000#32 (by rw [hheld]; decide)
  exact absurd (hfirst.trans hsecond.symm) (by decide)

end HcOs.InodeRefs
