import HcOs.Fs.OpenInodes
import HcOs.Kernel.List
import HcOs.Kernel.Page

/-!
# `inode_open` and `inode_close` over the linked list (`fs/inode.c`)

The two functions called one after the other by kernel threads and processes, with `open_inodes` as
the linked list it is: an inode is in the list through its `inode_tag`, which is part of the 76
bytes that `inode_open` copies from the disk, and so is the count.

A thread allocates in the heap that its `pgdir` says; both functions set it to `NULL` around the
allocation and the release of an inode, but not around those of the buffer.  Of the heaps only the
addresses in use are kept; that blocks in use do not overlap is `blocks_disjoint`.

One lemma for each way through the functions: `inodeOpen_hit`, `inodeOpen_miss`, `inodeOpen_panic`,
`inodeClose_more`, `inodeClose_last`.
-/

namespace HcOs.InodeRefs

open HcOs.Lib HcOs.Fs HcOs.Sectors HcOs.Page
open HcOs.InodeCache (Numbered)

abbrev Ptr := BitVec 32

/-! ## The list -/

/-- `struct list_elem`. -/
structure ListElem where
  prev : Ptr
  next : Ptr
  deriving DecidableEq

/-- `open_inodes` of the partition, and the inodes at their addresses. -/
structure Memory where
  head : ListElem
  tail : ListElem
  inode : Ptr → Inode

def Memory.setInode (m : Memory) (p : Ptr) (inode : Inode) : Memory :=
  { m with inode := Function.update m.inode p inode }

/-- `&inode->inode_tag`. -/
def tag (p : Ptr) : Ptr := p + 68#32

/-- `elem2entry(struct inode, inode_tag, elem)`. -/
def elem2entry (elem : Ptr) : Ptr := elem - 68#32

/-- `part->open_inodes` at its address. -/
def openInodes (part : Ptr) : Sentinels Ptr := ⟨part, part + 8#32⟩

def linkAt (inode : Inode) (off : ℕ) : Ptr := BitVec.ofNat 32 (inode.getWord off)

/-- The links of the elements: `inode_tag` is at the offset 68 of an inode. -/
def tags (l : Sentinels Ptr) : LinkHeap Memory Ptr where
  null := 0#32
  prev m e :=
    if e = l.head then m.head.prev else if e = l.tail then m.tail.prev
    else linkAt (m.inode (elem2entry e)) 68
  next m e :=
    if e = l.head then m.head.next else if e = l.tail then m.tail.next
    else linkAt (m.inode (elem2entry e)) 72
  setPrev m e v :=
    if e = l.head then { m with head := { m.head with prev := v } }
    else if e = l.tail then { m with tail := { m.tail with prev := v } }
    else m.setInode (elem2entry e) (Bytes.putWord (m.inode (elem2entry e)) 68 v.toNat)
  setNext m e v :=
    if e = l.head then { m with head := { m.head with next := v } }
    else if e = l.tail then { m with tail := { m.tail with next := v } }
    else m.setInode (elem2entry e) (Bytes.putWord (m.inode (elem2entry e)) 72 v.toNat)

/-! ## Threads and heaps -/

/-- `T` are the threads, `P` the processes, and `none` stands for the kernel. -/
structure State (T P : Type) where
  mem : Memory
  /-- Whose page directory a thread has; `NULL` is `none`. -/
  pgdir : T → Option P
  /-- The addresses in use in each heap. -/
  live : Option P → List Ptr
  /-- The openings that have not been closed: the number, and the pointer that was returned. -/
  held : List (ℕ × Ptr)
  opens : ℕ → ℕ
  closes : ℕ → ℕ

variable {T P : Type} [DecidableEq T] [DecidableEq P]

def State.setInode (s : State T P) (p : Ptr) (inode : Inode) : State T P :=
  { s with mem := s.mem.setInode p inode }

def State.setPgdir (s : State T P) (cur : T) (pgdir : Option P) : State T P :=
  { s with pgdir := Function.update s.pgdir cur pgdir }

/-- `sys_malloc` with the result `a`: the heap is that of `cur->pgdir`. -/
def State.sysMalloc (s : State T P) (cur : T) (a : Ptr) : State T P :=
  { s with live := Function.update s.live (s.pgdir cur) (a :: s.live (s.pgdir cur)) }

/-- `sys_free`: a block of another heap is not given back. -/
def State.sysFree (s : State T P) (cur : T) (a : Ptr) : State T P :=
  { s with live := Function.update s.live (s.pgdir cur) ((s.live (s.pgdir cur)).erase a) }

/-! ## `inode_open` and `inode_close` -/

/-- The loop of `inode_open`. -/
def searchLoop (l : Sentinels Ptr) (m : Memory) (inodeNo : ℕ) : ℕ → Ptr → Except Fault (Option Ptr)
  | 0, _ => .error .loop
  | fuel + 1, elem =>
    if elem = l.tail then .ok none
    else if (m.inode (elem2entry elem)).iNo = inodeNo then .ok (some (elem2entry elem))
    else do
      let next ← (tags l).getNext m elem
      searchLoop l m inodeNo fuel next

/-- The search in `open_inodes`; a walk through as many elements as there are addresses never
ends. -/
def search (l : Sentinels Ptr) (m : Memory) (inodeNo : ℕ) : Except Halt (Option Ptr) :=
  liftFault (do
    let first ← (tags l).getNext m l.head
    searchLoop l m inodeNo (2 ^ 32) first)

/-- `inode_open` of the thread `cur`; `new` and `buf` are what `sys_malloc` returns, if called. -/
def inodeOpen (l : Sentinels Ptr) (part : Mounted) (disk : Bytes) (s : State T P) (cur : T)
    (inodeNo : ℕ) (new buf : Ptr) : Except Halt (State T P × Ptr) := do
  match ← search l s.mem inodeNo with
  | some found =>
    let cnts := ((s.mem.inode found).iOpenCnts + 1) % 2 ^ 32
    .ok (s.setInode found ((s.mem.inode found).setOpenCnts cnts), found)
  | none =>
    let pos ← inodeLocate part inodeNo
    let pagedirBak := s.pgdir cur
    let s := s.setPgdir cur none
    let s := s.sysMalloc cur new
    let s := s.setPgdir cur pagedirBak
    let s := s.sysMalloc cur buf
    let inodeBuf ← ideRead disk part.devNo pos.secLba zeros 0 pos.sects
    let s := s.setInode new (zeros.copy 0 inodeBuf pos.offSize inodeSize)
    let mem ← listPush (tags l) s.mem l (tag new)
    let s := { s with mem := mem }
    let s := s.setInode new ((s.mem.inode new).setOpenCnts 1)
    let s := s.sysFree cur buf
    .ok (s, new)

/-- `inode_close`. -/
def inodeClose (l : Sentinels Ptr) (s : State T P) (cur : T) (inode : Ptr) :
    Except Halt (State T P) := do
  let cnts := ((s.mem.inode inode).iOpenCnts + 2 ^ 32 - 1) % 2 ^ 32
  let s := s.setInode inode ((s.mem.inode inode).setOpenCnts cnts)
  if (s.mem.inode inode).iOpenCnts = 0 then
    let mem ← listRemove (tags l) s.mem (tag inode)
    let s := { s with mem := mem }
    let pagedirBak := s.pgdir cur
    let s := s.setPgdir cur none
    let s := s.sysFree cur inode
    .ok (s.setPgdir cur pagedirBak)
  else .ok s

inductive Event (T : Type) where
  | inodeOpen (cur : T) (inodeNo : ℕ) (new buf : Ptr)
  | inodeClose (cur : T) (inodeNo : ℕ) (inode : Ptr)

/-- The inodes of the kernel's heap. -/
def InHeap (p : Ptr) : Prop := kHeapStart ≤ p.toNat ∧ p.toNat + inodeSize ≤ 2 ^ 32

instance (p : Ptr) : Decidable (InHeap p) := inferInstanceAs (Decidable (_ ∧ _))

/-- `sys_malloc` can return these two addresses. -/
def Grants (s : State T P) (cur : T) (new buf : Ptr) : Prop :=
  InHeap new ∧ new ∉ s.live none ∧ buf ∉ s.live (s.pgdir cur) ∧ (s.pgdir cur = none → buf ≠ new)

instance (s : State T P) (cur : T) (new buf : Ptr) : Decidable (Grants s cur new buf) :=
  inferInstanceAs (Decidable (_ ∧ _ ∧ _ ∧ (_ → _)))

/-- The calls; a close is one of an opening that has not been closed yet. -/
def machine (T P : Type) [DecidableEq T] [DecidableEq P] (l : Sentinels Ptr) (part : Mounted)
    (disk : Bytes) : Machine (State T P) (Event T) Halt where
  step s
    | .inodeOpen cur n new buf =>
      if Grants s cur new buf then some (do
        let (s, p) ← inodeOpen l part disk s cur n new buf
        .ok { s with
          held := (n, p) :: s.held
          opens := Function.update s.opens n (s.opens n + 1) })
      else none
    | .inodeClose cur n p =>
      if (n, p) ∈ s.held then some (do
        let s ← inodeClose l s cur p
        .ok { s with
          held := s.held.erase (n, p)
          closes := Function.update s.closes n (s.closes n + 1) })
      else none

/-- The partition has just been mounted: `open_inodes` is as `list_init` leaves it. -/
def init (l : Sentinels Ptr) (inode : Ptr → Inode) (pgdir : T → Option P)
    (live : Option P → List Ptr) : State T P where
  mem := ⟨⟨0#32, l.tail⟩, ⟨l.head, 0#32⟩, inode⟩
  pgdir := pgdir
  live := live
  held := []
  opens _ := 0
  closes _ := 0

/-! ## The links in memory -/

section Links

variable {l : Sentinels Ptr} {m m' : Memory} {e p : Ptr} {ps : List Ptr} {n : ℕ}

@[simp] theorem elem2entry_tag (p : Ptr) : elem2entry (tag p) = p := by
  unfold elem2entry tag
  bv_omega

theorem elem2entry_inj {e e' : Ptr} (h : elem2entry e = elem2entry e') : e = e' := by
  unfold elem2entry at h
  bv_omega

theorem tag_inj : Function.Injective tag := fun p q h => by
  rw [← elem2entry_tag p, h, elem2entry_tag]

theorem linkAt_putWord (inode : Inode) (off : ℕ) (v : Ptr) :
    linkAt (Bytes.putWord inode off v.toNat) off = v := by
  unfold linkAt
  rw [Bytes.getWord_putWord, Nat.mod_eq_of_lt v.isLt, BitVec.ofNat_toNat, BitVec.setWidth_eq]

theorem linkAt_putWord_of_apart {inode : Inode} {off off' w : ℕ}
    (h : off + 4 ≤ off' ∨ off' + 4 ≤ off) :
    linkAt (Bytes.putWord inode off' w) off = linkAt inode off := by
  unfold linkAt
  rw [Bytes.getWord_putWord_of_apart h]

theorem setInode_self (m : Memory) (p : Ptr) (inode : Inode) :
    (m.setInode p inode).inode p = inode :=
  Function.update_self _ _ _

theorem setInode_of_ne (m : Memory) {p q : Ptr} (h : q ≠ p) (inode : Inode) :
    (m.setInode p inode).inode q = m.inode q :=
  Function.update_of_ne h _ _

/-- No two elements share a link, whatever their addresses. -/
theorem tags_lawful (l : Sentinels Ptr) : (tags l).Lawful (· ≠ 0#32) where
  ne_null h := h
  prev_setPrev m a b _ := by
    simp only [tags]
    split_ifs
    · rfl
    · rfl
    · rw [setInode_self, linkAt_putWord]
  next_setNext m a b _ := by
    simp only [tags]
    split_ifs
    · rfl
    · rfl
    · rw [setInode_self, linkAt_putWord]
  prev_setPrev_ne m a c b _ _ hne := by
    have hentry : elem2entry c ≠ elem2entry a := fun h => hne (elem2entry_inj h)
    simp only [tags]
    split_ifs <;> first | rfl | simp_all [Memory.setInode]
  next_setNext_ne m a c b _ _ hne := by
    have hentry : elem2entry c ≠ elem2entry a := fun h => hne (elem2entry_inj h)
    simp only [tags]
    split_ifs <;> first | rfl | simp_all [Memory.setInode]
  prev_setNext m a c b _ _ := by
    simp only [tags]
    split_ifs <;> first | rfl | skip
    rcases eq_or_ne (elem2entry c) (elem2entry a) with heq | hne
    · rw [heq, setInode_self, linkAt_putWord_of_apart (by omega)]
    · rw [setInode_of_ne _ hne]
  next_setPrev m a c b _ _ := by
    simp only [tags]
    split_ifs <;> first | rfl | skip
    rcases eq_or_ne (elem2entry c) (elem2entry a) with heq | hne
    · rw [heq, setInode_self, linkAt_putWord_of_apart (by omega)]
    · rw [setInode_of_ne _ hne]

/-- A new value for an inode leaves the links of all other elements. -/
theorem links_setInode (inode : Inode) (h : e ≠ tag p) :
    (tags l).prev (m.setInode p inode) e = (tags l).prev m e ∧
      (tags l).next (m.setInode p inode) e = (tags l).next m e := by
  have hne : elem2entry e ≠ p := by
    rintro rfl
    exact h (elem2entry_inj (elem2entry_tag _).symm)
  simp only [tags]
  rw [setInode_of_ne m hne]
  exact ⟨rfl, rfl⟩

/-- A count is no link. -/
theorem links_setOpenCnts (e : Ptr) (v : ℕ) :
    (tags l).prev (m.setInode p ((m.inode p).setOpenCnts v)) e = (tags l).prev m e ∧
      (tags l).next (m.setInode p ((m.inode p).setOpenCnts v)) e = (tags l).next m e := by
  rcases eq_or_ne e (tag p) with rfl | hne
  · simp only [tags, elem2entry_tag]
    rw [setInode_self]
    unfold Inode.setOpenCnts
    rw [linkAt_putWord_of_apart (by omega), linkAt_putWord_of_apart (by omega)]
    exact ⟨rfl, rfl⟩
  · exact links_setInode _ hne

/-- The elements of `open_inodes` are the tags of the inodes `ps`. -/
def IsCache (l : Sentinels Ptr) (m : Memory) (ps : List Ptr) : Prop :=
  (tags l).IsList (· ≠ 0#32) m l (ps.map tag)

theorem IsCache.setOpenCnts (h : IsCache l m ps) (p : Ptr) (v : ℕ) :
    IsCache l (m.setInode p ((m.inode p).setOpenCnts v)) ps :=
  h.congr (fun e _ => (links_setOpenCnts e v).1) fun e _ => (links_setOpenCnts e v).2

theorem IsCache.load (h : IsCache l m ps) (hout : tag p ∉ LinkHeap.nodes l (ps.map tag))
    (inode : Inode) : IsCache l (m.setInode p inode) ps := by
  have hne : ∀ e ∈ LinkHeap.nodes l (ps.map tag), e ≠ tag p := by
    rintro e he rfl
    exact hout he
  exact h.congr (fun e he => (links_setInode inode (hne e he)).1)
    fun e he => (links_setInode inode (hne e he)).2

theorem IsCache.nodup (h : IsCache l m ps) : ps.Nodup := by
  have hnodes := LinkHeap.IsList.nodup h
  unfold LinkHeap.nodes at hnodes
  exact (hnodes.of_cons.sublist (List.sublist_append_left _ _)).of_map

/-- There are more addresses than inodes. -/
theorem IsCache.length_lt (h : IsCache l m ps) : ps.length < 2 ^ 32 := by
  have hlen := LinkHeap.IsList.length_lt h
  rwa [List.length_map] at hlen

/-- Links are the last 8 bytes of an inode. -/
theorem edits_word {X : Ptr → Prop} (he : (tags l).Edits X m m') (p : Ptr) {a : ℕ}
    (ha : a + 4 ≤ 68) :
    (m'.inode p).getWord a = (m.inode p).getWord a := by
  refine he.keeps (fun m => Bytes.getWord (m.inode p) a) (fun m e b _ => ?_) fun m e b _ => ?_
  · simp only [tags]
    split_ifs
    · rfl
    · rfl
    · rcases eq_or_ne p (elem2entry e) with rfl | hne
      · rw [setInode_self, Bytes.getWord_putWord_of_apart (by omega)]
      · rw [setInode_of_ne m hne]
  · simp only [tags]
    split_ifs
    · rfl
    · rfl
    · rcases eq_or_ne p (elem2entry e) with rfl | hne
      · rw [setInode_self, Bytes.getWord_putWord_of_apart (by omega)]
      · rw [setInode_of_ne m hne]

/-- The loop from the element of `ps` on which it stands. -/
theorem searchLoop_eq (pre : List Ptr) {fuel : ℕ} (h : IsCache l m (pre ++ ps))
    (hfuel : ps.length < fuel) :
    searchLoop l m n fuel ((ps.map tag ++ [l.tail]).head (by simp)) =
      .ok (ps.find? fun p => (m.inode p).iNo = n) := by
  induction ps generalizing pre fuel with
  | nil =>
    obtain ⟨fuel, rfl⟩ := Nat.exists_eq_add_of_lt hfuel
    exact if_pos rfl
  | cons p ps ih =>
    obtain ⟨fuel, rfl⟩ : ∃ k, fuel = k + 1 := ⟨fuel - 1, by omega⟩
    have hlist : (tags l).IsList (· ≠ 0#32) m l (pre.map tag ++ tag p :: ps.map tag) := by
      have := h
      unfold IsCache at this
      rwa [List.map_append, List.map_cons] at this
    have hne : tag p ≠ l.tail := by
      have hnodes := hlist.nodup
      unfold LinkHeap.nodes at hnodes
      exact (List.nodup_append.mp hnodes.of_cons).2.2 _ (by simp) _ (by simp)
    show searchLoop l m n (fuel + 1) (tag p) = _
    rw [searchLoop, if_neg hne, elem2entry_tag, List.find?_cons]
    by_cases hno : (m.inode p).iNo = n
    · rw [if_pos hno, decide_eq_true hno]
    · rw [if_neg hno, decide_eq_false hno, hlist.getNext_mem (tags_lawful l)]
      have hrest : IsCache l m ((pre ++ [p]) ++ ps) := by
        rw [List.append_assoc]
        exact h
      exact ih (pre ++ [p]) hrest (by simpa using hfuel)

/-- The search finds the inode of the list that has the number. -/
theorem search_eq (h : IsCache l m ps) (n : ℕ) :
    search l m n = .ok (ps.find? fun p => (m.inode p).iNo = n) := by
  have hlen : ps.length < 2 ^ 32 := h.length_lt
  have hfirst := LinkHeap.IsList.getNext_head (tags_lawful l) h
  unfold search
  rw [hfirst]
  show liftFault (searchLoop l m n (2 ^ 32) _) = _
  rw [searchLoop_eq [] h hlen]
  rfl

end Links

/-! ## The two calls -/

section Calls

variable {l : Sentinels Ptr} {part : Mounted} {disk : Bytes} {s : State T P} {cur : T} {n : ℕ}
  {new buf p : Ptr} {ps : List Ptr}

/-- `m'` has the numbers and counts of `m`, except for the inode `p`. -/
def SameBut (p : Ptr) (m m' : Memory) : Prop :=
  ∀ q, q ≠ p → (m'.inode q).iNo = (m.inode q).iNo ∧ (m'.inode q).iOpenCnts = (m.inode q).iOpenCnts

/-- With `pgdir` set to `NULL` a process allocates in the kernel's heap. -/
theorem kernel_malloc (s : State T P) (cur : T) (a : Ptr) :
    ((s.setPgdir cur none).sysMalloc cur a).setPgdir cur (s.pgdir cur) =
      { s with live := Function.update s.live none (a :: s.live none) } := by
  unfold State.setPgdir State.sysMalloc
  dsimp only
  rw [Function.update_self, Function.update_idem, Function.update_eq_self]

theorem kernel_free (s : State T P) (cur : T) (a : Ptr) :
    ((s.setPgdir cur none).sysFree cur a).setPgdir cur (s.pgdir cur) =
      { s with live := Function.update s.live none ((s.live none).erase a) } := by
  unfold State.setPgdir State.sysFree
  dsimp only
  rw [Function.update_self, Function.update_idem, Function.update_eq_self]

omit [DecidableEq T] in
/-- The buffer goes back to the heap it came from. -/
theorem malloc_free (s : State T P) (cur : T) (a : Ptr) (mem : Memory) :
    State.sysFree { s.sysMalloc cur a with mem := mem } cur a = { s with mem := mem } := by
  unfold State.sysFree State.sysMalloc
  dsimp only
  rw [Function.update_self, List.erase_cons_head, Function.update_idem, Function.update_eq_self]

/-- `inode_open` of an inode in memory. -/
theorem inodeOpen_hit (h : IsCache l s.mem ps)
    (hfind : (ps.find? fun p => (s.mem.inode p).iNo = n) = some p) :
    inodeOpen l part disk s cur n new buf = .ok (s.setInode p
      ((s.mem.inode p).setOpenCnts (((s.mem.inode p).iOpenCnts + 1) % 2 ^ 32)), p) := by
  unfold inodeOpen
  rw [search_eq h, hfind]
  rfl

/-- `inode_open` of a number that no inode can have. -/
theorem inodeOpen_panic (h : IsCache l s.mem ps)
    (hfind : (ps.find? fun p => (s.mem.inode p).iNo = n) = none) (hn : ¬n < 4096) :
    inodeOpen l part disk s cur n new buf = .error (.panic "inode_locate" "inode_no < 4096") := by
  unfold inodeOpen
  rw [search_eq h, hfind, ok_bind]
  dsimp only
  unfold inodeLocate
  rw [assert_bind_of_not hn]
  rfl

/-- `inode_open` of an inode on disk: of the links and the count that are read with it nothing
remains. -/
theorem inodeOpen_miss (disk : Bytes) (cur : T) (buf : Ptr) (h : IsCache l s.mem ps)
    (htable : TableOnDisk part)
    (hfind : (ps.find? fun p => (s.mem.inode p).iNo = n) = none) (hn : n < 4096)
    (hnull : tag new ≠ 0#32) (hout : tag new ∉ LinkHeap.nodes l (ps.map tag)) :
    ∃ mem, inodeOpen l part disk s cur n new buf =
        .ok ({ s with
          mem := mem
          live := Function.update s.live none (new :: s.live none) }, new) ∧
      IsCache l mem (new :: ps) ∧ (mem.inode new).iOpenCnts = 1 ∧ SameBut new s.mem mem ∧
      ∀ inode, inodeRead part n disk = .ok inode → (mem.inode new).iNo = inode.iNo := by
  obtain ⟨pos, hpos, -⟩ := inodeLocate_spec htable hn
  have hread := inodeRead_eq htable hn disk
  unfold inodeRead at hread
  rw [hpos, ok_bind] at hread
  obtain ⟨inodeBuf, hbuf, hinode⟩ := bind_eq_ok.mp hread
  obtain ⟨mem, hpush, hlist, hedits⟩ := LinkHeap.IsList.push (tags_lawful l)
    (h.load hout (zeros.copy 0 inodeBuf pos.offSize inodeSize)) hnull hout
  have hcache : IsCache l mem (new :: ps) := hlist
  have hpush' : listPush (tags l) (s.mem.setInode new
      (zeros.copy 0 inodeBuf pos.offSize inodeSize)) l (tag new) = .ok mem := liftFault_ok hpush
  refine ⟨mem.setInode new ((mem.inode new).setOpenCnts 1), ?_,
    hcache.setOpenCnts new 1, ?_, fun q hq => ?_, fun inode hi => ?_⟩
  · unfold inodeOpen
    rw [search_eq h, hfind, ok_bind]
    dsimp only
    rw [hpos, ok_bind, kernel_malloc, hbuf, ok_bind]
    have hmem : (((State.sysMalloc { s with
        live := Function.update s.live none (new :: s.live none) } cur buf).setInode new
          (zeros.copy 0 inodeBuf pos.offSize inodeSize)).mem) =
        s.mem.setInode new (zeros.copy 0 inodeBuf pos.offSize inodeSize) := rfl
    rw [hmem, hpush', ok_bind]
    have hfree := malloc_free { s with
      live := Function.update s.live none (new :: s.live none) } cur buf
        (mem.setInode new ((mem.inode new).setOpenCnts 1))
    exact congrArg (fun s => Except.ok (s, new)) hfree
  · rw [setInode_self, Inode.iOpenCnts_setOpenCnts]
    rfl
  · rw [setInode_of_ne _ hq]
    unfold Inode.iNo Inode.iOpenCnts
    rw [edits_word hedits q (by omega), edits_word hedits q (by omega), setInode_of_ne _ hq]
    exact ⟨rfl, rfl⟩
  · rw [setInode_self, Inode.iNo_setOpenCnts]
    unfold Inode.iNo
    rw [edits_word hedits new (by omega), setInode_self]
    unfold inodeRead at hi
    rw [hpos, ok_bind, hbuf, ok_bind] at hi
    rw [← Except.ok.inj hi]

/-- `inode_close` by one of several. -/
theorem inodeClose_more (hcnt : 1 < (s.mem.inode p).iOpenCnts) :
    inodeClose l s cur p =
      .ok (s.setInode p ((s.mem.inode p).setOpenCnts ((s.mem.inode p).iOpenCnts - 1))) := by
  obtain ⟨hdec, hmod⟩ := InodeCache.pred_mod (by omega) (s.mem.inode p).iOpenCnts_lt
  unfold inodeClose
  dsimp only
  rw [hdec, if_neg]
  unfold State.setInode
  dsimp only
  rw [setInode_self, Inode.iOpenCnts_setOpenCnts, hmod]
  omega

/-- The last `inode_close` of an inode. -/
theorem inodeClose_last {pre post : List Ptr} (cur : T) (h : IsCache l s.mem (pre ++ p :: post))
    (hcnt : (s.mem.inode p).iOpenCnts = 1) :
    ∃ mem, inodeClose l s cur p = .ok { s with
        mem := mem
        live := Function.update s.live none ((s.live none).erase p) } ∧
      IsCache l mem (pre ++ post) ∧ SameBut p s.mem mem := by
  have hpos : 0 < (s.mem.inode p).iOpenCnts := by omega
  obtain ⟨hdec, hmod⟩ := InodeCache.pred_mod hpos (s.mem.inode p).iOpenCnts_lt
  have hlist := h.setOpenCnts p ((s.mem.inode p).iOpenCnts - 1)
  unfold IsCache at hlist
  rw [List.map_append, List.map_cons] at hlist
  obtain ⟨mem, hremove, hlist', hedits⟩ := LinkHeap.IsList.remove (tags_lawful l) hlist
  have hremove' : listRemove (tags l) (s.mem.setInode p
      ((s.mem.inode p).setOpenCnts ((s.mem.inode p).iOpenCnts - 1))) (tag p) = .ok mem :=
    liftFault_ok hremove
  refine ⟨mem, ?_, ?_, fun q hq => ?_⟩
  · unfold inodeClose
    dsimp only
    rw [hdec, if_pos]
    · show (listRemove (tags l) (s.mem.setInode p
        ((s.mem.inode p).setOpenCnts ((s.mem.inode p).iOpenCnts - 1))) (tag p) >>= _) = _
      rw [hremove', ok_bind]
      exact congrArg Except.ok (kernel_free { s with mem := mem } cur p)
    · unfold State.setInode
      dsimp only
      rw [setInode_self, Inode.iOpenCnts_setOpenCnts, hmod]
      omega
  · unfold IsCache
    rw [List.map_append]
    exact hlist'
  · unfold Inode.iNo Inode.iOpenCnts
    rw [edits_word hedits q (by omega), edits_word hedits q (by omega), setInode_of_ne _ hq]
    exact ⟨rfl, rfl⟩

end Calls

end HcOs.InodeRefs
