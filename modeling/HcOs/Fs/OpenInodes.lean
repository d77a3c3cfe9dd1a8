import HcOs.Fs.Inode
import HcOs.Lib.Machine
import Mathlib.Data.Fintype.Basic

/-!
# The cache of open inodes under concurrency

Any number of threads that call `inode_open` and `inode_close` on one mounted partition.  A thread
can be switched out where it can block: at the heap lock inside `sys_malloc` and `sys_free`, at the
lock of the channel, and at `disk_done` inside `ide_read`.  A step is what a thread does from one of
these places to the next.  The heap lock is never held at such a place, the channel's lock is held
by the thread that waits for the disk.

`inode_open` looks the number up, and if it is not in `open_inodes` reads the inode and pushes it,
with three of these places in between and nothing that would keep another thread from doing the
same (`inode_close` disables interrupts, `inode_open` does not).  `cache_unique`: apart from this,
and from a slot of the inode table that holds another number and a counter that wraps around, the
cache has every inode once.
-/

namespace HcOs.InodeCache

open HcOs.Lib HcOs.Fs

/-- Where a thread is switched out. -/
inductive Pc where
  | idle
  /-- `inode_open`, the number not being in `open_inodes`: in the `sys_malloc` of the inode. -/
  | malloc (n : ℕ)
  /-- In the `sys_malloc` of the buffer, with the result of the first one. -/
  | mallocBuf (n : ℕ) (p : Option ℕ)
  /-- `ide_read`: at the lock of the channel. -/
  | chan (n : ℕ) (p : Option ℕ)
  /-- At `sema_down(&disk_done)`. -/
  | disk (n : ℕ) (p : Option ℕ)
  /-- In the `sys_free` of the buffer, the inode being in the list. -/
  | freeBuf
  /-- `inode_close`: in the `sys_free` of the inode, which is out of the list. -/
  | freeInode (p : ℕ)
  deriving DecidableEq

variable {T : Type}

structure State (T : Type) where
  cache : OpenInodes
  /-- The addresses of inodes that `sys_malloc` has handed out and `sys_free` has not taken back. -/
  live : List ℕ
  /-- The holder of the lock of the channel. -/
  chan : Option T
  pc : T → Pc
  /-- Who has which number open, and at which address. -/
  held : List (T × ℕ × ℕ)

/-- The partition has just been mounted. -/
def init (mem : ℕ → Inode) : State T where
  cache := ⟨[], mem⟩
  live := []
  chan := none
  pc _ := .idle
  held := []

inductive Event (T : Type) where
  | inodeOpen (t : T) (n : ℕ)
  | malloc (t : T) (p : Option ℕ)
  | mallocBuf (t : T) (granted : Bool)
  | lockChan (t : T)
  | diskDone (t : T)
  | freeBuf (t : T)
  | inodeClose (t : T) (n p : ℕ)
  | freeInode (t : T)

section Machine

variable [DecidableEq T]

def State.goto (s : State T) (t : T) (pc : Pc) : State T :=
  { s with pc := Function.update s.pc t pc }

variable (part : Mounted) (disk : Bytes)

/-- The search of `inode_open`. -/
def lookup (s : State T) (t : T) (n : ℕ) : Except Halt (State T) :=
  match s.cache.find n with
  | some p => .ok { s with cache := s.cache.hit p, held := (t, n, p) :: s.held }
  | none => do
    let _ ← inodeLocate part n
    .ok (s.goto t (.malloc n))

/-- `inode_open` from the interrupt of the disk to the `sys_free` of its buffer. -/
def insert (s : State T) (t : T) (n : ℕ) (p : Option ℕ) : Except Halt (State T) := do
  let inode ← inodeRead part n disk
  match p with
  | none => .error (.panic "memcpy" "dst_ != NULL && src_ != NULL")
  | some p =>
    .ok ({ s with
      cache := s.cache.push p inode
      chan := none
      held := (t, n, p) :: s.held }.goto t .freeBuf)

/-- The threads; `sys_malloc` returns an address that is not in use, or `NULL`. -/
def machine (T : Type) [DecidableEq T] (part : Mounted) (disk : Bytes) :
    Machine (State T) (Event T) Halt where
  step s
    | .inodeOpen t n => if s.pc t = .idle then some (lookup part s t n) else none
    | .malloc t p =>
      match s.pc t with
      | .malloc n =>
        if ∀ a ∈ p, a ∉ s.live then
          some (.ok ({ s with live := p.toList ++ s.live }.goto t (.mallocBuf n p)))
        else none
      | _ => none
    | .mallocBuf t granted =>
      match s.pc t with
      | .mallocBuf n p => if granted then some (.ok (s.goto t (.chan n p))) else some (.error .nullDeref)
      | _ => none
    | .lockChan t =>
      match s.pc t with
      | .chan n p =>
        if s.chan = none then some (.ok ({ s with chan := some t }.goto t (.disk n p))) else none
      | _ => none
    | .diskDone t =>
      match s.pc t with
      | .disk n p => some (insert part disk s t n p)
      | _ => none
    | .freeBuf t => if s.pc t = .freeBuf then some (.ok (s.goto t .idle)) else none
    | .inodeClose t n p =>
      if s.pc t = .idle ∧ (t, n, p) ∈ s.held then
        let r := s.cache.drop p
        let s := { s with cache := r.2, held := s.held.erase (t, n, p) }
        some (.ok (if r.1 then s.goto t (.freeInode p) else s))
      else none
    | .freeInode t =>
      match s.pc t with
      | .freeInode p => some (.ok ({ s with live := s.live.erase p }.goto t .idle))
      | _ => none

end Machine

/-- Every inode is in memory once: no number twice in `open_inodes`, and one address for all who
have a number open. -/
structure Unique (s : State T) : Prop where
  numbers : (s.cache.list.map fun p => (s.cache.inode p).iNo).Nodup
  same : ∀ t t' n p p', (t, n, p) ∈ s.held → (t', n, p') ∈ s.held → p = p'

/-! ## The invariant -/

/-- The number a thread has missed in `open_inodes` and has not inserted yet. -/
def Pc.opening : Pc → Option ℕ
  | .malloc n | .mallocBuf n _ | .chan n _ | .disk n _ => some n
  | .idle | .freeBuf | .freeInode _ => none

/-- The inode outside `open_inodes` that is a thread's own. -/
def Pc.owned : Pc → Option ℕ
  | .mallocBuf _ p | .chan _ p | .disk _ p => p
  | .freeInode p => some p
  | .idle | .malloc _ | .freeBuf => none

/-- The slot of `n` in the inode table carries the number `n`. -/
def Numbered (part : Mounted) (disk : Bytes) (n : ℕ) : Prop :=
  ∀ inode ∈ (inodeRead part n disk).toOption, inode.iNo = n

instance (part : Mounted) (disk : Bytes) (n : ℕ) : Decidable (Numbered part disk n) :=
  inferInstanceAs (Decidable (∀ inode ∈ (inodeRead part n disk).toOption, inode.iNo = n))

/-- No two threads have missed the same number, and whoever has missed one will insert it under
that number; the counters count the holders. -/
structure Inv (part : Mounted) (disk : Bytes) (s : State T) : Prop where
  numbers : (s.cache.list.map fun p => (s.cache.inode p).iNo).Nodup
  held : ∀ t n p, (t, n, p) ∈ s.held → p ∈ s.cache.list ∧ (s.cache.inode p).iNo = n
  counts : ∀ p ∈ s.cache.list, (s.cache.inode p).iOpenCnts = s.held.countP fun h => h.2.2 = p
  live : ∀ p ∈ s.cache.list, p ∈ s.live
  owned : ∀ t p, (s.pc t).owned = some p → p ∈ s.live ∧ p ∉ s.cache.list
  own : ∀ t t' p, (s.pc t).owned = some p → (s.pc t').owned = some p → t = t'
  single : ∀ t t' n, (s.pc t).opening = some n → (s.pc t').opening = some n → t = t'
  missing : ∀ t n, (s.pc t).opening = some n → ∀ p ∈ s.cache.list, (s.cache.inode p).iNo ≠ n
  numbered : ∀ t n, (s.pc t).opening = some n → Numbered part disk n

variable {part : Mounted} {disk : Bytes} {s s' : State T} {t : T} {n : ℕ}

theorem Inv.unique (h : Inv part disk s) : Unique s where
  numbers := h.numbers
  same t t' n p p' hp hp' := by
    obtain ⟨hmem, hno⟩ := h.held t n p hp
    obtain ⟨hmem', hno'⟩ := h.held t' n p' hp'
    exact List.inj_on_of_nodup_map h.numbers hmem hmem' (hno.trans hno'.symm)

theorem inv_init (mem : ℕ → Inode) : Inv part disk (init mem : State T) where
  numbers := List.nodup_nil
  held _ _ _ hp := absurd hp List.not_mem_nil
  counts _ hp := absurd hp List.not_mem_nil
  live _ hp := absurd hp List.not_mem_nil
  owned _ _ ht := absurd ht.symm (Option.some_ne_none _)
  own _ _ _ ht := absurd ht.symm (Option.some_ne_none _)
  single _ _ _ ht := absurd ht.symm (Option.some_ne_none _)
  missing _ _ ht := absurd ht.symm (Option.some_ne_none _)
  numbered _ _ ht := absurd ht.symm (Option.some_ne_none _)

/-! ## The steps -/

theorem find_some {c : OpenInodes} {p : ℕ} (h : c.find n = some p) :
    p ∈ c.list ∧ (c.inode p).iNo = n := by
  unfold OpenInodes.find at h
  exact ⟨List.mem_of_find?_eq_some h, by simpa using List.find?_some h⟩

theorem find_none {c : OpenInodes} (h : c.find n = none) : ∀ p ∈ c.list, (c.inode p).iNo ≠ n := by
  intro p hp
  unfold OpenInodes.find at h
  simpa using List.find?_eq_none.mp h p hp

/-- The number is in `open_inodes`. -/
theorem Inv.hit {p : ℕ} (h : Inv part disk s) (t : T) (hp : p ∈ s.cache.list)
    (hno : (s.cache.inode p).iNo = n) (hcnt : (s.cache.inode p).iOpenCnts + 1 < 2 ^ 32) :
    Inv part disk { s with cache := s.cache.hit p, held := (t, n, p) :: s.held } := by
  have hiNo : ∀ q, ((s.cache.hit p).inode q).iNo = (s.cache.inode q).iNo := by
    intro q
    unfold OpenInodes.hit
    dsimp only
    rcases eq_or_ne q p with rfl | hne
    · rw [Function.update_self, Inode.iNo_setOpenCnts]
    · rw [Function.update_of_ne hne]
  exact {
    numbers := by
      show (s.cache.list.map fun q => ((s.cache.hit p).inode q).iNo).Nodup
      simp only [hiNo]
      exact h.numbers
    held := by
      intro t' n' q hq
      rw [hiNo]
      rcases List.mem_cons.mp hq with heq | hq
      · cases heq
        exact ⟨hp, hno⟩
      · exact h.held t' n' q hq
    counts := by
      intro q hq
      rw [List.countP_cons, ← h.counts q hq]
      unfold OpenInodes.hit
      dsimp only
      rcases eq_or_ne q p with rfl | hne
      · rw [Function.update_self, Inode.iOpenCnts_setOpenCnts, Nat.mod_mod, Nat.mod_eq_of_lt hcnt,
          decide_eq_true rfl, if_pos rfl]
      · rw [Function.update_of_ne hne, decide_eq_false hne.symm, if_neg Bool.false_ne_true]
        rfl
    live := h.live
    owned := h.owned
    own := h.own
    single := h.single
    missing := fun t n ht q hq => (hiNo q).symm ▸ h.missing t n ht q hq
    numbered := h.numbered }

variable [DecidableEq T]

theorem goto_cases {α : Type} {f : Pc → Option α} {pc : Pc} {t t' : T} {a : α}
    (h : f ((s.goto t pc).pc t') = some a) :
    t' = t ∧ f pc = some a ∨ f (s.pc t') = some a := by
  rcases eq_or_ne t' t with rfl | hne
  · refine Or.inl ⟨rfl, ?_⟩
    simpa only [State.goto, Function.update_self] using h
  · refine Or.inr ?_
    simpa only [State.goto, Function.update_of_ne hne] using h

theorem goto_none {α : Type} {f : Pc → Option α} {pc : Pc} {t t' : T} {a : α} (hpc : f pc = none)
    (h : f ((s.goto t pc).pc t') = some a) : t' ≠ t ∧ f (s.pc t') = some a := by
  rcases eq_or_ne t' t with rfl | hne
  · simp only [State.goto, Function.update_self, hpc] at h
    cases h
  · refine ⟨hne, ?_⟩
    simpa only [State.goto, Function.update_of_ne hne] using h

/-- A thread goes on without taking anything. -/
theorem Inv.goto {pc : Pc} (h : Inv part disk s) (t : T)
    (hopening : ∀ n, pc.opening = some n → (s.pc t).opening = some n)
    (howned : ∀ p, pc.owned = some p → (s.pc t).owned = some p) :
    Inv part disk (s.goto t pc) := by
  have hpc : ∀ t' n, ((s.goto t pc).pc t').opening = some n → (s.pc t').opening = some n := by
    intro t' n hn
    rcases goto_cases hn with ⟨rfl, hnew⟩ | hold
    · exact hopening n hnew
    · exact hold
  have hown : ∀ t' p, ((s.goto t pc).pc t').owned = some p → (s.pc t').owned = some p := by
    intro t' p hp
    rcases goto_cases hp with ⟨rfl, hnew⟩ | hold
    · exact howned p hnew
    · exact hold
  exact {
    numbers := h.numbers
    held := h.held
    counts := h.counts
    live := h.live
    owned := fun t p ht => h.owned t p (hown t p ht)
    own := fun t t' p ht ht' => h.own t t' p (hown t p ht) (hown t' p ht')
    single := fun t t' n ht ht' => h.single t t' n (hpc t n ht) (hpc t' n ht')
    missing := fun t n ht => h.missing t n (hpc t n ht)
    numbered := fun t n ht => h.numbered t n (hpc t n ht) }

/-- The number is not in `open_inodes`, and nobody is about to put it there. -/
theorem Inv.miss (h : Inv part disk s) (t : T) (hmiss : ∀ p ∈ s.cache.list, (s.cache.inode p).iNo ≠ n)
    (halone : ∀ t', (s.pc t').opening ≠ some n) (hnum : Numbered part disk n) :
    Inv part disk (s.goto t (.malloc n)) := by
  have hpc : ∀ t' m, ((s.goto t (.malloc n)).pc t').opening = some m →
      t' = t ∧ m = n ∨ (s.pc t').opening = some m := by
    intro t' m hm
    exact (goto_cases hm).imp_left fun h => ⟨h.1, (Option.some.inj h.2).symm⟩
  have hown : ∀ t' p, ((s.goto t (.malloc n)).pc t').owned = some p → (s.pc t').owned = some p := by
    intro t' p hp
    exact (goto_none rfl hp).2
  exact {
    numbers := h.numbers
    held := h.held
    counts := h.counts
    live := h.live
    owned := fun t p ht => h.owned t p (hown t p ht)
    own := fun t t' p ht ht' => h.own t t' p (hown t p ht) (hown t' p ht')
    single := by
      intro t₁ t₂ m h₁ h₂
      rcases hpc t₁ m h₁ with ⟨ht₁, hm⟩ | hm₁ <;> rcases hpc t₂ m h₂ with ⟨ht₂, hm⟩ | hm₂
      · exact ht₁.trans ht₂.symm
      · exact absurd (hm ▸ hm₂) (halone t₂)
      · exact absurd (hm ▸ hm₁) (halone t₁)
      · exact h.single t₁ t₂ m hm₁ hm₂
    missing := by
      intro t' m hm
      rcases hpc t' m hm with ⟨-, rfl⟩ | hm
      · exact hmiss
      · exact h.missing t' m hm
    numbered := by
      intro t' m hm
      rcases hpc t' m hm with ⟨-, rfl⟩ | hm
      · exact hnum
      · exact h.numbered t' m hm }

/-- `sys_malloc` hands out an address that is nobody's. -/
theorem Inv.malloc {p : Option ℕ} (h : Inv part disk s) (hpc : s.pc t = .malloc n)
    (hp : ∀ a ∈ p, a ∉ s.live) :
    Inv part disk ({ s with live := p.toList ++ s.live }.goto t (.mallocBuf n p)) := by
  have hopening : ∀ t' m,
      (({ s with live := p.toList ++ s.live }.goto t (.mallocBuf n p)).pc t').opening = some m →
        (s.pc t').opening = some m := by
    intro t' m hm
    rcases goto_cases hm with ⟨rfl, hnew⟩ | hold
    · rw [hpc]
      exact hnew
    · exact hold
  exact {
    numbers := h.numbers
    held := h.held
    counts := h.counts
    live := fun q hq => List.mem_append_right _ (h.live q hq)
    owned := by
      intro t' a ha
      rcases goto_cases ha with ⟨-, ha⟩ | ha
      · have hpa : p = some a := ha
        subst hpa
        exact ⟨List.mem_append_left _ (List.mem_singleton.mpr rfl),
          fun hmem => hp a rfl (h.live a hmem)⟩
      · exact ⟨List.mem_append_right _ (h.owned t' a ha).1, (h.owned t' a ha).2⟩
    own := by
      intro t₁ t₂ a h₁ h₂
      rcases goto_cases h₁ with ⟨ht₁, ha⟩ | ha₁ <;> rcases goto_cases h₂ with ⟨ht₂, ha⟩ | ha₂
      · exact ht₁.trans ht₂.symm
      · exact absurd (h.owned t₂ a ha₂).1 (hp a ha)
      · exact absurd (h.owned t₁ a ha₁).1 (hp a ha)
      · exact h.own t₁ t₂ a ha₁ ha₂
    single := fun t t' m ht ht' => h.single t t' m (hopening t m ht) (hopening t' m ht')
    missing := fun t m ht => h.missing t m (hopening t m ht)
    numbered := fun t m ht => h.numbered t m (hopening t m ht) }

/-- The inode that has been read is put into `open_inodes`. -/
theorem Inv.insert {p : ℕ} {inode : Inode} (h : Inv part disk s) (hpc : s.pc t = .disk n (some p))
    (hread : inodeRead part n disk = .ok inode) :
    Inv part disk ({ s with
      cache := s.cache.push p inode
      chan := none
      held := (t, n, p) :: s.held }.goto t .freeBuf) := by
  have hopen : (s.pc t).opening = some n := by rw [hpc]; rfl
  have howned : (s.pc t).owned = some p := by rw [hpc]; rfl
  have hout : p ∉ s.cache.list := (h.owned t p howned).2
  have hno : inode.iNo = n := h.numbered t n hopen inode (by rw [hread]; rfl)
  have hself : (s.cache.push p inode).inode p = inode.setOpenCnts 1 := Function.update_self ..
  have hother : ∀ q ∈ s.cache.list, (s.cache.push p inode).inode q = s.cache.inode q := by
    intro q hq
    have hne : q ≠ p := fun heq => hout (heq ▸ hq)
    exact Function.update_of_ne hne _ _
  exact {
    numbers := by
      show (List.map (fun q => ((s.cache.push p inode).inode q).iNo) (p :: s.cache.list)).Nodup
      rw [List.map_cons, hself, Inode.iNo_setOpenCnts, hno,
        List.map_congr_left fun q hq => congrArg Inode.iNo (hother q hq), List.nodup_cons]
      refine ⟨fun hmem => ?_, h.numbers⟩
      obtain ⟨q, hq, hqn⟩ := List.mem_map.mp hmem
      exact h.missing t n hopen q hq hqn
    held := by
      intro t' m q hq
      rcases List.mem_cons.mp hq with heq | hq
      · cases heq
        refine ⟨List.mem_cons_self, ?_⟩
        show ((s.cache.push p inode).inode p).iNo = n
        rw [hself, Inode.iNo_setOpenCnts, hno]
      · obtain ⟨hmem, hqm⟩ := h.held t' m q hq
        refine ⟨List.mem_cons_of_mem _ hmem, ?_⟩
        show ((s.cache.push p inode).inode q).iNo = m
        rw [hother q hmem, hqm]
    counts := by
      intro q hq
      show ((s.cache.push p inode).inode q).iOpenCnts = List.countP _ ((t, n, p) :: s.held)
      rw [List.countP_cons]
      rcases List.mem_cons.mp hq with rfl | hq
      · have hnone : s.held.countP (fun h => h.2.2 = q) = 0 := by
          rw [List.countP_eq_zero]
          intro x hx hxq
          exact hout (of_decide_eq_true hxq ▸ (h.held x.1 x.2.1 x.2.2 hx).1)
        rw [hself, Inode.iOpenCnts_setOpenCnts, hnone, decide_eq_true rfl, if_pos rfl]
        rfl
      · have hne : p ≠ q := fun heq => hout (heq ▸ hq)
        rw [hother q hq, h.counts q hq, decide_eq_false hne, if_neg Bool.false_ne_true]
        rfl
    live := by
      intro q hq
      rcases List.mem_cons.mp hq with rfl | hq
      · exact (h.owned t q howned).1
      · exact h.live q hq
    owned := by
      intro t' q hq
      obtain ⟨hne, hq'⟩ := goto_none rfl hq
      refine ⟨(h.owned t' q hq').1, fun hmem => ?_⟩
      rcases List.mem_cons.mp hmem with rfl | hmem
      · exact hne (h.own t' t q hq' howned)
      · exact (h.owned t' q hq').2 hmem
    own := fun t₁ t₂ q h₁ h₂ => h.own t₁ t₂ q (goto_none rfl h₁).2 (goto_none rfl h₂).2
    single := fun t₁ t₂ m h₁ h₂ => h.single t₁ t₂ m (goto_none rfl h₁).2 (goto_none rfl h₂).2
    missing := by
      intro t' m hm q hq
      obtain ⟨hne, hm'⟩ := goto_none rfl hm
      show ((s.cache.push p inode).inode q).iNo ≠ m
      rcases List.mem_cons.mp hq with rfl | hq
      · rw [hself, Inode.iNo_setOpenCnts, hno]
        rintro rfl
        exact hne (h.single t' t n hm' hopen)
      · rw [hother q hq]
        exact h.missing t' m hm' q hq
    numbered := fun t' m hm => h.numbered t' m (goto_none rfl hm).2 }

theorem pred_mod {cnt : ℕ} (hpos : 0 < cnt) (hlt : cnt < 2 ^ 32) :
    (cnt + 2 ^ 32 - 1) % 2 ^ 32 = cnt - 1 ∧ (cnt - 1) % 2 ^ 32 = cnt - 1 := by
  omega

/-- One opening less, and the last one takes the inode out of the list. -/
theorem drop_cases {c : OpenInodes} {p : ℕ} (hpos : 0 < (c.inode p).iOpenCnts) :
    (c.drop p).2.inode =
        Function.update c.inode p ((c.inode p).setOpenCnts ((c.inode p).iOpenCnts - 1)) ∧
      ((c.inode p).iOpenCnts = 1 ∧ (c.drop p).1 = true ∧ (c.drop p).2.list = c.list.erase p ∨
        (c.inode p).iOpenCnts ≠ 1 ∧ (c.drop p).1 = false ∧ (c.drop p).2.list = c.list) := by
  obtain ⟨hdec, hmod⟩ := pred_mod hpos (c.inode p).iOpenCnts_lt
  simp only [OpenInodes.drop]
  rw [hdec, Inode.iOpenCnts_setOpenCnts, hmod]
  by_cases h1 : (c.inode p).iOpenCnts = 1
  · rw [if_pos (Nat.sub_eq_zero_of_le h1.le)]
    exact ⟨rfl, Or.inl ⟨h1, rfl, rfl⟩⟩
  · rw [if_neg (by omega)]
    exact ⟨rfl, Or.inr ⟨h1, rfl, rfl⟩⟩

/-- A holder counts for what it holds. -/
theorem countP_erase {α β : Type} [BEq α] [LawfulBEq α] [DecidableEq β] {held : List α} {x : α}
    (hx : x ∈ held) (f : α → β) (b : β) :
    (held.countP fun y => f y = b) =
      ((held.erase x).countP fun y => f y = b) + if f x = b then 1 else 0 := by
  rw [(List.perm_cons_erase hx).countP_eq, List.countP_cons]
  simp only [decide_eq_true_eq]

/-- The counter of an inode that someone holds, and the counters without that holder. -/
theorem Inv.counts_erase {p : ℕ} (h : Inv part disk s) (hheld : (t, n, p) ∈ s.held) :
    (s.cache.inode p).iOpenCnts = (s.held.erase (t, n, p)).countP (fun x => x.2.2 = p) + 1 ∧
      ∀ q ∈ s.cache.list, q ≠ p →
        (s.cache.inode q).iOpenCnts = (s.held.erase (t, n, p)).countP fun x => x.2.2 = q := by
  refine ⟨?_, fun q hq hne => ?_⟩
  · rw [h.counts p (h.held t n p hheld).1, countP_erase hheld fun x => x.2.2, if_pos rfl]
  · rw [h.counts q hq, countP_erase hheld fun x => x.2.2, if_neg hne.symm, Nat.add_zero]

theorem dec_iNo {c : OpenInodes} {p v : ℕ} (q : ℕ) :
    (Function.update c.inode p ((c.inode p).setOpenCnts v) q).iNo = (c.inode q).iNo := by
  rcases eq_or_ne q p with rfl | hne
  · rw [Function.update_self, Inode.iNo_setOpenCnts]
  · rw [Function.update_of_ne hne]

/-- `inode_close` by one of several holders. -/
theorem Inv.close_other {p : ℕ} {c : OpenInodes} (h : Inv part disk s) (hheld : (t, n, p) ∈ s.held)
    (hlist : c.list = s.cache.list)
    (hinode : c.inode = Function.update s.cache.inode p
      ((s.cache.inode p).setOpenCnts ((s.cache.inode p).iOpenCnts - 1))) :
    Inv part disk { s with cache := c, held := s.held.erase (t, n, p) } := by
  obtain ⟨hself, hother⟩ := h.counts_erase hheld
  have hlt := (s.cache.inode p).iOpenCnts_lt
  have hno : ∀ q, (c.inode q).iNo = (s.cache.inode q).iNo := by
    intro q
    rw [hinode]
    exact dec_iNo q
  exact {
    numbers := by
      simp only [hlist, hno]
      exact h.numbers
    held := by
      intro t' m q hq
      rw [hno, hlist]
      exact h.held t' m q (List.mem_of_mem_erase hq)
    counts := by
      intro q hq
      rw [hlist] at hq
      show (c.inode q).iOpenCnts = _
      rw [hinode]
      rcases eq_or_ne q p with rfl | hne
      · rw [Function.update_self, Inode.iOpenCnts_setOpenCnts, Nat.mod_eq_of_lt (by omega), hself,
          Nat.add_sub_cancel]
      · rw [Function.update_of_ne hne]
        exact hother q hq hne
    live := fun q hq => h.live q (hlist ▸ hq)
    owned := fun t' q hq => ⟨(h.owned t' q hq).1, hlist.symm ▸ (h.owned t' q hq).2⟩
    own := h.own
    single := h.single
    missing := fun t' m hm q hq => (hno q).symm ▸ h.missing t' m hm q (hlist ▸ hq)
    numbered := h.numbered }

/-- `inode_close` by the last holder, who frees the inode. -/
theorem Inv.close_last {p : ℕ} {c : OpenInodes} (h : Inv part disk s)
    (hheld : (t, n, p) ∈ s.held) (hcnt : (s.cache.inode p).iOpenCnts = 1)
    (hlist : c.list = s.cache.list.erase p)
    (hinode : c.inode = Function.update s.cache.inode p
      ((s.cache.inode p).setOpenCnts ((s.cache.inode p).iOpenCnts - 1))) :
    Inv part disk ({ s with cache := c, held := s.held.erase (t, n, p) }.goto t (.freeInode p)) := by
  obtain ⟨hself, hother⟩ := h.counts_erase hheld
  have hp := (h.held t n p hheld).1
  have hnodup : s.cache.list.Nodup := h.numbers.of_map
  have hmem : ∀ q, q ∈ c.list ↔ q ≠ p ∧ q ∈ s.cache.list := by
    intro q
    rw [hlist]
    exact hnodup.mem_erase_iff
  have hno : ∀ q, (c.inode q).iNo = (s.cache.inode q).iNo := by
    intro q
    rw [hinode]
    exact dec_iNo q
  -- nobody else holds the inode
  have hnone : ∀ x ∈ s.held.erase (t, n, p), x.2.2 ≠ p := by
    have hzero : (s.held.erase (t, n, p)).countP (fun x => x.2.2 = p) = 0 := by omega
    intro x hx heq
    exact List.countP_eq_zero.mp hzero x hx (decide_eq_true heq)
  have hopening : ∀ t' m, ((s.goto t (.freeInode p)).pc t').opening = some m →
      (s.pc t').opening = some m := by
    intro t' m hm
    exact (goto_none rfl hm).2
  exact {
    numbers := by
      show (c.list.map fun q => (c.inode q).iNo).Nodup
      simp only [hlist, hno]
      exact h.numbers.sublist ((List.erase_sublist).map _)
    held := by
      intro t' m q hq
      obtain ⟨hq', hqm⟩ := h.held t' m q (List.mem_of_mem_erase hq)
      exact ⟨(hmem q).mpr ⟨hnone (t', m, q) hq, hq'⟩, (hno q).trans hqm⟩
    counts := by
      intro q hq
      obtain ⟨hne, hq'⟩ := (hmem q).mp hq
      show (c.inode q).iOpenCnts = _
      rw [hinode, Function.update_of_ne hne]
      exact hother q hq' hne
    live := fun q hq => h.live q ((hmem q).mp hq).2
    owned := by
      intro t' q hq
      rcases goto_cases hq with ⟨-, hnew⟩ | hold
      · cases hnew
        exact ⟨h.live p hp, fun hin => ((hmem p).mp hin).1 rfl⟩
      · exact ⟨(h.owned t' q hold).1, fun hin => (h.owned t' q hold).2 ((hmem q).mp hin).2⟩
    own := by
      intro t₁ t₂ q h₁ h₂
      rcases goto_cases h₁ with ⟨ht₁, hq⟩ | hq₁ <;> rcases goto_cases h₂ with ⟨ht₂, hq⟩ | hq₂
      · exact ht₁.trans ht₂.symm
      · cases hq
        exact absurd hp (h.owned t₂ p hq₂).2
      · cases hq
        exact absurd hp (h.owned t₁ p hq₁).2
      · exact h.own t₁ t₂ q hq₁ hq₂
    single := fun t₁ t₂ m h₁ h₂ => h.single t₁ t₂ m (hopening t₁ m h₁) (hopening t₂ m h₂)
    missing := fun t' m hm q hq =>
      (hno q).symm ▸ h.missing t' m (hopening t' m hm) q ((hmem q).mp hq).2
    numbered := fun t' m hm => h.numbered t' m (hopening t' m hm) }

/-- `sys_free` takes back an inode that is out of the list. -/
theorem Inv.freeInode {p : ℕ} (h : Inv part disk s) (hpc : s.pc t = .freeInode p) :
    Inv part disk ({ s with live := s.live.erase p }.goto t .idle) := by
  have howned : (s.pc t).owned = some p := by rw [hpc]; rfl
  have hout : p ∉ s.cache.list := (h.owned t p howned).2
  exact {
    numbers := h.numbers
    held := h.held
    counts := h.counts
    live := by
      intro q hq
      have hne : q ≠ p := fun heq => hout (heq ▸ hq)
      exact (List.mem_erase_of_ne hne).mpr (h.live q hq)
    owned := by
      intro t' q hq
      obtain ⟨hne, hq'⟩ := goto_none rfl hq
      obtain ⟨hlive, hnot⟩ := h.owned t' q hq'
      refine ⟨(List.mem_erase_of_ne ?_).mpr hlive, hnot⟩
      rintro rfl
      exact hne (h.own t' t q hq' howned)
    own := fun t₁ t₂ q h₁ h₂ => h.own t₁ t₂ q (goto_none rfl h₁).2 (goto_none rfl h₂).2
    single := fun t₁ t₂ m h₁ h₂ => h.single t₁ t₂ m (goto_none rfl h₁).2 (goto_none rfl h₂).2
    missing := fun t' m hm => h.missing t' m (goto_none rfl hm).2
    numbered := fun t' m hm => h.numbered t' m (goto_none rfl hm).2 }

/-! ## Runs -/

def Event.opens : Event T → Option ℕ
  | .inodeOpen _ n => some n
  | _ => none

/-- The opening of a number that is in memory does not wrap the counter around; the opening of one
that is not finds nobody else between the search and the insertion of that number, and its slot on
disk carries it. -/
def Careful (part : Mounted) (disk : Bytes) (s : State T) (e : Event T) : Prop :=
  ∀ n ∈ e.opens, (∀ p ∈ s.cache.find n, (s.cache.inode p).iOpenCnts + 1 < 2 ^ 32) ∧
    (s.cache.find n = none → (∀ t, (s.pc t).opening ≠ some n) ∧ Numbered part disk n)

instance [Fintype T] (part : Mounted) (disk : Bytes) (s : State T) (e : Event T) :
    Decidable (Careful part disk s e) :=
  inferInstanceAs (Decidable (∀ n ∈ e.opens,
    (∀ p ∈ s.cache.find n, (s.cache.inode p).iOpenCnts + 1 < 2 ^ 32) ∧
      (s.cache.find n = none → (∀ t, (s.pc t).opening ≠ some n) ∧ Numbered part disk n)))

theorem inv_step {e : Event T} (h : Inv part disk s) (hc : Careful part disk s e)
    (hstep : (machine T part disk).step s e = some (.ok s')) : Inv part disk s' := by
  cases e with
  | inodeOpen t n =>
    simp only [machine] at hstep
    split at hstep
    · simp only [lookup, Option.some.injEq] at hstep
      obtain ⟨hwrap, hclear⟩ := hc n rfl
      split at hstep
      · next p hfind =>
        cases hstep
        exact h.hit t (find_some hfind).1 (find_some hfind).2 (hwrap p hfind)
      · next hfind =>
        obtain ⟨halone, hnum⟩ := hclear hfind
        obtain ⟨_, -, hok⟩ := bind_eq_ok.mp hstep
        cases hok
        exact h.miss t (find_none hfind) halone hnum
    · cases hstep
  | malloc t p =>
    simp only [machine] at hstep
    split at hstep
    · next n hpc =>
      split at hstep
      · next hfree =>
        cases hstep
        exact h.malloc hpc hfree
      · cases hstep
    · cases hstep
  | mallocBuf t granted =>
    simp only [machine] at hstep
    split at hstep
    · next n p hpc =>
      split at hstep
      · cases hstep
        apply h.goto t <;> intro a ha <;> rw [hpc] <;> exact ha
      · cases hstep
    · cases hstep
  | lockChan t =>
    simp only [machine] at hstep
    split at hstep
    · next n p hpc =>
      split at hstep
      · cases hstep
        have hchan : Inv part disk { s with chan := some t } := { h with }
        apply hchan.goto t <;> intro a ha <;> rw [hpc] <;> exact ha
      · cases hstep
    · cases hstep
  | diskDone t =>
    simp only [machine] at hstep
    split at hstep
    · next n p hpc =>
      simp only [InodeCache.insert, Option.some.injEq] at hstep
      obtain ⟨inode, hread, hok⟩ := bind_eq_ok.mp hstep
      cases p with
      | none => cases hok
      | some p =>
        cases hok
        exact h.insert hpc hread
    · cases hstep
  | freeBuf t =>
    simp only [machine] at hstep
    split at hstep
    · cases hstep
      apply h.goto t <;> intro a ha <;> cases ha
    · cases hstep
  | inodeClose t n p =>
    simp only [machine] at hstep
    split at hstep
    · next hheld =>
      simp only [Option.some.injEq, Except.ok.injEq] at hstep
      obtain ⟨hself, -⟩ := h.counts_erase hheld.2
      have hpos : 0 < (s.cache.inode p).iOpenCnts := by omega
      obtain ⟨hinode, ⟨hcnt, hflag, hlist⟩ | ⟨-, hflag, hlist⟩⟩ := drop_cases hpos
      · rw [hflag, if_pos rfl] at hstep
        subst hstep
        exact h.close_last hheld.2 hcnt hlist hinode
      · rw [hflag, if_neg Bool.false_ne_true] at hstep
        subst hstep
        exact h.close_other hheld.2 hlist hinode
    · cases hstep
  | freeInode t =>
    simp only [machine] at hstep
    split at hstep
    · next p hpc =>
      cases hstep
      exact h.freeInode hpc
    · cases hstep

/-- **One inode in memory.**  In every interleaving whose openings are careful, no number is twice
in `open_inodes`, and all who have a number open share one inode. -/
theorem cache_unique (T : Type) [DecidableEq T] (part : Mounted) (disk : Bytes)
    [∀ s e, Decidable (Careful (T := T) part disk s e)] (mem : ℕ → Inode) (es : List (Event T))
    (s : State T)
    (hrun : ((machine T part disk).guard (Careful part disk)).run (init mem) es = some (.ok s)) :
    Unique s := by
  have hinv : Inv part disk s :=
    Machine.run_guard_ok (fun _ _ _ hs hc hstep => inv_step hs hc hstep) (inv_init mem) hrun
  exact hinv.unique

/-- A mounted partition, and a disk whose inodes 0 and 1 carry their numbers. -/
def part₀ : Mounted := mounted ⟨63, 4708, 1, "sdb1"⟩

def disk₀ : Bytes := Bytes.putWord zeros (slot part₀ 1) 1

/-- One thread opens the inode 0 while the other opens the inode 1, and then both share 0. -/
def twoOpen : List (Event Bool) :=
  [.inodeOpen true 0, .malloc true (some 100), .mallocBuf true true, .inodeOpen false 1,
    .lockChan true, .malloc false (some 200), .mallocBuf false true, .diskDone true,
    .freeBuf true, .lockChan false, .diskDone false, .freeBuf false, .inodeOpen false 0]

theorem cache_unique_two : ∃ s : State Bool,
    ((machine Bool part₀ disk₀).guard (Careful part₀ disk₀)).run (init fun _ => zeros) twoOpen =
        some (.ok s) ∧
      s.held = [(false, 0, 100), (false, 1, 200), (true, 0, 100)] ∧ Unique s := by
  have htest : ∃ s : State Bool,
      ((machine Bool part₀ disk₀).guard (Careful part₀ disk₀)).run (init fun _ => zeros) twoOpen =
          some (.ok s) ∧
        decide (s.held = [(false, 0, 100), (false, 1, 200), (true, 0, 100)]) = true :=
    Machine.run_of_test _ (by decide +kernel)
  obtain ⟨s, hrun, hheld⟩ := htest
  exact ⟨s, hrun, of_decide_eq_true hheld, cache_unique Bool part₀ disk₀ _ twoOpen s hrun⟩

/-- Both threads search for the inode 0 before one of them inserts it. -/
def race : List (Event Bool) :=
  [.inodeOpen true 0, .malloc true (some 100), .mallocBuf true true, .lockChan true,
    .inodeOpen false 0, .malloc false (some 200), .mallocBuf false true, .diskDone true,
    .freeBuf true, .lockChan false, .diskDone false, .freeBuf false]

theorem not_unique_race : ∃ s : State Bool,
    (machine Bool part₀ disk₀).run (init fun _ => zeros) race = some (.ok s) ∧ ¬Unique s := by
  have htest : ∃ s : State Bool,
      (machine Bool part₀ disk₀).run (init fun _ => zeros) race = some (.ok s) ∧
        decide (s.held = [(false, 0, 200), (true, 0, 100)]) = true :=
    Machine.run_of_test _ (by decide +kernel)
  obtain ⟨s, hrun, hheld⟩ := htest
  have hheld := of_decide_eq_true hheld
  refine ⟨s, hrun, fun hunique => ?_⟩
  have hsame := hunique.same true false 0 100 200 (by rw [hheld]; decide) (by rw [hheld]; decide)
  exact absurd hsame (by decide)

end HcOs.InodeCache
