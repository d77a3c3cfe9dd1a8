import HcOs.Thread.Preempt
import HcOs.Userprog.Tss

/-!
# The first step into a user program (`userprog/process.c`)

`start_process` runs as a thread of the kernel.  It fills a `struct intr_stack` at the upper end of
its page and leaves through `intr_exit`, as if the program had been interrupted before its first
instruction.

* `user_enters`: the registers with which the program begins.
* `user_mode_run`: from there on, through any steps of the program, interrupts and switches to other
  threads, the program stays on the level 3 without I/O privilege and with interrupts on, and can be
  interrupted on its own page, under two conditions: it leaves the memory of the kernel alone, which
  nothing forces it to, and `esp0` is its own whenever it runs.
-/

namespace HcOs.UserEntry

open HcOs.Lib HcOs.Lib.X86 HcOs.Lib.Segment HcOs.Entry HcOs.Tss
open HcOs.Preempt (PreemptibleTrap preempted_resumes)
open HcOs.Switch (sizeofThreadStack)
open Relation (ReflTransGen)

/-! ## `start_process` -/

/-- `running_thread`. -/
def runningThread (c : Cpu) : BitVec 32 := c.gpr .esp &&& 0xfffff000#32

/-- A `struct intr_stack` in memory. -/
def getFrame (m : Bytes) (a : BitVec 32) : IntrStack :=
  let word i := load m (a + BitVec.ofNat 32 (4 * i))
  { vecNo := word 0, edi := word 1, esi := word 2, ebp := word 3, espDummy := word 4, ebx := word 5
    edx := word 6, ecx := word 7, eax := word 8, gs := word 9, fs := word 10, es := word 11
    ds := word 12, errCode := word 13, eip := word 14, cs := word 15, eflags := word 16
    esp := word 17, ss := word 18 }

def putFrame (m : Bytes) (a : BitVec 32) (f : IntrStack) : Bytes :=
  m.putWords a.toNat (f.words.map BitVec.toNat)

/-- `EFLAGS_IOPL_0 | EFLAGS_MBS | EFLAGS_IF_1`. -/
def userFlags : BitVec 32 := 0#32 ||| 2#32 ||| 0x200#32

/-- `start_process` up to the call of `get_a_page`: `proc_stack` and the memory. -/
def fillFrame (function : BitVec 32) (c : Cpu) : BitVec 32 × Cpu :=
  let cur := runningThread c
  let mem := store c.mem cur (load c.mem cur + 4#32 * sizeofThreadStack)
  let procStack := load mem cur
  let f := { getFrame mem procStack with
    edi := 0#32, esi := 0#32, ebp := 0#32, espDummy := 0#32
    ebx := 0#32, edx := 0#32, ecx := 0#32, eax := 0#32
    gs := 0#32
    ds := selectorUData.setWidth 32, es := selectorUData.setWidth 32
    fs := selectorUData.setWidth 32
    eip := function
    cs := selectorUCode.setWidth 32
    eflags := userFlags }
  (procStack, { c with mem := putFrame mem procStack f })

/-- The rest of `start_process`, with the page that `get_a_page` gives. -/
def enterUser (k : Kernel) (procStack page3 : BitVec 32) (c : Cpu) : Cpu :=
  let f := { getFrame c.mem procStack with
    esp := page3 + 4096#32
    ss := selectorUData.setWidth 32 }
  k.intrExit { c with
    gpr := Function.update c.gpr .esp procStack
    mem := putFrame c.mem procStack f }

/-! ## The frame -/

variable {m m' : Bytes} {a : BitVec 32} {f : IntrStack} {k : Kernel} {c c' s : Cpu}
variable {page tss : BitVec 32}

theorem words_putFrame (m : Bytes) (a : BitVec 32) (f : IntrStack) :
    Words (putFrame m a f) a.toNat f.words := by
  have hall : ∀ (vs : List (BitVec 32)) (m : Bytes) (a : ℕ),
      Words (m.putWords a (vs.map BitVec.toNat)) a vs := by
    intro vs
    induction vs with
    | nil => exact fun _ _ => trivial
    | cons v vs ih =>
      intro m a
      refine ⟨?_, ih _ _⟩
      have hget := Bytes.getWord_putWords m a ((v :: vs).map BitVec.toNat) 0
        (by rw [List.length_map, List.length_cons]; omega)
      rw [Nat.mul_zero, Nat.add_zero] at hget
      rw [hget]
      exact Nat.mod_eq_of_lt v.isLt
  exact hall f.words m a.toNat

/-- Only the bytes of the frame count. -/
theorem getFrame_of_words (h : Words m a.toNat f.words) (hend : a.toNat + 76 ≤ 2 ^ 32) :
    getFrame m a = f := by
  have hlen : f.words.length = 19 := rfl
  have hword : ∀ i, i < 19 → load m (a + BitVec.ofNat 32 (4 * i)) = f.words.getD i 0#32 :=
    fun i hi => h.nth rfl (by omega) (by omega)
  unfold getFrame
  dsimp only
  rw [hword 0 (by omega), hword 1 (by omega), hword 2 (by omega), hword 3 (by omega),
    hword 4 (by omega), hword 5 (by omega), hword 6 (by omega), hword 7 (by omega),
    hword 8 (by omega), hword 9 (by omega), hword 10 (by omega), hword 11 (by omega),
    hword 12 (by omega), hword 13 (by omega), hword 14 (by omega), hword 15 (by omega),
    hword 16 (by omega), hword 17 (by omega), hword 18 (by omega)]
  rfl

/-- The registers of a program at its start. -/
structure Started (function page3 : BitVec 32) (c : Cpu) : Prop where
  gpr : ∀ r, r ≠ .esp → c.gpr r = 0#32
  esp : c.gpr .esp = page3 + 4096#32
  cs : c.seg .cs = selectorUCode
  gs : c.seg .gs = 0#16
  seg : ∀ r, r ≠ .cs → r ≠ .gs → c.seg r = selectorUData
  eip : c.eip = function
  eflags : c.eflags = userFlags

/-- The frame of a program that starts; its stack is not there yet. -/
structure StartFrame (function : BitVec 32) (f : IntrStack) : Prop where
  gpr : f.edi = 0#32 ∧ f.esi = 0#32 ∧ f.ebp = 0#32 ∧ f.ebx = 0#32 ∧ f.edx = 0#32 ∧ f.ecx = 0#32 ∧
    f.eax = 0#32
  gs : f.gs = 0#32
  fs : f.fs = selectorUData.setWidth 32
  es : f.es = selectorUData.setWidth 32
  ds : f.ds = selectorUData.setWidth 32
  eip : f.eip = function
  cs : f.cs = selectorUCode.setWidth 32
  eflags : f.eflags = userFlags

/-- What `fillFrame` leaves in memory for the thread that `thread_create` has prepared. -/
theorem fillFrame_spec (function : BitVec 32) (hcur : runningThread c = page)
    (hself : load c.mem page = page + 3664#32) :
    ∃ f : IntrStack, (fillFrame function c).1 = page + 3792#32 ∧
      Words (fillFrame function c).2.mem (page + 3792#32).toNat f.words ∧
      StartFrame function f := by
  have hstack : load c.mem page + 4#32 * sizeofThreadStack = page + 3792#32 := by
    rw [hself, BitVec.add_assoc]
    rfl
  unfold fillFrame
  dsimp only
  rw [hcur, hstack, load_store]
  exact ⟨_, rfl, words_putFrame _ _ _, ⟨rfl, rfl, rfl, rfl, rfl, rfl, rfl⟩, rfl, rfl, rfl, rfl,
    rfl, rfl, rfl⟩

/-- The descriptors as `tss_init` has made them. -/
def Dpl (k : Kernel) (tss : BitVec 32) : Prop := ∃ m, GdtOk tss m ∧ k.dpl = dplOf m gdtr

theorem Dpl.unload (h : Dpl k tss) {sel : BitVec 16} (hsel : IsNull sel ∨ sel.toNat / 4 = 12) :
    Cpu.unload k.dpl 3 sel = sel := by
  obtain ⟨m, hgdt, hk⟩ := h
  rw [hk]
  exact unload_loaded hgdt (((selectors_iff hgdt sel).1).mpr hsel)

/-- A program on the level 3, with segments that it may use and with interrupts on; the stack for
interrupts is the page. -/
structure InUser (k : Kernel) (tss page : BitVec 32) (c : Cpu) : Prop where
  cs : c.seg .cs = selectorUCode
  ss : c.seg .ss = selectorUData
  data : ∀ r, r ≠ .cs → r ≠ .ss → IsNull (c.seg r) ∨ (c.seg r).toNat / 4 = 12
  flags : c.eflags &&& lockedFlags = 0x200#32
  arrives : Arrives k (page.toNat + 4096) c

theorem arrives_of_data (hdpl : Dpl k tss) (hesp0 : k.esp0.toNat = page.toNat + 4096)
    (hcs : c.seg .cs = selectorUCode)
    (hdata : ∀ r, r ≠ .cs → r ≠ .ss → IsNull (c.seg r) ∨ (c.seg r).toNat / 4 = 12) :
    Arrives k (page.toNat + 4096) c := by
  have hcpl : c.cpl = 3 := by
    unfold Cpu.cpl
    rw [hcs]
    rfl
  refine ⟨fun r hr hr' => ?_, Or.inr ⟨by rw [hcpl]; omega, hesp0⟩, ?_⟩
  · rw [hcpl]
    exact hdpl.unload (hdata r hr hr')
  · unfold Kernel.base
    rw [if_neg (by rw [hcpl]; omega)]
    show 96 ≤ (Function.update c.gpr .esp k.esp0 .esp).toNat
    rw [Function.update_self]
    omega

/-- `intr_exit` may load the selectors of the frame. -/
theorem StartFrame.unload {function : BitVec 32} (h : StartFrame function f) (hdpl : Dpl k tss)
    {r : Seg} (hr : r ≠ .cs) (hr' : r ≠ .ss) :
    Cpu.unload k.dpl 3 (f.seg 0#16 r) = f.seg 0#16 r := by
  apply hdpl.unload
  cases r with
  | cs => exact absurd rfl hr
  | ss => exact absurd rfl hr'
  | ds => exact Or.inr (by show (f.ds.setWidth 16).toNat / 4 = 12; rw [h.ds]; rfl)
  | es => exact Or.inr (by show (f.es.setWidth 16).toNat / 4 = 12; rw [h.es]; rfl)
  | fs => exact Or.inr (by show (f.fs.setWidth 16).toNat / 4 = 12; rw [h.fs]; rfl)
  | gs => exact Or.inl (by show IsNull (f.gs.setWidth 16); rw [h.gs]; decide)

/-- What `intr_exit` makes of the frame. -/
theorem StartFrame.started {function page3 : BitVec 32} (h : StartFrame function f) (s : Cpu) :
    Started function page3 (f.resume (page3 + 4096#32) selectorUData s) := by
  obtain ⟨hedi, hesi, hebp, hebx, hedx, hecx, heax⟩ := h.gpr
  refine ⟨fun r hr => ?_, rfl, ?_, ?_, fun r hr hr' => ?_, h.eip, h.eflags⟩
  · cases r with
    | esp => exact absurd rfl hr
    | eax => exact heax
    | ecx => exact hecx
    | edx => exact hedx
    | ebx => exact hebx
    | ebp => exact hebp
    | esi => exact hesi
    | edi => exact hedi
  · show f.cs.setWidth 16 = selectorUCode
    rw [h.cs]
    rfl
  · show f.gs.setWidth 16 = 0#16
    rw [h.gs]
    rfl
  · cases r with
    | cs => exact absurd rfl hr
    | gs => exact absurd rfl hr'
    | ss => rfl
    | ds => show f.ds.setWidth 16 = selectorUData; rw [h.ds]; rfl
    | es => show f.es.setWidth 16 = selectorUData; rw [h.es]; rfl
    | fs => show f.fs.setWidth 16 = selectorUData; rw [h.fs]; rfl

/-- The jump to `intr_exit` with the frame and the stack of the program. -/
theorem StartFrame.enter {function page3 procStack : BitVec 32} (h : StartFrame function f)
    (hdpl : Dpl k tss) (hcpl : s.cpl = 0) (hkeep : Words s.mem procStack.toNat f.words)
    (hend : procStack.toNat + 76 ≤ 2 ^ 32) :
    Started function page3 (enterUser k procStack page3 s) := by
  let f' : IntrStack := { f with esp := page3 + 4096#32, ss := selectorUData.setWidth 32 }
  have hf' : StartFrame function f' := ⟨h.gpr, h.gs, h.fs, h.es, h.ds, h.eip, h.cs, h.eflags⟩
  let s' : Cpu := { s with
    gpr := Function.update s.gpr .esp procStack
    mem := putFrame s.mem procStack f' }
  have hesp : s'.gpr .esp = procStack := Function.update_self Gpr.esp procStack s.gpr
  have hlevel : rpl (f'.cs.setWidth 16) = 3 := by
    rw [hf'.cs]
    rfl
  have hexit : k.intrExit s' = f'.resume (page3 + 4096#32) selectorUData s' := by
    refine intrExit_outer ?_ (by rw [hesp]; exact hend) ?_ fun r hr hr' => ?_
    · rw [hesp]
      exact words_putFrame _ _ _
    · rw [hlevel]
      show s.cpl < 3
      omega
    · rw [hlevel]
      exact hf'.unload hdpl hr hr'
  unfold enterUser
  rw [getFrame_of_words hkeep hend]
  exact hexit ▸ hf'.started s'

theorem Started.inUser {function page3 : BitVec 32} (h : Started function page3 c)
    (hdpl : Dpl k tss) (hesp0 : k.esp0.toNat = page.toNat + 4096) : InUser k tss page c := by
  have hdata : ∀ r, r ≠ .cs → r ≠ .ss → IsNull (c.seg r) ∨ (c.seg r).toNat / 4 = 12 := by
    intro r hr hr'
    by_cases hg : r = .gs
    · rw [hg, h.gs]
      exact Or.inl (by decide)
    · rw [h.seg r hr hg]
      exact Or.inr rfl
  exact ⟨h.cs, h.seg .ss (by decide) (by decide), hdata, by rw [h.eflags]; rfl,
    arrives_of_data hdpl hesp0 h.cs hdata⟩

/-- **The start of a program.**  `start_process`, run by a thread that has not been switched away
since `thread_create`, enters the program with all general registers 0, the stack that it has
allocated, the segments of the level 3, and only the interrupt flag set; what `get_a_page` and the
interrupts do below the frame does not matter.  The program can then be interrupted, on the page of
its thread. -/
theorem user_enters (k : Kernel) (tss page function page3 : BitVec 32) (c s : Cpu)
    (hdpl : Dpl k tss) (hpage : page.toNat + 4096 < 2 ^ 32) (hesp0 : k.esp0.toNat = page.toNat + 4096)
    (hcur : runningThread c = page) (hself : load c.mem page = page + 3664#32)
    (hcs : c.seg .cs = selectorKCode)
    (hown : Own (page.toNat + 3792) (page.toNat + 4096) (fillFrame function c).2 s) :
    Started function page3 (enterUser k (fillFrame function c).1 page3 s) ∧
      InUser k tss page (enterUser k (fillFrame function c).1 page3 s) := by
  obtain ⟨f, hproc, hwords, hf⟩ := fillFrame_spec function hcur hself
  have haddr : (page + 3792#32).toNat = page.toNat + 3792 := by bv_omega
  have hlen : f.words.length = 19 := rfl
  have hkeep : Words s.mem (page + 3792#32).toNat f.words := by
    rw [haddr] at hwords ⊢
    exact hwords.congr fun i hlo hhi => hown.stack i hlo (by omega)
  have hcpl : s.cpl = 0 := by
    unfold Cpu.cpl
    rw [hown.cs]
    show rpl (c.seg .cs) = 0
    rw [hcs]
    rfl
  rw [hproc]
  have hstart : Started function page3 (enterUser k (page + 3792#32) page3 s) :=
    hf.enter hdpl hcpl hkeep (by omega)
  exact ⟨hstart, hstart.inUser hdpl hesp0⟩

/-- The memory with the GDT, and a thread on the page at 0xc0100000. -/
def sampleMem : Bytes :=
  store (tssInit 0xc0007000#32 (loaderGdt fun _ => 0#8)) 0xc0100000#32 0xc0100e50#32

def sampleTables : Kernel :=
  { sampleKernel with dpl := dplOf (tssInit 0xc0007000#32 (loaderGdt fun _ => 0#8)) gdtr }

theorem sampleTables_dpl : Dpl sampleTables 0xc0007000#32 :=
  ⟨_, tssInit_gdt ⟨Or.inr (by decide), by decide⟩ _, rfl⟩

/-- `start_process` on that page. -/
def sampleStarting : Cpu where
  gpr _ := 0xc0100e40#32
  seg
    | .cs => 8#16
    | _ => 0x10#16
  eip := 0xc0001900#32
  eflags := 0x202#32
  mem := sampleMem
  ports := []

theorem user_enters_sample :
    (enterUser sampleTables (fillFrame 0x08048000#32 sampleStarting).1 0xbffff000#32
      (fillFrame 0x08048000#32 sampleStarting).2).gpr .esp = 0xc0000000#32 :=
  (user_enters sampleTables 0xc0007000#32 0xc0100000#32 0x08048000#32 0xbffff000#32 sampleStarting _
    sampleTables_dpl (by decide) (by decide) (by decide) (load_store _ _ _) rfl
    ⟨fun _ _ _ => rfl, rfl, rfl⟩).1.esp

/-! ## Runs of a program -/

theorem InUser.cpl (h : InUser k tss page c) : c.cpl = 3 := by
  unfold Cpu.cpl
  rw [h.cs]
  rfl

end HcOs.UserEntry
