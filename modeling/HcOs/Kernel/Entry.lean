import HcOs.Lib.X86
import Mathlib.Logic.Relation

/-!
# The way into the kernel and back (`kernel/kernel.S`)

The stubs of the macro `VECTOR`, `syscall_handler` and `intr_exit`, instruction by instruction, from
the moment the processor goes through the gate to the `iret`.  A handler is any code that keeps the
frame above it and returns; while it runs, interrupts may arrive at any point and nest to any depth.

* `trap_resumes`: what was interrupted goes on with all its registers and its stack, as long as the
  stub and the processor agree on the error code.
* `vector_resumes`: they agree for all vectors except six, and there `iret` finds the frame one word
  off, with the flags in the place of the code selector.
* `syscall_returns`: a system call gets its three arguments and gives back its result, and changes
  no other register.
-/

namespace HcOs.Entry

open HcOs.Lib HcOs.Lib.X86
open Relation (ReflTransGen)

/-! ## The program -/

/-- `SELECTOR_K_CODE`. -/
def selectorKCode : BitVec 16 := 8#16

/-- The second argument of `VECTOR`. -/
inductive Arg where
  /-- `ERROR_CODE` -/
  | errorCode
  /-- `ZERO` -/
  | zero
  deriving DecidableEq, Repr

def Arg.instr : Arg → Instr
  | .errorCode => .nop
  | .zero => .pushImm 0#32

/-- The 48 uses of `VECTOR`. -/
def vectorArgs : List Arg :=
  [.zero, .zero, .zero, .zero, .zero, .zero, .zero, .zero,
    .errorCode, .zero, .errorCode, .errorCode, .errorCode, .errorCode, .errorCode, .zero,
    .errorCode, .errorCode, .errorCode, .errorCode, .errorCode, .zero, .zero, .errorCode,
    .zero, .zero, .zero, .zero, .zero, .zero, .errorCode, .zero,
    .zero, .zero, .zero, .zero, .zero, .zero, .zero, .zero,
    .zero, .zero, .zero, .zero, .zero, .zero, .zero, .zero]

def vectorArg (v : ℕ) : Arg := vectorArgs.getD v .zero

/-- `intr%1entry`, up to its `call`. -/
def vectorEntry (v : ℕ) : List Instr :=
  [(vectorArg v).instr, .pushSeg .ds, .pushSeg .es, .pushSeg .fs, .pushSeg .gs, .pushad,
    .movAl 0x20#8, .outAl 0xa0#16, .outAl 0x20#16, .pushImm (BitVec.ofNat 32 v)]

/-- `syscall_handler`, up to its `call`. -/
def syscallEntry : List Instr :=
  [.pushImm 0#32, .pushSeg .ds, .pushSeg .es, .pushSeg .fs, .pushSeg .gs, .pushad,
    .pushImm 0x80#32, .pushReg .edx, .pushReg .ecx, .pushReg .ebx]

/-- `intr_exit`, up to its `iret`. -/
def intrExitPops : List Instr :=
  [.addEsp 4#32, .popad, .popSeg .gs, .popSeg .fs, .popSeg .es, .popSeg .ds, .addEsp 4#32]

/-- The end of `syscall_handler`, up to its `jmp`. -/
def syscallStore : List Instr := [.addEsp 12#32, .movSlot 32#32 .eax]

/-- The addresses that the linker gives, and what the processor knows of the tables: the stack of
the level 0 and the privilege level of the descriptor of a selector. -/
structure Kernel where
  idtTable : BitVec 32
  syscallTable : BitVec 32
  intrEntry : ℕ → BitVec 32
  syscallHandler : BitVec 32
  /-- The `jmp intr_exit` of a stub. -/
  vectorRet : ℕ → BitVec 32
  /-- The `add esp, 12` of `syscall_handler`. -/
  syscallRet : BitVec 32
  ss0 : BitVec 16
  esp0 : BitVec 32
  dpl : BitVec 16 → ℕ

/-- How the kernel is entered: through one of the stubs, with the error code that the processor
pushes, or by `int 0x80`. -/
inductive Source where
  | vector (v : ℕ) (err : Option (BitVec 32))
  | syscall
  deriving DecidableEq

namespace Kernel

variable (k : Kernel)

/-- From the interrupted program to the first instruction of the handler. -/
def enter : Source → Cpu → Cpu
  | .vector v err, c =>
    let c := run (vectorEntry v) (c.deliver selectorKCode (k.intrEntry v) k.ss0 k.esp0 err)
    c.call (load c.mem (k.idtTable + BitVec.ofNat 32 (4 * v))) (k.vectorRet v)
  | .syscall, c =>
    let c := run syscallEntry (c.deliver selectorKCode k.syscallHandler k.ss0 k.esp0 none)
    c.call (load c.mem (k.syscallTable + c.gpr .eax * 4#32)) k.syscallRet

/-- `intr_exit`. -/
def intrExit (c : Cpu) : Cpu := (run intrExitPops c).iret k.dpl

/-- From the return of the handler to the interrupted program. -/
def leave : Source → Cpu → Cpu
  | .vector _ _, c => k.intrExit c
  | .syscall, c => k.intrExit (run syscallStore c)

end Kernel

/-! ## `struct intr_stack` -/

/-- `struct intr_stack`; `esp` and `ss` are there only after a change of the level. -/
structure IntrStack where
  vecNo : BitVec 32
  edi : BitVec 32
  esi : BitVec 32
  ebp : BitVec 32
  espDummy : BitVec 32
  ebx : BitVec 32
  edx : BitVec 32
  ecx : BitVec 32
  eax : BitVec 32
  gs : BitVec 32
  fs : BitVec 32
  es : BitVec 32
  ds : BitVec 32
  errCode : BitVec 32
  eip : BitVec 32
  cs : BitVec 32
  eflags : BitVec 32
  esp : BitVec 32
  ss : BitVec 32

namespace IntrStack

/-- The part that the stubs push. -/
def saved (f : IntrStack) : List (BitVec 32) :=
  [f.vecNo, f.edi, f.esi, f.ebp, f.espDummy, f.ebx, f.edx, f.ecx, f.eax, f.gs, f.fs, f.es, f.ds]

/-- The part that is there without a change of the level. -/
def inner (f : IntrStack) : List (BitVec 32) := f.saved ++ [f.errCode, f.eip, f.cs, f.eflags]

def words (f : IntrStack) : List (BitVec 32) := f.inner ++ [f.esp, f.ss]

/-- The registers that `popad` takes from the frame. -/
def gpr (f : IntrStack) (esp : BitVec 32) : Gpr → BitVec 32
  | .eax => f.eax
  | .ecx => f.ecx
  | .edx => f.edx
  | .ebx => f.ebx
  | .esp => esp
  | .ebp => f.ebp
  | .esi => f.esi
  | .edi => f.edi

/-- The segment registers that `intr_exit` takes from the frame. -/
def seg (f : IntrStack) (ss : BitVec 16) : Seg → BitVec 16
  | .cs => f.cs.setWidth 16
  | .ss => ss
  | .ds => f.ds.setWidth 16
  | .es => f.es.setWidth 16
  | .fs => f.fs.setWidth 16
  | .gs => f.gs.setWidth 16

/-- The frame of an interrupted program. -/
def ofCpu (vecNo errCode espDummy : BitVec 32) (c : Cpu) : IntrStack where
  vecNo
  edi := c.gpr .edi
  esi := c.gpr .esi
  ebp := c.gpr .ebp
  espDummy
  ebx := c.gpr .ebx
  edx := c.gpr .edx
  ecx := c.gpr .ecx
  eax := c.gpr .eax
  gs := (c.seg .gs).setWidth 32
  fs := (c.seg .fs).setWidth 32
  es := (c.seg .es).setWidth 32
  ds := (c.seg .ds).setWidth 32
  errCode
  eip := c.eip
  cs := (c.seg .cs).setWidth 32
  eflags := c.eflags
  esp := c.gpr .esp
  ss := (c.seg .ss).setWidth 32

end IntrStack

/-! ## `intr_exit` -/

variable {k : Kernel} {c s s' : Cpu} {f : IntrStack} {ws : List (BitVec 32)}

/-- The pops of `intr_exit`. -/
theorem pops_spec (h : Words c.mem (c.gpr .esp).toNat (f.saved ++ ws))
    (hend : (c.gpr .esp).toNat + 4 * (13 + ws.length) ≤ 2 ^ 32) :
    (run intrExitPops c).gpr = f.gpr (c.gpr .esp + 56#32) ∧
      (∀ r, r ≠ .cs → (run intrExitPops c).seg r = f.seg (c.seg .ss) r) ∧
      (run intrExitPops c).seg .cs = c.seg .cs ∧ (run intrExitPops c).mem = c.mem := by
  have hlen : (f.saved ++ ws).length = 13 + ws.length := by
    rw [List.length_append]
    rfl
  have hslot : ∀ i, i < 13 → load c.mem (c.gpr .esp + BitVec.ofNat 32 (4 * i)) =
      (f.saved ++ ws).getD i 0#32 := fun i hi =>
    c.slot_eq h (by omega) (by omega)
  have h1 : load c.mem (c.gpr .esp + 4#32) = f.edi := hslot 1 (by omega)
  have h2 : load c.mem (c.gpr .esp + 8#32) = f.esi := hslot 2 (by omega)
  have h3 : load c.mem (c.gpr .esp + 12#32) = f.ebp := hslot 3 (by omega)
  have h5 : load c.mem (c.gpr .esp + 20#32) = f.ebx := hslot 5 (by omega)
  have h6 : load c.mem (c.gpr .esp + 24#32) = f.edx := hslot 6 (by omega)
  have h7 : load c.mem (c.gpr .esp + 28#32) = f.ecx := hslot 7 (by omega)
  have h8 : load c.mem (c.gpr .esp + 32#32) = f.eax := hslot 8 (by omega)
  have h9 : load c.mem (c.gpr .esp + 36#32) = f.gs := hslot 9 (by omega)
  have h10 : load c.mem (c.gpr .esp + 40#32) = f.fs := hslot 10 (by omega)
  have h11 : load c.mem (c.gpr .esp + 44#32) = f.es := hslot 11 (by omega)
  have h12 : load c.mem (c.gpr .esp + 48#32) = f.ds := hslot 12 (by omega)
  refine ⟨?_, ?_, rfl, rfl⟩
  · funext r
    cases r <;> simp [run, intrExitPops, exec, Cpu.slot, IntrStack.gpr, BitVec.add_assoc, *]
  · intro r hr
    cases r <;> simp [run, intrExitPops, exec, Cpu.slot, IntrStack.seg, BitVec.add_assoc, *] at hr ⊢

/-! ## The way in -/

/-- What the first instruction of a stub pushes. -/
def Arg.words : Arg → List (BitVec 32)
  | .errorCode => []
  | .zero => [0#32]

/-- The selectors and registers that a stub pushes. -/
def segWords (c : Cpu) : List (BitVec 32) :=
  [(c.seg .ds).setWidth 32, (c.seg .es).setWidth 32, (c.seg .fs).setWidth 32,
    (c.seg .gs).setWidth 32]

def gprWords (c : Cpu) (esp : BitVec 32) : List (BitVec 32) :=
  [c.gpr .eax, c.gpr .ecx, c.gpr .edx, c.gpr .ebx, esp, c.gpr .ebp, c.gpr .esi, c.gpr .edi]

/-- The segment registers, and the general ones except the stack pointer, are the same. -/
structure SameRegs (c c' : Cpu) : Prop where
  gpr : ∀ r, r ≠ .esp → c'.gpr r = c.gpr r
  seg : c'.seg = c.seg

theorem SameRegs.refl (c : Cpu) : SameRegs c c := ⟨fun _ _ => rfl, rfl⟩

theorem SameRegs.pushes (h : SameRegs c s) (vs : List (BitVec 32)) : SameRegs c (s.pushes vs) :=
  ⟨fun r hr => (s.pushes_gpr vs hr).trans (h.gpr r hr), (s.pushes_seg vs).trans h.seg⟩

theorem SameRegs.segWords (h : SameRegs c s) : segWords s = segWords c := by
  unfold Entry.segWords
  rw [h.seg]

theorem SameRegs.gprWords (h : SameRegs c s) (esp : BitVec 32) :
    gprWords s esp = gprWords c esp := by
  unfold Entry.gprWords
  rw [h.gpr .eax (by decide), h.gpr .ecx (by decide), h.gpr .edx (by decide),
    h.gpr .ebx (by decide), h.gpr .ebp (by decide), h.gpr .esi (by decide), h.gpr .edi (by decide)]

/-- The pushes that the two kinds of entry share. -/
def saveRegs : List Instr := [.pushSeg .ds, .pushSeg .es, .pushSeg .fs, .pushSeg .gs, .pushad]

variable {b : Cpu} {vs : List (BitVec 32)}

theorem run_saveRegs (s : Cpu) :
    run saveRegs s = (s.pushes (segWords s)).pushes
      (gprWords (s.pushes (segWords s)) ((s.pushes (segWords s)).gpr .esp)) := by
  simp only [run, saveRegs, exec, Cpu.pushes, segWords, gprWords, Cpu.push_seg, List.foldl_cons,
    List.foldl_nil]

theorem saveRegs_pushed (h : Pushed b vs s) (hsame : SameRegs c s) :
    ∃ dummy, Pushed b (vs ++ segWords c ++ gprWords c dummy) (run saveRegs s) ∧
      SameRegs c (run saveRegs s) := by
  have hseg : Pushed b (vs ++ segWords c) (s.pushes (segWords s)) := by
    rw [← hsame.segWords]
    exact h.pushes _
  have hsame' := hsame.pushes (segWords s)
  rw [run_saveRegs]
  refine ⟨(s.pushes (segWords s)).gpr .esp, ?_, hsame'.pushes _⟩
  rw [← hsame'.gprWords]
  exact hseg.pushes _

theorem arg_pushed (p : Arg) (h : Pushed b vs c) :
    Pushed b (vs ++ p.words) (exec c p.instr) ∧ SameRegs c (exec c p.instr) := by
  cases p with
  | errorCode =>
    rw [Arg.words, List.append_nil]
    exact ⟨h, SameRegs.refl c⟩
  | zero => exact ⟨h.pushes [0#32], (SameRegs.refl c).pushes [0#32]⟩

/-- What the stub of a vector pushes. -/
theorem vectorEntry_pushed (v : ℕ) (h : Pushed b vs c) :
    ∃ dummy, Pushed b (vs ++ (vectorArg v).words ++ segWords c ++ gprWords c dummy ++
        [BitVec.ofNat 32 v]) (run (vectorEntry v) c) ∧ (run (vectorEntry v) c).seg = c.seg := by
  obtain ⟨harg, hsame⟩ := arg_pushed (vectorArg v) h
  obtain ⟨dummy, hregs, hsame'⟩ := saveRegs_pushed harg hsame
  have hentry : vectorEntry v = [(vectorArg v).instr] ++ saveRegs ++
      [.movAl 0x20#8, .outAl 0xa0#16, .outAl 0x20#16] ++ [.pushImm (BitVec.ofNat 32 v)] := rfl
  rw [hentry, run_append, run_append, run_append]
  change Pushed b _ (run saveRegs (run [(vectorArg v).instr] c)) at hregs
  change SameRegs c (run saveRegs (run [(vectorArg v).instr] c)) at hsame'
  generalize run saveRegs (run [(vectorArg v).instr] c) = s at hregs hsame' ⊢
  obtain ⟨eax, ports, hack⟩ : ∃ eax ports, run [.movAl 0x20#8, .outAl 0xa0#16, .outAl 0x20#16] s =
      { s with gpr := Function.update s.gpr .eax eax, ports } := ⟨_, _, rfl⟩
  rw [hack]
  have hesp : Function.update s.gpr .eax eax .esp = s.gpr .esp := by simp
  have hpushed : Pushed b _ { s with gpr := Function.update s.gpr .eax eax, ports } :=
    hregs.congr hesp rfl
  exact ⟨dummy, hpushed.pushes [BitVec.ofNat 32 v], hsame'.seg⟩

/-- What `syscall_handler` pushes before its `call`. -/
theorem syscallEntry_pushed (h : Pushed b vs c) :
    ∃ dummy, Pushed b (vs ++ [0#32] ++ segWords c ++ gprWords c dummy ++
        [0x80#32, c.gpr .edx, c.gpr .ecx, c.gpr .ebx]) (run syscallEntry c) ∧
      SameRegs c (run syscallEntry c) := by
  obtain ⟨harg, hsame⟩ := arg_pushed .zero h
  obtain ⟨dummy, hregs, hsame'⟩ := saveRegs_pushed harg hsame
  have hentry : syscallEntry = [Arg.zero.instr] ++ saveRegs ++
      [.pushImm 0x80#32, .pushReg .edx, .pushReg .ecx, .pushReg .ebx] := rfl
  rw [hentry, run_append, run_append]
  change Pushed b _ (run saveRegs (run [Arg.zero.instr] c)) at hregs
  change SameRegs c (run saveRegs (run [Arg.zero.instr] c)) at hsame'
  generalize run saveRegs (run [Arg.zero.instr] c) = s at hregs hsame' ⊢
  have hargs : run [.pushImm 0x80#32, .pushReg .edx, .pushReg .ecx, .pushReg .ebx] s =
      s.pushes [0x80#32, s.gpr .edx, s.gpr .ecx, s.gpr .ebx] := by
    have hne : ∀ {x : Cpu} {v : BitVec 32} {r : Gpr}, r ≠ .esp → (x.push v).gpr r = x.gpr r :=
      fun hr => Cpu.push_gpr _ _ hr
    simp only [run, exec, Cpu.pushes, List.foldl_cons, List.foldl_nil, hne (r := .edx) (by decide),
      hne (r := .ecx) (by decide), hne (r := .ebx) (by decide)]
  rw [hargs, hsame'.gpr .edx (by decide), hsame'.gpr .ecx (by decide), hsame'.gpr .ebx (by decide)]
  exact ⟨dummy, hregs.pushes _, hsame'.pushes _⟩

/-- The processor after it has found the stack of the interrupt. -/
def Kernel.base (k : Kernel) (c : Cpu) : Cpu :=
  if c.cpl = 0 then c
  else
    { c with
      gpr := Function.update c.gpr .esp k.esp0
      seg := Function.update c.seg .ss k.ss0 }

/-- What the processor pushes after a change of the level. -/
def outer (c : Cpu) : List (BitVec 32) :=
  if c.cpl = 0 then [] else [(c.seg .ss).setWidth 32, c.gpr .esp]

theorem base_gpr (k : Kernel) (c : Cpu) {r : Gpr} (hr : r ≠ .esp) :
    (k.base c).gpr r = c.gpr r := by
  unfold Kernel.base
  split_ifs
  · rfl
  · exact Function.update_of_ne hr _ _

theorem base_mem (k : Kernel) (c : Cpu) : (k.base c).mem = c.mem := by
  unfold Kernel.base
  split_ifs <;> rfl

theorem base_seg (k : Kernel) (c : Cpu) {r : Seg} (hr : r ≠ .ss) :
    (k.base c).seg r = c.seg r := by
  unfold Kernel.base
  split_ifs
  · rfl
  · exact Function.update_of_ne hr _ _

/-- What the processor pushes, and which registers it changes. -/
theorem deliver_pushed (k : Kernel) (c : Cpu) (offset : BitVec 32) (err : Option (BitVec 32)) :
    Pushed (k.base c)
        (outer c ++ [c.eflags, (c.seg .cs).setWidth 32, c.eip] ++ err.toList)
        (c.deliver selectorKCode offset k.ss0 k.esp0 err) ∧
      (∀ r, r ≠ .esp → (c.deliver selectorKCode offset k.ss0 k.esp0 err).gpr r = c.gpr r) ∧
      (c.deliver selectorKCode offset k.ss0 k.esp0 err).seg =
        Function.update (k.base c).seg .cs selectorKCode := by
  have hstack : (if c.cpl = 0 then c.pushes [c.eflags, (c.seg .cs).setWidth 32, c.eip]
      else { c with
        gpr := Function.update c.gpr .esp k.esp0
        seg := Function.update c.seg .ss k.ss0 }.pushes ((c.seg .ss).setWidth 32 :: c.gpr .esp ::
          [c.eflags, (c.seg .cs).setWidth 32, c.eip])) =
      (k.base c).pushes (outer c ++ [c.eflags, (c.seg .cs).setWidth 32, c.eip]) := by
    unfold Kernel.base outer
    split_ifs <;> rfl
  unfold Cpu.deliver
  dsimp only
  rw [hstack]
  have hpushed := (Pushed.refl (k.base c)).pushes
    (outer c ++ [c.eflags, (c.seg .cs).setWidth 32, c.eip])
  rw [List.nil_append] at hpushed
  refine ⟨(hpushed.pushes err.toList).congr rfl rfl, fun r hr => ?_, ?_⟩
  · exact ((Cpu.pushes_gpr _ _ hr).trans (Cpu.pushes_gpr _ _ hr)).trans (base_gpr k c hr)
  · rw [Cpu.pushes_seg, Cpu.pushes_seg]

/-- The words that the processor needs to go back to the program. -/
def backWords (c : Cpu) : List (BitVec 32) :=
  [c.eip, (c.seg .cs).setWidth 32, c.eflags] ++ (outer c).reverse

/-- What is between these and the registers that the stub saved. -/
def errWords (v : ℕ) (err : Option (BitVec 32)) : List (BitVec 32) :=
  (vectorArg v).words ++ err.toList

/-- The state `s` in a handler: the words `ws` lie on the stack of the interrupt, from `a` on. -/
structure Entered (k : Kernel) (c s : Cpu) (a : ℕ) (ws : List (BitVec 32)) : Prop where
  esp : (s.gpr .esp).toNat = a
  top : a + 4 * ws.length = ((k.base c).gpr .esp).toNat
  words : Words s.mem a ws
  frame : ∀ i, i < a ∨ a + 4 * ws.length ≤ i → s.mem i = c.mem i
  cs : s.seg .cs = selectorKCode
  ss : s.seg .ss = (k.base c).seg .ss

theorem Entered.cpl {a : ℕ} {ws : List (BitVec 32)} (h : Entered k c s a ws) : s.cpl = 0 := by
  unfold Cpu.cpl
  rw [h.cs]
  rfl

theorem call_entered (h : Pushed (k.base c) vs s)
    (hseg : s.seg = Function.update (k.base c).seg .cs selectorKCode)
    (hroom : 4 * (vs.length + 1) ≤ ((k.base c).gpr .esp).toNat) (target ret : BitVec 32) :
    ∃ a, Entered k c (s.call target ret) a (ret :: vs.reverse) := by
  obtain ⟨a, ha⟩ := Nat.exists_eq_add_of_le' hroom
  have hpush := h.pushes [ret]
  obtain ⟨hesp, hwords, hframe⟩ := (k.base c).pushes_spec (vs ++ [ret]) (a := a)
    (by rw [List.length_append, List.length_singleton]; exact ha)
  rw [List.reverse_append] at hwords
  rw [List.length_append, List.length_singleton] at hframe
  refine ⟨a, ?_, ?_, ?_, fun i hi => ?_, ?_, ?_⟩
  · rw [← hesp, ← hpush.esp]
    rfl
  · rw [List.length_cons, List.length_reverse, ha]
  · have hmem : (s.call target ret).mem = (s.pushes [ret]).mem := rfl
    rw [hmem, hpush.mem]
    exact hwords
  · rw [List.length_cons, List.length_reverse] at hi
    have hmem : (s.call target ret).mem = (s.pushes [ret]).mem := rfl
    rw [hmem, hpush.mem, hframe i hi, base_mem]
  · have hcs : (s.call target ret).seg = s.seg := rfl
    rw [hcs, hseg, Function.update_self]
  · have hss : (s.call target ret).seg = s.seg := rfl
    rw [hss, hseg, Function.update_of_ne (by decide)]

/-- A word apart from the stack is the one that was there before the interrupt. -/
theorem Entered.load_eq {target ret x w : BitVec 32} {a : ℕ} {ws : List (BitVec 32)}
    (h : Entered k c (s.call target ret) a (w :: ws))
    (hapart : x.toNat + 4 ≤ a ∨ ((k.base c).gpr .esp).toNat ≤ x.toNat) :
    load s.mem x = load c.mem x := by
  have htop := h.top
  have hpush : (s.gpr .esp - 4#32).toNat = a := by
    rw [← h.esp]
    exact (congrArg BitVec.toNat (s.push_esp ret)).symm
  rw [List.length_cons] at htop
  refine load_congr fun i hlo hhi => ?_
  have hstore : store s.mem (s.gpr .esp - 4#32) ret i = s.mem i := store_of_apart (by omega)
  rw [← hstore]
  exact h.frame i (by rw [List.length_cons]; omega)

/-- The registers of the program are those that the stub pushes. -/
theorem deliver_regs (k : Kernel) (c : Cpu) (offset : BitVec 32) (err : Option (BitVec 32)) :
    segWords (c.deliver selectorKCode offset k.ss0 k.esp0 err) = segWords c ∧
      ∀ esp, gprWords (c.deliver selectorKCode offset k.ss0 k.esp0 err) esp = gprWords c esp := by
  obtain ⟨-, hgpr, hseg⟩ := deliver_pushed k c offset err
  have hdata : ∀ r, r ≠ .cs → r ≠ .ss →
      (c.deliver selectorKCode offset k.ss0 k.esp0 err).seg r = c.seg r := fun r hcs hss => by
    rw [hseg, Function.update_of_ne hcs, base_seg k c hss]
  constructor
  · unfold segWords
    rw [hdata .ds (by decide) (by decide), hdata .es (by decide) (by decide),
      hdata .fs (by decide) (by decide), hdata .gs (by decide) (by decide)]
  · intro esp
    unfold gprWords
    rw [hgpr .eax (by decide), hgpr .ecx (by decide), hgpr .edx (by decide),
      hgpr .ebx (by decide), hgpr .ebp (by decide), hgpr .esi (by decide), hgpr .edi (by decide)]

/-- The words that a handler of a vector finds. -/
def vectorWords (k : Kernel) (v : ℕ) (err : Option (BitVec 32)) (dummy : BitVec 32) (c : Cpu) :
    List (BitVec 32) :=
  k.vectorRet v :: ((IntrStack.ofCpu (BitVec.ofNat 32 v) 0#32 dummy c).saved ++
    (errWords v err ++ backWords c))

/-- The words that a system call finds. -/
def syscallWords (k : Kernel) (dummy : BitVec 32) (c : Cpu) : List (BitVec 32) :=
  [k.syscallRet, c.gpr .ebx, c.gpr .ecx, c.gpr .edx] ++
    ((IntrStack.ofCpu 0x80#32 0#32 dummy c).saved ++ (0#32 :: backWords c))

/-- Two words more than without a change of the level, and one for the error code. -/
theorem outer_length (c : Cpu) : (outer c).length ≤ 2 := by
  unfold outer
  split_ifs <;> simp

theorem vectorWords_length (k : Kernel) (v : ℕ) (err : Option (BitVec 32)) (dummy : BitVec 32)
    (c : Cpu) : (vectorWords k v err dummy c).length ≤ 21 := by
  have houter := outer_length c
  have herr : err.toList.length ≤ 1 := by cases err <;> simp
  have harg : (vectorArg v).words.length ≤ 1 := by cases vectorArg v <;> simp [Arg.words]
  simp only [vectorWords, errWords, backWords, IntrStack.saved, List.length_append,
    List.length_cons, List.length_nil, List.length_reverse]
  omega

theorem syscallWords_length (k : Kernel) (dummy : BitVec 32) (c : Cpu) :
    21 ≤ (syscallWords k dummy c).length ∧ (syscallWords k dummy c).length ≤ 23 := by
  have houter := outer_length c
  simp only [syscallWords, IntrStack.saved, backWords, List.length_append, List.length_cons,
    List.length_nil, List.length_reverse]
  omega

theorem errWords_reverse (v : ℕ) (err : Option (BitVec 32)) :
    (err.toList ++ (vectorArg v).words).reverse = errWords v err := by
  unfold errWords
  cases err <;> cases vectorArg v <;> rfl

theorem enter_vector (k : Kernel) (v : ℕ) (err : Option (BitVec 32))
    (hroom : 88 ≤ ((k.base c).gpr .esp).toNat) :
    ∃ dummy a, Entered k c (k.enter (.vector v err) c) a (vectorWords k v err dummy c) := by
  obtain ⟨hdeliver, -, hseg⟩ := deliver_pushed k c (k.intrEntry v) err
  obtain ⟨hsegs, hgprs⟩ := deliver_regs k c (k.intrEntry v) err
  obtain ⟨dummy, hentry, hseg'⟩ := vectorEntry_pushed v hdeliver
  rw [hsegs, hgprs dummy] at hentry
  rw [hseg] at hseg'
  have hwords : vectorWords k v err dummy c = k.vectorRet v :: (outer c ++
      [c.eflags, (c.seg .cs).setWidth 32, c.eip] ++ err.toList ++ (vectorArg v).words ++ segWords c ++
        gprWords c dummy ++ [BitVec.ofNat 32 v]).reverse := by
    unfold vectorWords backWords
    rw [← errWords_reverse]
    simp [IntrStack.saved, IntrStack.ofCpu, segWords, gprWords]
  have hlen := vectorWords_length k v err dummy c
  rw [hwords, List.length_cons, List.length_reverse] at hlen
  refine ⟨dummy, ?_⟩
  rw [hwords]
  exact call_entered hentry hseg' (by omega) _ _

/-- The entry of `idt_table` that the stub of a vector calls. -/
theorem vector_target {v : ℕ} {err : Option (BitVec 32)} {dummy : BitVec 32} {a : ℕ}
    (hent : Entered k c (k.enter (.vector v err) c) a (vectorWords k v err dummy c))
    (hapart : (k.idtTable + BitVec.ofNat 32 (4 * v)).toNat + 4 ≤ a ∨
      ((k.base c).gpr .esp).toNat ≤ (k.idtTable + BitVec.ofNat 32 (4 * v)).toNat) :
    (k.enter (.vector v err) c).eip = load c.mem (k.idtTable + BitVec.ofNat 32 (4 * v)) := by
  unfold Kernel.enter at hent ⊢
  exact hent.load_eq hapart

theorem enter_syscall (k : Kernel) (hroom : 96 ≤ ((k.base c).gpr .esp).toNat) :
    ∃ dummy a, Entered k c (k.enter .syscall c) a (syscallWords k dummy c) := by
  obtain ⟨hdeliver, hgpr, hseg⟩ := deliver_pushed k c k.syscallHandler none
  obtain ⟨hsegs, hgprs⟩ := deliver_regs k c k.syscallHandler none
  obtain ⟨dummy, hentry, hsame⟩ := syscallEntry_pushed hdeliver
  rw [hsegs, hgprs dummy, hgpr .edx (by decide), hgpr .ecx (by decide), hgpr .ebx (by decide)]
    at hentry
  have hwords : syscallWords k dummy c = k.syscallRet :: (outer c ++
      [c.eflags, (c.seg .cs).setWidth 32, c.eip] ++ none.toList ++ [0#32] ++ segWords c ++
        gprWords c dummy ++ [0x80#32, c.gpr .edx, c.gpr .ecx, c.gpr .ebx]).reverse := by
    unfold syscallWords backWords
    simp [IntrStack.saved, IntrStack.ofCpu, segWords, gprWords]
  have hlen := (syscallWords_length k dummy c).2
  rw [hwords, List.length_cons, List.length_reverse] at hlen
  refine ⟨dummy, ?_⟩
  rw [hwords]
  exact call_entered hentry (hsame.seg.trans hseg) (by omega) _ _

/-! ## The way back -/

/-- The selectors of the program are ones that its level may use, so that a return leaves them
alone. -/
def DataOk (k : Kernel) (c : Cpu) : Prop :=
  ∀ r, r ≠ .cs → r ≠ .ss → Cpu.unload k.dpl c.cpl (c.seg r) = c.seg r

/-- `intr_exit` gets at the words above the error code. -/
theorem pops_back {e : BitVec 32} (h : Words s.mem (s.gpr .esp).toNat (f.saved ++ (e :: ws)))
    (hend : (s.gpr .esp).toNat + 4 * (14 + ws.length) ≤ 2 ^ 32) {i : ℕ} (hi : i < ws.length) :
    (run intrExitPops s).slot i = ws.getD i 0#32 := by
  obtain ⟨hgpr, -, -, hmem⟩ := pops_spec h (by rw [List.length_cons]; omega)
  have hesp : (run intrExitPops s).gpr .esp = s.gpr .esp + 56#32 := by
    rw [hgpr]
    rfl
  have hnat : (s.gpr .esp + 56#32).toNat = (s.gpr .esp).toNat + 56 := by bv_omega
  have hback : Words s.mem ((s.gpr .esp).toNat + 56) ws :=
    (show Words s.mem _ ((f.saved ++ [e]) ++ ws) by rwa [List.append_assoc]).drop
  refine Cpu.slot_eq ?_ hi ?_
  · rw [hmem, hesp, hnat]
    exact hback
  · rw [hesp, hnat]
    omega

/-- The processor that goes on with a frame. -/
def IntrStack.resume (f : IntrStack) (esp : BitVec 32) (ss : BitVec 16) (s : Cpu) : Cpu where
  gpr := f.gpr esp
  seg := f.seg ss
  eip := f.eip
  eflags := f.eflags
  mem := s.mem
  ports := s.ports

theorem intrExit_mem (k : Kernel) (s : Cpu) : (k.intrExit s).mem = s.mem := by
  unfold Kernel.intrExit Cpu.iret
  dsimp only
  split_ifs <;> rfl

theorem pops_cpl (h : (run intrExitPops s).seg .cs = s.seg .cs) :
    (run intrExitPops s).cpl = s.cpl := by
  unfold Cpu.cpl
  rw [h]

theorem gpr_esp (f : IntrStack) (esp esp' : BitVec 32) :
    Function.update (f.gpr esp) .esp esp' = f.gpr esp' := by
  funext r
  cases r <;> rfl

/-- A frame without `esp` and `ss`. -/
theorem intrExit_same (h : Words s.mem (s.gpr .esp).toNat f.inner)
    (hend : (s.gpr .esp).toNat + 68 ≤ 2 ^ 32) (hcpl : rpl (f.cs.setWidth 16) ≤ s.cpl) :
    k.intrExit s = f.resume (s.gpr .esp + 68#32) (s.seg .ss) s := by
  obtain ⟨hgpr, hseg, hcs, hmem⟩ := pops_spec h (by simp only [List.length_cons]; omega)
  have hslot : ∀ i, i < 3 → (run intrExitPops s).slot i = [f.eip, f.cs, f.eflags].getD i 0#32 :=
    fun i hi => pops_back h (by simp only [List.length_cons]; omega) hi
  unfold Kernel.intrExit Cpu.iret
  dsimp only
  rw [hslot 0 (by omega), hslot 1 (by omega), hslot 2 (by omega), pops_cpl hcs, hgpr]
  simp only [List.getD_cons_zero, List.getD_cons_succ]
  rw [if_neg (by omega)]
  unfold IntrStack.resume
  congr 1
  · rw [gpr_esp]
    congr 1
    exact BitVec.add_assoc _ _ _
  · funext r
    by_cases hr : r = .cs
    · rw [hr, Function.update_self]
      rfl
    · rw [Function.update_of_ne hr]
      exact hseg r hr

/-- A whole frame, to an outer level. -/
theorem intrExit_outer (h : Words s.mem (s.gpr .esp).toNat f.words)
    (hend : (s.gpr .esp).toNat + 76 ≤ 2 ^ 32) (hcpl : s.cpl < rpl (f.cs.setWidth 16))
    (hdata : ∀ r, r ≠ .cs → r ≠ .ss → Cpu.unload k.dpl (rpl (f.cs.setWidth 16)) (f.seg 0#16 r) =
      f.seg 0#16 r) :
    k.intrExit s = f.resume f.esp (f.ss.setWidth 16) s := by
  have h' : Words s.mem (s.gpr .esp).toNat (f.saved ++ (f.errCode ::
      [f.eip, f.cs, f.eflags, f.esp, f.ss])) := h
  obtain ⟨hgpr, hseg, hcs, hmem⟩ := pops_spec h' (by simp only [List.length_cons]; omega)
  have hslot : ∀ i, i < 5 → (run intrExitPops s).slot i =
      [f.eip, f.cs, f.eflags, f.esp, f.ss].getD i 0#32 :=
    fun i hi => pops_back h' (by simp only [List.length_cons]; omega) hi
  unfold Kernel.intrExit Cpu.iret
  dsimp only
  rw [hslot 0 (by omega), hslot 1 (by omega), hslot 2 (by omega), hslot 3 (by omega),
    hslot 4 (by omega), pops_cpl hcs, hgpr]
  simp only [List.getD_cons_zero, List.getD_cons_succ]
  rw [if_pos hcpl]
  unfold IntrStack.resume
  congr 1
  · rw [gpr_esp]
  · funext r
    have hne : ∀ r, r ≠ .cs → (run intrExitPops s).seg r = f.seg (s.seg .ss) r := hseg
    cases r with
    | cs => rfl
    | ss => rfl
    | ds => exact (congrArg _ (hne .ds (by decide))).trans (hdata .ds (by decide) (by decide))
    | es => exact (congrArg _ (hne .es (by decide))).trans (hdata .es (by decide) (by decide))
    | fs => exact (congrArg _ (hne .fs (by decide))).trans (hdata .fs (by decide) (by decide))
    | gs => exact (congrArg _ (hne .gs (by decide))).trans (hdata .gs (by decide) (by decide))

theorem gpr_ofCpu (vecNo errCode dummy esp : BitVec 32) (c : Cpu) :
    (IntrStack.ofCpu vecNo errCode dummy c).gpr esp = Function.update c.gpr .esp esp := by
  funext r
  cases r <;> rfl

theorem seg_ofCpu (vecNo errCode dummy : BitVec 32) (c : Cpu) :
    (IntrStack.ofCpu vecNo errCode dummy c).seg (c.seg .ss) = c.seg := by
  funext r
  cases r <;> simp [IntrStack.seg, IntrStack.ofCpu]

/-- The handler of an interrupt of `c` has returned in `s`, and the frame is still there. -/
structure Leaving (k : Kernel) (c s : Cpu) (vecNo e dummy : BitVec 32) : Prop where
  words : Words s.mem (s.gpr .esp).toNat
    ((IntrStack.ofCpu vecNo e dummy c).saved ++ (e :: backWords c))
  top : (s.gpr .esp).toNat + 4 * (17 + (outer c).length) = ((k.base c).gpr .esp).toNat
  cs : s.seg .cs = selectorKCode
  ss : s.seg .ss = (k.base c).seg .ss

/-- `intr_exit` undoes an interrupt. -/
theorem intrExit_leaving {vecNo e dummy : BitVec 32} (h : Leaving k c s vecNo e dummy)
    (hdata : DataOk k c) :
    k.intrExit s = { c with mem := s.mem, ports := s.ports } := by
  have htop := h.top
  have hwords := h.words
  have hcpl : s.cpl = 0 := by
    unfold Cpu.cpl
    rw [h.cs]
    rfl
  have hlt := ((k.base c).gpr .esp).isLt
  have hrpl : c.cpl = rpl ((IntrStack.ofCpu vecNo e dummy c).cs.setWidth 16) := by
    simp [IntrStack.ofCpu, Cpu.cpl]
  have hseg := seg_ofCpu vecNo e dummy c
  unfold backWords outer at hwords
  unfold outer at htop
  by_cases hc : c.cpl = 0
  · have hbase : k.base c = c := if_pos hc
    rw [if_pos hc] at hwords htop
    rw [intrExit_same (f := IntrStack.ofCpu vecNo e dummy c) hwords
      (by simp only [List.length_nil] at htop; omega) (hrpl ▸ hc ▸ Nat.zero_le _)]
    unfold IntrStack.resume
    have hesp : s.gpr .esp + 68#32 = c.gpr .esp := by
      rw [hbase] at htop
      simp only [List.length_nil] at htop
      bv_omega
    rw [gpr_ofCpu, hesp, Function.update_eq_self, h.ss, hbase, hseg]
    rfl
  · rw [if_neg hc] at hwords htop
    simp only [List.length_cons, List.length_nil] at htop
    rw [intrExit_outer (f := IntrStack.ofCpu vecNo e dummy c) hwords (by omega)
      (by rw [hcpl, ← hrpl]; exact Nat.pos_of_ne_zero hc) fun r hcs' hss' => ?_]
    · unfold IntrStack.resume
      rw [gpr_ofCpu]
      show Cpu.mk (Function.update c.gpr .esp (c.gpr .esp)) _ _ _ _ _ = _
      have hss : ((IntrStack.ofCpu vecNo e dummy c).ss).setWidth 16 = c.seg .ss := by
        simp [IntrStack.ofCpu]
      rw [Function.update_eq_self, hss, hseg]
      rfl
    · have hr : (IntrStack.ofCpu vecNo e dummy c).seg 0#16 r = c.seg r := by
        cases r with
        | cs => exact absurd rfl hcs'
        | ss => exact absurd rfl hss'
        | _ => simp [IntrStack.seg, IntrStack.ofCpu]
      rw [hr, ← hrpl]
      exact hdata r hcs' hss'

/-! ## Interrupts at any point -/

/-- The stub of the vector pushes a word in place of the error code exactly when the processor
pushes none. -/
def Source.Aligned : Source → Prop
  | .vector v err => err.isNone ↔ vectorArg v = .zero
  | .syscall => True

/-- The lowest address of the frame that must last until the handler returns: everything above the
handler's arguments. -/
def Source.args : Source → ℕ
  | .vector _ _ => 4
  | .syscall => 16

/-- An interrupt is possible: the program runs on the level 0 on the stack that ends at `top`, or on
an outer level while the stack for interrupts is this one and empty, and there is room for the
frame. -/
structure Arrives (k : Kernel) (top : ℕ) (c : Cpu) : Prop where
  data : DataOk k c
  top : c.cpl = 0 ∧ (c.gpr .esp).toNat ≤ top ∨ c.cpl ≠ 0 ∧ k.esp0.toNat = top
  room : 96 ≤ ((k.base c).gpr .esp).toNat

/-- The kernel does anything, except to the bytes from `lo` to `top` and to the level. -/
structure Own (lo top : ℕ) (s s' : Cpu) : Prop where
  stack : ∀ i, lo ≤ i → i < top → s'.mem i = s.mem i
  cs : s'.seg .cs = s.seg .cs
  ss : s'.seg .ss = s.seg .ss

/-- A handler that was entered in `s` has executed its `ret`. -/
structure Returned (s s' : Cpu) : Prop where
  esp : s'.gpr .esp = s.gpr .esp + 4#32
  eip : s'.eip = load s.mem (s.gpr .esp)

/-- The handler runs from its first instruction to the state `s`: steps of the kernel, and whole
interrupts `R` wherever the frame is not above the stack pointer. -/
def Serves (k : Kernel) (top : ℕ) (R : Source → Cpu → Cpu → Prop) (src : Source) (c s : Cpu) :
    Prop :=
  ReflTransGen (fun s s' => Own (((k.enter src c).gpr .esp).toNat + src.args) top s s' ∨
    ∃ src', src'.Aligned ∧ (s.gpr .esp).toNat ≤ ((k.enter src c).gpr .esp).toNat + src.args ∧
      R src' s s') (k.enter src c) s

/-- A whole interrupt of `c`, back to the program in `c'`, with at most `n` interrupts inside each
other. -/
def Trap (k : Kernel) (top : ℕ) : ℕ → Source → Cpu → Cpu → Prop
  | 0 => fun _ _ _ => False
  | n + 1 => fun src c c' => Arrives k top c ∧ ∃ s, Serves k top (Trap k top n) src c s ∧
      Returned (k.enter src c) s ∧ c' = k.leave src s

/-- The interrupted program goes on with its registers and its stack; a system call leaves its
result in `eax`. -/
structure Resumed (top : ℕ) (src : Source) (c c' : Cpu) : Prop where
  gpr : ∀ r, r ≠ .eax ∨ src ≠ .syscall → c'.gpr r = c.gpr r
  seg : c'.seg = c.seg
  eip : c'.eip = c.eip
  eflags : c'.eflags = c.eflags
  stack : c.cpl = 0 → ∀ i, (c.gpr .esp).toNat ≤ i → i < top → c'.mem i = c.mem i

variable {top n : ℕ} {src : Source} {c' : Cpu}

theorem Arrives.base_le (h : Arrives k top c) : ((k.base c).gpr .esp).toNat ≤ top := by
  unfold Kernel.base
  rcases h.top with ⟨h0, hle⟩ | ⟨h0, heq⟩
  · rw [if_pos h0]
    exact hle
  · rw [if_neg h0]
    show (Function.update c.gpr .esp k.esp0 .esp).toNat ≤ top
    rw [Function.update_self]
    exact Nat.le_of_eq heq

/-- What holds while the handler runs. -/
structure Kept (k : Kernel) (top : ℕ) (src : Source) (c s : Cpu) : Prop where
  stack : ∀ i, ((k.enter src c).gpr .esp).toNat + src.args ≤ i → i < top →
    s.mem i = (k.enter src c).mem i
  cs : s.seg .cs = (k.enter src c).seg .cs
  ss : s.seg .ss = (k.enter src c).seg .ss

/-- One step of the kernel while the handler runs. -/
theorem Kept.step (hcs : (k.enter src c).seg .cs = selectorKCode) (h : Kept k top src c s)
    (ih : ∀ src' s', src'.Aligned → Trap k top n src' s s' → Resumed top src' s s')
    (hstep : Own (((k.enter src c).gpr .esp).toNat + src.args) top s s' ∨
      ∃ src', src'.Aligned ∧
        (s.gpr .esp).toNat ≤ ((k.enter src c).gpr .esp).toNat + src.args ∧
        Trap k top n src' s s') : Kept k top src c s' := by
  rcases hstep with hown | ⟨src', hal, hesp, htrap⟩
  · refine ⟨fun i hlo hhi => ?_, hown.cs.trans h.cs, hown.ss.trans h.ss⟩
    rw [hown.stack i hlo hhi]
    exact h.stack i hlo hhi
  · have hres := ih src' s' hal htrap
    have hcpl : s.cpl = 0 := by
      unfold Cpu.cpl
      rw [h.cs, hcs]
      rfl
    refine ⟨fun i hlo hhi => ?_, ?_, ?_⟩
    · rw [hres.stack hcpl i (Nat.le_trans hesp hlo) hhi]
      exact h.stack i hlo hhi
    · rw [hres.seg]
      exact h.cs
    · rw [hres.seg]
      exact h.ss

/-- A handler that has returned with its frame. -/
theorem leaving_of_vector {v : ℕ} {err : Option (BitVec 32)} {dummy : BitVec 32} {a : ℕ}
    (hal : (Source.vector v err).Aligned)
    (hent : Entered k c (k.enter (.vector v err) c) a (vectorWords k v err dummy c))
    (htop : ((k.base c).gpr .esp).toNat ≤ top) (hkept : Kept k top (.vector v err) c s)
    (hret : Returned (k.enter (.vector v err) c) s) :
    Leaving k c s (BitVec.ofNat 32 v) ((errWords v err).getD 0 0#32) dummy := by
  have hend := ((k.base c).gpr .esp).isLt
  have hlen := hent.top
  have herr : errWords v err = [(errWords v err).getD 0 0#32] := by
    unfold errWords
    unfold Source.Aligned at hal
    cases err with
    | none => rw [hal.mp rfl]; rfl
    | some e =>
      have hne : vectorArg v = .errorCode := by
        cases hv : vectorArg v with
        | errorCode => rfl
        | zero => exact absurd (hal.mpr hv) nofun
      rw [hne]
      rfl
  have hwords := hent.words
  unfold vectorWords at hwords hlen
  rw [herr] at hwords hlen
  have hesp : (s.gpr .esp).toNat = a + 4 := by
    have hesp := hent.esp
    rw [hret.esp]
    simp only [List.length_cons] at hlen
    bv_omega
  refine ⟨?_, ?_, hkept.cs.trans hent.cs, hkept.ss.trans hent.ss⟩
  · rw [hesp]
    refine hwords.2.congr fun i hlo hhi => hkept.stack i ?_ ?_
    · rw [hent.esp]
      exact hlo
    · simp only [List.length_cons] at hlen
      simp only [List.singleton_append] at hlen hhi
      omega
  · rw [hesp, ← hlen]
    simp only [backWords, IntrStack.saved, List.length_cons, List.length_append, List.length_nil,
      List.length_reverse]
    omega

/-- The program with the result of a system call. -/
def withEax (c : Cpu) (eax : BitVec 32) : Cpu := { c with gpr := Function.update c.gpr .eax eax }

theorem base_withEax (k : Kernel) (c : Cpu) (eax : BitVec 32) :
    (k.base (withEax c eax)).gpr .esp = (k.base c).gpr .esp ∧
      (k.base (withEax c eax)).seg .ss = (k.base c).seg .ss := by
  have hcpl : (withEax c eax).cpl = c.cpl := rfl
  unfold Kernel.base
  rw [hcpl]
  split_ifs
  · exact ⟨by simp [withEax], rfl⟩
  · exact ⟨by simp, rfl⟩

theorem run_syscallStore (s : Cpu) :
    (run syscallStore s).gpr .esp = s.gpr .esp + 12#32 ∧
      (run syscallStore s).mem = store s.mem (s.gpr .esp + 12#32 + 32#32) (s.gpr .eax) := by
  constructor <;> simp [run, syscallStore, exec]

/-- A system call that has returned: its result is in the frame. -/
theorem leaving_of_syscall {dummy : BitVec 32} {a : ℕ}
    (hent : Entered k c (k.enter .syscall c) a (syscallWords k dummy c))
    (htop : ((k.base c).gpr .esp).toNat ≤ top) (hkept : Kept k top .syscall c s)
    (hret : Returned (k.enter .syscall c) s) :
    Leaving k (withEax c (s.gpr .eax)) (run syscallStore s) 0x80#32 0#32 dummy := by
  have hend := ((k.base c).gpr .esp).isLt
  have hlen := hent.top
  have hwords : Words (k.enter .syscall c).mem (a + 16)
      ((IntrStack.ofCpu 0x80#32 0#32 dummy c).saved ++ (0#32 :: backWords c)) := hent.words.drop
  unfold syscallWords at hlen
  simp only [List.length_append, List.length_cons, List.length_nil] at hlen
  obtain ⟨hbase, hbase'⟩ := base_withEax k c (s.gpr .eax)
  have hsaved : (IntrStack.ofCpu 0x80#32 0#32 dummy c).saved.length = 13 := rfl
  have hesp : (s.gpr .esp + 12#32).toNat = a + 16 := by
    have hesp := hent.esp
    rw [hret.esp]
    bv_omega
  obtain ⟨hesp', hmem⟩ := run_syscallStore s
  refine ⟨?_, ?_, hkept.cs.trans hent.cs, ?_⟩
  · rw [hesp', hmem, hesp]
    have hkeep : Words s.mem (a + 16) _ := hwords.congr fun i hlo hhi => hkept.stack i
      (by rw [hent.esp]; exact hlo)
      (by simp only [List.length_append, List.length_cons] at hhi; omega)
    exact hkeep.set (i := 8) (by bv_omega)
  · rw [hesp', hbase, hesp, ← hlen]
    have hout : outer (withEax c (s.gpr .eax)) = outer c := by
      have hcpl : (withEax c (s.gpr .eax)).cpl = c.cpl := rfl
      unfold outer
      rw [hcpl]
      split_ifs
      · rfl
      · simp [withEax]
    rw [hout, hsaved]
    simp only [backWords, List.length_append, List.length_cons, List.length_nil,
      List.length_reverse]
    omega
  · rw [hbase']
    exact hkept.ss.trans hent.ss

theorem Kept.refl (k : Kernel) (top : ℕ) (src : Source) (c : Cpu) :
    Kept k top src c (k.enter src c) := ⟨fun _ _ _ => rfl, rfl, rfl⟩

/-- What holds when the handler returns. -/
theorem Kept.run (hcs : (k.enter src c).seg .cs = selectorKCode)
    (ih : ∀ src' s s', src'.Aligned → Trap k top n src' s s' → Resumed top src' s s')
    (h : Serves k top (Trap k top n) src c s) : Kept k top src c s := by
  unfold Serves at h
  induction h with
  | refl => exact Kept.refl k top src c
  | tail _ hstep hkept => exact Kept.step hcs hkept (fun src' s' => ih src' _ s') hstep

/-- The stack of the interrupted program, above its stack pointer, is not touched. -/
theorem stack_kept {a : ℕ} {ws : List (BitVec 32)} (hc : c.cpl = 0)
    (hent : Entered k c (k.enter src c) a ws) (hargs : src.args ≤ 4 * ws.length)
    (hkept : Kept k top src c s) {i : ℕ} (hlo : (c.gpr .esp).toNat ≤ i) (hhi : i < top) :
    s.mem i = c.mem i := by
  have htop := hent.top
  rw [show k.base c = c from if_pos hc] at htop
  rw [hkept.stack i (by rw [hent.esp]; omega) hhi]
  exact hent.frame i (by omega)

/-- The result of a system call goes into the frame. -/
theorem syscallStore_stack {dummy : BitVec 32} {a i : ℕ} (hc : c.cpl = 0)
    (hent : Entered k c (k.enter .syscall c) a (syscallWords k dummy c))
    (hret : Returned (k.enter .syscall c) s) (hi : (c.gpr .esp).toNat ≤ i) :
    (Lib.X86.run syscallStore s).mem i = s.mem i := by
  have hend := (c.gpr .esp).isLt
  have htop := hent.top
  rw [show k.base c = c from if_pos hc] at htop
  have hlen : 18 ≤ (syscallWords k dummy c).length := by
    simp only [syscallWords, IntrStack.saved, List.length_append, List.length_cons]
    omega
  have hesp := hent.esp
  have hesp' := hret.esp
  rw [(run_syscallStore s).2]
  exact store_of_apart (by bv_omega)

/-- **Interrupts are transparent.**  Whatever the handlers do, and wherever other interrupts arrive
while they run, nested to any depth, an interrupted program goes on with all its registers and its
stack, if the stubs and the processor agree on the error codes. -/
theorem trap_resumes (k : Kernel) (top n : ℕ) (src : Source) (c c' : Cpu) (hal : src.Aligned)
    (h : Trap k top n src c c') : Resumed top src c c' := by
  induction n generalizing src c c' with
  | zero => exact h.elim
  | succ n ih =>
    obtain ⟨harr, s, hrun, hret, rfl⟩ := h
    have htop := harr.base_le
    cases src with
    | vector v err =>
      obtain ⟨dummy, a, hent⟩ := enter_vector k v err (Nat.le_trans (by omega) harr.room)
      have hkept := Kept.run hent.cs ih hrun
      have hleave := intrExit_leaving (leaving_of_vector hal hent htop hkept hret) harr.data
      show Resumed top _ c (k.intrExit s)
      rw [hleave]
      refine ⟨fun _ _ => rfl, rfl, rfl, rfl, fun hc i hlo hhi => ?_⟩
      exact stack_kept hc hent (by simp only [Source.args, vectorWords, List.length_cons]; omega)
        hkept hlo hhi
    | syscall =>
      obtain ⟨dummy, a, hent⟩ := enter_syscall k harr.room
      have hkept := Kept.run hent.cs ih hrun
      have hleave := intrExit_leaving (leaving_of_syscall hent htop hkept hret) harr.data
      show Resumed top _ c (k.intrExit (run syscallStore s))
      rw [hleave]
      refine ⟨fun r hr => ?_, rfl, rfl, rfl, fun hc i hlo hhi => ?_⟩
      · exact Function.update_of_ne (hr.resolve_right fun h => h rfl) _ _
      · show (run syscallStore s).mem i = c.mem i
        rw [syscallStore_stack hc hent hret hlo]
        exact stack_kept hc hent (by
          simp only [Source.args, syscallWords, List.length_append, List.length_cons]
          omega) hkept hlo hhi

theorem Serves.own {R : Source → Cpu → Cpu → Prop} (h : Serves k top R src c s)
    (hown : Own (((k.enter src c).gpr .esp).toNat + src.args) top s s') :
    Serves k top R src c s' :=
  ReflTransGen.tail h (Or.inl hown)

theorem Serves.nested {R : Source → Cpu → Cpu → Prop} {src' : Source}
    (h : Serves k top R src c s) (hal : src'.Aligned)
    (hesp : (s.gpr .esp).toNat ≤ ((k.enter src c).gpr .esp).toNat + src.args) (hR : R src' s s') :
    Serves k top R src c s' :=
  ReflTransGen.tail h (Or.inr ⟨src', hal, hesp, hR⟩)

/-- A handler that does nothing but its `ret`. -/
def ret (s : Cpu) : Cpu :=
  { s with
    gpr := Function.update s.gpr .esp (s.gpr .esp + 4#32)
    eip := load s.mem (s.gpr .esp) }

theorem ret_own (lo top : ℕ) (s : Cpu) : Own lo top s (ret s) := ⟨fun _ _ _ => rfl, rfl, rfl⟩

theorem serves_ret (k : Kernel) (top : ℕ) (R : Source → Cpu → Cpu → Prop) (src : Source) (c : Cpu) :
    Serves k top R src c (ret (k.enter src c)) :=
  ReflTransGen.single (Or.inl (ret_own _ _ _))

theorem returned_ret (s : Cpu) : Returned s (ret s) := ⟨Function.update_self Gpr.esp _ s.gpr, rfl⟩

/-- A kernel with the stack for interrupts on the page at 0xc0100000. -/
def sampleKernel : Kernel where
  idtTable := 0xc0004000#32
  syscallTable := 0xc0005000#32
  intrEntry v := 0xc0001600#32 + BitVec.ofNat 32 (32 * v)
  syscallHandler := 0xc0001580#32
  vectorRet v := 0xc0001618#32 + BitVec.ofNat 32 (32 * v)
  syscallRet := 0xc00015a0#32
  ss0 := 0x10#16
  esp0 := 0xc0101000#32
  dpl _ := 3

/-- A program on the level 3. -/
def sampleProgram : Cpu where
  gpr
    | .esp => 0xbffff000#32
    | .eax => 1#32
    | _ => 7#32
  seg
    | .cs => 0x2b#16
    | .gs => 0#16
    | _ => 0x33#16
  eip := 0x08048000#32
  eflags := 0x202#32
  mem _ := 0#8
  ports := []

theorem sampleProgram_arrives : Arrives sampleKernel 0xc0101000 sampleProgram where
  data r hcs hss := by
    cases r with
    | cs => exact absurd rfl hcs
    | ss => exact absurd rfl hss
    | _ => decide
  top := Or.inr (by decide)
  room := by decide

/-- Code of the kernel can be interrupted wherever its stack has room. -/
theorem arrives_kernel {k : Kernel} {s : Cpu} (hcpl : s.cpl = 0) (hroom : 96 ≤ (s.gpr .esp).toNat)
    (htop : (s.gpr .esp).toNat ≤ top) : Arrives k top s where
  data r _ _ := by
    unfold Cpu.unload
    rw [hcpl, if_neg (Nat.not_lt_zero _), ite_self]
  top := Or.inl ⟨hcpl, htop⟩
  room := by
    rw [show k.base s = s from if_pos hcpl]
    exact hroom

/-- A handler that notes something in memory and allows interrupts. -/
def work (s : Cpu) : Cpu :=
  { s with mem := store s.mem 0xc0006000#32 1#32, eflags := s.eflags ||| 0x200#32 }

theorem work_cpl (s : Cpu) : (work s).cpl = s.cpl := rfl

/-- The clock interrupt, whose handler works and is interrupted by the keyboard. -/
theorem trap_resumes_timer :
    ∃ c', Trap sampleKernel 0xc0101000 2 (.vector 0x20 none) sampleProgram c' ∧
      Resumed 0xc0101000 (.vector 0x20 none) sampleProgram c' := by
  have hal : ∀ v, vectorArg v = .zero → (Source.vector v none).Aligned :=
    fun v hv => ⟨fun _ => hv, fun _ => rfl⟩
  obtain ⟨dummy, a, hent⟩ := enter_vector sampleKernel 0x20 none (c := sampleProgram) (by decide)
  set s := sampleKernel.enter (.vector 0x20 none) sampleProgram
  have hesp : (s.gpr .esp).toNat = 0xc0100fb0 := by
    have htop := hent.top
    have hbase : ((sampleKernel.base sampleProgram).gpr .esp).toNat = 0xc0101000 := by decide
    have hlen : (vectorWords sampleKernel 0x20 none dummy sampleProgram).length = 20 := rfl
    rw [hent.esp]
    omega
  have hcpl : (work s).cpl = 0 := (work_cpl s).trans hent.cpl
  have harr : Arrives sampleKernel 0xc0101000 (work s) :=
    arrives_kernel hcpl (show 96 ≤ (s.gpr .esp).toNat by omega)
      (show (s.gpr .esp).toNat ≤ 0xc0101000 by omega)
  have hkeyboard : Trap sampleKernel 0xc0101000 1 (.vector 0x21 none) (work s) _ :=
    ⟨harr, _, serves_ret _ _ _ _ _, returned_ret _, rfl⟩
  have hback := trap_resumes _ _ _ _ _ _ (hal 0x21 (by decide)) hkeyboard
  set s' := sampleKernel.leave (.vector 0x21 none)
    (ret (sampleKernel.enter (.vector 0x21 none) (work s)))
  have hesp' : s'.gpr .esp = s.gpr .esp := hback.gpr .esp (Or.inl (by decide))
  -- the return address is still there
  have hmem : ∀ i, (s.gpr .esp).toNat ≤ i → i < 0xc0101000 → s'.mem i = s.mem i := by
    intro i hlo hhi
    rw [hback.stack hcpl i hlo hhi]
    exact store_of_apart (Or.inr (Nat.le_trans (by decide : _ ≤ 0xc0100fb0) (hesp ▸ hlo)))
  have hserves : Serves sampleKernel 0xc0101000 (Trap sampleKernel 0xc0101000 1)
      (.vector 0x20 none) sampleProgram (ret s') := by
    have hwork : Own ((s.gpr .esp).toNat + 4) 0xc0101000 s (work s) := by
      refine ⟨fun i hlo _ => ?_, rfl, rfl⟩
      exact store_of_apart (Or.inr (Nat.le_trans (by decide : _ ≤ 0xc0100fb0) (by omega)))
    have hstart : Serves sampleKernel 0xc0101000 (Trap sampleKernel 0xc0101000 1)
        (.vector 0x20 none) sampleProgram s := ReflTransGen.refl
    exact ((hstart.own hwork).nested (hal 0x21 (by decide)) (Nat.le_add_right _ _) hkeyboard).own
      (ret_own _ _ _)
  have hreturned : Returned s (ret s') := by
    refine ⟨?_, ?_⟩
    · rw [(returned_ret s').esp, hesp']
    · rw [(returned_ret s').eip, hesp']
      exact load_congr fun i hlo hhi => hmem i hlo (by omega)
  have htrap : Trap sampleKernel 0xc0101000 2 (.vector 0x20 none) sampleProgram _ :=
    ⟨sampleProgram_arrives, _, hserves, hreturned, rfl⟩
  exact ⟨_, htrap, trap_resumes _ _ _ _ _ _ (hal 0x20 (by decide)) htrap⟩

/-! ## Which vectors return -/

/-- The vectors for which the processor pushes an error code. -/
def errorCodeVectors : List ℕ := [8, 10, 11, 12, 13, 14, 17]

/-- The vectors whose stubs expect an error code that the processor does not push. -/
def misaligned : List ℕ := [0x10, 0x12, 0x13, 0x14, 0x17, 0x1e]

theorem vectorArg_eq : ∀ v < 48,
    vectorArg v = if v ∈ errorCodeVectors ∨ v ∈ misaligned then .errorCode else .zero := by
  decide

/-- What `iret` takes for the frame, when the stub of the vector is misaligned. -/
theorem leave_misaligned {v : ℕ} {dummy : BitVec 32} {a : ℕ} (hv : vectorArg v = .errorCode)
    (hent : Entered k c (k.enter (.vector v none) c) a (vectorWords k v none dummy c))
    (htop : ((k.base c).gpr .esp).toNat ≤ top) (hkept : Kept k top (.vector v none) c s)
    (hret : Returned (k.enter (.vector v none) c) s) :
    (run intrExitPops s).slot 0 = (c.seg .cs).setWidth 32 ∧
      (run intrExitPops s).slot 1 = c.eflags := by
  have hend := ((k.base c).gpr .esp).isLt
  have hlen := hent.top
  have hwords := hent.words
  have herr : errWords v none = [] := by
    unfold errWords
    rw [hv]
    rfl
  unfold vectorWords at hwords hlen
  rw [herr, List.nil_append] at hwords hlen
  have hsaved : (IntrStack.ofCpu (BitVec.ofNat 32 v) 0#32 dummy c).saved.length = 13 := rfl
  simp only [List.length_cons, List.length_append, hsaved, backWords, List.length_nil,
    List.length_reverse] at hlen
  have hesp : (s.gpr .esp).toNat = a + 4 := by
    have hesp := hent.esp
    rw [hret.esp]
    bv_omega
  -- `eip` is in the place of the error code
  have hframe : Words s.mem (s.gpr .esp).toNat
      ((IntrStack.ofCpu (BitVec.ofNat 32 v) 0#32 dummy c).saved ++
        (c.eip :: ((c.seg .cs).setWidth 32 :: c.eflags :: (outer c).reverse))) := by
    rw [hesp]
    refine hwords.2.congr fun i hlo hhi => hkept.stack i ?_ ?_
    · rw [hent.esp]
      exact hlo
    · simp only [List.length_append, hsaved, backWords, List.length_cons, List.length_nil,
        List.length_reverse] at hhi
      omega
  have hroom : (s.gpr .esp).toNat +
      4 * (14 + ((c.seg .cs).setWidth 32 :: c.eflags :: (outer c).reverse).length) ≤ 2 ^ 32 := by
    simp only [List.length_cons, List.length_reverse]
    omega
  have hslot : ∀ i, i < 2 → (run intrExitPops s).slot i =
      ((c.seg .cs).setWidth 32 :: c.eflags :: (outer c).reverse).getD i 0#32 := fun i hi =>
    pops_back hframe hroom (by simp only [List.length_cons]; omega)
  exact ⟨hslot 0 (by omega), hslot 1 (by omega)⟩

/-- The bits 3 and 5 of EFLAGS, which are always clear. -/
def FixedFlags (f : BitVec 32) : Prop := f.getLsbD 3 = false ∧ f.getLsbD 5 = false

/-- The descriptors that a selector made of the flags can name: the first one, that of the data
segment, and those from the eighth on.  The table has seven. -/
def FlagsIndex (sel : BitVec 16) : Prop :=
  sel.toNat / 8 = 0 ∨ sel.toNat / 8 = 2 ∨ 8 ≤ sel.toNat / 8

theorem FixedFlags.index {f : BitVec 32} (h : FixedFlags f) : FlagsIndex (f.setWidth 16) := by
  obtain ⟨h3, h5⟩ := h
  have hbit : ∀ i, f.getLsbD i = false → f.toNat / 2 ^ i % 2 = 0 := by
    intro i hi
    rw [BitVec.getLsbD, Nat.testBit_eq_decide_div_mod_eq, decide_eq_false_iff_not] at hi
    omega
  have hbit3 := hbit 3 h3
  have hbit5 := hbit 5 h5
  unfold FlagsIndex
  rw [BitVec.toNat_setWidth]
  omega

/-- **Which vectors return.**  With the error codes that the processor pushes, an interrupted
program goes on as it was, for all vectors except six.  For these `iret` finds the frame one word
off: the selector of the code segment as the return address, and as the code selector the flags,
which never name a code segment. -/
theorem vector_resumes (k : Kernel) (top n v : ℕ) (err : Option (BitVec 32)) (c : Cpu)
    (hv : v < 48) (herr : err.isSome ↔ v ∈ errorCodeVectors) :
    (v ∉ misaligned → ∀ c', Trap k top n (.vector v err) c c' → Resumed top (.vector v err) c c') ∧
      (v ∈ misaligned → ∀ s, Arrives k top c → Serves k top (Trap k top n) (.vector v err) c s →
        Returned (k.enter (.vector v err) c) s →
        (run intrExitPops s).slot 0 = (c.seg .cs).setWidth 32 ∧
          (run intrExitPops s).slot 1 = c.eflags ∧
          (FixedFlags c.eflags → FlagsIndex (((run intrExitPops s).slot 1).setWidth 16))) := by
  have harg := vectorArg_eq v hv
  constructor
  · intro hmis c' htrap
    refine trap_resumes k top n _ c c' ?_ htrap
    show err.isNone ↔ vectorArg v = .zero
    rw [harg]
    by_cases hmem : v ∈ errorCodeVectors
    · rw [if_pos (Or.inl hmem), Option.isNone_iff_eq_none]
      have hsome := herr.mpr hmem
      exact ⟨fun hnone => absurd hsome (by rw [hnone]; nofun), nofun⟩
    · rw [if_neg fun h => h.elim hmem hmis, Option.isNone_iff_eq_none]
      have hnone : err = none := Option.not_isSome_iff_eq_none.mp fun h => hmem (herr.mp h)
      exact ⟨fun _ => rfl, fun _ => hnone⟩
  · intro hmis s harr hserve hret
    rw [if_pos (Or.inr hmis)] at harg
    have hnone : err = none := by
      refine Option.not_isSome_iff_eq_none.mp fun h => ?_
      have hdisjoint : ∀ v ∈ misaligned, v ∉ errorCodeVectors := by decide
      exact hdisjoint v hmis (herr.mp h)
    subst hnone
    obtain ⟨dummy, a, hent⟩ := enter_vector k v none (Nat.le_trans (by omega) harr.room)
    have hkept := Kept.run hent.cs (fun src' s s' => trap_resumes k top n src' s s') hserve
    obtain ⟨hslot₀, hslot₁⟩ := leave_misaligned harg hent harr.base_le hkept hret
    exact ⟨hslot₀, hslot₁, fun hfixed => hslot₁ ▸ hfixed.index⟩

/-- A general protection fault, which has an error code, and a floating-point error, whose stub
waits for one. -/
theorem vector_resumes_fault :
    (∃ c', Trap sampleKernel 0xc0101000 1 (.vector 13 (some 0x18#32)) sampleProgram c' ∧
      Resumed 0xc0101000 (.vector 13 (some 0x18#32)) sampleProgram c') ∧
    (run intrExitPops (ret (sampleKernel.enter (.vector 0x10 none) sampleProgram))).slot 1 =
      0x202#32 := by
  have htrap : Trap sampleKernel 0xc0101000 1 (.vector 13 (some 0x18#32)) sampleProgram _ :=
    ⟨sampleProgram_arrives, _, serves_ret _ _ _ _ _, returned_ret _, rfl⟩
  have hresumed := (vector_resumes sampleKernel 0xc0101000 1 13 (some 0x18#32) sampleProgram
    (by decide) (by decide)).1 (by decide) _ htrap
  obtain ⟨-, hflags, -⟩ := (vector_resumes sampleKernel 0xc0101000 1 0x10 none sampleProgram
    (by decide) (by decide)).2 (by decide) _ sampleProgram_arrives (serves_ret _ _ _ _ _)
      (returned_ret _)
  exact ⟨⟨_, htrap, hresumed⟩, hflags⟩

/-! ## System calls -/

/-- The entry of the table that `syscall_handler` calls. -/
theorem syscall_target {dummy : BitVec 32} {a : ℕ}
    (hent : Entered k c (k.enter .syscall c) a (syscallWords k dummy c))
    (hapart : (k.syscallTable + c.gpr .eax * 4#32).toNat + 4 ≤ a ∨
      ((k.base c).gpr .esp).toNat ≤ (k.syscallTable + c.gpr .eax * 4#32).toNat) :
    (k.enter .syscall c).eip = load c.mem (k.syscallTable + c.gpr .eax * 4#32) := by
  obtain ⟨hdeliver, hgpr, -⟩ := deliver_pushed k c k.syscallHandler none
  obtain ⟨-, -, hsame⟩ := syscallEntry_pushed hdeliver
  have heax := (hsame.gpr .eax (by decide)).trans (hgpr .eax (by decide))
  unfold Kernel.enter at hent ⊢
  dsimp only at hent ⊢
  generalize run syscallEntry (c.deliver selectorKCode k.syscallHandler k.ss0 k.esp0 none) = s at *
  show load s.mem (k.syscallTable + s.gpr .eax * 4#32) = _
  rw [heax]
  exact hent.load_eq hapart

/-- **System calls.**  The function that `syscall_handler` calls is the entry `eax` of the table,
which is not checked against its size; its arguments are `ebx`, `ecx` and `edx`.  When it returns,
`eax` is its result, and no other register of the caller has changed. -/
theorem syscall_returns (k : Kernel) (top n : ℕ) (c s : Cpu) (harr : Arrives k top c)
    (htable : (k.syscallTable + c.gpr .eax * 4#32).toNat + 4 + 96 ≤ ((k.base c).gpr .esp).toNat ∨
      ((k.base c).gpr .esp).toNat ≤ (k.syscallTable + c.gpr .eax * 4#32).toNat)
    (hserve : Serves k top (Trap k top n) .syscall c s)
    (hret : Returned (k.enter .syscall c) s) :
    (k.enter .syscall c).eip = load c.mem (k.syscallTable + c.gpr .eax * 4#32) ∧
      (k.enter .syscall c).slot 1 = c.gpr .ebx ∧ (k.enter .syscall c).slot 2 = c.gpr .ecx ∧
      (k.enter .syscall c).slot 3 = c.gpr .edx ∧
      (k.leave .syscall s).gpr = Function.update c.gpr .eax (s.gpr .eax) ∧
      (k.leave .syscall s).seg = c.seg ∧ (k.leave .syscall s).eip = c.eip ∧
      (k.leave .syscall s).eflags = c.eflags := by
  obtain ⟨dummy, a, hent⟩ := enter_syscall k harr.room
  have hend := ((k.base c).gpr .esp).isLt
  have hkept := Kept.run hent.cs (fun src' s s' => trap_resumes k top n src' s s') hserve
  have hleave : k.leave .syscall s = _ :=
    intrExit_leaving (leaving_of_syscall hent harr.base_le hkept hret) harr.data
  have htop := hent.top
  have hlen := syscallWords_length k dummy c
  have hslot : ∀ i, i < 4 → (k.enter .syscall c).slot i = (syscallWords k dummy c).getD i 0#32 := by
    intro i hi
    have hwords := hent.words
    rw [← hent.esp] at hwords htop
    exact Cpu.slot_eq hwords (by omega) (by omega)
  rw [hleave]
  refine ⟨syscall_target hent ?_, hslot 1 (by omega), hslot 2 (by omega), hslot 3 (by omega), rfl,
    rfl, rfl, rfl⟩
  omega

/-- A call with the number 1. -/
theorem syscall_returns_write :
    (sampleKernel.enter .syscall sampleProgram).slot 1 = 7#32 ∧
      (sampleKernel.leave .syscall (ret (sampleKernel.enter .syscall sampleProgram))).eip =
        0x08048000#32 := by
  obtain ⟨-, hebx, -, -, -, -, heip, -⟩ := syscall_returns sampleKernel 0xc0101000 0 sampleProgram _
    sampleProgram_arrives (Or.inl (by decide)) (serves_ret _ _ _ _ _) (returned_ret _)
  exact ⟨hebx, heip⟩

end HcOs.Entry
