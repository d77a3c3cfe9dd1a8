import HcOs.Lib.Bytes
import Mathlib.Logic.Relation
import Mathlib.Logic.Function.Basic

/-!
# Switching between threads (`thread/switch.S`)

The instructions of `switch_to` run on a processor with the registers they name and a memory of
bytes.  `thread_create` forges the frame that `switch_to` pops when it enters a thread for the first
time.  The system is a set of threads, one of them running; a thread owns the page of its PCB, with
the kernel stack in its upper part.

* `switch_resumes`: in every run a thread is resumed with the registers, the stack and the return
  address of its call, and a new one enters `kernel_thread` with its two arguments.
-/

namespace HcOs.Switch

open HcOs.Lib
open Relation (ReflTransGen)

/-! ## The processor -/

/-- The registers that `switch_to` names. -/
inductive Reg where
  | eax
  | ebx
  | esi
  | edi
  | ebp
  | esp
  deriving DecidableEq, Repr

structure Cpu where
  reg : Reg → BitVec 32
  eip : BitVec 32
  mem : Bytes

/-- The word at an address. -/
def word (m : Bytes) (a : BitVec 32) : BitVec 32 := BitVec.ofNat 32 (m.getWord a.toNat)

def put (m : Bytes) (a v : BitVec 32) : Bytes := m.putWord a.toNat v.toNat

inductive Instr where
  | push (r : Reg)
  | pop (r : Reg)
  /-- `mov dst, [base + disp]` -/
  | load (dst base : Reg) (disp : BitVec 32)
  /-- `mov [base], src` -/
  | store (base src : Reg)
  | ret
  deriving DecidableEq, Repr

def pushVal (v : BitVec 32) (c : Cpu) : Cpu :=
  { c with
    reg := Function.update c.reg .esp (c.reg .esp - 4#32)
    mem := put c.mem (c.reg .esp - 4#32) v }

def exec (c : Cpu) : Instr → Cpu
  | .push r => pushVal (c.reg r) c
  | .pop r =>
    { c with
      reg := Function.update (Function.update c.reg .esp (c.reg .esp + 4#32)) r
        (word c.mem (c.reg .esp)) }
  | .load dst base disp =>
    { c with reg := Function.update c.reg dst (word c.mem (c.reg base + disp)) }
  | .store base src => { c with mem := put c.mem (c.reg base) (c.reg src) }
  | .ret =>
    { c with
      eip := word c.mem (c.reg .esp)
      reg := Function.update c.reg .esp (c.reg .esp + 4#32) }

def run (is : List Instr) (c : Cpu) : Cpu := is.foldl exec c

/-! ## The program -/

def switchTo : List Instr :=
  [.push .esi, .push .edi, .push .ebx, .push .ebp,
    .load .eax .esp 20#32, .store .eax .esp,
    .load .eax .esp 24#32, .load .esp .eax 0#32,
    .pop .ebp, .pop .ebx, .pop .edi, .pop .esi, .ret]

/-- The stack when `switch_to` is called: the arguments are pushed from the last to the first. -/
def pushArgs (cur next : BitVec 32) (c : Cpu) : Cpu := pushVal cur (pushVal next c)

/-- `switch_to(cur, next)`, to return to `ret`. -/
def callSwitchTo (cur next ret : BitVec 32) (c : Cpu) : Cpu :=
  run switchTo (pushVal ret (pushArgs cur next c))

/-- `running_thread`. -/
def runningThread (c : Cpu) : BitVec 32 := c.reg .esp &&& 0xfffff000#32

def sizeofIntrStack : BitVec 32 := 76#32
def sizeofThreadStack : BitVec 32 := 32#32

/-- `sizeof(struct task_struct)`. -/
def pcbSize : ℕ := 272

/-- What `init_thread` puts into `self_kstack`, the first member of a PCB. -/
def initKstack (pthread : BitVec 32) (m : Bytes) : Bytes := put m pthread (pthread + 4096#32)

/-- The assignments of `thread_create` to the members of `struct thread_stack`. -/
def fillThreadStack (kernelThread kthreadStack function funcArg : BitVec 32) (m : Bytes) : Bytes :=
  let m := put m (kthreadStack + 16#32) kernelThread
  let m := put m (kthreadStack + 24#32) function
  let m := put m (kthreadStack + 28#32) funcArg
  let m := put m (kthreadStack + 8#32) 0#32
  let m := put m (kthreadStack + 12#32) 0#32
  let m := put m (kthreadStack + 4#32) 0#32
  put m kthreadStack 0#32

/-- `thread_create`; `self_kstack` counts in words, so it moves by four times the sizes. -/
def threadCreate (kernelThread pthread function funcArg : BitVec 32) (m : Bytes) : Bytes :=
  let m := put m pthread (word m pthread - 4#32 * sizeofIntrStack)
  let m := put m pthread (word m pthread - 4#32 * sizeofThreadStack)
  fillThreadStack kernelThread (word m pthread) function funcArg m

/-! ## The system -/

structure Sys where
  cpu : Cpu
  /-- The running thread. -/
  cur : BitVec 32
  /-- The PCBs of all threads. -/
  threads : List (BitVec 32)

/-- An address of a PCB: the start of a page. -/
structure IsPage (p : BitVec 32) : Prop where
  aligned : p.toNat % 4096 = 0

/-- The stack of a thread and its `self_kstack` are the same. -/
def Untouched (p : BitVec 32) (m m' : Bytes) : Prop :=
  (∀ i, p.toNat ≤ i → i < p.toNat + 4 → m' i = m i) ∧
    ∀ i, p.toNat + pcbSize ≤ i → i < p.toNat + 4096 → m' i = m i

/-- `thread_create` is called for a new page. -/
structure CanCreate (s : Sys) (p : BitVec 32) : Prop where
  page : IsPage p
  new : p ∉ s.threads

def created (kernelThread : BitVec 32) (s : Sys) (p function funcArg : BitVec 32) : Sys where
  cpu := { s.cpu with mem := threadCreate kernelThread p function funcArg (initKstack p s.cpu.mem) }
  cur := s.cur
  threads := p :: s.threads

/-- `switch_to` is called for a thread, with room for the call on the caller's stack. -/
structure CanSwitch (s : Sys) (next : BitVec 32) : Prop where
  next : next ∈ s.threads
  room : s.cur.toNat + pcbSize + 28 ≤ (s.cpu.reg .esp).toNat
  own : (s.cpu.reg .esp).toNat < s.cur.toNat + 4096

def switched (s : Sys) (next ret : BitVec 32) : Sys where
  cpu := callSwitchTo (runningThread s.cpu) next ret s.cpu
  cur := next
  threads := s.threads

inductive Step (kernelThread : BitVec 32) : Sys → Sys → Prop
  | create {s : Sys} {p : BitVec 32} (h : CanCreate s p) (function funcArg : BitVec 32) :
    Step kernelThread s (created kernelThread s p function funcArg)
  /-- The running thread does anything to the registers and to memory, except to the stacks of the
  others. -/
  | own {s : Sys} (cpu : Cpu) (h : ∀ q ∈ s.threads, q ≠ s.cur → Untouched q s.cpu.mem cpu.mem) :
    Step kernelThread s { s with cpu }
  | switch {s : Sys} {next : BitVec 32} (h : CanSwitch s next) (ret : BitVec 32) :
    Step kernelThread s (switched s next ret)

/-! ## The stack -/

variable {c c' : Cpu} {m m' : Bytes} {a : ℕ} {p x v : BitVec 32} {vs : List (BitVec 32)}

theorem word_eq (h : m.getWord x.toNat = v.toNat) : word m x = v := by
  unfold word
  rw [h, BitVec.ofNat_toNat, BitVec.setWidth_eq]

theorem word_congr (h : ∀ i, x.toNat ≤ i → i < x.toNat + 4 → m' i = m i) : word m' x = word m x := by
  unfold word
  rw [Bytes.getWord_congr fun k hk => h (x.toNat + k) (by omega) (by omega)]

theorem word_put (m : Bytes) (x v : BitVec 32) : word (put m x v) x = v := by
  refine word_eq ?_
  unfold put
  rw [Bytes.getWord_putWord, Nat.mod_eq_of_lt v.isLt]

theorem put_of_apart {i : ℕ} (h : i < x.toNat ∨ x.toNat + 4 ≤ i) : put m x v i = m i :=
  Bytes.putWord_of_not_mem h

/-- The words from `a` on. -/
def Top (m : Bytes) : ℕ → List (BitVec 32) → Prop
  | _, [] => True
  | a, v :: vs => m.getWord a = v.toNat ∧ Top m (a + 4) vs

theorem Top.congr (h : Top m a vs) (heq : ∀ i, a ≤ i → i < a + 4 * vs.length → m' i = m i) :
    Top m' a vs := by
  induction vs generalizing a with
  | nil => trivial
  | cons v vs ih =>
    rw [List.length_cons] at heq
    obtain ⟨hv, hvs⟩ := h
    refine ⟨?_, ih hvs fun i hlo hhi => heq i (by omega) (by omega)⟩
    rw [← hv]
    exact Bytes.getWord_congr fun k hk => heq _ (by omega) (by omega)

/-- The state `c'` is `c` with the words `vs` pushed, and the stack pointer is `a`. -/
structure Stacked (c c' : Cpu) (a : ℕ) (vs : List (BitVec 32)) : Prop where
  esp : (c'.reg .esp).toNat = a
  top : Top c'.mem a vs
  regs : ∀ r, r ≠ .esp → c'.reg r = c.reg r
  frame : ∀ i, i < a ∨ a + 4 * vs.length ≤ i → c'.mem i = c.mem i

theorem Stacked.refl (c : Cpu) : Stacked c c (c.reg .esp).toNat [] where
  esp := rfl
  top := trivial
  regs _ _ := rfl
  frame _ _ := rfl

theorem Stacked.push (h : Stacked c c' (a + 4) vs) (v : BitVec 32) :
    Stacked c (pushVal v c') a (v :: vs) := by
  have hesp : (c'.reg .esp - 4#32).toNat = a := by
    have := h.esp
    bv_omega
  have hmem : ∀ i, i < a ∨ a + 4 ≤ i → (pushVal v c').mem i = c'.mem i := by
    intro i hi
    exact put_of_apart (by omega)
  refine ⟨?_, ⟨?_, ?_⟩, fun r hr => ?_, fun i hi => ?_⟩
  · show (Function.update c'.reg .esp _ .esp).toNat = a
    rw [Function.update_self]
    exact hesp
  · show (c'.mem.putWord _ v.toNat).getWord a = v.toNat
    rw [hesp, Bytes.getWord_putWord, Nat.mod_eq_of_lt v.isLt]
  · exact h.top.congr fun i hlo hhi => hmem i (Or.inr hlo)
  · rw [← h.regs r hr]
    exact Function.update_of_ne hr _ _
  · rw [List.length_cons] at hi
    rw [hmem i (by omega)]
    exact h.frame i (by omega)

theorem Stacked.exec_push (h : Stacked c c' (a + 4) vs) {r : Reg} (hr : r ≠ .esp) :
    Stacked c (exec c' (.push r)) a (c.reg r :: vs) := by
  show Stacked c (pushVal (c'.reg r) c') a (c.reg r :: vs)
  rw [h.regs r hr]
  exact h.push (c.reg r)

/-! ## `switch_to` -/

/-- What a thread takes up again: the registers that `switch_to` saves, the stack pointer and the
instruction to go on with. -/
structure Ctx where
  esi : BitVec 32
  edi : BitVec 32
  ebx : BitVec 32
  ebp : BitVec 32
  esp : BitVec 32
  eip : BitVec 32

def Cpu.ctx (c : Cpu) : Ctx :=
  ⟨c.reg .esi, c.reg .edi, c.reg .ebx, c.reg .ebp, c.reg .esp, c.eip⟩

/-- The context of a `struct thread_stack`. -/
def frame (m : Bytes) (k : BitVec 32) : Ctx where
  ebp := word m k
  ebx := word m (k + 4#32)
  edi := word m (k + 8#32)
  esi := word m (k + 12#32)
  eip := word m (k + 16#32)
  esp := k + 20#32

/-- The upper half: the registers are pushed. -/
def saveRegs : List Instr := [.push .esi, .push .edi, .push .ebx, .push .ebp]

/-- The middle: the stack pointer goes to `cur`, and that of `next` is loaded. -/
def swapStacks : List Instr :=
  [.load .eax .esp 20#32, .store .eax .esp, .load .eax .esp 24#32, .load .esp .eax 0#32]

/-- The lower half: the registers are popped. -/
def restoreRegs : List Instr := [.pop .ebp, .pop .ebx, .pop .edi, .pop .esi, .ret]

theorem run_switchTo (c : Cpu) :
    run switchTo c = run restoreRegs (run swapStacks (run saveRegs c)) := rfl

theorem saveRegs_spec (h : Stacked c c' (a + 16) vs) :
    Stacked c (run saveRegs c') a
      (c.reg .ebp :: c.reg .ebx :: c.reg .edi :: c.reg .esi :: vs) := by
  have hesi : Stacked c (exec c' (.push .esi)) (a + 12) _ := h.exec_push (by decide)
  have hedi : Stacked c (exec _ (.push .edi)) (a + 8) _ := hesi.exec_push (by decide)
  have hebx : Stacked c (exec _ (.push .ebx)) (a + 4) _ := hedi.exec_push (by decide)
  exact hebx.exec_push (by decide)

theorem Top.nth (h : Top m a vs) {k : BitVec 32} (hk : k.toNat = a) {i : ℕ} (hi : i < vs.length)
    (hend : a + 4 * i < 2 ^ 32) : word m (k + BitVec.ofNat 32 (4 * i)) = vs.getD i 0#32 := by
  induction vs generalizing a k i with
  | nil => exact absurd hi (Nat.not_lt_zero i)
  | cons v vs ih =>
    cases i with
    | zero =>
      rw [Nat.mul_zero, BitVec.add_zero, List.getD_cons_zero]
      refine word_eq ?_
      rw [hk]
      exact h.1
    | succ i =>
      have hk' : (k + 4#32).toNat = a + 4 := by bv_omega
      rw [List.length_cons] at hi
      rw [List.getD_cons_succ, ← ih h.2 hk' (by omega) (by omega), BitVec.add_assoc]
      congr 2
      bv_omega

/-- The frame that the pushes of `switch_to` leave. -/
theorem Top.frame_eq {ebp ebx edi esi eip : BitVec 32}
    (h : Top m a (ebp :: ebx :: edi :: esi :: eip :: vs)) {k : BitVec 32} (hk : k.toNat = a)
    (hend : a + 16 < 2 ^ 32) : frame m k = ⟨esi, edi, ebx, ebp, k + 20#32, eip⟩ := by
  have h0 : word m (k + 0#32) = ebp := h.nth hk (i := 0) (by simp) (by omega)
  have h1 : word m (k + 4#32) = ebx := h.nth hk (i := 1) (by simp) (by omega)
  have h2 : word m (k + 8#32) = edi := h.nth hk (i := 2) (by simp) (by omega)
  have h3 : word m (k + 12#32) = esi := h.nth hk (i := 3) (by simp) (by omega)
  have h4 : word m (k + 16#32) = eip := h.nth hk (i := 4) (by simp) (by omega)
  rw [BitVec.add_zero] at h0
  unfold frame
  rw [h0, h1, h2, h3, h4]

theorem swapStacks_spec {ebp ebx edi esi ret cur next : BitVec 32} (hesp : (c.reg .esp).toNat = a)
    (h : Top c.mem a [ebp, ebx, edi, esi, ret, cur, next]) (hend : a + 24 < 2 ^ 32)
    (hcur : cur.toNat + 4 ≤ a) :
    (run swapStacks c).mem = put c.mem cur (c.reg .esp) ∧
      (run swapStacks c).reg .esp = word (put c.mem cur (c.reg .esp)) next := by
  have h5 : word c.mem (c.reg .esp + 20#32) = cur := h.nth hesp (i := 5) (by simp) (by omega)
  have h' : Top (put c.mem cur (c.reg .esp)) a _ := h.congr fun i hlo hhi => put_of_apart (by omega)
  have h6 : word (put c.mem cur (c.reg .esp)) (c.reg .esp + 24#32) = next :=
    h'.nth hesp (i := 6) (by simp) (by omega)
  simp [run, swapStacks, exec, h5, h6]

theorem restoreRegs_spec (c : Cpu) :
    (run restoreRegs c).ctx = frame c.mem (c.reg .esp) ∧ (run restoreRegs c).mem = c.mem := by
  refine ⟨?_, rfl⟩
  simp [run, restoreRegs, exec, Cpu.ctx, frame, BitVec.add_assoc]

/-- A call of `switch_to` with room on the stack: the caller's frame is pushed, its stack pointer is
saved, and the frame of the other thread is taken up. -/
theorem callSwitchTo_spec {cur next ret : BitVec 32} (hesp : (c.reg .esp).toNat = a + 28)
    (hcur : cur.toNat + 4 ≤ a) :
    ∃ m k, k.toNat = a ∧
      Top m a [c.reg .ebp, c.reg .ebx, c.reg .edi, c.reg .esi, ret, cur, next] ∧
      (∀ i, i < a ∨ a + 28 ≤ i → m i = c.mem i) ∧
      (callSwitchTo cur next ret c).mem = put m cur k ∧
      (callSwitchTo cur next ret c).ctx = frame (put m cur k) (word (put m cur k) next) ∧
      k + 20#32 = (pushArgs cur next c).reg .esp := by
  have hlt := (c.reg .esp).isLt
  have h₀ := Stacked.refl c
  rw [hesp] at h₀
  have hargs : Stacked c (pushArgs cur next c) (a + 20) [cur, next] :=
    Stacked.push (a := a + 20) (Stacked.push (a := a + 24) h₀ next) cur
  have hsave := saveRegs_spec (Stacked.push (a := a + 16) hargs ret)
  have hcall : callSwitchTo cur next ret c =
      run restoreRegs (run swapStacks (run saveRegs (pushVal ret (pushArgs cur next c)))) :=
    run_switchTo _
  rw [hcall]
  generalize run saveRegs (pushVal ret (pushArgs cur next c)) = c₁ at hsave ⊢
  obtain ⟨hmem, hnext⟩ := swapStacks_spec hsave.esp hsave.top (by omega) hcur
  obtain ⟨hctx, hkeep⟩ := restoreRegs_spec (run swapStacks c₁)
  refine ⟨c₁.mem, c₁.reg .esp, hsave.esp, hsave.top, hsave.frame, ?_, ?_, ?_⟩
  · rw [hkeep, hmem]
  · rw [hctx, hmem, hnext]
  · have hesp' := hsave.esp
    have hargs' := hargs.esp
    bv_omega

/-! ## Suspended threads -/

/-- How a thread was left: it was prepared by `thread_create`, or it called `switch_to`. -/
inductive Saved where
  | fresh (function funcArg : BitVec 32)
  | called (ctx : Ctx)

/-- The bytes of the frame. -/
def Saved.size : Saved → ℕ
  | .fresh _ _ => 32
  | .called _ => 28

theorem Saved.le_size (sv : Saved) : 28 ≤ sv.size := by
  cases sv with
  | fresh => exact Nat.le_add_right 28 4
  | called => exact Nat.le_refl 28

/-- The thread goes on as it was left. -/
def Resumes (kernelThread : BitVec 32) (m : Bytes) (ctx : Ctx) : Saved → Prop
  | .fresh function funcArg => ctx.eip = kernelThread ∧ word m (ctx.esp + 4#32) = function ∧
      word m (ctx.esp + 8#32) = funcArg
  | .called ctx' => ctx = ctx'

/-- The frame of a thread that is not running lies on its stack. -/
structure Suspended (kernelThread : BitVec 32) (sv : Saved) (p : BitVec 32) (m : Bytes) : Prop where
  lo : p.toNat + pcbSize ≤ (word m p).toNat
  hi : (word m p).toNat + sv.size ≤ p.toNat + 4096
  resumes : Resumes kernelThread m (frame m (word m p)) sv

variable {kernelThread : BitVec 32} {sv : Saved} {k q : BitVec 32}

theorem IsPage.end_le (h : IsPage p) : p.toNat + 4096 ≤ 2 ^ 32 := by
  have hlt := p.isLt
  have haligned := h.aligned
  omega

theorem IsPage.apart (hp : IsPage p) (hq : IsPage q) (hne : p ≠ q) :
    p.toNat + 4096 ≤ q.toNat ∨ q.toNat + 4096 ≤ p.toNat := by
  have hp' := hp.aligned
  have hq' := hq.aligned
  have hne' : p.toNat ≠ q.toNat := fun h => hne (BitVec.eq_of_toNat_eq h)
  omega

theorem frame_congr (hend : k.toNat + 20 ≤ 2 ^ 32)
    (h : ∀ i, k.toNat ≤ i → i < k.toNat + 20 → m' i = m i) : frame m' k = frame m k := by
  unfold frame
  rw [word_congr fun i hlo hhi => h i hlo (by omega),
    word_congr fun i hlo hhi => h i (by bv_omega) (by bv_omega),
    word_congr fun i hlo hhi => h i (by bv_omega) (by bv_omega),
    word_congr fun i hlo hhi => h i (by bv_omega) (by bv_omega),
    word_congr fun i hlo hhi => h i (by bv_omega) (by bv_omega)]

theorem Suspended.untouched (h : Suspended kernelThread sv p m) (hp : IsPage p)
    (hu : Untouched p m m') : Suspended kernelThread sv p m' := by
  obtain ⟨hself, hstack⟩ := hu
  have hword : word m' p = word m p := word_congr hself
  have hlo := h.lo
  have hhi := h.hi
  have hend := hp.end_le
  have hsize := sv.le_size
  have hframe : frame m' (word m p) = frame m (word m p) :=
    frame_congr (by omega) fun i hi hi' => hstack i (by omega) (by omega)
  refine ⟨by rw [hword]; exact hlo, by rw [hword]; exact hhi, ?_⟩
  rw [hword, hframe]
  have hres := h.resumes
  cases sv with
  | called ctx => exact hres
  | fresh function funcArg =>
    obtain ⟨heip, hfun, harg⟩ := hres
    have hsz : (word m p).toNat + 32 ≤ p.toNat + 4096 := hhi
    refine ⟨heip, ?_, ?_⟩
    · rw [← hfun]
      refine word_congr fun i hi hi' => hstack i ?_ ?_
      · unfold frame at hi
        bv_omega
      · unfold frame at hi'
        bv_omega
    · rw [← harg]
      refine word_congr fun i hi hi' => hstack i ?_ ?_
      · unfold frame at hi
        bv_omega
      · unfold frame at hi'
        bv_omega

/-! ## `thread_create` -/

theorem word_put_of_apart (h : q.toNat + 4 ≤ p.toNat ∨ p.toNat + 4 ≤ q.toNat) :
    word (put m p v) q = word m q :=
  word_congr fun i hlo hhi => put_of_apart (by omega)

theorem fillThreadStack_spec {kernelThread function funcArg : BitVec 32}
    (hend : k.toNat + 32 ≤ 2 ^ 32) :
    word (fillThreadStack kernelThread k function funcArg m) (k + 16#32) = kernelThread ∧
      word (fillThreadStack kernelThread k function funcArg m) (k + 24#32) = function ∧
      word (fillThreadStack kernelThread k function funcArg m) (k + 28#32) = funcArg ∧
      ∀ i, i < k.toNat ∨ k.toNat + 32 ≤ i →
        fillThreadStack kernelThread k function funcArg m i = m i := by
  have h4 : (k + 4#32).toNat = k.toNat + 4 := by bv_omega
  have h8 : (k + 8#32).toNat = k.toNat + 8 := by bv_omega
  have h12 : (k + 12#32).toNat = k.toNat + 12 := by bv_omega
  have h16 : (k + 16#32).toNat = k.toNat + 16 := by bv_omega
  have h24 : (k + 24#32).toNat = k.toNat + 24 := by bv_omega
  have h28 : (k + 28#32).toNat = k.toNat + 28 := by bv_omega
  unfold fillThreadStack
  refine ⟨?_, ?_, ?_, fun i hi => ?_⟩
  · rw [word_put_of_apart (by omega), word_put_of_apart (by omega), word_put_of_apart (by omega),
      word_put_of_apart (by omega), word_put_of_apart (by omega), word_put_of_apart (by omega), word_put]
  · rw [word_put_of_apart (by omega), word_put_of_apart (by omega), word_put_of_apart (by omega),
      word_put_of_apart (by omega), word_put_of_apart (by omega), word_put]
  · rw [word_put_of_apart (by omega), word_put_of_apart (by omega), word_put_of_apart (by omega),
      word_put_of_apart (by omega), word_put]
  · rw [put_of_apart (by omega), put_of_apart (by omega), put_of_apart (by omega),
      put_of_apart (by omega), put_of_apart (by omega), put_of_apart (by omega),
      put_of_apart (by omega)]

theorem fillThreadStack_suspended {kernelThread function funcArg : BitVec 32} (hp : IsPage p)
    (hself : word m p = k) (hk : k.toNat = p.toNat + 3664) :
    Suspended kernelThread (.fresh function funcArg) p
      (fillThreadStack kernelThread k function funcArg m) := by
  have hend := hp.end_le
  obtain ⟨heip, hfun, harg, hframe⟩ :=
    @fillThreadStack_spec m k kernelThread function funcArg (by omega)
  have hself' : word (fillThreadStack kernelThread k function funcArg m) p = k :=
    (word_congr fun i hlo hhi => hframe i (by omega)).trans hself
  refine ⟨?_, ?_, ?_⟩
  · rw [hself', hk]
    unfold pcbSize
    omega
  · rw [hself', hk]
    show p.toNat + 3664 + 32 ≤ p.toNat + 4096
    omega
  · rw [hself']
    refine ⟨heip, ?_, ?_⟩
    · unfold frame
      dsimp only
      rw [BitVec.add_assoc]
      exact hfun
    · unfold frame
      dsimp only
      rw [BitVec.add_assoc]
      exact harg

/-- The frame that `thread_create` leaves, and where. -/
theorem threadCreate_spec (hp : IsPage p) (kernelThread function funcArg : BitVec 32) (m : Bytes) :
    Suspended kernelThread (.fresh function funcArg) p
        (threadCreate kernelThread p function funcArg (initKstack p m)) ∧
      ∀ i, i < p.toNat ∨ p.toNat + 4096 ≤ i →
        threadCreate kernelThread p function funcArg (initKstack p m) i = m i := by
  have hend := hp.end_le
  have hk : p + 4096#32 - 4#32 * sizeofIntrStack - 4#32 * sizeofThreadStack = p + 3664#32 := by
    unfold sizeofIntrStack sizeofThreadStack
    bv_omega
  have hkn : (p + 3664#32).toNat = p.toNat + 3664 := by bv_omega
  unfold threadCreate initKstack
  simp only [word_put, hk]
  refine ⟨fillThreadStack_suspended hp (word_put _ _ _) hkn, fun i hi => ?_⟩
  obtain ⟨-, -, -, hframe⟩ := @fillThreadStack_spec
    (put (put (put m p (p + 4096#32)) p (p + 4096#32 - 4#32 * sizeofIntrStack)) p (p + 3664#32))
    (p + 3664#32) kernelThread function funcArg (by omega)
  rw [hframe i (by omega), put_of_apart (by omega), put_of_apart (by omega), put_of_apart (by omega)]

/-! ## The steps -/

variable {s s' : Sys} {next ret function funcArg : BitVec 32}

/-- What holds of the system itself. -/
structure Inv (s : Sys) : Prop where
  pages : ∀ q ∈ s.threads, IsPage q
  running : s.cur ∈ s.threads

/-- The context that a thread has when it calls `switch_to`. -/
def ctxAt (s : Sys) (next ret : BitVec 32) : Ctx :=
  { (pushArgs (runningThread s.cpu) next s.cpu).ctx with eip := ret }

theorem runningThread_eq (hp : IsPage p) (hlo : p.toNat ≤ (c.reg .esp).toNat)
    (hhi : (c.reg .esp).toNat < p.toNat + 4096) : runningThread c = p := by
  have haligned := hp.aligned
  apply BitVec.eq_of_toNat_eq
  unfold runningThread
  have hmask : (c.reg .esp).toNat &&& 0xfffff000 = (c.reg .esp).toNat / 2 ^ 12 % 2 ^ 20 * 2 ^ 12 :=
    and_mask _ 20 12
  have hlt := (c.reg .esp).isLt
  rw [BitVec.toNat_and]
  refine hmask.trans ?_
  omega

/-- What a call of `switch_to` does to memory and to the processor. -/
theorem switched_spec (kernelThread : BitVec 32) (hinv : Inv s) (h : CanSwitch s next)
    (ret : BitVec 32) :
    Suspended kernelThread (.called (ctxAt s next ret)) s.cur (switched s next ret).cpu.mem ∧
      (∀ i, i < s.cur.toNat ∨ s.cur.toNat + 4096 ≤ i →
        (switched s next ret).cpu.mem i = s.cpu.mem i) ∧
      (switched s next ret).cpu.ctx =
        frame (switched s next ret).cpu.mem (word (switched s next ret).cpu.mem next) := by
  have hpage := hinv.pages _ hinv.running
  have hend := hpage.end_le
  have hroom := h.room
  have hown := h.own
  have hcur : runningThread s.cpu = s.cur := runningThread_eq hpage (by omega) hown
  unfold pcbSize at hroom
  obtain ⟨a, ha⟩ : ∃ a, (s.cpu.reg .esp).toNat = a + 28 := ⟨(s.cpu.reg .esp).toNat - 28, by omega⟩
  obtain ⟨m, k, hk, htop, hframe, hmem, hctx, hesp⟩ :=
    @callSwitchTo_spec s.cpu a s.cur next ret ha (by omega)
  have hmem' : (switched s next ret).cpu.mem = put m s.cur k := by
    unfold switched
    dsimp only
    rw [hcur]
    exact hmem
  refine ⟨?_, fun i hi => ?_, ?_⟩
  · rw [hmem']
    have htop' : Top (put m s.cur k) a _ := htop.congr fun i hlo hhi => put_of_apart (by omega)
    refine ⟨?_, ?_, ?_⟩
    · rw [word_put, hk]
      unfold pcbSize
      omega
    · rw [word_put, hk]
      show a + 28 ≤ _
      omega
    · rw [word_put]
      refine (htop'.frame_eq hk (by omega)).trans ?_
      unfold ctxAt
      rw [hesp, hcur]
      rfl
  · rw [hmem', put_of_apart (by omega)]
    exact hframe i (by omega)
  · rw [hmem']
    unfold switched
    dsimp only
    rw [hcur]
    exact hctx

/-- Bytes of another page. -/
theorem untouched_of_page (hp : IsPage p) (hq : IsPage q) (hne : p ≠ q)
    (h : ∀ i, i < p.toNat ∨ p.toNat + 4096 ≤ i → m' i = m i) : Untouched q m m' := by
  have hapart := hp.apart hq hne
  refine ⟨fun i hlo hhi => h i (by omega), fun i hlo hhi => h i (by omega)⟩

theorem Step.inv (h : Step kernelThread s s') (hinv : Inv s) : Inv s' := by
  cases h with
  | create hc function funcArg =>
    refine ⟨fun q hq => ?_, List.mem_cons_of_mem _ hinv.running⟩
    rcases List.mem_cons.mp hq with rfl | hq
    · exact hc.page
    · exact hinv.pages q hq
  | own cpu h => exact ⟨hinv.pages, hinv.running⟩
  | switch hs ret => exact ⟨hinv.pages, hs.next⟩

/-- No step touches the frame of a thread that is not running. -/
theorem Step.suspended (h : Step kernelThread s s') (hinv : Inv s) (hq : q ∈ s.threads)
    (hne : q ≠ s.cur) (hsv : Suspended kernelThread sv q s.cpu.mem) :
    Suspended kernelThread sv q s'.cpu.mem := by
  have hpage := hinv.pages q hq
  refine hsv.untouched hpage ?_
  cases h with
  | @create p hc function funcArg =>
    have hqp : p ≠ q := fun heq => hc.new (heq ▸ hq)
    have hframe := (threadCreate_spec hc.page kernelThread function funcArg s.cpu.mem).2
    exact untouched_of_page hc.page hpage hqp hframe
  | own cpu h => exact h q hq hne
  | switch hs ret =>
    have hframe := (switched_spec kernelThread hinv hs ret).2.1
    exact untouched_of_page (hinv.pages _ hinv.running) hpage hne.symm hframe

/-! ## Runs -/

/-- A run in which `q` is not running. -/
def Away (kernelThread q : BitVec 32) (s s' : Sys) : Prop :=
  s.cur ≠ q ∧ ReflTransGen (fun s s' => Step kernelThread s s' ∧ s'.cur ≠ q) s s'

theorem run_invariant (h : ReflTransGen (Step kernelThread) s s') (hinv : Inv s) : Inv s' := by
  induction h with
  | refl => exact hinv
  | tail _ hstep ih => exact hstep.inv ih

theorem Step.threads (h : Step kernelThread s s') (hq : q ∈ s.threads) : q ∈ s'.threads := by
  cases h with
  | create hc function funcArg => exact List.mem_cons_of_mem _ hq
  | own cpu h => exact hq
  | switch hs ret => exact hq

/-- The frame of a thread survives until the thread runs again. -/
theorem Away.suspended (h : Away kernelThread q s s') (hinv : Inv s) (hq : q ∈ s.threads)
    (hsv : Suspended kernelThread sv q s.cpu.mem) :
    Inv s' ∧ q ∈ s'.threads ∧ s'.cur ≠ q ∧ Suspended kernelThread sv q s'.cpu.mem := by
  obtain ⟨hne, h⟩ := h
  induction h with
  | refl => exact ⟨hinv, hq, hne, hsv⟩
  | tail _ hstep ih =>
    obtain ⟨hinv, hq, hne, hsv⟩ := ih
    exact ⟨hstep.1.inv hinv, hstep.1.threads hq, hstep.2,
      hstep.1.suspended hinv hq hne.symm hsv⟩

/-- A thread that is switched in goes on as it was left. -/
theorem switched_resumes (hinv : Inv s) (h : CanSwitch s q) (ret : BitVec 32)
    (hsv : Suspended kernelThread sv q (switched s q ret).cpu.mem) :
    Resumes kernelThread (switched s q ret).cpu.mem (switched s q ret).cpu.ctx sv := by
  rw [(switched_spec kernelThread hinv h ret).2.2]
  exact hsv.resumes

theorem Away.resumes (h : Away kernelThread q s s') (hinv : Inv s) (hq : q ∈ s.threads)
    (hsv : Suspended kernelThread sv q s.cpu.mem) (hs : CanSwitch s' q) (ret : BitVec 32) :
    Resumes kernelThread (switched s' q ret).cpu.mem (switched s' q ret).cpu.ctx sv := by
  obtain ⟨hinv', hq', hne', hsv'⟩ := h.suspended hinv hq hsv
  exact switched_resumes hinv' hs ret ((Step.switch hs ret).suspended hinv' hq' hne'.symm hsv')

/-! ## Main result -/

/-- The state in which threads begin: the main thread runs, on its own page. -/
structure Boot (s : Sys) : Prop where
  page : IsPage s.cur
  alone : s.threads = [s.cur]

theorem Boot.inv (h : Boot s) : Inv s where
  pages q hq := by
    rw [h.alone] at hq
    rw [List.mem_singleton.mp hq]
    exact h.page
  running := by
    rw [h.alone]
    exact List.mem_singleton_self _

/-- **Context switching.**  In every run, a thread that calls `switch_to` and is switched back in
later, or at once, has the registers, the stack pointer and the return address of its call; a thread
that is switched in for the first time enters `kernel_thread` with the function and the argument that
`thread_create` was given. -/
theorem switch_resumes {s₀ : Sys} (hboot : Boot s₀) (kernelThread : BitVec 32) :
    (∀ s₁ s₂ next ret ret', ReflTransGen (Step kernelThread) s₀ s₁ → CanSwitch s₁ next →
      Away kernelThread s₁.cur (switched s₁ next ret) s₂ → CanSwitch s₂ s₁.cur →
      (switched s₂ s₁.cur ret').cpu.ctx = ctxAt s₁ next ret) ∧
    (∀ s₁ ret, ReflTransGen (Step kernelThread) s₀ s₁ → CanSwitch s₁ s₁.cur →
      (switched s₁ s₁.cur ret).cpu.ctx = ctxAt s₁ s₁.cur ret) ∧
    ∀ s₁ s₂ p function funcArg ret, ReflTransGen (Step kernelThread) s₀ s₁ → CanCreate s₁ p →
      Away kernelThread p (created kernelThread s₁ p function funcArg) s₂ → CanSwitch s₂ p →
      (switched s₂ p ret).cpu.eip = kernelThread ∧
        word (switched s₂ p ret).cpu.mem ((switched s₂ p ret).cpu.reg .esp + 4#32) = function ∧
        word (switched s₂ p ret).cpu.mem ((switched s₂ p ret).cpu.reg .esp + 8#32) = funcArg := by
  refine ⟨?_, ?_, ?_⟩
  · intro s₁ s₂ next ret ret' hrun hcall haway hback
    have hinv := run_invariant hrun hboot.inv
    have hsv := (switched_spec kernelThread hinv hcall ret).1
    have hstep : Step kernelThread s₁ (switched s₁ next ret) := Step.switch hcall ret
    exact haway.resumes (hstep.inv hinv) hinv.running hsv hback ret'
  · intro s₁ ret hrun hcall
    have hinv := run_invariant hrun hboot.inv
    have hsv := (switched_spec kernelThread hinv hcall ret).1
    exact switched_resumes hinv hcall ret hsv
  · intro s₁ s₂ p function funcArg ret hrun hnew haway hfirst
    have hinv := run_invariant hrun hboot.inv
    have hsv := (threadCreate_spec hnew.page kernelThread function funcArg s₁.cpu.mem).1
    exact haway.resumes ((Step.create hnew function funcArg).inv hinv) List.mem_cons_self hsv hfirst ret

/-- The main thread on the page that the loader reserves for it. -/
def bootSys : Sys where
  cpu := ⟨fun r => if r = .esp then 0xc009ef00#32 else 0#32, 0xc0001500#32, fun _ => 0#8⟩
  cur := 0xc009e000#32
  threads := [0xc009e000#32]

theorem bootSys_boot : Boot bootSys := ⟨⟨by decide⟩, rfl⟩

/-- Another thread runs for a while and is ready to switch back. -/
theorem exists_away {s : Sys} {p : BitVec 32} (kernelThread ret : BitVec 32) (hinv : Inv s)
    (hcall : CanSwitch s p) (hne : p ≠ s.cur) :
    ∃ w, Away kernelThread s.cur (switched s p ret) w ∧ CanSwitch w s.cur ∧ Inv w ∧ w.cur = p ∧
      w.cpu.mem = (switched s p ret).cpu.mem := by
  have hstep : Step kernelThread s (switched s p ret) := Step.switch hcall ret
  have hinv' : Inv (switched s p ret) := hstep.inv hinv
  have hend := (hinv'.pages _ hinv'.running).end_le
  have hthreads : s.cur ∈ (switched s p ret).threads := hinv.running
  have hcur : (switched s p ret).cur = p := rfl
  obtain ⟨s', hs'⟩ : ∃ s', s' = switched s p ret := ⟨_, rfl⟩
  rw [← hs'] at hinv' hend hthreads hcur ⊢
  rw [hcur] at hend
  have hesp : (p + 3840#32).toNat = p.toNat + 3840 := by bv_omega
  refine ⟨{ s' with cpu := ⟨fun _ => p + 3840#32, 0#32, s'.cpu.mem⟩ }, ⟨hcur ▸ hne, ?_⟩,
    ⟨hthreads, ?_, ?_⟩, ⟨hinv'.pages, hinv'.running⟩, hcur, rfl⟩
  · exact ReflTransGen.single
      ⟨Step.own _ fun _ _ _ => ⟨fun _ _ _ => rfl, fun _ _ _ => rfl⟩, hcur ▸ hne⟩
  · show s'.cur.toNat + pcbSize + 28 ≤ (p + 3840#32).toNat
    rw [hesp, hcur]
    unfold pcbSize
    omega
  · show (p + 3840#32).toNat < s'.cur.toNat + 4096
    rw [hesp, hcur]
    omega

/-- A thread on the page at 0xc0100000 has been created. -/
def bootCreated : Sys := created 0xc0001200#32 bootSys 0xc0100000#32 0xc0001000#32 7#32

theorem bootCreated_switch : CanSwitch bootCreated 0xc0100000#32 :=
  ⟨List.mem_cons_self, by decide, by decide⟩

/-- It is switched in, and later the main thread is switched back in. -/
theorem switch_resumes_first :
    (switched bootCreated 0xc0100000#32 0xc0001600#32).cpu.eip = 0xc0001200#32 ∧
      ∃ s₂, Away 0xc0001200#32 0xc009e000#32 (switched bootCreated 0xc0100000#32 0xc0001600#32) s₂ ∧
        (switched s₂ 0xc009e000#32 0xc0001700#32).cpu.ctx =
          ctxAt bootCreated 0xc0100000#32 0xc0001600#32 := by
  have hcreate : CanCreate bootSys 0xc0100000#32 := ⟨⟨by decide⟩, by decide⟩
  have hrun : ReflTransGen (Step 0xc0001200#32) bootSys bootCreated :=
    ReflTransGen.single (Step.create hcreate 0xc0001000#32 7#32)
  have hinv := run_invariant hrun bootSys_boot.inv
  obtain ⟨hback, -, hfirst⟩ := switch_resumes bootSys_boot 0xc0001200#32
  obtain ⟨w, haway, hcall, -⟩ :=
    exists_away 0xc0001200#32 0xc0001600#32 hinv bootCreated_switch (by decide)
  refine ⟨?_, w, haway, hback bootCreated w 0xc0100000#32 0xc0001600#32 0xc0001700#32 hrun
    bootCreated_switch haway hcall⟩
  exact (hfirst bootSys _ 0xc0100000#32 0xc0001000#32 7#32 0xc0001600#32 ReflTransGen.refl hcreate
    ⟨by decide, ReflTransGen.refl⟩ bootCreated_switch).1

end HcOs.Switch
