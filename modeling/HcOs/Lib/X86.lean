import HcOs.Lib.Bytes
import Mathlib.Logic.Function.Basic

/-!
# A processor in protected mode

The registers, the stack instructions and the two ends of an interrupt: `deliver`, what the
processor does when it goes through an interrupt gate, and `iret`.  A return to an outer level
takes the stack pointer from the stack and clears the data segment registers that the outer level
must not use.

* `pushes_spec`: what a sequence of pushes leaves in memory.
* `slot_eq`: how words that lie on the stack are read back.
-/

namespace HcOs.Lib.X86

/-- The word at an address. -/
def load (m : Bytes) (a : BitVec 32) : BitVec 32 := BitVec.ofNat 32 (m.getWord a.toNat)

def store (m : Bytes) (a v : BitVec 32) : Bytes := m.putWord a.toNat v.toNat

/-- The words from `a` on. -/
def Words (m : Bytes) : ℕ → List (BitVec 32) → Prop
  | _, [] => True
  | a, v :: vs => m.getWord a = v.toNat ∧ Words m (a + 4) vs

section Words

variable {m m' : Bytes} {a : ℕ} {x v : BitVec 32} {vs vs' : List (BitVec 32)}

theorem load_eq (h : m.getWord x.toNat = v.toNat) : load m x = v := by
  unfold load
  rw [h, BitVec.ofNat_toNat, BitVec.setWidth_eq]

theorem load_congr (h : ∀ i, x.toNat ≤ i → i < x.toNat + 4 → m' i = m i) : load m' x = load m x := by
  unfold load
  rw [Bytes.getWord_congr fun k hk => h (x.toNat + k) (by omega) (by omega)]

theorem load_store (m : Bytes) (x v : BitVec 32) : load (store m x v) x = v := by
  apply load_eq
  unfold store
  rw [Bytes.getWord_putWord, Nat.mod_eq_of_lt v.isLt]

theorem store_of_apart {i : ℕ} (h : i < x.toNat ∨ x.toNat + 4 ≤ i) : store m x v i = m i :=
  Bytes.putWord_of_not_mem h

theorem Words.congr (h : Words m a vs) (heq : ∀ i, a ≤ i → i < a + 4 * vs.length → m' i = m i) :
    Words m' a vs := by
  induction vs generalizing a with
  | nil => trivial
  | cons v vs ih =>
    rw [List.length_cons] at heq
    refine ⟨?_, ih h.2 fun i hlo hhi => heq i (by omega) (by omega)⟩
    rw [← h.1]
    exact Bytes.getWord_congr fun k hk => heq _ (by omega) (by omega)

theorem Words.append (h : Words m a vs) (h' : Words m (a + 4 * vs.length) vs') :
    Words m a (vs ++ vs') := by
  induction vs generalizing a with
  | nil => exact h'
  | cons v vs ih =>
    rw [List.length_cons] at h'
    refine ⟨h.1, ih h.2 ?_⟩
    rwa [show a + 4 + 4 * vs.length = a + 4 * (vs.length + 1) by omega]

theorem Words.drop (h : Words m a (vs ++ vs')) : Words m (a + 4 * vs.length) vs' := by
  induction vs generalizing a with
  | nil => exact h
  | cons v vs ih =>
    have hrest := ih h.2
    rwa [List.length_cons, show a + 4 * (vs.length + 1) = a + 4 + 4 * vs.length by omega]

/-- A word that is stored replaces one of the words. -/
theorem Words.set (h : Words m a vs) {i : ℕ} (hx : x.toNat = a + 4 * i) :
    Words (store m x v) a (vs.set i v) := by
  induction vs generalizing a i with
  | nil => trivial
  | cons w vs ih =>
    cases i with
    | zero =>
      refine ⟨?_, h.2.congr fun j hlo hhi => store_of_apart (by omega)⟩
      unfold store
      rw [show a = x.toNat by omega, Bytes.getWord_putWord, Nat.mod_eq_of_lt v.isLt]
    | succ i =>
      refine ⟨?_, ih h.2 (by omega)⟩
      rw [← h.1]
      exact Bytes.getWord_congr fun j hj => store_of_apart (by omega)

theorem Words.nth (h : Words m a vs) (hx : x.toNat = a) {i : ℕ} (hi : i < vs.length)
    (hend : a + 4 * i < 2 ^ 32) : load m (x + BitVec.ofNat 32 (4 * i)) = vs.getD i 0#32 := by
  induction vs generalizing a x i with
  | nil => exact absurd hi (Nat.not_lt_zero i)
  | cons v vs ih =>
    cases i with
    | zero =>
      rw [Nat.mul_zero, BitVec.add_zero, List.getD_cons_zero]
      apply load_eq
      rw [hx]
      exact h.1
    | succ i =>
      have hx' : (x + 4#32).toNat = a + 4 := by bv_omega
      rw [List.length_cons] at hi
      rw [List.getD_cons_succ, ← ih h.2 hx' (by omega) (by omega), BitVec.add_assoc]
      congr 2
      bv_omega

end Words

/-! ## Registers -/

/-- The general registers, in the order of `pushad`. -/
inductive Gpr where
  | eax
  | ecx
  | edx
  | ebx
  | esp
  | ebp
  | esi
  | edi
  deriving DecidableEq, Repr

inductive Seg where
  | cs
  | ss
  | ds
  | es
  | fs
  | gs
  deriving DecidableEq, Repr

structure Cpu where
  gpr : Gpr → BitVec 32
  seg : Seg → BitVec 16
  eip : BitVec 32
  eflags : BitVec 32
  mem : Bytes
  /-- The bytes written to ports, the last one first. -/
  ports : List (BitVec 16 × BitVec 8)

/-- The requested privilege level of a selector. -/
def rpl (sel : BitVec 16) : ℕ := sel.toNat % 4

/-- A selector of the first entry of the descriptor table. -/
def IsNull (sel : BitVec 16) : Prop := sel.toNat < 4

instance (sel : BitVec 16) : Decidable (IsNull sel) := inferInstanceAs (Decidable (_ < _))

namespace Cpu

/-- The current privilege level. -/
def cpl (c : Cpu) : ℕ := rpl (c.seg .cs)

def push (c : Cpu) (v : BitVec 32) : Cpu :=
  { c with
    gpr := Function.update c.gpr .esp (c.gpr .esp - 4#32)
    mem := store c.mem (c.gpr .esp - 4#32) v }

/-- The words are pushed from the first to the last. -/
def pushes (c : Cpu) (vs : List (BitVec 32)) : Cpu := vs.foldl push c

/-- The word `i` places above the top of the stack. -/
def slot (c : Cpu) (i : ℕ) : BitVec 32 := load c.mem (c.gpr .esp + BitVec.ofNat 32 (4 * i))

/-- `call`, with the address to return to. -/
def call (c : Cpu) (target ret : BitVec 32) : Cpu := { c.push ret with eip := target }

/-! ## Interrupts -/

/-- The flags TF, IF, NT, RF and VM, which an interrupt gate clears. -/
def clearedFlags : BitVec 32 := 0x34300#32

/-- An interrupt through a gate to the level 0, with the stack for that level and the error code
of the interrupt, if it has one. -/
def deliver (selector : BitVec 16) (offset : BitVec 32) (ss0 : BitVec 16) (esp0 : BitVec 32)
    (err : Option (BitVec 32)) (c : Cpu) : Cpu :=
  let back := [c.eflags, (c.seg .cs).setWidth 32, c.eip]
  let c' :=
    if c.cpl = 0 then c.pushes back
    else
      { c with
        gpr := Function.update c.gpr .esp esp0
        seg := Function.update c.seg .ss ss0 }.pushes
          ((c.seg .ss).setWidth 32 :: c.gpr .esp :: back)
  let c' := c'.pushes err.toList
  { c' with
    seg := Function.update c'.seg .cs selector
    eip := offset
    eflags := c'.eflags &&& ~~~clearedFlags }

/-- A data segment register after a return to the level `level`; `dpl` gives the privilege level of
the descriptor of a selector. -/
def unload (dpl : BitVec 16 → ℕ) (level : ℕ) (sel : BitVec 16) : BitVec 16 :=
  if IsNull sel then sel else if dpl sel < level then 0#16 else sel

/-- A return whose code selector is accepted.  The processor raises an exception for one that does not
name a code segment. -/
def iret (dpl : BitVec 16 → ℕ) (c : Cpu) : Cpu :=
  let cs := (c.slot 1).setWidth 16
  if c.cpl < rpl cs then
    { c with
      gpr := Function.update c.gpr .esp (c.slot 3)
      seg := fun
        | .cs => cs
        | .ss => (c.slot 4).setWidth 16
        | s => unload dpl (rpl cs) (c.seg s)
      eip := c.slot 0
      eflags := c.slot 2 }
  else
    { c with
      gpr := Function.update c.gpr .esp (c.gpr .esp + 12#32)
      seg := Function.update c.seg .cs cs
      eip := c.slot 0
      eflags := c.slot 2 }

end Cpu

/-! ## Instructions -/

inductive Instr where
  | nop
  | pushImm (v : BitVec 32)
  | pushReg (r : Gpr)
  | pushSeg (s : Seg)
  | popSeg (s : Seg)
  | pushad
  | popad
  | movAl (v : BitVec 8)
  | outAl (port : BitVec 16)
  | addEsp (n : BitVec 32)
  /-- `mov [esp + disp], r` -/
  | movSlot (disp : BitVec 32) (r : Gpr)
  deriving DecidableEq, Repr

def exec (c : Cpu) : Instr → Cpu
  | .nop => c
  | .pushImm v => c.push v
  | .pushReg r => c.push (c.gpr r)
  | .pushSeg s => c.push ((c.seg s).setWidth 32)
  | .popSeg s =>
    { c with
      seg := Function.update c.seg s ((c.slot 0).setWidth 16)
      gpr := Function.update c.gpr .esp (c.gpr .esp + 4#32) }
  | .pushad =>
    c.pushes [c.gpr .eax, c.gpr .ecx, c.gpr .edx, c.gpr .ebx, c.gpr .esp, c.gpr .ebp, c.gpr .esi,
      c.gpr .edi]
  | .popad =>
    { c with
      gpr := fun
        | .edi => c.slot 0
        | .esi => c.slot 1
        | .ebp => c.slot 2
        | .esp => c.gpr .esp + 32#32
        | .ebx => c.slot 4
        | .edx => c.slot 5
        | .ecx => c.slot 6
        | .eax => c.slot 7 }
  | .movAl v =>
    { c with
      gpr := Function.update c.gpr .eax ((c.gpr .eax &&& 0xffffff00#32) ||| v.setWidth 32) }
  | .outAl port => { c with ports := (port, (c.gpr .eax).setWidth 8) :: c.ports }
  | .addEsp n => { c with gpr := Function.update c.gpr .esp (c.gpr .esp + n) }
  | .movSlot disp r => { c with mem := store c.mem (c.gpr .esp + disp) (c.gpr r) }

def run (is : List Instr) (c : Cpu) : Cpu := is.foldl exec c

theorem run_append (is js : List Instr) (c : Cpu) : run (is ++ js) c = run js (run is c) :=
  List.foldl_append

/-! ## Pushes and the words on the stack -/

variable {c : Cpu} {vs : List (BitVec 32)}

namespace Cpu

theorem push_gpr (c : Cpu) (v : BitVec 32) {r : Gpr} (h : r ≠ .esp) :
    (c.push v).gpr r = c.gpr r := Function.update_of_ne h _ _

theorem push_esp (c : Cpu) (v : BitVec 32) : (c.push v).gpr .esp = c.gpr .esp - 4#32 :=
  Function.update_self Gpr.esp _ c.gpr

@[simp] theorem push_seg (c : Cpu) (v : BitVec 32) : (c.push v).seg = c.seg := rfl

theorem pushes_append (c : Cpu) (vs vs' : List (BitVec 32)) :
    c.pushes (vs ++ vs') = (c.pushes vs).pushes vs' := List.foldl_append

theorem pushes_gpr (c : Cpu) (vs : List (BitVec 32)) {r : Gpr} (h : r ≠ .esp) :
    (c.pushes vs).gpr r = c.gpr r := by
  induction vs generalizing c with
  | nil => rfl
  | cons v vs ih => exact (ih (c.push v)).trans (c.push_gpr v h)

@[simp] theorem pushes_seg (c : Cpu) (vs : List (BitVec 32)) : (c.pushes vs).seg = c.seg := by
  induction vs generalizing c with
  | nil => rfl
  | cons v vs ih => exact ih (c.push v)

@[simp] theorem pushes_eip (c : Cpu) (vs : List (BitVec 32)) : (c.pushes vs).eip = c.eip := by
  induction vs generalizing c with
  | nil => rfl
  | cons v vs ih => exact ih (c.push v)

@[simp] theorem pushes_eflags (c : Cpu) (vs : List (BitVec 32)) :
    (c.pushes vs).eflags = c.eflags := by
  induction vs generalizing c with
  | nil => rfl
  | cons v vs ih => exact ih (c.push v)

@[simp] theorem pushes_ports (c : Cpu) (vs : List (BitVec 32)) :
    (c.pushes vs).ports = c.ports := by
  induction vs generalizing c with
  | nil => rfl
  | cons v vs ih => exact ih (c.push v)

/-- What a sequence of pushes leaves, with room for it below the stack pointer. -/
theorem pushes_spec (c : Cpu) (vs : List (BitVec 32)) {a : ℕ}
    (ha : (c.gpr .esp).toNat = a + 4 * vs.length) :
    ((c.pushes vs).gpr .esp).toNat = a ∧ Words (c.pushes vs).mem a vs.reverse ∧
      ∀ i, i < a ∨ a + 4 * vs.length ≤ i → (c.pushes vs).mem i = c.mem i := by
  induction vs generalizing c with
  | nil => exact ⟨ha, trivial, fun _ _ => rfl⟩
  | cons v vs ih =>
    rw [List.length_cons] at ha
    have hesp : (c.gpr .esp - 4#32).toNat = a + 4 * vs.length := by bv_omega
    have hpush : ((c.push v).gpr .esp).toNat = a + 4 * vs.length := by rw [push_esp, hesp]
    obtain ⟨hesp', hwords, hframe⟩ := ih (c.push v) hpush
    refine ⟨hesp', ?_, fun i hi => ?_⟩
    · rw [List.reverse_cons]
      refine hwords.append ⟨?_, trivial⟩
      rw [List.length_reverse]
      have hkept : ((c.push v).pushes vs).mem.getWord (a + 4 * vs.length) =
          (c.push v).mem.getWord (a + 4 * vs.length) :=
        Bytes.getWord_congr fun k hk => hframe _ (by omega)
      refine hkept.trans ?_
      show (c.mem.putWord _ v.toNat).getWord _ = _
      rw [hesp, Bytes.getWord_putWord, Nat.mod_eq_of_lt v.isLt]
    · rw [List.length_cons] at hi
      show ((c.push v).pushes vs).mem i = c.mem i
      rw [hframe i (by omega)]
      exact store_of_apart (by omega)

/-- Pushes depend on the stack only. -/
theorem pushes_congr {c' : Cpu} (hesp : c'.gpr .esp = c.gpr .esp) (hmem : c'.mem = c.mem)
    (vs : List (BitVec 32)) :
    (c'.pushes vs).gpr .esp = (c.pushes vs).gpr .esp ∧ (c'.pushes vs).mem = (c.pushes vs).mem := by
  induction vs generalizing c c' with
  | nil => exact ⟨hesp, hmem⟩
  | cons v vs ih =>
    apply ih
    · rw [push_esp, push_esp, hesp]
    · show store c'.mem _ v = store c.mem _ v
      rw [hmem, hesp]

/-- The words on the stack are read back. -/
theorem slot_eq (h : Words c.mem (c.gpr .esp).toNat vs) {i : ℕ} (hi : i < vs.length)
    (hend : (c.gpr .esp).toNat + 4 * vs.length ≤ 2 ^ 32) : c.slot i = vs.getD i 0#32 :=
  h.nth rfl hi (by omega)

end Cpu

/-- The stack of `c'` is that of `c` with the words pushed. -/
structure Pushed (c : Cpu) (vs : List (BitVec 32)) (c' : Cpu) : Prop where
  esp : c'.gpr .esp = (c.pushes vs).gpr .esp
  mem : c'.mem = (c.pushes vs).mem

namespace Pushed

variable {c' : Cpu}

theorem refl (c : Cpu) : Pushed c [] c := ⟨rfl, rfl⟩

theorem pushes (h : Pushed c vs c') (vs' : List (BitVec 32)) :
    Pushed c (vs ++ vs') (c'.pushes vs') := by
  obtain ⟨hesp, hmem⟩ := Cpu.pushes_congr h.esp h.mem vs'
  exact ⟨by rw [c.pushes_append, hesp], by rw [c.pushes_append, hmem]⟩

/-- Only the stack matters. -/
theorem congr {c'' : Cpu} (h : Pushed c vs c') (hesp : c''.gpr .esp = c'.gpr .esp)
    (hmem : c''.mem = c'.mem) : Pushed c vs c'' :=
  ⟨hesp.trans h.esp, hmem.trans h.mem⟩

end Pushed

end HcOs.Lib.X86
