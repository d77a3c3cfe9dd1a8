import HcOs.Kernel.Interrupt

/-!
# System calls (`userprog/syscall-init.c`, `lib/user/syscall.c`)

The functions of `lib/user/syscall.c` put the number and the arguments into registers and execute
`int $0x80`; `syscall_handler` takes the function from `syscall_table`, which has 32 entries of which
`syscall_init` sets four.

* `call_returns`: each of the four functions reaches its function of the kernel with its argument,
  and gives back its result.
* `any_call`: the number is not compared with the size of the table, so that a program can have the
  kernel call any address.
-/

namespace HcOs.Syscall

open HcOs.Lib HcOs.Lib.X86 HcOs.Entry
open HcOs.Interrupt (entry entry_toNat load_store_of_apart)

/-- `enum SYSCALL_NR`. -/
inductive SyscallNr where
  | sysGetpid
  | sysWrite
  | sysMalloc
  | sysFree
  deriving DecidableEq, Repr

def SyscallNr.number : SyscallNr → ℕ
  | .sysGetpid => 0
  | .sysWrite => 1
  | .sysMalloc => 2
  | .sysFree => 3

/-- `syscall_init`; `f` gives the addresses of the functions. -/
def syscallInit (table : BitVec 32) (f : SyscallNr → BitVec 32) (m : Bytes) : Bytes :=
  let m := store m (entry table SyscallNr.sysGetpid.number) (f .sysGetpid)
  let m := store m (entry table SyscallNr.sysWrite.number) (f .sysWrite)
  let m := store m (entry table SyscallNr.sysMalloc.number) (f .sysMalloc)
  store m (entry table SyscallNr.sysFree.number) (f .sysFree)

/-- The registers that `_syscall0` to `_syscall3` load. -/
def syscallRegs (nr : SyscallNr) (args : List (BitVec 32)) (c : Cpu) : Cpu :=
  let gpr := Function.update c.gpr .eax (BitVec.ofNat 32 nr.number)
  { c with gpr := ([Gpr.ebx, .ecx, .edx].zip args).foldl (fun g p => Function.update g p.1 p.2) gpr }

/-- The calls of the user's functions. -/
inductive Call where
  | getpid
  | write (str : BitVec 32)
  | malloc (size : BitVec 32)
  | free (ptr : BitVec 32)
  deriving DecidableEq

namespace Call

def nr : Call → SyscallNr
  | .getpid => .sysGetpid
  | .write _ => .sysWrite
  | .malloc _ => .sysMalloc
  | .free _ => .sysFree

def args : Call → List (BitVec 32)
  | .getpid => []
  | .write str => [str]
  | .malloc size => [size]
  | .free ptr => [ptr]

/-- Up to the `int $0x80`. -/
def regs (call : Call) (c : Cpu) : Cpu := syscallRegs call.nr call.args c

end Call

/-! ## The table -/

variable {k : Kernel} {top n : ℕ} {c s : Cpu} {m : Bytes} {f : SyscallNr → BitVec 32}

/-- The entry of a function. -/
theorem load_syscallInit {table : BitVec 32} (h : table.toNat + 1024 ≤ 2 ^ 32) (nr : SyscallNr) :
    load (syscallInit table f m) (entry table nr.number) = f nr := by
  have hother : ∀ (nr' : SyscallNr) (m : Bytes), nr ≠ nr' →
      load (store m (entry table nr'.number) (f nr')) (entry table nr.number) =
        load m (entry table nr.number) := by
    intro nr' m hne
    have hnumber : nr.number ≠ nr'.number := by cases nr <;> cases nr' <;> simp_all [SyscallNr.number]
    have hlt : nr.number < 4 ∧ nr'.number < 4 := by
      cases nr <;> cases nr' <;> simp [SyscallNr.number]
    apply load_store_of_apart
    rw [entry_toNat h (by omega), entry_toNat h (by omega)]
    omega
  unfold syscallInit
  dsimp only
  cases nr with
  | sysFree => exact load_store _ _ _
  | sysMalloc => rw [hother .sysFree _ nofun, load_store]
  | sysWrite => rw [hother .sysFree _ nofun, hother .sysMalloc _ nofun, load_store]
  | sysGetpid =>
    rw [hother .sysFree _ nofun, hother .sysMalloc _ nofun, hother .sysWrite _ nofun, load_store]

/-! ## The calls -/

theorem regs_esp (call : Call) (c : Cpu) : (call.regs c).gpr .esp = c.gpr .esp := by
  cases call <;> rfl

theorem regs_eax (call : Call) (c : Cpu) :
    (call.regs c).gpr .eax = BitVec.ofNat 32 call.nr.number := by
  cases call <;> rfl

theorem regs_base (k : Kernel) (call : Call) (c : Cpu) :
    (k.base (call.regs c)).gpr .esp = (k.base c).gpr .esp := by
  have hcpl : (call.regs c).cpl = c.cpl := rfl
  unfold Kernel.base
  rw [hcpl]
  split_ifs
  · exact regs_esp call c
  · simp only [Function.update_self]

theorem regs_arrives (call : Call) (h : Arrives k top c) : Arrives k top (call.regs c) where
  data := h.data
  top := by
    rw [regs_esp]
    exact h.top
  room := by
    rw [regs_base]
    exact h.room

/-- The arguments are in the registers in which `syscall_handler` looks for them. -/
theorem regs_args (call : Call) (c : Cpu) {i : ℕ} (hi : i < call.args.length) :
    [(call.regs c).gpr .ebx, (call.regs c).gpr .ecx, (call.regs c).gpr .edx].getD i 0#32 =
      call.args.getD i 0#32 := by
  cases call with
  | getpid => exact absurd hi (Nat.not_lt_zero i)
  | write str => rw [Nat.lt_one_iff.mp hi]; rfl
  | malloc size => rw [Nat.lt_one_iff.mp hi]; rfl
  | free ptr => rw [Nat.lt_one_iff.mp hi]; rfl

theorem syscallTable_add (k : Kernel) (nr : SyscallNr) :
    k.syscallTable + BitVec.ofNat 32 nr.number * 4#32 = entry k.syscallTable nr.number := by
  cases nr <;> rfl

/-- **The functions of the user's library.**  In a kernel that `syscall_init` has set up, each of
them calls its function of the kernel, on the level 0 and with its argument; when that function
returns, its result is in `eax`, and the program has all other registers as at the `int $0x80`. -/
theorem call_returns (k : Kernel) (top n : ℕ) (f : SyscallNr → BitVec 32) (m : Bytes) (call : Call)
    (c s : Cpu) (harr : Arrives k top c) (hfit : k.syscallTable.toNat + 1024 ≤ 2 ^ 32)
    (htable : k.syscallTable.toNat + 16 + 96 ≤ ((k.base c).gpr .esp).toNat ∨
      ((k.base c).gpr .esp).toNat ≤ k.syscallTable.toNat)
    (hmem : ∀ i, k.syscallTable.toNat ≤ i → i < k.syscallTable.toNat + 16 →
      c.mem i = syscallInit k.syscallTable f m i)
    (hserve : Serves k top (Trap k top n) .syscall (call.regs c) s)
    (hret : Returned (k.enter .syscall (call.regs c)) s) :
    (k.enter .syscall (call.regs c)).eip = f call.nr ∧
      (k.enter .syscall (call.regs c)).cpl = 0 ∧
      (∀ i < call.args.length,
        (k.enter .syscall (call.regs c)).slot (i + 1) = call.args.getD i 0#32) ∧
      (k.leave .syscall s).gpr = Function.update (call.regs c).gpr .eax (s.gpr .eax) ∧
      (k.leave .syscall s).seg = c.seg ∧ (k.leave .syscall s).eip = c.eip ∧
      (k.leave .syscall s).eflags = c.eflags := by
  have hnumber : call.nr.number < 4 := by
    cases call <;> simp [Call.nr, SyscallNr.number]
  have hentry : (entry k.syscallTable call.nr.number).toNat =
      k.syscallTable.toNat + 4 * call.nr.number := entry_toNat hfit (by omega)
  have haddr : k.syscallTable + (call.regs c).gpr .eax * 4#32 =
      entry k.syscallTable call.nr.number := by
    rw [regs_eax, syscallTable_add]
  obtain ⟨htarget, hebx, hecx, hedx, hgpr, hseg, heip, heflags⟩ :=
    syscall_returns k top n (call.regs c) s (regs_arrives call harr)
      (by rw [haddr, hentry, regs_base]; omega) hserve hret
  obtain ⟨dummy, a, hent⟩ := enter_syscall (c := call.regs c) k (regs_arrives call harr).room
  refine ⟨?_, hent.cpl, fun i hi => ?_, hgpr, hseg, heip, heflags⟩
  · rw [htarget, haddr, ← load_syscallInit (f := f) (m := m) hfit call.nr]
    exact load_congr fun i hlo hhi => hmem i (by omega) (by omega)
  · rw [← regs_args call c hi, ← hebx, ← hecx, ← hedx]
    have hlen : call.args.length ≤ 3 := by cases call <;> simp [Call.args]
    match i, Nat.lt_of_lt_of_le hi hlen with
    | 0, _ => rfl
    | 1, _ => rfl
    | 2, _ => rfl

/-- A call of `write`. -/
theorem call_returns_write :
    ∃ c : Cpu, (sampleKernel.enter .syscall ((Call.write 0x08049000#32).regs c)).eip = 0xc0001000#32 ∧
      (sampleKernel.enter .syscall ((Call.write 0x08049000#32).regs c)).slot 1 = 0x08049000#32 := by
  have hcall := call_returns sampleKernel 0xc0101000 0 (fun _ => 0xc0001000#32) (fun _ => 0#8)
    (.write 0x08049000#32)
    { sampleProgram with
      mem := syscallInit sampleKernel.syscallTable (fun _ => 0xc0001000#32) fun _ => 0#8 }
    _ ⟨sampleProgram_arrives.data, sampleProgram_arrives.top, sampleProgram_arrives.room⟩
    (by decide) (Or.inl (by decide)) (fun _ _ _ => rfl) (serves_ret _ _ _ _ _) (returned_ret _)
  exact ⟨_, hcall.1, hcall.2.2.1 0 Nat.one_pos⟩

/-! ## Other numbers -/

/-- **Any function of the kernel, and any other address.**  `syscall_handler` multiplies the number
by four and adds the address of the table, without regard to the size of the table.  So for every
word in memory at the right distance from it, also in the memory of the program itself, there is a
number for which the kernel calls the address that the word holds, on the level 0 and with three
arguments from the program. -/
theorem any_call (k : Kernel) (top : ℕ) (c : Cpu) (harr : Arrives k top c) (x : BitVec 32)
    (hx : x.toNat % 4 = k.syscallTable.toNat % 4)
    (hapart : x.toNat + 4 + 96 ≤ ((k.base c).gpr .esp).toNat ∨
      ((k.base c).gpr .esp).toNat ≤ x.toNat) :
    ∃ eax, (k.enter .syscall (withEax c eax)).eip = load c.mem x ∧
      (k.enter .syscall (withEax c eax)).cpl = 0 ∧
      (k.enter .syscall (withEax c eax)).slot 1 = c.gpr .ebx ∧
      (k.enter .syscall (withEax c eax)).slot 2 = c.gpr .ecx ∧
      (k.enter .syscall (withEax c eax)).slot 3 = c.gpr .edx := by
  refine ⟨BitVec.ofNat 32 ((x - k.syscallTable).toNat / 4), ?_⟩
  generalize heax : BitVec.ofNat 32 ((x - k.syscallTable).toNat / 4) = eax
  obtain ⟨hbase, -⟩ := base_withEax k c eax
  have haddr : k.syscallTable + (withEax c eax).gpr .eax * 4#32 = x := by
    have hval : (withEax c eax).gpr .eax = eax := by simp [withEax]
    rw [hval, ← heax]
    apply BitVec.eq_of_toNat_eq
    have hlt := (x - k.syscallTable).isLt
    have hsub := BitVec.toNat_sub x k.syscallTable
    have hx' := x.isLt
    have ht := k.syscallTable.isLt
    rw [BitVec.toNat_add, BitVec.toNat_mul, BitVec.toNat_ofNat, BitVec.toNat_ofNat]
    omega
  obtain ⟨dummy, a, hent⟩ := enter_syscall (c := withEax c eax) k (by rw [hbase]; exact harr.room)
  have hend := ((k.base (withEax c eax)).gpr .esp).isLt
  have htop := hent.top
  have hlen := syscallWords_length k dummy (withEax c eax)
  have hslot : ∀ i, i < 4 → (k.enter .syscall (withEax c eax)).slot i =
      (syscallWords k dummy (withEax c eax)).getD i 0#32 := by
    intro i hi
    have hwords := hent.words
    rw [← hent.esp] at hwords htop
    exact Cpu.slot_eq hwords (by omega) (by omega)
  have htarget := syscall_target hent (by rw [haddr, hbase]; rw [hbase] at htop; omega)
  rw [haddr] at htarget
  exact ⟨htarget, hent.cpl, hslot 1 (by omega), hslot 2 (by omega), hslot 3 (by omega)⟩

/-- The program has put the address 0x08048100 into its own memory. -/
theorem any_call_user :
    ∃ c : Cpu, c.cpl = 3 ∧ ∃ eax, (sampleKernel.enter .syscall (withEax c eax)).eip = 0x08048100#32 ∧
      (sampleKernel.enter .syscall (withEax c eax)).cpl = 0 := by
  obtain ⟨eax, heip, hcpl, -⟩ := any_call sampleKernel 0xc0101000
    { sampleProgram with mem := store (fun _ => 0#8) 0x08049000#32 0x08048100#32 }
    ⟨sampleProgram_arrives.data, sampleProgram_arrives.top, sampleProgram_arrives.room⟩
    0x08049000#32 (by decide) (Or.inl (by decide))
  exact ⟨_, rfl, eax, heip.trans (load_store _ _ _), hcpl⟩

end HcOs.Syscall
