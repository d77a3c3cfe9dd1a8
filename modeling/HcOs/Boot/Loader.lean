import HcOs.Lib.Bytes

/-!
# Loading the kernel (`boot/loader.S`)

`kernel_init` walks the program headers of the image at `KERNEL_BIN_BASE_ADDR` and copies the file
bytes of each segment to its address.  It runs with paging on: the first megabyte is at 0 and at
`0xc0000000`, so memory is physical here and every access goes through `phys`.  The stack is in the
same memory; `mem_cpy` takes its arguments, the saved registers and its return address from there.
So is the loader itself: a copy onto the code that makes it is not followed further (`putByte`).

The only test of a header is on the low byte of its type: every header that is not `PT_NULL` is
copied, loadable or not, and nothing is ever cleared.  `loaded` is the memory after the first
headers, the later copy on top of the earlier ones; `kernelInit_eq` says that this is what the
routine leaves outside its stack.
-/

namespace HcOs.Loader

open HcOs.Lib

def kernelBinBaseAddr : ℕ := 0x70000

/-! ## Memory -/

/-- The pages that `setup_page` maps: the first megabyte, twice. -/
def phys (a : ℕ) : Option ℕ :=
  if a < 0x100000 then some a
  else if 0xc0000000 ≤ a ∧ a < 0xc0100000 then some (a - 0xc0000000)
  else none

def getByte (mem : Bytes) (a : ℕ) : Option (BitVec 8) := (phys a).map mem

/-- The loader, in the four sectors that the boot sector has read to `LOADER_BASE_ADDR`. -/
def Code (p : ℕ) : Prop := 0x900 ≤ p ∧ p < 0x1100

instance (p : ℕ) : Decidable (Code p) := inferInstanceAs (Decidable (_ ∧ _))

/-- A store.  What the routines do after one into their own code is left open. -/
def putByte (mem : Bytes) (a : ℕ) (v : BitVec 8) : Option Bytes := do
  let p ← phys a
  if Code p then none else some (Function.update mem p v)

/-- The 16 bits at a physical address. -/
def half (mem : Bytes) (p : ℕ) : ℕ := (mem p).toNat + 2 ^ 8 * (mem (p + 1)).toNat

def getHalf (mem : Bytes) (a : ℕ) : Option ℕ := do
  let p ← phys a
  let _ ← phys (a + 1)
  some (half mem p)

def getDword (mem : Bytes) (a : ℕ) : Option ℕ := do
  let p ← phys a
  let _ ← phys (a + 3)
  some (mem.getWord p)

/-- The memory and the registers that are live across `mem_cpy`. -/
structure Cpu where
  mem : Bytes
  esp : ℕ
  ebp : ℕ
  ecx : ℕ

namespace Cpu

def push (s : Cpu) (w : ℕ) : Option Cpu := do
  let esp := s.esp - 4
  let p ← phys esp
  let _ ← phys (esp + 3)
  some { s with mem := s.mem.putWord p w, esp }

def pop (s : Cpu) : Option (ℕ × Cpu) := do
  let w ← getDword s.mem s.esp
  some (w, { s with esp := s.esp + 4 })

end Cpu

/-! ## The routines -/

/-- `rep movsb`. -/
def repMovsb : ℕ → Bytes → ℕ → ℕ → Option Bytes
  | 0, mem, _, _ => some mem
  | ecx + 1, mem, esi, edi => do
    let v ← getByte mem esi
    let mem ← putByte mem edi v
    repMovsb ecx mem ((esi + 1) % 2 ^ 32) ((edi + 1) % 2 ^ 32)

/-- `call mem_cpy`, with the return address `eip`. -/
def memCpy (s : Cpu) (eip : ℕ) : Option Cpu := do
  let s ← s.push eip
  let s ← s.push s.ebp
  let s := { s with ebp := s.esp }
  let s ← s.push s.ecx
  let edi ← getDword s.mem (s.ebp + 8)
  let esi ← getDword s.mem (s.ebp + 12)
  let ecx ← getDword s.mem (s.ebp + 16)
  let mem ← repMovsb ecx s.mem esi edi
  let (ecx, s) ← { s with mem }.pop
  let (ebp, s) ← s.pop
  let (ret, s) ← s.pop
  if ret = eip then some { s with ebp, ecx } else none

/-- A header that is not `PT_NULL`. -/
def copySegment (s : Cpu) (eip ebx : ℕ) : Option Cpu := do
  let pFilesz ← getDword s.mem (ebx + 16)
  let s ← s.push pFilesz
  let pOffset ← getDword s.mem (ebx + 4)
  let s ← s.push ((pOffset + kernelBinBaseAddr) % 2 ^ 32)
  let pVaddr ← getDword s.mem (ebx + 8)
  let s ← s.push pVaddr
  let s ← memCpy s eip
  some { s with esp := s.esp + 12 }

/-- The body of the loop, up to `.PTNULL`. -/
def segment (s : Cpu) (eip ebx : ℕ) : Option Cpu := do
  let pType ← getByte s.mem ebx
  if pType = 0#8 then some s else copySegment s eip ebx

/-- The loop `.each_segment`. -/
def eachSegment (eip edx : ℕ) : ℕ → Cpu → ℕ → Option Cpu
  | 0, _, _ => none
  | fuel + 1, s, ebx => do
    let s ← segment s eip ebx
    let ebx := (ebx + edx) % 2 ^ 32
    -- `loop`
    let s := { s with ecx := (s.ecx + 2 ^ 32 - 1) % 2 ^ 32 }
    if s.ecx ≠ 0 then eachSegment eip edx fuel s ebx else some s

/-- `call kernel_init`, with the return addresses of its call and of the call of `mem_cpy`. -/
def kernelInit (mem : Bytes) (ebp ret eip : BitVec 32) : Option Bytes := do
  let s ← Cpu.push ⟨mem, 0xc0000900, ebp.toNat, 0⟩ ret.toNat
  let edx ← getHalf s.mem (kernelBinBaseAddr + 42)
  let ebx ← getDword s.mem (kernelBinBaseAddr + 28)
  let ebx := (ebx + kernelBinBaseAddr) % 2 ^ 32
  let ecx ← getHalf s.mem (kernelBinBaseAddr + 44)
  let s ← eachSegment eip.toNat edx (2 ^ 32) { s with ecx } ebx
  let (w, s) ← s.pop
  if w = ret.toNat then some s.mem else none

/-! ## Images -/

/-- The fields of a program header. -/
structure Phdr where
  pType : ℕ
  pOffset : ℕ
  pVaddr : ℕ
  pFilesz : ℕ
  pMemsz : ℕ

def ePhoff (mem : Bytes) : ℕ := mem.getWord (kernelBinBaseAddr + 28)

def ePhentsize (mem : Bytes) : ℕ := half mem (kernelBinBaseAddr + 42)

def ePhnum (mem : Bytes) : ℕ := half mem (kernelBinBaseAddr + 44)

/-- Where the program header `i` is. -/
def phAddr (mem : Bytes) (i : ℕ) : ℕ := kernelBinBaseAddr + ePhoff mem + i * ePhentsize mem

def phdr (mem : Bytes) (i : ℕ) : Phdr where
  pType := mem.getWord (phAddr mem i)
  pOffset := mem.getWord (phAddr mem i + 4)
  pVaddr := mem.getWord (phAddr mem i + 8)
  pFilesz := mem.getWord (phAddr mem i + 16)
  pMemsz := mem.getWord (phAddr mem i + 20)

/-- The place of an address of the mapped megabyte. -/
def place (a : ℕ) : ℕ := if 0xc0000000 ≤ a then a - 0xc0000000 else a

/-- The `n` bytes from `a` on are mapped. -/
def Mapped (a n : ℕ) : Prop :=
  n = 0 ∨ a + n ≤ 0x100000 ∨ 0xc0000000 ≤ a ∧ a + n ≤ 0xc0100000

instance (a n : ℕ) : Decidable (Mapped a n) := inferInstanceAs (Decidable (_ ∨ _ ∨ _ ∧ _))

/-- The `n` bytes from `p` on and the `m` bytes from `q` on have none in common. -/
def Apart (p n q m : ℕ) : Prop := n = 0 ∨ m = 0 ∨ p + n ≤ q ∨ q + m ≤ p

instance (p n q m : ℕ) : Decidable (Apart p n q m) := inferInstanceAs (Decidable (_ ∨ _ ∨ _ ∨ _))

namespace Phdr

/-- `PT_LOAD`. -/
def IsLoad (h : Phdr) : Prop := h.pType = 1

/-- The header passes the test of `.each_segment`. -/
def IsCopied (h : Phdr) : Prop := h.pType % 2 ^ 8 ≠ 0

/-- The byte is among those that the copy of the header writes. -/
def Covers (h : Phdr) (x : ℕ) : Prop := place h.pVaddr ≤ x ∧ x < place h.pVaddr + h.pFilesz

instance (h : Phdr) : Decidable h.IsLoad := inferInstanceAs (Decidable (_ = _))

instance (h : Phdr) : Decidable h.IsCopied := inferInstanceAs (Decidable (_ ≠ _))

instance (h : Phdr) (x : ℕ) : Decidable (h.Covers x) := inferInstanceAs (Decidable (_ ∧ _))

end Phdr

/-- An ELF image of `size` bytes, in the first megabyte. -/
structure IsImage (mem : Bytes) (size : ℕ) : Prop where
  phnum : 1 ≤ ePhnum mem
  inMemory : kernelBinBaseAddr + size ≤ 0x100000
  header : 52 ≤ size
  table : ∀ i < ePhnum mem, ePhoff mem + i * ePhentsize mem + 32 ≤ size
  file : ∀ i < ePhnum mem, (phdr mem i).IsCopied →
    (phdr mem i).pOffset + (phdr mem i).pFilesz ≤ size

/-- The loadable segments: their target ranges are mapped and meet neither each other nor the
image. -/
structure Loadable (mem : Bytes) (size : ℕ) : Prop where
  filesz : ∀ i < ePhnum mem, (phdr mem i).IsLoad → (phdr mem i).pFilesz ≤ (phdr mem i).pMemsz
  mapped : ∀ i < ePhnum mem, (phdr mem i).IsLoad → Mapped (phdr mem i).pVaddr (phdr mem i).pMemsz
  disjoint : ∀ i < ePhnum mem, ∀ j < ePhnum mem, i ≠ j → (phdr mem i).IsLoad →
    (phdr mem j).IsLoad → Apart (place (phdr mem i).pVaddr) (phdr mem i).pMemsz
      (place (phdr mem j).pVaddr) (phdr mem j).pMemsz
  image : ∀ i < ePhnum mem, (phdr mem i).IsLoad →
    Apart (place (phdr mem i).pVaddr) (phdr mem i).pMemsz kernelBinBaseAddr size

/-- The part of the stack that `kernel_init` uses. -/
def Stack (x : ℕ) : Prop := 0x8e4 ≤ x ∧ x < 0x900

/-- What is copied goes to mapped memory, and neither into the image nor into the stack, nor into
the loader. -/
structure Clear (mem : Bytes) (size : ℕ) : Prop where
  mapped : ∀ i < ePhnum mem, (phdr mem i).IsCopied →
    Mapped (phdr mem i).pVaddr (phdr mem i).pFilesz
  image : ∀ i < ePhnum mem, (phdr mem i).IsCopied →
    Apart (place (phdr mem i).pVaddr) (phdr mem i).pFilesz kernelBinBaseAddr size
  stack : ∀ i < ePhnum mem, (phdr mem i).IsCopied →
    Apart (place (phdr mem i).pVaddr) (phdr mem i).pFilesz 0x8e4 28
  code : ∀ i < ePhnum mem, (phdr mem i).IsCopied →
    Apart (place (phdr mem i).pVaddr) (phdr mem i).pFilesz 0x900 0x800

/-- The memory after the first `i` headers, the stack apart. -/
def loaded (mem : Bytes) : ℕ → Bytes
  | 0 => mem
  | i + 1 =>
    if (phdr mem i).IsCopied then
      (loaded mem i).copy (place (phdr mem i).pVaddr) mem
        (kernelBinBaseAddr + (phdr mem i).pOffset) (phdr mem i).pFilesz
    else loaded mem i

/-! ## Mapped addresses -/

variable {mem m : Bytes} {a n p k size esi edi : ℕ}

theorem half_lt (mem : Bytes) (p : ℕ) : half mem p < 2 ^ 16 := by
  have hlow := (mem p).isLt
  have hhigh := (mem (p + 1)).isLt
  unfold half
  omega

theorem phys_low (h : a < 0x100000) : phys a = some a := if_pos h

theorem phys_high (h : p < 0x100000) : phys (0xc0000000 + p) = some p := by
  unfold phys
  rw [if_neg (by omega), if_pos ⟨by omega, by omega⟩, Nat.add_sub_cancel_left]

theorem Mapped.phys (h : Mapped a n) (hk : k < n) : phys (a + k) = some (place a + k) := by
  unfold place
  rcases h with rfl | hlow | ⟨hlo, hhi⟩
  · omega
  · rw [if_neg (by omega), phys_low (by omega)]
  · rw [if_pos hlo, show a + k = 0xc0000000 + (a - 0xc0000000 + k) by omega, phys_high (by omega)]

theorem Mapped.lt (h : Mapped a n) (hn : n ≠ 0) : a + n < 2 ^ 32 := by
  unfold Mapped at h
  omega

theorem getDword_low (h : a + 4 ≤ 0x100000) : getDword mem a = some (mem.getWord a) := by
  rw [getDword, phys_low (by omega), phys_low (by omega)]
  rfl

theorem getDword_high (h : p + 4 ≤ 0x100000) :
    getDword mem (0xc0000000 + p) = some (mem.getWord p) := by
  rw [getDword, phys_high (by omega), Nat.add_assoc, phys_high (by omega)]
  rfl

theorem getHalf_low (h : a + 2 ≤ 0x100000) : getHalf mem a = some (half mem a) := by
  rw [getHalf, phys_low (by omega), phys_low (by omega)]
  rfl

theorem putByte_eq (mem : Bytes) {p : ℕ} (v : BitVec 8) (hp : phys a = some p) (hcode : ¬Code p) :
    putByte mem a v = some (Function.update mem p v) := by
  unfold putByte
  rw [hp]
  exact if_neg hcode

theorem push_eq (mem : Bytes) {p : ℕ} (ebp ecx w : ℕ) (h : p + 4 ≤ 0x100000) :
    Cpu.push ⟨mem, 0xc0000000 + (p + 4), ebp, ecx⟩ w =
      some ⟨mem.putWord p w, 0xc0000000 + p, ebp, ecx⟩ := by
  have hesp : 0xc0000000 + (p + 4) - 4 = 0xc0000000 + p := by omega
  rw [Cpu.push]
  dsimp only
  rw [hesp, phys_high (by omega), Nat.add_assoc, phys_high (by omega)]
  rfl

theorem pop_eq (mem : Bytes) {p : ℕ} (ebp ecx : ℕ) (h : p + 4 ≤ 0x100000) :
    Cpu.pop ⟨mem, 0xc0000000 + p, ebp, ecx⟩ =
      some (mem.getWord p, ⟨mem, 0xc0000000 + (p + 4), ebp, ecx⟩) := by
  rw [Cpu.pop, getDword_high h]
  rfl

/-! ## The copy -/

/-- `rep movsb` between places that do not meet. -/
theorem repMovsb_eq {p q : ℕ} (hsrc : ∀ k < n, phys (esi + k) = some (p + k))
    (hdst : ∀ k < n, phys (edi + k) = some (q + k)) (hesi : n ≠ 0 → esi + n < 2 ^ 32)
    (hedi : n ≠ 0 → edi + n < 2 ^ 32) (happ : Apart q n p n) (hcode : Apart q n 0x900 0x800) :
    repMovsb n mem esi edi = some (mem.copy q mem p n) := by
  induction n generalizing mem esi edi p q with
  | zero => rw [repMovsb, Bytes.copy_zero]
  | succ n ih =>
    have hesi' := hesi (Nat.succ_ne_zero n)
    have hedi' := hedi (Nat.succ_ne_zero n)
    have hstep : repMovsb (n + 1) mem esi edi =
        repMovsb n (mem.copy q mem p 1) ((esi + 1) % 2 ^ 32) ((edi + 1) % 2 ^ 32) := by
      have hp : phys esi = some p := hsrc 0 (Nat.succ_pos n)
      have hq : phys edi = some q := hdst 0 (Nat.succ_pos n)
      have hnot : ¬Code q := by
        unfold Apart at hcode
        unfold Code
        omega
      rw [repMovsb, getByte, hp, Bytes.copy_one]
      exact congrArg (Option.bind · _) (putByte_eq mem (mem p) hq hnot)
    have hsrc' : ∀ k < n, phys (esi + 1 + k) = some (p + 1 + k) := fun k hk => by
      rw [Nat.add_assoc, hsrc (1 + k) (by omega), Nat.add_assoc]
    have hdst' : ∀ k < n, phys (edi + 1 + k) = some (q + 1 + k) := fun k hk => by
      rw [Nat.add_assoc, hdst (1 + k) (by omega), Nat.add_assoc]
    have happ' : Apart (q + 1) n (p + 1) n := by
      unfold Apart at happ ⊢
      omega
    have hcode' : Apart (q + 1) n 0x900 0x800 := by
      unfold Apart at hcode ⊢
      omega
    rw [hstep, Nat.mod_eq_of_lt (by omega), Nat.mod_eq_of_lt (by omega),
      ih hsrc' hdst' (fun _ => by omega) (fun _ => by omega) happ' hcode']
    -- the byte that was just written is not read again
    have hread : ∀ i, p + 1 ≤ i → i < p + 1 + n → mem.copy q mem p 1 i = mem i := by
      intro i hlo hhi
      unfold Apart at happ
      exact Bytes.copy_of_not_mem (by omega)
    rw [Bytes.copy_congr hread, Bytes.copy_append, Nat.add_comm 1 n]

/-- The stack when `mem_cpy` copies. -/
def frame (mem : Bytes) (eip ebp ecx : ℕ) : Bytes :=
  ((mem.putWord 0x8ec eip).putWord 0x8e8 ebp).putWord 0x8e4 ecx

theorem frame_getWord (mem : Bytes) (eip ebp ecx : ℕ) (ha : 0x8f0 ≤ a) :
    (frame mem eip ebp ecx).getWord a = mem.getWord a := by
  unfold frame
  rw [Bytes.getWord_putWord_of_apart (by omega), Bytes.getWord_putWord_of_apart (by omega),
    Bytes.getWord_putWord_of_apart (by omega)]

theorem frame_saved (mem : Bytes) {eip ebp ecx : ℕ} (heip : eip < 2 ^ 32) (hebp : ebp < 2 ^ 32)
    (hecx : ecx < 2 ^ 32) : (frame mem eip ebp ecx).getWord 0x8e4 = ecx ∧
      (frame mem eip ebp ecx).getWord 0x8e8 = ebp ∧
      (frame mem eip ebp ecx).getWord 0x8ec = eip := by
  unfold frame
  refine ⟨?_, ?_, ?_⟩
  · rw [Bytes.getWord_putWord, Nat.mod_eq_of_lt hecx]
  · rw [Bytes.getWord_putWord_of_apart (by omega), Bytes.getWord_putWord, Nat.mod_eq_of_lt hebp]
  · rw [Bytes.getWord_putWord_of_apart (by omega), Bytes.getWord_putWord_of_apart (by omega),
      Bytes.getWord_putWord, Nat.mod_eq_of_lt heip]

/-- A copy that does not meet the stack. -/
theorem getWord_copy_stack {src : Bytes} {q p : ℕ} (h : Apart q n 0x8e4 28) (hlo : 0x8e4 ≤ a)
    (hhi : a + 4 ≤ 0x900) : (mem.copy q src p n).getWord a = mem.getWord a := by
  rcases Nat.eq_zero_or_pos n with rfl | hpos
  · rw [Bytes.copy_zero]
  · unfold Apart at h
    exact Bytes.getWord_copy_of_apart (by omega)

/-- `mem_cpy`, called with its three arguments on the stack. -/
theorem memCpy_eq {mem : Bytes} {eip ebp ecx dst src n p q : ℕ} (heip : eip < 2 ^ 32)
    (hebp : ebp < 2 ^ 32) (hecx : ecx < 2 ^ 32) (hdst : mem.getWord 0x8f0 = dst)
    (hsrc : mem.getWord 0x8f4 = src) (hn : mem.getWord 0x8f8 = n)
    (hcopy : repMovsb n (frame mem eip ebp ecx) src dst =
      some ((frame mem eip ebp ecx).copy q (frame mem eip ebp ecx) p n))
    (hstack : Apart q n 0x8e4 28) :
    memCpy ⟨mem, 0xc0000000 + 0x8f0, ebp, ecx⟩ eip =
      some ⟨(frame mem eip ebp ecx).copy q (frame mem eip ebp ecx) p n, 0xc0000000 + 0x8f0, ebp,
        ecx⟩ := by
  obtain ⟨hsaved₁, hsaved₂, hsaved₃⟩ := frame_saved mem heip hebp hecx
  rw [← @getWord_copy_stack (frame mem eip ebp ecx) _ n (frame mem eip ebp ecx) q p hstack
    (by omega) (by omega)] at hsaved₁ hsaved₂ hsaved₃
  rw [← frame_getWord mem eip ebp ecx (by omega)] at hdst hsrc hn
  have hpush₁ := push_eq mem (p := 0x8ec) ebp ecx eip (by omega)
  have hpush₂ := push_eq (mem.putWord 0x8ec eip) (p := 0x8e8) ebp ecx ebp (by omega)
  have hpush₃ := push_eq ((mem.putWord 0x8ec eip).putWord 0x8e8 ebp) (p := 0x8e4)
    (0xc0000000 + 0x8e8) ecx ecx (by omega)
  have hedi := @getDword_high (frame mem eip ebp ecx) 0x8f0 (by omega)
  have hesi := @getDword_high (frame mem eip ebp ecx) 0x8f4 (by omega)
  have hlen := @getDword_high (frame mem eip ebp ecx) 0x8f8 (by omega)
  rw [hdst] at hedi
  rw [hsrc] at hesi
  rw [hn] at hlen
  have hpop₁ := pop_eq ((frame mem eip ebp ecx).copy q (frame mem eip ebp ecx) p n) (p := 0x8e4)
    (0xc0000000 + 0x8e8) ecx (by omega)
  have hpop₂ := pop_eq ((frame mem eip ebp ecx).copy q (frame mem eip ebp ecx) p n) (p := 0x8e8)
    (0xc0000000 + 0x8e8) ecx (by omega)
  have hpop₃ := pop_eq ((frame mem eip ebp ecx).copy q (frame mem eip ebp ecx) p n) (p := 0x8ec)
    (0xc0000000 + 0x8e8) ecx (by omega)
  rw [hsaved₁] at hpop₁
  rw [hsaved₂] at hpop₂
  rw [hsaved₃] at hpop₃
  simp only [Nat.reduceAdd] at hpush₁ hpush₂ hpush₃ hedi hesi hlen hpop₁ hpop₂ hpop₃ ⊢
  have hframe : ((mem.putWord 0x8ec eip).putWord 0x8e8 ebp).putWord 0x8e4 ecx =
    frame mem eip ebp ecx := rfl
  simp only [memCpy, Option.bind_eq_bind, hpush₁, Option.bind_some, hpush₂, hpush₃, hframe,
    Nat.reduceAdd, hedi, hesi, hlen, hcopy, hpop₁, hpop₂, hpop₃, if_true]

/-- The arguments of `mem_cpy` on the stack. -/
def args (mem : Bytes) (pFilesz src pVaddr : ℕ) : Bytes :=
  ((mem.putWord 0x8f8 pFilesz).putWord 0x8f4 src).putWord 0x8f0 pVaddr

theorem frame_args_of_not_stack {eip ebp ecx f o v x : ℕ} (hx : ¬Stack x) :
    frame (args mem f o v) eip ebp ecx x = mem x := by
  unfold Stack at hx
  unfold frame args
  rw [Bytes.putWord_of_not_mem (by omega), Bytes.putWord_of_not_mem (by omega),
    Bytes.putWord_of_not_mem (by omega), Bytes.putWord_of_not_mem (by omega),
    Bytes.putWord_of_not_mem (by omega), Bytes.putWord_of_not_mem (by omega)]

theorem args_getWord (mem : Bytes) {f src v : ℕ} (hf : f < 2 ^ 32) (hsrc : src < 2 ^ 32)
    (hv : v < 2 ^ 32) : (args mem f src v).getWord 0x8f0 = v ∧
      (args mem f src v).getWord 0x8f4 = src ∧ (args mem f src v).getWord 0x8f8 = f := by
  unfold args
  refine ⟨?_, ?_, ?_⟩
  · rw [Bytes.getWord_putWord, Nat.mod_eq_of_lt hv]
  · rw [Bytes.getWord_putWord_of_apart (by omega), Bytes.getWord_putWord, Nat.mod_eq_of_lt hsrc]
  · rw [Bytes.getWord_putWord_of_apart (by omega), Bytes.getWord_putWord_of_apart (by omega),
      Bytes.getWord_putWord, Nat.mod_eq_of_lt hf]

/-- The memory that a copied header leaves, the stack included. -/
def copied (mem : Bytes) (eip ebp ecx f src v : ℕ) : Bytes :=
  (frame (args mem f src v) eip ebp ecx).copy (place v) (frame (args mem f src v) eip ebp ecx) src f

section Copied

variable {eip ebp ecx f src v : ℕ}

theorem copied_of_not_stack {x : ℕ} (hsrc : 0x900 ≤ src) (hx : ¬Stack x) :
    copied mem eip ebp ecx f src v x = mem.copy (place v) mem src f x := by
  unfold copied
  by_cases hin : place v ≤ x ∧ x < place v + f
  · rw [Bytes.copy_of_mem hin.1 hin.2, Bytes.copy_of_mem hin.1 hin.2,
      frame_args_of_not_stack (by unfold Stack; omega)]
  · rw [Bytes.copy_of_not_mem (by omega), Bytes.copy_of_not_mem (by omega),
      frame_args_of_not_stack hx]

theorem copied_ret (hstack : Apart (place v) f 0x8e4 28) :
    (copied mem eip ebp ecx f src v).getWord 0x8fc = mem.getWord 0x8fc := by
  unfold copied
  rw [getWord_copy_stack hstack (by omega) (by omega), frame_getWord _ _ _ _ (by omega), args,
    Bytes.getWord_putWord_of_apart (by omega), Bytes.getWord_putWord_of_apart (by omega),
    Bytes.getWord_putWord_of_apart (by omega)]

/-- **A header that is copied.** -/
theorem copySegment_eq {ebx o : ℕ} (heip : eip < 2 ^ 32) (hebp : ebp < 2 ^ 32)
    (hecx : ecx < 2 ^ 32) (hebx : kernelBinBaseAddr ≤ ebx) (htop : ebx + 32 ≤ 0x100000)
    (hf : mem.getWord (ebx + 16) = f) (ho : mem.getWord (ebx + 4) = o)
    (hv : mem.getWord (ebx + 8) = v) (hsrc : kernelBinBaseAddr + o = src)
    (hfile : src + f ≤ 0x100000) (hmapped : Mapped v f) (himage : Apart (place v) f src f)
    (hstack : Apart (place v) f 0x8e4 28) (hcode : Apart (place v) f 0x900 0x800) :
    copySegment ⟨mem, 0xc0000000 + 0x8fc, ebp, ecx⟩ eip ebx =
      some ⟨copied mem eip ebp ecx f src v, 0xc0000000 + 0x8fc, ebp, ecx⟩ := by
  have hbase : kernelBinBaseAddr = 0x70000 := rfl
  have hsrcEq : (o + kernelBinBaseAddr) % 2 ^ 32 = src := by omega
  have hv32 : v < 2 ^ 32 := by
    rw [← hv]
    exact Bytes.getWord_lt _ _
  obtain ⟨hdst, hsrc', hn⟩ := args_getWord mem (show f < 2 ^ 32 by omega)
    (show src < 2 ^ 32 by omega) hv32
  have hcopy := @repMovsb_eq (frame (args mem f src v) eip ebp ecx) f src v src (place v)
    (fun k hk => phys_low (by omega)) (fun k hk => hmapped.phys hk) (fun _ => by omega)
    hmapped.lt himage hcode
  have hmemCpy := memCpy_eq heip hebp hecx hdst hsrc' hn hcopy hstack
  have hpush₁ := push_eq mem (p := 0x8f8) ebp ecx f (by omega)
  have hpush₂ := push_eq (mem.putWord 0x8f8 f) (p := 0x8f4) ebp ecx src (by omega)
  have hpush₃ := push_eq ((mem.putWord 0x8f8 f).putWord 0x8f4 src) (p := 0x8f0) ebp ecx v (by omega)
  have hread₁ := @getDword_low mem (ebx + 16) (by omega)
  have hread₂ := @getDword_low (mem.putWord 0x8f8 f) (ebx + 4) (by omega)
  have hread₃ := @getDword_low ((mem.putWord 0x8f8 f).putWord 0x8f4 src) (ebx + 8) (by omega)
  rw [hf] at hread₁
  rw [Bytes.getWord_putWord_of_apart (by omega), ho] at hread₂
  rw [Bytes.getWord_putWord_of_apart (by omega), Bytes.getWord_putWord_of_apart (by omega),
    hv] at hread₃
  have hargs : ((mem.putWord 0x8f8 f).putWord 0x8f4 src).putWord 0x8f0 v = args mem f src v := rfl
  simp only [Nat.reduceAdd] at hpush₁ hpush₂ hpush₃ hmemCpy ⊢
  simp only [copySegment, Option.bind_eq_bind, hread₁, Option.bind_some, hpush₁, hread₂, hsrcEq,
    hpush₂, hread₃, hpush₃, hargs, hmemCpy, Nat.reduceAdd, copied]

end Copied

/-! ## The loop -/

/-- The image is not touched. -/
theorem loaded_image (hc : Clear mem size) {i x : ℕ} (hi : i ≤ ePhnum mem)
    (hlo : kernelBinBaseAddr ≤ x) (hhi : x < kernelBinBaseAddr + size) :
    loaded mem i x = mem x := by
  induction i with
  | zero => rfl
  | succ i ih =>
    rw [loaded]
    split
    · next hcopied =>
      have happ := hc.image i (by omega) hcopied
      unfold Apart at happ
      rw [Bytes.copy_of_not_mem (by omega), ih (by omega)]
    · exact ih (by omega)

theorem isCopied_iff (mem : Bytes) (i : ℕ) : (phdr mem i).IsCopied ↔ mem (phAddr mem i) ≠ 0#8 := by
  have hlow : mem.getWord (phAddr mem i) % 2 ^ 8 = (mem (phAddr mem i)).toNat := by
    have := (mem (phAddr mem i)).isLt
    unfold Bytes.getWord
    omega
  have hzero : mem (phAddr mem i) = 0#8 ↔ (mem (phAddr mem i)).toNat = 0 := by
    rw [← BitVec.toNat_inj]
    rfl
  rw [Phdr.IsCopied, phdr, hlow, ne_eq, ne_eq, hzero]

/-- What the loop finds at a header: the memory outside the stack is `loaded`, and the return
address of `kernel_init` is in its place. -/
structure At (mem : Bytes) (ret i : ℕ) (m : Bytes) : Prop where
  loaded : ∀ x, ¬Stack x → m x = loaded mem i x
  ret : m.getWord 0x8fc = ret

section Loop

variable {ret eip ebp ecx i : ℕ} (hI : IsImage mem size) (hC : Clear mem size)

include hC in
/-- The loop reads the image as it was. -/
theorem At.image (hat : At mem ret i m) (hi : i ≤ ePhnum mem) {x : ℕ} (hlo : kernelBinBaseAddr ≤ x)
    (hhi : x < kernelBinBaseAddr + size) : m x = mem x := by
  have hbase : kernelBinBaseAddr = 0x70000 := rfl
  have hstack : ¬Stack x := by
    unfold Stack
    omega
  rw [hat.loaded x hstack, loaded_image hC hi hlo hhi]

include hI in
theorem phAddr_le (hi : i < ePhnum mem) :
    kernelBinBaseAddr ≤ phAddr mem i ∧ phAddr mem i + 32 ≤ kernelBinBaseAddr + size := by
  have htable := hI.table i hi
  unfold phAddr
  omega

include hI hC

theorem At.field (hat : At mem ret i m) (hi : i < ePhnum mem) {c : ℕ} (hc : c + 4 ≤ 32) :
    m.getWord (phAddr mem i + c) = mem.getWord (phAddr mem i + c) := by
  have haddr := phAddr_le hI hi
  exact Bytes.getWord_congr fun k hk => hat.image hC (Nat.le_of_lt hi) (by omega) (by omega)

/-- The copy of a header. -/
theorem At.copied (hat : At mem ret i m) (hi : i < ePhnum mem) (hcopied : (phdr mem i).IsCopied) :
    At mem ret (i + 1) (copied m eip ebp ecx (phdr mem i).pFilesz
      (kernelBinBaseAddr + (phdr mem i).pOffset) (phdr mem i).pVaddr) := by
  have hbase : kernelBinBaseAddr = 0x70000 := rfl
  have hfile := hI.file i hi hcopied
  refine ⟨fun x hx => ?_, by rw [copied_ret (hC.stack i hi hcopied), hat.ret]⟩
  rw [copied_of_not_stack (by omega) hx, Loader.loaded, if_pos hcopied]
  by_cases hin : place (phdr mem i).pVaddr ≤ x ∧
      x < place (phdr mem i).pVaddr + (phdr mem i).pFilesz
  · rw [Bytes.copy_of_mem hin.1 hin.2, Bytes.copy_of_mem hin.1 hin.2,
      hat.image hC (Nat.le_of_lt hi) (by omega) (by omega)]
  · rw [Bytes.copy_of_not_mem (by omega), Bytes.copy_of_not_mem (by omega), hat.loaded x hx]

/-- A pass of the loop, up to its `loop`. -/
theorem At.pass (hat : At mem ret i m) (hi : i < ePhnum mem) (heip : eip < 2 ^ 32)
    (hebp : ebp < 2 ^ 32) (hecx : ecx < 2 ^ 32) :
    ∃ m', segment ⟨m, 0xc0000000 + 0x8fc, ebp, ecx⟩ eip (phAddr mem i) =
        some ⟨m', 0xc0000000 + 0x8fc, ebp, ecx⟩ ∧ At mem ret (i + 1) m' := by
  have hmemory := hI.inMemory
  have haddr := phAddr_le hI hi
  have hbyte : getByte m (phAddr mem i) = some (mem (phAddr mem i)) := by
    rw [getByte, phys_low (by omega), Option.map_some,
      hat.image hC (Nat.le_of_lt hi) haddr.1 (by omega)]
  rw [segment, hbyte, Option.bind_eq_bind, Option.bind_some]
  by_cases hcopied : (phdr mem i).IsCopied
  · have hfile := hI.file i hi hcopied
    have himage := hC.image i hi hcopied
    have hf : m.getWord (phAddr mem i + 16) = (phdr mem i).pFilesz :=
      hat.field hI hC hi (by omega)
    have ho : m.getWord (phAddr mem i + 4) = (phdr mem i).pOffset :=
      hat.field hI hC hi (by omega)
    have hv : m.getWord (phAddr mem i + 8) = (phdr mem i).pVaddr :=
      hat.field hI hC hi (by omega)
    have happ : Apart (place (phdr mem i).pVaddr) (phdr mem i).pFilesz
        (kernelBinBaseAddr + (phdr mem i).pOffset) (phdr mem i).pFilesz := by
      unfold Apart at himage ⊢
      omega
    rw [if_neg ((isCopied_iff mem i).mp hcopied)]
    exact ⟨_, copySegment_eq heip hebp hecx haddr.1 (by omega) hf ho hv rfl (by omega)
      (hC.mapped i hi hcopied) happ (hC.stack i hi hcopied) (hC.code i hi hcopied),
      hat.copied hI hC hi hcopied⟩
  · rw [if_pos (not_not.mp (fun hne => hcopied ((isCopied_iff mem i).mpr hne)))]
    refine ⟨m, rfl, ⟨fun x hx => ?_, hat.ret⟩⟩
    rw [Loader.loaded, if_neg hcopied, hat.loaded x hx]

/-- The loop from the header `i` on. -/
theorem eachSegment_eq {fuel r : ℕ} (hr : i + (r + 1) = ePhnum mem) (hfuel : r < fuel)
    (heip : eip < 2 ^ 32) (hebp : ebp < 2 ^ 32) (hat : At mem ret i m) :
    ∃ m', eachSegment eip (ePhentsize mem) fuel ⟨m, 0xc0000000 + 0x8fc, ebp, r + 1⟩
        (phAddr mem i) = some ⟨m', 0xc0000000 + 0x8fc, ebp, 0⟩ ∧ At mem ret (ePhnum mem) m' := by
  have hphnum := half_lt mem (kernelBinBaseAddr + 44)
  have hmemory := hI.inMemory
  induction r generalizing i fuel m with
  | zero =>
    obtain ⟨fuel, rfl⟩ := Nat.exists_eq_succ_of_ne_zero (Nat.ne_of_gt hfuel)
    obtain ⟨m', hseg, hat'⟩ := @At.pass _ _ _ ret eip ebp (0 + 1) i hI hC hat (by omega) heip
      hebp (by omega)
    rw [show i + 1 = ePhnum mem from hr] at hat'
    refine ⟨m', ?_, hat'⟩
    have hecx : (0 + 1 + 2 ^ 32 - 1) % 2 ^ 32 = 0 := by omega
    rw [eachSegment, hseg, Option.bind_eq_bind, Option.bind_some]
    dsimp only
    rw [hecx, if_neg (not_not_intro rfl)]
  | succ r ih =>
    obtain ⟨fuel, rfl⟩ := Nat.exists_eq_succ_of_ne_zero (Nat.ne_of_gt (Nat.zero_lt_of_lt hfuel))
    have hi : i < ePhnum mem := by omega
    obtain ⟨m₁, hseg, hat₁⟩ := @At.pass _ _ _ ret eip ebp (r + 1 + 1) i hI hC hat hi heip
      hebp (by unfold ePhnum at hr; omega)
    obtain ⟨m', hm', hat'⟩ := ih (show i + 1 + (r + 1) = ePhnum mem by omega)
      (show r < fuel by omega) hat₁
    refine ⟨m', ?_, hat'⟩
    have hecx : (r + 1 + 1 + 2 ^ 32 - 1) % 2 ^ 32 = r + 1 := by
      unfold ePhnum at hr
      omega
    have hebx : (phAddr mem i + ePhentsize mem) % 2 ^ 32 = phAddr mem (i + 1) := by
      have hnext := phAddr_le hI (show i + 1 < ePhnum mem by omega)
      have hadd : phAddr mem i + ePhentsize mem = phAddr mem (i + 1) := by
        unfold phAddr
        rw [Nat.succ_mul, Nat.add_assoc]
      rw [hadd, Nat.mod_eq_of_lt (by omega)]
    rw [eachSegment, hseg, Option.bind_eq_bind, Option.bind_some]
    dsimp only
    rw [hecx, hebx, if_pos (Nat.succ_ne_zero r)]
    exact hm'

/-- **`kernel_init`.**  It returns, and outside its stack it leaves the headers one on top of the
other. -/
theorem kernelInit_eq (ebp ret eip : BitVec 32) :
    ∃ m, kernelInit mem ebp ret eip = some m ∧
      ∀ x, ¬Stack x → m x = loaded mem (ePhnum mem) x := by
  have hbase : kernelBinBaseAddr = 0x70000 := rfl
  have hmemory := hI.inMemory
  have hheader := hI.header
  have hat : At mem ret.toNat 0 (mem.putWord 0x8fc ret.toNat) := by
    refine ⟨fun x hx => ?_, by rw [Bytes.getWord_putWord, Nat.mod_eq_of_lt ret.isLt]⟩
    unfold Stack at hx
    exact Bytes.putWord_of_not_mem (by omega)
  have hhalf : ∀ c, half (mem.putWord 0x8fc ret.toNat) (kernelBinBaseAddr + c) =
      half mem (kernelBinBaseAddr + c) := by
    intro c
    unfold half
    rw [Bytes.putWord_of_not_mem (by omega), Bytes.putWord_of_not_mem (by omega)]
  have hphnum : ePhnum mem < 2 ^ 16 := half_lt _ _
  obtain ⟨r, hr⟩ := Nat.exists_eq_add_of_le' hI.phnum
  obtain ⟨m, hm, hat'⟩ := @eachSegment_eq mem _ size ret.toNat eip.toNat ebp.toNat 0 hI hC
    (2 ^ 32) r (by rw [hr, Nat.zero_add]) (by omega) eip.isLt ebp.isLt hat
  have hpush := push_eq mem (p := 0x8fc) ebp.toNat 0 ret.toNat (by omega)
  have hedx := @getHalf_low (mem.putWord 0x8fc ret.toNat) (kernelBinBaseAddr + 42) (by omega)
  have hebx := @getDword_low (mem.putWord 0x8fc ret.toNat) (kernelBinBaseAddr + 28) (by omega)
  have hecx := @getHalf_low (mem.putWord 0x8fc ret.toNat) (kernelBinBaseAddr + 44) (by omega)
  have hpop := pop_eq m (p := 0x8fc) ebp.toNat 0 (by omega)
  have hfirst : (ePhoff mem + kernelBinBaseAddr) % 2 ^ 32 = phAddr mem 0 := by
    have htable := hI.table 0 hI.phnum
    unfold phAddr
    omega
  rw [hhalf] at hedx hecx
  rw [Bytes.getWord_putWord_of_apart (by omega)] at hebx
  rw [hat'.ret] at hpop
  rw [← hr] at hm
  refine ⟨m, ?_, hat'.loaded⟩
  simp only [Nat.reduceAdd] at hpush hm hpop
  have hoff : mem.getWord (kernelBinBaseAddr + 28) = ePhoff mem := rfl
  have hsize : half mem (kernelBinBaseAddr + 42) = ePhentsize mem := rfl
  have hnum : half mem (kernelBinBaseAddr + 44) = ePhnum mem := rfl
  simp only [kernelInit, Option.bind_eq_bind]
  rw [hpush, Option.bind_some, hedx, Option.bind_some, hebx, Option.bind_some, hecx,
    Option.bind_some, hoff, hsize, hnum, hfirst, hm, Option.bind_some, hpop, Option.bind_some,
    if_pos rfl]

end Loop

/-! ## Main result -/

/-- A header that does not cover a byte leaves it as it is. -/
theorem loaded_of_not_covers {i j x : ℕ} (hij : i ≤ j)
    (h : ∀ l, i ≤ l → l < j → (phdr mem l).IsCopied → ¬(phdr mem l).Covers x) :
    loaded mem j x = loaded mem i x := by
  obtain ⟨d, rfl⟩ := Nat.exists_eq_add_of_le hij
  induction d with
  | zero => rfl
  | succ d ih =>
    rw [← ih (Nat.le_add_right _ _) fun l hlo hhi => h l hlo (by omega), ← Nat.add_assoc, loaded]
    split
    · next hcopied =>
      have hnot := h (i + d) (Nat.le_add_right _ _) (by omega) hcopied
      unfold Phdr.Covers at hnot
      exact Bytes.copy_of_not_mem (by omega)
    · rfl

theorem Phdr.IsLoad.isCopied {h : Phdr} (hload : h.IsLoad) : h.IsCopied := by
  unfold Phdr.IsLoad at hload
  rw [Phdr.IsCopied, hload]
  decide

/-- The bytes of a header, right after it was copied. -/
theorem loaded_succ {i : ℕ} (hcopied : (phdr mem i).IsCopied) (hk : k < (phdr mem i).pFilesz) :
    loaded mem (i + 1) (place (phdr mem i).pVaddr + k) =
      mem (kernelBinBaseAddr + (phdr mem i).pOffset + k) := by
  rw [loaded, if_pos hcopied, Bytes.copy_of_mem (Nat.le_add_right _ _) (by omega),
    Nat.add_sub_cancel_left]

/-- **The kernel image.**  `kernel_init` returns.  The file bytes of every loadable segment are in
its place, except where a later header that is not loadable is copied over them; and every byte that
no copied header covers keeps what it held, those between the file size and the memory size of a
segment included. -/
theorem kernelInit_loads (hI : IsImage mem size) (hL : Loadable mem size) (hC : Clear mem size)
    (ebp ret eip : BitVec 32) :
    ∃ m, kernelInit mem ebp ret eip = some m ∧
      (∀ i < ePhnum mem, (phdr mem i).IsLoad → ∀ k < (phdr mem i).pFilesz,
        (∀ j < ePhnum mem, i < j → (phdr mem j).IsCopied → ¬(phdr mem j).IsLoad →
          ¬(phdr mem j).Covers (place (phdr mem i).pVaddr + k)) →
        getByte m ((phdr mem i).pVaddr + k) =
          some (mem (kernelBinBaseAddr + (phdr mem i).pOffset + k))) ∧
      ∀ x, ¬Stack x → (∀ i < ePhnum mem, (phdr mem i).IsCopied → ¬(phdr mem i).Covers x) →
        m x = mem x := by
  obtain ⟨m, hm, hloaded⟩ := kernelInit_eq hI hC ebp ret eip
  refine ⟨m, hm, fun i hi hload k hk hlater => ?_, fun x hx hnot => ?_⟩
  · have hcopied := hload.isCopied
    have hstack := hC.stack i hi hcopied
    have hfilesz := hL.filesz i hi hload
    have hplace : ¬Stack (place (phdr mem i).pVaddr + k) := by
      unfold Apart at hstack
      unfold Stack
      omega
    -- the later headers: the loadable ones are elsewhere
    have hcover : ∀ j, i + 1 ≤ j → j < ePhnum mem → (phdr mem j).IsCopied →
        ¬(phdr mem j).Covers (place (phdr mem i).pVaddr + k) := by
      intro j hij hj hcopiedj
      by_cases hloadj : (phdr mem j).IsLoad
      · have happ := hL.disjoint i hi j hj (by omega) hload hloadj
        have hfileszj := hL.filesz j hj hloadj
        unfold Apart at happ
        unfold Phdr.Covers
        omega
      · exact hlater j hj (by omega) hcopiedj hloadj
    rw [getByte, (hC.mapped i hi hcopied).phys hk, Option.map_some, hloaded _ hplace,
      loaded_of_not_covers (Nat.succ_le_of_lt hi) hcover, loaded_succ hcopied hk]
  · rw [hloaded x hx, loaded_of_not_covers (Nat.zero_le _) fun l _ hl => hnot l hl]
    rfl

/-! ## An image with a note -/

/-- What one might expect of a loader. -/
structure Materialised (mem m : Bytes) : Prop where
  file : ∀ i < ePhnum mem, (phdr mem i).IsLoad → ∀ k < (phdr mem i).pFilesz,
    getByte m ((phdr mem i).pVaddr + k) = some (mem (kernelBinBaseAddr + (phdr mem i).pOffset + k))
  zero : ∀ i < ePhnum mem, (phdr mem i).IsLoad → ∀ k, (phdr mem i).pFilesz ≤ k →
    k < (phdr mem i).pMemsz → getByte m ((phdr mem i).pVaddr + k) = some 0#8
  frame : ∀ x, ¬Stack x → (∀ i < ePhnum mem, (phdr mem i).IsLoad →
    ¬(place (phdr mem i).pVaddr ≤ x ∧ x < place (phdr mem i).pVaddr + (phdr mem i).pMemsz)) →
    m x = mem x

/-- A loadable segment of one byte in the file and two in memory, and a note of one byte that goes
to `0xc0002000`; all other bytes are `0xff`. -/
def noteImage : Bytes :=
  Function.update (Bytes.putWords (Bytes.putWords (Bytes.putWord (fun _ => 0xff#8) 0x7001c 52)
    0x7002a [0x00020020]) 0x70034 [1, 116, 0xc0001500, 0, 1, 2, 7, 0x1000,
      4, 116, 0xc0002000, 0, 1, 1, 4, 1]) 0x70074 0x90#8

theorem isImage_note : IsImage noteImage 117 := by
  constructor <;> decide +kernel

theorem loadable_note : Loadable noteImage 117 := by
  constructor <;> decide +kernel

theorem clear_note : Clear noteImage 117 := by
  constructor <;> decide +kernel

/-- The byte of the loadable segment. -/
theorem kernelInit_loads_note :
    ∃ m, kernelInit noteImage 0#32 0#32 0#32 = some m ∧ getByte m 0xc0001500 = some 0x90#8 := by
  obtain ⟨m, hm, hfile, -⟩ := kernelInit_loads isImage_note loadable_note clear_note 0#32 0#32 0#32
  have hbyte := hfile 0 (by decide +kernel) (by decide +kernel) 0 (by decide +kernel)
    (by decide +kernel)
  have haddr : (phdr noteImage 0).pVaddr + 0 = 0xc0001500 := by decide +kernel
  have hval : noteImage (kernelBinBaseAddr + (phdr noteImage 0).pOffset + 0) = 0x90#8 := by
    decide +kernel
  rw [haddr, hval] at hbyte
  exact ⟨m, hm, hbyte⟩

/-- The second byte of the segment is not cleared, and the note is copied. -/
theorem not_materialised_note :
    IsImage noteImage 117 ∧ Loadable noteImage 117 ∧ ∃ m,
      kernelInit noteImage 0#32 0#32 0#32 = some m ∧ getByte m 0xc0001501 = some 0xff#8 ∧
      noteImage 0x2000 = 0xff#8 ∧ m 0x2000 = 0x90#8 ∧ ¬Materialised noteImage m := by
  obtain ⟨m, hm, hloaded⟩ := kernelInit_eq isImage_note clear_note 0#32 0#32 0#32
  have hbss : getByte m 0xc0001501 = some 0xff#8 := by
    have hplace : phys 0xc0001501 = some 0x1501 := by decide
    have hval : loaded noteImage (ePhnum noteImage) 0x1501 = 0xff#8 := by decide +kernel
    rw [getByte, hplace, Option.map_some, hloaded 0x1501 (by unfold Stack; decide), hval]
  have hnote : m 0x2000 = 0x90#8 := by
    have hval : loaded noteImage (ePhnum noteImage) 0x2000 = 0x90#8 := by decide +kernel
    rw [hloaded 0x2000 (by unfold Stack; decide), hval]
  refine ⟨isImage_note, loadable_note, m, hm, hbss, by decide +kernel, hnote, fun hmat => ?_⟩
  have hzero := hmat.zero 0 (by decide +kernel) (by decide +kernel) 1 (by decide +kernel)
    (by decide +kernel)
  have haddr : (phdr noteImage 0).pVaddr + 1 = 0xc0001501 := by decide +kernel
  rw [haddr, hbss] at hzero
  exact absurd hzero (by decide)

end HcOs.Loader
