import HcOs.Lib.X86

/-!
# Segment descriptors

The descriptors of a protected-mode processor as they lie in memory, the rules for loading a
selector, and the permission for a port that the task state segment gives to a level without I/O
privilege.
-/

namespace HcOs.Lib.Segment

open HcOs.Lib.X86

structure Descriptor where
  base : ℕ
  /-- The last offset, with the granularity taken into account. -/
  limit : ℕ
  type : ℕ
  /-- A code or data segment. -/
  memory : Bool
  dpl : ℕ
  present : Bool
  deriving DecidableEq, Repr

namespace Descriptor

variable (d : Descriptor)

def IsCode : Prop := d.memory = true ∧ d.type.testBit 3 = true

def IsConforming : Prop := d.IsCode ∧ d.type.testBit 2 = true

/-- Data, or code that may be read. -/
def IsReadable : Prop := d.memory = true ∧ (d.type.testBit 3 = true → d.type.testBit 1 = true)

def IsWritable : Prop := d.memory = true ∧ d.type.testBit 3 = false ∧ d.type.testBit 1 = true

instance : Decidable d.IsCode := inferInstanceAs (Decidable (_ ∧ _))
instance : Decidable d.IsConforming := inferInstanceAs (Decidable (_ ∧ _))
instance : Decidable d.IsReadable := inferInstanceAs (Decidable (_ ∧ (_ → _)))
instance : Decidable d.IsWritable := inferInstanceAs (Decidable (_ ∧ _ ∧ _))

end Descriptor

/-- The last offset of a segment, for the 20 bits of its limit and its granularity. -/
def lastOffset (raw : ℕ) (inPages : Bool) : ℕ := if inPages then raw * 4096 + 4095 else raw

/-- The descriptor at an address. -/
def descriptor (m : Bytes) (a : ℕ) : Descriptor where
  base := (m (a + 2)).toNat + 2 ^ 8 * (m (a + 3)).toNat + 2 ^ 16 * (m (a + 4)).toNat +
    2 ^ 24 * (m (a + 7)).toNat
  limit := lastOffset ((m a).toNat + 2 ^ 8 * (m (a + 1)).toNat + 2 ^ 16 * ((m (a + 6)).toNat % 16))
    ((m (a + 6)).toNat.testBit 7)
  type := (m (a + 5)).toNat % 16
  memory := (m (a + 5)).toNat.testBit 4
  dpl := (m (a + 5)).toNat / 32 % 4
  present := (m (a + 5)).toNat.testBit 7

theorem descriptor_congr {m m' : Bytes} {a : ℕ} (h : ∀ i, a ≤ i → i < a + 8 → m' i = m i) :
    descriptor m' a = descriptor m a := by
  unfold descriptor
  rw [h a (by omega) (by omega), h (a + 1) (by omega) (by omega), h (a + 2) (by omega) (by omega),
    h (a + 3) (by omega) (by omega), h (a + 4) (by omega) (by omega), h (a + 5) (by omega) (by omega),
    h (a + 6) (by omega) (by omega), h (a + 7) (by omega) (by omega)]

/-- `ltr` marks the descriptor of the state segment as busy. -/
def ltr (m : Bytes) (a : ℕ) : Bytes := Function.update m (a + 5) (m (a + 5) ||| 0x02#8)

theorem descriptor_ltr (m : Bytes) (a : ℕ) :
    descriptor (ltr m a) a = { descriptor m a with type := (m (a + 5) ||| 0x02#8).toNat % 16 } := by
  have hattr : ∀ x : BitVec 8, (x ||| 0x02#8).toNat.testBit 4 = x.toNat.testBit 4 ∧
      (x ||| 0x02#8).toNat / 32 % 4 = x.toNat / 32 % 4 ∧
      (x ||| 0x02#8).toNat.testBit 7 = x.toNat.testBit 7 := by decide +kernel
  have hne : ∀ i, i ≠ a + 5 → ltr m a i = m i := fun i hi => Function.update_of_ne hi _ m
  have heq : ltr m a (a + 5) = m (a + 5) ||| 0x02#8 := Function.update_self _ _ m
  obtain ⟨h4, h32, h7⟩ := hattr (m (a + 5))
  unfold descriptor
  rw [hne a (by omega), hne (a + 1) (by omega), hne (a + 2) (by omega), hne (a + 3) (by omega),
    hne (a + 4) (by omega), hne (a + 6) (by omega), hne (a + 7) (by omega), heq, h4, h32, h7]

/-- The register of the descriptor table. -/
structure Gdtr where
  base : ℕ
  limit : ℕ

/-- The descriptor of a selector; there is no local table. -/
def lookup (m : Bytes) (gdtr : Gdtr) (sel : BitVec 16) : Option Descriptor :=
  if sel.toNat / 4 % 2 = 0 ∧ sel.toNat / 8 * 8 + 7 ≤ gdtr.limit then
    some (descriptor m (gdtr.base + sel.toNat / 8 * 8))
  else none

variable (m : Bytes) (gdtr : Gdtr) (cpl : ℕ) (sel : BitVec 16)

/-- The rule for `ds`, `es`, `fs` and `gs`. -/
def MayLoadData : Prop :=
  IsNull sel ∨ ∃ d ∈ lookup m gdtr sel, d.present = true ∧ d.IsReadable ∧
    (d.IsConforming ∨ cpl ≤ d.dpl ∧ rpl sel ≤ d.dpl)

/-- The rule for `ss`. -/
def MayLoadStack : Prop :=
  ¬IsNull sel ∧ ∃ d ∈ lookup m gdtr sel, d.present = true ∧ d.IsWritable ∧ rpl sel = cpl ∧
    d.dpl = cpl

/-- The rule for a jump to another code segment. -/
def MayJump : Prop :=
  ¬IsNull sel ∧ ∃ d ∈ lookup m gdtr sel, d.present = true ∧ d.IsCode ∧
    (d.IsConforming ∧ d.dpl ≤ cpl ∨ ¬d.IsConforming ∧ rpl sel ≤ cpl ∧ d.dpl = cpl)

/-- The flags IF and IOPL, which a level without I/O privilege cannot change. -/
def lockedFlags : BitVec 32 := 0x3200#32

/-- The privilege level of the descriptor of a selector. -/
def dplOf : ℕ := ((lookup m gdtr sel).map Descriptor.dpl).getD 0

/-- An entry of the interrupt descriptor table. -/
structure Gate where
  offset : ℕ
  selector : ℕ
  type : ℕ
  dpl : ℕ
  present : Bool
  deriving DecidableEq, Repr

/-- The gate at an address. -/
def gate (m : Bytes) (a : ℕ) : Gate where
  offset := (m a).toNat + 2 ^ 8 * (m (a + 1)).toNat + 2 ^ 16 * (m (a + 6)).toNat +
    2 ^ 24 * (m (a + 7)).toNat
  selector := (m (a + 2)).toNat + 2 ^ 8 * (m (a + 3)).toNat
  type := (m (a + 5)).toNat % 32
  dpl := (m (a + 5)).toNat / 32 % 4
  present := (m (a + 5)).toNat.testBit 7

theorem gate_congr {m m' : Bytes} {a : ℕ} (h : ∀ i, a ≤ i → i < a + 8 → m' i = m i) :
    gate m' a = gate m a := by
  unfold gate
  rw [h a (by omega) (by omega), h (a + 1) (by omega) (by omega), h (a + 2) (by omega) (by omega),
    h (a + 3) (by omega) (by omega), h (a + 5) (by omega) (by omega),
    h (a + 6) (by omega) (by omega), h (a + 7) (by omega) (by omega)]

/-- The rule for the instruction `int n`; the register of the interrupt table is like that of the
descriptor table. -/
def MayInt (m : Bytes) (idtr : Gdtr) (cpl n : ℕ) : Prop :=
  n * 8 + 7 ≤ idtr.limit ∧ (gate m (idtr.base + n * 8)).present = true ∧
    cpl ≤ (gate m (idtr.base + n * 8)).dpl

/-- The permission for the byte at a port, on a level without I/O privilege: the word at offset 102
of the task state segment says where its bit map begins. -/
def MayUsePort (tss : Descriptor) (port : ℕ) : Prop :=
  let map := (m (tss.base + 102)).toNat + 2 ^ 8 * (m (tss.base + 103)).toNat
  map + port / 8 + 1 ≤ tss.limit ∧ (m (tss.base + map + port / 8)).toNat.testBit (port % 8) = false

instance : Decidable (MayUsePort m tss port) := inferInstanceAs (Decidable (_ ∧ _))

end HcOs.Lib.Segment
