import HcOs.Lib.Segment
import Mathlib.Logic.Relation
import Mathlib.Tactic.IntervalCases

/-!
# The segments of user programs (`userprog/tss.c`, `boot/loader.S`)

The loader makes the first four descriptors of the GDT, `tss_init` the other three and the task
state segment.  All stores go to a memory of bytes, from which the processor reads them back.

* `makeGdtDesc_roundTrip`: the fields of a descriptor are read back as they were given.
* `user_selectors`: which selectors a program on the level 3 can load.
* `user_ports`: which ports it can use.  `io_base` is at the offset 104, but the processor looks for
  it at 102; there is a zero, so the segment itself is the bit map.
-/

namespace HcOs.Tss

open HcOs.Lib HcOs.Lib.Segment
open HcOs.Lib.X86 (IsNull rpl)
open Relation (ReflTransGen)

/-! ## Descriptors -/

/-- `struct gdt_desc`. -/
structure GdtDesc where
  limitLowWord : BitVec 16
  baseLowWord : BitVec 16
  baseMidByte : BitVec 8
  attrLowByte : BitVec 8
  limitHighAttrHigh : BitVec 8
  baseHighByte : BitVec 8

def GdtDesc.bytes (d : GdtDesc) : List (BitVec 8) :=
  [d.limitLowWord.setWidth 8, (d.limitLowWord >>> 8).setWidth 8, d.baseLowWord.setWidth 8,
    (d.baseLowWord >>> 8).setWidth 8, d.baseMidByte, d.attrLowByte, d.limitHighAttrHigh,
    d.baseHighByte]

/-- `make_gdt_desc`. -/
def makeGdtDesc (descAddr limit : BitVec 32) (attrLow attrHigh : BitVec 8) : GdtDesc where
  limitLowWord := (limit &&& 0x0000ffff#32).setWidth 16
  baseLowWord := (descAddr &&& 0x0000ffff#32).setWidth 16
  baseMidByte := ((descAddr &&& 0x00ff0000#32) >>> 16).setWidth 8
  attrLowByte := attrLow
  limitHighAttrHigh := (((limit &&& 0x000f0000#32) >>> 16) + attrHigh.setWidth 32).setWidth 8
  baseHighByte := (descAddr >>> 24).setWidth 8

/-- What the processor should find. -/
def described (base limit : ℕ) (attrLow attrHigh : BitVec 8) : Descriptor where
  base
  limit := lastOffset limit (attrHigh.toNat.testBit 7)
  type := attrLow.toNat % 16
  memory := attrLow.toNat.testBit 4
  dpl := attrLow.toNat / 32 % 4
  present := attrLow.toNat.testBit 7

variable {m m' : Bytes} {a : ℕ}

theorem write_bytes {l : List (BitVec 8)} {i : ℕ} (hi : i < l.length) :
    m.write a l (a + i) = l.getD i 0 := by
  rw [Bytes.write_of_mem (by omega) (by omega), Nat.add_sub_cancel_left]

theorem toNat_field (x : BitVec 32) (w k : ℕ) (mask : BitVec 32)
    (hmask : mask.toNat = (2 ^ w - 1) * 2 ^ k) :
    (x &&& mask).toNat = x.toNat / 2 ^ k % 2 ^ w * 2 ^ k := by
  rw [BitVec.toNat_and, hmask]
  exact and_mask _ _ _

/-- The bytes of a descriptor as numbers. -/
theorem makeGdtDesc_bytes (descAddr limit : BitVec 32) (attrLow attrHigh : BitVec 8) :
    (makeGdtDesc descAddr limit attrLow attrHigh).bytes.map BitVec.toNat =
      [limit.toNat % 256, limit.toNat / 256 % 256, descAddr.toNat % 256,
        descAddr.toNat / 256 % 256, descAddr.toNat / 65536 % 256, attrLow.toNat,
        (limit.toNat / 65536 % 16 + attrHigh.toNat) % 256, descAddr.toNat / 16777216] := by
  have hb := descAddr.isLt
  have hl := limit.isLt
  have ha := attrHigh.isLt
  have hbase := toNat_field descAddr 16 0 0x0000ffff#32 rfl
  have hmid := toNat_field descAddr 8 16 0x00ff0000#32 rfl
  have hlow := toNat_field limit 16 0 0x0000ffff#32 rfl
  have hhigh := toNat_field limit 4 16 0x000f0000#32 rfl
  simp only [GdtDesc.bytes, makeGdtDesc, List.map_cons, List.map_nil, BitVec.toNat_setWidth,
    BitVec.toNat_ushiftRight, BitVec.toNat_add, hbase, hmid, hlow, hhigh, Nat.shiftRight_eq_div_pow]
  simp only [List.cons.injEq, and_true, true_and]
  omega

/-- **Round trip of a descriptor.**  If the low half of `attr_high` is clear, the processor reads
the base, the attributes and the low 20 bits of the limit that the descriptor was made from. -/
theorem makeGdtDesc_roundTrip (m : Bytes) (a : ℕ) (descAddr limit : BitVec 32)
    (attrLow attrHigh : BitVec 8) (hattr : attrHigh.toNat % 16 = 0) :
    descriptor (m.write a (makeGdtDesc descAddr limit attrLow attrHigh).bytes) a =
      described descAddr.toNat (limit.toNat % 2 ^ 20) attrLow attrHigh := by
  have hb := descAddr.isLt
  have ha := attrHigh.isLt
  have hbytes := makeGdtDesc_bytes descAddr limit attrLow attrHigh
  have hlen : (makeGdtDesc descAddr limit attrLow attrHigh).bytes.length = 8 := rfl
  have hbyte : ∀ i, i < 8 →
      (m.write a (makeGdtDesc descAddr limit attrLow attrHigh).bytes (a + i)).toNat =
        ((makeGdtDesc descAddr limit attrLow attrHigh).bytes.map BitVec.toNat).getD i 0 := by
    intro i hi
    rw [write_bytes (by rw [hlen]; exact hi)]
    show _ = (List.map BitVec.toNat _).getD i (BitVec.toNat 0#8)
    rw [List.getD_map]
    rfl
  rw [hbytes] at hbyte
  have h0 := hbyte 0 (by omega)
  rw [Nat.add_zero] at h0
  unfold descriptor described
  rw [h0, hbyte 1 (by omega), hbyte 2 (by omega), hbyte 3 (by omega), hbyte 4 (by omega),
    hbyte 5 (by omega), hbyte 6 (by omega), hbyte 7 (by omega)]
  simp only [List.getD_cons_zero, List.getD_cons_succ, Nat.testBit_eq_decide_div_mod_eq]
  congr 1
  · omega
  · congr 1
    · omega
    · apply decide_eq_decide.mpr
      omega

/-! ## The tables -/

/-- The descriptors of the loader, by the constants of `boot.inc`; the last one after the loader has
moved the video segment to the upper part of the address space. -/
def descCodeHigh4 : ℕ := 2 ^ 23 + 2 ^ 22 + 0xf0000 + 2 ^ 15 + 2 ^ 12 + 0x800
def descDataHigh4 : ℕ := 2 ^ 23 + 2 ^ 22 + 0xf0000 + 2 ^ 15 + 2 ^ 12 + 0x200
def descVideoHigh4 : ℕ := 2 ^ 23 + 2 ^ 22 + 2 ^ 15 + 2 ^ 12 + 0x200 + 0x0b

/-- Where the GDT is. -/
def gdtBase : ℕ := 0xc0000900

def loaderGdt (m : Bytes) : Bytes :=
  m.putWords gdtBase [0, 0, 0x0000ffff, descCodeHigh4, 0x0000ffff, descDataHigh4, 0x80000007,
    descVideoHigh4 ||| 0xc0000000]

def tssSize : ℕ := 108

/-- `SELECTOR_K_STACK`, `SELECTOR_TSS`, `SELECTOR_U_CODE`, `SELECTOR_U_DATA`. -/
def selectorKStack : BitVec 16 := 0x10#16
def selectorTss : BitVec 16 := 0x20#16
def selectorUCode : BitVec 16 := 0x2b#16
def selectorUData : BitVec 16 := 0x33#16

def tssAttrLow : BitVec 8 := 0x89#8
def tssAttrHigh : BitVec 8 := 0x80#8
def gdtCodeAttrLowDpl3 : BitVec 8 := 0xf8#8
def gdtDataAttrLowDpl3 : BitVec 8 := 0xf2#8
def gdtAttrHigh : BitVec 8 := 0xc0#8

/-- `update_tss_esp0`; `esp0` is the second word of `struct tss`. -/
def updateTssEsp0 (tss pthread : BitVec 32) (m : Bytes) : Bytes :=
  m.putWord (tss.toNat + 4) (pthread + 4096#32).toNat

/-- `tss_init`; `ss0` is the third word of `struct tss`, `io_base` the last
one. -/
def tssInit (tss : BitVec 32) (m : Bytes) : Bytes :=
  let m := m.fill tss.toNat 0#8 tssSize
  let m := m.putWord (tss.toNat + 8) selectorKStack.toNat
  let m := m.putWord (tss.toNat + 104) tssSize
  let m := m.write 0xc0000920
    (makeGdtDesc tss (BitVec.ofNat 32 (tssSize - 1)) tssAttrLow tssAttrHigh).bytes
  let m := m.write 0xc0000928
    (makeGdtDesc 0#32 0xfffff#32 gdtCodeAttrLowDpl3 gdtAttrHigh).bytes
  let m := m.write 0xc0000930 (makeGdtDesc 0#32 0xfffff#32 gdtDataAttrLowDpl3 gdtAttrHigh).bytes
  ltr m 0xc0000920

/-- The operand of `lgdt`. -/
def gdtr : Gdtr := ⟨gdtBase, 8 * 7 - 1⟩

/-! ## What the processor finds -/

/-- The kernel image has the GDT where the loader put it, and the task state segment elsewhere. -/
structure Placed (tss : BitVec 32) : Prop where
  apart : tss.toNat + tssSize ≤ gdtBase ∨ gdtBase + 56 ≤ tss.toNat
  fits : tss.toNat + tssSize ≤ 2 ^ 32

/-- A flat segment. -/
def flat (type dpl : ℕ) : Descriptor := ⟨0, 0xffffffff, type, true, dpl, true⟩

/-- The entries of the GDT. -/
def entries (tss : BitVec 32) : List Descriptor :=
  [⟨0, 0, 0, false, 0, false⟩, flat 8 0, flat 2 0, ⟨0xc00b8000, 0x7fff, 2, true, 0, true⟩,
    ⟨tss.toNat, 107 * 4096 + 4095, 11, false, 0, true⟩, flat 8 3, flat 2 3]

/-- The GDT as it is after `tss_init`. -/
def GdtOk (tss : BitVec 32) (m : Bytes) : Prop :=
  ∀ k < 7, descriptor m (gdtBase + 8 * k) = (entries tss).getD k ⟨0, 0, 0, false, 0, false⟩

theorem loaderGdt_ok (tss : BitVec 32) (m : Bytes) {k : ℕ} (hk : k < 4) :
    descriptor (loaderGdt m) (gdtBase + 8 * k) =
      (entries tss).getD k ⟨0, 0, 0, false, 0, false⟩ := by
  have hsame : descriptor (loaderGdt m) (gdtBase + 8 * k) =
      descriptor (loaderGdt fun _ => 0#8) (gdtBase + 8 * k) := by
    refine descriptor_congr fun i hlo hhi => ?_
    exact Bytes.putWords_of_mem _ _ _ (by omega) (by simp only [List.length_cons]; omega)
  rw [hsame]
  have hall : ∀ k < 4, descriptor (loaderGdt fun _ => 0#8) (gdtBase + 8 * k) =
      ((entries 0#32).take 4).getD k ⟨0, 0, 0, false, 0, false⟩ := by decide
  rw [hall k hk]
  interval_cases k <;> rfl

theorem descriptor_ltr_of_apart {b : ℕ} (h : a + 8 ≤ b ∨ b + 8 ≤ a) :
    descriptor (ltr m b) a = descriptor m a :=
  descriptor_congr fun i hlo hhi => Function.update_of_ne (by omega) _ m

/-- A descriptor beside one that is written. -/
theorem descriptor_write_of_apart {b : ℕ} (descAddr limit : BitVec 32) (attrLow attrHigh : BitVec 8)
    (h : a + 8 ≤ b ∨ b + 8 ≤ a) :
    descriptor (m.write b (makeGdtDesc descAddr limit attrLow attrHigh).bytes) a =
      descriptor m a := by
  have hlen : (makeGdtDesc descAddr limit attrLow attrHigh).bytes.length = 8 := rfl
  exact descriptor_congr fun i hlo hhi => Bytes.write_of_not_mem (by rw [hlen]; omega)

/-- The descriptors of `tss_init` are read back, and those of the loader are still there. -/
theorem tssInit_gdt {tss : BitVec 32} (hp : Placed tss) (m : Bytes) :
    GdtOk tss (tssInit tss (loaderGdt m)) := by
  intro k hk
  have hapart := hp.apart
  unfold tssSize gdtBase at hapart
  by_cases hk4 : k < 4
  · rw [← loaderGdt_ok tss m hk4]
    unfold tssInit gdtBase
    rw [descriptor_ltr_of_apart (by omega), descriptor_write_of_apart _ _ _ _ (by omega),
      descriptor_write_of_apart _ _ _ _ (by omega), descriptor_write_of_apart _ _ _ _ (by omega)]
    refine descriptor_congr fun i hlo hhi => ?_
    rw [Bytes.putWord_of_not_mem (by omega), Bytes.putWord_of_not_mem (by omega),
      Bytes.fill_of_not_mem (by unfold tssSize; omega)]
  · obtain rfl | rfl | rfl : k = 4 ∨ k = 5 ∨ k = 6 := by omega
    · have hattr : ∀ m : Bytes, m.write 0xc0000920 (makeGdtDesc tss (BitVec.ofNat 32 (tssSize - 1))
          tssAttrLow tssAttrHigh).bytes (0xc0000920 + 5) = tssAttrLow := fun m =>
        write_bytes (l := (makeGdtDesc tss _ tssAttrLow tssAttrHigh).bytes) (i := 5)
          (show 5 < 8 by decide)
      unfold tssInit gdtBase
      rw [descriptor_ltr, descriptor_write_of_apart _ _ _ _ (by omega),
        descriptor_write_of_apart _ _ _ _ (by omega), makeGdtDesc_roundTrip _ _ _ _ _ _ (by decide),
        Bytes.write_of_not_mem (Or.inl (by decide)), Bytes.write_of_not_mem (Or.inl (by decide)),
        hattr]
      rfl
    · unfold tssInit gdtBase
      rw [descriptor_ltr_of_apart (by omega), descriptor_write_of_apart _ _ _ _ (by omega)]
      exact makeGdtDesc_roundTrip _ _ _ _ _ _ (by decide)
    · unfold tssInit gdtBase
      rw [descriptor_ltr_of_apart (by omega)]
      exact makeGdtDesc_roundTrip _ _ _ _ _ _ (by decide)

/-! ## Selectors -/

variable {tss : BitVec 32} {sel : BitVec 16}

theorem lookup_eq (h : GdtOk tss m) (sel : BitVec 16) :
    lookup m gdtr sel = if sel.toNat / 4 % 2 = 0 ∧ sel.toNat / 8 < 7 then
      some ((entries tss).getD (sel.toNat / 8) ⟨0, 0, 0, false, 0, false⟩) else none := by
  have hiff : (sel.toNat / 4 % 2 = 0 ∧ sel.toNat / 8 * 8 + 7 ≤ gdtr.limit) ↔
      (sel.toNat / 4 % 2 = 0 ∧ sel.toNat / 8 < 7) := by
    unfold gdtr
    dsimp only
    constructor <;> rintro ⟨hti, hk⟩ <;> refine ⟨hti, ?_⟩ <;> omega
  unfold lookup
  simp only [hiff]
  split_ifs with hc
  · rw [← h _ hc.2, Nat.mul_comm]
    rfl
  · rfl

/-- The descriptors a selector can have. -/
theorem exists_lookup (h : GdtOk tss m) (sel : BitVec 16) (P : Descriptor → Prop) :
    (∃ d ∈ lookup m gdtr sel, P d) ↔ sel.toNat / 4 % 2 = 0 ∧
      ∃ k < 7, sel.toNat / 8 = k ∧ P ((entries tss).getD k ⟨0, 0, 0, false, 0, false⟩) := by
  rw [lookup_eq h]
  split_ifs with hc
  · simp only [Option.mem_some_iff, exists_eq_left']
    exact ⟨fun hP => ⟨hc.1, _, hc.2, rfl, hP⟩, fun ⟨_, k, _, hk, hP⟩ => by rw [hk]; exact hP⟩
  · simp only [Option.mem_def, reduceCtorEq, false_and, exists_false, false_iff]
    exact fun ⟨hti, k, hk, hk', _⟩ => hc ⟨hti, hk' ▸ hk⟩

theorem selectors_iff (h : GdtOk tss m) (sel : BitVec 16) :
    (MayLoadData m gdtr 3 sel ↔ IsNull sel ∨ sel.toNat / 4 = 12) ∧
      (MayLoadStack m gdtr 3 sel ↔ sel = selectorUData) ∧
      (MayJump m gdtr 3 sel ↔ sel.toNat / 4 = 10) := by
  have hlt := sel.isLt
  unfold MayLoadData MayLoadStack MayJump
  rw [exists_lookup h, exists_lookup h, exists_lookup h]
  refine ⟨or_congr_right ⟨?_, fun hsel => ?_⟩, ⟨?_, fun hsel => ?_⟩, ⟨?_, fun hsel => ?_⟩⟩
  · rintro ⟨hti, k, hk, hsel, -, hread, hpriv⟩
    interval_cases k <;> simp [entries, flat, Descriptor.IsReadable, Descriptor.IsConforming,
      Descriptor.IsCode, Nat.testBit_eq_decide_div_mod_eq] at hread hpriv
    omega
  · refine ⟨by omega, 6, by omega, by omega, rfl, (by decide : (flat 2 3).IsReadable),
      Or.inr ⟨Nat.le_refl 3, ?_⟩⟩
    exact Nat.le_of_lt_succ (Nat.mod_lt _ (by decide))
  · rintro ⟨-, hti, k, hk, hsel, -, hwrite, hrpl, hdpl⟩
    interval_cases k <;> simp [entries, flat, Descriptor.IsWritable,
      Nat.testBit_eq_decide_div_mod_eq] at hwrite hdpl
    unfold rpl at hrpl
    apply BitVec.eq_of_toNat_eq
    show sel.toNat = 0x33
    omega
  · rw [hsel]
    exact ⟨by decide, by decide, 6, by decide, by decide, rfl, (by decide : (flat 2 3).IsWritable),
      by decide, rfl⟩
  · rintro ⟨-, hti, k, hk, hsel, -, hcode, hpriv⟩
    interval_cases k <;> simp [entries, flat, Descriptor.IsConforming, Descriptor.IsCode,
      Nat.testBit_eq_decide_div_mod_eq] at hcode hpriv
    omega
  · refine ⟨?_, by omega, 5, by omega, by omega, rfl, (by decide : (flat 8 3).IsCode),
      Or.inr ⟨(by decide : ¬(flat 8 3).IsConforming), ?_, rfl⟩⟩
    · unfold IsNull
      omega
    · exact Nat.le_of_lt_succ (Nat.mod_lt _ (by decide))

/-- What a user program has loaded, a return to it leaves alone. -/
theorem unload_loaded (h : GdtOk tss m) (hsel : MayLoadData m gdtr 3 sel) :
    X86.Cpu.unload (dplOf m gdtr) 3 sel = sel := by
  rcases ((selectors_iff h sel).1).mp hsel with hnull | hdata
  · exact if_pos hnull
  · have hdpl : dplOf m gdtr sel = 3 := by
      unfold dplOf
      rw [lookup_eq h, if_pos (by omega), show sel.toNat / 8 = 6 by omega]
      rfl
    unfold X86.Cpu.unload
    rw [hdpl, if_neg (Nat.lt_irrefl 3), ite_self]

/-! ## Ports -/

/-- The words of `struct tss`: only `esp0`, `ss0` and `io_base` are ever set. -/
def tssWord (esp0 : ℕ) (k : ℕ) : ℕ :=
  if k = 1 then esp0 else if k = 2 then 16 else if k = 26 then 108 else 0

/-- The state segment with the stack `esp0`. -/
def TssOk (tss : BitVec 32) (esp0 : ℕ) (m : Bytes) : Prop :=
  ∀ k < 27, m.getWord (tss.toNat + 4 * k) = tssWord esp0 k

theorem getWord_fill {b n : ℕ} (hlo : a ≤ b) (hhi : b + 4 ≤ a + n) :
    (m.fill a 0#8 n).getWord b = 0 := by
  unfold Bytes.getWord
  rw [Bytes.fill_of_mem (by omega) (by omega), Bytes.fill_of_mem (by omega) (by omega),
    Bytes.fill_of_mem (by omega) (by omega), Bytes.fill_of_mem (by omega) (by omega)]
  rfl

theorem getWord_write_of_apart {l : List (BitVec 8)} {b : ℕ} (h : b + 4 ≤ a ∨ a + l.length ≤ b) :
    (m.write a l).getWord b = m.getWord b :=
  Bytes.getWord_congr fun k hk => Bytes.write_of_not_mem (by omega)

theorem getWord_ltr_of_apart {b : ℕ} (h : b + 4 ≤ a ∨ a + 8 ≤ b) :
    (ltr m a).getWord b = m.getWord b :=
  Bytes.getWord_congr fun k hk => Function.update_of_ne (by omega) _ m

theorem tssInit_tss (hp : Placed tss) (m : Bytes) : TssOk tss 0 (tssInit tss m) := by
  intro k hk
  have hapart := hp.apart
  unfold tssSize gdtBase at hapart
  have hlen : ∀ b l al ah, (makeGdtDesc b l al ah).bytes.length = 8 := fun _ _ _ _ => rfl
  unfold tssInit
  rw [getWord_ltr_of_apart (by omega), getWord_write_of_apart (by rw [hlen]; omega),
    getWord_write_of_apart (by rw [hlen]; omega),
    getWord_write_of_apart (by rw [hlen]; omega)]
  unfold tssWord
  by_cases h26 : k = 26
  · subst h26
    rw [Bytes.getWord_putWord]
    rfl
  · rw [Bytes.getWord_putWord_of_apart (by omega)]
    by_cases h2 : k = 2
    · subst h2
      rw [Bytes.getWord_putWord]
      rfl
    · rw [Bytes.getWord_putWord_of_apart (by omega), getWord_fill (by omega) (by unfold tssSize; omega),
        if_neg h2, if_neg h26, ite_self]

theorem updateTssEsp0_tss {esp0 : ℕ} (h : TssOk tss esp0 m) (pthread : BitVec 32) :
    TssOk tss (pthread + 4096#32).toNat (updateTssEsp0 tss pthread m) := by
  intro k hk
  unfold updateTssEsp0 tssWord
  by_cases h1 : k = 1
  · subst h1
    rw [Bytes.getWord_putWord, Nat.mod_eq_of_lt (BitVec.isLt _), if_pos rfl]
  · rw [Bytes.getWord_putWord_of_apart (by omega), h k hk, if_neg h1]
    unfold tssWord
    rw [if_neg h1]

/-- The bit map for the ports is the state segment itself. -/
theorem mayUsePort_iff {esp0 port : ℕ} (h : GdtOk tss m) (ht : TssOk tss esp0 m)
    (hport : port < 864) :
    MayUsePort m (descriptor m 0xc0000920) port ↔
      (tssWord esp0 (port / 32)).testBit (port % 32) = false := by
  have hdesc : descriptor m 0xc0000920 = ⟨tss.toNat, 107 * 4096 + 4095, 11, false, 0, true⟩ :=
    h 4 (by omega)
  have hzero : ∀ k, k = 2 ∨ k = 3 → (m (tss.toNat + 100 + k)).toNat = 0 := by
    intro k hk
    apply Nat.eq_of_testBit_eq
    intro j
    rw [Nat.zero_testBit]
    by_cases hj : j < 8
    · rw [← Bytes.testBit_getWord m _ (by omega) hj, ht 25 (by omega)]
      exact Nat.zero_testBit _
    · exact Nat.testBit_lt_two_pow (Nat.lt_of_lt_of_le (m _).isLt
        (Nat.pow_le_pow_right (by omega) (by omega)))
  have hbit := Bytes.testBit_getWord m (tss.toNat + 4 * (port / 32)) (k := port % 32 / 8)
    (j := port % 8) (by omega) (by omega)
  rw [ht _ (by omega), show 8 * (port % 32 / 8) + port % 8 = port % 32 by omega,
    show tss.toNat + 4 * (port / 32) + port % 32 / 8 = tss.toNat + port / 8 by omega] at hbit
  have h102 := hzero 2 (Or.inl rfl)
  have h103 := hzero 3 (Or.inr rfl)
  unfold MayUsePort
  rw [hdesc, hbit]
  dsimp only
  rw [h102, h103]
  simp only [Nat.mul_zero, Nat.add_zero, Nat.zero_add]
  exact and_iff_right (by omega)

/-! ## Runs -/

/-- The kernel gives the processor the stack of another task, or it writes somewhere else. -/
inductive Step (tss : BitVec 32) : Bytes → Bytes → Prop
  | update {m : Bytes} (pthread : BitVec 32) (h : pthread.toNat % 4096 = 0) :
    Step tss m (updateTssEsp0 tss pthread m)
  | other {m m' : Bytes} (hgdt : ∀ i, gdtBase ≤ i → i < gdtBase + 56 → m' i = m i)
    (htss : ∀ i, tss.toNat ≤ i → i < tss.toNat + tssSize → m' i = m i) : Step tss m m'

/-- What holds of the tables in every run. -/
structure Tables (tss : BitVec 32) (m : Bytes) : Prop where
  gdt : GdtOk tss m
  tss : ∃ esp0, esp0 % 4096 = 0 ∧ TssOk tss esp0 m

theorem GdtOk.congr (h : GdtOk tss m) (heq : ∀ i, gdtBase ≤ i → i < gdtBase + 56 → m' i = m i) :
    GdtOk tss m' := by
  intro k hk
  rw [← h k hk]
  exact descriptor_congr fun i hlo hhi => heq i (by omega) (by omega)

theorem Tables.step (hp : Placed tss) (h : Tables tss m) (hstep : Step tss m m') :
    Tables tss m' := by
  obtain ⟨hgdt, esp0, haligned, htss⟩ := h
  cases hstep with
  | update pthread hpage =>
    refine ⟨hgdt.congr fun i hlo hhi => ?_, _, ?_, updateTssEsp0_tss htss pthread⟩
    · have hapart := hp.apart
      unfold tssSize at hapart
      exact Bytes.putWord_of_not_mem (by omega)
    · bv_omega
  | other hgdt' htss' =>
    refine ⟨hgdt.congr hgdt', esp0, haligned, fun k hk => ?_⟩
    rw [← htss k hk]
    exact Bytes.getWord_congr fun j hj => htss' _ (by omega) (by unfold tssSize; omega)

theorem tables_run (hp : Placed tss) (m : Bytes)
    (h : ReflTransGen (Step tss) (tssInit tss (loaderGdt m)) m') : Tables tss m' := by
  induction h with
  | refl => exact ⟨tssInit_gdt hp m, 0, rfl, tssInit_tss hp _⟩
  | tail _ hstep ih => exact ih.step hp hstep

theorem testBit_of_aligned {x i : ℕ} (hx : x % 4096 = 0) (hi : i < 12) : x.testBit i = false := by
  rw [Nat.testBit_eq_decide_div_mod_eq, decide_eq_false_iff_not]
  interval_cases i <;> omega

/-! ## Main results -/

/-- **What a user program can load.**  In every run, into the data segment registers only a null
selector or one of the user data segment, into `ss` only `SELECTOR_U_DATA`; and it can jump to no
code segment but the user code segment. -/
theorem user_selectors (tss : BitVec 32) (hp : Placed tss) (m m' : Bytes)
    (h : ReflTransGen (Step tss) (tssInit tss (loaderGdt m)) m') (sel : BitVec 16) :
    (MayLoadData m' gdtr 3 sel ↔ IsNull sel ∨ sel.toNat / 4 = 12) ∧
      (MayLoadStack m' gdtr 3 sel ↔ sel = selectorUData) ∧
      (MayJump m' gdtr 3 sel ↔ sel.toNat / 4 = 10) :=
  selectors_iff (tables_run hp m h).gdt sel

/-- **Which ports a user program can use.**  `io_base` is meant to deny all ports.  In every run, a
program on the level 3 can use the ports below 44, with the first interrupt controller, and all
ports from 64 to 831 except 68: the timer, the keyboard, the second interrupt controller and both
disk channels. -/
theorem user_ports (tss : BitVec 32) (hp : Placed tss) (m m' : Bytes)
    (h : ReflTransGen (Step tss) (tssInit tss (loaderGdt m)) m') :
    (∀ port < 44, MayUsePort m' (descriptor m' 0xc0000920) port) ∧
      ∀ port, 64 ≤ port → port < 832 →
        (MayUsePort m' (descriptor m' 0xc0000920) port ↔ port ≠ 68) := by
  obtain ⟨hgdt, esp0, haligned, htss⟩ := tables_run hp m h
  refine ⟨fun port hport => ?_, fun port hlo hhi => ?_⟩
  · rw [mayUsePort_iff hgdt htss (by omega)]
    by_cases h32 : port < 32
    · rw [show port / 32 = 0 by omega]
      exact Nat.zero_testBit _
    · rw [show port / 32 = 1 by omega]
      exact testBit_of_aligned haligned (by omega)
  · rw [mayUsePort_iff hgdt htss (by omega)]
    unfold tssWord
    rw [if_neg (by omega), if_neg (show port / 32 ≠ 26 by omega)]
    by_cases h2 : port / 32 = 2
    · have hbits : ∀ j < 32, Nat.testBit 16 j = false ↔ j ≠ 4 := by decide
      rw [if_pos h2, hbits _ (Nat.mod_lt _ (by decide))]
      omega
    · rw [if_neg h2]
      exact iff_of_true (Nat.zero_testBit _) (by omega)

/-- A state segment in the kernel image, and the stack of the main thread. -/
theorem user_ports_boot :
    MayUsePort (updateTssEsp0 0xc0007000#32 0xc009e000#32 (tssInit 0xc0007000#32 (loaderGdt fun _ => 0#8)))
      (descriptor (updateTssEsp0 0xc0007000#32 0xc009e000#32
        (tssInit 0xc0007000#32 (loaderGdt fun _ => 0#8))) 0xc0000920) 0x21 :=
  (user_ports 0xc0007000#32 ⟨Or.inr (by decide), by decide⟩ _ _
    (ReflTransGen.single (Step.update _ (by decide)))).1 _ (by decide)

theorem user_selectors_boot :
    ¬MayLoadData (tssInit 0xc0007000#32 (loaderGdt fun _ => 0#8)) gdtr 3 0x10#16 := by
  rw [(user_selectors 0xc0007000#32 ⟨Or.inr (by decide), by decide⟩ _ _ ReflTransGen.refl
    0x10#16).1]
  decide

end HcOs.Tss
