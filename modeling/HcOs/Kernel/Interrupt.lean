import HcOs.Kernel.Entry
import HcOs.Lib.Segment
import Mathlib.Data.List.Induction

/-!
# The interrupt table (`kernel/interrupt.c`)

`idt_desc_init` makes `0x81` gates, although `kernel.S` has only 48 entries for them: the others get
whatever words come behind `intr_entry_table`.

* `idt_gates`: the gates of the 48 vectors lead to their entries.
* `user_int`: a user program can raise the interrupt `0x80` and no other.
* `vector_dispatch`: a vector reaches the handler that was registered for it last.
-/

namespace HcOs.Interrupt

open HcOs.Lib HcOs.Lib.X86 HcOs.Lib.Segment HcOs.Entry

/-- `IDT_DESC_CNT`. -/
def idtDescCnt : ℕ := 0x81

def idtDescAttrDpl0 : BitVec 8 := 0x8e#8
def idtDescAttrDpl3 : BitVec 8 := 0xee#8

/-- `struct gate_desc`. -/
structure GateDesc where
  funcOffsetLowWord : BitVec 16
  selector : BitVec 16
  dcount : BitVec 8
  attr : BitVec 8
  funcOffsetHighWord : BitVec 16

def GateDesc.bytes (d : GateDesc) : List (BitVec 8) :=
  [d.funcOffsetLowWord.setWidth 8, (d.funcOffsetLowWord >>> 8).setWidth 8, d.selector.setWidth 8,
    (d.selector >>> 8).setWidth 8, d.dcount, d.attr, d.funcOffsetHighWord.setWidth 8,
    (d.funcOffsetHighWord >>> 8).setWidth 8]

/-- `make_idt_desc`. -/
def makeIdtDesc (attr : BitVec 8) (function : BitVec 32) : GateDesc where
  funcOffsetLowWord := (function &&& 0x0000ffff#32).setWidth 16
  selector := selectorKCode
  dcount := 0#8
  attr
  funcOffsetHighWord := ((function &&& 0xffff0000#32) >>> 16).setWidth 16

/-- Where the linker puts the tables. -/
structure Layout where
  idt : ℕ
  intrEntryTable : ℕ
  intrName : BitVec 32
  idtTable : BitVec 32
  generalIntrHandler : BitVec 32
  syscallHandler : BitVec 32
  /-- `"unknow"` -/
  unknow : BitVec 32
  /-- The other strings of `exception_init`. -/
  exceptionName : ℕ → BitVec 32

variable (l : Layout)

/-- The loop of `idt_desc_init`, from `i` on. -/
def idtDescLoop : ℕ → ℕ → Bytes → Bytes
  | 0, _, m => m
  | fuel + 1, i, m =>
    if i < idtDescCnt then
      idtDescLoop fuel (i + 1) (m.write (l.idt + 8 * i)
        (makeIdtDesc idtDescAttrDpl0 (BitVec.ofNat 32 (m.getWord (l.intrEntryTable + 4 * i)))).bytes)
    else m

/-- `idt_desc_init`. -/
def idtDescInit (m : Bytes) : Bytes :=
  let lastindex := idtDescCnt - 1
  let m := idtDescLoop l idtDescCnt 0 m
  m.write (l.idt + 8 * lastindex) (makeIdtDesc idtDescAttrDpl3 l.syscallHandler).bytes

/-- An entry of a table of pointers. -/
def entry (table : BitVec 32) (i : ℕ) : BitVec 32 := table + BitVec.ofNat 32 (4 * i)

/-- The loop of `exception_init`, from `i` on. -/
def exceptionLoop : ℕ → ℕ → Bytes → Bytes
  | 0, _, m => m
  | fuel + 1, i, m =>
    if i < idtDescCnt then
      let m := store m (entry l.idtTable i) l.generalIntrHandler
      exceptionLoop fuel (i + 1) (store m (entry l.intrName i) l.unknow)
    else m

/-- The exceptions that `exception_init` gives a name; 15 is reserved. -/
def named : List ℕ := [0, 1, 2, 3, 4, 5, 6, 7, 8, 9, 10, 11, 12, 13, 14, 16, 17, 18, 19]

/-- `exception_init`. -/
def exceptionInit (m : Bytes) : Bytes :=
  named.foldl (fun m v => store m (entry l.intrName v) (l.exceptionName v))
    (exceptionLoop l idtDescCnt 0 m)

/-- `register_handler`; the number is any byte. -/
def registerHandler (m : Bytes) (vectorNo : BitVec 8) (function : BitVec 32) : Bytes :=
  store m (entry l.idtTable vectorNo.toNat) function

/-- The operand of `lidt`. -/
def idtr : Gdtr := ⟨l.idt, 8 * idtDescCnt - 1⟩

/-- The entries of `kernel.S` are not in the table that is made from them, and the two tables of
pointers do not overlap; behind `idt_table` there is room for all numbers of a byte. -/
structure Apart : Prop where
  entries : l.intrEntryTable + 4 * 48 ≤ l.idt ∨ l.idt + 8 * idtDescCnt ≤ l.intrEntryTable
  names : l.intrName.toNat + 4 * idtDescCnt ≤ l.idtTable.toNat ∨
    l.idtTable.toNat + 4 * idtDescCnt ≤ l.intrName.toNat
  idtTable : l.idtTable.toNat + 4 * 256 ≤ 2 ^ 32
  intrName : l.intrName.toNat + 4 * 256 ≤ 2 ^ 32

variable {l} {m m' : Bytes} {a : ℕ}

/-- The gate of a handler. -/
def described (attr : BitVec 8) (function : ℕ) : Gate where
  offset := function
  selector := 8
  type := attr.toNat % 32
  dpl := attr.toNat / 32 % 4
  present := attr.toNat.testBit 7

theorem makeIdtDesc_bytes (attr : BitVec 8) (function : BitVec 32) :
    (makeIdtDesc attr function).bytes.map BitVec.toNat =
      [function.toNat % 256, function.toNat / 256 % 256, 8, 0, 0, attr.toNat,
        function.toNat / 65536 % 256, function.toNat / 16777216] := by
  have hf := function.isLt
  have hlow : (function &&& 0x0000ffff#32).toNat = function.toNat / 2 ^ 0 % 2 ^ 16 * 2 ^ 0 := by
    rw [BitVec.toNat_and]
    exact and_mask _ 16 0
  have hhigh : (function &&& 0xffff0000#32).toNat = function.toNat / 2 ^ 16 % 2 ^ 16 * 2 ^ 16 := by
    rw [BitVec.toNat_and]
    exact and_mask _ 16 16
  simp only [GateDesc.bytes, makeIdtDesc, List.map_cons, List.map_nil, BitVec.toNat_setWidth,
    BitVec.toNat_ushiftRight, hlow, hhigh, Nat.shiftRight_eq_div_pow, selectorKCode]
  simp only [List.cons.injEq, and_true, true_and, BitVec.toNat_ofNat]
  omega

/-- **Round trip of a gate.** -/
theorem makeIdtDesc_roundTrip (m : Bytes) (a : ℕ) (attr : BitVec 8) (function : BitVec 32) :
    gate (m.write a (makeIdtDesc attr function).bytes) a = described attr function.toNat := by
  have hf := function.isLt
  have hbytes := makeIdtDesc_bytes attr function
  have hlen : (makeIdtDesc attr function).bytes.length = 8 := rfl
  have hbyte : ∀ i, i < 8 → (m.write a (makeIdtDesc attr function).bytes (a + i)).toNat =
      ((makeIdtDesc attr function).bytes.map BitVec.toNat).getD i 0 := by
    intro i hi
    rw [Bytes.write_of_mem (Nat.le_add_right a i) (by rw [hlen]; omega), Nat.add_sub_cancel_left]
    show _ = (List.map BitVec.toNat _).getD i (BitVec.toNat 0#8)
    rw [List.getD_map]
    rfl
  rw [hbytes] at hbyte
  have h0 := hbyte 0 (by omega)
  rw [Nat.add_zero] at h0
  unfold gate described
  rw [h0, hbyte 1 (by omega), hbyte 2 (by omega), hbyte 3 (by omega), hbyte 5 (by omega),
    hbyte 6 (by omega), hbyte 7 (by omega)]
  simp only [List.getD_cons_zero, List.getD_cons_succ]
  congr 1
  omega

/-! ## The table -/

theorem idtDescLoop_frame (fuel i : ℕ) {j : ℕ}
    (hj : j < l.idt + 8 * i ∨ l.idt + 8 * idtDescCnt ≤ j) :
    idtDescLoop l fuel i m j = m j := by
  induction fuel generalizing i m with
  | zero => rfl
  | succ fuel ih =>
    rw [idtDescLoop]
    split_ifs with hi
    · rw [ih (i + 1) (by omega)]
      exact Bytes.write_of_not_mem (by
        change _ ∨ _ + 8 ≤ j
        omega)
    · rfl

/-- The gate that the loop makes, from the word that it finds when it comes there. -/
theorem idtDescLoop_gate (fuel i : ℕ) {n : ℕ} (hi : i ≤ n) (hn : n < i + fuel)
    (hcnt : n < idtDescCnt) :
    gate (idtDescLoop l fuel i m) (l.idt + 8 * n) = described idtDescAttrDpl0
      ((idtDescLoop l (n - i) i m).getWord (l.intrEntryTable + 4 * n)) := by
  induction fuel generalizing i m with
  | zero => omega
  | succ fuel ih =>
    rw [idtDescLoop, if_pos (by omega)]
    rcases Nat.eq_or_lt_of_le hi with rfl | hlt
    · rw [Nat.sub_self, idtDescLoop, gate_congr fun j _ hj =>
          idtDescLoop_frame fuel (i + 1) (Or.inl (by omega)),
        makeIdtDesc_roundTrip, BitVec.toNat_ofNat, Nat.mod_eq_of_lt (Bytes.getWord_lt _ _)]
    · rw [ih (i + 1) hlt (by omega)]
      obtain ⟨k, hk⟩ := Nat.exists_eq_add_of_lt hlt
      rw [show n - (i + 1) = k by omega, show n - i = k + 1 by omega,
        idtDescLoop.eq_2, if_pos (by omega)]

/-- All gates but the last one are for the kernel alone. -/
theorem idtDescInit_gate {n : ℕ} (hn : n < 0x80) :
    gate (idtDescInit l m) (l.idt + 8 * n) = described idtDescAttrDpl0
      ((idtDescLoop l n 0 m).getWord (l.intrEntryTable + 4 * n)) := by
  have hlast : ∀ j, l.idt + 8 * n ≤ j → j < l.idt + 8 * n + 8 →
      idtDescInit l m j = idtDescLoop l idtDescCnt 0 m j := fun j _ hj =>
    Bytes.write_of_not_mem (Or.inl (by unfold idtDescCnt; omega))
  rw [gate_congr hlast, idtDescLoop_gate idtDescCnt 0 (Nat.zero_le n)
    (by unfold idtDescCnt; omega) (by unfold idtDescCnt; omega), Nat.sub_zero]

theorem idtDescInit_last :
    gate (idtDescInit l m) (l.idt + 8 * 0x80) =
      described idtDescAttrDpl3 l.syscallHandler.toNat :=
  makeIdtDesc_roundTrip _ _ _ _

/-- The gate of a vector that `kernel.S` has an entry for leads to that entry. -/
theorem idt_gates (h : Apart l) {n : ℕ} (hn : n < 48) :
    gate (idtDescInit l m) (l.idt + 8 * n) =
      described idtDescAttrDpl0 (m.getWord (l.intrEntryTable + 4 * n)) := by
  rw [idtDescInit_gate (by omega), Bytes.getWord_congr fun j hj => idtDescLoop_frame n 0 ?_]
  have hentries := h.entries
  omega

/-- **`int` from a user program.**  As long as nothing writes to the table, a program on the level 3
can raise the interrupt of the system calls and no other; also not one of those whose gate was made
from what lies behind `intr_entry_table`.  The gate is an interrupt gate to `syscall_handler` in the
kernel's code segment. -/
theorem user_int (l : Layout) (m m' : Bytes)
    (hsame : ∀ i, l.idt ≤ i → i < l.idt + 8 * idtDescCnt → m' i = idtDescInit l m i) :
    (∀ n, MayInt m' (idtr l) 3 n ↔ n = 0x80) ∧
      gate m' (l.idt + 8 * 0x80) = ⟨l.syscallHandler.toNat, selectorKCode.toNat, 14, 3, true⟩ := by
  have hcnt : idtDescCnt = 0x81 := rfl
  have hgate : ∀ n, n ≤ 0x80 → gate m' (l.idt + 8 * n) = gate (idtDescInit l m) (l.idt + 8 * n) :=
    fun n hn => gate_congr fun i hi hi' => hsame i (by omega) (by omega)
  have hlast : gate m' (l.idt + 8 * 0x80) = described idtDescAttrDpl3 l.syscallHandler.toNat :=
    (hgate 0x80 (Nat.le_refl _)).trans idtDescInit_last
  refine ⟨fun n => ?_, hlast⟩
  constructor
  · rintro ⟨hlimit, -, hdpl⟩
    have hn : n ≤ 0x80 := by
      change n * 8 + 7 ≤ 8 * idtDescCnt - 1 at hlimit
      omega
    rcases Nat.eq_or_lt_of_le hn with heq | hlt
    · exact heq
    · change 3 ≤ (gate m' (l.idt + n * 8)).dpl at hdpl
      rw [Nat.mul_comm n 8, hgate n hn, idtDescInit_gate hlt] at hdpl
      exact absurd hdpl (Nat.not_succ_le_zero 2)
  · rintro rfl
    refine ⟨?_, ?_, ?_⟩
    · change 0x80 * 8 + 7 ≤ 8 * idtDescCnt - 1
      omega
    · change (gate m' (l.idt + 8 * 0x80)).present = true
      rw [hlast]
      rfl
    · change 3 ≤ (gate m' (l.idt + 8 * 0x80)).dpl
      rw [hlast]
      exact Nat.le_refl 3

/-- The tables of a kernel at 0xc0003000. -/
def sampleLayout : Layout where
  idt := 0xc0006000
  intrEntryTable := 0xc0003000
  intrName := 0xc0006800#32
  idtTable := 0xc0004000#32
  generalIntrHandler := 0xc0001200#32
  syscallHandler := 0xc0001580#32
  unknow := 0xc0002000#32
  exceptionName v := 0xc0002010#32 + BitVec.ofNat 32 (32 * v)

theorem user_int_write :
    MayInt (idtDescInit sampleLayout fun _ => 0#8) (idtr sampleLayout) 3 0x80 ∧
      (gate (idtDescInit sampleLayout fun _ => 0#8) (0xc0006000 + 8 * 0x80)).offset =
        0xc0001580 := by
  obtain ⟨hint, hgate⟩ := user_int sampleLayout (fun _ => 0#8) _ (fun _ _ _ => rfl)
  exact ⟨(hint 0x80).mpr rfl, congrArg Gate.offset hgate⟩

/-! ## The handlers -/

/-- The handler that was registered last. -/
def handlerOf (l : Layout) (v : ℕ) (regs : List (BitVec 8 × BitVec 32)) : BitVec 32 :=
  regs.foldl (fun f r => if r.1.toNat = v then r.2 else f) l.generalIntrHandler

theorem entry_toNat {table : BitVec 32} {i : ℕ} (h : table.toNat + 4 * 256 ≤ 2 ^ 32)
    (hi : i < 256) : (entry table i).toNat = table.toNat + 4 * i := by
  unfold entry
  bv_omega

theorem load_store_of_apart {x y w : BitVec 32} (h : x.toNat + 4 ≤ y.toNat ∨ y.toNat + 4 ≤ x.toNat) :
    load (store m y w) x = load m x :=
  load_congr fun _ _ _ => store_of_apart (by omega)

/-- A name is not stored in `idt_table`. -/
theorem load_name (h : Apart l) {v i : ℕ} (hv : v < idtDescCnt) (hi : i < idtDescCnt)
    (name : BitVec 32) :
    load (store m (entry l.intrName i) name) (entry l.idtTable v) = load m (entry l.idtTable v) := by
  have hnames := h.names
  unfold idtDescCnt at hv hi hnames
  refine load_store_of_apart ?_
  rw [entry_toNat h.idtTable (by omega), entry_toNat h.intrName (by omega)]
  omega

/-- A pointer is stored in its own entry. -/
theorem load_handler (h : Apart l) {v i : ℕ} (hv : v < 256) (hi : i < 256) (f : BitVec 32) :
    load (store m (entry l.idtTable i) f) (entry l.idtTable v) =
      if i = v then f else load m (entry l.idtTable v) := by
  split_ifs with heq
  · subst heq
    exact load_store _ _ _
  · refine load_store_of_apart ?_
    rw [entry_toNat h.idtTable hv, entry_toNat h.idtTable hi]
    omega

theorem exceptionLoop_load (h : Apart l) (fuel i : ℕ) {v : ℕ} (hv : v < idtDescCnt)
    (hfuel : idtDescCnt ≤ i + fuel) :
    load (exceptionLoop l fuel i m) (entry l.idtTable v) =
      if i ≤ v then l.generalIntrHandler else load m (entry l.idtTable v) := by
  induction fuel generalizing i m with
  | zero => rw [exceptionLoop, if_neg (by omega)]
  | succ fuel ih =>
    rw [exceptionLoop]
    split_ifs with hi hle hle
    · rw [ih (i + 1) (by omega)]
      split_ifs with hlt
      · rfl
      · have heq : i = v := by omega
        rw [load_name h hv hi, heq]
        exact load_store _ _ _
    · rw [ih (i + 1) (by omega), if_neg (by omega), load_name h hv hi,
        load_handler h (by unfold idtDescCnt at hv; omega) (by unfold idtDescCnt at hi; omega),
        if_neg (by omega)]
    · omega
    · rfl

theorem exceptionInit_load (h : Apart l) {v : ℕ} (hv : v < idtDescCnt) :
    load (exceptionInit l m) (entry l.idtTable v) = l.generalIntrHandler := by
  have hnames : ∀ (vs : List ℕ) (m : Bytes), (∀ i ∈ vs, i < idtDescCnt) →
      load (vs.foldl (fun m v => store m (entry l.intrName v) (l.exceptionName v)) m)
        (entry l.idtTable v) = load m (entry l.idtTable v) := by
    intro vs
    induction vs with
    | nil => exact fun _ _ => rfl
    | cons i vs ih =>
      intro m hvs
      rw [List.foldl_cons, ih _ fun j hj => hvs j (List.mem_cons_of_mem i hj),
        load_name h hv (hvs i List.mem_cons_self)]
  unfold exceptionInit
  rw [hnames named _ (by decide), exceptionLoop_load h idtDescCnt 0 hv (by omega),
    if_pos (Nat.zero_le v)]

/-- One step of the registrations. -/
theorem registerHandler_load (h : Apart l) (vectorNo : BitVec 8) (f : BitVec 32) {v : ℕ}
    (hv : v < 256) : load (registerHandler l m vectorNo f) (entry l.idtTable v) =
      if vectorNo.toNat = v then f else load m (entry l.idtTable v) :=
  load_handler h hv vectorNo.isLt f

theorem register_run (h : Apart l) (regs : List (BitVec 8 × BitVec 32)) {v : ℕ}
    (hv : v < idtDescCnt) :
    load (regs.foldl (fun m r => registerHandler l m r.1 r.2) (exceptionInit l m))
      (entry l.idtTable v) = handlerOf l v regs := by
  induction regs using List.reverseRecOn with
  | nil =>
    unfold handlerOf
    rw [List.foldl_nil, List.foldl_nil]
    exact exceptionInit_load h hv
  | append_singleton regs r ih =>
    unfold handlerOf at ih ⊢
    rw [List.foldl_append, List.foldl_append, List.foldl_cons, List.foldl_nil, List.foldl_cons,
      List.foldl_nil, registerHandler_load h r.1 r.2 (by unfold idtDescCnt at hv; omega), ih]

/-- **The way of a vector to its handler.**  After any registrations, the numbers that are too
large for `idt_table` included, the stub of a vector calls the handler that was registered for it
last, and `general_intr_handler` if there is none. -/
theorem vector_dispatch (l : Layout) (h : Apart l) (regs : List (BitVec 8 × BitVec 32)) (m : Bytes)
    (k : Kernel) (hk : k.idtTable = l.idtTable) (c : Cpu) (v : ℕ) (hv : v < idtDescCnt)
    (err : Option (BitVec 32))
    (hmem : ∀ i, l.idtTable.toNat ≤ i → i < l.idtTable.toNat + 4 * idtDescCnt →
      c.mem i = regs.foldl (fun m r => registerHandler l m r.1 r.2) (exceptionInit l m) i)
    (hroom : 88 ≤ ((k.base c).gpr .esp).toNat)
    (hstack : l.idtTable.toNat + 4 * idtDescCnt + 88 ≤ ((k.base c).gpr .esp).toNat ∨
      ((k.base c).gpr .esp).toNat ≤ l.idtTable.toNat) :
    (k.enter (.vector v err) c).eip = handlerOf l v regs := by
  obtain ⟨dummy, a, hent⟩ := enter_vector k v err hroom
  have htop := hent.top
  have hlen := vectorWords_length k v err dummy c
  have hv' : v < 0x81 := hv
  have hentry : (entry l.idtTable v).toNat = l.idtTable.toNat + 4 * v :=
    entry_toNat h.idtTable (by omega)
  have hk' : k.idtTable + BitVec.ofNat 32 (4 * v) = entry l.idtTable v := by rw [hk]; rfl
  unfold idtDescCnt at hmem hstack
  rw [vector_target hent (by rw [hk', hentry]; omega), hk', ← register_run h regs hv]
  exact load_congr fun i hlo hhi => hmem i (by omega) (by omega)

theorem sampleLayout_apart : Apart sampleLayout where
  entries := Or.inl (by decide)
  names := Or.inr (by decide)
  idtTable := by decide
  intrName := by decide

/-- The clock. -/
theorem vector_dispatch_timer :
    ∃ c : Cpu, (sampleKernel.enter (.vector 0x20 none) c).eip = 0xc0001700#32 :=
  ⟨{ sampleProgram with
      mem := [(0x20#8, 0xc0001700#32)].foldl (fun m r => registerHandler sampleLayout m r.1 r.2)
        (exceptionInit sampleLayout fun _ => 0#8) },
    vector_dispatch sampleLayout sampleLayout_apart [(0x20#8, 0xc0001700#32)] (fun _ => 0#8)
      sampleKernel rfl _ 0x20 (by decide) none (fun _ _ _ => rfl) (by decide) (Or.inl (by decide))⟩

end HcOs.Interrupt
