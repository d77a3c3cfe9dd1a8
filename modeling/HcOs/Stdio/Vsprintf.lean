import HcOs.Lib.Numeral
import HcOs.Stdio.CString

/-!
# `vsprintf` (`lib/stdio.c`, `lib/stdio.h`)

The format, the arguments and the buffer are places of one memory, as in the code: `va_list` points
to the last argument taken, `%s` copies from wherever its argument points to, and the characters of
the format are read while the buffer is written.

An `Item` is a character of the format, or a directive with its argument.  A call with a list of
items writes their texts one after the other (`vsprintfLoop_eq`), and a 0 behind the last one only
if that is a `%s`.

* `iToA_eq`: `i_to_a` writes the numeral of its argument.
* `vsprintf_formats`: into a buffer of zeros, `vsprintf` writes exactly what it should.
-/

namespace HcOs.Stdio

open HcOs.Lib

/-! ## `i_to_a` -/

/-- The character of a digit. -/
def digitChar (m : ℕ) : BitVec 8 :=
  if m < 10 then BitVec.ofNat 8 (m + 0x30) else BitVec.ofNat 8 (m - 10 + 0x41)

/-- `i_to_a`, by the memory and the pointer it leaves. -/
def iToA : ℕ → Bytes → ℕ → ℕ → ℕ → Except Halt (Bytes × ℕ)
  | 0, _, _, _, _ => .error .noReturn
  | depth + 1, mem, bufPtr, value, base => do
    let m := value % base
    let i := value / base
    let (mem, bufPtr) ← (if i ≠ 0 then iToA depth mem bufPtr i base else .ok (mem, bufPtr) :
      Except Halt (Bytes × ℕ))
    .ok (Function.update mem bufPtr (digitChar m), bufPtr + 1)

/-! ## `vsprintf` -/

/-- The loop of `vsprintf`. -/
def vsprintfLoop : ℕ → Bytes → ℕ → BitVec 8 → ℕ → ℕ → Except Halt Bytes
  | 0, _, _, _, _, _ => .error .noReturn
  | fuel + 1, mem, indexPtr, indexChar, bufPtr, ap =>
    if indexChar = 0#8 then .ok mem
    else if indexChar ≠ 0x25#8 then
      let mem := Function.update mem bufPtr indexChar
      vsprintfLoop fuel mem (indexPtr + 1) (mem (indexPtr + 1)) (bufPtr + 1) ap
    else
      let indexPtr := indexPtr + 1
      let indexChar := mem indexPtr
      -- `case 's'`
      if indexChar = 0x73#8 then do
        let ap := ap + 4
        let argStr := mem.getWord ap
        let mem ← strcpy mem bufPtr argStr
        let len ← strlen mem argStr
        vsprintfLoop fuel mem (indexPtr + 1) (mem (indexPtr + 1)) (bufPtr + len) ap
      -- `case 'c'`
      else if indexChar = 0x63#8 then
        let ap := ap + 4
        let mem := Function.update mem bufPtr (mem ap)
        vsprintfLoop fuel mem (indexPtr + 1) (mem (indexPtr + 1)) (bufPtr + 1) ap
      -- `case 'd'`
      else if indexChar = 0x64#8 then do
        let ap := ap + 4
        let argInt := BitVec.ofNat 32 (mem.getWord ap)
        let neg := argInt.slt 0#32
        let mem' := if neg then Function.update mem bufPtr 0x2d#8 else mem
        let bufPtr' := if neg then bufPtr + 1 else bufPtr
        let argInt' := if neg then 0#32 - argInt else argInt
        let (mem, bufPtr) ← iToA 32 mem' bufPtr' argInt'.toNat 10
        vsprintfLoop fuel mem (indexPtr + 1) (mem (indexPtr + 1)) bufPtr ap
      -- `case 'x'`
      else if indexChar = 0x78#8 then do
        let ap := ap + 4
        let argInt := BitVec.ofNat 32 (mem.getWord ap)
        let (mem, bufPtr) ← iToA 32 mem bufPtr argInt.toNat 16
        vsprintfLoop fuel mem (indexPtr + 1) (mem (indexPtr + 1)) bufPtr ap
      -- no other case: the character is left to the next pass
      else vsprintfLoop fuel mem indexPtr indexChar bufPtr ap

/-- `vsprintf`, by the memory it leaves and the length it returns. -/
def vsprintf (mem : Bytes) (str format ap : ℕ) : Except Halt (Bytes × ℕ) := do
  let mem ← vsprintfLoop (2 ^ 32) mem format (mem format) str ap
  let len ← strlen mem str
  .ok (mem, len)

/-! ## Formats and their arguments -/

/-- A character of the format, or a directive with its argument. -/
inductive Item where
  | lit (c : BitVec 8)
  | str (s : List (BitVec 8))
  | chr (c : BitVec 8)
  | dec (w : BitVec 32)
  | hex (w : BitVec 32)
deriving DecidableEq

/-- The numeral of a number. -/
def numText (base n : ℕ) : List (BitVec 8) := (numeral base n).map digitChar

/-- The signed decimal numeral. -/
def decimal (w : BitVec 32) : List (BitVec 8) :=
  if w.toInt < 0 then 0x2d#8 :: numText 10 w.toInt.natAbs else numText 10 w.toInt.natAbs

namespace Item

/-- How the item stands in the format. -/
def spec : Item → List (BitVec 8)
  | .lit c => [c]
  | .str _ => [0x25#8, 0x73#8]
  | .chr _ => [0x25#8, 0x63#8]
  | .dec _ => [0x25#8, 0x64#8]
  | .hex _ => [0x25#8, 0x78#8]

/-- What the item stands for. -/
def text : Item → List (BitVec 8)
  | .lit c => [c]
  | .str s => s
  | .chr c => [c]
  | .dec w => decimal w
  | .hex w => numText 16 w.toNat

/-- A literal character is neither the end of the format nor the beginning of a directive. -/
def Ok : Item → Prop
  | .lit c => c ≠ 0#8 ∧ c ≠ 0x25#8
  | _ => True

instance : DecidablePred Ok
  | .lit c => inferInstanceAs (Decidable (c ≠ 0#8 ∧ c ≠ 0x25#8))
  | .str _ | .chr _ | .dec _ | .hex _ => inferInstanceAs (Decidable True)

end Item

/-- The format string. -/
def formatOf (items : List Item) : List (BitVec 8) := items.flatMap Item.spec

/-- The concatenation of the literal characters and of the arguments. -/
def textOf (items : List Item) : List (BitVec 8) := items.flatMap Item.text

/-- The address is not in the buffer of `size` bytes at `str`. -/
def Outside (str size i : ℕ) : Prop := i < str ∨ str + size ≤ i

instance (str size i : ℕ) : Decidable (Outside str size i) :=
  inferInstanceAs (Decidable (i < str ∨ str + size ≤ i))

/-- The argument of a directive, in the place `ap` of the stack. -/
def ArgAt (mem : Bytes) (str size ap : ℕ) : Item → Prop
  | .lit _ => True
  | .str s => mem.getWord ap ≠ 0 ∧ mem.IsStr (mem.getWord ap) s ∧
      mem.getWord ap + s.length < 2 ^ 32 ∧ ∀ i ≤ s.length, Outside str size (mem.getWord ap + i)
  | .chr c => mem ap = c
  | .dec w | .hex w => mem.getWord ap = w.toNat

instance (mem : Bytes) (str size ap : ℕ) : DecidablePred (ArgAt mem str size ap)
  | .lit _ => inferInstanceAs (Decidable True)
  | .str s => inferInstanceAs (Decidable (mem.getWord ap ≠ 0 ∧ mem.IsStr (mem.getWord ap) s ∧
      mem.getWord ap + s.length < 2 ^ 32 ∧ ∀ i ≤ s.length, Outside str size (mem.getWord ap + i)))
  | .chr c => inferInstanceAs (Decidable (mem ap = c))
  | .dec w | .hex w => inferInstanceAs (Decidable (mem.getWord ap = w.toNat))

/-- The arguments follow each other behind `ap`, in the order of the directives. -/
def ArgsAt (mem : Bytes) (str size : ℕ) : ℕ → List Item → Prop
  | _, [] => True
  | ap, .lit _ :: items => ArgsAt mem str size ap items
  | ap, item :: items => (∀ i < 4, Outside str size (ap + 4 + i)) ∧
      ArgAt mem str size (ap + 4) item ∧ ArgsAt mem str size (ap + 4) items

instance decidableArgsAt (mem : Bytes) (str size : ℕ) :
    (ap : ℕ) → (items : List Item) → Decidable (ArgsAt mem str size ap items)
  | _, [] => inferInstanceAs (Decidable True)
  | ap, .lit _ :: items => decidableArgsAt mem str size ap items
  | ap, .str _ :: items | ap, .chr _ :: items | ap, .dec _ :: items | ap, .hex _ :: items =>
    have := decidableArgsAt mem str size (ap + 4) items
    inferInstanceAs (Decidable (_ ∧ _ ∧ _))

/-- A call of `vsprintf` with a buffer that is large enough; the format and the arguments are
elsewhere. -/
structure IsCall (mem : Bytes) (str size format ap : ℕ) (items : List Item) : Prop where
  notNull : str ≠ 0
  inSpace : str + size ≤ 2 ^ 32
  fits : (textOf items).length < size
  ok : ∀ item ∈ items, item.Ok
  isFormat : mem.IsStr format (formatOf items)
  formatInSpace : format + (formatOf items).length < 2 ^ 32
  formatOutside : ∀ i ≤ (formatOf items).length, Outside str size (format + i)
  args : ArgsAt mem str size ap items

/-! ## Numerals -/

variable {mem mem' : Bytes} {str size format ap bufPtr ip : ℕ} {items : List Item} {item : Item}

theorem iToA_eq (depth : ℕ) {value base : ℕ} (hbase : 1 < base) (hvalue : value < 2 ^ (depth + 1)) :
    iToA (depth + 1) mem bufPtr value base =
      .ok (mem.write bufPtr (numText base value), bufPtr + (numText base value).length) := by
  induction depth generalizing value with
  | zero =>
    have hlt : value < base := by omega
    rw [iToA, Nat.div_eq_of_lt hlt, if_neg (not_not_intro rfl), ok_bind, numText,
      numeral_of_lt hlt, Nat.mod_eq_of_lt hlt, List.map_singleton, Bytes.write_singleton]
    rfl
  | succ depth ih =>
    rw [iToA]
    dsimp only
    by_cases hlt : value < base
    · rw [Nat.div_eq_of_lt hlt, if_neg (not_not_intro rfl), ok_bind, numText,
        numeral_of_lt hlt, Nat.mod_eq_of_lt hlt, List.map_singleton, Bytes.write_singleton]
      rfl
    · have hdiv : value / base < 2 ^ (depth + 1) := by
        rw [Nat.div_lt_iff_lt_mul (by omega)]
        calc value < 2 ^ (depth + 1) * 2 := by rw [← Nat.pow_succ]; exact hvalue
          _ ≤ 2 ^ (depth + 1) * base := Nat.mul_le_mul_left _ hbase
      have hne : value / base ≠ 0 := Nat.ne_of_gt (Nat.div_pos (by omega) (by omega))
      rw [if_pos hne, ih hdiv, ok_bind]
      simp only [numText]
      rw [numeral_of_le hbase (Nat.not_lt.mp hlt), List.map_append, List.length_append,
        ← Bytes.write_append, List.map_singleton, Bytes.write_singleton, List.length_singleton,
        Nat.add_assoc]

theorem digitChar_ne_zero {m : ℕ} (h : m < 16) : digitChar m ≠ 0#8 := by
  revert m
  decide

theorem zero_not_mem_numText {base : ℕ} (hlo : 1 < base) (hhi : base ≤ 16) (n : ℕ) :
    0#8 ∉ numText base n := by
  intro h
  obtain ⟨d, hd, hzero⟩ := List.mem_map.mp h
  exact digitChar_ne_zero (Nat.lt_of_lt_of_le (lt_of_mem_numeral hlo hd) hhi) hzero

theorem numText_ne_nil {base : ℕ} (hlo : 1 < base) (n : ℕ) : numText base n ≠ [] := by
  intro h
  exact numeral_ne_nil hlo n (List.map_eq_nil_iff.mp h)

/-- Negation, also at the edge of the range. -/
theorem natAbs_of_neg (w : BitVec 32) (h : w.toInt < 0) : w.toInt.natAbs = (0#32 - w).toNat := by
  rw [BitVec.toInt_eq_toNat_cond] at h ⊢
  split at h
  · omega
  · next hge =>
    rw [if_neg hge]
    have := w.isLt
    simp only [BitVec.toNat_sub, BitVec.toNat_ofNat]
    omega

theorem natAbs_of_nonneg (w : BitVec 32) (h : ¬w.toInt < 0) : w.toInt.natAbs = w.toNat := by
  rw [BitVec.toInt_eq_toNat_cond] at h ⊢
  split at h
  · next hlt => rw [if_pos hlt, Int.natAbs_natCast]
  · have := w.isLt
    omega

/-! ## A pass of the loop -/

namespace Item

/-- The bytes that the item writes: `strcpy` puts a 0 behind its string. -/
def out : Item → List (BitVec 8)
  | .str s => s ++ [0#8]
  | item => item.text

/-- The arguments that the item takes. -/
def slots : Item → ℕ
  | .lit _ => 0
  | _ => 1

theorem length_out_le (item : Item) : item.out.length ≤ item.text.length + 1 := by
  cases item with
  | str s => exact Nat.le_of_eq (List.length_append)
  | _ => exact Nat.le_succ _

end Item

/-- The bytes that all items write. -/
def outOf : List Item → List (BitVec 8)
  | [] => []
  | [item] => item.out
  | item :: item' :: items => item.text ++ outOf (item' :: items)

/-- Writing to the buffer leaves everything else as it is. -/
theorem write_same {l : List (BitVec 8)} (hlo : str ≤ bufPtr) (hhi : bufPtr + l.length ≤ str + size)
    (i : ℕ) (hi : Outside str size i) : mem.write bufPtr l i = mem i := by
  unfold Outside at hi
  exact Bytes.write_of_not_mem (by omega)

theorem getWord_same (hsame : ∀ i, Outside str size i → mem' i = mem i)
    (hout : ∀ i < 4, Outside str size (ap + i)) : mem'.getWord ap = mem.getWord ap :=
  Bytes.getWord_congr fun k hk => hsame _ (hout k hk)

theorem isStr_same {s : List (BitVec 8)} (hsame : ∀ i, Outside str size i → mem' i = mem i)
    (hout : ∀ i ≤ s.length, Outside str size (ap + i)) (h : mem.IsStr ap s) : mem'.IsStr ap s :=
  h.congr fun i hlo hhi => hsame i (by
    have := hout (i - ap) (by omega)
    rwa [Nat.add_sub_cancel' hlo] at this)

theorem argAt_same (hsame : ∀ i, Outside str size i → mem' i = mem i)
    (hout : ∀ i < 4, Outside str size (ap + i)) (h : ArgAt mem str size ap item) :
    ArgAt mem' str size ap item := by
  cases item with
  | lit c => trivial
  | str s =>
    obtain ⟨hnull, hstr, hspace, hs⟩ := h
    unfold ArgAt
    rw [getWord_same hsame hout]
    exact ⟨hnull, isStr_same hsame hs hstr, hspace, hs⟩
  | chr c => exact (hsame ap (hout 0 (by decide))).trans h
  | dec w | hex w => exact (getWord_same hsame hout).trans h

theorem argsAt_same (hsame : ∀ i, Outside str size i → mem' i = mem i)
    (h : ArgsAt mem str size ap items) : ArgsAt mem' str size ap items := by
  induction items generalizing ap with
  | nil => trivial
  | cons item items ih =>
    cases item with
    | lit c => exact @ih ap h
    | _ =>
      obtain ⟨hout, harg, hargs⟩ := h
      exact ⟨hout, argAt_same hsame hout harg, ih hargs⟩

/-- What a pass finds at its item. -/
structure Reads (mem : Bytes) (str size ip ap : ℕ) (item : Item) : Prop where
  ok : item.Ok
  spec : ∀ i < item.spec.length, mem (ip + i) = item.spec.getD i 0
  specOutside : ∀ i ≤ item.spec.length, Outside str size (ip + i)
  arg : ArgAt mem str size (ap + 4) item

/-- **A pass of the loop.**  The item is written, and the next pass begins behind it. -/
theorem vsprintfLoop_pass (fuel : ℕ) (h : Reads mem str size ip ap item) (hnull : bufPtr ≠ 0)
    (hspace : str + size ≤ 2 ^ 32) (hlo : str ≤ bufPtr)
    (hhi : bufPtr + item.text.length < str + size) :
    vsprintfLoop (fuel + 1) mem ip (mem ip) bufPtr ap =
      vsprintfLoop fuel (mem.write bufPtr item.out) (ip + item.spec.length)
        (mem.write bufPtr item.out (ip + item.spec.length)) (bufPtr + item.text.length)
        (ap + 4 * item.slots) := by
  have hfirst := h.spec 0
  have hsecond := h.spec 1
  rw [Nat.add_zero] at hfirst
  cases item with
  | lit c =>
    have hc : mem ip = c := hfirst Nat.one_pos
    rw [vsprintfLoop, hc, if_neg h.ok.1, if_pos h.ok.2, ← Bytes.write_singleton]
    rfl
  | str s =>
    have hp : mem ip = 0x25#8 := hfirst Nat.zero_lt_two
    have hs : mem (ip + 1) = 0x73#8 := hsecond Nat.one_lt_two
    obtain ⟨hsrc, hstr, htop, hout⟩ := h.arg
    have hhi' : bufPtr + s.length < str + size := hhi
    have happ : bufPtr + s.length < mem.getWord (ap + 4) ∨
        mem.getWord (ap + 4) + s.length < bufPtr := by
      by_contra hover
      have hboth := hout (max (mem.getWord (ap + 4)) bufPtr - mem.getWord (ap + 4)) (by omega)
      unfold Outside at hboth
      omega
    have hcpy := strcpy_eq hstr hnull hsrc (by omega) happ
    have hstr' : (mem.write bufPtr (s ++ [0#8])).IsStr (mem.getWord (ap + 4)) s := by
      refine isStr_same (write_same hlo ?_) hout hstr
      rw [List.length_append, List.length_singleton]
      omega
    rw [vsprintfLoop, hp, if_neg (by decide), if_neg (by decide)]
    dsimp only
    rw [hs, if_pos rfl, hcpy, ok_bind, strlen_eq hstr' hsrc (by omega), ok_bind]
    rfl
  | chr c =>
    have hp : mem ip = 0x25#8 := hfirst Nat.zero_lt_two
    have hs : mem (ip + 1) = 0x63#8 := hsecond Nat.one_lt_two
    have harg : mem (ap + 4) = c := h.arg
    rw [vsprintfLoop, hp, if_neg (by decide), if_neg (by decide)]
    dsimp only
    rw [hs, if_neg (by decide), if_pos rfl, harg, ← Bytes.write_singleton]
    rfl
  | dec w =>
    have hp : mem ip = 0x25#8 := hfirst Nat.zero_lt_two
    have hs : mem (ip + 1) = 0x64#8 := hsecond Nat.one_lt_two
    have harg : mem.getWord (ap + 4) = w.toNat := h.arg
    rw [vsprintfLoop, hp, if_neg (by decide), if_neg (by decide)]
    dsimp only
    rw [hs, if_neg (by decide), if_neg (by decide), if_pos rfl, harg, BitVec.ofNat_toNat,
      BitVec.setWidth_eq]
    have hslt : w.slt 0#32 = decide (w.toInt < 0) := by rw [BitVec.slt, BitVec.toInt_zero]
    by_cases hneg : w.toInt < 0
    · have htext : (Item.dec w).text = 0x2d#8 :: numText 10 (0#32 - w).toNat := by
        rw [Item.text, decimal, if_pos hneg, natAbs_of_neg w hneg]
      rw [hslt, decide_eq_true hneg, if_pos rfl, if_pos rfl, if_pos rfl,
        iToA_eq 31 (by decide) (0#32 - w).isLt, ok_bind, Bytes.write_cons]
      simp only [Item.out, htext, List.length_cons, Item.spec, Item.slots]
      rw [Nat.add_right_comm bufPtr 1, Nat.add_assoc bufPtr]
      rfl
    · have htext : (Item.dec w).text = numText 10 w.toNat := by
        rw [Item.text, decimal, if_neg hneg, natAbs_of_nonneg w hneg]
      rw [hslt, decide_eq_false hneg, if_neg Bool.false_ne_true, if_neg Bool.false_ne_true,
        if_neg Bool.false_ne_true, iToA_eq 31 (by decide) w.isLt, ok_bind]
      simp only [Item.out, htext, Item.spec, Item.slots]
      rfl
  | hex w =>
    have hp : mem ip = 0x25#8 := hfirst Nat.zero_lt_two
    have hs : mem (ip + 1) = 0x78#8 := hsecond Nat.one_lt_two
    have harg : mem.getWord (ap + 4) = w.toNat := h.arg
    rw [vsprintfLoop, hp, if_neg (by decide), if_neg (by decide)]
    dsimp only
    rw [hs, if_neg (by decide), if_neg (by decide), if_neg (by decide), if_pos rfl, harg,
      BitVec.ofNat_toNat, BitVec.setWidth_eq, iToA_eq 31 (by decide) w.isLt, ok_bind]
    rfl

/-! ## The whole loop -/

theorem out_ne_nil (item : Item) : item.out ≠ [] := by
  cases item with
  | lit c | chr c => exact List.cons_ne_nil _ _
  | str s => exact List.append_ne_nil_of_right_ne_nil _ (List.cons_ne_nil _ _)
  | dec w =>
    simp only [Item.out, Item.text, decimal]
    split
    · exact List.cons_ne_nil _ _
    · exact numText_ne_nil (by decide) _
  | hex w => exact numText_ne_nil (by decide) _

theorem outOf_ne_nil (h : items ≠ []) : outOf items ≠ [] := by
  induction items with
  | nil => exact absurd rfl h
  | cons item items ih =>
    cases items with
    | nil => exact out_ne_nil item
    | cons item' items =>
      exact List.append_ne_nil_of_right_ne_nil _ (ih (List.cons_ne_nil _ _))

/-- The next item covers the 0 behind a string. -/
theorem write_outOf (mem : Bytes) (bufPtr : ℕ) (item : Item) (items : List Item) :
    (mem.write bufPtr item.out).write (bufPtr + item.text.length) (outOf items) =
      mem.write bufPtr (outOf (item :: items)) := by
  cases items with
  | nil => exact Bytes.write_nil
  | cons item' items =>
    have hpos := List.length_pos_iff.mpr (outOf_ne_nil (List.cons_ne_nil item' items))
    have hcons : outOf (item :: item' :: items) = item.text ++ outOf (item' :: items) := rfl
    rw [hcons, ← Bytes.write_append]
    cases item with
    | str s =>
      rw [Item.out, Item.text, ← Bytes.write_append, Bytes.write_write]
      exact hpos
    | _ => rfl

theorem argsAt_cons (h : ArgsAt mem str size ap (item :: items)) :
    ArgAt mem str size (ap + 4) item ∧ ArgsAt mem str size (ap + 4 * item.slots) items := by
  cases item with
  | lit c => exact ⟨trivial, h⟩
  | _ => exact ⟨h.2.1, h.2.2⟩

theorem vsprintfLoop_eq {fuel : ℕ} (hfuel : items.length < fuel) (hnull : bufPtr ≠ 0)
    (hspace : str + size ≤ 2 ^ 32) (hok : ∀ item ∈ items, item.Ok)
    (hfmt : mem.IsStr ip (formatOf items))
    (hout : ∀ i ≤ (formatOf items).length, Outside str size (ip + i))
    (hargs : ArgsAt mem str size ap items) (hlo : str ≤ bufPtr)
    (hhi : bufPtr + (textOf items).length < str + size) :
    vsprintfLoop fuel mem ip (mem ip) bufPtr ap = .ok (mem.write bufPtr (outOf items)) := by
  induction items generalizing mem ip bufPtr ap fuel with
  | nil =>
    obtain ⟨fuel, rfl⟩ := Nat.exists_eq_succ_of_ne_zero (Nat.ne_of_gt hfuel)
    have hend : mem ip = 0#8 := hfmt
    rw [vsprintfLoop, if_pos hend, outOf, Bytes.write_nil]
  | cons item items ih =>
    obtain ⟨fuel, rfl⟩ := Nat.exists_eq_succ_of_ne_zero (Nat.ne_of_gt (Nat.zero_lt_of_lt hfuel))
    have hformat : formatOf (item :: items) = item.spec ++ formatOf items := List.flatMap_cons
    have htext : textOf (item :: items) = item.text ++ textOf items := List.flatMap_cons
    rw [hformat, List.length_append] at hout
    rw [htext, List.length_append] at hhi
    rw [hformat] at hfmt
    rw [List.length_cons] at hfuel
    obtain ⟨hspec, hrest⟩ := hfmt.append
    obtain ⟨harg, hargs'⟩ := argsAt_cons hargs
    obtain ⟨hitem, hitems⟩ := List.forall_mem_cons.mp hok
    have hlen := item.length_out_le
    have hsame := fun i => @write_same mem str size bufPtr item.out hlo (by omega) i
    have hread : Reads mem str size ip ap item :=
      ⟨hitem, hspec, fun i hi => hout i (by omega), harg⟩
    have hrestOut : ∀ i ≤ (formatOf items).length,
        Outside str size (ip + item.spec.length + i) := fun i hi => by
      rw [Nat.add_assoc]
      exact hout _ (by omega)
    rw [vsprintfLoop_pass fuel hread hnull hspace hlo (by omega),
      ih (by omega) (by omega) hitems (isStr_same hsame hrestOut hrest) hrestOut
        (argsAt_same hsame hargs') (by omega) (by omega), write_outOf]

/-- The last item is a `%s`. -/
def EndsInStr (items : List Item) : Prop := ∃ s, items.getLast? = some (.str s)

/-- A 0 is written behind the text only by a `%s` at the end. -/
theorem outOf_cases (items : List Item) :
    EndsInStr items ∧ outOf items = textOf items ++ [0#8] ∨
      ¬EndsInStr items ∧ outOf items = textOf items := by
  induction items with
  | nil => exact Or.inr ⟨nofun, rfl⟩
  | cons item items ih =>
    have htext : textOf (item :: items) = item.text ++ textOf items := List.flatMap_cons
    cases items with
    | nil =>
      have hlast : textOf [item] = item.text := by
        rw [htext]
        exact List.append_nil _
      rw [hlast]
      cases item with
      | str s => exact Or.inl ⟨⟨s, rfl⟩, rfl⟩
      | _ => exact Or.inr ⟨nofun, rfl⟩
    | cons item' items =>
      have hends : EndsInStr (item :: item' :: items) ↔ EndsInStr (item' :: items) := by
        unfold EndsInStr
        rw [List.getLast?_cons_cons]
      have hcons : outOf (item :: item' :: items) = item.text ++ outOf (item' :: items) := rfl
      rw [hends, hcons, htext]
      rcases ih with ⟨hstr, heq⟩ | ⟨hstr, heq⟩
      · exact Or.inl ⟨hstr, by rw [heq, List.append_assoc]⟩
      · exact Or.inr ⟨hstr, by rw [heq]⟩

theorem length_le_formatOf (items : List Item) : items.length ≤ (formatOf items).length := by
  induction items with
  | nil => exact Nat.le_refl _
  | cons item items ih =>
    have hformat : formatOf (item :: items) = item.spec ++ formatOf items := List.flatMap_cons
    have hspec : 1 ≤ item.spec.length := by cases item <;> simp [Item.spec]
    rw [hformat, List.length_cons, List.length_append]
    omega

/-- What a call of `vsprintf` writes, before its length is taken. -/
theorem IsCall.loop (h : IsCall mem str size format ap items) :
    vsprintfLoop (2 ^ 32) mem format (mem format) str ap = .ok (mem.write str (outOf items)) := by
  have hlen := length_le_formatOf items
  have hspace := h.formatInSpace
  exact vsprintfLoop_eq (by omega) h.notNull h.inSpace h.ok h.isFormat h.formatOutside h.args
    (Nat.le_refl _) (by have := h.fits; omega)

/-! ## Reading a numeral back -/

/-- The number of a list of decimal digits. -/
def readDigits (l : List (BitVec 8)) : ℕ := ofNumeral 10 (l.map fun c => c.toNat - 0x30)

def readDecimal (l : List (BitVec 8)) : ℤ :=
  if l.head? = some 0x2d#8 then -(readDigits l.tail : ℤ) else readDigits l

theorem readDigits_numText (n : ℕ) : readDigits (numText 10 n) = n := by
  have hdigit : ∀ d < 10, (digitChar d).toNat - 0x30 = d := by decide
  have hmap : (numText 10 n).map (fun c => c.toNat - 0x30) = numeral 10 n := by
    unfold numText
    rw [List.map_map]
    exact (List.map_congr_left fun d hd => hdigit d (lt_of_mem_numeral (by decide) hd)).trans
      (List.map_id _)
  rw [readDigits, hmap, ofNumeral_numeral]

theorem head_numText (n : ℕ) : (numText 10 n).head? ≠ some 0x2d#8 := by
  have hdigit : ∀ d < 10, digitChar d ≠ 0x2d#8 := by decide
  intro h
  obtain ⟨d, hd, hchar⟩ := List.mem_map.mp (List.mem_of_head? h)
  exact hdigit d (lt_of_mem_numeral (by decide) hd) hchar

theorem readDecimal_decimal (w : BitVec 32) : readDecimal (decimal w) = w.toInt := by
  unfold decimal
  split
  · unfold readDecimal
    rw [List.head?_cons, if_pos rfl, List.tail_cons, readDigits_numText]
    omega
  · unfold readDecimal
    rw [if_neg (head_numText _), readDigits_numText]
    omega

/-! ## Main result -/

/-- The text has no 0, as long as no `%c` has one. -/
theorem zero_not_mem_textOf (hok : ∀ item ∈ items, item.Ok) (hargs : ArgsAt mem str size ap items)
    (hchr : ∀ c, .chr c ∈ items → c ≠ 0#8) : 0#8 ∉ textOf items := by
  induction items generalizing ap with
  | nil => nofun
  | cons item items ih =>
    have htext : textOf (item :: items) = item.text ++ textOf items := List.flatMap_cons
    obtain ⟨harg, hargs'⟩ := argsAt_cons hargs
    obtain ⟨hitem, hitems⟩ := List.forall_mem_cons.mp hok
    rw [htext, List.mem_append, not_or]
    refine ⟨?_, ih hitems hargs' fun c hc => hchr c (List.mem_cons_of_mem _ hc)⟩
    cases item with
    | lit c =>
      intro h
      exact hitem.1 (List.mem_singleton.mp h).symm
    | str s => exact harg.2.1.zero_not_mem
    | chr c =>
      intro h
      exact hchr c List.mem_cons_self (List.mem_singleton.mp h).symm
    | dec w =>
      simp only [Item.text, decimal]
      split
      · rw [List.mem_cons, not_or]
        exact ⟨by decide, zero_not_mem_numText (by decide) (by decide) _⟩
      · exact zero_not_mem_numText (by decide) (by decide) _
    | hex w => exact zero_not_mem_numText (by decide) (by decide) _

/-- In a buffer of zeros it makes no difference whether a 0 is written behind the text. -/
theorem write_outOf_zero (h : IsCall mem str size format ap items)
    (hzero : ∀ i < size, mem (str + i) = 0#8) :
    mem.write str (outOf items) = mem.write str (textOf items) := by
  rcases outOf_cases items with ⟨-, heq⟩ | ⟨-, heq⟩
  · rw [heq, ← Bytes.write_append, Bytes.write_singleton]
    refine Function.update_eq_self_iff.mpr ?_
    rw [Bytes.write_of_not_mem (Or.inr (Nat.le_refl _)), hzero _ h.fits]
  · rw [heq]

/-- **`vsprintf`.**  Into a buffer of zeros that is large enough, it writes the literal characters,
the strings, the characters and the numerals one after the other, changes no other byte, and returns
their length; the numeral of a `%d` reads back as its argument. -/
theorem vsprintf_formats (h : IsCall mem str size format ap items)
    (hzero : ∀ i < size, mem (str + i) = 0#8) (hchr : ∀ c, .chr c ∈ items → c ≠ 0#8) :
    vsprintf mem str format ap = .ok (mem.write str (textOf items), (textOf items).length) ∧
      (mem.write str (textOf items)).IsStr str (textOf items) ∧
      ∀ w : BitVec 32, readDecimal (decimal w) = w.toInt := by
  have hstr : (mem.write str (textOf items)).IsStr str (textOf items) :=
    Bytes.isStr_write (zero_not_mem_textOf h.ok h.args hchr) (hzero _ h.fits)
  refine ⟨?_, hstr, readDecimal_decimal⟩
  have hfits := h.fits
  have hspace := h.inSpace
  rw [vsprintf, h.loop, ok_bind, write_outOf_zero h hzero, strlen_eq hstr h.notNull (by omega),
    ok_bind]

/-- The bytes of `"%s=%d"`, of the string `"a"` and of the two arguments. -/
def sampleCall : Bytes :=
  Bytes.putWords (Bytes.write (Bytes.write (fun _ => 0#8) 0x100
    [0x25#8, 0x73#8, 0x3d#8, 0x25#8, 0x64#8]) 0x200 [0x61#8]) 0x404 [0x200, 0x80000000]

def sampleItems : List Item := [.str [0x61#8], .lit 0x3d#8, .dec 0x80000000#32]

theorem isCall_sample : IsCall sampleCall 0x300 16 0x100 0x400 sampleItems := by
  constructor <;> decide

/-- `"a=-2147483648"`: the least integer. -/
theorem vsprintf_formats_sample :
    vsprintf sampleCall 0x300 0x100 0x400 =
      .ok (sampleCall.write 0x300 (textOf sampleItems), (textOf sampleItems).length) :=
  (vsprintf_formats isCall_sample (by decide)
    (by intro c h; simp [sampleItems] at h)).1

end HcOs.Stdio
