import HcOs.Stdio.Console
import HcOs.Stdio.Vsprintf

/-!
# `put_int` (`lib/kernel/print.S`)

`put_int` fills eight hexadecimal digits into a buffer, from the last to the first, skips the zeros
in front and hands the others to `put_char`; eight zeros have an exit of their own.  The routine is
translated over any `put`, so that the characters it passes are what it does.

* `based4bits_spec`: the buffer holds the eight digits.
* `printers_agree`: `put_int` passes the numeral that `i_to_a` writes.
-/

namespace HcOs.Stdio

open HcOs.Lib

/-- The loop `.16based_4bits`, by the buffer and the `edi` it leaves. -/
def based4bits : ℕ → Bytes → BitVec 32 → BitVec 32 → BitVec 32 → Bytes × BitVec 32
  | 0, buf, _, _, edi => (buf, edi)
  | ecx + 1, buf, eax, edx, edi =>
    let edx := edx &&& 0x0000000f#32
    let edx := if BitVec.slt 9#32 edx then edx - 10#32 + 0x41#32 else edx + 0x30#32
    let buf := Function.update buf edi.toNat (edx.setWidth 8)
    let edi := edi - 1#32
    let eax := eax >>> 4
    based4bits ecx buf eax eax edi

section Put

variable {σ : Type} (put : σ → BitVec 8 → Except Halt σ)

/-- The loop `.put_each_num`. -/
def putEachNum : ℕ → Bytes → σ → BitVec 32 → BitVec 8 → Except Halt σ
  | 0, _, _, _, _ => .error .noReturn
  | fuel + 1, buf, s, edi, cl => do
    let s ← put s cl
    let edi := edi + 1#32
    let cl := buf edi.toNat
    if edi.slt 8#32 then putEachNum fuel buf s edi cl else .ok s

/-- The loop `.skip_prefix_0`, to the end of the routine. -/
def skipPrefix0 : ℕ → Bytes → σ → BitVec 32 → Except Halt σ
  | 0, _, _, _ => .error .noReturn
  | fuel + 1, buf, s, edi =>
    -- `.full0`
    if edi = 8#32 then put s 0x30#8
    else
      let cl := buf edi.toNat
      let edi := edi + 1#32
      if cl = 0x30#8 then skipPrefix0 fuel buf s edi
      else putEachNum put fuel buf s (edi - 1#32) cl

/-- `put_int`; `buf` is what `put_int_buffer` held before. -/
def putInt (buf : Bytes) (s : σ) (value : BitVec 32) : Except Halt σ :=
  let (buf, edi) := based4bits 8 buf value value 7#32
  skipPrefix0 put (2 ^ 32) buf s (edi + 1#32)

end Put

/-! ## The digits -/

/-- A digit becomes the same character as in `i_to_a`. -/
theorem digit_eq {d : ℕ} (hd : d < 16) :
    (if BitVec.slt 9#32 (BitVec.ofNat 32 d) then BitVec.ofNat 32 d - 10#32 + 0x41#32
      else BitVec.ofNat 32 d + 0x30#32).setWidth 8 = digitChar d := by
  revert d
  decide

/-- The lowest digit. -/
theorem and_0xf (eax : BitVec 32) : eax &&& 0x0000000f#32 = BitVec.ofNat 32 (eax.toNat % 16) := by
  apply BitVec.eq_of_toNat_eq
  have hmask := and_mask eax.toNat 4 0
  rw [Nat.pow_zero, Nat.mul_one, Nat.div_one, Nat.mul_one] at hmask
  rw [BitVec.toNat_and, BitVec.toNat_ofNat, BitVec.toNat_ofNat]
  exact hmask.trans (Nat.mod_eq_of_lt (by omega)).symm

/-- After `n` rounds the digits are in front of what `edi` pointed to. -/
theorem based4bits_spec (n : ℕ) (buf : Bytes) (eax : BitVec 32) (hn : n ≤ 8) :
    (∀ i < n, (based4bits n buf eax eax (BitVec.ofNat 32 n - 1#32)).1 i =
        digitChar (eax.toNat / 16 ^ (n - 1 - i) % 16)) ∧
      (∀ i, n ≤ i → (based4bits n buf eax eax (BitVec.ofNat 32 n - 1#32)).1 i = buf i) ∧
      (based4bits n buf eax eax (BitVec.ofNat 32 n - 1#32)).2 = 0#32 - 1#32 := by
  induction n generalizing buf eax with
  | zero => exact ⟨nofun, fun _ _ => rfl, rfl⟩
  | succ n ih =>
    have hedi : BitVec.ofNat 32 (n + 1) - 1#32 = BitVec.ofNat 32 n := by
      rw [BitVec.ofNat_add, BitVec.add_sub_cancel]
    have hlast : (BitVec.ofNat 32 n).toNat = n := by
      rw [BitVec.toNat_ofNat]
      omega
    have hshr : (eax >>> 4).toNat = eax.toNat / 16 := by
      rw [BitVec.toNat_ushiftRight, Nat.shiftRight_eq_div_pow]
    obtain ⟨hdigits, hkeep, hend⟩ := ih (Function.update buf n (digitChar (eax.toNat % 16)))
      (eax >>> 4) (by omega)
    rw [hedi, based4bits, and_0xf, digit_eq (Nat.mod_lt _ (by decide)), hlast]
    refine ⟨fun i hi => ?_, fun i hi => ?_, hend⟩
    · rcases Nat.lt_succ_iff_lt_or_eq.mp hi with hlt | rfl
      · have hexp : (n - 1 - i).succ = n + 1 - 1 - i := by omega
        rw [hdigits i hlt, hshr, Nat.div_div_eq_div_mul, ← Nat.pow_succ', hexp]
      · rw [hkeep i (Nat.le_refl i), Function.update_self, Nat.add_sub_cancel, Nat.sub_self,
          Nat.pow_zero, Nat.div_one]
    · rw [hkeep i (by omega), Function.update_of_ne (by omega)]

/-! ## The characters -/

/-- The digits from `k` on in the buffer. -/
structure Holds (buf : Bytes) (k : ℕ) (ds : List ℕ) : Prop where
  length : k + ds.length = 8
  lt : ∀ d ∈ ds, d < 16
  char : ∀ i < ds.length, buf (k + i) = digitChar (ds.getD i 0)

theorem Holds.tail {buf : Bytes} {k d : ℕ} {ds : List ℕ} (h : Holds buf k (d :: ds)) :
    Holds buf (k + 1) ds where
  length := by
    have := h.length
    rw [List.length_cons] at this
    omega
  lt e he := h.lt e (List.mem_cons_of_mem _ he)
  char i hi := by
    rw [Nat.add_assoc, Nat.add_comm 1 i, h.char (i + 1) (Nat.succ_lt_succ hi), List.getD_cons_succ]

theorem slt_8 : ∀ k ≤ 8, (BitVec.ofNat 32 k).slt 8#32 = decide (k < 8) := by decide

theorem ofNat_eq_8 : ∀ k ≤ 8, BitVec.ofNat 32 k = 8#32 ↔ k = 8 := by decide

theorem digitChar_eq_zero : ∀ d < 16, digitChar d = 0x30#8 ↔ d = 0 := by decide

section Put

variable {σ : Type} {put : σ → BitVec 8 → Except Halt σ} {buf : Bytes} {k d fuel : ℕ} {ds : List ℕ}

theorem putEachNum_eq (h : Holds buf k (d :: ds)) (hfuel : ds.length < fuel) (s : σ) :
    putEachNum put fuel buf s (BitVec.ofNat 32 k) (digitChar d) =
      ((d :: ds).map digitChar).foldlM put s := by
  induction ds generalizing k d fuel s with
  | nil =>
    obtain ⟨fuel, rfl⟩ := Nat.exists_eq_succ_of_ne_zero (Nat.ne_of_gt (Nat.zero_lt_of_lt hfuel))
    have hk : k = 7 := Nat.succ.inj h.length
    subst hk
    rfl
  | cons e ds ih =>
    obtain ⟨fuel, rfl⟩ := Nat.exists_eq_succ_of_ne_zero (Nat.ne_of_gt (Nat.zero_lt_of_lt hfuel))
    have htail := h.tail
    have hlen := htail.length
    rw [List.length_cons] at hlen hfuel
    have hcl : buf (k + 1) = digitChar e := htail.char 0 (Nat.succ_pos _)
    have hedi : (BitVec.ofNat 32 (k + 1)).toNat = k + 1 := by
      rw [BitVec.toNat_ofNat]
      omega
    rw [putEachNum, List.map_cons, List.foldlM_cons]
    refine bind_congr fun s' => ?_
    dsimp only
    rw [← BitVec.ofNat_add, slt_8 _ (by omega), decide_eq_true (by omega), if_pos rfl, hedi, hcl]
    exact ih htail (by omega) s'

theorem skipPrefix0_eq (h : Holds buf k ds) (hfuel : ds.length < fuel) (s : σ) :
    skipPrefix0 put fuel buf s (BitVec.ofNat 32 k) =
      ((if ds.dropWhile (· = 0) = [] then [0] else ds.dropWhile (· = 0)).map digitChar).foldlM
        put s := by
  have hlen := h.length
  obtain ⟨fuel, rfl⟩ := Nat.exists_eq_succ_of_ne_zero (Nat.ne_of_gt (Nat.zero_lt_of_lt hfuel))
  induction ds generalizing k fuel with
  | nil =>
    rw [skipPrefix0, if_pos ((ofNat_eq_8 k (Nat.le_of_eq hlen)).mpr hlen), List.dropWhile_nil,
      if_pos rfl]
    exact (bind_pure _).symm
  | cons d ds ih =>
    rw [List.length_cons] at hlen hfuel
    have hcl : buf k = digitChar d := h.char 0 (Nat.succ_pos _)
    have hedi : (BitVec.ofNat 32 k).toNat = k := by
      rw [BitVec.toNat_ofNat]
      omega
    have hne : ¬BitVec.ofNat 32 k = 8#32 := by
      rw [ofNat_eq_8 k (by omega)]
      omega
    have hzero := digitChar_eq_zero d (h.lt d List.mem_cons_self)
    rw [skipPrefix0, if_neg hne]
    dsimp only
    rw [hedi, hcl]
    by_cases hd : d = 0
    · obtain ⟨fuel, rfl⟩ := Nat.exists_eq_succ_of_ne_zero (show fuel ≠ 0 by omega)
      rw [if_pos (hzero.mpr hd), List.dropWhile_cons_of_pos (by rw [hd]; rfl), ← BitVec.ofNat_add]
      exact ih h.tail h.tail.length fuel (by omega)
    · rw [if_neg (fun hc => hd (hzero.mp hc)), List.dropWhile_cons_of_neg (by simpa using hd),
        if_neg (List.cons_ne_nil _ _), BitVec.add_sub_cancel]
      exact putEachNum_eq h (by omega) s

end Put

/-! ## Main result -/

/-- The buffer before the zeros are skipped. -/
theorem holds_based4bits (buf : Bytes) (value : BitVec 32) :
    Holds (based4bits 8 buf value value 7#32).1 0 (fixed 16 8 value.toNat) where
  length := by rw [length_fixed]
  lt _ hd := lt_of_mem_fixed (by decide) hd
  char i hi := by
    rw [length_fixed] at hi
    rw [getD_fixed hi, Nat.zero_add]
    exact (based4bits_spec 8 buf value (Nat.le_refl 8)).1 i hi

/-- `put_int` passes the numeral. -/
theorem putInt_eq {σ : Type} (put : σ → BitVec 8 → Except Halt σ) (buf : Bytes) (s : σ)
    (value : BitVec 32) : putInt put buf s value = (numText 16 value.toNat).foldlM put s := by
  have hedi : (based4bits 8 buf value value 7#32).2 + 1#32 = 0#32 := by
    have hend : (based4bits 8 buf value value 7#32).2 = 0#32 - 1#32 :=
      (based4bits_spec 8 buf value (Nat.le_refl 8)).2.2
    rw [hend]
    rfl
  have hvalue : value.toNat < 16 ^ 8 := value.isLt
  have hskip := @skipPrefix0_eq σ put _ 0 (2 ^ 32) _ (holds_based4bits buf value)
    (by rw [length_fixed]; decide) s
  have hnum : (if (fixed 16 8 value.toNat).dropWhile (· = 0) = [] then [0]
      else (fixed 16 8 value.toNat).dropWhile (· = 0)) = numeral 16 value.toNat := by
    rw [dropWhile_fixed (by decide) hvalue]
    by_cases h0 : value.toNat = 0
    · rw [if_pos h0, if_pos rfl, h0]
      rfl
    · rw [if_neg h0, if_neg (numeral_ne_nil (by decide) _)]
  rw [hnum, ← hedi] at hskip
  exact hskip

/-- **The two printers.**  Whatever `put_char` does with them and whatever the buffers held, the
characters that `put_int` passes to it are those that `i_to_a` writes in the base 16: the numeral of
the value. -/
theorem printers_agree {σ : Type} (put : σ → BitVec 8 → Except Halt σ) (buf : Bytes) (s : σ)
    (mem : Bytes) (bufPtr : ℕ) (value : BitVec 32) :
    putInt put buf s value = (numText 16 value.toNat).foldlM put s ∧
      iToA 32 mem bufPtr value.toNat 16 = .ok (mem.write bufPtr (numText 16 value.toNat),
        bufPtr + (numText 16 value.toNat).length) :=
  ⟨putInt_eq put buf s value, iToA_eq 31 (by decide) value.isLt⟩

/-! ## On the console -/

open HcOs.Console

theorem foldlM_putChar (s : State) (l : List (BitVec 8)) :
    l.foldlM State.putChar s = s.putChars l := by
  induction l generalizing s with
  | nil => rfl
  | cons cl l ih =>
    rw [List.foldlM_cons, State.putChars]
    exact bind_congr ih

/-- Without a backspace, no cursor is at risk. -/
theorem noBackspaceAtStart_of_not_mem {l : List (BitVec 8)} (h : 0x08#8 ∉ l) (p : ℕ) :
    NoBackspaceAtStart p l := by
  induction l generalizing p with
  | nil => trivial
  | cons ch l ih =>
    rw [List.mem_cons, not_or] at h
    exact ⟨fun hb => h.1 hb.2.symm, ih h.2 _⟩

/-- A number is printed on the screen. -/
theorem putInt_onScreen {s : State} (hs : OnScreen s) (buf : Bytes) (value : BitVec 32) :
    ∃ s', putInt State.putChar buf s value = .ok s' ∧ OnScreen s' := by
  have hdigit : ∀ d < 16, digitChar d ≠ 0x08#8 := by decide
  have hnot : 0x08#8 ∉ numText 16 value.toNat := by
    intro hmem
    obtain ⟨d, hd, hchar⟩ := List.mem_map.mp hmem
    exact hdigit d (lt_of_mem_numeral (by decide) hd) hchar
  rw [putInt_eq, foldlM_putChar]
  exact Stays.putChars hs
    ((stays_iff_of_onScreen hs _).mpr (noBackspaceAtStart_of_not_mem hnot _))

end HcOs.Stdio
