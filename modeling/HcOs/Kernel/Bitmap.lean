import Mathlib.Data.Nat.Find
import Mathlib.Logic.Function.Basic
import Mathlib.Tactic.Common
import HcOs.Kernel.Debug

/-!
# Bitmaps (`lib/kernel/bitmap.c`)

The bytes of a bitmap are memory: the functions also read and write past `btmp_bytes_len`, so the
model keeps all bytes and not only the first `btmpBytesLen`.

`bitmap_scan` is a first-fit search (`bitmapScan_eq_some`), with two oddities.  It asserts that
some byte of the bitmap is not full, and for `cnt ≥ 2` its last test is of the bit just past the
end, so a run it returns may stick out by one bit.
-/

namespace HcOs

/-- `struct bitmap`, with the memory `bits` points to. -/
structure Bitmap where
  btmpBytesLen : ℕ
  bits : ℕ → BitVec 8

/-- The mask of a bit, as a `uint8_t`. -/
def bitmapMask (bitOdd : ℕ) : BitVec 8 := 1#8 <<< bitOdd

def bitmapScanTest (btmp : Bitmap) (bitIdx : ℕ) : Bool :=
  btmp.bits (bitIdx / 8) &&& bitmapMask (bitIdx % 8) ≠ 0#8

/-- The first loop of `bitmap_scan`: from `idxByte` on, with `left` bytes to the end. -/
def scanByte (btmp : Bitmap) : ℕ → ℕ → ℕ
  | 0, idxByte => idxByte
  | left + 1, idxByte =>
    if btmp.bits idxByte = 0xff#8 then scanByte btmp left (idxByte + 1) else idxByte

/-- The second loop: the mask is 0 from bit 8 on, so at most eight bits are looked at. -/
def scanBit (byte : BitVec 8) : ℕ → ℕ → ℕ
  | 0, idxBit => idxBit
  | left + 1, idxBit =>
    if bitmapMask idxBit &&& byte ≠ 0#8 then scanBit byte left (idxBit + 1) else idxBit

/-- The third loop: `count` clear bits end right before `nextBit`. -/
def scanRun (btmp : Bitmap) (cnt : ℕ) : ℕ → ℕ → ℕ → Option ℕ
  | 0, _, _ => none
  | bitLeft + 1, nextBit, count =>
    let count := if bitmapScanTest btmp nextBit then 0 else count + 1
    if count = cnt then some (nextBit + 1 - cnt)
    else scanRun btmp cnt bitLeft (nextBit + 1) count

/-- `bitmap_scan`; `none` is the result -1. -/
def bitmapScan (btmp : Bitmap) (cnt : ℕ) : Except Halt (Option ℕ) := do
  let idxByte := scanByte btmp btmp.btmpBytesLen 0
  assert (idxByte < btmp.btmpBytesLen) "bitmap_scan" "idx_byte < btmp->btmp_bytes_len"
  if idxByte = btmp.btmpBytesLen then .ok none
  else
    let idxBit := scanBit (btmp.bits idxByte) 8 0
    let bitIdxStart := idxByte * 8 + idxBit
    if cnt = 1 then .ok (some bitIdxStart)
    else
      .ok (scanRun btmp cnt (btmp.btmpBytesLen * 8 - bitIdxStart) (bitIdxStart + 1) 1)

def bitmapSet (btmp : Bitmap) (bitIdx : ℕ) (value : Bool) : Bitmap :=
  let byte := btmp.bits (bitIdx / 8)
  let mask := bitmapMask (bitIdx % 8)
  { btmp with
    bits := Function.update btmp.bits (bitIdx / 8) (if value then byte ||| mask else byte &&& ~~~mask) }

/-- `bitmap_init`. -/
def bitmapInit (btmp : Bitmap) : Bitmap :=
  { btmp with bits := fun i => if i < btmp.btmpBytesLen then 0#8 else btmp.bits i }

/-! ## Bits -/

variable {b : Bitmap} {i j cnt st : ℕ}

theorem getLsbD_bitmapMask {k j : ℕ} (hk : k < 8) :
    (bitmapMask k).getLsbD j = decide (j = k) := by
  simp only [bitmapMask, BitVec.getLsbD_shiftLeft, BitVec.getLsbD_one]
  grind

theorem and_bitmapMask_ne_zero {x : BitVec 8} {k : ℕ} (hk : k < 8) :
    (x &&& bitmapMask k ≠ 0#8) ↔ x.getLsbD k = true := by
  constructor
  · intro h
    by_contra hx
    refine h (BitVec.eq_of_getLsbD_eq fun j _ => ?_)
    rw [BitVec.getLsbD_and, getLsbD_bitmapMask hk]
    by_cases hjk : j = k <;> simp_all
  · intro hx h
    have hbit := BitVec.getLsbD_and (x := x) (y := bitmapMask k) (i := k)
    rw [h, hx, getLsbD_bitmapMask hk] at hbit
    simp at hbit

theorem getLsbD_full {k : ℕ} (hk : k < 8) : (0xff#8).getLsbD k = true := by
  rcases k with _ | _ | _ | _ | _ | _ | _ | _ | k
  all_goals first | rfl | omega

theorem bitmapScanTest_eq (b : Bitmap) (i : ℕ) :
    bitmapScanTest b i = (b.bits (i / 8)).getLsbD (i % 8) := by
  unfold bitmapScanTest
  rw [Bool.eq_iff_iff, decide_eq_true_eq]
  exact and_bitmapMask_ne_zero (Nat.mod_lt i (by decide))

@[simp] theorem bitmapSet_len (v : Bool) : (bitmapSet b i v).btmpBytesLen = b.btmpBytesLen := rfl

/-- `bitmap_set` changes one bit. -/
theorem bitmapScanTest_set (v : Bool) :
    bitmapScanTest (bitmapSet b i v) j = if j = i then v else bitmapScanTest b j := by
  have hi : i % 8 < 8 := Nat.mod_lt i (by decide)
  have hj : j % 8 < 8 := Nat.mod_lt j (by decide)
  simp only [bitmapScanTest_eq, bitmapSet]
  by_cases hbyte : j / 8 = i / 8
  · have hji : j % 8 = i % 8 ↔ j = i := by omega
    rw [hbyte, Function.update_self]
    cases v with
    | false =>
      rw [if_neg nofun, BitVec.getLsbD_and, BitVec.getLsbD_not, getLsbD_bitmapMask hi]
      by_cases h : j = i
      · simp [h]
      · simp only [hji, h, if_false, decide_false, Bool.not_false, hj, decide_true, Bool.and_true]
    | true =>
      rw [if_pos rfl, BitVec.getLsbD_or, getLsbD_bitmapMask hi]
      by_cases h : j = i
      · simp [h]
      · simp only [hji, h, if_false, decide_false, Bool.or_false]
  · rw [Function.update_of_ne hbyte, if_neg (fun h => hbyte (by rw [h]))]

theorem bitmapScanTest_init (hi : i < 8 * b.btmpBytesLen) :
    bitmapScanTest (bitmapInit b) i = false := by
  have hbyte : i / 8 < b.btmpBytesLen := by omega
  rw [bitmapScanTest_eq]
  simp [bitmapInit, hbyte]

/-! ## The search -/

/-- `cnt` clear bits from `st` on. -/
def Clear (b : Bitmap) (st cnt : ℕ) : Prop :=
  ∀ i, st ≤ i → i < st + cnt → bitmapScanTest b i = false

theorem scanByte_spec (b : Bitmap) (left idx : ℕ) :
    idx ≤ scanByte b left idx ∧ scanByte b left idx ≤ idx + left ∧
      (∀ k, idx ≤ k → k < scanByte b left idx → b.bits k = 0xff#8) ∧
      (scanByte b left idx < idx + left → b.bits (scanByte b left idx) ≠ 0xff#8) := by
  induction left generalizing idx with
  | zero =>
    unfold scanByte
    refine ⟨Nat.le_refl _, Nat.le_refl _, fun k hk hlt => ?_, fun h => ?_⟩
    · omega
    · omega
  | succ left ih =>
    unfold scanByte
    by_cases hfull : b.bits idx = 0xff#8
    · rw [if_pos hfull]
      obtain ⟨hlo, hhi, hff, hne⟩ := ih (idx + 1)
      refine ⟨by omega, by omega, fun k hk hlt => ?_, fun h => hne (by omega)⟩
      by_cases hki : k = idx
      · rw [hki]
        exact hfull
      · exact hff k (by omega) hlt
    · rw [if_neg hfull]
      exact ⟨Nat.le_refl _, by omega, fun k hk hlt => by omega, fun _ => hfull⟩

theorem scanBit_spec (x : BitVec 8) (left idx : ℕ) (h8 : idx + left = 8) :
    idx ≤ scanBit x left idx ∧ scanBit x left idx ≤ 8 ∧
      (∀ k, idx ≤ k → k < scanBit x left idx → x.getLsbD k = true) ∧
      (scanBit x left idx < 8 → x.getLsbD (scanBit x left idx) = false) := by
  induction left generalizing idx with
  | zero =>
    unfold scanBit
    refine ⟨Nat.le_refl _, by omega, fun k hk hlt => ?_, fun h => ?_⟩
    · omega
    · omega
  | succ left ih =>
    have hidx : idx < 8 := by omega
    unfold scanBit
    rw [BitVec.and_comm]
    by_cases hset : x &&& bitmapMask idx ≠ 0#8
    · rw [if_pos hset]
      obtain ⟨hlo, hhi, hones, hzero⟩ := ih (idx + 1) (by omega)
      refine ⟨by omega, hhi, fun k hk hlt => ?_, hzero⟩
      by_cases hki : k = idx
      · rw [hki]
        exact (and_bitmapMask_ne_zero hidx).mp hset
      · exact hones k (by omega) hlt
    · rw [if_neg hset]
      refine ⟨Nat.le_refl _, by omega, fun k hk hlt => by omega, fun _ => ?_⟩
      rw [and_bitmapMask_ne_zero hidx] at hset
      simpa using hset

/-- A byte that is not full has a clear bit. -/
theorem scanBit_lt {x : BitVec 8} (hx : x ≠ 0xff#8) : scanBit x 8 0 < 8 := by
  obtain ⟨-, h8, hones, -⟩ := scanBit_spec x 8 0 rfl
  by_contra hge
  refine hx (BitVec.eq_of_getLsbD_eq fun k hk => ?_)
  rw [hones k (Nat.zero_le k) (by omega), getLsbD_full hk]

/-- The first clear bit. -/
theorem firstClear_spec (h : scanByte b b.btmpBytesLen 0 < b.btmpBytesLen) :
    let start := scanByte b b.btmpBytesLen 0 * 8 + scanBit (b.bits (scanByte b b.btmpBytesLen 0)) 8 0
    start < 8 * b.btmpBytesLen ∧ bitmapScanTest b start = false ∧
      ∀ i, i < start → bitmapScanTest b i = true := by
  obtain ⟨-, -, hff, hne⟩ := scanByte_spec b b.btmpBytesLen 0
  set idx := scanByte b b.btmpBytesLen 0 with hidx
  have hlt := scanBit_lt (hne (by omega))
  obtain ⟨-, -, hones, hzero⟩ := scanBit_spec (b.bits idx) 8 0 rfl
  set bit := scanBit (b.bits idx) 8 0 with hbit
  intro start
  have hdiv : start / 8 = idx := by omega
  have hmod : start % 8 = bit := by omega
  refine ⟨by omega, ?_, fun i hi => ?_⟩
  · rw [bitmapScanTest_eq, hdiv, hmod]
    exact hzero hlt
  · rw [bitmapScanTest_eq]
    by_cases hb : i / 8 = idx
    · rw [hb]
      exact hones _ (Nat.zero_le _) (by omega)
    · rw [hff _ (Nat.zero_le _) (by omega)]
      exact getLsbD_full (Nat.mod_lt i (by decide))

/-- The third loop finds the first run that ends in its reach.  Before each round, `count` is the
number of clear bits right before `next`, and no run of `cnt` has ended yet. -/
theorem scanRun_spec (left next count : ℕ) (hlt : count < cnt) (hle : count ≤ next)
    (hclear : Clear b (next - count) count)
    (hmax : next = count ∨ bitmapScanTest b (next - count - 1) = true)
    (hno : ∀ st, st + cnt ≤ next → ¬Clear b st cnt) :
    (∀ st, scanRun b cnt left next count = some st →
      Clear b st cnt ∧ st + cnt ≤ next + left ∧ ∀ st', st' < st → ¬Clear b st' cnt) ∧
    (scanRun b cnt left next count = none → ∀ st, st + cnt ≤ next + left → ¬Clear b st cnt) := by
  induction left generalizing next count with
  | zero =>
    refine ⟨fun st h => ?_, fun _ => hno⟩
    cases h
  | succ left ih =>
    unfold scanRun
    by_cases htest : bitmapScanTest b next = true
    · -- the run is broken; none that contains `next` is clear
      have hne : (0 : ℕ) ≠ cnt := by omega
      rw [htest, if_pos rfl, if_neg hne, show next + (left + 1) = next + 1 + left by omega]
      refine ih _ _ (by omega) (Nat.zero_le _) (fun i hi hi' => by omega) (Or.inr ?_) fun st hst hc => ?_
      · simpa using htest
      · by_cases hend : st + cnt ≤ next
        · exact hno st hend hc
        · have := hc next (by omega) (by omega)
          rw [htest] at this
          cases this
    · have htest' : bitmapScanTest b next = false := by simpa using htest
      have hclear' : Clear b (next - count) (count + 1) := by
        intro i hi hi'
        by_cases hin : i = next
        · rw [hin]
          exact htest'
        · exact hclear i hi (by omega)
      simp only [htest', Bool.false_eq_true, if_false]
      by_cases hcnt : count + 1 = cnt
      · rw [if_pos hcnt]
        refine ⟨fun st h => ?_, fun h => ?_⟩
        · cases h
          rw [show next + 1 - cnt = next - count by omega]
          refine ⟨hcnt ▸ hclear', by omega, fun st' hst' hc => hno st' (by omega) hc⟩
        · cases h
      · rw [if_neg hcnt, show next + (left + 1) = next + 1 + left by omega]
        refine ih _ _ (by omega) (by omega) ?_ ?_ fun st hst hc => ?_
        · rw [show next + 1 - (count + 1) = next - count by omega]
          exact hclear'
        · rw [show next + 1 - (count + 1) - 1 = next - count - 1 by omega]
          exact hmax.imp (by omega) id
        · by_cases hend : st + cnt ≤ next
          · exact hno st hend hc
          · -- a clear run ending here would be longer than `count + 1`
            rcases hmax with hmax | hmax
            · omega
            · have := hc (next - count - 1) (by omega) (by omega)
              rw [hmax] at this
              cases this

/-- **First fit.**  `bitmap_scan` fails its assertion on a full bitmap; otherwise it returns the
first run of `cnt` clear bits that ends at most one bit past the bitmap, if there is one. -/
theorem bitmapScan_spec (hcnt : 1 ≤ cnt) :
    (bitmapScan b cnt = .error (.panic "bitmap_scan" "idx_byte < btmp->btmp_bytes_len") ∧
      ∀ i, i < 8 * b.btmpBytesLen → bitmapScanTest b i = true) ∨
    (∃ st, bitmapScan b cnt = .ok (some st) ∧ Clear b st cnt ∧ st + cnt ≤ 8 * b.btmpBytesLen + 1 ∧
      (cnt = 1 → st < 8 * b.btmpBytesLen) ∧ ∀ st', st' < st → ¬Clear b st' cnt) ∨
    (bitmapScan b cnt = .ok none ∧ cnt ≠ 1 ∧
      ∀ st, st + cnt ≤ 8 * b.btmpBytesLen + 1 → ¬Clear b st cnt) := by
  unfold bitmapScan
  by_cases hbyte : scanByte b b.btmpBytesLen 0 < b.btmpBytesLen
  · refine Or.inr ?_
    obtain ⟨hlt, hzero, hones⟩ := firstClear_spec hbyte
    rw [assert_bind_of hbyte, if_neg (Nat.ne_of_lt hbyte)]
    set start := scanByte b b.btmpBytesLen 0 * 8 +
      scanBit (b.bits (scanByte b b.btmpBytesLen 0)) 8 0 with hstart
    have hbefore : ∀ st', st' < start → ¬Clear b st' cnt := by
      intro st' hst' hc
      have := hc st' (Nat.le_refl _) (by omega)
      rw [hones st' hst'] at this
      cases this
    have hsingle : Clear b start 1 := by
      intro i hi hi'
      rw [show i = start by omega]
      exact hzero
    by_cases h1 : cnt = 1
    · subst h1
      rw [if_pos rfl]
      exact Or.inl ⟨start, rfl, hsingle, by omega, fun _ => hlt, hbefore⟩
    · rw [if_neg h1]
      have hmax : start + 1 = 1 ∨ bitmapScanTest b (start + 1 - 1 - 1) = true := by
        by_cases h0 : start = 0
        · exact Or.inl (by omega)
        · exact Or.inr (hones _ (by omega))
      obtain ⟨hsome, hnone⟩ := scanRun_spec (b.btmpBytesLen * 8 - start) (start + 1) 1 (by omega)
        (by omega) (by simpa using hsingle) hmax fun st hst => hbefore st (by omega)
      have hreach : start + 1 + (b.btmpBytesLen * 8 - start) = 8 * b.btmpBytesLen + 1 := by omega
      rw [hreach] at hsome hnone
      cases hrun : scanRun b cnt (b.btmpBytesLen * 8 - start) (start + 1) 1 with
      | none => exact Or.inr ⟨rfl, h1, hnone hrun⟩
      | some st =>
        obtain ⟨hc, hend, hfirst⟩ := hsome st hrun
        exact Or.inl ⟨st, rfl, hc, hend, fun h => absurd h h1, hfirst⟩
  · refine Or.inl ⟨assert_bind_of_not hbyte _, fun i hi => ?_⟩
    obtain ⟨-, hhi, hff, -⟩ := scanByte_spec b b.btmpBytesLen 0
    rw [bitmapScanTest_eq, hff (i / 8) (Nat.zero_le _) (by omega)]
    exact getLsbD_full (Nat.mod_lt i (by decide))

/-- The search for one bit: it finds the lowest clear one, or fails its assertion. -/
theorem bitmapScan_one (b : Bitmap) :
    (∃ bit, bitmapScan b 1 = .ok (some bit) ∧ bit < 8 * b.btmpBytesLen ∧
        bitmapScanTest b bit = false ∧ ∀ i, i < bit → bitmapScanTest b i = true) ∨
      (bitmapScan b 1 = .error (.panic "bitmap_scan" "idx_byte < btmp->btmp_bytes_len") ∧
        ∀ i, i < 8 * b.btmpBytesLen → bitmapScanTest b i = true) := by
  rcases bitmapScan_spec (b := b) (Nat.le_refl 1) with
    ⟨herr, hfull⟩ | ⟨bit, hscan, hclear, -, hlt, hfirst⟩ | ⟨-, h1, -⟩
  · exact Or.inr ⟨herr, hfull⟩
  · refine Or.inl ⟨bit, hscan, hlt rfl, hclear bit (Nat.le_refl bit) (Nat.lt_succ_self bit),
      fun i hi => ?_⟩
    by_contra hclear'
    refine hfirst i hi fun j hj hj' => ?_
    rw [show j = i by omega]
    exact eq_false_of_ne_true hclear'
  · exact absurd rfl h1

end HcOs
