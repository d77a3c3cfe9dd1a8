import HcOs.Kernel.Page

/-!
# What `bitmap_scan` looks at and what it finds

The loops of `bitmap_scan` test a byte before they test that it belongs to the bitmap, and the third
one starts a bit after the first clear one but counts its rounds from that bit.  As long as there is
a run of clear bits inside the bitmap none of this shows, and the search is first fit.

Indices are natural numbers here, as in `bitmapScan`; `bitmapScanInt_eq` says that this makes no
difference as long as the number of bits fits an `int`.

* `scansWithin_iff`: the search stays inside the bitmap exactly when there is a run inside it.
* `firstFit_spec`: then the first such run is found, and taking it sets its bits and no other.
-/

namespace HcOs

open HcOs.Page (bitmapSetRun)

variable {b : Bitmap} {cnt st left next count idx : ℕ}

/-! ## The bytes that are read -/

/-- The bytes that the first loop reads; the last one is tested before the index is. -/
def scanByteReads (btmp : Bitmap) : ℕ → ℕ → List ℕ
  | 0, idxByte => [idxByte]
  | left + 1, idxByte =>
    idxByte :: if btmp.bits idxByte = 0xff#8 then scanByteReads btmp left (idxByte + 1) else []

/-- The bytes that the third loop reads. -/
def scanRunReads (btmp : Bitmap) (cnt : ℕ) : ℕ → ℕ → ℕ → List ℕ
  | 0, _, _ => []
  | bitLeft + 1, nextBit, count =>
    let count := if bitmapScanTest btmp nextBit then 0 else count + 1
    nextBit / 8 :: if count = cnt then [] else scanRunReads btmp cnt bitLeft (nextBit + 1) count

/-- The bytes that `bitmap_scan` reads; the second loop reads one. -/
def bitmapScanReads (btmp : Bitmap) (cnt : ℕ) : List ℕ :=
  let idxByte := scanByte btmp btmp.btmpBytesLen 0
  scanByteReads btmp btmp.btmpBytesLen 0 ++
    if idxByte < btmp.btmpBytesLen then
      let idxBit := scanBit (btmp.bits idxByte) 8 0
      let bitIdxStart := idxByte * 8 + idxBit
      idxByte :: if cnt = 1 then []
        else scanRunReads btmp cnt (btmp.btmpBytesLen * 8 - bitIdxStart) (bitIdxStart + 1) 1
    else []

theorem mem_scanByteReads {k : ℕ} :
    k ∈ scanByteReads b left idx ↔ idx ≤ k ∧ k ≤ scanByte b left idx := by
  induction left generalizing idx with
  | zero =>
    unfold scanByteReads scanByte
    rw [List.mem_singleton]
    omega
  | succ left ih =>
    obtain ⟨hlo, -, -, -⟩ := scanByte_spec b left (idx + 1)
    unfold scanByteReads scanByte
    by_cases hfull : b.bits idx = 0xff#8
    · rw [if_pos hfull, if_pos hfull, List.mem_cons, ih]
      omega
    · rw [if_neg hfull, if_neg hfull, List.mem_singleton]
      omega

/-- The third loop reads up to the end of the run that it finds. -/
theorem scanRunReads_some (hlt : count < cnt) (hle : count ≤ next)
    (h : scanRun b cnt left next count = some st) :
    next < st + cnt ∧ (st + cnt - 1) / 8 ∈ scanRunReads b cnt left next count ∧
      ∀ k ∈ scanRunReads b cnt left next count, k ≤ (st + cnt - 1) / 8 := by
  induction left generalizing next count with
  | zero => cases h
  | succ left ih =>
    unfold scanRun at h
    unfold scanRunReads
    dsimp only at h ⊢
    generalize hnew : (if bitmapScanTest b next then 0 else count + 1) = count' at h ⊢
    have hnew' : count' ≤ count + 1 := by
      rw [← hnew]
      split
      · exact Nat.zero_le _
      · exact Nat.le_refl _
    by_cases hcnt : count' = cnt
    · rw [if_pos hcnt] at h ⊢
      cases h
      rw [show next + 1 - cnt + cnt - 1 = next by omega]
      refine ⟨by omega, List.mem_singleton_self _, fun k hk => ?_⟩
      rw [List.mem_singleton.mp hk]
    · rw [if_neg hcnt] at h ⊢
      obtain ⟨hlast, hmem, hall⟩ := ih (by omega) (by omega) h
      refine ⟨by omega, List.mem_cons_of_mem _ hmem, fun k hk => ?_⟩
      rcases List.mem_cons.mp hk with rfl | hk
      · exact Nat.div_le_div_right (by omega)
      · exact hall k hk

/-- If it finds none, it reads up to its end. -/
theorem scanRunReads_none (h : scanRun b cnt left next count = none) {j : ℕ} (hlo : next ≤ j)
    (hhi : j < next + left) : j / 8 ∈ scanRunReads b cnt left next count := by
  induction left generalizing next count with
  | zero => omega
  | succ left ih =>
    unfold scanRun at h
    unfold scanRunReads
    dsimp only at h ⊢
    generalize (if bitmapScanTest b next then 0 else count + 1) = count' at h ⊢
    by_cases hj : j = next
    · rw [hj]
      exact List.mem_cons_self
    · refine List.mem_cons_of_mem _ ?_
      by_cases hcnt : count' = cnt
      · rw [if_pos hcnt] at h
        cases h
      · rw [if_neg hcnt] at h ⊢
        exact ih h (by omega) (by omega)

/-! ## The search inside the bitmap -/

/-- There is a run of `cnt` clear bits inside the bitmap. -/
def RunInside (b : Bitmap) (cnt : ℕ) : Prop := ∃ st, st + cnt ≤ 8 * b.btmpBytesLen ∧ Clear b st cnt

/-- The search stays inside the bitmap, and so does what it finds. -/
structure ScansWithin (b : Bitmap) (cnt : ℕ) : Prop where
  reads : ∀ k ∈ bitmapScanReads b cnt, k < b.btmpBytesLen
  none_of : ¬ RunInside b cnt → bitmapScan b cnt = .ok none
  some_of : RunInside b cnt → ∃ st, bitmapScan b cnt = .ok (some st) ∧
    st + cnt ≤ 8 * b.btmpBytesLen ∧ Clear b st cnt

/-- The search finds the first run, if there is one inside the bitmap. -/
theorem bitmapScan_inside (hcnt : 1 ≤ cnt) (h : RunInside b cnt) :
    ∃ st, bitmapScan b cnt = .ok (some st) ∧ st + cnt ≤ 8 * b.btmpBytesLen ∧ Clear b st cnt ∧
      ∀ st', st' < st → ¬ Clear b st' cnt := by
  obtain ⟨st₀, hin, hclear⟩ := h
  rcases bitmapScan_spec (b := b) hcnt with ⟨-, hfull⟩ | ⟨st, hscan, hst, -, -, hfirst⟩ | ⟨-, -, hno⟩
  · have hset := hfull st₀ (by omega)
    rw [hclear st₀ (Nat.le_refl _) (by omega)] at hset
    cases hset
  · refine ⟨st, hscan, ?_, hst, hfirst⟩
    have hle : ¬ st₀ < st := fun hlt => hfirst st₀ hlt hclear
    omega
  · exact absurd hclear (hno st₀ (by omega))

/-- Some byte of the bitmap is not full. -/
theorem scanByte_lt_of_run (hcnt : 1 ≤ cnt) (h : RunInside b cnt) :
    scanByte b b.btmpBytesLen 0 < b.btmpBytesLen := by
  obtain ⟨st, hscan, -⟩ := bitmapScan_inside hcnt h
  by_contra hge
  unfold bitmapScan at hscan
  rw [assert_bind_of_not hge] at hscan
  cases hscan

theorem bitmapScan_eq_scanRun (h1 : cnt ≠ 1) (hlt : scanByte b b.btmpBytesLen 0 < b.btmpBytesLen) :
    bitmapScan b cnt = .ok (scanRun b cnt (b.btmpBytesLen * 8 - (scanByte b b.btmpBytesLen 0 * 8 +
      scanBit (b.bits (scanByte b b.btmpBytesLen 0)) 8 0)) (scanByte b b.btmpBytesLen 0 * 8 +
      scanBit (b.bits (scanByte b b.btmpBytesLen 0)) 8 0 + 1) 1) := by
  unfold bitmapScan
  rw [assert_bind_of hlt, if_neg (Nat.ne_of_lt hlt), if_neg h1]

/-- With a run inside, nothing outside is read. -/
theorem reads_of_run (hcnt : 1 ≤ cnt) (h : RunInside b cnt) {k : ℕ}
    (hk : k ∈ bitmapScanReads b cnt) : k < b.btmpBytesLen := by
  have hlt := scanByte_lt_of_run hcnt h
  unfold bitmapScanReads at hk
  dsimp only at hk
  rw [if_pos hlt, List.mem_append, mem_scanByteReads, List.mem_cons] at hk
  rcases hk with ⟨-, hk⟩ | rfl | hk
  · omega
  · exact hlt
  · by_cases h1 : cnt = 1
    · rw [if_pos h1] at hk
      cases hk
    · rw [if_neg h1] at hk
      obtain ⟨st, hscan, hin, -, -⟩ := bitmapScan_inside hcnt h
      rw [bitmapScan_eq_scanRun h1 hlt] at hscan
      have hle := (scanRunReads_some (by omega) (by omega) (Except.ok.inj hscan)).2.2 k hk
      omega

/-- Without one, the search fails its assertion or reads the byte behind the bitmap. -/
theorem reads_of_no_run (hcnt : 1 ≤ cnt) (h : ¬ RunInside b cnt)
    (hlt : scanByte b b.btmpBytesLen 0 < b.btmpBytesLen) :
    b.btmpBytesLen ∈ bitmapScanReads b cnt := by
  obtain ⟨hstart, hzero, -⟩ := firstClear_spec hlt
  have h1 : cnt ≠ 1 := by
    rintro rfl
    refine h ⟨_, hstart, fun i hi hi' => ?_⟩
    rw [show i = _ from Nat.le_antisymm (Nat.le_of_lt_succ hi') hi]
    exact hzero
  unfold bitmapScanReads
  dsimp only
  rw [if_pos hlt, if_neg h1]
  refine List.mem_append_right _ (List.mem_cons_of_mem _ ?_)
  have hscan := bitmapScan_eq_scanRun h1 hlt
  generalize scanByte b b.btmpBytesLen 0 * 8 +
    scanBit (b.bits (scanByte b b.btmpBytesLen 0)) 8 0 = start at hstart hscan ⊢
  cases hrun : scanRun b cnt (b.btmpBytesLen * 8 - start) (start + 1) 1 with
  | none =>
    have hmem := scanRunReads_none hrun (j := 8 * b.btmpBytesLen) (by omega) (by omega)
    rw [Nat.mul_div_cancel_left _ (by decide)] at hmem
    exact hmem
  | some st =>
    -- what is found ends with the bit behind the bitmap
    rw [hrun] at hscan
    obtain ⟨-, hmem, -⟩ := scanRunReads_some (by omega) (by omega) hrun
    rcases bitmapScan_spec (b := b) hcnt with ⟨herr, -⟩ | ⟨st', hst', hclear, hend, -, -⟩ | ⟨hnone, -⟩
    · rw [hscan] at herr
      cases herr
    · rw [hscan] at hst'
      cases hst'
      have hout : ¬ st + cnt ≤ 8 * b.btmpBytesLen := fun hin => h ⟨st, hin, hclear⟩
      rw [show (st + cnt - 1) / 8 = b.btmpBytesLen by omega] at hmem
      exact hmem
    · rw [hscan] at hnone
      cases hnone

/-- **Staying inside.**  `bitmap_scan` looks at bits of the bitmap only, and returns -1 or a run of
free ones as it should, exactly when the bitmap has a run of `cnt` clear bits. -/
theorem scansWithin_iff (hcnt : 1 ≤ cnt) : ScansWithin b cnt ↔ RunInside b cnt := by
  constructor
  · intro h
    by_contra hno
    by_cases hlt : scanByte b b.btmpBytesLen 0 < b.btmpBytesLen
    · exact Nat.lt_irrefl _ (h.reads _ (reads_of_no_run hcnt hno hlt))
    · have hnone := h.none_of hno
      unfold bitmapScan at hnone
      rw [assert_bind_of_not hlt] at hnone
      cases hnone
  · intro h
    refine ⟨fun k hk => reads_of_run hcnt h hk, fun hno => absurd h hno, fun _ => ?_⟩
    obtain ⟨st, hscan, hin, hclear, -⟩ := bitmapScan_inside hcnt h
    exact ⟨st, hscan, hin, hclear⟩

/-- The clear bits are 11 and 12, then 14 to 17 over the end of a byte, and the last byte. -/
def fragmented : Bitmap :=
  ⟨4, fun i => match i with
    | 0 => 0xff#8
    | 1 => 0x27#8
    | 2 => 0xfc#8
    | _ => 0#8⟩

theorem fragmented_run : RunInside fragmented 3 := by
  have hrun : ∀ i < 32, 14 ≤ i → i < 17 → bitmapScanTest fragmented i = false := by decide
  exact ⟨14, by decide, fun i hi hi' => hrun i (by omega) hi hi'⟩

/-- The third loop passes the two bits that are too few. -/
theorem scansWithin_iff_fragmented :
    ScansWithin fragmented 3 ∧ bitmapScan fragmented 3 = .ok (some 14) :=
  ⟨(scansWithin_iff (by decide)).mpr fragmented_run, rfl⟩

/-- Only bit 7 of a bitmap of one byte is clear. -/
def lastBit : Bitmap := ⟨1, fun i => if i = 0 then 0x7f#8 else 0#8⟩

/-- Two bits are asked for, the byte behind the bitmap is clear, and the second bit is taken from
there. -/
theorem run_sticks_out :
    ¬ RunInside lastBit 2 ∧ bitmapScan lastBit 2 = .ok (some 7) ∧ 1 ∈ bitmapScanReads lastBit 2 ∧
      ¬ ScansWithin lastBit 2 := by
  have hset : ∀ i, i < 7 → bitmapScanTest lastBit i = true := by decide
  have hno : ¬ RunInside lastBit 2 := by
    rintro ⟨st, hin, hclear⟩
    have hlt : st + 2 ≤ 8 := hin
    have hbit := hset st (by omega)
    rw [hclear st (Nat.le_refl _) (by omega)] at hbit
    cases hbit
  refine ⟨hno, rfl, by decide, fun h => ?_⟩
  have hnone : bitmapScan lastBit 2 = .ok none := h.none_of hno
  cases hnone

/-! ## First fit -/

/-- The loop that takes a run sets its bits and no other. -/
theorem bitmapScanTest_setRun (v : Bool) (i : ℕ) :
    bitmapScanTest (bitmapSetRun b st v cnt) i =
      if st ≤ i ∧ i < st + cnt then v else bitmapScanTest b i := by
  induction cnt with
  | zero =>
    rw [if_neg (by omega)]
    rfl
  | succ cnt ih =>
    unfold bitmapSetRun
    rw [bitmapScanTest_set, ih]
    by_cases hi : i = st + cnt
    · rw [if_pos hi, if_pos (by omega)]
    · rw [if_neg hi]
      by_cases hin : st ≤ i ∧ i < st + cnt
      · rw [if_pos hin, if_pos (by omega)]
      · rw [if_neg hin, if_neg (by omega)]

theorem bitmapSetRun_len (v : Bool) : (bitmapSetRun b st v cnt).btmpBytesLen = b.btmpBytesLen := by
  induction cnt with
  | zero => rfl
  | succ cnt ih => exact ih

/-- **First fit.**  If the bitmap has a run of `cnt` clear bits, `bitmap_scan` returns the start of
the first one.  The loop of `vaddr_get`, which for one bit is the call of `palloc` and of the
allocators of the file system, then sets these bits and leaves all others as they are. -/
theorem firstFit_spec (hcnt : 1 ≤ cnt) (h : RunInside b cnt) :
    ∃ st, bitmapScan b cnt = .ok (some st) ∧ st + cnt ≤ 8 * b.btmpBytesLen ∧ Clear b st cnt ∧
      (∀ st', st' < st → ¬ Clear b st' cnt) ∧
      (∀ i, bitmapScanTest (bitmapSetRun b st true cnt) i =
        if st ≤ i ∧ i < st + cnt then true else bitmapScanTest b i) ∧
      (bitmapSetRun b st true cnt).btmpBytesLen = b.btmpBytesLen ∧
      (cnt = 1 → bitmapSetRun b st true cnt = bitmapSet b st true) := by
  obtain ⟨st, hscan, hin, hclear, hfirst⟩ := bitmapScan_inside hcnt h
  refine ⟨st, hscan, hin, hclear, hfirst, bitmapScanTest_setRun true, bitmapSetRun_len true, ?_⟩
  rintro rfl
  rfl

theorem firstFit_spec_fragmented : bitmapScan fragmented 3 = .ok (some 14) ∧
    Clear fragmented 14 3 ∧ ¬ Clear fragmented 11 3 ∧
      (∀ i < 40, bitmapScanTest (bitmapSetRun fragmented 14 true 3) i =
        if 14 ≤ i ∧ i < 17 then true else bitmapScanTest fragmented i) := by
  obtain ⟨st, hscan, -, hclear, hfirst, hset, -, -⟩ := firstFit_spec (by decide) fragmented_run
  have hst : bitmapScan fragmented 3 = .ok (some 14) := rfl
  cases hst.symm.trans hscan
  exact ⟨hst, hclear, hfirst 11 (by decide), fun i _ => hset i⟩

/-! ## Machine words -/

/-- A word as an `int`. -/
def toInt32 (x : ℕ) : ℤ := (BitVec.ofNat 32 x).toInt

/-- The third loop with its counters as words. -/
def scanRunInt (btmp : Bitmap) (cnt : ℕ) : ℕ → ℕ → ℕ → ℤ
  | 0, _, _ => -1
  | bitLeft + 1, nextBit, count =>
    let count := if bitmapScanTest btmp nextBit then 0 else (count + 1) % 2 ^ 32
    if count = cnt then toInt32 ((nextBit + 2 ^ 32 - cnt + 1) % 2 ^ 32)
    else scanRunInt btmp cnt bitLeft ((nextBit + 1) % 2 ^ 32) count

/-- `bitmap_scan` with the types of the source. -/
def bitmapScanInt (btmp : Bitmap) (cnt : ℕ) : Except Halt ℤ := do
  let idxByte := scanByte btmp btmp.btmpBytesLen 0
  assert (idxByte < btmp.btmpBytesLen) "bitmap_scan" "idx_byte < btmp->btmp_bytes_len"
  if idxByte = btmp.btmpBytesLen then .ok (-1)
  else
    let idxBit := scanBit (btmp.bits idxByte) 8 0
    let bitIdxStart := (idxByte * 8 + idxBit) % 2 ^ 32
    if cnt = 1 then .ok (toInt32 bitIdxStart)
    else
      .ok (scanRunInt btmp cnt ((btmp.btmpBytesLen * 8 % 2 ^ 32 + 2 ^ 32 - bitIdxStart) % 2 ^ 32)
        ((bitIdxStart + 1) % 2 ^ 32) 1)

theorem toInt32_eq {x : ℕ} (h : x < 2 ^ 31) : toInt32 x = x := by
  unfold toInt32
  rw [BitVec.toInt_eq_toNat_of_lt (by rw [BitVec.toNat_ofNat]; omega), BitVec.toNat_ofNat,
    Nat.mod_eq_of_lt (by omega)]

/-- The result as an `int`. -/
def scanResult (r : Option ℕ) : ℤ := r.elim (-1) Int.ofNat

theorem scanRunInt_eq (hcnt : 1 ≤ cnt) (hend : next + left ≤ 2 ^ 31) (hle : count ≤ next) :
    scanRunInt b cnt left next count = scanResult (scanRun b cnt left next count) := by
  induction left generalizing next count with
  | zero => rfl
  | succ left ih =>
    unfold scanRunInt scanRun
    dsimp only
    rw [Nat.mod_eq_of_lt (show count + 1 < 2 ^ 32 by omega),
      Nat.mod_eq_of_lt (show next + 1 < 2 ^ 32 by omega)]
    generalize hnew : (if bitmapScanTest b next then 0 else count + 1) = count'
    have hnew' : count' ≤ next + 1 := by
      rw [← hnew]
      split
      · exact Nat.zero_le _
      · omega
    by_cases hc : count' = cnt
    · rw [if_pos hc, if_pos hc, show (next + 2 ^ 32 - cnt + 1) % 2 ^ 32 = next + 1 - cnt by omega,
        toInt32_eq (by omega)]
      rfl
    · rw [if_neg hc, if_neg hc]
      exact ih (by omega) hnew'

/-- The words of the source do not overflow as long as the bits can be counted in an `int`. -/
theorem bitmapScanInt_eq (hcnt : 1 ≤ cnt) (hlen : 8 * b.btmpBytesLen < 2 ^ 31) :
    bitmapScanInt b cnt = (bitmapScan b cnt).map scanResult := by
  unfold bitmapScanInt bitmapScan
  by_cases hlt : scanByte b b.btmpBytesLen 0 < b.btmpBytesLen
  · obtain ⟨hstart, -, -⟩ := firstClear_spec hlt
    rw [assert_bind_of hlt, assert_bind_of hlt, if_neg (Nat.ne_of_lt hlt), if_neg (Nat.ne_of_lt hlt)]
    dsimp only at hstart ⊢
    generalize scanByte b b.btmpBytesLen 0 * 8 +
      scanBit (b.bits (scanByte b b.btmpBytesLen 0)) 8 0 = start at hstart ⊢
    rw [Nat.mod_eq_of_lt (show start < 2 ^ 32 by omega),
      Nat.mod_eq_of_lt (show start + 1 < 2 ^ 32 by omega),
      show (b.btmpBytesLen * 8 % 2 ^ 32 + 2 ^ 32 - start) % 2 ^ 32 = b.btmpBytesLen * 8 - start by omega]
    by_cases h1 : cnt = 1
    · rw [if_pos h1, if_pos h1, toInt32_eq (by omega)]
      rfl
    · rw [if_neg h1, if_neg h1, scanRunInt_eq hcnt (by omega) (by omega)]
      rfl
  · rw [assert_bind_of_not hlt, assert_bind_of_not hlt]
    rfl

end HcOs
