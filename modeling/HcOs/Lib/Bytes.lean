import Mathlib.Algebra.Group.Nat.Defs
import Mathlib.Data.List.GetD
import Mathlib.Tactic.Common

/-!
# Byte memories

A memory is a function from addresses to bytes.  Blocks are moved by `copy` and `fill`; 32-bit
words are stored with the low byte first.  Every reader of a memory built by these is settled by
two kinds of lemma: what an operation wrote (`copy_of_mem`, `getWord_putWord`) and what it did not
touch (`copy_of_not_mem`, `getWord_putWord_of_apart`).
-/

namespace HcOs.Lib

/-- A field of `w` bits from bit `k` on. -/
theorem and_mask (x w k : ℕ) : x &&& ((2 ^ w - 1) * 2 ^ k) = x / 2 ^ k % 2 ^ w * 2 ^ k := by
  apply Nat.eq_of_testBit_eq
  intro i
  rw [Nat.testBit_and, Nat.testBit_mul_two_pow, Nat.testBit_mul_two_pow,
    Nat.testBit_two_pow_sub_one, Nat.testBit_mod_two_pow, Nat.testBit_div_two_pow]
  by_cases hi : k ≤ i
  · rw [Nat.sub_add_cancel hi]
    simp only [hi, decide_true, Bool.true_and, Bool.and_comm]
  · simp only [hi, decide_false, Bool.false_and, Bool.and_false]

abbrev Bytes := ℕ → BitVec 8

namespace Bytes

variable {m m' src : Bytes} {a b i n : ℕ}

/-- The bytes `b, …, b + n - 1` of `src` copied to `a`. -/
def copy (m : Bytes) (a : ℕ) (src : Bytes) (b n : ℕ) : Bytes :=
  fun i => if a ≤ i ∧ i < a + n then src (b + (i - a)) else m i

/-- `n` bytes from `a` on set to `v`. -/
def fill (m : Bytes) (a : ℕ) (v : BitVec 8) (n : ℕ) : Bytes :=
  fun i => if a ≤ i ∧ i < a + n then v else m i

theorem copy_of_mem (hlo : a ≤ i) (hhi : i < a + n) : copy m a src b n i = src (b + (i - a)) :=
  if_pos ⟨hlo, hhi⟩

theorem copy_of_not_mem (h : i < a ∨ a + n ≤ i) : copy m a src b n i = m i :=
  if_neg (by omega)

theorem fill_of_mem {v : BitVec 8} (hlo : a ≤ i) (hhi : i < a + n) : fill m a v n i = v :=
  if_pos ⟨hlo, hhi⟩

theorem fill_of_not_mem {v : BitVec 8} (h : i < a ∨ a + n ≤ i) : fill m a v n i = m i :=
  if_neg (by omega)

theorem copy_zero : copy m a src b 0 = m := by
  funext i
  exact copy_of_not_mem (by omega)

theorem copy_one : copy m a src b 1 = Function.update m a (src b) := by
  funext i
  rcases eq_or_ne i a with rfl | hne
  · rw [Function.update_self, copy_of_mem (Nat.le_refl i) (Nat.lt_succ_self i), Nat.sub_self,
      Nat.add_zero]
  · rw [Function.update_of_ne hne, copy_of_not_mem (by omega)]

theorem copy_congr {src' : Bytes} (h : ∀ i, b ≤ i → i < b + n → src' i = src i) :
    copy m a src' b n = copy m a src b n := by
  funext i
  by_cases hi : a ≤ i ∧ i < a + n
  · rw [copy_of_mem hi.1 hi.2, copy_of_mem hi.1 hi.2]
    exact h _ (Nat.le_add_right _ _) (by omega)
  · rw [copy_of_not_mem (by omega), copy_of_not_mem (by omega)]

/-- Two copies of adjacent blocks are one copy. -/
theorem copy_append (k : ℕ) :
    copy (copy m a src b n) (a + n) src (b + n) k = copy m a src b (n + k) := by
  funext i
  by_cases hlo : i < a + n
  · rw [copy_of_not_mem (Or.inl hlo)]
    by_cases ha : a ≤ i
    · rw [copy_of_mem ha hlo, copy_of_mem ha (by omega)]
    · rw [copy_of_not_mem (by omega), copy_of_not_mem (by omega)]
  · by_cases hhi : i < a + n + k
    · rw [copy_of_mem (by omega) hhi, copy_of_mem (by omega) (by omega),
        show b + n + (i - (a + n)) = b + (i - a) by omega]
    · rw [copy_of_not_mem (by omega), copy_of_not_mem (by omega), copy_of_not_mem (by omega)]

/-- A block that is read, changed in part and written back: only the part changes. -/
theorem copy_modify {buf : Bytes} {k : ℕ} (hbk : b + k ≤ n) :
    copy m a (copy (copy buf 0 m a n) b src 0 k) 0 n = copy m (a + b) src 0 k := by
  funext i
  by_cases hi : a ≤ i ∧ i < a + n
  · rw [copy_of_mem hi.1 hi.2, Nat.zero_add]
    by_cases hin : a + b ≤ i ∧ i < a + b + k
    · rw [copy_of_mem (by omega) (by omega), copy_of_mem hin.1 hin.2,
        show i - a - b = i - (a + b) by omega]
    · rw [copy_of_not_mem (by omega), copy_of_mem (Nat.zero_le _) (by omega),
        copy_of_not_mem (by omega), show a + (i - a - 0) = i by omega]
  · rw [copy_of_not_mem (by omega), copy_of_not_mem (by omega)]

/-! ## Copies of a buffer -/

/-- The first `n` bytes of `buf` are in `m` from `a` on. -/
def Mirrors (m : Bytes) (a : ℕ) (buf : Bytes) (n : ℕ) : Prop := ∀ i, i < n → m (a + i) = buf i

variable {buf buf' : Bytes} {k w : ℕ}

/-- A change of the buffer inside one block is made up for by copying this block. -/
theorem Mirrors.copy_block (h : Mirrors m a buf n)
    (hsame : ∀ i, i < k ∨ k + w ≤ i → buf' i = buf i) :
    Mirrors (copy m (a + k) buf' k w) a buf' n := by
  intro i hi
  by_cases hin : k ≤ i ∧ i < k + w
  · rw [copy_of_mem (by omega) (by omega), show k + (a + i - (a + k)) = i by omega]
  · rw [copy_of_not_mem (by omega), h i hi, hsame i (by omega)]

/-- A block that is copied elsewhere leaves the copy of the buffer alone. -/
theorem Mirrors.copy_apart (h : Mirrors m a buf n) (hapart : a + n ≤ k ∨ k + w ≤ a) :
    Mirrors (copy m k src b w) a buf n := by
  intro i hi
  rw [copy_of_not_mem (by omega)]
  exact h i hi

/-! ## Words -/

/-- The word at `a`. -/
def getWord (m : Bytes) (a : ℕ) : ℕ :=
  (m a).toNat + 2 ^ 8 * (m (a + 1)).toNat + 2 ^ 16 * (m (a + 2)).toNat + 2 ^ 24 * (m (a + 3)).toNat

/-- A bit of a word is a bit of one of its bytes. -/
theorem testBit_getWord (m : Bytes) (a : ℕ) {k j : ℕ} (hk : k < 4) (hj : j < 8) :
    (getWord m a).testBit (8 * k + j) = (m (a + k)).toNat.testBit j := by
  have hbyte : (m (a + k)).toNat = getWord m a / 2 ^ (8 * k) % 2 ^ 8 := by
    have h0 := (m a).isLt
    have h1 := (m (a + 1)).isLt
    have h2 := (m (a + 2)).isLt
    have h3 := (m (a + 3)).isLt
    unfold getWord
    obtain rfl | rfl | rfl | rfl : k = 0 ∨ k = 1 ∨ k = 2 ∨ k = 3 := by omega
    · rw [Nat.add_zero]
      omega
    all_goals omega
  rw [hbyte, Nat.testBit_mod_two_pow, Nat.testBit_div_two_pow, decide_eq_true hj, Bool.true_and,
    Nat.add_comm]

/-- Byte `k` of a word. -/
def byteOf (w k : ℕ) : BitVec 8 := BitVec.ofNat 8 (w / 2 ^ (8 * k))

def putWord (m : Bytes) (a w : ℕ) : Bytes :=
  fun i => if a ≤ i ∧ i < a + 4 then byteOf w (i - a) else m i

theorem getWord_lt (m : Bytes) (a : ℕ) : getWord m a < 2 ^ 32 := by
  have h0 := (m a).isLt
  have h1 := (m (a + 1)).isLt
  have h2 := (m (a + 2)).isLt
  have h3 := (m (a + 3)).isLt
  unfold getWord
  omega

theorem getWord_congr (h : ∀ k, k < 4 → m (a + k) = m' (b + k)) : getWord m a = getWord m' b := by
  unfold getWord
  rw [h 1 (by omega), h 2 (by omega), h 3 (by omega)]
  have h0 := h 0 (by omega)
  rw [Nat.add_zero, Nat.add_zero] at h0
  rw [h0]

theorem toNat_byteOf (w k : ℕ) : (byteOf w k).toNat = w / 2 ^ (8 * k) % 2 ^ 8 :=
  BitVec.toNat_ofNat _ _

theorem putWord_of_mem {w : ℕ} (hlo : a ≤ i) (hhi : i < a + 4) :
    putWord m a w i = byteOf w (i - a) :=
  if_pos ⟨hlo, hhi⟩

theorem putWord_of_not_mem {w : ℕ} (h : i < a ∨ a + 4 ≤ i) : putWord m a w i = m i :=
  if_neg (by omega)

theorem getWord_putWord (m : Bytes) (a w : ℕ) : getWord (putWord m a w) a = w % 2 ^ 32 := by
  unfold getWord
  rw [putWord_of_mem (Nat.le_refl a) (by omega), putWord_of_mem (i := a + 1) (by omega) (by omega),
    putWord_of_mem (i := a + 2) (by omega) (by omega),
    putWord_of_mem (i := a + 3) (by omega) (by omega)]
  simp only [toNat_byteOf, Nat.sub_self, Nat.add_sub_cancel_left]
  omega

theorem getWord_putWord_of_apart {w : ℕ} (h : i + 4 ≤ a ∨ a + 4 ≤ i) :
    getWord (putWord m a w) i = getWord m i :=
  getWord_congr fun k hk => putWord_of_not_mem (by omega)

theorem getWord_copy_of_mem (hlo : a ≤ i) (hhi : i + 4 ≤ a + n) :
    getWord (copy m a src b n) i = getWord src (b + (i - a)) :=
  getWord_congr fun k hk => by
    rw [copy_of_mem (by omega) (by omega), show b + (i + k - a) = b + (i - a) + k by omega]

theorem getWord_copy_of_apart (h : i + 4 ≤ a ∨ a + n ≤ i) :
    getWord (copy m a src b n) i = getWord m i :=
  getWord_congr fun k hk => copy_of_not_mem (by omega)

/-- Consecutive words. -/
def putWords : Bytes → ℕ → List ℕ → Bytes
  | m, _, [] => m
  | m, a, w :: ws => putWords (putWord m a w) (a + 4) ws

theorem putWords_of_not_mem (ws : List ℕ) (h : i < a ∨ a + 4 * ws.length ≤ i) :
    putWords m a ws i = m i := by
  induction ws generalizing m a with
  | nil => rfl
  | cons w ws ih =>
    rw [List.length_cons] at h
    unfold putWords
    rw [ih (by omega), putWord_of_not_mem (by omega)]

/-- Where words are written, the memory before does not matter. -/
theorem putWords_of_mem (m m' : Bytes) (ws : List ℕ) (hlo : a ≤ i) (hhi : i < a + 4 * ws.length) :
    putWords m a ws i = putWords m' a ws i := by
  induction ws generalizing m m' a with
  | nil => exact absurd hhi (Nat.not_lt.mpr hlo)
  | cons w ws ih =>
    rw [List.length_cons] at hhi
    unfold putWords
    by_cases hi : i < a + 4
    · rw [putWords_of_not_mem ws (Or.inl hi), putWords_of_not_mem ws (Or.inl hi),
        putWord_of_mem hlo hi, putWord_of_mem hlo hi]
    · exact ih _ _ (by omega) (by omega)

theorem getWord_putWords (m : Bytes) (a : ℕ) (ws : List ℕ) (k : ℕ) (hk : k < ws.length) :
    getWord (putWords m a ws) (a + 4 * k) = ws.getD k 0 % 2 ^ 32 := by
  induction ws generalizing m a k with
  | nil => exact absurd hk (Nat.not_lt_zero k)
  | cons w ws ih =>
    unfold putWords
    cases k with
    | zero =>
      have hkeep : getWord (putWords (putWord m a w) (a + 4) ws) a = getWord (putWord m a w) a :=
        getWord_congr fun k hk => putWords_of_not_mem ws (by omega)
      rw [show a + 4 * 0 = a by omega, hkeep, getWord_putWord, List.getD_cons_zero]
    | succ k =>
      rw [List.length_cons] at hk
      rw [show a + 4 * (k + 1) = a + 4 + 4 * k by omega, ih _ _ _ (by omega), List.getD_cons_succ]

/-! ## Lists of bytes -/

variable {l l' : List (BitVec 8)} {c : BitVec 8}

/-- The bytes of a list from `a` on. -/
def write (m : Bytes) (a : ℕ) (l : List (BitVec 8)) : Bytes :=
  fun i => if a ≤ i ∧ i < a + l.length then l.getD (i - a) 0 else m i

theorem write_of_mem (hlo : a ≤ i) (hhi : i < a + l.length) :
    write m a l i = l.getD (i - a) 0 :=
  if_pos ⟨hlo, hhi⟩

theorem write_of_not_mem (h : i < a ∨ a + l.length ≤ i) : write m a l i = m i :=
  if_neg (by omega)

theorem write_nil : write m a [] = m := by
  funext i
  exact write_of_not_mem (by rw [List.length_nil]; omega)

theorem write_singleton : write m a [c] = Function.update m a c := by
  funext i
  rcases eq_or_ne i a with rfl | hne
  · rw [Function.update_self, write_of_mem (Nat.le_refl i) (by rw [List.length_singleton]; omega),
      Nat.sub_self]
    rfl
  · rw [Function.update_of_ne hne, write_of_not_mem (by rw [List.length_singleton]; omega)]

/-- Adjacent lists are one list. -/
theorem write_append : write (write m a l) (a + l.length) l' = write m a (l ++ l') := by
  funext i
  by_cases hlo : i < a + l.length
  · rw [write_of_not_mem (Or.inl hlo)]
    by_cases ha : a ≤ i
    · rw [write_of_mem ha hlo, write_of_mem ha (by rw [List.length_append]; omega),
        List.getD_append _ _ _ _ (by omega)]
    · rw [write_of_not_mem (by omega), write_of_not_mem (by omega)]
  · by_cases hhi : i < a + l.length + l'.length
    · rw [write_of_mem (by omega) hhi, write_of_mem (by omega) (by rw [List.length_append]; omega),
        List.getD_append_right _ _ _ _ (by omega),
        show i - (a + l.length) = i - a - l.length by omega]
    · rw [write_of_not_mem (by omega), write_of_not_mem (by omega),
        write_of_not_mem (by rw [List.length_append]; omega)]

/-- A list that covers what was written before. -/
theorem write_write (h : l.length ≤ l'.length) : write (write m a l) a l' = write m a l' := by
  funext i
  by_cases hi : a ≤ i ∧ i < a + l'.length
  · rw [write_of_mem hi.1 hi.2, write_of_mem hi.1 hi.2]
  · rw [write_of_not_mem (by omega), write_of_not_mem (by omega), write_of_not_mem (by omega)]

theorem write_cons : write (Function.update m a c) (a + 1) l = write m a (c :: l) := by
  have happ := @write_append m a [c] l
  rwa [write_singleton] at happ

/-! ## Strings -/

/-- The bytes of `s` from `a` on, none of them 0, and a 0 behind them. -/
def IsStr (m : Bytes) : ℕ → List (BitVec 8) → Prop
  | a, [] => m a = 0#8
  | a, c :: s => m a = c ∧ c ≠ 0#8 ∧ IsStr m (a + 1) s

instance decidableIsStr (m : Bytes) : (a : ℕ) → (s : List (BitVec 8)) → Decidable (IsStr m a s)
  | a, [] => inferInstanceAs (Decidable (m a = 0#8))
  | a, c :: s =>
    have := decidableIsStr m (a + 1) s
    inferInstanceAs (Decidable (m a = c ∧ c ≠ 0#8 ∧ IsStr m (a + 1) s))

variable {s : List (BitVec 8)}

/-- A string is not touched by what happens elsewhere. -/
theorem IsStr.congr (h : IsStr m a s) (hm : ∀ i, a ≤ i → i ≤ a + s.length → m' i = m i) :
    IsStr m' a s := by
  induction s generalizing a with
  | nil => exact (hm a (Nat.le_refl a) (Nat.le_add_right _ _)).trans h
  | cons c s ih =>
    obtain ⟨hc, hne, hs⟩ := h
    rw [List.length_cons] at hm
    refine ⟨(hm a (Nat.le_refl a) (by omega)).trans hc, hne, ih hs fun i hlo hhi => ?_⟩
    exact hm i (by omega) (by omega)

theorem IsStr.zero_not_mem (h : IsStr m a s) : 0#8 ∉ s := by
  induction s generalizing a with
  | nil => nofun
  | cons c s ih =>
    rw [List.mem_cons, not_or]
    exact ⟨Ne.symm h.2.1, ih h.2.2⟩

/-- A string in two parts. -/
theorem IsStr.append {s' : List (BitVec 8)} (h : IsStr m a (s ++ s')) :
    (∀ i < s.length, m (a + i) = s.getD i 0) ∧ IsStr m (a + s.length) s' := by
  induction s generalizing a with
  | nil => exact ⟨nofun, h⟩
  | cons c s ih =>
    obtain ⟨hc, -, hs⟩ := h
    obtain ⟨hbytes, hrest⟩ := ih hs
    rw [List.length_cons]
    refine ⟨fun i hi => ?_, ?_⟩
    · cases i with
      | zero => exact hc
      | succ i =>
        rw [Nat.add_comm i 1, ← Nat.add_assoc, hbytes i (by omega), Nat.add_comm 1 i,
          List.getD_cons_succ]
    · rw [Nat.add_comm s.length 1, ← Nat.add_assoc]
      exact hrest

/-- A list without a 0 that is written in front of a 0. -/
theorem isStr_write (hs : 0#8 ∉ s) (hend : m (a + s.length) = 0#8) : IsStr (write m a s) a s := by
  induction s generalizing m a with
  | nil =>
    rw [write_nil]
    exact hend
  | cons c s ih =>
    rw [List.mem_cons, not_or] at hs
    rw [List.length_cons] at hend
    have hrest := @ih (Function.update m a c) (a + 1) hs.2
      (by rw [Function.update_of_ne (by omega), Nat.add_right_comm]; exact hend)
    rw [write_cons] at hrest
    refine ⟨?_, Ne.symm hs.1, hrest⟩
    rw [write_of_mem (Nat.le_refl a) (by rw [List.length_cons]; omega), Nat.sub_self,
      List.getD_cons_zero]

/-- A list with a 0 is written as a string, whatever is behind it. -/
theorem exists_isStr_write (h : 0#8 ∈ l) (a : ℕ) :
    ∃ s, s.length < l.length ∧ ∀ m : Bytes, IsStr (write m a l) a s := by
  induction l generalizing a with
  | nil => cases h
  | cons c l ih =>
    have hhead : ∀ m : Bytes, write m a (c :: l) a = c := fun m => by
      rw [write_of_mem (Nat.le_refl a) (by rw [List.length_cons]; omega), Nat.sub_self,
        List.getD_cons_zero]
    by_cases hc : c = 0#8
    · exact ⟨[], Nat.succ_pos _, fun m => (hhead m).trans hc⟩
    · obtain ⟨s, hlen, hs⟩ := ih (List.mem_of_ne_of_mem (Ne.symm hc) h) (a + 1)
      refine ⟨c :: s, Nat.succ_lt_succ hlen, fun m => ⟨hhead m, hc, ?_⟩⟩
      rw [← write_cons]
      exact hs _

theorem IsStr.at_end (h : IsStr m a s) : m (a + s.length) = 0#8 := by
  rw [← List.append_nil s] at h
  exact h.append.2

/-- A string is determined by the memory. -/
theorem IsStr.unique {s' : List (BitVec 8)} (h : IsStr m a s) (h' : IsStr m a s') : s = s' := by
  induction s generalizing a s' with
  | nil =>
    cases s' with
    | nil => rfl
    | cons c s' => exact absurd (h'.1.symm.trans h) h'.2.1
  | cons c s ih =>
    cases s' with
    | nil => exact absurd (h.1.symm.trans h') h.2.1
    | cons c' s' =>
      rw [← h.1, ← h'.1, ih h.2.2 h'.2.2]

end Bytes

end HcOs.Lib
