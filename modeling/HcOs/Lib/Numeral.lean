import Mathlib.Data.List.Induction
import Mathlib.Data.Nat.Digits.Defs
import Mathlib.Tactic.Common

/-!
# Numerals

The numeral of a number in a base, the most significant digit first: `0` is one digit, and no other
number begins with a 0.  `eq_numeral` says that this determines the digits; `numeral_of_lt` and
`numeral_of_le` are the recursion by which programs produce them.
-/

namespace HcOs.Lib

/-- The digits of `n` in the base `b`, the most significant first. -/
def numeral (b n : ℕ) : List ℕ := if n = 0 then [0] else (Nat.digits b n).reverse

/-- The number that a list of digits stands for. -/
def ofNumeral (b : ℕ) (ds : List ℕ) : ℕ := ds.foldl (fun n d => b * n + d) 0

variable {b n : ℕ} {ds : List ℕ}

theorem numeral_of_lt (h : n < b) : numeral b n = [n] := by
  unfold numeral
  split
  · next h0 => rw [h0]
  · next h0 =>
    rw [Nat.digits_of_lt b n h0 h]
    rfl

theorem numeral_of_le (hb : 1 < b) (h : b ≤ n) :
    numeral b n = numeral b (n / b) ++ [n % b] := by
  have hn : n ≠ 0 := by omega
  have hdiv : n / b ≠ 0 := Nat.ne_of_gt (Nat.div_pos h (by omega))
  rw [numeral, if_neg hn, numeral, if_neg hdiv, Nat.digits_eq_cons_digits_div hb hn,
    List.reverse_cons]

theorem numeral_ne_nil (hb : 1 < b) (n : ℕ) : numeral b n ≠ [] := by
  by_cases h : n < b
  · rw [numeral_of_lt h]
    exact List.cons_ne_nil _ _
  · rw [numeral_of_le hb (Nat.not_lt.mp h)]
    exact List.append_ne_nil_of_right_ne_nil _ (List.cons_ne_nil _ _)

theorem lt_of_mem_numeral (hb : 1 < b) {d : ℕ} (hd : d ∈ numeral b n) : d < b := by
  unfold numeral at hd
  split at hd
  · rw [List.mem_singleton] at hd
    omega
  · exact Nat.digits_lt_base hb (List.mem_reverse.mp hd)

theorem ofNumeral_append (b : ℕ) (ds : List ℕ) (d : ℕ) :
    ofNumeral b (ds ++ [d]) = b * ofNumeral b ds + d := by
  unfold ofNumeral
  rw [List.foldl_append]
  rfl

theorem ofNumeral_reverse (b : ℕ) (ds : List ℕ) :
    ofNumeral b ds.reverse = Nat.ofDigits b ds := by
  induction ds with
  | nil => rfl
  | cons d ds ih =>
    rw [List.reverse_cons, ofNumeral_append, ih, Nat.ofDigits_cons, Nat.add_comm]

/-- A numeral reads back as its number. -/
theorem ofNumeral_numeral (b n : ℕ) : ofNumeral b (numeral b n) = n := by
  unfold numeral
  split
  · next h0 =>
    rw [h0]
    rfl
  · rw [ofNumeral_reverse, Nat.ofDigits_digits]

/-- Digits without a leading zero are the numeral of their number. -/
theorem eq_numeral (hb : 1 < b) (hne : ds ≠ []) (hlt : ∀ d ∈ ds, d < b)
    (hlead : ds.head hne = 0 → ds = [0]) : ds = numeral b (ofNumeral b ds) := by
  by_cases h0 : ds.head hne = 0
  · rw [hlead h0]
    rfl
  · have hdigits : Nat.digits b (ofNumeral b ds) = ds.reverse := by
      have hrev := ofNumeral_reverse b ds.reverse
      rw [List.reverse_reverse] at hrev
      rw [hrev]
      refine Nat.digits_ofDigits b hb _ (fun d hd => hlt d (List.mem_reverse.mp hd)) fun h => ?_
      rw [List.getLast_reverse]
      exact h0
    have hpos : ofNumeral b ds ≠ 0 := by
      intro hz
      rw [hz, Nat.digits_zero] at hdigits
      exact hne (List.reverse_eq_nil_iff.mp hdigits.symm)
    rw [numeral, if_neg hpos, hdigits, List.reverse_reverse]

/-! ## A fixed number of digits -/

/-- `n` digits of `v`, with the zeros in front. -/
def fixed (b : ℕ) : ℕ → ℕ → List ℕ
  | 0, _ => []
  | n + 1, v => v / b ^ n % b :: fixed b n v

variable {v : ℕ}

theorem length_fixed (b n v : ℕ) : (fixed b n v).length = n := by
  induction n with
  | zero => rfl
  | succ n ih => rw [fixed, List.length_cons, ih]

theorem getD_fixed {i : ℕ} (hi : i < n) : (fixed b n v).getD i 0 = v / b ^ (n - 1 - i) % b := by
  induction n generalizing i with
  | zero => omega
  | succ n ih =>
    cases i with
    | zero => rfl
    | succ i =>
      rw [fixed, List.getD_cons_succ, ih (by omega), show n + 1 - 1 - (i + 1) = n - 1 - i by omega]

theorem lt_of_mem_fixed (hb : 0 < b) {d : ℕ} (hd : d ∈ fixed b n v) : d < b := by
  induction n with
  | zero => cases hd
  | succ n ih =>
    rcases List.mem_cons.mp hd with rfl | hd
    · exact Nat.mod_lt _ hb
    · exact ih hd

theorem ofNumeral_cons (b d : ℕ) (ds : List ℕ) :
    ofNumeral b (d :: ds) = d * b ^ ds.length + ofNumeral b ds := by
  induction ds using List.reverseRecOn with
  | nil =>
    rw [List.length_nil, Nat.pow_zero, Nat.mul_one]
    exact Nat.add_comm _ _
  | append_singleton ds e ih =>
    rw [← List.cons_append, ofNumeral_append, ofNumeral_append, ih, List.length_append,
      List.length_singleton, Nat.pow_succ, Nat.mul_add, Nat.add_assoc, Nat.mul_comm (b ^ _) b,
      Nat.mul_left_comm]

theorem ofNumeral_fixed (b n v : ℕ) : ofNumeral b (fixed b n v) = v % b ^ n := by
  induction n with
  | zero => rw [Nat.pow_zero, Nat.mod_one]; rfl
  | succ n ih =>
    rw [fixed, ofNumeral_cons, length_fixed, ih, Nat.pow_succ, Nat.mod_mul, Nat.mul_comm,
      Nat.add_comm]

/-- Without the zeros in front it is the numeral; of 0 nothing is left. -/
theorem dropWhile_fixed (hb : 1 < b) (hv : v < b ^ n) :
    (fixed b n v).dropWhile (· = 0) = if v = 0 then [] else numeral b v := by
  induction n with
  | zero =>
    rw [Nat.pow_zero, Nat.lt_one_iff] at hv
    rw [if_pos hv]
    rfl
  | succ n ih =>
    have hhead : v / b ^ n % b = v / b ^ n := by
      refine Nat.mod_eq_of_lt (Nat.div_lt_of_lt_mul ?_)
      rwa [← Nat.pow_succ]
    by_cases hlt : v < b ^ n
    · rw [fixed, hhead, Nat.div_eq_of_lt hlt, List.dropWhile_cons_of_pos (by decide), ih hlt]
    · have hdiv : v / b ^ n ≠ 0 :=
        Nat.ne_of_gt (Nat.div_pos (Nat.not_lt.mp hlt) (Nat.pow_pos (by omega)))
      have hpos : v ≠ 0 := by
        rintro rfl
        exact hdiv (Nat.zero_div _)
      have hcons : fixed b (n + 1) v = v / b ^ n :: fixed b n v := by rw [fixed, hhead]
      have hnum : fixed b (n + 1) v = numeral b v := by
        have heq := @eq_numeral b (fixed b (n + 1) v) hb (List.cons_ne_nil _ _)
          (fun d hd => lt_of_mem_fixed (by omega) hd)
          (fun h0 => absurd (hhead.symm.trans h0) hdiv)
        rwa [ofNumeral_fixed, Nat.mod_eq_of_lt hv] at heq
      rw [if_neg hpos, ← hnum, hcons, List.dropWhile_cons_of_neg (by simpa using hdiv)]

end HcOs.Lib
