import Mathlib.Data.List.Count
import HcOs.Stdio.CString

/-!
# `strchr`, `strrchr` and `strchrs` (`lib/string.c`)

The three searches compare `*str`, a `char` and so signed, with the `uint8_t` they are given.  Both
are promoted to `int`: a byte from `0x80` on is negative on the left and positive on the right, and
is never found (`eqChar_iff`).  Up to that the loops do what their comments say, for whatever is
compared (`strchr_spec`, `strrchr_spec`, `strchrs_spec`).

`searches_iff`: they find the bytes of a string exactly if the character is below `0x80` or does not
occur.
-/

namespace HcOs.Stdio

open HcOs.Lib

/-- `*str == ch`, after the promotion of both sides to `int`. -/
def EqChar (c ch : BitVec 8) : Prop := c.toInt = (ch.toNat : ℤ)

instance (c ch : BitVec 8) : Decidable (EqChar c ch) := inferInstanceAs (Decidable (_ = _))

/-! ## The searches -/

def strchrLoop (mem : Bytes) (ch : BitVec 8) : ℕ → ℕ → Except Halt ℕ
  | 0, _ => .error .noReturn
  | fuel + 1, str =>
    if mem str ≠ 0#8 then
      if EqChar (mem str) ch then .ok str else strchrLoop mem ch fuel (str + 1)
    else .ok 0

/-- `strchr`; 0 is the result `NULL`. -/
def strchr (mem : Bytes) (str : ℕ) (ch : BitVec 8) : Except Halt ℕ := do
  assert (str ≠ 0) "strchr" "str != NULL"
  strchrLoop mem ch (2 ^ 32) str

def strrchrLoop (mem : Bytes) (ch : BitVec 8) : ℕ → ℕ → ℕ → Except Halt ℕ
  | 0, _, _ => .error .noReturn
  | fuel + 1, str, lastChar =>
    if mem str ≠ 0#8 then
      let lastChar := if EqChar (mem str) ch then str else lastChar
      strrchrLoop mem ch fuel (str + 1) lastChar
    else .ok lastChar

/-- `strrchr`; 0 is the result `NULL`. -/
def strrchr (mem : Bytes) (str : ℕ) (ch : BitVec 8) : Except Halt ℕ := do
  assert (str ≠ 0) "strrchr" "str != NULL"
  strrchrLoop mem ch (2 ^ 32) str 0

def strchrsLoop (mem : Bytes) (ch : BitVec 8) : ℕ → ℕ → ℕ → Except Halt ℕ
  | 0, _, _ => .error .noReturn
  | fuel + 1, p, chCnt =>
    if mem p ≠ 0#8 then
      let chCnt := if EqChar (mem p) ch then (chCnt + 1) % 2 ^ 32 else chCnt
      strchrsLoop mem ch fuel (p + 1) chCnt
    else .ok chCnt

def strchrs (mem : Bytes) (str : ℕ) (ch : BitVec 8) : Except Halt ℕ := do
  assert (str ≠ 0) "strchrs" "str != NULL"
  strchrsLoop mem ch (2 ^ 32) str 0

/-! ## Positions -/

/-- The first byte of `s` with the property `P` has the index `i`. -/
def FirstAt (P : BitVec 8 → Prop) (s : List (BitVec 8)) (i : ℕ) : Prop :=
  (∃ c, s[i]? = some c ∧ P c) ∧ ∀ j < i, ∀ c, s[j]? = some c → ¬P c

/-- The last byte of `s` with the property `P` has the index `i`. -/
def LastAt (P : BitVec 8 → Prop) (s : List (BitVec 8)) (i : ℕ) : Prop :=
  (∃ c, s[i]? = some c ∧ P c) ∧ ∀ j, i < j → ∀ c, s[j]? = some c → ¬P c

variable {P Q : BitVec 8 → Prop} {mem : Bytes} {str a fuel i n lastChar : ℕ}
variable {s : List (BitVec 8)} {c ch : BitVec 8}

theorem FirstAt.cons (h : FirstAt P s i) (hc : ¬P c) : FirstAt P (c :: s) (i + 1) := by
  refine ⟨h.1, fun j hj c' hc' => ?_⟩
  cases j with
  | zero =>
    cases hc'
    exact hc
  | succ j => exact h.2 j (by omega) c' hc'

theorem LastAt.cons (h : LastAt P s i) : LastAt P (c :: s) (i + 1) := by
  refine ⟨h.1, fun j hj c' hc' => ?_⟩
  cases j with
  | zero => omega
  | succ j => exact h.2 j (by omega) c' hc'

/-- The first byte is the last one with the property. -/
theorem lastAt_zero (hc : P c) (hs : ∀ c ∈ s, ¬P c) : LastAt P (c :: s) 0 := by
  refine ⟨⟨c, rfl, hc⟩, fun j hj c' hc' => ?_⟩
  cases j with
  | zero => omega
  | succ j => exact hs c' (List.mem_of_getElem? hc')

theorem FirstAt.congr (h : FirstAt P s i) (hPQ : ∀ c ∈ s, P c ↔ Q c) : FirstAt Q s i := by
  obtain ⟨⟨c, hc, hp⟩, hbefore⟩ := h
  refine ⟨⟨c, hc, (hPQ c (List.mem_of_getElem? hc)).mp hp⟩, fun j hj c' hc' hq => ?_⟩
  exact hbefore j hj c' hc' ((hPQ c' (List.mem_of_getElem? hc')).mpr hq)

theorem LastAt.congr (h : LastAt P s i) (hPQ : ∀ c ∈ s, P c ↔ Q c) : LastAt Q s i := by
  obtain ⟨⟨c, hc, hp⟩, hafter⟩ := h
  refine ⟨⟨c, hc, (hPQ c (List.mem_of_getElem? hc)).mp hp⟩, fun j hj c' hc' hq => ?_⟩
  exact hafter j hj c' hc' ((hPQ c' (List.mem_of_getElem? hc')).mpr hq)

/-! ## The loops -/

theorem strchrLoop_spec (h : mem.IsStr a s) (hfuel : s.length < fuel) :
    (∃ i, strchrLoop mem ch fuel a = .ok (a + i) ∧ FirstAt (EqChar · ch) s i) ∨
      strchrLoop mem ch fuel a = .ok 0 ∧ ∀ c ∈ s, ¬EqChar c ch := by
  induction s generalizing a fuel with
  | nil =>
    obtain ⟨f, rfl⟩ : ∃ f, fuel = f + 1 := ⟨fuel - 1, by omega⟩
    have hzero : mem a = 0#8 := h
    rw [strchrLoop, if_neg (not_not_intro hzero)]
    exact Or.inr ⟨rfl, nofun⟩
  | cons c s ih =>
    obtain ⟨hc, hne, hs⟩ := h
    obtain ⟨f, rfl⟩ : ∃ f, fuel = f + 1 := ⟨fuel - 1, by omega⟩
    rw [List.length_cons] at hfuel
    rw [strchrLoop, hc, if_pos hne]
    by_cases heq : EqChar c ch
    · rw [if_pos heq]
      exact Or.inl ⟨0, rfl, ⟨c, rfl, heq⟩, fun j hj => absurd hj (Nat.not_lt_zero j)⟩
    · rw [if_neg heq]
      rcases @ih (a + 1) f hs (by omega) with ⟨i, hok, hi⟩ | ⟨hok, hno⟩
      · refine Or.inl ⟨i + 1, ?_, hi.cons heq⟩
        rw [hok, Nat.add_assoc, Nat.add_comm 1]
      · exact Or.inr ⟨hok, List.forall_mem_cons.mpr ⟨heq, hno⟩⟩

/-- What was found before the loop is kept if nothing else is found. -/
theorem strrchrLoop_spec (h : mem.IsStr a s) (hfuel : s.length < fuel) :
    (∃ i, strrchrLoop mem ch fuel a lastChar = .ok (a + i) ∧ LastAt (EqChar · ch) s i) ∨
      strrchrLoop mem ch fuel a lastChar = .ok lastChar ∧ ∀ c ∈ s, ¬EqChar c ch := by
  induction s generalizing a fuel lastChar with
  | nil =>
    obtain ⟨f, rfl⟩ : ∃ f, fuel = f + 1 := ⟨fuel - 1, by omega⟩
    have hzero : mem a = 0#8 := h
    rw [strrchrLoop, if_neg (not_not_intro hzero)]
    exact Or.inr ⟨rfl, nofun⟩
  | cons c s ih =>
    obtain ⟨hc, hne, hs⟩ := h
    obtain ⟨f, rfl⟩ : ∃ f, fuel = f + 1 := ⟨fuel - 1, by omega⟩
    rw [List.length_cons] at hfuel
    rw [strrchrLoop, hc, if_pos hne]
    rcases @ih (a + 1) f (if EqChar c ch then a else lastChar) hs (by omega) with
      ⟨i, hok, hi⟩ | ⟨hok, hno⟩
    · refine Or.inl ⟨i + 1, ?_, hi.cons⟩
      rw [Nat.add_comm i, ← Nat.add_assoc]
      exact hok
    · by_cases heq : EqChar c ch
      · rw [if_pos heq] at hok
        exact Or.inl ⟨0, by simpa only [if_pos heq, Nat.add_zero] using hok, lastAt_zero heq hno⟩
      · rw [if_neg heq] at hok
        exact Or.inr ⟨by simpa only [if_neg heq] using hok, List.forall_mem_cons.mpr ⟨heq, hno⟩⟩

/-- The counter has room for the rest of the string. -/
theorem strchrsLoop_eq (h : mem.IsStr a s) (hfuel : s.length < fuel) (hn : n + s.length < 2 ^ 32) :
    strchrsLoop mem ch fuel a n = .ok (n + s.countP (EqChar · ch)) := by
  induction s generalizing a fuel n with
  | nil =>
    obtain ⟨f, rfl⟩ : ∃ f, fuel = f + 1 := ⟨fuel - 1, by omega⟩
    have hzero : mem a = 0#8 := h
    rw [strchrsLoop, if_neg (not_not_intro hzero), List.countP_nil, Nat.add_zero]
  | cons c s ih =>
    obtain ⟨hc, hne, hs⟩ := h
    obtain ⟨f, rfl⟩ : ∃ f, fuel = f + 1 := ⟨fuel - 1, by omega⟩
    rw [List.length_cons] at hfuel hn
    rw [strchrsLoop, hc, if_pos hne]
    dsimp only
    by_cases heq : EqChar c ch
    · have hcount : (c :: s).countP (EqChar · ch) = s.countP (EqChar · ch) + 1 :=
        List.countP_cons_of_pos (decide_eq_true heq)
      rw [if_pos heq, Nat.mod_eq_of_lt (by omega), ih hs (by omega) (by omega), hcount,
        Nat.add_assoc, Nat.add_comm 1]
    · have hcount : (c :: s).countP (EqChar · ch) = s.countP (EqChar · ch) :=
        List.countP_cons_of_neg (ne_true_of_eq_false (decide_eq_false heq))
      rw [if_neg heq, ih hs (by omega) (by omega), hcount]

/-! ## A string -/

section Str

variable (hstr : mem.IsStr str s) (hnull : str ≠ 0) (hspace : str + s.length < 2 ^ 32)
include hstr hnull hspace

variable (ch) in
theorem strchr_spec :
    (∃ i, strchr mem str ch = .ok (str + i) ∧ FirstAt (EqChar · ch) s i) ∨
      strchr mem str ch = .ok 0 ∧ ∀ c ∈ s, ¬EqChar c ch := by
  rw [strchr, assert_bind_of hnull]
  exact strchrLoop_spec hstr (by omega)

variable (ch) in
theorem strrchr_spec :
    (∃ i, strrchr mem str ch = .ok (str + i) ∧ LastAt (EqChar · ch) s i) ∨
      strrchr mem str ch = .ok 0 ∧ ∀ c ∈ s, ¬EqChar c ch := by
  rw [strrchr, assert_bind_of hnull]
  exact strrchrLoop_spec hstr (by omega)

theorem strchrs_spec : strchrs mem str ch = .ok (s.countP (EqChar · ch)) := by
  rw [strchrs, assert_bind_of hnull, strchrsLoop_eq hstr (by omega) (by omega), Nat.zero_add]

end Str

/-! ## Signed and unsigned -/

/-- A byte from `0x80` on is equal to no character. -/
theorem eqChar_iff : EqChar c ch ↔ c = ch ∧ ch.toNat < 0x80 := by
  unfold EqChar
  rw [BitVec.toInt_eq_toNat_cond, BitVec.toNat_eq]
  have hc := c.isLt
  have hch := ch.isLt
  split <;> omega

/-- The searches find the bytes that are equal to `ch`. -/
structure FindsBytes (mem : Bytes) (str : ℕ) (s : List (BitVec 8)) (ch : BitVec 8) : Prop where
  count : strchrs mem str ch = .ok (s.count ch)
  first : ∃ p, strchr mem str ch = .ok p ∧ (p = 0 ↔ s.count ch = 0) ∧
    (p ≠ 0 → ∃ i, p = str + i ∧ FirstAt (· = ch) s i)
  last : ∃ p, strrchr mem str ch = .ok p ∧ (p = 0 ↔ s.count ch = 0) ∧
    (p ≠ 0 → ∃ i, p = str + i ∧ LastAt (· = ch) s i)

theorem findsBytes (hstr : mem.IsStr str s) (hnull : str ≠ 0) (hspace : str + s.length < 2 ^ 32)
    (heq : ∀ c ∈ s, EqChar c ch ↔ c = ch) : FindsBytes mem str s ch := by
  have hnone : (∀ c ∈ s, ¬EqChar c ch) → s.count ch = 0 := fun hno =>
    List.count_eq_zero.mpr fun hmem => hno ch hmem ((heq ch hmem).mpr rfl)
  have hsome : ∀ (i : ℕ) c, s[i]? = some c → c = ch → s.count ch ≠ 0 := by
    intro i c hi hc h0
    subst hc
    exact List.count_eq_zero.mp h0 (List.mem_of_getElem? hi)
  refine ⟨?_, ?_, ?_⟩
  · rw [strchrs_spec hstr hnull hspace, List.count]
    congr 1
    apply List.countP_congr
    intro c hc
    rw [decide_eq_true_eq, beq_iff_eq]
    exact heq c hc
  · rcases strchr_spec ch hstr hnull hspace with ⟨i, hok, hi⟩ | ⟨hok, hno⟩
    · have hfirst := hi.congr heq
      obtain ⟨c, hc, hp⟩ := hfirst.1
      refine ⟨_, hok, iff_of_false (by omega) (hsome i c hc hp), fun _ => ⟨i, rfl, hfirst⟩⟩
    · exact ⟨0, hok, iff_of_true rfl (hnone hno), fun h => absurd rfl h⟩
  · rcases strrchr_spec ch hstr hnull hspace with ⟨i, hok, hi⟩ | ⟨hok, hno⟩
    · have hlast := hi.congr heq
      obtain ⟨c, hc, hp⟩ := hlast.1
      refine ⟨_, hok, iff_of_false (by omega) (hsome i c hc hp), fun _ => ⟨i, rfl, hlast⟩⟩
    · exact ⟨0, hok, iff_of_true rfl (hnone hno), fun h => absurd rfl h⟩

theorem not_findsBytes (hstr : mem.IsStr str s) (hnull : str ≠ 0)
    (hspace : str + s.length < 2 ^ 32) (hhigh : 0x80 ≤ ch.toNat) (hmem : ch ∈ s) :
    ¬FindsBytes mem str s ch := by
  intro h
  have hno : s.countP (EqChar · ch) = 0 := by
    rw [List.countP_eq_zero]
    intro c _
    rw [decide_eq_true_eq, eqChar_iff]
    omega
  have hcount := h.count
  rw [strchrs_spec hstr hnull hspace, hno] at hcount
  exact List.count_eq_zero.mp (Except.ok.inj hcount).symm hmem

/-- **The searches.**  For every string and every character, `strchrs` counts the bytes of the string
that are equal to the character, and `strchr` and `strrchr` find the first and the last of them, if
and only if the character is below `0x80` or does not occur. -/
theorem searches_iff (ch : BitVec 8) (hstr : mem.IsStr str s) (hnull : str ≠ 0)
    (hspace : str + s.length < 2 ^ 32) :
    FindsBytes mem str s ch ↔ ch.toNat < 0x80 ∨ ch ∉ s := by
  constructor
  · intro h
    by_contra hno
    rw [not_or, not_not] at hno
    exact not_findsBytes hstr hnull hspace (by omega) hno.2 h
  · intro h
    refine findsBytes hstr hnull hspace fun c hc => ?_
    rw [eqChar_iff, and_iff_left_iff_imp]
    rintro rfl
    exact h.resolve_right (not_not_intro hc)

/-- `"aé"` in Latin-1. -/
def latinStr : Bytes := Bytes.write (fun _ => 0#8) 0x100 [0x61#8, 0xe9#8]

theorem searches_iff_letter : FindsBytes latinStr 0x100 [0x61#8, 0xe9#8] 0x61#8 :=
  (searches_iff 0x61#8 (by decide) (by decide) (by decide)).mpr (Or.inl (by decide))

/-- `strchrs` counts no `é`. -/
theorem not_findsBytes_latin :
    latinStr.IsStr 0x100 [0x61#8, 0xe9#8] ∧ strchrs latinStr 0x100 0xe9#8 = .ok 0 ∧
      ¬FindsBytes latinStr 0x100 [0x61#8, 0xe9#8] 0xe9#8 := by
  have hstr : latinStr.IsStr 0x100 [0x61#8, 0xe9#8] := by decide
  refine ⟨hstr, ?_, not_findsBytes hstr (by decide) (by decide) (by decide) (by decide)⟩
  rw [strchrs_spec hstr (by decide) (by decide)]
  decide

end HcOs.Stdio
