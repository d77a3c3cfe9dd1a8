import HcOs.Kernel.Debug
import HcOs.Lib.Bytes

/-!
# `strlen` and `strcpy` (`lib/string.c`)

The two functions over one memory.  A search that goes through `2 ^ 32` bytes without finding a 0
has been through the whole address space and does not end.
-/

namespace HcOs.Stdio

open HcOs.Lib

/-- `while(*p++);`. -/
def strlenLoop (mem : Bytes) : ℕ → ℕ → Except Halt ℕ
  | 0, _ => .error .noReturn
  | fuel + 1, p => if mem p ≠ 0#8 then strlenLoop mem fuel (p + 1) else .ok (p + 1)

def strlen (mem : Bytes) (str : ℕ) : Except Halt ℕ := do
  assert (str ≠ 0) "strlen" "str != NULL"
  let p ← strlenLoop mem (2 ^ 32) str
  .ok (p - str - 1)

/-- `while((*dst_++ = *src_++));`. -/
def strcpyLoop : ℕ → Bytes → ℕ → ℕ → Except Halt Bytes
  | 0, _, _, _ => .error .noReturn
  | fuel + 1, mem, dst, src =>
    let c := mem src
    let mem := Function.update mem dst c
    if c ≠ 0#8 then strcpyLoop fuel mem (dst + 1) (src + 1) else .ok mem

/-- `strcpy`, by the memory it leaves. -/
def strcpy (mem : Bytes) (dst src : ℕ) : Except Halt Bytes := do
  assert (dst ≠ 0 ∧ src ≠ 0) "strcpy" "dst_ != NULL && src_ != NULL"
  strcpyLoop (2 ^ 32) mem dst src

variable {mem : Bytes} {a dst src fuel : ℕ} {s : List (BitVec 8)}

theorem strlenLoop_eq (h : mem.IsStr a s) (hfuel : s.length < fuel) :
    strlenLoop mem fuel a = .ok (a + s.length + 1) := by
  induction fuel generalizing a s with
  | zero => omega
  | succ fuel ih =>
    unfold strlenLoop
    cases s with
    | nil =>
      have hzero : mem a = 0#8 := h
      rw [if_neg (not_not_intro hzero), List.length_nil, Nat.add_zero]
    | cons c s =>
      obtain ⟨hc, hne, hs⟩ := h
      rw [List.length_cons] at hfuel ⊢
      rw [if_pos (by rw [hc]; exact hne), ih hs (by omega), Nat.add_right_comm a 1, Nat.add_assoc a]

/-- `strlen` of a string. -/
theorem strlen_eq (h : mem.IsStr a s) (ha : a ≠ 0) (hlen : s.length < 2 ^ 32) :
    strlen mem a = .ok s.length := by
  rw [strlen, assert_bind_of ha, strlenLoop_eq h hlen, ok_bind]
  congr 1
  omega

/-- The copy of a string to a place that does not overlap it. -/
theorem strcpyLoop_eq (h : mem.IsStr src s) (hfuel : s.length < fuel)
    (happ : dst + s.length < src ∨ src + s.length < dst) :
    strcpyLoop fuel mem dst src = .ok (mem.write dst (s ++ [0#8])) := by
  induction fuel generalizing mem dst src s with
  | zero => omega
  | succ fuel ih =>
    unfold strcpyLoop
    dsimp only
    cases s with
    | nil =>
      have hzero : mem src = 0#8 := h
      rw [if_neg (not_not_intro hzero), hzero, List.nil_append, Bytes.write_singleton]
    | cons c s =>
      obtain ⟨hc, hne, hs⟩ := h
      rw [List.length_cons] at hfuel happ
      have hs' : Bytes.IsStr (Function.update mem dst c) (src + 1) s :=
        hs.congr fun i hlo hhi => Function.update_of_ne (by omega) _ _
      rw [hc, if_pos hne, ih hs' (by omega) (by omega), Bytes.write_cons, List.cons_append]

theorem strcpy_eq (h : mem.IsStr src s) (hdst : dst ≠ 0) (hsrc : src ≠ 0) (hlen : s.length < 2 ^ 32)
    (happ : dst + s.length < src ∨ src + s.length < dst) :
    strcpy mem dst src = .ok (mem.write dst (s ++ [0#8])) := by
  rw [strcpy, assert_bind_of ⟨hdst, hsrc⟩, strcpyLoop_eq h hlen happ]

end HcOs.Stdio
