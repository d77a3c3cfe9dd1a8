import Mathlib.Algebra.Group.Nat.Defs
import Mathlib.Tactic.Common

/-!
# Assertions and panics (`kernel/debug.c`, `kernel/debug.h`)

Kernel code is translated into `Except Halt`.  `panic_spin` prints the function and the condition
and never returns, so a failing `ASSERT` and a `PANIC` both end the run with these two texts (the
file name and the line number are not kept).
-/

namespace HcOs

/-- Why a piece of kernel code does not return. -/
inductive Halt where
  /-- `panic_spin`, reached from `ASSERT` or `PANIC`. -/
  | panic (func condition : String)
  /-- An access through a `NULL` pointer, or through one to no object of its type. -/
  | nullDeref
  /-- A loop that never ends, or a thread nobody can wake. -/
  | noReturn
  deriving DecidableEq, Repr

/-- The macro `ASSERT` without `NDEBUG`. -/
def assert (c : Prop) [Decidable c] (func condition : String) : Except Halt Unit :=
  if c then .ok () else .error (.panic func condition)

variable {α β : Type} {c : Prop} [Decidable c] {f m : String}

theorem assert_ok (h : c) : assert c f m = .ok () := if_pos h

theorem assert_bind_of (h : c) (k : Unit → Except Halt α) : (assert c f m >>= k) = k () := by
  rw [assert_ok h]
  rfl

theorem assert_bind_of_not (h : ¬c) (k : Unit → Except Halt α) :
    (assert c f m >>= k) = .error (.panic f m) := by
  rw [assert, if_neg h]
  rfl

theorem assert_eq_ok {u : Unit} : assert c f m = .ok u ↔ c := by
  by_cases h : c <;> simp [assert, h]

theorem assert_bind_eq_ok {k : Unit → Except Halt α} {r : α} :
    (assert c f m >>= k) = .ok r ↔ c ∧ k () = .ok r := by
  by_cases h : c
  · rw [assert_bind_of h]
    exact ⟨fun hk => ⟨h, hk⟩, fun hk => hk.2⟩
  · rw [assert_bind_of_not h]
    exact ⟨fun hk => (nomatch hk), fun hk => absurd hk.1 h⟩

theorem ok_bind (a : α) (k : α → Except Halt β) : (Except.ok a >>= k) = k a := rfl

theorem error_bind (x : Halt) (k : α → Except Halt β) : (Except.error x >>= k) = .error x := rfl

theorem not_error_eq_ok (x : Halt) : ¬∃ r : α, (Except.error x : Except Halt α) = .ok r := by
  rintro ⟨r, h⟩
  cases h

/-- A computation that returns went through its first part. -/
theorem bind_eq_ok {x : Except Halt α} {k : α → Except Halt β} {r : β} :
    (x >>= k) = .ok r ↔ ∃ a, x = .ok a ∧ k a = .ok r := by
  cases x with
  | error e =>
    rw [error_bind]
    exact ⟨fun h => (nomatch h), fun ⟨a, h, _⟩ => (nomatch h)⟩
  | ok a =>
    rw [ok_bind]
    refine ⟨fun h => ⟨a, rfl, h⟩, ?_⟩
    rintro ⟨b, hb, h⟩
    cases hb
    exact h

/-- A computation that halts does so in its first part or after it. -/
theorem bind_eq_error {x : Except Halt α} {k : α → Except Halt β} {e : Halt} :
    (x >>= k) = .error e ↔ x = .error e ∨ ∃ a, x = .ok a ∧ k a = .error e := by
  cases x with
  | error e' =>
    rw [error_bind]
    refine ⟨fun h => Or.inl (by cases h; rfl), ?_⟩
    rintro (h | ⟨a, h, -⟩)
    · cases h
      rfl
    · cases h
  | ok a =>
    rw [ok_bind]
    refine ⟨fun h => Or.inr ⟨a, rfl, h⟩, ?_⟩
    rintro (h | ⟨b, hb, h⟩)
    · cases h
    · cases hb
      exact h

end HcOs
