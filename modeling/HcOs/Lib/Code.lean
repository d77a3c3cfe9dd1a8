import Mathlib.Data.List.Basic

/-!
# Routines that can be interrupted

A routine as the pieces that are executed without interruption.  What comes after a piece may depend
on what the piece has read.

* `run_append`, `run_each`: routines one after the other.
-/

namespace HcOs.Lib

/-- A routine over the states `D` that may stop for the reasons `H`. -/
inductive Code (D H : Type) where
  | done
  | piece (act : D → Except H D) (rest : D → Code D H)

namespace Code

variable {D H A : Type}

/-- The routine without interruption. -/
def run : Code D H → D → Except H D
  | done, d => .ok d
  | piece act rest, d => (act d).bind (run (rest d))

/-- One routine after the other. -/
def append : Code D H → Code D H → Code D H
  | done, c => c
  | piece act rest, c => piece act fun d => (rest d).append c

/-- A routine for each of the elements of a list. -/
def each (f : A → Code D H) : List A → Code D H
  | [] => done
  | a :: l => (f a).append (each f l)

theorem run_append (c c' : Code D H) (d : D) : (c.append c').run d = (c.run d).bind c'.run := by
  induction c generalizing d with
  | done => rfl
  | piece act rest ih =>
    simp only [append, run]
    cases act d with
    | error x => rfl
    | ok d' => exact ih d d'

theorem run_each (f : A → Code D H) (l : List A) (d : D) :
    (each f l).run d = l.foldlM (fun d a => (f a).run d) d := by
  induction l generalizing d with
  | nil => rfl
  | cons a l ih =>
    rw [each, run_append, List.foldlM_cons]
    cases (f a).run d with
    | error x => rfl
    | ok d' => exact ih d'

end Code

end HcOs.Lib
