import HcOs.Kernel.Debug
import HcOs.Lib.LinkedList

/-!
# Lists (`kernel/list.c`)

The functions of `kernel/list.c` over the nodes of a `LinkHeap`, as kernel code.
-/

namespace HcOs

open HcOs.Lib

/-- A fault of a list operation ends the run. -/
def halt : Fault → Halt
  | .null => .nullDeref
  | .loop => .noReturn

def liftFault {α : Type} : Except Fault α → Except Halt α
  | .ok a => .ok a
  | .error x => .error (halt x)

theorem liftFault_ok {α : Type} {x : Except Fault α} {a : α} (h : x = .ok a) :
    liftFault x = .ok a := by
  rw [h]
  rfl

variable {H N : Type} [DecidableEq N] (L : LinkHeap H N) (h : H) (plist : Sentinels N)

def listInit : Except Halt H := liftFault (L.init h plist)

def listInsertBefore (before elem : N) : Except Halt H := liftFault (L.insertBefore h before elem)

def listPush (elem : N) : Except Halt H := liftFault (L.push h plist elem)

def listAppend (elem : N) : Except Halt H := liftFault (L.append h plist elem)

def listRemove (pelem : N) : Except Halt H := liftFault (L.remove h pelem)

def listPop : Except Halt (H × N) := liftFault (L.pop h plist)

def listEmpty : Except Halt Bool := liftFault (L.empty h plist)

/-- `elem_find`, with a bound on the number of nodes it looks at; a walk that goes on is taken for
one that never ends. -/
def elemFind (bound : ℕ) (objElem : N) : Except Halt Bool :=
  liftFault (L.find (bound + 1) h plist objElem)

/-- The loop of `list_len`; `length` is a `uint32_t`. -/
def lenLoop : ℕ → N → ℕ → Except Halt ℕ
  | 0, _, _ => .error .noReturn
  | fuel + 1, elem, length =>
    if elem = plist.tail then .ok length
    else do
      let next ← liftFault (L.getNext h elem)
      lenLoop fuel next ((length + 1) % 2 ^ 32)

def listLen (bound : ℕ) : Except Halt ℕ := do
  let elem ← liftFault (L.getNext h plist.head)
  lenLoop L h plist (bound + 1) elem 0

/-- `function`: a callback gets an element and an `int`, and may change the memory. -/
abbrev Callback (H N : Type) := H → N → BitVec 32 → Except Halt (Bool × H)

variable (func : Callback H N) (arg : BitVec 32)

/-- The loop of `list_traversal`. -/
def traversalLoop : ℕ → H → N → Except Halt (N × H)
  | 0, _, _ => .error .noReturn
  | fuel + 1, h, elem =>
    if elem = plist.tail then .ok (L.null, h)
    else do
      let (found, h) ← func h elem arg
      if found then .ok (elem, h)
      else do
        let next ← liftFault (L.getNext h elem)
        traversalLoop fuel h next

/-- `list_traversal`; the element that is returned may be `NULL`. -/
def listTraversal (bound : ℕ) : Except Halt (N × H) := do
  let elem ← liftFault (L.getNext h plist.head)
  if ← listEmpty L h plist then .ok (L.null, h)
  else traversalLoop L plist func arg (bound + 1) h elem

/-! ## What they return -/

variable {L h plist} {h' : H} {elem : N}

theorem listAppend_ok (hok : L.append h plist elem = .ok h') : listAppend L h plist elem = .ok h' :=
  liftFault_ok hok

theorem listRemove_ok (hok : L.remove h elem = .ok h') : listRemove L h elem = .ok h' :=
  liftFault_ok hok

theorem listPop_ok {r : H × N} (hok : L.pop h plist = .ok r) : listPop L h plist = .ok r :=
  liftFault_ok hok

variable {V : N → Prop} (hL : L.Lawful V) {xs : List N} (hl : L.IsList V h plist xs)
include hL hl

theorem listEmpty_isList : listEmpty L h plist = .ok (decide (xs = [])) :=
  liftFault_ok (hl.empty hL)

theorem elemFind_isList {bound : ℕ} (hbound : xs.length ≤ bound) (e : N) :
    elemFind L h plist bound e = .ok (decide (e ∈ xs)) :=
  liftFault_ok (hl.find hL (Nat.lt_succ_of_le hbound) e)

end HcOs
