import Mathlib.Data.BitVec
import Mathlib.Logic.Function.Basic

/-!
# Two cascaded interrupt controllers

The programmable interrupt controller 8259A, edge-triggered and fully nested, and a pair of them, the
output of the slave on the input 2 of the master.  A line that falls before the interrupt is
acknowledged takes its request back.  Commands that rotate priorities or end a given interrupt, and
the special modes, are left out: they change nothing here.

* `Pair.cores_write`: what programming does does not depend on the requests.
* `Linked`: a request of the slave is known to the master; this is kept by all that goes through
  `Pair.wire`.
-/

namespace HcOs.Lib.Pic

/-- The command word that a chip expects on its data port. -/
inductive Stage where
  | ready
  | icw2
  | icw3
  | icw4
  deriving DecidableEq, Repr

/-- What programming sets. -/
structure Config where
  icw1 : BitVec 8
  /-- The vector of the input 0. -/
  base : BitVec 8
  /-- The inputs with slaves, or the number of a slave. -/
  wires : BitVec 8
  imr : BitVec 8
  autoEoi : Bool
  stage : Stage
  deriving DecidableEq, Repr

namespace Config

/-- After the second or the third command word. -/
def last (g : Config) : Stage := if g.icw1.getLsbD 0 then .icw4 else .ready

/-- ICW1. -/
def init (g : Config) (b : BitVec 8) : Config :=
  { g with icw1 := b, imr := 0#8, autoEoi := false, stage := .icw2 }

/-- A byte on the data port. -/
def data (g : Config) (b : BitVec 8) : Config :=
  match g.stage with
  | .ready => { g with imr := b }
  | .icw2 => { g with base := b &&& 0xf8#8, stage := if g.icw1.getLsbD 1 then g.last else .icw3 }
  | .icw3 => { g with wires := b, stage := g.last }
  | .icw4 => { g with autoEoi := b.getLsbD 1, stage := .ready }

end Config

/-- The input with the highest priority. -/
def first (p : ℕ → Bool) : Option ℕ := (List.range 8).find? p

/-- No input. -/
def noInput : ℕ → Bool := fun _ => false

/-- Everything but the requests. -/
structure Core where
  config : Config
  /-- The interrupts in service. -/
  isr : ℕ → Bool

namespace Core

variable (k : Core)

/-- The non-specific end of interrupt. -/
def eoi : Core :=
  match first k.isr with
  | some i => { k with isr := Function.update k.isr i false }
  | none => k

/-- A byte on the control port. -/
def ctrl (b : BitVec 8) : Core :=
  if b.getLsbD 4 then ⟨k.config.init b, noInput⟩
  else if b.toNat / 8 = 4 then k.eoi
  else k

/-- A byte on the data port. -/
def data (b : BitVec 8) : Core := { k with config := k.config.data b }

end Core

structure Chip where
  core : Core
  /-- The requests. -/
  irr : ℕ → Bool

namespace Chip

variable (c : Chip)

/-- The request that the chip passes on: enabled, and of a higher priority than all in service. -/
def request : Option ℕ :=
  first fun i => c.irr i && !c.core.config.imr.getLsbD i &&
    (List.range (i + 1)).all fun j => !c.core.isr j

/-- The output of the chip. -/
def int : Bool := c.request.isSome

/-- A rising edge on an input. -/
def raise (i : ℕ) : Chip := { c with irr := Function.update c.irr i true }

/-- A falling edge on an input. -/
def drop (i : ℕ) : Chip := { c with irr := Function.update c.irr i false }

def accept (i : ℕ) : Chip where
  core := { c.core with
    isr := if c.core.config.autoEoi then c.core.isr else Function.update c.core.isr i true }
  irr := Function.update c.irr i false

/-- A byte on the control port; ICW1 forgets the requests. -/
def ctrl (b : BitVec 8) : Chip where
  core := c.core.ctrl b
  irr := if b.getLsbD 4 then noInput else c.irr

/-- A byte on the data port. -/
def data (b : BitVec 8) : Chip := { c with core := c.core.data b }

end Chip

structure Pair where
  master : Chip
  slave : Chip

namespace Pair

variable (p : Pair)

/-- A change of the slave, whose output may rise. -/
def wire (slave : Chip) : Pair where
  master := if !p.slave.int && slave.int then p.master.raise 2 else p.master
  slave

/-- A rising edge on one of the sixteen lines. -/
def raise (n : ℕ) : Pair :=
  if n < 8 then { p with master := p.master.raise n } else p.wire (p.slave.raise (n - 8))

/-- A falling edge on one of the sixteen lines.  That the output of the slave falls with it is a
falling edge on the line 2 of its own, some time later. -/
def drop (n : ℕ) : Pair :=
  if n < 8 then { p with master := p.master.drop n } else { p with slave := p.slave.drop (n - 8) }

/-- The request of a line. -/
def pending (n : ℕ) : Bool := if n < 8 then p.master.irr n else p.slave.irr (n - 8)

/-- A byte on a port. -/
def write (w : BitVec 16 × BitVec 8) : Pair :=
  if w.1 = 0x20#16 then { p with master := p.master.ctrl w.2 }
  else if w.1 = 0x21#16 then { p with master := p.master.data w.2 }
  else if w.1 = 0xa0#16 then p.wire (p.slave.ctrl w.2)
  else if w.1 = 0xa1#16 then p.wire (p.slave.data w.2)
  else p

def writes (ws : List (BitVec 16 × BitVec 8)) : Pair := ws.foldl write p

/-- The slave answers for the input `i` of the master. -/
def Answers (i : ℕ) : Prop :=
  p.master.core.config.wires.getLsbD i = true ∧ p.slave.core.config.wires.toNat % 8 = i

instance (i : ℕ) : Decidable (p.Answers i) := inferInstanceAs (Decidable (_ ∧ _))

/-- The vector that the processor gets; a chip without a request gives that of its input 7. -/
def inta : BitVec 8 × Pair :=
  match p.master.request with
  | none => (p.master.core.config.base + 7#8, p)
  | some i =>
    let q : Pair := { p with master := p.master.accept i }
    if p.Answers i then
      match p.slave.request with
      | none => (p.slave.core.config.base + 7#8, q)
      | some j => (p.slave.core.config.base + BitVec.ofNat 8 j, q.wire (p.slave.accept j))
    else (p.master.core.config.base + BitVec.ofNat 8 i, q)

end Pair

/-! ## Priorities -/

variable {p : Pair} {c : Chip} {k : Core} {f : ℕ → Bool} {i n : ℕ}

theorem first_eq_some (h : first f = some i) : i < 8 ∧ f i = true := by
  unfold first at h
  exact ⟨List.mem_range.mp (List.mem_of_find?_eq_some h), List.find?_some h⟩

theorem first_least (h : first f = some i) {j : ℕ} (hj : j < i) : f j = false := by
  unfold first at h
  obtain ⟨-, as, bs, hlist, has⟩ := List.find?_eq_some_iff_append.mp h
  have hmem : j ∈ as := by
    have hlen : as.length = i := by
      have hget : (List.range 8)[as.length]? = some i := by
        rw [hlist, List.getElem?_append_right (Nat.le_refl _), Nat.sub_self]
        rfl
      obtain ⟨hlt, heq⟩ := List.getElem?_eq_some_iff.mp hget
      rw [List.getElem_range] at heq
      exact heq
    have hget : (List.range 8)[j]? = some j := by
      apply List.getElem?_eq_some_iff.mpr
      have hi := (first_eq_some h).1
      exact ⟨by rw [List.length_range]; omega, List.getElem_range _⟩
    rw [hlist, List.getElem?_append_left (by omega)] at hget
    exact List.mem_of_getElem? hget
  simpa using has j hmem

theorem first_isSome : (first f).isSome = true ↔ ∃ i < 8, f i = true := by
  unfold first
  rw [List.find?_isSome]
  exact ⟨fun ⟨i, hi, hf⟩ => ⟨i, List.mem_range.mp hi, hf⟩,
    fun ⟨i, hi, hf⟩ => ⟨i, List.mem_range.mpr hi, hf⟩⟩

theorem first_noInput : first noInput = none := rfl

theorem accept_irr (c : Chip) (i : ℕ) : (c.accept i).irr i = false := by
  unfold Chip.accept
  exact Function.update_self i false c.irr

theorem accept_irr_of_ne (c : Chip) {i j : ℕ} (h : j ≠ i) : (c.accept i).irr j = c.irr j := by
  unfold Chip.accept
  exact Function.update_of_ne h false c.irr

theorem drop_irr (c : Chip) (i : ℕ) : (c.drop i).irr i = false := by
  unfold Chip.drop
  exact Function.update_self i false c.irr

theorem drop_irr_of_ne (c : Chip) {i j : ℕ} (h : j ≠ i) : (c.drop i).irr j = c.irr j := by
  unfold Chip.drop
  exact Function.update_of_ne h false c.irr

/-- The only interrupt in service ends. -/
theorem eoi_single (hisr : k.isr = Function.update noInput i true) (hi : i < 8) :
    k.eoi = ⟨k.config, noInput⟩ := by
  have hsome : (first k.isr).isSome = true := first_isSome.mpr ⟨i, hi, by
    rw [hisr]
    exact Function.update_self i true noInput⟩
  obtain ⟨j, hj⟩ := Option.isSome_iff_exists.mp hsome
  have hji : j = i := by
    by_contra hne
    have htrue := (first_eq_some hj).2
    rw [hisr, Function.update_of_ne hne] at htrue
    cases htrue
  subst hji
  unfold Core.eoi
  rw [hj]
  show Core.mk _ _ = Core.mk _ _
  congr 1
  rw [hisr]
  funext x
  by_cases hx : x = j
  · rw [hx, Function.update_self]
    rfl
  · rw [Function.update_of_ne hx, Function.update_of_ne hx]

theorem eoi_none (hisr : k.isr = noInput) : k.eoi = k := by
  unfold Core.eoi
  rw [hisr, first_noInput]

/-- The requests of a chip with nothing in service. -/
theorem request_idle (hisr : c.core.isr = noInput) :
    c.request = first fun i => c.irr i && !c.core.config.imr.getLsbD i := by
  unfold Chip.request
  rw [hisr]
  congr 1
  funext i
  simp [noInput]

theorem request_spec (h : c.request = some i) :
    i < 8 ∧ c.irr i = true ∧ c.core.config.imr.getLsbD i = false ∧ c.core.isr i = false := by
  obtain ⟨hi, hf⟩ := first_eq_some h
  simp only [Bool.and_eq_true, List.all_eq_true, List.mem_range, Bool.not_eq_true'] at hf
  exact ⟨hi, hf.1.1, hf.1.2, hf.2 i (Nat.lt_succ_self i)⟩

/-- An enabled request of a chip with nothing in service is passed on. -/
theorem int_idle (hisr : c.core.isr = noInput) (hi : i < 8) (hirr : c.irr i = true)
    (himr : c.core.config.imr.getLsbD i = false) : c.int = true := by
  unfold Chip.int
  rw [request_idle hisr, first_isSome]
  exact ⟨i, hi, by rw [hirr, himr]; rfl⟩

/-! ## Programming -/

namespace Pair

def cores (p : Pair) : Core × Core := (p.master.core, p.slave.core)

/-- What a byte on a port does to all but the requests. -/
def coreWrite (ks : Core × Core) (w : BitVec 16 × BitVec 8) : Core × Core :=
  if w.1 = 0x20#16 then (ks.1.ctrl w.2, ks.2)
  else if w.1 = 0x21#16 then (ks.1.data w.2, ks.2)
  else if w.1 = 0xa0#16 then (ks.1, ks.2.ctrl w.2)
  else if w.1 = 0xa1#16 then (ks.1, ks.2.data w.2)
  else ks

theorem cores_wire (p : Pair) (slave : Chip) : (p.wire slave).cores = (p.master.core, slave.core) := by
  unfold wire cores
  dsimp only
  split_ifs <;> rfl

theorem cores_raise (p : Pair) (n : ℕ) : (p.raise n).cores = p.cores := by
  unfold raise
  split_ifs
  · rfl
  · exact cores_wire p _

theorem cores_drop (p : Pair) (n : ℕ) : (p.drop n).cores = p.cores := by
  unfold drop
  split_ifs <;> rfl

/-- What programming does does not depend on the requests. -/
theorem cores_write (p : Pair) (w : BitVec 16 × BitVec 8) :
    (p.write w).cores = coreWrite p.cores w := by
  unfold write coreWrite
  split_ifs
  · rfl
  · rfl
  · exact cores_wire p _
  · exact cores_wire p _
  · rfl

theorem cores_writes (p : Pair) (ws : List (BitVec 16 × BitVec 8)) :
    (p.writes ws).cores = ws.foldl coreWrite p.cores := by
  induction ws generalizing p with
  | nil => rfl
  | cons w ws ih =>
    have hrest := ih (p.write w)
    rw [cores_write] at hrest
    exact hrest

end Pair

/-! ## The output of the slave -/

/-- The master knows of a request of the slave. -/
def Linked (p : Pair) : Prop := p.slave.int = true → p.master.irr 2 = true

theorem wire_irr (p : Pair) (slave : Chip) {i : ℕ} (hi : i ≠ 2) :
    (p.wire slave).master.irr i = p.master.irr i := by
  unfold Pair.wire
  dsimp only
  split_ifs
  · exact Function.update_of_ne hi _ _
  · rfl

/-- A request of the slave that the master knows of is not forgotten. -/
theorem wire_keeps (p : Pair) (slave : Chip) (h : p.master.irr 2 = true) :
    (p.wire slave).master.irr 2 = true := by
  unfold Pair.wire
  dsimp only
  split_ifs
  · exact Function.update_self 2 true p.master.irr
  · exact h

theorem wire_linked (h : Linked p) (slave : Chip) : Linked (p.wire slave) := by
  intro hint
  by_cases hold : p.slave.int = true
  · exact wire_keeps p slave (h hold)
  · have hrise : (!p.slave.int && slave.int) = true := by
      rw [Bool.not_eq_true] at hold
      rw [hold]
      exact hint
    unfold Pair.wire
    rw [if_pos hrise]
    exact Function.update_self 2 true p.master.irr

theorem raise_linked (h : Linked p) (n : ℕ) : Linked (p.raise n) := by
  unfold Pair.raise
  split_ifs
  · intro hint
    by_cases hn : n = 2
    · rw [hn]
      exact Function.update_self 2 true p.master.irr
    · exact (Function.update_of_ne (Ne.symm hn) _ _).trans (h hint)
  · exact wire_linked h _

/-- A falling edge does not make a request. -/
theorem int_of_drop (h : (c.drop i).int = true) : c.int = true := by
  unfold Chip.int Chip.request at h ⊢
  rw [first_isSome] at h ⊢
  obtain ⟨j, hj, hreq⟩ := h
  refine ⟨j, hj, ?_⟩
  by_cases hji : j = i
  · rw [hji, drop_irr, Bool.false_and, Bool.false_and] at hreq
    cases hreq
  · rw [drop_irr_of_ne c hji] at hreq
    exact hreq

/-- The output of the slave is still high, or its falling edge is the one that comes. -/
theorem drop_linked (h : Linked p) (hn : n = 2 → p.slave.int = false) : Linked (p.drop n) := by
  unfold Pair.drop
  split_ifs
  · intro hint
    change p.slave.int = true at hint
    have hne : 2 ≠ n := fun heq => by
      rw [hn heq.symm] at hint
      cases hint
    exact (drop_irr_of_ne p.master hne).trans (h hint)
  · exact fun hint => h (int_of_drop hint)

/-- A falling edge takes back the request of its line and no other. -/
theorem pending_drop (p : Pair) (n k : ℕ) :
    (p.drop n).pending k = (decide (k ≠ n) && p.pending k) := by
  have hupdate : ∀ (f : ℕ → Bool) (i j : ℕ),
      Function.update f i false j = (decide (j ≠ i) && f j) := by
    intro f i j
    by_cases hj : j = i
    · rw [hj, Function.update_self, decide_eq_false (not_not_intro rfl), Bool.false_and]
    · rw [Function.update_of_ne hj, decide_eq_true hj, Bool.true_and]
  unfold Pair.drop Pair.pending
  split_ifs with hk8 hn hn
  · exact hupdate _ n k
  · rw [decide_eq_true (by omega), Bool.true_and]
  · rw [decide_eq_true (by omega), Bool.true_and]
  · have hiff : (k - 8 ≠ n - 8) = (k ≠ n) := propext (by omega)
    change Function.update p.slave.irr (n - 8) false (k - 8) = _
    rw [hupdate]
    simp only [hiff]

theorem drop_of_not_pending (h : p.pending n = false) : p.drop n = p := by
  unfold Pair.pending at h
  unfold Pair.drop
  split_ifs at h ⊢
  · rw [show p.master.drop n = p.master from
      congrArg (Chip.mk p.master.core) (Function.update_eq_self_iff.mpr h.symm)]
  · rw [show p.slave.drop (n - 8) = p.slave from
      congrArg (Chip.mk p.slave.core) (Function.update_eq_self_iff.mpr h.symm)]

/-- A rising edge is a request, and the only new one apart from that of the slave. -/
theorem pending_raise (p : Pair) (n : ℕ) {k : ℕ} (hk : k ≠ 2) :
    (p.raise n).pending k = (decide (k = n) || p.pending k) := by
  have hupdate : ∀ (f : ℕ → Bool) (i j : ℕ), Function.update f i true j = (decide (j = i) || f j) := by
    intro f i j
    by_cases hj : j = i
    · rw [hj, Function.update_self, decide_eq_true rfl, Bool.true_or]
    · rw [Function.update_of_ne hj, decide_eq_false hj, Bool.false_or]
  unfold Pair.raise Pair.pending
  split_ifs with hk8 hn hn
  · exact hupdate _ n k
  · rw [wire_irr p _ hk, decide_eq_false (by omega), Bool.false_or]
  · rw [decide_eq_false (by omega), Bool.false_or]
  · have hiff : (k - 8 = n - 8) = (k = n) := propext (by omega)
    change Function.update p.slave.irr (n - 8) true (k - 8) = _
    rw [hupdate]
    simp only [hiff]

end HcOs.Lib.Pic
