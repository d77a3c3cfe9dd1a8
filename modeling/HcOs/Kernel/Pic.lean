import HcOs.Kernel.Entry
import HcOs.Lib.Machine
import HcOs.Lib.Pic

/-!
# The interrupt controllers (`kernel/interrupt.c`, `kernel/kernel.S`)

`pic_init` programs the two controllers, whatever they did before, and every stub of a vector ends
the interrupt before it calls the handler.  Devices may raise and lower their lines at any moment,
also between two port writes and while the processor acknowledges an interrupt.  Only the kernel
writes to the ports of the controllers.

* `pic_run`: which vectors the processor gets, and that no interrupt is left in service.
* `pic_conserves`: a request of the clock, the keyboard or the first disk channel is served unless its
  line falls before, and no request of any other line is ever served; that holds for the second disk
  channel as well, although `ide_init` registers a handler for it.
-/

namespace HcOs.Pic

open HcOs.Lib HcOs.Lib.Pic

/-! ## The machine -/

/-- The port writes of `pic_init`. -/
def picInit : List (BitVec 16 × BitVec 8) :=
  [(0x20#16, 0x11#8), (0x21#16, 0x20#8), (0x21#16, 0x04#8), (0x21#16, 0x01#8),
    (0xa0#16, 0x11#8), (0xa1#16, 0x28#8), (0xa1#16, 0x02#8), (0xa1#16, 0x01#8),
    (0x21#16, 0xf8#8), (0xa1#16, 0xbf#8)]

/-- The port writes of a stub. -/
def eois : List (BitVec 16 × BitVec 8) := [(0xa0#16, 0x20#8), (0x20#16, 0x20#8)]

theorem vectorEntry_ports (v : ℕ) (c : X86.Cpu) :
    (X86.run (Entry.vectorEntry v) c).ports = eois.reverse ++ c.ports := by
  unfold Entry.vectorEntry
  cases Entry.vectorArg v <;>
    simp [Entry.Arg.instr, X86.run, X86.exec, X86.Cpu.push, eois]

inductive Mode where
  /-- Code with the interrupts on or off. -/
  | code (intr : Bool)
  /-- The processor acknowledges an interrupt. -/
  | ack
  /-- Port writes that are still to be made, with the interrupts off. -/
  | outs (ws : List (BitVec 16 × BitVec 8))
  deriving DecidableEq

def Mode.todo : Mode → List (BitVec 16 × BitVec 8)
  | .code _ => []
  | .ack => []
  | .outs ws => ws

/-- Not in a stub. -/
def Mode.Outside (m : Mode) : Prop := ∀ ws, m ≠ .outs ws

structure State where
  pics : Pair
  mode : Mode
  /-- The vectors of the interrupts so far, the last one first. -/
  vectors : List (BitVec 8)

inductive Event where
  /-- A device raises a line. -/
  | irq (n : ℕ)
  /-- A line falls. -/
  | fall (n : ℕ)
  /-- `sti`, `cli`, `popf` or `iret`. -/
  | intr (on : Bool)
  /-- The processor sees the output of the master. -/
  | ack
  /-- The processor gets the vector. -/
  | inta
  /-- An exception goes through a stub as well. -/
  | exception
  /-- The next port write. -/
  | out
  deriving DecidableEq

/-- The line 2 of the master is the output of the slave; it falls when that has become low. -/
def step (s : State) : Event → Option (Except Empty State)
  | .irq n => if n < 16 ∧ n ≠ 2 then some (.ok { s with pics := s.pics.raise n }) else none
  | .fall n =>
    if n < 16 ∧ (n = 2 → s.pics.slave.int = false) then some (.ok { s with pics := s.pics.drop n })
    else none
  | .intr on =>
    match s.mode with
    | .code _ => some (.ok { s with mode := .code on })
    | .ack => none
    | .outs _ => none
  | .ack =>
    match s.mode with
    | .code true => if s.pics.master.int then some (.ok { s with mode := .ack }) else none
    | .code false => none
    | .ack => none
    | .outs _ => none
  | .inta =>
    match s.mode with
    | .code _ => none
    | .ack => some (.ok ⟨s.pics.inta.2, .outs eois, s.pics.inta.1 :: s.vectors⟩)
    | .outs _ => none
  | .exception =>
    match s.mode with
    | .code _ => some (.ok { s with mode := .outs eois })
    | .ack => none
    | .outs _ => none
  | .out =>
    match s.mode with
    | .code _ => none
    | .ack => none
    | .outs [] => none
    | .outs [w] => some (.ok { s with pics := s.pics.write w, mode := .code false })
    | .outs (w :: w' :: ws) => some (.ok { s with pics := s.pics.write w, mode := .outs (w' :: ws) })

def machine : Machine State Event Empty where
  step := step

/-- `pic_init` begins, with any controllers. -/
def boot (p : Pair) : State := ⟨p, .outs picInit, []⟩

/-! ## The invariant -/

/-- What `pic_init` programs, with nothing in service. -/
def target : Core × Core :=
  (⟨⟨0x11#8, 0x20#8, 0x04#8, 0xf8#8, false, .ready⟩, noInput⟩,
    ⟨⟨0x11#8, 0x28#8, 0x02#8, 0xbf#8, false, .ready⟩, noInput⟩)

/-- The master has a request of the slave that the slave has not. -/
def stray (p : Pair) : ℕ := if p.master.irr 2 = true ∧ p.slave.irr 6 = false then 1 else 0

/-- The processor acknowledges an interrupt of which no request is left. -/
def lost (s : State) : ℕ := if s.mode = .ack ∧ s.pics.master.int = false then 1 else 0

/-- The interrupts without a request, up to now and to come. -/
def spurious (s : State) : ℕ :=
  s.vectors.count 0x27#8 + s.vectors.count 0x2f#8 + stray s.pics + lost s

/-- `pic_init` is not over. -/
structure Booting (s : State) : Prop where
  mode : ∃ ws, s.mode = .outs ws
  ready : (s.pics.writes s.mode.todo).cores = target
  todo : s.mode.todo <:+ picInit
  linked : s.mode.todo.length ≤ 5 → Linked s.pics
  vectors : s.vectors = []

/-- `pic_init` is over. -/
structure Serving (s : State) : Prop where
  ready : (s.pics.writes s.mode.todo).cores = target
  todo : s.mode.todo <:+ eois
  linked : Linked s.pics
  vectors : ∀ v ∈ s.vectors, v = 0x20#8 ∨ v = 0x21#8 ∨ v = 0x2e#8 ∨ v = 0x27#8 ∨ v = 0x2f#8

variable {s s' : State} {p : Pair} {e : Event} {n : ℕ}

/-- The outcomes of a step. -/
theorem step_cases (h : step s e = some (.ok s')) :
    (∃ n, e = .irq n ∧ n < 16 ∧ n ≠ 2 ∧ s' = { s with pics := s.pics.raise n }) ∨
      (∃ n, e = .fall n ∧ n < 16 ∧ (n = 2 → s.pics.slave.int = false) ∧
        s' = { s with pics := s.pics.drop n }) ∨
      (∃ b on, e = .intr on ∧ s.mode = .code b ∧ s' = { s with mode := .code on }) ∨
      (e = .ack ∧ s.mode = .code true ∧ s.pics.master.int = true ∧ s' = { s with mode := .ack }) ∨
      (e = .inta ∧ s.mode = .ack ∧
        s' = ⟨s.pics.inta.2, .outs eois, s.pics.inta.1 :: s.vectors⟩) ∨
      (∃ b, e = .exception ∧ s.mode = .code b ∧ s' = { s with mode := .outs eois }) ∨
      (∃ w mode, e = .out ∧ s.mode.todo = w :: mode.todo ∧ mode ≠ .ack ∧
        s' = { s with pics := s.pics.write w, mode }) := by
  cases e with
  | irq n =>
    simp only [step] at h
    split_ifs at h with hn
    cases h
    exact Or.inl ⟨n, rfl, hn.1, hn.2, rfl⟩
  | fall n =>
    simp only [step] at h
    split_ifs at h with hn
    cases h
    exact Or.inr (Or.inl ⟨n, rfl, hn.1, hn.2, rfl⟩)
  | intr on =>
    simp only [step] at h
    cases hm : s.mode with
    | code b =>
      rw [hm] at h
      cases h
      exact Or.inr (Or.inr (Or.inl ⟨b, on, rfl, rfl, rfl⟩))
    | ack => rw [hm] at h; cases h
    | outs ws => rw [hm] at h; cases h
  | ack =>
    simp only [step] at h
    cases hm : s.mode with
    | code b =>
      rw [hm] at h
      cases b with
      | false => cases h
      | true =>
        dsimp only at h
        split_ifs at h with hint
        cases h
        exact Or.inr (Or.inr (Or.inr (Or.inl ⟨rfl, rfl, hint, rfl⟩)))
    | ack => rw [hm] at h; cases h
    | outs ws => rw [hm] at h; cases h
  | inta =>
    simp only [step] at h
    cases hm : s.mode with
    | code b => rw [hm] at h; cases h
    | ack =>
      rw [hm] at h
      cases h
      exact Or.inr (Or.inr (Or.inr (Or.inr (Or.inl ⟨rfl, rfl, rfl⟩))))
    | outs ws => rw [hm] at h; cases h
  | exception =>
    simp only [step] at h
    cases hm : s.mode with
    | code b =>
      rw [hm] at h
      cases h
      exact Or.inr (Or.inr (Or.inr (Or.inr (Or.inr (Or.inl ⟨b, rfl, rfl, rfl⟩)))))
    | ack => rw [hm] at h; cases h
    | outs ws => rw [hm] at h; cases h
  | out =>
    simp only [step] at h
    cases hm : s.mode with
    | code b => rw [hm] at h; cases h
    | ack => rw [hm] at h; cases h
    | outs ws =>
      rw [hm] at h
      match ws with
      | [] => cases h
      | [w] =>
        cases h
        exact Or.inr (Or.inr (Or.inr (Or.inr (Or.inr (Or.inr
          ⟨w, .code false, rfl, rfl, Mode.noConfusion, rfl⟩)))))
      | w :: w' :: ws =>
        cases h
        exact Or.inr (Or.inr (Or.inr (Or.inr (Or.inr (Or.inr
          ⟨w, .outs (w' :: ws), rfl, rfl, Mode.noConfusion, rfl⟩)))))

/-- Requests change nothing in what is still to be programmed. -/
theorem ready_congr {q : Pair} {ws : List (BitVec 16 × BitVec 8)}
    (h : (p.writes ws).cores = target) (hq : q.cores = p.cores) : (q.writes ws).cores = target := by
  rw [Pair.cores_writes] at h ⊢
  rw [hq]
  exact h

/-! ## `pic_init` -/

theorem boot_booting (p : Pair) : Booting (boot p) where
  mode := ⟨picInit, rfl⟩
  ready := by
    rw [Pair.cores_writes]
    show picInit.foldl Pair.coreWrite p.cores = target
    simp [picInit, Pair.coreWrite, Core.ctrl, Core.data, Config.data, Config.init, Config.last,
      target]
  todo := List.suffix_refl _
  linked h := absurd h (show ¬10 ≤ 5 by omega)
  vectors := rfl

/-- All bytes but ICW1 leave the requests of the master alone. -/
theorem write_linked {w : BitVec 16 × BitVec 8} (h : Linked p)
    (hw : w.1 = 0x20#16 → w.2.getLsbD 4 = false) : Linked (p.write w) := by
  unfold Pair.write
  split_ifs with hm
  · intro hint
    have hirr : (p.master.ctrl w.2).irr = p.master.irr := if_neg (by rw [hw hm]; nofun)
    show (p.master.ctrl w.2).irr 2 = true
    rw [hirr]
    exact h hint
  · exact h
  · exact wire_linked h _
  · exact wire_linked h _
  · exact h

/-- ICW1 of the slave: there is no request that the master could miss. -/
theorem icw1_linked (p : Pair) : Linked (p.write (0xa0#16, 0x11#8)) := by
  intro hint
  have hirr : (p.write (0xa0#16, 0x11#8)).slave.irr = noInput := rfl
  obtain ⟨i, hi⟩ := Option.isSome_iff_exists.mp hint
  have htrue := (request_spec hi).2.1
  rw [hirr] at htrue
  cases htrue

/-- The writes of `pic_init`, from the fifth on. -/
theorem picInit_tail {w : BitVec 16 × BitVec 8} {ws : List (BitVec 16 × BitVec 8)}
    (h : w :: ws <:+ picInit) (hlen : ws.length ≤ 5) :
    w = (0xa0#16, 0x11#8) ∨
      (w :: ws).length ≤ 5 ∧ (w.1 = 0x20#16 → w.2.getLsbD 4 = false) := by
  have htails : (picInit.tails.all fun l => l.head?.all fun w => decide (l.length ≤ 6 →
      w = (0xa0#16, 0x11#8) ∨ l.length ≤ 5 ∧ (w.1 = 0x20#16 → w.2.getLsbD 4 = false))) = true := by
    decide
  have hw := List.all_eq_true.mp htails _ ((List.mem_tails _ _).mpr h)
  exact of_decide_eq_true hw (by rw [List.length_cons]; omega)

theorem booting_linked {w : BitVec 16 × BitVec 8} {ws : List (BitVec 16 × BitVec 8)}
    (h : w :: ws <:+ picInit) (hlink : (w :: ws).length ≤ 5 → Linked p) (hlen : ws.length ≤ 5) :
    Linked (p.write w) := by
  rcases picInit_tail h hlen with rfl | ⟨hlen', hw⟩
  · exact icw1_linked p
  · exact write_linked (hlink hlen') hw

theorem booting_step (h : Booting s) (hs : step s e = some (.ok s')) :
    (Booting s' ∨ Serving s') ∧ s'.vectors = [] ∧ s'.mode ≠ .ack := by
  obtain ⟨ws, hmode⟩ := h.mode
  have htodo := h.todo
  have hlinked := h.linked
  have hready := h.ready
  have hnotCode : ∀ b, s.mode ≠ .code b := fun b hm => by
    rw [hmode] at hm
    cases hm
  have hnotAck : s.mode ≠ .ack := fun hm => by
    rw [hmode] at hm
    cases hm
  rcases step_cases hs with ⟨n, -, -, -, rfl⟩ | ⟨n, -, -, hn, rfl⟩ | ⟨b, on, -, hm, -⟩ |
    ⟨-, hm, -⟩ | ⟨-, hm, -⟩ | ⟨b, -, hm, -⟩ | ⟨w, mode, -, htd, hack, rfl⟩
  · exact ⟨Or.inl ⟨⟨ws, hmode⟩, ready_congr hready (Pair.cores_raise _ _), htodo,
      fun hlen => raise_linked (hlinked hlen) n, h.vectors⟩, h.vectors, hnotAck⟩
  · exact ⟨Or.inl ⟨⟨ws, hmode⟩, ready_congr hready (Pair.cores_drop _ _), htodo,
      fun hlen => drop_linked (hlinked hlen) hn, h.vectors⟩, h.vectors, hnotAck⟩
  · exact absurd hm (hnotCode b)
  · exact absurd hm (hnotCode true)
  · exact absurd hm hnotAck
  · exact absurd hm (hnotCode b)
  · rw [htd] at htodo hlinked hready
    have hlink : mode.todo.length ≤ 5 → Linked (s.pics.write w) := booting_linked htodo hlinked
    refine ⟨?_, h.vectors, hack⟩
    cases mode with
    | code b =>
      refine Or.inr ⟨hready, List.nil_suffix, hlink (Nat.zero_le 5), ?_⟩
      show ∀ v ∈ s.vectors, _
      rw [h.vectors]
      exact fun v hv => by cases hv
    | ack => exact absurd rfl hack
    | outs ws' =>
      exact Or.inl ⟨⟨ws', rfl⟩, hready, (List.suffix_cons w _).trans htodo, hlink, h.vectors⟩

/-! ## Interrupts -/

/-- The end of an interrupt leaves the programming alone. -/
theorem eoi_config (k : Core) (b : BitVec 8) (hb : b.getLsbD 4 = false) :
    (k.ctrl b).config = k.config := by
  unfold Core.ctrl
  rw [if_neg (by rw [hb]; nofun)]
  split_ifs
  · unfold Core.eoi
    split <;> rfl
  · rfl

theorem eois_config {ws : List (BitVec 16 × BitVec 8)} (hws : ∀ w ∈ ws, w ∈ eois)
    (ks : Core × Core) :
    (ws.foldl Pair.coreWrite ks).1.config = ks.1.config ∧
      (ws.foldl Pair.coreWrite ks).2.config = ks.2.config := by
  induction ws generalizing ks with
  | nil => exact ⟨rfl, rfl⟩
  | cons w ws ih =>
    obtain ⟨h1, h2⟩ := ih (fun v hv => hws v (List.mem_cons_of_mem w hv)) (Pair.coreWrite ks w)
    rw [List.foldl_cons, h1, h2]
    have hw := hws w List.mem_cons_self
    simp only [eois, List.mem_cons, List.not_mem_nil, or_false] at hw
    rcases hw with rfl | rfl
    · exact ⟨rfl, eoi_config _ _ rfl⟩
    · exact ⟨eoi_config _ _ rfl, rfl⟩

theorem Serving.config (h : Serving s) :
    s.pics.master.core.config = target.1.config ∧ s.pics.slave.core.config = target.2.config := by
  have hready := h.ready
  rw [Pair.cores_writes] at hready
  obtain ⟨h1, h2⟩ := eois_config (fun w hw => h.todo.subset hw) s.pics.cores
  rw [hready] at h1 h2
  exact ⟨h1.symm, h2.symm⟩

/-- The only line of the slave that is enabled. -/
theorem slave_request {c : Chip} {j : ℕ} (hconf : c.core.config = target.2.config)
    (h : c.request = some j) : j = 6 := by
  obtain ⟨hj, -, himr, -⟩ := request_spec h
  rw [hconf] at himr
  have hall : ∀ j < 8, (0xbf#8).getLsbD j = false → j = 6 := by decide
  exact hall j hj himr

theorem slave_int {c : Chip} (hconf : c.core.config = target.2.config) (h : c.int = true) :
    c.irr 6 = true := by
  obtain ⟨j, hj⟩ := Option.isSome_iff_exists.mp h
  rw [← slave_request hconf hj]
  exact (request_spec hj).2.1

/-- The lines of the master that are enabled. -/
theorem master_enabled {i : ℕ} (hi : i < 8) (h : target.1.config.imr.getLsbD i = false) :
    i = 0 ∨ i = 1 ∨ i = 2 := by
  have hmask : ∀ i < 8, (0xf8#8).getLsbD i = false → i = 0 ∨ i = 1 ∨ i = 2 := by decide
  exact hmask i hi h

/-- The vector of an input of the master that has no slave behind it. -/
theorem inta_direct (hready : p.cores = target) {i : ℕ} (hi : i < 2)
    (hreq : p.master.request = some i) :
    p.inta = (0x20#8 + BitVec.ofNat 8 i, ⟨p.master.accept i, p.slave⟩) := by
  have hm : p.master.core = target.1 := congrArg Prod.fst hready
  have hwires : ∀ j < 2, (0x04#8).getLsbD j = false := by decide
  have hans : ¬p.Answers i := fun hans => by
    have htrue := hans.1
    rw [hm, show target.1.config.wires = 0x04#8 from rfl, hwires i hi] at htrue
    cases htrue
  unfold Pair.inta
  rw [hreq]
  dsimp only
  rw [if_neg hans, hm]
  rfl

/-- The slave has its own request, or none any more. -/
theorem inta_slave (hready : p.cores = target) (hreq : p.master.request = some 2) :
    p.slave.irr 6 = false ∧ p.inta = (0x2f#8, ⟨p.master.accept 2, p.slave⟩) ∨
      p.slave.irr 6 = true ∧ p.inta = (0x2e#8, ⟨p.master.accept 2, p.slave.accept 6⟩) := by
  have hm : p.master.core = target.1 := congrArg Prod.fst hready
  have hs : p.slave.core = target.2 := congrArg Prod.snd hready
  have hans : p.Answers 2 := by
    unfold Pair.Answers
    rw [hm, hs]
    exact ⟨rfl, rfl⟩
  unfold Pair.inta
  rw [hreq]
  dsimp only
  rw [if_pos hans]
  cases hslave : p.slave.request with
  | none =>
    refine Or.inl ⟨?_, by rw [hs]; rfl⟩
    by_contra h6
    have hint6 : p.slave.int = true :=
      int_idle (by rw [hs]; rfl) (show 6 < 8 by omega) (by simpa using h6) (by rw [hs]; rfl)
    unfold Chip.int at hint6
    rw [hslave] at hint6
    cases hint6
  | some j =>
    have hj := slave_request (congrArg Core.config hs) hslave
    subst hj
    refine Or.inr ⟨(request_spec hslave).2.1, ?_⟩
    have hold : p.slave.int = true := by
      unfold Chip.int
      rw [hslave]
      rfl
    unfold Pair.wire
    dsimp only
    rw [hold, hs]
    rfl

/-- No request is left. -/
theorem inta_none (hready : p.cores = target) (hint : p.master.int = false) :
    p.inta = (0x27#8, p) := by
  have hm : p.master.core = target.1 := congrArg Prod.fst hready
  have hreq : p.master.request = none := by
    unfold Chip.int at hint
    exact Option.isNone_iff_eq_none.mp (by rw [← Option.not_isSome, hint]; rfl)
  unfold Pair.inta
  rw [hreq, hm]
  rfl

/-- The processor takes the first of the requests; for a chip without a request it gets the vector of
its last input. -/
theorem inta_cases (hready : p.cores = target) :
    (p.master.int = false ∧ p.inta = (0x27#8, p)) ∨
      (∃ i, (i = 0 ∨ i = 1 ∧ p.master.irr 0 = false) ∧ p.master.irr i = true ∧
        p.inta = (0x20#8 + BitVec.ofNat 8 i, ⟨p.master.accept i, p.slave⟩)) ∨
      p.master.irr 0 = false ∧ p.master.irr 1 = false ∧ p.master.irr 2 = true ∧
        (p.slave.irr 6 = false ∧ p.inta = (0x2f#8, ⟨p.master.accept 2, p.slave⟩) ∨
          p.slave.irr 6 = true ∧ p.inta = (0x2e#8, ⟨p.master.accept 2, p.slave.accept 6⟩)) := by
  have hm : p.master.core = target.1 := congrArg Prod.fst hready
  cases hreq : p.master.request with
  | none =>
    have hint : p.master.int = false := by
      unfold Chip.int
      rw [hreq]
      rfl
    exact Or.inl ⟨hint, inta_none hready hint⟩
  | some i =>
    obtain ⟨hi8, hirr, himr, -⟩ := request_spec hreq
    have hidle := hreq
    rw [request_idle (by rw [hm]; rfl)] at hidle
    have hlow : ∀ j < i, j < 3 → p.master.irr j = false := by
      intro j hj hj3
      have hfalse := first_least hidle hj
      have hmask : ∀ j < 3, (0xf8#8).getLsbD j = false := by decide
      rw [hm, show target.1.config.imr = 0xf8#8 from rfl, hmask j hj3] at hfalse
      simpa using hfalse
    rw [hm] at himr
    rcases master_enabled hi8 himr with rfl | rfl | rfl
    · exact Or.inr (Or.inl ⟨0, Or.inl rfl, hirr, inta_direct hready (by omega) hreq⟩)
    · exact Or.inr (Or.inl ⟨1, Or.inr ⟨rfl, hlow 0 (by omega) (by omega)⟩, hirr,
        inta_direct hready (by omega) hreq⟩)
    · exact Or.inr (Or.inr ⟨hlow 0 (by omega) (by omega), hlow 1 (by omega) (by omega), hirr,
        inta_slave hready hreq⟩)

/-- The end of interrupt takes back what the processor has accepted. -/
theorem accept_eoi {c : Chip} {i : ℕ} (hisr : c.core.isr = noInput)
    (hauto : c.core.config.autoEoi = false) (hi : i < 8) : (c.accept i).core.eoi = c.core := by
  have hacc : (c.accept i).core.isr = Function.update noInput i true := by
    unfold Chip.accept
    dsimp only
    rw [hauto, hisr]
    rfl
  rw [eoi_single hacc hi, ← hisr]
  rfl

theorem eois_cores {ks : Core × Core} (h1 : ks.1.eoi = target.1) (h2 : ks.2.eoi = target.2) :
    eois.foldl Pair.coreWrite ks = target := by
  show (ks.1.eoi, ks.2.eoi) = target
  rw [h1, h2]

/-- The stub ends every interrupt that the processor takes. -/
theorem inta_ready (hready : p.cores = target) : (p.inta.2.writes eois).cores = target := by
  have hm : p.master.core = target.1 := congrArg Prod.fst hready
  have hs : p.slave.core = target.2 := congrArg Prod.snd hready
  have hmaster : ∀ i < 8, (p.master.accept i).core.eoi = target.1 := fun i hi => by
    rw [accept_eoi (by rw [hm]; rfl) (by rw [hm]; rfl) hi, hm]
  have hslave : p.slave.core.eoi = target.2 := by
    rw [hs]
    exact eoi_none rfl
  have hslave6 : (p.slave.accept 6).core.eoi = target.2 := by
    rw [accept_eoi (by rw [hs]; rfl) (by rw [hs]; rfl) (by omega), hs]
  rw [Pair.cores_writes]
  rcases inta_cases hready with ⟨-, heq⟩ | ⟨i, hi, -, heq⟩ | ⟨-, -, -, ⟨-, heq⟩ | ⟨-, heq⟩⟩
  · rw [heq, hready]
    exact eois_cores (eoi_none rfl) (eoi_none rfl)
  · rw [heq]
    exact eois_cores (hmaster i (by omega)) hslave
  · rw [heq]
    exact eois_cores (hmaster 2 (by omega)) hslave
  · rw [heq]
    exact eois_cores (hmaster 2 (by omega)) hslave6

theorem inta_linked (hready : p.cores = target) (h : Linked p) : Linked p.inta.2 := by
  have hs : p.slave.core = target.2 := congrArg Prod.snd hready
  rcases inta_cases hready with ⟨-, heq⟩ | ⟨i, hi, -, heq⟩ | ⟨-, -, -, ⟨h6, heq⟩ | ⟨-, heq⟩⟩
  · rw [heq]
    exact h
  · rw [heq]
    intro hsint
    exact (Function.update_of_ne (by omega) _ _).trans (h hsint)
  · rw [heq]
    intro hsint
    rw [slave_int (congrArg Core.config hs) hsint] at h6
    cases h6
  · rw [heq]
    intro hsint
    have hirr : (p.slave.accept 6).irr 6 = false := accept_irr p.slave 6
    have hconf : (p.slave.accept 6).core.config = target.2.config := by
      rw [← hs]
      rfl
    rw [slave_int hconf hsint] at hirr
    cases hirr

/-- A vector is one of the five; the last line of a chip stands for a request that is not there. -/
theorem inta_vector (hready : p.cores = target) :
    (p.inta.1 = 0x20#8 ∨ p.inta.1 = 0x21#8 ∨ p.inta.1 = 0x2e#8 ∨ p.inta.1 = 0x27#8 ∨
        p.inta.1 = 0x2f#8) ∧
      [p.inta.1].count 0x27#8 + [p.inta.1].count 0x2f#8 + stray p.inta.2 ≤
        stray p + (if p.master.int = false then 1 else 0) := by
  have hclear : ∀ q : Chip, stray ⟨p.master.accept 2, q⟩ = 0 := fun q => by
    have hirr : (p.master.accept 2).irr 2 = false := accept_irr p.master 2
    exact if_neg fun h => absurd h.1 (by rw [hirr]; exact Bool.false_ne_true)
  rcases inta_cases hready with ⟨hint, heq⟩ | ⟨i, hi, -, heq⟩ | ⟨-, -, h2, ⟨h6, heq⟩ | ⟨-, heq⟩⟩
  · rw [heq, if_pos hint]
    exact ⟨Or.inr (Or.inr (Or.inr (Or.inl rfl))), Nat.le_of_eq (Nat.add_comm 1 _)⟩
  · have hirr : (p.master.accept i).irr 2 = p.master.irr 2 :=
      Function.update_of_ne (by omega) _ _
    have hstray : stray ⟨p.master.accept i, p.slave⟩ = stray p := by
      unfold stray
      rw [hirr]
    rw [heq]
    dsimp only
    rw [hstray]
    rcases hi with rfl | ⟨rfl, -⟩
    · exact ⟨Or.inl rfl, Nat.le_trans (Nat.le_of_eq (Nat.zero_add _)) (Nat.le_add_right _ _)⟩
    · exact ⟨Or.inr (Or.inl rfl),
        Nat.le_trans (Nat.le_of_eq (Nat.zero_add _)) (Nat.le_add_right _ _)⟩
  · rw [heq]
    dsimp only
    rw [hclear, show stray p = 1 from if_pos ⟨h2, h6⟩]
    exact ⟨Or.inr (Or.inr (Or.inr (Or.inr rfl))), Nat.le_add_right 1 _⟩
  · rw [heq]
    dsimp only
    rw [hclear]
    exact ⟨Or.inr (Or.inr (Or.inl rfl)), Nat.zero_le _⟩

/-- The output of the slave rises only with an enabled request. -/
theorem wire_stray {c : Chip} (hconf : c.core.config = target.2.config)
    (h6 : p.slave.irr 6 = true → c.irr 6 = true) : stray (p.wire c) ≤ stray p := by
  unfold stray Pair.wire
  dsimp only
  by_cases hrise : (!p.slave.int && c.int) = true
  · rw [if_neg fun h => ?_]
    · exact Nat.zero_le _
    · rw [Bool.and_eq_true] at hrise
      rw [slave_int hconf hrise.2] at h
      cases h.2
  · rw [if_neg hrise]
    by_cases hc : p.master.irr 2 = true ∧ c.irr 6 = false
    · rw [if_pos hc, if_pos ⟨hc.1, by
        by_contra hne
        rw [h6 (by simpa using hne)] at hc
        cases hc.2⟩]
    · rw [if_neg hc]
      exact Nat.zero_le _

theorem raise_stray (hconf : p.slave.core.config = target.2.config) (hn : n ≠ 2) :
    stray (p.raise n) ≤ stray p := by
  unfold Pair.raise
  split_ifs
  · have hirr : (p.master.raise n).irr 2 = p.master.irr 2 := Function.update_of_ne (Ne.symm hn) _ _
    unfold stray
    dsimp only
    rw [hirr]
  · refine wire_stray hconf fun h6 => ?_
    show Function.update p.slave.irr (n - 8) true 6 = true
    by_cases h : 6 = n - 8
    · rw [h, Function.update_self]
    · rw [Function.update_of_ne h]
      exact h6

theorem eois_linked {w : BitVec 16 × BitVec 8} (hw : w ∈ eois) (h : Linked p) :
    Linked (p.write w) := by
  have hbit : (eois.all fun w => decide (w.1 = 0x20#16 → w.2.getLsbD 4 = false)) = true := by decide
  exact write_linked h (of_decide_eq_true (List.all_eq_true.mp hbit w hw))

/-- The two writes of a stub leave the requests alone, but the slave may have one again. -/
theorem eois_irr {w : BitVec 16 × BitVec 8} (hw : w ∈ eois) (p : Pair) :
    (∀ i, i ≠ 2 → (p.write w).master.irr i = p.master.irr i) ∧
      (p.write w).slave.irr = p.slave.irr := by
  simp only [eois, List.mem_cons, List.not_mem_nil, or_false] at hw
  rcases hw with rfl | rfl
  · exact ⟨fun i hi => wire_irr p _ hi, rfl⟩
  · exact ⟨fun i _ => rfl, rfl⟩

theorem eois_stray {w : BitVec 16 × BitVec 8} (hw : w ∈ eois)
    (hconf : p.slave.core.config = target.2.config) : stray (p.write w) ≤ stray p := by
  simp only [eois, List.mem_cons, List.not_mem_nil, or_false] at hw
  rcases hw with rfl | rfl
  · exact wire_stray ((eoi_config _ _ rfl).trans hconf) id
  · exact Nat.le_refl _

theorem Serving.outside (h : Serving s) (hm : s.mode.Outside) : s.pics.cores = target := by
  have hready := h.ready
  cases hmode : s.mode with
  | code b => rwa [hmode] at hready
  | ack => rwa [hmode] at hready
  | outs ws => exact absurd hmode (hm ws)

theorem outside_code {b : Bool} (hm : s.mode = .code b) : s.mode.Outside := by
  rw [hm]
  exact fun ws => Mode.noConfusion

theorem outside_ack (hm : s.mode = .ack) : s.mode.Outside := by
  rw [hm]
  exact fun ws => Mode.noConfusion

theorem serving_step (h : Serving s) (hs : step s e = some (.ok s')) : Serving s' := by
  rcases step_cases hs with ⟨n, -, -, -, rfl⟩ | ⟨n, -, -, hn, rfl⟩ | ⟨b, on, -, hm, rfl⟩ |
    ⟨-, hm, -, rfl⟩ | ⟨-, hm, rfl⟩ | ⟨b, -, hm, rfl⟩ | ⟨w, mode, -, htd, -, rfl⟩
  · exact ⟨ready_congr h.ready (Pair.cores_raise _ _), h.todo, raise_linked h.linked n, h.vectors⟩
  · exact ⟨ready_congr h.ready (Pair.cores_drop _ _), h.todo, drop_linked h.linked hn, h.vectors⟩
  · exact ⟨h.outside (outside_code hm), List.nil_suffix, h.linked, h.vectors⟩
  · exact ⟨h.outside (outside_code hm), List.nil_suffix, h.linked, h.vectors⟩
  · have hready := h.outside (outside_ack hm)
    exact ⟨inta_ready hready, List.suffix_refl _, inta_linked hready h.linked,
      List.forall_mem_cons.mpr ⟨(inta_vector hready).1, h.vectors⟩⟩
  · have hready := h.outside (outside_code hm)
    refine ⟨?_, List.suffix_refl _, h.linked, h.vectors⟩
    rw [Pair.cores_writes]
    exact eois_cores (by rw [hready]; exact eoi_none rfl) (by rw [hready]; exact eoi_none rfl)
  · have htodo := h.todo
    have hready := h.ready
    rw [htd] at htodo hready
    have hw : w ∈ eois := htodo.subset List.mem_cons_self
    exact ⟨hready, (List.suffix_cons w _).trans htodo, eois_linked hw h.linked, h.vectors⟩

/-! ## Requests -/

/-- The lines of the clock, the keyboard and the first disk channel. -/
def Enabled (n : ℕ) : Prop := n = 0 ∨ n = 1 ∨ n = 14

/-- The vector of a line. -/
def vector (n : ℕ) : BitVec 8 := 0x20#8 + BitVec.ofNat 8 n

/-- The line rises while it has no request. -/
def latches (n : ℕ) (s : State) (e : Event) : ℕ :=
  if e = .irq n ∧ s.pics.pending n = false then 1 else 0

/-- The line falls while it has a request. -/
def withdraws (n : ℕ) (s : State) (e : Event) : ℕ :=
  if e = .fall n ∧ s.pics.pending n = true then 1 else 0

/-- The sum over the steps of a run. -/
def tally (f : State → Event → ℕ) : State → List Event → ℕ
  | _, [] => 0
  | s, e :: es =>
    f s e +
      match machine.step s e with
      | some (.ok s') => tally f s' es
      | some (.error _) => 0
      | none => 0

/-- How many requests a line makes. -/
def latched (n : ℕ) : State → List Event → ℕ := tally (latches n)

/-- How many of them it takes back. -/
def withdrawn (n : ℕ) : State → List Event → ℕ := tally (withdraws n)

theorem tally_cons {f : State → Event → ℕ} {es : List Event}
    (hs : machine.step s e = some (.ok s')) : tally f s (e :: es) = f s e + tally f s' es := by
  rw [tally, hs]

/-- An interrupt takes one request, that of its vector. -/
theorem inta_enabled (hready : p.cores = target) (hn : Enabled n) :
    [p.inta.1].count (vector n) + (p.inta.2.pending n).toNat = (p.pending n).toNat := by
  have hmiss : ∀ {v : BitVec 8} {q : Pair}, v ≠ vector n → q.pending n = p.pending n →
      [v].count (vector n) + (q.pending n).toNat = (p.pending n).toNat := fun hne hq => by
    rw [List.count_eq_zero.mpr fun hmem => hne (List.mem_singleton.mp hmem).symm, hq, Nat.zero_add]
  have hhit : ∀ {v : BitVec 8} {q : Pair}, v = vector n → q.pending n = false → p.pending n = true →
      [v].count (vector n) + (q.pending n).toNat = (p.pending n).toNat := fun heq hq hp => by
    rw [heq, List.count_singleton_self, hq, hp]
    rfl
  rcases inta_cases hready with ⟨-, heq⟩ | ⟨i, hi, hirr, heq⟩ | ⟨-, -, h2, ⟨h6, heq⟩ | ⟨h6, heq⟩⟩
  · rw [heq]
    dsimp only
    rcases hn with rfl | rfl | rfl
    · exact hmiss (by decide) rfl
    · exact hmiss (by decide) rfl
    · exact hmiss (by decide) rfl
  · rw [heq]
    dsimp only
    rcases hi with rfl | ⟨rfl, -⟩
    · rcases hn with rfl | rfl | rfl
      · exact hhit rfl (accept_irr _ 0) hirr
      · exact hmiss (by decide) (accept_irr_of_ne _ (by omega))
      · exact hmiss (by decide) rfl
    · rcases hn with rfl | rfl | rfl
      · exact hmiss (by decide) (accept_irr_of_ne _ (by omega))
      · exact hhit rfl (accept_irr _ 1) hirr
      · exact hmiss (by decide) rfl
  · rw [heq]
    dsimp only
    rcases hn with rfl | rfl | rfl
    · exact hmiss (by decide) (accept_irr_of_ne _ (by omega))
    · exact hmiss (by decide) (accept_irr_of_ne _ (by omega))
    · exact hmiss (by decide) rfl
  · rw [heq]
    dsimp only
    rcases hn with rfl | rfl | rfl
    · exact hmiss (by decide) (accept_irr_of_ne _ (by omega))
    · exact hmiss (by decide) (accept_irr_of_ne _ (by omega))
    · exact hhit rfl (accept_irr _ 6) h6

/-- A line that is not enabled is not served. -/
theorem inta_masked (hready : p.cores = target) (hn : ¬Enabled n) (hn2 : n ≠ 2) :
    p.inta.2.pending n = p.pending n := by
  unfold Enabled at hn
  have hmaster : ∀ i q, i ≤ 2 → n < 8 → Pair.pending ⟨p.master.accept i, q⟩ n = p.pending n := by
    intro i q hi h8
    unfold Pair.pending
    rw [if_pos h8, if_pos h8]
    exact accept_irr_of_ne p.master (by omega)
  have hcases := inta_cases hready
  by_cases h8 : n < 8
  · rcases hcases with ⟨-, heq⟩ | ⟨i, hi, -, heq⟩ | ⟨-, -, -, ⟨-, heq⟩ | ⟨-, heq⟩⟩
    · rw [heq]
    · rw [heq]
      exact hmaster i _ (by omega) h8
    · rw [heq]
      exact hmaster 2 _ (Nat.le_refl 2) h8
    · rw [heq]
      exact hmaster 2 _ (Nat.le_refl 2) h8
  · unfold Pair.pending
    rw [if_neg h8, if_neg h8]
    rcases hcases with ⟨-, heq⟩ | ⟨i, -, -, heq⟩ | ⟨-, -, -, ⟨-, heq⟩ | ⟨-, heq⟩⟩
    · rw [heq]
    · rw [heq]
    · rw [heq]
    · rw [heq]
      exact accept_irr_of_ne p.slave (by omega)

theorem eois_pending {w : BitVec 16 × BitVec 8} (hw : w ∈ eois) (p : Pair) (hn : n ≠ 2) :
    (p.write w).pending n = p.pending n := by
  obtain ⟨hm, hs⟩ := eois_irr hw p
  unfold Pair.pending
  rw [hm n hn, hs]

/-- One step: a request comes when the line rises, and goes when its vector is taken or the line
falls. -/
theorem step_enabled (h : Serving s) (hs : step s e = some (.ok s')) (hn : Enabled n) :
    s'.vectors.count (vector n) + (s'.pics.pending n).toNat + withdraws n s e =
      s.vectors.count (vector n) + (s.pics.pending n).toNat + latches n s e := by
  have hn2 : n ≠ 2 := by unfold Enabled at hn; omega
  have hnone : (∀ m, e ≠ .irq m) → (∀ m, e ≠ .fall m) → latches n s e = 0 ∧ withdraws n s e = 0 :=
    fun hirq hfall => ⟨if_neg fun h => hirq n h.1, if_neg fun h => hfall n h.1⟩
  rcases step_cases hs with ⟨m, rfl, -, -, rfl⟩ | ⟨m, rfl, -, -, rfl⟩ | ⟨b, on, rfl, -, rfl⟩ |
    ⟨rfl, -, -, rfl⟩ | ⟨rfl, hm, rfl⟩ | ⟨b, rfl, -, rfl⟩ | ⟨w, mode, rfl, htd, -, rfl⟩
  · dsimp only [latches, withdraws]
    rw [pending_raise _ m hn2, if_neg fun h => Event.noConfusion h.1]
    by_cases hmn : n = m
    · subst hmn
      cases s.pics.pending n <;> simp
    · rw [decide_eq_false hmn, Bool.false_or, if_neg fun h => hmn (Event.irq.inj h.1).symm]
  · dsimp only [latches, withdraws]
    rw [pending_drop, if_neg fun h : Event.fall m = .irq n ∧ _ => Event.noConfusion h.1]
    by_cases hmn : n = m
    · subst hmn
      cases s.pics.pending n <;> simp
    · rw [decide_eq_true hmn, Bool.true_and, if_neg fun h => hmn (Event.fall.inj h.1).symm]
  · obtain ⟨hl, hw⟩ := hnone (fun _ => Event.noConfusion) fun _ => Event.noConfusion
    rw [hl, hw]
  · obtain ⟨hl, hw⟩ := hnone (fun _ => Event.noConfusion) fun _ => Event.noConfusion
    rw [hl, hw]
  · have hone := inta_enabled (h.outside (outside_ack hm)) hn
    have happ : (s.pics.inta.1 :: s.vectors).count (vector n) =
        [s.pics.inta.1].count (vector n) + s.vectors.count (vector n) := by
      rw [← List.count_append]
      rfl
    obtain ⟨hl, hw⟩ := hnone (fun _ => Event.noConfusion) fun _ => Event.noConfusion
    rw [hl, hw]
    dsimp only
    omega
  · obtain ⟨hl, hw⟩ := hnone (fun _ => Event.noConfusion) fun _ => Event.noConfusion
    rw [hl, hw]
  · have htodo := h.todo
    rw [htd] at htodo
    obtain ⟨hl, hw⟩ := hnone (fun _ => Event.noConfusion) fun _ => Event.noConfusion
    rw [hl, hw]
    dsimp only
    rw [eois_pending (htodo.subset List.mem_cons_self) _ hn2]

theorem step_masked (h : Serving s) (hs : step s e = some (.ok s')) (hn : ¬Enabled n) (hn2 : n ≠ 2)
    (hfall : e ≠ .fall n) (hpend : s.pics.pending n = true) : s'.pics.pending n = true := by
  rcases step_cases hs with ⟨m, -, -, -, rfl⟩ | ⟨m, rfl, -, -, rfl⟩ | ⟨b, on, -, -, rfl⟩ |
    ⟨-, -, -, rfl⟩ | ⟨-, hm, rfl⟩ | ⟨b, -, -, rfl⟩ | ⟨w, mode, -, htd, -, rfl⟩
  · dsimp only
    rw [pending_raise _ m hn2, hpend, Bool.or_true]
  · dsimp only
    rw [pending_drop, hpend, Bool.and_true]
    exact decide_eq_true fun heq => hfall (congrArg Event.fall heq.symm)
  · exact hpend
  · exact hpend
  · exact (inta_masked (h.outside (outside_ack hm)) hn hn2).trans hpend
  · exact hpend
  · have htodo := h.todo
    rw [htd] at htodo
    exact (eois_pending (htodo.subset List.mem_cons_self) _ hn2).trans hpend

/-! ## Interrupts without a request -/

theorem stray_le_one (p : Pair) : stray p ≤ 1 := by
  unfold stray
  split_ifs <;> omega

theorem lost_le_one (s : State) : lost s ≤ 1 := by
  unfold lost
  split_ifs <;> omega

theorem lost_eq_zero (h : s.mode ≠ .ack) : lost s = 0 := if_neg fun h' => h h'.1

/-- A line that is not enabled can fall without notice. -/
theorem int_drop_masked {c : Chip} {i : ℕ} (hconf : c.core.config.imr.getLsbD i = true) :
    (c.drop i).int = c.int := by
  unfold Chip.int Chip.request
  congr 2
  funext j
  by_cases hji : j = i
  · rw [hji, show (c.drop i).core = c.core from rfl, hconf, Bool.not_true, Bool.and_false,
      Bool.and_false]
  · rw [drop_irr_of_ne c hji]
    rfl

theorem int_raise {c : Chip} {i : ℕ} (h : c.int = true) : (c.raise i).int = true := by
  unfold Chip.int Chip.request at h ⊢
  rw [first_isSome] at h ⊢
  obtain ⟨j, hj, hreq⟩ := h
  refine ⟨j, hj, ?_⟩
  rw [Bool.and_eq_true, Bool.and_eq_true] at hreq ⊢
  refine ⟨⟨?_, hreq.1.2⟩, hreq.2⟩
  by_cases hji : j = i
  · rw [hji]
    exact Function.update_self i true c.irr
  · exact (Function.update_of_ne hji true c.irr).trans hreq.1.1

theorem master_int_raise (h : p.master.int = true) (n : ℕ) : (p.raise n).master.int = true := by
  unfold Pair.raise Pair.wire
  split_ifs
  · exact int_raise h
  · exact int_raise h
  · exact h

/-- Lines that rise make no interrupt without a request. -/
theorem spurious_raise (h : Serving s) (hn : n ≠ 2) :
    spurious { s with pics := s.pics.raise n } ≤ spurious s := by
  have hstray := raise_stray (n := n) h.config.2 hn
  have hlost : lost { s with pics := s.pics.raise n } ≤ lost s := by
    unfold lost
    by_cases hbefore : s.mode = .ack ∧ s.pics.master.int = false
    · rw [if_pos hbefore]
      split_ifs <;> omega
    · rw [if_neg fun h' => hbefore ⟨h'.1, ?_⟩]
      · exact Nat.zero_le _
      · by_contra hint
        have hraise := master_int_raise (by simpa using hint) n
        rw [hraise] at h'
        cases h'.2
  unfold spurious
  dsimp only
  omega

/-- The falling edge of the output of the slave takes a stray request of the master back. -/
theorem spurious_cascade (h : Serving s) (hint : s.pics.slave.int = false) :
    spurious { s with pics := s.pics.drop 2 } ≤ spurious s := by
  have hirr : (s.pics.drop 2).master.irr 2 = false := drop_irr s.pics.master 2
  have hstray : stray (s.pics.drop 2) = 0 := if_neg fun h' => by
    rw [hirr] at h'
    cases h'.1
  have hlost : lost { s with pics := s.pics.drop 2 } ≤ stray s.pics + lost s := by
    by_cases hm : s.mode = .ack
    · by_cases h2 : s.pics.master.irr 2 = true
      · -- the slave has no request either
        have hs : s.pics.slave.core = target.2 :=
          congrArg Prod.snd (h.outside (outside_ack hm))
        have h6 : s.pics.slave.irr 6 = false := by
          by_contra h6
          have hhigh : s.pics.slave.int = true :=
            int_idle (by rw [hs]; rfl) (show 6 < 8 by omega) (by simpa using h6) (by rw [hs]; rfl)
          rw [hhigh] at hint
          cases hint
        rw [show stray s.pics = 1 from if_pos ⟨h2, h6⟩]
        unfold lost
        split_ifs <;> omega
      · have hpend : s.pics.pending 2 = false := by
          rw [show s.pics.pending 2 = s.pics.master.irr 2 from rfl]
          simpa using h2
        rw [drop_of_not_pending hpend]
        exact Nat.le_add_left _ _
    · rw [lost_eq_zero (show { s with pics := s.pics.drop 2 }.mode ≠ .ack from hm)]
      exact Nat.zero_le _
  unfold spurious
  dsimp only
  omega

theorem stray_drop (p : Pair) (h2 : n ≠ 2) (h14 : n ≠ 14) : stray (p.drop n) = stray p := by
  have hsame : (p.drop n).master.irr 2 = p.master.irr 2 ∧ (p.drop n).slave.irr 6 = p.slave.irr 6 := by
    unfold Pair.drop
    split_ifs
    · exact ⟨drop_irr_of_ne p.master (Ne.symm h2), rfl⟩
    · exact ⟨rfl, drop_irr_of_ne p.slave (show 6 ≠ n - 8 by omega)⟩
  unfold stray
  rw [hsame.1, hsame.2]

/-- The master knows of no line that falls behind the slave or is not enabled. -/
theorem lost_drop (h : Serving s) (hn : 3 ≤ n) :
    lost { s with pics := s.pics.drop n } = lost s := by
  have hint : (s.pics.drop n).master.int = s.pics.master.int := by
    unfold Pair.drop
    split_ifs with h8
    · refine int_drop_masked ?_
      have hmask : ∀ i < 8, 3 ≤ i → (0xf8#8).getLsbD i = true := by decide
      rw [h.config.1]
      exact hmask n h8 hn
    · rfl
  unfold lost
  dsimp only
  rw [hint]

/-- A line that falls makes at most one such interrupt, and only if it takes a request back. -/
theorem spurious_fall (h : Serving s) (hcascade : n = 2 → s.pics.slave.int = false) :
    spurious { s with pics := s.pics.drop n } ≤
      spurious s + (withdraws 0 s (.fall n) + withdraws 1 s (.fall n) + withdraws 14 s (.fall n)) := by
  by_cases hpend : s.pics.pending n = true
  · by_cases h2 : n = 2
    · subst h2
      exact Nat.le_add_right_of_le (spurious_cascade h (hcascade rfl))
    · have hone : ∀ m, m = n → withdraws m s (.fall n) = 1 := fun m hm =>
        if_pos ⟨congrArg Event.fall hm.symm, hm ▸ hpend⟩
      have hstray := stray_le_one (s.pics.drop n)
      have hlost := lost_le_one { s with pics := s.pics.drop n }
      unfold spurious
      dsimp only
      by_cases h3 : 3 ≤ n
      · rw [lost_drop h h3]
        by_cases h14 : n = 14
        · rw [hone 14 h14.symm]
          omega
        · rw [stray_drop s.pics h2 h14]
          omega
      · rw [stray_drop s.pics h2 (by omega)]
        rcases (by omega : n = 0 ∨ n = 1) with h0 | h1
        · rw [hone 0 h0.symm]
          omega
        · rw [hone 1 h1.symm]
          omega
  · rw [drop_of_not_pending (by simpa using hpend)]
    exact Nat.le_add_right _ _

/-- One step. -/
theorem spurious_step (h : Serving s) (hs : step s e = some (.ok s')) :
    spurious s' ≤ spurious s + (withdraws 0 s e + withdraws 1 s e + withdraws 14 s e) := by
  rcases step_cases hs with ⟨n, -, -, hn, rfl⟩ | ⟨n, rfl, -, hcascade, rfl⟩ | ⟨b, on, -, hm, rfl⟩ |
    ⟨-, hm, hint, rfl⟩ | ⟨-, hm, rfl⟩ | ⟨b, -, hm, rfl⟩ | ⟨w, mode, -, htd, hack, rfl⟩
  · exact Nat.le_add_right_of_le (spurious_raise h hn)
  · exact spurious_fall h hcascade
  · refine Nat.le_add_right_of_le (Nat.add_le_add_left ?_ _)
    rw [lost_eq_zero (s := { s with mode := .code on }) Mode.noConfusion]
    exact Nat.zero_le _
  · refine Nat.le_add_right_of_le (Nat.add_le_add_left ?_ _)
    have hlost : lost { s with mode := .ack } = 0 := if_neg fun h' => by
      rw [show ({ s with mode := .ack } : State).pics.master.int = true from hint] at h'
      cases h'.2
    rw [hlost]
    exact Nat.zero_le _
  · have hvector := (inta_vector (h.outside (outside_ack hm))).2
    have hlost : lost s = if s.pics.master.int = false then 1 else 0 := by
      unfold lost
      simp only [hm, true_and]
    have hcount : ∀ v, (s.pics.inta.1 :: s.vectors).count v =
        [s.pics.inta.1].count v + s.vectors.count v := fun v => by
      rw [← List.count_append]
      rfl
    unfold spurious
    rw [lost_eq_zero (s := ⟨s.pics.inta.2, .outs eois, _⟩) Mode.noConfusion]
    dsimp only
    rw [hcount, hcount, hlost]
    omega
  · refine Nat.le_add_right_of_le (Nat.add_le_add_left ?_ _)
    rw [lost_eq_zero (s := { s with mode := .outs eois }) Mode.noConfusion]
    exact Nat.zero_le _
  · have htodo := h.todo
    rw [htd] at htodo
    have hstray := eois_stray (htodo.subset List.mem_cons_self) h.config.2
    unfold spurious
    rw [lost_eq_zero (s := ⟨s.pics.write w, mode, s.vectors⟩) hack]
    dsimp only
    omega

/-! ## Runs -/

theorem boot_run {es : List Event} (h : machine.run (boot p) es = some (.ok s)) :
    Booting s ∨ Serving s :=
  machine.run_ok (I := fun s => Booting s ∨ Serving s)
    (fun _ _ _ hinv hs => hinv.elim (fun hb => (booting_step hb hs).1)
    fun hv => Or.inr (serving_step hv hs)) (Or.inl (boot_booting p)) h

theorem outside_serving {es : List Event} (h : machine.run (boot p) es = some (.ok s))
    (hm : s.mode.Outside) : Serving s := by
  rcases boot_run h with hb | hv
  · obtain ⟨ws, hws⟩ := hb.mode
    exact absurd hws (hm ws)
  · exact hv

/-- After `pic_init` there is at most one request of the slave that it has not any more. -/
theorem spurious_start (hvec : s.vectors = []) (hm : s.mode ≠ .ack) : spurious s ≤ 1 := by
  have hstray := stray_le_one s.pics
  unfold spurious
  rw [hvec, lost_eq_zero hm, List.count_nil, List.count_nil]
  omega

theorem spurious_run {es : List Event} {b : ℕ} (hinv : Booting s ∨ Serving s)
    (hb : spurious s ≤ 1 + b) (h : machine.run s es = some (.ok s')) :
    spurious s' ≤ 1 + b + (withdrawn 0 s es + withdrawn 1 s es + withdrawn 14 s es) := by
  induction es generalizing s b with
  | nil =>
    cases h
    exact Nat.le_add_right_of_le hb
  | cons e es ih =>
    rcases machine.run_cons_cases h with ⟨s₁, hs, hrun⟩ | ⟨x, -, -, -⟩
    · have htally : ∀ n, withdrawn n s (e :: es) = withdraws n s e + withdrawn n s₁ es :=
        fun n => tally_cons hs
      have hone : (Booting s₁ ∨ Serving s₁) ∧
          spurious s₁ ≤ 1 + (b + (withdraws 0 s e + withdraws 1 s e + withdraws 14 s e)) := by
        rcases hinv with hboot | hv
        · obtain ⟨hinv₁, hvec, hack⟩ := booting_step hboot hs
          exact ⟨hinv₁, Nat.le_add_right_of_le (spurious_start hvec hack)⟩
        · have hstep := spurious_step hv hs
          exact ⟨Or.inr (serving_step hv hs), by omega⟩
      have hrest := ih hone.1 hone.2 hrun
      rw [htally, htally, htally]
      omega
    · exact x.elim

/-- The first of the requests is the next that the processor takes. -/
theorem next_vector (h : p.cores = target) (hlink : Linked p) (hn : Enabled n)
    (hpend : p.pending n = true) (hfirst : ∀ m, Enabled m → m < n → p.pending m = false) :
    p.master.int = true ∧ p.inta.1 = vector n := by
  have hm : p.master.core = target.1 := congrArg Prod.fst h
  have hs : p.slave.core = target.2 := congrArg Prod.snd h
  have hmint : ∀ i < 3, p.master.irr i = true → p.master.int = true := by
    intro i hi hirr
    have hmask : ∀ i < 3, (0xf8#8).getLsbD i = false := by decide
    exact int_idle (by rw [hm]; rfl) (show i < 8 by omega) hirr (by rw [hm]; exact hmask i hi)
  have hint : p.master.int = true := by
    rcases hn with rfl | rfl | rfl
    · exact hmint 0 (by omega) hpend
    · exact hmint 1 (by omega) hpend
    · refine hmint 2 (by omega) (hlink ?_)
      exact int_idle (by rw [hs]; rfl) (show 6 < 8 by omega) hpend (by rw [hs]; rfl)
  refine ⟨hint, ?_⟩
  rcases inta_cases h with ⟨hlow, -⟩ | ⟨i, hi, hirr, heq⟩ | ⟨h0, h1, -, hslave⟩
  · rw [hint] at hlow
    cases hlow
  · rw [heq]
    rcases hi with rfl | ⟨rfl, h0⟩
    · rcases hn with rfl | hn
      · rfl
      · have hfalse := hfirst 0 (Or.inl rfl) (by omega)
        rw [show p.pending 0 = p.master.irr 0 from rfl, hirr] at hfalse
        cases hfalse
    · rcases hn with rfl | rfl | rfl
      · rw [show p.pending 0 = p.master.irr 0 from rfl, h0] at hpend
        cases hpend
      · rfl
      · have hfalse := hfirst 1 (Or.inr (Or.inl rfl)) (by omega)
        rw [show p.pending 1 = p.master.irr 1 from rfl, hirr] at hfalse
        cases hfalse
  · rcases hn with rfl | rfl | rfl
    · rw [show p.pending 0 = p.master.irr 0 from rfl, h0] at hpend
      cases hpend
    · rw [show p.pending 1 = p.master.irr 1 from rfl, h1] at hpend
      cases hpend
    · rcases hslave with ⟨h6, -⟩ | ⟨-, heq⟩
      · rw [show p.pending 14 = p.slave.irr 6 from rfl, h6] at hpend
        cases hpend
      · rw [heq]
        rfl

/-- **Interrupts of the devices.**  Whatever the controllers did before `pic_init`, and whenever the
lines rise and fall, the processor gets no other vectors than those of the clock, the keyboard and the
first disk channel, and those of the last lines of the two chips, which stand for a request that is
not there any more: one of these for every request that its line has taken back, and one for a
request that `pic_init` has masked afterwards.  Outside the stubs nothing is in service, so that the
first of the requests of the three devices is always the next interrupt. -/
theorem pic_run (p : Pair) (es : List Event) (s : State)
    (h : machine.run (boot p) es = some (.ok s)) :
    (∀ v ∈ s.vectors, v = vector 0 ∨ v = vector 1 ∨ v = vector 14 ∨ v = vector 7 ∨ v = vector 15) ∧
      s.vectors.count (vector 7) + s.vectors.count (vector 15) ≤
        1 + (withdrawn 0 (boot p) es + withdrawn 1 (boot p) es + withdrawn 14 (boot p) es) ∧
      (s.mode.Outside →
        s.pics.master.core.isr = noInput ∧ s.pics.slave.core.isr = noInput ∧
          ∀ n, Enabled n → s.pics.pending n = true →
            (∀ m, Enabled m → m < n → s.pics.pending m = false) →
              s.pics.master.int = true ∧ s.pics.inta.1 = vector n) := by
  refine ⟨?_, ?_, fun hm => ?_⟩
  · rcases boot_run h with hb | hv
    · rw [hb.vectors]
      exact fun v hv => by cases hv
    · exact hv.vectors
  · have hstart : spurious (boot p) ≤ 1 + 0 := spurious_start rfl Mode.noConfusion
    have hbound := spurious_run (Or.inl (boot_booting p)) hstart h
    unfold spurious at hbound
    change s.vectors.count 0x27#8 + s.vectors.count 0x2f#8 ≤ _
    omega
  · have hv := outside_serving h hm
    have hready := hv.outside hm
    have hm' : s.pics.master.core = target.1 := congrArg Prod.fst hready
    have hs' : s.pics.slave.core = target.2 := congrArg Prod.snd hready
    exact ⟨by rw [hm']; rfl, by rw [hs']; rfl, fun n hn => next_vector hready hv.linked hn⟩

/-- Controllers in any state. -/
def samplePair : Pair :=
  ⟨⟨⟨⟨0#8, 0x08#8, 0#8, 0#8, false, .ready⟩, Function.update noInput 3 true⟩, noInput⟩,
    ⟨⟨⟨0#8, 0x70#8, 0#8, 0#8, true, .icw3⟩, noInput⟩, Function.update noInput 6 true⟩⟩

/-- `pic_init`, and then code with the interrupts on. -/
def sampleBoot : List Event :=
  [.out, .out, .out, .irq 15, .out, .out, .out, .out, .out, .out, .out, .intr true]

/-- Two requests at once, and the stubs of both; then a key whose line falls too early. -/
def sampleRun : List Event :=
  [.irq 14, .irq 0, .ack, .inta, .out, .irq 14, .out, .intr true, .ack, .inta, .out, .out,
    .intr true, .irq 1, .ack, .fall 1, .inta]

theorem pic_run_disk :
    ∃ s, machine.run (boot samplePair) (sampleBoot ++ sampleRun) = some (.ok s) ∧
      s.vectors = [0x27#8, 0x2e#8, 0x20#8] ∧
      s.vectors.count (vector 7) + s.vectors.count (vector 15) ≤ 2 := by
  have htest : ((machine.run (boot samplePair) (sampleBoot ++ sampleRun)).any fun r =>
      r.toOption.any fun s => decide (s.vectors = [0x27#8, 0x2e#8, 0x20#8])) = true := by
    decide +kernel
  obtain ⟨s, hrun, hvec⟩ := machine.run_of_test htest
  have hfalls : withdrawn 0 (boot samplePair) (sampleBoot ++ sampleRun) = 0 ∧
      withdrawn 1 (boot samplePair) (sampleBoot ++ sampleRun) = 1 ∧
      withdrawn 14 (boot samplePair) (sampleBoot ++ sampleRun) = 0 := by decide +kernel
  have hcount := (pic_run samplePair _ s hrun).2.1
  rw [hfalls.1, hfalls.2.1, hfalls.2.2] at hcount
  exact ⟨s, hrun, of_decide_eq_true hvec, hcount⟩

/-- **No request is lost.**  After `pic_init`, in every run, each request of one of the three devices
is served once, or taken back by its line, or still waiting; a request of any other line is never
served, and waits until its line falls. -/
theorem pic_conserves (p : Pair) (es fs : List Event) (s s' : State)
    (h : machine.run (boot p) es = some (.ok s)) (hm : s.mode.Outside)
    (h' : machine.run s fs = some (.ok s')) :
    (∀ n, Enabled n →
        s'.vectors.count (vector n) + (s'.pics.pending n).toNat + withdrawn n s fs =
          s.vectors.count (vector n) + (s.pics.pending n).toNat + latched n s fs) ∧
      ∀ n, ¬Enabled n → n ≠ 2 → .fall n ∉ fs → s.pics.pending n = true →
        s'.pics.pending n = true := by
  have hv := outside_serving h hm
  clear h hm
  induction fs generalizing s with
  | nil =>
    cases h'
    exact ⟨fun n _ => rfl, fun _ _ _ _ => id⟩
  | cons e fs ih =>
    rcases machine.run_cons_cases h' with ⟨s₁, hs, hrun⟩ | ⟨x, -, -, -⟩
    · obtain ⟨hcount, hmasked⟩ := ih s₁ hrun (serving_step hv hs)
      refine ⟨fun n hn => ?_, fun n hn hn2 hfall hpend => ?_⟩
      · have hone := step_enabled hv hs hn
        have hlatched : latched n s (e :: fs) = latches n s e + latched n s₁ fs := tally_cons hs
        have hwithdrawn : withdrawn n s (e :: fs) = withdraws n s e + withdrawn n s₁ fs :=
          tally_cons hs
        have hrest := hcount n hn
        rw [hlatched, hwithdrawn]
        omega
      · exact hmasked n hn hn2 (fun hmem => hfall (List.mem_cons_of_mem e hmem))
          (step_masked hv hs hn hn2 (fun heq => hfall (heq ▸ List.mem_cons_self)) hpend)
    · exact x.elim

/-- The disk raises its line a second time before the first request is served; the key is taken
back. -/
theorem pic_conserves_disk :
    ∃ s s', machine.run (boot samplePair) sampleBoot = some (.ok s) ∧
      machine.run s sampleRun = some (.ok s') ∧
      s'.vectors.count (vector 14) + (s'.pics.pending 14).toNat = 1 ∧
      s'.vectors.count (vector 1) + (s'.pics.pending 1).toNat = 0 := by
  have htest : ((machine.run (boot samplePair) sampleBoot).any fun r => r.toOption.any fun s =>
      decide (s.mode = .code true ∧ latched 14 s sampleRun = 1 ∧ withdrawn 14 s sampleRun = 0 ∧
        latched 1 s sampleRun = 1 ∧ withdrawn 1 s sampleRun = 1 ∧
        s.vectors.count (vector 14) + (s.pics.pending 14).toNat = 0 ∧
        s.vectors.count (vector 1) + (s.pics.pending 1).toNat = 0) &&
          ((machine.run s sampleRun).any fun r => r.toOption.any fun _ => true)) = true := by
    decide +kernel
  obtain ⟨s, hrun, hs⟩ := machine.run_of_test htest
  rw [Bool.and_eq_true, decide_eq_true_eq] at hs
  obtain ⟨⟨hmode, hdisk, hdisk', hkey, hkey', hzero, hzero'⟩, htest'⟩ := hs
  obtain ⟨s', hrun', -⟩ := machine.run_of_test htest'
  have hcount := (pic_conserves samplePair sampleBoot sampleRun s s' hrun (outside_code hmode)
    hrun').1
  have hcount₁₄ := hcount 14 (Or.inr (Or.inr rfl))
  have hcount₁ := hcount 1 (Or.inr (Or.inl rfl))
  exact ⟨s, s', hrun, hrun', by omega, by omega⟩

end HcOs.Pic
