import HcOs.Thread.ScheduleInv

/-!
# The timer (`device/timer.c`)

Counter 0 of the timer chip counts the input clock down from the value that `frequency_set` has
written, and raises IRQ0 each time it is through; every IRQ0 is one call of `intr_timer_handler`.  A
thread is in `mtime_sleep`; the scheduler is that of `HcOs.Thread.Schedule`, and between any two
steps of the sleeper the clock goes on and the other threads make steps of their own.

The high byte of the value is lost, since the cast in `(uint8_t)counter_value >> 8` is made before
the shift: an interrupt comes every 155 clocks, not every 11931.

* `clocks_of_back`: what `mtime_sleep` waits for, in periods of the counter.
* `sleepsEnough_iff`: it waits long enough only for what one period is enough for.
-/

namespace HcOs.Sched

/-! ## Who counts the ticks -/

variable {T S : Type} [DecidableEq T] [DecidableEq S] {s s' : State T S} {t : T} {k : S}

theorem threadUnblock_ticks (h : threadUnblock s t = .ok s') : s'.ticks = s.ticks := by
  unfold threadUnblock at h
  obtain ⟨-, h⟩ := assert_bind_eq_ok.mp h
  split at h
  · obtain ⟨found, -, h⟩ := bind_eq_ok.mp h
    obtain ⟨-, h⟩ := assert_bind_eq_ok.mp h
    obtain ⟨found, -, h⟩ := bind_eq_ok.mp h
    split at h
    · cases h
    · obtain ⟨links, -, h⟩ := bind_eq_ok.mp h
      cases h
      rfl
  · cases h
    rfl

theorem takeNext_ticks (h : takeNext s = .ok s') : s'.ticks = s.ticks := by
  obtain ⟨⟨links, tag⟩, -, h⟩ := bind_eq_ok.mp h
  obtain ⟨next, -, h⟩ := bind_eq_ok.mp h
  cases h
  rfl

theorem schedule_ticks (h : schedule s = .ok s') : s'.ticks = s.ticks := by
  obtain ⟨s₁, h₁, h⟩ := bind_eq_ok.mp h
  obtain ⟨empty, -, h⟩ := bind_eq_ok.mp h
  have hreq : s₁.ticks = s.ticks := by
    unfold requeue at h₁
    split at h₁
    · obtain ⟨found, -, h₁⟩ := bind_eq_ok.mp h₁
      obtain ⟨-, h₁⟩ := assert_bind_eq_ok.mp h₁
      obtain ⟨links, -, h₁⟩ := bind_eq_ok.mp h₁
      cases h₁
      rfl
    · cases h₁
      rfl
  rw [← hreq]
  split at h
  · obtain ⟨s₂, h₂, h⟩ := bind_eq_ok.mp h
    rw [← threadUnblock_ticks h₂]
    exact takeNext_ticks h
  · exact takeNext_ticks h

theorem threadBlock_ticks {stat : TaskStatus} (h : threadBlock s stat = .ok s') :
    s'.ticks = s.ticks := by
  obtain ⟨-, h⟩ := assert_bind_eq_ok.mp h
  have hticks := schedule_ticks h
  exact hticks

theorem threadYield_ticks (h : threadYield s = .ok s') : s'.ticks = s.ticks := by
  obtain ⟨found, -, h⟩ := bind_eq_ok.mp h
  obtain ⟨-, h⟩ := assert_bind_eq_ok.mp h
  obtain ⟨links, -, h⟩ := bind_eq_ok.mp h
  have hticks := schedule_ticks h
  exact hticks

theorem enlistReady_ticks {func : String} (h : enlistReady s t func = .ok s') :
    s'.ticks = s.ticks := by
  obtain ⟨found, -, h⟩ := bind_eq_ok.mp h
  obtain ⟨-, h⟩ := assert_bind_eq_ok.mp h
  obtain ⟨links, -, h⟩ := bind_eq_ok.mp h
  cases h
  rfl

theorem enlistAll_ticks {func tag : String} (h : enlistAll s t func tag = .ok s') :
    s'.ticks = s.ticks := by
  obtain ⟨found, -, h⟩ := bind_eq_ok.mp h
  obtain ⟨-, h⟩ := assert_bind_eq_ok.mp h
  obtain ⟨links, -, h⟩ := bind_eq_ok.mp h
  cases h
  rfl

theorem semaDown_ticks (h : semaDown s k = .ok s') : s'.ticks = s.ticks := by
  unfold semaDown at h
  split at h
  · obtain ⟨found, -, h⟩ := bind_eq_ok.mp h
    obtain ⟨-, h⟩ := assert_bind_eq_ok.mp h
    obtain ⟨found, -, h⟩ := bind_eq_ok.mp h
    split at h
    · cases h
    · obtain ⟨links, -, h⟩ := bind_eq_ok.mp h
      have hticks := threadBlock_ticks h
      exact hticks
  · obtain ⟨-, h⟩ := assert_bind_eq_ok.mp h
    cases h
    rfl

theorem semaUp_ticks (h : semaUp s k = .ok s') : s'.ticks = s.ticks := by
  obtain ⟨-, h⟩ := assert_bind_eq_ok.mp h
  obtain ⟨empty, -, h⟩ := bind_eq_ok.mp h
  obtain ⟨s₁, h₁, h⟩ := bind_eq_ok.mp h
  obtain ⟨-, h⟩ := assert_bind_eq_ok.mp h
  cases h
  split at h₁
  · obtain ⟨⟨links, elem⟩, -, h₁⟩ := bind_eq_ok.mp h₁
    obtain ⟨blocked, -, h₁⟩ := bind_eq_ok.mp h₁
    have hticks := threadUnblock_ticks h₁
    exact hticks
  · cases h₁
    rfl

def Event.isTimer : Event T S → Bool
  | .timer => true
  | _ => false

/-- Only `intr_timer_handler` counts the ticks. -/
theorem exec_ticks {e : Event T S} (he : e.isTimer = false) (h : exec s e = .ok s') :
    s'.ticks = s.ticks := by
  cases e with
  | start u prio =>
    obtain ⟨s₁, h₁, h⟩ := bind_eq_ok.mp h
    obtain ⟨found, -, h⟩ := bind_eq_ok.mp h
    obtain ⟨-, h⟩ := assert_bind_eq_ok.mp h
    have hready := enlistReady_ticks h₁
    exact (enlistAll_ticks h).trans hready
  | execute u =>
    obtain ⟨s₁, h₁, h⟩ := bind_eq_ok.mp h
    have hready := enlistReady_ticks h₁
    exact (enlistAll_ticks h).trans hready
  | timer => cases he
  | block stat => exact threadBlock_ticks h
  | unblock u => exact threadUnblock_ticks h
  | yield => exact threadYield_ticks h
  | down k => exact semaDown_ticks h
  | up k => exact semaUp_ticks h
  | resume =>
    unfold exec at h
    dsimp only at h
    split at h
    · exact semaDown_ticks h
    · cases h
      rfl

theorem intrTimerHandler_ticks (h : intrTimerHandler s = .ok s') :
    s'.ticks = (s.ticks + 1) % 2 ^ 32 := by
  obtain ⟨-, h⟩ := assert_bind_eq_ok.mp h
  dsimp only at h
  split at h
  · have hticks := schedule_ticks h
    exact hticks
  · cases h
    rfl

end HcOs.Sched

namespace HcOs.Timer

open HcOs.Lib HcOs.Sched

/-! ## The counter -/

def irq0Frequency : ℕ := 100

def inputFrequency : ℕ := 1193180

def counter0Value : ℕ := inputFrequency / irq0Frequency

def counter0Port : ℕ := 0x40

def counter0No : ℕ := 0

def counter0Mode : ℕ := 2

def readWriteLatch : ℕ := 3

def pitControlPort : ℕ := 0x43

def milSecondsPerIntr : ℕ := 1000 / irq0Frequency

/-- `frequency_set`, by the ports it writes to and the bytes. -/
def frequencySet (counterPort counterNo rwl counterMode counterValue : ℕ) : List (ℕ × BitVec 8) :=
  [(pitControlPort, BitVec.ofNat 8 (counterNo <<< 6 ||| rwl <<< 4 ||| counterMode <<< 1)),
    (counterPort, BitVec.ofNat 8 counterValue),
    -- `(uint8_t)counter_value >> 8`
    (counterPort, BitVec.ofNat 8 ((BitVec.ofNat 8 counterValue).toNat >>> 8))]

/-- `timer_init`, as far as the chip is concerned. -/
def timerInit : List (ℕ × BitVec 8) :=
  frequencySet counter0Port counter0No readWriteLatch counter0Mode counter0Value

/-- What counter 0 counts from: the low byte, then the high byte; 0 is 65536. -/
def reload (outs : List (ℕ × BitVec 8)) : ℕ :=
  let bytes := (outs.filter fun out => out.1 = counter0Port).map fun out => out.2.toNat
  let value := bytes.getD 0 0 + 2 ^ 8 * bytes.getD 1 0
  if value = 0 then 65536 else value

/-- The clocks from one IRQ0 to the next. -/
def period : ℕ := reload timerInit

theorem period_eq : period = 155 := by decide

/-! ## `mtime_sleep` -/

/-- `DIV_ROUND_UP(m_seconds, mil_seconds_per_intr)`. -/
def sleepTicks (mSeconds : ℕ) : ℕ :=
  (mSeconds + milSecondsPerIntr - 1) % 2 ^ 32 / milSecondsPerIntr

/-- Where the sleeper is. -/
inductive Pc where
  /-- At the call of `mtime_sleep`. -/
  | call
  /-- At the test of the loop of `ticks_to_sleep`. -/
  | loop (startTick : ℕ)
  /-- At the call of `thread_yield`. -/
  | yield (startTick : ℕ)
  | back
deriving DecidableEq

variable {T S : Type}

structure State (T S : Type) where
  sched : Sched.State T S
  pc : Pc
  /-- The clocks since the last IRQ0. -/
  count : ℕ
  /-- The clocks since the call. -/
  clocks : ℕ

inductive Event (T S : Type) where
  /-- A clock, and IRQ0 if the counter is through. -/
  | clock
  /-- The sleeper makes its next step. -/
  | go
  /-- Any other thread, or another interrupt. -/
  | other (e : Sched.Event T S)

variable [DecidableEq T] [DecidableEq S]

def clock (s : State T S) : Option (Except Halt (State T S)) :=
  if s.count + 1 < period then
    some (.ok { s with count := s.count + 1, clocks := s.clocks + 1 })
  else if Enabled s.sched .timer then some (do
    let sched ← intrTimerHandler s.sched
    .ok { s with sched, count := 0, clocks := s.clocks + 1 })
  else none

/-- `mtime_sleep` and `ticks_to_sleep`; after `thread_yield` the sleeper goes on at the test when it
has the CPU again. -/
def go (mSeconds : ℕ) (s : State T S) : Option (Except Halt (State T S)) :=
  match s.pc with
  | .call => some (do
      assert (sleepTicks mSeconds > 0) "mtime_sleep" "sleep_ticks > 0"
      .ok { s with pc := .loop s.sched.ticks })
  | .loop startTick => some (.ok { s with
      pc := if (s.sched.ticks + 2 ^ 32 - startTick) % 2 ^ 32 < sleepTicks mSeconds then
        .yield startTick else .back })
  | .yield startTick => some (do
      let sched ← threadYield s.sched
      .ok { s with sched, pc := .loop startTick })
  | .back => none

/-- The steps that are neither IRQ0 nor the sleeper's. -/
def IsOther (s : Sched.State T S) (me : T) (e : Sched.Event T S) : Prop :=
  e.isTimer = false ∧ (s.cur = me → e.byThread = false)

instance (s : Sched.State T S) (me : T) (e : Sched.Event T S) : Decidable (IsOther s me e) :=
  inferInstanceAs (Decidable (_ ∧ (_ → _)))

def machine (me : T) (mSeconds : ℕ) : Machine (State T S) (Event T S) Halt where
  step s
    | .clock => clock s
    | .go => if s.sched.cur = me ∧ s.sched.pc me = .normal then go mSeconds s else none
    | .other e =>
      if IsOther s.sched me e ∧ Enabled s.sched e then some (do
        let sched ← exec s.sched e
        .ok { s with sched })
      else none

/-- The scheduler has come to the state `s` some time after `thread_init`, whatever the number of
ticks. -/
def Reached (s : Sched.State T S) : Prop :=
  ∃ main idle, main ≠ idle ∧ ∃ v task s₀ es s₁, threadInit (boot main v task) idle = .ok s₀ ∧
    (Sched.machine T S).run s₀ es = some (.ok s₁) ∧ s = { s₁ with ticks := s.ticks } ∧
    s.ticks < 2 ^ 32

/-- `mtime_sleep` returns only after the time that its argument stands for, with a counter that
counts from `COUNTER0_VALUE`; less the period that was under way at the call. -/
def SleepsEnough (mSeconds : ℕ) : Prop :=
  ∀ (T S : Type) [DecidableEq T] [DecidableEq S] (s : Sched.State T S) (count : ℕ)
    (es : List (Event T S)) (s' : State T S), Reached s → count < period →
    (machine s.cur mSeconds).run ⟨s, .call, count, 0⟩ es = some (.ok s') → s'.pc = .back →
    ((mSeconds + 9) / 10 - 1) * counter0Value ≤ s'.clocks

/-! ## The clocks of a sleep -/

section Clocks

variable {me : T} {mSeconds count₀ irqs : ℕ} {s₀ : Sched.State T S} {s s' : State T S}

/-- What the sleeper has read, and has waited for, when IRQ0 has come `irqs` times. -/
def Seen (mSeconds ticks₀ irqs : ℕ) : Pc → Prop
  | .call => True
  | .loop startTick | .yield startTick => ∃ k ≤ irqs, startTick = (ticks₀ + k) % 2 ^ 32
  | .back => sleepTicks mSeconds ≤ irqs

omit [DecidableEq T] [DecidableEq S] in
theorem Seen.succ {ticks₀ : ℕ} {pc : Pc} (h : Seen mSeconds ticks₀ irqs pc) :
    Seen mSeconds ticks₀ (irqs + 1) pc := by
  cases pc with
  | call => trivial
  | loop startTick | yield startTick =>
    obtain ⟨k, hk, hstart⟩ := h
    exact ⟨k, Nat.le_succ_of_le hk, hstart⟩
  | back => exact Nat.le_succ_of_le h

/-- The ticks count the interrupts, and the interrupts count the clocks. -/
structure Inv (mSeconds count₀ : ℕ) (s₀ : Sched.State T S) (s : State T S) (irqs : ℕ) : Prop where
  ticks : s.sched.ticks = (s₀.ticks + irqs) % 2 ^ 32
  clocks : count₀ + s.clocks = irqs * period + s.count
  count : s.count < period
  seen : Seen mSeconds s₀.ticks irqs s.pc

theorem clock_inv (h : Inv mSeconds count₀ s₀ s irqs) (hs : clock s = some (.ok s')) :
    ∃ irqs', Inv mSeconds count₀ s₀ s' irqs' := by
  have hclocks := h.clocks
  unfold clock at hs
  split at hs
  · next hlt =>
    cases hs
    exact ⟨irqs, h.ticks, by dsimp only; omega, hlt, h.seen⟩
  · next hge =>
    split at hs
    · obtain ⟨sched, hok, hs⟩ := bind_eq_ok.mp (Option.some.inj hs)
      cases hs
      have hcount := h.count
      refine ⟨irqs + 1, ?_, ?_, show 0 < period by decide, h.seen.succ⟩
      · rw [intrTimerHandler_ticks hok, h.ticks]
        omega
      · dsimp only
        rw [Nat.add_mul]
        omega
    · cases hs

theorem go_inv (h : Inv mSeconds count₀ s₀ s irqs) (hs : go mSeconds s = some (.ok s')) :
    Inv mSeconds count₀ s₀ s' irqs := by
  have hseen := h.seen
  unfold go at hs
  split at hs
  · obtain ⟨-, hs⟩ := assert_bind_eq_ok.mp (Option.some.inj hs)
    cases hs
    exact ⟨h.ticks, h.clocks, h.count, irqs, Nat.le_refl _, h.ticks⟩
  · next startTick hpc =>
    rw [hpc] at hseen
    cases hs
    refine ⟨h.ticks, h.clocks, h.count, ?_⟩
    dsimp only
    split
    · exact hseen
    · next hge =>
      -- the difference is taken modulo `2 ^ 32`: it can be too small, never too large
      obtain ⟨k, hk, hstart⟩ := hseen
      rw [h.ticks, hstart] at hge
      change sleepTicks mSeconds ≤ irqs
      omega
  · next startTick hpc =>
    rw [hpc] at hseen
    obtain ⟨sched, hok, hs⟩ := bind_eq_ok.mp (Option.some.inj hs)
    cases hs
    exact ⟨(threadYield_ticks hok).trans h.ticks, h.clocks, h.count, hseen⟩
  · cases hs

theorem step_inv (h : Inv mSeconds count₀ s₀ s irqs) {e : Event T S}
    (hs : (machine me mSeconds).step s e = some (.ok s')) :
    ∃ irqs', Inv mSeconds count₀ s₀ s' irqs' := by
  cases e with
  | clock => exact clock_inv h hs
  | go =>
    simp only [machine] at hs
    split at hs
    · exact ⟨irqs, go_inv h hs⟩
    · cases hs
  | other e =>
    simp only [machine] at hs
    split at hs
    · next he =>
      obtain ⟨sched, hok, hs⟩ := bind_eq_ok.mp (Option.some.inj hs)
      cases hs
      exact ⟨irqs, (exec_ticks he.1.1 hok).trans h.ticks, h.clocks, h.count, h.seen⟩
    · cases hs

/-- When `mtime_sleep` has returned, the counter has been through often enough. -/
theorem clocks_of_back (hticks : s₀.ticks < 2 ^ 32) (hcount : count₀ < period)
    {es : List (Event T S)}
    (hrun : (machine me mSeconds).run ⟨s₀, .call, count₀, 0⟩ es = some (.ok s'))
    (hback : s'.pc = .back) : (sleepTicks mSeconds - 1) * period ≤ s'.clocks := by
  have hinit : Inv mSeconds count₀ s₀ ⟨s₀, .call, count₀, 0⟩ 0 :=
    ⟨(Nat.mod_eq_of_lt hticks).symm, by simp, hcount, trivial⟩
  obtain ⟨irqs, h⟩ := Machine.run_ok (I := fun s => ∃ irqs, Inv mSeconds count₀ s₀ s irqs)
    (fun s e s' ⟨irqs, h⟩ hs => step_inv h hs) ⟨0, hinit⟩ hrun
  have hseen := h.seen
  have hclocks := h.clocks
  rw [hback] at hseen
  change sleepTicks mSeconds ≤ irqs at hseen
  rw [period_eq] at hclocks hcount ⊢
  omega

end Clocks

/-! ## A sleeper that no other thread disturbs -/

section Alone

/-- The current thread is in its own code and no other thread is ready. -/
def Alone (s : Sched.State T S) : Prop :=
  s.pc s.cur = .normal ∧ ∃ waiters, Core (some s.cur) s [] waiters

/-- The clocks up to the last one before IRQ0. -/
theorem run_count (me : T) (mSeconds : ℕ) {s : State T S} (j : ℕ) (h : s.count + j < period) :
    (machine me mSeconds).run s (List.replicate j .clock) =
      some (.ok { s with count := s.count + j, clocks := s.clocks + j }) := by
  induction j generalizing s with
  | zero => rfl
  | succ j ih =>
    have hstep : (machine me mSeconds).step s .clock =
        some (.ok { s with count := s.count + 1, clocks := s.clocks + 1 }) := if_pos (by omega)
    rw [List.replicate_succ, Machine.run_cons_ok _ hstep, ih (by dsimp only; omega)]
    simp only [Nat.add_assoc, Nat.add_comm j 1]

/-- A period of the counter: `intr_timer_handler` leaves the CPU to the only ready thread. -/
theorem run_period (me : T) (mSeconds : ℕ) {sched : Sched.State T S} (h : Alone sched) (pc : Pc)
    (clocks : ℕ) :
    ∃ sched', Alone sched' ∧ sched'.cur = sched.cur ∧ sched'.ticks = (sched.ticks + 1) % 2 ^ 32 ∧
      (machine me mSeconds).run ⟨sched, pc, 0, clocks⟩ (List.replicate period .clock) =
        some (.ok ⟨sched', pc, 0, clocks + period⟩) := by
  obtain ⟨hpc, waiters, hc⟩ := h
  obtain ⟨sched', ready, hok, hl, hc', hsame⟩ := intrTimerHandler_core hc.on
  obtain ⟨hcur, rfl⟩ := hsame (Or.inr rfl)
  have hperiod : period = 154 + 1 := period_eq
  have htimer : Enabled sched .timer := by
    unfold Enabled
    rw [hpc]
    exact ⟨fun _ hby => (nomatch hby), trivial⟩
  have hstep : (machine me mSeconds).step ⟨sched, pc, 154, clocks + 154⟩ .clock =
      some (.ok ⟨sched', pc, 0, clocks + 155⟩) := by
    simp only [machine, clock, hperiod, Nat.lt_irrefl, if_false, if_pos htimer, hok, ok_bind]
  refine ⟨sched', ⟨?_, waiters, ?_⟩, hcur, intrTimerHandler_ticks hok, ?_⟩
  · rw [hl.pc, hcur]
    exact hpc
  · rw [← hl.threads] at hc'
    exact hc'.core
  · have hcount := run_count me mSeconds (s := ⟨sched, pc, 0, clocks⟩) 154
      (show 0 + 154 < period by decide)
    dsimp only at hcount
    rw [Nat.zero_add] at hcount
    rw [hperiod, List.replicate_succ', Machine.run_append _ hcount, Machine.run_cons_ok _ hstep]
    rfl

theorem run_periods (me : T) (mSeconds n : ℕ) {sched : Sched.State T S} (h : Alone sched)
    (hticks : sched.ticks < 2 ^ 32) (pc : Pc) (clocks : ℕ) :
    ∃ sched', Alone sched' ∧ sched'.cur = sched.cur ∧ sched'.ticks = (sched.ticks + n) % 2 ^ 32 ∧
      (machine me mSeconds).run ⟨sched, pc, 0, clocks⟩ (List.replicate (n * period) .clock) =
        some (.ok ⟨sched', pc, 0, clocks + n * period⟩) := by
  induction n generalizing sched clocks with
  | zero =>
    refine ⟨sched, h, rfl, (Nat.mod_eq_of_lt hticks).symm, ?_⟩
    rw [Nat.zero_mul]
    rfl
  | succ n ih =>
    obtain ⟨sched₁, halone, hcur, ht, hrun⟩ := run_period me mSeconds h pc clocks
    obtain ⟨sched', halone', hcur', ht', hrun'⟩ := ih halone
      (by rw [ht]; exact Nat.mod_lt _ (by decide)) (clocks + period)
    refine ⟨sched', halone', hcur'.trans hcur, ?_, ?_⟩
    · rw [ht', ht]
      omega
    · rw [Nat.add_mul, Nat.one_mul, Nat.add_comm (n * period), List.replicate_add,
        Machine.run_append _ hrun, hrun', Nat.add_assoc]

/-- A sleep that is over after as many periods as there are ticks to wait for. -/
theorem run_sleep (mSeconds : ℕ) {sched : Sched.State T S} (h : Alone sched)
    (hticks : sched.ticks < 2 ^ 32) (hpos : 0 < sleepTicks mSeconds)
    (hlt : sleepTicks mSeconds < 2 ^ 32) :
    ∃ es s', (machine sched.cur mSeconds).run ⟨sched, .call, 0, 0⟩ es = some (.ok s') ∧
      s'.pc = .back ∧ s'.clocks = sleepTicks mSeconds * period := by
  have hcall : (machine sched.cur mSeconds).step ⟨sched, .call, 0, 0⟩ .go =
      some (.ok ⟨sched, .loop sched.ticks, 0, 0⟩) := by
    simp only [machine, h.1, and_self, if_true, go, assert_bind_of hpos]
  obtain ⟨sched', halone, hcur, ht, hrun⟩ := run_periods sched.cur mSeconds (sleepTicks mSeconds) h
    hticks (.loop sched.ticks) 0
  have hdone : ¬(sched'.ticks + 2 ^ 32 - sched.ticks) % 2 ^ 32 < sleepTicks mSeconds := by
    rw [ht]
    omega
  have hback : (machine sched.cur mSeconds).step
      ⟨sched', .loop sched.ticks, 0, 0 + sleepTicks mSeconds * period⟩ .go =
      some (.ok ⟨sched', .back, 0, 0 + sleepTicks mSeconds * period⟩) := by
    simp only [machine, ← hcur, halone.1, and_self, if_true, go, if_neg hdone]
  refine ⟨.go :: (List.replicate (sleepTicks mSeconds * period) .clock ++ [.go]),
    ⟨sched', .back, 0, 0 + sleepTicks mSeconds * period⟩, ?_, rfl, Nat.zero_add _⟩
  rw [Machine.run_cons_ok _ hcall, Machine.run_append _ hrun, Machine.run_cons_ok _ hback]
  rfl

end Alone

/-! ## Main result -/

theorem sleepTicks_eq {mSeconds : ℕ} (h : mSeconds + 9 < 2 ^ 32) :
    sleepTicks mSeconds = (mSeconds + 9) / 10 := by
  have hten : milSecondsPerIntr = 10 := rfl
  rw [sleepTicks, hten, show mSeconds + 10 - 1 = mSeconds + 9 by omega, Nat.mod_eq_of_lt h]

/-- The main thread 0 has let the idle thread 1 block itself, and has the CPU back. -/
theorem exists_alone : ∃ s : Sched.State (Fin 2) Unit, Reached s ∧ Alone s ∧ s.ticks < 2 ^ 32 := by
  obtain ⟨s₀, hinit, hcur, hval, hc₀⟩ := threadInit_core (show (0 : Fin 2) ≠ 1 by decide)
    (fun _ : Unit => 1) fun _ => ⟨.died, 0, 0, 0, 0⟩
  have htest : ((threadInit (boot (0 : Fin 2) (fun _ : Unit => 1)
      fun _ => ⟨.died, 0, 0, 0, 0⟩) 1).toOption.any fun s₀ =>
        ((Sched.machine (Fin 2) Unit).run s₀ [.yield, .block .blocked]).any fun r =>
          r.toOption.any fun s => decide (s.cur = 0 ∧ s.pc 0 = .normal ∧ s.ticks = 0 ∧
            ∀ t, (s.task t).status ≠ .ready)) = true := by
    decide +kernel
  rw [hinit] at htest
  obtain ⟨s, hrun, hs⟩ := (Sched.machine (Fin 2) Unit).run_of_test htest
  obtain ⟨hcur', hpc, hticks, hready⟩ := of_decide_eq_true hs
  have hlt : s.ticks < 2 ^ 32 := by
    rw [hticks]
    decide
  refine ⟨s, ⟨0, 1, by decide, _, _, s₀, _, s, hinit, hrun, rfl, hlt⟩, ⟨?_, ?_⟩, hlt⟩
  · rw [hcur']
    exact hpc
  · have hinv₀ : Sched.Inv (fun _ => 1) s₀ :=
      ⟨⟨_, _, hcur ▸ hc₀⟩, by rw [hval]; exact fun _ h => h⟩
    rcases run_inv hinv₀ hrun with ⟨s', hs', ⟨ready, waiters, hc⟩, -⟩ | ⟨x, hx, -⟩
    · cases hs'
      have hempty : ready = [] := by
        refine List.eq_nil_iff_forall_not_mem.mpr fun t ht => ?_
        exact hready t ((hc.mem_ready t).mp ht).2
      rw [hempty] at hc
      exact ⟨waiters, hc⟩
    · cases hx

/-- More than 10 ms are over too soon when no other thread is ready. -/
theorem not_sleepsEnough {mSeconds : ℕ} (hgt : 10 < mSeconds) (hlt : mSeconds + 9 < 2 ^ 32) :
    ¬SleepsEnough mSeconds := by
  intro h
  have hticks := sleepTicks_eq hlt
  obtain ⟨sched, hreached, halone, hsched⟩ := exists_alone
  obtain ⟨es, s', hrun, hback, hclocks⟩ := run_sleep mSeconds halone hsched
    (by omega) (by omega)
  have hlong := h (Fin 2) Unit sched 0 es s' hreached (by decide) hrun hback
  rw [hclocks, hticks, period_eq, show counter0Value = 11931 from rfl] at hlong
  omega

/-- **`mtime_sleep`.**  With the counter as `timer_init` programs it, whatever the ticks are at the
call, whatever the other threads do and wherever the interrupts come, the time that has passed is
long enough if and only if one period of the counter is enough. -/
theorem sleepsEnough_iff (mSeconds : ℕ) (hlt : mSeconds + 9 < 2 ^ 32) :
    SleepsEnough mSeconds ↔ mSeconds ≤ 10 := by
  constructor
  · intro h
    by_contra hgt
    exact not_sleepsEnough (by omega) hlt h
  · intro h T S _ _ s count es s' hreached hcount hrun hback
    rw [show (mSeconds + 9) / 10 - 1 = 0 by omega, Nat.zero_mul]
    exact Nat.zero_le _

/-- A sleep of 10 ms, as in `busy_wait`, and the next one. -/
theorem sleepsEnough_iff_ten : SleepsEnough 10 ∧ ¬SleepsEnough 11 :=
  ⟨(sleepsEnough_iff 10 (by decide)).mpr (by decide),
    fun h => absurd ((sleepsEnough_iff 11 (by decide)).mp h) (by decide)⟩

/-- 20 ms are over after 310 clocks, not 11931. -/
theorem not_sleepsEnough_20 : ¬SleepsEnough 20 := not_sleepsEnough (by decide) (by decide)

end HcOs.Timer
