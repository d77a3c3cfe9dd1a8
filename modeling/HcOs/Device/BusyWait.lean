import Mathlib.Data.Nat.Find
import HcOs.Device.Timer
import HcOs.Device.Transfer

/-!
# Waiting for the disk (`busy_wait` of `device/ide.c`)

The status port is any sequence of bytes, one for each read.  `time_limit -= 10 >= 0` subtracts the
value of the comparison, which is 1, so the loop has ten times as many passes as it should.

* `busyWait_clear`, `busyWait_busy`: what the function does on every sequence.
* `timesOut_iff`: it keeps to its 30 s only if the disk does.
* `busyWait_refines`: `busy_wait` of `HcOs.Device.Transfer` is this one.
-/

namespace HcOs.BusyWait

open HcOs.Lib

/-- What `busy_wait` does: reads of the status port, and sleeps. -/
inductive Action where
  | inb (status : BitVec 8)
  | mtimeSleep (mSeconds : ℕ)
deriving DecidableEq

/-- `BIT_ALT_STAT_BSY`. -/
def Bsy (status : BitVec 8) : Prop := status &&& 0x80#8 ≠ 0#8

/-- `BIT_ALT_STAT_DRQ`. -/
def Drq (status : BitVec 8) : Prop := status &&& 0x8#8 ≠ 0#8

instance (status : BitVec 8) : Decidable (Bsy status) := inferInstanceAs (Decidable (_ ≠ _))

instance (status : BitVec 8) : Decidable (Drq status) := inferInstanceAs (Decidable (_ ≠ _))

/-- `time_limit -= 10 >= 0`. -/
def decrease (timeLimit : ℕ) : ℕ := (timeLimit + 2 ^ 16 - if 10 ≥ 0 then 1 else 0) % 2 ^ 16

/-- The loop of `busy_wait`, when the status port has been read `k` times. -/
def busyWaitLoop (status : ℕ → BitVec 8) : ℕ → ℕ → ℕ → Except Halt (List Action × BitVec 8)
  | 0, _, _ => .error .noReturn
  | fuel + 1, timeLimit, k =>
    let timeLimit := decrease timeLimit
    if timeLimit ≠ 0 then
      if ¬Bsy (status k) then
        .ok ([.inb (status k), .inb (status (k + 1))], status (k + 1) &&& 0x8#8)
      else do
        assert (Timer.sleepTicks 10 > 0) "mtime_sleep" "sleep_ticks > 0"
        let (actions, ret) ← busyWaitLoop status fuel timeLimit (k + 1)
        .ok (.inb (status k) :: .mtimeSleep 10 :: actions, ret)
    else .ok ([], 0#8)

/-- `busy_wait`; a `uint16_t` that goes down reaches 0 in less than `2 ^ 16` passes. -/
def busyWait (status : ℕ → BitVec 8) : Except Halt (List Action × BitVec 8) :=
  busyWaitLoop status (2 ^ 16) (30 * 1000) 0

/-- The milliseconds slept. -/
def slept : List Action → ℕ
  | [] => 0
  | .inb _ :: actions => slept actions
  | .mtimeSleep mSeconds :: actions => mSeconds + slept actions

/-- `n` polls from the read `k` on that find the disk busy. -/
def polls (status : ℕ → BitVec 8) (k : ℕ) : ℕ → List Action
  | 0 => []
  | n + 1 => .inb (status k) :: .mtimeSleep 10 :: polls status (k + 1) n

/-- What `busy_wait` is meant to do with 30 s. -/
structure TimesOut (status : ℕ → BitVec 8) (actions : List Action) (ret : BitVec 8) : Prop where
  /-- It sleeps 10 ms after each poll that finds `BSY` set, and ends with one that does not. -/
  sleeps : ∃ n, (∀ k < n, Bsy (status k)) ∧ (actions = polls status 0 n ∨
    ¬Bsy (status n) ∧ actions = polls status 0 n ++ [.inb (status n), .inb (status (n + 1))])
  limit : slept actions ≤ 30 * 1000
  ret_iff : ret ≠ 0#8 ↔ ∃ k, 10 * k ≤ 30 * 1000 ∧ (∀ j < k, Bsy (status j)) ∧ ¬Bsy (status k) ∧
    Drq (status (k + 1))

/-! ## The passes of the loop -/

variable {status : ℕ → BitVec 8} {fuel limit k n : ℕ}

theorem decrease_succ (h : limit < 2 ^ 16 - 1) : decrease (limit + 1) = limit := by
  unfold decrease
  rw [if_pos (by decide)]
  omega

/-- A poll that finds the disk busy. -/
theorem loop_busy (hlimit : limit < 2 ^ 16 - 1) (hpos : limit ≠ 0) (hbusy : Bsy (status k))
    {actions : List Action} {ret : BitVec 8}
    (h : busyWaitLoop status fuel limit (k + 1) = .ok (actions, ret)) :
    busyWaitLoop status (fuel + 1) (limit + 1) k =
      .ok (.inb (status k) :: .mtimeSleep 10 :: actions, ret) := by
  unfold busyWaitLoop
  rw [decrease_succ hlimit]
  dsimp only
  rw [if_pos hpos, if_neg (not_not_intro hbusy), assert_bind_of (by decide), h, ok_bind]

/-- Busy polls, and then whatever follows. -/
theorem loop_polls (hlimit : limit + n < 2 ^ 16 - 1) (hbusy : ∀ j < n, Bsy (status (k + j)))
    {actions : List Action} {ret : BitVec 8}
    (h : busyWaitLoop status fuel (limit + 1) (k + n) = .ok (actions, ret)) :
    busyWaitLoop status (fuel + n) (limit + n + 1) k = .ok (polls status k n ++ actions, ret) := by
  induction n generalizing k with
  | zero => exact h
  | succ n ih =>
    have hrest := @ih (k + 1) (by omega)
      (fun j hj => by rw [Nat.add_right_comm]; exact hbusy (j + 1) (by omega))
      (by rw [Nat.add_right_comm]; exact h)
    exact loop_busy (by omega) (by omega) (hbusy 0 (by omega)) hrest

/-- The disk is ready at the poll `n`. -/
theorem busyWait_clear (hn : n < 30 * 1000 - 1) (hbusy : ∀ j < n, Bsy (status j))
    (hclear : ¬Bsy (status n)) :
    busyWait status = .ok (polls status 0 n ++ [.inb (status n), .inb (status (n + 1))],
      status (n + 1) &&& 0x8#8) := by
  have hlast : busyWaitLoop status (2 ^ 16 - n) (30 * 1000 - 1 - n + 1) (0 + n) =
      .ok ([.inb (status n), .inb (status (n + 1))], status (n + 1) &&& 0x8#8) := by
    rw [show 2 ^ 16 - n = 2 ^ 16 - n - 1 + 1 by omega]
    unfold busyWaitLoop
    rw [decrease_succ (by omega), Nat.zero_add]
    dsimp only
    rw [if_pos (by omega), if_pos hclear]
  have hall := loop_polls (k := 0) (by omega) (by simpa using hbusy) hlast
  rw [show 2 ^ 16 - n + n = 2 ^ 16 by omega,
    show 30 * 1000 - 1 - n + n + 1 = 30 * 1000 by omega] at hall
  exact hall

/-- The disk is busy at all polls. -/
theorem busyWait_busy (hbusy : ∀ j < 30 * 1000 - 1, Bsy (status j)) :
    busyWait status = .ok (polls status 0 (30 * 1000 - 1), 0#8) := by
  have hlast : busyWaitLoop status (2 ^ 16 - (30 * 1000 - 1)) (0 + 1) (0 + (30 * 1000 - 1)) =
      .ok ([], 0#8) := rfl
  have hall := loop_polls (k := 0) (by decide) (by simpa using hbusy) hlast
  rw [List.append_nil] at hall
  exact hall

/-! ## The time-out -/

theorem slept_polls_append (status : ℕ → BitVec 8) (k n : ℕ) (actions : List Action) :
    slept (polls status k n ++ actions) = 10 * n + slept actions := by
  induction n generalizing k with
  | zero => rw [Nat.mul_zero, Nat.zero_add]; rfl
  | succ n ih =>
    change 10 + slept (polls status (k + 1) n ++ actions) = _
    rw [ih]
    omega

theorem slept_polls (status : ℕ → BitVec 8) (k n : ℕ) : slept (polls status k n) = 10 * n := by
  rw [← List.append_nil (polls status k n), slept_polls_append]
  rfl

/-- The sequence has a first poll that finds the disk ready, or none in time. -/
theorem first_clear (status : ℕ → BitVec 8) :
    (∃ n < 30 * 1000 - 1, (∀ j < n, Bsy (status j)) ∧ ¬Bsy (status n)) ∨
      ∀ j < 30 * 1000 - 1, Bsy (status j) := by
  by_cases h : ∃ n, n < 30 * 1000 - 1 ∧ ¬Bsy (status n)
  · refine Or.inl ⟨Nat.find h, (Nat.find_spec h).1, fun j hj => ?_, (Nat.find_spec h).2⟩
    have hmin := Nat.find_min h hj
    have hlt := (Nat.find_spec h).1
    by_contra hclear
    exact hmin ⟨by omega, hclear⟩
  · refine Or.inr fun j hj => ?_
    by_contra hclear
    exact h ⟨j, hj, hclear⟩

/-- The poll that ends the wait is the first one that finds the disk ready. -/
theorem first_unique {n m : ℕ} (hn : ∀ j < n, Bsy (status j)) (hn' : ¬Bsy (status n))
    (hm : ∀ j < m, Bsy (status j)) (hm' : ¬Bsy (status m)) : n = m := by
  rcases Nat.lt_trichotomy n m with h | h | h
  · exact absurd (hm n h) hn'
  · exact h
  · exact absurd (hn m h) hm'

/-- A disk that is ready in time. -/
theorem timesOut_clear (hn : 10 * n ≤ 30 * 1000) (hbusy : ∀ j < n, Bsy (status j))
    (hclear : ¬Bsy (status n)) :
    TimesOut status (polls status 0 n ++ [.inb (status n), .inb (status (n + 1))])
      (status (n + 1) &&& 0x8#8) where
  sleeps := ⟨n, hbusy, Or.inr ⟨hclear, rfl⟩⟩
  limit := by
    rw [slept_polls_append]
    exact hn
  ret_iff := by
    constructor
    · intro h
      exact ⟨n, hn, hbusy, hclear, h⟩
    · rintro ⟨k, -, hk, hk', hdrq⟩
      rw [first_unique hbusy hclear hk hk']
      exact hdrq

/-- A disk that is not. -/
theorem not_timesOut_of_busy (status : ℕ → BitVec 8) (hbusy : ∀ k ≤ 3000, Bsy (status k)) :
    ∃ actions ret, busyWait status = .ok (actions, ret) ∧ 30 * 1000 < slept actions := by
  rcases first_clear status with ⟨n, hn, hlt, hclear⟩ | hall
  · have hgt : 3000 < n := by
      by_contra hle
      exact hclear (hbusy n (by omega))
    refine ⟨_, _, busyWait_clear hn hlt hclear, ?_⟩
    rw [slept_polls_append]
    omega
  · refine ⟨_, _, busyWait_busy hall, ?_⟩
    rw [slept_polls]
    decide

/-- **`busy_wait`.**  It returns for every sequence of status bytes, and it does what it is meant to
do if and only if the disk is ready at one of the polls that 30 s have room for; otherwise it waits
up to 299990 ms. -/
theorem timesOut_iff (status : ℕ → BitVec 8) :
    (∃ actions ret, busyWait status = .ok (actions, ret) ∧ TimesOut status actions ret) ↔
      ∃ k ≤ 3000, ¬Bsy (status k) := by
  constructor
  · rintro ⟨actions, ret, hok, h⟩
    by_contra hbusy
    obtain ⟨actions', ret', hok', hslept⟩ := not_timesOut_of_busy status
      fun k hk => by_contra fun hclear => hbusy ⟨k, hk, hclear⟩
    rw [hok] at hok'
    cases hok'
    exact absurd h.limit (Nat.not_le.mpr hslept)
  · rintro ⟨k, hk, hclear⟩
    rcases first_clear status with ⟨n, hn, hlt, hclear'⟩ | hall
    · have hnk : n ≤ k := by
        by_contra hgt
        exact hclear (hlt k (by omega))
      exact ⟨_, _, busyWait_clear hn hlt hclear', timesOut_clear (by omega) hlt hclear'⟩
    · exact absurd (hall k (by omega)) hclear

/-- A disk that stays busy. -/
theorem not_timesOut_busy : ¬∃ actions ret, busyWait (fun _ => 0x80#8) = .ok (actions, ret) ∧
    TimesOut (fun _ => 0x80#8) actions ret := by
  rintro ⟨actions, ret, hok, h⟩
  obtain ⟨actions', ret', hok', hslept⟩ := not_timesOut_of_busy (fun _ => 0x80#8)
    fun _ _ => by decide
  rw [hok] at hok'
  cases hok'
  exact absurd h.limit (Nat.not_le.mpr hslept)

/-! ## The controller -/

/-- The status bytes of the controller of a channel. -/
def statuses (c : Ata.Channel) (k : ℕ) : BitVec 8 := (Ata.inStatus { c with busy := c.busy - k }).1

theorem statuses_succ (c : Ata.Channel) :
    statuses (Ata.inStatus c).2 = fun k => statuses c (k + 1) := by
  funext k
  have hsub : c.busy - 1 - k = c.busy - (k + 1) := by omega
  unfold statuses Ata.inStatus
  dsimp only
  rw [hsub]

theorem loop_refines (c : Ata.Channel) (hlimit : limit < 2 ^ 16 - 1) (hfuel : limit < fuel)
    (hstatus : ∀ j, status (k + j) = statuses c j) :
    ∃ actions ret, busyWaitLoop status fuel (limit + 1) k = .ok (actions, ret) ∧
      (Ata.busyWaitLoop limit c).1 = decide (ret ≠ 0#8) := by
  induction limit generalizing fuel k c with
  | zero =>
    obtain ⟨fuel, rfl⟩ := Nat.exists_eq_succ_of_ne_zero (Nat.ne_of_gt hfuel)
    exact ⟨[], 0#8, rfl, rfl⟩
  | succ limit ih =>
    obtain ⟨fuel, rfl⟩ := Nat.exists_eq_succ_of_ne_zero (Nat.ne_of_gt (Nat.zero_lt_of_lt hfuel))
    have h0 : status k = (Ata.inStatus c).1 := hstatus 0
    have h1 : status (k + 1) = (Ata.inStatus (Ata.inStatus c).2).1 := by
      rw [hstatus 1]
      rfl
    by_cases hbusy : Bsy (status k)
    · obtain ⟨actions, ret, hok, hret⟩ := @ih fuel (k + 1) (Ata.inStatus c).2 (by omega) (by omega)
        (fun j => by rw [statuses_succ, Nat.add_assoc, Nat.add_comm 1 j]; exact hstatus (j + 1))
      refine ⟨_, ret, loop_busy (by omega) (by omega) hbusy hok, ?_⟩
      rw [Ata.busyWaitLoop, ← hret]
      dsimp only
      rw [← h0, if_neg hbusy]
    · refine ⟨[.inb (status k), .inb (status (k + 1))], status (k + 1) &&& 0x8#8, ?_, ?_⟩
      · unfold busyWaitLoop
        rw [decrease_succ hlimit]
        dsimp only
        rw [if_pos (by omega), if_pos hbusy]
      · rw [Ata.busyWaitLoop]
        dsimp only
        rw [← h0, if_pos (not_not.mp hbusy), ← h1]

/-- `busy_wait` of `Transfer` is this one, with the status bytes of its controller. -/
theorem busyWait_refines (c : Ata.Channel) :
    ∃ actions ret, busyWait (statuses c) = .ok (actions, ret) ∧
      (Ata.busyWait c).1 = decide (ret ≠ 0#8) :=
  loop_refines c (by decide) (by decide) fun j => by rw [Nat.zero_add]

end HcOs.BusyWait
