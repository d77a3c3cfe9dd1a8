import HcOs.Stdio.PutInt
import HcOs.Thread.Locked

/-!
# The console under its lock (`device/console.c`)

`console_put_str`, `console_put_char` and `console_put_int`, called by any number of threads that are
preempted anywhere, also between two instructions of `put_char`.  The keyboard handler calls
`put_char` as well, without the lock.

* `console_serial`: as long as no key that is echoed is pressed while a thread is between the two
  calls of the lock, the screen shows the outputs whole and one after the other.
* `echo_overwritten`: a key in the middle of a `put_char` is lost from the screen.
-/

namespace HcOs.ConsoleLock

open HcOs.Lib
open HcOs.Console
open HcOs.Locked (Event Quiet)

/-- The outputs, by what they are given; a string does not change while it is printed. -/
inductive Output where
  | putStr (str : List (BitVec 8))
  | putChar (charAsci : BitVec 8)
  | putInt (num : BitVec 32)
  /-- The `put_char` of the keyboard handler. -/
  | echo (curChar : BitVec 8)

/-- The characters that come to `put_char`. -/
def Output.chars : Output → List (BitVec 8)
  | putStr str => str
  | putChar charAsci => [charAsci]
  | putInt num => Stdio.numText 16 num.toNat
  | echo curChar => [curChar]

/-- An output between the two calls of the lock; `pieces` is `put_char`. -/
def outputCode (pieces : BitVec 8 → Code State Halt) (op : Output) : Code State Halt :=
  Code.each pieces op.chars

/-! ## The routines of `print.S` -/

section Run

variable {pieces : BitVec 8 → Code State Halt}

theorem run_outputCode (hp : ∀ cl s, (pieces cl).run s = s.putChar cl) (op : Output) (s : State) :
    (outputCode pieces op).run s = s.putChars op.chars := by
  have hstep : (fun d cl => (pieces cl).run d) = State.putChar := by
    funext s cl
    exact hp cl s
  rw [outputCode, Code.run_each, hstep, Stdio.foldlM_putChar]

/-- `put_str`. -/
theorem run_putStr (hp : ∀ cl s, (pieces cl).run s = s.putChar cl) {s : State} {a : ℕ}
    {l : List (BitVec 8)} (hs : s.cursor.toNat < 2000) (hlen : l.length < 2 ^ 32)
    (hl : s.mem.IsStr a l) (haway : ∀ i ≤ l.length, ¬OnVideo (a + i)) :
    (outputCode pieces (.putStr l)).run s = s.putStr a :=
  (run_outputCode hp _ s).trans (putStrLoop_eq hs hlen hl haway).symm

/-- `put_int`. -/
theorem run_putInt (hp : ∀ cl s, (pieces cl).run s = s.putChar cl) (buf : Bytes) (s : State)
    (num : BitVec 32) :
    (outputCode pieces (.putInt num)).run s = Stdio.putInt State.putChar buf s num := by
  rw [run_outputCode hp, Stdio.putInt_eq, Stdio.foldlM_putChar]
  rfl

end Run

/-! ## The pieces of `put_char` -/

/-- A piece that goes on with the next ones. -/
def andThen (act : State → Except Halt State) (c : Code State Halt) : Code State Halt :=
  .piece act fun _ => c

/-- `.set_cursor`: the two halves. -/
def setCursorPieces (bx : BitVec 16) : Code State Halt :=
  andThen (fun s => .ok { s with high := (bx >>> 8).setWidth 8 })
    (andThen (fun s => .ok { s with low := bx.setWidth 8 }) .done)

/-- A roll, which the routine goes through in one piece. -/
def rollPieces : Code State Halt := andThen State.rollScreen .done

/-- `.is_line_feed` and `.is_carriage_return`. -/
def newLinePieces (bx : BitVec 16) : Code State Halt :=
  let dx := bx % 80#16
  let bx := bx - dx + 80#16
  if bx.slt 2000#16 then setCursorPieces bx else rollPieces

/-- `.is_backspace`. -/
def backspacePieces (bx : BitVec 16) : Code State Halt :=
  let bx := (bx - 1#16) <<< 1
  andThen (·.movByte bx.toNat 0x20#8)
    (let bx := bx + 1#16
    andThen (·.movByte bx.toNat 0x07#8) (setCursorPieces (bx >>> 1)))

/-- `.put_other`. -/
def putOtherPieces (bx : BitVec 16) (cl : BitVec 8) : Code State Halt :=
  let bx := bx <<< 1
  andThen (·.movByte bx.toNat cl)
    (let bx := bx + 1#16
    andThen (·.movByte bx.toNat 0x07#8)
      (let bx := bx >>> 1
      let bx := bx + 1#16
      if bx.slt 2000#16 then setCursorPieces bx else newLinePieces bx))

/-- From the tests of the character on. -/
def charPieces (bx : BitVec 16) (cl : BitVec 8) : Code State Halt :=
  if cl = 0x0d#8 then newLinePieces bx
  else if cl = 0x0a#8 then newLinePieces bx
  else if cl = 0x08#8 then backspacePieces bx
  else putOtherPieces bx cl

/-- `put_char`: the two halves of the cursor are read, and then each store and each write to the
display is a piece. -/
def putCharPieces (cl : BitVec 8) : Code State Halt :=
  .piece (fun s => .ok { s with rolled := none }) fun s =>
    .piece .ok fun s' => charPieces (s.high ++ s'.low) cl

section Pieces

variable (bx : BitVec 16) (cl : BitVec 8) (s : State)

theorem run_andThen (act : State → Except Halt State) (c : Code State Halt) :
    (andThen act c).run s = (act s).bind c.run := rfl

theorem run_setCursorPieces : (setCursorPieces bx).run s = .ok (s.setCursor bx) := rfl

theorem run_rollPieces : rollPieces.run s = s.rollScreen := by
  rw [rollPieces, run_andThen]
  cases s.rollScreen <;> rfl

theorem run_newLinePieces : (newLinePieces bx).run s = s.newLine bx := by
  unfold newLinePieces State.newLine
  dsimp only
  split_ifs
  · exact run_setCursorPieces _ s
  · exact run_rollPieces s

theorem run_backspacePieces : (backspacePieces bx).run s = s.backspace bx := by
  unfold backspacePieces State.backspace
  dsimp only
  rw [run_andThen]
  refine congrArg (Except.bind _) (funext fun s' => ?_)
  rw [run_andThen]
  rfl

theorem run_putOtherPieces : (putOtherPieces bx cl).run s = s.putOther bx cl := by
  unfold putOtherPieces State.putOther
  dsimp only
  rw [run_andThen]
  refine congrArg (Except.bind _) (funext fun s' => ?_)
  rw [run_andThen]
  refine congrArg (Except.bind _) (funext fun s'' => ?_)
  split_ifs
  · exact run_setCursorPieces _ s''
  · exact run_newLinePieces _ s''

/-- The pieces are `put_char`. -/
theorem run_putCharPieces : (putCharPieces cl).run s = s.putChar cl := by
  show (charPieces s.cursor cl).run { s with rolled := none } = s.putChar cl
  unfold charPieces State.putChar
  dsimp only
  split_ifs
  · exact run_newLinePieces _ _
  · exact run_newLinePieces _ _
  · exact run_backspacePieces _ _
  · exact run_putOtherPieces _ _ _

end Pieces

/-! ## Main result -/

/-- The outputs one after the other. -/
theorem all_outputs {pieces : BitVec 8 → Code State Halt}
    (hp : ∀ cl s, (pieces cl).run s = s.putChar cl) (ops : List Output) (s : State) :
    Locked.all (outputCode pieces) ops s = s.putChars (ops.flatMap Output.chars) := by
  unfold Locked.all
  rw [← Stdio.foldlM_putChar]
  induction ops generalizing s with
  | nil => rfl
  | cons op ops ih =>
    rw [List.foldlM_cons, List.flatMap_cons, List.foldlM_append, run_outputCode hp,
      ← Stdio.foldlM_putChar]
    exact bind_congr ih

/-- **The console.**  However `put_char` is cut into pieces, any number of threads call the outputs
of the console and are preempted between any two of the pieces.  As long as no key is echoed while a
thread is between the two calls of the lock, what is left of the output that is going on makes of
the screen what `put_char` makes of the characters of all outputs, each of them whole, in the order
in which their threads got the lock; so it is with the screen itself when no output is going on. -/
theorem console_serial {T : Type} [DecidableEq T] {pieces : BitVec 8 → Code State Halt}
    (hp : ∀ cl s, (pieces cl).run s = s.putChar cl) {d₀ : State} {es : List (Event T Output)}
    {s : Locked.State T State Output}
    (h : ((Locked.machine (outputCode pieces)).guard Quiet).run (Locked.init d₀) es =
      some (.ok s)) :
    s.rest.run s.data = d₀.putChars (s.log.flatMap Output.chars) ∧
      (s.writer = none → d₀.putChars (s.log.flatMap Output.chars) = .ok s.data) := by
  rcases Locked.serial h with ⟨s', hs', hrest, hdata⟩ | ⟨x, hx, -⟩
  · cases hs'
    rw [all_outputs hp] at hrest hdata
    exact ⟨hrest, hdata⟩
  · cases hx

/-- Two threads; the second one calls while the first one is in the middle of its character. -/
def sampleEvents : List (Event Bool Output) :=
  .call false (.putChar 0x41#8) :: List.replicate 7 (.step false) ++
    .call true (.putStr [0x42#8, 0x0a#8]) :: List.replicate 2 (.step true) ++
    List.replicate 11 (.step false) ++ List.replicate 10 (.step true)

/-- The first character is on the screen, and the second output is going on. -/
theorem console_serial_two : ∃ s : Locked.State Bool State Output,
    s.rest.run s.data = (start 0#8 0#8 fun _ => 0#8).putChars (s.log.flatMap Output.chars) ∧
      s.log.length = 2 ∧ s.writer = some true := by
  have htest : ((((Locked.machine (outputCode putCharPieces)).guard Quiet).run
      (Locked.init (start 0#8 0#8 fun _ => 0#8)) sampleEvents).any fun r => r.toOption.any
        fun s => decide (s.log.length = 2 ∧ s.writer = some true)) = true := by
    decide +kernel
  obtain ⟨s, hrun, hs⟩ := Machine.run_of_test _ htest
  exact ⟨s, (console_serial run_putCharPieces hrun).1, of_decide_eq_true hs⟩

/-- The condition is needed: a key that is echoed after `put_char` has read the cursor is
overwritten, and the cursor is where one character leaves it. -/
theorem echo_overwritten : ∃ s : Locked.State Bool State Output,
    (Locked.machine (outputCode putCharPieces)).run (Locked.init (start 0#8 0#8 fun _ => 0#8))
        (.call false (.putChar 0x41#8) :: List.replicate 7 (.step false) ++
          .other (.echo 0x42#8) :: List.replicate 4 (.step false)) = some (.ok s) ∧
      s.data.cursor = 1#16 ∧ s.data.mem videoBase = 0x41#8 ∧
      s.data.mem (videoBase + 2) ≠ 0x42#8 ∧
      ∀ s', (start 0#8 0#8 fun _ => 0#8).putChars (s.log.flatMap Output.chars) = .ok s' →
        s'.cursor = 2#16 := by
  have htest : ((((Locked.machine (outputCode putCharPieces)).run
      (Locked.init (start 0#8 0#8 fun _ => 0#8)) (.call false (.putChar 0x41#8) ::
        List.replicate 7 (.step false) ++ .other (.echo 0x42#8) ::
          List.replicate 4 (.step (false : Bool)))).any fun r => r.toOption.any fun s =>
      decide (s.data.cursor = 1#16 ∧ s.data.mem videoBase = 0x41#8 ∧
        s.data.mem (videoBase + 2) ≠ 0x42#8 ∧ s.log.flatMap Output.chars = [0x41#8, 0x42#8]))) =
      true := by
    decide +kernel
  obtain ⟨s, hrun, hs⟩ := Machine.run_of_test _ htest
  obtain ⟨hcursor, hcell, hnext, hlog⟩ := of_decide_eq_true hs
  refine ⟨s, hrun, hcursor, hcell, hnext, fun s' hs' => ?_⟩
  rw [hlog] at hs'
  cases hs'
  rfl

end HcOs.ConsoleLock
