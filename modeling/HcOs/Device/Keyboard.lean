import HcOs.Device.Ioqueue
import HcOs.Stdio.Console

/-!
# The keyboard (`device/keyboard.c`)

`intr_keyboard_handler` is translated byte by byte, with the echo on the console and the queue
`kbd_buf`.  A key sends a make code when it is pressed and a break code when it is released; right
Ctrl and right Alt send the prefix `0xe0` before it.

The abstract side is the history of the keys (`Act`): which of them are held, how often Caps Lock
was pressed, and which characters they stand for.  `deliver_make` and `deliver_break` say what the
codes of a key do, and `decodes_iff` compares the handler with the history over all runs, with
readers of the queue and other output on the console in between.  The handler keeps one flag for
each pair of modifiers, and the first break code clears it: a run goes wrong when one of two keys is
released while the other is held.  (A backspace in the first cell of the screen stops the echo, see
`Console`.)
-/

namespace HcOs.Keyboard

open HcOs.Lib

/-! ## The handler -/

def shiftLMake : BitVec 16 := 0x2a#16
def shiftRMake : BitVec 16 := 0x36#16
def altLMake : BitVec 16 := 0x38#16
def altRMake : BitVec 16 := 0xe038#16
def ctrlLMake : BitVec 16 := 0x1d#16
def ctrlRMake : BitVec 16 := 0xe01d#16
def capsLockMake : BitVec 16 := 0x3a#16

/-- `keymap`, from the make code `0x00` to `0x3a`: without Shift and with it. -/
def keymap : List (BitVec 8 × BitVec 8) :=
  [(0#8, 0#8), (0x1b#8, 0x1b#8), (0x31#8, 0x21#8), (0x32#8, 0x40#8), (0x33#8, 0x23#8),
    (0x34#8, 0x24#8), (0x35#8, 0x25#8), (0x36#8, 0x5e#8), (0x37#8, 0x26#8), (0x38#8, 0x2a#8),
    (0x39#8, 0x28#8), (0x30#8, 0x29#8), (0x2d#8, 0x5f#8), (0x3d#8, 0x2b#8), (0x08#8, 0x08#8),
    (0x09#8, 0x09#8), (0x71#8, 0x51#8), (0x77#8, 0x57#8), (0x65#8, 0x45#8), (0x72#8, 0x52#8),
    (0x74#8, 0x54#8), (0x79#8, 0x59#8), (0x75#8, 0x55#8), (0x69#8, 0x49#8), (0x6f#8, 0x4f#8),
    (0x70#8, 0x50#8), (0x5b#8, 0x7b#8), (0x5d#8, 0x7d#8), (0x0d#8, 0x0d#8), (0#8, 0#8),
    (0x61#8, 0x41#8), (0x73#8, 0x53#8), (0x64#8, 0x44#8), (0x66#8, 0x46#8), (0x67#8, 0x47#8),
    (0x68#8, 0x48#8), (0x6a#8, 0x4a#8), (0x6b#8, 0x4b#8), (0x6c#8, 0x4c#8), (0x3b#8, 0x3a#8),
    (0x27#8, 0x22#8), (0x60#8, 0x7e#8), (0#8, 0#8), (0x5c#8, 0x7c#8), (0x7a#8, 0x5a#8),
    (0x78#8, 0x58#8), (0x63#8, 0x43#8), (0x76#8, 0x56#8), (0x62#8, 0x42#8), (0x6e#8, 0x4e#8),
    (0x6d#8, 0x4d#8), (0x2c#8, 0x3c#8), (0x2e#8, 0x3e#8), (0x2f#8, 0x3f#8), (0#8, 0#8),
    (0x2a#8, 0x2a#8), (0#8, 0#8), (0x20#8, 0x20#8), (0#8, 0#8)]

/-- `keymap[index][shift]`. -/
def keymapAt (index : ℕ) (shift : Bool) : BitVec 8 :=
  if shift then (keymap.getD index (0, 0)).2 else (keymap.getD index (0, 0)).1

/-- The variables of the driver; the characters go to `kbd_buf` and to the console. -/
structure Kbd (T : Type) where
  ctrlStatus : Bool
  shiftStatus : Bool
  altStatus : Bool
  capsLockStatus : Bool
  extScancode : Bool
  kbdBuf : Ioq.State T (BitVec 8)
  console : Console.State

/-- The local variable `shift` of the handler. -/
def shiftOf (scancode : BitVec 16) (shiftDownLast capsLockStatus capsLockLast : Bool) : Bool :=
  if scancode < 0x0e#16 ∨ scancode = 0x29#16 ∨ scancode = 0x1a#16 ∨ scancode = 0x1b#16 ∨
      scancode = 0x2b#16 ∨ scancode = 0x27#16 ∨ scancode = 0x28#16 ∨ scancode = 0x33#16 ∨
      scancode = 0x34#16 ∨ scancode = 0x35#16 then
    if shiftDownLast = true then true else false
  else
    if shiftDownLast = true ∧ capsLockStatus = true then false
    else if shiftDownLast = true ∨ capsLockLast = true then true
    else false

/-- `"unknow key\n"`. -/
def unknowKey : List (BitVec 8) :=
  [0x75#8, 0x6e#8, 0x6b#8, 0x6e#8, 0x6f#8, 0x77#8, 0x20#8, 0x6b#8, 0x65#8, 0x79#8, 0x0a#8]

variable {T : Type}

/-- The branch of a break code. -/
def onBreak (s : Kbd T) (scancode : BitVec 16) : Kbd T :=
  let makeCode := scancode &&& 0xff7f#16
  if makeCode = ctrlLMake ∨ makeCode = ctrlRMake then { s with ctrlStatus := false }
  else if makeCode = shiftLMake ∨ makeCode = shiftRMake then { s with shiftStatus := false }
  else if makeCode = altLMake ∨ makeCode = altRMake then { s with altStatus := false }
  else s

variable [DecidableEq T]

/-- A character goes to the console and to `kbd_buf`, unless that is full. -/
def echo (s : Kbd T) (t : T) (curChar : BitVec 8) : Except Halt (Kbd T) :=
  if Ioq.ioqFull s.kbdBuf.q ≠ true then do
    let console ← s.console.putChar curChar
    let kbdBuf ← Ioq.ioqPutchar s.kbdBuf t curChar
    .ok { s with console, kbdBuf }
  else .ok s

/-- The branch of a make code. -/
def onMake (s : Kbd T) (t : T) (scancode : BitVec 16) (shiftDownLast capsLockLast : Bool) :
    Except Halt (Kbd T) :=
  let shift := shiftOf scancode shiftDownLast s.capsLockStatus capsLockLast
  let scancode := scancode &&& 0x00ff#16
  let curChar := keymapAt scancode.toNat shift
  if curChar ≠ 0#8 then echo s t curChar
  else if scancode = ctrlLMake ∨ scancode = ctrlRMake then .ok { s with ctrlStatus := true }
  else if scancode = shiftLMake ∨ scancode = shiftRMake then .ok { s with shiftStatus := true }
  else if scancode = altLMake ∨ scancode = altRMake then .ok { s with altStatus := true }
  else if scancode = capsLockMake then .ok { s with capsLockStatus := !s.capsLockStatus }
  else do
    let console ← s.console.putChars unknowKey
    .ok { s with console }

/-- `intr_keyboard_handler`, with the byte that `inb` reads, in the interrupt of the thread `t`. -/
def intrKeyboardHandler (s : Kbd T) (t : T) (byte : BitVec 8) : Except Halt (Kbd T) :=
  let shiftDownLast := s.shiftStatus
  let capsLockLast := s.capsLockStatus
  let scancode := byte.setWidth 16
  if scancode = 0xe0#16 then .ok { s with extScancode := true }
  else
    let ext := s.extScancode
    let scancode := if ext = true then 0xe000#16 ||| scancode else scancode
    let s := if ext = true then { s with extScancode := false } else s
    if scancode &&& 0x0080#16 ≠ 0#16 then .ok (onBreak s scancode)
    else if 0x00#16 < scancode ∧ scancode < 0x3b#16 ∨ scancode = altRMake ∨
        scancode = ctrlRMake then
      onMake s t scancode shiftDownLast capsLockLast
    else .ok s

/-- Bytes delivered one after the other. -/
def deliver (s : Kbd T) (t : T) : List (BitVec 8) → Except Halt (Kbd T)
  | [] => .ok s
  | byte :: bytes => do
    let s ← intrKeyboardHandler s t byte
    deliver s t bytes

/-! ## Keys -/

/-- The keys: `plain i` has the make code `i + 1`. -/
inductive Key where
  | plain (i : Fin 58)
  | ctrlR
  | altR
deriving DecidableEq

/-- The modifiers, each of which is on two keys. -/
inductive Mod where
  | ctrl
  | shift
  | alt
deriving DecidableEq

namespace Mod

def left : Mod → Key
  | .ctrl => .plain 28
  | .shift => .plain 41
  | .alt => .plain 55

def right : Mod → Key
  | .ctrl => .ctrlR
  | .shift => .plain 53
  | .alt => .altR

end Mod

namespace Key

def capsLock : Key := .plain 57

def backspace : Key := .plain 13

/-- The modifier of a key. -/
def mod (k : Key) : Option Mod :=
  [Mod.ctrl, Mod.shift, Mod.alt].find? fun m => k = m.left ∨ k = m.right

def makeBytes : Key → List (BitVec 8)
  | .plain i => [BitVec.ofNat 8 (i + 1)]
  | .ctrlR => [0xe0#8, 0x1d#8]
  | .altR => [0xe0#8, 0x38#8]

def breakBytes : Key → List (BitVec 8)
  | .plain i => [BitVec.ofNat 8 (i + 1 + 0x80)]
  | .ctrlR => [0xe0#8, 0x9d#8]
  | .altR => [0xe0#8, 0xb8#8]

/-- The character without Shift is a small letter. -/
def isLetter (i : Fin 58) : Bool :=
  0x61#8 ≤ keymapAt (i + 1) false ∧ keymapAt (i + 1) false ≤ 0x7a#8

/-- The character of a key: Caps Lock reverses Shift on the letters and has no effect on the other
keys. -/
def char : Key → Bool → Bool → BitVec 8
  | .plain i, shift, caps => keymapAt (i + 1) (if isLetter i then shift ^^ caps else shift)
  | .ctrlR, _, _ | .altR, _, _ => 0#8

end Key

/-- What the user does. -/
inductive Act where
  | press (k : Key)
  | release (k : Key)
deriving DecidableEq

/-! The history of the keys, the last act first. -/

def held : List Act → Key → Bool
  | [], _ => false
  | .press k' :: h, k => if k = k' then true else held h k
  | .release k' :: h, k => if k = k' then false else held h k

/-- At least one of the two keys is held. -/
def anyHeld (h : List Act) (m : Mod) : Bool := held h m.left || held h m.right

/-- Caps Lock was pressed an odd number of times. -/
def capsOdd (h : List Act) : Bool := h.count (.press Key.capsLock) % 2 = 1

/-- The characters of the presses, in order. -/
def typed : List Act → List (BitVec 8)
  | [] => []
  | .release _ :: h => typed h
  | .press k :: h =>
    let c := k.char (anyHeld h .shift) (capsOdd h)
    if c = 0#8 then typed h else typed h ++ [c]

/-! ## Runs -/

structure State (T : Type) where
  kbd : Kbd T
  hist : List Act

/-- `keyboard_init`. -/
def init (buf : ℕ → BitVec 8) (console : Console.State) : State T where
  kbd := ⟨false, false, false, false, false, Ioq.init buf, console⟩
  hist := []

inductive Event (T : Type) where
  | press (t : T) (k : Key)
  | release (t : T) (k : Key)
  /-- A thread calls `ioq_getchar` on `kbd_buf`. -/
  | getchar (t : T)
  /-- A thread continues its call. -/
  | resume (t : T)
  /-- A thread prints a character. -/
  | print (ch : BitVec 8)

/-- A key that is up is pressed while the thread `t` runs and, if it has a character, the queue is
not full; a key that is held is released. -/
def machine (T : Type) [DecidableEq T] : Machine (State T) (Event T) Halt where
  step s
    | .press t k =>
      match s.kbd.kbdBuf.pc t with
      | .out =>
        if held s.hist k = false ∧ s.kbd.kbdBuf.st t = .ready ∧
            (k.char false false ≠ 0#8 → Ioq.ioqFull s.kbd.kbdBuf.q = false) then
          some ((deliver s.kbd t k.makeBytes).map fun kbd => ⟨kbd, .press k :: s.hist⟩)
        else none
      | _ => none
    | .release t k =>
      if held s.hist k = true then
        some ((deliver s.kbd t k.breakBytes).map fun kbd => ⟨kbd, .release k :: s.hist⟩)
      else none
    | .getchar t =>
      ((Ioq.machine T (BitVec 8)).step s.kbd.kbdBuf (.call t .getchar)).map
        (Except.map fun q => { s with kbd := { s.kbd with kbdBuf := q } })
    | .resume t =>
      ((Ioq.machine T (BitVec 8)).step s.kbd.kbdBuf (.resume t)).map
        (Except.map fun q => { s with kbd := { s.kbd with kbdBuf := q } })
    | .print ch =>
      match s.kbd.console.putChar ch with
      | .ok console => some (.ok { s with kbd := { s.kbd with console } })
      | .error _ => none

/-! ## What the codes of a key do -/

namespace Kbd

variable {T : Type}

def status (s : Kbd T) : Mod → Bool
  | .ctrl => s.ctrlStatus
  | .shift => s.shiftStatus
  | .alt => s.altStatus

def setStatus (s : Kbd T) : Mod → Bool → Kbd T
  | .ctrl, b => { s with ctrlStatus := b }
  | .shift, b => { s with shiftStatus := b }
  | .alt, b => { s with altStatus := b }

end Kbd

variable {s : Kbd T} {t : T}

/-- The keys by what they do. -/
theorem key_cases (k : Key) :
    (∃ m : Mod, k = m.left ∨ k = m.right) ∨ k = Key.capsLock ∨
      ∃ i, k = .plain i ∧ k.mod = none ∧ k ≠ Key.capsLock := by
  cases k with
  | ctrlR => exact Or.inl ⟨.ctrl, Or.inr rfl⟩
  | altR => exact Or.inl ⟨.alt, Or.inr rfl⟩
  | plain i =>
    have hkeys : ∀ i : Fin 58, i = 28 ∨ i = 41 ∨ i = 53 ∨ i = 55 ∨ i = 57 ∨
        (Key.plain i).mod = none ∧ Key.plain i ≠ Key.capsLock := by decide
    rcases hkeys i with rfl | rfl | rfl | rfl | rfl | h
    · exact Or.inl ⟨.ctrl, Or.inl rfl⟩
    · exact Or.inl ⟨.shift, Or.inl rfl⟩
    · exact Or.inl ⟨.shift, Or.inr rfl⟩
    · exact Or.inl ⟨.alt, Or.inl rfl⟩
    · exact Or.inr (Or.inl rfl)
    · exact Or.inr (Or.inr ⟨i, rfl, h⟩)

theorem char_mod (m : Mod) (shift caps : Bool) :
    m.left.char shift caps = 0#8 ∧ m.right.char shift caps = 0#8 := by
  cases m <;> cases shift <;> cases caps <;> decide

/-- The scan code of a plain key. -/
def code (i : Fin 58) : BitVec 16 := (BitVec.ofNat 8 (i + 1)).setWidth 16

theorem code_ne_e0 : ∀ i, code i ≠ 0xe0#16 := by decide

theorem code_make : ∀ i, code i &&& 0x0080#16 = 0#16 ∧ 0x00#16 < code i ∧ code i < 0x3b#16 := by
  decide

theorem code_index : ∀ i, (code i &&& 0x00ff#16).toNat = i + 1 := by decide

/-- The long condition of the handler is that on the letters. -/
theorem keymapAt_shiftOf : ∀ (i : Fin 58) (shift caps : Bool),
    keymapAt (i + 1) (shiftOf (code i) shift caps caps) = (Key.plain i).char shift caps := by
  decide

theorem char_ne_zero : ∀ i, (Key.plain i).mod = none → Key.plain i ≠ Key.capsLock → ∀ shift caps,
    (Key.plain i).char shift caps ≠ 0#8 := by
  decide

theorem deliver_singleton (s : Kbd T) (t : T) (byte : BitVec 8) :
    deliver s t [byte] = intrKeyboardHandler s t byte :=
  bind_pure _

section Codes

variable (hext : s.extScancode = false) {byte : BitVec 8}

include hext

/-- A byte without the prefix. -/
theorem deliver_make (t : T) (hne : byte.setWidth 16 ≠ 0xe0#16)
    (hmake : byte.setWidth 16 &&& 0x0080#16 = 0#16)
    (hrange : 0x00#16 < byte.setWidth 16 ∧ byte.setWidth 16 < 0x3b#16) :
    deliver s t [byte] = onMake s t (byte.setWidth 16) s.shiftStatus s.capsLockStatus := by
  rw [deliver_singleton, intrKeyboardHandler]
  dsimp only
  rw [if_neg hne, hext, if_neg Bool.false_ne_true, if_neg Bool.false_ne_true,
    if_neg (not_not_intro hmake), if_pos (Or.inl hrange)]

theorem deliver_break (t : T) (hne : byte.setWidth 16 ≠ 0xe0#16)
    (hbreak : byte.setWidth 16 &&& 0x0080#16 ≠ 0#16) :
    deliver s t [byte] = .ok (onBreak s (byte.setWidth 16)) := by
  rw [deliver_singleton, intrKeyboardHandler]
  dsimp only
  rw [if_neg hne, hext, if_neg Bool.false_ne_true, if_neg Bool.false_ne_true, if_pos hbreak]

/-- The prefix and a byte: in between the flag is set. -/
theorem deliver_e0 (t : T) (hne : byte.setWidth 16 ≠ 0xe0#16) :
    deliver s t [0xe0#8, byte] =
      (if (0xe000#16 ||| byte.setWidth 16) &&& 0x0080#16 ≠ 0#16 then
        .ok (onBreak s (0xe000#16 ||| byte.setWidth 16))
      else if 0x00#16 < (0xe000#16 ||| byte.setWidth 16) ∧
            (0xe000#16 ||| byte.setWidth 16) < 0x3b#16 ∨
          (0xe000#16 ||| byte.setWidth 16) = altRMake ∨
          (0xe000#16 ||| byte.setWidth 16) = ctrlRMake then
        onMake s t (0xe000#16 ||| byte.setWidth 16) s.shiftStatus s.capsLockStatus
      else .ok s) := by
  have hfirst : intrKeyboardHandler s t 0xe0#8 = .ok { s with extScancode := true } := by
    unfold intrKeyboardHandler
    exact if_pos (by decide)
  have hback : { s with extScancode := false } = s := by rw [← hext]
  rw [deliver, hfirst, ok_bind, deliver_singleton, intrKeyboardHandler]
  dsimp only
  rw [if_neg hne, if_pos rfl, if_pos rfl, hback]

theorem deliver_make_mod (t : T) (m : Mod) :
    deliver s t m.left.makeBytes = .ok (s.setStatus m true) ∧
      deliver s t m.right.makeBytes = .ok (s.setStatus m true) := by
  obtain ⟨ctrl, shift, alt, caps, ext, q, con⟩ := s
  cases m with
  | ctrl =>
    refine ⟨(deliver_make hext t (by decide) (by decide) (by decide)).trans ?_, ?_⟩
    · cases shift <;> cases caps <;> rfl
    · refine (deliver_e0 hext t (by decide)).trans ?_
      rw [if_neg (by decide), if_pos (by decide)]
      cases shift <;> cases caps <;> rfl
  | shift =>
    refine ⟨(deliver_make hext t (by decide) (by decide) (by decide)).trans ?_,
      (deliver_make hext t (by decide) (by decide) (by decide)).trans ?_⟩
    · cases shift <;> cases caps <;> rfl
    · cases shift <;> cases caps <;> rfl
  | alt =>
    refine ⟨(deliver_make hext t (by decide) (by decide) (by decide)).trans ?_, ?_⟩
    · cases shift <;> cases caps <;> rfl
    · refine (deliver_e0 hext t (by decide)).trans ?_
      rw [if_neg (by decide), if_pos (by decide)]
      cases shift <;> cases caps <;> rfl

theorem deliver_break_mod (t : T) (m : Mod) :
    deliver s t m.left.breakBytes = .ok (s.setStatus m false) ∧
      deliver s t m.right.breakBytes = .ok (s.setStatus m false) := by
  cases m with
  | ctrl =>
    refine ⟨deliver_break hext t (by decide) (by decide), ?_⟩
    refine (deliver_e0 hext t (by decide)).trans ?_
    rw [if_pos (by decide)]
    rfl
  | shift =>
    exact ⟨deliver_break hext t (by decide) (by decide),
      deliver_break hext t (by decide) (by decide)⟩
  | alt =>
    refine ⟨deliver_break hext t (by decide) (by decide), ?_⟩
    refine (deliver_e0 hext t (by decide)).trans ?_
    rw [if_pos (by decide)]
    rfl

theorem deliver_make_caps (t : T) :
    deliver s t Key.capsLock.makeBytes = .ok { s with capsLockStatus := !s.capsLockStatus } := by
  obtain ⟨ctrl, shift, alt, caps, ext, q, con⟩ := s
  refine (deliver_make hext t (by decide) (by decide) (by decide)).trans ?_
  cases shift <;> cases caps <;> rfl

theorem deliver_make_char (t : T) {i : Fin 58} (hmod : (Key.plain i).mod = none)
    (hcaps : Key.plain i ≠ Key.capsLock) :
    deliver s t (Key.plain i).makeBytes =
      echo s t ((Key.plain i).char s.shiftStatus s.capsLockStatus) := by
  have hchar := keymapAt_shiftOf i s.shiftStatus s.capsLockStatus
  have hne := char_ne_zero i hmod hcaps s.shiftStatus s.capsLockStatus
  have honMake : deliver s t (Key.plain i).makeBytes =
      onMake s t (code i) s.shiftStatus s.capsLockStatus :=
    deliver_make hext t (code_ne_e0 i) (code_make i).1 (code_make i).2
  rw [honMake, onMake, code_index, hchar, if_pos hne]

theorem deliver_break_other (t : T) {i : Fin 58} (hmod : (Key.plain i).mod = none) :
    deliver s t (Key.plain i).breakBytes = .ok s := by
  have hbreak : ∀ i : Fin 58, (BitVec.ofNat 8 (i + 1 + 0x80)).setWidth 16 ≠ 0xe0#16 ∧
      (BitVec.ofNat 8 (i + 1 + 0x80)).setWidth 16 &&& 0x0080#16 ≠ 0#16 ∧
      (BitVec.ofNat 8 (i + 1 + 0x80)).setWidth 16 &&& 0xff7f#16 = code i := by decide
  have hother : ∀ i : Fin 58, (Key.plain i).mod = none →
      ¬(code i = ctrlLMake ∨ code i = ctrlRMake) ∧ ¬(code i = shiftLMake ∨ code i = shiftRMake) ∧
        ¬(code i = altLMake ∨ code i = altRMake) := by decide
  obtain ⟨hctrl, hshift, halt⟩ := hother i hmod
  rw [Key.breakBytes, deliver_break hext t (hbreak i).1 (hbreak i).2.1, onBreak, (hbreak i).2.2,
    if_neg hctrl, if_neg hshift, if_neg halt]

end Codes

/-! ## The queue and the echo -/

/-- Only readers are inside the calls of the queue. -/
def Readers (q : Ioq.State T (BitVec 8)) : Prop :=
  ∀ t byte, q.pc t ≠ .lock (.putchar byte) ∧ q.pc t ≠ .wait (.putchar byte)

variable {q q' : Ioq.State T (BitVec 8)} {o : Option T}

theorem readers_update (h : Readers q) {pc : Ioq.Pc (BitVec 8)}
    (hpc : q'.pc = Function.update q.pc t pc)
    (hnew : ∀ byte, pc ≠ .lock (.putchar byte) ∧ pc ≠ .wait (.putchar byte)) : Readers q' := by
  intro u byte
  rw [hpc]
  rcases eq_or_ne u t with rfl | hne
  · rw [Function.update_self]
    exact hnew byte
  · rw [Function.update_of_ne hne]
    exact h u byte

omit [DecidableEq T] in
theorem readers_same (h : Readers q) (hsame : Ioq.Same q q') : Readers q' := by
  intro u byte
  rcases hsame.pc u with hpc | hpc
  · rw [hpc]
    exact h u byte
  · rw [hpc]
    exact ⟨nofun, nofun⟩

/-- A step of a reader puts nothing into the queue. -/
theorem reader_step (hs : Ioq.Sync o q) (hc : Ioq.Content q) (hread : Readers q)
    {e : Ioq.Event T (BitVec 8)} (he : ∀ op, e.runs q op → op = .getchar)
    {r : Except Halt (Ioq.State T (BitVec 8))} (h : (Ioq.machine T (BitVec 8)).step q e = some r) :
    ∃ o' q', r = .ok q' ∧ Ioq.Sync o' q' ∧ Ioq.Content q' ∧ Readers q' ∧ q'.stored = q.stored := by
  have hcontent : ∀ {q₁}, Ioq.Same q q₁ → Ioq.Content q₁ := fun hsame =>
    Ioq.content_congr hc hsame.buf hsame.head hsame.tail hsame.stored hsame.fetched
  refine Ioq.step_rule hs h (fun q₁ t op hsame hop => ?_) (fun q₁ t op hsame hop => ?_)
    (fun q₁ t op hsame hop hm => ?_)
  · rw [he op hop]
    exact ⟨Ioq.content_congr (hcontent hsame) rfl rfl rfl rfl rfl,
      readers_update (readers_same hread hsame) rfl fun _ => ⟨nofun, nofun⟩, hsame.stored⟩
  · rw [he op hop]
    exact ⟨Ioq.content_congr (hcontent hsame) rfl rfl rfl rfl rfl,
      readers_update (readers_same hread hsame) rfl fun _ => ⟨nofun, nofun⟩, hsame.stored⟩
  · rw [he op hop] at hm ⊢
    exact ⟨Ioq.content_done (hcontent hsame) hm,
      readers_update (readers_same hread hsame) rfl fun _ => ⟨nofun, nofun⟩, hsame.stored⟩

/-- A character that is echoed is put into the queue. -/
theorem echo_ok (hs : Ioq.Sync o s.kbdBuf) (hpc : s.kbdBuf.pc t = .out)
    (hready : s.kbdBuf.st t = .ready) (hfull : Ioq.ioqFull s.kbdBuf.q = false)
    (hcur : s.console.cursor.toNat < 2000) {c : BitVec 8}
    (hb : ¬(s.console.cursor.toNat = 0 ∧ c = 0x08#8)) :
    ∃ con, con.cursor.toNat < 2000 ∧ echo s t c =
      .ok { s with console := con, kbdBuf := s.kbdBuf.done t (.putchar c) } := by
  obtain ⟨con, hcon, -, hnext, -⟩ := Console.putChar_next hcur hb
  have hput : Ioq.ioqPutchar s.kbdBuf t c = .ok (s.kbdBuf.done t (.putchar c)) := by
    have hwait : ¬(Ioq.Op.putchar c).mustWait s.kbdBuf.q = true := by
      rw [Ioq.Op.mustWait, hfull]
      exact Bool.false_ne_true
    have ho : o ≠ some t := Ioq.owner_ne hs (by rw [hpc]; exact nofun)
    rw [Ioq.ioqPutchar, Ioq.loop_eq hs ho hready, if_neg hwait]
  refine ⟨con, by rw [hnext]; exact Console.next_lt hcur c, ?_⟩
  rw [echo, hfull, if_pos Bool.false_ne_true, hcon, ok_bind, hput, ok_bind]

/-- The echo of a backspace in the first cell does not return. -/
theorem echo_backspace (hfull : Ioq.ioqFull s.kbdBuf.q = false)
    (h0 : s.console.cursor.toNat = 0) : echo s t 0x08#8 = .error .noReturn := by
  rw [echo, hfull, if_pos Bool.false_ne_true, Console.putChar_backspace h0, error_bind]

/-! ## The history -/

theorem mod_eq_some (k : Key) (m : Mod) : k.mod = some m ↔ k = m.left ∨ k = m.right := by
  cases k with
  | plain i =>
    have hplain : ∀ i, (Key.plain i).mod = some m ↔
        Key.plain i = m.left ∨ Key.plain i = m.right := by
      cases m <;> decide
    exact hplain i
  | ctrlR => cases m <;> decide
  | altR => cases m <;> decide

theorem left_ne_right (m : Mod) : m.left ≠ m.right := by cases m <;> decide

variable {h : List Act} {k : Key}

theorem anyHeld_press (m : Mod) :
    anyHeld (.press k :: h) m = if k.mod = some m then true else anyHeld h m := by
  simp only [anyHeld, held]
  by_cases hk : k.mod = some m
  · rw [if_pos hk]
    rcases (mod_eq_some k m).mp hk with rfl | rfl
    · rw [if_pos rfl, Bool.true_or]
    · rw [if_neg (left_ne_right m), if_pos rfl, Bool.or_true]
  · rw [if_neg hk]
    rw [mod_eq_some, not_or] at hk
    rw [if_neg (Ne.symm hk.1), if_neg (Ne.symm hk.2)]

/-- The release of a key of another kind. -/
theorem anyHeld_release_of_ne {m : Mod} (hk : k.mod ≠ some m) :
    anyHeld (.release k :: h) m = anyHeld h m := by
  rw [ne_eq, mod_eq_some, not_or] at hk
  simp only [anyHeld, held]
  rw [if_neg (Ne.symm hk.1), if_neg (Ne.symm hk.2)]

/-- After the release of one of the two keys, the other one decides. -/
theorem anyHeld_release {m : Mod} (hk : k.mod = some m) (hheld : held h k = true) :
    anyHeld (.release k :: h) m = (held h m.left && held h m.right) := by
  simp only [anyHeld, held]
  rcases (mod_eq_some k m).mp hk with rfl | rfl
  · rw [if_pos rfl, if_neg (Ne.symm (left_ne_right m)), hheld, Bool.false_or, Bool.true_and]
  · rw [if_pos rfl, if_neg (left_ne_right m), hheld, Bool.or_false, Bool.and_true]

theorem capsOdd_press_of_ne (hk : k ≠ Key.capsLock) : capsOdd (.press k :: h) = capsOdd h := by
  unfold capsOdd
  rw [List.count_cons_of_ne (fun heq => hk (Act.press.inj heq))]

theorem capsOdd_press_caps : capsOdd (.press Key.capsLock :: h) = !capsOdd h := by
  unfold capsOdd
  rw [List.count_cons_self]
  rcases Nat.mod_two_eq_zero_or_one (h.count (.press Key.capsLock)) with h0 | h1
  · rw [Nat.add_mod, h0]
    rfl
  · rw [Nat.add_mod, h1]
    rfl

theorem capsOdd_release : capsOdd (.release k :: h) = capsOdd h := by
  have hne : Act.release k ≠ .press Key.capsLock := nofun
  unfold capsOdd
  rw [List.count_cons_of_ne hne]

/-! ## Main result -/

/-- The characters are in the queue, and the flags say which modifiers are held. -/
structure Decodes (s : State T) : Prop where
  stored : s.kbd.kbdBuf.stored = typed s.hist
  content : Ioq.Content s.kbd.kbdBuf
  status : ∀ m, s.kbd.status m = anyHeld s.hist m

structure Inv (s : State T) : Prop where
  decodes : Decodes s
  caps : s.kbd.capsLockStatus = capsOdd s.hist
  ext : s.kbd.extScancode = false
  sync : ∃ o, Ioq.Sync o s.kbd.kbdBuf
  readers : Readers s.kbd.kbdBuf
  cursor : s.kbd.console.cursor.toNat < 2000

/-- No key of a modifier is released while both are held, and no backspace is typed in the first
cell of the screen. -/
def Careful (s : State T) : Event T → Prop
  | .press _ k => ¬(k = Key.backspace ∧ s.kbd.console.cursor.toNat = 0)
  | .release _ k => ∀ m ∈ k.mod, ¬(held s.hist m.left = true ∧ held s.hist m.right = true)
  | _ => True

instance (s : State T) : DecidablePred (Careful s)
  | .press _ k =>
    inferInstanceAs (Decidable ¬(k = Key.backspace ∧ s.kbd.console.cursor.toNat = 0))
  | .release _ k => inferInstanceAs (Decidable (∀ m ∈ k.mod,
      ¬(held s.hist m.left = true ∧ held s.hist m.right = true)))
  | .getchar _ | .resume _ | .print _ => inferInstanceAs (Decidable True)

omit [DecidableEq T] in
theorem status_setStatus (s : Kbd T) (m m' : Mod) (b : Bool) :
    (s.setStatus m b).status m' = if m = m' then b else s.status m' := by
  cases m <;> cases m' <;> rfl

omit [DecidableEq T] in
/-- A change of the flags alone. -/
theorem Inv.of_flags {s : State T} {kbd : Kbd T} {hist : List Act} (hi : Inv s)
    (hbuf : kbd.kbdBuf = s.kbd.kbdBuf) (hcon : kbd.console = s.kbd.console)
    (hext : kbd.extScancode = s.kbd.extScancode) (htyped : typed hist = typed s.hist)
    (hstatus : ∀ m, kbd.status m = anyHeld hist m) (hcaps : kbd.capsLockStatus = capsOdd hist) :
    Inv ⟨kbd, hist⟩ where
  decodes :=
    { stored := by rw [hbuf, htyped]; exact hi.decodes.stored
      content := by rw [hbuf]; exact hi.decodes.content
      status := hstatus }
  caps := hcaps
  ext := hext.trans hi.ext
  sync := by rw [hbuf]; exact hi.sync
  readers := by rw [hbuf]; exact hi.readers
  cursor := by rw [hcon]; exact hi.cursor

omit [DecidableEq T] in
theorem setStatus_same (s : Kbd T) (m : Mod) (b : Bool) :
    (s.setStatus m b).kbdBuf = s.kbdBuf ∧ (s.setStatus m b).console = s.console ∧
      (s.setStatus m b).extScancode = s.extScancode ∧
      (s.setStatus m b).capsLockStatus = s.capsLockStatus := by
  cases m <;> exact ⟨rfl, rfl, rfl, rfl⟩

theorem typed_press_of_zero (hchar : k.char (anyHeld h .shift) (capsOdd h) = 0#8) :
    typed (.press k :: h) = typed h := by
  rw [typed]
  exact if_pos hchar

theorem press_mod {s : State T} (hi : Inv s) (t : T) {m : Mod} (hk : k = m.left ∨ k = m.right) :
    ∃ kbd, deliver s.kbd t k.makeBytes = .ok kbd ∧ Inv ⟨kbd, .press k :: s.hist⟩ := by
  have hmake := deliver_make_mod hi.ext t m
  have hmod := (mod_eq_some k m).mpr hk
  have hchar := char_mod m (anyHeld s.hist .shift) (capsOdd s.hist)
  have hcapsKey : m.left ≠ Key.capsLock ∧ m.right ≠ Key.capsLock := by cases m <;> decide
  obtain ⟨hbuf, hcon, hext, hcaps⟩ := setStatus_same s.kbd m true
  refine ⟨s.kbd.setStatus m true, ?_, hi.of_flags hbuf hcon hext ?_ (fun m' => ?_) ?_⟩
  · rcases hk with rfl | rfl
    · exact hmake.1
    · exact hmake.2
  · rcases hk with rfl | rfl
    · exact typed_press_of_zero hchar.1
    · exact typed_press_of_zero hchar.2
  · rw [anyHeld_press, status_setStatus, hmod, hi.decodes.status]
    simp only [Option.some.injEq]
  · have hne : k ≠ Key.capsLock := by
      rcases hk with rfl | rfl
      · exact hcapsKey.1
      · exact hcapsKey.2
    rw [capsOdd_press_of_ne hne, hcaps, hi.caps]

theorem press_caps {s : State T} (hi : Inv s) (t : T) :
    ∃ kbd, deliver s.kbd t Key.capsLock.makeBytes = .ok kbd ∧
      Inv ⟨kbd, .press Key.capsLock :: s.hist⟩ := by
  have hchar : ∀ shift caps, Key.capsLock.char shift caps = 0#8 := by decide
  refine ⟨_, deliver_make_caps hi.ext t, hi.of_flags rfl rfl rfl
    (typed_press_of_zero (hchar _ _)) (fun m => ?_) ?_⟩
  · have hmod : Key.capsLock.mod ≠ some m := by cases m <;> decide
    rw [anyHeld_press, if_neg hmod, ← hi.decodes.status]
    cases m <;> rfl
  · rw [capsOdd_press_caps, ← hi.caps]

theorem char_eq_backspace : ∀ i shift caps,
    (Key.plain i).char shift caps = 0x08#8 ↔ Key.plain i = Key.backspace := by decide

theorem press_char {s : State T} (hi : Inv s) {i : Fin 58} (hmod : (Key.plain i).mod = none)
    (hcaps : Key.plain i ≠ Key.capsLock) (hpc : s.kbd.kbdBuf.pc t = .out)
    (hready : s.kbd.kbdBuf.st t = .ready) (hfull : Ioq.ioqFull s.kbd.kbdBuf.q = false)
    (hb : ¬(Key.plain i = Key.backspace ∧ s.kbd.console.cursor.toNat = 0)) :
    ∃ kbd, deliver s.kbd t (Key.plain i).makeBytes = .ok kbd ∧
      Inv ⟨kbd, .press (.plain i) :: s.hist⟩ := by
  obtain ⟨o, hs⟩ := hi.sync
  have hshift : s.kbd.shiftStatus = anyHeld s.hist .shift := hi.decodes.status .shift
  have hne := char_ne_zero i hmod hcaps (anyHeld s.hist .shift) (capsOdd s.hist)
  have hb' : ¬(s.kbd.console.cursor.toNat = 0 ∧
      (Key.plain i).char (anyHeld s.hist .shift) (capsOdd s.hist) = 0x08#8) := by
    rw [char_eq_backspace]
    exact fun hand => hb hand.symm
  obtain ⟨con, hcon, hecho⟩ := echo_ok hs hpc hready hfull hi.cursor hb'
  rw [deliver_make_char hi.ext t hmod hcaps, hshift, hi.caps]
  refine ⟨_, hecho, ⟨?_, ?_, ?_⟩, ?_, hi.ext, ⟨o, ?_⟩, ?_, hcon⟩
  · have htyped : typed (.press (.plain i) :: s.hist) = typed s.hist ++
        [(Key.plain i).char (anyHeld s.hist .shift) (capsOdd s.hist)] := if_neg hne
    rw [htyped, ← hi.decodes.stored]
    rfl
  · exact Ioq.content_putchar hi.decodes.content hfull
  · intro m
    rw [anyHeld_press, hmod, if_neg nofun]
    exact hi.decodes.status m
  · rw [capsOdd_press_of_ne hcaps]
    exact hi.caps
  · have ho : o ≠ some t := Ioq.owner_ne hs (by rw [hpc]; exact nofun)
    exact Ioq.sync_done hs ho hready (.putchar _)
  · exact readers_update hi.readers rfl fun _ => ⟨nofun, nofun⟩

/-- A release of a key without a twin that is held. -/
theorem release_ok {s : State T} (hi : Inv s) (t : T) (hheld : held s.hist k = true)
    (hcare : ∀ m ∈ k.mod, ¬(held s.hist m.left = true ∧ held s.hist m.right = true)) :
    ∃ kbd, deliver s.kbd t k.breakBytes = .ok kbd ∧ Inv ⟨kbd, .release k :: s.hist⟩ := by
  have hother : ∀ i, k = .plain i → k.mod = none →
      ∃ kbd, deliver s.kbd t k.breakBytes = .ok kbd ∧ Inv ⟨kbd, .release k :: s.hist⟩ := by
    rintro i rfl hmod
    refine ⟨s.kbd, deliver_break_other hi.ext t hmod, hi.of_flags rfl rfl rfl rfl (fun m => ?_) ?_⟩
    · rw [anyHeld_release_of_ne (by rw [hmod]; exact nofun), hi.decodes.status]
    · rw [capsOdd_release, hi.caps]
  rcases key_cases k with ⟨m, hk⟩ | rfl | ⟨i, hi', hmod, -⟩
  · have hbreak := deliver_break_mod hi.ext t m
    have hmod := (mod_eq_some k m).mpr hk
    obtain ⟨hbuf, hcon, hext, hcaps⟩ := setStatus_same s.kbd m false
    refine ⟨s.kbd.setStatus m false, ?_, hi.of_flags hbuf hcon hext rfl (fun m' => ?_) ?_⟩
    · rcases hk with rfl | rfl
      · exact hbreak.1
      · exact hbreak.2
    · rw [status_setStatus]
      by_cases hm : m = m'
      · subst hm
        have hnot : ¬(held s.hist m.left && held s.hist m.right) = true := by
          rw [Bool.and_eq_true]
          exact hcare m hmod
        rw [if_pos rfl, anyHeld_release hmod hheld, Bool.eq_false_iff.mpr hnot]
      · have hne : k.mod ≠ some m' := by
          rw [hmod]
          exact fun h => hm (Option.some.inj h)
        rw [if_neg hm, anyHeld_release_of_ne hne, hi.decodes.status]
    · rw [capsOdd_release, hcaps, hi.caps]
  · exact hother 57 rfl (by decide)
  · exact hother i hi' hmod

/-- A release of one of two keys that are held: the flag is cleared although the other one is still
held. -/
theorem release_twin {s : State T} (hi : Inv s) (t : T) {m : Mod} (hk : k = m.left ∨ k = m.right)
    (hboth : held s.hist m.left = true ∧ held s.hist m.right = true) :
    ∃ kbd, deliver s.kbd t k.breakBytes = .ok kbd ∧ ¬Decodes ⟨kbd, .release k :: s.hist⟩ := by
  have hbreak := deliver_break_mod hi.ext t m
  refine ⟨s.kbd.setStatus m false, ?_, fun hdec => ?_⟩
  · rcases hk with rfl | rfl
    · exact hbreak.1
    · exact hbreak.2
  · have hheld : held s.hist k = true := by
      rcases hk with rfl | rfl
      · exact hboth.1
      · exact hboth.2
    have hstatus := hdec.status m
    rw [anyHeld_release ((mod_eq_some k m).mpr hk) hheld, hboth.1, hboth.2, status_setStatus,
      if_pos rfl] at hstatus
    cases hstatus

/-- What it takes to press a key. -/
theorem step_press {s : State T} {r : Except Halt (State T)}
    (h : (machine T).step s (.press t k) = some r) :
    s.kbd.kbdBuf.pc t = .out ∧ held s.hist k = false ∧ s.kbd.kbdBuf.st t = .ready ∧
      (k.char false false ≠ 0#8 → Ioq.ioqFull s.kbd.kbdBuf.q = false) ∧
      r = (deliver s.kbd t k.makeBytes).map fun kbd => ⟨kbd, .press k :: s.hist⟩ := by
  simp only [machine] at h
  split at h
  · next hpc =>
    split at h
    · next hc => exact ⟨hpc, hc.1, hc.2.1, hc.2.2, (Option.some.inj h).symm⟩
    · cases h
  · cases h

theorem step_release {s : State T} {r : Except Halt (State T)}
    (h : (machine T).step s (.release t k) = some r) :
    held s.hist k = true ∧
      r = (deliver s.kbd t k.breakBytes).map fun kbd => ⟨kbd, .release k :: s.hist⟩ := by
  simp only [machine] at h
  split at h
  · next hheld => exact ⟨hheld, (Option.some.inj h).symm⟩
  · cases h

/-- A step of a reader. -/
theorem queue_step {s : State T} (hi : Inv s) {e : Ioq.Event T (BitVec 8)}
    (he : ∀ op, e.runs s.kbd.kbdBuf op → op = .getchar) {r : Except Halt (State T)}
    (h : ((Ioq.machine T (BitVec 8)).step s.kbd.kbdBuf e).map
      (Except.map fun q => { s with kbd := { s.kbd with kbdBuf := q } }) = some r) :
    ∃ s', r = .ok s' ∧ Inv s' := by
  obtain ⟨r', hr', rfl⟩ := Option.map_eq_some_iff.mp h
  obtain ⟨o, hs⟩ := hi.sync
  obtain ⟨o', q', rfl, hs', hc', hread', hstored⟩ :=
    reader_step hs hi.decodes.content hi.readers he hr'
  exact ⟨_, rfl, ⟨hstored.trans hi.decodes.stored, hc', hi.decodes.status⟩, hi.caps, hi.ext,
    ⟨o', hs'⟩, hread', hi.cursor⟩

/-- Every careful step keeps the invariant. -/
theorem step_careful {s : State T} (hi : Inv s) {e : Event T} (hcare : Careful s e)
    {r : Except Halt (State T)} (h : (machine T).step s e = some r) :
    ∃ s', r = .ok s' ∧ Inv s' := by
  cases e with
  | press t k =>
    obtain ⟨hpc, -, hready, hfull, rfl⟩ := step_press h
    have hpress : ∃ kbd, deliver s.kbd t k.makeBytes = .ok kbd ∧
        Inv ⟨kbd, .press k :: s.hist⟩ := by
      rcases key_cases k with ⟨m, hk⟩ | rfl | ⟨i, rfl, hmod, hcaps⟩
      · exact press_mod hi t hk
      · exact press_caps hi t
      · exact press_char hi hmod hcaps hpc hready (hfull (char_ne_zero i hmod hcaps _ _)) hcare
    obtain ⟨kbd, hkbd, hinv⟩ := hpress
    rw [hkbd]
    exact ⟨_, rfl, hinv⟩
  | release t k =>
    obtain ⟨hheld, rfl⟩ := step_release h
    obtain ⟨kbd, hkbd, hinv⟩ := release_ok hi t hheld hcare
    rw [hkbd]
    exact ⟨_, rfl, hinv⟩
  | getchar t => exact @queue_step T _ s hi (.call t .getchar) (fun op hop => Eq.symm hop) r h
  | resume t =>
    refine queue_step hi (fun op hop => ?_) h
    cases op with
    | getchar => rfl
    | putchar byte =>
      rcases hop with hpc | hpc
      · exact absurd hpc (hi.readers t byte).1
      · exact absurd hpc (hi.readers t byte).2
  | print ch =>
    simp only [machine] at h
    split at h
    · next con hcon =>
      cases h
      refine ⟨_, rfl, ⟨hi.decodes.stored, hi.decodes.content, hi.decodes.status⟩, hi.caps, hi.ext,
        hi.sync, hi.readers, ?_⟩
      by_cases hb : s.kbd.console.cursor.toNat = 0 ∧ ch = 0x08#8
      · rw [hb.2, Console.putChar_backspace hb.1] at hcon
        cases hcon
      · obtain ⟨con', hcon', -, hnext, -⟩ := Console.putChar_next hi.cursor hb
        rw [hcon] at hcon'
        cases hcon'
        rw [hnext]
        exact Console.next_lt hi.cursor ch
    · cases h

/-- A step that is not careful goes wrong. -/
theorem step_careless {s : State T} (hi : Inv s) {e : Event T} (hcare : ¬Careful s e)
    {r : Except Halt (State T)} (h : (machine T).step s e = some r) :
    ¬∃ s', r = .ok s' ∧ Decodes s' := by
  cases e with
  | press t k =>
    obtain ⟨-, -, -, hfull, rfl⟩ := step_press h
    obtain ⟨rfl, h0⟩ := not_not.mp hcare
    have hchar := (char_eq_backspace 13 s.kbd.shiftStatus s.kbd.capsLockStatus).mpr rfl
    have hmake := @deliver_make_char T _ s.kbd hi.ext t 13 (by decide) (by decide)
    rw [hchar, echo_backspace (hfull (by decide)) h0] at hmake
    rintro ⟨s', hs', -⟩
    rw [Key.backspace, hmake] at hs'
    cases hs'
  | release t k =>
    obtain ⟨-, rfl⟩ := step_release h
    simp only [Careful, not_forall, not_not] at hcare
    obtain ⟨m, hmod, hboth⟩ := hcare
    obtain ⟨kbd, hkbd, hdec⟩ := release_twin hi t ((mod_eq_some k m).mp hmod) hboth
    rintro ⟨s', hs', hdec'⟩
    rw [hkbd] at hs'
    cases hs'
    exact hdec hdec'
  | getchar t => exact absurd trivial hcare
  | resume t => exact absurd trivial hcare
  | print ch => exact absurd trivial hcare

omit [DecidableEq T] in
theorem inv_init (buf : ℕ → BitVec 8) {console : Console.State}
    (hcur : console.cursor.toNat < 2000) : Inv (init buf console : State T) where
  decodes := ⟨rfl, Ioq.content_init buf, fun m => by cases m <;> rfl⟩
  caps := rfl
  ext := rfl
  sync := ⟨none, Ioq.sync_init buf⟩
  readers _ _ := ⟨nofun, nofun⟩
  cursor := hcur

/-- **The keyboard.**  At every moment of a run the queue has been given the characters of the keys
that were pressed, in order, and the flags say which modifiers are held, if and only if no modifier
is released on one key while its other key is held, and no backspace is typed while the cursor is in
the first cell of the screen. -/
theorem decodes_iff {buf : ℕ → BitVec 8} {console : Console.State}
    (hcur : console.cursor.toNat < 2000) {es : List (Event T)} {r : Except Halt (State T)}
    (h : (machine T).run (init buf console) es = some r) :
    (∀ fs r', fs <+: es → (machine T).run (init buf console) fs = some r' →
        ∃ s, r' = .ok s ∧ Decodes s) ↔
      ∀ fs e s, fs ++ [e] <+: es → (machine T).run (init buf console) fs = some (.ok s) →
        Careful s e :=
  Machine.run_iff_guard (fun _ hi => hi.decodes) (fun _ _ _ hi hc hstep => step_careful hi hc hstep)
    (fun _ _ _ hi hc hstep => step_careless hi hc hstep) (inv_init buf hcur) h

/-- The console of the examples: an empty screen. -/
def blankConsole : Console.State := Console.start 0#8 0#8 fun _ => 0#8

/-- The key of the letter `a` is pressed and released. -/
theorem decodes_iff_letter :
    (∃ s : State Unit, (machine Unit).run (init (fun _ => 0#8) blankConsole)
        [.press () (.plain 29), .release () (.plain 29)] = some (.ok s) ∧
        s.kbd.kbdBuf.stored = [0x61#8]) ∧
      ∀ fs r, fs <+: [.press () (.plain 29), .release () (.plain 29)] →
        (machine Unit).run (init (fun _ => 0#8) blankConsole) fs = some r →
        ∃ s, r = .ok s ∧ Decodes s := by
  obtain ⟨s, hs, htest⟩ := @Machine.run_of_test _ _ _ (machine Unit)
    (init (fun _ => 0#8) blankConsole) [.press () (.plain 29), .release () (.plain 29)]
    (fun s => s.kbd.kbdBuf.stored = [0x61#8]) (by decide +kernel)
  refine ⟨⟨s, hs, of_decide_eq_true htest⟩,
    (decodes_iff (by decide) hs).mpr fun fs e s' hfs _ => ?_⟩
  have hmem : e ∈ [Event.press () (.plain 29), .release () (.plain 29)] :=
    hfs.subset (List.mem_append_right _ (List.mem_singleton.mpr rfl))
  rcases List.mem_cons.mp hmem with rfl | hmem
  · exact fun hb => absurd hb.1 (by decide)
  · rw [List.mem_singleton.mp hmem]
    exact fun m hm => absurd hm (by cases m <;> decide)

/-- Both Shift keys are pressed, the left one is released, and the letter comes out small. -/
theorem not_decodes_two_shifts :
    ∃ s : State Unit, (machine Unit).run (init (fun _ => 0#8) blankConsole)
        [.press () Mod.shift.left, .press () Mod.shift.right, .release () Mod.shift.left,
          .press () (.plain 29)] = some (.ok s) ∧
      anyHeld s.hist .shift = true ∧ s.kbd.shiftStatus = false ∧
      typed s.hist = [0x41#8] ∧ s.kbd.kbdBuf.stored = [0x61#8] ∧ ¬Decodes s := by
  obtain ⟨s, hs, htest⟩ := @Machine.run_of_test _ _ _ (machine Unit)
    (init (fun _ => 0#8) blankConsole)
    [.press () Mod.shift.left, .press () Mod.shift.right, .release () Mod.shift.left,
      .press () (.plain 29)]
    (fun s => anyHeld s.hist .shift = true ∧ s.kbd.shiftStatus = false ∧
      typed s.hist = [0x41#8] ∧ s.kbd.kbdBuf.stored = [0x61#8]) (by decide +kernel)
  obtain ⟨hheld, hstatus, htyped, hstored⟩ := of_decide_eq_true htest
  refine ⟨s, hs, hheld, hstatus, htyped, hstored, fun hdec => ?_⟩
  have := hdec.stored
  rw [htyped, hstored] at this
  exact absurd this (by decide)

end HcOs.Keyboard
