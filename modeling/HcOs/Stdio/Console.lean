import HcOs.Kernel.Debug
import HcOs.Lib.Bytes

/-!
# The console (`lib/kernel/print.S`)

`put_char` over the video memory and the two cursor registers of the display.  The routine is
translated with its registers: `bx` is 16 bits wide, `jl` compares signed, and a store through `gs`
beyond the limit of the video segment is a general protection fault, whose handler returns to the
store that caused it.

The abstract side is the position of the cursor as a number: `next` says where a character puts it.
`putChar` follows it (`putChar_next`) except at one edge: a backspace in the first cell turns the
cursor into `0xffff`, and the store into one beyond the limit (`putChar_backspace`).

* `stays_iff`: the console stays on its screen exactly as long as no backspace arrives while the
  cursor is in the first cell.
* `putStrLoop_eq`: `put_str` is `put_char` for every character of its string.
-/

namespace HcOs.Console

open HcOs.Lib

/-- The linear address of the video memory, `0xb8000` in the kernel's half. -/
def videoBase : ℕ := 0xc00b8000

/-- The last offset of the video segment: a limit of 7, in units of 4 KiB. -/
def videoLimit : ℕ := 0x7fff

/-- The registers of the display and the memory; `written` are the addresses of the stores so far,
and `rolled` is the memory that the last `put_char` found at `.roll_screen`, if it came there. -/
structure State where
  high : BitVec 8
  low : BitVec 8
  mem : Bytes
  written : List ℕ
  rolled : Option Bytes

namespace State

/-- The cursor, as it is read into `bx`. -/
def cursor (s : State) : BitVec 16 := s.high ++ s.low

/-- `.set_cursor`. -/
def setCursor (s : State) (bx : BitVec 16) : State :=
  { s with high := (bx >>> 8).setWidth 8, low := bx.setWidth 8 }

/-- `mov byte [gs:off], v`. -/
def movByte (s : State) (off : ℕ) (v : BitVec 8) : Except Halt State :=
  if off ≤ videoLimit then
    .ok { s with
      mem := Function.update s.mem (videoBase + off) v
      written := (videoBase + off) :: s.written }
  else .error .noReturn

/-- `mov word [gs:off], 0x0720`. -/
def movBlank (s : State) (off : ℕ) : Except Halt State :=
  if off + 1 ≤ videoLimit then
    .ok { s with
      mem := Bytes.write s.mem (videoBase + off) [0x20#8, 0x07#8]
      written := List.range' (videoBase + off) 2 ++ s.written }
  else .error .noReturn

/-- `movsd`. -/
def movsd (s : State) (esi edi : ℕ) : State :=
  { s with
    mem := s.mem.copy edi s.mem esi 4
    written := List.range' edi 4 ++ s.written }

/-- `rep movsd`. -/
def repMovsd : ℕ → State → ℕ → ℕ → State
  | 0, s, _, _ => s
  | ecx + 1, s, esi, edi => repMovsd ecx (s.movsd esi edi) (esi + 4) (edi + 4)

/-- The loop `.cls`. -/
def cls : ℕ → State → ℕ → Except Halt State
  | 0, s, _ => .ok s
  | ecx + 1, s, ebx => do
    let s ← s.movBlank ebx
    cls ecx s (ebx + 2)

/-- `.roll_screen`, to the end of the routine. -/
def rollScreen (s : State) : Except Halt State := do
  let s := { s with rolled := some s.mem }
  let s := repMovsd 960 s 0xc00b80a0 0xc00b8000
  let s ← cls 80 s 3840
  .ok (s.setCursor 1920#16)

/-- `.is_line_feed` and `.is_carriage_return`, to the end of the routine. -/
def newLine (s : State) (bx : BitVec 16) : Except Halt State :=
  let dx := bx % 80#16
  let bx := bx - dx + 80#16
  if bx.slt 2000#16 then .ok (s.setCursor bx) else s.rollScreen

/-- `.is_backspace`, to the end of the routine. -/
def backspace (s : State) (bx : BitVec 16) : Except Halt State := do
  let bx := (bx - 1#16) <<< 1
  let s ← s.movByte bx.toNat 0x20#8
  let bx := bx + 1#16
  let s ← s.movByte bx.toNat 0x07#8
  .ok (s.setCursor (bx >>> 1))

/-- `.put_other`, to the end of the routine. -/
def putOther (s : State) (bx : BitVec 16) (cl : BitVec 8) : Except Halt State := do
  let bx := bx <<< 1
  let s ← s.movByte bx.toNat cl
  let bx := bx + 1#16
  let s ← s.movByte bx.toNat 0x07#8
  let bx := bx >>> 1
  let bx := bx + 1#16
  if bx.slt 2000#16 then .ok (s.setCursor bx) else s.newLine bx

/-- `put_char`. -/
def putChar (s : State) (cl : BitVec 8) : Except Halt State :=
  let s := { s with rolled := none }
  let bx := s.cursor
  if cl = 0x0d#8 then s.newLine bx
  else if cl = 0x0a#8 then s.newLine bx
  else if cl = 0x08#8 then s.backspace bx
  else s.putOther bx cl

/-- `put_char` for each of the characters. -/
def putChars : State → List (BitVec 8) → Except Halt State
  | s, [] => .ok s
  | s, cl :: l => do
    let s ← s.putChar cl
    putChars s l

/-- The loop `.goon` of `put_str`. -/
def putStrLoop : ℕ → State → ℕ → Except Halt State
  | 0, _, _ => .error .noReturn
  | fuel + 1, s, ebx =>
    let cl := s.mem ebx
    if cl = 0#8 then .ok s
    else do
      let s ← s.putChar cl
      putStrLoop fuel s (ebx + 1)

/-- `put_str`. -/
def putStr (s : State) (str : ℕ) : Except Halt State := putStrLoop (2 ^ 32) s str

end State

/-! ## The cursor as a number -/

/-- Where a character puts the cursor. -/
def next (p : ℕ) (ch : BitVec 8) : ℕ :=
  if ch = 0x0d#8 ∨ ch = 0x0a#8 then if p < 1920 then p - p % 80 + 80 else 1920
  else if ch = 0x08#8 then p - 1
  else if p + 1 < 2000 then p + 1 else 1920

/-- No backspace arrives while the cursor is in the first cell. -/
def NoBackspaceAtStart : ℕ → List (BitVec 8) → Prop
  | _, [] => True
  | p, ch :: l => ¬(p = 0 ∧ ch = 0x08#8) ∧ NoBackspaceAtStart (next p ch) l

theorem next_lt {p : ℕ} (hp : p < 2000) (ch : BitVec 8) : next p ch < 2000 := by
  unfold next
  split_ifs <;> omega

/-! ## What a piece of the routine writes -/

/-- The first 4000 bytes of the video memory. -/
def OnVideo (a : ℕ) : Prop := videoBase ≤ a ∧ a < videoBase + 4000

/-- From `s` to `s'`, only bytes of the screen were stored to, and no other byte changed. -/
def Writes (s s' : State) : Prop :=
  ∃ w, s'.written = w ++ s.written ∧ (∀ a ∈ w, OnVideo a) ∧ ∀ i, i ∉ w → s'.mem i = s.mem i

variable {s s₁ s' : State} {p : ℕ} {ch : BitVec 8}

theorem Writes.refl (s : State) : Writes s s := ⟨[], rfl, nofun, fun _ _ => rfl⟩

theorem Writes.trans (h : Writes s s₁) (h' : Writes s₁ s') : Writes s s' := by
  obtain ⟨w, hw, hon, hmem⟩ := h
  obtain ⟨w', hw', hon', hmem'⟩ := h'
  refine ⟨w' ++ w, by rw [hw', hw, List.append_assoc], fun a ha => ?_, fun i hi => ?_⟩
  · rcases List.mem_append.mp ha with ha | ha
    · exact hon' a ha
    · exact hon a ha
  · rw [List.mem_append, not_or] at hi
    rw [hmem' i hi.1, hmem i hi.2]

/-- A byte that is not on the screen stays as it is. -/
theorem Writes.mem_eq (h : Writes s s') {i : ℕ} (hi : ¬OnVideo i) : s'.mem i = s.mem i := by
  obtain ⟨w, -, hon, hmem⟩ := h
  exact hmem i fun hw => hi (hon i hw)

/-- The registers and the note of a roll are no stores. -/
theorem Writes.of_mem (hw : s'.written = s.written) (hmem : s'.mem = s.mem) : Writes s s' :=
  ⟨[], hw, nofun, fun i _ => congrFun hmem i⟩

theorem movByte_writes {off : ℕ} (hoff : off < 4000) (v : BitVec 8) :
    ∃ s', s.movByte off v = .ok s' ∧ Writes s s' ∧ s'.high = s.high ∧ s'.low = s.low ∧
      s'.rolled = s.rolled := by
  refine ⟨_, if_pos (by unfold videoLimit; omega), ⟨[videoBase + off], rfl, ?_, ?_⟩, rfl, rfl, rfl⟩
  · intro a ha
    rw [List.mem_singleton.mp ha]
    exact ⟨Nat.le_add_right _ _, Nat.add_lt_add_left hoff _⟩
  · intro i hi
    exact Function.update_of_ne (fun h => hi (List.mem_singleton.mpr h)) _ _

/-- A store to a range of the screen. -/
theorem Writes.range {a n : ℕ} (hlo : videoBase ≤ a) (hhi : a + n ≤ videoBase + 4000)
    (hw : s'.written = List.range' a n ++ s.written)
    (hmem : ∀ i, i < a ∨ a + n ≤ i → s'.mem i = s.mem i) : Writes s s' := by
  refine ⟨List.range' a n, hw, fun i hi => ?_, fun i hi => hmem i ?_⟩
  · rw [List.mem_range'_1] at hi
    exact ⟨by omega, by omega⟩
  · rw [List.mem_range'_1] at hi
    omega

/-! ## The roll -/

/-- `rep movsd` to a lower address: no word is overwritten before it is copied. -/
theorem repMovsd_spec (n : ℕ) {esi edi : ℕ} (hlo : videoBase ≤ edi) (hle : edi ≤ esi)
    (hhi : edi + 4 * n ≤ videoBase + 4000) :
    Writes s (State.repMovsd n s esi edi) ∧
      (State.repMovsd n s esi edi).mem = s.mem.copy edi s.mem esi (4 * n) ∧
      (State.repMovsd n s esi edi).rolled = s.rolled := by
  induction n generalizing s esi edi with
  | zero => exact ⟨Writes.refl s, Bytes.copy_zero.symm, rfl⟩
  | succ n ih =>
    have hfirst : Writes s (s.movsd esi edi) :=
      Writes.range hlo (by omega) rfl fun i hi => Bytes.copy_of_not_mem hi
    obtain ⟨hwrites, hmem, hrolled⟩ :=
      @ih (s.movsd esi edi) (esi + 4) (edi + 4) (by omega) (by omega) (by omega)
    refine ⟨hfirst.trans hwrites, ?_, hrolled⟩
    calc (State.repMovsd n (s.movsd esi edi) (esi + 4) (edi + 4)).mem
        = (s.mem.copy edi s.mem esi 4).copy (edi + 4) (s.mem.copy edi s.mem esi 4) (esi + 4)
            (4 * n) := hmem
      _ = (s.mem.copy edi s.mem esi 4).copy (edi + 4) s.mem (esi + 4) (4 * n) :=
          Bytes.copy_congr fun i hi _ => Bytes.copy_of_not_mem (by omega)
      _ = s.mem.copy edi s.mem esi (4 * (n + 1)) := by
          rw [Bytes.copy_append, Nat.mul_succ, Nat.add_comm 4]

/-- The cells from `off` on that `.cls` leaves. -/
def Blank (m : Bytes) (off n : ℕ) : Prop :=
  ∀ k < n, m (videoBase + off + 2 * k) = 0x20#8 ∧ m (videoBase + off + 2 * k + 1) = 0x07#8

theorem cls_spec (n : ℕ) {ebx : ℕ} (hebx : ebx + 2 * n ≤ 4000) :
    ∃ s', State.cls n s ebx = .ok s' ∧ Writes s s' ∧ s'.rolled = s.rolled ∧ Blank s'.mem ebx n ∧
      ∀ i, i < videoBase + ebx → s'.mem i = s.mem i := by
  induction n generalizing s ebx with
  | zero => exact ⟨s, rfl, Writes.refl s, rfl, nofun, fun _ _ => rfl⟩
  | succ n ih =>
    let s₁ : State := { s with
      mem := Bytes.write s.mem (videoBase + ebx) [0x20#8, 0x07#8]
      written := List.range' (videoBase + ebx) 2 ++ s.written }
    have hstep : s.movBlank ebx = .ok s₁ := if_pos (by unfold videoLimit; omega)
    have hfirst : Writes s s₁ :=
      Writes.range (Nat.le_add_right _ _) (by omega) rfl fun i hi => Bytes.write_of_not_mem hi
    obtain ⟨s', hs', hwrites, hrolled, hblank, hkeep⟩ := @ih s₁ (ebx + 2) (by omega)
    refine ⟨s', by rw [State.cls, hstep, ok_bind, hs'], hfirst.trans hwrites, hrolled, ?_, ?_⟩
    · intro k hk
      cases k with
      | zero =>
        rw [hkeep _ (by omega), hkeep _ (by omega), Nat.mul_zero, Nat.add_zero]
        have hcell : ∀ j < 2, s₁.mem (videoBase + ebx + j) = [0x20#8, 0x07#8].getD j 0 := by
          intro j hj
          exact (Bytes.write_of_mem (Nat.le_add_right _ _) (Nat.add_lt_add_left hj _)).trans
            (by rw [Nat.add_sub_cancel_left])
        exact ⟨hcell 0 Nat.zero_lt_two, hcell 1 Nat.one_lt_two⟩
      | succ k =>
        have hcell := hblank k (by omega)
        rwa [show videoBase + (ebx + 2) + 2 * k = videoBase + ebx + 2 * (k + 1) by omega] at hcell
    · intro i hi
      rw [hkeep i (by omega)]
      exact Bytes.write_of_not_mem (Or.inl hi)

/-- What a roll of the memory `m` leaves: the rows 1 to 24 in the rows 0 to 23, a blank row 24, and
the cursor at its start. -/
structure Scrolled (m : Bytes) (s : State) : Prop where
  rows : ∀ i < 3840, s.mem (videoBase + i) = m (videoBase + 160 + i)
  blank : Blank s.mem 3840 80
  cursor : s.cursor = 1920#16

@[simp] theorem mem_setCursor (s : State) (bx : BitVec 16) : (s.setCursor bx).mem = s.mem := rfl

theorem cursor_setCursor (s : State) (bx : BitVec 16) : (s.setCursor bx).cursor = bx := by
  unfold State.cursor State.setCursor
  apply BitVec.eq_of_getLsbD_eq
  intro i hi
  rw [BitVec.getLsbD_append, BitVec.getLsbD_setWidth, BitVec.getLsbD_setWidth,
    BitVec.getLsbD_ushiftRight]
  by_cases hlow : i < 8
  · simp only [hlow, decide_true, Bool.true_and, if_true]
  · have hhigh : i - 8 < 8 := by omega
    simp only [hlow, if_false, hhigh, decide_true, Bool.true_and,
      Nat.add_sub_cancel' (Nat.not_lt.mp hlow)]

theorem rollScreen_spec (s : State) :
    ∃ s', s.rollScreen = .ok s' ∧ Writes s s' ∧ s'.rolled = some s.mem ∧ Scrolled s.mem s' := by
  have hmove := @repMovsd_spec { s with rolled := some s.mem } 960 0xc00b80a0 0xc00b8000
    (by decide) (by decide) (by decide)
  obtain ⟨hmoved, hmem, hrolled⟩ := hmove
  obtain ⟨s', hs', hwrites, hrolled', hblank, hkeep⟩ := @cls_spec
    (State.repMovsd 960 { s with rolled := some s.mem } 0xc00b80a0 0xc00b8000) 80 3840 (by decide)
  refine ⟨s'.setCursor 1920#16, ?_, ?_, hrolled'.trans hrolled, ?_⟩
  · rw [State.rollScreen, hs', ok_bind]
  · have hnote : Writes s { s with rolled := some s.mem } := Writes.of_mem rfl rfl
    exact ((hnote.trans hmoved).trans hwrites).trans (Writes.of_mem rfl rfl)
  · refine ⟨fun i hi => ?_, hblank, cursor_setCursor _ _⟩
    have hsrc : 0xc00b80a0 + (videoBase + i - 0xc00b8000) = videoBase + 160 + i := by
      unfold videoBase
      omega
    rw [mem_setCursor, hkeep _ (by omega), hmem, Bytes.copy_of_mem (by unfold videoBase; omega)
      (by unfold videoBase; omega), hsrc]

/-! ## A character -/

/-- How a piece of the routine ends: with the cursor at `p`, and with a roll or without one. -/
structure Step (s s' : State) (p : ℕ) : Prop where
  writes : Writes s s'
  cursor : s'.cursor.toNat = p
  roll : s'.rolled = s.rolled ∨ ∃ m, s'.rolled = some m ∧ Scrolled m s'

/-- The signed comparison is one of numbers as long as the cursor is not negative. -/
theorem slt_2000 {bx : BitVec 16} (h : bx.toNat < 2 ^ 15) :
    bx.slt 2000#16 = decide (bx.toNat < 2000) := by
  rw [BitVec.slt, BitVec.toInt_eq_toNat_cond, BitVec.toInt_eq_toNat_cond, if_pos (by omega),
    if_pos (by decide), BitVec.toNat_ofNat]
  simp only [decide_eq_decide]
  omega

theorem setCursor_step {bx : BitVec 16} (hs : Writes s s₁) (hrolled : s₁.rolled = s.rolled)
    (hbx : bx.toNat = p) : Step s (s₁.setCursor bx) p :=
  ⟨hs.trans (Writes.of_mem rfl rfl), by rw [cursor_setCursor, hbx], Or.inl hrolled⟩

theorem newLine_step {bx : BitVec 16} (hbx : bx.toNat ≤ 2000) :
    ∃ s', s.newLine bx = .ok s' ∧
      Step s s' (if bx.toNat < 1920 then bx.toNat - bx.toNat % 80 + 80 else 1920) := by
  have hnum : (bx - bx % 80#16 + 80#16).toNat = bx.toNat - bx.toNat % 80 + 80 := by
    have hdx : (bx % 80#16).toNat = bx.toNat % 80 := BitVec.toNat_umod
    rw [BitVec.toNat_add, BitVec.toNat_sub_of_le (by rw [BitVec.le_def, hdx]; exact Nat.mod_le _ _),
      hdx, BitVec.toNat_ofNat]
    omega
  unfold State.newLine
  dsimp only
  rw [slt_2000 (by omega), hnum]
  by_cases hlt : bx.toNat < 1920
  · have hrow : bx.toNat - bx.toNat % 80 + 80 < 2000 := by omega
    rw [decide_eq_true hrow, if_pos rfl, if_pos hlt]
    exact ⟨_, rfl, setCursor_step (Writes.refl s) rfl hnum⟩
  · have hrow : ¬bx.toNat - bx.toNat % 80 + 80 < 2000 := by omega
    rw [decide_eq_false hrow, if_neg Bool.false_ne_true, if_neg hlt]
    obtain ⟨s', hs', hwrites, hrolled, hscroll⟩ := rollScreen_spec s
    exact ⟨s', hs', hwrites, by rw [hscroll.cursor]; rfl, Or.inr ⟨_, hrolled, hscroll⟩⟩

/-- The two stores to a cell. -/
theorem cell_stores (hp : p < 2000) (c : BitVec 8) :
    ∃ s₁ s', s.movByte (2 * p) c = .ok s₁ ∧ s₁.movByte (2 * p + 1) 0x07#8 = .ok s' ∧
      Writes s s' ∧ s'.rolled = s.rolled := by
  obtain ⟨s₁, h₁, hw₁, -, -, hr₁⟩ := @movByte_writes s (2 * p) (by omega) c
  obtain ⟨s', h', hw', -, -, hr'⟩ := @movByte_writes s₁ (2 * p + 1) (by omega) 0x07#8
  exact ⟨s₁, s', h₁, h', hw₁.trans hw', hr'.trans hr₁⟩

section Offsets

variable {bx : BitVec 16} (hbx : bx.toNat = p) (hp : p < 2000)

include hbx hp

theorem toNat_shl : (bx <<< 1).toNat = 2 * p := by
  rw [BitVec.toNat_shiftLeft, hbx, Nat.shiftLeft_eq]
  omega

theorem toNat_shl_inc : (bx <<< 1 + 1#16).toNat = 2 * p + 1 := by
  rw [BitVec.toNat_add, toNat_shl hbx hp, BitVec.toNat_ofNat]
  omega

theorem toNat_shr : ((bx <<< 1 + 1#16) >>> 1).toNat = p := by
  rw [BitVec.toNat_ushiftRight, toNat_shl_inc hbx hp, Nat.shiftRight_eq_div_pow]
  omega

theorem backspace_step (hpos : 0 < p) : ∃ s', s.backspace bx = .ok s' ∧ Step s s' (p - 1) := by
  have hdec : (bx - 1#16).toNat = p - 1 := by
    rw [BitVec.toNat_sub_of_le (by rw [BitVec.le_def, hbx]; exact hpos), hbx]
    rfl
  have hlt : p - 1 < 2000 := by omega
  obtain ⟨s₁, s', h₁, h', hwrites, hrolled⟩ := @cell_stores s (p - 1) hlt 0x20#8
  refine ⟨s'.setCursor (((bx - 1#16) <<< 1 + 1#16) >>> 1), ?_,
    setCursor_step hwrites hrolled (toNat_shr hdec hlt)⟩
  unfold State.backspace
  dsimp only
  rw [toNat_shl hdec hlt, h₁, ok_bind, toNat_shl_inc hdec hlt, h', ok_bind]

theorem putOther_step (cl : BitVec 8) :
    ∃ s', s.putOther bx cl = .ok s' ∧ Step s s' (if p + 1 < 2000 then p + 1 else 1920) := by
  obtain ⟨s₁, s₂, h₁, h₂, hwrites, hrolled⟩ := @cell_stores s p hp cl
  have hinc : ((bx <<< 1 + 1#16) >>> 1 + 1#16).toNat = p + 1 := by
    rw [BitVec.toNat_add, toNat_shr hbx hp, BitVec.toNat_ofNat]
    omega
  unfold State.putOther
  dsimp only
  rw [toNat_shl hbx hp, h₁, ok_bind, toNat_shl_inc hbx hp, h₂, ok_bind, slt_2000 (by omega), hinc]
  by_cases hlt : p + 1 < 2000
  · rw [decide_eq_true hlt, if_pos rfl, if_pos hlt]
    exact ⟨_, rfl, setCursor_step hwrites hrolled hinc⟩
  · rw [decide_eq_false hlt, if_neg Bool.false_ne_true, if_neg hlt]
    -- the full line falls through to the line feed
    obtain ⟨s', hs', hstep⟩ := @newLine_step s₂ _ (by rw [hinc]; omega)
    rw [if_neg (by omega)] at hstep
    refine ⟨s', hs', hwrites.trans hstep.writes, hstep.cursor, ?_⟩
    rw [← hrolled]
    exact hstep.roll

end Offsets

/-- After a roll the screen is as it should be. -/
def Rolled (s : State) : Prop := ∀ m, s.rolled = some m → Scrolled m s

/-- `put_char`, unless it is a backspace in the first cell. -/
theorem putChar_next (hp : s.cursor.toNat < 2000) (hb : ¬(s.cursor.toNat = 0 ∧ ch = 0x08#8)) :
    ∃ s', s.putChar ch = .ok s' ∧ Writes s s' ∧ s'.cursor.toNat = next s.cursor.toNat ch ∧
      Rolled s' := by
  have hnote : Writes s { s with rolled := none } := Writes.of_mem rfl rfl
  have hstep : ∃ s', s.putChar ch = .ok s' ∧
      Step { s with rolled := none } s' (next s.cursor.toNat ch) := by
    unfold State.putChar next
    dsimp only
    by_cases hcr : ch = 0x0d#8
    · rw [if_pos hcr, if_pos (Or.inl hcr)]
      exact newLine_step (Nat.le_of_lt hp)
    · rw [if_neg hcr]
      by_cases hlf : ch = 0x0a#8
      · rw [if_pos hlf, if_pos (Or.inr hlf)]
        exact newLine_step (Nat.le_of_lt hp)
      · rw [if_neg hlf, if_neg (not_or.mpr ⟨hcr, hlf⟩)]
        by_cases hbs : ch = 0x08#8
        · rw [if_pos hbs, if_pos hbs]
          exact backspace_step rfl hp (Nat.pos_of_ne_zero fun h0 => hb ⟨h0, hbs⟩)
        · rw [if_neg hbs, if_neg hbs]
          exact putOther_step rfl hp ch
  obtain ⟨s', hs', hwrites, hcursor, hroll⟩ := hstep
  refine ⟨s', hs', hnote.trans hwrites, hcursor, fun m hm => ?_⟩
  rcases hroll with hnone | ⟨m', hm', hscroll⟩
  · rw [hm] at hnone
    cases hnone
  · rw [hm] at hm'
    cases hm'
    exact hscroll

/-- A backspace in the first cell does not return. -/
theorem putChar_backspace (h0 : s.cursor.toNat = 0) : s.putChar 0x08#8 = .error .noReturn := by
  have hbx : s.cursor = 0#16 := BitVec.eq_of_toNat_eq h0
  have hlimit : ¬((0#16 - 1#16) <<< 1).toNat ≤ videoLimit := by decide
  unfold State.putChar State.backspace
  dsimp only
  rw [if_neg (by decide), if_neg (by decide), if_pos rfl]
  have hcur : State.cursor { s with rolled := none } = 0#16 := hbx
  rw [hcur, State.movByte, if_neg hlimit, error_bind]

/-! ## Main result -/

/-- The console before the first character. -/
def start (high low : BitVec 8) (mem : Bytes) : State := ⟨high, low, mem, [], none⟩

/-- The cursor and all stores so far are on the screen. -/
def OnScreen (s : State) : Prop := s.cursor.toNat < 2000 ∧ ∀ a ∈ s.written, OnVideo a

/-- Each of the characters is put, and leaves the console on its screen; a roll moves the rows. -/
def Stays : State → List (BitVec 8) → Prop
  | _, [] => True
  | s, ch :: l => ∃ s', s.putChar ch = .ok s' ∧ OnScreen s' ∧ Rolled s' ∧ Stays s' l

theorem Writes.onVideo (h : Writes s s') (hs : ∀ a ∈ s.written, OnVideo a) :
    ∀ a ∈ s'.written, OnVideo a := by
  obtain ⟨w, hw, hon, -⟩ := h
  intro a ha
  rw [hw, List.mem_append] at ha
  rcases ha with ha | ha
  · exact hon a ha
  · exact hs a ha

/-- The run of characters, by induction on them. -/
theorem stays_iff_of_onScreen (h : OnScreen s) (l : List (BitVec 8)) :
    Stays s l ↔ NoBackspaceAtStart s.cursor.toNat l := by
  induction l generalizing s with
  | nil => exact Iff.rfl
  | cons ch l ih =>
    unfold Stays NoBackspaceAtStart
    by_cases hb : s.cursor.toNat = 0 ∧ ch = 0x08#8
    · refine ⟨fun hstays => ?_, fun hno => absurd hb hno.1⟩
      obtain ⟨s', hs', -⟩ := hstays
      rw [hb.2, putChar_backspace hb.1] at hs'
      cases hs'
    · obtain ⟨s', hs', hwrites, hcursor, hroll⟩ := putChar_next h.1 hb
      have hon : OnScreen s' := ⟨by rw [hcursor]; exact next_lt h.1 ch, hwrites.onVideo h.2⟩
      rw [← hcursor]
      refine ⟨fun hstays => ⟨hb, ?_⟩, fun hno => ⟨s', hs', hon, hroll, (ih hon).mpr hno.2⟩⟩
      obtain ⟨s₁, hs₁, -, -, hrest⟩ := hstays
      rw [hs'] at hs₁
      cases hs₁
      exact (ih hon).mp hrest

/-- **The console.**  From a cursor on the screen, every character leaves the cursor and all stores
on the screen, and every roll moves the rows, if and only if no backspace arrives while the cursor
is in the first cell. -/
theorem stays_iff (high low : BitVec 8) (mem : Bytes) (l : List (BitVec 8))
    (h : (high ++ low).toNat < 2000) :
    Stays (start high low mem) l ↔ NoBackspaceAtStart (high ++ low).toNat l := by
  have hon : OnScreen (start high low mem) := ⟨h, nofun⟩
  exact stays_iff_of_onScreen hon l

/-- A letter and the backspace that takes it back. -/
theorem stays_iff_letter : Stays (start 0#8 0#8 fun _ => 0#8) [0x41#8, 0x08#8] :=
  (stays_iff 0#8 0#8 (fun _ => 0#8) [0x41#8, 0x08#8] (by decide)).mpr
    ⟨by decide, by decide, trivial⟩

/-- The backspace alone. -/
theorem not_stays_backspace :
    (0#8 ++ 0#8).toNat < 2000 ∧ ¬Stays (start 0#8 0#8 fun _ => 0#8) [0x08#8] := by
  refine ⟨by decide, ?_⟩
  rintro ⟨s', hs', -⟩
  rw [putChar_backspace rfl] at hs'
  cases hs'

/-! ## `put_str` -/

/-- A console that stays on its screen takes all characters. -/
theorem Stays.putChars {l : List (BitVec 8)} (hs : OnScreen s) (h : Stays s l) :
    ∃ s', s.putChars l = .ok s' ∧ OnScreen s' := by
  induction l generalizing s with
  | nil => exact ⟨s, rfl, hs⟩
  | cons ch l ih =>
    obtain ⟨s₁, hs₁, hon, -, hrest⟩ := h
    obtain ⟨s', hs', hon'⟩ := ih hon hrest
    exact ⟨s', by rw [State.putChars, hs₁, ok_bind, hs'], hon'⟩

/-- `put_str` of a string that is not on the screen. -/
theorem putStrLoop_eq {fuel a : ℕ} {l : List (BitVec 8)} (hp : s.cursor.toNat < 2000)
    (hfuel : l.length < fuel) (hl : s.mem.IsStr a l) (haway : ∀ i ≤ l.length, ¬OnVideo (a + i)) :
    State.putStrLoop fuel s a = s.putChars l := by
  induction l generalizing s a fuel with
  | nil =>
    obtain ⟨fuel, rfl⟩ := Nat.exists_eq_succ_of_ne_zero (Nat.ne_of_gt hfuel)
    exact if_pos hl
  | cons ch l ih =>
    obtain ⟨fuel, rfl⟩ := Nat.exists_eq_succ_of_ne_zero (Nat.ne_of_gt (Nat.zero_lt_of_lt hfuel))
    obtain ⟨hch, hne, hrest⟩ := hl
    rw [List.length_cons] at hfuel haway
    rw [State.putStrLoop, State.putChars, hch, if_neg hne]
    by_cases hb : s.cursor.toNat = 0 ∧ ch = 0x08#8
    · rw [hb.2, putChar_backspace hb.1, error_bind, error_bind]
    · obtain ⟨s', hs', hwrites, hcursor, -⟩ := putChar_next hp hb
      have haway' : ∀ i ≤ l.length, ¬OnVideo (a + 1 + i) := fun i hi => by
        rw [Nat.add_assoc]
        exact haway (1 + i) (by omega)
      have hrest' : s'.mem.IsStr (a + 1) l := hrest.congr fun i hlo hhi => hwrites.mem_eq (by
        have := haway' (i - (a + 1)) (by omega)
        rwa [Nat.add_sub_cancel' hlo] at this)
      rw [hs', ok_bind, ok_bind]
      exact ih (by rw [hcursor]; exact next_lt hp ch) (by omega) hrest' haway'

/-- `put_str` keeps the console on its screen under the same condition. -/
theorem putStr_onScreen {a : ℕ} {l : List (BitVec 8)} (hs : OnScreen s)
    (hlen : l.length < 2 ^ 32) (hl : s.mem.IsStr a l) (haway : ∀ i ≤ l.length, ¬OnVideo (a + i))
    (hno : NoBackspaceAtStart s.cursor.toNat l) : ∃ s', s.putStr a = .ok s' ∧ OnScreen s' := by
  rw [State.putStr, putStrLoop_eq hs.1 hlen hl haway]
  exact Stays.putChars hs ((stays_iff_of_onScreen hs l).mpr hno)

end HcOs.Console
