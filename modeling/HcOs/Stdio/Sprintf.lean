import HcOs.Stdio.Vsprintf

/-!
# `sprintf` and the old contents of its buffer (`lib/stdio.c`)

`vsprintf` writes no 0 behind the text: only `strcpy` does, for a `%s`.  A string in the buffer of
`sprintf` therefore ends where the text ends only if the last item of the format is a `%s`, or if
the text itself has a 0, from a `%c`.  Otherwise it goes on with what the buffer held before, and so
does the length that is returned (`ignoresOld_iff`).  `ide_read` and `ide_write` format their panics
into an array that nothing has cleared, with a format that ends in a literal character.
-/

namespace HcOs.Stdio

open HcOs.Lib

/-- `sprintf`; `pFormat` is the place of the parameter `format`, where `va_start` begins. -/
def sprintf (mem : Bytes) (buf format pFormat : ℕ) : Except Halt (Bytes × ℕ) :=
  vsprintf mem buf format pFormat

/-- Whatever the buffer held before, the same value is returned and the same string is left. -/
def IgnoresOld (mem : Bytes) (buf size format pFormat : ℕ) : Prop :=
  ∀ m₁ m₂ : Bytes, (∀ i, Outside buf size i → m₁ i = mem i) →
    (∀ i, Outside buf size i → m₂ i = mem i) →
    ∃ m₁' m₂' r s, sprintf m₁ buf format pFormat = .ok (m₁', r) ∧
      sprintf m₂ buf format pFormat = .ok (m₂', r) ∧ s.length < size ∧
      m₁'.IsStr buf s ∧ m₂'.IsStr buf s

variable {mem m : Bytes} {buf size format pFormat : ℕ} {items : List Item}

/-- The same call with other contents of the buffer. -/
theorem IsCall.same (h : IsCall mem buf size format pFormat items)
    (hsame : ∀ i, Outside buf size i → m i = mem i) : IsCall m buf size format pFormat items where
  notNull := h.notNull
  inSpace := h.inSpace
  fits := h.fits
  ok := h.ok
  isFormat := isStr_same hsame h.formatOutside h.isFormat
  formatInSpace := h.formatInSpace
  formatOutside := h.formatOutside
  args := argsAt_same hsame h.args

theorem IsCall.sprintf_eq {s : List (BitVec 8)} (h : IsCall m buf size format pFormat items)
    (hs : (m.write buf (outOf items)).IsStr buf s) (hlen : s.length < size) :
    sprintf m buf format pFormat = .ok (m.write buf (outOf items), s.length) := by
  have hspace := h.inSpace
  rw [sprintf, vsprintf, h.loop, ok_bind, strlen_eq hs h.notNull (by omega), ok_bind]

/-- The memory after `sprintf`. -/
theorem IsCall.sprintf_mem {m' : Bytes} {r : ℕ} (h : IsCall m buf size format pFormat items)
    (hr : sprintf m buf format pFormat = .ok (m', r)) : m' = m.write buf (outOf items) := by
  rw [sprintf, vsprintf, h.loop, ok_bind] at hr
  obtain ⟨len, -, hpair⟩ := bind_eq_ok.mp hr
  cases hpair
  rfl

theorem length_outOf_le (items : List Item) : (outOf items).length ≤ (textOf items).length + 1 := by
  rcases outOf_cases items with ⟨-, heq⟩ | ⟨-, heq⟩
  · rw [heq, List.length_append, List.length_singleton]
  · rw [heq]
    exact Nat.le_succ _

theorem chr_zero_mem_textOf (h : .chr 0#8 ∈ items) : 0#8 ∈ textOf items :=
  List.mem_flatMap.mpr ⟨_, h, List.mem_singleton.mpr rfl⟩

theorem zero_mem_outOf (h : EndsInStr items ∨ .chr 0#8 ∈ items) : 0#8 ∈ outOf items := by
  rcases outOf_cases items with ⟨-, heq⟩ | ⟨hnot, heq⟩
  · rw [heq]
    exact List.mem_append_right _ (List.mem_singleton.mpr rfl)
  · rw [heq]
    exact chr_zero_mem_textOf (h.resolve_left hnot)

/-- A 0 among the bytes that are written ends the string. -/
theorem ignoresOld_of_zero (h : IsCall mem buf size format pFormat items)
    (hzero : 0#8 ∈ outOf items) : IgnoresOld mem buf size format pFormat := by
  intro m₁ m₂ h₁ h₂
  obtain ⟨s, hlen, hs⟩ := Bytes.exists_isStr_write hzero buf
  have hsize : s.length < size := by
    have hout := length_outOf_le items
    have hfits := h.fits
    omega
  exact ⟨_, _, s.length, s, (h.same h₁).sprintf_eq (hs m₁) hsize,
    (h.same h₂).sprintf_eq (hs m₂) hsize, hsize, hs m₁, hs m₂⟩

/-- Without one, the string of a buffer of zeros is longer as soon as the byte behind the text is
not 0. -/
theorem not_ignoresOld (h : IsCall mem buf size format pFormat items) (hends : ¬EndsInStr items)
    (hchr : .chr 0#8 ∉ items) : ¬IgnoresOld mem buf size format pFormat := by
  intro hold
  have hout : outOf items = textOf items := by
    rcases outOf_cases items with ⟨hstr, -⟩ | ⟨-, heq⟩
    · exact absurd hstr hends
    · exact heq
  have hfits := h.fits
  have hzero : 0#8 ∉ textOf items := by
    refine zero_not_mem_textOf h.ok h.args fun c hc h0 => ?_
    rw [h0] at hc
    exact hchr hc
  have h₁ : ∀ i, Outside buf size i → mem.fill buf 0#8 size i = mem i := fun i hi =>
    Bytes.fill_of_not_mem hi
  have h₂ : ∀ i, Outside buf size i →
      Function.update mem (buf + (textOf items).length) 1#8 i = mem i := fun i hi => by
    unfold Outside at hi
    exact Function.update_of_ne (by omega) _ _
  obtain ⟨m₁', m₂', r, s, hr₁, hr₂, -, hs₁, hs₂⟩ := hold _ _ h₁ h₂
  rw [(h.same h₁).sprintf_mem hr₁, hout] at hs₁
  rw [(h.same h₂).sprintf_mem hr₂, hout] at hs₂
  have htext : s = textOf items := hs₁.unique
    (Bytes.isStr_write hzero (Bytes.fill_of_mem (Nat.le_add_right _ _) (by omega)))
  rw [htext] at hs₂
  have hend := hs₂.at_end
  rw [Bytes.write_of_not_mem (Or.inr (Nat.le_refl _)), Function.update_self] at hend
  exact absurd hend (by decide)

/-- **`sprintf` and its buffer.**  What it returns and leaves does not depend on the old buffer if
and only if the format ends in a `%s` or some `%c` has the argument 0. -/
theorem ignoresOld_iff (h : IsCall mem buf size format pFormat items) :
    IgnoresOld mem buf size format pFormat ↔ EndsInStr items ∨ .chr 0#8 ∈ items := by
  refine ⟨fun hold => ?_, fun hend => ignoresOld_of_zero h (zero_mem_outOf hend)⟩
  by_contra hnot
  rw [not_or] at hnot
  exact not_ignoresOld h hnot.1 hnot.2 hold

/-! ## The panic of `ide_read` -/

/-- `" read sector "`. -/
def readSector : List (BitVec 8) :=
  [0x20#8, 0x72#8, 0x65#8, 0x61#8, 0x64#8, 0x20#8, 0x73#8, 0x65#8, 0x63#8, 0x74#8, 0x6f#8,
    0x72#8, 0x20#8]

/-- `" failed!!!\n"`. -/
def failed : List (BitVec 8) :=
  [0x20#8, 0x66#8, 0x61#8, 0x69#8, 0x6c#8, 0x65#8, 0x64#8, 0x21#8, 0x21#8, 0x21#8, 0x0a#8]

/-- The items of `"%s read sector %d failed!!!\n"`, for sector 5 of the disk `"sdb"`. -/
def ideReadItems : List Item :=
  .str [0x73#8, 0x64#8, 0x62#8] :: readSector.map .lit ++ .dec 5#32 :: failed.map .lit

/-- The name of the disk, the format, the format `"%s"` and the two arguments. -/
def ideReadCall : Bytes :=
  Bytes.putWords (Bytes.write (Bytes.write (Bytes.write (fun _ => 0#8) 0x100
    (formatOf ideReadItems)) 0x180 [0x25#8, 0x73#8]) 0x200 [0x73#8, 0x64#8, 0x62#8])
    0x404 [0x200, 5]

theorem isCall_ideRead : IsCall ideReadCall 0x300 64 0x100 0x400 ideReadItems := by
  constructor <;> decide

theorem isCall_name : IsCall ideReadCall 0x300 64 0x180 0x400 [.str [0x73#8, 0x64#8, 0x62#8]] := by
  constructor <;> decide

/-- The name alone, by `"%s"`. -/
theorem ignoresOld_iff_name : IgnoresOld ideReadCall 0x300 64 0x180 0x400 :=
  (ignoresOld_iff isCall_name).mpr (Or.inl ⟨_, rfl⟩)

/-- The text of `ide_read` is followed by whatever was in its array. -/
theorem not_ignoresOld_ideRead :
    IsCall ideReadCall 0x300 64 0x100 0x400 ideReadItems ∧
      ¬IgnoresOld ideReadCall 0x300 64 0x100 0x400 :=
  ⟨isCall_ideRead, not_ignoresOld isCall_ideRead nofun (by decide)⟩

end HcOs.Stdio
