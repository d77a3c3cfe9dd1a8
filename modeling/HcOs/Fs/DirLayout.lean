import HcOs.Fs.Dir

/-!
# The layout of a directory

A directory holds a list of entries, 21 to a sector, in the sectors its pointers name: entry `j`
is in slot `j % 21` of block `j / 21`, and the slots behind the last entry are clear.  `Stored` says
this of the disk, `Pointers` of the 140-word table that the loops of `dir.c` walk through.

* `strcmp_eq_zero_iff`: when two names are the same.
* `searchBlocks_spec`: `search_dir_entry` finds an entry with the name, if there is one.
-/

namespace HcOs.Fs

open HcOs.Lib HcOs.Sectors
open HcOs.Disk (maxLba)

/-! ## Names -/

/-- A name that fits into an entry with its terminator. -/
structure NameOk (name : Str) : Prop where
  nonempty : name ≠ []
  short : name.length < maxFileNameLen
  noNul : ∀ c ∈ name, c ≠ 0#8

/-- A name that can be searched for, of any length. -/
structure IsName (name : Str) : Prop where
  nonempty : name ≠ []
  noNul : ∀ c ∈ name, c ≠ 0#8

theorem NameOk.isName {name : Str} (h : NameOk name) : IsName name := ⟨h.nonempty, h.noNul⟩

theorem slt_of_ne {x y : BitVec 8} (hne : x ≠ y) (hxy : x.slt y ≠ true) : y.slt x = true := by
  rw [Ne, BitVec.slt_iff_toInt_lt] at hxy
  rw [BitVec.slt_iff_toInt_lt]
  have hint : x.toInt ≠ y.toInt := fun h => hne (BitVec.eq_of_toInt_eq h)
  omega

/-- `strcmp` returns 0 exactly when the bytes agree up to the terminator. -/
theorem strcmp_eq_zero_iff {m : Bytes} {name : Str} (hname : ∀ c ∈ name, c ≠ 0#8) (a : ℕ) :
    strcmp m a name = 0 ↔ ∀ i, i ≤ name.length → m (a + i) = name.getD i 0#8 := by
  induction name generalizing a with
  | nil =>
    unfold strcmp
    constructor
    · intro h i hi
      rw [show i = 0 by simpa using hi, Nat.add_zero, List.getD_nil]
      by_contra hne
      rw [if_neg hne] at h
      split at h <;> cases h
    · intro h
      have h0 := h 0 (Nat.zero_le _)
      rw [Nat.add_zero, List.getD_nil] at h0
      rw [if_pos h0]
  | cons c name ih =>
    have hc : c ≠ 0#8 := hname c List.mem_cons_self
    have htail := ih (fun x hx => hname x (List.mem_cons_of_mem c hx)) (a + 1)
    unfold strcmp
    by_cases hma : m a = c
    · rw [if_pos ⟨hma ▸ hc, hma⟩, htail]
      constructor
      · intro h i hi
        cases i with
        | zero => exact hma
        | succ i =>
          rw [show a + (i + 1) = a + 1 + i by omega, List.getD_cons_succ]
          exact h i (by simpa using hi)
      · intro h i hi
        have hi' := h (i + 1) (by simpa using hi)
        rw [show a + (i + 1) = a + 1 + i by omega, List.getD_cons_succ] at hi'
        exact hi'
    · rw [if_neg fun h => hma h.2]
      constructor
      · intro h
        exfalso
        split at h
        · cases h
        · next hlt =>
          rw [if_pos (slt_of_ne hma hlt)] at h
          cases h
      · intro h
        have h0 := h 0 (Nat.zero_le _)
        rw [Nat.add_zero, List.getD_cons_zero] at h0
        exact absurd h0 hma

/-- Two names are equal if their padded forms are. -/
theorem name_eq_of_getD {x y : Str} (hx : IsName x) (hy : IsName y)
    (h : ∀ i, i ≤ y.length → x.getD i 0#8 = y.getD i 0#8) : x = y := by
  have hlen : x.length = y.length := by
    rcases Nat.lt_trichotomy x.length y.length with hlt | heq | hgt
    · have hend := h x.length (by omega)
      rw [List.getD_eq_default _ _ (Nat.le_refl _), List.getD_eq_getElem _ _ hlt] at hend
      exact absurd hend.symm (hy.noNul _ (List.getElem_mem hlt))
    · exact heq
    · have hend := h y.length (Nat.le_refl _)
      rw [List.getD_eq_getElem _ _ hgt, List.getD_eq_default _ _ (Nat.le_refl _)] at hend
      exact absurd hend (hx.noNul _ (List.getElem_mem hgt))
  refine List.ext_getElem hlen fun i hi hi' => ?_
  have hbyte := h i (by omega)
  rwa [List.getD_eq_getElem _ _ hi, List.getD_eq_getElem _ _ hi'] at hbyte

/-! ## Entries -/

/-- The arguments of `create_dir_entry`. -/
structure DirEntry where
  name : Str
  iNo : BitVec 32
  fType : BitVec 8
  deriving DecidableEq, Repr

/-- An entry as `create_dir_entry` leaves it in a cleared `struct dir_entry`. -/
def DirEntry.bytes (e : DirEntry) : Bytes :=
  ((putName zeros 0 e.name).putWord 16 e.iNo.toNat).putWord 20 e.fType.toNat

theorem createDirEntry_eq {e : DirEntry} (h : e.name.length ≤ maxFileNameLen) :
    createDirEntry e.name e.iNo.toNat e.fType zeros = .ok e.bytes :=
  assert_bind_of h _

theorem DirEntry.bytes_field (e : DirEntry) {i : ℕ} (hi : i < 16) :
    e.bytes i = e.name.getD i 0#8 := by
  unfold bytes putName
  rw [Bytes.putWord_of_not_mem (by omega), Bytes.putWord_of_not_mem (by omega)]
  by_cases hin : i < e.name.length
  · rw [Bytes.copy_of_mem (Nat.zero_le i) (by omega), Nat.sub_zero, Nat.zero_add]
  · rw [Bytes.copy_of_not_mem (by omega), List.getD_eq_default _ _ (by omega)]
    rfl

theorem DirEntry.bytes_iNo (e : DirEntry) : e.bytes.getWord 16 = e.iNo.toNat := by
  unfold bytes
  rw [Bytes.getWord_putWord_of_apart (by omega), Bytes.getWord_putWord]
  exact Nat.mod_eq_of_lt e.iNo.isLt

theorem DirEntry.bytes_fType (e : DirEntry) : e.bytes.getWord 20 = e.fType.toNat := by
  have hlt := e.fType.isLt
  unfold bytes
  rw [Bytes.getWord_putWord]
  exact Nat.mod_eq_of_lt (by omega)

/-! ## Sectors of entries -/

/-- The bytes of slot `j`. -/
def slotBytes (es : List DirEntry) (j : ℕ) : Bytes :=
  match es[j]? with
  | some e => e.bytes
  | none => zeros

theorem slotBytes_some {es : List DirEntry} {j : ℕ} {e : DirEntry} (h : es[j]? = some e) :
    slotBytes es j = e.bytes := by
  unfold slotBytes
  rw [h]

theorem slotBytes_none {es : List DirEntry} {j : ℕ} (h : es[j]? = none) : slotBytes es j = zeros := by
  unfold slotBytes
  rw [h]

/-- The bytes from `a` on hold the slots `j, …, j + 20`. -/
def Holds (m : Bytes) (a : ℕ) (es : List DirEntry) (j : ℕ) : Prop :=
  ∀ i, i < 504 → m (a + i) = slotBytes es (j + i / 24) (i % 24)

variable {m : Bytes} {es : List DirEntry} {a j q : ℕ} {name : Str}

theorem Holds.byte (h : Holds m a es j) (hq : q < 21) {i : ℕ} (hi : i < 24) :
    m (a + q * dirEntrySize + i) = slotBytes es (j + q) i := by
  have hbyte := h (q * 24 + i) (by omega)
  rw [show (q * 24 + i) / 24 = q by omega, show (q * 24 + i) % 24 = i by omega, ← Nat.add_assoc] at hbyte
  exact hbyte

theorem Holds.word (h : Holds m a es j) (hq : q < 21) {i : ℕ} (hi : i + 4 ≤ 24) :
    m.getWord (a + q * dirEntrySize + i) = (slotBytes es (j + q)).getWord i :=
  Bytes.getWord_congr fun k hk => by
    rw [Nat.add_assoc]
    exact h.byte hq (by omega)

/-- The name of an entry ends inside the entry, so a longer name is not it. -/
theorem Holds.strcmp_long (h : Holds m a es j) (hes : ∀ e ∈ es, NameOk e.name) (hname : IsName name)
    (hlong : 16 ≤ name.length) (hq : q < 21) : strcmp m (a + q * dirEntrySize) name ≠ 0 := by
  rw [Ne, strcmp_eq_zero_iff hname.noNul]
  intro hall
  -- the terminator of the slot would be a character of the name
  obtain ⟨i, hi, hend⟩ : ∃ i, i < 16 ∧ slotBytes es (j + q) i = 0#8 := by
    cases hslot : es[j + q]? with
    | none => exact ⟨0, by omega, by rw [slotBytes_none hslot]; rfl⟩
    | some e =>
      have he := hes e (List.mem_of_getElem? hslot)
      refine ⟨e.name.length, he.short, ?_⟩
      rw [slotBytes_some hslot, e.bytes_field he.short,
        List.getD_eq_default _ _ (Nat.le_refl _)]
  have hbyte := hall i (by omega)
  rw [h.byte hq (by omega), hend, List.getD_eq_getElem _ _ (by omega)] at hbyte
  exact hname.noNul _ (List.getElem_mem _) hbyte.symm

/-- The test of `search_dir_entry`. -/
theorem Holds.strcmp_iff (h : Holds m a es j) (hes : ∀ e ∈ es, NameOk e.name) (hname : IsName name)
    (hq : q < 21) :
    strcmp m (a + q * dirEntrySize) name = 0 ↔ ∃ e, es[j + q]? = some e ∧ e.name = name := by
  by_cases hshort : name.length < 16
  · rw [strcmp_eq_zero_iff hname.noNul]
    constructor
    · intro hall
      cases hslot : es[j + q]? with
      | none =>
        -- a clear slot has the empty name
        have h0 := hall 0 (Nat.zero_le _)
        rw [h.byte hq (by omega), slotBytes_none hslot] at h0
        obtain ⟨c, tail, rfl⟩ := List.exists_cons_of_ne_nil hname.nonempty
        exact absurd h0.symm (hname.noNul c List.mem_cons_self)
      | some e =>
        have he := hes e (List.mem_of_getElem? hslot)
        refine ⟨e, rfl, name_eq_of_getD he.isName hname fun i hi => ?_⟩
        have hbyte := hall i hi
        rw [h.byte hq (by omega), slotBytes_some hslot] at hbyte
        rw [← hbyte, e.bytes_field (by omega)]
    · rintro ⟨e, hslot, rfl⟩ i hi
      rw [h.byte hq (by omega), slotBytes_some hslot]
      exact e.bytes_field (by omega)
  · refine iff_of_false (h.strcmp_long hes hname (by omega) hq) ?_
    rintro ⟨e, hslot, rfl⟩
    exact hshort (hes e (List.mem_of_getElem? hslot)).short

/-- A loop that returns the first index with a property. -/
theorem firstIndex_spec {P : ℕ → Prop} [DecidablePred P] {f : ℕ → ℕ → Option ℕ}
    (hzero : ∀ idx, f 0 idx = none)
    (hsucc : ∀ left idx, f (left + 1) idx = if P idx then some idx else f left (idx + 1))
    (left idx : ℕ) :
    (∃ q, f left idx = some q ∧ q < idx + left ∧ P q) ∨
      (f left idx = none ∧ ∀ q, idx ≤ q → q < idx + left → ¬P q) := by
  induction left generalizing idx with
  | zero => exact Or.inr ⟨hzero idx, fun q hq hq' => by omega⟩
  | succ left ih =>
    rw [hsucc]
    by_cases hhit : P idx
    · rw [if_pos hhit]
      exact Or.inl ⟨idx, rfl, by omega, hhit⟩
    · rw [if_neg hhit]
      rcases ih (idx + 1) with ⟨q, hsome, hlt, hq⟩ | ⟨hnone, hmiss⟩
      · exact Or.inl ⟨q, hsome, by omega, hq⟩
      · refine Or.inr ⟨hnone, fun q hq hq' => ?_⟩
        by_cases hqi : q = idx
        · rw [hqi]
          exact hhit
        · exact hmiss q (by omega) (by omega)

theorem searchSector_spec (buf : Bytes) (name : Str) (left idx : ℕ) :
    (∃ q, searchSector buf name left idx = some q ∧ q < idx + left ∧
        strcmp buf (q * dirEntrySize) name = 0) ∨
      (searchSector buf name left idx = none ∧
        ∀ q, idx ≤ q → q < idx + left → strcmp buf (q * dirEntrySize) name ≠ 0) :=
  firstIndex_spec (fun _ => rfl) (fun _ _ => rfl) left idx

/-! ## The blocks of a directory -/

/-- Block `k` holds the entries from `21 * k` on. -/
structure Stored (disk : Bytes) (ptrs : List ℕ) (es : List DirEntry) : Prop where
  names : ∀ e ∈ es, NameOk e.name
  room : es.length ≤ 21 * ptrs.length
  blocks : ∀ k p, ptrs[k]? = some p → p ≠ 0 ∧ p ≤ maxLba ∧ Holds disk (p * 512) es (21 * k)

/-- A table of 140 pointers, the missing ones being 0. -/
def Pointers (allBlocks : Bytes) (ptrs : List ℕ) : Prop :=
  ∀ k, k < 140 → allBlocks.getWord (4 * k) = ptrs.getD k 0

theorem Holds.read {disk : Bytes} {p : ℕ} (h : Holds disk (p * 512) es j) (buf : Bytes) :
    Holds (buf.copy 0 disk (p * 512) 512) 0 es j := by
  intro i hi
  rw [Nat.zero_add, Bytes.copy_of_mem (Nat.zero_le i) (by omega), Nat.sub_zero]
  exact h i hi

theorem ideRead_sector {disk buf : Bytes} {devNo p b : ℕ} (hp : p ≤ maxLba) :
    ideRead disk devNo p buf b 1 = .ok (buf.copy b disk (p * 512) 512) := by
  rw [ideRead_eq (Nat.le_refl 1) (by omega), Nat.one_mul]

theorem ideWrite_sector {disk buf : Bytes} {devNo p b : ℕ} (hp : p ≤ maxLba) :
    ideWrite disk devNo p buf b 1 = .ok (disk.copy (p * 512) buf b 512) := by
  rw [ideWrite_eq (Nat.le_refl 1) (by omega), Nat.one_mul]

variable {part : Mounted} {disk allBlocks : Bytes} {ptrs : List ℕ}

/-- From block `idx` on, the search returns an entry with the name, or there is none. -/
theorem searchBlocks_spec (hsize : part.sb.dirEntrySize = 24) (hst : Stored disk ptrs es)
    (hptr : Pointers allBlocks ptrs) (hname : IsName name) (dirE : Bytes) (left idx : ℕ)
    (hidx : idx + left = 140) :
    (∃ e ∈ es, e.name = name ∧ ∃ r, searchBlocks part disk allBlocks name dirE left idx = .ok (some r) ∧
        ∀ i, i < 24 → r i = e.bytes i) ∨
      (searchBlocks part disk allBlocks name dirE left idx = .ok none ∧
        ∀ i e, 21 * idx ≤ i → i < 21 * 140 → es[i]? = some e → e.name ≠ name) := by
  induction left generalizing idx with
  | zero => exact Or.inr ⟨rfl, fun i e hi hi' => by omega⟩
  | succ left ih =>
    unfold searchBlocks
    dsimp only
    rw [hptr idx (by omega)]
    cases hp : ptrs[idx]? with
    | none =>
      -- the block is missing, and so are the entries behind it
      have hlen := List.getElem?_eq_none_iff.mp hp
      have hroom := hst.room
      rw [List.getD_eq_default _ _ hlen, if_pos rfl]
      rcases ih (idx + 1) (by omega) with hfound | ⟨hnone, -⟩
      · exact Or.inl hfound
      · refine Or.inr ⟨hnone, fun i e hi _ he => ?_⟩
        obtain ⟨hlt, -⟩ := List.getElem?_eq_some_iff.mp he
        omega
    | some p =>
      obtain ⟨h0, hmax, hholds⟩ := hst.blocks idx p hp
      have hget : ptrs.getD idx 0 = p := by rw [List.getD_eq_getElem?_getD, hp, Option.getD_some]
      have hread := hholds.read zeros
      rw [hget, if_neg h0, ideRead_sector hmax, ok_bind, hsize]
      rcases searchSector_spec (zeros.copy 0 disk (p * 512) 512) name (sectorSize / 24) 0 with
        ⟨q, hsome, hlt, hq⟩ | ⟨hnone, hmiss⟩
      · have hq21 : q < 21 := hlt
        rw [← Nat.zero_add (q * dirEntrySize), hread.strcmp_iff hst.names hname hq21] at hq
        obtain ⟨e, hslot, hen⟩ := hq
        refine Or.inl ⟨e, List.mem_of_getElem? hslot, hen, ?_⟩
        rw [hsome]
        refine ⟨_, rfl, fun i hi => ?_⟩
        have hbyte := hread.byte hq21 hi
        rw [Nat.zero_add, slotBytes_some hslot] at hbyte
        rw [Bytes.copy_of_mem (Nat.zero_le i) (by omega), Nat.sub_zero, hbyte]
      · rw [hnone]
        rcases ih (idx + 1) (by omega) with hfound | ⟨hnone', hmiss'⟩
        · exact Or.inl hfound
        · refine Or.inr ⟨hnone', fun i e hi hi' he hen => ?_⟩
          by_cases hblock : i < 21 * (idx + 1)
          · have hq := hmiss (i - 21 * idx) (Nat.zero_le _) (by unfold sectorSize; omega)
            rw [← Nat.zero_add (_ * dirEntrySize), Ne, hread.strcmp_iff hst.names hname (by omega)] at hq
            refine hq ⟨e, ?_, hen⟩
            rw [show 21 * idx + (i - 21 * idx) = i by omega]
            exact he
          · exact hmiss' i e (by omega) hi' he hen

end HcOs.Fs
