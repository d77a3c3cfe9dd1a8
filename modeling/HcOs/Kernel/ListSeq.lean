import HcOs.Kernel.List
import HcOs.Lib.Bytes

/-!
# Lists as sequences (`kernel/list.c`)

A `struct list` in memory stands for the sequence of its elements.  `Represents` says so of the
bytes: from `head` to `tail` the `next` words go through the elements of the sequence, and the
`prev` words go back.

* `lenLoop_eq`, `traversalLoop_spec`: the walks, over any heap of nodes.
* `links_lawful`: elements that are objects of their own do not share a link.
* `list_refines`: what each function does to the sequence, and that it leaves everything else alone.
-/

namespace HcOs.ListSeq

open HcOs.Lib
open HcOs.Lib.LinkHeap (nodes mem_nodes)

/-! ## Walks -/

section Walks

variable {H N : Type} [DecidableEq N] {L : LinkHeap H N} {V : N → Prop} {func : Callback H N}
  {arg : BitVec 32} {h h' : H} {l : Sentinels N} {xs zs : List N} {e : N}

/-- The callback is called on the elements one after the other, and returns false. -/
inductive Refused (func : Callback H N) (arg : BitVec 32) : H → List N → H → Prop
  | nil (h : H) : Refused func arg h [] h
  | cons {h h₁ h₂ : H} {e : N} {es : List N} (hcall : func h e arg = .ok (false, h₁))
    (hrest : Refused func arg h₁ es h₂) : Refused func arg h (e :: es) h₂

/-- `e` is the first element on which the callback returns true. -/
def FirstAccepted (func : Callback H N) (arg : BitVec 32) (h : H) (xs : List N) (e : N) (h' : H) :
    Prop :=
  ∃ ys zs h₁, xs = ys ++ e :: zs ∧ Refused func arg h ys h₁ ∧ func h₁ e arg = .ok (true, h')

/-- The callback returns, and leaves the list as it is. -/
def LeavesList (L : LinkHeap H N) (V : N → Prop) (l : Sentinels N) (xs : List N)
    (func : Callback H N) (arg : BitVec 32) : Prop :=
  ∀ h, L.IsList V h l xs → ∀ e ∈ xs, ∃ found h', func h e arg = .ok (found, h') ∧ L.IsList V h' l xs

omit [DecidableEq N] in
theorem FirstAccepted.cons {h₁ : H} {x : N} (hcall : func h x arg = .ok (false, h₁))
    (hrest : FirstAccepted func arg h₁ xs e h') : FirstAccepted func arg h (x :: xs) e h' := by
  obtain ⟨ys, zs, h₂, rfl, hrefused, haccepted⟩ := hrest
  exact ⟨x :: ys, zs, h₂, rfl, .cons hcall hrefused, haccepted⟩

/-! A callback that only looks at the element and the memory. -/

variable {p : H → N → BitVec 32 → Bool}

omit [DecidableEq N] in
theorem Refused.of_test (hrefused : Refused (fun h e arg => .ok (p h e arg, h)) arg h xs h') :
    h' = h ∧ ∀ e ∈ xs, p h e arg = false := by
  induction hrefused with
  | nil h => exact ⟨rfl, nofun⟩
  | cons hcall _ ih =>
    obtain ⟨rfl, hall⟩ := ih
    simp only [Except.ok.injEq, Prod.mk.injEq] at hcall
    obtain ⟨hfalse, rfl⟩ := hcall
    exact ⟨rfl, List.forall_mem_cons.mpr ⟨hfalse, hall⟩⟩

omit [DecidableEq N] in
theorem FirstAccepted.of_test
    (haccepted : FirstAccepted (fun h e arg => .ok (p h e arg, h)) arg h xs e h') :
    h' = h ∧ xs.find? (p h · arg) = some e := by
  obtain ⟨ys, zs, h₁, rfl, hrefused, hcall⟩ := haccepted
  obtain ⟨rfl, hall⟩ := hrefused.of_test
  simp only [Except.ok.injEq, Prod.mk.injEq] at hcall
  obtain ⟨htrue, rfl⟩ := hcall
  refine ⟨rfl, List.find?_eq_some_iff_append.mpr ⟨htrue, ys, zs, rfl, fun a ha => ?_⟩⟩
  rw [hall a ha]
  rfl

variable (hL : L.Lawful V)
include hL

/-- The loop of `list_len` from the element of `zs` on which it stands. -/
theorem lenLoop_eq (pre : List N) {fuel n : ℕ} (hl : L.IsList V h l (pre ++ zs))
    (hfuel : zs.length < fuel) (hn : n + zs.length < 2 ^ 32) :
    lenLoop L h l fuel ((zs ++ [l.tail]).head (by simp)) n = .ok (n + zs.length) := by
  induction zs generalizing pre fuel n with
  | nil =>
    obtain ⟨fuel, rfl⟩ := Nat.exists_eq_add_of_lt hfuel
    exact if_pos rfl
  | cons x zs ih =>
    obtain ⟨fuel, rfl⟩ : ∃ k, fuel = k + 1 := ⟨fuel - 1, by omega⟩
    have hrest : L.IsList V h l ((pre ++ [x]) ++ zs) := by
      rw [List.append_assoc]
      exact hl
    rw [List.length_cons] at hfuel hn ⊢
    show lenLoop L h l (fuel + 1) x n = _
    rw [lenLoop, if_neg hl.ne_tail, hl.getNext_mem hL, Nat.mod_eq_of_lt (by omega)]
    refine (ih (pre ++ [x]) hrest (by omega) (by omega)).trans ?_
    rw [Nat.add_assoc, Nat.add_comm 1]

/-- The loop of `list_traversal` from the element of `zs` on which it stands. -/
theorem traversalLoop_spec (pre : List N) {fuel : ℕ} (hl : L.IsList V h l (pre ++ zs))
    (hfunc : LeavesList L V l (pre ++ zs) func arg) (hfuel : zs.length < fuel) :
    ∃ r h', traversalLoop L l func arg fuel h ((zs ++ [l.tail]).head (by simp)) = .ok (r, h') ∧
      L.IsList V h' l (pre ++ zs) ∧
      (FirstAccepted func arg h zs r h' ∨ Refused func arg h zs h' ∧ r = L.null) := by
  induction zs generalizing pre fuel h with
  | nil =>
    obtain ⟨fuel, rfl⟩ := Nat.exists_eq_add_of_lt hfuel
    exact ⟨L.null, h, if_pos rfl, hl, Or.inr ⟨.nil h, rfl⟩⟩
  | cons x zs ih =>
    obtain ⟨fuel, rfl⟩ : ∃ k, fuel = k + 1 := ⟨fuel - 1, by omega⟩
    rw [List.length_cons] at hfuel
    obtain ⟨found, h₁, hcall, hl₁⟩ := hfunc h hl x (by simp)
    have hsplit : pre ++ x :: zs = (pre ++ [x]) ++ zs := by
      rw [List.append_assoc]
      rfl
    have hstep : traversalLoop L l func arg (fuel + 1) h x = if found then .ok (x, h₁) else
        traversalLoop L l func arg fuel h₁ ((zs ++ [l.tail]).head (by simp)) := by
      rw [traversalLoop, if_neg hl.ne_tail, hcall, ok_bind]
      dsimp only
      rw [hl₁.getNext_mem hL]
      rfl
    show ∃ r h', traversalLoop L l func arg (fuel + 1) h x = _ ∧ _
    rw [hstep]
    cases found with
    | true => exact ⟨x, h₁, rfl, hl₁, Or.inl ⟨[], zs, h, rfl, .nil h, hcall⟩⟩
    | false =>
      rw [hsplit] at hl₁ hfunc ⊢
      obtain ⟨r, h', hok, hl', hr⟩ := ih (pre ++ [x]) hl₁ hfunc (Nat.lt_of_succ_lt_succ hfuel)
      refine ⟨r, h', hok, hl', hr.imp (FirstAccepted.cons hcall) ?_⟩
      rintro ⟨hrefused, rfl⟩
      exact ⟨.cons hcall hrefused, rfl⟩

theorem listLen_eq (hl : L.IsList V h l xs) (hlen : xs.length < 2 ^ 32) {bound : ℕ}
    (hbound : xs.length ≤ bound) : listLen L h l bound = .ok xs.length := by
  unfold listLen
  rw [hl.getNext_head hL]
  refine (lenLoop_eq hL [] hl (Nat.lt_succ_of_le hbound) (by omega)).trans ?_
  rw [Nat.zero_add]

theorem listTraversal_spec (hl : L.IsList V h l xs) (hfunc : LeavesList L V l xs func arg)
    {bound : ℕ} (hbound : xs.length ≤ bound) :
    ∃ r h', listTraversal L h l func arg bound = .ok (r, h') ∧ L.IsList V h' l xs ∧
      (FirstAccepted func arg h xs r h' ∨ Refused func arg h xs h' ∧ r = L.null) := by
  unfold listTraversal
  rw [hl.getNext_head hL]
  show ∃ r h', (listEmpty L h l >>= _) = _ ∧ _
  rw [listEmpty_isList hL hl, ok_bind]
  by_cases hxs : xs = []
  · subst hxs
    exact ⟨L.null, h, rfl, hl, Or.inr ⟨.nil h, rfl⟩⟩
  · rw [decide_eq_false hxs]
    exact traversalLoop_spec hL [] hl hfunc (Nat.lt_succ_of_le hbound)

/-- A search for the first element that passes a test. -/
theorem listTraversal_test (hl : L.IsList V h l xs) (p : H → N → BitVec 32 → Bool) {bound : ℕ}
    (hbound : xs.length ≤ bound) :
    listTraversal L h l (fun h e arg => .ok (p h e arg, h)) arg bound =
      .ok ((xs.find? (p h · arg)).getD L.null, h) := by
  have hfunc : LeavesList L V l xs (fun h e arg => .ok (p h e arg, h)) arg :=
    fun h hl e _ => ⟨_, h, rfl, hl⟩
  obtain ⟨r, h', hok, -, haccepted | ⟨hrefused, rfl⟩⟩ := listTraversal_spec hL hl hfunc hbound
  · obtain ⟨rfl, hfind⟩ := haccepted.of_test
    rw [hok, hfind]
    rfl
  · obtain ⟨rfl, hall⟩ := hrefused.of_test
    have hnone : xs.find? (p h' · arg) = none := by
      rw [List.find?_eq_none]
      intro e he
      rw [hall e he]
      exact Bool.false_ne_true
    rw [hok, hnone]
    rfl

end Walks

/-! ## The elements in memory -/

abbrev Ptr := BitVec 32

/-- The pointer at an address. -/
def ptrAt (m : Bytes) (a : ℕ) : Ptr := BitVec.ofNat 32 (m.getWord a)

/-- `struct list_elem` in memory: the two words `prev` and `next`. -/
def links : LinkHeap Bytes Ptr where
  null := 0#32
  prev m e := ptrAt m e.toNat
  next m e := ptrAt m (e.toNat + 4)
  setPrev m e v := m.putWord e.toNat v.toNat
  setNext m e v := m.putWord (e.toNat + 4) v.toNat

/-- `struct list` at the address `plist`: the elements `head` and `tail`. -/
def listAt (plist : Ptr) : Sentinels Ptr := ⟨plist, plist + 8#32⟩

/-- The elements `V` are objects of their own: 8 bytes each, not at `NULL`, below the end of the
address space and without overlap. -/
structure Objects (V : Ptr → Prop) : Prop where
  ne_null : ∀ {a}, V a → a ≠ 0#32
  inside : ∀ {a}, V a → a.toNat + 8 ≤ 2 ^ 32
  apart : ∀ {a b}, V a → V b → b ≠ a → b.toNat + 8 ≤ a.toNat ∨ a.toNat + 8 ≤ b.toNat

/-- The list at `plist` is the sequence `xs`. -/
abbrev Represents (V : Ptr → Prop) (m : Bytes) (plist : Ptr) (xs : List Ptr) : Prop :=
  links.IsList V m (listAt plist) xs

/-- The elements of a list, its `head` and `tail` included. -/
abbrev cells (plist : Ptr) (xs : List Ptr) : List Ptr := nodes (listAt plist) xs

variable {V X : Ptr → Prop} {m m' : Bytes} {plist : Ptr} {xs ys zs : List Ptr} {e b : Ptr}

theorem ptrAt_putWord (m : Bytes) (a : ℕ) (v : Ptr) : ptrAt (m.putWord a v.toNat) a = v := by
  unfold ptrAt
  rw [Bytes.getWord_putWord, Nat.mod_eq_of_lt v.isLt, BitVec.ofNat_toNat, BitVec.setWidth_eq]

theorem ptrAt_putWord_of_apart {i a w : ℕ} (h : i + 4 ≤ a ∨ a + 4 ≤ i) :
    ptrAt (m.putWord a w) i = ptrAt m i := by
  unfold ptrAt
  rw [Bytes.getWord_putWord_of_apart h]

/-- The words of two elements do not overlap. -/
theorem Objects.words_apart (hV : Objects V) (ha : V e) (hb : V b) (hne : b ≠ e) {i j : ℕ}
    (hi : i ≤ 4) (hj : j ≤ 4) :
    b.toNat + j + 4 ≤ e.toNat + i ∨ e.toNat + i + 4 ≤ b.toNat + j := by
  have hapart := hV.apart ha hb hne
  omega

theorem links_lawful (hV : Objects V) : links.Lawful V where
  ne_null h := hV.ne_null h
  prev_setPrev m a b _ := ptrAt_putWord m _ b
  next_setNext m a b _ := ptrAt_putWord m _ b
  prev_setPrev_ne m a c b ha hc hne :=
    ptrAt_putWord_of_apart (hV.words_apart ha hc hne (Nat.zero_le 4) (Nat.zero_le 4))
  next_setNext_ne m a c b ha hc hne :=
    ptrAt_putWord_of_apart (hV.words_apart ha hc hne (Nat.le_refl 4) (Nat.le_refl 4))
  prev_setNext m a c b ha hc := by
    refine ptrAt_putWord_of_apart ?_
    rcases eq_or_ne c a with rfl | hne
    · exact Or.inl (Nat.le_refl _)
    · exact hV.words_apart ha hc hne (Nat.le_refl 4) (Nat.zero_le 4)
  next_setPrev m a c b ha hc := by
    refine ptrAt_putWord_of_apart ?_
    rcases eq_or_ne c a with rfl | hne
    · exact Or.inr (Nat.le_refl _)
    · exact hV.words_apart ha hc hne (Nat.zero_le 4) (Nat.le_refl 4)

/-! ## What does not change -/

/-- Only the elements `X` have been written. -/
structure Untouched (V X : Ptr → Prop) (m m' : Bytes) : Prop where
  /-- Any list without an element of `X`. -/
  lists : ∀ l ys, links.IsList V m l ys → (∀ n ∈ nodes l ys, ¬X n) → links.IsList V m' l ys
  bytes : ∀ i, (∀ n, X n → i < n.toNat ∨ n.toNat + 8 ≤ i) → m' i = m i

theorem untouched_of_edits (hV : Objects V) (hX : ∀ n, X n → V n) (h : links.Edits X m m') :
    Untouched V X m m' := by
  refine ⟨fun l ys hl hdisj => hl.frame (links_lawful hV) h hX hdisj, fun i hi => ?_⟩
  refine h.keeps (fun m => m i) (fun m n v hn => ?_) fun m n v hn => ?_
  · have hout := hi n hn
    exact Bytes.putWord_of_not_mem (by omega)
  · have hout := hi n hn
    exact Bytes.putWord_of_not_mem (by omega)

/-! ## Main result -/

/-- After a change of the list at `plist` it is the sequence `xs`, and beyond the elements `X` nothing
has been written. -/
structure Becomes (V X : Ptr → Prop) (plist : Ptr) (m m' : Bytes) (xs : List Ptr) : Prop where
  seq : Represents V m' plist xs
  untouched : Untouched V X m m'

/-- The functions of `kernel/list.c` on the list at `plist`, as functions on the sequence `xs`.  An
element that is inserted is in no list. -/
structure RefinesSeq (V : Ptr → Prop) (m : Bytes) (plist : Ptr) (xs : List Ptr) : Prop where
  push : ∀ e, V e → e ∉ cells plist xs → ∃ m', listPush links m (listAt plist) e = .ok m' ∧
    Becomes V (fun n => n = e ∨ n ∈ cells plist xs) plist m m' (e :: xs)
  append : ∀ e, V e → e ∉ cells plist xs → ∃ m', listAppend links m (listAt plist) e = .ok m' ∧
    Becomes V (fun n => n = e ∨ n ∈ cells plist xs) plist m m' (xs ++ [e])
  insertBefore : ∀ ys b zs e, xs = ys ++ b :: zs → V e → e ∉ cells plist xs →
    ∃ m', listInsertBefore links m b e = .ok m' ∧
      Becomes V (fun n => n = e ∨ n ∈ cells plist xs) plist m m' (ys ++ e :: b :: zs)
  remove : ∀ ys e zs, xs = ys ++ e :: zs → ∃ m', listRemove links m e = .ok m' ∧
    Becomes V (· ∈ cells plist (ys ++ zs)) plist m m' (ys ++ zs)
  pop : ∀ e ys, xs = e :: ys → ∃ m', listPop links m (listAt plist) = .ok (m', e) ∧
    Becomes V (· ∈ cells plist ys) plist m m' ys
  find : ∀ e bound, xs.length ≤ bound →
    elemFind links m (listAt plist) bound e = .ok (decide (e ∈ xs))
  empty : listEmpty links m (listAt plist) = .ok (decide (xs = []))
  len : ∀ bound, xs.length ≤ bound → listLen links m (listAt plist) bound = .ok xs.length
  traversal : ∀ func arg bound, LeavesList links V (listAt plist) xs func arg → xs.length ≤ bound →
    ∃ r m', listTraversal links m (listAt plist) func arg bound = .ok (r, m') ∧
      Represents V m' plist xs ∧
      (FirstAccepted func arg m xs r m' ∨ Refused func arg m xs m' ∧ r = 0#32)
  /-- The same for a callback that writes nothing. -/
  search : ∀ (p : Bytes → Ptr → BitVec 32 → Bool) arg bound, xs.length ≤ bound →
    listTraversal links m (listAt plist) (fun m e arg => .ok (p m e arg, m)) arg bound =
      .ok ((xs.find? (p m · arg)).getD 0#32, m)

/-- **Lists are sequences.**  Wherever a list in memory stands for the sequence `xs`, every function
returns, what it does to the list is what it does to the sequence, and any other list and all bytes
outside the elements are left as they are. -/
theorem list_refines (hV : Objects V) (h : Represents V m plist xs) : RefinesSeq V m plist xs := by
  have hL := links_lawful hV
  have hadded : ∀ e, V e → ∀ n, n = e ∨ n ∈ cells plist xs → V n := by
    rintro e he n (rfl | hn)
    · exact he
    · exact h.valid n hn
  refine {
    push := fun e he hout => ?_
    append := fun e he hout => ?_
    insertBefore := fun ys b zs e hxs he hout => ?_
    remove := fun ys e zs hxs => ?_
    pop := fun e ys hxs => ?_
    find := fun e bound hbound => elemFind_isList hL h hbound e
    empty := listEmpty_isList hL h
    len := fun bound hbound => listLen_eq hL h h.length_lt hbound
    traversal := fun func arg bound hfunc hbound => listTraversal_spec hL h hfunc hbound
    search := fun p arg bound hbound => listTraversal_test hL h p hbound }
  · obtain ⟨m', hok, hseq, hedits⟩ := h.push hL he hout
    exact ⟨m', liftFault_ok hok, hseq, untouched_of_edits hV (hadded e he) hedits⟩
  · obtain ⟨m', hok, hseq, hedits⟩ := h.append hL he hout
    exact ⟨m', liftFault_ok hok, hseq, untouched_of_edits hV (hadded e he) hedits⟩
  · subst hxs
    obtain ⟨m', hok, hseq, hedits⟩ := h.insertBefore hL he hout
    exact ⟨m', liftFault_ok hok, hseq, untouched_of_edits hV (hadded e he) hedits⟩
  · subst hxs
    obtain ⟨m', hok, hseq, hedits⟩ := h.remove hL
    exact ⟨m', liftFault_ok hok, hseq, untouched_of_edits hV hseq.valid hedits⟩
  · subst hxs
    obtain ⟨m', hok, hseq, hedits⟩ := h.pop hL
    exact ⟨m', liftFault_ok hok, hseq, untouched_of_edits hV hseq.valid hedits⟩

/-- An initialised list is empty. -/
theorem listInit_represents (hV : Objects V) (m : Bytes) (hhead : V plist) (htail : V (plist + 8#32)) :
    ∃ m', listInit links m (listAt plist) = .ok m' ∧
      Becomes V (fun n => n = plist ∨ n = plist + 8#32) plist m m' [] := by
  have hne : (listAt plist).head ≠ (listAt plist).tail := by
    show plist ≠ plist + 8#32
    bv_omega
  obtain ⟨m', hinit, hempty, hedits⟩ := LinkHeap.isList_init (h := m) (links_lawful hV) hhead htail hne
  refine ⟨m', liftFault_ok hinit, hempty, untouched_of_edits hV (fun n hn => ?_) hedits⟩
  rcases hn with rfl | rfl
  · exact hhead
  · exact htail

/-- A list at `0x1000` and four elements, which lie side by side. -/
def FourElems (a : Ptr) : Prop :=
  a = 0x1000#32 ∨ a = 0x1008#32 ∨ a = 0x2000#32 ∨ a = 0x2008#32 ∨ a = 0x2010#32 ∨ a = 0x2018#32

theorem fourElems_objects : Objects FourElems where
  ne_null := by
    rintro a (rfl | rfl | rfl | rfl | rfl | rfl) <;> decide
  inside := by
    rintro a (rfl | rfl | rfl | rfl | rfl | rfl) <;> decide
  apart := by
    rintro a b (rfl | rfl | rfl | rfl | rfl | rfl) (rfl | rfl | rfl | rfl | rfl | rfl) <;> decide

/-- Of three elements the middle one gets a new neighbour before it and is taken out. -/
theorem list_refines_fourElems : ∃ m₀ m₁ m₂ m₃ m₄ m₅,
    listInit links (fun _ => 0#8) (listAt 0x1000#32) = .ok m₀ ∧
    listAppend links m₀ (listAt 0x1000#32) 0x2000#32 = .ok m₁ ∧
    listAppend links m₁ (listAt 0x1000#32) 0x2008#32 = .ok m₂ ∧
    listPush links m₂ (listAt 0x1000#32) 0x2010#32 = .ok m₃ ∧
    listInsertBefore links m₃ 0x2000#32 0x2018#32 = .ok m₄ ∧
    Represents FourElems m₄ 0x1000#32 [0x2010#32, 0x2018#32, 0x2000#32, 0x2008#32] ∧
    listRemove links m₄ 0x2000#32 = .ok m₅ ∧
    Represents FourElems m₅ 0x1000#32 [0x2010#32, 0x2018#32, 0x2008#32] ∧
    listLen links m₅ (listAt 0x1000#32) 3 = .ok 3 ∧
    elemFind links m₅ (listAt 0x1000#32) 3 0x2000#32 = .ok false := by
  have hV := fourElems_objects
  have hhead : FourElems 0x1000#32 := Or.inl rfl
  obtain ⟨m₀, hinit, h₀⟩ := listInit_represents hV (fun _ => 0#8) hhead (Or.inr (Or.inl rfl))
  obtain ⟨m₁, hok₁, h₁⟩ := (list_refines hV h₀.seq).append 0x2000#32
    (Or.inr (Or.inr (Or.inl rfl))) (by decide)
  obtain ⟨m₂, hok₂, h₂⟩ := (list_refines hV h₁.seq).append 0x2008#32
    (Or.inr (Or.inr (Or.inr (Or.inl rfl)))) (by decide)
  obtain ⟨m₃, hok₃, h₃⟩ := (list_refines hV h₂.seq).push 0x2010#32
    (Or.inr (Or.inr (Or.inr (Or.inr (Or.inl rfl))))) (by decide)
  obtain ⟨m₄, hok₄, h₄⟩ := (list_refines hV h₃.seq).insertBefore [0x2010#32] 0x2000#32 [0x2008#32]
    0x2018#32 rfl (Or.inr (Or.inr (Or.inr (Or.inr (Or.inr rfl))))) (by decide)
  obtain ⟨m₅, hok₅, h₅⟩ := (list_refines hV h₄.seq).remove [0x2010#32, 0x2018#32] 0x2000#32
    [0x2008#32] rfl
  have hlen := (list_refines hV h₅.seq).len 3 (Nat.le_refl 3)
  have hfind := (list_refines hV h₅.seq).find 0x2000#32 3 (Nat.le_refl 3)
  exact ⟨m₀, m₁, m₂, m₃, m₄, m₅, hinit, hok₁, hok₂, hok₃, hok₄, h₄.seq, hok₅, h₅.seq, hlen, hfind⟩

end HcOs.ListSeq
