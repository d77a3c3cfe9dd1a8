import Mathlib.Algebra.Group.Nat.Defs
import Mathlib.Data.List.Chain
import Mathlib.Data.List.Nodup
import Mathlib.Data.List.Perm.Subperm
import Mathlib.Logic.Function.Basic
import Mathlib.Tactic.Common

/-!
# Intrusive doubly linked lists

A node is linked through two fields of its own, `prev` and `next`, and a list is given by two
sentinel nodes, `head` and `tail`.  A `LinkHeap` says how the two fields are read and written in a
heap `H`; where the fields of two nodes may overlap in memory, `Lawful` is asked only of a set of
nodes whose fields do not.

1. The operations, as the pointer code performs them.  Going through the null pointer is the fault
   `null`; a walk that outlives its bound is the fault `loop`.
2. `IsList h l xs`: from `l.head` to `l.tail` the nodes are `xs`, linked both ways.  One lemma for
   each operation.
3. `Edits`: the fields an operation writes are those of the nodes of its list, so everything else
   keeps its value.
4. `Family`: many lists without a common node.
-/

namespace HcOs.Lib

inductive Fault where
  | null
  | loop
deriving DecidableEq

/-- The fields `prev` and `next` of the nodes `N` in a heap `H`. -/
structure LinkHeap (H N : Type) where
  null : N
  prev : H → N → N
  next : H → N → N
  setPrev : H → N → N → H
  setNext : H → N → N → H

/-- The two sentinels of a list. -/
structure Sentinels (N : Type) where
  head : N
  tail : N

namespace LinkHeap

variable {H N : Type} [DecidableEq N] (L : LinkHeap H N)

/-! ## The operations -/

def getPrev (h : H) (n : N) : Except Fault N :=
  if n = L.null then .error .null else .ok (L.prev h n)

def getNext (h : H) (n : N) : Except Fault N :=
  if n = L.null then .error .null else .ok (L.next h n)

def putPrev (h : H) (n v : N) : Except Fault H :=
  if n = L.null then .error .null else .ok (L.setPrev h n v)

def putNext (h : H) (n v : N) : Except Fault H :=
  if n = L.null then .error .null else .ok (L.setNext h n v)

def init (h : H) (l : Sentinels N) : Except Fault H := do
  let h ← L.putPrev h l.head L.null
  let h ← L.putNext h l.head l.tail
  let h ← L.putPrev h l.tail l.head
  L.putNext h l.tail L.null

def insertBefore (h : H) (before elem : N) : Except Fault H := do
  let p ← L.getPrev h before
  let h ← L.putPrev h elem p
  let h ← L.putNext h elem before
  let q ← L.getPrev h elem
  let h ← L.putNext h q elem
  L.putPrev h before elem

def push (h : H) (l : Sentinels N) (elem : N) : Except Fault H := do
  let first ← L.getNext h l.head
  L.insertBefore h first elem

def append (h : H) (l : Sentinels N) (elem : N) : Except Fault H :=
  L.insertBefore h l.tail elem

def remove (h : H) (elem : N) : Except Fault H := do
  let p ← L.getPrev h elem
  let n ← L.getNext h elem
  let h ← L.putNext h p n
  let n ← L.getNext h elem
  let p ← L.getPrev h elem
  L.putPrev h n p

def pop (h : H) (l : Sentinels N) : Except Fault (H × N) := do
  let elem ← L.getNext h l.head
  let h ← L.remove h elem
  .ok (h, elem)

def empty (h : H) (l : Sentinels N) : Except Fault Bool := do
  let first ← L.getNext h l.head
  .ok (decide (first = l.tail))

/-- The walk of `find` from the node `elem` on, through at most `fuel` nodes. -/
def walk (h : H) (tail obj : N) : ℕ → N → Except Fault Bool
  | 0, _ => .error .loop
  | fuel + 1, elem =>
    if elem = tail then .ok false
    else if elem = obj then .ok true
    else do
      let n ← L.getNext h elem
      walk h tail obj fuel n

def find (fuel : ℕ) (h : H) (l : Sentinels N) (obj : N) : Except Fault Bool := do
  let first ← L.getNext h l.head
  L.walk h l.tail obj fuel first

/-! ## Reading after writing -/

/-- On the nodes of `V` the two fields are separate memory. -/
structure Lawful (V : N → Prop) : Prop where
  ne_null : ∀ {a}, V a → a ≠ L.null
  prev_setPrev : ∀ h {a} b, V a → L.prev (L.setPrev h a b) a = b
  next_setNext : ∀ h {a} b, V a → L.next (L.setNext h a b) a = b
  prev_setPrev_ne : ∀ h {a c} b, V a → V c → c ≠ a → L.prev (L.setPrev h a b) c = L.prev h c
  next_setNext_ne : ∀ h {a c} b, V a → V c → c ≠ a → L.next (L.setNext h a b) c = L.next h c
  prev_setNext : ∀ h {a c} b, V a → V c → L.prev (L.setNext h a b) c = L.prev h c
  next_setPrev : ∀ h {a c} b, V a → V c → L.next (L.setPrev h a b) c = L.next h c

/-- `h'` comes from `h` by writes to the fields of the nodes of `X`. -/
inductive Edits (X : N → Prop) : H → H → Prop
  | refl (h : H) : Edits X h h
  | setPrev {h h' : H} {a : N} (b : N) : Edits X h h' → X a → Edits X h (L.setPrev h' a b)
  | setNext {h h' : H} {a : N} (b : N) : Edits X h h' → X a → Edits X h (L.setNext h' a b)

variable {L}

omit [DecidableEq N] in
theorem Edits.mono {X Y : N → Prop} {h h' : H} (he : L.Edits X h h') (hXY : ∀ n, X n → Y n) :
    L.Edits Y h h' := by
  induction he with
  | refl => exact .refl h
  | setPrev b _ hX ih => exact .setPrev b ih (hXY _ hX)
  | setNext b _ hX ih => exact .setNext b ih (hXY _ hX)

omit [DecidableEq N] in
theorem Edits.trans {X : N → Prop} {h h' h'' : H} (h₁ : L.Edits X h h') (h₂ : L.Edits X h' h'') :
    L.Edits X h h'' := by
  induction h₂ with
  | refl => exact h₁
  | setPrev b _ hX ih => exact .setPrev b ih hX
  | setNext b _ hX ih => exact .setNext b ih hX

omit [DecidableEq N] in
/-- What no single write changes, edits keep. -/
theorem Edits.keeps {X : N → Prop} {h h' : H} (he : L.Edits X h h') {A : Type} (f : H → A)
    (hp : ∀ h a b, X a → f (L.setPrev h a b) = f h) (hn : ∀ h a b, X a → f (L.setNext h a b) = f h) :
    f h' = f h := by
  induction he with
  | refl => rfl
  | setPrev b _ hX ih => rw [hp _ _ _ hX, ih]
  | setNext b _ hX ih => rw [hn _ _ _ hX, ih]

variable {V X : N → Prop} (hL : L.Lawful V)
include hL

omit [DecidableEq N] in
theorem Edits.prev_eq {h h' : H} (he : L.Edits X h h') (hX : ∀ n, X n → V n) {c : N} (hc : V c)
    (hn : ¬X c) : L.prev h' c = L.prev h c := by
  refine he.keeps (fun h => L.prev h c) (fun h a b ha => ?_) fun h a b ha => ?_
  · exact hL.prev_setPrev_ne h b (hX a ha) hc fun hca => hn (hca ▸ ha)
  · exact hL.prev_setNext h b (hX a ha) hc

omit [DecidableEq N] in
theorem Edits.next_eq {h h' : H} (he : L.Edits X h h') (hX : ∀ n, X n → V n) {c : N} (hc : V c)
    (hn : ¬X c) : L.next h' c = L.next h c := by
  refine he.keeps (fun h => L.next h c) (fun h a b ha => ?_) fun h a b ha => ?_
  · exact hL.next_setPrev h b (hX a ha) hc
  · exact hL.next_setNext_ne h b (hX a ha) hc fun hca => hn (hca ▸ ha)

/-- Inserting `e` between `p` and `b`. -/
theorem insertBefore_spec {h : H} {p b e : N} (hp : V p) (hb : V b) (he : V e)
    (hprev : L.prev h b = p) (heb : e ≠ b) (hep : e ≠ p) :
    ∃ h', L.insertBefore h b e = .ok h' ∧ L.prev h' e = p ∧ L.next h' e = b ∧ L.next h' p = e ∧
      L.prev h' b = e ∧ (∀ c, V c → c ≠ e → c ≠ p → L.next h' c = L.next h c) ∧
      (∀ c, V c → c ≠ e → c ≠ b → L.prev h' c = L.prev h c) ∧
      L.Edits (fun n => n = e ∨ n = p ∨ n = b) h h' := by
  have hq : L.prev (L.setNext (L.setPrev h e p) e b) e = p := by
    rw [hL.prev_setNext _ _ he he, hL.prev_setPrev _ _ he]
  refine ⟨L.setPrev (L.setNext (L.setNext (L.setPrev h e p) e b) p e) b e, ?_, ?_, ?_, ?_,
    hL.prev_setPrev _ _ hb, fun c hc hce hcp => ?_, fun c hc hce hcb => ?_, ?_⟩
  · simp only [insertBefore, getPrev, putPrev, putNext, if_neg (hL.ne_null hb),
      if_neg (hL.ne_null he), hprev, bind, Except.bind, hq, if_neg (hL.ne_null hp)]
  · rw [hL.prev_setPrev_ne _ _ hb he heb, hL.prev_setNext _ _ hp he, hq]
  · rw [hL.next_setPrev _ _ hb he, hL.next_setNext_ne _ _ hp he hep, hL.next_setNext _ _ he]
  · rw [hL.next_setPrev _ _ hb hp, hL.next_setNext _ _ hp]
  · rw [hL.next_setPrev _ _ hb hc, hL.next_setNext_ne _ _ hp hc hcp,
      hL.next_setNext_ne _ _ he hc hce, hL.next_setPrev _ _ he hc]
  · rw [hL.prev_setPrev_ne _ _ hb hc hcb, hL.prev_setNext _ _ hp hc,
      hL.prev_setNext _ _ he hc, hL.prev_setPrev_ne _ _ he hc hce]
  · refine .setPrev e (.setNext e (.setNext b (.setPrev p (.refl h) ?_) ?_) ?_) ?_
    all_goals simp

/-- Taking `e` out from between `p` and `n`. -/
theorem remove_spec {h : H} {p n e : N} (hp : V p) (hn : V n) (he : V e) (hprev : L.prev h e = p)
    (hnext : L.next h e = n) (hep : e ≠ p) :
    ∃ h', L.remove h e = .ok h' ∧ L.next h' p = n ∧ L.prev h' n = p ∧
      (∀ c, V c → c ≠ p → L.next h' c = L.next h c) ∧
      (∀ c, V c → c ≠ n → L.prev h' c = L.prev h c) ∧
      L.Edits (fun c => c = p ∨ c = n) h h' := by
  have hn₁ : L.next (L.setNext h p n) e = n := by rw [hL.next_setNext_ne _ _ hp he hep, hnext]
  have hp₁ : L.prev (L.setNext h p n) e = p := by rw [hL.prev_setNext _ _ hp he, hprev]
  refine ⟨L.setPrev (L.setNext h p n) n p, ?_, ?_, hL.prev_setPrev _ _ hn, fun c hc hcp => ?_,
    fun c hc hcn => ?_, .setPrev p (.setNext n (.refl h) (Or.inl rfl)) (Or.inr rfl)⟩
  · simp only [remove, getPrev, getNext, putNext, putPrev, if_neg (hL.ne_null he), hprev, hnext,
      bind, Except.bind, if_neg (hL.ne_null hp), hn₁, hp₁, if_neg (hL.ne_null hn)]
  · rw [hL.next_setPrev _ _ hn hp, hL.next_setNext _ _ hp]
  · rw [hL.next_setPrev _ _ hn hc, hL.next_setNext_ne _ _ hp hc hcp]
  · rw [hL.prev_setPrev_ne _ _ hn hc hcn, hL.prev_setNext _ _ hp hc]

/-! ## Lists -/

omit hL
variable (L V)

/-- `b` follows `a`. -/
def Linked (h : H) (a b : N) : Prop := L.next h a = b ∧ L.prev h b = a

/-- All the nodes of a list, sentinels included. -/
def nodes (l : Sentinels N) (xs : List N) : List N := l.head :: (xs ++ [l.tail])

/-- From `l.head` to `l.tail` the nodes are `xs`. -/
structure IsList (h : H) (l : Sentinels N) (xs : List N) : Prop where
  chain : (nodes l xs).IsChain (L.Linked h)
  nodup : (nodes l xs).Nodup
  valid : ∀ n ∈ nodes l xs, V n
  first : L.prev h l.head = L.null
  last : L.next h l.tail = L.null

variable {L V}
variable {h h' : H} {l : Sentinels N} {xs ys : List N} {e : N}

omit [DecidableEq N] in
theorem mem_nodes {n : N} : n ∈ nodes l xs ↔ n = l.head ∨ n ∈ xs ∨ n = l.tail := by
  simp [nodes]

omit [DecidableEq N] in
/-- A write to `next` of the last node of a segment, and to `prev` outside it, leaves the segment
linked. -/
theorem chain_left {pre : List N} {p b : N} (hc : (pre ++ [p]).IsChain (L.Linked h))
    (hpb : L.next h p = b) (hb : b ∉ pre ++ [p])
    (hnext : ∀ c ∈ pre ++ [p], c ≠ p → L.next h' c = L.next h c)
    (hprev : ∀ c ∈ pre ++ [p], L.prev h' c = L.prev h c) :
    (pre ++ [p]).IsChain (L.Linked h') := by
  refine hc.imp_of_mem_imp fun a c ha hc' hac => ?_
  have hap : a ≠ p := by
    rintro rfl
    exact hb (by rw [← hpb, hac.1]; exact hc')
  exact ⟨(hnext a ha hap).trans hac.1, (hprev c hc').trans hac.2⟩

omit [DecidableEq N] in
/-- A write to `prev` of the first node of a segment, and to `next` outside it, leaves the segment
linked. -/
theorem chain_right {post : List N} {b p : N} (hc : (b :: post).IsChain (L.Linked h))
    (hpb : L.prev h b = p) (hp : p ∉ b :: post)
    (hnext : ∀ c ∈ b :: post, L.next h' c = L.next h c)
    (hprev : ∀ c ∈ b :: post, c ≠ b → L.prev h' c = L.prev h c) :
    (b :: post).IsChain (L.Linked h') := by
  refine hc.imp_of_mem_imp fun a c ha hc' hac => ?_
  have hcb : c ≠ b := by
    rintro rfl
    exact hp (by rw [← hpb, hac.2]; exact ha)
  exact ⟨(hnext a ha).trans hac.1, (hprev c hc' hcb).trans hac.2⟩

omit [DecidableEq N] in
/-- A list keeps its place when the fields of its nodes keep their values. -/
theorem IsList.congr (hl : L.IsList V h l xs)
    (hprev : ∀ n ∈ nodes l xs, L.prev h' n = L.prev h n)
    (hnext : ∀ n ∈ nodes l xs, L.next h' n = L.next h n) : L.IsList V h' l xs := by
  refine ⟨?_, hl.nodup, hl.valid, ?_, ?_⟩
  · refine hl.chain.imp_of_mem_imp fun a b ha hb hab => ?_
    exact ⟨(hnext a ha).trans hab.1, (hprev b hb).trans hab.2⟩
  · exact (hprev _ (mem_nodes.mpr (Or.inl rfl))).trans hl.first
  · exact (hnext _ (mem_nodes.mpr (Or.inr (Or.inr rfl)))).trans hl.last

include hL

omit [DecidableEq N] in
/-- A list keeps its place when no field of its nodes is written. -/
theorem IsList.frame (hl : L.IsList V h l xs) (he : L.Edits X h h') (hX : ∀ n, X n → V n)
    (hdisj : ∀ n ∈ nodes l xs, ¬X n) : L.IsList V h' l xs :=
  hl.congr (fun n hn => he.prev_eq hL hX (hl.valid n hn) (hdisj n hn))
    fun n hn => he.next_eq hL hX (hl.valid n hn) (hdisj n hn)

omit hL [DecidableEq N] in
/-- The two nodes around a gap are each on their own side. -/
theorem mem_ends {pre post : List N} {p b : N} (h : (pre ++ [p] ++ b :: post).Nodup) :
    p ∈ pre ++ [p] ∧ b ∉ pre ++ [p] ∧ p ∉ b :: post := by
  have hdisj := (List.nodup_append.mp h).2.2
  have hp : p ∈ pre ++ [p] := List.mem_append_right _ (List.mem_singleton.mpr rfl)
  exact ⟨hp, fun hb => hdisj b hb b List.mem_cons_self rfl, fun hmem => hdisj p hp p hmem rfl⟩

/-- Inserting a new node between two neighbours. -/
theorem IsList.insert (hl : L.IsList V h l (xs ++ ys)) {pre post : List N} {p b : N}
    (hpre : l.head :: xs = pre ++ [p]) (hpost : ys ++ [l.tail] = b :: post) (hV : V e)
    (hn : e ∉ nodes l (xs ++ ys)) :
    ∃ h', L.insertBefore h b e = .ok h' ∧ L.IsList V h' l (xs ++ e :: ys) ∧
      L.Edits (fun n => n = e ∨ n ∈ nodes l (xs ++ ys)) h h' := by
  have hold : nodes l (xs ++ ys) = pre ++ [p] ++ b :: post := by
    rw [nodes, List.append_assoc, hpost, ← List.cons_append, hpre]
  have hnew : nodes l (xs ++ e :: ys) = pre ++ [p] ++ e :: b :: post := by
    rw [nodes, List.append_assoc, List.cons_append, hpost, ← List.cons_append, hpre]
  have hnd := hl.nodup
  rw [hold] at hnd hn
  obtain ⟨hpL, hbL, hpR⟩ := mem_ends hnd
  have hVL : ∀ c ∈ pre ++ [p], V c ∧ c ≠ e := fun c hc =>
    ⟨hl.valid c (hold ▸ List.mem_append_left _ hc), fun hce => hn (hce ▸ List.mem_append_left _ hc)⟩
  have hVR : ∀ c ∈ b :: post, V c ∧ c ≠ e := fun c hc =>
    ⟨hl.valid c (hold ▸ List.mem_append_right _ hc),
      fun hce => hn (hce ▸ List.mem_append_right _ hc)⟩
  have hchain := hl.chain
  rw [hold, List.append_assoc, List.singleton_append, List.isChain_split,
    List.isChain_cons_cons] at hchain
  obtain ⟨hleft, hpb, hright⟩ := hchain
  obtain ⟨hVp, hpe⟩ := hVL p hpL
  obtain ⟨hVb, hbe⟩ := hVR b List.mem_cons_self
  obtain ⟨h', hok, hpe', hne, hnp, hpb', hnext, hprev, hed⟩ :=
    insertBefore_spec hL hVp hVb hV hpb.2 hbe.symm hpe.symm
  refine ⟨h', hok, ⟨?_, ?_, fun c hc => ?_, ?_, ?_⟩, hed.mono fun n hn' => ?_⟩
  · rw [hnew, List.append_assoc, List.singleton_append, List.isChain_split, List.isChain_cons_cons,
      List.isChain_cons_cons]
    refine ⟨chain_left hleft hpb.1 hbL (fun c hc hcp => ?_) (fun c hc => ?_), ⟨hnp, hpe'⟩,
      ⟨hne, hpb'⟩, chain_right hright hpb.2 hpR (fun c hc => ?_) (fun c hc hcb => ?_)⟩
    · exact hnext c (hVL c hc).1 (hVL c hc).2 hcp
    · exact hprev c (hVL c hc).1 (hVL c hc).2 fun hcb => hbL (hcb ▸ hc)
    · exact hnext c (hVR c hc).1 (hVR c hc).2 fun hcp => hpR (hcp ▸ hc)
    · exact hprev c (hVR c hc).1 (hVR c hc).2 hcb
  · rw [hnew]
    exact List.nodup_middle.mpr (List.nodup_cons.mpr ⟨hn, hnd⟩)
  · rw [hnew, List.mem_append, List.mem_cons] at hc
    rcases hc with hc | rfl | hc
    · exact (hVL c hc).1
    · exact hV
    · exact (hVR c hc).1
  · have hhead : l.head ∈ pre ++ [p] := hpre ▸ List.mem_cons_self
    rw [hprev _ (hVL _ hhead).1 (hVL _ hhead).2 fun hb => hbL (hb ▸ hhead), hl.first]
  · have htail : l.tail ∈ b :: post := hpost ▸ List.mem_append_right _ (List.mem_singleton.mpr rfl)
    rw [hnext _ (hVR _ htail).1 (hVR _ htail).2 fun hp => hpR (hp ▸ htail), hl.last]
  · rw [hold]
    rcases hn' with rfl | rfl | rfl
    · exact Or.inl rfl
    · exact Or.inr (List.mem_append_left _ hpL)
    · exact Or.inr (List.mem_append_right _ List.mem_cons_self)

theorem IsList.append (hl : L.IsList V h l xs) (hV : V e) (hn : e ∉ nodes l xs) :
    ∃ h', L.append h l e = .ok h' ∧ L.IsList V h' l (xs ++ [e]) ∧
      L.Edits (fun n => n = e ∨ n ∈ nodes l xs) h h' := by
  obtain ⟨pre, p, hpre⟩ : ∃ pre p, l.head :: xs = pre ++ [p] :=
    ⟨_, _, (List.dropLast_concat_getLast (List.cons_ne_nil l.head xs)).symm⟩
  rw [← List.append_nil xs] at hl hn
  have key := IsList.insert hL hl hpre rfl hV hn
  simpa [LinkHeap.append] using key

/-- Inserting before a node of the list. -/
theorem IsList.insertBefore {b : N} (hl : L.IsList V h l (xs ++ b :: ys)) (hV : V e)
    (hn : e ∉ nodes l (xs ++ b :: ys)) :
    ∃ h', L.insertBefore h b e = .ok h' ∧ L.IsList V h' l (xs ++ e :: b :: ys) ∧
      L.Edits (fun n => n = e ∨ n ∈ nodes l (xs ++ b :: ys)) h h' := by
  obtain ⟨pre, p, hpre⟩ : ∃ pre p, l.head :: xs = pre ++ [p] :=
    ⟨_, _, (List.dropLast_concat_getLast (List.cons_ne_nil l.head xs)).symm⟩
  exact IsList.insert hL hl hpre (List.cons_append ..) hV hn

omit hL [DecidableEq N] in
/-- A node of the list is not the tail. -/
theorem IsList.ne_tail (hl : L.IsList V h l (xs ++ e :: ys)) : e ≠ l.tail := by
  have hnd := hl.nodup
  unfold nodes at hnd
  exact (List.nodup_append.mp hnd.of_cons).2.2 _ (by simp) _ (by simp)

/-- The node after the head. -/
theorem IsList.getNext_head (hl : L.IsList V h l xs) :
    L.getNext h l.head = .ok ((xs ++ [l.tail]).head (by simp)) := by
  have hhead : l.head ≠ L.null := hL.ne_null (hl.valid _ (mem_nodes.mpr (Or.inl rfl)))
  have hchain := hl.chain
  cases xs with
  | nil =>
    simp only [nodes, List.nil_append, List.isChain_cons_cons] at hchain
    rw [getNext, if_neg hhead, hchain.1.1]
    rfl
  | cons x xs =>
    simp only [nodes, List.cons_append, List.isChain_cons_cons] at hchain
    rw [getNext, if_neg hhead, hchain.1.1]
    rfl

/-- The node after a node of the list. -/
theorem IsList.getNext_mem (hl : L.IsList V h l (xs ++ e :: ys)) :
    L.getNext h e = .ok ((ys ++ [l.tail]).head (by simp)) := by
  have hne : e ≠ L.null := hL.ne_null (hl.valid _ (mem_nodes.mpr (by simp)))
  obtain ⟨b, post, hpost⟩ : ∃ b post, ys ++ [l.tail] = b :: post :=
    List.exists_cons_of_ne_nil (by simp)
  have hnodes : nodes l (xs ++ e :: ys) = (l.head :: xs) ++ e :: b :: post := by
    rw [nodes, List.append_assoc, List.cons_append, hpost, List.cons_append]
  have hchain := hl.chain
  rw [hnodes, List.isChain_split, List.isChain_cons_cons] at hchain
  simp only [getNext, if_neg hne, hpost, List.head_cons, hchain.2.1.1]

theorem IsList.push (hl : L.IsList V h l xs) (hV : V e) (hn : e ∉ nodes l xs) :
    ∃ h', L.push h l e = .ok h' ∧ L.IsList V h' l (e :: xs) ∧
      L.Edits (fun n => n = e ∨ n ∈ nodes l xs) h h' := by
  obtain ⟨b, post, hpost⟩ : ∃ b post, xs ++ [l.tail] = b :: post :=
    List.exists_cons_of_ne_nil (by simp)
  have hpre : l.head :: [] = [] ++ [l.head] := rfl
  have key := IsList.insert hL hl hpre hpost hV hn
  simp only [LinkHeap.push, hl.getNext_head hL, bind, Except.bind, hpost, List.head_cons]
  exact key

/-- Taking a node out. -/
theorem IsList.remove (hl : L.IsList V h l (xs ++ e :: ys)) :
    ∃ h', L.remove h e = .ok h' ∧ L.IsList V h' l (xs ++ ys) ∧
      L.Edits (fun n => n ∈ nodes l (xs ++ ys)) h h' := by
  obtain ⟨pre, p, hpre⟩ : ∃ pre p, l.head :: xs = pre ++ [p] :=
    ⟨_, _, (List.dropLast_concat_getLast (List.cons_ne_nil l.head xs)).symm⟩
  obtain ⟨b, post, hpost⟩ : ∃ b post, ys ++ [l.tail] = b :: post :=
    List.exists_cons_of_ne_nil (by simp)
  have hnew : nodes l (xs ++ ys) = pre ++ [p] ++ b :: post := by
    rw [nodes, List.append_assoc, hpost, ← List.cons_append, hpre]
  have hold : nodes l (xs ++ e :: ys) = pre ++ [p] ++ e :: b :: post := by
    rw [nodes, List.append_assoc, List.cons_append, hpost, ← List.cons_append, hpre]
  have hnd := hl.nodup
  rw [hold] at hnd
  obtain ⟨he, hndLR⟩ := List.nodup_cons.mp (List.nodup_middle.mp hnd)
  obtain ⟨hpL, hbL, hpR⟩ := mem_ends hndLR
  have hVL : ∀ c ∈ pre ++ [p], V c := fun c hc => hl.valid c (hold ▸ List.mem_append_left _ hc)
  have hVR : ∀ c ∈ b :: post, V c := fun c hc =>
    hl.valid c (hold ▸ List.mem_append_right _ (List.mem_cons_of_mem e hc))
  have hVe : V e := hl.valid e (hold ▸ List.mem_append_right _ List.mem_cons_self)
  have heL : e ∉ pre ++ [p] := fun hmem => he (List.mem_append_left _ hmem)
  have heR : e ∉ b :: post := fun hmem => he (List.mem_append_right _ hmem)
  have hchain := hl.chain
  rw [hold, List.append_assoc, List.singleton_append, List.isChain_split, List.isChain_cons_cons,
    List.isChain_cons_cons] at hchain
  obtain ⟨hleft, hpe, heb, hright⟩ := hchain
  obtain ⟨h', hok, hnp, hpb, hnext, hprev, hed⟩ := remove_spec hL (hVL p hpL)
    (hVR b List.mem_cons_self) hVe hpe.2 heb.1 fun hep => heL (hep ▸ hpL)
  refine ⟨h', hok, ⟨?_, ?_, fun c hc => ?_, ?_, ?_⟩, hed.mono fun n hn => ?_⟩
  · rw [hnew, List.append_assoc, List.singleton_append, List.isChain_split, List.isChain_cons_cons]
    refine ⟨chain_left hleft hpe.1 heL (fun c hc hcp => ?_) (fun c hc => ?_), ⟨hnp, hpb⟩,
      chain_right hright heb.2 heR (fun c hc => ?_) (fun c hc hcb => ?_)⟩
    · exact hnext c (hVL c hc) hcp
    · exact hprev c (hVL c hc) fun hcb => hbL (hcb ▸ hc)
    · exact hnext c (hVR c hc) fun hcp => hpR (hcp ▸ hc)
    · exact hprev c (hVR c hc) hcb
  · rw [hnew]
    exact hndLR
  · rw [hnew, List.mem_append] at hc
    rcases hc with hc | hc
    · exact hVL c hc
    · exact hVR c hc
  · have hhead : l.head ∈ pre ++ [p] := hpre ▸ List.mem_cons_self
    rw [hprev _ (hVL _ hhead) fun hb => hbL (hb ▸ hhead), hl.first]
  · have htail : l.tail ∈ b :: post := hpost ▸ List.mem_append_right _ (List.mem_singleton.mpr rfl)
    rw [hnext _ (hVR _ htail) fun hp => hpR (hp ▸ htail), hl.last]
  · rw [hnew]
    rcases hn with rfl | rfl
    · exact List.mem_append_left _ hpL
    · exact List.mem_append_right _ List.mem_cons_self

theorem IsList.pop (hl : L.IsList V h l (e :: xs)) :
    ∃ h', L.pop h l = .ok (h', e) ∧ L.IsList V h' l xs ∧
      L.Edits (fun n => n ∈ nodes l xs) h h' := by
  have hl₀ : L.IsList V h l ([] ++ e :: xs) := hl
  obtain ⟨h', hok, hl', hed⟩ := IsList.remove hL hl₀
  refine ⟨h', ?_, hl', hed⟩
  simp only [LinkHeap.pop, hl.getNext_head hL, bind, Except.bind, List.cons_append, List.head_cons,
    hok]

theorem IsList.empty (hl : L.IsList V h l xs) : L.empty h l = .ok (decide (xs = [])) := by
  have hnd := hl.nodup
  simp only [LinkHeap.empty, hl.getNext_head hL, bind, Except.bind]
  cases xs with
  | nil => simp
  | cons x xs =>
    have hx : x ≠ l.tail := by
      rintro rfl
      simp [nodes] at hnd
    simp [hx]

/-- The walk of `find` from the node of `zs` on which it stands. -/
theorem walk_eq {zs : List N} (pre : List N) {fuel : ℕ} (hl : L.IsList V h l (pre ++ zs))
    (hf : zs.length < fuel) (obj : N) :
    L.walk h l.tail obj fuel ((zs ++ [l.tail]).head (by simp)) = .ok (decide (obj ∈ zs)) := by
  induction zs generalizing pre fuel with
  | nil =>
    obtain ⟨f, rfl⟩ : ∃ f, fuel = f + 1 := ⟨fuel - 1, by simp at hf; omega⟩
    simp [walk]
  | cons x zs ih =>
    obtain ⟨f, rfl⟩ : ∃ f, fuel = f + 1 := ⟨fuel - 1, by simp at hf; omega⟩
    have hrest : L.IsList V h l ((pre ++ [x]) ++ zs) := by
      rw [List.append_assoc]
      exact hl
    show L.walk h l.tail obj (f + 1) x = _
    rw [walk, if_neg hl.ne_tail]
    by_cases hxo : x = obj
    · simp [hxo]
    · rw [if_neg hxo, hl.getNext_mem hL]
      refine (ih (pre ++ [x]) hrest (by simpa using hf)).trans ?_
      simp [Ne.symm hxo]

/-- `find` answers whether the node is on the list. -/
theorem IsList.find (hl : L.IsList V h l xs) {fuel : ℕ} (hf : xs.length < fuel) (e : N) :
    L.find fuel h l e = .ok (decide (e ∈ xs)) := by
  simp only [LinkHeap.find, hl.getNext_head hL, bind, Except.bind]
  exact walk_eq hL [] hl hf e

theorem isList_init (hh : V l.head) (ht : V l.tail) (hne : l.head ≠ l.tail) :
    ∃ h', L.init h l = .ok h' ∧ L.IsList V h' l [] ∧
      L.Edits (fun n => n = l.head ∨ n = l.tail) h h' := by
  refine ⟨L.setNext (L.setPrev (L.setNext (L.setPrev h l.head L.null) l.head l.tail)
    l.tail l.head) l.tail L.null, ?_, ⟨?_, ?_, ?_, ?_, ?_⟩, ?_⟩
  · simp only [LinkHeap.init, putPrev, putNext, if_neg (hL.ne_null hh), if_neg (hL.ne_null ht),
      bind, Except.bind]
  · simp only [nodes, List.nil_append, List.isChain_cons_cons, List.isChain_singleton, and_true]
    refine ⟨?_, ?_⟩
    · rw [hL.next_setNext_ne _ _ ht hh hne, hL.next_setPrev _ _ ht hh, hL.next_setNext _ _ hh]
    · rw [hL.prev_setNext _ _ ht ht, hL.prev_setPrev _ _ ht]
  · simpa [nodes] using hne
  · intro n hn
    simp only [nodes, List.nil_append, List.mem_cons, List.not_mem_nil, or_false] at hn
    rcases hn with rfl | rfl
    · exact hh
    · exact ht
  · rw [hL.prev_setNext _ _ ht hh, hL.prev_setPrev_ne _ _ ht hh hne, hL.prev_setNext _ _ hh hh,
      hL.prev_setPrev _ _ hh]
  · exact hL.next_setNext _ _ ht
  · refine .setNext _ (.setPrev _ (.setNext _ (.setPrev _ (.refl h) ?_) ?_) ?_) ?_
    all_goals simp

omit hL in
/-- There are more addresses than nodes on a list. -/
theorem IsList.length_lt {w : ℕ} {L : LinkHeap H (BitVec w)} {V : BitVec w → Prop}
    {l : Sentinels (BitVec w)} {xs : List (BitVec w)} (hl : L.IsList V h l xs) :
    xs.length < 2 ^ w := by
  have hnodes : ((nodes l xs).map BitVec.toNat).Nodup :=
    hl.nodup.map fun _ _ => BitVec.eq_of_toNat_eq
  have hsub : (nodes l xs).map BitVec.toNat ⊆ List.range (2 ^ w) := by
    intro a ha
    obtain ⟨e, -, rfl⟩ := List.mem_map.mp ha
    exact List.mem_range.mpr e.isLt
  have hlen := (List.Nodup.subperm hnodes hsub).length_le
  simp only [nodes, List.map_cons, List.map_append, List.map_nil, List.length_cons,
    List.length_append, List.length_map, List.length_nil, List.length_range] at hlen
  omega

/-! ## Families of lists -/

omit hL
variable (L V)

/-- Lists without a common node. -/
structure Family {ι : Type} (h : H) (l : ι → Sentinels N) (seqs : ι → List N) : Prop where
  isList : ∀ i, L.IsList V h (l i) (seqs i)
  disjoint : ∀ i j, i ≠ j → ∀ n ∈ nodes (l i) (seqs i), n ∉ nodes (l j) (seqs j)

variable {L V}
variable {ι : Type} [DecidableEq ι] {l : ι → Sentinels N} {seqs : ι → List N} {i : ι}

omit [DecidableEq N] [DecidableEq ι] in
theorem Family.congr (hf : L.Family V h l seqs)
    (hprev : ∀ i, ∀ n ∈ nodes (l i) (seqs i), L.prev h' n = L.prev h n)
    (hnext : ∀ i, ∀ n ∈ nodes (l i) (seqs i), L.next h' n = L.next h n) : L.Family V h' l seqs :=
  ⟨fun i => (hf.isList i).congr (hprev i) (hnext i), hf.disjoint⟩

include hL

omit [DecidableEq N] in
/-- A change of one list to nodes of its own and nodes of no list. -/
theorem Family.update (hf : L.Family V h l seqs) (hl : L.IsList V h' (l i) ys)
    (hsub : ∀ n ∈ nodes (l i) ys, ∀ j, j ≠ i → n ∉ nodes (l j) (seqs j))
    (hX : ∀ n, X n → V n) (hXi : ∀ n, X n → ∀ j, j ≠ i → n ∉ nodes (l j) (seqs j))
    (he : L.Edits X h h') : L.Family V h' l (Function.update seqs i ys) := by
  refine ⟨fun j => ?_, fun j k hjk n hn => ?_⟩
  · by_cases hji : j = i
    · subst hji
      simpa using hl
    · rw [Function.update_of_ne hji]
      exact (hf.isList j).frame hL he hX fun n hn hXn => hXi n hXn j hji hn
  · by_cases hji : j = i
    · subst hji
      rw [Function.update_self] at hn
      rw [Function.update_of_ne (Ne.symm hjk)]
      exact hsub n hn k (Ne.symm hjk)
    · rw [Function.update_of_ne hji] at hn
      by_cases hki : k = i
      · subst hki
        rw [Function.update_self]
        exact fun hk => hsub n hk j hji hn
      · rw [Function.update_of_ne hki]
        exact hf.disjoint j k hjk n hn

omit [DecidableEq N] in
/-- A change of one list by a node of no list. -/
theorem Family.add (hf : L.Family V h l seqs) (hV : V e) (hn : ∀ j, e ∉ nodes (l j) (seqs j))
    (hl : L.IsList V h' (l i) ys) (hys : ∀ n ∈ ys, n = e ∨ n ∈ seqs i)
    (he : L.Edits (fun n => n = e ∨ n ∈ nodes (l i) (seqs i)) h h') :
    L.Family V h' l (Function.update seqs i ys) := by
  have hnode : ∀ n, n = e ∨ n ∈ nodes (l i) (seqs i) →
      ∀ j, j ≠ i → n ∉ nodes (l j) (seqs j) := by
    rintro n (rfl | hni) j hji
    · exact hn j
    · exact hf.disjoint i j (Ne.symm hji) n hni
  refine hf.update hL hl (fun n hny => hnode n ?_) (fun n hXn => ?_) hnode he
  · rw [mem_nodes] at hny
    rcases hny with rfl | hny | rfl
    · exact Or.inr (mem_nodes.mpr (Or.inl rfl))
    · exact (hys n hny).imp id fun h => mem_nodes.mpr (Or.inr (Or.inl h))
    · exact Or.inr (mem_nodes.mpr (Or.inr (Or.inr rfl)))
  · rcases hXn with rfl | hni
    · exact hV
    · exact (hf.isList i).valid n hni

theorem Family.append (hf : L.Family V h l seqs) (i : ι) (hV : V e)
    (hn : ∀ j, e ∉ nodes (l j) (seqs j)) :
    ∃ h', L.append h (l i) e = .ok h' ∧
      L.Family V h' l (Function.update seqs i (seqs i ++ [e])) ∧
      L.Edits (fun n => n = e ∨ n ∈ nodes (l i) (seqs i)) h h' := by
  obtain ⟨h', hok, hl, he⟩ := (hf.isList i).append hL hV (hn i)
  exact ⟨h', hok, hf.add hL hV hn hl (by simp [or_comm]) he, he⟩

theorem Family.push (hf : L.Family V h l seqs) (i : ι) (hV : V e)
    (hn : ∀ j, e ∉ nodes (l j) (seqs j)) :
    ∃ h', L.push h (l i) e = .ok h' ∧
      L.Family V h' l (Function.update seqs i (e :: seqs i)) ∧
      L.Edits (fun n => n = e ∨ n ∈ nodes (l i) (seqs i)) h h' := by
  obtain ⟨h', hok, hl, he⟩ := (hf.isList i).push hL hV (hn i)
  exact ⟨h', hok, hf.add hL hV hn hl (by simp) he, he⟩

omit [DecidableEq N] in
/-- A change of one list to some of its nodes. -/
theorem Family.shrink (hf : L.Family V h l seqs) (hl : L.IsList V h' (l i) ys)
    (hys : ∀ n ∈ ys, n ∈ seqs i) (he : L.Edits (fun n => n ∈ nodes (l i) ys) h h') :
    L.Family V h' l (Function.update seqs i ys) := by
  have hsub : ∀ n ∈ nodes (l i) ys, n ∈ nodes (l i) (seqs i) := by
    intro n hn
    rw [mem_nodes] at hn ⊢
    exact hn.imp id (Or.imp (hys n) id)
  have hdisj : ∀ n ∈ nodes (l i) ys, ∀ j, j ≠ i → n ∉ nodes (l j) (seqs j) :=
    fun n hn j hji => hf.disjoint i j (Ne.symm hji) n (hsub n hn)
  exact hf.update hL hl hdisj (fun n hn => hl.valid n hn) hdisj he

theorem Family.remove (hf : L.Family V h l seqs) (hi : seqs i = xs ++ e :: ys) :
    ∃ h', L.remove h e = .ok h' ∧ L.Family V h' l (Function.update seqs i (xs ++ ys)) ∧
      L.Edits (fun n => n ∈ nodes (l i) (xs ++ ys)) h h' := by
  obtain ⟨h', hok, hl, he⟩ := IsList.remove hL (hi ▸ hf.isList i)
  refine ⟨h', hok, hf.shrink hL hl (fun n hn => ?_) he, he⟩
  rw [hi]
  simp only [List.mem_append, List.mem_cons] at hn ⊢
  exact hn.imp id Or.inr

theorem Family.pop (hf : L.Family V h l seqs) (hi : seqs i = e :: xs) :
    ∃ h', L.pop h (l i) = .ok (h', e) ∧ L.Family V h' l (Function.update seqs i xs) ∧
      L.Edits (fun n => n ∈ nodes (l i) xs) h h' := by
  obtain ⟨h', hok, hl, he⟩ := IsList.pop hL (hi ▸ hf.isList i)
  refine ⟨h', hok, hf.shrink hL hl (fun n hn => ?_) he, he⟩
  rw [hi]
  exact List.mem_cons_of_mem _ hn

end LinkHeap

end HcOs.Lib
