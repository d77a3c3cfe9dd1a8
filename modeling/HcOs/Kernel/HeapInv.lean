import Mathlib.Data.Finset.Card
import Mathlib.Data.Finset.Range
import HcOs.Kernel.Heap

/-!
# Who owns a byte of the heap

The pages a task gets from the page layer are its arenas.  An arena is small, then it is one page
split into blocks of one size, or it is large.  A block of a small arena is live or on the free list
of its size; the body of a large arena is live.

`Shape` says this of the arenas, the live blocks and the free lists, without looking at the memory.
`Stored` says that the memory holds what they are: the descriptors, the linked lists and the headers
of the arenas.  No word of these lies in a live block, so a task that writes to its blocks cannot
break them.
-/

namespace HcOs.Heap

open HcOs.Lib HcOs.Page

/-! ## Blocks of a small arena -/

/-- The size of the blocks of the descriptor number `i`. -/
def blockSize (i : ℕ) : ℕ := 16 * 2 ^ i

def blocksPerArena (i : ℕ) : ℕ := (pgSize - arenaSize) / blockSize i

/-- The block number `k` of the arena `a`. -/
def blockAt (a i k : ℕ) : ℕ := a + arenaSize + k * blockSize i

/-- Two ranges of bytes without a common byte. -/
def Apart (p n q k : ℕ) : Prop := p + n ≤ q ∨ q + k ≤ p

variable {a i k k' : ℕ}

theorem Apart.symm {p n q k : ℕ} (h : Apart p n q k) : Apart q k p n := Or.symm h

theorem blockSize_pos (i : ℕ) : 16 ≤ blockSize i :=
  Nat.le_mul_of_pos_right 16 (Nat.two_pow_pos i)

theorem blockAt_range (hk : k < blocksPerArena i) :
    a + 12 ≤ blockAt a i k ∧ blockAt a i k + blockSize i ≤ a + 4096 := by
  have hle : (k + 1) * blockSize i ≤ pgSize - arenaSize :=
    Nat.le_trans (Nat.mul_le_mul_right _ hk) (Nat.div_mul_le_self _ _)
  rw [Nat.add_mul, Nat.one_mul] at hle
  simp only [blockAt, arenaSize, pgSize] at hle ⊢
  omega

theorem blockAt_mod (ha : a % 4096 = 0) : blockAt a i k % 8 = 4 := by
  have h : blockAt a i k = a + 12 + 8 * (2 * (k * 2 ^ i)) := by
    simp only [blockAt, blockSize, arenaSize]
    rw [Nat.mul_left_comm]
    omega
  rw [h]
  omega

theorem block2arena_eq {p : ℕ} (ha : a % 4096 = 0) (h1 : a ≤ p) (h2 : p < a + 4096) :
    block2arena p = a := by
  simp only [block2arena, pgSize]
  omega

theorem block2arena_blockAt (ha : a % 4096 = 0) (hk : k < blocksPerArena i) :
    block2arena (blockAt a i k) = a := by
  have hr := blockAt_range (a := a) hk
  have hs := blockSize_pos i
  exact block2arena_eq ha (by omega) (by omega)

theorem blockAt_apart (h : k ≠ k') :
    Apart (blockAt a i k) (blockSize i) (blockAt a i k') (blockSize i) := by
  have key : ∀ {k k' : ℕ}, k < k' → blockAt a i k + blockSize i ≤ blockAt a i k' := fun {k k'} h => by
    have hle : (k + 1) * blockSize i ≤ k' * blockSize i := Nat.mul_le_mul_right _ h
    rw [Nat.add_mul, Nat.one_mul] at hle
    unfold blockAt
    omega
  rcases Nat.lt_or_gt_of_ne h with h | h
  · exact Or.inl (key h)
  · exact Or.inr (key h)

theorem blockAt_inj (h : blockAt a i k = blockAt a i k') : k = k' := by
  by_contra hne
  have hs := blockSize_pos i
  rcases blockAt_apart (a := a) (i := i) hne with h' | h' <;> omega

/-! ## List nodes -/

/-- Where a list node may lie: a sentinel of one of the descriptors, or a block away from them. -/
def Node (descs n : ℕ) : Prop :=
  n ≠ 0 ∧ ((∃ i, i < 7 ∧ (n = descs + i * descSize + 8 ∨ n = descs + i * descSize + 16)) ∨
    (n % 8 = 4 ∧ (n + 8 ≤ descs ∨ descs + 168 ≤ n)))

variable {descs : ℕ}

/-- Two nodes do not overlap. -/
theorem node_apart {n c : ℕ} (hn : Node descs n) (hc : Node descs c) : c ≠ n + 4 ∧ c + 4 ≠ n := by
  simp only [Node, descSize] at hn hc
  obtain ⟨-, ⟨i, hi, hn⟩ | hn⟩ := hn <;> obtain ⟨-, ⟨j, hj, hc⟩ | hc⟩ := hc <;> omega

theorem elems_lawful (descs : ℕ) : elems.Lawful (Node descs) where
  ne_null ha := ha.1
  prev_setPrev h a b _ := Function.update_self _ _ _
  next_setNext h a b _ := Function.update_self _ _ _
  prev_setPrev_ne h a c b _ _ hne := Function.update_of_ne hne _ _
  next_setNext_ne h a c b _ _ hne := Function.update_of_ne (by simpa using hne) _ _
  prev_setNext h a c b ha hc := Function.update_of_ne (node_apart ha hc).1 _ _
  next_setPrev h a c b ha hc := Function.update_of_ne (node_apart ha hc).2 _ _

/-- A word that is no field of the edited nodes keeps its value. -/
theorem edits_word {X : ℕ → Prop} {mem mem' : Words} (he : elems.Edits X mem mem') {w : ℕ}
    (hw : ∀ n, X n → w ≠ n ∧ w ≠ n + 4) : mem' w = mem w :=
  he.keeps (fun mem => mem w) (fun _ n _ hn => Function.update_of_ne (hw n hn).1 _ _)
    fun _ n _ hn => Function.update_of_ne (hw n hn).2 _ _

/-! ## The shape of a heap -/

/-- A block that `sys_malloc` returned for a request of `size` bytes. -/
structure Block where
  ptr : ℕ
  size : ℕ
deriving DecidableEq

/-- The runs of pages of a heap are aligned, lie away from its descriptors and from each other. -/
structure Layout (descs : ℕ) (runs : ℕ × ℕ → Prop) : Prop where
  run : ∀ r, runs r → r.1 % 4096 = 0 ∧ 0 < r.1 ∧ 1 ≤ r.2 ∧ r.1 + r.2 * 4096 ≤ 2 ^ 32 ∧
    Apart r.1 (r.2 * 4096) descs 168
  apart : ∀ r r', runs r → runs r' → r ≠ r' → Apart r.1 (r.2 * 4096) r'.1 (r'.2 * 4096)

/-- The kind of arena a request of `size` bytes is served from: the smallest blocks it fits in, or a
large arena. -/
def Fits : Option (Fin 7) → ℕ → Prop
  | some i, size => size ≤ blockSize i ∧ ∀ i' : ℕ, i' < i → blockSize i' < size
  | none, size => 1024 < size

theorem blockSize_mono {i j : ℕ} (h : i < j) : blockSize i < blockSize j :=
  Nat.mul_lt_mul_of_pos_left (Nat.pow_lt_pow_right (by decide) h) (by decide)

theorem fits_self (i : Fin 7) : Fits (some i) (blockSize i) :=
  ⟨Nat.le_refl _, fun _ h => blockSize_mono h⟩

theorem Fits.unique {kd kd' : Option (Fin 7)} {size : ℕ} (h : Fits kd size) (h' : Fits kd' size) :
    kd = kd' := by
  have hmax : ∀ i : Fin 7, blockSize i ≤ 1024 := by decide
  cases kd with
  | none =>
    cases kd' with
    | none => rfl
    | some i =>
      have := hmax i
      have h1 : 1024 < size := h
      have h2 := h'.1
      omega
  | some i =>
    cases kd' with
    | none =>
      have := hmax i
      have h1 : 1024 < size := h'
      have h2 := h.1
      omega
    | some i' =>
      rcases Nat.lt_trichotomy i i' with hlt | heq | hlt
      · exact absurd h.1 (Nat.not_le_of_lt (h'.2 i hlt))
      · rw [Fin.ext heq]
      · exact absurd h'.1 (Nat.not_le_of_lt (h.2 i' hlt))

/-- The block lies in the arena `r`, of the blocks number `i` or large. -/
def InArena (r : ℕ × ℕ) : Option (Fin 7) → Block → Prop
  | some i, b => (∃ k, k < blocksPerArena i ∧ b.ptr = blockAt r.1 i k) ∧ Fits (some i) b.size
  | none, b => b.ptr = r.1 + 12 ∧ b.size + 12 ≤ r.2 * 4096 ∧ Fits none b.size

theorem InArena.fits {r : ℕ × ℕ} {kd : Option (Fin 7)} {b : Block} (h : InArena r kd b) :
    Fits kd b.size := by
  cases kd with
  | none => exact h.2.2
  | some i => exact h.2

/-- The pointer is that of a live block. -/
def IsLive (live : List Block) (p : ℕ) : Prop := ∃ b ∈ live, b.ptr = p

structure Shape (descs : ℕ) (runs : ℕ × ℕ → Prop) (kind : ℕ → Option (Fin 7))
    (free : Fin 7 → List ℕ) (live : List Block) : Prop where
  layout : Layout descs runs
  onePage : ∀ r i, runs r → kind r.1 = some i → r.2 = 1
  free_iff : ∀ i e, e ∈ free i ↔ ∃ r k, runs r ∧ kind r.1 = some i ∧ k < blocksPerArena i ∧
    e = blockAt r.1 i k ∧ ¬IsLive live e
  live_mem : ∀ b ∈ live, ∃ r, runs r ∧ InArena r (kind r.1) b
  nodup : (live.map Block.ptr).Nodup

/-- Some block of the arena is live. -/
def Occupied (kind : ℕ → Option (Fin 7)) (live : List Block) (r : ℕ × ℕ) : Prop :=
  ∃ b ∈ live, InArena r (kind r.1) b

/-- The number of blocks of an arena on a free list. -/
def freeCnt (a i : ℕ) (free : List ℕ) : ℕ :=
  ((Finset.range (blocksPerArena i)).filter fun k => blockAt a i k ∈ free).card

/-- The header of an arena. -/
def Header (descs : ℕ) (mem : Words) (free : Fin 7 → List ℕ) (r : ℕ × ℕ) : Option (Fin 7) → Prop
  | none => mem r.1 = 0 ∧ mem (r.1 + 4) = r.2 ∧ mem (r.1 + 8) = 1
  | some i => mem r.1 = descs + i * descSize ∧ mem (r.1 + 8) = 0 ∧
      mem (r.1 + 4) = freeCnt r.1 i (free i)

/-- The free list of the descriptor number `i`. -/
def freeListOf (descs : ℕ) (i : Fin 7) : Sentinels ℕ := freeList (descs + i * descSize)

structure Stored (descs : ℕ) (mem : Words) (runs : ℕ × ℕ → Prop) (kind : ℕ → Option (Fin 7))
    (free : Fin 7 → List ℕ) : Prop where
  desc : ∀ i : Fin 7, mem (descs + i * descSize) = blockSize i ∧
    mem (descs + i * descSize + 4) = blocksPerArena i
  lists : elems.Family (Node descs) mem (freeListOf descs) free
  header : ∀ r, runs r → Header descs mem free r (kind r.1)

variable {runs runs' : ℕ × ℕ → Prop} {kind : ℕ → Option (Fin 7)} {free : Fin 7 → List ℕ}
variable {live : List Block} {mem mem' : Words} {r r' : ℕ × ℕ} {b b' : Block} {j : Fin 7} {e w : ℕ}

/-! ## Disjointness -/

theorem Layout.eq_of_base (h : Layout descs runs) (hr : runs r) (hr' : runs r')
    (hb : r.1 = r'.1) : r = r' := by
  by_contra hne
  have h1 := (h.run r hr).2.2.1
  have h1' := (h.run r' hr').2.2.1
  rcases h.apart r r' hr hr' hne with h2 | h2 <;> omega

/-- A run of pages away from the others and from the descriptors is added. -/
theorem Layout.add {n : ℕ} (h : Layout descs runs) (ha : a % 4096 = 0) (h0 : 0 < a) (hn : 1 ≤ n)
    (hend : a + n * 4096 ≤ 2 ^ 32) (hdesc : Apart a (n * 4096) descs 168)
    (hapart : ∀ r, runs r → Apart a (n * 4096) r.1 (r.2 * 4096))
    (hruns : ∀ r, runs' r ↔ r = (a, n) ∨ runs r) :
    Layout descs runs' ∧ ¬∃ r, runs r ∧ r.1 = a := by
  refine ⟨⟨fun r hr => ?_, fun r r' hr hr' hne => ?_⟩, ?_⟩
  · rcases (hruns r).mp hr with rfl | hr
    · exact ⟨ha, h0, hn, hend, hdesc⟩
    · exact h.run r hr
  · rcases (hruns r).mp hr with rfl | hr <;> rcases (hruns r').mp hr' with rfl | hr'
    · exact absurd rfl hne
    · exact hapart r' hr'
    · exact (hapart r hr).symm
    · exact h.apart r r' hr hr' hne
  · rintro ⟨r, hr, rfl⟩
    have hone := (h.run r hr).2.2.1
    rcases hapart r hr with h1 | h1 <;> omega

/-- The bytes a live block owns. -/
def span (r : ℕ × ℕ) : Option (Fin 7) → ℕ
  | some i => blockSize i
  | none => r.2 * 4096 - 12

theorem span_pos (kd : Option (Fin 7)) (hr : 1 ≤ r.2) : 0 < span r kd := by
  cases kd with
  | none =>
    simp only [span]
    omega
  | some i => exact Nat.lt_of_lt_of_le (by decide) (blockSize_pos i)

namespace Shape

variable (h : Shape descs runs kind free live)
include h

theorem block_range (hr : runs r) (hk : kind r.1 = some j) (hlt : k < blocksPerArena j) :
    r.1 + 12 ≤ blockAt r.1 j k ∧ blockAt r.1 j k + blockSize j ≤ r.1 + r.2 * 4096 := by
  have hrange := blockAt_range (a := r.1) hlt
  rw [h.onePage r j hr hk]
  omega

theorem inArena_range (hr : runs r) (hb : InArena r (kind r.1) b) :
    r.1 + 12 ≤ b.ptr ∧ b.ptr + span r (kind r.1) ≤ r.1 + r.2 * 4096 ∧
      b.size ≤ span r (kind r.1) := by
  have hone := (h.layout.run r hr).2.2.1
  cases hk : kind r.1 with
  | none =>
    rw [hk] at hb
    obtain ⟨hptr, hsize, -⟩ := hb
    simp only [span]
    omega
  | some i =>
    rw [hk] at hb
    obtain ⟨⟨k, hlt, hptr⟩, hsize, -⟩ := hb
    have hrange := h.block_range hr hk hlt
    simp only [span]
    omega

theorem block2arena_live (hr : runs r) (hb : InArena r (kind r.1) b) : block2arena b.ptr = r.1 := by
  have hbase := (h.layout.run r hr).1
  cases hk : kind r.1 with
  | none =>
    rw [hk] at hb
    exact block2arena_eq hbase (by have := hb.1; omega) (by have := hb.1; omega)
  | some i =>
    rw [hk] at hb
    obtain ⟨⟨k, hlt, hptr⟩, -⟩ := hb
    rw [hptr]
    exact block2arena_blockAt hbase hlt

/-- A block of a small arena lies away from the headers. -/
theorem block_header (hr : runs r) (hr' : runs r') (hk : kind r.1 = some j)
    (hlt : k < blocksPerArena j) : Apart (blockAt r.1 j k) (blockSize j) r'.1 12 := by
  have hrange := h.block_range hr hk hlt
  by_cases hrr : r = r'
  · subst hrr
    exact Or.inr hrange.1
  · have hone := (h.layout.run r' hr').2.2.1
    rcases h.layout.apart r r' hr hr' hrr with h1 | h1
    · exact Or.inl (by omega)
    · exact Or.inr (by omega)

theorem block_descs (hr : runs r) (hk : kind r.1 = some j) (hlt : k < blocksPerArena j) :
    Apart (blockAt r.1 j k) (blockSize j) descs 168 := by
  have hrange := h.block_range hr hk hlt
  rcases (h.layout.run r hr).2.2.2.2 with h1 | h1
  · exact Or.inl (by omega)
  · exact Or.inr (by omega)

theorem block_ne_sentinel (hr : runs r) (hk : kind r.1 = some j) (hlt : k < blocksPerArena j)
    (i : Fin 7) : blockAt r.1 j k ≠ (freeListOf descs i).head ∧
      blockAt r.1 j k ≠ (freeListOf descs i).tail := by
  have hi := i.isLt
  have hpos := blockSize_pos j
  simp only [freeListOf, freeList, descSize]
  rcases h.block_descs hr hk hlt with h1 | h1 <;> omega

theorem node_block (hr : runs r) (hk : kind r.1 = some j) (hlt : k < blocksPerArena j) :
    Node descs (blockAt r.1 j k) := by
  have hrange := h.block_range hr hk hlt
  have hrun := h.layout.run r hr
  have hsize := blockSize_pos j
  refine ⟨by omega, Or.inr ⟨blockAt_mod hrun.1, ?_⟩⟩
  rcases h.block_descs hr hk hlt with h1 | h1
  · exact Or.inl (by omega)
  · exact Or.inr h1

theorem eq_of_blockAt {i : Fin 7} {k' : ℕ} (hr : runs r) (hr' : runs r') (hk : kind r.1 = some i)
    (hk' : kind r'.1 = some j) (hlt : k < blocksPerArena i) (hlt' : k' < blocksPerArena j)
    (heq : blockAt r.1 i k = blockAt r'.1 j k') : r = r' ∧ i = j ∧ k = k' := by
  have hbase : r.1 = r'.1 := by
    rw [← block2arena_blockAt (h.layout.run r hr).1 hlt, heq,
      block2arena_blockAt (h.layout.run r' hr').1 hlt']
  obtain rfl := h.layout.eq_of_base hr hr' hbase
  rw [hk] at hk'
  cases hk'
  exact ⟨rfl, rfl, blockAt_inj heq⟩

/-- Two live blocks do not overlap. -/
theorem live_apart (hr : runs r) (hr' : runs r') (hb : InArena r (kind r.1) b)
    (hb' : InArena r' (kind r'.1) b') (hne : b.ptr ≠ b'.ptr) :
    Apart b.ptr (span r (kind r.1)) b'.ptr (span r' (kind r'.1)) := by
  have hrange := h.inArena_range hr hb
  have hrange' := h.inArena_range hr' hb'
  by_cases hrr : r = r'
  · subst hrr
    cases hk : kind r.1 with
    | none =>
      rw [hk] at hb hb'
      exact absurd (hb.1.trans hb'.1.symm) hne
    | some i =>
      rw [hk] at hb hb'
      obtain ⟨⟨k, -, hptr⟩, -⟩ := hb
      obtain ⟨⟨k', -, hptr'⟩, -⟩ := hb'
      simp only [span, hptr, hptr']
      refine blockAt_apart ?_
      rintro rfl
      exact hne (hptr.trans hptr'.symm)
  · rcases h.layout.apart r r' hr hr' hrr with h1 | h1
    · exact Or.inl (by omega)
    · exact Or.inr (by omega)

theorem live_header (hr : runs r) (hr' : runs r') (hb : InArena r (kind r.1) b) :
    Apart b.ptr (span r (kind r.1)) r'.1 12 := by
  have hrange := h.inArena_range hr hb
  by_cases hrr : r = r'
  · subst hrr
    exact Or.inr hrange.1
  · have hone := (h.layout.run r' hr').2.2.1
    rcases h.layout.apart r r' hr hr' hrr with h1 | h1
    · exact Or.inl (by omega)
    · exact Or.inr (by omega)

theorem live_descs (hr : runs r) (hb : InArena r (kind r.1) b) :
    Apart b.ptr (span r (kind r.1)) descs 168 := by
  have hrange := h.inArena_range hr hb
  rcases (h.layout.run r hr).2.2.2.2 with h1 | h1
  · exact Or.inl (by omega)
  · exact Or.inr (by omega)

/-- A live block does not overlap a block on a free list. -/
theorem live_free (hb : b ∈ live) (hr : runs r) (hin : InArena r (kind r.1) b) (he : e ∈ free j) :
    Apart b.ptr (span r (kind r.1)) e (blockSize j) := by
  obtain ⟨r', k', hr', hk', hlt', rfl, hnot⟩ := (h.free_iff j e).mp he
  have hrange := h.inArena_range hr hin
  have hrange' := h.block_range hr' hk' hlt'
  by_cases hrr : r = r'
  · subst hrr
    rw [hk'] at hin ⊢
    obtain ⟨⟨k, hlt, hptr⟩, -⟩ := hin
    simp only [span, hptr]
    refine blockAt_apart ?_
    rintro rfl
    exact hnot ⟨b, hb, hptr⟩
  · rcases h.layout.apart r r' hr hr' hrr with h1 | h1
    · exact Or.inl (by omega)
    · exact Or.inr (by omega)

theorem free_length (hnd : (free j).Nodup) : (free j).length ≤ 2 ^ 32 := by
  have hsub : (free j).toFinset ⊆ Finset.range (2 ^ 32) := by
    intro e he
    obtain ⟨r, k, hr, hk, hlt, rfl, -⟩ := (h.free_iff j e).mp (List.mem_toFinset.mp he)
    have hrange := h.block_range hr hk hlt
    have hend := (h.layout.run r hr).2.2.2.1
    have hpos := blockSize_pos j
    exact Finset.mem_range.mpr (by omega)
  have hcard := Finset.card_le_card hsub
  rwa [List.toFinset_card_of_nodup hnd, Finset.card_range] at hcard

/-- Two free blocks do not overlap. -/
theorem free_apart {i : Fin 7} {x : ℕ} (he : e ∈ free i) (hx : x ∈ free j) (hne : e ≠ x) :
    Apart e (blockSize i) x (blockSize j) := by
  obtain ⟨r, k, hr, hk, hlt, rfl, -⟩ := (h.free_iff i e).mp he
  obtain ⟨r', k', hr', hk', hlt', rfl, -⟩ := (h.free_iff j x).mp hx
  have hrange := h.block_range hr hk hlt
  have hrange' := h.block_range hr' hk' hlt'
  by_cases hrr : r = r'
  · subst hrr
    rw [hk] at hk'
    cases hk'
    refine blockAt_apart ?_
    rintro rfl
    exact hne rfl
  · rcases h.layout.apart r r' hr hr' hrr with h1 | h1
    · exact Or.inl (by omega)
    · exact Or.inr (by omega)

/-- The nodes of a free list are its sentinels and free blocks. -/
theorem node_cases {n : ℕ} (hn : n ∈ LinkHeap.nodes (freeListOf descs j) (free j)) :
    (n = descs + j * descSize + 8 ∨ n = descs + j * descSize + 16) ∨
      ∃ r k, runs r ∧ kind r.1 = some j ∧ k < blocksPerArena j ∧ n = blockAt r.1 j k := by
  rcases LinkHeap.mem_nodes.mp hn with rfl | hn | rfl
  · exact Or.inl (Or.inl rfl)
  · obtain ⟨r, k, hr, hk, hlt, rfl, -⟩ := (h.free_iff j n).mp hn
    exact Or.inr ⟨r, k, hr, hk, hlt, rfl⟩
  · exact Or.inl (Or.inr rfl)

/-- A word of a header is no field of a list node. -/
theorem header_ne_node {n : ℕ} (hr : runs r) (hlo : r.1 ≤ w) (hhi : w < r.1 + 12)
    (hn : n ∈ LinkHeap.nodes (freeListOf descs j) (free j)) : w ≠ n ∧ w ≠ n + 4 := by
  rcases h.node_cases hn with hn | ⟨r', k, hr', hk, hlt, rfl⟩
  · obtain ⟨-, -, hone, -, haway⟩ := h.layout.run r hr
    have hj := j.isLt
    simp only [descSize] at hn
    rcases haway with h1 | h1 <;> omega
  · have hsize := blockSize_pos j
    rcases h.block_header hr' hr hk hlt with h1 | h1 <;> omega

/-- Nor is a word outside the descriptors and the arenas. -/
theorem outside_ne_node {n : ℕ} (hdesc : w < descs ∨ descs + 168 ≤ w)
    (hrun : ∀ r, runs r → w < r.1 ∨ r.1 + r.2 * 4096 ≤ w)
    (hn : n ∈ LinkHeap.nodes (freeListOf descs j) (free j)) : w ≠ n ∧ w ≠ n + 4 := by
  rcases h.node_cases hn with hn | ⟨r', k, hr', hk, hlt, rfl⟩
  · have hj := j.isLt
    simp only [descSize] at hn
    omega
  · have hrange := h.block_range hr' hk hlt
    have hsize := blockSize_pos j
    have hout := hrun r' hr'
    omega

/-- Nor is the size or the count in a descriptor. -/
theorem desc_ne_node {i : Fin 7} {n : ℕ} (hw : w = descs + i * descSize ∨ w = descs + i * descSize + 4)
    (hn : n ∈ LinkHeap.nodes (freeListOf descs j) (free j)) : w ≠ n ∧ w ≠ n + 4 := by
  have hi := i.isLt
  have hj := j.isLt
  simp only [descSize] at hw
  rcases h.node_cases hn with hn | ⟨r', k, hr', hk, hlt, rfl⟩
  · simp only [descSize] at hn
    omega
  · have hsize := blockSize_pos j
    rcases h.block_descs hr' hk hlt with h1 | h1 <;> omega

end Shape

/-! ## Counting free blocks -/

theorem freeCnt_congr {f f' : List ℕ}
    (h : ∀ k, k < blocksPerArena i → (blockAt a i k ∈ f ↔ blockAt a i k ∈ f')) :
    freeCnt a i f = freeCnt a i f' := by
  unfold freeCnt
  congr 1
  exact Finset.filter_congr fun k hk => h k (Finset.mem_range.mp hk)

theorem freeCnt_le (f : List ℕ) : freeCnt a i f ≤ blocksPerArena i := by
  have := Finset.card_filter_le (Finset.range (blocksPerArena i)) fun k => blockAt a i k ∈ f
  rwa [Finset.card_range] at this

theorem freeCnt_eq_iff {f : List ℕ} :
    freeCnt a i f = blocksPerArena i ↔ ∀ k, k < blocksPerArena i → blockAt a i k ∈ f := by
  have := Finset.card_filter_eq_iff (s := Finset.range (blocksPerArena i))
    (p := fun k => blockAt a i k ∈ f)
  rw [Finset.card_range] at this
  unfold freeCnt
  rw [this]
  simp only [Finset.mem_range]

/-- One more block of the arena is free. -/
theorem freeCnt_insert {f f' : List ℕ} (hk : k < blocksPerArena i) (hn : blockAt a i k ∉ f)
    (h : ∀ x, x ∈ f' ↔ x = blockAt a i k ∨ x ∈ f) : freeCnt a i f' = freeCnt a i f + 1 := by
  have hset : ((Finset.range (blocksPerArena i)).filter fun x => blockAt a i x ∈ f') =
      insert k ((Finset.range (blocksPerArena i)).filter fun x => blockAt a i x ∈ f) := by
    ext x
    simp only [Finset.mem_filter, Finset.mem_range, Finset.mem_insert, h]
    constructor
    · rintro ⟨hx, heq | hx'⟩
      · exact Or.inl (blockAt_inj heq)
      · exact Or.inr ⟨hx, hx'⟩
    · rintro (rfl | ⟨hx, hx'⟩)
      · exact ⟨hk, Or.inl rfl⟩
      · exact ⟨hx, Or.inr hx'⟩
  rw [freeCnt, hset, Finset.card_insert_of_notMem, freeCnt]
  simp [hn]

theorem blocksPerArena_lt (i : ℕ) : blocksPerArena i < 256 := by
  have h : blocksPerArena i ≤ (pgSize - arenaSize) / 16 :=
    Nat.div_le_div_left (blockSize_pos i) (by decide)
  exact Nat.lt_of_le_of_lt h (by decide)

theorem blocksPerArena_pos (i : Fin 7) : 0 < blocksPerArena i := by
  revert i
  decide

/-! ## How the shape changes -/

theorem isLive_cons {p : ℕ} : IsLive (b :: live) p ↔ b.ptr = p ∨ IsLive live p := by
  simp only [IsLive, List.mem_cons, exists_eq_or_imp]

theorem isLive_erase {p : ℕ} (hn : (live.map Block.ptr).Nodup) (hb : b ∈ live) :
    IsLive (live.erase b) p ↔ p ≠ b.ptr ∧ IsLive live p := by
  have hperm := (List.perm_cons_erase hb).map Block.ptr
  rw [hperm.nodup_iff, List.map_cons, List.nodup_cons] at hn
  have hmem : ∀ q, IsLive (live.erase b) q ↔ q ∈ (live.erase b).map Block.ptr := by
    intro q
    simp only [IsLive, List.mem_map]
  have hold : IsLive live p ↔ p ∈ live.map Block.ptr := by simp only [IsLive, List.mem_map]
  rw [hmem, hold, hperm.mem_iff, List.map_cons, List.mem_cons]
  constructor
  · intro hp
    refine ⟨?_, Or.inr hp⟩
    rintro rfl
    exact hn.1 hp
  · rintro ⟨hne, hp⟩
    exact hp.resolve_left hne

namespace Shape

variable (h : Shape descs runs kind free live)
include h

/-- A large arena is added, with its block. -/
theorem addLarge {n size : ℕ} (hruns : ∀ r, runs' r ↔ r = (a, n) ∨ runs r)
    (hl : Layout descs runs') (hnew : ¬∃ r, runs r ∧ r.1 = a) (hsize : size + 12 ≤ n * 4096)
    (hfits : Fits none size) :
    Shape descs runs' (Function.update kind a none) free (⟨a + 12, size⟩ :: live) := by
  have hold : ∀ r, runs r → Function.update kind a none r.1 = kind r.1 := fun r hr =>
    Function.update_of_ne (fun he => hnew ⟨r, hr, he⟩) _ _
  have hself : Function.update kind a none a = none := Function.update_self _ _ _
  -- the new block lies in no old arena
  have hfar : ∀ r p, runs r → r.1 ≤ p → p < r.1 + r.2 * 4096 → p ≠ a + 12 := by
    rintro r p hr h1 h2 rfl
    have hne : r ≠ (a, n) := fun he => hnew ⟨r, hr, by rw [he]⟩
    have hone := (hl.run (a, n) ((hruns _).mpr (Or.inl rfl))).2.2.1
    simp only at hone
    rcases hl.apart r (a, n) ((hruns r).mpr (Or.inr hr)) ((hruns _).mpr (Or.inl rfl)) hne with
      h3 | h3 <;> simp only at h3 <;> omega
  refine ⟨hl, fun r i hr hk => ?_, fun i e => ?_, fun b hb => ?_, ?_⟩
  · rcases (hruns r).mp hr with rfl | hr
    · rw [hself] at hk
      cases hk
    · rw [hold r hr] at hk
      exact h.onePage r i hr hk
  · rw [h.free_iff]
    constructor
    · rintro ⟨r, k, hr, hk, hlt, rfl, hnot⟩
      refine ⟨r, k, (hruns r).mpr (Or.inr hr), (hold r hr).trans hk, hlt, rfl, ?_⟩
      rw [isLive_cons, not_or]
      have hrange := h.block_range hr hk hlt
      have hpos := blockSize_pos i
      exact ⟨fun he => hfar r _ hr (by omega) (by omega) he.symm, hnot⟩
    · rintro ⟨r, k, hr, hk, hlt, rfl, hnot⟩
      rcases (hruns r).mp hr with rfl | hr
      · rw [hself] at hk
        cases hk
      · rw [hold r hr] at hk
        rw [isLive_cons, not_or] at hnot
        exact ⟨r, k, hr, hk, hlt, rfl, hnot.2⟩
  · rcases List.mem_cons.mp hb with rfl | hb
    · refine ⟨(a, n), (hruns _).mpr (Or.inl rfl), ?_⟩
      rw [hself]
      exact ⟨rfl, hsize, hfits⟩
    · obtain ⟨r, hr, hin⟩ := h.live_mem b hb
      exact ⟨r, (hruns r).mpr (Or.inr hr), by rw [hold r hr]; exact hin⟩
  · rw [List.map_cons, List.nodup_cons]
    refine ⟨fun hm => ?_, h.nodup⟩
    obtain ⟨b, hb, hptr⟩ := List.mem_map.mp hm
    obtain ⟨r, hr, hin⟩ := h.live_mem b hb
    have hrange := h.inArena_range hr hin
    have hone := (h.layout.run r hr).2.2.1
    have hspan := span_pos (kind r.1) hone
    exact hfar r b.ptr hr (by omega) (by omega) hptr

/-- A small arena is added, all its blocks free. -/
theorem addSmall (hruns : ∀ r, runs' r ↔ r = (a, 1) ∨ runs r) (hl : Layout descs runs')
    (hnew : ¬∃ r, runs r ∧ r.1 = a) {f : List ℕ}
    (hf : ∀ e, e ∈ f ↔ (∃ k, k < blocksPerArena j ∧ e = blockAt a j k) ∨ e ∈ free j) :
    Shape descs runs' (Function.update kind a (some j)) (Function.update free j f) live := by
  have hold : ∀ r, runs r → Function.update kind a (some j) r.1 = kind r.1 := fun r hr =>
    Function.update_of_ne (fun he => hnew ⟨r, hr, he⟩) _ _
  have hself : Function.update kind a (some j) a = some j := Function.update_self _ _ _
  have hfar : ∀ k, k < blocksPerArena j → ¬IsLive live (blockAt a j k) := by
    rintro k hlt ⟨b, hb, hptr⟩
    obtain ⟨r, hr, hin⟩ := h.live_mem b hb
    have hrange := h.inArena_range hr hin
    have hrange' := blockAt_range (a := a) hlt
    have hpos := blockSize_pos j
    have hne : r ≠ (a, 1) := fun he => hnew ⟨r, hr, by rw [he]⟩
    have hspan := span_pos (kind r.1) (h.layout.run r hr).2.2.1
    rcases hl.apart r (a, 1) ((hruns r).mpr (Or.inr hr)) ((hruns _).mpr (Or.inl rfl)) hne with
      h3 | h3 <;> simp only at h3 <;> omega
  refine ⟨hl, fun r i hr hk => ?_, fun i e => ?_, fun b hb => ?_, h.nodup⟩
  · rcases (hruns r).mp hr with rfl | hr
    · rfl
    · rw [hold r hr] at hk
      exact h.onePage r i hr hk
  · have hmem : e ∈ Function.update free j f i ↔
        (i = j ∧ ∃ k, k < blocksPerArena j ∧ e = blockAt a j k) ∨ e ∈ free i := by
      by_cases hij : i = j
      · subst hij
        simp [hf]
      · simp [hij]
    rw [hmem, h.free_iff]
    constructor
    · rintro (⟨rfl, k, hlt, rfl⟩ | ⟨r, k, hr, hk, hlt, rfl, hnot⟩)
      · exact ⟨(a, 1), k, (hruns _).mpr (Or.inl rfl), hself, hlt, rfl, hfar k hlt⟩
      · exact ⟨r, k, (hruns r).mpr (Or.inr hr), (hold r hr).trans hk, hlt, rfl, hnot⟩
    · rintro ⟨r, k, hr, hk, hlt, rfl, hnot⟩
      rcases (hruns r).mp hr with rfl | hr
      · rw [hself] at hk
        cases hk
        exact Or.inl ⟨rfl, k, hlt, rfl⟩
      · rw [hold r hr] at hk
        exact Or.inr ⟨r, k, hr, hk, hlt, rfl, hnot⟩
  · obtain ⟨r, hr, hin⟩ := h.live_mem b hb
    exact ⟨r, (hruns r).mpr (Or.inr hr), by rw [hold r hr]; exact hin⟩

/-- The free lists without the first block of one of them. -/
theorem mem_tail {xs : List ℕ} (hfree : free j = e :: xs) (hnd : (e :: xs).Nodup) (i : Fin 7)
    (x : ℕ) : x ∈ Function.update free j xs i ↔ x ≠ e ∧ x ∈ free i := by
  have he : e ∈ free j := by rw [hfree]; exact List.mem_cons_self
  obtain ⟨r, k, hr, hk, hlt, hblock, hnot⟩ := (h.free_iff j e).mp he
  by_cases hij : i = j
  · subst hij
    rw [Function.update_self, hfree, List.mem_cons]
    constructor
    · intro hx
      refine ⟨?_, Or.inr hx⟩
      rintro rfl
      exact (List.nodup_cons.mp hnd).1 hx
    · rintro ⟨hne, hx⟩
      exact hx.resolve_left hne
  · rw [Function.update_of_ne hij]
    refine ⟨fun hx => ⟨?_, hx⟩, fun hx => hx.2⟩
    rintro rfl
    obtain ⟨r', k', hr', hk', hlt', hblock', -⟩ := (h.free_iff i x).mp hx
    exact hij (h.eq_of_blockAt hr' hr hk' hk hlt' hlt (hblock'.symm.trans hblock)).2.1

/-- The first block of a free list becomes live. -/
theorem take {xs : List ℕ} {size : ℕ} (hfree : free j = e :: xs) (hnd : (e :: xs).Nodup)
    (hfits : Fits (some j) size) :
    Shape descs runs kind (Function.update free j xs) (⟨e, size⟩ :: live) := by
  have he : e ∈ free j := by rw [hfree]; exact List.mem_cons_self
  obtain ⟨r, k, hr, hk, hlt, hblock, hnot⟩ := (h.free_iff j e).mp he
  have hmem := h.mem_tail hfree hnd
  refine ⟨h.layout, h.onePage, fun i x => ?_, fun b hb => ?_, ?_⟩
  · rw [hmem, h.free_iff]
    constructor
    · rintro ⟨hne, r', k', hr', hk', hlt', rfl, hnl⟩
      refine ⟨r', k', hr', hk', hlt', rfl, ?_⟩
      rw [isLive_cons, not_or]
      exact ⟨fun he => hne he.symm, hnl⟩
    · rintro ⟨r', k', hr', hk', hlt', rfl, hnl⟩
      rw [isLive_cons, not_or] at hnl
      exact ⟨fun he => hnl.1 he.symm, r', k', hr', hk', hlt', rfl, hnl.2⟩
  · rcases List.mem_cons.mp hb with rfl | hb
    · refine ⟨r, hr, ?_⟩
      rw [hk]
      exact ⟨⟨k, hlt, hblock⟩, hfits⟩
    · exact h.live_mem b hb
  · rw [List.map_cons, List.nodup_cons]
    refine ⟨fun hm => ?_, h.nodup⟩
    obtain ⟨b, hb, hptr⟩ := List.mem_map.mp hm
    exact hnot ⟨b, hb, hptr⟩

/-- A live block of a small arena becomes free. -/
theorem give (hb : b ∈ live) (hr : runs r) (hk : kind r.1 = some j)
    (hlt : k < blocksPerArena j) (hptr : b.ptr = blockAt r.1 j k) :
    Shape descs runs kind (Function.update free j (free j ++ [b.ptr])) (live.erase b) := by
  refine ⟨h.layout, h.onePage, fun i x => ?_, fun b' hb' => h.live_mem b' (List.mem_of_mem_erase hb'),
    ?_⟩
  · have hmem : x ∈ Function.update free j (free j ++ [b.ptr]) i ↔
        (i = j ∧ x = b.ptr) ∨ x ∈ free i := by
      by_cases hij : i = j
      · subst hij
        simp [or_comm]
      · simp [hij]
    rw [hmem, h.free_iff]
    simp only [isLive_erase h.nodup hb, not_and_or, not_not]
    constructor
    · rintro (⟨rfl, rfl⟩ | ⟨r', k', hr', hk', hlt', hx, hnl⟩)
      · exact ⟨r, k, hr, hk, hlt, hptr, Or.inl rfl⟩
      · exact ⟨r', k', hr', hk', hlt', hx, Or.inr hnl⟩
    · rintro ⟨r', k', hr', hk', hlt', hx, rfl | hnl⟩
      · have heq := h.eq_of_blockAt hr' hr hk' hk hlt' hlt (hx.symm.trans hptr)
        exact Or.inl ⟨heq.2.1, rfl⟩
      · exact Or.inr ⟨r', k', hr', hk', hlt', hx, hnl⟩
  · exact h.nodup.sublist ((List.erase_sublist).map _)

/-- Some arenas go, none of them with a live block left. -/
theorem drop {free' : Fin 7 → List ℕ} {live' : List Block} (hruns : ∀ r', runs' r' ↔ runs r' ∧ r' ≠ r)
    (hfree : ∀ i x, x ∈ free' i ↔ x ∈ free i ∧ ¬∃ k, k < blocksPerArena i ∧ kind r.1 = some i ∧
      x = blockAt r.1 i k)
    (hsub : live'.Sublist live) (hlive : ∀ b ∈ live', ¬InArena r (kind r.1) b)
    (hsame : ∀ r' i k, runs' r' → kind r'.1 = some i → k < blocksPerArena i →
      (IsLive live' (blockAt r'.1 i k) ↔ IsLive live (blockAt r'.1 i k))) (hr : runs r) :
    Shape descs runs' kind free' live' := by
  have hsubset : ∀ r', runs' r' → runs r' := fun r' hr' => ((hruns r').mp hr').1
  refine ⟨⟨fun r' hr' => h.layout.run r' (hsubset r' hr'),
    fun r₁ r₂ h₁ h₂ => h.layout.apart r₁ r₂ (hsubset r₁ h₁) (hsubset r₂ h₂)⟩,
    fun r' i hr' => h.onePage r' i (hsubset r' hr'), fun i x => ?_, fun b hb => ?_, ?_⟩
  · rw [hfree, h.free_iff]
    constructor
    · rintro ⟨⟨r', k, hr', hk, hlt, rfl, hnl⟩, hgone⟩
      have hr₁ : runs' r' := (hruns r').mpr ⟨hr', by
        rintro rfl
        exact hgone ⟨k, hlt, hk, rfl⟩⟩
      exact ⟨r', k, hr₁, hk, hlt, rfl, fun hl => hnl ((hsame r' i k hr₁ hk hlt).mp hl)⟩
    · rintro ⟨r', k, hr', hk, hlt, rfl, hnl⟩
      refine ⟨⟨r', k, hsubset r' hr', hk, hlt, rfl, fun hl => hnl ((hsame r' i k hr' hk hlt).mpr hl)⟩,
        ?_⟩
      rintro ⟨k', hlt', hk', heq⟩
      exact ((hruns r').mp hr').2 (h.eq_of_blockAt (hsubset r' hr') hr hk hk' hlt hlt' heq).1
  · obtain ⟨r', hr', hin⟩ := h.live_mem b (hsub.subset hb)
    refine ⟨r', (hruns r').mpr ⟨hr', ?_⟩, hin⟩
    rintro rfl
    exact hlive b hb hin
  · exact h.nodup.sublist (hsub.map _)

/-- The arena of a live block is the one its address lies in. -/
theorem inArena_of_range (hb : b ∈ live) (hr : runs r) (hlo : r.1 ≤ b.ptr)
    (hhi : b.ptr < r.1 + r.2 * 4096) : InArena r (kind r.1) b := by
  obtain ⟨r', hr', hin⟩ := h.live_mem b hb
  have hrange := h.inArena_range hr' hin
  have hspan := span_pos (kind r'.1) (h.layout.run r' hr').2.2.1
  by_cases hrr : r' = r
  · rwa [hrr] at hin
  · rcases h.layout.apart r' r hr' hr hrr with h1 | h1 <;> omega

theorem isLive_or_free (hr : runs r) (hk : kind r.1 = some j) (hlt : k < blocksPerArena j) :
    blockAt r.1 j k ∈ free j ↔ ¬IsLive live (blockAt r.1 j k) := by
  rw [h.free_iff]
  constructor
  · rintro ⟨r', k', -, -, -, -, hnl⟩
    exact hnl
  · exact fun hnl => ⟨r, k, hr, hk, hlt, rfl, hnl⟩

/-- An arena is occupied as long as not all of its blocks are free. -/
theorem occupied_iff (hr : runs r) (hk : kind r.1 = some j) :
    Occupied kind live r ↔ freeCnt r.1 j (free j) < blocksPerArena j := by
  rw [Nat.lt_iff_le_and_ne, and_iff_right (freeCnt_le _), Ne, freeCnt_eq_iff]
  constructor
  · rintro ⟨b, hb, hin⟩ hall
    rw [hk] at hin
    obtain ⟨⟨k, hlt, hptr⟩, -⟩ := hin
    exact (h.isLive_or_free hr hk hlt).mp (hall k hlt) ⟨b, hb, hptr⟩
  · intro hnot
    push Not at hnot
    obtain ⟨k, hlt, hk'⟩ := hnot
    rw [h.isLive_or_free hr hk hlt, not_not] at hk'
    obtain ⟨b, hb, hptr⟩ := hk'
    have hrange := h.block_range hr hk hlt
    have hpos := blockSize_pos j
    exact ⟨b, hb, h.inArena_of_range hb hr (by omega) (by omega)⟩

end Shape

/-- An arena stays occupied when a block becomes live. -/
theorem Occupied.cons {kind' : ℕ → Option (Fin 7)} (h : Occupied kind live r)
    (hk : kind' r.1 = kind r.1) : Occupied kind' (b :: live) r := by
  obtain ⟨b', hb', hin⟩ := h
  exact ⟨b', List.mem_cons_of_mem b hb', by rw [hk]; exact hin⟩

/-- The other arenas stay occupied when a block is freed. -/
theorem Occupied.erase (h : Shape descs runs kind free live) (hr : runs r)
    (hb : InArena r (kind r.1) b) (hr' : runs r') (hne : r' ≠ r) (ho : Occupied kind live r') :
    Occupied kind (live.erase b) r' := by
  obtain ⟨b', hb', hin⟩ := ho
  refine ⟨b', (List.mem_erase_of_ne ?_).mpr hb', hin⟩
  rintro rfl
  refine hne (h.layout.eq_of_base hr' hr ?_)
  rw [← h.block2arena_live hr' hin, h.block2arena_live hr hb]

/-! ## What is stored -/

/-- The number of bytes a block owns, as its header tells it. -/
def owned (mem : Words) (p : ℕ) : ℕ :=
  let a := block2arena p
  if mem a = 0 ∧ mem (a + 8) = 1 then mem (a + 4) * pgSize - arenaSize else mem (mem a)

theorem owned_eq (h : Shape descs runs kind free live) (hst : Stored descs mem runs kind free)
    (hr : runs r) (hb : InArena r (kind r.1) b) : owned mem b.ptr = span r (kind r.1) := by
  have hhead := hst.header r hr
  unfold owned
  rw [h.block2arena_live hr hb]
  cases hk : kind r.1 with
  | none =>
    rw [hk] at hhead
    simp only [hhead.1, hhead.2.1, hhead.2.2, and_self, if_true]
    rfl
  | some i =>
    rw [hk] at hhead
    simp only [hhead.2.1, Nat.zero_ne_one, and_false, if_false]
    rw [hhead.1, (hst.desc i).1]
    rfl

/-- A free list is kept when the sentinels and the free blocks keep their links. -/
theorem lists_congr (hl : elems.Family (Node descs) mem (freeListOf descs) free)
    (hdesc : ∀ w, descs ≤ w → w < descs + 168 → mem' w = mem w)
    (hfree : ∀ i, ∀ e ∈ free i, mem' e = mem e ∧ mem' (e + 4) = mem (e + 4)) :
    elems.Family (Node descs) mem' (freeListOf descs) free := by
  have hnode : ∀ i, ∀ n ∈ LinkHeap.nodes (freeListOf descs i) (free i),
      mem' n = mem n ∧ mem' (n + 4) = mem (n + 4) := by
    intro i n hn
    have hi := i.isLt
    rcases LinkHeap.mem_nodes.mp hn with rfl | hn | rfl
    · simp only [freeListOf, freeList, descSize]
      exact ⟨hdesc _ (by omega) (by omega), hdesc _ (by omega) (by omega)⟩
    · exact hfree i n hn
    · simp only [freeListOf, freeList, descSize]
      exact ⟨hdesc _ (by omega) (by omega), hdesc _ (by omega) (by omega)⟩
  exact hl.congr (fun i n hn => (hnode i n hn).1) fun i n hn => (hnode i n hn).2

/-- A header depends on its three words and on the count of free blocks. -/
theorem header_congr {free' : Fin 7 → List ℕ} {kd : Option (Fin 7)}
    (h : Header descs mem free r kd) (hw : ∀ w, r.1 ≤ w → w < r.1 + 12 → mem' w = mem w)
    (hcnt : ∀ i, kd = some i → freeCnt r.1 i (free' i) = freeCnt r.1 i (free i)) :
    Header descs mem' free' r kd := by
  have h0 := hw r.1 (Nat.le_refl _) (by omega)
  have h4 := hw (r.1 + 4) (by omega) (by omega)
  have h8 := hw (r.1 + 8) (by omega) (by omega)
  cases kd with
  | none => simpa only [Header, h0, h4, h8] using h
  | some i => simpa only [Header, h0, h4, h8, hcnt i rfl] using h

/-- What is stored does not depend on the words of the live blocks. -/
theorem Stored.congr (h : Stored descs mem runs kind free)
    (hdesc : ∀ w, descs ≤ w → w < descs + 168 → mem' w = mem w)
    (hhead : ∀ r, runs r → ∀ w, r.1 ≤ w → w < r.1 + 12 → mem' w = mem w)
    (hfree : ∀ i, ∀ e ∈ free i, mem' e = mem e ∧ mem' (e + 4) = mem (e + 4)) :
    Stored descs mem' runs kind free := by
  refine ⟨fun i => ?_, lists_congr h.lists hdesc hfree, fun r hr => ?_⟩
  · have hi := i.isLt
    simp only [descSize]
    rw [hdesc _ (by omega) (by omega), hdesc _ (by omega) (by omega)]
    exact h.desc i
  · exact header_congr (h.header r hr) (hhead r hr) fun _ _ => rfl

end HcOs.Heap
