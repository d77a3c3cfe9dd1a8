import Mathlib.Data.List.Range
import HcOs.Kernel.HeapInv

/-!
# What `sys_malloc` and `sys_free` do

One lemma for each function of `Heap`, over any page layer that gives out aligned runs of pages
apart from the ones it has given out before.
-/

namespace HcOs.Heap

open HcOs.Lib HcOs.Page

variable {descs : ℕ} {runs runs' : ℕ × ℕ → Prop} {kind : ℕ → Option (Fin 7)}
variable {free : Fin 7 → List ℕ} {live : List Block} {mem mem' : Words} {r r' : ℕ × ℕ} {b : Block}
variable {j : Fin 7} {a e k w : ℕ}

/-! ## Lists in memory -/

theorem find_eq (hl : elems.Family (Node descs) mem (freeListOf descs) free)
    (hlen : (free j).length ≤ 2 ^ 32) (e : ℕ) :
    find mem (descs + j * descSize) e = .ok (decide (e ∈ free j)) := by
  unfold find
  exact elemFind_isList (elems_lawful descs) (hl.isList j) hlen e

theorem free_nodup (hl : elems.Family (Node descs) mem (freeListOf descs) free) (j : Fin 7) :
    (free j).Nodup := by
  have := (hl.isList j).nodup
  rw [LinkHeap.nodes] at this
  exact ((List.nodup_cons.mp this).2).of_append_left

theorem memset_eq (size : ℕ) (ha : a ≠ 0) :
    memset mem a size = .ok fun w => if a ≤ w ∧ w < a + size then 0 else mem w :=
  assert_bind_of ha _

/-! ## Taking a block -/

/-- The count of a small arena is written. -/
theorem stored_setCnt (h : Shape descs runs kind free live)
    (hdesc : ∀ i : Fin 7, mem (descs + i * descSize) = blockSize i ∧
      mem (descs + i * descSize + 4) = blocksPerArena i)
    (hl : elems.Family (Node descs) mem (freeListOf descs) free) (hr : runs r)
    (hk : kind r.1 = some j) (h0 : mem r.1 = descs + j * descSize) (h8 : mem (r.1 + 8) = 0)
    (hrest : ∀ r', runs r' → r' ≠ r → Header descs mem free r' (kind r'.1)) {cnt : ℕ}
    (hcnt : cnt = freeCnt r.1 j (free j)) :
    Stored descs (Function.update mem (r.1 + 4) cnt) runs kind free := by
  have hrun := h.layout.run r hr
  have hsame : ∀ w, w ≠ r.1 + 4 → Function.update mem (r.1 + 4) cnt w = mem w := fun w hw =>
    Function.update_of_ne hw _ _
  have hsame_desc : ∀ w, descs ≤ w → w < descs + 168 →
      Function.update mem (r.1 + 4) cnt w = mem w := by
    intro w h1 h2
    refine hsame w ?_
    rcases hrun.2.2.2.2 with h3 | h3 <;> omega
  refine ⟨fun i => ?_, lists_congr hl hsame_desc fun i x hx => ?_, fun r' hr' => ?_⟩
  · have hi := i.isLt
    rw [hsame_desc _ (by simp only [descSize]; omega) (by simp only [descSize]; omega),
      hsame_desc _ (by simp only [descSize]; omega) (by simp only [descSize]; omega)]
    exact hdesc i
  · have hne := h.header_ne_node (w := r.1 + 4) hr (by omega) (by omega)
      (LinkHeap.mem_nodes.mpr (Or.inr (Or.inl hx)))
    exact ⟨hsame x hne.1.symm, hsame (x + 4) hne.2.symm⟩
  · by_cases hrr : r' = r
    · subst hrr
      rw [hk]
      refine ⟨?_, ?_, ?_⟩
      · rw [hsame _ (by omega), h0]
      · rw [hsame _ (by omega), h8]
      · rw [Function.update_self, hcnt]
    · refine header_congr (hrest r' hr' hrr) (fun w h1 h2 => hsame w ?_) fun _ _ => rfl
      have h4 := (h.layout.run r' hr').2.2.1
      have h5 := hrun.2.2.1
      rcases h.layout.apart r' r hr' hr hrr with h6 | h6 <;> omega

theorem takeBlock_spec (h : Shape descs runs kind free live)
    (hst : Stored descs mem runs kind free) {xs : List ℕ} (hfree : free j = e :: xs) :
    ∃ mem', takeBlock mem (descs + j * descSize) = .ok (mem', e) ∧
      Stored descs mem' runs kind (Function.update free j xs) ∧
      ∀ w, e ≤ w → w < e + blockSize j → mem' w = 0 := by
  have he : e ∈ free j := by rw [hfree]; exact List.mem_cons_self
  obtain ⟨r, k, hr, hk, hlt, hblock, -⟩ := (h.free_iff j e).mp he
  have hnd : (e :: xs).Nodup := hfree ▸ free_nodup hst.lists j
  obtain ⟨mem₁, hpop, hl₁, hed⟩ := hst.lists.pop (elems_lawful descs) hfree
  have hnode : ∀ n ∈ LinkHeap.nodes (freeListOf descs j) xs,
      n ∈ LinkHeap.nodes (freeListOf descs j) (free j) := by
    intro n hn
    rw [LinkHeap.mem_nodes] at hn ⊢
    rw [hfree]
    exact hn.imp id (Or.imp (List.mem_cons_of_mem e) id)
  have hdesc₁ : ∀ (i : Fin 7) w, w = descs + i * descSize ∨ w = descs + i * descSize + 4 →
      mem₁ w = mem w := fun i w hw => edits_word hed fun n hn => h.desc_ne_node hw (hnode n hn)
  have hhead₁ : ∀ r, runs r → ∀ w, r.1 ≤ w → w < r.1 + 12 → mem₁ w = mem w := fun r hr w h1 h2 =>
    edits_word hed fun n hn => h.header_ne_node hr h1 h2 (hnode n hn)
  have hmem := h.mem_tail hfree hnd
  have hrange := h.block_range hr hk hlt
  have hbd := h.block_descs hr hk hlt
  rw [← hblock] at hrange hbd
  have hbs : mem₁ (descs + j * descSize) = blockSize j :=
    (hdesc₁ j _ (Or.inl rfl)).trans (hst.desc j).1
  -- the block is cleared
  set mem₂ : Words := fun w => if e ≤ w ∧ w < e + blockSize j then 0 else mem₁ w with hmem₂
  have hsame : ∀ w, ¬(e ≤ w ∧ w < e + blockSize j) → mem₂ w = mem₁ w := fun w hw => if_neg hw
  have hdesc₂ : ∀ w, descs ≤ w → w < descs + 168 → mem₂ w = mem₁ w := by
    intro w h1 h2
    refine hsame w ?_
    rcases hbd with h3 | h3 <;> omega
  have hhead₂ : ∀ r', runs r' → ∀ w, r'.1 ≤ w → w < r'.1 + 12 → mem₂ w = mem w := by
    intro r' hr' w h1 h2
    rw [hsame w ?_, hhead₁ r' hr' w h1 h2]
    rw [hblock]
    rcases h.block_header hr hr' hk hlt with h3 | h3 <;> omega
  have hl₂ : elems.Family (Node descs) mem₂ (freeListOf descs) (Function.update free j xs) := by
    refine lists_congr hl₁ hdesc₂ fun i x hx => ?_
    obtain ⟨hxe, hx⟩ := (hmem i x).mp hx
    have hpos := blockSize_pos i
    refine ⟨hsame x ?_, hsame (x + 4) ?_⟩ <;>
      rcases h.free_apart he hx hxe.symm with h3 | h3 <;> omega
  -- the arena has one free block less
  have hhead := hst.header r hr
  rw [hk] at hhead
  obtain ⟨h0, h8, h4⟩ := hhead
  have hins : freeCnt r.1 j (free j) = freeCnt r.1 j (Function.update free j xs j) + 1 := by
    refine freeCnt_insert hlt ?_ fun x => ?_
    · rw [hmem, ← hblock]
      exact fun hx => hx.1 rfl
    · rw [hmem, ← hblock]
      constructor
      · intro hx
        by_cases hxe : x = e
        · exact Or.inl hxe
        · exact Or.inr ⟨hxe, hx⟩
      · rintro (rfl | hx)
        · exact he
        · exact hx.2
  have hcnt : sub32 (mem₂ (r.1 + 4)) 1 = freeCnt r.1 j (Function.update free j xs j) := by
    have hle := freeCnt_le (a := r.1) (i := j) (free j)
    have hlt' := blocksPerArena_lt j
    rw [hhead₂ r hr _ (by omega) (by omega), h4, hins, sub32_eq (by omega) (by omega)]
    omega
  refine ⟨Function.update mem₂ (r.1 + 4) (sub32 (mem₂ (r.1 + 4)) 1), ?_,
    stored_setCnt (h.take hfree hnd (fits_self j)) (fun i => ?_) hl₂ hr hk ?_ ?_
      (fun r' hr' hrr => ?_) hcnt, fun w h1 h2 => ?_⟩
  · have he0 : e ≠ 0 := by omega
    rw [takeBlock, freeListOf] at *
    rw [listPop_ok hpop, ok_bind]
    simp only
    rw [hbs, memset_eq _ he0, ok_bind, hblock, block2arena_blockAt (h.layout.run r hr).1 hlt, ← hblock]
  · have hi := i.isLt
    rw [hdesc₂ _ (by simp only [descSize]; omega) (by simp only [descSize]; omega),
      hdesc₂ _ (by simp only [descSize]; omega) (by simp only [descSize]; omega),
      hdesc₁ i _ (Or.inl rfl), hdesc₁ i _ (Or.inr rfl)]
    exact hst.desc i
  · rw [hhead₂ r hr _ (by omega) (by omega), h0]
  · rw [hhead₂ r hr _ (by omega) (by omega), h8]
  · refine header_congr (hst.header r' hr') (hhead₂ r' hr') fun i hi => freeCnt_congr fun k' hk' => ?_
    rw [hmem]
    refine ⟨fun hx => hx.2, fun hx => ⟨fun hxe => hrr ?_, hx⟩⟩
    exact (h.eq_of_blockAt hr' hr hi hk hk' hlt (hxe.trans hblock)).1
  · rw [Function.update_of_ne (by omega)]
    exact if_pos ⟨h1, h2⟩

/-! ## A new arena -/

theorem arena2block_eq (hdesc : mem a = descs + j * descSize)
    (hsize : mem (descs + j * descSize) = blockSize j) (idx : ℕ) :
    arena2block mem a idx = blockAt a j idx := by
  unfold arena2block
  rw [blockAt, hdesc, hsize]

/-- The blocks `idx`, …, `idx + left - 1` of an arena are appended to its free list.  `X` are the list
nodes that are written. -/
theorem splitLoop_spec {X : ℕ → Prop} (left idx : ℕ)
    (hX : ∀ n, X n → (a ≠ n ∧ a ≠ n + 4) ∧
      descs + j * descSize ≠ n ∧ descs + j * descSize ≠ n + 4)
    (hl : elems.Family (Node descs) mem (freeListOf descs) free)
    (hdesc : mem a = descs + j * descSize) (hsize : mem (descs + j * descSize) = blockSize j)
    (hnew : ∀ k, idx ≤ k → k < idx + left → Node descs (blockAt a j k) ∧ X (blockAt a j k) ∧
      ∀ i, blockAt a j k ∉ LinkHeap.nodes (freeListOf descs i) (free i))
    (hold : ∀ n ∈ LinkHeap.nodes (freeListOf descs j) (free j), X n)
    (hlen : (free j).length + left ≤ 2 ^ 32) :
    ∃ mem', splitLoop a left idx mem = .ok mem' ∧
      elems.Family (Node descs) mem' (freeListOf descs)
        (Function.update free j (free j ++ (List.range' idx left).map (blockAt a j))) ∧
      elems.Edits X mem mem' := by
  induction left generalizing idx mem free with
  | zero =>
    refine ⟨mem, rfl, ?_, .refl mem⟩
    simpa using hl
  | succ left ih =>
    obtain ⟨hV, hXb, hn⟩ := hnew idx (Nat.le_refl _) (by omega)
    set e := blockAt a j idx with he
    obtain ⟨mem₁, happ, hl₁, hed⟩ := hl.append (elems_lawful descs) j hV hn
    have hed : elems.Edits X mem mem₁ := hed.mono fun n hn => by
      rcases hn with rfl | hn
      · exact hXb
      · exact hold n hn
    have hdesc₁ : mem₁ a = descs + j * descSize := by
      rw [edits_word hed fun n hn => (hX n hn).1, hdesc]
    have hsize₁ : mem₁ (descs + j * descSize) = blockSize j := by
      rw [edits_word hed fun n hn => (hX n hn).2, hsize]
    have hself : Function.update free j (free j ++ [e]) j = free j ++ [e] :=
      Function.update_self _ _ _
    have hnew₁ : ∀ k, idx + 1 ≤ k → k < idx + 1 + left → Node descs (blockAt a j k) ∧
        X (blockAt a j k) ∧ ∀ i, blockAt a j k ∉
          LinkHeap.nodes (freeListOf descs i) (Function.update free j (free j ++ [e]) i) := by
      intro k h1 h2
      obtain ⟨hV, hXk, hk⟩ := hnew k (by omega) (by omega)
      refine ⟨hV, hXk, fun i hmem => ?_⟩
      by_cases hij : i = j
      · subst hij
        rw [hself, LinkHeap.mem_nodes, List.mem_append, List.mem_singleton] at hmem
        rcases hmem with h3 | (h3 | h3) | h3
        · exact hk i (LinkHeap.mem_nodes.mpr (Or.inl h3))
        · exact hk i (LinkHeap.mem_nodes.mpr (Or.inr (Or.inl h3)))
        · have := blockAt_inj (h3.trans he)
          omega
        · exact hk i (LinkHeap.mem_nodes.mpr (Or.inr (Or.inr h3)))
      · rw [Function.update_of_ne hij] at hmem
        exact hk i hmem
    have hold₁ : ∀ n ∈ LinkHeap.nodes (freeListOf descs j)
        (Function.update free j (free j ++ [e]) j), X n := by
      intro n hn'
      rw [hself, LinkHeap.mem_nodes, List.mem_append, List.mem_singleton] at hn'
      rcases hn' with h3 | (h3 | rfl) | h3
      · exact hold n (LinkHeap.mem_nodes.mpr (Or.inl h3))
      · exact hold n (LinkHeap.mem_nodes.mpr (Or.inr (Or.inl h3)))
      · exact hXb
      · exact hold n (LinkHeap.mem_nodes.mpr (Or.inr (Or.inr h3)))
    have hlen₁ : (Function.update free j (free j ++ [e]) j).length + left ≤ 2 ^ 32 := by
      rw [hself, List.length_append, List.length_singleton]
      omega
    obtain ⟨mem', hloop, hl', hed'⟩ := ih _ hl₁ hdesc₁ hsize₁ hnew₁ hold₁ hlen₁
    refine ⟨mem', ?_, ?_, hed.trans hed'⟩
    · have hnot : e ∉ free j := fun h =>
        hn j (LinkHeap.mem_nodes.mpr (Or.inr (Or.inl h)))
      rw [splitLoop, arena2block_eq hdesc hsize, ← he, hdesc, find_eq hl (by omega), ok_bind,
        assert_bind_of (by simp [hnot])]
      rw [freeListOf] at happ
      rw [listAppend_ok happ, ok_bind]
      exact hloop
    · rw [hself, Function.update_idem] at hl'
      rw [List.range'_succ, List.map_cons, ← he]
      simpa using hl'

/-- Writes to a run of pages that is no arena yet. -/
theorem stored_newRun {n : ℕ} (h : Shape descs runs kind free live)
    (hst : Stored descs mem runs kind free) (hdesc : Apart a (n * 4096) descs 168)
    (hapart : ∀ r, runs r → Apart a (n * 4096) r.1 (r.2 * 4096))
    (hout : ∀ w, ¬(a ≤ w ∧ w < a + n * 4096) → mem' w = mem w) :
    Stored descs mem' runs kind free := by
  refine hst.congr (fun w h1 h2 => hout w ?_) (fun r hr w h1 h2 => hout w ?_) fun i e he => ?_
  · rcases hdesc with h3 | h3 <;> omega
  · have hone := (h.layout.run r hr).2.2.1
    rcases hapart r hr with h3 | h3 <;> omega
  · obtain ⟨r, k, hr, hk, hlt, rfl, -⟩ := (h.free_iff i e).mp he
    have hrange := h.block_range hr hk hlt
    have hpos := blockSize_pos i
    refine ⟨hout _ ?_, hout _ ?_⟩ <;> rcases hapart r hr with h3 | h3 <;> omega

/-- A new arena is split into free blocks. -/
theorem split_spec (h : Shape descs runs kind free live)
    (hst : Stored descs mem runs kind free) (hempty : free j = [])
    (hl : Layout descs runs') (hruns : ∀ r, runs' r ↔ r = (a, 1) ∨ runs r)
    (hnew : ¬∃ r, runs r ∧ r.1 = a) (hdesc : mem a = descs + j * descSize)
    (hlarge : mem (a + 8) = 0) (hcnt : mem (a + 4) = blocksPerArena j) :
    ∃ mem' f, splitLoop a (blocksPerArena j) 0 mem = .ok mem' ∧
      (∀ e, e ∈ f ↔ ∃ k, k < blocksPerArena j ∧ e = blockAt a j k) ∧
      Shape descs runs' (Function.update kind a (some j)) (Function.update free j f) live ∧
      Stored descs mem' runs' (Function.update kind a (some j)) (Function.update free j f) := by
  set f := (List.range' 0 (blocksPerArena j)).map (blockAt a j) with hf
  have hmemf : ∀ e, e ∈ f ↔ ∃ k, k < blocksPerArena j ∧ e = blockAt a j k := by
    intro e
    simp only [hf, List.mem_map, List.mem_range'_1, Nat.zero_le, Nat.zero_add, true_and]
    exact ⟨fun ⟨k, hk, he⟩ => ⟨k, hk, he.symm⟩, fun ⟨k, hk, he⟩ => ⟨k, hk, he.symm⟩⟩
  have h' : Shape descs runs' (Function.update kind a (some j)) (Function.update free j f) live := by
    refine h.addSmall hruns hl hnew fun e => ?_
    rw [hmemf, hempty]
    simp
  have hself : Function.update free j f j = f := Function.update_self _ _ _
  have hkind : Function.update kind a (some j) a = some j := Function.update_self _ _ _
  have hr : runs' (a, 1) := (hruns _).mpr (Or.inl rfl)
  have hold : ∀ r, runs r → Function.update kind a (some j) r.1 = kind r.1 := fun r hr =>
    Function.update_of_ne (fun he => hnew ⟨r, hr, he⟩) _ _
  -- the nodes that are written are those of the free list of the new arena
  have hhead : ∀ r, runs' r → ∀ w, r.1 ≤ w → w < r.1 + 12 →
      ∀ n ∈ LinkHeap.nodes (freeListOf descs j) f, w ≠ n ∧ w ≠ n + 4 := fun r hr w h1 h2 n hn =>
    h'.header_ne_node hr h1 h2 (by rw [hself]; exact hn)
  have hdw : ∀ (i : Fin 7) w, w = descs + i * descSize ∨ w = descs + i * descSize + 4 →
      ∀ n ∈ LinkHeap.nodes (freeListOf descs j) f, w ≠ n ∧ w ≠ n + 4 := fun i w hw n hn =>
    h'.desc_ne_node hw (by rw [hself]; exact hn)
  have hsent : ∀ n ∈ LinkHeap.nodes (freeListOf descs j) (free j),
      n ∈ LinkHeap.nodes (freeListOf descs j) f := by
    intro n hn
    rw [hempty] at hn
    rw [LinkHeap.mem_nodes] at hn ⊢
    simpa using hn.imp id (Or.imp (fun h => absurd h List.not_mem_nil) id)
  have hblock : ∀ k, 0 ≤ k → k < 0 + blocksPerArena j → Node descs (blockAt a j k) ∧
      blockAt a j k ∈ LinkHeap.nodes (freeListOf descs j) f ∧
      ∀ i, blockAt a j k ∉ LinkHeap.nodes (freeListOf descs i) (free i) := by
    intro k _ hk
    rw [Nat.zero_add] at hk
    refine ⟨h'.node_block hr hkind hk,
      LinkHeap.mem_nodes.mpr (Or.inr (Or.inl ((hmemf _).mpr ⟨k, hk, rfl⟩))), fun i hn => ?_⟩
    have hsent := h'.block_ne_sentinel hr hkind hk i
    rcases h.node_cases hn with (hn | hn) | ⟨r, k', hr₁, hk', hlt', heq⟩
    · exact hsent.1 hn
    · exact hsent.2 hn
    · have hr₂ := (hruns r).mpr (Or.inr hr₁)
      have heq' := h'.eq_of_blockAt hr hr₂ hkind ((hold r hr₁).trans hk') hk hlt' heq
      exact hnew ⟨r, hr₁, by rw [← heq'.1]⟩
  have hlen : (free j).length + blocksPerArena j ≤ 2 ^ 32 := by
    have := blocksPerArena_lt j
    rw [hempty, List.length_nil]
    omega
  obtain ⟨mem', hloop, hl', hed⟩ := splitLoop_spec (blocksPerArena j) 0
    (X := fun n => n ∈ LinkHeap.nodes (freeListOf descs j) f)
    (fun n hn => ⟨hhead (a, 1) hr a (Nat.le_refl _) (by simp) n hn, hdw j _ (Or.inl rfl) n hn⟩)
    hst.lists hdesc (hst.desc j).1 hblock hsent hlen
  rw [hempty, List.nil_append] at hl'
  refine ⟨mem', f, hloop, hmemf, h', ⟨fun i => ?_, hl', fun r hr₁ => ?_⟩⟩
  · rw [edits_word hed (hdw i _ (Or.inl rfl)), edits_word hed (hdw i _ (Or.inr rfl))]
    exact hst.desc i
  · have hword : ∀ w, r.1 ≤ w → w < r.1 + 12 → mem' w = mem w := fun w h1 h2 =>
      edits_word hed (hhead r hr₁ w h1 h2)
    rcases (hruns r).mp hr₁ with rfl | hr₂
    · simp only [hkind, Header, hself]
      refine ⟨?_, ?_, ?_⟩
      · rw [hword _ (Nat.le_refl _) (by simp), hdesc]
      · rw [hword _ (by simp) (by simp), hlarge]
      · rw [hword _ (by simp) (by simp), hcnt]
        exact (freeCnt_eq_iff.mpr fun k hk => (hmemf _).mpr ⟨k, hk, rfl⟩).symm
    · rw [hold r hr₂]
      refine header_congr (hst.header r hr₂) hword fun i hi => freeCnt_congr fun k hk => ?_
      by_cases hij : i = j
      · subst hij
        rw [hself, hempty, hmemf]
        simp only [List.not_mem_nil, iff_false]
        rintro ⟨k', hk', heq⟩
        have heq' := h'.eq_of_blockAt hr₁ hr ((hold r hr₂).trans hi) hkind hk hk' heq
        exact hnew ⟨r, hr₂, by rw [heq'.1]⟩
      · rw [Function.update_of_ne hij]

/-! ## The contract of the page layer -/

/-- `malloc_page` returns aligned runs of pages, at `low` or above, apart from the descriptors and
from every run that is not freed; `I` is what the page layer itself keeps. -/
structure Contract {K : Type} (L : PageLayer K) (descs low : ℕ) (I : K → Prop) : Prop where
  poolSize : ∀ k, I k → L.poolSize k < 2 ^ 28
  malloc : ∀ k n k' a, I k → 1 ≤ n → L.mallocPage k n = .ok (k', some a) → I k' ∧
    a % 4096 = 0 ∧ 0 < a ∧ low ≤ a ∧ a + n * 4096 ≤ 2 ^ 32 ∧ Apart a (n * 4096) descs 168 ∧
    (∀ r, L.runs k r → Apart a (n * 4096) r.1 (r.2 * 4096)) ∧
    ∀ r, L.runs k' r ↔ r = (a, n) ∨ L.runs k r
  null : ∀ k n k', I k → L.mallocPage k n = .ok (k', none) → I k' ∧ ∀ r, L.runs k' r ↔ L.runs k r
  mfree : ∀ k r k', I k → L.runs k r → L.mfreePage k r.1 r.2 = .ok k' → I k' ∧
    ∀ r', L.runs k' r' ↔ L.runs k r' ∧ r' ≠ r

/-- The invariant of a heap between two calls. -/
structure HeapInv {K : Type} (L : PageLayer K) (descs low : ℕ) (I : K → Prop) (t : Task K)
    (live : List Block) : Prop where
  pages : I t.pages
  low : ∀ r, L.runs t.pages r → low ≤ r.1
  heap : ∃ kind free, Shape descs (L.runs t.pages) kind free live ∧
    Stored descs t.mem (L.runs t.pages) kind free ∧
    ∀ r, L.runs t.pages r → Occupied kind live r

variable {K : Type} {L : PageLayer K} {low : ℕ} {I : K → Prop} {t t' : Task K}

/-! ## `sys_malloc` -/

theorem newArena_spec (h : Shape descs runs kind free live)
    (hst : Stored descs t.mem runs kind free) (hempty : free j = []) {k' : K}
    (hpage : L.mallocPage t.pages 1 = .ok (k', some a)) (h0 : 0 < a)
    (hdesc : Apart a (1 * 4096) descs 168)
    (hapart : ∀ r, runs r → Apart a (1 * 4096) r.1 (r.2 * 4096)) (hl : Layout descs runs')
    (hruns : ∀ r, runs' r ↔ r = (a, 1) ∨ runs r) (hnew : ¬∃ r, runs r ∧ r.1 = a) :
    ∃ mem' f, newArena L t (descs + j * descSize) = .ok (⟨mem', k'⟩, true) ∧
      (∀ e, e ∈ f ↔ ∃ k, k < blocksPerArena j ∧ e = blockAt a j k) ∧
      Shape descs runs' (Function.update kind a (some j)) (Function.update free j f) live ∧
      Stored descs mem' runs' (Function.update kind a (some j)) (Function.update free j f) := by
  have hj := j.isLt
  set desc := descs + j * descSize with hd
  set mem₀ : Words := fun w => if a ≤ w ∧ w < a + pgSize then 0 else t.mem w with hmem₀
  set mem₁ : Words := Function.update (Function.update mem₀ a desc) (a + 8) 0 with hmem₁
  set mem₂ : Words := Function.update mem₁ (a + 4) (mem₁ (desc + 4)) with hmem₂
  have hout : ∀ w, ¬(a ≤ w ∧ w < a + 1 * 4096) → mem₂ w = t.mem w := by
    intro w hw
    rw [hmem₂, Function.update_of_ne (by omega), hmem₁, Function.update_of_ne (by omega),
      Function.update_of_ne (by omega)]
    exact if_neg (by rw [pgSize]; omega)
  have hout₁ : mem₁ (desc + 4) = blocksPerArena j := by
    have hfar : ¬(a ≤ desc + 4 ∧ desc + 4 < a + 4096) := by
      simp only [hd, descSize]
      rcases hdesc with h3 | h3 <;> omega
    rw [hmem₁, Function.update_of_ne (by omega), Function.update_of_ne (by omega)]
    exact (if_neg hfar).trans (hst.desc j).2
  have hst₂ := stored_newRun h hst hdesc hapart hout
  have ha : mem₂ a = desc := by
    rw [hmem₂, Function.update_of_ne (by omega), hmem₁, Function.update_of_ne (by omega),
      Function.update_self]
  have ha8 : mem₂ (a + 8) = 0 := by
    rw [hmem₂, Function.update_of_ne (by omega), hmem₁, Function.update_self]
  have ha4 : mem₂ (a + 4) = blocksPerArena j := by
    rw [hmem₂, Function.update_self, hout₁]
  obtain ⟨mem', f, hloop, hf, hshape, hst'⟩ := split_spec h hst₂ hempty hl hruns hnew ha ha8 ha4
  refine ⟨mem', f, ?_, hf, hshape, hst'⟩
  have hcnt : mem₂ (desc + 4) = blocksPerArena j := (hst₂.desc j).2
  unfold newArena
  rw [hpage, ok_bind]
  simp only
  rw [memset_eq _ (by omega), ok_bind]
  simp only [← hmem₀, ← hmem₁, ← hmem₂]
  rw [hcnt, hloop]
  rfl

theorem matchDesc_spec {size left idx : ℕ}
    (hdesc : ∀ i, i < 7 → mem (descs + i * descSize) = blockSize i)
    (hsize : size ≤ 1024) (hend : idx + left = 7) (hlt : idx < 7)
    (hlow : ∀ i, i < idx → blockSize i < size) :
    ∃ j : Fin 7, matchDesc mem descs size left idx = j ∧ Fits (some j) size := by
  induction left generalizing idx with
  | zero => omega
  | succ left ih =>
    unfold matchDesc
    rw [hdesc idx hlt]
    by_cases hle : size ≤ blockSize idx
    · rw [if_pos hle]
      exact ⟨⟨idx, hlt⟩, rfl, hle, hlow⟩
    · rw [if_neg hle]
      refine ih (by omega) ?_ fun i hi => ?_
      · by_contra hnot
        obtain rfl : idx = 6 := by omega
        exact hle hsize
      · by_cases hi' : i = idx
        · rw [hi']
          exact Nat.lt_of_not_le hle
        · exact hlow i (by omega)

/-- What becomes of a request: `malloc_page` fails, or the result is `NULL`, or a cleared block. -/
inductive MallocResult (L : PageLayer K) (descs low : ℕ) (I : K → Prop) (t : Task K)
    (live : List Block) (size : ℕ) : Except Halt (Task K × Option ℕ) → Prop
  | halt {x : Halt} {n : ℕ} (h : L.mallocPage t.pages n = .error x) :
    MallocResult L descs low I t live size (.error x)
  | null {t' : Task K} (h : HeapInv L descs low I t' live)
    (hp : t'.pages = t.pages ∨ ∃ n, L.mallocPage t.pages n = .ok (t'.pages, none)) :
    MallocResult L descs low I t live size (.ok (t', none))
  | block {t' : Task K} {p : ℕ} (h : HeapInv L descs low I t' (⟨p, size⟩ :: live))
    (hzero : ∀ w, p ≤ w → w < p + owned t'.mem p → t'.mem w = 0)
    (hp : t'.pages = t.pages ∨ ∃ n a, 1 ≤ n ∧ L.mallocPage t.pages n = .ok (t'.pages, some a)) :
    MallocResult L descs low I t live size (.ok (t', some p))

theorem HeapInv.congr {k : K} (h : HeapInv L descs low I t live) (hI : I k)
    (hruns : ∀ r, L.runs k r ↔ L.runs t.pages r) :
    HeapInv L descs low I { t with pages := k } live := by
  have heq : L.runs k = L.runs t.pages := funext fun r => propext (hruns r)
  obtain ⟨-, hlow, hheap⟩ := h
  refine ⟨hI, ?_, ?_⟩ <;> rw [heq]
  · exact hlow
  · exact hheap

theorem pageCnt_spec {size : ℕ} (hsize : size < 2 ^ 28) :
    1 ≤ divRoundUp (size + arenaSize) pgSize ∧
      size + 12 ≤ divRoundUp (size + arenaSize) pgSize * 4096 ∧
      divRoundUp (size + arenaSize) pgSize * pgSize % 2 ^ 32 =
        divRoundUp (size + arenaSize) pgSize * 4096 := by
  simp only [divRoundUp, arenaSize, pgSize]
  refine ⟨?_, ?_, ?_⟩ <;> omega

theorem mallocLarge_spec (hC : Contract L descs low I) (h : HeapInv L descs low I t live)
    {size : ℕ} (hsize : size < 2 ^ 28) (hlarge : 1024 < size) :
    MallocResult L descs low I t live size (mallocLarge L t size) := by
  obtain ⟨hn, hfit, hmod⟩ := pageCnt_spec hsize
  set n := divRoundUp (size + arenaSize) pgSize with hn'
  rw [mallocLarge, ← hn']
  cases hpage : L.mallocPage t.pages n with
  | error x => exact .halt hpage
  | ok res =>
    obtain ⟨k', a⟩ := res
    rw [ok_bind]
    cases a with
    | none =>
      obtain ⟨hI, hruns⟩ := hC.null _ _ _ h.pages hpage
      exact .null (h.congr hI hruns) (Or.inr ⟨n, hpage⟩)
    | some a =>
      obtain ⟨hI, ha, h0, hlow, hend, hdesc, hapart, hruns⟩ := hC.malloc _ _ _ _ h.pages hn hpage
      obtain ⟨kind, free, hshape, hst, hocc⟩ := h.heap
      obtain ⟨hl, hnew⟩ := hshape.layout.add ha h0 hn hend hdesc hapart hruns
      simp only
      rw [memset_eq _ (by omega), ok_bind, hmod]
      set mem₀ : Words := fun w => if a ≤ w ∧ w < a + n * 4096 then 0 else t.mem w with hmem₀
      set mem₁ : Words := Function.update (Function.update (Function.update mem₀ a 0) (a + 4) n)
        (a + 8) 1 with hmem₁
      have hrest : ∀ w, ¬(a ≤ w ∧ w < a + 12) → mem₁ w = mem₀ w := by
        intro w hw
        rw [hmem₁, Function.update_of_ne (by omega), Function.update_of_ne (by omega),
          Function.update_of_ne (by omega)]
      have hout : ∀ w, ¬(a ≤ w ∧ w < a + n * 4096) → mem₁ w = t.mem w := fun w hw =>
        (hrest w (by omega)).trans (if_neg hw)
      have hzero : ∀ w, a + 12 ≤ w → w < a + n * 4096 → mem₁ w = 0 := fun w h1 h2 =>
        (hrest w (by omega)).trans (if_pos ⟨by omega, h2⟩)
      have hst₁ := stored_newRun hshape hst hdesc hapart hout
      have hshape' := hshape.addLarge hruns hl hnew hfit hlarge
      have hself : Function.update kind a none a = none := Function.update_self _ _ _
      have hold : ∀ r, L.runs t.pages r → Function.update kind a none r.1 = kind r.1 := fun r hr =>
        Function.update_of_ne (fun he => hnew ⟨r, hr, he⟩) _ _
      have hnewRun : L.runs k' (a, n) := (hruns _).mpr (Or.inl rfl)
      have hin : InArena (a, n) (Function.update kind a none a) ⟨a + 12, size⟩ := by
        rw [hself]
        exact ⟨rfl, hfit, hlarge⟩
      have hst' : Stored descs mem₁ (L.runs k') (Function.update kind a none) free := by
        refine ⟨hst₁.desc, hst₁.lists, fun r hr => ?_⟩
        rcases (hruns r).mp hr with rfl | hr
        · simp only [hself, Header]
          refine ⟨?_, ?_, ?_⟩
          · rw [hmem₁, Function.update_of_ne (by omega), Function.update_of_ne (by omega),
              Function.update_self]
          · rw [hmem₁, Function.update_of_ne (by omega), Function.update_self]
          · rw [hmem₁, Function.update_self]
        · rw [hold r hr]
          exact hst₁.header r hr
      refine .block ⟨hI, fun r hr => ?_, _, _, hshape', hst', fun r hr => ?_⟩ ?_
        (Or.inr ⟨n, a, hn, hpage⟩)
      · rcases (hruns r).mp hr with rfl | hr
        · exact hlow
        · exact h.low r hr
      · rcases (hruns r).mp hr with rfl | hr
        · exact ⟨_, List.mem_cons_self, hin⟩
        · exact (hocc r hr).cons (hold r hr)
      · have hown := owned_eq hshape' hst' hnewRun hin
        rw [hself] at hown
        intro w h1 h2
        rw [arenaSize] at h1 h2
        simp only at hown h2 ⊢
        rw [hown] at h2
        refine hzero w h1 ?_
        simp only [span] at h2
        omega

/-- The first block of a free list is handed out. -/
theorem takeBlock_inv (hI : I t.pages) (hlow : ∀ r, L.runs t.pages r → low ≤ r.1)
    (h : Shape descs (L.runs t.pages) kind free live)
    (hst : Stored descs t.mem (L.runs t.pages) kind free) {xs : List ℕ} (hfree : free j = e :: xs)
    (hocc : ∀ r, L.runs t.pages r → Occupied kind live r ∨
      kind r.1 = some j ∧ ∃ k, k < blocksPerArena j ∧ e = blockAt r.1 j k)
    {size : ℕ} (hfit : Fits (some j) size) :
    ∃ mem', takeBlock t.mem (descs + j * descSize) = .ok (mem', e) ∧
      HeapInv L descs low I { t with mem := mem' } (⟨e, size⟩ :: live) ∧
      ∀ w, e ≤ w → w < e + owned mem' e → mem' w = 0 := by
  have hnd : (e :: xs).Nodup := hfree ▸ free_nodup hst.lists j
  obtain ⟨mem', htake, hst', hzero⟩ := takeBlock_spec h hst hfree
  have h' := h.take hfree hnd hfit
  refine ⟨mem', htake, ⟨hI, hlow, _, _, h', hst', fun r hr => ?_⟩, ?_⟩
  · rcases hocc r hr with ho | ⟨hk, k, hlt, he⟩
    · exact ho.cons rfl
    · refine ⟨⟨e, size⟩, List.mem_cons_self, ?_⟩
      rw [hk]
      exact ⟨⟨k, hlt, he⟩, hfit⟩
  · obtain ⟨r, hr, hin⟩ := h'.live_mem _ List.mem_cons_self
    have hown := owned_eq h' hst' hr hin
    simp only at hown
    have he : e ∈ free j := by rw [hfree]; exact List.mem_cons_self
    obtain ⟨r', k, hr', hk, hlt, hblock, -⟩ := (h.free_iff j e).mp he
    have hbase : r.1 = r'.1 := by
      have h1 := h'.block2arena_live hr hin
      simp only at h1
      rw [← h1, hblock, block2arena_blockAt (h.layout.run r' hr').1 hlt]
    rw [hbase, hk] at hown
    rw [hown]
    exact hzero

/-- A page that `malloc_page` returned becomes an arena, so the free list has a first block. -/
theorem grow_spec (hC : Contract L descs low I) (h : HeapInv L descs low I t live)
    (hshape : Shape descs (L.runs t.pages) kind free live)
    (hst : Stored descs t.mem (L.runs t.pages) kind free)
    (hocc : ∀ r, L.runs t.pages r → Occupied kind live r) (hfree : free j = []) {k' : K}
    (hpage : L.mallocPage t.pages 1 = .ok (k', some a)) :
    ∃ mem₁ kind₁ free₁ e xs, newArena L t (descs + j * descSize) = .ok (⟨mem₁, k'⟩, true) ∧ I k' ∧
      (∀ r, L.runs k' r → low ≤ r.1) ∧ Shape descs (L.runs k') kind₁ free₁ live ∧
      Stored descs mem₁ (L.runs k') kind₁ free₁ ∧ free₁ j = e :: xs ∧
      ∀ r, L.runs k' r → Occupied kind₁ live r ∨
        kind₁ r.1 = some j ∧ ∃ k, k < blocksPerArena j ∧ e = blockAt r.1 j k := by
  obtain ⟨hI, ha, h0, hlow, hend, hdesc, hapart, hruns⟩ :=
    hC.malloc _ _ _ _ h.pages (Nat.le_refl 1) hpage
  obtain ⟨hl, hnew⟩ := hshape.layout.add ha h0 (Nat.le_refl 1) hend hdesc hapart hruns
  obtain ⟨mem₁, f, hok, hf, hshape₁, hst₁⟩ :=
    newArena_spec hshape hst hfree hpage h0 hdesc hapart hl hruns hnew
  obtain ⟨e, xs, hcons⟩ : ∃ e xs, f = e :: xs := by
    refine List.exists_cons_of_ne_nil fun hnil => ?_
    have hmem : blockAt a j 0 ∈ f := (hf _).mpr ⟨0, blocksPerArena_pos j, rfl⟩
    rw [hnil] at hmem
    cases hmem
  obtain ⟨k, hlt, hek⟩ := (hf e).mp (by rw [hcons]; exact List.mem_cons_self)
  have hself : Function.update free j f j = f := Function.update_self _ _ _
  refine ⟨mem₁, _, _, e, xs, hok, hI, fun r hr => ?_, hshape₁, hst₁, hself.trans hcons,
    fun r hr => ?_⟩
  · rcases (hruns r).mp hr with rfl | hr
    · exact hlow
    · exact h.low r hr
  · rcases (hruns r).mp hr with rfl | hr
    · exact Or.inr ⟨Function.update_self _ _ _, k, hlt, hek⟩
    · obtain ⟨b, hb, hin⟩ := hocc r hr
      refine Or.inl ⟨b, hb, ?_⟩
      rw [Function.update_of_ne fun he => hnew ⟨r, hr, he⟩]
      exact hin

theorem listEmpty_eq (hst : Stored descs mem runs kind free) (j : Fin 7) :
    listEmpty elems mem (freeList (descs + j * descSize)) = .ok (decide (free j = [])) :=
  listEmpty_isList (elems_lawful descs) (hst.lists.isList j)

/-- The descriptor that serves a small request. -/
theorem matchDesc_stored (hst : Stored descs mem runs kind free) {size : ℕ} (hsize : size ≤ 1024) :
    ∃ j : Fin 7, matchDesc mem descs size descCnt 0 = j ∧ Fits (some j) size :=
  matchDesc_spec (fun i hi => (hst.desc ⟨i, hi⟩).1) hsize rfl (by decide)
    fun i hi => absurd hi (Nat.not_lt_zero i)

theorem mallocSmall_spec (hC : Contract L descs low I) (h : HeapInv L descs low I t live)
    {size : ℕ} (hsize : size ≤ 1024) :
    MallocResult L descs low I t live size (mallocSmall L descs t size) := by
  obtain ⟨kind, free, hshape, hst, hocc⟩ := h.heap
  obtain ⟨j, hj, hfit⟩ := matchDesc_stored hst hsize
  rw [mallocSmall, hj, listEmpty_eq hst, ok_bind]
  cases hfree : free j with
  | nil =>
    rw [if_pos (decide_eq_true rfl)]
    cases hpage : L.mallocPage t.pages 1 with
    | error x =>
      unfold newArena
      rw [hpage]
      exact .halt hpage
    | ok res =>
      obtain ⟨k', a⟩ := res
      cases a with
      | none =>
        obtain ⟨hI, hruns⟩ := hC.null _ _ _ h.pages hpage
        unfold newArena
        rw [hpage]
        exact .null (h.congr hI hruns) (Or.inr ⟨1, hpage⟩)
      | some a =>
        obtain ⟨mem₁, kind₁, free₁, e, xs, hok, hI, hlow, hshape₁, hst₁, hcons, hocc₁⟩ :=
          grow_spec hC h hshape hst hocc hfree hpage
        obtain ⟨mem₂, htake, hinv, hzero⟩ := takeBlock_inv (t := ⟨mem₁, k'⟩) hI hlow hshape₁ hst₁
          hcons hocc₁ hfit
        rw [hok, ok_bind]
        simp only [if_true]
        rw [htake]
        exact .block hinv hzero (Or.inr ⟨1, a, Nat.le_refl 1, hpage⟩)
  | cons e xs =>
    rw [if_neg (by simp), ok_bind]
    obtain ⟨mem', htake, hinv, hzero⟩ := takeBlock_inv h.pages h.low hshape hst hfree
      (fun r hr => Or.inl (hocc r hr)) hfit
    simp only [if_true]
    rw [htake]
    exact .block hinv hzero (Or.inl rfl)

/-- What `sys_malloc` does before it pops a block: the task it has then. -/
def AtPop (L : PageLayer K) (t : Task K) (desc : ℕ) (t' : Task K) : Prop :=
  ∃ isEmpty, listEmpty elems t.mem (freeList desc) = .ok isEmpty ∧
    (if isEmpty = true then newArena L t desc else .ok (t, true)) = .ok (t', true)

/-- A block is never popped from an empty list. -/
theorem not_empty_at_pop (hC : Contract L descs low I) (h : HeapInv L descs low I t live)
    {size : ℕ} (hsize : size ≤ 1024)
    (hp : AtPop L t (descs + matchDesc t.mem descs size descCnt 0 * descSize) t') :
    listEmpty elems t'.mem
      (freeList (descs + matchDesc t.mem descs size descCnt 0 * descSize)) = .ok false := by
  obtain ⟨kind, free, hshape, hst, hocc⟩ := h.heap
  obtain ⟨j, hj, -⟩ := matchDesc_stored hst hsize
  obtain ⟨isEmpty, he, hp⟩ := hp
  rw [hj] at he hp ⊢
  cases isEmpty with
  | false =>
    cases hp
    exact he
  | true =>
    rw [listEmpty_eq hst, Except.ok.injEq, decide_eq_true_eq] at he
    rw [if_pos rfl] at hp
    cases hpage : L.mallocPage t.pages 1 with
    | error x =>
      rw [newArena, hpage] at hp
      cases hp
    | ok res =>
      obtain ⟨k', a⟩ := res
      cases a with
      | none =>
        rw [newArena, hpage] at hp
        cases hp
      | some a =>
        obtain ⟨mem₁, kind₁, free₁, e, xs, hok, -, -, -, hst₁, hcons, -⟩ :=
          grow_spec hC h hshape hst hocc he hpage
        rw [hok] at hp
        cases hp
        rw [listEmpty_eq hst₁, hcons]
        rfl

/-- **`sys_malloc`.** -/
theorem sysMalloc_spec (hC : Contract L descs low I) (h : HeapInv L descs low I t live)
    (size : ℕ) : MallocResult L descs low I t live size (sysMalloc L descs t size) := by
  unfold sysMalloc
  by_cases hsize : 0 < size ∧ size < L.poolSize t.pages
  · rw [if_neg (not_not.mpr hsize)]
    by_cases hlarge : 1024 < size
    · rw [if_pos hlarge]
      exact mallocLarge_spec hC h (Nat.lt_trans hsize.2 (hC.poolSize _ h.pages)) hlarge
    · rw [if_neg hlarge]
      exact mallocSmall_spec hC h (Nat.le_of_not_lt hlarge)
  · rw [if_pos hsize]
    exact .null h (Or.inl rfl)

/-! ## `sys_free` -/

/-- The blocks `idx`, …, `idx + left - 1` of an arena are taken off its free list. -/
theorem releaseLoop_spec {X : ℕ → Prop} (left idx : ℕ)
    (hX : ∀ n, X n → (a ≠ n ∧ a ≠ n + 4) ∧
      descs + j * descSize ≠ n ∧ descs + j * descSize ≠ n + 4)
    (hl : elems.Family (Node descs) mem (freeListOf descs) free)
    (hdesc : mem a = descs + j * descSize) (hsize : mem (descs + j * descSize) = blockSize j)
    (hfree : ∀ k, idx ≤ k → k < idx + left → blockAt a j k ∈ free j)
    (hold : ∀ n ∈ LinkHeap.nodes (freeListOf descs j) (free j), X n)
    (hlen : (free j).length ≤ 2 ^ 32) :
    ∃ mem' f, releaseLoop a left idx mem = .ok mem' ∧
      elems.Family (Node descs) mem' (freeListOf descs) (Function.update free j f) ∧
      (∀ x, x ∈ f ↔ x ∈ free j ∧ ¬∃ k, idx ≤ k ∧ k < idx + left ∧ x = blockAt a j k) ∧
      elems.Edits X mem mem' := by
  induction left generalizing idx mem free with
  | zero =>
    refine ⟨mem, free j, rfl, by simpa using hl, fun x => ?_, .refl mem⟩
    refine ⟨fun hx => ⟨hx, ?_⟩, fun hx => hx.1⟩
    rintro ⟨k, h1, h2, -⟩
    omega
  | succ left ih =>
    have he := hfree idx (Nat.le_refl _) (by omega)
    have hnd := free_nodup hl j
    obtain ⟨xs, ys, hxy⟩ := List.append_of_mem he
    obtain ⟨mem₁, hrem, hl₁, hed⟩ := hl.remove (elems_lawful descs) hxy
    rw [hxy] at hnd
    have hself : Function.update free j (xs ++ ys) j = xs ++ ys := Function.update_self _ _ _
    have hmem : ∀ x, x ∈ xs ++ ys ↔ x ∈ free j ∧ x ≠ blockAt a j idx := by
      intro x
      rw [hxy]
      have hn := List.nodup_middle.mp hnd
      rw [List.nodup_cons] at hn
      simp only [List.mem_append, List.mem_cons] at hn ⊢
      constructor
      · intro hx
        refine ⟨hx.imp id Or.inr, ?_⟩
        rintro rfl
        exact hn.1 hx
      · rintro ⟨h1 | h1 | h1, h2⟩
        · exact Or.inl h1
        · exact absurd h1 h2
        · exact Or.inr h1
    have hsub : ∀ n ∈ LinkHeap.nodes (freeListOf descs j) (xs ++ ys),
        n ∈ LinkHeap.nodes (freeListOf descs j) (free j) := by
      intro n hn
      rw [LinkHeap.mem_nodes] at hn ⊢
      exact hn.imp id (Or.imp (fun hx => ((hmem n).mp hx).1) id)
    have hed : elems.Edits X mem mem₁ := hed.mono fun n hn => hold n (hsub n hn)
    have hdesc₁ : mem₁ a = descs + j * descSize := by
      rw [edits_word hed fun n hn => (hX n hn).1, hdesc]
    have hsize₁ : mem₁ (descs + j * descSize) = blockSize j := by
      rw [edits_word hed fun n hn => (hX n hn).2, hsize]
    have hfree₁ : ∀ k, idx + 1 ≤ k → k < idx + 1 + left →
        blockAt a j k ∈ Function.update free j (xs ++ ys) j := by
      intro k h1 h2
      rw [hself, hmem]
      refine ⟨hfree k (by omega) (by omega), fun heq => ?_⟩
      have := blockAt_inj heq
      omega
    have hlen₁ : (Function.update free j (xs ++ ys) j).length ≤ 2 ^ 32 := by
      rw [hxy, List.length_append, List.length_cons] at hlen
      rw [hself, List.length_append]
      omega
    obtain ⟨mem', f, hloop, hl', hf, hed'⟩ := ih _ hl₁ hdesc₁ hsize₁ hfree₁
      (fun n hn => hold n (hsub n (by rw [hself] at hn; exact hn))) hlen₁
    refine ⟨mem', f, ?_, ?_, fun x => ?_, hed.trans hed'⟩
    · rw [releaseLoop, arena2block_eq hdesc hsize, hdesc, find_eq hl hlen, ok_bind,
        assert_bind_of (by simp [he]), listRemove_ok hrem, ok_bind]
      exact hloop
    · rw [Function.update_idem] at hl'
      exact hl'
    · rw [hf, hself, hmem]
      constructor
      · rintro ⟨⟨h1, h2⟩, h3⟩
        refine ⟨h1, ?_⟩
        rintro ⟨k, hk1, hk2, rfl⟩
        by_cases hk : k = idx
        · exact h2 (by rw [hk])
        · exact h3 ⟨k, by omega, by omega, rfl⟩
      · rintro ⟨h1, h2⟩
        refine ⟨⟨h1, fun heq => h2 ⟨idx, Nat.le_refl _, by omega, heq⟩⟩, ?_⟩
        rintro ⟨k, hk1, hk2, heq⟩
        exact h2 ⟨k, by omega, by omega, heq⟩

/-- The word lies in no descriptor and in no arena. -/
def Outside (descs : ℕ) (runs : ℕ × ℕ → Prop) (w : ℕ) : Prop :=
  (w < descs ∨ descs + 168 ≤ w) ∧ ∀ r, runs r → w < r.1 ∨ r.1 + r.2 * 4096 ≤ w

/-- A block is put back on its free list and counted. -/
theorem giveBlock_spec (h : Shape descs runs kind free live)
    (hst : Stored descs mem runs kind free) (hb : b ∈ live) (hr : runs r) (hk : kind r.1 = some j)
    (hlt : k < blocksPerArena j) (hptr : b.ptr = blockAt r.1 j k) :
    ∃ mem₁, listAppend elems mem (freeList (mem r.1)) b.ptr = .ok mem₁ ∧
      Stored descs (Function.update mem₁ (r.1 + 4) ((mem₁ (r.1 + 4) + 1) % 2 ^ 32)) runs kind
        (Function.update free j (free j ++ [b.ptr])) ∧
      ∀ w, Outside descs runs w → mem₁ w = mem w := by
  have h' := h.give hb hr hk hlt hptr
  set free' := Function.update free j (free j ++ [b.ptr]) with hfree'
  have hself : free' j = free j ++ [b.ptr] := Function.update_self _ _ _
  have hhead := hst.header r hr
  rw [hk] at hhead
  obtain ⟨hdesc, hlarge, hcnt⟩ := hhead
  have hlive : IsLive live b.ptr := ⟨b, hb, rfl⟩
  have hnode : ∀ i, b.ptr ∉ LinkHeap.nodes (freeListOf descs i) (free i) := by
    intro i hn
    have hsent := h.block_ne_sentinel hr hk hlt i
    rw [← hptr] at hsent
    rcases LinkHeap.mem_nodes.mp hn with hn | hn | hn
    · exact hsent.1 hn
    · obtain ⟨-, -, -, -, -, -, hnl⟩ := (h.free_iff i b.ptr).mp hn
      exact hnl hlive
    · exact hsent.2 hn
  obtain ⟨mem₁, happ, hl₁, hed⟩ := hst.lists.append (elems_lawful descs) j
    (hptr ▸ h.node_block hr hk hlt) hnode
  rw [← hfree'] at hl₁
  -- the nodes that are written are those of the new free list
  have hX : ∀ n, n = b.ptr ∨ n ∈ LinkHeap.nodes (freeListOf descs j) (free j) →
      n ∈ LinkHeap.nodes (freeListOf descs j) (free' j) := by
    intro n hn
    rw [hself, LinkHeap.mem_nodes, List.mem_append, List.mem_singleton]
    rcases hn with rfl | hn
    · exact Or.inr (Or.inl (Or.inr rfl))
    · exact (LinkHeap.mem_nodes.mp hn).imp id (Or.imp Or.inl id)
  have hhead₁ : ∀ r, runs r → ∀ w, r.1 ≤ w → w < r.1 + 12 → mem₁ w = mem w := fun r hr w h1 h2 =>
    edits_word hed fun n hn => h'.header_ne_node hr h1 h2 (hX n hn)
  have hdesc₁ : ∀ (i : Fin 7) w, w = descs + i * descSize ∨ w = descs + i * descSize + 4 →
      mem₁ w = mem w := fun i w hw => edits_word hed fun n hn => h'.desc_ne_node hw (hX n hn)
  have hins : freeCnt r.1 j (free' j) = freeCnt r.1 j (free j) + 1 := by
    refine freeCnt_insert hlt ?_ fun x => ?_
    · rw [h.isLive_or_free hr hk hlt, not_not, ← hptr]
      exact hlive
    · rw [hself, ← hptr, List.mem_append, List.mem_singleton, or_comm]
  have hcnt₁ : (mem₁ (r.1 + 4) + 1) % 2 ^ 32 = freeCnt r.1 j (free' j) := by
    have hle := freeCnt_le (a := r.1) (i := j) (free j)
    have hlt' := blocksPerArena_lt j
    rw [hhead₁ r hr _ (by omega) (by omega), hcnt, hins]
    exact Nat.mod_eq_of_lt (by omega)
  refine ⟨mem₁, ?_, stored_setCnt h' (fun i => ?_) hl₁ hr hk ?_ ?_ (fun r' hr' hrr => ?_) hcnt₁,
    fun w hw => edits_word hed fun n hn => h'.outside_ne_node hw.1 hw.2 (hX n hn)⟩
  · rw [freeListOf, ← hdesc] at happ
    exact listAppend_ok happ
  · rw [hdesc₁ i _ (Or.inl rfl), hdesc₁ i _ (Or.inr rfl)]
    exact hst.desc i
  · rw [hhead₁ r hr _ (by omega) (by omega), hdesc]
  · rw [hhead₁ r hr _ (by omega) (by omega), hlarge]
  · refine header_congr (hst.header r' hr') (hhead₁ r' hr') fun i hi => freeCnt_congr fun k' hk' => ?_
    by_cases hij : i = j
    · subst hij
      rw [hself, List.mem_append, List.mem_singleton]
      refine ⟨fun hx => hx.resolve_right fun heq => hrr ?_, Or.inl⟩
      exact (h.eq_of_blockAt hr' hr hi hk hk' hlt (heq.trans hptr)).1
    · rw [hfree', Function.update_of_ne hij]

/-- What becomes of a freed block: its arena is kept, or the pages of its arena are released. -/
inductive FreeResult (L : PageLayer K) (descs low : ℕ) (I : K → Prop) (t : Task K)
    (live : List Block) : Except Halt (Task K) → Prop
  | halt {x : Halt} {r : ℕ × ℕ} (hr : L.runs t.pages r) (h : L.mfreePage t.pages r.1 r.2 = .error x) :
    FreeResult L descs low I t live (.error x)
  | keep {t' : Task K} (h : HeapInv L descs low I t' live) (hp : t'.pages = t.pages) :
    FreeResult L descs low I t live (.ok t')
  | release {t' : Task K} {r : ℕ × ℕ} (h : HeapInv L descs low I t' live) (hr : L.runs t.pages r)
    (hp : L.mfreePage t.pages r.1 r.2 = .ok t'.pages) : FreeResult L descs low I t live (.ok t')

theorem freeLarge_spec (hC : Contract L descs low I) (h : HeapInv L descs low I t live)
    (hshape : Shape descs (L.runs t.pages) kind free live)
    (hst : Stored descs t.mem (L.runs t.pages) kind free)
    (hocc : ∀ r, L.runs t.pages r → Occupied kind live r) (hb : b ∈ live)
    (hr : L.runs t.pages r) (hk : kind r.1 = none) (hin : InArena r (kind r.1) b) :
    FreeResult L descs low I t (live.erase b) (do
      let k ← L.mfreePage t.pages r.1 r.2
      .ok { t with pages := k }) := by
  cases hpage : L.mfreePage t.pages r.1 r.2 with
  | error x => exact .halt hr hpage
  | ok k' =>
    obtain ⟨hI, hruns⟩ := hC.mfree _ _ _ h.pages hr hpage
    have hptr : b.ptr = r.1 + 12 := by
      rw [hk] at hin
      exact hin.1
    have hshape' : Shape descs (L.runs k') kind free (live.erase b) := by
      refine hshape.drop hruns (fun i x => ?_) List.erase_sublist (fun b' hb' hin' => ?_)
        (fun r' i k hr' hk' hlt => ?_) hr
      · simp [hk]
      · have hlive : IsLive (live.erase b) b'.ptr := ⟨b', hb', rfl⟩
        rw [isLive_erase hshape.nodup hb] at hlive
        rw [hk] at hin'
        exact hlive.1 (hin'.1.trans hptr.symm)
      · rw [isLive_erase hshape.nodup hb]
        refine and_iff_right fun heq => ?_
        obtain ⟨hr₁, hne⟩ := (hruns r').mp hr'
        refine hne (hshape.layout.eq_of_base hr₁ hr ?_)
        rw [← block2arena_blockAt (hshape.layout.run r' hr₁).1 hlt, heq,
          hshape.block2arena_live hr hin]
    have hst' : Stored descs t.mem (L.runs k') kind free :=
      ⟨hst.desc, hst.lists, fun r' hr' => hst.header r' ((hruns r').mp hr').1⟩
    refine .release
      ⟨hI, fun r' hr' => h.low r' ((hruns r').mp hr').1, kind, free, hshape', hst', fun r' hr' => ?_⟩
      hr hpage
    obtain ⟨hr₁, hne⟩ := (hruns r').mp hr'
    exact (hocc r' hr₁).erase hshape hr hin hr₁ hne

/-- The blocks of a free arena are taken off the free list, and the arena goes. -/
theorem release_spec (h : Shape descs runs kind free live)
    (hst : Stored descs mem runs kind free) (hr : runs r) (hk : kind r.1 = some j)
    (hall : ∀ k, k < blocksPerArena j → blockAt r.1 j k ∈ free j)
    (hruns : ∀ r', runs' r' ↔ runs r' ∧ r' ≠ r) :
    ∃ mem' f, releaseLoop r.1 (blocksPerArena j) 0 mem = .ok mem' ∧
      Shape descs runs' kind (Function.update free j f) live ∧
      Stored descs mem' runs' kind (Function.update free j f) ∧
      ∀ w, Outside descs runs w → mem' w = mem w := by
  have hhead := hst.header r hr
  rw [hk] at hhead
  obtain ⟨mem', f, hloop, hl', hf, hed⟩ := releaseLoop_spec (blocksPerArena j) 0
    (X := fun n => n ∈ LinkHeap.nodes (freeListOf descs j) (free j))
    (fun n hn => ⟨h.header_ne_node hr (Nat.le_refl _) (by omega) hn,
      h.desc_ne_node (Or.inl rfl) hn⟩)
    hst.lists hhead.1 (hst.desc j).1 (fun k _ hk => hall k (by omega)) (fun _ hn => hn)
    (h.free_length (free_nodup hst.lists j))
  have hmem : ∀ i x, x ∈ Function.update free j f i ↔ x ∈ free i ∧
      ¬∃ k, k < blocksPerArena i ∧ kind r.1 = some i ∧ x = blockAt r.1 i k := by
    intro i x
    by_cases hij : i = j
    · subst hij
      rw [Function.update_self, hf]
      simp [hk]
    · have hne : kind r.1 ≠ some i := by
        rw [hk]
        exact fun he => hij (Option.some.inj he).symm
      simp [Function.update_of_ne hij, hne]
  have h' : Shape descs runs' kind (Function.update free j f) live := by
    refine h.drop hruns hmem (List.Sublist.refl live) (fun b hb hin => ?_) (fun _ _ _ _ _ _ => Iff.rfl)
      hr
    rw [hk] at hin
    obtain ⟨⟨k, hlt, hptr⟩, -⟩ := hin
    exact (h.isLive_or_free hr hk hlt).mp (hall k hlt) ⟨b, hb, hptr⟩
  refine ⟨mem', f, hloop, h', ⟨fun i => ?_, hl', fun r' hr' => ?_⟩,
    fun w hw => edits_word hed fun n hn => h.outside_ne_node hw.1 hw.2 hn⟩
  · rw [edits_word hed fun n hn => h.desc_ne_node (Or.inl rfl) hn,
      edits_word hed fun n hn => h.desc_ne_node (Or.inr rfl) hn]
    exact hst.desc i
  · obtain ⟨hr₁, hne⟩ := (hruns r').mp hr'
    refine header_congr (hst.header r' hr₁)
      (fun w h1 h2 => edits_word hed fun n hn => h.header_ne_node hr₁ h1 h2 hn)
      fun i hi => freeCnt_congr fun k hlt => ?_
    rw [hmem]
    refine and_iff_left ?_
    rintro ⟨k', hlt', hk', heq⟩
    exact hne (h.eq_of_blockAt hr₁ hr hi hk' hlt hlt' heq).1

theorem freeSmall_spec (hC : Contract L descs low I) (h : HeapInv L descs low I t live)
    (hshape : Shape descs (L.runs t.pages) kind free live)
    (hst : Stored descs t.mem (L.runs t.pages) kind free)
    (hocc : ∀ r, L.runs t.pages r → Occupied kind live r) (hb : b ∈ live)
    (hr : L.runs t.pages r) (hk : kind r.1 = some j) (hin : InArena r (kind r.1) b) :
    FreeResult L descs low I t (live.erase b) (freeSmall L t r.1 b.ptr) := by
  have hin' := hin
  rw [hk] at hin'
  obtain ⟨⟨k, hlt, hptr⟩, -⟩ := hin'
  obtain ⟨mem₁, happ, hst₂, -⟩ := giveBlock_spec hshape hst hb hr hk hlt hptr
  have hshape₂ := hshape.give hb hr hk hlt hptr
  set free₂ := Function.update free j (free j ++ [b.ptr]) with hfree₂
  unfold freeSmall
  rw [happ, ok_bind]
  set mem₂ := Function.update mem₁ (r.1 + 4) ((mem₁ (r.1 + 4) + 1) % 2 ^ 32) with hmem₂
  have hhead := hst₂.header r hr
  rw [hk] at hhead
  obtain ⟨h0, h8, h4⟩ := hhead
  have hbpa : mem₂ (mem₂ r.1 + 4) = blocksPerArena j := by
    rw [h0]
    exact (hst₂.desc j).2
  have hocc₂ : ∀ r', L.runs t.pages r' → r' ≠ r → Occupied kind (live.erase b) r' :=
    fun r' hr' hne => (hocc r' hr').erase hshape hr hin hr' hne
  simp only
  rw [hbpa, h4]
  by_cases hfull : freeCnt r.1 j (free₂ j) = blocksPerArena j
  · rw [if_pos hfull]
    have hall := freeCnt_eq_iff.mp hfull
    have hone := hshape.onePage r j hr hk
    obtain ⟨mem₃, f, hloop, -⟩ := release_spec hshape₂ hst₂ hr hk hall (fun _ => Iff.rfl)
    rw [hloop, ok_bind, ← hone]
    cases hpage : L.mfreePage t.pages r.1 r.2 with
    | error x => exact .halt hr hpage
    | ok k' =>
      obtain ⟨hI, hruns⟩ := hC.mfree _ _ _ h.pages hr hpage
      obtain ⟨mem', f', hloop', hshape₃, hst₃, -⟩ := release_spec hshape₂ hst₂ hr hk hall hruns
      rw [hloop] at hloop'
      cases hloop'
      refine .release ⟨hI, fun r' hr' => h.low r' ((hruns r').mp hr').1, kind, _,
        hshape₃, hst₃, fun r' hr' => ?_⟩ hr hpage
      obtain ⟨hr₁, hne⟩ := (hruns r').mp hr'
      exact hocc₂ r' hr₁ hne
  · rw [if_neg hfull]
    refine .keep ⟨h.pages, h.low, kind, free₂, hshape₂, hst₂,
      fun r' hr' => ?_⟩ rfl
    by_cases hrr : r' = r
    · subst hrr
      rw [hshape₂.occupied_iff hr hk]
      exact Nat.lt_of_le_of_ne (freeCnt_le _) hfull
    · exact hocc₂ r' hr' hrr

/-- **`sys_free`**, on a live block. -/
theorem sysFree_spec (hC : Contract L descs low I) (h : HeapInv L descs low I t live)
    {isThread : Bool} (hlow : isThread = true → kHeapStart ≤ low) (hb : b ∈ live) :
    FreeResult L descs low I t (live.erase b) (sysFree L isThread t b.ptr) := by
  obtain ⟨kind, free, hshape, hst, hocc⟩ := h.heap
  obtain ⟨r, hr, hin⟩ := hshape.live_mem b hb
  have hrange := hshape.inArena_range hr hin
  have harena := hshape.block2arena_live hr hin
  have hlo := h.low r hr
  have hhead := hst.header r hr
  have hthread : isThread = true → kHeapStart ≤ b.ptr := by
    intro ht
    have := hlow ht
    omega
  have h0 : b.ptr ≠ 0 := by omega
  unfold sysFree
  rw [assert_bind_of h0, assert_bind_of hthread, harena]
  cases hk : kind r.1 with
  | none =>
    rw [hk] at hhead
    rw [assert_bind_of (Or.inr hhead.2.2), if_pos ⟨hhead.1, hhead.2.2⟩, hhead.2.1]
    exact freeLarge_spec hC h hshape hst hocc hb hr hk hin
  | some j =>
    rw [hk] at hhead
    rw [assert_bind_of (Or.inl hhead.2.1), if_neg (by simp [hhead.2.1])]
    exact freeSmall_spec hC h hshape hst hocc hb hr hk hin

/-- `sys_free` of a live block writes to the descriptors and the arenas of the heap only. -/
theorem sysFree_words {isThread : Bool} (h : HeapInv L descs low I t live) (hb : b ∈ live)
    (hfree : sysFree L isThread t b.ptr = .ok t') {w : ℕ} (hw : Outside descs (L.runs t.pages) w) :
    t'.mem w = t.mem w := by
  obtain ⟨kind, free, hshape, hst, -⟩ := h.heap
  obtain ⟨r, hr, hin⟩ := hshape.live_mem b hb
  have hhead := hst.header r hr
  unfold sysFree at hfree
  obtain ⟨-, hfree⟩ := assert_bind_eq_ok.mp hfree
  obtain ⟨-, hfree⟩ := assert_bind_eq_ok.mp hfree
  rw [hshape.block2arena_live hr hin] at hfree
  obtain ⟨-, hfree⟩ := assert_bind_eq_ok.mp hfree
  cases hk : kind r.1 with
  | none =>
    rw [hk] at hhead
    rw [if_pos ⟨hhead.1, hhead.2.2⟩] at hfree
    obtain ⟨k', -, hfree⟩ := bind_eq_ok.mp hfree
    cases hfree
    rfl
  | some j =>
    rw [hk] at hhead hin
    rw [if_neg (by simp [hhead.2.1])] at hfree
    obtain ⟨⟨k, hlt, hptr⟩, -⟩ := hin
    obtain ⟨mem₁, happ, hst₂, hkeep⟩ := giveBlock_spec hshape hst hb hr hk hlt hptr
    have hone := (hshape.layout.run r hr).2.2.1
    have hne : w ≠ r.1 + 4 := by
      have hout := hw.2 r hr
      omega
    unfold freeSmall at hfree
    rw [happ, ok_bind] at hfree
    dsimp only at hfree
    split at hfree
    · next hfull =>
      have hhead₂ := hst₂.header r hr
      rw [hk] at hhead₂
      rw [hhead₂.1, (hst₂.desc j).2] at hfree hfull
      have hall := freeCnt_eq_iff.mp (hhead₂.2.2.symm.trans hfull)
      obtain ⟨mem₃, f, hloop, -, -, hkeep₃⟩ := release_spec (hshape.give hb hr hk hlt hptr) hst₂ hr hk
        hall fun _ => Iff.rfl
      rw [hloop, ok_bind] at hfree
      obtain ⟨k', -, hfree⟩ := bind_eq_ok.mp hfree
      cases hfree
      show mem₃ w = t.mem w
      rw [hkeep₃ w hw, Function.update_of_ne hne, hkeep w hw]
    · cases hfree
      show Function.update mem₁ (r.1 + 4) _ w = t.mem w
      rw [Function.update_of_ne hne, hkeep w hw]

end HcOs.Heap
