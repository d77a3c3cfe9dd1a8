import Mathlib.Data.Fintype.Card
import Mathlib.Data.Set.Finite.Basic
import Mathlib.Logic.Relation
import Mathlib.Order.Interval.Finset.Nat
import HcOs.Device.ScanSafe

/-!
# When the recursion of `partition_scan` ends

Nothing in `partition_scan` remembers where it has been, so a table that links to itself is scanned
again and again.  What bounds the depth of the calls is the number of partitions: each of them
raises a counter, and the counters are bounded.  A call that is made before any entry of its table
has been recorded raises nothing: its link is silent.

Each call that is under way needs a frame on the kernel stack and a buffer of 512 bytes, and there is
only so much of both: `memScan` asks for them.

* `scan_ends`: without a cycle of silent links the recursion ends; the scan returns if the memory
  suffices.
* `scan_never_ends`: with such a cycle it may not.
-/

namespace HcOs.Ide

open HcOs.Lib HcOs.Sectors HcOs.Fs Relation
open HcOs.Disk (maxLba)

variable {c fuel fuel' lba base v w : ℕ} {disk : Bytes}
variable {e : TableEntry} {es : List TableEntry} {s s' t r : BufScan} {o : Except Halt BufScan}

/-! ## Links -/

/-- The links of a table that no ordinary entry precedes. -/
def silentLinks (es : List TableEntry) : List TableEntry :=
  (es.takeWhile (¬·.Ordinary)).filter (·.Extended)

/-- The table at `v` has a link to `w`, with the extended partition at `base`. -/
def Linked (disk : Bytes) (base v w : ℕ) : Prop :=
  ∃ e ∈ table disk v, e.Extended ∧ w = (e.startLba + base) % 2 ^ 32

def Silent (disk : Bytes) (base v w : ℕ) : Prop :=
  ∃ e ∈ silentLinks (table disk v), w = (e.startLba + base) % 2 ^ 32

theorem mem_silentLinks_cons {e' : TableEntry} (he : ¬e.Ordinary) (h : e' ∈ silentLinks es) :
    e' ∈ silentLinks (e :: es) := by
  rw [silentLinks, List.takeWhile_cons_of_pos (by simpa using he)]
  rw [silentLinks, List.mem_filter] at h
  exact List.mem_filter.mpr ⟨List.mem_cons_of_mem e h.1, h.2⟩

theorem mem_silentLinks_self (he : e.Extended) : e ∈ silentLinks (e :: es) := by
  have hno : ¬e.Ordinary := fun h => h.2 he
  rw [silentLinks, List.takeWhile_cons_of_pos (by simpa using hno)]
  exact List.mem_filter.mpr ⟨List.mem_cons_self, by simpa using he⟩

/-! ## The table of one call -/

/-- The number of partitions recorded so far. -/
def BufScan.count (s : BufScan) : ℕ := s.pNo + s.lNo

/-- The counters and `ext_lba_base` of a scan that is under way. -/
structure Under (base : ℕ) (s : BufScan) : Prop where
  base_eq : s.extLbaBase = base
  pNo_le : s.pNo ≤ 3
  lNo_le : s.lNo ≤ 8

theorem Under.held (hu : Under base s) (n : ℕ) : Under base { s with held := n } :=
  ⟨hu.base_eq, hu.pNo_le, hu.lNo_le⟩

/-- A call that ends, on the disk: it returns, or fails by itself. -/
def Over (base : ℕ) (s : BufScan) (o : Except Halt BufScan) : Prop :=
  (∃ r, o = .ok r ∧ Under base r ∧ s.count ≤ r.count) ∨ ∃ x, OwnFault x ∧ o = .error x

theorem OwnFault.ends {x : Halt} (h : OwnFault x) {α : Type} :
    Ends (Except.error x : Except Halt α) := by
  rintro hx
  cases hx
  rcases h with h | h <;> cases h

/-- The same for the loop over the entries. -/
def OverList (base : ℕ) (s : BufScan) (o : Except Halt (Bool × BufScan)) : Prop :=
  (∃ done r, o = .ok (done, r) ∧ Under base r ∧ s.count ≤ r.count) ∨ ∃ x, OwnFault x ∧ o = .error x

theorem OverList.ends {o : Except Halt (Bool × BufScan)} (h : OverList base s o) : Ends o := by
  rcases h with ⟨done, r, rfl, -⟩ | ⟨x, hx, rfl⟩
  · exact ends_ok rfl
  · exact hx.ends

theorem OverList.mono {o : Except Halt (Bool × BufScan)} (h : OverList base s' o)
    (hle : s.count ≤ s'.count) : OverList base s o := by
  rcases h with ⟨done, r, hr, hu, hc⟩ | hx
  · exact Or.inl ⟨done, r, hr, hu, Nat.le_trans hle hc⟩
  · exact Or.inr hx

/-- An ordinary entry that is recorded raises a counter. -/
theorem Plain.count {done : Bool} (he : e.Ordinary) (hu : Under base s)
    (h : Plain c lba e s done r) : Under base r ∧ s.count < r.count := by
  have hp := hu.pNo_le
  have hl := hu.lNo_le
  cases h with
  | prim _ _ hp' =>
    have hpNo : (recordPrim c e s.toScan).pNo = s.pNo + 1 := Nat.mod_eq_of_lt (by omega)
    refine ⟨⟨hu.base_eq, by simp only; omega, hl⟩, ?_⟩
    show s.pNo + s.lNo < (recordPrim c e s.toScan).pNo + s.lNo
    omega
  | logic _ _ hl' =>
    have hlNo : (recordLogic c lba e s.toScan).lNo = s.lNo + 1 := recordLogic_lNo hl'
    refine ⟨⟨hu.base_eq, hp, by simp only; omega⟩, ?_⟩
    show s.pNo + s.lNo < s.pNo + (recordLogic c lba e s.toScan).lNo
    omega
  | empty h0 => exact absurd h0 he.1

/-- The master boot record is gone through to its end. -/
theorem Plain.lba_ne_zero {done : Bool} (h : Plain c lba e s done r) (hdone : done = true) :
    lba ≠ 0 := by
  cases h with
  | prim => cases hdone
  | logic _ hlba _ => exact hlba
  | empty => cases hdone

/-- An entry without a call: the loop goes on or ends, and the counters have not fallen. -/
theorem bufList_step (c lba : ℕ) (he : ¬e.Extended) (hu : Under base s) :
    (∃ r, Under base r ∧ s.count ≤ r.count ∧ (e.Ordinary → s.count < r.count) ∧
      ((lba ≠ 0 ∧ ∀ scan es, bufList c lba scan (e :: es) s = .ok (true, r)) ∨
        ∀ scan es, bufList c lba scan (e :: es) s = bufList c lba scan es r)) ∨
      ∃ x, OwnFault x ∧ ∀ scan es, bufList c lba scan (e :: es) s = .error x := by
  rcases plain_or_fault c lba s he with ⟨done, r, hp⟩ | ⟨x, hx, hfault⟩
  · have hnext : (lba ≠ 0 ∧ ∀ scan es, bufList c lba scan (e :: es) s = .ok (true, r)) ∨
        ∀ scan es, bufList c lba scan (e :: es) s = bufList c lba scan es r := by
      cases done with
      | true => exact Or.inl ⟨hp.lba_ne_zero rfl, fun scan es => bufList_plain hp⟩
      | false => exact Or.inr fun scan es => bufList_plain hp
    rcases ordinary_or e with h0 | ho | h5
    · refine Or.inl ⟨s, hu, Nat.le_refl _, fun ho => absurd h0 ho.1, Or.inr fun scan es => ?_⟩
      exact bufList_empty h0
    · obtain ⟨hur, hlt⟩ := hp.count ho hu
      exact Or.inl ⟨r, hur, Nat.le_of_lt hlt, fun _ => hlt, hnext⟩
    · exact absurd h5 he
  · exact Or.inr ⟨x, hx, fun scan es => bufList_fault hfault⟩

/-- A call and the rest of the loop, with room for both. -/
theorem overList_call {fuel₁ fuel₂ a : ℕ} (he : e.Extended) (htarget : callOf e s = (a, t))
    (hr : bufScan c disk fuel₁ a t = .ok r) (hle : s.count ≤ r.count)
    (hover : OverList base r (bufList c lba (bufScan c disk fuel₂) es r)) :
    OverList base s (bufList c lba (bufScan c disk (max fuel₁ fuel₂)) (e :: es) s) := by
  have hcall := bufScan_le (Nat.le_max_left fuel₁ fuel₂) (ends_ok hr)
  have hrest : bufList c lba (bufScan c disk (max fuel₁ fuel₂)) es r =
      bufList c lba (bufScan c disk fuel₂) es r :=
    bufList_mono (fun a s h => bufScan_le (Nat.le_max_right fuel₁ fuel₂) h) hover.ends
  rw [bufList_call he, htarget, hcall, hr, ok_bind, hrest]
  exact hover.mono hle

/-- The loop ends if every call it may make does: one whose link is silent, or one that is made
after something has been recorded. -/
theorem bufList_over (hbase : base ≠ 0) (hu : Under base s)
    (hcall : ∀ e ∈ es, e.Extended → ∀ t, Under base t → s.count ≤ t.count →
      (e ∈ silentLinks es ∨ s.count < t.count) →
      ∃ fuel, Over base t (bufScan c disk fuel ((e.startLba + base) % 2 ^ 32) t)) :
    ∃ fuel, OverList base s (bufList c lba (bufScan c disk fuel) es s) := by
  induction es generalizing s with
  | nil => exact ⟨0, Or.inl ⟨false, s, rfl, hu, Nat.le_refl _⟩⟩
  | cons e es ih =>
    by_cases he : e.Extended
    · have hno : ¬e.Ordinary := fun h => h.2 he
      have htarget : callOf e s = ((e.startLba + base) % 2 ^ 32, s) := by
        rw [callOf, hu.base_eq, if_pos hbase]
      obtain ⟨fuel₁, hover₁⟩ := hcall e List.mem_cons_self he s hu (Nat.le_refl _)
        (Or.inl (mem_silentLinks_self he))
      rcases hover₁ with ⟨r, hr, hur, hle⟩ | ⟨x, hx, hr⟩
      · obtain ⟨fuel₂, hover₂⟩ := ih hur fun e' he' hext t ht hle' hor =>
          hcall e' (List.mem_cons_of_mem e he') hext t ht (by omega)
            (hor.imp (mem_silentLinks_cons hno) fun h => by omega)
        exact ⟨max fuel₁ fuel₂, overList_call he htarget hr hle hover₂⟩
      · refine ⟨fuel₁, Or.inr ⟨x, hx, ?_⟩⟩
        rw [bufList_call he, htarget, hr, error_bind]
    · rcases bufList_step c lba he hu with
        ⟨r, hur, hle, hlt, ⟨-, hdone⟩ | hnext⟩ | ⟨x, hx, hfault⟩
      · exact ⟨0, Or.inl ⟨true, r, hdone _ _, hur, hle⟩⟩
      · obtain ⟨fuel, hover⟩ := ih hur fun e' he' hext t ht hle' hor => by
          apply hcall e' (List.mem_cons_of_mem e he') hext t ht (by omega)
          by_cases ho : e.Ordinary
          · have := hlt ho
            exact Or.inr (by omega)
          · exact hor.imp (mem_silentLinks_cons ho) fun h => by omega
        refine ⟨fuel, ?_⟩
        rw [hnext]
        exact hover.mono hle
      · exact ⟨0, Or.inr ⟨x, hx, hfault _ _⟩⟩

theorem bufScan_over_of_list (hv : v ≤ maxLba)
    (h : OverList base s (bufList c v (bufScan c disk fuel) (table disk v)
      { s with held := s.held + 1 })) : Over base s (bufScan c disk (fuel + 1) v s) := by
  rw [bufScan_table hv]
  rcases h with ⟨done, r, hr, hu, hle⟩ | ⟨x, hx, hr⟩
  · rw [hr, ok_bind]
    cases done with
    | true => exact Or.inl ⟨r, rfl, hu, hle⟩
    | false => exact Or.inl ⟨_, rfl, hu.held _, hle⟩
  · rw [hr, error_bind]
    exact Or.inr ⟨x, hx, rfl⟩

/-! ## The calls under a base -/

section

variable {R : ℕ → Prop} (hin : ∀ v, R v → v ≤ maxLba)
  (hcycle : ∀ v, R v → ¬TransGen (Silent disk base) v v)
include hin hcycle

/-- On the tables that are reached, going back over silent links is well founded. -/
theorem silent_wellFounded :
    WellFounded fun a b : {v // R v} => TransGen (Silent disk base) b.1 a.1 := by
  have hfin : Finite {v // R v} := ((Set.finite_Iic maxLba).subset hin).to_subtype
  have htrans : IsTrans {v // R v} fun a b => TransGen (Silent disk base) b.1 a.1 :=
    ⟨fun a b c hab hbc => hbc.trans hab⟩
  have hirrefl : Std.Irrefl fun a b : {v // R v} => TransGen (Silent disk base) b.1 a.1 :=
    ⟨fun a h => hcycle a.1 a.2 h⟩
  exact Finite.wellFounded_of_trans_of_irrefl _

/-- With `ext_lba_base` set, every call ends. -/
theorem bufScan_over (hbase : base ≠ 0) (hclosed : ∀ v w, R v → Linked disk base v w → R w)
    (hv : R v) (hu : Under base s) : ∃ fuel, Over base s (bufScan c disk fuel v s) := by
  -- Every call either comes later in the order of silent links, or the counters have risen.
  induction hn : 11 - s.count using Nat.strong_induction_on generalizing v s with
  | _ n ihn =>
    have key : ∀ a : {v // R v}, ∀ s : BufScan, Under base s → 11 - s.count = n →
        ∃ fuel, Over base s (bufScan c disk fuel a.1 s) := by
      intro a
      induction a using (silent_wellFounded hin hcycle).induction with
      | _ a iha =>
        intro s hu hs
        have hlist : ∃ fuel, OverList base { s with held := s.held + 1 }
            (bufList c a.1 (bufScan c disk fuel) (table disk a.1)
              { s with held := s.held + 1 }) := by
          apply bufList_over hbase (hu.held _)
          intro e he hext t ht hle hor
          have hlinked : Linked disk base a.1 ((e.startLba + base) % 2 ^ 32) := ⟨e, he, hext, rfl⟩
          have hle' : s.count ≤ t.count := hle
          by_cases hlt : s.count < t.count
          · have hcount : t.count ≤ 11 := Nat.add_le_add ht.pNo_le ht.lNo_le
            exact ihn (11 - t.count) (by omega) (hclosed _ _ a.2 hlinked) ht rfl
          · have hmem : e ∈ silentLinks (table disk a.1) := hor.resolve_right hlt
            exact iha ⟨_, hclosed _ _ a.2 hlinked⟩ (TransGen.single ⟨e, hmem, rfl⟩) t ht
              (by omega)
        obtain ⟨fuel, hover⟩ := hlist
        exact ⟨fuel + 1, bufScan_over_of_list (hin a.1 a.2) hover⟩
    exact key ⟨v, hv⟩ s hu hn

end

/-! ## The first call -/

/-- Where the links of the master boot record lead while `ext_lba_base` is clear: the first one
sets it. -/
def rootLinks : List TableEntry → List ℕ
  | [] => []
  | e :: es =>
    if e.Extended then
      e.startLba :: (es.filter (·.Extended)).map fun e' => (e'.startLba + e.startLba) % 2 ^ 32
    else rootLinks es

/-- The loop over the master boot record, when its extended partition does not start there. -/
theorem bufList_root (hu : Under 0 s)
    (hcall : ∀ x, es.find? (·.Extended) = some x → x.startLba ≠ 0 ∧
      ∀ a ∈ rootLinks es, ∀ t, Under x.startLba t →
        ∃ fuel, Over x.startLba t (bufScan c disk fuel a t)) :
    ∃ fuel base, OverList base s (bufList c lba (bufScan c disk fuel) es s) := by
  induction es generalizing s with
  | nil => exact ⟨0, 0, Or.inl ⟨false, s, rfl, hu, Nat.le_refl _⟩⟩
  | cons e es ih =>
    by_cases he : e.Extended
    · rw [List.find?_cons_of_pos (by simpa using he), rootLinks, if_pos he] at hcall
      obtain ⟨hne, hcall⟩ := hcall e rfl
      have htarget : callOf e s = (e.startLba, { s with extLbaBase := e.startLba }) := by
        rw [callOf, hu.base_eq]
        rfl
      obtain ⟨fuel₁, hover₁⟩ := hcall e.startLba List.mem_cons_self
        { s with extLbaBase := e.startLba } ⟨rfl, hu.pNo_le, hu.lNo_le⟩
      rcases hover₁ with ⟨r, hr, hur, hle⟩ | ⟨x, hx, hr⟩
      · obtain ⟨fuel₂, hover₂⟩ : ∃ fuel, OverList e.startLba r
            (bufList c lba (bufScan c disk fuel) es r) := by
          apply bufList_over hne hur
          intro e' he' hext t ht _ _
          apply hcall _ _ t ht
          apply List.mem_cons_of_mem
          exact List.mem_map.mpr ⟨e', List.mem_filter.mpr ⟨he', by simpa using hext⟩, rfl⟩
        exact ⟨max fuel₁ fuel₂, e.startLba, overList_call he htarget hr hle hover₂⟩
      · refine ⟨fuel₁, 0, Or.inr ⟨x, hx, ?_⟩⟩
        rw [bufList_call he, htarget, hr, error_bind]
    · rw [List.find?_cons_of_neg (by simpa using he), rootLinks, if_neg he] at hcall
      rcases bufList_step c lba he hu with
        ⟨r, hur, hle, -, ⟨-, hdone⟩ | hnext⟩ | ⟨x, hx, hfault⟩
      · exact ⟨0, 0, Or.inl ⟨true, r, hdone _ _, hur, hle⟩⟩
      · obtain ⟨fuel, base, hover⟩ := ih hur hcall
        refine ⟨fuel, base, ?_⟩
        rw [hnext]
        exact hover.mono hle
      · exact ⟨0, 0, Or.inr ⟨x, hx, hfault _ _⟩⟩

/-- An extended partition that starts at the master boot record leads back there; the scan fails
once something is recorded each time. -/
theorem bufList_back {x : TableEntry} (hfind : es.find? (·.Extended) = some x)
    (hx : x.startLba = 0) (hu : Under 0 s)
    (hcall : ∀ t, Under 0 t → s.count ≤ t.count → (x ∈ silentLinks es ∨ s.count < t.count) →
      ∃ fuel y, OwnFault y ∧ bufScan c disk fuel 0 t = .error y) :
    ∃ fuel y, OwnFault y ∧ bufList c 0 (bufScan c disk fuel) es s = .error y := by
  induction es generalizing s with
  | nil => cases hfind
  | cons e es ih =>
    by_cases he : e.Extended
    · rw [List.find?_cons_of_pos (by simpa using he)] at hfind
      cases hfind
      have htarget : callOf x s = (0, { s with extLbaBase := 0 }) := by
        rw [callOf, hu.base_eq, hx]
        rfl
      obtain ⟨fuel, y, hy, hr⟩ := hcall { s with extLbaBase := 0 } ⟨rfl, hu.pNo_le, hu.lNo_le⟩
        (Nat.le_refl _) (Or.inl (mem_silentLinks_self he))
      refine ⟨fuel, y, hy, ?_⟩
      rw [bufList_call he, htarget, hr, error_bind]
    · rw [List.find?_cons_of_neg (by simpa using he)] at hfind
      rcases bufList_step c 0 he hu with
        ⟨r, hur, hle, hlt, ⟨hne, -⟩ | hnext⟩ | ⟨y, hy, hfault⟩
      · exact absurd rfl hne
      · obtain ⟨fuel, y, hy, hr⟩ := ih hfind hur fun t ht hle' hor => by
          apply hcall t ht (by omega)
          by_cases ho : e.Ordinary
          · have := hlt ho
            exact Or.inr (by omega)
          · exact hor.imp (mem_silentLinks_cons ho) fun h => by omega
        exact ⟨fuel, y, hy, by rw [hnext]; exact hr⟩
      · exact ⟨0, y, hy, hfault _ _⟩

theorem bufScan_back {x : TableEntry} (hfind : (table disk 0).find? (·.Extended) = some x)
    (hx : x.startLba = 0) (hsilent : x ∉ silentLinks (table disk 0)) (hu : Under 0 s) :
    ∃ fuel y, OwnFault y ∧ bufScan c disk fuel 0 s = .error y := by
  induction hn : 11 - s.count using Nat.strong_induction_on generalizing s with
  | _ n ih =>
    obtain ⟨fuel, y, hy, hr⟩ : ∃ fuel y, OwnFault y ∧
        bufList c 0 (bufScan c disk fuel) (table disk 0) { s with held := s.held + 1 } =
          .error y := by
      apply bufList_back hfind hx (hu.held _)
      intro t ht hle hor
      have hlt : s.count < t.count := hor.resolve_left hsilent
      have hcount : t.count ≤ 11 := Nat.add_le_add ht.pNo_le ht.lNo_le
      exact ih (11 - t.count) (by omega) ht rfl
    refine ⟨fuel + 1, y, hy, ?_⟩
    rw [bufScan_table (Nat.zero_le _), hr, error_bind]

/-! ## The recursion ends -/

/-- `ext_lba_base` once the first extended partition has been seen. -/
def baseOf (disk : Bytes) (base : ℕ) : ℕ :=
  if base ≠ 0 then base else ((table disk 0).find? (·.Extended)).elim 0 (·.startLba)

/-- The tables that the calls of `partition_scan` lead to. -/
def Reached (disk : Bytes) (base v : ℕ) : Prop :=
  ∃ a ∈ if base ≠ 0 then [0] else rootLinks (table disk 0),
    ReflTransGen (Linked disk (baseOf disk base)) a v

theorem mem_rootLinks {x : TableEntry} (h : es.find? (·.Extended) = some x) :
    x.startLba ∈ rootLinks es := by
  induction es with
  | nil => cases h
  | cons e es ih =>
    rw [rootLinks]
    by_cases he : e.Extended
    · rw [List.find?_cons_of_pos (by simpa using he)] at h
      cases h
      rw [if_pos he]
      exact List.mem_cons_self
    · rw [List.find?_cons_of_neg (by simpa using he)] at h
      rw [if_neg he]
      exact ih h

theorem bufScan_ends (hu : Under base s) (hin : ∀ v, Reached disk base v → v ≤ maxLba)
    (hcycle : ∀ v, Reached disk base v → ¬TransGen (Silent disk (baseOf disk base)) v v) :
    ∃ fuel base', Over base' s (bufScan c disk fuel 0 s) := by
  have hclosed : ∀ v w, Reached disk base v → Linked disk (baseOf disk base) v w →
      Reached disk base w := by
    rintro v w ⟨a, ha, hav⟩ hvw
    exact ⟨a, ha, hav.tail hvw⟩
  by_cases hbase : base = 0
  · subst hbase
    have hroots : ∀ a ∈ rootLinks (table disk 0), Reached disk 0 a :=
      fun a ha => ⟨a, ha, ReflTransGen.refl⟩
    cases hfind : (table disk 0).find? (·.Extended) with
    | none =>
      obtain ⟨fuel, base', hover⟩ : ∃ fuel base', OverList base' { s with held := s.held + 1 }
          (bufList c 0 (bufScan c disk fuel) (table disk 0) { s with held := s.held + 1 }) := by
        apply bufList_root (hu.held _)
        intro x hx
        rw [hfind] at hx
        cases hx
      exact ⟨fuel + 1, base', bufScan_over_of_list (Nat.zero_le _) hover⟩
    | some x =>
      have hbaseOf : baseOf disk 0 = x.startLba := by
        rw [baseOf, hfind]
        rfl
      by_cases hx : x.startLba = 0
      · have hsilent : x ∉ silentLinks (table disk 0) := by
          intro hmem
          have hzero : Reached disk 0 0 := hx ▸ hroots _ (mem_rootLinks hfind)
          apply hcycle 0 hzero
          rw [hbaseOf, hx]
          exact TransGen.single ⟨x, hmem, by rw [hx, Nat.zero_mod]⟩
        obtain ⟨fuel, y, hy, hr⟩ := bufScan_back (c := c) hfind hx hsilent hu
        exact ⟨fuel, 0, Or.inr ⟨y, hy, hr⟩⟩
      · rw [hbaseOf] at hcycle hclosed
        obtain ⟨fuel, base', hover⟩ : ∃ fuel base', OverList base' { s with held := s.held + 1 }
            (bufList c 0 (bufScan c disk fuel) (table disk 0) { s with held := s.held + 1 }) := by
          apply bufList_root (hu.held _)
          intro x' hx'
          obtain rfl : x = x' := Option.some.inj (hfind.symm.trans hx')
          exact ⟨hx, fun a ha t ht => bufScan_over hin hcycle hx hclosed (hroots a ha) ht⟩
        exact ⟨fuel + 1, base', bufScan_over_of_list (Nat.zero_le _) hover⟩
  · have hbaseOf : baseOf disk base = base := if_pos hbase
    rw [hbaseOf] at hcycle hclosed
    have hzero : Reached disk base 0 := by
      refine ⟨0, ?_, ReflTransGen.refl⟩
      rw [if_pos hbase]
      exact List.mem_cons_self
    obtain ⟨fuel, hover⟩ := bufScan_over (c := c) hin hcycle hbase hclosed hzero hu
    exact ⟨fuel, base, hover⟩

/-! ## The memory -/

/-- The memory in which the calls run, whatever else uses it. -/
structure Memory (H : Type) where
  /-- A call begins: its frame on the kernel stack, and `sys_malloc` of the buffer.  An error stands
  for a stack that is full, for a `NULL`, and for the end of the kernel in `sys_malloc`. -/
  call : H → Except Halt H
  /-- It ends, with `sys_free` of the buffer or without. -/
  ret : H → Bool → Except Halt H

/-- The memory does not suffice. -/
def Memory.Fault (mem : Memory H) (x : Halt) : Prop :=
  ∃ h, mem.call h = .error x ∨ ∃ freed, mem.ret h freed = .error x

/-- `partition_scan` with the memory as it is. -/
def memScan (mem : Memory H) (c : ℕ) (disk : Bytes) : ℕ → ℕ → MemScan H → Except Halt (MemScan H)
  | 0, _, _ => .error .noReturn
  | fuel + 1, extLba, s => do
    let held ← mem.call s.held
    let bs ← ideRead disk 1 extLba zeros 0 1
    let (done, s) ← bufList c extLba (memScan mem c disk fuel) ((List.range 4).map (tableEntry bs))
      { s with held }
    let held ← mem.ret s.held (!done)
    .ok { s with held }

/-- The second computation ends as the first one, with its memory in addition, unless that does not
suffice. -/
inductive OrFault {A B : Type} (mem : Memory H) (f : B → A) : Except Halt A → Except Halt B → Prop
  | ok (b : B) : OrFault mem f (.ok (f b)) (.ok b)
  | error (x : Halt) : OrFault mem f (.error x) (.error x)
  | fault (o : Except Halt A) {x : Halt} (hx : mem.Fault x) : OrFault mem f o (.error x)

variable {mem : Memory H}

theorem OrFault.bind {A A' B B' : Type} {f : A' → A} {g : B' → B} {o : Except Halt A}
    {o' : Except Halt A'} {k : A → Except Halt B} {k' : A' → Except Halt B'}
    (h : OrFault mem f o o') (hk : ∀ a, OrFault mem g (k (f a)) (k' a)) :
    OrFault mem g (o >>= k) (o' >>= k') := by
  cases h with
  | ok a => exact hk a
  | error x => exact .error x
  | fault o hx => exact .fault _ hx

theorem bufList_orFault {scan₀ : ℕ → Scan → Except Halt Scan}
    {scan : ℕ → MemScan H → Except Halt (MemScan H)} {s : MemScan H}
    (hscan : ∀ a s, OrFault mem (·.toScan) (scan₀ a s.toScan) (scan a s)) :
    OrFault mem (·.2.toScan) (scanList c lba scan₀ es s.toScan) (bufList c lba scan es s) := by
  induction es generalizing s with
  | nil => exact .ok (false, s)
  | cons e es ih =>
    by_cases he : e.Extended
    · rw [bufList_call he, scanList_call he]
      exact (hscan _ _).bind fun r => ih
    · have h5 : ¬e.fsType = 5#8 := he
      rw [bufList, bufEntry, if_neg h5, scanList, scanEntry_plain he]
      cases scanEntry c lba scan₀ e s.toScan with
      | error x => exact .error x
      | ok p =>
        obtain ⟨done, r⟩ := p
        cases done with
        | true => exact .ok (true, (⟨r, s.held⟩ : MemScan H))
        | false => exact ih (s := ⟨r, s.held⟩)

/-- The scan goes as it does with memory for everything, until the memory does not suffice. -/
theorem memScan_orFault (s : MemScan H) :
    OrFault mem (·.toScan) (partitionScan c disk fuel v s.toScan) (memScan mem c disk fuel v s) := by
  induction fuel generalizing v s with
  | zero => exact .error _
  | succ fuel ih =>
    rw [memScan]
    cases hcall : mem.call s.held with
    | error x => exact .fault _ ⟨s.held, Or.inl hcall⟩
    | ok held =>
      rw [ok_bind]
      by_cases hv : v ≤ maxLba
      · rw [ideRead_eq (Nat.le_refl 1) (by omega), ok_bind, table_copy, partitionScan_table hv]
        have hlist : OrFault mem (·.2.toScan)
            (scanList c v (partitionScan c disk fuel) (table disk v) s.toScan)
            (bufList c v (memScan mem c disk fuel) (table disk v) { s with held }) :=
          bufList_orFault (s := { s with held }) fun a s => ih s
        rw [← bind_pure (scanList c v (partitionScan c disk fuel) (table disk v) s.toScan)]
        refine hlist.bind fun ⟨done, r⟩ => ?_
        dsimp only
        cases hret : mem.ret r.held (!done) with
        | error x => exact .fault _ ⟨r.held, Or.inr ⟨!done, hret⟩⟩
        | ok held => exact .ok { r with held }
      · rw [partitionScan, ideRead, assert_bind_of_not hv]
        exact .error _

/-- **The recursion ends.**  If the links stay on the disk, and no table that is reached leads back
to itself by links none of which has an ordinary entry before it in its table, then
`partition_scan` makes finitely many calls: it returns, or it fails with a fourth primary or a ninth
logical partition, or because the memory does not suffice. -/
theorem scan_ends (s : Scan) (hp : s.pNo ≤ 3) (hl : s.lNo ≤ 8)
    (hin : ∀ v, Reached disk s.extLbaBase v → v ≤ maxLba)
    (hcycle : ∀ v, Reached disk s.extLbaBase v →
      ¬TransGen (Silent disk (baseOf disk s.extLbaBase)) v v) :
    ∃ fuel, ∀ (H : Type) (mem : Memory H) (h : H), (∃ r, memScan mem c disk fuel 0 ⟨s, h⟩ = .ok r) ∨
      ∃ x, (OwnFault x ∨ mem.Fault x) ∧ memScan mem c disk fuel 0 ⟨s, h⟩ = .error x := by
  obtain ⟨fuel, base', hover⟩ : ∃ fuel base', Over base' ⟨s, 0⟩ (bufScan c disk fuel 0 ⟨s, 0⟩) :=
    bufScan_ends ⟨rfl, hp, hl⟩ hin hcycle
  have hends : (∃ r, partitionScan c disk fuel 0 s = .ok r) ∨
      ∃ x, OwnFault x ∧ partitionScan c disk fuel 0 s = .error x := by
    have herase : (bufScan c disk fuel 0 ⟨s, 0⟩).map (·.toScan) = partitionScan c disk fuel 0 s :=
      bufScan_erase _
    rw [← herase]
    rcases hover with ⟨r, hr, -⟩ | ⟨x, hx, hr⟩
    · exact Or.inl ⟨r.toScan, by rw [hr]; rfl⟩
    · exact Or.inr ⟨x, hx, by rw [hr]; rfl⟩
  refine ⟨fuel, fun H mem h => ?_⟩
  have hmem : OrFault mem (·.toScan) (partitionScan c disk fuel 0 s)
      (memScan mem c disk fuel 0 ⟨s, h⟩) := memScan_orFault ⟨s, h⟩
  generalize partitionScan c disk fuel 0 s = o at hends hmem
  generalize memScan mem c disk fuel 0 ⟨s, h⟩ = o' at hmem ⊢
  cases hmem with
  | ok r => exact Or.inl ⟨r, rfl⟩
  | fault _ hx => exact Or.inr ⟨_, Or.inr hx, rfl⟩
  | error x =>
    rcases hends with ⟨r, hr⟩ | ⟨y, hy, hr⟩
    · cases hr
    · cases hr
      exact Or.inr ⟨x, Or.inl hy, rfl⟩

/-- The tables of `chainDisk` have their logical partition before the link. -/
theorem chainDisk_reached {v : ℕ} (h : Reached chainDisk 0 v) : v = 2000 ∨ v = 2300 := by
  have hbase : baseOf chainDisk 0 = 2000 := by decide +kernel
  obtain ⟨a, ha, hav⟩ := h
  have hroots : rootLinks (table chainDisk 0) = [2000] := by decide +kernel
  have ha' : a = 2000 := by
    rw [if_neg (not_not_intro rfl), hroots] at ha
    exact List.mem_singleton.mp ha
  rw [hbase, ha'] at hav
  induction hav with
  | refl => exact Or.inl rfl
  | @tail v w _ hvw ih =>
    obtain ⟨e, he, hext, hw⟩ := hvw
    have hlinks : ∀ e ∈ table chainDisk 2000, e.Extended → (e.startLba + 2000) % 2 ^ 32 = 2300 := by
      decide +kernel
    have hnone : ∀ e ∈ table chainDisk 2300, ¬e.Extended := by decide +kernel
    rcases ih with rfl | rfl
    · exact Or.inr (hw.trans (hlinks e he hext))
    · exact absurd hext (hnone e he)

theorem scan_ends_chain : ∃ fuel, ∀ (H : Type) (mem : Memory H) (h : H),
    (∃ r, memScan mem 0 chainDisk fuel 0 ⟨aloneStart 0, h⟩ = .ok r) ∨
      ∃ x, (OwnFault x ∨ mem.Fault x) ∧
        memScan mem 0 chainDisk fuel 0 ⟨aloneStart 0, h⟩ = .error x := by
  refine scan_ends (aloneStart 0) (by decide) (by decide) (fun v hv => ?_) (fun v hv hcycle => ?_)
  · rcases chainDisk_reached hv with rfl | rfl <;> decide
  · have hsilent : ∀ w, ¬Silent chainDisk (baseOf chainDisk 0) v w := by
      rintro w ⟨e, he, -⟩
      have hnone : silentLinks (table chainDisk 2000) = [] ∧
          silentLinks (table chainDisk 2300) = [] := by decide +kernel
      rcases chainDisk_reached hv with rfl | rfl
      · rw [hnone.1] at he
        cases he
      · rw [hnone.2] at he
        cases he
    obtain ⟨w, hw, -⟩ := TransGen.head'_iff.mp hcycle
    exact hsilent w hw

/-- An extended partition whose first table links to itself. -/
def loopDisk : Bytes := putEntry (putEntry zeros 2000 0 ⟨5#8, 0, 10⟩) 0 0 ⟨5#8, 2000, 10⟩

theorem loopDisk_reached {v : ℕ} (h : Reached loopDisk 0 v) : v = 2000 := by
  have hbase : baseOf loopDisk 0 = 2000 := by decide +kernel
  have hroots : rootLinks (table loopDisk 0) = [2000] := by decide +kernel
  obtain ⟨a, ha, hav⟩ := h
  rw [if_neg (not_not_intro rfl), hroots] at ha
  rw [hbase, List.mem_singleton.mp ha] at hav
  induction hav with
  | refl => rfl
  | @tail v w _ hvw ih =>
    obtain ⟨e, he, hext, hw⟩ := hvw
    have hlinks : ∀ e ∈ table loopDisk 2000, e.Extended → (e.startLba + 2000) % 2 ^ 32 = 2000 := by
      decide +kernel
    exact hw.trans (hlinks e (ih ▸ he) hext)

theorem scan_loop {s : Scan} (hs : s.extLbaBase = 2000) :
    partitionScan 0 loopDisk fuel 2000 s = .error .noReturn := by
  induction fuel with
  | zero => rfl
  | succ fuel ih =>
    have htable : (table loopDisk 2000).filter (·.fsType ≠ 0#8) = [⟨5#8, 0, 10⟩] := by
      decide +kernel
    rw [partitionScan_table (by decide), scanList_filter, htable, scanList, scanEntry, if_pos rfl,
      if_pos (by rw [hs]; decide), hs, show (0 + 2000) % 2 ^ 32 = 2000 from rfl, ih]
    rfl

/-- With this disk `partition_scan` does not return, however much memory there is. -/
theorem scan_never_ends :
    (∀ v, Reached loopDisk 0 v → v ≤ maxLba) ∧
      (∀ fuel, partitionScan 0 loopDisk fuel 0 (aloneStart 0) = .error .noReturn) ∧
      ∀ (H : Type) (mem : Memory H) (h : H) fuel,
        ∃ x, memScan mem 0 loopDisk fuel 0 ⟨aloneStart 0, h⟩ = .error x := by
  have hnone : ∀ fuel, partitionScan 0 loopDisk fuel 0 (aloneStart 0) = .error .noReturn := by
    intro fuel
    cases fuel with
    | zero => rfl
    | succ fuel =>
      have htable : (table loopDisk 0).filter (·.fsType ≠ 0#8) = [⟨5#8, 2000, 10⟩] := by
        decide +kernel
      rw [partitionScan_table (Nat.zero_le _), scanList_filter, htable, scanList, scanEntry,
        if_pos rfl, if_neg (show ¬(aloneStart 0).extLbaBase ≠ 0 by decide), scan_loop rfl]
      rfl
  refine ⟨fun v hv => ?_, hnone, fun H mem h fuel => ?_⟩
  · rw [loopDisk_reached hv]
    decide
  · have hmem : OrFault mem (·.toScan) (partitionScan 0 loopDisk fuel 0 (aloneStart 0))
        (memScan mem 0 loopDisk fuel 0 ⟨aloneStart 0, h⟩) := memScan_orFault ⟨aloneStart 0, h⟩
    rw [hnone fuel] at hmem
    generalize memScan mem 0 loopDisk fuel 0 ⟨aloneStart 0, h⟩ = o' at hmem ⊢
    cases hmem with
    | error x => exact ⟨_, rfl⟩
    | fault _ hx => exact ⟨_, rfl⟩

end HcOs.Ide
