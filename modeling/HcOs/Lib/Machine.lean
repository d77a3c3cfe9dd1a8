import Mathlib.Data.List.Basic
import Mathlib.Tactic.Common

/-!
# Machines and their runs

A machine is a deterministic step function over events: `step s e` is `none` when the event `e`
cannot happen in the state `s`, `some (.ok s')` when it leads to `s'`, and `some (.error h)` when
it stops the machine for the reason `h`.  Nondeterminism (a scheduler, a device, an unknown
argument) sits in the choice of the events, so a statement about every list of events is a
statement about every interleaving.

* `run_inv`, `run_ok`, `run_cases`: what one step keeps, a whole run keeps.
* `guard`: the machine restricted to the events that meet a condition; its runs are the runs of
  the machine all of whose steps meet it (`run_of_guard`).
* `run_iff_guard`: the condition is exact.
-/

namespace HcOs.Lib

/-- A machine with states `S`, events `E` and reasons to stop `H`. -/
structure Machine (S E H : Type*) where
  step : S → E → Option (Except H S)

namespace Machine

variable {S E H : Type*} (M : Machine S E H)

/-- The outcome of a list of events; a machine that stopped takes no further event. -/
def run : S → List E → Option (Except H S)
  | s, [] => some (.ok s)
  | s, e :: es =>
    match M.step s e with
    | some (.ok s') => run s' es
    | some (.error h) => if es.isEmpty then some (.error h) else none
    | none => none

@[simp] theorem run_nil (s : S) : M.run s [] = some (.ok s) := rfl

theorem run_cons_ok {s s' : S} {e : E} (h : M.step s e = some (.ok s')) (es : List E) :
    M.run s (e :: es) = M.run s' es := by
  simp only [run, h]

/-- The first step of a run that has an outcome. -/
theorem run_cons_cases {s : S} {e : E} {es : List E} {r : Except H S}
    (h : M.run s (e :: es) = some r) :
    (∃ s', M.step s e = some (.ok s') ∧ M.run s' es = some r) ∨
      ∃ x, M.step s e = some (.error x) ∧ es = [] ∧ r = .error x := by
  simp only [run] at h
  split at h
  · next s' hs => exact Or.inl ⟨s', hs, h⟩
  · next x hs =>
    split at h
    · next he =>
      refine Or.inr ⟨x, hs, List.isEmpty_iff.mp he, ?_⟩
      exact (Option.some.inj h).symm
    · cases h
  · cases h

theorem run_append {s s' : S} {es : List E} (h : M.run s es = some (.ok s')) (fs : List E) :
    M.run s (es ++ fs) = M.run s' fs := by
  induction es generalizing s with
  | nil =>
    simp only [run_nil, Option.some.injEq, Except.ok.injEq] at h
    subst h
    rfl
  | cons e es ih =>
    rcases M.run_cons_cases h with ⟨s₁, hs, hr⟩ | ⟨x, -, -, hx⟩
    · rw [List.cons_append, M.run_cons_ok hs]
      exact ih hr
    · cases hx

/-- A run has an outcome at each of its moments. -/
theorem run_segment {s : S} {es fs : List E} {r : Except H S} (h : M.run s es = some r)
    (hfs : fs <+: es) : ∃ r', M.run s fs = some r' := by
  induction fs generalizing s es with
  | nil => exact ⟨_, rfl⟩
  | cons e fs ih =>
    obtain ⟨es', rfl⟩ := hfs
    rcases M.run_cons_cases h with ⟨s₁, hs, hr⟩ | ⟨x, hx, hnil, -⟩
    · rw [M.run_cons_ok hs]
      exact ih hr (List.prefix_append fs es')
    · obtain ⟨rfl, -⟩ := List.append_eq_nil_iff.mp hnil
      exact ⟨.error x, by simp only [run, hx, List.isEmpty_nil, if_true]⟩

/-- A run that is evaluated up to a test of its last state. -/
theorem run_of_test {s : S} {es : List E} {p : S → Bool}
    (h : ((M.run s es).any fun r => r.toOption.any p) = true) :
    ∃ s', M.run s es = some (.ok s') ∧ p s' = true := by
  cases hr : M.run s es with
  | none =>
    rw [hr] at h
    cases h
  | some r =>
    rw [hr] at h
    cases r with
    | ok s' => exact ⟨s', rfl, h⟩
    | error x => cases h

/-- The reason for which a run stopped. -/
def halted : Option (Except H S) → Option H
  | some (.error x) => some x
  | _ => none

theorem eq_of_halted {r : Option (Except H S)} {x : H} (h : halted r = some x) :
    r = some (.error x) := by
  unfold halted at h
  split at h
  · next y => rw [Option.some.inj h]
  · cases h

/-- The outcome of a step that is the image of another one. -/
theorem ok_of_map {S' : Type*} {x : Option (Except H S)} {f : S → S'} {s' : S'}
    (h : x.map (Except.map f) = some (.ok s')) : ∃ s, x = some (.ok s) ∧ f s = s' := by
  obtain ⟨r, hr, hs'⟩ := Option.map_eq_some_iff.mp h
  cases r with
  | error y => cases hs'
  | ok s => exact ⟨s, hr, Except.ok.inj hs'⟩

variable {M}

/-- **The invariant rule.**  What every step keeps holds after every run, and a run stops only for
the reasons a step from a state with the invariant stops for. -/
theorem run_inv {I : S → Prop} {Q : H → Prop}
    (hok : ∀ s e s', I s → M.step s e = some (.ok s') → I s')
    (herr : ∀ s e x, I s → M.step s e = some (.error x) → Q x)
    {s : S} {es : List E} {r : Except H S} (hs : I s) (hr : M.run s es = some r) :
    (∀ s', r = .ok s' → I s') ∧ ∀ x, r = .error x → Q x := by
  induction es generalizing s with
  | nil =>
    simp only [run_nil, Option.some.injEq] at hr
    subst hr
    refine ⟨fun s' h => ?_, fun x h => ?_⟩
    · cases h
      exact hs
    · cases h
  | cons e es ih =>
    rcases M.run_cons_cases hr with ⟨s₁, hs₁, hr₁⟩ | ⟨x, hx, -, rfl⟩
    · exact ih (hok s e s₁ hs hs₁) hr₁
    · refine ⟨fun s' h => ?_, fun y h => ?_⟩
      · cases h
      · cases h
        exact herr s e x hs hx

/-- The invariant rule for a step lemma that says how a step can end. -/
theorem run_cases {I : S → Prop} {Q : H → Prop}
    (hstep : ∀ s e r, I s → M.step s e = some r →
      (∃ s', r = .ok s' ∧ I s') ∨ ∃ x, r = .error x ∧ Q x)
    {s : S} {es : List E} {r : Except H S} (hs : I s) (hr : M.run s es = some r) :
    (∃ s', r = .ok s' ∧ I s') ∨ ∃ x, r = .error x ∧ Q x := by
  have h := run_inv (I := I) (Q := Q) (fun s e s' hi hs => ?_) (fun s e x hi hs => ?_) hs hr
  · cases r with
    | ok s' => exact Or.inl ⟨s', rfl, h.1 s' rfl⟩
    | error x => exact Or.inr ⟨x, rfl, h.2 x rfl⟩
  · rcases hstep s e _ hi hs with ⟨s₁, h₁, hi₁⟩ | ⟨x, hx, -⟩
    · cases h₁
      exact hi₁
    · cases hx
  · rcases hstep s e _ hi hs with ⟨s₁, h₁, -⟩ | ⟨y, hy, hq⟩
    · cases h₁
    · cases hy
      exact hq

/-- The invariant rule for a run that does not stop. -/
theorem run_ok {I : S → Prop} (hok : ∀ s e s', I s → M.step s e = some (.ok s') → I s')
    {s s' : S} {es : List E} (hs : I s) (hr : M.run s es = some (.ok s')) : I s' :=
  (run_inv (Q := fun _ => True) hok (fun _ _ _ _ _ => trivial) hs hr).1 s' rfl

/-- The invariant rule for a machine that never stops. -/
theorem run_safe {I : S → Prop}
    (hok : ∀ s e s', I s → M.step s e = some (.ok s') → I s')
    (herr : ∀ s e x, I s → M.step s e ≠ some (.error x))
    {s : S} {es : List E} {r : Except H S} (hs : I s) (hr : M.run s es = some r) :
    ∃ s', r = .ok s' ∧ I s' := by
  have h := run_inv (Q := fun _ => False) hok (fun s e x hi hx => herr s e x hi hx) hs hr
  cases r with
  | ok s' => exact ⟨s', rfl, h.1 s' rfl⟩
  | error x => exact (h.2 x rfl).elim

/-- The machine that takes only the events meeting `C`. -/
def guard (M : Machine S E H) (C : S → E → Prop) [∀ s e, Decidable (C s e)] : Machine S E H where
  step s e := if C s e then M.step s e else none

variable {C : S → E → Prop} [∀ s e, Decidable (C s e)]

theorem guard_step {s : S} {e : E} {r : Except H S} (h : (M.guard C).step s e = some r) :
    C s e ∧ M.step s e = some r := by
  simp only [guard] at h
  split at h
  · next hc => exact ⟨hc, h⟩
  · cases h

/-- What a step that meets the condition keeps, a guarded run keeps. -/
theorem run_guard_ok {I : S → Prop}
    (hok : ∀ s e s', I s → C s e → M.step s e = some (.ok s') → I s') {s s' : S} {es : List E}
    (hs : I s) (hr : (M.guard C).run s es = some (.ok s')) : I s' :=
  run_ok (fun s e s' hi h => hok s e s' hi (guard_step h).1 (guard_step h).2) hs hr

theorem run_of_guard {s : S} {es : List E} {r : Except H S} (h : (M.guard C).run s es = some r) :
    M.run s es = some r := by
  induction es generalizing s with
  | nil => exact h
  | cons e es ih =>
    rcases (M.guard C).run_cons_cases h with ⟨s₁, hs, hr⟩ | ⟨x, hx, rfl, rfl⟩
    · rw [M.run_cons_ok (guard_step hs).2]
      exact ih hr
    · simp only [run, (guard_step hx).2, List.isEmpty_nil, if_true]

/-- Every step of a run of the guarded machine meets the condition. -/
theorem guard_segment {s s' : S} {es fs : List E} {e : E} {r : Except H S}
    (h : (M.guard C).run s es = some r) (hfs : fs ++ [e] <+: es)
    (hs' : M.run s fs = some (.ok s')) : C s' e := by
  induction fs generalizing s es with
  | nil =>
    obtain ⟨es', rfl⟩ := hfs
    cases hs'
    rcases (M.guard C).run_cons_cases h with ⟨s₁, hs, -⟩ | ⟨x, hx, -⟩
    · exact (guard_step hs).1
    · exact (guard_step hx).1
  | cons e' fs ih =>
    obtain ⟨es', rfl⟩ := hfs
    rcases (M.guard C).run_cons_cases h with ⟨s₁, hs, hr⟩ | ⟨x, -, hnil, -⟩
    · rw [M.run_cons_ok (guard_step hs).2] at hs'
      exact ih hr (List.prefix_append _ es') hs'
    · simp at hnil

/-- A run all of whose steps meet `C` is a run of the guarded machine; any other run has a first
step that does not meet it. -/
theorem run_guard_or {s : S} {es : List E} {r : Except H S} (h : M.run s es = some r) :
    (M.guard C).run s es = some r ∨
      ∃ fs e s', fs ++ [e] <+: es ∧ (M.guard C).run s fs = some (.ok s') ∧ ¬C s' e := by
  induction es generalizing s with
  | nil => exact Or.inl h
  | cons e es ih =>
    by_cases hc : C s e
    · have hg : (M.guard C).step s e = M.step s e := if_pos hc
      rcases M.run_cons_cases h with ⟨s₁, hs, hr⟩ | ⟨x, hx, rfl, rfl⟩
      · rw [← hg] at hs
        rw [(M.guard C).run_cons_ok hs]
        rcases ih hr with hr' | ⟨fs, e', s', hfs, hr', hn⟩
        · exact Or.inl hr'
        · refine Or.inr ⟨e :: fs, e', s', List.cons_prefix_cons.mpr ⟨rfl, hfs⟩, ?_, hn⟩
          rw [(M.guard C).run_cons_ok hs]
          exact hr'
      · exact Or.inl (by simp only [run, hg, hx, List.isEmpty_nil, if_true])
    · exact Or.inr ⟨[], e, s, List.cons_prefix_cons.mpr ⟨rfl, List.nil_prefix⟩, rfl, hc⟩

/-- **The exactness rule.**  If the steps that meet `C` keep the invariant, and those that do not
end in a state without `P`, then `P` holds at all moments of a run if and only if all its steps meet
`C`. -/
theorem run_iff_guard {I P : S → Prop} (hP : ∀ s, I s → P s)
    (hgood : ∀ s e r, I s → C s e → M.step s e = some r → ∃ s', r = .ok s' ∧ I s')
    (hbad : ∀ s e r, I s → ¬C s e → M.step s e = some r → ¬∃ s', r = .ok s' ∧ P s')
    {s : S} {es : List E} {r : Except H S} (hs : I s) (h : M.run s es = some r) :
    (∀ fs r', fs <+: es → M.run s fs = some r' → ∃ s', r' = .ok s' ∧ P s') ↔
      ∀ fs e s', fs ++ [e] <+: es → M.run s fs = some (.ok s') → C s' e := by
  have hinv : ∀ {fs r'}, (M.guard C).run s fs = some r' → ∃ s', r' = .ok s' ∧ I s' := by
    intro fs r' hr
    refine run_safe (fun s e s' hi hstep => ?_) (fun s e x hi hstep => ?_) hs hr
    · obtain ⟨s₁, h₁, hi₁⟩ := hgood s e _ hi (guard_step hstep).1 (guard_step hstep).2
      cases h₁
      exact hi₁
    · obtain ⟨s₁, h₁, -⟩ := hgood s e _ hi (guard_step hstep).1 (guard_step hstep).2
      cases h₁
  constructor
  · intro hall fs e s' hfs hr
    rcases run_guard_or (C := C) h with hg | ⟨gs, e', s₁, hgs, hg, hn⟩
    · exact guard_segment hg hfs hr
    · exfalso
      obtain ⟨s₂, hs₂, hi⟩ := hinv hg
      cases hs₂
      obtain ⟨r', hr'⟩ := M.run_segment h hgs
      have hstep : M.run s₁ [e'] = some r' := by rw [← hr', M.run_append (run_of_guard hg)]
      refine hbad s₁ e' r' hi hn ?_ (hall _ _ hgs hr')
      rcases M.run_cons_cases hstep with ⟨s₂, hst, hnil⟩ | ⟨x, hst, -, rfl⟩
      · cases hnil
        exact hst
      · exact hst
  · intro hC fs r' hfs hr'
    rcases run_guard_or (C := C) hr' with hg | ⟨gs, e, s₁, hgs, hg, hn⟩
    · obtain ⟨s', rfl, hi⟩ := hinv hg
      exact ⟨s', rfl, hP s' hi⟩
    · exact absurd (hC gs e s₁ (hgs.trans hfs) (run_of_guard hg)) hn

/-- The exactness rule for the runs that do not stop. -/
theorem run_ok_iff_guard {I P : S → Prop} (hP : ∀ s, I s → P s)
    (hgood : ∀ s e s', I s → C s e → M.step s e = some (.ok s') → I s')
    (hbad : ∀ s e s', I s → ¬C s e → M.step s e = some (.ok s') → ¬P s')
    {s s₁ : S} {es : List E} (hs : I s) (h : M.run s es = some (.ok s₁)) :
    (∀ fs s', fs <+: es → M.run s fs = some (.ok s') → P s') ↔
      ∀ fs e s', fs ++ [e] <+: es → M.run s fs = some (.ok s') → C s' e := by
  constructor
  · intro hall fs e s' hfs hr
    rcases run_guard_or (C := C) h with hg | ⟨gs, e', s₂, hgs, hg, hn⟩
    · exact guard_segment hg hfs hr
    · exfalso
      have hi : I s₂ := run_guard_ok hgood hs hg
      obtain ⟨fs', rfl⟩ := hgs
      rw [List.append_assoc, M.run_append (run_of_guard hg), List.singleton_append] at h
      rcases M.run_cons_cases h with ⟨s₃, hst, -⟩ | ⟨x, -, -, hx⟩
      · refine hbad s₂ e' s₃ hi hn hst (hall (gs ++ [e']) s₃ (List.prefix_append _ _) ?_)
        rw [M.run_append (run_of_guard hg), M.run_cons_ok hst]
        rfl
      · cases hx
  · intro hC fs s' hfs hr'
    rcases run_guard_or (C := C) hr' with hg | ⟨gs, e, s₂, hgs, hg, hn⟩
    · exact hP s' (run_guard_ok hgood hs hg)
    · exact absurd (hC gs e s₂ (hgs.trans hfs) (run_of_guard hg)) hn

end Machine

end HcOs.Lib
