import Mathlib.Logic.Function.Basic
import Mathlib.Tactic.Common

/-!
# Who has which resource

A ledger of resources `F` and owners `O`, each of which has at most one resource.  A resource in
use has exactly one owner, or it is in flight: taken from the pool and not handed out yet, or taken
back and not returned to the pool yet.  Four moves: take from the pool, hand out, take back, return.
-/

namespace HcOs.Lib

variable {O F : Type}

/-- The resources in use are those in flight and those with an owner, and no resource has two
places. -/
structure Owns (used flight : F → Prop) (holds : O → Option F) : Prop where
  used_iff : ∀ f, used f ↔ flight f ∨ ∃ o, holds o = some f
  inj : ∀ {o o' f}, holds o = some f → holds o' = some f → o = o'
  flight_free : ∀ {o f}, flight f → holds o ≠ some f

variable {used flight used' flight' : F → Prop} {holds holds' : O → Option F} {f : F} {o : O}

namespace Owns

theorem congr (h : Owns used flight holds) (hu : ∀ f, used' f ↔ used f)
    (hf : ∀ f, flight' f ↔ flight f) (hh : ∀ o, holds' o = holds o) : Owns used' flight' holds' := by
  have hu' : used' = used := funext fun f => propext (hu f)
  have hf' : flight' = flight := funext fun f => propext (hf f)
  have hh' : holds' = holds := funext hh
  rw [hu', hf', hh']
  exact h

theorem not_held_of_not_used (h : Owns used flight holds) (hf : ¬used f) (o : O) :
    holds o ≠ some f := fun ho => hf ((h.used_iff f).mpr (Or.inr ⟨o, ho⟩))

theorem not_flight_of_not_used (h : Owns used flight holds) (hf : ¬used f) : ¬flight f :=
  fun hfl => hf ((h.used_iff f).mpr (Or.inl hfl))

/-- A resource is taken from the pool. -/
theorem alloc (h : Owns used flight holds) (hf : ¬used f) :
    Owns (fun g => g = f ∨ used g) (fun g => g = f ∨ flight g) holds where
  used_iff g := by rw [h.used_iff, or_assoc]
  inj := h.inj
  flight_free := by
    rintro o g (rfl | hg)
    · exact h.not_held_of_not_used hf o
    · exact h.flight_free hg

/-- A resource is returned to the pool. -/
theorem free (h : Owns used flight holds) (hf : flight f) :
    Owns (fun g => g ≠ f ∧ used g) (fun g => g ≠ f ∧ flight g) holds where
  used_iff g := by
    rw [h.used_iff]
    constructor
    · rintro ⟨hne, hg | hg⟩
      · exact Or.inl ⟨hne, hg⟩
      · exact Or.inr hg
    · rintro (⟨hne, hg⟩ | ⟨o, ho⟩)
      · exact ⟨hne, Or.inl hg⟩
      · refine ⟨?_, Or.inr ⟨o, ho⟩⟩
        rintro rfl
        exact h.flight_free hf ho
  inj := h.inj
  flight_free hg := h.flight_free hg.2

variable [DecidableEq O]

/-- A resource in flight is handed out. -/
theorem give (h : Owns used flight holds) (hf : flight f) (ho : holds o = none) :
    Owns used (fun g => g ≠ f ∧ flight g) (Function.update holds o (some f)) where
  used_iff g := by
    rw [h.used_iff]
    constructor
    · rintro (hg | ⟨o', ho'⟩)
      · by_cases hgf : g = f
        · exact Or.inr ⟨o, by rw [Function.update_self, hgf]⟩
        · exact Or.inl ⟨hgf, hg⟩
      · refine Or.inr ⟨o', ?_⟩
        have hne : o' ≠ o := by
          rintro rfl
          rw [ho] at ho'
          cases ho'
        rw [Function.update_of_ne hne, ho']
    · rintro (hg | ⟨o', ho'⟩)
      · exact Or.inl hg.2
      · by_cases hne : o' = o
        · rw [hne, Function.update_self, Option.some.injEq] at ho'
          exact Or.inl (ho' ▸ hf)
        · rw [Function.update_of_ne hne] at ho'
          exact Or.inr ⟨o', ho'⟩
  inj := by
    intro a a' g ha ha'
    by_cases hao : a = o
    · by_cases hao' : a' = o
      · rw [hao, hao']
      · rw [hao, Function.update_self, Option.some.injEq] at ha
        rw [Function.update_of_ne hao', ← ha] at ha'
        exact absurd ha' (h.flight_free hf)
    · rw [Function.update_of_ne hao] at ha
      by_cases hao' : a' = o
      · rw [hao', Function.update_self, Option.some.injEq] at ha'
        rw [← ha'] at ha
        exact absurd ha (h.flight_free hf)
      · rw [Function.update_of_ne hao'] at ha'
        exact h.inj ha ha'
  flight_free := by
    rintro a g ⟨hgf, hg⟩
    by_cases hao : a = o
    · rw [hao, Function.update_self, ne_eq, Option.some.injEq]
      exact fun h => hgf h.symm
    · rw [Function.update_of_ne hao]
      exact h.flight_free hg

/-- A resource is taken back from its owner. -/
theorem take (h : Owns used flight holds) (ho : holds o = some f) :
    Owns used (fun g => g = f ∨ flight g) (Function.update holds o none) where
  used_iff g := by
    rw [h.used_iff]
    constructor
    · rintro (hg | ⟨o', ho'⟩)
      · exact Or.inl (Or.inr hg)
      · by_cases hne : o' = o
        · rw [hne, ho, Option.some.injEq] at ho'
          exact Or.inl (Or.inl ho'.symm)
        · exact Or.inr ⟨o', by rw [Function.update_of_ne hne, ho']⟩
    · rintro ((rfl | hg) | ⟨o', ho'⟩)
      · exact Or.inr ⟨o, ho⟩
      · exact Or.inl hg
      · by_cases hne : o' = o
        · rw [hne, Function.update_self] at ho'
          cases ho'
        · rw [Function.update_of_ne hne] at ho'
          exact Or.inr ⟨o', ho'⟩
  inj := by
    intro a a' g ha ha'
    by_cases hao : a = o
    · rw [hao, Function.update_self] at ha
      cases ha
    · by_cases hao' : a' = o
      · rw [hao', Function.update_self] at ha'
        cases ha'
      · rw [Function.update_of_ne hao] at ha
        rw [Function.update_of_ne hao'] at ha'
        exact h.inj ha ha'
  flight_free := by
    rintro a g hg
    by_cases hao : a = o
    · rw [hao, Function.update_self]
      nofun
    · rw [Function.update_of_ne hao]
      rcases hg with rfl | hg
      · exact fun ha => hao (h.inj ha ho)
      · exact h.flight_free hg

end Owns

end HcOs.Lib
