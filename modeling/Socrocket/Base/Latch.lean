/- Socrocket/Base/Latch
   digest: A flag that signals set and clear: it is set when one came that no clear followed. -/

import Mathlib.Data.List.Induction

set_option autoImplicit false
set_option relaxedAutoImplicit false

namespace Socrocket.Base.Latch

inductive Signal where
  | set
  | clear
  deriving DecidableEq

/-- One of the signals sets the flag and none after it clears it. -/
def SetSince (signals : List Signal) : Prop :=
  ∃ before after, signals = before ++ .set :: after ∧ .clear ∉ after

variable {signals later : List Signal}

theorem not_setSince_nil : ¬ SetSince [] := by
  rintro ⟨before, after, split, -⟩
  cases before <;> cases split

/-- The later signals decide, and where none of them clears, the earlier ones may have set it too. -/
theorem setSince_append :
    SetSince (signals ++ later) ↔ SetSince later ∨ .clear ∉ later ∧ SetSince signals := by
  constructor
  · rintro ⟨before, after, split, quiet⟩
    rcases List.append_eq_append_iff.mp split with ⟨between, rfl, rfl⟩ | ⟨between, rfl, cut⟩
    · exact .inl ⟨between, after, rfl, quiet⟩
    · cases between with
      | nil =>
        rw [List.nil_append] at cut
        exact .inl ⟨[], after, cut.symm, quiet⟩
      | cons signal between =>
        rw [List.cons_append, List.cons.injEq] at cut
        obtain ⟨rfl, rfl⟩ := cut
        rw [List.mem_append, not_or] at quiet
        exact .inr ⟨quiet.2, before, between, rfl, quiet.1⟩
  · rintro (⟨before, after, rfl, quiet⟩ | ⟨quiet, before, after, rfl, quiet'⟩)
    · exact ⟨signals ++ before, after, (List.append_assoc ..).symm, quiet⟩
    · refine ⟨before, after ++ later, by rw [List.append_assoc, List.cons_append], ?_⟩
      rw [List.mem_append, not_or]
      exact ⟨quiet', quiet⟩

@[simp] theorem setSince_append_set : SetSince (signals ++ [.set]) :=
  ⟨signals, [], rfl, List.not_mem_nil⟩

@[simp] theorem not_setSince_append_clear : ¬ SetSince (signals ++ [.clear]) := by
  rw [setSince_append]
  rintro (⟨before, after, split, -⟩ | ⟨cleared, -⟩)
  · cases before with
    | nil => cases split
    | cons signal before =>
      have empty := (List.cons.inj split).2
      cases before <;> cases empty
  · exact cleared (List.mem_singleton_self _)

theorem setSince_iff_getLast? : SetSince signals ↔ signals.getLast? = some .set := by
  induction signals using List.reverseRecOn with
  | nil => simp [not_setSince_nil]
  | append_singleton signals signal _ => cases signal <;> simp

instance : DecidablePred SetSince := fun _ => decidable_of_iff _ setSince_iff_getLast?.symm

example : SetSince [.clear, .set, .set] ∧ ¬ SetSince [.set, .clear] := by decide

end Socrocket.Base.Latch
