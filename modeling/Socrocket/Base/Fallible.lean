/- Socrocket/Base/Fallible
   digest: Computations that return or fail, and what a sequence of them returns or fails with. -/

import Mathlib.Logic.Basic

set_option autoImplicit false
set_option relaxedAutoImplicit false

namespace Socrocket.Base.Fallible

variable {ε α β : Type} {x : Except ε α} {f : α → Except ε β} {a : α} {b : β} {e : ε}

@[simp] theorem ok_bind (a : α) (f : α → Except ε β) : (Except.ok a >>= f) = f a := rfl

@[simp] theorem error_bind (e : ε) (f : α → Except ε β) : (Except.error e >>= f) = .error e := rfl

theorem bind_eq_ok : (x >>= f) = .ok b ↔ ∃ a, x = .ok a ∧ f a = .ok b := by
  cases x with
  | error e => exact iff_of_false nofun (by rintro ⟨a, returned, -⟩; cases returned)
  | ok a => exact ⟨fun h => ⟨a, rfl, h⟩, by rintro ⟨a', returned, h⟩; cases returned; exact h⟩

theorem bind_eq_error :
    (x >>= f) = .error e ↔ x = .error e ∨ ∃ a, x = .ok a ∧ f a = .error e := by
  cases x with
  | error e' =>
    constructor
    · intro h
      exact .inl (congrArg _ (Except.error.inj h))
    · rintro (failed | ⟨a, returned, -⟩)
      · cases failed
        rfl
      · cases returned
  | ok a =>
    refine ⟨fun h => .inr ⟨a, rfl, h⟩, ?_⟩
    rintro (failed | ⟨a', returned, h⟩)
    · cases failed
    · cases returned
      exact h

theorem map_eq_ok {g : α → β} : x.map g = .ok b ↔ ∃ a, x = .ok a ∧ g a = b := by
  cases x with
  | error e => exact iff_of_false nofun (by rintro ⟨a, returned, -⟩; cases returned)
  | ok a =>
    refine ⟨fun h => ⟨a, rfl, Except.ok.inj h⟩, ?_⟩
    rintro ⟨a', returned, rfl⟩
    cases returned
    rfl

theorem map_eq_error {g : α → β} : x.map g = .error e ↔ x = .error e := by
  cases x with
  | error e' =>
    exact ⟨fun h => congrArg _ (Except.error.inj h), fun h => congrArg _ (Except.error.inj h)⟩
  | ok a => exact iff_of_false nofun nofun

theorem toOption_eq_some : x.toOption = some a ↔ x = .ok a := by
  cases x with
  | error e => exact iff_of_false nofun nofun
  | ok b => exact ⟨fun h => congrArg _ (Option.some.inj h), fun h => congrArg _ (Except.ok.inj h)⟩

theorem eq_error_iff {A : Prop} {fault : ε} (ends : A ∧ x = .error fault ∨ ¬ A ∧ ∃ a, x = .ok a) :
    x = .error e ↔ A ∧ e = fault := by
  obtain ⟨fails, failed⟩ | ⟨returns, a, returned⟩ := ends
  · rw [failed, Except.error.injEq]
    exact ⟨fun same => ⟨fails, same.symm⟩, fun both => both.2.symm⟩
  · rw [returned]
    refine iff_of_false (fun same => ?_) fun both => returns both.1
    cases same

/-! ## What a computation returns and what it fails with -/

/-- The computation returns where `Q` holds or fails where `E` does. -/
def Meets (x : Except ε α) (Q : α → Prop) (E : ε → Prop) : Prop :=
  match x with
  | .ok a => Q a
  | .error e => E e

variable {Q : α → Prop} {R : β → Prop} {E : ε → Prop}

theorem Meets.bind (first : Meets x Q E) (next : ∀ a, Q a → Meets (f a) R E) :
    Meets (x >>= f) R E := by
  cases x with
  | error e => exact first
  | ok a => exact next a first

theorem Meets.map {g : α → β} (first : Meets x Q E) (next : ∀ a, Q a → R (g a)) :
    Meets (x.map g) R E := by
  cases x with
  | error e => exact first
  | ok a => exact next a first

theorem Meets.ite {c : Prop} [Decidable c] {y : Except ε α} (yes : c → Meets x Q E)
    (no : ¬ c → Meets y Q E) : Meets (if c then x else y) Q E := by
  by_cases h : c
  · rw [if_pos h]
    exact yes h
  · rw [if_neg h]
    exact no h

/-- A fold keeps what each of its steps keeps. -/
theorem Meets.foldlM {ι : Type} {step : α → ι → Except ε α} (is : List ι) (start : Q a)
    (keep : ∀ i ∈ is, ∀ a, Q a → Meets (step a i) Q E) : Meets (is.foldlM step a) Q E := by
  induction is generalizing a with
  | nil => exact start
  | cons i is ih =>
    rw [List.foldlM_cons]
    refine Meets.bind (keep i List.mem_cons_self a start) fun b kept => ih kept fun j later => ?_
    exact keep j (List.mem_cons_of_mem i later)

theorem Meets.of_ok (h : Meets x Q E) (returned : x = .ok a) : Q a := by
  rw [returned] at h
  exact h

theorem Meets.of_error (h : Meets x Q E) (failed : x = .error e) : E e := by
  rw [failed] at h
  exact h

end Socrocket.Base.Fallible
