/- Socrocket/Base/AddressMap
   digest: Areas of an address space in the order of their priority, and when decoding reaches the bytes
   behind them. -/

import Mathlib.Data.List.Basic

set_option autoImplicit false
set_option relaxedAutoImplicit false

namespace Socrocket.Base.AddressMap

/-- A range of addresses for a device. The device has `size` bytes from the base on, and the comparison
that decodes the range computes `stop`. -/
structure Area (ι : Type) where
  device : ι
  base : ℕ
  span : ℕ
  size : ℕ
  stop : ℕ

variable {ι : Type}

namespace Area

def Covers (x : Area ι) (a : ℕ) : Prop := x.base ≤ a ∧ a < x.base + x.span

/-- The device has a byte for the address. -/
def Holds (x : Area ι) (a : ℕ) : Prop := x.Covers a ∧ a - x.base < x.size

/-- What decodes the area stays below the end of the address space. -/
def Ends (top : ℕ) (x : Area ι) : Prop := x.stop < top

instance (x : Area ι) (a : ℕ) : Decidable (x.Covers a) := inferInstanceAs (Decidable (_ ∧ _))

instance (x : Area ι) (a : ℕ) : Decidable (x.Holds a) := inferInstanceAs (Decidable (_ ∧ _))

instance (top : ℕ) (x : Area ι) : Decidable (x.Ends top) := inferInstanceAs (Decidable (_ < _))

end Area

/-- The first area around the address. What does not end below `top` is passed over. -/
def decode (top : ℕ) (areas : List (Area ι)) (a : ℕ) : Option (Area ι) :=
  areas.find? fun x => x.Covers a ∧ x.Ends top

/-- The first area with a byte for the address. -/
def intended (areas : List (Area ι)) (a : ℕ) : Option (Area ι) := areas.find? fun x => x.Holds a

/-- Up to the first area with a byte for the address, which is not passed over, every area around the
address is. -/
def Clear (top a : ℕ) : List (Area ι) → Prop
  | [] => True
  | x :: rest => if x.Holds a then x.Ends top else (x.Covers a → ¬x.Ends top) ∧ Clear top a rest

instance decidableClear (top a : ℕ) : ∀ areas : List (Area ι), Decidable (Clear top a areas)
  | [] => isTrue trivial
  | x :: rest =>
    have _rest : Decidable (Clear top a rest) := decidableClear top a rest
    inferInstanceAs (Decidable (if x.Holds a then x.Ends top else _ ∧ _))

variable {top a : ℕ} {areas : List (Area ι)} {x : Area ι}

theorem decode_cons (rest : List (Area ι)) :
    decode top (x :: rest) a = if x.Covers a ∧ x.Ends top then some x else decode top rest a := by
  by_cases taken : x.Covers a ∧ x.Ends top
  · rw [if_pos taken]
    exact List.find?_cons_of_pos (decide_eq_true taken)
  · rw [if_neg taken]
    exact List.find?_cons_of_neg (by simpa using taken)

theorem intended_cons (rest : List (Area ι)) :
    intended (x :: rest) a = if x.Holds a then some x else intended rest a := by
  by_cases holds : x.Holds a
  · rw [if_pos holds]
    exact List.find?_cons_of_pos (decide_eq_true holds)
  · rw [if_neg holds]
    exact List.find?_cons_of_neg (by simpa using holds)

theorem decode_append (rest : List (Area ι)) :
    decode top (areas ++ rest) a = (decode top areas a).or (decode top rest a) :=
  List.find?_append

theorem decode_spec (found : decode top areas a = some x) :
    x ∈ areas ∧ x.Covers a ∧ x.Ends top := by
  have taken := List.find?_some found
  exact ⟨List.mem_of_find?_eq_some found, by simpa using taken⟩

theorem intended_spec (found : intended areas a = some x) : x ∈ areas ∧ x.Holds a := by
  have holds := List.find?_some found
  exact ⟨List.mem_of_find?_eq_some found, by simpa using holds⟩

theorem intended_isSome (member : x ∈ areas) (holds : x.Holds a) : (intended areas a).isSome :=
  List.find?_isSome.mpr ⟨x, member, decide_eq_true holds⟩

/-- Decoding reaches the intended area exactly when the areas are clear. -/
theorem decode_eq_intended_iff : decode top areas a = intended areas a ↔ Clear top a areas := by
  induction areas with
  | nil => exact iff_of_true rfl trivial
  | cons x rest ih =>
    rw [Clear, decode_cons, intended_cons]
    by_cases holds : x.Holds a
    · rw [if_pos holds, if_pos holds]
      constructor
      · intro found
        rw [← decode_cons] at found
        exact (decode_spec found).2.2
      · exact fun ends => if_pos ⟨holds.1, ends⟩
    · rw [if_neg holds, if_neg holds]
      by_cases taken : x.Covers a ∧ x.Ends top
      · rw [if_pos taken]
        refine iff_of_false (fun same => ?_) fun clear => clear.1 taken.1 taken.2
        exact holds (intended_spec same.symm).2
      · rw [if_neg taken, ih]
        exact (and_iff_right fun covers ends => taken ⟨covers, ends⟩).symm

end Socrocket.Base.AddressMap
