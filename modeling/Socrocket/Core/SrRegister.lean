/- Socrocket/Core/SrRegister
   digest: Bits of a 32 bit register and the write mask of a bus write. -/

import Mathlib.Data.BitVec

set_option autoImplicit false
set_option relaxedAutoImplicit false

namespace Socrocket.Core.SrRegister

/-- Read one bit. Positions outside the register read as clear. -/
def bitGet (r : BitVec 32) (pos : ℕ) : Bool := r.getLsbD pos

/-- Write one bit. -/
def bitSet (r : BitVec 32) (pos : ℕ) (value : Bool) : BitVec 32 :=
  (r &&& ~~~(1#32 <<< pos)) ||| (BitVec.ofBool value).setWidth 32 <<< pos

/-- A bus write changes the bits of the write mask and clears the others. -/
def busWrite (writeMask value : BitVec 32) : BitVec 32 := value &&& writeMask

theorem getLsbD_one_shiftLeft (pos i : ℕ) :
    (1#32 <<< pos).getLsbD i = (decide (i = pos) && decide (i < 32)) := by
  rw [BitVec.getLsbD_shiftLeft, BitVec.getLsbD_one]
  by_cases lt : i < pos
  · simp [lt, Nat.ne_of_lt lt]
  · by_cases eq : i = pos
    · subst i
      simp
    · have : i - pos ≠ 0 := by omega
      simp [eq, this]

theorem getLsbD_ofBool_shiftLeft (value : Bool) (pos i : ℕ) :
    ((BitVec.ofBool value).setWidth 32 <<< pos).getLsbD i =
      (decide (i = pos ∧ i < 32) && value) := by
  rw [BitVec.getLsbD_shiftLeft, BitVec.getLsbD_setWidth, BitVec.getLsbD_ofBool]
  by_cases lt : i < pos
  · simp [lt, Nat.ne_of_lt lt]
  · by_cases eq : i = pos
    · subst i
      simp
    · have : i - pos ≠ 0 := by omega
      simp [eq, this]

theorem bitGet_bitSet (r : BitVec 32) (pos : ℕ) (value : Bool) (i : ℕ) :
    bitGet (bitSet r pos value) i = if i = pos ∧ i < 32 then value else bitGet r i := by
  unfold bitGet bitSet
  rw [BitVec.getLsbD_or, BitVec.getLsbD_and, BitVec.getLsbD_not, getLsbD_one_shiftLeft,
    getLsbD_ofBool_shiftLeft]
  by_cases here : i = pos ∧ i < 32
  · obtain ⟨rfl, inside⟩ := here
    simp [inside]
  · by_cases inside : i < 32
    · have apart : i ≠ pos := fun eq => here ⟨eq, inside⟩
      simp [apart, inside]
    · have outside : r.getLsbD i = false := BitVec.getLsbD_of_ge r i (by omega)
      simp [inside, outside]

theorem bitGet_bitSet_ne {r : BitVec 32} {pos i : ℕ} {value : Bool} (h : i ≠ pos) :
    bitGet (bitSet r pos value) i = bitGet r i := by
  rw [bitGet_bitSet, if_neg fun here => h here.1]

theorem bitGet_and_not_shift (r : BitVec 32) (pos i : ℕ) :
    bitGet (r &&& ~~~(1#32 <<< pos)) i = (bitGet r i && !decide (i = pos)) := by
  unfold bitGet
  rw [BitVec.getLsbD_and, BitVec.getLsbD_not, getLsbD_one_shiftLeft]
  by_cases inside : i < 32
  · simp [inside]
  · have outside : r.getLsbD i = false := BitVec.getLsbD_of_ge r i (by omega)
    simp [outside]

@[simp] theorem bitGet_and (a b : BitVec 32) (i : ℕ) :
    bitGet (a &&& b) i = (bitGet a i && bitGet b i) := BitVec.getLsbD_and ..

@[simp] theorem bitGet_or (a b : BitVec 32) (i : ℕ) :
    bitGet (a ||| b) i = (bitGet a i || bitGet b i) := BitVec.getLsbD_or ..

theorem bitGet_not (a : BitVec 32) {i : ℕ} (h : i < 32) : bitGet (~~~a) i = !bitGet a i := by
  simp [bitGet, h]

theorem ne_zero_iff (r : BitVec 32) : r ≠ 0 ↔ ∃ i < 32, bitGet r i = true := by
  constructor
  · intro nonzero
    by_contra none_set
    push Not at none_set
    apply nonzero
    apply BitVec.eq_of_getLsbD_eq
    intro i hi
    have clear : r.getLsbD i ≠ true := none_set i hi
    simpa using clear
  · rintro ⟨i, -, set⟩ rfl
    simp [bitGet] at set

end Socrocket.Core.SrRegister
