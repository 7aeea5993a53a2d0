/- Socrocket/Base/ByteLanes
   digest: The byte lanes of a machine word, their shifts, and a word put together from bytes. -/

import Mathlib.Data.BitVec

set_option autoImplicit false
set_option relaxedAutoImplicit false

namespace Socrocket.Base.ByteLanes

variable {w : ℕ}

/-- Lane `j` of a word, counted from its least significant byte. -/
def lane (x : BitVec w) (j : ℕ) : BitVec 8 := (x >>> (8 * j)).setWidth 8

/-- The word whose lowest lanes are the first `n` bytes. -/
def assemble (w : ℕ) (d : ℕ → BitVec 8) : ℕ → BitVec w
  | 0 => 0
  | n + 1 => assemble w d n ||| (d n).setWidth w <<< (8 * n)

@[simp] theorem getLsbD_lane (x : BitVec w) (j i : ℕ) :
    (lane x j).getLsbD i = (decide (i < 8) && x.getLsbD (8 * j + i)) := by
  rw [lane, BitVec.getLsbD_setWidth, BitVec.getLsbD_ushiftRight]

theorem lane_ushiftRight (x : BitVec w) (p j : ℕ) : lane (x >>> (8 * p)) j = lane x (p + j) := by
  rw [lane, lane, ← BitVec.shiftRight_add, ← Nat.mul_add]

theorem lane_shiftLeft (x : BitVec w) {p j : ℕ} (inside : 8 * (j + 1) ≤ w) :
    lane (x <<< (8 * p)) j = if j < p then 0 else lane x (j - p) := by
  refine BitVec.eq_of_getLsbD_eq fun i low => ?_
  rw [getLsbD_lane, BitVec.getLsbD_shiftLeft]
  have reached : 8 * j + i < w := by omega
  by_cases below : j < p
  · have short : 8 * j + i < 8 * p := by omega
    simp [below, short]
  · have far : ¬8 * j + i < 8 * p := by omega
    have place : 8 * j + i - 8 * p = 8 * (j - p) + i := by omega
    rw [if_neg below, getLsbD_lane, place]
    simp [far, reached, low]

theorem lane_or (x y : BitVec w) (j : ℕ) : lane (x ||| y) j = lane x j ||| lane y j := by
  rw [lane, BitVec.ushiftRight_or_distrib, BitVec.setWidth_or]
  rfl

theorem lane_of_le {x : BitVec w} {j : ℕ} (above : w ≤ 8 * j) : lane x j = 0 := by
  refine BitVec.eq_of_getLsbD_eq fun i low => ?_
  rw [getLsbD_lane, BitVec.getLsbD_of_ge x _ (by omega)]
  simp

theorem lane_setWidth (b : BitVec 8) {j : ℕ} (inside : 8 * (j + 1) ≤ w) :
    lane (b.setWidth w) j = if j = 0 then b else 0 := by
  refine BitVec.eq_of_getLsbD_eq fun i low => ?_
  rw [getLsbD_lane, BitVec.getLsbD_setWidth]
  by_cases first : j = 0
  · have reached : i < w := by omega
    simp [first, reached, low]
  · have beyond : b.getLsbD (8 * j + i) = false := BitVec.getLsbD_of_ge b _ (by omega)
    simp [first, beyond]

/-- The lanes of a word are the bytes it was put together from. -/
theorem lane_assemble (d : ℕ → BitVec 8) {n j : ℕ} (fits : 8 * n ≤ w) (inside : 8 * (j + 1) ≤ w) :
    lane (assemble w d n) j = if j < n then d j else 0 := by
  induction n with
  | zero =>
    refine BitVec.eq_of_getLsbD_eq fun i low => ?_
    simp [assemble]
  | succ n ih =>
    rw [assemble, lane_or, ih (by omega), lane_shiftLeft _ inside]
    rcases Nat.lt_trichotomy j n with below | rfl | above
    · have earlier : j < n + 1 := by omega
      simp [below, earlier]
    · have first : lane ((d j).setWidth w) 0 = d j := by
        rw [lane_setWidth (d j) (by omega), if_pos rfl]
      simp [first]
    · have later : ¬j < n := by omega
      have beyond : ¬j < n + 1 := by omega
      have empty : lane ((d n).setWidth w) (j - n) = 0 := by
        rw [lane_setWidth (d n) (by omega), if_neg (by omega)]
      simp [later, beyond, empty]

end Socrocket.Base.ByteLanes
