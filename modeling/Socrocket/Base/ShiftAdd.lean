/- Socrocket/Base/ShiftAdd
   digest: The multiplication that shifts its product down and adds the factor above it. -/

import Mathlib.Algebra.Ring.Int.Parity
import Mathlib.Logic.Function.Iterate
import Mathlib.Tactic.Ring

set_option autoImplicit false
set_option relaxedAutoImplicit false

namespace Socrocket.Base.ShiftAdd

/-- One step for factors of `n` bits: the bit that falls out tells if the factor is added. -/
def step (n : ℕ) (b z : ℤ) : ℤ := z / 2 + 2 ^ n * b * (z % 2)

variable {n : ℕ}

theorem iterate_step (b m : ℤ) {k : ℕ} (inside : k ≤ n) :
    (step n b)^[k] m = m / 2 ^ k + 2 ^ (n + 1 - k) * b * (m % 2 ^ k) := by
  induction k with
  | zero => simp
  | succ k ih =>
    have power : (2 : ℤ) ^ (n + 1 - k) = 2 * 2 ^ (n - k) := by
      rw [Nat.succ_sub (by omega), pow_succ, mul_comm]
    have top : (2 : ℤ) ^ (n - k) * 2 ^ k = 2 ^ n := by
      rw [← pow_add, Nat.sub_add_cancel (by omega)]
    have half : m / 2 ^ (k + 1) = m / 2 ^ k / 2 := by
      rw [pow_succ, ← Int.ediv_ediv_of_nonneg (Int.pow_nonneg (by decide))]
    have split : m % 2 ^ (k + 1) = m % 2 ^ k + 2 ^ k * (m / 2 ^ k % 2) := by
      rw [Int.emod_def, Int.emod_def, Int.emod_def (m / 2 ^ k), half]
      ring
    have even : 2 ^ (n + 1 - k) * b * (m % 2 ^ k) = 2 * (2 ^ (n - k) * b * (m % 2 ^ k)) := by
      rw [power]
      ring
    rw [Function.iterate_succ_apply', ih (by omega), step, even, Int.add_mul_ediv_left _ _ two_ne_zero,
      Int.add_mul_emod_self_left, half, split, Nat.add_sub_add_right, ← top]
    ring

/-- As many steps as the factor has bits, and one that adds nothing. -/
theorem product (b : ℤ) {m : ℤ} (low : 0 ≤ m) (high : m < 2 ^ n) :
    step n 0 ((step n b)^[n] m) = b * m := by
  have all : (step n b)^[n] m = 2 * (b * m) := by
    rw [iterate_step b m le_rfl, Int.ediv_eq_zero_of_lt low high, Int.emod_eq_of_lt low high,
      Nat.add_sub_cancel_left]
    ring
  rw [step, all, Int.mul_ediv_cancel_left _ two_ne_zero]
  ring

end Socrocket.Base.ShiftAdd
