/- Socrocket/Base/Limbs
   digest: Numbers of several words, the least word first, and the carries between the words. -/

import Mathlib.Data.BitVec
import Mathlib.Tactic.Ring

set_option autoImplicit false
set_option relaxedAutoImplicit false

namespace Socrocket.Base.Limbs

variable {w : ℕ}

/-- The number that a list of words stands for. -/
def value : List (BitVec w) → ℕ
  | [] => 0
  | x :: xs => x.toNat + 2 ^ w * value xs

theorem add_step {r a b R A B c d e n : ℕ} (first : r + 2 ^ w * d = a + b + c)
    (rest : R + 2 ^ (w * n) * e = A + B + d) :
    r + 2 ^ w * R + 2 ^ (w * (n + 1)) * e = a + 2 ^ w * A + (b + 2 ^ w * B) + c := by
  have power : 2 ^ (w * (n + 1)) = 2 ^ w * 2 ^ (w * n) := by
    rw [Nat.mul_succ, Nat.pow_add, Nat.mul_comm]
  calc r + 2 ^ w * R + 2 ^ (w * (n + 1)) * e
      = r + 2 ^ w * (R + 2 ^ (w * n) * e) := by
        rw [power]
        ring
    _ = r + 2 ^ w * d + 2 ^ w * (A + B) := by
        rw [rest]
        ring
    _ = a + 2 ^ w * A + (b + 2 ^ w * B) + c := by
        rw [first]
        ring

theorem sub_step {r a b R A B c d e n : ℕ} (first : r + b + c = a + 2 ^ w * d)
    (rest : R + B + d = A + 2 ^ (w * n) * e) :
    r + 2 ^ w * R + (b + 2 ^ w * B) + c = a + 2 ^ w * A + 2 ^ (w * (n + 1)) * e := by
  have power : 2 ^ (w * (n + 1)) = 2 ^ w * 2 ^ (w * n) := by
    rw [Nat.mul_succ, Nat.pow_add, Nat.mul_comm]
  calc r + 2 ^ w * R + (b + 2 ^ w * B) + c
      = r + b + c + 2 ^ w * (R + B) := by ring
    _ = a + 2 ^ w * (R + B + d) := by
        rw [first]
        ring
    _ = a + 2 ^ w * A + 2 ^ (w * (n + 1)) * e := by
        rw [rest, power]
        ring

end Socrocket.Base.Limbs
