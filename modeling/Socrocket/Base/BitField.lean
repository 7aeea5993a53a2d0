/- Socrocket/Base/BitField
   digest: Shift arithmetic of machine words, fields placed in a word, runs of ones and the split of
   a word into three adjacent fields. -/

import Mathlib.Data.BitVec
import Mathlib.Tactic.Positivity
import Mathlib.Tactic.Ring

set_option autoImplicit false
set_option relaxedAutoImplicit false

namespace Socrocket.Base.BitField

variable {w : ℕ}

theorem toNat_shiftRight (a : BitVec w) (k : ℕ) : (a >>> k).toNat = a.toNat / 2 ^ k := by
  rw [BitVec.toNat_ushiftRight, Nat.shiftRight_eq_div_pow]

theorem getLsbD_lowMask (k i : ℕ) :
    (BitVec.ofNat w (2 ^ k - 1)).getLsbD i = (decide (i < w) && decide (i < k)) := by
  rw [BitVec.getLsbD_ofNat, Nat.testBit_two_pow_sub_one]

theorem toNat_and_lowMask (a : BitVec w) {k : ℕ} (h : k ≤ w) :
    (a &&& BitVec.ofNat w (2 ^ k - 1)).toNat = a.toNat % 2 ^ k := by
  have fits : 2 ^ k - 1 < 2 ^ w := by
    have := Nat.pow_le_pow_right (show 0 < 2 by decide) h
    have : 0 < 2 ^ k := by positivity
    omega
  rw [BitVec.toNat_and, BitVec.toNat_ofNat, Nat.mod_eq_of_lt fits, Nat.and_two_pow_sub_one_eq_mod]

theorem toNat_and_pageMask (a : BitVec w) {mask : BitVec w} {k n : ℕ} (order : k ≤ n)
    (pages : mask.toNat = 2 ^ n - 2 ^ k) :
    (a &&& mask).toNat = a.toNat % 2 ^ n / 2 ^ k * 2 ^ k := by
  have ones : 2 ^ n - 2 ^ k = 2 ^ k * (2 ^ (n - k) - 1) := by
    rw [Nat.mul_sub, ← Nat.pow_add, Nat.add_sub_cancel' order, Nat.mul_one]
  rw [BitVec.toNat_and, pages, ones]
  refine Nat.eq_of_testBit_eq fun i => ?_
  rw [Nat.testBit_and, Nat.testBit_two_pow_mul, Nat.testBit_two_pow_sub_one, Nat.mul_comm,
    Nat.testBit_two_pow_mul, Nat.testBit_div_two_pow, Nat.testBit_mod_two_pow]
  by_cases low : k ≤ i
  · have place : i - k + k = i := Nat.sub_add_cancel low
    have same : i - k < n - k ↔ i < n := by omega
    simp only [low, place, same, decide_true, Bool.true_and, Bool.and_comm]
  · simp [low]

/-- A masked comparison, as decoders write it. -/
theorem xor_and_eq_zero_iff (a b mask : BitVec w) :
    (a ^^^ b) &&& mask = 0 ↔ a &&& mask = b &&& mask := by
  have split : (a ^^^ b) &&& mask = (a &&& mask) ^^^ (b &&& mask) := by
    ext i inside
    simp [Bool.and_xor_distrib_right]
  rw [split]
  exact BitVec.xor_eq_zero_iff

theorem and_mask_field (a mask : BitVec w) (pos len : ℕ)
    (inside : (BitVec.allOnes len).setWidth w <<< pos &&& mask = mask) :
    a &&& mask = (a.extractLsb' pos len).setWidth w <<< pos &&& mask := by
  rw [← inside, ← BitVec.and_assoc, ← BitVec.and_assoc]
  congr 1
  ext i bound
  simp only [BitVec.getElem_and, BitVec.getElem_shiftLeft, BitVec.getElem_setWidth,
    BitVec.getLsbD_allOnes, BitVec.getLsbD_extractLsb']
  by_cases low : i < pos
  · simp [low]
  · by_cases high : i - pos < len
    · simp [low, high, Nat.add_sub_cancel' (Nat.le_of_not_lt low), BitVec.getLsbD_eq_getElem bound]
    · simp [low, high]

theorem toNat_shiftLeft_shiftRight (a : BitVec w) {s r : ℕ} (h : s + r = w) (o : ℕ) :
    ((a <<< s) >>> (s + o)).toNat = a.toNat % 2 ^ r / 2 ^ o := by
  have width : 2 ^ w = 2 ^ s * 2 ^ r := by rw [← Nat.pow_add, h]
  rw [toNat_shiftRight, BitVec.toNat_shiftLeft, Nat.shiftLeft_eq, width, Nat.mul_comm a.toNat,
    Nat.mul_mod_mul_left, Nat.pow_add, Nat.mul_div_mul_left _ _ (by positivity)]

theorem words_add_bytes (a : BitVec 32) : (a >>> 2).toNat * 4 + (a &&& 0x3).toNat = a.toNat := by
  have low : (a &&& 0x3).toNat = a.toNat % 4 := by
    rw [BitVec.toNat_and]
    exact Nat.and_two_pow_sub_one_eq_mod a.toNat 2
  rw [toNat_shiftRight, low]
  omega

theorem toNat_shiftLeft_of_lt {a : BitVec w} {s r : ℕ} (hs : r + s ≤ w) (ha : a.toNat < 2 ^ r) :
    (a <<< s).toNat = a.toNat * 2 ^ s := by
  rw [BitVec.toNat_shiftLeft, Nat.shiftLeft_eq, Nat.mod_eq_of_lt]
  calc a.toNat * 2 ^ s < 2 ^ r * 2 ^ s := by
        exact Nat.mul_lt_mul_of_pos_right ha (by positivity)
    _ = 2 ^ (r + s) := (Nat.pow_add 2 r s).symm
    _ ≤ 2 ^ w := Nat.pow_le_pow_right (by decide) hs

theorem toNat_or_of_aligned {a b : BitVec w} {s q : ℕ} (ha : a.toNat = q * 2 ^ s)
    (hb : b.toNat < 2 ^ s) : (a ||| b).toNat = a.toNat + b.toNat := by
  rw [BitVec.toNat_or, ha, Nat.mul_comm q, Nat.two_pow_add_eq_or_of_lt hb]

/-- Three adjacent fields of a word joined by shifts and disjunctions. -/
theorem toNat_join {h m l : BitVec w} {i o t : ℕ} (hw : t + (i + o) = w)
    (hh : h.toNat < 2 ^ t) (hm : m.toNat < 2 ^ i) (hl : l.toNat < 2 ^ o) :
    (h <<< (i + o) ||| m <<< o ||| l).toNat =
      h.toNat * 2 ^ (i + o) + m.toNat * 2 ^ o + l.toNat := by
  have high : (h <<< (i + o)).toNat = h.toNat * 2 ^ (i + o) :=
    toNat_shiftLeft_of_lt (by omega) hh
  have mid : (m <<< o).toNat = m.toNat * 2 ^ o := toNat_shiftLeft_of_lt (by omega) hm
  have midlt : (m <<< o).toNat < 2 ^ (i + o) := by
    rw [mid, Nat.pow_add]
    exact Nat.mul_lt_mul_of_pos_right hm (by positivity)
  have upper : (h <<< (i + o) ||| m <<< o).toNat = h.toNat * 2 ^ (i + o) + m.toNat * 2 ^ o := by
    rw [toNat_or_of_aligned high midlt, high, mid]
  have aligned : (h <<< (i + o) ||| m <<< o).toNat = (h.toNat * 2 ^ i + m.toNat) * 2 ^ o := by
    rw [upper, Nat.pow_add]
    ring
  rw [toNat_or_of_aligned aligned hl, upper]

theorem split_recompose (n i o : ℕ) :
    n / 2 ^ (i + o) * 2 ^ (i + o) + n % 2 ^ (i + o) / 2 ^ o * 2 ^ o + n % 2 ^ o = n := by
  have outer := Nat.div_add_mod n (2 ^ (i + o))
  have inner := Nat.div_add_mod (n % 2 ^ (i + o)) (2 ^ o)
  have low : n % 2 ^ (i + o) % 2 ^ o = n % 2 ^ o := by
    rw [Nat.pow_add, Nat.mul_comm, Nat.mod_mul_right_mod]
  rw [low] at inner
  rw [Nat.mul_comm] at outer inner
  omega

theorem join_div {h m l i o : ℕ} (hm : m < 2 ^ i) (hl : l < 2 ^ o) :
    (h * 2 ^ (i + o) + m * 2 ^ o + l) / 2 ^ (i + o) = h := by
  have low : m * 2 ^ o + l < 2 ^ (i + o) := by
    calc m * 2 ^ o + l < m * 2 ^ o + 2 ^ o := by omega
      _ = (m + 1) * 2 ^ o := by ring
      _ ≤ 2 ^ i * 2 ^ o := Nat.mul_le_mul_right _ hm
      _ = 2 ^ (i + o) := (Nat.pow_add 2 i o).symm
  rw [Nat.add_assoc, Nat.mul_comm, Nat.mul_add_div (by positivity), Nat.div_eq_of_lt low,
    Nat.add_zero]

theorem join_mod_div {h m l i o : ℕ} (hm : m < 2 ^ i) (hl : l < 2 ^ o) :
    (h * 2 ^ (i + o) + m * 2 ^ o + l) % 2 ^ (i + o) / 2 ^ o = m := by
  have low : m * 2 ^ o + l < 2 ^ (i + o) := by
    calc m * 2 ^ o + l < m * 2 ^ o + 2 ^ o := by omega
      _ = (m + 1) * 2 ^ o := by ring
      _ ≤ 2 ^ i * 2 ^ o := Nat.mul_le_mul_right _ hm
      _ = 2 ^ (i + o) := (Nat.pow_add 2 i o).symm
  rw [Nat.add_assoc, Nat.mul_comm h, Nat.mul_add_mod, Nat.mod_eq_of_lt low, Nat.mul_comm m,
    Nat.mul_add_div (by positivity), Nat.div_eq_of_lt hl, Nat.add_zero]

theorem join_mod {h m l i o : ℕ} (hl : l < 2 ^ o) :
    (h * 2 ^ (i + o) + m * 2 ^ o + l) % 2 ^ o = l := by
  have factor : h * 2 ^ (i + o) + m * 2 ^ o + l = 2 ^ o * (h * 2 ^ i + m) + l := by
    rw [Nat.pow_add]
    ring
  rw [factor, Nat.mul_add_mod, Nat.mod_eq_of_lt hl]

theorem and_one_ne_zero_iff (x : BitVec 32) : x &&& 0x1 ≠ 0 ↔ x.getLsbD 0 = true := by
  have lowest : x &&& 0x1 = BitVec.setWidth 32 (BitVec.ofBool (x.getLsbD 0)) :=
    BitVec.and_one_eq_setWidth_ofBool_getLsbD
  rw [lowest]
  cases x.getLsbD 0 <;> decide

section Placed

variable {n : ℕ}

/-- A small field placed in a word at a position. -/
def placed (x : BitVec n) (p : ℕ) : BitVec w := x.setWidth w <<< p

theorem getLsbD_placed (x : BitVec n) (p i : ℕ) : (placed x p : BitVec w).getLsbD i =
    (decide (p ≤ i) && decide (i < w) && x.getLsbD (i - p)) := by
  rw [placed, BitVec.getLsbD_shiftLeft, BitVec.getLsbD_setWidth]
  by_cases below : i < p
  · have : ¬ p ≤ i := by omega
    simp [below, this]
  · by_cases inside : i < w
    · have above : p ≤ i := by omega
      have : i - p < w := by omega
      simp [below, inside, above, this]
    · simp [inside]

theorem extract_placed {x : BitVec n} {p : ℕ} (fits : p + n ≤ w) :
    (placed x p : BitVec w).extractLsb' p n = x := by
  refine BitVec.eq_of_getLsbD_eq fun i hi => ?_
  have inside : p + i < w := by omega
  rw [BitVec.getLsbD_extractLsb', getLsbD_placed]
  simp [hi, inside]

theorem extract_placed_apart {x : BitVec n} {p q k : ℕ} (apart : p + n ≤ q ∨ q + k ≤ p) :
    (placed x p : BitVec w).extractLsb' q k = 0#k := by
  refine BitVec.eq_of_getLsbD_eq fun i hi => ?_
  rw [BitVec.getLsbD_extractLsb', getLsbD_placed, BitVec.getLsbD_zero]
  rcases apart with above | below
  · have outside : x.getLsbD (q + i - p) = false := BitVec.getLsbD_of_ge x _ (by omega)
    rw [outside, Bool.and_false, Bool.and_false]
  · have : ¬ p ≤ q + i := by omega
    simp [this]

end Placed

section Run

variable {x : BitVec w} {p n : ℕ}

/-- The word has ones in `n` positions from `p` on, and nowhere else. -/
def IsRun (x : BitVec w) (p n : ℕ) : Prop :=
  ∀ i < w, x.getLsbD i = decide (p ≤ i ∧ i < p + n)

theorem isRun_one_shiftLeft (p : ℕ) : IsRun ((1 : BitVec w) <<< p) p 1 := by
  intro i hi
  change ((1#w) <<< p).getLsbD i = _
  rw [BitVec.getLsbD_shiftLeft, BitVec.getLsbD_one, Bool.eq_iff_iff]
  simp only [Bool.and_eq_true, Bool.not_eq_true', decide_eq_true_eq, decide_eq_false_iff_not]
  omega

theorem IsRun.widen (run : IsRun x p n) (some_bit : 0 < n) : IsRun (x ||| x <<< 1) p (n + 1) := by
  intro i hi
  rw [BitVec.getLsbD_or, BitVec.getLsbD_shiftLeft, run i hi, Bool.eq_iff_iff]
  cases i with
  | zero =>
    simp only [Bool.or_eq_true, Bool.and_eq_true, Bool.not_eq_true', decide_eq_true_eq,
      decide_eq_false_iff_not]
    omega
  | succ i =>
    rw [Nat.add_sub_cancel, run i (by omega)]
    simp only [Bool.or_eq_true, Bool.and_eq_true, Bool.not_eq_true', decide_eq_true_eq,
      decide_eq_false_iff_not]
    omega

theorem IsRun.iterate_widen (run : IsRun x p n) (some_bit : 0 < n) (k : ℕ) :
    IsRun ((fun r : BitVec w => r ||| r <<< 1)^[k] x) p (n + k) := by
  induction k with
  | zero => exact run
  | succ k ih =>
    rw [Function.iterate_succ_apply']
    exact ih.widen (by omega)

end Run

end Socrocket.Base.BitField
