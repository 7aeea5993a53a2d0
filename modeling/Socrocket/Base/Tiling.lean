/- Socrocket/Base/Tiling
   digest: Lists of byte ranges that cover the bytes of a buffer once each and no others. -/

import Mathlib.Data.List.Count
import Mathlib.Data.List.Range

set_option autoImplicit false
set_option relaxedAutoImplicit false

namespace Socrocket.Base.Tiling

/-- The bytes `[start, start + len)`. -/
structure Range where
  start : ℕ
  len : ℕ
deriving DecidableEq

def Range.Holds (r : Range) (j : ℕ) : Prop := r.start ≤ j ∧ j < r.start + r.len

instance (r : Range) (j : ℕ) : Decidable (r.Holds j) := inferInstanceAs (Decidable (_ ∧ _))

/-- Every byte below `n` lies in exactly one range of the list, and no range leaves these bytes. -/
structure Tiles (n : ℕ) (ranges : List Range) : Prop where
  once : ∀ j < n, ranges.countP (fun r => r.Holds j) = 1
  inside : ∀ r ∈ ranges, r.start + r.len ≤ n

/-- Ranges of one length, each at the end of the one before. -/
def strided (s c : ℕ) : List Range := (List.range c).map fun k => ⟨s * k, s⟩

variable {s c n : ℕ}

theorem strided_succ (s c : ℕ) : strided s (c + 1) = strided s c ++ [⟨s * c, s⟩] := by
  rw [strided, strided, List.range_succ, List.map_append, List.map_singleton]

theorem count_strided (j : ℕ) :
    (strided s c).countP (fun r => r.Holds j) = if j < s * c then 1 else 0 := by
  induction c with
  | zero => rfl
  | succ c ih =>
    have next : s * (c + 1) = s * c + s := Nat.mul_succ s c
    rw [strided_succ, List.countP_append, ih, List.countP_singleton]
    by_cases before : j < s * c
    · have apart : ¬(Range.mk (s * c) s).Holds j := fun holds => absurd before (Nat.not_lt.mpr holds.1)
      have reached : j < s * (c + 1) := by omega
      rw [if_pos before, if_pos reached]
      simp [apart]
    · by_cases last : j < s * c + s
      · have holds : (Range.mk (s * c) s).Holds j := ⟨Nat.not_lt.mp before, last⟩
        have reached : j < s * (c + 1) := by omega
        rw [if_neg before, if_pos reached]
        simp [holds]
      · have apart : ¬(Range.mk (s * c) s).Holds j := fun holds => last holds.2
        have beyond : ¬j < s * (c + 1) := by omega
        rw [if_neg before, if_neg beyond]
        simp [apart]

/-- Strides that reach the end tile the bytes exactly when they end there. -/
theorem tiles_strided_iff (reaches : n ≤ s * c) (short : s * c < n + s) :
    Tiles n (strided s c) ↔ s ∣ n := by
  constructor
  · intro tiles
    cases c with
    | zero =>
      rw [Nat.mul_zero, Nat.le_zero] at reaches
      exact reaches ▸ Nat.dvd_zero s
    | succ c =>
      have last : Range.mk (s * c) s ∈ strided s (c + 1) := by
        rw [strided_succ]
        exact List.mem_append_right _ (List.mem_singleton_self _)
      have inside : s * c + s ≤ n := tiles.inside _ last
      have same : n = s * (c + 1) := Nat.le_antisymm reaches inside
      exact same ▸ Nat.dvd_mul_right s (c + 1)
  · rintro ⟨k, rfl⟩
    have same : s * k = s * c := by
      have below : s * c < s * (k + 1) := by
        rw [Nat.mul_succ]
        exact short
      have order : c < k + 1 := Nat.lt_of_mul_lt_mul_left below
      exact Nat.le_antisymm reaches (Nat.mul_le_mul_left s (Nat.lt_succ_iff.mp order))
    rw [same]
    refine ⟨fun j below => ?_, fun r member => ?_⟩
    · rw [count_strided, if_pos below]
    · obtain ⟨i, low, rfl⟩ := List.mem_map.mp member
      have next := Nat.mul_le_mul_left s (Nat.succ_le_of_lt (List.mem_range.mp low))
      rw [Nat.mul_succ] at next
      exact next

theorem tiles_single (n : ℕ) : Tiles n [⟨0, n⟩] := by
  refine ⟨fun j below => ?_, fun r member => ?_⟩
  · have holds : (Range.mk 0 n).Holds j := ⟨Nat.zero_le j, (Nat.zero_add n).symm ▸ below⟩
    rw [List.countP_singleton, if_pos (decide_eq_true holds)]
  · rw [List.mem_singleton.mp member]
    exact (Nat.zero_add n).le

end Socrocket.Base.Tiling
