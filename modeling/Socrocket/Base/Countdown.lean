/- Socrocket/Base/Countdown
   digest: Counting the wraps of a free running down counter from two of its unwrapped values. -/

import Mathlib.Algebra.Order.Group.Unbundled.Abs
import Mathlib.Algebra.Order.Group.Unbundled.Int
import Mathlib.Tactic.Linarith

set_option autoImplicit false
set_option relaxedAutoImplicit false

namespace Socrocket.Base.Countdown

variable {r a b n : ℤ}

/-- The wraps counted from the value `a` down to the value `b` of a counter with period `r`.
Division truncates toward zero, so the passage through zero is counted on its own. -/
def wraps (r a b : ℤ) : ℤ := |a.tdiv r + (if 0 < a ∧ b < 0 then 1 else 0) - b.tdiv r|

private theorem tdiv_of_neg (h : a < 0) : a.tdiv r = -(-a / r) := by
  have positive : (-a).tdiv r = -a / r := Int.tdiv_eq_ediv_of_nonneg (by omega)
  rw [← positive, Int.neg_tdiv, neg_neg]

theorem wraps_of_neg (hr : 0 < r) (below : b ≤ a) (hb : b < 0) :
    wraps r a b = a.tdiv r + (if 0 < a then 1 else 0) + -b / r := by
  have order : -(-b / r) ≤ a.tdiv r := by
    by_cases ha : a < 0
    · have := Int.ediv_le_ediv hr (show -a ≤ -b by omega)
      rw [tdiv_of_neg ha]
      omega
    · have high := Int.ediv_nonneg (show 0 ≤ a by omega) hr.le
      have low := Int.ediv_nonneg (show 0 ≤ -b by omega) hr.le
      rw [Int.tdiv_eq_ediv_of_nonneg (by omega)]
      omega
  rw [wraps, tdiv_of_neg hb, abs_of_nonneg]
  · simp only [hb, and_true]
    omega
  · split <;> omega

theorem wraps_of_nonneg (hr : 0 < r) (below : b ≤ a) (hb : 0 ≤ b) : wraps r a b = a / r - b / r := by
  have order := Int.ediv_le_ediv hr below
  rw [wraps, if_neg (by omega), Int.tdiv_eq_ediv_of_nonneg (by omega),
    Int.tdiv_eq_ediv_of_nonneg hb, abs_of_nonneg (by omega)]
  omega

/-- Away from the multiples of the period above zero, `n` periods later `n` more wraps are counted. -/
theorem wraps_sub_mul (hr : 0 < r) (below : b ≤ a) (between : b < 0 ∨ ¬ r ∣ b) (hn : 0 ≤ n) :
    wraps r a (b - n * r) = wraps r a b + n := by
  have lower : 0 ≤ n * r := mul_nonneg hn hr.le
  by_cases hb : b < 0
  · have shifted : -(b - n * r) / r = -b / r + n := by
      rw [neg_sub, sub_eq_neg_add, Int.add_mul_ediv_right _ _ hr.ne']
    rw [wraps_of_neg hr below hb, wraps_of_neg hr (by omega) (by omega), shifted]
    omega
  · have nonneg : 0 ≤ b := by omega
    have inside : ¬ r ∣ b := between.resolve_left hb
    have apart : b ≠ 0 := fun zero => inside (zero ▸ dvd_zero r)
    rw [wraps_of_nonneg hr below nonneg]
    by_cases later : b - n * r < 0
    · have rest : 0 < b % r := by
        have low := Int.emod_nonneg b hr.ne'
        have nonzero : b % r ≠ 0 := fun zero => inside (Int.dvd_of_emod_eq_zero zero)
        omega
      have bound := Int.emod_lt_of_pos b hr
      have split := Int.mul_ediv_add_emod b r
      have ceiling : -(b - n * r) / r = n - 1 - b / r := by
        apply ((Int.ediv_emod_unique hr).mpr ⟨?_, show 0 ≤ r - b % r by omega, by omega⟩).1
        linarith [mul_sub r (n - 1) (b / r), mul_sub_one r n, mul_comm n r]
      rw [wraps_of_neg hr (by omega) later, if_pos (by omega), ceiling,
        Int.tdiv_eq_ediv_of_nonneg (by omega)]
      omega
    · have shifted : (b - n * r) / r = b / r - n := Int.sub_mul_ediv_right _ _ hr.ne'
      rw [wraps_of_nonneg hr (by omega) (by omega), shifted]
      omega

/-! ## A counted value -/

variable {last count period d : ℕ}

theorem tmod_sub_of_le (above : count ≤ last) :
    ((last : ℤ) - count).tmod period = ((last - count) % period : ℕ) := by
  rw [← Nat.cast_sub above]
  rfl

theorem tmod_sub_of_lt (below : last < count) :
    ((last : ℤ) - count).tmod period = -((count - last) % period : ℕ) := by
  rw [← neg_sub, Int.neg_tmod, tmod_sub_of_le below.le]

theorem sub_one_mod (pos : 0 < d) : (d - 1) % (period + 1) =
    if d % (period + 1) = 0 then period else d % (period + 1) - 1 := by
  have whole := Nat.div_add_mod d (period + 1)
  have rest : d % (period + 1) < period + 1 := Nat.mod_lt d (Nat.succ_pos period)
  split
  · rename_i none
    have some_period : d / (period + 1) ≠ 0 := by
      intro zero
      rw [zero, none] at whole
      omega
    obtain ⟨k, periods⟩ := Nat.exists_eq_succ_of_ne_zero some_period
    rw [periods, none, Nat.succ_eq_add_one, Nat.mul_add, Nat.mul_one] at whole
    have before : d - 1 = (period + 1) * k + period := by omega
    rw [before, Nat.mul_add_mod, Nat.mod_eq_of_lt (Nat.lt_succ_self period)]
  · have before : d - 1 = (period + 1) * (d / (period + 1)) + (d % (period + 1) - 1) := by omega
    rw [before, Nat.mul_add_mod, Nat.mod_eq_of_lt (by omega)]

/-! ## The counter itself, step by step -/

variable {load reload : ℕ}

/-- A counter loaded with `load`, after a number of steps: its value, and how often it went from zero
to its reload value. -/
def countdown (load reload : ℕ) : ℕ → ℕ × ℕ
  | 0 => (load, 0)
  | k + 1 =>
    match countdown load reload k with
    | (0, crossings) => (reload, crossings + 1)
    | (v + 1, crossings) => (v, crossings)

def crossings (load reload k : ℕ) : ℕ := (countdown load reload k).2

theorem countdown_of_le {k : ℕ} (above : k ≤ load) : countdown load reload k = (load - k, 0) := by
  induction k with
  | zero => rfl
  | succ k ih =>
    obtain ⟨v, rest⟩ : ∃ v, load - k = v + 1 := ⟨load - k - 1, by omega⟩
    rw [countdown, ih (Nat.le_of_succ_le above), rest, show load - (k + 1) = v by omega]

theorem countdown_add (k : ℕ) : countdown load reload (load + 1 + k) =
    (reload - k % (reload + 1), k / (reload + 1) + 1) := by
  induction k with
  | zero =>
    rw [Nat.add_zero, countdown, countdown_of_le le_rfl, Nat.sub_self]
    simp
  | succ k ih =>
    have rest : k % (reload + 1) < reload + 1 := Nat.mod_lt k (Nat.succ_pos reload)
    have before : k % (reload + 1) =
        if (k + 1) % (reload + 1) = 0 then reload else (k + 1) % (reload + 1) - 1 :=
      sub_one_mod (Nat.succ_pos k)
    have next : (k + 1) % (reload + 1) < reload + 1 := Nat.mod_lt _ (Nat.succ_pos reload)
    rw [← Nat.add_assoc, countdown, ih, Nat.succ_div]
    by_cases whole : (k + 1) % (reload + 1) = 0
    · rw [if_pos whole] at before
      rw [if_pos (Nat.dvd_of_mod_eq_zero whole), before, whole, Nat.sub_self]
      rfl
    · rw [if_neg whole] at before
      obtain ⟨v, left⟩ : ∃ v, reload - k % (reload + 1) = v + 1 :=
        ⟨reload - k % (reload + 1) - 1, by omega⟩
      rw [if_neg (mt Nat.mod_eq_zero_of_dvd whole), left, Nat.add_zero,
        show reload - (k + 1) % (reload + 1) = v by omega]

theorem crossings_of_le {k : ℕ} (above : k ≤ load) : crossings load reload k = 0 :=
  congrArg Prod.snd (countdown_of_le above)

theorem crossings_of_lt {k : ℕ} (below : load < k) :
    crossings load reload k = (k - load - 1) / (reload + 1) + 1 := by
  obtain ⟨d, rfl⟩ : ∃ d, k = load + 1 + d := ⟨k - load - 1, by omega⟩
  rw [crossings, countdown_add, show load + 1 + d - load - 1 = d by omega]

/-- Whole periods before the first crossing. -/
def ahead (load reload k : ℕ) : ℕ := (load + 1 - k) / (reload + 1)

/-- By how much `wraps` differs from the crossings between two moments. A moment before the other's
crossings counts them backwards, the first crossing is counted a step late, and whole periods above
it count too. -/
def miscounted (load reload a b : ℕ) : ℤ :=
  if load < a then
    if load < b then (crossings load reload a - crossings load reload b : ℕ)
    else (crossings load reload a : ℤ) - 1 + ahead load reload b
  else if b = load + 1 then (ahead load reload a : ℤ) - 1
  else if load < b then ahead load reload a
  else |(ahead load reload a : ℤ) - ahead load reload b|

/-- The quotient that `wraps` takes of a value counts the periods to the first crossing or the
crossings after it. -/
theorem tdiv_position (k : ℕ) : ((load : ℤ) + 1 - k).tdiv (reload + 1) =
    if load < k then (1 : ℤ) - crossings load reload k else ahead load reload k := by
  by_cases below : load < k
  · have value : (load : ℤ) + 1 - k = -(k - load - 1 : ℕ) := by omega
    have quotient : ((k - load - 1 : ℕ) : ℤ).tdiv (reload + 1) =
      ((k - load - 1) / (reload + 1) : ℕ) := rfl
    rw [if_pos below, crossings_of_lt below, value, Int.neg_tdiv, quotient]
    omega
  · have value : (load : ℤ) + 1 - k = (load + 1 - k : ℕ) := by omega
    rw [if_neg below, value]
    rfl

theorem wraps_eq_crossings (a b : ℕ) : wraps (reload + 1) ((load : ℤ) + 1 - a) ((load : ℤ) + 1 - b) =
    (crossings load reload b - crossings load reload a : ℕ) + miscounted load reload a b := by
  have first : ∀ {k}, load < k → 1 ≤ crossings load reload k := by
    intro k below
    rw [crossings_of_lt below]
    exact Nat.succ_pos _
  rw [wraps, tdiv_position, tdiv_position, miscounted]
  by_cases passed : load < a
  · have before := first passed
    rw [if_pos passed, if_pos passed, if_neg (by omega)]
    by_cases passed' : load < b
    · have after := first passed'
      rw [if_pos passed', if_pos passed', add_zero]
      rcases abs_cases ((1 : ℤ) - crossings load reload
        a - (1 - crossings load reload b)) with c | c <;>
        omega
    · rw [if_neg passed', if_neg passed', crossings_of_le (Nat.le_of_not_lt passed'), abs_of_nonpos]
      all_goals omega
  · have none : crossings load reload a = 0 := crossings_of_le (Nat.le_of_not_lt passed)
    rw [if_neg passed, if_neg passed, none, Nat.sub_zero]
    by_cases crossing : b = load + 1
    · have once : crossings load reload b = 1 := by
        rw [crossings_of_lt (by omega), crossing, Nat.add_sub_cancel_left, Nat.sub_self, Nat.zero_div]
      rw [if_pos crossing, if_neg (by omega), if_pos (by omega), once, abs_of_nonneg]
      all_goals omega
    · by_cases passed' : load < b
      · have after := first passed'
        rw [if_neg crossing, if_pos passed', if_pos passed', if_pos (by omega), abs_of_nonneg]
        all_goals omega
      · rw [if_neg crossing, if_neg passed', if_neg passed', if_neg (by omega),
          crossings_of_le (Nat.le_of_not_lt passed'), add_zero, Nat.cast_zero, zero_add]

example : (List.range 8).map (countdown 2 3) =
    [(2, 0), (1, 0), (0, 0), (3, 1), (2, 1), (1, 1), (0, 1), (3, 2)] := by decide

end Socrocket.Base.Countdown
