/- Socrocket/Gptimer/Alignment
   digest: The underflows a counter schedules for itself, and when they stay one period apart. -/

import Mathlib.Tactic.Ring
import Socrocket.Gptimer.Schedule

set_option autoImplicit false
set_option relaxedAutoImplicit false

namespace Socrocket.Gptimer.Setting

open Socrocket.Base.Countdown

variable {σ : Setting} {n t : ℕ}

/-- The underflows the counter schedules, the first one at a given time. A cycle after each of them
the thread goes to sleep again. -/
def underflowAt (σ : Setting) (n first : ℕ) : ℕ → ℕ
  | 0 => first
  | k + 1 => σ.underflowAt n first k + 1 + σ.sleep n (σ.underflowAt n first k + 1)

/-- The phase of the prescaler and the count left at a recalculation from which the sleep time is a
whole period less one cycle. The corrections added to the sleep time make up for the phase in the
first case; in the others the prescaler is so short that a tick more or two pass in them. -/
def Aligned (σ : Setting) (n t : ℕ) : Prop :=
  n + 3 ≤ σ.screload.toNat ∧ σ.phase t = n + 3 ∧ σ.countAt n t = σ.reload.toNat ∨
  σ.screload.toNat = n + 3 ∧ σ.phase t = 0 ∧ σ.countAt n t + 1 = σ.reload.toNat ∨
  σ.screload.toNat = n + 1 ∧ σ.phase t = 1 ∧ σ.countAt n t + 1 = σ.reload.toNat ∨
  n = 0 ∧ σ.screload.toNat = 1 ∧ σ.phase t = 0 ∧ σ.countAt n t + 2 = σ.reload.toNat ∧
    σ.lasttime + σ.lastvalue.toNat + 4 < t

instance : Decidable (σ.Aligned n t) := inferInstanceAs (Decidable (_ ∨ _))

theorem sleep_eq : (σ.sleep n t : ℤ) =
    σ.scalerAt t + 2 + (σ.cycle * σ.countAt n t + (n + 1)) := by
  have scaler := Int.toNat_of_nonneg (scalerAt_nonneg (σ := σ) (t := t))
  have count := Int.toNat_of_nonneg (countAt_nonneg (σ := σ) (n := n) (t := t))
  rw [sleep]
  push_cast
  rw [scaler, count, cycle]

theorem period_eq : (σ.period : ℤ) = (σ.reload.toNat + 1) * σ.cycle := by
  rw [period, cycle]
  push_cast
  rfl

/-- The cycle after an underflow and the sleep that follows make a period in four cases. -/
theorem sleep_eq_period_iff (enough : n < σ.screload.toNat) :
    1 + σ.sleep n t = σ.period ↔
      n + 3 ≤ σ.screload.toNat ∧ σ.phase t = n + 3 ∧ σ.countAt n t = σ.reload.toNat ∨
      σ.screload.toNat = n + 3 ∧ σ.phase t = 0 ∧ σ.countAt n t + 1 = σ.reload.toNat ∨
      σ.screload.toNat = n + 1 ∧ σ.phase t = 1 ∧ σ.countAt n t + 1 = σ.reload.toNat ∨
      n = 0 ∧ σ.screload.toNat = 1 ∧ σ.phase t = 0 ∧ σ.countAt n t + 2 = σ.reload.toNat := by
  have low := phase_nonneg (σ := σ) (t := t)
  have high := phase_lt (σ := σ) (t := t)
  have most := countAt_le (σ := σ) (n := n) (t := t)
  have cycle_eq : σ.cycle = σ.screload.toNat + 1 := rfl
  -- the missing ticks of the count, each a whole prescaler cycle
  obtain ⟨missing, left⟩ : ∃ d : ℕ, σ.countAt n t + d = σ.reload.toNat :=
    ⟨(σ.reload.toNat - σ.countAt n t).toNat, by omega⟩
  have balance : 1 + σ.sleep n t = σ.period ↔ σ.scalerAt t + (n + 4) = (missing + 1) * σ.cycle := by
    have whole : ((1 + σ.sleep n t : ℕ) : ℤ) - σ.period =
        σ.scalerAt t + (n + 4) - (missing + 1) * σ.cycle := by
      push_cast
      rw [sleep_eq, period_eq, ← left]
      ring
    omega
  rw [balance, scalerAt]
  by_cases wrapped : σ.phase t = 0
  · rw [if_pos wrapped]
    have few : missing = 0 ∨ missing = 1 ∨ missing = 2 ∨ 3 ≤ missing := by omega
    rcases few with rfl | rfl | rfl | many
    · omega
    · omega
    · omega
    · have long : 4 * σ.cycle ≤ (missing + 1) * σ.cycle :=
        mul_le_mul_of_nonneg_right (by omega) cycle_pos.le
      omega
  · rw [if_neg wrapped]
    have few : missing = 0 ∨ missing = 1 ∨ 2 ≤ missing := by omega
    rcases few with rfl | rfl | many
    · omega
    · omega
    · have long : 3 * σ.cycle ≤ (missing + 1) * σ.cycle :=
        mul_le_mul_of_nonneg_right (by omega) cycle_pos.le
      omega

theorem sleep_of_aligned (enough : n < σ.screload.toNat) (aligned : σ.Aligned n t) :
    1 + σ.sleep n t = σ.period := by
  apply (sleep_eq_period_iff enough).mpr
  obtain case_ | case_ | case_ | ⟨first, short, wrapped, count, -⟩ := aligned
  · exact Or.inl case_
  · exact Or.inr (Or.inl case_)
  · exact Or.inr (Or.inr (Or.inl case_))
  · exact Or.inr (Or.inr (Or.inr ⟨first, short, wrapped, count⟩))

theorem prescaler_phase (t : ℕ) :
    ∃ k : ℤ, σ.prescaler t (n + 2) = n + 2 - σ.phase t - σ.cycle * k := by
  refine ⟨(t - σ.lasttime - σ.lastvalue.toNat - 2 : ℤ) / σ.cycle, ?_⟩
  have split := Int.emod_add_mul_ediv (t - σ.lasttime - σ.lastvalue.toNat - 2 : ℤ) σ.cycle
  rw [prescaler, phase]
  push_cast
  omega

theorem prescaler_add_period (t : ℕ) :
    σ.prescaler (t + σ.period) (n + 2) =
      σ.prescaler t (n + 2) - (σ.reload.toNat + 1) * σ.cycle := by
  rw [← period_eq, prescaler, prescaler]
  push_cast
  omega

theorem phase_add_period (t : ℕ) : σ.phase (t + σ.period) = σ.phase t := by
  rw [phase, phase, ← Int.add_mul_emod_self_right (t - σ.lasttime - σ.lastvalue.toNat - 2 : ℤ)
    (σ.reload.toNat + 1) σ.cycle, ← period_eq]
  congr 1
  push_cast
  omega

theorem countAt_add_period (settled : σ.Settled n t)
    (between : σ.prescaler t (n + 2) < 0 ∨ ¬ σ.cycle ∣ σ.prescaler t (n + 2)) :
    σ.countAt n (t + σ.period) = σ.countAt n t := by
  have below : σ.prescaler t (n + 2) ≤ σ.prescaler σ.base 0 := by
    have elapsed := settled.elapsed
    simp only [prescaler]
    push_cast
    omega
  rw [countAt, prescaler_add_period, wraps_sub_mul cycle_pos below between (by omega), countAt,
    ← sub_sub, Int.sub_emod_right]

theorem between_of_aligned (enough : n < σ.screload.toNat) (aligned : σ.Aligned n t) :
    σ.prescaler t (n + 2) < 0 ∨ ¬ σ.cycle ∣ σ.prescaler t (n + 2) := by
  have cycle_eq : σ.cycle = σ.screload.toNat + 1 := rfl
  obtain ⟨k, reading⟩ := prescaler_phase (σ := σ) (n := n) t
  have divides : σ.cycle ∣ σ.prescaler t (n + 2) → σ.cycle ∣ n + 2 - σ.phase t := by
    intro divides
    rw [reading] at divides
    exact (Int.dvd_iff_dvd_of_dvd_sub ⟨-k, by ring⟩).mp divides
  obtain ⟨long, wrapped, -⟩ | ⟨long, wrapped, -⟩ | ⟨long, wrapped, -⟩ | ⟨rfl, -, -, -, later⟩ := aligned
  · refine Or.inr fun wrap => ?_
    have := Int.le_of_dvd (show (0 : ℤ) < 1 by decide) (Int.dvd_neg.mp
      (show σ.cycle ∣ -1 by have := divides wrap; rw [wrapped] at this; convert this using 1; ring))
    omega
  · refine Or.inr fun wrap => ?_
    have := Int.le_of_dvd (by omega) (divides wrap)
    omega
  · refine Or.inr fun wrap => ?_
    have := Int.le_of_dvd (by omega) (divides wrap)
    omega
  · left
    rw [prescaler]
    push_cast
    omega

theorem aligned_add_period (enough : n < σ.screload.toNat) (settled : σ.Settled n t)
    (aligned : σ.Aligned n t) : σ.Aligned n (t + σ.period) := by
  have same := countAt_add_period settled (between_of_aligned enough aligned)
  rw [Aligned, phase_add_period, same]
  obtain case_ | case_ | case_ | ⟨first, short, wrapped, count, later⟩ := aligned
  · exact Or.inl case_
  · exact Or.inr (Or.inl case_)
  · exact Or.inr (Or.inr (Or.inl case_))
  · exact Or.inr (Or.inr (Or.inr ⟨first, short, wrapped, count, by omega⟩))

/-- From an aligned recalculation on, all underflows are one period apart. -/
theorem underflowAt_of_aligned {first : ℕ} (enough : n < σ.screload.toNat)
    (settled : σ.Settled n (first + 1)) (aligned : σ.Aligned n (first + 1)) (k : ℕ) :
    σ.underflowAt n first k = first + k * σ.period ∧
      σ.Aligned n (first + k * σ.period + 1) := by
  induction k with
  | zero => simpa [underflowAt] using aligned
  | succ k ih =>
    have next : first + (k + 1) * σ.period + 1 = first + k * σ.period + 1 + σ.period := by ring
    have asleep := sleep_of_aligned enough ih.2
    rw [underflowAt, ih.1, next]
    refine ⟨by rw [Nat.add_assoc (first + k * σ.period), asleep]; ring, ?_⟩
    exact aligned_add_period enough (settled.later (by omega)) ih.2

private theorem extra_tick {t : ℕ} (settled : σ.Settled 0 t) (short : σ.screload.toNat = 1)
    (wrapped : σ.phase t = 0) (early : t ≤ σ.lasttime + σ.lastvalue.toNat + 4)
    (count : 2 ≤ σ.reload.toNat) : σ.countAt 0 (t + σ.period) ≠ σ.countAt 0 t := by
  have cycle_eq : σ.cycle = 2 := by
    rw [cycle, short]
    rfl
  obtain ⟨k, reading⟩ := prescaler_phase (σ := σ) (n := 0) t
  rw [wrapped, cycle_eq] at reading
  have elapsed := settled.elapsed
  have below : σ.prescaler t (0 + 2) < σ.prescaler σ.base 0 := by
    simp only [prescaler]
    push_cast
    omega
  have bounds : 0 ≤ σ.prescaler t (0 + 2) ∧ σ.prescaler t (0 + 2) ≤ 4 := by
    have := settled.wrapped
    rw [prescaler]
    push_cast
    omega
  intro same
  rw [countAt, countAt, prescaler_add_period, cycle_eq] at same
  have wraps_before := wraps_of_nonneg (r := 2) (by decide) below.le bounds.1
  have wraps_after := wraps_of_neg (r := 2) (a := σ.prescaler σ.base 0)
    (b := σ.prescaler t (0 + 2) - (σ.reload.toNat + 1) * 2) (by decide) (by omega) (by omega)
  rw [if_pos (by omega), Int.tdiv_eq_ediv_of_nonneg (by omega)] at wraps_after
  have more : wraps 2 (σ.prescaler σ.base 0) (σ.prescaler t (0 + 2) - (σ.reload.toNat + 1) * 2) =
      wraps 2 (σ.prescaler σ.base 0) (σ.prescaler t (0 + 2)) + (σ.reload.toNat + 1) + 1 := by
    rw [wraps_before, wraps_after]
    omega
  rw [more, Int.emod_eq_emod_iff_emod_sub_eq_zero] at same
  have divides : (σ.reload.toNat : ℤ) + 1 ∣ 1 := by
    have sum := Int.dvd_neg.mpr (Int.dvd_of_emod_eq_zero same)
    have apart := Int.dvd_sub sum (Int.dvd_refl ((σ.reload.toNat : ℤ) + 1))
    convert apart using 1
    ring
  have := Int.le_of_dvd one_pos divides
  omega

/-- Two underflows in a row at a distance of one period come from an aligned recalculation only. -/
theorem aligned_of_underflowAt {first : ℕ} (enough : n < σ.screload.toNat)
    (settled : σ.Settled n (first + 1))
    (one : σ.underflowAt n first 1 = first + σ.period)
    (two : σ.underflowAt n first 2 = first + 2 * σ.period) : σ.Aligned n (first + 1) := by
  have asleep : 1 + σ.sleep n (first + 1) = σ.period := by
    rw [underflowAt, underflowAt] at one
    omega
  have again : 1 + σ.sleep n (first + 1 + σ.period) = σ.period := by
    rw [underflowAt, one, Nat.add_right_comm first] at two
    omega
  obtain case_ | case_ | case_ | ⟨rfl, short, wrapped, count⟩ :=
    (sleep_eq_period_iff enough).mp asleep
  · exact Or.inl case_
  · exact Or.inr (Or.inl case_)
  · exact Or.inr (Or.inr (Or.inl case_))
  · refine Or.inr (Or.inr (Or.inr ⟨rfl, short, wrapped, count, ?_⟩))
    by_contra early
    have low := countAt_nonneg (σ := σ) (n := 0) (t := first + 1)
    apply extra_tick settled short wrapped (by omega) (by omega)
    have later := (sleep_eq_period_iff enough).mp again
    rw [phase_add_period] at later
    omega

end Socrocket.Gptimer.Setting
