/- Socrocket/Gptimer/Schedule
   digest: Closed forms of the values the sleep time of a running counter is computed from. -/

import Socrocket.Base.Countdown
import Socrocket.Gptimer.GPCounter

set_option autoImplicit false
set_option relaxedAutoImplicit false

namespace Socrocket.Gptimer

open Socrocket.Base.Countdown
open Socrocket.Base.Fallible
open Socrocket.Core.SrRegister

/-! ## What the sleep times depend on -/

/-- The part of the state the sleep times of one counter depend on. Only writes change it. -/
structure Setting where
  ntimers : ℕ
  lasttime : ℕ
  lastvalue : BitVec 32
  screload : BitVec 32
  base : ℕ
  count : BitVec 32
  reload : BitVec 32
  stopped : Bool
  en : Bool
  rs : Bool
  ch : Bool

def setting (p : GPTimer) (n : ℕ) : Setting where
  ntimers := p.ntimers
  lasttime := p.lasttime
  lastvalue := p.lastvalue
  screload := p.screload
  base := (p.counter n).lasttime
  count := (p.counter n).lastvalue
  reload := (p.counter n).reload
  stopped := (p.counter n).stopped
  en := p.ctrlBit n ctrlEN
  rs := p.ctrlBit n ctrlRS
  ch := p.ctrlBit n ctrlCH

namespace Setting

variable (σ : Setting)

/-- Enabled, restarting, not chained and not stopped. -/
structure Running : Prop where
  stopped : σ.stopped = false
  en : σ.en = true
  rs : σ.rs = true
  ch : σ.ch = false

/-- Cycles from one prescaler wrap to the next. -/
def cycle : ℤ := σ.screload.toNat + 1

/-- Underflows of the counter are this many cycles apart. -/
def period : ℕ := (σ.reload.toNat + 1) * (σ.screload.toNat + 1)

/-- The prescaler at a time, counted on below zero. -/
def prescaler (t : ℕ) (offset : ℕ) : ℤ :=
  σ.lastvalue.toNat - (t - σ.lasttime - (1 + offset) * 1 : ℤ) + 1

/-- Cycles at a time since the prescaler last wrapped. -/
def phase (t : ℕ) : ℤ := (t - σ.lasttime - σ.lastvalue.toNat - 2) % σ.cycle

/-- What the scaler register shows at a time. -/
def scalerAt (t : ℕ) : ℤ := if σ.phase t = 0 then σ.cycle else σ.cycle - 1 - σ.phase t

/-- What the value register shows at a time. -/
def countAt (n t : ℕ) : ℤ :=
  (σ.count.toNat - wraps σ.cycle (σ.prescaler σ.base 0) (σ.prescaler t (n + 2))) %
    (σ.reload.toNat + 1)

/-- The sleep time computed at a time. -/
def sleep (n t : ℕ) : ℕ :=
  (σ.scalerAt t).toNat + 2 + ((σ.screload.toNat + 1) * (σ.countAt n t).toNat + (n + 1))

/-- Every difference of times that is formed at `t` is a number of cycles, and the prescaler has
counted a written value down to its reload value. -/
structure Settled (n t : ℕ) : Prop where
  started : σ.lasttime < σ.base
  elapsed : σ.base + n + 3 ≤ t
  wrapped : σ.lasttime + σ.lastvalue.toNat < t + σ.screload.toNat

variable {σ} {n t : ℕ}

theorem Settled.later {u : ℕ} (h : σ.Settled n t) (le : t ≤ u) : σ.Settled n u :=
  ⟨h.started, h.elapsed.trans le, h.wrapped.trans_le (Nat.add_le_add_right le _)⟩

theorem cycle_pos : 0 < σ.cycle := by
  rw [cycle]
  omega

theorem phase_nonneg : 0 ≤ σ.phase t := Int.emod_nonneg _ cycle_pos.ne'

theorem phase_lt : σ.phase t < σ.cycle := Int.emod_lt_of_pos _ cycle_pos

theorem scalerAt_nonneg : 0 ≤ σ.scalerAt t := by
  have low := phase_nonneg (σ := σ) (t := t)
  have high := phase_lt (σ := σ) (t := t)
  rw [scalerAt]
  split <;> omega

theorem scalerAt_le : σ.scalerAt t ≤ σ.cycle := by
  have low := phase_nonneg (σ := σ) (t := t)
  rw [scalerAt]
  split <;> omega

theorem countAt_nonneg : 0 ≤ σ.countAt n t := Int.emod_nonneg _ (by omega)

theorem countAt_le : σ.countAt n t ≤ σ.reload.toNat := by
  have := Int.emod_lt_of_pos
    (σ.count.toNat - wraps σ.cycle (σ.prescaler σ.base 0) (σ.prescaler t (n + 2)))
    (show (0 : ℤ) < σ.reload.toNat + 1 by omega)
  rw [countAt]
  omega

end Setting

/-! ## The registers in terms of the setting -/

variable {p q : GPTimer} {n : ℕ}

theorem setting_modify {f : GPCounter → GPCounter}
    (h : { f (p.counter n) with
        eWait := (p.counter n).eWait, wakes := (p.counter n).wakes,
        underflows := (p.counter n).underflows } = p.counter n) :
    setting (p.modify n f) n = setting p n := by
  have reload := congrArg GPCounter.reload h
  have ctrl := congrArg GPCounter.ctrl h
  have base := congrArg GPCounter.lasttime h
  have count := congrArg GPCounter.lastvalue h
  have stopped := congrArg GPCounter.stopped h
  dsimp only at reload ctrl base count stopped
  simp only [setting, GPTimer.ctrlBit, GPTimer.modify_counter_self, reload, ctrl, base, count,
    stopped]
  rfl

theorem reloadOf_eq (h : p.screload.toNat + 1 < 2 ^ 32) : reloadOf p = (setting p n).cycle := by
  have sum : (p.screload + 1).toNat = p.screload.toNat + 1 := by
    rw [BitVec.toNat_add]
    exact Nat.mod_eq_of_lt h
  rw [reloadOf, sum]
  rfl

theorem divide_eq {a b : ℤ} (nonzero : b ≠ 0) : divide a b = .ok (a.tdiv b) := if_neg nonzero

theorem remainder_eq {a b : ℤ} (nonzero : b ≠ 0) : remainder a b = .ok (a.tmod b) := if_neg nonzero

theorem valueof_eq {t offset : ℕ} (h : p.lasttime + (1 + offset) ≤ t) :
    valueof p t offset 1 = .ok ((setting p n).prescaler t offset) := by
  rw [valueof, if_neg one_ne_zero, cyclesSince, if_pos (by omega), Nat.div_one]
  congr 1
  simp only [Setting.prescaler, setting]
  omega

theorem numberofticksbetween_eq {a b counter : ℕ} (fits : p.screload.toNat + 1 < 2 ^ 32)
    (ha : p.lasttime + 1 ≤ a) (hb : p.lasttime + (1 + counter) ≤ b) :
    numberofticksbetween p a b counter 1 =
      .ok (wraps (setting p n).cycle ((setting p n).prescaler a 0)
        ((setting p n).prescaler b counter)) := by
  have nonzero : (setting p n).cycle ≠ 0 := Setting.cycle_pos.ne'
  rw [numberofticksbetween, valueof_eq (n := n) ha, ok_bind, valueof_eq (n := n) hb, ok_bind,
    reloadOf_eq (n := n) fits, divide_eq nonzero, ok_bind, divide_eq nonzero, ok_bind]
  rfl

theorem tmod_add_eq_emod {a r : ℤ} (hr : 0 < r) :
    (if a.tmod r < 0 then r + a.tmod r else a.tmod r) = a % r := by
  have low := Int.emod_nonneg a hr.ne'
  have high := Int.emod_lt_of_pos a hr
  have rounded := Int.tmod_eq_emod (a := a) (b := r)
  by_cases roundsDown : 0 ≤ a ∨ r ∣ a
  · rw [if_pos roundsDown] at rounded
    rw [if_neg (by omega)]
    omega
  · rw [if_neg roundsDown] at rounded
    rw [if_pos (by omega)]
    omega

theorem valueRead_eq (running : (setting p n).Running) (fits : p.screload.toNat + 1 < 2 ^ 32)
    (started : p.lasttime < (p.counter n).lasttime) (elapsed : p.lasttime + n + 3 ≤ p.now) :
    valueRead p n = .ok (p.modify n fun c =>
      { c with value := BitVec.ofInt 32 ((setting p n).countAt n p.now) }) := by
  have notStopped : (p.counter n).stopped = false := running.stopped
  have unchained : p.ctrlBit n ctrlCH = false := running.ch
  have restart : p.ctrlBit n ctrlRS = true := running.rs
  have ticks : dticks p n = .ok (wraps (setting p n).cycle
      ((setting p n).prescaler (setting p n).base 0)
      ((setting p n).prescaler p.now (n + 2))) := by
    rw [dticks, if_neg (by simp [unchained])]
    exact numberofticksbetween_eq fits started (by omega)
  obtain ⟨v, value⟩ : ∃ v : ℤ, v = ((p.counter n).lastvalue.toNat -
      wraps (setting p n).cycle ((setting p n).prescaler (setting p n).base 0)
        ((setting p n).prescaler p.now (n + 2))).tmod ((p.counter n).reload.toNat + 1) := ⟨_, rfl⟩
  have reduced : (setting p n).countAt n p.now =
      if v < 0 then (p.counter n).reload.toNat + 1 + v else v := by
    rw [value]
    exact (tmod_add_eq_emod (by omega)).symm
  rw [valueRead, if_neg (by simp [notStopped]), ticks, ok_bind, remainder_eq (by omega), ok_bind]
  simp only [restart, not_true_eq_false, and_false, and_true, if_false, ← value]
  by_cases negative : v < 0
  · rw [reduced, if_pos negative, if_pos negative]
    rfl
  · rw [reduced, if_neg negative, if_neg negative]
    rfl

theorem scalerRead_eq (fits : p.screload.toNat + 1 < 2 ^ 32)
    (settled : (setting p n).Settled n p.now) :
    scalerRead p = .ok { p with scaler := BitVec.ofInt 32 ((setting p n).scalerAt p.now) } := by
  have started : p.lasttime < (p.counter n).lasttime := settled.started
  have elapsed : (p.counter n).lasttime + n + 3 ≤ p.now := settled.elapsed
  have wrapped : p.lasttime + p.lastvalue.toNat < p.now + p.screload.toNat := settled.wrapped
  have negative : (setting p n).prescaler p.now 0 - (setting p n).cycle ≤ 0 := by
    simp only [Setting.prescaler, Setting.cycle, setting]
    omega
  -- the remainder of a value that is not above zero is the phase with its sign changed
  have rest : ((setting p n).prescaler p.now 0 - (setting p n).cycle).tmod
      (setting p n).cycle = -(setting p n).phase p.now := by
    rw [← neg_neg (_ - (setting p n).cycle), Int.neg_tmod, Int.tmod_eq_emod_of_nonneg (by omega),
      Setting.phase, ← Int.add_emod_right (_ - 2)]
    congr 2
    simp only [Setting.prescaler]
    omega
  have phase := Setting.phase_nonneg (σ := setting p n) (t := p.now)
  rw [scalerRead, reloadOf_eq (n := n) fits, valueof_eq (n := n) (by omega), ok_bind,
    remainder_eq Setting.cycle_pos.ne', ok_bind, rest]
  by_cases zero : (setting p n).phase p.now = 0
  · rw [if_neg (by omega), Setting.scalerAt, if_pos zero, zero, neg_zero, sub_zero]
    rfl
  · rw [if_pos (by omega), Setting.scalerAt, if_neg zero]
    congr 3
    omega

theorem toNat_ofInt_of_lt {i : ℤ} (low : 0 ≤ i) (high : i < 2 ^ 32) :
    (BitVec.ofInt 32 i).toNat = i.toNat := by
  rw [BitVec.toNat_ofInt, Int.emod_eq_of_lt low (by simpa using high)]

theorem cycletime_eq (present : n < p.ntimers) (unchained : p.ctrlBit n ctrlCH = false) :
    cycletime p n = .ok (p.screload.toNat + 1) := by
  obtain ⟨calls, count⟩ := Nat.exists_eq_succ_of_ne_zero (Nat.ne_zero_of_lt present)
  rw [cycletime, count, cycletimeWithin, if_neg (by simp [unchained])]
  rfl

end Socrocket.Gptimer
