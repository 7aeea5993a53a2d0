/- Socrocket/Gptimer/Frame
   digest: What reads and the threads of the counters keep, for relations closed under their changes. -/

import Socrocket.Gptimer.GPCounter

set_option autoImplicit false
set_option relaxedAutoImplicit false

namespace Socrocket.Gptimer

open Socrocket.Base.Fallible
open Socrocket.Core.SrRegister

/-- A preorder on states that allows all that a read changes: a shown value and the outputs. -/
structure ReadFrame (R : GPTimer → GPTimer → Prop) : Prop where
  refl : ∀ p, R p p
  trans : ∀ {p q u}, R p q → R q u → R p u
  scaler : ∀ p v, R p { p with scaler := v }
  value : ∀ (p : GPTimer) m v, R p (p.modify m fun c => { c with value := v })
  outputs : ∀ p irq wdog, R p { p with irq := irq, wdog := wdog }

/-- One that also allows every change of counter `m` but one of its reload value or of its pending
interrupt. -/
structure CounterFrame (m : ℕ) (R : GPTimer → GPTimer → Prop) : Prop extends ReadFrame R where
  counter : ∀ (p : GPTimer) (f : GPCounter → GPCounter), (∀ c, (f c).reload = c.reload) →
    (∀ c, (f c).pirq = c.pirq) → R p (p.modify m f)

/-- One that also allows a change of the pending interrupt of counter `m`. -/
structure ThreadFrame (m : ℕ) (R : GPTimer → GPTimer → Prop) : Prop extends CounterFrame m R where
  pending : ∀ (p : GPTimer) line level,
    R p (p.modify m fun c => { c with irqnr := line, pirq := level })

variable {R : GPTimer → GPTimer → Prop} {p q : GPTimer} {m : ℕ}

/-! ## Reads -/

namespace ReadFrame

theorem scalerRead (frame : ReadFrame R) (h : scalerRead p = .ok q) : R p q := by
  obtain ⟨valueNow, -, h⟩ := bind_eq_ok.mp h
  obtain ⟨value, -, h⟩ := bind_eq_ok.mp h
  split at h
  all_goals
    cases h
    exact frame.scaler p _

theorem valueRead (frame : ReadFrame R) (h : valueRead p m = .ok q) : R p q := by
  rw [Socrocket.Gptimer.valueRead] at h
  split at h
  · cases h
    exact frame.refl p
  · obtain ⟨ticks, -, h⟩ := bind_eq_ok.mp h
    obtain ⟨value, -, h⟩ := bind_eq_ok.mp h
    split_ifs at h
    all_goals
      cases h
      exact frame.value p m _

theorem nextzero (frame : ReadFrame R) {t : ℕ} (h : nextzero p m = .ok (q, t)) : R p q := by
  rw [Socrocket.Gptimer.nextzero] at h
  split at h
  · obtain ⟨before, -, h⟩ := bind_eq_ok.mp h
    obtain ⟨read, reads, h⟩ := bind_eq_ok.mp h
    obtain ⟨cycle, -, h⟩ := bind_eq_ok.mp h
    obtain ⟨value, -, h⟩ := bind_eq_ok.mp h
    cases h
    exact frame.valueRead reads
  · obtain ⟨read, before, h⟩ := bind_eq_ok.mp h
    cases h
    exact frame.scalerRead before

theorem raiseIrq (frame : ReadFrame R) (pending : ∀ (p : GPTimer) line,
      R p (p.modify m fun c => { c with irqnr := line, pirq := true }))
    (h : raiseIrq p m = .ok q) : R p q := by
  rw [Socrocket.Gptimer.raiseIrq] at h
  split at h
  · obtain ⟨read, before, rfl⟩ := map_eq_ok.mp h
    have sent := frame.outputs read (1#32 <<< irqLine read.conf m, true) read.wdog
    exact frame.trans (frame.valueRead before) (frame.trans sent (pending _ _))
  · cases h
    exact frame.refl p

theorem driveWdog (frame : ReadFrame R) (p : GPTimer) (m : ℕ) (level : Bool) :
    R p (driveWdog p m level) := by
  rw [Socrocket.Gptimer.driveWdog]
  split
  · exact frame.outputs p p.irq level
  · exact frame.refl p

theorem lowerIrq (frame : ReadFrame R) (p : GPTimer) (m : ℕ) : R p (lowerIrq p m) := by
  rw [Socrocket.Gptimer.lowerIrq]
  split
  · exact frame.outputs p _ p.wdog
  · exact frame.refl p

end ReadFrame

/-! ## The functions of a counter -/

namespace CounterFrame

theorem setCtrlBit (frame : CounterFrame m R) (p : GPTimer) (bit : ℕ) (value : Bool) :
    R p (p.setCtrlBit m bit value) := frame.counter p _ (fun _ => rfl) fun _ => rfl

theorem calculate (frame : CounterFrame m R) (h : calculate p m = .ok q) : R p q := by
  obtain ⟨read, before, h⟩ := bind_eq_ok.mp h
  have cleared : R p (p.modify m fun c => { c with eWait := none }) :=
    frame.counter p _ (fun _ => rfl) fun _ => rfl
  have kept : R p read := frame.trans cleared (frame.valueRead before)
  dsimp only at h
  split at h
  · obtain ⟨⟨u, wait⟩, next, h⟩ := bind_eq_ok.mp h
    obtain ⟨cycle, -, h⟩ := bind_eq_ok.mp h
    cases h
    refine frame.trans kept (frame.trans (frame.nextzero next) (frame.counter u _ ?_ ?_))
    all_goals exact fun _ => rfl
  · cases h
    exact kept

theorem recalculate (frame : ∀ m, CounterFrame m R) {counters : List ℕ}
    (h : counters.foldlM Socrocket.Gptimer.calculate p = .ok q) : R p q := by
  induction counters generalizing p with
  | nil =>
    cases h
    exact (frame 0).refl _
  | cons m counters ih =>
    rw [List.foldlM_cons] at h
    obtain ⟨u, next, rest⟩ := bind_eq_ok.mp h
    exact (frame m).trans ((frame m).calculate next) (ih rest)

theorem start (frame : CounterFrame m R) (h : start p m = .ok q) : R p q := by
  rw [Socrocket.Gptimer.start] at h
  split at h
  · obtain ⟨calculated, next, rfl⟩ := map_eq_ok.mp h
    have begun : R p (p.modify m fun c => { c with lasttime := p.now }) :=
      frame.counter p _ (fun _ => rfl) fun _ => rfl
    refine frame.trans (frame.trans begun (frame.calculate next)) (frame.counter calculated _ ?_ ?_)
    all_goals exact fun _ => rfl
  · cases h
    exact frame.refl p

theorem stop (frame : CounterFrame m R) (h : stop p m = .ok q) : R p q := by
  rw [Socrocket.Gptimer.stop] at h
  split at h
  · cases h
    exact frame.refl p
  · obtain ⟨read, before, rfl⟩ := map_eq_ok.mp h
    have cleared : R p (p.modify m fun c => { c with eWait := none }) :=
      frame.counter p _ (fun _ => rfl) fun _ => rfl
    refine frame.trans (frame.trans cleared (frame.valueRead before)) (frame.counter read _ ?_ ?_)
    all_goals exact fun _ => rfl

theorem chaining (frame : CounterFrame m R) (h : chaining p m = .ok q) : R p q := by
  have marked : R p (p.modify m fun c => { c with chainRun := true }) :=
    frame.counter p _ (fun _ => rfl) fun _ => rfl
  exact frame.trans marked (frame.start h)

theorem valueWrite (frame : CounterFrame m R) (h : valueWrite p m = .ok q) : R p q := by
  have marked : R p (p.modify m fun c => { c with lastvalue := c.value, lasttime := p.now }) :=
    frame.counter p _ (fun _ => rfl) fun _ => rfl
  rw [Socrocket.Gptimer.valueWrite] at h
  split at h
  · cases h
    exact marked
  · exact frame.trans marked (frame.calculate h)

theorem ctrlWriteChain (frame : CounterFrame m R) (h : ctrlWriteChain p m = .ok q) : R p q := by
  rw [Socrocket.Gptimer.ctrlWriteChain] at h
  split at h
  · have unlinked : R p (p.modify m fun c => { c with chainRun := false }) :=
      frame.counter p _ (fun _ => rfl) fun _ => rfl
    exact frame.trans unlinked (frame.stop h)
  · cases h
    exact frame.refl p

theorem ctrlWriteLoad (frame : CounterFrame m R) (h : ctrlWriteLoad p m = .ok q) : R p q := by
  rw [Socrocket.Gptimer.ctrlWriteLoad] at h
  split at h
  · obtain ⟨written, next, rfl⟩ := map_eq_ok.mp h
    have loading : R p (p.modify m fun c => { c with value := c.reload }) :=
      frame.counter p _ (fun _ => rfl) fun _ => rfl
    exact frame.trans (frame.trans loading (frame.valueWrite next)) (frame.setCtrlBit written ..)
  · cases h
    exact frame.refl p

theorem ctrlWriteEnable (frame : CounterFrame m R) (h : ctrlWriteEnable p m = .ok q) : R p q := by
  rw [Socrocket.Gptimer.ctrlWriteEnable] at h
  split_ifs at h
  · exact frame.start h
  · exact frame.stop h
  · cases h
    exact frame.refl p

/-- The thread restarts, given what it does to the next counter. -/
theorem tickingRestart (frame : CounterFrame m R)
    (chains : ∀ {u v}, chainNext u m = .ok v → R p u → R u v)
    (h : tickingRestart p m = .ok q) : R p q := by
  obtain ⟨chained, next, h⟩ := bind_eq_ok.mp h
  obtain ⟨restarted, stops, h⟩ := bind_eq_ok.mp h
  have lowered : R p (Socrocket.Gptimer.driveWdog (Socrocket.Gptimer.lowerIrq p m) m false) :=
    frame.trans (frame.lowerIrq p m) (frame.driveWdog _ m false)
  have afterChain : R p chained := frame.trans lowered (chains next lowered)
  have afterStop : R chained restarted := by
    split at stops
    · cases stops
      exact frame.setCtrlBit chained ..
    · exact frame.trans (frame.setCtrlBit chained ..) (frame.stop stops)
  have awake : R restarted (restarted.modify m fun c => { c with wakes := none }) :=
    frame.counter restarted _ (fun _ => rfl) fun _ => rfl
  exact frame.trans (frame.trans afterChain afterStop) (frame.trans awake (frame.calculate h))

end CounterFrame

/-! ## What sets or clears the pending interrupt -/

namespace ThreadFrame

theorem ctrlWrite (frame : ThreadFrame m R) (h : ctrlWrite p m = .ok q) : R p q := by
  obtain ⟨chained, stops, h⟩ := bind_eq_ok.mp h
  obtain ⟨loaded, loads, h⟩ := bind_eq_ok.mp h
  have marked : R p ((p.setCtrlBit m ctrlDH false).modify m fun c =>
      { c with pirq := bitGet c.ctrl ctrlIP }) :=
    frame.trans (frame.setCtrlBit p ..) (frame.pending _ _ _)
  exact frame.trans (frame.trans marked (frame.ctrlWriteChain stops))
    (frame.trans (frame.ctrlWriteLoad loads) (frame.ctrlWriteEnable h))

theorem tickingUnderflow (frame : ThreadFrame m R) (h : tickingUnderflow p m = .ok q) : R p q := by
  obtain ⟨raised, irq, rfl⟩ := map_eq_ok.mp h
  have counted : R p (p.modify m fun c =>
      { c with eWait := none, underflows := c.underflows + 1 }) :=
    frame.counter p _ (fun _ => rfl) fun _ => rfl
  have sent := frame.raiseIrq (fun p line => frame.pending p line true) irq
  refine frame.trans (frame.trans counted sent)
    (frame.trans (frame.driveWdog raised m true) (frame.counter _ _ ?_ ?_))
  all_goals exact fun _ => rfl

end ThreadFrame

end Socrocket.Gptimer
