/- Socrocket/Gptimer/InterruptPending
   digest: The pending interrupt of a counter over runs of underflows, register accesses and restarts. -/

import Socrocket.Base.Latch
import Socrocket.Gptimer.Period

set_option autoImplicit false
set_option relaxedAutoImplicit false

namespace Socrocket.Gptimer

open Socrocket.Base.Fallible
open Socrocket.Base.Latch
open Socrocket.Base.Run
open Socrocket.Core.SrRegister

variable {p q u : GPTimer} {nr m : ℕ}

/-- The thread of counter `nr` counts an underflow that raises an interrupt. -/
def RaisesIrq (nr : ℕ) (p : GPTimer) (m : ℕ) : Prop :=
  m = nr ∧ (p.counter nr).wakes = none ∧ (p.counter nr).eWait = some p.now ∧
    p.ctrlBit nr ctrlIE = true

instance : Decidable (RaisesIrq nr p m) := inferInstanceAs (Decidable (_ ∧ _))

theorem irq_of_raises (raises : RaisesIrq m p m) (next : step p (.resume m) = some q) :
    q.irq = (1#32 <<< irqLine p.conf m, true) := by
  obtain ⟨-, awake, due, enabled⟩ := raises
  have frame : ReadFrame fun p q : GPTimer => q.conf = p.conf :=
    ⟨fun _ => rfl, fun first second => second.trans first, fun _ _ => rfl, fun _ _ _ =>
      rfl, fun _ _ _ => rfl⟩
  obtain ⟨-, ⟨asleep, -⟩ | ⟨-, -, next⟩⟩ := step_resume.mp next
  · rw [awake] at asleep
    cases asleep
  · obtain ⟨u, raised, rfl⟩ := map_eq_ok.mp next
    have still : (p.modify m fun c =>
        { c with eWait := none, underflows := c.underflows + 1 }).ctrlBit m ctrlIE = true := by
      rw [GPTimer.ctrlBit, GPTimer.modify_counter_self]
      exact enabled
    rw [raiseIrq, if_pos still] at raised
    obtain ⟨v, read, rfl⟩ := map_eq_ok.mp raised
    have kept := frame.valueRead read
    have conf : v.conf = p.conf := kept
    rw [← conf]
    unfold driveWdog
    split <;> rfl

/-- An underflow with interrupts enabled sets the pending bit, writing a one to it clears it. -/
def interruptSignals (nr : ℕ) (p : GPTimer) : Event → List Signal
  | .busWrite (.ctrl m) v => if m = nr ∧ bitGet v ctrlIP = true then [.clear] else []
  | .resume m => if RaisesIrq nr p m then [.set] else []
  | _ => []

/-- The pending bit that a read of the control register shows. -/
def interruptPending (nr : ℕ) (p : GPTimer) : Bool := (ctrlRead p nr).ctrlBit nr ctrlIP

@[simp] theorem interruptPending_eq : interruptPending nr p = (p.counter nr).pirq := by
  rw [interruptPending, ctrlRead, GPTimer.setCtrlBit, GPTimer.ctrlBit, GPTimer.modify_counter_self]
  exact bitGet_bitSet _ _ _ _

/-- A write to the control register neither sets the pending bit nor, with a zero there, changes
it. -/
def KeepsPending (nr : ℕ) (p : GPTimer) (e : Event) : Prop :=
  ∀ v q, e = .busWrite (.ctrl nr) v → step p e = some q →
    (bitGet v ctrlIP = false → interruptPending nr q = interruptPending nr p) ∧
      (interruptPending nr q = true → interruptPending nr p = true)

/-- A write to the control register has a zero for the pending bit and finds nothing pending. -/
def NothingAcknowledged (nr : ℕ) (p : GPTimer) : Event → Prop
  | .busWrite (.ctrl m) v => m = nr → bitGet v ctrlIP = false ∧ (p.counter nr).pirq = false
  | _ => True

instance (nr : ℕ) (p : GPTimer) : DecidablePred (NothingAcknowledged nr p)
  | .busWrite (.ctrl _) _ => inferInstanceAs (Decidable (_ → _ ∧ _))
  | .busWrite .scaler _ | .busWrite .screload _ | .busWrite .conf _ | .busWrite (.value _) _ |
    .busWrite (.reload _) _ | .busRead _ | .advance _ | .resume _ => isTrue trivial

/-! ## What one step does to the pending interrupt -/

/-- The number of counters and the pending interrupt of counter `nr` stay as they are. -/
structure SamePending (nr : ℕ) (p q : GPTimer) : Prop where
  ntimers : q.ntimers = p.ntimers
  pirq : (q.counter nr).pirq = (p.counter nr).pirq

namespace SamePending

theorem refl (nr : ℕ) (p : GPTimer) : SamePending nr p p := ⟨rfl, rfl⟩

theorem trans (h : SamePending nr p q) (h' : SamePending nr q u) : SamePending nr p u :=
  ⟨h'.ntimers.trans h.ntimers, h'.pirq.trans h.pirq⟩

theorem modify_of_ne (apart : m ≠ nr) (f : GPCounter → GPCounter) :
    SamePending nr p (p.modify m f) := ⟨rfl, by rw [p.modify_counter_of_ne apart]⟩

theorem modify_of_same {f : GPCounter → GPCounter} (same : ∀ c, (f c).pirq = c.pirq) :
    SamePending nr p (p.modify m f) := by
  by_cases own : m = nr
  · subst m
    exact ⟨rfl, by rw [GPTimer.modify_counter_self, same]⟩
  · exact modify_of_ne own f

end SamePending

theorem counterFrame_samePending (nr m : ℕ) : CounterFrame m (SamePending nr) where
  refl := SamePending.refl nr
  trans := SamePending.trans
  scaler _ _ := ⟨rfl, rfl⟩
  value _ _ _ := SamePending.modify_of_same fun _ => rfl
  outputs _ _ _ := ⟨rfl, rfl⟩
  counter _ _ _ same := SamePending.modify_of_same same

theorem threadFrame_samePending (apart : m ≠ nr) : ThreadFrame m (SamePending nr) where
  toCounterFrame := counterFrame_samePending nr m
  pending _ _ _ := SamePending.modify_of_ne apart _

theorem samePending_chainNext (h : chainNext p m = .ok q) : SamePending nr p q := by
  rw [chainNext] at h
  split at h
  · exact (counterFrame_samePending nr _).chaining h
  · cases h
    exact SamePending.refl nr p

theorem samePending_busRead {reg : Reg} (h : busRead p reg = .ok q) : SamePending nr p q := by
  cases reg with
  | scaler => exact (counterFrame_samePending nr 0).scalerRead h
  | value m => exact (counterFrame_samePending nr m).valueRead h
  | ctrl m =>
    cases h
    have frame := counterFrame_samePending nr m
    exact (frame.setCtrlBit p ctrlDH false).trans (frame.setCtrlBit _ _ _)
  | screload | conf | reload _ =>
    cases h
    exact ⟨rfl, rfl⟩

theorem ctrlWrite_own (h : ctrlWrite p nr = .ok q) :
    q.ntimers = p.ntimers ∧ (q.counter nr).pirq = p.ctrlBit nr ctrlIP := by
  obtain ⟨chained, stops, h⟩ := bind_eq_ok.mp h
  obtain ⟨loaded, loads, h⟩ := bind_eq_ok.mp h
  have frame := counterFrame_samePending nr nr
  have rest := ((frame.ctrlWriteChain stops).trans (frame.ctrlWriteLoad loads)).trans
    (frame.ctrlWriteEnable h)
  refine ⟨rest.ntimers, rest.pirq.trans ?_⟩
  rw [GPTimer.setCtrlBit, GPTimer.modify_counter_self, GPTimer.modify_counter_self]
  exact bitGet_bitSet_ne (show ctrlIP ≠ ctrlDH by decide)

theorem raiseIrq_own (h : raiseIrq p nr = .ok q) :
    q.ntimers = p.ntimers ∧
      (q.counter nr).pirq = (p.ctrlBit nr ctrlIE || (p.counter nr).pirq) := by
  rw [raiseIrq] at h
  split at h
  · rename_i enabled
    obtain ⟨read, before, rfl⟩ := map_eq_ok.mp h
    have same := (counterFrame_samePending nr nr).valueRead before
    refine ⟨same.ntimers, ?_⟩
    rw [GPTimer.modify_counter_self, enabled, Bool.true_or]
  · rename_i disabled
    cases h
    rw [Bool.eq_false_iff.mpr disabled, Bool.false_or]
    exact ⟨rfl, rfl⟩

theorem tickingUnderflow_own (h : tickingUnderflow p nr = .ok q) :
    q.ntimers = p.ntimers ∧
      (q.counter nr).pirq = (p.ctrlBit nr ctrlIE || (p.counter nr).pirq) := by
  obtain ⟨raised, irq, rfl⟩ := map_eq_ok.mp h
  obtain ⟨count, pirq⟩ := raiseIrq_own irq
  have driven := (counterFrame_samePending nr nr).driveWdog raised nr true
  have awake : SamePending nr (driveWdog raised nr true)
      ((driveWdog raised nr true).modify nr fun c => { c with wakes := some (raised.now + 1) }) :=
    SamePending.modify_of_same fun _ => rfl
  have rest := driven.trans awake
  rw [GPTimer.ctrlBit, GPTimer.modify_counter_self] at pirq
  exact ⟨rest.ntimers.trans count, rest.pirq.trans pirq⟩

/-- The pending interrupt after a step. -/
def pendingAfter (nr : ℕ) (p : GPTimer) : Event → Bool
  | .busWrite (.ctrl m) v => if m = nr then bitGet v ctrlIP else (p.counter nr).pirq
  | .resume m => decide (RaisesIrq nr p m) || (p.counter nr).pirq
  | _ => (p.counter nr).pirq

theorem write_pending {reg : Reg} {v : BitVec 32} (h : write p v reg = .ok q) :
    q.ntimers = p.ntimers ∧ (q.counter nr).pirq = pendingAfter nr p (.busWrite reg v) := by
  have still : ∀ {w}, SamePending nr p w → SamePending nr w q →
      q.ntimers = p.ntimers ∧ (q.counter nr).pirq = (p.counter nr).pirq :=
    fun first second => ⟨(first.trans second).ntimers, (first.trans second).pirq⟩
  cases reg with
  | scaler | screload =>
    have loaded := CounterFrame.recalculate (counterFrame_samePending nr) (id h)
    exact ⟨loaded.ntimers, loaded.pirq⟩
  | conf =>
    cases h
    exact ⟨rfl, rfl⟩
  | value m =>
    exact still (SamePending.modify_of_same fun _ => by rfl)
      ((counterFrame_samePending nr m).valueWrite h)
  | reload m =>
    cases h
    exact still (SamePending.modify_of_same fun _ => by rfl) (SamePending.refl nr _)
  | ctrl m =>
    rw [pendingAfter]
    split
    · rename_i own
      subst m
      obtain ⟨count, pirq⟩ := ctrlWrite_own h
      refine ⟨count, pirq.trans ?_⟩
      rw [GPTimer.ctrlBit, GPTimer.modify_counter_self, busWrite, bitGet_and]
      exact Bool.and_true _
    · rename_i apart
      exact still (SamePending.modify_of_ne apart _) ((threadFrame_samePending apart).ctrlWrite h)

theorem resume_pending (h : step p (.resume m) = some q) :
    q.ntimers = p.ntimers ∧ (q.counter nr).pirq = pendingAfter nr p (.resume m) := by
  rw [pendingAfter]
  obtain ⟨-, ⟨awake, h⟩ | ⟨asleep, due, h⟩⟩ := step_resume.mp h
  · have same : SamePending nr p q :=
      (counterFrame_samePending nr m).tickingRestart (fun next _ => samePending_chainNext next) h
    have quiet : ¬ RaisesIrq nr p m := by
      rintro ⟨rfl, asleep, -⟩
      rw [asleep] at awake
      cases awake
    rw [decide_eq_false quiet, Bool.false_or]
    exact ⟨same.ntimers, same.pirq⟩
  · by_cases own : m = nr
    · subst m
      obtain ⟨count, pirq⟩ := tickingUnderflow_own h
      have raises : RaisesIrq nr p nr ↔ p.ctrlBit nr ctrlIE = true :=
        ⟨fun r => r.2.2.2, fun enabled => ⟨rfl, asleep, due, enabled⟩⟩
      have same : decide (RaisesIrq nr p nr) = p.ctrlBit nr ctrlIE := by
        rw [Bool.eq_iff_iff, decide_eq_true_iff, raises]
      exact ⟨count, same ▸ pirq⟩
    · have same := (threadFrame_samePending own).tickingUnderflow h
      rw [decide_eq_false fun r => own r.1, Bool.false_or]
      exact ⟨same.ntimers, same.pirq⟩

/-- What a step of the unit leaves pending. -/
theorem step_pending {e : Event} (present : nr < p.ntimers) (next : step p e = some q) :
    q.ntimers = p.ntimers ∧ (q.counter nr).pirq = pendingAfter nr p e := by
  cases e with
  | busRead reg =>
    rw [step_busRead] at next
    split at next
    · have same : SamePending nr p q := samePending_busRead next
      exact ⟨same.ntimers, same.pirq⟩
    · exact next ▸ ⟨rfl, rfl⟩
  | busWrite reg v =>
    rw [step_busWrite] at next
    split at next
    · exact write_pending next
    · rename_i absent
      subst q
      refine ⟨rfl, ?_⟩
      cases reg with
      | ctrl m =>
        rw [pendingAfter, if_neg]
        intro own
        exact absent (own ▸ present)
      | scaler | screload | conf | value _ | reload _ => rfl
  | advance t =>
    obtain ⟨-, rfl⟩ := step_advance.mp next
    exact ⟨rfl, rfl⟩
  | resume m => exact resume_pending next

/-! ## Over runs -/

theorem pendingAfter_iff {e : Event} {past : List Signal} (own : ∀ v, e ≠ .busWrite (.ctrl nr) v)
    (law : (p.counter nr).pirq = true ↔ SetSince past) :
    pendingAfter nr p e = true ↔ SetSince (past ++ interruptSignals nr p e) := by
  cases e with
  | busWrite reg v =>
    cases reg with
    | ctrl m =>
      have apart : m ≠ nr := fun same => own v (same ▸ rfl)
      simpa [pendingAfter, interruptSignals, apart] using law
    | scaler | screload | conf | value _ | reload _ =>
      simpa [pendingAfter, interruptSignals] using law
  | busRead _ | advance _ => simpa [pendingAfter, interruptSignals] using law
  | resume m =>
    by_cases raises : RaisesIrq nr p m
    · simp [pendingAfter, interruptSignals, raises]
    · simpa [pendingAfter, interruptSignals, raises] using law

theorem pending_write_iff {v : BitVec 32} {past : List Signal}
    (law : (p.counter nr).pirq = true ↔ SetSince past)
    (after : (q.counter nr).pirq = bitGet v ctrlIP) (next : step p (.busWrite (.ctrl nr) v) = some q) :
    KeepsPending nr p (.busWrite (.ctrl nr) v) ∧ ((q.counter nr).pirq = true ↔
      SetSince (past ++ interruptSignals nr p (.busWrite (.ctrl nr) v))) ↔
      NothingAcknowledged nr p (.busWrite (.ctrl nr) v) := by
  cases written : bitGet v ctrlIP with
  | true =>
    -- The write sets what it is to clear.
    refine iff_of_false (fun both => ?_) fun good => ?_
    · have cleared := both.2
      simp [interruptSignals, after, written] at cleared
    · have zero := (good rfl).1
      rw [written] at zero
      cases zero
  | false =>
    rw [written] at after
    have quiet : interruptSignals nr p (.busWrite (.ctrl nr) v) = [] := by
      simp [interruptSignals, written]
    rw [quiet, List.append_nil, ← law, after]
    constructor
    · rintro ⟨-, same⟩ -
      exact ⟨written, Bool.eq_false_iff.mpr fun pending => absurd (same.mpr pending) (by decide)⟩
    · intro good
      obtain ⟨-, nothing⟩ := good rfl
      refine ⟨fun w t same reached => ?_, by rw [nothing]⟩
      rw [next, Option.some.injEq] at reached
      rw [← reached, interruptPending_eq, interruptPending_eq, after, nothing]
      exact ⟨fun _ => rfl, id⟩

/-- A step that finds the pending bit as the signals so far left it keeps the law exactly when it
acknowledges nothing. -/
theorem pending_step_iff {e : Event} {past : List Signal}
    (law : interruptPending nr p = true ↔ SetSince past) (present : nr < p.ntimers)
    (next : step p e = some q) :
    KeepsPending nr p e ∧
      (interruptPending nr q = true ↔ SetSince (past ++ interruptSignals nr p e)) ↔
      NothingAcknowledged nr p e := by
  have after := (step_pending present next).2
  rw [interruptPending_eq] at law ⊢
  by_cases own : ∃ v, e = .busWrite (.ctrl nr) v
  · obtain ⟨v, rfl⟩ := own
    rw [pendingAfter, if_pos rfl] at after
    exact pending_write_iff law after next
  · have other : ∀ v, e ≠ .busWrite (.ctrl nr) v := fun v same => own ⟨v, same⟩
    have good : NothingAcknowledged nr p e := by
      unfold NothingAcknowledged
      split
      · rename_i m v
        exact fun same => absurd (same ▸ rfl) (other v)
      · trivial
    rw [after]
    exact iff_of_true ⟨fun v _ same => absurd same (other v), pendingAfter_iff other law⟩ good

/-- The pending bit is at every moment of a run what underflows with interrupts enabled and
acknowledging writes made of it, and other writes leave it alone, exactly when nothing is pending at
the start and every write to the control register has a zero for it and finds nothing pending. -/
theorem pending_since_acknowledge_iff {es : List Event} (present : nr < p.ntimers)
    (reached : run step p es = some q) :
    (Along step (KeepsPending nr) p es ∧
      ∀ before after u, es = before ++ after → run step p before = some u →
        (interruptPending nr u = true ↔ SetSince (outputs step (interruptSignals nr) p before))) ↔
      (p.counter nr).pirq = false ∧ Along step (NothingAcknowledged nr) p es := by
  have whole (start : interruptPending nr p = true ↔ SetSince []) :
      (Along step (KeepsPending nr) p es ∧
        ∀ before after u, es = before ++ after → run step p before = some u →
          (interruptPending nr u = true ↔
            SetSince (outputs step (interruptSignals nr) p before))) ↔
        Along step (NothingAcknowledged nr) p es := by
    have kept := along_outputs_throughout_iff
      (P := fun s past => interruptPending nr s = true ↔ SetSince past) (Q := fun s => nr < s.ntimers)
      (fun _ _ _ _ law present next => pending_step_iff law present next)
      (fun _ _ _ present next => present.trans_eq (step_pending present next).1.symm) start present
      reached
    simpa only [List.nil_append] using kept
  constructor
  · rintro ⟨keeps, law⟩
    have start : interruptPending nr p = true ↔ SetSince [] := law [] es p rfl rfl
    have clear : (p.counter nr).pirq = false := by
      rw [← interruptPending_eq]
      exact Bool.eq_false_iff.mpr fun pending => not_setSince_nil (start.mp pending)
    exact ⟨clear, (whole start).mp ⟨keeps, law⟩⟩
  · rintro ⟨clear, good⟩
    have start : interruptPending nr p = true ↔ SetSince [] := by
      rw [interruptPending_eq, clear]
      exact iff_of_false (by decide) not_setSince_nil
    exact (whole start).mpr good

/-- Started at 14 with interrupts enabled, the counter underflows at 28. -/
def startAndUnderflow : List Event :=
  [.advance 5, .busWrite .screload 9, .busWrite (.reload 0) 1, .advance 14, .busWrite (.ctrl 0) 0xF,
    .advance 28, .resume 0, .busRead (.ctrl 0)]

/-- Up to the first underflow the bit follows the law. -/
theorem pending_up_to_first_underflow :
    ∃ q, run step oneCounter startAndUnderflow = some q ∧
      ∀ before after u, startAndUnderflow = before ++ after → run step oneCounter before = some u →
        (interruptPending 0 u = true ↔
          SetSince (outputs step (interruptSignals 0) oneCounter before)) := by
  have ran : (run step oneCounter startAndUnderflow).isSome = true := by decide +kernel
  have good : Along step (NothingAcknowledged 0) oneCounter startAndUnderflow := by decide +kernel
  obtain ⟨q, reached⟩ := Option.isSome_iff_exists.mp ran
  exact ⟨q, reached, ((pending_since_acknowledge_iff (by decide) reached).mpr ⟨rfl, good⟩).2⟩

/-- A write of zeros loses the pending interrupt, and a write of a one to the bit sets it where no
underflow came. -/
theorem pending_written_through :
    (∃ p q, run step oneCounter startAndUnderflow = some p ∧ interruptPending 0 p = true ∧
      step p (.busWrite (.ctrl 0) 0) = some q ∧ interruptPending 0 q = false) ∧
    ∃ q, run step oneCounter [.busWrite (.ctrl 0) 0x10] = some q ∧ interruptPending 0 q = true ∧
      ¬ SetSince (outputs step (interruptSignals 0) oneCounter [.busWrite (.ctrl 0) 0x10]) := by
  constructor
  · have found : ((run step oneCounter startAndUnderflow).map fun p =>
        decide (interruptPending 0 p = true ∧ (step p (.busWrite (.ctrl 0) 0)).map
          (interruptPending 0) = some false)) = some true := by decide +kernel
    obtain ⟨p, reached, holds⟩ := Option.map_eq_some_iff.mp found
    obtain ⟨pending, lost⟩ := of_decide_eq_true holds
    obtain ⟨q, next, clear⟩ := Option.map_eq_some_iff.mp lost
    exact ⟨p, q, reached, pending, next, clear⟩
  · have found : (run step oneCounter [.busWrite (.ctrl 0) 0x10]).map (interruptPending 0) =
        some true := by decide +kernel
    obtain ⟨q, reached, pending⟩ := Option.map_eq_some_iff.mp found
    exact ⟨q, reached, pending, by decide +kernel⟩

end Socrocket.Gptimer
