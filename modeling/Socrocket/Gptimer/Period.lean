/- Socrocket/Gptimer/Period
   digest: Reads and the other counters leave a counter alone, and when its underflows are one period apart. -/

import Socrocket.Gptimer.Alignment
import Socrocket.Gptimer.Frame

set_option autoImplicit false
set_option relaxedAutoImplicit false

namespace Socrocket.Gptimer

open Socrocket.Base.Countdown
open Socrocket.Base.Fallible
open Socrocket.Base.Run
open Socrocket.Core.SrRegister

variable {p q u : GPTimer} {n m : ℕ}

/-! ## What leaves a counter alone -/

/-- The next underflow of counter `n` and all that the later ones depend on stay as they are. -/
structure Undisturbed (n : ℕ) (p q : GPTimer) : Prop where
  setting : setting q n = setting p n
  now : q.now = p.now
  eWait : (q.counter n).eWait = (p.counter n).eWait
  wakes : (q.counter n).wakes = (p.counter n).wakes

namespace Undisturbed

theorem refl (n : ℕ) (p : GPTimer) : Undisturbed n p p := ⟨rfl, rfl, rfl, rfl⟩

theorem trans (h : Undisturbed n p q) (h' : Undisturbed n q u) : Undisturbed n p u :=
  ⟨h'.setting.trans h.setting, h'.now.trans h.now, h'.eWait.trans h.eWait, h'.wakes.trans h.wakes⟩

theorem modify_of_ne (apart : m ≠ n) (f : GPCounter → GPCounter) :
    Undisturbed n p (p.modify m f) := by
  have same := p.modify_counter_of_ne apart f
  constructor
  · simp only [Socrocket.Gptimer.setting, GPTimer.ctrlBit, same]
    rfl
  · rfl
  · rw [same]
  · rw [same]

theorem modify_of_same {f : GPCounter → GPCounter}
    (bits : ∀ b ∈ [ctrlEN, ctrlRS, ctrlCH], bitGet (f (p.counter m)).ctrl b = p.ctrlBit m b)
    (rest : { f (p.counter m) with
        value := (p.counter m).value, ctrl := (p.counter m).ctrl, pirq := (p.counter m).pirq,
        irqnr := (p.counter m).irqnr, chainRun := (p.counter m).chainRun,
        underflows := (p.counter m).underflows } = p.counter m) :
    Undisturbed n p (p.modify m f) := by
  by_cases apart : m = n
  · subst m
    have here := p.modify_counter_self n f
    have en := bits ctrlEN (by simp)
    have rs := bits ctrlRS (by simp)
    have ch := bits ctrlCH (by simp)
    have reload := congrArg GPCounter.reload rest
    have base := congrArg GPCounter.lasttime rest
    have count := congrArg GPCounter.lastvalue rest
    have stopped := congrArg GPCounter.stopped rest
    have eWait := congrArg GPCounter.eWait rest
    have wakes := congrArg GPCounter.wakes rest
    dsimp only at reload base count stopped eWait wakes
    constructor
    · simp only [Socrocket.Gptimer.setting, GPTimer.ctrlBit, here, en, rs, ch, reload, base, count,
        stopped]
      rfl
    · rfl
    · rw [here, eWait]
    · rw [here, wakes]
  · exact modify_of_ne apart f

end Undisturbed

theorem undisturbed_setCtrlBit {bit : ℕ} (other : bit ∉ [ctrlEN, ctrlRS, ctrlCH]) (value : Bool) :
    Undisturbed n p (p.setCtrlBit m bit value) := by
  apply Undisturbed.modify_of_same
  · intro b mem
    exact bitGet_bitSet_ne fun same => other (same ▸ mem)
  · rfl

theorem readFrame_undisturbed (n : ℕ) : ReadFrame (Undisturbed n) where
  refl := Undisturbed.refl n
  trans := Undisturbed.trans
  scaler _ _ := ⟨rfl, rfl, rfl, rfl⟩
  value _ _ _ := Undisturbed.modify_of_same (fun _ _ => rfl) rfl
  outputs _ _ _ := ⟨rfl, rfl, rfl, rfl⟩

theorem threadFrame_undisturbed (apart : m ≠ n) : ThreadFrame m (Undisturbed n) where
  toReadFrame := readFrame_undisturbed n
  counter _ f _ _ := Undisturbed.modify_of_ne apart f
  pending _ _ _ := Undisturbed.modify_of_ne apart _

theorem undisturbed_chainNext (unchained : p.ctrlBit n ctrlCH = false)
    (h : chainNext p m = .ok q) : Undisturbed n p q := by
  rw [chainNext] at h
  split at h
  · rename_i chained
    have apart : nrn p m ≠ n := by
      intro same
      rw [same, unchained] at chained
      cases chained
    exact (threadFrame_undisturbed apart).chaining h
  · cases h
    exact Undisturbed.refl n p

theorem tickingUnderflow_spec (h : tickingUnderflow p m = .ok q) :
    ∃ u, Undisturbed n (p.modify m fun c =>
        { c with eWait := none, underflows := c.underflows + 1 }) u ∧
      q = u.modify m fun c => { c with wakes := some (u.now + 1) } := by
  obtain ⟨u, raised, rfl⟩ := map_eq_ok.mp h
  have sent := (readFrame_undisturbed n).raiseIrq
    (fun _ _ => Undisturbed.modify_of_same (fun _ _ => rfl) rfl) raised
  have driven := (readFrame_undisturbed n).driveWdog u m true
  exact ⟨_, sent.trans driven, by rw [driven.now]⟩

theorem tickingRestart_spec (unchained : p.ctrlBit n ctrlCH = false)
    (h : tickingRestart p m = .ok q) :
    ∃ u v, Undisturbed n p u ∧
      (if (u.setCtrlBit m ctrlEN (u.ctrlBit m ctrlRS)).ctrlBit m ctrlRS then
        return u.setCtrlBit m ctrlEN (u.ctrlBit m ctrlRS)
      else stop (u.setCtrlBit m ctrlEN (u.ctrlBit m ctrlRS)) m) = .ok v ∧
      calculate (v.modify m fun c => { c with wakes := none }) m = .ok q := by
  obtain ⟨u, chained, h⟩ := bind_eq_ok.mp h
  obtain ⟨v, stopped, next⟩ := bind_eq_ok.mp h
  have frame := readFrame_undisturbed n
  have lowered := (frame.lowerIrq p m).trans (frame.driveWdog _ m false)
  have still := (congrArg Setting.ch lowered.setting).trans unchained
  exact ⟨u, v, lowered.trans (undisturbed_chainNext still chained), stopped, next⟩

theorem undisturbed_tickingRestart (apart : m ≠ n) (unchained : p.ctrlBit n ctrlCH = false)
    (h : tickingRestart p m = .ok q) : Undisturbed n p q := by
  apply (threadFrame_undisturbed apart).tickingRestart _ h
  intro u v next before
  exact undisturbed_chainNext ((congrArg Setting.ch before.setting).trans unchained) next

theorem undisturbed_busRead {reg : Reg} (h : busRead p reg = .ok q) : Undisturbed n p q := by
  cases reg with
  | scaler => exact (readFrame_undisturbed n).scalerRead h
  | value _ => exact (readFrame_undisturbed n).valueRead h
  | ctrl _ =>
    cases h
    exact (undisturbed_setCtrlBit (by decide) _).trans (undisturbed_setCtrlBit (by decide) _)
  | conf =>
    cases h
    exact ⟨rfl, rfl, rfl, rfl⟩
  | screload | reload _ =>
    cases h
    exact Undisturbed.refl n p

/-! ## The thread of the counter itself -/

theorem calculate_spec (present : n < p.ntimers) (running : (setting p n).Running)
    (fits : (setting p n).screload.toNat + 1 < 2 ^ 32) (settled : (setting p n).Settled n p.now)
    (h : calculate p n = .ok q) :
    setting q n = setting p n ∧ q.now = p.now ∧ (q.counter n).wakes = (p.counter n).wakes ∧
      (q.counter n).eWait = some (p.now + (setting p n).sleep n p.now) := by
  obtain ⟨read, before, h⟩ := bind_eq_ok.mp h
  have cleared : setting (p.modify n fun c => { c with eWait := none }) n = setting p n :=
    setting_modify rfl
  have started : p.lasttime < (p.counter n).lasttime := settled.started
  have elapsed : (p.counter n).lasttime + n + 3 ≤ p.now := settled.elapsed
  have readEq := valueRead_eq (p := p.modify n fun c => { c with eWait := none })
    (cleared ▸ running) fits (by simpa [GPTimer.modify] using started)
    (show p.lasttime + n + 3 ≤ p.now by omega)
  have value : (read.counter n).value.toNat = ((setting p n).countAt n p.now).toNat := by
    rw [before, Except.ok.injEq] at readEq
    rw [readEq, GPTimer.modify_counter_self, GPTimer.modify_now, cleared]
    have reload := (setting p n).reload.isLt
    have bound := Setting.countAt_le (σ := setting p n) (n := n) (t := p.now)
    exact toNat_ofInt_of_lt Setting.countAt_nonneg (by omega)
  have undisturbed := (readFrame_undisturbed n).valueRead before
  have readSetting : setting read n = setting p n := undisturbed.setting.trans cleared
  have readNow : read.now = p.now := undisturbed.now
  have readWakes : (read.counter n).wakes = (p.counter n).wakes := by
    rw [undisturbed.wakes, GPTimer.modify_counter_self]
  have enabled : read.ctrlBit n ctrlEN = true := (congrArg Setting.en readSetting).trans running.en
  have unchained : read.ctrlBit n ctrlCH = false :=
    (congrArg Setting.ch readSetting).trans running.ch
  have screload : read.screload = p.screload := congrArg Setting.screload readSetting
  dsimp only at h
  rw [if_pos enabled, nextzero, if_neg (by simp [unchained]),
    scalerRead_eq (n := n) (show read.screload.toNat + 1 < 2 ^ 32 from screload ▸ fits)
      (by rw [readSetting, readNow]; exact settled)] at h
  have still : n < read.ntimers :=
    present.trans_eq (congrArg Setting.ntimers readSetting).symm
  have cycle : cycletime
      { read with scaler := BitVec.ofInt 32 ((setting read n).scalerAt read.now) } n =
        .ok (read.screload.toNat + 1) := cycletime_eq still unchained
  simp only [ok_bind, pure, Except.pure, cycle] at h
  cases h
  have scaler : (BitVec.ofInt 32 ((setting p n).scalerAt p.now)).toNat =
      ((setting p n).scalerAt p.now).toNat := by
    have bound := Setting.scalerAt_le (σ := setting p n) (t := p.now)
    apply toNat_ofInt_of_lt Setting.scalerAt_nonneg
    rw [Setting.cycle] at bound
    omega
  refine ⟨?_, readNow, ?_, ?_⟩
  · rw [← readSetting]
    exact setting_modify (p := { read with scaler := _ }) rfl
  · simp only [GPTimer.modify_counter_self, readWakes]
  · simp only [GPTimer.modify_counter_self, readSetting, readNow, scaler, value, screload]
    rfl

theorem tickingRestart_self (present : n < p.ntimers) (running : (setting p n).Running)
    (fits : (setting p n).screload.toNat + 1 < 2 ^ 32) (settled : (setting p n).Settled n p.now)
    (h : tickingRestart p n = .ok q) :
    setting q n = setting p n ∧ q.now = p.now ∧ (q.counter n).wakes = none ∧
      (q.counter n).eWait = some (p.now + (setting p n).sleep n p.now) := by
  obtain ⟨u, v, before, stopped, next⟩ := tickingRestart_spec running.ch h
  have restart : u.ctrlBit n ctrlRS = true := (congrArg Setting.rs before.setting).trans running.rs
  have enabled : u.ctrlBit n ctrlEN = true := (congrArg Setting.en before.setting).trans running.en
  have rewritten : Undisturbed n u (u.setCtrlBit n ctrlEN (u.ctrlBit n ctrlRS)) := by
    apply Undisturbed.modify_of_same
    · intro b mem
      by_cases enable : b = ctrlEN
      · subst b
        rw [enabled, restart, bitGet_bitSet, if_pos (by decide)]
      · exact bitGet_bitSet_ne enable
    · rfl
  have same := before.trans rewritten
  have still : (u.setCtrlBit n ctrlEN (u.ctrlBit n ctrlRS)).ctrlBit n ctrlRS = true :=
    (congrArg Setting.rs same.setting).trans running.rs
  rw [if_pos still] at stopped
  rw [← Except.ok.inj stopped] at next
  have asleep : setting ((u.setCtrlBit n ctrlEN (u.ctrlBit n ctrlRS)).modify n fun c =>
      { c with wakes := none }) n = setting p n := (setting_modify rfl).trans same.setting
  have now := same.now
  obtain ⟨kept, time, waits, sleeps⟩ := calculate_spec (p := GPTimer.modify _ n _)
    (present.trans_eq (congrArg Setting.ntimers same.setting).symm) (asleep.symm ▸ running)
    (by
      rw [asleep]
      exact fits)
    (by
      rw [asleep, GPTimer.modify_now, now]
      exact settled)
    next
  rw [GPTimer.modify_counter_self] at waits
  rw [asleep, GPTimer.modify_now, now] at sleeps
  exact ⟨kept.trans asleep, time.trans now, waits, sleeps⟩

/-! ## Runs without writes -/

/-- Where the thread is after `k` underflows of the schedule. -/
inductive Position (σ : Setting) (n first : ℕ) (q : GPTimer) : ℕ → Prop
  | waiting {k : ℕ} (awake : (q.counter n).wakes = none)
      (pending : (q.counter n).eWait = some (σ.underflowAt n first k))
      (before : q.now ≤ σ.underflowAt n first k) : Position σ n first q k
  | resting {k : ℕ} (asleep : (q.counter n).wakes = some (σ.underflowAt n first k + 1))
      (since : σ.underflowAt n first k ≤ q.now)
      (before : q.now ≤ σ.underflowAt n first k + 1) : Position σ n first q (k + 1)

/-- The underflows so far are the first ones of the schedule, and the thread waits for the next. -/
def Tracks (σ : Setting) (n first : ℕ) (q : GPTimer) (past : List ℕ) : Prop :=
  setting q n = σ ∧ (∀ t ∈ past, t ≤ q.now) ∧
    ∃ k, past = (List.range k).map (σ.underflowAt n first) ∧ Position σ n first q k

variable {σ : Setting} {first : ℕ} {past : List ℕ}

theorem Tracks.undisturbed (h : Tracks σ n first p past) (still : Undisturbed n p q) :
    Tracks σ n first q past := by
  obtain ⟨same, passed, k, history, position⟩ := h
  refine ⟨still.setting.trans same, still.now.symm ▸ passed, k, history, ?_⟩
  cases position with
  | waiting awake pending before =>
    exact .waiting (still.wakes.trans awake) (still.eWait.trans pending) (still.now.symm ▸ before)
  | resting asleep since before =>
    exact .resting (still.wakes.trans asleep) (still.now.symm ▸ since) (still.now.symm ▸ before)

theorem le_underflowAt (first k : ℕ) : first ≤ σ.underflowAt n first k := by
  induction k with
  | zero => exact le_rfl
  | succ k ih =>
    rw [Setting.underflowAt]
    omega

theorem Tracks.resume (running : σ.Running) (fits : σ.screload.toNat + 1 < 2 ^ 32)
    (settled : σ.Settled n (first + 1)) (h : Tracks σ n first p past)
    (next : step p (.resume n) = some q) :
    Tracks σ n first q (past ++ underflow n p (.resume n)) := by
  obtain ⟨rfl, passed, k, history, position⟩ := h
  obtain ⟨present, ⟨asleep, next⟩ | ⟨awake, pending, next⟩⟩ := step_resume.mp next
  · cases position with
    | waiting awake =>
      rw [asleep] at awake
      cases awake
    | @resting k asleep' since before =>
      have due : p.now = (setting p n).underflowAt n first k + 1 :=
        Option.some.inj (asleep.symm.trans asleep')
      have emitted : underflow n p (.resume n) = [] := by simp [underflow, asleep]
      have later := le_underflowAt (σ := setting p n) (n := n) first k
      obtain ⟨kept, now, awake, pending⟩ :=
        tickingRestart_self present running fits (settled.later (by omega)) next
      rw [emitted, List.append_nil]
      refine ⟨kept, now.symm ▸ passed, k + 1, history, ?_⟩
      apply Position.waiting awake
      · rw [pending, Setting.underflowAt, due]
      · rw [now, Setting.underflowAt]
        omega
  · cases position with
    | resting asleep =>
      rw [awake] at asleep
      cases asleep
    | waiting awake' pending' before =>
      have due : p.now = (setting p n).underflowAt n first k :=
        Option.some.inj (pending.symm.trans pending')
      have emitted : underflow n p (.resume n) = [p.now] := by
        simp [underflow, awake, pending]
      obtain ⟨u, read, rfl⟩ := tickingUnderflow_spec (n := n) next
      have kept : setting u n = setting p n := read.setting.trans (setting_modify rfl)
      have now : u.now = p.now := read.now
      refine ⟨(setting_modify rfl).trans kept, ?_, k + 1, ?_, ?_⟩
      · intro t mem
        rw [emitted, List.mem_append, List.mem_singleton] at mem
        rw [GPTimer.modify_now, now]
        exact mem.elim (passed t) le_of_eq
      · rw [emitted, history, List.range_succ, List.map_append, due]
        rfl
      · apply Position.resting
        · rw [GPTimer.modify_counter_self, now, due]
        · rw [GPTimer.modify_now, now, due]
        · rw [GPTimer.modify_now, now, due]
          omega

/-- One step of a run without writes. -/
theorem Tracks.step (running : σ.Running) (fits : σ.screload.toNat + 1 < 2 ^ 32)
    (enough : n < σ.ntimers) (settled : σ.Settled n (first + 1)) {e : Event}
    (h : Tracks σ n first p past) (reads : ¬ e.IsWrite) (next : step p e = some q) :
    Tracks σ n first q (past ++ underflow n p e) := by
  cases e with
  | busRead reg =>
    rw [show underflow n p (.busRead reg) = [] from rfl, List.append_nil]
    rw [step_busRead] at next
    split at next
    · exact h.undisturbed (undisturbed_busRead next)
    · exact next ▸ h
  | busWrite reg v => exact absurd trivial reads
  | advance t =>
    rw [show underflow n p (.advance t) = [] from rfl, List.append_nil]
    obtain ⟨⟨onward, due⟩, rfl⟩ := step_advance.mp next
    obtain ⟨rfl, passed, k, history, position⟩ := h
    refine ⟨rfl, fun s mem => (passed s mem).trans onward, k, history, ?_⟩
    cases position with
    | waiting awake pending before =>
      exact .waiting awake pending (due n enough _ (by simp [GPCounter.due, awake, pending]))
    | resting asleep since before =>
      exact .resting asleep (since.trans onward) (due n enough _ (by simp [GPCounter.due, asleep]))
  | resume m =>
    by_cases apart : m = n
    · subst m
      exact h.resume running fits settled next
    · have silent : underflow n p (.resume m) = [] := by simp [underflow, apart]
      rw [silent, List.append_nil]
      have unchained : p.ctrlBit n ctrlCH = false := (congrArg Setting.ch h.1).trans running.ch
      obtain ⟨-, ⟨-, next⟩ | ⟨-, -, next⟩⟩ := step_resume.mp next
      · exact h.undisturbed (undisturbed_tickingRestart apart unchained next)
      · exact h.undisturbed ((threadFrame_undisturbed apart).tickingUnderflow next)

/-- In every run without writes that starts at an underflow, the underflows follow the schedule. -/
theorem run_tracks {es : List Event} (running : (setting p n).Running)
    (fits : p.screload.toNat + 1 < 2 ^ 32) (enough : n < p.ntimers)
    (settled : (setting p n).Settled n (p.now + 1))
    (awake : (p.counter n).wakes = none) (pending : (p.counter n).eWait = some p.now)
    (reads : Along step (fun _ e => ¬ e.IsWrite) p es) (reached : run step p es = some q) :
    Tracks (setting p n) n p.now q (outputs step (underflow n) p es) := by
  have start : Tracks (setting p n) n p.now p [] :=
    ⟨rfl, nofun, 0, rfl, .waiting awake pending le_rfl⟩
  rw [← List.nil_append (outputs step (underflow n) p es)]
  apply run_outputs (Q := Tracks (setting p n) n p.now) _ start reads reached
  intro s e t past before read next
  exact before.step running fits enough settled read next

theorem resume_isSome (running : (setting p n).Running) (fits : p.screload.toNat + 1 < 2 ^ 32)
    (enough : n < p.ntimers) (started : p.lasttime < (p.counter n).lasttime)
    (elapsed : p.lasttime + n + 3 ≤ p.now) (awake : (p.counter n).wakes = none)
    (pending : (p.counter n).eWait = some p.now) : (step p (.resume n)).isSome := by
  have cleared : setting (p.modify n fun c =>
      { c with eWait := none, underflows := c.underflows + 1 }) n = setting p n :=
    setting_modify rfl
  have read := valueRead_eq (p := p.modify n fun c =>
      { c with eWait := none, underflows := c.underflows + 1 }) (cleared.symm ▸ running) fits
    (show p.lasttime < _ by simpa using started) elapsed
  obtain ⟨u, underflows⟩ : ∃ u, tickingUnderflow p n = .ok u := by
    rw [tickingUnderflow, raiseIrq]
    split
    · exact ⟨_, by rw [read]; rfl⟩
    · exact ⟨_, rfl⟩
  exact Option.isSome_of_mem (step_resume.mpr ⟨enough, .inr ⟨awake, pending, underflows⟩⟩)

/-- Underflows one period apart, counted from the first. -/
def OnePeriodApart (first period : ℕ) (past : List ℕ) : Prop :=
  past = (List.range past.length).map fun k => first + k * period

instance (first period : ℕ) (past : List ℕ) : Decidable (OnePeriodApart first period past) :=
  inferInstanceAs (Decidable (_ = _))

/-- An unchained running counter whose underflow is due, with a prescaler that is long enough for
all counters. -/
structure UnderflowDue (p : GPTimer) (n : ℕ) : Prop where
  present : n < p.ntimers
  running : (setting p n).Running
  enough : p.ntimers ≤ p.screload.toNat
  fits : p.screload.toNat < 2 ^ 32 - 1
  awake : (p.counter n).wakes = none
  pending : (p.counter n).eWait = some p.now

instance (σ : Setting) : Decidable σ.Running :=
  decidable_of_iff (σ.stopped = false ∧ σ.en = true ∧ σ.rs = true ∧ σ.ch = false)
    ⟨fun h => ⟨h.1, h.2.1, h.2.2.1, h.2.2.2⟩, fun h => ⟨h.stopped, h.en, h.rs, h.ch⟩⟩

instance (σ : Setting) (t : ℕ) : Decidable (σ.Settled n t) :=
  decidable_of_iff (σ.lasttime < σ.base ∧ σ.base + n + 3 ≤ t ∧
      σ.lasttime + σ.lastvalue.toNat < t + σ.screload.toNat)
    ⟨fun h => ⟨h.1, h.2.1, h.2.2⟩, fun h => ⟨h.started, h.elapsed, h.wrapped⟩⟩

instance : Decidable (UnderflowDue p n) :=
  decidable_of_iff (n < p.ntimers ∧ (setting p n).Running ∧ p.ntimers ≤ p.screload.toNat ∧
      p.screload.toNat < 2 ^ 32 - 1 ∧ (p.counter n).wakes = none ∧
      (p.counter n).eWait = some p.now)
    ⟨fun h => ⟨h.1, h.2.1, h.2.2.1, h.2.2.2.1, h.2.2.2.2.1, h.2.2.2.2.2⟩, fun h =>
      ⟨h.present, h.running, h.enough, h.fits, h.awake, h.pending⟩⟩

/-- From the first underflow on and without writes: at an aligned recalculation every underflow
comes exactly one period after the one before, none is skipped and a due one happens. Three
underflows one period apart come from an aligned recalculation only. -/
theorem underflows_one_period_apart {es : List Event} (first : UnderflowDue p n)
    (settled : (setting p n).Settled n (p.now + 1))
    (reads : Along step (fun _ e => ¬ e.IsWrite) p es) (reached : run step p es = some q) :
    ((setting p n).Aligned n (p.now + 1) →
      OnePeriodApart p.now (setting p n).period (outputs step (underflow n) p es) ∧
        q.now ≤ p.now + (outputs step (underflow n) p es).length * (setting p n).period ∧
        (∀ t ∈ outputs step (underflow n) p es, t ≤ q.now) ∧
        (q.now = p.now + (outputs step (underflow n) p es).length * (setting p n).period →
          (step q (.resume n)).isSome)) ∧
    (3 ≤ (outputs step (underflow n) p es).length →
      OnePeriodApart p.now (setting p n).period (outputs step (underflow n) p es) →
        (setting p n).Aligned n (p.now + 1)) := by
  obtain ⟨present, running, enough, fits, awake, pending⟩ := first
  have fits' : p.screload.toNat + 1 < 2 ^ 32 := by omega
  have long : n < (setting p n).screload.toNat := present.trans_le enough
  obtain ⟨same, passed, k, history, position⟩ :=
    run_tracks running fits' present settled awake pending reads reached
  have length : (outputs step (underflow n) p es).length = k := by
    rw [history, List.length_map, List.length_range]
  constructor
  · intro aligned
    have schedule := fun i => (Setting.underflowAt_of_aligned long settled aligned i).1
    have spaced : OnePeriodApart p.now (setting p n).period
        (outputs step (underflow n) p es) := by
      rw [OnePeriodApart, length, history]
      exact List.map_congr_left fun i _ => schedule i
    have positive : 1 < (setting p n).period := by
      have asleep := Setting.sleep_of_aligned long aligned
      rw [← asleep, Setting.sleep]
      omega
    refine ⟨spaced, ?_, passed, ?_⟩
    · rw [length]
      cases position with
      | waiting _ _ before => exact before.trans (schedule k).le
      | @resting k _ _ before =>
        rw [schedule k] at before
        rw [Nat.succ_mul]
        omega
    · intro due
      rw [length] at due
      cases position with
      | waiting awake' pending' before =>
        rw [schedule k, ← due] at pending'
        have lasttime : q.lasttime = p.lasttime := congrArg Setting.lasttime same
        have base : (q.counter n).lasttime = (p.counter n).lasttime := congrArg Setting.base same
        have screload : q.screload = p.screload := congrArg Setting.screload same
        have started : p.lasttime < (p.counter n).lasttime := settled.started
        have elapsed : (p.counter n).lasttime + n + 3 ≤ p.now + 1 := settled.elapsed
        apply resume_isSome (same.symm ▸ running) (screload.symm ▸ fits')
        · exact present.trans_eq (congrArg Setting.ntimers same).symm
        · omega
        · omega
        · exact awake'
        · exact pending'
      | @resting k _ _ before =>
        rw [schedule k] at before
        rw [Nat.succ_mul] at due
        omega
  · intro three spaced
    rw [length] at three
    rw [OnePeriodApart, length, history] at spaced
    have each : ∀ i < k, (setting p n).underflowAt n p.now i =
        p.now + i * (setting p n).period := by
      intro i less
      have at_i := congrArg (·[i]?) spaced
      simpa [less] using at_i
    apply Setting.aligned_of_underflowAt long settled
    · rw [each 1 (by omega), Nat.one_mul]
    · exact each 2 (by omega)

/-! ## A start in the cycle in which the prescaler wraps -/

/-- With a clock cycle of 10 ns and a resolution of 1 ps. -/
def wrappedPicoseconds (below cycletime : ℕ) : ℤ :=
  (2 ^ 64 - below * 10000 : ℤ) / (cycletime * 10000)

/-- One counter, stopped, with prescaler and counter as reset leaves them. -/
def oneCounter : GPTimer where
  now := 0
  ntimers := 1
  sbits := 16
  nbits := 32
  wdogLength := 0
  confDefaults := 1
  scaler := 0xFFFF
  screload := 0xFFFF
  conf := 1
  lasttime := 0
  lastvalue := 0xFFFF
  counter _ := ⟨0, 0, 0, 0, 0, none, true, false, false, 0, none, 0⟩
  irq := (0, false)
  wdog := false
  wrapped := wrappedPicoseconds

/-- Reload values 9 and 1 are written at time 5 and the counter is started at `t`. -/
def setUp (t first : ℕ) : List Event :=
  [.advance 5, .busWrite .screload 9, .busWrite (.reload 0) 1, .advance t, .busWrite (.ctrl 0) 7,
    .advance first]

/-- Two periods from a due underflow, with a read in between. -/
def twoUnderflows (first second : ℕ) : List Event :=
  [.resume 0, .busRead (.value 0), .advance (first + 1), .resume 0, .advance second, .resume 0]

/-- Started at time 14 the counter underflows at 28 and a period of 20 later at 48. -/
theorem underflows_one_period_apart_from_start :
    ∃ p q, run step oneCounter (setUp 14 28) = some p ∧
      run step p (twoUnderflows 28 48) = some q ∧
      OnePeriodApart p.now (setting p 0).period
        (outputs step (underflow 0) p (twoUnderflows 28 48)) := by
  have found : ((run step oneCounter (setUp 14 28)).map fun p =>
      decide (UnderflowDue p 0 ∧ (setting p 0).Settled 0 (p.now + 1) ∧
        (setting p 0).Aligned 0 (p.now + 1) ∧ (run step p (twoUnderflows 28 48)).isSome)) =
          some true := by decide +kernel
  obtain ⟨p, start, holds⟩ := Option.map_eq_some_iff.mp found
  obtain ⟨due, settled, aligned, ran⟩ := of_decide_eq_true holds
  obtain ⟨q, reached⟩ := Option.isSome_iff_exists.mp ran
  exact ⟨p, q, start, reached, ((underflows_one_period_apart due settled
    (along_of_forall p (by decide)) reached).1 aligned).1⟩

/-- Started at time 16, in the cycle in which the prescaler wraps, it underflows at 39 and already
19 cycles later at 58. -/
theorem second_underflow_early :
    ∃ p q, run step oneCounter (setUp 16 39) = some p ∧ UnderflowDue p 0 ∧
      Along step (fun _ e => ¬ e.IsWrite) p (twoUnderflows 39 58) ∧
      run step p (twoUnderflows 39 58) = some q ∧ (setting p 0).period = 20 ∧
      outputs step (underflow 0) p (twoUnderflows 39 58) = [39, 58] ∧
      ¬ OnePeriodApart p.now (setting p 0).period
        (outputs step (underflow 0) p (twoUnderflows 39 58)) := by
  have found : ((run step oneCounter (setUp 16 39)).map fun p =>
      decide (UnderflowDue p 0 ∧ (setting p 0).period = 20 ∧
        outputs step (underflow 0) p (twoUnderflows 39 58) = [39, 58] ∧
        ¬ OnePeriodApart p.now (setting p 0).period
          (outputs step (underflow 0) p (twoUnderflows 39 58)) ∧
        (run step p (twoUnderflows 39 58)).isSome)) = some true := by decide +kernel
  obtain ⟨p, start, holds⟩ := Option.map_eq_some_iff.mp found
  obtain ⟨due, period, times, apart, ran⟩ := of_decide_eq_true holds
  obtain ⟨q, reached⟩ := Option.isSome_iff_exists.mp ran
  exact ⟨p, q, start, due, along_of_forall p (by decide), reached, period, times, apart⟩

end Socrocket.Gptimer
