/- Socrocket/Gptimer/PrescalerValue
   digest: What the scaler register shows a number of cycles after the prescaler was loaded. -/

import Socrocket.Gptimer.CounterValue

set_option autoImplicit false
set_option relaxedAutoImplicit false

namespace Socrocket.Gptimer

open Socrocket.Base.Countdown
open Socrocket.Base.Fallible
open Socrocket.Base.Run
open Socrocket.Core.SrRegister

/-- The part of the state that only writes to the prescaler and the reload registers change, and the
generics. -/
structure Programmed where
  lasttime : ℕ
  lastvalue : BitVec 32
  screload : BitVec 32
  reload : ℕ → BitVec 32
  ntimers : ℕ
  sbits : ℕ
  nbits : ℕ

def programmed (p : GPTimer) : Programmed :=
  ⟨p.lasttime, p.lastvalue, p.screload, fun nr => (p.counter nr).reload, p.ntimers, p.sbits, p.nbits⟩

/-- A write that loads the prescaler. -/
def Event.LoadsPrescaler : Event → Prop
  | .busWrite .scaler _ | .busWrite .screload _ => True
  | _ => False

instance : DecidablePred Event.LoadsPrescaler
  | .busWrite .scaler _ | .busWrite .screload _ => isTrue trivial
  | .busWrite .conf _ | .busWrite (.value _) _ | .busWrite (.reload _) _ | .busWrite (.ctrl _) _ |
    .busRead _ | .advance _ | .resume _ => isFalse id

variable {p q u : GPTimer} {m : ℕ}

/-! ## What keeps the programmed values -/

theorem programmed_modify (p : GPTimer) (m : ℕ) (f : GPCounter → GPCounter)
    (same : ∀ c, (f c).reload = c.reload) : programmed (p.modify m f) = programmed p := by
  have reload : (fun nr => ((p.modify m f).counter nr).reload) = fun nr => (p.counter nr).reload := by
    funext nr
    by_cases own : m = nr
    · rw [own, GPTimer.modify_counter_self, same]
    · rw [GPTimer.modify_counter_of_ne p own]
  rw [programmed, reload]
  rfl

theorem threadFrame_programmed (m : ℕ) :
    ThreadFrame m fun p q => programmed q = programmed p where
  refl _ := rfl
  trans first second := second.trans first
  scaler _ _ := rfl
  value p m _ := programmed_modify p m _ fun _ => rfl
  outputs _ _ _ := rfl
  counter p f same _ := programmed_modify p m f same
  pending p _ _ := programmed_modify p m _ fun _ => rfl

theorem programmed_valueRead (h : valueRead p m = .ok q) : programmed q = programmed p :=
  (threadFrame_programmed m).valueRead h

theorem programmed_chainNext (h : chainNext p m = .ok q) : programmed q = programmed p := by
  rw [chainNext] at h
  split at h
  · exact (threadFrame_programmed _).chaining h
  · cases h
    rfl

theorem programmed_busRead {reg : Reg} (h : busRead p reg = .ok q) :
    programmed q = programmed p := by
  cases reg with
  | scaler => exact (threadFrame_programmed 0).scalerRead h
  | value _ => exact programmed_valueRead h
  | ctrl nr =>
    cases h
    have frame := threadFrame_programmed nr
    exact (frame.setCtrlBit _ _ _).trans (frame.setCtrlBit p ctrlDH false)
  | screload | conf | reload _ =>
    cases h
    rfl

theorem programmed_step {e : Event} (quiet : ¬ e.LoadsPrescaler)
    (other : ∀ nr v, e ≠ .busWrite (.reload nr) v) (next : step p e = some q) :
    programmed q = programmed p := by
  cases e with
  | busRead reg =>
    rw [step_busRead] at next
    split at next
    · exact programmed_busRead next
    · exact next ▸ rfl
  | busWrite reg v =>
    rw [step_busWrite] at next
    split at next
    · cases reg with
      | scaler | screload => exact absurd trivial quiet
      | reload nr => exact absurd rfl (other nr v)
      | conf =>
        cases next
        rfl
      | value nr =>
        exact ((threadFrame_programmed nr).valueWrite next).trans
          (programmed_modify _ _ _ fun _ => by rfl)
      | ctrl nr =>
        exact ((threadFrame_programmed nr).ctrlWrite next).trans
          (programmed_modify _ _ _ fun _ => by rfl)
    · exact next ▸ rfl
  | advance t =>
    obtain ⟨-, rfl⟩ := step_advance.mp next
    rfl
  | resume m =>
    obtain ⟨-, ⟨-, next⟩ | ⟨-, -, next⟩⟩ := step_resume.mp next
    · exact (threadFrame_programmed m).tickingRestart (fun chains _ => programmed_chainNext chains) next
    · exact (threadFrame_programmed m).tickingUnderflow next

theorem programmed_recalculate {counters : List ℕ} (h : counters.foldlM calculate p = .ok q) :
    programmed q = programmed p :=
  CounterFrame.recalculate (fun m => (threadFrame_programmed m).toCounterFrame) h

theorem prescaler_load {reg : Reg} {v : BitVec 32} (loads : (Event.busWrite reg v).LoadsPrescaler)
    (next : step p (.busWrite reg v) = some q) :
    q.lasttime = p.now ∧ q.lastvalue = busWrite (lowMask p.sbits) v ∧
      q.screload = (if reg = .screload then busWrite (lowMask p.sbits) v else p.screload) := by
  cases reg with
  | scaler =>
    have loaded := programmed_recalculate (step_busWrite.mp next)
    exact ⟨congrArg Programmed.lasttime loaded, congrArg Programmed.lastvalue loaded,
      congrArg Programmed.screload loaded⟩
  | screload =>
    have loaded := programmed_recalculate (step_busWrite.mp next)
    exact ⟨congrArg Programmed.lasttime loaded, congrArg Programmed.lastvalue loaded,
      congrArg Programmed.screload loaded⟩
  | conf | value _ | reload _ | ctrl _ => exact loads.elim

/-- The prescaler is as it was loaded. -/
structure SamePrescaler (p q : GPTimer) : Prop where
  lasttime : q.lasttime = p.lasttime
  lastvalue : q.lastvalue = p.lastvalue
  screload : q.screload = p.screload

theorem SamePrescaler.trans (h : SamePrescaler p q) (h' : SamePrescaler q u) : SamePrescaler p u :=
  ⟨h'.lasttime.trans h.lasttime, h'.lastvalue.trans h.lastvalue, h'.screload.trans h.screload⟩

theorem samePrescaler_step {e : Event} (quiet : ¬ e.LoadsPrescaler) (next : step p e = some q) :
    SamePrescaler p q := by
  by_cases reload : ∃ nr v, e = .busWrite (.reload nr) v
  · obtain ⟨nr, v, rfl⟩ := reload
    rw [step_busWrite] at next
    split at next
    · cases next
      exact ⟨rfl, rfl, rfl⟩
    · exact next ▸ ⟨rfl, rfl, rfl⟩
  · have kept := programmed_step quiet (fun nr v same => reload ⟨nr, v, same⟩) next
    exact ⟨congrArg Programmed.lasttime kept, congrArg Programmed.lastvalue kept,
      congrArg Programmed.screload kept⟩

theorem samePrescaler_run {events : List Event} (quiet : ∀ e ∈ events, ¬ e.LoadsPrescaler)
    (reached : run step p events = some q) : SamePrescaler p q := by
  have along : Along step (fun _ e => ¬ e.LoadsPrescaler) p events := along_of_forall p quiet
  exact run_preserves (P := SamePrescaler p)
    (fun _ _ _ kept quiet next => kept.trans (samePrescaler_step quiet next)) ⟨rfl, rfl, rfl⟩ along
    reached

/-! ## The scaler register -/

/-- The scaler register `k` cycles after the prescaler was loaded with a value. -/
def scalerShown (screload value k : ℕ) : ℕ :=
  if value + 1 < k + screload then
    if (k + screload - 1 - value) % (screload + 1) = 0 then screload + 1
    else screload - (k + screload - 1 - value) % (screload + 1)
  else screload + 1 - (value + 1 - (k + screload)) % (screload + 1)

/-- A read of the scaler lies in the range of the prescaler, and a cycle later it is one less, or the
reload value after zero. -/
def CountsDown (p : GPTimer) : Prop :=
  ∃ q u, scalerRead p = .ok q ∧ scalerRead { p with now := p.now + 1 } = .ok u ∧
    q.scaler.toNat ≤ p.screload.toNat ∧
    u.scaler.toNat = if q.scaler.toNat = 0 then p.screload.toNat else q.scaler.toNat - 1

/-- The prescaler has counted a written value down to its reload value less one, and it is neither in
the last cycle of a period nor in the one after. -/
def MidPeriod (screload value k : ℕ) : Prop :=
  value + 1 < k + screload ∧ (k + screload - 1 - value) % (screload + 1) ≠ 0 ∧
    (k + screload - 1 - value) % (screload + 1) ≠ screload

instance (screload value k : ℕ) : Decidable (MidPeriod screload value k) :=
  inferInstanceAs (Decidable (_ ∧ _ ∧ _))

theorem scalerRead_shown (short : p.screload.toNat + 1 < 2 ^ 32) (later : p.lasttime < p.now) :
    ∃ q, scalerRead p = .ok q ∧ q.scaler.toNat =
      scalerShown p.screload.toNat p.lastvalue.toNat (p.now - p.lasttime) := by
  have sum : reloadOf p = (p.screload.toNat : ℤ) + 1 := reloadOf_eq (n := 0) short
  have valueNow : valueof p p.now 0 1 =
      .ok ((p.lastvalue.toNat + 2 : ℤ) - (p.now - p.lasttime : ℕ)) := by
    rw [valueof_eq (n := 0) (by omega)]
    congr 1
    simp only [Setting.prescaler, setting]
    omega
  rw [scalerRead, sum, valueNow, ok_bind, remainder_eq (by omega), ok_bind]
  generalize p.now - p.lasttime = k
  generalize p.screload.toNat = screload at short ⊢
  generalize p.lastvalue.toNat = value
  have moved : (value + 2 : ℤ) - k - (screload + 1) = (value + 1 : ℕ) - (k + screload : ℕ) := by
    omega
  rw [moved, scalerShown]
  by_cases below : value + 1 < k + screload
  · have rest : (k + screload - (value + 1)) % (screload + 1) < screload + 1 :=
      Nat.mod_lt _ (Nat.succ_pos screload)
    have remainder : ((value + 1 : ℕ) - (k + screload : ℕ) : ℤ).tmod (screload + 1) =
        -((k + screload - (value + 1)) % (screload + 1) : ℕ) := tmod_sub_of_lt below
    have count : k + screload - 1 - value = k + screload - (value + 1) := by omega
    rw [remainder, if_pos below, count]
    by_cases whole : (k + screload - (value + 1)) % (screload + 1) = 0
    · rw [if_neg (by omega), if_pos whole, whole]
      exact ⟨_, rfl, toNat_ofInt_natCast (by omega)⟩
    · rw [if_pos (by omega), if_neg whole]
      have shown : (screload + 1 : ℤ) + -((k + screload - (value + 1)) % (screload + 1) : ℕ) - 1 =
          (screload - (k + screload - (value + 1)) % (screload + 1) : ℕ) := by omega
      rw [shown]
      exact ⟨_, rfl, toNat_ofInt_natCast (by omega)⟩
  · have rest : (value + 1 - (k + screload)) % (screload + 1) < screload + 1 :=
      Nat.mod_lt _ (Nat.succ_pos screload)
    have remainder : ((value + 1 : ℕ) - (k + screload : ℕ) : ℤ).tmod (screload + 1) =
        ((value + 1 - (k + screload)) % (screload + 1) : ℕ) := tmod_sub_of_le (Nat.le_of_not_lt below)
    have shown : (screload + 1 : ℤ) - ((value + 1 - (k + screload)) % (screload + 1) : ℕ) =
        (screload + 1 - (value + 1 - (k + screload)) % (screload + 1) : ℕ) := by omega
    rw [remainder, if_neg below, if_neg (by omega), shown]
    exact ⟨_, rfl, toNat_ofInt_natCast (by omega)⟩

/-- Mid-period is where the shown values count down. -/
theorem scalerShown_counts_iff (screload value k : ℕ) :
    (scalerShown screload value k ≤ screload ∧ scalerShown screload value (k + 1) =
      if scalerShown screload value k = 0 then screload else scalerShown screload value k - 1) ↔
      MidPeriod screload value k := by
  rw [MidPeriod, scalerShown, scalerShown]
  by_cases below : value + 1 < k + screload
  · obtain ⟨e, count⟩ : ∃ e, k + screload - 1 - value = e := ⟨_, rfl⟩
    have next : k + 1 + screload - 1 - value = e + 1 := by omega
    have before : e % (screload + 1) = if (e + 1) % (screload + 1) = 0 then screload
        else (e + 1) % (screload + 1) - 1 := sub_one_mod (Nat.succ_pos e)
    have rest : e % (screload + 1) < screload + 1 := Nat.mod_lt _ (Nat.succ_pos screload)
    have rest' : (e + 1) % (screload + 1) < screload + 1 := Nat.mod_lt _ (Nat.succ_pos screload)
    rw [if_pos below, if_pos (show value + 1 < k + 1 + screload by omega), count, next]
    generalize e % (screload + 1) = r at *
    generalize (e + 1) % (screload + 1) = r' at *
    split_ifs at * <;> omega
  · -- a value that is still above the reload value counts up
    refine iff_of_false ?_ fun mid => below mid.1
    rintro ⟨inside, next⟩
    obtain ⟨f, count⟩ : ∃ f, value + 1 - (k + screload) = f := ⟨_, rfl⟩
    have rest : f % (screload + 1) < screload + 1 := Nat.mod_lt _ (Nat.succ_pos screload)
    rw [if_neg below, count] at inside next
    have nonzero : f % (screload + 1) ≠ 0 := by omega
    have pos : 0 < f := by
      by_contra zero
      rw [Nat.eq_zero_of_not_pos zero] at nonzero
      exact nonzero (Nat.zero_mod _)
    have after : value + 1 - (k + 1 + screload) = f - 1 := by omega
    rw [if_neg (show ¬ value + 1 < k + 1 + screload by omega), after, sub_one_mod pos,
      if_neg nonzero, if_neg (by omega)] at next
    omega

/-- A number of cycles after a write to the scaler or its reload value, without another one since, the
scaler counts down exactly when it is mid-period. -/
theorem scaler_counts_iff {reg : Reg} {v : BitVec 32} {events : List Event}
    (loads : (Event.busWrite reg v).LoadsPrescaler) (written : step p (.busWrite reg v) = some q)
    (quiet : ∀ e ∈ events, ¬ e.LoadsPrescaler) (reached : run step q events = some u)
    (later : p.now < u.now) (short : u.screload.toNat + 1 < 2 ^ 32) :
    CountsDown u ↔ MidPeriod
      (if reg = .screload then busWrite (lowMask p.sbits) v else p.screload).toNat
      (busWrite (lowMask p.sbits) v).toNat (u.now - p.now) := by
  obtain ⟨lasttime, lastvalue, screload⟩ := prescaler_load loads written
  have kept := samePrescaler_run quiet reached
  have time : u.lasttime = p.now := kept.lasttime.trans lasttime
  have value : u.lastvalue = busWrite (lowMask p.sbits) v := kept.lastvalue.trans lastvalue
  have reload := kept.screload.trans screload
  rw [← reload, ← value, ← scalerShown_counts_iff]
  obtain ⟨r, here, shown⟩ := scalerRead_shown (p := u) short (by omega)
  obtain ⟨r', next, shown'⟩ := scalerRead_shown (p := { u with now := u.now + 1 }) short
    (show u.lasttime < u.now + 1 by omega)
  have cycle : u.now + 1 - u.lasttime = u.now - p.now + 1 := by omega
  change r'.scaler.toNat =
    scalerShown u.screload.toNat u.lastvalue.toNat (u.now + 1 - u.lasttime) at shown'
  rw [cycle] at shown'
  rw [time] at shown
  rw [← shown, ← shown']
  constructor
  · rintro ⟨s, s', read, read', both⟩
    obtain rfl := Except.ok.inj (here.symm.trans read)
    obtain rfl := Except.ok.inj (next.symm.trans read')
    exact both
  · exact fun both => ⟨r, r', here, next, both⟩

/-- The unit at time 5, and the value 9 written to the reload value of the prescaler. -/
def beforeLoad : GPTimer := { oneCounter with now := 5 }

def loadNine : Event := .busWrite .screload 9

/-- Three cycles after the load. -/
theorem scaler_counts_after_load :
    ∃ q u, step beforeLoad loadNine = some q ∧ run step q [.advance 8] = some u ∧
      (CountsDown u ↔ MidPeriod 9 9 3) := by
  obtain ⟨q, u, written, reached, later, short, now⟩ : ∃ q u, step beforeLoad loadNine = some q ∧
      run step q [.advance 8] = some u ∧ beforeLoad.now < u.now ∧ u.screload.toNat + 1 < 2 ^ 32 ∧
      u.now = 8 := ⟨_, _, rfl, rfl, by decide, by decide, rfl⟩
  have counts := scaler_counts_iff (show loadNine.LoadsPrescaler from trivial) written
    (by decide) reached later short
  rw [now] at counts
  exact ⟨q, u, written, reached, counts⟩

/-- One cycle after the load the scaler shows one more than its reload value. -/
theorem scaler_above_reload :
    ¬ ∀ (p q u : GPTimer) (reg : Reg) (v : BitVec 32) (events : List Event),
      (Event.busWrite reg v).LoadsPrescaler → step p (.busWrite reg v) = some q →
      (∀ e ∈ events, ¬ e.LoadsPrescaler) → run step q events = some u → p.now < u.now →
      u.screload.toNat + 1 < 2 ^ 32 → CountsDown u := by
  intro claim
  obtain ⟨r, -, read, -, inside, -⟩ := claim beforeLoad _ _ .screload 9 [.advance 6] trivial rfl
    (by decide) rfl (by decide) (by decide)
  obtain rfl := Except.ok.inj read
  exact absurd inside (by decide)

end Socrocket.Gptimer
