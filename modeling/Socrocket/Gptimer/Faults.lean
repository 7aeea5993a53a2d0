/- Socrocket/Gptimer/Faults
   digest: Which faults the computations of a counter meet: open chains and a prescaler that divides by zero. -/

import Socrocket.Gptimer.Frame
import Socrocket.Gptimer.Schedule

set_option autoImplicit false
set_option relaxedAutoImplicit false

namespace Socrocket.Gptimer

open Socrocket.Base.Fallible

/-- A counter is chained down to counter 0, and that one too. -/
def OpenChain (p : GPTimer) (nr : ℕ) : Prop := ∀ i ≤ nr, p.ctrlBit i ctrlCH = true

instance (p : GPTimer) (nr : ℕ) : Decidable (OpenChain p nr) :=
  inferInstanceAs (Decidable (∀ i ≤ nr, _))

/-- The counter before, in a ring. -/
def ringBefore (p : GPTimer) (nr : ℕ) : ℕ := if nr = 0 then p.ntimers - 1 else nr - 1

/-- The greatest word, to which `r[SCRELOAD] + 1` wraps to zero. -/
def Greatest (p : GPTimer) : Prop := p.screload.toNat = 2 ^ 32 - 1

instance (p : GPTimer) : Decidable (Greatest p) := inferInstanceAs (Decidable (_ = _))

variable {p q : GPTimer} {nr : ℕ} {e : Fault}

theorem ringBefore_lt (present : nr < p.ntimers) : ringBefore p nr < p.ntimers := by
  rw [ringBefore]
  split <;> omega

theorem element_eq {i : ℕ} (present : i < p.ntimers) : p.element i = .ok i := if_pos present

theorem register_eq {i : ℕ} (present : i < p.ntimers) (field : GPCounter → BitVec 32) :
    p.register i field = .ok (field (p.counter i)) := if_pos present

theorem reloadOf_eq_zero_iff : reloadOf p = 0 ↔ Greatest p := by
  have small := p.screload.isLt
  have sum : reloadOf p = ((p.screload.toNat + 1) % 2 ^ 32 : ℕ) := by
    rw [reloadOf, BitVec.toNat_add]
    rfl
  rw [sum, Greatest]
  omega

theorem openChain_succ : OpenChain p (nr + 1) ↔ p.ctrlBit (nr + 1) ctrlCH = true ∧ OpenChain p nr := by
  constructor
  · exact fun linked => ⟨linked (nr + 1) le_rfl, fun i le => linked i (Nat.le_succ_of_le le)⟩
  · rintro ⟨last, linked⟩ i le
    obtain before | rfl := Nat.le_or_eq_of_le_succ le
    · exact linked i before
    · exact last

/-! ## The cycle time -/

/-- With a call for every counter down to the first the cycle time is found, unless the chain is open:
then the element behind the last one is taken. -/
theorem cycletimeWithin_cases {calls : ℕ} (enough : nr < calls) (present : nr < p.ntimers) :
    (OpenChain p nr ∧ cycletimeWithin p calls nr = .error .noCounter) ∨
      (¬ OpenChain p nr ∧ ∃ t, 0 < t ∧ cycletimeWithin p calls nr = .ok t) := by
  induction nr generalizing calls with
  | zero =>
    obtain ⟨calls, rfl⟩ := Nat.exists_eq_succ_of_ne_zero (Nat.ne_zero_of_lt enough)
    have zero : OpenChain p 0 ↔ p.ctrlBit 0 ctrlCH = true :=
      ⟨fun linked => linked 0 le_rfl, fun last i le => (Nat.le_zero.mp le).symm ▸ last⟩
    rw [zero, cycletimeWithin]
    by_cases chained : p.ctrlBit 0 ctrlCH = true
    · rw [if_pos chained]
      dsimp only
      rw [if_pos rfl, GPTimer.element, if_neg (Nat.lt_irrefl _)]
      exact .inl ⟨chained, rfl⟩
    · rw [if_neg chained]
      exact .inr ⟨chained, _, Nat.succ_pos _, rfl⟩
  | succ nr ih =>
    obtain ⟨calls, rfl⟩ := Nat.exists_eq_succ_of_ne_zero (Nat.ne_zero_of_lt enough)
    have before : nr < p.ntimers := Nat.lt_of_succ_lt present
    rw [openChain_succ, cycletimeWithin]
    by_cases chained : p.ctrlBit (nr + 1) ctrlCH = true
    · rw [if_pos chained]
      dsimp only
      rw [if_neg (Nat.succ_ne_zero nr), Nat.add_one_sub_one, element_eq before, ok_bind,
        register_eq before]
      obtain ⟨linked, failed⟩ | ⟨ends, t, pos, found⟩ := ih (Nat.lt_of_succ_lt_succ enough) before
      · exact .inl ⟨⟨chained, linked⟩, by rw [failed, error_bind]⟩
      · exact .inr ⟨fun both => ends both.2, _, Nat.mul_pos pos (Nat.succ_pos _), by rw [found]; rfl⟩
    · rw [if_neg chained]
      exact .inr ⟨fun both => chained both.1, _, Nat.succ_pos _, rfl⟩

theorem cycletime_cases (present : nr < p.ntimers) :
    (OpenChain p nr ∧ cycletime p nr = .error .noCounter) ∨
      (¬ OpenChain p nr ∧ ∃ t, 0 < t ∧ cycletime p nr = .ok t) :=
  cycletimeWithin_cases present present

theorem cycletime_error_iff (present : nr < p.ntimers) :
    cycletime p nr = .error e ↔ OpenChain p nr ∧ e = .noCounter :=
  eq_error_iff ((cycletime_cases present).imp_right fun ⟨ends, t, _, found⟩ => ⟨ends, t, found⟩)

/-! ## Divisions -/

theorem numberofticksbetween_cases (p : GPTimer) (a b counter : ℕ) {t : ℕ} (pos : 0 < t) :
    (Greatest p ∧ numberofticksbetween p a b counter t = .error .divisionByZero) ∨
      (¬ Greatest p ∧ ∃ ticks, numberofticksbetween p a b counter t = .ok ticks) := by
  rw [numberofticksbetween, valueof, valueof, if_neg pos.ne', if_neg pos.ne', ok_bind, ok_bind, divide,
    divide, ← reloadOf_eq_zero_iff]
  by_cases zero : reloadOf p = 0
  · exact .inl ⟨zero, by rw [if_pos zero]; rfl⟩
  · exact .inr ⟨zero, _, by rw [if_neg zero, if_neg zero]; rfl⟩

theorem scalerRead_cases (p : GPTimer) :
    (Greatest p ∧ scalerRead p = .error .divisionByZero) ∨
    (¬ Greatest p ∧ ∃ q, scalerRead p = .ok q) := by
  rw [scalerRead, valueof, if_neg one_ne_zero, ok_bind, remainder, ← reloadOf_eq_zero_iff]
  by_cases zero : reloadOf p = 0
  · exact .inl ⟨zero, by rw [if_pos zero]; rfl⟩
  · refine .inr ⟨zero, ?_⟩
    rw [if_neg zero, ok_bind]
    split <;> exact ⟨_, rfl⟩

theorem scalerRead_error_iff : scalerRead p = .error e ↔ Greatest p ∧ e = .divisionByZero :=
  eq_error_iff (scalerRead_cases p)

/-! ## A running counter -/

theorem dticks_cases (present : nr < p.ntimers) (few : p.ntimers < 2 ^ 32) :
    (OpenChain p nr ∧ dticks p nr = .error .noCounter) ∨
      (¬ OpenChain p nr ∧ Greatest p ∧ dticks p nr = .error .divisionByZero) ∨
      (¬ OpenChain p nr ∧ ¬ Greatest p ∧ ∃ ticks, dticks p nr = .ok ticks) := by
  rw [dticks]
  by_cases chained : p.ctrlBit nr ctrlCH = true
  · rw [if_pos chained]
    cases nr with
    | zero =>
      have linked : OpenChain p 0 := fun i le => (Nat.le_zero.mp le).symm ▸ chained
      rw [if_pos rfl, GPTimer.element, if_neg (by omega)]
      exact .inl ⟨linked, rfl⟩
    | succ nr =>
      have before : nr < p.ntimers := Nat.lt_of_succ_lt present
      rw [if_neg (Nat.succ_ne_zero nr), Nat.add_one_sub_one, element_eq before, ok_bind, openChain_succ]
      obtain ⟨linked, failed⟩ | ⟨ends, t, pos, found⟩ := cycletime_cases before
      · exact .inl ⟨⟨chained, linked⟩, by rw [failed, error_bind]⟩
      · rw [found, ok_bind]
        have ends' : ¬(p.ctrlBit (nr + 1) ctrlCH = true ∧ OpenChain p nr) := fun both => ends both.2
        obtain ⟨greatest, failed⟩ | ⟨small, counted⟩ :=
          numberofticksbetween_cases p (p.counter (nr + 1)).lasttime p.now 0 pos
        · exact .inr (.inl ⟨ends', greatest, failed⟩)
        · exact .inr (.inr ⟨ends', small, counted⟩)
  · have ends : ¬ OpenChain p nr := fun linked => chained (linked nr le_rfl)
    rw [if_neg chained]
    obtain ⟨greatest, failed⟩ | ⟨small, counted⟩ :=
      numberofticksbetween_cases p (p.counter nr).lasttime p.now (nr + 2) Nat.one_pos
    · exact .inr (.inl ⟨ends, greatest, failed⟩)
    · exact .inr (.inr ⟨ends, small, counted⟩)

theorem valueRead_of_ticks {ticks : ℤ} (running : (p.counter nr).stopped = false)
    (counted : dticks p nr = .ok ticks) : ∃ q, valueRead p nr = .ok q := by
  rw [valueRead, if_neg (by simp [running]), counted, ok_bind, remainder_eq (by omega), ok_bind]
  split_ifs <;> exact ⟨_, rfl⟩

theorem valueRead_error_iff (present : nr < p.ntimers) (few : p.ntimers < 2 ^ 32) :
    valueRead p nr = .error e ↔ (p.counter nr).stopped = false ∧
      (OpenChain p nr ∧ e = .noCounter ∨ ¬ OpenChain p nr ∧ Greatest p ∧ e = .divisionByZero) := by
  by_cases running : (p.counter nr).stopped = false
  · have failing : ∀ {fault}, dticks p nr = .error fault → valueRead p nr = .error fault := by
      intro fault failed
      rw [valueRead, if_neg (by simp [running]), failed]
      rfl
    obtain ⟨linked, failed⟩ | ⟨ends, greatest, failed⟩ | ⟨ends, small, ticks, counted⟩ :=
      dticks_cases present few
    · rw [failing failed, Except.error.injEq]
      exact ⟨fun same => ⟨running, .inl ⟨linked, same.symm⟩⟩,
        fun both => both.2.elim (fun h => h.2.symm) fun h => absurd linked h.1⟩
    · rw [failing failed, Except.error.injEq]
      exact ⟨fun same => ⟨running, .inr ⟨ends, greatest, same.symm⟩⟩,
        fun both => both.2.elim (fun h => absurd h.1 ends) fun h => h.2.2.symm⟩
    · obtain ⟨q, read⟩ := valueRead_of_ticks running counted
      rw [read]
      refine iff_of_false (fun same => ?_) fun both => both.2.elim (fun h => ends h.1) fun h =>
        small h.2.1
      cases same
  · rw [valueRead, if_pos (by simpa using running)]
    refine iff_of_false (fun same => ?_) fun both => running both.1
    cases same

/-! ## The sleep time -/

/-- What the faults depend on: the control registers, the counters that run and the reload value of the
prescaler. -/
structure SameControl (p q : GPTimer) : Prop where
  ntimers : q.ntimers = p.ntimers
  screload : q.screload = p.screload
  stopped : ∀ m, (q.counter m).stopped = (p.counter m).stopped
  ctrl : ∀ m, (q.counter m).ctrl = (p.counter m).ctrl

namespace SameControl

theorem trans {u : GPTimer} (h : SameControl p q) (h' : SameControl q u) : SameControl p u :=
  ⟨h'.ntimers.trans h.ntimers, h'.screload.trans h.screload, fun m =>
    (h'.stopped m).trans (h.stopped m),
    fun m => (h'.ctrl m).trans (h.ctrl m)⟩

theorem modify (p : GPTimer) (m : ℕ) (f : GPCounter → GPCounter)
    (stopped : ∀ c, (f c).stopped = c.stopped) (ctrl : ∀ c, (f c).ctrl = c.ctrl) :
    SameControl p (p.modify m f) := by
  refine ⟨rfl, rfl, fun n => ?_, fun n => ?_⟩
  all_goals
    by_cases own : m = n
    · rw [own, GPTimer.modify_counter_self]
      first | exact stopped _ | exact ctrl _
    · rw [GPTimer.modify_counter_of_ne p own]

theorem bit (h : SameControl p q) (m b : ℕ) : q.ctrlBit m b = p.ctrlBit m b := by
  rw [GPTimer.ctrlBit, GPTimer.ctrlBit, h.ctrl]

theorem openChain (h : SameControl p q) (m : ℕ) : OpenChain q m ↔ OpenChain p m := by
  simp only [OpenChain, h.bit]

theorem greatest (h : SameControl p q) : Greatest q ↔ Greatest p := by
  rw [Greatest, Greatest, h.screload]

theorem readFrame : ReadFrame SameControl where
  refl _ := ⟨rfl, rfl, fun _ => rfl, fun _ => rfl⟩
  trans := trans
  scaler _ _ := ⟨rfl, rfl, fun _ => rfl, fun _ => rfl⟩
  value p m _ := modify p m _ (fun _ => rfl) fun _ => rfl
  outputs _ _ _ := ⟨rfl, rfl, fun _ => rfl, fun _ => rfl⟩

end SameControl

theorem nextzero_error_iff (present : nr < p.ntimers) (few : p.ntimers < 2 ^ 32) :
    nextzero p nr = .error e ↔
      if p.ctrlBit nr ctrlCH then
        OpenChain p (ringBefore p nr) ∧ e = .noCounter ∨ ¬ OpenChain p (ringBefore p nr) ∧
          (p.counter (ringBefore p nr)).stopped = false ∧ Greatest p ∧ e = .divisionByZero
      else Greatest p ∧ e = .divisionByZero := by
  have inside := ringBefore_lt present
  rw [nextzero]
  by_cases chained : p.ctrlBit nr ctrlCH = true
  · rw [if_pos chained, if_pos chained, ← ringBefore, element_eq inside, ok_bind, bind_eq_error,
      valueRead_error_iff inside few]
    constructor
    · rintro (⟨running, ⟨linked, rfl⟩ | ⟨ends, greatest, rfl⟩⟩ | ⟨q, read, failed⟩)
      · exact .inl ⟨linked, rfl⟩
      · exact .inr ⟨ends, running, greatest, rfl⟩
      · have same : SameControl p q := SameControl.readFrame.valueRead read
        have inside' : ringBefore p nr < q.ntimers := same.ntimers.symm ▸ inside
        obtain failed | ⟨t, -, failed⟩ := bind_eq_error.mp failed
        · obtain ⟨linked, rfl⟩ := (cycletime_error_iff inside').mp failed
          exact .inl ⟨(same.openChain _).mp linked, rfl⟩
        · rw [register_eq inside'] at failed
          cases failed
    · rintro (⟨linked, rfl⟩ | ⟨ends, running, greatest, rfl⟩)
      · by_cases running : (p.counter (ringBefore p nr)).stopped = false
        · exact .inl ⟨running, .inl ⟨linked, rfl⟩⟩
        · -- the value of a stopped counter is read, its cycle time is not
          have read : valueRead p (ringBefore p nr) = .ok p := if_pos (by simpa using running)
          have failed := (cycletime_error_iff inside).mpr ⟨linked, rfl⟩
          exact .inr ⟨p, read, by rw [failed, error_bind]⟩
      · exact .inl ⟨running, .inr ⟨ends, greatest, rfl⟩⟩
  · rw [if_neg chained, if_neg chained, ← scalerRead_error_iff, bind_eq_error]
    refine or_iff_left ?_
    rintro ⟨q, -, failed⟩
    cases failed

theorem calculate_error_iff : calculate p nr = .error e ↔
    valueRead (p.modify nr fun c => { c with eWait := none }) nr = .error e ∨
      ∃ q, valueRead (p.modify nr fun c => { c with eWait := none }) nr = .ok q ∧
        q.ctrlBit nr ctrlEN = true ∧ (nextzero q nr = .error e ∨
          ∃ u wait, nextzero q nr = .ok (u, wait) ∧ cycletime u nr = .error e) := by
  rw [calculate, bind_eq_error]
  refine or_congr_right (exists_congr fun q => and_congr_right fun _ => ?_)
  dsimp only
  by_cases enabled : q.ctrlBit nr ctrlEN = true
  · rw [if_pos enabled, and_iff_right enabled, bind_eq_error, Prod.exists]
    refine or_congr_right (exists₂_congr fun u wait => and_congr_right fun _ => ?_)
    rw [bind_eq_error]
    refine or_iff_left ?_
    rintro ⟨cycle, -, failed⟩
    cases failed
  · rw [if_neg enabled]
    refine iff_of_false (fun same => ?_) fun both => enabled both.1
    cases same

end Socrocket.Gptimer
