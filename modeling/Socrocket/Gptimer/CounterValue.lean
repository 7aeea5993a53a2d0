/- Socrocket/Gptimer/CounterValue
   digest: The ticks of the prescaler, and what the value register of a running counter shows after them. -/

import Socrocket.Gptimer.Faults
import Socrocket.Gptimer.Period

set_option autoImplicit false
set_option relaxedAutoImplicit false

namespace Socrocket.Gptimer

open Socrocket.Base.Countdown
open Socrocket.Base.Fallible
open Socrocket.Base.Run
open Socrocket.Core.SrRegister

/-- The value of a counter `n` ticks after it had the value `last`. Below zero it starts again from the
reload value or stays at its greatest value. -/
def countedDown (nbits last reload : ℕ) (restarts : Bool) (n : ℕ) : ℕ :=
  if n ≤ last then last - n
  else if restarts then reload - (n - last - 1) % (reload + 1)
  else 2 ^ nbits - 1

/-- A counter that runs unchained. -/
structure Counting (p : GPTimer) (nr : ℕ) : Prop where
  present : nr < p.ntimers
  sbits_pos : 1 ≤ p.sbits
  sbits_le : p.sbits ≤ 32
  nbits_pos : 1 ≤ p.nbits
  nbits_le : p.nbits ≤ 32
  running : (p.counter nr).stopped = false
  unchained : p.ctrlBit nr ctrlCH = false
  last_lt : (p.counter nr).lastvalue.toNat < 2 ^ p.nbits
  reload_lt : (p.counter nr).reload.toNat < 2 ^ p.nbits

instance (p : GPTimer) (nr : ℕ) : Decidable (Counting p nr) :=
  decidable_of_iff (nr < p.ntimers ∧ (1 ≤ p.sbits ∧ p.sbits ≤ 32) ∧ (1 ≤ p.nbits ∧ p.nbits ≤ 32) ∧
      (p.counter nr).stopped = false ∧ p.ctrlBit nr ctrlCH = false ∧
      (p.counter nr).lastvalue.toNat < 2 ^ p.nbits ∧ (p.counter nr).reload.toNat < 2 ^ p.nbits)
    ⟨fun ⟨present, ⟨s, s'⟩, ⟨b, b'⟩, running, unchained, last, reload⟩ =>
      ⟨present, s, s', b, b', running, unchained, last, reload⟩,
    fun ⟨present, s, s', b, b', running, unchained, last, reload⟩ =>
      ⟨present, ⟨s, s'⟩, ⟨b, b'⟩, running, unchained, last, reload⟩⟩

/-! ## The ticks of the prescaler -/

/-- Cycles that the prescaler has counted down at a time. A load shows in the cycle after it. -/
def cyclesBy (p : GPTimer) (t : ℕ) : ℕ := t - (p.lasttime + 1)

/-- Prescaler ticks up to a time, counted cycle by cycle from the last load on. -/
def ticksBy (p : GPTimer) (t : ℕ) : ℕ :=
  crossings p.lastvalue.toNat p.screload.toNat (cyclesBy p t)

/-- Prescaler ticks since the last value of a counter that came `late` cycles ago or before. A tick
reaches counter `nr` after `nr + 2` cycles. -/
def ticksSince (p : GPTimer) (nr late : ℕ) : ℕ :=
  ticksBy p (p.now - late) - ticksBy p (p.counter nr).lasttime

/-- By how much the unit counts more ticks. -/
def excess (p : GPTimer) (nr late : ℕ) : ℤ :=
  miscounted p.lastvalue.toNat p.screload.toNat (cyclesBy p (p.counter nr).lasttime)
    (cyclesBy p (p.now - (nr + 2))) + ticksSince p nr (nr + 2) - ticksSince p nr late

/-- The prescaler was loaded before the last value, and long enough ago for a tick to arrive. -/
structure Timely (p : GPTimer) (nr : ℕ) : Prop where
  loaded : p.lasttime < (p.counter nr).lasttime
  elapsed : p.lasttime + nr + 3 ≤ p.now

instance (p : GPTimer) (nr : ℕ) : Decidable (Timely p nr) :=
  decidable_of_iff (p.lasttime < (p.counter nr).lasttime ∧ p.lasttime + nr + 3 ≤ p.now)
    ⟨fun h => ⟨h.1, h.2⟩, fun h => ⟨h.loaded, h.elapsed⟩⟩

/-- A read of the value register shows the counter, in its width. -/
def ShowsCount (p : GPTimer) (nr n : ℕ) : Prop :=
  ∃ q, step p (.busRead (.value nr)) = some q ∧
    (q.counter nr).value.toNat < 2 ^ p.nbits ∧
    (q.counter nr).value.toNat = countedDown p.nbits (p.counter nr).lastvalue.toNat
      (p.counter nr).reload.toNat (p.ctrlBit nr ctrlRS) n

/-- What `n` ticks make of a value when `m` more are counted. Where the counter restarts, or both
counts are above zero, the two differ by whole periods and the value is in the range of the reload
value; otherwise the values have to meet at the borders. -/
def Agrees (sbits nbits last reload : ℕ) (restarts : Bool) (n : ℕ) (m : ℤ) : Prop :=
  if restarts ∨ n ≤ last ∧ n + m ≤ last then
    (reload + 1 : ℤ) ∣ m ∧ (n ≤ last → last - n ≤ reload)
  else if n + m ≤ last then n + m = 0 ∧ last = reload ∧ reload = 2 ^ nbits - 1
  else if n ≤ last then
    if (reload + 1 : ℤ) ∣ n + m - last then last - n = 0 else last - n = 2 ^ sbits - 1
  else sbits = nbits ∧ ¬ (reload + 1 : ℤ) ∣ n + m - last

instance (sbits nbits last reload : ℕ) (restarts : Bool) (n : ℕ) (m : ℤ) :
    Decidable (Agrees sbits nbits last reload restarts n m) :=
  inferInstanceAs (Decidable (ite _ _ _))

/-- The times are in order, the prescaler can divide, and the ticks counted in excess do not show. -/
def ShownRight (p : GPTimer) (nr late : ℕ) : Prop :=
  Timely p nr ∧ p.screload.toNat ≠ 2 ^ 32 - 1 ∧
    Agrees p.sbits p.nbits (p.counter nr).lastvalue.toNat (p.counter nr).reload.toNat
      (p.ctrlBit nr ctrlRS) (ticksSince p nr late) (excess p nr late)

instance (p : GPTimer) (nr late : ℕ) : Decidable (ShownRight p nr late) :=
  inferInstanceAs (Decidable (_ ∧ _))

variable {p q : GPTimer} {nr n c late : ℕ}

theorem countedDown_lt {nbits last reload : ℕ} (restarts : Bool) (last_lt : last < 2 ^ nbits)
    (reload_lt : reload < 2 ^ nbits) (n : ℕ) :
    countedDown nbits last reload restarts n < 2 ^ nbits := by
  rw [countedDown]
  split_ifs <;> omega

theorem toNat_ofInt_natCast {v : ℕ} (small : v < 2 ^ 32) : (BitVec.ofInt 32 (v : ℤ)).toNat = v := by
  rw [toNat_ofInt_of_lt (Int.natCast_nonneg v) (by omega), Int.toNat_natCast]

theorem dticks_eq (counting : Counting p nr) (timely : Timely p nr)
    (fits : p.screload.toNat ≠ 2 ^ 32 - 1) (late : ℕ) :
    dticks p nr = .ok (ticksSince p nr late + excess p nr late) := by
  have short : p.screload.toNat + 1 < 2 ^ 32 := by
    have := p.screload.isLt
    omega
  have loaded := timely.loaded
  have elapsed := timely.elapsed
  have start : (setting p nr).prescaler (p.counter nr).lasttime 0 =
      (p.lastvalue.toNat : ℤ) + 1 - cyclesBy p (p.counter nr).lasttime := by
    simp only [Setting.prescaler, setting, cyclesBy]
    omega
  have arrived : (setting p nr).prescaler p.now (nr + 2) =
      (p.lastvalue.toNat : ℤ) + 1 - cyclesBy p (p.now - (nr + 2)) := by
    simp only [Setting.prescaler, setting, cyclesBy]
    omega
  have cycle : (setting p nr).cycle = (p.screload.toNat : ℤ) + 1 := rfl
  rw [dticks, if_neg (by simp [counting.unchained]),
    numberofticksbetween_eq (n := nr) short (by omega) (by omega), start, arrived, cycle,
    wraps_eq_crossings, excess]
  congr 1
  simp only [ticksSince, ticksBy]
  omega

theorem dticks_nonneg {ticks : ℤ} (unchained : p.ctrlBit nr ctrlCH = false)
    (counted : dticks p nr = .ok ticks) : 0 ≤ ticks := by
  rw [dticks, if_neg (by simp [unchained])] at counted
  obtain ⟨valA, -, counted⟩ := bind_eq_ok.mp counted
  obtain ⟨valB, -, counted⟩ := bind_eq_ok.mp counted
  obtain ⟨numA, -, counted⟩ := bind_eq_ok.mp counted
  obtain ⟨numB, -, counted⟩ := bind_eq_ok.mp counted
  cases counted
  exact abs_nonneg _

theorem dticks_of_greatest (unchained : p.ctrlBit nr ctrlCH = false)
    (greatest : p.screload.toNat = 2 ^ 32 - 1) : dticks p nr = .error .divisionByZero := by
  have zero : reloadOf p = 0 := reloadOf_eq_zero_iff.mpr greatest
  rw [dticks, if_neg (by simp [unchained]), numberofticksbetween, valueof, valueof,
    if_neg one_ne_zero, if_neg one_ne_zero, ok_bind, ok_bind, zero]
  rfl

theorem valueRead_ticks (counting : Counting p nr) (counted : dticks p nr = .ok (c : ℤ)) :
    ∃ q, valueRead p nr = .ok q ∧ (q.counter nr).value.toNat =
      if c ≤ (p.counter nr).lastvalue.toNat then
        ((p.counter nr).lastvalue.toNat - c) % ((p.counter nr).reload.toNat + 1)
      else if (c - (p.counter nr).lastvalue.toNat) % ((p.counter nr).reload.toNat + 1) = 0 then 0
      else if p.ctrlBit nr ctrlRS then (p.counter nr).reload.toNat + 1 -
        (c - (p.counter nr).lastvalue.toNat) % ((p.counter nr).reload.toNat + 1)
      else 2 ^ p.sbits - 1 := by
  have width : (p.counter nr).reload.toNat < 2 ^ 32 := (p.counter nr).reload.isLt
  have scaler : 2 ^ p.sbits ≤ 2 ^ 32 := Nat.pow_le_pow_right (by decide) counting.sbits_le
  rw [valueRead, if_neg (by simp [counting.running]), counted, ok_bind, remainder_eq (by omega),
    ok_bind]
  generalize (p.counter nr).reload.toNat = reload at width ⊢
  generalize (p.counter nr).lastvalue.toNat = last
  by_cases above : c ≤ last
  · have rest : (last - c) % (reload + 1) < reload + 1 := Nat.mod_lt _ (Nat.succ_pos reload)
    have value : ((last : ℤ) - c).tmod (reload + 1) = ((last - c) % (reload + 1) : ℕ) :=
      tmod_sub_of_le above
    rw [value, if_neg (by omega), if_neg (by omega), if_pos above]
    refine ⟨_, rfl, ?_⟩
    rw [GPTimer.modify_counter_self]
    exact toNat_ofInt_natCast (by omega)
  · have rest : (c - last) % (reload + 1) < reload + 1 := Nat.mod_lt _ (Nat.succ_pos reload)
    have value : ((last : ℤ) - c).tmod (reload + 1) = -((c - last) % (reload + 1) : ℕ) :=
      tmod_sub_of_lt (Nat.lt_of_not_le above)
    rw [value, if_neg above]
    by_cases whole : (c - last) % (reload + 1) = 0
    · rw [if_neg (by omega), if_neg (by omega), if_pos whole]
      refine ⟨_, rfl, ?_⟩
      rw [GPTimer.modify_counter_self, whole]
      rfl
    · rw [if_neg whole]
      by_cases restarts : p.ctrlBit nr ctrlRS = true
      · rw [if_pos ⟨by omega, restarts⟩, if_pos restarts]
        refine ⟨_, rfl, ?_⟩
        rw [GPTimer.modify_counter_self]
        have sum : (reload : ℤ) + 1 + -((c - last) % (reload + 1) : ℕ) =
            (reload + 1 - (c - last) % (reload + 1) : ℕ) := by omega
        rw [sum]
        exact toNat_ofInt_natCast (by omega)
      · rw [if_neg (by tauto), if_pos ⟨by omega, restarts⟩, if_neg restarts]
        refine ⟨_, rfl, ?_⟩
        rw [GPTimer.modify_counter_self, BitVec.toNat_ofNat]
        exact Nat.mod_eq_of_lt (by omega)

/-! ## Ticks counted and ticks there were -/

theorem shown_restarting (last reload c : ℕ) :
    ((if c ≤ last then (last - c) % (reload + 1)
      else if (c - last) % (reload + 1) = 0 then 0
      else reload + 1 - (c - last) % (reload + 1) : ℕ) : ℤ) = ((last : ℤ) - c) % (reload + 1) := by
  have rest : (c - last) % (reload + 1) < reload + 1 := Nat.mod_lt _ (Nat.succ_pos reload)
  rw [← tmod_add_eq_emod (show (0 : ℤ) < reload + 1 by omega)]
  by_cases above : c ≤ last
  · have value : ((last : ℤ) - c).tmod (reload + 1) = ((last - c) % (reload + 1) : ℕ) :=
      tmod_sub_of_le above
    rw [if_pos above, value, if_neg (by omega)]
  · have value : ((last : ℤ) - c).tmod (reload + 1) = -((c - last) % (reload + 1) : ℕ) :=
      tmod_sub_of_lt (Nat.lt_of_not_le above)
    rw [if_neg above, value]
    split_ifs <;> omega

theorem countedDown_restarting {nbits last reload n : ℕ} (below : last < n) :
    (countedDown nbits last reload true n : ℤ) = ((last : ℤ) - n) % (reload + 1) := by
  have rest : (n - last) % (reload + 1) < reload + 1 := Nat.mod_lt _ (Nat.succ_pos reload)
  rw [← shown_restarting, countedDown, if_neg (Nat.not_le_of_lt below),
    if_neg (Nat.not_le_of_lt below), if_pos rfl, sub_one_mod (by omega)]
  split_ifs <;> omega

section Counts

variable {sbits nbits last reload : ℕ} {m : ℤ}

theorem emod_eq_left_iff (counted : (c : ℤ) = n + m) (above : n ≤ last) :
    ((last : ℤ) - c) % (reload + 1) = (last - n : ℕ) ↔
      (reload + 1 : ℤ) ∣ m ∧ (n ≤ last → last - n ≤ reload) := by
  have value : ((last - n : ℕ) : ℤ) = last - n := by omega
  have apart : (last : ℤ) - c = last - n - m := by omega
  rw [value, apart]
  constructor
  · intro same
    have high := Int.emod_lt_of_pos ((last : ℤ) - n - m) (show (0 : ℤ) < reload + 1 by omega)
    refine ⟨?_, fun _ => by omega⟩
    have whole := Int.dvd_self_sub_emod (x := (last : ℤ) - n - m) (m := reload + 1)
    rw [same] at whole
    exact Int.dvd_neg.mp (by convert whole using 1; ring)
  · rintro ⟨⟨k, rfl⟩, inside⟩
    rw [Int.sub_mul_emod_self_left, Int.emod_eq_of_lt (by omega) (by have := inside above; omega)]

/-- What `c` counted ticks show agrees with `n` ticks. -/
theorem shown_iff_agrees (counted : (c : ℤ) = n + m) (nbits_pos : 1 ≤ nbits)
    (last_lt : last < 2 ^ nbits) (reload_lt : reload < 2 ^ nbits) (restarts : Bool) :
    (if c ≤ last then (last - c) % (reload + 1)
      else if (c - last) % (reload + 1) = 0 then 0
      else if restarts then reload + 1 - (c - last) % (reload + 1)
      else 2 ^ sbits - 1) = countedDown nbits last reload restarts n ↔
      Agrees sbits nbits last reload restarts n m := by
  have position : (n : ℤ) + m ≤ last ↔ c ≤ last := by omega
  have two := Nat.pow_le_pow_right (show 0 < 2 by decide) nbits_pos
  simp only [Agrees, position]
  cases restarts with
  | true =>
    simp only [if_true, true_or]
    rw [← Int.natCast_inj, shown_restarting]
    by_cases above : n ≤ last
    · rw [countedDown, if_pos above]
      exact emod_eq_left_iff counted above
    · have apart : (last : ℤ) - c - (last - n) = -m := by omega
      rw [countedDown_restarting (Nat.lt_of_not_le above),
        Int.emod_eq_emod_iff_emod_sub_eq_zero, apart, ← Int.dvd_iff_emod_eq_zero, Int.dvd_neg]
      exact (and_iff_left fun inside => absurd inside above).symm
  | false =>
    simp only [Bool.false_eq_true, if_false, false_or]
    by_cases above : c ≤ last
    · rw [if_pos above]
      by_cases inside : n ≤ last
      · have value : (((last - c) % (reload + 1) : ℕ) : ℤ) = ((last : ℤ) - c) % (reload + 1) := by
          push_cast [Nat.cast_sub above]
          rfl
        rw [countedDown, if_pos inside, if_pos ⟨inside, above⟩, ← Int.natCast_inj, value]
        exact emod_eq_left_iff counted inside
      · have rest : (last - c) % (reload + 1) < reload + 1 := Nat.mod_lt _ (Nat.succ_pos reload)
        have most : (last - c) % (reload + 1) ≤ last - c := Nat.mod_le _ _
        rw [countedDown, if_neg inside, if_neg (show ¬ false = true from nofun),
          if_neg (show ¬(n ≤ last ∧ c ≤ last) from fun both => inside both.1), if_pos above]
        constructor
        · intro same
          omega
        · rintro ⟨none, rfl, widest⟩
          have zero : c = 0 := by omega
          rw [zero, Nat.sub_zero, Nat.mod_eq_of_lt (Nat.lt_succ_self _), widest]
    · have distance : (n : ℤ) + m - last = (c - last : ℕ) := by omega
      have whole : (reload + 1 : ℤ) ∣ n + m - last ↔ (c - last) % (reload + 1) = 0 := by
        rw [distance, ← Nat.dvd_iff_mod_eq_zero]
        exact_mod_cast Int.natCast_dvd_natCast (m := reload + 1)
      rw [if_neg above, if_neg (show ¬(n ≤ last ∧ c ≤ last) from fun both => above both.2),
        if_neg above]
      simp only [whole]
      by_cases inside : n ≤ last
      · rw [countedDown, if_pos inside, if_pos inside]
        split_ifs <;> omega
      · have widths : 2 ^ sbits - 1 = 2 ^ nbits - 1 ↔ sbits = nbits := by
          have small := Nat.one_le_two_pow (n := sbits)
          have same : 2 ^ sbits = 2 ^ nbits ↔ sbits = nbits :=
            (Nat.pow_right_injective (le_refl 2)).eq_iff
          omega
        rw [countedDown, if_neg inside, if_neg inside, if_neg (show ¬ false = true from nofun)]
        by_cases none : (c - last) % (reload + 1) = 0
        · rw [if_pos none]
          exact iff_of_false (by omega) fun both => both.2 none
        · rw [if_neg none, widths]
          exact (and_iff_left none).symm

end Counts

/-- In a counter whose times are in order a read of the value register shows what the ticks of the
prescaler make of its last value exactly when the prescaler can divide and the ticks that are counted
in excess do not show, whatever time the ticks are given to arrive. -/
theorem value_shown_iff (counting : Counting p nr) (late : ℕ) :
    Timely p nr ∧ ShowsCount p nr (ticksSince p nr late) ↔ ShownRight p nr late := by
  have small := countedDown_lt (p.ctrlBit nr ctrlRS) counting.last_lt counting.reload_lt
    (ticksSince p nr late)
  have served : ∀ u, step p (.busRead (.value nr)) = some u ↔ valueRead p nr = .ok u := by
    intro u
    rw [step_busRead, if_pos (show (Reg.value nr).Present p from counting.present)]
    rfl
  refine and_congr_right fun timely => ?_
  by_cases greatest : p.screload.toNat = 2 ^ 32 - 1
  · refine iff_of_false ?_ fun right => right.1 greatest
    rintro ⟨u, read, -⟩
    rw [served, valueRead, if_neg (by simp [counting.running]),
      dticks_of_greatest counting.unchained greatest] at read
    cases read
  · have counts := dticks_eq counting timely greatest late
    obtain ⟨c, counted⟩ : ∃ c : ℕ, (c : ℤ) = ticksSince p nr late + excess p nr late := by
      exact ⟨_, Int.toNat_of_nonneg (dticks_nonneg counting.unchained counts)⟩
    rw [← counted] at counts
    obtain ⟨q, read, value⟩ := valueRead_ticks counting counts
    have shows : ShowsCount p nr (ticksSince p nr late) ↔ (q.counter nr).value.toNat =
        countedDown p.nbits (p.counter nr).lastvalue.toNat (p.counter nr).reload.toNat
          (p.ctrlBit nr ctrlRS) (ticksSince p nr late) := by
      constructor
      · rintro ⟨u, same, -, right⟩
        rw [served, read] at same
        obtain rfl := Except.ok.inj same
        exact right
      · intro right
        exact ⟨q, (served q).mpr read, right ▸ small, right⟩
    rw [shows, value, shown_iff_agrees counted counting.nbits_pos counting.last_lt counting.reload_lt]
    exact (and_iff_right greatest).symm

/-- The counter is started with a reload value and then written. -/
def writeWhileRunning (reload value : BitVec 32) (t : ℕ) : List Event :=
  [.advance 5, .busWrite .screload 9, .busWrite (.reload 0) reload, .advance 14,
    .busWrite (.ctrl 0) 3, .advance 17, .busWrite (.value 0) value, .advance t]

/-- A value of five below the reload value, one tick later. -/
theorem value_shown_after_tick :
    ∃ p, run step oneCounter (writeWhileRunning 7 5 29) = some p ∧ ticksSince p 0 0 = 1 ∧
      (Timely p 0 ∧ ShowsCount p 0 (ticksSince p 0 0) ↔ ShownRight p 0 0) := by
  have found : ((run step oneCounter (writeWhileRunning 7 5 29)).map fun p =>
      decide (Counting p 0 ∧ ticksSince p 0 0 = 1)) = some true := by decide +kernel
  obtain ⟨p, reached, holds⟩ := Option.map_eq_some_iff.mp found
  obtain ⟨counting, once⟩ := of_decide_eq_true holds
  exact ⟨p, reached, once, value_shown_iff counting 0⟩

/-- A value of five above a reload value of three reads as one before the first tick. -/
theorem value_above_reload :
    ¬ ∀ p nr, Counting p nr → ShowsCount p nr (ticksSince p nr 0) := by
  intro claim
  have found : ((run step oneCounter (writeWhileRunning 3 5 19)).map fun p =>
      decide (Counting p 0 ∧ countedDown p.nbits (p.counter 0).lastvalue.toNat
          (p.counter 0).reload.toNat (p.ctrlBit 0 ctrlRS) (ticksSince p 0 0) = 5 ∧
        (step p (.busRead (.value 0))).map (fun q => (q.counter 0).value.toNat) = some 1)) =
          some true := by decide +kernel
  obtain ⟨p, -, holds⟩ := Option.map_eq_some_iff.mp found
  obtain ⟨counting, five, one⟩ := of_decide_eq_true holds
  obtain ⟨q, read, -, shown⟩ := claim p 0 counting
  rw [read] at one
  have value : (q.counter 0).value.toNat = 1 := Option.some.inj one
  rw [shown, five] at value
  exact absurd value (by decide)

end Socrocket.Gptimer
