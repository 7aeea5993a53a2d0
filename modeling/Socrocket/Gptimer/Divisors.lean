/- Socrocket/Gptimer/Divisors
   digest: Where the functions of the timer unit divide by zero, in every state and over every run. -/

import Socrocket.Base.BitField
import Socrocket.Gptimer.Faults

set_option autoImplicit false
set_option relaxedAutoImplicit false

namespace Socrocket.Gptimer

open Socrocket.Base.BitField
open Socrocket.Base.Fallible
open Socrocket.Base.Run
open Socrocket.Core.SrRegister

/-- The generics that the constructor admits. -/
structure Generics where
  ntimers : ℕ
  sbits : ℕ
  nbits : ℕ
  wdogLength : ℕ
  ntimers_range : 0 < ntimers ∧ ntimers < 8
  sbits_range : 0 < sbits ∧ sbits < 33
  nbits_range : 0 < nbits ∧ nbits < 33
  wdogLength_lt : wdogLength < 2 ^ nbits

/-- A unit as the constructor leaves it. -/
structure Created (g : Generics) (p : GPTimer) : Prop where
  ntimers : p.ntimers = g.ntimers
  sbits : p.sbits = g.sbits
  nbits : p.nbits = g.nbits
  wdogLength : p.wdogLength = g.wdogLength
  scaler : p.scaler = lowMask g.sbits
  screload : p.screload = lowMask g.sbits
  stopped : ∀ nr < g.ntimers, (p.counter nr).stopped = true

/-- What divides: a read of the scaler, a read of a value, and the sleep time of a counter. -/
inductive Computation where
  | scaler
  | value (nr : ℕ)
  | sleep (nr : ℕ)

def compute (p : GPTimer) : Computation → Except Fault GPTimer
  | .scaler => scalerRead p
  | .value nr => valueRead p nr
  | .sleep nr => calculate p nr

/-- The computation is one of a counter of the unit. -/
def Computation.Present (p : GPTimer) : Computation → Prop
  | .scaler => True
  | .value nr | .sleep nr => nr < p.ntimers

/-- A value is computed from ticks: of a counter that runs, and whose chain has an end. -/
def Ticks (p : GPTimer) (nr : ℕ) : Prop := (p.counter nr).stopped = false ∧ ¬ OpenChain p nr

/-- The computation comes to a division by the reload value of the prescaler plus one. -/
def Divides (p : GPTimer) : Computation → Prop
  | .scaler => True
  | .value nr => Ticks p nr
  | .sleep nr => Ticks p nr ∨ (p.counter nr).stopped = true ∧ p.ctrlBit nr ctrlEN = true ∧
      (p.ctrlBit nr ctrlCH = true → Ticks p (ringBefore p nr))

/-- A reset of the unit, or an event. -/
inductive Operation where
  | reset
  | event (e : Event)

def operate (p : GPTimer) : Operation → Except Fault GPTimer
  | .reset => dorst p
  | .event e => perform p e

/-- A run goes on where an operation is possible and meets no fault. -/
def operateStep (p : GPTimer) : Operation → Option GPTimer
  | .reset => (dorst p).toOption
  | .event e => step p e

variable {p q : GPTimer} {nr : ℕ}

/-! ## In a state -/

theorem valueRead_divides_iff (present : nr < p.ntimers) (few : p.ntimers < 2 ^ 32) :
    valueRead p nr = .error .divisionByZero ↔ Greatest p ∧ Ticks p nr := by
  rw [valueRead_error_iff present few, Ticks]
  constructor
  · rintro ⟨running, ⟨-, same⟩ | ⟨ends, greatest, -⟩⟩
    · cases same
    · exact ⟨greatest, running, ends⟩
  · exact fun ⟨greatest, running, ends⟩ => ⟨running, .inr ⟨ends, greatest, rfl⟩⟩

theorem nextzero_divides_iff (present : nr < p.ntimers) (few : p.ntimers < 2 ^ 32) :
    nextzero p nr = .error .divisionByZero ↔
      Greatest p ∧ (p.ctrlBit nr ctrlCH = true → Ticks p (ringBefore p nr)) := by
  rw [nextzero_error_iff present few]
  split
  · rename_i chained
    rw [forall_prop_of_true chained, Ticks]
    constructor
    · rintro (⟨-, same⟩ | ⟨ends, running, greatest, -⟩)
      · cases same
      · exact ⟨greatest, running, ends⟩
    · exact fun ⟨greatest, running, ends⟩ => .inr ⟨ends, running, greatest, rfl⟩
  · rename_i unchained
    exact and_congr_right fun _ => iff_of_true rfl fun chained => absurd chained unchained

theorem SameControl.ticks (same : SameControl p q) (m : ℕ) : Ticks q m ↔ Ticks p m := by
  rw [Ticks, Ticks, same.stopped, same.openChain]

theorem calculate_divides_iff (present : nr < p.ntimers) (few : p.ntimers < 2 ^ 32) :
    calculate p nr = .error .divisionByZero ↔ Greatest p ∧ Divides p (.sleep nr) := by
  have cleared : SameControl p (p.modify nr fun c => { c with eWait := none }) :=
    .modify p nr _ (fun _ => rfl) fun _ => rfl
  rw [calculate_error_iff]
  generalize (p.modify nr fun c => { c with eWait := none }) = cancelled at cleared ⊢
  have present' : nr < cancelled.ntimers := cleared.ntimers.symm ▸ present
  have few' : cancelled.ntimers < 2 ^ 32 := cleared.ntimers.symm ▸ few
  have around : ringBefore cancelled nr = ringBefore p nr := by
    rw [ringBefore, cleared.ntimers, ringBefore]
  rw [valueRead_divides_iff present' few', Divides, ← cleared.greatest, ← cleared.ticks,
    ← cleared.ticks, ← cleared.stopped, ← cleared.bit, ← cleared.bit, ← around]
  constructor
  · rintro (⟨greatest, ticks⟩ | ⟨read, before, enabled, failed⟩)
    · exact ⟨greatest, .inl ticks⟩
    · have same : SameControl cancelled read := SameControl.readFrame.valueRead before
      have inside : nr < read.ntimers := same.ntimers.symm ▸ present'
      have failing : nextzero read nr = .error .divisionByZero := by
        obtain failed | ⟨u, wait, zero, failed⟩ := failed
        · exact failed
        · have inside' : nr < u.ntimers := (SameControl.readFrame.nextzero zero).ntimers.symm ▸ inside
          cases ((cycletime_error_iff inside').mp failed).2
      obtain ⟨greatest, link⟩ := (nextzero_divides_iff inside (same.ntimers.symm ▸ few')).mp failing
      have around' : ringBefore read nr = ringBefore cancelled nr := by
        rw [ringBefore, same.ntimers, ringBefore]
      rw [same.greatest] at greatest
      rw [same.bit, around', same.ticks] at link
      rw [same.bit] at enabled
      refine ⟨greatest, .inr ⟨Bool.eq_true_of_not_eq_false fun running => ?_, enabled, link⟩⟩
      -- had the counter run, the read of its value would have failed
      have unread : ∃ e, valueRead cancelled nr = .error e := by
        by_cases linked : OpenChain cancelled nr
        · exact ⟨_, (valueRead_error_iff present' few').mpr ⟨running, .inl ⟨linked, rfl⟩⟩⟩
        · exact ⟨_, (valueRead_error_iff present' few').mpr ⟨running, .inr ⟨linked, greatest, rfl⟩⟩⟩
      obtain ⟨e, unread⟩ := unread
      rw [unread] at before
      cases before
  · rintro ⟨greatest, ticks | ⟨stopped, enabled, link⟩⟩
    · exact .inl ⟨greatest, ticks⟩
    · exact .inr ⟨cancelled, if_pos stopped, enabled, .inl ((nextzero_divides_iff present' few').mpr
        ⟨greatest, link⟩)⟩

theorem compute_divides_iff {a : Computation} (present : a.Present p) (few : p.ntimers < 2 ^ 32) :
    compute p a = .error .divisionByZero ↔ Greatest p ∧ Divides p a := by
  cases a with
  | scaler =>
    rw [compute, scalerRead_error_iff, Divides]
    exact and_congr_right fun _ => iff_of_true rfl trivial
  | value nr => exact valueRead_divides_iff present few
  | sleep nr => exact calculate_divides_iff present few

/-! ## Over runs -/

/-- The prescaler has this width. -/
structure Narrow (bits : ℕ) (p : GPTimer) : Prop where
  sbits : p.sbits = bits
  screload : p.screload.toNat < 2 ^ bits

/-- The computation keeps the width of the prescaler and does not divide by zero. -/
def Sound (bits : ℕ) (x : Except Fault GPTimer) : Prop := Meets x (Narrow bits) (· ≠ .divisionByZero)

variable {bits : ℕ} {g : Generics}

theorem toNat_lowMask (fits : bits ≤ 32) : (lowMask bits).toNat = 2 ^ bits - 1 := by
  have small : 2 ^ bits ≤ 2 ^ 32 := Nat.pow_le_pow_right (by decide) fits
  have pos : 0 < 2 ^ bits := Nat.two_pow_pos bits
  rw [lowMask, BitVec.toNat_ofNat]
  exact Nat.mod_eq_of_lt (by omega)

theorem narrow_lowMask (fits : bits ≤ 32) : (lowMask bits).toNat < 2 ^ bits := by
  rw [toNat_lowMask fits]
  exact Nat.sub_lt (Nat.two_pow_pos bits) Nat.one_pos

theorem narrow_busWrite (fits : bits ≤ 32) (v : BitVec 32) :
    (busWrite (lowMask bits) v).toNat < 2 ^ bits := by
  rw [busWrite, lowMask, toNat_and_lowMask v fits]
  exact Nat.mod_lt _ (Nat.two_pow_pos bits)

theorem Narrow.not_greatest (narrow : Narrow bits p) (fits : bits < 32) : ¬ Greatest p := by
  have bound : 2 ^ bits ≤ 2 ^ 31 := Nat.pow_le_pow_right (by decide) (Nat.le_of_lt_succ fits)
  have small := narrow.screload
  rw [Greatest]
  omega

theorem Narrow.modify (narrow : Narrow bits p) (m : ℕ) (f : GPCounter → GPCounter) :
    Narrow bits (p.modify m f) := ⟨narrow.sbits, narrow.screload⟩

theorem Narrow.setScaler (narrow : Narrow bits p) (v : BitVec 32) :
    Narrow bits { p with scaler := v } := ⟨narrow.sbits, narrow.screload⟩

theorem Narrow.congr (narrow : Narrow bits p) (sbits : q.sbits = p.sbits)
    (screload : q.screload = p.screload) : Narrow bits q :=
  ⟨sbits.trans narrow.sbits, screload.symm ▸ narrow.screload⟩

theorem element_sound (p : GPTimer) (i : ℕ) :
    Meets (p.element i) (fun _ => True) (· ≠ .divisionByZero) := by
  rw [GPTimer.element]
  split
  · trivial
  · exact (by decide : Fault.noCounter ≠ .divisionByZero)

theorem register_sound (p : GPTimer) (i : ℕ) (field : GPCounter → BitVec 32) :
    Meets (p.register i field) (fun _ => True) (· ≠ .divisionByZero) := by
  rw [GPTimer.register]
  split
  · trivial
  · exact (by decide : Fault.noRegister ≠ .divisionByZero)

/-- A cycle time is positive, so `valueof` can divide by it. -/
theorem cycletimeWithin_sound (p : GPTimer) (calls nr : ℕ) :
    Meets (cycletimeWithin p calls nr) (0 < ·) (· ≠ .divisionByZero) := by
  induction calls generalizing nr with
  | zero => exact (by decide : Fault.callDepth ≠ .divisionByZero)
  | succ calls ih =>
    rw [cycletimeWithin]
    refine .ite (fun _ => ?_) fun _ => Nat.succ_pos _
    refine (element_sound p _).bind fun before _ => (ih before).bind fun t pos => ?_
    exact (register_sound p _ _).bind fun m _ => Nat.mul_pos pos (Nat.succ_pos _)

theorem cycletime_sound (p : GPTimer) (nr : ℕ) :
    Meets (cycletime p nr) (0 < ·) (· ≠ .divisionByZero) := cycletimeWithin_sound p _ nr

namespace Narrow

section

variable (fits : bits < 32)
include fits

theorem numberofticksbetween_sound (narrow : Narrow bits p) (a b counter : ℕ) {t : ℕ} (pos : 0 < t) :
    Meets (numberofticksbetween p a b counter t) (fun _ => True) (· ≠ .divisionByZero) := by
  obtain ⟨greatest, -⟩ | ⟨-, ticks, counted⟩ := numberofticksbetween_cases p a b counter pos
  · exact absurd greatest (narrow.not_greatest fits)
  · rw [counted]
    trivial

theorem scalerRead (narrow : Narrow bits p) : Sound bits (scalerRead p) := by
  rw [Socrocket.Gptimer.scalerRead, valueof, if_neg one_ne_zero, ok_bind, remainder,
    if_neg (reloadOf_eq_zero_iff.not.mpr (narrow.not_greatest fits)), ok_bind]
  exact .ite (fun _ => narrow.congr rfl rfl) fun _ => narrow.congr rfl rfl

theorem dticks_sound (narrow : Narrow bits p) (nr : ℕ) :
    Meets (dticks p nr) (fun _ => True) (· ≠ .divisionByZero) := by
  rw [dticks]
  refine .ite (fun _ => ?_) fun _ => narrow.numberofticksbetween_sound fits _ _ _ Nat.one_pos
  refine (element_sound p _).bind fun before _ => (cycletime_sound p before).bind fun t pos => ?_
  exact narrow.numberofticksbetween_sound fits _ _ _ pos

theorem valueRead (narrow : Narrow bits p) (nr : ℕ) : Sound bits (valueRead p nr) := by
  rw [Socrocket.Gptimer.valueRead]
  refine .ite (fun _ => narrow) fun _ => ?_
  refine (narrow.dticks_sound fits nr).bind fun ticks _ => ?_
  rw [remainder_eq (by omega), ok_bind]
  split_ifs <;> exact narrow.modify nr _

theorem nextzero_sound (narrow : Narrow bits p) (nr : ℕ) :
    Meets (nextzero p nr) (fun r => Narrow bits r.1) (· ≠ .divisionByZero) := by
  rw [nextzero]
  refine .ite (fun _ => ?_) fun _ => (narrow.scalerRead fits).bind fun q kept => kept
  refine (element_sound p _).bind fun before _ => (narrow.valueRead fits before).bind fun q kept => ?_
  refine (cycletime_sound q before).bind fun t _ => (register_sound q before _).bind fun x _ => ?_
  exact kept

theorem calculate (narrow : Narrow bits p) (nr : ℕ) : Sound bits (calculate p nr) := by
  rw [Socrocket.Gptimer.calculate]
  refine ((narrow.modify nr _).valueRead fits nr).bind fun q kept => .ite (fun _ => ?_) fun _ => kept
  refine (kept.nextzero_sound fits nr).bind fun r kept' => (cycletime_sound r.1 nr).bind fun t _ => ?_
  exact kept'.modify nr _

theorem start (narrow : Narrow bits p) (nr : ℕ) : Sound bits (start p nr) := by
  rw [Socrocket.Gptimer.start]
  refine .ite (fun _ => ?_) fun _ => narrow
  exact ((narrow.modify nr _).calculate fits nr).map fun q kept => kept.modify nr _

theorem stop (narrow : Narrow bits p) (nr : ℕ) : Sound bits (stop p nr) := by
  rw [Socrocket.Gptimer.stop]
  refine .ite (fun _ => narrow) fun _ => ?_
  exact ((narrow.modify nr _).valueRead fits nr).map fun q kept => kept.modify nr _

theorem valueWrite (narrow : Narrow bits p) (nr : ℕ) : Sound bits (valueWrite p nr) := by
  rw [Socrocket.Gptimer.valueWrite]
  exact .ite (fun _ => narrow.modify nr _) fun _ => (narrow.modify nr _).calculate fits nr

theorem ctrlWriteChain (narrow : Narrow bits p) (nr : ℕ) : Sound bits (ctrlWriteChain p nr) := by
  rw [Socrocket.Gptimer.ctrlWriteChain]
  exact .ite (fun _ => (narrow.modify nr _).stop fits nr) fun _ => narrow

theorem ctrlWriteLoad (narrow : Narrow bits p) (nr : ℕ) : Sound bits (ctrlWriteLoad p nr) := by
  rw [Socrocket.Gptimer.ctrlWriteLoad]
  refine .ite (fun _ => ?_) fun _ => narrow
  exact ((narrow.modify nr _).valueWrite fits nr).map fun q kept => kept.modify nr _

theorem ctrlWriteEnable (narrow : Narrow bits p) (nr : ℕ) : Sound bits (ctrlWriteEnable p nr) := by
  rw [Socrocket.Gptimer.ctrlWriteEnable]
  exact .ite (fun _ => narrow.start fits nr) fun _ => .ite (fun _ => narrow.stop fits nr) fun _ =>
    narrow

theorem ctrlWrite (narrow : Narrow bits p) (nr : ℕ) : Sound bits (ctrlWrite p nr) := by
  refine Meets.bind (((narrow.modify nr _).modify nr _).ctrlWriteChain fits nr) fun q chained => ?_
  exact (chained.ctrlWriteLoad fits nr).bind fun u loaded => loaded.ctrlWriteEnable fits nr

theorem scalerWrite (narrow : Narrow bits p) : Sound bits (scalerWrite p) :=
  Meets.foldlM _ (narrow.congr rfl rfl) fun nr _ _ kept => kept.calculate fits nr

theorem armWdog (narrow : Narrow bits p) : Sound bits (armWdog p) := by
  rw [Socrocket.Gptimer.armWdog]
  exact .ite (fun _ => narrow) fun _ => (narrow.modify _ _).ctrlWrite fits _

theorem dorst (narrow : Narrow bits p) : Sound bits (dorst p) := by
  have reset : Narrow bits { p with
      scaler := lowMask p.sbits, screload := lowMask p.sbits, conf := p.confDefaults, lastvalue := 0,
      wdog := false, lasttime := p.now } := by
    refine ⟨narrow.sbits, ?_⟩
    dsimp only
    rw [narrow.sbits]
    exact narrow_lowMask fits.le
  refine (reset.scalerWrite fits).bind fun q written => (written.scalerRead fits).bind fun u read => ?_
  refine Narrow.armWdog fits ?_
  induction List.range u.ntimers generalizing u with
  | nil => exact read
  | cons nr counters ih => exact ih _ (read.modify nr _)

theorem raiseIrq (narrow : Narrow bits p) (nr : ℕ) : Sound bits (raiseIrq p nr) := by
  rw [Socrocket.Gptimer.raiseIrq]
  refine .ite (fun _ => ?_) fun _ => narrow
  exact (narrow.valueRead fits nr).map fun _ kept => kept.congr rfl rfl

omit fits in
theorem driveWdog (narrow : Narrow bits p) (nr : ℕ) (level : Bool) :
    Narrow bits (driveWdog p nr level) := by
  rw [Socrocket.Gptimer.driveWdog]
  split <;> exact narrow.congr rfl rfl

omit fits in
theorem lowerIrq (narrow : Narrow bits p) (nr : ℕ) : Narrow bits (lowerIrq p nr) := by
  rw [Socrocket.Gptimer.lowerIrq]
  split <;> exact narrow.congr rfl rfl

theorem chainNext (narrow : Narrow bits p) (nr : ℕ) : Sound bits (chainNext p nr) := by
  rw [Socrocket.Gptimer.chainNext]
  exact .ite (fun _ => (narrow.modify _ _).start fits _) fun _ => narrow

theorem tickingUnderflow (narrow : Narrow bits p) (nr : ℕ) : Sound bits (tickingUnderflow p nr) :=
  ((narrow.modify nr _).raiseIrq fits nr).map fun _ kept => (kept.driveWdog nr true).modify nr _

theorem tickingRestart (narrow : Narrow bits p) (nr : ℕ) : Sound bits (tickingRestart p nr) := by
  refine Meets.bind (((narrow.lowerIrq nr).driveWdog nr false).chainNext fits nr) fun q chained => ?_
  refine Meets.bind (Q := Narrow bits) (.ite (fun _ => chained.modify nr _) fun _ => ?_) fun u kept =>
    (kept.modify nr _).calculate fits nr
  exact (chained.modify nr _).stop fits nr

theorem busRead (narrow : Narrow bits p) (reg : Reg) : Sound bits (busRead p reg) := by
  cases reg with
  | scaler => exact narrow.scalerRead fits
  | screload => exact narrow
  | conf => exact narrow.congr rfl rfl
  | value nr => exact narrow.valueRead fits nr
  | reload nr => exact narrow
  | ctrl nr =>
    have read : Narrow bits (ctrlRead p nr) := by
      rw [ctrlRead, GPTimer.setCtrlBit]
      exact (narrow.modify nr _).modify nr _
    exact read

theorem write (narrow : Narrow bits p) (v : BitVec 32) (reg : Reg) : Sound bits (write p v reg) := by
  cases reg with
  | scaler => exact (narrow.setScaler _).scalerWrite fits
  | screload =>
    have reloaded : Narrow bits
        { p with screload := Core.SrRegister.busWrite (lowMask p.sbits) v } := by
      refine ⟨narrow.sbits, ?_⟩
      dsimp only
      rw [narrow.sbits]
      exact narrow_busWrite fits.le v
    exact (reloaded.setScaler _).scalerWrite fits
  | conf => exact narrow.congr rfl rfl
  | value nr => exact (narrow.modify nr _).valueWrite fits nr
  | reload nr => exact narrow.modify nr _
  | ctrl nr => exact (narrow.modify nr _).ctrlWrite fits nr

theorem perform (narrow : Narrow bits p) (e : Event) : Sound bits (perform p e) := by
  cases e with
  | busRead reg => exact .ite (fun _ => narrow.busRead fits reg) fun _ => narrow
  | busWrite reg v => exact .ite (fun _ => narrow.write fits v reg) fun _ => narrow
  | advance t => exact narrow.congr rfl rfl
  | resume nr =>
    exact .ite (fun _ => narrow.tickingRestart fits nr) fun _ => narrow.tickingUnderflow fits nr

theorem operate (narrow : Narrow bits p) (o : Operation) : Sound bits (operate p o) := by
  cases o with
  | reset => exact narrow.dorst fits
  | event e => exact narrow.perform fits e

theorem compute (narrow : Narrow bits p) (a : Computation) : Sound bits (compute p a) := by
  cases a with
  | scaler => exact narrow.scalerRead fits
  | value nr => exact narrow.valueRead fits nr
  | sleep nr => exact narrow.calculate fits nr

theorem operateStep (narrow : Narrow bits p) (o : Operation) (next : operateStep p o = some q) :
    Narrow bits q := by
  have returned : Socrocket.Gptimer.operate p o = .ok q := by
    cases o with
    | reset => exact toOption_eq_some.mp next
    | event e => exact (step_eq_some.mp next).2
  exact (narrow.operate fits o).of_ok returned

end

end Narrow

theorem Created.narrow (created : Created g p) : Narrow g.sbits p :=
  ⟨created.sbits, created.screload ▸ narrow_lowMask (Nat.le_of_lt_succ g.sbits_range.2)⟩

/-- A unit as it is created. -/
def createdUnit (g : Generics) : GPTimer where
  now := 0
  ntimers := g.ntimers
  sbits := g.sbits
  nbits := g.nbits
  wdogLength := g.wdogLength
  confDefaults := BitVec.ofNat 32 g.ntimers
  scaler := lowMask g.sbits
  screload := lowMask g.sbits
  conf := BitVec.ofNat 32 g.ntimers
  lasttime := 0
  lastvalue := 0
  counter _ := ⟨0, 1, 0, 0, 0, none, true, false, false, 0, none, 0⟩
  irq := (0, false)
  wdog := false
  wrapped _ _ := 0

theorem createdUnit_created (g : Generics) : Created g (createdUnit g) :=
  ⟨rfl, rfl, rfl, rfl, rfl, rfl, fun _ _ => rfl⟩

/-- A computation divides by zero exactly when it comes to a division while the reload value of the
prescaler is the greatest word; and no computation and no operation of a unit does in any run from its
creation exactly when the prescaler has fewer than 32 bits. -/
theorem divisors_nonzero_iff (g : Generics) :
    (∀ p a, p.ntimers = g.ntimers → a.Present p →
      (compute p a ≠ .error .divisionByZero ↔ p.screload.toNat ≠ 2 ^ 32 - 1 ∨ ¬ Divides p a)) ∧
    ((∀ p operations q, Created g p → run operateStep p operations = some q →
      (∀ a, compute q a ≠ .error .divisionByZero) ∧ ∀ o, operate q o ≠ .error .divisionByZero) ↔
        g.sbits < 32) := by
  refine ⟨fun p a same present => ?_, fun right => ?_, fun fits p operations q created reached => ?_⟩
  · have few : p.ntimers < 2 ^ 32 := same ▸ g.ntimers_range.2.trans (by decide)
    rw [ne_eq, compute_divides_iff present few, not_and_or]
    rfl
  · by_contra wide
    have full : g.sbits = 32 := by
      have range := g.sbits_range
      omega
    have greatest : Greatest (createdUnit g) := by
      change (lowMask g.sbits).toNat = 2 ^ 32 - 1
      rw [toNat_lowMask full.le, full]
    have sound := (right _ [] _ (createdUnit_created g) rfl).1 .scaler
    exact sound (scalerRead_error_iff.mpr ⟨greatest, rfl⟩)
  · have narrow : Narrow g.sbits q :=
      run_always (P := Narrow g.sbits) (fun _ o _ kept => kept.operateStep fits o) created.narrow
        reached
    exact ⟨fun a failed => (narrow.compute fits a).of_error failed rfl,
      fun o failed => (narrow.operate fits o).of_error failed rfl⟩

theorem single_range : 0 < 1 ∧ 1 < 8 := by decide

theorem wide_range : 0 < 32 ∧ 32 < 33 := by decide

/-- One counter, with a prescaler and a counter of 32 bits. -/
def wideUnit : Generics :=
  ⟨1, 32, 32, 0, single_range, wide_range, wide_range, Nat.two_pow_pos 32⟩

/-- With a prescaler of 32 bits a read of the scaler divides by zero before anything is written. -/
theorem divisor_zero_wide :
    ¬ ∀ (g : Generics) (p q : GPTimer) (operations : List Operation), Created g p →
      run operateStep p operations = some q → ∀ a, compute q a ≠ .error .divisionByZero := by
  intro claim
  exact claim wideUnit (createdUnit wideUnit) _ [] (createdUnit_created wideUnit) rfl .scaler rfl

end Socrocket.Gptimer
