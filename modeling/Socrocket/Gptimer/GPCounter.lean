/- Socrocket/Gptimer/GPCounter
   digest: The prescaler and the counters of the timer unit, their registers and their threads. -/

import Mathlib.Algebra.Order.Group.Unbundled.Abs
import Mathlib.Algebra.Order.Group.Unbundled.Int
import Socrocket.Base.Fallible
import Socrocket.Base.Run
import Socrocket.Core.SrRegister

set_option autoImplicit false
set_option relaxedAutoImplicit false

namespace Socrocket.Gptimer

open Socrocket.Base.Fallible
open Socrocket.Core.SrRegister

/-- Bit positions of a control register. -/
def ctrlDH : ℕ := 6
def ctrlCH : ℕ := 5
def ctrlIP : ℕ := 4
def ctrlIE : ℕ := 3
def ctrlLD : ℕ := 2
def ctrlRS : ℕ := 1
def ctrlEN : ℕ := 0

/-- Separate interrupts, a bit of the configuration register. -/
def confSI : ℕ := 8

/-- Why a function of the unit does not return. -/
inductive Fault where
  | divisionByZero
  /-- An element of the vector `counter` that does not exist. -/
  | noCounter
  /-- A register that does not exist: the register bank throws `out_of_range`. -/
  | noRegister
  /-- More nested calls than were allowed. -/
  | callDepth
  deriving DecidableEq

/-- A counter with its three registers. Times are whole clock cycles. -/
structure GPCounter where
  value : BitVec 32
  reload : BitVec 32
  ctrl : BitVec 32
  lasttime : ℕ
  lastvalue : BitVec 32
  /-- When `e_wait` is notified, if a notification is pending. -/
  eWait : Option ℕ
  stopped : Bool
  chainRun : Bool
  pirq : Bool
  /-- The variable `irqnr` of the thread. -/
  irqnr : BitVec 32
  /-- Where `ticking` waits: the end of the cycle after an underflow, or none at `e_wait`. -/
  wakes : Option ℕ
  underflows : ℕ

/-- The timer unit at a time `now`. `counter` is read below `ntimers` only. -/
structure GPTimer where
  now : ℕ
  ntimers : ℕ
  sbits : ℕ
  nbits : ℕ
  wdogLength : ℕ
  confDefaults : BitVec 32
  scaler : BitVec 32
  screload : BitVec 32
  conf : BitVec 32
  lasttime : ℕ
  lastvalue : BitVec 32
  counter : ℕ → GPCounter
  irq : BitVec 32 × Bool
  wdog : Bool
  /-- `sc_time` is unsigned and no part of the source. This is how often, as `int64_t`, a cycle time
  goes into what a difference of times wraps to that lies a number of clock cycles below zero. -/
  wrapped : ℕ → ℕ → ℤ

def GPTimer.modify (p : GPTimer) (nr : ℕ) (f : GPCounter → GPCounter) : GPTimer :=
  { p with counter := Function.update p.counter nr (f (p.counter nr)) }

@[simp] theorem GPTimer.modify_counter_self (p : GPTimer) (nr : ℕ) (f : GPCounter → GPCounter) :
    (p.modify nr f).counter nr = f (p.counter nr) := Function.update_self ..

theorem GPTimer.modify_counter_of_ne (p : GPTimer) {nr m : ℕ} (h : m ≠ nr)
    (f : GPCounter → GPCounter) : (p.modify m f).counter nr = p.counter nr :=
  Function.update_of_ne h.symm ..

@[simp] theorem GPTimer.modify_now (p : GPTimer) (nr : ℕ) (f : GPCounter → GPCounter) :
    (p.modify nr f).now = p.now := rfl

def GPTimer.ctrlBit (p : GPTimer) (nr bit : ℕ) : Bool := bitGet (p.counter nr).ctrl bit

def GPTimer.setCtrlBit (p : GPTimer) (nr bit : ℕ) (value : Bool) : GPTimer :=
  p.modify nr fun c => { c with ctrl := bitSet c.ctrl bit value }

/-! ## The prescaler -/

/-- Division and remainder of `int64_t`, which truncate toward zero. -/
def divide (a b : ℤ) : Except Fault ℤ :=
  if b = 0 then .error .divisionByZero else .ok (a.tdiv b)

def remainder (a b : ℤ) : Except Fault ℤ :=
  if b = 0 then .error .divisionByZero else .ok (a.tmod b)

/-- The whole cycle times in `t - lasttime - (1 + offset) * cycletime`. -/
def cyclesSince (p : GPTimer) (t offset cycletime : ℕ) : ℤ :=
  if p.lasttime + (1 + offset) * cycletime ≤ t then
    ((t - p.lasttime - (1 + offset) * cycletime) / cycletime : ℕ)
  else p.wrapped (p.lasttime + (1 + offset) * cycletime - t) cycletime

/-- Prescaler value relative to the current value. -/
def valueof (p : GPTimer) (t offset cycletime : ℕ) : Except Fault ℤ :=
  if cycletime = 0 then .error .divisionByZero
  else .ok (p.lastvalue.toNat - cyclesSince p t offset cycletime + 1)

/-- `r[SCRELOAD] + 1`, a sum of 32 bits. -/
def reloadOf (p : GPTimer) : ℤ := (p.screload + 1).toNat

/-- Number of zero crosses between two prescaler values. -/
def numberofticksbetween (p : GPTimer) (a b counter cycletime : ℕ) : Except Fault ℤ := do
  let valA ← valueof p a 0 cycletime
  let valB ← valueof p b counter cycletime
  let numA ← divide valA (reloadOf p)
  let numB ← divide valB (reloadOf p)
  return |numA + (if 0 < valA ∧ valB < 0 then 1 else 0) - numB|

/-- Update the scaler register before it is read. -/
def scalerRead (p : GPTimer) : Except Fault GPTimer := do
  let valueNow ← valueof p p.now 0 1
  let value ← remainder (valueNow - reloadOf p) (reloadOf p)
  if value < 0 then
    return { p with scaler := BitVec.ofInt 32 (reloadOf p + value - 1) }
  else
    return { p with scaler := BitVec.ofInt 32 (reloadOf p - value) }

/-! ## One counter -/

/-- The element of `counter` with an index. -/
def GPTimer.element (p : GPTimer) (i : ℕ) : Except Fault ℕ :=
  if i < p.ntimers then .ok i else .error .noCounter

/-- A register of the counter with a number. -/
def GPTimer.register (p : GPTimer) (i : ℕ) (field : GPCounter → BitVec 32) :
    Except Fault (BitVec 32) :=
  if i < p.ntimers then .ok (field (p.counter i)) else .error .noRegister

/-- Cycle time of a counter, with a number of nested calls allowed. -/
def cycletimeWithin (p : GPTimer) : (calls nr : ℕ) → Except Fault ℕ
  | 0, _ => .error .callDepth
  | calls + 1, nr =>
    if p.ctrlBit nr ctrlCH then do
      -- counter 0 takes the element and the register behind the last ones
      let before := if nr = 0 then p.ntimers else nr - 1
      let t ← cycletimeWithin p calls (← p.element before)
      let m ← p.register before GPCounter.reload
      return t * (m.toNat + 1)
    else return p.screload.toNat + 1

/-- Cycle time of a counter: no more nested calls than there are counters. -/
def cycletime (p : GPTimer) (nr : ℕ) : Except Fault ℕ := cycletimeWithin p p.ntimers nr

/-- The ticks since `lasttime`, of the counter before or of the prescaler. -/
def dticks (p : GPTimer) (nr : ℕ) : Except Fault ℤ :=
  if p.ctrlBit nr ctrlCH then do
    -- `nr - 1` is unsigned and wraps for counter 0
    let before ← p.element (if nr = 0 then 2 ^ 32 - 1 else nr - 1)
    let t ← cycletime p before
    numberofticksbetween p (p.counter nr).lasttime p.now 0 t
  else numberofticksbetween p (p.counter nr).lasttime p.now (nr + 2) 1

/-- Update the value register before it is read. -/
def valueRead (p : GPTimer) (nr : ℕ) : Except Fault GPTimer :=
  if (p.counter nr).stopped then return p
  else do
    let reload : ℤ := (p.counter nr).reload.toNat + 1
    let ticks ← dticks p nr
    let value ← remainder ((p.counter nr).lastvalue.toNat - ticks) reload
    if value < 0 ∧ p.ctrlBit nr ctrlRS then
      return p.modify nr fun c => { c with value := BitVec.ofInt 32 (reload + value) }
    else if value < 0 ∧ ¬ p.ctrlBit nr ctrlRS then
      return p.modify nr fun c => { c with value := BitVec.ofNat 32 (2 ^ p.sbits - 1) }
    else
      return p.modify nr fun c => { c with value := BitVec.ofInt 32 value }

/-- Time to the end of the next zero hit. -/
def nextzero (p : GPTimer) (nr : ℕ) : Except Fault (GPTimer × ℕ) :=
  if p.ctrlBit nr ctrlCH then do
    let before ← p.element (if nr = 0 then p.ntimers - 1 else nr - 1)
    let q ← valueRead p before
    let t ← cycletime q before
    let x ← q.register before GPCounter.value
    return (q, t * (x.toNat + 2))
  else do
    let q ← scalerRead p
    return (q, q.scaler.toNat + 2)

/-- Recalculate the sleep time and send the notification. -/
def calculate (p : GPTimer) (nr : ℕ) : Except Fault GPTimer := do
  let q ← valueRead (p.modify nr fun c => { c with eWait := none }) nr
  let value := (q.counter nr).value.toNat
  if q.ctrlBit nr ctrlEN then
    let (u, wait) ← nextzero q nr
    let cycle ← cycletime u nr
    return u.modify nr fun c =>
      { c with eWait := some (u.now + (wait + (cycle * value + (nr + 1)))) }
  else return q

/-- Start counting, for example for enable. -/
def start (p : GPTimer) (nr : ℕ) : Except Fault GPTimer :=
  if (p.counter nr).stopped ∧ p.ctrlBit nr ctrlEN ∧
      (¬ p.ctrlBit nr ctrlCH ∨ p.ctrlBit nr ctrlCH ∧ (p.counter nr).chainRun) then
    (calculate (p.modify nr fun c => { c with lasttime := p.now }) nr).map fun q =>
      q.modify nr fun c => { c with stopped := false }
  else return p

/-- Stop counting, for example for disable. -/
def stop (p : GPTimer) (nr : ℕ) : Except Fault GPTimer :=
  if (p.counter nr).stopped then return p
  else (valueRead (p.modify nr fun c => { c with eWait := none }) nr).map fun q =>
    q.modify nr fun c => { c with lastvalue := c.value, lasttime := q.now, stopped := true }

def chaining (p : GPTimer) (nr : ℕ) : Except Fault GPTimer :=
  start (p.modify nr fun c => { c with chainRun := true }) nr

/-! ## Register callbacks -/

def valueWrite (p : GPTimer) (nr : ℕ) : Except Fault GPTimer :=
  let q := p.modify nr fun c => { c with lastvalue := c.value, lasttime := p.now }
  if (q.counter nr).stopped then return q else calculate q nr

def ctrlRead (p : GPTimer) (nr : ℕ) : GPTimer :=
  (p.setCtrlBit nr ctrlDH false).setCtrlBit nr ctrlIP (p.counter nr).pirq

/-- Prepare for chaining. -/
def ctrlWriteChain (p : GPTimer) (nr : ℕ) : Except Fault GPTimer :=
  if p.ctrlBit nr ctrlCH then stop (p.modify nr fun c => { c with chainRun := false }) nr
  else return p

def ctrlWriteLoad (p : GPTimer) (nr : ℕ) : Except Fault GPTimer :=
  if p.ctrlBit nr ctrlLD then
    (valueWrite (p.modify nr fun c => { c with value := c.reload }) nr).map fun q =>
      q.setCtrlBit nr ctrlLD false
  else return p

def ctrlWriteEnable (p : GPTimer) (nr : ℕ) : Except Fault GPTimer :=
  if p.ctrlBit nr ctrlEN ∧ (p.counter nr).stopped then start p nr
  else if ¬ p.ctrlBit nr ctrlEN ∧ ¬ (p.counter nr).stopped then stop p nr
  else return p

def ctrlWrite (p : GPTimer) (nr : ℕ) : Except Fault GPTimer := do
  let q := p.setCtrlBit nr ctrlDH false
  let chained ← ctrlWriteChain (q.modify nr fun c => { c with pirq := bitGet c.ctrl ctrlIP }) nr
  let loaded ← ctrlWriteLoad chained nr
  ctrlWriteEnable loaded nr

def scalerWrite (p : GPTimer) : Except Fault GPTimer :=
  (List.range p.ntimers).foldlM calculate { p with lasttime := p.now, lastvalue := p.scaler }

def screloadWrite (p : GPTimer) : Except Fault GPTimer :=
  scalerWrite { p with scaler := p.screload }

def confRead (p : GPTimer) : GPTimer :=
  { p with conf := (p.conf &&& 0x200) ||| (p.confDefaults &&& 0x1FF) }

def lowMask (bits : ℕ) : BitVec 32 := BitVec.ofNat 32 (2 ^ bits - 1)

/-! ## Reset -/

def doReset (p : GPTimer) (nr : ℕ) : GPTimer :=
  p.modify nr fun c => { c with
    lastvalue := 0
    lasttime := p.now
    value := 0
    reload := 0
    ctrl := 0
    stopped := true
    chainRun := false }

/-- The last counter is armed as the watchdog: enabled, load, interrupt. -/
def armWdog (p : GPTimer) : Except Fault GPTimer :=
  if p.wdogLength = 0 then return p
  else ctrlWrite (p.modify (p.ntimers - 1) fun c =>
    { c with reload := BitVec.ofNat 32 p.wdogLength, ctrl := 0xD }) (p.ntimers - 1)

def dorst (p : GPTimer) : Except Fault GPTimer := do
  let q ← scalerWrite { p with
    scaler := lowMask p.sbits
    screload := lowMask p.sbits
    conf := p.confDefaults
    lastvalue := 0
    wdog := false
    lasttime := p.now }
  let q ← scalerRead q
  armWdog ((List.range q.ntimers).foldl doReset q)

/-! ## The thread of a counter -/

/-- The interrupt line of a counter, its own one where interrupts are separate. -/
def irqLine (conf : BitVec 32) (nr : ℕ) : BitVec 32 :=
  let irqnr := (conf >>> (3 : ℕ)) &&& 0x1F
  if bitGet conf confSI then irqnr + BitVec.ofNat 32 nr else irqnr

def raiseIrq (p : GPTimer) (nr : ℕ) : Except Fault GPTimer :=
  if p.ctrlBit nr ctrlIE then
    (valueRead p nr).map fun q =>
      GPTimer.modify { q with irq := (1#32 <<< irqLine q.conf nr, true) } nr fun c =>
        { c with irqnr := irqLine q.conf nr, pirq := true }
  else return p

/-- The last counter drives the watchdog. -/
def driveWdog (p : GPTimer) (nr : ℕ) (level : Bool) : GPTimer :=
  if p.ntimers - 1 = nr ∧ p.wdogLength ≠ 0 then { p with wdog := level } else p

def lowerIrq (p : GPTimer) (nr : ℕ) : GPTimer :=
  if (p.counter nr).pirq ∧ (p.counter nr).irqnr ≠ 0 then
    { p with irq := (1#32 <<< (p.counter nr).irqnr, false) }
  else p

/-- The counter after this one, in a ring. -/
def nrn (p : GPTimer) (nr : ℕ) : ℕ := if nr + 1 < p.ntimers then nr + 1 else 0

/-- Start the counter that is chained to this one. -/
def chainNext (p : GPTimer) (nr : ℕ) : Except Fault GPTimer :=
  if p.ctrlBit (nrn p nr) ctrlCH then chaining p (nrn p nr) else return p

/-- `ticking` after `e_wait`: count the underflow, raise the interrupt and the watchdog. -/
def tickingUnderflow (p : GPTimer) (nr : ℕ) : Except Fault GPTimer :=
  (raiseIrq (p.modify nr fun c => { c with eWait := none, underflows := c.underflows + 1 }) nr).map
    fun q => (driveWdog q nr true).modify nr fun c => { c with wakes := some (q.now + 1) }

/-- `ticking` one cycle later: lower the outputs, chain the next counter, restart or stop. -/
def tickingRestart (p : GPTimer) (nr : ℕ) : Except Fault GPTimer := do
  let q ← chainNext (driveWdog (lowerIrq p nr) nr false) nr
  -- Enable value becomes restart value
  let q := q.setCtrlBit nr ctrlEN (q.ctrlBit nr ctrlRS)
  let u ← (if q.ctrlBit nr ctrlRS then return q else stop q nr)
  calculate (u.modify nr fun c => { c with wakes := none }) nr

/-! ## Runs -/

inductive Reg where
  | scaler
  | screload
  | conf
  | value (nr : ℕ)
  | reload (nr : ℕ)
  | ctrl (nr : ℕ)
  deriving DecidableEq

/-- A bus access, time that passes, or the thread of a counter that continues. -/
inductive Event where
  | busRead (reg : Reg)
  | busWrite (reg : Reg) (v : BitVec 32)
  | advance (t : ℕ)
  | resume (nr : ℕ)
  deriving DecidableEq

def Event.IsWrite : Event → Prop
  | .busWrite _ _ => True
  | _ => False

instance : DecidablePred Event.IsWrite
  | .busWrite _ _ => isTrue trivial
  | .busRead _ | .advance _ | .resume _ => isFalse id

/-- The registers of the unit: an access elsewhere finds none. -/
def Reg.Present (p : GPTimer) : Reg → Prop
  | .value nr | .reload nr | .ctrl nr => nr < p.ntimers
  | .scaler | .screload | .conf => True

instance (p : GPTimer) : DecidablePred (Reg.Present p)
  | .value _ | .reload _ | .ctrl _ => inferInstanceAs (Decidable (_ < _))
  | .scaler | .screload | .conf => isTrue trivial

def busRead (p : GPTimer) : Reg → Except Fault GPTimer
  | .scaler => scalerRead p
  | .screload => return p
  | .conf => return confRead p
  | .value nr => valueRead p nr
  | .reload _ => return p
  | .ctrl nr => return ctrlRead p nr

def write (p : GPTimer) (v : BitVec 32) : Reg → Except Fault GPTimer
  | .scaler => scalerWrite { p with scaler := busWrite (lowMask p.sbits) v }
  | .screload => screloadWrite { p with screload := busWrite (lowMask p.sbits) v }
  | .conf => return { p with conf := busWrite 0x200 v }
  | .value nr =>
    valueWrite (p.modify nr fun c => { c with value := busWrite (lowMask p.nbits) v }) nr
  | .reload nr => return p.modify nr fun c => { c with reload := busWrite (lowMask p.nbits) v }
  | .ctrl nr => ctrlWrite (p.modify nr fun c => { c with ctrl := busWrite 0x7F v }) nr

/-- When the thread of a counter continues next. -/
def GPCounter.due (c : GPCounter) : Option ℕ := c.wakes.or c.eWait

/-- Time stops at every moment at which some thread is to continue. -/
def Event.Possible (p : GPTimer) : Event → Prop
  | .busRead _ | .busWrite _ _ => True
  | .advance t => p.now ≤ t ∧ ∀ nr < p.ntimers, ∀ d ∈ (p.counter nr).due, t ≤ d
  | .resume nr => nr < p.ntimers ∧ (p.counter nr).due = some p.now

instance (p : GPTimer) : DecidablePred (Event.Possible p)
  | .busRead _ | .busWrite _ _ => isTrue trivial
  | .advance _ | .resume _ => inferInstanceAs (Decidable (_ ∧ _))

/-- What the unit does. -/
def perform (p : GPTimer) : Event → Except Fault GPTimer
  | .busRead reg => if reg.Present p then busRead p reg else return p
  | .busWrite reg v => if reg.Present p then write p v reg else return p
  | .advance t => return { p with now := t }
  | .resume nr => if (p.counter nr).wakes.isSome then tickingRestart p nr else tickingUnderflow p nr

/-- A step of the unit. A fault ends the run. -/
def step (p : GPTimer) (e : Event) : Option GPTimer :=
  if e.Possible p then (perform p e).toOption else none

/-- The time of an underflow of counter `nr`, where the step is one. -/
def underflow (nr : ℕ) (p : GPTimer) : Event → List ℕ
  | .resume m =>
    if m = nr ∧ (p.counter nr).wakes = none ∧ (p.counter nr).eWait = some p.now then [p.now] else []
  | _ => []

/-! ## Steps -/

variable {p q : GPTimer} {e : Event}

theorem step_eq_some : step p e = some q ↔ e.Possible p ∧ perform p e = .ok q := by
  rw [step, Option.ite_none_right_eq_some, toOption_eq_some]

theorem step_busRead {reg : Reg} :
    step p (.busRead reg) = some q ↔
      if reg.Present p then busRead p reg = .ok q else p = q := by
  rw [step_eq_some, perform]
  split <;> simp [Event.Possible, pure, Except.pure]

theorem step_busWrite {reg : Reg} {v : BitVec 32} :
    step p (.busWrite reg v) = some q ↔
      if reg.Present p then write p v reg = .ok q else p = q := by
  rw [step_eq_some, perform]
  split <;> simp [Event.Possible, pure, Except.pure]

theorem step_advance {t : ℕ} : step p (.advance t) = some q ↔
    (p.now ≤ t ∧ ∀ nr < p.ntimers, ∀ d ∈ (p.counter nr).due, t ≤ d) ∧ { p with now := t } = q := by
  rw [step_eq_some, perform]
  simp [Event.Possible, pure, Except.pure]

theorem step_resume {nr : ℕ} : step p (.resume nr) = some q ↔ nr < p.ntimers ∧
    ((p.counter nr).wakes = some p.now ∧ tickingRestart p nr = .ok q ∨
      (p.counter nr).wakes = none ∧ (p.counter nr).eWait = some p.now ∧
        tickingUnderflow p nr = .ok q) := by
  rw [step_eq_some, perform, Event.Possible, GPCounter.due, and_assoc]
  cases asleep : (p.counter nr).wakes <;> simp

end Socrocket.Gptimer
