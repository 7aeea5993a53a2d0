/- Socrocket/Irqmp/Controller
   digest: The registers of the interrupt controller and the operations of its source. -/

import Socrocket.Core.SrRegister
import Mathlib.Data.Fin.Basic
import Mathlib.Logic.Function.Basic

set_option autoImplicit false
set_option relaxedAutoImplicit false

namespace Socrocket.Irqmp

open Socrocket.Core.SrRegister

/-- Generics of the controller: the number of processors and the line that cascades the extended
lines, zero for none. -/
structure Generics where
  ncpu : ℕ
  eirq : ℕ
  ncpu_range : 1 ≤ ncpu ∧ ncpu ≤ 16
  eirq_lt : eirq < 16

def IR_LEVEL_IL : BitVec 32 := 0x0000FFFE
def IR_PENDING_EIP : BitVec 32 := 0xFFFF0000
def IR_PENDING_IP : BitVec 32 := 0x0000FFFE
def IR_FORCE_IF : BitVec 32 := 0x0000FFFE
def IR_CLEAR_IC : BitVec 32 := 0xFFFFFFFE
def BROADCAST_BM : BitVec 32 := 0x0000FFFE
def PROC_MASK_EIM : BitVec 32 := 0xFFFF0000
def PROC_MASK_IM : BitVec 32 := 0x0000FFFE
def PROC_IR_FORCE_IFC : BitVec 32 := 0xFFFE0000
def PROC_IR_FORCE_IF : BitVec 32 := 0x0000FFFE
def PROC_EXTIR_ID_EID : BitVec 32 := 0x0000001F
def MASK_DEFAULT : BitVec 32 := 0xFFFFFFFE

/-- The request line of a processor. Line zero is never raised. -/
structure IrqReq where
  line : BitVec 32
  raised : Bool
  idle : line = 0 → raised = false
deriving DecidableEq

/-- No request. -/
def IrqReq.none : IrqReq := ⟨0, false, fun _ => rfl⟩

/-- A withdrawn request. -/
def IrqReq.lower (line : BitVec 32) : IrqReq := ⟨line, false, fun _ => rfl⟩

/-- The registers, the shadow of the force registers, the request lines and the counters. -/
structure Registers (ncpu : ℕ) where
  level : BitVec 32
  pending : BitVec 32
  force : BitVec 32
  clear : BitVec 32
  broadcast : BitVec 32
  procMask : Fin ncpu → BitVec 32
  procForce : Fin ncpu → BitVec 32
  extirId : Fin ncpu → BitVec 32
  forcereg : Fin ncpu → BitVec 32
  irqReq : Fin ncpu → IrqReq
  irqCounter : ℕ → BitVec 64
  cpuCounter : Fin ncpu → BitVec 64

variable (g : Generics)

/-- The registers after construction. -/
def initRegisters : Registers g.ncpu where
  level := 0
  pending := 0
  force := 0
  clear := 0
  broadcast := 0
  procMask _ := MASK_DEFAULT
  procForce _ := 0
  extirId _ := 0
  forcereg _ := 0
  irqReq _ := IrqReq.none
  irqCounter _ := 0
  cpuCounter _ := 0

/-- Reset: the global force register, the request lines and the counters keep their values. -/
def dorst (s : Registers g.ncpu) : Registers g.ncpu :=
  { s with
    level := 0
    pending := 0
    clear := 0
    broadcast := 0
    procMask := fun _ => MASK_DEFAULT
    procForce := fun _ => 0
    extirId := fun _ => 0
    forcereg := fun _ => 0 }

/-- One raised line: to the pending register, or to every processor's force register. The source
tests the broadcast bit above the line. -/
def incommingLine (s : Registers g.ncpu) (line : ℕ) : Registers g.ncpu :=
  let s := { s with irqCounter := Function.update s.irqCounter line (s.irqCounter line + 1) }
  let s := if bitGet s.broadcast (line + 1) then s else
    { s with pending := bitSet s.pending line true }
  if bitGet s.broadcast (line + 1) ∧ line < 16 then
    { s with
      procForce := fun cpu => bitSet (s.procForce cpu) line true
      forcereg := fun cpu => s.forcereg cpu ||| 1#32 <<< line }
  else s

/-- Lines `0` to `31` of an interrupt vector. A falling edge is ignored. -/
def incommingIrq (s : Registers g.ncpu) (irq : BitVec 32 × Bool) : Registers g.ncpu :=
  if irq.2 then
    (List.range 32).foldl (fun s line => if bitGet irq.1 line then incommingLine g s line else s) s
  else s

/-- The highest set bit from position `high` down, and zero when bits `1` to `high` are clear. -/
def highestFrom (masked : BitVec 32) : ℕ → ℕ
  | 0 => 0
  | high + 1 => if bitGet masked (high + 1) then high + 1 else highestFrom masked high

/-- The selected line: the highest of level 1, else the highest of level 0. -/
def selectLine (all level : BitVec 32) : ℕ :=
  let high := highestFrom ((all &&& level) &&& IR_PENDING_IP) 15
  if high = 0 then highestFrom ((all &&& ~~~level) &&& IR_PENDING_IP) 15 else high

theorem highestFrom_le (masked : BitVec 32) (high : ℕ) : highestFrom masked high ≤ high := by
  induction high with
  | zero => exact Nat.le_refl 0
  | succ high ih =>
    rw [highestFrom]
    split_ifs
    · exact Nat.le_refl _
    · omega

theorem selectLine_lt (all level : BitVec 32) : selectLine all level < 16 := by
  have upper := highestFrom_le ((all &&& level) &&& IR_PENDING_IP) 15
  have lower := highestFrom_le ((all &&& ~~~level) &&& IR_PENDING_IP) 15
  unfold selectLine
  dsimp only
  split_ifs <;> omega

theorem request_ne_zero {high : ℕ} (pos : high ≠ 0) (lt : high < 16) :
    (0xF : BitVec 32) &&& BitVec.ofNat 32 high ≠ 0 := by
  have each : ∀ h : Fin 16, h.val ≠ 0 → (0xF : BitVec 32) &&& BitVec.ofNat 32 h.val ≠ 0 := by decide
  exact each ⟨high, lt⟩ pos

/-- The request for a selected line. -/
def requestLine (all level : BitVec 32) (pos : selectLine all level ≠ 0) : IrqReq where
  line := 0xF &&& BitVec.ofNat 32 (selectLine all level)
  raised := true
  idle zero := absurd zero (request_ne_zero pos (selectLine_lt all level))

/-- Interrupts a processor sees: pending or forced for all, and unmasked for this one. -/
def unmasked (s : Registers g.ncpu) (cpu : Fin g.ncpu) : BitVec 32 :=
  (s.pending ||| s.force) &&& s.procMask cpu

/-- An extended line is pending for a processor, and there is a cascade line. -/
def eirqEn (s : Registers g.ncpu) (cpu : Fin g.ncpu) : Bool :=
  g.eirq ≠ 0 &&
    (unmasked g s cpu ||| s.procForce cpu &&& IR_FORCE_IF) &&& IR_PENDING_EIP != 0

/-- All interrupts of a processor, the cascade included. -/
def relevant (s : Registers g.ncpu) (cpu : Fin g.ncpu) : BitVec 32 :=
  unmasked g s cpu ||| (BitVec.ofBool (eirqEn g s cpu)).setWidth 32 <<< g.eirq |||
    s.procForce cpu &&& IR_FORCE_IF

/-- Send a request to one processor when it changes. -/
def sendRequest (s : Registers g.ncpu) (cpu : Fin g.ncpu) (all : BitVec 32) : Registers g.ncpu :=
  if pos : selectLine all s.level ≠ 0 then
    let value := requestLine all s.level pos
    if value ≠ s.irqReq cpu then
      { s with
        irqReq := Function.update s.irqReq cpu value
        cpuCounter := Function.update s.cpuCounter cpu (s.cpuCounter cpu + 1) }
    else s
  else if (s.irqReq cpu).line ≠ 0 then
    { s with irqReq := Function.update s.irqReq cpu IrqReq.none }
  else s

/-- The body of the launch loop for one processor. The cascade bit of the shared pending register is
rewritten on the way. -/
def launchCpu (cpu : Fin g.ncpu) (s : Registers g.ncpu) : Registers g.ncpu :=
  let all := relevant g s cpu
  let s := if g.eirq ≠ 0 then { s with pending := bitSet s.pending g.eirq (eirqEn g s cpu) } else s
  sendRequest g s cpu all

/-- One pass of `launch_irq`, from the last processor down to the first. -/
def launchIrq (s : Registers g.ncpu) : Registers g.ncpu :=
  (List.finRange g.ncpu).foldr (launchCpu g) s

/-- Withdraw the requests of all processors. -/
def lowerAll (s : Registers g.ncpu) (line : BitVec 32) : Registers g.ncpu :=
  { s with irqReq := fun _ => IrqReq.lower line }

/-- Drop the pending bit of an extended interrupt a processor has identified. -/
def dropIdentified (s : Registers g.ncpu) (cpu : Fin g.ncpu) : Registers g.ncpu :=
  if g.eirq ≠ 0 ∧ s.extirId cpu ≠ 0 then
    { s with pending := s.pending &&& ~~~(1#32 <<< (s.extirId cpu).toNat) }
  else s

/-- Withdraw the requests of the lines set in a vector, from line `15` down to line `1`. -/
def lowerLines (s : Registers g.ncpu) (lines : BitVec 32) : Registers g.ncpu :=
  (List.range 15).foldr (fun i s =>
    if bitGet lines (i + 1) then lowerAll g s (BitVec.ofNat 32 (i + 1)) else s) s

/-- Callback of the clear register. -/
def clearWrite (s : Registers g.ncpu) : Registers g.ncpu :=
  let identified := (List.finRange g.ncpu).any fun cpu => g.eirq ≠ 0 && s.extirId cpu != 0
  let s := (List.finRange g.ncpu).foldl (fun s cpu =>
    if g.eirq ≠ 0 ∧ s.extirId cpu ≠ 0 then
      { dropIdentified g s cpu with extirId := Function.update s.extirId cpu 0 }
    else s) s
  let extirq := identified || (List.range 16).any fun i => bitGet s.clear (i + 16)
  let s := if extirq then lowerAll g s (BitVec.ofNat 32 g.eirq) else s
  let s := lowerLines g s s.clear
  { s with
    pending := s.pending &&& ~~~s.clear
    force := s.force &&& ~~~s.clear
    clear := 0 }

/-- Callback of the force registers, for one processor: merge the register into its shadow and clear
the bits of the upper half. -/
def forceCpu (s : Registers g.ncpu) (cpu : Fin g.ncpu) : Registers g.ncpu :=
  let reg := s.procForce cpu
  let s := lowerLines g s (reg >>> 16)
  let merged := s.forcereg cpu ||| reg
  let shadow := merged &&& (~~~(merged >>> 16) &&& PROC_IR_FORCE_IF)
  let s := { s with
    forcereg := Function.update s.forcereg cpu shadow
    procForce := Function.update s.procForce cpu shadow }
  dropIdentified g s cpu

/-- Callback of the force registers: it runs over all processors. -/
def forceWrite (s : Registers g.ncpu) : Registers g.ncpu :=
  (List.finRange g.ncpu).foldl (forceCpu g) s

/-- A processor acknowledges a line. -/
def acknowledgedIrq (s : Registers g.ncpu) (irq : Fin 32) (cpu : Fin g.ncpu) : Registers g.ncpu :=
  let s := dropIdentified g s cpu
  let s := { s with
    procForce := Function.update s.procForce cpu (bitSet (s.procForce cpu) irq false)
    forcereg := Function.update s.forcereg cpu
      (s.forcereg cpu &&& (~~~(1#32 <<< irq.val) &&& 0xFFFE)) }
  let s := lowerAll g s (BitVec.ofNat 32 irq)
  { s with
    pending := bitSet s.pending irq false
    force := bitSet s.force irq false
    extirId := Function.update s.extirId cpu 0 }

/-- The steps of the controller: signals, launch passes and bus writes with their callbacks. -/
inductive Op (ncpu : ℕ) where
  | reset
  | incommingIrq (irq : BitVec 32 × Bool)
  | launchIrq
  | acknowledgedIrq (irq : Fin 32) (cpu : Fin ncpu)
  | writeLevel (v : BitVec 32)
  | writePending (v : BitVec 32)
  | writeForce (v : BitVec 32)
  | writeClear (v : BitVec 32)
  | writeBroadcast (v : BitVec 32)
  | writeProcMask (cpu : Fin ncpu) (v : BitVec 32)
  | writeProcForce (cpu : Fin ncpu) (v : BitVec 32)
  | writeExtirId (cpu : Fin ncpu) (v : BitVec 32)

/-- Perform one step. -/
def step (s : Registers g.ncpu) : Op g.ncpu → Registers g.ncpu
  | .reset => dorst g s
  | .incommingIrq irq => incommingIrq g s irq
  | .launchIrq => launchIrq g s
  | .acknowledgedIrq irq cpu => acknowledgedIrq g s irq cpu
  | .writeLevel v => { s with level := busWrite IR_LEVEL_IL v }
  | .writePending v => { s with pending := busWrite (IR_PENDING_EIP ||| IR_PENDING_IP) v }
  | .writeForce v => { s with force := busWrite IR_FORCE_IF v }
  | .writeClear v => clearWrite g { s with clear := busWrite IR_CLEAR_IC v }
  | .writeBroadcast v => { s with broadcast := busWrite BROADCAST_BM v }
  | .writeProcMask cpu v => { s with
      procMask := Function.update s.procMask cpu (busWrite (PROC_MASK_EIM ||| PROC_MASK_IM) v) }
  | .writeProcForce cpu v => forceWrite g { s with
      procForce :=
        Function.update s.procForce cpu (busWrite (PROC_IR_FORCE_IFC ||| PROC_IR_FORCE_IF) v) }
  | .writeExtirId cpu v => { s with
      extirId := Function.update s.extirId cpu (busWrite PROC_EXTIR_ID_EID v) }

end Socrocket.Irqmp
