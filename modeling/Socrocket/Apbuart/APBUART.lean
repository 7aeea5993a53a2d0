/- Socrocket/Apbuart/APBUART
   digest: The UART with its registers, its receive and send buffers, its threads and its backend. -/

import Mathlib.Logic.Function.Basic
import Socrocket.Base.Run
import Socrocket.Core.SrRegister

set_option autoImplicit false
set_option relaxedAutoImplicit false

namespace Socrocket.Apbuart

open Socrocket.Core.SrRegister

abbrev Char8 := BitVec 8

def fifosize : ℕ := 32

def dataMask : BitVec 32 := 0xFF
def statusMask : BitVec 32 := 0
def controlMask : BitVec 32 := 0x7FFFFFFF
def scalerMask : BitVec 32 := 0xFFF

/-- Bits of the control register that the model reads. -/
def receiverEnable : ℕ := 0
def transmitterEnable : ℕ := 1
def receiverInterrupt : ℕ := 2
def transmitterInterrupt : ℕ := 3
def levelInterrupt : ℕ := 9

/-- The other end of the line: the characters that arrived, how many of them were taken, and the
characters sent. -/
structure Backend where
  arrived : List Char8
  taken : ℕ
  sent : List Char8

def Backend.receivedChars (b : Backend) : ℕ := b.arrived.length - b.taken

def Backend.sendChar (b : Backend) (c : Char8) : Backend := { b with sent := b.sent ++ [c] }

structure APBUART where
  pirq : ℕ
  data : BitVec 32
  status : BitVec 32
  control : BitVec 32
  scaler : BitVec 32
  overrun : Bool
  levelInt : Bool
  sendBuffer : ℕ
  recvBufferLevel : ℕ
  /-- The array has `fifosize` cells. The bytes from there on lie behind it. -/
  recvBuffer : ℕ → Char8
  recvBufferEnd : ℕ
  backend : Backend
  /-- Delays of the notifications of `e_irq` so far, in cycles. -/
  eIrq : List ℕ
  /-- The thread `send_irq` is in the cycle after it raised the interrupt. -/
  raised : Bool
  irq : List (BitVec 32 × Bool)

/-- As constructed, with memory that holds what it held before. -/
def APBUART.init (pirq : ℕ) (memory : ℕ → Char8) : APBUART where
  pirq := pirq
  data := 0
  status := 0x86
  control := 0x80000000
  scaler := 0
  overrun := false
  levelInt := false
  sendBuffer := 0
  recvBufferLevel := 0
  recvBuffer := memory
  recvBufferEnd := 0
  backend := ⟨[], 0, []⟩
  eIrq := []
  raised := false
  irq := []

def APBUART.writeIrq (u : APBUART) (level : Bool) : APBUART :=
  { u with irq := u.irq ++ [(1#32 <<< u.pirq, level)] }

def incFifoLevel (counter : ℕ) : ℕ := if counter < fifosize then counter + 1 else 0

def updateLevelInt (u : APBUART) : APBUART :=
  if bitGet u.control levelInterrupt then
    let level := decide (u.sendBuffer < fifosize / 2)
    APBUART.writeIrq { u with levelInt := level } level
  else { u with levelInt := false }

/-! ## Register callbacks -/

/-- A data read takes a character out of the receive buffer. -/
def takesChar (u : APBUART) : Bool :=
  decide (0 < u.recvBufferLevel) && bitGet u.control receiverEnable

/-- `char` is signed, the register holds it sign extended. -/
def dataRead (u : APBUART) : APBUART :=
  if takesChar u then
    let level := u.recvBufferLevel - 1
    { u with
      recvBufferLevel := level
      recvBufferEnd := incFifoLevel u.recvBufferEnd
      data := (u.recvBuffer u.recvBufferEnd).signExtend 32
      eIrq := u.eIrq ++ if bitGet u.control receiverInterrupt ∧ 0 < level then [100] else [] }
  else u

def dataWrite (u : APBUART) : APBUART :=
  let c := u.data.setWidth 8
  if bitGet u.control transmitterEnable then
    if fifosize ≤ u.sendBuffer then { u with overrun := true }
    else updateLevelInt
      { u with backend := u.backend.sendChar c, sendBuffer := u.sendBuffer + 1 }
  -- print even if transmitter disabled
  else { u with backend := u.backend.sendChar c }

/-- A condition as the C++ expression counts it. -/
def flag (b : Bool) : BitVec 32 := (BitVec.ofBool b).setWidth 32

def statusWord (u : APBUART) : BitVec 32 :=
  let received := min u.recvBufferLevel fifosize
  let toTransmit := min u.sendBuffer fifosize
  flag (received ≠ 0) ||| BitVec.ofNat 32 received <<< 26 ||| BitVec.ofNat 32 toTransmit <<< 20 |||
    flag (fifosize ≤ received) <<< 10 ||| flag (fifosize ≤ toTransmit) <<< 9 |||
    flag (fifosize / 2 ≤ received) <<< 8 ||| flag (toTransmit < fifosize / 2) <<< 7 |||
    flag u.overrun <<< 4 ||| flag (u.sendBuffer ≤ 1) <<< 2 ||| flag (u.sendBuffer = 0) <<< 1

def statusRead (u : APBUART) : APBUART := { u with status := statusWord u, overrun := false }

/-! ## Threads -/

def sendIrq (u : APBUART) : APBUART :=
  if u.raised then
    let lowered := { u with raised := false }
    if u.levelInt then lowered else lowered.writeIrq false
  else APBUART.writeIrq { u with raised := true } true

/-- `uart_ticks` takes a character from the backend. -/
def receives (u : APBUART) : Bool :=
  decide (0 < u.backend.receivedChars) && decide (u.recvBufferLevel < fifosize) &&
    bitGet u.control receiverInterrupt

/-- The sending half of a tick. -/
def tickSend (u : APBUART) : APBUART :=
  if 0 < u.sendBuffer then updateLevelInt { u with sendBuffer := u.sendBuffer - 1 } else u

/-- The receiving half of a tick. -/
def tickReceive (u : APBUART) : APBUART :=
  if receives u then
    { u with
      recvBufferLevel := u.recvBufferLevel + 1
      recvBuffer := match u.backend.arrived[u.backend.taken]? with
        | some c => Function.update u.recvBuffer u.recvBufferEnd c
        | none => u.recvBuffer
      recvBufferEnd := incFifoLevel u.recvBufferEnd
      backend := { u.backend with taken := u.backend.taken + 1 } }
  else u

/-- The last character left, or the first one came. -/
def triggersIrq (u : APBUART) : Bool :=
  bitGet u.control transmitterInterrupt && decide (u.sendBuffer = 1) ||
    receives u && decide (u.recvBufferLevel = 0)

def uartTicks (u : APBUART) : APBUART :=
  let ticked := tickReceive (tickSend u)
  if triggersIrq u then { ticked with eIrq := ticked.eIrq ++ [0] } else ticked

/-! ## Runs -/

/-- A character that arrives at the backend, a bus access, or a thread that continues. -/
inductive Event where
  | arrive (c : Char8)
  | dataRead
  | dataWrite (v : BitVec 32)
  | statusRead
  | statusWrite (v : BitVec 32)
  | controlRead
  | controlWrite (v : BitVec 32)
  | scalerRead
  | scalerWrite (v : BitVec 32)
  | tick
  | sendIrq
  deriving DecidableEq

def step (u : APBUART) : Event → APBUART
  | .arrive c => { u with backend := { u.backend with arrived := u.backend.arrived ++ [c] } }
  | .dataRead => dataRead u
  | .dataWrite v => dataWrite { u with data := busWrite dataMask v }
  | .statusRead => statusRead u
  | .statusWrite v => { u with status := busWrite statusMask v }
  | .controlRead => u
  | .controlWrite v => { u with control := busWrite controlMask v }
  | .scalerRead => u
  | .scalerWrite v => { u with scaler := busWrite scalerMask v }
  | .tick => uartTicks u
  | .sendIrq => sendIrq u

end Socrocket.Apbuart
