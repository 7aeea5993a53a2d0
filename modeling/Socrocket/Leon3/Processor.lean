/- Socrocket/Leon3/Processor
   digest: The state of the integer unit, what its instructions share and the entry to a trap. -/

import Socrocket.Base.Program
import Socrocket.Leon3.Registers

set_option autoImplicit false
set_option relaxedAutoImplicit false

namespace Socrocket.Leon3

open Base

/-! ## The state -/

/-- What an entry of the register table stands for. -/
inductive Cell
  | global (k : BitVec 3) | window (k : BitVec 7)
  deriving DecidableEq

/-- The answer of the memory to an access: it may also have triggered an exception. -/
structure Reply (σ α : Type) where
  value : α
  exception : Option (BitVec 32)
  memory : σ

namespace Reply

variable {σ α β : Type}

def map (f : α → β) (reply : Reply σ α) : Reply σ β := ⟨f reply.value, reply.exception, reply.memory⟩

end Reply

/-- The memory as the instructions see it. -/
structure MemoryInterface (σ : Type) where
  readInstr (address asi flush : BitVec 32) : σ → Reply σ (BitVec 32)
  readDword (address asi flush lock : BitVec 32) : σ → Reply σ (BitVec 64)
  readWord (address asi flush lock : BitVec 32) : σ → Reply σ (BitVec 32)
  readHalf (address asi flush lock : BitVec 32) : σ → Reply σ (BitVec 16)
  readByte (address asi flush lock : BitVec 32) : σ → Reply σ (BitVec 8)
  writeDword (address : BitVec 32) (datum : BitVec 64) (asi flush lock : BitVec 32) : σ → Reply σ Unit
  writeWord (address : BitVec 32) (datum : BitVec 32) (asi flush lock : BitVec 32) : σ → Reply σ Unit
  writeHalf (address : BitVec 32) (datum : BitVec 16) (asi flush lock : BitVec 32) : σ → Reply σ Unit
  writeByte (address : BitVec 32) (datum : BitVec 8) (asi flush lock : BitVec 32) : σ → Reply σ Unit

structure Processor (σ : Type) where
  PSR : BitVec 32
  WIM : BitVec 32
  TBR : BitVec 32
  Y : BitVec 32
  PC : BitVec 32
  NPC : BitVec 32
  GLOBAL : BitVec 3 → BitVec 32
  WINREGS : BitVec 7 → BitVec 32
  ASR : BitVec 5 → BitVec 32
  REGS : BitVec 5 → Cell
  totalInstrCycles : ℕ
  /-- The levels acknowledged on the pin, the last one at the end. -/
  irqAck : List (BitVec 32)
  raisedException : BitVec 32
  raisedExceptionPC : BitVec 32
  raisedExceptionNPC : BitVec 32
  memory : σ

/-- How an instruction ends before its end: a trap was taken, the simulator gave up, or the source
leaves the behavior undefined. -/
inductive Stop
  | annulException | exception | undefined
  deriving DecidableEq

abbrev Behavior (σ α : Type) := Program Stop (Processor σ) α

namespace Processor

variable {σ : Type} (s : Processor σ)

/-- The first global register is a constant. -/
def load : Cell → BitVec 32
  | .global k => if k = 0 then 0 else s.GLOBAL k
  | .window k => s.WINREGS k

def store (c : Cell) (value : BitVec 32) : Processor σ :=
  match c with
  | .global k => if k = 0 then s else { s with GLOBAL := Function.update s.GLOBAL k value }
  | .window k => { s with WINREGS := Function.update s.WINREGS k value }

/-- Continue at `pc` and then at `npc`. -/
def continueAt (pc npc : BitVec 32) : Processor σ := { s with PC := pc, NPC := npc }

def setCycles (n : ℕ) : Processor σ := { s with totalInstrCycles := n }

def setY (value : BitVec 32) : Processor σ := { s with Y := value }

def setAsr (i : BitVec 5) (value : BitVec 32) : Processor σ :=
  { s with ASR := Function.update s.ASR i value }

def setPsr (value : BitVec 32) : Processor σ := { s with PSR := value }

/-- The memory after an access. An exception that it triggers is kept until the next fetch, with the
counters of now. -/
def settle {α : Type} (reply : Reply σ α) : Processor σ :=
  match reply.exception with
  | none => { s with memory := reply.memory }
  | some e => { s with memory := reply.memory, raisedException := e, raisedExceptionPC := s.PC,
                       raisedExceptionNPC := s.NPC }

def reg (i : BitVec 5) : BitVec 32 := s.load (s.REGS i)

def setReg (i : BitVec 5) (value : BitVec 32) : Processor σ := s.store (s.REGS i) value

variable {s}

@[simp] theorem continueAt_PSR (pc npc : BitVec 32) : (s.continueAt pc npc).PSR = s.PSR := rfl

@[simp] theorem setCycles_PSR (n : ℕ) : (s.setCycles n).PSR = s.PSR := rfl

@[simp] theorem setY_PSR (v : BitVec 32) : (s.setY v).PSR = s.PSR := rfl

@[simp] theorem setAsr_PSR (i : BitVec 5) (v : BitVec 32) : (s.setAsr i v).PSR = s.PSR := rfl

@[simp] theorem settle_PSR {α : Type} (reply : Reply σ α) : (s.settle reply).PSR = s.PSR := by
  unfold settle
  split <;> rfl

@[simp] theorem store_PSR (c : Cell) (v : BitVec 32) : (s.store c v).PSR = s.PSR := by
  cases c with
  | global k =>
    unfold store
    dsimp only
    split <;> rfl
  | window k => rfl

@[simp] theorem setReg_PSR (i : BitVec 5) (v : BitVec 32) : (s.setReg i v).PSR = s.PSR := store_PSR _ _

theorem setReg_zero (zero : s.REGS 0 = .global 0) (v : BitVec 32) : s.setReg 0 v = s := by
  rw [setReg, zero]
  rfl

theorem load_store (c d : Cell) (v : BitVec 32) :
    (s.store c v).load d = if d = c ∧ c ≠ .global 0 then v else s.load d := by
  cases c with
  | global k =>
    by_cases constant : k = 0
    · subst constant
      rw [if_neg fun both => both.2 rfl]
      rfl
    · have same : s.store (.global k) v = { s with GLOBAL := Function.update s.GLOBAL k v } :=
        if_neg constant
      have written : Cell.global k ≠ .global 0 := fun same => constant (Cell.global.inj same)
      rw [same]
      cases d with
      | global j =>
        by_cases here : j = k
        · subst here
          rw [if_pos ⟨rfl, written⟩]
          exact (if_neg constant).trans (Function.update_self ..)
        · rw [if_neg fun both => here (Cell.global.inj both.1)]
          simp only [load, Function.update_of_ne here]
      | window j =>
        rw [if_neg fun both => nomatch both.1]
        rfl
  | window k =>
    cases d with
    | global j =>
      rw [if_neg fun both => nomatch both.1]
      rfl
    | window j =>
      by_cases here : j = k
      · subst here
        rw [if_pos ⟨rfl, nofun⟩]
        exact Function.update_self ..
      · rw [if_neg fun both => here (Cell.window.inj both.1)]
        exact Function.update_of_ne here _ _

theorem store_eq (c : Cell) (v : BitVec 32) : ∃ globals windows, s.store c v =
    { s with GLOBAL := globals, WINREGS := windows } := by
  cases c with
  | global k =>
    by_cases constant : k = 0
    · exact ⟨s.GLOBAL, s.WINREGS, if_pos constant⟩
    · exact ⟨_, s.WINREGS, if_neg constant⟩
  | window k => exact ⟨s.GLOBAL, _, rfl⟩

theorem setReg_Y (i : BitVec 5) (v : BitVec 32) : (s.setReg i v).Y = s.Y := by
  obtain ⟨globals, windows, stored⟩ := store_eq (s := s) (s.REGS i) v
  rw [setReg, stored]

theorem counters_store (c : Cell) (v : BitVec 32) :
    (s.store c v).PC = s.PC ∧ (s.store c v).NPC = s.NPC := by
  obtain ⟨globals, windows, stored⟩ := store_eq (s := s) c v
  rw [stored]
  exact ⟨rfl, rfl⟩

variable (s)

/-- The register that entry `i` of the table gets in a window. -/
def winreg (newCwp : BitVec 32) (i : BitVec 5) : BitVec 7 :=
  ((newCwp * 16 + i.setWidth 32 - 8) &&& 0x7f).setWidth 7

/-- Point the windowed entries of the table to the registers of a window. -/
def updateAliases (newCwp : BitVec 32) : Processor σ :=
  { s with REGS := fun i => if 8 ≤ i then .window (winreg newCwp i) else s.REGS i }

end Processor

/-! ## Exceptions -/

namespace ExceptionId

@[match_pattern] abbrev reset : BitVec 32 := 0
@[match_pattern] abbrev dataStoreError : BitVec 32 := 1
@[match_pattern] abbrev instrAccessMmuMiss : BitVec 32 := 2
@[match_pattern] abbrev instrAccessError : BitVec 32 := 3
@[match_pattern] abbrev rRegisterAccessError : BitVec 32 := 4
@[match_pattern] abbrev instrAccessExc : BitVec 32 := 5
@[match_pattern] abbrev priviledgeInstr : BitVec 32 := 6
@[match_pattern] abbrev illegalInstr : BitVec 32 := 7
@[match_pattern] abbrev fpDisabled : BitVec 32 := 8
@[match_pattern] abbrev cpDisabled : BitVec 32 := 9
@[match_pattern] abbrev unimplFlush : BitVec 32 := 10
@[match_pattern] abbrev watchpointDetected : BitVec 32 := 11
@[match_pattern] abbrev windowOverflow : BitVec 32 := 12
@[match_pattern] abbrev windowUnderflow : BitVec 32 := 13
@[match_pattern] abbrev memAddrNotAligned : BitVec 32 := 14
@[match_pattern] abbrev fpException : BitVec 32 := 15
@[match_pattern] abbrev cpException : BitVec 32 := 16
@[match_pattern] abbrev dataAccessError : BitVec 32 := 17
@[match_pattern] abbrev dataAccessMmuMiss : BitVec 32 := 18
@[match_pattern] abbrev dataAccessExc : BitVec 32 := 19
@[match_pattern] abbrev tagOverflow : BitVec 32 := 20
@[match_pattern] abbrev divZero : BitVec 32 := 21
@[match_pattern] abbrev trapInstruction : BitVec 32 := 22
@[match_pattern] abbrev irqLev15 : BitVec 32 := 23
@[match_pattern] abbrev irqLev14 : BitVec 32 := 24
@[match_pattern] abbrev irqLev13 : BitVec 32 := 25
@[match_pattern] abbrev irqLev12 : BitVec 32 := 26
@[match_pattern] abbrev irqLev11 : BitVec 32 := 27
@[match_pattern] abbrev irqLev10 : BitVec 32 := 28
@[match_pattern] abbrev irqLev9 : BitVec 32 := 29
@[match_pattern] abbrev irqLev8 : BitVec 32 := 30
@[match_pattern] abbrev irqLev7 : BitVec 32 := 31
@[match_pattern] abbrev irqLev6 : BitVec 32 := 32
@[match_pattern] abbrev irqLev5 : BitVec 32 := 33
@[match_pattern] abbrev irqLev4 : BitVec 32 := 34
@[match_pattern] abbrev irqLev3 : BitVec 32 := 35
@[match_pattern] abbrev irqLev2 : BitVec 32 := 36
@[match_pattern] abbrev irqLev1 : BitVec 32 := 37
@[match_pattern] abbrev implDepExc : BitVec 32 := 38

end ExceptionId

open ExceptionId

/-- The trap type that an exception writes to the trap base register, if any. -/
def trapType (exceptionId customTrapOffset : BitVec 32) : Option (BitVec 32) :=
  match exceptionId with
  | reset => none
  | dataStoreError => some 0x2b
  | instrAccessMmuMiss => some 0x3c
  | instrAccessError => some 0x21
  | rRegisterAccessError => some 0x20
  | instrAccessExc => some 0x01
  | priviledgeInstr => some 0x03
  | illegalInstr => some 0x02
  | fpDisabled => some 0x04
  | cpDisabled => some 0x24
  | unimplFlush => some 0x25
  | watchpointDetected => some 0x0b
  | windowOverflow => some 0x05
  | windowUnderflow => some 0x06
  | memAddrNotAligned => some 0x07
  | fpException => some 0x08
  | cpException => some 0x28
  | dataAccessError => some 0x29
  | dataAccessMmuMiss => some 0x2c
  | dataAccessExc => some 0x09
  | tagOverflow => some 0x0a
  | divZero => some 0x2a
  | trapInstruction => some (0x80 + customTrapOffset)
  | irqLev15 => some 0x1f
  | irqLev14 => some 0x1e
  | irqLev13 => some 0x1d
  | irqLev12 => some 0x1c
  | irqLev11 => some 0x1b
  | irqLev10 => some 0x1a
  | irqLev9 => some 0x19
  | irqLev8 => some 0x18
  | irqLev7 => some 0x17
  | irqLev6 => some 0x16
  | irqLev5 => some 0x15
  | irqLev4 => some 0x14
  | irqLev3 => some 0x13
  | irqLev2 => some 0x12
  | irqLev1 => some 0x11
  | implDepExc => some (0x60 + customTrapOffset)
  | _ => none

/-- The trap type field of the trap base register. -/
def writeTt (tbr other : BitVec 32) : BitVec 32 :=
  (tbr &&& 0xfffff00f#32) ||| ((other &&& 0xff#32) <<< 4)

namespace Processor

variable {σ : Type}

/-- The trap type of an exception, where it has one. -/
def setTrapType (s : Processor σ) : Option (BitVec 32) → Processor σ
  | none => s
  | some tt => { s with TBR := writeTt s.TBR tt }

/-- Go to the handler: the reset handler is at address 0. -/
def vector (s : Processor σ) (exceptionId : BitVec 32) : Processor σ :=
  if exceptionId = reset then s.continueAt 0 4 else s.continueAt s.TBR (s.TBR + 4)

/-- Acknowledge an interrupt on the pin. -/
def acknowledge (s : Processor σ) (exceptionId : BitVec 32) : Processor σ :=
  if trapInstruction < exceptionId ∧ exceptionId < implDepExc then
    { s with irqAck := s.irqAck ++ [implDepExc - exceptionId] }
  else s

/-- Enter a trap. The two counters go to the locals of the new window, which is not checked against
the mask of invalid windows. -/
def enterTrap (s : Processor σ) (pcounter npcounter exceptionId customTrapOffset : BitVec 32) :
    Processor σ :=
  let newCwp := (PSR.cwp s.PSR - 1) % 8
  let s := (s.updateAliases newCwp).setPsr (PSR.trapped s.PSR)
  let s := (s.setReg 17 pcounter).setReg 18 npcounter
  ((s.setTrapType (trapType exceptionId customTrapOffset)).vector exceptionId).acknowledge exceptionId

end Processor

/-! ## What the instructions share -/

section Shared

variable {σ : Type}

def raiseException (pcounter npcounter exceptionId customTrapOffset : BitVec 32) :
    Behavior σ Unit := do
  if (← Program.read fun s => PSR.et s.PSR) = 0 then
    -- an interrupt is not taken while traps are disabled, anything else brings the processor down
    if exceptionId < irqLev15 ∨ exceptionId = trapInstruction then Program.stop .exception
  else
    Program.update fun s => s.enterTrap pcounter npcounter exceptionId customTrapOffset
    Program.stop .annulException

def incrementPC : Behavior σ Unit := Program.update fun s => s.continueAt s.NPC (s.NPC + 4)

/-- Continue at `pc` and then at `npc`. -/
def continueAt (pc npc : BitVec 32) : Behavior σ Unit := Program.update (·.continueAt pc npc)

def stall (numCycles : ℕ) : Behavior σ Unit :=
  Program.update fun s => s.setCycles (s.totalInstrCycles + numCycles)

def flush : Behavior σ Unit := pure ()

def readReg (i : BitVec 5) : Behavior σ (BitVec 32) := Program.read (·.reg i)

def writeReg (i : BitVec 5) (value : BitVec 32) : Behavior σ Unit := Program.update (·.setReg i value)

def setY (value : BitVec 32) : Behavior σ Unit := Program.update (·.setY value)

def setAsr (i : BitVec 5) (value : BitVec 32) : Behavior σ Unit := Program.update (·.setAsr i value)

/-- Change the processor state register. -/
def setPsr (f : BitVec 32 → BitVec 32) : Behavior σ Unit := Program.update fun s => s.setPsr (f s.PSR)

/-- Use the memory. -/
def access {α : Type} (f : σ → Reply σ α) : Behavior σ α :=
  Program.perform fun s => ((f s.memory).value, s.settle (f s.memory))

/-- The address space of the data of a mode. -/
def PSR.dataAsi (v : BitVec 32) : BitVec 32 := 0xA ||| if PSR.supervisor v ≠ 0 then 1 else 0

def dataAsi : Behavior σ (BitVec 32) := Program.read fun s => PSR.dataAsi s.PSR

/-- The test of a window against the mask of invalid windows. -/
def Processor.windowValid (s : Processor σ) (newCwp : BitVec 32) : Bool :=
  (1#32 <<< newCwp) &&& s.WIM = 0

/-- Move to a window unless the mask makes it invalid. -/
def moveWindow (newCwp : BitVec 32) : Behavior σ Bool := do
  if ← Program.read (·.windowValid newCwp) then
    Program.update fun s => (s.updateAliases newCwp).setPsr (PSR.writeCwp s.PSR newCwp)
    return true
  else return false

def incrementRegWindow : Behavior σ Bool := do moveWindow ((PSR.cwp (← Program.read (·.PSR)) + 1) % 8)

def decrementRegWindow : Behavior σ Bool := do moveWindow ((PSR.cwp (← Program.read (·.PSR)) - 1) % 8)

end Shared

/-- Extend the sign of the low bits of a word. -/
def signExtend (bitSeq : BitVec 32) (bitSeqLength : ℕ) : BitVec 32 :=
  if bitSeq &&& (1#32 <<< (bitSeqLength - 1)) ≠ 0 then
    bitSeq ||| (0xffffffff#32 <<< bitSeqLength) else bitSeq

end Socrocket.Leon3
