/- Socrocket/Leon3/Instructions
   digest: The behavior of the instructions of the integer unit. -/

import Socrocket.Leon3.Decoder
import Socrocket.Leon3.Processor

set_option autoImplicit false
set_option relaxedAutoImplicit false

namespace Socrocket.Leon3

open Base ExceptionId

/-- The fields of an instruction word. Every instruction takes those it has. -/
structure Params where
  rdBit : BitVec 5
  rs1Bit : BitVec 5
  rs2Bit : BitVec 5
  asr : BitVec 5
  simm13 : BitVec 32
  asi : BitVec 32
  cond : BitVec 32
  a : BitVec 32
  disp22 : BitVec 32
  imm22 : BitVec 32
  disp30 : BitVec 32
  imm7 : BitVec 32

def setParams (bitString : BitVec 32) : Params where
  rdBit := ((bitString &&& 0x3e000000) >>> 25).setWidth 5
  rs1Bit := ((bitString &&& 0x7c000) >>> 14).setWidth 5
  rs2Bit := (bitString &&& 0x1f).setWidth 5
  asr := ((bitString &&& 0x7c000) >>> 14).setWidth 5
  simm13 := bitString &&& 0x1fff
  asi := (bitString &&& 0x1fe0) >>> 5
  cond := (bitString &&& 0x1e000000) >>> 25
  a := (bitString &&& 0x20000000) >>> 29
  disp22 := bitString &&& 0x3fffff
  imm22 := bitString &&& 0x3fffff
  disp30 := bitString &&& 0x3fffffff
  imm7 := bitString &&& 0x7f

variable {σ : Type}

/-- The second operand of an instruction, from its fields. -/
abbrev Operand (σ : Type) := Params → Processor σ → BitVec 32

def rs2 : Operand σ := fun p s => s.reg p.rs2Bit

def simm13 : Operand σ := fun p _ => signExtend p.simm13 13

/-! ## Condition codes -/

/-- A truth value as an unsigned integer. -/
def ofBool (b : Bool) : BitVec 32 := if b then 1 else 0

/-- How an instruction writes the condition codes from its result and its operands. -/
abbrev Icc := BitVec 32 → BitVec 32 → BitVec 32 → BitVec 32 → BitVec 32

def iccKeep : Icc := fun _ _ _ psr => psr

def addOverflow (result a b : BitVec 32) : BitVec 32 :=
  ((a &&& b &&& ~~~result) ||| (~~~a &&& ~~~b &&& result)) >>> 31

def addCarry (result a b : BitVec 32) : BitVec 32 := ((a &&& b) ||| ((a ||| b) &&& ~~~result)) >>> 31

def subOverflow (result a b : BitVec 32) : BitVec 32 :=
  ((a &&& ~~~b &&& ~~~result) ||| (~~~a &&& b &&& result)) >>> 31

def subCarry (result a b : BitVec 32) : BitVec 32 := ((~~~a &&& b) ||| ((~~~a ||| b) &&& result)) >>> 31

/-- The codes of the sign and of zero are the same everywhere. -/
def iccWrite (result ov c psr : BitVec 32) : BitVec 32 :=
  PSR.writeIcc psr ((result &&& 0x80000000) >>> 31) (ofBool (result = 0)) ov c

def iccWriteLogic : Icc := fun result _ _ psr => iccWrite result 0 0 psr

def iccWriteAdd : Icc := fun result a b psr =>
  iccWrite result (addOverflow result a b) (addCarry result a b) psr

def iccWriteSub : Icc := fun result a b psr =>
  iccWrite result (subOverflow result a b) (subCarry result a b) psr

/-! ## Arithmetic and logic -/

/-- An operation of the carry and the two operands. -/
def operation (f : BitVec 32 → BitVec 32 → BitVec 32 → BitVec 32) (icc : Icc) (second : Operand σ)
    (p : Params) :
    Behavior σ Unit := do
  incrementPC
  let rs1Op ← readReg p.rs1Bit
  let rs2Op ← Program.read (second p)
  let carry ← Program.read fun s => PSR.iccC s.PSR
  let result := f carry rs1Op rs2Op
  setPsr (icc result rs1Op rs2Op)
  writeReg p.rdBit result

def opAdd : BitVec 32 → BitVec 32 → BitVec 32 → BitVec 32 := fun _ a b => a + b
def opAddx : BitVec 32 → BitVec 32 → BitVec 32 → BitVec 32 := fun c a b => a + b + c
def opSub : BitVec 32 → BitVec 32 → BitVec 32 → BitVec 32 := fun _ a b => a - b
def opSubx : BitVec 32 → BitVec 32 → BitVec 32 → BitVec 32 := fun c a b => a - b - c
def opAnd : BitVec 32 → BitVec 32 → BitVec 32 → BitVec 32 := fun _ a b => a &&& b
def opAndn : BitVec 32 → BitVec 32 → BitVec 32 → BitVec 32 := fun _ a b => a &&& ~~~b
def opOr : BitVec 32 → BitVec 32 → BitVec 32 → BitVec 32 := fun _ a b => a ||| b
def opOrn : BitVec 32 → BitVec 32 → BitVec 32 → BitVec 32 := fun _ a b => a ||| ~~~b
def opXor : BitVec 32 → BitVec 32 → BitVec 32 → BitVec 32 := fun _ a b => a ^^^ b
def opXnor : BitVec 32 → BitVec 32 → BitVec 32 → BitVec 32 := fun _ a b => a ^^^ ~~~b
def opSll : BitVec 32 → BitVec 32 → BitVec 32 → BitVec 32 := fun _ a b => a <<< (b &&& 0x1f)
def opSrl : BitVec 32 → BitVec 32 → BitVec 32 → BitVec 32 := fun _ a b => a >>> (b &&& 0x1f)
def opSra : BitVec 32 → BitVec 32 → BitVec 32 → BitVec 32 :=
  fun _ a b => a.sshiftRight (b &&& 0x1f).toNat

def addReg : Params → Behavior σ Unit := operation opAdd iccKeep rs2
def addImm : Params → Behavior σ Unit := operation opAdd iccKeep simm13
def addccReg : Params → Behavior σ Unit := operation opAdd iccWriteAdd rs2
def addccImm : Params → Behavior σ Unit := operation opAdd iccWriteAdd simm13
def addxReg : Params → Behavior σ Unit := operation opAddx iccKeep rs2
def addxImm : Params → Behavior σ Unit := operation opAddx iccKeep simm13
def addxccReg : Params → Behavior σ Unit := operation opAddx iccWriteAdd rs2
def addxccImm : Params → Behavior σ Unit := operation opAddx iccWriteAdd simm13
def subReg : Params → Behavior σ Unit := operation opSub iccKeep rs2
def subImm : Params → Behavior σ Unit := operation opSub iccKeep simm13
def subccReg : Params → Behavior σ Unit := operation opSub iccWriteSub rs2
def subccImm : Params → Behavior σ Unit := operation opSub iccWriteSub simm13
def subxReg : Params → Behavior σ Unit := operation opSubx iccKeep rs2
def subxImm : Params → Behavior σ Unit := operation opSubx iccKeep simm13
def subxccReg : Params → Behavior σ Unit := operation opSubx iccWriteSub rs2
def subxccImm : Params → Behavior σ Unit := operation opSubx iccWriteSub simm13
def andReg : Params → Behavior σ Unit := operation opAnd iccKeep rs2
def andImm : Params → Behavior σ Unit := operation opAnd iccKeep simm13
def andccReg : Params → Behavior σ Unit := operation opAnd iccWriteLogic rs2
def andccImm : Params → Behavior σ Unit := operation opAnd iccWriteLogic simm13
def andnReg : Params → Behavior σ Unit := operation opAndn iccKeep rs2
def andnImm : Params → Behavior σ Unit := operation opAndn iccKeep simm13
def andnccReg : Params → Behavior σ Unit := operation opAndn iccWriteLogic rs2
def andnccImm : Params → Behavior σ Unit := operation opAndn iccWriteLogic simm13
def orReg : Params → Behavior σ Unit := operation opOr iccKeep rs2
def orImm : Params → Behavior σ Unit := operation opOr iccKeep simm13
def orccReg : Params → Behavior σ Unit := operation opOr iccWriteLogic rs2
def orccImm : Params → Behavior σ Unit := operation opOr iccWriteLogic simm13
def ornReg : Params → Behavior σ Unit := operation opOrn iccKeep rs2
def ornImm : Params → Behavior σ Unit := operation opOrn iccKeep simm13
def ornccReg : Params → Behavior σ Unit := operation opOrn iccWriteLogic rs2
def ornccImm : Params → Behavior σ Unit := operation opOrn iccWriteLogic simm13
def xorReg : Params → Behavior σ Unit := operation opXor iccKeep rs2
def xorImm : Params → Behavior σ Unit := operation opXor iccKeep simm13
def xorccReg : Params → Behavior σ Unit := operation opXor iccWriteLogic rs2
def xorccImm : Params → Behavior σ Unit := operation opXor iccWriteLogic simm13
def xnorReg : Params → Behavior σ Unit := operation opXnor iccKeep rs2
def xnorImm : Params → Behavior σ Unit := operation opXnor iccKeep simm13
def xnorccReg : Params → Behavior σ Unit := operation opXnor iccWriteLogic rs2
def xnorccImm : Params → Behavior σ Unit := operation opXnor iccWriteLogic simm13
def sllReg : Params → Behavior σ Unit := operation opSll iccKeep rs2
def srlReg : Params → Behavior σ Unit := operation opSrl iccKeep rs2
def sraReg : Params → Behavior σ Unit := operation opSra iccKeep rs2

/-- The shifts by an immediate take the whole field as the count, which is undefined from 32 on. -/
def shiftImm (f : BitVec 32 → ℕ → BitVec 32) (p : Params) : Behavior σ Unit := do
  incrementPC
  let rs1Op ← readReg p.rs1Bit
  if p.simm13.toNat < 32 then
    writeReg p.rdBit (f rs1Op p.simm13.toNat)
  else
    Program.stop .undefined

def sllImm : Params → Behavior σ Unit := shiftImm BitVec.shiftLeft
def srlImm : Params → Behavior σ Unit := shiftImm BitVec.ushiftRight
def sraImm : Params → Behavior σ Unit := shiftImm BitVec.sshiftRight

/-- The tag overflow of an operation: its own, or a tag that is not zero. -/
def tagged (overflow a b : BitVec 32) : Bool := overflow ≠ 0 || (a ||| b) &&& 0x00000003 ≠ 0

/-- A tagged operation that writes its overflow to the condition codes. -/
def taggedOperation (f : BitVec 32 → BitVec 32 → BitVec 32)
    (overflow carry : BitVec 32 → BitVec 32 → BitVec 32 → BitVec 32)
    (second : Operand σ) (p : Params) : Behavior σ Unit := do
  incrementPC
  let rs1Op ← readReg p.rs1Bit
  let rs2Op ← Program.read (second p)
  let result := f rs1Op rs2Op
  let tempV := tagged (overflow result rs1Op rs2Op) rs1Op rs2Op
  setPsr (iccWrite result (ofBool tempV) (carry result rs1Op rs2Op))
  writeReg p.rdBit result

/-- A tagged operation that traps on its overflow. -/
def taggedTrap (f : BitVec 32 → BitVec 32 → BitVec 32)
    (overflow carry : BitVec 32 → BitVec 32 → BitVec 32 → BitVec 32)
    (second : Operand σ) (p : Params) : Behavior σ Unit := do
  let pcounter ← Program.read (·.PC)
  let npcounter ← Program.read (·.NPC)
  incrementPC
  let rs1Op ← readReg p.rs1Bit
  let rs2Op ← Program.read (second p)
  let result := f rs1Op rs2Op
  let tempV := tagged (overflow result rs1Op rs2Op) rs1Op rs2Op
  if !tempV then
    setPsr (iccWrite result 0 (carry result rs1Op rs2Op))
  if tempV then
    raiseException pcounter npcounter tagOverflow 0
  if !tempV then
    writeReg p.rdBit result

def taddccReg : Params → Behavior σ Unit := taggedOperation (· + ·) addOverflow addCarry rs2
def taddccImm : Params → Behavior σ Unit := taggedOperation (· + ·) addOverflow addCarry simm13
def tsubccReg : Params → Behavior σ Unit := taggedOperation (· - ·) subOverflow subCarry rs2
def tsubccImm : Params → Behavior σ Unit := taggedOperation (· - ·) subOverflow subCarry simm13
def taddcctvReg : Params → Behavior σ Unit := taggedTrap (· + ·) addOverflow addCarry rs2
def taddcctvImm : Params → Behavior σ Unit := taggedTrap (· + ·) addOverflow addCarry simm13
def tsubcctvReg : Params → Behavior σ Unit := taggedTrap (· - ·) subOverflow subCarry rs2
def tsubcctvImm : Params → Behavior σ Unit := taggedTrap (· - ·) subOverflow subCarry simm13

def sethi (p : Params) : Behavior σ Unit := do
  incrementPC
  writeReg p.rdBit (0xfffffc00 &&& (p.imm22 <<< 10))

/-! ## Multiplication and division -/

/-- A product of 64 bits, its high half in `Y`. -/
def multiply (product : BitVec 32 → BitVec 32 → BitVec 64) (icc : Icc) (second : Operand σ)
    (p : Params) :
    Behavior σ Unit := do
  incrementPC
  let rs1Op ← readReg p.rs1Bit
  let rs2Op ← Program.read (second p)
  let resultTemp := product rs1Op rs2Op
  setY ((resultTemp >>> 32).setWidth 32)
  let result := resultTemp.setWidth 32
  stall 3
  setPsr (icc result rs1Op rs2Op)
  writeReg p.rdBit result

def unsignedProduct (a b : BitVec 32) : BitVec 64 := a.setWidth 64 * b.setWidth 64

def signedProduct (a b : BitVec 32) : BitVec 64 := a.signExtend 64 * b.signExtend 64

def umulReg : Params → Behavior σ Unit := multiply unsignedProduct iccKeep rs2
def umulImm : Params → Behavior σ Unit := multiply unsignedProduct iccKeep simm13
def umulccReg : Params → Behavior σ Unit := multiply unsignedProduct iccWriteLogic rs2
def umulccImm : Params → Behavior σ Unit := multiply unsignedProduct iccWriteLogic simm13
def smulReg : Params → Behavior σ Unit := multiply signedProduct iccKeep rs2
def smulImm : Params → Behavior σ Unit := multiply signedProduct iccKeep simm13
def smulccReg : Params → Behavior σ Unit := multiply signedProduct iccWriteLogic rs2
def smulccImm : Params → Behavior σ Unit := multiply signedProduct iccWriteLogic simm13

/-- One step of a multiplication. -/
def mulscc (second : Operand σ) (p : Params) : Behavior σ Unit := do
  incrementPC
  let rs1Op ← readReg p.rs1Bit
  let rs2Op ← Program.read (second p)
  let psr ← Program.read (·.PSR)
  let yOld ← Program.read (·.Y)
  let yNew := (yOld >>> 1) ||| (rs1Op <<< 31)
  let rs1Op := ((PSR.iccN psr ^^^ PSR.iccV psr) <<< 31) ||| (rs1Op >>> 1)
  let rs2Op := if yOld &&& 0x00000001 ≠ 0 then rs2Op else 0
  let result := rs1Op + rs2Op
  setY yNew
  setPsr (iccWriteAdd result rs1Op rs2Op)
  writeReg p.rdBit result

def mulsccReg : Params → Behavior σ Unit := mulscc rs2
def mulsccImm : Params → Behavior σ Unit := mulscc simm13

/-- A quotient of 64 bits brought to 32, with its overflow; none where the division is undefined. -/
abbrev Quotient := BitVec 64 → BitVec 32 → Option (BitVec 32 × Bool)

def unsignedQuotient : Quotient := fun dividend divisor =>
  let res64 := dividend / divisor.setWidth 64
  if res64 &&& 0xffffffff00000000 ≠ 0 then some (0xffffffff, true) else some (res64.setWidth 32, false)

def signedQuotient : Quotient := fun dividend divisor =>
  if dividend = BitVec.intMin 64 ∧ divisor = -1 then none
  else
    let res64 := dividend.sdiv (divisor.signExtend 64)
    if res64 &&& 0xffffffff80000000 ≠ 0 ∧ res64 &&& 0xffffffff80000000 ≠ 0xffffffff80000000 then
      if (0 : BitVec 64).slt res64 then some (0x7fffffff, true) else some (0x80000000, true)
    else some (res64.setWidth 32, false)

/-- A division of `Y` and the first operand by the second. -/
def divide (quotient : Quotient) (cc : Bool) (second : Operand σ) (p : Params) : Behavior σ Unit := do
  let pcounter ← Program.read (·.PC)
  let npcounter ← Program.read (·.NPC)
  incrementPC
  let rs1Op ← readReg p.rs1Bit
  let rs2Op ← Program.read (second p)
  let y ← Program.read (·.Y)
  if rs2Op = 0 then
    stall 34
    raiseException pcounter npcounter divZero 0
  else
    match quotient (y ++ rs1Op) rs2Op with
    | none => Program.stop .undefined
    | some (result, tempV) =>
      stall 34
      if cc then setPsr (iccWrite result (ofBool tempV) 0)
      writeReg p.rdBit result

def udivReg : Params → Behavior σ Unit := divide unsignedQuotient false rs2
def udivImm : Params → Behavior σ Unit := divide unsignedQuotient false simm13
def udivccReg : Params → Behavior σ Unit := divide unsignedQuotient true rs2
def udivccImm : Params → Behavior σ Unit := divide unsignedQuotient true simm13
def sdivReg : Params → Behavior σ Unit := divide signedQuotient false rs2
def sdivImm : Params → Behavior σ Unit := divide signedQuotient false simm13
def sdivccReg : Params → Behavior σ Unit := divide signedQuotient true rs2
def sdivccImm : Params → Behavior σ Unit := divide signedQuotient true simm13

/-- Add a product of 16 bit operands to the accumulator of 40 bits in `Y` and an ancillary register. -/
def accumulate (product : BitVec 32 → BitVec 32 → BitVec 64) (low : BitVec 32 → BitVec 64)
    (second : Operand σ)
    (p : Params) : Behavior σ Unit := do
  incrementPC
  let rs1Op ← readReg p.rs1Bit
  let rs2Op ← Program.read (second p)
  let y ← Program.read (·.Y)
  let asr18 ← Program.read fun s => s.ASR 18
  let resultAcc := ((((y &&& 0x000000ff).setWidth 64) <<< 32) ||| low asr18) + product rs1Op rs2Op
  setY (((resultAcc &&& 0x000000ff00000000) >>> 32).setWidth 32)
  setAsr 18 (resultAcc.setWidth 32)
  let result := resultAcc.setWidth 32
  stall 1
  writeReg p.rdBit result

def umacProduct (a b : BitVec 32) : BitVec 64 := ((a &&& 0x0000ffff) * (b &&& 0x0000ffff)).setWidth 64

def smacProduct (a b : BitVec 32) : BitVec 64 :=
  (signExtend (a &&& 0x0000ffff) 16 * signExtend (b &&& 0x0000ffff) 16).signExtend 64

/-- The low word is an `int` here: its sign reaches into the bits taken from `Y`. -/
def smacReg : Params → Behavior σ Unit := accumulate smacProduct (BitVec.signExtend 64) rs2
def smacImm : Params → Behavior σ Unit := accumulate smacProduct (BitVec.signExtend 64) simm13
def umacReg : Params → Behavior σ Unit := accumulate umacProduct (BitVec.setWidth 64) rs2
def umacImm : Params → Behavior σ Unit := accumulate umacProduct (BitVec.setWidth 64) simm13

/-! ## State registers -/

def readY (p : Params) : Behavior σ Unit := do
  incrementPC
  let yTemp ← Program.read (·.Y)
  writeReg p.rdBit yTemp

def readAsr (p : Params) : Behavior σ Unit := do
  incrementPC
  let asrTemp ← Program.read fun s => s.ASR p.asr
  writeReg p.rdBit asrTemp

/-- A read of a register that is the supervisor's. -/
def readPriviledged (register : Processor σ → BitVec 32) (p : Params) : Behavior σ Unit := do
  let pcounter ← Program.read (·.PC)
  let npcounter ← Program.read (·.NPC)
  incrementPC
  let temp ← Program.read register
  let supervisor ← Program.read fun s => decide (PSR.supervisor s.PSR ≠ 0)
  if !supervisor then
    raiseException pcounter npcounter priviledgeInstr 0
  writeReg p.rdBit temp

def readPsr : Params → Behavior σ Unit := readPriviledged (·.PSR)
def readWim : Params → Behavior σ Unit := readPriviledged (·.WIM)
def readTbr : Params → Behavior σ Unit := readPriviledged (·.TBR)

def writesY (second : Operand σ) (p : Params) : Behavior σ Unit := do
  incrementPC
  let result := (← readReg p.rs1Bit) ^^^ (← Program.read (second p))
  setY result

def writeYReg : Params → Behavior σ Unit := writesY rs2
def writeYImm : Params → Behavior σ Unit := writesY simm13

/-- A write of an ancillary register goes to `Y` as well. -/
def writesAsr (second : Operand σ) (p : Params) : Behavior σ Unit := do
  incrementPC
  let result := (← readReg p.rs1Bit) ^^^ (← Program.read (second p))
  setY result
  setAsr p.rdBit result

def writeAsrReg : Params → Behavior σ Unit := writesAsr rs2
def writeAsrImm : Params → Behavior σ Unit := writesAsr simm13

def writesPsr (second : Operand σ) (p : Params) : Behavior σ Unit := do
  let pcounter ← Program.read (·.PC)
  let npcounter ← Program.read (·.NPC)
  incrementPC
  let result := PSR.written ((← readReg p.rs1Bit) ^^^ (← Program.read (second p)))
  let supervisorException ← Program.read fun s => decide (PSR.supervisor s.PSR = 0)
  let illegalCWP := decide (8 ≤ result &&& 0x0000001f)
  if !(supervisorException || illegalCWP) then
    Program.update fun s => (s.updateAliases (result &&& 0x0000001f)).setPsr result
  if supervisorException then
    raiseException pcounter npcounter priviledgeInstr 0
  if illegalCWP then
    raiseException pcounter npcounter illegalInstr 0

def writePsrReg : Params → Behavior σ Unit := writesPsr rs2
def writePsrImm : Params → Behavior σ Unit := writesPsr simm13

/-- A write of a register that is the supervisor's, other than the state register. -/
def writesPriviledged (set : BitVec 32 → Processor σ → Processor σ) (second : Operand σ) (p : Params) :
    Behavior σ Unit := do
  let pcounter ← Program.read (·.PC)
  let npcounter ← Program.read (·.NPC)
  incrementPC
  let result := (← readReg p.rs1Bit) ^^^ (← Program.read (second p))
  let raise ← Program.read fun s => decide (PSR.supervisor s.PSR = 0)
  if raise then
    raiseException pcounter npcounter priviledgeInstr 0
  if !raise then
    Program.update (set result)

/-- Only the bits of the eight windows are kept. -/
def setWim (result : BitVec 32) (s : Processor σ) : Processor σ :=
  { s with WIM := result &&& (0xffffffff >>> 24) }

/-- The base address is not replaced: its bits are added to those already set. -/
def setTbr (result : BitVec 32) (s : Processor σ) : Processor σ :=
  { s with TBR := s.TBR ||| (result &&& 0xfffff000) }

def writeWimReg : Params → Behavior σ Unit := writesPriviledged setWim rs2
def writeWimImm : Params → Behavior σ Unit := writesPriviledged setWim simm13
def writeTbrReg : Params → Behavior σ Unit := writesPriviledged setTbr rs2
def writeTbrImm : Params → Behavior σ Unit := writesPriviledged setTbr simm13

/-! ## Register windows -/

/-- An addition in one window with the result in another. -/
def changeWindow (change : Behavior σ Bool) (exceptionId : BitVec 32) (second : Operand σ)
    (p : Params) :
    Behavior σ Unit := do
  let pcounter ← Program.read (·.PC)
  let npcounter ← Program.read (·.NPC)
  incrementPC
  let result := (← readReg p.rs1Bit) + (← Program.read (second p))
  let okNewWin ← change
  if !okNewWin then
    raiseException pcounter npcounter exceptionId 0
  if okNewWin then
    writeReg p.rdBit result

def saveReg : Params → Behavior σ Unit := changeWindow decrementRegWindow windowOverflow rs2
def saveImm : Params → Behavior σ Unit := changeWindow decrementRegWindow windowOverflow simm13
def restoreReg : Params → Behavior σ Unit := changeWindow incrementRegWindow windowUnderflow rs2
def restoreImm : Params → Behavior σ Unit := changeWindow incrementRegWindow windowUnderflow simm13

/-! ## Loads -/

/-- The address of an access. -/
def effectiveAddress (second : Operand σ) (p : Params) : Behavior σ (BitVec 32) := do
  return (← readReg p.rs1Bit) + (← Program.read (second p))

/-- What a load does with the memory. -/
abbrev Read (σ α : Type) := (address asi : BitVec 32) → σ → Reply σ α

variable (bus : MemoryInterface σ)

def readByteSigned : Read σ (BitVec 32) := fun address asi m =>
  (bus.readByte address asi 0 0 m).map fun v => signExtend (v.setWidth 32) 8

def readByte : Read σ (BitVec 32) := fun address asi m =>
  (bus.readByte address asi 0 0 m).map (·.setWidth 32)

def readHalfSigned : Read σ (BitVec 32) := fun address asi m =>
  (bus.readHalf address asi 0 0 m).map fun v => signExtend (v.setWidth 32) 16

def readHalf : Read σ (BitVec 32) := fun address asi m =>
  (bus.readHalf address asi 0 0 m).map (·.setWidth 32)

def readWord : Read σ (BitVec 32) := fun address asi => bus.readWord address asi 0 0

/-- The read of an exchange locks the bus. -/
def readWordLocked : Read σ (BitVec 32) := fun address asi => bus.readWord address asi 0 1

def readDword : Read σ (BitVec 64) := fun address asi => bus.readDword address asi 0 0

/-- The two registers of a double word: the even one holds its low half. -/
def writePair (rdBit : BitVec 5) (readValue : BitVec 64) : Behavior σ Unit := do
  if rdBit % 2 = 0 then
    writeReg rdBit (readValue.setWidth 32)
    writeReg (rdBit + 1) ((readValue >>> 32).setWidth 32)
  else
    writeReg (rdBit - 1) (readValue.setWidth 32)
    writeReg rdBit ((readValue >>> 32).setWidth 32)

/-- A load of a byte. -/
def loadByte (load : Read σ (BitVec 32)) (second : Operand σ) (p : Params) : Behavior σ Unit := do
  let address ← effectiveAddress second p
  let readValue ← access (load address (← dataAsi))
  writeReg p.rdBit readValue
  incrementPC

/-- A load that reads first and checks the alignment then. -/
def loadFirst (mask : BitVec 32) (load : Read σ (BitVec 32)) (second : Operand σ) (p : Params) :
    Behavior σ Unit := do
  let pcounter ← Program.read (·.PC)
  let npcounter ← Program.read (·.NPC)
  let address ← effectiveAddress second p
  let readValue ← access (load address (← dataAsi))
  if address &&& mask ≠ 0 then
    raiseException pcounter npcounter memAddrNotAligned 0
  writeReg p.rdBit readValue
  incrementPC

def ldsbReg : Params → Behavior σ Unit := loadByte (readByteSigned bus) rs2
def ldsbImm : Params → Behavior σ Unit := loadByte (readByteSigned bus) simm13
def ldubReg : Params → Behavior σ Unit := loadByte (readByte bus) rs2
def ldubImm : Params → Behavior σ Unit := loadByte (readByte bus) simm13
def lduhReg : Params → Behavior σ Unit := loadFirst 0x00000001 (readHalf bus) rs2
def lduhImm : Params → Behavior σ Unit := loadFirst 0x00000001 (readHalf bus) simm13
def ldReg : Params → Behavior σ Unit := loadFirst 0x00000003 (readWord bus) rs2
def ldImm : Params → Behavior σ Unit := loadFirst 0x00000003 (readWord bus) simm13

/-- The signed load of a half word reads aligned addresses only. -/
def loadSignedHalf (second : Operand σ) (p : Params) : Behavior σ Unit := do
  let pcounter ← Program.read (·.PC)
  let npcounter ← Program.read (·.NPC)
  let address ← effectiveAddress second p
  if address &&& 0x00000001 ≠ 0 then
    raiseException pcounter npcounter memAddrNotAligned 0
  else
    let readValue ← access (readHalfSigned bus address (← dataAsi))
    writeReg p.rdBit readValue
    incrementPC

def ldshReg : Params → Behavior σ Unit := loadSignedHalf bus rs2
def ldshImm : Params → Behavior σ Unit := loadSignedHalf bus simm13

def loadDouble (second : Operand σ) (p : Params) : Behavior σ Unit := do
  let pcounter ← Program.read (·.PC)
  let npcounter ← Program.read (·.NPC)
  let address ← effectiveAddress second p
  if address &&& 0x00000007 ≠ 0 then
    raiseException pcounter npcounter memAddrNotAligned 0
  else
    let readValue ← access (readDword bus address (← dataAsi))
    stall 1
    writePair p.rdBit readValue
    incrementPC

def lddReg : Params → Behavior σ Unit := loadDouble bus rs2
def lddImm : Params → Behavior σ Unit := loadDouble bus simm13

/-- A load from another address space. It reads before it looks at the mode. -/
def loadAlternate {α : Type} (mask : BitVec 32) (load : Read σ α)
    (set : BitVec 5 → α → Behavior σ Unit) (p : Params) :
    Behavior σ Unit := do
  let pcounter ← Program.read (·.PC)
  let npcounter ← Program.read (·.NPC)
  let address ← effectiveAddress rs2 p
  let supervisor ← Program.read fun s => decide (PSR.supervisor s.PSR ≠ 0)
  let readValue ← access (load address p.asi)
  if !supervisor then
    raiseException pcounter npcounter priviledgeInstr 0
  if address &&& mask ≠ 0 then
    raiseException pcounter npcounter memAddrNotAligned 0
  set p.rdBit readValue
  incrementPC

/-- A byte is aligned everywhere. -/
def ldsbaReg : Params → Behavior σ Unit := loadAlternate 0x00000000 (readByteSigned bus) writeReg
def ldubaReg : Params → Behavior σ Unit := loadAlternate 0x00000000 (readByte bus) writeReg
def ldshaReg : Params → Behavior σ Unit := loadAlternate 0x00000001 (readHalfSigned bus) writeReg
def lduhaReg : Params → Behavior σ Unit := loadAlternate 0x00000001 (readHalf bus) writeReg
def ldaReg : Params → Behavior σ Unit := loadAlternate 0x00000003 (readWord bus) writeReg
def lddaReg : Params → Behavior σ Unit := loadAlternate 0x00000007 (readDword bus) writePair

/-! ## Stores -/

/-- What a store does with the memory. -/
abbrev Write (σ α : Type) := (address : BitVec 32) → (datum : α) → (asi : BitVec 32) → σ → Reply σ Unit

def writeByte : Write σ (BitVec 8) := fun address datum asi => bus.writeByte address datum asi 0 0
def writeHalf : Write σ (BitVec 16) := fun address datum asi => bus.writeHalf address datum asi 0 0
def writeWord : Write σ (BitVec 32) := fun address datum asi => bus.writeWord address datum asi 0 0
def writeDword : Write σ (BitVec 64) := fun address datum asi => bus.writeDword address datum asi 0 0

/-- The low bits of the register. -/
def low (n : ℕ) (rdBit : BitVec 5) : Behavior σ (BitVec n) := do
  return (← readReg rdBit).setWidth n

/-- The register and its neighbour as a double word: the even one is its low half. -/
def pair (rdBit : BitVec 5) : Behavior σ (BitVec 64) := do
  let rd ← readReg rdBit
  if rdBit % 2 = 0 then
    return rd.setWidth 64 ||| ((← readReg (rdBit + 1)).setWidth 64 <<< 32)
  else
    return (← readReg (rdBit - 1)).setWidth 64 ||| (rd.setWidth 64 <<< 32)

def storeByte (second : Operand σ) (p : Params) : Behavior σ Unit := do
  let address ← effectiveAddress second p
  let toWrite ← low 8 p.rdBit
  access (writeByte bus address toWrite (← dataAsi))
  stall 1
  incrementPC

def stbReg : Params → Behavior σ Unit := storeByte bus rs2
def stbImm : Params → Behavior σ Unit := storeByte bus simm13

/-- A store that writes aligned addresses only. -/
def store {α : Type} (mask : BitVec 32) (cycles : ℕ) (datum : BitVec 5 → Behavior σ α)
    (write : Write σ α)
    (second : Operand σ) (p : Params) : Behavior σ Unit := do
  let pcounter ← Program.read (·.PC)
  let npcounter ← Program.read (·.NPC)
  let address ← effectiveAddress second p
  let toWrite ← datum p.rdBit
  if address &&& mask = 0 then
    access (write address toWrite (← dataAsi))
  else flush
  stall cycles
  if address &&& mask ≠ 0 then
    raiseException pcounter npcounter memAddrNotAligned 0
  incrementPC

def sthReg : Params → Behavior σ Unit := store 0x00000001 1 (low 16) (writeHalf bus) rs2
def sthImm : Params → Behavior σ Unit := store 0x00000001 1 (low 16) (writeHalf bus) simm13
def stReg : Params → Behavior σ Unit := store 0x00000003 1 readReg (writeWord bus) rs2
def stImm : Params → Behavior σ Unit := store 0x00000003 1 readReg (writeWord bus) simm13
def stdReg : Params → Behavior σ Unit := store 0x00000007 2 pair (writeDword bus) rs2
def stdImm : Params → Behavior σ Unit := store 0x00000007 2 pair (writeDword bus) simm13

def stbaReg (p : Params) : Behavior σ Unit := do
  let pcounter ← Program.read (·.PC)
  let npcounter ← Program.read (·.NPC)
  let address ← effectiveAddress rs2 p
  let toWrite ← low 8 p.rdBit
  let supervisor ← Program.read fun s => decide (PSR.supervisor s.PSR ≠ 0)
  if supervisor then
    access (writeByte bus address toWrite p.asi)
  else flush
  stall 1
  if !supervisor then
    raiseException pcounter npcounter priviledgeInstr 0
  incrementPC

/-- A store to another address space. It writes for the supervisor or where the address is aligned. -/
def storeAlternate {α : Type} (mask : BitVec 32) (datum : BitVec 5 → Behavior σ α)
    (write : Write σ α) (p : Params) :
    Behavior σ Unit := do
  let pcounter ← Program.read (·.PC)
  let npcounter ← Program.read (·.NPC)
  let address ← effectiveAddress rs2 p
  let toWrite ← datum p.rdBit
  let supervisor ← Program.read fun s => decide (PSR.supervisor s.PSR ≠ 0)
  if supervisor || decide (address &&& mask = 0) then
    access (write address toWrite p.asi)
  else flush
  stall 1
  if !supervisor then
    raiseException pcounter npcounter priviledgeInstr 0
  if address &&& mask ≠ 0 then
    raiseException pcounter npcounter memAddrNotAligned 0
  incrementPC

/-- The double word of a store to another address space: a truth value, and of an odd register the
one above it, which the last one does not have. -/
def pairAlternate (rdBit : BitVec 5) : Behavior σ (BitVec 64) := do
  if rdBit = 31 then Program.stop .undefined
  let rd ← readReg rdBit
  let above ← readReg (rdBit + 1)
  if rdBit % 2 = 0 then
    return (ofBool (rd ≠ 0 || above.setWidth 64 <<< 32 ≠ 0)).setWidth 64
  else
    return (ofBool (above ≠ 0 || rd.setWidth 64 <<< 32 ≠ 0)).setWidth 64

def sthaReg : Params → Behavior σ Unit := storeAlternate 0x00000001 (low 16) (writeHalf bus)
def staReg : Params → Behavior σ Unit := storeAlternate 0x00000003 readReg (writeWord bus)
def stdaReg : Params → Behavior σ Unit := storeAlternate 0x00000003 pairAlternate (writeDword bus)

/-! ## Exchanges with the memory -/

def ldstub (second : Operand σ) (p : Params) : Behavior σ Unit := do
  let address ← effectiveAddress second p
  let readValue ← access (readByte bus address (← dataAsi))
  access (writeByte bus address 0xff (← dataAsi))
  stall 2
  writeReg p.rdBit readValue
  incrementPC

def ldstubReg : Params → Behavior σ Unit := ldstub bus rs2
def ldstubImm : Params → Behavior σ Unit := ldstub bus simm13

def ldstubaReg (p : Params) : Behavior σ Unit := do
  let pcounter ← Program.read (·.PC)
  let npcounter ← Program.read (·.NPC)
  let address ← effectiveAddress rs2 p
  let supervisor ← Program.read fun s => decide (PSR.supervisor s.PSR ≠ 0)
  if supervisor then
    let readValue ← access (readByte bus address p.asi)
    access (writeByte bus address 0xff p.asi)
    stall 2
    writeReg p.rdBit readValue
    incrementPC
  else
    stall 2
    raiseException pcounter npcounter priviledgeInstr 0

def swap (second : Operand σ) (p : Params) : Behavior σ Unit := do
  let pcounter ← Program.read (·.PC)
  let npcounter ← Program.read (·.NPC)
  let address ← effectiveAddress second p
  let toWrite ← readReg p.rdBit
  if address &&& 0x00000003 ≠ 0 then
    stall 2
    raiseException pcounter npcounter memAddrNotAligned 0
  else
    let readValue ← access (readWordLocked bus address (← dataAsi))
    access (writeWord bus address toWrite (← dataAsi))
    stall 2
    writeReg p.rdBit readValue
    incrementPC

def swapReg : Params → Behavior σ Unit := swap bus rs2
def swapImm : Params → Behavior σ Unit := swap bus simm13

def swapaReg (p : Params) : Behavior σ Unit := do
  let pcounter ← Program.read (·.PC)
  let npcounter ← Program.read (·.NPC)
  let address ← effectiveAddress rs2 p
  let toWrite ← readReg p.rdBit
  let supervisor ← Program.read fun s => decide (PSR.supervisor s.PSR ≠ 0)
  if !supervisor then
    stall 2
    raiseException pcounter npcounter priviledgeInstr 0
  else if address &&& 0x00000003 ≠ 0 then
    stall 2
    raiseException pcounter npcounter memAddrNotAligned 0
  else
    let readValue ← access (readWordLocked bus address p.asi)
    access (writeWord bus address toWrite p.asi)
    stall 2
    writeReg p.rdBit readValue
    incrementPC

/-! ## Control transfers -/

/-- The test of the condition codes by a condition of a branch or a trap. -/
def condHolds (cond psr : BitVec 32) : Bool :=
  let iccZ := decide (PSR.iccZ psr ≠ 0)
  let iccN := decide (PSR.iccN psr ≠ 0)
  let iccV := decide (PSR.iccV psr ≠ 0)
  let iccC := decide (PSR.iccC psr ≠ 0)
  (cond == 0x9 && !iccZ) || (cond == 0x1 && iccZ) || (cond == 0xa && !iccZ && (iccN == iccV)) ||
    (cond == 0x2 && (iccZ || (iccN != iccV))) || (cond == 0xb && (iccN == iccV)) ||
    (cond == 0x3 && (iccN != iccV)) || (cond == 0xc && !iccC && !iccZ) ||
    (cond == 0x4 && (iccC || iccZ)) ||
    (cond == 0xd && !iccC) || (cond == 0x5 && iccC) || (cond == 0xe && !iccN) ||
    (cond == 0x6 && iccN) ||
    (cond == 0xf && !iccV) || (cond == 0x7 && iccV)

def branch (p : Params) : Behavior σ Unit := do
  Program.update (·.setCycles 2)
  let pcounter ← Program.read (·.PC)
  let npcounter ← Program.read (·.NPC)
  let targetPc := pcounter + 4 * signExtend p.disp22 22
  if p.cond = 0x8 then
    if p.a = 1 then continueAt targetPc (targetPc + 4) else continueAt npcounter targetPc
  else if p.cond = 0 then
    if p.a = 1 then continueAt (npcounter + 4) (npcounter + 8) else continueAt npcounter (npcounter + 4)
  else
    let psr ← Program.read (·.PSR)
    if condHolds p.cond psr then continueAt npcounter targetPc
    else if p.a = 1 then continueAt (npcounter + 4) (npcounter + 8)
    else continueAt npcounter (npcounter + 4)

def call (p : Params) : Behavior σ Unit := do
  let pcounter ← Program.read (·.PC)
  let npcounter ← Program.read (·.NPC)
  let target := pcounter + (p.disp30 <<< 2)
  continueAt npcounter target
  writeReg 15 pcounter

def jump (second : Operand σ) (p : Params) : Behavior σ Unit := do
  let pcounter ← Program.read (·.PC)
  let npcounter ← Program.read (·.NPC)
  let jumpAddr ← effectiveAddress second p
  if jumpAddr &&& 0x00000003 ≠ 0 then
    stall 2
    raiseException pcounter npcounter memAddrNotAligned 0
  else
    continueAt npcounter jumpAddr
    stall 2
    writeReg p.rdBit pcounter

def jumpReg : Params → Behavior σ Unit := jump rs2
def jumpImm : Params → Behavior σ Unit := jump simm13

/-- A trap on the condition codes. -/
def trap (second : Operand σ) (p : Params) : Behavior σ Unit := do
  let pcounter ← Program.read (·.PC)
  let npcounter ← Program.read (·.NPC)
  let psr ← Program.read (·.PSR)
  if p.cond == 0x8 || condHolds p.cond psr then
    stall 4
    let number := (← effectiveAddress second p) &&& 0x0000007f
    raiseException pcounter npcounter trapInstruction number
  else
    continueAt npcounter (npcounter + 4)

def imm7 : Operand σ := fun p _ => signExtend p.imm7 7

def trapReg : Params → Behavior σ Unit := trap rs2
def trapImm : Params → Behavior σ Unit := trap imm7

/-- The return from a trap. -/
def rett (second : Operand σ) (p : Params) : Behavior σ Unit := do
  let pcounter ← Program.read (·.PC)
  let npcounter ← Program.read (·.NPC)
  let targetAddr ← effectiveAddress second p
  let newCwp ← Program.read fun s => (PSR.cwp s.PSR + 1) % 8
  let exceptionEnabled ← Program.read fun s => decide (PSR.et s.PSR ≠ 0)
  let supervisor ← Program.read fun s => decide (PSR.supervisor s.PSR ≠ 0)
  let invalidWin ← Program.read fun s => !s.windowValid newCwp
  let notAligned := decide (targetAddr &&& 0x00000003 ≠ 0)
  if exceptionEnabled || !supervisor || invalidWin || notAligned then
    incrementPC
    if exceptionEnabled then
      if supervisor then raiseException pcounter npcounter illegalInstr 0
      else raiseException pcounter npcounter priviledgeInstr 0
    else Program.stop .exception
  else
    continueAt npcounter targetAddr
    stall 2
    Program.update fun s => (s.updateAliases newCwp).setPsr (PSR.returned s.PSR)

def rettReg : Params → Behavior σ Unit := rett rs2
def rettImm : Params → Behavior σ Unit := rett simm13

def unimp (_ : Params) : Behavior σ Unit := do
  let pcounter ← Program.read (·.PC)
  let npcounter ← Program.read (·.NPC)
  incrementPC
  raiseException pcounter npcounter illegalInstr 0

def flushReg (_ : Params) : Behavior σ Unit := incrementPC
def flushImm (_ : Params) : Behavior σ Unit := incrementPC
def stbar (_ : Params) : Behavior σ Unit := incrementPC

def invalidInstr (_ : Params) : Behavior σ Unit := Program.stop .exception

/-! ## The instruction set -/

/-- What an instruction does, by its name. -/
def body (name : InstrName) (p : Params) : Behavior σ Unit :=
  match name with
  | .ldsbImm => ldsbImm bus p
  | .ldsbReg => ldsbReg bus p
  | .ldshImm => ldshImm bus p
  | .ldshReg => ldshReg bus p
  | .ldubImm => ldubImm bus p
  | .ldubReg => ldubReg bus p
  | .lduhImm => lduhImm bus p
  | .lduhReg => lduhReg bus p
  | .ldImm => ldImm bus p
  | .ldReg => ldReg bus p
  | .lddImm => lddImm bus p
  | .lddReg => lddReg bus p
  | .ldsbaReg => ldsbaReg bus p
  | .ldshaReg => ldshaReg bus p
  | .ldubaReg => ldubaReg bus p
  | .lduhaReg => lduhaReg bus p
  | .ldaReg => ldaReg bus p
  | .lddaReg => lddaReg bus p
  | .stbImm => stbImm bus p
  | .stbReg => stbReg bus p
  | .sthImm => sthImm bus p
  | .sthReg => sthReg bus p
  | .stImm => stImm bus p
  | .stReg => stReg bus p
  | .stdImm => stdImm bus p
  | .stdReg => stdReg bus p
  | .stbaReg => stbaReg bus p
  | .sthaReg => sthaReg bus p
  | .staReg => staReg bus p
  | .stdaReg => stdaReg bus p
  | .ldstubImm => ldstubImm bus p
  | .ldstubReg => ldstubReg bus p
  | .ldstubaReg => ldstubaReg bus p
  | .swapImm => swapImm bus p
  | .swapReg => swapReg bus p
  | .swapaReg => swapaReg bus p
  | .sethi => sethi p
  | .andImm => andImm p
  | .andReg => andReg p
  | .andccImm => andccImm p
  | .andccReg => andccReg p
  | .andnImm => andnImm p
  | .andnReg => andnReg p
  | .andnccImm => andnccImm p
  | .andnccReg => andnccReg p
  | .orImm => orImm p
  | .orReg => orReg p
  | .orccImm => orccImm p
  | .orccReg => orccReg p
  | .ornImm => ornImm p
  | .ornReg => ornReg p
  | .ornccImm => ornccImm p
  | .ornccReg => ornccReg p
  | .xorImm => xorImm p
  | .xorReg => xorReg p
  | .xorccImm => xorccImm p
  | .xorccReg => xorccReg p
  | .xnorImm => xnorImm p
  | .xnorReg => xnorReg p
  | .xnorccImm => xnorccImm p
  | .xnorccReg => xnorccReg p
  | .sllImm => sllImm p
  | .sllReg => sllReg p
  | .srlImm => srlImm p
  | .srlReg => srlReg p
  | .sraImm => sraImm p
  | .sraReg => sraReg p
  | .addImm => addImm p
  | .addReg => addReg p
  | .addccImm => addccImm p
  | .addccReg => addccReg p
  | .addxImm => addxImm p
  | .addxReg => addxReg p
  | .addxccImm => addxccImm p
  | .addxccReg => addxccReg p
  | .taddccImm => taddccImm p
  | .taddccReg => taddccReg p
  | .taddcctvImm => taddcctvImm p
  | .taddcctvReg => taddcctvReg p
  | .subImm => subImm p
  | .subReg => subReg p
  | .subccImm => subccImm p
  | .subccReg => subccReg p
  | .subxImm => subxImm p
  | .subxReg => subxReg p
  | .subxccImm => subxccImm p
  | .subxccReg => subxccReg p
  | .tsubccImm => tsubccImm p
  | .tsubccReg => tsubccReg p
  | .tsubcctvImm => tsubcctvImm p
  | .tsubcctvReg => tsubcctvReg p
  | .mulsccImm => mulsccImm p
  | .mulsccReg => mulsccReg p
  | .umulImm => umulImm p
  | .umulReg => umulReg p
  | .smulImm => smulImm p
  | .smulReg => smulReg p
  | .umulccImm => umulccImm p
  | .umulccReg => umulccReg p
  | .smulccImm => smulccImm p
  | .smulccReg => smulccReg p
  | .umacImm => umacImm p
  | .umacReg => umacReg p
  | .smacImm => smacImm p
  | .smacReg => smacReg p
  | .udivImm => udivImm p
  | .udivReg => udivReg p
  | .sdivImm => sdivImm p
  | .sdivReg => sdivReg p
  | .udivccImm => udivccImm p
  | .udivccReg => udivccReg p
  | .sdivccImm => sdivccImm p
  | .sdivccReg => sdivccReg p
  | .saveImm => saveImm p
  | .saveReg => saveReg p
  | .restoreImm => restoreImm p
  | .restoreReg => restoreReg p
  | .branch => branch p
  | .call => call p
  | .jumpImm => jumpImm p
  | .jumpReg => jumpReg p
  | .rettImm => rettImm p
  | .rettReg => rettReg p
  | .trapImm => trapImm p
  | .trapReg => trapReg p
  | .readY => readY p
  | .readAsr => readAsr p
  | .readPsr => readPsr p
  | .readWim => readWim p
  | .readTbr => readTbr p
  | .writeYReg => writeYReg p
  | .writeYImm => writeYImm p
  | .writeAsrReg => writeAsrReg p
  | .writeAsrImm => writeAsrImm p
  | .writePsrReg => writePsrReg p
  | .writePsrImm => writePsrImm p
  | .writeWimReg => writeWimReg p
  | .writeWimImm => writeWimImm p
  | .writeTbrReg => writeTbrReg p
  | .writeTbrImm => writeTbrImm p
  | .stbar => stbar p
  | .unimp => unimp p
  | .flushReg => flushReg p
  | .flushImm => flushImm p
  | .invalidInstr => invalidInstr p

/-- The behavior of an instruction: the cycles that it took. -/
def behavior (name : InstrName) (p : Params) : Behavior σ ℕ := do
  Program.update (·.setCycles 0)
  body bus name p
  Program.read (·.totalInstrCycles)

/-- The instruction that takes an interrupt. -/
def irqBehavior (IRQ : BitVec 32) : Behavior σ ℕ := do
  Program.update (·.setCycles 0)
  let pcounter ← Program.read (·.PC)
  let npcounter ← Program.read (·.NPC)
  raiseException pcounter npcounter (38 - IRQ) 0
  Program.read (·.totalInstrCycles)

end Socrocket.Leon3
