/- Socrocket/Leon3/Decoder
   digest: The instruction decoder of the LEON3 integer unit, and the encodings it accepts. -/

import Socrocket.Base.BitField

set_option autoImplicit false
set_option relaxedAutoImplicit false

namespace Socrocket.Leon3

open Socrocket.Base

/-- The instruction classes, in the order of their numbers. -/
inductive InstrName where
  | ldsbImm | ldsbReg | ldshImm | ldshReg | ldubImm | ldubReg | lduhImm | lduhReg | ldImm | ldReg
  | lddImm | lddReg | ldsbaReg | ldshaReg | ldubaReg | lduhaReg | ldaReg | lddaReg | stbImm
  | stbReg | sthImm | sthReg | stImm | stReg | stdImm | stdReg | stbaReg | sthaReg | staReg
  | stdaReg | ldstubImm | ldstubReg | ldstubaReg | swapImm | swapReg | swapaReg | sethi | andImm
  | andReg | andccImm | andccReg | andnImm | andnReg | andnccImm | andnccReg | orImm | orReg
  | orccImm | orccReg | ornImm | ornReg | ornccImm | ornccReg | xorImm | xorReg | xorccImm
  | xorccReg | xnorImm | xnorReg | xnorccImm | xnorccReg | sllImm | sllReg | srlImm | srlReg
  | sraImm | sraReg | addImm | addReg | addccImm | addccReg | addxImm | addxReg | addxccImm
  | addxccReg | taddccImm | taddccReg | taddcctvImm | taddcctvReg | subImm | subReg | subccImm
  | subccReg | subxImm | subxReg | subxccImm | subxccReg | tsubccImm | tsubccReg | tsubcctvImm
  | tsubcctvReg | mulsccImm | mulsccReg | umulImm | umulReg | smulImm | smulReg | umulccImm
  | umulccReg | smulccImm | smulccReg | umacImm | umacReg | smacImm | smacReg | udivImm | udivReg
  | sdivImm | sdivReg | udivccImm | udivccReg | sdivccImm | sdivccReg | saveImm | saveReg
  | restoreImm | restoreReg | branch | call | jumpImm | jumpReg | rettImm | rettReg | trapImm
  | trapReg | readY | readAsr | readPsr | readWim | readTbr | writeYReg | writeYImm | writeAsrReg
  | writeAsrImm | writePsrReg | writePsrImm | writeWimReg | writeWimImm | writeTbrReg | writeTbrImm
  | stbar | unimp | flushReg | flushImm | invalidInstr
  deriving DecidableEq

/-! ## The decoder -/

namespace Decoder

variable (instrCode : BitVec 32)

/-- The case 0x0 of the decoder. -/
def decode0 : InstrName :=
  if instrCode &&& 0xc0000000 = 0xc0000000 then
    if instrCode &&& 0x380000 = 0x0 then
      if instrCode &&& 0x2000 ≠ 0x0 then .ldImm else .ldReg
    else if instrCode &&& 0x380000 = 0x200000 then
      if instrCode &&& 0x2000 ≠ 0x0 then .stImm else .stReg
    else if instrCode &&& 0x380000 = 0x100000 then
      if instrCode &&& 0x2000 ≠ 0x0 then .lduhImm else .lduhReg
    else if instrCode &&& 0x380000 = 0x80000 then
      if instrCode &&& 0x2000 = 0x0 then .ldubReg else .ldubImm
    else if instrCode &&& 0x380000 = 0x180000 then
      if instrCode &&& 0x2000 ≠ 0x0 then .lddImm else .lddReg
    else if instrCode &&& 0x380000 = 0x380000 then
      if instrCode &&& 0x2000 ≠ 0x0 then .stdImm else .stdReg
    else if instrCode &&& 0x380000 = 0x300000 then
      if instrCode &&& 0x2000 ≠ 0x0 then .sthImm else .sthReg
    else if instrCode &&& 0x380000 = 0x280000 then
      if instrCode &&& 0x2000 ≠ 0x0 then .stbImm else .stbReg
    else .invalidInstr
  else if instrCode &&& 0xc0000000 = 0x80000000 then
    if instrCode &&& 0x380000 = 0x100000 then
      if instrCode &&& 0x2000 ≠ 0x0 then .orImm else .orReg
    else if instrCode &&& 0x380000 = 0x0 then
      if instrCode &&& 0x2000 ≠ 0x0 then .addImm else .addReg
    else if instrCode &&& 0x380000 = 0x80000 then
      if instrCode &&& 0x2000 ≠ 0x0 then .andImm else .andReg
    else if instrCode &&& 0x380000 = 0x180000 then
      if instrCode &&& 0x2000 = 0x0 then .xorReg else .xorImm
    else if instrCode &&& 0x380000 = 0x200000 then
      if instrCode &&& 0x2000 = 0x0 then .subReg else .subImm
    else if instrCode &&& 0x380000 = 0x280000 then
      if instrCode &&& 0x2000 = 0x0 then .andnReg else .andnImm
    else if instrCode &&& 0x380000 = 0x380000 then
      if instrCode &&& 0x2000 ≠ 0x0 then .xnorImm else .xnorReg
    else if instrCode &&& 0x380000 = 0x300000 then
      if instrCode &&& 0x2000 ≠ 0x0 then .ornImm else .ornReg
    else .invalidInstr
  else if instrCode &&& 0xc0000000 = 0x40000000 then .call
  else if instrCode &&& 0xc0000000 = 0x0 then .unimp
  else .invalidInstr

/-- The case 0x800000 of the decoder. -/
def decode2 : InstrName :=
  if instrCode &&& 0xc0000000 = 0x80000000 then
    if instrCode &&& 0x380000 = 0x200000 then
      if instrCode &&& 0x2000 ≠ 0x0 then .subccImm else .subccReg
    else if instrCode &&& 0x380000 = 0x0 then
      if instrCode &&& 0x2000 = 0x0 then .addccReg else .addccImm
    else if instrCode &&& 0x380000 = 0x100000 then
      if instrCode &&& 0x2000 = 0x0 then .orccReg else .orccImm
    else if instrCode &&& 0x380000 = 0x80000 then
      if instrCode &&& 0x2000 ≠ 0x0 then .andccImm else .andccReg
    else if instrCode &&& 0x380000 = 0x180000 then
      if instrCode &&& 0x2000 ≠ 0x0 then .xorccImm else .xorccReg
    else if instrCode &&& 0x380000 = 0x300000 then
      if instrCode &&& 0x2000 ≠ 0x0 then .ornccImm else .ornccReg
    else if instrCode &&& 0x380000 = 0x280000 then
      if instrCode &&& 0x2000 = 0x0 then .andnccReg else .andnccImm
    else if instrCode &&& 0x380000 = 0x380000 then
      if instrCode &&& 0x2000 ≠ 0x0 then .xnorccImm else .xnorccReg
    else .invalidInstr
  else if instrCode &&& 0xc0000000 = 0x0 then .branch
  else if instrCode &&& 0xc0000000 = 0x40000000 then .call
  else if instrCode &&& 0xc0000000 = 0xc0000000 then
    if instrCode &&& 0x380000 = 0x380000 then .stdaReg
    else if instrCode &&& 0x380000 = 0x280000 then .stbaReg
    else if instrCode &&& 0x380000 = 0x300000 then .sthaReg
    else if instrCode &&& 0x380000 = 0x200000 then .staReg
    else if instrCode &&& 0x380000 = 0x180000 then .lddaReg
    else if instrCode &&& 0x380000 = 0x80000 then .ldubaReg
    else if instrCode &&& 0x380000 = 0x100000 then .lduhaReg
    else if instrCode &&& 0x380000 = 0x0 then .ldaReg
    else .invalidInstr
  else .invalidInstr

/-- The case 0x1000000 of the decoder. -/
def decode4 : InstrName :=
  if instrCode &&& 0xc0000000 = 0x80000000 then
    if instrCode &&& 0x380000 = 0x280000 then
      if instrCode &&& 0x2000 ≠ 0x0 then .sllImm else .sllReg
    else if instrCode &&& 0x380000 = 0x300000 then
      if instrCode &&& 0x2000 ≠ 0x0 then .srlImm else .srlReg
    else if instrCode &&& 0x380000 = 0x380000 then
      if instrCode &&& 0x2000 ≠ 0x0 then .sraImm else .sraReg
    else if instrCode &&& 0x380000 = 0x200000 then
      if instrCode &&& 0x2000 ≠ 0x0 then .mulsccImm else .mulsccReg
    else if instrCode &&& 0x380000 = 0x0 then
      if instrCode &&& 0x2000 ≠ 0x0 then .taddccImm else .taddccReg
    else if instrCode &&& 0x380000 = 0x180000 then
      if instrCode &&& 0x2000 = 0x0 then .tsubcctvReg else .tsubcctvImm
    else if instrCode &&& 0x380000 = 0x100000 then
      if instrCode &&& 0x2000 = 0x0 then .taddcctvReg else .taddcctvImm
    else if instrCode &&& 0x380000 = 0x80000 then
      if instrCode &&& 0x2000 ≠ 0x0 then .tsubccImm else .tsubccReg
    else .invalidInstr
  else if instrCode &&& 0xc0000000 = 0x0 then .sethi
  else if instrCode &&& 0xc0000000 = 0x40000000 then .call
  else .invalidInstr

/-- The case 0x400000 of the decoder. -/
def decode1 : InstrName :=
  if instrCode &&& 0xc0000000 = 0x80000000 then
    if instrCode &&& 0x300000 = 0x0 then
      if instrCode &&& 0x2000 = 0x0 then .addxReg else .addxImm
    else if instrCode &&& 0x300000 = 0x100000 then
      if instrCode &&& 0x2000 = 0x0 then
        if instrCode &&& 0x80000 ≠ 0x0 then .smulReg else .umulReg
      else if instrCode &&& 0x80000 = 0x80000 then .smulImm else .umulImm
    else if instrCode &&& 0x300000 = 0x300000 then
      if instrCode &&& 0x2000 = 0x0 then
        if instrCode &&& 0x80000 = 0x0 then .udivReg else .sdivReg
      else if instrCode &&& 0x80000 = 0x0 then .udivImm else .sdivImm
    else if instrCode &&& 0x300000 = 0x200000 then
      if instrCode &&& 0x2000 = 0x0 then .subxReg else .subxImm
    else .invalidInstr
  else if instrCode &&& 0xc0000000 = 0xc0000000 then
    if instrCode &&& 0x300000 = 0x0 then
      if instrCode &&& 0x2000 = 0x0 then .ldsbReg else .ldsbImm
    else if instrCode &&& 0x300000 = 0x200000 then
      if instrCode &&& 0x2000 ≠ 0x0 then .ldstubImm else .ldstubReg
    else if instrCode &&& 0x300000 = 0x100000 then
      if instrCode &&& 0x2000 = 0x0 then .ldshReg else .ldshImm
    else if instrCode &&& 0x300000 = 0x300000 then
      if instrCode &&& 0x2000 = 0x0 then .swapReg else .swapImm
    else .invalidInstr
  else if instrCode &&& 0xc0000000 = 0x40000000 then .call
  else .invalidInstr

/-- The case 0x1c00000 of the decoder. -/
def decode7 : InstrName :=
  if instrCode &&& 0xc0000000 = 0x80000000 then
    if instrCode &&& 0x380000 = 0x0 then
      if instrCode &&& 0x2000 ≠ 0x0 then .jumpImm else .jumpReg
    else if instrCode &&& 0x380000 = 0x200000 then
      if instrCode &&& 0x2000 ≠ 0x0 then .saveImm else .saveReg
    else if instrCode &&& 0x380000 = 0x280000 then
      if instrCode &&& 0x2000 = 0x0 then .restoreReg else .restoreImm
    else if instrCode &&& 0x380000 = 0x80000 then
      if instrCode &&& 0x2000 = 0x0 then .rettReg else .rettImm
    else if instrCode &&& 0x380000 = 0x180000 then
      if instrCode &&& 0x2000 ≠ 0x0 then .flushImm else .flushReg
    else if instrCode &&& 0x380000 = 0x380000 then
      if instrCode &&& 0x2000 ≠ 0x0 then .smacImm else .smacReg
    else if instrCode &&& 0x380000 = 0x100000 then
      if instrCode &&& 0x2000 ≠ 0x0 then .trapImm else .trapReg
    else if instrCode &&& 0x380000 = 0x300000 then
      if instrCode &&& 0x2000 ≠ 0x0 then .umacImm else .umacReg
    else .invalidInstr
  else if instrCode &&& 0xc0000000 = 0x40000000 then .call
  else .invalidInstr

/-- The case 0xc00000 of the decoder. -/
def decode3 : InstrName :=
  if instrCode &&& 0xc0000000 = 0x80000000 then
    if instrCode &&& 0x300000 = 0x100000 then
      if instrCode &&& 0x2000 = 0x0 then
        if instrCode &&& 0x80000 ≠ 0x0 then .smulccReg else .umulccReg
      else if instrCode &&& 0x80000 ≠ 0x0 then .smulccImm else .umulccImm
    else if instrCode &&& 0x300000 = 0x300000 then
      if instrCode &&& 0x2000 = 0x0 then
        if instrCode &&& 0x80000 = 0x0 then .udivccReg else .sdivccReg
      else if instrCode &&& 0x80000 = 0x0 then .udivccImm else .sdivccImm
    else if instrCode &&& 0x300000 = 0x200000 then
      if instrCode &&& 0x2000 ≠ 0x0 then .subxccImm else .subxccReg
    else if instrCode &&& 0x300000 = 0x0 then
      if instrCode &&& 0x2000 ≠ 0x0 then .addxccImm else .addxccReg
    else .invalidInstr
  else if instrCode &&& 0xc0000000 = 0x40000000 then .call
  else if instrCode &&& 0xc0000000 = 0xc0000000 then
    if instrCode &&& 0x100000 = 0x0 then
      if instrCode &&& 0x200000 = 0x0 then .ldsbaReg else .ldstubaReg
    else if instrCode &&& 0x80000 = 0x0 then .ldshaReg else .swapaReg
  else .invalidInstr

/-- The case 0x1800000 of the decoder. -/
def decode6 : InstrName :=
  if instrCode &&& 0x40000000 ≠ 0x40000000 then
    if instrCode &&& 0x180000 = 0x80000 then
      if instrCode &&& 0x2000 ≠ 0x0 then .writePsrImm else .writePsrReg
    else if instrCode &&& 0x180000 = 0x0 then
      if instrCode &&& 0x2000 ≠ 0x0 then
        if instrCode &&& 0xfff82000 = 0x81802000 then .writeYImm else .writeAsrImm
      else if instrCode &&& 0xfff83fe0 = 0x81800000 then .writeYReg else .writeAsrReg
    else if instrCode &&& 0x180000 = 0x100000 then
      if instrCode &&& 0x2000 = 0x0 then .writeWimReg else .writeWimImm
    else if instrCode &&& 0x180000 = 0x180000 then
      if instrCode &&& 0x2000 = 0x0 then .writeTbrReg else .writeTbrImm
    else .invalidInstr
  else .call

/-- The case 0x1400000 of the decoder. -/
def decode5 : InstrName :=
  if instrCode &&& 0x40000000 ≠ 0x0 then .call
  else if instrCode &&& 0x80000 ≠ 0x0 then
    if instrCode &&& 0x100000 = 0x0 then .readPsr else .readTbr
  else if instrCode &&& 0x100000 = 0x0 then
    if instrCode &&& 0xc1ffffff = 0x81400000 then .readY
    else if instrCode &&& 0xffffffff = 0x8143c000 then .stbar else .readAsr
  else .readWim

def decode : InstrName :=
  if instrCode &&& 0x1c00000 = 0x0 then decode0 instrCode
  else if instrCode &&& 0x1c00000 = 0x800000 then decode2 instrCode
  else if instrCode &&& 0x1c00000 = 0x1000000 then decode4 instrCode
  else if instrCode &&& 0x1c00000 = 0x400000 then decode1 instrCode
  else if instrCode &&& 0x1c00000 = 0x1c00000 then decode7 instrCode
  else if instrCode &&& 0x1c00000 = 0xc00000 then decode3 instrCode
  else if instrCode &&& 0x1c00000 = 0x1800000 then decode6 instrCode
  else if instrCode &&& 0x1c00000 = 0x1400000 then decode5 instrCode
  else .invalidInstr

end Decoder

/-! ## The encodings -/

namespace Encoding

variable (w : BitVec 32)

def op : BitVec 2 := w.extractLsb' 30 2

def op3 : BitVec 6 := w.extractLsb' 19 6

/-- Bits 24 to 22, the opcode of format 2. -/
def op2 (op3 : BitVec 6) : BitVec 3 := op3.extractLsb' 3 3

def immediate : Bool := w.getLsbD 13

def rd : BitVec 5 := w.extractLsb' 25 5

def rs1 : BitVec 5 := w.extractLsb' 14 5

/-- Bits 13 to 0, with the operand. -/
def operand : BitVec 14 := w.extractLsb' 0 14

/-- Format 2. Branches on floating point and coprocessor conditions are none of the integer unit. -/
def format2 (op2 : BitVec 3) : Option InstrName :=
  match op2 with
  | 0 => some .unimp
  | 2 => some .branch
  | 4 => some .sethi
  | _ => none

/-- The instruction with an immediate operand or the one with a register. -/
def form (immediate : Bool) (imm reg : InstrName) : Option InstrName :=
  some (if immediate then imm else reg)

/-- The arithmetic instructions. -/
def arithmetic (op3 : BitVec 6) (immediate : Bool) : Option InstrName :=
  match op3 with
  | 0x00 => form immediate .addImm .addReg
  | 0x01 => form immediate .andImm .andReg
  | 0x02 => form immediate .orImm .orReg
  | 0x03 => form immediate .xorImm .xorReg
  | 0x04 => form immediate .subImm .subReg
  | 0x05 => form immediate .andnImm .andnReg
  | 0x06 => form immediate .ornImm .ornReg
  | 0x07 => form immediate .xnorImm .xnorReg
  | 0x08 => form immediate .addxImm .addxReg
  | 0x0a => form immediate .umulImm .umulReg
  | 0x0b => form immediate .smulImm .smulReg
  | 0x0c => form immediate .subxImm .subxReg
  | 0x0e => form immediate .udivImm .udivReg
  | 0x0f => form immediate .sdivImm .sdivReg
  | 0x10 => form immediate .addccImm .addccReg
  | 0x11 => form immediate .andccImm .andccReg
  | 0x12 => form immediate .orccImm .orccReg
  | 0x13 => form immediate .xorccImm .xorccReg
  | 0x14 => form immediate .subccImm .subccReg
  | 0x15 => form immediate .andnccImm .andnccReg
  | 0x16 => form immediate .ornccImm .ornccReg
  | 0x17 => form immediate .xnorccImm .xnorccReg
  | 0x18 => form immediate .addxccImm .addxccReg
  | 0x1a => form immediate .umulccImm .umulccReg
  | 0x1b => form immediate .smulccImm .smulccReg
  | 0x1c => form immediate .subxccImm .subxccReg
  | 0x1e => form immediate .udivccImm .udivccReg
  | 0x1f => form immediate .sdivccImm .sdivccReg
  | 0x20 => form immediate .taddccImm .taddccReg
  | 0x21 => form immediate .tsubccImm .tsubccReg
  | 0x22 => form immediate .taddcctvImm .taddcctvReg
  | 0x23 => form immediate .tsubcctvImm .tsubcctvReg
  | 0x24 => form immediate .mulsccImm .mulsccReg
  | 0x25 => form immediate .sllImm .sllReg
  | 0x26 => form immediate .srlImm .srlReg
  | 0x27 => form immediate .sraImm .sraReg
  | 0x29 => some .readPsr
  | 0x2a => some .readWim
  | 0x2b => some .readTbr
  | 0x31 => form immediate .writePsrImm .writePsrReg
  | 0x32 => form immediate .writeWimImm .writeWimReg
  | 0x33 => form immediate .writeTbrImm .writeTbrReg
  | 0x38 => form immediate .jumpImm .jumpReg
  | 0x39 => form immediate .rettImm .rettReg
  | 0x3a => form immediate .trapImm .trapReg
  | 0x3b => form immediate .flushImm .flushReg
  | 0x3c => form immediate .saveImm .saveReg
  | 0x3d => form immediate .restoreImm .restoreReg
  | 0x3e => form immediate .umacImm .umacReg
  | 0x3f => form immediate .smacImm .smacReg
  | _ => none

/-- The loads and stores. An alternate space is addressed by registers only. -/
def memory (op3 : BitVec 6) (immediate : Bool) : Option InstrName :=
  match op3 with
  | 0x00 => form immediate .ldImm .ldReg
  | 0x01 => form immediate .ldubImm .ldubReg
  | 0x02 => form immediate .lduhImm .lduhReg
  | 0x03 => form immediate .lddImm .lddReg
  | 0x04 => form immediate .stImm .stReg
  | 0x05 => form immediate .stbImm .stbReg
  | 0x06 => form immediate .sthImm .sthReg
  | 0x07 => form immediate .stdImm .stdReg
  | 0x09 => form immediate .ldsbImm .ldsbReg
  | 0x0a => form immediate .ldshImm .ldshReg
  | 0x0d => form immediate .ldstubImm .ldstubReg
  | 0x0f => form immediate .swapImm .swapReg
  | 0x10 => some .ldaReg
  | 0x11 => some .ldubaReg
  | 0x12 => some .lduhaReg
  | 0x13 => some .lddaReg
  | 0x14 => some .staReg
  | 0x15 => some .stbaReg
  | 0x16 => some .sthaReg
  | 0x17 => some .stdaReg
  | 0x19 => some .ldsbaReg
  | 0x1a => some .ldshaReg
  | 0x1d => some .ldstubaReg
  | 0x1f => some .swapaReg
  | _ => none

/-- The reads of `Y`, the store barrier and the reads of the ancillary registers. -/
def readAncillary : InstrName :=
  if rs1 w = 0 ∧ operand w = 0 then .readY
  else if rd w = 0 ∧ rs1 w = 15 ∧ operand w = 0 then .stbar
  else .readAsr

/-- The writes of `Y` and of the ancillary registers. -/
def writeAncillary : InstrName :=
  if immediate w then (if rd w = 0 then .writeYImm else .writeAsrImm)
  else if rd w = 0 ∧ w.extractLsb' 5 9 = 0 then .writeYReg
  else .writeAsrReg

/-- The instructions with an opcode of their own. -/
def general (op : BitVec 2) (op3 : BitVec 6) (immediate : Bool) : Option InstrName :=
  match op with
  | 0 => format2 (op2 op3)
  | 1 => some .call
  | 2 => arithmetic op3 immediate
  | _ => memory op3 immediate

/-- The instruction of a word by the formats of the architecture. -/
def assigned : Option InstrName :=
  if op w = 2 ∧ op3 w = 0x28 then some (readAncillary w)
  else if op w = 2 ∧ op3 w = 0x30 then some (writeAncillary w)
  else general (op w) (op3 w) (immediate w)

/-- The instruction with an immediate operand or the one with a register, where both exist. -/
def formOf (immediate : Bool) (imm reg : InstrName) : InstrName :=
  if immediate then imm else reg

/-- The state register instructions by the two low bits of their opcode. -/
def stateRegister (writes : Bool) (which : BitVec 2) (immediate : Bool) : InstrName :=
  match writes, which with
  | false, 0 => .readAsr
  | false, 1 => .readPsr
  | false, 2 => .readWim
  | false, _ => .readTbr
  | true, 0 => formOf immediate .writeAsrImm .writeAsrReg
  | true, 1 => formOf immediate .writePsrImm .writePsrReg
  | true, 2 => formOf immediate .writeWimImm .writeWimReg
  | true, _ => formOf immediate .writeTbrImm .writeTbrReg

/-- What the decoder makes of a word that no instruction is assigned to. The masks of its tree leave
bits of the opcode out, so most of these words pass for an instruction that differs in such a bit.
-/
def misread (op : BitVec 2) (op3 : BitVec 6) (immediate : Bool) : InstrName :=
  match op with
  | 0 => ancillary op3
  | 1 => .call
  | 2 =>
    match op3 with
    | 0x09 => formOf immediate .addxImm .addxReg
    | 0x0d => formOf immediate .subxImm .subxReg
    | 0x19 => formOf immediate .addxccImm .addxccReg
    | 0x1d => formOf immediate .subxccImm .subxccReg
    | _ => ancillary op3
  | _ =>
    match op3 with
    | 0x08 => formOf immediate .ldsbImm .ldsbReg
    | 0x0b => formOf immediate .ldshImm .ldshReg
    | 0x0c => formOf immediate .ldstubImm .ldstubReg
    | 0x0e => formOf immediate .swapImm .swapReg
    | 0x18 => .ldsbaReg
    | 0x1b => .swapaReg
    | 0x1c => .ldstubaReg
    | 0x1e => .ldshaReg
    | _ => if op2 op3 = 5 ∨ op2 op3 = 6 then .call else .invalidInstr
where
  /-- The floating point branches and operations pass for accesses to the state registers. -/
  ancillary (op3 : BitVec 6) : InstrName :=
    if op2 op3 = 5 ∨ op2 op3 = 6 then stateRegister (op2 op3 = 6) (op3.extractLsb' 0 2) immediate
    else .invalidInstr

variable {w}

theorem ext_fields {a b : BitVec 32} (hop : op a = op b) (hrd : rd a = rd b) (hop3 : op3 a = op3 b)
    (hrs1 : rs1 a = rs1 b) (hlow : operand a = operand b) : a = b := by
  have bit {pos len i : ℕ} (same : a.extractLsb' pos len = b.extractLsb' pos len) (low : pos ≤ i)
      (high : i - pos < len) : a.getLsbD i = b.getLsbD i := by
    have here := congrArg (fun x => x.getLsbD (i - pos)) same
    simpa [BitVec.getLsbD_extractLsb', high, Nat.add_sub_cancel' low] using here
  refine BitVec.eq_of_getLsbD_eq fun i bound => ?_
  by_cases in_operand : i < 14
  · exact bit hlow (Nat.zero_le i) in_operand
  by_cases in_rs1 : i < 19
  · exact bit hrs1 (by omega) (by omega)
  by_cases in_op3 : i < 25
  · exact bit hop3 (by omega) (by omega)
  by_cases in_rd : i < 30
  · exact bit hrd (by omega) (by omega)
  · exact bit hop (by omega) (by omega)

theorem and_eq_iff_fields (mask value : BitVec 32) : w &&& mask = value ↔
    op w &&& op mask = op value ∧ rd w &&& rd mask = rd value ∧ op3 w &&& op3 mask = op3 value ∧
      rs1 w &&& rs1 mask = rs1 value ∧ operand w &&& operand mask = operand value := by
  constructor
  · rintro rfl
    simp only [op, rd, op3, rs1, operand, BitVec.extractLsb'_and, and_self]
  · rintro ⟨hop, hrd, hop3, hrs1, hlow⟩
    apply ext_fields
    · simpa only [op, BitVec.extractLsb'_and] using hop
    · simpa only [rd, BitVec.extractLsb'_and] using hrd
    · simpa only [op3, BitVec.extractLsb'_and] using hop3
    · simpa only [rs1, BitVec.extractLsb'_and] using hrs1
    · simpa only [operand, BitVec.extractLsb'_and] using hlow

theorem immediate_eq : immediate w = decide (w.extractLsb' 13 1 = 1) := by
  have bit : (w.extractLsb' 13 1).getLsbD 0 = w.getLsbD 13 := by
    rw [BitVec.getLsbD_extractLsb']
    rfl
  rw [immediate, ← bit]
  generalize w.extractLsb' 13 1 = b
  revert b
  decide

theorem and_ones_five (x : BitVec 5) : x &&& 31#5 = x := BitVec.and_allOnes
theorem and_ones_fourteen (x : BitVec 14) : x &&& 16383#14 = x := BitVec.and_allOnes

theorem readAncillary_eq (hop : op w = 2) (hop3 : op3 w = 0x28) : readAncillary w =
    if w &&& 0xc1ffffff = 0x81400000 then .readY
    else if w &&& 0xffffffff = 0x8143c000 then .stbar else .readAsr := by
  have y : w &&& 0xc1ffffff = 0x81400000 ↔ rs1 w = 0 ∧ operand w = 0 := by
    rw [and_eq_iff_fields, hop, hop3]
    simp [op, rd, op3, rs1, operand, and_ones_five, and_ones_fourteen]
  have barrier : w &&& 0xffffffff = 0x8143c000 ↔ rd w = 0 ∧ rs1 w = 15 ∧ operand w = 0 := by
    rw [and_eq_iff_fields, hop, hop3]
    simp [op, rd, op3, rs1, operand, and_ones_five, and_ones_fourteen]
  simp only [readAncillary, y, barrier]

theorem operand_immediate : operand w &&& 0x2000 = 0x2000 ↔ immediate w = true := by
  have bit : (operand w).extractLsb' 13 1 = w.extractLsb' 13 1 := by
    rw [operand, BitVec.extractLsb'_extractLsb'_of_le (by decide)]
  rw [immediate_eq, BitField.and_mask_field (operand w) 0x2000 13 1 (by decide), bit]
  generalize w.extractLsb' 13 1 = i
  revert i
  decide

theorem operand_reserved : operand w &&& 0x3fe0 = 0 ↔ w.extractLsb' 5 9 = 0 := by
  have bits : (operand w).extractLsb' 5 9 = w.extractLsb' 5 9 := by
    rw [operand, BitVec.extractLsb'_extractLsb'_of_le (by decide)]
  rw [BitField.and_mask_field (operand w) 0x3fe0 5 9 (by decide), bits]
  generalize w.extractLsb' 5 9 = i
  revert i
  decide +kernel

theorem writeAncillary_eq (hop : op w = 2) (hop3 : op3 w = 0x30) : writeAncillary w =
    if w &&& 0x2000 ≠ 0x0 then
      if w &&& 0xfff82000 = 0x81802000 then .writeYImm else .writeAsrImm
    else if w &&& 0xfff83fe0 = 0x81800000 then .writeYReg else .writeAsrReg := by
  have imm : w &&& 0x2000 ≠ 0 ↔ immediate w = true := by
    rw [immediate_eq, BitField.and_mask_field w 0x2000 13 1 (by decide)]
    generalize w.extractLsb' 13 1 = i
    revert i
    decide
  have yImm : w &&& 0xfff82000 = 0x81802000 ↔ rd w = 0 ∧ immediate w = true := by
    rw [and_eq_iff_fields, hop, hop3, ← operand_immediate]
    simp [op, rd, op3, rs1, operand, and_ones_five]
  have yReg : w &&& 0xfff83fe0 = 0x81800000 ↔ rd w = 0 ∧ w.extractLsb' 5 9 = 0 := by
    rw [and_eq_iff_fields, hop, hop3, ← operand_reserved]
    simp [op, rd, op3, rs1, operand, and_ones_five]
  simp only [writeAncillary, imm, yImm, yReg]
  by_cases set : immediate w = true <;> simp [set]

/-- A test on a word whose mask covers the opcode decides the opcode. -/
theorem opcode_of_masked {mask value : BitVec 32} (test : w &&& mask = value) (covers : op mask = 3#2)
    (covers3 : op3 mask = 63#6) : op w = op value ∧ op3 w = op3 value := by
  obtain ⟨hop, -, hop3, -⟩ := (and_eq_iff_fields mask value).mp test
  rw [covers] at hop
  rw [covers3] at hop3
  exact ⟨(BitVec.and_allOnes (x := op w)).symm.trans hop,
    (BitVec.and_allOnes (x := op3 w)).symm.trans hop3⟩

end Encoding

open Encoding Decoder

theorem decode_readAncillary {w : BitVec 32} (hop : op w = 2) (hop3 : op3 w = 0x28) :
    decode w = readAncillary w := by
  rw [readAncillary_eq hop hop3]
  unfold decode decode5
  simp only [BitField.and_mask_field w 0x1c00000 19 6 (by decide),
    BitField.and_mask_field w 0x40000000 30 2 (by decide), BitField.and_mask_field w 0x100000 19 6
      (by decide),
    BitField.and_mask_field w 0x80000 19 6 (by decide), ← op.eq_1, ← op3.eq_1, hop, hop3]
  rfl

theorem decode_writeAncillary {w : BitVec 32} (hop : op w = 2) (hop3 : op3 w = 0x30) :
    decode w = writeAncillary w := by
  rw [writeAncillary_eq hop hop3]
  unfold decode decode6
  simp only [BitField.and_mask_field w 0x1c00000 19 6 (by decide),
    BitField.and_mask_field w 0x40000000 30 2 (by decide), BitField.and_mask_field w 0x180000 19 6
      (by decide),
    ← op.eq_1, ← op3.eq_1, hop, hop3]
  rfl

theorem decode_general {w : BitVec 32} (read : ¬ (op w = 2 ∧ op3 w = 0x28))
    (write : ¬ (op w = 2 ∧ op3 w = 0x30)) : decode w =
      (general (op w) (op3 w) (immediate w)).getD (misread (op w) (op3 w) (immediate w)) := by
  unfold decode decode0 decode1 decode2 decode3 decode4 decode5 decode6 decode7
  rw [immediate_eq]
  simp only [BitField.and_mask_field w 0x1c00000 19 6 (by decide),
    BitField.and_mask_field w 0xc0000000 30 2 (by decide), BitField.and_mask_field w 0x40000000 30 2
      (by decide),
    BitField.and_mask_field w 0x380000 19 6 (by decide), BitField.and_mask_field w 0x300000 19 6
      (by decide),
    BitField.and_mask_field w 0x180000 19 6 (by decide), BitField.and_mask_field w 0x200000 19 6
      (by decide),
    BitField.and_mask_field w 0x100000 19 6 (by decide), BitField.and_mask_field w 0x80000 19 6
      (by decide),
    BitField.and_mask_field w 0x2000 13 1 (by decide), ← op.eq_1, ← op3.eq_1]
  have readsY : w &&& 0xc1ffffff ≠ 0x81400000 := fun test => read (opcode_of_masked test rfl rfl)
  have barrier : w &&& 0xffffffff ≠ 0x8143c000 := fun test => read (opcode_of_masked test rfl rfl)
  have yImm : w &&& 0xfff82000 ≠ 0x81802000 := fun test => write (opcode_of_masked test rfl rfl)
  have yReg : w &&& 0xfff83fe0 ≠ 0x81800000 := fun test => write (opcode_of_masked test rfl rfl)
  simp only [readsY, barrier, yImm, yReg, if_false]
  clear readsY barrier yImm yReg
  generalize op w = o at *
  generalize op3 w = q at *
  generalize w.extractLsb' 13 1 = i at *
  revert o q i
  decide +kernel

/-- Every assigned word is decoded to its instruction, and every other one to the instruction it is
misread as. -/
theorem decode_eq (w : BitVec 32) :
    decode w = (assigned w).getD (misread (op w) (op3 w) (immediate w)) := by
  unfold assigned
  by_cases read : op w = 2 ∧ op3 w = 0x28
  · rw [if_pos read]
    exact decode_readAncillary read.1 read.2
  by_cases write : op w = 2 ∧ op3 w = 0x30
  · rw [if_neg read, if_pos write]
    exact decode_writeAncillary write.1 write.2
  · rw [if_neg read, if_neg write]
    exact decode_general read write

end Socrocket.Leon3
