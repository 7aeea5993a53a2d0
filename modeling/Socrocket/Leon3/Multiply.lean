/- Socrocket/Leon3/Multiply
   digest: The multiply step, and the product that thirty-two of them and a shift compute. -/

import Socrocket.Base.ShiftAdd
import Socrocket.Leon3.ConditionCodes

set_option autoImplicit false
set_option relaxedAutoImplicit false

namespace Socrocket.Leon3

open Base Program

variable {σ : Type}

/-! ## The sign that the condition codes keep -/

/-- The sign of the exact sum: negative, unless the sum overflowed. -/
def sign (psr : BitVec 32) : Bool := psr.getLsbD 23 != psr.getLsbD 21

theorem sign_iccWriteAdd (a b psr : BitVec 32) :
    sign (iccWriteAdd (a + b) a b psr) = true ↔ a.toInt + b.toInt < 0 := by
  rw [sign, iccWriteAdd, iccWrite, PSR.getLsbD_writeIcc, PSR.getLsbD_writeIcc]
  have exact_sign := add_negative_iff a b
  rw [← getLsbD_sign] at exact_sign
  exact exact_sign

theorem toNat_sign (psr : BitVec 32) :
    ((PSR.iccN psr ^^^ PSR.iccV psr) <<< 31).toNat = 2 ^ 31 * if sign psr then 1 else 0 := by
  have n : PSR.iccN psr = if psr.getLsbD 23 then 1 else 0 := PSR.field_eq (p := 23) (by decide)
  have v : PSR.iccV psr = if psr.getLsbD 21 then 1 else 0 := PSR.field_eq (p := 21) (by decide)
  rw [n, v, sign]
  cases psr.getLsbD 23 <;> cases psr.getLsbD 21 <;> rfl

theorem toNat_top {a b : BitVec 32} {k : ℕ} (top : a.toNat = 2 ^ 31 * k) (below : b.toNat < 2 ^ 31) :
    (a ||| b).toNat = 2 ^ 31 * k + b.toNat := by
  rw [BitVec.toNat_or, top, Nat.two_pow_add_eq_or_of_lt below]

namespace Processor

variable (second : Operand σ) (p : Params) (s : Processor σ)

/-- The first operand of a step: the sign goes in at the top. -/
def shifted : BitVec 32 := ((PSR.iccN s.PSR ^^^ PSR.iccV s.PSR) <<< 31) ||| (s.reg p.rs1Bit >>> 1)

/-- The second operand of a step, if the multiplier has it. -/
def addend : BitVec 32 := if s.Y &&& 0x00000001 ≠ 0 then second p s else 0

/-- The processor before the result of a step is written. -/
def multiplying : Processor σ :=
  ((s.continueAt s.NPC (s.NPC + 4)).setY ((s.Y >>> 1) ||| (s.reg p.rs1Bit <<< 31))).setPsr
    (iccWriteAdd (s.shifted p + s.addend second p) (s.shifted p) (s.addend second p) s.PSR)

/-- The processor after a step. -/
def multiplied : Processor σ := (s.multiplying second p).setReg p.rdBit
    (s.shifted p + s.addend second p)

end Processor

theorem runs_mulscc {second : Operand σ} (steady : Steady second) (p : Params) (s : Processor σ)
    {Q : Unit → Processor σ → Prop} {E : Stop → Processor σ → Prop} :
    Runs (mulscc second p) s Q E ↔ Q () (s.multiplied second p) := by
  simp only [mulscc, incrementPC, readReg, Leon3.setPsr, Leon3.setY, writeReg, runs_bind, runs_read,
    runs_update]
  rw [steady p s]
  exact Iff.rfl

/-! ## The product under way -/

/-- The upper part of the product: a register, with the sign in the condition codes. -/
def upper (acc : BitVec 5) (s : Processor σ) : ℤ :=
  (s.reg acc).toNat - 2 ^ 32 * if sign s.PSR then 1 else 0

/-- What the register and `Y` hold together: the product above, the bits of the multiplier below. -/
def held (acc : BitVec 5) (s : Processor σ) : ℤ := 2 ^ 32 * upper acc s + s.Y.toNat

section Step

variable {second : Operand σ} {p : Params} {s : Processor σ}

theorem toNat_shifted :
    (s.shifted p).toNat = 2 ^ 31 * (if sign s.PSR then 1 else 0) + (s.reg p.rs1Bit).toNat / 2 := by
  have half : (s.reg p.rs1Bit >>> 1).toNat = (s.reg p.rs1Bit).toNat / 2 := by
    rw [BitVec.toNat_ushiftRight, Nat.shiftRight_eq_div_pow]
  have bound := (s.reg p.rs1Bit).isLt
  rw [Processor.shifted, toNat_top (toNat_sign _) (by omega), half]

theorem toInt_shifted : (s.shifted p).toInt = upper p.rs1Bit s / 2 := by
  have number := toNat_shifted (s := s) (p := p)
  have bound := (s.reg p.rs1Bit).isLt
  rw [toInt_eq, upper]
  generalize sign s.PSR = negative at number ⊢
  cases negative <;> simp only [Bool.false_eq_true, if_true, if_false] at number ⊢ <;> split <;> omega

theorem odd_iff (y : BitVec 32) : y &&& 0x00000001 ≠ 0 ↔ y.toNat % 2 = 1 := by
  have low : (y &&& 0x00000001).toNat = y.toNat % 2 := by
    rw [BitVec.toNat_and]
    exact Nat.and_one_is_mod _
  rw [← low, ne_eq, BitVec.toNat_eq]
  show ¬ (y &&& 0x00000001).toNat = 0 ↔ _
  omega

theorem toInt_addend : (s.addend second p).toInt = (second p s).toInt * ((s.Y.toNat : ℤ) % 2) := by
  rw [Processor.addend]
  split
  case isTrue set =>
    have odd := (odd_iff s.Y).mp set
    have here : (s.Y.toNat : ℤ) % 2 = 1 := by omega
    rw [here, mul_one]
  case isFalse clear =>
    have even := mt (odd_iff s.Y).mpr clear
    have here : (s.Y.toNat : ℤ) % 2 = 0 := by omega
    rw [here, mul_zero]
    rfl

theorem sum_exact (a b psr : BitVec 32) :
    ((a + b).toNat : ℤ) - 2 ^ 32 * (if sign (iccWriteAdd (a + b) a b psr) then 1 else 0) =
    a.toInt + b.toInt := by
  have negative := sign_iccWriteAdd a b psr
  have sum : (a + b).toNat = (a.toNat + b.toNat) % 2 ^ 32 := BitVec.toNat_add ..
  have ha := a.isLt
  have hb := b.isLt
  simp only [negative]
  rw [toInt_eq, toInt_eq]
  split_ifs <;> omega

theorem toNat_multiplier (y acc : BitVec 32) :
    ((y >>> 1) ||| (acc <<< 31)).toNat = y.toNat / 2 + 2 ^ 31 * (acc.toNat % 2) := by
  have half : (y >>> 1).toNat = y.toNat / 2 := by
    rw [BitVec.toNat_ushiftRight, Nat.shiftRight_eq_div_pow]
  have top : (acc <<< 31).toNat = 2 ^ 31 * (acc.toNat % 2) := by
    rw [BitVec.toNat_shiftLeft, Nat.shiftLeft_eq]
    omega
  have bound := y.isLt
  rw [BitVec.or_comm, toNat_top top (by omega), half, Nat.add_comm]

section Written

variable (filed : s.Filed)
include filed

theorem filed_multiplying : (s.multiplying second p).Filed := ⟨filed.zero, filed.distinct⟩

theorem filed_multiplied : (s.multiplied second p).Filed :=
    Processor.filed_setReg (filed_multiplying filed) _ _

theorem reg_multiplied (j : BitVec 5) : (s.multiplied second p).reg j =
    if j = p.rdBit ∧ p.rdBit ≠ 0 then s.shifted p + s.addend second p else s.reg j :=
  Processor.reg_setReg (filed_multiplying filed) _ _ _

variable (same : p.rs1Bit = p.rdBit) (nonzero : p.rdBit ≠ 0)
include same nonzero

theorem upper_multiplied : upper p.rdBit (s.multiplied second p) =
    upper p.rdBit s / 2 + (second p s).toInt * ((s.Y.toNat : ℤ) % 2) := by
  have result : (s.multiplied second p).reg p.rdBit = s.shifted p + s.addend second p := by
    rw [reg_multiplied filed]
    exact if_pos ⟨rfl, nonzero⟩
  have codes : (s.multiplied second p).PSR =
      iccWriteAdd (s.shifted p + s.addend second p) (s.shifted p) (s.addend second p) s.PSR :=
    Processor.setReg_PSR _ _
  rw [upper, result, codes, sum_exact, toInt_shifted, toInt_addend, same]

/-- A step of the instruction is a step of the multiplication. -/
theorem held_multiplied :
    held p.rdBit (s.multiplied second p) = ShiftAdd.step 32 (second p s).toInt (held p.rdBit s) := by
  have below : (s.multiplied second p).Y = (s.Y >>> 1) ||| (s.reg p.rdBit <<< 31) := by
    rw [← same]
    exact Processor.setReg_Y _ _
  have low : upper p.rdBit s % 2 = ((s.reg p.rdBit).toNat : ℤ) % 2 := by
    rw [upper]
    split <;> omega
  have out : held p.rdBit s % 2 = (s.Y.toNat : ℤ) % 2 := by
    rw [held]
    omega
  have number : ((s.multiplied second p).Y.toNat : ℤ) =
      (s.Y.toNat : ℤ) / 2 + 2 ^ 31 * (upper p.rdBit s % 2) := by
    rw [below, toNat_multiplier, low]
    push_cast
    rfl
  have halves : held p.rdBit s / 2 =
      2 ^ 32 * (upper p.rdBit s / 2) + ((s.Y.toNat : ℤ) / 2 + 2 ^ 31 * (upper p.rdBit s % 2)) := by
    rw [held]
    omega
  rw [ShiftAdd.step, out, halves, held, upper_multiplied filed same nonzero, number]
  ring

end Written

end Step

/-! ## The whole multiplication -/

/-- The fields of an instruction with three registers. -/
def named (rd rs1 rs2 : BitVec 5) : Params :=
  { setParams 0 with rdBit := rd, rs1Bit := rs1, rs2Bit := rs2 }

theorem runs_writesY {second : Operand σ} (steady : Steady second) (p : Params) (s : Processor σ)
    {Q : Unit → Processor σ → Prop} {E : Stop → Processor σ → Prop} : Runs (writesY second p) s Q E ↔
      Q () ((s.continueAt s.NPC (s.NPC + 4)).setY (s.reg p.rs1Bit ^^^ second p s)) := by
  simp only [writesY, incrementPC, readReg, Leon3.setY, runs_bind, runs_read, runs_update]
  rw [steady p s]
  exact Iff.rfl

theorem runs_writeYReg (bus : MemoryInterface σ) (p : Params) {s : Processor σ}
    {Q : Unit → Processor σ → Prop}
    {E : Stop → Processor σ → Prop} : Runs (body bus .writeYReg p) s Q E ↔
      Q () ((s.continueAt s.NPC (s.NPC + 4)).setY (s.reg p.rs1Bit ^^^ s.reg p.rs2Bit)) :=
  runs_writesY steady_rs2 p s

theorem runs_andccReg (bus : MemoryInterface σ) (p : Params) {s : Processor σ}
    {Q : Unit → Processor σ → Prop}
    {E : Stop → Processor σ → Prop} :
    Runs (body bus .andccReg p) s Q E ↔ Q () (s.operated opAnd iccWriteLogic rs2 p) :=
  runs_operation steady_rs2 p s

theorem runs_mulsccReg (bus : MemoryInterface σ) (p : Params) {s : Processor σ}
    {Q : Unit → Processor σ → Prop}
    {E : Stop → Processor σ → Prop} : Runs (body bus .mulsccReg p) s Q E ↔ Q () (s.multiplied rs2 p) :=
  runs_mulscc steady_rs2 p s

theorem runs_steps (bus : MemoryInterface σ) (n : ℕ) (p : Params) {s : Processor σ}
    {Q : Unit → Processor σ → Prop}
    {E : Stop → Processor σ → Prop} :
    Runs ((List.replicate n p).forM (body bus .mulsccReg)) s Q E ↔
      Q () ((Processor.multiplied rs2 p)^[n] s) := by
  induction n generalizing s with
  | zero => exact Iff.rfl
  | succ n ih =>
    rw [List.replicate_succ, List.forM_eq_forM, List.forM_cons, runs_bind, runs_mulsccReg]
    exact ih

theorem held_steps {s : Processor σ} (filed : s.Filed) {b acc : BitVec 5} (nonzero : acc ≠ 0)
    (other : b ≠ acc)
    (n : ℕ) : ((Processor.multiplied rs2 (named acc acc b))^[n] s).Filed ∧
      held acc ((Processor.multiplied rs2 (named acc acc b))^[n] s) =
        (ShiftAdd.step 32 (s.reg b).toInt)^[n] (held acc s) := by
  induction n generalizing s with
  | zero => exact ⟨filed, rfl⟩
  | succ n ih =>
    have kept : (s.multiplied rs2 (named acc acc b)).reg b = s.reg b := by
      rw [reg_multiplied filed]
      exact if_neg fun both => other both.1
    obtain ⟨filed', value⟩ := ih (@filed_multiplied σ rs2 (named acc acc b) _ filed)
    refine ⟨filed', ?_⟩
    rw [kept] at value
    exact value.trans (congrArg _ (held_multiplied (p := named acc acc b) filed rfl nonzero))

/-- Move the multiplier to `Y`, clear the product and the codes, do as many steps as the multiplier
has bits, and one more to place the product. -/
@[irreducible] def multiplication (bus : MemoryInterface σ) (m b acc : BitVec 5) : Behavior σ Unit := do
  body bus .writeYReg (named 0 m 0)
  body bus .andccReg (named acc 0 0)
  (List.replicate 32 (named acc acc b)).forM (body bus .mulsccReg)
  body bus .mulsccReg (named acc acc 0)

/-- The state in which the steps begin. -/
def beginning (m acc : BitVec 5) (s : Processor σ) : Processor σ :=
  ((s.continueAt s.NPC (s.NPC + 4)).setY (s.reg m ^^^ s.reg 0)).operated opAnd iccWriteLogic rs2
  (named acc 0 0)

theorem reg_zero {s : Processor σ} (filed : s.Filed) : s.reg 0 = 0 := by
  rw [Processor.reg, filed.zero]
  rfl

theorem beginning_spec {s : Processor σ} (filed : s.Filed) (m : BitVec 5) {b acc : BitVec 5}
    (nonzero : acc ≠ 0)
    (other : b ≠ acc) : (beginning m acc s).Filed ∧ (beginning m acc s).reg b = s.reg b ∧
      held acc (beginning m acc s) = (s.reg m).toNat := by
  have base : ((s.continueAt s.NPC (s.NPC + 4)).setY (s.reg m ^^^ s.reg 0)).Filed :=
    ⟨filed.zero, filed.distinct⟩
  have cleared : Processor.result opAnd rs2 (named acc 0 0)
      ((s.continueAt s.NPC (s.NPC + 4)).setY (s.reg m ^^^ s.reg 0)) = 0 := by
    show Processor.reg _ 0 &&& _ = 0
    rw [reg_zero base]
    exact BitVec.zero_and
  have product : (beginning m acc s).reg acc = 0 := by
    rw [beginning, Processor.reg_operated base, cleared]
    exact if_pos ⟨rfl, nonzero⟩
  have kept : (beginning m acc s).reg b = s.reg b := by
    rw [beginning, Processor.reg_operated base]
    exact if_neg fun both => other both.1
  have positive : sign (beginning m acc s).PSR = false := by
    rw [beginning, Processor.operated_PSR, cleared, sign, iccWriteLogic, iccWrite, PSR.getLsbD_writeIcc,
      PSR.getLsbD_writeIcc]
    rfl
  have multiplier : (beginning m acc s).Y = s.reg m := by
    refine (Processor.setReg_Y _ _).trans ?_
    show s.reg m ^^^ s.reg 0 = _
    rw [reg_zero filed]
    exact BitVec.xor_zero
  refine ⟨Processor.filed_operated base _, kept, ?_⟩
  rw [held, upper, product, positive, multiplier]
  simp

theorem toInt_upper {s : Processor σ} {acc : BitVec 5} (small : InRange (upper acc s)) :
    (s.reg acc).toInt = upper acc s := by
  have bound := (s.reg acc).isLt
  obtain ⟨low, high⟩ := small
  rw [upper] at low high ⊢
  rw [toInt_eq]
  split_ifs at low high ⊢ <;> omega

/-- A step that adds nothing leaves a product that needs no sign. -/
theorem held_last {s : Processor σ} (filed : s.Filed) {acc : BitVec 5} (nonzero : acc ≠ 0) :
    2 ^ 32 * ((s.multiplied rs2 (named acc acc 0)).reg acc).toInt +
      (s.multiplied rs2 (named acc acc 0)).Y.toNat =
      ShiftAdd.step 32 0 (held acc s) := by
  have none : (rs2 (named acc acc 0) s).toInt = 0 := by
    show (s.reg 0).toInt = 0
    rw [reg_zero filed]
    rfl
  have value := @held_multiplied σ rs2 (named acc acc 0) _ filed rfl nonzero
  have above := @upper_multiplied σ rs2 (named acc acc 0) _ filed rfl nonzero
  rw [none] at value above
  have half : upper acc s / 2 = (s.shifted (named acc acc 0)).toInt :=
    (toInt_shifted (p := named acc acc 0)).symm
  have small : InRange (upper acc (s.multiplied rs2 (named acc acc 0))) := by
    have low := BitVec.le_toInt (s.shifted (named acc acc 0))
    have high := BitVec.toInt_lt (x := s.shifted (named acc acc 0))
    refine (above.trans ?_) ▸ (⟨low, high⟩ : InRange (s.shifted (named acc acc 0)).toInt)
    rw [zero_mul, add_zero]
    exact half
  rw [toInt_upper small]
  exact value

/-- The steps leave the exact product of a signed factor and an unsigned one, in the register and
`Y`. -/
theorem multiplication_exact (bus : MemoryInterface σ) {s : Processor σ} (range : PSR.cwp s.PSR < 8)
    (shows : Shows s.control) (m : BitVec 5) {b acc : BitVec 5} (nonzero : acc ≠ 0) (other : b ≠ acc) :
    Runs (multiplication bus m b acc) s
      (fun _ t => 2 ^ 32 * (t.reg acc).toInt + t.Y.toNat = (s.reg b).toInt * (s.reg m).toNat)
      fun _ _ => False := by
  have filed := Processor.filed_of_shows range shows
  have begun := beginning_spec filed m nonzero other
  have steps := held_steps begun.1 nonzero other 32
  have low : 0 ≤ ((s.reg m).toNat : ℤ) := Int.natCast_nonneg _
  have high : ((s.reg m).toNat : ℤ) < 2 ^ 32 := by exact_mod_cast (s.reg m).isLt
  have placed := held_last steps.1 nonzero
  rw [steps.2, begun.2.1, begun.2.2, ShiftAdd.product _ low high] at placed
  unfold multiplication
  rw [runs_bind, runs_writeYReg, runs_bind, runs_andccReg, runs_bind, runs_steps, runs_mulsccReg]
  exact placed

/-- A negative factor in `%g1` and the multiplier in `%g2`. -/
def factors : Processor Unit := ((Simulation.initial ⟨0, 0⟩ ()).cpu.setReg 1 0xfffffff9).setReg 2
    0xfffffff0

theorem multiplication_exact_factors : Runs (multiplication (rom fun _ => 0) 2 1 3) factors
    (fun _ t => 2 ^ 32 * (t.reg 3).toInt + t.Y.toNat = (factors.reg 1).toInt * (factors.reg 2).toNat)
    fun _ _ => False := by
  have range : PSR.cwp factors.PSR < 8 := by decide
  have shows : Shows factors.control := rfl
  exact multiplication_exact (rom fun _ => 0) range shows 2 (by decide) (by decide)

end Socrocket.Leon3
