/- Socrocket/Leon3/StraightLine
   digest: Sequences of operations, and what a register holds after them. -/

import Socrocket.Leon3.Windows

set_option autoImplicit false
set_option relaxedAutoImplicit false

namespace Socrocket.Leon3

open Base Program

variable {σ : Type}

/-! ## One operation -/

/-- An operand that does not depend on the counters. -/
def Steady (second : Operand σ) : Prop := ∀ p s pc npc, second p (s.continueAt pc npc) = second p s

theorem steady_rs2 : Steady (σ := σ) rs2 := fun _ _ _ _ => rfl

theorem steady_simm13 : Steady (σ := σ) simm13 := fun _ _ _ _ => rfl

namespace Processor

variable (f : BitVec 32 → BitVec 32 → BitVec 32 → BitVec 32) (icc : Icc) (second : Operand σ)
    (p : Params)
  (s : Processor σ)

/-- The result of an operation. -/
def result : BitVec 32 := f (PSR.iccC s.PSR) (s.reg p.rs1Bit) (second p s)

/-- The processor after an operation. -/
def operated : Processor σ :=
  ((s.continueAt s.NPC (s.NPC + 4)).setPsr
    (icc (s.result f second p) (s.reg p.rs1Bit) (second p s) s.PSR)).setReg
    p.rdBit (s.result f second p)

theorem operated_PSR :
    (s.operated f icc second p).PSR = icc (s.result f second p) (s.reg p.rs1Bit) (second p s) s.PSR :=
  setReg_PSR _ _

theorem operated_PC : (s.operated f icc second p).PC = s.NPC := (counters_store _ _).1

theorem operated_NPC : (s.operated f icc second p).NPC = s.NPC + 4 := (counters_store _ _).2

end Processor

theorem runs_operation {f : BitVec 32 → BitVec 32 → BitVec 32 → BitVec 32} {icc : Icc}
    {second : Operand σ}
    (steady : Steady second) (p : Params) (s : Processor σ) {Q : Unit → Processor σ → Prop}
    {E : Stop → Processor σ → Prop} :
    Runs (operation f icc second p) s Q E ↔ Q () (s.operated f icc second p) := by
  simp only [operation, incrementPC, readReg, Leon3.setPsr, writeReg, runs_bind, runs_read, runs_update]
  rw [steady p s]
  exact Iff.rfl

/-! ## The register file -/

namespace Processor

/-- The entries of the table are different registers, the first one the constant. -/
structure Filed (s : Processor σ) : Prop where
  zero : s.REGS 0 = .global 0
  distinct : ∀ i j, s.REGS i = s.REGS j → i = j

variable {s : Processor σ}

theorem filed_of_shows (range : PSR.cwp s.PSR < 8) (shows : Shows s.control) : s.Filed := by
  have table : s.REGS = tableOf ((PSR.window s.PSR).setWidth 32) := by
    rw [← PSR.cwp_lt_iff.mp range]
    exact shows
  refine ⟨by rw [table]; rfl, fun i j same => ?_⟩
  rw [table] at same
  unfold tableOf at same
  have low (k : BitVec 5) : ¬ 8 ≤ k ↔ k.toNat < 8 := by
    rw [BitVec.not_le, BitVec.lt_def]
    rfl
  have hi := i.isLt
  have hj := j.isLt
  refine BitVec.eq_of_toNat_eq ?_
  split_ifs at same with first second second
  · have number := congrArg BitVec.toNat (Cell.window.inj same)
    rw [toNat_winreg, toNat_winreg] at number
    rw [BitVec.le_def] at first second
    have eight : (8 : BitVec 5).toNat = 8 := rfl
    omega
  · have number := congrArg BitVec.toNat (Cell.global.inj same)
    rw [low] at first second
    rw [BitVec.toNat_setWidth, BitVec.toNat_setWidth] at number
    omega

theorem reg_setReg (filed : s.Filed) (i j : BitVec 5) (v : BitVec 32) :
    (s.setReg i v).reg j = if j = i ∧ i ≠ 0 then v else s.reg j := by
  have table : (s.setReg i v).REGS = s.REGS := congrArg Control.REGS (control_setReg s i v)
  have here : s.REGS j = s.REGS i ↔ j = i := ⟨filed.distinct j i, fun same => same ▸ rfl⟩
  have constant : s.REGS i = .global 0 ↔ i = 0 := by
    rw [← filed.zero]
    exact ⟨filed.distinct i 0, fun same => same ▸ rfl⟩
  rw [reg, table, setReg, load_store]
  simp only [here, ne_eq, constant]
  rfl

theorem filed_setReg (filed : s.Filed) (i : BitVec 5) (v : BitVec 32) : (s.setReg i v).Filed := by
  have table : (s.setReg i v).REGS = s.REGS := congrArg Control.REGS (control_setReg s i v)
  exact ⟨table ▸ filed.zero, table ▸ filed.distinct⟩

variable {f : BitVec 32 → BitVec 32 → BitVec 32 → BitVec 32} {icc : Icc} {second : Operand σ}

theorem filed_operated (filed : s.Filed) (p : Params) : (s.operated f icc second p).Filed :=
  have base : ((s.continueAt s.NPC (s.NPC + 4)).setPsr
      (icc (s.result f second p) (s.reg p.rs1Bit) (second p s) s.PSR)).Filed :=
        ⟨filed.zero, filed.distinct⟩
  filed_setReg base _ _

/-- What a register holds after an operation. -/
theorem reg_operated (filed : s.Filed) (p : Params) (j : BitVec 5) : (s.operated f icc second p).reg j =
    if j = p.rdBit ∧ p.rdBit ≠ 0 then s.result f second p else s.reg j :=
  have base : ((s.continueAt s.NPC (s.NPC + 4)).setPsr
      (icc (s.result f second p) (s.reg p.rs1Bit) (second p s) s.PSR)).Filed :=
        ⟨filed.zero, filed.distinct⟩
  reg_setReg base _ _ _

end Processor

end Socrocket.Leon3
