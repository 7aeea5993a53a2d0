/- Socrocket/Leon3/ConditionCodes
   digest: The condition codes as facts about numbers, and the branches after a comparison. -/

import Socrocket.Leon3.StraightLine

set_option autoImplicit false
set_option relaxedAutoImplicit false

namespace Socrocket.Leon3

open Base Program

variable {σ : Type}

/-! ## The codes of an operation -/

theorem getLsbD_sign (result : BitVec 32) :
    ((result &&& 0x80000000) >>> 31).getLsbD 0 = result.msb := by
  rw [BitVec.msb_eq_getLsbD_last]
  simp

theorem getLsbD_addOverflow (result a b : BitVec 32) : (addOverflow result a b).getLsbD 0 =
    (a.msb && b.msb && !result.msb || !a.msb && !b.msb && result.msb) := by
  simp [addOverflow, BitVec.msb_eq_getLsbD_last]

theorem getLsbD_addCarry (result a b : BitVec 32) : (addCarry result a b).getLsbD 0 =
    (a.msb && b.msb || (a.msb || b.msb) && !result.msb) := by
  simp [addCarry, BitVec.msb_eq_getLsbD_last]

theorem getLsbD_subOverflow (result a b : BitVec 32) : (subOverflow result a b).getLsbD 0 =
    (a.msb && !b.msb && !result.msb || !a.msb && b.msb && result.msb) := by
  simp [subOverflow, BitVec.msb_eq_getLsbD_last]

theorem getLsbD_subCarry (result a b : BitVec 32) : (subCarry result a b).getLsbD 0 =
    (!a.msb && b.msb || (!a.msb || b.msb) && result.msb) := by
  simp [subCarry, BitVec.msb_eq_getLsbD_last]

theorem msb_iff (a : BitVec 32) : a.msb = true ↔ 2 ^ 31 ≤ a.toNat := by
  rw [BitVec.msb_eq_decide, decide_eq_true_iff]

theorem addCarry_iff {result a b : BitVec 32} {c : ℕ} (bit : c ≤ 1)
    (sum : result.toNat = (a.toNat + b.toNat + c) % 2 ^ 32) :
    (addCarry result a b).getLsbD 0 = true ↔ 2 ^ 32 ≤ a.toNat + b.toNat + c := by
  have ha := a.isLt
  have hb := b.isLt
  rw [getLsbD_addCarry]
  simp only [Bool.or_eq_true, Bool.and_eq_true, Bool.not_eq_true', ← Bool.not_eq_true, msb_iff]
  omega

theorem subCarry_iff {result a b : BitVec 32} {c : ℕ} (bit : c ≤ 1)
    (difference : result.toNat = (a.toNat + 2 ^ 32 - b.toNat + (2 ^ 32 - c)) % 2 ^ 32) :
    (subCarry result a b).getLsbD 0 = true ↔ a.toNat < b.toNat + c := by
  have ha := a.isLt
  have hb := b.isLt
  rw [getLsbD_subCarry]
  simp only [Bool.or_eq_true, Bool.and_eq_true, Bool.not_eq_true', ← Bool.not_eq_true, msb_iff]
  omega

theorem toInt_eq (a : BitVec 32) : a.toInt = a.toNat - if 2 ^ 31 ≤ a.toNat then 2 ^ 32 else 0 := by
  have ha := a.isLt
  rw [BitVec.toInt_eq_toNat_cond]
  split_ifs <;> omega

theorem negative_iff (a : BitVec 32) : a.msb = true ↔ a.toInt < 0 := by
  have ha := a.isLt
  rw [msb_iff, toInt_eq]
  split_ifs <;> omega

/-- The range of the signed words. -/
def InRange (x : ℤ) : Prop := -2 ^ 31 ≤ x ∧ x < 2 ^ 31

instance (x : ℤ) : Decidable (InRange x) := inferInstanceAs (Decidable (_ ∧ _))

theorem addOverflow_iff (a b : BitVec 32) :
    (addOverflow (a + b) a b).getLsbD 0 = true ↔ ¬ InRange (a.toInt + b.toInt) := by
  have ha := a.isLt
  have hb := b.isLt
  have sum : (a + b).toNat = (a.toNat + b.toNat) % 2 ^ 32 := BitVec.toNat_add ..
  rw [getLsbD_addOverflow, InRange, toInt_eq, toInt_eq]
  simp only [Bool.or_eq_true, Bool.and_eq_true, Bool.not_eq_true', ← Bool.not_eq_true, msb_iff]
  split_ifs <;> omega

/-- The sign of the exact sum is the sign of the result, where it does not overflow. -/
theorem add_negative_iff (a b : BitVec 32) :
    ((a + b).msb != (addOverflow (a + b) a b).getLsbD 0) = true ↔ a.toInt + b.toInt < 0 := by
  have ha := a.isLt
  have hb := b.isLt
  have sum : (a + b).toNat = (a.toNat + b.toNat) % 2 ^ 32 := BitVec.toNat_add ..
  have exceeds := addOverflow_iff a b
  have sign := msb_iff (a + b)
  rw [bne_iff_ne, ne_eq, Bool.eq_iff_iff, exceeds, sign, InRange, toInt_eq, toInt_eq]
  split_ifs <;> omega

theorem subOverflow_iff (a b : BitVec 32) :
    (subOverflow (a - b) a b).getLsbD 0 = true ↔ ¬ InRange (a.toInt - b.toInt) := by
  have ha := a.isLt
  have hb := b.isLt
  have difference : (a - b).toNat = (2 ^ 32 - b.toNat + a.toNat) % 2 ^ 32 := BitVec.toNat_sub ..
  rw [getLsbD_subOverflow, InRange, toInt_eq, toInt_eq]
  simp only [Bool.or_eq_true, Bool.and_eq_true, Bool.not_eq_true', ← Bool.not_eq_true, msb_iff]
  split_ifs <;> omega

theorem sub_negative_iff (a b : BitVec 32) :
    ((a - b).msb != (subOverflow (a - b) a b).getLsbD 0) = true ↔ a.toInt < b.toInt := by
  have ha := a.isLt
  have hb := b.isLt
  have difference : (a - b).toNat = (2 ^ 32 - b.toNat + a.toNat) % 2 ^ 32 := BitVec.toNat_sub ..
  have exceeds := subOverflow_iff a b
  have sign := msb_iff (a - b)
  rw [bne_iff_ne, ne_eq, Bool.eq_iff_iff, exceeds, sign, InRange, toInt_eq, toInt_eq]
  split_ifs <;> omega

/-! ## The state register after an operation -/

section Written

variable (result ov c psr : BitVec 32)

theorem negative_iccWrite : PSR.iccN (iccWrite result ov c psr) ≠ 0 ↔ result.msb = true := by
  rw [PSR.iccN_ne_zero_iff, iccWrite, PSR.getLsbD_writeIcc, ← getLsbD_sign]
  simp

theorem getLsbD_ofBool (b : Bool) : (ofBool b).getLsbD 0 = b := by
  cases b <;> rfl

theorem zero_iccWrite : PSR.iccZ (iccWrite result ov c psr) ≠ 0 ↔ result = 0 := by
  rw [PSR.iccZ_ne_zero_iff, iccWrite, PSR.getLsbD_writeIcc, if_neg (by decide), if_neg (by decide),
    if_pos rfl, getLsbD_ofBool, decide_eq_true_iff]

theorem overflow_iccWrite : PSR.iccV (iccWrite result ov c psr) ≠ 0 ↔ ov.getLsbD 0 = true := by
  rw [PSR.iccV_ne_zero_iff, iccWrite, PSR.getLsbD_writeIcc]
  simp

theorem carry_iccWrite : PSR.iccC (iccWrite result ov c psr) ≠ 0 ↔ c.getLsbD 0 = true := by
  rw [PSR.iccC_ne_zero_iff, iccWrite, PSR.getLsbD_writeIcc]
  simp

end Written

/-! ## Branches after a comparison -/

/-- What a branch asks about two operands that have been compared, by its condition. -/
def Compares (cond a b : BitVec 32) : Prop :=
  match cond with
  | 0x1 => a = b
  | 0x2 => a.toInt ≤ b.toInt
  | 0x3 => a.toInt < b.toInt
  | 0x4 => a.toNat ≤ b.toNat
  | 0x5 => a.toNat < b.toNat
  | 0x6 => (a - b).toInt < 0
  | 0x7 => ¬ InRange (a.toInt - b.toInt)
  | 0x8 => True
  | 0x9 => a ≠ b
  | 0xa => b.toInt < a.toInt
  | 0xb => b.toInt ≤ a.toInt
  | 0xc => b.toNat < a.toNat
  | 0xd => b.toNat ≤ a.toNat
  | 0xe => 0 ≤ (a - b).toInt
  | 0xf => InRange (a.toInt - b.toInt)
  | _ => False

instance (cond a b : BitVec 32) : Decidable (Compares cond a b) := by
  unfold Compares
  split <;> infer_instance

/-- The test of the condition codes of a comparison is the comparison. -/
theorem condHolds_compare (cond a b psr : BitVec 32) (tested : cond ≠ 0x8) :
    condHolds cond (iccWriteSub (a - b) a b psr) = true ↔ Compares cond a b := by
  have z : decide (PSR.iccZ (iccWriteSub (a - b) a b psr) ≠ 0) = decide (a = b) :=
    decide_eq_decide.mpr ((zero_iccWrite ..).trans sub_eq_zero)
  have n : decide (PSR.iccN (iccWriteSub (a - b) a b psr) ≠ 0) = decide ((a - b).toInt < 0) :=
    decide_eq_decide.mpr ((negative_iccWrite ..).trans (negative_iff _))
  have v : decide (PSR.iccV (iccWriteSub (a - b) a b psr) ≠ 0) = decide
      (¬ InRange (a.toInt - b.toInt)) :=
    decide_eq_decide.mpr ((overflow_iccWrite ..).trans (subOverflow_iff a b))
  have c : decide (PSR.iccC (iccWriteSub (a - b) a b psr) ≠ 0) = decide (a.toNat < b.toNat) := by
    refine decide_eq_decide.mpr ((carry_iccWrite ..).trans (subCarry_iff (c := 0) (by omega) ?_))
    rw [BitVec.toNat_sub]
    omega
  have signed : (decide ((a - b).toInt < 0) == decide (¬ InRange (a.toInt - b.toInt))) =
      decide (b.toInt ≤ a.toInt) := by
    have less := sub_negative_iff a b
    have sign := negative_iff (a - b)
    have exceeds := subOverflow_iff a b
    rw [bne_iff_ne, ne_eq, Bool.eq_iff_iff, sign, exceeds] at less
    rw [Bool.eq_iff_iff, beq_iff_eq, decide_eq_decide, decide_eq_true_iff, ← not_lt, ← less, not_not]
  have equal : a = b ↔ a.toInt = b.toInt := BitVec.toInt_inj.symm
  have equal' : a = b ↔ a.toNat = b.toNat := BitVec.toNat_inj.symm
  unfold condHolds
  simp only [z, n, v, c, bne, signed]
  unfold Compares
  split
  case h_2 =>
    simp [-BitVec.toInt_sub]
    rw [equal]
    omega
  case h_4 =>
    simp [-BitVec.toInt_sub]
    rw [equal']
    omega
  case h_8 => exact absurd rfl tested
  case h_10 =>
    simp [-BitVec.toInt_sub]
    rw [equal]
    omega
  case h_12 =>
    simp [-BitVec.toInt_sub]
    rw [equal']
    omega
  case h_16 =>
    -- the condition is none of those that are tested
    simp_all
  all_goals simp [-BitVec.toInt_sub]

/-- The counters after a branch. One that is always taken may annul the instruction after it. -/
def branched (npc target : BitVec 32) (taken annul always : Prop) [Decidable taken] [Decidable annul]
    [Decidable always] : BitVec 32 × BitVec 32 :=
  if taken then
    if always ∧ annul then (target, target + 4) else (npc, target)
  else if annul then (npc + 4, npc + 8) else (npc, npc + 4)

theorem runs_branch {s : Processor σ} {q : Params} (taken : Prop) [Decidable taken]
    {Q : Unit → Processor σ → Prop}
    {E : Stop → Processor σ → Prop} (tested : q.cond ≠ 0x8 → (condHolds q.cond s.PSR = true ↔ taken))
    (always : q.cond = 0x8 → taken)
    (next : ∀ target, target = s.PC + 4 * signExtend q.disp22 22 →
      Q () ((s.setCycles 2).continueAt (branched s.NPC target taken (q.a = 1) (q.cond = 0x8)).1
        (branched s.NPC target taken (q.a = 1) (q.cond = 0x8)).2)) : Runs (branch q) s Q E := by
  have never (zero : q.cond = 0) : condHolds q.cond s.PSR = false := by
    rw [zero]
    rfl
  simp only [branch, Leon3.continueAt, runs_bind, runs_update, runs_read]
  have next := next _ rfl
  have pc : (s.setCycles 2).PC = s.PC := rfl
  have npc : (s.setCycles 2).NPC = s.NPC := rfl
  by_cases eight : q.cond = 0x8
  · have holds := always eight
    rw [if_pos eight]
    by_cases annul : q.a = 1
    · rw [if_pos annul, runs_update]
      simpa only [branched, holds, eight, annul, and_self, if_true, pc, npc] using next
    · rw [if_neg annul, runs_update]
      simpa only [branched, holds, annul, and_false, if_true, if_false, pc, npc] using next
  rw [if_neg eight]
  have test := tested eight
  by_cases zero : q.cond = 0
  · have fails : ¬ taken := by
      rw [← test, never zero]
      exact Bool.false_ne_true
    rw [if_pos zero]
    by_cases annul : q.a = 1
    · rw [if_pos annul, runs_update]
      simpa only [branched, fails, annul, if_true, if_false, pc, npc] using next
    · rw [if_neg annul, runs_update]
      simpa only [branched, fails, annul, if_false, pc, npc] using next
  rw [if_neg zero]
  simp only [runs_bind, runs_read]
  by_cases holds : taken
  · rw [if_pos (show condHolds q.cond (s.setCycles 2).PSR = true from test.mpr holds), runs_update]
    simpa only [branched, holds, eight, false_and, if_true, if_false, pc, npc] using next
  · rw [if_neg (show ¬ condHolds q.cond (s.setCycles 2).PSR = true from fun yes => holds (test.mp yes))]
    by_cases annul : q.a = 1
    · rw [if_pos annul, runs_update]
      simpa only [branched, holds, annul, if_true, if_false, pc, npc] using next
    · rw [if_neg annul, runs_update]
      simpa only [branched, holds, annul, if_false, pc, npc] using next

/-- A comparison and the branch after it: the branch is taken exactly if the operands compare as it
asks. -/
theorem compare_branch (bus : MemoryInterface σ) (imm : Bool) (p q : Params) (s : Processor σ) :
    Runs (do body bus (if imm then .subccImm else .subccReg) p; body bus .branch q) s
      (fun _ t => (t.PC, t.NPC) = branched (s.NPC + 4) (s.NPC + 4 * signExtend q.disp22 22)
        (Compares q.cond (s.reg p.rs1Bit) ((if imm then simm13 else rs2) p s)) (q.a = 1) (q.cond = 0x8))
      fun _ _ => False := by
  have compare {second : Operand σ} (steady : Steady second) :
      Runs (do operation opSub iccWriteSub second p; branch q) s (fun _ t => (t.PC, t.NPC) =
        branched (s.NPC + 4) (s.NPC + 4 * signExtend q.disp22 22)
          (Compares q.cond (s.reg p.rs1Bit) (second p s))
          (q.a = 1) (q.cond = 0x8)) fun _ _ => False := by
    rw [runs_bind, runs_operation steady]
    refine runs_branch (Compares q.cond (s.reg p.rs1Bit) (second p s)) (fun other => ?_)
      (fun always => ?_)
      fun target here => ?_
    · rw [Processor.operated_PSR]
      exact condHolds_compare _ _ _ _ other
    · rw [always]
      trivial
    · rw [here, Processor.operated_PC, Processor.operated_NPC]
      rfl
  cases imm with
  | false => exact compare steady_rs2
  | true => exact compare steady_simm13

end Socrocket.Leon3
