/- Socrocket/Leon3/Multiword
   digest: Additions and subtractions of numbers of several words, chained through the carry. -/

import Socrocket.Base.Limbs
import Socrocket.Leon3.ConditionCodes

set_option autoImplicit false
set_option relaxedAutoImplicit false

namespace Socrocket.Leon3

open Base Program Limbs

variable {σ : Type}

/-! ## One word -/

/-- The carry as a number. -/
def carry (s : Processor σ) : ℕ := (PSR.iccC s.PSR).toNat

theorem toNat_iccC (v : BitVec 32) : (PSR.iccC v).toNat = if v.getLsbD 20 then 1 else 0 :=
  PSR.toNat_field (p := 20) (by decide)

theorem carry_le_one (s : Processor σ) : carry s ≤ 1 := by
  rw [carry, toNat_iccC]
  split
  · exact le_refl 1
  · exact Nat.zero_le 1

variable {second : Operand σ}

theorem carry_iccWrite_eq (result ov c psr : BitVec 32) :
    (PSR.iccC (iccWrite result ov c psr)).toNat = if c.getLsbD 0 then 1 else 0 := by
  rw [toNat_iccC, iccWrite, PSR.getLsbD_writeIcc, if_pos rfl]

theorem addx_word (p : Params) (s : Processor σ) :
    (s.result opAddx second p).toNat + 2 ^ 32 * carry (s.operated opAddx iccWriteAdd second p) =
      (s.reg p.rs1Bit).toNat + (second p s).toNat + carry s := by
  have small := carry_le_one s
  have ha := (s.reg p.rs1Bit).isLt
  have hb := (second p s).isLt
  have sum : (s.result opAddx second p).toNat =
      ((s.reg p.rs1Bit).toNat + (second p s).toNat + carry s) % 2 ^ 32 := by
    rw [Processor.result, opAddx, BitVec.toNat_add, BitVec.toNat_add, carry]
    omega
  have out := addCarry_iff small sum
  rw [carry, Processor.operated_PSR, iccWriteAdd, carry_iccWrite_eq]
  simp only [out]
  split <;> omega

theorem add_word (p : Params) (s : Processor σ) :
    (s.result opAdd second p).toNat + 2 ^ 32 * carry (s.operated opAdd iccWriteAdd second p) =
      (s.reg p.rs1Bit).toNat + (second p s).toNat := by
  have ha := (s.reg p.rs1Bit).isLt
  have hb := (second p s).isLt
  have sum : (s.result opAdd second p).toNat =
      ((s.reg p.rs1Bit).toNat + (second p s).toNat + 0) % 2 ^ 32 := by
    rw [Processor.result, opAdd, BitVec.toNat_add, Nat.add_zero]
  have out := addCarry_iff (Nat.zero_le 1) sum
  rw [carry, Processor.operated_PSR, iccWriteAdd, carry_iccWrite_eq]
  simp only [out]
  split <;> omega

theorem subx_word (p : Params) (s : Processor σ) :
    (s.result opSubx second p).toNat + (second p s).toNat + carry s =
      (s.reg p.rs1Bit).toNat + 2 ^ 32 * carry (s.operated opSubx iccWriteSub second p) := by
  have small := carry_le_one s
  have ha := (s.reg p.rs1Bit).isLt
  have hb := (second p s).isLt
  have difference : (s.result opSubx second p).toNat =
      ((s.reg p.rs1Bit).toNat + 2 ^ 32 - (second p s).toNat + (2 ^ 32 - carry s)) % 2 ^ 32 := by
    rw [Processor.result, opSubx, BitVec.toNat_sub, BitVec.toNat_sub, carry]
    rw [carry] at small
    omega
  have out := subCarry_iff small difference
  rw [carry, carry, Processor.operated_PSR, iccWriteSub, carry_iccWrite_eq]
  rw [carry] at out difference small
  simp only [out]
  split <;> omega

theorem sub_word (p : Params) (s : Processor σ) :
    (s.result opSub second p).toNat + (second p s).toNat =
      (s.reg p.rs1Bit).toNat + 2 ^ 32 * carry (s.operated opSub iccWriteSub second p) := by
  have ha := (s.reg p.rs1Bit).isLt
  have hb := (second p s).isLt
  have difference : (s.result opSub second p).toNat =
      ((s.reg p.rs1Bit).toNat + 2 ^ 32 - (second p s).toNat + (2 ^ 32 - 0)) % 2 ^ 32 := by
    rw [Processor.result, opSub, BitVec.toNat_sub]
    omega
  have out := subCarry_iff (Nat.zero_le 1) difference
  rw [carry, Processor.operated_PSR, iccWriteSub, carry_iccWrite_eq]
  simp only [out]
  split <;> omega

/-! ## Many words -/

/-- No operation writes an operand or a result of a later one, and none writes the constant. -/
def Ordered : List Params → Prop
  | [] => True
  | p :: ps => p.rdBit ≠ 0 ∧
    (∀ q ∈ ps, q.rs1Bit ≠ p.rdBit ∧ q.rs2Bit ≠ p.rdBit ∧ q.rdBit ≠ p.rdBit) ∧ Ordered ps

instance decidableOrdered : (ps : List Params) → Decidable (Ordered ps)
  | [] => isTrue trivial
  | _ :: ps =>
    have := decidableOrdered ps
    inferInstanceAs (Decidable (_ ∧ _ ∧ _))

/-- The number in the registers that a field of the instructions names, the least word in the first. -/
def number (field : Params → BitVec 5) (ps : List Params) (s : Processor σ) : ℕ :=
  value (ps.map fun p => s.reg (field p))

section Chain

variable {f : BitVec 32 → BitVec 32 → BitVec 32 → BitVec 32} {icc : Icc}

/-- The processor after a list of operations. -/
def operations (f : BitVec 32 → BitVec 32 → BitVec 32 → BitVec 32) (icc : Icc) (ps : List Params)
    (s : Processor σ) :
    Processor σ :=
  ps.foldl (fun s p => s.operated f icc rs2 p) s

theorem runs_operations (ps : List Params) {s : Processor σ} {Q : Unit → Processor σ → Prop}
    {E : Stop → Processor σ → Prop} :
    Runs (ps.forM (operation f icc rs2)) s Q E ↔ Q () (operations f icc ps s) := by
  induction ps generalizing s with
  | nil => exact Iff.rfl
  | cons p ps ih =>
    rw [List.forM_eq_forM, List.forM_cons, runs_bind, runs_operation steady_rs2]
    exact ih

theorem reg_operations (ps : List Params) {s : Processor σ} (filed : s.Filed) {j : BitVec 5}
    (other : ∀ p ∈ ps, p.rdBit ≠ j) : (operations f icc ps s).reg j = s.reg j := by
  induction ps generalizing s with
  | nil => rfl
  | cons p ps ih =>
    have kept : (s.operated f icc rs2 p).reg j = s.reg j := by
      rw [Processor.reg_operated filed]
      exact if_neg fun same => other p List.mem_cons_self same.1.symm
    exact (ih (Processor.filed_operated filed p) fun q later =>
      other q (List.mem_cons_of_mem _ later)).trans kept

theorem number_operated {s : Processor σ} (filed : s.Filed) {p : Params} {ps : List Params}
    {field : Params → BitVec 5}
    (other : ∀ q ∈ ps, field q ≠ p.rdBit) :
    number field ps (s.operated f icc rs2 p) = number field ps s := by
  refine congrArg value (List.map_congr_left fun q later => ?_)
  rw [Processor.reg_operated filed]
  exact if_neg fun same => other q later same.1

theorem reg_first {s : Processor σ} (filed : s.Filed) {p : Params} {ps : List Params}
    (nonzero : p.rdBit ≠ 0)
    (other : ∀ q ∈ ps, q.rdBit ≠ p.rdBit) {f' : BitVec 32 → BitVec 32 → BitVec 32 → BitVec 32}
    {icc' : Icc} :
    (operations f' icc' ps (s.operated f icc rs2 p)).reg p.rdBit = s.result f rs2 p := by
  rw [reg_operations ps (Processor.filed_operated filed p) other, Processor.reg_operated filed]
  exact if_pos ⟨rfl, nonzero⟩

end Chain

/-- The result is the sum of the operands and a carry, up to the carry out of its last word. -/
def Adds (ps : List Params) (c : ℕ) (s t : Processor σ) : Prop :=
  number Params.rdBit ps t + 2 ^ (32 * ps.length) * carry t =
    number Params.rs1Bit ps s + number Params.rs2Bit ps s + c

/-- The result is the difference of the operands less a borrow, up to the borrow of its last word. -/
def Subtracts (ps : List Params) (c : ℕ) (s t : Processor σ) : Prop :=
  number Params.rdBit ps t + number Params.rs2Bit ps s + c =
    number Params.rs1Bit ps s + 2 ^ (32 * ps.length) * carry t

section Cons

variable {f f' : BitVec 32 → BitVec 32 → BitVec 32 → BitVec 32} {icc icc' : Icc} {s : Processor σ}
    {p : Params}
  {ps : List Params} {c : ℕ}

/-- The first addition hands its carry to the others. -/
theorem Adds.cons (filed : s.Filed) (ordered : Ordered (p :: ps))
    (first : (s.result f rs2 p).toNat + 2 ^ 32 * carry (s.operated f icc rs2 p) =
      (s.reg p.rs1Bit).toNat + (s.reg p.rs2Bit).toNat + c)
    (rest : Adds ps (carry (s.operated f icc rs2 p)) (s.operated f icc rs2 p)
      (operations f' icc' ps (s.operated f icc rs2 p))) :
    Adds (p :: ps) c s (operations f' icc' ps (s.operated f icc rs2 p)) := by
  obtain ⟨nonzero, apart, -⟩ := ordered
  unfold Adds at rest
  rw [number_operated filed fun q later => (apart q later).1,
    number_operated filed fun q later => (apart q later).2.1] at rest
  have step := add_step first rest
  rw [← reg_first filed nonzero fun q later => (apart q later).2.2] at step
  exact step

theorem Subtracts.cons (filed : s.Filed) (ordered : Ordered (p :: ps))
    (first : (s.result f rs2 p).toNat + (s.reg p.rs2Bit).toNat + c =
      (s.reg p.rs1Bit).toNat + 2 ^ 32 * carry (s.operated f icc rs2 p))
    (rest : Subtracts ps (carry (s.operated f icc rs2 p)) (s.operated f icc rs2 p)
      (operations f' icc' ps (s.operated f icc rs2 p))) :
    Subtracts (p :: ps) c s (operations f' icc' ps (s.operated f icc rs2 p)) := by
  obtain ⟨nonzero, apart, -⟩ := ordered
  unfold Subtracts at rest
  rw [number_operated filed fun q later => (apart q later).1,
    number_operated filed fun q later => (apart q later).2.1] at rest
  have step := sub_step first rest
  rw [← reg_first filed nonzero fun q later => (apart q later).2.2] at step
  exact step

end Cons

theorem adds_operations {s : Processor σ} (filed : s.Filed) {ps : List Params} (ordered : Ordered ps) :
    Adds ps (carry s) s (operations opAddx iccWriteAdd ps s) := by
  induction ps generalizing s with
  | nil =>
    show 0 + 2 ^ 0 * carry s = 0 + 0 + carry s
    omega
  | cons p ps ih =>
    exact Adds.cons filed ordered (addx_word p s) (ih (Processor.filed_operated filed p) ordered.2.2)

theorem subtracts_operations {s : Processor σ} (filed : s.Filed) {ps : List Params}
    (ordered : Ordered ps) :
    Subtracts ps (carry s) s (operations opSubx iccWriteSub ps s) := by
  induction ps generalizing s with
  | nil =>
    show 0 + 0 + carry s = 0 + 2 ^ 0 * carry s
    omega
  | cons p ps ih =>
    exact Subtracts.cons filed ordered (subx_word p s)
      (ih (Processor.filed_operated filed p) ordered.2.2)

/-- Sums and differences of numbers of any length, a word an instruction, with the carry at the end. -/
theorem multiword_exact (bus : MemoryInterface σ) {s : Processor σ} (range : PSR.cwp s.PSR < 8)
    (shows : Shows s.control) {p : Params} {ps : List Params} (ordered : Ordered (p :: ps)) :
    Runs (do body bus .addccReg p; ps.forM (body bus .addxccReg)) s (fun _ t => Adds (p :: ps) 0 s t)
      (fun _ _ => False) ∧
    Runs (do body bus .subccReg p; ps.forM (body bus .subxccReg)) s
      (fun _ t => Subtracts (p :: ps) 0 s t)
      (fun _ _ => False) := by
  have filed := Processor.filed_of_shows range shows
  constructor
  · refine (runs_bind _ _).mpr ((runs_operation steady_rs2 p s).mpr ?_)
    refine (runs_operations ps).mpr (Adds.cons filed ordered (add_word p s) ?_)
    exact adds_operations (Processor.filed_operated filed p) ordered.2.2
  · refine (runs_bind _ _).mpr ((runs_operation steady_rs2 p s).mpr ?_)
    refine (runs_operations ps).mpr (Subtracts.cons filed ordered (sub_word p s) ?_)
    exact subtracts_operations (Processor.filed_operated filed p) ordered.2.2

/-- The number `0x1ffffffff` in `%g1` and `%g2`, and one in `%g3` and `%g4`. -/
def twoWords : Processor Unit :=
  (((Simulation.initial ⟨0, 0⟩ ()).cpu.setReg 1 0xffffffff).setReg 2 1).setReg 3 1

theorem multiword_exact_twoWords :
    Runs (do
        body (rom fun _ => 0) .addccReg (setParams 0x82804003)
        [setParams 0x84c08004].forM (body (rom fun _ => 0) .addxccReg))
      twoWords (fun _ t => Adds [setParams 0x82804003, setParams 0x84c08004] 0 twoWords t)
        (fun _ _ => False) ∧
    Runs (do
        body (rom fun _ => 0) .subccReg (setParams 0x82804003)
        [setParams 0x84c08004].forM (body (rom fun _ => 0) .subxccReg))
      twoWords (fun _ t => Subtracts [setParams 0x82804003, setParams 0x84c08004] 0 twoWords t)
        (fun _ _ => False) := by
  have range : PSR.cwp twoWords.PSR < 8 := by decide
  have shows : Shows twoWords.control := rfl
  have ordered : Ordered [setParams 0x82804003, setParams 0x84c08004] := by decide
  exact multiword_exact (rom fun _ => 0) range shows ordered

end Socrocket.Leon3
