/- Socrocket/Leon3/Divide
   digest: Quotients brought to 32 bits, and the products they undo. -/

import Socrocket.Leon3.Multiply

set_option autoImplicit false
set_option relaxedAutoImplicit false

namespace Socrocket.Leon3

open Base Program

variable {σ : Type}

/-! ## The quotients -/

theorem toNat_and_upper (x : BitVec 64) (n : ℕ) :
    (x &&& BitVec.allOnes 64 <<< n).toNat = 2 ^ n * (x.toNat / 2 ^ n) := by
  have shifted : x &&& BitVec.allOnes 64 <<< n = (x >>> n) <<< n := by
    refine BitVec.eq_of_getLsbD_eq fun i bound => ?_
    rw [BitVec.getLsbD_and, BitVec.getLsbD_shiftLeft, BitVec.getLsbD_shiftLeft,
      BitVec.getLsbD_ushiftRight]
    by_cases low : i < n
    · simp [low]
    · have here : n + (i - n) = i := by omega
      have ones : (BitVec.allOnes 64).getLsbD (i - n) = true := by
        rw [BitVec.getLsbD_allOnes, decide_eq_true_iff]
        omega
      rw [ones]
      simp [low, bound, here]
  have small := x.isLt
  have floor := Nat.div_mul_le_self x.toNat (2 ^ n)
  rw [shifted, BitVec.toNat_shiftLeft, BitVec.toNat_ushiftRight, Nat.shiftLeft_eq,
    Nat.shiftRight_eq_div_pow, Nat.mod_eq_of_lt (by omega), Nat.mul_comm]

theorem unsignedQuotient_eq (dividend : BitVec 64) (divisor : BitVec 32) :
    unsignedQuotient dividend divisor = some
      (BitVec.ofNat 32 (min (dividend.toNat / divisor.toNat) (2 ^ 32 - 1)),
      decide (2 ^ 32 ≤ dividend.toNat / divisor.toNat)) := by
  have bound := divisor.isLt
  have quotient : (dividend / divisor.setWidth 64).toNat = dividend.toNat / divisor.toNat := by
    rw [BitVec.toNat_udiv, BitVec.toNat_setWidth, Nat.mod_eq_of_lt (by omega)]
  have above : dividend / divisor.setWidth 64 &&& 0xffffffff00000000 ≠ 0 ↔
      2 ^ 32 ≤ dividend.toNat / divisor.toNat := by
    have number := toNat_and_upper (dividend / divisor.setWidth 64) 32
    rw [quotient] at number
    rw [ne_eq, BitVec.toNat_eq]
    show ¬ (dividend / divisor.setWidth 64 &&& BitVec.allOnes 64 <<< 32).toNat = 0 ↔ _
    omega
  rw [unsignedQuotient]
  by_cases exceeds : 2 ^ 32 ≤ dividend.toNat / divisor.toNat
  · rw [if_pos (above.mpr exceeds), Nat.min_eq_right (by omega), decide_eq_true exceeds]
    rfl
  · rw [if_neg (mt above.mp exceeds), Nat.min_eq_left (by omega), decide_eq_false exceeds, ← quotient]
    rw [BitVec.ofNat_toNat]

theorem signedQuotient_eq (dividend : BitVec 64) (divisor : BitVec 32)
    (defined : ¬ (dividend = BitVec.intMin 64 ∧ divisor = -1)) : signedQuotient dividend divisor =
      some (BitVec.ofInt 32 (max (-2 ^ 31) (min (dividend.toInt.tdiv divisor.toInt) (2 ^ 31 - 1))),
        decide (¬ InRange (dividend.toInt.tdiv divisor.toInt))) := by
  have quotient : (dividend.sdiv (divisor.signExtend 64)).toInt =
      dividend.toInt.tdiv divisor.toInt := by
    have apart : dividend ≠ BitVec.intMin 64 ∨ divisor.signExtend 64 ≠ -1#64 := by
      by_contra both
      push Not at both
      refine defined ⟨both.1, BitVec.eq_of_toInt_eq ?_⟩
      have same := congrArg BitVec.toInt both.2
      rw [BitVec.toInt_signExtend_of_le (by decide)] at same
      exact same
    rw [BitVec.toInt_sdiv_of_ne_or_ne _ _ apart, BitVec.toInt_signExtend_of_le (by decide)]
  rw [signedQuotient, if_neg defined, ← quotient]
  generalize dividend.sdiv (divisor.signExtend 64) = res64
  have low := toNat_and_upper res64 31
  have bound := res64.isLt
  have range : (res64 &&& 0xffffffff80000000 ≠ 0 ∧ res64 &&& 0xffffffff80000000 ≠ 0xffffffff80000000) ↔
      ¬ InRange res64.toInt := by
    rw [ne_eq, ne_eq, BitVec.toNat_eq, BitVec.toNat_eq, InRange, BitVec.toInt_eq_toNat_cond]
    show ¬ (res64 &&& BitVec.allOnes 64 <<< 31).toNat = 0 ∧
      ¬ (res64 &&& BitVec.allOnes 64 <<< 31).toNat =
      0xffffffff80000000 ↔ _
    split_ifs <;> omega
  have positive : (0 : BitVec 64).slt res64 = true ↔ 0 < res64.toInt := by
    rw [BitVec.slt_iff_toInt_lt]
    rfl
  by_cases exceeds : InRange res64.toInt
  · obtain ⟨least, greatest⟩ := exceeds
    have inside : max (-2 ^ 31) (min res64.toInt (2 ^ 31 - 1)) = res64.toInt := by omega
    rw [if_neg (fun out => range.mp out ⟨least, greatest⟩), inside,
      decide_eq_false (not_not_intro ⟨least, greatest⟩)]
    have word : res64.setWidth 32 = BitVec.ofInt 32 res64.toInt := by
      refine BitVec.eq_of_toNat_eq ?_
      rw [BitVec.toNat_setWidth, BitVec.toNat_ofInt, BitVec.toInt_eq_toNat_cond]
      split_ifs <;> omega
    rw [word]
  · rw [if_pos (range.mpr exceeds), decide_eq_true exceeds]
    rw [InRange] at exceeds
    by_cases side : 0 < res64.toInt
    · have top : max (-2 ^ 31) (min res64.toInt (2 ^ 31 - 1)) = 2 ^ 31 - 1 := by omega
      rw [if_pos (positive.mpr side), top]
      rfl
    · have bottom : max (-2 ^ 31) (min res64.toInt (2 ^ 31 - 1)) = -2 ^ 31 := by omega
      rw [if_neg (mt positive.mp side), bottom]
      rfl

/-! ## The instructions -/

namespace Processor

/-- The processor after a multiplication of 64 bits. -/
def producted (product : BitVec 64) (codes : BitVec 32) (p : Params) (s : Processor σ) : Processor σ :=
  ((((s.continueAt s.NPC (s.NPC + 4)).setY ((product >>> 32).setWidth 32)).setCycles
    (s.totalInstrCycles + 3)).setPsr
    codes).setReg p.rdBit (product.setWidth 32)

/-- The processor after a division. -/
def divided (codes result : BitVec 32) (p : Params) (s : Processor σ) : Processor σ :=
  (((s.continueAt s.NPC (s.NPC + 4)).setCycles (s.totalInstrCycles + 34)).setPsr codes).setReg
  p.rdBit result

end Processor

section Instructions

variable {second : Operand σ} {p : Params} {s : Processor σ} {Q : Unit → Processor σ → Prop}
  {E : Stop → Processor σ → Prop}

theorem runs_multiply (steady : Steady second) (product : BitVec 32 → BitVec 32 → BitVec 64)
    (icc : Icc) :
    Runs (multiply product icc second p) s Q E ↔
      Q () (s.producted (product (s.reg p.rs1Bit) (second p s))
      (icc ((product (s.reg p.rs1Bit) (second p s)).setWidth 32) (s.reg p.rs1Bit)
        (second p s) s.PSR) p) := by
  simp only [multiply, incrementPC, readReg, Leon3.setY, stall, Leon3.setPsr, writeReg, runs_bind,
    runs_read, runs_update]
  rw [steady p s]
  exact Iff.rfl

theorem runs_divide (steady : Steady second) (nonzero : second p s ≠ 0) {quotient : Quotient}
    {result : BitVec 32}
    {exceeds : Bool} (defined : quotient (s.Y ++ s.reg p.rs1Bit) (second p s) = some
      (result, exceeds)) :
    Runs (divide quotient true second p) s Q E ↔
      Q () (s.divided (iccWrite result (ofBool exceeds) 0 s.PSR) result p) := by
  have later : quotient ((s.continueAt s.NPC (s.NPC + 4)).Y ++
    (s.continueAt s.NPC (s.NPC + 4)).reg p.rs1Bit)
      (second p s) = some (result, exceeds) := defined
  simp only [divide, incrementPC, readReg, stall, Leon3.setPsr, writeReg, runs_bind, runs_read,
    runs_update]
  rw [steady p s, if_neg nonzero, later]
  exact Iff.rfl

/-- What a division leaves: the result and its overflow. -/
theorem divided_spec (filed : s.Filed) (named : p.rdBit ≠ 0) (result : BitVec 32) (exceeds : Bool) :
    (s.divided (iccWrite result (ofBool exceeds) 0 s.PSR) result p).reg p.rdBit = result ∧
      (PSR.iccV (s.divided (iccWrite result (ofBool exceeds) 0 s.PSR) result p).PSR ≠ 0 ↔
        exceeds = true) := by
  have base : (((s.continueAt s.NPC (s.NPC + 4)).setCycles (s.totalInstrCycles + 34)).setPsr
      (iccWrite result (ofBool exceeds) 0 s.PSR)).Filed := ⟨filed.zero, filed.distinct⟩
  constructor
  · rw [Processor.divided, Processor.reg_setReg base]
    exact if_pos ⟨rfl, named⟩
  · rw [Processor.divided, Processor.setReg_PSR]
    show PSR.iccV (iccWrite result (ofBool exceeds) 0 s.PSR) ≠ 0 ↔ _
    rw [overflow_iccWrite, getLsbD_ofBool]

theorem unsigned_clamped (filed : s.Filed) (steady : Steady second) (named : p.rdBit ≠ 0)
    (nonzero : second p s ≠ 0) : Runs (divide unsignedQuotient true second p) s (fun _ t =>
      (t.reg p.rdBit).toNat = min ((s.Y ++ s.reg p.rs1Bit).toNat / (second p s).toNat) (2 ^ 32 - 1) ∧
      (PSR.iccV t.PSR ≠ 0 ↔ 2 ^ 32 ≤ (s.Y ++ s.reg p.rs1Bit).toNat / (second p s).toNat)) E := by
  rw [runs_divide steady nonzero (unsignedQuotient_eq _ _)]
  obtain ⟨value, codes⟩ := divided_spec filed named
    (BitVec.ofNat 32 (min ((s.Y ++ s.reg p.rs1Bit).toNat / (second p s).toNat) (2 ^ 32 - 1)))
    (decide (2 ^ 32 ≤ (s.Y ++ s.reg p.rs1Bit).toNat / (second p s).toNat))
  refine ⟨?_, codes.trans decide_eq_true_iff⟩
  rw [value, BitVec.toNat_ofNat, Nat.mod_eq_of_lt (by omega)]

theorem signed_clamped (filed : s.Filed) (steady : Steady second) (named : p.rdBit ≠ 0)
    (nonzero : second p s ≠ 0)
    (defined : ¬ (s.Y ++ s.reg p.rs1Bit = BitVec.intMin 64 ∧ second p s = -1)) :
    Runs (divide signedQuotient true second p) s (fun _ t =>
      (t.reg p.rdBit).toInt =
        max (-2 ^ 31) (min ((s.Y ++ s.reg p.rs1Bit).toInt.tdiv (second p s).toInt) (2 ^ 31 - 1)) ∧
      (PSR.iccV t.PSR ≠ 0 ↔ ¬ InRange ((s.Y ++ s.reg p.rs1Bit).toInt.tdiv (second p s).toInt))) E := by
  rw [runs_divide steady nonzero (signedQuotient_eq _ _ defined)]
  obtain ⟨value, codes⟩ := divided_spec filed named
    (BitVec.ofInt 32 (max (-2 ^ 31) (min ((s.Y ++ s.reg p.rs1Bit).toInt.tdiv (second p s).toInt)
      (2 ^ 31 - 1))))
    (decide (¬ InRange ((s.Y ++ s.reg p.rs1Bit).toInt.tdiv (second p s).toInt)))
  refine ⟨?_, codes.trans decide_eq_true_iff⟩
  rw [value]
  exact BitVec.toInt_ofInt_eq_self (by decide) (le_max_left _ _) (by omega)

end Instructions

/-- A division by a number other than zero gives the exact quotient, or the nearest word with the
overflow. -/
theorem division_clamped (bus : MemoryInterface σ) {s : Processor σ} (range : PSR.cwp s.PSR < 8)
    (shows : Shows s.control) (imm : Bool) {p : Params} (named : p.rdBit ≠ 0) {d : BitVec 32}
    (divisor : (if imm then simm13 else rs2) p s = d) (nonzero : d ≠ 0) :
    Runs (body bus (if imm then .udivccImm else .udivccReg) p) s (fun _ t =>
        (t.reg p.rdBit).toNat = min ((s.Y ++ s.reg p.rs1Bit).toNat / d.toNat) (2 ^ 32 - 1) ∧
        (PSR.iccV t.PSR ≠ 0 ↔ 2 ^ 32 ≤ (s.Y ++ s.reg p.rs1Bit).toNat / d.toNat)) (fun _ _ => False) ∧
    (¬ (s.Y ++ s.reg p.rs1Bit = BitVec.intMin 64 ∧ d = -1) →
      Runs (body bus (if imm then .sdivccImm else .sdivccReg) p) s (fun _ t =>
        (t.reg p.rdBit).toInt = max (-2 ^ 31)
        (min ((s.Y ++ s.reg p.rs1Bit).toInt.tdiv d.toInt) (2 ^ 31 - 1)) ∧
        (PSR.iccV t.PSR ≠ 0 ↔ ¬ InRange ((s.Y ++ s.reg p.rs1Bit).toInt.tdiv d.toInt))) fun _ _ =>
          False) := by
  have filed := Processor.filed_of_shows range shows
  subst divisor
  cases imm with
  | false =>
    exact ⟨unsigned_clamped filed steady_rs2 named nonzero,
      signed_clamped filed steady_rs2 named nonzero⟩
  | true =>
    exact ⟨unsigned_clamped filed steady_simm13 named nonzero,
      signed_clamped filed steady_simm13 named nonzero⟩

/-- Fifty million and one in `%g1` with seven in `%g2`, one above them in `Y`. -/
def ratio : Processor Unit := (((Simulation.initial ⟨0, 0⟩ ()).cpu.setReg 1 50000001).setReg 2 7).setY 1

theorem division_clamped_ratio :
    Runs (body (rom fun _ => 0) .udivccReg (named 3 1 2)) ratio (fun _ t =>
        (t.reg 3).toNat = min ((ratio.Y ++ ratio.reg 1).toNat / (7 : BitVec 32).toNat) (2 ^ 32 - 1) ∧
        (PSR.iccV t.PSR ≠ 0 ↔ 2 ^ 32 ≤ (ratio.Y ++ ratio.reg 1).toNat / (7 : BitVec 32).toNat))
          (fun _ _ => False) ∧
    (¬ (ratio.Y ++ ratio.reg 1 = BitVec.intMin 64 ∧ (7 : BitVec 32) = -1) →
      Runs (body (rom fun _ => 0) .sdivccReg (named 3 1 2)) ratio (fun _ t =>
        (t.reg 3).toInt =
          max (-2 ^ 31) (min ((ratio.Y ++ ratio.reg 1).toInt.tdiv (7 : BitVec 32).toInt) (2 ^ 31 - 1)) ∧
        (PSR.iccV t.PSR ≠ 0 ↔ ¬ InRange ((ratio.Y ++ ratio.reg 1).toInt.tdiv (7 : BitVec 32).toInt)))
        fun _ _ => False) := by
  have range : PSR.cwp ratio.PSR < 8 := by decide
  have shows : Shows ratio.control := rfl
  exact division_clamped (rom fun _ => 0) range shows false (by decide) (p := named 3 1 2)
    (d := 7) rfl (by decide)

/-! ## The way back -/

section Back

variable {p : Params} {s : Processor σ} {product : BitVec 64} {codes : BitVec 32}

theorem producted_spec (filed : s.Filed) (named : p.rdBit ≠ 0) {q : Params} (first : q.rs1Bit = p.rdBit)
    (second : q.rs2Bit = p.rs2Bit) (kept : p.rs2Bit ≠ p.rdBit) : (s.producted product codes p).Filed ∧
      (s.producted product codes p).Y ++ (s.producted product codes p).reg q.rs1Bit = product ∧
      rs2 q (s.producted product codes p) = s.reg p.rs2Bit := by
  have base : ((((s.continueAt s.NPC (s.NPC + 4)).setY ((product >>> 32).setWidth 32)).setCycles
      (s.totalInstrCycles + 3)).setPsr codes).Filed := ⟨filed.zero, filed.distinct⟩
  refine ⟨Processor.filed_setReg base _ _, ?_, ?_⟩
  · have low : (s.producted product codes p).reg q.rs1Bit = product.setWidth 32 := by
      rw [Processor.producted, Processor.reg_setReg base, first]
      exact if_pos ⟨rfl, named⟩
    have high : (s.producted product codes p).Y = (product >>> 32).setWidth 32 := Processor.setReg_Y _ _
    rw [low, high]
    refine BitVec.eq_of_getLsbD_eq fun i bound => ?_
    rw [BitVec.getLsbD_append]
    by_cases below : i < 32
    · simp [below]
    · have here : 32 + (i - 32) = i := by omega
      have inside : i - 32 < 32 := by omega
      simp [below, here, inside]
  · rw [rs2, second, Processor.producted, Processor.reg_setReg base]
    exact if_neg fun both => kept both.1

end Back

theorem toNat_unsignedProduct (a b : BitVec 32) : (unsignedProduct a b).toNat = a.toNat * b.toNat := by
  have small : a.toNat * b.toNat < 2 ^ 32 * 2 ^ 32 := Nat.mul_lt_mul'' a.isLt b.isLt
  have ha := a.isLt
  have hb := b.isLt
  rw [unsignedProduct, BitVec.toNat_mul, BitVec.toNat_setWidth, BitVec.toNat_setWidth,
    Nat.mod_eq_of_lt (show a.toNat < 2 ^ 64 by omega),
      Nat.mod_eq_of_lt (show b.toNat < 2 ^ 64 by omega),
    Nat.mod_eq_of_lt (by omega)]

theorem toInt_bounds (a : BitVec 32) :
    -2 ^ 31 ≤ a.toInt ∧ a.toInt < 2 ^ 31 := ⟨BitVec.le_toInt a, BitVec.toInt_lt⟩

theorem product_bounds (a b : BitVec 32) :
    -2 ^ 62 ≤ a.toInt * b.toInt ∧ a.toInt * b.toInt ≤ 2 ^ 62 := by
  have left : |a.toInt| ≤ 2 ^ 31 := abs_le.mpr ⟨(toInt_bounds a).1, (toInt_bounds a).2.le⟩
  have right : |b.toInt| ≤ 2 ^ 31 := abs_le.mpr ⟨(toInt_bounds b).1, (toInt_bounds b).2.le⟩
  have both : |a.toInt * b.toInt| ≤ 2 ^ 31 * 2 ^ 31 := by
    rw [abs_mul]
    exact mul_le_mul left right (abs_nonneg _) (by decide)
  exact abs_le.mp both

theorem toInt_signedProduct (a b : BitVec 32) : (signedProduct a b).toInt = a.toInt * b.toInt := by
  obtain ⟨low, high⟩ := product_bounds a b
  rw [signedProduct, BitVec.toInt_mul, BitVec.toInt_signExtend_of_le (by decide),
    BitVec.toInt_signExtend_of_le (by decide)]
  exact Int.bmod_eq_of_le (by omega) (by omega)

/-- The product of two registers divided by one of them is the other, and nothing overflows. -/
theorem divide_product (bus : MemoryInterface σ) {s : Processor σ} (range : PSR.cwp s.PSR < 8)
    (shows : Shows s.control) {p q : Params} (first : q.rs1Bit = p.rdBit) (second : q.rs2Bit = p.rs2Bit)
    (kept : p.rs2Bit ≠ p.rdBit) (product : p.rdBit ≠ 0) (result : q.rdBit ≠ 0)
    (divisor : s.reg p.rs2Bit ≠ 0) :
    Runs (do body bus .umulReg p; body bus .udivccReg q) s
      (fun _ t => t.reg q.rdBit = s.reg p.rs1Bit ∧ PSR.iccV t.PSR = 0) (fun _ _ => False) ∧
    Runs (do body bus .smulReg p; body bus .sdivccReg q) s
      (fun _ t => t.reg q.rdBit = s.reg p.rs1Bit ∧ PSR.iccV t.PSR = 0) fun _ _ => False := by
  have filed := Processor.filed_of_shows range shows
  constructor
  · refine (runs_bind _ _).mpr ((runs_multiply steady_rs2 _ _).mpr ?_)
    have spec := @producted_spec σ p s (unsignedProduct (s.reg p.rs1Bit) (s.reg p.rs2Bit)) s.PSR
      filed product q first second kept
    obtain ⟨filed', joined, factor⟩ := spec
    refine (unsigned_clamped filed' steady_rs2 result (factor.trans_ne divisor)).mono
      (fun _ t left => ?_)
      fun _ _ stopped => stopped
    have positive : 0 < (s.reg p.rs2Bit).toNat :=
      Nat.pos_of_ne_zero fun none => divisor (BitVec.eq_of_toNat_eq none)
    have small := (s.reg p.rs1Bit).isLt
    rw [joined, factor, toNat_unsignedProduct, Nat.mul_div_cancel _ positive,
      Nat.min_eq_left (by omega)] at left
    refine ⟨BitVec.eq_of_toNat_eq left.1, ?_⟩
    by_contra set
    exact absurd (left.2.mp set) (by omega)
  · refine (runs_bind _ _).mpr ((runs_multiply steady_rs2 _ _).mpr ?_)
    have spec := @producted_spec σ p s (signedProduct (s.reg p.rs1Bit) (s.reg p.rs2Bit)) s.PSR filed
      product q first second kept
    obtain ⟨filed', joined, factor⟩ := spec
    have bounds := product_bounds (s.reg p.rs1Bit) (s.reg p.rs2Bit)
    rw [← toInt_signedProduct] at bounds
    refine (signed_clamped filed' steady_rs2 result (factor.trans_ne divisor) fun extreme => ?_).mono
      (fun _ t left => ?_) fun _ _ stopped => stopped
    · -- the product of two words is far from the least number of 64 bits
      rw [joined] at extreme
      rw [extreme.1] at bounds
      exact absurd bounds.1 (by decide)
    have nonzero : (s.reg p.rs2Bit).toInt ≠ 0 := fun none => divisor (BitVec.eq_of_toInt_eq none)
    obtain ⟨least, greatest⟩ := toInt_bounds (s.reg p.rs1Bit)
    rw [joined, factor, toInt_signedProduct, Int.mul_tdiv_cancel _ nonzero] at left
    refine ⟨BitVec.eq_of_toInt_eq (left.1.trans (by omega)), ?_⟩
    by_contra set
    exact left.2.mp set ⟨least, greatest⟩

theorem divide_product_factors :
    Runs (do body (rom fun _ => 0) .umulReg (named 3 1 2); body (rom fun _ => 0) .udivccReg (named 4 3 2)) factors
      (fun _ t => t.reg 4 = factors.reg 1 ∧ PSR.iccV t.PSR = 0) (fun _ _ => False) ∧
    Runs (do body (rom fun _ => 0) .smulReg (named 3 1 2); body (rom fun _ => 0) .sdivccReg (named 4 3 2)) factors
      (fun _ t => t.reg 4 = factors.reg 1 ∧ PSR.iccV t.PSR = 0) fun _ _ => False := by
  have range : PSR.cwp factors.PSR < 8 := by decide
  have shows : Shows factors.control := rfl
  have divisor : factors.reg 2 ≠ 0 := by decide
  exact divide_product (rom fun _ => 0) range shows (p := named 3 1 2) (q := named 4 3 2) rfl rfl
    (by decide)
    (by decide) (by decide) divisor

end Socrocket.Leon3
