/- Socrocket/Leon3/Registers
   digest: The registers of the integer unit, the fields of its state registers and its register windows. -/

import Socrocket.Base.BitField
import Mathlib.Data.BitVec
import Mathlib.Logic.Function.Basic
import Mathlib.Tactic.IntervalCases

set_option autoImplicit false
set_option relaxedAutoImplicit false

namespace Socrocket.Leon3

open Base

/-! ## The processor state register -/

namespace PSR

variable (v : BitVec 32)

def cwp : BitVec 32 := v &&& 0x1f

def et : BitVec 32 := (v &&& 0x20) >>> 5

def ps : BitVec 32 := (v &&& 0x40) >>> 6

def supervisor : BitVec 32 := (v &&& 0x80) >>> 7

def pil : BitVec 32 := (v &&& 0xf00) >>> 8

def iccC : BitVec 32 := (v &&& 0x100000) >>> 20

def iccV : BitVec 32 := (v &&& 0x200000) >>> 21

def iccZ : BitVec 32 := (v &&& 0x400000) >>> 22

def iccN : BitVec 32 := (v &&& 0x800000) >>> 23

def writeIccC (other : BitVec 32) : BitVec 32 := (v &&& 0xffefffff#32) ||| ((other &&& 0x1#32) <<< 20)

def writeIccV (other : BitVec 32) : BitVec 32 := (v &&& 0xffdfffff#32) ||| ((other &&& 0x1#32) <<< 21)

def writeIccZ (other : BitVec 32) : BitVec 32 := (v &&& 0xffbfffff#32) ||| ((other &&& 0x1#32) <<< 22)

def writeIccN (other : BitVec 32) : BitVec 32 := (v &&& 0xff7fffff#32) ||| ((other &&& 0x1#32) <<< 23)

/-- The four condition codes, in the order in which every instruction writes them. -/
def writeIcc (n z ov c : BitVec 32) : BitVec 32 :=
  writeIccC (writeIccV (writeIccZ (writeIccN v n) z) ov) c

/-- The window in use, as a number of three bits. -/
def window : BitVec 3 := v.setWidth 3

variable {v}

theorem getLsbD_field {p : ℕ} (inside : p < 32) (i : ℕ) :
    ((v &&& 1#32 <<< p) >>> p).getLsbD i = (decide (i = 0) && v.getLsbD p) := by
  simp only [BitVec.getLsbD_ushiftRight, BitVec.getLsbD_and, BitVec.getLsbD_shiftLeft,
    BitVec.getLsbD_one]
  by_cases first : i = 0
  · subst first
    simp [inside]
  · simp [first]

theorem field_ne_zero_iff {p : ℕ} (inside : p < 32) :
    (v &&& 1#32 <<< p) >>> p ≠ 0 ↔ v.getLsbD p = true := by
  constructor
  · contrapose!
    intro clear
    refine BitVec.eq_of_getLsbD_eq fun i _ => ?_
    simp [getLsbD_field inside, clear]
  · intro set none
    have here := getLsbD_field (v := v) inside 0
    simp [none, set] at here

theorem field_eq {p : ℕ} (inside : p < 32) :
    (v &&& 1#32 <<< p) >>> p = if v.getLsbD p then 1 else 0 := by
  refine BitVec.eq_of_getLsbD_eq fun i _ => ?_
  rw [getLsbD_field inside]
  cases v.getLsbD p with
  | false => simp
  | true => simp [BitVec.getLsbD_one]

theorem toNat_field {p : ℕ} (inside : p < 32) :
    ((v &&& 1#32 <<< p) >>> p).toNat = if v.getLsbD p then 1 else 0 := by
  rw [field_eq inside]
  split <;> rfl

theorem et_ne_zero_iff : et v ≠ 0 ↔ v.getLsbD 5 = true := field_ne_zero_iff (p := 5) (by decide)

theorem ps_ne_zero_iff : ps v ≠ 0 ↔ v.getLsbD 6 = true := field_ne_zero_iff (p := 6) (by decide)

theorem supervisor_ne_zero_iff : supervisor v ≠ 0 ↔ v.getLsbD 7 = true :=
  field_ne_zero_iff (p := 7) (by decide)

theorem iccC_ne_zero_iff : iccC v ≠ 0 ↔ v.getLsbD 20 = true := field_ne_zero_iff (p := 20) (by decide)

theorem iccV_ne_zero_iff : iccV v ≠ 0 ↔ v.getLsbD 21 = true := field_ne_zero_iff (p := 21) (by decide)

theorem iccZ_ne_zero_iff : iccZ v ≠ 0 ↔ v.getLsbD 22 = true := field_ne_zero_iff (p := 22) (by decide)

theorem iccN_ne_zero_iff : iccN v ≠ 0 ↔ v.getLsbD 23 = true := field_ne_zero_iff (p := 23) (by decide)

theorem getLsbD_writeIcc (n z ov c : BitVec 32) (i : ℕ) : (writeIcc v n z ov c).getLsbD i =
    if i = 20 then c.getLsbD 0 else if i = 21 then ov.getLsbD 0 else if i = 22 then z.getLsbD 0
    else if i = 23 then n.getLsbD 0 else v.getLsbD i := by
  unfold writeIcc writeIccC writeIccV writeIccZ writeIccN
  by_cases bound : i < 32
  · interval_cases i <;> simp
  · have above (x : BitVec 32) : x.getLsbD i = false := BitVec.getLsbD_of_ge _ _ (by omega)
    simp only [above]
    split_ifs <;> first | rfl | omega

/-! ### The window number -/

theorem umod_eight (x : BitVec 32) : x % 8 = (x.setWidth 3).setWidth 32 := by
  apply BitVec.eq_of_toNat_eq
  have eight : (8 : BitVec 32).toNat = 8 := rfl
  simp only [BitVec.toNat_umod, BitVec.toNat_setWidth, eight]
  omega

theorem setWidth_cwp (v : BitVec 32) : (cwp v).setWidth 3 = window v := by
  refine BitVec.eq_of_getLsbD_eq fun i bound => ?_
  have inside : ∀ i < 3, (0x1f : BitVec 32).getLsbD i = true := by decide
  simp only [cwp, window, BitVec.getLsbD_setWidth, BitVec.getLsbD_and, inside i bound, Bool.and_true]

theorem next_cwp (v : BitVec 32) : (cwp v + 1) % 8 = (window v + 1).setWidth 32 := by
  rw [umod_eight, BitVec.setWidth_add _ _ (by decide), setWidth_cwp]
  rfl

theorem previous_cwp (v : BitVec 32) : (cwp v - 1) % 8 = (window v - 1).setWidth 32 := by
  rw [umod_eight, BitVec.sub_eq_add_neg, BitVec.sub_eq_add_neg, BitVec.setWidth_add _ _ (by decide),
    setWidth_cwp]
  rfl

/-- Change the window: the other bits are kept. -/
def writeCwp (v newCwp : BitVec 32) : BitVec 32 := (v &&& 0xffffffe0) ||| newCwp

theorem getLsbD_writeCwp (w : BitVec 3) (i : ℕ) : (writeCwp v (w.setWidth 32)).getLsbD i =
    if i < 5 then w.getLsbD i else v.getLsbD i := by
  by_cases bound : i < 32
  · have keeps : ∀ i < 32, (0xffffffe0 : BitVec 32).getLsbD i = decide (5 ≤ i) := by decide
    rw [writeCwp, BitVec.getLsbD_or, BitVec.getLsbD_and, keeps i bound, BitVec.getLsbD_setWidth]
    by_cases low : i < 5
    · simp [low, bound]
    · have none : w.getLsbD i = false := BitVec.getLsbD_of_ge _ _ (by omega)
      simp [low, none]
      omega
  · rw [if_neg (by omega), BitVec.getLsbD_of_ge _ _ (by omega), BitVec.getLsbD_of_ge _ _ (by omega)]

/-- What a trap makes of the register: the mode is saved, the supervisor is entered with traps
disabled, in the next window down. -/
def trapped (v : BitVec 32) : BitVec 32 :=
  let curPSR := (v &&& 0xffffffbf#32) ||| (supervisor v <<< 6)
  let curPSR := (curPSR &&& 0xffffff7f) ||| 0x00000080
  let curPSR := curPSR &&& 0xffffffdf
  (curPSR &&& 0xffffffe0) + (cwp v - 1) % 8

/-- What a return from a trap makes of it: the saved mode in the next window up, with traps enabled. -/
def returned (v : BitVec 32) : BitVec 32 :=
  let newCwp : BitVec 32 := (cwp v + 1) % 8
  (v &&& 0xffffff40#32) ||| (newCwp ||| 0x20#32 ||| (ps v <<< 7))

/-- What is written to it: the implementation is fixed, and neither a coprocessor nor a floating
point unit can be enabled. -/
def written (x : BitVec 32) : BitVec 32 := (x &&& 0x00ffcfff) ||| 0xf3000000

theorem and_add_window (x : BitVec 32) (w : BitVec 3) :
    (x &&& 0xffffffe0) + w.setWidth 32 = writeCwp x (w.setWidth 32) := by
  refine BitVec.add_eq_or_of_and_eq_zero _ _ (BitVec.eq_of_getLsbD_eq fun i bound => ?_)
  have keeps : ∀ i < 32, (0xffffffe0 : BitVec 32).getLsbD i = decide (5 ≤ i) := by decide
  rw [BitVec.getLsbD_and, BitVec.getLsbD_and, keeps i bound, BitVec.getLsbD_setWidth]
  by_cases low : i < 5
  · simp [low]
  · simp [BitVec.getLsbD_of_ge w i (by omega)]

theorem getLsbD_trapped (i : ℕ) : (trapped v).getLsbD i =
    if i < 5 then (window v - 1).getLsbD i else if i = 5 then false else if i = 6 then v.getLsbD 7
    else if i = 7 then true else v.getLsbD i := by
  unfold trapped supervisor
  rw [previous_cwp, and_add_window, getLsbD_writeCwp]
  by_cases bound : i < 32
  · interval_cases i <;> simp
  · have above (x : BitVec 32) : x.getLsbD i = false := BitVec.getLsbD_of_ge _ _ (by omega)
    simp only [above]
    split_ifs <;> first | rfl | omega

theorem getLsbD_returned (i : ℕ) : (returned v).getLsbD i =
    if i < 5 then (window v + 1).getLsbD i else if i = 5 then true else if i = 7 then v.getLsbD 6
    else v.getLsbD i := by
  unfold returned ps
  rw [next_cwp]
  by_cases bound : i < 32
  · interval_cases i <;> simp
  · have above (x : BitVec 32) : x.getLsbD i = false := BitVec.getLsbD_of_ge _ _ (by omega)
    simp only [above]
    split_ifs <;> first | rfl | omega

theorem getLsbD_written (x : BitVec 32) (i : ℕ) : (written x).getLsbD i =
    if i < 24 then decide (i ≠ 12 ∧ i ≠ 13) && x.getLsbD i else (0xf3000000 : BitVec 32).getLsbD i := by
  unfold written
  by_cases bound : i < 32
  · interval_cases i <;> simp
  · simp [BitVec.getLsbD_of_ge _ i (by omega : 32 ≤ i)]

/-! ### The fields after a write -/

theorem toNat_cwp (v : BitVec 32) : (cwp v).toNat = v.toNat % 32 :=
  BitField.toNat_and_lowMask v (k := 5) (by decide)

theorem getLsbD_cwp (i : ℕ) : (cwp v).getLsbD i = (decide (i < 5) && v.getLsbD i) := by
  rw [cwp, BitVec.getLsbD_and, Bool.and_comm]
  congr 1
  by_cases bound : i < 32
  · revert i
    decide
  · rw [BitVec.getLsbD_of_ge _ _ (by omega), decide_eq_false (by omega)]

theorem cwp_lt_iff : cwp v < 8 ↔ cwp v = (window v).setWidth 32 := by
  have eight : (8 : BitVec 32).toNat = 8 := rfl
  rw [BitVec.lt_def, eight, ← BitVec.toNat_inj, toNat_cwp, window, BitVec.toNat_setWidth,
    BitVec.toNat_setWidth]
  omega

theorem cwp_eq_of_bits {w : BitVec 3} (bits : ∀ i < 5, v.getLsbD i = w.getLsbD i) :
    cwp v = w.setWidth 32 := by
  refine BitVec.eq_of_getLsbD_eq fun i bound => ?_
  rw [getLsbD_cwp, BitVec.getLsbD_setWidth, decide_eq_true bound, Bool.true_and]
  by_cases low : i < 5
  · rw [decide_eq_true low, Bool.true_and, bits i low]
  · rw [decide_eq_false low, Bool.false_and, BitVec.getLsbD_of_ge _ _ (by omega)]

theorem cwp_setWidth_lt (w : BitVec 3) : (w.setWidth 32 : BitVec 32) < 8 := by
  rw [BitVec.lt_def, BitVec.toNat_setWidth]
  have := w.isLt
  have eight : (8 : BitVec 32).toNat = 8 := rfl
  omega

theorem cwp_writeCwp (w : BitVec 3) : cwp (writeCwp v (w.setWidth 32)) = w.setWidth 32 :=
  cwp_eq_of_bits fun i low => by rw [getLsbD_writeCwp, if_pos low]

theorem cwp_trapped : cwp (trapped v) = (window v - 1).setWidth 32 :=
  cwp_eq_of_bits fun i low => by rw [getLsbD_trapped, if_pos low]

theorem cwp_returned : cwp (returned v) = (window v + 1).setWidth 32 :=
  cwp_eq_of_bits fun i low => by rw [getLsbD_returned, if_pos low]

theorem cwp_writeIcc (n z ov c : BitVec 32) : cwp (writeIcc v n z ov c) = cwp v := by
  refine BitVec.eq_of_getLsbD_eq fun i _ => ?_
  rw [getLsbD_cwp, getLsbD_cwp, getLsbD_writeIcc]
  by_cases low : i < 5
  · rw [if_neg (by omega), if_neg (by omega), if_neg (by omega), if_neg (by omega)]
  · rw [decide_eq_false low, Bool.false_and, Bool.false_and]

end PSR

end Socrocket.Leon3
