/- Socrocket/Irqmp/ForceShadow
   digest: The shadows of the force registers mirror them as long as line zero is not broadcast. -/

import Socrocket.Irqmp.Broadcast

set_option autoImplicit false
set_option relaxedAutoImplicit false

namespace Socrocket.Irqmp

open Socrocket.Core.SrRegister
open Socrocket.Base.Run

variable {g : Generics} {s : Registers g.ncpu}

/-- Only bits of the force field are set. -/
def InForceField (r : BitVec 32) : Prop := r &&& ~~~PROC_IR_FORCE_IF = 0

theorem inForceField_iff {r : BitVec 32} :
    InForceField r ↔ ∀ i, bitGet r i = true → 0 < i ∧ i < 16 := by
  have outside (i : ℕ) : bitGet (r &&& ~~~PROC_IR_FORCE_IF) i =
      (bitGet r i && !(decide (0 < i) && decide (i < 16))) := by
    by_cases lt : i < 32
    · rw [bitGet_and, bitGet_not _ lt, bitGet_forceMask]
    · have clear : bitGet r i = false := BitVec.getLsbD_of_ge r i (by omega)
      rw [bitGet_and, clear, Bool.false_and, Bool.false_and]
  constructor
  · intro inside i set
    have bit := outside i
    rw [show r &&& ~~~PROC_IR_FORCE_IF = 0 from inside, set] at bit
    have zero : bitGet 0 i = false := BitVec.getLsbD_zero
    rw [zero] at bit
    simpa using bit
  · intro bits
    refine BitVec.eq_of_getLsbD_eq fun i _ => ?_
    change bitGet _ i = bitGet 0 i
    have zero : bitGet 0 i = false := BitVec.getLsbD_zero
    rw [outside, zero]
    cases set : bitGet r i with
    | false => rfl
    | true => simp [bits i set]

/-- The shadow of every force register mirrors it inside the force field, and a write to the force
register of a processor sets and clears bits of that register only. -/
structure ForceShadow (s : Registers g.ncpu) : Prop where
  mirrored : ∀ cpu, s.forcereg cpu = s.procForce cpu
  inside : ∀ cpu, InForceField (s.procForce cpu)
  written : ∀ cpu w, (step g s (.writeProcForce cpu w)).procForce cpu =
    (s.procForce cpu ||| (w &&& PROC_IR_FORCE_IF)) &&& ~~~(w >>> 16)
  others : ∀ cpu w c, c ≠ cpu →
    (step g s (.writeProcForce cpu w)).procForce c = s.procForce c

/-- Line zero is not raised while the broadcast bit above it is set. -/
def LineZeroDirect (s : Registers g.ncpu) : Op g.ncpu → Prop
  | .incommingIrq irq => ¬ (irq.2 = true ∧ bitGet irq.1 0 = true ∧ bitGet s.broadcast 1 = true)
  | _ => True

theorem procForce_writeProcForce (s : Registers g.ncpu) (cpu : Fin g.ncpu) (w : BitVec 32)
    (c : Fin g.ncpu) : (step g s (.writeProcForce cpu w)).procForce c =
      mergeForce (s.forcereg c)
        (if c = cpu then busWrite (PROC_IR_FORCE_IFC ||| PROC_IR_FORCE_IF) w else s.procForce c) := by
  refine ((merged_forceWrite _).procForce c |>.1 trivial).trans ?_
  dsimp only
  rw [Function.update_apply]

private theorem ext_bits {a b : BitVec 32} (same : ∀ i < 32, bitGet a i = bitGet b i) : a = b :=
  BitVec.eq_of_getLsbD_eq fun i lt => same i lt

theorem mergeForce_self {r : BitVec 32} (inside : InForceField r) : mergeForce r r = r := by
  have field := inForceField_iff.mp inside
  refine ext_bits fun i _ => ?_
  have upper : bitGet r (i + 16) = false := by
    refine Bool.eq_false_iff.mpr fun set => ?_
    have := field _ set
    omega
  rw [bitGet_mergeForce, upper]
  cases set : bitGet r i with
  | false => rfl
  | true => simp [field i set]

theorem mergeForce_busWrite {r : BitVec 32} (inside : InForceField r) (w : BitVec 32) :
    mergeForce r (busWrite (PROC_IR_FORCE_IFC ||| PROC_IR_FORCE_IF) w) =
      (r ||| (w &&& PROC_IR_FORCE_IF)) &&& ~~~(w >>> 16) := by
  have field := inForceField_iff.mp inside
  refine ext_bits fun i lt => ?_
  have upper : bitGet r (i + 16) = false := by
    refine Bool.eq_false_iff.mpr fun set => ?_
    have := field _ set
    omega
  have shifted : bitGet (w >>> 16) i = bitGet w (i + 16) := by
    unfold bitGet
    rw [BitVec.getLsbD_ushiftRight, Nat.add_comm]
  have field_bit : bitGet PROC_IR_FORCE_IF i = (decide (0 < i) && decide (i < 16)) := bitGet_forceMask i
  have lower : 0 < i ∧ i < 16 → bitGet (PROC_IR_FORCE_IFC ||| PROC_IR_FORCE_IF) i = true := by
    intro regular
    rw [bitGet_or, field_bit]
    simp [regular]
  have clearing : 0 < i ∧ i < 16 →
      bitGet (PROC_IR_FORCE_IFC ||| PROC_IR_FORCE_IF) (i + 16) = true := by
    intro regular
    exact bitGet_writableForce regular.1 regular.2
  generalize PROC_IR_FORCE_IFC ||| PROC_IR_FORCE_IF = mask at lower clearing
  rw [bitGet_mergeForce, upper, Bool.false_or, busWrite, bitGet_and, bitGet_and, bitGet_and,
    bitGet_not _ lt, shifted, bitGet_or, bitGet_and, field_bit]
  by_cases regular : 0 < i ∧ i < 16
  · rw [lower regular, clearing regular]
    simp [regular]
  · have outside : bitGet r i = false := by
      refine Bool.eq_false_iff.mpr fun set => regular (field i set)
    have none : (decide (0 < i) && decide (i < 16)) = false := by
      simpa using regular
    rw [outside, none]
    simp

theorem forceShadow_of_mirrored (mirrored : ∀ cpu, s.forcereg cpu = s.procForce cpu)
    (inside : ∀ cpu, InForceField (s.procForce cpu)) : ForceShadow s where
  mirrored := mirrored
  inside := inside
  written cpu w := by
    rw [procForce_writeProcForce, if_pos rfl, mirrored, mergeForce_busWrite (inside cpu)]
  others cpu w c ne := by
    rw [procForce_writeProcForce, if_neg ne, mirrored, mergeForce_self (inside c)]

theorem forceShadow_init : ForceShadow (initRegisters g) :=
  forceShadow_of_mirrored (fun _ => rfl) fun _ => BitVec.zero_and

/-- The operations keep the shadows, but for a raise of line zero that is broadcast. -/
theorem forceShadow_step (op : Op g.ncpu) (shadow : ForceShadow s) :
    ForceShadow (step g s op) ↔ LineZeroDirect s op := by
  constructor
  · intro after
    cases op with
    | incommingIrq irq =>
      rintro ⟨rising, zero, cast⟩
      obtain ⟨vector, edge⟩ := irq
      obtain rfl : edge = true := rising
      have forced : bitGet ((step g s (.incommingIrq (vector, true))).procForce (firstCpu g)) 0 =
          true :=
        ((raised_incommingIrq s vector).procForce _ 0 (by decide)).mpr (.inr ⟨zero, by decide, cast⟩)
      have := inForceField_iff.mp (after.inside (firstCpu g)) 0 forced
      omega
    | _ => trivial
  · intro direct
    have both (cpu : Fin g.ncpu) : (step g s op).forcereg cpu = (step g s op).procForce cpu ∧
        InForceField ((step g s op).procForce cpu) := by
      have mirrored := shadow.mirrored cpu
      have field := inForceField_iff.mp (shadow.inside cpu)
      cases force_step s op cpu with
      | kept procForce forcereg =>
        rw [procForce, forcereg]
        exact ⟨mirrored, shadow.inside cpu⟩
      | reset procForce forcereg =>
        rw [procForce, forcereg]
        exact ⟨rfl, BitVec.zero_and⟩
      | @raised irq raised =>
        constructor
        · refine ext_bits fun i lt => Bool.eq_iff_iff.mpr ?_
          rw [raised.forcereg cpu i lt, raised.procForce cpu i lt, mirrored]
        · refine inForceField_iff.mpr fun i set => ?_
          by_cases lt : i < 32
          · rcases (raised.procForce cpu i lt).mp set with old | ⟨hit, low, cast⟩
            · exact field i old
            · refine ⟨Nat.pos_of_ne_zero fun zero => ?_, low⟩
              subst zero
              exact direct ⟨rfl, hit, cast⟩
          · have clear : bitGet ((step g s (.incommingIrq (irq, true))).procForce cpu) i = false :=
              BitVec.getLsbD_of_ge _ i (by omega)
            rw [clear] at set
            cases set
      | @acknowledged irq procForce forcereg =>
        rw [procForce, forcereg, mirrored]
        constructor
        · refine ext_bits fun i lt => ?_
          rw [bitGet_bitSet, ← BitVec.and_assoc, bitGet_and, bitGet_and_not_shift]
          have mask : bitGet (0xFFFE : BitVec 32) i = (decide (0 < i) && decide (i < 16)) :=
            bitGet_forceMask i
          rw [mask]
          by_cases same : i = irq.val
          · simp [same]
          · cases set : bitGet (s.procForce cpu) i with
            | false => simp [same]
            | true => simp [same, field i set]
        · refine inForceField_iff.mpr fun i set => ?_
          rw [bitGet_bitSet] at set
          split_ifs at set
          exact field i set
      | merged _ _ procForce forcereg =>
        rw [procForce, forcereg]
        refine ⟨rfl, inForceField_iff.mpr fun i set => ?_⟩
        rw [bitGet_mergeForce] at set
        simpa using (Bool.and_eq_true_iff.mp set).2
    exact forceShadow_of_mirrored (fun cpu => (both cpu).1) fun cpu => (both cpu).2

/-- The force register shadows: they hold in every state of a run exactly when no step of it raises
line zero while the broadcast bit of line one is set. -/
theorem force_shadow_iff (g : Generics) (ops : List (Op g.ncpu)) :
    (∀ before after s, ops = before ++ after →
        run (irqStep g) (initRegisters g) before = some s → ForceShadow s) ↔
      Along (irqStep g) LineZeroDirect (initRegisters g) ops := by
  have total : ∀ ops (s : Registers g.ncpu), ∃ t, run (irqStep g) s ops = some t := by
    intro ops
    induction ops with
    | nil => exact fun s => ⟨s, rfl⟩
    | cons op ops ih => exact fun s => ih (step g s op)
  obtain ⟨t, reached⟩ := total ops (initRegisters g)
  refine throughout_iff (fun s op t shadow next => ?_) forceShadow_init reached
  rw [irqStep, Option.some.injEq] at next
  exact next ▸ forceShadow_step op shadow

/-- Line zero raised while line one is set to broadcast leaves a bit outside the force field, and the
acknowledge of line two parts the register from its shadow. -/
theorem line_zero_forced :
    ∃ s t : Registers oneCpu.ncpu,
      run (irqStep oneCpu) (initRegisters oneCpu) [.writeBroadcast 0x2, .incommingIrq (0x1, true)] =
        some s ∧ ¬ InForceField (s.procForce (firstCpu oneCpu)) ∧
      irqStep oneCpu s (.acknowledgedIrq 2 (firstCpu oneCpu)) = some t ∧
      t.forcereg (firstCpu oneCpu) ≠ t.procForce (firstCpu oneCpu) := by
  refine ⟨_, _, rfl, ?_, rfl, ?_⟩
  · unfold InForceField
    decide
  · decide

end Socrocket.Irqmp
