/- Socrocket/Irqmp/Delivery
   digest: Pending and broadcast interrupts over whole runs of the controller. -/

import Socrocket.Base.Run
import Socrocket.Irqmp.Operations

set_option autoImplicit false
set_option relaxedAutoImplicit false

namespace Socrocket.Irqmp

open Socrocket.Core.SrRegister
open Socrocket.Base.Run

variable {g : Generics}

/-- The controller as a step function that is always enabled. -/
def irqStep (g : Generics) (s : Registers g.ncpu) (op : Op g.ncpu) : Option (Registers g.ncpu) :=
  some (step g s op)

/-- The processor served last in a launch pass. -/
def firstCpu (g : Generics) : Fin g.ncpu := ⟨0, g.ncpu_range.1⟩

/-- A launch pass leaves the cascade bit of the first processor. -/
theorem launchIrq_registers (s : Registers g.ncpu) :
    SameInputs s (launchIrq g s) ∧ (launchIrq g s).pending =
      if g.eirq ≠ 0 then bitSet s.pending g.eirq (eirqEn g s (firstCpu g)) else s.pending := by
  obtain ⟨same, pending⟩ := launch_fold s (List.finRange g.ncpu)
  refine ⟨same, ?_⟩
  have pos : 0 < (List.finRange g.ncpu).length := by
    rw [List.length_finRange]
    exact g.ncpu_range.1
  have head : List.finRange g.ncpu = firstCpu g :: (List.finRange g.ncpu).drop 1 := by
    have split := List.drop_eq_getElem_cons pos
    rw [List.drop_zero, List.getElem_finRange] at split
    exact split
  rw [launchIrq, pending, head]

/-- Every step except a write of an identification register. -/
def Observed {ncpu : ℕ} : Op ncpu → Prop
  | .writeExtirId _ _ => False
  | _ => True

theorem noneIdentified_step (s : Registers g.ncpu) (op : Op g.ncpu) (none : NoneIdentified s)
    (observed : Observed op) : NoneIdentified (step g s op) := by
  intro cpu
  cases op with
  | reset => rfl
  | incommingIrq irq =>
    obtain ⟨vector, rising⟩ := irq
    cases rising with
    | false => exact none cpu
    | true =>
      change (incommingIrq g s (vector, true)).extirId cpu = 0
      rw [(raised_incommingIrq s vector).extirId]
      exact none cpu
  | launchIrq =>
    change (launchIrq g s).extirId cpu = 0
    rw [(launchIrq_registers s).1.extirId]
    exact none cpu
  | acknowledgedIrq irq c =>
    change Function.update (dropIdentified g s c).extirId c 0 cpu = 0
    rw [dropIdentified_of_none none]
    by_cases eq : cpu = c
    · rw [eq, Function.update_self]
    · rw [Function.update_of_ne eq]
      exact none cpu
  | writeLevel v => exact none cpu
  | writePending v => exact none cpu
  | writeForce v => exact none cpu
  | writeClear v =>
    have none' : NoneIdentified { s with clear := busWrite IR_CLEAR_IC v } := none
    obtain ⟨req, cleared⟩ := clearWrite_of_none none'
    change (clearWrite g { s with clear := busWrite IR_CLEAR_IC v }).extirId cpu = 0
    rw [cleared]
    exact none cpu
  | writeBroadcast v => exact none cpu
  | writeProcMask c v => exact none cpu
  | writeProcForce c v =>
    change (forceWrite g _).extirId cpu = 0
    rw [(merged_forceWrite _).extirId]
    exact none cpu
  | writeExtirId c v => exact observed.elim

section Pending

/-- The steps that take a line out of the pending register: a reset, its acknowledge, its bit in the
clear register, and a write of the pending register. -/
def TakesPending {ncpu : ℕ} (n : ℕ) : Op ncpu → Prop
  | .reset => True
  | .acknowledgedIrq irq _ => irq.val = n
  | .writePending _ => True
  | .writeClear v => bitGet v n = true
  | _ => False

/-- A raised line that is not broadcast does not have the broadcast bit above it set, and a launch
pass that finds the cascade pending finds an extended line pending for the first processor. -/
def PendingKept (n : ℕ) (s : Registers g.ncpu) : Op g.ncpu → Prop
  | .incommingIrq irq => irq.2 = true → bitGet irq.1 n = true → bitGet s.broadcast n = false →
      bitGet s.broadcast (n + 1) = false
  | .launchIrq => n = g.eirq → bitGet s.pending n = true → ExtendedPending s (firstCpu g)
  | _ => True

theorem pending_step {n : ℕ} (pos : 0 < n) (lt : n < 32) (s : Registers g.ncpu) (op : Op g.ncpu)
    (none : NoneIdentified s) (pending : bitGet s.pending n = true) (observed : Observed op)
    (unserved : ¬ TakesPending n op) (kept : PendingKept n s op) :
    bitGet (step g s op).pending n = true := by
  cases op with
  | reset => exact absurd trivial unserved
  | incommingIrq irq =>
    obtain ⟨vector, rising⟩ := irq
    cases rising with
    | false => exact pending
    | true => exact ((raised_incommingIrq s vector).pending n lt).mpr (.inl pending)
  | launchIrq =>
    obtain ⟨same, written⟩ := launchIrq_registers s
    change bitGet (launchIrq g s).pending n = true
    by_cases cascade : n = g.eirq
    · have extended := kept cascade pending
      rw [written, if_pos (by omega), bitGet_bitSet, if_pos ⟨cascade, lt⟩, eirqEn_iff]
      exact ⟨by omega, extended⟩
    · rw [same.pending n cascade]
      exact pending
  | acknowledgedIrq irq c =>
    change bitGet (bitSet (dropIdentified g s c).pending irq false) n = true
    rw [dropIdentified_of_none none, bitGet_bitSet_ne fun eq => unserved eq.symm]
    exact pending
  | writeLevel v => exact pending
  | writePending v => exact absurd trivial unserved
  | writeForce v => exact pending
  | writeClear v =>
    have none' : NoneIdentified { s with clear := busWrite IR_CLEAR_IC v } := none
    obtain ⟨req, cleared⟩ := clearWrite_of_none none'
    change bitGet (clearWrite g { s with clear := busWrite IR_CLEAR_IC v }).pending n = true
    have clear : bitGet v n = false := by simpa [TakesPending] using unserved
    rw [cleared]
    dsimp only
    rw [bitGet_and, bitGet_not _ lt, busWrite, bitGet_and, clear, pending]
    rfl
  | writeBroadcast v => exact pending
  | writeProcMask c v => exact pending
  | writeProcForce c v =>
    have none' (f : Fin g.ncpu → BitVec 32) : NoneIdentified { s with procForce := f } := none
    change bitGet (forceWrite g _).pending n = true
    rw [(merged_forceWrite _).pending (none' _)]
    exact pending
  | writeExtirId c v => exact observed.elim

private theorem noneIdentified_run {s t : Registers g.ncpu} {ops : List (Op g.ncpu)}
    (none : NoneIdentified s) (observed : ∀ op ∈ ops, Observed op)
    (reached : run (irqStep g) s ops = some t) : NoneIdentified t := by
  refine run_preserves (fun s op t none observed next => ?_) none
    (along_of_forall s observed) reached
  rw [irqStep, Option.some.injEq] at next
  exact next ▸ noneIdentified_step s op none observed

/-- No interrupt is lost: after a line that is not broadcast was raised in a reachable state, its
pending bit stays set along every run that does not serve it, when the steps of that run meet
`PendingKept`. -/
theorem pending_until_served {n : ℕ} (pos : 0 < n) (lt : n < 32) {before after : List (Op g.ncpu)}
    {irq : BitVec 32} {s t : Registers g.ncpu} (observed : ∀ op ∈ before ++ after, Observed op)
    (reached : run (irqStep g) (initRegisters g) before = some s) (hit : bitGet irq n = true)
    (direct : bitGet s.broadcast n = false) (unserved : ∀ op ∈ after, ¬ TakesPending n op)
    (kept : Along (irqStep g) (PendingKept n) s (.incommingIrq (irq, true) :: after))
    (later : run (irqStep g) s (.incommingIrq (irq, true) :: after) = some t) :
    bitGet t.pending n = true := by
  have none : NoneIdentified s := noneIdentified_run (fun _ => rfl)
    (fun op member => observed op (List.mem_append_left _ member)) reached
  have none' := noneIdentified_step s (.incommingIrq (irq, true)) none trivial
  have raised : bitGet (step g s (.incommingIrq (irq, true))).pending n = true :=
    ((raised_incommingIrq s irq).pending n lt).mpr (.inr ⟨hit, kept.1 rfl hit direct⟩)
  have rest := kept.2 _ rfl
  rw [run_cons, irqStep, Option.bind_some] at later
  generalize step g s (.incommingIrq (irq, true)) = u at none' raised rest later
  have each : ∀ op ∈ after, Observed op ∧ ¬ TakesPending n op := fun op member =>
    ⟨observed op (List.mem_append_right _ member), unserved op member⟩
  have final := run_preserves (P := fun s => NoneIdentified s ∧ bitGet s.pending n = true)
    (fun s op t inv ok next => by
      rw [irqStep, Option.some.injEq] at next
      subst next
      exact ⟨noneIdentified_step s op inv.1 ok.1.1,
        pending_step pos lt s op inv.1 inv.2 ok.1.1 ok.1.2 ok.2⟩)
    ⟨none', raised⟩ ((along_of_forall u each).and rest) later
  exact final.2

/-- One processor, extended lines cascaded on line 2. -/
def oneCpu : Generics := ⟨1, 2, by omega, by omega⟩

/-- Line 3 raised, served by nobody through a launch pass and an acknowledge of line 4. -/
theorem pending_until_served_three :
    ∃ t, run (irqStep oneCpu) (initRegisters oneCpu)
        [.incommingIrq (0x8, true), .launchIrq, .acknowledgedIrq 4 (firstCpu oneCpu)] = some t ∧
      bitGet t.pending 3 = true := by
  refine ⟨_, rfl, ?_⟩
  have start : run (irqStep oneCpu) (initRegisters oneCpu) [] = some (initRegisters oneCpu) := rfl
  refine @pending_until_served oneCpu 3 (by decide) (by decide) []
    [.launchIrq, .acknowledgedIrq 4 (firstCpu oneCpu)] 0x8 _ _ ?_ start (by decide)
    (by decide) ?_ ?_ rfl
  · intro op member
    simp only [List.nil_append, List.mem_cons, List.not_mem_nil, or_false] at member
    rcases member with rfl | rfl <;> trivial
  · intro op member
    simp only [List.mem_cons, List.not_mem_nil, or_false] at member
    rcases member with rfl | rfl
    · exact not_false
    · exact fun eq => absurd (show (4 : Fin 32).val = 3 from eq) (by decide)
  · exact ⟨fun _ _ _ => by decide, fun s _ => ⟨fun eq => absurd eq (by decide), fun t _ =>
      ⟨trivial, fun u _ => trivial⟩⟩⟩

/-- The launch pass after line 2 was raised drops it: no extended line is pending behind it. -/
theorem pending_lost :
    ¬ ∀ (after : List (Op oneCpu.ncpu)) (t : Registers oneCpu.ncpu),
      (∀ op ∈ after, Observed op ∧ ¬ TakesPending 2 op) →
      run (irqStep oneCpu) (initRegisters oneCpu) (.incommingIrq (0x4, true) :: after) = some t →
      bitGet t.pending 2 = true := by
  intro claim
  have kept := claim [.launchIrq] _ (fun op member => by
    rw [List.mem_singleton] at member
    subst member
    exact ⟨trivial, not_false⟩) rfl
  exact absurd kept (by decide)

end Pending

end Socrocket.Irqmp
