/- Socrocket/Leon3/InterruptService
   digest: The most urgent interrupt that is active for a processor is taken in its next pass. -/

import Socrocket.Leon3.Multiprocessor

set_option autoImplicit false
set_option relaxedAutoImplicit false

namespace Socrocket.Leon3

open Base Socrocket.Core Irqmp

namespace Multiprocessor

variable {g : Generics} {σ : Type}

/-- The lines that a launch pass finds active for a processor. -/
def Found (irqmp : Registers g.ncpu) (i : Fin g.ncpu) : Set ℕ :=
  Irqmp.Active { irqmp with pending := seenPending irqmp i } i

variable {bus : Fin g.ncpu → MemoryInterface σ} {config : Fin g.ncpu → Config}
    {s t : Multiprocessor g σ}

/-- After a launch pass the line of every processor shows the most urgent of the lines that were
active for it. -/
theorem irq_launched (coherent : Coherent s) {i : Fin g.ncpu} {n : ℕ}
    (selected : Priority.IsSelected (LevelOne s.irqmp.level) (Found s.irqmp i) n)
    (next : step bus config s (.controller .launchIrq) = some t) :
    (t.cpu i).IRQ = BitVec.ofNat 32 n ∧ (t.cpu i).cpu = (s.cpu i).cpu ∧
    (t.cpu i).running = (s.cpu i).running := by
  obtain ⟨-, rfl⟩ := step_controller.mp next
  have request : ((launchIrq g s.irqmp).irqReq i).line = BitVec.ofNat 32 n ∧
      ((launchIrq g s.irqmp).irqReq i).raised = true := by
    obtain ⟨m, other, line, raised⟩ | ⟨empty, -⟩ := requests_launchIrq s.irqmp i
    · exact ⟨line.trans (congrArg _ (other.unique selected)), raised⟩
    · have none : Found s.irqmp i = ∅ := empty
      exact absurd selected.mem (none ▸ Set.notMem_empty n)
  have shows : shown ((launchIrq g s.irqmp).irqReq i) = BitVec.ofNat 32 n := by
    rw [shown, if_pos request.2, request.1]
  refine ⟨?_, (cpu_deliver _ _ i).1, ?_⟩
  · rw [irq_deliver]
    split
    case isTrue same =>
      have kept : (launchIrq g s.irqmp).irqReq i = s.irqmp.irqReq i := same
      rw [← shows, kept]
      exact coherent i
    case isFalse => exact shows
  · unfold deliver
    dsimp only
    split <;> rfl

/-- An interrupt that a processor accepts is taken in its next pass, and its line is no longer
pending then. -/
theorem accepted_taken (synchronous : ∀ i, Synchronous (bus i)) (calm : Calm s) {i : Fin g.ncpu} {n : ℕ}
    (small : 0 < n ∧ n < 16) (line : (s.cpu i).IRQ = BitVec.ofNat 32 n)
    (begun : (s.cpu i).running = true)
    (accepts : Accepts (s.cpu i).IRQ (s.cpu i).cpu.PSR) :
    ∃ t, step bus config s (.processor i .pass) = some t ∧
      (t.cpu i).cpu = ((s.cpu i).cpu.setCycles 0).enterTrap (s.cpu i).cpu.PC (s.cpu i).cpu.NPC
        (38 - BitVec.ofNat 32 n) 0 ∧ SrRegister.bitGet t.irqmp.pending n = false := by
  have number : (BitVec.ofNat 32 n).toNat = n := by
    rw [BitVec.toNat_ofNat]
    omega
  have moved : (s.cpu i).step (bus i) (config i) .pass = some { s.cpu i with
      cpu := ((s.cpu i).cpu.setCycles 0).enterTrap (s.cpu i).cpu.PC (s.cpu i).cpu.NPC
        (38 - (s.cpu i).IRQ) 0
      running := false } :=
    Simulation.step_pass.mpr ⟨begun, _, passResult_interrupted accepts, rfl⟩
  obtain ⟨t, passed⟩ : ∃ t, step bus config s (.processor i .pass) = some t :=
    ⟨_, step_processor.mpr ⟨nofun, _, moved, rfl⟩⟩
  refine ⟨t, passed, ?_⟩
  obtain ⟨-, -, cpu, moved', rfl⟩ := of_step_processor synchronous calm passed
  have taken : cpu.cpu = ((s.cpu i).cpu.setCycles 0).enterTrap (s.cpu i).cpu.PC (s.cpu i).cpu.NPC
      (38 - BitVec.ofNat 32 n) 0 := by
    rw [moved, Option.some.injEq] at moved'
    rw [← moved', ← line]
  constructor
  · rw [(cpu_deliver _ _ i).1]
    dsimp only
    rw [Function.update_self, taken]
  · have level : IsLevel (s.cpu i).IRQ := by
      rw [line]
      constructor <;> rw [BitVec.lt_def, number] <;> simp <;> omega
    have acks : acknowledged (s.cpu i) .pass = [BitVec.ofNat 32 n] := by
      rw [acknowledged, if_pos ⟨accepts, level⟩, line]
    rw [acks]
    refine Bool.eq_false_iff.mpr fun pending =>
      not_live_acknowledged (by omega : n < 32) s.irqmp i (.inl ?_)
    rw [← pending]
    show _ = SrRegister.bitGet (acknowledgedIrq g s.irqmp
      (Fin.ofNat 32 (BitVec.ofNat 32 n).toNat) i).pending n
    rw [number]

/-- Interrupts are taken in the order of their urgency: the most urgent line that a launch pass
finds active for a processor is taken in the next pass of that processor, if traps are enabled and
its level lets the line through. The line is no longer pending then. -/
theorem most_urgent_taken (synchronous : ∀ i, Synchronous (bus i)) (coherent : Coherent s)
    (calm : Calm s)
    {i : Fin g.ncpu} {n : ℕ} (selected :
      Priority.IsSelected (LevelOne s.irqmp.level) (Found s.irqmp i) n)
    (begun : (s.cpu i).running = true) (enabled : PSR.et (s.cpu i).cpu.PSR ≠ 0)
    (above : n = 15 ∨ PSR.pil (s.cpu i).cpu.PSR < BitVec.ofNat 32 n) :
    ∃ t, Run.run (step bus config) s [.controller .launchIrq, .processor i .pass] = some t ∧
      (t.cpu i).cpu = ((s.cpu i).cpu.setCycles 0).enterTrap (s.cpu i).cpu.PC (s.cpu i).cpu.NPC
        (38 - BitVec.ofNat 32 n) 0 ∧ SrRegister.bitGet t.irqmp.pending n = false := by
  obtain ⟨u, launched⟩ : ∃ u, step bus config s (.controller .launchIrq) = some u := ⟨_, rfl⟩
  obtain ⟨line, same, running⟩ := irq_launched coherent selected launched
  have small : 0 < n ∧ n < 16 := selected.mem.1
  have accepts : Accepts (u.cpu i).IRQ (u.cpu i).cpu.PSR := by
    rw [line, same]
    refine ⟨fun ones => ?_, enabled, above.imp_left (congrArg _)⟩
    have large := congrArg BitVec.toNat ones
    rw [BitVec.toNat_ofNat] at large
    have value : (0xffffffff : BitVec 32).toNat = 4294967295 := rfl
    omega
  obtain ⟨t, passed, taken, cleared⟩ :=
    accepted_taken synchronous (calm_step synchronous calm launched) small line
    (running.trans begun) accepts
  refine ⟨t, ?_, same ▸ taken, cleared⟩
  rw [Run.run_cons, launched, Option.bind_some, Run.run_cons, passed]
  rfl

/-- Two processors with their traps enabled, and line 3 pending for both. -/
def threePending : Multiprocessor twoCpus Unit where
  irqmp := { initRegisters twoCpus with pending := 0x8, procMask := fun _ => 0x8 }
  cpu _ :=
    let s := Simulation.initial ⟨0, 0⟩ ()
    { s with cpu := s.cpu.setPsr 0xf30000a0, running := true }

theorem found_three :
    Priority.IsSelected (LevelOne threePending.irqmp.level)
      (Found threePending.irqmp (firstCpu twoCpus)) 3 := by
  refine .inr ⟨fun n _ one => Bool.false_ne_true (BitVec.getLsbD_zero.symm.trans one), ?_, ?_⟩
  · exact ⟨by decide, .inl ⟨.inl (by decide), by decide⟩⟩
  · rintro n ⟨⟨-, below⟩, ⟨-, mask⟩ | forced | ⟨cascade, -⟩⟩
    · have only : ∀ n : Fin 16, SrRegister.bitGet 0x8 n.val = true → n.val ≤ 3 := by decide
      exact only ⟨n, below⟩ mask
    · exact absurd (BitVec.getLsbD_zero.symm.trans forced) Bool.false_ne_true
    · exact cascade.trans_le (Nat.zero_le 3)

theorem most_urgent_taken_three : ∃ t,
    Run.run (step (fun _ => enabling) fun _ => ⟨0, 0⟩) threePending
        [.controller .launchIrq, .processor (firstCpu twoCpus) .pass] = some t ∧
      (t.cpu (firstCpu twoCpus)).cpu =
        ((threePending.cpu (firstCpu twoCpus)).cpu.setCycles 0).enterTrap 0 4
        (38 - BitVec.ofNat 32 3) 0 ∧
      SrRegister.bitGet t.irqmp.pending 3 = false :=
  most_urgent_taken (fun _ => synchronous_rom _) (fun _ => rfl) (fun _ => (by decide : ¬ IsInterrupt 0))
    found_three rfl (by decide) (.inr (by decide))

end Multiprocessor

end Socrocket.Leon3
