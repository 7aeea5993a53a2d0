/- Socrocket/Leon3/Interrupts
   digest: The interrupts that a processor takes and acknowledges. -/

import Socrocket.Leon3.Traps

set_option autoImplicit false
set_option relaxedAutoImplicit false

namespace Socrocket.Leon3

open Base Relation ExceptionId

variable {σ : Type}

/-! ## Exceptions and interrupts -/

/-- The exceptions that stand for interrupts. -/
def IsInterrupt (id : BitVec 32) : Prop := trapInstruction < id ∧ id < implDepExc

instance (id : BitVec 32) : Decidable (IsInterrupt id) := inferInstanceAs (Decidable (_ ∧ _))

/-- A memory that triggers no interrupts. -/
structure Synchronous (bus : MemoryInterface σ) : Prop where
  fetch : ∀ address asi m e, (bus.readInstr address asi 0 m).exception = some e → ¬ IsInterrupt e
  access : ∀ (r : Request) m e, (r.on bus m).exception = some e → ¬ IsInterrupt e

/-- The levels are those from 1 to 15. -/
def IsLevel (IRQ : BitVec 32) : Prop := 0 < IRQ ∧ IRQ < 16

instance (IRQ : BitVec 32) : Decidable (IsLevel IRQ) := inferInstanceAs (Decidable (_ ∧ _))

theorem isInterrupt_iff (IRQ : BitVec 32) : IsInterrupt (38 - IRQ) ↔ IsLevel IRQ := by
  unfold IsInterrupt IsLevel trapInstruction implDepExc
  bv_omega

theorem acknowledged_level (IRQ : BitVec 32) : implDepExc - (38 - IRQ) = IRQ := by
  unfold implDepExc
  bv_omega

/-! ## What the steps acknowledge -/

namespace Processor

variable (s : Processor σ)

theorem irqAck_store (c : Cell) (v : BitVec 32) : (s.store c v).irqAck = s.irqAck := by
  cases c with
  | global k =>
    unfold store
    dsimp only
    split <;> rfl
  | window k => rfl

theorem raised_store (c : Cell) (v : BitVec 32) :
    (s.store c v).raisedException = s.raisedException := by
  cases c with
  | global k =>
    unfold store
    dsimp only
    split <;> rfl
  | window k => rfl

/-- A trap acknowledges its level if it is an interrupt, and nothing else. -/
theorem irqAck_enterTrap (pc npc id offset : BitVec 32) : (s.enterTrap pc npc id offset).irqAck =
    s.irqAck ++ if IsInterrupt id then [implDepExc - id] else [] := by
  have vector (s : Processor σ) (id : BitVec 32) : (s.vector id).irqAck = s.irqAck := by
    unfold vector
    split <;> rfl
  have setTrapType (s : Processor σ) (tt : Option (BitVec 32)) :
      (s.setTrapType tt).irqAck = s.irqAck := by
    cases tt <;> rfl
  have acknowledge (s : Processor σ) (id : BitVec 32) : (s.acknowledge id).irqAck =
      s.irqAck ++ if IsInterrupt id then [implDepExc - id] else [] := by
    unfold acknowledge
    by_cases interrupt : trapInstruction < id ∧ id < implDepExc
    · have named : IsInterrupt id := interrupt
      rw [if_pos interrupt, if_pos named]
    · have other : ¬ IsInterrupt id := interrupt
      rw [if_neg interrupt, if_neg other, List.append_nil]
  unfold enterTrap
  dsimp only
  rw [acknowledge, vector, setTrapType, setReg, irqAck_store, setReg, irqAck_store]
  rfl

theorem raised_enterTrap (pc npc id offset : BitVec 32) :
    (s.enterTrap pc npc id offset).raisedException = s.raisedException := by
  have vector (s : Processor σ) (id : BitVec 32) :
      (s.vector id).raisedException = s.raisedException := by
    unfold vector
    split <;> rfl
  have setTrapType (s : Processor σ) (tt : Option (BitVec 32)) :
      (s.setTrapType tt).raisedException = s.raisedException := by
    cases tt <;> rfl
  have acknowledge (s : Processor σ) (id : BitVec 32) :
      (s.acknowledge id).raisedException = s.raisedException := by
    unfold acknowledge
    split <;> rfl
  unfold enterTrap
  dsimp only
  rw [acknowledge, vector, setTrapType, setReg, raised_store, setReg, raised_store]
  rfl

end Processor

/-- Nothing has been acknowledged from `s` to `t`, and no interrupt has become pending as an
exception. -/
structure Unacknowledged (s t : Processor σ) : Prop where
  irqAck : t.irqAck = s.irqAck
  raised : ¬ IsInterrupt s.raisedException → ¬ IsInterrupt t.raisedException

namespace Unacknowledged

variable {s t u : Processor σ}

theorem refl (s : Processor σ) : Unacknowledged s s := ⟨rfl, id⟩

theorem trans (h : Unacknowledged s t) (h' : Unacknowledged t u) : Unacknowledged s u :=
  ⟨h'.irqAck.trans h.irqAck, h'.raised ∘ h.raised⟩

theorem settle {α : Type} {reply : Reply σ α} (none : ∀ e, reply.exception = some e → ¬ IsInterrupt e) :
    Unacknowledged s (s.settle reply) := by
  unfold Processor.settle
  split
  · exact ⟨rfl, id⟩
  · rename_i e triggered
    exact ⟨rfl, fun _ => none e triggered⟩

variable {bus : MemoryInterface σ}

theorem active (synchronous : Synchronous bus) (h : Active bus s t) : Unacknowledged s t := by
  cases h with
  | quiet step =>
    cases step with
    | cycles => exact ⟨rfl, id⟩
    | advance => exact ⟨rfl, id⟩
    | access r => exact settle (synchronous.access r _)
  | register i v => exact ⟨s.irqAck_store .., fun none => (s.raised_store ..).symm ▸ none⟩
  | y => exact ⟨rfl, id⟩
  | asr => exact ⟨rfl, id⟩
  | icc => exact ⟨rfl, id⟩
  | transfer => exact ⟨rfl, id⟩
  | move => exact ⟨rfl, id⟩
  | returned => exact ⟨rfl, id⟩
  | psr => exact ⟨rfl, id⟩
  | wim => exact ⟨rfl, id⟩
  | tbr => exact ⟨rfl, id⟩

theorem actively (synchronous : Synchronous bus) (h : Actively bus s t) : Unacknowledged s t := by
  induction h with
  | refl => exact refl s
  | tail _ step ih => exact ih.trans (active synchronous step)

theorem enterTrap (pc npc : BitVec 32) {id : BitVec 32} (offset : BitVec 32)
    (other : ¬ IsInterrupt id) :
    Unacknowledged s (s.enterTrap pc npc id offset) := by
  refine ⟨?_, fun none => ?_⟩
  · rw [Processor.irqAck_enterTrap, if_neg other, List.append_nil]
  · rw [Processor.raised_enterTrap]
    exact none

theorem fetched (synchronous : Synchronous bus) :
    Unacknowledged s (s.fetched bus) := settle (synchronous.fetch _ _ _)

theorem pass (synchronous : Synchronous bus) {IRQ : BitVec 32} (calm : ¬ IsInterrupt s.raisedException)
    (refused : ¬ Accepts IRQ s.PSR) (pass : Pass bus IRQ s t) : Unacknowledged s t := by
  have fetch : Unacknowledged s (s.fetched bus) := fetched synchronous
  have cleared : Unacknowledged s (s.fetched bus).clearRaised :=
    ⟨fetch.irqAck, fun _ => (by decide : ¬ IsInterrupt 0)⟩
  have begun {u : Processor σ} (fetched : Fetched bus s u) : Unacknowledged s u := by
    cases fetched with
    | clean => exact fetch
    | ignored => exact cleared
  cases pass with
  | executed fetched active => exact (begun fetched).trans (actively synchronous active)
  | trapped id offset fetched quiet _ _ below =>
    have other : ¬ IsInterrupt id := fun interrupt => by
      unfold IsInterrupt trapInstruction implDepExc at interrupt
      unfold irqLev15 at below
      bv_omega
    exact ((begun fetched).trans (actively synchronous (active_of_quiet quiet))).trans
      (enterTrap _ _ offset other)
  | pending => exact cleared.trans (enterTrap _ _ _ (fetch.raised calm))
  | interrupted accepted => exact absurd accepted refused

end Unacknowledged

/-! ## Runs -/

/-- The level that a step of the processor has to acknowledge: that of its line, where it accepts it. -/
def acknowledged (s : Simulation σ) : Event σ → List (BitVec 32)
  | .pass => if Accepts s.IRQ s.cpu.PSR ∧ IsLevel s.IRQ then [s.IRQ] else []
  | _ => []

variable {bus : MemoryInterface σ}

theorem passResult_interrupted {IRQ : BitVec 32} {s : Processor σ} (accepts : Accepts IRQ s.PSR) :
    passResult bus IRQ s = some ((s.setCycles 0).enterTrap s.PC s.NPC (38 - IRQ) 0) := by
  have enabled : ¬ PSR.et (s.setCycles 0).PSR = 0 := accepts.2.1
  have taken : Program.Runs (passBody bus IRQ) s (fun _ _ => False)
      fun e t => e = .annulException ∧ t = (s.setCycles 0).enterTrap s.PC s.NPC (38 - IRQ) 0 := by
    simp only [passBody, irqBehavior, raiseException, Program.runs_bind, Program.runs_read,
      Program.runs_update, decide_eq_true accepts, if_true, enabled, if_false, Program.runs_stop]
    exact ⟨trivial, rfl⟩
  unfold passResult
  cases result : passBody bus IRQ s with
  | ok n u => exact (taken.of_ok result).elim
  | error e u =>
    obtain ⟨rfl, rfl⟩ := taken.of_error result
    rfl

theorem irqAck_pass (synchronous : Synchronous bus) {IRQ : BitVec 32} {s t : Processor σ}
    (calm : ¬ IsInterrupt s.raisedException) (passed : passResult bus IRQ s = some t) :
    t.irqAck = s.irqAck ++ (if Accepts IRQ s.PSR ∧ IsLevel IRQ then [IRQ] else []) ∧
      ¬ IsInterrupt t.raisedException := by
  by_cases accepts : Accepts IRQ s.PSR
  · rw [passResult_interrupted accepts, Option.some.injEq] at passed
    subst passed
    refine ⟨?_, ?_⟩
    · rw [Processor.irqAck_enterTrap, acknowledged_level]
      simp only [isInterrupt_iff, accepts, true_and]
      rfl
    · rw [Processor.raised_enterTrap]
      exact calm
  · have none := Unacknowledged.pass synchronous calm accepts (pass_of_passResult passed)
    rw [if_neg fun both => accepts both.1, List.append_nil]
    exact ⟨none.irqAck, none.raised calm⟩

variable {config : Config}

theorem irqAck_step (synchronous : Synchronous bus) {s t : Simulation σ} {e : Event σ}
    (calm : ¬ IsInterrupt s.cpu.raisedException) (next : s.step bus config e = some t) :
    t.cpu.irqAck = s.cpu.irqAck ++ acknowledged s e ∧ ¬ IsInterrupt t.cpu.raisedException := by
  cases e with
  | head =>
    obtain ⟨-, rfl⟩ := Simulation.step_head.mp next
    unfold Simulation.head acknowledged
    rw [List.append_nil]
    split
    · exact ⟨rfl, calm⟩
    split <;> exact ⟨rfl, calm⟩
  | pass =>
    obtain ⟨-, w, passed, rfl⟩ := Simulation.step_pass.mp next
    exact irqAck_pass synchronous calm passed
  | interrupt value raise =>
    cases next
    exact ⟨(List.append_nil _).symm, calm⟩
  | run start =>
    cases next
    exact ⟨(List.append_nil _).symm, calm⟩
  | world change =>
    cases next
    exact ⟨(List.append_nil _).symm, calm⟩

/-- The levels that a processor acknowledges in a run are those that its line shows in the passes
that accept it, each of them once, in their order. -/
theorem irqAck_run (synchronous : Synchronous bus) {s t : Simulation σ} {es : List (Event σ)}
    (calm : ¬ IsInterrupt s.cpu.raisedException)
    (reached : Run.run (Simulation.step bus config) s es = some t) :
    t.cpu.irqAck = s.cpu.irqAck ++ Run.outputs (Simulation.step bus config) acknowledged s es := by
  have keep (u : Simulation σ) (e : Event σ) (v : Simulation σ) (past : List (BitVec 32))
      (h : u.cpu.irqAck = s.cpu.irqAck ++ past ∧ ¬ IsInterrupt u.cpu.raisedException)
      (next : u.step bus config e = some v) :
      v.cpu.irqAck = s.cpu.irqAck ++ (past ++ acknowledged u e) ∧
        ¬ IsInterrupt v.cpu.raisedException := by
    rw [← List.append_assoc, ← h.1]
    exact irqAck_step synchronous h.2 next
  exact (Run.outputs_always keep ⟨(List.append_nil _).symm, calm⟩ reached).1

theorem synchronous_rom (code : BitVec 32 → BitVec 32) : Synchronous (rom code) where
  fetch _ _ _ _ triggered := by cases triggered
  access r _ _ triggered := by cases r <;> cases triggered

/-- A user program with level 15 on its line. -/
def requestedAt (pc : BitVec 32) : Simulation Unit where
  cpu := userAt pc
  IRQ := 15
  stopped := false
  waiting := false
  running := true

theorem irqAck_run_requested : ∃ t,
    Run.run (Simulation.step (rom fun _ => 0x01000000) ⟨0, 0⟩) (requestedAt 0x40001000)
      [.pass, .head, .pass] = some t ∧
    t.cpu.irqAck = (requestedAt 0x40001000).cpu.irqAck ++ Run.outputs
      (Simulation.step (rom fun _ => 0x01000000) ⟨0, 0⟩)
      acknowledged (requestedAt 0x40001000) [.pass, .head, .pass] :=
  ⟨_, rfl, irqAck_run (synchronous_rom _) (by decide) rfl⟩

end Socrocket.Leon3
