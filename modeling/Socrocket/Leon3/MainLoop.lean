/- Socrocket/Leon3/MainLoop
   digest: The loop of the processor: reset, interrupts, fetches and pending exceptions, with what may happen
   between two of its passes. -/

import Socrocket.Base.Run
import Socrocket.Leon3.Effects

set_option autoImplicit false
set_option relaxedAutoImplicit false

namespace Socrocket.Leon3

open Base ExceptionId Program

variable {σ : Type}

/-! ## One pass of the loop -/

/-- The address space of the instructions of a mode. -/
def PSR.instrAsi (v : BitVec 32) : BitVec 32 := 0x8 ||| if PSR.supervisor v ≠ 0 then 1 else 0

namespace Processor

def clearRaised (s : Processor σ) : Processor σ := { s with raisedException := 0 }

end Processor

/-- Take the exception that an access has left pending. -/
def takeRaised : Behavior σ Unit := do
  let exception ← Program.read (·.raisedException)
  if exception ≠ 0 then
    Program.update (·.clearRaised)
    let pc ← Program.read (·.raisedExceptionPC)
    let npc ← Program.read (·.raisedExceptionNPC)
    raiseException pc npc exception 0

variable (bus : MemoryInterface σ)

/-- Fetch, take a pending exception, decode and execute. -/
def fetchExecute : Behavior σ ℕ := do
  let curPC ← Program.read (·.PC)
  let asi ← Program.read fun s => PSR.instrAsi s.PSR
  let bitString ← access (bus.readInstr curPC asi 0)
  takeRaised
  behavior bus (Decoder.decode bitString) (setParams bitString)

/-- The interrupt line asks for more than the processor's level and traps are enabled. -/
def Accepts (IRQ psr : BitVec 32) : Prop :=
  IRQ ≠ 0xffffffff ∧ PSR.et psr ≠ 0 ∧ (IRQ = 15 ∨ PSR.pil psr < IRQ)

instance (IRQ psr : BitVec 32) : Decidable (Accepts IRQ psr) := inferInstanceAs (Decidable (_ ∧ _))

/-- An interrupt is taken, or an instruction is executed. -/
def passBody (IRQ : BitVec 32) : Behavior σ ℕ := do
  if ← Program.read fun s => decide (Accepts IRQ s.PSR) then irqBehavior IRQ else fetchExecute bus

/-- The state after a pass. A trap that was taken annuls the instruction and no more, anything else
ends the simulation. -/
def passResult (IRQ : BitVec 32) (s : Processor σ) : Option (Processor σ) :=
  match passBody bus IRQ s with
  | .ok _ t => some t
  | .error .annulException t => some t
  | .error _ _ => none

/-! ## The loop -/

/-- The numbers that the system gives to a processor. -/
structure Config where
  MPROC_ID : BitVec 32
  ENTRY_POINT : BitVec 32

variable (config : Config)

/-- The registers are reset, the table of registers is not. -/
def resetOp (s : Processor σ) : Processor σ :=
  { s with
    GLOBAL := fun _ => 0
    WINREGS := fun _ => 0
    ASR := Function.update (fun _ => 0) 17 (config.MPROC_ID + 0x307)
    PSR := 0xf3000080
    WIM := 0
    TBR := 0
    Y := 0
    PC := config.ENTRY_POINT
    NPC := config.ENTRY_POINT + 0x4 }

/-- The processor with the lines of its interrupts and of its start. -/
structure Simulation (σ : Type) where
  cpu : Processor σ
  IRQ : BitVec 32
  /-- The start line is low. -/
  stopped : Bool
  /-- The loop waits for its start. -/
  waiting : Bool
  /-- The head of the loop has been passed. -/
  running : Bool

/-- What happens to a processor: the two halves of its loop, its lines, and the rest of the system. -/
inductive Event (σ : Type)
  | head | pass | interrupt (value : BitVec 32) (raise : Bool) | run (start : Bool) | world
      (change : σ → σ)

namespace Simulation

variable (s : Simulation σ)

/-- At the head of the loop a processor that is stopped waits, and one that has waited starts from
reset. -/
def head : Simulation σ :=
  if s.stopped then { s with waiting := true }
  else if s.waiting then
    { s with cpu := resetOp config s.cpu, IRQ := 0xffffffff, waiting := false, running := true }
  else { s with running := true }

/-- The callback of the interrupt line. -/
def callbackMethod (value : BitVec 32) (raise : Bool) : Simulation σ :=
  { s with IRQ := if raise then value else 0xffffffff }

/-- The callback of the start line. -/
def onRun (start : Bool) : Simulation σ := { s with stopped := !start }

def step (s : Simulation σ) : Event σ → Option (Simulation σ)
  | .head => if s.running then none else some (s.head config)
  | .pass => if s.running then (passResult bus s.IRQ s.cpu).map fun cpu =>
      { s with cpu := cpu, running := false } else none
  | .interrupt value raise => some (s.callbackMethod value raise)
  | .run start => some (s.onRun start)
  | .world change => some { s with cpu := { s.cpu with memory := change s.cpu.memory } }

variable {bus config} {s}

theorem step_head {t : Simulation σ} :
    s.step bus config .head = some t ↔ s.running = false ∧ t = s.head config := by
  unfold step
  cases s.running <;> simp [eq_comm]

theorem step_pass {t : Simulation σ} : s.step bus config .pass = some t ↔
    s.running = true ∧ ∃ u, passResult bus s.IRQ s.cpu = some u ∧
      t = { s with cpu := u, running := false } := by
  unfold step
  cases s.running <;> simp [eq_comm]

variable (bus config)

/-- The processor after its construction: the table of registers shows the first window. -/
def initial (m : σ) : Simulation σ where
  cpu := resetOp config
    { PSR := 0, WIM := 0, TBR := 0, Y := 0, PC := 0, NPC := 0, GLOBAL := fun _ => 0, WINREGS :=
      fun _ => 0,
      ASR := fun _ => 0,
      REGS := fun i => if 8 ≤ i then .window (Processor.winreg 0 i) else .global (i.setWidth 3),
      totalInstrCycles := 0, irqAck := [], raisedException := 0, raisedExceptionPC :=
        0, raisedExceptionNPC := 0,
      memory := m }
  IRQ := 0xffffffff
  stopped := true
  waiting := false
  running := false

end Simulation

/-! ## What a pass can do -/

/-- The processor after the fetch of an instruction. -/
def Processor.fetched (s : Processor σ) : Processor σ :=
  s.settle (bus.readInstr s.PC (PSR.instrAsi s.PSR) 0 s.memory)

/-- A fetch, after which a pending exception may have been ignored. -/
inductive Fetched (s : Processor σ) : Processor σ → Prop
  | clean : Fetched s (s.fetched bus)
  | ignored (disabled : PSR.et s.PSR = 0) : Fetched s (s.fetched bus).clearRaised

/-- What a pass makes of a processor: an instruction is executed or annulled by a trap, or an
interrupt or a pending exception is taken in its place. -/
inductive Pass (IRQ : BitVec 32) (s : Processor σ) : Processor σ → Prop
  | executed {u t : Processor σ} (fetched : Fetched bus s u) (active : Actively bus u t) : Pass IRQ s t
  | trapped {u v : Processor σ} (id offset : BitVec 32) (fetched : Fetched bus s u)
      (quiet : Quietly bus u v)
      (enabled : PSR.et v.PSR ≠ 0) (named : id ≠ reset) (below : id < irqLev15) :
      Pass IRQ s (v.enterTrap s.PC s.NPC id offset)
  | pending (enabled : PSR.et s.PSR ≠ 0) (raised : (s.fetched bus).raisedException ≠ 0) :
      Pass IRQ s ((s.fetched bus).clearRaised.enterTrap (s.fetched bus).raisedExceptionPC
        (s.fetched bus).raisedExceptionNPC (s.fetched bus).raisedException 0)
  | interrupted (accepts : Accepts IRQ s.PSR) :
      Pass IRQ s ((s.setCycles 0).enterTrap s.PC s.NPC (38 - IRQ) 0)

variable {bus}

theorem Fetched.counters {s u : Processor σ} (h : Fetched bus s u) : u.PC = s.PC ∧ u.NPC = s.NPC := by
  have settled {α : Type} (reply : Reply σ α) : (s.settle reply).PC = s.PC ∧
      (s.settle reply).NPC = s.NPC := by
    unfold Processor.settle
    split <;> exact ⟨rfl, rfl⟩
  cases h with
  | clean => exact settled _
  | ignored => exact settled (bus.readInstr s.PC (PSR.instrAsi s.PSR) 0 s.memory)

theorem runs_behavior {s : Processor σ} (name : InstrName) (p : Params) {IRQ : BitVec 32}
    {u : Processor σ}
    (fetched : Fetched bus s u) : Runs (behavior bus name p) u (fun _ => Pass bus IRQ s)
      fun e t => e = .annulException → Pass bus IRQ s t := by
  have started : Quiet bus u (u.setCycles 0) := .cycles u 0
  simp only [behavior, runs_bind, runs_update, runs_read]
  refine (body_behaves name p (u.setCycles 0)).mono (fun _ t done => ?_) fun e t ends annulled => ?_
  · exact .executed fetched (.head (.quiet started) done)
  · subst annulled
    obtain ⟨v, id, offset, quiet, enabled, named, below, rfl⟩ := ends
    have counters := fetched.counters
    show Pass bus IRQ s (v.enterTrap u.PC u.NPC id offset)
    rw [counters.1, counters.2]
    exact .trapped id offset fetched (.head started quiet) enabled named below

theorem runs_passBody (IRQ : BitVec 32) (s : Processor σ) :
    Runs (passBody bus IRQ) s (fun _ => Pass bus IRQ s)
    fun e t => e = .annulException → Pass bus IRQ s t := by
  simp only [passBody, runs_bind, runs_read]
  split
  · rename_i accepted
    have accepts : Accepts IRQ s.PSR := of_decide_eq_true accepted
    simp only [irqBehavior, raiseException, runs_bind, runs_update, runs_read, runs_ite, runs_stop]
    exact ⟨fun disabled => absurd disabled accepts.2.1, fun _ _ => .interrupted accepts⟩
  · simp only [fetchExecute, takeRaised, access, raiseException, runs_bind, runs_read, runs_perform,
      runs_ite, runs_update, runs_stop, runs_pure]
    -- the mode is the same before and after the fetch
    have mode : (s.fetched bus).clearRaised.PSR = s.PSR := Processor.settle_PSR _
    refine ⟨fun raised => ⟨fun disabled =>
      ⟨fun _ stopped => absurd stopped (by decide), fun _ => ?_⟩, fun enabled _ => ?_⟩, fun _ => ?_⟩
    · exact runs_behavior _ _ (.ignored (mode ▸ disabled))
    · exact .pending (mode ▸ enabled) raised
    · exact runs_behavior _ _ .clean

/-- What a pass that goes on makes of the processor. -/
theorem pass_of_passResult {IRQ : BitVec 32} {s t : Processor σ} (h : passResult bus IRQ s = some t) :
    Pass bus IRQ s t := by
  have body : Runs (passBody bus IRQ) s _ _ := runs_passBody IRQ s
  unfold passResult at h
  cases result : passBody bus IRQ s with
  | ok n u =>
    rw [result, Option.some.injEq] at h
    exact h ▸ body.of_ok result
  | error e u =>
    cases e with
    | annulException =>
      rw [result, Option.some.injEq] at h
      exact h ▸ body.of_error result rfl
    | exception => simp [result] at h
    | undefined => simp [result] at h

/-- The processor at the start of the instruction that it has fetched. -/
def Processor.begun (s : Processor σ) (m : σ) : Processor σ :=
  { s with memory := m, totalInstrCycles := 0 }

theorem passResult_of_runs {IRQ word : BitVec 32} {s : Processor σ} {m : σ}
    (masked : ¬ Accepts IRQ s.PSR)
    (fetch : bus.readInstr s.PC (PSR.instrAsi s.PSR) 0 s.memory = ⟨word, none, m⟩)
    (calm : s.raisedException = 0)
    {Q : Processor σ → Prop} (runs : Runs (body bus (Decoder.decode word) (setParams word))
      (s.begun m) (fun _ => Q)
      fun _ _ => False) : ∃ t, passResult bus IRQ s = some t ∧ Q t := by
  have whole : Runs (passBody bus IRQ) s (fun _ => Q) fun _ _ => False := by
    simp only [passBody, fetchExecute, takeRaised, access, runs_bind, runs_read, runs_perform,
      runs_ite, fetch, decide_eq_true_eq, runs_pure]
    refine ⟨fun accepted => absurd accepted masked, fun _ =>
      ⟨fun raised => absurd calm raised, fun _ => ?_⟩⟩
    simp only [behavior, runs_bind, runs_update, runs_read]
    exact runs
  obtain ⟨n, t, result, kept⟩ := whole.returns
  exact ⟨t, by rw [passResult, result], kept⟩

end Socrocket.Leon3
