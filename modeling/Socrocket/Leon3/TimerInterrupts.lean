/- Socrocket/Leon3/TimerInterrupts
   digest: The timer unit, the interrupt controller and the processors: no underflow is served twice. -/

import Socrocket.Gptimer.InterruptPending
import Socrocket.Leon3.Multiprocessor

set_option autoImplicit false
set_option relaxedAutoImplicit false

namespace Socrocket.Leon3

open Base Irqmp Core.SrRegister
open Gptimer (GPTimer RaisesIrq irqLine)
open Multiprocessor (twoCpus enabling)

variable {g : Generics} {σ : Type}

/-- The timer unit, and the system that its interrupts reach. -/
structure Board (g : Generics) (σ : Type) where
  gptimer : GPTimer
  system : Multiprocessor g σ

/-- A step of the timer unit, or of the system. -/
inductive BoardEvent (g : Generics) (σ : Type)
  | gptimer (e : Gptimer.Event) | system (e : Happening g σ)

namespace Board

/-- The step of the timer unit raises an interrupt. The controller looks at no line that falls. -/
def Interrupts (p : GPTimer) : Gptimer.Event → Prop
  | .resume m => RaisesIrq m p m
  | _ => False

instance (p : GPTimer) : DecidablePred (Interrupts p) := fun e => by
  cases e <;> unfold Interrupts <;> infer_instance

variable (bus : Fin g.ncpu → MemoryInterface σ) (config : Fin g.ncpu → Config)

/-- An interrupt of the timer unit reaches the controller within the step that raises it. -/
def step (s : Board g σ) : BoardEvent g σ → Option (Board g σ)
  | .gptimer e => (Gptimer.step s.gptimer e).bind fun p =>
      if Interrupts s.gptimer e then
        (Multiprocessor.step bus config s.system (.controller (.incommingIrq p.irq))).map fun t =>
        ⟨p, t⟩
      else some ⟨p, s.system⟩
  | .system e => (Multiprocessor.step bus config s.system e).map fun t => { s with system := t }

/-- The times of the underflows that raise a line. -/
def underflows (n : ℕ) (s : Board g σ) : BoardEvent g σ → List ℕ
  | .gptimer (.resume m) =>
    if RaisesIrq m s.gptimer m ∧ (irqLine s.gptimer.conf m).toNat = n then [s.gptimer.now] else []
  | _ => []

/-- The processor that acknowledges the line in a step. -/
def taken (n : ℕ) (s : Board g σ) : BoardEvent g σ → List (Fin g.ncpu)
  | .gptimer _ => []
  | .system e => Multiprocessor.taken n s.system e

/-- Nothing but the timer unit raises the line. -/
def TimerOnly (n : ℕ) : BoardEvent g σ → Prop
  | .gptimer _ => True
  | .system e => Multiprocessor.Direct n e ∧ Multiprocessor.raises n e = false

variable {bus config}

/-- What a step of the timer unit does to the system: it is the step of the controller that hears of
the interrupt. -/
theorem step_gptimer {s t : Board g σ} {e : Gptimer.Event}
    (next : step bus config s (.gptimer e) = some t) :
    t.system = s.system ∨ Multiprocessor.step bus config s.system
      (.controller (.incommingIrq t.gptimer.irq)) =
        some t.system ∧ ∃ m, e = .resume m ∧ RaisesIrq m s.gptimer m ∧
      t.gptimer.irq = (1#32 <<< irqLine s.gptimer.conf m, true) := by
  obtain ⟨p, moved, next⟩ := Option.bind_eq_some_iff.mp next
  by_cases interrupts : Interrupts s.gptimer e
  · rw [if_pos interrupts] at next
    obtain ⟨u, heard, rfl⟩ := Option.map_eq_some_iff.mp next
    cases e with
    | resume m => exact .inr ⟨heard, m, rfl, interrupts, Gptimer.irq_of_raises interrupts moved⟩
    | busRead reg => exact interrupts.elim
    | busWrite reg v => exact interrupts.elim
    | advance t => exact interrupts.elim
  · rw [if_neg interrupts] at next
    cases next
    exact .inl rfl

theorem raises_incomming {s t : Board g σ} {n m : ℕ} (lt : n < 16) (raises : RaisesIrq m s.gptimer m)
    (irq : t.gptimer.irq = (1#32 <<< irqLine s.gptimer.conf m, true)) :
    (if Multiprocessor.raises n (.controller (.incommingIrq t.gptimer.irq) : Happening g σ) then
      1 else 0) =
      (underflows n s (.gptimer (.resume m))).length := by
  have bit : bitGet (1#32 <<< irqLine s.gptimer.conf m) n = true ↔
      (irqLine s.gptimer.conf m).toNat = n := by
    rw [bitGet, BitVec.shiftLeft_eq', BitVec.getLsbD_shiftLeft, BitVec.getLsbD_one]
    simp only [Bool.and_eq_true, decide_eq_true_eq, Bool.not_eq_true', decide_eq_false_iff_not]
    omega
  have heard : Raises n (.incommingIrq t.gptimer.irq : Op g.ncpu) ↔
      (irqLine s.gptimer.conf m).toNat = n := by
    rw [irq]
    exact (and_iff_right rfl).trans bit
  show (if decide (Raises n (.incommingIrq t.gptimer.irq : Op g.ncpu)) = true then 1 else 0) = _
  by_cases here : (irqLine s.gptimer.conf m).toNat = n
  · rw [if_pos (decide_eq_true (heard.mpr here))]
    simp only [underflows, if_pos (And.intro raises here), List.length_singleton]
  · rw [if_neg fun raised => here (heard.mp (of_decide_eq_true raised))]
    simp only [underflows, if_neg fun both : _ ∧ _ => here both.2, List.length_nil]

theorem taken_pays (synchronous : ∀ i, Synchronous (bus i)) {n : ℕ} (lt : n < 16) (cascade : n ≠ g.eirq)
    {s t : Board g σ} (tracked : Multiprocessor.Tracked n s.system) {e : BoardEvent g σ}
    (only : TimerOnly n e)
    (next : step bus config s e = some t) :
    (taken n s e).length + Multiprocessor.left n t.system ≤
      Multiprocessor.left n s.system + (underflows n s e).length := by
  cases e with
  | gptimer e =>
    obtain same | ⟨heard, m, rfl, raises, irq⟩ := step_gptimer next
    · rw [same]
      show 0 + _ ≤ _
      omega
    · rw [← raises_incomming lt raises irq]
      exact Multiprocessor.taken_pays synchronous lt cascade tracked
        (e := .controller (.incommingIrq t.gptimer.irq)) id heard
  | system e =>
    obtain ⟨u, moved, rfl⟩ := Option.map_eq_some_iff.mp next
    have paid := Multiprocessor.taken_pays synchronous lt cascade tracked only.1 moved
    rw [only.2] at paid
    exact paid

theorem tracked_step (synchronous : ∀ i, Synchronous (bus i)) {n : ℕ} (lt : n < 16)
    (cascade : n ≠ g.eirq)
    {s t : Board g σ} (tracked : Multiprocessor.Tracked n s.system) {e : BoardEvent g σ}
    (only : TimerOnly n e)
    (next : step bus config s e = some t) : Multiprocessor.Tracked n t.system := by
  cases e with
  | gptimer e =>
    obtain same | ⟨heard, -⟩ := step_gptimer next
    · exact same ▸ tracked
    · exact Multiprocessor.tracked_step synchronous (by omega) cascade tracked
        (e := .controller (.incommingIrq t.gptimer.irq)) id heard
  | system e =>
    obtain ⟨u, moved, rfl⟩ := Option.map_eq_some_iff.mp next
    exact Multiprocessor.tracked_step synchronous (by omega) cascade tracked only.1 moved

/-- No underflow is served twice, whatever the order in which the timer unit, the controller, the
processors and their programs take their steps: all processors together acknowledge its line at most
as often as an underflow raises it. -/
theorem taken_le_underflows (synchronous : ∀ i, Synchronous (bus i)) {n : ℕ} (lt : n < 16)
    (cascade : n ≠ g.eirq)
    {p : GPTimer} {m : Fin g.ncpu → σ} {es : List (BoardEvent g σ)} {t : Board g σ}
    (only : ∀ e ∈ es, TimerOnly n e)
    (reached : Run.run (step bus config) ⟨p, .initial config m⟩ es = some t) :
    (Run.outputs (step bus config) (taken n) ⟨p, .initial config m⟩ es).length ≤
      (Run.outputs (step bus config) (underflows n) ⟨p, .initial config m⟩ es).length := by
  have paid : (Run.outputs (step bus config) (taken n) ⟨p, .initial config m⟩ es).length +
      Multiprocessor.left n t.system ≤ Multiprocessor.left n (.initial config m) +
        (Run.outputs (step bus config) (underflows n) ⟨p, .initial config m⟩ es).length :=
    Run.outputs_length_le_outputs (P := fun s : Board g σ => Multiprocessor.Tracked n s.system)
      (fun s => Multiprocessor.left n s.system)
      (fun s e u tracked only next => taken_pays synchronous lt cascade tracked only next)
      (fun s e u tracked only next => tracked_step synchronous lt cascade tracked only next)
      (Multiprocessor.tracked_initial config m) (Run.along_of_forall _ only) reached
  rw [Multiprocessor.left_initial, Nat.zero_add] at paid
  exact (Nat.le_add_right _ _).trans paid

/-- A counter that interrupts on line 3. -/
def lineThree : GPTimer := { Gptimer.oneCounter with conf := 0x19 }

/-- The first processor enables its traps, the counter underflows, and the interrupt is taken. -/
def underflowTaken : List (BoardEvent twoCpus Unit) :=
  let first := firstCpu twoCpus
  [.system (.processor first (.run true)), .system (.processor first .head),
    .system (.processor first .pass)] ++
    Gptimer.startAndUnderflow.map .gptimer ++
    [.system (.controller .launchIrq), .system (.processor first .head),
      .system (.processor first .pass)]

/-- The board before the first step. -/
def startingBoard : Board twoCpus Unit := ⟨lineThree, .initial (fun _ => ⟨0, 0⟩) fun _ => ()⟩

theorem taken_le_underflows_three : ∃ t,
    Run.run (step (fun _ => enabling) fun _ => ⟨0, 0⟩) startingBoard underflowTaken = some t ∧
      (Run.outputs (step (fun _ => enabling) fun _ => ⟨0, 0⟩)
        (taken 3) startingBoard underflowTaken).length ≤
        (Run.outputs (step (fun _ => enabling) fun _ => ⟨0, 0⟩) (underflows 3) startingBoard
          underflowTaken).length := by
  have ran : (Run.run (step (fun _ => enabling) fun _ => ⟨0, 0⟩) startingBoard
      underflowTaken).isSome = true := by
    decide +kernel
  obtain ⟨t, reached⟩ := Option.isSome_iff_exists.mp ran
  refine ⟨t, reached, taken_le_underflows (fun _ => synchronous_rom _) (by decide)
    (by decide) ?_ reached⟩
  intro e member
  obtain member | late := List.mem_append.mp member
  · obtain early | counted := List.mem_append.mp member
    · simp only [List.mem_cons, List.not_mem_nil, or_false] at early
      obtain rfl | rfl | rfl := early <;> exact ⟨trivial, rfl⟩
    · obtain ⟨timer, -, rfl⟩ := List.mem_map.mp counted
      trivial
  · simp only [List.mem_cons, List.not_mem_nil, or_false] at late
    obtain rfl | rfl | rfl := late
    · exact ⟨id, by decide⟩
    · exact ⟨trivial, rfl⟩
    · exact ⟨trivial, rfl⟩

end Board

end Socrocket.Leon3
