/- Socrocket/Leon3/Multiprocessor
   digest: Processors behind one interrupt controller: requests, acknowledgements and what may happen between them. -/

import Socrocket.Irqmp.RequestLines
import Socrocket.Leon3.Interrupts

set_option autoImplicit false
set_option relaxedAutoImplicit false

namespace Socrocket.Leon3

open Base Socrocket.Core Irqmp

variable {σ : Type} {g : Generics}

/-! ## The system -/

/-- A controller and its processors, each with the memory that it sees. -/
structure Multiprocessor (g : Generics) (σ : Type) where
  irqmp : Registers g.ncpu
  cpu : Fin g.ncpu → Simulation σ

/-- A step of the controller or of one of the processors. -/
inductive Happening (g : Generics) (σ : Type)
  | controller (op : Op g.ncpu) | processor (i : Fin g.ncpu) (e : Event σ)

namespace Multiprocessor

/-- The requests that have changed reach the processors at once. A low request that is written again
is left out: the line of its processor is low as well. -/
def deliver (old : Registers g.ncpu) (s : Multiprocessor g σ) : Multiprocessor g σ :=
  { s with cpu := fun i =>
      if s.irqmp.irqReq i = old.irqReq i then s.cpu i
      else (s.cpu i).callbackMethod (s.irqmp.irqReq i).line (s.irqmp.irqReq i).raised }

/-- The levels that a processor acknowledges reach the controller while it takes them. -/
def acknowledge (i : Fin g.ncpu) (levels : List (BitVec 32)) (irqmp : Registers g.ncpu) :
    Registers g.ncpu :=
  levels.foldl (fun irqmp level => acknowledgedIrq g irqmp (Fin.ofNat 32 level.toNat) i) irqmp

variable (bus : Fin g.ncpu → MemoryInterface σ) (config : Fin g.ncpu → Config)

/-- Requests and acknowledgements are made by the system only. -/
def step (s : Multiprocessor g σ) : Happening g σ → Option (Multiprocessor g σ)
  | .controller (.acknowledgedIrq ..) => none
  | .controller op => some (deliver s.irqmp { s with irqmp := Irqmp.step g s.irqmp op })
  | .processor _ (.interrupt ..) => none
  | .processor i e => ((s.cpu i).step (bus i) (config i) e).map fun cpu => deliver s.irqmp {
      irqmp := acknowledge i (cpu.cpu.irqAck.drop (s.cpu i).cpu.irqAck.length) s.irqmp
      cpu := Function.update s.cpu i cpu }

/-- All processors after their construction, and the controller after its own. -/
def initial (m : Fin g.ncpu → σ) : Multiprocessor g σ where
  irqmp := initRegisters g
  cpu i := Simulation.initial (config i) (m i)

variable {bus config} {s t : Multiprocessor g σ}

theorem step_controller {op : Op g.ncpu} : step bus config s (.controller op) = some t ↔
    (∀ irq i, op ≠ .acknowledgedIrq irq i) ∧
    t = deliver s.irqmp { s with irqmp := Irqmp.step g s.irqmp op } := by
  cases op <;> simp [step, eq_comm]

theorem step_processor {i : Fin g.ncpu} {e : Event σ} : step bus config s (.processor i e) = some t ↔
    (∀ value raise, e ≠ .interrupt value raise) ∧ ∃ cpu,
    (s.cpu i).step (bus i) (config i) e = some cpu ∧
      t = deliver s.irqmp {
        irqmp := acknowledge i (cpu.cpu.irqAck.drop (s.cpu i).cpu.irqAck.length) s.irqmp
        cpu := Function.update s.cpu i cpu } := by
  cases e <;> simp [step, eq_comm]

/-! ## Request lines and processor lines -/

/-- What the line of a processor shows of a request. -/
def shown (req : IrqReq) : BitVec 32 := if req.raised then req.line else 0xffffffff

/-- The line of every processor shows its request, or nothing. -/
def Shown (s : Multiprocessor g σ) : Prop :=
  ∀ i, (s.cpu i).IRQ = 0xffffffff ∨ (s.irqmp.irqReq i).raised = true ∧
    (s.cpu i).IRQ = (s.irqmp.irqReq i).line

/-- The line of every processor shows its request. -/
def Coherent (s : Multiprocessor g σ) : Prop := ∀ i, (s.cpu i).IRQ = shown (s.irqmp.irqReq i)

theorem irq_deliver (old : Registers g.ncpu) (s : Multiprocessor g σ) (i : Fin g.ncpu) :
    ((deliver old s).cpu i).IRQ =
      if s.irqmp.irqReq i = old.irqReq i then (s.cpu i).IRQ else shown (s.irqmp.irqReq i) := by
  unfold deliver
  dsimp only
  split <;> rfl

theorem cpu_deliver (old : Registers g.ncpu) (s : Multiprocessor g σ) (i : Fin g.ncpu) :
    ((deliver old s).cpu i).cpu = (s.cpu i).cpu ∧ ((deliver old s).cpu i).stopped = (s.cpu i).stopped ∧
      ((deliver old s).cpu i).waiting = (s.cpu i).waiting := by
  unfold deliver
  dsimp only
  split <;> exact ⟨rfl, rfl, rfl⟩

end Multiprocessor

/-- The event restarts the processor. -/
def Restarts (s : Simulation σ) : Event σ → Prop
  | .head => s.stopped = false ∧ s.waiting = true
  | _ => False

theorem irq_step {bus : MemoryInterface σ} {config : Config} {s t : Simulation σ} {e : Event σ}
    (inner : ∀ value raise, e ≠ .interrupt value raise) (next : s.step bus config e = some t) :
    (Restarts s e → t.IRQ = 0xffffffff) ∧ (¬ Restarts s e → t.IRQ = s.IRQ) := by
  cases e with
  | head =>
    obtain ⟨-, rfl⟩ := Simulation.step_head.mp next
    unfold Simulation.head Restarts
    cases s.stopped <;> cases s.waiting <;> simp
  | pass =>
    obtain ⟨-, w, -, rfl⟩ := Simulation.step_pass.mp next
    exact ⟨False.elim, fun _ => rfl⟩
  | interrupt value raise => exact absurd rfl (inner value raise)
  | run start =>
    cases next
    exact ⟨False.elim, fun _ => rfl⟩
  | world change =>
    cases next
    exact ⟨False.elim, fun _ => rfl⟩

namespace Multiprocessor

variable {bus : Fin g.ncpu → MemoryInterface σ} {config : Fin g.ncpu → Config}
    {s t : Multiprocessor g σ}

/-- No interrupt is pending as an exception anywhere. -/
def Calm (s : Multiprocessor g σ) : Prop := ∀ i, ¬ IsInterrupt (s.cpu i).cpu.raisedException

theorem of_step_processor (synchronous : ∀ i, Synchronous (bus i)) (calm : Calm s) {i : Fin g.ncpu}
    {e : Event σ}
    (next : step bus config s (.processor i e) = some t) :
    Calm t ∧ (∀ value raise, e ≠ .interrupt value raise) ∧
      ∃ cpu, (s.cpu i).step (bus i) (config i) e = some cpu ∧ t = deliver s.irqmp {
        irqmp := acknowledge i (acknowledged (s.cpu i) e) s.irqmp
        cpu := Function.update s.cpu i cpu } := by
  obtain ⟨inner, cpu, moved, rfl⟩ := step_processor.mp next
  obtain ⟨acks, quiet⟩ := irqAck_step (synchronous i) (calm i) moved
  refine ⟨fun j => ?_, inner, cpu, moved, ?_⟩
  · rw [(cpu_deliver _ _ j).1]
    dsimp only
    by_cases here : j = i
    · subst here
      rw [Function.update_self]
      exact quiet
    · rw [Function.update_of_ne here]
      exact calm j
  · rw [acks, List.drop_left]

theorem named_acknowledge {irqmp : Registers g.ncpu} (named : Named irqmp) (i : Fin g.ncpu)
    (levels : List (BitVec 32)) : Named (acknowledge i levels irqmp) := by
  unfold acknowledge
  induction levels generalizing irqmp with
  | nil => exact named
  | cons level levels ih => exact ih (named_step named (.acknowledgedIrq _ i))

/-- Every processor that is restarted has no request. -/
def RestartsUnrequested (s : Multiprocessor g σ) : Happening g σ → Prop
  | .processor i e => Restarts (s.cpu i) e → (s.irqmp.irqReq i).raised = false
  | .controller _ => True

theorem shown_eq_none_iff {irqmp : Registers g.ncpu} (named : Named irqmp) (i : Fin g.ncpu) :
    shown (irqmp.irqReq i) = 0xffffffff ↔ (irqmp.irqReq i).raised = false := by
  unfold shown
  cases raised : (irqmp.irqReq i).raised with
  | false => simp
  | true =>
    obtain ⟨n, -, below, line⟩ := named i raised
    rw [if_pos rfl, line]
    refine ⟨fun same => ?_, nofun⟩
    have number := congrArg BitVec.toNat same
    have ones : (0xffffffff : BitVec 32).toNat = 4294967295 := rfl
    rw [BitVec.toNat_ofNat, ones] at number
    omega

/-- A delivery makes the lines show what has changed. -/
theorem coherent_deliver_iff {old : Registers g.ncpu} {s : Multiprocessor g σ} :
    Coherent (deliver old s) ↔
    ∀ i, s.irqmp.irqReq i = old.irqReq i → (s.cpu i).IRQ = shown (s.irqmp.irqReq i) := by
  refine forall_congr' fun i => ?_
  rw [irq_deliver]
  show (if _ then _ else _) = shown (s.irqmp.irqReq i) ↔ _
  split <;> simp_all

theorem coherent_step (synchronous : ∀ i, Synchronous (bus i)) (coherent : Coherent s) (calm : Calm s)
    (named : Named s.irqmp) {e : Happening g σ} (next : step bus config s e = some t) :
    Coherent t ↔ RestartsUnrequested s e := by
  cases e with
  | controller op =>
    obtain ⟨-, rfl⟩ := step_controller.mp next
    refine ⟨fun _ => trivial, fun _ => coherent_deliver_iff.mpr fun i same => ?_⟩
    rw [same]
    exact coherent i
  | processor i e =>
    obtain ⟨-, inner, cpu, moved, rfl⟩ := of_step_processor synchronous calm next
    obtain ⟨restarted, kept⟩ := irq_step inner moved
    rw [coherent_deliver_iff]
    constructor
    · intro shows restart
      have silent : acknowledged (s.cpu i) e = [] := by
        cases e with
        | head => rfl
        | pass => exact restart.elim
        | interrupt value raise => rfl
        | run start => rfl
        | world change => rfl
      have here := shows i (by rw [silent]; rfl)
      dsimp only at here
      rw [Function.update_self, restarted restart, silent] at here
      exact (shown_eq_none_iff named i).mp here.symm
    · intro unrequested j same
      dsimp only at same ⊢
      rw [same]
      by_cases here : j = i
      · subst here
        rw [Function.update_self]
        by_cases restart : Restarts (s.cpu j) e
        · rw [restarted restart, (shown_eq_none_iff named j).mpr (unrequested restart)]
        · rw [kept restart]
          exact coherent j
      · rw [Function.update_of_ne here]
        exact coherent j

theorem calm_step (synchronous : ∀ i, Synchronous (bus i)) (calm : Calm s) {e : Happening g σ}
    (next : step bus config s e = some t) : Calm t := by
  cases e with
  | controller op =>
    obtain ⟨-, rfl⟩ := step_controller.mp next
    intro i
    rw [(cpu_deliver _ _ i).1]
    exact calm i
  | processor i e => exact (of_step_processor synchronous calm next).1

theorem named_system_step (synchronous : ∀ i, Synchronous (bus i)) (calm : Calm s)
    (named : Named s.irqmp)
    {e : Happening g σ} (next : step bus config s e = some t) : Named t.irqmp := by
  cases e with
  | controller op =>
    obtain ⟨-, rfl⟩ := step_controller.mp next
    exact named_step named op
  | processor i e =>
    obtain ⟨-, -, cpu, -, rfl⟩ := of_step_processor synchronous calm next
    exact named_acknowledge named i _

/-- Every processor sees the request that the controller makes of it, in every state of a run,
exactly if no processor is restarted while it has one: the restart drops it, and the controller does
not make it again. -/
theorem coherent_throughout_iff (synchronous : ∀ i, Synchronous (bus i)) {m : Fin g.ncpu → σ}
    {es : List (Happening g σ)} {t : Multiprocessor g σ}
    (reached : Run.run (step bus config) (initial config m) es = some t) :
    (∀ before after u, es = before ++ after →
      Run.run (step bus config) (initial config m) before = some u →
        Coherent u) ↔
      Run.Along (step bus config) RestartsUnrequested (initial config m) es := by
  refine Run.throughout_iff_of (Q := fun s : Multiprocessor g σ => Calm s ∧ Named s.irqmp)
    (fun s e t coherent inv next => coherent_step synchronous coherent inv.1 inv.2 next)
    (fun s e t _ inv next => ?_)
    (fun _ => rfl) ⟨fun _ => ?_, fun _ => nofun⟩ reached
  · exact ⟨calm_step synchronous inv.1 next, named_system_step synchronous inv.1 inv.2 next⟩
  · exact (by decide : ¬ IsInterrupt 0)

/-! ## Interrupts taken and raised -/

/-- The line is pending, or some processor is requested to take it. -/
def Live (n : ℕ) (irqmp : Registers g.ncpu) : Prop :=
  SrRegister.bitGet irqmp.pending n = true ∨
    ∃ i, (irqmp.irqReq i).raised = true ∧ (irqmp.irqReq i).line = BitVec.ofNat 32 n

instance (n : ℕ) (irqmp : Registers g.ncpu) :
    Decidable (Live n irqmp) := inferInstanceAs (Decidable (_ ∨ _))

/-- The processor that acknowledges the line in a step. -/
def taken (n : ℕ) (s : Multiprocessor g σ) : Happening g σ → List (Fin g.ncpu)
  | .processor i e => if BitVec.ofNat 32 n ∈ acknowledged (s.cpu i) e then [i] else []
  | .controller _ => []

/-- The step makes the line pending. -/
def raises (n : ℕ) : Happening g σ → Bool
  | .controller op => decide (Raises n op)
  | .processor .. => false

/-- The line is used as a pending interrupt only. -/
def Direct (n : ℕ) : Happening g σ → Prop
  | .controller op => ¬ Forces n op
  | .processor .. => True

theorem live_of_lowers {n : ℕ} {r r' : Registers g.ncpu} (quieter : Quieter n r r')
    (lowers : Lowers r r')
    (live : Live n r') : Live n r := by
  obtain pending | ⟨i, raised, line⟩ := live
  · exact .inl (quieter.pending pending)
  · obtain same | low := lowers i
    · exact .inr ⟨i, same ▸ raised, same ▸ line⟩
    · exact absurd (raised.symm.trans low) (by decide)

theorem live_step {n : ℕ} (lt : n < 16) {r : Registers g.ncpu} {op : Op g.ncpu} (cascade : n ≠ g.eirq)
    (unforced : Unforced n r) (unraised : ¬ Raises n op) (direct : ¬ Forces n op)
    (live : Live n (Irqmp.step g r op)) :
    Live n r := by
  have quieter := quieter_step r (by omega) cascade unraised direct
  by_cases launch : op = .launchIrq
  · subst launch
    obtain pending | ⟨i, raised, line⟩ := live
    · exact .inl (quieter.pending pending)
    · exact .inl (pending_of_launch cascade unforced raised line lt)
  · exact live_of_lowers quieter (lowers_step r launch) live

theorem not_live_acknowledged {n : ℕ} (lt : n < 32) (r : Registers g.ncpu) (i : Fin g.ncpu) :
    ¬ Live n (acknowledgedIrq g r (Fin.ofNat 32 n) i) := by
  rintro (pending | ⟨j, raised, -⟩)
  · have number : (Fin.ofNat 32 n).val = n := Nat.mod_eq_of_lt lt
    have clear : SrRegister.bitGet (acknowledgedIrq g r (Fin.ofNat 32 n) i).pending n = false := by
      show SrRegister.bitGet (SrRegister.bitSet _ (Fin.ofNat 32 n).val false) n = false
      rw [number, SrRegister.bitGet_bitSet, if_pos ⟨rfl, lt⟩]
    exact absurd (pending.symm.trans clear) (by decide)
  · exact Bool.false_ne_true raised

theorem acknowledged_cases (s : Simulation σ) (e : Event σ) :
    acknowledged s e = [] ∨ acknowledged s e = [s.IRQ] ∧ s.IRQ ≠ 0xffffffff := by
  cases e with
  | pass =>
    by_cases accepted : Accepts s.IRQ s.cpu.PSR ∧ IsLevel s.IRQ
    · exact .inr ⟨if_pos accepted, accepted.1.1⟩
    · exact .inl (if_neg accepted)
  | head => exact .inl rfl
  | interrupt value raise => exact .inl rfl
  | run start => exact .inl rfl
  | world change => exact .inl rfl

/-- What holds of the line in every state. -/
structure Tracked (n : ℕ) (s : Multiprocessor g σ) : Prop where
  unforced : Unforced n s.irqmp
  shown : Shown s
  calm : Calm s

theorem shown_deliver {old : Registers g.ncpu} {s : Multiprocessor g σ}
    (same : ∀ i, s.irqmp.irqReq i = old.irqReq i → (s.cpu i).IRQ = 0xffffffff ∨
      (s.irqmp.irqReq i).raised = true ∧ (s.cpu i).IRQ = (s.irqmp.irqReq i).line) :
        Shown (deliver old s) := by
  intro i
  rw [irq_deliver]
  show _ ∨ (s.irqmp.irqReq i).raised = true ∧ _
  split
  · rename_i unchanged
    exact same i unchanged
  · unfold Multiprocessor.shown
    cases (s.irqmp.irqReq i).raised with
    | false => exact .inl rfl
    | true => exact .inr ⟨rfl, rfl⟩

theorem tracked_step (synchronous : ∀ i, Synchronous (bus i)) {n : ℕ} (lt : n < 32)
    (cascade : n ≠ g.eirq)
    (tracked : Tracked n s) {e : Happening g σ} (direct : Direct n e)
    (next : step bus config s e = some t) :
    Tracked n t := by
  refine ⟨?_, ?_, calm_step synchronous tracked.calm next⟩
  · cases e with
    | controller op =>
      obtain ⟨-, rfl⟩ := step_controller.mp next
      exact unforced_step lt cascade direct tracked.unforced
    | processor i e =>
      obtain ⟨-, -, cpu, -, rfl⟩ := of_step_processor synchronous tracked.calm next
      obtain none | ⟨one, -⟩ := acknowledged_cases (s.cpu i) e
      · rw [none]
        exact tracked.unforced
      · rw [one]
        exact (Quieter.acknowledgedIrq _ _ i).unforced tracked.unforced
  · cases e with
    | controller op =>
      obtain ⟨-, rfl⟩ := step_controller.mp next
      refine shown_deliver fun i same => ?_
      rw [same]
      exact tracked.shown i
    | processor i e =>
      obtain ⟨-, inner, cpu, moved, rfl⟩ := of_step_processor synchronous tracked.calm next
      obtain ⟨restarted, kept⟩ := irq_step inner moved
      refine shown_deliver fun j same => ?_
      dsimp only at same ⊢
      rw [same]
      by_cases here : j = i
      · subst here
        rw [Function.update_self]
        by_cases restart : Restarts (s.cpu j) e
        · exact .inl (restarted restart)
        · rw [kept restart]
          exact tracked.shown j
      · rw [Function.update_of_ne here]
        exact tracked.shown j

/-- The interrupt that is left of the line. -/
def left (n : ℕ) (s : Multiprocessor g σ) : ℕ := if Live n s.irqmp then 1 else 0

theorem left_le_one (n : ℕ) (s : Multiprocessor g σ) : left n s ≤ 1 := by
  unfold left
  split
  · exact le_refl 1
  · exact Nat.zero_le 1

theorem left_le {n : ℕ} (kept : Live n t.irqmp → Live n s.irqmp) : left n t ≤ left n s := by
  by_cases live : Live n t.irqmp
  · rw [left, left, if_pos live, if_pos (kept live)]
  · rw [left, if_neg live]
    exact Nat.zero_le _

theorem live_of_taken {n : ℕ} (lines : Shown s) {i : Fin g.ncpu} (some : (s.cpu i).IRQ ≠ 0xffffffff)
    (named : (s.cpu i).IRQ = BitVec.ofNat 32 n) : Live n s.irqmp := by
  obtain none | ⟨raised, line⟩ := lines i
  · exact absurd none some
  · exact .inr ⟨i, raised, line.symm.trans named⟩

/-- A step pays for the line that it takes: there was an interrupt left, and there is none any more. -/
theorem taken_pays (synchronous : ∀ i, Synchronous (bus i)) {n : ℕ} (lt : n < 16) (cascade : n ≠ g.eirq)
    (tracked : Tracked n s) {e : Happening g σ} (direct : Direct n e)
    (next : step bus config s e = some t) :
    (taken n s e).length + left n t ≤ left n s + if raises n e then 1 else 0 := by
  cases e with
  | controller op =>
    obtain ⟨-, rfl⟩ := step_controller.mp next
    show 0 + _ ≤ _ + if decide (Raises n op) then 1 else 0
    rw [Nat.zero_add]
    by_cases raised : Raises n op
    · rw [decide_eq_true raised, if_pos rfl]
      exact (left_le_one n _).trans (Nat.le_add_left 1 _)
    · refine (left_le (s := s) fun live => ?_).trans (Nat.le_add_right _ _)
      exact live_step lt cascade tracked.unforced raised direct live
  | processor i e =>
    obtain ⟨-, -, cpu, -, rfl⟩ := of_step_processor synchronous tracked.calm next
    show (if BitVec.ofNat 32 n ∈ acknowledged (s.cpu i) e then [i] else []).length + _ ≤ left n s + 0
    obtain none | ⟨one, some⟩ := acknowledged_cases (s.cpu i) e
    · rw [none, if_neg List.not_mem_nil, List.length_nil, Nat.zero_add]
      exact left_le id
    · rw [one]
      by_cases here : (s.cpu i).IRQ = BitVec.ofNat 32 n
      · have number : (BitVec.ofNat 32 n).toNat = n := by
          rw [BitVec.toNat_ofNat]
          omega
        have before : left n s = 1 := if_pos (live_of_taken tracked.shown some here)
        have after : left n (deliver s.irqmp
          ⟨acknowledge i [(s.cpu i).IRQ] s.irqmp, Function.update s.cpu i cpu⟩) =
            0 := by
          refine if_neg ?_
          rw [here]
          show ¬ Live n (acknowledgedIrq g s.irqmp (Fin.ofNat 32 (BitVec.ofNat 32 n).toNat) i)
          rw [number]
          exact not_live_acknowledged (by omega) s.irqmp i
        rw [after, before, here, if_pos (List.mem_singleton.mpr rfl)]
        exact le_refl 1
      · rw [if_neg fun member => here (List.mem_singleton.mp member).symm, List.length_nil,
          Nat.zero_add]
        refine left_le (s := s) fun live => ?_
        exact live_of_lowers (Quieter.acknowledgedIrq s.irqmp _ i) (fun _ => .inr rfl) live

theorem tracked_initial (config : Fin g.ncpu → Config) (m : Fin g.ncpu → σ) {n : ℕ} :
    Tracked n (initial config m) :=
  ⟨⟨BitVec.getLsbD_zero, BitVec.getLsbD_zero, fun _ => BitVec.getLsbD_zero, fun _ =>
    BitVec.getLsbD_zero⟩,
    fun _ => .inl rfl, fun _ => (by decide : ¬ IsInterrupt 0)⟩

theorem left_initial (config : Fin g.ncpu → Config) (m : Fin g.ncpu → σ) (n : ℕ) :
    left n (initial config m) = 0 := by
  refine if_neg ?_
  rintro (pending | ⟨i, raised, -⟩)
  · exact Bool.false_ne_true (BitVec.getLsbD_zero.symm.trans pending)
  · exact Bool.false_ne_true raised

/-- No interrupt is taken twice, whatever the order in which the controller, the processors and
their programs take their steps: all processors together acknowledge a line at most as often as it
is raised. -/
theorem taken_le_raised (synchronous : ∀ i, Synchronous (bus i)) {n : ℕ} (lt : n < 16)
    (cascade : n ≠ g.eirq) {m : Fin g.ncpu → σ} {es : List (Happening g σ)} {t : Multiprocessor g σ}
    (direct : ∀ e ∈ es, Direct n e) (reached :
      Run.run (step bus config) (initial config m) es = some t) :
    (Run.outputs (step bus config) (taken n) (initial config m) es).length ≤ es.countP (raises n) := by
  have paid := Run.outputs_length_le (P := Tracked n) (left n) (raises n)
    (fun s e t tracked direct next => taken_pays synchronous lt cascade tracked direct next)
    (fun s e t tracked direct next => tracked_step synchronous (by omega) cascade tracked direct next)
    (tracked_initial config m) (Run.along_of_forall _ direct) reached
  rw [left_initial, Nat.zero_add] at paid
  exact (Nat.le_add_right _ _).trans paid

/-- Two processors, of which the first runs a program that enables traps, and an interrupt on line 3. -/
def enabling : MemoryInterface Unit := rom fun _ => 0x818820a0

def twoCpus : Generics := ⟨2, 0, sharedCascade.ncpu_range, by decide⟩

def interrupted : List (Happening twoCpus Unit) :=
  let first := firstCpu twoCpus
  [.processor first (.run true), .processor first .head, .processor first .pass,
    .controller (.incommingIrq (0x8, true)), .controller .launchIrq, .processor first .head,
      .processor first .pass]

theorem coherent_throughout_iff_interrupted :
    (∀ before after u, interrupted = before ++ after →
      Run.run (step (fun _ => enabling) fun _ => ⟨0, 0⟩)
        (initial (fun _ => ⟨0, 0⟩) fun _ => ()) before = some u → Coherent u) ↔
      Run.Along (step (fun _ => enabling) fun _ => ⟨0, 0⟩) RestartsUnrequested
        (initial (fun _ => ⟨0, 0⟩) fun _ => ())
        interrupted :=
  coherent_throughout_iff (fun _ => synchronous_rom _) rfl

theorem taken_le_raised_interrupted :
    (Run.outputs (step (fun _ => enabling) fun _ => ⟨0, 0⟩) (taken 3)
      (initial (fun _ => ⟨0, 0⟩) fun _ => ())
      interrupted).length ≤ interrupted.countP (raises 3) := by
  refine taken_le_raised (fun _ => synchronous_rom _) (by decide) (by decide) ?_ rfl
  intro e member
  simp only [interrupted, List.mem_cons, List.not_mem_nil, or_false] at member
  obtain rfl | rfl | rfl | rfl | rfl | rfl | rfl := member
  · trivial
  · trivial
  · trivial
  · exact id
  · exact id
  · trivial
  · trivial

end Multiprocessor

end Socrocket.Leon3
