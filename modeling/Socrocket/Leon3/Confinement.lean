/- Socrocket/Leon3/Confinement
   digest: A user program cannot change the privileged state, the windows behind the mask or a protected memory, and
   leaves the user mode only through the trap table. -/

import Socrocket.Leon3.Traps

set_option autoImplicit false
set_option relaxedAutoImplicit false

namespace Socrocket.Leon3

open Base Relation ExceptionId

variable {σ : Type}

/-! ## What a user program can reach -/

/-- What a user program asks of the memory. -/
def Request.OfUser (r : Request) : Prop := r.IsWrite → r.Ordinary 0xa ∨ r.Unguarded

theorem Request.Permitted.ofUser {psr : BitVec 32} {r : Request} (permitted : r.Permitted psr)
    (user : PSR.supervisor psr = 0) : r.OfUser := by
  have asi : PSR.dataAsi psr = 0xa := by
    unfold PSR.dataAsi
    rw [if_neg (not_not.mpr user)]
    rfl
  intro write
  exact asi ▸ permitted write user

/-- A property of the memory that the fetches and the accesses of a user program keep. -/
structure KeptByUser (bus : MemoryInterface σ) (I : σ → Prop) : Prop where
  fetch : ∀ address m, I m → I (bus.readInstr address 0x8 0 m).memory
  access : ∀ (r : Request) m, r.OfUser → I m → I (r.on bus m).memory

/-- The mask has no way out of a set of windows. -/
def Enclosed (wim : BitVec 32) (A : Set (BitVec 3)) : Prop :=
  ∀ w ∈ A, ∀ v, v = w + 1 ∨ v = w - 1 → wim.getLsbD v.toNat = false → v ∈ A

/-- The registers of a set of windows. -/
def Visible (A : Set (BitVec 3)) (k : BitVec 7) : Prop :=
  ∃ w ∈ A, ∃ i, 8 ≤ i ∧ Processor.winreg (w.setWidth 32) i = k

theorem windowValid_iff (s : Processor σ) (w : BitVec 3) :
    s.windowValid (w.setWidth 32) ↔ s.WIM.getLsbD w.toNat = false := by
  have bound : w.toNat < 8 := w.isLt
  have number : (w.setWidth 32).toNat = w.toNat := by
    rw [BitVec.toNat_setWidth]
    omega
  have bit (i : ℕ) : ((1#32 <<< w.setWidth 32) &&& s.WIM).getLsbD i =
      (decide (i = w.toNat) && s.WIM.getLsbD i) := by
    rw [BitVec.getLsbD_and, BitVec.shiftLeft_eq', number, BitVec.getLsbD_shiftLeft, BitVec.getLsbD_one]
    by_cases here : i = w.toNat
    · subst here
      simp
      omega
    · simp [here]
      omega
  rw [Processor.windowValid, decide_eq_true_iff]
  constructor
  · intro clear
    have here := bit w.toNat
    rw [clear, decide_eq_true rfl, Bool.true_and] at here
    exact here.symm.trans BitVec.getLsbD_zero
  · intro clear
    apply BitVec.eq_of_getLsbD_eq
    intro i _
    rw [bit]
    by_cases here : i = w.toNat
    · simp [here, clear]
    · simp [here]

/-! ## Confined states -/

/-- What a user program that has started in `b` has left as it was. -/
structure Confined (I : σ → Prop) (A : Set (BitVec 3)) (b s : Processor σ) : Prop where
  psr : ∀ i, 5 ≤ i → i < 20 ∨ 24 ≤ i → s.PSR.getLsbD i = b.PSR.getLsbD i
  range : PSR.cwp s.PSR < 8
  window : PSR.window s.PSR ∈ A
  table : s.REGS = tableOf (PSR.cwp s.PSR)
  wim : s.WIM = b.WIM
  tbr : s.TBR = b.TBR
  outside : ∀ k, ¬ Visible A k → s.WINREGS k = b.WINREGS k
  memory : I s.memory

/-- The state in which its trap is entered: the supervisor's, at the vector of the trap or at the
reset handler. -/
structure Entered (I : σ → Prop) (A : Set (BitVec 3)) (b t : Processor σ) : Prop where
  mode : PSR.supervisor t.PSR ≠ 0 ∧ PSR.ps t.PSR = 0 ∧ PSR.et t.PSR = 0
  psr : ∀ i, 8 ≤ i → i < 20 ∨ 24 ≤ i → t.PSR.getLsbD i = b.PSR.getLsbD i
  window : PSR.window t.PSR + 1 ∈ A
  wim : t.WIM = b.WIM
  base : ∀ i, i < 4 ∨ 12 ≤ i → t.TBR.getLsbD i = b.TBR.getLsbD i
  vector : t.PC = t.TBR ∧ t.NPC = t.TBR + 4 ∨ t.PC = 0 ∧ t.NPC = 4
  outside : ∀ k, ¬ Visible A k → k ≠ Processor.winreg (PSR.cwp t.PSR) 17 →
    k ≠ Processor.winreg (PSR.cwp t.PSR) 18 →
    t.WINREGS k = b.WINREGS k
  memory : I t.memory

variable {bus : MemoryInterface σ} {I : σ → Prop} {A : Set (BitVec 3)} {b s t : Processor σ}

namespace Confined

theorem user (h : Confined I A b s) (user : PSR.supervisor b.PSR = 0) : PSR.supervisor s.PSR = 0 := by
  by_contra supervisor
  have bit := PSR.supervisor_ne_zero_iff.mp supervisor
  rw [h.psr 7 (by decide) (by decide)] at bit
  exact PSR.supervisor_ne_zero_iff.mpr bit user

theorem settle {α : Type} (h : Confined I A b s) {reply : Reply σ α} (kept : I reply.memory) :
    Confined I A b (s.settle reply) := by
  unfold Processor.settle
  split
  · exact { h with memory := kept }
  · exact { h with memory := kept }

theorem quiet (h : Confined I A b s) (kept : KeptByUser bus I) (user : PSR.supervisor b.PSR = 0)
    (step : Quiet bus s t) : Confined I A b t := by
  cases step with
  | cycles => exact { h with }
  | advance => exact { h with }
  | access r permitted => exact h.settle (kept.access r _ (permitted.ofUser (h.user user)) h.memory)

theorem store (h : Confined I A b s) (c : Cell) (v : BitVec 32)
    (inside : ∀ k, c = .window k → Visible A k) :
    Confined I A b (s.store c v) := by
  cases c with
  | global k =>
    unfold Processor.store
    dsimp only
    split
    · exact h
    · exact { h with }
  | window k =>
    refine { h with outside := fun j hidden => ?_ }
    have apart : j ≠ k := fun same => hidden (same ▸ inside k rfl)
    exact (Function.update_of_ne apart _ _).trans (h.outside j hidden)

theorem visible (h : Confined I A b s) {i : BitVec 5} {k : BitVec 7}
    (entry : s.REGS i = .window k) : Visible A k := by
  rw [h.table, PSR.cwp_lt_iff.mp h.range, tableOf] at entry
  split at entry
  · rename_i windowed
    exact ⟨_, h.window, i, windowed, Cell.window.inj entry⟩
  · cases entry

theorem move (h : Confined I A b s) {w : BitVec 3} (inside : w ∈ A) :
    Confined I A b ((s.updateAliases (w.setWidth 32)).setPsr (PSR.writeCwp s.PSR (w.setWidth 32))) := by
  have number : PSR.cwp (PSR.writeCwp s.PSR (w.setWidth 32)) = w.setWidth 32 := PSR.cwp_writeCwp w
  refine { h with psr := fun i high middle => ?_, range := ?_, window := ?_, table := ?_ }
  · show (PSR.writeCwp s.PSR (w.setWidth 32)).getLsbD i = _
    rw [PSR.getLsbD_writeCwp, if_neg (by omega)]
    exact h.psr i high middle
  · show PSR.cwp (PSR.writeCwp s.PSR (w.setWidth 32)) < 8
    rw [number]
    exact PSR.cwp_setWidth_lt w
  · show PSR.window (PSR.writeCwp s.PSR (w.setWidth 32)) ∈ A
    rw [← PSR.setWidth_cwp, number, BitVec.setWidth_setWidth_of_le _ (by decide), BitVec.setWidth_eq]
    exact inside
  · show (s.updateAliases (w.setWidth 32)).REGS = tableOf (PSR.cwp (PSR.writeCwp s.PSR (w.setWidth 32)))
    rw [number]
    exact table_updateAliases h.table _

theorem icc (h : Confined I A b s) (n z ov c : BitVec 32) :
    Confined I A b (s.setPsr (PSR.writeIcc s.PSR n z ov c)) := by
  have number : PSR.cwp (PSR.writeIcc s.PSR n z ov c) = PSR.cwp s.PSR := PSR.cwp_writeIcc n z ov c
  refine { h with psr := fun i high middle => ?_, range := ?_, window := ?_, table := ?_ }
  · show (PSR.writeIcc s.PSR n z ov c).getLsbD i = _
    rw [PSR.getLsbD_writeIcc, if_neg (by omega), if_neg (by omega), if_neg (by omega),
      if_neg (by omega)]
    exact h.psr i high middle
  · exact number ▸ h.range
  · show PSR.window (PSR.writeIcc s.PSR n z ov c) ∈ A
    rw [← PSR.setWidth_cwp, number, PSR.setWidth_cwp]
    exact h.window
  · exact h.table.trans (congrArg tableOf number.symm)

theorem active (h : Confined I A b s) (kept : KeptByUser bus I) (user : PSR.supervisor b.PSR = 0)
    (enclosed : Enclosed b.WIM A) (step : Active bus s t) : Confined I A b t := by
  have mode := h.user user
  cases step with
  | quiet step => exact h.quiet kept user step
  | register i v => exact h.store _ v fun k entry => h.visible entry
  | y => exact { h with }
  | asr => exact { h with }
  | icc n z ov c => exact h.icc n z ov c
  | transfer => exact { h with }
  | move w adjacent valid =>
    have clear := (windowValid_iff s w).mp valid
    exact h.move (enclosed _ h.window w adjacent (h.wim ▸ clear))
  | returned _ supervisor => exact absurd mode supervisor
  | psr _ supervisor => exact absurd mode supervisor
  | wim _ supervisor => exact absurd mode supervisor
  | tbr _ supervisor => exact absurd mode supervisor

theorem actively (h : Confined I A b s) (kept : KeptByUser bus I) (user : PSR.supervisor b.PSR = 0)
    (enclosed : Enclosed b.WIM A) (steps : Actively bus s t) : Confined I A b t := by
  induction steps with
  | refl => exact h
  | tail _ step ih => exact ih.active kept user enclosed step

end Confined

/-! ## The way out -/

theorem memory_enterTrap (s : Processor σ) (pc npc id offset : BitVec 32) :
    (s.enterTrap pc npc id offset).memory = s.memory := by
  have store (s : Processor σ) (c : Cell) (v : BitVec 32) : (s.store c v).memory = s.memory := by
    cases c with
    | global k =>
      unfold Processor.store
      dsimp only
      split <;> rfl
    | window k => rfl
  have vector (s : Processor σ) (id : BitVec 32) : (s.vector id).memory = s.memory := by
    unfold Processor.vector
    split <;> rfl
  have acknowledge (s : Processor σ) (id : BitVec 32) : (s.acknowledge id).memory = s.memory := by
    unfold Processor.acknowledge
    split <;> rfl
  have setTrapType (s : Processor σ) (tt : Option (BitVec 32)) :
      (s.setTrapType tt).memory = s.memory := by
    cases tt <;> rfl
  unfold Processor.enterTrap
  dsimp only
  rw [acknowledge, vector, setTrapType, Processor.setReg, store, Processor.setReg, store]
  rfl

theorem getLsbD_trappedTbr (tbr id offset : BitVec 32) {i : ℕ} (outer : i < 4 ∨ 12 ≤ i) :
    (trappedTbr tbr id offset).getLsbD i = tbr.getLsbD i := by
  unfold trappedTbr
  cases trapType id offset with
  | none => rfl
  | some tt =>
    show (writeTt tbr tt).getLsbD i = _
    unfold writeTt
    by_cases bound : i < 32
    · obtain low | high := outer
      · interval_cases i <;> simp
      · interval_cases i <;> simp
    · rw [BitVec.getLsbD_of_ge _ _ (by omega), BitVec.getLsbD_of_ge _ _ (by omega)]

theorem Confined.enterTrap (h : Confined I A b s) (user : PSR.supervisor b.PSR = 0)
    (pc npc id offset : BitVec 32) :
    Entered I A b (s.enterTrap pc npc id offset) := by
  have control := control_enterTrap s pc npc id offset
  have data := data_enterTrap s pc npc id offset
  have psr : (s.enterTrap pc npc id offset).PSR = PSR.trapped s.PSR := congrArg Control.PSR control
  have tbr : (s.enterTrap pc npc id offset).TBR = trappedTbr s.TBR id offset :=
    congrArg Control.TBR control
  have mode := h.user user
  have registers : (s.enterTrap pc npc id offset).WINREGS =
      (s.data.trapped (PSR.cwp s.PSR) pc npc).WINREGS :=
    congrArg Data.WINREGS data
  constructor
  · rw [psr, PSR.supervisor_ne_zero_iff, PSR.getLsbD_trapped]
    refine ⟨rfl, ?_, ?_⟩
    · by_contra set
      have bit := PSR.ps_ne_zero_iff.mp set
      rw [PSR.getLsbD_trapped] at bit
      exact PSR.supervisor_ne_zero_iff.mpr bit mode
    · by_contra set
      have bit := PSR.et_ne_zero_iff.mp set
      rw [PSR.getLsbD_trapped] at bit
      cases bit
  · intro i high middle
    rw [psr, PSR.getLsbD_trapped, if_neg (by omega), if_neg (by omega), if_neg (by omega),
      if_neg (by omega)]
    exact h.psr i (by omega) middle
  · rw [psr, PSR.window_trapped, BitVec.sub_add_cancel]
    exact h.window
  · exact (congrArg Control.WIM control).trans h.wim
  · intro i outer
    rw [tbr, getLsbD_trappedTbr _ _ _ outer, h.tbr]
  · have next := congrArg Control.PC control
    have after := congrArg Control.NPC control
    rw [tbr]
    by_cases start : id = reset
    · exact .inr ⟨next.trans (if_pos start), after.trans (if_pos start)⟩
    · exact .inl ⟨next.trans (if_neg start), after.trans (if_neg start)⟩
  · intro k hidden local1 local2
    rw [psr, PSR.cwp_trapped, ← PSR.previous_cwp] at local1 local2
    rw [registers]
    exact (Function.update_of_ne local2 _ _).trans
      ((Function.update_of_ne local1 _ _).trans (h.outside k hidden))
  · rw [memory_enterTrap]
    exact h.memory

/-! ## Runs -/

theorem Confined.fetched (h : Confined I A b s) (kept : KeptByUser bus I)
    (user : PSR.supervisor b.PSR = 0) :
    Confined I A b (s.fetched bus) := by
  have asi : PSR.instrAsi s.PSR = 0x8 := by
    unfold PSR.instrAsi
    rw [if_neg (not_not.mpr (h.user user))]
    rfl
  refine h.settle ?_
  rw [asi]
  exact kept.fetch _ _ h.memory

theorem Confined.pass (h : Confined I A b s) (kept : KeptByUser bus I) (user : PSR.supervisor b.PSR = 0)
    (enclosed : Enclosed b.WIM A) {IRQ : BitVec 32} (pass : Pass bus IRQ s t) :
    Confined I A b t ∨ Entered I A b t := by
  have fetch := h.fetched kept user
  have begun {u : Processor σ} (fetched : Fetched bus s u) : Confined I A b u := by
    cases fetched with
    | clean => exact fetch
    | ignored => exact { fetch with }
  cases pass with
  | executed fetched active => exact .inl ((begun fetched).actively kept user enclosed active)
  | trapped id offset fetched quiet =>
    exact .inr (((begun fetched).actively kept user enclosed (active_of_quiet quiet)).enterTrap user
      _ _ id offset)
  | pending =>
    have cleared : Confined I A b (s.fetched bus).clearRaised := { fetch with }
    exact .inr (cleared.enterTrap user _ _ _ _)
  | interrupted =>
    have begun : Confined I A b (s.setCycles 0) := { h with }
    exact .inr (begun.enterTrap user _ _ _ _)

/-- What the rest of the system does is no restart of the processor and keeps the property of the
memory. -/
def Undisturbed (I : σ → Prop) (s : Simulation σ) : Event σ → Prop
  | .head => s.stopped = true ∨ s.waiting = false
  | .world change => ∀ m, I m → I (change m)
  | _ => True

variable {config : Config}

/-- A user program is confined in every run: to its windows, to the memory that it may change, and
to the user mode until its first trap. A trap finds the mask and the trap base as they were, saves
the user mode, and goes to the supervisor's handler. -/
theorem user_confined (kept : KeptByUser bus I) {s t : Simulation σ} {es : List (Event σ)}
    (legal : Legal s.cpu.control) (shows : Shows s.cpu.control) (user : PSR.supervisor s.cpu.PSR = 0)
    (inside : PSR.window s.cpu.PSR ∈ A) (enclosed : Enclosed s.cpu.WIM A) (memory : I s.cpu.memory)
    (undisturbed : Run.Along (Simulation.step bus config) (Undisturbed I) s es)
    (reached : Run.run (Simulation.step bus config) s es = some t) :
    (Run.Along (Simulation.step bus config) (fun u _ => Confined I A s.cpu u.cpu) s es ∧
      Confined I A s.cpu t.cpu) ∨
      ∃ before e after u v, es = before ++ e :: after ∧
        Run.Along (Simulation.step bus config) (fun u _ => Confined I A s.cpu u.cpu) s before ∧
        Run.run (Simulation.step bus config) s before = some u ∧ Confined I A s.cpu u.cpu ∧
        u.step bus config e = some v ∧ Entered I A s.cpu v.cpu ∧
        Run.run (Simulation.step bus config) v after = some t := by
  have start : Confined I A s.cpu s.cpu :=
    ⟨fun _ _ _ => rfl, legal.window, inside, shows, rfl, rfl, fun _ _ => rfl, memory⟩
  refine Run.run_until (P := fun u : Simulation σ => Confined I A s.cpu u.cpu)
    (Q := fun u : Simulation σ => Entered I A s.cpu u.cpu)
    (fun u e v h ok next => ?_) start undisturbed reached
  cases e with
  | head =>
    obtain ⟨-, rfl⟩ := Simulation.step_head.mp next
    unfold Simulation.head
    obtain stopped | started := ok
    · rw [if_pos stopped]
      exact .inl h
    · split
      · exact .inl h
      · rw [if_neg (by simpa using started)]
        exact .inl h
  | pass =>
    obtain ⟨-, w, passed, rfl⟩ := Simulation.step_pass.mp next
    exact h.pass kept user enclosed (pass_of_passResult passed)
  | interrupt value raise =>
    cases next
    exact .inl h
  | run start =>
    cases next
    exact .inl h
  | world change =>
    cases next
    exact .inl { h with memory := ok _ h.memory }

/-- A user program in the first window, with the windows beside it behind the mask. -/
def confinedAt (pc : BitVec 32) : Simulation Unit where
  cpu := { userAt pc with WIM := 0x82 }
  IRQ := 0xffffffff
  stopped := false
  waiting := false
  running := true

theorem user_confined_interrupted :
    let bus := rom fun _ => 0x01000000
    let config : Config := ⟨0, 0⟩
    let s := confinedAt 0x40001000
    let es : List (Event Unit) := [.pass, .head, .interrupt 15 true, .pass]
    ∃ t, Run.run (Simulation.step bus config) s es = some t ∧
      ((Run.Along (Simulation.step bus config)
        (fun u _ => Confined (fun _ => True) {0} s.cpu u.cpu) s es ∧
        Confined (fun _ => True) {0} s.cpu t.cpu) ∨
      ∃ before e after u v, es = before ++ e :: after ∧
        Run.Along (Simulation.step bus config)
          (fun u _ => Confined (fun _ => True) {0} s.cpu u.cpu) s before ∧
        Run.run (Simulation.step bus config) s before = some u ∧
          Confined (fun _ => True) {0} s.cpu u.cpu ∧
        u.step bus config e = some v ∧ Entered (fun _ => True) {0} s.cpu v.cpu ∧
        Run.run (Simulation.step bus config) v after = some t) := by
  have legal : Legal (confinedAt 0x40001000).cpu.control := { legal_userAt with mask := by decide }
  have enclosed : Enclosed (confinedAt 0x40001000).cpu.WIM {0} := by
    rintro w rfl v (rfl | rfl) clear
    · cases clear
    · cases clear
  refine ⟨_, rfl, user_confined ⟨fun _ _ _ => trivial, fun _ _ _ _ => trivial⟩ legal rfl rfl rfl
    enclosed trivial ?_ rfl⟩
  refine ⟨trivial, fun u next => ⟨?_, fun _ _ => ⟨trivial, fun _ _ => ⟨trivial, fun _ _ => trivial⟩⟩⟩⟩
  obtain ⟨-, w, -, rfl⟩ := Simulation.step_pass.mp next
  exact .inr rfl

end Socrocket.Leon3
