/- Socrocket/Leon3/Windows
   digest: The register table and the window number of the state register. -/

import Socrocket.Leon3.Invariants

set_option autoImplicit false
set_option relaxedAutoImplicit false

namespace Socrocket.Leon3

open Base Relation ExceptionId

variable {σ : Type}

/-! ## The table of a window -/

/-- The table of a window: the globals and its 24 registers. -/
def tableOf (cwp : BitVec 32) : BitVec 5 → Cell :=
  fun i => if 8 ≤ i then .window (Processor.winreg cwp i) else .global (i.setWidth 3)

/-- The register table shows the window of the state register. -/
def Shows (c : Control) : Prop := c.REGS = tableOf (PSR.cwp c.PSR)

theorem toNat_winreg (w : BitVec 3) (i : BitVec 5) :
    (Processor.winreg (w.setWidth 32) i).toNat = (w.toNat * 16 + i.toNat + 120) % 128 := by
  have low (x : BitVec 32) : (x &&& 0x7f).toNat = x.toNat % 128 :=
    BitField.toNat_and_lowMask x (k := 7) (by decide)
  have consts : (16 : BitVec 32).toNat = 16 ∧ (8 : BitVec 32).toNat = 8 := ⟨rfl, rfl⟩
  have hw := w.isLt
  have hi := i.isLt
  rw [Processor.winreg, BitVec.toNat_setWidth, low, BitVec.toNat_sub, BitVec.toNat_add,
    BitVec.toNat_mul, BitVec.toNat_setWidth, BitVec.toNat_setWidth, consts.1, consts.2]
  omega

theorem tableOf_injective {v w : BitVec 3}
    (same : tableOf (v.setWidth 32) = tableOf (w.setWidth 32)) : v = w := by
  have first : Cell.window _ = Cell.window _ := congrFun same 8
  have number := congrArg BitVec.toNat (Cell.window.inj first)
  have eight : (8 : BitVec 5).toNat = 8 := rfl
  rw [toNat_winreg, toNat_winreg, eight] at number
  have hv := v.isLt
  have hw := w.isLt
  exact BitVec.eq_of_toNat_eq (by omega)

theorem table_updateAliases {s : Processor σ} {old : BitVec 32} (h : s.REGS = tableOf old)
    (new : BitVec 32) :
    (s.updateAliases new).REGS = tableOf new := by
  funext i
  simp only [Processor.updateAliases, tableOf, h]
  split <;> rfl

/-! ## What the steps keep -/

variable {bus : MemoryInterface σ}

theorem Shows.active {s t : Processor σ} (h : Shows s.control) (step : Active bus s t) :
    Shows t.control := by
  cases step with
  | quiet step =>
    obtain same | next := control_of_quiet step
    · rw [same]
      exact h
    · rw [next]
      exact h
  | register i v =>
    rw [Processor.control_setReg]
    exact h
  | y => exact h
  | asr => exact h
  | icc n z ov c =>
    show s.REGS = tableOf (PSR.cwp (PSR.writeIcc s.PSR n z ov c))
    rw [PSR.cwp_writeIcc]
    exact h
  | transfer => exact h
  | move w =>
    show (s.updateAliases (w.setWidth 32)).REGS = tableOf (PSR.cwp (PSR.writeCwp s.PSR (w.setWidth 32)))
    rw [PSR.cwp_writeCwp]
    exact table_updateAliases h _
  | returned =>
    show (s.updateAliases ((PSR.window s.PSR + 1).setWidth 32)).REGS = tableOf
      (PSR.cwp (PSR.returned s.PSR))
    rw [PSR.cwp_returned]
    exact table_updateAliases h _
  | psr x => exact table_updateAliases h _
  | wim => exact h
  | tbr => exact h

theorem Shows.trapped {c : Control} (h : Shows c) (id offset : BitVec 32) :
    Shows (c.trapped id offset) := by
  show (fun i => if 8 ≤ i then _ else c.REGS i) = tableOf (PSR.cwp (PSR.trapped c.PSR))
  rw [PSR.cwp_trapped, PSR.previous_cwp, h]
  funext i
  simp only [tableOf]
  split <;> rfl

theorem Shows.actively {s t : Processor σ} (h : Shows s.control) (steps : Actively bus s t) :
    Shows t.control := by
  induction steps with
  | refl => exact h
  | tail _ step ih => exact ih.active step

theorem Fetched.control {s u : Processor σ} (h : Fetched bus s u) : u.control = s.control := by
  cases h with
  | clean => exact Processor.control_settle ..
  | ignored => exact Processor.control_settle s (bus.readInstr s.PC (PSR.instrAsi s.PSR) 0 s.memory)

theorem Shows.pass {IRQ : BitVec 32} {s t : Processor σ} (h : Shows s.control)
    (pass : Pass bus IRQ s t) :
    Shows t.control := by
  cases pass with
  | executed fetched active =>
    rw [← fetched.control] at h
    exact h.actively active
  | trapped id offset fetched quiet =>
    rw [← fetched.control] at h
    rw [control_enterTrap]
    exact (h.actively (active_of_quiet quiet)).trapped id offset
  | pending enabled =>
    rw [control_enterTrap, Processor.control_clearRaised, Processor.fetched, Processor.control_settle]
    exact h.trapped _ _
  | interrupted =>
    rw [control_enterTrap]
    exact h.trapped _ _

/-! ## Runs -/

variable {config : Config}

/-- A restart finds the first window. -/
def RestartsInFirst (s : Simulation σ) : Event σ → Prop
  | .head => s.stopped = false → s.waiting = true → PSR.cwp s.cpu.PSR = 0
  | _ => True

theorem shows_step {s t : Simulation σ} {e : Event σ} (h : Shows s.cpu.control)
    (legal : Legal s.cpu.control)
    (next : s.step bus config e = some t) : Shows t.cpu.control ↔ RestartsInFirst s e := by
  cases e with
  | head =>
    obtain ⟨-, rfl⟩ := Simulation.step_head.mp next
    unfold Simulation.head RestartsInFirst
    cases s.stopped
    · cases s.waiting
      · simpa using h
      · -- the table is kept and the number is cleared
        have number : PSR.cwp s.cpu.PSR = (PSR.window s.cpu.PSR).setWidth 32 :=
          PSR.cwp_lt_iff.mp legal.window
        have table : s.cpu.REGS = tableOf (PSR.cwp s.cpu.PSR) := h
        have first : PSR.cwp (0xf3000080 : BitVec 32) = (0 : BitVec 3).setWidth 32 := by decide
        simp only [Bool.false_eq_true, if_false, if_true, forall_const]
        show s.cpu.REGS = tableOf (PSR.cwp 0xf3000080) ↔ _
        rw [first, table, number]
        constructor
        · intro same
          rw [tableOf_injective same]
          rfl
        · intro zero
          rw [zero]
          rfl
    · simpa using h
  | pass =>
    obtain ⟨-, u, passed, rfl⟩ := Simulation.step_pass.mp next
    exact ⟨fun _ => trivial, fun _ => h.pass (pass_of_passResult passed)⟩
  | interrupt value raise =>
    cases next
    exact ⟨fun _ => trivial, fun _ => h⟩
  | run start =>
    cases next
    exact ⟨fun _ => trivial, fun _ => h⟩
  | world change =>
    cases next
    exact ⟨fun _ => trivial, fun _ => h⟩

theorem shows_initial (m : σ) : Shows (Simulation.initial config m).cpu.control := by
  show (fun i => if 8 ≤ i then _ else _) = tableOf (PSR.cwp 0xf3000080)
  rfl

/-- The register table shows the window of the state register in every state of a run exactly if
every restart finds the first window: the reset clears the number and leaves the table. -/
theorem shows_throughout_iff (entry : Aligned config.ENTRY_POINT) {m : σ} {es : List (Event σ)}
    {t : Simulation σ}
    (reached : Run.run (Simulation.step bus config) (Simulation.initial config m) es = some t) :
    (∀ before after u, es = before ++ after →
        Run.run (Simulation.step bus config) (Simulation.initial config m) before = some u →
          Shows u.cpu.control) ↔
      Run.Along (Simulation.step bus config) RestartsInFirst (Simulation.initial config m) es :=
  Run.throughout_iff_of
    (fun (s : Simulation σ) _ _ (h : Shows s.cpu.control) (legal : Legal s.cpu.control) next =>
      shows_step h legal next)
    (fun (s : Simulation σ) _ _ _ (legal : Legal s.cpu.control) next => legal.step entry next)
    (shows_initial m) (legal_reset entry _) reached

theorem shows_throughout_iff_start :
    (∀ before after u, start = before ++ after →
      Run.run (Simulation.step (rom fun _ => 0x01000000) ⟨0, 0x40000000⟩)
      (Simulation.initial ⟨0, 0x40000000⟩ ()) before = some u → Shows u.cpu.control) ↔
    Run.Along (Simulation.step (rom fun _ => 0x01000000) ⟨0, 0x40000000⟩) RestartsInFirst
      (Simulation.initial ⟨0, 0x40000000⟩ ()) start :=
  @shows_throughout_iff Unit (rom fun _ => 0x01000000) ⟨0, 0x40000000⟩ rfl () start _ rfl

end Socrocket.Leon3
