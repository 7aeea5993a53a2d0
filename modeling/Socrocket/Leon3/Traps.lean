/- Socrocket/Leon3/Traps
   digest: What a trap leaves of the interrupted program, and the way back to it. -/

import Socrocket.Leon3.Windows

set_option autoImplicit false
set_option relaxedAutoImplicit false

namespace Socrocket.Leon3

open Base Relation ExceptionId Program

variable {σ : Type}

/-! ## The registers of a program -/

/-- The registers that the instructions compute with. -/
@[ext] structure Data where
  GLOBAL : BitVec 3 → BitVec 32
  WINREGS : BitVec 7 → BitVec 32
  Y : BitVec 32
  ASR : BitVec 5 → BitVec 32

namespace Processor

variable (s : Processor σ)

def data : Data where
  GLOBAL := s.GLOBAL
  WINREGS := s.WINREGS
  Y := s.Y
  ASR := s.ASR

@[simp] theorem data_settle {α : Type} (reply : Reply σ α) : (s.settle reply).data = s.data := by
  unfold settle
  split <;> rfl

@[simp] theorem data_setTrapType (tt : Option (BitVec 32)) : (s.setTrapType tt).data = s.data := by
  cases tt <;> rfl

@[simp] theorem data_vector (id : BitVec 32) : (s.vector id).data = s.data := by
  unfold vector
  split <;> rfl

@[simp] theorem data_acknowledge (id : BitVec 32) : (s.acknowledge id).data = s.data := by
  unfold acknowledge
  split <;> rfl

end Processor

/-- The registers of a program at the entry to a trap: the counters are in two locals of the next
window down. -/
def Data.trapped (d : Data) (cwp pc npc : BitVec 32) : Data :=
  let local1 := Function.update d.WINREGS (Processor.winreg ((cwp - 1) % 8) 17) pc
  { d with WINREGS := Function.update local1 (Processor.winreg ((cwp - 1) % 8) 18) npc }

theorem data_enterTrap (s : Processor σ) (pc npc id offset : BitVec 32) :
    (s.enterTrap pc npc id offset).data = s.data.trapped (PSR.cwp s.PSR) pc npc := by
  unfold Processor.enterTrap
  dsimp only
  rw [Processor.data_acknowledge, Processor.data_vector, Processor.data_setTrapType]
  rfl

variable {bus : MemoryInterface σ}

theorem data_of_quiet {s t : Processor σ} (h : Quiet bus s t) : t.data = s.data := by
  cases h with
  | cycles => rfl
  | advance => rfl
  | access => exact Processor.data_settle ..

theorem kept_of_quietly {s t : Processor σ} (h : Quietly bus s t) :
    t.data = s.data ∧ t.control = { s.control with PC := t.PC, NPC := t.NPC } := by
  induction h with
  | refl => exact ⟨rfl, rfl⟩
  | tail _ step ih =>
    refine ⟨(data_of_quiet step).trans ih.1, ?_⟩
    obtain same | next := control_of_quiet step
    · have pc := congrArg Control.PC same
      have npc := congrArg Control.NPC same
      rw [same, ih.2]
      exact Control.ext rfl rfl rfl pc.symm npc.symm rfl
    · have pc := congrArg Control.PC next
      have npc := congrArg Control.NPC next
      rw [next, ih.2]
      exact Control.ext rfl rfl rfl pc.symm npc.symm rfl

theorem trapped_of_behaves {b : Behavior σ Unit} (behaves : Behaves bus b) {s t : Processor σ}
    (trapped : b s = .error .annulException t) : ∃ id offset, id ≠ reset ∧ id < irqLev15 ∧
      PSR.et s.PSR ≠ 0 ∧ t.data = s.data.trapped (PSR.cwp s.PSR) s.PC s.NPC ∧
      t.control = s.control.trapped id offset := by
  obtain ⟨u, id, offset, quiet, enabled, named, below, rfl⟩ := (behaves s).of_error trapped
  obtain ⟨data, control⟩ := kept_of_quietly quiet
  have psr : u.PSR = s.PSR := congrArg Control.PSR control
  refine ⟨id, offset, named, below, psr ▸ enabled, ?_, ?_⟩
  · rw [data_enterTrap, data, psr]
  · rw [control_enterTrap, control]
    rfl

/-- Traps are precise: whichever instruction traps, and wherever in it, the registers are those of
its start but for what the entry to the trap makes of them. -/
theorem trap_precise (name : InstrName) (p : Params) {s t : Processor σ}
    (trapped : body bus name p s = .error .annulException t) : ∃ id offset, id ≠ reset ∧ id < irqLev15 ∧
      PSR.et s.PSR ≠ 0 ∧ t.data = s.data.trapped (PSR.cwp s.PSR) s.PC s.NPC ∧
      t.control = s.control.trapped id offset := by
  have behaves : Behaves bus (body bus name p) := body_behaves name p
  exact trapped_of_behaves behaves trapped

/-- A user program at an address. -/
def userAt (pc : BitVec 32) : Processor Unit :=
  { (Simulation.initial ⟨0, 0⟩ ()).cpu with PSR := 0xf3000020, TBR := 0x40000000, PC := pc, NPC :=
    pc + 4 }

theorem legal_userAt : Legal (userAt 0x40001000).control := by
  refine ⟨by decide, fun i high => ?_, by decide, by decide, rfl, rfl⟩
  show (0xf3000020 : BitVec 32).getLsbD i = _
  by_cases bound : i < 32
  · interval_cases i <;> first | rfl | omega
  · rw [BitVec.getLsbD_of_ge _ _ (by omega), BitVec.getLsbD_of_ge _ _ (by omega)]

/-- The program after the trap of an instruction that is not implemented. -/
def unimplemented (pc : BitVec 32) : Processor Unit :=
  (((userAt pc).continueAt (pc + 4) (pc + 8)).enterTrap pc (pc + 4) illegalInstr 0)

theorem trap_precise_unimp : ∃ id offset, id ≠ reset ∧ id < irqLev15 ∧
    PSR.et (userAt 0x40001000).PSR ≠ 0 ∧
    (unimplemented 0x40001000).data =
      (userAt 0x40001000).data.trapped (PSR.cwp (userAt 0x40001000).PSR) 0x40001000 0x40001004 ∧
    (unimplemented 0x40001000).control = (userAt 0x40001000).control.trapped id offset :=
  @trap_precise Unit (rom fun _ => 0) .unimp (setParams 0) (userAt 0x40001000)
    (unimplemented 0x40001000) rfl

/-! ## The way back -/

namespace PSR

variable {v : BitVec 32}

/-- The mode is saved. -/
def saved (v : BitVec 32) : BitVec 32 := (v &&& 0xffffffbf#32) ||| (supervisor v <<< 6)

theorem getLsbD_saved (i : ℕ) : (saved v).getLsbD i = if i = 6 then v.getLsbD 7 else v.getLsbD i := by
  unfold saved supervisor
  by_cases bound : i < 32
  · interval_cases i <;> simp
  · have above (x : BitVec 32) : x.getLsbD i = false := BitVec.getLsbD_of_ge _ _ (by omega)
    simp only [above]
    split_ifs <;> first | rfl | omega

theorem window_trapped : window (trapped v) = window v - 1 := by
  rw [← setWidth_cwp, cwp_trapped, BitVec.setWidth_setWidth_of_le _ (by decide), BitVec.setWidth_eq]

/-- A return undoes what a trap has made of the register, but for the saved mode. -/
theorem returned_trapped (range : cwp v < 8) (enabled : et v ≠ 0) : returned (trapped v) = saved v := by
  refine BitVec.eq_of_getLsbD_eq fun i bound => ?_
  rw [getLsbD_returned, getLsbD_saved, window_trapped, BitVec.sub_add_cancel, getLsbD_trapped,
    getLsbD_trapped]
  by_cases low : i < 5
  · rw [if_pos low, if_neg (by omega)]
    have number := congrArg (fun x => x.getLsbD i) (cwp_lt_iff.mp range)
    simp only [getLsbD_cwp, BitVec.getLsbD_setWidth, decide_eq_true low, Bool.true_and] at number
    rw [number, decide_eq_true bound, Bool.true_and]
  · have bit : v.getLsbD 5 = true := et_ne_zero_iff.mp enabled
    by_cases five : i = 5
    · subst five
      simpa using bit.symm
    by_cases seven : i = 7
    · subst seven
      rfl
    · rw [if_neg low, if_neg five, if_neg seven, if_neg low, if_neg five]
      simp only [seven, if_false]

end PSR

/-- What a handler keeps for its return: the state register, the two counters in its locals, and a
mask in which the window of the program is valid. -/
structure Handled (t h : Processor σ) : Prop where
  psr : h.PSR = t.PSR
  table : h.REGS = t.REGS
  pc : h.reg 17 = t.reg 17
  npc : h.reg 18 = t.reg 18
  valid : h.windowValid ((PSR.cwp t.PSR + 1) % 8)
  calm : h.raisedException = 0

theorem runs_jump {s : Processor σ} {p : Params} {second : Operand σ} {Q : Unit → Processor σ → Prop}
    {E : Stop → Processor σ → Prop} (aligned : Aligned (s.reg p.rs1Bit + second p s))
    (next : Q () (((s.continueAt s.NPC (s.reg p.rs1Bit + second p s)).setCycles
      (s.totalInstrCycles + 2)).setReg p.rdBit
      s.PC)) : Runs (jump second p) s Q E := by
  simp only [jump, effectiveAddress, readReg, Leon3.continueAt, stall, writeReg, runs_bind,
    runs_read, runs_pure, runs_ite, runs_update]
  exact ⟨fun trap => absurd aligned trap, fun _ => next⟩

theorem runs_rett {s : Processor σ} {p : Params} {second : Operand σ} {Q : Unit → Processor σ → Prop}
    {E : Stop → Processor σ → Prop} (disabled : PSR.et s.PSR = 0)
    (supervisor : PSR.supervisor s.PSR ≠ 0)
    (valid : s.windowValid ((PSR.cwp s.PSR + 1) % 8)) (aligned : Aligned (s.reg p.rs1Bit + second p s))
    (next : Q () ((((s.continueAt s.NPC (s.reg p.rs1Bit + second p s)).setCycles
      (s.totalInstrCycles + 2)).updateAliases
      ((PSR.cwp s.PSR + 1) % 8)).setPsr (PSR.returned s.PSR))) : Runs (rett second p) s Q E := by
  have straight : s.reg p.rs1Bit + second p s &&& 0x00000003 = 0 := aligned
  simp only [rett, effectiveAddress, readReg, Leon3.continueAt, stall, runs_bind, runs_read,
    runs_pure, disabled,
    supervisor, valid, straight, ne_eq, not_true_eq_false, not_false_eq_true, decide_true,
      decide_false, Bool.or_self,
    Bool.not_true, Bool.false_eq_true, if_false, runs_update]
  exact next

theorem locals_trapped {s t : Processor σ} {id offset pc npc : BitVec 32}
    (data : t.data = s.data.trapped (PSR.cwp s.PSR) pc npc)
    (control : t.control = s.control.trapped id offset) :
    t.reg 17 = pc ∧ t.reg 18 = npc := by
  have cell (i : BitVec 5) (windowed : 8 ≤ i) :
      t.REGS i = .window (Processor.winreg ((PSR.cwp s.PSR - 1) % 8) i) :=
    (congrFun (congrArg Control.REGS control) i).trans (if_pos windowed)
  have registers : t.WINREGS = (s.data.trapped (PSR.cwp s.PSR) pc npc).WINREGS :=
    congrArg Data.WINREGS data
  have apart : Processor.winreg ((PSR.cwp s.PSR - 1) % 8) 17 ≠ Processor.winreg
      ((PSR.cwp s.PSR - 1) % 8) 18 := by
    rw [PSR.previous_cwp]
    intro same
    have number := congrArg BitVec.toNat same
    have consts : (17 : BitVec 5).toNat = 17 ∧ (18 : BitVec 5).toNat = 18 := ⟨rfl, rfl⟩
    rw [toNat_winreg, toNat_winreg, consts.1, consts.2] at number
    omega
  constructor
  · rw [Processor.reg, cell 17 (by decide), Processor.load, registers]
    exact (Function.update_of_ne apart _ _).trans (Function.update_self ..)
  · rw [Processor.reg, cell 18 (by decide), Processor.load, registers]
    exact Function.update_self ..

/-- The processor after a jump, and after a return from a trap. -/
def Processor.jumped (s : Processor σ) (target : BitVec 32) : Processor σ :=
  (s.continueAt s.NPC target).setCycles 2

def Processor.resumed (s : Processor σ) (target : BitVec 32) : Processor σ :=
  ((s.jumped target).updateAliases ((PSR.cwp s.PSR + 1) % 8)).setPsr (PSR.returned s.PSR)

theorem instrAsi_supervisor {psr : BitVec 32} (supervisor : PSR.supervisor psr ≠ 0) :
    PSR.instrAsi psr = 0x9 := by
  unfold PSR.instrAsi
  rw [if_pos supervisor]
  rfl

@[simp] theorem data_jumped (s : Processor σ) (target : BitVec 32) :
    (s.jumped target).data = s.data := rfl

@[simp] theorem data_resumed (s : Processor σ) (target : BitVec 32) :
    (s.resumed target).data = s.data := rfl

@[simp] theorem data_begun (s : Processor σ) (m : σ) : (s.begun m).data = s.data := rfl

theorem pass_jmpl {IRQ : BitVec 32} {s : Processor σ} {m : σ} (masked : ¬ Accepts IRQ s.PSR)
    (supervisor : PSR.supervisor s.PSR ≠ 0) (calm : s.raisedException = 0)
    (fetch : bus.readInstr s.PC 0x9 0 s.memory = ⟨0x81c46000, none, m⟩)
    (zero : s.REGS 0 = .global 0) (aligned : Aligned (s.reg 17)) :
    passResult bus IRQ s = some ((s.begun m).jumped (s.reg 17)) := by
  have fields : (setParams 0x81c46000).rdBit = 0 ∧ (setParams 0x81c46000).rs1Bit = 17 ∧
    signExtend (setParams 0x81c46000).simm13 13 = 0 := ⟨rfl, rfl, rfl⟩
  have target : (s.begun m).reg (setParams 0x81c46000).rs1Bit + simm13 (setParams 0x81c46000)
    (s.begun m) =
      s.reg 17 := by
    rw [simm13, fields.2.1, fields.2.2, add_zero]
    rfl
  have runs : Runs (body bus .jumpImm (setParams 0x81c46000)) (s.begun m)
      (fun _ => (· = (s.begun m).jumped (s.reg 17))) fun _ _ => False := by
    refine runs_jump (target.symm ▸ aligned) ?_
    rw [target, fields.1, Processor.setReg_zero]
    · rfl
    · exact zero
  obtain ⟨t, passed, same⟩ := passResult_of_runs masked
    ((instrAsi_supervisor supervisor).symm ▸ fetch) calm runs
  rw [passed, same]

theorem pass_rett {IRQ : BitVec 32} {s : Processor σ} {m : σ} (masked : ¬ Accepts IRQ s.PSR)
    (supervisor : PSR.supervisor s.PSR ≠ 0) (calm : s.raisedException = 0)
    (fetch : bus.readInstr s.PC 0x9 0 s.memory = ⟨0x81cca000, none, m⟩) (disabled : PSR.et s.PSR = 0)
    (valid : s.windowValid ((PSR.cwp s.PSR + 1) % 8)) (aligned : Aligned (s.reg 18)) :
    passResult bus IRQ s = some ((s.begun m).resumed (s.reg 18)) := by
  have fields : (setParams 0x81cca000).rs1Bit = 18 ∧
    signExtend (setParams 0x81cca000).simm13 13 = 0 := ⟨rfl, rfl⟩
  have target : (s.begun m).reg (setParams 0x81cca000).rs1Bit + simm13 (setParams 0x81cca000)
    (s.begun m) =
      s.reg 18 := by
    rw [simm13, fields.1, fields.2, add_zero]
    rfl
  have runs : Runs (body bus .rettImm (setParams 0x81cca000)) (s.begun m)
      (fun _ => (· = (s.begun m).resumed (s.reg 18))) fun _ _ => False := by
    refine runs_rett disabled supervisor valid (target.symm ▸ aligned) ?_
    rw [target]
    rfl
  obtain ⟨t, passed, same⟩ := passResult_of_runs masked
    ((instrAsi_supervisor supervisor).symm ▸ fetch) calm runs
  rw [passed, same]

/-- `jmp %l1` and `rett %l2` in a handler, whatever the interrupt line says. -/
theorem passes_back {IRQ IRQ' : BitVec 32} {s : Processor σ} {m₁ m₂ : σ} (disabled : PSR.et s.PSR = 0)
    (supervisor : PSR.supervisor s.PSR ≠ 0) (calm : s.raisedException = 0) (zero : s.REGS 0 = .global 0)
    (jmpl : bus.readInstr s.PC 0x9 0 s.memory = ⟨0x81c46000, none, m₁⟩)
    (rett : bus.readInstr s.NPC 0x9 0 m₁ = ⟨0x81cca000, none, m₂⟩)
    (valid : s.windowValid ((PSR.cwp s.PSR + 1) % 8)) (pc : Aligned (s.reg 17))
    (npc : Aligned (s.reg 18)) :
    ∃ u, passResult bus IRQ s = some u ∧
      passResult bus IRQ' u = some ((((s.begun m₁).jumped (s.reg 17)).begun m₂).resumed
        (s.reg 18)) := by
  have masked (IRQ : BitVec 32) : ¬ Accepts IRQ s.PSR := fun accepts => accepts.2.1 disabled
  refine ⟨_, pass_jmpl (masked IRQ) supervisor calm jmpl zero pc, ?_⟩
  exact pass_rett (masked IRQ') supervisor calm rett disabled valid npc

/-- The two last instructions of a handler, the jump to the first counter and the return to the
second, go back to the instruction that trapped: with its mode, its window and traps enabled, and
whatever the interrupt line says. -/
theorem trap_return (name : InstrName) (p : Params) {s t h : Processor σ} {IRQ IRQ' : BitVec 32}
    {m₁ m₂ : σ}
    (legal : Legal s.control) (shows : Shows s.control)
    (trapped : body bus name p s = .error .annulException t)
    (handled : Handled t h) (jmpl : bus.readInstr h.PC 0x9 0 h.memory = ⟨0x81c46000, none, m₁⟩)
    (rett : bus.readInstr h.NPC 0x9 0 m₁ = ⟨0x81cca000, none, m₂⟩) :
    ∃ u v, passResult bus IRQ h = some u ∧ passResult bus IRQ' u = some v ∧ v.PC = s.PC ∧
      v.NPC = s.NPC ∧
      v.PSR = PSR.saved s.PSR ∧ v.REGS = s.REGS ∧ v.data = h.data := by
  obtain ⟨id, offset, -, -, enabled, data, control⟩ :=
    trapped_of_behaves (body_behaves name p) trapped
  obtain ⟨local1, local2⟩ := locals_trapped data control
  have psr : h.PSR = PSR.trapped s.PSR := handled.psr.trans (congrArg Control.PSR control)
  have pc : h.reg 17 = s.PC := handled.pc.trans local1
  have npc : h.reg 18 = s.NPC := handled.npc.trans local2
  have zero : h.REGS 0 = .global 0 := by
    rw [handled.table]
    have table := congrFun (congrArg Control.REGS control) 0
    have before := congrFun shows 0
    exact table.trans before
  -- the mode of the handler
  have disabled : PSR.et h.PSR = 0 := by
    by_contra enabled
    have bit := PSR.et_ne_zero_iff.mp enabled
    rw [psr, PSR.getLsbD_trapped] at bit
    cases bit
  have supervisor : PSR.supervisor h.PSR ≠ 0 := by
    rw [PSR.supervisor_ne_zero_iff, psr, PSR.getLsbD_trapped]
    rfl
  have valid : h.windowValid ((PSR.cwp h.PSR + 1) % 8) := handled.psr ▸ handled.valid
  have straight : Aligned (h.reg 17) ∧ Aligned (h.reg 18) := ⟨pc ▸ legal.pc, npc ▸ legal.npc⟩
  obtain ⟨u, jumped, resumed⟩ := passes_back disabled supervisor handled.calm zero jmpl rett valid
    straight.1 straight.2
  refine ⟨u, _, jumped, resumed, pc, npc, ?_, ?_, ?_⟩
  · exact (congrArg PSR.returned psr).trans (PSR.returned_trapped legal.window enabled)
  · -- the table of the window above that of the trap
    have window : (PSR.cwp h.PSR + 1) % 8 = PSR.cwp s.PSR := by
      rw [PSR.next_cwp, psr, PSR.window_trapped, BitVec.sub_add_cancel]
      exact (PSR.cwp_lt_iff.mp legal.window).symm
    have table : h.REGS = tableOf ((PSR.cwp s.PSR - 1) % 8) := by
      rw [handled.table]
      exact (congrArg Control.REGS control).trans (table_updateAliases shows _)
    have above : (h.updateAliases ((PSR.cwp h.PSR + 1) % 8)).REGS = s.REGS := by
      rw [window, table_updateAliases table]
      exact shows.symm
    exact above
  · rw [data_resumed, data_begun, data_jumped, data_begun]

theorem trap_return_unimp : ∃ u v,
    passResult (rom fun a => if a = 0x40000020 then 0x81c46000 else 0x81cca000) 15
      (unimplemented 0x40001000) = some u ∧
    passResult (rom fun a => if a = 0x40000020 then 0x81c46000 else 0x81cca000) 15 u = some v ∧
    v.PC = 0x40001000 ∧ v.NPC = 0x40001004 ∧ v.PSR = PSR.saved 0xf3000020 ∧
      v.REGS = (userAt 0x40001000).REGS ∧
    v.data = (unimplemented 0x40001000).data := by
  have shows : Shows (userAt 0x40001000).control := rfl
  have handled : Handled (unimplemented 0x40001000) (unimplemented 0x40001000) :=
    ⟨rfl, rfl, rfl, rfl, rfl, rfl⟩
  exact trap_return .unimp (setParams 0) legal_userAt shows rfl handled rfl rfl

end Socrocket.Leon3
