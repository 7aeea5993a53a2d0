/- Socrocket/Leon3/Invariants
   digest: What holds of the control registers and of the register table in every state of the processor. -/

import Socrocket.Leon3.MainLoop

set_option autoImplicit false
set_option relaxedAutoImplicit false

namespace Socrocket.Leon3

open Base Relation ExceptionId

variable {σ : Type}

/-! ## Control registers -/

/-- The registers that direct the processor. -/
@[ext] structure Control where
  PSR : BitVec 32
  WIM : BitVec 32
  TBR : BitVec 32
  PC : BitVec 32
  NPC : BitVec 32
  REGS : BitVec 5 → Cell

namespace Processor

variable (s : Processor σ)

def control : Control where
  PSR := s.PSR
  WIM := s.WIM
  TBR := s.TBR
  PC := s.PC
  NPC := s.NPC
  REGS := s.REGS

@[simp] theorem control_setCycles (n : ℕ) : (s.setCycles n).control = s.control := rfl

@[simp] theorem control_setY (v : BitVec 32) : (s.setY v).control = s.control := rfl

@[simp] theorem control_setAsr (i : BitVec 5) (v : BitVec 32) :
    (s.setAsr i v).control = s.control := rfl

@[simp] theorem control_clearRaised : s.clearRaised.control = s.control := rfl

@[simp] theorem control_settle {α : Type} (reply : Reply σ α) :
    (s.settle reply).control = s.control := by
  unfold settle
  split <;> rfl

@[simp] theorem control_store (c : Cell) (v : BitVec 32) : (s.store c v).control = s.control := by
  cases c with
  | global k =>
    unfold store
    dsimp only
    split <;> rfl
  | window k => rfl

@[simp] theorem control_setReg (i : BitVec 5) (v : BitVec 32) : (s.setReg i v).control = s.control :=
  control_store ..

@[simp] theorem control_acknowledge (id : BitVec 32) : (s.acknowledge id).control = s.control := by
  unfold acknowledge
  split <;> rfl

end Processor

/-- The trap base register after a trap. -/
def trappedTbr (tbr id offset : BitVec 32) : BitVec 32 := (trapType id offset).elim tbr (writeTt tbr)

theorem control_setTrapType (s : Processor σ) (tt : Option (BitVec 32)) :
    (s.setTrapType tt).control = { s.control with TBR := tt.elim s.TBR (writeTt s.TBR) } := by
  cases tt <;> rfl

theorem control_vector (s : Processor σ) (id : BitVec 32) : (s.vector id).control =
    { s.control with PC := if id = reset then 0 else s.TBR, NPC :=
      if id = reset then 4 else s.TBR + 4 } := by
  unfold Processor.vector
  split <;> rfl

/-- The control registers at the entry to a trap. -/
def Control.trapped (c : Control) (id offset : BitVec 32) : Control where
  PSR := PSR.trapped c.PSR
  WIM := c.WIM
  TBR := trappedTbr c.TBR id offset
  PC := if id = reset then 0 else trappedTbr c.TBR id offset
  NPC := if id = reset then 4 else trappedTbr c.TBR id offset + 4
  REGS := fun i => if 8 ≤ i then .window (Processor.winreg ((PSR.cwp c.PSR - 1) % 8) i) else c.REGS i

theorem control_enterTrap (s : Processor σ) (pc npc id offset : BitVec 32) :
    (s.enterTrap pc npc id offset).control = s.control.trapped id offset := by
  have saved : ((((s.updateAliases ((PSR.cwp s.PSR - 1) % 8)).setPsr (PSR.trapped s.PSR)).setReg 17
    pc).setReg 18
      npc).control = { s.control with
        PSR := PSR.trapped s.PSR, REGS := (s.updateAliases ((PSR.cwp s.PSR - 1) % 8)).REGS } := by
    rw [Processor.control_setReg, Processor.control_setReg]
    rfl
  have tbr := congrArg Control.TBR saved
  unfold Processor.enterTrap
  dsimp only
  rw [Processor.control_acknowledge, control_vector, control_setTrapType, saved]
  generalize hs : (((s.updateAliases ((PSR.cwp s.PSR - 1) % 8)).setPsr (PSR.trapped s.PSR)).setReg
    17 pc).setReg 18
    npc = u at *
  have base : (u.setTrapType (trapType id offset)).TBR = trappedTbr s.TBR id offset := by
    have := congrArg Control.TBR (control_setTrapType u (trapType id offset))
    have same : u.TBR = s.TBR := tbr
    rw [same] at this
    exact this
  have same : u.TBR = s.TBR := tbr
  rw [base, same]
  rfl

/-! ## Control registers in every state -/

/-- What holds of the control registers: the window number is in range, the implementation and the
disabled units are fixed, the mask has eight bits, the vectors are 16 bytes apart and the counters
are at words. -/
structure Legal (c : Control) : Prop where
  window : PSR.cwp c.PSR < 8
  fixed : ∀ i, i = 12 ∨ i = 13 ∨ 24 ≤ i → c.PSR.getLsbD i = (0xf3000000 : BitVec 32).getLsbD i
  mask : c.WIM < 256
  vectors : c.TBR &&& 0xf = 0
  pc : Aligned c.PC
  npc : Aligned c.NPC

theorem aligned_of_vectors {a : BitVec 32} (h : a &&& 0xf = 0) : Aligned a := by
  have low : (a &&& 0xf).toNat = a.toNat % 16 := BitField.toNat_and_lowMask a (k := 4) (by decide)
  rw [h] at low
  have zero : (0 : BitVec 32).toNat = 0 := rfl
  rw [aligned_iff]
  omega

theorem vectors_writeTt {tbr tt : BitVec 32} (h : tbr &&& 0xf = 0) : writeTt tbr tt &&& 0xf = 0 := by
  have same : writeTt tbr tt &&& 0xf = tbr &&& 0xf := by
    refine BitVec.eq_of_getLsbD_eq fun i bound => ?_
    unfold writeTt
    interval_cases i <;> simp
  exact same.trans h

theorem Legal.trapped {c : Control} (h : Legal c) (id offset : BitVec 32) :
    Legal (c.trapped id offset) := by
  have tbr : trappedTbr c.TBR id offset &&& 0xf = 0 := by
    unfold trappedTbr
    cases trapType id offset with
    | none => exact h.vectors
    | some tt => exact vectors_writeTt h.vectors
  constructor
  · show PSR.cwp (PSR.trapped c.PSR) < 8
    rw [PSR.cwp_trapped]
    exact PSR.cwp_setWidth_lt _
  · intro i high
    show (PSR.trapped c.PSR).getLsbD i = _
    rw [PSR.getLsbD_trapped, if_neg (by omega), if_neg (by omega), if_neg (by omega),
      if_neg (by omega), h.fixed i high]
  · exact h.mask
  · exact tbr
  · show Aligned (if id = reset then 0 else trappedTbr c.TBR id offset)
    split
    · rfl
    · exact aligned_of_vectors tbr
  · show Aligned (if id = reset then 4 else trappedTbr c.TBR id offset + 4)
    split
    · rfl
    · exact (aligned_of_vectors tbr).next

variable {bus : MemoryInterface σ}

theorem control_of_quiet {s t : Processor σ} (h : Quiet bus s t) :
    t.control = s.control ∨ t.control = { s.control with PC := s.NPC, NPC := s.NPC + 4 } := by
  cases h with
  | cycles => exact .inl rfl
  | advance => exact .inr rfl
  | access => exact .inl (Processor.control_settle ..)

theorem Legal.quiet {s t : Processor σ} (h : Legal s.control) (step : Quiet bus s t) :
    Legal t.control := by
  obtain same | next := control_of_quiet step
  · rw [same]
    exact h
  · rw [next]
    exact { h with pc := h.npc, npc := h.npc.next }

theorem Legal.active {s t : Processor σ} (h : Legal s.control) (step : Active bus s t) :
    Legal t.control := by
  cases step with
  | quiet step => exact h.quiet step
  | register i v =>
    rw [Processor.control_setReg]
    exact h
  | y => exact h
  | asr => exact h
  | icc n z ov c =>
    refine { h with window := ?_, fixed := fun i high => ?_ }
    · show PSR.cwp (PSR.writeIcc s.PSR n z ov c) < 8
      rw [PSR.cwp_writeIcc]
      exact h.window
    · show (PSR.writeIcc s.PSR n z ov c).getLsbD i = _
      rw [PSR.getLsbD_writeIcc, if_neg (by omega), if_neg (by omega), if_neg (by omega),
        if_neg (by omega),
        ← h.fixed i high]
      rfl
  | transfer pc npc aligned =>
    exact { h with pc := (aligned h.pc h.npc).1, npc := (aligned h.pc h.npc).2 }
  | move w =>
    refine { h with window := ?_, fixed := fun i high => ?_ }
    · show PSR.cwp (PSR.writeCwp s.PSR (w.setWidth 32)) < 8
      rw [PSR.cwp_writeCwp]
      exact PSR.cwp_setWidth_lt w
    · show (PSR.writeCwp s.PSR (w.setWidth 32)).getLsbD i = _
      rw [PSR.getLsbD_writeCwp, if_neg (by omega), ← h.fixed i high]
      rfl
  | returned =>
    refine { h with window := ?_, fixed := fun i high => ?_ }
    · show PSR.cwp (PSR.returned s.PSR) < 8
      rw [PSR.cwp_returned]
      exact PSR.cwp_setWidth_lt _
    · show (PSR.returned s.PSR).getLsbD i = _
      rw [PSR.getLsbD_returned, if_neg (by omega), if_neg (by omega), if_neg (by omega),
        ← h.fixed i high]
      rfl
  | psr x _ legal =>
    refine { h with window := legal, fixed := fun i high => ?_ }
    show (PSR.written x).getLsbD i = _
    rw [PSR.getLsbD_written]
    obtain rfl | rfl | above := high
    · rfl
    · rfl
    · rw [if_neg (by omega)]
  | wim x =>
    refine { h with mask := ?_ }
    show x &&& (0xffffffff >>> 24) < 256
    have low : (x &&& (0xffffffff >>> 24)).toNat = x.toNat % 256 :=
      BitField.toNat_and_lowMask x (k := 8) (by decide)
    have bound : (256 : BitVec 32).toNat = 256 := rfl
    rw [BitVec.lt_def, low, bound]
    omega
  | tbr x =>
    refine { h with vectors := ?_ }
    show (s.TBR ||| (x &&& 0xfffff000)) &&& 0xf = 0
    have old : s.TBR &&& 0xf = 0 := h.vectors
    refine BitVec.eq_of_getLsbD_eq fun i bound => ?_
    have bit := congrArg (fun x => x.getLsbD i) old
    have apart : ∀ i < 32, ((0xfffff000 : BitVec 32).getLsbD i && (0xf : BitVec 32).getLsbD i) =
      false := by decide
    simp only [BitVec.getLsbD_and] at bit
    simp only [BitVec.getLsbD_and, BitVec.getLsbD_or, Bool.and_or_distrib_right, Bool.and_assoc,
      apart i bound, bit]
    simp

theorem Legal.actively {s t : Processor σ} (h : Legal s.control) (steps : Actively bus s t) :
    Legal t.control := by
  induction steps with
  | refl => exact h
  | tail _ step ih => exact ih.active step

theorem Legal.fetched {s u : Processor σ} (h : Legal s.control) (fetched : Fetched bus s u) :
    Legal u.control := by
  cases fetched with
  | clean =>
    rw [Processor.fetched, Processor.control_settle]
    exact h
  | ignored =>
    rw [Processor.control_clearRaised, Processor.fetched, Processor.control_settle]
    exact h

theorem Legal.pass {IRQ : BitVec 32} {s t : Processor σ} (h : Legal s.control)
    (pass : Pass bus IRQ s t) :
    Legal t.control := by
  cases pass with
  | executed fetched active => exact (h.fetched fetched).actively active
  | trapped id offset fetched quiet =>
    rw [control_enterTrap]
    exact ((h.fetched fetched).actively (active_of_quiet quiet)).trapped id offset
  | pending enabled =>
    rw [control_enterTrap, Processor.control_clearRaised]
    exact (h.fetched .clean).trapped _ _
  | interrupted =>
    rw [control_enterTrap]
    exact h.trapped _ _

variable {config : Config}

theorem legal_reset (entry : Aligned config.ENTRY_POINT) (s : Processor σ) :
    Legal (resetOp config s).control where
  window := (by decide : PSR.cwp 0xf3000080 < 8)
  fixed i high := by
    show (0xf3000080 : BitVec 32).getLsbD i = _
    by_cases bound : i < 32
    · interval_cases i <;> first | rfl | omega
    · rw [BitVec.getLsbD_of_ge _ _ (by omega), BitVec.getLsbD_of_ge _ _ (by omega)]
  mask := (by decide : (0 : BitVec 32) < 256)
  vectors := (by decide : (0 : BitVec 32) &&& 0xf = 0)
  pc := entry
  npc := entry.next

theorem Legal.step (entry : Aligned config.ENTRY_POINT) {s t : Simulation σ} {e : Event σ}
    (h : Legal s.cpu.control)
    (next : s.step bus config e = some t) : Legal t.cpu.control := by
  cases e with
  | head =>
    obtain ⟨-, rfl⟩ := Simulation.step_head.mp next
    unfold Simulation.head
    split
    · exact h
    split
    · exact legal_reset entry _
    · exact h
  | pass =>
    obtain ⟨-, u, passed, rfl⟩ := Simulation.step_pass.mp next
    exact h.pass (pass_of_passResult passed)
  | interrupt value raise =>
    cases next
    exact h
  | run start =>
    cases next
    exact h
  | world change =>
    cases next
    exact h

/-- The control registers are legal in every state of every run, whatever the program, the memory,
the interrupts and the restarts are. -/
theorem legal_reachable (entry : Aligned config.ENTRY_POINT) {m : σ} {es : List (Event σ)}
    {t : Simulation σ}
    (reached : Run.run (Simulation.step bus config) (Simulation.initial config m) es = some t) :
    Legal t.cpu.control :=
  Run.run_always (fun (s : Simulation σ) _ _ (h : Legal s.cpu.control) next => h.step entry next)
    (legal_reset entry _)
    reached

/-- A memory of words that cannot be written. -/
def rom (code : BitVec 32 → BitVec 32) : MemoryInterface Unit where
  readInstr a _ _ _ := ⟨code a, none, ()⟩
  readDword a _ _ _ _ := ⟨code a ++ code (a + 4), none, ()⟩
  readWord a _ _ _ _ := ⟨code a, none, ()⟩
  readHalf a _ _ _ _ := ⟨(code a).extractLsb' 16 16, none, ()⟩
  readByte a _ _ _ _ := ⟨(code a).extractLsb' 24 8, none, ()⟩
  writeDword _ _ _ _ _ _ := ⟨(), none, ()⟩
  writeWord _ _ _ _ _ _ := ⟨(), none, ()⟩
  writeHalf _ _ _ _ _ _ := ⟨(), none, ()⟩
  writeByte _ _ _ _ _ _ := ⟨(), none, ()⟩

/-- The start of a processor that has waited for it. -/
def start : List (Event Unit) := [.head, .run true, .head, .pass, .head]

theorem legal_reachable_start : ∃ t, Run.run (Simulation.step (rom fun _ => 0x01000000) ⟨0, 0x40000000⟩)
    (Simulation.initial ⟨0, 0x40000000⟩ ()) start = some t ∧ Legal t.cpu.control :=
  ⟨_, rfl, @legal_reachable Unit (rom fun _ => 0x01000000) ⟨0, 0x40000000⟩ rfl () start _ rfl⟩

end Socrocket.Leon3
