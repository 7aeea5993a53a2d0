/- Socrocket/Leon3/Effects
   digest: What an instruction can do to the processor, and what it leaves behind where it stops. -/

import Socrocket.Leon3.Instructions

set_option autoImplicit false
set_option relaxedAutoImplicit false

namespace Socrocket.Leon3

open Base Relation ExceptionId Program

variable {σ : Type}

/-! ## Requests to the memory -/

/-- An access of the data to the memory. -/
inductive Request
  | readDword (address asi lock : BitVec 32)
  | readWord (address asi lock : BitVec 32)
  | readHalf (address asi lock : BitVec 32)
  | readByte (address asi lock : BitVec 32)
  | writeDword (address : BitVec 32) (datum : BitVec 64) (asi : BitVec 32)
  | writeWord (address : BitVec 32) (datum : BitVec 32) (asi : BitVec 32)
  | writeHalf (address : BitVec 32) (datum : BitVec 16) (asi : BitVec 32)
  | writeByte (address : BitVec 32) (datum : BitVec 8) (asi : BitVec 32)

namespace Request

/-- What the memory makes of a request, but for the value it answers. -/
def on (bus : MemoryInterface σ) : Request → σ → Reply σ Unit
  | readDword address asi lock, m => (bus.readDword address asi 0 lock m).map fun _ => ()
  | readWord address asi lock, m => (bus.readWord address asi 0 lock m).map fun _ => ()
  | readHalf address asi lock, m => (bus.readHalf address asi 0 lock m).map fun _ => ()
  | readByte address asi lock, m => (bus.readByte address asi 0 lock m).map fun _ => ()
  | writeDword address datum asi, m => bus.writeDword address datum asi 0 0 m
  | writeWord address datum asi, m => bus.writeWord address datum asi 0 0 m
  | writeHalf address datum asi, m => bus.writeHalf address datum asi 0 0 m
  | writeByte address datum asi, m => bus.writeByte address datum asi 0 0 m

/-- A store to the data space of the mode, at an address that is a multiple of its size. -/
def Ordinary (asi : BitVec 32) : Request → Prop
  | writeDword a _ space => space = asi ∧ a &&& 0x7 = 0
  | writeWord a _ space => space = asi ∧ a &&& 0x3 = 0
  | writeHalf a _ space => space = asi ∧ a &&& 0x1 = 0
  | writeByte _ _ space => space = asi
  | _ => False

/-- A store to another space that is made whatever the mode. -/
def Unguarded : Request → Prop
  | writeDword a _ _ => a &&& 0x3 = 0
  | writeWord a _ _ => a &&& 0x3 = 0
  | writeHalf a _ _ => a &&& 0x1 = 0
  | _ => False

def IsWrite : Request → Prop
  | writeDword .. | writeWord .. | writeHalf .. | writeByte .. => True
  | _ => False

/-- The requests that instructions make in a mode. The supervisor's are not restricted. -/
def Permitted (psr : BitVec 32) (r : Request) : Prop :=
  r.IsWrite → PSR.supervisor psr = 0 → r.Ordinary (PSR.dataAsi psr) ∨ r.Unguarded

end Request

/-! ## Steps of an instruction -/

def Aligned (a : BitVec 32) : Prop := a &&& 0x3 = 0

variable (bus : MemoryInterface σ)

/-- What an instruction may do before it traps. -/
inductive Quiet : Processor σ → Processor σ → Prop
  | cycles (s : Processor σ) (n : ℕ) : Quiet s (s.setCycles n)
  | advance (s : Processor σ) : Quiet s (s.continueAt s.NPC (s.NPC + 4))
  | access (s : Processor σ) (r : Request) (permitted : r.Permitted s.PSR) :
      Quiet s (s.settle (r.on bus s.memory))

/-- What an instruction may do that does not trap. -/
inductive Active : Processor σ → Processor σ → Prop
  | quiet {s t : Processor σ} (step : Quiet bus s t) : Active s t
  | register (s : Processor σ) (i : BitVec 5) (v : BitVec 32) : Active s (s.setReg i v)
  | y (s : Processor σ) (v : BitVec 32) : Active s (s.setY v)
  | asr (s : Processor σ) (i : BitVec 5) (v : BitVec 32) : Active s (s.setAsr i v)
  | icc (s : Processor σ) (n z ov c : BitVec 32) : Active s (s.setPsr (PSR.writeIcc s.PSR n z ov c))
  | transfer (s : Processor σ) (pc npc : BitVec 32)
      (aligned : Aligned s.PC → Aligned s.NPC → Aligned pc ∧ Aligned npc) :
      Active s (s.continueAt pc npc)
  | move (s : Processor σ) (w : BitVec 3)
      (adjacent : w = PSR.window s.PSR + 1 ∨ w = PSR.window s.PSR - 1)
      (valid : s.windowValid (w.setWidth 32)) :
      Active s ((s.updateAliases (w.setWidth 32)).setPsr (PSR.writeCwp s.PSR (w.setWidth 32)))
  | returned (s : Processor σ) (disabled : PSR.et s.PSR = 0) (supervisor : PSR.supervisor s.PSR ≠ 0)
      (valid : s.windowValid ((PSR.window s.PSR + 1).setWidth 32)) :
      Active s ((s.updateAliases ((PSR.window s.PSR + 1).setWidth 32)).setPsr (PSR.returned s.PSR))
  | psr (s : Processor σ) (x : BitVec 32) (supervisor : PSR.supervisor s.PSR ≠ 0)
      (legal : PSR.cwp (PSR.written x) < 8) :
      Active s ((s.updateAliases (PSR.cwp (PSR.written x))).setPsr (PSR.written x))
  | wim (s : Processor σ) (x : BitVec 32) (supervisor : PSR.supervisor s.PSR ≠ 0) :
      Active s (setWim x s)
  | tbr (s : Processor σ) (x : BitVec 32) (supervisor : PSR.supervisor s.PSR ≠ 0) :
      Active s (setTbr x s)

abbrev Quietly : Processor σ → Processor σ → Prop := ReflTransGen (Quiet bus)

abbrev Actively : Processor σ → Processor σ → Prop := ReflTransGen (Active bus)

/-- What an instruction leaves behind where it stops: a trap is entered from the counters at its
start, after quiet steps only, and the simulator gives up in a state that quiet steps lead to. -/
def Ends (s₀ : Processor σ) : Stop → Processor σ → Prop
  | .annulException, t => ∃ s id offset, Quietly bus s₀ s ∧ PSR.et s.PSR ≠ 0 ∧ id ≠ reset ∧
      id < irqLev15 ∧ t = s.enterTrap s₀.PC s₀.NPC id offset
  | _, t => Quietly bus s₀ t

/-- The instruction does what an instruction can do. -/
def Behaves (x : Behavior σ Unit) : Prop :=
  ∀ s, Runs x s (fun _ => Actively bus s) (Ends bus s)

variable {bus}

theorem runs_raise {s₀ s : Processor σ} {offset : BitVec 32} {Q : Unit → Processor σ → Prop}
    (id : BitVec 32)
    (quiet : Quietly bus s₀ s) (named : id ≠ reset) (below : id < irqLev15) :
    Runs (raiseException s₀.PC s₀.NPC id offset) s Q (Ends bus s₀) := by
  simp only [raiseException, runs_bind, runs_read, runs_ite, runs_update, runs_stop, runs_pure]
  refine ⟨fun _ => ⟨fun _ => quiet, fun none => absurd (.inl below) none⟩, fun enabled => ?_⟩
  exact ⟨s, id, offset, quiet, enabled, named, below, rfl⟩

theorem active_of_quiet {s t : Processor σ} (h : Quietly bus s t) : Actively bus s t :=
  h.lift id fun _ _ step => .quiet step

theorem quiet_advance (s : Processor σ) : Quietly bus s (s.continueAt s.NPC (s.NPC + 4)) :=
  .single (.advance s)

theorem active_advance (s : Processor σ) : Actively bus s (s.continueAt s.NPC (s.NPC + 4)) :=
  .single (.quiet (.advance s))

/-- The ways to write the condition codes. -/
def Writes (icc : Icc) : Prop :=
  ∀ result a b psr, icc result a b psr = psr ∨
    ∃ n z ov c, icc result a b psr = PSR.writeIcc psr n z ov c

theorem writes_keep : Writes iccKeep := fun _ _ _ _ => .inl rfl

theorem writes_logic : Writes iccWriteLogic := fun _ _ _ _ => .inr ⟨_, _, _, _, rfl⟩

theorem writes_add : Writes iccWriteAdd := fun _ _ _ _ => .inr ⟨_, _, _, _, rfl⟩

theorem writes_sub : Writes iccWriteSub := fun _ _ _ _ => .inr ⟨_, _, _, _, rfl⟩

theorem Actively.writeIcc {s₀ s : Processor σ} (h : Actively bus s₀ s) {icc : Icc} (writes : Writes icc)
    (result a b : BitVec 32) : Actively bus s₀ (s.setPsr (icc result a b s.PSR)) := by
  obtain same | ⟨n, z, ov, c, same⟩ := writes result a b s.PSR
  · rw [same]
    exact h
  · rw [same]
    exact h.tail (.icc s n z ov c)

/-! ## The families of instructions -/

theorem operation_behaves {icc : Icc} (writes : Writes icc)
    (f : BitVec 32 → BitVec 32 → BitVec 32 → BitVec 32)
    (second : Operand σ) (p : Params) : Behaves bus (operation f icc second p) := by
  intro s
  simp only [operation, incrementPC, readReg, Leon3.setPsr, writeReg, runs_bind, runs_read, runs_update]
  exact (Actively.writeIcc (active_advance s) writes _ _ _).tail (.register _ _ _)

theorem shiftImm_behaves (f : BitVec 32 → ℕ → BitVec 32) (p : Params) :
    Behaves bus (shiftImm (σ := σ) f p) := by
  intro s
  simp only [shiftImm, incrementPC, readReg, writeReg, runs_bind, runs_read, runs_update, runs_ite,
    runs_stop]
  exact ⟨fun _ => (active_advance s).tail (.register _ _ _), fun _ => quiet_advance s⟩

theorem taggedOperation_behaves (f : BitVec 32 → BitVec 32 → BitVec 32)
    (overflow carry : BitVec 32 → BitVec 32 → BitVec 32 → BitVec 32) (second : Operand σ) (p : Params) :
    Behaves bus (taggedOperation f overflow carry second p) := by
  intro s
  simp only [taggedOperation, incrementPC, readReg, Leon3.setPsr, writeReg, runs_bind, runs_read,
    runs_update]
  exact ((active_advance s).tail (.icc _ _ _ _ _)).tail (.register _ _ _)

theorem taggedTrap_behaves (f : BitVec 32 → BitVec 32 → BitVec 32)
    (overflow carry : BitVec 32 → BitVec 32 → BitVec 32 → BitVec 32) (second : Operand σ) (p : Params) :
    Behaves bus (taggedTrap f overflow carry second p) := by
  intro s
  simp only [taggedTrap, incrementPC, readReg, Leon3.setPsr, writeReg, runs_bind, runs_read,
    runs_update]
  split_ifs with fine trap trap
  · exact absurd trap (by simpa using fine)
  · simp only [runs_bind, runs_update]
    exact ((active_advance s).tail (.icc _ _ _ _ _)).tail (.register _ _ _)
  · rw [runs_bind]
    exact runs_raise tagOverflow (quiet_advance s) (by decide) (by decide)
  · exact absurd (by simpa using trap) fine

theorem sethi_behaves (p : Params) : Behaves bus (sethi (σ := σ) p) := by
  intro s
  simp only [sethi, incrementPC, writeReg, runs_bind, runs_update]
  exact (active_advance s).tail (.register _ _ _)

theorem multiply_behaves {icc : Icc} (writes : Writes icc) (product : BitVec 32 → BitVec 32 → BitVec 64)
    (second : Operand σ) (p : Params) : Behaves bus (multiply product icc second p) := by
  intro s
  simp only [multiply, incrementPC, readReg, Leon3.setY, stall, Leon3.setPsr, writeReg, runs_bind,
    runs_read, runs_update]
  exact (Actively.writeIcc (((active_advance s).tail (.y _ _)).tail (.quiet (.cycles _ _))) writes
    _ _ _).tail
    (.register _ _ _)

theorem mulscc_behaves (second : Operand σ) (p : Params) : Behaves bus (mulscc second p) := by
  intro s
  simp only [mulscc, incrementPC, readReg, Leon3.setY, Leon3.setPsr, writeReg, runs_bind, runs_read,
    runs_update]
  exact (Actively.writeIcc ((active_advance s).tail (.y _ _)) writes_add _ _ _).tail (.register _ _ _)

theorem divide_behaves (quotient : Quotient) (cc : Bool) (second : Operand σ) (p : Params) :
    Behaves bus (divide quotient cc second p) := by
  intro s
  have slow : Quietly bus s _ := (quiet_advance s).tail (.cycles _ (s.totalInstrCycles + 34))
  have slow' : Actively bus s _ := (active_advance s).tail
    (.quiet (.cycles _ (s.totalInstrCycles + 34)))
  simp only [divide, incrementPC, readReg, stall, runs_bind, runs_read, runs_update]
  split
  · simp only [runs_bind, runs_update]
    exact runs_raise divZero slow (by decide) (by decide)
  · cases quotient _ _ with
    | none => exact quiet_advance s
    | some answer =>
      cases cc
      · simp only [writeReg, runs_bind, runs_update]
        exact slow'.tail (.register _ _ _)
      · simp only [Leon3.setPsr, writeReg, runs_bind, runs_update, if_true]
        exact (slow'.tail (.icc _ _ _ _ _)).tail (.register _ _ _)

theorem accumulate_behaves (product : BitVec 32 → BitVec 32 → BitVec 64) (low : BitVec 32 → BitVec 64)
    (second : Operand σ) (p : Params) : Behaves bus (accumulate product low second p) := by
  intro s
  simp only [accumulate, incrementPC, readReg, Leon3.setY, Leon3.setAsr, stall, writeReg, runs_bind,
    runs_read, runs_update]
  exact ((((active_advance s).tail (.y _ _)).tail (.asr _ _ _)).tail (.quiet (.cycles _ _))).tail
    (.register _ _ _)

theorem readY_behaves (p : Params) : Behaves bus (readY (σ := σ) p) := by
  intro s
  simp only [readY, incrementPC, writeReg, runs_bind, runs_read, runs_update]
  exact (active_advance s).tail (.register _ _ _)

theorem readAsr_behaves (p : Params) : Behaves bus (readAsr (σ := σ) p) := by
  intro s
  simp only [readAsr, incrementPC, writeReg, runs_bind, runs_read, runs_update]
  exact (active_advance s).tail (.register _ _ _)

theorem readPriviledged_behaves (register : Processor σ → BitVec 32) (p : Params) :
    Behaves bus (readPriviledged register p) := by
  intro s
  simp only [readPriviledged, incrementPC, writeReg, runs_bind, runs_read, runs_update]
  split
  · rw [runs_bind]
    exact runs_raise priviledgeInstr (quiet_advance s) (by decide) (by decide)
  · exact (active_advance s).tail (.register _ _ _)

theorem writesY_behaves (second : Operand σ) (p : Params) : Behaves bus (writesY second p) := by
  intro s
  simp only [writesY, incrementPC, readReg, Leon3.setY, runs_bind, runs_read, runs_update]
  exact (active_advance s).tail (.y _ _)

theorem writesAsr_behaves (second : Operand σ) (p : Params) : Behaves bus (writesAsr second p) := by
  intro s
  simp only [writesAsr, incrementPC, readReg, Leon3.setY, Leon3.setAsr, runs_bind, runs_read,
    runs_update]
  exact ((active_advance s).tail (.y _ _)).tail (.asr _ _ _)

theorem writesPsr_behaves (second : Operand σ) (p : Params) : Behaves bus (writesPsr second p) := by
  intro s
  simp only [writesPsr, incrementPC, readReg, runs_bind, runs_read, runs_update,
    Processor.continueAt_PSR]
  by_cases user : PSR.supervisor s.PSR = 0
  · simp only [user, decide_true, Bool.true_or, Bool.not_true, Bool.false_eq_true, if_false,
      if_true, runs_bind]
    exact runs_raise priviledgeInstr (quiet_advance s) (by decide) (by decide)
  generalize (s.continueAt s.NPC (s.NPC + 4)).reg p.rs1Bit ^^^ second p
    (s.continueAt s.NPC (s.NPC + 4)) = x
  by_cases legal : 8 ≤ PSR.cwp (PSR.written x)
  · have illegal : 8 ≤ PSR.written x &&& 0x0000001f := legal
    simp only [user, illegal, decide_true, decide_false, Bool.or_true, Bool.not_true,
      Bool.false_eq_true, if_false, if_true]
    exact runs_raise illegalInstr (quiet_advance s) (by decide) (by decide)
  · have legal' : ¬ 8 ≤ PSR.written x &&& 0x0000001f := legal
    simp only [user, legal', decide_false, Bool.or_false, Bool.not_false, Bool.false_eq_true,
      if_false, if_true, runs_update, runs_pure, runs_bind]
    exact (active_advance s).tail (.psr _ x user (BitVec.not_le.mp legal))

theorem writesPriviledged_behaves {set : BitVec 32 → Processor σ → Processor σ}
    (step : ∀ s x, PSR.supervisor s.PSR ≠ 0 → Active bus s (set x s)) (second : Operand σ)
    (p : Params) :
    Behaves bus (writesPriviledged set second p) := by
  intro s
  simp only [writesPriviledged, incrementPC, readReg, runs_bind, runs_read, runs_update,
    Processor.continueAt_PSR]
  by_cases user : PSR.supervisor s.PSR = 0
  · simp only [user, decide_true, if_true, runs_bind]
    exact runs_raise priviledgeInstr (quiet_advance s) (by decide) (by decide)
  · simp only [user, decide_false, Bool.false_eq_true, if_false, Bool.not_false, if_true, runs_update]
    exact (active_advance s).tail (step _ _ user)

theorem runs_moveWindow {s : Processor σ} (newCwp : BitVec 32) {Q : Bool → Processor σ → Prop}
    {E : Stop → Processor σ → Prop} : Runs (moveWindow newCwp) s Q E ↔
      (s.windowValid newCwp → Q true ((s.updateAliases newCwp).setPsr (PSR.writeCwp s.PSR newCwp))) ∧
      (¬ s.windowValid newCwp → Q false s) := by
  simp only [moveWindow, runs_bind, runs_read, runs_ite, runs_update, runs_pure]

theorem changeWindow_behaves {change : Behavior σ Bool} {id : BitVec 32} (next : BitVec 32 → BitVec 3)
    (moves : ∀ s Q E, Runs change s Q E ↔ Runs (moveWindow ((next s.PSR).setWidth 32)) s Q E)
    (adjacent : ∀ psr, next psr = PSR.window psr + 1 ∨ next psr = PSR.window psr - 1)
    (named : id ≠ reset)
    (below : id < irqLev15) (second : Operand σ) (p : Params) :
    Behaves bus (changeWindow change id second p) := by
  intro s
  simp only [changeWindow, incrementPC, readReg, writeReg, runs_bind, runs_read, runs_update]
  rw [moves, runs_moveWindow]
  refine ⟨fun valid => ?_, fun _ => ?_⟩
  · exact ((active_advance s).tail (.move _ _ (adjacent _) valid)).tail (.register _ _ _)
  · simp only [Bool.not_false, if_true, runs_bind]
    exact runs_raise id (quiet_advance s) named below

theorem save_behaves (second : Operand σ) (p : Params) :
    Behaves bus (changeWindow decrementRegWindow windowOverflow second p) := by
  refine changeWindow_behaves (PSR.window · - 1) (fun s Q E => ?_) (fun _ => .inr rfl) (by decide)
    (by decide) second p
  simp only [decrementRegWindow, runs_bind, runs_read, PSR.previous_cwp]

theorem restore_behaves (second : Operand σ) (p : Params) :
    Behaves bus (changeWindow incrementRegWindow windowUnderflow second p) := by
  refine changeWindow_behaves (PSR.window · + 1) (fun s Q E => ?_) (fun _ => .inl rfl) (by decide)
    (by decide) second p
  simp only [incrementRegWindow, runs_bind, runs_read, PSR.next_cwp]

/-! ### Accesses to the memory -/

/-- The load is a quiet step. -/
def Loads (bus : MemoryInterface σ) {α : Type} (load : Read σ α) : Prop :=
  ∀ (s : Processor σ) (address asi : BitVec 32), Quiet bus s (s.settle (load address asi s.memory))

theorem quiet_of_request {α : Type} {s : Processor σ} {reply : Reply σ α} (r : Request)
    (same : s.settle reply = s.settle (r.on bus s.memory)) (permitted : r.Permitted s.PSR) :
    Quiet bus s (s.settle reply) :=
  same ▸ .access s r permitted

theorem loads_byteSigned : Loads bus (readByteSigned bus) :=
  fun _ address asi => quiet_of_request (.readByte address asi 0) rfl nofun

theorem loads_byte : Loads bus (readByte bus) :=
  fun _ address asi => quiet_of_request (.readByte address asi 0) rfl nofun

theorem loads_halfSigned : Loads bus (readHalfSigned bus) :=
  fun _ address asi => quiet_of_request (.readHalf address asi 0) rfl nofun

theorem loads_half : Loads bus (readHalf bus) :=
  fun _ address asi => quiet_of_request (.readHalf address asi 0) rfl nofun

theorem loads_word : Loads bus (readWord bus) :=
  fun _ address asi => quiet_of_request (.readWord address asi 0) rfl nofun

theorem loads_wordLocked : Loads bus (readWordLocked bus) :=
  fun _ address asi => quiet_of_request (.readWord address asi 1) rfl nofun

theorem loads_dword : Loads bus (readDword bus) :=
  fun _ address asi => quiet_of_request (.readDword address asi 0) rfl nofun

theorem loadByte_behaves {load : Read σ (BitVec 32)} (loads : Loads bus load) (second : Operand σ)
    (p : Params) : Behaves bus (loadByte load second p) := by
  intro s
  simp only [loadByte, effectiveAddress, readReg, access, dataAsi, incrementPC, writeReg, runs_bind,
    runs_read, runs_update, runs_perform, runs_pure]
  exact ((ReflTransGen.single (.quiet (loads s _ _))).tail (.register _ _ _)).tail (.quiet (.advance _))

theorem loadFirst_behaves {load : Read σ (BitVec 32)} (loads : Loads bus load) (mask : BitVec 32)
    (second : Operand σ) (p : Params) : Behaves bus (loadFirst mask load second p) := by
  intro s
  simp only [loadFirst, effectiveAddress, readReg, access, dataAsi, incrementPC, writeReg,
    runs_bind, runs_read, runs_perform, runs_pure]
  split
  · rw [runs_bind]
    exact runs_raise memAddrNotAligned (.single (loads s _ _)) (by decide) (by decide)
  · exact ((ReflTransGen.single (.quiet (loads s _ _))).tail (.register _ _ _)).tail
      (.quiet (.advance _))

theorem loadSignedHalf_behaves (second : Operand σ) (p : Params) :
    Behaves bus (loadSignedHalf bus second p) := by
  intro s
  simp only [loadSignedHalf, effectiveAddress, readReg, access, dataAsi, incrementPC, writeReg,
    runs_bind, runs_read, runs_pure, runs_ite]
  refine ⟨fun _ => runs_raise memAddrNotAligned .refl (by decide) (by decide), fun _ => ?_⟩
  exact ((ReflTransGen.single (.quiet (loads_halfSigned s _ _))).tail (.register _ _ _)).tail
    (.quiet (.advance _))

theorem runs_writePair {s : Processor σ} {rdBit : BitVec 5} {v : BitVec 64}
    {Q : Unit → Processor σ → Prop}
    {E : Stop → Processor σ → Prop}
    (h : ∀ i j x y, Q () ((s.setReg i x).setReg j y)) : Runs (writePair rdBit v) s Q E := by
  simp only [writePair, writeReg, runs_ite, runs_bind, runs_update]
  exact ⟨fun _ => h _ _ _ _, fun _ => h _ _ _ _⟩

theorem loadDouble_behaves (second : Operand σ) (p : Params) :
    Behaves bus (loadDouble bus second p) := by
  intro s
  simp only [loadDouble, effectiveAddress, readReg, access, dataAsi, incrementPC, stall, runs_bind,
    runs_read, runs_update, runs_perform, runs_pure, runs_ite]
  refine ⟨fun _ => runs_raise memAddrNotAligned .refl (by decide) (by decide), fun _ =>
    runs_writePair fun i j x y => ?_⟩
  exact ((((ReflTransGen.single (.quiet (loads_dword s _ _))).tail (.quiet (.cycles _ _))).tail
    (.register _ i x)).tail (.register _ j y)).tail (.quiet (.advance _))

/-- What a load does to the registers is writes. -/
def Sets (bus : MemoryInterface σ) {α : Type} (set : BitVec 5 → α → Behavior σ Unit) : Prop :=
  ∀ s i v, Runs (set i v) s (fun _ => Actively bus s) fun _ _ => False

theorem sets_register : Sets bus writeReg := fun s i v => .single (.register s i v)

theorem sets_pair : Sets bus writePair :=
  fun s _ _ => runs_writePair fun i j x y =>
    (ReflTransGen.single (.register s i x)).tail (.register _ j y)

theorem loadAlternate_behaves {α : Type} {load : Read σ α} {set : BitVec 5 → α → Behavior σ Unit}
    (loads : Loads bus load) (sets : Sets bus set) (mask : BitVec 32) (p : Params) :
    Behaves bus (loadAlternate mask load set p) := by
  intro s
  simp only [loadAlternate, effectiveAddress, readReg, access, incrementPC, runs_bind, runs_read,
    runs_perform, runs_pure]
  split
  · rw [runs_bind]
    exact runs_raise priviledgeInstr (.single (loads s _ _)) (by decide) (by decide)
  split
  · rw [runs_bind]
    exact runs_raise memAddrNotAligned (.single (loads s _ _)) (by decide) (by decide)
  simp only [runs_bind, runs_update]
  refine (sets _ _ _).mono (fun _ t set => ?_) fun _ _ none => none.elim
  exact ((ReflTransGen.single (.quiet (loads s _ _))).trans set).tail (.quiet (.advance _))

/-- The store to the data space is a quiet step where the address is aligned. -/
def Stores (bus : MemoryInterface σ) {α : Type} (mask : BitVec 32) (write : Write σ α) : Prop :=
  ∀ (s : Processor σ) (address : BitVec 32) (v : α), address &&& mask = 0 →
    Quiet bus s (s.settle (write address v (PSR.dataAsi s.PSR) s.memory))

theorem stores_byte (s : Processor σ) (address : BitVec 32) (v : BitVec 8) :
    Quiet bus s (s.settle (writeByte bus address v (PSR.dataAsi s.PSR) s.memory)) :=
  quiet_of_request (.writeByte address v _) rfl fun _ _ => .inl rfl

theorem stores_half : Stores bus 0x00000001 (writeHalf bus) :=
  fun _ address v aligned => quiet_of_request (.writeHalf address v _) rfl fun _ _ =>
    .inl ⟨rfl, aligned⟩

theorem stores_word : Stores bus 0x00000003 (writeWord bus) :=
  fun _ address v aligned => quiet_of_request (.writeWord address v _) rfl fun _ _ =>
    .inl ⟨rfl, aligned⟩

theorem stores_dword : Stores bus 0x00000007 (writeDword bus) :=
  fun _ address v aligned => quiet_of_request (.writeDword address v _) rfl fun _ _ =>
    .inl ⟨rfl, aligned⟩

theorem storeByte_behaves (second : Operand σ) (p : Params) : Behaves bus (storeByte bus second p) := by
  intro s
  simp only [storeByte, effectiveAddress, low, readReg, access, dataAsi, incrementPC, stall,
    runs_bind, runs_read, runs_update, runs_perform, runs_pure]
  exact ((ReflTransGen.single (.quiet (stores_byte s _ _))).tail (.quiet (.cycles _ _))).tail
    (.quiet (.advance _))

/-- What a store takes from the registers is a look at them, if it is defined. -/
def Looks {α : Type} (datum : BitVec 5 → Behavior σ α) : Prop :=
  ∀ s i, Runs (datum i) s (fun _ t => t = s) fun e t => e = .undefined ∧ t = s

theorem looks_low (n : ℕ) : Looks (σ := σ) (low n) := fun _ _ => rfl

theorem looks_register : Looks (σ := σ) readReg := fun _ _ => rfl

theorem looks_pair : Looks (σ := σ) pair := by
  intro s i
  simp only [pair, readReg, runs_bind, runs_read, runs_ite, runs_pure]
  exact ⟨fun _ => trivial, fun _ => trivial⟩

theorem looks_pairAlternate : Looks (σ := σ) pairAlternate := by
  intro s i
  simp only [pairAlternate, readReg]
  split
  · exact ⟨rfl, rfl⟩
  · simp only [runs_bind, runs_read, runs_ite, runs_pure]
    exact ⟨fun _ => trivial, fun _ => trivial⟩

theorem store_behaves {α : Type} {mask : BitVec 32} {cycles : ℕ} {datum : BitVec 5 → Behavior σ α}
    {write : Write σ α}
    (looks : Looks datum) (stores : Stores bus mask write) (second : Operand σ) (p : Params) :
    Behaves bus (store mask cycles datum write second p) := by
  intro s
  simp only [store, effectiveAddress, readReg, dataAsi, runs_bind, runs_read, runs_pure]
  refine (looks s _).mono (fun v t same => ?_) fun e t undefined => ?_
  · subst same
    by_cases aligned : t.reg p.rs1Bit + second p t &&& mask = 0
    · have stored := ReflTransGen.single (stores t _ v aligned)
      simp only [aligned, if_true, ne_eq, not_true_eq_false, if_false, access, stall, incrementPC,
        runs_bind, runs_read, runs_perform, runs_update]
      exact ((active_of_quiet stored).tail (.quiet (.cycles _ _))).tail (.quiet (.advance _))
    · simp only [aligned, if_false, ne_eq, not_false_eq_true, if_true, flush, stall, runs_bind,
        runs_pure, runs_update]
      exact runs_raise memAddrNotAligned (.single (.cycles _ _)) (by decide) (by decide)
  · obtain ⟨rfl, rfl⟩ := undefined
    exact .refl

theorem stbaReg_behaves (p : Params) : Behaves bus (stbaReg bus p) := by
  intro s
  simp only [stbaReg, effectiveAddress, low, readReg, runs_bind, runs_read, runs_pure]
  by_cases user : PSR.supervisor s.PSR = 0
  · simp only [user, ne_eq, not_true_eq_false, decide_false, Bool.false_eq_true, if_false, flush,
      stall, runs_bind, runs_pure, runs_update, Bool.not_false, if_true]
    exact runs_raise priviledgeInstr (.single (.cycles _ _)) (by decide) (by decide)
  · have stored : Quiet bus s (s.settle
      (writeByte bus (s.reg p.rs1Bit + rs2 p s) ((s.reg p.rdBit).setWidth 8) p.asi
        s.memory)) := quiet_of_request (.writeByte _ _ _) rfl fun _ none => absurd none user
    simp only [user, ne_eq, not_false_eq_true, decide_true, if_true, access, stall, incrementPC,
      runs_bind, runs_perform, runs_update, Bool.not_true, Bool.false_eq_true, if_false]
    exact ((ReflTransGen.single (.quiet stored)).tail (.quiet (.cycles _ _))).tail (.quiet (.advance _))

/-- The store to another space is a quiet step for the supervisor and where the address is aligned. -/
def StoresAlternate (bus : MemoryInterface σ) {α : Type} (mask : BitVec 32) (write : Write σ α) :
    Prop :=
  ∀ (s : Processor σ) (address asi : BitVec 32) (v : α), PSR.supervisor s.PSR ≠ 0 ∨
    address &&& mask = 0 →
    Quiet bus s (s.settle (write address v asi s.memory))

theorem storesAlternate_half : StoresAlternate bus 0x00000001 (writeHalf bus) :=
  fun _ address asi v guard => quiet_of_request (.writeHalf address v asi) rfl fun _ user =>
    .inr (guard.resolve_left (absurd user))

theorem storesAlternate_word : StoresAlternate bus 0x00000003 (writeWord bus) :=
  fun _ address asi v guard => quiet_of_request (.writeWord address v asi) rfl fun _ user =>
    .inr (guard.resolve_left (absurd user))

theorem storesAlternate_dword : StoresAlternate bus 0x00000003 (writeDword bus) :=
  fun _ address asi v guard => quiet_of_request (.writeDword address v asi) rfl fun _ user =>
    .inr (guard.resolve_left (absurd user))

theorem storeAlternate_behaves {α : Type} {mask : BitVec 32} {datum : BitVec 5 → Behavior σ α}
    {write : Write σ α}
    (looks : Looks datum) (stores : StoresAlternate bus mask write) (p : Params) :
    Behaves bus (storeAlternate mask datum write p) := by
  intro s
  simp only [storeAlternate, effectiveAddress, readReg, runs_bind, runs_read, runs_pure]
  refine (looks s _).mono (fun v t same => ?_) fun e t undefined => ?_
  · subst same
    -- the four cases of the mode and the alignment
    by_cases user : PSR.supervisor t.PSR = 0 <;>
      by_cases aligned : t.reg p.rs1Bit + rs2 p t &&& mask = 0
    · have stored := ReflTransGen.single (stores t _ p.asi v (.inr aligned))
      simp only [user, aligned, ne_eq, not_true_eq_false, decide_false, decide_true, Bool.or_true,
        Bool.not_false, if_true, access, stall, runs_bind, runs_perform, runs_update]
      exact runs_raise priviledgeInstr (stored.tail (.cycles _ _)) (by decide) (by decide)
    · simp only [user, aligned, ne_eq, not_true_eq_false, decide_false, Bool.or_false,
        Bool.false_eq_true, if_false,
        Bool.not_false, if_true, flush, stall, runs_bind, runs_pure, runs_update]
      exact runs_raise priviledgeInstr (.single (.cycles _ _)) (by decide) (by decide)
    · have stored := ReflTransGen.single (stores t (t.reg p.rs1Bit + rs2 p t) p.asi v (.inl user))
      simp only [user, aligned, ne_eq, not_false_eq_true, decide_true, Bool.true_or, if_true,
        Bool.not_true,
        Bool.false_eq_true, not_true_eq_false, if_false, access, stall, incrementPC, runs_bind,
          runs_perform, runs_update]
      exact ((active_of_quiet stored).tail (.quiet (.cycles _ _))).tail (.quiet (.advance _))
    · have stored := ReflTransGen.single (stores t (t.reg p.rs1Bit + rs2 p t) p.asi v (.inl user))
      simp only [user, aligned, ne_eq, not_false_eq_true, decide_true, Bool.true_or, if_true,
        Bool.not_true,
        Bool.false_eq_true, if_false, access, stall, runs_bind, runs_perform, runs_update]
      exact runs_raise memAddrNotAligned (stored.tail (.cycles _ _)) (by decide) (by decide)
  · obtain ⟨rfl, rfl⟩ := undefined
    exact .refl

theorem ldstub_behaves (second : Operand σ) (p : Params) : Behaves bus (ldstub bus second p) := by
  intro s
  simp only [ldstub, effectiveAddress, readReg, access, dataAsi, stall, incrementPC, writeReg,
    runs_bind, runs_read, runs_update, runs_perform, runs_pure]
  exact ((((ReflTransGen.single (.quiet (loads_byte s _ _))).tail (.quiet (stores_byte _ _ _))).tail
    (.quiet (.cycles _ _))).tail (.register _ _ _)).tail (.quiet (.advance _))

theorem ldstubaReg_behaves (p : Params) : Behaves bus (ldstubaReg bus p) := by
  intro s
  simp only [ldstubaReg, effectiveAddress, readReg, runs_bind, runs_read, runs_pure]
  by_cases user : PSR.supervisor s.PSR = 0
  · simp only [user, ne_eq, not_true_eq_false, decide_false, Bool.false_eq_true, if_false, stall,
      runs_bind, runs_update]
    exact runs_raise priviledgeInstr (.single (.cycles _ _)) (by decide) (by decide)
  · have stored (t : Processor σ) (same : t.PSR = s.PSR) (address : BitVec 32) :
        Quiet bus t (t.settle (writeByte bus address 0xff p.asi t.memory)) :=
      quiet_of_request (.writeByte _ _ _) rfl fun _ none => absurd (same ▸ none) user
    simp only [user, ne_eq, not_false_eq_true, decide_true, if_true, access, stall, incrementPC,
      writeReg, runs_bind, runs_perform, runs_update]
    exact ((((ReflTransGen.single (.quiet (loads_byte s _ _))).tail
      (.quiet (stored _ (Processor.settle_PSR _) _))).tail (.quiet (.cycles _ _))).tail
        (.register _ _ _)).tail
        (.quiet (.advance _))

theorem swap_behaves (second : Operand σ) (p : Params) : Behaves bus (swap bus second p) := by
  intro s
  simp only [swap, effectiveAddress, readReg, runs_bind, runs_read, runs_pure]
  by_cases aligned : s.reg p.rs1Bit + second p s &&& 0x00000003 = 0
  · simp only [aligned, ne_eq, not_true_eq_false, if_false, access, dataAsi, stall, incrementPC,
      writeReg, runs_bind, runs_read, runs_perform, runs_update]
    exact ((((ReflTransGen.single (.quiet (loads_wordLocked s _ _))).tail
      (.quiet (stores_word _ _ _ aligned))).tail
      (.quiet (.cycles _ _))).tail (.register _ _ _)).tail (.quiet (.advance _))
  · simp only [aligned, ne_eq, not_false_eq_true, if_true, stall, runs_bind, runs_update]
    exact runs_raise memAddrNotAligned (.single (.cycles _ _)) (by decide) (by decide)

theorem swapaReg_behaves (p : Params) : Behaves bus (swapaReg bus p) := by
  intro s
  simp only [swapaReg, effectiveAddress, readReg, runs_bind, runs_read, runs_pure]
  by_cases user : PSR.supervisor s.PSR = 0
  · simp only [user, ne_eq, not_true_eq_false, decide_false, Bool.not_false, if_true, stall,
      runs_bind, runs_update]
    exact runs_raise priviledgeInstr (.single (.cycles _ _)) (by decide) (by decide)
  by_cases aligned : s.reg p.rs1Bit + rs2 p s &&& 0x00000003 = 0
  · simp only [user, aligned, ne_eq, not_false_eq_true, decide_true, Bool.not_true, Bool.false_eq_true,
      not_true_eq_false, if_false, access, stall, incrementPC, writeReg, runs_bind, runs_perform,
        runs_update]
    exact ((((ReflTransGen.single (.quiet (loads_wordLocked s _ _))).tail
      (.quiet (storesAlternate_word _ _ _ _ (.inr aligned)))).tail (.quiet (.cycles _ _))).tail
        (.register _ _ _)).tail
        (.quiet (.advance _))
  · simp only [user, aligned, ne_eq, not_false_eq_true, decide_true, Bool.not_true,
      Bool.false_eq_true, if_false, if_true, stall, runs_bind, runs_update]
    exact runs_raise memAddrNotAligned (.single (.cycles _ _)) (by decide) (by decide)

/-! ### Control transfers -/

theorem aligned_iff {a : BitVec 32} : Aligned a ↔ a.toNat % 4 = 0 := by
  have low : (a &&& 0x3).toNat = a.toNat % 4 := BitField.toNat_and_lowMask a (k := 2) (by decide)
  rw [Aligned, ← low]
  exact ⟨fun none => by rw [none]; rfl, fun none => BitVec.eq_of_toNat_eq none⟩

theorem Aligned.add {a b : BitVec 32} (ha : Aligned a) (hb : Aligned b) : Aligned (a + b) := by
  rw [aligned_iff] at ha hb ⊢
  rw [BitVec.toNat_add]
  omega

theorem aligned_four_mul (x : BitVec 32) : Aligned (4 * x) := by
  have four : (4 : BitVec 32).toNat = 4 := rfl
  rw [aligned_iff, BitVec.toNat_mul, four]
  omega

theorem aligned_shiftLeft (x : BitVec 32) : Aligned (x <<< 2) := by
  rw [aligned_iff, BitVec.toNat_shiftLeft, Nat.shiftLeft_eq]
  omega

theorem Aligned.next {a : BitVec 32} (h : Aligned a) : Aligned (a + 4) := h.add rfl

theorem branch_behaves (p : Params) : Behaves bus (branch (σ := σ) p) := by
  intro s
  have goes (pc npc : BitVec 32) (aligned : Aligned s.PC → Aligned s.NPC → Aligned pc ∧ Aligned npc) :
      Actively bus s ((s.setCycles 2).continueAt pc npc) :=
    (ReflTransGen.single (.quiet (.cycles s 2))).tail (.transfer _ pc npc aligned)
  have target (here : Aligned s.PC) := here.add (aligned_four_mul (signExtend p.disp22 22))
  have taken := goes _ _ fun here next => ⟨next, target here⟩
  have untaken := goes _ _ fun _ next => ⟨next, next.next⟩
  have annulled := goes _ _ fun _ next => ⟨next.next, next.add (b := 8) rfl⟩
  have immediate := goes _ _ fun here _ => ⟨target here, (target here).next⟩
  simp only [branch, Leon3.continueAt, runs_bind, runs_read, runs_update, runs_ite]
  exact ⟨fun _ => ⟨fun _ => immediate, fun _ => taken⟩, fun _ =>
    ⟨fun _ => ⟨fun _ => annulled, fun _ => untaken⟩,
    fun _ => ⟨fun _ => taken, fun _ => ⟨fun _ => annulled, fun _ => untaken⟩⟩⟩⟩

theorem call_behaves (p : Params) : Behaves bus (call (σ := σ) p) := by
  intro s
  simp only [call, Leon3.continueAt, writeReg, runs_bind, runs_read, runs_update]
  exact (ReflTransGen.single (.transfer s _ _ fun here next =>
    ⟨next, here.add (aligned_shiftLeft _)⟩)).tail
    (.register _ _ _)

theorem jump_behaves (second : Operand σ) (p : Params) : Behaves bus (jump second p) := by
  intro s
  simp only [jump, effectiveAddress, readReg, Leon3.continueAt, stall, writeReg, runs_bind,
    runs_read, runs_update, runs_pure, runs_ite]
  refine ⟨fun _ => runs_raise memAddrNotAligned (.single (.cycles _ _)) (by decide) (by decide),
    fun aligned => ?_⟩
  have jumped : Actively bus s _ := .single (.transfer s s.NPC (s.reg p.rs1Bit + second p s)
    fun _ next => ⟨next, not_not.mp aligned⟩)
  exact (jumped.tail (.quiet (.cycles _ _))).tail (.register _ _ _)

theorem trap_behaves (second : Operand σ) (p : Params) : Behaves bus (trap second p) := by
  intro s
  simp only [trap, effectiveAddress, readReg, Leon3.continueAt, stall, runs_bind, runs_read,
    runs_update, runs_pure, runs_ite]
  refine ⟨fun _ => ?_, fun _ => active_advance s⟩
  exact runs_raise trapInstruction (.single (.cycles _ _)) (by decide) (by decide)

theorem rett_behaves (second : Operand σ) (p : Params) : Behaves bus (rett second p) := by
  intro s
  simp only [rett, effectiveAddress, readReg, runs_bind, runs_read, runs_pure]
  split
  · simp only [incrementPC, runs_bind, runs_update, runs_ite, runs_stop]
    exact ⟨fun _ => ⟨fun _ => runs_raise illegalInstr (quiet_advance s) (by decide) (by decide),
      fun _ => runs_raise priviledgeInstr (quiet_advance s) (by decide) (by decide)⟩, fun _ =>
        quiet_advance s⟩
  · rename_i allowed
    simp only [Bool.or_eq_true, Bool.not_eq_true', decide_eq_false_iff_not, decide_eq_true_eq,
      not_or, not_not, Bool.not_eq_false] at allowed
    obtain ⟨⟨⟨disabled, supervisor⟩, valid⟩, aligned⟩ := allowed
    have jumped : Actively bus s _ := (ReflTransGen.single
      (.transfer s s.NPC (s.reg p.rs1Bit + second p s)
      fun _ next => ⟨next, aligned⟩)).tail (.quiet (.cycles _ (s.totalInstrCycles + 2)))
    rw [PSR.next_cwp] at valid
    simp only [Leon3.continueAt, stall, runs_bind, runs_update, PSR.next_cwp]
    exact jumped.tail (.returned _ disabled supervisor valid)

theorem unimp_behaves (p : Params) : Behaves bus (unimp (σ := σ) p) := by
  intro s
  simp only [unimp, incrementPC, runs_bind, runs_read, runs_update]
  exact runs_raise illegalInstr (quiet_advance s) (by decide) (by decide)

theorem incrementPC_behaves : Behaves bus (incrementPC (σ := σ)) := fun s => active_advance s

theorem invalidInstr_behaves (p : Params) : Behaves bus (invalidInstr (σ := σ) p) := fun _ => .refl

/-- Every instruction does what an instruction can do. -/
theorem body_behaves (name : InstrName) (p : Params) : Behaves bus (body bus name p) := by
  cases name with
  | ldsbImm | ldsbReg => exact loadByte_behaves loads_byteSigned _ p
  | ldshImm | ldshReg => exact loadSignedHalf_behaves _ p
  | ldubImm | ldubReg => exact loadByte_behaves loads_byte _ p
  | lduhImm | lduhReg => exact loadFirst_behaves loads_half _ _ p
  | ldImm | ldReg => exact loadFirst_behaves loads_word _ _ p
  | lddImm | lddReg => exact loadDouble_behaves _ p
  | ldsbaReg => exact loadAlternate_behaves loads_byteSigned sets_register _ p
  | ldshaReg => exact loadAlternate_behaves loads_halfSigned sets_register _ p
  | ldubaReg => exact loadAlternate_behaves loads_byte sets_register _ p
  | lduhaReg => exact loadAlternate_behaves loads_half sets_register _ p
  | ldaReg => exact loadAlternate_behaves loads_word sets_register _ p
  | lddaReg => exact loadAlternate_behaves loads_dword sets_pair _ p
  | stbImm | stbReg => exact storeByte_behaves _ p
  | sthImm | sthReg => exact store_behaves (looks_low 16) stores_half _ p
  | stImm | stReg => exact store_behaves looks_register stores_word _ p
  | stdImm | stdReg => exact store_behaves looks_pair stores_dword _ p
  | stbaReg => exact stbaReg_behaves p
  | sthaReg => exact storeAlternate_behaves (looks_low 16) storesAlternate_half p
  | staReg => exact storeAlternate_behaves looks_register storesAlternate_word p
  | stdaReg => exact storeAlternate_behaves looks_pairAlternate storesAlternate_dword p
  | ldstubImm | ldstubReg => exact ldstub_behaves _ p
  | ldstubaReg => exact ldstubaReg_behaves p
  | swapImm | swapReg => exact swap_behaves _ p
  | swapaReg => exact swapaReg_behaves p
  | sethi => exact sethi_behaves p
  | andImm | andReg | andnImm | andnReg | orImm | orReg | ornImm | ornReg | xorImm | xorReg | xnorImm | xnorReg
    | sllReg | srlReg | sraReg | addImm | addReg | addxImm | addxReg | subImm | subReg | subxImm | subxReg =>
    exact operation_behaves writes_keep _ _ p
  | andccImm | andccReg | andnccImm | andnccReg | orccImm | orccReg | ornccImm | ornccReg | xorccImm | xorccReg
    | xnorccImm | xnorccReg =>
    exact operation_behaves writes_logic _ _ p
  | sllImm | srlImm | sraImm => exact shiftImm_behaves _ p
  | addccImm | addccReg | addxccImm | addxccReg => exact operation_behaves writes_add _ _ p
  | taddccImm | taddccReg | tsubccImm | tsubccReg => exact taggedOperation_behaves _ _ _ _ p
  | taddcctvImm | taddcctvReg | tsubcctvImm | tsubcctvReg => exact taggedTrap_behaves _ _ _ _ p
  | subccImm | subccReg | subxccImm | subxccReg => exact operation_behaves writes_sub _ _ p
  | mulsccImm | mulsccReg => exact mulscc_behaves _ p
  | umulImm | umulReg | smulImm | smulReg => exact multiply_behaves writes_keep _ _ p
  | umulccImm | umulccReg | smulccImm | smulccReg => exact multiply_behaves writes_logic _ _ p
  | umacImm | umacReg | smacImm | smacReg => exact accumulate_behaves _ _ _ p
  | udivImm | udivReg | sdivImm | sdivReg | udivccImm | udivccReg | sdivccImm | sdivccReg =>
    exact divide_behaves _ _ _ p
  | saveImm | saveReg => exact save_behaves _ p
  | restoreImm | restoreReg => exact restore_behaves _ p
  | branch => exact branch_behaves p
  | call => exact call_behaves p
  | jumpImm | jumpReg => exact jump_behaves _ p
  | rettImm | rettReg => exact rett_behaves _ p
  | trapImm | trapReg => exact trap_behaves _ p
  | readY => exact readY_behaves p
  | readAsr => exact readAsr_behaves p
  | readPsr | readWim | readTbr => exact readPriviledged_behaves _ p
  | writeYReg | writeYImm => exact writesY_behaves _ p
  | writeAsrReg | writeAsrImm => exact writesAsr_behaves _ p
  | writePsrReg | writePsrImm => exact writesPsr_behaves _ p
  | writeWimReg | writeWimImm => exact writesPriviledged_behaves (fun s x => .wim s x) _ p
  | writeTbrReg | writeTbrImm => exact writesPriviledged_behaves (fun s x => .tbr s x) _ p
  | stbar | flushReg | flushImm => exact incrementPC_behaves
  | unimp => exact unimp_behaves p
  | invalidInstr => exact invalidInstr_behaves p

end Socrocket.Leon3
