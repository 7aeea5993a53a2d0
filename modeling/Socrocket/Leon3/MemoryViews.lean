/- Socrocket/Leon3/MemoryViews
   digest: The same instructions over two memories, one of which is a view of the other. -/

import Socrocket.Leon3.MainLoop

set_option autoImplicit false
set_option relaxedAutoImplicit false

namespace Socrocket.Leon3

open Base Program

variable {σ τ : Type}

/-- The processor with its memory seen through a map. -/
def Processor.view (v : σ → τ) (s : Processor σ) : Processor τ where
  PSR := s.PSR
  WIM := s.WIM
  TBR := s.TBR
  Y := s.Y
  PC := s.PC
  NPC := s.NPC
  GLOBAL := s.GLOBAL
  WINREGS := s.WINREGS
  ASR := s.ASR
  REGS := s.REGS
  totalInstrCycles := s.totalInstrCycles
  irqAck := s.irqAck
  raisedException := s.raisedException
  raisedExceptionPC := s.raisedExceptionPC
  raisedExceptionNPC := s.raisedExceptionNPC
  memory := v s.memory

/-! ## What does not use the memory -/

section Lifted

variable (v : σ → τ)

/-- The two changes are the same, and keep the memory. -/
def Lifted (g : Processor σ → Processor σ) (g' : Processor τ → Processor τ) : Prop :=
  ∀ s, g' (s.view v) = (g s).view v ∧ (g s).memory = s.memory

variable {v}

theorem lifted_continueAt (pc npc : BitVec 32) : Lifted v (·.continueAt pc npc) (·.continueAt pc npc) :=
  fun _ => ⟨rfl, rfl⟩

theorem lifted_advance : Lifted v (fun s => s.continueAt s.NPC (s.NPC + 4)) fun s =>
    s.continueAt s.NPC (s.NPC + 4) :=
  fun _ => ⟨rfl, rfl⟩

theorem lifted_cycles (n : ℕ) : Lifted v (·.setCycles n) (·.setCycles n) := fun _ => ⟨rfl, rfl⟩

theorem lifted_stall (n : ℕ) : Lifted v (fun s => s.setCycles (s.totalInstrCycles + n)) fun s =>
    s.setCycles (s.totalInstrCycles + n) :=
  fun _ => ⟨rfl, rfl⟩

theorem lifted_y (y : BitVec 32) : Lifted v (·.setY y) (·.setY y) := fun _ => ⟨rfl, rfl⟩

theorem lifted_asr (i : BitVec 5) (x : BitVec 32) :
    Lifted v (·.setAsr i x) (·.setAsr i x) := fun _ => ⟨rfl, rfl⟩

theorem lifted_psr (f : BitVec 32 → BitVec 32) :
    Lifted v (fun s => s.setPsr (f s.PSR)) fun s => s.setPsr (f s.PSR) :=
  fun _ => ⟨rfl, rfl⟩

theorem lifted_wim (x : BitVec 32) : Lifted v (setWim x) (setWim x) := fun _ => ⟨rfl, rfl⟩

theorem lifted_tbr (x : BitVec 32) : Lifted v (setTbr x) (setTbr x) := fun _ => ⟨rfl, rfl⟩

theorem lifted_store (c : Cell) (x : BitVec 32) : Lifted v (·.store c x) (·.store c x) := by
  intro s
  cases c with
  | global k =>
    by_cases constant : k = 0
    · have same {ρ : Type} (t : Processor ρ) : t.store (.global k) x = t := if_pos constant
      simp only [same]
      trivial
    · simp only [Processor.store, if_neg constant]
      exact ⟨rfl, trivial⟩
  | window k => exact ⟨rfl, rfl⟩

theorem lifted_register (i : BitVec 5) (x : BitVec 32) : Lifted v (·.setReg i x) (·.setReg i x) :=
  fun s => lifted_store (s.REGS i) x s

theorem Lifted.comp {g h : Processor σ → Processor σ} {g' h' : Processor τ → Processor τ}
    (first : Lifted v g g')
    (second : Lifted v h h') : Lifted v (fun s => h (g s)) fun s => h' (g' s) := by
  intro s
  have one := first s
  have two := second (g s)
  exact ⟨(congrArg h' one.1).trans two.1, two.2.trans one.2⟩

theorem lifted_trapType (tt : Option (BitVec 32)) : Lifted v (·.setTrapType tt) (·.setTrapType tt) := by
  intro s
  cases tt <;> exact ⟨rfl, rfl⟩

theorem lifted_vector (id : BitVec 32) : Lifted v (·.vector id) (·.vector id) := by
  intro s
  unfold Processor.vector
  by_cases named : id = ExceptionId.reset
  · simp only [if_pos named]
    exact ⟨rfl, rfl⟩
  · simp only [if_neg named]
    exact ⟨rfl, rfl⟩

theorem lifted_acknowledge (id : BitVec 32) : Lifted v (·.acknowledge id) (·.acknowledge id) := by
  intro s
  unfold Processor.acknowledge
  by_cases interrupt : ExceptionId.trapInstruction < id ∧ id < ExceptionId.implDepExc
  · simp only [if_pos interrupt]
    exact ⟨rfl, trivial⟩
  · simp only [if_neg interrupt]
    trivial

theorem lifted_enterTrap (pc npc id offset : BitVec 32) :
    Lifted v (·.enterTrap pc npc id offset) (·.enterTrap pc npc id offset) := by
  have moved : Lifted v
      (fun s => (s.updateAliases ((PSR.cwp s.PSR - 1) % 8)).setPsr (PSR.trapped s.PSR))
      fun s => (s.updateAliases ((PSR.cwp s.PSR - 1) % 8)).setPsr (PSR.trapped s.PSR) := fun _ =>
        ⟨rfl, rfl⟩
  exact ((((moved.comp (lifted_register 17 pc)).comp (lifted_register 18 npc)).comp
    (lifted_trapType _)).comp
    (lifted_vector id)).comp (lifted_acknowledge id)

end Lifted

/-! ## Programs -/

section Agrees

variable (v : σ → τ) (J : σ → Prop)

/-- The programs do the same, one in the view of the memory of the other. -/
def Agrees {α : Type} (x : Behavior σ α) (y : Behavior τ α) : Prop :=
  ∀ s, J s.memory → Maps (Processor.view v) (fun s => J s.memory) x y s

variable {v J} {α β : Type}

theorem agrees_pure (a : α) : Agrees v J (pure a) (pure a) := fun _ inv => maps_pure a inv

theorem agrees_stop (e : Stop) : Agrees v J (Program.stop e : Behavior σ α) (Program.stop e) :=
  fun _ inv => maps_stop e inv

theorem agrees_read {g : Processor σ → α} {g' : Processor τ → α} (same : ∀ s, g' (s.view v) = g s) :
    Agrees v J (Program.read g) (Program.read g') :=
  fun s inv => maps_read (same s) inv

theorem agrees_update {g : Processor σ → Processor σ} {g' : Processor τ → Processor τ}
    (lifted : Lifted v g g') :
    Agrees v J (Program.update g) (Program.update g') :=
  fun s inv => maps_update (f := Processor.view v) (I := fun s => J s.memory) (lifted s).1
    ((lifted s).2.symm ▸ inv)

theorem agrees_bind {x : Behavior σ α} {y : Behavior τ α} {g : α → Behavior σ β} {h : α → Behavior τ β}
    (first : Agrees v J x y) (rest : ∀ a, Agrees v J (g a) (h a)) : Agrees v J (x >>= g) (y >>= h) :=
  fun s inv => maps_bind (first s inv) fun a t _ inv => rest a t inv

theorem agrees_ite {c : Prop} [Decidable c] {x x' : Behavior σ α} {y y' : Behavior τ α}
    (yes : c → Agrees v J x y)
    (no : ¬ c → Agrees v J x' y') : Agrees v J (if c then x else x') (if c then y else y') :=
  fun s inv => maps_ite (fun holds => yes holds s inv) fun fails => no fails s inv

theorem agrees_when {c : Prop} [Decidable c] {x : Behavior σ α} {y : Behavior τ α}
    {g : Behavior σ β} {h : Behavior τ β}
    (yes : Agrees v J x y) (rest : Agrees v J g h) :
    Agrees v J (if c then x >>= fun _ => g else g) (if c then y >>= fun _ => h else h) :=
  agrees_ite (fun _ => agrees_bind yes fun _ => rest) fun _ => rest

theorem agrees_incrementPC : Agrees v J incrementPC incrementPC := agrees_update lifted_advance

theorem agrees_continueAt (pc npc : BitVec 32) :
    Agrees v J (Leon3.continueAt pc npc) (Leon3.continueAt pc npc) :=
  agrees_update (lifted_continueAt pc npc)

theorem agrees_stall (n : ℕ) : Agrees v J (stall n) (stall n) := agrees_update (lifted_stall n)

theorem agrees_readReg (i : BitVec 5) : Agrees v J (readReg i) (readReg i) := agrees_read fun _ => rfl

theorem agrees_writeReg (i : BitVec 5) (x : BitVec 32) : Agrees v J (writeReg i x) (writeReg i x) :=
  agrees_update (lifted_register i x)

theorem agrees_setY (y : BitVec 32) :
    Agrees v J (Leon3.setY y) (Leon3.setY y) := agrees_update (lifted_y y)

theorem agrees_setAsr (i : BitVec 5) (x : BitVec 32) :
    Agrees v J (Leon3.setAsr i x) (Leon3.setAsr i x) :=
  agrees_update (lifted_asr i x)

theorem agrees_setPsr (f : BitVec 32 → BitVec 32) : Agrees v J (Leon3.setPsr f) (Leon3.setPsr f) :=
  agrees_update (lifted_psr f)

theorem agrees_raise (pc npc id offset : BitVec 32) :
    Agrees v J (raiseException pc npc id offset) (raiseException pc npc id offset) := by
  unfold raiseException
  refine agrees_bind (agrees_read fun _ => rfl) fun et => agrees_ite (fun _ => ?_) fun _ => ?_
  · exact agrees_ite (fun _ => agrees_stop _) fun _ => agrees_pure _
  · exact agrees_bind (agrees_update (lifted_enterTrap pc npc id offset)) fun _ => agrees_stop _

/-! ## The instructions that do not use the memory -/

/-- An operand that does not look at the memory. -/
def Seen (v : σ → τ) (second : Operand σ) (second' : Operand τ) : Prop :=
  ∀ p s, second' p (s.view v) = second p s

theorem seen_rs2 : Seen v rs2 rs2 := fun _ _ => rfl

theorem seen_simm13 : Seen v simm13 simm13 := fun _ _ => rfl

theorem seen_imm7 : Seen v imm7 imm7 := fun _ _ => rfl

variable {second : Operand σ} {second' : Operand τ} (p : Params)

theorem agrees_counters {g : BitVec 32 → BitVec 32 → Behavior σ α}
    {h : BitVec 32 → BitVec 32 → Behavior τ α}
    (rest : ∀ a b, Agrees v J (g a b) (h a b)) :
    Agrees v J (do let a ← Program.read (·.PC); let b ← Program.read (·.NPC); g a b)
      (do let a ← Program.read (·.PC); let b ← Program.read (·.NPC); h a b) :=
  agrees_bind (agrees_read fun _ => rfl) fun a => agrees_bind (agrees_read fun _ => rfl) fun b =>
    rest a b

theorem agrees_operands {g : BitVec 32 → BitVec 32 → Behavior σ α}
    {h : BitVec 32 → BitVec 32 → Behavior τ α}
    (seen : Seen v second second') (rest : ∀ a b, Agrees v J (g a b) (h a b)) :
    Agrees v J (do incrementPC; let a ← readReg p.rs1Bit; let b ← Program.read (second p); g a b)
      (do incrementPC; let a ← readReg p.rs1Bit; let b ← Program.read (second' p); h a b) := by
  refine agrees_bind agrees_incrementPC fun _ => agrees_bind (agrees_readReg _) fun a => ?_
  exact agrees_bind (agrees_read (seen p)) fun b => rest a b

theorem agrees_operation (seen : Seen v second second')
    (f : BitVec 32 → BitVec 32 → BitVec 32 → BitVec 32)
    (icc : Icc) : Agrees v J (operation f icc second p) (operation f icc second' p) := by
  refine agrees_operands p seen fun a b => agrees_bind (agrees_read fun _ => rfl) fun c => ?_
  exact agrees_bind (agrees_setPsr _) fun _ => agrees_writeReg _ _

theorem agrees_shiftImm (f : BitVec 32 → ℕ → BitVec 32) : Agrees v J (shiftImm f p) (shiftImm f p) := by
  refine agrees_bind agrees_incrementPC fun _ => agrees_bind (agrees_readReg _) fun a => ?_
  exact agrees_ite (fun _ => agrees_writeReg _ _) fun _ => agrees_stop _

theorem agrees_taggedOperation (seen : Seen v second second') (f : BitVec 32 → BitVec 32 → BitVec 32)
    (overflow carry : BitVec 32 → BitVec 32 → BitVec 32 → BitVec 32) :
    Agrees v J (taggedOperation f overflow carry second p)
      (taggedOperation f overflow carry second' p) :=
  agrees_operands p seen fun _ _ => agrees_bind (agrees_setPsr _) fun _ => agrees_writeReg _ _

theorem agrees_taggedTrap (seen : Seen v second second') (f : BitVec 32 → BitVec 32 → BitVec 32)
    (overflow carry : BitVec 32 → BitVec 32 → BitVec 32 → BitVec 32) :
    Agrees v J (taggedTrap f overflow carry second p) (taggedTrap f overflow carry second' p) := by
  refine agrees_counters fun pc npc => agrees_operands p seen fun a b => ?_
  have ending := agrees_ite (v := v) (J := J) (c := (!tagged (overflow (f a b) a b) a b) = true)
    (fun _ => agrees_writeReg p.rdBit (f a b)) fun _ => agrees_pure ()
  exact agrees_when (agrees_setPsr _) (agrees_when (agrees_raise _ _ _ _) ending)

theorem agrees_sethi : Agrees v J (sethi p) (sethi p) := agrees_bind agrees_incrementPC fun _ =>
    agrees_writeReg _ _

theorem agrees_multiply (seen : Seen v second second') (product : BitVec 32 → BitVec 32 → BitVec 64)
    (icc : Icc) :
    Agrees v J (multiply product icc second p) (multiply product icc second' p) := by
  refine agrees_operands p seen fun a b => agrees_bind (agrees_setY _) fun _ =>
    agrees_bind (agrees_stall 3) fun _ => ?_
  exact agrees_bind (agrees_setPsr _) fun _ => agrees_writeReg _ _

theorem agrees_mulscc (seen : Seen v second second') :
    Agrees v J (mulscc second p) (mulscc second' p) := by
  refine agrees_operands p seen fun a b => agrees_bind (agrees_read fun _ => rfl) fun psr => ?_
  refine agrees_bind (agrees_read fun _ => rfl) fun yOld => agrees_bind (agrees_setY _) fun _ => ?_
  exact agrees_bind (agrees_setPsr _) fun _ => agrees_writeReg _ _

theorem agrees_divide (seen : Seen v second second') (quotient : Quotient) (cc : Bool) :
    Agrees v J (divide quotient cc second p) (divide quotient cc second' p) := by
  refine agrees_counters fun pc npc => agrees_operands p seen fun a b => ?_
  refine agrees_bind (agrees_read fun _ => rfl) fun y => agrees_ite (fun _ => ?_) fun _ => ?_
  · exact agrees_bind (agrees_stall 34) fun _ => agrees_raise _ _ _ _
  · cases quotient (y ++ a) b with
    | none => exact agrees_stop _
    | some answer =>
      exact agrees_bind (agrees_stall 34) fun _ => agrees_when (agrees_setPsr _) (agrees_writeReg _ _)

theorem agrees_accumulate (seen : Seen v second second') (product : BitVec 32 → BitVec 32 → BitVec 64)
    (low : BitVec 32 → BitVec 64) : Agrees v J (accumulate product low second p)
    (accumulate product low second' p) := by
  refine agrees_operands p seen fun a b => agrees_bind (agrees_read fun _ => rfl) fun y => ?_
  refine agrees_bind (agrees_read fun _ => rfl) fun asr18 => agrees_bind (agrees_setY _) fun _ => ?_
  refine agrees_bind (agrees_setAsr _ _) fun _ => agrees_bind (agrees_stall 1) fun _ => ?_
  exact agrees_writeReg _ _

theorem agrees_readY : Agrees v J (readY p) (readY p) := by
  refine agrees_bind agrees_incrementPC fun _ => agrees_bind (agrees_read fun _ => rfl) fun y => ?_
  exact agrees_writeReg _ _

theorem agrees_readAsr : Agrees v J (readAsr p) (readAsr p) := by
  refine agrees_bind agrees_incrementPC fun _ => agrees_bind (agrees_read fun _ => rfl) fun y => ?_
  exact agrees_writeReg _ _

theorem agrees_readPriviledged {register : Processor σ → BitVec 32}
    {register' : Processor τ → BitVec 32}
    (same : ∀ s, register' (s.view v) = register s) :
    Agrees v J (readPriviledged register p) (readPriviledged register' p) := by
  refine agrees_counters fun pc npc => agrees_bind agrees_incrementPC fun _ => ?_
  refine agrees_bind (agrees_read same) fun x =>
    agrees_bind (agrees_read fun _ => rfl) fun supervisor => ?_
  exact agrees_when (agrees_raise _ _ _ _) (agrees_writeReg _ _)

theorem seen_PSR (s : Processor σ) :
    (fun t : Processor τ => t.PSR) (s.view v) = (fun t => t.PSR) s := rfl

theorem seen_WIM (s : Processor σ) :
    (fun t : Processor τ => t.WIM) (s.view v) = (fun t => t.WIM) s := rfl

theorem seen_TBR (s : Processor σ) :
    (fun t : Processor τ => t.TBR) (s.view v) = (fun t => t.TBR) s := rfl

theorem agrees_writesY (seen : Seen v second second') :
    Agrees v J (writesY second p) (writesY second' p) :=
  agrees_operands p seen fun _ _ => agrees_setY _

theorem agrees_writesAsr (seen : Seen v second second') :
    Agrees v J (writesAsr second p) (writesAsr second' p) :=
  agrees_operands p seen fun _ _ => agrees_bind (agrees_setY _) fun _ => agrees_setAsr _ _

theorem agrees_writesPsr (seen : Seen v second second') :
    Agrees v J (writesPsr second p) (writesPsr second' p) := by
  refine agrees_counters fun pc npc => agrees_operands p seen fun a b => ?_
  refine agrees_bind (agrees_read fun _ => rfl) fun user => ?_
  have written : Lifted v (fun s => (s.updateAliases (PSR.written (a ^^^ b) &&& 0x0000001f)).setPsr
    (PSR.written (a ^^^ b)))
      fun s => (s.updateAliases (PSR.written (a ^^^ b) &&& 0x0000001f)).setPsr
        (PSR.written (a ^^^ b)) :=
    fun _ => ⟨rfl, rfl⟩
  refine agrees_when (agrees_update written) (agrees_when (agrees_raise _ _ _ _) ?_)
  exact agrees_ite (fun _ => agrees_raise _ _ _ _) fun _ => agrees_pure _

theorem agrees_writesPriviledged (seen : Seen v second second')
    {set : BitVec 32 → Processor σ → Processor σ}
    {set' : BitVec 32 → Processor τ → Processor τ} (lifted : ∀ x, Lifted v (set x) (set' x)) :
    Agrees v J (writesPriviledged set second p) (writesPriviledged set' second' p) := by
  refine agrees_counters fun pc npc => agrees_operands p seen fun a b => ?_
  refine agrees_bind (agrees_read fun _ => rfl) fun raise => agrees_when (agrees_raise _ _ _ _) ?_
  exact agrees_ite (fun _ => agrees_update (lifted _)) fun _ => agrees_pure _

theorem agrees_moveWindow (newCwp : BitVec 32) :
    Agrees v J (moveWindow newCwp) (moveWindow newCwp) := by
  have moved : Lifted v (fun s => (s.updateAliases newCwp).setPsr (PSR.writeCwp s.PSR newCwp))
      fun s => (s.updateAliases newCwp).setPsr (PSR.writeCwp s.PSR newCwp) := fun _ => ⟨rfl, rfl⟩
  refine agrees_bind (agrees_read fun _ => rfl) fun valid => agrees_ite (fun _ => ?_) fun _ =>
    agrees_pure _
  exact agrees_bind (agrees_update moved) fun _ => agrees_pure _

theorem agrees_changeWindow (seen : Seen v second second') {change : Behavior σ Bool}
    {change' : Behavior τ Bool}
    (agrees : Agrees v J change change') (id : BitVec 32) :
    Agrees v J (changeWindow change id second p) (changeWindow change' id second' p) := by
  refine agrees_counters fun pc npc => agrees_operands p seen fun a b => agrees_bind agrees fun ok => ?_
  refine agrees_when (agrees_raise _ _ _ _) ?_
  exact agrees_ite (fun _ => agrees_writeReg _ _) fun _ => agrees_pure _

theorem agrees_decrement : Agrees v J decrementRegWindow decrementRegWindow := by
  unfold decrementRegWindow
  exact agrees_bind (agrees_read fun _ => rfl) fun _ => agrees_moveWindow _

theorem agrees_increment : Agrees v J incrementRegWindow incrementRegWindow := by
  unfold incrementRegWindow
  exact agrees_bind (agrees_read fun _ => rfl) fun _ => agrees_moveWindow _

theorem agrees_address (seen : Seen v second second') :
    Agrees v J (effectiveAddress second p) (effectiveAddress second' p) :=
  agrees_bind (agrees_readReg _) fun _ => agrees_bind (agrees_read (seen p)) fun _ => agrees_pure _

theorem agrees_branch : Agrees v J (branch p) (branch p) := by
  refine agrees_bind (agrees_update (lifted_cycles 2)) fun _ => agrees_counters fun pc npc => ?_
  have annulled := agrees_ite (v := v) (J := J) (c := p.a = 1)
    (fun _ => agrees_continueAt (npc + 4) (npc + 8))
    fun _ => agrees_continueAt npc (npc + 4)
  refine agrees_ite (fun _ => ?_) fun _ => agrees_ite (fun _ => annulled) fun _ => ?_
  · exact agrees_ite (fun _ => agrees_continueAt _ _) fun _ => agrees_continueAt _ _
  · refine agrees_bind (agrees_read fun _ => rfl) fun psr =>
      agrees_ite (fun _ => agrees_continueAt _ _) fun _ => ?_
    exact annulled

theorem agrees_call : Agrees v J (call p) (call p) :=
  agrees_counters fun _ _ => agrees_bind (agrees_continueAt _ _) fun _ => agrees_writeReg _ _

theorem agrees_jump (seen : Seen v second second') : Agrees v J (jump second p) (jump second' p) := by
  refine agrees_counters fun pc npc => agrees_bind (agrees_address p seen) fun target => ?_
  refine agrees_ite (fun _ => agrees_bind (agrees_stall 2) fun _ => agrees_raise _ _ _ _) fun _ => ?_
  refine agrees_bind (agrees_continueAt _ _) fun _ => agrees_bind (agrees_stall 2) fun _ => ?_
  exact agrees_writeReg _ _

theorem agrees_trap (seen : Seen v second second') : Agrees v J (trap second p) (trap second' p) := by
  refine agrees_counters fun pc npc => agrees_bind (agrees_read fun _ => rfl) fun psr => ?_
  refine agrees_ite (fun _ => agrees_bind (agrees_stall 4) fun _ => ?_) fun _ => agrees_continueAt _ _
  exact agrees_bind (agrees_address p seen) fun _ => agrees_raise _ _ _ _

theorem agrees_rett (seen : Seen v second second') : Agrees v J (rett second p) (rett second' p) := by
  refine agrees_counters fun pc npc => agrees_bind (agrees_address p seen) fun target => ?_
  refine agrees_bind (agrees_read fun _ => rfl) fun newCwp =>
    agrees_bind (agrees_read fun _ => rfl) fun enabled => ?_
  refine agrees_bind (agrees_read fun _ => rfl) fun supervisor =>
    agrees_bind (agrees_read fun _ => rfl) fun invalid => ?_
  have returned : Lifted v (fun s => (s.updateAliases newCwp).setPsr (PSR.returned s.PSR))
      fun s => (s.updateAliases newCwp).setPsr (PSR.returned s.PSR) := fun _ => ⟨rfl, rfl⟩
  refine agrees_ite (fun _ => agrees_bind agrees_incrementPC fun _ => ?_) fun _ => ?_
  · refine agrees_ite (fun _ => ?_) fun _ => agrees_stop _
    exact agrees_ite (fun _ => agrees_raise _ _ _ _) fun _ => agrees_raise _ _ _ _
  · refine agrees_bind (agrees_continueAt _ _) fun _ => agrees_bind (agrees_stall 2) fun _ => ?_
    exact agrees_update returned

theorem agrees_unimp : Agrees v J (unimp p) (unimp p) :=
  agrees_counters fun _ _ => agrees_bind agrees_incrementPC fun _ => agrees_raise _ _ _ _

end Agrees

end Socrocket.Leon3
