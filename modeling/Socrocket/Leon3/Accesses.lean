/- Socrocket/Leon3/Accesses
   digest: The accesses that instructions make, and passes through two interfaces that answer them alike. -/

import Socrocket.Leon3.MemoryViews

set_option autoImplicit false
set_option relaxedAutoImplicit false

namespace Socrocket.Leon3

open Base Program

variable {σ τ : Type}

/-! ## Accesses -/

/-- An access to the memory. A write comes with the word of the register that it is taken from. -/
inductive Access
  | fetch (address : BitVec 32)
  | read (len : ℕ) (address asi : BitVec 32)
  | write (len : ℕ) (address asi datum : BitVec 32)

/-- The accesses that an instruction makes, in their order. -/
def accesses (name : InstrName) (p : Params) (psr : BitVec 32) (reg : BitVec 5 → BitVec 32) :
    List Access :=
  let asi := PSR.dataAsi psr
  let supervisor := PSR.supervisor psr ≠ 0
  let a := reg p.rs1Bit + reg p.rs2Bit
  let i := reg p.rs1Bit + signExtend p.simm13 13
  let datum := reg p.rdBit
  match name with
  | .ldsbReg | .ldubReg => [.read 1 a asi]
  | .ldsbImm | .ldubImm => [.read 1 i asi]
  -- these read before they check the address
  | .lduhReg => [.read 2 a asi]
  | .lduhImm => [.read 2 i asi]
  | .ldReg => [.read 4 a asi]
  | .ldImm => [.read 4 i asi]
  | .ldshReg => if a &&& 0x00000001 = 0 then [.read 2 a asi] else []
  | .ldshImm => if i &&& 0x00000001 = 0 then [.read 2 i asi] else []
  | .lddReg => if a &&& 0x00000007 = 0 then [.read 8 a asi] else []
  | .lddImm => if i &&& 0x00000007 = 0 then [.read 8 i asi] else []
  -- these read before they check the mode
  | .ldsbaReg | .ldubaReg => [.read 1 a p.asi]
  | .ldshaReg | .lduhaReg => [.read 2 a p.asi]
  | .ldaReg => [.read 4 a p.asi]
  | .lddaReg => [.read 8 a p.asi]
  | .stbReg => [.write 1 a asi datum]
  | .stbImm => [.write 1 i asi datum]
  | .sthReg => if a &&& 0x00000001 = 0 then [.write 2 a asi datum] else []
  | .sthImm => if i &&& 0x00000001 = 0 then [.write 2 i asi datum] else []
  | .stReg => if a &&& 0x00000003 = 0 then [.write 4 a asi datum] else []
  | .stImm => if i &&& 0x00000003 = 0 then [.write 4 i asi datum] else []
  | .stdReg => if a &&& 0x00000007 = 0 then [.write 8 a asi datum] else []
  | .stdImm => if i &&& 0x00000007 = 0 then [.write 8 i asi datum] else []
  | .stbaReg => if supervisor then [.write 1 a p.asi datum] else []
  | .sthaReg => if supervisor ∨ a &&& 0x00000001 = 0 then [.write 2 a p.asi datum] else []
  | .staReg => if supervisor ∨ a &&& 0x00000003 = 0 then [.write 4 a p.asi datum] else []
  | .stdaReg => if supervisor ∨ a &&& 0x00000003 = 0 then [.write 8 a p.asi datum] else []
  | .ldstubReg => [.read 1 a asi, .write 1 a asi 0xff]
  | .ldstubImm => [.read 1 i asi, .write 1 i asi 0xff]
  | .ldstubaReg => if supervisor then [.read 1 a p.asi, .write 1 a p.asi 0xff] else []
  | .swapReg => if a &&& 0x00000003 = 0 then [.read 4 a asi, .write 4 a asi datum] else []
  | .swapImm => if i &&& 0x00000003 = 0 then [.read 4 i asi, .write 4 i asi datum] else []
  | .swapaReg => if supervisor ∧ a &&& 0x00000003 = 0 then
      [.read 4 a p.asi, .write 4 a p.asi datum] else []
  | _ => []

section Served

variable (v : σ → τ) (J : σ → Prop) (P : Access → Prop)

/-- The answers are the same, and the memories after them are still one a view of the other. -/
structure Answers {α : Type} (reply : Reply σ α) (reply' : Reply τ α) : Prop where
  value : reply'.value = reply.value
  exception : reply'.exception = reply.exception
  memory : reply'.memory = v reply.memory
  kept : J reply.memory

/-- Accesses of a kind are answered alike through both interfaces. -/
structure Serves (bus : MemoryInterface σ) (bus' : MemoryInterface τ) : Prop where
  readInstr (a psr : BitVec 32) (m : σ) (inv : J m) (permitted : P (.fetch a)) :
    Answers v J (bus.readInstr a (PSR.instrAsi psr) 0 m) (bus'.readInstr a (PSR.instrAsi psr) 0 (v m))
  readByte (a asi : BitVec 32) (m : σ) (inv : J m) (permitted : P (.read 1 a asi)) :
    Answers v J (bus.readByte a asi 0 0 m) (bus'.readByte a asi 0 0 (v m))
  readHalf (a asi : BitVec 32) (m : σ) (inv : J m) (permitted : P (.read 2 a asi)) :
    Answers v J (bus.readHalf a asi 0 0 m) (bus'.readHalf a asi 0 0 (v m))
  readWord (a asi lock : BitVec 32) (m : σ) (inv : J m) (permitted : P (.read 4 a asi)) :
    Answers v J (bus.readWord a asi 0 lock m) (bus'.readWord a asi 0 lock (v m))
  readDword (a asi : BitVec 32) (m : σ) (inv : J m) (permitted : P (.read 8 a asi)) :
    Answers v J (bus.readDword a asi 0 0 m) (bus'.readDword a asi 0 0 (v m))
  writeByte (a asi datum : BitVec 32) (x : BitVec 8) (m : σ) (inv : J m)
    (permitted : P (.write 1 a asi datum)) :
    Answers v J (bus.writeByte a x asi 0 0 m) (bus'.writeByte a x asi 0 0 (v m))
  writeHalf (a asi datum : BitVec 32) (x : BitVec 16) (m : σ) (inv : J m)
    (permitted : P (.write 2 a asi datum)) :
    Answers v J (bus.writeHalf a x asi 0 0 m) (bus'.writeHalf a x asi 0 0 (v m))
  writeWord (a asi x : BitVec 32) (m : σ) (inv : J m) (permitted : P (.write 4 a asi x)) :
    Answers v J (bus.writeWord a x asi 0 0 m) (bus'.writeWord a x asi 0 0 (v m))
  writeDword (a asi datum : BitVec 32) (x : BitVec 64) (m : σ) (inv : J m)
    (permitted : P (.write 8 a asi datum)) :
    Answers v J (bus.writeDword a x asi 0 0 m) (bus'.writeDword a x asi 0 0 (v m))

variable {v J P} {α β : Type}

theorem Answers.map {reply : Reply σ α} {reply' : Reply τ α} (h : Answers v J reply reply')
    (f : α → β) :
    Answers v J (reply.map f) (reply'.map f) :=
  ⟨congrArg f h.value, h.exception, h.memory, h.kept⟩

theorem memory_settle (s : Processor σ) (reply : Reply σ α) :
    (s.settle reply).memory = reply.memory := by
  unfold Processor.settle
  split <;> rfl

theorem reg_settle (s : Processor σ) (reply : Reply σ α) : (s.settle reply).reg = s.reg := by
  unfold Processor.settle
  split <;> rfl

theorem view_settle (s : Processor σ) {reply : Reply σ α} {reply' : Reply τ α}
    (h : Answers v J reply reply') :
    (s.view v).settle reply' = (s.settle reply).view v := by
  obtain ⟨value, exception, memory⟩ := reply
  obtain ⟨value', exception', memory'⟩ := reply'
  obtain ⟨same, raised, seen, -⟩ := h
  dsimp only at same raised seen
  subst same raised seen
  cases exception' with
  | none => rfl
  | some e => rfl

/-! ## The instructions that use the memory -/

variable (v J) in
/-- From this state the programs do the same, one in the view of the memory of the other. -/
abbrev Follows (x : Behavior σ α) (y : Behavior τ α) (s : Processor σ) : Prop :=
  Maps (Processor.view v) (fun s => J s.memory) x y s

section Steps

variable {s : Processor σ} (p : Params)

theorem follows_access {f : σ → Reply σ α} {f' : τ → Reply τ α}
    (answers : Answers v J (f s.memory) (f' (v s.memory))) :
    Follows v J (access f) (access f') s := by
  refine maps_perform (f := Processor.view v) (I := fun s => J s.memory) ?_ ?_
  · exact Prod.ext answers.value (view_settle s answers)
  · show J (s.settle (f s.memory)).memory
    rw [memory_settle]
    exact answers.kept

theorem follows_access_then {f : σ → Reply σ α} {f' : τ → Reply τ α} {g : α → Behavior σ β}
    {h : α → Behavior τ β}
    (answers : Answers v J (f s.memory) (f' (v s.memory)))
    (rest : ∀ x t, t.PSR = s.PSR → J t.memory → Follows v J (g x) (h x) t) :
    Follows v J (access f >>= g) (access f' >>= h) s :=
  maps_bind (follows_access answers) fun x t returned inv => by
    cases returned
    exact rest _ _ (Processor.settle_PSR _) inv

variable (inv : J s.memory)
include inv

theorem follows_counters {g : BitVec 32 → BitVec 32 → Behavior σ α}
    {h : BitVec 32 → BitVec 32 → Behavior τ α}
    (rest : ∀ pc npc, Follows v J (g pc npc) (h pc npc) s) :
    Follows v J (do let a ← Program.read (·.PC); let b ← Program.read (·.NPC); g a b)
      (do let a ← Program.read (·.PC); let b ← Program.read (·.NPC); h a b) s := by
  refine maps_bind (maps_read rfl inv) fun pc t returned inv => ?_
  cases returned
  refine maps_bind (maps_read rfl inv) fun npc t returned inv => ?_
  cases returned
  exact rest s.PC s.NPC

theorem follows_space {g : BitVec 32 → Behavior σ α} {h : BitVec 32 → Behavior τ α}
    (rest : Follows v J (g (PSR.dataAsi s.PSR)) (h (PSR.dataAsi s.PSR)) s) :
    Follows v J (dataAsi >>= g) (dataAsi >>= h) s :=
  maps_bind (maps_read rfl inv) fun a t returned inv => by
    cases returned
    exact rest

theorem follows_supervisor {g : Bool → Behavior σ α} {h : Bool → Behavior τ α}
    (rest : Follows v J (g (decide (PSR.supervisor s.PSR ≠ 0)))
      (h (decide (PSR.supervisor s.PSR ≠ 0))) s) :
    Follows v J (Program.read (fun s => decide (PSR.supervisor s.PSR ≠ 0)) >>= g)
      (Program.read (fun s => decide (PSR.supervisor s.PSR ≠ 0)) >>= h) s :=
  maps_bind (maps_read rfl inv) fun a t returned inv => by
    cases returned
    exact rest

theorem follows_readReg {i : BitVec 5} {g : BitVec 32 → Behavior σ α} {h : BitVec 32 → Behavior τ α}
    (rest : Follows v J (g (s.reg i)) (h (s.reg i)) s) :
    Follows v J (readReg i >>= g) (readReg i >>= h) s :=
  maps_bind (agrees_readReg i s inv) fun a t returned inv => by
    cases returned
    exact rest

variable {second : Operand σ} {second' : Operand τ} (seen : Seen v second second')
include seen

theorem follows_address {g : BitVec 32 → Behavior σ α} {h : BitVec 32 → Behavior τ α}
    (rest : Follows v J (g (s.reg p.rs1Bit + second p s)) (h (s.reg p.rs1Bit + second p s)) s) :
    Follows v J (effectiveAddress second p >>= g) (effectiveAddress second' p >>= h) s :=
  maps_bind (agrees_address p seen s inv) fun a t returned inv => by
    cases returned
    exact rest

end Steps

theorem agrees_writePair (i : BitVec 5) (x : BitVec 64) : Agrees v J (writePair i x) (writePair i x) :=
  agrees_ite (fun _ => agrees_bind (agrees_writeReg _ _) fun _ => agrees_writeReg _ _)
    fun _ => agrees_bind (agrees_writeReg _ _) fun _ => agrees_writeReg _ _

section Loads

variable {s : Processor σ} (p : Params) {second : Operand σ} {second' : Operand τ}
    (seen : Seen v second second')
  (inv : J s.memory)
include seen inv

theorem follows_loadByte {load : Read σ (BitVec 32)} {load' : Read τ (BitVec 32)}
    (answers : Answers v J (load (s.reg p.rs1Bit + second p s) (PSR.dataAsi s.PSR) s.memory)
      (load' (s.reg p.rs1Bit + second p s) (PSR.dataAsi s.PSR) (v s.memory))) :
    Follows v J (loadByte load second p) (loadByte load' second' p) s := by
  refine follows_address p inv seen (follows_space inv
    (follows_access_then answers fun x t _ inv => ?_))
  exact agrees_bind (agrees_writeReg _ _) (fun _ => agrees_incrementPC) t inv

theorem follows_loadFirst {mask : BitVec 32} {load : Read σ (BitVec 32)} {load' : Read τ (BitVec 32)}
    (answers : Answers v J (load (s.reg p.rs1Bit + second p s) (PSR.dataAsi s.PSR) s.memory)
      (load' (s.reg p.rs1Bit + second p s) (PSR.dataAsi s.PSR) (v s.memory))) :
    Follows v J (loadFirst mask load second p) (loadFirst mask load' second' p) s := by
  refine follows_counters inv fun pc npc => follows_address p inv seen (follows_space inv ?_)
  refine follows_access_then answers fun x t _ inv => ?_
  exact agrees_when (agrees_raise _ _ _ _)
    (agrees_bind (agrees_writeReg _ _) fun _ => agrees_incrementPC) t inv

variable {bus : MemoryInterface σ} {bus' : MemoryInterface τ} (serves : Serves v J P bus bus')
include serves

theorem follows_loadSignedHalf
    (permitted : s.reg p.rs1Bit + second p s &&& 0x00000001 = 0 →
      P (.read 2 (s.reg p.rs1Bit + second p s) (PSR.dataAsi s.PSR))) :
    Follows v J (loadSignedHalf bus second p) (loadSignedHalf bus' second' p) s := by
  refine follows_counters inv fun pc npc =>
    follows_address p inv seen (maps_ite (fun _ => ?_) fun aligned => ?_)
  · exact agrees_raise _ _ _ _ s inv
  · have answers := serves.readHalf _ _ s.memory inv (permitted (not_not.mp aligned))
    refine follows_space inv (follows_access_then (answers.map _) fun x t _ inv => ?_)
    exact agrees_bind (agrees_writeReg _ _) (fun _ => agrees_incrementPC) t inv

theorem follows_loadDouble
    (permitted : s.reg p.rs1Bit + second p s &&& 0x00000007 = 0 →
      P (.read 8 (s.reg p.rs1Bit + second p s) (PSR.dataAsi s.PSR))) :
    Follows v J (loadDouble bus second p) (loadDouble bus' second' p) s := by
  refine follows_counters inv fun pc npc =>
    follows_address p inv seen (maps_ite (fun _ => ?_) fun aligned => ?_)
  · exact agrees_raise _ _ _ _ s inv
  · have answers := serves.readDword _ _ s.memory inv (permitted (not_not.mp aligned))
    refine follows_space inv (follows_access_then answers fun x t _ inv => ?_)
    exact agrees_bind (agrees_stall 1) (fun _ => agrees_bind (agrees_writePair _ _) fun _ =>
      agrees_incrementPC) t inv

theorem follows_ldstub
    (permitted : P (.read 1 (s.reg p.rs1Bit + second p s) (PSR.dataAsi s.PSR)) ∧
      P (.write 1 (s.reg p.rs1Bit + second p s) (PSR.dataAsi s.PSR) 0xff)) :
    Follows v J (ldstub bus second p) (ldstub bus' second' p) s := by
  refine follows_address p inv seen (follows_space inv ?_)
  refine follows_access_then ((serves.readByte _ _ s.memory inv permitted.1).map _)
    fun x t mode inv => ?_
  refine follows_space inv ?_
  rw [mode]
  refine follows_access_then (serves.writeByte _ _ 0xff 0xff t.memory inv permitted.2)
    fun _ u _ inv => ?_
  exact agrees_bind (agrees_stall 2) (fun _ => agrees_bind (agrees_writeReg _ _) fun _ =>
    agrees_incrementPC) u inv

theorem follows_swap
    (permitted : s.reg p.rs1Bit + second p s &&& 0x00000003 = 0 →
      P (.read 4 (s.reg p.rs1Bit + second p s) (PSR.dataAsi s.PSR)) ∧
        P (.write 4 (s.reg p.rs1Bit + second p s) (PSR.dataAsi s.PSR) (s.reg p.rdBit))) :
    Follows v J (swap bus second p) (swap bus' second' p) s := by
  refine follows_counters inv fun pc npc => follows_address p inv seen (follows_readReg inv ?_)
  refine maps_ite (fun _ => ?_) fun aligned => follows_space inv ?_
  · exact agrees_bind (agrees_stall 2) (fun _ => agrees_raise _ _ _ _) s inv
  · obtain ⟨reads, writes⟩ := permitted (not_not.mp aligned)
    refine follows_access_then (serves.readWord _ _ 1 s.memory inv reads) fun x t mode inv =>
      follows_space inv ?_
    rw [mode]
    refine follows_access_then (serves.writeWord _ _ _ t.memory inv writes) fun _ u _ inv => ?_
    exact agrees_bind (agrees_stall 2) (fun _ => agrees_bind (agrees_writeReg _ _) fun _ =>
      agrees_incrementPC) u inv

end Loads

variable (v) in
/-- What is stored is the same, and reading it changes nothing. -/
def Gives (datum : BitVec 5 → Behavior σ α) (datum' : BitVec 5 → Behavior τ α) : Prop :=
  ∀ i s, Maps (Processor.view v) (· = s) (datum i) (datum' i) s

theorem gives_readReg : Gives v readReg readReg := fun _ _ => maps_read rfl rfl

theorem gives_low (n : ℕ) : Gives v (low n) (low n) :=
  fun _ _ => maps_bind (maps_read rfl rfl) fun _ _ _ same => maps_pure _ same

theorem gives_pair : Gives v pair pair := by
  intro i s
  refine maps_bind (maps_read rfl rfl) fun rd t _ same => maps_ite (fun _ => ?_) fun _ => ?_
  · exact maps_bind (maps_read rfl same) fun _ _ _ same => maps_pure _ same
  · exact maps_bind (maps_read rfl same) fun _ _ _ same => maps_pure _ same

theorem gives_pairAlternate : Gives v pairAlternate pairAlternate := by
  intro i s
  refine maps_ite (fun _ => ?_) fun _ => ?_
  · exact maps_bind (maps_stop _ rfl) fun _ _ stopped => nomatch stopped
  · refine maps_bind (maps_read rfl rfl) fun rd t _ same =>
      maps_bind (maps_read rfl same) fun above u _ same => ?_
    exact maps_ite (fun _ => maps_pure _ same) fun _ => maps_pure _ same

section Stores

variable {s : Processor σ} (p : Params) {second : Operand σ} {second' : Operand τ}
    (seen : Seen v second second')
  (inv : J s.memory)
include seen inv

theorem follows_storeByte {bus : MemoryInterface σ} {bus' : MemoryInterface τ}
    (serves : Serves v J P bus bus')
    (permitted : P (.write 1 (s.reg p.rs1Bit + second p s) (PSR.dataAsi s.PSR) (s.reg p.rdBit))) :
    Follows v J (storeByte bus second p) (storeByte bus' second' p) s := by
  refine follows_address p inv seen (maps_bind_kept (gives_low 8 _ s) inv fun x => follows_space inv ?_)
  refine follows_access_then (serves.writeByte _ _ _ x s.memory inv permitted) fun _ t _ inv => ?_
  exact agrees_bind (agrees_stall 1) (fun _ => agrees_incrementPC) t inv

theorem follows_store {mask : BitVec 32} (cycles : ℕ) {datum : BitVec 5 → Behavior σ α}
    {datum' : BitVec 5 → Behavior τ α}
    (gives : Gives v datum datum') {write : Write σ α} {write' : Write τ α}
    (stored : ∀ x, datum p.rdBit s = .ok x s → s.reg p.rs1Bit + second p s &&& mask = 0 →
      Answers v J (write (s.reg p.rs1Bit + second p s) x (PSR.dataAsi s.PSR) s.memory)
        (write' (s.reg p.rs1Bit + second p s) x (PSR.dataAsi s.PSR) (v s.memory))) :
    Follows v J (store mask cycles datum write second p)
      (store mask cycles datum' write' second' p) s := by
  refine follows_counters inv fun pc npc => follows_address p inv seen ?_
  refine maps_bind ((gives p.rdBit s).mono fun _ same => same ▸ inv) fun x t returned _ => ?_
  obtain rfl := (Runs.of_ok (gives p.rdBit s) returned).2
  have ending := agrees_bind (v := v) (J := J) (agrees_stall cycles) fun _ => agrees_when
    (c := t.reg p.rs1Bit + second p t &&& mask ≠ 0)
    (agrees_raise pc npc ExceptionId.memAddrNotAligned 0) agrees_incrementPC
  refine maps_ite (fun aligned => follows_space inv ?_) fun _ => ?_
  · exact follows_access_then (stored x returned aligned) fun _ u _ inv => ending u inv
  · exact agrees_bind (agrees_pure ()) (fun _ => ending) t inv

end Stores

/-! ## Other address spaces -/

section Alternate

variable {s : Processor σ} (p : Params) (inv : J s.memory)
include inv

theorem follows_loadAlternate {mask : BitVec 32} {load : Read σ α} {load' : Read τ α}
    {set : BitVec 5 → α → Behavior σ Unit} {set' : BitVec 5 → α → Behavior τ Unit}
    (sets : ∀ i x, Agrees v J (set i x) (set' i x))
    (answers : Answers v J (load (s.reg p.rs1Bit + s.reg p.rs2Bit) p.asi s.memory)
      (load' (s.reg p.rs1Bit + s.reg p.rs2Bit) p.asi (v s.memory))) :
    Follows v J (loadAlternate mask load set p) (loadAlternate mask load' set' p) s := by
  refine follows_counters inv fun pc npc => follows_address p inv seen_rs2 (follows_supervisor inv ?_)
  refine follows_access_then answers fun x t _ inv => agrees_when (agrees_raise _ _ _ _) ?_ t inv
  exact agrees_when (agrees_raise _ _ _ _) (agrees_bind (sets _ _) fun _ => agrees_incrementPC)

theorem follows_storeAlternate {mask : BitVec 32} {datum : BitVec 5 → Behavior σ α}
    {datum' : BitVec 5 → Behavior τ α}
    (gives : Gives v datum datum') {write : Write σ α} {write' : Write τ α}
    (stored : ∀ x, datum p.rdBit s = .ok x s →
      PSR.supervisor s.PSR ≠ 0 ∨ s.reg p.rs1Bit + s.reg p.rs2Bit &&& mask = 0 →
      Answers v J (write (s.reg p.rs1Bit + s.reg p.rs2Bit) x p.asi s.memory)
        (write' (s.reg p.rs1Bit + s.reg p.rs2Bit) x p.asi (v s.memory))) :
    Follows v J (storeAlternate mask datum write p) (storeAlternate mask datum' write' p) s := by
  refine follows_counters inv fun pc npc => follows_address p inv seen_rs2 ?_
  refine maps_bind ((gives p.rdBit s).mono fun _ same => same ▸ inv) fun x t returned _ => ?_
  obtain rfl := (Runs.of_ok (gives p.rdBit s) returned).2
  refine follows_supervisor inv ?_
  have ending := agrees_bind (v := v) (J := J) (agrees_stall 1) fun _ => agrees_when
    (c := (!decide (PSR.supervisor t.PSR ≠ 0)) = true)
    (agrees_raise pc npc ExceptionId.priviledgeInstr 0)
    (agrees_when (c := t.reg p.rs1Bit + rs2 p t &&& mask ≠ 0)
      (agrees_raise pc npc ExceptionId.memAddrNotAligned 0)
      agrees_incrementPC)
  refine maps_ite (fun made => ?_) fun _ => ?_
  · have allowed : PSR.supervisor t.PSR ≠ 0 ∨ t.reg p.rs1Bit + t.reg p.rs2Bit &&& mask = 0 := by
      show PSR.supervisor t.PSR ≠ 0 ∨ t.reg p.rs1Bit + rs2 p t &&& mask = 0
      simpa only [Bool.or_eq_true, decide_eq_true_eq] using made
    exact follows_access_then (stored x returned allowed) fun _ u _ inv => ending u inv
  · exact agrees_bind (agrees_pure ()) (fun _ => ending) t inv

variable {bus : MemoryInterface σ} {bus' : MemoryInterface τ} (serves : Serves v J P bus bus')
include serves

theorem follows_stba (permitted : PSR.supervisor s.PSR ≠ 0 →
      P (.write 1 (s.reg p.rs1Bit + s.reg p.rs2Bit) p.asi (s.reg p.rdBit))) :
    Follows v J (stbaReg bus p) (stbaReg bus' p) s := by
  refine follows_counters inv fun pc npc => follows_address p inv seen_rs2 ?_
  refine maps_bind_kept (gives_low 8 _ s) inv fun x => follows_supervisor inv ?_
  have ending := agrees_bind (v := v) (J := J) (agrees_stall 1) fun _ => agrees_when
    (c := (!decide (PSR.supervisor s.PSR ≠ 0)) = true)
    (agrees_raise pc npc ExceptionId.priviledgeInstr 0)
    agrees_incrementPC
  refine maps_ite (fun made => ?_) fun _ => ?_
  · have answers := serves.writeByte _ _ _ x s.memory inv (permitted (of_decide_eq_true made))
    exact follows_access_then answers fun _ t _ inv => ending t inv
  · exact agrees_bind (agrees_pure ()) (fun _ => ending) s inv

theorem follows_ldstuba
    (permitted : PSR.supervisor s.PSR ≠ 0 → P (.read 1 (s.reg p.rs1Bit + s.reg p.rs2Bit) p.asi) ∧
      P (.write 1 (s.reg p.rs1Bit + s.reg p.rs2Bit) p.asi 0xff)) :
    Follows v J (ldstubaReg bus p) (ldstubaReg bus' p) s := by
  refine follows_counters inv fun pc npc => follows_address p inv seen_rs2 (follows_supervisor inv ?_)
  refine maps_ite (fun made => ?_) fun _ => ?_
  · obtain ⟨reads, writes⟩ := permitted (of_decide_eq_true made)
    refine follows_access_then ((serves.readByte _ _ s.memory inv reads).map _) fun x t _ inv => ?_
    refine follows_access_then (serves.writeByte _ _ 0xff 0xff t.memory inv writes) fun _ u _ inv => ?_
    exact agrees_bind (agrees_stall 2) (fun _ => agrees_bind (agrees_writeReg _ _) fun _ =>
      agrees_incrementPC) u inv
  · exact agrees_bind (agrees_stall 2) (fun _ => agrees_raise _ _ _ _) s inv

theorem follows_swapa
    (permitted : PSR.supervisor s.PSR ≠ 0 ∧ s.reg p.rs1Bit + s.reg p.rs2Bit &&& 0x00000003 = 0 →
      P (.read 4 (s.reg p.rs1Bit + s.reg p.rs2Bit) p.asi) ∧
        P (.write 4 (s.reg p.rs1Bit + s.reg p.rs2Bit) p.asi (s.reg p.rdBit))) :
    Follows v J (swapaReg bus p) (swapaReg bus' p) s := by
  refine follows_counters inv fun pc npc => follows_address p inv seen_rs2 (follows_readReg inv ?_)
  refine follows_supervisor inv (maps_ite (fun _ => ?_) fun made =>
    maps_ite (fun _ => ?_) fun aligned => ?_)
  · exact agrees_bind (agrees_stall 2) (fun _ => agrees_raise _ _ _ _) s inv
  · exact agrees_bind (agrees_stall 2) (fun _ => agrees_raise _ _ _ _) s inv
  · have both : PSR.supervisor s.PSR ≠ 0 ∧ s.reg p.rs1Bit + s.reg p.rs2Bit &&& 0x00000003 = 0 :=
      ⟨by simpa using made, not_not.mp aligned⟩
    obtain ⟨reads, writes⟩ := permitted both
    refine follows_access_then (serves.readWord _ _ 1 s.memory inv reads) fun x t _ inv => ?_
    refine follows_access_then (serves.writeWord _ _ _ t.memory inv writes) fun _ u _ inv => ?_
    exact agrees_bind (agrees_stall 2) (fun _ => agrees_bind (agrees_writeReg _ _) fun _ =>
      agrees_incrementPC) u inv

end Alternate

/-! ## A pass -/

theorem permitted_of_ite {c : Prop} [Decidable c] {l : List Access}
    (h : ∀ x ∈ if c then l else [], P x) (holds : c) :
    ∀ x ∈ l, P x := by
  rwa [if_pos holds] at h

variable {bus : MemoryInterface σ} {bus' : MemoryInterface τ} (serves : Serves v J P bus bus')
include serves

/-- An instruction whose accesses are permitted does the same through both interfaces. -/
theorem follows_body {name : InstrName} {p : Params} {s : Processor σ}
    (permitted : ∀ x ∈ accesses name p s.PSR s.reg, P x) (inv : J s.memory) :
    Follows v J (body bus name p) (body bus' name p) s := by
  have first {x : Access} {l : List Access} (h : ∀ y ∈ x :: l, P y) : P x := h x List.mem_cons_self
  have both {x y : Access} (h : ∀ z ∈ [x, y], P z) : P x ∧ P y :=
    ⟨h x List.mem_cons_self, h y (List.mem_cons_of_mem _ (List.mem_singleton_self y))⟩
  cases name with
  | ldsbReg =>
    exact follows_loadByte p seen_rs2 inv ((serves.readByte _ _ _ inv (first permitted)).map _)
  | ldsbImm =>
    exact follows_loadByte p seen_simm13 inv ((serves.readByte _ _ _ inv (first permitted)).map _)
  | ldubReg =>
    exact follows_loadByte p seen_rs2 inv ((serves.readByte _ _ _ inv (first permitted)).map _)
  | ldubImm =>
    exact follows_loadByte p seen_simm13 inv ((serves.readByte _ _ _ inv (first permitted)).map _)
  | lduhReg =>
    exact follows_loadFirst p seen_rs2 inv ((serves.readHalf _ _ _ inv (first permitted)).map _)
  | lduhImm =>
    exact follows_loadFirst p seen_simm13 inv ((serves.readHalf _ _ _ inv (first permitted)).map _)
  | ldReg => exact follows_loadFirst p seen_rs2 inv (serves.readWord _ _ 0 _ inv (first permitted))
  | ldImm => exact follows_loadFirst p seen_simm13 inv (serves.readWord _ _ 0 _ inv (first permitted))
  | ldshReg =>
    exact follows_loadSignedHalf p seen_rs2 inv serves fun c => first (permitted_of_ite permitted c)
  | ldshImm =>
    exact follows_loadSignedHalf p seen_simm13 inv serves fun c => first (permitted_of_ite permitted c)
  | lddReg =>
    exact follows_loadDouble p seen_rs2 inv serves fun c => first (permitted_of_ite permitted c)
  | lddImm =>
    exact follows_loadDouble p seen_simm13 inv serves fun c => first (permitted_of_ite permitted c)
  | ldsbaReg | ldubaReg =>
    exact follows_loadAlternate p inv agrees_writeReg
      ((serves.readByte _ _ _ inv (first permitted)).map _)
  | ldshaReg | lduhaReg =>
    exact follows_loadAlternate p inv agrees_writeReg
      ((serves.readHalf _ _ _ inv (first permitted)).map _)
  | ldaReg =>
    exact follows_loadAlternate p inv agrees_writeReg (serves.readWord _ _ 0 _ inv (first permitted))
  | lddaReg =>
    exact follows_loadAlternate p inv agrees_writePair (serves.readDword _ _ _ inv (first permitted))
  | stbReg => exact follows_storeByte p seen_rs2 inv serves (first permitted)
  | stbImm => exact follows_storeByte p seen_simm13 inv serves (first permitted)
  | sthReg =>
    exact follows_store p seen_rs2 inv 1 (gives_low 16) fun x _ c =>
      serves.writeHalf _ _ _ x _ inv (first (permitted_of_ite permitted c))
  | sthImm =>
    exact follows_store p seen_simm13 inv 1 (gives_low 16) fun x _ c =>
      serves.writeHalf _ _ _ x _ inv (first (permitted_of_ite permitted c))
  | stReg =>
    refine follows_store p seen_rs2 inv 1 gives_readReg fun x given c => ?_
    cases given
    exact serves.writeWord _ _ _ _ inv (first (permitted_of_ite permitted c))
  | stImm =>
    refine follows_store p seen_simm13 inv 1 gives_readReg fun x given c => ?_
    cases given
    exact serves.writeWord _ _ _ _ inv (first (permitted_of_ite permitted c))
  | stdReg =>
    exact follows_store p seen_rs2 inv 2 gives_pair fun x _ c =>
      serves.writeDword _ _ _ x _ inv (first (permitted_of_ite permitted c))
  | stdImm =>
    exact follows_store p seen_simm13 inv 2 gives_pair fun x _ c =>
      serves.writeDword _ _ _ x _ inv (first (permitted_of_ite permitted c))
  | stbaReg => exact follows_stba p inv serves fun c => first (permitted_of_ite permitted c)
  | sthaReg =>
    exact follows_storeAlternate p inv (gives_low 16) fun x _ c =>
      serves.writeHalf _ _ _ x _ inv (first (permitted_of_ite permitted c))
  | staReg =>
    refine follows_storeAlternate p inv gives_readReg fun x given c => ?_
    cases given
    exact serves.writeWord _ _ _ _ inv (first (permitted_of_ite permitted c))
  | stdaReg =>
    exact follows_storeAlternate p inv gives_pairAlternate fun x _ c =>
      serves.writeDword _ _ _ x _ inv (first (permitted_of_ite permitted c))
  | ldstubReg => exact follows_ldstub p seen_rs2 inv serves (both permitted)
  | ldstubImm => exact follows_ldstub p seen_simm13 inv serves (both permitted)
  | ldstubaReg => exact follows_ldstuba p inv serves fun c => both (permitted_of_ite permitted c)
  | swapReg => exact follows_swap p seen_rs2 inv serves fun c => both (permitted_of_ite permitted c)
  | swapImm => exact follows_swap p seen_simm13 inv serves fun c => both (permitted_of_ite permitted c)
  | swapaReg => exact follows_swapa p inv serves fun c => both (permitted_of_ite permitted c)
  | sethi => exact agrees_sethi p s inv
  | andImm | andnImm | orImm | ornImm | xorImm | xnorImm | addImm | addxImm | subImm | subxImm | andccImm | andnccImm
    | orccImm | ornccImm | xorccImm | xnorccImm | addccImm | addxccImm | subccImm | subxccImm =>
    exact agrees_operation p seen_simm13 _ _ s inv
  | andReg | andnReg | orReg | ornReg | xorReg | xnorReg | sllReg | srlReg | sraReg | addReg | addxReg | subReg | subxReg
    | andccReg | andnccReg | orccReg | ornccReg | xorccReg | xnorccReg | addccReg | addxccReg | subccReg | subxccReg =>
    exact agrees_operation p seen_rs2 _ _ s inv
  | sllImm | srlImm | sraImm => exact agrees_shiftImm p _ s inv
  | taddccImm | tsubccImm => exact agrees_taggedOperation p seen_simm13 _ _ _ s inv
  | taddccReg | tsubccReg => exact agrees_taggedOperation p seen_rs2 _ _ _ s inv
  | taddcctvImm | tsubcctvImm => exact agrees_taggedTrap p seen_simm13 _ _ _ s inv
  | taddcctvReg | tsubcctvReg => exact agrees_taggedTrap p seen_rs2 _ _ _ s inv
  | mulsccImm => exact agrees_mulscc p seen_simm13 s inv
  | mulsccReg => exact agrees_mulscc p seen_rs2 s inv
  | umulImm | smulImm | umulccImm | smulccImm => exact agrees_multiply p seen_simm13 _ _ s inv
  | umulReg | smulReg | umulccReg | smulccReg => exact agrees_multiply p seen_rs2 _ _ s inv
  | umacImm | smacImm => exact agrees_accumulate p seen_simm13 _ _ s inv
  | umacReg | smacReg => exact agrees_accumulate p seen_rs2 _ _ s inv
  | udivImm | sdivImm | udivccImm | sdivccImm => exact agrees_divide p seen_simm13 _ _ s inv
  | udivReg | sdivReg | udivccReg | sdivccReg => exact agrees_divide p seen_rs2 _ _ s inv
  | saveImm => exact agrees_changeWindow p seen_simm13 agrees_decrement _ s inv
  | saveReg => exact agrees_changeWindow p seen_rs2 agrees_decrement _ s inv
  | restoreImm => exact agrees_changeWindow p seen_simm13 agrees_increment _ s inv
  | restoreReg => exact agrees_changeWindow p seen_rs2 agrees_increment _ s inv
  | branch => exact agrees_branch p s inv
  | call => exact agrees_call p s inv
  | jumpImm => exact agrees_jump p seen_simm13 s inv
  | jumpReg => exact agrees_jump p seen_rs2 s inv
  | rettImm => exact agrees_rett p seen_simm13 s inv
  | rettReg => exact agrees_rett p seen_rs2 s inv
  | trapImm => exact agrees_trap p seen_imm7 s inv
  | trapReg => exact agrees_trap p seen_rs2 s inv
  | readY => exact agrees_readY p s inv
  | readAsr => exact agrees_readAsr p s inv
  | readPsr => exact agrees_readPriviledged p seen_PSR s inv
  | readWim => exact agrees_readPriviledged p seen_WIM s inv
  | readTbr => exact agrees_readPriviledged p seen_TBR s inv
  | writeYReg => exact agrees_writesY p seen_rs2 s inv
  | writeYImm => exact agrees_writesY p seen_simm13 s inv
  | writeAsrReg => exact agrees_writesAsr p seen_rs2 s inv
  | writeAsrImm => exact agrees_writesAsr p seen_simm13 s inv
  | writePsrReg => exact agrees_writesPsr p seen_rs2 s inv
  | writePsrImm => exact agrees_writesPsr p seen_simm13 s inv
  | writeWimReg => exact agrees_writesPriviledged p seen_rs2 lifted_wim s inv
  | writeWimImm => exact agrees_writesPriviledged p seen_simm13 lifted_wim s inv
  | writeTbrReg => exact agrees_writesPriviledged p seen_rs2 lifted_tbr s inv
  | writeTbrImm => exact agrees_writesPriviledged p seen_simm13 lifted_tbr s inv
  | stbar | flushReg | flushImm => exact agrees_incrementPC s inv
  | unimp => exact agrees_unimp p s inv
  | invalidInstr => exact agrees_stop _ s inv

omit serves in
theorem agrees_takeRaised : Agrees v J takeRaised takeRaised := by
  have cleared : Lifted v (·.clearRaised) (·.clearRaised) := fun _ => ⟨rfl, rfl⟩
  refine agrees_bind (agrees_read fun _ => rfl) fun e => agrees_ite (fun _ => ?_) fun _ => agrees_pure _
  refine agrees_bind (agrees_update cleared) fun _ =>
    agrees_bind (agrees_read fun _ => rfl) fun pc => ?_
  exact agrees_bind (agrees_read fun _ => rfl) fun npc => agrees_raise _ _ _ _

omit serves in
theorem takeRaised_keeps {s t : Processor σ} (returned : takeRaised s = .ok () t) :
    t.PSR = s.PSR ∧ t.reg = s.reg := by
  have runs : Runs takeRaised s (fun _ t => t = s ∨ t = s.clearRaised) fun _ _ => True := by
    simp only [takeRaised, raiseException, runs_bind, runs_read, runs_ite, runs_update, runs_stop,
      runs_pure]
    simp
  obtain rfl | rfl := runs.of_ok returned <;> exact ⟨rfl, rfl⟩

/-- The word that a processor fetches. -/
def Processor.word (bus : MemoryInterface σ) (s : Processor σ) : BitVec 32 :=
  (bus.readInstr s.PC (PSR.instrAsi s.PSR) 0 s.memory).value

variable (P) in
/-- The accesses of a pass are permitted: no instruction is fetched, or its fetch and its accesses
are. -/
def Permitted (bus : MemoryInterface σ) (IRQ : BitVec 32) (s : Processor σ) : Prop :=
  Accepts IRQ s.PSR ∨ P (.fetch s.PC) ∧
    ∀ x ∈ accesses (Decoder.decode (s.word bus)) (setParams (s.word bus)) s.PSR s.reg, P x

theorem word_view {s : Processor σ} (inv : J s.memory) (permitted : P (.fetch s.PC)) :
    (s.view v).word bus' = s.word bus :=
  (serves.readInstr _ _ _ inv permitted).value

theorem permitted_view {IRQ : BitVec 32} {s : Processor σ} (inv : J s.memory) :
    Permitted P bus' IRQ (s.view v) ↔ Permitted P bus IRQ s := by
  refine or_congr_right (and_congr_right fun permitted => ?_)
  rw [word_view serves inv permitted]
  rfl

theorem follows_fetchExecute {s : Processor σ} (inv : J s.memory) (fetch : P (.fetch s.PC))
    (permitted : ∀ x ∈ accesses (Decoder.decode (s.word bus)) (setParams (s.word bus)) s.PSR s.reg,
      P x) :
    Follows v J (fetchExecute bus) (fetchExecute bus') s := by
  refine maps_bind (maps_read rfl inv) fun pc t returned inv => ?_
  cases returned
  refine maps_bind (maps_read rfl inv) fun asi t returned inv => ?_
  cases returned
  refine maps_bind (follows_access (serves.readInstr _ _ _ inv fetch)) fun w t returned inv => ?_
  cases returned
  refine maps_bind (agrees_takeRaised _ inv) fun _ t returned inv => ?_
  obtain ⟨mode, registers⟩ := takeRaised_keeps returned
  refine maps_bind (agrees_update (lifted_cycles 0) t inv) fun _ u returned inv => ?_
  cases returned
  refine maps_bind (follows_body serves ?_ inv) fun _ u _ inv => maps_read rfl inv
  rw [← reg_settle s (bus.readInstr s.PC (PSR.instrAsi s.PSR) 0 s.memory), ← registers,
    ← Processor.settle_PSR (bus.readInstr s.PC (PSR.instrAsi s.PSR) 0 s.memory), ← mode] at permitted
  exact permitted

/-- A pass whose accesses are permitted is the same through both interfaces. -/
theorem passResult_view {IRQ : BitVec 32} {s : Processor σ} (inv : J s.memory)
    (permitted : Permitted P bus IRQ s) :
    passResult bus' IRQ (s.view v) = (passResult bus IRQ s).map (Processor.view v) ∧
      ∀ t, passResult bus IRQ s = some t → J t.memory := by
  have maps : Follows v J (passBody bus IRQ) (passBody bus' IRQ) s := by
    refine maps_bind (maps_read rfl inv) fun accepted t returned inv => ?_
    cases returned
    refine maps_ite (fun _ => ?_) fun refused => ?_
    · refine agrees_bind (agrees_update (lifted_cycles 0))
        (fun _ => agrees_counters fun pc npc => ?_) s inv
      exact agrees_bind (agrees_raise _ _ _ _) fun _ => agrees_read fun _ => rfl
    · obtain ⟨fetch, rest⟩ := permitted.resolve_left fun accepts => refused (decide_eq_true accepts)
      exact follows_fetchExecute serves inv fetch rest
  unfold Follows Maps Runs at maps
  unfold passResult
  cases result : passBody bus IRQ s with
  | ok n t =>
    rw [result] at maps
    rw [maps.1]
    exact ⟨rfl, fun u same => Option.some.inj same ▸ maps.2⟩
  | error e t =>
    rw [result] at maps
    rw [maps.1]
    cases e with
    | annulException => exact ⟨rfl, fun u same => Option.some.inj same ▸ maps.2⟩
    | exception => exact ⟨rfl, nofun⟩
    | undefined => exact ⟨rfl, nofun⟩

end Served

end Socrocket.Leon3
