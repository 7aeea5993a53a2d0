/- Socrocket/MmuCache/FaultRegisters
   digest: What the fault status and address registers tell about the faults since the last read. -/

import Socrocket.Base.BitField
import Socrocket.MmuCache.PageWalk

set_option autoImplicit false
set_option relaxedAutoImplicit false

namespace Socrocket.MmuCache

open Socrocket.Base
open Socrocket.Base.BitField
open Socrocket.Base.ByteMemory
open Socrocket.Base.TableWalk

namespace Mmu

/-- Write the control register. Only three bits are writable. -/
def writeMcr (m : Mmu) (data : BitVec 32) : Mmu :=
  { m with controlReg := (m.controlReg &&& ~~~0x00008003) ||| (data &&& 0x00008003) }

/-- Write the context table pointer. -/
def writeMctpr (m : Mmu) (data : BitVec 32) : Mmu :=
  { m with contextTablePointerReg := data &&& ~~~0x3 }

/-- Write the context number. -/
def writeMctxr (m : Mmu) (data : BitVec 32) : Mmu := { m with contextReg := data }

/-- Read the fault status register. Reading clears it. -/
def readMfsr (m : Mmu) : BitVec 32 × Mmu := (m.faultStatusReg, { m with faultStatusReg := 0 })

/-- Read the fault address register. -/
def readMfar (m : Mmu) : BitVec 32 := m.faultAddressReg

end Mmu

section Faults

/-- A recorded fault: the level of the table entry that caused it, whether that entry is a page table
entry that denies the access, the access and the fault type, and the virtual address. -/
structure Fault where
  level : BitVec 2
  denied : Bool
  accessType : BitVec 3
  faultType : BitVec 3
  isInstruction : Bool
  address : BitVec 32
deriving DecidableEq

variable (cfg : MmuConfig)

/-- The fault of an access, if its page walk or its permissions make it one. -/
def faultOf (m : Mmu) (mem : Memory 32) (va asi : BitVec 32) (isWrite : Bool) : Option Fault :=
  let found := sourceWalk cfg m mem va
  let fault (denied : Bool) (faultType : BitVec 3) : Fault :=
    ⟨BitVec.ofNat 2 found.level, denied, (accessIndexOf asi isWrite).setWidth 3, faultType,
      asi &&& 0x2 = 0, va⟩
  match found.fault with
  | some ft => some (fault false (BitVec.ofNat 3 ft))
  | none =>
    if Permitted asi isWrite found.entry then none
    else some (fault true
      ((accessError (accessIndexOf asi isWrite) ((found.entry >>> 2) &&& 0x7)).setWidth 3))

/-- The level that the status register is given: none for a denied access. -/
def Fault.logged (f : Fault) : BitVec 2 := if f.denied then 0 else f.level

/-- The bits that a fault adds to the status register. -/
def Fault.word (f : Fault) : BitVec 32 :=
  placed f.accessType 5 ||| placed f.logged 8 ||| placed f.faultType 2 |||
    placed (BitVec.ofBool (!f.isInstruction)) 1

/-- The status register after a list of faults since it was clear: the overwrite bit and the bits of
all faults. -/
def statusOf (faults : List Fault) : BitVec 32 :=
  faults.foldl (fun status f => (if status = 0 then 1 else status) ||| f.word) 0

/-- The bits of a field of all faults. -/
def joined {w : ℕ} (field : Fault → BitVec w) (faults : List Fault) : BitVec w :=
  faults.foldl (fun bits f => bits ||| field f) 0

theorem joined_append {w : ℕ} (field : Fault → BitVec w) (faults : List Fault) (f : Fault) :
    joined field (faults ++ [f]) = joined field faults ||| field f := by
  rw [joined, List.foldl_append]
  rfl

theorem statusOf_append (faults : List Fault) (f : Fault) :
    statusOf (faults ++ [f]) = (if statusOf faults = 0 then 1 else statusOf faults) ||| f.word := by
  rw [statusOf, List.foldl_append]
  rfl

theorem statusOf_eq (faults : List Fault) (f : Fault) :
    statusOf (faults ++ [f]) = placed 1#1 0 ||| joined Fault.word (faults ++ [f]) := by
  induction faults using List.reverseRecOn generalizing f with
  | nil =>
    have one : (1 : BitVec 32) = placed 1#1 0 := by decide
    rw [statusOf_append, joined_append, if_pos (show statusOf [] = 0 from rfl), one]
    exact congrArg _ BitVec.zero_or.symm
  | append_singleton faults e ih =>
    have nonzero : statusOf (faults ++ [e]) ≠ 0 := by
      intro zero
      have bit := congrArg (BitVec.getLsbD · 0) (ih e |>.symm.trans zero)
      simp at bit
      exact absurd bit.1 (by decide)
    rw [statusOf_append, if_neg nonzero, ih, joined_append _ (faults ++ [e]), BitVec.or_assoc]

theorem extract_joined {start len : ℕ} {field : Fault → BitVec len}
    (part : ∀ f : Fault, f.word.extractLsb' start len = field f) (faults : List Fault) :
    (joined Fault.word faults).extractLsb' start len = joined field faults := by
  induction faults using List.reverseRecOn with
  | nil => 
    exact BitVec.extractLsb'_zero
  | append_singleton faults f ih => rw [joined_append, joined_append, BitVec.extractLsb'_or, ih, part]

theorem word_fields (f : Fault) :
    f.word.extractLsb' 0 1 = 0#1 ∧ f.word.extractLsb' 1 1 = BitVec.ofBool (!f.isInstruction) ∧
      f.word.extractLsb' 2 3 = f.faultType ∧ f.word.extractLsb' 5 3 = f.accessType ∧
      f.word.extractLsb' 8 2 = f.logged := by
  have split (start len : ℕ) : f.word.extractLsb' start len =
      (placed f.accessType 5 : BitVec 32).extractLsb' start len |||
        (placed f.logged 8 : BitVec 32).extractLsb' start len |||
        (placed f.faultType 2 : BitVec 32).extractLsb' start len |||
        (placed (BitVec.ofBool (!f.isInstruction)) 1 : BitVec 32).extractLsb' start len := by
    rw [Fault.word, BitVec.extractLsb'_or, BitVec.extractLsb'_or, BitVec.extractLsb'_or]
  refine ⟨?_, ?_, ?_, ?_, ?_⟩
  · rw [split, extract_placed_apart (.inr (by decide)), extract_placed_apart (.inr (by decide)),
      extract_placed_apart (.inr (by decide)), extract_placed_apart (.inr (by decide))]
    rfl
  · rw [split, extract_placed (by decide), extract_placed_apart (.inr (by decide)),
      extract_placed_apart (.inr (by decide)), extract_placed_apart (.inr (by decide))]
    exact BitVec.zero_or
  · rw [split, extract_placed (by decide), extract_placed_apart (.inr (by decide)),
      extract_placed_apart (.inr (by decide)), extract_placed_apart (.inl (by decide))]
    simp
  · rw [split, extract_placed (by decide), extract_placed_apart (.inr (by decide)),
      extract_placed_apart (.inl (by decide)), extract_placed_apart (.inl (by decide))]
    simp
  · rw [split, extract_placed (by decide), extract_placed_apart (.inl (by decide)),
      extract_placed_apart (.inl (by decide)), extract_placed_apart (.inl (by decide))]
    simp

/-- The status register after some faults, field by field. -/
theorem statusOf_fields (faults : List Fault) (f : Fault) :
    (statusOf (faults ++ [f])).extractLsb' 0 1 = 1#1 ∧
      (statusOf (faults ++ [f])).extractLsb' 1 1 =
        joined (fun e => BitVec.ofBool (!e.isInstruction)) (faults ++ [f]) ∧
      (statusOf (faults ++ [f])).extractLsb' 2 3 = joined Fault.faultType (faults ++ [f]) ∧
      (statusOf (faults ++ [f])).extractLsb' 5 3 = joined Fault.accessType (faults ++ [f]) ∧
      (statusOf (faults ++ [f])).extractLsb' 8 2 = joined Fault.logged (faults ++ [f]) := by
  have beside (start len : ℕ) (above : 1 ≤ start) :
      (statusOf (faults ++ [f])).extractLsb' start len =
        (joined Fault.word (faults ++ [f])).extractLsb' start len := by
    rw [statusOf_eq, BitVec.extractLsb'_or, extract_placed_apart (.inl above)]
    exact BitVec.zero_or
  refine ⟨?_, ?_, ?_, ?_, ?_⟩
  · rw [statusOf_eq, BitVec.extractLsb'_or, extract_placed (by decide),
      extract_joined fun e => (word_fields e).1]
    generalize joined (fun _ => 0#1) (faults ++ [f]) = rest
    revert rest
    decide
  · rw [beside 1 1 (by decide), extract_joined fun e => (word_fields e).2.1]
  · rw [beside 2 3 (by decide), extract_joined fun e => (word_fields e).2.2.1]
  · rw [beside 5 3 (by decide), extract_joined fun e => (word_fields e).2.2.2.1]
  · rw [beside 8 2 (by decide), extract_joined fun e => (word_fields e).2.2.2.2]

end Faults

section Recording

variable {cfg : MmuConfig} {tlbSize : ℕ} {m : Mmu} {b : AhbMemory} {va asi : BitVec 32}
  {isDbg isWrite cacheable : Bool}

private theorem accessIndexOf_narrow (asi : BitVec 32) (isWrite : Bool) :
    ((accessIndexOf asi isWrite).setWidth 3).setWidth 32 = accessIndexOf asi isWrite := by
  unfold accessIndexOf
  generalize decide (asi &&& 0x2 = 0) = instruction
  generalize decide (asi &&& 0x1 ≠ 0) = supervisor
  cases isWrite <;> cases instruction <;> cases supervisor <;> decide

private theorem accessError_narrow (asi pde : BitVec 32) (isWrite : Bool) :
    ((accessError (accessIndexOf asi isWrite) ((pde >>> 2) &&& 0x7)).setWidth 3).setWidth 32 =
      accessError (accessIndexOf asi isWrite) ((pde >>> 2) &&& 0x7) := by
  have each : ∀ a p : BitVec 3, ((accessError (a.setWidth 32) (p.setWidth 32)).setWidth 3).setWidth 32 =
      accessError (a.setWidth 32) (p.setWidth 32) := by decide
  have perms : (((pde >>> 2) &&& 0x7).setWidth 3).setWidth 32 = (pde >>> 2) &&& 0x7 := by
    refine BitVec.eq_of_toNat_eq ?_
    have small : ((pde >>> 2) &&& 0x7).toNat < 2 ^ 3 := by
      rw [show (0x7 : BitVec 32) = BitVec.ofNat 32 (2 ^ 3 - 1) from rfl,
        toNat_and_lowMask _ (by decide)]
      exact Nat.mod_lt _ (by decide)
    rw [BitVec.toNat_setWidth, BitVec.toNat_setWidth, Nat.mod_eq_of_lt small]
    exact Nat.mod_eq_of_lt (by omega)
  have both := each ((accessIndexOf asi isWrite).setWidth 3) (((pde >>> 2) &&& 0x7).setWidth 3)
  rwa [accessIndexOf_narrow, perms] at both

private theorem level_narrow (cfg : MmuConfig) (m : Mmu) (mem : Memory 32) (va : BitVec 32) :
    (BitVec.ofNat 2 (sourceWalk cfg m mem va).level).setWidth 32 =
      BitVec.ofNat 32 (sourceWalk cfg m mem va).level := by
  have le : (sourceWalk cfg m mem va).level ≤ 3 :=
    walk_level_le sparc (readWord mem) 0 (sourceIndices cfg va) m.root
  have each : ∀ k : Fin 4, (BitVec.ofNat 2 k.val).setWidth 32 = BitVec.ofNat 32 k.val := by decide
  exact each ⟨_, Nat.lt_succ_of_le le⟩

theorem sourceWalk_fault {mem : Memory 32} {ft : ℕ}
    (found : (sourceWalk cfg m mem va).fault = some ft) : ft = 1 ∨ ft = 4 := by
  refine walk_fault_rec (Q := fun ft => ft = 1 ∨ ft = 4) (fun level pde f kind => ?_) (.inr rfl) found
  unfold sparc at kind
  cases type : entryType pde with
  | invalid =>
    simp only [type, Kind.fault.injEq] at kind
    exact .inl kind.symm
  | ptd =>
    simp only [type] at kind
    cases kind
  | pte =>
    simp only [type] at kind
    split_ifs at kind
    exact .inr (Kind.fault.inj kind).symm
  | reserved =>
    simp only [type, Kind.fault.injEq] at kind
    exact .inr kind.symm

private theorem code_ne_zero (f : Fault) (some_type : f.faultType ≠ 0) :
    (placed f.logged 8 ||| placed f.faultType 2 : BitVec 32) ≠ 0 := by
  intro zero
  have field := congrArg (BitVec.extractLsb' 2 3) zero
  rw [BitVec.extractLsb'_or, extract_placed_apart (.inr (by decide)), extract_placed (by decide),
    BitVec.zero_or] at field
  exact some_type field

private theorem recordFault_placed (m : Mmu) (va asi : BitVec 32) (isWrite : Bool) (f : Fault)
    (type : f.accessType = (accessIndexOf asi isWrite).setWidth 3)
    (kind : f.isInstruction = decide (asi &&& 0x2 = 0)) (place : f.address = va) {code : BitVec 32}
    (same : code = placed f.logged 8 ||| placed f.faultType 2) :
    recordFault m va asi (accessIndexOf asi isWrite) code =
      { m with
        faultStatusReg := (if m.faultStatusReg = 0 then 1 else m.faultStatusReg) ||| f.word
        faultAddressReg := f.address } := by
  have access : accessIndexOf asi isWrite <<< 5 = placed f.accessType 5 := by
    rw [placed, type, accessIndexOf_narrow]
  have set : (1#32 <<< 1) = placed (BitVec.ofBool true) 1 := by decide
  have clear : placed (BitVec.ofBool false) 1 = 0#32 := by decide
  unfold recordFault
  dsimp only
  rw [place, access, same, Fault.word, kind]
  by_cases instruction : asi &&& 0x2 = 0
  · rw [if_pos instruction, decide_eq_true instruction, Bool.not_true, clear, BitVec.or_zero]
    simp only [BitVec.or_assoc]
  · rw [if_neg instruction, decide_eq_false instruction, Bool.not_false, set]
    simp only [BitVec.or_assoc]

theorem recordFault_eq (cfg : MmuConfig) (m : Mmu) (b : AhbMemory) (va asi : BitVec 32)
    (isDbg isWrite : Bool) :
    match faultOf cfg m b.memory va asi isWrite with
    | none => (getPhysicalAddress cfg m b va asi isDbg isWrite).errorCode = 0
    | some f => (getPhysicalAddress cfg m b va asi isDbg isWrite).errorCode ≠ 0 ∧
        recordFault m va asi (getPhysicalAddress cfg m b va asi isDbg isWrite).accessIndex
          (getPhysicalAddress cfg m b va asi isDbg isWrite).errorCode =
        { m with
          faultStatusReg := (if m.faultStatusReg = 0 then 1 else m.faultStatusReg) ||| f.word
          faultAddressReg := f.address } := by
  rw [getPhysicalAddress_eq]
  cases fault : (sourceWalk cfg m b.memory va).fault with
  | some ft =>
    simp only [faultOf, fault]
    have types := sourceWalk_fault fault
    have narrow : (BitVec.ofNat 3 ft).setWidth 32 = BitVec.ofNat 32 ft := by
      rcases types with rfl | rfl <;> decide
    have nonzero : BitVec.ofNat 3 ft ≠ 0 := by
      rcases types with rfl | rfl <;> decide
    have code : faultCode (sourceWalk cfg m b.memory va).level ft =
        placed (BitVec.ofNat 2 (sourceWalk cfg m b.memory va).level) 8 |||
          placed (BitVec.ofNat 3 ft) 2 := by
      rw [faultCode, placed, placed, level_narrow, narrow]
    refine ⟨?_, recordFault_placed m va asi isWrite _ rfl rfl rfl code⟩
    rw [code]
    exact code_ne_zero ⟨BitVec.ofNat 2 (sourceWalk cfg m b.memory va).level, false, 0, _, false, 0⟩
      nonzero
  | none =>
    simp only [faultOf, fault]
    by_cases permitted : Permitted asi isWrite (sourceWalk cfg m b.memory va).entry
    · rw [if_pos permitted]
      change accessError _ _ <<< 2 = 0
      rw [show accessError _ _ = 0 from permitted]
      rfl
    · rw [if_neg permitted]
      have narrow := accessError_narrow asi (sourceWalk cfg m b.memory va).entry isWrite
      have nonzero : (accessError (accessIndexOf asi isWrite)
          (((sourceWalk cfg m b.memory va).entry >>> 2) &&& 0x7)).setWidth 3 ≠ 0 := by
        intro zero
        rw [zero] at narrow
        exact permitted narrow.symm
      have code : accessError (accessIndexOf asi isWrite)
          (((sourceWalk cfg m b.memory va).entry >>> 2) &&& 0x7) <<< 2 =
          placed (0 : BitVec 2) 8 ||| placed ((accessError (accessIndexOf asi isWrite)
            (((sourceWalk cfg m b.memory va).entry >>> 2) &&& 0x7)).setWidth 3) 2 := by
        have none_logged : (placed (0 : BitVec 2) 8 : BitVec 32) = 0#32 := by decide
        rw [none_logged, BitVec.zero_or, placed, narrow]
      refine ⟨?_, recordFault_placed m va asi isWrite _ rfl rfl rfl code⟩
      change accessError _ _ <<< 2 ≠ 0
      rw [code]
      exact code_ne_zero ⟨0, true, 0, _, false, 0⟩ nonzero

theorem enterPte_registers (walk : PageWalk) :
    (enterPte cfg tlbSize m walk va cacheable).mmu.faultStatusReg = m.faultStatusReg ∧
      (enterPte cfg tlbSize m walk va cacheable).mmu.faultAddressReg = m.faultAddressReg := by
  have removed : (tlbRemove cfg tlbSize m).1.faultStatusReg = m.faultStatusReg ∧
      (tlbRemove cfg tlbSize m).1.faultAddressReg = m.faultAddressReg := by
    unfold tlbRemove
    dsimp only
    split_ifs with lru first
    · cases (minLru m.tlb.entries (none, 0xffffffffffffffff)).1 with
      | none => exact ⟨rfl, rfl⟩
      | some e => exact ⟨rfl, rfl⟩
    · cases m.tlb.entries.head? with
      | none => exact ⟨rfl, rfl⟩
      | some e => exact ⟨rfl, rfl⟩
    · cases m.tlb.entries.head? with
      | none => exact ⟨rfl, rfl⟩
      | some e => exact ⟨rfl, rfl⟩
  unfold enterPte
  cases entryType walk.pde with
  | pte =>
    dsimp only
    split_ifs
    · exact removed
    · exact ⟨rfl, rfl⟩
  | invalid => exact ⟨rfl, rfl⟩
  | ptd => exact ⟨rfl, rfl⟩
  | reserved => exact ⟨rfl, rfl⟩

theorem tlbLookup_registers (cfg : MmuConfig) (tlbSize : ℕ) (m : Mmu) (b : AhbMemory)
    (va asi : BitVec 32) (isDbg isWrite cacheable : Bool) :
    match faultOf cfg m b.memory va asi isWrite with
    | none =>
      (tlbLookup cfg tlbSize m b va asi isDbg isWrite cacheable).mmu.faultStatusReg = m.faultStatusReg ∧
      (tlbLookup cfg tlbSize m b va asi isDbg isWrite cacheable).mmu.faultAddressReg = m.faultAddressReg
    | some f =>
      (tlbLookup cfg tlbSize m b va asi isDbg isWrite cacheable).mmu.faultStatusReg =
        (if m.faultStatusReg = 0 then 1 else m.faultStatusReg) ||| f.word ∧
      (tlbLookup cfg tlbSize m b va asi isDbg isWrite cacheable).mmu.faultAddressReg = f.address := by
  have recorded := recordFault_eq cfg m b va asi isDbg isWrite
  unfold tlbLookup
  dsimp only
  cases fault : faultOf cfg m b.memory va asi isWrite with
  | none =>
    rw [fault] at recorded
    dsimp only at recorded ⊢
    rw [if_neg (not_not.mpr recorded)]
    exact enterPte_registers _
  | some f =>
    rw [fault] at recorded
    obtain ⟨nonzero, equal⟩ := recorded
    dsimp only
    rw [if_pos nonzero, equal]
    by_cases trapped : Trapped { m with
        faultStatusReg := (if m.faultStatusReg = 0 then 1 else m.faultStatusReg) ||| f.word
        faultAddressReg := f.address } asi
    · rw [if_pos trapped]
      exact ⟨rfl, rfl⟩
    · rw [if_neg trapped]
      exact enterPte_registers _

end Recording

section History

/-- What happens to the unit: accesses, each with the page tables it finds, and accesses to its
registers. -/
inductive MmuEvent where
  | access (b : AhbMemory) (va asi : BitVec 32) (isDbg isWrite cacheable : Bool)
  | writeMcr (data : BitVec 32)
  | writeMctpr (data : BitVec 32)
  | writeMctxr (data : BitVec 32)
  | readMfsr
  | readMfar

variable (cfg : MmuConfig)

/-- The unit and the faults recorded since the last read of the fault status register. -/
structure FaultLog where
  mmu : Mmu
  faults : List Fault

/-- Perform one event. -/
def FaultLog.step (s : FaultLog) : MmuEvent → FaultLog
  | .access b va asi isDbg isWrite cacheable =>
    ⟨(tlbLookup cfg cfg.tlbnum s.mmu b va asi isDbg isWrite cacheable).mmu,
      s.faults ++ (faultOf cfg s.mmu b.memory va asi isWrite).toList⟩
  | .writeMcr data => { s with mmu := s.mmu.writeMcr data }
  | .writeMctpr data => { s with mmu := s.mmu.writeMctpr data }
  | .writeMctxr data => { s with mmu := s.mmu.writeMctxr data }
  | .readMfsr => ⟨s.mmu.readMfsr.2, []⟩
  | .readMfar => s

/-- The unit and its faults after a history. -/
def faultLog (m : Mmu) (events : List MmuEvent) : FaultLog :=
  events.foldl (FaultLog.step cfg) ⟨m, []⟩

/-- The fault address must be valid: for a data access, and for a translation error. -/
def Fault.AddressValid (f : Fault) : Prop := f.isInstruction = false ∨ f.faultType = 4

/-- The registers tell the latest fault, and whether an earlier one of its class was lost. -/
structure TellsFault (m : Mmu) (earlier : List Fault) (f : Fault) : Prop where
  level : m.faultStatusReg.extractLsb' 8 2 = f.level
  accessType : m.faultStatusReg.extractLsb' 5 3 = f.accessType
  faultType : m.faultStatusReg.extractLsb' 2 3 = f.faultType
  valid : m.faultStatusReg.extractLsb' 1 1 = 1#1 ↔ f.AddressValid
  overwritten : m.faultStatusReg.extractLsb' 0 1 = 1#1 ↔
    ∃ e ∈ earlier, e.isInstruction = f.isInstruction
  address : m.readMfar = f.address

/-- The registers follow the faults: they tell the latest one, and a read of the status register
returns what they tell and clears it. -/
structure FollowsFaults (s : FaultLog) : Prop where
  latest : ∀ earlier f, s.faults = earlier ++ [f] → TellsFault s.mmu earlier f
  read : s.mmu.readMfsr.1 = s.mmu.faultStatusReg ∧ s.mmu.readMfsr.2.faultStatusReg = 0

/-- A fault that looks like the ones before it: one of its class came before, and joining the fields
of all of them gives its own, a denied access counting as level zero. -/
structure LooksAlike (earlier : List Fault) (f : Fault) : Prop where
  again : ∃ e ∈ earlier, e.isInstruction = f.isInstruction
  level : joined Fault.logged (earlier ++ [f]) = f.level
  accessType : joined Fault.accessType (earlier ++ [f]) = f.accessType
  faultType : joined Fault.faultType (earlier ++ [f]) = f.faultType
  valid : (∃ e ∈ earlier ++ [f], e.isInstruction = false) ↔ f.AddressValid

variable {cfg} {m : Mmu}

theorem joined_ofBool (flag : Fault → Bool) (faults : List Fault) :
    joined (fun e => BitVec.ofBool (flag e)) faults = 1#1 ↔ ∃ e ∈ faults, flag e = true := by
  induction faults using List.reverseRecOn with
  | nil =>
    constructor
    · intro set
      exact absurd (show (0 : BitVec 1) = 1#1 from set) (by decide)
    · rintro ⟨e, member, -⟩
      cases member
  | append_singleton faults f ih =>
    have bit : ∀ (x : BitVec 1) (set : Bool), x ||| BitVec.ofBool set = 1#1 ↔ x = 1#1 ∨ set = true := by
      decide
    rw [joined_append, bit, ih]
    constructor
    · rintro (⟨e, member, set⟩ | set)
      · exact ⟨e, List.mem_append_left _ member, set⟩
      · exact ⟨f, List.mem_append_right _ (List.mem_singleton_self f), set⟩
    · rintro ⟨e, member, set⟩
      rcases List.mem_append.mp member with old | new
      · exact .inl ⟨e, old, set⟩
      · exact .inr (List.mem_singleton.mp new ▸ set)

/-- The status register holds the bits of all faults since it was read, the address register the
address of the latest. -/
structure HoldsFaults (s : FaultLog) : Prop where
  status : s.mmu.faultStatusReg = statusOf s.faults
  address : ∀ earlier f, s.faults = earlier ++ [f] → s.mmu.faultAddressReg = f.address

theorem holdsFaults_step {s : FaultLog} (holds : HoldsFaults s) (e : MmuEvent) :
    HoldsFaults (s.step cfg e) := by
  cases e with
  | access b va asi isDbg isWrite cacheable =>
    have registers := tlbLookup_registers cfg cfg.tlbnum s.mmu b va asi isDbg isWrite cacheable
    cases fault : faultOf cfg s.mmu b.memory va asi isWrite with
    | none =>
      rw [fault] at registers
      rw [FaultLog.step, fault, Option.toList_none, List.append_nil]
      exact ⟨registers.1.trans holds.status, fun earlier f last =>
        registers.2.trans (holds.address earlier f last)⟩
    | some f =>
      rw [fault] at registers
      rw [FaultLog.step, fault, Option.toList_some]
      refine ⟨?_, fun earlier g last => ?_⟩
      · rw [statusOf_append, ← holds.status]
        exact registers.1
      · have same : f = g := by
          have tails := (List.append_inj' last rfl).2
          exact List.singleton_inj.mp tails
        exact same ▸ registers.2
  | writeMcr data => exact ⟨holds.status, holds.address⟩
  | writeMctpr data => exact ⟨holds.status, holds.address⟩
  | writeMctxr data => exact ⟨holds.status, holds.address⟩
  | readMfsr =>
    refine ⟨rfl, fun earlier f last => ?_⟩
    exact absurd last.symm (List.append_ne_nil_of_right_ne_nil earlier (List.cons_ne_nil f []))
  | readMfar => exact holds

theorem holdsFaults_log (cfg : MmuConfig) (clear : m.faultStatusReg = 0) (events : List MmuEvent) :
    HoldsFaults (faultLog cfg m events) := by
  induction events using List.reverseRecOn with
  | nil =>
    refine ⟨clear, fun earlier f last => ?_⟩
    exact absurd last.symm (List.append_ne_nil_of_right_ne_nil earlier (List.cons_ne_nil f []))
  | append_singleton events e ih =>
    rw [faultLog, List.foldl_append]
    exact holdsFaults_step ih e

/-- The registers tell a fault exactly when it looks like the ones before it. -/
theorem tellsFault_iff {s : FaultLog} (holds : HoldsFaults s) {earlier : List Fault} {f : Fault}
    (last : s.faults = earlier ++ [f]) : TellsFault s.mmu earlier f ↔ LooksAlike earlier f := by
  have status : s.mmu.faultStatusReg = statusOf (earlier ++ [f]) := last ▸ holds.status
  obtain ⟨overwrite, valid, faultType, accessType, level⟩ := statusOf_fields earlier f
  rw [← status] at overwrite valid faultType accessType level
  have data : joined (fun e => BitVec.ofBool (!e.isInstruction)) (earlier ++ [f]) = 1#1 ↔
      ∃ e ∈ earlier ++ [f], e.isInstruction = false := by
    rw [joined_ofBool]
    simp only [Bool.not_eq_true']
  constructor
  · intro tells
    exact ⟨tells.overwritten.mp overwrite, level ▸ tells.level, accessType ▸ tells.accessType,
      faultType ▸ tells.faultType, data.symm.trans (valid ▸ tells.valid)⟩
  · intro alike
    exact ⟨level.trans alike.level, accessType.trans alike.accessType,
      faultType.trans alike.faultType, by rw [valid, data]; exact alike.valid,
      ⟨fun _ => alike.again, fun _ => overwrite⟩, holds.address earlier f last⟩

/-- The fault registers: after every history they follow the faults exactly when the latest one since
the last read, if any, looks like the ones before it. -/
theorem fault_registers_iff (cfg : MmuConfig) (clear : m.faultStatusReg = 0)
    (events : List MmuEvent) :
    FollowsFaults (faultLog cfg m events) ↔
      ∀ earlier f, (faultLog cfg m events).faults = earlier ++ [f] → LooksAlike earlier f := by
  have holds := holdsFaults_log cfg clear events
  constructor
  · intro follows earlier f last
    exact (tellsFault_iff holds last).mp (follows.latest earlier f last)
  · intro alike
    exact ⟨fun earlier f last => (tellsFault_iff holds last).mpr (alike earlier f last), rfl, rfl⟩

/-- A user load below empty page tables. -/
def emptyTablesLoad : MmuEvent := .access ⟨fun _ => 0, [], []⟩ 0x40 0xa false false false

/-- The fault of that load: an invalid context table entry. -/
def invalidContext : Fault := ⟨0, false, 0, 1, false, 0x40⟩

/-- The second of two loads below empty tables looks like the first. -/
theorem fault_registers_twice :
    FollowsFaults (faultLog smallMmu enabledMmu [emptyTablesLoad, emptyTablesLoad]) := by
  refine (fault_registers_iff smallMmu rfl _).mpr fun earlier f last => ?_
  have faults : (faultLog smallMmu enabledMmu [emptyTablesLoad, emptyTablesLoad]).faults =
      [invalidContext] ++ [invalidContext] := by decide +kernel
  obtain ⟨rfl, tail⟩ := List.append_inj' (faults.symm.trans last) rfl
  obtain rfl := List.singleton_inj.mp tail
  refine ⟨⟨invalidContext, List.mem_singleton_self _, rfl⟩, by decide, by decide, by decide, ?_⟩
  exact ⟨fun _ => .inl rfl, fun _ => ⟨invalidContext, List.mem_cons_self .., rfl⟩⟩

/-- After a single fault the overwrite bit is set already. -/
theorem first_fault_overwrites :
    ¬ FollowsFaults (faultLog smallMmu enabledMmu [emptyTablesLoad]) := by
  intro follows
  have faults : (faultLog smallMmu enabledMmu [emptyTablesLoad]).faults = [] ++ [invalidContext] := by
    decide +kernel
  have set : (faultLog smallMmu enabledMmu [emptyTablesLoad]).mmu.faultStatusReg.extractLsb' 0 1 =
      1#1 := by decide +kernel
  obtain ⟨e, member, -⟩ := (follows.latest _ _ faults).overwritten.mp set
  cases member

end History

end Socrocket.MmuCache
