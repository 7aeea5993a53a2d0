/- Socrocket/MmuCache/Protection
   digest: What an access that faults in the page walk can reach. -/

import Socrocket.MmuCache.PageWalk

set_option autoImplicit false
set_option relaxedAutoImplicit false

namespace Socrocket.MmuCache

open Socrocket.Base
open Socrocket.Base.ByteMemory
open Socrocket.Base.TableWalk

variable {cfg : MmuConfig} {tlbSize : ℕ} {m : Mmu} {b : AhbMemory} {va asi : BitVec 32}
  {isDbg isWrite c : Bool}

def AhbMemory.withMemory (b : AhbMemory) (mem : Memory 32) : AhbMemory := { b with memory := mem }

def MmuSystem.withMemory (s : MmuSystem) (mem : Memory 32) : MmuSystem :=
  ⟨s.mmu, s.bus.withMemory mem⟩

/-- A read or a write through the adaptor. A write returns the data it was given. -/
def access (cfg : MmuConfig) (s : MmuSystem) (r : Request) (isWrite : Bool) (data : Buffer)
    (reply : Reply) : ReadResult MmuSystem :=
  if isWrite then
    let result := (tlbAdaptor cfg).memWrite s r data reply
    ⟨result.1, data, result.2, false⟩
  else (tlbAdaptor cfg).memRead s r data reply

/-- Two memories hold the same page tables: the bytes of all entries the walk reads. -/
def SameTables (cfg : MmuConfig) (m : Mmu) (mem mem' : Memory 32) (va : BitVec 32) : Prop :=
  ∀ p ∈ (sourceWalk cfg m mem va).trace, mem' p = mem p ∧ mem' (p + 1) = mem (p + 1) ∧
    mem' (p + 2) = mem (p + 2) ∧ mem' (p + 3) = mem (p + 3)

/-- An access reaches nothing: beyond the page table reads there is no transfer, no entry is made,
and a memory with the same page tables gives the same result and leaves the same state. -/
structure Protected (cfg : MmuConfig) (s : MmuSystem) (r : Request) (isWrite : Bool) (data : Buffer)
    (reply : Reply) : Prop where
  no_transfer : (access cfg s r isWrite data reply).state.bus.transfers = s.bus.transfers ++
    (sourceWalk cfg s.mmu s.bus.memory r.address).trace.map (tableRead r.isDbg)
  no_entry : (access cfg s r isWrite data reply).state.mmu.tlb = s.mmu.tlb
  independent : ∀ mem, SameTables cfg s.mmu s.bus.memory mem r.address →
    access cfg (s.withMemory mem) r isWrite data reply =
      { access cfg s r isWrite data reply with
        state := (access cfg s r isWrite data reply).state.withMemory mem }

section Walk

theorem sourceWalk_congr {mem mem' : Memory 32} (same : SameTables cfg m mem mem' va) :
    sourceWalk cfg m mem' va = sourceWalk cfg m mem va := by
  refine walk_congr fun p member => ?_
  obtain ⟨first, second, third, fourth⟩ := same p member
  rw [readWord, readWord, first, second, third, fourth]

theorem getPhysicalAddress_pde (cfg : MmuConfig) (m : Mmu) (b : AhbMemory) (va asi : BitVec 32)
    (isDbg isWrite : Bool) : (getPhysicalAddress cfg m b va asi isDbg isWrite).pde =
      (sourceWalk cfg m b.memory va).entry := by
  rw [getPhysicalAddress_eq]
  cases (sourceWalk cfg m b.memory va).fault with
  | some ft => rfl
  | none => rfl

theorem getPhysicalAddress_withMemory {mem : Memory 32} (same : SameTables cfg m b.memory mem va) :
    getPhysicalAddress cfg m (b.withMemory mem) va asi isDbg isWrite =
      { getPhysicalAddress cfg m b va asi isDbg isWrite with
        bus := (getPhysicalAddress cfg m b va asi isDbg isWrite).bus.withMemory mem } := by
  have walked : sourceWalk cfg m (b.withMemory mem).memory va = sourceWalk cfg m b.memory va :=
    sourceWalk_congr same
  rw [getPhysicalAddress_eq, getPhysicalAddress_eq, walked]
  cases (sourceWalk cfg m b.memory va).fault with
  | some ft => rfl
  | none => rfl

end Walk

section Lookup

theorem enterPte_withMemory (walk : PageWalk) (mem : Memory 32) :
    enterPte cfg tlbSize m { walk with bus := walk.bus.withMemory mem } va c =
      { enterPte cfg tlbSize m walk va c with
        bus := (enterPte cfg tlbSize m walk va c).bus.withMemory mem } := by
  unfold enterPte
  cases entryType walk.pde with
  | pte => rfl
  | invalid => rfl
  | ptd => rfl
  | reserved => rfl

theorem tlbLookup_withMemory {mem : Memory 32} (same : SameTables cfg m b.memory mem va) :
    tlbLookup cfg tlbSize m (b.withMemory mem) va asi isDbg isWrite c =
      { tlbLookup cfg tlbSize m b va asi isDbg isWrite c with
        bus := (tlbLookup cfg tlbSize m b va asi isDbg isWrite c).bus.withMemory mem } := by
  unfold tlbLookup
  rw [getPhysicalAddress_withMemory same]
  dsimp only
  generalize getPhysicalAddress cfg m b va asi isDbg isWrite = walk
  by_cases fault : walk.errorCode ≠ 0
  · rw [if_pos fault, if_pos fault]
    by_cases trapped : Trapped (recordFault m va asi walk.accessIndex walk.errorCode) asi
    · rw [if_pos trapped, if_pos trapped]
      rfl
    · rw [if_neg trapped, if_neg trapped]
      exact enterPte_withMemory walk mem
  · rw [if_neg fault, if_neg fault]
    exact enterPte_withMemory walk mem

private theorem enterPte_failed_iff (walk : PageWalk) :
    (enterPte cfg tlbSize m walk va c).failed = true ↔ entryType walk.pde ≠ .pte := by
  unfold enterPte
  cases entryType walk.pde with
  | pte => exact ⟨fun h => absurd h (by simp), fun h => absurd rfl h⟩
  | invalid => exact ⟨fun _ => by simp, fun _ => rfl⟩
  | ptd => exact ⟨fun _ => by simp, fun _ => rfl⟩
  | reserved => exact ⟨fun _ => by simp, fun _ => rfl⟩

private theorem enterPte_bus (walk : PageWalk) : (enterPte cfg tlbSize m walk va c).bus = walk.bus := by
  unfold enterPte
  cases entryType walk.pde with
  | pte => rfl
  | invalid => rfl
  | ptd => rfl
  | reserved => rfl

private theorem enterPte_of_failed (walk : PageWalk)
    (failed : (enterPte cfg tlbSize m walk va c).failed = true) :
    (enterPte cfg tlbSize m walk va c).mmu = m := by
  have type := (enterPte_failed_iff walk).mp failed
  unfold enterPte
  cases kind : entryType walk.pde with
  | pte => exact absurd kind type
  | invalid => rfl
  | ptd => rfl
  | reserved => rfl

/-- After a fault the lookup fails when the fault is trapped, or the walk did not end at a page table
entry. -/
theorem tlbLookup_failed_iff
    (fault : (getPhysicalAddress cfg m b va asi isDbg isWrite).errorCode ≠ 0) :
    (tlbLookup cfg tlbSize m b va asi isDbg isWrite c).failed = true ↔
      Trapped m asi ∨ entryType (sourceWalk cfg m b.memory va).entry ≠ .pte := by
  rw [← getPhysicalAddress_pde cfg m b va asi isDbg isWrite]
  unfold tlbLookup
  dsimp only
  rw [if_pos fault]
  generalize getPhysicalAddress cfg m b va asi isDbg isWrite = walk
  by_cases trapped : Trapped m asi
  · rw [if_pos (show Trapped (recordFault m va asi walk.accessIndex walk.errorCode) asi from trapped)]
    exact ⟨fun _ => .inl trapped, fun _ => rfl⟩
  · rw [if_neg (show ¬ Trapped (recordFault m va asi walk.accessIndex walk.errorCode) asi from trapped),
      enterPte_failed_iff]
    exact ⟨.inr, fun h => h.resolve_left trapped⟩

theorem tlbLookup_of_failed
    (failed : (tlbLookup cfg tlbSize m b va asi isDbg isWrite c).failed = true) :
    (tlbLookup cfg tlbSize m b va asi isDbg isWrite c).mmu.tlb = m.tlb := by
  unfold tlbLookup at failed ⊢
  dsimp only at failed ⊢
  generalize getPhysicalAddress cfg m b va asi isDbg isWrite = walk at failed ⊢
  split_ifs at failed ⊢
  · rfl
  · rfl
  · rw [enterPte_of_failed walk failed]
    rfl
  · rw [enterPte_of_failed walk failed]

theorem tlbLookup_transfers :
    (tlbLookup cfg tlbSize m b va asi isDbg isWrite c).bus.transfers = b.transfers ++
      (sourceWalk cfg m b.memory va).trace.map (tableRead isDbg) := by
  have reads := congrArg AhbMemory.transfers
    (getPhysicalAddress_bus cfg m b va asi isDbg isWrite)
  unfold tlbLookup
  dsimp only
  generalize getPhysicalAddress cfg m b va asi isDbg isWrite = walk at reads
  split_ifs
  · exact reads
  · exact reads
  · rw [enterPte_bus]
    exact reads
  · rw [enterPte_bus]
    exact reads

theorem tlbLookup_memory : (tlbLookup cfg tlbSize m b va asi isDbg isWrite c).bus.memory =
    b.memory := by
  have reads := congrArg AhbMemory.memory
    (getPhysicalAddress_bus cfg m b va asi isDbg isWrite)
  unfold tlbLookup
  dsimp only
  generalize getPhysicalAddress cfg m b va asi isDbg isWrite = walk at reads
  split_ifs
  · exact reads
  · exact reads
  · rw [enterPte_bus]
    exact reads
  · rw [enterPte_bus]
    exact reads

end Lookup

section Access

/-- The lookup of an access. -/
def accessLookup (cfg : MmuConfig) (s : MmuSystem) (r : Request) (isWrite : Bool) (reply : Reply) :
    Lookup :=
  tlbLookup cfg cfg.tlbnum s.mmu s.bus r.address r.asi r.isDbg isWrite reply.cacheable

variable {s : MmuSystem} {r : Request} {data : Buffer} {reply : Reply}

theorem access_of_failed (on : s.mmu.controlReg &&& 0x1 ≠ 0)
    (failed : (accessLookup cfg s r isWrite reply).failed = true) :
    access cfg s r isWrite data reply =
      ⟨⟨(accessLookup cfg s r isWrite reply).mmu, (accessLookup cfg s r isWrite reply).bus⟩, data,
        { reply with cacheable := (accessLookup cfg s r isWrite reply).cacheable }, false⟩ := by
  unfold accessLookup at failed ⊢
  unfold access tlbAdaptor
  cases isWrite with
  | true =>
    dsimp only
    rw [if_pos rfl, if_pos on, if_pos failed]
  | false =>
    dsimp only
    rw [if_neg (by decide), if_pos on, if_pos failed]

theorem access_of_found (on : s.mmu.controlReg &&& 0x1 ≠ 0)
    (found : (accessLookup cfg s r isWrite reply).failed ≠ true) :
    ∃ transfer, (access cfg s r isWrite data reply).state.bus.transfers =
      (accessLookup cfg s r isWrite reply).bus.transfers ++ [transfer] := by
  unfold accessLookup at found ⊢
  unfold access tlbAdaptor
  cases isWrite with
  | true =>
    dsimp only
    rw [if_pos rfl, if_pos on, if_neg found]
    exact ⟨_, rfl⟩
  | false =>
    dsimp only
    rw [if_neg (by decide), if_pos on, if_neg found]
    exact ⟨_, rfl⟩

/-- An access that faults in the page walk is kept from memory exactly when the fault is trapped or
the walk did not end at a page table entry. -/
theorem protected_iff (cfg : MmuConfig) (s : MmuSystem) (r : Request) (isWrite : Bool) (data : Buffer)
    (reply : Reply) (on : s.mmu.controlReg &&& 0x1 ≠ 0)
    (fault : (getPhysicalAddress cfg s.mmu s.bus r.address r.asi r.isDbg isWrite).errorCode ≠ 0) :
    Protected cfg s r isWrite data reply ↔
      Trapped s.mmu r.asi ∨ entryType (sourceWalk cfg s.mmu s.bus.memory r.address).entry ≠ .pte := by
  have failed_iff : (accessLookup cfg s r isWrite reply).failed = true ↔ _ := tlbLookup_failed_iff fault
  have reads : (accessLookup cfg s r isWrite reply).bus.transfers = _ := tlbLookup_transfers
  constructor
  · intro kept
    by_contra open_case
    obtain ⟨transfer, more⟩ : ∃ transfer, (access cfg s r isWrite data reply).state.bus.transfers =
        _ ++ [transfer] := access_of_found on fun failed => open_case (failed_iff.mp failed)
    have transfers := kept.no_transfer
    rw [more, reads] at transfers
    have length := congrArg List.length transfers
    rw [List.length_append, List.length_singleton] at length
    omega
  · intro closed
    have failed := failed_iff.mpr closed
    refine ⟨?_, ?_, fun mem same => ?_⟩
    · rw [access_of_failed on failed]
      exact reads
    · rw [access_of_failed on failed]
      exact tlbLookup_of_failed failed
    · have lookup : accessLookup cfg (s.withMemory mem) r isWrite reply =
          { accessLookup cfg s r isWrite reply with
            bus := (accessLookup cfg s r isWrite reply).bus.withMemory mem } :=
        tlbLookup_withMemory same
      have on' : (s.withMemory mem).mmu.controlReg &&& 0x1 ≠ 0 := on
      have failed' : (accessLookup cfg (s.withMemory mem) r isWrite reply).failed = true := by
        rw [lookup]
        exact failed
      rw [access_of_failed on failed, access_of_failed on' failed', lookup]
      rfl

/-- A level 1 page without user access: permissions 6 and 7 are for supervisors. -/
def supervisorTables : Memory 32 := fun a => if a = 3 then 0x11 else if a = 0x103 then 0x1e else 0

/-- A load of one word by a user. -/
def userLoad : Request := ⟨0x40, 0xa, 4, false, false⟩

/-- With the no fault bit clear the user does not read a supervisor page. -/
theorem protected_trap : Protected smallMmu ⟨enabledMmu, supervisorTables, [], []⟩ userLoad false
    (fun _ => 0) ⟨0, false⟩ :=
  (protected_iff smallMmu ⟨enabledMmu, supervisorTables, [], []⟩ userLoad false (fun _ => 0) ⟨0, false⟩
    (by decide) (by decide)).mpr (.inl (by decide))

/-- With the no fault bit set the user reads the supervisor page. -/
theorem protected_fails :
    ¬ ∀ (cfg : MmuConfig) (s : MmuSystem) (r : Request) (isWrite : Bool) (data : Buffer) (reply : Reply),
      s.mmu.controlReg &&& 0x1 ≠ 0 →
      (getPhysicalAddress cfg s.mmu s.bus r.address r.asi r.isDbg isWrite).errorCode ≠ 0 →
      Protected cfg s r isWrite data reply := by
  intro claim
  have kept := claim smallMmu ⟨{ enabledMmu with controlReg := 0x3 }, supervisorTables, [], []⟩ userLoad
    false (fun _ => 0) ⟨0, false⟩ (by decide) (by decide)
  have transfers := congrArg List.length kept.no_transfer
  exact absurd transfers (by decide)

end Access

end Socrocket.MmuCache
